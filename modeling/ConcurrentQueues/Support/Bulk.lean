import ConcurrentQueues.Support.Object

/-!
# The FIFO queue that moves several items at once

An enqueue puts a list of items into the queue or refuses them all, which it may
only do where one of the items would begin a new block.  A dequeue names the most
items it takes and takes that many or fewer, possibly none, from the front.
-/

namespace ConcurrentQueues

universe u

namespace Bulk

/-- The operations of a queue that moves several items at once. -/
inductive Op (T : Type u)
  | enqueueBulk (items : List T)
  | dequeueBulk (max : ℕ)
  deriving DecidableEq

/-- One item at a time. -/
def Op.enqueue {T : Type u} (element : T) : Op T :=
  .enqueueBulk [element]

def Op.dequeue {T : Type u} : Op T :=
  .dequeueBulk 1

/-- Whether an enqueue went through, and what a dequeue found in the places it
took. -/
inductive Res (T : Type u)
  | enqueued (b : Bool)
  | dequeued (items : List (Option T))
  deriving DecidableEq

/-- The items in the queue, oldest first, and how many have ever been put in. -/
structure Contents (T : Type u) where
  enqueued : ℕ
  items : List T

/-- One of `count` items, put in after `enqueued` others, begins a block. -/
def NeedsBlock (blockSize enqueued count : ℕ) : Prop :=
  ∃ i, enqueued ≤ i ∧ i < enqueued + count ∧ blockSize ∣ i

/-- The operations of a queue whose blocks hold `blockSize` items. -/
inductive Apply {T : Type u} (blockSize : ℕ) :
    Contents T → Op T → Res T → Contents T → Prop
  | enqueue {k : ℕ} {q items : List T} :
      Apply blockSize ⟨k, q⟩ (.enqueueBulk items) (.enqueued true)
        ⟨k + items.length, q ++ items⟩
  | refuse {k : ℕ} {q items : List T}
      (h : NeedsBlock blockSize k items.length) :
      Apply blockSize ⟨k, q⟩ (.enqueueBulk items) (.enqueued false) ⟨k, q⟩
  | dequeue {k : ℕ} {q : List T} {max n : ℕ} (hmax : n ≤ max)
      (hn : n ≤ q.length) :
      Apply blockSize ⟨k, q⟩ (.dequeueBulk max)
        (.dequeued ((q.take n).map some)) ⟨k, q.drop n⟩

/-- The queue. -/
def object (T : Type u) (blockSize : ℕ) :
    SeqObject (Contents T) (Op T) (Res T) where
  init := ⟨0, []⟩
  apply := Apply blockSize

end Bulk
end ConcurrentQueues
