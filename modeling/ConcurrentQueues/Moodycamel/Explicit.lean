import ConcurrentQueues.Moodycamel.BlockIndex
import Mathlib.Data.List.Rotate

/-!
# The blocks of an explicit producer

`ExplicitProducer` keeps its elements in blocks that form a circular list.  An
enqueue that comes to the end of a block goes on in the next block of the list
if that one is empty, else in a new block, which it puts in between.  A block is
empty when all its `emptyFlags` are set.  They are set by the threads that have
moved the elements out, and the producer clears them before it uses the block
again.

The counters are those of one producer.  A block that comes from the pool has
not been used before.  All threads see the block index as the producer leaves
it.
-/

namespace ConcurrentQueues

universe u v

namespace Moodycamel
namespace Explicit

open Bulk

variable {K : IndexKind} {ι : Type v} {T : Type u}

/-! ## The producer and its blocks -/

/-- The atomics: the counters of `ProducerBase` and the flags of the blocks. -/
inductive Loc
  | counter (a : Moodycamel.Loc)
  | emptyFlag (block i : ℕ)
  deriving DecidableEq

/-- The elements lie in blocks. -/
abbrev Memory (ι : Type v) (T : Type u) := ViewMemory Loc (ℕ × ℕ) ι (Option T)

/-- The memory, the blocks from `tailBlock->next` round to `tailBlock`, and the
block index. -/
structure Shared (K : IndexKind) (ι : Type v) (T : Type u) where
  mem : Memory ι T
  ring : List ℕ
  blockIndex : K.Index

def Shared.new (X : BlockIndex K) : Shared K ι T where
  mem := .init (fun _ => 0) fun _ => none
  ring := []
  blockIndex := X.new

namespace Shared

variable (q : Shared K ι T)

/-- The block `count` places ahead of the next one. -/
def ahead (count : ℕ) : ℕ :=
  q.ring.getD count 0

/-- `newBlock` is put in behind `count` blocks. -/
def insert (count newBlock : ℕ) : Shared K ι T :=
  { q with ring := q.ring.take count ++ newBlock :: q.ring.drop count }

/-- `tailBlock` is `startBlock` again, or else the first block. -/
def undo (startBlock : Option ℕ) : Shared K ι T :=
  { q with ring := q.ring.rotate (startBlock.elim 0 q.ring.idxOf + 1) }

/-- The last of the next `count` blocks is `tailBlock`. -/
def advance (count : ℕ) : Shared K ι T :=
  { q with ring := q.ring.rotate count }

end Shared

/-! ## Threads -/

/-- Where the producer stands in an enqueue.  `count` blocks have been found,
and more are needed for `blockBaseDiff` elements. -/
inductive Enqueue (T : Type u)
  /-- before the load of `tailIndex` -/
  | load
  /-- at the top of the loop over the blocks ahead -/
  | reuse (startTailIndex blockBaseDiff count : ℕ)
  /-- in `is_empty` of the next block, before the load of flag `i` -/
  | isEmpty (startTailIndex blockBaseDiff count i : ℕ)
      (heard : List (Loc × ℕ))
  /-- at the top of the loop over new blocks -/
  | allocate (startTailIndex blockBaseDiff count : ℕ)
  /-- in `set_all_empty` of the new block, before the store of flag `i` -/
  | setAllEmpty (startTailIndex blockBaseDiff count i : ℕ)
  /-- in `reset_empty` of a block, before the store of its flag `i` -/
  | resetEmpty (startTailIndex count block i : ℕ)
  /-- before the construction of the rest, the next element at
  `currentTailIndex`, in the first of the blocks -/
  | construct (currentTailIndex : ℕ) (blocks : List ℕ) (rest : List T)

/-- Where a thread stands in a dequeue. -/
inductive Dequeue (K : IndexKind) (ι : Type v) (T : Type u)
  /-- before the increment of `headIndex` -/
  | count (pc : Moodycamel.Dequeue T)
  /-- in search of the block of `firstIndex` -/
  | locate (firstIndex actual : ℕ) (search : K.Search)
  /-- before the move out of the next element -/
  | read (firstIndex actual : ℕ) (got : List (Option T))
      (firstIndexInBlock : ℕ) (found : K.Found)
  /-- in `set_many_empty` of a block, behind its fence, with `j` flags set -/
  | setManyEmpty (firstIndex actual : ℕ) (got : List (Option T))
      (firstIndexInBlock : ℕ) (found : K.Found) (fenced : View Loc ι) (j : ℕ)

/-- The local state of a thread. -/
inductive Thread (K : IndexKind) (ι : Type v) (T : Type u)
  | idle
  | enqueue (items : List T) (startBlock : Option ℕ) (original : K.Original)
      (pc : Enqueue T)
  | dequeue (max : ℕ) (pc : Dequeue K ι T)
  | done (r : Res T)

/-- The scheduler decides which call a thread makes, the memory which message a
load sees, the pool whether there is a block and which.  An enqueue of one
element leaves `set_all_empty` out. -/
inductive Choice (T : Type u)
  | call (op : Op T)
  | see (k : ℕ)
  | go
  | fail
  | block (newBlock : ℕ) (setAll : Bool)

/-! ## The operations -/

variable [DecidableEq ι]

/-- The message of a relaxed store behind a release fence tells what was known
at the fence. -/
def storeFenced (mem : Memory ι T) (t : ι) (fenced : View Loc ι) (a : Loc)
    (v : ℕ) : Memory ι T :=
  mem.post t a ⟨v, View.single a (mem.msgs a).length ⊔ fenced, false⟩

/-- One step of `enqueue` or `enqueue_bulk`.  A new block is put in, with its
entry, before its flags are set, which only the producer could tell. -/
def enqueueBulk (X : BlockIndex K) (V : Orders) (w BLOCK_SIZE : ℕ) (t : ι)
    (q : Shared K ι T) (items : List T) (startBlock : Option ℕ)
    (original : K.Original) : Enqueue T → Choice T →
      Option (Event T × Shared K ι T × Thread K ι T)
  | .load, .see k =>
      (q.mem.load t .relaxed (.counter .tailIndex) k).map
        fun (startTailIndex, mem) => (.inner, { q with mem := mem },
          .enqueue items q.ring.getLast? (X.original q.blockIndex)
            (.reuse startTailIndex
              (blockBaseDiff w BLOCK_SIZE startTailIndex items.length) 0))
  | .reuse startTailIndex blockBaseDiff count, .go =>
      some (.inner, q, .enqueue items startBlock original
        (if 0 < blockBaseDiff ∧ count < q.ring.length
          then .isEmpty startTailIndex blockBaseDiff count 0 []
          else .allocate startTailIndex blockBaseDiff count))
  | .isEmpty startTailIndex blockBaseDiff count i heard, .see k =>
      if i < BLOCK_SIZE then
        let flag := .emptyFlag (q.ahead count) i
        (q.mem.load t .relaxed flag k).map fun (isSet, mem) =>
          (.inner, { q with mem := mem }, .enqueue items startBlock original
            (if isSet = 0
              then .allocate startTailIndex blockBaseDiff count
              else .isEmpty startTailIndex blockBaseDiff count (i + 1)
                ((flag, k) :: heard)))
      else none
  | .isEmpty startTailIndex blockBaseDiff count i heard, .go =>
      if i < BLOCK_SIZE then none
      else
        let base := newBase w BLOCK_SIZE startTailIndex count
        some (.inner, { q with
          mem := q.mem.acquireFence t heard
          blockIndex := X.addEntry base (q.ahead count) q.blockIndex },
          .enqueue items startBlock original (.reuse startTailIndex
            ((SizeT.bits w).sub blockBaseDiff BLOCK_SIZE) (count + 1)))
  | .allocate startTailIndex blockBaseDiff count, .go =>
      if blockBaseDiff = 0 then
        some (.inner, q, .enqueue items startBlock original
          (if count = 0
            then .construct startTailIndex startBlock.toList items
            else .resetEmpty startTailIndex count 0 0))
      else if X.hasRoom q.blockIndex then none
      else
        let (original, blockIndex) := X.newBlockIndex original q.blockIndex
        some (.inner, { q with blockIndex := blockIndex },
          .enqueue items startBlock original
            (.allocate startTailIndex blockBaseDiff count))
  | .allocate _ blockBaseDiff _, .fail =>
      if 0 < blockBaseDiff then
        some (.inner, { q.undo startBlock with
          blockIndex := X.restore original q.blockIndex },
          .done (.enqueued false))
      else none
  | .allocate startTailIndex blockBaseDiff count, .block newBlock setAll =>
      if 0 < blockBaseDiff ∧ X.hasRoom q.blockIndex ∧ newBlock ∉ q.ring ∧
          (setAll ∨ items.length = 1) then
        let base := newBase w BLOCK_SIZE startTailIndex count
        some (.inner, { q.insert count newBlock with
          blockIndex := X.addEntry base newBlock (X.useSlot q.blockIndex) },
          .enqueue items startBlock original
          (if setAll then .setAllEmpty startTailIndex blockBaseDiff count 0
            else .allocate startTailIndex
              ((SizeT.bits w).sub blockBaseDiff BLOCK_SIZE) (count + 1)))
      else none
  | .setAllEmpty startTailIndex blockBaseDiff count i, .go =>
      if i < BLOCK_SIZE then
        let flag := .emptyFlag (q.ahead count) i
        some (.inner, { q with mem := q.mem.store t .relaxed flag 1 },
          .enqueue items startBlock original
            (.setAllEmpty startTailIndex blockBaseDiff count (i + 1)))
      else
        some (.inner, q, .enqueue items startBlock original
          (.allocate startTailIndex
            ((SizeT.bits w).sub blockBaseDiff BLOCK_SIZE) (count + 1)))
  | .resetEmpty startTailIndex count block i, .go =>
      if i < BLOCK_SIZE then
        let flag := .emptyFlag (q.ahead block) i
        some (.inner, { q with mem := q.mem.store t .relaxed flag 0 },
          .enqueue items startBlock original
            (.resetEmpty startTailIndex count block (i + 1)))
      else if block + 1 < count then
        some (.inner, q, .enqueue items startBlock original
          (.resetEmpty startTailIndex count (block + 1) 0))
      else
        let blocks := q.ring.take count
        some (.inner, { q.advance count with
          blockIndex := X.publish startTailIndex blocks q.blockIndex },
          .enqueue items startBlock original (.construct startTailIndex
            ((if BLOCK_SIZE ∣ startTailIndex then [] else startBlock.toList) ++
              blocks) items))
  | .construct currentTailIndex blocks (element :: rest), .go =>
      let next := (SizeT.bits w).add currentTailIndex 1
      let place := (blocks.headD 0, currentTailIndex % BLOCK_SIZE)
      some (.inner, { q with mem := q.mem.write t place (some element) },
        .enqueue items startBlock original (.construct next
          (if BLOCK_SIZE ∣ next then blocks.tail else blocks) rest))
  | .construct newTailIndex _ [], .go =>
      let mem := q.mem.store t V.tailStore (.counter .tailIndex) newTailIndex
      some (.publish items, { q with mem := mem }, .done (.enqueued true))
  | _, _ => none

/-- One step on the counters in `dequeue` or `dequeue_bulk`. -/
def dequeueCount (V : Orders) (w : ℕ) (t : ι) (mem : Memory ι T) (max : ℕ) :
    Moodycamel.Dequeue T → Choice T →
      Option (Event T × Memory ι T × Moodycamel.Thread T)
  | .load, .see k =>
      (mem.load t .relaxed (.counter .tailIndex) k).map fun (tail, mem) =>
        (.inner, mem, .dequeue max (.overcommit tail [(.tailIndex, k)]))
  | .overcommit tail heard, .see k =>
      (mem.load t .relaxed (.counter .dequeueOvercommit) k).map
        fun (overcommit, mem) => (.inner, mem, .dequeue max
          (.optimistic tail overcommit ((.dequeueOvercommit, k) :: heard)))
  | .optimistic tail overcommit heard, .see k =>
      (mem.load t .relaxed (.counter .dequeueOptimisticCount) k).map
        fun (optimistic, mem) =>
          (.inner, mem, asked V w max tail overcommit optimistic
            ((.dequeueOptimisticCount, k) :: heard))
  | .fence overcommit desired heard, .go =>
      some (.inner, mem.acquireFence t (heard.map (Prod.map .counter id)),
        .dequeue max (.draw overcommit desired))
  | .draw overcommit desired, .go =>
      (mem.modify t V.optimisticFetch (.counter .dequeueOptimisticCount)
        fun v => (SizeT.bits w).add v desired).map
        fun (myDequeueCount, mem) => (.draw desired, mem,
          .dequeue max (.reload overcommit desired myDequeueCount))
  | .reload overcommit desired myDequeueCount, .see k =>
      (mem.load t V.tailLoad (.counter .tailIndex) k).map fun (tail, mem) =>
        (.inner, mem, checked w max overcommit desired myDequeueCount tail)
  | .refund overcommit desired myDequeueCount tail actual, .go =>
      (mem.modify t V.overcommitFetch (.counter .dequeueOvercommit)
        fun v => (SizeT.bits w).add v (desired - actual)).map
        fun (_, mem) =>
          (.inner, mem, refunded max overcommit myDequeueCount tail actual)
  | .take _ _ _ actual, .go =>
      (mem.modify t V.headFetch (.counter .headIndex)
        fun v => (SizeT.bits w).add v actual).map
        fun (firstIndex, mem) =>
          (.take actual, mem, .dequeue max (.read firstIndex actual []))
  | _, _ => none

/-- The thread after a step on the counters. -/
def counted (X : BlockIndex K) : Moodycamel.Thread T → Thread K ι T
  | .dequeue max (.read firstIndex actual _) =>
      .dequeue max (.locate firstIndex actual (X.search firstIndex))
  | .dequeue max pc => .dequeue max (.count pc)
  | .done r => .done r
  | _ => .idle

/-- One step of `dequeue` or `dequeue_bulk`. -/
def dequeueBulk (X : BlockIndex K) (V : Orders) (w BLOCK_SIZE : ℕ) (t : ι)
    (q : Shared K ι T) (max : ℕ) : Dequeue K ι T → Choice T →
      Option (Event T × Shared K ι T × Thread K ι T)
  | .count pc, c =>
      (dequeueCount V w t q.mem max pc c).map fun (e, mem, th) =>
        (e, { q with mem := mem }, counted X th)
  | .locate firstIndex actual search, .go =>
      -- with nothing to move out, what the search finds is not used
      some (.inner, q, if actual = 0 then .done (.dequeued [])
        else .dequeue max (match X.look q.blockIndex search with
          | .inl search => .locate firstIndex actual search
          | .inr found => .read firstIndex actual [] firstIndex found))
  | .read firstIndex actual got firstIndexInBlock found, .go =>
      if got.length < actual then
        let index := (SizeT.bits w).add firstIndex got.length
        let place := (X.block found, index % BLOCK_SIZE)
        let mem := q.mem.write t place none
        let got := got ++ [(q.mem.cells place).data]
        some (.inner, { q with mem := mem }, .dequeue max
          (if got.length < actual ∧
              ¬BLOCK_SIZE ∣ (SizeT.bits w).add index 1
            then .read firstIndex actual got firstIndexInBlock found
            else .setManyEmpty firstIndex actual got firstIndexInBlock found
              (mem.view t) 0))
      else none
  | .setManyEmpty firstIndex actual got firstIndexInBlock found fenced j,
      .go =>
      let index := (SizeT.bits w).add firstIndex got.length
      let count := (SizeT.bits w).sub index firstIndexInBlock
      if j < count then
        let i := (SizeT.bits w).add ((SizeT.bits w).sub
          (BLOCK_SIZE - 1 - firstIndexInBlock % BLOCK_SIZE) count) 1
        let mem := storeFenced q.mem t fenced
          (.emptyFlag (X.block found) (i + j)) 1
        some (.inner, { q with mem := mem }, .dequeue max
          (.setManyEmpty firstIndex actual got firstIndexInBlock found fenced
            (j + 1)))
      else
        some (.inner, q, if got.length < actual
          then .dequeue max (.read firstIndex actual got index
            (X.next index q.blockIndex found))
          else .done (.dequeued got))
  | _, _ => none

/-! ## The system -/

/-- The first step of a call. -/
def enter (X : BlockIndex K) (q : Shared K ι T) : Op T → Thread K ι T
  | .enqueueBulk items =>
      .enqueue items none (X.original q.blockIndex) .load
  | .dequeueBulk max => .dequeue max (.count .load)

/-- One step of a thread. -/
def move (X : BlockIndex K) (V : Orders) (w BLOCK_SIZE : ℕ) (producer t : ι)
    (q : Shared K ι T) :
    Thread K ι T → Choice T → Option (Event T × Shared K ι T × Thread K ι T)
  | .idle, .call op =>
      if Allowed producer t op then some (.call op, q, enter X q op) else none
  | .enqueue items startBlock original pc, c =>
      enqueueBulk X V w BLOCK_SIZE t q items startBlock original pc c
  | .dequeue max pc, c => dequeueBulk X V w BLOCK_SIZE t q max pc c
  | .done r, .go => some (.ret r, q, .idle)
  | _, _ => none

/-- The threads on the blocks of one producer. -/
abbrev State (K : IndexKind) (ι : Type v) (T : Type u) :=
  Pool ι (Shared K ι T) (Thread K ι T)

/-- All executions of the threads `ι`. -/
def system (X : BlockIndex K) (V : Orders) (w BLOCK_SIZE : ℕ) (producer : ι)
    (T : Type u) : Lts (State K ι T) (ι × Event T) where
  init := ⟨Shared.new X, fun _ => .idle⟩
  step s a s' := ∃ c q th,
    move X V w BLOCK_SIZE producer a.1 s.shared (s.threads a.1) c =
      some (a.2, q, th) ∧ s' = s.move a.1 q th

/-- The place that a thread is about to construct an element in or to move one
out of. -/
def accesses (X : BlockIndex K) (w BLOCK_SIZE : ℕ) :
    Thread K ι T → Option (ℕ × ℕ)
  | .enqueue _ _ _ (.construct currentTailIndex blocks (_ :: _)) =>
      some (blocks.headD 0, currentTailIndex % BLOCK_SIZE)
  | .dequeue _ (.read firstIndex actual got _ found) =>
      if got.length < actual then
        some (X.block found,
          (SizeT.bits w).add firstIndex got.length % BLOCK_SIZE)
      else none
  | _ => none

/-- Some thread stands before an access to a place of a block that races. -/
def Racing (X : BlockIndex K) (w BLOCK_SIZE : ℕ) (s : State K ι T) : Prop :=
  ∃ t place, accesses X w BLOCK_SIZE (s.threads t) = some place ∧
    ¬s.shared.mem.WriteSafe t place

end Explicit
end Moodycamel
end ConcurrentQueues
