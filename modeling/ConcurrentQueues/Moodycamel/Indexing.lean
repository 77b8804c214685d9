import ConcurrentQueues.Moodycamel.Blocks
import ConcurrentQueues.Moodycamel.Window

/-!
# The block index finds the blocks

With the block index of the source the threads do what they do with an index
that keeps all entries.  The array in use shows the blocks of the list, from the
first one on, and those of all elements that have been claimed are among them.
An array that a dequeue has begun with keeps the entries of its elements, though
it may have been left behind.
-/

namespace ConcurrentQueues

universe u v

namespace Moodycamel

open Bulk

variable {ι : Type v} {T : Type u}

/-! ## Refused enqueues -/

/-- How many elements an enqueue is called with. -/
def Event.asks : Event T → Option ℕ
  | .call (.enqueueBulk items) => some items.length
  | _ => none

/-- How many elements the last enqueue was called with. -/
def lastAsked (tr : List (ι × Event T)) : ℕ :=
  tr.foldl (fun n a => a.2.asks.getD n) 0

namespace Explicit

/-! ## Threads -/

/-- The thread with the index that keeps all entries. -/
def forget : Thread ofArrays ι T → Thread ofMap ι T
  | .idle => .idle
  | .enqueue items startBlock _ pc => .enqueue items startBlock () pc
  | .dequeue max (.count pc) => .dequeue max (.count pc)
  | .dequeue max (.locate firstIndex actual _) =>
      .dequeue max (.locate firstIndex actual firstIndex)
  | .dequeue max (.read firstIndex actual got firstIndexInBlock found) =>
      .dequeue max
        (.read firstIndex actual got firstIndexInBlock found.block)
  | .dequeue max (.setManyEmpty firstIndex actual got firstIndexInBlock found
      fenced j) =>
      .dequeue max (.setManyEmpty firstIndex actual got firstIndexInBlock
        found.block fenced j)
  | .done r => .done r

/-- What is shared with the index that keeps all entries. -/
def Shared.withMap (q : Shared ofArrays ι T) (blockIndex : ℕ → ℕ) :
    Shared ofMap ι T :=
  ⟨q.mem, q.ring, blockIndex⟩

/-- How many blocks have an entry that is not published. -/
def Enqueue.gathered : Enqueue T → ℕ
  | .reuse _ _ count
  | .isEmpty _ _ count _ _
  | .allocate _ _ count
  | .resetEmpty _ count _ _ => count
  | .setAllEmpty _ _ count _ => count + 1
  | .load | .construct .. => 0

def gathered : Thread ofArrays ι T → ℕ
  | .enqueue _ _ _ pc => pc.gathered
  | _ => 0

/-- The array that a dequeue has begun with. -/
def arrayOf : Thread ofArrays ι T → Option ℕ
  | .dequeue _ (.locate _ _ (.front _ k))
  | .dequeue _ (.locate _ _ (.headBase _ k _))
  | .dequeue _ (.locate _ _ (.entry k _)) => some k
  | .dequeue _ (.read _ _ _ _ found)
  | .dequeue _ (.setManyEmpty _ _ _ _ found _ _) => some found.localBlockIndex
  | _ => none

/-! ## The relation -/

/-- The slot of the index has the block that the index of all entries has. -/
def Finds (B : ℕ) (blockIndex : ℕ → ℕ) (h : BlockIndexHeader) (c i : ℕ) :
    Prop :=
  (h.entries (h.slot c (i / B))).block = blockIndex (blockBase B i)

/-- Where a dequeue stands in its array. -/
def Stands (w B : ℕ) (C : ℕ → ℕ) (X : BlockIndexes) :
    Thread ofArrays ι T → Prop
  | .dequeue _ (.locate firstIndex _ (.blockIndex index)) => index = firstIndex
  | .dequeue _ (.locate firstIndex actual (.front index k)) =>
      index = firstIndex ∧
        (0 < actual → Aligned w B (X.headers k) (C k) (X.headers k).front)
  | .dequeue _ (.locate firstIndex actual (.headBase index k head)) =>
      index = firstIndex ∧ (0 < actual → Aligned w B (X.headers k) (C k) head)
  | .dequeue _ (.locate firstIndex actual (.entry k indexIndex)) =>
      0 < actual → indexIndex = (X.headers k).slot (C k) (firstIndex / B)
  | .dequeue _ (.read firstIndex actual _ firstIndexInBlock found) =>
      firstIndexInBlock < firstIndex + actual → found.indexIndex =
        (X.headers found.localBlockIndex).slot (C found.localBlockIndex)
          (firstIndexInBlock / B)
  | .dequeue _ (.setManyEmpty firstIndex actual got firstIndexInBlock found _
      _) =>
      got.length < actual → B ∣ firstIndex + got.length ∧
        firstIndexInBlock < firstIndex + got.length ∧
        found.indexIndex = (X.headers found.localBlockIndex).slot
          (C found.localBlockIndex) (firstIndexInBlock / B)
  | _ => True

/-- Every dequeue finds its blocks, and one that begins now does. -/
structure Serves (w B : ℕ) (C : ℕ → ℕ) (live : ℕ → Prop) (blockIndex : ℕ → ℕ)
    (X : BlockIndexes) (threads : ι → Thread ofArrays ι T) : Prop where
  current : ∀ i, live i → Finds B blockIndex X.header (C X.blockIndex) i
  front : ∀ i, live i → Aligned w B X.header (C X.blockIndex) X.header.front
  le : ∀ t k, arrayOf (threads t) = some k → k ≤ X.blockIndex
  finds : ∀ t k, arrayOf (threads t) = some k →
    ∀ i, Owes i (forget (threads t)) → Finds B blockIndex (X.headers k) (C k) i
  stands : ∀ t, Stands w B C X (threads t)

/-- What an enqueue falls back to. -/
def FallsBack (opened : ℕ) (X : BlockIndexes) : Thread ofArrays ι T → Prop
  | .enqueue _ _ original pc => pc.startTailIndex?.isSome →
      original.2 ≤ X.prBlockIndexSlotsUsed ∧ (original.2 = 0 → opened = 0) ∧
        (pc.gathered = 0 →
          original = (X.prBlockIndexFront, X.prBlockIndexSlotsUsed))
  | _ => True

/-- The array in use shows all blocks of the list, of which the first one has
the number `lo`. -/
structure Steers (B : ℕ) (c lo opened : ℕ) (live : ℕ → Prop)
    (blockIndex : ℕ → ℕ) (q : Shared ofArrays ι T) (th : Thread ofArrays ι T) :
    Prop where
  window : q.blockIndex.Window B c lo (q.ring.rotate (gathered th))
  next : (lo + q.ring.length) * B = opened + gathered th * B
  entries : ∀ j x, (q.ring.rotate (gathered th))[j]? = some x →
    (lo + j) * B < opened → blockIndex ((lo + j) * B) = x
  live_ge : ∀ i, live i → lo * B ≤ i
  fallsBack : FallsBack opened q.blockIndex th

/-- The threads do what they do with the index that keeps all entries.  The
producer may have lost count of its slots in an enqueue of more than a block
that it has just refused. -/
structure Indexed (w B : ℕ) (producer : ι) (pub served asked : ℕ) (C : ℕ → ℕ)
    (s₁ : State ofMap ι T) (s : State ofArrays ι T) : Prop where
  threads : ∀ t, s₁.threads t = forget (s.threads t)
  shared : s₁.shared = s.shared.withMap s₁.shared.blockIndex
  serves : Serves w B C (Live B producer pub served s₁.threads)
    s₁.shared.blockIndex s.shared.blockIndex s.threads
  steers : (∃ lo, Steers B (C s.shared.blockIndex.blockIndex) lo
      (roundUp B (reserved pub (s₁.threads producer)))
      (Live B producer pub served s₁.threads) s₁.shared.blockIndex s.shared
      (s.threads producer)) ∨
    s.threads producer = .done (.enqueued false) ∧ B < asked
  asked : ∀ items startBlock original pc,
    s.threads producer = .enqueue items startBlock original pc →
      asked = items.length

/-! ## Changes of the index -/

/-- What the producer does to the index while `live` elements are there. -/
structure Extends (w B : ℕ) (C C' : ℕ → ℕ) (live : ℕ → Prop)
    (blockIndex : ℕ → ℕ) (X X' : BlockIndexes) : Prop where
  le : X.blockIndex ≤ X'.blockIndex
  number : ∀ k ≤ X.blockIndex, C' k = C k
  size : ∀ k ≤ X.blockIndex, (X'.headers k).size = (X.headers k).size
  finds : ∀ k ≤ X.blockIndex, ∀ i, live i →
    Finds B blockIndex (X.headers k) (C k) i →
      Finds B blockIndex (X'.headers k) (C k) i
  aligned : ∀ k ≤ X.blockIndex, ∀ j, Aligned w B (X.headers k) (C k) j →
    Aligned w B (X'.headers k) (C k) j
  front : ∀ k ≤ X.blockIndex,
    Aligned w B (X.headers k) (C k) (X.headers k).front →
      Aligned w B (X'.headers k) (C k) (X'.headers k).front

section Index

variable {w B : ℕ} {C C' : ℕ → ℕ} {live live' : ℕ → Prop}
  {blockIndex : ℕ → ℕ} {X X' : BlockIndexes} {th : Thread ofArrays ι T}

theorem extends_of_headers (hX : X'.headers = X.headers)
    (hcurrent : X'.blockIndex = X.blockIndex) :
    Extends w B C C live blockIndex X X' := by
  refine ⟨hcurrent.ge, fun _ _ => rfl, ?_, ?_, ?_, ?_⟩ <;> rw [hX]
  · exact fun _ _ => rfl
  · exact fun _ _ _ _ h => h
  · exact fun _ _ _ h => h
  · exact fun _ _ h => h

theorem Extends.stands (h : Extends w B C C' live blockIndex X X')
    (hle : ∀ k, arrayOf th = some k → k ≤ X.blockIndex)
    (hth : Stands w B C X th) : Stands w B C' X' th := by
  have hslot : ∀ k m, k ≤ X.blockIndex →
      (X'.headers k).slot (C' k) m = (X.headers k).slot (C k) m := by
    intro k m hk
    rw [BlockIndexHeader.slot, BlockIndexHeader.slot, h.size k hk,
      h.number k hk]
  cases th with
  | idle | done | enqueue => trivial
  | dequeue max pc =>
      cases pc with
      | count => trivial
      | locate first actual search =>
          cases search with
          | blockIndex => exact hth
          | front index k =>
              have hk := hle k rfl
              refine ⟨hth.1, fun hpos => ?_⟩
              rw [h.number k hk]
              exact h.front k hk (hth.2 hpos)
          | headBase index k head =>
              have hk := hle k rfl
              refine ⟨hth.1, fun hpos => ?_⟩
              rw [h.number k hk]
              exact h.aligned k hk head (hth.2 hpos)
          | entry k slot =>
              intro hpos
              rw [hslot k _ (hle k rfl)]
              exact hth hpos
      | read first actual got base found =>
          intro hlt
          rw [hslot _ _ (hle _ rfl)]
          exact hth hlt
      | setManyEmpty first actual got base found fenced j =>
          intro hlt
          rw [hslot _ _ (hle _ rfl)]
          exact hth hlt

/-- What the array in use shows is found. -/
theorem Steers.finds {c lo opened : ℕ} {q : Shared ofArrays ι T} (hB : 0 < B)
    (h : Steers B c lo opened live blockIndex q th) {i : ℕ} (hi : live i)
    (hlt : i < opened) : Finds B blockIndex q.blockIndex.header c i := by
  have hge := (Nat.le_div_iff_mul_le hB).mpr (h.live_ge i hi)
  have hless : i / B < lo + q.ring.length := by
    rw [Nat.div_lt_iff_lt_mul hB, h.next]
    exact hlt.trans_le (Nat.le_add_right _ _)
  obtain ⟨j, hj⟩ := Nat.exists_eq_add_of_le hge
  have hj' : j < (q.ring.rotate (gathered th)).length := by
    rw [List.length_rotate]
    omega
  have hget := List.getElem?_eq_getElem hj'
  have hbase : blockBase B i = (lo + j) * B := congrArg (· * B) hj
  rw [Finds, hj, h.window.entries j _ hget, hbase]
  exact (h.entries j _ hget (hbase ▸ (blockBase_le B i).trans_lt hlt)).symm

end Index

/-! ## What a step keeps -/

section Steps

variable [DecidableEq ι] {w B : ℕ} {producer t : ι}
  {pub pub' served served' asked asked' : ℕ} {C C' : ℕ → ℕ}
  {s₁ : State ofMap ι T} {s : State ofArrays ι T} {q : Shared ofArrays ι T}
  {m : ℕ → ℕ} {th : Thread ofArrays ι T}

theorem Indexed.assemble (h : Indexed w B producer pub served asked C s₁ s)
    (hextends : Extends w B C C' (Live B producer pub served s₁.threads)
      s₁.shared.blockIndex s.shared.blockIndex q.blockIndex)
    (hkept : ∀ u i, u ≠ t → Owes i (s₁.threads u) →
      Live B producer pub served s₁.threads i ∧
        m (blockBase B i) = s₁.shared.blockIndex (blockBase B i))
    (hcurrent : ∀ i, Live B producer pub' served'
      (s₁.move t (q.withMap m) (forget th)).threads i →
        Finds B m q.blockIndex.header (C' q.blockIndex.blockIndex) i ∧
          Aligned w B q.blockIndex.header (C' q.blockIndex.blockIndex)
            q.blockIndex.header.front)
    (huses : ∀ k, arrayOf th = some k → k ≤ q.blockIndex.blockIndex ∧
      ∀ i, Owes i (forget th) →
        Finds B m (q.blockIndex.headers k) (C' k) i)
    (hstands : Stands w B C' q.blockIndex th)
    (hsteers : (∃ lo, Steers B (C' q.blockIndex.blockIndex) lo
        (roundUp B (reserved pub'
          ((s₁.move t (q.withMap m) (forget th)).threads producer)))
        (Live B producer pub' served'
          (s₁.move t (q.withMap m) (forget th)).threads) m q
        ((s.move t q th).threads producer)) ∨
      (s.move t q th).threads producer = .done (.enqueued false) ∧ B < asked')
    (hasked : ∀ items startBlock original pc,
      (s.move t q th).threads producer =
        .enqueue items startBlock original pc → asked' = items.length) :
    Indexed w B producer pub' served' asked' C'
      (s₁.move t (q.withMap m) (forget th)) (s.move t q th) where
  threads u := by
    by_cases hu : u = t
    · subst hu
      rw [Pool.move_threads_self, Pool.move_threads_self]
    · rw [Pool.move_threads_of_ne _ _ _ hu, Pool.move_threads_of_ne _ _ _ hu]
      exact h.threads u
  shared := rfl
  serves := by
    refine ⟨fun i hi => (hcurrent i hi).1, fun i hi => (hcurrent i hi).2,
      Pool.forall_move (P := fun _ th => ∀ k, arrayOf th = some k →
        k ≤ q.blockIndex.blockIndex) (fun k hk => (huses k hk).1)
        fun u _ k hk => (h.serves.le u k hk).trans hextends.le,
      Pool.forall_move (P := fun _ th => ∀ k, arrayOf th = some k →
        ∀ i, Owes i (forget th) →
          Finds B m (q.blockIndex.headers k) (C' k) i)
        (fun k hk => (huses k hk).2) fun u hu k hk i hi => ?_,
      Pool.forall_move hstands fun u _ =>
        hextends.stands (h.serves.le u) (h.serves.stands u)⟩
    have hle := h.serves.le u k hk
    have hfinds := h.serves.finds u k hk i hi
    rw [← h.threads] at hi
    obtain ⟨hlive, hmap⟩ := hkept u i hu hi
    rw [Finds, hmap, hextends.number k hle]
    exact hextends.finds k hle i hlive hfinds
  steers := hsteers
  asked := hasked

/-- A step that leaves the block index as it is. -/
theorem Indexed.keep (h : Indexed w B producer pub served asked C s₁ s)
    (hindex : q.blockIndex = s.shared.blockIndex)
    (hlive : ∀ i, Live B producer pub' served'
      (s₁.move t (q.withMap s₁.shared.blockIndex) (forget th)).threads i →
        Live B producer pub served s₁.threads i)
    (howed : ∀ u i, u ≠ t → Owes i (s₁.threads u) →
      Live B producer pub served s₁.threads i)
    (huses : ∀ k, arrayOf th = some k → k ≤ s.shared.blockIndex.blockIndex ∧
      ∀ i, Owes i (forget th) → Finds B s₁.shared.blockIndex
        (s.shared.blockIndex.headers k) (C k) i)
    (hstands : Stands w B C s.shared.blockIndex th)
    (hself : t = producer → (∃ lo,
      Steers B (C s.shared.blockIndex.blockIndex) lo
        (roundUp B (reserved pub' (forget th)))
        (Live B producer pub' served'
          (s₁.move t (q.withMap s₁.shared.blockIndex) (forget th)).threads)
        s₁.shared.blockIndex q th) ∧
      ∀ items startBlock original pc,
        th = .enqueue items startBlock original pc → asked' = items.length)
    (hother : t ≠ producer → pub' = pub ∧ asked' = asked ∧
      q.ring = s.shared.ring) :
    Indexed w B producer pub' served' asked' C
      (s₁.move t (q.withMap s₁.shared.blockIndex) (forget th))
      (s.move t q th) := by
  refine h.assemble
    (extends_of_headers (congrArg _ hindex) (congrArg _ hindex))
    (fun u i hu hi => ⟨howed u i hu hi, rfl⟩) (fun i hi => ?_)
    (fun k hk => ?_) ?_ ?_ ?_
  · rw [hindex]
    exact ⟨h.serves.current i (hlive i hi), h.serves.front i (hlive i hi)⟩
  · rw [hindex]
    exact huses k hk
  · rw [hindex]
    exact hstands
  · by_cases ht : t = producer
    · subst ht
      rw [Pool.move_threads_self, Pool.move_threads_self, hindex]
      exact .inl (hself rfl).1
    · obtain ⟨rfl, rfl, hring⟩ := hother ht
      have hthread := Pool.move_threads_of_ne s q th (Ne.symm ht)
      have hthread₁ := Pool.move_threads_of_ne s₁
        (q.withMap s₁.shared.blockIndex) (forget th) (Ne.symm ht)
      rw [hthread, hthread₁, hindex]
      refine h.steers.imp_left fun hsteers => ?_
      obtain ⟨lo, hsteers⟩ := hsteers
      refine ⟨lo, ?_, ?_, ?_, fun i hi => hsteers.live_ge i (hlive i hi), ?_⟩
      · rw [hindex, hring]
        exact hsteers.window
      · rw [hring]
        exact hsteers.next
      · rw [hring]
        exact hsteers.entries
      · rw [hindex]
        exact hsteers.fallsBack
  · by_cases ht : t = producer
    · subst ht
      rw [Pool.move_threads_self]
      exact (hself rfl).2
    · obtain ⟨-, rfl, -⟩ := hother ht
      rw [Pool.move_threads_of_ne s q th (Ne.symm ht)]
      exact h.asked

end Steps

end Explicit
end Moodycamel
end ConcurrentQueues
