import ConcurrentQueues.Moodycamel.BulkFifo
import ConcurrentQueues.Moodycamel.Storage

/-!
# No block is used again too early

The blocks carry out what the counters allow.  An element that has been claimed
stays in its place until its flag is set, and the producer takes a block only
when it has found all its flags set, so that it knows of all accesses to the
places of the block.
-/

namespace ConcurrentQueues

universe u v

namespace Moodycamel
namespace Explicit

open Bulk

variable {ι : Type v} {T : Type u}

/-! ## The counters behind the blocks -/

/-- The thread on the counters alone. -/
def erase : Thread ofMap ι T → Moodycamel.Thread T
  | .idle => .idle
  | .enqueue items _ _ .load => .enqueue items .load
  | .enqueue items _ _ (.construct currentTailIndex _ rest) =>
      .enqueue items (.construct currentTailIndex rest)
  | .enqueue items _ _ (.reuse startTailIndex _ _)
  | .enqueue items _ _ (.isEmpty startTailIndex _ _ _ _)
  | .enqueue items _ _ (.allocate startTailIndex _ _)
  | .enqueue items _ _ (.setAllEmpty startTailIndex _ _ _)
  | .enqueue items _ _ (.resetEmpty startTailIndex _ _ _) =>
      .enqueue items (.allocate startTailIndex)
  | .dequeue max (.count pc) => .dequeue max pc
  | .dequeue max (.locate firstIndex actual _) =>
      .dequeue max (.read firstIndex actual [])
  | .dequeue max (.read firstIndex actual got _ _)
  | .dequeue max (.setManyEmpty firstIndex actual got _ _ _ _) =>
      .dequeue max (.read firstIndex actual got)
  | .done r => .done r

/-- How many elements have been constructed when `pub` are published. -/
def made (pub : ℕ) : Thread ofMap ι T → ℕ
  | .enqueue _ _ _ (.construct currentTailIndex _ _) => currentTailIndex
  | _ => pub

/-- How many elements there are blocks for, at least. -/
def reserved (pub : ℕ) : Thread ofMap ι T → ℕ
  | .enqueue _ _ _ (.construct currentTailIndex _ rest) =>
      currentTailIndex + rest.length
  | _ => pub

/-- Where an enqueue starts that looks for its blocks. -/
def Enqueue.startTailIndex? : Enqueue T → Option ℕ
  | .reuse startTailIndex _ _
  | .isEmpty startTailIndex _ _ _ _
  | .allocate startTailIndex _ _
  | .setAllEmpty startTailIndex _ _ _
  | .resetEmpty startTailIndex _ _ _ => some startTailIndex
  | .load | .construct .. => none

/-- The elements that a thread has claimed and whose flags it has not set. -/
def Owes (i : ℕ) : Thread ofMap ι T → Prop
  | .dequeue _ (.locate firstIndex actual _) =>
      firstIndex ≤ i ∧ i < firstIndex + actual
  | .dequeue _ (.read firstIndex actual _ firstIndexInBlock _) =>
      firstIndexInBlock ≤ i ∧ i < firstIndex + actual
  | .dequeue _ (.setManyEmpty firstIndex actual got firstIndexInBlock _ _ j) =>
      firstIndexInBlock ≤ i ∧ i < firstIndex + actual ∧
        (i + j < firstIndex + got.length ∨ firstIndex + got.length ≤ i)
  | _ => False

/-- The indexes that own their places. -/
def Live (B : ℕ) (producer : ι) (pub served : ℕ)
    (threads : ι → Thread ofMap ι T) (i : ℕ) : Prop :=
  i < roundUp B (reserved pub (threads producer)) ∧
    (served ≤ i ∨ ∃ t, Owes i (threads t))

/-- The blocks hold the elements as the threads have left them. -/
abbrev Stored (B : ℕ) (producer : ι) (pub served : ℕ)
    (threads : ι → Thread ofMap ι T) :
    Shared ofMap ι T → Moodycamel.Memory ι T → Prop :=
  Storage B producer (made pub (threads producer))
    (roundUp B (reserved pub (threads producer)))
    (Live B producer pub served threads)

/-! ## The producer -/

/-- The block in which the `n`-th element goes is the last one, unless a block
ends there. -/
def EndsIn (B n : ℕ) (q : Shared ofMap ι T) (last : Option ℕ) : Prop :=
  ¬B ∣ n → last = some (q.blockIndex (blockBase B n))

/-- An enqueue has found `count` of the blocks it needs. -/
structure Gathers (B : ℕ) (producer : ι) (live : ℕ → Prop)
    (q : Shared ofMap ι T) (items : List T) (startBlock : Option ℕ)
    (startTailIndex blockBaseDiff count : ℕ) : Prop where
  tail : EndsIn B startTailIndex q startBlock
  last : count = 0 → startBlock = q.ring.getLast?
  diff : roundUp B startTailIndex + count * B + blockBaseDiff =
    roundUp B (startTailIndex + items.length)
  count_le : count ≤ q.ring.length
  free : ∀ x ∈ q.ring.take count, ∀ off < B, Free B producer live q (x, off)

/-- The first `i` flags of the block were found set. -/
def Heard (B : ℕ) (producer : ι) (live : ℕ → Prop) (q : Shared ofMap ι T)
    (block i : ℕ) (heard : List (Loc × ℕ)) : Prop :=
  ∀ off < B, B - 1 - off < i → (∀ j, live j → q.place B j ≠ (block, off)) ∧
    ∃ k msg, (flagOf B (block, off), k) ∈ heard ∧
      (q.mem.msgs (flagOf B (block, off)))[k]? = some msg ∧
      q.mem.Covered (block, off) (q.mem.view producer ⊔ msg.view)

/-- The flags of the first `block` blocks are cleared, and `i` flags of the
next one. -/
def Cleared (B : ℕ) (producer : ι) (q : Shared ofMap ι T) (block i : ℕ) :
    Prop :=
  ∀ n, ∀ off < B, n < block ∨ n = block ∧ B - 1 - off < i →
    Unset q.mem producer (flagOf B (q.ahead n, off))

/-- The blocks from that of the next element on. -/
def Chain (B : ℕ) (q : Shared ofMap ι T) (blocks : List ℕ)
    (currentTailIndex stop : ℕ) : Prop :=
  ∀ k, blockBase B currentTailIndex + k * B < stop →
    blocks[k]? = some (q.blockIndex (blockBase B currentTailIndex + k * B))

/-- What the producer has established. -/
def Works (B : ℕ) (producer : ι) (live : ℕ → Prop) (pub : ℕ)
    (q : Shared ofMap ι T) :
    Thread ofMap ι T → Prop
  | .enqueue items startBlock _ (.reuse startTailIndex blockBaseDiff count)
  | .enqueue items startBlock _
      (.allocate startTailIndex blockBaseDiff count) =>
      Gathers B producer live q items startBlock startTailIndex blockBaseDiff
        count
  | .enqueue items startBlock _
      (.isEmpty startTailIndex blockBaseDiff count i heard) =>
      Gathers B producer live q items startBlock startTailIndex blockBaseDiff
          count ∧
        0 < blockBaseDiff ∧ count < q.ring.length ∧
        Heard B producer live q (q.ahead count) i heard
  | .enqueue items startBlock _
      (.setAllEmpty startTailIndex blockBaseDiff count _) =>
      Gathers B producer live q items startBlock startTailIndex
          (blockBaseDiff - B) (count + 1) ∧
        B ≤ blockBaseDiff
  | .enqueue items startBlock _ (.resetEmpty startTailIndex count block i) =>
      Gathers B producer live q items startBlock startTailIndex 0 count ∧
        block < count ∧ Cleared B producer q block i
  | .enqueue _ _ _ (.construct currentTailIndex blocks rest) =>
      EndsIn B (currentTailIndex + rest.length) q q.ring.getLast? ∧
        Chain B q blocks currentTailIndex
          (roundUp B (currentTailIndex + rest.length))
  | _ => EndsIn B pub q q.ring.getLast?

/-! ## The threads that dequeue -/

/-- What a thread has established of its block and of the places it has moved
elements out of. -/
def Clears (B : ℕ) (q : Shared ofMap ι T) (t : ι) : Thread ofMap ι T → Prop
  | .dequeue _ (.locate firstIndex _ search) => search = firstIndex
  | .dequeue _ (.read firstIndex actual got firstIndexInBlock found) =>
      got.length ≤ actual ∧ firstIndexInBlock ≤ firstIndex + got.length ∧
        blockBase B (firstIndex + got.length) =
          blockBase B firstIndexInBlock ∧
        (firstIndexInBlock < firstIndex + actual →
          found = (q.place B firstIndexInBlock).1) ∧
        ∀ i, firstIndexInBlock ≤ i → i < firstIndex + got.length →
          q.mem.Covered (q.place B i) (q.mem.view t)
  | .dequeue _ (.setManyEmpty firstIndex actual got firstIndexInBlock found
      fenced j) =>
      got.length ≤ actual ∧ firstIndexInBlock + j ≤ firstIndex + got.length ∧
        firstIndex + got.length ≤ blockBase B firstIndexInBlock + B ∧
        (firstIndexInBlock + j < firstIndex + got.length →
          found = (q.place B firstIndexInBlock).1) ∧
        fenced ≤ q.mem.view t ∧
        ∀ i, firstIndexInBlock ≤ i → i + j < firstIndex + got.length →
          q.mem.Covered (q.place B i) fenced
  | _ => True

/-! ## The relation -/

/-- The blocks and the threads do what the counters and their threads do. -/
structure Refines (B : ℕ) (producer : ι) (pub served : ℕ)
    (b : Moodycamel.State ι T) (s : State ofMap ι T) : Prop where
  threads : ∀ t, b.threads t = erase (s.threads t)
  below : b.shared.Below .counter s.shared.mem
  wf : s.shared.mem.WellFormed
  storage : Stored B producer pub served s.threads s.shared b.shared
  owes_lt : ∀ t i, Owes i (s.threads t) → i < served
  apart : ∀ t u i, Owes i (s.threads t) → Owes i (s.threads u) → t = u
  clears : ∀ t, Clears B s.shared t (s.threads t)
  works : Works B producer (Live B producer pub served s.threads) pub s.shared
    (s.threads producer)

/-! ## What a step keeps -/

section Keeps

variable {B : ℕ} {producer t : ι} {live live' : ℕ → Prop} {pub : ℕ}
  {q q' : Shared ofMap ι T} {place : ℕ × ℕ} {th : Thread ofMap ι T}

/-- A step that accesses live places only and stores to flags of live places
only. -/
structure Undisturbed (B : ℕ) (producer : ι) (live live' : ℕ → Prop)
    (q q' : Shared ofMap ι T) : Prop where
  ring : q'.ring = q.ring
  blockIndex : q'.blockIndex = q.blockIndex
  live_le : ∀ i, live' i → live i
  view_le : q.mem.view producer ≤ q'.mem.view producer
  cells : ∀ place, (∀ i, live i → q.place B i ≠ place) →
    q'.mem.cells place = q.mem.cells place
  msgs : ∀ (a : Loc) (k : ℕ) (msg : Msg Loc ι),
    (q.mem.msgs a)[k]? = some msg → (q'.mem.msgs a)[k]? = some msg

theorem place_congr (h : q'.blockIndex = q.blockIndex) (i : ℕ) :
    q'.place B i = q.place B i := by
  rw [Shared.place, Shared.place, h]

theorem ahead_congr (h : q'.ring = q.ring) (n : ℕ) :
    q'.ahead n = q.ahead n := by
  rw [Shared.ahead, Shared.ahead, h]

theorem EndsIn.congr {n : ℕ} {last : Option ℕ} (h : EndsIn B n q last)
    (hindex : q'.blockIndex = q.blockIndex) : EndsIn B n q' last := by
  rw [EndsIn, hindex]
  exact h

variable (hu : Undisturbed B producer live live' q q')

include hu

theorem Undisturbed.apart (h : ∀ i, live i → q.place B i ≠ place) :
    ∀ i, live' i → q'.place B i ≠ place := fun i hi => by
  rw [place_congr hu.blockIndex]
  exact h i (hu.live_le i hi)

theorem Undisturbed.free (h : Free B producer live q place) :
    Free B producer live' q' place :=
  ⟨hu.apart h.1, covered_congr h.2 (hu.cells place h.1) hu.view_le⟩

theorem Undisturbed.gathers {items : List T} {startBlock : Option ℕ}
    {startTailIndex blockBaseDiff count : ℕ}
    (h : Gathers B producer live q items startBlock startTailIndex
      blockBaseDiff count) :
    Gathers B producer live' q' items startBlock startTailIndex blockBaseDiff
      count where
  tail := h.tail.congr hu.blockIndex
  last := hu.ring ▸ h.last
  diff := h.diff
  count_le := hu.ring ▸ h.count_le
  free x hx off hoff := hu.free (h.free x (hu.ring ▸ hx) off hoff)

theorem Undisturbed.heard {block i : ℕ} {heard : List (Loc × ℕ)}
    (h : Heard B producer live q block i heard) :
    Heard B producer live' q' block i heard := by
  intro off hoff hi
  obtain ⟨hapart, k, msg, hmem, hmsg, hcovered⟩ := h off hoff hi
  refine ⟨hu.apart hapart, k, msg, hmem, hu.msgs _ k msg hmsg,
    covered_congr hcovered (hu.cells _ hapart) ?_⟩
  exact View.sup_le (View.le_trans hu.view_le View.le_sup_left)
    View.le_sup_right

/-- A step of another thread. -/
theorem Works.mono (h : Works B producer live pub q th)
    (hflags : ∀ place : ℕ × ℕ, place.2 < B →
      (∀ i, live i → q.place B i ≠ place) →
      q'.mem.msgs (flagOf B place) = q.mem.msgs (flagOf B place)) :
    Works B producer live' pub q' th := by
  cases th with
  | idle | done | dequeue =>
      change EndsIn B pub q' q'.ring.getLast?
      rw [hu.ring]
      exact EndsIn.congr h hu.blockIndex
  | enqueue items startBlock original pc =>
      cases pc with
      | load =>
          change EndsIn B pub q' q'.ring.getLast?
          rw [hu.ring]
          exact EndsIn.congr h hu.blockIndex
      | reuse | allocate => exact hu.gathers h
      | isEmpty =>
          obtain ⟨hg, hpos, hlt, hheard⟩ := h
          refine ⟨hu.gathers hg, hpos, hu.ring ▸ hlt, ?_⟩
          rw [ahead_congr hu.ring]
          exact hu.heard hheard
      | setAllEmpty => exact ⟨hu.gathers h.1, h.2⟩
      | resetEmpty start count block i =>
          obtain ⟨hg, hlt, hcleared⟩ := h
          refine ⟨hu.gathers hg, hlt, fun n off hoff hn => ?_⟩
          rw [ahead_congr hu.ring]
          refine (hcleared n off hoff hn).mono (hflags _ hoff ?_) hu.view_le
          exact (hg.free _ (ahead_mem_take (by omega) hg.count_le) off hoff).1
      | construct =>
          obtain ⟨htail, hchain⟩ := h
          refine ⟨?_, fun k hk => ?_⟩
          · rw [hu.ring]
            exact htail.congr hu.blockIndex
          · rw [hu.blockIndex]
            exact hchain k hk

end Keeps

/-- The places of a thread's elements are where they were. -/
theorem Clears.mono {B : ℕ} {t : ι} {q q' : Shared ofMap ι T}
    {th : Thread ofMap ι T} (h : Clears B q t th)
    (hview : q.mem.view t ≤ q'.mem.view t)
    (hkept : ∀ i, Owes i th → q'.place B i = q.place B i ∧
      q'.mem.cells (q.place B i) = q.mem.cells (q.place B i)) :
    Clears B q' t th := by
  cases th with
  | idle | done | enqueue => trivial
  | dequeue max pc =>
      cases pc with
      | count => trivial
      | locate => exact h
      | read first actual got base found =>
          obtain ⟨hgot, hle, hbase, hfound, hcovered⟩ := h
          refine ⟨hgot, hle, hbase, fun hlt => ?_, fun i hi hlt => ?_⟩
          · rw [(hkept base ⟨le_rfl, hlt⟩).1]
            exact hfound hlt
          obtain ⟨hplace, hcell⟩ := hkept i ⟨hi, by omega⟩
          rw [hplace]
          exact covered_congr (hcovered i hi hlt) hcell hview
      | setManyEmpty first actual got base found fenced j =>
          obtain ⟨hgot, hle, hbase, hfound, hfenced, hcovered⟩ := h
          refine ⟨hgot, hle, hbase, fun hlt => ?_,
            View.le_trans hfenced hview, fun i hi hlt => ?_⟩
          · rw [(hkept base ⟨le_rfl, by omega, .inl hlt⟩).1]
            exact hfound hlt
          · obtain ⟨hplace, hcell⟩ := hkept i ⟨hi, by omega, .inl hlt⟩
            rw [hplace]
            exact covered_congr (hcovered i hi hlt) hcell (View.le_refl _)

/-! ## What a step does -/

section Steps

variable [DecidableEq ι] {B : ℕ} {producer t : ι} {pub pub' served served' : ℕ}
  {b : Moodycamel.State ι T} {s : State ofMap ι T} {q' : Shared ofMap ι T}
  {m' : Moodycamel.Memory ι T} {th : Moodycamel.Thread T}
  {th' : Thread ofMap ι T}

/-- What is left of the relation when the step of a thread has kept its
storage. -/
theorem Refines.assemble (h : Refines B producer pub served b s)
    (herase : erase th' = th) (hbelow : m'.Below .counter q'.mem)
    (hwf : q'.mem.WellFormed)
    (hstorage : Stored B producer pub' served' (s.move t q' th').threads q' m')
    (hserved : served ≤ served') (hlt : ∀ i, Owes i th' → i < served')
    (hapart : ∀ u i, u ≠ t → Owes i th' → ¬Owes i (s.threads u))
    (hclears : Clears B q' t th')
    (hview : ∀ u, s.shared.mem.view u ≤ q'.mem.view u)
    (hkept : ∀ u i, u ≠ t → Owes i (s.threads u) →
      q'.place B i = s.shared.place B i ∧
        q'.mem.cells (s.shared.place B i) =
          s.shared.mem.cells (s.shared.place B i))
    (hworks : Works B producer
      (Live B producer pub' served' (s.move t q' th').threads) pub' q'
      ((s.move t q' th').threads producer)) :
    Refines B producer pub' served' (b.move t m' th)
      (s.move t q' th') where
  threads u := by
    by_cases hu : u = t
    · subst hu
      rw [Pool.move_threads_self, Pool.move_threads_self, herase]
    · rw [Pool.move_threads_of_ne _ _ _ hu, Pool.move_threads_of_ne _ _ _ hu]
      exact h.threads u
  below := hbelow
  wf := hwf
  storage := hstorage
  owes_lt := Pool.forall_move (P := fun _ th => ∀ i, Owes i th → i < served')
    hlt fun u _ i hi => (h.owes_lt u i hi).trans_le hserved
  apart u x i hu hx := by
    by_cases hut : u = t <;> by_cases hxt : x = t
    · rw [hut, hxt]
    · subst hut
      rw [Pool.move_threads_self] at hu
      rw [Pool.move_threads_of_ne _ _ _ hxt] at hx
      exact absurd hx (hapart x i hxt hu)
    · subst hxt
      rw [Pool.move_threads_self] at hx
      rw [Pool.move_threads_of_ne _ _ _ hut] at hu
      exact absurd hu (hapart u i hut hx)
    · rw [Pool.move_threads_of_ne _ _ _ hut] at hu
      rw [Pool.move_threads_of_ne _ _ _ hxt] at hx
      exact h.apart u x i hu hx
  clears := Pool.forall_move hclears fun u hu =>
    (h.clears u).mono (hview u) fun i hi => hkept u i hu hi
  works := hworks

/-- The thread is not in an enqueue, or only at its start. -/
def AtRest : Thread ofMap ι T → Prop
  | .enqueue _ _ _ .load | .idle | .dequeue _ _ | .done _ => True
  | .enqueue _ _ _ _ => False

omit [DecidableEq ι] in
theorem AtRest.made_eq {th : Thread ofMap ι T} (h : AtRest th) :
    made pub th = pub := by
  match th, h with
  | .enqueue _ _ _ .load, _ | .idle, _ | .dequeue _ _, _ | .done _, _ => rfl

omit [DecidableEq ι] in
theorem AtRest.reserved_eq {th : Thread ofMap ι T} (h : AtRest th) :
    reserved pub th = pub := by
  match th, h with
  | .enqueue _ _ _ .load, _ | .idle, _ | .dequeue _ _, _ | .done _, _ => rfl

omit [DecidableEq ι] in
theorem AtRest.works_iff {th : Thread ofMap ι T} (h : AtRest th)
    {live : ℕ → Prop}
    {q : Shared ofMap ι T} :
    Works B producer live pub q th ↔ EndsIn B pub q q.ring.getLast? := by
  match th, h with
  | .enqueue _ _ _ .load, _ | .idle, _ | .dequeue _ _, _ | .done _, _ =>
      exact Iff.rfl

/-- The step reserves no block and constructs no element. -/
def Steady (B : ℕ) (producer t : ι) (pub pub' : ℕ) (th th' : Thread ofMap ι T) :
    Prop :=
  if t = producer then made pub' th' = made pub th ∧
    roundUp B (reserved pub' th') = roundUp B (reserved pub th)
  else pub' = pub

theorem AtRest.steady {th : Thread ofMap ι T} (h : AtRest th)
    (h' : AtRest th') :
    Steady B producer t pub pub th th' := by
  rw [Steady, h.made_eq, h'.made_eq, h.reserved_eq, h'.reserved_eq]
  split_ifs
  · exact ⟨rfl, rfl⟩
  · rfl

omit [DecidableEq ι] in
theorem Refines.rests (h : Refines B producer pub served b s)
    (hth : AtRest (s.threads t)) (ht : t = producer) :
    EndsIn B pub s.shared s.shared.ring.getLast? :=
  (ht ▸ hth).works_iff.mp h.works

theorem Steady.made_eq (h : Steady B producer t pub pub' (s.threads t) th') :
    made pub' ((s.move t q' th').threads producer) =
      made pub (s.threads producer) := by
  by_cases ht : t = producer
  · subst ht
    rw [Steady, if_pos rfl] at h
    rw [Pool.move_threads_self, h.1]
  · rw [Steady, if_neg ht] at h
    rw [Pool.move_threads_of_ne _ _ _ (Ne.symm ht), h]

theorem Steady.opened_eq (h : Steady B producer t pub pub' (s.threads t) th') :
    roundUp B (reserved pub' ((s.move t q' th').threads producer)) =
      roundUp B (reserved pub (s.threads producer)) := by
  by_cases ht : t = producer
  · subst ht
    rw [Steady, if_pos rfl] at h
    rw [Pool.move_threads_self, h.2]
  · rw [Steady, if_neg ht] at h
    rw [Pool.move_threads_of_ne _ _ _ (Ne.symm ht), h]

variable (q') in
/-- No index becomes live then. -/
theorem Steady.live_le (h : Steady B producer t pub pub' (s.threads t) th')
    (howes : ∀ i, Owes i th' → Owes i (s.threads t) ∨ served ≤ i)
    (hserved : served ≤ served') {i : ℕ}
    (hi : Live B producer pub' served' (s.move t q' th').threads i) :
    Live B producer pub served s.threads i := by
  obtain ⟨hlt, hi⟩ := hi
  rw [h.opened_eq] at hlt
  refine ⟨hlt, ?_⟩
  rcases hi with hge | ⟨u, hu⟩
  · exact .inl (hserved.trans hge)
  · by_cases hut : u = t
    · subst hut
      rw [Pool.move_threads_self] at hu
      rcases howes i hu with hu | hge
      · exact .inr ⟨u, hu⟩
      · exact .inl hge
    · rw [Pool.move_threads_of_ne _ _ _ hut] at hu
      exact .inr ⟨u, hu⟩

variable (q') in
theorem Refines.stored (h : Refines B producer pub served b s)
    (hsteady : Steady B producer t pub pub' (s.threads t) th')
    (howes : ∀ i, Owes i th' → Owes i (s.threads t) ∨ served ≤ i)
    (hserved : served ≤ served')
    (hle : served' ≤ made pub (s.threads producer)) :
    Stored B producer pub' served' (s.move t q' th').threads s.shared
      b.shared := by
  rw [Stored, hsteady.made_eq, hsteady.opened_eq]
  refine h.storage.shrink (fun i => hsteady.live_le q' howes hserved)
    fun i hi hlt => ⟨?_, .inl (hle.trans hi)⟩
  rwa [hsteady.opened_eq]

/-- The producer keeps what it has established, whoever moves. -/
theorem Refines.works_move (h : Refines B producer pub served b s)
    (hsteady : Steady B producer t pub pub' (s.threads t) th')
    (hu : Undisturbed B producer (Live B producer pub served s.threads)
      (Live B producer pub' served' (s.move t q' th').threads) s.shared q')
    (hflags : ∀ place : ℕ × ℕ, place.2 < B →
      (∀ i, Live B producer pub served s.threads i →
        s.shared.place B i ≠ place) →
      q'.mem.msgs (flagOf B place) = s.shared.mem.msgs (flagOf B place))
    (hself : t = producer → Works B producer
      (Live B producer pub' served' (s.move t q' th').threads) pub' q' th') :
    Works B producer
      (Live B producer pub' served' (s.move t q' th').threads) pub' q'
      ((s.move t q' th').threads producer) := by
  by_cases ht : t = producer
  · subst ht
    rw [Pool.move_threads_self]
    exact hself rfl
  · have hpub : pub' = pub := by
      rwa [Steady, if_neg ht] at hsteady
    subst hpub
    have hthread := Pool.move_threads_of_ne s q' th' (Ne.symm ht)
    rw [hthread]
    exact Works.mono hu h.works hflags

/-- A step that makes no access to a place and no store to a flag. -/
structure Quiet (mem mem' : Memory ι T) : Prop where
  cells : mem'.cells = mem.cells
  view_le : ∀ u, mem.view u ≤ mem'.view u
  flags : ∀ x i, mem'.msgs (.emptyFlag x i) = mem.msgs (.emptyFlag x i)
  msgs : ∀ (a : Loc) (k : ℕ) (msg : Msg Loc ι),
    (mem.msgs a)[k]? = some msg → (mem'.msgs a)[k]? = some msg

omit [DecidableEq ι] in
theorem quiet_of_learned {mem mem' : Memory ι T} (h : mem.Learned mem' t) :
    Quiet mem mem' where
  cells := h.cells
  view_le := h.view_le
  flags _ _ := congrFun h.msgs _
  msgs a k msg hmsg := by rwa [h.msgs]

omit [DecidableEq ι] in
theorem quiet_of_wrote {mem mem' : Memory ι T} {a : Moodycamel.Loc} {v : ℕ}
    (h : mem.Wrote mem' t (.counter a) v) : Quiet mem mem' where
  cells := h.cells
  view_le := h.view_le
  flags _ _ := h.msgs_of_ne _ (by simp)
  msgs c k msg hmsg := by
    by_cases hc : c = .counter a
    · subst hc
      obtain ⟨new, -, hmsgs⟩ := h.msgs
      rw [hmsgs]
      exact List.getElem?_append_left (List.getElem?_eq_some_iff.mp hmsg).1 ▸
        hmsg
    · rwa [h.msgs_of_ne c hc]

theorem Refines.quiet (h : Refines B producer pub served b s)
    {mem' : Memory ι T} (herase : erase th' = th)
    (hquiet : Quiet s.shared.mem mem') (hcells : m'.cells = b.shared.cells)
    (hbelow : m'.Below .counter mem') (hwf : mem'.WellFormed)
    (hsteady : Steady B producer t pub pub' (s.threads t) th')
    (howes : ∀ i, Owes i th' → Owes i (s.threads t) ∨ served ≤ i ∧ i < served')
    (hserved : served ≤ served')
    (hle : served' ≤ made pub (s.threads producer))
    (hclears : Clears B { s.shared with mem := mem' } t th')
    (hself : t = producer → ∀ live',
      (∀ i, live' i → Live B producer pub served s.threads i) →
        Works B producer live' pub' { s.shared with mem := mem' } th') :
    Refines B producer pub' served' (b.move t m' th)
      (s.move t { s.shared with mem := mem' } th') := by
  have howes' : ∀ i, Owes i th' → Owes i (s.threads t) ∨ served ≤ i :=
    fun i hi => (howes i hi).imp_right And.left
  have hlive : ∀ i, Live B producer pub' served'
      (s.move t { s.shared with mem := mem' } th').threads i →
        Live B producer pub served s.threads i := fun i =>
    hsteady.live_le _ howes' hserved
  refine h.assemble herase hbelow hwf
    ((h.stored _ hsteady howes' hserved hle).learned hquiet.cells hquiet.flags
      (hquiet.view_le producer) hcells) hserved (fun i hi => ?_)
    (fun u i hu hi hi' => ?_) hclears hquiet.view_le
    (fun _ i _ _ => ⟨rfl, congrFun hquiet.cells _⟩)
    (h.works_move hsteady ⟨rfl, rfl, hlive, hquiet.view_le producer,
      fun place _ => congrFun hquiet.cells place, hquiet.msgs⟩
      (fun place _ _ => hquiet.flags _ _) fun ht => hself ht _ hlive)
  · rcases howes i hi with hi | hi
    · exact (h.owes_lt t i hi).trans_le hserved
    · exact hi.2
  · rcases howes i hi with hi | hi
    · exact hu (h.apart u t i hi' hi)
    · exact absurd (h.owes_lt u i hi') (by omega)

/-- A step of which the counters do not know. -/
theorem Refines.silent {s' : State ofMap ι T}
    (h : Refines B producer pub served (b.move t b.shared (b.threads t)) s') :
    Refines B producer pub served b s' := by
  rwa [Pool.move_self] at h

end Steps

end Explicit
end Moodycamel
end ConcurrentQueues
