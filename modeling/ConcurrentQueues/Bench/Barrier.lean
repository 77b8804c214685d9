import ConcurrentQueues.Core.Memory
import ConcurrentQueues.Support.Pool
import Mathlib.Data.ENat.Basic
import Mathlib.Data.Fintype.Card
import Mathlib.Data.Set.Card

/-!
# `Barrier`

The threads of a benchmark add themselves to `count_` and spin until it is
zero.  The thread that started them spins until all have done so and then
stores the zero.  Zero so stands for nobody having come as well as for everybody
being let go, and is told apart by a waiter only because its own addition comes
first.

Loads are relaxed.  A thread may see any value of `count_` that is not older
than one it has seen or written before.
-/

namespace ConcurrentQueues
namespace Barrier

/-! ## The code -/

/-- Where a thread stands in `wait`.  `seen` is the position, in the
modification order of `count_`, of the last value it knows. -/
inductive Waiter
  /-- before `count_.fetch_add` -/
  | start
  | spin (seen : ℕ)
  | returned
  deriving DecidableEq

/-- Where the thread stands in `release`. -/
inductive Releaser
  | spin (seen : ℕ)
  /-- before `count_.store` -/
  | store
  | returned
  deriving DecidableEq

/-- `count_.load` by a thread that knows the value at position `seen`, and the
position of the value it returns. -/
def load (count : Atomic) (seen lag : ℕ) : Option (ℕ × ℕ) :=
  if seen + lag ≤ count.past.length then
    (count.load lag).map fun v => (v, count.past.length - lag)
  else none

/-- `wait`, by one atomic access. -/
def wait (count : Atomic) (lag : ℕ) : Waiter → Option (Atomic × Waiter)
  | .start =>
      some (count.store ((count.val + 1) % 2 ^ 32),
        .spin (count.past.length + 1))
  | .spin seen =>
      (load count seen lag).map fun l =>
        (count, if l.1 = 0 then .returned else .spin l.2)
  | .returned => none

/-- `release`, by one atomic access. -/
def release (expected : ℕ) (count : Atomic) (lag : ℕ) :
    Releaser → Option (Atomic × Releaser)
  | .spin seen =>
      (load count seen lag).map fun l =>
        (count, if l.1 = expected then .store else .spin l.2)
  | .store => some (count.store 0, .returned)
  | .returned => none

/-- `count_`, and the thread that calls `release`. -/
structure Shared where
  count : Atomic
  releaser : Releaser

abbrev State (n : ℕ) := Pool (Fin n) Shared Waiter

/-- One atomic access of a waiter or of the releaser. -/
inductive Step (n : ℕ) : State n → Option (Fin n) → State n → Prop
  | wait {s : State n} {t : Fin n} {lag : ℕ} {count : Atomic} {w : Waiter}
      (h : wait s.shared.count lag (s.threads t) = some (count, w)) :
      Step n s (some t) (s.move t ⟨count, s.shared.releaser⟩ w)
  | release {s : State n} {lag : ℕ} {count : Atomic} {r : Releaser}
      (h : release n s.shared.count lag s.shared.releaser = some (count, r)) :
      Step n s none ⟨⟨count, r⟩, s.threads⟩

/-- A fresh barrier, `n` threads about to wait and one about to release
them. -/
def system (n : ℕ) : Lts (State n) (Option (Fin n)) where
  init := ⟨⟨Atomic.ofVal 0, .spin 0⟩, fun _ => .start⟩
  step := Step n

/-! ## The invariant -/

/-- A waiter after its `fetch_add`. -/
def Waiter.Arrived (w : Waiter) : Prop :=
  w ≠ .start

instance : DecidablePred Waiter.Arrived := fun w =>
  inferInstanceAs (Decidable (w ≠ .start))

/-- Where a waiter may stand while `count_` counts up to `k`: the value it knows
is a count that includes itself. -/
def Waiter.Waits (k : ℕ) : Waiter → Prop
  | .start => True
  | .spin seen => 0 < seen ∧ seen ≤ k
  | .returned => False

/-- What the releaser knows while nobody was released. -/
def Releaser.Polls (n k : ℕ) : Releaser → Prop
  | .spin seen => seen ≤ k
  | .store => k = n
  | .returned => False

/-- Nobody was released.  `count_` has counted the threads that came. -/
structure Closed (n : ℕ) (s : State n) : Prop where
  counts : s.shared.count.Counts
  count_eq : (s.shared.count.val : ℕ∞) = s.count Waiter.Arrived
  releaser : s.shared.releaser.Polls n s.shared.count.val
  waiters : ∀ t, (s.threads t).Waits s.shared.count.val

/-- Where a waiter may stand after the release. -/
def Waiter.Leaves (newest : ℕ) : Waiter → Prop
  | .start => False
  | .spin seen => seen ≤ newest
  | .returned => True

/-- Everybody came and was released. -/
structure Released (n : ℕ) (s : State n) : Prop where
  releaser : s.shared.releaser = .returned
  val_eq : s.shared.count.val = 0
  waiters : ∀ t, (s.threads t).Leaves s.shared.count.past.length

def Inv (n : ℕ) (s : State n) : Prop :=
  Closed n s ∨ Released n s

theorem counts_length {a : Atomic} (h : a.Counts) : a.past.length = a.val := by
  rw [h, List.length_reverse, List.length_range]

/-- While `count_` counts up, the position of a value is the value. -/
theorem load_of_counts {count : Atomic} (h : count.Counts) {seen lag : ℕ}
    {l : ℕ × ℕ} (hload : load count seen lag = some l) :
    l.2 = l.1 ∧ seen ≤ l.1 ∧ l.1 ≤ count.val := by
  have hlen := counts_length h
  rw [load] at hload
  split at hload
  · rename_i hle
    obtain ⟨v, hv, rfl⟩ := Option.map_eq_some_iff.mp hload
    have hval := h.load_eq_some.mp hv
    simp only
    omega
  · cases hload

section Inv

variable {n : ℕ} {s s' : State n}

theorem Closed.val_le (h : Closed n s) : s.shared.count.val ≤ n := by
  have hle := s.count_le_card Waiter.Arrived
  rw [← h.count_eq, ENat.card_eq_coe_fintype_card, Fintype.card_fin] at hle
  exact_mod_cast hle

/-- `count_` is `n` only when everybody has come. -/
theorem Closed.val_eq_iff (h : Closed n s) :
    s.shared.count.val = n ↔ ∀ t, (s.threads t).Arrived := by
  rw [← Pool.count_eq_card_iff, ← h.count_eq, ENat.card_eq_coe_fintype_card,
    Fintype.card_fin, Nat.cast_inj]

/-- A thread comes: the addition does not wrap. -/
theorem Closed.arrive (h : Closed n s) (hn : n < 2 ^ 32) {t : Fin n}
    (ht : s.threads t = .start) :
    Closed n (s.move t
      ⟨s.shared.count.store ((s.shared.count.val + 1) % 2 ^ 32),
        s.shared.releaser⟩
      (.spin (s.shared.count.past.length + 1))) := by
  have hlen := counts_length h.counts
  have hle := h.val_le
  have hne : s.shared.count.val ≠ n := by
    intro heq
    exact h.val_eq_iff.mp heq t ht
  have hmod : (s.shared.count.val + 1) % 2 ^ 32 = s.shared.count.val + 1 :=
    Nat.mod_eq_of_lt (by omega)
  rw [hmod, hlen]
  refine ⟨h.counts.store_succ, ?_, ?_, ?_⟩
  · have hcount := s.count_move t
      ⟨s.shared.count.store (s.shared.count.val + 1), s.shared.releaser⟩
      (.spin (s.shared.count.val + 1)) Waiter.Arrived
    simp only [ht, Waiter.Arrived, ne_eq, not_true_eq_false, if_false, add_zero,
      reduceCtorEq, not_false_eq_true, if_true] at hcount
    rw [Pool.move_shared, Atomic.val_store, Nat.cast_succ, h.count_eq]
    exact hcount.symm
  · have hpolls := h.releaser
    simp only [Pool.move_shared, Atomic.val_store]
    generalize s.shared.releaser = r at hpolls
    cases r with
    | spin seen => exact Nat.le_succ_of_le hpolls
    | store => exact absurd hpolls hne
    | returned => exact hpolls
  · refine Pool.forall_move
      (P := fun _ w => Waiter.Waits (s.shared.count.val + 1) w) ?_ ?_
    · exact ⟨Nat.succ_pos _, le_rfl⟩
    · intro u _
      have hu := h.waiters u
      generalize s.threads u = w at hu
      cases w with
      | start => trivial
      | spin seen => exact ⟨hu.1, Nat.le_succ_of_le hu.2⟩
      | returned => exact hu

/-- A waiter that came sees a count with itself, which is not zero. -/
theorem Closed.look (h : Closed n s) {t : Fin n} {seen lag : ℕ} {l : ℕ × ℕ}
    (ht : s.threads t = .spin seen)
    (hload : load s.shared.count seen lag = some l) :
    l.1 ≠ 0 ∧ Closed n (s.move t s.shared (.spin l.2)) := by
  obtain ⟨hpos, hseen, hle⟩ := load_of_counts h.counts hload
  have hwaits := h.waiters t
  rw [ht] at hwaits
  have hknown : 0 < seen := hwaits.1
  refine ⟨by omega, h.counts, ?_, h.releaser, ?_⟩
  · have hcount := s.count_move t s.shared (.spin l.2) Waiter.Arrived
    simp only [ht, Waiter.Arrived, ne_eq, reduceCtorEq, not_false_eq_true,
      if_true] at hcount
    rw [Pool.move_shared, h.count_eq]
    apply le_antisymm
    · exact (ENat.add_le_add_iff_right ENat.one_ne_top).mp hcount.ge
    · exact (ENat.add_le_add_iff_right ENat.one_ne_top).mp hcount.le
  · refine Pool.forall_move
      (P := fun _ w => Waiter.Waits s.shared.count.val w) ?_ fun u _ => h.waiters u
    exact ⟨by omega, by omega⟩

/-- The releaser stores the zero after everybody has come. -/
theorem Closed.release (h : Closed n s) (hr : s.shared.releaser = .store) :
    Released n ⟨⟨s.shared.count.store 0, .returned⟩, s.threads⟩ := by
  have hpolls := h.releaser
  rw [hr] at hpolls
  have hall := h.val_eq_iff.mp hpolls
  refine ⟨rfl, rfl, fun t => ?_⟩
  have hwaits := h.waiters t
  have hcame := hall t
  have hlen := counts_length h.counts
  simp only [Atomic.store, List.length_cons, hlen]
  generalize s.threads t = w at hwaits hcame
  cases w with
  | start => exact hcame rfl
  | spin seen => exact Nat.le_succ_of_le hwaits.2
  | returned => trivial

theorem Closed.step (h : Closed n s) (hn : n < 2 ^ 32) {a : Option (Fin n)}
    (hstep : Step n s a s') : Inv n s' := by
  cases hstep with
  | @wait t lag count w hw =>
      generalize ht : s.threads t = w₀ at hw
      cases w₀ with
      | start =>
          obtain ⟨rfl, rfl⟩ := Prod.mk.inj (Option.some.inj hw)
          exact Or.inl (h.arrive hn ht)
      | spin seen =>
          obtain ⟨l, hload, heq⟩ := Option.map_eq_some_iff.mp hw
          obtain ⟨rfl, rfl⟩ := Prod.mk.inj heq
          obtain ⟨hne, hclosed⟩ := h.look ht hload
          rw [if_neg hne]
          exact Or.inl hclosed
      | returned => cases hw
  | @release lag count r hr =>
      generalize hr₀ : s.shared.releaser = r₀ at hr
      cases r₀ with
      | spin seen =>
          obtain ⟨l, hload, heq⟩ := Option.map_eq_some_iff.mp hr
          obtain ⟨rfl, rfl⟩ := Prod.mk.inj heq
          obtain ⟨hpos, -, hle⟩ := load_of_counts h.counts hload
          refine Or.inl ⟨h.counts, h.count_eq, ?_, h.waiters⟩
          have hn' := h.val_le
          by_cases hval : l.1 = n
          · rw [if_pos hval]
            exact le_antisymm hn' (hval.symm.trans_le hle)
          · rw [if_neg hval]
            exact hpos.trans_le hle
      | store =>
          obtain ⟨rfl, rfl⟩ := Prod.mk.inj (Option.some.inj hr)
          exact Or.inr (h.release hr₀)
      | returned => cases hr

/-- After the release nobody writes `count_`. -/
theorem Released.step (h : Released n s) {a : Option (Fin n)}
    (hstep : Step n s a s') :
    s'.shared = s.shared ∧ Released n s' := by
  cases hstep with
  | @wait t lag count w hw =>
      have hleaves := h.waiters t
      generalize ht : s.threads t = w₀ at hw hleaves
      cases w₀ with
      | start => exact absurd hleaves id
      | spin seen =>
          obtain ⟨l, hload, heq⟩ := Option.map_eq_some_iff.mp hw
          obtain ⟨rfl, rfl⟩ := Prod.mk.inj heq
          refine ⟨rfl, h.releaser, h.val_eq, ?_⟩
          refine Pool.forall_move (P := fun _ w =>
            Waiter.Leaves s.shared.count.past.length w) ?_ fun u _ => h.waiters u
          split
          · trivial
          · rw [load] at hload
            split at hload
            · obtain ⟨v, -, rfl⟩ := Option.map_eq_some_iff.mp hload
              exact Nat.sub_le _ _
            · cases hload
      | returned => cases hw
  | release hr =>
      rw [h.releaser] at hr
      cases hr

theorem Released.path (h : Released n s) {tr : List (Option (Fin n))}
    (hpath : (system n).Path s tr s') : Released n s' := by
  induction hpath with
  | refl => exact h
  | tail _ hlast ih => exact (ih.step hlast).2

theorem inv_of_run (hn : n < 2 ^ 32) {tr : List (Option (Fin n))}
    (hrun : (system n).Run tr s) : Inv n s := by
  refine Lts.Run.induction (P := fun _ s => Inv n s) ?_ ?_ hrun
  · refine Or.inl ⟨Atomic.counts_ofVal_zero, ?_, le_rfl, fun _ => trivial⟩
    rw [Pool.count_eq_zero]
    · rfl
    · exact fun t h => h rfl
  · rintro tr s a s' - (hclosed | hreleased) hstep
    · exact hclosed.step hn hstep
    · exact Or.inr (hreleased.step hstep).2

/-! ## Everybody can finish -/

theorem load_newest {count : Atomic} {seen : ℕ}
    (hseen : seen ≤ count.past.length) :
    load count seen 0 = some (count.val, count.past.length) := by
  rw [load, if_pos (by omega), Atomic.load_zero]
  rfl

/-- The threads that are still to come can come. -/
theorem Closed.exists_path_arrived (h : Closed n s) (hn : n < 2 ^ 32) :
    ∃ tr s', (system n).Path s tr s' ∧ Closed n s' ∧
      ∀ t, (s'.threads t).Arrived := by
  refine Pool.exists_path_forall ?_ h
  intro s t hclosed ht
  have hstart : s.threads t = .start := not_not.mp ht
  refine ⟨some t, _, _, .wait (?_ : wait _ 0 _ = some _), ?_,
    hclosed.arrive hn hstart⟩
  · rw [hstart]
    rfl
  · nofun

/-- When all have come the releaser finds them and releases them. -/
theorem Closed.exists_path_released (h : Closed n s)
    (hall : ∀ t, (s.threads t).Arrived) :
    ∃ tr s', (system n).Path s tr s' ∧ Released n s' := by
  have hval := h.val_eq_iff.mpr hall
  have hstore : ∀ s : State n, Closed n s → s.shared.releaser = .store →
      ∃ s', (system n).step s none s' ∧ Released n s' := by
    intro s h hr
    refine ⟨_, .release (?_ : Barrier.release n _ 0 _ = some _), h.release hr⟩
    rw [hr]
    rfl
  cases hr : s.shared.releaser with
  | spin seen =>
      have hpolls := h.releaser
      rw [hr] at hpolls
      have hseen : seen ≤ s.shared.count.past.length :=
        hpolls.trans_eq (counts_length h.counts).symm
      have hpoll : (system n).step s none
          ⟨⟨s.shared.count, .store⟩, s.threads⟩ := by
        refine .release (?_ : Barrier.release n _ 0 _ = some _)
        rw [hr, Barrier.release, load_newest hseen, Option.map_some, if_pos hval]
      have hclosed : Closed n ⟨⟨s.shared.count, .store⟩, s.threads⟩ :=
        ⟨h.counts, h.count_eq, hval, h.waiters⟩
      obtain ⟨s', hlast, hreleased⟩ := hstore _ hclosed rfl
      exact ⟨_, s', (Lts.Path.single hpoll).tail hlast, hreleased⟩
  | store =>
      obtain ⟨s', hlast, hreleased⟩ := hstore s h hr
      exact ⟨_, s', Lts.Path.single hlast, hreleased⟩
  | returned =>
      have hpolls := h.releaser
      rw [hr] at hpolls
      exact absurd hpolls id

/-- Those who were released can leave. -/
theorem Released.exists_path_returned (h : Released n s) :
    ∃ tr s', (system n).Path s tr s' ∧ Released n s' ∧
      ∀ t, s'.threads t = .returned := by
  refine Pool.exists_path_forall (D := fun w => w = Waiter.returned) ?_ h
  intro s t hreleased ht
  have hleaves := hreleased.waiters t
  cases hw : s.threads t with
  | start =>
      rw [hw] at hleaves
      exact absurd hleaves id
  | spin seen =>
      rw [hw] at hleaves
      have hstep : (system n).step s (some t) (s.move t s.shared .returned) := by
        refine .wait (?_ : wait _ 0 _ = some _)
        rw [hw, wait, load_newest hleaves, Option.map_some,
          if_pos hreleased.val_eq]
      exact ⟨some t, s.shared, .returned, hstep, rfl, (hreleased.step hstep).2⟩
  | returned => exact absurd hw ht

theorem Inv.exists_path_finished (h : Inv n s) (hn : n < 2 ^ 32) :
    ∃ tr s', (system n).Path s tr s' ∧ s'.shared.releaser = .returned ∧
      ∀ t, s'.threads t = .returned := by
  have hreleased : ∃ tr s', (system n).Path s tr s' ∧ Released n s' := by
    rcases h with hclosed | hreleased
    · obtain ⟨tr, m, hpath, hclosed, hall⟩ := hclosed.exists_path_arrived hn
      obtain ⟨tr', s', hpath', hreleased⟩ := hclosed.exists_path_released hall
      exact ⟨tr ++ tr', s', hpath.trans hpath', hreleased⟩
    · exact ⟨[], s, Lts.Path.refl s, hreleased⟩
  obtain ⟨tr, m, hpath, hreleased⟩ := hreleased
  obtain ⟨tr', s', hpath', hreleased, hall⟩ := hreleased.exists_path_returned
  exact ⟨tr ++ tr', s', hpath.trans hpath', hreleased.releaser, hall⟩

theorem Inv.released (h : Inv n s) (hr : s.shared.releaser = .returned) :
    Released n s := by
  rcases h with hclosed | hreleased
  · have hpolls := hclosed.releaser
    rw [hr] at hpolls
    exact absurd hpolls id
  · exact hreleased

end Inv

/-! ## The barrier -/

/-- Nobody leaves early, nobody is left behind: after any run of `n` waiters and
one releaser. -/
structure Synchronizes (n : ℕ) (s : State n) : Prop where
  all_of_returned : ∀ t, s.threads t = .returned →
    s.shared.releaser = .returned ∧ ∀ u, (s.threads u).Arrived
  stays_zero : s.shared.releaser = .returned →
    ∀ tr s', (system n).Path s tr s' → s'.shared.count.val = 0
  finishes : ∃ tr s', (system n).Path s tr s' ∧
    s'.shared.releaser = .returned ∧ ∀ t, s'.threads t = .returned
  found : (∃ seen, s.shared.releaser = .spin seen) →
    (∀ t, (s.threads t).Arrived) → s.shared.count.val = n

theorem barrier_synchronizes {n : ℕ} (hn : n < 2 ^ 32)
    {tr : List (Option (Fin n))} {s : State n}
    (hrun : (system n).Run tr s) : Synchronizes n s := by
  have hinv := inv_of_run hn hrun
  constructor
  · intro t ht
    rcases hinv with hclosed | hreleased
    · have hwaits := hclosed.waiters t
      rw [ht] at hwaits
      exact absurd hwaits id
    · refine ⟨hreleased.releaser, fun u hu => ?_⟩
      have hleaves := hreleased.waiters u
      rw [hu] at hleaves
      exact hleaves
  · intro hr tr' s' hpath
    exact ((hinv.released hr).path hpath).val_eq
  · exact hinv.exists_path_finished hn
  · rintro ⟨seen, hr⟩ hall
    rcases hinv with hclosed | hreleased
    · exact hclosed.val_eq_iff.mpr hall
    · rw [hreleased.releaser] at hr
      cases hr

/-- Two waiters: the releaser polls between their arrivals, and one of them is
let go. -/
theorem barrier_synchronizes_twoWaiters :
    ∃ tr s, (system 2).Run tr s ∧ s.threads 1 = .returned ∧
      Synchronizes 2 s := by
  have hinit : (system 2).Run [] _ := Lts.Run.init
  have hfst := hinit.tail (.wait (t := 0)
    (rfl : wait _ 0 .start = some (_, .spin 1)))
  have hpoll := hfst.tail (.release
    (rfl : release 2 _ 0 (.spin 0) = some (_, .spin 1)))
  have hsnd := hpoll.tail (.wait (t := 1)
    (rfl : wait _ 0 .start = some (_, .spin 2)))
  have hfound := hsnd.tail (.release
    (rfl : release 2 _ 0 (.spin 1) = some (_, .store)))
  have hstored := hfound.tail (.release
    (rfl : release 2 _ 0 .store = some (_, .returned)))
  have hleft := hstored.tail (.wait (t := 1)
    (rfl : wait _ 0 (.spin 2) = some (_, .returned)))
  exact ⟨_, _, hleft, rfl, barrier_synchronizes (by decide) hleft⟩

end Barrier
end ConcurrentQueues
