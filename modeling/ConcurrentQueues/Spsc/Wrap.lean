import ConcurrentQueues.Spsc.Calls
import Mathlib.Data.List.Nodup

/-!
# The cached queues with counters of one machine word

`full` subtracts the counters and survives their wrap-around; `empty` compares
them with `<=` and does not.  With counters of `w` bits `head_` therefore never
wraps: once `tail_` has wrapped, a pop succeeds only from an older copy of
`tail_`, and where `SIZE` does not divide `2 ^ w` the slot it reads may hold an
item pushed after the wrap.  This module determines the pops that still do what
a FIFO queue does.
-/

namespace ConcurrentQueues

universe u

namespace Spsc

open Fifo

variable {T : Type u} {w n : ℕ}

/-! ## The wrapped ring -/

/-- The words of a queue to which the items of `log` were pushed and from which
`h` items were popped. -/
structure WrapInv (w n : ℕ) (log : List T) (h : ℕ) (q : Queue T) : Prop where
  head_eq : q.head = h
  head_lt : h < 2 ^ w
  tail_eq : q.tail = log.length % 2 ^ w
  head_le : h ≤ log.length
  cachedHead_le : q.cachedHead ≤ h
  length_le : log.length ≤ q.cachedHead + n
  cachedTail_eq : ∃ v, h ≤ v ∧ v ≤ log.length ∧ q.cachedTail = v % 2 ^ w
  slots_low : ∀ i, h ≤ i → i < log.length → i < 2 ^ w →
    log.length ≤ 2 ^ w + i % n → q.data (i % n) = log[i]?
  slots_high : ∀ i, 2 ^ w ≤ i → i < log.length →
    q.data (i - 2 ^ w) = log[i]?

/-- The condition under which a pop does what a FIFO queue does: `tail_` has
not wrapped around since the item at `head_` was pushed, or the cached copy of
`tail_` is still ahead of `head_` and the slot of `head_` was not written
again. -/
def Ready (n : ℕ) (q : Queue T) : Prop :=
  q.head ≤ q.tail ∨
    (q.head < q.cachedTail ∧ ∀ j < q.tail, j % n ≠ q.head % n)

section Spec

variable {log : List T} {h : ℕ} {q : Queue T}

theorem wrapInv_new (w n : ℕ) : WrapInv w n [] 0 (Queue.new : Queue T) where
  head_eq := rfl
  head_lt := Nat.two_pow_pos w
  tail_eq := rfl
  head_le := le_rfl
  cachedHead_le := le_rfl
  length_le := Nat.zero_le _
  cachedTail_eq := ⟨0, le_rfl, le_rfl, rfl⟩
  slots_low := fun _ _ hi => by cases hi
  slots_high := fun _ _ hi => by cases hi

/-- Subtraction of words recovers a difference smaller than a word. -/
theorem sub_wrapped {a b : ℕ} (hle : b ≤ a) (hb : b < 2 ^ w)
    (hlt : a - b < 2 ^ w) : (SizeT.bits w).sub (a % 2 ^ w) b = a - b := by
  obtain ⟨d, rfl⟩ := Nat.exists_eq_add_of_le hle
  rw [Nat.add_sub_cancel_left] at hlt ⊢
  have hcancel : (b + d) % 2 ^ w + 2 ^ w - b + b = (b + d) % 2 ^ w + 2 ^ w := by
    omega
  have hmod : ((b + d) % 2 ^ w + 2 ^ w - b + b) % 2 ^ w = (d + b) % 2 ^ w := by
    rw [hcancel, Nat.add_mod_right, Nat.mod_mod, Nat.add_comm]
  calc (SizeT.bits w).sub ((b + d) % 2 ^ w) b
      = d % 2 ^ w := Nat.ModEq.add_right_cancel' b hmod
    _ = d := Nat.mod_eq_of_lt hlt

namespace WrapInv

/-- The number of items unread is below a word, and so is a whole lap past
`head_`. -/
theorem length_lt (hw : n < 2 ^ w) (hI : WrapInv w n log h q) :
    log.length < 2 ^ w + n ∧ log.length < 2 ^ w + 2 ^ w := by
  have := hI.head_lt
  have := hI.cachedHead_le
  have := hI.length_le
  omega

/-- What `tail_` is: the number of items, or a word less. -/
theorem tail_cases (hw : n < 2 ^ w) (hI : WrapInv w n log h q) :
    (log.length < 2 ^ w ∧ q.tail = log.length) ∨
      (2 ^ w ≤ log.length ∧ q.tail + 2 ^ w = log.length) := by
  have hlt := (hI.length_lt hw).2
  by_cases hwrap : log.length < 2 ^ w
  · exact Or.inl ⟨hwrap, by rw [hI.tail_eq, Nat.mod_eq_of_lt hwrap]⟩
  · refine Or.inr ⟨by omega, ?_⟩
    rw [hI.tail_eq, Nat.mod_eq_sub_mod (by omega), Nat.mod_eq_of_lt (by omega)]
    omega

/-- `full` is right about every copy of `head_` that bounds the items. -/
theorem full_iff (hw : n < 2 ^ w) (hI : WrapInv w n log h q) {v : ℕ}
    (hv : v ≤ h) (hlen : log.length ≤ v + n) :
    full (.bits w) n q.tail v ↔ log.length = v + n := by
  have hle := hI.head_le
  have hlt := hI.head_lt
  rw [full, hI.tail_eq, sub_wrapped (by omega) (by omega) (by omega)]
  omega

theorem refreshHead (hI : WrapInv w n log h q) :
    WrapInv w n log h q.refreshHead where
  head_eq := hI.head_eq
  head_lt := hI.head_lt
  tail_eq := hI.tail_eq
  head_le := hI.head_le
  cachedHead_le := hI.head_eq.le
  length_le := by
    have := hI.length_le
    have := hI.cachedHead_le
    rw [Queue.refreshHead_cachedHead, hI.head_eq]
    omega
  cachedTail_eq := hI.cachedTail_eq
  slots_low := hI.slots_low
  slots_high := hI.slots_high

theorem refreshTail (hI : WrapInv w n log h q) :
    WrapInv w n log h q.refreshTail where
  head_eq := hI.head_eq
  head_lt := hI.head_lt
  tail_eq := hI.tail_eq
  head_le := hI.head_le
  cachedHead_le := hI.cachedHead_le
  length_le := hI.length_le
  cachedTail_eq := ⟨log.length, hI.head_le, le_rfl, hI.tail_eq⟩
  slots_low := hI.slots_low
  slots_high := hI.slots_high

/-- A push into a slot that its index finds free. -/
theorem publish (hw : n < 2 ^ w) (hI : WrapInv w n log h q) (item : T)
    (hroom : log.length < q.cachedHead + n) :
    WrapInv w n (log ++ [item]) h
      (q.setChannel ((q.setSlot (q.tail % n) (some item)).setTail
        ((SizeT.bits w).add q.tail 1))) where
  head_eq := hI.head_eq
  head_lt := hI.head_lt
  tail_eq := by
    rw [Queue.setChannel_toChannel, Channel.setTail_tail, hI.tail_eq,
      SizeT.add_bits_mod, List.length_append, List.length_singleton]
  head_le := by
    have := hI.head_le
    simp only [List.length_append, List.length_singleton]
    omega
  cachedHead_le := hI.cachedHead_le
  length_le := by
    rw [List.length_append, List.length_singleton, Queue.setChannel_cachedHead]
    omega
  cachedTail_eq := by
    obtain ⟨v, hv, hlen, heq⟩ := hI.cachedTail_eq
    exact ⟨v, hv, by simp only [List.length_append]; omega, heq⟩
  slots_low := by
    intro i hh hi hiw hover
    rw [List.length_append, List.length_singleton] at hi hover
    have hcached := hI.cachedHead_le
    simp only [Queue.setChannel_toChannel, Channel.setTail_data]
    rcases hI.tail_cases hw with ⟨hlt, htail⟩ | ⟨hle, htail⟩
    · rcases Nat.lt_succ_iff_lt_or_eq.mp hi with hlog | rfl
      · have hslot : i % n ≠ q.tail % n := by
          rw [htail]
          intro hmod
          have := Ring.eq_of_slot_eq hmod (by omega) (by omega)
          omega
        rw [Channel.setSlot_data_of_ne _ _ hslot,
          List.getElem?_append_left hlog]
        exact hI.slots_low i hh hlog hiw (by omega)
      · rw [htail, Channel.setSlot_data_self]
        simp
    · -- the new item lies past the wrap, in a slot below that of `i`
      have hlog : i < log.length := by omega
      have hslot : i % n ≠ q.tail % n := by
        have := hI.head_lt
        rw [Nat.mod_eq_of_lt (by omega : q.tail < n)]
        omega
      rw [Channel.setSlot_data_of_ne _ _ hslot, List.getElem?_append_left hlog]
      exact hI.slots_low i hh hlog hiw (by omega)
  slots_high := by
    intro i hiw hi
    rw [List.length_append, List.length_singleton] at hi
    simp only [Queue.setChannel_toChannel, Channel.setTail_data]
    have hcached := hI.cachedHead_le
    have hhead := hI.head_lt
    rcases hI.tail_cases hw with ⟨hlt, htail⟩ | ⟨hle, htail⟩
    · omega
    · have hmod : q.tail % n = q.tail := Nat.mod_eq_of_lt (by omega)
      rw [hmod]
      rcases Nat.lt_succ_iff_lt_or_eq.mp hi with hlog | rfl
      · rw [Channel.setSlot_data_of_ne _ _ (by omega),
          List.getElem?_append_left hlog]
        exact hI.slots_high i hiw hlog
      · rw [show log.length - 2 ^ w = q.tail by omega,
          Channel.setSlot_data_self]
        simp

/-- A pop of an index that stays below a whole word. -/
theorem release (hI : WrapInv w n log h q) {v : ℕ} (hlt : h < v)
    (hle : v ≤ log.length) (hv : v < 2 ^ w) (hcached : q.cachedTail = v) :
    WrapInv w n log (h + 1)
      (q.setChannel (q.setHead ((SizeT.bits w).add h 1))) where
  head_eq := Nat.mod_eq_of_lt (by omega)
  head_lt := by omega
  tail_eq := hI.tail_eq
  head_le := by omega
  cachedHead_le := Nat.le_succ_of_le hI.cachedHead_le
  length_le := hI.length_le
  cachedTail_eq := ⟨v, hlt, hle, by
    rw [Queue.setChannel_cachedTail, hcached, Nat.mod_eq_of_lt hv]⟩
  slots_low := fun i hi => hI.slots_low i (Nat.le_of_succ_le hi)
  slots_high := hI.slots_high

/-- The slot of `head_` was not written again before a ready pop. -/
theorem over_of_ready (hw : n < 2 ^ w) (hI : WrapInv w n log h q)
    (hready : Ready n q) : log.length ≤ 2 ^ w + h % n := by
  have hhead := hI.head_eq
  have := hI.head_lt
  have := hI.length_le
  have := hI.cachedHead_le
  rcases hI.tail_cases hw with ⟨hlt, -⟩ | ⟨-, htail⟩
  · omega
  · rcases hready with hready | ⟨-, hslot⟩
    · omega
    · rw [hhead] at hslot
      by_contra hover
      exact hslot (h % n) (by omega) (Nat.mod_mod h n)

end WrapInv

/-! ## The attempts -/

/-- A push is refused exactly when `n` items are unread. -/
theorem pushAttempt_spec (hw : n < 2 ^ w) (hI : WrapInv w n log h q)
    (item : T) :
    (log.length = h + n ∧ ∃ q', pushAttempt (.bits w) n q.tail q item =
        (false, q') ∧ WrapInv w n log h q') ∨
      (log.length < h + n ∧ ∃ q', pushAttempt (.bits w) n q.tail q item =
        (true, q') ∧ WrapInv w n (log ++ [item]) h q') := by
  have hcached := hI.cachedHead_le
  have hlen := hI.length_le
  by_cases hfull : full (.bits w) n q.tail q.cachedHead
  · have hR := hI.refreshHead
    have hhead : log.length ≤ h + n := by omega
    by_cases hrefreshed : full (.bits w) n q.tail q.head
    · left
      refine ⟨?_, q.refreshHead, ?_, hR⟩
      · rw [hI.head_eq] at hrefreshed
        exact (hI.full_iff hw le_rfl hhead).mp hrefreshed
      · simp [pushAttempt, hfull, hrefreshed]
    · right
      have hroom : log.length < h + n := by
        rw [hI.head_eq, hI.full_iff hw le_rfl hhead] at hrefreshed
        omega
      refine ⟨hroom, _, ?_, hR.publish hw item ?_⟩
      · simp [pushAttempt, hfull, hrefreshed]
      · rwa [Queue.refreshHead_cachedHead, hI.head_eq]
  · right
    have hroom : log.length < q.cachedHead + n := by
      rw [hI.full_iff hw hcached hlen] at hfull
      omega
    refine ⟨by omega, _, ?_, hI.publish hw item hroom⟩
    simp [pushAttempt, hfull]

/-- The word in `cached_tail_` is ahead of `head_` only while it has not
wrapped. -/
theorem WrapInv.cachedTail_of_ahead (hw : n < 2 ^ w)
    (hI : WrapInv w n log h q) (hahead : h < q.cachedTail) :
    q.cachedTail ≤ log.length ∧ q.cachedTail < 2 ^ w := by
  obtain ⟨v, hv, hle, heq⟩ := hI.cachedTail_eq
  have hlt := (hI.length_lt hw).2
  have hlen := hI.length_le
  have hcached := hI.cachedHead_le
  have hwrap : v < 2 ^ w := by
    by_contra hge
    refine absurd hahead (not_lt.mpr ?_)
    rw [heq, Nat.mod_eq_sub_mod (by omega), Nat.mod_eq_of_lt (by omega)]
    omega
  rw [heq, Nat.mod_eq_of_lt hwrap]
  exact ⟨hle, hwrap⟩

/-- A ready pop takes the oldest item, and is refused exactly when there is
none. -/
theorem popAttempt_spec (hw : n < 2 ^ w) (hI : WrapInv w n log h q)
    (hready : Ready n q) :
    (h = log.length ∧ ∃ q', popAttempt (.bits w) n q.head q =
        (false, none, q') ∧ WrapInv w n log h q' ∧ Ready n q') ∨
      (h < log.length ∧ ∃ q', popAttempt (.bits w) n q.head q =
        (true, log[h]?, q') ∧ WrapInv w n log (h + 1) q') := by
  have hhead := hI.head_eq
  have hle := hI.head_le
  by_cases hempty : empty q.cachedTail h
  · -- only a tail that has not wrapped is left by `Ready`
    have htail : q.tail = log.length ∧ log.length < 2 ^ w := by
      have := hI.head_lt
      have := (hI.length_lt hw).1
      have := hI.length_le
      have := hI.cachedHead_le
      rcases hready with hready | ⟨hahead, -⟩
      · rcases hI.tail_cases hw with ⟨hlt, htail⟩ | ⟨-, htail⟩
        · exact ⟨htail, hlt⟩
        · omega
      · exact absurd hahead (by rw [hhead]; exact not_lt.mpr hempty)
    have hR := hI.refreshTail
    by_cases hrefreshed : empty q.tail h
    · left
      refine ⟨le_antisymm hle (htail.1 ▸ hrefreshed), q.refreshTail, ?_, hR,
        ?_⟩
      · simp [popAttempt, hhead, hempty, hrefreshed]
      · left
        simp only [Queue.refreshTail_toChannel]
        omega
    · right
      have hlt : h < log.length := htail.1 ▸ not_le.mp hrefreshed
      refine ⟨hlt, _, ?_, hR.release hlt le_rfl htail.2 htail.1⟩
      have hdata := hI.slots_low h le_rfl hlt hI.head_lt
        (htail.2.le.trans (Nat.le_add_right _ _))
      simp [popAttempt, hhead, hempty, hrefreshed, hdata]
  · right
    have hahead : h < q.cachedTail := not_le.mp hempty
    obtain ⟨hlen, hlt⟩ := hI.cachedTail_of_ahead hw hahead
    refine ⟨lt_of_lt_of_le hahead hlen, _, ?_, hI.release hahead hlen hlt rfl⟩
    have hdata := hI.slots_low h le_rfl (lt_of_lt_of_le hahead hlen) hI.head_lt
      (hI.over_of_ready hw hready)
    simp [popAttempt, hhead, hempty, hdata]

/-- A pop that is not ready is refused although there is an item, or takes the
item of another index. -/
theorem popAttempt_not_ready (hw : n < 2 ^ w) (hI : WrapInv w n log h q)
    (hnot : ¬Ready n q) :
    h < log.length ∧
      ((∃ q', popAttempt (.bits w) n q.head q = (false, none, q') ∧
          WrapInv w n log h q' ∧ ¬Ready n q') ∨
        ∃ q' i, popAttempt (.bits w) n q.head q = (true, log[i]?, q') ∧
          i < log.length ∧ i ≠ h) := by
  have hhead := hI.head_eq
  have hlt := hI.head_lt
  have hlen := (hI.length_lt hw).1
  have hcached := hI.cachedHead_le
  have hbound := hI.length_le
  obtain ⟨hwrap, htail⟩ : 2 ^ w ≤ log.length ∧ q.tail + 2 ^ w = log.length := by
    rcases hI.tail_cases hw with ⟨-, htail⟩ | hcase
    · have := hI.head_le
      exact absurd (Or.inl (by omega)) hnot
    · exact hcase
  refine ⟨by omega, ?_⟩
  by_cases hempty : empty q.cachedTail h
  · left
    have hrefreshed : empty q.tail h := by
      rw [empty]
      omega
    refine ⟨q.refreshTail, ?_, hI.refreshTail, ?_⟩
    · simp [popAttempt, hhead, hempty, hrefreshed]
    · simp only [Ready, Queue.refreshTail_toChannel,
        Queue.refreshTail_cachedTail]
      omega
  · right
    have hahead : q.head < q.cachedTail := by
      rw [hhead]
      exact not_le.mp hempty
    obtain ⟨j, hj, hslot⟩ : ∃ j < q.tail, j % n = q.head % n := by
      by_contra hfree
      refine hnot (Or.inr ⟨hahead, fun j hj hslot => hfree ⟨j, hj, hslot⟩⟩)
    obtain rfl : j = h % n := by
      rw [← hhead, ← hslot, Nat.mod_eq_of_lt (by omega)]
    -- the slot was written again with index `2 ^ w + h % n`
    have hdata := hI.slots_high (2 ^ w + h % n) (Nat.le_add_right _ _)
      (by omega)
    rw [Nat.add_sub_cancel_left] at hdata
    refine ⟨q.setChannel (q.setHead ((SizeT.bits w).add h 1)), 2 ^ w + h % n,
      ?_, by omega, by omega⟩
    simp [popAttempt, hhead, hempty, hdata]

/-! ## The calls -/

/-- A call of the queue of words and a call of the FIFO queue are both blocked,
or both return the same result and lead to corresponding queues. -/
inductive Agree (w n : ℕ) (log : List T) (op : Op T) :
    Option (Res T × Queue T) → Option (Res T × List T) → Prop
  | blocked : Agree w n log op none none
  | returns {r : Res T} {q' : Queue T} {log' : List T} {h' : ℕ}
      (hI : WrapInv w n log' h' q')
      (hlog : log'.Sublist (log ++ op.item?.toList)) :
      Agree w n log op (some (r, q')) (some (r, log'.drop h'))

theorem pushCall_blocked (hw : n < 2 ^ w) (hI : WrapInv w n log h q)
    (hfull : log.length = h + n) (item : T) (k : ℕ) :
    alpha.pushCall (.bits w) n item k q = none := by
  induction k generalizing q with
  | zero => rfl
  | succ k ih =>
      rw [alpha.pushCall, alpha.tryPushCall]
      rcases pushAttempt_spec hw hI item with ⟨-, q', hq', hI'⟩ | ⟨hroom, -⟩
      · rw [hq']
        exact ih hI'
      · omega

theorem popCall_blocked (hw : n < 2 ^ w) (hI : WrapInv w n log h q)
    (hready : Ready n q) (hempty : h = log.length) (k : ℕ) :
    alpha.popCall (.bits w) n k q = none := by
  induction k generalizing q with
  | zero => rfl
  | succ k ih =>
      rw [alpha.popCall, alpha.tryPopCall]
      rcases popAttempt_spec hw hI hready with
        ⟨-, q', hq', hI', hready'⟩ | ⟨hitem, -⟩
      · rw [hq']
        exact ih hI' hready'
      · omega

/-- Every call that pushes, and every ready call that pops, does what the call
of the FIFO queue does. -/
theorem call_agree (hw : n < 2 ^ w) {k : ℕ} (hk : 0 < k)
    (hI : WrapInv w n log h q) {op : Op T} (hready : op.takes → Ready n q) :
    Agree w n log op (alpha.call (.bits w) n k q op)
      (Fifo.call n (log.drop h) op) := by
  obtain ⟨k, rfl⟩ := Nat.exists_eq_succ_of_ne_zero hk.ne'
  have hle := hI.head_le
  have hlen : (log.drop h).length = log.length - h := List.length_drop
  have hpop : h < log.length → ∃ x, log[h]? = some x ∧
      log.drop h = x :: log.drop (h + 1) := fun hlt =>
    ⟨log[h], List.getElem?_eq_getElem hlt, List.drop_eq_getElem_cons hlt⟩
  cases op with
  | push item =>
      rcases pushAttempt_spec hw hI item with
        ⟨hfull, -⟩ | ⟨hroom, q', hq', hI'⟩
      · rw [alpha.call, pushCall_blocked hw hI hfull, Fifo.call,
          if_neg (by omega)]
        exact .blocked
      · rw [alpha.call, alpha.pushCall, alpha.tryPushCall, hq', Fifo.call,
          if_pos (by omega), ← List.drop_append_of_le_length hle]
        exact .returns hI' (List.Sublist.refl _)
  | tryPush item =>
      rcases pushAttempt_spec hw hI item with
        ⟨hfull, q', hq', hI'⟩ | ⟨hroom, q', hq', hI'⟩
      · rw [alpha.call, alpha.tryPushCall, hq', Fifo.call, if_neg (by omega)]
        exact .returns hI' (List.sublist_append_left _ _)
      · rw [alpha.call, alpha.tryPushCall, hq', Fifo.call, if_pos (by omega),
          ← List.drop_append_of_le_length hle]
        exact .returns hI' (List.Sublist.refl _)
  | pop =>
      rcases popAttempt_spec hw hI (hready rfl) with
        ⟨hempty, -⟩ | ⟨hlt, q', hq', hI'⟩
      · rw [alpha.call, popCall_blocked hw hI (hready rfl) hempty,
          List.drop_eq_nil_iff.mpr hempty.ge]
        exact .blocked
      · obtain ⟨x, hx, hdrop⟩ := hpop hlt
        rw [alpha.call, alpha.popCall, alpha.tryPopCall, hq', hx, hdrop]
        exact .returns hI' (List.sublist_append_left _ _)
  | tryPop =>
      rcases popAttempt_spec hw hI (hready rfl) with
        ⟨hempty, q', hq', hI', -⟩ | ⟨hlt, q', hq', hI'⟩
      · have hnil := List.drop_eq_nil_iff.mpr hempty.ge
        have hreturns := Agree.returns (r := .popped none) hI'
          (List.sublist_append_left log (Op.tryPop : Op T).item?.toList)
        rw [hnil] at hreturns ⊢
        rw [alpha.call, alpha.tryPopCall, hq']
        exact hreturns
      · obtain ⟨x, hx, hdrop⟩ := hpop hlt
        rw [alpha.call, alpha.tryPopCall, hq', hx, hdrop]
        exact .returns hI' (List.sublist_append_left _ _)

theorem popCall_not_ready (hw : n < 2 ^ w) (hI : WrapInv w n log h q)
    (hnot : ¬Ready n q) (k : ℕ) :
    alpha.popCall (.bits w) n k q = none ∨
      ∃ q' i, alpha.popCall (.bits w) n k q = some (log[i]?, q') ∧
        i < log.length ∧ i ≠ h := by
  induction k generalizing q with
  | zero => exact Or.inl rfl
  | succ k ih =>
      rw [alpha.popCall, alpha.tryPopCall]
      obtain ⟨-, ⟨q', hq', hI', hnot'⟩ | ⟨q', i, hq', hi⟩⟩ :=
        popAttempt_not_ready hw hI hnot
      · rw [hq']
        exact ih hI' hnot'
      · rw [hq']
        exact Or.inr ⟨q', i, rfl, hi⟩

/-- A call that pops when it is not ready does not do what the call of the FIFO
queue does, if all items differ. -/
theorem call_differs (hw : n < 2 ^ w) (k : ℕ) (hI : WrapInv w n log h q)
    (hnodup : log.Nodup) {op : Op T} (htakes : op.takes) (hnot : ¬Ready n q) :
    (alpha.call (.bits w) n k q op).map Prod.fst ≠
      (Fifo.call n (log.drop h) op).map Prod.fst := by
  obtain ⟨hlt, hattempt⟩ := popAttempt_not_ready hw hI hnot
  have hdrop := List.drop_eq_getElem_cons hlt
  have hother : ∀ {i}, i < log.length → i ≠ h → log[i]? ≠ some log[h] := by
    intro i hi hne heq
    rw [List.getElem?_eq_getElem hi, Option.some.injEq] at heq
    exact hne ((List.Nodup.getElem_inj_iff hnodup).mp heq)
  cases op with
  | push item | tryPush item => cases htakes
  | pop =>
      rw [alpha.call, hdrop]
      rcases popCall_not_ready hw hI hnot k with hnone | ⟨q', i, hsome, hi, hne⟩
      · rw [hnone]
        simp [Fifo.call]
      · rw [hsome]
        simpa [Fifo.call] using hother hi hne
  | tryPop =>
      rw [alpha.call, alpha.tryPopCall, hdrop]
      rcases hattempt with ⟨q', hq', -⟩ | ⟨q', i, hq', hi, hne⟩
      · rw [hq']
        simp [Fifo.call]
      · rw [hq']
        simpa [Fifo.call] using hother hi hne

end Spec

/-! ## Runs of calls -/

/-- Every pop of a sequence of calls is ready when it starts. -/
def AllReady (n : ℕ) (call : Queue T → Op T → Option (Res T × Queue T)) :
    Queue T → List (Op T) → Prop
  | _, [] => True
  | q, op :: ops =>
      (op.takes → Ready n q) ∧
        ∀ r q', call q op = some (r, q') → AllReady n call q' ops

section Runs

variable {call : Queue T → Op T → Option (Res T × Queue T)} {log : List T}
  {h : ℕ} {q : Queue T} {ops : List (Op T)} {k : ℕ}

/-- A sequence of calls whose pops are all ready returns what the FIFO queue
returns. -/
theorem results_eq_of_allReady (hw : n < 2 ^ w) (hk : 0 < k)
    (hcall : ∀ op ∈ ops, ∀ q, call q op = alpha.call (.bits w) n k q op)
    (hI : WrapInv w n log h q) (hready : AllReady n call q ops) :
    results call q ops = results (Fifo.call n) (log.drop h) ops := by
  induction ops generalizing log h q with
  | nil => rfl
  | cons op ops ih =>
      have hagree := call_agree hw hk hI hready.1
      rw [← hcall op (by simp)] at hagree
      rw [results, results]
      cases hq : call q op with
      | none =>
          rw [hq] at hagree
          cases hfifo : Fifo.call n (log.drop h) op with
          | none => rfl
          | some r =>
              rw [hfifo] at hagree
              cases hagree
      | some r =>
          rw [hq] at hagree
          generalize Fifo.call n (log.drop h) op = fifo at hagree
          cases hagree with
          | returns hI' hlog =>
              exact congrArg _ (ih (fun op hop => hcall op (by simp [hop])) hI'
                (hready.2 _ _ hq))

theorem results_head {σ : Type*} (call : σ → Op T → Option (Res T × σ))
    (s : σ) (op : Op T) (ops : List (Op T)) :
    (results call s (op :: ops)).head? = some ((call s op).map Prod.fst) := by
  rw [results]
  cases call s op <;> rfl

/-- If all items differ, a sequence of calls that returns what the FIFO queue
returns has only ready pops. -/
theorem allReady_of_results_eq (hw : n < 2 ^ w) (hk : 0 < k)
    (hcall : ∀ op ∈ ops, ∀ q, call q op = alpha.call (.bits w) n k q op)
    (hI : WrapInv w n log h q) (hnodup : (log ++ ops.filterMap Op.item?).Nodup)
    (heq : results call q ops = results (Fifo.call n) (log.drop h) ops) :
    AllReady n call q ops := by
  induction ops generalizing log h q with
  | nil => trivial
  | cons op ops ih =>
      have hready : op.takes → Ready n q := by
        intro htakes
        by_contra hnot
        refine call_differs hw k hI (List.Nodup.of_append_left hnodup) htakes
          hnot ?_
        have hhead := congrArg List.head? heq
        rw [results_head, results_head, hcall op (by simp)] at hhead
        exact Option.some.inj hhead
      refine ⟨hready, fun r q' hq => ?_⟩
      have hagree := call_agree hw hk hI hready
      rw [← hcall op (by simp), hq] at hagree
      rw [results, results, hq] at heq
      generalize Fifo.call n (log.drop h) op = fifo at hagree heq
      cases hagree with
      | @returns _ _ log' _ hI' hlog =>
          have hsub : (log' ++ ops.filterMap Op.item?).Sublist
              (log ++ (op :: ops).filterMap Op.item?) := by
            have hcons : (op :: ops).filterMap Op.item? =
                op.item?.toList ++ ops.filterMap Op.item? := by
              cases hitem : op.item? <;> simp [hitem]
            rw [hcons, ← List.append_assoc]
            exact hlog.append_right _
          exact ih (fun op hop => hcall op (by simp [hop])) hI'
            (hnodup.sublist hsub) (List.cons.inj heq).2

end Runs

/-- Calls made one after the other return what a FIFO queue of capacity `n`
returns, and the first that does not return is the first that blocks. -/
def Conforms (n : ℕ) (call : Queue T → Op T → Option (Res T × Queue T))
    (ops : List (Op T)) : Prop :=
  results call Queue.new ops = results (Fifo.call n) [] ops

/-- With counters of `w` bits, `alpha::spsc` does what a FIFO queue of capacity
`n` does in every sequence of calls, one after the other, whose pops are all
ready, and in no other if the items differ; and so does `StdAtomicSPSCQueue`. -/
theorem wrapped_calls_conform (hw : n < 2 ^ w) {k : ℕ} (hk : 0 < k)
    (ops : List (Op T)) :
    ((AllReady n (alpha.call (.bits w) n k) Queue.new ops →
        Conforms n (alpha.call (.bits w) n k) ops) ∧
      ((ops.filterMap Op.item?).Nodup →
        (Conforms n (alpha.call (.bits w) n k) ops ↔
          AllReady n (alpha.call (.bits w) n k) Queue.new ops))) ∧
    ((∀ op ∈ ops, op.blocks) →
      (AllReady n (StdAtomicSPSCQueue.call (.bits w) n k) Queue.new ops →
        Conforms n (StdAtomicSPSCQueue.call (.bits w) n k) ops) ∧
      ((ops.filterMap Op.item?).Nodup →
        (Conforms n (StdAtomicSPSCQueue.call (.bits w) n k) ops ↔
          AllReady n (StdAtomicSPSCQueue.call (.bits w) n k) Queue.new
            ops))) := by
  have hI := wrapInv_new (T := T) w n
  constructor
  · have hcall : ∀ op ∈ ops, ∀ q, alpha.call (.bits w) n k q op =
        alpha.call (.bits w) n k q op := fun _ _ _ => rfl
    exact ⟨results_eq_of_allReady hw hk hcall hI, fun hnodup =>
      ⟨allReady_of_results_eq hw hk hcall hI hnodup,
        results_eq_of_allReady hw hk hcall hI⟩⟩
  · intro hops
    have hcall : ∀ op ∈ ops, ∀ q, StdAtomicSPSCQueue.call (.bits w) n k q op =
        alpha.call (.bits w) n k q op :=
      fun op hop q => (alpha.call_eq_call k q (hops op hop)).symm
    exact ⟨results_eq_of_allReady hw hk hcall hI, fun hnodup =>
      ⟨allReady_of_results_eq hw hk hcall hI hnodup,
        results_eq_of_allReady hw hk hcall hI⟩⟩

/-- Two of five pushes wrap `tail_` around before the third pop. -/
def wrapOnce : List (Op ℕ) :=
  [.tryPush 0, .tryPush 1, .tryPush 2, .tryPop, .tryPop, .tryPush 3, .tryPush 4,
    .tryPop]

theorem wrapped_calls_conform_wrapOnce :
    AllReady 3 (alpha.call (.bits 2) 3 1) Queue.new wrapOnce :=
  ((wrapped_calls_conform (by decide) (by decide) wrapOnce).1.2
    (by decide)).mp (by with_unfolding_all rfl)

/-! ## The first wrap -/

/-- Every item is pushed and popped at once. -/
def pairs (xs : List T) : List (Op T) :=
  xs.flatMap fun x => [.tryPush x, .tryPop]

/-- The pop after push number `2 ^ w` is the first that fails. -/
theorem pairs_differ (hn : 1 ≤ n) (hw : n < 2 ^ w) {log xs : List T}
    {q : Queue T} (hI : WrapInv w n log log.length q) (hxs : xs ≠ [])
    (hlen : log.length + xs.length = 2 ^ w) (hnodup : (log ++ xs).Nodup) :
    results (alpha.call (.bits w) n 1) q (pairs xs) ≠
      results (Fifo.call n) [] (pairs xs) := by
  induction xs generalizing log q with
  | nil => exact absurd rfl hxs
  | cons x xs ih =>
      rw [List.length_cons] at hlen
      obtain ⟨q₁, hq₁, hI₁⟩ : ∃ q₁, pushAttempt (.bits w) n q.tail q x =
          (true, q₁) ∧ WrapInv w n (log ++ [x]) log.length q₁ := by
        rcases pushAttempt_spec hw hI x with ⟨hfull, -⟩ | ⟨-, hpush⟩
        · omega
        · exact hpush
      have hpush : alpha.call (.bits w) n 1 q (.tryPush x) =
          some (.pushed true, q₁) := by
        rw [alpha.call, alpha.tryPushCall, hq₁]
      have hfifo : Fifo.call n [] (.tryPush x) = some (.pushed true, [x]) :=
        if_pos hn
      have hdrop : (log ++ [x]).drop log.length = [x] := List.drop_left
      have hsplit : log ++ x :: xs = (log ++ [x]) ++ xs := by simp
      rw [hsplit] at hnodup
      intro heq
      rw [pairs, List.flatMap_cons, List.cons_append, List.cons_append,
        List.nil_append, results, results, hpush, hfifo] at heq
      have heq' := (List.cons.inj heq).2
      by_cases hlast : xs = []
      · -- `tail_` has just wrapped around to zero
        have hP : (log ++ [x]).length = 2 ^ w := by
          simpa [hlast] using hlen
        have hnot : ¬Ready n q₁ := by
          have hhead := hI₁.head_eq
          rcases hI₁.tail_cases hw with ⟨hlt, -⟩ | ⟨-, htail⟩
          · omega
          · rw [List.length_append, List.length_singleton] at hP htail
            rintro (hready | ⟨hahead, -⟩)
            · omega
            · have := (hI₁.cachedTail_of_ahead hw (hhead ▸ hahead)).2
              omega
        have htakes : (Op.tryPop : Op T).takes := rfl
        refine call_differs hw 1 hI₁ (List.Nodup.of_append_left hnodup) htakes
          hnot ?_
        have hhead := congrArg List.head? heq'
        rw [results_head, results_head] at hhead
        rw [hdrop]
        exact Option.some.inj hhead
      · have hpos : 0 < xs.length := List.length_pos_iff.mpr hlast
        have hready : Ready n q₁ := by
          have hhead := hI₁.head_eq
          rcases hI₁.tail_cases hw with ⟨-, htail⟩ | ⟨hge, -⟩
          · left
            rw [hhead, htail, List.length_append]
            omega
          · rw [List.length_append, List.length_singleton] at hge
            omega
        rcases popAttempt_spec hw hI₁ hready with
          ⟨hempty, -⟩ | ⟨-, q₂, hq₂, hI₂⟩
        · simp at hempty
        · have hpop : alpha.call (.bits w) n 1 q₁ .tryPop =
              some (.popped (some x), q₂) := by
            rw [alpha.call, alpha.tryPopCall, hq₂]
            simp
          rw [results, results, hpop] at heq'
          have hI₂' : WrapInv w n (log ++ [x]) (log ++ [x]).length q₂ := by
            simpa using hI₂
          refine ih hI₂' hlast ?_ hnodup (List.cons.inj heq').2
          rw [List.length_append, List.length_singleton]
          omega

/-- On a platform with 64 bits, the pop after push number `2 ^ 64` returns
`false` although the queue holds an item. -/
theorem not_conforms_wrapped :
    ¬Conforms 16384 (alpha.call (.bits 64) 16384 1)
      (pairs (List.range (2 ^ 64))) := by
  apply pairs_differ (by decide) (by decide) (wrapInv_new 64 16384)
  · exact List.length_pos_iff.mp (by rw [List.length_range]; decide)
  · rw [List.length_nil, List.length_range, Nat.zero_add]
  · rw [List.nil_append]
    exact List.nodup_range

end Spsc
end ConcurrentQueues
