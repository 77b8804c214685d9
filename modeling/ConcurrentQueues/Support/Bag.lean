import ConcurrentQueues.Support.Refinement
import Mathlib.Data.Multiset.Basic
import Mathlib.Data.Multiset.AddSub

/-!
# Bags

A bag has the operations of a queue but does not remember in which order its
items came.  Its try calls may fail at any time.  A bag with room for one item
has no order to forget.
-/

namespace ConcurrentQueues
namespace Bag

universe u

open Fifo

/-- The operations on the items in the bag. -/
inductive Apply {T : Type u} (cap : ℕ∞) :
    Multiset T → Op T → Res T → Multiset T → Prop
  | push {q : Multiset T} {x : T} (h : (q.card : ℕ∞) < cap) :
      Apply cap q (.push x) (.pushed true) (x ::ₘ q)
  | tryPush {q : Multiset T} {x : T} (h : (q.card : ℕ∞) < cap) :
      Apply cap q (.tryPush x) (.pushed true) (x ::ₘ q)
  | refuse {q : Multiset T} {x : T} : Apply cap q (.tryPush x) (.pushed false) q
  | pop {q : Multiset T} {x : T} :
      Apply cap (x ::ₘ q) .pop (.popped (some x)) q
  | tryPop {q : Multiset T} {x : T} :
      Apply cap (x ::ₘ q) .tryPop (.popped (some x)) q
  | miss {q : Multiset T} : Apply cap q .tryPop (.popped none) q

/-- The bag that holds at most `cap` items. -/
def object (T : Type u) (cap : ℕ∞) : SeqObject (Multiset T) (Op T) (Res T) where
  init := 0
  apply := Apply cap

theorem Apply.put {T : Type u} {cap : ℕ∞} {q : Multiset T} {x : T} {op : Op T}
    (hop : op.item? = some x) (h : (q.card : ℕ∞) < cap) :
    Apply cap q op (.pushed true) (x ::ₘ q) := by
  cases op with
  | push y => cases hop; exact .push h
  | tryPush y => cases hop; exact .tryPush h
  | pop | tryPop => cases hop

theorem Apply.take {T : Type u} {cap : ℕ∞} {q : Multiset T} {x : T} {op : Op T}
    (hop : op.item? = none) :
    Apply cap (x ::ₘ q) op (.popped (some x)) q := by
  cases op with
  | push y | tryPush y => cases hop
  | pop => exact .pop
  | tryPop => exact .tryPop

/-- With room for one item the items are in order. -/
theorem eq_nil_of_lt_one {T : Type u} {l : List T}
    (h : ((l : Multiset T).card : ℕ∞) < 1) : l = [] := by
  rw [Multiset.coe_card] at h
  exact List.length_eq_zero_iff.mp (Nat.lt_one_iff.mp (by exact_mod_cast h))

theorem eq_singleton_of_cons {T : Type u} {l : List T} {q : Multiset T} {x : T}
    (hcons : x ::ₘ q = ↑l) (hlen : l.length ≤ 1) : q = 0 ∧ l = [x] := by
  have hcard := congrArg Multiset.card hcons
  rw [Multiset.card_cons, Multiset.coe_card] at hcard
  obtain rfl : q = 0 := Multiset.card_eq_zero.mp (by omega)
  exact ⟨rfl, Multiset.coe_eq_singleton.mp hcons.symm⟩

/-- A bag with room for one item is a queue with room for one item. -/
theorem refines_hesitant (T : Type u) :
    (object T 1).Refines (hesitant T 1 True True)
      fun q l => q = ↑l ∧ l.length ≤ 1 where
  init := ⟨rfl, Nat.zero_le 1⟩
  apply := by
    rintro q q' l op r ⟨hq, hlen⟩ h
    cases h with
    | push hlt =>
        subst hq
        obtain rfl := eq_nil_of_lt_one hlt
        exact ⟨_, .apply (.push (by simp)), rfl, le_rfl⟩
    | tryPush hlt =>
        subst hq
        obtain rfl := eq_nil_of_lt_one hlt
        exact ⟨_, .apply (.tryPush (by simp)), rfl, le_rfl⟩
    | refuse => exact ⟨l, .refuse trivial, hq, hlen⟩
    | pop =>
        obtain ⟨rfl, rfl⟩ := eq_singleton_of_cons hq hlen
        exact ⟨[], .apply .pop, rfl, Nat.zero_le 1⟩
    | tryPop =>
        obtain ⟨rfl, rfl⟩ := eq_singleton_of_cons hq hlen
        exact ⟨[], .apply .tryPop, rfl, Nat.zero_le 1⟩
    | miss => exact ⟨l, .miss trivial, hq, hlen⟩

end Bag
end ConcurrentQueues
