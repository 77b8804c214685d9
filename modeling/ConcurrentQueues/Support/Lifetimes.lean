import Mathlib.Data.Finset.Range
import Mathlib.Data.Finset.Basic

/-!
# Lifetimes of the objects in an array

Objects are constructed, read and destroyed in the slots of an array.  The
actions of a program are accounted for when nothing is constructed over a living
object, nothing is read or destroyed that does not live, and nothing is left
alive at the end.
-/

namespace ConcurrentQueues
namespace Lifetimes

/-- What a program does with the object in a slot. -/
inductive Action
  | construct (slot : ℕ)
  | read (slot : ℕ)
  | destroy (slot : ℕ)
  deriving DecidableEq

/-- The slots with a living object after an action, if the action is allowed. -/
def Action.apply (live : Finset ℕ) : Action → Option (Finset ℕ)
  | construct i => if i ∈ live then none else some (insert i live)
  | read i => if i ∈ live then some live else none
  | destroy i => if i ∈ live then some (live.erase i) else none

/-- The slots with a living object after the actions, if all are allowed. -/
def check : Finset ℕ → List Action → Option (Finset ℕ)
  | live, [] => some live
  | live, a :: acts => (a.apply live).bind fun live' => check live' acts

/-- Every object is constructed in a free slot, lives when it is read, and is
destroyed once. -/
def Balanced (acts : List Action) : Prop :=
  check ∅ acts = some ∅

instance (acts : List Action) : Decidable (Balanced acts) :=
  inferInstanceAs (Decidable (check ∅ acts = some ∅))

theorem check_append (live : Finset ℕ) (acts acts' : List Action) :
    check live (acts ++ acts') =
      (check live acts).bind fun live' => check live' acts' := by
  induction acts generalizing live with
  | nil => rfl
  | cons a acts ih =>
      simp only [List.cons_append, check]
      cases a.apply live with
      | none => rfl
      | some live' => exact ih live'

/-- Reading changes nothing. -/
theorem check_reads {live : Finset ℕ} {acts : List Action}
    (h : ∀ a ∈ acts, ∃ i ∈ live, a = .read i) : check live acts = some live := by
  induction acts with
  | nil => rfl
  | cons a acts ih =>
      obtain ⟨i, hi, rfl⟩ := h a List.mem_cons_self
      rw [check, Action.apply, if_pos hi, Option.bind_some]
      exact ih fun b hb => h b (List.mem_cons_of_mem _ hb)

/-- While all slots in use hold a living object, none can be constructed. -/
theorem check_construct {live : Finset ℕ} {acts : List Action}
    (h : ∀ a ∈ acts, ∃ i ∈ live, a = .construct i ∨ a = .read i)
    (hnew : ∃ i, .construct i ∈ acts) : check live acts = none := by
  induction acts with
  | nil =>
      obtain ⟨i, hi⟩ := hnew
      cases hi
  | cons a acts ih =>
      obtain ⟨i, hi, rfl | rfl⟩ := h a List.mem_cons_self
      · rw [check, Action.apply, if_pos hi, Option.bind_none]
      · rw [check, Action.apply, if_pos hi, Option.bind_some]
        apply ih fun b hb => h b (List.mem_cons_of_mem _ hb)
        obtain ⟨j, hj⟩ := hnew
        rcases List.mem_cons.mp hj with heq | hj
        · cases heq
        · exact ⟨j, hj⟩

/-! ## Arrays -/

/-- The elements of an array, constructed in order. -/
def constructArray (n : ℕ) : List Action :=
  (List.range n).map .construct

/-- The elements of an array, destroyed in reverse order. -/
def destroyArray (n : ℕ) : List Action :=
  (List.range n).reverse.map .destroy

theorem check_constructArray (n : ℕ) :
    check ∅ (constructArray n) = some (Finset.range n) := by
  induction n with
  | zero => rfl
  | succ n ih =>
      have hlast : constructArray (n + 1) = constructArray n ++ [.construct n] := by
        simp [constructArray, List.range_succ]
      rw [hlast, check_append, ih, Option.bind_some, check, Action.apply,
        if_neg Finset.notMem_range_self, Option.bind_some, check,
        Finset.range_add_one]

theorem check_destroyArray (n : ℕ) :
    check (Finset.range n) (destroyArray n) = some ∅ := by
  induction n with
  | zero => rfl
  | succ n ih =>
      have hfirst : destroyArray (n + 1) = .destroy n :: destroyArray n := by
        simp [destroyArray, List.range_succ]
      rw [hfirst, check, Action.apply,
        if_pos (Finset.mem_range.mpr (Nat.lt_succ_self n)), Option.bind_some,
        Finset.range_add_one, Finset.erase_insert Finset.notMem_range_self, ih]

end Lifetimes
end ConcurrentQueues
