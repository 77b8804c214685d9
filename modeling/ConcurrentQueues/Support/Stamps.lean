import Mathlib.Data.List.Infix
import Mathlib.Tactic.Common

/-!
# Reading first, publishing later

Threads take steps of their own, each with an input.  A thread reads its first
input and publishes it with its second step, so the order in which inputs are
published need not be the order in which they were read.  This module is about
such lists of steps: who of a group has published first, who has published
last, and what both had read.
-/

namespace ConcurrentQueues
namespace Stamps

universe u v w

variable {ι : Type u} {κ : Type v} {η : Type w} {E : Type*} [DecidableEq ι]

/-! ## Steps with inputs -/

/-- The steps of a trace that have an input. -/
def inputs (tr : List (ι × (κ ⊕ E))) : List (ι × κ) :=
  tr.filterMap fun a => a.2.getLeft?.map fun x => (a.1, x)

omit [DecidableEq ι] in
theorem inputs_snoc_own (tr : List (ι × (κ ⊕ E))) (t : ι) (x : κ) :
    inputs (tr ++ [(t, .inl x)]) = inputs tr ++ [(t, x)] := by
  simp [inputs]

omit [DecidableEq ι] in
theorem inputs_snoc_other (tr : List (ι × (κ ⊕ E))) (t : ι) (e : E) :
    inputs (tr ++ [(t, .inr e)]) = inputs tr := by
  simp [inputs]

/-- The inputs of `t`, in order. -/
def inputsOf (t : ι) (ins : List (ι × κ)) : List κ :=
  ins.filterMap fun a => if a.1 = t then some a.2 else none

@[simp] theorem inputsOf_nil (t : ι) : inputsOf t ([] : List (ι × κ)) = [] :=
  rfl

@[simp] theorem inputsOf_snoc_self (t : ι) (ins : List (ι × κ)) (x : κ) :
    inputsOf t (ins ++ [(t, x)]) = inputsOf t ins ++ [x] := by
  simp [inputsOf]

theorem inputsOf_snoc_of_ne {t t' : ι} (h : t' ≠ t) (ins : List (ι × κ))
    (x : κ) : inputsOf t (ins ++ [(t', x)]) = inputsOf t ins := by
  simp [inputsOf, h]

theorem inputsOf_grow {ins ins' : List (ι × κ)} (h : ins <+: ins') (t : ι) :
    inputsOf t ins <+: inputsOf t ins' :=
  h.filterMap _

/-! ## Readings and their publication -/

/-- The first input of `t`. -/
def reading (t : ι) (ins : List (ι × κ)) : Option κ :=
  (inputsOf t ins).head?

/-- The thread has taken the step that publishes its reading. -/
def Published (t : ι) (ins : List (ι × κ)) : Prop :=
  2 ≤ (inputsOf t ins).length

instance (t : ι) (ins : List (ι × κ)) : Decidable (Published t ins) :=
  inferInstanceAs (Decidable (2 ≤ _))

variable {ins ins' : List (ι × κ)} {t : ι} {x : κ}

theorem reading_mono (h : ins <+: ins') (hx : reading t ins = some x) :
    reading t ins' = some x := by
  obtain ⟨rest, hrest⟩ := inputsOf_grow h t
  rw [reading, ← hrest, List.head?_append]
  rw [reading] at hx
  rw [hx]
  rfl

theorem Published.mono (h : ins <+: ins') (hp : Published t ins) :
    Published t ins' :=
  le_trans hp (inputsOf_grow h t).length_le

/-- A step with an input of another thread. -/
theorem published_snoc_of_ne {t' : ι} (h : t' ≠ t) :
    Published t (ins ++ [(t', x)]) ↔ Published t ins := by
  rw [Published, inputsOf_snoc_of_ne h, Published]

theorem published_snoc_self (h : inputsOf t ins ≠ []) :
    Published t (ins ++ [(t, x)]) := by
  have hpos := List.length_pos_iff.mpr h
  rw [Published, inputsOf_snoc_self, List.length_append, List.length_singleton]
  exact Nat.succ_le_succ hpos

/-- At some moment `i` was the only one of the group `e` that had published. -/
def FirstOf (e : η → ι) (i : η) (ins : List (ι × κ)) : Prop :=
  ∃ pre, pre <+: ins ∧ Published (e i) pre ∧ ∀ j, j ≠ i → ¬Published (e j) pre

/-- At some moment `i` was the only one of the group `e` that had not. -/
def LastOf (e : η → ι) (i : η) (ins : List (ι × κ)) : Prop :=
  ∃ pre, pre <+: ins ∧ ¬Published (e i) pre ∧ ∀ j, j ≠ i → Published (e j) pre

variable {e : η → ι} {i i' : η}

theorem FirstOf.mono (h : ins <+: ins') (hi : FirstOf e i ins) :
    FirstOf e i ins' := by
  obtain ⟨pre, hpre, hself, hother⟩ := hi
  exact ⟨pre, hpre.trans h, hself, hother⟩

theorem LastOf.mono (h : ins <+: ins') (hi : LastOf e i ins) :
    LastOf e i ins' := by
  obtain ⟨pre, hpre, hself, hother⟩ := hi
  exact ⟨pre, hpre.trans h, hself, hother⟩

/-- The first one to publish, at the step that does. -/
theorem firstOf_snoc (he : Function.Injective e)
    (hnone : ∀ j, ¬Published (e j) ins) (hread : inputsOf (e i) ins ≠ []) :
    FirstOf e i (ins ++ [(e i, x)]) := by
  refine ⟨_, List.prefix_rfl, published_snoc_self hread, fun j hj => ?_⟩
  rw [published_snoc_of_ne fun h => hj (he h).symm]
  exact hnone j

theorem FirstOf.unique (h : FirstOf e i ins) (h' : FirstOf e i' ins) :
    i' = i := by
  obtain ⟨pre, hpre, hself, hother⟩ := h
  obtain ⟨pre', hpre', hself', hother'⟩ := h'
  by_contra hne
  rcases List.prefix_or_prefix_of_prefix hpre hpre' with hle | hle
  · exact hother' i (Ne.symm hne) (hself.mono hle)
  · exact hother i' hne (hself'.mono hle)

theorem LastOf.unique (h : LastOf e i ins) (h' : LastOf e i' ins) :
    i' = i := by
  obtain ⟨pre, hpre, hself, hother⟩ := h
  obtain ⟨pre', hpre', hself', hother'⟩ := h'
  by_contra hne
  rcases List.prefix_or_prefix_of_prefix hpre hpre' with hle | hle
  · exact hself' ((hother i' hne).mono hle)
  · exact hself ((hother' i (Ne.symm hne)).mono hle)

/-- What one member of a group has read compares with what all have read just if
that member, once picked out by `Q`, can be named so. -/
theorem compare_iff {Q : η → Prop} {R : κ → κ → Prop}
    (hunique : ∀ i', Q i' → i' = i) (hi : Q i)
    (hx : reading (e i) ins = some x) :
    (∀ j y, reading (e j) ins = some y → R x y) ↔
      ∃ i, Q i ∧ ∀ j x y, reading (e i) ins = some x →
        reading (e j) ins = some y → R x y := by
  constructor
  · intro hall
    refine ⟨i, hi, fun j x' y hx' hy => ?_⟩
    obtain rfl := Option.some.inj (hx.symm.trans hx')
    exact hall j y hy
  · rintro ⟨i', hi', hall⟩ j y hy
    obtain rfl := hunique i' hi'
    exact hall j x y hx hy

end Stamps
end ConcurrentQueues
