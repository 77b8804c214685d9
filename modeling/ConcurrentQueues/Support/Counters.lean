import ConcurrentQueues.Support.Lts
import Mathlib.Algebra.Order.Ring.Nat

/-!
# Two counters read one after the other

A system counts up a lower and an upper counter, one of them in each step, and
the lower one never passes the upper one.  A reader that loads the two at
different moments compares values that may never have stood side by side.  What
can still be said is about some moment in between: where the upper counter has
grown the two were apart, and where the lower one has come to a value that the
upper one had, they have met if they are never more than one apart.
-/

namespace ConcurrentQueues

universe u v

namespace Lts

variable {σ : Type u} {α : Type v} {M : Lts σ α} {mark : α → Prop}
  {P Q : σ → Prop} {tr : List α} {s : σ}

theorem Since.weaken (h : M.Since mark P tr s) (himp : ∀ m, P m → Q m) :
    M.Since mark Q tr s := by
  obtain ⟨tr₁, tr₂, m, htr, hrun, hpath, hfree, hm⟩ := h
  exact ⟨tr₁, tr₂, m, htr, hrun, hpath, hfree, himp m hm⟩

theorem Since.split {R : σ → Prop} (h : M.Since mark P tr s)
    (hor : ∀ m, P m → Q m ∨ R m) :
    M.Since mark Q tr s ∨ M.Since mark R tr s := by
  obtain ⟨tr₁, tr₂, m, htr, hrun, hpath, hfree, hm⟩ := h
  rcases hor m hm with hQ | hR
  · exact Or.inl ⟨tr₁, tr₂, m, htr, hrun, hpath, hfree, hQ⟩
  · exact Or.inr ⟨tr₁, tr₂, m, htr, hrun, hpath, hfree, hR⟩

/-- What held at some moment and does not hold now has changed in a step. -/
theorem Since.changed (h : M.Since mark P tr s) (hnow : ¬P s)
    (hstep : ∀ s a s', M.Reachable s → M.step s a s' → P s → ¬P s' → Q s') :
    M.Since mark Q tr s := by
  obtain ⟨tr₁, tr₂, m, rfl, hrun, hpath, hfree, hm⟩ := h
  induction hpath with
  | refl => exact absurd hm hnow
  | @tail k s tr₂ a hpath hlast ih =>
      have hrunk : M.Run (tr₁ ++ tr₂) k := Path.trans hrun hpath
      rw [← List.append_assoc]
      by_cases hk : P k
      · apply Since.now (hrunk.tail hlast)
        exact hstep k a s ⟨_, hrunk⟩ hlast hk hnow
      · refine Since.tail (ih hk fun b hb => ?_) hlast (hfree a (by simp))
        exact hfree b (List.mem_append_left _ hb)

/-- What every unmarked step keeps of an earlier state holds between some
moment since the last mark and now. -/
theorem Since.relate {R : σ → σ → Prop} (h : M.Since mark P tr s)
    (hrefl : ∀ m, R m m)
    (hstep : ∀ m s a s', M.Reachable s → M.step s a s' → ¬mark a → R m s →
      R m s') :
    M.Since mark (fun m => P m ∧ R m s) tr s := by
  obtain ⟨tr₁, tr₂, m, rfl, hrun, hpath, hfree, hm⟩ := h
  refine ⟨tr₁, tr₂, m, rfl, hrun, hpath, hfree, hm, ?_⟩
  induction hpath with
  | refl => exact hrefl _
  | @tail k s tr₂ a hpath hlast ih =>
      have hbefore := ih fun b hb => hfree b (List.mem_append_left _ hb)
      exact hstep m k a s ⟨_, Path.trans hrun hpath⟩ hlast (hfree a (by simp))
        hbefore

end Lts

/-- Two counters of a system, the upper one never behind the lower one, of
which a step counts up at most one. -/
structure Counters {σ : Type u} {α : Type v} (M : Lts σ α)
    (lower upper : σ → ℕ) : Prop where
  le : ∀ s, M.Reachable s → lower s ≤ upper s
  step : ∀ s a s', M.Reachable s → M.step s a s' →
    (lower s' = lower s ∧ upper s ≤ upper s') ∨
      (lower s' = lower s + 1 ∧ upper s' = upper s)

namespace Counters

variable {σ : Type u} {α : Type v} {M : Lts σ α} {lower upper : σ → ℕ}
  {mark : α → Prop} {P : σ → Prop} {tr : List α} {s : σ} {v : ℕ}

/-- Neither counter was ahead of its value now. -/
theorem since_le (hC : Counters M lower upper) (h : M.Since mark P tr s) :
    M.Since mark
      (fun m => P m ∧ lower m ≤ lower s ∧ upper m ≤ upper s) tr s := by
  refine h.relate (R := fun m s => lower m ≤ lower s ∧ upper m ≤ upper s)
    (fun _ => ⟨le_rfl, le_rfl⟩) ?_
  intro m s a s' hs hlast _ hle
  have := hC.step s a s' hs hlast
  omega

/-- The upper counter has left the lower one behind where it has grown. -/
theorem apart_of_grown (hC : Counters M lower upper)
    (h : M.Since mark (fun m => upper m ≤ v) tr s) (hv : v < upper s) :
    M.Since mark (fun m => lower m < upper m) tr s := by
  refine h.changed (not_le.mpr hv) ?_
  intro s a s' hs hlast hle hgrown
  have := hC.step s a s' hs hlast
  have := hC.le s hs
  omega

/-- Where the upper counter is not what the lower one was, the two were
apart. -/
theorem apart_of_lower_ne (hC : Counters M lower upper)
    (h : M.Since mark (fun m => lower m = v) tr s) (hne : v ≠ upper s) :
    M.Since mark (fun m => lower m < upper m) tr s := by
  have hle := hC.le s ⟨tr, h.run⟩
  have hsplit := (hC.since_le h).split
    (Q := fun m => lower m < upper m)
    (R := fun m => upper m ≤ v ∧ v ≤ lower s) fun m hm => by omega
  rcases hsplit with hapart | hmet
  · exact hapart
  · have ⟨_, _, m, _, _, _, _, _, hlower⟩ := hmet
    exact hC.apart_of_grown (hmet.weaken fun _ hm => hm.1) (by omega)

/-- Where the lower counter is not what the upper one was, the two were
apart. -/
theorem apart_of_upper_ne (hC : Counters M lower upper)
    (h : M.Since mark (fun m => upper m = v) tr s) (hne : v ≠ lower s) :
    M.Since mark (fun m => lower m < upper m) tr s := by
  have hle := hC.le s ⟨tr, h.run⟩
  rcases lt_or_gt_of_ne hne with hlt | hgt
  · exact hC.apart_of_grown (h.weaken fun _ hm => hm.le) (by omega)
  · exact (hC.since_le h).weaken fun m hm => by omega

/-- Where the upper counter is what the lower one was, they meet now. -/
theorem met_of_lower_eq (hC : Counters M lower upper)
    (h : M.Since mark (fun m => lower m = v) tr s) (heq : v = upper s) :
    lower s = upper s := by
  have hle := hC.le s ⟨tr, h.run⟩
  obtain ⟨-, -, m, -, -, -, -, hm, hlower, -⟩ := hC.since_le h
  omega

/-- The lower counter has met the upper one where it has come to a value the
upper one had, if the two are never more than one apart. -/
theorem met_of_reached (hC : Counters M lower upper)
    (hgap : ∀ s, M.Reachable s → upper s ≤ lower s + 1)
    (h : M.Since mark (fun m => upper m = v) tr s) (hv : v ≤ lower s) :
    M.Since mark (fun m => lower m = upper m) tr s := by
  obtain ⟨tr₁, tr₂, m, rfl, hrun, hpath, hfree, hm⟩ := h
  rcases (hC.le m ⟨tr₁, hrun⟩).lt_or_eq with hlt | hmet
  · have hbelow : M.Since mark (fun m => v ≤ upper m ∧ lower m < v)
        (tr₁ ++ tr₂) s :=
      ⟨tr₁, tr₂, m, rfl, hrun, hpath, hfree, hm.ge, hm ▸ hlt⟩
    refine hbelow.changed (fun h => not_lt.mpr hv h.2) ?_
    intro s a s' hs hlast hbefore hafter
    have := hC.step s a s' hs hlast
    have := hgap s hs
    omega
  · exact ⟨tr₁, tr₂, m, rfl, hrun, hpath, hfree, hmet⟩

end Counters
end ConcurrentQueues
