import ConcurrentQueues.Support.Serial

/-!
# Assertions along a history

A history is what callers see of a run: the starts and returns of calls.  An
atomic object may let pending calls take effect anywhere in between, so what is
asserted of the object after a history has to survive the effects.  If no state
is left, no system that implements the object has a run with this history.
-/

namespace ConcurrentQueues
namespace SeqObject

universe u v w x

variable {V : Type u} {Op : Type v} {Res : Type w} {ι : Type x} [DecidableEq ι]
  {S : SeqObject V Op Res} {a a' : Pool ι V (Phase Op Res)}
  {tr : List (ι × Act Op Res)} {hist : List (ι × Act Op Res)}
  {P Q : Pool ι V (Phase Op Res) → Prop}

/-- Effects do not end the truth of `P`. -/
def Stable (S : SeqObject V Op Res)
    (P : Pool ι V (Phase Op Res) → Prop) : Prop :=
  ∀ a t q ph, P a → S.Move a.shared (a.threads t) .effect q ph →
    P (a.move t q ph)

/-- `P` holds whenever callers have seen `hist`. -/
def After (S : SeqObject V Op Res) (hist : List (ι × Act Op Res))
    (P : Pool ι V (Phase Op Res) → Prop) : Prop :=
  ∀ tr a, (S.atomic ι).Run tr a → tr.filterMap seen = hist → P a

theorem Stable.path (hP : S.Stable P) (h : (S.atomic ι).Path a tr a')
    (ha : P a) (hseen : ∀ l ∈ tr, seen l = none) : P a' := by
  induction h with
  | refl => exact ha
  | @tail m a' tr l hpath hstep ih =>
      have hm := ih fun l' hl' => hseen l' (List.mem_append_left _ hl')
      have hact := eq_effect_of_unseen (hseen l (by simp))
      obtain ⟨q, ph, hmove, rfl⟩ := hstep
      rw [hact] at hmove
      exact hP m l.1 q ph hm hmove

theorem after_nil (hP : S.Stable P) (hinit : P (S.atomic ι).init) :
    S.After [] P :=
  fun _ _ hrun hseen =>
    hP.path hrun hinit (List.filterMap_eq_nil_iff.mp hseen)

/-- One more start or return. -/
theorem After.snoc (h : S.After hist P) (t : ι) (act : Act Op Res)
    (hstep : ∀ a q ph, P a → S.Move a.shared (a.threads t) act q ph →
      Q (a.move t q ph)) (hQ : S.Stable Q) :
    S.After (hist ++ [(t, act)]) Q := by
  intro tr a hrun hseen
  obtain ⟨tr₁, tr₂, rfl, hfst, hsnd⟩ := List.filterMap_eq_append_iff.mp hseen
  obtain ⟨tr₂, l, tr₃, rfl, hfree, hl, hfree'⟩ :=
    List.filterMap_eq_cons_iff.mp hsnd
  obtain rfl : l = (t, act) := eq_of_seen hl
  obtain ⟨m₁, hpath₁, hfrom₁⟩ := Lts.Path.split hrun
  obtain ⟨m₂, hpath₂, hfrom₂⟩ := hfrom₁.split
  obtain ⟨m₃, ⟨q, ph, hmove, rfl⟩, hpath₃⟩ := hfrom₂.head
  have hm₂ := h (tr₁ ++ tr₂) m₂ (hpath₁.trans hpath₂) (by
    rw [List.filterMap_append, hfst,
      List.filterMap_eq_nil_iff.mpr hfree, List.append_nil])
  exact hQ.path hpath₃ (hstep m₂ q ph hm₂ hmove)
    (List.filterMap_eq_nil_iff.mp hfree')

/-- A call made and answered. -/
theorem After.call (h : S.After hist P) (t : ι) (op : Op) (r : Res)
    {R : Pool ι V (Phase Op Res) → Prop}
    (hcall : ∀ a, P a → a.threads t = .idle →
      Q (a.move t a.shared (.pending op))) (hQ : S.Stable Q)
    (hret : ∀ a, Q a → a.threads t = .done r →
      R (a.move t a.shared .idle)) (hR : S.Stable R) :
    S.After (hist ++ serial [(t, op, r)]) R := by
  have hboth : S.After (hist ++ [(t, .call op)] ++ [(t, .ret r)]) R := by
    refine (h.snoc t (.call op) (Q := Q) (fun a q ph ha hmove => ?_) hQ).snoc
      t (.ret r) (fun a q ph ha hmove => ?_) hR
    · generalize hth : a.threads t = th at hmove
      cases hmove with
      | call => exact hcall a ha hth
    · generalize hth : a.threads t = th at hmove
      cases hmove with
      | ret => exact hret a ha hth
  rwa [List.append_assoc] at hboth

/-- The same call made and answered any number of times. -/
theorem After.calls (h : S.After hist P) (t : ι) (op : Op) (r : Res)
    (hcall : ∀ a, P a → a.threads t = .idle →
      Q (a.move t a.shared (.pending op))) (hQ : S.Stable Q)
    (hret : ∀ a, Q a → a.threads t = .done r →
      P (a.move t a.shared .idle)) (hP : S.Stable P) (m : ℕ) :
    S.After (hist ++ serial (List.replicate m (t, op, r))) P := by
  induction m with
  | zero =>
      rw [List.replicate_zero]
      exact (List.append_nil hist).symm ▸ h
  | succ m ih =>
      rw [List.replicate_succ', serial_append, ← List.append_assoc]
      exact ih.call t op r hcall hQ hret hP

/-- A run of an implementation ends in a state of which all is true that holds
after its history. -/
theorem Implements.exists_after {σ α : Type*} {M : Lts σ α}
    {shows : α → Option (ι × Act Op Res)}
    {R : List α → σ → Pool ι V (Phase Op Res) → Prop} {tr : List α} {s : σ}
    (h : S.Implements M shows R) (hrun : M.Run tr s)
    (hafter : S.After (tr.filterMap shows) P) : ∃ a, P a := by
  obtain ⟨tr', a, hrun', hseen, -⟩ := h tr s hrun
  exact ⟨a, hafter tr' a hrun' hseen⟩

end SeqObject
end ConcurrentQueues
