import ConcurrentQueues.Support.Refinement

/-!
# Calls made one after the other

Where no two calls overlap, an atomic object leaves no choice of when a call
takes effect.  A system that implements the object then returns what the
operations return when they are simply called in that order, so one sequence of
calls with other results shows that a system does not implement the object.
-/

namespace ConcurrentQueues
namespace SeqObject

universe u v w x

variable {V : Type u} {Op : Type v} {Res : Type w} {ι : Type x} [DecidableEq ι]
  {S : SeqObject V Op Res} {a a' : Pool ι V (Phase Op Res)}
  {tr : List (ι × Act Op Res)}

/-- No thread is in a call. -/
def Idle (a : Pool ι V (Phase Op Res)) : Prop :=
  ∀ t, a.threads t = .idle

/-- What callers see of calls made one after the other. -/
def serial (calls : List (ι × Op × Res)) : List (ι × Act Op Res) :=
  calls.flatMap fun c => [(c.1, .call c.2.1), (c.1, .ret c.2.2)]

omit [DecidableEq ι] in
theorem serial_append (calls calls' : List (ι × Op × Res)) :
    serial (calls ++ calls') = serial calls ++ serial calls' :=
  List.flatMap_append

omit [DecidableEq ι] in
/-- Only an effect is not seen. -/
theorem eq_effect_of_unseen {l : ι × Act Op Res} (h : seen l = none) :
    l.2 = .effect := by
  obtain ⟨t, act⟩ := l
  cases act with
  | effect => rfl
  | call op => cases h
  | ret r => cases h

omit [DecidableEq ι] in
theorem eq_of_seen {l b : ι × Act Op Res} (h : seen l = some b) : l = b := by
  obtain ⟨t, act⟩ := l
  cases act with
  | effect => cases h
  | call op | ret r => exact Option.some.inj h

/-- Outside calls nothing happens unseen. -/
theorem eq_of_idle (hpath : (S.atomic ι).Path a tr a') (ha : Idle a)
    (hseen : ∀ l ∈ tr, seen l = none) : a' = a := by
  induction hpath with
  | refl => rfl
  | @tail m a' tr l hpath hstep ih =>
      obtain rfl := ih fun l' hl' => hseen l' (List.mem_append_left _ hl')
      have hact := eq_effect_of_unseen (hseen l (by simp))
      obtain ⟨q, ph, hmove, -⟩ := hstep
      rw [hact, ha l.1] at hmove
      cases hmove

/-- The only call that runs has taken effect or has not. -/
def Served (S : SeqObject V Op Res) (q : V) (t : ι) (op : Op)
    (a : Pool ι V (Phase Op Res)) : Prop :=
  (∀ t', t' ≠ t → a.threads t' = .idle) ∧
    (a.shared = q ∧ a.threads t = .pending op ∨
      ∃ r, S.apply q op r a.shared ∧ a.threads t = .done r)

theorem served_of_path {q : V} {t : ι} {op : Op}
    (hpath : (S.atomic ι).Path a tr a') (ha : S.Served q t op a)
    (hseen : ∀ l ∈ tr, seen l = none) : S.Served q t op a' := by
  induction hpath with
  | refl => exact ha
  | @tail m a' tr l hpath hstep ih =>
      obtain ⟨hidle, hself⟩ :=
        ih fun l' hl' => hseen l' (List.mem_append_left _ hl')
      have hact := eq_effect_of_unseen (hseen l (by simp))
      obtain ⟨q', ph, hmove, rfl⟩ := hstep
      rw [hact] at hmove
      by_cases ht : l.1 = t
      · subst ht
        rcases hself with ⟨rfl, hpending⟩ | ⟨r, -, hdone⟩
        · rw [hpending] at hmove
          cases hmove with
          | effect happly =>
              refine ⟨fun t' hne => ?_, Or.inr ⟨_, happly, ?_⟩⟩
              · rw [Pool.move_threads_of_ne _ _ _ hne]
                exact hidle t' hne
              · exact Pool.move_threads_self _ _ _ _
        · rw [hdone] at hmove
          cases hmove
      · rw [hidle l.1 ht] at hmove
        cases hmove

theorem served_of_call {t : ι} {op : Op} {m : Pool ι V (Phase Op Res)}
    (hstep : (S.atomic ι).step a (t, .call op) m) (ha : Idle a) :
    S.Served a.shared t op m := by
  obtain ⟨q, ph, hmove, rfl⟩ := hstep
  rw [ha t] at hmove
  cases hmove with
  | call =>
      refine ⟨fun t' hne => ?_, Or.inl ⟨rfl, Pool.move_threads_self _ _ _ _⟩⟩
      rw [Pool.move_threads_of_ne _ _ _ hne]
      exact ha t'

theorem apply_of_ret {q : V} {t : ι} {op : Op} {r : Res}
    {m : Pool ι V (Phase Op Res)} (hm : S.Served q t op m)
    (hstep : (S.atomic ι).step m (t, .ret r) a') :
    Idle a' ∧ S.apply q op r a'.shared := by
  obtain ⟨hidle, hself⟩ := hm
  obtain ⟨q', ph, hmove, rfl⟩ := hstep
  dsimp only at hmove
  rcases hself with ⟨-, hpending⟩ | ⟨r', happly, hdone⟩
  · rw [hpending] at hmove
    cases hmove
  · rw [hdone] at hmove
    cases hmove with
    | ret =>
        refine ⟨fun t' => ?_, happly⟩
        by_cases ht : t' = t
        · subst ht
          exact Pool.move_threads_self _ _ _ _
        · rw [Pool.move_threads_of_ne _ _ _ ht]
          exact hidle t' ht

/-- A call that starts and returns while no other thread is in one. -/
theorem path_call {t : ι} {op : Op} {r : Res}
    (hpath : (S.atomic ι).Path a tr a') (ha : Idle a)
    (hseen : tr.filterMap seen = [(t, .call op), (t, .ret r)]) :
    Idle a' ∧ S.apply a.shared op r a'.shared := by
  obtain ⟨tr₁, l, rest, rfl, hfree₁, hl, hrest⟩ :=
    List.filterMap_eq_cons_iff.mp hseen
  obtain ⟨tr₂, l', tr₃, rfl, hfree₂, hl', hfree₃⟩ :=
    List.filterMap_eq_cons_iff.mp hrest
  obtain rfl : l = (t, .call op) := eq_of_seen hl
  obtain rfl : l' = (t, .ret r) := eq_of_seen hl'
  obtain ⟨m₁, hpath₁, hfrom₁⟩ := hpath.split
  obtain rfl := eq_of_idle hpath₁ ha hfree₁
  obtain ⟨m₂, hcall, hfrom₂⟩ := hfrom₁.head
  obtain ⟨m₃, hpath₂, hfrom₃⟩ := hfrom₂.split
  obtain ⟨m₄, hret, hpath₃⟩ := hfrom₃.head
  have hserved := served_of_path hpath₂ (served_of_call hcall ha) hfree₂
  obtain ⟨hidle, happly⟩ := apply_of_ret hserved hret
  obtain rfl := eq_of_idle hpath₃ hidle (List.filterMap_eq_nil_iff.mp hfree₃)
  exact ⟨hidle, happly⟩

/-- Calls made one after the other return what the operations return. -/
theorem path_serial {calls : List (ι × Op × Res)}
    (hpath : (S.atomic ι).Path a tr a') (ha : Idle a)
    (hseen : tr.filterMap seen = serial calls) :
    Idle a' ∧ S.sequential.Path a.shared (calls.map Prod.snd) a'.shared := by
  induction calls generalizing a tr with
  | nil =>
      obtain rfl := eq_of_idle hpath ha (List.filterMap_eq_nil_iff.mp hseen)
      exact ⟨ha, .refl _⟩
  | cons c calls ih =>
      obtain ⟨tr₁, tr₂, rfl, hfst, hsnd⟩ :=
        List.filterMap_eq_append_iff.mp (hseen.trans List.flatMap_cons)
      obtain ⟨m, hpath₁, hpath₂⟩ := hpath.split
      obtain ⟨hidle, happly⟩ := path_call hpath₁ ha hfst
      obtain ⟨hidle', hrest⟩ := ih hpath₂ hidle hsnd
      have hstep : S.sequential.step a.shared c.2 m.shared := happly
      exact ⟨hidle', (Lts.Path.single hstep).trans hrest⟩

/-- An implementation returns, in calls made one after the other, what the
operations return. -/
theorem Implements.serial {σ α : Type*} {M : Lts σ α}
    {shows : α → Option (ι × Act Op Res)}
    {R : List α → σ → Pool ι V (Phase Op Res) → Prop} {tr : List α} {s : σ}
    {calls : List (ι × Op × Res)} (h : S.Implements M shows R)
    (hrun : M.Run tr s) (hshows : tr.filterMap shows = SeqObject.serial calls) :
    ∃ q, S.sequential.Run (calls.map Prod.snd) q := by
  obtain ⟨tr', a, hrun', hseen, -⟩ := h tr s hrun
  exact ⟨a.shared, (path_serial hrun' (fun _ => rfl) (hseen.trans hshows)).2⟩

end SeqObject
end ConcurrentQueues
