import ConcurrentQueues.Support.Clients
import ConcurrentQueues.Support.Sections

/-!
# Implementations that wait where the object waits

A thread that waits in a loop always has a step to take, so a queue whose calls
only ever loop comes to a stop only when no call is in progress.  The waiters of
a monitor sleep.  If no wake-up is lost they sleep only while their sections
could not run, even though nobody wakes unless it is notified.
-/

namespace ConcurrentQueues

/-- A run of the system with fewer steps is one of the system. -/
theorem Lts.run_of_keeping {σ α : Type*} {M : Lts σ α} {p : σ → α → Prop}
    {tr : List α} {s : σ} (h : (M.keeping p).Run tr s) : M.Run tr s := by
  refine Lts.Run.induction (P := fun tr s => M.Run tr s) ?_ ?_ h
  · exact Lts.Run.init
  · exact fun tr s a s' _ hrun hstep => hrun.tail hstep.1

namespace SeqObject

variable {V V' Op Res ι : Type*} [DecidableEq ι]

/-- The converse of `OnlyCalls.atomic`. -/
theorem onlyCalls_atomic {S : SeqObject V Op Res} {a : Pool ι V (Phase Op Res)}
    (h : ∀ t, a.threads t = .idle ∨ ∃ op, a.threads t = .pending op ∧
      ∀ r q, ¬S.apply a.shared op r q) : OnlyCalls (S.atomic ι) some a := by
  rintro ⟨t, act⟩ a' ⟨q, ph, hmove, rfl⟩
  change S.Move a.shared (a.threads t) act q ph at hmove
  rcases h t with hidle | ⟨op, hpending, hnone⟩
  · rw [hidle] at hmove
    cases hmove with
    | call => exact ⟨t, _, rfl⟩
  · rw [hpending] at hmove
    cases hmove with
    | effect happly => exact absurd happly (hnone _ _)

/-- The effects of calls need not be shown. -/
theorem Linearizes.implements {S : SeqObject V Op Res} {σ α : Type*}
    {M : Lts σ α} {shows : α → Option (ι × Act Op Res)}
    {R : List α → σ → Pool ι V (Phase Op Res) → Prop}
    (h : S.Linearizes M shows R) :
    S.Implements M (fun x => (shows x).bind seen) R := by
  intro tr s hrun
  obtain ⟨a, ha, hR⟩ := h tr s hrun
  refine ⟨_, a, ha, ?_, hR⟩
  rw [List.filterMap_filterMap]

/-- Whatever calls are in progress, one of them has a step to take. -/
theorem Implements.blocking {S : SeqObject V Op Res} {may : ι → Op → Prop}
    {σ α : Type*} {M : Lts σ α} {shows : α → Option (ι × Act Op Res)}
    {R : List α → σ → Pool ι V (Phase Op Res) → Prop}
    (h : S.Implements M shows R)
    (haccepts : ∀ tr s a, R tr s a → ∀ t op, may t op →
      a.threads t = .idle → ∃ x s', M.step s x s' ∧ shows x = some (t, .call op))
    (hmoves : ∀ tr s a, R tr s a → ∀ t, a.threads t ≠ .idle →
      ∃ x s', M.step s x s' ∧ ∀ u op, shows x ≠ some (u, .call op)) :
    S.Blocking may M shows := by
  intro tr s hrun
  obtain ⟨tr', a, ha, hsame, hR⟩ := h tr s hrun
  refine ⟨tr', a, ha, hsame, haccepts tr s a hR, fun honly => ?_⟩
  refine onlyCalls_atomic fun t => ?_
  by_contra hbusy
  obtain ⟨x, s', hstep, hno⟩ := hmoves tr s a hR t fun hidle => hbusy (.inl hidle)
  obtain ⟨u, op, hx⟩ := honly x s' hstep
  exact hno u op hx

/-- Objects that refine each other block the same calls. -/
theorem Blocking.refine {S : SeqObject V Op Res} {S' : SeqObject V' Op Res}
    {may : ι → Op → Prop} {σ α : Type*} {M : Lts σ α}
    {shows : α → Option (ι × Act Op Res)} {rep : V → V' → Prop}
    (h : S.Blocking may M shows) (href : S.Refines S' rep)
    (hback : S'.Refines S fun v q => rep q v) : S'.Blocking may M shows := by
  intro tr s hrun
  obtain ⟨tr', a, ha, hsame, haccepts, hwaits⟩ := h tr s hrun
  obtain ⟨v, ha', hrep⟩ := href.atomic_run ha
  refine ⟨tr', ⟨v, a.threads⟩, ha', hsame, haccepts, fun honly => ?_⟩
  refine onlyCalls_atomic fun t => ?_
  rcases (hwaits honly).atomic t with hidle | ⟨op, hpending, hnone⟩
  · exact Or.inl hidle
  · refine Or.inr ⟨op, hpending, fun r v' happly => ?_⟩
    obtain ⟨q', happly', -⟩ := hback.apply hrep happly
    exact hnone r q' happly'

/-! ## Threads under other names -/

variable {ι' : Type*} [DecidableEq ι']

theorem atomic_run_rename (S : SeqObject V Op Res) (e : ι ≃ ι')
    {tr : List (ι × Act Op Res)} {a : Pool ι V (Phase Op Res)}
    (ha : (S.atomic ι).Run tr a) :
    (S.atomic ι').Run (tr.map (Prod.map e id))
      ⟨a.shared, fun t => a.threads (e.symm t)⟩ := by
  refine Lts.Run.induction (P := fun tr a =>
    (S.atomic ι').Run (tr.map (Prod.map e id))
      ⟨a.shared, fun t => a.threads (e.symm t)⟩) Lts.Run.init ?_ ha
  rintro tr a ⟨t, act⟩ a' - ih ⟨q, ph, hmove, rfl⟩
  rw [List.map_append]
  refine ih.tail ⟨q, ph, ?_, ?_⟩
  · change S.Move a.shared (a.threads (e.symm (e t))) act q ph
    rwa [e.symm_apply_apply]
  · simp only [Pool.move, Pool.mk.injEq, true_and, Prod.map_apply, id]
    funext u
    by_cases hu : u = e t
    · subst hu
      simp
    · have hne : e.symm u ≠ t := fun heq => hu (by rw [← heq, e.apply_symm_apply])
      simp [hu, hne]

/-- The renamed threads may do what they might before. -/
theorem Blocking.rename {S : SeqObject V Op Res} {may : ι → Op → Prop}
    {σ α : Type*} {M : Lts σ α} {shows : α → Option (ι × Act Op Res)}
    (h : S.Blocking may M shows) (e : ι ≃ ι') :
    S.Blocking (fun t => may (e.symm t)) M
      fun x => (shows x).map (Prod.map e id) := by
  intro tr s hrun
  obtain ⟨tr', a, ha, hsame, haccepts, hwaits⟩ := h tr s hrun
  refine ⟨_, _, atomic_run_rename S e ha, ?_, ?_, ?_⟩
  · rw [← List.map_filterMap, ← hsame, List.filterMap_map, List.map_filterMap]
    congr 1
    funext ⟨t, act⟩
    cases act <;> rfl
  · intro t op hop hidle
    obtain ⟨x, s', hstep, hx⟩ := haccepts _ op hop hidle
    refine ⟨x, s', hstep, ?_⟩
    rw [hx, Option.map_some, Prod.map_apply, e.apply_symm_apply]
    rfl
  · intro honly
    refine onlyCalls_atomic fun t => (hwaits ?_).atomic (e.symm t)
    intro x s' hstep
    obtain ⟨t, op, hx⟩ := honly x s' hstep
    obtain ⟨⟨u, act⟩, hu, heq⟩ := Option.map_eq_some_iff.mp hx
    obtain ⟨-, rfl⟩ := Prod.mk.inj heq
    exact ⟨u, op, hu⟩

end SeqObject

/-! ## Monitors -/

namespace Monitor

variable {O B K R ι : Type*} [DecidableEq ι] {M : Monitor O B K R}
  {tr : List (ι × Event O R)} {s : State ι O B K R}

/-- The monitor without spurious wake-ups: a waiter sleeps until it is
notified. -/
def sleeping (M : Monitor O B K R) (ι : Type*) [DecidableEq ι] :
    Lts (State ι O B K R) (ι × Event O R) :=
  (M.system ι).keeping fun s a => ∀ op, s.threads a.1 ≠ .blocked op

/-- Only calls that wait are blocked. -/
def Thread.Waits (M : Monitor O B K R) : Thread O K R → Prop
  | .blocked op => ∃ c ready, (M.code op).guard = .waits c ready
  | _ => True

theorem waits_of_run (hrun : (M.system ι).Run tr s) :
    ∀ t, (s.threads t).Waits M := by
  refine Lts.Run.induction (P := fun _ s => ∀ t, (s.threads t).Waits M)
    (fun _ => trivial) ?_ hrun
  intro tr s a s' _ ih hstep
  have hmove : ∀ {s : State ι O B K R} (t : ι) (q : Shared ι B)
      {th : Thread O K R}, (∀ u, (s.threads u).Waits M) → th.Waits M →
        ∀ u, ((s.move t q th).threads u).Waits M := fun t q th ih hth =>
    Pool.forall_move (P := fun _ => Thread.Waits M) hth fun u _ => ih u
  cases hstep with
  | wait h hg => exact hmove _ _ ih ⟨_, _, hg⟩
  | notify => exact hmove _ _ (hmove _ _ ih trivial) trivial
  | @unlock t r c =>
      refine hmove _ _ ih ?_
      cases c <;> trivial
  | _ => exact hmove _ _ ih trivial

/-- A thread inside has a step to take, -/
theorem exists_step_of_holds {t : ι} (ht : (s.threads t).Holds) :
    ∃ s', Step M s (t, .inner) s' := by
  cases hth : s.threads t with
  | test op =>
      cases hg : (M.code op).guard with
      | always => exact ⟨_, .pass hth (by rw [hg]; rfl)⟩
      | waits c ready =>
          cases hready : ready s.shared.data with
          | true => exact ⟨_, .pass hth (by rw [hg]; exact hready)⟩
          | false => exact ⟨_, .wait hth hg hready⟩
      | fails r ready =>
          cases hready : ready s.shared.data with
          | true => exact ⟨_, .pass hth (by rw [hg]; exact hready)⟩
          | false => exact ⟨_, .fail hth hg hready⟩
  | body op => exact ⟨_, .body hth⟩
  | unlock r c => exact ⟨_, .unlock hth⟩
  | idle | lock | blocked | woken | notify | done =>
      rw [hth] at ht
      exact ht.elim

/-- so that where only calls can come nobody is on the way. -/
theorem idle_or_blocked (hrun : (M.system ι).Run tr s)
    (honly : SeqObject.OnlyCalls (M.sleeping ι) shown s) (t : ι) :
    s.threads t = .idle ∨ ∃ op, s.threads t = .blocked op := by
  have hno : ∀ {t s'}, Step M s (t, .inner) s' →
      ∃ op, s.threads t = .blocked op := by
    intro t s' hstep
    by_contra hawake
    obtain ⟨u, op, hshown⟩ := honly (t, .inner) s'
      ⟨hstep, fun op hop => hawake ⟨op, hop⟩⟩
    cases hshown
  have hout : ∀ u, ¬(s.threads u).Holds := by
    intro u hu
    obtain ⟨s', hstep⟩ := exists_step_of_holds (M := M) hu
    obtain ⟨op, hop⟩ := hno hstep
    rw [hop] at hu
    exact hu
  have hfree : s.shared.owner = none := by
    refine Option.eq_none_iff_forall_ne_some.mpr fun u hu => ?_
    exact hout u ((locked_of_run hrun u).owner_iff.mp hu)
  have hawake : ∀ {s'}, Step M s (t, .inner) s' → s.threads t = .idle ∨
      ∃ op, s.threads t = .blocked op := fun hstep => Or.inr (hno hstep)
  cases hth : s.threads t with
  | idle => exact Or.inl rfl
  | blocked op => exact Or.inr ⟨op, rfl⟩
  | lock op => exact hth ▸ hawake (.lock hth hfree)
  | woken op => exact hth ▸ hawake (.relock hth hfree)
  | notify r c =>
      rw [← hth]
      by_cases hwaiter : ∃ u op, s.threads u = .blocked op ∧
          M.waitsOn op = some c
      · obtain ⟨u, op, hu, hc⟩ := hwaiter
        exact hawake (.notify hth hu hc)
      · push Not at hwaiter
        exact hawake (.notifyNone hth hwaiter)
  | done r =>
      obtain ⟨u, op, hshown⟩ := honly (t, .ret r) _
        ⟨.ret hth, fun op hop => by cases hop.symm.trans hth⟩
      cases hshown
  | test | body | unlock =>
      exact absurd (by rw [hth]; trivial) (hout t)

/-- A monitor that loses no wake-up comes to a stop only where its atomic object
does, spurious wake-ups or not. -/
theorem blocking_object [DecidableEq K] {supply : K → B → ℕ}
    (hM : M.Supplies supply) (may : ι → O → Prop) :
    M.object.Blocking may (M.sleeping ι) shown := by
  intro tr s hkept
  have hrun : (M.system ι).Run tr s := Lts.run_of_keeping hkept
  obtain ⟨tr', a, ha, hsame, rfl⟩ := M.implements_object ι tr s hrun
  refine ⟨tr', _, ha, hsame, ?_, fun honly => ?_⟩
  · intro t op _ hidle
    change (s.threads t).phase = .idle at hidle
    have ht : s.threads t = .idle := by
      cases hth : s.threads t with
      | idle => rfl
      | _ =>
          rw [hth] at hidle
          cases hidle
    refine ⟨(t, .call op), _, ⟨.call op ht, fun op' hop => ?_⟩, rfl⟩
    cases hop.symm.trans ht
  · have hall := idle_or_blocked hrun honly
    have hquiet := quiet_of_all_blocked hrun hall
    refine SeqObject.onlyCalls_atomic fun t => ?_
    change (s.threads t).phase = .idle ∨ ∃ op,
      (s.threads t).phase = .pending op ∧
        ∀ r b, ¬(M.code op).run s.shared.data = some (r, b)
    rcases hall t with hidle | ⟨op, hop⟩
    · exact Or.inl (by rw [hidle]; rfl)
    · refine Or.inr ⟨op, by rw [hop]; rfl, fun r b => ?_⟩
      have hwaits := waits_of_run hrun t
      rw [hop] at hwaits
      obtain ⟨c, ready, hg⟩ := hwaits
      have hwaiting : (s.threads t).waitingOn M = some c := by
        rw [hop, waitingOn_blocked, waitsOn, hg]
        rfl
      have hzero := supply_eq_zero_of_waiting hM hrun hquiet hwaiting
      have hready := (hM.exhausted_iff op c ready _ hg).mpr hzero
      simp [Critical.run, hg, hready]

end Monitor
end ConcurrentQueues
