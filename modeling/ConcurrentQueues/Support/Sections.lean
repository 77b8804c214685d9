import ConcurrentQueues.Support.Monitor
import ConcurrentQueues.Support.Refinement

/-!
# A monitor is the atomic object of its critical sections

Only one thread at a time is between the test of its predicate and the end of
its section, so a call takes effect at once: it waits, fails or runs its
section on the data as it stands.
-/

namespace ConcurrentQueues

universe u v w x y

/-- The result of a section entered with the data `b`, and the data after it.
There is none where the call has to wait. -/
def Critical.run {B : Type u} {K : Type v} {R : Type w} (c : Critical B K R)
    (b : B) : Option (R × B) :=
  match c.guard with
  | .always => some (c.body b)
  | .waits _ ready => if ready b then some (c.body b) else none
  | .fails r ready => if ready b then some (c.body b) else some (r, b)

theorem Critical.run_of_passes {B : Type u} {K : Type v} {R : Type w}
    {c : Critical B K R} {b : B} (h : c.guard.passes b = true) :
    c.run b = some (c.body b) := by
  rw [Critical.run]
  generalize c.guard = g at h
  cases g with
  | always => rfl
  | waits d ready | fails r ready => exact if_pos h

namespace Monitor

variable {O : Type x} {B : Type u} {K : Type v} {R : Type w} {ι : Type y}

/-- The critical sections of a monitor, each run at one instant. -/
def object (M : Monitor O B K R) : SeqObject B O R where
  init := M.init
  apply b op r b' := (M.code op).run b = some (r, b')

/-- The sections one after the other, executed. -/
def next (M : Monitor O B K R) (b : B) (op : O) : Option ((O × R) × B) :=
  ((M.code op).run b).map fun p => ((op, p.1), p.2)

theorem run_of_exec {M : Monitor O B K R} {ops : List O} {tr : List (O × R)}
    {b : B} (h : Lts.exec M.next M.init ops = some (tr, b)) :
    M.object.sequential.Run tr b := by
  refine Lts.path_of_exec ?_ h
  intro b op a b' hnext
  obtain ⟨p, hrun, heq⟩ := Option.map_eq_some_iff.mp hnext
  obtain ⟨rfl, rfl⟩ := Prod.mk.inj heq
  exact hrun

/-- The sections leave nothing open. -/
theorem sequential_unique (M : Monitor O B K R) {tr : List (O × R)} {b b' : B}
    (hrun : M.object.sequential.Run tr b)
    (hrun' : M.object.sequential.Run tr b') : b = b' := by
  refine Lts.Run.unique ?_ hrun hrun'
  intro b a b₁ b₂ h₁ h₂
  have heq : some (a.2, b₁) = some (a.2, b₂) := h₁.symm.trans h₂
  exact (Prod.mk.inj (Option.some.inj heq)).2

/-- The sections one after the other, where an exception may leave a section
that was entered.  It returns nothing, and the data is what `leaves` says. -/
def interruptible (M : Monitor O B K R) (leaves : O → B → B → Prop) :
    Lts B (O × Option R) where
  init := M.init
  step b a b' :=
    match a.2 with
    | some r => (M.code a.1).run b = some (r, b')
    | none => (M.code a.1).guard.passes b = true ∧ leaves a.1 b b'

/-- A call is pending until its section was run or its test has failed. -/
def Thread.phase : Thread O K R → Phase O R
  | .idle => .idle
  | .lock op | .test op | .body op | .blocked op | .woken op => .pending op
  | .unlock r _ | .notify r _ | .done r => .done r

/-- The starts and returns of calls. -/
def shown : ι × Event O R → Option (ι × Act O R)
  | (t, .call op) => some (t, .call op)
  | (_, .inner) => none
  | (t, .ret r) => some (t, .ret r)

/-- The atomic object behind a state of the monitor. -/
def view (s : State ι O B K R) : Pool ι B (Phase O R) :=
  ⟨s.shared.data, fun t => (s.threads t).phase⟩

theorem released_phase (r : R) (c : Option K) :
    (Thread.released r c : Thread O K R).phase = .done r := by
  cases c with
  | none => rfl
  | some c => rfl

variable [DecidableEq ι]

theorem view_move (s : State ι O B K R) (t : ι) (q : Shared ι B)
    (th : Thread O K R) :
    view (s.move t q th) =
      (view s).move t q.data th.phase := by
  simp only [view, Pool.move, Pool.mk.injEq, true_and]
  funext u
  by_cases heq : u = t
  · subst heq
    simp
  · simp [heq]

/-- A step that leaves the data and the phase of its thread alone. -/
theorem view_stay {M : Monitor O B K R} {s : State ι O B K R} {t : ι}
    {q : Shared ι B} {th : Thread O K R} (hq : q.data = s.shared.data)
    (hth : (s.threads t).phase = th.phase) :
    (M.object.atomic ι).Matches SeqObject.seen (view s) none
      (view (s.move t q th)) := by
  have hsame : view (s.move t q th) = view s := by
    rw [view_move, hq, ← hth, Pool.move]
    simp only [view, Pool.mk.injEq, true_and]
    exact Function.update_eq_self t _
  rw [hsame]
  exact Lts.Matches.stay _

/-- A step of a call that its caller or the data sees. -/
theorem view_step {M : Monitor O B K R} {s : State ι O B K R} {t : ι}
    {q : Shared ι B} {th : Thread O K R} (act : Act O R)
    (h : M.object.Move s.shared.data (s.threads t).phase act q.data th.phase) :
    (M.object.atomic ι).Matches SeqObject.seen (view s)
      (SeqObject.seen (t, act)) (view (s.move t q th)) := by
  rw [view_move]
  exact Lts.Matches.step (b := (t, act)) ⟨q.data, th.phase, h, rfl⟩

/-- The runs of a monitor are those of its sections, each run at one instant of
its call. -/
theorem implements_object (M : Monitor O B K R) (ι : Type y)
    [DecidableEq ι] :
    M.object.Implements (M.system ι) shown fun _ s a => a = view s := by
  refine SeqObject.implements_of_simulation rfl ?_
  rintro tr s a s' o hrun rfl hstep
  refine ⟨_, ?_, rfl⟩
  cases hstep with
  | call op ht =>
      apply view_step (.call op)
      rw [ht]
      exact .call _ op
  | lock ht | relock ht | pass ht | wait ht | notifyNone ht | wake ht =>
      exact view_stay rfl (by rw [ht]; rfl)
  | @fail t op r ready ht hg hfail =>
      apply view_step .effect
      rw [ht]
      refine .effect ?_
      change (M.code op).run s.shared.data = _
      rw [Critical.run, hg]
      exact if_neg (by simp [hfail])
  | @body t op ht =>
      have hready := (locked_of_run hrun t).ready
      rw [ht] at hready
      apply view_step .effect
      rw [ht]
      exact .effect (Critical.run_of_passes hready)
  | @unlock t r c ht =>
      exact view_stay rfl (by rw [ht, released_phase]; rfl)
  | @notify t u op r c ht hblocked =>
      have hne : u ≠ t := by
        rintro rfl
        rw [ht] at hblocked
        cases hblocked
      have hdone : (M.object.atomic ι).Matches SeqObject.seen (view s) none
          (view (s.move t s.shared (.done r))) :=
        view_stay rfl (by rw [ht]; rfl)
      apply hdone.after
      apply view_stay rfl
      rw [Pool.move_threads_of_ne s _ _ hne, hblocked]
      rfl
  | @ret t r ht =>
      apply view_step (.ret r)
      rw [ht]
      exact .ret _ r

end Monitor
end ConcurrentQueues
