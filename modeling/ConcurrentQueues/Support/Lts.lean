import Mathlib.Data.List.Induction
import Mathlib.Logic.Function.Basic
import Mathlib.Data.Set.Basic

/-!
# Labelled transition systems and their runs

This module contains the program-independent part of the development: systems
that take labelled steps, the runs of such a system with the trace of their
labels, the induction over runs, and simulations between two systems.

A trace is kept in the order of its steps and grows at its end, so a history
recorded by a system (the items pushed so far, say) is a function of the trace
and gains one entry per step.
-/

namespace ConcurrentQueues

universe u v w x

/-- A labelled transition system with one initial state. -/
structure Lts (σ : Type u) (α : Type v) where
  init : σ
  step : σ → α → σ → Prop

namespace Lts

variable {σ : Type u} {α : Type v} {τ : Type w} {β : Type x}

/-! ## Paths and runs -/

/-- The steps labelled by the trace lead, in order, from the first state to
the last one. -/
inductive Path (M : Lts σ α) : σ → List α → σ → Prop
  | refl (s : σ) : Path M s [] s
  | tail {s m s' : σ} {tr : List α} {a : α} :
      Path M s tr m → M.step m a s' → Path M s (tr ++ [a]) s'

/-- A path that starts in the initial state. -/
def Run (M : Lts σ α) (tr : List α) (s : σ) : Prop :=
  M.Path M.init tr s

variable {M : Lts σ α}

theorem Path.single {s s' : σ} {a : α} (h : M.step s a s') :
    M.Path s [a] s' := by
  simpa using (Path.refl s).tail h

theorem Path.trans {s m s' : σ} {tr tr' : List α}
    (h : M.Path s tr m) (h' : M.Path m tr' s') :
    M.Path s (tr ++ tr') s' := by
  induction h' with
  | refl => simpa using h
  | tail _ hstep ih => simpa using ih.tail hstep

theorem Path.eq_of_nil {s s' : σ} (h : M.Path s [] s') : s' = s := by
  generalize hnil : ([] : List α) = tr at h
  cases h with
  | refl => rfl
  | tail _ _ => exact absurd hnil (by simp)

/-- The last step of a path. -/
theorem Path.last {s s' : σ} {tr : List α} {a : α}
    (h : M.Path s (tr ++ [a]) s') : ∃ m, M.Path s tr m ∧ M.step m a s' := by
  generalize hall : tr ++ [a] = whole at h
  cases h with
  | refl => exact absurd hall (by simp)
  | tail hpath hstep =>
      obtain ⟨rfl, ha⟩ := List.append_inj' hall rfl
      obtain rfl := List.singleton_inj.mp ha
      exact ⟨_, hpath, hstep⟩

/-- A path passes a state between any two parts of its trace. -/
theorem Path.split {s s' : σ} {tr tr' : List α}
    (h : M.Path s (tr ++ tr') s') :
    ∃ m, M.Path s tr m ∧ M.Path m tr' s' := by
  induction tr' using List.reverseRecOn generalizing s' with
  | nil =>
      rw [List.append_nil] at h
      exact ⟨s', h, Path.refl s'⟩
  | append_singleton tr' a ih =>
      rw [← List.append_assoc] at h
      obtain ⟨k, hpath, hstep⟩ := h.last
      obtain ⟨m, hfst, hsnd⟩ := ih hpath
      exact ⟨m, hfst, hsnd.tail hstep⟩

/-- The first step of a path. -/
theorem Path.head {s s' : σ} {tr : List α} {a : α}
    (h : M.Path s (a :: tr) s') :
    ∃ m, M.step s a m ∧ M.Path m tr s' := by
  obtain ⟨m, hfst, hsnd⟩ : ∃ m, M.Path s [a] m ∧ M.Path m tr s' :=
    Path.split h
  obtain ⟨m₀, hnil, hstep⟩ : ∃ m₀, M.Path s [] m₀ ∧ M.step m₀ a m :=
    Path.last hfst
  obtain rfl := hnil.eq_of_nil
  exact ⟨m, hstep, hsnd⟩

theorem Run.init : M.Run [] M.init :=
  Path.refl M.init

theorem Run.tail {tr : List α} {s s' : σ} {a : α}
    (h : M.Run tr s) (hstep : M.step s a s') : M.Run (tr ++ [a]) s' :=
  Path.tail h hstep

/-- What holds initially and is kept by every step taken in a run holds, of
the trace and the state, after every run. -/
theorem Run.induction {P : List α → σ → Prop}
    (hinit : P [] M.init)
    (hstep : ∀ tr s a s', M.Run tr s → P tr s → M.step s a s' →
      P (tr ++ [a]) s')
    {tr : List α} {s : σ} (hrun : M.Run tr s) : P tr s := by
  have hall : ∀ {s₀ tr s}, M.Path s₀ tr s → s₀ = M.init → P tr s := by
    intro s₀ tr s h
    induction h with
    | refl => rintro rfl; exact hinit
    | tail hpath hlast ih =>
        rintro rfl
        exact hstep _ _ _ _ hpath (ih rfl) hlast
  exact hall hrun rfl

/-- The steps of a system without choice determine where they lead. -/
theorem Run.unique (hdet : ∀ s a s₁ s₂, M.step s a s₁ → M.step s a s₂ → s₁ = s₂)
    {tr : List α} {s s' : σ} (hrun : M.Run tr s) (hrun' : M.Run tr s') :
    s = s' := by
  revert s'
  refine Run.induction (P := fun tr s => ∀ {s'}, M.Run tr s' → s = s')
    ?_ ?_ hrun
  · intro s' hrun'
    exact (Path.eq_of_nil hrun').symm
  · intro tr s a s₁ _ ih hstep s₂ hrun₂
    obtain ⟨m, hrunm, hstep₂⟩ := Path.last hrun₂
    obtain rfl := ih hrunm
    exact hdet s a s₁ s₂ hstep hstep₂

/-! ## Moments of a run -/

/-- At some moment since the last step with a `mark` label the state satisfied
`P`.  A call is marked by its start, so this is "at some moment inside the
call". -/
def Since (M : Lts σ α) (mark : α → Prop) (P : σ → Prop)
    (tr : List α) (s : σ) : Prop :=
  ∃ tr₁ tr₂ m, tr = tr₁ ++ tr₂ ∧ M.Run tr₁ m ∧ M.Path m tr₂ s ∧
    (∀ a ∈ tr₂, ¬mark a) ∧ P m

theorem Since.now {mark : α → Prop} {P : σ → Prop} {tr : List α} {s : σ}
    (hrun : M.Run tr s) (hP : P s) : M.Since mark P tr s :=
  ⟨tr, [], s, by simp, hrun, Path.refl s, by simp, hP⟩

theorem Since.tail {mark : α → Prop} {P : σ → Prop} {tr : List α}
    {s s' : σ} {a : α} (h : M.Since mark P tr s)
    (hstep : M.step s a s') (hmark : ¬mark a) :
    M.Since mark P (tr ++ [a]) s' := by
  obtain ⟨tr₁, tr₂, m, rfl, hrun, hpath, hfree, hP⟩ := h
  refine ⟨tr₁, tr₂ ++ [a], m, by simp, hrun, hpath.tail hstep, ?_, hP⟩
  intro b hb
  rcases List.mem_append.mp hb with hb | hb
  · exact hfree b hb
  · rwa [List.mem_singleton.mp hb]

theorem Since.run {mark : α → Prop} {P : σ → Prop} {tr : List α} {s : σ}
    (h : M.Since mark P tr s) : M.Run tr s := by
  obtain ⟨tr₁, tr₂, m, rfl, hrun, hpath, -, -⟩ := h
  exact Path.trans hrun hpath

/-- A moment since the last mark is now or was before the last step. -/
theorem Since.of_tail {mark : α → Prop} {P : σ → Prop} {tr : List α} {s' : σ}
    {a : α} (h : M.Since mark P (tr ++ [a]) s') :
    P s' ∨ ∃ s, M.Since mark P tr s ∧ M.step s a s' ∧ ¬mark a := by
  obtain ⟨tr₁, tr₂, m, hall, hrun, hpath, hfree, hP⟩ := h
  rcases List.eq_nil_or_concat tr₂ with rfl | ⟨rest, b, rfl⟩
  · obtain rfl := Path.eq_of_nil hpath
    exact Or.inl hP
  · rw [List.concat_eq_append] at hall hpath hfree
    rw [← List.append_assoc] at hall
    obtain ⟨rfl, hb⟩ := List.append_inj' hall rfl
    obtain rfl := List.singleton_inj.mp hb
    obtain ⟨s, hsnd, hstep⟩ := Path.last hpath
    refine Or.inr ⟨s, ⟨tr₁, rest, m, rfl, hrun, hsnd, ?_, hP⟩, hstep, ?_⟩
    · exact fun c hc => hfree c (List.mem_append_left _ hc)
    · exact hfree a (List.mem_append_right _ (List.mem_singleton_self a))

/-- A moment since the last mark comes after every mark. -/
theorem Since.after {mark : α → Prop} {P : σ → Prop} {pre post : List α}
    {a : α} {s : σ} (h : M.Since mark P (pre ++ a :: post) s) (ha : mark a) :
    ∃ between m, between <+: post ∧ M.Run (pre ++ a :: between) m ∧ P m := by
  obtain ⟨tr₁, tr₂, m, hall, hrun, -, hfree, hP⟩ := h
  rcases List.append_eq_append_iff.mp hall with
    ⟨mid, rfl, hmid⟩ | ⟨mid, -, rfl⟩
  · cases mid with
    | nil =>
        rw [List.nil_append] at hmid
        subst hmid
        exact absurd ha (hfree a List.mem_cons_self)
    | cons b between =>
        obtain ⟨rfl, rfl⟩ := List.cons_eq_cons.mp hmid
        exact ⟨between, m, List.prefix_append between tr₂, hrun, hP⟩
  · exact absurd ha (hfree a (by simp))

/-! ## Fewer steps -/

/-- The system with those steps only that satisfy `p`. -/
def keeping (M : Lts σ α) (p : σ → α → Prop) : Lts σ α where
  init := M.init
  step s a s' := M.step s a s' ∧ p s a

/-! ## Counting steps -/

/-- A path on which exactly `k` steps satisfy `p`. -/
inductive Counts (M : Lts σ α) (p : σ → α → Prop) :
    σ → List α → σ → ℕ → Prop
  | refl (s : σ) : Counts M p s [] s 0
  | hit {s m s' : σ} {tr : List α} {a : α} {k : ℕ}
      (h : Counts M p s tr m k) (hstep : M.step m a s') (hp : p m a) :
      Counts M p s (tr ++ [a]) s' (k + 1)
  | miss {s m s' : σ} {tr : List α} {a : α} {k : ℕ}
      (h : Counts M p s tr m k) (hstep : M.step m a s') (hp : ¬p m a) :
      Counts M p s (tr ++ [a]) s' k

/-- A number of steps that is known after every run. -/
theorem counts_of_run {p : σ → α → Prop} (f : σ → ℕ) (Ok : List α → Prop)
    (hearlier : ∀ tr a, Ok (tr ++ [a]) → Ok tr) (hinit : f M.init = 0)
    (hhit : ∀ tr s a s', M.Run tr s → Ok (tr ++ [a]) → M.step s a s' → p s a →
      f s' = f s + 1)
    (hmiss : ∀ tr s a s', M.Run tr s → Ok (tr ++ [a]) → M.step s a s' →
      ¬p s a → f s' = f s)
    {tr : List α} {s : σ} (hrun : M.Run tr s) (hok : Ok tr) :
    M.Counts p M.init tr s (f s) := by
  revert hok
  refine Run.induction (P := fun tr s => Ok tr → M.Counts p M.init tr s (f s))
    ?_ ?_ hrun
  · intro _
    rw [hinit]
    exact .refl M.init
  · intro tr s a s' hrun ih hstep hok
    have hbefore := ih (hearlier tr a hok)
    by_cases hp : p s a
    · rw [hhit tr s a s' hrun hok hstep hp]
      exact .hit hbefore hstep hp
    · rw [hmiss tr s a s' hrun hok hstep hp]
      exact .miss hbefore hstep hp

/-! ## Forward simulation -/

/-- A step that shows `o` is matched by a path that shows `o` and nothing
else. -/
def Matches (A : Lts τ β) {γ : Type*} (g : β → Option γ)
    (t : τ) (o : Option γ) (t' : τ) : Prop :=
  ∃ tr, A.Path t tr t' ∧ tr.filterMap g = o.toList

theorem Matches.stay {A : Lts τ β} {γ : Type*} {g : β → Option γ} (t : τ) :
    A.Matches g t none t :=
  ⟨[], Path.refl t, rfl⟩

theorem Matches.step {A : Lts τ β} {γ : Type*} {g : β → Option γ}
    {t t' : τ} {b : β} (h : A.step t b t') : A.Matches g t (g b) t' := by
  refine ⟨[b], Path.single h, ?_⟩
  cases hb : g b with
  | none => simp [hb]
  | some o => simp [hb]

/-- A silent step before a matching path is still a matching path. -/
theorem Matches.silent {A : Lts τ β} {γ : Type*} {g : β → Option γ}
    {t m t' : τ} {b : β} {o : Option γ}
    (h : A.step t b m) (hb : g b = none) (h' : A.Matches g m o t') :
    A.Matches g t o t' := by
  obtain ⟨tr, hpath, htr⟩ := h'
  exact ⟨[b] ++ tr, (Path.single h).trans hpath, by simp [hb, htr]⟩

/-- A path that shows nothing before a matching path. -/
theorem Matches.after {A : Lts τ β} {γ : Type*} {g : β → Option γ}
    {t m t' : τ} {o : Option γ}
    (h : A.Matches g t none m) (h' : A.Matches g m o t') :
    A.Matches g t o t' := by
  obtain ⟨tr, hpath, htr⟩ := h
  obtain ⟨tr', hpath', htr'⟩ := h'
  exact ⟨tr ++ tr', hpath.trans hpath', by simp [htr, htr']⟩

/-- Where each step is followed by a step of the same label, paths are. -/
theorem Path.follow {A : Lts τ α} {R : σ → τ → Prop}
    (hstep : ∀ s a s' t, R s t → M.step s a s' → ∃ t', A.step t a t' ∧ R s' t')
    {s s' : σ} {t : τ} {tr : List α} (hR : R s t) (h : M.Path s tr s') :
    ∃ t', A.Path t tr t' ∧ R s' t' := by
  induction h with
  | refl => exact ⟨t, Path.refl t, hR⟩
  | tail _ hlast ih =>
      obtain ⟨m, hpath, hm⟩ := ih
      obtain ⟨t', hfollow, ht'⟩ := hstep _ _ _ _ hm hlast
      exact ⟨t', hpath.tail hfollow, ht'⟩

/-- Forward simulation.  The relation may look at the trace of the concrete
run, and steps need a match only along runs whose trace is admitted by `Ok`. -/
theorem simulation {C : Lts σ α} {A : Lts τ β} {γ : Type*}
    {f : α → Option γ} {g : β → Option γ}
    (Ok : List α → Prop) (R : List α → σ → τ → Prop)
    (hearlier : ∀ tr a, Ok (tr ++ [a]) → Ok tr)
    (hinit : R [] C.init A.init)
    (hstep : ∀ tr s a s' t, C.Run tr s → Ok (tr ++ [a]) → R tr s t →
      C.step s a s' →
        ∃ t', A.Matches g t (f a) t' ∧ R (tr ++ [a]) s' t')
    {tr : List α} {s : σ} (hrun : C.Run tr s) (hok : Ok tr) :
    ∃ tr' t, A.Run tr' t ∧ tr'.filterMap g = tr.filterMap f ∧ R tr s t := by
  revert hok
  refine Run.induction (P := fun tr s => Ok tr →
    ∃ tr' t, A.Run tr' t ∧ tr'.filterMap g = tr.filterMap f ∧ R tr s t)
    ?_ ?_ hrun
  · intro _
    exact ⟨[], A.init, Run.init, rfl, hinit⟩
  · intro tr s a s' hrun ih hlast hok
    obtain ⟨tr', t, hrun', htr, hR⟩ := ih (hearlier tr a hok)
    obtain ⟨t', ⟨tail, hpath, htail⟩, hR'⟩ :=
      hstep tr s a s' t hrun hok hR hlast
    refine ⟨tr' ++ tail, t', Path.trans hrun' hpath, ?_, hR'⟩
    rw [List.filterMap_append, List.filterMap_append, htr, htail]
    cases hfa : f a with
    | none => simp [hfa]
    | some o => simp [hfa]

/-! ## What two systems show -/

/-- A state some run ends in. -/
def Reachable (M : Lts σ α) (s : σ) : Prop :=
  ∃ tr, M.Run tr s

theorem Reachable.matches {M : Lts σ α} {γ : Type*} {f : α → Option γ}
    {s s' : σ} {o : Option γ} (h : M.Reachable s) (hm : M.Matches f s o s') :
    M.Reachable s' := by
  obtain ⟨tr, hrun⟩ := h
  obtain ⟨tr', hpath, -⟩ := hm
  exact ⟨tr ++ tr', Path.trans hrun hpath⟩

/-- What is shown along the runs of a system. -/
def observations (M : Lts σ α) {γ : Type*} (f : α → Option γ) :
    Set (List γ) :=
  {h | ∃ tr s, M.Run tr s ∧ tr.filterMap f = h}

/-- A system whose steps are matched shows nothing new.  The relation is kept
between reachable states, so that both sides bring their invariants along. -/
theorem observations_subset {M : Lts σ α} {A : Lts τ β} {γ : Type*}
    {f : α → Option γ} {g : β → Option γ} {R : σ → τ → Prop}
    (hinit : R M.init A.init)
    (hstep : ∀ s a s' t, M.Reachable s → A.Reachable t → R s t →
      M.step s a s' → ∃ t', A.Matches g t (f a) t' ∧ R s' t') :
    M.observations f ⊆ A.observations g := by
  rintro h ⟨tr, s, hrun, rfl⟩
  obtain ⟨tr', t, hrun', htr, -⟩ :=
    simulation (g := g) (fun _ => True)
      (fun _ s t => A.Reachable t ∧ R s t) (fun _ _ _ => trivial)
      ⟨⟨[], Run.init⟩, hinit⟩
      (by
        rintro tr s a s' t hrun - ⟨ht, hR⟩ hlast
        obtain ⟨t', hm, hR'⟩ := hstep s a s' t ⟨tr, hrun⟩ ht hR hlast
        exact ⟨t', hm, ht.matches hm, hR'⟩)
      hrun trivial
  exact ⟨tr', t, hrun', htr⟩

/-- A relation between the reachable states of two systems under which every
step of one is matched by the other. -/
structure Bisimulation (M : Lts σ α) (A : Lts τ β) {γ : Type*}
    (f : α → Option γ) (g : β → Option γ) (R : σ → τ → Prop) : Prop where
  init : R M.init A.init
  forth : ∀ s a s' t, M.Reachable s → A.Reachable t → R s t →
    M.step s a s' → ∃ t', A.Matches g t (f a) t' ∧ R s' t'
  back : ∀ s t b t', M.Reachable s → A.Reachable t → R s t →
    A.step t b t' → ∃ s', M.Matches f s (g b) s' ∧ R s' t'

theorem Bisimulation.observations_eq {M : Lts σ α} {A : Lts τ β}
    {γ : Type*} {f : α → Option γ} {g : β → Option γ} {R : σ → τ → Prop}
    (h : Bisimulation M A f g R) :
    M.observations f = A.observations g := by
  apply Set.Subset.antisymm (observations_subset h.init h.forth)
  exact observations_subset (R := fun t s => R s t) h.init
    fun t b t' s ht hs => h.back s t b t' hs ht

/-! ## Executable systems -/

/-- Resolving the choices of an executable step function one after the other:
the labels shown and the state reached. -/
def exec {κ : Type*} (next : σ → κ → Option (α × σ)) :
    σ → List κ → Option (List α × σ)
  | s, [] => some ([], s)
  | s, c :: cs => do
      let (a, m) ← next s c
      let (tr, s') ← exec next m cs
      some (a :: tr, s')

theorem path_of_exec {κ : Type*} {next : σ → κ → Option (α × σ)}
    (hnext : ∀ s c a s', next s c = some (a, s') → M.step s a s')
    {s s' : σ} {cs : List κ} {tr : List α}
    (h : exec next s cs = some (tr, s')) : M.Path s tr s' := by
  induction cs generalizing s tr with
  | nil =>
      simp only [exec, Option.some.injEq, Prod.mk.injEq] at h
      obtain ⟨rfl, rfl⟩ := h
      exact Path.refl s
  | cons c cs ih =>
      simp only [exec, Option.bind_eq_bind, Option.bind_eq_some_iff,
        Option.some.injEq, Prod.mk.injEq, Prod.exists] at h
      obtain ⟨a, m, hfst, tr', s'', hrest, rfl, rfl⟩ := h
      exact (Path.single (hnext _ _ _ _ hfst)).trans (ih hrest)

end Lts
end ConcurrentQueues
