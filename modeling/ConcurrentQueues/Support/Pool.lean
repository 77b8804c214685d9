import ConcurrentQueues.Support.Lts
import Mathlib.Algebra.BigOperators.Group.Finset.Basic
import Mathlib.Data.Set.Card
import Mathlib.Logic.Function.Iterate

/-!
# Threads interleaved over a shared state

A pool is a shared state together with the local state of every thread.  One
step of a pool is one move of one thread: the move sees the shared state and
its own local state, and changes nothing else.  Any number of threads is
covered, since the type of thread names is arbitrary.
-/

namespace ConcurrentQueues

universe u v w x

/-- A shared state and the local states of the threads named by `ι`. -/
structure Pool (ι : Type u) (Q : Type v) (Th : Type w) where
  shared : Q
  threads : ι → Th

namespace Pool

variable {ι : Type u} {Q : Type v} {Th : Type w} {E : Type x} [DecidableEq ι]

/-- The pool after thread `t` moved to `th` and left the shared state `q`. -/
def move (s : Pool ι Q Th) (t : ι) (q : Q) (th : Th) : Pool ι Q Th :=
  ⟨q, Function.update s.threads t th⟩

@[simp] theorem move_shared (s : Pool ι Q Th) (t : ι) (q : Q) (th : Th) :
    (s.move t q th).shared = q := rfl

@[simp] theorem move_threads_self (s : Pool ι Q Th) (t : ι) (q : Q) (th : Th) :
    (s.move t q th).threads t = th := by
  simp [move]

theorem move_threads_of_ne (s : Pool ι Q Th) {t t' : ι} (q : Q) (th : Th)
    (hne : t' ≠ t) : (s.move t q th).threads t' = s.threads t' := by
  simp [move, hne]

/-- A move that changes nothing. -/
theorem move_self (s : Pool ι Q Th) (t : ι) :
    s.move t s.shared (s.threads t) = s := by
  rw [move, Function.update_eq_self]

/-- Of two moves of one thread the second one counts. -/
theorem move_move (s : Pool ι Q Th) (t : ι) (q q' : Q) (th th' : Th) :
    (s.move t q th).move t q' th' = s.move t q' th' := by
  simp [move]

/-- A property of all threads holds after a move once the moving thread has
it and no other thread loses it. -/
theorem forall_move {s : Pool ι Q Th} {t : ι} {q : Q} {th : Th}
    {P : ι → Th → Prop} (hself : P t th)
    (hother : ∀ t', t' ≠ t → P t' (s.threads t')) (t' : ι) :
    P t' ((s.move t q th).threads t') := by
  by_cases heq : t' = t
  · subst heq
    simpa using hself
  · rw [move_threads_of_ne s q th heq]
    exact hother t' heq

/-- The pool with each local state read through `f`. -/
def map {Th' : Type*} (f : Th → Th') (s : Pool ι Q Th) : Pool ι Q Th' :=
  ⟨s.shared, fun t => f (s.threads t)⟩

theorem map_move {Th' : Type*} (f : Th → Th') (s : Pool ι Q Th) (t : ι) (q : Q)
    (th : Th) : (s.move t q th).map f = (s.map f).move t q (f th) := by
  simp only [map, move, Pool.mk.injEq, true_and]
  funext t'
  by_cases heq : t' = t
  · subst heq
    simp
  · simp [heq]

/-- The system of all interleavings of the moves of the threads, each thread
starting in `th₀`. -/
def lts (ι : Type u) [DecidableEq ι] (mv : Q → Th → E → Q → Th → Prop)
    (q₀ : Q) (th₀ : Th) : Lts (Pool ι Q Th) (ι × E) where
  init := ⟨q₀, fun _ => th₀⟩
  step s a s' := ∃ q th, mv s.shared (s.threads a.1) a.2 q th ∧
    s' = s.move a.1 q th

/-- A deterministic move function, with a choice that resolves what the
scheduler and the memory leave open, read as a step of the pool. -/
def next {κ : Type*} (mv : Q → Th → κ → Option (E × Q × Th))
    (s : Pool ι Q Th) (c : ι × κ) : Option ((ι × E) × Pool ι Q Th) :=
  (mv s.shared (s.threads c.1) c.2).map
    fun m => ((c.1, m.1), s.move c.1 m.2.1 m.2.2)

/-- The moves of which a deterministic move function is the execution. -/
def Moves {κ : Type*} (mv : Q → Th → κ → Option (E × Q × Th))
    (q : Q) (th : Th) (e : E) (q' : Q) (th' : Th) : Prop :=
  ∃ c, mv q th c = some (e, q', th')

theorem step_of_next {κ : Type*} {mv : Q → Th → κ → Option (E × Q × Th)}
    {q₀ : Q} {th₀ : Th} {s s' : Pool ι Q Th} {c : ι × κ} {a : ι × E}
    (h : next mv s c = some (a, s')) :
    (lts ι (Moves mv) q₀ th₀).step s a s' := by
  obtain ⟨⟨e, q, th⟩, hmv, heq⟩ := Option.map_eq_some_iff.mp h
  obtain ⟨rfl, rfl⟩ := Prod.mk.injEq .. ▸ heq
  exact ⟨q, th, ⟨c.2, hmv⟩, rfl⟩

theorem run_of_exec {κ : Type*} {mv : Q → Th → κ → Option (E × Q × Th)}
    {q₀ : Q} {th₀ : Th} {cs : List (ι × κ)} {tr : List (ι × E)}
    {s : Pool ι Q Th}
    (h : Lts.exec (next mv) ⟨q₀, fun _ => th₀⟩ cs = some (tr, s)) :
    (lts ι (Moves mv) q₀ th₀).Run tr s :=
  Lts.path_of_exec (fun _ _ _ _ => step_of_next) h

/-- One thread moving alone from a state of the pool. -/
theorem path_of_solo {κ : Type*} {mv : Q → Th → κ → Option (E × Q × Th)}
    {q₀ : Q} {th₀ : Th} {t : ι} {cs : List κ} {es : List E} {q : Q} {th : Th}
    {s : Pool ι Q Th}
    (h : Lts.exec (fun p c => mv p.1 p.2 c) (s.shared, s.threads t) cs =
      some (es, (q, th))) :
    (lts ι (Moves mv) q₀ th₀).Path s (es.map fun e => (t, e))
      (s.move t q th) := by
  induction cs generalizing s es with
  | nil =>
      simp only [Lts.exec, Option.some.injEq, Prod.mk.injEq] at h
      obtain ⟨rfl, rfl, rfl⟩ := h
      rw [move_self]
      exact Lts.Path.refl s
  | cons c cs ih =>
      simp only [Lts.exec, Option.bind_eq_bind, Option.bind_eq_some_iff,
        Option.some.injEq, Prod.mk.injEq, Prod.exists] at h
      obtain ⟨e, q₁, th₁, hfst, es', q₂, th₂, hrest, rfl, rfl, rfl⟩ := h
      have hstep : (lts ι (Moves mv) q₀ th₀).step s (t, e) (s.move t q₁ th₁) :=
        ⟨q₁, th₁, ⟨c, hfst⟩, rfl⟩
      have htail := ih (s := s.move t q₁ th₁) (by simpa using hrest)
      rw [move_move] at htail
      exact (Lts.Path.single hstep).trans htail

/-- Some run shows `h` and leaves the shared state `q`. -/
def Reaches {α γ : Type*} (M : Lts (Pool ι Q Th) α) (f : α → Option γ)
    (h : List γ) (q : Q) : Prop :=
  ∃ tr s, M.Run tr s ∧ tr.filterMap f = h ∧ s.shared = q

/-! ## Moves read through functions -/

/-- The pool with its shared state read through `f` and its local states through
`g`. -/
def image {Q' Th' : Type*} (f : Q → Q') (g : Th → Th') (s : Pool ι Q Th) :
    Pool ι Q' Th' :=
  ⟨f s.shared, fun t => g (s.threads t)⟩

theorem image_move {Q' Th' : Type*} (f : Q → Q') (g : Th → Th')
    (s : Pool ι Q Th) (t : ι) (q : Q) (th : Th) :
    (s.move t q th).image f g = (s.image f g).move t (f q) (g th) := by
  simp only [image, move, Pool.mk.injEq, true_and]
  funext t'
  by_cases heq : t' = t
  · subst heq
    simp
  · simp [heq]

section Image

variable {Q' Th' E' κ : Type*} {mv : Q → Th → κ → Option (E × Q × Th)}
  {mv' : Q' → Th' → κ → Option (E' × Q' × Th')} {f : Q → Q'} {g : Th → Th'}
  {h : E → E'} {q₀ : Q} {th₀ : Th}

/-- Where the moves of one pool are those of another read through functions, so
are the runs. -/
theorem run_image
    (hmv : ∀ q th c, mv' (f q) (g th) c =
      (mv q th c).map fun m => (h m.1, f m.2.1, g m.2.2))
    {tr : List (ι × E)} {s : Pool ι Q Th}
    (hrun : (lts ι (Moves mv) q₀ th₀).Run tr s) :
    (lts ι (Moves mv') (f q₀) (g th₀)).Run (tr.map fun a => (a.1, h a.2))
      (s.image f g) := by
  refine Lts.Run.induction (P := fun tr s =>
    (lts ι (Moves mv') (f q₀) (g th₀)).Run (tr.map fun a => (a.1, h a.2))
      (s.image f g)) Lts.Run.init ?_ hrun
  rintro tr s ⟨t, e⟩ s' - ih ⟨q, th, ⟨c, hc⟩, rfl⟩
  rw [List.map_append, image_move]
  refine ih.tail ⟨f q, g th, ⟨c, ?_⟩, rfl⟩
  change mv' (f s.shared) (g (s.threads t)) c = _
  rw [hmv, hc]
  rfl

theorem exists_run_of_image
    (hmv : ∀ q th c, mv' (f q) (g th) c =
      (mv q th c).map fun m => (h m.1, f m.2.1, g m.2.2))
    {tr' : List (ι × E')} {s' : Pool ι Q' Th'}
    (hrun : (lts ι (Moves mv') (f q₀) (g th₀)).Run tr' s') :
    ∃ tr s, (lts ι (Moves mv) q₀ th₀).Run tr s ∧
      tr.map (fun a => (a.1, h a.2)) = tr' ∧ s.image f g = s' := by
  refine Lts.Run.induction (P := fun tr' s' =>
    ∃ tr s, (lts ι (Moves mv) q₀ th₀).Run tr s ∧
      tr.map (fun a => (a.1, h a.2)) = tr' ∧ s.image f g = s') ?_ ?_ hrun
  · exact ⟨[], _, Lts.Run.init, rfl, rfl⟩
  · rintro tr' s' ⟨t, e'⟩ s'' - ⟨tr, s, hrun', rfl, rfl⟩
      ⟨q', th', ⟨c, hc⟩, rfl⟩
    change mv' (f s.shared) (g (s.threads t)) c = _ at hc
    rw [hmv, Option.map_eq_some_iff] at hc
    obtain ⟨⟨e, q, th⟩, hmove, heq⟩ := hc
    obtain ⟨rfl, rfl, rfl⟩ := Prod.mk.injEq .. ▸ Prod.mk.injEq .. ▸ heq
    refine ⟨tr ++ [(t, e)], s.move t q th, hrun'.tail ⟨q, th, ⟨c, hmove⟩, rfl⟩,
      by simp, image_move f g s t q th⟩

end Image

/-! ## A thread running alone -/

/-- One move of a thread that runs alone, its choices made by `choose`.  A
thread that cannot move stays where it is. -/
def alone {κ : Type*} (mv : Q → Th → κ → Option (E × Q × Th))
    (choose : Q → Th → κ) (p : Q × Th) : Q × Th :=
  match mv p.1 p.2 (choose p.1 p.2) with
  | some (_, p') => p'
  | none => p

/-- Running a thread alone is a run of the pool in which only it moves. -/
theorem path_of_alone {κ : Type*} {mv : Q → Th → κ → Option (E × Q × Th)}
    (choose : Q → Th → κ) (q₀ : Q) (th₀ : Th) (t : ι) (k : ℕ)
    (s : Pool ι Q Th) :
    ∃ es : List E, (lts ι (Moves mv) q₀ th₀).Path s (es.map fun e => (t, e))
      (s.move t ((alone mv choose)^[k] (s.shared, s.threads t)).1
        ((alone mv choose)^[k] (s.shared, s.threads t)).2) := by
  induction k generalizing s with
  | zero =>
      refine ⟨[], ?_⟩
      rw [Function.iterate_zero_apply, move_self]
      exact Lts.Path.refl s
  | succ k ih =>
      rw [Function.iterate_succ_apply]
      cases hmv : mv s.shared (s.threads t) (choose s.shared (s.threads t)) with
      | none =>
          have hstay : alone mv choose (s.shared, s.threads t) =
              (s.shared, s.threads t) := by
            simp [alone, hmv]
          rw [hstay]
          exact ih s
      | some r =>
          obtain ⟨e, q, th⟩ := r
          have hgo : alone mv choose (s.shared, s.threads t) = (q, th) := by
            simp [alone, hmv]
          rw [hgo]
          obtain ⟨es, hpath⟩ := ih (s.move t q th)
          have hstep : (lts ι (Moves mv) q₀ th₀).step s (t, e) (s.move t q th) :=
            ⟨q, th, ⟨_, hmv⟩, rfl⟩
          rw [move_shared, move_threads_self, move_move] at hpath
          exact ⟨e :: es, (Lts.Path.single hstep).trans hpath⟩

/-! ## Threads that can all get somewhere -/

/-- When every thread that is not yet there can get there in one move of its
own, a state is ahead in which all threads are. -/
theorem exists_path_forall [Finite ι] {α : Type*}
    {M : Lts (Pool ι Q Th) α} {I : Pool ι Q Th → Prop} {D : Th → Prop}
    (hgo : ∀ s t, I s → ¬D (s.threads t) → ∃ a q th,
      M.step s a (s.move t q th) ∧ D th ∧ I (s.move t q th))
    {s : Pool ι Q Th} (hs : I s) :
    ∃ tr s', M.Path s tr s' ∧ I s' ∧ ∀ t, D (s'.threads t) := by
  have hlist : ∀ ts : List ι, ∃ tr s', M.Path s tr s' ∧ I s' ∧
      ∀ t ∈ ts, D (s'.threads t) := by
    intro ts
    induction ts with
    | nil => exact ⟨[], s, Lts.Path.refl s, hs, by simp⟩
    | cons t ts ih =>
        obtain ⟨tr, s', hpath, hI, hall⟩ := ih
        by_cases ht : D (s'.threads t)
        · refine ⟨tr, s', hpath, hI, ?_⟩
          intro u hu
          rcases List.mem_cons.mp hu with rfl | hu
          · exact ht
          · exact hall u hu
        · obtain ⟨a, q, th, hstep, hth, hI'⟩ := hgo s' t hI ht
          refine ⟨tr ++ [a], s'.move t q th, hpath.tail hstep, hI', ?_⟩
          intro u hu
          by_cases heq : u = t
          · subst heq
            rwa [move_threads_self]
          · rw [move_threads_of_ne s' q th heq]
            exact hall u ((List.mem_cons.mp hu).resolve_left heq)
  obtain ⟨n, ⟨e⟩⟩ := Finite.exists_equiv_fin ι
  obtain ⟨tr, s', hpath, hI, hall⟩ := hlist (List.ofFn e.symm)
  refine ⟨tr, s', hpath, hI, fun t => hall t ?_⟩
  exact List.mem_ofFn.mpr ⟨e t, e.symm_apply_apply t⟩

/-! ## Counting threads -/

/-- The number of threads whose local state satisfies `P`. -/
noncomputable def count (s : Pool ι Q Th) (P : Th → Prop) : ℕ∞ :=
  {t | P (s.threads t)}.encard

omit [DecidableEq ι] in
theorem count_eq_zero {s : Pool ι Q Th} {P : Th → Prop}
    (h : ∀ t, ¬P (s.threads t)) : s.count P = 0 :=
  Set.encard_eq_zero.mpr (Set.eq_empty_of_forall_notMem h)

omit [DecidableEq ι] in
/-- One thread and the others. -/
theorem count_eq_others_add (s : Pool ι Q Th) (t : ι) (P : Th → Prop)
    [DecidablePred P] :
    s.count P = ({t' | P (s.threads t')} \ {t}).encard +
      (if P (s.threads t) then 1 else 0) := by
  by_cases h : P (s.threads t)
  · have hmem : t ∈ {t' | P (s.threads t')} := h
    rw [if_pos h, Set.encard_sdiff_singleton_add_one hmem, count]
  · have hmem : t ∉ {t' | P (s.threads t')} := h
    rw [if_neg h, add_zero, Set.sdiff_singleton_eq_self hmem, count]

/-- A move takes its thread out of the count and puts it back in. -/
theorem count_move (s : Pool ι Q Th) (t : ι) (q : Q) (th : Th)
    (P : Th → Prop) [DecidablePred P] :
    (s.move t q th).count P + (if P (s.threads t) then 1 else 0) =
      s.count P + (if P th then 1 else 0) := by
  have hothers : {t' | P ((s.move t q th).threads t')} \ {t} =
      {t' | P (s.threads t')} \ {t} := by
    ext t'
    by_cases heq : t' = t
    · simp [heq]
    · simp [heq, move_threads_of_ne s q th heq]
  rw [count_eq_others_add s t P, count_eq_others_add (s.move t q th) t P,
    hothers, move_threads_self, add_right_comm]

omit [DecidableEq ι] in
theorem count_le_card (s : Pool ι Q Th) (P : Th → Prop) :
    s.count P ≤ ENat.card ι :=
  Set.encard_le_card

omit [DecidableEq ι] in
/-- Only when the count is that of all threads is every thread counted. -/
theorem count_eq_card_iff [Finite ι] {s : Pool ι Q Th} {P : Th → Prop} :
    s.count P = ENat.card ι ↔ ∀ t, P (s.threads t) := by
  constructor
  · intro h t
    have huniv : {t | P (s.threads t)} = Set.univ := by
      apply Set.Finite.eq_of_subset_of_encard_le (Set.toFinite _)
        (Set.subset_univ _)
      rw [Set.encard_univ]
      exact h.ge
    exact huniv.ge (Set.mem_univ t)
  · intro h
    rw [count, Set.eq_univ_of_forall (s := {t | P (s.threads t)}) h,
      Set.encard_univ]

/-- A move replaces the share of its thread. -/
theorem sum_move [Fintype ι] {A : Type*} [AddCommMonoid A] (s : Pool ι Q Th)
    (t : ι) (q : Q) (th : Th) (f : Th → A) :
    ∑ u, f ((s.move t q th).threads u) + f (s.threads t) =
      ∑ u, f (s.threads u) + f th := by
  have hothers : ∑ u ∈ Finset.univ.erase t, f ((s.move t q th).threads u) =
      ∑ u ∈ Finset.univ.erase t, f (s.threads u) := by
    refine Finset.sum_congr rfl fun u hu => ?_
    rw [move_threads_of_ne _ _ _ (Finset.ne_of_mem_erase hu)]
  rw [← Finset.add_sum_erase _ _ (Finset.mem_univ t), hothers,
    ← Finset.add_sum_erase _ (fun u => f (s.threads u)) (Finset.mem_univ t),
    move_threads_self, add_right_comm, add_comm (f th),
    add_right_comm]

end Pool
end ConcurrentQueues
