import ConcurrentQueues.Support.Clients
import Mathlib.Algebra.BigOperators.Group.Finset.Piecewise
import Mathlib.Algebra.Order.BigOperators.Group.Finset
import Mathlib.Data.Multiset.Count
import Mathlib.Tactic.Abel

/-!
# Stop flags

Threads share a FIFO queue.  Some push a list of items that ends with flags, the
others pop until they have had the flags they want.  When as many flags are
pushed as are wanted, the flags do all the bookkeeping: one that is still to be
pushed or still in the queue is one that somebody still wants, so nobody is left
waiting, and once nobody wants a flag there is nothing behind the last one.
-/

namespace ConcurrentQueues

/-- The operations on a queue that holds at most `cap` items, as functions. -/
def Fifo.callWithin {T : Type*} (cap : ℕ) (q : List T) (op : Fifo.Op T) :
    Option (Fifo.Res T × List T) :=
  if q.length ≤ cap then Fifo.call cap q op else none

theorem Fifo.apply_of_callWithin {T : Type*} {cap : ℕ} {q q' : List T}
    {op : Fifo.Op T} {r : Fifo.Res T}
    (h : callWithin cap q op = some (r, q')) :
    (Fifo.object T cap).apply q op r q' := by
  by_cases hq : q.length ≤ cap
  · rw [callWithin, if_pos hq] at h
    exact (Fifo.call_eq_some_iff hq).mp h
  · rw [callWithin, if_neg hq] at h
    cases h

namespace StopFlags

/-! ## Items taken -/

section Taken

variable {ι κ T : Type*} [DecidableEq ι]

/-- The item a result delivers. -/
def item? : Fifo.Res T → Option T
  | .pushed _ => none
  | .popped x => x

/-- The items `t` has taken out of the queue. -/
def taken (t : ι) (tr : List (ι × (κ ⊕ Fifo.Op T × Fifo.Res T))) : List T :=
  (results t tr).filterMap item?

/-- The items the calls of `t` returned with. -/
def popped (t : ι) (h : List (ι × Act (Fifo.Op T) (Fifo.Res T))) : List T :=
  (returns t h).filterMap item?

theorem taken_snoc_own (t u : ι) (tr : List (ι × (κ ⊕ Fifo.Op T × Fifo.Res T)))
    (c : κ) : taken t (tr ++ [(u, .inl c)]) = taken t tr := by
  rw [taken, results_snoc_own, taken]

theorem taken_snoc_push (t u : ι)
    (tr : List (ι × (κ ⊕ Fifo.Op T × Fifo.Res T))) (x : T) (b : Bool) :
    taken t (tr ++ [(u, .inr (.push x, .pushed b))]) = taken t tr := by
  rw [taken, results_snoc_call, List.filterMap_append, taken]
  split_ifs <;> simp [item?]

/-- A pop adds its item to what has been taken. -/
theorem sum_taken_snoc_pop [Fintype ι] (u : ι)
    (tr : List (ι × (κ ⊕ Fifo.Op T × Fifo.Res T))) (x : T) :
    ∑ t, (taken t (tr ++ [(u, .inr (.pop, .popped (some x)))]) : Multiset T) =
      ∑ t, (taken t tr : Multiset T) + {x} := by
  have hone : ∀ t, (taken t (tr ++ [(u, .inr (.pop, .popped (some x)))]) :
      Multiset T) = taken t tr + if u = t then {x} else 0 := by
    intro t
    rw [taken, results_snoc_call, List.filterMap_append, ← Multiset.coe_add,
      taken]
    split_ifs <;> simp [item?]
  rw [Finset.sum_congr rfl fun t _ => hone t, Finset.sum_add_distrib,
    Finset.sum_ite_eq, if_pos (Finset.mem_univ u)]

end Taken

/-! ## The protocol -/

/-- The items a thread has still to push, the flags it has still to pop, and a
bound on the steps of its own it still takes. -/
structure Duties (L T : Type*) where
  rest : L → List T
  wants : L → ℕ
  own : L → ℕ

variable {ι G κ L T : Type*} [DecidableEq T]

/-- A thread pushes what it has to push, and pops while it wants flags.  It has
finished when there is nothing left of either. -/
def Duties.Obeys (D : Duties L T) (flag : T) (l : L) :
    Next G κ L (Fifo.Op T) (Fifo.Res T) → Prop
  | .call (.push x) k =>
      D.wants l = 0 ∧ D.wants (k (.pushed true)) = 0 ∧
        D.rest l = x :: D.rest (k (.pushed true)) ∧
        D.own (k (.pushed true)) ≤ D.own l
  | .call .pop k =>
      D.rest l = [] ∧ ∀ x, D.rest (k (.popped (some x))) = [] ∧
        D.wants (k (.popped (some x))) + (if x = flag then 1 else 0) =
          D.wants l ∧
        D.own (k (.popped (some x))) ≤ D.own l
  | .call (.tryPush _) _ | .call .tryPop _ => False
  | .own f =>
      ∀ g c, D.rest (f g c).2 = D.rest l ∧ D.wants (f g c).2 = D.wants l ∧
        D.own (f g c).2 < D.own l
  | .stop => D.rest l = [] ∧ D.wants l = 0

/-- All threads keep to their duties, whoever pushes ends with a flag, and there
are as many flags as are wanted. -/
structure Protocol [Fintype ι] (P : Program ι G κ L (Fifo.Op T) (Fifo.Res T))
    (flag : T) (D : Duties L T) : Prop where
  obeys : ∀ l, D.Obeys flag l (P.next l)
  ended : ∀ t x, (D.rest (P.init t)).getLast? = some x → x = flag
  balance : ∑ t, D.wants (P.init t) = ∑ t, (D.rest (P.init t)).count flag

variable {flag : T} {D : Duties L T} {cap : ℕ∞}
  {P : Program ι G κ L (Fifo.Op T) (Fifo.Res T)}

/-- What one step does to the queue and to what its thread has to push. -/
inductive Does (D : Duties L T) (q : List T) (l l' : L) :
    κ ⊕ Fifo.Op T × Fifo.Res T → List T → Prop
  | push (x : T) (hrest : D.rest l = x :: D.rest l')
      (hown : D.own l' ≤ D.own l) :
      Does D q l l' (.inr (.push x, .pushed true)) (q ++ [x])
  | pop {x : T} {q' : List T} (hq : q = x :: q') (hrest : D.rest l = [])
      (hrest' : D.rest l' = [])
      (hown : D.own l' ≤ D.own l) :
      Does D q l l' (.inr (.pop, .popped (some x))) q'
  | own (c : κ) (hrest : D.rest l' = D.rest l) (hown : D.own l' < D.own l) :
      Does D q l l' (.inl c) q

variable [Fintype ι]

theorem Protocol.does (hP : Protocol P flag D) {p p' : List T × G} {l l' : L}
    {e : κ ⊕ Fifo.Op T × Fifo.Res T}
    (h : P.Turn (Fifo.object T cap) p l e p' l') :
    Does D p.1 l l' e p'.1 := by
  have hobeys := hP.obeys l
  cases h with
  | call g hnext happly =>
      rw [hnext] at hobeys
      cases happly with
      | push => exact .push _ hobeys.2.2.1 hobeys.2.2.2
      | pop => exact .pop rfl hobeys.1 (hobeys.2 _).1 (hobeys.2 _).2.2
      | tryPush | full | tryPop | empty => exact hobeys.elim
  | own q g c hnext =>
      rw [hnext] at hobeys
      exact .own c (hobeys g c).1 (hobeys g c).2.2

variable [DecidableEq ι]

/-! ## What is kept -/

variable {tr : List (ι × (κ ⊕ Fifo.Op T × Fifo.Res T))}
  {s : Pool ι (List T × G) L}

/-- Every item is still to be pushed, in the queue, or has been taken by one
thread. -/
theorem Protocol.items (hP : Protocol P flag D)
    (hrun : (P.direct (Fifo.object T cap)).Run tr s) :
    (s.shared.1 : Multiset T) + ∑ t, (D.rest (s.threads t) : Multiset T) +
        ∑ t, (taken t tr : Multiset T) =
      ∑ t, (D.rest (P.init t) : Multiset T) := by
  refine Lts.Run.induction (P := fun tr s =>
    (s.shared.1 : Multiset T) + ∑ t, (D.rest (s.threads t) : Multiset T) +
        ∑ t, (taken t tr : Multiset T) =
      ∑ t, (D.rest (P.init t) : Multiset T)) ?_ ?_ hrun
  · simp [Program.direct, Fifo.object, taken, results]
  · rintro tr s ⟨u, e⟩ s' - ih ⟨⟨q, g⟩, l, hturn, rfl⟩
    have hdoes := hP.does hturn
    have hrests := Pool.sum_move s u (q, g) l fun l => (D.rest l : Multiset T)
    rw [← ih, Pool.move_shared]
    generalize s.shared.1 = q₀ at hdoes
    generalize ∑ t, (D.rest (s.threads t) : Multiset T) = R at hrests
    generalize ∑ t, (D.rest ((s.move u (q, g) l).threads t) : Multiset T) = R'
      at hrests
    change Does D q₀ (s.threads u) l e q at hdoes
    cases hdoes with
    | push x hrest =>
        have hR : R' + {x} = R := by
          refine add_right_cancel (b := (D.rest l : Multiset T)) ?_
          rw [← hrests, hrest, add_assoc, Multiset.singleton_add,
            Multiset.cons_coe]
        simp only [taken_snoc_push]
        rw [← hR, ← Multiset.coe_add, Multiset.coe_singleton]
        abel
    | @pop x _ hq hrest hrest' =>
        have hR : R' = R := by
          simpa [hrest, hrest'] using hrests
        rw [sum_taken_snoc_pop, hq, hR, ← Multiset.cons_coe,
          ← Multiset.singleton_add]
        abel
    | own c hrest =>
        have hR : R' = R := by
          simpa [hrest] using hrests
        simp only [taken_snoc_own, hR]

/-- A thread wants the flags it wanted at first less those it has taken, and
what it has to push ends with a flag. -/
theorem Protocol.duties (hP : Protocol P flag D)
    (hrun : (P.direct (Fifo.object T cap)).Run tr s) (t : ι) :
    D.wants (s.threads t) + (taken t tr).count flag = D.wants (P.init t) ∧
      ∀ x, (D.rest (s.threads t)).getLast? = some x → x = flag := by
  refine Program.local_induction (I := fun l rs =>
    D.wants l + (rs.filterMap item?).count flag = D.wants (P.init t) ∧
      ∀ x, (D.rest l).getLast? = some x → x = flag) ?_ ?_ ?_ hrun
  · exact ⟨rfl, hP.ended t⟩
  · rintro l f g x rs hnext ⟨hwants, hended⟩
    have hobeys := hP.obeys l
    rw [hnext] at hobeys
    obtain ⟨hrest, hwants', -⟩ := hobeys g x
    rw [hrest, hwants']
    exact ⟨hwants, hended⟩
  · rintro l op k q r q' rs hnext happly ⟨hwants, hended⟩
    have hobeys := hP.obeys l
    rw [hnext] at hobeys
    rw [List.filterMap_append, List.count_append]
    cases happly with
    | push =>
        obtain ⟨hzero, hzero', hrest, -⟩ := hobeys
        refine ⟨?_, fun x hx => hended x ?_⟩
        · simpa [List.filterMap_cons, item?, hzero, hzero'] using hwants
        · rw [hrest, List.getLast?_cons, hx]
          rfl
    | @pop q x =>
        obtain ⟨hrest, hpop⟩ := hobeys
        obtain ⟨hrest', hwants', -⟩ := hpop x
        refine ⟨?_, by simp [hrest']⟩
        rw [← hwants, ← hwants']
        by_cases hx : x = flag
        · simp [item?, hx]
          omega
        · simp [item?, hx]
    | tryPush | full | tryPop | empty => exact hobeys.elim

/-- A thread that wants no flag takes nothing. -/
theorem Protocol.taken_eq_nil (hP : Protocol P flag D)
    (hrun : (P.direct (Fifo.object T cap)).Run tr s) {t : ι}
    (ht : D.wants (P.init t) = 0) : taken t tr = [] := by
  refine (Program.local_induction (I := fun l rs =>
    D.wants l = 0 ∧ rs.filterMap item? = []) ⟨ht, rfl⟩ ?_ ?_ hrun).2
  · rintro l f g x rs hnext ⟨hzero, hnil⟩
    have hobeys := hP.obeys l
    rw [hnext] at hobeys
    exact ⟨(hobeys g x).2.1.trans hzero, hnil⟩
  · rintro l op k q r q' rs hnext happly ⟨hzero, hnil⟩
    have hobeys := hP.obeys l
    rw [hnext] at hobeys
    cases happly with
    | push => exact ⟨hobeys.2.1, by simp [hnil, List.filterMap_cons, item?]⟩
    | pop =>
        have hflag := (hobeys.2 flag).2.1
        rw [if_pos rfl, hzero] at hflag
        omega
    | tryPush | full | tryPop | empty => exact hobeys.elim

/-- Behind a last item that is no flag, something is still to be pushed. -/
theorem Protocol.behind (hP : Protocol P flag D)
    (hrun : (P.direct (Fifo.object T cap)).Run tr s) (x : T)
    (hx : s.shared.1.getLast? = some x) (hne : x ≠ flag) :
    ∃ t, D.rest (s.threads t) ≠ [] := by
  revert x
  refine Lts.Run.induction (P := fun _ s => ∀ x, s.shared.1.getLast? = some x →
    x ≠ flag → ∃ t, D.rest (s.threads t) ≠ []) ?_ ?_ hrun
  · intro x hx
    cases hx
  · rintro tr s ⟨u, e⟩ s' hrun' ih ⟨⟨q, g⟩, l, hturn, rfl⟩ x hx hne
    have hended := (hP.duties hrun' u).2
    have hkept : ∀ q', q'.getLast? = some x → q' = s.shared.1 →
        (D.rest (s.threads u) ≠ [] → D.rest l ≠ []) →
        ∃ t, D.rest ((s.move u (q, g) l).threads t) ≠ [] := by
      rintro q' hq' rfl hself
      obtain ⟨t, ht⟩ := ih x hq' hne
      refine ⟨t, ?_⟩
      by_cases htu : t = u
      · subst htu
        rw [Pool.move_threads_self]
        exact hself ht
      · rwa [Pool.move_threads_of_ne _ _ _ htu]
    have hdoes := hP.does hturn
    rw [Pool.move_shared] at hx
    change Does D s.shared.1 (s.threads u) l e q at hdoes
    cases hdoes with
    | push y hrest =>
        rw [List.getLast?_concat] at hx
        obtain rfl := Option.some.inj hx
        refine ⟨u, fun hnil => hne (hended y ?_)⟩
        rw [Pool.move_threads_self] at hnil
        rw [hrest, hnil]
        rfl
    | @pop y _ hq hrest =>
        refine hkept (y :: q) ?_ hq.symm fun h => absurd hrest h
        rw [List.getLast?_cons, hx]
        rfl
    | own c hrest => exact hkept _ hx rfl fun h => hrest ▸ h

/-! ## Flags -/

/-- The flags still wanted are those in the queue and those still to be
pushed. -/
theorem Protocol.flags_left (hP : Protocol P flag D)
    (hrun : (P.direct (Fifo.object T cap)).Run tr s) :
    ∑ t, D.wants (s.threads t) = s.shared.1.count flag +
      ∑ t, (D.rest (s.threads t)).count flag := by
  have hitems := congrArg (Multiset.count flag) (hP.items hrun)
  simp only [Multiset.count_add, Multiset.count_sum', Multiset.coe_count]
    at hitems
  have hwants : ∑ t, D.wants (s.threads t) + ∑ t, (taken t tr).count flag =
      ∑ t, D.wants (P.init t) := by
    rw [← Finset.sum_add_distrib]
    exact Finset.sum_congr rfl fun t _ => (hP.duties hrun t).1
  rw [hP.balance, ← hitems] at hwants
  exact Nat.add_right_cancel hwants

/-- Once no flag is wanted, nothing is left to push and the queue is empty. -/
theorem Protocol.drained (hP : Protocol P flag D)
    (hrun : (P.direct (Fifo.object T cap)).Run tr s)
    (hwants : ∀ t, D.wants (s.threads t) = 0) :
    s.shared.1 = [] ∧ ∀ t, D.rest (s.threads t) = [] := by
  have hflags := hP.flags_left hrun
  rw [Finset.sum_eq_zero fun t _ => hwants t, eq_comm, Nat.add_eq_zero_iff,
    Finset.sum_eq_zero_iff] at hflags
  obtain ⟨hqueue, hrests⟩ := hflags
  have hrest : ∀ t, D.rest (s.threads t) = [] := by
    intro t
    by_contra hne
    have hlast := (hP.duties hrun t).2 _ (List.getLast?_eq_some_getLast hne)
    refine List.count_eq_zero.mp (hrests t (Finset.mem_univ t)) ?_
    exact hlast ▸ List.getLast_mem hne
  refine ⟨?_, hrest⟩
  by_contra hne
  by_cases hflag : s.shared.1.getLast hne = flag
  · exact List.count_eq_zero.mp hqueue (hflag ▸ List.getLast_mem hne)
  · obtain ⟨t, ht⟩ :=
      hP.behind hrun _ (List.getLast?_eq_some_getLast hne) hflag
    exact ht (hrest t)

/-- When everybody has finished, the queue is empty and everything pushed has
been taken. -/
theorem Protocol.all_taken (hP : Protocol P flag D)
    (hrun : (P.direct (Fifo.object T cap)).Run tr s)
    (hstop : ∀ t, P.next (s.threads t) = .stop) :
    s.shared.1 = [] ∧ ∑ t, (taken t tr : Multiset T) =
      ∑ t, (D.rest (P.init t) : Multiset T) := by
  have hwants : ∀ t, D.wants (s.threads t) = 0 := by
    intro t
    have hobeys := hP.obeys (s.threads t)
    rw [hstop t] at hobeys
    exact hobeys.2
  obtain ⟨hqueue, hrests⟩ := hP.drained hrun hwants
  refine ⟨hqueue, ?_⟩
  have hitems := hP.items hrun
  simpa [hqueue, hrests] using hitems

/-! ## Nobody waits for ever -/

omit [DecidableEq ι] in
/-- Only pops wait for an empty queue. -/
theorem Protocol.rest_eq_nil (hP : Protocol P flag D) (hcap : 1 ≤ cap) {l : L}
    (h : P.next l = .stop ∨ P.Waits (Fifo.object T cap) [] l) :
    D.rest l = [] := by
  have hobeys := hP.obeys l
  rcases h with hstop | ⟨op, k, hnext, hblocked⟩
  · rw [hstop] at hobeys
    exact hobeys.1
  · rw [hnext] at hobeys
    cases op with
    | push x =>
        refine absurd (Fifo.Apply.push ?_) (hblocked _ _)
        exact lt_of_lt_of_le zero_lt_one hcap
    | pop => exact hobeys.1
    | tryPush | tryPop => exact hobeys.elim

omit [DecidableEq ι] in
/-- Only pushes wait for a queue with an item. -/
theorem Protocol.wants_eq_zero (hP : Protocol P flag D) {x : T} {q : List T}
    {l : L}
    (h : P.next l = .stop ∨ P.Waits (Fifo.object T cap) (x :: q) l) :
    D.wants l = 0 := by
  have hobeys := hP.obeys l
  rcases h with hstop | ⟨op, k, hnext, hblocked⟩
  · rw [hstop] at hobeys
    exact hobeys.2
  · rw [hnext] at hobeys
    cases op with
    | push => exact hobeys.1
    | pop => exact absurd .pop (hblocked _ _)
    | tryPush | tryPop => exact hobeys.elim

omit [DecidableEq ι] in
/-- A thread with nothing to push that wants no flag does not wait. -/
theorem Protocol.stop_of_idle (hP : Protocol P flag D) {q : List T} {l : L}
    (hrest : D.rest l = []) (hwants : D.wants l = 0)
    (h : P.next l = .stop ∨ P.Waits (Fifo.object T cap) q l) :
    P.next l = .stop := by
  refine h.resolve_right ?_
  rintro ⟨op, k, hnext, -⟩
  have hobeys := hP.obeys l
  rw [hnext] at hobeys
  cases op with
  | push x => exact absurd (hrest.symm.trans hobeys.2.2.1) (by simp)
  | pop =>
      have hflag := (hobeys.2 flag).2.1
      rw [if_pos rfl, hwants] at hflag
      omega
  | tryPush | tryPop => exact hobeys.elim

/-- Where every thread has finished or waits for the queue, all have
finished. -/
theorem Protocol.not_waiting (hP : Protocol P flag D) (hcap : 1 ≤ cap)
    (hrun : (P.direct (Fifo.object T cap)).Run tr s)
    (hall : ∀ t, P.next (s.threads t) = .stop ∨
      P.Waits (Fifo.object T cap) s.shared.1 (s.threads t)) (t : ι) :
    P.next (s.threads t) = .stop := by
  cases hq : s.shared.1 with
  | nil =>
      rw [hq] at hall
      have hrest : ∀ u, D.rest (s.threads u) = [] :=
        fun u => hP.rest_eq_nil hcap (hall u)
      have hflags := hP.flags_left hrun
      simp only [hq, hrest, List.count_nil, Finset.sum_const_zero,
        add_zero] at hflags
      have hwants := Finset.sum_eq_zero_iff.mp hflags t (Finset.mem_univ t)
      exact hP.stop_of_idle (hrest t) hwants (hall t)
  | cons x q =>
      rw [hq] at hall
      have hdrained := hP.drained hrun fun u => hP.wants_eq_zero (hall u)
      rw [hdrained.1] at hq
      cases hq

/-- The steps that may still be taken. -/
def effort (D : Duties L T) (s : Pool ι (List T × G) L) : ℕ :=
  ∑ t, (2 * (D.rest (s.threads t)).length + D.own (s.threads t)) +
    s.shared.1.length

/-- Every step uses up some of the effort, an item counting twice while it is
still to be pushed. -/
theorem Protocol.effort_add_le (hP : Protocol P flag D)
    (hrun : (P.direct (Fifo.object T cap)).Run tr s) :
    effort D s + tr.length ≤
      ∑ t, (2 * (D.rest (P.init t)).length + D.own (P.init t)) := by
  refine Lts.Run.induction (P := fun tr s => effort D s + tr.length ≤
    ∑ t, (2 * (D.rest (P.init t)).length + D.own (P.init t))) ?_ ?_ hrun
  · simp [effort, Program.direct, Fifo.object]
  · rintro tr s ⟨u, e⟩ s' - ih ⟨⟨q, g⟩, l, hturn, rfl⟩
    refine le_trans ?_ ih
    have hdoes := hP.does hturn
    have hsum := Pool.sum_move s u (q, g) l
      fun l => 2 * (D.rest l).length + D.own l
    simp only [effort, Pool.move_shared, List.length_append,
      List.length_singleton]
    change Does D s.shared.1 (s.threads u) l e q at hdoes
    cases hdoes with
    | push x hrest hown =>
        rw [hrest] at hsum
        simp only [List.length_cons, List.length_append, List.length_nil]
          at hsum ⊢
        omega
    | pop hq hrest hrest' hown =>
        rw [hrest, hrest'] at hsum
        rw [hq]
        simp only [List.length_nil, List.length_cons] at hsum ⊢
        omega
    | own c hrest hown =>
        rw [hrest] at hsum
        omega

/-- While a thread has not finished, some thread can take a step, whatever its
input would be. -/
theorem Protocol.exists_turn (hP : Protocol P flag D) (hcap : 1 ≤ cap)
    (hrun : (P.direct (Fifo.object T cap)).Run tr s) {t : ι}
    (ht : P.next (s.threads t) ≠ .stop) (x : κ) :
    ∃ a s', (P.direct (Fifo.object T cap)).step s a s' ∧
      ∀ b ∈ Stamps.inputs [a], b.2 = x := by
  by_contra hno
  refine ht (hP.not_waiting hcap hrun (fun u => ?_) t)
  cases hnext : P.next (s.threads u) with
  | stop => exact Or.inl rfl
  | own f =>
      refine absurd ⟨(u, .inl x), _, ⟨_, _, .own _ _ x hnext, rfl⟩, ?_⟩ hno
      intro b hb
      obtain rfl := List.mem_singleton.mp hb
      rfl
  | call op k =>
      refine Or.inr ⟨op, k, hnext, fun r q happly => hno ?_⟩
      exact ⟨(u, .inr (op, r)), _, ⟨_, _, .call _ hnext happly, rfl⟩, by
        simp [Stamps.inputs]⟩

/-- Every run can be led to its end, all inputs on the way being `x`. -/
theorem Protocol.completes (hP : Protocol P flag D) (hcap : 1 ≤ cap) (x : κ)
    (hrun : (P.direct (Fifo.object T cap)).Run tr s) :
    ∃ tr' s', (P.direct (Fifo.object T cap)).Path s tr' s' ∧
      (∀ t, P.next (s'.threads t) = .stop) ∧
      ∀ a ∈ Stamps.inputs tr', a.2 = x := by
  generalize hleft : ∑ t, (2 * (D.rest (P.init t)).length + D.own (P.init t)) -
    tr.length = left
  induction left generalizing tr s with
  | zero =>
      refine ⟨[], s, .refl s, fun t => ?_, by simp [Stamps.inputs]⟩
      by_contra ht
      obtain ⟨a, s', hstep, -⟩ := hP.exists_turn hcap hrun ht x
      have heffort := hP.effort_add_le (hrun.tail hstep)
      rw [List.length_append, List.length_singleton] at heffort
      omega
  | succ left ih =>
      by_cases hall : ∀ t, P.next (s.threads t) = .stop
      · exact ⟨[], s, .refl s, hall, by simp [Stamps.inputs]⟩
      · obtain ⟨t, ht⟩ := not_forall.mp hall
        obtain ⟨a, s₁, hstep, ha⟩ := hP.exists_turn hcap hrun ht x
        obtain ⟨tr', s', hpath, hstop, hins⟩ := ih (hrun.tail hstep) (by
          rw [List.length_append, List.length_singleton]
          omega)
        refine ⟨[a] ++ tr', s', (Lts.Path.single hstep).trans hpath, hstop, ?_⟩
        intro b hb
        rw [Stamps.inputs, List.filterMap_append] at hb
        exact (List.mem_append.mp hb).elim (ha b) (hins b)

/-- While a thread has not finished, some step can be taken. -/
theorem Protocol.exists_step [Nonempty κ] (hP : Protocol P flag D)
    (hcap : 1 ≤ cap) {σ α : Type*} {M : Lts σ α}
    {shows : α → Option (ι × Act (Fifo.Op T) (Fifo.Res T))}
    (hM : (Fifo.object T cap).Blocking (P.Calls (Fifo.object T cap)) M
      shows)
    {tr : List (Option α × Option (ι × (κ ⊕ Act (Fifo.Op T) (Fifo.Res T))))}
    {m : σ} {c : Pool ι G (Client L)} (hrun : (P.on M shows).Run tr (m, c))
    {t : ι} (ht : ¬P.Finished (c.threads t)) :
    ∃ lab p, (P.on M shows).step (m, c) lab p := by
  by_contra hno
  obtain ⟨tr', s, hdirect, hall⟩ := Program.waits_of_stuck hM hrun
    fun lab p hstep => hno ⟨lab, p, hstep⟩
  have hstop := hP.not_waiting hcap hdirect
    (fun u => (hall u).imp And.right id) t
  rcases hall t with ⟨hfinished, -⟩ | ⟨op, k, hnext, -⟩
  · exact ht hfinished
  · rw [hstop] at hnext
    cases hnext

/-- A protocol of stop flags ends, with the queue empty and every item taken. -/
theorem Protocol.ends [Nonempty κ] (hP : Protocol P flag D) (hcap : 1 ≤ cap)
    {Done : List (ι × Act (Fifo.Op T) (Fifo.Res T)) → (ι → Client L) →
      List T → Prop}
    (hdone : ∀ h c tr s, (P.direct (Fifo.object T cap)).Run tr s →
      (∀ t, c t = .running (s.threads t) ∧ P.next (s.threads t) = .stop) →
      (∀ t, taken t tr = popped t h) →
      ∑ t, (taken t tr : Multiset T) = ∑ t, (D.rest (P.init t) : Multiset T) →
      Done h c []) : P.Ends (Fifo.object T cap) Done := by
  refine ⟨2 * ∑ t, (2 * (D.rest (P.init t)).length + D.own (P.init t)) +
    Fintype.card ι, ?_⟩
  intro σ α M shows hM tr m c hrun
  obtain ⟨hMrun, hclients, hshown⟩ := Lts.runs_of_sync hrun
  refine ⟨?_, ?_, ?_⟩
  · obtain ⟨tr', a, ha, hsame, -⟩ := hM _ _ hMrun
    obtain ⟨trd, s, hdirect, hahead⟩ :=
      Program.exists_direct hrun ⟨tr', ha, hsame.trans hshown⟩
    have hsteps := hahead.length_le
    have heffort := hP.effort_add_le hdirect
    omega
  · rintro ⟨t, ht⟩
    refine ⟨hP.exists_step hcap hM hrun ht, ?_⟩
    rintro a ⟨tr', ha, hsame⟩
    obtain ⟨joint, hjoint, -, -⟩ := Lts.sync_of_runs ha hclients hsame
    exact hP.exists_step hcap (SeqObject.blocking_atomic _ _) hjoint ht
  · intro hall a ha
    obtain ⟨trd, s, hdirect, hahead⟩ := Program.exists_direct hrun ha
    have hstop : ∀ t, (c.threads t = .running (s.threads t) ∧
        P.next (s.threads t) = .stop) ∧ taken t trd = popped t
          ((tr.filterMap Prod.snd).filterMap Program.visible) := by
      intro t
      obtain ⟨l, hc, hnext⟩ := hall t
      obtain ⟨rfl, hres⟩ := hahead.of_running hc
      exact ⟨⟨hc, hnext⟩, by rw [taken, popped, hres]⟩
    obtain ⟨hqueue, htaken⟩ :=
      hP.all_taken hdirect fun t => (hstop t).1.2
    rw [hahead.shared] at hqueue
    change a.shared = [] at hqueue
    rw [hqueue]
    exact hdone _ _ trd s hdirect (fun t => (hstop t).1)
      (fun t => (hstop t).2) htaken

/-! ## Two groups of threads -/

section Groups

variable {ι ι' G κ L L' T : Type*} [DecidableEq T] {flag : T}

/-- The duties of the threads of two groups. -/
def Duties.groups (D : Duties L T) (D' : Duties L' T) : Duties (L ⊕ L') T where
  rest := Sum.elim D.rest D'.rest
  wants := Sum.elim D.wants D'.wants
  own := Sum.elim D.own D'.own

theorem Duties.Obeys.map {D : Duties L T} {D' : Duties L' T} {e : L → L'}
    (hrest : ∀ l, D'.rest (e l) = D.rest l)
    (hwants : ∀ l, D'.wants (e l) = D.wants l)
    (hown : ∀ l, D'.own (e l) = D.own l) {l : L}
    {step : Next G κ L (Fifo.Op T) (Fifo.Res T)} (h : D.Obeys flag l step) :
    D'.Obeys flag (e l) (step.map e) := by
  cases step with
  | call op k =>
      cases op with
      | push | pop =>
          simpa only [Next.map, Obeys, hrest, hwants, hown,
            Function.comp_apply] using h
      | tryPush | tryPop => exact h
  | own f => simpa only [Next.map, Obeys, hrest, hwants, hown] using h
  | stop => simpa only [Next.map, Obeys, hrest, hwants, hown] using h

/-- Two groups of threads of which each keeps to its duties. -/
theorem protocol_groups [Fintype ι] [Fintype ι'] {memory : G} {first : L}
    {code : L → Next G κ L (Fifo.Op T) (Fifo.Res T)} {first' : L'}
    {code' : L' → Next G κ L' (Fifo.Op T) (Fifo.Res T)} {D : Duties L T}
    {D' : Duties L' T} (hobeys : ∀ l, D.Obeys flag l (code l))
    (hobeys' : ∀ l, D'.Obeys flag l (code' l))
    (hended : ∀ x, (D.rest first).getLast? = some x → x = flag)
    (hended' : ∀ x, (D'.rest first').getLast? = some x → x = flag)
    (hbalance : Fintype.card ι * D.wants first +
        Fintype.card ι' * D'.wants first' =
      Fintype.card ι * (D.rest first).count flag +
        Fintype.card ι' * (D'.rest first').count flag) :
    Protocol (Program.groups ι ι' memory first code first' code') flag
      (D.groups D') where
  obeys l := by
    cases l with
    | inl l =>
        exact (hobeys l).map (e := Sum.inl) (fun _ => rfl) (fun _ => rfl)
          fun _ => rfl
    | inr l =>
        exact (hobeys' l).map (e := Sum.inr) (fun _ => rfl) (fun _ => rfl)
          fun _ => rfl
  ended t := by
    cases t with
    | inl t => exact hended
    | inr t => exact hended'
  balance := by
    simpa [Fintype.sum_sum_type, Program.groups, Duties.groups] using hbalance

end Groups

end StopFlags
end ConcurrentQueues
