import ConcurrentQueues.Support.Object
import ConcurrentQueues.Support.Stamps
import ConcurrentQueues.Support.Sync
import Mathlib.Algebra.BigOperators.Group.Finset.Piecewise
import Mathlib.Algebra.BigOperators.Ring.Finset
import Mathlib.Algebra.Order.BigOperators.Group.Finset

/-!
# Programs that call an object

Each thread runs a program that calls the operations of an object, goes on with
their results, and shares some memory with the other threads.  The programs run
side by side with a system that implements the object, the starts and returns of
calls being shared.

However the calls of a run overlap, the programs stand where they would if every
call were taken in one step; and where nothing can go on, they stand where they
could not go on either.  So the programs may be studied on the object itself,
with one step for each call.
-/

namespace ConcurrentQueues

/-! ## Programs -/

/-- What a program does next: it calls an operation and goes on with its result,
takes a step of its own on the memory, which may depend on an input, or has
finished. -/
inductive Next (G κ L Op Res : Type*)
  | call (op : Op) (k : Res → L)
  | own (f : G → κ → G × L)
  | stop

/-- The same step with its local state inside another one. -/
def Next.map {G κ L L' Op Res : Type*} (e : L → L') :
    Next G κ L Op Res → Next G κ L' Op Res
  | .call op k => .call op (e ∘ k)
  | .own f => .own fun g c => ((f g c).1, e (f g c).2)
  | .stop => .stop

theorem Next.own_of_map {G κ L L' Op Res : Type*} {e : L → L'}
    {n : Next G κ L Op Res} {f : G → κ → G × L'} (h : n.map e = .own f) :
    ∃ f', n = .own f' ∧ f = fun g c => ((f' g c).1, e (f' g c).2) := by
  cases n with
  | own f' => exact ⟨f', rfl, (Next.own.inj h).symm⟩
  | call | stop => cases h

theorem Next.call_of_map {G κ L L' Op Res : Type*} {e : L → L'}
    {n : Next G κ L Op Res} {op : Op} {k : Res → L'}
    (h : n.map e = .call op k) : ∃ k', n = .call op k' ∧ k = e ∘ k' := by
  cases n with
  | call op' k' =>
      obtain ⟨rfl, rfl⟩ := Next.call.inj h
      exact ⟨k', rfl, rfl⟩
  | own | stop => cases h

/-- A program for each thread, over local states of one type. -/
structure Program (ι G κ L Op Res : Type*) where
  memory : G
  init : ι → L
  next : L → Next G κ L Op Res

/-- A thread runs its program or waits for the return of its call. -/
inductive Client (L : Type*)
  | running (l : L)
  | calling (l : L)
  deriving DecidableEq

namespace Program

variable {ι G κ L Op Res : Type*}

/-- One step of a thread. -/
inductive Move (P : Program ι G κ L Op Res) :
    G → Client L → κ ⊕ Act Op Res → G → Client L → Prop
  | call {l : L} {op : Op} {k : Res → L} (g : G) (h : P.next l = .call op k) :
      Move P g (.running l) (.inr (.call op)) g (.calling l)
  | ret {l : L} {op : Op} {k : Res → L} (g : G) (r : Res)
      (h : P.next l = .call op k) :
      Move P g (.calling l) (.inr (.ret r)) g (.running (k r))
  | own {l : L} {f : G → κ → G × L} (g : G) (c : κ) (h : P.next l = .own f) :
      Move P g (.running l) (.inl c) (f g c).1 (.running (f g c).2)

/-- The thread has come to the end of its program. -/
def Finished (P : Program ι G κ L Op Res) (cl : Client L) : Prop :=
  ∃ l, cl = .running l ∧ P.next l = .stop

/-- The action a step shares with the object. -/
def visible : ι × (κ ⊕ Act Op Res) → Option (ι × Act Op Res)
  | (t, .inr act) => some (t, act)
  | (_, .inl _) => none

variable [DecidableEq ι]

/-- The threads by themselves, whatever their calls return. -/
def clients (P : Program ι G κ L Op Res) :
    Lts (Pool ι G (Client L)) (ι × (κ ⊕ Act Op Res)) where
  init := ⟨P.memory, fun t => .running (P.init t)⟩
  step c a c' := ∃ g cl, P.Move c.shared (c.threads a.1) a.2 g cl ∧
    c' = c.move a.1 g cl

/-- The threads and a system that takes their calls. -/
def on (P : Program ι G κ L Op Res) {σ α : Type*} (M : Lts σ α)
    (shows : α → Option (ι × Act Op Res)) :
    Lts (σ × Pool ι G (Client L))
      (Option α × Option (ι × (κ ⊕ Act Op Res))) :=
  Lts.sync M P.clients shows visible

/-- One step of a thread whose calls are taken in one step. -/
inductive Turn {V : Type*} (P : Program ι G κ L Op Res)
    (S : SeqObject V Op Res) :
    V × G → L → κ ⊕ Op × Res → V × G → L → Prop
  | call {q q' : V} {l : L} {op : Op} {r : Res} {k : Res → L} (g : G)
      (h : P.next l = .call op k) (happly : S.apply q op r q') :
      Turn P S (q, g) l (.inr (op, r)) (q', g) (k r)
  | own {l : L} {f : G → κ → G × L} (q : V) (g : G) (c : κ)
      (h : P.next l = .own f) :
      Turn P S (q, g) l (.inl c) (q, (f g c).1) (f g c).2

/-- The threads on the object itself, each call taken in one step. -/
def direct {V : Type*} (P : Program ι G κ L Op Res) (S : SeqObject V Op Res) :
    Lts (Pool ι (V × G) L) (ι × (κ ⊕ Op × Res)) where
  init := ⟨(S.init, P.memory), P.init⟩
  step s a s' := ∃ p l, P.Turn S s.shared (s.threads a.1) a.2 p l ∧
    s' = s.move a.1 p l

end Program

/-- Two groups of threads, the threads of a group running the same code. -/
def Program.groups {G κ L L' Op Res : Type*} (ι ι' : Type*) (memory : G)
    (first : L) (code : L → Next G κ L Op Res)
    (first' : L') (code' : L' → Next G κ L' Op Res) :
    Program (ι ⊕ ι') G κ (L ⊕ L') Op Res where
  memory := memory
  init := Sum.elim (fun _ => .inl first) (fun _ => .inr first')
  next := Sum.elim (fun l => (code l).map .inl) (fun l => (code' l).map .inr)

/-! ## Implementations that wait where the object waits -/

namespace SeqObject

variable {V Op Res ι : Type*}

/-- No call in progress can go on or return. -/
def OnlyCalls {σ α : Type*} (M : Lts σ α) (shows : α → Option (ι × Act Op Res))
    (s : σ) : Prop :=
  ∀ a s', M.step s a s' → ∃ t op, shows a = some (t, .call op)

variable [DecidableEq ι]

/-- The system takes the calls that idle threads may make, and comes to a stop
only where the atomic object does. -/
structure Serves (S : SeqObject V Op Res) (may : ι → Op → Prop) {σ α : Type*}
    (M : Lts σ α) (shows : α → Option (ι × Act Op Res)) (s : σ)
    (a : Pool ι V (Phase Op Res)) : Prop where
  accepts : ∀ t op, may t op → a.threads t = .idle →
    ∃ x s', M.step s x s' ∧ shows x = some (t, .call op)
  waits : OnlyCalls M shows s → OnlyCalls (S.atomic ι) some a

/-- An implementation of the object, whatever it does not show. -/
def Linearizable (S : SeqObject V Op Res) {σ α : Type*} (M : Lts σ α)
    (shows : α → Option (ι × Act Op Res)) : Prop :=
  S.Implements M shows fun _ _ _ => True

/-- A linearizable implementation for threads that call only what they may,
whose operations block only where those of the object do. -/
def Blocking (S : SeqObject V Op Res) (may : ι → Op → Prop) {σ α : Type*}
    (M : Lts σ α) (shows : α → Option (ι × Act Op Res)) : Prop :=
  S.Implements M shows fun _ s a => S.Serves may M shows s a

theorem Blocking.linearizable {S : SeqObject V Op Res} {may : ι → Op → Prop}
    {σ α : Type*} {M : Lts σ α} {shows : α → Option (ι × Act Op Res)}
    (h : S.Blocking may M shows) : S.Linearizable M shows := by
  intro tr s hrun
  obtain ⟨tr', a, ha, hsame, -⟩ := h tr s hrun
  exact ⟨tr', a, ha, hsame, trivial⟩

/-- Threads that call less ask for less. -/
theorem Blocking.mono {S : SeqObject V Op Res} {may may' : ι → Op → Prop}
    {σ α : Type*} {M : Lts σ α} {shows : α → Option (ι × Act Op Res)}
    (h : S.Blocking may M shows) (hmay : ∀ t op, may' t op → may t op) :
    S.Blocking may' M shows := by
  intro tr s hrun
  obtain ⟨tr', a, ha, hsame, haccepts, hwaits⟩ := h tr s hrun
  refine ⟨tr', a, ha, hsame, fun t op hop => ?_, hwaits⟩
  exact haccepts t op (hmay t op hop)

/-- The atomic object is such an implementation of itself. -/
theorem blocking_atomic (S : SeqObject V Op Res) (may : ι → Op → Prop) :
    S.Blocking may (S.atomic ι) seen := by
  intro tr a hrun
  refine ⟨tr, a, hrun, rfl, ?_, ?_⟩
  · intro t op _ hidle
    refine ⟨(t, .call op), a.move t a.shared (.pending op),
      ⟨_, _, ?_, rfl⟩, rfl⟩
    change S.Move a.shared (a.threads t) (.call op) a.shared (.pending op)
    rw [hidle]
    exact .call a.shared op
  · rintro honly ⟨t, act⟩ a' hstep
    obtain ⟨t', op, hshown⟩ := honly _ _ hstep
    cases act with
    | call op' => exact ⟨t, op', rfl⟩
    | effect => cases hshown
    | ret r => cases hshown

/-- The calls can have taken effect in an order that leads to `a`. -/
def Explains (S : SeqObject V Op Res) (h : List (ι × Act Op Res))
    (a : Pool ι V (Phase Op Res)) : Prop :=
  ∃ tr, (S.atomic ι).Run tr a ∧ tr.filterMap seen = h

/-- Where only calls can come, no operation in progress has a result. -/
theorem OnlyCalls.atomic {S : SeqObject V Op Res} {a : Pool ι V (Phase Op Res)}
    (h : OnlyCalls (S.atomic ι) some a) (t : ι) :
    a.threads t = .idle ∨ ∃ op, a.threads t = .pending op ∧
      ∀ r q, ¬S.apply a.shared op r q := by
  cases ht : a.threads t with
  | idle => exact Or.inl rfl
  | pending op =>
      refine Or.inr ⟨op, rfl, fun r q happly => ?_⟩
      have hstep : (S.atomic ι).step a (t, .effect) (a.move t q (.done r)) := by
        refine ⟨q, .done r, ?_, rfl⟩
        change S.Move a.shared (a.threads t) .effect q (.done r)
        rw [ht]
        exact .effect happly
      obtain ⟨t', op', heq⟩ := h _ _ hstep
      cases heq
  | done r =>
      have hstep : (S.atomic ι).step a (t, .ret r)
          (a.move t a.shared .idle) := by
        refine ⟨a.shared, .idle, ?_, rfl⟩
        change S.Move a.shared (a.threads t) (.ret r) a.shared .idle
        rw [ht]
        exact .ret a.shared r
      obtain ⟨t', op', heq⟩ := h _ _ hstep
      cases heq

end SeqObject

/-! ## Calls in a history -/

section History

variable {V ι G κ L Op Res : Type*} [DecidableEq ι]

/-- The last action of `t` is the start of a call. -/
def inCall (t : ι) (h : List (ι × Act Op Res)) : Bool :=
  h.foldl (fun b a => if a.1 = t then a.2 matches .call _ else b) false

theorem inCall_snoc (t u : ι) (h : List (ι × Act Op Res)) (act : Act Op Res) :
    inCall t (h ++ [(u, act)]) =
      if u = t then (act matches .call _ : Bool) else inCall t h := by
  simp [inCall]

/-- A thread of the atomic object that is not idle is in a call, and a return
ends a call. -/
theorem inCall_atomic {S : SeqObject V Op Res} {tr : List (ι × Act Op Res)}
    {a : Pool ι V (Phase Op Res)} (hrun : (S.atomic ι).Run tr a) :
    (∀ t, inCall t (tr.filterMap SeqObject.seen) ↔ a.threads t ≠ .idle) ∧
      ∀ h t r, tr.filterMap SeqObject.seen = h ++ [(t, .ret r)] →
        inCall t h := by
  refine Lts.Run.induction (P := fun tr a =>
    (∀ t, inCall t (tr.filterMap SeqObject.seen) ↔ a.threads t ≠ .idle) ∧
      ∀ h t r, tr.filterMap SeqObject.seen = h ++ [(t, .ret r)] →
        inCall t h) ?_ ?_ hrun
  · refine ⟨fun t => ?_, by simp⟩
    simp [inCall, SeqObject.atomic, Pool.lts]
  · rintro tr a ⟨u, act⟩ a' - ⟨hphase, hret⟩ ⟨q, ph, hmove, rfl⟩
    change S.Move a.shared (a.threads u) act q ph at hmove
    generalize hu : a.threads u = ph₀ at hmove
    have hother : ∀ {t}, t ≠ u →
        (inCall t (tr.filterMap SeqObject.seen) ↔
          (a.move u q ph).threads t ≠ .idle) := by
      intro t htu
      rw [Pool.move_threads_of_ne _ _ _ htu]
      exact hphase t
    rw [List.filterMap_append]
    cases hmove with
    | call op =>
        refine ⟨fun t => ?_, fun h t r heq => ?_⟩
        · change inCall t (_ ++ [(u, .call op)]) ↔ _
          rw [inCall_snoc]
          by_cases htu : t = u
          · simp [htu]
          · rw [if_neg (Ne.symm htu)]
            exact hother htu
        · have hlast := List.append_inj_right' heq rfl
          simp [SeqObject.seen] at hlast
    | effect happly =>
        refine ⟨fun t => ?_, fun h t r heq => ?_⟩
        · change inCall t (_ ++ []) ↔ _
          rw [List.append_nil]
          by_cases htu : t = u
          · subst htu
            simp [hphase, hu]
          · exact hother htu
        · change tr.filterMap SeqObject.seen ++ [] = _ at heq
          rw [List.append_nil] at heq
          exact hret h t r heq
    | ret r =>
        refine ⟨fun t => ?_, fun h t r' heq => ?_⟩
        · change inCall t (_ ++ [(u, .ret r)]) ↔ _
          rw [inCall_snoc]
          by_cases htu : t = u
          · simp [htu]
          · rw [if_neg (Ne.symm htu)]
            exact hother htu
        · change tr.filterMap SeqObject.seen ++ [(u, .ret r)] = _ at heq
          obtain ⟨rfl, hlast⟩ := List.append_inj' heq rfl
          obtain ⟨rfl, -⟩ := Prod.mk.inj (List.singleton_inj.mp hlast)
          rw [hphase, hu]
          simp

/-- A thread is in a call when it waits for the return of one. -/
theorem inCall_clients {P : Program ι G κ L Op Res}
    {tr : List (ι × (κ ⊕ Act Op Res))} {c : Pool ι G (Client L)}
    (hrun : P.clients.Run tr c) (t : ι) :
    inCall t (tr.filterMap Program.visible) ↔
      ∃ l, c.threads t = .calling l := by
  refine Lts.Run.induction (P := fun tr c =>
    inCall t (tr.filterMap Program.visible) ↔ ∃ l, c.threads t = .calling l)
    ?_ ?_ hrun
  · simp [inCall, Program.clients]
  · rintro tr c ⟨u, act⟩ c' - ih ⟨g, cl, hmove, rfl⟩
    change P.Move c.shared (c.threads u) act g cl at hmove
    rw [List.filterMap_append]
    generalize hu : c.threads u = cl₀ at hmove
    cases hmove with
    | @call l op k g h =>
        change inCall t (_ ++ [(u, .call op)]) ↔ _
        rw [inCall_snoc]
        by_cases htu : t = u
        · simp [htu]
        · rw [if_neg (Ne.symm htu), ih, Pool.move_threads_of_ne _ _ _ htu]
    | ret g r h =>
        change inCall t (_ ++ [(u, .ret r)]) ↔ _
        rw [inCall_snoc]
        by_cases htu : t = u
        · simp [htu]
        · rw [if_neg (Ne.symm htu), ih, Pool.move_threads_of_ne _ _ _ htu]
    | own g x h =>
        change inCall t (_ ++ []) ↔ _
        rw [List.append_nil, ih]
        by_cases htu : t = u
        · subst htu
          simp [hu]
        · rw [Pool.move_threads_of_ne _ _ _ htu]

end History

/-! ## Every call in one step -/

namespace Program

variable {ι G κ L Op Res : Type*} {P : Program ι G κ L Op Res}

theorem visible_snoc_own (ctr : List (ι × (κ ⊕ Act Op Res))) (t : ι) (x : κ) :
    (ctr ++ [(t, Sum.inl x)]).filterMap visible = ctr.filterMap visible := by
  simp [visible]

theorem visible_snoc_act (ctr : List (ι × (κ ⊕ Act Op Res))) (t : ι)
    (act : Act Op Res) : (ctr ++ [(t, Sum.inr act)]).filterMap visible =
      ctr.filterMap visible ++ [(t, act)] := by
  simp [visible]

/-- A thread, its call, the local state it will have when its call has returned,
and the result it will be returned. -/
inductive Place (P : Program ι G κ L Op Res) :
    Phase Op Res → Client L → L → List Res → Prop
  | running (l : L) : Place P .idle (.running l) l []
  | pending {l : L} {op : Op} {k : Res → L} (h : P.next l = .call op k) :
      Place P (.pending op) (.calling l) l []
  | done {l : L} {op : Op} {k : Res → L} (r : Res) (h : P.next l = .call op k) :
      Place P (.done r) (.calling l) (k r) [r]

theorem Place.of_idle {ph : Phase Op Res}
    {cl : Client L} {l : L} {rs : List Res} (h : P.Place ph cl l rs)
    (hph : ph = .idle) : cl = .running l ∧ rs = [] := by
  cases h with
  | running => exact ⟨rfl, rfl⟩
  | pending | done => cases hph

theorem Place.of_pending {ph : Phase Op Res}
    {cl : Client L} {l : L} {rs : List Res} {op : Op} (h : P.Place ph cl l rs)
    (hph : ph = .pending op) :
    cl = .calling l ∧ rs = [] ∧ ∃ k, P.next l = .call op k := by
  cases h with
  | running | done => cases hph
  | pending hnext =>
      cases hph
      exact ⟨rfl, rfl, _, hnext⟩

theorem Place.of_running {ph : Phase Op Res}
    {cl : Client L} {l l' : L} {rs : List Res} (h : P.Place ph cl l rs)
    (hcl : cl = .running l') : ph = .idle ∧ l = l' ∧ rs = [] := by
  cases h with
  | running =>
      cases hcl
      exact ⟨rfl, rfl, rfl⟩
  | pending | done => cases hcl

theorem Place.of_calling {ph : Phase Op Res}
    {cl : Client L} {l l' : L} {rs : List Res} (h : P.Place ph cl l rs)
    (hcl : cl = .calling l') : ∃ op k, P.next l' = .call op k := by
  cases h with
  | running => cases hcl
  | pending hnext | done _ hnext =>
      cases hcl
      exact ⟨_, _, hnext⟩

theorem Place.of_done {ph : Phase Op Res}
    {cl : Client L} {l l' : L} {rs : List Res} {op : Op} {k : Res → L} {r : Res}
    (h : P.Place ph cl l rs) (hph : ph = .done r) (hcl : cl = .calling l')
    (hnext : P.next l' = .call op k) : l = k r ∧ rs = [r] := by
  cases h with
  | running | pending => cases hph
  | done r' hnext' =>
      cases hph
      cases hcl
      rw [hnext] at hnext'
      obtain ⟨-, rfl⟩ := Next.call.inj hnext'
      exact ⟨rfl, rfl⟩

end Program

section Direct

variable {V ι G κ L Op Res : Type*} [DecidableEq ι]

/-- What a return returns. -/
def Act.result? : Act Op Res → Option Res
  | .ret r => some r
  | .call _ | .effect => none

/-- What the calls of `t` returned, in order. -/
def returns (t : ι) (h : List (ι × Act Op Res)) : List Res :=
  h.filterMap fun a => if a.1 = t then a.2.result? else none

/-- What the calls of `t` had as results, in order. -/
def results (t : ι) (tr : List (ι × (κ ⊕ Op × Res))) : List Res :=
  tr.filterMap fun a =>
    if a.1 = t then a.2.elim (fun _ => none) (fun c => some c.2) else none

/-- The number of steps of `t`. -/
def turns {E : Type*} (t : ι) (tr : List (ι × E)) : ℕ :=
  tr.countP fun a => a.1 = t

theorem turns_snoc {E : Type*} (t u : ι) (tr : List (ι × E)) (e : E) :
    turns t (tr ++ [(u, e)]) = turns t tr + if u = t then 1 else 0 := by
  simp [turns, List.countP_append, List.countP_cons]

theorem sum_turns [Fintype ι] {E : Type*} (tr : List (ι × E)) :
    ∑ t, turns t tr = tr.length := by
  induction tr using List.reverseRecOn with
  | nil => simp [turns]
  | append_singleton tr a ih =>
      obtain ⟨u, e⟩ := a
      simp only [turns_snoc, Finset.sum_add_distrib, ih, Finset.sum_ite_eq,
        Finset.mem_univ, if_true, List.length_append, List.length_singleton]

theorem returns_snoc (t u : ι) (h : List (ι × Act Op Res)) (act : Act Op Res) :
    returns t (h ++ [(u, act)]) =
      returns t h ++ if u = t then act.result?.toList else [] := by
  rw [returns, List.filterMap_append]
  congr 1
  split_ifs with hut <;> cases act <;> simp [hut, Act.result?]

theorem results_snoc_own (t u : ι) (tr : List (ι × (κ ⊕ Op × Res))) (c : κ) :
    results t (tr ++ [(u, .inl c)]) = results t tr := by
  simp [results]

theorem results_snoc_call (t u : ι) (tr : List (ι × (κ ⊕ Op × Res))) (op : Op)
    (r : Res) :
    results t (tr ++ [(u, .inr (op, r))]) =
      results t tr ++ if u = t then [r] else [] := by
  rw [results, List.filterMap_append]
  congr 1
  split_ifs with hut <;> simp [hut]

namespace Program

/-- How far the steps of a thread may be ahead of twice its calls. -/
def lead : Phase Op Res → ℕ
  | .idle => 1
  | .pending _ => 2
  | .done _ => 0

/-- The thread `t` after `tr` stands where it will after `ctr` when its call has
returned. -/
structure Seat (P : Program ι G κ L Op Res) (t : ι)
    (ctr : List (ι × (κ ⊕ Act Op Res))) (tr : List (ι × (κ ⊕ Op × Res)))
    (ph : Phase Op Res) (cl : Client L) (l : L) : Prop where
  place : ∃ rs, P.Place ph cl l rs ∧
    results t tr = returns t (ctr.filterMap visible) ++ rs
  steps : turns t ctr + 1 ≤ 2 * turns t tr + lead ph

section Seat

variable {P : Program ι G κ L Op Res} {t u : ι}
  {ctr : List (ι × (κ ⊕ Act Op Res))} {tr : List (ι × (κ ⊕ Op × Res))}
  {ph : Phase Op Res} {cl : Client L} {l l' : L}

theorem Seat.other_client (h : P.Seat t ctr tr ph cl l) (hne : u ≠ t)
    (e : κ ⊕ Act Op Res) : P.Seat t (ctr ++ [(u, e)]) tr ph cl l := by
  obtain ⟨⟨rs, hplace, hres⟩, hsteps⟩ := h
  refine ⟨⟨rs, hplace, ?_⟩, ?_⟩
  · cases e with
    | inl x => rwa [visible_snoc_own]
    | inr act =>
        rwa [visible_snoc_act, returns_snoc, if_neg hne, List.append_nil]
  · rwa [turns_snoc, if_neg hne]

theorem Seat.other_call (h : P.Seat t ctr tr ph cl l) (hne : u ≠ t)
    (e : κ ⊕ Op × Res) : P.Seat t ctr (tr ++ [(u, e)]) ph cl l := by
  obtain ⟨⟨rs, hplace, hres⟩, hsteps⟩ := h
  refine ⟨⟨rs, hplace, ?_⟩, ?_⟩
  · cases e with
    | inl x => rwa [results_snoc_own]
    | inr e => rwa [results_snoc_call, if_neg hne, List.append_nil]
  · rwa [turns_snoc, if_neg hne]

theorem Seat.effect {op : Op} (h : P.Seat t ctr tr ph cl l)
    (hph : ph = .pending op) (r : Res) :
    ∃ k, P.next l = .call op k ∧
      P.Seat t ctr (tr ++ [(t, .inr (op, r))]) (.done r) cl (k r) := by
  obtain ⟨⟨rs, hplace, hres⟩, hsteps⟩ := h
  obtain ⟨rfl, rfl, k, hnext⟩ := hplace.of_pending hph
  refine ⟨k, hnext, ⟨[r], .done r hnext, ?_⟩, ?_⟩
  · rw [results_snoc_call, if_pos rfl, hres, List.append_nil]
  · rw [turns_snoc, if_pos rfl]
    simp only [hph, lead] at hsteps ⊢
    omega

theorem Seat.own {f : G → κ → G × L} (h : P.Seat t ctr tr ph cl l)
    (hcl : cl = .running l') (g : G) (x : κ) :
    l = l' ∧ P.Seat t (ctr ++ [(t, .inl x)]) (tr ++ [(t, .inl x)]) ph
      (.running (f g x).2) (f g x).2 := by
  obtain ⟨⟨rs, hplace, hres⟩, hsteps⟩ := h
  obtain ⟨rfl, hl, rfl⟩ := hplace.of_running hcl
  refine ⟨hl, ⟨[], .running _, ?_⟩, ?_⟩
  · rwa [visible_snoc_own, results_snoc_own]
  · rw [turns_snoc, turns_snoc, if_pos rfl]
    omega

theorem Seat.call {op : Op} {k : Res → L} (h : P.Seat t ctr tr ph cl l)
    (hph : ph = .idle) (hcl : cl = .running l')
    (hnext : P.next l' = .call op k) :
    P.Seat t (ctr ++ [(t, .inr (.call op))]) tr (.pending op) (.calling l')
      l := by
  obtain ⟨⟨rs, hplace, hres⟩, hsteps⟩ := h
  obtain ⟨-, rfl, rfl⟩ := hplace.of_running hcl
  refine ⟨⟨[], .pending hnext, ?_⟩, ?_⟩
  · rw [visible_snoc_act, returns_snoc, if_pos rfl, hres]
    simp [Act.result?]
  · rw [turns_snoc, if_pos rfl]
    simp only [hph, lead] at hsteps ⊢
    omega

theorem Seat.ret {op : Op} {k : Res → L} {r : Res}
    (h : P.Seat t ctr tr ph cl l) (hph : ph = .done r) (hcl : cl = .calling l')
    (hnext : P.next l' = .call op k) :
    P.Seat t (ctr ++ [(t, .inr (.ret r))]) tr .idle (.running (k r)) l := by
  obtain ⟨⟨rs, hplace, hres⟩, hsteps⟩ := h
  obtain ⟨rfl, rfl⟩ := hplace.of_done hph hcl hnext
  refine ⟨⟨[], .running _, ?_⟩, ?_⟩
  · rw [visible_snoc_act, returns_snoc, if_pos rfl, hres]
    simp [Act.result?]
  · rw [turns_snoc, if_pos rfl]
    simp only [hph, lead] at hsteps ⊢
    omega

end Seat

/-- The threads after `tr` stand where those after `ctr` will when their calls
have returned. -/
structure Ahead (P : Program ι G κ L Op Res) (ctr : List (ι × (κ ⊕ Act Op Res)))
    (a : Pool ι V (Phase Op Res)) (c : Pool ι G (Client L))
    (tr : List (ι × (κ ⊕ Op × Res))) (s : Pool ι (V × G) L) : Prop where
  shared : s.shared = (a.shared, c.shared)
  seat : ∀ t, P.Seat t ctr tr (a.threads t) (c.threads t) (s.threads t)

variable {S : SeqObject V Op Res} {P : Program ι G κ L Op Res}

/-- One step of the programs on the atomic object, case by case. -/
inductive Joint (P : Program ι G κ L Op Res) (S : SeqObject V Op Res)
    (a : Pool ι V (Phase Op Res)) (c : Pool ι G (Client L)) (t : ι) :
    Option (ι × (κ ⊕ Act Op Res)) → Pool ι V (Phase Op Res) →
      Pool ι G (Client L) → Prop
  | effect {op : Op} {r : Res} {q : V} (ht : a.threads t = .pending op)
      (h : S.apply a.shared op r q) :
      Joint P S a c t none (a.move t q (.done r)) c
  | own {l : L} {f : G → κ → G × L} (x : κ) (hc : c.threads t = .running l)
      (h : P.next l = .own f) :
      Joint P S a c t (some (t, .inl x)) a
        (c.move t (f c.shared x).1 (.running (f c.shared x).2))
  | call {l : L} {op : Op} {k : Res → L} (ht : a.threads t = .idle)
      (hc : c.threads t = .running l) (h : P.next l = .call op k) :
      Joint P S a c t (some (t, .inr (.call op)))
        (a.move t a.shared (.pending op)) (c.move t c.shared (.calling l))
  | ret {l : L} {op : Op} {k : Res → L} {r : Res}
      (ht : a.threads t = .done r) (hc : c.threads t = .calling l)
      (h : P.next l = .call op k) :
      Joint P S a c t (some (t, .inr (.ret r))) (a.move t a.shared .idle)
        (c.move t c.shared (.running (k r)))

theorem joint_of_step {a a' : Pool ι V (Phase Op Res)}
    {c c' : Pool ι G (Client L)}
    {lab : Option (ι × Act Op Res) × Option (ι × (κ ⊕ Act Op Res))}
    (h : (P.on (S.atomic ι) SeqObject.seen).step (a, c) lab (a', c')) :
    ∃ t, P.Joint S a c t lab.2 a' c' := by
  cases h with
  | @left _ _ _ x h hx =>
      obtain ⟨t, act⟩ := x
      obtain ⟨q, ph, hmove, rfl⟩ := h
      change S.Move a.shared (a.threads t) act q ph at hmove
      generalize hph : a.threads t = ph₀ at hmove
      cases hmove with
      | call | ret => cases hx
      | effect happly => exact ⟨_, .effect hph happly⟩
  | @right _ _ _ b h hb =>
      obtain ⟨t, act⟩ := b
      obtain ⟨g, cl, hmove, rfl⟩ := h
      change P.Move c.shared (c.threads t) act g cl at hmove
      generalize hcl : c.threads t = cl₀ at hmove
      cases hmove with
      | call | ret => cases hb
      | own _ x hnext => exact ⟨_, .own x hcl hnext⟩
  | @both _ _ _ _ x b _ h h' hx hb =>
      obtain ⟨t, act⟩ := x
      obtain ⟨u, act'⟩ := b
      obtain ⟨q, ph, hmove, rfl⟩ := h
      obtain ⟨g, cl, hmove', rfl⟩ := h'
      change S.Move a.shared (a.threads t) act q ph at hmove
      change P.Move c.shared (c.threads u) act' g cl at hmove'
      generalize hph : a.threads t = ph₀ at hmove
      generalize hcl : c.threads u = cl₀ at hmove'
      cases hmove with
      | effect => cases hx
      | call op =>
          obtain rfl := Option.some.inj hx
          cases hmove' with
          | own => cases hb
          | call _ hnext =>
              cases hb
              exact ⟨_, .call hph hcl hnext⟩
          | ret => cases hb
      | ret r =>
          obtain rfl := Option.some.inj hx
          cases hmove' with
          | own => cases hb
          | call => cases hb
          | ret _ r' hnext =>
              cases hb
              exact ⟨_, .ret hph hcl hnext⟩

/-- One step of the programs is one step on the object itself or none. -/
theorem Ahead.joint {ctr : List (ι × (κ ⊕ Act Op Res))}
    {a a' : Pool ι V (Phase Op Res)} {c c' : Pool ι G (Client L)}
    {tr : List (ι × (κ ⊕ Op × Res))} {s : Pool ι (V × G) L} {t : ι}
    {lab : Option (ι × (κ ⊕ Act Op Res))} (hahead : P.Ahead ctr a c tr s)
    (hrun : (P.direct S).Run tr s) (hjoint : P.Joint S a c t lab a' c') :
    ∃ tr' s', (P.direct S).Run tr' s' ∧
      P.Ahead (ctr ++ lab.toList) a' c' tr' s' := by
  obtain ⟨hshared, hseat⟩ := hahead
  cases hjoint with
  | @effect op r q ht happly =>
      obtain ⟨k, hnext, hself⟩ := (hseat t).effect ht r
      refine ⟨tr ++ [(t, .inr (op, r))], s.move t (q, c.shared) (k r),
        hrun.tail ⟨_, _, ?_, rfl⟩, rfl, fun u => ?_⟩
      · rw [hshared]
        exact .call c.shared hnext happly
      · rw [Option.toList_none, List.append_nil]
        by_cases hut : u = t
        · subst hut
          rwa [Pool.move_threads_self, Pool.move_threads_self]
        · rw [Pool.move_threads_of_ne _ _ _ hut,
            Pool.move_threads_of_ne _ _ _ hut]
          exact (hseat u).other_call (Ne.symm hut) _
  | @own l f x hc hnext =>
      obtain ⟨hl, hself⟩ := (hseat t).own (f := f) hc c.shared x
      refine ⟨tr ++ [(t, .inl x)],
        s.move t (a.shared, (f c.shared x).1) (f c.shared x).2,
        hrun.tail ⟨_, _, ?_, rfl⟩, rfl, fun u => ?_⟩
      · rw [hshared, hl]
        exact .own a.shared c.shared x hnext
      · by_cases hut : u = t
        · subst hut
          rwa [Pool.move_threads_self, Pool.move_threads_self]
        · rw [Pool.move_threads_of_ne _ _ _ hut,
            Pool.move_threads_of_ne _ _ _ hut]
          exact ((hseat u).other_client (Ne.symm hut) _).other_call
            (Ne.symm hut) _
  | @call l op k ht hc hnext =>
      refine ⟨tr, s, hrun, hshared, fun u => ?_⟩
      by_cases hut : u = t
      · subst hut
        rw [Pool.move_threads_self, Pool.move_threads_self]
        exact (hseat u).call ht hc hnext
      · rw [Pool.move_threads_of_ne _ _ _ hut,
          Pool.move_threads_of_ne _ _ _ hut]
        exact (hseat u).other_client (Ne.symm hut) _
  | @ret l op k r ht hc hnext =>
      refine ⟨tr, s, hrun, hshared, fun u => ?_⟩
      by_cases hut : u = t
      · subst hut
        rw [Pool.move_threads_self, Pool.move_threads_self]
        exact (hseat u).ret ht hc hnext
      · rw [Pool.move_threads_of_ne _ _ _ hut,
          Pool.move_threads_of_ne _ _ _ hut]
        exact (hseat u).other_client (Ne.symm hut) _

/-- The programs on the atomic object stand where a run on the object itself
leads. -/
theorem direct_of_run
    {tr : List (Option (ι × Act Op Res) × Option (ι × (κ ⊕ Act Op Res)))}
    {p : Pool ι V (Phase Op Res) × Pool ι G (Client L)}
    (hrun : (P.on (S.atomic ι) SeqObject.seen).Run tr p) :
    ∃ tr' s, (P.direct S).Run tr' s ∧
      P.Ahead (tr.filterMap Prod.snd) p.1 p.2 tr' s := by
  refine Lts.Run.induction (P := fun tr p => ∃ tr' s, (P.direct S).Run tr' s ∧
    P.Ahead (tr.filterMap Prod.snd) p.1 p.2 tr' s)
    ?_ ?_ hrun
  · exact ⟨[], _, Lts.Run.init, rfl,
      fun t => ⟨⟨[], .running _, rfl⟩, le_rfl⟩⟩
  · rintro tr ⟨a, c⟩ lab ⟨a', c'⟩ - ⟨tr', s, hdirect, hahead⟩ hstep
    obtain ⟨t, hjoint⟩ := joint_of_step hstep
    obtain ⟨tr'', s', hdirect', hahead'⟩ := hahead.joint hdirect hjoint
    refine ⟨tr'', s', hdirect', ?_⟩
    rw [List.filterMap_append]
    have hlab : [lab].filterMap Prod.snd = lab.2.toList := by
      cases hl : lab.2 <;> simp [hl]
    rwa [hlab]

/-- So do the programs on any implementation, whichever order explains the
calls. -/
theorem exists_direct {σ α : Type*} {M : Lts σ α}
    {shows : α → Option (ι × Act Op Res)}
    {tr : List (Option α × Option (ι × (κ ⊕ Act Op Res)))} {m : σ}
    {c : Pool ι G (Client L)} (hrun : (P.on M shows).Run tr (m, c))
    {a : Pool ι V (Phase Op Res)}
    (ha : S.Explains ((tr.filterMap Prod.snd).filterMap visible) a) :
    ∃ tr' s, (P.direct S).Run tr' s ∧
      P.Ahead (tr.filterMap Prod.snd) a c tr' s := by
  obtain ⟨-, hclients, -⟩ := Lts.runs_of_sync hrun
  obtain ⟨tr', ha, hsame⟩ := ha
  obtain ⟨joint, hjoint, -, hsnd⟩ :=
    Lts.sync_of_runs (g := visible) ha hclients hsame
  have hdirect := direct_of_run (P := P) hjoint
  rwa [hsnd] at hdirect

/-- The threads take no more than twice the steps. -/
theorem Ahead.length_le [Fintype ι] {ctr : List (ι × (κ ⊕ Act Op Res))}
    {a : Pool ι V (Phase Op Res)} {c : Pool ι G (Client L)}
    {tr : List (ι × (κ ⊕ Op × Res))} {s : Pool ι (V × G) L}
    (h : P.Ahead ctr a c tr s) :
    ctr.length ≤ 2 * tr.length + Fintype.card ι := by
  have hone : ∀ t ∈ Finset.univ, turns t ctr ≤ 2 * turns t tr + 1 := by
    intro t _
    have ht := (h.seat t).steps
    have hlead : lead (a.threads t) ≤ 2 := by
      cases a.threads t <;> simp [lead]
    omega
  have hsum := Finset.sum_le_sum hone
  rw [Finset.sum_add_distrib, ← Finset.mul_sum, sum_turns, sum_turns] at hsum
  simpa using hsum

/-- A thread that is in no call stands where its calls taken in one step have
led it. -/
theorem Ahead.of_running {ctr : List (ι × (κ ⊕ Act Op Res))}
    {a : Pool ι V (Phase Op Res)} {c : Pool ι G (Client L)}
    {tr : List (ι × (κ ⊕ Op × Res))} {s : Pool ι (V × G) L}
    (h : P.Ahead ctr a c tr s) {t : ι} {l : L}
    (ht : c.threads t = .running l) :
    s.threads t = l ∧ results t tr = returns t (ctr.filterMap visible) := by
  obtain ⟨rs, hplace, hres⟩ := (h.seat t).place
  obtain ⟨-, hl, rfl⟩ := hplace.of_running ht
  rw [List.append_nil] at hres
  exact ⟨hl, hres⟩

/-- The operations that a thread comes to call. -/
def Calls (P : Program ι G κ L Op Res) (S : SeqObject V Op Res) (t : ι)
    (op : Op) : Prop :=
  ∃ tr s k, (P.direct S).Run tr s ∧ P.next (s.threads t) = .call op k

/-- On the implementation `M` of the object the threads take at most `bound`
steps, and until all of them have finished some step is possible, of the
implementation as well as of the object itself.  Then `Done` holds of their
calls, of the threads, and of the object, in whatever order the calls took
effect. -/
def EndsOn (P : Program ι G κ L Op Res) (S : SeqObject V Op Res)
    (Done : List (ι × Act Op Res) → (ι → Client L) → V → Prop) (bound : ℕ)
    {σ α : Type*} (M : Lts σ α) (shows : α → Option (ι × Act Op Res)) : Prop :=
  ∀ tr m c, (P.on M shows).Run tr (m, c) →
    let h := (tr.filterMap Prod.snd).filterMap visible
    (tr.filterMap Prod.snd).length ≤ bound ∧
    ((∃ t, ¬P.Finished (c.threads t)) →
      (∃ lab p, (P.on M shows).step (m, c) lab p) ∧
      ∀ a, S.Explains h a →
        ∃ lab p, (P.on (S.atomic ι) SeqObject.seen).step (a, c) lab p) ∧
    ((∀ t, P.Finished (c.threads t)) →
      ∀ a, S.Explains h a → Done h c.threads a.shared)

/-- The threads come to their end, within one bound, on every implementation of
the object that takes the calls they make and waits only where the object
does. -/
def Ends.{u, v} (P : Program ι G κ L Op Res) (S : SeqObject V Op Res)
    (Done : List (ι × Act Op Res) → (ι → Client L) → V → Prop) : Prop :=
  ∃ bound, ∀ {σ : Type u} {α : Type v} {M : Lts σ α}
    {shows : α → Option (ι × Act Op Res)}, S.Blocking (P.Calls S) M shows →
    P.EndsOn S Done bound M shows

/-! ## Where nothing can go on -/

/-- The thread is about to call an operation that has no result on `q`. -/
def Waits (P : Program ι G κ L Op Res) (S : SeqObject V Op Res) (q : V)
    (l : L) : Prop :=
  ∃ op k, P.next l = .call op k ∧ ∀ r q', ¬S.apply q op r q'

/-- A thread whose call is to return waits for it. -/
theorem calling_of_ret {σ α : Type*} {M : Lts σ α}
    {shows : α → Option (ι × Act Op Res)} (hM : S.Linearizable M shows)
    {tr : List (Option α × Option (ι × (κ ⊕ Act Op Res)))} {m m' : σ}
    {c : Pool ι G (Client L)} (hrun : (P.on M shows).Run tr (m, c)) {x : α}
    {t : ι} {r : Res} (hstep : M.step m x m')
    (hx : shows x = some (t, .ret r)) : ∃ l, c.threads t = .calling l := by
  obtain ⟨hMrun, hclients, hshown⟩ := Lts.runs_of_sync hrun
  obtain ⟨tr', a, ha, hsame, -⟩ := hM _ _ (hMrun.tail hstep)
  rw [List.filterMap_append, List.filterMap_cons_some hx, List.filterMap_nil]
    at hsame
  rw [← inCall_clients hclients t]
  exact hshown ▸ (inCall_atomic ha).2 _ t r hsame

/-- An implementation shows starts and returns only. -/
theorem not_shows_effect {σ α : Type*} {M : Lts σ α}
    {shows : α → Option (ι × Act Op Res)} (hM : S.Linearizable M shows)
    {tr : List α} {m m' : σ} (hrun : M.Run tr m) {x : α} {t : ι}
    (hstep : M.step m x m') : shows x ≠ some (t, .effect) := by
  intro hx
  obtain ⟨tr', a, -, hsame, -⟩ := hM _ _ (hrun.tail hstep)
  rw [List.filterMap_append, List.filterMap_cons_some hx, List.filterMap_nil]
    at hsame
  have hmem : (t, Act.effect) ∈ tr'.filterMap SeqObject.seen := by
    rw [hsame]
    exact List.mem_append_right _ (List.mem_singleton_self _)
  obtain ⟨⟨u, act⟩, -, hact⟩ := List.mem_filterMap.mp hmem
  cases act with
  | effect => cases hact
  | call | ret => simp [SeqObject.seen] at hact

/-- Where the programs and the implementation can take no step, every thread
has finished or waits for the object. -/
theorem waits_of_stuck [Nonempty κ] {σ α : Type*} {M : Lts σ α}
    {shows : α → Option (ι × Act Op Res)} (hM : S.Blocking (P.Calls S) M shows)
    {tr : List (Option α × Option (ι × (κ ⊕ Act Op Res)))} {m : σ}
    {c : Pool ι G (Client L)} (hrun : (P.on M shows).Run tr (m, c))
    (hstuck : ∀ lab p, ¬(P.on M shows).step (m, c) lab p) :
    ∃ tr' s, (P.direct S).Run tr' s ∧ ∀ t,
      P.Finished (c.threads t) ∧ P.next (s.threads t) = .stop ∨
        P.Waits S s.shared.1 (s.threads t) := by
  obtain ⟨hMrun, -, hshown⟩ := Lts.runs_of_sync hrun
  obtain ⟨trA, a, ha, hsame, haccepts, hwaits⟩ := hM _ _ hMrun
  obtain ⟨tr', s, hdirect, hshared, hseat⟩ :=
    exists_direct hrun ⟨trA, ha, hsame.trans hshown⟩
  have honly : SeqObject.OnlyCalls M shows m := by
    intro x m' hstep
    cases hx : shows x with
    | none => exact absurd (.left hstep hx) (hstuck _ _)
    | some b =>
        obtain ⟨t, act⟩ := b
        cases act with
        | call op => exact ⟨t, op, rfl⟩
        | effect => exact absurd hx (not_shows_effect hM.linearizable hMrun hstep)
        | ret r =>
            obtain ⟨l, hl⟩ := calling_of_ret hM.linearizable hrun hstep hx
            obtain ⟨rs, hself, -⟩ := (hseat t).place
            obtain ⟨op, k, hnext⟩ := hself.of_calling hl
            have hclient : P.clients.step c (t, .inr (.ret r))
                (c.move t c.shared (.running (k r))) :=
              ⟨_, _, hl ▸ .ret c.shared r hnext, rfl⟩
            exact absurd (.both hstep hclient hx rfl) (hstuck _ _)
  refine ⟨tr', s, hdirect, fun t => ?_⟩
  obtain ⟨rs, hself, -⟩ := (hseat t).place
  rcases (hwaits honly).atomic t with hidle | ⟨op, hpending, hblocked⟩
  · obtain ⟨hcl, -⟩ := hself.of_idle hidle
    cases hnext : P.next (s.threads t) with
    | call op k =>
        obtain ⟨x, m', hstep, hx⟩ := haccepts t op ⟨tr', s, k, hdirect, hnext⟩ hidle
        have hclient : P.clients.step c (t, .inr (.call op))
            (c.move t c.shared (.calling (s.threads t))) :=
          ⟨_, _, hcl ▸ .call c.shared hnext, rfl⟩
        exact absurd (.both hstep hclient hx rfl) (hstuck _ _)
    | own f =>
        obtain ⟨input⟩ := ‹Nonempty κ›
        have hclient : P.clients.step c (t, .inl input)
            (c.move t (f c.shared input).1
              (.running (f c.shared input).2)) :=
          ⟨_, _, hcl ▸ .own c.shared input hnext, rfl⟩
        exact absurd (.right hclient rfl) (hstuck _ _)
    | stop => exact Or.inl ⟨⟨_, hcl, hnext⟩, rfl⟩
  · obtain ⟨-, -, k, hnext⟩ := hself.of_pending hpending
    refine Or.inr ⟨op, k, hnext, ?_⟩
    rw [hshared]
    exact hblocked

/-! ## Invariants of one thread -/

/-- What a program keeps of its local state and the results it had so far. -/
theorem local_induction {I : L → List Res → Prop} {t : ι}
    (hinit : I (P.init t) [])
    (hown : ∀ l f g x rs, P.next l = .own f → I l rs → I (f g x).2 rs)
    (hcall : ∀ l op k q r q' rs, P.next l = .call op k → S.apply q op r q' →
      I l rs → I (k r) (rs ++ [r]))
    {tr : List (ι × (κ ⊕ Op × Res))} {s : Pool ι (V × G) L}
    (hrun : (P.direct S).Run tr s) : I (s.threads t) (results t tr) := by
  refine Lts.Run.induction (P := fun tr s => I (s.threads t) (results t tr))
    hinit ?_ hrun
  rintro tr s ⟨u, e⟩ s' - ih ⟨p, l, hturn, rfl⟩
  change P.Turn S s.shared (s.threads u) e p l at hturn
  generalize hu : s.threads u = l₀ at hturn
  generalize s.shared = p₀ at hturn
  cases hturn with
  | @call q q' l op r k g h happly =>
      rw [results_snoc_call]
      by_cases hut : u = t
      · subst hut
        rw [if_pos rfl, Pool.move_threads_self]
        exact hcall _ _ _ _ _ _ _ h happly (hu ▸ ih)
      · rw [if_neg hut, List.append_nil,
          Pool.move_threads_of_ne _ _ _ (Ne.symm hut)]
        exact ih
  | own q g x h =>
      rw [results_snoc_own]
      by_cases hut : u = t
      · subst hut
        rw [Pool.move_threads_self]
        exact hown _ _ _ _ _ h (hu ▸ ih)
      · rw [Pool.move_threads_of_ne _ _ _ (Ne.symm hut)]
        exact ih

/-- The same beside any implementation, whatever the results: a thread is in a
call or has come back with the results of its calls. -/
theorem client_induction {I : L → List Res → Prop} {t : ι}
    (hinit : I (P.init t) [])
    (hown : ∀ l f g x rs, P.next l = .own f → I l rs → I (f g x).2 rs)
    (hret : ∀ l op k r rs, P.next l = .call op k → I l rs → I (k r) (rs ++ [r]))
    {tr : List (ι × (κ ⊕ Act Op Res))} {c : Pool ι G (Client L)}
    (hrun : P.clients.Run tr c) :
    ∃ l, I l (returns t (tr.filterMap visible)) ∧
      (c.threads t = .running l ∨
        c.threads t = .calling l ∧ ∃ op k, P.next l = .call op k) := by
  refine Lts.Run.induction (P := fun tr c =>
    ∃ l, I l (returns t (tr.filterMap visible)) ∧
      (c.threads t = .running l ∨
        c.threads t = .calling l ∧ ∃ op k, P.next l = .call op k))
    ⟨_, hinit, Or.inl rfl⟩ ?_ hrun
  rintro tr c ⟨u, act⟩ c' - ⟨l, hI, hl⟩ ⟨g, cl, hmove, rfl⟩
  change P.Move c.shared (c.threads u) act g cl at hmove
  by_cases hut : u = t
  · subst hut
    rw [Pool.move_threads_self]
    generalize c.threads u = cl₀ at hmove hl
    cases hmove with
    | call _ hnext =>
        rcases hl with hl | ⟨hl, -⟩ <;> cases hl
        refine ⟨l, ?_, Or.inr ⟨rfl, _, _, hnext⟩⟩
        rw [visible_snoc_act, returns_snoc, if_pos rfl]
        exact (List.append_nil (returns u _)).symm ▸ hI
    | ret _ r hnext =>
        rcases hl with hl | ⟨hl, -⟩ <;> cases hl
        refine ⟨_, ?_, Or.inl rfl⟩
        rw [visible_snoc_act, returns_snoc, if_pos rfl]
        exact hret _ _ _ r _ hnext hI
    | own _ x hnext =>
        rcases hl with hl | ⟨hl, -⟩ <;> cases hl
        rw [visible_snoc_own]
        exact ⟨_, hown _ _ _ x _ hnext hI, Or.inl rfl⟩
  · rw [Pool.move_threads_of_ne _ _ _ (Ne.symm hut)]
    refine ⟨l, ?_, hl⟩
    cases act with
    | inl x => rwa [visible_snoc_own]
    | inr act =>
        rwa [visible_snoc_act, returns_snoc, if_neg hut, List.append_nil]

/-- What the code of the second group keeps. -/
theorem groups_induction {ι ι' L' : Type*} [DecidableEq ι] [DecidableEq ι']
    {memory : G} {first : L} {code : L → Next G κ L Op Res} {first' : L'}
    {code' : L' → Next G κ L' Op Res} {I : L' → List Res → Prop}
    (hinit : I first' [])
    (hown : ∀ l f g x rs, code' l = .own f → I l rs → I (f g x).2 rs)
    (hcall : ∀ l op k q r q' rs, code' l = .call op k → S.apply q op r q' →
      I l rs → I (k r) (rs ++ [r]))
    {tr : List ((ι ⊕ ι') × (κ ⊕ Op × Res))} {s : Pool (ι ⊕ ι') (V × G) (L ⊕ L')}
    (hrun : ((Program.groups ι ι' memory first code first' code').direct
      S).Run tr s) (t : ι') :
    ∃ l, s.threads (.inr t) = .inr l ∧ I l (results (.inr t) tr) := by
  refine local_induction (t := .inr t)
    (I := fun l rs => ∃ l', l = .inr l' ∧ I l' rs) ?_ ?_ ?_ hrun
  · exact ⟨first', rfl, hinit⟩
  · rintro _ f g x rs hnext ⟨l, rfl, hI⟩
    obtain ⟨f', hcode, rfl⟩ := Next.own_of_map hnext
    exact ⟨_, rfl, hown l f' g x rs hcode hI⟩
  · rintro _ op k q r q' rs hnext happly ⟨l, rfl, hI⟩
    obtain ⟨k', hcode, rfl⟩ := Next.call_of_map hnext
    exact ⟨_, rfl, hcall l op k' q r q' rs hcode happly hI⟩

/-- A thread stays in the code of its group, -/
theorem groups_side {ι ι' L' : Type*} [DecidableEq ι] [DecidableEq ι']
    {memory : G} {first : L} {code : L → Next G κ L Op Res} {first' : L'}
    {code' : L' → Next G κ L' Op Res}
    {tr : List ((ι ⊕ ι') × (κ ⊕ Op × Res))} {s : Pool (ι ⊕ ι') (V × G) (L ⊕ L')}
    (hrun : ((Program.groups ι ι' memory first code first' code').direct
      S).Run tr s) (t : ι ⊕ ι') :
    t.elim (fun _ => ∃ l, s.threads t = .inl l)
      fun _ => ∃ l, s.threads t = .inr l := by
  cases t with
  | inl t =>
      refine local_induction (t := .inl t) (I := fun l _ => ∃ l', l = .inl l')
        ⟨first, rfl⟩ ?_ ?_ hrun
      · rintro _ f g x rs hnext ⟨l, rfl⟩
        obtain ⟨f', -, rfl⟩ := Next.own_of_map hnext
        exact ⟨_, rfl⟩
      · rintro _ op k q r q' rs hnext - ⟨l, rfl⟩
        obtain ⟨k', -, rfl⟩ := Next.call_of_map hnext
        exact ⟨_, rfl⟩
  | inr t =>
      obtain ⟨l, hl, -⟩ := groups_induction (I := fun _ _ => True) trivial
        (fun _ _ _ _ _ _ _ => trivial) (fun _ _ _ _ _ _ _ _ _ _ => trivial)
        hrun t
      exact ⟨l, hl⟩

/-- and calls what this code calls. -/
theorem calls_groups {ι ι' L' : Type*} [DecidableEq ι] [DecidableEq ι']
    {memory : G} {first : L} {code : L → Next G κ L Op Res} {first' : L'}
    {code' : L' → Next G κ L' Op Res} {t : ι ⊕ ι'} {op : Op}
    (h : (Program.groups ι ι' memory first code first' code').Calls S t op) :
    t.elim (fun _ => ∃ l k, code l = .call op k)
      fun _ => ∃ l k, code' l = .call op k := by
  obtain ⟨tr, s, k, hrun, hnext⟩ := h
  have hside := groups_side hrun t
  cases t with
  | inl t =>
      obtain ⟨l, hl⟩ := hside
      rw [hl] at hnext
      obtain ⟨k', hcode, -⟩ := Next.call_of_map hnext
      exact ⟨l, k', hcode⟩
  | inr t =>
      obtain ⟨l, hl⟩ := hside
      rw [hl] at hnext
      obtain ⟨k', hcode, -⟩ := Next.call_of_map hnext
      exact ⟨l, k', hcode⟩

/-! ## Calls that do not overlap -/

/-- The threads of the atomic object with no call in progress. -/
def restingObject (s : Pool ι (V × G) L) : Pool ι V (Phase Op Res) :=
  ⟨s.shared.1, fun _ => .idle⟩

/-- The threads of the programs with no call in progress. -/
def restingClients (s : Pool ι (V × G) L) : Pool ι G (Client L) :=
  ⟨s.shared.2, fun t => .running (s.threads t)⟩

theorem restingObject_move (s : Pool ι (V × G) L) (t : ι) (p : V × G) (l : L) :
    (restingObject (s.move t p l) : Pool ι V (Phase Op Res)) =
      (restingObject s).move t p.1 .idle := by
  simp only [restingObject, Pool.move, Pool.mk.injEq, true_and]
  exact (Function.update_eq_self t _).symm

theorem restingClients_move (s : Pool ι (V × G) L) (t : ι) (p : V × G) (l : L) :
    restingClients (s.move t p l) =
      (restingClients s).move t p.2 (.running l) := by
  simp only [restingClients, Pool.move, Pool.mk.injEq, true_and]
  funext u
  by_cases hu : u = t
  · subst hu
    simp
  · simp [hu]

/-- A call in one step is its start, its effect and its return. -/
theorem resting_path {s s' : Pool ι (V × G) L} {a : ι × (κ ⊕ Op × Res)}
    (hstep : (P.direct S).step s a s') :
    ∃ tr, (P.on (S.atomic ι) SeqObject.seen).Path
        (restingObject s, restingClients s) tr
        (restingObject s', restingClients s') ∧
      Stamps.inputs (tr.filterMap Prod.snd) = Stamps.inputs [a] := by
  obtain ⟨t, e⟩ := a
  obtain ⟨⟨q, g⟩, l, hturn, rfl⟩ := hstep
  rw [restingObject_move, restingClients_move]
  change P.Turn S (s.shared.1, s.shared.2) (s.threads t) e (q, g) l at hturn
  cases hturn with
  | own _ _ x hnext =>
      refine ⟨[(none, some (t, .inl x))], Lts.Path.single ?_, rfl⟩
      have hsame : (restingObject s : Pool ι V (Phase Op Res)).move t
          s.shared.1 .idle = restingObject s := Pool.move_self _ t
      rw [hsame]
      exact .right ⟨_, _, .own _ x hnext, rfl⟩ rfl
  | @call _ _ _ op r k _ hnext happly =>
      have hstart : (P.on (S.atomic ι) SeqObject.seen).step
          (restingObject s, restingClients s)
          (some (t, .call op), some (t, .inr (.call op)))
          ((restingObject s).move t s.shared.1 (.pending op),
            (restingClients s).move t s.shared.2 (.calling (s.threads t))) :=
        .both ⟨_, _, .call _ op, rfl⟩ ⟨_, _, .call _ hnext, rfl⟩ rfl rfl
      have heffect : (P.on (S.atomic ι) SeqObject.seen).step
          ((restingObject s).move t s.shared.1 (.pending op),
            (restingClients s).move t s.shared.2 (.calling (s.threads t)))
          (some (t, .effect), none)
          (((restingObject s).move t q (.done r)),
            (restingClients s).move t s.shared.2 (.calling (s.threads t))) := by
        refine .left ⟨q, .done r, ?_, (Pool.move_move ..).symm⟩ rfl
        rw [Pool.move_threads_self]
        exact .effect happly
      have hret : (P.on (S.atomic ι) SeqObject.seen).step
          (((restingObject s).move t q (.done r)),
            (restingClients s).move t s.shared.2 (.calling (s.threads t)))
          (some (t, .ret r), some (t, .inr (.ret r)))
          ((restingObject s).move t q .idle,
            (restingClients s).move t s.shared.2 (.running (k r))) := by
        refine .both ⟨q, .idle, ?_, (Pool.move_move ..).symm⟩
          ⟨s.shared.2, .running (k r), ?_, (Pool.move_move ..).symm⟩ rfl rfl
        · rw [Pool.move_threads_self]
          exact .ret q r
        · rw [Pool.move_threads_self]
          exact .ret _ r hnext
      exact ⟨_, ((Lts.Path.single hstart).tail heffect).tail hret, rfl⟩

/-- A run on the object itself is a run on the atomic object. -/
theorem run_of_direct {tr : List (ι × (κ ⊕ Op × Res))} {s : Pool ι (V × G) L}
    (hrun : (P.direct S).Run tr s) :
    ∃ tr', (P.on (S.atomic ι) SeqObject.seen).Run tr'
        (restingObject s, restingClients s) ∧
      Stamps.inputs (tr'.filterMap Prod.snd) = Stamps.inputs tr := by
  refine Lts.Run.induction (P := fun tr s =>
    ∃ tr', (P.on (S.atomic ι) SeqObject.seen).Run tr'
        (restingObject s, restingClients s) ∧
      Stamps.inputs (tr'.filterMap Prod.snd) = Stamps.inputs tr) ?_ ?_ hrun
  · exact ⟨[], Lts.Run.init, rfl⟩
  · rintro tr s a s' - ⟨tr', hrun', hins⟩ hstep
    obtain ⟨last, hpath, hlast⟩ := resting_path hstep
    refine ⟨tr' ++ last, Lts.Path.trans hrun' hpath, ?_⟩
    rw [List.filterMap_append]
    simp only [Stamps.inputs, List.filterMap_append] at hins hlast ⊢
    rw [hins, hlast]

/-! ## Executable runs -/

/-- The next step of a thread on the atomic object, `apply` computing its
operations and `x` being the input. -/
def play (P : Program ι G κ L Op Res) (apply : V → Op → Option (Res × V))
    (p : Pool ι V (Phase Op Res) × Pool ι G (Client L)) (c : ι × κ) :
    Option ((Option (ι × Act Op Res) × Option (ι × (κ ⊕ Act Op Res))) ×
      (Pool ι V (Phase Op Res) × Pool ι G (Client L))) :=
  let (a, cs) := p
  let (t, x) := c
  match a.threads t, cs.threads t with
  | .idle, .running l =>
      match P.next l with
      | .call op _ =>
          some ((some (t, .call op), some (t, .inr (.call op))),
            (a.move t a.shared (.pending op), cs.move t cs.shared (.calling l)))
      | .own f =>
          some ((none, some (t, .inl x)),
            (a, cs.move t (f cs.shared x).1 (.running (f cs.shared x).2)))
      | .stop => none
  | .pending op, _ =>
      (apply a.shared op).map fun r =>
        ((some (t, .effect), none), (a.move t r.2 (.done r.1), cs))
  | .done r, .calling l =>
      match P.next l with
      | .call _ k =>
          some ((some (t, .ret r), some (t, .inr (.ret r))),
            (a.move t a.shared .idle, cs.move t cs.shared (.running (k r))))
      | .own _ | .stop => none
  | _, _ => none

theorem step_of_play {apply : V → Op → Option (Res × V)}
    (happly : ∀ q op r q', apply q op = some (r, q') → S.apply q op r q')
    {p p' : Pool ι V (Phase Op Res) × Pool ι G (Client L)} {c : ι × κ}
    {lab : Option (ι × Act Op Res) × Option (ι × (κ ⊕ Act Op Res))}
    (h : P.play apply p c = some (lab, p')) :
    (P.on (S.atomic ι) SeqObject.seen).step p lab p' := by
  obtain ⟨a, cs⟩ := p
  obtain ⟨t, x⟩ := c
  have hobject : ∀ {ph act q ph'}, a.threads t = ph →
      S.Move a.shared ph act q ph' →
        (S.atomic ι).step a (t, act) (a.move t q ph') := by
    rintro _ act q ph' rfl hmove
    exact ⟨q, ph', hmove, rfl⟩
  have hclient : ∀ {cl act g cl'}, cs.threads t = cl →
      P.Move cs.shared cl act g cl' →
        P.clients.step cs (t, act) (cs.move t g cl') := by
    rintro _ act g cl' rfl hmove
    exact ⟨g, cl', hmove, rfl⟩
  simp only [play] at h
  split at h
  next l ha hc =>
    split at h
    next op k hnext =>
      obtain ⟨rfl, rfl⟩ := Prod.mk.inj (Option.some.inj h)
      exact .both (hobject ha (.call _ op)) (hclient hc (.call _ hnext)) rfl rfl
    next f hnext =>
      obtain ⟨rfl, rfl⟩ := Prod.mk.inj (Option.some.inj h)
      exact .right (hclient hc (.own _ x hnext)) rfl
    next => cases h
  next op ha =>
    obtain ⟨r, hr, heq⟩ := Option.map_eq_some_iff.mp h
    obtain ⟨rfl, rfl⟩ := Prod.mk.inj heq
    exact .left (hobject ha (.effect (happly _ _ _ _ hr))) rfl
  next r l ha hc =>
    split at h
    next op k hnext =>
      obtain ⟨rfl, rfl⟩ := Prod.mk.inj (Option.some.inj h)
      exact .both (hobject ha (.ret _ r)) (hclient hc (.ret _ r hnext)) rfl rfl
    next => cases h
    next => cases h
  next => cases h

theorem run_of_play {apply : V → Op → Option (Res × V)}
    (happly : ∀ q op r q', apply q op = some (r, q') → S.apply q op r q')
    {p : Pool ι V (Phase Op Res) × Pool ι G (Client L)} {cs : List (ι × κ)}
    {tr : List (Option (ι × Act Op Res) × Option (ι × (κ ⊕ Act Op Res)))}
    (h : Lts.exec (P.play apply)
      (P.on (S.atomic ι) SeqObject.seen).init cs = some (tr, p)) :
    (P.on (S.atomic ι) SeqObject.seen).Run tr p :=
  Lts.path_of_exec (fun _ _ _ _ hplay => step_of_play happly hplay) h

end Program
end Direct

end ConcurrentQueues
