import ConcurrentQueues.Support.Pool
import Mathlib.Data.ENat.Basic

/-!
# Atomic objects and the bounded FIFO queue

A sequential object says which results an operation may have on an abstract
value.  Its atomic object is the system in which any number of threads call
operations, every call takes effect at one instant between its start and its
return, and a call whose operation is not enabled waits.  A concurrent system
whose starts, effects and returns form a run of the atomic object is
linearizable, with the instants shown as linearization points.
-/

namespace ConcurrentQueues

universe u v w x

/-- A sequential object: `apply q op r q'` lets `op` turn `q` into `q'` with
result `r`.  An operation with no result on `q` is blocked there. -/
structure SeqObject (V : Type u) (Op : Type v) (Res : Type w) where
  init : V
  apply : V → Op → Res → V → Prop

/-- Where a thread stands in a call on an atomic object. -/
inductive Phase (Op : Type v) (Res : Type w)
  | idle
  | pending (op : Op)
  | done (r : Res)

/-- The steps of a call on an atomic object. -/
inductive Act (Op : Type v) (Res : Type w)
  | call (op : Op)
  | effect
  | ret (r : Res)

namespace SeqObject

variable {V : Type u} {Op : Type v} {Res : Type w}

/-- One step of one thread of the atomic object. -/
inductive Move (S : SeqObject V Op Res) :
    V → Phase Op Res → Act Op Res → V → Phase Op Res → Prop
  | call (q : V) (op : Op) : Move S q .idle (.call op) q (.pending op)
  | effect {q q' : V} {op : Op} {r : Res} (h : S.apply q op r q') :
      Move S q (.pending op) .effect q' (.done r)
  | ret (q : V) (r : Res) : Move S q (.done r) (.ret r) q .idle

/-- The atomic object of `S` for threads named by `ι`. -/
def atomic (S : SeqObject V Op Res) (ι : Type x) [DecidableEq ι] :
    Lts (Pool ι V (Phase Op Res)) (ι × Act Op Res) :=
  Pool.lts ι S.Move S.init .idle

/-- Each step of `M` shows at most one step of the atomic object of `S`, and
along every run of `M` the steps shown form a run of the atomic object. -/
def Linearizes {σ : Type*} {α : Type*} {ι : Type x} [DecidableEq ι]
    (S : SeqObject V Op Res) (M : Lts σ α)
    (shows : α → Option (ι × Act Op Res))
    (R : List α → σ → Pool ι V (Phase Op Res) → Prop) : Prop :=
  ∀ tr s, M.Run tr s →
    ∃ a, (S.atomic ι).Run (tr.filterMap shows) a ∧ R tr s a

/-- A system linearizes when a relation with the atomic object survives every
step, the object moving along with the steps that show something. -/
theorem linearizes_of_simulation {σ : Type*} {α : Type*} {ι : Type x}
    [DecidableEq ι] {S : SeqObject V Op Res} {M : Lts σ α}
    {shows : α → Option (ι × Act Op Res)}
    {R : List α → σ → Pool ι V (Phase Op Res) → Prop}
    (hinit : R [] M.init (S.atomic ι).init)
    (hsilent : ∀ tr s a s' o, M.Run tr s → R tr s o → M.step s a s' →
      shows a = none → R (tr ++ [a]) s' o)
    (hshown : ∀ tr s a s' o t act, M.Run tr s → R tr s o → M.step s a s' →
      shows a = some (t, act) →
        ∃ q ph, S.Move o.shared (o.threads t) act q ph ∧
          R (tr ++ [a]) s' (o.move t q ph)) :
    S.Linearizes M shows R := by
  intro tr s hrun
  obtain ⟨tr', o, hrun', htr, hR⟩ :=
    Lts.simulation (A := S.atomic ι) (f := shows) (g := some)
      (fun _ => True) R (fun _ _ _ => trivial) hinit
      (by
        intro tr s a s' o hrun _ hR hstep
        cases ha : shows a with
        | none =>
            exact ⟨o, Lts.Matches.stay o, hsilent tr s a s' o hrun hR hstep ha⟩
        | some b =>
            obtain ⟨q, ph, hmove, hR'⟩ :=
              hshown tr s a s' o b.1 b.2 hrun hR hstep ha
            exact ⟨o.move b.1 q ph,
              Lts.Matches.step (A := S.atomic ι) (g := some)
                ⟨q, ph, hmove, rfl⟩, hR'⟩)
      hrun trivial
  rw [List.filterMap_some] at htr
  exact ⟨o, htr ▸ hrun', hR⟩

/-- What callers see of a step of an atomic object: starts and returns. -/
def seen {ι : Type x} : ι × Act Op Res → Option (ι × Act Op Res)
  | (_, .effect) => none
  | a => some a

/-- The starts and returns of every run of `M` are those of a run of the atomic
object of `S`, whose effects may stand anywhere between them. -/
def Implements {σ : Type*} {α : Type*} {ι : Type x} [DecidableEq ι]
    (S : SeqObject V Op Res) (M : Lts σ α)
    (shows : α → Option (ι × Act Op Res))
    (R : List α → σ → Pool ι V (Phase Op Res) → Prop) : Prop :=
  ∀ tr s, M.Run tr s →
    ∃ tr' a, (S.atomic ι).Run tr' a ∧
      tr'.filterMap seen = tr.filterMap shows ∧ R tr s a

theorem implements_of_simulation {σ : Type*} {α : Type*} {ι : Type x}
    [DecidableEq ι] {S : SeqObject V Op Res} {M : Lts σ α}
    {shows : α → Option (ι × Act Op Res)}
    {R : List α → σ → Pool ι V (Phase Op Res) → Prop}
    (hinit : R [] M.init (S.atomic ι).init)
    (hstep : ∀ tr s a s' o, M.Run tr s → R tr s o → M.step s a s' →
      ∃ o', (S.atomic ι).Matches seen o (shows a) o' ∧ R (tr ++ [a]) s' o') :
    S.Implements M shows R := by
  intro tr s hrun
  exact Lts.simulation (fun _ => True) R (fun _ _ _ => trivial) hinit
    (fun tr s a s' o hrun _ hR h => hstep tr s a s' o hrun hR h) hrun trivial

/-- The same for the runs whose trace is admitted. -/
def ImplementsWhile {σ : Type*} {α : Type*} {ι : Type x} [DecidableEq ι]
    (S : SeqObject V Op Res) (M : Lts σ α) (Ok : List α → Prop)
    (shows : α → Option (ι × Act Op Res))
    (R : List α → σ → Pool ι V (Phase Op Res) → Prop) : Prop :=
  ∀ tr s, M.Run tr s → Ok tr →
    ∃ tr' a, (S.atomic ι).Run tr' a ∧
      tr'.filterMap seen = tr.filterMap shows ∧ R tr s a

theorem implementsWhile_of_simulation {σ : Type*} {α : Type*} {ι : Type x}
    [DecidableEq ι] {S : SeqObject V Op Res} {M : Lts σ α}
    {Ok : List α → Prop} {shows : α → Option (ι × Act Op Res)}
    {R : List α → σ → Pool ι V (Phase Op Res) → Prop}
    (hearlier : ∀ tr a, Ok (tr ++ [a]) → Ok tr)
    (hinit : R [] M.init (S.atomic ι).init)
    (hstep : ∀ tr s a s' o, M.Run tr s → Ok (tr ++ [a]) → R tr s o →
      M.step s a s' →
        ∃ o', (S.atomic ι).Matches seen o (shows a) o' ∧ R (tr ++ [a]) s' o') :
    S.ImplementsWhile M Ok shows R :=
  fun _ _ hrun hok => Lts.simulation Ok R hearlier hinit hstep hrun hok

end SeqObject

/-! ## The bounded FIFO queue -/

namespace Fifo

/-- The operations of a concurrent queue. -/
inductive Op (T : Type u)
  | push (item : T)
  | tryPush (item : T)
  | pop
  | tryPop
  deriving DecidableEq

/-- Operations that wait where they cannot succeed. -/
def Op.blocks {T : Type u} : Op T → Bool
  | .push _ | .pop => true
  | .tryPush _ | .tryPop => false

/-- Operations that take an item out of the queue. -/
def Op.takes {T : Type u} : Op T → Bool
  | .pop | .tryPop => true
  | .push _ | .tryPush _ => false

/-- The item an operation puts into the queue. -/
def Op.item? {T : Type u} : Op T → Option T
  | .push x | .tryPush x => some x
  | .pop | .tryPop => none

/-- The results of a concurrent queue: what a push returns, and the item a
pop delivers, if it delivers one. -/
inductive Res (T : Type u)
  | pushed (b : Bool)
  | popped (item : Option T)
  deriving DecidableEq

/-- The operations on the list of unread items, oldest first.  `push` and
`pop` have no result, and so wait, where `tryPush` and `tryPop` fail. -/
inductive Apply {T : Type u} (cap : ℕ∞) :
    List T → Op T → Res T → List T → Prop
  | push {q : List T} {x : T} (h : (q.length : ℕ∞) < cap) :
      Apply cap q (.push x) (.pushed true) (q ++ [x])
  | tryPush {q : List T} {x : T} (h : (q.length : ℕ∞) < cap) :
      Apply cap q (.tryPush x) (.pushed true) (q ++ [x])
  | full {q : List T} {x : T} (h : (q.length : ℕ∞) = cap) :
      Apply cap q (.tryPush x) (.pushed false) q
  | pop {q : List T} {x : T} : Apply cap (x :: q) .pop (.popped (some x)) q
  | tryPop {q : List T} {x : T} :
      Apply cap (x :: q) .tryPop (.popped (some x)) q
  | empty : Apply cap [] .tryPop (.popped none) []

/-- The operations as functions, where they are not blocked. -/
def call {T : Type u} (cap : ℕ) (q : List T) : Op T → Option (Res T × List T)
  | .push x =>
      if q.length < cap then some (.pushed true, q ++ [x]) else none
  | .tryPush x =>
      if q.length < cap then some (.pushed true, q ++ [x])
      else some (.pushed false, q)
  | .pop =>
      match q with
      | [] => none
      | x :: q' => some (.popped (some x), q')
  | .tryPop =>
      match q with
      | [] => some (.popped none, [])
      | x :: q' => some (.popped (some x), q')

/-- On a queue within its capacity, `call` is the operation, and has no result
where the operation is blocked. -/
theorem call_eq_some_iff {T : Type u} {cap : ℕ} {q q' : List T} {op : Op T}
    {r : Res T} (hq : q.length ≤ cap) :
    call cap q op = some (r, q') ↔ Apply cap q op r q' := by
  constructor
  · intro h
    cases op with
    | push x =>
        by_cases hlt : q.length < cap
        · simp only [call, if_pos hlt, Option.some.injEq, Prod.mk.injEq] at h
          obtain ⟨rfl, rfl⟩ := h
          exact .push (by exact_mod_cast hlt)
        · simp [call, hlt] at h
    | tryPush x =>
        by_cases hlt : q.length < cap
        · simp only [call, if_pos hlt, Option.some.injEq, Prod.mk.injEq] at h
          obtain ⟨rfl, rfl⟩ := h
          exact .tryPush (by exact_mod_cast hlt)
        · simp only [call, if_neg hlt, Option.some.injEq, Prod.mk.injEq] at h
          obtain ⟨rfl, rfl⟩ := h
          exact .full (by exact_mod_cast (by omega : q.length = cap))
    | pop =>
        cases q with
        | nil => cases h
        | cons x q =>
            obtain ⟨rfl, rfl⟩ := Prod.mk.inj (Option.some.inj h)
            exact .pop
    | tryPop =>
        cases q with
        | nil =>
            obtain ⟨rfl, rfl⟩ := Prod.mk.inj (Option.some.inj h)
            exact .empty
        | cons x q =>
            obtain ⟨rfl, rfl⟩ := Prod.mk.inj (Option.some.inj h)
            exact .tryPop
  · intro h
    cases h with
    | push hlt | tryPush hlt =>
        exact if_pos (by exact_mod_cast hlt)
    | full heq =>
        have hlen : q.length = cap := by exact_mod_cast heq
        exact if_neg (by omega)
    | pop | tryPop | empty => rfl

/-- The FIFO queue that holds at most `cap` items. -/
def object (T : Type u) (cap : ℕ∞) : SeqObject (List T) (Op T) (Res T) where
  init := []
  apply := Apply cap

end Fifo
end ConcurrentQueues
