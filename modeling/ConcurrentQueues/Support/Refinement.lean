import ConcurrentQueues.Support.Object

/-!
# Data refinement between sequential objects

A sequential object refines another when a relation between their values holds
initially and every operation of the first is one of the second, with the same
result.  The operations may then be called one after the other or by many
threads at once: the second object has the same runs.
-/

namespace ConcurrentQueues
namespace SeqObject

universe u v w x y

variable {V : Type u} {V' : Type y} {Op : Type v} {Res : Type w}

/-- The operations called one after the other, each with its result. -/
def sequential (S : SeqObject V Op Res) : Lts V (Op × Res) where
  init := S.init
  step q a q' := S.apply q a.1 a.2 q'

/-- Every operation of `S` is one of `S'` on the values that `rep` relates. -/
structure Refines (S : SeqObject V Op Res) (S' : SeqObject V' Op Res)
    (rep : V → V' → Prop) : Prop where
  init : rep S.init S'.init
  apply : ∀ {q q' : V} {v : V'} {op : Op} {r : Res}, rep q v →
    S.apply q op r q' → ∃ v', S'.apply v op r v' ∧ rep q' v'

variable {S : SeqObject V Op Res} {S' : SeqObject V' Op Res}
  {rep : V → V' → Prop}

theorem Refines.sequential_run (h : S.Refines S' rep)
    {tr : List (Op × Res)} {q : V} (hrun : S.sequential.Run tr q) :
    ∃ v, S'.sequential.Run tr v ∧ rep q v := by
  refine Lts.Run.induction
    (P := fun tr q => ∃ v, S'.sequential.Run tr v ∧ rep q v) ?_ ?_ hrun
  · exact ⟨S'.init, Lts.Run.init, h.init⟩
  · rintro tr q ⟨op, r⟩ q' - ⟨v, hrun', hrep⟩ hstep
    obtain ⟨v', happly, hrep'⟩ := h.apply hrep hstep
    exact ⟨v', hrun'.tail happly, hrep'⟩

/-- The threads on the two atomic objects stand at the same points. -/
theorem Refines.atomic_run {ι : Type x} [DecidableEq ι] (h : S.Refines S' rep)
    {tr : List (ι × Act Op Res)} {a : Pool ι V (Phase Op Res)}
    (hrun : (S.atomic ι).Run tr a) :
    ∃ v, (S'.atomic ι).Run tr ⟨v, a.threads⟩ ∧ rep a.shared v := by
  refine Lts.Run.induction (P := fun tr a =>
    ∃ v, (S'.atomic ι).Run tr ⟨v, a.threads⟩ ∧ rep a.shared v) ?_ ?_ hrun
  · exact ⟨S'.init, Lts.Run.init, h.init⟩
  · rintro tr a ⟨t, act⟩ a' - ⟨v, hrun', hrep⟩ ⟨q, ph, hmove, rfl⟩
    change S.Move a.shared (a.threads t) act q ph at hmove
    generalize hph : a.threads t = ph₀ at hmove
    cases hmove with
    | call op =>
        refine ⟨v, hrun'.tail ⟨v, _, ?_, rfl⟩, hrep⟩
        simp only [hph]
        exact .call v op
    | effect happly =>
        obtain ⟨v', happly', hrep'⟩ := h.apply hrep happly
        refine ⟨v', hrun'.tail ⟨v', _, ?_, rfl⟩, hrep'⟩
        simp only [hph]
        exact .effect happly'
    | ret r =>
        refine ⟨v, hrun'.tail ⟨v, _, ?_, rfl⟩, hrep⟩
        simp only [hph]
        exact .ret v r

/-- A system that implements an object implements each object it refines. -/
theorem Implements.refine {σ : Type*} {α : Type*} {ι : Type x} [DecidableEq ι]
    {M : Lts σ α} {shows : α → Option (ι × Act Op Res)}
    {R : List α → σ → Pool ι V (Phase Op Res) → Prop}
    (hM : S.Implements M shows R) (h : S.Refines S' rep) :
    S'.Implements M shows fun tr s a =>
      ∃ q, R tr s ⟨q, a.threads⟩ ∧ rep q a.shared := by
  intro tr s hrun
  obtain ⟨tr', a, hrun', htr, hR⟩ := hM tr s hrun
  obtain ⟨v, hrun'', hrep⟩ := h.atomic_run hrun'
  exact ⟨tr', ⟨v, a.threads⟩, hrun'', htr, a.shared, hR, hrep⟩

end SeqObject

/-! ## FIFO queues with try calls that may fail -/

namespace Fifo

universe u

/-- The operations of the bounded FIFO queue, where a `tryPush` may fail at any
time if `push` holds and a `tryPop` if `pop` does. -/
inductive Hesitates {T : Type u} (cap : ℕ∞) (push pop : Prop) :
    List T → Op T → Res T → List T → Prop
  | apply {q q' : List T} {op : Op T} {r : Res T} (h : Apply cap q op r q') :
      Hesitates cap push pop q op r q'
  | refuse {q : List T} {x : T} (h : push) :
      Hesitates cap push pop q (.tryPush x) (.pushed false) q
  | miss {q : List T} (h : pop) :
      Hesitates cap push pop q .tryPop (.popped none) q

/-- The FIFO queue that holds at most `cap` items and may hesitate. -/
def hesitant (T : Type u) (cap : ℕ∞) (push pop : Prop) :
    SeqObject (List T) (Op T) (Res T) where
  init := []
  apply := Hesitates cap push pop

theorem hesitant_refines {T : Type u} {cap : ℕ∞} {push pop : Prop}
    (hpush : ¬push) (hpop : ¬pop) :
    (hesitant T cap push pop).Refines (object T cap) Eq where
  init := rfl
  apply := by
    rintro q q' v op r rfl h
    cases h with
    | apply h => exact ⟨q', h, rfl⟩
    | refuse h => exact absurd h hpush
    | miss h => exact absurd h hpop

end Fifo

end ConcurrentQueues
