import ConcurrentQueues.Support.Pool

/-!
# One producer and one consumer

A duo is a shared state together with the local states of two threads that run
different programs.  One step of a duo is one move of one of the two, labelled
with its side.
-/

namespace ConcurrentQueues

universe u v w x

/-- The two threads of a duo. -/
inductive Side
  | producer
  | consumer
  deriving DecidableEq

/-- A shared state and the local states of one producer and one consumer. -/
structure Duo (Q : Type u) (P : Type v) (C : Type w) where
  shared : Q
  producer : P
  consumer : C

namespace Duo

variable {Q : Type u} {P : Type v} {C : Type w} {E : Type x}

/-- A move of one side, which leaves the other where it is. -/
inductive Step (mvP : Q → P → E → Q → P → Prop)
    (mvC : Q → C → E → Q → C → Prop) :
    Duo Q P C → Side × E → Duo Q P C → Prop
  | producer {q q' : Q} {p p' : P} {c : C} {e : E} (h : mvP q p e q' p') :
      Step mvP mvC ⟨q, p, c⟩ (.producer, e) ⟨q', p', c⟩
  | consumer {q q' : Q} {p : P} {c c' : C} {e : E} (h : mvC q c e q' c') :
      Step mvP mvC ⟨q, p, c⟩ (.consumer, e) ⟨q', p, c'⟩

/-- The system of all interleavings of the two threads. -/
def lts (mvP : Q → P → E → Q → P → Prop) (mvC : Q → C → E → Q → C → Prop)
    (q₀ : Q) (p₀ : P) (c₀ : C) : Lts (Duo Q P C) (Side × E) where
  init := ⟨q₀, p₀, c₀⟩
  step := Step mvP mvC

section Executable

variable {κ κ' : Type*} {mvP : Q → P → κ → Option (E × Q × P)}
  {mvC : Q → C → κ' → Option (E × Q × C)} {q₀ : Q} {p₀ : P} {c₀ : C}

/-- Deterministic moves with the choices that resolve them, read as a step. -/
def next (mvP : Q → P → κ → Option (E × Q × P))
    (mvC : Q → C → κ' → Option (E × Q × C)) (s : Duo Q P C) :
    κ ⊕ κ' → Option ((Side × E) × Duo Q P C)
  | .inl k => (mvP s.shared s.producer k).map
      fun m => ((.producer, m.1), ⟨m.2.1, m.2.2, s.consumer⟩)
  | .inr k => (mvC s.shared s.consumer k).map
      fun m => ((.consumer, m.1), ⟨m.2.1, s.producer, m.2.2⟩)

theorem step_of_next {s s' : Duo Q P C} {k : κ ⊕ κ'} {a : Side × E}
    (h : next mvP mvC s k = some (a, s')) :
    Step (Pool.Moves mvP) (Pool.Moves mvC) s a s' := by
  cases k with
  | inl k =>
      obtain ⟨⟨e, q, p⟩, hmv, heq⟩ := Option.map_eq_some_iff.mp h
      obtain ⟨rfl, rfl⟩ := Prod.mk.injEq .. ▸ heq
      exact .producer ⟨k, hmv⟩
  | inr k =>
      obtain ⟨⟨e, q, c⟩, hmv, heq⟩ := Option.map_eq_some_iff.mp h
      obtain ⟨rfl, rfl⟩ := Prod.mk.injEq .. ▸ heq
      exact .consumer ⟨k, hmv⟩

theorem path_of_exec {s s' : Duo Q P C} {ks : List (κ ⊕ κ')}
    {tr : List (Side × E)}
    (h : Lts.exec (next mvP mvC) s ks = some (tr, s')) :
    (lts (Pool.Moves mvP) (Pool.Moves mvC) q₀ p₀ c₀).Path s tr s' :=
  Lts.path_of_exec (fun _ _ _ _ => step_of_next) h

theorem run_of_exec {s : Duo Q P C} {ks : List (κ ⊕ κ')}
    {tr : List (Side × E)}
    (h : Lts.exec (next mvP mvC) ⟨q₀, p₀, c₀⟩ ks = some (tr, s)) :
    (lts (Pool.Moves mvP) (Pool.Moves mvC) q₀ p₀ c₀).Run tr s :=
  path_of_exec h

end Executable

end Duo
end ConcurrentQueues
