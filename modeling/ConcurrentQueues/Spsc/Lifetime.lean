import ConcurrentQueues.Spsc.Model
import ConcurrentQueues.Support.Lifetimes

/-!
# Lifetimes of the items of `StdAtomicSPSCQueue`

The slots of `buffer_` are objects of the item type.  They are constructed with
the queue and destroyed with it.  In between, `push` constructs an item in its
slot by placement new and `pop` assigns from the slot; neither destroys what the
slot holds.
-/

namespace ConcurrentQueues

universe u

namespace Spsc

open Fifo Lifetimes

variable {T : Type u}

/-- What a step does with the object of a slot: placement new in `push`, the
assignment to the caller's variable in `pop`. -/
def slotActions (n : ℕ) (s : State T) : Side → List Action
  | .producer =>
      match s.producer with
      | .push _ _ (.inSlot tail) => [.construct (tail % n)]
      | _ => []
  | .consumer =>
      match s.consumer with
      | .pop _ _ (.inSlot head) => [.read (head % n)]
      | _ => []

/-- The queue with a record of what was done with the objects of its slots,
from the construction of the array on. -/
def StdAtomicSPSCQueue.tracked (S : SizeT) (n : ℕ) (T : Type u) :
    Lts (State T × List Action) (Side × Event T) where
  init := ((StdAtomicSPSCQueue.system S n T).init, constructArray n)
  step s a s' := (StdAtomicSPSCQueue.system S n T).step s.1 a s'.1 ∧
    s'.2 = s.2 ++ slotActions n s.1 a.1

/-- The same, executed. -/
def StdAtomicSPSCQueue.trackedNext (S : SizeT) (n : ℕ)
    (s : State T × List Action) (k : Option (OnFail × T) ⊕ Option OnFail) :
    Option ((Side × Event T) × State T × List Action) :=
  (Duo.next (produce S n (· = .testAgain)) (consume S n (· = .testAgain)) s.1
    k).map fun r => (r.1, r.2, s.2 ++ slotActions n s.1 r.1.1)

theorem StdAtomicSPSCQueue.tracked_run_of_exec {S : SizeT} {n : ℕ}
    {ks : List (Option (OnFail × T) ⊕ Option OnFail)}
    {tr : List (Side × Event T)} {s : State T × List Action}
    (h : Lts.exec (trackedNext S n) (tracked S n T).init ks = some (tr, s)) :
    (tracked S n T).Run tr s := by
  refine Lts.path_of_exec ?_ h
  intro s k a s' hnext
  obtain ⟨r, hstep, heq⟩ := Option.map_eq_some_iff.mp hnext
  obtain ⟨rfl, rfl⟩ := Prod.mk.inj heq
  exact ⟨Duo.step_of_next hstep, rfl⟩

/-- Neither a push nor a pop is going on. -/
def Settled (s : State T) : Prop :=
  s.producer = .idle ∧ s.consumer = .idle

/-- No call of `push` was made. -/
def NoPush (tr : List (Side × Event T)) : Prop :=
  ∀ item, (.producer, .call (.push item)) ∉ tr

/-- An action of a call on a slot of the ring. -/
def InRing (n : ℕ) (a : Action) : Prop :=
  ∃ i < n, a = .construct i ∨ a = .read i

/-- What was done since the construction: without a push only reads; after one,
the item was constructed or is about to be. -/
structure Record (n : ℕ) (tr : List (Side × Event T)) (s : State T)
    (acts : List Action) : Prop where
  in_ring : ∀ a ∈ acts, InRing n a
  idle_of_noPush : NoPush tr → s.producer = .idle ∧
    ∀ a ∈ acts, ∃ i < n, a = .read i
  constructs : ¬NoPush tr → (∃ i, .construct i ∈ acts) ∨
    ∃ item pc, s.producer = .push .testAgain item pc ∧ ∀ t, pc ≠ .store t
  blocks : ∀ f item pc, s.producer = .push f item pc → f = .testAgain

section Steps

variable {S : SizeT} {n : ℕ} {tr : List (Side × Event T)}
  {acts acts' : List Action}
  {q q' : Queue T} {p p' : Producer Pc T} {c c' : Consumer Pc T} {e : Event T}

theorem noPush_append_iff {side : Side} :
    NoPush (tr ++ [(side, e)]) ↔
      NoPush tr ∧ ∀ item, (side, e) ≠ (.producer, .call (.push item)) := by
  simp only [NoPush, List.mem_append, List.mem_singleton, not_or, forall_and]
  exact and_congr_right fun _ => forall_congr' fun _ => not_congr eq_comm

/-- After a push has begun something was or will be constructed. -/
theorem Record.begun (h : Record n tr ⟨q, p, c⟩ acts) (hp : p ≠ .idle) :
    (∃ i, .construct i ∈ acts) ∨
      ∃ item pc, p = .push .testAgain item pc ∧ ∀ t, pc ≠ .store t :=
  h.constructs fun hno => hp (h.idle_of_noPush hno).1

/-- A step of a push that has begun. -/
theorem Record.push (h : Record n tr ⟨q, p, c⟩ acts) (hp : p ≠ .idle)
    (hacts : ∀ a ∈ acts', InRing n a)
    (hnext : (∃ i, .construct i ∈ acts ++ acts') ∨
      ∃ item pc, p' = .push .testAgain item pc ∧ ∀ t, pc ≠ .store t)
    (hblocks : ∀ f item pc, p' = .push f item pc → f = .testAgain) :
    Record n (tr ++ [(.producer, e)]) ⟨q', p', c⟩ (acts ++ acts') where
  in_ring := by
    intro a ha
    rcases List.mem_append.mp ha with ha | ha
    · exact h.in_ring a ha
    · exact hacts a ha
  idle_of_noPush := by
    intro hno
    have hidle := (h.idle_of_noPush (noPush_append_iff.mp hno).1).1
    exact absurd hidle hp
  constructs := fun _ => hnext
  blocks := hblocks

/-- A step of a push that stays before the store of `tail_`. -/
theorem Record.advance {f : OnFail} {item : T} {pc pc' : Pc}
    (h : Record n tr ⟨q, .push f item pc, c⟩ acts)
    (hacts : ∀ a ∈ acts', InRing n a) (hpc : ∀ t, pc' ≠ .store t) :
    Record n (tr ++ [(.producer, e)]) ⟨q', .push f item pc', c⟩
      (acts ++ acts') := by
  have hf : f = .testAgain := h.blocks f item pc rfl
  refine h.push nofun hacts (Or.inr ⟨item, pc', by rw [hf], hpc⟩) ?_
  rintro f' item' pc'' heq
  cases heq
  exact hf

theorem Record.produce (hn : 0 < n) (h : Record n tr ⟨q, p, c⟩ acts)
    (hmove : PushMove S n (· = .testAgain) q p e q' p') :
    Record n (tr ++ [(.producer, e)]) ⟨q', p', c⟩
      (acts ++ slotActions n ⟨q, p, c⟩ .producer) := by
  cases hmove with
  | @call f item hf =>
      obtain rfl : f = .testAgain := by simpa using hf
      refine ⟨?_, ?_, fun _ => Or.inr ⟨item, .load, rfl, nofun⟩, ?_⟩
      · simpa [slotActions] using h.in_ring
      · exact fun hno => absurd rfl ((noPush_append_iff.mp hno).2 item)
      · rintro f' item' pc heq
        cases heq
        rfl
  | load | testFull | testRoom | refresh | retestRoom | enter =>
      exact h.advance nofun nofun
  | @retestFull f item t hfull =>
      obtain rfl : f = .testAgain := h.blocks f item _ rfl
      exact h.advance nofun nofun
  | @inSlot f item t =>
      have hf : f = .testAgain := h.blocks f item _ rfl
      refine h.push nofun ?_ (Or.inl ⟨t % n, by simp [slotActions]⟩) ?_
      · intro a ha
        obtain rfl := List.mem_singleton.mp ha
        exact ⟨t % n, Nat.mod_lt t hn, Or.inl rfl⟩
      · rintro f' item' pc heq
        cases heq
        exact hf
  | store =>
      refine h.push nofun nofun (Or.inl ?_) nofun
      rcases h.begun nofun with ⟨i, hi⟩ | ⟨item', pc, heq, hpc⟩
      · exact ⟨i, List.mem_append_left _ hi⟩
      · cases heq
        exact absurd rfl (hpc _)
  | ret =>
      refine h.push nofun nofun (Or.inl ?_) nofun
      rcases h.begun nofun with ⟨i, hi⟩ | ⟨item', pc, heq, hpc⟩
      · exact ⟨i, List.mem_append_left _ hi⟩
      · cases heq

theorem slotActions_consumer (hn : 0 < n) (s : State T) :
    ∀ a ∈ slotActions n s .consumer, ∃ i < n, a = .read i := by
  intro a ha
  rw [slotActions] at ha
  split at ha
  · rename_i head hc
    obtain rfl := List.mem_singleton.mp ha
    exact ⟨head % n, Nat.mod_lt head hn, rfl⟩
  · cases ha

theorem Record.consume (hn : 0 < n) (h : Record n tr ⟨q, p, c⟩ acts) :
    Record n (tr ++ [(.consumer, e)]) ⟨q', p, c'⟩
      (acts ++ slotActions n ⟨q, p, c⟩ .consumer) := by
  have hreads := slotActions_consumer hn ⟨q, p, c⟩
  have hno : NoPush (tr ++ [(.consumer, e)]) ↔ NoPush tr :=
    noPush_append_iff.trans (and_iff_left fun item => nofun)
  constructor
  · intro a ha
    rcases List.mem_append.mp ha with ha | ha
    · exact h.in_ring a ha
    · obtain ⟨i, hi, rfl⟩ := hreads a ha
      exact ⟨i, hi, Or.inr rfl⟩
  · intro hnone
    obtain ⟨hidle, hall⟩ := h.idle_of_noPush (hno.mp hnone)
    refine ⟨hidle, fun a ha => ?_⟩
    rcases List.mem_append.mp ha with ha | ha
    · exact hall a ha
    · exact hreads a ha
  · intro hsome
    rcases h.constructs (mt hno.mpr hsome) with ⟨i, hi⟩ | hbegun
    · exact Or.inl ⟨i, List.mem_append_left _ hi⟩
    · exact Or.inr hbegun
  · exact h.blocks

/-- The record of a run, after the construction of the array. -/
theorem record_of_run (hn : 0 < n) {s : State T × List Action}
    (hrun : (StdAtomicSPSCQueue.tracked S n T).Run tr s) :
    ∃ acts, s.2 = constructArray n ++ acts ∧ Record n tr s.1 acts := by
  refine Lts.Run.induction (P := fun tr s =>
    ∃ acts, s.2 = constructArray n ++ acts ∧ Record n tr s.1 acts) ?_ ?_ hrun
  · refine ⟨[], by simp [StdAtomicSPSCQueue.tracked], nofun, ?_, ?_, nofun⟩
    · exact fun _ => ⟨rfl, nofun⟩
    · exact fun hno => absurd (fun _ => List.not_mem_nil) hno
  · rintro tr ⟨s, l⟩ a ⟨s', l'⟩ - ⟨acts, rfl, h⟩ ⟨hstep, rfl⟩
    refine ⟨_, List.append_assoc _ _ _, ?_⟩
    cases hstep with
    | producer hmove => exact h.produce hn (pushMoves_iff.mp hmove)
    | consumer hmove => exact h.consume hn

end Steps

/-! ## The accounts of a run -/

/-- Over the life of the queue, from the construction of its array through a
run to its destruction, the accounts of its objects balance exactly if nothing
was pushed. -/
theorem lifetimes_balanced_iff {S : SizeT} {n : ℕ} (hn : 0 < n)
    {tr : List (Side × Event T)} {s : State T} {acts : List Action}
    (hrun : (StdAtomicSPSCQueue.tracked S n T).Run tr (s, acts))
    (hsettled : Settled s) :
    Balanced (acts ++ destroyArray n) ↔ NoPush tr := by
  obtain ⟨rest, rfl, h⟩ := record_of_run hn hrun
  have hcheck : check ∅ (constructArray n ++ rest ++ destroyArray n) =
      (check (Finset.range n) rest).bind fun live =>
        check live (destroyArray n) := by
    rw [List.append_assoc, check_append, check_constructArray,
      Option.bind_some, check_append]
  rw [Lifetimes.Balanced, hcheck]
  constructor
  · intro hbalanced
    by_contra hsome
    have hall : ∀ a ∈ rest, ∃ i ∈ Finset.range n,
        a = .construct i ∨ a = .read i := by
      intro a ha
      obtain ⟨i, hi, hact⟩ := h.in_ring a ha
      exact ⟨i, Finset.mem_range.mpr hi, hact⟩
    rcases h.constructs hsome with hnew | ⟨item, pc, hpush, -⟩
    · rw [check_construct hall hnew] at hbalanced
      cases hbalanced
    · rw [hsettled.1] at hpush
      cases hpush
  · intro hno
    have hall : ∀ a ∈ rest, ∃ i ∈ Finset.range n, a = .read i := by
      intro a ha
      obtain ⟨i, hi, hact⟩ := (h.idle_of_noPush hno).2 a ha
      exact ⟨i, Finset.mem_range.mpr hi, hact⟩
    rw [check_reads hall, Option.bind_some, check_destroyArray]

/-- One push into a ring of one slot, over the object that is there. -/
theorem tracked_pushOnce :
    ∃ tr s, (StdAtomicSPSCQueue.tracked .unbounded 1 ℕ).Run tr
        (s, [.construct 0, .construct 0]) ∧
      Settled s ∧ (.producer, .call (.push 5)) ∈ tr := by
  have hrun := StdAtomicSPSCQueue.tracked_run_of_exec
    (rfl : Lts.exec (StdAtomicSPSCQueue.trackedNext .unbounded 1)
      (StdAtomicSPSCQueue.tracked .unbounded 1 ℕ).init
      (.inl (some (.testAgain, 5)) :: List.replicate 6 (.inl none)) = some _)
  exact ⟨_, _, hrun, ⟨rfl, rfl⟩, List.mem_cons_self⟩

theorem lifetimes_balanced_iff_pushOnce :
    ∃ tr s acts, (StdAtomicSPSCQueue.tracked .unbounded 1 ℕ).Run tr (s, acts) ∧
      (Balanced (acts ++ destroyArray 1) ↔ NoPush tr) ∧ ¬NoPush tr := by
  obtain ⟨tr, s, hrun, hsettled, hpush⟩ := tracked_pushOnce
  exact ⟨tr, s, _, hrun, lifetimes_balanced_iff (by decide) hrun hsettled,
    fun hno => hno 5 hpush⟩

/-- The first push constructs over an object that nobody destroys. -/
theorem push_constructs_over_object :
    ¬∀ tr s acts, (StdAtomicSPSCQueue.tracked .unbounded 1 ℕ).Run tr (s, acts) →
      Settled s → Balanced (acts ++ destroyArray 1) := by
  intro h
  obtain ⟨tr, s, hrun, hsettled, -⟩ := tracked_pushOnce
  exact absurd (h tr s _ hrun hsettled) (by decide)

end Spsc
end ConcurrentQueues
