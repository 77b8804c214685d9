import ConcurrentQueues.Bench.Drain
import ConcurrentQueues.Support.Stamps

/-!
# The interval that a benchmark measures

A producer reads the clock before its first push and offers the reading as the
`start` of the benchmark; the first offer is taken.  A consumer reads the clock
after its last pop and then takes itself out of `active_consumers`; the last one
to do so writes its reading to `end`.  Reading and publishing are two steps, so
the first producer to publish need not have read first, nor the last consumer
have read last.
-/

namespace ConcurrentQueues
namespace Bench

open Stamps

/-! ## Stages -/

/-- How far a thread is with its clock reading. -/
inductive Stage
  /-- not read yet -/
  | before
  /-- read and not published -/
  | read (now : ℤ)
  /-- published as the last one, and to be written to `end` -/
  | last (now : ℤ)
  | after
  deriving DecidableEq

def Producer.stage : Producer → Stage
  | .timing => .before
  | .starting now => .read now
  | .pushing _ => .after

def Consumer.stage : Consumer → Stage
  | .popping _ | .timing _ => .before
  | .leaving _ now => .read now
  | .ending _ now => .last now
  | .returned _ => .after

def stage : Client (Producer ⊕ Consumer) → Stage
  | .running l | .calling l => Sum.elim Producer.stage Consumer.stage l

section

variable {T : ℕ}

/-- A producer runs the code of a producer and calls from its loop, and so does
a consumer. -/
inductive AtHome : Fin T ⊕ Fin T → Client (Producer ⊕ Consumer) → Prop
  | producer (i : Fin T) (l : Producer) : AtHome (.inl i) (.running (.inl l))
  | pushing (i : Fin T) (n : ℕ) : AtHome (.inl i) (.calling (.inl (.pushing n)))
  | consumer (i : Fin T) (l : Consumer) : AtHome (.inr i) (.running (.inr l))
  | popping (i : Fin T) (s : ℕ) : AtHome (.inr i) (.calling (.inr (.popping s)))

/-- `active_consumers.fetch_sub(1)` -/
def Memory.leave (g : Memory) : Memory :=
  { g with activeConsumers := (g.activeConsumers + 2 ^ 32 - 1) % 2 ^ 32 }

@[simp] theorem Memory.leave_start (g : Memory) : g.leave.start = g.start := by
  cases g with
  | mk => rfl

theorem Memory.setStart_activeConsumers (g : Memory) (now : ℤ) :
    (g.setStart now).activeConsumers = g.activeConsumers := by
  rw [setStart]
  split_ifs <;> rfl

theorem Memory.setStart_finish (g : Memory) (now : ℤ) :
    (g.setStart now).finish = g.finish := by
  rw [setStart]
  split_ifs <;> rfl

/-- What a step does to the shared times and to the stage of its thread. -/
inductive Does (g : Memory) :
    Fin T ⊕ Fin T → Stage → ℤ ⊕ QueueAct → Memory → Stage → Prop
  | act (t : Fin T ⊕ Fin T) (st : Stage) (act : QueueAct) :
      Does g t st (.inr act) g st
  | read (t : Fin T ⊕ Fin T) (now : ℤ) :
      Does g t .before (.inl now) g (.read now)
  | start (i : Fin T) (now x : ℤ) :
      Does g (.inl i) (.read now) (.inl x) (g.setStart now) .after
  | leave (i : Fin T) (now x : ℤ) :
      Does g (.inr i) (.read now) (.inl x) g.leave
        (if g.activeConsumers = 1 then .last now else .after)
  | finish (i : Fin T) (now x : ℤ) :
      Does g (.inr i) (.last now) (.inl x) { g with finish := now } .after

/-- A producer calls from its loop, and a call leads back there. -/
theorem producer_call {n : ℕ} {l : Producer} {op : Fifo.Op ℕ}
    {k : Fifo.Res ℕ → Producer} (h : producer n l = .call op k) :
    (∃ m, l = .pushing m) ∧ ∀ r, ∃ m, k r = .pushing m := by
  cases l with
  | timing | starting => cases h
  | pushing m =>
      simp only [producer] at h
      split_ifs at h
      obtain ⟨-, rfl⟩ := Next.call.inj h
      exact ⟨⟨m, rfl⟩, fun _ => ⟨_, rfl⟩⟩

theorem consumer_call {flag : ℕ} {l : Consumer} {op : Fifo.Op ℕ}
    {k : Fifo.Res ℕ → Consumer} (h : consumer flag l = .call op k) :
    (∃ s, l = .popping s) ∧ ∀ r, (k r).stage = .before := by
  cases l with
  | timing | leaving | ending | returned => cases h
  | popping s =>
      obtain ⟨-, rfl⟩ := Next.call.inj h
      refine ⟨⟨s, rfl⟩, fun r => ?_⟩
      rcases r with b | _ | item
      · rfl
      · rfl
      · simp only [Consumer.loop]
        split_ifs <;> rfl

/-- A call of a group is a call of its code. -/
theorem map_eq_call {L L' : Type} {f : L → L'} {step : Code L}
    {op : Fifo.Op ℕ} {k : Fifo.Res ℕ → L'} (h : step.map f = .call op k) :
    ∃ k', step = .call op k' ∧ k = f ∘ k' := by
  cases step with
  | call op' k' =>
      obtain ⟨rfl, rfl⟩ := Next.call.inj h
      exact ⟨k', rfl, rfl⟩
  | own | stop => cases h

/-- One step of a thread of the balanced benchmark. -/
theorem does_of_move {N : ℕ} {g g' : Memory} {t : Fin T ⊕ Fin T}
    {cl cl' : Client (Producer ⊕ Consumer)} {e : ℤ ⊕ QueueAct}
    (hhome : AtHome t cl) (h : (balanced T N).Move g cl e g' cl') :
    AtHome t cl' ∧ Does g t (stage cl) e g' (stage cl') := by
  cases h with
  | call g hnext =>
      cases hhome with
      | producer i l =>
          change (producer _ l).map Sum.inl = _ at hnext
          obtain ⟨k', hcode, -⟩ := map_eq_call hnext
          obtain ⟨⟨m, rfl⟩, -⟩ := producer_call hcode
          exact ⟨.pushing i m, .act _ _ _⟩
      | consumer i l =>
          change (consumer _ l).map Sum.inr = _ at hnext
          obtain ⟨k', hcode, -⟩ := map_eq_call hnext
          obtain ⟨⟨s, rfl⟩, -⟩ := consumer_call hcode
          exact ⟨.popping i s, .act _ _ _⟩
  | ret g r hnext =>
      cases hhome with
      | pushing i n =>
          change (producer _ (.pushing n)).map Sum.inl = _ at hnext
          obtain ⟨k', hcode, rfl⟩ := map_eq_call hnext
          obtain ⟨-, hk⟩ := producer_call hcode
          obtain ⟨m, hm⟩ := hk r
          refine ⟨.producer i _, ?_⟩
          rw [Function.comp_apply, hm]
          exact .act _ _ _
      | popping i s =>
          change (consumer _ (.popping s)).map Sum.inr = _ at hnext
          obtain ⟨k', hcode, rfl⟩ := map_eq_call hnext
          obtain ⟨-, hk⟩ := consumer_call hcode
          have hstage : stage (.running (Sum.inr (k' r))) = .before := hk r
          refine ⟨.consumer i _, ?_⟩
          rw [Function.comp_apply, hstage]
          exact .act _ _ _
  | own g c hnext =>
      cases hhome with
      | producer i l =>
          cases l with
          | timing =>
              obtain rfl := Next.own.inj hnext
              exact ⟨.producer i _, .read _ _⟩
          | starting now =>
              obtain rfl := Next.own.inj hnext
              exact ⟨.producer i _, .start _ _ _⟩
          | pushing n =>
              change (producer _ (.pushing n)).map Sum.inl = _ at hnext
              simp only [producer] at hnext
              split_ifs at hnext <;> cases hnext
      | consumer i l =>
          cases l with
          | timing s =>
              obtain rfl := Next.own.inj hnext
              exact ⟨.consumer i _, .read _ _⟩
          | leaving s now =>
              obtain rfl := Next.own.inj hnext
              refine ⟨.consumer i _, ?_⟩
              have hstage : stage (.running (Sum.inr
                  (if g.activeConsumers = 1 then Consumer.ending s now
                    else .returned s) : Producer ⊕ Consumer)) =
                  if g.activeConsumers = 1 then .last now else .after := by
                split_ifs <;> rfl
              change Does g _ _ _ _ (stage (.running (Sum.inr
                (if g.activeConsumers = 1 then Consumer.ending s now
                  else .returned s))))
              rw [hstage]
              exact .leave _ _ _
          | ending s now =>
              obtain rfl := Next.own.inj hnext
              exact ⟨.consumer i _, .finish _ _ _⟩
          | popping | returned => cases hnext

/-! ## What the stages say of the inputs -/

/-- The own steps that lead a thread to a stage. -/
def Stamped (t : Fin T ⊕ Fin T) (ins : List ((Fin T ⊕ Fin T) × ℤ)) :
    Stage → Prop
  | .before => inputsOf t ins = []
  | .read now => inputsOf t ins = [now]
  | .last now => Published t ins ∧ reading t ins = some now
  | .after => Published t ins

section Stamped

variable {t : Fin T ⊕ Fin T} {ins : List ((Fin T ⊕ Fin T) × ℤ)}

theorem Stamped.reading {now : ℤ} (h : Stamped t ins (.read now)) :
    reading t ins = some now := by
  rw [Stamps.reading, show inputsOf t ins = [now] from h]
  rfl

theorem Stamped.not_published {st : Stage} (h : Stamped t ins st)
    (hst : st = .before ∨ ∃ now, st = .read now) : ¬Published t ins := by
  rcases hst with rfl | ⟨now, rfl⟩
  · simp [Published, show inputsOf t ins = [] from h]
  · simp [Published, show inputsOf t ins = [now] from h]

theorem Stamped.snoc_of_ne {t' : Fin T ⊕ Fin T} {x : ℤ} {st : Stage}
    (h : Stamped t ins st) (hne : t' ≠ t) :
    Stamped t (ins ++ [(t', x)]) st := by
  cases st with
  | before | read | after | last =>
      simpa only [Stamped, Published, Stamps.reading,
        inputsOf_snoc_of_ne hne] using h

/-- The step of a thread and its inputs. -/
theorem Stamped.does {g g' : Memory} {st st' : Stage} {e : ℤ ⊕ QueueAct}
    {ctr : List ((Fin T ⊕ Fin T) × (ℤ ⊕ QueueAct))}
    (h : Stamped t (inputs ctr) st) (hdoes : Does g t st e g' st') :
    Stamped t (inputs (ctr ++ [(t, e)])) st' := by
  cases hdoes with
  | act =>
      rwa [inputs_snoc_other]
  | read now =>
      rw [inputs_snoc_own, Stamped, inputsOf_snoc_self,
        show inputsOf _ _ = [] from h]
      rfl
  | start i now x =>
      rw [inputs_snoc_own]
      exact published_snoc_self (by simp [show inputsOf _ _ = [now] from h])
  | leave i now x =>
      rw [inputs_snoc_own]
      have hpub : Published (.inr i) (inputs ctr ++ [(.inr i, x)]) :=
        published_snoc_self (by simp [show inputsOf _ _ = [now] from h])
      split_ifs
      · exact ⟨hpub, reading_mono (List.prefix_append _ _) h.reading⟩
      · exact hpub
  | finish i now x =>
      rw [inputs_snoc_own]
      exact h.1.mono (List.prefix_append _ _)

end Stamped

/-! ## The shared times -/

/-- One for a consumer that has not left `active_consumers`. -/
def Stage.staying : Stage → ℕ
  | .before | .read _ => 1
  | .last _ | .after => 0

def staying : Client (Producer ⊕ Consumer) → ℕ
  | .running (.inr l) | .calling (.inr l) => l.stage.staying
  | .running (.inl _) | .calling (.inl _) => 0

abbrev Threads (T : ℕ) :=
  Pool (Fin T ⊕ Fin T) Memory (Client (Producer ⊕ Consumer))

/-- `start` is what the first producer to publish has read. -/
inductive StartInv (ins : List ((Fin T ⊕ Fin T) × ℤ)) (start : ℤ) : Prop
  | unset (hzero : start = 0) (hnone : ∀ i, ¬Published (.inl i) ins)
  | set (i : Fin T) (hstart : start ≠ 0) (hfirst : FirstOf .inl i ins)
      (hread : reading (.inl i) ins = some start)

/-- `end` is written with what the last consumer to publish has read. -/
inductive EndInv (ins : List ((Fin T ⊕ Fin T) × ℤ)) (c : Threads T) : Prop
  | staying (hpos : 0 < c.shared.activeConsumers)
      (hnone : ∀ i now, stage (c.threads (.inr i)) ≠ .last now)
  | ending (i : Fin T) (now : ℤ) (hzero : c.shared.activeConsumers = 0)
      (hlast : LastOf .inr i ins) (hread : reading (.inr i) ins = some now)
      (hstage : stage (c.threads (.inr i)) = .last now)
      (hothers : ∀ j now, j ≠ i → stage (c.threads (.inr j)) ≠ .last now)
  | ended (i : Fin T) (hzero : c.shared.activeConsumers = 0)
      (hlast : LastOf .inr i ins)
      (hread : reading (.inr i) ins = some c.shared.finish)
      (hnone : ∀ j now, stage (c.threads (.inr j)) ≠ .last now)

structure IntervalInv (ins : List ((Fin T ⊕ Fin T) × ℤ)) (c : Threads T) :
    Prop where
  home : ∀ t, AtHome t (c.threads t)
  stamped : ∀ t, Stamped t ins (stage (c.threads t))
  start : StartInv ins c.shared.start
  active_eq : c.shared.activeConsumers = ∑ t, staying (c.threads t)
  active_le : c.shared.activeConsumers ≤ T
  ending : EndInv ins c

theorem AtHome.staying_consumer {i : Fin T}
    {cl : Client (Producer ⊕ Consumer)} (h : AtHome (.inr i) cl) :
    staying cl = (stage cl).staying := by
  cases h <;> rfl

theorem AtHome.staying_producer {i : Fin T}
    {cl : Client (Producer ⊕ Consumer)} (h : AtHome (.inl i) cl) :
    staying cl = 0 := by
  cases h <;> rfl

theorem AtHome.staying_eq {t : Fin T ⊕ Fin T}
    {cl cl' : Client (Producer ⊕ Consumer)} (h : AtHome t cl)
    (h' : AtHome t cl')
    (hstage : (stage cl').staying = (stage cl).staying) :
    staying cl' = staying cl := by
  cases t with
  | inl i => rw [h.staying_producer, h'.staying_producer]
  | inr i => rw [h.staying_consumer, h'.staying_consumer, hstage]

theorem Memory.leave_activeConsumers {g : Memory}
    (hpos : 1 ≤ g.activeConsumers) (hlt : g.activeConsumers < 2 ^ 32) :
    g.leave.activeConsumers + 1 = g.activeConsumers := by
  change (g.activeConsumers + 2 ^ 32 - 1) % 2 ^ 32 + 1 = _
  omega

theorem intervalInv_init {N : ℕ} (hT : 1 ≤ T) :
    IntervalInv [] (balanced T N).clients.init := by
  have hsum : ∑ t : Fin T ⊕ Fin T,
      staying ((balanced T N).clients.init.threads t) = T := by
    rw [Fintype.sum_sum_type]
    simp [balanced, Program.groups, Program.clients, staying, Consumer.stage,
      Stage.staying]
  refine ⟨?_, ?_, .unset rfl ?_, hsum.symm, le_rfl, .staying hT ?_⟩
  · rintro (i | i)
    · exact .producer i _
    · exact .consumer i _
  · rintro (i | i) <;> rfl
  · intro i
    simp [Published]
  · intro i now h
    cases h

section Step

variable {N : ℕ} {c : Threads T} {t : Fin T ⊕ Fin T} {e : ℤ ⊕ QueueAct}
  {g : Memory} {cl : Client (Producer ⊕ Consumer)}
  {ctr : List ((Fin T ⊕ Fin T) × (ℤ ⊕ QueueAct))}

theorem inputs_grow (ctr : List ((Fin T ⊕ Fin T) × (ℤ ⊕ QueueAct)))
    (a : (Fin T ⊕ Fin T) × (ℤ ⊕ QueueAct)) :
    inputs ctr <+: inputs (ctr ++ [a]) :=
  (List.prefix_append ctr [a]).filterMap _

theorem reading_mem {ins : List ((Fin T ⊕ Fin T) × ℤ)} {x : ℤ}
    (h : reading t ins = some x) : (t, x) ∈ ins := by
  obtain ⟨⟨u, y⟩, hmem, hy⟩ := List.mem_filterMap.mp (List.mem_of_head? h)
  dsimp only at hy
  split_ifs at hy with hu
  subst hu
  obtain rfl := Option.some.inj hy
  exact hmem

/-- `start` is set by the first producer to publish, and by no other. -/
theorem StartInv.does {g' : Memory} {st st' : Stage}
    (h : StartInv (inputs ctr) g.start) (hst : Stamped t (inputs ctr) st)
    (hnonzero : ∀ a ∈ inputs ctr, a.2 ≠ 0) (hdoes : Does g t st e g' st') :
    StartInv (inputs (ctr ++ [(t, e)])) g'.start := by
  have hgrow := inputs_grow ctr (t, e)
  have hst' := hst.does hdoes
  cases h with
  | set i hstart hfirst hread =>
      have hkeep : g'.start = g.start := by
        cases hdoes with
        | start => simp [Memory.setStart, hstart]
        | leave => exact Memory.leave_start g
        | act | read | finish => rfl
      rw [hkeep]
      exact .set i hstart (hfirst.mono hgrow) (reading_mono hgrow hread)
  | unset hzero hnone =>
      have hother : ∀ i : Fin T, t ≠ .inl i →
          ¬Published (.inl i) (inputs (ctr ++ [(t, e)])) := by
        intro i hne
        cases e with
        | inl x =>
            rw [inputs_snoc_own, published_snoc_of_ne hne]
            exact hnone i
        | inr act =>
            rw [inputs_snoc_other]
            exact hnone i
      cases hdoes with
      | act _ _ act =>
          rw [inputs_snoc_other]
          exact .unset hzero hnone
      | read _ now =>
          refine .unset hzero fun i => ?_
          by_cases hi : t = .inl i
          · subst hi
            exact hst'.not_published (Or.inr ⟨now, rfl⟩)
          · exact hother i hi
      | start i now x =>
          have hset : (g.setStart now).start = now := by
            simp [Memory.setStart, hzero]
          rw [hset]
          refine .set i (hnonzero _ (reading_mem hst.reading)) ?_
            (reading_mono hgrow hst.reading)
          rw [inputs_snoc_own]
          refine firstOf_snoc Sum.inl_injective hnone ?_
          simp [show inputsOf _ _ = [now] from hst]
      | leave i now x =>
          rw [Memory.leave_start]
          exact .unset hzero fun j => hother j (by simp)
      | finish i now x => exact .unset hzero fun j => hother j (by simp)

/-- Consumers publish when they leave. -/
theorem IntervalInv.published_iff (hI : IntervalInv (inputs ctr) c)
    (i : Fin T) :
    Published (.inr i) (inputs ctr) ↔ staying (c.threads (.inr i)) = 0 := by
  have hst := hI.stamped (.inr i)
  rw [(hI.home (.inr i)).staying_consumer]
  cases hstage : stage (c.threads (.inr i)) with
  | before =>
      rw [hstage] at hst
      simpa [Stage.staying] using hst.not_published (Or.inl rfl)
  | read now =>
      rw [hstage] at hst
      simpa [Stage.staying] using hst.not_published (Or.inr ⟨now, rfl⟩)
  | last now =>
      rw [hstage] at hst
      simpa [Stage.staying] using hst.1
  | after =>
      rw [hstage] at hst
      exact iff_of_true hst rfl

/-- The consumers that have not left are counted. -/
theorem IntervalInv.active_move (hI : IntervalInv (inputs ctr) c)
    (hhome : AtHome t cl) (hT : T < 2 ^ 32)
    (hdoes : Does c.shared t (stage (c.threads t)) e g (stage cl)) :
    g.activeConsumers = ∑ u, staying ((c.move t g cl).threads u) ∧
      g.activeConsumers ≤ T := by
  have hsum := Pool.sum_move c t g cl staying
  have hactive := hI.active_eq
  have hle := hI.active_le
  have hbefore := hI.home t
  have hkeep : g.activeConsumers = c.shared.activeConsumers →
      (stage cl).staying = (stage (c.threads t)).staying →
      g.activeConsumers = ∑ u, staying ((c.move t g cl).threads u) ∧
        g.activeConsumers ≤ T := by
    intro hg hstage
    have hcl := hbefore.staying_eq hhome hstage
    omega
  generalize hst : stage (c.threads t) = st at hdoes hkeep
  generalize hst' : stage cl = st' at hdoes hkeep
  cases hdoes with
  | act | read | finish => exact hkeep rfl rfl
  | start i now x =>
      have hg := Memory.setStart_activeConsumers c.shared now
      rw [hbefore.staying_producer, hhome.staying_producer] at hsum
      omega
  | leave i now x =>
      rw [hbefore.staying_consumer, hhome.staying_consumer, hst, hst'] at hsum
      have hstaying : (if c.shared.activeConsumers = 1 then Stage.last now
          else .after).staying = 0 := by
        split_ifs <;> rfl
      rw [hstaying, show (Stage.read now).staying = 1 from rfl] at hsum
      have hleave := Memory.leave_activeConsumers (g := c.shared) (by omega)
        (by omega)
      omega

/-- A consumer stays at its stage unless it takes the step itself. -/
theorem stage_move (c : Threads T) (t : Fin T ⊕ Fin T) (g : Memory)
    (cl : Client (Producer ⊕ Consumer)) (i : Fin T) :
    (t = .inr i ∧ (c.move t g cl).threads (.inr i) = cl) ∨
      (t ≠ .inr i ∧
        (c.move t g cl).threads (.inr i) = c.threads (.inr i)) := by
  by_cases hi : t = .inr i
  · subst hi
    exact Or.inl ⟨rfl, Pool.move_threads_self _ _ _ _⟩
  · exact Or.inr ⟨hi, Pool.move_threads_of_ne _ _ _ (Ne.symm hi)⟩

/-- While no consumer is about to write `end`, a step that does not make its
thread the one to do so keeps it that way. -/
theorem none_last_move
    (hnone : ∀ j now, stage (c.threads (.inr j)) ≠ .last now)
    (hcl : ∀ now, stage cl ≠ .last now) (j : Fin T) (now : ℤ) :
    stage ((c.move t g cl).threads (.inr j)) ≠ .last now := by
  rcases stage_move c t g cl j with ⟨-, hj⟩ | ⟨-, hj⟩
  · rw [hj]
    exact hcl now
  · rw [hj]
    exact hnone j now

/-- The consumer that leaves as the last one. -/
theorem IntervalInv.lastOf (hI : IntervalInv (inputs ctr) c) {i : Fin T}
    (hone : c.shared.activeConsumers = 1)
    (hi : staying (c.threads (.inr i)) = 1) :
    LastOf .inr i (inputs ctr) := by
  have hsum := hI.active_eq
  rw [hone, ← Finset.add_sum_erase _ _ (Finset.mem_univ (Sum.inr i)), hi]
    at hsum
  have hzero := Finset.sum_eq_zero_iff.mp (Nat.add_left_cancel hsum).symm
  refine ⟨_, List.prefix_rfl, ?_, fun j hj => ?_⟩
  · rw [hI.published_iff i, hi]
    exact one_ne_zero
  · rw [hI.published_iff j]
    refine hzero _ (Finset.mem_erase.mpr ⟨?_, Finset.mem_univ _⟩)
    exact fun h => hj (Sum.inr_injective h)

/-- A consumer that leaves was counted. -/
theorem IntervalInv.active_pos (hI : IntervalInv (inputs ctr) c) {i : Fin T}
    {now : ℤ} (hst : stage (c.threads (.inr i)) = .read now) :
    staying (c.threads (.inr i)) = 1 ∧ 0 < c.shared.activeConsumers := by
  have hone : staying (c.threads (.inr i)) = 1 := by
    rw [(hI.home (.inr i)).staying_consumer, hst]
    rfl
  have hle := Finset.single_le_sum (f := fun t => staying (c.threads t))
    (fun _ _ => Nat.zero_le _) (Finset.mem_univ (Sum.inr i))
  rw [← hI.active_eq] at hle
  exact ⟨hone, by omega⟩

/-- The consumer that has still to write `end`. -/
theorem EndInv.writer {ins : List ((Fin T ⊕ Fin T) × ℤ)} (h : EndInv ins c)
    {i : Fin T} {now : ℤ} (hst : stage (c.threads (.inr i)) = .last now) :
    c.shared.activeConsumers = 0 ∧ LastOf .inr i ins ∧
      reading (.inr i) ins = some now ∧
        ∀ j x, j ≠ i → stage (c.threads (.inr j)) ≠ .last x := by
  cases h with
  | staying _ hnone | ended _ _ _ _ hnone => exact absurd hst (hnone i now)
  | ending j x hzero hlast hread hstage hothers =>
      have hij : i = j := by
        by_contra hne
        exact hothers i now hne hst
      subst hij
      obtain rfl := Stage.last.inj (hst.symm.trans hstage)
      exact ⟨hzero, hlast, hread, hothers⟩

/-- Once it has, nobody has. -/
theorem none_last_of_write {i : Fin T}
    (hothers : ∀ j x, j ≠ i → stage (c.threads (.inr j)) ≠ .last x)
    (hcl : stage cl = .after) (j : Fin T) (now : ℤ) :
    stage ((c.move (.inr i) g cl).threads (.inr j)) ≠ .last now := by
  rcases stage_move c (.inr i) g cl j with ⟨-, hj⟩ | ⟨hij, hj⟩
  · rw [hj, hcl]
    simp
  · rw [hj]
    exact hothers j now fun h => hij (by rw [h])

/-- A step that makes nobody the one to write `end`, nor somebody done with
it. -/
theorem last_move_iff
    (hstage : ∀ i, t = .inr i → ∀ now,
      stage cl = .last now ↔ stage (c.threads t) = .last now)
    (j : Fin T) (now : ℤ) :
    stage ((c.move t g cl).threads (.inr j)) = .last now ↔
      stage (c.threads (.inr j)) = .last now := by
  rcases stage_move c t g cl j with ⟨rfl, hj⟩ | ⟨-, hj⟩
  · rw [hj]
    exact hstage j rfl now
  · rw [hj]

/-- A step that leaves the end of the benchmark alone. -/
theorem EndInv.keep (h : EndInv (inputs ctr) c)
    (hactive : g.activeConsumers = c.shared.activeConsumers)
    (hfinish : g.finish = c.shared.finish)
    (hstage : ∀ i, t = .inr i → ∀ now,
      stage cl = .last now ↔ stage (c.threads t) = .last now) :
    EndInv (inputs (ctr ++ [(t, e)])) (c.move t g cl) := by
  have hgrow := inputs_grow ctr (t, e)
  have hsame := last_move_iff (g := g) hstage
  cases h with
  | staying hpos hnone =>
      exact .staying (hactive ▸ hpos) fun j now =>
        mt (hsame j now).mp (hnone j now)
  | ending i now hzero hlast hread hlastStage hothers =>
      exact .ending i now (hactive.trans hzero) (hlast.mono hgrow)
        (reading_mono hgrow hread) ((hsame i now).mpr hlastStage)
        fun j now hj => mt (hsame j now).mp (hothers j now hj)
  | ended i hzero hlast hread hnone =>
      exact .ended i (hactive.trans hzero) (hlast.mono hgrow)
        (hfinish ▸ reading_mono hgrow hread)
        fun j now => mt (hsame j now).mp (hnone j now)

/-- `end` is left to the last consumer to publish, and written by no other. -/
theorem IntervalInv.end_move (hI : IntervalInv (inputs ctr) c)
    (hhome : AtHome t cl) (hT : T < 2 ^ 32)
    (hdoes : Does c.shared t (stage (c.threads t)) e g (stage cl)) :
    EndInv (inputs (ctr ++ [(t, e)])) (c.move t g cl) := by
  have hgrow := inputs_grow ctr (t, e)
  have hstamped := hI.stamped t
  generalize hst : stage (c.threads t) = st at hdoes hstamped
  generalize hst' : stage cl = st' at hdoes
  cases hdoes with
  | leave i now x =>
      obtain ⟨hone, hpos⟩ := hI.active_pos hst
      have hle := hI.active_le
      have hleave := Memory.leave_activeConsumers (g := c.shared) hpos
        (by omega)
      cases hI.ending with
      | ending _ _ hzero | ended _ hzero => omega
      | staying _ hnone =>
          by_cases hlast : c.shared.activeConsumers = 1
          · rw [if_pos hlast] at hst'
            refine .ending i now ?_ ((hI.lastOf hlast hone).mono hgrow)
              (reading_mono hgrow hstamped.reading) ?_ ?_
            · simp only [Pool.move_shared]
              omega
            · rw [Pool.move_threads_self]
              exact hst'
            · intro j now' hj
              rw [Pool.move_threads_of_ne _ _ _ (by simpa using hj)]
              exact hnone j now'
          · rw [if_neg hlast] at hst'
            refine .staying ?_ (none_last_move hnone (by simp [hst']))
            simp only [Pool.move_shared]
            omega
  | finish i now x =>
      obtain ⟨hzero, hlast, hread, hothers⟩ := hI.ending.writer hst
      exact .ended i hzero (hlast.mono hgrow) (reading_mono hgrow hread)
        (none_last_of_write hothers hst')
  | act =>
      exact hI.ending.keep rfl rfl fun _ _ now => by rw [hst, hst']
  | read =>
      exact hI.ending.keep rfl rfl fun _ _ now => by simp [hst, hst']
  | start i now x =>
      exact hI.ending.keep (Memory.setStart_activeConsumers _ _)
        (Memory.setStart_finish _ _) fun _ h => by cases h

/-- Every step keeps the invariant. -/
theorem IntervalInv.step (hI : IntervalInv (inputs ctr) c) (hT : T < 2 ^ 32)
    (hnonzero : ∀ a ∈ inputs ctr, a.2 ≠ 0)
    (hmove : (balanced T N).Move c.shared (c.threads t) e g cl) :
    IntervalInv (inputs (ctr ++ [(t, e)])) (c.move t g cl) := by
  obtain ⟨hhome, hdoes⟩ := does_of_move (hI.home t) hmove
  obtain ⟨hactive, hle⟩ := hI.active_move hhome hT hdoes
  refine ⟨?_, ?_, hI.start.does (hI.stamped t) hnonzero hdoes, hactive, hle,
    hI.end_move hhome hT hdoes⟩
  · exact Pool.forall_move hhome fun u _ => hI.home u
  · refine Pool.forall_move (P := fun u cl => Stamped u _ (stage cl))
      ((hI.stamped t).does hdoes) fun u hu => ?_
    have hu' := hI.stamped u
    cases e with
    | inl x =>
        rw [inputs_snoc_own]
        exact hu'.snoc_of_ne (Ne.symm hu)
    | inr act =>
        rwa [inputs_snoc_other]

end Step

theorem intervalInv_of_run {N : ℕ} (hT : 1 ≤ T) (hT' : T < 2 ^ 32)
    {ctr : List ((Fin T ⊕ Fin T) × (ℤ ⊕ QueueAct))} {c : Threads T}
    (hrun : (balanced T N).clients.Run ctr c)
    (hnonzero : ∀ a ∈ inputs ctr, a.2 ≠ 0) : IntervalInv (inputs ctr) c := by
  revert hnonzero
  refine Lts.Run.induction (P := fun ctr c =>
    (∀ a ∈ inputs ctr, a.2 ≠ 0) → IntervalInv (inputs ctr) c) ?_ ?_ hrun
  · exact fun _ => intervalInv_init hT
  · rintro ctr c ⟨t, e⟩ c' - ih ⟨g, cl, hmove, rfl⟩ hnonzero
    have hbefore : ∀ a ∈ inputs ctr, a.2 ≠ 0 :=
      fun a ha => hnonzero a ((inputs_grow ctr (t, e)).subset ha)
    exact (ih hbefore).step hT' hbefore hmove

/-! ## Writes -/

/-- The thread is about to run a `compare_exchange` that succeeds. -/
def SetsStart (c : Threads T) (a : (Fin T ⊕ Fin T) × (ℤ ⊕ QueueAct)) : Prop :=
  ∃ i now, a.1 = .inl i ∧
    c.threads (.inl i) = .running (.inl (.starting now)) ∧ c.shared.start = 0

/-- The thread is about to write `end`. -/
def WritesEnd (c : Threads T) (a : (Fin T ⊕ Fin T) × (ℤ ⊕ QueueAct)) : Prop :=
  ∃ i s now, a.1 = .inr i ∧
    c.threads (.inr i) = .running (.inr (.ending s now))

/-- Nobody has still to write `end`. -/
def Ended (c : Threads T) : Prop :=
  c.shared.activeConsumers = 0 ∧
    ∀ j now, stage (c.threads (.inr j)) ≠ .last now

section Writes

variable {N : ℕ} {g g' : Memory} {cl cl' : Client (Producer ⊕ Consumer)}
  {e : ℤ ⊕ QueueAct} {c : Threads T}
  {ctr : List ((Fin T ⊕ Fin T) × (ℤ ⊕ QueueAct))}

/-- A step that leaves the end of the benchmark alone. -/
theorem ended_move_iff {t : Fin T ⊕ Fin T}
    (hactive : g.activeConsumers = c.shared.activeConsumers)
    (hstage : ∀ i, t = .inr i → ∀ now,
      stage cl = .last now ↔ stage (c.threads t) = .last now) :
    Ended (c.move t g cl) ↔ Ended c := by
  simp only [Ended, Ne, last_move_iff (g := g) hstage, Pool.move_shared,
    hactive]

theorem AtHome.starting {t : Fin T ⊕ Fin T} {i : Fin T} {now : ℤ}
    (h : AtHome t cl) (ht : t = .inl i) (hstage : stage cl = .read now) :
    cl = .running (.inl (.starting now)) := by
  cases h with
  | producer i l =>
      cases l with
      | starting x => rw [Stage.read.inj hstage]
      | timing | pushing => cases hstage
  | pushing => cases hstage
  | consumer | popping => cases ht

theorem AtHome.ending {t : Fin T ⊕ Fin T} {now : ℤ} (h : AtHome t cl)
    (hstage : stage cl = .last now) :
    ∃ s, cl = .running (.inr (.ending s now)) := by
  cases h with
  | producer i l => cases l <;> cases hstage
  | pushing | popping => cases hstage
  | consumer i l =>
      cases l with
      | ending s x =>
          rw [Stage.last.inj hstage]
          exact ⟨s, rfl⟩
      | popping | timing | leaving | returned => cases hstage

/-- The only step of a producer with a reading to offer. -/
theorem start_of_move {now : ℤ}
    (h : (balanced T N).Move g (.running (.inl (.starting now))) e g' cl') :
    g' = g.setStart now := by
  cases h with
  | call g hnext =>
      cases hnext
  | own g x hnext =>
      obtain rfl := Next.own.inj hnext
      rfl

/-- The only step of the consumer that writes `end`. -/
theorem end_of_move {s : ℕ} {now : ℤ}
    (h : (balanced T N).Move g (.running (.inr (.ending s now))) e g' cl') :
    g' = { g with finish := now } ∧ stage cl' = .after := by
  cases h with
  | call g hnext =>
      cases hnext
  | own g x hnext =>
      obtain rfl := Next.own.inj hnext
      exact ⟨rfl, rfl⟩

/-- `start` is set at most once. -/
theorem starts_count (hT : 1 ≤ T) (hT' : T < 2 ^ 32)
    (hrun : (balanced T N).clients.Run ctr c)
    (hnonzero : ∀ a ∈ inputs ctr, a.2 ≠ 0) :
    (balanced T N).clients.Counts SetsStart (balanced T N).clients.init ctr c
      (if c.shared.start = 0 then 0 else 1) := by
  refine Lts.counts_of_run (fun c => if c.shared.start = 0 then 0 else 1)
    (fun ctr => ∀ a ∈ inputs ctr, a.2 ≠ 0) ?_ rfl ?_ ?_ hrun hnonzero
  · exact fun ctr a h b hb => h b ((inputs_grow ctr a).subset hb)
  · rintro ctr c ⟨t, e⟩ c' hrun hok ⟨g, cl, hmove, rfl⟩
      ⟨i, now, rfl, hcl, hzero⟩
    have hbefore : ∀ a ∈ inputs ctr, a.2 ≠ 0 :=
      fun a ha => hok a ((inputs_grow ctr _).subset ha)
    have hst := (intervalInv_of_run hT hT' hrun hbefore).stamped (.inl i)
    rw [hcl] at hst hmove
    have hnow : now ≠ 0 := hbefore _ (reading_mem (Stamped.reading hst))
    obtain rfl := start_of_move hmove
    simp [Memory.setStart, hzero, hnow]
  · rintro ctr c ⟨t, e⟩ c' hrun hok ⟨g, cl, hmove, rfl⟩ hmiss
    have hbefore : ∀ a ∈ inputs ctr, a.2 ≠ 0 :=
      fun a ha => hok a ((inputs_grow ctr _).subset ha)
    have hhome := (intervalInv_of_run hT hT' hrun hbefore).home t
    have hdoes := (does_of_move hhome hmove).2
    suffices hkeep : g.start = c.shared.start by
      simp only [Pool.move_shared, hkeep]
    generalize hst : stage (c.threads t) = st at hdoes
    generalize stage cl = st' at hdoes
    cases hdoes with
    | act | read | finish => rfl
    | leave => exact Memory.leave_start _
    | start i now x =>
        have hset : c.shared.start ≠ 0 := fun hzero =>
          hmiss ⟨i, now, rfl, hhome.starting rfl hst, hzero⟩
        rw [Memory.setStart, if_neg hset]

open Classical in
/-- `end` is written once, by the time nobody has still to write it. -/
theorem ends_count (hT : 1 ≤ T) (hT' : T < 2 ^ 32)
    (hrun : (balanced T N).clients.Run ctr c)
    (hnonzero : ∀ a ∈ inputs ctr, a.2 ≠ 0) :
    (balanced T N).clients.Counts WritesEnd (balanced T N).clients.init ctr c
      (if Ended c then 1 else 0) := by
  refine Lts.counts_of_run (fun c => if Ended c then 1 else 0)
    (fun ctr => ∀ a ∈ inputs ctr, a.2 ≠ 0) ?_ ?_ ?_ ?_ hrun hnonzero
  · exact fun ctr a h b hb => h b ((inputs_grow ctr a).subset hb)
  · refine if_neg fun h => ?_
    have hzero : T = 0 := h.1
    omega
  · rintro ctr c ⟨t, e⟩ c' hrun hok ⟨g, cl, hmove, rfl⟩ ⟨i, s, now, rfl, hcl⟩
    have hbefore : ∀ a ∈ inputs ctr, a.2 ≠ 0 :=
      fun a ha => hok a ((inputs_grow ctr _).subset ha)
    have hI := intervalInv_of_run hT hT' hrun hbefore
    have hst : stage (c.threads (.inr i)) = .last now := by
      rw [hcl]
      rfl
    obtain ⟨hzero, -, -, hothers⟩ := hI.ending.writer hst
    dsimp only at hmove
    rw [hcl] at hmove
    obtain ⟨rfl, hafter⟩ := end_of_move hmove
    have hended : Ended (c.move (.inr i) { c.shared with finish := now } cl) :=
      ⟨hzero, none_last_of_write hothers hafter⟩
    rw [if_pos hended, if_neg fun h => h.2 i now hst]
  · rintro ctr c ⟨t, e⟩ c' hrun hok ⟨g, cl, hmove, rfl⟩ hmiss
    have hbefore : ∀ a ∈ inputs ctr, a.2 ≠ 0 :=
      fun a ha => hok a ((inputs_grow ctr _).subset ha)
    have hI := intervalInv_of_run hT hT' hrun hbefore
    obtain ⟨hhome, hdoes⟩ := does_of_move (hI.home t) hmove
    suffices hsame : Ended (c.move t g cl) ↔ Ended c by
      simp only [hsame]
    dsimp only at hmiss hdoes
    generalize hst : stage (c.threads t) = st at hdoes
    generalize hst' : stage cl = st' at hdoes
    cases hdoes with
    | act => exact ended_move_iff rfl fun _ _ now => by rw [hst, hst']
    | read => exact ended_move_iff rfl fun _ _ now => by simp [hst, hst']
    | start i now x =>
        exact ended_move_iff (Memory.setStart_activeConsumers _ _)
          fun _ h => by cases h
    | leave i now x =>
        -- neither before nor after the step
        obtain ⟨-, hpos⟩ := hI.active_pos hst
        have hle := hI.active_le
        have hleave := Memory.leave_activeConsumers (g := c.shared) hpos
          (by omega)
        refine iff_of_false (fun h => ?_) fun h => by have := h.1; omega
        by_cases hlast : c.shared.activeConsumers = 1
        · rw [if_pos hlast] at hst'
          exact h.2 i now (by rw [Pool.move_threads_self]; exact hst')
        · have hzero : c.shared.leave.activeConsumers = 0 := h.1
          omega
    | finish i now x =>
        obtain ⟨s, hs⟩ := (hI.home _).ending hst
        exact absurd ⟨i, s, now, rfl, hs⟩ hmiss

end Writes

/-! ## The interval -/

/-- What the clock shows at the steps of a run never decreases and is not zero.
A step that does not read the clock does not use what it shows. -/
structure Clock (ins : List ((Fin T ⊕ Fin T) × ℤ)) : Prop where
  steady : (ins.map Prod.snd).Pairwise (· ≤ ·)
  nonzero : ∀ a ∈ ins, a.2 ≠ 0

/-- The interval from `start` to `end` covers the work of all threads. -/
structure Covers (N : ℕ) (ctr : List ((Fin T ⊕ Fin T) × (ℤ ⊕ QueueAct)))
    (c : Threads T) : Prop where
  start_once : (balanced T N).clients.Counts SetsStart
    (balanced T N).clients.init ctr c 1
  start_le : ∀ j y, reading (.inl j) (inputs ctr) = some y →
    c.shared.start ≤ y
  end_once : (balanced T N).clients.Counts WritesEnd
    (balanced T N).clients.init ctr c 1
  le_end : ∀ j y, reading (.inr j) (inputs ctr) = some y →
    y ≤ c.shared.finish
  duration_le : ∀ i j x y, reading (.inl i) (inputs ctr) = some x →
    reading (.inr j) (inputs ctr) = some y →
    y - x ≤ c.shared.finish - c.shared.start

/-- The producer that published first has read no later time than any other, and
the consumer that published last no earlier one. -/
structure InOrder (ins : List ((Fin T ⊕ Fin T) × ℤ)) : Prop where
  first : ∃ i, FirstOf .inl i ins ∧ ∀ j x y,
    reading (.inl i) ins = some x → reading (.inl j) ins = some y → x ≤ y
  last : ∃ i, LastOf .inr i ins ∧ ∀ j x y,
    reading (.inr i) ins = some x → reading (.inr j) ins = some y → y ≤ x

section Interval

variable {N : ℕ} {c : Threads T}
  {ctr : List ((Fin T ⊕ Fin T) × (ℤ ⊕ QueueAct))}

theorem stage_of_finished {cl : Client (Producer ⊕ Consumer)}
    (h : (balanced T N).Finished cl) : stage cl = .after := by
  obtain ⟨l | l, rfl, hstop⟩ := h
  · cases l with
    | timing | starting => cases hstop
    | pushing n => rfl
  · cases l with
    | popping | timing | leaving | ending => cases hstop
    | returned s => rfl

/-- The times that are measured, and what they were. -/
theorem measured (hT : 1 ≤ T) (hI : IntervalInv (inputs ctr) c)
    (hdone : ∀ t, (balanced T N).Finished (c.threads t)) :
    (∃ i, c.shared.start ≠ 0 ∧ FirstOf .inl i (inputs ctr) ∧
      reading (.inl i) (inputs ctr) = some c.shared.start) ∧
    ∃ i, Ended c ∧ LastOf .inr i (inputs ctr) ∧
      reading (.inr i) (inputs ctr) = some c.shared.finish := by
  have hafter : ∀ t, stage (c.threads t) = .after :=
    fun t => stage_of_finished (hdone t)
  constructor
  · cases hI.start with
    | unset _ hnone =>
        have hst := hI.stamped (.inl ⟨0, hT⟩)
        rw [hafter] at hst
        exact absurd hst (hnone _)
    | set i hstart hfirst hread => exact ⟨i, hstart, hfirst, hread⟩
  · cases hI.ending with
    | staying hpos _ =>
        have hnone : ∑ t, staying (c.threads t) = 0 := by
          refine Finset.sum_eq_zero fun t _ => ?_
          cases t with
          | inl i => exact (hI.home _).staying_producer
          | inr i =>
              rw [(hI.home _).staying_consumer, hafter]
              rfl
        rw [hI.active_eq, hnone] at hpos
        exact absurd hpos (lt_irrefl 0)
    | ending i now _ _ _ hstage _ =>
        rw [hafter] at hstage
        cases hstage
    | ended i hzero hlast hread hnone =>
        exact ⟨i, ⟨hzero, hnone⟩, hlast, hread⟩

/-- When all threads have finished, `start` was set once and `end` was written
once, and they enclose all readings just if the readings were published in
order. -/
theorem covers_iff (hT : 1 ≤ T) (hT' : T < 2 ^ 32)
    (hrun : (balanced T N).clients.Run ctr c) (hclock : Clock (inputs ctr))
    (hdone : ∀ t, (balanced T N).Finished (c.threads t)) :
    Covers N ctr c ↔ InOrder (inputs ctr) := by
  have hI := intervalInv_of_run hT hT' hrun hclock.nonzero
  obtain ⟨⟨i, hstart, hfirst, hread⟩, j, hended, hlast, hread'⟩ :=
    measured hT hI hdone
  have hstarts := starts_count hT hT' hrun hclock.nonzero
  have hends := ends_count hT hT' hrun hclock.nonzero
  rw [if_neg hstart] at hstarts
  rw [if_pos hended] at hends
  have hfst := compare_iff (R := (· ≤ ·)) (fun _ h => hfirst.unique h) hfirst
    hread
  have hsnd := compare_iff (R := (· ≥ ·)) (fun _ h => hlast.unique h) hlast
    hread'
  constructor
  · intro h
    exact ⟨hfst.mp h.start_le, hsnd.mp h.le_end⟩
  · intro h
    have hle := hfst.mpr h.first
    have hge := hsnd.mpr h.last
    exact ⟨hstarts, hle, hends, hge, fun i j x y hx hy =>
      sub_le_sub (hge j y hy) (hle i x hx)⟩

/-- A benchmark of one producer and one consumer publishes in order. -/
theorem inOrder_one (hT : T = 1) (hrun : (balanced T N).clients.Run ctr c)
    (hclock : Clock (inputs ctr))
    (hdone : ∀ t, (balanced T N).Finished (c.threads t)) :
    InOrder (inputs ctr) := by
  subst hT
  have hI := intervalInv_of_run le_rfl (by decide) hrun hclock.nonzero
  obtain ⟨⟨i, -, hfirst, -⟩, j, -, hlast, -⟩ := measured le_rfl hI hdone
  constructor
  · refine ⟨i, hfirst, fun j x y hx hy => ?_⟩
    rw [Subsingleton.elim j i] at hy
    exact (Option.some.inj (hx.symm.trans hy)).le
  · refine ⟨j, hlast, fun i x y hx hy => ?_⟩
    rw [Subsingleton.elim i j] at hy
    exact (Option.some.inj (hy.symm.trans hx)).le

/-- In a finished run on any queue, the interval covers the work of all threads
just if the readings were published in order. -/
theorem covers_iff_of_run (hT : 1 ≤ T) (hT' : T < 2 ^ 32) {σ α : Type*}
    {M : Lts σ α} {shows : α → Option ((Fin T ⊕ Fin T) × QueueAct)}
    {tr : List (Option α × Option ((Fin T ⊕ Fin T) × (ℤ ⊕ QueueAct)))}
    {p : σ × Threads T} (hrun : ((balanced T N).on M shows).Run tr p)
    (hclock : Clock (inputs (tr.filterMap Prod.snd)))
    (hdone : ∀ t, (balanced T N).Finished (p.2.threads t)) :
    Covers N (tr.filterMap Prod.snd) p.2 ↔
      InOrder (inputs (tr.filterMap Prod.snd)) :=
  covers_iff hT hT' (Lts.runs_of_sync hrun).2.1 hclock hdone

end Interval

/-! ## Out of order -/

section Misordered

variable {N : ℕ} {i j : Fin T} {cap : ℕ∞}

/-- The producer `i` reads the clock, then `j` reads it and publishes. -/
def overtaken (i j : Fin T) : List ((Fin T ⊕ Fin T) × ℤ) :=
  [(.inl i, 1), (.inl j, 2), (.inl j, 2)]

theorem exists_overtaken (N : ℕ) (cap : ℕ∞) (hij : i ≠ j) :
    ∃ tr s, ((balanced T N).direct (Fifo.object ℕ cap)).Run tr s ∧
      inputs tr = overtaken i j := by
  let P := (balanced T N).direct (Fifo.object ℕ cap)
  have hfst : P.step P.init (.inl i, .inl 1) (P.init.move (.inl i)
      P.init.shared (.inl (.starting 1))) := ⟨_, _, .own _ _ 1 rfl, rfl⟩
  have hj : (P.init.move (.inl i) P.init.shared (.inl (.starting 1))).threads
      (.inl j) = .inl .timing :=
    Pool.move_threads_of_ne _ _ _ (by simpa using hij.symm)
  obtain ⟨s₂, hsnd, hs₂⟩ : ∃ s₂, P.step (P.init.move (.inl i)
      P.init.shared (.inl (.starting 1))) (.inl j, .inl 2) s₂ ∧
      s₂.threads (.inl j) = .inl (.starting 2) := by
    refine ⟨_, ⟨_, _, .own _ _ 2 (congrArg _ hj), rfl⟩, ?_⟩
    exact Pool.move_threads_self _ _ _ _
  obtain ⟨s₃, hthd⟩ : ∃ s₃, P.step s₂ (.inl j, .inl 2) s₃ :=
    ⟨_, _, _, .own _ _ 2 (congrArg _ hs₂), rfl⟩
  exact ⟨_, s₃, ((Lts.Run.init.tail hfst).tail hsnd).tail hthd, rfl⟩

/-- Readings that were published out of order. -/
theorem not_inOrder_of_overtaken (hij : i ≠ j)
    {ins : List ((Fin T ⊕ Fin T) × ℤ)} (h : overtaken i j <+: ins) :
    ¬InOrder ins := by
  rintro ⟨⟨k, hk, hle⟩, -⟩
  have hfirst : FirstOf .inl j ins := by
    refine ⟨_, h, ?_, fun k hkj => ?_⟩
    · simp [Published, inputsOf, overtaken, hij]
    · by_cases hki : i = k
      · simp [Published, inputsOf, overtaken, hki, Ne.symm hkj]
      · simp [Published, inputsOf, overtaken, hki, Ne.symm hkj]
  obtain rfl := hfirst.unique hk
  have hlate : reading (.inl k) ins = some 2 :=
    reading_mono h (by simp [reading, inputsOf, overtaken, hij])
  have hearly : reading (.inl i) ins = some 1 :=
    reading_mono h (by simp [reading, inputsOf, overtaken])
  exact absurd (hle i 2 1 hlate hearly) (by decide)

theorem clock_overtaken {ins : List ((Fin T ⊕ Fin T) × ℤ)}
    (h : ∀ a ∈ ins, a.2 = 2) : Clock (overtaken i j ++ ins) := by
  have hlater : ∀ x ∈ ins.map Prod.snd, x = 2 := by
    intro x hx
    obtain ⟨a, ha, rfl⟩ := List.mem_map.mp hx
    exact h a ha
  constructor
  · rw [List.map_append, List.pairwise_append]
    refine ⟨by simp [overtaken], ?_, fun x hx y hy => ?_⟩
    · rw [List.eq_replicate_of_mem hlater, List.pairwise_replicate]
      exact Or.inr le_rfl
    · rw [hlater y hy]
      simp only [overtaken, List.map_cons, List.map_nil, List.mem_cons,
        List.not_mem_nil, or_false] at hx
      omega
  · intro a ha
    rcases List.mem_append.mp ha with ha | ha
    · simp only [overtaken, List.mem_cons, List.not_mem_nil, or_false] at ha
      rcases ha with rfl | rfl | rfl <;> simp
    · rw [h a ha]
      decide

/-- With two producers some run does not cover the work. -/
theorem exists_uncovered (hij : i ≠ j) (hT : T < 2 ^ 32)
    (hN : N + 1 < 2 ^ 32 - 1) (hcap : 1 ≤ cap) :
    ∃ tr p, ((balanced T N).on ((Fifo.object ℕ cap).atomic _)
      SeqObject.seen).Run tr p ∧ Clock (inputs (tr.filterMap Prod.snd)) ∧
      (∀ t, (balanced T N).Finished (p.2.threads t)) ∧
      ¬Covers N (tr.filterMap Prod.snd) p.2 := by
  obtain ⟨tr, s, hrun, hins⟩ := exists_overtaken N cap hij
  obtain ⟨tr', s', hpath, hstop, htwo⟩ :=
    (balanced_protocol hN).completes hcap 2 hrun
  have hall : inputs (tr ++ tr') = overtaken i j ++ inputs tr' := by
    rw [← hins, inputs, List.filterMap_append]
    rfl
  obtain ⟨tr'', hrun'', hins''⟩ :=
    Program.run_of_direct (Lts.Path.trans hrun hpath)
  rw [hall] at hins''
  have hclock : Clock (inputs (tr''.filterMap Prod.snd)) := by
    rw [hins'']
    exact clock_overtaken htwo
  have hdone : ∀ t, (balanced T N).Finished
      ((Program.restingClients s').threads t) :=
    fun t => ⟨_, rfl, hstop t⟩
  refine ⟨tr'', _, hrun'', hclock, hdone, ?_⟩
  rw [covers_iff_of_run (by have := i.isLt; omega) hT hrun'' hclock hdone,
    hins'']
  exact not_inOrder_of_overtaken hij (List.prefix_append _ _)

end Misordered

end

universe u v

/-- In a finished run the interval covers the work of all threads just if the
producer that published first had read no later time than any other, and the
consumer that published last no earlier one.  With one producer and one consumer
this is so in every run, with more it is not. -/
theorem interval_covers_iff {T : ℕ} (hT : 1 ≤ T) (hT' : T < 2 ^ 32) (N : ℕ) :
    (∀ {σ : Type u} {α : Type v} (M : Lts σ α)
      (shows : α → Option ((Fin T ⊕ Fin T) × QueueAct)) tr p,
      ((balanced T N).on M shows).Run tr p →
      Clock (inputs (tr.filterMap Prod.snd)) →
      (∀ t, (balanced T N).Finished (p.2.threads t)) →
      (Covers N (tr.filterMap Prod.snd) p.2 ↔
        InOrder (inputs (tr.filterMap Prod.snd)))) ∧
    ∀ cap : ℕ∞, 1 ≤ cap → N + 1 < 2 ^ 32 - 1 →
      ((∀ tr p, ((balanced T N).on ((Fifo.object ℕ cap).atomic _)
          SeqObject.seen).Run tr p →
        Clock (inputs (tr.filterMap Prod.snd)) →
        (∀ t, (balanced T N).Finished (p.2.threads t)) →
        Covers N (tr.filterMap Prod.snd) p.2) ↔ T = 1) := by
  constructor
  · intro σ α M shows tr p hrun hclock hdone
    exact covers_iff_of_run hT hT' hrun hclock hdone
  · intro cap hcap hN
    constructor
    · intro hall
      by_contra hone
      have hij : (⟨0, hT⟩ : Fin T) ≠ ⟨1, by omega⟩ := by simp
      obtain ⟨tr, p, hrun, hclock, hdone, hnot⟩ :=
        exists_uncovered hij hT' hN hcap
      exact hnot (hall tr p hrun hclock hdone)
    · intro hone tr p hrun hclock hdone
      rw [covers_iff_of_run hT hT' hrun hclock hdone]
      exact inOrder_one hone (Lts.runs_of_sync hrun).2.1 hclock hdone

/-- One producer and one consumer. -/
theorem interval_covers_one :
    ∃ tr p, ((balanced 1 1).on ((Fifo.object ℕ 1).atomic _)
      SeqObject.seen).Run tr p ∧ Clock (inputs (tr.filterMap Prod.snd)) ∧
      InOrder (inputs (tr.filterMap Prod.snd)) ∧
      Covers 1 (tr.filterMap Prod.snd) p.2 := by
  obtain ⟨⟨tr, p⟩, hexec, hend⟩ := Option.map_eq_some_iff.mp
    (show (Lts.exec ((balanced 1 1).play (Fifo.callWithin 1))
      ((balanced 1 1).on ((Fifo.object ℕ 1).atomic _) SeqObject.seen).init
      [(.inl 0, 5), (.inl 0, 5), (.inl 0, 0), (.inl 0, 0), (.inl 0, 0),
        (.inr 0, 0), (.inr 0, 0), (.inr 0, 0),
        (.inl 0, 0), (.inl 0, 0), (.inl 0, 0),
        (.inr 0, 0), (.inr 0, 0), (.inr 0, 0),
        (.inr 0, 9), (.inr 0, 9), (.inr 0, 9)]).map
      (fun r => decide
        (inputs (r.1.filterMap Prod.snd) =
          [(.inl 0, 5), (.inl 0, 5), (.inr 0, 9), (.inr 0, 9), (.inr 0, 9)] ∧
          r.2.2.threads (.inl 0) = .running (.inl (.pushing 3)) ∧
          r.2.2.threads (.inr 0) = .running (.inr (.returned 1)))) = some true
      by decide +kernel)
  obtain ⟨hins, hproducer, hconsumer⟩ := of_decide_eq_true hend
  have hrun := Program.run_of_play (fun _ _ _ _ => Fifo.apply_of_callWithin)
    hexec
  have hclock : Clock (inputs (tr.filterMap Prod.snd)) := by
    rw [hins]
    exact ⟨by decide, by decide⟩
  have hdone : ∀ t, (balanced 1 1).Finished (p.2.threads t) := by
    rintro (i | i)
    · obtain rfl := Subsingleton.elim i 0
      exact ⟨_, hproducer, rfl⟩
    · obtain rfl := Subsingleton.elim i 0
      exact ⟨_, hconsumer, rfl⟩
  obtain ⟨hiff, hall⟩ :=
    interval_covers_iff.{0, 0} (T := 1) le_rfl (by decide) 1
  have hcovers := (hall 1 le_rfl (by decide)).mpr rfl tr p hrun hclock hdone
  exact ⟨tr, p, hrun, hclock,
    (hiff _ _ tr p hrun hclock hdone).mp hcovers, hcovers⟩

/-- Two producers and two consumers.  The first producer reads 1 and then lets
the second one set `start` to 2, the first consumer reads 5 and then lets the
second one, which has read 6, leave before it. -/
theorem interval_too_short :
    ∃ tr p, ((balanced 2 1).on ((Fifo.object ℕ 4).atomic _)
      SeqObject.seen).Run tr p ∧ Clock (inputs (tr.filterMap Prod.snd)) ∧
      (∀ t, (balanced 2 1).Finished (p.2.threads t)) ∧
      reading (.inl 0) (inputs (tr.filterMap Prod.snd)) = some 1 ∧
      p.2.shared.start = 2 ∧
      reading (.inr 1) (inputs (tr.filterMap Prod.snd)) = some 6 ∧
      p.2.shared.finish = 5 ∧ ¬Covers 1 (tr.filterMap Prod.snd) p.2 := by
  obtain ⟨⟨tr, p⟩, hexec, hend⟩ := Option.map_eq_some_iff.mp
    (show (Lts.exec ((balanced 2 1).play (Fifo.callWithin 4))
      ((balanced 2 1).on ((Fifo.object ℕ 4).atomic _) SeqObject.seen).init
      [(.inl 0, 1), (.inl 1, 2), (.inl 1, 2), (.inl 0, 2),
        (.inl 0, 0), (.inl 0, 0), (.inl 0, 0),
        (.inl 0, 0), (.inl 0, 0), (.inl 0, 0),
        (.inl 1, 0), (.inl 1, 0), (.inl 1, 0),
        (.inl 1, 0), (.inl 1, 0), (.inl 1, 0),
        (.inr 0, 0), (.inr 0, 0), (.inr 0, 0),
        (.inr 0, 0), (.inr 0, 0), (.inr 0, 0),
        (.inr 1, 0), (.inr 1, 0), (.inr 1, 0),
        (.inr 1, 0), (.inr 1, 0), (.inr 1, 0),
        (.inr 0, 5), (.inr 1, 6), (.inr 1, 6), (.inr 0, 6), (.inr 0, 6)]).map
      (fun r => decide
        (inputs (r.1.filterMap Prod.snd) =
          [(.inl 0, 1), (.inl 1, 2), (.inl 1, 2), (.inl 0, 2),
            (.inr 0, 5), (.inr 1, 6), (.inr 1, 6), (.inr 0, 6), (.inr 0, 6)] ∧
          r.2.2.shared = ⟨2, 5, 0⟩ ∧
          r.2.2.threads (.inl 0) = .running (.inl (.pushing 3)) ∧
          r.2.2.threads (.inl 1) = .running (.inl (.pushing 3)) ∧
          r.2.2.threads (.inr 0) = .running (.inr (.returned 1)) ∧
          r.2.2.threads (.inr 1) = .running (.inr (.returned 1)))) = some true
      by decide +kernel)
  obtain ⟨hins, hshared, hfst, hsnd, hthd, hfth⟩ := of_decide_eq_true hend
  have hrun := Program.run_of_play (fun _ _ _ _ => Fifo.apply_of_callWithin)
    hexec
  refine ⟨tr, p, hrun, ?_, ?_, ?_, ?_, ?_, ?_, ?_⟩
  · rw [hins]
    exact ⟨by decide, by decide⟩
  · exact Sum.forall.mpr
      ⟨Fin.forall_fin_two.mpr ⟨⟨_, hfst, rfl⟩, ⟨_, hsnd, rfl⟩⟩,
        Fin.forall_fin_two.mpr ⟨⟨_, hthd, rfl⟩, ⟨_, hfth, rfl⟩⟩⟩
  · rw [hins]
    rfl
  · rw [hshared]
  · rw [hins]
    rfl
  · rw [hshared]
  · intro hcovers
    have hle := hcovers.start_le 0 1 (by rw [hins]; rfl)
    rw [hshared] at hle
    exact absurd hle (by decide)

end Bench
end ConcurrentQueues
