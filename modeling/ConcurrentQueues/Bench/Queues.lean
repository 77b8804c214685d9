import ConcurrentQueues.Bench.SingleConsumer
import ConcurrentQueues.Mpmc.Linearizable
import ConcurrentQueues.Mutex.Exceptions
import ConcurrentQueues.Mutex.Wakeup
import ConcurrentQueues.Spsc.Linearizable
import ConcurrentQueues.Support.Waiting

/-!
# The queues under the benchmarks

The threads of a benchmark call `push` and `pop` and nothing else.  In
`StdAtomicMPMCQueue` and in the rings for one producer and one consumer these
calls loop until they succeed; in the queues under a mutex they sleep, and no
wake-up is lost.  Either way the queue takes the calls and waits only where a
FIFO queue would, so that the benchmarks come to their end on it.
-/

namespace ConcurrentQueues

open Fifo

/-! ## `StdAtomicMPMCQueue` -/

namespace StdAtomicMPMCQueue

variable {ι T : Type*} {n : ℕ}

/-- A thread in a call has a step to take. -/
theorem exists_move (q : Queue T) {th : Thread T} (hth : th ≠ .idle) :
    ∃ e q' th', Move .unbounded n q th e q' th' ∧ ∀ op, e ≠ .call op := by
  cases th with
  | idle => exact absurd rfl hth
  | push item pc =>
      cases pc with
      | load => exact ⟨_, _, _, .pushLoad q.writeIdx.load_zero, nofun⟩
      | check v =>
          by_cases hseq : (q.buffer (v % n)).seq = v
          · exact ⟨_, _, _, .pushReady hseq, nofun⟩
          · exact ⟨_, _, _, .pushBusy hseq, nofun⟩
      | exchange v => exact ⟨_, _, _, .pushRetry q.writeIdx.load_zero, nofun⟩
      | claimed v => exact ⟨_, _, _, .pushCopyBegin, nofun⟩
      | copying v => exact ⟨_, _, _, .pushCopyEnd, nofun⟩
      | store v => exact ⟨_, _, _, .pushStore, nofun⟩
  | pop item pc =>
      cases pc with
      | load => exact ⟨_, _, _, .popLoad q.readIdx.load_zero, nofun⟩
      | check v =>
          by_cases hseq : (q.buffer (v % n)).seq = v + 1
          · exact ⟨_, _, _, .popReady hseq, nofun⟩
          · exact ⟨_, _, _, .popBusy hseq, nofun⟩
      | exchange v => exact ⟨_, _, _, .popRetry q.readIdx.load_zero, nofun⟩
      | claimed v => exact ⟨_, _, _, .popCopyBegin, nofun⟩
      | copying v => exact ⟨_, _, _, .popCopyEnd, nofun⟩
      | store v => exact ⟨_, _, _, .popStore, nofun⟩
  | done idx r => exact ⟨_, _, _, .ret, nofun⟩

theorem phase_eq_idle_iff {log : List T} {th : Thread T} :
    th.phase log = .idle ↔ th = .idle := by
  cases th with
  | idle | done => simp [Thread.phase]
  | push item pc | pop item pc => cases pc <;> simp [Thread.phase, Pc.owned]

theorem blocking [DecidableEq ι] (hn : 2 ≤ n) :
    (object T n).Blocking (fun _ op => op.blocks) (system .unbounded n ι T)
      fun a => (shows a).bind SeqObject.seen := by
  refine (linearizes_abstraction hn).implements.blocking ?_ ?_
  · rintro tr s _ rfl t op hop hidle
    have ht : s.threads t = .idle := phase_eq_idle_iff.mp hidle
    cases op with
    | push item =>
        have hmove : Move .unbounded n s.shared (s.threads t)
            (.call (.push item)) s.shared (.push item .load) := by
          rw [ht]
          exact .callPush item
        exact ⟨(t, _), _, ⟨_, _, moves_iff.mpr hmove, rfl⟩, rfl⟩
    | pop =>
        have hmove : Move .unbounded n s.shared (s.threads t) (.call .pop)
            s.shared (.pop none .load) := by
          rw [ht]
          exact .callPop
        exact ⟨(t, _), _, ⟨_, _, moves_iff.mpr hmove, rfl⟩, rfl⟩
    | tryPush item | tryPop => cases hop
  · rintro tr s _ rfl t hbusy
    obtain ⟨e, q, th, hmove, hcall⟩ := exists_move (n := n) s.shared
      fun ht => hbusy (phase_eq_idle_iff.mpr ht)
    refine ⟨(t, e), _, ⟨q, th, moves_iff.mpr hmove, rfl⟩, fun u op => ?_⟩
    cases e with
    | call op => exact absurd rfl (hcall op)
    | _ => simp [shows, SeqObject.seen]

end StdAtomicMPMCQueue

/-! ## One producer and one consumer -/

namespace Spsc

variable {T : Type*} {n : ℕ} {calls : OnFail → Bool}

/-- The producer pushes and the consumer pops. -/
def Side.Role : Side → Op T → Prop
  | .producer, op => ∃ x, op = .push x
  | .consumer, op => op = .pop

variable (n calls) in
theorem exists_pushMove (q : Queue T) {p : Producer Pc T} (hp : p ≠ .idle) :
    ∃ e q' p', PushMove .unbounded n calls q p e q' p' ∧
      ∀ op, e ≠ .call op := by
  cases p with
  | idle => exact absurd rfl hp
  | push f item pc =>
      cases pc with
      | load => exact ⟨_, _, _, .load, nofun⟩
      | test t =>
          by_cases h : full .unbounded n t q.cachedHead
          · exact ⟨_, _, _, .testFull h, nofun⟩
          · exact ⟨_, _, _, .testRoom h, nofun⟩
      | refresh t => exact ⟨_, _, _, .refresh, nofun⟩
      | retest t =>
          by_cases h : full .unbounded n t q.cachedHead
          · exact ⟨_, _, _, .retestFull h, nofun⟩
          · exact ⟨_, _, _, .retestRoom h, nofun⟩
      | enter t => exact ⟨_, _, _, .enter, nofun⟩
      | inSlot t => exact ⟨_, _, _, .inSlot, nofun⟩
      | store t => exact ⟨_, _, _, .store, nofun⟩
  | done b => exact ⟨_, _, _, .ret, nofun⟩

variable (n calls) in
theorem exists_popMove (q : Queue T) {c : Consumer Pc T} (hc : c ≠ .idle) :
    ∃ e q' c', PopMove .unbounded n calls q c e q' c' ∧
      ∀ op, e ≠ .call op := by
  cases c with
  | idle => exact absurd rfl hc
  | pop f item pc =>
      cases pc with
      | load => exact ⟨_, _, _, .load, nofun⟩
      | test h =>
          by_cases he : empty q.cachedTail h
          · exact ⟨_, _, _, .testEmpty he, nofun⟩
          · exact ⟨_, _, _, .testItem he, nofun⟩
      | refresh h => exact ⟨_, _, _, .refresh, nofun⟩
      | retest h =>
          by_cases he : empty q.cachedTail h
          · exact ⟨_, _, _, .retestEmpty he, nofun⟩
          · exact ⟨_, _, _, .retestItem he, nofun⟩
      | enter h => exact ⟨_, _, _, .enter, nofun⟩
      | inSlot h => exact ⟨_, _, _, .inSlot, nofun⟩
      | store h => exact ⟨_, _, _, .store, nofun⟩
  | done item => exact ⟨_, _, _, .ret, nofun⟩

theorem Producer.phase_eq_idle_iff {cachedHead : ℕ} {p : Producer Pc T} :
    p.phase n cachedHead = .idle ↔ p = .idle := by
  cases p with
  | idle | done => simp [Producer.phase]
  | push f item pc =>
      cases pc with
      | retest t =>
          simp only [Producer.phase]
          split_ifs <;> simp
      | _ => simp [Producer.phase]

theorem Consumer.phase_eq_idle_iff {cachedTail : ℕ} {c : Consumer Pc T} :
    c.phase cachedTail = .idle ↔ c = .idle := by
  cases c with
  | idle | done => simp [Consumer.phase]
  | pop f item pc =>
      cases pc with
      | retest h =>
          simp only [Consumer.phase]
          split_ifs <;> simp
      | _ => simp [Consumer.phase]

/-- The producer and the consumer may call whatever does not give up. -/
theorem blocking (n : ℕ) {f : OnFail} (hf : calls f) (hwaits : f ≠ .giveUp) :
    (object T n).Blocking Side.Role (system .unbounded n calls T) shows := by
  refine (implements_fifo calls).blocking ?_ ?_
  · rintro tr ⟨q, p, c⟩ _ rfl t op hop hidle
    cases t with
    | producer =>
        obtain ⟨x, rfl⟩ := hop
        obtain rfl : p = .idle := Producer.phase_eq_idle_iff.mp hidle
        have hpush : f.pushOp x = .push x := if_neg hwaits
        refine ⟨(.producer, .call (f.pushOp x)), _,
          .producer (pushMoves_iff.mpr (.call x hf)), ?_⟩
        rw [shows, hpush]
    | consumer =>
        obtain rfl : op = .pop := hop
        obtain rfl : c = .idle := Consumer.phase_eq_idle_iff.mp hidle
        have hpop : f.popOp = (.pop : Op T) := if_neg hwaits
        refine ⟨(.consumer, .call f.popOp), _,
          .consumer (popMoves_iff.mpr (.call hf)), ?_⟩
        rw [shows, hpop]
  · rintro tr ⟨q, p, c⟩ _ rfl t hbusy
    cases t with
    | producer =>
        obtain ⟨e, q', p', hmove, hcall⟩ := exists_pushMove n
          calls q fun hp => hbusy (Producer.phase_eq_idle_iff.mpr hp)
        refine ⟨(.producer, e), _, .producer (pushMoves_iff.mpr hmove), ?_⟩
        intro u op
        cases e with
        | call op => exact absurd rfl (hcall op)
        | _ => simp [shows]
    | consumer =>
        obtain ⟨e, q', c', hmove, hcall⟩ := exists_popMove n
          calls q fun hc => hbusy (Consumer.phase_eq_idle_iff.mpr hc)
        refine ⟨(.consumer, e), _, .consumer (popMoves_iff.mpr hmove), ?_⟩
        intro u op
        cases e with
        | call op => exact absurd rfl (hcall op)
        | _ => simp [shows]

end Spsc

/-! ## The queues under a mutex -/

theorem Mutex.Represents.blocking {B T ι : Type*} [DecidableEq ι]
    {k : Container B T} {cap : ℕ∞} {rep : B → List T → Prop}
    {M : Monitor (Op T) B Cond (Res T)} {supply : Cond → B → ℕ}
    (h : Represents k cap rep) (hcalls : Calls M k) (hinit : rep M.init [])
    (hM : M.Supplies supply) (may : ι → Op T → Prop) :
    (Fifo.object T cap).Blocking may (M.sleeping ι) Monitor.shown :=
  (Monitor.blocking_object hM may).refine (h.refines hcalls hinit)
    (h.refined hcalls hinit)

namespace Bench

/-- The queues that any number of threads may call, with their capacities.  Those
under a mutex have no spurious wake-ups. -/
inductive Queue (ι : Type) [DecidableEq ι] : ∀ {σ α : Type}, ℕ∞ → Lts σ α →
    (α → Option (ι × QueueAct)) → Prop
  | stdAtomicMPMC (n : ℕ) (hn : 2 ≤ n) :
      Queue ι n (StdAtomicMPMCQueue.system .unbounded n ι ℕ)
        fun a => (StdAtomicMPMCQueue.shows a).bind SeqObject.seen
  | mutexRingBuffer (n : ℕ) :
      Queue ι n ((MutexRingBufferQueue.monitor ℕ n).sleeping ι) Monitor.shown
  | mutexBoostRingBuffer {C : Type} (cb : CircularBuffer ℕ C) (n : ℕ) :
      Queue ι n ((MutexBoostRingBufferQueue.monitor cb n).sleeping ι)
        Monitor.shown
  | mutexDeque :
      Queue ι ⊤ ((MutexDequeQueue.monitor ℕ).sleeping ι) Monitor.shown
  | mutexList :
      Queue ι ⊤ ((MutexListQueue.monitor ℕ).sleeping ι) Monitor.shown

theorem Queue.blocking {ι σ α : Type} [DecidableEq ι] {cap : ℕ∞} {M : Lts σ α}
    {shows : α → Option (ι × QueueAct)} (h : Queue ι cap M shows) :
    (Fifo.object ℕ cap).Blocking (fun _ op => op.blocks) M shows := by
  have hsequence := Mutex.supplies_unbounded
    (Mutex.sequence_countsItems (T := ℕ)) (fun _ => rfl) []
  have hcalls := Mutex.calls_unbounded (Mutex.sequence ℕ) (fun _ => rfl) []
  cases h with
  | stdAtomicMPMC n hn => exact StdAtomicMPMCQueue.blocking hn
  | mutexRingBuffer n =>
      exact (MutexRingBufferQueue.represents n).blocking
        (MutexRingBufferQueue.calls ℕ n) (RingBuffer.Holds.new n)
        (Mutex.supplies_bounded MutexRingBufferQueue.countsItems
          MutexRingBufferQueue.countsRoom _) _
  | mutexBoostRingBuffer cb n =>
      exact (MutexBoostRingBufferQueue.represents cb n).blocking
        (MutexBoostRingBufferQueue.calls cb n)
        (MutexBoostRingBufferQueue.Holds.new cb n)
        (Mutex.supplies_bounded (MutexBoostRingBufferQueue.countsItems cb)
          (MutexBoostRingBufferQueue.countsRoom cb) _) _
  | mutexDeque | mutexList =>
      exact Mutex.sequence_represents.blocking hcalls rfl hsequence _

/-! ## The calls of the benchmarks -/

/-- The threads of the first group push, those of the second pop. -/
def Role {ι ι' : Type} (t : ι ⊕ ι') (op : Op ℕ) : Prop :=
  t.elim (fun _ => ∃ x, op = .push x) fun _ => op = .pop

theorem Role.blocks {ι ι' : Type} {t : ι ⊕ ι'} {op : Op ℕ} (h : Role t op) :
    op.blocks := by
  cases t with
  | inl t =>
      obtain ⟨x, rfl⟩ := h
      rfl
  | inr t =>
      obtain rfl : op = .pop := h
      rfl

theorem producer_calls {N : ℕ} {l : Producer} {op : Op ℕ}
    {k : Res ℕ → Producer} (h : producer N l = .call op k) :
    ∃ x, op = .push x := by
  cases l with
  | timing | starting => cases h
  | pushing n =>
      simp only [producer] at h
      split_ifs at h
      exact ⟨n, (Next.call.inj h).1.symm⟩

theorem singleProducer_calls {N C : ℕ} {l : SingleProducer} {op : Op ℕ}
    {k : Res ℕ → SingleProducer} (h : singleProducer N C l = .call op k) :
    ∃ x, op = .push x := by
  cases l with
  | timing | starting => cases h
  | pushing n | flagging i =>
      simp only [singleProducer] at h
      split_ifs at h
      exact ⟨_, (Next.call.inj h).1.symm⟩

theorem consumer_calls {flag : ℕ} {l : Consumer} {op : Op ℕ}
    {k : Res ℕ → Consumer} (h : consumer flag l = .call op k) :
    op = .pop := by
  cases l with
  | popping s => exact (Next.call.inj h).1.symm
  | timing | leaving | ending | returned => cases h

theorem singleConsumer_calls {flag : ℕ} {l : SingleConsumer} {op : Op ℕ}
    {k : Res ℕ → SingleConsumer} (h : singleConsumer flag l = .call op k) :
    op = .pop := by
  cases l with
  | popping p s => exact (Next.call.inj h).1.symm
  | timing | ending | returned => cases h

section Calls

variable {V : Type} {S : SeqObject V (Op ℕ) (Res ℕ)} {op : Op ℕ}

theorem balanced_calls {T N : ℕ} {t : Fin T ⊕ Fin T}
    (h : (balanced T N).Calls S t op) : Role t op := by
  have hcode := Program.calls_groups h
  cases t with
  | inl t =>
      obtain ⟨l, k, hl⟩ := hcode
      exact producer_calls hl
  | inr t =>
      obtain ⟨l, k, hl⟩ := hcode
      exact consumer_calls hl

theorem singleProducerIteration_calls {C N : ℕ} {t : Unit ⊕ Fin C}
    (h : (singleProducerIteration C N).Calls S t op) : Role t op := by
  have hcode := Program.calls_groups h
  cases t with
  | inl t =>
      obtain ⟨l, k, hl⟩ := hcode
      exact singleProducer_calls hl
  | inr t =>
      obtain ⟨l, k, hl⟩ := hcode
      exact consumer_calls hl

theorem singleConsumerIteration_calls {P N : ℕ} {t : Fin P ⊕ Unit}
    (h : (singleConsumerIteration P N).Calls S t op) : Role t op := by
  have hcode := Program.calls_groups h
  cases t with
  | inl t =>
      obtain ⟨l, k, hl⟩ := hcode
      exact producer_calls hl
  | inr t =>
      obtain ⟨l, k, hl⟩ := hcode
      exact singleConsumer_calls hl

end Calls

/-- The producer is the thread of the first group, the consumer that of the
second. -/
def sides : Side ≃ Fin 1 ⊕ Fin 1 where
  toFun
    | .producer => .inl 0
    | .consumer => .inr 0
  invFun t := t.elim (fun _ => .producer) fun _ => .consumer
  left_inv t := by cases t <;> rfl
  right_inv t := by
    cases t with
    | inl i | inr i => exact congrArg _ (Subsingleton.elim 0 i)

/-- What the producer and the consumer of a ring show under those names. -/
def sided {T : Type} (a : Side × Spsc.Event T) :
    Option ((Fin 1 ⊕ Fin 1) × Act (Op T) (Res T)) :=
  (Spsc.shows a).map (Prod.map sides id)

theorem sided_blocking (n : ℕ) {calls : Spsc.OnFail → Bool} {f : Spsc.OnFail}
    (hf : calls f) (hwaits : f ≠ .giveUp) :
    (Fifo.object ℕ n).Blocking Role (Spsc.system .unbounded n calls ℕ)
      sided := by
  refine ((Spsc.blocking n hf hwaits).rename sides).mono fun t op hop => ?_
  cases t with
  | inl t | inr t => exact hop

/-! ## The benchmarks on the queues -/

/-- The benchmarks for many threads come to their end on every queue for many
threads, and the benchmark of one producer and one consumer on the rings for
these as well. -/
theorem benchmarks_end {N : ℕ} (hN : N + 1 < 2 ^ 32 - 1) :
    (∀ {T : ℕ} {cap : ℕ∞} {σ α : Type} {M : Lts σ α}
      {shows : α → Option ((Fin T ⊕ Fin T) × QueueAct)},
      1 ≤ cap → Queue (Fin T ⊕ Fin T) cap M shows → ∃ bound,
        (balanced T N).EndsOn (Fifo.object ℕ cap) (BalancedDone T N) bound M
          shows) ∧
    (∀ {C : ℕ} {cap : ℕ∞} {σ α : Type} {M : Lts σ α}
      {shows : α → Option ((Unit ⊕ Fin C) × QueueAct)},
      1 ≤ C → C < 2 ^ 32 → 1 ≤ cap → Queue (Unit ⊕ Fin C) cap M shows →
      ∃ bound, (singleProducerIteration C N).EndsOn (Fifo.object ℕ cap)
        (SingleProducerDone C N) bound M shows) ∧
    (∀ {P : ℕ} {cap : ℕ∞} {σ α : Type} {M : Lts σ α}
      {shows : α → Option ((Fin P ⊕ Unit) × QueueAct)},
      1 ≤ P → P < 2 ^ 32 → 1 ≤ cap → Queue (Fin P ⊕ Unit) cap M shows →
      ∃ bound, (singleConsumerIteration P N).EndsOn (Fifo.object ℕ cap)
        (fun _ c q => q = [] ∧ c (.inr ()) = .running (.inr (.returned
          ((P * (N * (N + 1) / 2) + (P - 1) * (N + 1)) % 2 ^ 64)))) bound M
        shows) ∧
    ∀ {n : ℕ}, 1 ≤ n → ∃ bound,
      (balanced 1 N).EndsOn (Fifo.object ℕ n) (BalancedDone 1 N) bound
        (Spsc.alpha.system .unbounded n ℕ) sided ∧
      (balanced 1 N).EndsOn (Fifo.object ℕ n) (BalancedDone 1 N) bound
        (Spsc.StdAtomicSPSCQueue.system .unbounded n ℕ) sided := by
  refine ⟨fun hcap hq => ?_, fun hC hC' hcap hq => ?_,
    fun hP hP' hcap hq => ?_, fun {n} hn => ?_⟩
  · obtain ⟨bound, hends⟩ := balanced_ends hN hcap
    exact ⟨bound, hends (hq.blocking.mono
      fun t op hop => (balanced_calls hop).blocks)⟩
  · obtain ⟨bound, hends⟩ := singleProducer_ends hC hC' hN hcap
    exact ⟨bound, hends (hq.blocking.mono
      fun t op hop => (singleProducerIteration_calls hop).blocks)⟩
  · obtain ⟨bound, hends⟩ := singleConsumer_ends hP hP' hN hcap
    exact ⟨bound, hends (hq.blocking.mono
      fun t op hop => (singleConsumerIteration_calls hop).blocks)⟩
  · obtain ⟨bound, hends⟩ := balanced_ends (T := 1) hN
      (show 1 ≤ (n : ℕ∞) by exact_mod_cast hn)
    refine ⟨bound, hends ?_, hends ?_⟩
    · exact (sided_blocking n (f := .startOver) (by decide) nofun).mono
        fun t op => balanced_calls
    · exact (sided_blocking n (f := .testAgain) (by decide) nofun).mono
        fun t op => balanced_calls

/-- The producer and the consumer of `alpha::spsc` take turns on a ring of one
slot. -/
def turns : List (Option (Spsc.OnFail × ℕ) ⊕ Option Spsc.OnFail) :=
  (.inl (some (.startOver, 1)) :: List.replicate 6 (.inl none)) ++
    (.inr (some .startOver) :: List.replicate 8 (.inr none)) ++
    (.inl (some (.startOver, 2)) :: List.replicate 8 (.inl none)) ++
    (.inr (some .startOver) :: List.replicate 8 (.inr none))

theorem benchmarks_end_turns :
    ∃ tr p, ((balanced 1 1).on (Spsc.alpha.system .unbounded 1 ℕ) sided).Run
        tr p ∧
      p.2.threads (.inr 0) = .running (.inr (.returned 1)) ∧
      ∀ a, (Fifo.object ℕ 1).Explains
          ((tr.filterMap Prod.snd).filterMap Program.visible) a →
        BalancedDone 1 1 ((tr.filterMap Prod.snd).filterMap Program.visible)
          p.2.threads a.shared := by
  obtain ⟨⟨trM, s⟩, hexec, hhist⟩ := Option.map_eq_some_iff.mp
    (show (Lts.exec (Duo.next (Spsc.produce .unbounded 1 (· ≠ .testAgain))
        (Spsc.consume .unbounded 1 (· ≠ .testAgain)))
        ⟨Spsc.Queue.new, .idle, .idle⟩ turns).map
        (fun r => r.1.filterMap sided) = some
          [(.inl 0, .call (.push 1)), (.inl 0, .ret (.pushed true)),
            (.inr 0, .call .pop), (.inr 0, .ret (.popped (some 1))),
            (.inl 0, .call (.push 2)), (.inl 0, .ret (.pushed true)),
            (.inr 0, .call .pop), (.inr 0, .ret (.popped (some 2)))]
      by with_unfolding_all rfl)
  have hM : (Spsc.alpha.system .unbounded 1 ℕ).Run trM s := Duo.run_of_exec hexec
  obtain ⟨⟨trA, a, c⟩, hplay, hend⟩ := Option.map_eq_some_iff.mp
    (show (Lts.exec ((balanced 1 1).play (Fifo.callWithin 1))
      ((balanced 1 1).on ((Fifo.object ℕ 1).atomic _) SeqObject.seen).init
      [(.inl 0, 5), (.inl 0, 0), (.inl 0, 0), (.inl 0, 0), (.inl 0, 0),
        (.inr 0, 0), (.inr 0, 0), (.inr 0, 0),
        (.inl 0, 0), (.inl 0, 0), (.inl 0, 0),
        (.inr 0, 0), (.inr 0, 0), (.inr 0, 0),
        (.inr 0, 9), (.inr 0, 0), (.inr 0, 0)]).map
      (fun r => ((r.1.filterMap Prod.snd).filterMap Program.visible,
        r.2.2.threads (.inl 0), r.2.2.threads (.inr 0))) = some
          ([(.inl 0, .call (.push 1)), (.inl 0, .ret (.pushed true)),
            (.inr 0, .call .pop), (.inr 0, .ret (.popped (some 1))),
            (.inl 0, .call (.push 2)), (.inl 0, .ret (.pushed true)),
            (.inr 0, .call .pop), (.inr 0, .ret (.popped (some 2)))],
            .running (.inl (.pushing 3)), .running (.inr (.returned 1)))
      by with_unfolding_all rfl)
  obtain ⟨hseen, hproducer, hconsumer⟩ := Prod.mk.inj hend |>.imp_right
    Prod.mk.inj
  obtain ⟨-, hclients, -⟩ := Lts.runs_of_sync (Program.run_of_play
    (fun _ _ _ _ => Fifo.apply_of_callWithin) hplay)
  obtain ⟨tr, hrun, -, hsnd⟩ :=
    Lts.sync_of_runs hM hclients (hhist.trans hseen.symm)
  obtain ⟨bound, hends, -⟩ :=
    (benchmarks_end (N := 1) (by decide)).2.2.2 (n := 1) le_rfl
  refine ⟨tr, _, hrun, hconsumer, (hends tr s c hrun).2.2 ?_⟩
  rintro (i | i)
  · obtain rfl := Subsingleton.elim i 0
    exact ⟨_, hproducer, rfl⟩
  · obtain rfl := Subsingleton.elim i 0
    exact ⟨_, hconsumer, rfl⟩

end Bench
end ConcurrentQueues
