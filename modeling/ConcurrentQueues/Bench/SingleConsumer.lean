import ConcurrentQueues.Bench.Drain

/-!
# The benchmark with a single consumer

The only consumer counts the stop flags of the producers and leaves with the
last one.  The count stands behind the comparison with the flag in one
condition, so a flag that is not the last fails the condition as a number does,
and the line below adds it to the sum.  The benchmark therefore ends as the
others do, but its sum is that of the numbers alone only for a single producer.
-/

namespace ConcurrentQueues

universe u v

namespace Bench

open StopFlags

/-! ## Duties -/

/-- The flags a consumer at the head of its loop waits for.  It decrements its
count before it looks at it. -/
def flagsLeft (producerCount : ℕ) : ℕ :=
  (producerCount + 2 ^ 32 - 1) % 2 ^ 32 + 1

theorem flagsLeft_of_pos {count : ℕ} (hpos : 0 < count)
    (hlt : count < 2 ^ 32) : flagsLeft count = count := by
  rw [flagsLeft]
  omega

theorem SingleConsumer.loop_last {flag count s : ℕ}
    (h : (count + 2 ^ 32 - 1) % 2 ^ 32 = 0) :
    loop flag count s (.popped (some flag)) = .timing s := by
  simp only [loop, if_true, h]

theorem SingleConsumer.loop_flag {flag count s : ℕ}
    (h : (count + 2 ^ 32 - 1) % 2 ^ 32 ≠ 0) :
    loop flag count s (.popped (some flag)) =
      .popping ((count + 2 ^ 32 - 1) % 2 ^ 32) ((s + flag) % 2 ^ 64) := by
  simp only [loop, if_true, if_neg h]

theorem SingleConsumer.loop_item {flag count s x : ℕ} (h : x ≠ flag) :
    loop flag count s (.popped (some x)) =
      .popping count ((s + x) % 2 ^ 64) := by
  simp only [loop, if_neg h]

def singleConsumerDuties : Duties SingleConsumer ℕ where
  rest _ := []
  wants
    | .popping producerCount _ => flagsLeft producerCount
    | .timing _ | .ending _ _ | .returned _ => 0
  own
    | .popping _ _ | .timing _ => 2
    | .ending _ _ => 1
    | .returned _ => 0

theorem singleConsumer_obeys (flag : ℕ) (l : SingleConsumer) :
    singleConsumerDuties.Obeys flag l (singleConsumer flag l) := by
  cases l with
  | popping count s =>
      refine ⟨rfl, fun x => ⟨rfl, ?_⟩⟩
      by_cases hx : x = flag
      · subst hx
        rw [if_pos rfl]
        by_cases hlast : (count + 2 ^ 32 - 1) % 2 ^ 32 = 0
        · rw [SingleConsumer.loop_last hlast]
          refine ⟨?_, Nat.le_refl 2⟩
          change 0 + 1 = flagsLeft count
          rw [flagsLeft, hlast]
        · rw [SingleConsumer.loop_flag hlast]
          refine ⟨?_, Nat.le_refl 2⟩
          change flagsLeft _ + 1 = flagsLeft count
          rw [flagsLeft_of_pos (Nat.pos_of_ne_zero hlast)
            (Nat.mod_lt _ (Nat.two_pow_pos 32)), flagsLeft]
      · rw [SingleConsumer.loop_item hx, if_neg hx]
        exact ⟨rfl, Nat.le_refl 2⟩
  | timing s => exact fun _ _ => ⟨rfl, rfl, Nat.lt_succ_self 1⟩
  | ending s now => exact fun _ _ => ⟨rfl, rfl, Nat.zero_lt_one⟩
  | returned s => exact ⟨rfl, rfl⟩

theorem singleConsumer_protocol {P N : ℕ} (hP : 1 ≤ P) (hP' : P < 2 ^ 32)
    (hN : N + 1 < 2 ^ 32 - 1) :
    Protocol (singleConsumerIteration P N) (N + 1)
      ((producerDuties N).groups singleConsumerDuties) := by
  have hflag : (N + 1) % 2 ^ 32 = N + 1 := Nat.mod_eq_of_lt (by omega)
  rw [singleConsumerIteration, hflag]
  refine protocol_groups (producer_obeys hN) (singleConsumer_obeys _) ?_ ?_ ?_
  · exact fun x => producerDuties_ended
  · intro x hx
    cases hx
  · simp [producerDuties, singleConsumerDuties, range'_one_succ,
      flagsLeft_of_pos hP hP',
      List.count_eq_zero.mpr (flag_notMem_range' N)]

/-! ## What the consumer adds up -/

/-- The items popped are those added to the sum and, behind them, the last of
`P` flags. -/
def SummedTo (P flag : ℕ) (items : List ℕ) (sum : ℕ) : Prop :=
  ∃ added, items = added ++ [flag] ∧ added.count flag + 1 = P ∧
    sum = added.sum % 2 ^ 64

/-- What the consumer has done with the items it popped. -/
def SingleConsumer.Keeps (P flag : ℕ) (items : List ℕ) : SingleConsumer → Prop
  | .popping count s =>
      items.count flag + count = P ∧ 0 < count ∧ s = items.sum % 2 ^ 64
  | .timing s | .ending s _ | .returned s => SummedTo P flag items s

theorem SingleConsumer.Keeps.loop {P flag count s x : ℕ} {items : List ℕ}
    (hP : P < 2 ^ 32) (h : Keeps P flag items (.popping count s)) :
    Keeps P flag (items ++ [x]) (loop flag count s (.popped (some x))) := by
  obtain ⟨hcount, hpos, hs⟩ := h
  have hsum : (s + x) % 2 ^ 64 = (items ++ [x]).sum % 2 ^ 64 := by
    rw [hs, Nat.mod_add_mod, List.sum_append, List.sum_singleton]
  have hdec : (count + 2 ^ 32 - 1) % 2 ^ 32 = count - 1 := by omega
  by_cases hx : x = flag
  · subst hx
    by_cases hlast : (count + 2 ^ 32 - 1) % 2 ^ 32 = 0
    · rw [SingleConsumer.loop_last hlast]
      exact ⟨items, rfl, by omega, hs⟩
    · rw [SingleConsumer.loop_flag hlast]
      refine ⟨?_, Nat.pos_of_ne_zero hlast, hsum⟩
      rw [List.count_append, List.count_singleton_self]
      omega
  · rw [SingleConsumer.loop_item hx]
    refine ⟨?_, hpos, hsum⟩
    rw [List.count_append, List.count_singleton, beq_false_of_ne hx]
    simpa using hcount

/-- Whatever a call returns. -/
theorem SingleConsumer.Keeps.ret {P flag count s : ℕ} {items : List ℕ}
    (hP : P < 2 ^ 32) (h : Keeps P flag items (.popping count s))
    (r : Fifo.Res ℕ) :
    Keeps P flag (items ++ (item? r).toList)
      (SingleConsumer.loop flag count s r) := by
  cases r with
  | pushed b => exact (List.append_nil items).symm ▸ h
  | popped x =>
      cases x with
      | none => exact (List.append_nil items).symm ▸ h
      | some x => exact h.loop hP

/-- The consumer has left its loop. -/
def SingleConsumer.Left : SingleConsumer → Prop
  | .popping _ _ => False
  | .timing _ | .ending _ _ | .returned _ => True

/-- It has left when it has popped the flags of all producers. -/
theorem SingleConsumer.Keeps.left_iff {P flag : ℕ} {items : List ℕ}
    {l : SingleConsumer} (h : l.Keeps P flag items) :
    l.Left ↔ items.count flag = P := by
  cases l with
  | popping count s =>
      obtain ⟨hcount, hpos, -⟩ := h
      exact iff_of_false id (by omega)
  | timing | ending | returned =>
      obtain ⟨added, rfl, hcount, -⟩ := h
      rw [List.count_append, List.count_singleton_self, hcount]
      exact iff_of_true trivial rfl

theorem singleConsumer_keeps {P N : ℕ} {cap : ℕ∞} (hP : 1 ≤ P)
    (hP' : P < 2 ^ 32) (hN : N + 1 < 2 ^ 32 - 1)
    {tr : List ((Fin P ⊕ Unit) × (ℤ ⊕ Fifo.Op ℕ × Fifo.Res ℕ))}
    {s : Pool (Fin P ⊕ Unit) (List ℕ × Memory) (Producer ⊕ SingleConsumer)}
    (hrun : ((singleConsumerIteration P N).direct
      (Fifo.object ℕ cap)).Run tr s) :
    ∃ l, s.threads (.inr ()) = .inr l ∧
      l.Keeps P (N + 1) (taken (.inr ()) tr) := by
  have hflag : (N + 1) % 2 ^ 32 = N + 1 := Nat.mod_eq_of_lt (by omega)
  rw [singleConsumerIteration, hflag] at hrun
  refine Program.groups_induction
    (I := fun l rs => l.Keeps P (N + 1) (rs.filterMap item?)) ?_ ?_ ?_ hrun ()
  · exact ⟨Nat.zero_add P, hP, rfl⟩
  · rintro l f g x rs hnext hkeeps
    cases l with
    | popping | returned => cases hnext
    | timing | ending =>
        obtain rfl := Next.own.inj hnext
        exact hkeeps
  · rintro l op k q r q' rs hnext happly hkeeps
    cases l with
    | popping count s =>
        obtain ⟨rfl, rfl⟩ := Next.call.inj hnext
        cases happly with
        | @pop q x =>
            rw [List.filterMap_append]
            exact hkeeps.loop hP'
    | timing | ending | returned => cases hnext

/-- A consumer that has left its loop has popped everything the producers
pushed. -/
theorem left_sum {P N : ℕ} {cap : ℕ∞} (hP : 1 ≤ P) (hP' : P < 2 ^ 32)
    (hN : N + 1 < 2 ^ 32 - 1)
    {tr : List ((Fin P ⊕ Unit) × (ℤ ⊕ Fifo.Op ℕ × Fifo.Res ℕ))}
    {s : Pool (Fin P ⊕ Unit) (List ℕ × Memory) (Producer ⊕ SingleConsumer)}
    (hrun : ((singleConsumerIteration P N).direct
      (Fifo.object ℕ cap)).Run tr s)
    {l : SingleConsumer} (hl : s.threads (.inr ()) = .inr l)
    (hleft : l.Left) :
    s.shared.1 = [] ∧
      (taken (.inr ()) tr).sum = P * (N * (N + 1) / 2) + P * (N + 1) := by
  have hproto := singleConsumer_protocol hP hP' hN
  have hwants : ∀ t, ((producerDuties N).groups singleConsumerDuties).wants
      (s.threads t) = 0 := by
    rintro (t | t)
    · exact (Nat.add_eq_zero_iff.mp (hproto.duties hrun (.inl t)).1).1
    · rw [hl]
      cases l with
      | popping => exact hleft.elim
      | timing | ending | returned => rfl
  obtain ⟨hqueue, hrests⟩ := hproto.drained hrun hwants
  have hnone : ∀ t, taken (.inl t) tr = [] :=
    fun t => hproto.taken_eq_nil hrun rfl
  refine ⟨hqueue, ?_⟩
  have hitems := hproto.items hrun
  simp only [hqueue, hrests, Fintype.sum_sum_type, hnone, Multiset.coe_nil,
    Finset.sum_const_zero, zero_add, Finset.univ_unique, Finset.sum_singleton]
    at hitems
  have htotal := congrArg Multiset.sum hitems
  simp only [singleConsumerIteration, Program.groups, Duties.groups,
    producerDuties, singleConsumerDuties, range'_one_succ, Sum.elim_inl,
    Sum.elim_inr, Finset.sum_const, Finset.card_univ, Fintype.card_fin,
    Multiset.coe_nil, add_zero, Multiset.sum_nsmul, Multiset.sum_coe,
    List.sum_append, List.sum_singleton, sum_range'_one, smul_eq_mul,
    mul_add] at htotal
  simpa [mul_add] using htotal

/-- The consumer beside any implementation, between its calls or in one. -/
theorem singleConsumer_clients {P N : ℕ} (hP : 1 ≤ P) (hP' : P < 2 ^ 32)
    (hN : N + 1 < 2 ^ 32 - 1)
    {tr : List ((Fin P ⊕ Unit) × (ℤ ⊕ QueueAct))}
    {c : Pool (Fin P ⊕ Unit) Memory (Client (Producer ⊕ SingleConsumer))}
    (hrun : (singleConsumerIteration P N).clients.Run tr c) :
    ∃ l : SingleConsumer,
      l.Keeps P (N + 1) (popped (.inr ()) (tr.filterMap Program.visible)) ∧
      (c.threads (.inr ()) = .running (.inr l) ∨
        c.threads (.inr ()) = .calling (.inr l) ∧ ¬l.Left) := by
  have hflag : (N + 1) % 2 ^ 32 = N + 1 := Nat.mod_eq_of_lt (by omega)
  rw [singleConsumerIteration, hflag] at hrun
  have hclient : ∃ l, (∃ l' : SingleConsumer, l = .inr l' ∧
      l'.Keeps P (N + 1) (popped (.inr ()) (tr.filterMap Program.visible))) ∧
      (c.threads (.inr ()) = .running l ∨ c.threads (.inr ()) = .calling l ∧
        ∃ op k, (Program.groups (Fin P) Unit ⟨0, 0, 0⟩ .timing (producer N)
          (.popping P 0) (singleConsumer (N + 1))).next l = .call op k) := by
    refine Program.client_induction (I := fun l rs => ∃ l' : SingleConsumer,
      l = .inr l' ∧ l'.Keeps P (N + 1) (rs.filterMap item?)) ?_ ?_ ?_ hrun
    · exact ⟨_, rfl, Nat.zero_add P, hP, rfl⟩
    · rintro _ f g x rs hnext ⟨l, rfl, hkeeps⟩
      cases l with
      | popping | returned => cases hnext
      | timing | ending =>
          cases hnext
          exact ⟨_, rfl, hkeeps⟩
    · rintro _ op k r rs hnext ⟨l, rfl, hkeeps⟩
      cases l with
      | popping count s =>
          cases hnext
          refine ⟨_, rfl, ?_⟩
          have hret := hkeeps.ret hP' r
          rw [List.filterMap_append]
          cases hr : item? r <;> simpa [hr] using hret
      | timing | ending | returned => cases hnext
  obtain ⟨_, ⟨l, rfl, hkeeps⟩, hl⟩ := hclient
  refine ⟨l, hkeeps, hl.imp id ?_⟩
  rintro ⟨hl, op, k, hnext⟩
  refine ⟨hl, fun hleft => ?_⟩
  cases l with
  | popping => exact hleft
  | timing | ending | returned => cases hnext

/-! ## The sum reported -/

/-- The consumer stopped when it had popped the flag of the last producer, it
left an empty queue, and it reports the sum of the numbers pushed. -/
structure SumsPayload (P N : ℕ) (items q : List ℕ) (sum : ℕ) : Prop where
  last_flag : ∃ before, items = before ++ [N + 1] ∧
    before.count (N + 1) + 1 = P
  queue_eq : q = []
  sum_eq : sum = P * (N * (N + 1) / 2)

/-- All flags but one are part of the sum. -/
theorem sum_of_summedTo {P N sum : ℕ} {items : List ℕ}
    (h : SummedTo P (N + 1) items sum)
    (htotal : items.sum = P * (N * (N + 1) / 2) + P * (N + 1)) :
    sum = (P * (N * (N + 1) / 2) + (P - 1) * (N + 1)) % 2 ^ 64 := by
  obtain ⟨added, rfl, hcount, rfl⟩ := h
  rw [List.sum_append, List.sum_singleton] at htotal
  have hone : P * (N + 1) = (P - 1) * (N + 1) + (N + 1) := by
    rw [← Nat.succ_mul, Nat.succ_eq_add_one, Nat.sub_add_cancel (by omega)]
  have hadded : added.sum = P * (N * (N + 1) / 2) + (P - 1) * (N + 1) := by
    omega
  rw [hadded]

/-- The flags in the sum are never lost in an overflow. -/
theorem sum_with_flags_eq_iff {P N : ℕ} (hP : 1 ≤ P) (hP' : P < 2 ^ 32)
    (hN : N + 1 < 2 ^ 32 - 1) :
    (P * (N * (N + 1) / 2) + (P - 1) * (N + 1)) % 2 ^ 64 =
      P * (N * (N + 1) / 2) ↔ P = 1 := by
  have hflags : (P - 1) * (N + 1) < 2 ^ 32 * 2 ^ 32 :=
    Nat.mul_lt_mul'' (by omega) (by omega)
  constructor
  · intro heq
    have hzero : (P - 1) * (N + 1) = 0 := by omega
    rcases Nat.mul_eq_zero.mp hzero with h | h
    · omega
    · omega
  · rintro rfl
    have hprod : N * (N + 1) < 2 ^ 32 * 2 ^ 32 :=
      Nat.mul_lt_mul'' (by omega) (by omega)
    rw [Nat.sub_self, zero_mul, add_zero, one_mul]
    exact Nat.mod_eq_of_lt (by omega)

/-- The benchmark ends on every queue, with all flags but one in the sum. -/
theorem singleConsumer_ends {P N : ℕ} {cap : ℕ∞} (hP : 1 ≤ P)
    (hP' : P < 2 ^ 32) (hN : N + 1 < 2 ^ 32 - 1) (hcap : 1 ≤ cap) :
    (singleConsumerIteration P N).Ends (Fifo.object ℕ cap) fun _ c q =>
      q = [] ∧ c (.inr ()) = .running (.inr (.returned
        ((P * (N * (N + 1) / 2) + (P - 1) * (N + 1)) % 2 ^ 64))) := by
  refine (singleConsumer_protocol hP hP' hN).ends hcap
    fun h c tr s hrun hstop _ _ => ⟨rfl, ?_⟩
  obtain ⟨l, hl, hkeeps⟩ := singleConsumer_keeps hP hP' hN hrun
  obtain ⟨hc, hnext⟩ := hstop (.inr ())
  rw [hl] at hc hnext
  change (singleConsumer _ l).map Sum.inr = .stop at hnext
  cases l with
  | popping | timing | ending => cases hnext
  | returned sum =>
      obtain ⟨-, htotal⟩ := left_sum hP hP' hN hrun hl trivial
      rw [hc, sum_of_summedTo hkeeps htotal]

/-- The consumer has left its loop and is not in a call. -/
def Stopped {P : ℕ}
    (c : Fin P ⊕ Unit → Client (Producer ⊕ SingleConsumer)) : Prop :=
  ∃ l : SingleConsumer, c (.inr ()) = .running (.inr l) ∧ l.Left

section AnyQueue

variable {P N : ℕ} {cap : ℕ∞} {σ : Type u} {α : Type v} {M : Lts σ α}
  {shows : α → Option ((Fin P ⊕ Unit) × QueueAct)}
  {tr : List (Option α × Option ((Fin P ⊕ Unit) × (ℤ ⊕ QueueAct)))} {m : σ}
  {c : Pool (Fin P ⊕ Unit) Memory (Client (Producer ⊕ SingleConsumer))}

/-- What the consumer has popped in a run. -/
def consumed
    (tr : List (Option α × Option ((Fin P ⊕ Unit) × (ℤ ⊕ QueueAct)))) :
    List ℕ :=
  popped (.inr ()) ((tr.filterMap Prod.snd).filterMap Program.visible)

/-- The consumer stops when it has popped the last flag, and not before. -/
theorem stopped_iff (hP : 1 ≤ P) (hP' : P < 2 ^ 32) (hN : N + 1 < 2 ^ 32 - 1)
    (hrun : ((singleConsumerIteration P N).on M shows).Run tr (m, c)) :
    Stopped c.threads ↔ (consumed tr).count (N + 1) = P := by
  obtain ⟨-, hclients, -⟩ := Lts.runs_of_sync hrun
  obtain ⟨l, hkeeps, hl⟩ := singleConsumer_clients hP hP' hN hclients
  rw [consumed, ← hkeeps.left_iff]
  constructor
  · rintro ⟨l', hl', hleft⟩
    rcases hl with hl | ⟨hl, -⟩
    · cases hl.symm.trans hl'
      exact hleft
    · cases hl.symm.trans hl'
  · intro hleft
    exact ⟨l, hl.resolve_right fun h => h.2 hleft, hleft⟩

/-- The queue is then empty, in whatever order the calls took effect. -/
theorem empty_of_stopped (hP : 1 ≤ P) (hP' : P < 2 ^ 32)
    (hN : N + 1 < 2 ^ 32 - 1)
    (hrun : ((singleConsumerIteration P N).on M shows).Run tr (m, c))
    (hstop : Stopped c.threads)
    {a : Pool (Fin P ⊕ Unit) (List ℕ) (Phase (Fifo.Op ℕ) (Fifo.Res ℕ))}
    (ha : (Fifo.object ℕ cap).Explains
      ((tr.filterMap Prod.snd).filterMap Program.visible) a) :
    a.shared = [] := by
  obtain ⟨l, hl, hleft⟩ := hstop
  obtain ⟨tr', s, hdirect, hahead⟩ := Program.exists_direct hrun ha
  obtain ⟨hqueue, -⟩ :=
    left_sum hP hP' hN hdirect (hahead.of_running hl).1 hleft
  rw [hahead.shared] at hqueue
  exact hqueue

theorem sum_of_returned (hP : 1 ≤ P) (hP' : P < 2 ^ 32)
    (hN : N + 1 < 2 ^ 32 - 1)
    (hrun : ((singleConsumerIteration P N).on M shows).Run tr (m, c)) {sum : ℕ}
    (hsum : c.threads (.inr ()) = .running (.inr (.returned sum)))
    {a : Pool (Fin P ⊕ Unit) (List ℕ) (Phase (Fifo.Op ℕ) (Fifo.Res ℕ))}
    (ha : (Fifo.object ℕ cap).Explains
      ((tr.filterMap Prod.snd).filterMap Program.visible) a) :
    SummedTo P (N + 1) (consumed tr) sum ∧
      sum = (P * (N * (N + 1) / 2) + (P - 1) * (N + 1)) % 2 ^ 64 := by
  obtain ⟨tr', s, hdirect, hahead⟩ := Program.exists_direct hrun ha
  obtain ⟨hl, hres⟩ := hahead.of_running hsum
  obtain ⟨-, htotal⟩ := left_sum hP hP' hN hdirect hl trivial
  obtain ⟨l, hl', hkeeps⟩ := singleConsumer_keeps hP hP' hN hdirect
  cases hl'.symm.trans hl
  have hconsumed : consumed tr = taken (.inr ()) tr' := by
    rw [consumed, popped, taken, hres]
  rw [hconsumed]
  exact ⟨hkeeps, sum_of_summedTo hkeeps htotal⟩

/-- The sum of a consumer that has returned is that of the payload if and only
if there was a single producer. -/
theorem payload_iff_of_returned (hP : 1 ≤ P) (hP' : P < 2 ^ 32)
    (hN : N + 1 < 2 ^ 32 - 1) (hM : (Fifo.object ℕ cap).Linearizable M shows)
    (hrun : ((singleConsumerIteration P N).on M shows).Run tr (m, c)) {sum : ℕ}
    (hsum : c.threads (.inr ()) = .running (.inr (.returned sum))) :
    (∀ a, (Fifo.object ℕ cap).Explains
        ((tr.filterMap Prod.snd).filterMap Program.visible) a →
      SumsPayload P N (consumed tr) a.shared sum) ↔ P = 1 := by
  constructor
  · intro hall
    obtain ⟨hMrun, -, hshown⟩ := Lts.runs_of_sync hrun
    obtain ⟨tr', a, ha, hsame, -⟩ := hM _ _ hMrun
    have hexplains : (Fifo.object ℕ cap).Explains
        ((tr.filterMap Prod.snd).filterMap Program.visible) a :=
      ⟨tr', ha, hsame.trans hshown⟩
    obtain ⟨-, heq⟩ := sum_of_returned hP hP' hN hrun hsum hexplains
    rw [(hall a hexplains).sum_eq, eq_comm] at heq
    exact (sum_with_flags_eq_iff hP hP' hN).mp heq
  · intro hone a ha
    obtain ⟨⟨added, hitems, hcount, -⟩, heq⟩ :=
      sum_of_returned hP hP' hN hrun hsum ha
    refine ⟨⟨added, hitems, hcount⟩,
      empty_of_stopped hP hP' hN hrun ⟨_, hsum, trivial⟩ ha, ?_⟩
    rw [heq]
    exact (sum_with_flags_eq_iff hP hP' hN).mpr hone

end AnyQueue

/-- On every linearizable queue the consumer stops exactly when it has popped the
flag of the last producer, and leaves the queue empty, but it has summed the
payload if and only if there was a single producer.  On every queue that blocks
only where it must, the benchmark comes to its end. -/
theorem sumsPayload_iff {P N : ℕ} {cap : ℕ∞} (hP : 1 ≤ P) (hP' : P < 2 ^ 32)
    (hN : N + 1 < 2 ^ 32 - 1) :
    (∀ {σ : Type u} {α : Type v} {M : Lts σ α}
      {shows : α → Option ((Fin P ⊕ Unit) × QueueAct)},
      (Fifo.object ℕ cap).Linearizable M shows → ∀ {tr m c},
      ((singleConsumerIteration P N).on M shows).Run tr (m, c) →
      (Stopped c.threads ↔ (consumed tr).count (N + 1) = P) ∧
      (Stopped c.threads → ∀ a, (Fifo.object ℕ cap).Explains
          ((tr.filterMap Prod.snd).filterMap Program.visible) a →
        a.shared = []) ∧
      ∀ sum, c.threads (.inr ()) = .running (.inr (.returned sum)) →
        ((∀ a, (Fifo.object ℕ cap).Explains
            ((tr.filterMap Prod.snd).filterMap Program.visible) a →
          SumsPayload P N (consumed tr) a.shared sum) ↔ P = 1)) ∧
    (1 ≤ cap → (singleConsumerIteration P N).Ends (Fifo.object ℕ cap)
      fun _ c q => q = [] ∧
        c (.inr ()) = .running (.inr (.returned
          ((P * (N * (N + 1) / 2) + (P - 1) * (N + 1)) % 2 ^ 64)))) := by
  refine ⟨fun hM tr m c hrun => ⟨?_, ?_, ?_⟩, singleConsumer_ends hP hP' hN⟩
  · exact stopped_iff hP hP' hN hrun
  · exact fun hstop a ha => empty_of_stopped hP hP' hN hrun hstop ha
  · exact fun sum hsum => payload_iff_of_returned hP hP' hN hM hrun hsum

/-- Two producers push one number each, one producer after the other, and the
consumer pops every item as it comes. -/
def producersInTurn {P : ℕ} (p q : Fin P) : List ((Fin P ⊕ Unit) × ℤ) :=
  [(.inl p, 5), (.inl p, 0), (.inl q, 6), (.inl q, 0),
    (.inl p, 0), (.inl p, 0), (.inl p, 0),
    (.inr (), 0), (.inr (), 0), (.inr (), 0),
    (.inl p, 0), (.inl p, 0), (.inl p, 0),
    (.inr (), 0), (.inr (), 0), (.inr (), 0),
    (.inl q, 0), (.inl q, 0), (.inl q, 0),
    (.inr (), 0), (.inr (), 0), (.inr (), 0),
    (.inl q, 0), (.inl q, 0), (.inl q, 0),
    (.inr (), 0), (.inr (), 0), (.inr (), 0),
    (.inr (), 9), (.inr (), 0)]

/-- Two producers that push one number each.  The consumer has popped two flags
and reports four. -/
theorem sumsPayload_iff_two :
    ∃ tr p, ((singleConsumerIteration 2 1).on ((Fifo.object ℕ 1).atomic _)
      SeqObject.seen).Run tr p ∧
      p.2.threads (.inr ()) = .running (.inr (.returned 4)) ∧
      (consumed tr).count 2 = 2 ∧
      (∀ a, (Fifo.object ℕ 1).Explains
          ((tr.filterMap Prod.snd).filterMap Program.visible) a →
        a.shared = []) ∧
      ¬∀ a, (Fifo.object ℕ 1).Explains
          ((tr.filterMap Prod.snd).filterMap Program.visible) a →
        SumsPayload 2 1 (consumed tr) a.shared 4 := by
  obtain ⟨⟨tr, p⟩, hexec, hend⟩ := Option.map_eq_some_iff.mp
    (show (Lts.exec ((singleConsumerIteration 2 1).play (Fifo.callWithin 1))
      ((singleConsumerIteration 2 1).on ((Fifo.object ℕ 1).atomic _)
        SeqObject.seen).init (producersInTurn 0 1)).map
      (fun r => decide (r.2.2.threads (.inr ()) =
        .running (.inr (.returned 4)))) = some true by decide +kernel)
  have hsum := of_decide_eq_true hend
  have hrun := Program.run_of_play (fun _ _ _ _ => Fifo.apply_of_callWithin)
    hexec
  obtain ⟨hstop, hempty, hpayload⟩ :=
    (@sumsPayload_iff.{0, 0, 0, 0} 2 1 1 (by decide) (by decide)
      (by decide)).1
      (SeqObject.blocking_atomic _ fun _ _ => True).linearizable hrun
  have hstopped : Stopped p.2.threads := ⟨_, hsum, trivial⟩
  exact ⟨tr, p, hrun, hsum, hstop.mp hstopped, hempty hstopped,
    mt (hpayload 4 hsum).mp (by decide)⟩

/-- Two producers that push one number each, and a sum that is not two. -/
theorem singleConsumer_sums_flag :
    ¬∀ (P N : ℕ) (cap : ℕ∞), 1 ≤ P → P < 2 ^ 32 → N + 1 < 2 ^ 32 - 1 →
      1 ≤ cap → ∀ {σ α : Type} (M : Lts σ α)
        (shows : α → Option ((Fin P ⊕ Unit) × QueueAct)),
        (Fifo.object ℕ cap).Blocking (fun _ _ => True) M shows →
        ∀ tr m c sum,
        ((singleConsumerIteration P N).on M shows).Run tr (m, c) →
        c.threads (.inr ()) = .running (.inr (.returned sum)) →
        sum = P * (N * (N + 1) / 2) := by
  intro hall
  obtain ⟨⟨tr, p⟩, hexec, hend⟩ := Option.map_eq_some_iff.mp
    (show (Lts.exec ((singleConsumerIteration 2 1).play (Fifo.callWithin 1))
      ((singleConsumerIteration 2 1).on ((Fifo.object ℕ 1).atomic _)
        SeqObject.seen).init (producersInTurn 0 1)).map
      (fun r => decide (r.2.2.threads (.inr ()) =
        .running (.inr (.returned 4)))) = some true by decide +kernel)
  have hsum := of_decide_eq_true hend
  have hrun := Program.run_of_play (fun _ _ _ _ => Fifo.apply_of_callWithin)
    hexec
  have hfour := hall 2 1 1 (by decide) (by decide) (by decide) le_rfl _ _
    (SeqObject.blocking_atomic _ _) tr p.1 p.2 4 hrun hsum
  cases hfour

end Bench
end ConcurrentQueues
