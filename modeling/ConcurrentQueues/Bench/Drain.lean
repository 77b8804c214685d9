import ConcurrentQueues.Bench.Threads
import Mathlib.Algebra.BigOperators.Fin
import Mathlib.Tactic.Ring

/-!
# The benchmarks drain the queue

Every producer pushes its numbers and then a stop flag, the only producer one
for each consumer, and a consumer leaves with the first flag it pops.  The
threads so keep to a protocol of stop flags.  On any queue the benchmarks end,
nothing stays behind, and each number has been added to one of the sums.
-/

namespace ConcurrentQueues
namespace Bench

open StopFlags

/-! ## Duties -/

/-- What a producer pushes: its numbers and the flag behind them. -/
theorem range'_one_succ (N : ℕ) :
    List.range' 1 (N + 1) = List.range' 1 N ++ [N + 1] := by
  rw [List.range'_concat, one_mul, add_comm 1 N]

theorem flag_notMem_range' (N : ℕ) : N + 1 ∉ List.range' 1 N := by
  rw [List.mem_range'_1]
  omega

def producerDuties (N : ℕ) : Duties Producer ℕ where
  rest
    | .timing | .starting _ => List.range' 1 (N + 1)
    | .pushing n => List.range' n (N + 2 - n)
  wants _ := 0
  own
    | .timing => 2
    | .starting _ => 1
    | .pushing _ => 0

theorem producerDuties_ended {N x : ℕ}
    (hx : ((producerDuties N).rest .timing).getLast? = some x) : x = N + 1 := by
  simp only [producerDuties, range'_one_succ, List.getLast?_concat,
    Option.some.injEq] at hx
  exact hx.symm

theorem producer_obeys {N : ℕ} (hN : N + 1 < 2 ^ 32 - 1) (l : Producer) :
    (producerDuties N).Obeys (N + 1) l (producer N l) := by
  cases l with
  | timing => exact fun _ _ => ⟨rfl, rfl, Nat.lt_succ_self 1⟩
  | starting now => exact fun _ _ => ⟨rfl, rfl, Nat.zero_lt_one⟩
  | pushing n =>
      have hflag : (N + 1) % 2 ^ 32 = N + 1 := Nat.mod_eq_of_lt (by omega)
      simp only [producer, hflag]
      split_ifs with hn
      · refine ⟨rfl, rfl, ?_, le_rfl⟩
        have hnext : (n + 1) % 2 ^ 32 = n + 1 := Nat.mod_eq_of_lt (by omega)
        have hleft : N + 2 - n = N + 2 - (n + 1) + 1 := by omega
        simp only [producerDuties, hnext, hleft, List.range'_succ]
      · have hleft : N + 2 - n = 0 := by omega
        exact ⟨by simp only [producerDuties, hleft, List.range'_zero], rfl⟩

def singleProducerDuties (N C : ℕ) : Duties SingleProducer ℕ where
  rest
    | .timing | .starting _ => List.range' 1 N ++ List.replicate C (N + 1)
    | .pushing n => List.range' n (N + 1 - n) ++ List.replicate C (N + 1)
    | .flagging i => List.replicate (C - i) (N + 1)
  wants _ := 0
  own
    | .timing => 3
    | .starting _ => 2
    | .pushing _ => 1
    | .flagging _ => 0

theorem singleProducer_obeys {N C : ℕ} (hN : N + 1 < 2 ^ 32 - 1)
    (hC : C < 2 ^ 32) (l : SingleProducer) :
    (singleProducerDuties N C).Obeys (N + 1) l (singleProducer N C l) := by
  cases l with
  | timing => exact fun _ _ => ⟨rfl, rfl, Nat.lt_succ_self 2⟩
  | starting now => exact fun _ _ => ⟨rfl, rfl, Nat.lt_succ_self 1⟩
  | pushing n =>
      simp only [singleProducer]
      split_ifs with hn
      · refine ⟨rfl, rfl, ?_, le_rfl⟩
        have hnext : (n + 1) % 2 ^ 32 = n + 1 := Nat.mod_eq_of_lt (by omega)
        have hleft : N + 1 - n = N + 1 - (n + 1) + 1 := by omega
        simp only [singleProducerDuties, hnext, hleft, List.range'_succ,
          List.cons_append]
      · have hleft : N + 1 - n = 0 := by omega
        refine fun _ _ => ⟨?_, rfl, Nat.zero_lt_one⟩
        simp only [singleProducerDuties, hleft, List.range'_zero,
          List.nil_append, Nat.sub_zero]
  | flagging i =>
      have hflag : (N + 1) % 2 ^ 32 = N + 1 := Nat.mod_eq_of_lt (by omega)
      simp only [singleProducer, hflag]
      split_ifs with hi
      · refine ⟨rfl, rfl, ?_, le_rfl⟩
        have hnext : (i + 1) % 2 ^ 32 = i + 1 := Nat.mod_eq_of_lt (by omega)
        have hleft : C - i = C - (i + 1) + 1 := by omega
        simp only [singleProducerDuties, hnext, hleft, List.replicate_succ]
      · have hleft : C - i = 0 := by omega
        exact ⟨by simp only [singleProducerDuties, hleft,
          List.replicate_zero], rfl⟩

def consumerDuties : Duties Consumer ℕ where
  rest _ := []
  wants
    | .popping _ => 1
    | .timing _ | .leaving _ _ | .ending _ _ | .returned _ => 0
  own
    | .popping _ | .timing _ => 3
    | .leaving _ _ => 2
    | .ending _ _ => 1
    | .returned _ => 0

theorem consumer_obeys (flag : ℕ) (l : Consumer) :
    consumerDuties.Obeys flag l (consumer flag l) := by
  cases l with
  | popping s =>
      refine ⟨rfl, fun x => ?_⟩
      by_cases hx : x = flag
      · simp [Consumer.loop, consumerDuties, hx]
      · simp [Consumer.loop, consumerDuties, hx]
  | timing s => exact fun _ _ => ⟨rfl, rfl, Nat.lt_succ_self 2⟩
  | leaving s now =>
      intro g c
      simp only [consumerDuties]
      split_ifs <;> simp
  | ending s now => exact fun _ _ => ⟨rfl, rfl, Nat.zero_lt_one⟩
  | returned s => exact ⟨rfl, rfl⟩

/-! ## Sums -/

/-- The items popped are those added to the sum and, at the end, a flag. -/
def Summed (flag : ℕ) (items : List ℕ) (sum : ℕ) : Prop :=
  ∃ added, items = added ++ [flag] ∧ flag ∉ added ∧ sum = added.sum % 2 ^ 64

/-- What a consumer has done with the items it popped. -/
def Consumer.Keeps (flag : ℕ) (items : List ℕ) : Consumer → Prop
  | .popping s => flag ∉ items ∧ s = items.sum % 2 ^ 64
  | .timing s | .leaving s _ | .ending s _ | .returned s => Summed flag items s

theorem Consumer.Keeps.loop {flag s x : ℕ} {items : List ℕ}
    (h : Keeps flag items (.popping s)) :
    Keeps flag (items ++ [x]) (loop flag s (.popped (some x))) := by
  obtain ⟨hflag, hs⟩ := h
  simp only [Consumer.loop]
  split_ifs with hx
  · exact ⟨items, by rw [hx], hflag, hs⟩
  · constructor
    · simpa [hflag] using Ne.symm hx
    · rw [hs, Nat.mod_add_mod, List.sum_append, List.sum_singleton]

theorem consumer_keeps {ι : Type*} [DecidableEq ι] {n flag : ℕ} {cap : ℕ∞}
    {L : Type} {memory : Memory} {first : L} {code : L → Code L}
    {tr : List ((ι ⊕ Fin n) × (ℤ ⊕ Fifo.Op ℕ × Fifo.Res ℕ))}
    {s : Pool (ι ⊕ Fin n) (List ℕ × Memory) (L ⊕ Consumer)}
    (hrun : ((toConsumers ι n memory first code flag).direct
      (Fifo.object ℕ cap)).Run tr s) (i : Fin n) :
    ∃ l, s.threads (.inr i) = .inr l ∧ l.Keeps flag (taken (.inr i) tr) := by
  refine Program.groups_induction
    (I := fun l rs => l.Keeps flag (rs.filterMap item?)) ?_ ?_ ?_ hrun i
  · exact ⟨List.not_mem_nil, rfl⟩
  · rintro l f g x rs hnext hkeeps
    cases l with
    | popping | returned => cases hnext
    | timing | ending =>
        obtain rfl := Next.own.inj hnext
        exact hkeeps
    | leaving s now =>
        obtain rfl := Next.own.inj hnext
        simp only
        split_ifs
        · exact hkeeps
        · exact hkeeps
  · rintro l op k q r q' rs hnext happly hkeeps
    cases l with
    | popping s =>
        obtain ⟨rfl, rfl⟩ := Next.call.inj hnext
        cases happly with
        | @pop q x =>
            rw [List.filterMap_append]
            exact hkeeps.loop
    | timing | leaving | ending | returned => cases hnext

/-- The numbers pushed by one producer, added up. -/
theorem sum_range'_one (N : ℕ) : (List.range' 1 N).sum = N * (N + 1) / 2 := by
  have htwice : (List.range' 1 N).sum * 2 = N * (N + 1) := by
    induction N with
    | zero => rfl
    | succ N ih =>
        rw [List.range'_concat, List.sum_append, List.sum_singleton, add_mul,
          ih]
        ring
  omega

theorem totalSum_eq (sums : List ℕ) : totalSum sums = sums.sum % 2 ^ 64 := by
  have hfold : ∀ total, sums.foldl
      (fun total sum => (total + sum) % 2 ^ 64) (total % 2 ^ 64) =
        (total + sums.sum) % 2 ^ 64 := by
    induction sums with
    | nil => simp
    | cons sum sums ih =>
        intro total
        rw [List.foldl_cons, Nat.mod_add_mod, ih, List.sum_cons, add_assoc]
  simpa [totalSum] using hfold 0

/-! ## What is left -/

section

variable {ι : Type*} [DecidableEq ι] {L : Type} {n flag : ℕ} {cap : ℕ∞}
  {numbers : Multiset ℕ} {h : List ((ι ⊕ Fin n) × QueueAct)}
  {c : ι ⊕ Fin n → Client (L ⊕ Consumer)} {q : List ℕ} {sums : Fin n → ℕ}
  {added : Fin n → List ℕ}

/-- The queue is empty, every consumer has popped one flag and, before it, the
items it has added to its sum, and each number was added once. -/
structure Drained (flag : ℕ) (numbers : Multiset ℕ)
    (h : List ((ι ⊕ Fin n) × QueueAct)) (c : ι ⊕ Fin n → Client (L ⊕ Consumer))
    (q : List ℕ) (sums : Fin n → ℕ) (added : Fin n → List ℕ) : Prop where
  queue_eq : q = []
  returned : ∀ i, c (.inr i) = .running (.inr (.returned (sums i)))
  popped_eq : ∀ i, popped (.inr i) h = added i ++ [flag]
  flag_notMem : ∀ i, flag ∉ added i
  sums_eq : ∀ i, sums i = (added i).sum % 2 ^ 64
  added_eq : ∑ i, (added i : Multiset ℕ) = numbers

/-- The sums add up to the sum of all numbers. -/
theorem Drained.sum_added (hd : Drained flag numbers h c q sums added) :
    ∑ i, (added i).sum = numbers.sum := by
  have hsum := congrArg Multiset.sumAddMonoidHom hd.added_eq
  rw [map_sum] at hsum
  simpa using hsum

theorem Drained.totalSum_eq (hd : Drained flag numbers h c q sums added) :
    totalSum (List.ofFn sums) = numbers.sum % 2 ^ 64 := by
  rw [Bench.totalSum_eq, List.sum_ofFn, ← hd.sum_added,
    Finset.sum_nat_mod _ _ fun i => (added i).sum]
  simp only [hd.sums_eq]

/-- Where the sum of all numbers fits a `uint64_t`, the sums of the consumers
are exact. -/
theorem Drained.sums_exact (hd : Drained flag numbers h c q sums added)
    (hfits : numbers.sum < 2 ^ 64) (i : Fin n) : sums i = (added i).sum := by
  have hle : (added i).sum ≤ ∑ j, (added j).sum :=
    Finset.single_le_sum (f := fun j => (added j).sum)
      (fun _ _ => Nat.zero_le _) (Finset.mem_univ i)
  rw [hd.sum_added] at hle
  rw [hd.sums_eq]
  exact Nat.mod_eq_of_lt (by omega)

/-- Whoever the producers are, consumers that have all returned have drained
the queue. -/
theorem drained_of_stop [Fintype ι] {memory : Memory} {first : L}
    {code : L → Code L} {D : Duties L ℕ}
    (hP : Protocol (toConsumers ι n memory first code flag) flag
      (D.groups consumerDuties))
    (hwants : D.wants first = 0)
    (hnumbers : Fintype.card ι • (D.rest first : Multiset ℕ) =
      numbers + n • {flag})
    {tr : List ((ι ⊕ Fin n) × (ℤ ⊕ Fifo.Op ℕ × Fifo.Res ℕ))}
    {s : Pool (ι ⊕ Fin n) (List ℕ × Memory) (L ⊕ Consumer)}
    (hrun : ((toConsumers ι n memory first code flag).direct
      (Fifo.object ℕ cap)).Run tr s)
    (hstop : ∀ t, c t = .running (s.threads t) ∧
      (toConsumers ι n memory first code flag).next (s.threads t) = .stop)
    (hpopped : ∀ t, taken t tr = popped t h)
    (htaken : ∑ t, (taken t tr : Multiset ℕ) =
      ∑ t, ((D.groups consumerDuties).rest
        ((toConsumers ι n memory first code flag).init t) : Multiset ℕ)) :
    ∃ sums added, Drained flag numbers h c [] sums added := by
  have hconsumer : ∀ i : Fin n, ∃ sum added,
      c (.inr i) = .running (.inr (.returned sum)) ∧
        popped (.inr i) h = added ++ [flag] ∧ flag ∉ added ∧
          sum = added.sum % 2 ^ 64 := by
    intro i
    obtain ⟨l, hl, hkeeps⟩ := consumer_keeps hrun i
    obtain ⟨hc, hnext⟩ := hstop (.inr i)
    rw [hl] at hc hnext
    change (consumer flag l).map Sum.inr = .stop at hnext
    cases l with
    | popping | timing | leaving | ending => cases hnext
    | returned sum =>
        obtain ⟨added, hadded, hflag, hsum⟩ := hkeeps
        exact ⟨sum, added, hc, hpopped _ ▸ hadded, hflag, hsum⟩
  choose sums added hreturned hadded hflag hsums using hconsumer
  refine ⟨sums, added, rfl, hreturned, hadded, hflag, hsums, ?_⟩
  have hnone : ∀ t : ι, popped (.inl t) h = [] :=
    fun t => hpopped _ ▸ hP.taken_eq_nil hrun hwants
  simp only [Fintype.sum_sum_type, hpopped, hnone, hadded] at htaken
  simp only [Program.groups, Duties.groups, consumerDuties, Sum.elim_inl,
    Sum.elim_inr, Multiset.coe_nil, Finset.sum_const_zero, zero_add, add_zero,
    Finset.sum_const, Finset.card_univ, hnumbers, ← Multiset.coe_add,
    Finset.sum_add_distrib, Multiset.coe_singleton, Fintype.card_fin] at htaken
  exact add_right_cancel htaken

end

/-! ## The two benchmarks -/

theorem sum_numbers (T N : ℕ) :
    (T • (List.range' 1 N : Multiset ℕ)).sum = T * (N * (N + 1) / 2) := by
  rw [Multiset.sum_nsmul, Multiset.sum_coe, sum_range'_one, smul_eq_mul]

/-- Below the number of items of a benchmark no sum overflows. -/
theorem sum_numbers_lt {T N : ℕ} (hN : N + 1 < 2 ^ 32 - 1)
    (hitems : T * N ≤ kNumItems) : T * (N * (N + 1) / 2) < 2 ^ 64 := by
  have hhalf : T * (N * (N + 1) / 2) ≤ T * N * (N + 1) := by
    rw [mul_assoc]
    exact Nat.mul_le_mul_left T (Nat.div_le_self _ 2)
  have hbound : T * N * (N + 1) ≤ 400000000 * 2 ^ 32 :=
    Nat.mul_le_mul hitems (by omega)
  omega

theorem expectedSum_eq {T N : ℕ} (hN : N + 1 < 2 ^ 32 - 1)
    (hitems : T * N ≤ kNumItems) :
    expectedSum T N = T * (N * (N + 1) / 2) := by
  have hprod : N * (1 + N) < 2 ^ 32 * 2 ^ 32 :=
    Nat.mul_lt_mul'' (by omega) (by omega)
  rw [expectedSum, Nat.mod_eq_of_lt (by omega : 1 + N < 2 ^ 64),
    Nat.mod_eq_of_lt (by omega : N * (1 + N) < 2 ^ 64), add_comm 1 N]
  exact Nat.mod_eq_of_lt (sum_numbers_lt hN hitems)

/-- What `balanced_benchmark_iteration` finds after the last `join`. -/
def BalancedDone (T N : ℕ)
    (h : List ((Fin T ⊕ Fin T) × QueueAct))
    (c : Fin T ⊕ Fin T → Client (Producer ⊕ Consumer)) (q : List ℕ) : Prop :=
  ∃ sums added,
    Drained (N + 1) (T • (List.range' 1 N : Multiset ℕ)) h c q sums added ∧
    ∑ i, (added i).sum = T * (N * (N + 1) / 2) ∧
    (T * N ≤ kNumItems →
      (∀ i, sums i = (added i).sum) ∧
      totalSum (List.ofFn sums) = expectedSum T N ∧
      expectedSum T N = T * (N * (N + 1) / 2))

/-- What `single_producer_benchmark_iteration` finds after the last `join`. -/
def SingleProducerDone (C N : ℕ)
    (h : List ((Unit ⊕ Fin C) × QueueAct))
    (c : Unit ⊕ Fin C → Client (SingleProducer ⊕ Consumer)) (q : List ℕ) :
    Prop :=
  ∃ sums added,
    Drained (N + 1) (List.range' 1 N : Multiset ℕ) h c q sums added ∧
    (∀ i, sums i = (added i).sum) ∧ ∑ i, sums i = N * (N + 1) / 2

theorem balanced_protocol {T N : ℕ} (hN : N + 1 < 2 ^ 32 - 1) :
    Protocol (balanced T N) (N + 1)
      ((producerDuties N).groups consumerDuties) := by
  have hitems : N % 2 ^ 32 = N := Nat.mod_eq_of_lt (by omega)
  have hflag : (N + 1) % 2 ^ 64 % 2 ^ 32 = N + 1 := by omega
  rw [balanced, hitems, hflag]
  refine protocol_groups (producer_obeys hN) (consumer_obeys _) ?_ ?_ ?_
  · exact fun x => producerDuties_ended
  · intro x hx
    cases hx
  · simp [producerDuties, consumerDuties, range'_one_succ,
      List.count_eq_zero.mpr (flag_notMem_range' N)]

theorem singleProducer_protocol {C N : ℕ} (hC : 1 ≤ C) (hC' : C < 2 ^ 32)
    (hN : N + 1 < 2 ^ 32 - 1) :
    Protocol (singleProducerIteration C N) (N + 1)
      ((singleProducerDuties N C).groups consumerDuties) := by
  have hflag : (N + 1) % 2 ^ 32 = N + 1 := Nat.mod_eq_of_lt (by omega)
  rw [singleProducerIteration, hflag]
  refine protocol_groups (singleProducer_obeys hN hC') (consumer_obeys _)
    ?_ ?_ ?_
  · intro x hx
    simp only [singleProducerDuties, List.getLast?_append,
      List.getLast?_replicate, if_neg (show C ≠ 0 by omega), Option.some_or,
      Option.some.injEq] at hx
    exact hx.symm
  · intro x hx
    cases hx
  · simp [singleProducerDuties, consumerDuties,
      List.count_eq_zero.mpr (flag_notMem_range' N)]

theorem balanced_ends {T N : ℕ} {cap : ℕ∞} (hN : N + 1 < 2 ^ 32 - 1)
    (hcap : 1 ≤ cap) :
    (balanced T N).Ends (Fifo.object ℕ cap) (BalancedDone T N) := by
  have hP := balanced_protocol (T := T) hN
  refine hP.ends hcap fun h c tr s hrun hstop hpopped htaken => ?_
  have hitems : N % 2 ^ 32 = N := Nat.mod_eq_of_lt (by omega)
  have hflag : (N + 1) % 2 ^ 64 % 2 ^ 32 = N + 1 := by omega
  rw [balanced, hitems, hflag] at hP hrun hstop htaken
  have hnumbers : Fintype.card (Fin T) •
      ((producerDuties N).rest .timing : Multiset ℕ) =
        T • (List.range' 1 N : Multiset ℕ) + T • {N + 1} := by
    change _ • (List.range' 1 (N + 1) : Multiset ℕ) = _
    rw [range'_one_succ, ← Multiset.coe_add, nsmul_add, Fintype.card_fin,
      Multiset.coe_singleton]
  obtain ⟨sums, added, hd⟩ :=
    drained_of_stop hP rfl hnumbers hrun hstop hpopped htaken
  refine ⟨sums, added, hd, ?_, fun hle => ⟨?_, ?_, expectedSum_eq hN hle⟩⟩
  · rw [hd.sum_added, sum_numbers]
  · exact hd.sums_exact (sum_numbers T N ▸ sum_numbers_lt hN hle)
  · rw [hd.totalSum_eq, sum_numbers, expectedSum_eq hN hle]
    exact Nat.mod_eq_of_lt (sum_numbers_lt hN hle)

theorem singleProducer_ends {C N : ℕ} {cap : ℕ∞} (hC : 1 ≤ C)
    (hC' : C < 2 ^ 32) (hN : N + 1 < 2 ^ 32 - 1) (hcap : 1 ≤ cap) :
    (singleProducerIteration C N).Ends (Fifo.object ℕ cap)
      (SingleProducerDone C N) := by
  have hP := singleProducer_protocol hC hC' hN
  refine hP.ends hcap fun h c tr s hrun hstop hpopped htaken => ?_
  have hflag : (N + 1) % 2 ^ 32 = N + 1 := Nat.mod_eq_of_lt (by omega)
  rw [singleProducerIteration, hflag] at hP hrun hstop htaken
  have hnumbers : Fintype.card Unit •
      ((singleProducerDuties N C).rest .timing : Multiset ℕ) =
        (List.range' 1 N : Multiset ℕ) + C • {N + 1} := by
    change _ • (List.range' 1 N ++ List.replicate C (N + 1) : Multiset ℕ) = _
    rw [Fintype.card_unit, one_nsmul, ← Multiset.coe_add,
      Multiset.coe_replicate, Multiset.nsmul_singleton]
  obtain ⟨sums, added, hd⟩ :=
    drained_of_stop hP rfl hnumbers hrun hstop hpopped htaken
  have hsum : (List.range' 1 N : Multiset ℕ).sum = N * (N + 1) / 2 := by
    rw [Multiset.sum_coe, sum_range'_one]
  have hprod : N * (N + 1) < 2 ^ 32 * 2 ^ 32 :=
    Nat.mul_lt_mul'' (by omega) (by omega)
  have hexact := hd.sums_exact (by rw [hsum]; omega)
  refine ⟨sums, added, hd, hexact, ?_⟩
  rw [Finset.sum_congr rfl fun i _ => hexact i, hd.sum_added, hsum]

/-- Both benchmarks end on every queue, and leave behind an empty queue and sums
to which each number has been added once. -/
theorem stop_flags_drain {T C N : ℕ} {cap : ℕ∞} (hC : 1 ≤ C)
    (hC' : C < 2 ^ 32) (hN : N + 1 < 2 ^ 32 - 1) (hcap : 1 ≤ cap) :
    (balanced T N).Ends (Fifo.object ℕ cap) (BalancedDone T N) ∧
      (singleProducerIteration C N).Ends (Fifo.object ℕ cap)
        (SingleProducerDone C N) :=
  ⟨balanced_ends hN hcap, singleProducer_ends hC hC' hN hcap⟩

/-- One producer and one consumer that take turns on a queue for one item. -/
theorem stop_flags_drain_turns :
    ∃ tr p, ((balanced 1 1).on ((Fifo.object ℕ 1).atomic _)
      SeqObject.seen).Run tr p ∧
      BalancedDone 1 1 ((tr.filterMap Prod.snd).filterMap Program.visible)
        p.2.threads p.1.shared := by
  obtain ⟨⟨tr, p⟩, hexec, hend⟩ := Option.map_eq_some_iff.mp
    (show (Lts.exec ((balanced 1 1).play (Fifo.callWithin 1))
      ((balanced 1 1).on ((Fifo.object ℕ 1).atomic _) SeqObject.seen).init
      [(.inl 0, 5), (.inl 0, 0), (.inl 0, 0), (.inl 0, 0), (.inl 0, 0),
        (.inr 0, 0), (.inr 0, 0), (.inr 0, 0),
        (.inl 0, 0), (.inl 0, 0), (.inl 0, 0),
        (.inr 0, 0), (.inr 0, 0), (.inr 0, 0),
        (.inr 0, 9), (.inr 0, 0), (.inr 0, 0)]).map
      (fun r => decide
        (r.2.2.threads (.inl 0) = .running (.inl (.pushing 3)) ∧
          r.2.2.threads (.inr 0) = .running (.inr (.returned 1)))) = some true
      by decide +kernel)
  obtain ⟨hproducer, hconsumer⟩ := of_decide_eq_true hend
  have hrun := Program.run_of_play (fun _ _ _ _ => Fifo.apply_of_callWithin)
    hexec
  obtain ⟨bound, hall⟩ :=
    (stop_flags_drain.{0, 0, 0, 0} (T := 1) (C := 1) (N := 1) (by decide)
      (by decide) (by decide) le_rfl).1
  obtain ⟨hqueue, -, hshown⟩ := Lts.runs_of_sync hrun
  refine ⟨tr, p, hrun, (hall (SeqObject.blocking_atomic _ _) tr _ _ hrun).2.2 ?_ p.1
    ⟨_, hqueue, hshown⟩⟩
  rintro (i | i)
  · obtain rfl := Subsingleton.elim i 0
    exact ⟨_, hproducer, rfl⟩
  · obtain rfl := Subsingleton.elim i 0
    exact ⟨_, hconsumer, rfl⟩

end Bench
end ConcurrentQueues
