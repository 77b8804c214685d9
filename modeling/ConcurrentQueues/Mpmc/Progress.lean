import ConcurrentQueues.Mpmc.Preservation

/-!
# A lone caller of `StdAtomicMPMCQueue` gets through

In a state in which no thread is between its compare-exchange and its store of
`seq_`, the invariant determines every `seq_`.  A thread that runs alone from
there reloads a stale index at most once, so it claims its index within four
atomic steps when the queue has room, respectively an item.  When it has not,
the thread reads only.
-/

namespace ConcurrentQueues

universe u v

namespace StdAtomicMPMCQueue

open Fifo

variable {ι : Type v} {T : Type u} {n : ℕ} {log : List T}

/-! ## Running alone -/

/-- The choices of a thread that runs alone: loads see the newest value, and a
compare-exchange fails only on a different value. -/
def lone (q : Queue T) : Thread T → Choice T
  | .push _ .load | .pop _ .load => .see 0
  | .push _ (.exchange v) => if q.writeIdx.val = v then .go else .see 0
  | .pop _ (.exchange v) => if q.readIdx.val = v then .go else .see 0
  | _ => .go

/-- One atomic step of a thread that runs alone. -/
def loneStep (n : ℕ) : Queue T × Thread T → Queue T × Thread T :=
  Pool.alone (move .unbounded n) lone

/-- The steps of a thread that runs alone are a run of the system in which no
other thread moves. -/
theorem path_of_loneStep [DecidableEq ι] (t : ι) (k : ℕ) (s : State ι T) :
    ∃ es : List (Event T),
      (system .unbounded n ι T).Path s (es.map fun e => (t, e))
        (s.move t ((loneStep n)^[k] (s.shared, s.threads t)).1
          ((loneStep n)^[k] (s.shared, s.threads t)).2) :=
  Pool.path_of_alone lone _ _ t k s

section Steps

variable {q : Queue T} (item : T) (out : Option T) {v : ℕ}

theorem loneStep_push_load :
    loneStep n (q, .push item .load) =
      (q, .push item (.check q.writeIdx.val)) := by
  simp [loneStep, Pool.alone, lone, move, push]

theorem loneStep_push_ready (h : q.seqOf n v = v) :
    loneStep n (q, .push item (.check v)) = (q, .push item (.exchange v)) := by
  simp [loneStep, Pool.alone, lone, move, push,
    show (q.buffer (v % n)).seq = v from h]

theorem loneStep_push_busy (h : q.seqOf n v ≠ v) :
    loneStep n (q, .push item (.check v)) = (q, .push item .load) := by
  simp [loneStep, Pool.alone, lone, move, push,
    show (q.buffer (v % n)).seq ≠ v from h]

theorem loneStep_push_claim (h : q.writeIdx.val = v) :
    loneStep n (q, .push item (.exchange v)) =
      (q.setWriteIdx (v + 1), .push item (.claimed v)) := by
  simp [loneStep, Pool.alone, lone, move, push, h]

theorem loneStep_push_retry (h : q.writeIdx.val ≠ v) :
    loneStep n (q, .push item (.exchange v)) =
      (q, .push item (.check q.writeIdx.val)) := by
  simp [loneStep, Pool.alone, lone, move, push, h]

theorem loneStep_pop_load :
    loneStep n (q, .pop out .load) =
      (q, .pop out (.check q.readIdx.val)) := by
  simp [loneStep, Pool.alone, lone, move, pop]

theorem loneStep_pop_ready (h : q.seqOf n v = v + 1) :
    loneStep n (q, .pop out (.check v)) = (q, .pop out (.exchange v)) := by
  simp [loneStep, Pool.alone, lone, move, pop,
    show (q.buffer (v % n)).seq = v + 1 from h]

theorem loneStep_pop_busy (h : q.seqOf n v ≠ v + 1) :
    loneStep n (q, .pop out (.check v)) = (q, .pop out .load) := by
  simp [loneStep, Pool.alone, lone, move, pop,
    show (q.buffer (v % n)).seq ≠ v + 1 from h]

theorem loneStep_pop_claim (h : q.readIdx.val = v) :
    loneStep n (q, .pop out (.exchange v)) =
      (q.setReadIdx (v + 1), .pop out (.claimed v)) := by
  simp [loneStep, Pool.alone, lone, move, pop, h]

theorem loneStep_pop_retry (h : q.readIdx.val ≠ v) :
    loneStep n (q, .pop out (.exchange v)) =
      (q, .pop out (.check q.readIdx.val)) := by
  simp [loneStep, Pool.alone, lone, move, pop, h]

end Steps

/-! ## Getting through the loop -/

section Loop

variable {q : Queue T} {item : T} {out : Option T}

/-- A push whose next cell is free claims it within four steps, whatever index
it starts with. -/
theorem push_leaves_loop (hfree : q.seqOf n q.writeIdx.val = q.writeIdx.val)
    {pc : Pc} (hpc : pc.owned = none) :
    ∃ k ≤ 4, (loneStep n)^[k] (q, .push item pc) =
      (q.setWriteIdx (q.writeIdx.val + 1),
        .push item (.claimed q.writeIdx.val)) := by
  have hexchange := loneStep_push_claim (n := n) (q := q) item rfl
  have hcheck := loneStep_push_ready item hfree
  have hload := loneStep_push_load (n := n) (q := q) item
  cases pc with
  | load =>
      exact ⟨3, by omega, by simp [hload, hcheck, hexchange]⟩
  | check v =>
      by_cases hv : q.writeIdx.val = v
      · subst hv
        exact ⟨2, by omega, by simp [hcheck, hexchange]⟩
      · have hretry := loneStep_push_retry (n := n) item hv
        by_cases hseq : q.seqOf n v = v
        · exact ⟨4, le_rfl, by
            simp [loneStep_push_ready item hseq, hretry, hcheck, hexchange]⟩
        · exact ⟨4, le_rfl, by
            simp [loneStep_push_busy item hseq, hload, hcheck, hexchange]⟩
  | exchange v =>
      by_cases hv : q.writeIdx.val = v
      · subst hv
        exact ⟨1, by omega, by simp [hexchange]⟩
      · have hretry := loneStep_push_retry (n := n) item hv
        exact ⟨3, by omega, by simp [hretry, hcheck, hexchange]⟩
  | claimed | copying | store => cases hpc

/-- A pop whose next cell is published claims it within four steps. -/
theorem pop_leaves_loop
    (hready : q.seqOf n q.readIdx.val = q.readIdx.val + 1)
    {pc : Pc} (hpc : pc.owned = none) :
    ∃ k ≤ 4, (loneStep n)^[k] (q, .pop out pc) =
      (q.setReadIdx (q.readIdx.val + 1),
        .pop out (.claimed q.readIdx.val)) := by
  have hexchange := loneStep_pop_claim (n := n) (q := q) out rfl
  have hcheck := loneStep_pop_ready out hready
  have hload := loneStep_pop_load (n := n) (q := q) out
  cases pc with
  | load =>
      exact ⟨3, by omega, by simp [hload, hcheck, hexchange]⟩
  | check v =>
      by_cases hv : q.readIdx.val = v
      · subst hv
        exact ⟨2, by omega, by simp [hcheck, hexchange]⟩
      · have hretry := loneStep_pop_retry (n := n) out hv
        by_cases hseq : q.seqOf n v = v + 1
        · exact ⟨4, le_rfl, by
            simp [loneStep_pop_ready out hseq, hretry, hcheck, hexchange]⟩
        · exact ⟨4, le_rfl, by
            simp [loneStep_pop_busy out hseq, hload, hcheck, hexchange]⟩
  | exchange v =>
      by_cases hv : q.readIdx.val = v
      · subst hv
        exact ⟨1, by omega, by simp [hexchange]⟩
      · have hretry := loneStep_pop_retry (n := n) out hv
        exact ⟨3, by omega, by simp [hretry, hcheck, hexchange]⟩
  | claimed | copying | store => cases hpc

/-- The program points of a loop that has not matched the newest index. -/
def Pc.Spins (idx : ℕ) : Pc → Prop
  | .load | .check _ => True
  | .exchange v => v ≠ idx
  | _ => False

theorem Pc.Spins.owned {idx : ℕ} {pc : Pc} (h : pc.Spins idx) :
    pc.owned = none := by
  cases pc with
  | load | check | exchange => rfl
  | claimed | copying | store => cases h

/-- A push whose next cell is not free only reads, and goes on spinning. -/
theorem push_spins (hbusy : q.seqOf n q.writeIdx.val ≠ q.writeIdx.val)
    {pc : Pc} (hpc : pc.Spins q.writeIdx.val) (item : T) (k : ℕ) :
    ∃ pc', pc'.Spins q.writeIdx.val ∧
      (loneStep n)^[k] (q, .push item pc) = (q, .push item pc') := by
  induction k generalizing pc with
  | zero => exact ⟨pc, hpc, rfl⟩
  | succ k ih =>
      rw [Function.iterate_succ_apply]
      cases pc with
      | load =>
          rw [loneStep_push_load]
          exact @ih (.check _) trivial
      | check v =>
          by_cases hseq : q.seqOf n v = v
          · rw [loneStep_push_ready item hseq]
            refine @ih (.exchange v) ?_
            rintro rfl
            exact hbusy hseq
          · rw [loneStep_push_busy item hseq]
            exact @ih .load trivial
      | exchange v =>
          rw [loneStep_push_retry item (Ne.symm hpc)]
          exact @ih (.check _) trivial
      | claimed | copying | store => cases hpc

/-- A pop whose next cell is not published only reads. -/
theorem pop_spins (hbusy : q.seqOf n q.readIdx.val ≠ q.readIdx.val + 1)
    {pc : Pc} (hpc : pc.Spins q.readIdx.val) (out : Option T) (k : ℕ) :
    ∃ pc', pc'.Spins q.readIdx.val ∧
      (loneStep n)^[k] (q, .pop out pc) = (q, .pop out pc') := by
  induction k generalizing pc with
  | zero => exact ⟨pc, hpc, rfl⟩
  | succ k ih =>
      rw [Function.iterate_succ_apply]
      cases pc with
      | load =>
          rw [loneStep_pop_load]
          exact @ih (.check _) trivial
      | check v =>
          by_cases hseq : q.seqOf n v = v + 1
          · rw [loneStep_pop_ready out hseq]
            refine @ih (.exchange v) ?_
            rintro rfl
            exact hbusy hseq
          · rw [loneStep_pop_busy out hseq]
            exact @ih .load trivial
      | exchange v =>
          rw [loneStep_pop_retry out (Ne.symm hpc)]
          exact @ih (.check _) trivial
      | claimed | copying | store => cases hpc

end Loop

/-! ## Quiescent states -/

/-- No thread is between its compare-exchange and its store of `seq_`. -/
def Quiescent (s : State ι T) : Prop :=
  ∀ t, (s.threads t).writing = none ∧ (s.threads t).reading = none

section Quiescent

variable {s : State ι T}

theorem Inv.seqOf_pushed (hI : Inv n log s) (hq : Quiescent s) {i : ℕ}
    (hR : s.shared.readIdx.val ≤ i) (hW : i < s.shared.writeIdx.val) :
    s.shared.seqOf n i = i + 1 := by
  rcases hI.shared.seq_pushed i hR hW with h | h
  · obtain ⟨t, ht⟩ := hI.writer_exists i hR hW h
    rw [(hq t).1] at ht
    cases ht
  · exact h

theorem Inv.seqOf_free (hI : Inv n log s) (hq : Quiescent s) {i : ℕ}
    (hW : s.shared.writeIdx.val ≤ i) (hR : i < s.shared.readIdx.val + n) :
    s.shared.seqOf n i = i := by
  rcases hI.shared.seq_free i hW hR with h | ⟨hni, h⟩
  · exact h
  · -- the cell would still be read on the lap before
    obtain ⟨j, rfl⟩ := Nat.exists_eq_add_of_le' hni
    have hslot : s.shared.seqOf n (j + n) = s.shared.seqOf n j :=
      seqOf_congr (Ring.slot_add_self n j)
    obtain ⟨t, ht⟩ := hI.reader_exists j (by omega) hW (by omega)
    rw [(hq t).2] at ht
    cases ht

/-- The next cell of a full queue is not free. -/
theorem Inv.seqOf_full (hn : 2 ≤ n) (hI : Inv n log s) (hq : Quiescent s)
    (hfull : s.shared.writeIdx.val = s.shared.readIdx.val + n) :
    s.shared.seqOf n s.shared.writeIdx.val ≠ s.shared.writeIdx.val := by
  have hslot : s.shared.seqOf n s.shared.writeIdx.val =
      s.shared.seqOf n s.shared.readIdx.val :=
    seqOf_congr (by rw [hfull, Ring.slot_add_self])
  have hseq := hI.seqOf_pushed hq le_rfl (by omega)
  omega

/-- The next cell of an empty queue is not published. -/
theorem Inv.seqOf_empty (hn : 2 ≤ n) (hI : Inv n log s) (hq : Quiescent s)
    (hempty : s.shared.writeIdx.val = s.shared.readIdx.val) :
    s.shared.seqOf n s.shared.readIdx.val ≠ s.shared.readIdx.val + 1 := by
  have hseq := hI.seqOf_free hq hempty.le (by omega)
  omega

theorem Inv.push_spins_pc (hI : Inv n log s) (hq : Quiescent s)
    (hbusy : s.shared.seqOf n s.shared.writeIdx.val ≠ s.shared.writeIdx.val)
    {t : ι} {item : T} {pc : Pc} (ht : s.threads t = .push item pc) :
    pc.Spins s.shared.writeIdx.val := by
  have hpc : PushInv n log s.shared item pc := by
    have := hI.thread t
    rwa [ht] at this
  have howned : pc.owned = none := by
    have := (hq t).1
    rwa [ht] at this
  cases pc with
  | load | check => trivial
  | exchange v =>
      rintro rfl
      exact hbusy (hpc.2.resolve_left (lt_irrefl _))
  | claimed | copying | store => cases howned

theorem Inv.pop_spins_pc (hI : Inv n log s) (hq : Quiescent s)
    (hbusy : s.shared.seqOf n s.shared.readIdx.val ≠
      s.shared.readIdx.val + 1)
    {t : ι} {out : Option T} {pc : Pc} (ht : s.threads t = .pop out pc) :
    pc.Spins s.shared.readIdx.val := by
  have hpc : PopInv n log s.shared out pc := by
    have := hI.thread t
    rwa [ht] at this
  have howned : pc.owned = none := by
    have := (hq t).2
    rwa [ht] at this
  cases pc with
  | load | check => trivial
  | exchange v =>
      rintro rfl
      exact hbusy (hpc.2.resolve_left (lt_irrefl _))
  | claimed | copying | store => cases howned

end Quiescent

/-- From a quiescent reachable state a lone push claims its index within four
atomic steps if the queue has room and otherwise never changes the queue, and
so does a lone pop if the queue has an item.  The steps of the lone thread are
steps of the system. -/
theorem lone_caller_progress [DecidableEq ι] (hn : 2 ≤ n)
    {tr : List (ι × Event T)} {s : State ι T}
    (hrun : (system .unbounded n ι T).Run tr s) (hq : Quiescent s) (t : ι) :
    (∀ k, ∃ es : List (Event T),
      (system .unbounded n ι T).Path s (es.map fun e => (t, e))
        (s.move t ((loneStep n)^[k] (s.shared, s.threads t)).1
          ((loneStep n)^[k] (s.shared, s.threads t)).2)) ∧
    (∀ item pc, s.threads t = .push item pc →
      (s.shared.writeIdx.val - s.shared.readIdx.val < n →
        ∃ k ≤ 4, (loneStep n)^[k] (s.shared, s.threads t) =
          (s.shared.setWriteIdx (s.shared.writeIdx.val + 1),
            .push item (.claimed s.shared.writeIdx.val))) ∧
      (s.shared.writeIdx.val - s.shared.readIdx.val = n →
        ∀ k, ∃ pc', pc'.owned = none ∧
          (loneStep n)^[k] (s.shared, s.threads t) =
            (s.shared, .push item pc'))) ∧
    (∀ out pc, s.threads t = .pop out pc →
      (0 < s.shared.writeIdx.val - s.shared.readIdx.val →
        ∃ k ≤ 4, (loneStep n)^[k] (s.shared, s.threads t) =
          (s.shared.setReadIdx (s.shared.readIdx.val + 1),
            .pop out (.claimed s.shared.readIdx.val))) ∧
      (s.shared.writeIdx.val - s.shared.readIdx.val = 0 →
        ∀ k, ∃ pc', pc'.owned = none ∧
          (loneStep n)^[k] (s.shared, s.threads t) =
            (s.shared, .pop out pc'))) := by
  have hI := inv_of_run hn hrun
  have hle := hI.shared.read_le
  refine ⟨fun k => path_of_loneStep t k s,
    fun item pc ht => ⟨fun hroom => ?_, fun hfull k => ?_⟩,
    fun out pc ht => ⟨fun hitem => ?_, fun hempty k => ?_⟩⟩
  · have howned : pc.owned = none := by
      have := (hq t).1
      rwa [ht] at this
    rw [ht]
    exact push_leaves_loop (hI.seqOf_free hq le_rfl (by omega)) howned
  · have hbusy := hI.seqOf_full hn hq (by omega)
    obtain ⟨pc', hspins, hiter⟩ :=
      push_spins hbusy (hI.push_spins_pc hq hbusy ht) item k
    rw [ht]
    exact ⟨pc', hspins.owned, hiter⟩
  · have howned : pc.owned = none := by
      have := (hq t).2
      rwa [ht] at this
    rw [ht]
    exact pop_leaves_loop (hI.seqOf_pushed hq le_rfl (by omega)) howned
  · have hbusy := hI.seqOf_empty hn hq (by omega)
    obtain ⟨pc', hspins, hiter⟩ :=
      pop_spins hbusy (hI.pop_spins_pc hq hbusy ht) out k
    rw [ht]
    exact ⟨pc', hspins.owned, hiter⟩

/-- Two pushes and a pop of one thread, and a push of the other, which has loaded
an index two claims old. -/
def staleCaller : List (Bool × Choice ℕ) :=
  let call (op : Op ℕ) : List (Bool × Choice ℕ) :=
    [.call op, .see 0, .go, .go, .go, .go, .go, .go].map ((true, ·))
  call (.push 5) ++ call .pop ++ call (.push 6) ++
    [(false, .call (.push 9)), (false, .see 2)]

theorem lone_caller_progress_staleCaller :
    ∃ (tr : List (Bool × Event ℕ)) (s : State Bool ℕ),
      (system .unbounded 2 Bool ℕ).Run tr s ∧
        s.threads false = .push 9 (.check 0) ∧ s.shared.writeIdx.val = 2 ∧
        ∃ k ≤ 4, (loneStep 2)^[k] (s.shared, s.threads false) =
          (s.shared.setWriteIdx (s.shared.writeIdx.val + 1),
            .push 9 (.claimed s.shared.writeIdx.val)) := by
  obtain ⟨⟨tr, s⟩, hexec, hend⟩ := Option.map_eq_some_iff.mp
    (show (Lts.exec (Pool.next (move .unbounded 2))
        ⟨Queue.new .unbounded, fun _ => .idle⟩ staleCaller).map
        (fun r => (decide (∀ t, (r.2.threads t).writing = none ∧
            (r.2.threads t).reading = none), r.2.threads false,
          r.2.shared.writeIdx.val, r.2.shared.readIdx.val)) =
            some (true, .push 9 (.check 0), 2, 1)
      by decide +kernel)
  obtain ⟨hquiet, hcaller, hwrite, hread⟩ :=
    by simpa only [Prod.mk.injEq] using hend
  have hrun : (system .unbounded 2 Bool ℕ).Run tr s := Pool.run_of_exec hexec
  have hnobody : ∀ t, (s.threads t).writing = none ∧
      (s.threads t).reading = none := of_decide_eq_true hquiet
  refine ⟨tr, s, hrun, hcaller, hwrite, ?_⟩
  refine ((lone_caller_progress le_rfl hrun hnobody false).2.1 9 _ hcaller).1 ?_
  rw [hwrite, hread]
  decide

end StdAtomicMPMCQueue
end ConcurrentQueues
