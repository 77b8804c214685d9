import ConcurrentQueues.Mpmc.Preservation

/-!
# `mpmc_bounded_queue`

The second queue of `StdAtomicMPMCQueue.h`.  Its cells and positions are those
of `StdAtomicMPMCQueue`: `sequence_` is `seq_`, `enqueue_pos_` is `write_idx_`
and `dequeue_pos_` is `read_idx_`.  The cell of a position is found with a mask,
and the loops decide by the sign of a signed difference.  A negative difference
makes `enqueue` and `dequeue` return `false`.

Two callers are modelled: one takes the `false` for an answer, the other calls
again until the call returns `true`.
-/

namespace ConcurrentQueues

universe u v

namespace MpmcBoundedQueue

open Fifo
open StdAtomicMPMCQueue (Queue Pc Choice)

variable {ι : Type v} {T : Type u}

/-! ## Threads -/

/-- The local state of a thread.  `pos` is the argument of the program point.
A failed call is about to return `false`. -/
inductive Thread (T : Type u)
  | idle
  | enqueue (data : T) (pc : Pc)
  | dequeue (data : Option T) (pc : Pc)
  | done (pos : ℕ) (r : Res T)
  | enqueueFailed (data : T)
  | dequeueFailed (data : Option T)
  deriving DecidableEq

/-- What a step shows.  Everything but the end of a failed call is shown as
`StdAtomicMPMCQueue` shows it. -/
inductive Event (T : Type u)
  | step (e : StdAtomicMPMCQueue.Event T)
  | fail (r : Res T)
  | again
  deriving DecidableEq

/-- What a caller does with `false`. -/
inductive Caller
  | once
  | retry
  deriving DecidableEq

/-- A caller that goes on until the call returns `true` calls a blocking
operation. -/
def Caller.enqueueOp : Caller → T → Op T
  | .once, data => .tryPush data
  | .retry, data => .push data

def Caller.dequeueOp : Caller → Op T
  | .once => .tryPop
  | .retry => .pop

/-! ## The operations -/

/-- The cell of a position, `pos & buffer_mask_`. -/
def cell (n pos : ℕ) : ℕ :=
  pos &&& (n - 1)

/-- One step of `enqueue(data)`. -/
def enqueue (S : SizeT) (n : ℕ) (q : Queue T) (data : T) :
    Pc → Choice T → Option (Event T × Queue T × Thread T)
  | .load, .see lag =>
      (q.writeIdx.load lag).map fun pos =>
        (.step (.load .write lag), q, .enqueue data (.check pos))
  | .check pos, .go =>
      if S.signedDif (q.buffer (cell n pos)).seq pos = 0 then
        some (.step .check, q, .enqueue data (.exchange pos))
      else if S.signedDif (q.buffer (cell n pos)).seq pos < 0 then
        some (.step .check, q, .enqueueFailed data)
      else
        some (.step .check, q, .enqueue data .load)
  | .exchange pos, .go =>
      if q.writeIdx.val = pos then
        some (.step (.claimWrite pos data), q.setWriteIdx (S.add pos 1),
          .enqueue data (.claimed pos))
      else
        none
  | .exchange _, .see lag =>
      (q.writeIdx.load lag).map fun pos =>
        (.step (.retry .write lag), q, .enqueue data (.check pos))
  | .claimed pos, .go =>
      some (.step .copyBegin, q.setData (cell n pos) none,
        .enqueue data (.copying pos))
  | .copying pos, .go =>
      some (.step .copyEnd, q.setData (cell n pos) (some data),
        .enqueue data (.store pos))
  | .store pos, .go =>
      some (.step .store, q.setSeq (cell n pos) (S.add pos 1),
        .done pos (.pushed true))
  | _, _ => none

/-- One step of `dequeue(data)`. -/
def dequeue (S : SizeT) (n : ℕ) (q : Queue T) (data : Option T) :
    Pc → Choice T → Option (Event T × Queue T × Thread T)
  | .load, .see lag =>
      (q.readIdx.load lag).map fun pos =>
        (.step (.load .read lag), q, .dequeue data (.check pos))
  | .check pos, .go =>
      if S.signedDif (q.buffer (cell n pos)).seq (S.add pos 1) = 0 then
        some (.step .check, q, .dequeue data (.exchange pos))
      else if S.signedDif (q.buffer (cell n pos)).seq (S.add pos 1) < 0 then
        some (.step .check, q, .dequeueFailed data)
      else
        some (.step .check, q, .dequeue data .load)
  | .exchange pos, .go =>
      if q.readIdx.val = pos then
        some (.step (.claimRead pos), q.setReadIdx (S.add pos 1),
          .dequeue data (.claimed pos))
      else
        none
  | .exchange _, .see lag =>
      (q.readIdx.load lag).map fun pos =>
        (.step (.retry .read lag), q, .dequeue data (.check pos))
  | .claimed pos, .go =>
      some (.step .copyBegin, q, .dequeue data (.copying pos))
  | .copying pos, .go =>
      some (.step .copyEnd, q,
        .dequeue (q.buffer (cell n pos)).data (.store pos))
  | .store pos, .go =>
      some (.step .store,
        q.setSeq (cell n pos) (S.add (S.add pos (n - 1)) 1),
        .done pos (.popped data))
  | _, _ => none

/-- One step of a thread that calls `enqueue` and `dequeue` in any order. -/
def move (S : SizeT) (n : ℕ) (r : Caller) (q : Queue T) :
    Thread T → Choice T → Option (Event T × Queue T × Thread T)
  | .idle, .call (.push data) =>
      some (.step (.call (r.enqueueOp data)), q, .enqueue data .load)
  | .idle, .call .pop =>
      some (.step (.call r.dequeueOp), q, .dequeue none .load)
  | .enqueue data pc, c => enqueue S n q data pc c
  | .dequeue data pc, c => dequeue S n q data pc c
  | .done pos res, .go => some (.step (.ret pos res), q, .idle)
  | .enqueueFailed data, .go =>
      match r with
      | .once => some (.fail (.pushed false), q, .idle)
      | .retry => some (.again, q, .enqueue data .load)
  | .dequeueFailed data, .go =>
      match r with
      | .once => some (.fail (.popped none), q, .idle)
      | .retry => some (.again, q, .dequeue data .load)
  | _, _ => none

/-- All interleavings of threads on one queue of `buffer_size` `n`. -/
def system (S : SizeT) (n : ℕ) (r : Caller) (ι : Type v) [DecidableEq ι]
    (T : Type u) : Lts (Pool ι (Queue T) (Thread T)) (ι × Event T) :=
  Pool.lts ι (Pool.Moves (move S n r)) (Queue.new S) .idle

/-- Threads on a shared queue. -/
abbrev State (ι : Type v) (T : Type u) := Pool ι (Queue T) (Thread T)

/-! ## Masks and laps -/

/-- For a power of two the mask keeps the remainder. -/
theorem cell_eq {n : ℕ} (hpow : ∃ k, n = 2 ^ k) (pos : ℕ) :
    cell n pos = pos % n := by
  obtain ⟨k, rfl⟩ := hpow
  exact Nat.and_two_pow_sub_one_eq_mod pos k

/-- The sequence number that `dequeue` stores is one lap ahead. -/
theorem add_mask {n : ℕ} (hn : 1 ≤ n) (S : SizeT) (pos : ℕ) :
    S.add (S.add pos (n - 1)) 1 = S.add pos n := by
  cases S with
  | unbounded =>
      simp only [SizeT.add_unbounded]
      omega
  | bits w =>
      change (SizeT.bits w).add ((pos + (n - 1)) % 2 ^ w) 1 = _
      rw [SizeT.add_bits_mod, Nat.add_assoc, Nat.sub_add_cancel hn]
      rfl

/-! ## The moves, case by case -/

/-- The events inside a call other than the test of `sequence_`, and returns. -/
def inner : StdAtomicMPMCQueue.Event T → Bool
  | .check | .call _ => false
  | _ => true

/-- A thread of `StdAtomicMPMCQueue` at the same place of this queue. -/
def Thread.of : StdAtomicMPMCQueue.Thread T → Thread T
  | .idle => .idle
  | .push item pc => .enqueue item pc
  | .pop item pc => .dequeue item pc
  | .done idx r => .done idx r

/-- What a thread can do.  Away from the test of `sequence_` a call takes the
steps of a call on `StdAtomicMPMCQueue`. -/
inductive Move (S : SizeT) (n : ℕ) (r : Caller) (q : Queue T) :
    Thread T → Event T → Queue T → Thread T → Prop
  | callEnqueue (data : T) :
      Move S n r q .idle (.step (.call (r.enqueueOp data))) q
        (.enqueue data .load)
  | callDequeue :
      Move S n r q .idle (.step (.call r.dequeueOp)) q (.dequeue none .load)
  | same {th th' : StdAtomicMPMCQueue.Thread T}
      {e : StdAtomicMPMCQueue.Event T} {q' : Queue T}
      (h : StdAtomicMPMCQueue.Move S n q th e q' th') (he : inner e) :
      Move S n r q (.of th) (.step e) q' (.of th')
  | enqueueReady {data : T} {pos : ℕ}
      (h : S.signedDif (q.seqOf n pos) pos = 0) :
      Move S n r q (.enqueue data (.check pos)) (.step .check) q
        (.enqueue data (.exchange pos))
  | enqueueFull {data : T} {pos : ℕ}
      (h : S.signedDif (q.seqOf n pos) pos < 0) :
      Move S n r q (.enqueue data (.check pos)) (.step .check) q
        (.enqueueFailed data)
  | enqueueBusy {data : T} {pos : ℕ}
      (h : 0 < S.signedDif (q.seqOf n pos) pos) :
      Move S n r q (.enqueue data (.check pos)) (.step .check) q
        (.enqueue data .load)
  | dequeueReady {data : Option T} {pos : ℕ}
      (h : S.signedDif (q.seqOf n pos) (S.add pos 1) = 0) :
      Move S n r q (.dequeue data (.check pos)) (.step .check) q
        (.dequeue data (.exchange pos))
  | dequeueEmpty {data : Option T} {pos : ℕ}
      (h : S.signedDif (q.seqOf n pos) (S.add pos 1) < 0) :
      Move S n r q (.dequeue data (.check pos)) (.step .check) q
        (.dequeueFailed data)
  | dequeueBusy {data : Option T} {pos : ℕ}
      (h : 0 < S.signedDif (q.seqOf n pos) (S.add pos 1)) :
      Move S n r q (.dequeue data (.check pos)) (.step .check) q
        (.dequeue data .load)
  | enqueueFalse {data : T} (hr : r = .once) :
      Move S n r q (.enqueueFailed data) (.fail (.pushed false)) q .idle
  | dequeueFalse {data : Option T} (hr : r = .once) :
      Move S n r q (.dequeueFailed data) (.fail (.popped none)) q .idle
  | enqueueAgain {data : T} (hr : r = .retry) :
      Move S n r q (.enqueueFailed data) .again q (.enqueue data .load)
  | dequeueAgain {data : Option T} (hr : r = .retry) :
      Move S n r q (.dequeueFailed data) .again q (.dequeue data .load)

section Cases

variable {S : SizeT} {n : ℕ} {r : Caller} {q q' : Queue T} {th' : Thread T}
  {e : Event T}

theorem move_of_enqueue (hpow : ∃ k, n = 2 ^ k) {data : T} {pc : Pc}
    {c : Choice T} (h : enqueue S n q data pc c = some (e, q', th')) :
    Move S n r q (.enqueue data pc) e q' th' := by
  revert h
  fun_cases enqueue S n q data pc c <;> intro h
  case case1 lag =>
    obtain ⟨pos, hv, heq⟩ := Option.map_eq_some_iff.mp h
    cases heq
    exact .same (.pushLoad hv) rfl
  case case2 pos hdif =>
    cases h
    rw [cell_eq hpow] at hdif
    exact .enqueueReady hdif
  case case3 pos hne hdif =>
    cases h
    rw [cell_eq hpow] at hdif
    exact .enqueueFull hdif
  case case4 pos hne hdif =>
    cases h
    rw [cell_eq hpow] at hne hdif
    exact .enqueueBusy (lt_of_le_of_ne (not_lt.mp hdif) (Ne.symm hne))
  case case5 => cases h; exact .same (.pushClaim rfl) rfl
  case case7 pos lag =>
    obtain ⟨pos', hv, heq⟩ := Option.map_eq_some_iff.mp h
    cases heq
    exact .same (.pushRetry hv) rfl
  case case8 pos =>
    cases h
    rw [cell_eq hpow]
    exact .same .pushCopyBegin rfl
  case case9 pos =>
    cases h
    rw [cell_eq hpow]
    exact .same .pushCopyEnd rfl
  case case10 pos =>
    cases h
    rw [cell_eq hpow]
    exact .same .pushStore rfl
  all_goals cases h

theorem move_of_dequeue (hn : 1 ≤ n) (hpow : ∃ k, n = 2 ^ k)
    {data : Option T} {pc : Pc} {c : Choice T}
    (h : dequeue S n q data pc c = some (e, q', th')) :
    Move S n r q (.dequeue data pc) e q' th' := by
  revert h
  fun_cases dequeue S n q data pc c <;> intro h
  case case1 lag =>
    obtain ⟨pos, hv, heq⟩ := Option.map_eq_some_iff.mp h
    cases heq
    exact .same (.popLoad hv) rfl
  case case2 pos hdif =>
    cases h
    rw [cell_eq hpow] at hdif
    exact .dequeueReady hdif
  case case3 pos hne hdif =>
    cases h
    rw [cell_eq hpow] at hdif
    exact .dequeueEmpty hdif
  case case4 pos hne hdif =>
    cases h
    rw [cell_eq hpow] at hne hdif
    exact .dequeueBusy (lt_of_le_of_ne (not_lt.mp hdif) (Ne.symm hne))
  case case5 => cases h; exact .same (.popClaim rfl) rfl
  case case7 pos lag =>
    obtain ⟨pos', hv, heq⟩ := Option.map_eq_some_iff.mp h
    cases heq
    exact .same (.popRetry hv) rfl
  case case8 pos => cases h; exact .same .popCopyBegin rfl
  case case9 pos =>
    cases h
    rw [cell_eq hpow]
    exact .same .popCopyEnd rfl
  case case10 pos =>
    cases h
    rw [cell_eq hpow, add_mask hn]
    exact .same .popStore rfl
  all_goals cases h

/-- The case analysis is exactly the executable move. -/
theorem moves_iff {th : Thread T} (hn : 1 ≤ n) (hpow : ∃ k, n = 2 ^ k) :
    Pool.Moves (move S n r) q th e q' th' ↔ Move S n r q th e q' th' := by
  constructor
  · rintro ⟨c, h⟩
    revert h
    fun_cases move S n r q th c <;> intro h
    case case1 data => cases h; exact .callEnqueue data
    case case2 => cases h; exact .callDequeue
    case case3 data pc => exact move_of_enqueue hpow h
    case case4 data pc => exact move_of_dequeue hn hpow h
    case case5 pos res => cases h; exact .same .ret rfl
    case case6 => cases h; exact .enqueueFalse rfl
    case case7 => cases h; exact .enqueueAgain rfl
    case case8 => cases h; exact .dequeueFalse rfl
    case case9 => cases h; exact .dequeueAgain rfl
    all_goals cases h
  · intro h
    cases h with
    | callEnqueue data => exact ⟨.call (.push data), rfl⟩
    | callDequeue => exact ⟨.call .pop, rfl⟩
    | same h he =>
        cases h with
        | @pushLoad _ lag _ h | @popLoad _ lag _ h | @pushRetry _ _ lag _ h
        | @popRetry _ _ lag _ h =>
            exact ⟨.see lag, by simp [Thread.of, move, enqueue, dequeue, h]⟩
        | pushClaim h | popClaim h =>
            exact ⟨.go, by simp [Thread.of, move, enqueue, dequeue, h]⟩
        | pushCopyBegin | pushCopyEnd | pushStore | popCopyBegin | popCopyEnd
        | ret =>
            exact ⟨.go, by simp [Thread.of, move, enqueue, dequeue,
              cell_eq hpow]⟩
        | popStore =>
            exact ⟨.go, by simp [Thread.of, move, dequeue, cell_eq hpow,
              add_mask hn]⟩
        | callPush | callPop | pushReady | pushBusy | popReady | popBusy =>
            cases he
    | enqueueReady h | dequeueReady h =>
        rw [Queue.seqOf, ← cell_eq hpow] at h
        exact ⟨.go, by simp [move, enqueue, dequeue, h]⟩
    | enqueueFull h | dequeueEmpty h =>
        rw [Queue.seqOf, ← cell_eq hpow] at h
        exact ⟨.go, by simp [move, enqueue, dequeue, h, h.ne]⟩
    | enqueueBusy h | dequeueBusy h =>
        rw [Queue.seqOf, ← cell_eq hpow] at h
        exact ⟨.go, by simp [move, enqueue, dequeue, h.ne', not_lt.mpr h.le]⟩
    | enqueueFalse hr | dequeueFalse hr | enqueueAgain hr | dequeueAgain hr =>
        subst hr
        exact ⟨.go, rfl⟩

end Cases

/-! ## The invariant -/

/-- A thread read as a thread of `StdAtomicMPMCQueue`.  A failed call stands
where it would begin again. -/
def Thread.view : Thread T → StdAtomicMPMCQueue.Thread T
  | .idle => .idle
  | .enqueue data pc => .push data pc
  | .dequeue data pc => .pop data pc
  | .done pos r => .done pos r
  | .enqueueFailed data => .push data .load
  | .dequeueFailed data => .pop data .load

@[simp] theorem view_of (th : StdAtomicMPMCQueue.Thread T) :
    (Thread.of th).view = th := by
  cases th <;> rfl

/-- The item of a claim on `enqueue_pos_`. -/
def Event.claimed? : Event T → Option T
  | .step e => e.claimed?
  | .fail _ | .again => none

/-- The items enqueued along a trace, in the order of their claims. -/
def enqueued (tr : List (ι × Event T)) : List T :=
  tr.filterMap fun a => a.2.claimed?

theorem enqueued_snoc (tr : List (ι × Event T)) (a : ι × Event T) :
    enqueued (tr ++ [a]) = enqueued tr ++ a.2.claimed?.toList := by
  rw [enqueued, List.filterMap_append]
  cases h : a.2.claimed? <;> simp [enqueued, h]

section Invariant

open StdAtomicMPMCQueue (Inv)

variable [DecidableEq ι] {n : ℕ} {r : Caller} {log : List T} {s : State ι T}
  {t : ι} {th th' : Thread T} {e : Event T} {q : Queue T}

/-- Every step of this queue keeps the invariant of `StdAtomicMPMCQueue`. -/
theorem inv_step (hn : 2 ≤ n) (hI : Inv n log (s.map Thread.view))
    (hth : s.threads t = th) (hmove : Move .unbounded n r s.shared th e q th') :
    Inv n (log ++ e.claimed?.toList) ((s.move t q th').map Thread.view) := by
  have hview : (s.map Thread.view).threads t = th.view :=
    congrArg Thread.view hth
  rw [Pool.map_move]
  cases hmove with
  | same h _ =>
      rw [view_of] at hview ⊢
      exact hI.step hn hview h
  | enqueueReady h =>
      refine hI.step hn hview (.pushReady ?_)
      rw [SizeT.signedDif_unbounded] at h
      exact_mod_cast sub_eq_zero.mp h
  | dequeueReady h =>
      refine hI.step hn hview (.popReady ?_)
      rw [SizeT.signedDif_unbounded] at h
      exact_mod_cast sub_eq_zero.mp h
  | callEnqueue | callDequeue | enqueueFull | enqueueBusy | dequeueEmpty
  | dequeueBusy | enqueueFalse | dequeueFalse | enqueueAgain
  | dequeueAgain =>
      simp only [Event.claimed?, StdAtomicMPMCQueue.Event.claimed?,
        Option.toList_none, List.append_nil]
      refine hI.own_move trivial ?_ ?_
      · rw [hview]
        rfl
      · rw [hview]
        rfl

theorem inv_of_run (hn : 2 ≤ n) (hpow : ∃ k, n = 2 ^ k)
    {tr : List (ι × Event T)}
    (hrun : (system .unbounded n r ι T).Run tr s) :
    Inv n (enqueued tr) (s.map Thread.view) := by
  refine Lts.Run.induction
    (P := fun tr s => Inv n (enqueued tr) (s.map Thread.view))
    StdAtomicMPMCQueue.inv_init ?_ hrun
  rintro tr s ⟨t, e⟩ s' - hI ⟨q, th, hmove, rfl⟩
  rw [enqueued_snoc]
  exact inv_step hn hI rfl ((moves_iff (by omega) hpow).mp hmove)

end Invariant

end MpmcBoundedQueue
end ConcurrentQueues
