import ConcurrentQueues.Core.Memory
import ConcurrentQueues.Support.Object

/-!
# `StdAtomicMPMCQueue`

The bounded queue for many producers and many consumers, translated from
`StdAtomicMPMCQueue.h`.  A thread moves by one atomic access at a time: the
load of an index, the load of `seq_` with the test that follows it, the
compare-exchange, the beginning and the end of the copy to or from `data_`, and
the store of `seq_`.

The copy is not atomic.  While an item is being copied into a cell, the cell
has no complete value.
-/

namespace ConcurrentQueues

universe u v

namespace StdAtomicMPMCQueue

open Fifo

/-! ## The queue -/

/-- `node_t`.  A slot without a completely written value is `none`. -/
structure Node (T : Type u) where
  seq : ℕ
  data : Option T
  deriving DecidableEq

/-- The members of the queue.  Cells are used at indexes taken `% SIZE`. -/
structure Queue (T : Type u) where
  buffer : ℕ → Node T
  writeIdx : Atomic
  readIdx : Atomic

namespace Queue

variable {T : Type u}

/-- The constructor: `seq_` of cell `i` is `i`. -/
def new (S : SizeT) : Queue T where
  buffer i := ⟨S.ofNat i, none⟩
  writeIdx := Atomic.ofVal 0
  readIdx := Atomic.ofVal 0

def setSeq (q : Queue T) (cell seq : ℕ) : Queue T :=
  { q with
    buffer := Function.update q.buffer cell { q.buffer cell with seq := seq } }

def setData (q : Queue T) (cell : ℕ) (data : Option T) : Queue T :=
  { q with
    buffer :=
      Function.update q.buffer cell { q.buffer cell with data := data } }

/-- The successful compare-exchange on `write_idx_`. -/
def setWriteIdx (q : Queue T) (v : ℕ) : Queue T :=
  { q with writeIdx := q.writeIdx.store v }

/-- The successful compare-exchange on `read_idx_`. -/
def setReadIdx (q : Queue T) (v : ℕ) : Queue T :=
  { q with readIdx := q.readIdx.store v }

variable (q : Queue T) (c c' k : ℕ) (d : Option T)

@[simp] theorem setSeq_writeIdx : (q.setSeq c k).writeIdx = q.writeIdx := rfl
@[simp] theorem setSeq_readIdx : (q.setSeq c k).readIdx = q.readIdx := rfl
@[simp] theorem setData_writeIdx : (q.setData c d).writeIdx = q.writeIdx := rfl
@[simp] theorem setData_readIdx : (q.setData c d).readIdx = q.readIdx := rfl
@[simp] theorem setWriteIdx_writeIdx :
    (q.setWriteIdx k).writeIdx = q.writeIdx.store k := rfl
@[simp] theorem setWriteIdx_readIdx :
    (q.setWriteIdx k).readIdx = q.readIdx := rfl
@[simp] theorem setWriteIdx_buffer :
    (q.setWriteIdx k).buffer = q.buffer := rfl
@[simp] theorem setReadIdx_writeIdx :
    (q.setReadIdx k).writeIdx = q.writeIdx := rfl
@[simp] theorem setReadIdx_readIdx :
    (q.setReadIdx k).readIdx = q.readIdx.store k := rfl
@[simp] theorem setReadIdx_buffer : (q.setReadIdx k).buffer = q.buffer := rfl

@[simp] theorem setSeq_seq_self : ((q.setSeq c k).buffer c).seq = k := by
  simp [setSeq]

@[simp] theorem setSeq_data :
    ((q.setSeq c k).buffer c').data = (q.buffer c').data := by
  by_cases h : c' = c
  · subst h
    simp [setSeq]
  · simp [setSeq, h]

@[simp] theorem setData_data_self : ((q.setData c d).buffer c).data = d := by
  simp [setData]

@[simp] theorem setData_seq :
    ((q.setData c d).buffer c').seq = (q.buffer c').seq := by
  by_cases h : c' = c
  · subst h
    simp [setData]
  · simp [setData, h]

variable {c c'}

theorem setSeq_seq_of_ne (h : c' ≠ c) :
    ((q.setSeq c k).buffer c').seq = (q.buffer c').seq := by
  simp [setSeq, h]

theorem setData_data_of_ne (h : c' ≠ c) :
    ((q.setData c d).buffer c').data = (q.buffer c').data := by
  simp [setData, h]

end Queue

/-! ## Threads -/

/-- Where a thread stands in `push` or `pop`.  The argument is the local
`write_idx` or `read_idx`. -/
inductive Pc
  /-- before `write_idx_.load` or `read_idx_.load` -/
  | load
  /-- at the top of the loop, before `seq_.load` -/
  | check (idx : ℕ)
  /-- `seq` admits the index, before `compare_exchange_weak` -/
  | exchange (idx : ℕ)
  /-- out of the loop, before the copy -/
  | claimed (idx : ℕ)
  /-- inside the copy -/
  | copying (idx : ℕ)
  /-- before `seq_.store` -/
  | store (idx : ℕ)
  deriving DecidableEq

/-- The local state of a thread.  A pop carries the variable its result is
copied to, a finished call the index it claimed. -/
inductive Thread (T : Type u)
  | idle
  | push (item : T) (pc : Pc)
  | pop (item : Option T) (pc : Pc)
  | done (idx : ℕ) (r : Res T)
  deriving DecidableEq

/-- The two shared indexes. -/
inductive Index
  | write
  | read
  deriving DecidableEq

/-- What a step shows.  A load or a failed compare-exchange shows how far
behind the newest value the value it saw was. -/
inductive Event (T : Type u)
  | call (op : Op T)
  | load (x : Index) (lag : ℕ)
  | check
  | retry (x : Index) (lag : ℕ)
  | claimWrite (idx : ℕ) (item : T)
  | claimRead (idx : ℕ)
  | copyBegin
  | copyEnd
  | store
  | ret (idx : ℕ) (r : Res T)
  deriving DecidableEq

/-- What the scheduler and the memory decide about a step: which operation an
idle thread calls, and which value a load or a failing compare-exchange
sees. -/
inductive Choice (T : Type u)
  | call (op : Op T)
  | see (lag : ℕ)
  | go

variable {T : Type u}

/-! ## The operations -/

/-- One step of `push(item)`.  A weak compare-exchange may fail whatever the
index holds. -/
def push (S : SizeT) (n : ℕ) (q : Queue T) (item : T) :
    Pc → Choice T → Option (Event T × Queue T × Thread T)
  | .load, .see lag =>
      (q.writeIdx.load lag).map fun writeIdx =>
        (.load .write lag, q, .push item (.check writeIdx))
  | .check writeIdx, .go =>
      if (q.buffer (writeIdx % n)).seq = writeIdx then
        some (.check, q, .push item (.exchange writeIdx))
      else
        some (.check, q, .push item .load)
  | .exchange writeIdx, .go =>
      if q.writeIdx.val = writeIdx then
        some (.claimWrite writeIdx item, q.setWriteIdx (S.add writeIdx 1),
          .push item (.claimed writeIdx))
      else
        none
  | .exchange _, .see lag =>
      (q.writeIdx.load lag).map fun writeIdx =>
        (.retry .write lag, q, .push item (.check writeIdx))
  | .claimed writeIdx, .go =>
      some (.copyBegin, q.setData (writeIdx % n) none,
        .push item (.copying writeIdx))
  | .copying writeIdx, .go =>
      some (.copyEnd, q.setData (writeIdx % n) (some item),
        .push item (.store writeIdx))
  | .store writeIdx, .go =>
      some (.store, q.setSeq (writeIdx % n) (S.add writeIdx 1),
        .done writeIdx (.pushed true))
  | _, _ => none

/-- One step of `pop(item)`. -/
def pop (S : SizeT) (n : ℕ) (q : Queue T) (item : Option T) :
    Pc → Choice T → Option (Event T × Queue T × Thread T)
  | .load, .see lag =>
      (q.readIdx.load lag).map fun readIdx =>
        (.load .read lag, q, .pop item (.check readIdx))
  | .check readIdx, .go =>
      if (q.buffer (readIdx % n)).seq = S.add readIdx 1 then
        some (.check, q, .pop item (.exchange readIdx))
      else
        some (.check, q, .pop item .load)
  | .exchange readIdx, .go =>
      if q.readIdx.val = readIdx then
        some (.claimRead readIdx, q.setReadIdx (S.add readIdx 1),
          .pop item (.claimed readIdx))
      else
        none
  | .exchange _, .see lag =>
      (q.readIdx.load lag).map fun readIdx =>
        (.retry .read lag, q, .pop item (.check readIdx))
  | .claimed readIdx, .go =>
      some (.copyBegin, q, .pop item (.copying readIdx))
  | .copying readIdx, .go =>
      some (.copyEnd, q, .pop (q.buffer (readIdx % n)).data (.store readIdx))
  | .store readIdx, .go =>
      some (.store, q.setSeq (readIdx % n) (S.add readIdx n),
        .done readIdx (.popped item))
  | _, _ => none

/-- One step of a thread that calls `push` and `pop` in any order. -/
def move (S : SizeT) (n : ℕ) (q : Queue T) :
    Thread T → Choice T → Option (Event T × Queue T × Thread T)
  | .idle, .call (.push item) =>
      some (.call (.push item), q, .push item .load)
  | .idle, .call .pop => some (.call .pop, q, .pop none .load)
  | .push item pc, c => push S n q item pc c
  | .pop item pc, c => pop S n q item pc c
  | .done idx r, .go => some (.ret idx r, q, .idle)
  | _, _ => none

/-- All interleavings of threads on one queue of size `n`. -/
def system (S : SizeT) (n : ℕ) (ι : Type v) [DecidableEq ι] (T : Type u) :
    Lts (Pool ι (Queue T) (Thread T)) (ι × Event T) :=
  Pool.lts ι (Pool.Moves (move S n)) (Queue.new S) .idle

/-! ## The moves, case by case -/

/-- What a thread can do, one constructor for each atomic access. -/
inductive Move (S : SizeT) (n : ℕ) (q : Queue T) :
    Thread T → Event T → Queue T → Thread T → Prop
  | callPush (item : T) :
      Move S n q .idle (.call (.push item)) q (.push item .load)
  | callPop : Move S n q .idle (.call .pop) q (.pop none .load)
  | pushLoad {item : T} {lag v : ℕ} (h : q.writeIdx.load lag = some v) :
      Move S n q (.push item .load) (.load .write lag) q
        (.push item (.check v))
  | pushReady {item : T} {v : ℕ} (h : (q.buffer (v % n)).seq = v) :
      Move S n q (.push item (.check v)) .check q (.push item (.exchange v))
  | pushBusy {item : T} {v : ℕ} (h : (q.buffer (v % n)).seq ≠ v) :
      Move S n q (.push item (.check v)) .check q (.push item .load)
  | pushClaim {item : T} {v : ℕ} (h : q.writeIdx.val = v) :
      Move S n q (.push item (.exchange v)) (.claimWrite v item)
        (q.setWriteIdx (S.add v 1)) (.push item (.claimed v))
  | pushRetry {item : T} {v lag v' : ℕ} (h : q.writeIdx.load lag = some v') :
      Move S n q (.push item (.exchange v)) (.retry .write lag) q
        (.push item (.check v'))
  | pushCopyBegin {item : T} {v : ℕ} :
      Move S n q (.push item (.claimed v)) .copyBegin
        (q.setData (v % n) none) (.push item (.copying v))
  | pushCopyEnd {item : T} {v : ℕ} :
      Move S n q (.push item (.copying v)) .copyEnd
        (q.setData (v % n) (some item)) (.push item (.store v))
  | pushStore {item : T} {v : ℕ} :
      Move S n q (.push item (.store v)) .store
        (q.setSeq (v % n) (S.add v 1)) (.done v (.pushed true))
  | popLoad {item : Option T} {lag v : ℕ} (h : q.readIdx.load lag = some v) :
      Move S n q (.pop item .load) (.load .read lag) q (.pop item (.check v))
  | popReady {item : Option T} {v : ℕ}
      (h : (q.buffer (v % n)).seq = S.add v 1) :
      Move S n q (.pop item (.check v)) .check q (.pop item (.exchange v))
  | popBusy {item : Option T} {v : ℕ}
      (h : (q.buffer (v % n)).seq ≠ S.add v 1) :
      Move S n q (.pop item (.check v)) .check q (.pop item .load)
  | popClaim {item : Option T} {v : ℕ} (h : q.readIdx.val = v) :
      Move S n q (.pop item (.exchange v)) (.claimRead v)
        (q.setReadIdx (S.add v 1)) (.pop item (.claimed v))
  | popRetry {item : Option T} {v lag v' : ℕ}
      (h : q.readIdx.load lag = some v') :
      Move S n q (.pop item (.exchange v)) (.retry .read lag) q
        (.pop item (.check v'))
  | popCopyBegin {item : Option T} {v : ℕ} :
      Move S n q (.pop item (.claimed v)) .copyBegin q (.pop item (.copying v))
  | popCopyEnd {item : Option T} {v : ℕ} :
      Move S n q (.pop item (.copying v)) .copyEnd q
        (.pop (q.buffer (v % n)).data (.store v))
  | popStore {item : Option T} {v : ℕ} :
      Move S n q (.pop item (.store v)) .store
        (q.setSeq (v % n) (S.add v n)) (.done v (.popped item))
  | ret {idx : ℕ} {r : Res T} : Move S n q (.done idx r) (.ret idx r) q .idle

theorem move_of_push {S : SizeT} {n : ℕ} {q q' : Queue T} {item : T} {pc : Pc}
    {c : Choice T} {e : Event T} {th' : Thread T}
    (h : push S n q item pc c = some (e, q', th')) :
    Move S n q (.push item pc) e q' th' := by
  revert h
  fun_cases push S n q item pc c <;> intro h
  case case1 lag =>
    obtain ⟨v, hv, heq⟩ := Option.map_eq_some_iff.mp h
    cases heq
    exact .pushLoad hv
  case case2 v hseq => cases h; exact .pushReady hseq
  case case3 v hseq => cases h; exact .pushBusy hseq
  case case4 => cases h; exact .pushClaim rfl
  case case6 v lag =>
    obtain ⟨v', hv, heq⟩ := Option.map_eq_some_iff.mp h
    cases heq
    exact .pushRetry hv
  case case7 v => cases h; exact .pushCopyBegin
  case case8 v => cases h; exact .pushCopyEnd
  case case9 v => cases h; exact .pushStore
  all_goals cases h

theorem move_of_pop {S : SizeT} {n : ℕ} {q q' : Queue T} {item : Option T}
    {pc : Pc} {c : Choice T} {e : Event T} {th' : Thread T}
    (h : pop S n q item pc c = some (e, q', th')) :
    Move S n q (.pop item pc) e q' th' := by
  revert h
  fun_cases pop S n q item pc c <;> intro h
  case case1 lag =>
    obtain ⟨v, hv, heq⟩ := Option.map_eq_some_iff.mp h
    cases heq
    exact .popLoad hv
  case case2 v hseq => cases h; exact .popReady hseq
  case case3 v hseq => cases h; exact .popBusy hseq
  case case4 => cases h; exact .popClaim rfl
  case case6 v lag =>
    obtain ⟨v', hv, heq⟩ := Option.map_eq_some_iff.mp h
    cases heq
    exact .popRetry hv
  case case7 v => cases h; exact .popCopyBegin
  case case8 v => cases h; exact .popCopyEnd
  case case9 v => cases h; exact .popStore
  all_goals cases h

/-- The case analysis is exactly the executable move. -/
theorem moves_iff {S : SizeT} {n : ℕ} {q q' : Queue T} {th th' : Thread T}
    {e : Event T} :
    Pool.Moves (move S n) q th e q' th' ↔ Move S n q th e q' th' := by
  constructor
  · rintro ⟨c, h⟩
    revert h
    fun_cases move S n q th c <;> intro h
    case case1 item => cases h; exact .callPush item
    case case2 => cases h; exact .callPop
    case case3 item pc => exact move_of_push h
    case case4 item pc => exact move_of_pop h
    case case5 idx r => cases h; exact .ret
    all_goals cases h
  · intro h
    cases h with
    | callPush item => exact ⟨.call (.push item), rfl⟩
    | callPop => exact ⟨.call .pop, rfl⟩
    | @pushLoad _ lag _ h | @popLoad _ lag _ h | @pushRetry _ _ lag _ h
    | @popRetry _ _ lag _ h =>
        exact ⟨.see lag, by simp [move, push, pop, h]⟩
    | pushReady h | pushBusy h | popReady h | popBusy h | pushClaim h
    | popClaim h => exact ⟨.go, by simp [move, push, pop, h]⟩
    | pushCopyBegin | pushCopyEnd | pushStore | popCopyBegin | popCopyEnd
    | popStore | ret => exact ⟨.go, rfl⟩

end StdAtomicMPMCQueue
end ConcurrentQueues
