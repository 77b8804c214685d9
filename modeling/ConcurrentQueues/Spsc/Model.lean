import ConcurrentQueues.Core.Memory
import ConcurrentQueues.Support.Object
import ConcurrentQueues.Support.Duo

/-!
# The queues for one producer and one consumer

`alpha::spsc` and `StdAtomicSPSCQueue` keep a cached copy of the other side's
index and load that index only when the ring looks full or empty.  They run
the same steps and differ in what a call does when the ring stays full or
empty: `try_push` gives up, `push` of `alpha::spsc` calls `try_push` again, and
`push` of `StdAtomicSPSCQueue` goes back to the first test.  `delta::spsc` has
no cached copies.

Steps are sequentially consistent.  Writing a slot and copying out of a slot
have a beginning and an end; a slot that is being written has no complete
value.
-/

namespace ConcurrentQueues

universe u

namespace Spsc

open Fifo

/-! ## The ring and its indexes -/

/-- The slots and the two shared indexes. -/
structure Channel (T : Type u) where
  data : ℕ → Option T
  head : ℕ
  tail : ℕ

/-- The ring with the copies of the indexes that each side keeps for itself. -/
structure Queue (T : Type u) extends Channel T where
  cachedHead : ℕ
  cachedTail : ℕ

variable {T : Type u}

namespace Channel

def new : Channel T where
  data _ := none
  head := 0
  tail := 0

def setSlot (r : Channel T) (slot : ℕ) (d : Option T) : Channel T :=
  { r with data := Function.update r.data slot d }

def setTail (r : Channel T) (v : ℕ) : Channel T :=
  { r with tail := v }

def setHead (r : Channel T) (v : ℕ) : Channel T :=
  { r with head := v }

section Fields

variable (r : Channel T) (c v : ℕ) (d : Option T)

@[simp] theorem setSlot_head : (r.setSlot c d).head = r.head := rfl
@[simp] theorem setSlot_tail : (r.setSlot c d).tail = r.tail := rfl
@[simp] theorem setTail_data : (r.setTail v).data = r.data := rfl
@[simp] theorem setTail_head : (r.setTail v).head = r.head := rfl
@[simp] theorem setTail_tail : (r.setTail v).tail = v := rfl
@[simp] theorem setHead_data : (r.setHead v).data = r.data := rfl
@[simp] theorem setHead_head : (r.setHead v).head = v := rfl
@[simp] theorem setHead_tail : (r.setHead v).tail = r.tail := rfl

@[simp] theorem setSlot_data_self : (r.setSlot c d).data c = d := by
  simp [setSlot]

theorem setSlot_data_of_ne {c c' : ℕ} (h : c' ≠ c) :
    (r.setSlot c d).data c' = r.data c' := by
  simp [setSlot, h]

end Fields

end Channel

namespace Queue

def new : Queue T where
  toChannel := Channel.new
  cachedHead := 0
  cachedTail := 0

def setChannel (q : Queue T) (r : Channel T) : Queue T :=
  { q with toChannel := r }

/-- `cached_head_ = head_.load()` -/
def refreshHead (q : Queue T) : Queue T :=
  { q with cachedHead := q.head }

/-- `cached_tail_ = tail_.load()` -/
def refreshTail (q : Queue T) : Queue T :=
  { q with cachedTail := q.tail }

variable (q : Queue T) (r : Channel T)

@[simp] theorem setChannel_toChannel : (q.setChannel r).toChannel = r := rfl
@[simp] theorem setChannel_cachedHead :
    (q.setChannel r).cachedHead = q.cachedHead := rfl
@[simp] theorem setChannel_cachedTail :
    (q.setChannel r).cachedTail = q.cachedTail := rfl
@[simp] theorem refreshHead_toChannel :
    q.refreshHead.toChannel = q.toChannel := rfl
@[simp] theorem refreshHead_cachedHead :
    q.refreshHead.cachedHead = q.head := rfl
@[simp] theorem refreshHead_cachedTail :
    q.refreshHead.cachedTail = q.cachedTail := rfl
@[simp] theorem refreshTail_toChannel :
    q.refreshTail.toChannel = q.toChannel := rfl
@[simp] theorem refreshTail_cachedHead :
    q.refreshTail.cachedHead = q.cachedHead := rfl
@[simp] theorem refreshTail_cachedTail :
    q.refreshTail.cachedTail = q.tail := rfl

end Queue

/-- `full(tail, head)`: `tail - head >= SIZE` -/
def full (S : SizeT) (n tail head : ℕ) : Prop :=
  n ≤ S.sub tail head

/-- `empty(tail, head)`: `tail <= head` -/
def empty (tail head : ℕ) : Prop :=
  tail ≤ head

instance (S : SizeT) (n tail head : ℕ) : Decidable (full S n tail head) :=
  inferInstanceAs (Decidable (n ≤ S.sub tail head))

instance (tail head : ℕ) : Decidable (empty tail head) :=
  inferInstanceAs (Decidable (tail ≤ head))

/-! ## Threads -/

/-- Where a thread stands in a call of a queue with cached indexes.  The
argument is the local copy of the own index. -/
inductive Pc
  /-- before the load of the own index -/
  | load
  /-- before the test against the cached index -/
  | test (own : ℕ)
  /-- apparently full or empty, before the load of the other index -/
  | refresh (own : ℕ)
  /-- before the test against the refreshed index -/
  | retest (own : ℕ)
  /-- before the slot access -/
  | enter (own : ℕ)
  /-- inside the slot access -/
  | inSlot (own : ℕ)
  /-- before the store of the own index -/
  | store (own : ℕ)
  deriving DecidableEq

/-- What a call does when the ring is still full, respectively empty, after the
other index was loaded. -/
inductive OnFail
  /-- `return false`, in `try_push` and `try_pop` -/
  | giveUp
  /-- call `try_push` or `try_pop` again, in `push` and `pop` of `alpha` -/
  | startOver
  /-- `continue`, in `push` and `pop` of `StdAtomicSPSCQueue` -/
  | testAgain
  deriving DecidableEq

/-- The local state of the producer. -/
inductive Producer (L : Type) (T : Type u)
  | idle
  | push (f : OnFail) (item : T) (pc : L)
  | done (b : Bool)
  deriving DecidableEq

/-- The local state of the consumer.  A pop carries the variable its result is
copied to. -/
inductive Consumer (L : Type) (T : Type u)
  | idle
  | pop (f : OnFail) (item : Option T) (pc : L)
  | done (item : Option T)
  deriving DecidableEq

/-- What a step shows: the start of a call, the store of an index with the item
that it publishes or releases, the return of a call. -/
inductive Event (T : Type u)
  | call (op : Op T)
  | inner
  | store (idx : ℕ) (item : Option T)
  | ret (r : Res T)
  deriving DecidableEq

/-- The operation a call performs. -/
def OnFail.pushOp (f : OnFail) (item : T) : Op T :=
  if f = .giveUp then .tryPush item else .push item

def OnFail.popOp (f : OnFail) : Op T :=
  if f = .giveUp then .tryPop else .pop

/-! ## The operations with cached indexes -/

/-- The producer after the second test found the ring full. -/
def afterFull (f : OnFail) (item : T) (tail : ℕ) : Producer Pc T :=
  match f with
  | .giveUp => .done false
  | .startOver => .push f item .load
  | .testAgain => .push f item (.test tail)

/-- The consumer after the second test found the ring empty. -/
def afterEmpty (f : OnFail) (item : Option T) (head : ℕ) : Consumer Pc T :=
  match f with
  | .giveUp => .done none
  | .startOver => .pop f item .load
  | .testAgain => .pop f item (.test head)

/-- One step of a call that pushes `item`. -/
def pushStep (S : SizeT) (n : ℕ) (q : Queue T) (f : OnFail) (item : T) :
    Pc → Event T × Queue T × Producer Pc T
  | .load => (.inner, q, .push f item (.test q.tail))
  | .test tail =>
      if full S n tail q.cachedHead then
        (.inner, q, .push f item (.refresh tail))
      else
        (.inner, q, .push f item (.enter tail))
  | .refresh tail => (.inner, q.refreshHead, .push f item (.retest tail))
  | .retest tail =>
      if full S n tail q.cachedHead then
        (.inner, q, afterFull f item tail)
      else
        (.inner, q, .push f item (.enter tail))
  | .enter tail =>
      (.inner, q.setChannel (q.setSlot (tail % n) none),
        .push f item (.inSlot tail))
  | .inSlot tail =>
      (.inner, q.setChannel (q.setSlot (tail % n) (some item)),
        .push f item (.store tail))
  | .store tail =>
      (.store (S.add tail 1) (some item), q.setChannel (q.setTail (S.add tail 1)),
        .done true)

/-- One step of a call that pops into `item`. -/
def popStep (S : SizeT) (n : ℕ) (q : Queue T) (f : OnFail) (item : Option T) :
    Pc → Event T × Queue T × Consumer Pc T
  | .load => (.inner, q, .pop f item (.test q.head))
  | .test head =>
      if empty q.cachedTail head then
        (.inner, q, .pop f item (.refresh head))
      else
        (.inner, q, .pop f item (.enter head))
  | .refresh head => (.inner, q.refreshTail, .pop f item (.retest head))
  | .retest head =>
      if empty q.cachedTail head then
        (.inner, q, afterEmpty f item head)
      else
        (.inner, q, .pop f item (.enter head))
  | .enter head => (.inner, q, .pop f item (.inSlot head))
  | .inSlot head => (.inner, q, .pop f (q.data (head % n)) (.store head))
  | .store head =>
      (.store (S.add head 1) item, q.setChannel (q.setHead (S.add head 1)),
        .done item)

namespace alpha

/-- `alpha::spsc::try_push` -/
def tryPush (S : SizeT) (n : ℕ) (q : Queue T) (item : T) (pc : Pc) :=
  pushStep S n q .giveUp item pc

/-- `alpha::spsc::push`: `while (!try_push(item))` -/
def push (S : SizeT) (n : ℕ) (q : Queue T) (item : T) (pc : Pc) :=
  pushStep S n q .startOver item pc

/-- `alpha::spsc::try_pop` -/
def tryPop (S : SizeT) (n : ℕ) (q : Queue T) (item : Option T) (pc : Pc) :=
  popStep S n q .giveUp item pc

/-- `alpha::spsc::pop`: `while (!try_pop(item))` -/
def pop (S : SizeT) (n : ℕ) (q : Queue T) (item : Option T) (pc : Pc) :=
  popStep S n q .startOver item pc

end alpha

namespace StdAtomicSPSCQueue

/-- `StdAtomicSPSCQueue::push` -/
def push (S : SizeT) (n : ℕ) (q : Queue T) (item : T) (pc : Pc) :=
  pushStep S n q .testAgain item pc

/-- `StdAtomicSPSCQueue::pop` -/
def pop (S : SizeT) (n : ℕ) (q : Queue T) (item : Option T) (pc : Pc) :=
  popStep S n q .testAgain item pc

end StdAtomicSPSCQueue

/-! ## The systems -/

/-- One step of a producer that makes the calls in `calls`, in any order.  The
choice is the call an idle producer makes. -/
def produce (S : SizeT) (n : ℕ) (calls : OnFail → Bool) (q : Queue T) :
    Producer Pc T → Option (OnFail × T) →
      Option (Event T × Queue T × Producer Pc T)
  | .idle, some (f, item) =>
      if calls f then some (.call (f.pushOp item), q, .push f item .load)
      else none
  | .push .giveUp item pc, none => some (alpha.tryPush S n q item pc)
  | .push .startOver item pc, none => some (alpha.push S n q item pc)
  | .push .testAgain item pc, none =>
      some (StdAtomicSPSCQueue.push S n q item pc)
  | .done b, none => some (.ret (.pushed b), q, .idle)
  | _, _ => none

/-- One step of a consumer that makes the calls in `calls`, in any order. -/
def consume (S : SizeT) (n : ℕ) (calls : OnFail → Bool) (q : Queue T) :
    Consumer Pc T → Option OnFail → Option (Event T × Queue T × Consumer Pc T)
  | .idle, some f =>
      if calls f then some (.call f.popOp, q, .pop f none .load) else none
  | .pop .giveUp item pc, none => some (alpha.tryPop S n q item pc)
  | .pop .startOver item pc, none => some (alpha.pop S n q item pc)
  | .pop .testAgain item pc, none =>
      some (StdAtomicSPSCQueue.pop S n q item pc)
  | .done item, none => some (.ret (.popped item), q, .idle)
  | _, _ => none

/-- A queue with its producer and its consumer. -/
abbrev State (T : Type u) := Duo (Queue T) (Producer Pc T) (Consumer Pc T)

/-- All interleavings of one producer and one consumer on a ring of `n` slots
with cached indexes. -/
def system (S : SizeT) (n : ℕ) (calls : OnFail → Bool) (T : Type u) :
    Lts (State T) (Side × Event T) :=
  Duo.lts (Pool.Moves (produce S n calls)) (Pool.Moves (consume S n calls))
    Queue.new .idle .idle

/-- `alpha::spsc`, with the calls `try_push`, `push`, `try_pop` and `pop`. -/
def alpha.system (S : SizeT) (n : ℕ) (T : Type u) :
    Lts (State T) (Side × Event T) :=
  Spsc.system S n (· ≠ .testAgain) T

/-- `StdAtomicSPSCQueue`, with the calls `push` and `pop`. -/
def StdAtomicSPSCQueue.system (S : SizeT) (n : ℕ) (T : Type u) :
    Lts (State T) (Side × Event T) :=
  Spsc.system S n (· = .testAgain) T

/-! ## The moves, case by case -/

/-- What the producer can do, one constructor for each step. -/
inductive PushMove (S : SizeT) (n : ℕ) (calls : OnFail → Bool)
    (q : Queue T) :
    Producer Pc T → Event T → Queue T → Producer Pc T → Prop
  | call {f : OnFail} (item : T) (hf : calls f) :
      PushMove S n calls q .idle (.call (f.pushOp item)) q
        (.push f item .load)
  | load {f : OnFail} {item : T} :
      PushMove S n calls q (.push f item .load) .inner q (.push f item (.test q.tail))
  | testFull {f : OnFail} {item : T} {t : ℕ} (h : full S n t q.cachedHead) :
      PushMove S n calls q (.push f item (.test t)) .inner q
        (.push f item (.refresh t))
  | testRoom {f : OnFail} {item : T} {t : ℕ} (h : ¬full S n t q.cachedHead) :
      PushMove S n calls q (.push f item (.test t)) .inner q (.push f item (.enter t))
  | refresh {f : OnFail} {item : T} {t : ℕ} :
      PushMove S n calls q (.push f item (.refresh t)) .inner q.refreshHead
        (.push f item (.retest t))
  | retestFull {f : OnFail} {item : T} {t : ℕ} (h : full S n t q.cachedHead) :
      PushMove S n calls q (.push f item (.retest t)) .inner q (afterFull f item t)
  | retestRoom {f : OnFail} {item : T} {t : ℕ} (h : ¬full S n t q.cachedHead) :
      PushMove S n calls q (.push f item (.retest t)) .inner q
        (.push f item (.enter t))
  | enter {f : OnFail} {item : T} {t : ℕ} :
      PushMove S n calls q (.push f item (.enter t)) .inner
        (q.setChannel (q.setSlot (t % n) none)) (.push f item (.inSlot t))
  | inSlot {f : OnFail} {item : T} {t : ℕ} :
      PushMove S n calls q (.push f item (.inSlot t)) .inner
        (q.setChannel (q.setSlot (t % n) (some item))) (.push f item (.store t))
  | store {f : OnFail} {item : T} {t : ℕ} :
      PushMove S n calls q (.push f item (.store t))
        (.store (S.add t 1) (some item))
        (q.setChannel (q.setTail (S.add t 1))) (.done true)
  | ret {b : Bool} : PushMove S n calls q (.done b) (.ret (.pushed b)) q .idle

/-- What the consumer can do. -/
inductive PopMove (S : SizeT) (n : ℕ) (calls : OnFail → Bool)
    (q : Queue T) :
    Consumer Pc T → Event T → Queue T → Consumer Pc T → Prop
  | call {f : OnFail} (hf : calls f) :
      PopMove S n calls q .idle (.call f.popOp) q (.pop f none .load)
  | load {f : OnFail} {item : Option T} :
      PopMove S n calls q (.pop f item .load) .inner q (.pop f item (.test q.head))
  | testEmpty {f : OnFail} {item : Option T} {h : ℕ}
      (he : empty q.cachedTail h) :
      PopMove S n calls q (.pop f item (.test h)) .inner q (.pop f item (.refresh h))
  | testItem {f : OnFail} {item : Option T} {h : ℕ}
      (he : ¬empty q.cachedTail h) :
      PopMove S n calls q (.pop f item (.test h)) .inner q (.pop f item (.enter h))
  | refresh {f : OnFail} {item : Option T} {h : ℕ} :
      PopMove S n calls q (.pop f item (.refresh h)) .inner q.refreshTail
        (.pop f item (.retest h))
  | retestEmpty {f : OnFail} {item : Option T} {h : ℕ}
      (he : empty q.cachedTail h) :
      PopMove S n calls q (.pop f item (.retest h)) .inner q (afterEmpty f item h)
  | retestItem {f : OnFail} {item : Option T} {h : ℕ}
      (he : ¬empty q.cachedTail h) :
      PopMove S n calls q (.pop f item (.retest h)) .inner q (.pop f item (.enter h))
  | enter {f : OnFail} {item : Option T} {h : ℕ} :
      PopMove S n calls q (.pop f item (.enter h)) .inner q (.pop f item (.inSlot h))
  | inSlot {f : OnFail} {item : Option T} {h : ℕ} :
      PopMove S n calls q (.pop f item (.inSlot h)) .inner q
        (.pop f (q.data (h % n)) (.store h))
  | store {f : OnFail} {item : Option T} {h : ℕ} :
      PopMove S n calls q (.pop f item (.store h)) (.store (S.add h 1) item)
        (q.setChannel (q.setHead (S.add h 1))) (.done item)
  | ret {item : Option T} :
      PopMove S n calls q (.done item) (.ret (.popped item)) q .idle

section Cases

variable {S : SizeT} {n : ℕ} {calls : OnFail → Bool} {q q' : Queue T}
  {e : Event T}

theorem pushMove_of_step {f : OnFail} {item : T} {pc : Pc}
    {p' : Producer Pc T} (h : pushStep S n q f item pc = (e, q', p')) :
    PushMove S n calls q (.push f item pc) e q' p' := by
  revert h
  fun_cases pushStep S n q f item pc <;> intro h <;> cases h
  case case1 => exact .load
  case case2 t ht => exact .testFull ht
  case case3 t ht => exact .testRoom ht
  case case4 t => exact .refresh
  case case5 t ht => exact .retestFull ht
  case case6 t ht => exact .retestRoom ht
  case case7 t => exact .enter
  case case8 t => exact .inSlot
  case case9 t => exact .store

theorem popMove_of_step {f : OnFail} {item : Option T} {pc : Pc}
    {c' : Consumer Pc T} (h : popStep S n q f item pc = (e, q', c')) :
    PopMove S n calls q (.pop f item pc) e q' c' := by
  revert h
  fun_cases popStep S n q f item pc <;> intro h <;> cases h
  case case1 => exact .load
  case case2 t ht => exact .testEmpty ht
  case case3 t ht => exact .testItem ht
  case case4 t => exact .refresh
  case case5 t ht => exact .retestEmpty ht
  case case6 t ht => exact .retestItem ht
  case case7 t => exact .enter
  case case8 t => exact .inSlot
  case case9 t => exact .store

/-- The case analysis is exactly the executable move. -/
theorem pushMoves_iff {p p' : Producer Pc T} :
    Pool.Moves (produce S n calls) q p e q' p' ↔
      PushMove S n calls q p e q' p' := by
  constructor
  · rintro ⟨c, h⟩
    revert h
    fun_cases produce S n calls q p c <;> intro h
    case case1 f item hf => cases h; exact .call item hf
    case case3 | case4 | case5 => exact pushMove_of_step (Option.some.inj h)
    case case6 b => cases h; exact .ret
    all_goals cases h
  · have hstep : ∀ {f : OnFail} {item : T} {pc : Pc} {e q' p'},
        pushStep S n q f item pc = (e, q', p') →
          Pool.Moves (produce S n calls) q (.push f item pc) e q' p' := by
      intro f item pc e q' p' h
      exact ⟨none, by cases f <;> exact congrArg some h⟩
    intro h
    cases h with
    | call item hf => exact ⟨some (_, item), if_pos hf⟩
    | testFull h | testRoom h | retestFull h | retestRoom h =>
        exact hstep (by simp [pushStep, h])
    | load | refresh | enter | inSlot | store => exact hstep rfl
    | ret => exact ⟨none, rfl⟩

theorem popMoves_iff {c c' : Consumer Pc T} :
    Pool.Moves (consume S n calls) q c e q' c' ↔
      PopMove S n calls q c e q' c' := by
  constructor
  · rintro ⟨k, h⟩
    revert h
    fun_cases consume S n calls q c k <;> intro h
    case case1 f hf => cases h; exact .call hf
    case case3 | case4 | case5 => exact popMove_of_step (Option.some.inj h)
    case case6 b => cases h; exact .ret
    all_goals cases h
  · have hstep : ∀ {f : OnFail} {item : Option T} {pc : Pc} {e q' c'},
        popStep S n q f item pc = (e, q', c') →
          Pool.Moves (consume S n calls) q (.pop f item pc) e q' c' := by
      intro f item pc e q' c' h
      exact ⟨none, by cases f <;> exact congrArg some h⟩
    intro h
    cases h with
    | call hf => exact ⟨some _, if_pos hf⟩
    | testEmpty h | testItem h | retestEmpty h | retestItem h =>
        exact hstep (by simp [popStep, h])
    | load | refresh | enter | inSlot | store => exact hstep rfl
    | ret => exact ⟨none, rfl⟩

end Cases

end Spsc
end ConcurrentQueues
