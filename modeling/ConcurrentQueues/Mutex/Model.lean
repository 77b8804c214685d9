import ConcurrentQueues.Core.RingBuffer
import ConcurrentQueues.Support.Monitor
import ConcurrentQueues.Support.Object

/-!
# The queues under a mutex

Each queue is a container under one mutex with one or two condition variables.
`MutexRingBufferQueue` and `MutexBoostRingBufferQueue` are bounded: a push waits
on `not_full` and a pop notifies it.  `MutexDequeQueue` and `MutexListQueue` are
never full and have `not_empty` only.
-/

namespace ConcurrentQueues

universe u v

open Fifo

/-- The condition variables of a queue. -/
inductive Cond
  | notEmpty
  | notFull
  deriving DecidableEq

namespace Mutex

/-! ## The critical sections -/

/-- What the critical sections of a queue do with its data. -/
structure Container (B : Type v) (T : Type u) where
  full : B → Bool
  empty : B → Bool
  append : B → T → B
  /-- the item copied out, and the data without it -/
  remove : B → Option T × B

variable {B : Type v} {T : Type u}

/-- The section of a push. -/
def appendItem (k : Container B T) (item : T) (b : B) : Res T × B :=
  (.pushed true, k.append b item)

/-- The section of a pop. -/
def removeItem (k : Container B T) (b : B) : Res T × B :=
  (.popped (k.remove b).1, (k.remove b).2)

/-- A push that waits for room. -/
def waitingPush (k : Container B T) (item : T) : Critical B Cond (Res T) where
  guard := .waits .notFull fun b => !k.full b
  body := appendItem k item
  notifies := some .notEmpty

/-- A push that gives up on a full queue. -/
def failingPush (k : Container B T) (item : T) : Critical B Cond (Res T) where
  guard := .fails (.pushed false) fun b => !k.full b
  body := appendItem k item
  notifies := some .notEmpty

/-- A push to a queue that is never full. -/
def freePush (k : Container B T) (item : T) : Critical B Cond (Res T) where
  guard := .always
  body := appendItem k item
  notifies := some .notEmpty

/-- A pop that waits for an item. -/
def waitingPop (k : Container B T) (notifies : Option Cond) :
    Critical B Cond (Res T) where
  guard := .waits .notEmpty fun b => !k.empty b
  body := removeItem k
  notifies := notifies

/-- A pop that gives up on an empty queue. -/
def failingPop (k : Container B T) (notifies : Option Cond) :
    Critical B Cond (Res T) where
  guard := .fails (.popped none) fun b => !k.empty b
  body := removeItem k
  notifies := notifies

/-- The four calls of a queue. -/
def calls (push tryPush : T → Critical B Cond (Res T))
    (pop tryPop : Critical B Cond (Res T)) : Op T → Critical B Cond (Res T)
  | .push item => push item
  | .tryPush item => tryPush item
  | .pop => pop
  | .tryPop => tryPop

end Mutex

/-! ## `MutexRingBufferQueue` -/

structure MutexRingBufferQueue (T : Type u) where
  buffer : RingBuffer T
  maxSize : ℕ

namespace MutexRingBufferQueue

variable {T : Type u}

def new [Inhabited T] (capacity : ℕ) : MutexRingBufferQueue T :=
  ⟨RingBuffer.new capacity, 0⟩

/-- `push_back`, and the greatest size so far. -/
def append (q : MutexRingBufferQueue T) (item : T) : MutexRingBufferQueue T where
  buffer := q.buffer.pushBack item
  maxSize := max q.maxSize (q.buffer.pushBack item).size

/-- `item = buffer_.front(); buffer_.pop_front();` -/
def remove (q : MutexRingBufferQueue T) : Option T × MutexRingBufferQueue T :=
  (q.buffer.front, { q with buffer := q.buffer.popFront })

def container (T : Type u) : Mutex.Container (MutexRingBufferQueue T) T where
  full q := q.buffer.full
  empty q := q.buffer.empty
  append := append
  remove := remove

def push (item : T) := Mutex.waitingPush (container T) item

def tryPush (item : T) := Mutex.failingPush (container T) item

def pop (T : Type u) := Mutex.waitingPop (container T) (some .notFull)

def tryPop (T : Type u) := Mutex.failingPop (container T) (some .notFull)

def monitor (T : Type u) [Inhabited T] (capacity : ℕ) :
    Monitor (Op T) (MutexRingBufferQueue T) Cond (Res T) where
  init := new capacity
  code := Mutex.calls push tryPush (pop T) (tryPop T)

end MutexRingBufferQueue

/-! ## `MutexBoostRingBufferQueue` -/

/-- `boost::circular_buffer<T>`: what the queue uses of it and may rely on.  The
contents are listed from the front, `c[i]` is the `i`-th of them, and on a full
buffer `push_front` drops the last one. -/
structure CircularBuffer (T : Type u) (C : Type v) where
  new : ℕ → C
  capacity : C → ℕ
  items : C → List T
  pushFront : C → T → C
  capacity_new : ∀ n, capacity (new n) = n
  items_new : ∀ n, items (new n) = []
  capacity_pushFront : ∀ c item, capacity (pushFront c item) = capacity c
  items_pushFront : ∀ c item,
    items (pushFront c item) = (item :: items c).take (capacity c)

/-- The contents and the capacity, and nothing else. -/
def CircularBuffer.ofList (T : Type u) : CircularBuffer T (List T × ℕ) where
  new n := ([], n)
  capacity c := c.2
  items c := c.1
  pushFront c item := ((item :: c.1).take c.2, c.2)
  capacity_new _ := rfl
  items_new _ := rfl
  capacity_pushFront _ _ := rfl
  items_pushFront _ _ := rfl

structure MutexBoostRingBufferQueue (C : Type v) where
  unread : ℕ
  container : C

namespace MutexBoostRingBufferQueue

variable {T : Type u} {C : Type v} (cb : CircularBuffer T C)

def new (capacity : ℕ) : MutexBoostRingBufferQueue C :=
  ⟨0, cb.new capacity⟩

def isNotEmpty (q : MutexBoostRingBufferQueue C) : Bool :=
  decide (0 < q.unread)

def isNotFull (q : MutexBoostRingBufferQueue C) : Bool :=
  decide (q.unread < cb.capacity q.container)

/-- `m_container.push_front(item); ++m_unread;` -/
def append (q : MutexBoostRingBufferQueue C) (item : T) :
    MutexBoostRingBufferQueue C where
  unread := q.unread + 1
  container := cb.pushFront q.container item

/-- `item = m_container[--m_unread];` -/
def remove (q : MutexBoostRingBufferQueue C) :
    Option T × MutexBoostRingBufferQueue C :=
  ((cb.items q.container)[q.unread - 1]?, { q with unread := q.unread - 1 })

def operations : Mutex.Container (MutexBoostRingBufferQueue C) T where
  full q := !q.isNotFull cb
  empty q := !q.isNotEmpty
  append q item := q.append cb item
  remove q := q.remove cb

def push (item : T) := Mutex.waitingPush (operations cb) item

def tryPush (item : T) := Mutex.failingPush (operations cb) item

def pop := Mutex.waitingPop (operations cb) (some .notFull)

def tryPop := Mutex.failingPop (operations cb) (some .notFull)

def monitor (capacity : ℕ) :
    Monitor (Op T) (MutexBoostRingBufferQueue C) Cond (Res T) where
  init := new cb capacity
  code := Mutex.calls (push cb) (tryPush cb) (pop cb) (tryPop cb)

end MutexBoostRingBufferQueue

/-! ## `MutexDequeQueue` and `MutexListQueue` -/

/-- `emplace_back`, `front` and `pop_front` of `std::deque` and `std::list`. -/
def Mutex.sequence (T : Type u) : Mutex.Container (List T) T where
  full _ := false
  empty b := b.isEmpty
  append b item := b ++ [item]
  remove b := (b.head?, b.tail)

namespace MutexDequeQueue

variable {T : Type u}

def push (item : T) := Mutex.freePush (Mutex.sequence T) item

def tryPush (item : T) := Mutex.freePush (Mutex.sequence T) item

def pop (T : Type u) := Mutex.waitingPop (Mutex.sequence T) none

def tryPop (T : Type u) := Mutex.failingPop (Mutex.sequence T) none

/-- The queue over a `std::deque`. -/
def monitor (T : Type u) : Monitor (Op T) (List T) Cond (Res T) where
  init := []
  code := Mutex.calls push tryPush (pop T) (tryPop T)

end MutexDequeQueue

namespace MutexListQueue

variable {T : Type u}

def push (item : T) := Mutex.freePush (Mutex.sequence T) item

def tryPush (item : T) := Mutex.freePush (Mutex.sequence T) item

def pop (T : Type u) := Mutex.waitingPop (Mutex.sequence T) none

def tryPop (T : Type u) := Mutex.failingPop (Mutex.sequence T) none

/-- The queue over a `std::list`. -/
def monitor (T : Type u) : Monitor (Op T) (List T) Cond (Res T) where
  init := []
  code := Mutex.calls push tryPush (pop T) (tryPop T)

end MutexListQueue

end ConcurrentQueues
