import Mathlib.Data.List.Basic

/-!
# `RingBuffer`

The ring over a `std::vector` under `MutexRingBufferQueue`.  An append to a full
ring overwrites its oldest item.
-/

namespace ConcurrentQueues

universe u

/-- A ring that never counts more items than it has room for. -/
structure RingBuffer (T : Type u) where
  buffer : List T
  head : ℕ
  tail : ℕ
  size : ℕ
  size_le : size ≤ buffer.length

namespace RingBuffer

variable {T : Type u}

def new [Inhabited T] (capacity : ℕ) : RingBuffer T where
  buffer := List.replicate capacity default
  head := 0
  tail := 0
  size := 0
  size_le := Nat.zero_le _

def capacity (r : RingBuffer T) : ℕ :=
  r.buffer.length

def empty (r : RingBuffer T) : Bool :=
  r.size == 0

def full (r : RingBuffer T) : Bool :=
  r.size == r.capacity

/-- The item at `head_`; there is none outside the vector. -/
def front (r : RingBuffer T) : Option T :=
  r.buffer[r.head]?

/-- The slot before `tail_`. -/
def backIndex (r : RingBuffer T) : ℕ :=
  if r.tail = 0 then r.capacity - 1 else r.tail - 1

def back (r : RingBuffer T) : Option T :=
  r.buffer[r.backIndex]?

def pushBack (r : RingBuffer T) (item : T) : RingBuffer T where
  buffer := r.buffer.set r.tail item
  tail := (r.tail + 1) % r.capacity
  head := if r.full then (r.head + 1) % r.capacity else r.head
  size := if r.full then r.size else r.size + 1
  size_le := by
    have hle := r.size_le
    rw [List.length_set]
    split
    · exact hle
    · rename_i hfull
      simp only [full, capacity, beq_iff_eq] at hfull
      omega

def popFront (r : RingBuffer T) : RingBuffer T where
  buffer := r.buffer
  tail := r.tail
  head := (r.head + 1) % r.capacity
  size := r.size - 1
  size_le := Nat.le_trans (Nat.sub_le _ _) r.size_le

@[simp] theorem pushBack_capacity (r : RingBuffer T) (item : T) :
    (r.pushBack item).capacity = r.capacity := by
  simp [capacity, pushBack]

theorem pushBack_size {r : RingBuffer T} (h : r.full = false) (item : T) :
    (r.pushBack item).size = r.size + 1 := by
  simp [pushBack, h]

@[simp] theorem popFront_capacity (r : RingBuffer T) :
    r.popFront.capacity = r.capacity := rfl

@[simp] theorem popFront_size (r : RingBuffer T) :
    r.popFront.size = r.size - 1 := rfl

/-- There is room for an item unless the ring is full. -/
theorem size_lt {r : RingBuffer T} (h : r.full = false) :
    r.size < r.capacity := by
  have hle := r.size_le
  simp only [full, beq_eq_false_iff_ne] at h
  exact Nat.lt_of_le_of_ne hle h

end RingBuffer
end ConcurrentQueues
