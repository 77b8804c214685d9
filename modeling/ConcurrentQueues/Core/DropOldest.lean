import ConcurrentQueues.Core.RingBuffer
import ConcurrentQueues.Support.Lts
import ConcurrentQueues.Support.Ring
import Mathlib.Data.List.DropRight
import Mathlib.Data.List.Rotate

/-!
# A ring buffer is a list that drops its oldest items

The unread items of a ring are read from `head_` on, `size_` of them, around the
end of the vector.  An append writes the slot after the last of them.  On a full
ring this is the slot of the oldest item, and `head_` moves on past it.
-/

namespace ConcurrentQueues
namespace RingBuffer

universe u

variable {T : Type u}

/-! ## The items of a ring -/

/-- The items from `head_` on, oldest first. -/
def items (r : RingBuffer T) : List T :=
  (r.buffer.rotate r.head).take r.size

@[simp] theorem items_length (r : RingBuffer T) :
    r.items.length = r.size := by
  rw [items, List.length_take, List.length_rotate]
  exact Nat.min_eq_left r.size_le

/-- The `i`-th item stands `i` slots after `head_`. -/
theorem items_getElem? {r : RingBuffer T} {i : ℕ} (hi : i < r.size) :
    r.items[i]? = r.buffer[(r.head + i) % r.capacity]? := by
  have hle := r.size_le
  rw [items, List.getElem?_take_of_lt hi, List.getElem?_rotate (by omega),
    Nat.add_comm]
  rfl

/-- The items of a ring slot by slot. -/
theorem items_eq_iff {r : RingBuffer T} {l : List T} :
    r.items = l ↔ l.length = r.size ∧
      ∀ i < r.size, r.buffer[(r.head + i) % r.capacity]? = l[i]? := by
  constructor
  · rintro rfl
    exact ⟨items_length r, fun i hi => (items_getElem? hi).symm⟩
  · rintro ⟨hlen, hslot⟩
    apply List.ext_getElem?
    intro i
    by_cases hi : i < r.size
    · rw [items_getElem? hi, hslot i hi]
    · rw [List.getElem?_eq_none, List.getElem?_eq_none]
      · omega
      · rw [items_length]
        omega

/-- A ring of the given capacity whose indexes enclose the items `l`. -/
structure Holds (r : RingBuffer T) (c : ℕ) (l : List T) : Prop where
  capacity_eq : r.capacity = c
  head_lt : 0 < c → r.head < c
  tail_eq : r.tail = (r.head + r.size) % c
  items_eq : r.items = l

namespace Holds

variable {r : RingBuffer T} {c : ℕ} {l : List T}

theorem length_eq (h : r.Holds c l) : l.length = r.size := by
  rw [← h.items_eq, items_length]

theorem size_le (h : r.Holds c l) : r.size ≤ c := by
  rw [← h.capacity_eq]
  exact RingBuffer.size_le r

theorem tail_lt (h : r.Holds c l) (hc : 0 < c) : r.tail < c := by
  rw [h.tail_eq]
  exact Nat.mod_lt _ hc

theorem getElem?_eq (h : r.Holds c l) {i : ℕ} (hi : i < l.length) :
    l[i]? = r.buffer[(r.head + i) % c]? := by
  rw [h.length_eq] at hi
  rw [← h.items_eq, items_getElem? hi, h.capacity_eq]

theorem empty_iff (h : r.Holds c l) : r.empty = true ↔ l = [] := by
  rw [empty, beq_iff_eq, ← h.length_eq, List.length_eq_zero_iff]

theorem full_iff (h : r.Holds c l) : r.full = true ↔ l.length = c := by
  rw [full, beq_iff_eq, h.capacity_eq, h.length_eq]

/-- The item at `head_` is the first one. -/
theorem front_eq (h : r.Holds c l) (hl : l ≠ []) : r.front = l.head? := by
  have hpos : 0 < l.length := List.length_pos_iff.mpr hl
  have hc : 0 < c := hpos.trans_le (h.length_eq.le.trans h.size_le)
  rw [front, List.head?_eq_getElem?, h.getElem?_eq hpos, Nat.add_zero,
    Nat.mod_eq_of_lt (h.head_lt hc)]

/-- The slot before `tail_` is the slot of the last item. -/
theorem backIndex_eq (h : r.Holds c l) (hl : l ≠ []) :
    r.backIndex = (r.head + (l.length - 1)) % c := by
  have hpos : 0 < l.length := List.length_pos_iff.mpr hl
  have hlen := h.length_eq
  have hc : 0 < c := hpos.trans_le (hlen.le.trans h.size_le)
  have hlast : r.head + r.size = r.head + (l.length - 1) + 1 := by omega
  rw [backIndex, h.capacity_eq, h.tail_eq, hlast]
  exact Ring.slot_back hc _

theorem back_eq (h : r.Holds c l) (hl : l ≠ []) : r.back = l.getLast? := by
  have hpos : 0 < l.length := List.length_pos_iff.mpr hl
  rw [back, List.getLast?_eq_getElem?, h.getElem?_eq (by omega),
    h.backIndex_eq hl]

/-! ## The operations -/

theorem new [Inhabited T] (c : ℕ) : (RingBuffer.new c : RingBuffer T).Holds c [] where
  capacity_eq := by simp [RingBuffer.new, capacity]
  head_lt := id
  tail_eq := by simp [RingBuffer.new]
  items_eq := by simp [RingBuffer.new, items]

/-- The oldest item leaves. -/
theorem popFront (h : r.Holds c l) (hl : l ≠ []) :
    r.popFront.Holds c l.tail := by
  have hpos : 0 < l.length := List.length_pos_iff.mpr hl
  have hlen := h.length_eq
  have hc : 0 < c := hpos.trans_le (hlen.le.trans h.size_le)
  refine ⟨h.capacity_eq, fun _ => ?_, ?_, ?_⟩
  · simp only [RingBuffer.popFront, h.capacity_eq]
    exact Nat.mod_lt _ hc
  · simp only [RingBuffer.popFront, h.capacity_eq, Nat.mod_add_mod]
    rw [h.tail_eq]
    congr 1
    omega
  · rw [items_eq_iff]
    constructor
    · rw [List.length_tail, hlen, popFront_size]
    · intro i hi
      rw [popFront_size] at hi
      rw [List.getElem?_tail, h.getElem?_eq (by omega), popFront_capacity,
        h.capacity_eq]
      simp only [RingBuffer.popFront, h.capacity_eq, Nat.mod_add_mod]
      congr 2
      omega

/-- The slots after the new item was written at `tail_`. -/
theorem append_getElem? (h : r.Holds c l) (item : T) {j : ℕ}
    (hj : j ≤ r.size) (hlap : r.size < j + c) :
    (r.buffer.set r.tail item)[(r.head + j) % c]? = (l ++ [item])[j]? := by
  have hlen := h.length_eq
  rcases Nat.lt_or_eq_of_le hj with hlt | rfl
  · have hne : r.tail ≠ (r.head + j) % c := by
      rw [h.tail_eq]
      intro heq
      have := Ring.eq_of_slot_eq heq (by omega) (by omega)
      omega
    rw [List.getElem?_set_ne hne, List.getElem?_append_left (by omega),
      h.getElem?_eq (by omega)]
  · have htail : r.tail < r.buffer.length :=
      (h.tail_lt (by omega)).trans_eq h.capacity_eq.symm
    rw [← h.tail_eq, List.getElem?_set_self htail, ← hlen,
      List.getElem?_concat_length]

/-- `head_` moves on past the item that an append to a full ring drops. -/
theorem pushBack_head (h : r.Holds c l) (hc : 0 < c) (item : T) :
    (r.pushBack item).head = (r.head + (r.size + 1 - c)) % c := by
  have hle := h.size_le
  by_cases hfull : r.full = true
  · have hsize := (h.full_iff.mp hfull).symm.trans h.length_eq
    simp only [RingBuffer.pushBack, hfull, if_true, h.capacity_eq]
    congr 2
    omega
  · have hsize : r.size < c := (size_lt (Bool.eq_false_of_not_eq_true hfull)).trans_eq
      h.capacity_eq
    have hzero : r.size + 1 - c = 0 := by omega
    rw [hzero, Nat.add_zero, Nat.mod_eq_of_lt (h.head_lt hc)]
    simp [RingBuffer.pushBack, hfull]

theorem pushBack_size (h : r.Holds c l) (item : T) :
    (r.pushBack item).size = r.size + 1 - (r.size + 1 - c) := by
  have hle := h.size_le
  by_cases hfull : r.full = true
  · have hsize := (h.full_iff.mp hfull).symm.trans h.length_eq
    simp only [RingBuffer.pushBack, hfull, if_true]
    omega
  · have hroom := Bool.eq_false_of_not_eq_true hfull
    have hsize := (size_lt hroom).trans_eq h.capacity_eq
    rw [RingBuffer.pushBack_size hroom]
    omega

/-- The new item comes last, and of a full ring the first one is dropped. -/
theorem pushBack (h : r.Holds c l) (hc : 0 < c) (item : T) :
    (r.pushBack item).Holds c ((l ++ [item]).rtake c) := by
  have hle := h.size_le
  have hlen := h.length_eq
  have hsize := h.pushBack_size item
  refine ⟨?_, fun _ => ?_, ?_, ?_⟩
  · rw [pushBack_capacity, h.capacity_eq]
  · rw [h.pushBack_head hc]
    exact Nat.mod_lt _ hc
  · rw [h.pushBack_head hc, hsize, Nat.mod_add_mod]
    simp only [RingBuffer.pushBack, h.capacity_eq]
    rw [h.tail_eq, Nat.mod_add_mod]
    congr 1
    omega
  · rw [items_eq_iff, hsize]
    constructor
    · simp only [List.rtake, List.length_drop, List.length_append,
        List.length_singleton]
      omega
    · intro i hi
      rw [h.pushBack_head hc, pushBack_capacity, h.capacity_eq,
        Nat.mod_add_mod, Nat.add_assoc]
      simp only [RingBuffer.pushBack]
      rw [h.append_getElem? item (by omega) (by omega), List.rtake,
        List.getElem?_drop, List.length_append, List.length_singleton, hlen]

end Holds

/-! ## Sequences of operations -/

inductive Op (T : Type u)
  | pushBack (item : T)
  | popFront

/-- The operations on the list of items. -/
def Op.onList (c : ℕ) (l : List T) : Op T → List T
  | pushBack item => (l ++ [item]).rtake c
  | popFront => l.tail

/-- `push_back` at any time, `pop_front` on a ring with an item. -/
inductive Step : RingBuffer T → Op T → RingBuffer T → Prop
  | pushBack (r : RingBuffer T) (item : T) :
      Step r (.pushBack item) (r.pushBack item)
  | popFront {r : RingBuffer T} (h : r.empty = false) :
      Step r .popFront r.popFront

/-- The ring under the operations of its clients. -/
def system (T : Type u) [Inhabited T] (c : ℕ) : Lts (RingBuffer T) (Op T) where
  init := new c
  step := Step

theorem Holds.step {r r' : RingBuffer T} {c : ℕ} {l : List T} {op : Op T}
    (h : r.Holds c l) (hc : 0 < c) (hstep : Step r op r') :
    r'.Holds c (op.onList c l) := by
  cases hstep with
  | pushBack item => exact h.pushBack hc item
  | popFront hitem =>
      apply h.popFront
      intro hnil
      simp [h.empty_iff.mpr hnil] at hitem

theorem holds_of_run [Inhabited T] {c : ℕ} (hc : 0 < c) {ops : List (Op T)}
    {r : RingBuffer T} (hrun : (system T c).Run ops r) :
    r.Holds c (ops.foldl (Op.onList c) []) := by
  refine Lts.Run.induction
    (P := fun ops r => r.Holds c (ops.foldl (Op.onList c) [])) ?_ ?_ hrun
  · exact Holds.new c
  · intro ops r op r' _ h hstep
    rw [List.foldl_append]
    exact h.step hc hstep

/-- What its clients find in a ring with the items `l`: all indexes stay inside
the vector, and the count follows the list. -/
structure Shows (r : RingBuffer T) (c : ℕ) (l : List T) : Prop where
  length_eq : r.buffer.length = c
  head_lt : r.head < c
  tail_lt : r.tail < c
  backIndex_lt : r.backIndex < c
  tail_eq : r.tail = (r.head + r.size) % c
  size_le : r.size ≤ c
  size_eq : r.size = l.length
  slot_eq : ∀ i < r.size, r.buffer[(r.head + i) % c]? = l[i]?
  front_eq : l ≠ [] → r.front = l.head?
  back_eq : l ≠ [] → r.back = l.getLast?
  empty_iff : r.empty = true ↔ l = []
  full_iff : r.full = true ↔ l.length = c
  popFront_size : r.empty = false → r.popFront.size + 1 = r.size

theorem Holds.shows {r : RingBuffer T} {c : ℕ} {l : List T} (h : r.Holds c l)
    (hc : 0 < c) : r.Shows c l where
  length_eq := h.capacity_eq
  head_lt := h.head_lt hc
  tail_lt := h.tail_lt hc
  backIndex_lt := by
    have htail := h.tail_lt hc
    rw [backIndex, h.capacity_eq]
    split
    · omega
    · omega
  tail_eq := h.tail_eq
  size_le := h.size_le
  size_eq := h.length_eq.symm
  slot_eq := fun i hi => (h.getElem?_eq (hi.trans_eq h.length_eq.symm)).symm
  front_eq := h.front_eq
  back_eq := h.back_eq
  empty_iff := h.empty_iff
  full_iff := h.full_iff
  popFront_size := by
    intro hitem
    simp only [empty, beq_eq_false_iff_ne] at hitem
    rw [RingBuffer.popFront_size]
    omega

/-- After any operations, appends to a full ring among them, the ring shows the
list that drops its oldest items. -/
theorem ring_drops_oldest [Inhabited T] {c : ℕ} (hc : 0 < c)
    {ops : List (Op T)} {r : RingBuffer T} (hrun : (system T c).Run ops r) :
    r.Shows c (ops.foldl (Op.onList c) []) :=
  (holds_of_run hc hrun).shows hc

/-- The third append to a ring of two drops the first item. -/
theorem ring_drops_oldest_third :
    ∃ r, (system ℕ 2).Run
        [.pushBack 5, .pushBack 6, .pushBack 7, .popFront] r ∧
      r.Shows 2 [7] := by
  have hinit : (system ℕ 2).Run [] _ := Lts.Run.init
  have hrun := (((hinit.tail (.pushBack _ 5)).tail (.pushBack _ 6)).tail
    (.pushBack _ 7)).tail (.popFront rfl)
  exact ⟨_, hrun, ring_drops_oldest (by decide) hrun⟩

end RingBuffer
end ConcurrentQueues
