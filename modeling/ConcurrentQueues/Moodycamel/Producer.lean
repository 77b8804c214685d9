import ConcurrentQueues.Core.Memory
import ConcurrentQueues.Support.Views
import ConcurrentQueues.Support.Bulk

/-!
# The elements of one producer

`moodycamel::ConcurrentQueue` keeps the elements of each producer apart.  The
producer constructs elements behind `tailIndex` and publishes them by a store of
it.  Any thread may take elements out: it first counts itself in
`dequeueOptimisticCount`, corrected by `dequeueOvercommit`, and only if that
count is within the published elements does it claim indexes from `headIndex`.

The explicit and the implicit producer run the same program on these counters,
for one element or for several.  An element lies in a place of its own here.
How the places are gathered in blocks matters only in that an enqueue that needs
a new block may fail.  The counters are words of `w` bits.
-/

namespace ConcurrentQueues

universe u v

namespace Moodycamel

open Bulk

/-! ## Words -/

/-- `details::circular_less_than` -/
def circularLessThan (w a b : ℕ) : Bool :=
  2 ^ (w - 1) < (SizeT.bits w).sub a b

/-- The index at which the block of `index` starts,
`index & ~(BLOCK_SIZE - 1)`. -/
def blockBase (BLOCK_SIZE index : ℕ) : ℕ :=
  index / BLOCK_SIZE * BLOCK_SIZE

/-- How far the start of the block of the last new element lies behind that of
the last old one. -/
def blockBaseDiff (w BLOCK_SIZE startTailIndex count : ℕ) : ℕ :=
  let S := SizeT.bits w
  S.sub (blockBase BLOCK_SIZE (S.sub (S.add startTailIndex count) 1))
    (blockBase BLOCK_SIZE (S.sub startTailIndex 1))

/-- The test before `dequeueOptimisticCount` is incremented, with the number of
elements to ask for. -/
def desiredCount (w max tail overcommit optimistic : ℕ) : Option ℕ :=
  let S := SizeT.bits w
  let desired := S.sub tail (S.sub optimistic overcommit)
  if circularLessThan w 0 desired then some (min desired max) else none

/-- The test after it, with the number of elements that are there. -/
def actualCount (w desired tail overcommit myDequeueCount : ℕ) : ℕ :=
  let S := SizeT.bits w
  let actual := S.sub tail (S.sub myDequeueCount overcommit)
  if circularLessThan w 0 actual then min desired actual else 0

section Words

variable {w : ℕ}

theorem sub_lt (w a b : ℕ) : (SizeT.bits w).sub a b < 2 ^ w :=
  Nat.mod_lt _ (Nat.two_pow_pos w)

theorem circularLessThan_zero (hw : 0 < w) {d : ℕ} (hd : d < 2 ^ w) :
    circularLessThan w 0 d ↔ 0 < d ∧ d < 2 ^ (w - 1) := by
  obtain ⟨w, rfl⟩ := Nat.exists_eq_succ_of_ne_zero hw.ne'
  have hpow : 2 ^ (w + 1) = 2 * 2 ^ w := Nat.pow_succ'
  simp only [circularLessThan, decide_eq_true_eq, SizeT.sub, Nat.zero_add,
    Nat.succ_eq_add_one, Nat.add_sub_cancel]
  rcases Nat.eq_zero_or_pos d with rfl | hpos
  · rw [Nat.sub_zero, Nat.mod_self]
    omega
  · rw [Nat.mod_eq_of_lt (by omega)]
    omega

/-- The two ways in which the source writes the tests. -/
theorem circularLessThan_sub {a b : ℕ} (ha : a < 2 ^ w) (hb : b < 2 ^ w) :
    circularLessThan w 0 ((SizeT.bits w).sub b a) =
      circularLessThan w a b := by
  have hneg : (SizeT.bits w).sub 0 ((SizeT.bits w).sub b a) =
      (SizeT.bits w).sub a b := by
    simp only [SizeT.sub]
    rcases Nat.lt_trichotomy a b with hlt | rfl | hgt
    · rw [show b + 2 ^ w - a = b - a + 2 ^ w by omega, Nat.add_mod_right,
        Nat.mod_eq_of_lt (show b - a < 2 ^ w by omega),
        show 0 + 2 ^ w - (b - a) = a + 2 ^ w - b by omega]
    · rw [Nat.add_sub_cancel_left, Nat.mod_self, Nat.zero_add, Nat.sub_zero,
        Nat.mod_self]
    · rw [Nat.mod_eq_of_lt (show b + 2 ^ w - a < 2 ^ w by omega),
        show 0 + 2 ^ w - (b + 2 ^ w - a) = a - b by omega,
        show a + 2 ^ w - b = a - b + 2 ^ w by omega, Nat.add_mod_right]
  simp only [circularLessThan, hneg]

theorem desiredCount_pos (hw : 0 < w) {max tail overcommit optimistic n : ℕ}
    (hmax : 0 < max)
    (h : desiredCount w max tail overcommit optimistic = some n) :
    0 < n ∧ n ≤ max := by
  simp only [desiredCount] at h
  split_ifs at h with hless
  cases h
  have hpos := ((circularLessThan_zero hw (sub_lt ..)).mp hless).1
  exact ⟨lt_min hpos hmax, min_le_right _ _⟩

/-- Within half the range the second test compares the numbers themselves. -/
theorem actualCount_eq (hw : 0 < w) {desired tail overcommit myDequeueCount : ℕ}
    (hle : overcommit ≤ myDequeueCount) (hmy : myDequeueCount < 2 ^ (w - 1))
    (htail : tail < 2 ^ (w - 1)) :
    actualCount w desired tail overcommit myDequeueCount =
      min desired (tail + overcommit - myDequeueCount) := by
  have hpow : 2 ^ w = 2 * 2 ^ (w - 1) := by
    rw [← Nat.pow_succ', Nat.succ_eq_add_one, Nat.sub_add_cancel hw]
  have hsub : (SizeT.bits w).sub myDequeueCount overcommit =
      myDequeueCount - overcommit :=
    SizeT.sub_of_fits (SizeT.fits_bits.mpr (by omega)) hle
  have hless := circularLessThan_zero hw
    (sub_lt w tail (myDequeueCount - overcommit))
  simp only [actualCount, hsub, hless]
  by_cases h : myDequeueCount - overcommit ≤ tail
  · rw [SizeT.sub_of_fits (SizeT.fits_bits.mpr (by omega)) h]
    split_ifs <;> omega
  · have hbig : (SizeT.bits w).sub tail (myDequeueCount - overcommit) =
        tail + 2 ^ w - (myDequeueCount - overcommit) :=
      Nat.mod_eq_of_lt (by omega)
    rw [hbig, if_neg (by omega)]
    omega

/-- `dequeue` asks for one element if `dequeueOptimisticCount - overcommit` is
less than `tail`. -/
theorem desiredCount_one (hw : 0 < w) {tail overcommit optimistic : ℕ}
    (htail : tail < 2 ^ w) :
    desiredCount w 1 tail overcommit optimistic =
      if circularLessThan w ((SizeT.bits w).sub optimistic overcommit) tail
      then some 1 else none := by
  simp only [desiredCount, circularLessThan_sub (sub_lt ..) htail]
  split_ifs with hless
  · rw [← circularLessThan_sub (sub_lt ..) htail,
      circularLessThan_zero hw (sub_lt ..)] at hless
    exact congrArg some (min_eq_right hless.1)
  · rfl

/-- It takes the element if `myDequeueCount - overcommit` is less than
`tail`. -/
theorem actualCount_one (hw : 0 < w) {tail overcommit myDequeueCount : ℕ}
    (htail : tail < 2 ^ w) :
    actualCount w 1 tail overcommit myDequeueCount =
      if circularLessThan w ((SizeT.bits w).sub myDequeueCount overcommit)
        tail then 1 else 0 := by
  simp only [actualCount, circularLessThan_sub (sub_lt ..) htail]
  split_ifs with hless
  · rw [← circularLessThan_sub (sub_lt ..) htail,
      circularLessThan_zero hw (sub_lt ..)] at hless
    exact min_eq_left hless.1
  · rfl

theorem blockBase_succ (BLOCK_SIZE index : ℕ) :
    blockBase BLOCK_SIZE (index + 1) = blockBase BLOCK_SIZE index +
      if BLOCK_SIZE ∣ index + 1 then BLOCK_SIZE else 0 := by
  rw [blockBase, blockBase, Nat.succ_div, Nat.add_mul, ite_mul, Nat.one_mul,
    Nat.zero_mul]

theorem blockBase_le (BLOCK_SIZE index : ℕ) :
    blockBase BLOCK_SIZE index ≤ index :=
  Nat.div_mul_le_self index BLOCK_SIZE

/-- Only an enqueue one of whose elements begins a block needs one. -/
theorem needsBlock_of_blockBaseDiff {BLOCK_SIZE tail count : ℕ}
    (hlt : tail + count < 2 ^ w)
    (h : 0 < blockBaseDiff w BLOCK_SIZE tail count) :
    NeedsBlock BLOCK_SIZE tail count := by
  have hadd : (SizeT.bits w).add tail count = tail + count :=
    SizeT.add_of_fits (SizeT.fits_bits.mpr hlt)
  rw [blockBaseDiff, hadd] at h
  rcases Nat.eq_zero_or_pos count with rfl | hcount
  · simp [SizeT.sub] at h
  · rcases Nat.eq_zero_or_pos tail with rfl | htail
    · exact ⟨0, le_rfl, by omega, Nat.dvd_zero _⟩
    · -- the block of the last element starts behind the last old one
      have hle := blockBase_le BLOCK_SIZE (tail + count - 1)
      have hback : (SizeT.bits w).sub (tail + count) 1 = tail + count - 1 :=
        SizeT.sub_of_fits (SizeT.fits_bits.mpr hlt) (by omega)
      have hstart : (SizeT.bits w).sub tail 1 = tail - 1 :=
        SizeT.sub_of_fits (SizeT.fits_bits.mpr (by omega)) htail
      have hmono : blockBase BLOCK_SIZE (tail - 1) ≤
          blockBase BLOCK_SIZE (tail + count - 1) :=
        Nat.mul_le_mul_right _ (Nat.div_le_div_right (by omega))
      rw [hback, hstart, SizeT.sub_of_fits (SizeT.fits_bits.mpr (by omega))
        hmono] at h
      refine ⟨blockBase BLOCK_SIZE (tail + count - 1), ?_, by omega,
        Nat.dvd_mul_left _ _⟩
      by_contra hless
      have hpos : 0 < BLOCK_SIZE := by
        by_contra hzero
        simp [blockBase, show BLOCK_SIZE = 0 by omega] at h
      have hbelow : blockBase BLOCK_SIZE (tail + count - 1) ≤ tail - 1 := by
        omega
      have hsame : (tail + count - 1) / BLOCK_SIZE ≤ (tail - 1) / BLOCK_SIZE :=
        (Nat.le_div_iff_mul_le hpos).mpr hbelow
      have hbase : blockBase BLOCK_SIZE (tail + count - 1) ≤
          blockBase BLOCK_SIZE (tail - 1) :=
        Nat.mul_le_mul_right _ hsame
      omega

/-- `enqueue` needs a block if the low bits of `currentTailIndex` are zero. -/
theorem blockBaseDiff_one {BLOCK_SIZE tail : ℕ} (hpos : 0 < BLOCK_SIZE)
    (hlt : BLOCK_SIZE < 2 ^ w) (hdvd : BLOCK_SIZE ∣ 2 ^ w)
    (htail : tail < 2 ^ w) :
    0 < blockBaseDiff w BLOCK_SIZE tail 1 ↔ BLOCK_SIZE ∣ tail := by
  have hback : (SizeT.bits w).sub ((SizeT.bits w).add tail 1) 1 = tail := by
    simp only [SizeT.sub, SizeT.add, SizeT.ofNat_bits]
    rcases Nat.lt_or_ge (tail + 1) (2 ^ w) with h | h
    · rw [Nat.mod_eq_of_lt h, show tail + 1 + 2 ^ w - 1 = tail + 2 ^ w by omega,
        Nat.add_mod_right, Nat.mod_eq_of_lt htail]
    · rw [show tail + 1 = 2 ^ w by omega, Nat.mod_self, Nat.zero_add,
        Nat.mod_eq_of_lt (by omega)]
      omega
  simp only [blockBaseDiff, hback]
  cases tail with
  | zero =>
      -- before the first element the last block is that of the largest word
      obtain ⟨top, htop⟩ : ∃ top, 2 ^ w = top + 1 := ⟨2 ^ w - 1, by omega⟩
      have hback : (SizeT.bits w).sub 0 1 = top := by
        rw [SizeT.sub, htop, show 0 + (top + 1) - 1 = top by omega]
        exact Nat.mod_eq_of_lt (Nat.lt_succ_self top)
      have hbase := blockBase_succ BLOCK_SIZE top
      rw [if_pos (htop ▸ hdvd), ← htop, blockBase, Nat.div_mul_cancel hdvd]
        at hbase
      have hdiff : (SizeT.bits w).sub 0 (blockBase BLOCK_SIZE top) =
          BLOCK_SIZE := by
        rw [SizeT.sub, show 0 + 2 ^ w - blockBase BLOCK_SIZE top = BLOCK_SIZE by
          omega]
        exact Nat.mod_eq_of_lt hlt
      have hzero : blockBase BLOCK_SIZE 0 = 0 := by simp [blockBase]
      rw [hback, hzero, hdiff]
      exact iff_of_true hpos (Nat.dvd_zero _)
  | succ tail =>
      have hle := blockBase_le BLOCK_SIZE (tail + 1)
      have hbase := blockBase_succ BLOCK_SIZE tail
      rw [show (SizeT.bits w).sub (tail + 1) 1 = tail from
          SizeT.sub_of_fits (SizeT.fits_bits.mpr htail) (by omega),
        SizeT.sub_of_fits (SizeT.fits_bits.mpr (by omega)) (by omega)]
      split_ifs at hbase with h
      · exact iff_of_true (by omega) h
      · exact iff_of_false (by omega) h

end Words

/-! ## The counters -/

/-- The orders of the accesses that matter, and whether there is an acquire
fence before the increment of `dequeueOptimisticCount`. -/
structure Orders where
  tailStore : MemoryOrder
  tailLoad : MemoryOrder
  headFetch : MemoryOrder
  optimisticFetch : MemoryOrder
  overcommitFetch : MemoryOrder
  fence : Bool

/-- The orders in the source. -/
def ConcurrentQueue : Orders where
  tailStore := .release
  tailLoad := .acquire
  headFetch := .acqRel
  optimisticFetch := .relaxed
  overcommitFetch := .release
  fence := true

/-- The atomics of `ProducerBase`. -/
inductive Loc
  | tailIndex
  | headIndex
  | dequeueOptimisticCount
  | dequeueOvercommit
  deriving DecidableEq

/-- The counters, and the places of the elements by index. -/
abbrev Memory (ι : Type v) (T : Type u) := ViewMemory Loc ℕ ι (Option T)

variable {ι : Type v} {T : Type u}

def Memory.new : Memory ι T :=
  .init (fun _ => 0) fun _ => none

/-! ## Threads -/

/-- Where the producer stands in an enqueue. -/
inductive Enqueue (T : Type u)
  /-- before the load of `tailIndex` -/
  | load
  /-- before the new blocks are there -/
  | allocate (startTailIndex : ℕ)
  /-- before the construction of the rest, the next element at
  `currentTailIndex` -/
  | construct (currentTailIndex : ℕ) (rest : List T)
  deriving DecidableEq

/-- Where a thread stands in a dequeue, with the local variables it still
needs.  The loads so far count for the fence. -/
inductive Dequeue (T : Type u)
  /-- before the first load of `tailIndex` -/
  | load
  /-- before the load of `dequeueOvercommit` -/
  | overcommit (tail : ℕ) (heard : List (Loc × ℕ))
  /-- before the load of `dequeueOptimisticCount` -/
  | optimistic (tail overcommit : ℕ) (heard : List (Loc × ℕ))
  /-- before the fence -/
  | fence (overcommit desired : ℕ) (heard : List (Loc × ℕ))
  /-- before the increment of `dequeueOptimisticCount` -/
  | draw (overcommit desired : ℕ)
  /-- before the second load of `tailIndex` -/
  | reload (overcommit desired myDequeueCount : ℕ)
  /-- before the increment of `dequeueOvercommit` -/
  | refund (overcommit desired myDequeueCount tail actual : ℕ)
  /-- before the increment of `headIndex` -/
  | take (overcommit myDequeueCount tail actual : ℕ)
  /-- before the move out of the next element -/
  | read (firstIndex actual : ℕ) (got : List (Option T))
  deriving DecidableEq

/-- The local state of a thread. -/
inductive Thread (T : Type u)
  | idle
  | enqueue (items : List T) (pc : Enqueue T)
  | dequeue (max : ℕ) (pc : Dequeue T)
  | done (r : Res T)
  deriving DecidableEq

/-- What a step shows. -/
inductive Event (T : Type u)
  | call (op : Op T)
  | inner
  | publish (items : List T)
  | draw (n : ℕ)
  | take (n : ℕ)
  | ret (r : Res T)
  deriving DecidableEq

/-- The scheduler decides which call a thread makes, the memory which message a
load sees, the allocator whether there is a block. -/
inductive Choice (T : Type u)
  | call (op : Op T)
  | see (k : ℕ)
  | go
  | fail

/-! ## The operations -/

variable [DecidableEq ι]

/-- One step of `enqueue` or `enqueue_bulk`. -/
def enqueueBulk (V : Orders) (w BLOCK_SIZE : ℕ) (t : ι) (mem : Memory ι T)
    (items : List T) : Enqueue T → Choice T →
      Option (Event T × Memory ι T × Thread T)
  | .load, .see k =>
      (mem.load t .relaxed .tailIndex k).map fun (startTailIndex, mem) =>
        (.inner, mem, .enqueue items (.allocate startTailIndex))
  | .allocate startTailIndex, .fail =>
      if 0 < blockBaseDiff w BLOCK_SIZE startTailIndex items.length then
        some (.inner, mem, .done (.enqueued false))
      else none
  | .allocate startTailIndex, .go =>
      some (.inner, mem, .enqueue items (.construct startTailIndex items))
  | .construct currentTailIndex (element :: rest), .go =>
      some (.inner, mem.write t currentTailIndex (some element),
        .enqueue items
          (.construct ((SizeT.bits w).add currentTailIndex 1) rest))
  | .construct newTailIndex [], .go =>
      some (.publish items, mem.store t V.tailStore .tailIndex newTailIndex,
        .done (.enqueued true))
  | _, _ => none

/-- What follows the first test of a dequeue. -/
def asked (V : Orders) (w max tail overcommit optimistic : ℕ)
    (heard : List (Loc × ℕ)) : Thread T :=
  match desiredCount w max tail overcommit optimistic with
  | some desired =>
      .dequeue max (if V.fence then .fence overcommit desired heard
        else .draw overcommit desired)
  | none => .done (.dequeued [])

/-- What follows the second test. -/
def checked (w max overcommit desired myDequeueCount tail : ℕ) : Thread T :=
  let actual := actualCount w desired tail overcommit myDequeueCount
  .dequeue max (if actual < desired then
    .refund overcommit desired myDequeueCount tail actual
    else .take overcommit myDequeueCount tail actual)

/-- What follows the increment of `dequeueOvercommit`. -/
def refunded (max overcommit myDequeueCount tail actual : ℕ) : Thread T :=
  if actual = 0 then .done (.dequeued [])
  else .dequeue max (.take overcommit myDequeueCount tail actual)

/-- One step of `dequeue` or `dequeue_bulk`. -/
def dequeueBulk (V : Orders) (w : ℕ) (t : ι) (mem : Memory ι T) (max : ℕ) :
    Dequeue T → Choice T → Option (Event T × Memory ι T × Thread T)
  | .load, .see k =>
      (mem.load t .relaxed .tailIndex k).map fun (tail, mem) =>
        (.inner, mem, .dequeue max (.overcommit tail [(.tailIndex, k)]))
  | .overcommit tail heard, .see k =>
      (mem.load t .relaxed .dequeueOvercommit k).map fun (overcommit, mem) =>
        (.inner, mem, .dequeue max
          (.optimistic tail overcommit ((.dequeueOvercommit, k) :: heard)))
  | .optimistic tail overcommit heard, .see k =>
      (mem.load t .relaxed .dequeueOptimisticCount k).map
        fun (optimistic, mem) =>
          (.inner, mem, asked V w max tail overcommit optimistic
            ((.dequeueOptimisticCount, k) :: heard))
  | .fence overcommit desired heard, .go =>
      some (.inner, mem.acquireFence t heard,
        .dequeue max (.draw overcommit desired))
  | .draw overcommit desired, .go =>
      (mem.modify t V.optimisticFetch .dequeueOptimisticCount
        fun v => (SizeT.bits w).add v desired).map
        fun (myDequeueCount, mem) => (.draw desired, mem,
          .dequeue max (.reload overcommit desired myDequeueCount))
  | .reload overcommit desired myDequeueCount, .see k =>
      (mem.load t V.tailLoad .tailIndex k).map fun (tail, mem) =>
        (.inner, mem, checked w max overcommit desired myDequeueCount tail)
  | .refund overcommit desired myDequeueCount tail actual, .go =>
      (mem.modify t V.overcommitFetch .dequeueOvercommit
        fun v => (SizeT.bits w).add v (desired - actual)).map
        fun (_, mem) =>
          (.inner, mem, refunded max overcommit myDequeueCount tail actual)
  | .take _ _ _ actual, .go =>
      (mem.modify t V.headFetch .headIndex
        fun v => (SizeT.bits w).add v actual).map
        fun (firstIndex, mem) =>
          (.take actual, mem, .dequeue max (.read firstIndex actual []))
  | .read firstIndex actual got, .go =>
      if got.length < actual then
        let index := (SizeT.bits w).add firstIndex got.length
        some (.inner, mem.write t index none, .dequeue max
          (.read firstIndex actual (got ++ [(mem.cells index).data])))
      else some (.inner, mem, .done (.dequeued got))
  | _, _ => none

/-! ## The system -/

/-- The calls of a thread: one thread enqueues, every thread dequeues at least
one element. -/
def Allowed (producer t : ι) : Op T → Prop
  | .enqueueBulk _ => t = producer
  | .dequeueBulk max => 0 < max

instance (producer t : ι) (op : Op T) : Decidable (Allowed producer t op) := by
  cases op <;> unfold Allowed <;> infer_instance

/-- The first step of a call. -/
def enter : Op T → Thread T
  | .enqueueBulk items => .enqueue items .load
  | .dequeueBulk max => .dequeue max .load

/-- One step of a thread. -/
def move (V : Orders) (w BLOCK_SIZE : ℕ) (producer t : ι) (mem : Memory ι T) :
    Thread T → Choice T → Option (Event T × Memory ι T × Thread T)
  | .idle, .call op =>
      if Allowed producer t op then some (.call op, mem, enter op) else none
  | .enqueue items pc, c => enqueueBulk V w BLOCK_SIZE t mem items pc c
  | .dequeue max pc, c => dequeueBulk V w t mem max pc c
  | .done r, .go => some (.ret r, mem, .idle)
  | _, _ => none

/-- The threads on the elements of one producer. -/
abbrev State (ι : Type v) (T : Type u) := Pool ι (Memory ι T) (Thread T)

/-- All executions of the threads `ι`. -/
def system (V : Orders) (w BLOCK_SIZE : ℕ) (producer : ι) (T : Type u) :
    Lts (State ι T) (ι × Event T) where
  init := ⟨Memory.new, fun _ => .idle⟩
  step s a s' := ∃ c mem th,
    move V w BLOCK_SIZE producer a.1 s.shared (s.threads a.1) c =
      some (a.2, mem, th) ∧ s' = s.move a.1 mem th

/-- The place that a thread is about to construct an element in or to move one
out of. -/
def accesses (w : ℕ) : Thread T → Option ℕ
  | .enqueue _ (.construct currentTailIndex (_ :: _)) => some currentTailIndex
  | .dequeue _ (.read firstIndex actual got) =>
      if got.length < actual then
        some ((SizeT.bits w).add firstIndex got.length)
      else none
  | _ => none

/-- Some thread stands before an access to an element that races. -/
def Racing (w : ℕ) (s : State ι T) : Prop :=
  ∃ t index, accesses w (s.threads t) = some index ∧
    ¬s.shared.WriteSafe t index

/-! ## The moves, case by case -/

/-- What a thread can do, one constructor for each step. -/
inductive Move (V : Orders) (w BLOCK_SIZE : ℕ) (producer t : ι)
    (mem : Memory ι T) : Thread T → Event T → Memory ι T → Thread T → Prop
  | call {op : Op T} (h : Allowed producer t op) :
      Move V w BLOCK_SIZE producer t mem .idle (.call op) mem (enter op)
  | start {items : List T} {k startTailIndex : ℕ} {mem' : Memory ι T}
      (h : mem.load t .relaxed .tailIndex k = some (startTailIndex, mem')) :
      Move V w BLOCK_SIZE producer t mem (.enqueue items .load) .inner mem'
        (.enqueue items (.allocate startTailIndex))
  | refuse {items : List T} {startTailIndex : ℕ}
      (h : 0 < blockBaseDiff w BLOCK_SIZE startTailIndex items.length) :
      Move V w BLOCK_SIZE producer t mem
        (.enqueue items (.allocate startTailIndex)) .inner mem
        (.done (.enqueued false))
  | allocate {items : List T} {startTailIndex : ℕ} :
      Move V w BLOCK_SIZE producer t mem
        (.enqueue items (.allocate startTailIndex)) .inner mem
        (.enqueue items (.construct startTailIndex items))
  | construct {items rest : List T} {element : T} {currentTailIndex : ℕ} :
      Move V w BLOCK_SIZE producer t mem
        (.enqueue items (.construct currentTailIndex (element :: rest))) .inner
        (mem.write t currentTailIndex (some element)) (.enqueue items
          (.construct ((SizeT.bits w).add currentTailIndex 1) rest))
  | publish {items : List T} {newTailIndex : ℕ} :
      Move V w BLOCK_SIZE producer t mem
        (.enqueue items (.construct newTailIndex [])) (.publish items)
        (mem.store t V.tailStore .tailIndex newTailIndex)
        (.done (.enqueued true))
  | load {max k tail : ℕ} {mem' : Memory ι T}
      (h : mem.load t .relaxed .tailIndex k = some (tail, mem')) :
      Move V w BLOCK_SIZE producer t mem (.dequeue max .load) .inner mem'
        (.dequeue max (.overcommit tail [(.tailIndex, k)]))
  | overcommit {max k tail overcommit : ℕ} {heard : List (Loc × ℕ)}
      {mem' : Memory ι T}
      (h : mem.load t .relaxed .dequeueOvercommit k =
        some (overcommit, mem')) :
      Move V w BLOCK_SIZE producer t mem
        (.dequeue max (.overcommit tail heard)) .inner mem' (.dequeue max
          (.optimistic tail overcommit ((.dequeueOvercommit, k) :: heard)))
  | optimistic {max k tail overcommit optimistic : ℕ}
      {heard : List (Loc × ℕ)} {mem' : Memory ι T}
      (h : mem.load t .relaxed .dequeueOptimisticCount k =
        some (optimistic, mem')) :
      Move V w BLOCK_SIZE producer t mem
        (.dequeue max (.optimistic tail overcommit heard)) .inner mem'
        (asked V w max tail overcommit optimistic
          ((.dequeueOptimisticCount, k) :: heard))
  | fence {max overcommit desired : ℕ} {heard : List (Loc × ℕ)} :
      Move V w BLOCK_SIZE producer t mem
        (.dequeue max (.fence overcommit desired heard)) .inner
        (mem.acquireFence t heard) (.dequeue max (.draw overcommit desired))
  | draw {max overcommit desired myDequeueCount : ℕ} {mem' : Memory ι T}
      (h : mem.modify t V.optimisticFetch .dequeueOptimisticCount
        (fun v => (SizeT.bits w).add v desired) = some (myDequeueCount, mem')) :
      Move V w BLOCK_SIZE producer t mem
        (.dequeue max (.draw overcommit desired)) (.draw desired) mem'
        (.dequeue max (.reload overcommit desired myDequeueCount))
  | reload {max overcommit desired myDequeueCount k tail : ℕ}
      {mem' : Memory ι T}
      (h : mem.load t V.tailLoad .tailIndex k = some (tail, mem')) :
      Move V w BLOCK_SIZE producer t mem
        (.dequeue max (.reload overcommit desired myDequeueCount)) .inner mem'
        (checked w max overcommit desired myDequeueCount tail)
  | refund {max overcommit desired myDequeueCount tail actual old : ℕ}
      {mem' : Memory ι T}
      (h : mem.modify t V.overcommitFetch .dequeueOvercommit
        (fun v => (SizeT.bits w).add v (desired - actual)) =
          some (old, mem')) :
      Move V w BLOCK_SIZE producer t mem
        (.dequeue max (.refund overcommit desired myDequeueCount tail actual))
        .inner mem' (refunded max overcommit myDequeueCount tail actual)
  | take {max overcommit myDequeueCount tail actual firstIndex : ℕ}
      {mem' : Memory ι T}
      (h : mem.modify t V.headFetch .headIndex
        (fun v => (SizeT.bits w).add v actual) = some (firstIndex, mem')) :
      Move V w BLOCK_SIZE producer t mem
        (.dequeue max (.take overcommit myDequeueCount tail actual))
        (.take actual) mem' (.dequeue max (.read firstIndex actual []))
  | read {max firstIndex actual : ℕ} {got : List (Option T)}
      (h : got.length < actual) :
      Move V w BLOCK_SIZE producer t mem
        (.dequeue max (.read firstIndex actual got)) .inner
        (mem.write t ((SizeT.bits w).add firstIndex got.length) none)
        (.dequeue max (.read firstIndex actual (got ++
          [(mem.cells ((SizeT.bits w).add firstIndex got.length)).data])))
  | finish {max firstIndex actual : ℕ} {got : List (Option T)}
      (h : ¬got.length < actual) :
      Move V w BLOCK_SIZE producer t mem
        (.dequeue max (.read firstIndex actual got)) .inner mem
        (.done (.dequeued got))
  | ret {r : Res T} :
      Move V w BLOCK_SIZE producer t mem (.done r) (.ret r) mem .idle

variable {V : Orders} {w BLOCK_SIZE : ℕ} {producer t : ι}
  {mem mem' : Memory ι T} {e : Event T} {th th' : Thread T}

theorem move_of_enqueue_bulk {items : List T} {pc : Enqueue T} {c : Choice T}
    (h : enqueueBulk V w BLOCK_SIZE t mem items pc c =
      some (e, mem', th')) :
    Move V w BLOCK_SIZE producer t mem (.enqueue items pc) e mem' th' := by
  revert h
  fun_cases enqueueBulk V w BLOCK_SIZE t mem items pc c <;> intro h
  case case1 k =>
    obtain ⟨⟨idx, m⟩, hload, heq⟩ := Option.map_eq_some_iff.mp h
    cases heq
    exact .start hload
  case case2 hneeds => cases h; exact .refuse hneeds
  case case4 => cases h; exact .allocate
  case case5 => cases h; exact .construct
  case case6 => cases h; exact .publish
  all_goals cases h

theorem move_of_dequeue_bulk {max : ℕ} {pc : Dequeue T} {c : Choice T}
    (h : dequeueBulk V w t mem max pc c = some (e, mem', th')) :
    Move V w BLOCK_SIZE producer t mem (.dequeue max pc) e mem' th' := by
  revert h
  fun_cases dequeueBulk V w t mem max pc c <;> intro h
  case case1 k =>
    obtain ⟨⟨v, m⟩, hload, heq⟩ := Option.map_eq_some_iff.mp h
    cases heq
    exact .load hload
  case case2 k =>
    obtain ⟨⟨v, m⟩, hload, heq⟩ := Option.map_eq_some_iff.mp h
    cases heq
    exact .overcommit hload
  case case3 k =>
    obtain ⟨⟨v, m⟩, hload, heq⟩ := Option.map_eq_some_iff.mp h
    cases heq
    exact .optimistic hload
  case case4 => cases h; exact .fence
  case case5 =>
    obtain ⟨⟨v, m⟩, hmod, heq⟩ := Option.map_eq_some_iff.mp h
    cases heq
    exact .draw hmod
  case case6 k =>
    obtain ⟨⟨v, m⟩, hload, heq⟩ := Option.map_eq_some_iff.mp h
    cases heq
    exact .reload hload
  case case7 =>
    obtain ⟨⟨v, m⟩, hmod, heq⟩ := Option.map_eq_some_iff.mp h
    cases heq
    exact .refund hmod
  case case8 =>
    obtain ⟨⟨v, m⟩, hmod, heq⟩ := Option.map_eq_some_iff.mp h
    cases heq
    exact .take hmod
  case case9 hlt _ => cases h; exact .read hlt
  case case10 hlt => cases h; exact .finish hlt
  all_goals cases h

/-- The case analysis is exactly the executable move. -/
theorem moves_iff :
    (∃ c, move V w BLOCK_SIZE producer t mem th c = some (e, mem', th')) ↔
      Move V w BLOCK_SIZE producer t mem th e mem' th' := by
  constructor
  · rintro ⟨c, h⟩
    revert h
    fun_cases move V w BLOCK_SIZE producer t mem th c <;> intro h
    case case1 op hop => cases h; exact .call hop
    case case3 => exact move_of_enqueue_bulk h
    case case4 => exact move_of_dequeue_bulk h
    case case5 r => cases h; exact .ret
    all_goals cases h
  · intro h
    cases h with
    | @call op h => exact ⟨.call op, if_pos h⟩
    | @start _ k _ _ h =>
        exact ⟨.see k, by rw [move, enqueueBulk, h]; rfl⟩
    | refuse h => exact ⟨.fail, if_pos h⟩
    | allocate | construct | publish => exact ⟨.go, rfl⟩
    | @load _ k _ _ h | @overcommit _ k _ _ _ _ h | @optimistic _ k _ _ _ _ _ h
      | @reload _ _ _ _ k _ _ h =>
        exact ⟨.see k, by rw [move, dequeueBulk, h]; rfl⟩
    | fence => exact ⟨.go, rfl⟩
    | draw h | refund h | take h =>
        exact ⟨.go, by rw [move, dequeueBulk, h]; rfl⟩
    | read h => exact ⟨.go, if_pos h⟩
    | finish h => exact ⟨.go, if_neg h⟩
    | ret => exact ⟨.go, rfl⟩

end Moodycamel
end ConcurrentQueues
