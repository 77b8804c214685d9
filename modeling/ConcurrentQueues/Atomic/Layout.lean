import ConcurrentQueues.Core.Memory
import Mathlib.Data.Nat.ModEq
import Mathlib.Data.Nat.Size
import Mathlib.Logic.Function.Basic

/-!
# The slots of `AtomicQueue`

A call takes a ticket from `head_` or `tail_`, which are of type `unsigned`, and
works on the slot that the ticket names.  With `MINIMIZE_CONTENTION` the number
of slots is rounded up to a power of two, and the lowest bits of an index trade
places with the next ones, so that neighbours lie on different cache lines.
-/

namespace ConcurrentQueues
namespace AtomicQueue

/-! ## Rounding up -/

def decrement (S : SizeT) (x : ℕ) : ℕ :=
  S.sub x 1

def increment (S : SizeT) (x : ℕ) : ℕ :=
  S.add x 1

/-- `or_equal(x, u, rest...)` -/
def orEqual (x : ℕ) : List ℕ → ℕ
  | [] => x
  | u :: rest => orEqual (x ||| x >>> u) rest

/-- The bit-twiddling hack for a type of width `S`. -/
def roundUp (S : SizeT) (shifts : List ℕ) (a : ℕ) : ℕ :=
  increment S (orEqual (decrement S a) shifts)

/-- `round_up_to_power_of_2`, for `uint32_t` -/
def roundUpToPowerOf2 (a : ℕ) : ℕ :=
  roundUp (.bits 32) [1, 2, 4, 8, 16] a

theorem orEqual_append (x : ℕ) (us us' : List ℕ) :
    orEqual x (us ++ us') = orEqual (orEqual x us) us' := by
  induction us generalizing x with
  | nil => rfl
  | cons u us ih => exact ih _

/-- The shifts by `1, 2, 4, …` smear every bit over the `2 ^ k` bits at and
below it. -/
theorem testBit_orEqual (x k j : ℕ) :
    (orEqual x ((List.range k).map (2 ^ ·))).testBit j = true ↔
      ∃ i < 2 ^ k, x.testBit (j + i) = true := by
  induction k generalizing j with
  | zero =>
      constructor
      · exact fun h => ⟨0, by simp, h⟩
      · rintro ⟨i, hi, h⟩
        obtain rfl : i = 0 := by omega
        exact h
  | succ k ih =>
      rw [List.range_succ, List.map_append, orEqual_append]
      simp only [List.map_cons, List.map_nil, orEqual, Nat.testBit_or,
        Nat.testBit_shiftRight, Bool.or_eq_true, ih, pow_succ]
      constructor
      · rintro (⟨i, hi, h⟩ | ⟨i, hi, h⟩)
        · exact ⟨i, by omega, h⟩
        · refine ⟨2 ^ k + i, by omega, ?_⟩
          rwa [← Nat.add_assoc, Nat.add_comm j]
      · rintro ⟨i, hi, h⟩
        by_cases hlt : i < 2 ^ k
        · exact Or.inl ⟨i, hlt, h⟩
        · refine Or.inr ⟨i - 2 ^ k, by omega, ?_⟩
          have hsum : 2 ^ k + j + (i - 2 ^ k) = j + i := by omega
          rwa [hsum]

/-- With all shifts below the width every bit below the highest one is set. -/
theorem orEqual_eq {x k : ℕ} (hx : x < 2 ^ 2 ^ k) :
    orEqual x ((List.range k).map (2 ^ ·)) = 2 ^ x.size - 1 := by
  apply Nat.eq_of_testBit_eq
  intro j
  rw [Nat.testBit_two_pow_sub_one, Bool.eq_iff_iff, testBit_orEqual,
    decide_eq_true_iff, Nat.lt_size]
  constructor
  · rintro ⟨i, -, h⟩
    exact (Nat.pow_le_pow_right Nat.two_pos (Nat.le_add_right j i)).trans
      (Nat.ge_two_pow_of_testBit h)
  · intro h
    obtain ⟨i, hi, hbit⟩ := Nat.exists_ge_and_testBit_of_ge_two_pow h
    refine ⟨i - j, ?_, by rwa [Nat.add_sub_cancel' hi]⟩
    have hlt : i < 2 ^ k := by
      by_contra hge
      rw [Nat.testBit_lt_two_pow (hx.trans_le
        (Nat.pow_le_pow_right Nat.two_pos (Nat.le_of_not_lt hge)))] at hbit
      cases hbit
    omega

theorem roundUp_eq {a k : ℕ} (ha : 1 ≤ a) (hle : a ≤ 2 ^ (2 ^ k - 1)) :
    roundUp (.bits (2 ^ k)) ((List.range k).map (2 ^ ·)) a =
      2 ^ (a - 1).size := by
  have hk := Nat.two_pow_pos k
  have hhalf : 2 ^ (2 ^ k - 1) < 2 ^ 2 ^ k :=
    Nat.pow_lt_pow_right (by decide) (by omega)
  have hsize : (a - 1).size ≤ 2 ^ k - 1 := Nat.size_le.mpr (by omega)
  have hpos := Nat.two_pow_pos (a - 1).size
  have hfits : (SizeT.bits (2 ^ k)).Fits (2 ^ (a - 1).size - 1 + 1) := by
    rw [Nat.sub_add_cancel hpos]
    exact SizeT.fits_bits.mpr
      ((Nat.pow_le_pow_right Nat.two_pos hsize).trans_lt hhalf)
  rw [roundUp, decrement, SizeT.sub_of_fits (SizeT.fits_bits.mpr (by omega)) ha,
    orEqual_eq (by omega), increment, SizeT.add_of_fits hfits,
    Nat.sub_add_cancel hpos]

theorem roundUpToPowerOf2_eq {a : ℕ} (ha : 1 ≤ a) (hle : a ≤ 2 ^ 31) :
    roundUpToPowerOf2 a = 2 ^ (a - 1).size :=
  roundUp_eq (k := 5) ha hle

/-! ## Mixing the bits of an index -/

/-- `remap_index<BITS>(index)` -/
def remapIndex (bits index : ℕ) : ℕ :=
  let mixMask := 1 <<< bits - 1
  let mix := (index ^^^ index >>> bits) &&& mixMask
  index ^^^ mix ^^^ mix <<< bits

/-- The lowest `bits` places and the next ones change places. -/
def swapPlace (bits j : ℕ) : ℕ :=
  if j < bits then j + bits
  else if j < 2 * bits then j - bits
  else j

theorem swapPlace_involutive (bits : ℕ) :
    Function.Involutive (swapPlace bits) := by
  intro j
  simp only [swapPlace]
  split_ifs <;> omega

theorem testBit_remapIndex (bits x j : ℕ) :
    (remapIndex bits x).testBit j = x.testBit (swapPlace bits j) := by
  have hmask : 1 <<< bits - 1 = 2 ^ bits - 1 := by rw [Nat.one_shiftLeft]
  simp only [remapIndex, hmask, Nat.testBit_xor, Nat.testBit_and,
    Nat.testBit_shiftLeft, Nat.testBit_shiftRight, Nat.testBit_two_pow_sub_one]
  by_cases hlow : j < bits
  · have hge : ¬j ≥ bits := by omega
    simp [swapPlace, hlow, hge, Nat.add_comm bits j]
  · by_cases hmid : j < 2 * bits
    · have hge : j ≥ bits := by omega
      have hlt : j - bits < bits := by omega
      have hback : bits + (j - bits) = j := by omega
      simp [swapPlace, hlow, hmid, hge, hlt, hback, Bool.xor_comm]
    · have hge : j ≥ bits := by omega
      have hlt : ¬j - bits < bits := by omega
      simp [swapPlace, hlow, hmid, hlt]

theorem remapIndex_involutive (bits : ℕ) :
    Function.Involutive (remapIndex bits) := by
  intro x
  apply Nat.eq_of_testBit_eq
  intro j
  rw [testBit_remapIndex, testBit_remapIndex, swapPlace_involutive]

theorem remapIndex_lt {bits m x : ℕ} (hbits : 2 * bits ≤ m) (hx : x < 2 ^ m) :
    remapIndex bits x < 2 ^ m := by
  apply Nat.lt_pow_two_of_testBit
  intro j hj
  have hplace : m ≤ swapPlace bits j := by
    rw [swapPlace]
    split_ifs <;> omega
  rw [testBit_remapIndex]
  exact Nat.testBit_lt_two_pow
    (hx.trans_le (Nat.pow_le_pow_right Nat.two_pos hplace))

@[simp] theorem remapIndex_zero (x : ℕ) : remapIndex 0 x = x := by
  simp [remapIndex]

/-! ## Layouts -/

/-- `GetCacheLineIndexBits` -/
def GetCacheLineIndexBits : ℕ → ℕ
  | 256 => 8
  | 128 => 7
  | 64 => 6
  | 32 => 5
  | 16 => 4
  | 8 => 3
  | 4 => 2
  | 2 => 1
  | _ => 0

/-- `GetIndexShuffleBits` -/
def GetIndexShuffleBits (minimizeContention : Bool)
    (arraySize elementsPerCacheLine : ℕ) : ℕ :=
  if minimizeContention then
    let bits := GetCacheLineIndexBits elementsPerCacheLine
    let minSize := 1 <<< (bits * 2)
    if arraySize < minSize then 0 else bits
  else 0

/-- The slots of a queue, and the one that a ticket names. -/
structure Layout where
  size : ℕ
  slot : ℕ → ℕ
  slot_lt : ∀ ticket, slot ticket < size

/-- Tickets name the same slot when they agree modulo the size. -/
def Layout.Laps (L : Layout) : Prop :=
  ∀ i j, L.slot i = L.slot j ↔ i % L.size = j % L.size

/-- The template arguments of `AtomicQueue` that decide where an element lies. -/
structure Args where
  SIZE : ℕ
  MINIMIZE_CONTENTION : Bool
  elementsPerCacheLine : ℕ
  SIZE_pos : 1 ≤ SIZE
  SIZE_le : MINIMIZE_CONTENTION → SIZE ≤ 2 ^ 31

namespace Args

variable (A : Args)

/-- `AtomicQueue::size_` -/
def size : ℕ :=
  if A.MINIMIZE_CONTENTION then roundUpToPowerOf2 A.SIZE else A.SIZE

/-- `AtomicQueue::SHUFFLE_BITS` -/
def SHUFFLE_BITS : ℕ :=
  GetIndexShuffleBits A.MINIMIZE_CONTENTION A.size A.elementsPerCacheLine

theorem size_eq (h : A.MINIMIZE_CONTENTION) :
    A.size = 2 ^ (A.SIZE - 1).size := by
  rw [size, if_pos h, roundUpToPowerOf2_eq A.SIZE_pos (A.SIZE_le h)]

theorem size_pos : 0 < A.size := by
  by_cases h : A.MINIMIZE_CONTENTION
  · rw [A.size_eq h]
    exact Nat.two_pow_pos _
  · rw [size, if_neg h]
    exact A.SIZE_pos

/-- Bits are mixed only if the size is a power of two with room for them. -/
theorem size_eq_of_shuffle (h : A.SHUFFLE_BITS ≠ 0) :
    ∃ m, A.size = 2 ^ m ∧ 2 * A.SHUFFLE_BITS ≤ m := by
  simp only [SHUFFLE_BITS, GetIndexShuffleBits, Nat.one_shiftLeft] at h ⊢
  split_ifs at h ⊢ with hmin hsize
  · exact absurd rfl h
  · refine ⟨(A.SIZE - 1).size, ?_, ?_⟩
    · exact A.size_eq hmin
    · rw [A.size_eq hmin, Nat.pow_lt_pow_iff_right Nat.one_lt_two] at hsize
      omega
  · exact absurd rfl h

/-- The slot of `AtomicQueue::do_push` and `do_pop`. -/
def slot (ticket : ℕ) : ℕ :=
  remapIndex A.SHUFFLE_BITS (ticket % A.size)

theorem slot_lt (ticket : ℕ) : A.slot ticket < A.size := by
  have hlt := Nat.mod_lt ticket A.size_pos
  rw [slot]
  by_cases h : A.SHUFFLE_BITS = 0
  · rwa [h, remapIndex_zero]
  · obtain ⟨m, hsize, hm⟩ := A.size_eq_of_shuffle h
    rw [hsize] at hlt ⊢
    exact remapIndex_lt hm hlt

/-- The slots of `AtomicQueue` and of `AtomicQueue2`. -/
def layout : Layout :=
  ⟨A.size, A.slot, A.slot_lt⟩

theorem layout_laps : A.layout.Laps := fun _ _ =>
  (remapIndex_involutive A.SHUFFLE_BITS).injective.eq_iff

/-- A size that was rounded up divides the range of `unsigned`. -/
theorem size_dvd (h : A.MINIMIZE_CONTENTION) : A.size ∣ 2 ^ 32 := by
  have hle := A.SIZE_le h
  have hpos := A.SIZE_pos
  have hsize : (A.SIZE - 1).size ≤ 31 := Nat.size_le.mpr (by omega)
  rw [A.size_eq h]
  exact Nat.pow_dvd_pow 2 (by omega)

end Args

/-! ## Tickets that wrap around -/

/-- The slot of ticket `i` of a counter of width `S`. -/
def Layout.slotOf (L : Layout) (S : SizeT) (i : ℕ) : ℕ :=
  L.slot (S.ofNat i)

/-- Any `size` tickets in a row name different slots. -/
def Layout.Apart (L : Layout) (S : SizeT) : Prop :=
  ∀ t i j, i < L.size → j < L.size →
    L.slotOf S (t + i) = L.slotOf S (t + j) → i = j

variable {L : Layout} {w : ℕ}

theorem Layout.Laps.apart (h : L.Laps) (hdvd : L.size ∣ 2 ^ w) :
    L.Apart (.bits w) := by
  intro t i j hi hj heq
  rw [slotOf, slotOf, h, SizeT.ofNat_bits, SizeT.ofNat_bits,
    Nat.mod_mod_of_dvd _ hdvd, Nat.mod_mod_of_dvd _ hdvd] at heq
  have hmod : i ≡ j [MOD L.size] := Nat.ModEq.add_left_cancel' t heq
  rwa [Nat.ModEq, Nat.mod_eq_of_lt hi, Nat.mod_eq_of_lt hj] at hmod

/-- The tickets around the point where the counter wraps are apart only if the
size divides its range. -/
theorem Layout.Laps.dvd_of_apart (h : L.Laps) (hpos : 0 < L.size)
    (hapart : L.Apart (.bits w)) : L.size ∣ 2 ^ w := by
  rw [Nat.dvd_iff_mod_eq_zero]
  by_contra hne
  have hlt := Nat.mod_lt (2 ^ w) hpos
  have hle := Nat.mod_le (2 ^ w) L.size
  refine hne (hapart (2 ^ w - 2 ^ w % L.size) 0 (2 ^ w % L.size) hpos hlt ?_).symm
  have hword : 2 ^ w - 2 ^ w % L.size < 2 ^ w := by omega
  rw [Nat.add_zero, Nat.sub_add_cancel hle, slotOf, slotOf, h,
    SizeT.ofNat_bits, SizeT.ofNat_bits, Nat.mod_eq_of_lt hword, Nat.mod_self,
    Nat.zero_mod]
  exact Nat.mod_eq_zero_of_dvd (Nat.dvd_sub_mod (2 ^ w))

/-- Any `size_` tickets in a row name different slots of an `AtomicQueue`, also
where `head_` and `tail_` wrap around, exactly if `size_` divides the range of
`unsigned`.  It does where contention is minimized. -/
theorem tickets_apart_iff (A : Args) :
    (A.layout.Apart (.bits 32) ↔ A.size ∣ 2 ^ 32) ∧
      (A.MINIMIZE_CONTENTION → A.layout.Apart (.bits 32)) := by
  refine ⟨⟨A.layout_laps.dvd_of_apart A.size_pos, A.layout_laps.apart⟩, ?_⟩
  exact fun h => A.layout_laps.apart (A.size_dvd h)

end AtomicQueue
end ConcurrentQueues
