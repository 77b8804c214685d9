import Mathlib.Algebra.Order.Ring.Nat

/-!
# `size_t` arithmetic and atomic indexes

The queues count in `std::size_t`.  Their arithmetic is kept in one place, so
that an algorithm is written once and read with counters that are unbounded
naturals or with counters of `w` bits.

An atomic index keeps its modification order: a relaxed load may return any
value the index has held, a compare-exchange acts on the newest one.
-/

namespace ConcurrentQueues

/-! ## `std::size_t` -/

/-- The width of `std::size_t`. -/
inductive SizeT
  | unbounded
  | bits (w : ℕ)
  deriving DecidableEq

namespace SizeT

/-- The value of a computed natural number in this width. -/
def ofNat : SizeT → ℕ → ℕ
  | unbounded, k => k
  | bits w, k => k % 2 ^ w

def add (S : SizeT) (a b : ℕ) : ℕ :=
  S.ofNat (a + b)

/-- Subtraction, modulo `2 ^ w` for a bounded width. -/
def sub : SizeT → ℕ → ℕ → ℕ
  | unbounded, a, b => a - b
  | bits w, a, b => (a + 2 ^ w - b) % 2 ^ w

/-- The value of a `std::size_t` cast to `std::intptr_t`. -/
def signed : SizeT → ℕ → ℤ
  | unbounded, a => a
  | bits w, a => if a < 2 ^ (w - 1) then (a : ℤ) else (a : ℤ) - (2 ^ w : ℕ)

/-- The difference of two values cast to `std::intptr_t`. -/
def signedDif (S : SizeT) (a b : ℕ) : ℤ :=
  S.signed a - S.signed b

@[simp] theorem ofNat_unbounded (k : ℕ) : unbounded.ofNat k = k := rfl

@[simp] theorem ofNat_bits (w k : ℕ) : (bits w).ofNat k = k % 2 ^ w := rfl

@[simp] theorem add_unbounded (a b : ℕ) : unbounded.add a b = a + b := rfl

@[simp] theorem sub_unbounded (a b : ℕ) : unbounded.sub a b = a - b := rfl

@[simp] theorem signedDif_unbounded (a b : ℕ) :
    unbounded.signedDif a b = (a : ℤ) - b := rfl

/-- A value that a `std::size_t` of this width holds. -/
def Fits (S : SizeT) (a : ℕ) : Prop :=
  S.ofNat a = a

theorem fits_ofNat (S : SizeT) (a : ℕ) : S.Fits (S.ofNat a) := by
  cases S with
  | unbounded => rfl
  | bits w => exact Nat.mod_mod a (2 ^ w)

theorem fits_zero (S : SizeT) : S.Fits 0 := by
  cases S with
  | unbounded => rfl
  | bits w => exact Nat.zero_mod (2 ^ w)

theorem fits_add (S : SizeT) (a b : ℕ) : S.Fits (S.add a b) :=
  S.fits_ofNat (a + b)

theorem fits_bits {w a : ℕ} : (bits w).Fits a ↔ a < 2 ^ w := by
  rw [Fits, ofNat_bits]
  constructor
  · intro h
    exact h ▸ Nat.mod_lt a (Nat.two_pow_pos w)
  · exact Nat.mod_eq_of_lt

theorem Fits.mono {S : SizeT} {a b : ℕ} (hb : S.Fits b) (hab : a ≤ b) :
    S.Fits a := by
  cases S with
  | unbounded => rfl
  | bits w => exact fits_bits.mpr (lt_of_le_of_lt hab (fits_bits.mp hb))

theorem add_of_fits {S : SizeT} {a b : ℕ} (h : S.Fits (a + b)) :
    S.add a b = a + b :=
  h

theorem sub_of_fits {S : SizeT} {a b : ℕ} (ha : S.Fits a) (hba : b ≤ a) :
    S.sub a b = a - b := by
  cases S with
  | unbounded => rfl
  | bits w =>
      have hlt := fits_bits.mp ha
      rw [sub, Nat.add_comm, Nat.add_sub_assoc hba, Nat.add_mod_left]
      exact Nat.mod_eq_of_lt (by omega)

/-- The signed difference tells equal values apart from different ones. -/
theorem signedDif_eq_zero_iff {S : SizeT} {a b : ℕ} (ha : S.Fits a)
    (hb : S.Fits b) : S.signedDif a b = 0 ↔ a = b := by
  cases S with
  | unbounded =>
      rw [signedDif_unbounded]
      omega
  | bits w =>
      rw [fits_bits] at ha hb
      simp only [signedDif, signed]
      split_ifs <;> omega

/-- Values below half the range keep their order when cast. -/
theorem signedDif_of_lt {w a b : ℕ} (ha : a < 2 ^ (w - 1))
    (hb : b < 2 ^ (w - 1)) : (bits w).signedDif a b = (a : ℤ) - b := by
  simp only [signedDif, signed, if_pos ha, if_pos hb]

/-- Adding to a wrapped value wraps the sum. -/
theorem add_bits_mod (w a b : ℕ) :
    (bits w).add (a % 2 ^ w) b = (a + b) % 2 ^ w := by
  simp [add]

end SizeT

/-! ## Atomic indexes -/

/-- A `std::atomic<std::size_t>`: its newest value and, newest first, the
values it held before. -/
structure Atomic where
  val : ℕ
  past : List ℕ
  deriving DecidableEq

namespace Atomic

/-- An atomic that was only initialized. -/
def ofVal (v : ℕ) : Atomic := ⟨v, []⟩

/-- A load that sees the value `lag` modifications behind the newest. -/
def load (a : Atomic) (lag : ℕ) : Option ℕ :=
  (a.val :: a.past)[lag]?

/-- A store, or the store of a successful compare-exchange. -/
def store (a : Atomic) (v : ℕ) : Atomic :=
  ⟨v, a.val :: a.past⟩

@[simp] theorem val_ofVal (v : ℕ) : (ofVal v).val = v := rfl

@[simp] theorem val_store (a : Atomic) (v : ℕ) : (a.store v).val = v := rfl

@[simp] theorem load_zero (a : Atomic) : a.load 0 = some a.val := rfl

/-- The index has counted up by one from zero, so the value seen `lag`
modifications behind is the newest value less `lag`. -/
def Counts (a : Atomic) : Prop :=
  a.past = (List.range a.val).reverse

theorem counts_ofVal_zero : (ofVal 0).Counts := rfl

theorem Counts.store_succ {a : Atomic} (h : a.Counts) :
    (a.store (a.val + 1)).Counts := by
  simp only [Counts, store] at h ⊢
  rw [List.range_succ, List.reverse_append, h]
  rfl

/-- After a store a load sees the value stored or one that was there before. -/
theorem load_store {a : Atomic} {v lag u : ℕ}
    (h : (a.store v).load lag = some u) : u = v ∨ ∃ lag', a.load lag' = some u := by
  cases lag with
  | zero => exact Or.inl (Option.some.inj h).symm
  | succ lag => exact Or.inr ⟨lag, h⟩

theorem Counts.load_eq_some {a : Atomic} (h : a.Counts) {lag v : ℕ} :
    a.load lag = some v ↔ v + lag = a.val := by
  have hall : a.val :: a.past = (List.range (a.val + 1)).reverse := by
    rw [List.range_succ, List.reverse_append, h]
    rfl
  rw [load, hall]
  by_cases hlag : lag < a.val + 1
  · rw [List.getElem?_eq_getElem (by simpa using hlag)]
    simp only [List.getElem_reverse, List.getElem_range, List.length_range,
      Option.some.injEq]
    omega
  · rw [List.getElem?_eq_none (by simpa using hlag)]
    simp only [reduceCtorEq, false_iff]
    omega

/-- The same history kept modulo `2 ^ w`. -/
def wrap (w : ℕ) (a : Atomic) : Atomic :=
  ⟨a.val % 2 ^ w, a.past.map (· % 2 ^ w)⟩

@[simp] theorem val_wrap (w : ℕ) (a : Atomic) :
    (a.wrap w).val = a.val % 2 ^ w := rfl

@[simp] theorem store_wrap (w : ℕ) (a : Atomic) (v : ℕ) :
    (a.wrap w).store (v % 2 ^ w) = (a.store v).wrap w := rfl

theorem load_wrap (w : ℕ) (a : Atomic) (lag : ℕ) :
    (a.wrap w).load lag = (a.load lag).map (· % 2 ^ w) := by
  change ((a.val :: a.past).map (· % 2 ^ w))[lag]? = _
  rw [List.getElem?_map, load]

theorem load_wrap_eq_some {w : ℕ} {a : Atomic} {lag v : ℕ} :
    (a.wrap w).load lag = some v ↔
      ∃ u, a.load lag = some u ∧ u % 2 ^ w = v := by
  rw [load_wrap, Option.map_eq_some_iff]

end Atomic
end ConcurrentQueues
