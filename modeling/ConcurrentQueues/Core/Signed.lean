import ConcurrentQueues.Core.Memory

/-!
# Counters compared by a signed difference

Two counters of `w` bits are cast to `std::intptr_t` and subtracted.  A counter
that counts up passes from the greatest signed value to the least one at every
odd multiple of `2 ^ (w - 1)`.  When one of two counters has passed such a point
more often than the other, their signed difference is off by multiples of
`2 ^ w`.  This module says of which pairs of counters the difference tells the
order.
-/

namespace ConcurrentQueues
namespace SizeT

variable {w x y : ℕ}

/-! ## Turns -/

/-- How often a counter that has counted up to `x` has passed from the greatest
signed value to the least one. -/
def turns (w x : ℕ) : ℕ :=
  (x + 2 ^ (w - 1)) / 2 ^ w

theorem turns_mono (w : ℕ) (h : x ≤ y) : turns w x ≤ turns w y :=
  Nat.div_le_div_right (Nat.add_le_add_right h _)

theorem lt_of_turns_lt (h : turns w x < turns w y) : x < y := by
  by_contra hle
  exact absurd (turns_mono w (not_lt.mp hle)) (not_le.mpr h)

theorem two_pow_eq_add (hw : 1 ≤ w) : 2 ^ w = 2 ^ (w - 1) + 2 ^ (w - 1) := by
  obtain ⟨v, rfl⟩ := Nat.exists_eq_add_of_le' hw
  rw [Nat.add_sub_cancel, pow_succ, mul_two]

/-- A cast takes off `2 ^ w` for every turn. -/
theorem signed_wrap (hw : 1 ≤ w) (x : ℕ) :
    (bits w).signed (x % 2 ^ w) = (x : ℤ) - (2 ^ w * turns w x : ℕ) := by
  have hhalf := two_pow_eq_add hw
  have hlt := Nat.mod_lt x (Nat.two_pow_pos w)
  have hx := Nat.div_add_mod x (2 ^ w)
  have hturns : turns w x = x / 2 ^ w + (x % 2 ^ w + 2 ^ (w - 1)) / 2 ^ w := by
    rw [turns, ← Nat.mul_add_div (Nat.two_pow_pos w), ← add_assoc, hx]
  rw [hturns, Nat.mul_add, signed]
  by_cases hr : x % 2 ^ w < 2 ^ (w - 1)
  · have hzero : (x % 2 ^ w + 2 ^ (w - 1)) / 2 ^ w = 0 :=
      Nat.div_eq_of_lt (by omega)
    rw [if_pos hr, hzero, Nat.mul_zero]
    omega
  · have hone : (x % 2 ^ w + 2 ^ (w - 1)) / 2 ^ w = 1 :=
      Nat.div_eq_of_lt_le (by omega) (by omega)
    rw [if_neg hr, hone, Nat.mul_one]
    omega

theorem signedDif_wrap (hw : 1 ≤ w) (x y : ℕ) :
    (bits w).signedDif (x % 2 ^ w) (y % 2 ^ w) =
      (x : ℤ) - (2 ^ w * turns w x : ℕ) -
        ((y : ℤ) - (2 ^ w * turns w y : ℕ)) := by
  rw [signedDif, signed_wrap hw, signed_wrap hw]

/-! ## Which differences tell the order -/

/-- The difference lies in the range of `std::intptr_t`, and its sign tells
which of the two counters is ahead. -/
structure TellsOrder (w : ℕ) (dif : ℤ) (x y : ℕ) : Prop where
  ge : -(2 ^ (w - 1) : ℕ) ≤ dif
  lt : dif < (2 ^ (w - 1) : ℕ)
  neg_iff : dif < 0 ↔ x < y
  zero_iff : dif = 0 ↔ x = y
  pos_iff : 0 < dif ↔ y < x

/-- Two counters that have taken the same turns and are no more than half the
range apart, or that are so far apart that the turns between them cancel out. -/
inductive Comparable (w x y : ℕ) : Prop
  | near (hturns : turns w x = turns w y) (hle : y ≤ x + 2 ^ (w - 1))
      (hlt : x < y + 2 ^ (w - 1))
  | ahead (k : ℕ) (hturns : turns w x = turns w y + (k + 1))
      (hgt : y + 2 ^ w * (k + 1) < x)
      (hlt : x < y + 2 ^ w * (k + 1) + 2 ^ (w - 1))
  | behind (k : ℕ) (hturns : turns w y = turns w x + (k + 1))
      (hgt : x + 2 ^ w * (k + 1) < y)
      (hle : y ≤ x + 2 ^ w * (k + 1) + 2 ^ (w - 1))

/-- The signed difference of two counters tells their order just if they are
comparable. -/
theorem tellsOrder_iff (hw : 1 ≤ w) :
    TellsOrder w ((bits w).signedDif (x % 2 ^ w) (y % 2 ^ w)) x y ↔
      Comparable w x y := by
  have hhalf := two_pow_eq_add hw
  have hpos := Nat.two_pow_pos (w - 1)
  rw [signedDif_wrap hw]
  rcases lt_trichotomy (turns w x) (turns w y) with hturns | hturns | hturns
  · have horder := lt_of_turns_lt hturns
    obtain ⟨k, hk⟩ := Nat.exists_eq_add_of_lt hturns
    rw [hk, add_assoc, Nat.mul_add]
    constructor
    · rintro ⟨hge, -, hneg, -, -⟩
      have hsign := hneg.mpr horder
      exact .behind k hk (by omega) (by omega)
    · intro h
      cases h with
      | near hsame => omega
      | ahead k' hmore => omega
      | behind k' hk' hgt hle =>
          obtain rfl : k' = k := by omega
          constructor <;> omega
  · rw [hturns]
    constructor
    · rintro ⟨hge, hlt, -, -, -⟩
      exact .near hturns (by omega) (by omega)
    · intro h
      cases h with
      | near _ hle hlt =>
          constructor <;> omega
      | ahead k hne | behind k hne => omega
  · have horder := lt_of_turns_lt hturns
    obtain ⟨k, hk⟩ := Nat.exists_eq_add_of_lt hturns
    rw [hk, add_assoc, Nat.mul_add]
    constructor
    · rintro ⟨-, hlt, -, -, hpos'⟩
      have hsign := hpos'.mpr horder
      exact .ahead k hk (by omega) (by omega)
    · intro h
      cases h with
      | near hsame => omega
      | behind k' hmore => omega
      | ahead k' hk' hgt hlt =>
          obtain rfl : k' = k := by omega
          constructor <;> omega

/-- Of counters less than half the range apart only the turns matter. -/
theorem comparable_iff_turns_eq (hw : 1 ≤ w) (hle : y ≤ x + 2 ^ (w - 1))
    (hlt : x < y + 2 ^ (w - 1)) :
    Comparable w x y ↔ turns w x = turns w y := by
  have hhalf := two_pow_eq_add hw
  have hlap : ∀ k, 2 ^ w ≤ 2 ^ w * (k + 1) :=
    fun k => Nat.le_mul_of_pos_right _ (Nat.succ_pos k)
  constructor
  · intro h
    cases h with
    | near hturns => exact hturns
    | ahead k _ hgt | behind k _ hgt =>
        have := hlap k
        omega
  · exact fun hturns => .near hturns hle hlt

end SizeT
end ConcurrentQueues
