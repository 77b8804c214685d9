import Mathlib.Data.Nat.ModEq

/-!
# Slots of a ring

Indexes that count up without bound are mapped to the slots of a ring by
`% n`.  Two indexes with one slot are equal or at least a whole lap apart.
-/

namespace ConcurrentQueues
namespace Ring

/-- Indexes of one slot are at least a lap apart. -/
theorem add_le_of_slot_eq {n a b : ℕ} (h : a % n = b % n) (hlt : a < b) :
    a + n ≤ b := by
  have hdvd : n ∣ b - a := (Nat.modEq_iff_dvd' hlt.le).mp h
  have hle : n ≤ b - a := Nat.le_of_dvd (by omega) hdvd
  omega

/-- Within less than a lap the slot determines the index. -/
theorem eq_of_slot_eq {n a b : ℕ} (h : a % n = b % n)
    (hab : a < b + n) (hba : b < a + n) : a = b := by
  rcases lt_trichotomy a b with hlt | heq | hgt
  · have := add_le_of_slot_eq h hlt
    omega
  · exact heq
  · have := add_le_of_slot_eq h.symm hgt
    omega

/-- Every lap, wherever it starts, passes every slot. -/
theorem exists_slot_eq {n : ℕ} (hn : 0 < n) (start a : ℕ) :
    ∃ b, start ≤ b ∧ b < start + n ∧ b % n = a % n := by
  refine ⟨start + (a + (n - 1) * start) % n, Nat.le_add_right _ _, ?_, ?_⟩
  · exact Nat.add_lt_add_left (Nat.mod_lt _ hn) start
  · have hlaps : start + (a + (n - 1) * start) = a + n * start := by
      obtain ⟨m, rfl⟩ := Nat.exists_eq_add_of_lt hn
      simp only [Nat.zero_add, Nat.add_sub_cancel, Nat.succ_mul]
      omega
    rw [Nat.add_mod_mod, hlaps, Nat.add_mul_mod_self_left]

/-- In a ring of two slots or more, neighbours are in different slots. -/
theorem slot_succ_ne {n : ℕ} (hn : 2 ≤ n) (a : ℕ) : (a + 1) % n ≠ a % n := by
  intro h
  have := eq_of_slot_eq h (by omega) (by omega)
  omega

/-- One step back from the slot of `a + 1`, around the end of the ring, is the
slot of `a`. -/
theorem slot_back {n : ℕ} (hn : 0 < n) (a : ℕ) :
    (if (a + 1) % n = 0 then n - 1 else (a + 1) % n - 1) = a % n := by
  have hlt := Nat.mod_lt a hn
  rw [← Nat.mod_add_mod]
  by_cases hwrap : a % n + 1 = n
  · rw [hwrap, Nat.mod_self, if_pos rfl]
    omega
  · rw [Nat.mod_eq_of_lt (by omega), if_neg (Nat.succ_ne_zero _)]
    omega

theorem slot_add_self (n a : ℕ) : (a + n) % n = a % n :=
  Nat.add_mod_right a n

end Ring
end ConcurrentQueues
