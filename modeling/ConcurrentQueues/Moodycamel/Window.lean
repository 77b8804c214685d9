import ConcurrentQueues.Moodycamel.BlockIndex
import Mathlib.Data.Nat.ModEq

/-!
# The entries of the last blocks

The entries that the producer has put in stand one behind the other around the
array.  An array shows the blocks of the last bases, in their order, and with
the base of any of its entries and its slot every other slot can be told.
-/

namespace ConcurrentQueues
namespace Moodycamel

/-- The slot of the block with number `m`, where that with number 0 has the slot
`c`. -/
def BlockIndexHeader.slot (h : BlockIndexHeader) (c m : ℕ) : ℕ :=
  (c + m) % h.size

/-- Fewer blocks than there are slots have slots of their own. -/
theorem BlockIndexHeader.slot_ne {h : BlockIndexHeader} {c m n : ℕ}
    (hlt : m < n) (hle : n < m + h.size) : h.slot c m ≠ h.slot c n := by
  intro heq
  have hmod : m ≡ n [MOD h.size] := Nat.ModEq.add_left_cancel' c heq
  have hdvd := (Nat.modEq_iff_dvd' hlt.le).mp hmod
  have := Nat.le_of_dvd (by omega) hdvd
  omega

/-! ## The slot of an index -/

/-- The slot has the entry of a block, with its base. -/
def Aligned (w B : ℕ) (h : BlockIndexHeader) (c k : ℕ) : Prop :=
  ∃ m, k = h.slot c m ∧ (h.entries k).base = m * B ∧ m * B < 2 ^ (w - 1)

/-- The look-up from any entry comes to the slot of the index. -/
theorem indexIndex_eq {w B : ℕ} (hB : 0 < B) (hw : 0 < w) {h : BlockIndexHeader}
    {c k i : ℕ} (hk : Aligned w B h c k) (hi : i < 2 ^ (w - 1)) :
    indexIndex w B h.size k (h.entries k).base (blockBase B i) =
      h.slot c (i / B) := by
  obtain ⟨m, rfl, hbase, hm⟩ := hk
  have hpow : 2 ^ w = 2 * 2 ^ (w - 1) := by
    rw [← Nat.pow_succ', Nat.succ_eq_add_one, Nat.sub_add_cancel hw]
  have hle : i / B * B ≤ i := Nat.div_mul_le_self i B
  have hsigned : (SizeT.bits w).signed
      ((SizeT.bits w).sub (i / B * B) (m * B)) =
        ((i / B : ℕ) : ℤ) * B - (m : ℤ) * B := by
    rw [SizeT.sub, SizeT.signed]
    have hi' : i / B * B < 2 ^ (w - 1) := hle.trans_lt hi
    generalize hx : i / B * B = x at hi'
    generalize hy : m * B = y at hm
    rw [← Nat.cast_mul, ← Nat.cast_mul, hx, hy]
    rcases Nat.lt_or_ge x y with hlt | hge
    · rw [Nat.mod_eq_of_lt (by omega), if_neg (by omega)]
      omega
    · rw [show x + 2 ^ w - y = x - y + 2 ^ w by omega, Nat.add_mod_right,
        Nat.mod_eq_of_lt (by omega), if_pos (by omega)]
      omega
  rw [indexIndex, hbase, blockBase]
  simp only [hsigned]
  rw [← sub_mul, Int.mul_tdiv_cancel _ (by omega)]
  generalize i / B = n
  have hsum : ((c + m : ℕ) : ℤ) + ((n : ℤ) - m) = ((c + n : ℕ) : ℤ) := by omega
  rw [BlockIndexHeader.slot, Int.natCast_mod, Int.emod_add_emod, hsum,
    ← Int.natCast_mod, Int.toNat_natCast, BlockIndexHeader.slot]

namespace BlockIndexes

variable {w B : ℕ} {X : BlockIndexes} {c lo x : ℕ} {order : List ℕ}

/-! ## The producer's operations -/

@[simp] theorem header_addEntry (base : ℕ) :
    (X.addEntry base x).header = { X.header with
      entries := Function.update X.header.entries X.prBlockIndexFront
        ⟨base, x⟩ } := by
  simp [header, addEntry]

@[simp] theorem header_publish : X.publish.header = { X.header with
    front := (X.prBlockIndexFront + X.header.size - 1) % X.header.size } := by
  simp [header, publish]

theorem header_newBlockIndex (n : ℕ) : (X.newBlockIndex w n).header = {
    size := 2 * X.header.size
    front := (SizeT.bits w).sub n 1
    entries := fun j =>
      if j < X.prBlockIndexSlotsUsed then
        X.header.entries ((X.prBlockIndexFront + X.header.size -
          X.prBlockIndexSlotsUsed + j) % X.header.size)
      else ⟨0, 0⟩ } := by
  rw [header, newBlockIndex]
  exact Function.update_self _ _ _

/-! ## The window -/

/-- The array shows the blocks `order`, of which the first one has the number
`lo`. -/
structure Window (B : ℕ) (X : BlockIndexes) (c lo : ℕ) (order : List ℕ) :
    Prop where
  used : X.prBlockIndexSlotsUsed = order.length
  le_size : order.length ≤ X.header.size
  pos : 0 < X.header.size
  first : order = [] → lo = 0
  front : X.prBlockIndexFront = X.header.slot c (lo + order.length)
  entries : ∀ j x, order[j]? = some x →
    X.header.entries (X.header.slot c (lo + j)) = ⟨(lo + j) * B, x⟩

theorem window_new {initialSize : ℕ} (hpos : 0 < initialSize) :
    Window B (.new w initialSize) 0 0 [] where
  used := rfl
  le_size := Nat.zero_le _
  pos := hpos
  first _ := rfl
  front := (Nat.zero_mod _).symm
  entries j x hx := by cases hx

/-- The entry of the next block, in a slot that no entry of the others has. -/
theorem Window.entries_addEntry (h : Window B X c lo order) {lo' j y : ℕ}
    (hlt : lo + order.length < lo' + X.header.size) (hj : lo' ≤ lo + j)
    (hy : (order ++ [x])[j]? = some y) :
    (X.addEntry ((lo + order.length) * B) x).header.entries
      (X.header.slot c (lo + j)) = ⟨(lo + j) * B, y⟩ := by
  rw [header_addEntry]
  rcases Nat.lt_trichotomy j order.length with hless | rfl | hgt
  · rw [List.getElem?_append_left hless] at hy
    change Function.update _ _ _ _ = _
    rw [Function.update_of_ne, h.entries j y hy]
    rw [h.front]
    exact BlockIndexHeader.slot_ne (by omega) (by omega)
  · rw [List.getElem?_concat_length] at hy
    cases hy
    change Function.update _ _ _ _ = _
    rw [h.front, Function.update_self]
  · rw [List.getElem?_eq_none (by
      rw [List.length_append, List.length_singleton]
      omega)] at hy
    cases hy

theorem Window.front_addEntry (h : Window B X c lo order) (base : ℕ) :
    (X.addEntry base x).prBlockIndexFront =
      X.header.slot c (lo + order.length + 1) := by
  change (X.prBlockIndexFront + 1) % X.header.size = _
  rw [h.front, BlockIndexHeader.slot, BlockIndexHeader.slot, Nat.mod_add_mod,
    Nat.add_assoc c]

/-- The first block is the next one again. -/
theorem Window.reuse (h : Window B X c lo (x :: order)) :
    Window B (X.addEntry ((lo + (order.length + 1)) * B) x) c (lo + 1)
      (order ++ [x]) := by
  have hle := h.le_size
  rw [List.length_cons] at hle
  refine ⟨?_, ?_, ?_, fun hnil => ?_, ?_, fun j y hy => ?_⟩
  · rw [List.length_append]
    exact h.used
  · rw [header_addEntry, List.length_append]
    exact hle
  · rw [header_addEntry]
    exact h.pos
  · simp at hnil
  · rw [header_addEntry, List.length_append, List.length_singleton]
    have hfront := h.front_addEntry (x := x) ((lo + (order.length + 1)) * B)
    rw [List.length_cons] at hfront
    rw [hfront]
    exact congrArg _ (by omega)
  · have hlt : lo + (x :: order).length < lo + 1 + X.header.size := by
      rw [List.length_cons]
      omega
    have hentry := h.entries_addEntry (x := x) (j := j + 1) hlt (by omega) hy
    rw [List.length_cons] at hentry
    rw [Nat.add_assoc lo 1 j, Nat.add_comm 1 j]
    rw [header_addEntry] at hentry ⊢
    exact hentry

/-- A block is put in behind the others. -/
theorem Window.insert (h : Window B X c lo order)
    (hroom : order.length < X.header.size) :
    Window B (({ X with
      prBlockIndexSlotsUsed := X.prBlockIndexSlotsUsed + 1 } :
        BlockIndexes).addEntry ((lo + order.length) * B) x) c lo
      (order ++ [x]) := by
  refine ⟨?_, ?_, ?_, fun hnil => ?_, ?_, fun j y hy => ?_⟩
  · rw [List.length_append]
    exact congrArg (· + 1) h.used
  · rw [header_addEntry, List.length_append]
    exact hroom
  · rw [header_addEntry]
    exact h.pos
  · simp at hnil
  · rw [header_addEntry, List.length_append, List.length_singleton,
      ← Nat.add_assoc]
    exact h.front_addEntry (x := x) ((lo + order.length) * B)
  · have hentry := h.entries_addEntry (x := x) (by omega)
      (Nat.le_add_right lo j) hy
    rw [header_addEntry] at hentry ⊢
    exact hentry

/-- A full array is copied to one of twice the size. -/
theorem Window.grow (h : Window B X c lo order)
    (hfull : X.prBlockIndexSlotsUsed = X.header.size) (n : ℕ) :
    ∃ c', Window B (X.newBlockIndex w n) c' lo order ∧
      ∀ j ≤ order.length,
        (X.newBlockIndex w n).header.slot c' (lo + j) = j := by
  -- the first block is put in slot 0
  have hlen : order.length = X.header.size := h.used.symm.trans hfull
  have hpos := h.pos
  have hslot : ∀ j ≤ order.length, (X.newBlockIndex w n).header.slot
      (2 * X.header.size - lo % (2 * X.header.size)) (lo + j) = j := by
    intro j hj
    rw [header_newBlockIndex, BlockIndexHeader.slot]
    have hmod := Nat.mod_lt lo (show 0 < 2 * X.header.size by omega)
    have hdiv := Nat.div_add_mod lo (2 * X.header.size)
    have hsum : 2 * X.header.size - lo % (2 * X.header.size) + (lo + j) =
        j + 2 * X.header.size * (lo / (2 * X.header.size) + 1) := by
      rw [Nat.mul_add]
      omega
    rw [hsum]
    change (j + 2 * X.header.size * _) % (2 * X.header.size) = j
    rw [Nat.add_mul_mod_self_left]
    exact Nat.mod_eq_of_lt (by omega)
  refine ⟨2 * X.header.size - lo % (2 * X.header.size), ⟨h.used, ?_, ?_,
    h.first, ?_, fun j x hx => ?_⟩, hslot⟩
  · rw [header_newBlockIndex]
    change order.length ≤ 2 * X.header.size
    omega
  · rw [header_newBlockIndex]
    change 0 < 2 * X.header.size
    omega
  · rw [hslot _ le_rfl]
    exact h.used
  · obtain ⟨hj, -⟩ := List.getElem?_eq_some_iff.mp hx
    rw [hslot j hj.le, header_newBlockIndex]
    change (if _ then _ else _) = _
    rw [if_pos (h.used ▸ hj), ← h.entries j x hx, h.front, h.used, hlen]
    congr 1
    rw [BlockIndexHeader.slot, BlockIndexHeader.slot, Nat.add_sub_cancel,
      Nat.mod_add_mod, show c + (lo + X.header.size) + j =
        c + (lo + j) + X.header.size by omega, Nat.add_mod_right]

/-- The entry that the new array exposes. -/
theorem Window.aligned_grow {n : ℕ}
    (h : Window B (X.newBlockIndex w n) c lo order)
    (hslot : ∀ j ≤ order.length,
      (X.newBlockIndex w n).header.slot c (lo + j) = j) (hn : 0 < n)
    (hle : n ≤ order.length) (hB : 0 < B)
    (hlt : (lo + order.length) * B < 2 ^ (w - 1)) :
    Aligned w B (X.newBlockIndex w n).header c
      (X.newBlockIndex w n).header.front := by
  obtain ⟨j, rfl⟩ := Nat.exists_eq_succ_of_ne_zero hn.ne'
  have hself : lo + order.length ≤ (lo + order.length) * B :=
    Nat.le_mul_of_pos_right _ hB
  have hpow : 2 ^ (w - 1) ≤ 2 ^ w :=
    Nat.pow_le_pow_right Nat.two_pos (Nat.sub_le w 1)
  have hfront : (X.newBlockIndex w j.succ).header.front = j := by
    rw [header_newBlockIndex]
    exact SizeT.sub_of_fits (SizeT.fits_bits.mpr (by omega)) (by omega)
  have hentry := h.entries j _ (List.getElem?_eq_getElem (by omega))
  rw [hslot j (by omega)] at hentry
  refine ⟨lo + j, ?_, ?_, ?_⟩
  · rw [hfront, hslot j (by omega)]
  · rw [hfront]
    exact congrArg BlockIndexEntry.base hentry
  · exact (Nat.mul_le_mul_right B (by omega)).trans_lt hlt

theorem Window.publish (h : Window B X c lo order) :
    Window B X.publish c lo order := by
  refine ⟨h.used, ?_, ?_, h.first, ?_, ?_⟩
  · rw [header_publish]
    exact h.le_size
  · rw [header_publish]
    exact h.pos
  · rw [header_publish]
    exact h.front
  · rw [header_publish]
    exact h.entries

/-- The slot of the last block. -/
theorem Window.aligned_publish (h : Window B X c lo order) (hne : order ≠ [])
    (hlt : (lo + order.length) * B ≤ 2 ^ (w - 1)) (hB : 0 < B) :
    Aligned w B X.publish.header c X.publish.header.front := by
  obtain ⟨n, hn⟩ := Nat.exists_eq_succ_of_ne_zero
    (fun hzero => hne (List.length_eq_zero_iff.mp hzero))
  have hpos := h.pos
  have hless : n < order.length := by omega
  have hlast := List.getElem?_eq_getElem hless
  have hfront : X.publish.header.front = X.header.slot c (lo + n) := by
    rw [header_publish]
    change (X.prBlockIndexFront + X.header.size - 1) % X.header.size = _
    rw [h.front, hn, BlockIndexHeader.slot, BlockIndexHeader.slot,
      Nat.add_sub_assoc hpos, Nat.mod_add_mod,
      show c + (lo + n.succ) + (X.header.size - 1) =
        c + (lo + n) + X.header.size by omega, Nat.add_mod_right]
  refine ⟨lo + n, ?_, ?_, ?_⟩
  · rw [hfront, header_publish]
    rfl
  · rw [hfront, header_publish]
    exact congrArg BlockIndexEntry.base (h.entries n _ hlast)
  · rw [hn, Nat.add_succ, Nat.succ_mul] at hlt
    omega

end BlockIndexes
end Moodycamel
end ConcurrentQueues
