import ConcurrentQueues.Moodycamel.Dealing
import ConcurrentQueues.Moodycamel.Explicit
import ConcurrentQueues.Support.Below

/-!
# Blocks that are used again
-/

namespace ConcurrentQueues

universe u v

namespace Moodycamel
namespace Explicit

open Bulk

variable {ι : Type v} {T : Type u}

/-! ## Whole blocks -/

/-- Where the last of the blocks ends that `n` elements begin. -/
def roundUp (BLOCK_SIZE n : ℕ) : ℕ :=
  (n + (BLOCK_SIZE - 1)) / BLOCK_SIZE * BLOCK_SIZE

section Words

variable {w B n m i : ℕ}

theorem lt_blockBase (hB : 0 < B) (i : ℕ) : i < blockBase B i + B := by
  rw [blockBase]
  exact Nat.lt_div_mul_add hB

theorem dvd_roundUp (B n : ℕ) : B ∣ roundUp B n :=
  Nat.dvd_mul_left _ _

theorem le_roundUp (hB : 0 < B) (n : ℕ) : n ≤ roundUp B n := by
  have hmod := Nat.div_add_mod' (n + (B - 1)) B
  have hlt := Nat.mod_lt (n + (B - 1)) hB
  rw [roundUp]
  omega

theorem roundUp_lt (hB : 0 < B) (n : ℕ) : roundUp B n < n + B := by
  have hle := Nat.div_mul_le_self (n + (B - 1)) B
  rw [roundUp]
  omega

theorem roundUp_mono (h : n ≤ m) : roundUp B n ≤ roundUp B m :=
  Nat.mul_le_mul_right _ (Nat.div_le_div_right (by omega))

/-- There is one multiple between an index and the block after it. -/
theorem roundUp_eq (hB : 0 < B) (hdvd : B ∣ m) (hle : n ≤ m) (hlt : m < n + B) :
    roundUp B n = m := by
  obtain ⟨k, rfl⟩ := hdvd
  rw [roundUp, Nat.mul_comm B k]
  congr 1
  apply Nat.div_eq_of_lt_le
  · rw [Nat.mul_comm] at hlt
    omega
  · rw [Nat.add_mul, Nat.one_mul]
    rw [Nat.mul_comm] at hle
    omega

theorem roundUp_le (hB : 0 < B) (hdvd : B ∣ m) (hle : n ≤ m) :
    roundUp B n ≤ m := by
  have hself : roundUp B m = m := roundUp_eq hB hdvd le_rfl (by omega)
  exact hself ▸ roundUp_mono hle

theorem roundUp_succ (hB : 0 < B) (n : ℕ) :
    roundUp B (n + 1) = blockBase B n + B := by
  have hmod := Nat.div_add_mod' n B
  have hlt := Nat.mod_lt n hB
  have hle := blockBase_le B n
  rw [blockBase] at hle ⊢
  exact roundUp_eq hB (Nat.dvd_add (Nat.dvd_mul_left _ _) (Nat.dvd_refl B))
    (by omega) (by omega)

theorem roundUp_zero (hB : 0 < B) : roundUp B 0 = 0 :=
  roundUp_eq hB (Nat.dvd_zero B) le_rfl (by omega)

/-- The start of the last block that `n` elements begin, as a word. -/
theorem add_blockBase (hB : 0 < B) (hw : 0 < w) (hdvd : B ∣ 2 ^ (w - 1))
    (hn : n ≤ 2 ^ (w - 1)) :
    (SizeT.bits w).add (blockBase B ((SizeT.bits w).sub n 1)) B =
      roundUp B n := by
  have hpow : 2 ^ w = 2 * 2 ^ (w - 1) := by
    rw [← Nat.pow_succ', Nat.succ_eq_add_one, Nat.sub_add_cancel hw]
  have hpos := Nat.two_pow_pos (w - 1)
  cases n with
  | zero =>
      have hback : (SizeT.bits w).sub 0 1 = 2 ^ w - 1 := by
        rw [SizeT.sub, Nat.zero_add]
        exact Nat.mod_eq_of_lt (by omega)
      have hround : roundUp B (2 ^ w) = 2 ^ w :=
        roundUp_eq hB (hpow ▸ Dvd.dvd.mul_left hdvd 2) le_rfl (by omega)
      have hsucc := roundUp_succ hB (2 ^ w - 1)
      rw [Nat.sub_add_cancel (by omega), hround] at hsucc
      rw [hback, roundUp_zero hB, SizeT.add, SizeT.ofNat_bits, ← hsucc,
        Nat.mod_self]
  | succ n =>
      have hle := roundUp_le hB hdvd hn
      have hback : (SizeT.bits w).sub (n + 1) 1 = n :=
        SizeT.sub_of_fits (SizeT.fits_bits.mpr (by omega)) (by omega)
      rw [roundUp_succ hB] at hle ⊢
      rw [hback]
      exact SizeT.add_of_fits (SizeT.fits_bits.mpr (by omega))

/-- The start of the new block behind `count` others. -/
theorem newBase_eq (hB : 0 < B) (hw : 0 < w) (hdvd : B ∣ 2 ^ (w - 1))
    (hn : n ≤ 2 ^ (w - 1)) {count : ℕ}
    (hfit : roundUp B n + count * B < 2 ^ w) :
    newBase w B n count = roundUp B n + count * B := by
  have hfirst := add_blockBase hB hw hdvd hn
  rw [SizeT.add, SizeT.ofNat_bits] at hfirst
  rw [newBase, SizeT.add, SizeT.ofNat_bits, Nat.add_mul, Nat.one_mul,
    Nat.add_comm (count * B), ← Nat.add_assoc, Nat.add_mod, hfirst,
    Nat.mod_eq_of_lt ((Nat.le_add_left _ _).trans_lt hfit),
    Nat.mod_eq_of_lt hfit]

/-- Words that are a block ahead are as far apart. -/
theorem sub_of_add {a b c d : ℕ} (ha : a < 2 ^ w) (hb : b < 2 ^ w)
    (hB : B ≤ 2 ^ w) (hc : (SizeT.bits w).add a B = c)
    (hd : (SizeT.bits w).add b B = d) (hle : d ≤ c) :
    (SizeT.bits w).sub a b = c - d := by
  have hwrap : ∀ {x}, x < 2 ^ w → (SizeT.bits w).add x B = x + B ∨
      (SizeT.bits w).add x B + 2 ^ w = x + B := by
    intro x hx
    rw [SizeT.add, SizeT.ofNat_bits]
    rcases Nat.lt_or_ge (x + B) (2 ^ w) with hlt | hge
    · exact .inl (Nat.mod_eq_of_lt hlt)
    · rw [Nat.mod_eq_sub_mod hge, Nat.mod_eq_of_lt (by omega)]
      omega
  have hclt : c < 2 ^ w := hc ▸ Nat.mod_lt _ (Nat.two_pow_pos w)
  have hsum : a + 2 ^ w - b = c - d ∨ a + 2 ^ w - b = c - d + 2 ^ w := by
    rcases hwrap ha with h | h <;> rcases hwrap hb with h' | h' <;> omega
  rw [SizeT.sub]
  rcases hsum with h | h
  · rw [h, Nat.mod_eq_of_lt (by omega)]
  · rw [h, Nat.add_mod_right, Nat.mod_eq_of_lt (by omega)]

/-- An enqueue needs the blocks that its elements begin. -/
theorem blockBaseDiff_eq (hB : 0 < B) (hw : 0 < w) (hdvd : B ∣ 2 ^ (w - 1))
    (hn : n + m ≤ 2 ^ (w - 1)) :
    blockBaseDiff w B n m = roundUp B (n + m) - roundUp B n := by
  have hpow : 2 ^ w = 2 * 2 ^ (w - 1) := by
    rw [← Nat.pow_succ', Nat.succ_eq_add_one, Nat.sub_add_cancel hw]
  have hpos := Nat.two_pow_pos (w - 1)
  have hadd : (SizeT.bits w).add n m = n + m :=
    SizeT.add_of_fits (SizeT.fits_bits.mpr (by omega))
  have hlt : ∀ x, blockBase B ((SizeT.bits w).sub x 1) < 2 ^ w := fun x =>
    (blockBase_le B _).trans_lt (sub_lt w x 1)
  rw [blockBaseDiff, hadd]
  exact sub_of_add (hlt _) (hlt _)
    ((Nat.le_of_dvd hpos hdvd).trans (by omega))
    (add_blockBase hB hw hdvd hn) (add_blockBase hB hw hdvd (by omega))
    (roundUp_mono (by omega))

end Words

/-! ## The state of the blocks -/

namespace Shared

variable (q : Shared ofMap ι T)

/-- Where the element of `index` lies, by the index that keeps all entries. -/
def place (BLOCK_SIZE index : ℕ) : ℕ × ℕ :=
  (q.blockIndex (blockBase BLOCK_SIZE index), index % BLOCK_SIZE)

/-- The next `count` blocks are used, and the index has their entries. -/
def publish (w BLOCK_SIZE startTailIndex count : ℕ) :
    Shared ofMap ι T :=
  { q.advance count with
    blockIndex := (complete w BLOCK_SIZE).publish startTailIndex
      (q.ring.take count) q.blockIndex }

end Shared

/-- The flag of a place. -/
def flagOf (B : ℕ) (place : ℕ × ℕ) : Loc :=
  .emptyFlag place.1 (B - 1 - place.2)

theorem flagOf_inj {B : ℕ} {place place' : ℕ × ℕ} (h : place.2 < B)
    (h' : place'.2 < B) (heq : flagOf B place = flagOf B place') :
    place = place' := by
  simp only [flagOf, Loc.emptyFlag.injEq] at heq
  ext
  · exact heq.1
  · omega

/-- Whoever looks at the flag finds it unset. -/
def Unset (mem : Memory ι T) (t : ι) (a : Loc) : Prop :=
  ∀ k msg, (mem.view t).seen a ≤ k → (mem.msgs a)[k]? = some msg → msg.val = 0

/-- Whoever finds the flag set and takes over what its message tells knows of
all accesses to the place. -/
def Tells (mem : Memory ι T) (t : ι) (a : Loc) (place : ℕ × ℕ) : Prop :=
  ∀ k msg, (mem.view t).seen a ≤ k → (mem.msgs a)[k]? = some msg →
    msg.val ≠ 0 → mem.Covered place (mem.view t ⊔ msg.view)

/-- The blocks hold the elements of the indexes that are `live`, with a place
for each index below `opened`.  The place of an index that has been made has
what was put into the place of its own, and its flag is unset. -/
structure Storage (B : ℕ) (producer : ι) (made opened : ℕ) (live : ℕ → Prop)
    (q : Shared ofMap ι T) (mem : Moodycamel.Memory ι T) : Prop where
  made_le : made ≤ opened
  live_lt : ∀ i, live i → i < opened
  live_of_le : ∀ i, made ≤ i → i < opened → live i
  apart : ∀ i j, live i → live j → q.place B i = q.place B j → i = j
  inRing : ∀ i, live i → (q.place B i).1 ∈ q.ring
  nodup : q.ring.Nodup
  untouched : ∀ x, x ∉ q.ring → ∀ off, (q.mem.cells (x, off)).wrote = none
  unread : ∀ place u, (q.mem.cells place).reads u = 0
  cells : ∀ i, live i → i < made → q.mem.cells (q.place B i) = mem.cells i
  spare : ∀ i, made ≤ i → i < opened →
    q.mem.Covered (q.place B i) (q.mem.view producer)
  unset : ∀ i, live i → Unset q.mem producer (flagOf B (q.place B i))
  tells : ∀ place, place.2 < B →
    Tells q.mem producer (flagOf B place) place

section Storage

variable {B : ℕ} {producer t : ι} {made opened : ℕ} {live live' : ℕ → Prop}
  {q : Shared ofMap ι T} {mem mem' : Moodycamel.Memory ι T} {bmem : Memory ι T}

theorem covered_congr {m m' : Memory ι T} {place : ℕ × ℕ} {v v' : View Loc ι}
    (h : m.Covered place v) (hcell : m'.cells place = m.cells place)
    (hv : v ≤ v') : m'.Covered place v' := by
  rw [ViewMemory.Covered, hcell]
  exact h.mono hv

theorem Tells.mono {m m' : Memory ι T} {a : Loc} {place : ℕ × ℕ}
    (h : Tells m t a place) (hmsgs : m'.msgs a = m.msgs a)
    (hcell : m'.cells place = m.cells place) (hv : m.view t ≤ m'.view t) :
    Tells m' t a place := by
  intro k msg hk hmsg hval
  rw [hmsgs] at hmsg
  refine covered_congr (h k msg ((hv.1 a).trans hk) hmsg hval) hcell ?_
  exact View.sup_le (View.le_trans hv View.le_sup_left) View.le_sup_right

theorem Unset.mono {m m' : Memory ι T} {a : Loc} (h : Unset m t a)
    (hmsgs : m'.msgs a = m.msgs a) (hv : m.view t ≤ m'.view t) :
    Unset m' t a := by
  intro k msg hk hmsg
  rw [hmsgs] at hmsg
  exact h k msg ((hv.1 a).trans hk) hmsg

theorem place_snd_lt (hB : 0 < B) (i : ℕ) : (q.place B i).2 < B :=
  Nat.mod_lt i hB

theorem storage_new (hlive : ∀ i, ¬live i) :
    Storage B producer 0 0 live (.new (complete w B)) mem where
  made_le := le_rfl
  live_lt i hi := absurd hi (hlive i)
  live_of_le i _ hi := absurd hi (Nat.not_lt_zero i)
  apart i _ hi := absurd hi (hlive i)
  inRing i hi := absurd hi (hlive i)
  nodup := List.nodup_nil
  untouched _ _ _ := rfl
  unread _ _ := rfl
  cells i hi := absurd hi (hlive i)
  spare i _ hi := absurd hi (Nat.not_lt_zero i)
  unset i hi := absurd hi (hlive i)
  tells _ _ _ _ _ _ _ := ⟨trivial, fun _ => Nat.zero_le _⟩

/-- A step that accesses no place and no flag but by loads. -/
theorem Storage.learned (h : Storage B producer made opened live q mem)
    (hcells : bmem.cells = q.mem.cells)
    (hmsgs : ∀ x i, bmem.msgs (.emptyFlag x i) = q.mem.msgs (.emptyFlag x i))
    (hview : q.mem.view producer ≤ bmem.view producer)
    (hcells' : mem'.cells = mem.cells) :
    Storage B producer made opened live { q with mem := bmem } mem' where
  made_le := h.made_le
  live_lt := h.live_lt
  live_of_le := h.live_of_le
  apart := h.apart
  inRing := h.inRing
  nodup := h.nodup
  untouched := by simpa only [hcells] using h.untouched
  unread := by simpa only [hcells] using h.unread
  cells := by
    simp only [hcells, hcells']
    exact h.cells
  spare i hi hlt := covered_congr (h.spare i hi hlt) (congrFun hcells _) hview
  unset i hi := (h.unset i hi).mono (hmsgs _ _) hview
  tells place hplace :=
    (h.tells place hplace).mono (hmsgs _ _) (congrFun hcells _) hview

/-- Fewer indexes are live. -/
theorem Storage.shrink (h : Storage B producer made opened live q mem)
    (hsub : ∀ i, live' i → live i)
    (hfresh : ∀ i, made ≤ i → i < opened → live' i) :
    Storage B producer made opened live' q mem where
  made_le := h.made_le
  live_lt i hi := h.live_lt i (hsub i hi)
  live_of_le := hfresh
  apart i j hi hj := h.apart i j (hsub i hi) (hsub j hj)
  inRing i hi := h.inRing i (hsub i hi)
  nodup := h.nodup
  untouched := h.untouched
  unread := h.unread
  cells i hi := h.cells i (hsub i hi)
  spare := h.spare
  unset i hi := h.unset i (hsub i hi)
  tells := h.tells

variable [DecidableEq ι]

theorem getElem?_snoc {α : Type*} {l : List α} {x y : α} {k : ℕ}
    (h : (l ++ [x])[k]? = some y) : l[k]? = some y ∨ y = x := by
  rcases Nat.lt_or_ge k l.length with hlt | hge
  · exact .inl (List.getElem?_append_left hlt ▸ h)
  · rw [List.getElem?_append_right hge] at h
    exact .inr (List.mem_singleton.mp (List.mem_of_getElem? h))

/-- A message of a flag, of which a message that sets it tells all accesses to
its place. -/
theorem Storage.post (h : Storage B producer made opened live q mem)
    (hB : 0 < B) {place : ℕ × ℕ} (hplace : place.2 < B) {msg : Msg Loc ι}
    (hunset : ∀ i, live i → q.place B i = place → msg.val = 0)
    (htells : msg.val ≠ 0 →
      q.mem.Covered place (q.mem.view producer ⊔ msg.view)) :
    Storage B producer made opened live
      { q with mem := q.mem.post t (flagOf B place) msg } mem := by
  have hview : q.mem.view producer ≤
      (q.mem.post t (flagOf B place) msg).view producer :=
    ViewMemory.le_post
  have hother : ∀ place', place'.2 < B → place' ≠ place →
      (q.mem.post t (flagOf B place) msg).msgs (flagOf B place') =
        q.mem.msgs (flagOf B place') := fun place' hplace' hne =>
    ViewMemory.post_msgs_of_ne fun heq => hne (flagOf_inj hplace' hplace heq)
  have hold : ∀ (k : ℕ) (msg' : Msg Loc ι),
      ((q.mem.post t (flagOf B place) msg).msgs (flagOf B place))[k]? =
        some msg' → (q.mem.msgs (flagOf B place))[k]? = some msg' ∨
          msg' = msg := by
    intro k msg' hmsg'
    rw [ViewMemory.post_msgs_self] at hmsg'
    exact getElem?_snoc hmsg'
  refine { h with
    spare := fun i hi hlt => covered_congr (h.spare i hi hlt) rfl hview
    unset := fun i hi => ?_
    tells := fun place' hplace' => ?_ }
  · change Unset _ producer (flagOf B (q.place B i))
    by_cases heq : q.place B i = place
    · intro k msg' hk hmsg'
      rw [heq] at hk hmsg'
      rcases hold k msg' hmsg' with hmsg' | rfl
      · refine h.unset i hi k msg' ?_ (heq ▸ hmsg')
        exact (hview.1 _).trans (heq ▸ hk)
      · exact hunset i hi heq
    · exact (h.unset i hi).mono (hother _ (place_snd_lt hB i) heq) hview
  · by_cases heq : place' = place
    · subst heq
      intro k msg' hk hmsg' hval
      rcases hold k msg' hmsg' with hmsg' | rfl
      · refine covered_congr (h.tells place' hplace' k msg'
          ((hview.1 _).trans hk) hmsg' hval) rfl ?_
        exact View.sup_le (View.le_trans hview View.le_sup_left)
          View.le_sup_right
      · refine covered_congr (htells hval) rfl ?_
        exact View.sup_le (View.le_trans hview View.le_sup_left)
          View.le_sup_right
    · exact (h.tells place' hplace').mono (hother place' hplace' heq) rfl hview

/-- An access to the place of a live index, which is made by now. -/
theorem Storage.write (h : Storage B producer made opened live q mem)
    {made' i : ℕ} {d : Option T} (hi : live i) (hlt : i < made')
    (hle : made ≤ made') (hle' : made' ≤ opened)
    (hold : ∀ j < made', j ≠ i → j < made)
    (hcell : (q.mem.write t (q.place B i) d).cells (q.place B i) =
      mem'.cells i)
    (hcells : ∀ j, j ≠ i → mem'.cells j = mem.cells j) :
    Storage B producer made' opened live
      { q with mem := q.mem.write t (q.place B i) d } mem' := by
  have hview : q.mem.view producer ≤
      (q.mem.write t (q.place B i) d).view producer :=
    ViewMemory.le_write
  have hother : ∀ {place}, place ≠ q.place B i →
      (q.mem.write t (q.place B i) d).cells place = q.mem.cells place :=
    fun hne => ViewMemory.write_cells_of_ne hne
  refine { h with
    made_le := hle'
    live_of_le := fun j hj => h.live_of_le j (hle.trans hj)
    untouched := fun x hx off => ?_
    unread := fun place u => ?_
    cells := fun j hj hjlt => ?_
    spare := fun j hj hjlt => ?_
    unset := fun j hj => (h.unset j hj).mono rfl hview
    tells := fun place hplace => ?_ }
  · change ((q.mem.write t (q.place B i) d).cells (x, off)).wrote = none
    rw [hother]
    · exact h.untouched x hx off
    · intro heq
      have hblock : x = (q.place B i).1 := congrArg Prod.fst heq
      exact hx (hblock ▸ h.inRing i hi)
  · change ((q.mem.write t (q.place B i) d).cells place).reads u = 0
    by_cases heq : place = q.place B i
    · subst heq
      rw [ViewMemory.write_cells_self]
      exact h.unread _ u
    · rw [hother heq]
      exact h.unread place u
  · change (q.mem.write t (q.place B i) d).cells (q.place B j) = _
    by_cases heq : j = i
    · subst heq
      exact hcell
    · rw [hother fun hsame => heq (h.apart j i hj hi hsame), hcells j heq]
      exact h.cells j hj (hold j hjlt heq)
  · have hj' := h.live_of_le j (hle.trans hj) hjlt
    exact covered_congr (h.spare j (hle.trans hj) hjlt)
      (hother fun hsame => absurd (h.apart j i hj' hi hsame) (by omega)) hview
  · by_cases heq : place = q.place B i
    · -- nobody finds its flag set
      subst heq
      intro k msg hk hmsg hval
      exact absurd (h.unset i hi k msg ((hview.1 _).trans hk) hmsg) hval
    · exact (h.tells place hplace).mono rfl (hother heq) hview

omit [DecidableEq ι] in
/-- The blocks are linked in another way, or there are more. -/
theorem Storage.relink (h : Storage B producer made opened live q mem)
    {ring : List ℕ} (hsub : ∀ x ∈ q.ring, x ∈ ring) (hnodup : ring.Nodup) :
    Storage B producer made opened live { q with ring := ring } mem :=
  { h with
    inRing := fun i hi => hsub _ (h.inRing i hi)
    nodup := hnodup
    untouched := fun x hx => h.untouched x fun hmem => hx (hsub x hmem) }

omit [DecidableEq ι] in
theorem Storage.insert (h : Storage B producer made opened live q mem)
    {count newBlock : ℕ} (hnew : newBlock ∉ q.ring) :
    Storage B producer made opened live (q.insert count newBlock) mem := by
  refine h.relink (fun x hx => ?_) ?_
  · rw [← List.take_append_drop count q.ring] at hx
    rw [List.mem_append, List.mem_cons]
    rcases List.mem_append.mp hx with hx | hx
    · exact .inl hx
    · exact .inr (.inr hx)
  · have hnodup := h.nodup
    rw [← List.take_append_drop count q.ring] at hnew hnodup
    exact List.nodup_middle.mpr (List.nodup_cons.mpr ⟨hnew, hnodup⟩)

omit [DecidableEq ι] in
theorem Storage.undo (h : Storage B producer made opened live q mem)
    (startBlock : Option ℕ) :
    Storage B producer made opened live (q.undo startBlock) mem :=
  h.relink (fun _ hx => List.mem_rotate.mpr hx) (List.nodup_rotate.mpr h.nodup)

end Storage

/-! ## New blocks -/

section Blocks

variable {w B : ℕ} {producer : ι} {made opened : ℕ} {live live' : ℕ → Prop}
  {q : Shared ofMap ι T} {mem : Moodycamel.Memory ι T}

theorem addBlocks_of_lt {blocks : List ℕ} {blockIndex : ℕ → ℕ} {base i : ℕ}
    (hi : i < base) (hfit : base + blocks.length * B < 2 ^ w) :
    addBlocks w B blockIndex base blocks i = blockIndex i := by
  induction blocks generalizing blockIndex base with
  | nil => rfl
  | cons block blocks ih =>
      rw [List.length_cons, Nat.add_mul, Nat.one_mul] at hfit
      have hadd : (SizeT.bits w).add base B = base + B :=
        SizeT.add_of_fits (SizeT.fits_bits.mpr (by omega))
      rw [addBlocks, hadd, ih (by omega) (by omega),
        Function.update_of_ne hi.ne]

theorem addBlocks_add {blocks : List ℕ} {blockIndex : ℕ → ℕ} {base k block : ℕ}
    (hB : 0 < B) (hblock : blocks[k]? = some block)
    (hfit : base + blocks.length * B < 2 ^ w) :
    addBlocks w B blockIndex base blocks (base + k * B) = block := by
  induction blocks generalizing blockIndex base k with
  | nil => cases hblock
  | cons first blocks ih =>
      rw [List.length_cons, Nat.add_mul, Nat.one_mul] at hfit
      have hadd : (SizeT.bits w).add base B = base + B :=
        SizeT.add_of_fits (SizeT.fits_bits.mpr (by omega))
      rw [addBlocks, hadd]
      cases k with
      | zero =>
          obtain rfl := Option.some.inj hblock
          rw [Nat.zero_mul, Nat.add_zero, addBlocks_of_lt (by omega) (by omega),
            Function.update_self]
      | succ k =>
          rw [Nat.add_mul, Nat.one_mul, Nat.add_comm (k * B), ← Nat.add_assoc]
          exact ih hblock (by omega)

/-- The start of a block, counted from the start of another. -/
theorem blockBase_add (hB : 0 < B) (hdvd : B ∣ opened) {i : ℕ}
    (hi : opened ≤ i) : blockBase B i = opened + (i - opened) / B * B := by
  obtain ⟨n, rfl⟩ := Nat.exists_eq_add_of_le hi
  obtain ⟨m, rfl⟩ := hdvd
  rw [blockBase, Nat.add_sub_cancel_left, Nat.mul_add_div hB, Nat.add_mul,
    Nat.mul_comm m B]

/-- A place that no live index has and that the producer knows all accesses
to. -/
def Free (B : ℕ) (producer : ι) (live : ℕ → Prop) (q : Shared ofMap ι T)
    (place : ℕ × ℕ) : Prop :=
  (∀ i, live i → q.place B i ≠ place) ∧
    q.mem.Covered place (q.mem.view producer)

theorem getElem?_ahead {n : ℕ} (h : n < q.ring.length) :
    q.ring[n]? = some (q.ahead n) := by
  rw [Shared.ahead, List.getD_eq_getElem?_getD, List.getElem?_eq_getElem h,
    Option.getD_some]

theorem ahead_inj (hnodup : q.ring.Nodup) {n m : ℕ} (hn : n < q.ring.length)
    (hm : m < q.ring.length) (heq : q.ahead n = q.ahead m) : n = m := by
  refine (List.getElem?_inj hn hnodup).mp ?_
  rw [getElem?_ahead hn, getElem?_ahead hm, heq]

variable {startTailIndex count : ℕ}

theorem getElem?_take_ahead {n : ℕ} (h : n < count)
    (hcount : count ≤ q.ring.length) :
    (q.ring.take count)[n]? = some (q.ahead n) := by
  rw [List.getElem?_take_of_lt h, getElem?_ahead (by omega)]

theorem ahead_mem_take {n : ℕ} (h : n < count)
    (hcount : count ≤ q.ring.length) : q.ahead n ∈ q.ring.take count :=
  List.mem_of_getElem? (getElem?_take_ahead h hcount)

theorem blockIndex_publish_of_lt
    (hbase : newBase w B startTailIndex 0 = opened)
    (hfit : opened + count * B < 2 ^ w) (hcount : count ≤ q.ring.length) {i : ℕ}
    (hi : i < opened) :
    (q.publish w B startTailIndex count).blockIndex i = q.blockIndex i := by
  change addBlocks _ _ _ _ _ _ = _
  rw [hbase]
  exact addBlocks_of_lt hi (by rwa [List.length_take, min_eq_left hcount])

theorem blockIndex_publish (hB : 0 < B)
    (hbase : newBase w B startTailIndex 0 = opened)
    (hfit : opened + count * B < 2 ^ w) (hcount : count ≤ q.ring.length) {k : ℕ}
    (hk : k < count) :
    (q.publish w B startTailIndex count).blockIndex (opened + k * B) =
      q.ahead k := by
  change addBlocks _ _ _ _ _ _ = _
  rw [hbase]
  exact addBlocks_add hB (getElem?_take_ahead hk hcount)
    (by rwa [List.length_take, min_eq_left hcount])

theorem place_publish_of_lt (hbase : newBase w B startTailIndex 0 = opened)
    (hfit : opened + count * B < 2 ^ w) (hcount : count ≤ q.ring.length) {i : ℕ}
    (hi : i < opened) :
    (q.publish w B startTailIndex count).place B i = q.place B i :=
  Prod.ext (blockIndex_publish_of_lt hbase hfit hcount
    ((blockBase_le B i).trans_lt hi)) rfl

theorem place_publish (hB : 0 < B) (hdvd : B ∣ opened)
    (hbase : newBase w B startTailIndex 0 = opened)
    (hfit : opened + count * B < 2 ^ w) (hcount : count ≤ q.ring.length) {i : ℕ}
    (hi : opened ≤ i) (hk : (i - opened) / B < count) :
    (q.publish w B startTailIndex count).place B i =
      (q.ahead ((i - opened) / B), i % B) := by
  refine Prod.ext ?_ rfl
  change (q.publish w B startTailIndex count).blockIndex (blockBase B i) = _
  rw [blockBase_add hB hdvd hi]
  exact blockIndex_publish hB hbase hfit hcount hk

/-- The next blocks, which are free and have their flags cleared, take the
indexes behind the last block. -/
theorem Storage.publish (h : Storage B producer made opened live q mem)
    (hB : 0 < B) (hdvd : B ∣ opened)
    (hbase : newBase w B startTailIndex 0 = opened)
    (hfit : opened + count * B < 2 ^ w) (hcount : count ≤ q.ring.length)
    (hfree : ∀ x ∈ q.ring.take count, ∀ off < B,
      Free B producer live q (x, off))
    (hunset : ∀ n < count, ∀ off < B,
      Unset q.mem producer (flagOf B (q.ahead n, off)))
    (hlive : ∀ i, live' i → i < opened + count * B ∧ (i < opened → live i))
    (hfresh : ∀ i, made ≤ i → i < opened + count * B → live' i) :
    Storage B producer made (opened + count * B) live'
      (q.publish w B startTailIndex count) mem := by
  have hplace := fun i =>
    place_publish_of_lt (q := q) (i := i) hbase hfit hcount
  -- an index is one of before or lies in a new block
  have hcases : ∀ i, live' i →
      (i < opened ∧ live i ∧
        (q.publish w B startTailIndex count).place B i = q.place B i) ∨
      opened ≤ i ∧ (i - opened) / B < count ∧
        (q.publish w B startTailIndex count).place B i =
          (q.ahead ((i - opened) / B), i % B) := by
    intro i hi
    obtain ⟨hlt, hold⟩ := hlive i hi
    rcases Nat.lt_or_ge i opened with hless | hge
    · exact .inl ⟨hless, hold hless, hplace i hless⟩
    · have hk : (i - opened) / B < count :=
        Nat.div_lt_of_lt_mul (by rw [Nat.mul_comm]; omega)
      exact .inr ⟨hge, hk, place_publish hB hdvd hbase hfit hcount hge hk⟩
  have hmod : ∀ i, i % B < B := fun i => Nat.mod_lt i hB
  have hnew : ∀ n < count, ∀ off < B, Free B producer live q (q.ahead n, off) :=
    fun n hn => hfree _ (ahead_mem_take hn hcount)
  refine ⟨h.made_le.trans (Nat.le_add_right _ _), fun i hi => (hlive i hi).1,
    hfresh, fun i j hi hj heq => ?_, fun i hi => ?_,
    List.nodup_rotate.mpr h.nodup, fun x hx => ?_, h.unread, fun i hi hlt => ?_,
    fun i hi hlt => ?_, fun i hi => ?_, h.tells⟩
  · rcases hcases i hi with ⟨-, hi', hpi⟩ | ⟨hi', hki, hpi⟩ <;>
      rcases hcases j hj with ⟨-, hj', hpj⟩ | ⟨hj', hkj, hpj⟩ <;>
      rw [hpi, hpj] at heq
    · exact h.apart i j hi' hj' heq
    · exact absurd heq ((hnew _ hkj _ (hmod j)).1 i hi')
    · exact absurd heq.symm ((hnew _ hki _ (hmod i)).1 j hj')
    · -- the same block, and the same place in it
      obtain ⟨hahead, hoff⟩ := Prod.mk.inj heq
      have hsame := ahead_inj h.nodup (hki.trans_le hcount)
        (hkj.trans_le hcount) hahead
      have hbi := blockBase_add hB hdvd hi'
      have hbj := blockBase_add hB hdvd hj'
      rw [hsame, ← hbj] at hbi
      rw [← Nat.div_add_mod' i B, ← Nat.div_add_mod' j B, hoff]
      exact congrArg (· + j % B) hbi
  · refine List.mem_rotate.mpr ?_
    rcases hcases i hi with ⟨-, hi', hpi⟩ | ⟨-, hk, hpi⟩ <;> rw [hpi]
    · exact h.inRing i hi'
    · exact List.mem_of_mem_take (ahead_mem_take hk hcount)
  · exact h.untouched x fun hmem => hx (List.mem_rotate.mpr hmem)
  · have hless := hlt.trans_le h.made_le
    rw [hplace i hless]
    exact h.cells i ((hlive i hi).2 hless) hlt
  · rcases hcases i (hfresh i hi hlt) with ⟨hless, -, hpi⟩ | ⟨-, hk, hpi⟩ <;>
      rw [hpi]
    · exact h.spare i hi hless
    · exact (hnew _ hk _ (hmod i)).2
  · rcases hcases i hi with ⟨-, hi', hpi⟩ | ⟨-, hk, hpi⟩ <;> rw [hpi]
    · exact h.unset i hi'
    · exact hunset _ hk _ (hmod i)

end Blocks

end Explicit
end Moodycamel
end ConcurrentQueues
