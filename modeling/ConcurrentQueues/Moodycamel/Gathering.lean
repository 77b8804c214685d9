import ConcurrentQueues.Moodycamel.Reuse

/-!
# An enqueue gathers its blocks

The producer takes the blocks ahead as long as they are empty, then new ones.
It clears their flags before it puts them behind the last block, and only then
are there places for the new elements.
-/

namespace ConcurrentQueues

universe u v

namespace Moodycamel
namespace Explicit

open Bulk

variable {ι : Type v} {T : Type u}

section Steps

variable [DecidableEq ι] {w B : ℕ} {t : ι} {pub pub' served : ℕ}
  {b : Moodycamel.State ι T} {s : State ofMap ι T} {q' : Shared ofMap ι T}
  {m' : Moodycamel.Memory ι T} {th : Moodycamel.Thread T}
  {th' : Thread ofMap ι T}
  {items : List T}
  {startBlock : Option ℕ} {startTailIndex blockBaseDiff count : ℕ}

theorem live_iff (hopened : roundUp B (reserved pub' th') =
      roundUp B (reserved pub (s.threads t)))
    (hold : ∀ i, ¬Owes i (s.threads t)) (hnew : ∀ i, ¬Owes i th') (i : ℕ) :
    Live B t pub' served (s.move t q' th').threads i ↔
      Live B t pub served s.threads i := by
  rw [Live, Live, Pool.move_threads_self, hopened]
  refine and_congr_right fun _ => or_congr_right (exists_congr fun u => ?_)
  by_cases hu : u = t
  · subst hu
    rw [Pool.move_threads_self]
    exact iff_of_false (hnew i) (hold i)
  · rw [Pool.move_threads_of_ne _ _ _ hu]

/-- A step of the producer that reserves no block and makes no access to a
place. -/
theorem Refines.produce (h : Refines B t pub served b s)
    (herase : erase th' = th) (hbelow : m'.Below .counter q'.mem)
    (hwf : q'.mem.WellFormed)
    (hsteady : Steady B t t pub pub' (s.threads t) th')
    (hold : ∀ i, ¬Owes i (s.threads t)) (hnew : ∀ i, ¬Owes i th')
    (hclears : Clears B q' t th')
    (hstorage : Stored B t pub served s.threads q' m')
    (hindex : q'.blockIndex = s.shared.blockIndex)
    (hcells : q'.mem.cells = s.shared.mem.cells)
    (hview : ∀ u, s.shared.mem.view u ≤ q'.mem.view u)
    (hworks : Works B t (Live B t pub served s.threads) pub' q' th') :
    Refines B t pub' served (b.move t m' th) (s.move t q' th') := by
  have hopened := hsteady
  rw [Steady, if_pos rfl] at hopened
  have hlive : Live B t pub' served (s.move t q' th').threads =
      Live B t pub served s.threads :=
    funext fun i => propext (live_iff hopened.2 hold hnew i)
  refine h.assemble herase hbelow hwf ?_ le_rfl (fun i hi => absurd hi (hnew i))
    (fun u i _ hi => absurd hi (hnew i)) hclears hview
    (fun u i _ _ => ⟨place_congr hindex i, congrFun hcells _⟩) ?_
  · rw [Stored, hlive, hsteady.made_eq, hsteady.opened_eq]
    exact hstorage
  · rw [hlive, Pool.move_threads_self]
    exact hworks

omit [DecidableEq ι] in
/-- The counters see nothing of the loops over blocks. -/
theorem seeking {pc : Enqueue T}
    (hpc : pc.startTailIndex? = some startTailIndex) (items : List T)
    (startBlock : Option ℕ) :
    erase (ι := ι) (.enqueue items startBlock () pc) =
        .enqueue items (.allocate startTailIndex) ∧
      made (ι := ι) pub (.enqueue items startBlock () pc) = pub ∧
      reserved (ι := ι) pub (.enqueue items startBlock () pc) = pub := by
  cases pc <;> cases hpc <;> exact ⟨rfl, rfl, rfl⟩

/-- A step in these loops. -/
theorem Refines.gather (h : Refines B t pub served b s)
    (hbelow : b.shared.Below .counter q'.mem) (hwf : q'.mem.WellFormed)
    {pc pc' : Enqueue T} (hth : s.threads t = .enqueue items startBlock () pc)
    (hpc : pc.startTailIndex? = some startTailIndex)
    (hpc' : pc'.startTailIndex? = some startTailIndex)
    (hstorage : Stored B t pub served s.threads q' b.shared)
    (hindex : q'.blockIndex = s.shared.blockIndex)
    (hcells : q'.mem.cells = s.shared.mem.cells)
    (hview : ∀ u, s.shared.mem.view u ≤ q'.mem.view u)
    (hworks : Works B t (Live B t pub served s.threads) pub q'
      (.enqueue items startBlock () pc')) :
    Refines B t pub served b
      (s.move t q' (.enqueue items startBlock () pc')) := by
  obtain ⟨herase, hmade, hreserved⟩ := seeking hpc (ι := ι) items startBlock
  obtain ⟨herase', hmade', hreserved'⟩ :=
    seeking hpc' (ι := ι) items startBlock
  have hsteady : Steady B t t pub pub (s.threads t)
      (.enqueue items startBlock () pc') := by
    rw [Steady, if_pos rfl, hth, hmade, hmade', hreserved, hreserved']
    exact ⟨rfl, rfl⟩
  refine (h.produce ?_ hbelow hwf hsteady (fun i hi => ?_) (fun i hi => hi)
    trivial hstorage hindex hcells hview hworks).silent
  · rw [h.threads, hth, herase, herase']
  · rw [hth] at hi
    exact hi

/-! ## The blocks ahead -/

omit [DecidableEq ι] in
theorem dvd_of_gathers {live : ℕ → Prop} {q : Shared ofMap ι T}
    (hg : Gathers B t live q items startBlock startTailIndex blockBaseDiff
      count) : B ∣ blockBaseDiff := by
  have hdvd := dvd_roundUp B (startTailIndex + items.length)
  rw [← hg.diff] at hdvd
  exact (Nat.dvd_add_right (Nat.dvd_add (dvd_roundUp B _)
    (Nat.dvd_mul_left _ _))).mp hdvd

omit [DecidableEq ι] in
/-- One block less is needed. -/
theorem sub_of_gathers {live : ℕ → Prop} {q : Shared ofMap ι T}
    (hg : Gathers B t live q items startBlock startTailIndex blockBaseDiff
      count) (hpos : 0 < blockBaseDiff)
    (hfit : roundUp B (startTailIndex + items.length) < 2 ^ w) :
    B ≤ blockBaseDiff ∧
      (SizeT.bits w).sub blockBaseDiff B = blockBaseDiff - B := by
  have hle := Nat.le_of_dvd hpos (dvd_of_gathers hg)
  have hdiff := hg.diff
  exact ⟨hle, SizeT.sub_of_fits (SizeT.fits_bits.mpr (by omega)) hle⟩

theorem Refines.reuse (h : Refines B t pub served b s)
    (hth : s.threads t = .enqueue items startBlock ()
      (.reuse startTailIndex blockBaseDiff count)) :
    Refines B t pub served b (s.move t s.shared (.enqueue items startBlock ()
      (if 0 < blockBaseDiff ∧ count < s.shared.ring.length
        then .isEmpty startTailIndex blockBaseDiff count 0 []
        else .allocate startTailIndex blockBaseDiff count))) := by
  have hg := h.works
  rw [hth] at hg
  refine h.gather h.below h.wf hth rfl (by split_ifs <;> rfl) h.storage rfl rfl
    (fun _ => View.le_refl _) ?_
  split_ifs with hcase
  · exact ⟨hg, hcase.1, hcase.2,
      fun off _ hlt => absurd hlt (Nat.not_lt_zero _)⟩
  · exact hg

/-- A flag that is found set belongs to no element. -/
theorem Refines.see (h : Refines B t pub served b s) {i k isSet : ℕ}
    {heard : List (Loc × ℕ)} {mem' : Memory ι T}
    (hth : s.threads t = .enqueue items startBlock ()
      (.isEmpty startTailIndex blockBaseDiff count i heard)) (hi : i < B)
    (hl : s.shared.mem.load t .relaxed
      (.emptyFlag (s.shared.ahead count) i) k = some (isSet, mem')) :
    Refines B t pub served b (s.move t { s.shared with mem := mem' }
      (.enqueue items startBlock () (if isSet = 0
        then .allocate startTailIndex blockBaseDiff count
        else .isEmpty startTailIndex blockBaseDiff count (i + 1)
          ((.emptyFlag (s.shared.ahead count) i, k) :: heard)))) := by
  have hworks := h.works
  rw [hth] at hworks
  obtain ⟨hg, hpos, hlt, hheard⟩ := hworks
  have hlearned := ViewMemory.learned_of_load hl
  have hu : Undisturbed B t (Live B t pub served s.threads)
      (Live B t pub served s.threads) s.shared
      { s.shared with mem := mem' } :=
    ⟨rfl, rfl, fun _ hi => hi, hlearned.view_le t,
      fun _ _ => congrFun hlearned.cells _,
      fun a k msg hmsg => by rwa [hlearned.msgs]⟩
  refine h.gather (h.below.load_right h.wf hl) (h.wf.load hl) hth rfl
    (by split_ifs <;> rfl) (h.storage.learned hlearned.cells
      (fun _ _ => congrFun hlearned.msgs _) (hlearned.view_le t) rfl) rfl
    hlearned.cells hlearned.view_le ?_
  split_ifs with hset
  · exact hu.gathers hg
  · refine ⟨hu.gathers hg, hpos, hlt, fun off hoff hless => ?_⟩
    rcases Nat.lt_succ_iff_lt_or_eq.mp hless with hless | rfl
    · obtain ⟨hapart, k', msg, hmem, hrest⟩ := hu.heard hheard off hoff hless
      exact ⟨hapart, k', msg, List.mem_cons_of_mem _ hmem, hrest⟩
    · -- the flag that has just been loaded
      obtain ⟨⟨hseen, -⟩, msg, hmsg, rfl, -⟩ :=
        ViewMemory.load_eq_some_iff.mp hl
      refine ⟨hu.apart fun j hj heq => hset ?_, k, msg, List.mem_cons_self,
        hu.msgs _ k msg hmsg, ?_⟩
      · have hunset := h.storage.unset j hj
        rw [heq] at hunset
        exact hunset k msg hseen hmsg
      · refine covered_congr
          (h.storage.tells (s.shared.ahead count, off) hoff k msg hseen hmsg
            hset) (congrFun hlearned.cells _) ?_
        exact View.sup_le (View.le_trans (hlearned.view_le t)
          View.le_sup_left) View.le_sup_right

/-- The block ahead is empty, and the fence tells of all accesses to its
places. -/
theorem Refines.found (h : Refines B t pub served b s) {i : ℕ}
    {heard : List (Loc × ℕ)}
    (hth : s.threads t = .enqueue items startBlock ()
      (.isEmpty startTailIndex blockBaseDiff count i heard)) (hi : ¬i < B)
    (hfit : roundUp B (startTailIndex + items.length) < 2 ^ w) :
    Refines B t pub served b (s.move t
      { s.shared with mem := s.shared.mem.acquireFence t heard }
      (.enqueue items startBlock () (.reuse startTailIndex
        ((SizeT.bits w).sub blockBaseDiff B) (count + 1)))) := by
  have hworks := h.works
  rw [hth] at hworks
  obtain ⟨hg, hpos, hlt, hheard⟩ := hworks
  have hlearned := ViewMemory.learned_acquireFence s.shared.mem t heard
  have hu : Undisturbed B t (Live B t pub served s.threads)
      (Live B t pub served s.threads) s.shared
      { s.shared with mem := s.shared.mem.acquireFence t heard } :=
    ⟨rfl, rfl, fun _ hi => hi, hlearned.view_le t,
      fun _ _ => congrFun hlearned.cells _,
      fun a k msg hmsg => by rwa [hlearned.msgs]⟩
  obtain ⟨hle, hsub⟩ := sub_of_gathers hg hpos hfit
  have hdiff := hg.diff
  refine h.gather (h.below.acquireFence_right h.wf heard) (hlearned.wf h.wf) hth
    rfl rfl (h.storage.learned hlearned.cells
      (fun _ _ => congrFun hlearned.msgs _) (hlearned.view_le t) rfl) rfl
    hlearned.cells hlearned.view_le
    ⟨hg.tail.congr rfl, fun hzero => absurd hzero (Nat.succ_ne_zero _), ?_,
      hlt, fun x hx off hoff => ?_⟩
  · rw [hsub, Nat.add_mul, Nat.one_mul]
    omega
  · rw [List.take_add_one, getElem?_ahead hlt] at hx
    rcases List.mem_append.mp hx with hx | hx
    · exact hu.free (hg.free x hx off hoff)
    · obtain rfl := List.mem_singleton.mp hx
      obtain ⟨hapart, k, msg, hmem, hmsg, hcovered⟩ :=
        hheard off hoff (by omega)
      refine ⟨hu.apart hapart, covered_congr hcovered
        (congrFun hlearned.cells _) ?_⟩
      exact View.sup_le (hlearned.view_le t)
        (ViewMemory.le_acquireFence hmem hmsg)

/-! ## New blocks -/

/-- A new block is put in, of which nobody knows. -/
theorem Refines.newBlock (h : Refines B t pub served b s) {newBlock : ℕ}
    (setAll : Bool)
    (hth : s.threads t = .enqueue items startBlock ()
      (.allocate startTailIndex blockBaseDiff count))
    (hpos : 0 < blockBaseDiff) (hnew : newBlock ∉ s.shared.ring)
    (hfit : roundUp B (startTailIndex + items.length) < 2 ^ w) :
    Refines B t pub served b (s.move t (s.shared.insert count newBlock)
      (.enqueue items startBlock () (if setAll
        then .setAllEmpty startTailIndex blockBaseDiff count 0
        else .allocate startTailIndex
          ((SizeT.bits w).sub blockBaseDiff B) (count + 1)))) := by
  have hg := h.works
  rw [hth] at hg
  obtain ⟨hle, hsub⟩ := sub_of_gathers hg hpos hfit
  have hdiff := hg.diff
  have hcount := hg.count_le
  have htake : (s.shared.insert count newBlock).ring.take (count + 1) =
      s.shared.ring.take count ++ [newBlock] := by
    change (s.shared.ring.take count ++
      newBlock :: s.shared.ring.drop count).take (count + 1) = _
    rw [List.take_append, List.length_take, min_eq_left hcount,
      Nat.add_sub_cancel_left, List.take_take, min_eq_right (Nat.le_succ _)]
    rfl
  have hg' : Gathers B t (Live B t pub served s.threads)
      (s.shared.insert count newBlock) items startBlock startTailIndex
      (blockBaseDiff - B) (count + 1) := by
    refine ⟨hg.tail.congr rfl, fun hzero => absurd hzero (Nat.succ_ne_zero _),
      ?_, ?_, fun x hx off hoff => ?_⟩
    · rw [Nat.add_mul, Nat.one_mul]
      omega
    · have hlen := congrArg List.length htake
      rw [List.length_take, List.length_append, List.length_take,
        min_eq_left hcount, List.length_singleton] at hlen
      exact min_eq_left_iff.mp hlen
    · rw [htake] at hx
      rcases List.mem_append.mp hx with hx | hx
      · exact hg.free x hx off hoff
      · obtain rfl := List.mem_singleton.mp hx
        refine ⟨fun i hi heq => hnew ?_, ?_⟩
        · have hblock : (s.shared.place B i).1 = x := congrArg Prod.fst heq
          exact hblock ▸ h.storage.inRing i hi
        · have hnone := h.storage.untouched x hnew off
          refine ⟨?_, fun u => ?_⟩
          · change View.Knows _ (s.shared.mem.cells (x, off)).wrote
            rw [hnone]
            trivial
          · exact (h.storage.unread (x, off) u).le.trans (Nat.zero_le _)
  have hstorage : Stored B t pub served s.threads
      (s.shared.insert count newBlock) b.shared := h.storage.insert hnew
  have hbelow : b.shared.Below .counter (s.shared.insert count newBlock).mem :=
    h.below
  refine h.gather hbelow h.wf hth rfl (by split_ifs <;> rfl) hstorage rfl rfl
    (fun _ => View.le_refl _) ?_
  split_ifs
  · exact ⟨hg', hle⟩
  · exact hsub.symm ▸ hg'

/-- A store of the producer to a flag of a block that it has gathered. -/
theorem Refines.store (h : Refines B t pub served b s) (hB : 0 < B)
    {pc pc' : Enqueue T} {x i v : ℕ} (hi : i < B)
    (hth : s.threads t = .enqueue items startBlock () pc)
    (hpc : pc.startTailIndex? = some startTailIndex)
    (hpc' : pc'.startTailIndex? = some startTailIndex)
    (hfree : Free B t (Live B t pub served s.threads) s.shared
      (x, B - 1 - i))
    (hworks : ∀ q', Undisturbed B t (Live B t pub served s.threads)
        (Live B t pub served s.threads) s.shared q' →
      q'.mem = s.shared.mem.store t .relaxed (.emptyFlag x i) v →
      Works B t (Live B t pub served s.threads) pub q'
        (.enqueue items startBlock () pc')) :
    Refines B t pub served b (s.move t { s.shared with
      mem := s.shared.mem.store t .relaxed (.emptyFlag x i) v }
        (.enqueue items startBlock () pc')) := by
  have hflag : Loc.emptyFlag x i = flagOf B (x, B - 1 - i) := by
    rw [flagOf, show B - 1 - (B - 1 - i) = i by omega]
  have hwrote : s.shared.mem.Wrote
      (s.shared.mem.store t .relaxed (.emptyFlag x i) v) t (.emptyFlag x i) v :=
    ViewMemory.wrote_store
  refine h.gather (h.below.post_right fun a => by simp) h.wf.store hth hpc
    hpc' ?_ rfl rfl (fun _ => ViewMemory.le_post) (hworks _ ?_ rfl)
  · rw [hflag]
    exact h.storage.post hB (by omega)
      (fun j hj heq => absurd heq (hfree.1 j hj)) fun _ =>
        hfree.2.mono View.le_sup_left
  · refine ⟨rfl, rfl, fun _ hi => hi, ViewMemory.le_post, fun _ _ => rfl,
      fun a k msg hmsg => ?_⟩
    by_cases ha : a = .emptyFlag x i
    · subst ha
      change ((s.shared.mem.store t _ _ _).msgs _)[k]? = _
      rw [ViewMemory.store_msgs_self, List.getElem?_append_left
        (List.getElem?_eq_some_iff.mp hmsg).1]
      exact hmsg
    · change ((s.shared.mem.store t _ _ _).msgs _)[k]? = _
      rwa [ViewMemory.store_msgs_of_ne ha]

theorem Refines.setAllEmpty (h : Refines B t pub served b s) (hB : 0 < B)
    {i : ℕ} (hth : s.threads t = .enqueue items startBlock ()
      (.setAllEmpty startTailIndex blockBaseDiff count i)) (hi : i < B) :
    Refines B t pub served b (s.move t { s.shared with
      mem := s.shared.mem.store t .relaxed
        (.emptyFlag (s.shared.ahead count) i) 1 }
        (.enqueue items startBlock ()
          (.setAllEmpty startTailIndex blockBaseDiff count (i + 1)))) := by
  have hworks := h.works
  rw [hth] at hworks
  obtain ⟨hg, hle⟩ := hworks
  have hmem := ahead_mem_take (Nat.lt_succ_self count) hg.count_le
  exact h.store hB hi hth rfl rfl (hg.free _ hmem _ (by omega))
    fun q' hu _ => ⟨hu.gathers hg, hle⟩

theorem Refines.allSet (h : Refines B t pub served b s) {i : ℕ}
    (hth : s.threads t = .enqueue items startBlock ()
      (.setAllEmpty startTailIndex blockBaseDiff count i))
    (hfit : roundUp B (startTailIndex + items.length) < 2 ^ w) :
    Refines B t pub served b (s.move t s.shared (.enqueue items startBlock ()
      (.allocate startTailIndex ((SizeT.bits w).sub blockBaseDiff B)
        (count + 1)))) := by
  have hworks := h.works
  rw [hth] at hworks
  obtain ⟨hg, hle⟩ := hworks
  have hdiff := hg.diff
  have hsub : (SizeT.bits w).sub blockBaseDiff B = blockBaseDiff - B := by
    refine SizeT.sub_of_fits (SizeT.fits_bits.mpr ?_) hle
    rw [Nat.add_mul, Nat.one_mul] at hdiff
    omega
  exact h.gather h.below h.wf hth rfl rfl h.storage rfl rfl
    (fun _ => View.le_refl _) (hsub.symm ▸ hg)

/-! ## Clearing the flags -/

theorem Refines.gathered (h : Refines B t pub served b s)
    (hth : s.threads t = .enqueue items startBlock ()
      (.allocate startTailIndex 0 count)) (hcount : count ≠ 0) :
    Refines B t pub served b (s.move t s.shared (.enqueue items startBlock ()
      (.resetEmpty startTailIndex count 0 0))) := by
  have hg := h.works
  rw [hth] at hg
  refine h.gather h.below h.wf hth rfl rfl h.storage rfl rfl
    (fun _ => View.le_refl _)
    ⟨hg, Nat.pos_of_ne_zero hcount, fun n off _ hn => ?_⟩
  omega

theorem Refines.resetEmpty (h : Refines B t pub served b s) (hB : 0 < B)
    {block i : ℕ} (hth : s.threads t = .enqueue items startBlock ()
      (.resetEmpty startTailIndex count block i)) (hi : i < B) :
    Refines B t pub served b (s.move t { s.shared with
      mem := s.shared.mem.store t .relaxed
        (.emptyFlag (s.shared.ahead block) i) 0 }
        (.enqueue items startBlock ()
          (.resetEmpty startTailIndex count block (i + 1)))) := by
  have hworks := h.works
  rw [hth] at hworks
  obtain ⟨hg, hlt, hcleared⟩ := hworks
  have hmem := ahead_mem_take hlt hg.count_le
  refine h.store hB hi hth rfl rfl (hg.free _ hmem _ (by omega))
    fun q' hu hq' => ⟨hu.gathers hg, hlt, ?_⟩
  intro n off hoff hn
  rw [ahead_congr hu.ring]
  by_cases hflag : flagOf B (s.shared.ahead n, off) =
    .emptyFlag (s.shared.ahead block) i
  · -- only the store itself can be seen
    rw [hflag]
    intro k msg hk hmsg
    rw [hq', ViewMemory.store_view_self, View.sup_seen,
      View.single_seen_self] at hk
    rw [hq', ViewMemory.store_msgs_self] at hmsg
    have hge := (le_max_right _ _).trans hk
    rw [List.getElem?_append_right hge] at hmsg
    obtain rfl := List.mem_singleton.mp (List.mem_of_getElem? hmsg)
    rfl
  · refine (hcleared n off hoff ?_).mono ?_ hu.view_le
    · rcases hn with hn | ⟨rfl, hn⟩
      · exact .inl hn
      · refine .inr ⟨rfl, Nat.lt_of_le_of_ne (Nat.lt_succ_iff.mp hn) ?_⟩
        rintro rfl
        exact hflag rfl
    · rw [hq', ViewMemory.store_msgs_of_ne hflag]

theorem Refines.nextReset (h : Refines B t pub served b s) {block i : ℕ}
    (hth : s.threads t = .enqueue items startBlock ()
      (.resetEmpty startTailIndex count block i)) (hi : ¬i < B)
    (hlt : block + 1 < count) :
    Refines B t pub served b (s.move t s.shared (.enqueue items startBlock ()
      (.resetEmpty startTailIndex count (block + 1) 0))) := by
  have hworks := h.works
  rw [hth] at hworks
  obtain ⟨hg, -, hcleared⟩ := hworks
  refine h.gather h.below h.wf hth rfl rfl h.storage rfl rfl
    (fun _ => View.le_refl _)
    ⟨hg, hlt, fun n off hoff hn => hcleared n off hoff ?_⟩
  omega

/-! ## The calls -/

omit [DecidableEq ι] in
theorem roundUp_of_not_dvd {n : ℕ} (hB : 0 < B) (hn : ¬B ∣ n) :
    roundUp B n = blockBase B n + B := by
  cases n with
  | zero => exact absurd (Nat.dvd_zero B) hn
  | succ n =>
      rw [roundUp_succ hB, blockBase_succ, if_neg hn, Nat.add_zero]

omit [DecidableEq ι] in
theorem blockBase_of_dvd {n : ℕ} (hn : B ∣ n) : blockBase B n = n :=
  Nat.div_mul_cancel hn

theorem Refines.load (h : Refines B t pub served b s) (hB : 0 < B) (hw : 0 < w)
    (hdvd : B ∣ 2 ^ (w - 1)) {mem' : Memory ι T}
    (hth : s.threads t = .enqueue items startBlock () .load)
    (hbelow : m'.Below .counter mem') (hcells : m'.cells = b.shared.cells)
    (hquiet : Quiet s.shared.mem mem') (hwf : mem'.WellFormed)
    (hserved : served ≤ pub) (hroom : pub + items.length ≤ 2 ^ (w - 1)) :
    Refines B t pub served (b.move t m' (.enqueue items (.allocate pub)))
      (s.move t { s.shared with mem := mem' }
        (.enqueue items s.shared.ring.getLast? () (.reuse pub
          (Moodycamel.blockBaseDiff w B pub items.length) 0))) := by
  have htail := h.works
  rw [hth] at htail
  refine h.quiet rfl hquiet hcells hbelow hwf ?_ (fun i hi => ?_) le_rfl ?_ ?_
    fun _ live' _ => ?_
  · rw [Steady, if_pos rfl, hth]
    exact ⟨rfl, rfl⟩
  · cases hi
  · rw [hth]
    exact hserved
  · trivial
  refine ⟨EndsIn.congr htail rfl, fun _ => rfl, ?_, Nat.zero_le _,
    fun x hx => ?_⟩
  · have hle := roundUp_mono (B := B) (show pub ≤ pub + items.length by omega)
    rw [blockBaseDiff_eq hB hw hdvd hroom]
    omega
  · rw [List.take_zero] at hx
    cases hx

/-- All elements go in the last block. -/
theorem Refines.append (h : Refines B t pub served b s) (hB : 0 < B)
    (hth : s.threads t = .enqueue items startBlock () (.allocate pub 0 0)) :
    Refines B t pub served
      (b.move t b.shared (.enqueue items (.construct pub items)))
      (s.move t s.shared (.enqueue items startBlock ()
        (.construct pub startBlock.toList items))) := by
  have hg := h.works
  rw [hth] at hg
  have hdiff := hg.diff
  rw [Nat.zero_mul, Nat.add_zero] at hdiff
  have hstart := le_roundUp hB (pub + items.length)
  refine h.produce rfl h.below h.wf ?_ (fun i hi => ?_) (fun i hi => ?_) ?_
    h.storage rfl rfl (fun _ => View.le_refl _) ?_
  · rw [Steady, if_pos rfl, hth]
    exact ⟨rfl, hdiff.symm⟩
  · rw [hth] at hi
    exact hi
  · exact hi
  · trivial
  refine ⟨fun hn => ?_, fun k hk => ?_⟩
  · -- the last of them is in the block of the first
    have hpub : ¬B ∣ pub := by
      intro hpub
      have hself : roundUp B pub = pub :=
        roundUp_eq hB hpub le_rfl (by omega)
      rw [hself] at hdiff
      rw [show pub + items.length = pub by omega] at hn
      exact hn hpub
    have hbase := roundUp_of_not_dvd hB hpub
    rw [hdiff, roundUp_of_not_dvd hB hn] at hbase
    have hsame : blockBase B (pub + items.length) = blockBase B pub := by omega
    rw [← hg.last rfl, hsame]
    exact hg.tail hpub
  · rw [← hdiff] at hk
    by_cases hpub : B ∣ pub
    · have hself : roundUp B pub = pub :=
        roundUp_eq hB hpub le_rfl (by omega)
      rw [hself, blockBase_of_dvd hpub] at hk
      omega
    · rw [roundUp_of_not_dvd hB hpub] at hk
      have hzero : k = 0 := by
        by_contra hne
        have := Nat.le_mul_of_pos_left B (Nat.pos_of_ne_zero hne)
        omega
      subst hzero
      rw [hg.tail hpub, Nat.zero_mul, Nat.add_zero]
      rfl

omit [DecidableEq ι] in
theorem getLast?_rotate {l : List ℕ} {n : ℕ} (h : n < l.length) :
    (l.rotate (n + 1)).getLast? = l[n]? := by
  rw [List.rotate_eq_drop_append_take h, List.getLast?_append,
    List.getLast?_take, if_neg (Nat.succ_ne_zero n), Nat.succ_sub_one,
    List.getElem?_eq_getElem h, Option.some_or, Option.some_or]

/-- No block is to be had. -/
theorem Refines.refuse (h : Refines B t pub served b s) (hB : 0 < B)
    (hserved : served ≤ pub)
    (hth : s.threads t = .enqueue items startBlock ()
      (.allocate pub blockBaseDiff count)) :
    Refines B t pub served (b.move t b.shared (.done (.enqueued false)))
      (s.move t (s.shared.undo startBlock) (.done (.enqueued false))) := by
  have hg := h.works
  rw [hth] at hg
  have hstorage : Stored B t pub served s.threads (s.shared.undo startBlock)
      b.shared := h.storage.undo startBlock
  have hbelow : b.shared.Below .counter (s.shared.undo startBlock).mem :=
    h.below
  refine h.produce rfl hbelow h.wf ?_ (fun i hi => ?_) (fun i hi => ?_) ?_
    hstorage rfl rfl (fun _ => View.le_refl _) ?_
  · rw [Steady, if_pos rfl, hth]
    exact ⟨rfl, rfl⟩
  · rw [hth] at hi
    exact hi
  · exact hi
  · trivial
  intro hn
  have hlast := hg.tail hn
  have hlive : Live B t pub served s.threads pub := by
    refine ⟨?_, .inl hserved⟩
    rw [hth]
    change pub < roundUp B pub
    have hlt := lt_blockBase hB pub
    rwa [← roundUp_of_not_dvd hB hn] at hlt
  have hmem : s.shared.blockIndex (blockBase B pub) ∈ s.shared.ring :=
    h.storage.inRing pub hlive
  rw [hlast]
  change (s.shared.ring.rotate (s.shared.ring.idxOf _ + 1)).getLast? = _
  rw [getLast?_rotate (List.idxOf_lt_length_of_mem hmem),
    List.getElem?_idxOf hmem]
  rfl

/-- The blocks that have been gathered are put behind the last one. -/
theorem Refines.advance (h : Refines B t pub served b s) (hB : 0 < B)
    (hw : 0 < w) (hdvd : B ∣ 2 ^ (w - 1)) {block i : ℕ}
    (hth : s.threads t = .enqueue items startBlock ()
      (.resetEmpty pub count block i)) (hi : ¬i < B)
    (hlast : ¬block + 1 < count) (hserved : served ≤ pub)
    (hroom : pub + items.length ≤ 2 ^ (w - 1)) :
    Refines B t pub served
      (b.move t b.shared (.enqueue items (.construct pub items)))
      (s.move t (s.shared.publish w B pub count) (.enqueue items startBlock ()
        (.construct pub ((if B ∣ pub then [] else startBlock.toList) ++
          s.shared.ring.take count) items))) := by
  have hworks := h.works
  rw [hth] at hworks
  obtain ⟨hg, hblock, hcleared⟩ := hworks
  have hcount := hg.count_le
  have hdiff : roundUp B pub + count * B = roundUp B (pub + items.length) :=
    hg.diff
  have hpow : 2 ^ w = 2 * 2 ^ (w - 1) := by
    rw [← Nat.pow_succ', Nat.succ_eq_add_one, Nat.sub_add_cancel hw]
  have hfit : roundUp B pub + count * B < 2 ^ w := by
    have hle := roundUp_le hB hdvd hroom
    have hpos := Nat.two_pow_pos (w - 1)
    omega
  have hbase : newBase w B pub 0 = roundUp B pub := by
    have hzero : newBase w B pub 0 = roundUp B pub + 0 * B :=
      newBase_eq hB hw hdvd (by omega) (by omega)
    rwa [Nat.zero_mul, Nat.add_zero] at hzero
  have hpub := le_roundUp hB pub
  have hindex := fun i => blockIndex_publish_of_lt (q := s.shared) (i := i)
    hbase hfit hcount
  have hnew := fun k => blockIndex_publish (q := s.shared) (k := k) hB hbase
    hfit hcount
  have hstorage := h.storage
  rw [Stored, hth] at hstorage
  refine h.assemble rfl h.below h.wf ?_ le_rfl (fun i hi => ?_)
    (fun u i _ hi => ?_) ?_ (fun _ => View.le_refl _)
    (fun u i _ hi => ⟨?_, rfl⟩) ?_
  · rw [Stored, Pool.move_threads_self]
    refine hdiff ▸ hstorage.publish hB (dvd_roundUp B pub) hbase hfit hcount
      (by simpa only [hth] using hg.free)
      (fun n hn off hoff => hcleared n off hoff (by omega)) (fun i hi' => ?_)
      fun i hge hlt => ?_
    · obtain ⟨hlt, hlive⟩ := hi'
      rw [Pool.move_threads_self] at hlt
      refine ⟨hdiff.symm ▸ hlt, fun hless => ⟨?_, ?_⟩⟩
      · rw [hth]
        exact hless
      · refine hlive.imp_right fun howed => ?_
        obtain ⟨u, hu⟩ := howed
        refine ⟨u, ?_⟩
        by_cases hut : u = t
        · subst hut
          rw [Pool.move_threads_self] at hu
          cases hu
        · rwa [Pool.move_threads_of_ne _ _ _ hut] at hu
    · refine ⟨?_, .inl (hserved.trans hge)⟩
      rw [Pool.move_threads_self]
      exact hdiff ▸ hlt
  · cases hi
  · cases hi
  · trivial
  · exact place_publish_of_lt hbase hfit hcount
      (((h.owes_lt u i hi).trans_le hserved).trans_le hpub)
  · rw [Pool.move_threads_self]
    refine ⟨fun hn => ?_, fun k hk => ?_⟩
    · -- the last of the new blocks
      have hround := roundUp_of_not_dvd hB hn
      obtain ⟨n, rfl⟩ : ∃ n, count = n + 1 := ⟨count - 1, by omega⟩
      rw [Nat.add_mul, Nat.one_mul] at hdiff
      rw [show blockBase B (pub + items.length) = roundUp B pub + n * B by
        omega, hnew n (Nat.lt_succ_self n)]
      exact (getLast?_rotate hcount).trans (getElem?_ahead hcount)
    · rw [← hdiff] at hk
      by_cases hpub' : B ∣ pub
      · have hself : roundUp B pub = pub :=
          roundUp_eq hB hpub' le_rfl (by omega)
        rw [blockBase_of_dvd hpub', hself] at hk
        have hk' : k < count := Nat.lt_of_mul_lt_mul_right
          (show k * B < count * B by omega)
        have hget := hnew k hk'
        rw [hself] at hget
        rw [if_pos hpub', List.nil_append, getElem?_take_ahead hk' hcount,
          blockBase_of_dvd hpub', hget]
      · have hround := roundUp_of_not_dvd hB hpub'
        have hstart := hg.tail hpub'
        rw [if_neg hpub', hstart]
        cases k with
        | zero =>
            rw [Nat.zero_mul, Nat.add_zero, hindex _ (by omega)]
            rfl
        | succ k =>
            rw [Nat.add_mul, Nat.one_mul] at hk ⊢
            have hk' : k < count := Nat.lt_of_mul_lt_mul_right
              (show k * B < count * B by omega)
            rw [show blockBase B pub + (k * B + B) = roundUp B pub + k * B by
              omega, hnew k hk']
            exact getElem?_take_ahead hk' hcount

omit [DecidableEq ι] in
/-- The next element goes in the first of the blocks. -/
theorem Refines.place_eq (h : Refines B t pub served b s) (hB : 0 < B)
    {element : T} {rest : List T} {current : ℕ} {blocks : List ℕ}
    (hth : s.threads t = .enqueue items startBlock ()
      (.construct current blocks (element :: rest))) :
    (blocks.headD 0, current % B) = s.shared.place B current := by
  have hworks := h.works
  rw [hth] at hworks
  have hle := le_roundUp hB (current + (element :: rest).length)
  have hbase := blockBase_le B current
  rw [List.length_cons] at hle
  have hfirst := hworks.2 0 (by rw [List.length_cons]; omega)
  rw [Nat.zero_mul, Nat.add_zero] at hfirst
  refine Prod.ext ?_ rfl
  cases blocks with
  | nil => cases hfirst
  | cons block blocks => exact Option.some.inj hfirst

theorem Refines.construct (h : Refines B t pub served b s) (hB : 0 < B)
    {element : T} {rest : List T} {current : ℕ} {blocks : List ℕ}
    (hth : s.threads t = .enqueue items startBlock ()
      (.construct current blocks (element :: rest)))
    (hserved : served ≤ current) (hfresh : Untouched b.shared current) :
    Refines B t pub served
      (b.move t (b.shared.write t current (some element))
        (.enqueue items (.construct (current + 1) rest)))
      (s.move t { s.shared with
        mem := s.shared.mem.write t (blocks.headD 0, current % B)
          (some element) }
        (.enqueue items startBlock () (.construct (current + 1)
          (if B ∣ current + 1 then blocks.tail else blocks) rest))) := by
  rw [h.place_eq hB hth]
  have hworks := h.works
  have hstorage := h.storage
  rw [hth] at hworks
  rw [Stored, hth] at hstorage
  obtain ⟨htail, hchain⟩ := hworks
  have hlen : current + 1 + rest.length =
      current + (element :: rest).length := by
    rw [List.length_cons]
    omega
  have hlt : current < roundUp B (current + (element :: rest).length) :=
    Nat.lt_of_lt_of_le (by rw [List.length_cons]; omega) (le_roundUp hB _)
  have hlive : Live B t pub served s.threads current := by
    refine ⟨?_, .inl hserved⟩
    rw [hth]
    exact hlt
  generalize hblocks : (if B ∣ current + 1 then blocks.tail else blocks) =
    blocks'
  have hsame : Live B t pub served (s.move t { s.shared with
      mem := s.shared.mem.write t (s.shared.place B current) (some element) }
      (.enqueue items startBlock ()
        (.construct (current + 1) blocks' rest))).threads =
      Live B t pub served s.threads := by
    refine funext fun i => propext (live_iff ?_ (fun i hi => ?_)
      (fun i hi => ?_) i)
    · rw [hth]
      exact congrArg (roundUp B) hlen
    · rw [hth] at hi
      cases hi
    · cases hi
  have hcells : ∀ u i, Owes i (s.threads u) →
      (s.shared.mem.write t (s.shared.place B current) (some element)).cells
        (s.shared.place B i) = s.shared.mem.cells (s.shared.place B i) := by
    intro u i hi
    have hless := (h.owes_lt u i hi).trans_le hserved
    refine ViewMemory.write_cells_of_ne fun heq => ?_
    have := h.storage.apart i current
      ⟨hless.trans hlive.1, .inr ⟨u, hi⟩⟩ hlive heq
    omega
  refine h.assemble rfl h.below.access h.wf.write ?_ le_rfl
    (fun i hi => ?_) (fun u i _ hi => ?_) ?_ (fun _ => ViewMemory.le_write)
    (fun u i _ hi => ⟨rfl, hcells u i hi⟩) ?_
  · rw [Stored, hsame, Pool.move_threads_self]
    change Storage B t (current + 1)
      (roundUp B (current + 1 + rest.length)) _ _ _
    rw [hlen]
    refine hstorage.write hlive (Nat.lt_succ_self _) (Nat.le_succ _) hlt
      (fun j hj hne => Nat.lt_of_le_of_ne (Nat.lt_succ_iff.mp hj) hne) ?_
      fun j hj => ViewMemory.write_cells_of_ne hj
    rw [ViewMemory.write_cells_self, ViewMemory.write_cells_self, hfresh,
      h.below.own t]
    exact congrArg (Cell.mk _ _) (funext fun u => h.storage.unread _ u)
  · cases hi
  · cases hi
  · trivial
  · rw [hsame, Pool.move_threads_self]
    refine ⟨?_, fun k hk => ?_⟩
    · rw [hlen]
      exact htail
    · rw [hlen, blockBase_succ] at hk
      rw [← hblocks, blockBase_succ]
      split_ifs at hk ⊢ with hnext
      · have hget := hchain (k + 1) (by rw [Nat.add_mul, Nat.one_mul]; omega)
        rw [Nat.add_mul, Nat.one_mul, Nat.add_comm (k * B), ← Nat.add_assoc]
          at hget
        rw [List.getElem?_tail]
        exact hget
      · exact hchain k hk

theorem Refines.publish (h : Refines B t pub served b s) {o : MemoryOrder}
    {current : ℕ} {blocks : List ℕ}
    (hth : s.threads t = .enqueue items startBlock ()
      (.construct current blocks []))
    (hserved : served ≤ current) (hpub : pub + items.length = current) :
    Refines B t (pub + items.length) served
      (b.move t (b.shared.store t o .tailIndex current)
        (.done (.enqueued true)))
      (s.move t { s.shared with
        mem := s.shared.mem.store t o (.counter .tailIndex) current }
        (.done (.enqueued true))) := by
  have hworks := h.works
  rw [hth] at hworks
  refine h.quiet rfl (quiet_of_wrote ViewMemory.wrote_store) rfl
    (h.below.store fun _ _ => Loc.counter.inj) h.wf.store ?_ (fun i hi => ?_)
    le_rfl ?_ ?_ fun _ live' _ => ?_
  · rw [Steady, if_pos rfl, hth]
    exact ⟨hpub, congrArg (roundUp B) hpub⟩
  · cases hi
  · rw [hth]
    exact hserved
  · trivial
  · rw [hpub]
    exact EndsIn.congr hworks.1 rfl

end Steps

end Explicit
end Moodycamel
end ConcurrentQueues
