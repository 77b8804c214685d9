import ConcurrentQueues.Moodycamel.Indexing

/-!
# An enqueue keeps the block index

A block that is used again has the entry behind the last one, and its old entry,
which is the first of the window, may be overwritten then.  A new block has one
more slot, for which a full array is left behind.  Only when all blocks have
been found are their entries published.
-/

namespace ConcurrentQueues

universe u v

namespace Moodycamel
namespace Explicit

open Bulk

variable {ι : Type v} {T : Type u}

section Steps

variable [DecidableEq ι] {w B : ℕ} {producer t : ι}
  {pub pub' served asked : ℕ} {C C' : ℕ → ℕ} {s₁ : State ofMap ι T}
  {s : State ofArrays ι T} {q : Shared ofArrays ι T}
  {th : Thread ofArrays ι T}

/-- A thread in an enqueue of `items`, or at its end. -/
def Enqueues (items : List T) : Thread ofArrays ι T → Prop
  | .enqueue items' _ _ _ => items' = items
  | .done _ => True
  | _ => False

omit [DecidableEq ι] in
theorem Enqueues.stands {items : List T} {X : BlockIndexes}
    (h : Enqueues items th) : arrayOf th = none ∧ Stands w B C X th ∧
      ∀ i, ¬Owes i (forget th) := by
  cases th with
  | enqueue | done => exact ⟨rfl, trivial, fun _ hi => hi⟩
  | _ => exact h.elim

omit [DecidableEq ι] in
theorem FallsBack.turn {opened : ℕ} {X : BlockIndexes} {items : List T}
    {startBlock startBlock' : Option ℕ} {original : ℕ × ℕ} {pc pc' : Enqueue T}
    (h : FallsBack (ι := ι) opened X (.enqueue items startBlock original pc))
    (hpc : pc.startTailIndex?.isSome) (hgathered : pc'.gathered = pc.gathered) :
    FallsBack (ι := ι) opened X
      (.enqueue items startBlock' original pc') := by
  intro _
  rw [hgathered]
  exact h hpc

variable {items : List T} {startBlock : Option ℕ} {original : ℕ × ℕ}
  {pc : Enqueue T}

omit [DecidableEq ι] in
/-- In an enqueue the producer knows its slots. -/
theorem Indexed.steers_enqueue (h : Indexed w B t pub served asked C s₁ s)
    (hth : s.threads t = .enqueue items startBlock original pc) :
    ∃ lo, Steers B (C s.shared.blockIndex.blockIndex) lo
      (roundUp B (reserved pub (s₁.threads t)))
      (Live B t pub served s₁.threads) s₁.shared.blockIndex s.shared
      (.enqueue items startBlock original pc) := by
  have hsteers := h.steers
  rw [hth] at hsteers
  rcases hsteers with hsteers | ⟨hdone, -⟩
  · exact hsteers
  · cases hdone

/-- A step of an enqueue that leaves the live elements as they are. -/
theorem Indexed.change (h : Indexed w B t pub served asked C s₁ s)
    (howed : ∀ u i, Owes i (s₁.threads u) → Live B t pub served s₁.threads i)
    (hth : s.threads t = .enqueue items startBlock original pc)
    (hnew : Enqueues items th)
    (hopened : roundUp B (reserved pub' (forget th)) =
      roundUp B (reserved pub (s₁.threads t)))
    (hextends : Extends w B C C' (Live B t pub served s₁.threads)
      s₁.shared.blockIndex s.shared.blockIndex q.blockIndex)
    (hcurrent : ∀ i, Live B t pub served s₁.threads i →
      Finds B s₁.shared.blockIndex q.blockIndex.header
          (C' q.blockIndex.blockIndex) i ∧
        Aligned w B q.blockIndex.header (C' q.blockIndex.blockIndex)
          q.blockIndex.header.front)
    (hsteers : (∃ lo, Steers B (C' q.blockIndex.blockIndex) lo
        (roundUp B (reserved pub (s₁.threads t)))
        (Live B t pub served s₁.threads) s₁.shared.blockIndex q th) ∨
      th = .done (.enqueued false) ∧ B < asked) :
    Indexed w B t pub' served asked C'
      (s₁.move t (q.withMap s₁.shared.blockIndex) (forget th))
      (s.move t q th) := by
  obtain ⟨harray, hstands, hnot⟩ :=
    hnew.stands (w := w) (B := B) (C := C') (X := q.blockIndex)
  have hold : ∀ i, ¬Owes i (s₁.threads t) := fun i hi => by
    rw [h.threads, hth] at hi
    exact hi
  have hlive : Live B t pub' served
      (s₁.move t (q.withMap s₁.shared.blockIndex) (forget th)).threads =
        Live B t pub served s₁.threads :=
    funext fun i => propext (live_iff hopened hold hnot i)
  refine h.assemble hextends (fun u i _ hi => ⟨howed u i hi, rfl⟩)
    (fun i hi => hcurrent i (hlive ▸ hi)) (fun k hk => ?_) hstands ?_ ?_
  · rw [harray] at hk
    cases hk
  · rw [hlive, Pool.move_threads_self, Pool.move_threads_self, hopened]
    exact hsteers
  · rw [Pool.move_threads_self]
    rintro items' startBlock' original' pc' rfl
    rw [h.asked _ _ _ _ hth]
    exact congrArg List.length hnew.symm

/-- A step of an enqueue that leaves the block index as it is. -/
theorem Indexed.work (h : Indexed w B t pub served asked C s₁ s)
    (howed : ∀ u i, Owes i (s₁.threads u) → Live B t pub served s₁.threads i)
    (hth : s.threads t = .enqueue items startBlock original pc)
    (hindex : q.blockIndex = s.shared.blockIndex)
    (hring : q.ring = s.shared.ring) (hnew : Enqueues items th)
    (hopened : roundUp B (reserved pub' (forget th)) =
      roundUp B (reserved pub (s₁.threads t)))
    (hgathered : gathered th = pc.gathered)
    (hfalls : ∀ lo, Steers B (C s.shared.blockIndex.blockIndex) lo
      (roundUp B (reserved pub (s₁.threads t)))
      (Live B t pub served s₁.threads) s₁.shared.blockIndex s.shared
      (.enqueue items startBlock original pc) →
        FallsBack (roundUp B (reserved pub (s₁.threads t)))
          s.shared.blockIndex th) :
    Indexed w B t pub' served asked C
      (s₁.move t (q.withMap s₁.shared.blockIndex) (forget th))
      (s.move t q th) := by
  obtain ⟨lo, hsteers⟩ := h.steers_enqueue hth
  refine h.change howed hth hnew hopened
    (extends_of_headers (congrArg _ hindex) (congrArg _ hindex))
    (fun i hi => ?_) (.inl ⟨lo, ?_, ?_, ?_, hsteers.live_ge, ?_⟩)
  · rw [hindex]
    exact ⟨h.serves.current i hi, h.serves.front i hi⟩
  · rw [hindex, hring, hgathered]
    exact hsteers.window
  · rw [hring, hgathered]
    exact hsteers.next
  · rw [hring, hgathered]
    exact hsteers.entries
  · rw [hindex]
    exact hfalls lo hsteers

omit [DecidableEq ι] in
/-- A new entry overwrites none that is looked for. -/
theorem extends_addEntry {live : ℕ → Prop} {blockIndex : ℕ → ℕ}
    {X : BlockIndexes} {n : ℕ} (x : ℕ)
    (hfront : X.prBlockIndexFront = X.header.slot (C X.blockIndex) n)
    (hn : n * B < 2 ^ (w - 1))
    (hlive : ∀ i, live i → i / B < n ∧ n < i / B + X.header.size) :
    Extends w B C C live blockIndex X (X.addEntry (n * B) x) := by
  have hother : ∀ k, k ≠ X.blockIndex →
      (X.addEntry (n * B) x).headers k = X.headers k := fun k hk =>
    Function.update_of_ne hk _ _
  have hself : (X.addEntry (n * B) x).headers X.blockIndex =
      (X.addEntry (n * B) x).header := rfl
  have haligned : ∀ k ≤ X.blockIndex, ∀ j,
      Aligned w B (X.headers k) (C k) j →
        Aligned w B ((X.addEntry (n * B) x).headers k) (C k) j := by
    intro k _ j hj
    by_cases hk : k = X.blockIndex
    · subst hk
      rw [hself, BlockIndexes.header_addEntry]
      by_cases hslot : j = X.prBlockIndexFront
      · subst hslot
        refine ⟨n, hfront, ?_, hn⟩
        have hentry : Function.update X.header.entries X.prBlockIndexFront
            (⟨n * B, x⟩ : BlockIndexEntry) X.prBlockIndexFront = ⟨n * B, x⟩ :=
          Function.update_self _ _ _
        exact congrArg BlockIndexEntry.base hentry
      · obtain ⟨m, hm, hbase, hlt⟩ := hj
        refine ⟨m, hm, ?_, hlt⟩
        exact (congrArg BlockIndexEntry.base
          (Function.update_of_ne hslot _ _)).trans hbase
    · rwa [hother k hk]
  refine ⟨le_rfl, fun _ _ => rfl, fun k _ => ?_, fun k _ i hi hfinds => ?_,
    haligned, fun k hk hj => ?_⟩
  · by_cases hk : k = X.blockIndex
    · subst hk
      rw [hself, BlockIndexes.header_addEntry]
      rfl
    · rw [hother k hk]
  · by_cases hk : k = X.blockIndex
    · subst hk
      obtain ⟨hlt, hle⟩ := hlive i hi
      rw [hself, BlockIndexes.header_addEntry]
      refine Eq.trans (congrArg BlockIndexEntry.block
        (Function.update_of_ne ?_ _ _)) hfinds
      rw [hfront]
      exact BlockIndexHeader.slot_ne hlt hle
    · rwa [hother k hk]
  · have hsame : ((X.addEntry (n * B) x).headers k).front =
        (X.headers k).front := by
      by_cases hk : k = X.blockIndex
      · subst hk
        rw [hself, BlockIndexes.header_addEntry]
        rfl
      · rw [hother k hk]
    rw [hsame]
    exact haligned k hk _ hj

/-- A step of an enqueue that adds an entry, of the block with number `n`. -/
theorem Indexed.addEntry (h : Indexed w B t pub served asked C s₁ s)
    (howed : ∀ u i, Owes i (s₁.threads u) → Live B t pub served s₁.threads i)
    (hth : s.threads t = .enqueue items startBlock original pc)
    (hnew : Enqueues items th)
    (hopened : roundUp B (reserved pub' (forget th)) =
      roundUp B (reserved pub (s₁.threads t))) {n slotsUsed x lo : ℕ}
    (hfront : s.shared.blockIndex.prBlockIndexFront =
      s.shared.blockIndex.header.slot (C s.shared.blockIndex.blockIndex) n)
    (hn : n * B < 2 ^ (w - 1))
    (hlive : ∀ i, Live B t pub served s₁.threads i →
      i / B < n ∧ n < i / B + s.shared.blockIndex.header.size)
    (hindex : q.blockIndex = BlockIndexes.addEntry
      { s.shared.blockIndex with prBlockIndexSlotsUsed := slotsUsed }
      (n * B) x)
    (hsteers : Steers B (C s.shared.blockIndex.blockIndex) lo
      (roundUp B (reserved pub (s₁.threads t)))
      (Live B t pub served s₁.threads) s₁.shared.blockIndex q th) :
    Indexed w B t pub' served asked C
      (s₁.move t (q.withMap s₁.shared.blockIndex) (forget th))
      (s.move t q th) := by
  have hextends : Extends w B C C (Live B t pub served s₁.threads)
      s₁.shared.blockIndex s.shared.blockIndex q.blockIndex := by
    have hadd : Extends w B C C (Live B t pub served s₁.threads)
        s₁.shared.blockIndex { s.shared.blockIndex with
          prBlockIndexSlotsUsed := slotsUsed } _ :=
      extends_addEntry x hfront hn hlive
    rw [hindex]
    exact ⟨hadd.le, hadd.number, hadd.size, hadd.finds, hadd.aligned,
      hadd.front⟩
  have hnumber : q.blockIndex.blockIndex = s.shared.blockIndex.blockIndex := by
    rw [hindex]
    rfl
  refine h.change howed hth hnew hopened hextends (fun i hi => ?_) ?_
  · have hfinds := hextends.finds _ le_rfl i hi (h.serves.current i hi)
    have haligned := hextends.front _ le_rfl (h.serves.front i hi)
    rw [← hnumber] at hfinds haligned
    exact ⟨hfinds, haligned⟩
  · rw [hnumber]
    exact .inl ⟨lo, hsteers⟩

omit [DecidableEq ι] in
theorem rotate_eq_cons {l : List ℕ} {n : ℕ} (hn : n < l.length) :
    ∃ rest, l.rotate n = l.getD n 0 :: rest ∧
      l.rotate (n + 1) = rest ++ [l.getD n 0] ∧
      rest.length + 1 = l.length := by
  have hhead : (l.rotate n).head? = some (l.getD n 0) := by
    rw [List.head?_rotate hn, List.getD_eq_getElem?_getD,
      List.getElem?_eq_getElem hn]
    rfl
  obtain ⟨rest, hrest⟩ := List.head?_eq_some_iff.mp hhead
  refine ⟨rest, hrest, ?_, ?_⟩
  · rw [← List.rotate_rotate, hrest, List.rotate_cons_succ, List.rotate_zero]
  · rw [← List.length_rotate l n, hrest, List.length_cons]

variable {b : Moodycamel.State ι T} {startTailIndex blockBaseDiff count : ℕ}

/-- The first block, which is empty, has the next entry. -/
theorem Indexed.found (h : Indexed w B t pub served asked C s₁ s) (hB : 0 < B)
    (hr : Refines B t pub served b s₁)
    (howed : ∀ u i, Owes i (s₁.threads u) → Live B t pub served s₁.threads i)
    {i : ℕ} {heard : List (Loc × ℕ)} {mem : Memory ι T}
    (hth : s.threads t = .enqueue items startBlock original
      (.isEmpty startTailIndex blockBaseDiff count i heard)) (hi : ¬i < B)
    (hroom : roundUp B pub + count * B < 2 ^ (w - 1))
    {base : ℕ} (hbase : base = roundUp B pub + count * B)
    (hq : { s.shared with
      mem := mem
      blockIndex := s.shared.blockIndex.addEntry base
        (s.shared.ahead count) } = q) {blockBaseDiff' : ℕ} :
    Indexed w B t pub served asked C
      (s₁.move t (q.withMap s₁.shared.blockIndex) (.enqueue items startBlock ()
        (.reuse startTailIndex blockBaseDiff' (count + 1))))
      (s.move t q (.enqueue items startBlock original
        (.reuse startTailIndex blockBaseDiff' (count + 1)))) := by
  subst hq
  have hth₁ := h.threads t
  rw [hth] at hth₁
  have hworks := hr.works
  rw [hth₁] at hworks
  obtain ⟨-, -, hlt, hheard⟩ := hworks
  obtain ⟨lo, hsteers⟩ := h.steers_enqueue hth
  have hopened : roundUp B (reserved pub (s₁.threads t)) = roundUp B pub := by
    rw [hth₁]
    rfl
  rw [h.shared] at hlt
  change count < s.shared.ring.length at hlt
  obtain ⟨rest, hcons, hsnoc, hlen⟩ := rotate_eq_cons hlt
  have hwindow := hsteers.window
  have hnext := hsteers.next
  have hentries := hsteers.entries
  have hge := hsteers.live_ge
  rw [hopened] at hnext hentries
  change (lo + s.shared.ring.length) * B = roundUp B pub + count * B at hnext
  change ∀ j x, (s.shared.ring.rotate count)[j]? = some x → _ at hentries
  change BlockIndexes.Window B _ _ _ (s.shared.ring.rotate count) at hwindow
  rw [hcons] at hwindow hentries
  obtain rfl : base = (lo + s.shared.ring.length) * B := hbase.trans hnext.symm
  have hlive_lt : ∀ i, Live B t pub served s₁.threads i → i < roundUp B pub :=
    fun i hi => hopened ▸ hi.1
  -- no element is in the first block
  have hlive_ge : ∀ i, Live B t pub served s₁.threads i → (lo + 1) * B ≤ i := by
    intro i hi
    have hlo := hge i hi
    by_contra hless
    have hbase : blockBase B i = lo * B := by
      have hself : blockBase B (lo * B) = lo * B :=
        blockBase_of_dvd (Nat.dvd_mul_left B lo)
      rw [blockBase_eq hlo (by
        rw [hself]
        rw [Nat.add_mul, Nat.one_mul] at hless
        omega), hself]
    have hfirst := hentries 0 (s.shared.ring.getD count 0) rfl
      (hlo.trans_lt (hlive_lt i hi))
    refine (hheard (i % B) (Nat.mod_lt i hB) (by omega)).1 i hi ?_
    rw [Shared.place, hbase]
    refine Prod.ext (hfirst.trans ?_) rfl
    rw [h.shared]
    rfl
  have hsize := hwindow.le_size
  rw [List.length_cons, hlen] at hsize
  have hnew : Enqueues (ι := ι) items (.enqueue items startBlock original
      (.reuse startTailIndex blockBaseDiff' (count + 1))) := rfl
  refine h.addEntry howed hth hnew ?_ ?_ (hnext.trans_lt hroom)
    (fun i hi => ⟨?_, ?_⟩) rfl ⟨?_, ?_, ?_, hlive_ge, ?_⟩
  · rw [hth₁]
    rfl
  · rw [hwindow.front, List.length_cons, hlen]
  · rw [Nat.div_lt_iff_lt_mul hB, hnext]
    exact (hlive_lt i hi).trans_le (Nat.le_add_right _ _)
  · have := (Nat.le_div_iff_mul_le hB).mpr (hlive_ge i hi)
    omega
  · change BlockIndexes.Window B _ _ _ (s.shared.ring.rotate (count + 1))
    rw [hsnoc, ← hlen]
    exact hwindow.reuse
  · rw [hopened]
    change (lo + 1 + s.shared.ring.length) * B =
      roundUp B pub + (count + 1) * B
    rw [Nat.add_right_comm, Nat.add_mul _ 1, Nat.add_mul count 1, hnext]
    omega
  · rw [hopened]
    change ∀ j x, (s.shared.ring.rotate (count + 1))[j]? = some x → _
    rw [hsnoc]
    intro j y hy hless
    rcases Nat.lt_or_ge j rest.length with hj | hj
    · rw [List.getElem?_append_left hj] at hy
      have hentry := hentries (j + 1) y hy
      rw [Nat.add_comm j, ← Nat.add_assoc] at hentry
      exact hentry hless
    · have hle : (lo + s.shared.ring.length) * B ≤ (lo + 1 + j) * B :=
        Nat.mul_le_mul_right B (by omega)
      omega
  · intro _
    obtain ⟨hused, hzero, -⟩ := hsteers.fallsBack rfl
    exact ⟨hused, hzero, fun hcount => absurd hcount (Nat.succ_ne_zero _)⟩

omit [DecidableEq ι] in
theorem rotate_insert {l : List ℕ} {n : ℕ} (hn : n ≤ l.length) (x : ℕ) :
    (l.take n ++ x :: l.drop n).rotate (n + 1) = l.rotate n ++ [x] := by
  have hlen : (l.take n ++ [x]).length = n + 1 := by
    rw [List.length_append, List.length_take, min_eq_left hn,
      List.length_singleton]
  rw [List.rotate_eq_drop_append_take hn, List.append_assoc, ← hlen,
    List.append_cons, List.rotate_append_length_eq]

/-- A new block is put in behind the others, and has the next entry. -/
theorem Indexed.newBlock (h : Indexed w B t pub served asked C s₁ s)
    (hB : 0 < B)
    (howed : ∀ u i, Owes i (s₁.threads u) → Live B t pub served s₁.threads i)
    (hth : s.threads t = .enqueue items startBlock original
      (.allocate startTailIndex blockBaseDiff count))
    (hcount : count ≤ s.shared.ring.length)
    (hspace : s.shared.blockIndex.prBlockIndexSlotsUsed ≠
      s.shared.blockIndex.header.size)
    (hroom : roundUp B pub + count * B < 2 ^ (w - 1))
    {base newBlock : ℕ} (hbase : base = roundUp B pub + count * B)
    (hq : { s.shared.insert count newBlock with
      blockIndex := BlockIndexes.addEntry { s.shared.blockIndex with
        prBlockIndexSlotsUsed :=
          s.shared.blockIndex.prBlockIndexSlotsUsed + 1 } base newBlock } = q)
    {pc' : Enqueue T} (hpc : pc'.startTailIndex? = some startTailIndex)
    (hgathered : pc'.gathered = count + 1) :
    Indexed w B t pub served asked C
      (s₁.move t (q.withMap s₁.shared.blockIndex)
        (.enqueue items startBlock () pc'))
      (s.move t q (.enqueue items startBlock original pc')) := by
  subst hq
  have hth₁ := h.threads t
  rw [hth] at hth₁
  obtain ⟨lo, hsteers⟩ := h.steers_enqueue hth
  have hopened : roundUp B (reserved pub (s₁.threads t)) = roundUp B pub := by
    rw [hth₁]
    rfl
  have hwindow := hsteers.window
  have hnext := hsteers.next
  have hentries := hsteers.entries
  rw [hopened] at hnext hentries
  change (lo + s.shared.ring.length) * B = roundUp B pub + count * B at hnext
  change ∀ j x, (s.shared.ring.rotate count)[j]? = some x → _ at hentries
  change BlockIndexes.Window B _ _ _ (s.shared.ring.rotate count) at hwindow
  obtain rfl : base = (lo + s.shared.ring.length) * B := hbase.trans hnext.symm
  have hlen : (s.shared.ring.rotate count).length = s.shared.ring.length :=
    List.length_rotate _ _
  have hless : (s.shared.ring.rotate count).length <
      s.shared.blockIndex.header.size :=
    Nat.lt_of_le_of_ne hwindow.le_size (hwindow.used ▸ hspace)
  have hgathered' : gathered (ι := ι)
      (.enqueue items startBlock original pc') = count + 1 := hgathered
  have hring : ((s.shared.insert count newBlock).ring).rotate (count + 1) =
      s.shared.ring.rotate count ++ [newBlock] := rotate_insert hcount newBlock
  have hringLen : (s.shared.insert count newBlock).ring.length =
      s.shared.ring.length + 1 := by
    rw [← List.length_rotate _ (count + 1), hring, List.length_append, hlen]
    rfl
  have hnew : Enqueues (ι := ι) items
      (.enqueue items startBlock original pc') := rfl
  refine h.addEntry howed hth hnew ?_ ?_ (hnext.trans_lt hroom)
    (fun i hi => ⟨?_, ?_⟩) rfl ⟨?_, ?_, ?_, hsteers.live_ge, ?_⟩
  · rw [hopened]
    exact congrArg _ (seeking hpc items startBlock).2.2
  · rw [hwindow.front, hlen]
  · rw [Nat.div_lt_iff_lt_mul hB, hnext]
    exact (hopened ▸ hi.1).trans_le (Nat.le_add_right _ _)
  · have := (Nat.le_div_iff_mul_le hB).mpr (hsteers.live_ge i hi)
    omega
  · rw [hgathered', hring, ← hlen]
    exact hwindow.insert hless
  · rw [hopened, hgathered', hringLen, ← Nat.add_assoc, Nat.add_mul _ 1,
      Nat.add_mul count 1, hnext]
    omega
  · rw [hopened, hgathered', hring]
    intro j y hy hlt
    rcases Nat.lt_or_ge j (s.shared.ring.rotate count).length with hj | hj
    · rw [List.getElem?_append_left hj] at hy
      exact hentries j y hy hlt
    · have hle : (lo + s.shared.ring.length) * B ≤ (lo + j) * B :=
        Nat.mul_le_mul_right B (by omega)
      omega
  · intro _
    obtain ⟨hused, hzero, -⟩ := hsteers.fallsBack rfl
    refine ⟨hused.trans (Nat.le_succ _), hzero, fun hnone => ?_⟩
    rw [hgathered] at hnone
    exact absurd hnone (Nat.succ_ne_zero _)

/-- A full array is left behind. -/
theorem Indexed.grow (h : Indexed w B t pub served asked C s₁ s) (hB : 0 < B)
    (howed : ∀ u i, Owes i (s₁.threads u) → Live B t pub served s₁.threads i)
    (hth : s.threads t = .enqueue items startBlock original
      (.allocate startTailIndex blockBaseDiff count))
    (hfull : s.shared.blockIndex.prBlockIndexSlotsUsed =
      s.shared.blockIndex.header.size)
    (hroom : roundUp B pub + count * B < 2 ^ (w - 1)) :
    ∃ C', Indexed w B t pub served asked C' s₁ (s.move t { s.shared with
        blockIndex := s.shared.blockIndex.newBlockIndex w original.2 }
      (.enqueue items startBlock (original.2, original.2)
        (.allocate startTailIndex blockBaseDiff count))) := by
  have hth₁ := h.threads t
  rw [hth] at hth₁
  obtain ⟨lo, hsteers⟩ := h.steers_enqueue hth
  have hopened : roundUp B (reserved pub (s₁.threads t)) = roundUp B pub := by
    rw [hth₁]
    rfl
  have hwindow := hsteers.window
  have hnext := hsteers.next
  rw [hopened] at hnext
  change (lo + s.shared.ring.length) * B = roundUp B pub + count * B at hnext
  change BlockIndexes.Window B _ _ _ (s.shared.ring.rotate count) at hwindow
  obtain ⟨c', hgrown, hslot⟩ := hwindow.grow (w := w) hfull original.2
  obtain ⟨hused, hzero, hself⟩ := hsteers.fallsBack rfl
  have hlen : (s.shared.ring.rotate count).length = s.shared.ring.length :=
    List.length_rotate _ _
  set X := s.shared.blockIndex.newBlockIndex w original.2 with hX
  have hC : Function.update C (s.shared.blockIndex.blockIndex + 1) c'
      X.blockIndex = c' := Function.update_self _ _ _
  have hnew : Enqueues (ι := ι) items (.enqueue items startBlock
      (original.2, original.2)
      (.allocate startTailIndex blockBaseDiff count)) := rfl
  have hheaders : ∀ k ≤ s.shared.blockIndex.blockIndex,
      X.headers k = s.shared.blockIndex.headers k := fun k hk =>
    Function.update_of_ne (by omega) _ _
  have hextends : Extends w B C
      (Function.update C (s.shared.blockIndex.blockIndex + 1) c')
      (Live B t pub served s₁.threads) s₁.shared.blockIndex
      s.shared.blockIndex X := by
    refine ⟨Nat.le_succ _, fun k hk => Function.update_of_ne (by omega) _ _,
      ?_, ?_, ?_, ?_⟩ <;> intro k hk <;> rw [hheaders k hk]
    · exact fun _ _ h => h
    · exact fun _ h => h
    · exact id
  have hsteers' : Steers B c' lo (roundUp B (reserved pub (s₁.threads t)))
      (Live B t pub served s₁.threads) s₁.shared.blockIndex
      { s.shared with blockIndex := X } (.enqueue items startBlock
        (original.2, original.2)
        (.allocate startTailIndex blockBaseDiff count)) := by
    refine ⟨hgrown, hsteers.next, hsteers.entries, hsteers.live_ge,
      fun _ => ⟨hused, hzero, fun hnone => ?_⟩⟩
    exact congrArg (fun o : ℕ × ℕ => (o.2, o.2)) (hself hnone)
  refine ⟨Function.update C (s.shared.blockIndex.blockIndex + 1) c', ?_⟩
  have hchange : Indexed w B t pub served asked _ _ _ :=
    h.change (q := { s.shared with blockIndex := X }) howed hth hnew ?_ hextends
      (fun i hi => ⟨?_, ?_⟩) (.inl ⟨lo, ?_⟩)
  · have hq : Shared.withMap { s.shared with blockIndex := X }
        s₁.shared.blockIndex = s₁.shared := h.shared.symm
    have hforget : forget (ι := ι) (.enqueue items startBlock
        (original.2, original.2)
        (.allocate startTailIndex blockBaseDiff count)) = s₁.threads t :=
      hth₁.symm
    rw [hq, hforget, Pool.move_self] at hchange
    exact hchange
  · rw [hth₁]
    rfl
  · change Finds B _ X.header (Function.update C _ c' X.blockIndex) i
    rw [hC]
    exact hsteers'.finds hB hi hi.1
  · change Aligned w B X.header (Function.update C _ c' X.blockIndex)
      X.header.front
    rw [hC]
    refine hgrown.aligned_grow hslot (Nat.pos_of_ne_zero fun hnone => ?_) ?_ hB
      ?_
    · have hlt := hi.1
      rw [hzero hnone] at hlt
      exact Nat.not_lt_zero i hlt
    · rw [← hwindow.used]
      exact hused
    · rw [hlen, hnext]
      exact hroom
  · change Steers B (Function.update C _ c' X.blockIndex) _ _ _ _ _ _
    rw [hC]
    exact hsteers'

omit [DecidableEq ι] in
theorem rotate_getLast? {l : List ℕ} (h : l.Nodup) :
    l.rotate (l.getLast?.elim 0 l.idxOf + 1) = l := by
  rcases l.eq_nil_or_concat' with rfl | ⟨l', x, rfl⟩
  · rfl
  · have hx : x ∉ l' := by
      exact (List.nodup_cons.mp (List.nodup_append_comm.mp h)).1
    rw [List.getLast?_concat]
    change (l' ++ [x]).rotate ((l' ++ [x]).idxOf x + 1) = l' ++ [x]
    rw [List.idxOf_append_of_notMem hx, List.idxOf_cons_self, Nat.add_zero]
    have hlen : (l' ++ [x]).length = l'.length + 1 := List.length_append
    rw [← hlen, List.rotate_length]

omit [DecidableEq ι] in
/-- Only an enqueue of more than a block needs two. -/
theorem lt_of_gathers {live : ℕ → Prop} {q : Shared ofMap ι T} (hB : 0 < B)
    (hg : Gathers B t live q items startBlock startTailIndex blockBaseDiff
      count) (hpos : 0 < blockBaseDiff) (hcount : count ≠ 0) :
    B < items.length := by
  have hle := Nat.le_of_dvd hpos (dvd_of_gathers hg)
  have hdiff := hg.diff
  have hlt := roundUp_lt hB (startTailIndex + items.length)
  have hstart := le_roundUp hB startTailIndex
  have hone : B ≤ count * B :=
    Nat.le_mul_of_pos_left B (Nat.pos_of_ne_zero hcount)
  omega

/-- An enqueue is refused.  If it has gathered a block, it falls back to fewer
slots than there are blocks. -/
theorem Indexed.refuse (h : Indexed w B t pub served asked C s₁ s) (hB : 0 < B)
    (hr : Refines B t pub served b s₁)
    (howed : ∀ u i, Owes i (s₁.threads u) → Live B t pub served s₁.threads i)
    (hth : s.threads t = .enqueue items startBlock original
      (.allocate startTailIndex blockBaseDiff count)) (hpos : 0 < blockBaseDiff)
    (hq : { s.shared.undo startBlock with
      blockIndex := { s.shared.blockIndex with
        prBlockIndexFront := original.1
        prBlockIndexSlotsUsed := original.2 } } = q) :
    Indexed w B t pub served asked C
      (s₁.move t (q.withMap s₁.shared.blockIndex) (.done (.enqueued false)))
      (s.move t q (.done (.enqueued false))) := by
  subst hq
  have hth₁ := h.threads t
  rw [hth] at hth₁
  have hg := hr.works
  rw [hth₁] at hg
  obtain ⟨lo, hsteers⟩ := h.steers_enqueue hth
  have hnew : Enqueues (ι := ι) items (.done (.enqueued false)) := trivial
  refine h.change howed hth hnew ?_ (extends_of_headers rfl rfl)
    (fun i hi => ⟨h.serves.current i hi, h.serves.front i hi⟩) ?_
  · rw [hth₁]
    rfl
  by_cases hcount : count = 0
  · subst hcount
    left
    obtain ⟨-, -, hself⟩ := hsteers.fallsBack rfl
    obtain rfl := hself rfl
    have hring : (s.shared.undo startBlock).ring = s.shared.ring := by
      have hlast := hg.last rfl
      have hnodup := hr.storage.nodup
      rw [h.shared] at hlast hnodup
      rw [hlast]
      exact rotate_getLast? hnodup
    refine ⟨lo, ?_, ?_, ?_, hsteers.live_ge, trivial⟩
    · change BlockIndexes.Window B s.shared.blockIndex _ lo
        ((s.shared.undo startBlock).ring.rotate 0)
      rw [hring]
      exact hsteers.window
    · change (lo + (s.shared.undo startBlock).ring.length) * B = _
      rw [hring]
      exact hsteers.next
    · change ∀ j x, ((s.shared.undo startBlock).ring.rotate 0)[j]? = some x → _
      rw [hring]
      exact hsteers.entries
  · right
    rw [h.asked _ _ _ _ hth]
    exact ⟨rfl, lt_of_gathers hB hg hpos hcount⟩

omit [DecidableEq ι] in
theorem extends_publish {live : ℕ → Prop} {blockIndex : ℕ → ℕ}
    {X : BlockIndexes} (haligned : Aligned w B X.publish.header
      (C X.blockIndex) X.publish.header.front) :
    Extends w B C C live blockIndex X X.publish := by
  have hother : ∀ k, k ≠ X.blockIndex → X.publish.headers k = X.headers k :=
    fun k hk => Function.update_of_ne hk _ _
  have hself : X.publish.headers X.blockIndex = { X.header with
      front := (X.prBlockIndexFront + X.header.size - 1) % X.header.size } :=
    BlockIndexes.header_publish
  refine ⟨le_rfl, fun _ _ => rfl, fun k _ => ?_, fun k _ i _ hfinds => ?_,
    fun k _ j hj => ?_, fun k _ hj => ?_⟩
  all_goals by_cases hk : k = X.blockIndex
  all_goals first | subst hk | rw [hother k hk]
  · rw [hself]
    rfl
  · rw [hself]
    exact hfinds
  · exact hfinds
  · rw [hself]
    exact hj
  · exact hj
  · exact haligned
  · exact hj

omit [DecidableEq ι] in
theorem getElem?_rotate_ahead {q : Shared ofMap ι T} {k : ℕ}
    (hcount : count ≤ q.ring.length) (hk : k < count) :
    (q.ring.rotate count)[q.ring.length - count + k]? = some (q.ahead k) := by
  rw [List.rotate_eq_drop_append_take hcount, List.getElem?_append_right
    (by rw [List.length_drop]; omega), List.length_drop,
    Nat.add_sub_cancel_left]
  exact getElem?_take_ahead hk hcount

/-- The entries of the blocks that have been gathered are published. -/
theorem Indexed.publish (h : Indexed w B t pub served asked C s₁ s)
    (hB : 0 < B) (hw : 0 < w) (hr : Refines B t pub served b s₁)
    (howed : ∀ u i, Owes i (s₁.threads u) → Live B t pub served s₁.threads i)
    {block i : ℕ} (hth : s.threads t = .enqueue items startBlock original
      (.resetEmpty pub count block i))
    (hbase : newBase w B pub 0 = roundUp B pub)
    (hroom : roundUp B pub + count * B ≤ 2 ^ (w - 1)) (blocks : List ℕ)
    (hq : { s.shared.advance count with
      blockIndex := s.shared.blockIndex.publish } = q) :
    Indexed w B t pub served asked C
      (s₁.move t (q.withMap (s₁.shared.publish w B pub count).blockIndex)
        (.enqueue items startBlock () (.construct pub blocks items)))
      (s.move t q (.enqueue items startBlock original
        (.construct pub blocks items))) := by
  have hindex : q.blockIndex = s.shared.blockIndex.publish := by
    rw [← hq]
  have hqring : q.ring = s.shared.ring.rotate count := by
    rw [← hq]
    rfl
  have hth₁ := h.threads t
  rw [hth] at hth₁
  have hworks := hr.works
  rw [hth₁] at hworks
  obtain ⟨hg, hblock, -⟩ := hworks
  have hcount := hg.count_le
  have hdiff : roundUp B pub + count * B = roundUp B (pub + items.length) :=
    hg.diff
  have hring : s₁.shared.ring = s.shared.ring := by rw [h.shared]; rfl
  obtain ⟨lo, hsteers⟩ := h.steers_enqueue hth
  have hopened : roundUp B (reserved pub (s₁.threads t)) = roundUp B pub := by
    rw [hth₁]
    rfl
  have hwindow := hsteers.window
  have hnext := hsteers.next
  have hentries := hsteers.entries
  rw [hopened] at hnext hentries
  change (lo + s.shared.ring.length) * B = roundUp B pub + count * B at hnext
  change ∀ j x, (s.shared.ring.rotate count)[j]? = some x → _ at hentries
  change BlockIndexes.Window B _ _ _ (s.shared.ring.rotate count) at hwindow
  rw [hring] at hcount
  have hfirst : roundUp B pub = (lo + (s.shared.ring.length - count)) * B := by
    have hsum : lo + s.shared.ring.length =
        lo + (s.shared.ring.length - count) + count := by omega
    rw [hsum, Nat.add_mul _ count] at hnext
    omega
  have hfit : roundUp B pub + count * B < 2 ^ w :=
    hroom.trans_lt (Nat.pow_lt_pow_right Nat.one_lt_two (Nat.sub_lt hw one_pos))
  have hold : ∀ b < roundUp B pub,
      (s₁.shared.publish w B pub count).blockIndex b =
        s₁.shared.blockIndex b := fun b hb =>
    blockIndex_publish_of_lt hbase hfit (hring ▸ hcount) hb
  have hnew : ∀ k < count, (s₁.shared.publish w B pub count).blockIndex
      (roundUp B pub + k * B) = s₁.shared.ahead k := fun k hk =>
    blockIndex_publish hB hbase hfit (hring ▸ hcount) hk
  generalize (s₁.shared.publish w B pub count).blockIndex = m at hold hnew ⊢
  have hlive : ∀ i, Live B t pub served (s₁.move t (q.withMap m)
      (.enqueue items startBlock () (.construct pub blocks items))).threads i →
        i < roundUp B pub → Live B t pub served s₁.threads i := by
    rintro i ⟨-, hi⟩ hless
    refine ⟨hopened.symm ▸ hless, hi.imp_right fun howes => ?_⟩
    obtain ⟨u, hu⟩ := howes
    by_cases hut : u = t
    · subst hut
      rw [Pool.move_threads_self] at hu
      cases hu
    · rw [Pool.move_threads_of_ne _ _ _ hut] at hu
      exact ⟨u, hu⟩
  have hsteers' : Steers B (C s.shared.blockIndex.blockIndex) lo
      (roundUp B (pub + items.length))
      (Live B t pub served (s₁.move t (q.withMap m)
        (.enqueue items startBlock ()
          (.construct pub blocks items))).threads) m q
      (.enqueue items startBlock original (.construct pub blocks items)) := by
    refine ⟨?_, ?_, ?_, fun i hi => ?_, fun hsome => ?_⟩
    · change BlockIndexes.Window B q.blockIndex _ lo (q.ring.rotate 0)
      rw [hindex, hqring, List.rotate_zero]
      exact hwindow.publish
    · change (lo + q.ring.length) * B = _ + 0 * B
      rw [hqring, List.length_rotate, hnext, ← hdiff, Nat.zero_mul,
        Nat.add_zero]
    · change ∀ j x, (q.ring.rotate 0)[j]? = some x → _
      rw [hqring, List.rotate_zero, ← hdiff, ← hnext]
      intro j x hx hlt
      rcases Nat.lt_or_ge ((lo + j) * B) (roundUp B pub) with hless | hge
      · rw [hold _ hless]
        exact hentries j x hx hless
      · -- one of the new blocks
        rw [hfirst] at hge
        have hj := Nat.le_of_mul_le_mul_right hge hB
        have hj' := Nat.lt_of_mul_lt_mul_right hlt
        obtain ⟨k, rfl⟩ := Nat.exists_eq_add_of_le
          (show s.shared.ring.length - count ≤ j by omega)
        have hk : k < count := by omega
        have hget := getElem?_rotate_ahead (q := s₁.shared)
          (hring ▸ hcount) hk
        rw [hring, hx] at hget
        rw [← Nat.add_assoc, Nat.add_mul _ k, ← hfirst, hnew k hk]
        exact (Option.some.inj hget).symm
    · rcases Nat.lt_or_ge i (roundUp B pub) with hless | hge
      · exact hsteers.live_ge i (hlive i hi hless)
      · rw [hfirst] at hge
        exact (Nat.mul_le_mul_right B (Nat.le_add_right _ _)).trans hge
    · cases hsome
  have haligned : Aligned w B s.shared.blockIndex.publish.header
      (C s.shared.blockIndex.blockIndex)
      s.shared.blockIndex.publish.header.front := by
    have hlen : (s.shared.ring.rotate count).length = s.shared.ring.length :=
      List.length_rotate _ _
    refine hwindow.aligned_publish (fun hnil => ?_) ?_ hB
    · rw [hnil, List.length_nil] at hlen
      omega
    · rw [hlen, hnext]
      exact hroom
  have hextends : Extends w B C C (Live B t pub served s₁.threads)
      s₁.shared.blockIndex s.shared.blockIndex q.blockIndex :=
    hindex ▸ extends_publish haligned
  have hnumber : q.blockIndex.blockIndex = s.shared.blockIndex.blockIndex := by
    rw [hindex]
    rfl
  change Indexed w B t pub served asked C (s₁.move t (q.withMap m) (forget
    (.enqueue items startBlock original (.construct pub blocks items)))) _
  refine h.assemble hextends (fun u i _ hi => ?_) (fun i hi => ?_)
    (fun k hk => ?_) ?_ ?_ ?_
  · have hl := howed u i hi
    exact ⟨hl, hold _ ((blockBase_le B i).trans_lt (hopened ▸ hl.1))⟩
  · have hlt := hi.1
    rw [Pool.move_threads_self] at hlt
    have hfinds := hsteers'.finds hB hi hlt
    rw [hnumber]
    rw [hindex] at hfinds ⊢
    exact ⟨hfinds, haligned⟩
  · cases hk
  · trivial
  · rw [Pool.move_threads_self, Pool.move_threads_self, hnumber]
    exact .inl ⟨lo, hsteers'⟩
  · rw [Pool.move_threads_self]
    rintro items' startBlock' original' pc' heq
    cases heq
    exact h.asked _ _ _ _ hth

end Steps

end Explicit
end Moodycamel
end ConcurrentQueues
