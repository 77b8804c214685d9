import ConcurrentQueues.Moodycamel.Entries
import ConcurrentQueues.Moodycamel.Lookup
import ConcurrentQueues.Support.Serial

/-!
# An explicit producer with its block index

Every run with the block index of the source is one with an index that keeps all
entries, with steps in between, as long as no enqueue is refused that has put
new blocks in.  Such an enqueue leaves its blocks in the list but not their
slots in the count of those in use.
-/

namespace ConcurrentQueues

universe u v

namespace Moodycamel
namespace Explicit

open Bulk

variable {ι : Type v} {T : Type u}

section Steps

variable [DecidableEq ι] [Fintype ι] {V : Orders} {w B initialSize : ℕ}
  {producer t : ι} {row : List T} {pub asked : ℕ} {d : Desk ι}
  {tr : List (ι × Event T)} {C : ℕ → ℕ} {b : Moodycamel.State ι T}
  {s₁ : State ofMap ι T} {s : State ofArrays ι T} {e : Event T} {c : Choice T}
  {q' : Shared ofArrays ι T} {th' : Thread ofArrays ι T}

omit [DecidableEq ι] [Fintype ι] in
/-- With no slot in use there are no blocks. -/
theorem Steers.opened_eq {c lo opened : ℕ} {live : ℕ → Prop}
    {blockIndex : ℕ → ℕ} {q : Shared ofArrays ι T} {th : Thread ofArrays ι T}
    (h : Steers B c lo opened live blockIndex q th)
    (hnone : q.blockIndex.prBlockIndexSlotsUsed = 0) : opened = 0 := by
  have hnil : q.ring.rotate (gathered th) = [] :=
    List.length_eq_zero_iff.mp (h.window.used.symm.trans hnone)
  have hlen : q.ring.length = 0 := by
    rw [← List.length_rotate q.ring (gathered th), hnil, List.length_nil]
  have hnext := h.next
  rw [h.window.first hnil, hlen, Nat.zero_mul] at hnext
  omega

omit [Fintype ι] in
/-- A step in the search for blocks, which leaves those that have been found as
they are. -/
theorem Indexed.seek {served : ℕ} (h : Indexed w B t pub served asked C s₁ s)
    (howed : ∀ u i, Owes i (s₁.threads u) → Live B t pub served s₁.threads i)
    {items : List T} {startBlock : Option ℕ} {original : ℕ × ℕ}
    {pc pc' : Enqueue T}
    (hth : s.threads t = .enqueue items startBlock original pc)
    (hpc : pc.startTailIndex?.isSome) (hpc' : pc'.startTailIndex?.isSome)
    (hgathered : pc'.gathered = pc.gathered)
    (hindex : q'.blockIndex = s.shared.blockIndex)
    (hring : q'.ring = s.shared.ring)
    (hmove : move (complete w B) V w B t t s₁.shared (s₁.threads t) c =
      some (.inner, q'.withMap s₁.shared.blockIndex,
        .enqueue items startBlock () pc')) :
    Matches V w B t pub served asked s₁ t c .inner
      (.enqueue items startBlock original pc')
      (s.move t q' (.enqueue items startBlock original pc')) := by
  have hth₁ := h.threads t
  rw [hth] at hth₁
  have hnew : Enqueues (ι := ι) items
      (.enqueue items startBlock original pc') := rfl
  refine ⟨C, .inr ⟨_, hmove, h.work howed hth hindex hring hnew ?_ hgathered
    fun lo hsteers => hsteers.fallsBack.turn hpc hgathered⟩⟩
  obtain ⟨start, hstart⟩ := Option.isSome_iff_exists.mp hpc
  obtain ⟨start', hstart'⟩ := Option.isSome_iff_exists.mp hpc'
  rw [hth₁]
  exact congrArg (roundUp B) ((seeking hstart' items startBlock).2.2.trans
    (seeking hstart items startBlock).2.2.symm)

/-- An enqueue. -/
theorem indexed_enqueue (hB : 0 < B) (hw : 0 < w) (hdvd : B ∣ 2 ^ (w - 1))
    (h : Indexed w B producer pub d.served asked C s₁ s)
    (hr : Refines B producer pub d.served b s₁)
    (hb : Along producer row pub d tr b) (hbound : Bounded w tr)
    {items : List T} {startBlock : Option ℕ} {original : ℕ × ℕ}
    {pc : Enqueue T}
    (hth : s.threads t = .enqueue items startBlock original pc)
    (hstep : enqueueBulk (circular w B initialSize) V w B t s.shared items
      startBlock original pc c = some (e, q', th')) :
    Matches V w B producer pub d.served asked s₁ t c e th'
      (s.move t q' th') := by
  have hth₁ := h.threads t
  rw [hth] at hth₁
  have hbth := hr.threads t
  rw [hth₁] at hbth
  obtain rfl : t = producer := by
    have := hb.inv.run hbth
    cases pc <;> exact this
  have hworks := hr.works
  rw [hth₁] at hworks
  have hproducing := hb.inv.producing
  have hpending := hb.pending_le
  rw [hbth] at hproducing hpending
  have hle := served_le_made hr hb.inv
  have howed := fun u i => hr.live hle (t := u) (i := i)
  have hroom : pub + items.length ≤ 2 ^ (w - 1) := by
    have := hbound.1
    cases pc <;> exact (hpending.trans_lt this).le
  have hpow : 2 ^ w = 2 * 2 ^ (w - 1) := by
    rw [← Nat.pow_succ', Nat.succ_eq_add_one, Nat.sub_add_cancel hw]
  have hup := roundUp_le hB hdvd hroom
  have hpos := Nat.two_pow_pos (w - 1)
  have hbase : ∀ count, roundUp B pub + count * B ≤ 2 ^ (w - 1) →
      newBase w B pub count = roundUp B pub + count * B := fun count hcount =>
    newBase_eq hB hw hdvd ((Nat.le_add_right _ _).trans hroom) (by omega)
  have hring : s₁.shared.ring = s.shared.ring := by
    rw [h.shared]
    rfl
  have hmove : ∀ {q₁ th₁ e}, enqueueBulk (complete w B) V w B t
      (s.shared.withMap s₁.shared.blockIndex) items startBlock () pc c =
        some (e, q₁, th₁) →
      move (complete w B) V w B t t s₁.shared (s₁.threads t) c =
        some (e, q₁, th₁) := by
    intro q₁ th₁ e hm
    rw [hth₁, h.shared]
    exact hm
  revert hstep
  fun_cases enqueueBulk (circular w B initialSize) V w B t s.shared items
    startBlock original pc c <;> intro hstep
  case case1 k =>
    obtain ⟨⟨v, mem'⟩, hl, heq⟩ := Option.map_eq_some_iff.mp hstep
    cases heq
    refine ⟨C, .inr ⟨Shared.withMap { s.shared with mem := mem' } _, hmove ?_,
      h.work howed hth rfl rfl ?_ ?_ rfl fun lo hsteers _ =>
        ⟨le_rfl, hsteers.opened_eq, fun _ => rfl⟩⟩⟩
    · exact congrArg (Option.map _) hl
    · exact rfl
    · rw [hth₁]
      rfl
  case case2 start diff count =>
    cases hstep
    refine h.seek howed hth rfl ?_ ?_ rfl rfl (hmove rfl)
    · split_ifs <;> rfl
    · split_ifs <;> rfl
  case case3 start diff count i heard k hi flag =>
    obtain ⟨⟨v, mem'⟩, hl, heq⟩ := Option.map_eq_some_iff.mp hstep
    cases heq
    refine h.seek howed hth rfl ?_ ?_ rfl rfl (hmove ?_)
    · split_ifs <;> rfl
    · split_ifs <;> rfl
    · exact (if_pos hi).trans (congrArg (Option.map _) hl)
  case case6 start diff count i heard hi base =>
    cases hstep
    obtain ⟨rfl, -⟩ := hproducing
    have hlt := (Nat.add_lt_add_left hworks.2.1 _).trans_eq hworks.1.diff
    refine ⟨C, .inr ⟨_, hmove (if_neg hi), ?_⟩⟩
    exact h.found hB hr howed hth hi (hlt.trans_le hup)
      (hbase _ (hlt.le.trans hup)) rfl
  case case7 start count =>
    cases hstep
    obtain ⟨rfl, -⟩ := hproducing
    have hgo : enqueueBulk (complete w B) V w B t
        (s.shared.withMap s₁.shared.blockIndex) items startBlock ()
        (.allocate start 0 count) .go = some (.inner,
          s.shared.withMap s₁.shared.blockIndex, .enqueue items startBlock ()
            (if count = 0 then .construct start startBlock.toList items
              else .resetEmpty start count 0 0)) := rfl
    split_ifs with hcount
    · rw [if_pos hcount] at hgo
      subst hcount
      have hnew : Enqueues (ι := ι) items (.enqueue items startBlock original
        (.construct start startBlock.toList items)) := rfl
      refine ⟨C, .inr ⟨_, hmove hgo, h.work howed hth rfl rfl hnew ?_ rfl
        fun _ _ hsome => by cases hsome⟩⟩
      rw [hth₁]
      have hdiff := hworks.diff
      rw [Nat.zero_mul] at hdiff
      exact hdiff.symm
    · rw [if_neg hcount] at hgo
      exact h.seek howed hth rfl rfl rfl rfl rfl (hmove hgo)
  case case9 start diff count hdiff hno original' blockIndex hgrow =>
    cases hstep
    obtain ⟨rfl, -⟩ := hproducing
    have hlt := (Nat.add_lt_add_left (Nat.pos_of_ne_zero hdiff) _).trans_eq
      hworks.diff
    have hfull : s.shared.blockIndex.prBlockIndexSlotsUsed =
        s.shared.blockIndex.header.size := by
      by_contra hne
      exact hno (decide_eq_true hne)
    obtain ⟨C', hgrown⟩ := h.grow hB howed hth hfull (hlt.trans_le hup)
    cases hgrow
    exact ⟨C', .inl ⟨rfl, hgrown⟩⟩
  case case10 start diff count hdiff =>
    cases hstep
    obtain ⟨rfl, -⟩ := hproducing
    exact ⟨C, .inr ⟨_, hmove (if_pos hdiff),
      h.refuse hB hr howed hth hdiff rfl⟩⟩
  case case12 start diff count newBlock setAll hnew base =>
    cases hstep
    obtain ⟨rfl, -⟩ := hproducing
    have hlt := (Nat.add_lt_add_left hnew.1 _).trans_eq hworks.diff
    refine ⟨C, .inr ⟨_, hmove (if_pos ?_), ?_⟩⟩
    · exact ⟨hnew.1, rfl, hnew.2.2⟩
    · refine h.newBlock hB howed hth (hring ▸ hworks.count_le)
        (of_decide_eq_true hnew.2.1) (hlt.trans_le hup)
        (hbase _ (hlt.le.trans hup)) rfl ?_ ?_
      · split_ifs <;> rfl
      · split_ifs <;> rfl
  case case14 start diff count i hi flag =>
    cases hstep
    exact h.seek howed hth rfl rfl rfl rfl rfl (hmove (if_pos hi))
  case case15 start diff count i hi =>
    cases hstep
    exact h.seek howed hth rfl rfl rfl rfl rfl (hmove (if_neg hi))
  case case16 start count block i hi flag =>
    cases hstep
    exact h.seek howed hth rfl rfl rfl rfl rfl (hmove (if_pos hi))
  case case17 start count block i hi hlt =>
    cases hstep
    exact h.seek howed hth rfl rfl rfl rfl rfl
      (hmove ((if_neg hi).trans (if_pos hlt)))
  case case18 start count block i hi hlast blocks =>
    cases hstep
    obtain ⟨rfl, -⟩ := hproducing
    obtain ⟨hg, hblock, -⟩ := hworks
    have hdiff := hg.diff
    have hfirst := hbase 0 (by omega)
    rw [Nat.zero_mul, Nat.add_zero] at hfirst
    have hblocks : (s₁.shared.publish w B start count).blockIndex =
        (complete w B).publish start blocks s₁.shared.blockIndex := by
      rw [Shared.publish, hring]
    have hpublish := h.publish hB hw hr howed hth hfirst (by omega)
      ((if B ∣ start then [] else startBlock.toList) ++ blocks) rfl
    rw [hblocks] at hpublish
    exact ⟨C, .inr ⟨_, hmove ((if_neg hi).trans (if_neg hlast)), hpublish⟩⟩
  case case19 current blocks element rest next place =>
    cases hstep
    obtain ⟨hitems, rfl⟩ := hproducing
    have hlen : pub + items.length = row.length + (rest.length + 1) := by
      have := hb.inv.mem.pub_le
      rw [hitems, List.length_append, List.length_drop, List.length_cons]
      omega
    have hnext : next = row.length + 1 := add_of_lt (by
      have := hpending.trans_lt hbound.1
      change pub + items.length < _ at this
      omega)
    have hnew : Enqueues (ι := ι) items (.enqueue items startBlock original
      (.construct next (if B ∣ next then blocks.tail else blocks) rest)) := rfl
    refine ⟨C, .inr ⟨Shared.withMap { s.shared with
      mem := s.shared.mem.write t place (some element) } _, hmove rfl,
      h.work howed hth rfl rfl hnew ?_ rfl
        fun _ _ hsome => by cases hsome⟩⟩
    rw [hth₁]
    change roundUp B (next + rest.length) =
      roundUp B (row.length + (rest.length + 1))
    rw [hnext, Nat.add_assoc, Nat.add_comm 1]
  case case20 newTail blocks mem =>
    cases hstep
    obtain ⟨hitems, rfl⟩ := hproducing
    have hlen : pub + items.length = row.length := by
      have := hb.inv.mem.pub_le
      rw [hitems, List.length_append, List.length_drop, List.length_nil]
      omega
    have hnew : Enqueues (ι := ι) items (.done (.enqueued true)) := trivial
    refine ⟨C, .inr ⟨Shared.withMap { s.shared with mem := mem } _, hmove rfl,
      h.work howed hth rfl rfl hnew ?_ rfl fun _ _ => trivial⟩⟩
    rw [hth₁]
    exact congrArg (roundUp B) hlen
  all_goals cases hstep

/-- One step of a thread. -/
theorem indexed (hB : 0 < B) (hw : 0 < w) (hdvd : B ∣ 2 ^ (w - 1))
    (h : Indexed w B producer pub d.served asked C s₁ s)
    (hr : Refines B producer pub d.served b s₁)
    (hb : Along producer row pub d tr b) (hbound : Bounded w tr)
    (hgood : e = .ret (.enqueued false) → asked ≤ B)
    (hstep : move (circular w B initialSize) V w B producer t s.shared
      (s.threads t) c = some (e, q', th')) :
    Matches V w B producer pub d.served asked s₁ t c e th'
      (s.move t q' th') := by
  have hle := served_le_made hr hb.inv
  have hth₁ := h.threads t
  generalize hth : s.threads t = th at hstep
  rw [hth] at hth₁
  revert hstep
  fun_cases move (circular w B initialSize) V w B producer t s.shared th c <;>
    intro hstep
  case case1 op hop =>
    cases hstep
    refine ⟨C, .inr ⟨s.shared.withMap s₁.shared.blockIndex, ?_,
      h.rest hr hle ?_ (fun _ hdone => ?_) ?_ rfl rfl le_rfl (fun i hi => ?_)
        (fun k hk => ?_) ?_ ?_ fun ht => ?_⟩⟩
    · rw [hth₁, h.shared]
      refine (if_pos hop).trans ?_
      cases op <;> rfl
    · rw [hth₁]
      trivial
    · rw [hth] at hdone
      cases hdone
    · cases op <;> trivial
    · cases op <;> cases hi
    · cases op <;> cases hk
    · cases op <;> trivial
    · intro items startBlock original pc heq
      cases op <;> cases heq
      rfl
    · cases op with
      | enqueueBulk => exact absurd hop ht
      | dequeueBulk => rfl
  case case3 items startBlock original pc =>
    exact indexed_enqueue hB hw hdvd h hr hb hbound hth hstep
  case case4 => exact indexed_dequeue hB hw h hr hb hbound hth hstep
  case case5 r =>
    cases hstep
    refine ⟨C, .inr ⟨s.shared.withMap s₁.shared.blockIndex, ?_,
      h.rest hr hle ?_ (fun _ hdone => ?_) trivial rfl rfl le_rfl
        (fun i hi => hi.elim) (fun k hk => by cases hk) trivial
        (fun _ _ _ _ heq => by cases heq) fun _ => rfl⟩⟩
    · rw [hth₁, h.shared]
      rfl
    · rw [hth₁]
      trivial
    · rw [hth] at hdone
      cases hdone
      exact hgood rfl
  all_goals cases hstep

omit [Fintype ι] in
theorem indexed_init (hB : 0 < B) (hinitial : 0 < initialSize) :
    Indexed w B producer 0 0 0 (fun _ => 0)
      (system (complete w B) V w B producer T).init
      (system (circular w B initialSize) V w B producer T).init where
  threads _ := rfl
  shared := rfl
  serves := by
    have hnone : ∀ i, ¬Live B producer 0 0
        (system (complete w B) V w B producer T).init.threads i := by
      intro i hi
      have hlt := hi.1
      change i < roundUp B (reserved (ι := ι) (T := T) 0 .idle) at hlt
      rw [show reserved (ι := ι) (T := T) 0 .idle = 0 from rfl,
        roundUp_zero hB] at hlt
      omega
    refine ⟨fun i hi => absurd hi (hnone i), fun i hi => absurd hi (hnone i),
      fun t k hk => ?_, fun t k hk => ?_, fun _ => trivial⟩
    · cases hk
    · cases hk
  steers := by
    refine .inl ⟨0, BlockIndexes.window_new hinitial, ?_, fun j x hx => ?_,
      fun i _ => ?_, trivial⟩
    · change (0 + 0) * B = roundUp B 0 + 0 * B
      rw [roundUp_zero hB, Nat.zero_add, Nat.zero_add]
    · cases hx
    · rw [Nat.zero_mul]
      exact Nat.zero_le i
  asked _ _ _ _ heq := by cases heq

/-! ## Runs -/

/-- Of the enqueues that are refused none was called with more elements than a
block has places. -/
def Modest (B : ℕ) (tr : List (ι × Event T)) : Prop :=
  ∀ pre t, pre ++ [(t, .ret (.enqueued false))] <+: tr → lastAsked pre ≤ B

omit [DecidableEq ι] [Fintype ι] in
theorem Modest.init {a : ι × Event T} (h : Modest B (tr ++ [a])) :
    Modest B tr := fun pre t hpre =>
  h pre t (hpre.trans (List.prefix_append tr [a]))

omit [DecidableEq ι] [Fintype ι] in
theorem lastAsked_snoc (tr : List (ι × Event T)) (a : ι × Event T) :
    lastAsked (tr ++ [a]) = a.2.asks.getD (lastAsked tr) :=
  List.foldl_append

/-- Every run is one with an index that keeps all entries. -/
theorem indexed_of_run (hV : V.Synchronizes) (hB : 0 < B) (hw : 0 < w)
    (hdvd : B ∣ 2 ^ (w - 1)) (hinitial : 0 < initialSize)
    (hrun : (system (circular w B initialSize) V w B producer T).Run tr s)
    (hbound : Bounded w tr) (hmodest : Modest B tr) :
    ∃ tr₁ s₁ C, (system (complete w B) V w B producer T).Run tr₁ s₁ ∧
      SameTrace tr₁ tr ∧ Indexed w B producer (published tr).length (taken tr)
        (lastAsked tr) C s₁ s := by
  revert hbound hmodest
  refine Lts.Run.induction (P := fun tr s => Bounded w tr → Modest B tr →
    ∃ tr₁ s₁ C, (system (complete w B) V w B producer T).Run tr₁ s₁ ∧
      SameTrace tr₁ tr ∧ Indexed w B producer (published tr).length (taken tr)
        (lastAsked tr) C s₁ s)
    (fun _ _ => ⟨[], _, _, .init, ⟨rfl, rfl, rfl, rfl, rfl⟩,
      indexed_init hB hinitial⟩) ?_ hrun
  rintro tr s ⟨t, e⟩ s' - ih ⟨c, q', th', hstep, rfl⟩ hbound hmodest
  obtain ⟨tr₁, s₁, C, hrun₁, hsame, h⟩ := ih hbound.init hmodest.init
  have hbound₁ := hsame.bounded hbound.init
  obtain ⟨tr₀, b, hrun₀, hsame₀, hr⟩ :=
    refines_of_run hV hB hw hdvd hrun₁ hbound₁
  have hbound₀ := hsame₀.bounded hbound₁
  obtain ⟨row, pub, d, hb⟩ := along_of_run hV hw hrun₀ hbound₀
  have hpub : pub = (published tr).length := by
    rw [hb.pub_eq, hsame₀.published, hsame.published]
  have hserved : d.served = taken tr := by
    rw [hb.served_eq, hsame₀.taken, hsame.taken]
  rw [← hpub, ← hserved] at h
  rw [← hsame₀.published, ← hb.pub_eq, ← hsame₀.taken, ← hb.served_eq] at hr
  have hgood : e = .ret (.enqueued false) → lastAsked tr ≤ B := by
    rintro rfl
    exact hmodest tr t List.prefix_rfl
  obtain ⟨C', ⟨rfl, h'⟩ | ⟨q₁, hstep₁, h'⟩⟩ :=
    indexed hB hw hdvd h hr hb hbound₀ hgood hstep
  · refine ⟨tr₁, s₁, C', hrun₁, hsame.inner t, ?_⟩
    rw [published_snoc, taken_snoc, lastAsked_snoc, List.length_append, ← hpub,
      ← hserved]
    exact h'
  · refine ⟨tr₁ ++ [(t, e)], _, C', hrun₁.tail ⟨c, q₁, _, hstep₁, rfl⟩,
      hsame.snoc (t, e), ?_⟩
    rw [published_snoc, taken_snoc, lastAsked_snoc, List.length_append, ← hpub,
      ← hserved]
    exact h'

omit [DecidableEq ι] [Fintype ι] in
theorem accesses_forget (th : Thread ofArrays ι T) :
    accesses (complete w B) w B (forget th) =
      accesses (circular w B initialSize) w B th := by
  cases th with
  | enqueue items startBlock original pc =>
      cases pc with
      | construct current blocks rest => cases rest <;> rfl
      | _ => rfl
  | dequeue max pc => cases pc <;> rfl
  | _ => rfl

omit [DecidableEq ι] [Fintype ι] in
theorem Indexed.not_racing {served : ℕ}
    (h : Indexed w B producer pub served asked C s₁ s)
    (hsafe : ¬Racing (complete w B) w B s₁) :
    ¬Racing (circular w B initialSize) w B s := by
  rintro ⟨t, place, hplace, hrace⟩
  refine hsafe ⟨t, place, ?_, ?_⟩
  · rw [h.threads t, accesses_forget]
    exact hplace
  · rw [h.shared]
    exact hrace

/-- With orders that synchronize, and as long as the words are not exhausted and
no enqueue of more than a block is refused, the elements in the blocks are a
FIFO queue for any number of threads, and no access to a place of a block races,
however often the blocks and the slots of the block index are used again. -/
theorem blocksFifo_of_synchronizes (hV : V.Synchronizes) (hB : 0 < B)
    (hw : 0 < w) (hdvd : B ∣ 2 ^ (w - 1)) (hinitial : 0 < initialSize) :
    (Bulk.object T B).ImplementsWhile
      (system (circular w B initialSize) V w B producer T)
      (fun tr => Bounded w tr ∧ Modest B tr) shows fun tr s o =>
        o.shared = ⟨(published tr).length, (published tr).drop (taken tr)⟩ ∧
          taken tr ≤ (published tr).length ∧
          ¬Racing (circular w B initialSize) w B s := by
  rintro tr s hrun ⟨hbound, hmodest⟩
  obtain ⟨tr₁, s₁, C, hrun₁, hsame, h⟩ :=
    indexed_of_run hV hB hw hdvd hinitial hrun hbound hmodest
  obtain ⟨tr', o, hrun', hseen, hshared, hle, hsafe⟩ :=
    completeFifo_of_synchronizes hV hB hw hdvd tr₁ s₁ hrun₁
      (hsame.bounded hbound)
  rw [hsame.published, hsame.taken] at hshared hle
  exact ⟨tr', o, hrun', hseen.trans hsame.shows, hshared, hle,
    h.not_racing hsafe⟩

theorem blocksFifo_of_synchronizes_source :
    (Bulk.object ℕ 32).ImplementsWhile
      (system (circular 64 32 32) ConcurrentQueue 64 32 (0 : Fin 8) ℕ)
      (fun tr => Bounded 64 tr ∧ Modest 32 tr) shows fun tr s o =>
        o.shared = ⟨(published tr).length, (published tr).drop (taken tr)⟩ ∧
          taken tr ≤ (published tr).length ∧
          ¬Racing (circular 64 32 32) 64 32 s :=
  blocksFifo_of_synchronizes ⟨rfl, rfl, rfl, rfl⟩ (by decide) (by decide)
    (by decide) (by decide)

end Steps

/-! ## What a refused enqueue leaves behind -/

section Overrun

theorem filterMap_shows (tr : List (ι × Event T)) :
    (tr.filter fun a => (shows a).isSome).filterMap shows =
      tr.filterMap shows := by
  rw [List.filterMap_filter]
  congr 1
  funext a
  cases shows a <;> rfl

/-- The second enqueue is refused after it has put in a new block, because the
two slots are in use.  The third one takes that block, the fourth one gets
another, and its entry overwrites that of the first block. -/
def overrun : List (Unit × Choice ℕ) :=
  let go (n : ℕ) : List (Choice ℕ) := .replicate n .go
  let call (op : Op ℕ) (choices : List (Choice ℕ)) :
      List (Unit × Choice ℕ) := (.call op :: choices).map (((), ·))
  call (.enqueueBulk [0, 1]) (.see 0 :: .go :: .block 0 true :: go 11) ++
    call (.enqueueBulk [2, 3, 4, 5])
      (.see 1 :: .go :: .see 2 :: .block 1 true :: go 3 ++ [.fail, .go]) ++
    call (.enqueueBulk [2, 3]) (.see 1 :: .go :: .see 1 :: .see 1 :: go 10) ++
    call (.enqueueBulk [4, 5])
      (.see 2 :: .go :: .see 2 :: .block 2 true :: go 11) ++
    call (.dequeueBulk 1)
      (.see 3 :: .see 0 :: .see 0 :: .go :: .go :: .see 3 :: go 9)

def overrunCalls : List (Unit × Op ℕ × Res ℕ) :=
  [((), .enqueueBulk [0, 1], .enqueued true),
    ((), .enqueueBulk [2, 3, 4, 5], .enqueued false),
    ((), .enqueueBulk [2, 3], .enqueued true),
    ((), .enqueueBulk [4, 5], .enqueued true),
    ((), .dequeueBulk 1, .dequeued [some 4])]

theorem exec_overrun : (Lts.exec
    (Pool.next (move (circular 64 2 2) ConcurrentQueue 64 2 () ()))
    ⟨.new (circular 64 2 2), fun _ => .idle⟩ overrun).map
      (fun r => (r.1.filter fun a => (shows a).isSome, requested r.1,
        drawn r.1)) =
    some (overrunCalls.flatMap fun c => [(c.1, .call c.2.1), (c.1, .ret c.2.2)],
      10, 1) := by
  decide +kernel

/-- No FIFO queue returns this. -/
theorem not_path_overrunCalls {q : Contents ℕ} :
    ¬(Bulk.object ℕ 2).sequential.Path ⟨0, []⟩
      (overrunCalls.map Prod.snd) q := by
  intro hpath
  obtain ⟨q₁, hfirst, hpath⟩ := hpath.head
  obtain ⟨q₂, hrefused, hpath⟩ := hpath.head
  obtain ⟨q₃, hthird, hpath⟩ := hpath.head
  obtain ⟨q₄, hfourth, hpath⟩ := hpath.head
  obtain ⟨q₅, hdequeue, -⟩ := hpath.head
  change Apply 2 _ _ _ _ at hfirst hrefused hthird hfourth hdequeue
  cases hfirst
  cases hrefused
  cases hthird
  cases hfourth
  generalize hr : Res.dequeued [some 4] = r at hdequeue
  cases hdequeue with
  | @dequeue _ _ _ n hmax hn =>
      -- at most one item comes out, and it is not the first one
      have hitems := Res.dequeued.inj hr
      obtain rfl | rfl := Nat.le_one_iff_eq_zero_or_eq_one.mp hmax
      · cases hitems
      · cases hitems

/-- After an enqueue of more than a block was refused the elements need not be a
FIFO queue. -/
theorem not_fifo_of_refused :
    ¬(Bulk.object ℕ 2).ImplementsWhile
      (system (circular 64 2 2) ConcurrentQueue 64 2 () ℕ)
      (Bounded 64) shows fun _ _ _ => True := by
  intro himpl
  obtain ⟨⟨tr, s⟩, hexec, hlast⟩ := Option.map_eq_some_iff.mp exec_overrun
  obtain ⟨hcalls, hrequested, hdrawn⟩ :=
    by simpa only [Prod.mk.injEq] using hlast
  have hrun : (system (circular 64 2 2) ConcurrentQueue 64 2 () ℕ).Run tr
      s := by
    refine Lts.path_of_exec (fun s c a s' h => ?_) hexec
    obtain ⟨⟨e, q, th⟩, hmove, heq⟩ := Option.map_eq_some_iff.mp h
    cases heq
    exact ⟨c.2, q, th, hmove, rfl⟩
  have hbound : Bounded 64 tr := by
    rw [Bounded, hrequested, hdrawn]
    decide
  obtain ⟨tr', a, hrun', hseen, -⟩ := himpl tr s hrun hbound
  have hserial : tr'.filterMap SeqObject.seen =
      SeqObject.serial overrunCalls := by
    rw [hseen, ← filterMap_shows, hcalls]
    rfl
  exact not_path_overrunCalls
    (SeqObject.path_serial hrun' (fun _ => rfl) hserial).2

end Overrun

end Explicit
end Moodycamel
end ConcurrentQueues
