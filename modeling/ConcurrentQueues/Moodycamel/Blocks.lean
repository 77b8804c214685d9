import ConcurrentQueues.Moodycamel.Emptying
import ConcurrentQueues.Moodycamel.Gathering

/-!
# An explicit producer is a FIFO queue

Every run on the blocks is a run on the counters with steps in between, so the
elements come out in the order in which they went in although their places are
used again, and no access to a place races.
-/

namespace ConcurrentQueues

universe u v

namespace Moodycamel
namespace Explicit

open Bulk

variable {ι : Type v} {T : Type u}

/-- What a step on the blocks means on the counters: nothing, or a step. -/
def Follows [DecidableEq ι] (V : Orders) (w B : ℕ) (producer : ι)
    (pub served : ℕ) (b : Moodycamel.State ι T) (t : ι) (e : Event T)
    (s' : State ofMap ι T) : Prop :=
  e = .inner ∧ Refines B producer pub served b s' ∨
    ∃ m' th, Move V w B producer t b.shared (b.threads t) e m' th ∧
      Refines B producer (pub + e.published.length) (served + e.taken)
        (b.move t m' th) s'

section Steps

variable [DecidableEq ι] [Fintype ι] {V : Orders} {w B : ℕ} {producer t : ι}
  {row : List T} {pub : ℕ} {d : Desk ι} {tr : List (ι × Event T)}
  {b : Moodycamel.State ι T} {s : State ofMap ι T} {e : Event T} {c : Choice T}
  {q' : Shared ofMap ι T} {th' : Thread ofMap ι T}

omit [DecidableEq ι] in
theorem made_eq (h : Refines B producer pub d.served b s)
    (hb : Inv producer row pub d b) :
    made pub (s.threads producer) = row.length := by
  have hproducing := hb.producing
  rw [h.threads] at hproducing
  cases hth : s.threads producer with
  | idle | done =>
      rw [hth] at hproducing
      exact hproducing.symm
  | enqueue items startBlock original pc =>
      rw [hth] at hproducing
      cases pc with
      | load => exact hproducing.symm
      | construct => exact hproducing.2
      | _ => exact hproducing.2.symm
  | dequeue max pc =>
      rw [hth] at hproducing
      cases pc <;> exact hproducing.symm

omit [DecidableEq ι] in
theorem served_le_made (h : Refines B producer pub d.served b s)
    (hb : Inv producer row pub d b) :
    d.served ≤ made pub (s.threads producer) := by
  rw [made_eq h hb]
  exact hb.served_le.trans hb.mem.pub_le

omit [Fintype ι] in
theorem follows_inner {served : ℕ} {s' : State ofMap ι T}
    (h : Refines B producer pub served b s') :
    Follows V w B producer pub served b t .inner s' :=
  .inl ⟨rfl, h⟩

omit [Fintype ι] in
theorem follows_move {served : ℕ} {s' : State ofMap ι T}
    {m' : Moodycamel.Memory ι T} {th₀ th : Moodycamel.Thread T}
    (hth : b.threads t = th₀)
    (hmove : Move V w B producer t b.shared th₀ e m' th)
    (h : Refines B producer (pub + e.published.length) (served + e.taken)
      (b.move t m' th) s') :
    Follows V w B producer pub served b t e s' :=
  .inr ⟨m', th, hth.symm ▸ hmove, h⟩

/-- An enqueue. -/
theorem follows_enqueue (hB : 0 < B) (hw : 0 < w) (hdvd : B ∣ 2 ^ (w - 1))
    (h : Refines B producer pub d.served b s)
    (hb : Along producer row pub d tr b) (hbound : Bounded w tr)
    {items : List T} {startBlock : Option ℕ} {pc : Enqueue T}
    (hth : s.threads t = .enqueue items startBlock () pc)
    (hstep : enqueueBulk (complete w B) V w B t s.shared items startBlock ()
      pc c = some (e, q', th')) :
    Follows V w B producer pub d.served b t e (s.move t q' th') := by
  have hbth := h.threads t
  rw [hth] at hbth
  obtain rfl : t = producer := by
    have := hb.inv.run hbth
    cases pc <;> exact this
  have hserved := hb.inv.served_le
  have hproducing := hb.inv.producing
  have hpending := hb.pending_le
  rw [hbth] at hproducing hpending
  have hroom : pub + items.length ≤ 2 ^ (w - 1) := by
    have := hbound.1
    cases pc <;> exact (hpending.trans_lt this).le
  have hfit : roundUp B (pub + items.length) < 2 ^ w := by
    have hpow : 2 ^ w = 2 * 2 ^ (w - 1) := by
      rw [← Nat.pow_succ', Nat.succ_eq_add_one, Nat.sub_add_cancel hw]
    have hle := roundUp_le hB hdvd hroom
    have hpos := Nat.two_pow_pos (w - 1)
    omega
  revert hstep
  fun_cases enqueueBulk (complete w B) V w B t s.shared items startBlock () pc c
    <;> intro hstep
  case case1 k =>
    obtain ⟨⟨v, mem'⟩, hl, heq⟩ := Option.map_eq_some_iff.mp hstep
    cases heq
    obtain ⟨m', hl', hin⟩ := inStep_of_load h.below hb.inv.mem.wf h.wf hl
    obtain rfl := hb.inv.own_tail hl'
    exact follows_move hbth (.start hl') (h.load hB hw hdvd hth hin.below
      hin.cells hin.quiet hin.wf hserved hroom)
  case case2 =>
    cases hstep
    exact follows_inner (h.reuse hth)
  case case3 hi _ =>
    obtain ⟨⟨v, mem'⟩, hl, heq⟩ := Option.map_eq_some_iff.mp hstep
    cases heq
    exact follows_inner (h.see hth hi hl)
  case case6 hi _ =>
    cases hstep
    obtain ⟨rfl, -⟩ := hproducing
    exact follows_inner (h.found hth hi hfit)
  case case7 count =>
    cases hstep
    obtain ⟨rfl, -⟩ := hproducing
    split_ifs with hcount
    · subst hcount
      exact follows_move hbth .allocate (h.append hB hth)
    · exact follows_inner (h.gathered hth hcount)
  case case9 hno _ _ _ => exact absurd rfl hno
  case case10 hpos =>
    cases hstep
    obtain ⟨rfl, -⟩ := hproducing
    have hg := h.works
    rw [hth] at hg
    have hdiff := hg.diff
    refine follows_move hbth (.refuse ?_) (h.refuse hB hserved hth)
    rw [blockBaseDiff_eq hB hw hdvd hroom]
    omega
  case case12 setAll hnew _ =>
    cases hstep
    obtain ⟨rfl, -⟩ := hproducing
    exact follows_inner (h.newBlock setAll hth hnew.1 hnew.2.2.1 hfit)
  case case14 hi _ =>
    cases hstep
    exact follows_inner (h.setAllEmpty hB hth hi)
  case case15 =>
    cases hstep
    obtain ⟨rfl, -⟩ := hproducing
    exact follows_inner (h.allSet hth hfit)
  case case16 hi _ =>
    cases hstep
    exact follows_inner (h.resetEmpty hB hth hi)
  case case17 hi hlt =>
    cases hstep
    exact follows_inner (h.nextReset hth hi hlt)
  case case18 hi hlast _ =>
    cases hstep
    obtain ⟨rfl, -⟩ := hproducing
    exact follows_move hbth .allocate
      (h.advance hB hw hdvd hth hi hlast hserved hroom)
  case case19 current blocks element rest next place =>
    cases hstep
    obtain ⟨hitems, rfl⟩ := hproducing
    have hlen : pub + items.length = row.length + (rest.length + 1) := by
      have := hb.inv.mem.pub_le
      rw [hitems, List.length_append, List.length_drop, List.length_cons]
      omega
    have hnext : next = row.length + 1 := add_of_lt (by
      have := hpending.trans_lt hbound.1
      change pub + items.length < _ at this
      omega)
    have hmove : Move V w B t t b.shared
        (.enqueue items (.construct row.length (element :: rest))) .inner
        (b.shared.write t row.length (some element))
        (.enqueue items (.construct next rest)) := .construct
    rw [hnext] at hmove ⊢
    exact follows_move hbth hmove (h.construct hB hth
      (hserved.trans hb.inv.mem.pub_le) (hb.inv.mem.fresh _ le_rfl))
  case case20 =>
    cases hstep
    obtain ⟨hitems, rfl⟩ := hproducing
    have hlen : pub + items.length = row.length := by
      have := hb.inv.mem.pub_le
      rw [hitems, List.length_append, List.length_drop, List.length_nil]
      omega
    exact follows_move hbth .publish
      (h.publish hth (hserved.trans hb.inv.mem.pub_le) hlen)
  all_goals cases hstep

omit [Fintype ι] in
theorem published_of_dequeue {m' : Moodycamel.Memory ι T}
    {th : Moodycamel.Thread T} {max : ℕ} {pc : Moodycamel.Dequeue T}
    (hmove : Move V w B producer t b.shared (.dequeue max pc) e m' th) :
    e.published = [] := by
  cases hmove <;> rfl

/-- A dequeue. -/
theorem follows_dequeue (hV : V.Synchronizes) (hB : 0 < B) (hw : 0 < w)
    (hfit : B ≤ 2 ^ w) (h : Refines B producer pub d.served b s)
    (hb : Along producer row pub d tr b) (hsafe : ¬Moodycamel.Racing w b)
    (hbound : Bounded w (tr ++ [(t, e)])) {max : ℕ} {pc : Dequeue ofMap ι T}
    (hth : s.threads t = .dequeue max pc)
    (hstep : dequeueBulk (complete w B) V w B t s.shared max pc c =
      some (e, q', th')) :
    Follows V w B producer pub d.served b t e (s.move t q' th') := by
  have hbth := h.threads t
  rw [hth] at hbth
  have hle := served_le_made h hb.inv
  have hpub := hb.inv.served_le
  have hhalf := (Nat.le_add_right _ _).trans_lt
    (hb.pending_le.trans_lt hbound.init.1)
  have hclears := h.clears t
  rw [hth] at hclears
  revert hstep
  fun_cases dequeueBulk (complete w B) V w B t s.shared max pc c <;>
    intro hstep
  case case1 pc =>
    obtain ⟨⟨e', mem', th⟩, hcount, heq⟩ := Option.map_eq_some_iff.mp hstep
    cases heq
    obtain ⟨m', hmove, hin, hcounted⟩ := move_of_dequeueCount (V := V) (t := t)
      h.below hb.inv.mem.wf h.wf hcount
    have hbmove : Move V w B producer t b.shared (b.threads t) e m' th := by
      rw [hbth]
      exact hmove
    obtain ⟨row', pub', d', h'⟩ := hb.step hV hw hbmove hbound
    have hless := h'.inv.served_le
    rw [h'.served_eq, h'.pub_eq, taken_snoc, published_snoc, ← hb.served_eq,
      List.length_append, ← hb.pub_eq] at hless
    have hnone := published_of_dequeue hmove
    have hcount' := h.count hth hin hcounted hb.inv.mem.head (by
      rw [made_eq h hb.inv]
      have := hb.inv.mem.pub_le
      change d.served + e.taken ≤ pub + e.published.length at hless
      rw [hnone, List.length_nil] at hless
      omega)
    refine follows_move hbth hmove ?_
    rw [hnone]
    exact hcount'
  case case2 first actual search =>
    cases hstep
    split_ifs with hactual
    · subst hactual
      refine follows_move hbth (.finish (Nat.lt_irrefl 0))
        (h.turn rfl ?_ trivial (fun i hi => ?_) hle trivial)
      · rw [hth]
        trivial
      · cases hi
    · exact follows_inner (h.locate hth hle rfl)
  case case3 first actual got base found hlt index place mem got' =>
    cases hstep
    obtain ⟨-, -, -, hfirst, -⟩ := hb.inv.run hbth
    have hindex : index = first + got.length := add_of_lt (by omega)
    have hnext : (SizeT.bits w).add index 1 = first + got.length + 1 := by
      rw [hindex]
      exact add_of_lt (by omega)
    have hwrite : b.shared.WriteSafe t (first + got.length) := by
      by_contra hrace
      refine hsafe ⟨t, first + got.length, ?_, hrace⟩
      rw [hbth]
      exact (if_pos hlt).trans (congrArg some hindex)
    have hmove : Move V w B producer t b.shared
        (.dequeue max (.read first actual got)) .inner
        (b.shared.write t index none) (.dequeue max (.read first actual
          (got ++ [(b.shared.cells index).data]))) := .read hlt
    have hplace : s.shared.place B (first + got.length) = place := by
      rw [h.read_place hth hlt, ← hindex]
      rfl
    rw [hindex] at hmove
    rw [hnext]
    exact follows_move hbth hmove
      (h.read hB hth hlt hle hwrite hplace rfl rfl)
  case case5 first actual got base found fenced j index count hj i mem =>
    cases hstep
    obtain ⟨-, -, -, hfirst, -⟩ := hb.inv.run hbth
    obtain ⟨hgot, hbase, -⟩ := hclears
    have hindex : index = first + got.length := add_of_lt (by omega)
    have hcount : count = index - base :=
      SizeT.sub_of_fits (SizeT.fits_bits.mpr (by
        rw [hindex]
        exact (show first + got.length < 2 ^ (w - 1) by omega).trans_le
          (Nat.pow_le_pow_right (by omega) (Nat.sub_le w 1)))) (by omega)
    exact follows_inner (h.setManyEmpty hB hfit hth (by omega) hj hle rfl)
  case case6 first actual got base found fenced j index count hj =>
    cases hstep
    obtain ⟨-, -, -, hfirst, -⟩ := hb.inv.run hbth
    have hindex : index = first + got.length :=
      add_of_lt (by have := hclears.1; omega)
    split_ifs with hlt
    · rw [hindex]
      exact follows_inner (h.nextBlock hth hle rfl)
    · refine follows_move hbth (.finish hlt)
        (h.turn rfl ?_ trivial (fun i hi => ?_) hle trivial)
      · rw [hth]
        trivial
      · cases hi
  all_goals cases hstep

/-- One step of a thread. -/
theorem follows (hV : V.Synchronizes) (hB : 0 < B) (hw : 0 < w)
    (hdvd : B ∣ 2 ^ (w - 1)) (h : Refines B producer pub d.served b s)
    (hb : Along producer row pub d tr b) (hsafe : ¬Moodycamel.Racing w b)
    (hbound : Bounded w (tr ++ [(t, e)]))
    (hstep : move (complete w B) V w B producer t s.shared (s.threads t) c =
      some (e, q', th')) :
    Follows V w B producer pub d.served b t e (s.move t q' th') := by
  have hle := served_le_made h hb.inv
  have hbth := h.threads t
  generalize hth : s.threads t = th at hstep
  rw [hth] at hbth
  revert hstep
  fun_cases move (complete w B) V w B producer t s.shared th c <;> intro hstep
  case case1 op hop =>
    cases hstep
    refine follows_move hbth (.call hop)
      (h.turn ?_ ?_ ?_ (fun i hi => ?_) hle ?_)
    · cases op <;> rfl
    · rw [hth]
      trivial
    · cases op <;> trivial
    · cases op <;> cases hi
    · cases op <;> trivial
  case case3 => exact follows_enqueue hB hw hdvd h hb hbound.init hth hstep
  case case4 =>
    have hfit : B ≤ 2 ^ w :=
      (Nat.le_of_dvd (Nat.two_pow_pos _) hdvd).trans
        (Nat.pow_le_pow_right Nat.two_pos (Nat.sub_le w 1))
    exact follows_dequeue hV hB hw hfit h hb hsafe hbound hth hstep
  case case5 r =>
    cases hstep
    refine follows_move hbth .ret (h.turn rfl ?_ trivial (fun i hi => ?_) hle
      trivial)
    · rw [hth]
      trivial
    · cases hi
  all_goals cases hstep

omit [Fintype ι] in
theorem refines_init (hB : 0 < B) : Refines B producer 0 0
    (Moodycamel.system V w B producer T).init
    (system (complete w B) V w B producer T).init where
  threads _ := rfl
  below := ViewMemory.below_init fun _ => rfl
  wf := ViewMemory.wellFormed_init
  storage := by
    have hopened : roundUp B (reserved (ι := ι) (T := T) 0 .idle) = 0 :=
      roundUp_zero hB
    have hidle : (system (complete w B) V w B producer T).init.threads
        producer = .idle := rfl
    rw [Stored, hidle, hopened]
    refine storage_new fun i hi => ?_
    have hlt := hi.1
    change i < roundUp B (reserved (ι := ι) (T := T) 0 .idle) at hlt
    omega
  owes_lt _ _ hi := by cases hi
  apart _ _ _ hi := by cases hi
  clears _ := trivial
  works hn := absurd (Nat.dvd_zero B) hn

/-! ## Runs -/

/-- The traces differ in inner steps only. -/
structure SameTrace (tr tr' : List (ι × Event T)) : Prop where
  published : published tr = published tr'
  drawn : drawn tr = drawn tr'
  taken : taken tr = taken tr'
  requested : requested tr = requested tr'
  shows : tr.filterMap shows = tr'.filterMap shows

omit [DecidableEq ι] [Fintype ι] in
theorem SameTrace.snoc {tr' : List (ι × Event T)} (h : SameTrace tr tr')
    (a : ι × Event T) : SameTrace (tr ++ [a]) (tr' ++ [a]) where
  published := by rw [published_snoc, published_snoc, h.published]
  drawn := by rw [drawn_snoc, drawn_snoc, h.drawn]
  taken := by rw [taken_snoc, taken_snoc, h.taken]
  requested := by rw [requested_snoc, requested_snoc, h.requested]
  shows := by rw [List.filterMap_append, List.filterMap_append, h.shows]

omit [DecidableEq ι] [Fintype ι] in
theorem SameTrace.inner {tr' : List (ι × Event T)} (h : SameTrace tr tr')
    (t : ι) : SameTrace tr (tr' ++ [(t, .inner)]) where
  published := h.published.trans (by simp [published_snoc, Event.published])
  drawn := h.drawn.trans (by simp [drawn_snoc, Event.drawn])
  taken := h.taken.trans (by simp [taken_snoc, Event.taken])
  requested := h.requested.trans (by simp [requested_snoc, Event.requested])
  shows := h.shows.trans (by simp [Moodycamel.shows])

omit [DecidableEq ι] [Fintype ι] in
theorem SameTrace.bounded {tr' : List (ι × Event T)} (h : SameTrace tr tr')
    (hbound : Bounded w tr') : Bounded w tr := by
  rw [Bounded, h.requested, h.drawn]
  exact hbound

/-- Every run on the blocks is one on the counters. -/
theorem refines_of_run (hV : V.Synchronizes) (hB : 0 < B) (hw : 0 < w)
    (hdvd : B ∣ 2 ^ (w - 1))
    (hrun : (system (complete w B) V w B producer T).Run tr s)
    (hbound : Bounded w tr) :
    ∃ tr₀ b, (Moodycamel.system V w B producer T).Run tr₀ b ∧
      SameTrace tr₀ tr ∧
      Refines B producer (published tr).length (taken tr) b s := by
  revert hbound
  refine Lts.Run.induction (P := fun tr s => Bounded w tr →
    ∃ tr₀ b, (Moodycamel.system V w B producer T).Run tr₀ b ∧
      SameTrace tr₀ tr ∧
      Refines B producer (published tr).length (taken tr) b s)
    (fun _ => ⟨[], _, .init, ⟨rfl, rfl, rfl, rfl, rfl⟩, refines_init hB⟩)
    ?_ hrun
  rintro tr s ⟨t, e⟩ s' - ih ⟨c, q', th', hstep, rfl⟩ hbound
  obtain ⟨tr₀, b, hrun₀, hsame, h⟩ := ih hbound.init
  have hbound₀ : Bounded w (tr₀ ++ [(t, e)]) :=
    (hsame.snoc (t, e)).bounded hbound
  obtain ⟨row, pub, d, hb⟩ := along_of_run hV hw hrun₀ hbound₀.init
  have hsafe := not_racing hV hw hrun₀ hbound₀.init
  rw [← hsame.published, ← hsame.taken, ← hb.pub_eq, ← hb.served_eq] at h
  rcases follows hV hB hw hdvd h hb hsafe hbound₀ hstep with
    ⟨rfl, h'⟩ | ⟨m', th, hmove, h'⟩
  · refine ⟨tr₀, b, hrun₀, hsame.inner t, ?_⟩
    rwa [← (hsame.inner t).published, ← (hsame.inner t).taken, ← hb.pub_eq,
      ← hb.served_eq]
  · obtain ⟨c₀, hc₀⟩ := moves_iff.mpr hmove
    refine ⟨tr₀ ++ [(t, e)], _, hrun₀.tail ⟨c₀, m', th, hc₀, rfl⟩,
      hsame.snoc (t, e), ?_⟩
    rw [← (hsame.snoc (t, e)).published, ← (hsame.snoc (t, e)).taken,
      published_snoc, taken_snoc, List.length_append, ← hb.pub_eq,
      ← hb.served_eq]
    exact h'

omit [DecidableEq ι] in
/-- No access to a place races. -/
theorem Refines.not_racing (hB : 0 < B)
    (h : Refines B producer pub d.served b s)
    (hb : Along producer row pub d tr b) (hsafe : ¬Moodycamel.Racing w b)
    (hbound : Bounded w tr) : ¬Racing (complete w B) w B s := by
  have hpub := hb.inv.served_le
  have hhalf := (Nat.le_add_right _ _).trans_lt
    (hb.pending_le.trans_lt hbound.1)
  rintro ⟨t, place, hplace, hrace⟩
  refine hrace ?_
  have hbth := h.threads t
  cases hth : s.threads t with
  | idle | done => rw [hth] at hplace; cases hplace
  | enqueue items startBlock original pc =>
      rw [hth] at hplace hbth
      cases pc with
      | construct current blocks rest =>
          cases rest with
          | nil => cases hplace
          | cons element rest =>
              cases hplace
              obtain rfl : t = producer := hb.inv.run hbth
              have hspare := h.storage.spare current
              rw [hth] at hspare
              rw [h.place_eq hB hth]
              refine hspare le_rfl (Nat.lt_of_lt_of_le ?_ (le_roundUp hB _))
              change current < current + (rest.length + 1)
              omega
      | _ => cases hplace
  | dequeue max pc =>
      rw [hth] at hplace hbth
      cases pc with
      | read first actual got base found =>
          rw [accesses] at hplace
          split_ifs at hplace with hlt
          cases hplace
          obtain ⟨-, -, -, hfirst, -⟩ := hb.inv.run hbth
          have hindex : (SizeT.bits w).add first got.length =
              first + got.length := add_of_lt (by omega)
          have hclears := h.clears t
          rw [hth] at hclears
          have howes : Owes (first + got.length) (s.threads t) := by
            rw [hth]
            exact ⟨hclears.2.1, by omega⟩
          have hle := served_le_made h hb.inv
          have hwrite : b.shared.WriteSafe t (first + got.length) := by
            by_contra hrace
            refine hsafe ⟨t, first + got.length, ?_, hrace⟩
            rw [hbth]
            exact (if_pos hlt).trans (congrArg some hindex)
          have hread : s.shared.place B (first + got.length) =
              ((complete w B).block found, (first + got.length) % B) :=
            h.read_place hth hlt
          rw [hindex, ← hread]
          exact ViewMemory.Below.covered (h.below.view t)
            (h.storage.cells _ (h.live hle howes)
              ((h.owes_lt t _ howes).trans_le hle)) hwrite
      | _ => cases hplace

/-- With orders that synchronize, and as long as the words are not exhausted,
the elements in the blocks are a FIFO queue for any number of threads, and no
access to a place of a block races, however often the blocks are used again. -/
theorem completeFifo_of_synchronizes (hV : V.Synchronizes) (hB : 0 < B)
    (hw : 0 < w) (hdvd : B ∣ 2 ^ (w - 1)) :
    (Bulk.object T B).ImplementsWhile (system (complete w B) V w B producer T)
      (Bounded w) shows fun tr s o =>
        o.shared = ⟨(published tr).length, (published tr).drop (taken tr)⟩ ∧
          taken tr ≤ (published tr).length ∧
          ¬Racing (complete w B) w B s := by
  intro tr s hrun hbound
  obtain ⟨tr₀, b, hrun₀, hsame, h⟩ := refines_of_run hV hB hw hdvd hrun hbound
  have hbound₀ := hsame.bounded hbound
  obtain ⟨tr', o, hrun', hseen, hshared, hle, hsafe⟩ :=
    bulkFifo_of_synchronizes hV hw tr₀ b hrun₀ hbound₀
  obtain ⟨row, pub, d, hb⟩ := along_of_run hV hw hrun₀ hbound₀
  rw [hsame.published, hsame.taken] at hshared hle
  rw [← hsame.published, ← hsame.taken, ← hb.pub_eq, ← hb.served_eq] at h
  exact ⟨tr', o, hrun', hseen.trans hsame.shows, hshared, hle,
    h.not_racing hB hb hsafe hbound₀⟩

end Steps

end Explicit
end Moodycamel
end ConcurrentQueues
