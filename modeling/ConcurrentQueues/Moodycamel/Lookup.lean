import ConcurrentQueues.Moodycamel.Indexing

/-!
# A dequeue finds its blocks

A dequeue begins with the array in use and keeps to it.  From the base of the
current entry it comes to the slot of its first block, and from there on from
block to block.
-/

namespace ConcurrentQueues

universe u v

namespace Moodycamel
namespace Explicit

open Bulk

variable {ι : Type v} {T : Type u}

section Steps

variable [DecidableEq ι] {V : Orders} {w B initialSize : ℕ} {producer t : ι}
  {pub served served' asked asked' : ℕ} {C : ℕ → ℕ} {b : Moodycamel.State ι T}
  {s₁ : State ofMap ι T} {s : State ofArrays ι T} {q : Shared ofArrays ι T}
  {th : Thread ofArrays ι T} {max first actual base j : ℕ}
  {got : List (Option T)} {found : FoundBlock} {fenced : View Loc ι}

omit [DecidableEq ι] in
theorem atRest_forget (h : AtRest (forget th)) :
    gathered th = 0 ∧ ∀ opened X, FallsBack opened X th := by
  cases th with
  | enqueue items startBlock original pc =>
      cases pc with
      | load => exact ⟨rfl, fun _ _ hsome => by cases hsome⟩
      | _ => exact h.elim
  | _ => exact ⟨rfl, fun _ _ => trivial⟩

/-- A step of a thread that is not in an enqueue, or only at its start. -/
theorem Indexed.rest (h : Indexed w B producer pub served asked C s₁ s)
    (hr : Refines B producer pub served b s₁)
    (hle : served ≤ made pub (s₁.threads producer))
    (hold : AtRest (s₁.threads t))
    (hgood : t = producer → s.threads t = .done (.enqueued false) → asked ≤ B)
    (hnew : AtRest (forget th)) (hindex : q.blockIndex = s.shared.blockIndex)
    (hring : q.ring = s.shared.ring) (hserved : served ≤ served')
    (howes : ∀ i, Owes i (forget th) → Owes i (s₁.threads t) ∨ served ≤ i)
    (huses : ∀ k, arrayOf th = some k → k ≤ s.shared.blockIndex.blockIndex ∧
      ∀ i, Owes i (forget th) → Finds B s₁.shared.blockIndex
        (s.shared.blockIndex.headers k) (C k) i)
    (hstands : Stands w B C s.shared.blockIndex th)
    (hasked : ∀ items startBlock original pc,
      th = .enqueue items startBlock original pc → asked' = items.length)
    (hsame : t ≠ producer → asked' = asked) :
    Indexed w B producer pub served' asked' C
      (s₁.move t (q.withMap s₁.shared.blockIndex) (forget th))
      (s.move t q th) := by
  obtain ⟨hgathered, hfalls⟩ := atRest_forget hnew
  have hgathered₀ : gathered (s.threads t) = 0 :=
    (atRest_forget (h.threads t ▸ hold)).1
  have hsteady : Steady B producer t pub pub (s₁.threads t) (forget th) :=
    hold.steady hnew
  have hlive := fun i => hsteady.live_le (i := i)
    (q.withMap s₁.shared.blockIndex) howes hserved
  refine h.keep hindex hlive (fun u i _ hi => hr.live hle hi) huses hstands
    (fun ht => ⟨?_, hasked⟩) fun ht => ⟨rfl, hsame ht, hring⟩
  subst ht
  rcases h.steers with ⟨lo, hsteers⟩ | ⟨hdone, hless⟩
  · rw [hold.reserved_eq] at hsteers
    refine ⟨lo, ?_, ?_, ?_, fun i hi => hsteers.live_ge i (hlive i hi),
      hfalls _ _⟩
    · rw [hindex, hring, hgathered, ← hgathered₀]
      exact hsteers.window
    · rw [hnew.reserved_eq, hring, hgathered, ← hgathered₀]
      exact hsteers.next
    · rw [hnew.reserved_eq, hring, hgathered, ← hgathered₀]
      exact hsteers.entries
  · exact absurd (hgood rfl hdone) hless.not_ge

/-- A thread that is not in an enqueue. -/
def Dequeues : Thread ofArrays ι T → Prop
  | .enqueue _ _ _ _ => False
  | _ => True

omit [DecidableEq ι] in
theorem Dequeues.atRest (h : Dequeues th) : AtRest (forget th) := by
  cases th with
  | enqueue => exact h.elim
  | dequeue max pc => cases pc <;> trivial
  | idle | done => trivial

omit [DecidableEq ι] in
theorem Dequeues.ne (h : Dequeues th) {items : List T} {startBlock : Option ℕ}
    {original : ℕ × ℕ} {pc : Enqueue T} :
    th ≠ .enqueue items startBlock original pc := by
  rintro rfl
  exact h

/-! ## The search -/

/-- A step of the search, of which the index that keeps all entries has none. -/
theorem Indexed.search (h : Indexed w B producer pub served asked C s₁ s)
    (hr : Refines B producer pub served b s₁)
    (hle : served ≤ made pub (s₁.threads producer))
    {search search' : BlockSearch}
    (hth : s.threads t = .dequeue max (.locate first actual search))
    (huses : ∀ k, arrayOf (ι := ι) (T := T)
        (.dequeue max (.locate first actual search')) = some k →
      k ≤ s.shared.blockIndex.blockIndex ∧ ∀ i, first ≤ i →
        i < first + actual → Finds B s₁.shared.blockIndex
          (s.shared.blockIndex.headers k) (C k) i)
    (hstands : Stands (ι := ι) (T := T) w B C s.shared.blockIndex
      (.dequeue max (.locate first actual search'))) :
    Indexed w B producer pub served asked C s₁ (s.move t s.shared
      (.dequeue max (.locate first actual search'))) := by
  have hthreads := h.threads t
  rw [hth] at hthreads
  have hforget : forget (ι := ι) (T := T)
      (.dequeue max (.locate first actual search')) = s₁.threads t :=
    hthreads.symm
  have hold : AtRest (s₁.threads t) := by
    rw [hthreads]
    trivial
  have hrest := h.rest (q := s.shared) hr hle hold (fun _ hdone => ?_)
    (hforget ▸ hold) rfl rfl le_rfl (fun i hi => .inl (hforget ▸ hi))
    (fun k hk => ?_) hstands (fun _ _ _ _ heq => by cases heq) fun _ => rfl
  · rw [← h.shared, hforget, Pool.move_self] at hrest
    exact hrest
  · rw [hth] at hdone
    cases hdone
  · exact ⟨(huses k hk).1, fun i hi => (huses k hk).2 i hi.1 hi.2⟩

/-! ## The steps of a dequeue -/

/-- What a step means with the index that keeps all entries: nothing, or the
same step. -/
def Matches (V : Orders) (w B : ℕ) (producer : ι) (pub served asked : ℕ)
    (s₁ : State ofMap ι T) (t : ι) (c : Choice T) (e : Event T)
    (th' : Thread ofArrays ι T) (s' : State ofArrays ι T) : Prop :=
  ∃ C', e = .inner ∧ Indexed w B producer pub served asked C' s₁ s' ∨
    ∃ q₁, move (complete w B) V w B producer t s₁.shared (s₁.threads t) c =
        some (e, q₁, forget th') ∧
      Indexed w B producer (pub + e.published.length) (served + e.taken)
        (e.asks.getD asked) C' (s₁.move t q₁ (forget th')) s'

omit [DecidableEq ι] in
theorem forget_counted (th : Moodycamel.Thread T) :
    forget (counted (ι := ι) (circular w B initialSize) th) =
      counted (complete w B) th := by
  cases th with
  | dequeue max pc => cases pc <;> rfl
  | _ => rfl

omit [DecidableEq ι] in
theorem dequeues_counted (w B initialSize : ℕ) (C : ℕ → ℕ)
    (th : Moodycamel.Thread T) :
    Dequeues (counted (ι := ι) (circular w B initialSize) th) ∧
      arrayOf (counted (ι := ι) (circular w B initialSize) th) = none ∧
      ∀ X, Stands w B C X
        (counted (ι := ι) (circular w B initialSize) th) := by
  cases th with
  | dequeue max pc =>
      cases pc with
      | read => exact ⟨trivial, rfl, fun _ => rfl⟩
      | _ => exact ⟨trivial, rfl, fun _ => trivial⟩
  | _ => exact ⟨trivial, rfl, fun _ => trivial⟩

theorem asks_of_dequeue {m m' : Moodycamel.Memory ι T}
    {pc : Moodycamel.Dequeue T} {e : Event T} {th : Moodycamel.Thread T}
    (hmove : Move V w B producer t m (.dequeue max pc) e m' th) :
    e.asks = none := by
  cases hmove <;> rfl

/-- A step on the counters. -/
theorem Indexed.count [Fintype ι] {row : List T} {d : Desk ι}
    (h : Indexed w B producer pub d.served asked C s₁ s)
    (hr : Refines B producer pub d.served b s₁) (hb : Inv producer row pub d b)
    {pc : Moodycamel.Dequeue T} (hth : s.threads t = .dequeue max (.count pc))
    {c : Choice T} {e : Event T} {mem' : Memory ι T} {th₀ : Moodycamel.Thread T}
    (hcount : dequeueCount V w t s.shared.mem max pc c = some (e, mem', th₀)) :
    Matches V w B producer pub d.served asked s₁ t c e
      (counted (circular w B initialSize) th₀)
      (s.move t { s.shared with mem := mem' }
        (counted (circular w B initialSize) th₀)) := by
  have hth₁ := h.threads t
  rw [hth] at hth₁
  have hmem : s₁.shared.mem = s.shared.mem := by
    rw [h.shared]
    rfl
  rw [← hmem] at hcount
  obtain ⟨m', hmove, -, hcounted⟩ : ∃ m', Move V w B producer t b.shared
      (.dequeue max pc) e m' th₀ ∧ InStep b.shared m' s₁.shared.mem mem' ∧
        Counted (ι := ι) w B b.shared e th₀ :=
    move_of_dequeueCount hr.below hb.mem.wf hr.wf hcount
  obtain ⟨hnew, harray, hstands⟩ :=
    dequeues_counted (ι := ι) w B initialSize C th₀
  refine ⟨C, .inr ⟨Shared.withMap { s.shared with mem := mem' }
    s₁.shared.blockIndex, ?_, ?_⟩⟩
  · rw [hth₁, forget_counted, h.shared]
    change (dequeueCount V w t s.shared.mem max pc c).map _ = _
    rw [← hmem, hcount]
    rfl
  · rw [published_of_dequeue hmove, asks_of_dequeue hmove]
    refine h.rest hr (served_le_made hr hb) ?_ (fun _ hdone => ?_) hnew.atRest
      rfl rfl (Nat.le_add_right _ _) (fun i hi => ?_) (fun k hk => ?_)
      (hstands _) (fun _ _ _ _ heq => absurd heq hnew.ne) fun _ => rfl
    · rw [hth₁]
      trivial
    · rw [hth] at hdone
      cases hdone
    · rw [forget_counted] at hi
      rcases hcounted.takes with ⟨hnot, -⟩ | ⟨max', first', rfl, hfirst⟩
      · exact absurd hi (hnot i)
      · rw [hb.mem.head] at hfirst
        obtain rfl := Option.some.inj hfirst
        exact .inr hi.1
    · rw [harray] at hk
      cases hk

/-- A step of a dequeue that the index that keeps all entries makes too. -/
theorem Indexed.follow (h : Indexed w B producer pub served asked C s₁ s)
    (hr : Refines B producer pub served b s₁)
    (hle : served ≤ made pub (s₁.threads producer)) {pc : Dequeue ofArrays ι T}
    (hth : s.threads t = .dequeue max pc) {c : Choice T}
    (hmove : move (complete w B) V w B producer t
        (s.shared.withMap s₁.shared.blockIndex) (forget (.dequeue max pc)) c =
      some (.inner, q.withMap s₁.shared.blockIndex, forget th))
    (hnew : Dequeues th) (hindex : q.blockIndex = s.shared.blockIndex)
    (hring : q.ring = s.shared.ring)
    (howes : ∀ i, Owes i (forget th) → Owes i (forget (.dequeue max pc)))
    (harray : ∀ k, arrayOf th = some k →
      arrayOf (.dequeue max pc) = some k)
    (hstands : Stands w B C s.shared.blockIndex (.dequeue max pc) →
      Stands w B C s.shared.blockIndex th) :
    Matches V w B producer pub served asked s₁ t c .inner th
      (s.move t q th) := by
  have hth₁ := h.threads t
  rw [hth] at hth₁
  have hstands' := h.serves.stands t
  rw [hth] at hstands'
  refine ⟨C, .inr ⟨q.withMap s₁.shared.blockIndex, ?_, ?_⟩⟩
  · rw [hth₁, h.shared]
    exact hmove
  · refine h.rest hr hle ?_ (fun _ hdone => ?_) hnew.atRest hindex hring
      le_rfl (fun i hi => ?_) (fun k hk => ?_) (hstands hstands')
      (fun _ _ _ _ heq => absurd heq hnew.ne) fun _ => rfl
    · rw [hth₁]
      cases pc <;> trivial
    · rw [hth] at hdone
      cases hdone
    · rw [hth₁]
      exact .inl (howes i hi)
    · have hold : arrayOf (s.threads t) = some k := hth ▸ harray k hk
      refine ⟨h.serves.le t k hold, fun i hi => h.serves.finds t k hold i ?_⟩
      rw [hth]
      exact howes i hi

/-- The search goes on. -/
theorem Indexed.locate (hB : 0 < B) (hw : 0 < w)
    (h : Indexed w B producer pub served asked C s₁ s)
    (hr : Refines B producer pub served b s₁)
    (hle : served ≤ made pub (s₁.threads producer))
    {search search' : BlockSearch} (hfirst : first < 2 ^ (w - 1))
    (hth : s.threads t = .dequeue max (.locate first actual search))
    (hpos : 0 < actual)
    (hlook : s.shared.blockIndex.look w B search = .inl search') :
    Indexed w B producer pub served asked C s₁ (s.move t s.shared
      (.dequeue max (.locate first actual search'))) := by
  have hth₁ := h.threads t
  rw [hth] at hth₁
  have hstands := h.serves.stands t
  have huses := h.serves.finds t
  have hle' := h.serves.le t
  rw [hth] at hstands huses hle'
  cases search with
  | blockIndex index =>
      cases hlook
      have hlive : ∀ i, first ≤ i → i < first + actual →
          Live B producer pub served s₁.threads i := by
        intro i hge hlt
        refine hr.live (t := t) hle ?_
        rw [hth₁]
        exact ⟨hge, hlt⟩
      refine h.search hr hle hth (fun k hk => ?_) ⟨hstands, fun _ =>
        h.serves.front first (hlive first le_rfl (by omega))⟩
      cases hk
      exact ⟨le_rfl, fun i hge hlt => h.serves.current i (hlive i hge hlt)⟩
  | front index k =>
      cases hlook
      refine h.search hr hle hth (fun k' hk => ?_) hstands
      cases hk
      exact ⟨hle' k rfl, fun i hge hlt => huses k rfl i ⟨hge, hlt⟩⟩
  | headBase index k head =>
      cases hlook
      obtain ⟨rfl, haligned⟩ := hstands
      refine h.search hr hle hth (fun k' hk => ?_)
        fun _ => indexIndex_eq hB hw (haligned hpos) hfirst
      cases hk
      exact ⟨hle' k rfl, fun i hge hlt => huses k rfl i ⟨hge, hlt⟩⟩
  | entry => cases hlook

/-- The search has come to the block of the first element. -/
theorem Indexed.located (h : Indexed w B producer pub served asked C s₁ s)
    (hr : Refines B producer pub served b s₁)
    (hle : served ≤ made pub (s₁.threads producer)) {search : BlockSearch}
    (hth : s.threads t = .dequeue max (.locate first actual search))
    (hpos : 0 < actual)
    (hlook : s.shared.blockIndex.look w B search = .inr found) :
    Matches V w B producer pub served asked s₁ t .go .inner
      (.dequeue max (.read first actual [] first found))
      (s.move t s.shared
        (.dequeue max (.read first actual [] first found))) := by
  have hstands := h.serves.stands t
  have huses := h.serves.finds t
  rw [hth] at hstands huses
  cases search with
  | entry k slot =>
      cases hlook
      have hslot : slot = _ := hstands hpos
      have hfound := huses k rfl first ⟨le_rfl, by omega⟩
      refine h.follow hr hle hth ?_ trivial rfl rfl (fun i hi => hi)
        (fun k hk => hk) fun _ _ => hslot
      change some _ = some _
      rw [if_neg hpos.ne', hslot]
      exact congrArg (fun x => some (Event.inner, _,
        Thread.dequeue max (.read first actual [] first x))) hfound.symm
  | _ => cases hlook

omit [DecidableEq ι] in
/-- The slot behind that of a block is that of the next one. -/
theorem slot_next (hB : 0 < B) {hd : BlockIndexHeader} {c index : ℕ}
    (hdvd : B ∣ index) (hlt : base < index)
    (hle : index ≤ blockBase B base + B) :
    (hd.slot c (base / B) + 1) % hd.size = hd.slot c (index / B) := by
  obtain ⟨n, rfl⟩ := hdvd
  have hn : n = base / B + 1 := by
    have hless : base / B < n := Nat.div_lt_of_lt_mul hlt
    have hmul : B * n ≤ B * (base / B + 1) := by
      rw [Nat.mul_succ, Nat.mul_comm B (base / B)]
      exact hle
    have := Nat.le_of_mul_le_mul_left hmul hB
    omega
  rw [Nat.mul_div_cancel_left n hB, hn, BlockIndexHeader.slot,
    BlockIndexHeader.slot, Nat.mod_add_mod, Nat.add_assoc c]

/-- A dequeue goes on to the next block. -/
theorem Indexed.nextBlock (hB : 0 < B)
    (h : Indexed w B producer pub served asked C s₁ s)
    (hr : Refines B producer pub served b s₁)
    (hle : served ≤ made pub (s₁.threads producer))
    (hth : s.threads t = .dequeue max
      (.setManyEmpty first actual got base found fenced j))
    (hlt : got.length < actual) {index : ℕ}
    (hindex : (SizeT.bits w).add first got.length = index)
    (hsum : index = first + got.length)
    (hj : ¬j < (SizeT.bits w).sub index base) :
    Matches V w B producer pub served asked s₁ t .go .inner
      (.dequeue max (.read first actual got index
        (s.shared.blockIndex.next found)))
      (s.move t s.shared (.dequeue max (.read first actual got index
        (s.shared.blockIndex.next found)))) := by
  have hth₁ := h.threads t
  rw [hth] at hth₁
  have hclears := hr.clears t
  rw [hth₁] at hclears
  obtain ⟨-, -, hend, -⟩ := hclears
  have hstands := h.serves.stands t
  have hfinds := h.serves.finds t _ (by
    rw [hth]
    rfl) index
  rw [hth] at hstands hfinds
  obtain ⟨hdvd, hbase, hslot⟩ := hstands hlt
  rw [← hsum] at hdvd hbase hend
  have hnext : (s.shared.blockIndex.next found).indexIndex =
      (s.shared.blockIndex.headers found.localBlockIndex).slot
        (C found.localBlockIndex) (index / B) := by
    rw [← slot_next hB hdvd hbase hend, ← hslot]
    rfl
  have hblock : (s.shared.blockIndex.next found).block =
      s₁.shared.blockIndex (blockBase B index) := by
    refine (congrArg (fun k => ((s.shared.blockIndex.headers
      found.localBlockIndex).entries k).block) hnext).trans
      (hfinds ⟨hbase.le, by omega, .inr hsum.ge⟩)
  refine h.follow hr hle hth ?_ trivial rfl rfl (fun i hi => ?_)
    (fun k hk => hk) fun _ _ => hnext
  · change (if j < (SizeT.bits w).sub ((SizeT.bits w).add first got.length) base
      then _ else some (_, _, if got.length < actual then _ else _)) = some _
    rw [hindex, if_neg hj, if_pos hlt]
    exact congrArg (fun x => some (Event.inner, _,
      Thread.dequeue max (.read first actual got index x))) hblock.symm
  · obtain ⟨hge, hless⟩ := hi
    exact ⟨hbase.le.trans hge, hless, .inr (hsum ▸ hge)⟩

theorem indexed_dequeue [Fintype ι] {row : List T} {d : Desk ι}
    {tr : List (ι × Event T)} {pc : Dequeue ofArrays ι T} {c : Choice T}
    {e : Event T} {q' : Shared ofArrays ι T} {th' : Thread ofArrays ι T}
    (hB : 0 < B) (hw : 0 < w)
    (h : Indexed w B producer pub d.served asked C s₁ s)
    (hr : Refines B producer pub d.served b s₁)
    (hb : Along producer row pub d tr b) (hbound : Bounded w tr)
    (hth : s.threads t = .dequeue max pc)
    (hstep : dequeueBulk (circular w B initialSize) V w B t s.shared max pc c =
      some (e, q', th')) :
    Matches V w B producer pub d.served asked s₁ t c e th'
      (s.move t q' th') := by
  have hth₁ := h.threads t
  rw [hth] at hth₁
  have hbth := hr.threads t
  rw [hth₁] at hbth
  have hclears := hr.clears t
  rw [hth₁] at hclears
  have hle := served_le_made hr hb.inv
  have hpub := hb.inv.served_le
  have hhalf := (Nat.le_add_right _ _).trans_lt
    (hb.pending_le.trans_lt hbound.1)
  revert hstep
  fun_cases dequeueBulk (circular w B initialSize) V w B t s.shared max pc c <;>
    intro hstep
  case case1 pc =>
    obtain ⟨⟨e', mem', th₀⟩, hcount, heq⟩ := Option.map_eq_some_iff.mp hstep
    cases heq
    exact h.count hr hb.inv hth hcount
  case case2 first actual search =>
    cases hstep
    obtain ⟨-, -, -, hfirst, -⟩ := hb.inv.run hbth
    split_ifs with hactual
    · subst hactual
      refine h.follow hr hle hth ?_ trivial rfl rfl (fun i hi => hi.elim)
        (fun k hk => by cases hk) fun _ => trivial
      rfl
    · have hpos := Nat.pos_of_ne_zero hactual
      generalize hlook :
        (circular w B initialSize).look s.shared.blockIndex search = result
      cases result with
      | inl search' =>
          exact ⟨C, .inl ⟨rfl,
            h.locate hB hw hr hle (by omega) hth hpos hlook⟩⟩
      | inr found => exact h.located hr hle hth hpos hlook
  case case3 first actual got base found hlt index place mem got' =>
    cases hstep
    obtain ⟨-, -, -, hfirst, -⟩ := hb.inv.run hbth
    obtain ⟨-, hbase, -⟩ := hclears
    have hgot : got'.length = got.length + 1 := List.length_append
    have hindex : index = first + got.length := add_of_lt (by omega)
    have hnext : (SizeT.bits w).add index 1 = first + got'.length := by
      rw [hindex, hgot]
      exact add_of_lt (by omega)
    split_ifs with hmore
    · refine h.follow hr hle hth ?_ trivial rfl rfl (fun i hi => hi)
        (fun k hk => hk) id
      exact (if_pos hlt).trans (congrArg (fun pc => some (Event.inner, _,
        Thread.dequeue max pc)) (if_pos hmore))
    · refine h.follow hr hle hth ?_ trivial rfl rfl
        (fun i hi => ⟨hi.1, hi.2.1⟩) (fun k hk => hk)
        fun hstands hless => ⟨?_, ?_, hstands ?_⟩
      · exact (if_pos hlt).trans (congrArg (fun pc => some (Event.inner, _,
          Thread.dequeue max pc)) (if_neg hmore))
      · rw [← hnext]
        by_contra hnot
        exact hmore ⟨hless, hnot⟩
      · omega
      · omega
  case case5 first actual got base found fenced j index count hj i mem =>
    cases hstep
    refine h.follow hr hle hth ?_ trivial rfl rfl (fun i hi => ?_)
      (fun k hk => hk) id
    · exact if_pos hj
    · obtain ⟨hge, hless, hleft⟩ := hi
      exact ⟨hge, hless, by omega⟩
  case case6 first actual got base found fenced j index count hj =>
    cases hstep
    obtain ⟨-, -, -, hfirst, -⟩ := hb.inv.run hbth
    have hindex : index = first + got.length :=
      add_of_lt (by have := hclears.1; omega)
    split_ifs with hlt
    · exact h.nextBlock hB hr hle hth hlt rfl hindex hj
    · refine h.follow hr hle hth ?_ trivial rfl rfl (fun i hi => hi.elim)
        (fun k hk => by cases hk) fun _ => trivial
      refine (if_neg hj).trans ?_
      rw [if_neg hlt]
      rfl
  all_goals cases hstep

end Steps

end Explicit
end Moodycamel
end ConcurrentQueues
