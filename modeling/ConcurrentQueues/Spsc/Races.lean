import ConcurrentQueues.Spsc.RaceFree
import ConcurrentQueues.Support.Serial

/-!
# Without the memory orders the slots race

If the store of an index or its load by the other side does not synchronize, the
other side never learns of the accesses that the index was to announce.  One push
and one pop, or a full ring and one pop, then end before an access that races, so
both pairs are needed.
-/

namespace ConcurrentQueues

universe u

namespace Spsc
namespace Ordered

open Fifo

variable {T : Type u} {V : Variant} {n k r : ℕ} {log : List T}

/-! ## What a step does to the memory -/

/-- The side that stores an index. -/
def Index.owner : Index → Side
  | .head => .consumer
  | .tail => .producer

/-- The order of the store of an index. -/
def Variant.storeOrder (V : Variant) : Index → MemoryOrder
  | .head => V.headStore
  | .tail => V.tailStore

/-- The order of the load of an index by the other side. -/
def Variant.loadOrder (V : Variant) : Index → MemoryOrder
  | .head => V.headLoad
  | .tail => V.tailLoad

/-- The store and the load of an index synchronize. -/
def Variant.Announces (V : Variant) (a : Index) : Prop :=
  (V.storeOrder a).releases ∧ (V.loadOrder a).acquires

theorem synchronizes_iff :
    V.Synchronizes ↔ V.Announces .head ∧ V.Announces .tail :=
  ⟨fun h => ⟨⟨h.headStore, h.headLoad⟩, h.tailStore, h.tailLoad⟩,
    fun ⟨hh, ht⟩ => ⟨hh.1, hh.2, ht.1, ht.2⟩⟩

/-- A step loads an index, stores an index or accesses a slot, if it does
anything to the memory. -/
inductive Variant.Touches (V : Variant)
    (mem : ViewMemory Index ℕ Side (Option T)) :
    ViewMemory Index ℕ Side (Option T) → Prop
  | none : Touches V mem mem
  | own {a : Index} {k v : ℕ} {mem' : ViewMemory Index ℕ Side (Option T)}
      (h : mem.load a.owner V.ownLoad a k = some (v, mem')) :
      Touches V mem mem'
  | other {a : Index} {t : Side} {k v : ℕ}
      {mem' : ViewMemory Index ℕ Side (Option T)}
      (h : mem.load t (V.loadOrder a) a k = some (v, mem')) :
      Touches V mem mem'
  | store {a : Index} {v : ℕ} :
      Touches V mem (mem.store a.owner (V.storeOrder a) a v)
  | write {l : ℕ} {d : Option T} : Touches V mem (mem.write .producer l d)
  | take {l : ℕ} : Touches V mem (V.take mem l)

theorem touches_of_step {s s' : State T} {a : Side × Event T}
    (hstep : (system V n T).step s a s') :
    V.Touches s.shared.mem s'.shared.mem := by
  cases hstep with
  | producer hmove =>
      cases pushMoves_iff.mp hmove with
      | load h => exact .own (a := .tail) h
      | refresh h => exact .other (a := .head) h
      | access => exact .write
      | store => exact .store (a := .tail)
      | call | testFull | testRoom | retestFull | retestRoom | ret =>
          exact .none
  | consumer hmove =>
      cases popMoves_iff.mp hmove with
      | load h => exact .own (a := .head) h
      | refresh h => exact .other (a := .tail) h
      | access => exact .take
      | store => exact .store (a := .head)
      | call | testEmpty | testItem | retestEmpty | retestItem | ret =>
          exact .none

theorem owner_injective {a b : Index} (h : a.owner = b.owner) : a = b := by
  cases a <;> cases b <;> first | rfl | cases h

/-- What an index announces, it announces by a release store. -/
def Variant.Loud (V : Variant) (a b : Index) : Prop :=
  b = a ∧ (V.storeOrder a).releases

theorem unheard_of_touches {a : Index} (ha : ¬V.Announces a)
    {mem mem' : ViewMemory Index ℕ Side (Option T)}
    (h : mem.Unheard (V.Loud a) a.owner 0) (htouch : V.Touches mem mem') :
    mem'.Unheard (V.Loud a) a.owner 0 := by
  cases htouch with
  | none => exact h
  | own hload =>
      refine h.load (fun hne hloud => ?_) hload
      exact absurd (congrArg Index.owner hloud.1) hne
  | other hload =>
      refine h.load (fun _ hloud => ?_) hload
      obtain ⟨rfl, hreleases⟩ := hloud
      by_contra hacquires
      exact ha ⟨hreleases, by simpa using hacquires⟩
  | store =>
      refine h.store fun hown hreleases => ?_
      obtain rfl := owner_injective hown
      exact ⟨rfl, hreleases⟩
  | write => exact h.access
  | take =>
      rw [Variant.take]
      split_ifs
      · exact h.access.access
      · exact h.access

/-- Without an announcement the other side hears of no access. -/
theorem unheard_of_run {a : Index} (ha : ¬V.Announces a)
    {tr : List (Side × Event T)} {s : State T}
    (hrun : (system V n T).Run tr s) :
    s.shared.mem.Unheard (V.Loud a) a.owner 0 :=
  Lts.Run.induction (P := fun _ s => s.shared.mem.Unheard (V.Loud a) a.owner 0)
    ViewMemory.unheard_init
    (fun _ _ _ _ _ h hstep => unheard_of_touches ha h (touches_of_step hstep))
    hrun

theorem remembers_of_touches {a : Index}
    {mem mem' : ViewMemory Index ℕ Side (Option T)}
    (h : mem.Remembers a a.owner) (htouch : V.Touches mem mem') :
    mem'.Remembers a a.owner := by
  cases htouch with
  | none => exact h
  | own hload | other hload => exact h.load hload
  | store => exact h.store fun hab => congrArg Index.owner hab
  | write => exact h.access
  | take =>
      rw [Variant.take]
      split_ifs
      · exact h.access.access
      · exact h.access

/-- Each side knows what its own index tells. -/
theorem remembers_of_run {a : Index} {tr : List (Side × Event T)} {s : State T}
    (hrun : (system V n T).Run tr s) : s.shared.mem.Remembers a a.owner :=
  Lts.Run.induction (P := fun _ s => s.shared.mem.Remembers a a.owner)
    ViewMemory.remembers_init
    (fun _ _ _ _ _ h hstep => remembers_of_touches h (touches_of_step hstep))
    hrun

/-! ## A push and a pop without interruption -/

/-- Some run has pushed `log`, popped `got` and shown `hist`, and left its
threads so. -/
def At (V : Variant) (n : ℕ) (log got : List T)
    (hist : List (Side × Act (Op T) (Res T))) (q : Queue T)
    (p : Producer Pc T) (c : Consumer Pc T) : Prop :=
  ∃ tr, (system V n T).Run tr ⟨q, p, c⟩ ∧ pushed tr = log ∧ popped tr = got ∧
    tr.filterMap shows = hist

section At

variable {got : List T} {hist : List (Side × Act (Op T) (Res T))}
  {q q' : Queue T} {p p' : Producer Pc T} {c c' : Consumer Pc T} {e : Event T}
  {f : OnFail} {item : T} {dest : Option T}

theorem At.inv (h : At V n log got hist q p c) :
    Inv V n log got.length ⟨q, p, c⟩ := by
  obtain ⟨tr, hrun, rfl, rfl, -⟩ := h
  exact inv_of_run hrun

/-- Each side knows what its own index tells. -/
theorem At.remembers {a : Index} (h : At V n log got hist q p c) :
    q.mem.Remembers a a.owner := by
  obtain ⟨tr, hrun, -⟩ := h
  exact remembers_of_run hrun

theorem At.produce (h : At V n log got hist q p c)
    (hmove : PushMove V n q p e q' p') :
    At V n (log ++ e.stored?.toList) got
      (hist ++ (shows (.producer, e)).toList) q' p' c := by
  obtain ⟨tr, hrun, rfl, rfl, rfl⟩ := h
  refine ⟨_, hrun.tail (.producer (pushMoves_iff.mpr hmove)),
    pushed_producer _ _, popped_producer _ _, ?_⟩
  rw [List.filterMap_append]
  cases hshows : shows (.producer, e) <;> simp [hshows]

theorem At.consume (h : At V n log got hist q p c)
    (hmove : PopMove V n q c e q' c') :
    At V n log (got ++ e.stored?.toList)
      (hist ++ (shows (.consumer, e)).toList) q' p c' := by
  obtain ⟨tr, hrun, rfl, rfl, rfl⟩ := h
  refine ⟨_, hrun.tail (.consumer (popMoves_iff.mpr hmove)),
    pushed_consumer _ _, popped_consumer _ _, ?_⟩
  rw [List.filterMap_append]
  cases hshows : shows (.consumer, e) <;> simp [hshows]

/-- A silent move. -/
theorem At.produce_inner (h : At V n log got hist q p c)
    (hmove : PushMove V n q p .inner q' p') : At V n log got hist q' p' c := by
  simpa [Event.stored?, shows] using h.produce hmove

theorem At.consume_inner (h : At V n log got hist q p c)
    (hmove : PopMove V n q c .inner q' c') : At V n log got hist q' p c' := by
  simpa [Event.stored?, shows] using h.consume hmove

/-- A pop leaves the producer's view alone. -/
theorem PopMove.view_eq (hmove : PopMove V n q c e q' c') :
    q'.mem.view .producer = q.mem.view .producer := by
  cases hmove with
  | load h | refresh h =>
      obtain ⟨-, msg, -, -, rfl⟩ := ViewMemory.load_eq_some_iff.mp h
      exact ViewMemory.learn_view_of_ne (by decide)
  | access => exact take_view_producer
  | store => exact ViewMemory.store_view_of_ne (by decide)
  | call | testEmpty | testItem | retestEmpty | retestItem | ret => rfl

/-- A push leaves the consumer's view alone. -/
theorem PushMove.view_eq (hmove : PushMove V n q p e q' p') :
    q'.mem.view .consumer = q.mem.view .consumer := by
  cases hmove with
  | load h | refresh h =>
      obtain ⟨-, msg, -, -, rfl⟩ := ViewMemory.load_eq_some_iff.mp h
      exact ViewMemory.learn_view_of_ne (by decide)
  | access => exact ViewMemory.write_view_of_ne (by decide)
  | store => exact ViewMemory.store_view_of_ne (by decide)
  | call | testFull | testRoom | retestFull | retestRoom | ret => rfl

theorem not_full_of_lt {t h : ℕ} (hlt : t < h + n) (hle : h ≤ t) :
    ¬V.full n t h := by
  rw [Variant.full]
  split_ifs <;> omega

theorem not_empty_of_lt {t h : ℕ} (hlt : h < t) : ¬V.empty t h := by
  rw [Variant.empty]
  split_ifs <;> omega

/-- A push that loads the newest `head_` finds the room there is. -/
theorem At.refresh_push
    (h : At V n log got hist q (.push f item (.refresh log.length)) c)
    (hroom : log.length < got.length + n) :
    ∃ q', At V n log got hist q' (.push f item (.access log.length)) c ∧
      q'.mem.view .consumer = q.mem.view .consumer := by
  have hmem := h.inv.queue.memory
  obtain ⟨v, mem, hload⟩ := hmem.wf.exists_load .producer V.headLoad .head
  have hval := (val_of_load hmem.heads hload).1
  rw [length_msgs hmem.heads, Nat.add_sub_cancel] at hval
  have hle := hmem.head_le.trans hmem.read_le
  have hmove : PushMove V n q (.push f item (.refresh log.length)) .inner
      { q with mem := mem, cachedHead := v }
      (.push f item (.retest log.length)) := .refresh hload
  refine ⟨_, (h.produce_inner hmove).produce_inner
    (.retestRoom (not_full_of_lt ?_ (hval ▸ hle))), hmove.view_eq⟩
  simpa [hval] using hroom

/-- A push starts, and loads `tail_` as it is. -/
theorem At.call_push (h : At V n log got hist q .idle c) (hf : V.calls f)
    (item : T) :
    At V n log got (hist ++ [(.producer, .call (f.pushOp item))]) q
      (.push f item (V.begin log.length)) c := by
  have hown := h.remembers (a := .tail)
  have hcall := h.produce (.call item hf)
  obtain ⟨v, hload⟩ := hown.load_own h.inv.queue.memory.wf V.ownLoad
  obtain rfl := h.inv.queue.own_tail hload
  simpa [Event.stored?, shows] using hcall.produce_inner (.load hload)

/-- A push goes on to load `head_` if the copy shows a full ring. -/
theorem At.begin_push {t : ℕ}
    (h : At V n log got hist q (.push f item (V.begin t)) c)
    (hfull : V.cached → V.full n t q.cachedHead) :
    At V n log got hist q (.push f item (.refresh t)) c := by
  rw [Variant.begin] at h
  split_ifs at h with hcached
  · exact h.produce_inner (.testFull (hfull hcached))
  · exact h

/-- A push reaches its slot if there is room. -/
theorem At.reach_slot_push (h : At V n log got hist q .idle c)
    (hf : V.calls f) (item : T) (hroom : log.length < got.length + n) :
    ∃ q', At V n log got (hist ++ [(.producer, .call (f.pushOp item))]) q'
        (.push f item (.access log.length)) c ∧
      q'.mem.view .consumer = q.mem.view .consumer := by
  have hbegin := h.call_push hf item
  by_cases hfull : V.cached → V.full n log.length q.cachedHead
  · exact (hbegin.begin_push hfull).refresh_push hroom
  · obtain ⟨hcached, hcopy⟩ := Classical.not_imp.mp hfull
    rw [Variant.begin, if_pos hcached] at hbegin
    exact ⟨_, hbegin.produce_inner (.testRoom hcopy), rfl⟩

/-- A push that is not interrupted. -/
theorem At.push (h : At V n log got hist q .idle c) (hf : V.calls f) (item : T)
    (hroom : log.length < got.length + n) :
    ∃ q', At V n (log ++ [item]) got (hist ++
        SeqObject.serial [(.producer, f.pushOp item, .pushed true)]) q'
        .idle c ∧
      q'.mem.view .consumer = q.mem.view .consumer := by
  obtain ⟨q₁, h₁, hview⟩ := h.reach_slot_push hf item hroom
  have hstore := (h₁.produce_inner .access).produce .store
  refine ⟨_, by simpa [Event.stored?, shows, SeqObject.serial] using
    hstore.produce .ret, ?_⟩
  exact (ViewMemory.store_view_of_ne (by decide)).trans
    ((ViewMemory.write_view_of_ne (by decide)).trans hview)

/-! ## The same for the consumer -/

/-- A pop that loads the newest `tail_` finds the item there is. -/
theorem At.refresh_pop
    (h : At V n log got hist q p (.pop f dest (.refresh got.length)))
    (hitem : got.length < log.length) :
    ∃ q', At V n log got hist q' p (.pop f dest (.access got.length)) ∧
      q'.mem.view .producer = q.mem.view .producer := by
  have hmem := h.inv.queue.memory
  obtain ⟨v, mem, hload⟩ := hmem.wf.exists_load .consumer V.tailLoad .tail
  have hval := (val_of_load hmem.tails hload).1
  rw [length_msgs hmem.tails, Nat.add_sub_cancel] at hval
  have hmove : PopMove V n q (.pop f dest (.refresh got.length)) .inner
      { q with mem := mem, cachedTail := v }
      (.pop f dest (.retest got.length)) := .refresh hload
  exact ⟨_, (h.consume_inner hmove).consume_inner
    (.retestItem (not_empty_of_lt (by simpa [hval] using hitem))),
    hmove.view_eq⟩

theorem At.call_pop (h : At V n log got hist q p .idle) (hf : V.calls f) :
    At V n log got (hist ++ [(.consumer, .call f.popOp)]) q p
      (.pop f none (V.begin got.length)) := by
  have hown := h.remembers (a := .head)
  have hcall := h.consume (.call hf)
  obtain ⟨v, hload⟩ := hown.load_own h.inv.queue.memory.wf V.ownLoad
  obtain rfl := h.inv.queue.own_head hload
  simpa [Event.stored?, shows] using hcall.consume_inner (.load hload)

theorem At.begin_pop {t : ℕ}
    (h : At V n log got hist q p (.pop f dest (V.begin t)))
    (hempty : V.cached → V.empty q.cachedTail t) :
    At V n log got hist q p (.pop f dest (.refresh t)) := by
  rw [Variant.begin] at h
  split_ifs at h with hcached
  · exact h.consume_inner (.testEmpty (hempty hcached))
  · exact h

/-- A pop reaches its slot if there is an item. -/
theorem At.reach_slot_pop (h : At V n log got hist q p .idle) (hf : V.calls f)
    (hitem : got.length < log.length) :
    ∃ q', At V n log got (hist ++ [(.consumer, .call f.popOp)]) q' p
        (.pop f none (.access got.length)) ∧
      q'.mem.view .producer = q.mem.view .producer := by
  have hbegin := h.call_pop hf
  by_cases hempty : V.cached → V.empty q.cachedTail got.length
  · exact (hbegin.begin_pop hempty).refresh_pop hitem
  · obtain ⟨hcached, hcopy⟩ := Classical.not_imp.mp hempty
    rw [Variant.begin, if_pos hcached] at hbegin
    exact ⟨_, hbegin.consume_inner (.testItem hcopy), rfl⟩

/-- A pop that is not interrupted. -/
theorem At.pop (h : At V n log got hist q p .idle) (hf : V.calls f)
    (item : T) (hitem : log[got.length]? = some item) :
    ∃ q', At V n log (got ++ [item]) (hist ++
        SeqObject.serial [(.consumer, f.popOp, .popped (some item))]) q'
        p .idle ∧
      q'.mem.view .producer = q.mem.view .producer := by
  have hlt := (List.getElem?_eq_some_iff.mp hitem).1
  obtain ⟨q₁, h₁, hview⟩ := h.reach_slot_pop hf hlt
  have hread := h₁.consume_inner .access
  obtain ⟨-, -, hdata⟩ := hread.inv.consumer
  rw [hdata.trans hitem] at hread
  have hstore := hread.consume .store
  refine ⟨_, by simpa [Event.stored?, shows, SeqObject.serial] using
    hstore.consume .ret, ?_⟩
  exact (ViewMemory.store_view_of_ne (by decide)).trans
    (take_view_producer.trans hview)

theorem At.init : At V n ([] : List T) [] [] Queue.new .idle .idle :=
  ⟨[], .init, rfl, rfl, rfl⟩

/-- The producer may fill the ring. -/
theorem exists_pushes (hf : V.calls f) (item : T) {m : ℕ} (hm : m ≤ n) :
    ∃ q, At V n (List.replicate m item) [] (SeqObject.serial
      (List.replicate m (.producer, f.pushOp item, .pushed true))) q
      .idle .idle := by
  induction m with
  | zero => exact ⟨Queue.new, At.init⟩
  | succ m ih =>
      obtain ⟨q, h⟩ := ih (Nat.le_of_succ_le hm)
      rw [List.replicate_succ', List.replicate_succ', SeqObject.serial_append]
      obtain ⟨q', h', -⟩ := h.push hf item (by simp; omega)
      exact ⟨q', h'⟩

end At

/-! ## The races -/

/-- An item is read before its write is known of. -/
theorem racing_of_not_tail (hn : 1 ≤ n) {f : OnFail} (hf : V.calls f) (item : T)
    (ha : ¬V.Announces .tail) :
    ∃ tr s, (system V n T).Run tr s ∧ Racing V n s := by
  obtain ⟨q₀, h₀⟩ := exists_pushes (V := V) hf item hn
  obtain ⟨q, h, -⟩ := h₀.reach_slot_pop hf (by simp)
  have hslot := (h.inv.queue.memory.slots 0 le_rfl (by simp)).2
  obtain ⟨tr, hrun, -, -⟩ := h
  have hpast : (q.mem.view .consumer).past .producer ≤ 0 :=
    (unheard_of_run ha hrun).views .consumer (by decide)
  refine ⟨tr, _, hrun, .consumer rfl fun hsafe => ?_⟩
  have hknows : (q.mem.view .consumer).Knows (q.mem.cells (0 % n)).wrote := by
    rw [Variant.TakeSafe] at hsafe
    split_ifs at hsafe
    · exact hsafe.1
    · exact hsafe
  rw [hslot] at hknows
  change 0 + 1 ≤ (q.mem.view .consumer).past .producer at hknows
  omega

/-- A slot is written again before its last read is known of. -/
theorem racing_of_not_head (hn : 1 ≤ n) {f : OnFail} (hf : V.calls f) (item : T)
    (ha : ¬V.Announces .head) :
    ∃ tr s, (system V n T).Run tr s ∧ Racing V n s := by
  obtain ⟨q₀, h₀⟩ := exists_pushes (V := V) hf item (le_refl n)
  obtain ⟨q₁, h₁, -⟩ := h₀.pop hf item
    (by simp [Nat.lt_of_succ_le hn])
  obtain ⟨q, h, -⟩ := h₁.reach_slot_push hf item (by simp)
  rw [List.length_replicate] at h
  have hused : 1 ≤ (q.mem.cells (0 % n)).reads .consumer :=
    h.inv.queue.memory.used 0 (by simp [reads])
  obtain ⟨tr, hrun, -, -⟩ := h
  have hpast : (q.mem.view .producer).past .consumer ≤ 0 :=
    (unheard_of_run ha hrun).views .producer (by decide)
  refine ⟨tr, _, hrun, .producer rfl fun hsafe => ?_⟩
  have hread : (q.mem.cells (n % n)).reads .consumer ≤
      (q.mem.view .producer).past .consumer := hsafe.2 .consumer
  rw [Nat.mod_self] at hread
  rw [Nat.zero_mod] at hused
  omega

theorem synchronizes_of_raceFree (hn : 1 ≤ n) (hcalls : ∃ f, V.calls f)
    (item : T) (hfree : ∀ tr s, (system V n T).Run tr s → ¬Racing V n s) :
    V.Synchronizes := by
  obtain ⟨f, hf⟩ := hcalls
  rw [synchronizes_iff]
  constructor
  · by_contra ha
    obtain ⟨tr, s, hrun, hrace⟩ := racing_of_not_head hn hf item ha
    exact hfree tr s hrun hrace
  · by_contra ha
    obtain ⟨tr, s, hrun, hrace⟩ := racing_of_not_tail hn hf item ha
    exact hfree tr s hrun hrace

/-- No access to a slot races, in any run, exactly if both indexes are stored
with release and loaded by the other side with acquire. -/
theorem raceFree_iff (hn : 1 ≤ n) (hcalls : ∃ f, V.calls f) (item : T) :
    (∀ tr s, (system V n T).Run tr s → ¬Racing V n s) ↔ V.Synchronizes :=
  ⟨synchronizes_of_raceFree hn hcalls item, fun hV _ _ => not_racing hV⟩

/-- The orders of the queues synchronize. -/
theorem synchronizes_of_mem (hV : V ∈ [alpha, bravo, charlie, delta, echo,
    StdAtomicSPSCQueue, Fifo4]) : V.Synchronizes := by
  simp only [List.mem_cons, List.not_mem_nil, or_false] at hV
  rcases hV with rfl | rfl | rfl | rfl | rfl | rfl | rfl <;>
    exact ⟨rfl, rfl, rfl, rfl⟩

/-- No access races on two slots, and one does once `tail_` is stored relaxed. -/
theorem raceFree_alpha :
    (¬∃ tr s, (system alpha 2 ℕ).Run tr s ∧ Racing alpha 2 s) ∧
      ∃ tr s, (system { alpha with tailStore := .relaxed } 2 ℕ).Run tr s ∧
        Racing { alpha with tailStore := .relaxed } 2 s := by
  constructor
  · rintro ⟨tr, s, hrun, hrace⟩
    exact (raceFree_iff (by decide) ⟨.giveUp, rfl⟩ 0).mpr
      (synchronizes_of_mem (by simp)) tr s hrun hrace
  · by_contra hnone
    have hV := (raceFree_iff (V := { alpha with tailStore := .relaxed })
      (by decide : 1 ≤ 2) ⟨.giveUp, rfl⟩ 0).mp
        fun tr s hrun hrace => hnone ⟨tr, s, hrun, hrace⟩
    exact absurd hV.tailStore (by decide)

end Ordered
end Spsc
end ConcurrentQueues
