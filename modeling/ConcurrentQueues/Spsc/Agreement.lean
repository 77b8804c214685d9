import ConcurrentQueues.Spsc.Equivalence
import ConcurrentQueues.Spsc.Hesitant

/-!
# What the memory orders change

The queues with cached indexes have two models: one whose steps are sequentially
consistent, and one in which a load may see an old value.  What the first shows
to its callers the second shows as well, by loads of the newest value.

Conversely an old value of the other index only makes a call wait.  The queue
without memory orders waits as well, before its first test, until the other one
has found room or an item.  A call that may fail cannot be waited for: with
`try_push` and `try_pop` the two show the same only if the indexes are stored
and loaded with `seq_cst`.
-/

namespace ConcurrentQueues

universe u

namespace Spsc

open Fifo

/-! ## Threads with other program points -/

/-- The producer at another program point of the same call. -/
def Producer.map {T : Type u} {L L' : Type} (g : L → L') :
    Producer L T → Producer L' T
  | .idle => .idle
  | .push f item pc => .push f item (g pc)
  | .done b => .done b

def Consumer.map {T : Type u} {L L' : Type} (g : L → L') :
    Consumer L T → Consumer L' T
  | .idle => .idle
  | .pop f item pc => .pop f item (g pc)
  | .done item => .done item

section Invariant

variable {T : Type u} {n : ℕ} {log : List T} {calls : OnFail → Bool}
  {q q' : Queue T} {p p' : Producer Pc T} {c c' : Consumer Pc T} {e : Event T}

/-- A step that stores no index keeps the invariant of the items pushed. -/
theorem Inv.produce_inner (hI : Inv n log ⟨q, p, c⟩)
    (hmove : PushMove .unbounded n calls q p e q' p') (he : e.stored? = none) :
    Inv n log ⟨q', p', c⟩ := by
  have hnext := hI.produce hmove
  rwa [append_stored he] at hnext

theorem PushMove.head_eq {S : SizeT} (h : PushMove S n calls q p e q' p') :
    q'.head = q.head := by
  cases h <;> rfl

theorem PopMove.tail_eq {S : SizeT} (h : PopMove S n calls q c e q' c') :
    q'.tail = q.tail := by
  cases h <;> rfl

/-- A pop moves `head_` by the item that its store releases. -/
theorem Inv.head_add (hI : Inv n log ⟨q, p, c⟩)
    (hmove : PopMove .unbounded n calls q c e q' c') :
    q'.head = q.head + e.stored?.toList.length := by
  obtain ⟨hq, -, hc⟩ := hI
  dsimp only at hq hc
  have htail := hq.cachedTail_le
  have hlen := hq.channel.log_length
  cases hmove with
  | store =>
      obtain ⟨rfl, hlt, rfl⟩ := hc
      rw [Event.stored?, List.getElem?_eq_getElem (by omega)]
      rfl
  | _ => rfl

end Invariant

namespace Ordered

variable {T : Type u} {V : Variant} {n : ℕ} {log : List T}

/-- `V` runs the program of `alpha::spsc` and `StdAtomicSPSCQueue`, whatever its
memory orders are. -/
structure Variant.Caches (V : Variant) : Prop where
  cached : V.cached = true
  exact : V.exact = false
  destroys : V.destroys = false

namespace Variant.Caches

variable (hV : V.Caches)

include hV

theorem begin_eq (own : ℕ) : V.begin own = .test own := by
  rw [Variant.begin, if_pos hV.cached]

theorem full_iff {t h : ℕ} : V.full n t h ↔ Spsc.full .unbounded n t h := by
  rw [Variant.full, hV.exact, Spsc.full, SizeT.sub_unbounded]
  rfl

theorem empty_iff {t h : ℕ} : V.empty t h ↔ Spsc.empty t h := by
  rw [Variant.empty, hV.exact, Spsc.empty]
  rfl

end Variant.Caches

/-! ## Loads of the newest value -/

/-- The program point with memory orders, where an access to a slot is one
step. -/
def ordered : Spsc.Pc → Pc
  | .load => .load
  | .test own => .test own
  | .refresh own => .refresh own
  | .retest own => .retest own
  | .enter own | .inSlot own => .access own
  | .store own => .store own

/-- The second state is the first one with memory orders, and the copies of the
indexes are the same. -/
structure Agree (V : Variant) (n : ℕ) (log : List T) (s : Spsc.State T)
    (s' : State T) : Prop where
  plain : Spsc.Inv n log s
  orders : Inv V n log s.shared.head s'
  cachedHead : s'.shared.cachedHead = s.shared.cachedHead
  cachedTail : s'.shared.cachedTail = s.shared.cachedTail
  producer : s'.producer = s.producer.map ordered
  consumer : s'.consumer = s.consumer.map ordered

section Forth

variable {q q₁ : Spsc.Queue T} {r r₁ : Queue T} {p p₁ : Producer Spsc.Pc T}
  {c c₁ : Consumer Spsc.Pc T} {d d₁ : Producer Pc T} {k k₁ : Consumer Pc T}
  {e : Event T}

/-- The newest value of an index that has counted up to `N`. -/
theorem exists_newest {mem : ViewMemory Index ℕ Side (Option T)} {N : ℕ}
    {a : Index} (hwf : mem.WellFormed)
    (hvals : (mem.msgs a).map Msg.val = List.range (N + 1)) (t : Side)
    (o : MemoryOrder) : ∃ i mem', mem.load t o a i = some (N, mem') := by
  obtain ⟨v, mem', hload⟩ := hwf.exists_load t o a
  obtain ⟨rfl, -⟩ := val_of_load hvals hload
  rw [length_msgs hvals, Nat.add_sub_cancel] at hload
  exact ⟨N, mem', hload⟩

theorem cachedTail_of_push (h : PushMove V n r d e r₁ d₁) :
    r₁.cachedTail = r.cachedTail := by
  cases h <;> rfl

theorem cachedHead_of_pop (h : PopMove V n r k e r₁ k₁) :
    r₁.cachedHead = r.cachedHead := by
  cases h <;> rfl

/-- Two producers take the same step. -/
theorem Agree.push_step (h : Agree V n log ⟨q, p, c⟩ ⟨r, d, k⟩)
    (hplain : Spsc.PushMove .unbounded n V.calls q p e q₁ p₁)
    (hord : PushMove V n r d e r₁ d₁)
    (hcached : r₁.cachedHead = q₁.cachedHead)
    (hd : d₁ = p₁.map ordered) :
    Agree V n (log ++ e.stored?.toList) ⟨q₁, p₁, c⟩ ⟨r₁, d₁, k⟩ where
  plain := h.plain.produce hplain
  orders := by
    rw [hplain.head_eq]
    exact h.orders.produce hord
  cachedHead := hcached
  cachedTail := by
    rw [cachedTail_of_push hord, hplain.cachedTail_eq]
    exact h.cachedTail
  producer := hd
  consumer := h.consumer

theorem Agree.step_push (h : Agree V n log ⟨q, p, c⟩ ⟨r, d, k⟩)
    (hplain : Spsc.PushMove .unbounded n V.calls q p e q₁ p₁)
    (hord : PushMove V n r d e r₁ d₁)
    (hcached : r₁.cachedHead = q₁.cachedHead) (hd : d₁ = p₁.map ordered) :
    ∃ t', (system V n T).Matches shows ⟨r, d, k⟩ (shows (.producer, e)) t' ∧
      Agree V n (log ++ e.stored?.toList) ⟨q₁, p₁, c⟩ t' :=
  ⟨_, .step (.producer (pushMoves_iff.mpr hord)),
    h.push_step hplain hord hcached hd⟩

/-- A step of the producer is matched by the same step with memory orders. -/
theorem Agree.produce (hV : V.Caches) (h : Agree V n log ⟨q, p, c⟩ ⟨r, d, k⟩)
    (hplain : Spsc.PushMove .unbounded n V.calls q p e q₁ p₁) :
    ∃ t', (system V n T).Matches shows ⟨r, d, k⟩ (shows (.producer, e)) t' ∧
      Agree V n (log ++ e.stored?.toList) ⟨q₁, p₁, c⟩ t' := by
  obtain rfl := h.producer
  have hcached : r.cachedHead = q.cachedHead := h.cachedHead
  cases hplain with
  | call item hf => exact h.step_push (.call item hf) (.call item hf) hcached rfl
  | load =>
      obtain ⟨i, mem', hload⟩ := exists_newest h.orders.queue.memory.wf
        h.orders.queue.memory.tails .producer V.ownLoad
      rw [h.plain.queue.channel.log_length] at hload
      refine h.step_push .load (.load hload) hcached ?_
      rw [hV.begin_eq]
      rfl
  | testFull hfull =>
      refine h.step_push (.testFull hfull) (.testFull ?_) hcached rfl
      rwa [hcached, hV.full_iff]
  | testRoom hroom =>
      refine h.step_push (.testRoom hroom) (.testRoom ?_) hcached rfl
      rwa [hcached, hV.full_iff]
  | refresh =>
      obtain ⟨i, mem', hload⟩ := exists_newest h.orders.queue.memory.wf
        h.orders.queue.memory.heads .producer V.headLoad
      exact h.step_push .refresh (.refresh hload) rfl rfl
  | @retestFull f item t hfull =>
      refine h.step_push (.retestFull hfull) (.retestFull ?_) hcached ?_
      · rwa [hcached, hV.full_iff]
      · cases f <;> rfl
  | retestRoom hroom =>
      refine h.step_push (.retestRoom hroom) (.retestRoom ?_) hcached rfl
      rwa [hcached, hV.full_iff]
  | @enter f item t =>
      have henter : Spsc.PushMove .unbounded n V.calls q
          (.push f item (.enter t)) _ _ _ := .enter
      rw [append_stored rfl]
      exact ⟨_, .stay _, h.plain.produce_inner henter rfl,
        h.orders, hcached, h.cachedTail, rfl, h.consumer⟩
  | inSlot => exact h.step_push .inSlot .access hcached rfl
  | store => exact h.step_push .store .store hcached rfl
  | ret => exact h.step_push .ret .ret hcached rfl

theorem Agree.step_pop (h : Agree V n log ⟨q, p, c⟩ ⟨r, d, k⟩)
    (hplain : Spsc.PopMove .unbounded n V.calls q c e q₁ c₁)
    (hord : PopMove V n r k e r₁ k₁)
    (hcached : r₁.cachedTail = q₁.cachedTail) (hk : k₁ = c₁.map ordered) :
    ∃ t', (system V n T).Matches shows ⟨r, d, k⟩ (shows (.consumer, e)) t' ∧
      Agree V n log ⟨q₁, p, c₁⟩ t' := by
  refine ⟨_, .step (.consumer (popMoves_iff.mpr hord)),
    h.plain.consume hplain, ?_, ?_, hcached, h.producer, hk⟩
  · rw [h.plain.head_add hplain]
    exact h.orders.consume hord
  · rw [cachedHead_of_pop hord, hplain.cachedHead_eq]
    exact h.cachedHead

theorem Agree.consume (hV : V.Caches) (h : Agree V n log ⟨q, p, c⟩ ⟨r, d, k⟩)
    (hplain : Spsc.PopMove .unbounded n V.calls q c e q₁ c₁) :
    ∃ t', (system V n T).Matches shows ⟨r, d, k⟩ (shows (.consumer, e)) t' ∧
      Agree V n log ⟨q₁, p, c₁⟩ t' := by
  obtain rfl := h.consumer
  have hcached : r.cachedTail = q.cachedTail := h.cachedTail
  cases hplain with
  | call hf => exact h.step_pop (.call hf) (.call hf) hcached rfl
  | load =>
      obtain ⟨i, mem', hload⟩ := exists_newest h.orders.queue.memory.wf
        h.orders.queue.memory.heads .consumer V.ownLoad
      refine h.step_pop .load (.load hload) hcached ?_
      rw [hV.begin_eq]
      rfl
  | testEmpty hempty =>
      refine h.step_pop (.testEmpty hempty) (.testEmpty ?_) hcached rfl
      rwa [hcached, hV.empty_iff]
  | testItem hitem =>
      refine h.step_pop (.testItem hitem) (.testItem ?_) hcached rfl
      rwa [hcached, hV.empty_iff]
  | refresh =>
      obtain ⟨i, mem', hload⟩ := exists_newest h.orders.queue.memory.wf
        h.orders.queue.memory.tails .consumer V.tailLoad
      rw [h.plain.queue.channel.log_length] at hload
      exact h.step_pop .refresh (.refresh hload) rfl rfl
  | @retestEmpty f item t hempty =>
      refine h.step_pop (.retestEmpty hempty) (.retestEmpty ?_) hcached ?_
      · rwa [hcached, hV.empty_iff]
      · cases f <;> rfl
  | retestItem hitem =>
      refine h.step_pop (.retestItem hitem) (.retestItem ?_) hcached rfl
      rwa [hcached, hV.empty_iff]
  | @enter f item t =>
      have henter : Spsc.PopMove .unbounded n V.calls q
          (.pop f item (.enter t)) _ _ _ := .enter
      exact ⟨_, .stay _, h.plain.consume henter, h.orders, h.cachedHead,
        hcached, h.producer, rfl⟩
  | @inSlot f item t =>
      -- both read the item of this index
      have hdata : (r.mem.cells (t % n)).data = q.data (t % n) := by
        obtain ⟨hq, -, hc⟩ := h.plain
        dsimp only at hq hc
        obtain ⟨rfl, hlt⟩ := hc
        have htail := hq.cachedTail_le
        have hlen := hq.channel.log_length
        rw [(h.orders.queue.memory.slots q.head le_rfl (by omega)).1]
        exact (hq.channel.slots q.head le_rfl (by omega)).symm
      refine h.step_pop .inSlot .access hcached ?_
      rw [hdata]
      rfl
  | store => exact h.step_pop .store .store hcached rfl
  | ret => exact h.step_pop .ret .ret hcached rfl

theorem agree_init : Agree V n ([] : List T)
    (Spsc.system .unbounded n V.calls T).init (system V n T).init :=
  ⟨Spsc.inv_init _, inv_init, rfl, rfl, rfl, rfl⟩

/-- The orders take no history away. -/
theorem observations_subset (hV : V.Caches) (n : ℕ) (T : Type u) :
    (Spsc.system .unbounded n V.calls T).observations shows ⊆
      (system V n T).observations shows := by
  refine Lts.observations_subset (R := fun s s' => ∃ log, Agree V n log s s')
    ⟨[], agree_init⟩ ?_
  rintro s a s' ⟨r, d, k⟩ - - ⟨log, h⟩ hstep
  cases hstep with
  | producer hmove =>
      obtain ⟨t', hmatch, hnext⟩ := h.produce hV (Spsc.pushMoves_iff.mp hmove)
      exact ⟨t', hmatch, _, hnext⟩
  | consumer hmove =>
      obtain ⟨t', hmatch, hnext⟩ := h.consume hV (Spsc.popMoves_iff.mp hmove)
      exact ⟨t', hmatch, _, hnext⟩

end Forth

/-! ## A queue that waits -/

/-- The producer without memory orders that waits before its first test, until
there is room or the call is going to fail. -/
def waitingPush (V : Variant) (n cachedHead : ℕ) :
    Producer Pc T → Producer Spsc.Pc T
  | .idle => .idle
  | .push f item (.retest tail) =>
      if f = .giveUp ∧ V.full n tail cachedHead then .done false
      else .push f item .load
  | .push f item (.access tail) => .push f item (.enter tail)
  | .push f item (.store tail) => .push f item (.store tail)
  | .push f item _ => .push f item .load
  | .done b => .done b

/-- The consumer that waits before its first test. -/
def waitingPop (V : Variant) (cachedTail : ℕ) :
    Consumer Pc T → Consumer Spsc.Pc T
  | .idle => .idle
  | .pop f item (.retest head) =>
      if f = .giveUp ∧ V.empty cachedTail head then .done none
      else .pop f item .load
  | .pop f item (.access head) => .pop f item (.enter head)
  | .pop f item (.store head) => .pop f item (.store head)
  | .pop f item _ => .pop f item .load
  | .done item => .done item

section Newest

variable {k r i v : ℕ} {q : Queue T} {mem : ViewMemory Index ℕ Side (Option T)}

/-- Between `seq_cst` accesses the producer loads `head_` as it is. -/
theorem QueueInv.newest_head (h : QueueInv V n log k r q)
    (hsc : V.SeqCst .head) (hstored : q.mem.StoredWith .head V.headStore)
    (hload : q.mem.load .producer V.headLoad .head i = some (v, mem)) :
    v = k := by
  obtain ⟨hl, hs⟩ : V.headLoad = .seqCst ∧ V.headStore = .seqCst := hsc
  rw [hs] at hstored
  have hnewest := hstored.newest (hl ▸ hload)
  rw [length_msgs h.memory.heads, Nat.add_sub_cancel] at hnewest
  exact (val_of_load h.memory.heads hload).1.trans hnewest

theorem QueueInv.newest_tail (h : QueueInv V n log k r q)
    (hsc : V.SeqCst .tail) (hstored : q.mem.StoredWith .tail V.tailStore)
    (hload : q.mem.load .consumer V.tailLoad .tail i = some (v, mem)) :
    v = log.length := by
  obtain ⟨hl, hs⟩ : V.tailLoad = .seqCst ∧ V.tailStore = .seqCst := hsc
  rw [hs] at hstored
  have hnewest := hstored.newest (hl ▸ hload)
  rw [length_msgs h.memory.tails, Nat.add_sub_cancel] at hnewest
  exact (val_of_load h.memory.tails hload).1.trans hnewest

end Newest

/-- The second state is the first one without memory orders, and its threads
wait. -/
structure Waits (V : Variant) (n : ℕ) (log : List T) (s : State T)
    (s' : Spsc.State T) : Prop where
  orders : Inv V n log s'.shared.head s
  plain : Spsc.Inv n log s'
  producer : s'.producer = waitingPush V n s.shared.cachedHead s.producer
  consumer : s'.consumer = waitingPop V s.shared.cachedTail s.consumer

section Back

variable {q q₁ : Spsc.Queue T} {r r₁ : Queue T} {p p₁ : Producer Spsc.Pc T}
  {c c₁ : Consumer Spsc.Pc T} {d d₁ : Producer Pc T} {k k₁ : Consumer Pc T}
  {e : Event T} {calls : OnFail → Bool} {f : OnFail}

/-- Steps inside calls that show nothing and keep the items. -/
structure Quiet (n : ℕ) (calls : OnFail → Bool) (log : List T)
    (s s' : Spsc.State T) : Prop where
  silent : Silent .unbounded n calls s s'
  inv : Spsc.Inv n log s → Spsc.Inv n log s'
  head_eq : s'.shared.head = s.shared.head

theorem Quiet.refl (s : Spsc.State T) : Quiet n calls log s s :=
  ⟨.stay s, id, rfl⟩

theorem Quiet.push {s : Spsc.State T}
    (hmove : Spsc.PushMove .unbounded n calls q p .inner q₁ p₁)
    (hrest : Quiet n calls log ⟨q₁, p₁, c⟩ s) :
    Quiet n calls log ⟨q, p, c⟩ s where
  silent := silent_push hmove rfl hrest.silent
  inv hI := hrest.inv (hI.produce_inner hmove rfl)
  head_eq := hrest.head_eq.trans hmove.head_eq

theorem Quiet.pop {s : Spsc.State T}
    (hmove : Spsc.PopMove .unbounded n calls q c .inner q₁ c₁)
    (hrest : Quiet n calls log ⟨q₁, p, c₁⟩ s) :
    Quiet n calls log ⟨q, p, c⟩ s where
  silent := silent_pop hmove rfl hrest.silent
  inv hI := hrest.inv (hI.consume hmove)
  head_eq := by
    rw [hrest.head_eq]
    cases hmove <;> rfl

theorem full_iff_le {t h : ℕ} : full .unbounded n t h ↔ n ≤ t - h := by
  rw [full, SizeT.sub_unbounded]

/-- A push that finds room gets to its slot. -/
theorem quiet_enter_push {item : T} (hn : 1 ≤ n) (hroom : q.tail < q.head + n) :
    ∃ q₁, Quiet n calls log ⟨q, .push f item .load, c⟩
      ⟨q₁, .push f item (.enter q.tail), c⟩ := by
  by_cases hcached : full .unbounded n q.tail q.cachedHead
  · have hfree : ¬full .unbounded n q.tail q.head := by
      rw [full_iff_le]
      omega
    exact ⟨_, .push .load (.push (.testFull hcached) (.push .refresh
      (.push (.retestRoom hfree) (.refl _))))⟩
  · exact ⟨_, .push .load (.push (.testRoom hcached) (.refl _))⟩

/-- A `try_push` on a full ring fails. -/
theorem quiet_refuse_push {item : T} (hle : q.cachedHead ≤ q.head)
    (hfull : q.tail = q.head + n) :
    ∃ q₁, Quiet n calls log ⟨q, .push .giveUp item .load, c⟩
      ⟨q₁, .done false, c⟩ := by
  have hcached : full .unbounded n q.tail q.cachedHead := by
    rw [full_iff_le]
    omega
  have hnone : full .unbounded n q.tail q.head := by
    rw [full_iff_le]
    omega
  exact ⟨_, .push .load (.push (.testFull hcached) (.push .refresh
    (.push (.retestFull hnone) (.refl _))))⟩

/-- A pop that finds an item gets to its slot. -/
theorem quiet_enter_pop {item : Option T} (hitem : q.head < q.tail) :
    ∃ q₁, Quiet n calls log ⟨q, p, .pop f item .load⟩
      ⟨q₁, p, .pop f item (.enter q.head)⟩ := by
  by_cases hcached : empty q.cachedTail q.head
  · have hfound : ¬empty q.tail q.head := not_le.mpr hitem
    exact ⟨_, .pop .load (.pop (.testEmpty hcached) (.pop .refresh
      (.pop (.retestItem hfound) (.refl _))))⟩
  · exact ⟨_, .pop .load (.pop (.testItem hcached) (.refl _))⟩

/-- A `try_pop` on an empty ring fails. -/
theorem quiet_refuse_pop {item : Option T} (hle : q.cachedTail ≤ q.tail)
    (hempty : q.tail = q.head) :
    ∃ q₁, Quiet n calls log ⟨q, p, .pop .giveUp item .load⟩
      ⟨q₁, p, .done none⟩ := by
  have hcached : empty q.cachedTail q.head := hle.trans hempty.le
  have hnone : empty q.tail q.head := hempty.le
  exact ⟨_, .pop .load (.pop (.testEmpty hcached) (.pop .refresh
    (.pop (.retestEmpty hnone) (.refl _))))⟩

theorem Waits.step_push (h : Waits V n log ⟨r, d, k⟩ ⟨q, p, c⟩)
    (hmove : PushMove V n r d e r₁ d₁)
    (hplain : Spsc.Inv n (log ++ e.stored?.toList) ⟨q₁, p₁, c⟩)
    (hhead : q₁.head = q.head) (hp : p₁ = waitingPush V n r₁.cachedHead d₁) :
    Waits V n (log ++ e.stored?.toList) ⟨r₁, d₁, k⟩ ⟨q₁, p₁, c⟩ where
  orders := by
    change Inv V n _ q₁.head _
    rw [hhead]
    exact h.orders.produce hmove
  plain := hplain
  producer := hp
  consumer := by
    change c = waitingPop V r₁.cachedTail k
    rw [cachedTail_of_push hmove]
    exact h.consumer

/-- The producer without memory orders does nothing or goes on unseen. -/
theorem Waits.quiet_push (h : Waits V n log ⟨r, d, k⟩ ⟨q, p, c⟩)
    (hmove : PushMove V n r d .inner r₁ d₁)
    (hquiet : Quiet n V.calls log ⟨q, p, c⟩ ⟨q₁, p₁, c⟩)
    (hp : p₁ = waitingPush V n r₁.cachedHead d₁) :
    ∃ s₁, Silent .unbounded n V.calls ⟨q, p, c⟩ s₁ ∧
      Waits V n log ⟨r₁, d₁, k⟩ s₁ := by
  have hplain : Spsc.Inv n (log ++ (Event.inner : Event T).stored?.toList)
      ⟨q₁, p₁, c⟩ := by
    rw [append_stored rfl]
    exact hquiet.inv h.plain
  have hnext := h.step_push hmove hplain hquiet.head_eq hp
  rw [append_stored rfl] at hnext
  exact ⟨_, hquiet.silent, hnext⟩

theorem Waits.produce (hn : 1 ≤ n) (hV : V.Caches)
    (hsc : V.calls .giveUp → V.SeqCst .head) (hcalled : Called V ⟨r, d, k⟩)
    (hstored : r.mem.StoredWith .head V.headStore)
    (h : Waits V n log ⟨r, d, k⟩ ⟨q, p, c⟩)
    (hmove : PushMove V n r d e r₁ d₁) :
    ∃ s₁, (Spsc.system .unbounded n V.calls T).Matches shows ⟨q, p, c⟩
        (shows (.producer, e)) s₁ ∧
      Waits V n (log ++ e.stored?.toList) ⟨r₁, d₁, k⟩ s₁ := by
  obtain rfl := h.producer
  have hlen : log.length = q.tail := h.plain.queue.channel.log_length
  have hknown : r.cachedHead ≤ q.head := h.orders.queue.cachedHead_le
  have hpush := h.orders.producer
  dsimp only at hpush
  have enters : ∀ {f : OnFail} {item : T} {tail : ℕ}, tail = log.length →
      ¬V.full n tail r.cachedHead → ∃ q₁, Quiet n V.calls log
        ⟨q, .push f item .load, c⟩ ⟨q₁, .push f item (.enter tail), c⟩ := by
    intro f item tail htail hroom
    have hlt := lt_of_not_full hroom (htail ▸ h.orders.queue.tail_le)
    rw [htail, hlen]
    exact quiet_enter_push hn (by omega)
  cases hmove with
  | call item hf =>
      exact ⟨_, .step (.producer (Spsc.pushMoves_iff.mpr (.call item hf))),
        h.step_push (.call item hf) (h.plain.produce (.call item hf)) rfl rfl⟩
  | load hload =>
      rw [append_stored rfl]
      refine h.quiet_push (.load hload) (.refl _) ?_
      rw [hV.begin_eq]
      rfl
  | testFull hfull =>
      rw [append_stored rfl]
      exact h.quiet_push (.testFull hfull) (.refl _) rfl
  | testRoom hroom =>
      rw [append_stored rfl]
      obtain ⟨q₁, hquiet⟩ := enters hpush.1 hroom
      exact h.quiet_push (.testRoom hroom) hquiet rfl
  | @refresh f item tail i v mem hload =>
      rw [append_stored rfl]
      by_cases hfail : f = .giveUp ∧ V.full n tail v
      · -- the call has failed at this load
        have hwaits : waitingPush V n v (.push f item (.retest tail)) =
            .done false := if_pos hfail
        obtain ⟨rfl, hfull⟩ := hfail
        have hnewest : v = q.head := h.orders.queue.newest_head
          (hsc (hcalled.1 _ _ _ rfl)) hstored hload
        have htail : log.length ≤ v + n :=
          (h.orders.queue.refreshHead hload).tail_le
        have hle : q.head ≤ q.tail := h.plain.queue.channel.head_le
        have heq := eq_of_full (hpush.1 ▸ hfull) htail (by omega)
        obtain ⟨q₁, hquiet⟩ : ∃ q₁, Quiet n V.calls log
            ⟨q, .push .giveUp item .load, c⟩ ⟨q₁, .done false, c⟩ :=
          quiet_refuse_push h.plain.queue.cachedHead_le (by omega)
        exact h.quiet_push (.refresh hload) hquiet hwaits.symm
      · exact h.quiet_push (.refresh hload) (.refl _) (if_neg hfail).symm
  | @retestFull f item tail hfull =>
      rw [append_stored rfl]
      cases f with
      | giveUp =>
          exact h.quiet_push (.retestFull hfull) (.refl _) (if_pos ⟨rfl, hfull⟩)
      | startOver | testAgain =>
          refine h.quiet_push (.retestFull hfull) (.refl _) ?_
          rw [waitingPush, if_neg (by simp)]
          rfl
  | @retestRoom f item tail hroom =>
      have hwaits : waitingPush V n r.cachedHead (.push f item (.retest tail)) =
          .push f item .load := if_neg fun hfail => hroom hfail.2
      obtain ⟨q₁, hquiet⟩ : ∃ q₁, Quiet n V.calls log
          ⟨q, .push f item .load, c⟩ ⟨q₁, .push f item (.enter tail), c⟩ :=
        enters hpush.1 hroom
      rw [← hwaits] at hquiet
      rw [append_stored rfl]
      exact h.quiet_push (.retestRoom hroom) hquiet rfl
  | access =>
      rw [append_stored rfl]
      exact h.quiet_push .access (.push .enter (.push .inSlot (.refl _))) rfl
  | @store f item tail =>
      have hstore : Spsc.PushMove .unbounded n V.calls q
          (.push f item (.store tail)) _ _ _ := .store
      exact ⟨_, .step (.producer (Spsc.pushMoves_iff.mpr hstore)),
        h.step_push .store (h.plain.produce hstore) rfl rfl⟩
  | @ret b =>
      have hret : Spsc.PushMove .unbounded n V.calls q (.done b) _ _ _ := .ret
      exact ⟨_, .step (.producer (Spsc.pushMoves_iff.mpr hret)),
        h.step_push .ret (h.plain.produce hret) rfl rfl⟩

theorem Waits.step_pop (h : Waits V n log ⟨r, d, k⟩ ⟨q, p, c⟩)
    (hmove : PopMove V n r k e r₁ k₁) (hplain : Spsc.Inv n log ⟨q₁, p, c₁⟩)
    (hhead : q₁.head = q.head + e.stored?.toList.length)
    (hc : c₁ = waitingPop V r₁.cachedTail k₁) :
    Waits V n log ⟨r₁, d, k₁⟩ ⟨q₁, p, c₁⟩ where
  orders := by
    change Inv V n _ q₁.head _
    rw [hhead]
    exact h.orders.consume hmove
  plain := hplain
  producer := by
    change p = waitingPush V n r₁.cachedHead d
    rw [cachedHead_of_pop hmove]
    exact h.producer
  consumer := hc

theorem Waits.quiet_pop (h : Waits V n log ⟨r, d, k⟩ ⟨q, p, c⟩)
    (hmove : PopMove V n r k .inner r₁ k₁)
    (hquiet : Quiet n V.calls log ⟨q, p, c⟩ ⟨q₁, p, c₁⟩)
    (hc : c₁ = waitingPop V r₁.cachedTail k₁) :
    ∃ s₁, Silent .unbounded n V.calls ⟨q, p, c⟩ s₁ ∧
      Waits V n log ⟨r₁, d, k₁⟩ s₁ :=
  ⟨_, hquiet.silent,
    h.step_pop hmove (hquiet.inv h.plain) hquiet.head_eq hc⟩

theorem Waits.consume (hV : V.Caches)
    (hsc : V.calls .giveUp → V.SeqCst .tail) (hcalled : Called V ⟨r, d, k⟩)
    (hstored : r.mem.StoredWith .tail V.tailStore)
    (h : Waits V n log ⟨r, d, k⟩ ⟨q, p, c⟩)
    (hmove : PopMove V n r k e r₁ k₁) :
    ∃ s₁, (Spsc.system .unbounded n V.calls T).Matches shows ⟨q, p, c⟩
        (shows (.consumer, e)) s₁ ∧
      Waits V n log ⟨r₁, d, k₁⟩ s₁ := by
  obtain rfl := h.consumer
  have hlen : log.length = q.tail := h.plain.queue.channel.log_length
  have hpop := h.orders.consumer
  dsimp only at hpop
  have enters : ∀ {f : OnFail} {item : Option T} {head : ℕ}, head = q.head →
      ¬V.empty r.cachedTail head → ∃ q₁, Quiet n V.calls log
        ⟨q, p, .pop f item .load⟩ ⟨q₁, p, .pop f item (.enter head)⟩ := by
    rintro f item head rfl hitem
    have hlt := lt_of_not_empty hitem h.orders.queue.head_le
    have hle : r.cachedTail ≤ log.length := h.orders.queue.cachedTail_le
    exact quiet_enter_pop (by omega)
  cases hmove with
  | call hf =>
      have hcall : Spsc.PopMove .unbounded n V.calls q .idle _ _ _ := .call hf
      exact ⟨_, .step (.consumer (Spsc.popMoves_iff.mpr hcall)),
        h.step_pop (.call hf) (h.plain.consume hcall) rfl rfl⟩
  | load hload =>
      refine h.quiet_pop (.load hload) (.refl _) ?_
      rw [hV.begin_eq]
      rfl
  | testEmpty hempty => exact h.quiet_pop (.testEmpty hempty) (.refl _) rfl
  | testItem hitem =>
      obtain ⟨q₁, hquiet⟩ := enters hpop hitem
      exact h.quiet_pop (.testItem hitem) hquiet rfl
  | @refresh f item head i v mem hload =>
      by_cases hfail : f = .giveUp ∧ V.empty v head
      · -- the call has failed at this load
        have hwaits : waitingPop V v (.pop f item (.retest head)) =
            .done none := if_pos hfail
        obtain ⟨rfl, hempty⟩ := hfail
        have hnewest : v = log.length := h.orders.queue.newest_tail
          (hsc (hcalled.2 _ _ _ rfl)) hstored hload
        have hle : q.head ≤ v := (h.orders.queue.refreshTail hload).head_le
        have heq := eq_of_empty hempty (hpop ▸ hle)
        obtain ⟨q₁, hquiet⟩ : ∃ q₁, Quiet n V.calls log
            ⟨q, p, .pop .giveUp item .load⟩ ⟨q₁, p, .done none⟩ :=
          quiet_refuse_pop h.plain.queue.cachedTail_le
            (by rw [← hlen, ← hnewest, heq, hpop])
        exact h.quiet_pop (.refresh hload) hquiet hwaits.symm
      · exact h.quiet_pop (.refresh hload) (.refl _) (if_neg hfail).symm
  | @retestEmpty f item head hempty =>
      cases f with
      | giveUp =>
          exact h.quiet_pop (.retestEmpty hempty) (.refl _)
            (if_pos ⟨rfl, hempty⟩)
      | startOver | testAgain =>
          refine h.quiet_pop (.retestEmpty hempty) (.refl _) ?_
          rw [waitingPop, if_neg (by simp)]
          rfl
  | @retestItem f item head hitem =>
      have hwaits : waitingPop V r.cachedTail (.pop f item (.retest head)) =
          .pop f item .load := if_neg fun hfail => hitem hfail.2
      obtain ⟨q₁, hquiet⟩ : ∃ q₁, Quiet n V.calls log
          ⟨q, p, .pop f item .load⟩ ⟨q₁, p, .pop f item (.enter head)⟩ :=
        enters hpop hitem
      rw [← hwaits] at hquiet
      exact h.quiet_pop (.retestItem hitem) hquiet rfl
  | @access f item head =>
      -- both read the item of this index
      have hdata : (r.mem.cells (head % n)).data = q.data (head % n) := by
        obtain ⟨rfl, hlt⟩ := hpop
        have htail : r.cachedTail ≤ log.length := h.orders.queue.cachedTail_le
        have hitem : q.head < log.length := hlt.trans_le htail
        rw [(h.orders.queue.memory.slots q.head le_rfl hitem).1]
        exact (h.plain.queue.channel.slots q.head le_rfl (hlen ▸ hitem)).symm
      refine h.quiet_pop .access (.pop .enter (.pop .inSlot (.refl _))) ?_
      rw [hdata]
      rfl
  | @store f item head =>
      have hstore : Spsc.PopMove .unbounded n V.calls q
          (.pop f item (.store head)) _ _ _ := .store
      exact ⟨_, .step (.consumer (Spsc.popMoves_iff.mpr hstore)),
        h.step_pop .store (h.plain.consume hstore) (h.plain.head_add hstore)
          rfl⟩
  | @ret item =>
      have hret : Spsc.PopMove .unbounded n V.calls q (.done item) _ _ _ := .ret
      exact ⟨_, .step (.consumer (Spsc.popMoves_iff.mpr hret)),
        h.step_pop .ret (h.plain.consume hret) rfl rfl⟩

end Back

end Ordered
end Spsc
end ConcurrentQueues
