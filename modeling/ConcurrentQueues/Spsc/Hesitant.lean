import ConcurrentQueues.Spsc.Races
import ConcurrentQueues.Support.Serial

/-!
# What the memory orders mean for callers

A load of the other index may see an old value, and a `try_push` or `try_pop`
then fails although the ring is not full, respectively not empty.  Nothing else
goes wrong: with orders that synchronize the queues are FIFO queues of their
capacity whose try calls may fail for no reason.  They are linearizable FIFO
queues exactly if they have no try calls or store and load the indexes with
`seq_cst`.
-/

namespace ConcurrentQueues

universe u

namespace Spsc
namespace Ordered

open Fifo

variable {T : Type u} {V : Variant} {n k : ℕ} {log : List T}

/-! ## Sequentially consistent indexes -/

/-- An index is stored, and loaded by the other side, with `seq_cst`. -/
def Variant.SeqCst (V : Variant) (a : Index) : Prop :=
  V.loadOrder a = .seqCst ∧ V.storeOrder a = .seqCst

theorem storedWith_of_touches {a : Index}
    {mem mem' : ViewMemory Index ℕ Side (Option T)}
    (h : mem.StoredWith a (V.storeOrder a)) (htouch : V.Touches mem mem') :
    mem'.StoredWith a (V.storeOrder a) := by
  cases htouch with
  | none | write => exact h
  | own hload | other hload =>
      obtain ⟨-, msg, -, -, rfl⟩ := ViewMemory.load_eq_some_iff.mp hload
      exact h
  | store => exact h.store fun hab => congrArg V.storeOrder hab
  | take =>
      rw [Variant.take]
      split_ifs <;> exact h

theorem storedWith_of_run {a : Index} {tr : List (Side × Event T)} {s : State T}
    (hrun : (system V n T).Run tr s) :
    s.shared.mem.StoredWith a (V.storeOrder a) :=
  Lts.Run.induction
    (P := fun _ s => s.shared.mem.StoredWith a (V.storeOrder a))
    ViewMemory.storedWith_init
    (fun _ _ _ _ _ h hstep => storedWith_of_touches h (touches_of_step hstep))
    hrun

/-! ## The calls in progress -/

/-- Calls in progress are among those of the queue. -/
def Called (V : Variant) (s : State T) : Prop :=
  (∀ f item pc, s.producer = .push f item pc → V.calls f) ∧
    ∀ f item pc, s.consumer = .pop f item pc → V.calls f

theorem called_produce {q q' : Queue T} {p p' : Producer Pc T}
    {c : Consumer Pc T} {e : Event T} (h : Called V ⟨q, p, c⟩)
    (hmove : PushMove V n q p e q' p') : Called V ⟨q', p', c⟩ := by
  refine ⟨?_, h.2⟩
  rintro f item pc hpush
  cases hmove with
  | call item hf =>
      cases hpush
      exact hf
  | @retestFull f' item' t =>
      cases f' with
      | giveUp => cases hpush
      | startOver | testAgain =>
          cases hpush
          exact h.1 _ _ _ rfl
  | ret | store => cases hpush
  | load | testFull | testRoom | refresh | retestRoom | access =>
      cases hpush
      exact h.1 _ _ _ rfl

theorem called_consume {q q' : Queue T} {p : Producer Pc T}
    {c c' : Consumer Pc T} {e : Event T} (h : Called V ⟨q, p, c⟩)
    (hmove : PopMove V n q c e q' c') : Called V ⟨q', p, c'⟩ := by
  refine ⟨h.1, ?_⟩
  rintro f item pc hpop
  cases hmove with
  | call hf =>
      cases hpop
      exact hf
  | @retestEmpty f' item' t =>
      cases f' with
      | giveUp => cases hpop
      | startOver | testAgain =>
          cases hpop
          exact h.2 _ _ _ rfl
  | ret | store => cases hpop
  | load | testEmpty | testItem | refresh | retestItem | access =>
      cases hpop
      exact h.2 _ _ _ rfl

theorem called_of_run {tr : List (Side × Event T)} {s : State T}
    (hrun : (system V n T).Run tr s) : Called V s := by
  refine Lts.Run.induction (P := fun _ s => Called V s) ?_ ?_ hrun
  · constructor <;> rintro f item pc ⟨⟩
  · rintro tr s ⟨t, e⟩ s' - h hstep
    cases hstep with
    | producer hmove => exact called_produce h (pushMoves_iff.mp hmove)
    | consumer hmove => exact called_consume h (popMoves_iff.mp hmove)

/-! ## The atomic object a state stands for -/

/-- Where the producer's call stands.  A `try_push` has failed once the index
it loaded shows a full ring. -/
def pushPhase (V : Variant) (n cachedHead : ℕ) :
    Producer Pc T → Phase (Op T) (Res T)
  | .idle => .idle
  | .push f item (.retest t) =>
      if f = .giveUp ∧ V.full n t cachedHead then .done (.pushed false)
      else .pending (f.pushOp item)
  | .push f item _ => .pending (f.pushOp item)
  | .done b => .done (.pushed b)

/-- Where the consumer's call stands. -/
def popPhase (V : Variant) (cachedTail : ℕ) :
    Consumer Pc T → Phase (Op T) (Res T)
  | .idle => .idle
  | .pop f _ (.retest h) =>
      if f = .giveUp ∧ V.empty cachedTail h then .done (.popped none)
      else .pending f.popOp
  | .pop f _ _ => .pending f.popOp
  | .done item => .done (.popped item)

/-- Two threads on a list. -/
def pair (l : List T) (ph ph' : Phase (Op T) (Res T)) :
    Pool Side (List T) (Phase (Op T) (Res T)) where
  shared := l
  threads
    | .producer => ph
    | .consumer => ph'

section Pair

variable {S : SeqObject (List T) (Op T) (Res T)} {l l' : List T}
  {ph ph' ph₁ : Phase (Op T) (Res T)} {act : Act (Op T) (Res T)}

theorem pair_produce (h : S.Move l ph act l' ph₁) :
    (S.atomic Side).Matches SeqObject.seen (pair l ph ph')
      (SeqObject.seen (Side.producer, act)) (pair l' ph₁ ph') := by
  refine Lts.Matches.step ⟨l', ph₁, h, ?_⟩
  simp only [pair, Pool.move, Pool.mk.injEq, true_and]
  funext t
  cases t <;> rfl

theorem pair_consume (h : S.Move l ph' act l' ph₁) :
    (S.atomic Side).Matches SeqObject.seen (pair l ph ph')
      (SeqObject.seen (Side.consumer, act)) (pair l' ph ph₁) := by
  refine Lts.Matches.step ⟨l', ph₁, h, ?_⟩
  simp only [pair, Pool.move, Pool.mk.injEq, true_and]
  funext t
  cases t <;> rfl

end Pair

/-- The queue with its unread items, and where the two calls stand. -/
def abstraction (V : Variant) (n : ℕ) (log : List T) (k : ℕ) (s : State T) :
    Pool Side (List T) (Phase (Op T) (Res T)) :=
  pair (log.drop k) (pushPhase V n s.shared.cachedHead s.producer)
    (popPhase V s.shared.cachedTail s.consumer)

/-- The object a queue implements: a try call may fail for no reason unless the
index it loads is sequentially consistent. -/
def Variant.object (V : Variant) (n : ℕ) (T : Type u) :
    SeqObject (List T) (Op T) (Res T) :=
  hesitant T n (V.calls .giveUp ∧ ¬V.SeqCst .head)
    (V.calls .giveUp ∧ ¬V.SeqCst .tail)

theorem apply_pushOp {cap : ℕ∞} {push pop : Prop} {l : List T} (f : OnFail)
    {item : T} (h : (l.length : ℕ∞) < cap) :
    Hesitates cap push pop l (f.pushOp item) (.pushed true) (l ++ [item]) :=
  .apply (Spsc.apply_pushOp f h)

theorem apply_popOp {cap : ℕ∞} {push pop : Prop} {l : List T} (f : OnFail)
    {item : T} :
    Hesitates cap push pop (item :: l) f.popOp (.popped (some item)) l :=
  .apply (Spsc.apply_popOp f)

/-! ## The simulation -/

section Simulation

variable {q q' : Queue T} {e : Event T}

/-- A `try_push` that sees a full ring may fail. -/
theorem QueueInv.apply_full {r ts v : ℕ} {item : T}
    {mem : ViewMemory Index ℕ Side (Option T)} (hq : QueueInv V n log k r q)
    (hstored : q.mem.StoredWith .head V.headStore) (hcalls : V.calls .giveUp)
    (hload : q.mem.load .producer V.headLoad .head ts = some (v, mem))
    (hfull : V.full n log.length v) :
    Hesitates n (V.calls .giveUp ∧ ¬V.SeqCst .head)
      (V.calls .giveUp ∧ ¬V.SeqCst .tail) (log.drop k) (.tryPush item)
      (.pushed false) (log.drop k) := by
  by_cases hsc : V.SeqCst .head
  · obtain ⟨hl, hs⟩ : V.headLoad = .seqCst ∧ V.headStore = .seqCst := hsc
    have hroom := (hq.refreshHead hload).tail_le
    rw [hs] at hstored
    have hnewest := hstored.newest (hl ▸ hload)
    have hval := val_of_load hq.memory.heads hload
    rw [length_msgs hq.memory.heads, Nat.add_sub_cancel] at hnewest
    have hle := hq.memory.head_le.trans hq.memory.read_le
    have heq := eq_of_full hfull hroom (by omega)
    refine .apply (.full ?_)
    rw [List.length_drop]
    exact_mod_cast (by omega : log.length - k = n)
  · exact .refuse ⟨hcalls, hsc⟩

/-- A `try_pop` that sees an empty ring may fail. -/
theorem QueueInv.apply_empty {r ts v : ℕ}
    {mem : ViewMemory Index ℕ Side (Option T)} (hq : QueueInv V n log k r q)
    (hstored : q.mem.StoredWith .tail V.tailStore) (hcalls : V.calls .giveUp)
    (hload : q.mem.load .consumer V.tailLoad .tail ts = some (v, mem))
    (hempty : V.empty v k) :
    Hesitates n (V.calls .giveUp ∧ ¬V.SeqCst .head)
      (V.calls .giveUp ∧ ¬V.SeqCst .tail) (log.drop k) .tryPop
      (.popped none) (log.drop k) := by
  by_cases hsc : V.SeqCst .tail
  · obtain ⟨hl, hs⟩ : V.tailLoad = .seqCst ∧ V.tailStore = .seqCst := hsc
    have hle := (hq.refreshTail hload).head_le
    rw [hs] at hstored
    have hnewest := hstored.newest (hl ▸ hload)
    have hval := val_of_load hq.memory.tails hload
    rw [length_msgs hq.memory.tails, Nat.add_sub_cancel] at hnewest
    have heq := eq_of_empty hempty hle
    rw [List.drop_eq_nil_of_le (by omega)]
    exact .apply .empty
  · exact .miss ⟨hcalls, hsc⟩

/-- Every producer step is matched on the atomic object. -/
theorem matches_produce {p p' : Producer Pc T} {c : Consumer Pc T}
    (hI : Inv V n log k ⟨q, p, c⟩) (hcalled : Called V ⟨q, p, c⟩)
    (hstored : q.mem.StoredWith .head V.headStore)
    (hmove : PushMove V n q p e q' p') :
    ((V.object n T).atomic Side).Matches SeqObject.seen
      (abstraction V n log k ⟨q, p, c⟩) (shows (.producer, e))
      (abstraction V n (log ++ e.stored?.toList) k ⟨q', p', c⟩) := by
  obtain ⟨hq, hp, -⟩ := hI
  cases hmove with
  | @call f item hf =>
      rw [append_stored rfl]
      exact pair_produce (.call _ (f.pushOp item))
  | load =>
      rw [append_stored rfl, Variant.begin]
      split_ifs <;> exact .stay _
  | testFull | testRoom | access =>
      rw [append_stored rfl]
      exact .stay _
  | @refresh f item t ts v mem hload =>
      rw [append_stored rfl]
      obtain rfl : t = log.length := hp.1
      by_cases hfail : f = .giveUp ∧ V.full n log.length v
      · -- the call has failed at this load
        have hphase : pushPhase V n v (.push f item (.retest log.length)) =
            .done (.pushed false) := if_pos hfail
        obtain ⟨rfl, hfull⟩ := hfail
        have hcalls := hcalled.1 _ _ _ rfl
        rw [abstraction, abstraction, hphase]
        exact pair_produce
          (.effect (hq.apply_full hstored hcalls hload hfull))
      · have hphase : pushPhase V n v (.push f item (.retest log.length)) =
            .pending (f.pushOp item) := if_neg hfail
        rw [abstraction, abstraction, hphase]
        exact .stay _
  | @retestFull f item t hfull =>
      rw [append_stored rfl]
      cases f with
      | giveUp =>
          have hphase : pushPhase V n q.cachedHead
              (.push .giveUp item (.retest t)) = .done (.pushed false) :=
            if_pos ⟨rfl, hfull⟩
          rw [abstraction, hphase]
          exact .stay _
      | startOver | testAgain =>
          rw [abstraction, pushPhase, if_neg (by simp)]
          exact .stay _
  | @retestRoom f item t hroom =>
      rw [append_stored rfl, abstraction, pushPhase,
        if_neg fun h => hroom h.2]
      exact .stay _
  | @store f item t =>
      obtain ⟨rfl, hroom, -⟩ := hp
      have hhead := hq.cachedHead_le
      have hle := hq.memory.head_le.trans hq.memory.read_le
      rw [abstraction, abstraction, Event.stored?, Option.toList_some,
        List.drop_append_of_le_length hle]
      refine pair_produce (.effect (apply_pushOp f ?_))
      rw [List.length_drop]
      exact_mod_cast (by omega : log.length - k < n)
  | @ret b =>
      rw [append_stored rfl]
      exact pair_produce (.ret _ (.pushed b))

/-- Every consumer step is matched on the atomic object. -/
theorem matches_consume {p : Producer Pc T} {c c' : Consumer Pc T}
    (hI : Inv V n log k ⟨q, p, c⟩) (hcalled : Called V ⟨q, p, c⟩)
    (hstored : q.mem.StoredWith .tail V.tailStore)
    (hmove : PopMove V n q c e q' c') :
    ((V.object n T).atomic Side).Matches SeqObject.seen
      (abstraction V n log k ⟨q, p, c⟩) (shows (.consumer, e))
      (abstraction V n log (k + e.stored?.toList.length) ⟨q', p, c'⟩) := by
  obtain ⟨hq, -, hc⟩ := hI
  cases hmove with
  | @call f hf => exact pair_consume (.call _ f.popOp)
  | load =>
      rw [Variant.begin]
      split_ifs <;> exact .stay _
  | testEmpty | testItem | access => exact .stay _
  | @refresh f item h ts v mem hload =>
      obtain rfl : h = k := hc
      by_cases hfail : f = .giveUp ∧ V.empty v h
      · -- the call has failed at this load
        have hphase : popPhase V v (.pop f item (.retest h)) =
            .done (.popped none) := if_pos hfail
        obtain ⟨rfl, hempty⟩ := hfail
        have hcalls := hcalled.2 _ _ _ rfl
        rw [abstraction, abstraction, hphase]
        exact pair_consume
          (.effect (hq.apply_empty hstored hcalls hload hempty))
      · have hphase : popPhase V v (.pop f item (.retest h)) =
            .pending f.popOp := if_neg hfail
        rw [abstraction, abstraction, hphase]
        exact .stay _
  | @retestEmpty f item h hempty =>
      cases f with
      | giveUp =>
          have hphase : popPhase V q.cachedTail
              (.pop .giveUp item (.retest h)) = .done (.popped none) :=
            if_pos ⟨rfl, hempty⟩
          rw [abstraction, hphase]
          exact .stay _
      | startOver | testAgain =>
          rw [abstraction, popPhase, if_neg (by simp)]
          exact .stay _
  | @retestItem f item h hitem =>
      rw [abstraction, popPhase, if_neg fun h => hitem h.2]
      exact .stay _
  | @store f item h =>
      obtain ⟨rfl, hlt, rfl⟩ := hc
      have htail := hq.cachedTail_le
      have hget : h < log.length := by omega
      rw [abstraction, abstraction, List.drop_eq_getElem_cons hget,
        List.getElem?_eq_getElem hget]
      exact pair_consume (.effect (apply_popOp f))
  | @ret item => exact pair_consume (.ret _ (.popped item))

end Simulation

section Runs

variable {tr : List (Side × Event T)} {s : State T}

/-- The starts and returns of every run are those of a run of the atomic
queue. -/
theorem implements_object (V : Variant) (n : ℕ) (T : Type u) :
    (V.object n T).Implements (system V n T) shows
      (fun tr s o => o = abstraction V n (pushed tr) (popped tr).length s) := by
  apply SeqObject.implements_of_simulation
  · simp only [SeqObject.atomic, Pool.lts, abstraction, pair, Pool.mk.injEq]
    refine ⟨rfl, ?_⟩
    funext t
    cases t <;> rfl
  · rintro tr s ⟨t, e⟩ s' o hrun rfl hstep
    have hI := inv_of_run hrun
    have hcalled := called_of_run hrun
    cases hstep with
    | producer h =>
        refine ⟨_, matches_produce hI hcalled (storedWith_of_run hrun)
          (pushMoves_iff.mp h), ?_⟩
        rw [pushed_producer, popped_producer]
    | consumer h =>
        refine ⟨_, matches_consume hI hcalled (storedWith_of_run hrun)
          (popMoves_iff.mp h), ?_⟩
        rw [pushed_consumer, popped_consumer, List.length_append]

/-! ## Items -/

/-- The item a finished pop is about to return. -/
def delivering : Consumer Pc T → Option T
  | .done item => item
  | _ => none

/-- What a pop shows, does and is about to return. -/
theorem delivering_consume {q q' : Queue T} {c c' : Consumer Pc T}
    {e : Event T} {got : List T} (hmove : PopMove V n q c e q' c')
    (hgot : popped tr = got ++ (delivering c).toList) :
    popped tr ++ e.stored?.toList =
      got ++ e.delivered?.toList ++ (delivering c').toList := by
  cases hmove with
  | @retestEmpty f item h hempty =>
      cases f <;> simpa [Event.stored?, Event.delivered?, delivering,
        afterEmpty] using hgot
  | ret => simpa [Event.stored?, Event.delivered?, delivering] using hgot
  | store => simpa [Event.stored?, Event.delivered?, delivering] using hgot
  | _ => simpa [Event.stored?, Event.delivered?, delivering] using hgot

/-- All items popped but the one of a pop still to return have been
obtained. -/
theorem popped_eq (hrun : (system V n T).Run tr s) :
    popped tr = obtained tr ++ (delivering s.consumer).toList := by
  refine Lts.Run.induction (P := fun tr s =>
    popped tr = obtained tr ++ (delivering s.consumer).toList) rfl ?_ hrun
  rintro tr s ⟨t, e⟩ s' - hgot hstep
  cases hstep with
  | producer h =>
      rw [popped_producer, obtained_producer]
      exact hgot
  | consumer h =>
      rw [popped_consumer, obtained_consumer]
      exact delivering_consume (popMoves_iff.mp h) hgot

theorem prefix_append_next {l l' : List T} (h : l <+: l') :
    l ++ (l'[l.length]?).toList <+: l' := by
  obtain ⟨rest, rfl⟩ := h
  cases rest <;> simp

/-- Items are popped in the order of the pushes. -/
theorem popped_prefix_pushed (hrun : (system V n T).Run tr s) :
    popped tr <+: pushed tr := by
  refine Lts.Run.induction (P := fun tr _ => popped tr <+: pushed tr)
    (List.prefix_refl []) ?_ hrun
  rintro tr s ⟨t, e⟩ s' hrun hpre hstep
  cases hstep with
  | producer h =>
      rw [popped_producer, pushed_producer]
      exact hpre.trans (List.prefix_append _ _)
  | @consumer q q' p c c' e h =>
      rw [popped_consumer, pushed_consumer]
      have hI := inv_of_run hrun
      cases popMoves_iff.mp h with
      | store =>
          obtain ⟨rfl, -, rfl⟩ := hI.consumer
          exact prefix_append_next hpre
      | _ => simpa [Event.stored?] using hpre

end Runs

/-- A FIFO queue of capacity `n` without races, whose try calls may fail for no
reason unless the index they load is sequentially consistent.  Items are popped
in the order of the pushes and obtained in that order. -/
structure WeakFifo (V : Variant) (n : ℕ) (T : Type u) : Prop where
  raceFree : ∀ tr s, (system V n T).Run tr s → ¬Racing V n s
  implements : (V.object n T).Implements (system V n T) shows
    (fun tr _ o => o.shared = (pushed tr).drop (popped tr).length)
  obtained_prefix : ∀ tr s, (system V n T).Run tr s → obtained tr <+: popped tr
  popped_prefix : ∀ tr s, (system V n T).Run tr s → popped tr <+: pushed tr
  room : ∀ tr s, (system V n T).Run tr s →
    (pushed tr).length ≤ (popped tr).length + n

/-- Orders that synchronize are enough for all queues. -/
theorem weakFifo (hV : V.Synchronizes) (n : ℕ) (T : Type u) :
    WeakFifo V n T where
  raceFree _ _ hrun := not_racing hV hrun
  implements := by
    intro tr s hrun
    obtain ⟨tr', o, hrun', hseen, rfl⟩ := implements_object V n T tr s hrun
    exact ⟨tr', _, hrun', hseen, rfl⟩
  obtained_prefix _ _ hrun := ⟨_, (popped_eq hrun).symm⟩
  popped_prefix _ _ hrun := popped_prefix_pushed hrun
  room _ _ hrun := (inv_of_run hrun).queue.memory.tail_le

theorem weakFifo_alpha : WeakFifo alpha 2 ℕ :=
  weakFifo (synchronizes_of_mem (by simp)) 2 ℕ

/-! ## Calls that fail without need -/

section Stale

variable {got : List T} {hist : List (Side × Act (Op T) (Res T))} {q : Queue T}
  {p : Producer Pc T} {c : Consumer Pc T}

/-- A `try_push` that loads the initial `head_` fails. -/
theorem At.fail_push (h : At V n log got hist q .idle c)
    (hf : V.calls .giveUp) (hsc : ¬V.SeqCst .head) (hlen : log.length = n)
    (hseen : (q.mem.view .producer).seen .head = 0) (item : T) :
    ∃ q', At V n log got (hist ++
      SeqObject.serial [(.producer, .tryPush item, .pushed false)]) q'
      .idle c := by
  have hq := h.inv.queue
  have hstored : q.mem.StoredWith .head V.headStore := by
    obtain ⟨tr, hrun, -⟩ := h
    exact storedWith_of_run (a := .head) hrun
  have hfull : V.full n log.length 0 := by
    rw [Variant.full]
    split_ifs <;> omega
  have hcached : q.cachedHead = 0 := by
    have : q.cachedHead ≤ (q.mem.view .producer).seen .head :=
      hq.cachedHead_seen
    omega
  obtain ⟨v, mem, hload⟩ :=
    (hstored.admits_oldest V.headLoad hseen hsc).exists_load
      (by simp [length_msgs hq.memory.heads])
  have hrefresh := (h.call_push hf item).begin_push fun _ => by rwa [hcached]
  have hretest := hrefresh.produce_inner (.refresh hload)
  rw [(val_of_load hq.memory.heads hload).1] at hretest
  have hdone := hretest.produce_inner (.retestFull hfull)
  exact ⟨_, by simpa [Event.stored?, shows, SeqObject.serial, OnFail.pushOp]
    using hdone.produce .ret⟩

/-- A `try_pop` that loads the initial `tail_` fails. -/
theorem At.fail_pop (h : At V n log [] hist q p .idle)
    (hf : V.calls .giveUp) (hsc : ¬V.SeqCst .tail)
    (hseen : (q.mem.view .consumer).seen .tail = 0) :
    ∃ q', At V n log [] (hist ++
      SeqObject.serial [(.consumer, .tryPop, .popped none)]) q' p .idle := by
  have hq := h.inv.queue
  have hstored : q.mem.StoredWith .tail V.tailStore := by
    obtain ⟨tr, hrun, -⟩ := h
    exact storedWith_of_run (a := .tail) hrun
  have hempty : V.empty 0 ([] : List T).length := by
    rw [Variant.empty]
    split_ifs <;> rfl
  have hcached : q.cachedTail = 0 := by
    have : q.cachedTail ≤ (q.mem.view .consumer).seen .tail :=
      hq.cachedTail_seen
    omega
  obtain ⟨v, mem, hload⟩ :=
    (hstored.admits_oldest V.tailLoad hseen hsc).exists_load
      (by simp [length_msgs hq.memory.tails])
  have hrefresh := (h.call_pop hf).begin_pop fun _ => by rwa [hcached]
  have hretest := hrefresh.consume_inner (.refresh hload)
  rw [(val_of_load hq.memory.tails hload).1] at hretest
  have hdone := hretest.consume_inner (.retestEmpty hempty)
  exact ⟨_, by simpa [Event.stored?, shows, SeqObject.serial, OnFail.popOp]
    using hdone.consume .ret⟩

end Stale

/-- Pushes that succeed add up. -/
theorem length_of_pushes {cap : ℕ∞} {item : T} {m : ℕ} {l l' : List T}
    (h : (object T cap).sequential.Path l
      (List.replicate m (.tryPush item, .pushed true)) l') :
    l'.length = l.length + m := by
  induction m generalizing l with
  | zero => rw [h.eq_of_nil, Nat.add_zero]
  | succ m ih =>
      obtain ⟨l₁, hstep, hpath⟩ := h.head
      cases hstep with
      | tryPush =>
          rw [ih hpath, List.length_append, List.length_singleton]
          omega

/-- A full ring, one pop, and a push that fails. -/
theorem seqCst_head_of_implements (hn : 1 ≤ n) (item : T)
    (himpl : (object T n).Implements (system V n T) shows fun _ _ _ => True)
    (hcalls : V.calls .giveUp) : V.SeqCst .head := by
  by_contra hsc
  obtain ⟨q₀, h₀⟩ := exists_pushes hcalls item (le_refl n)
  have hlen := length_msgs h₀.inv.queue.memory.heads
  have hseen := (h₀.inv.queue.memory.wf.view_le .producer).1 .head
  obtain ⟨q₁, h₁, hview⟩ := h₀.pop hcalls item
    (by simp [Nat.lt_of_succ_le hn])
  have hold : (q₁.mem.view .producer).seen .head = 0 := by
    rw [hview]
    exact Nat.le_zero.mp (by simpa [ViewMemory.limit, hlen] using hseen)
  obtain ⟨q₂, tr, hrun, -, -, hshows⟩ := h₁.fail_push hcalls hsc
    (List.length_replicate ..) hold item
  rw [← SeqObject.serial_append, ← SeqObject.serial_append] at hshows
  obtain ⟨l, hseq⟩ := himpl.serial hrun hshows
  rw [List.map_append, List.map_append, List.map_replicate] at hseq
  obtain ⟨l₂, hpath, hlast⟩ := Lts.Path.split hseq
  obtain ⟨l₁, hpushes, hpop⟩ := hpath.split
  have hfull : l₁.length = n := by
    simpa [SeqObject.sequential, object] using length_of_pushes hpushes
  obtain ⟨m₁, hstep₁, hnil⟩ := hpop.head
  obtain rfl := hnil.eq_of_nil
  obtain ⟨m₂, hstep₂, -⟩ := hlast.head
  cases hstep₁ with
  | tryPop =>
      cases hstep₂ with
      | full hlen₂ =>
          have : l₂.length = n := by exact_mod_cast hlen₂
          rw [List.length_cons] at hfull
          omega

/-- A push, and a pop that fails. -/
theorem seqCst_tail_of_implements (hn : 1 ≤ n) (item : T)
    (himpl : (object T n).Implements (system V n T) shows fun _ _ _ => True)
    (hcalls : V.calls .giveUp) : V.SeqCst .tail := by
  by_contra hsc
  obtain ⟨q₁, h₁, hview⟩ := At.init.push (V := V) hcalls item
    (by simpa using Nat.lt_of_succ_le hn)
  have hold : (q₁.mem.view .consumer).seen .tail = 0 := by
    rw [hview]
    rfl
  obtain ⟨q₂, tr, hrun, -, -, hshows⟩ := h₁.fail_pop hcalls hsc hold
  rw [List.nil_append, ← SeqObject.serial_append] at hshows
  obtain ⟨l, hseq⟩ := himpl.serial hrun hshows
  obtain ⟨l₁, hstep₁, hpath⟩ := Lts.Path.head hseq
  obtain ⟨l₂, hstep₂, -⟩ := hpath.head
  cases hstep₁ with
  | tryPush => cases hstep₂

/-- A queue is a linearizable FIFO queue of its capacity, without races, exactly
if its orders synchronize and it has no try calls or stores and loads both
indexes with `seq_cst`. -/
theorem linearizable_iff (hn : 1 ≤ n) (hcalls : ∃ f, V.calls f) (item : T) :
    ((∀ tr s, (system V n T).Run tr s → ¬Racing V n s) ∧
        (object T n).Implements (system V n T) shows fun _ _ _ => True) ↔
      V.Synchronizes ∧
        (V.calls .giveUp → V.SeqCst .head ∧ V.SeqCst .tail) := by
  constructor
  · rintro ⟨hfree, himpl⟩
    exact ⟨synchronizes_of_raceFree hn hcalls item hfree, fun htry =>
      ⟨seqCst_head_of_implements hn item himpl htry,
        seqCst_tail_of_implements hn item himpl htry⟩⟩
  · rintro ⟨hV, hsc⟩
    refine ⟨fun _ _ hrun => not_racing hV hrun, fun tr s hrun => ?_⟩
    have hrefines : (V.object n T).Refines (object T n) Eq :=
      hesitant_refines (fun h => h.2 (hsc h.1).1) fun h => h.2 (hsc h.1).2
    obtain ⟨tr', o, hrun', hseen, -⟩ :=
      (implements_object V n T).refine hrefines tr s hrun
    exact ⟨tr', o, hrun', hseen, trivial⟩

/-- `charlie` is a linearizable queue on two slots, and `alpha` is not. -/
theorem linearizable_charlie :
    (object ℕ 2).Implements (system charlie 2 ℕ) shows (fun _ _ _ => True) ∧
      ¬(object ℕ 2).Implements (system alpha 2 ℕ) shows fun _ _ _ => True := by
  constructor
  · exact ((linearizable_iff (by decide) ⟨.giveUp, rfl⟩ 0).mpr
      ⟨synchronizes_of_mem (by simp), fun _ => ⟨⟨rfl, rfl⟩, rfl, rfl⟩⟩).2
  · intro himpl
    obtain ⟨-, hsc⟩ := (linearizable_iff (V := alpha) (by decide : 1 ≤ 2)
      ⟨.giveUp, rfl⟩ 0).mp
        ⟨fun _ _ => not_racing (synchronizes_of_mem (by simp)), himpl⟩
    exact absurd (hsc rfl).1.1 (by decide)

end Ordered
end Spsc
end ConcurrentQueues
