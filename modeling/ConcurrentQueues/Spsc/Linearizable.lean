import ConcurrentQueues.Spsc.Invariant

/-!
# The cached queues are linearizable bounded FIFO queues

A push takes effect at its store of `tail_`, a pop at its store of `head_`.  A
`try_push` that fails takes effect at its load of `head_`, and a `try_pop` that
fails at its load of `tail_`: there the loaded index is exact, so the ring is
full, respectively empty, whatever the cached copies said before.
-/

namespace ConcurrentQueues

universe u

namespace Spsc

open Fifo

variable {T : Type u} {n : ℕ} {log : List T}

/-! ## What callers see -/

/-- The starts and returns of a run. -/
def shows : Side × Event T → Option (Side × Act (Op T) (Res T))
  | (t, .call op) => some (t, .call op)
  | (t, .ret r) => some (t, .ret r)
  | _ => none

/-- The start of a call of one side. -/
def Starts (t : Side) (a : Side × Event T) : Prop :=
  a.1 = t ∧ ∃ op, a.2 = .call op

/-- The item a step returns to the consumer's caller. -/
def Event.delivered? : Event T → Option T
  | .ret (.popped item) => item
  | _ => none

/-- The items that pops have returned along a trace. -/
def obtained (tr : List (Side × Event T)) : List T :=
  tr.filterMap fun a => if a.1 = .consumer then a.2.delivered? else none

theorem obtained_producer (tr : List (Side × Event T)) (e : Event T) :
    obtained (tr ++ [(.producer, e)]) = obtained tr := by
  simp [obtained]

theorem obtained_consumer (tr : List (Side × Event T)) (e : Event T) :
    obtained (tr ++ [(.consumer, e)]) = obtained tr ++ e.delivered?.toList := by
  rw [obtained, List.filterMap_append]
  cases h : e.delivered? <;> simp [obtained, h]

/-! ## The atomic object a state stands for -/

/-- Where the producer's call stands on the atomic object.  A `try_push` has
failed once the refreshed index shows a full ring. -/
def Producer.phase (n cachedHead : ℕ) : Producer Pc T → Phase (Op T) (Res T)
  | .idle => .idle
  | .push f item (.retest t) =>
      if f = .giveUp ∧ full .unbounded n t cachedHead then .done (.pushed false)
      else .pending (f.pushOp item)
  | .push f item _ => .pending (f.pushOp item)
  | .done b => .done (.pushed b)

/-- Where the consumer's call stands on the atomic object. -/
def Consumer.phase (cachedTail : ℕ) : Consumer Pc T → Phase (Op T) (Res T)
  | .idle => .idle
  | .pop f _ (.retest h) =>
      if f = .giveUp ∧ empty cachedTail h then .done (.popped none)
      else .pending f.popOp
  | .pop f _ _ => .pending f.popOp
  | .done item => .done (.popped item)

def phases (n : ℕ) (s : State T) : Side → Phase (Op T) (Res T)
  | .producer => s.producer.phase n s.shared.cachedHead
  | .consumer => s.consumer.phase s.shared.cachedTail

/-- The atomic object a state stands for; it holds the unread items. -/
def abstraction (n : ℕ) (log : List T) (s : State T) :
    Pool Side (List T) (Phase (Op T) (Res T)) :=
  ⟨log.drop s.shared.head, phases n s⟩

section Matching

variable {q q' : Queue T} {p p' : Producer Pc T} {c c' : Consumer Pc T}

/-- A producer step that leaves the unread items and its call where they
are. -/
theorem produce_stay (hcached : q'.cachedTail = q.cachedTail)
    (hhead : q'.head = q.head)
    (hphase : p'.phase n q'.cachedHead = p.phase n q.cachedHead) :
    ((object T n).atomic Side).Matches SeqObject.seen
      (abstraction n log ⟨q, p, c⟩) none (abstraction n log ⟨q', p', c⟩) := by
  have hsame : abstraction n log ⟨q', p', c⟩ = abstraction n log ⟨q, p, c⟩ := by
    rw [abstraction, abstraction, hhead]
    congr 1
    funext t
    cases t with
    | producer => exact hphase
    | consumer => simp [phases, hcached]
  rw [hsame]
  exact Lts.Matches.stay _

/-- A producer step that moves the producer's call on the atomic object. -/
theorem produce_act (act : Act (Op T) (Res T)) (log' : List T)
    (hcached : q'.cachedTail = q.cachedTail)
    (hmove : (object T n).Move (log.drop q.head) (p.phase n q.cachedHead) act
      (log'.drop q'.head) (p'.phase n q'.cachedHead)) :
    ((object T n).atomic Side).Matches SeqObject.seen
      (abstraction n log ⟨q, p, c⟩) (SeqObject.seen (Side.producer, act))
      (abstraction n log' ⟨q', p', c⟩) := by
  refine Lts.Matches.step ⟨_, _, hmove, ?_⟩
  simp only [abstraction, Pool.move, Pool.mk.injEq, true_and]
  funext t
  cases t with
  | producer => rfl
  | consumer => simp [phases, hcached]

theorem consume_stay (hcached : q'.cachedHead = q.cachedHead)
    (hhead : q'.head = q.head)
    (hphase : c'.phase q'.cachedTail = c.phase q.cachedTail) :
    ((object T n).atomic Side).Matches SeqObject.seen
      (abstraction n log ⟨q, p, c⟩) none (abstraction n log ⟨q', p, c'⟩) := by
  have hsame : abstraction n log ⟨q', p, c'⟩ = abstraction n log ⟨q, p, c⟩ := by
    rw [abstraction, abstraction, hhead]
    congr 1
    funext t
    cases t with
    | producer => simp [phases, hcached]
    | consumer => exact hphase
  rw [hsame]
  exact Lts.Matches.stay _

theorem consume_act (act : Act (Op T) (Res T))
    (hcached : q'.cachedHead = q.cachedHead)
    (hmove : (object T n).Move (log.drop q.head) (c.phase q.cachedTail) act
      (log.drop q'.head) (c'.phase q'.cachedTail)) :
    ((object T n).atomic Side).Matches SeqObject.seen
      (abstraction n log ⟨q, p, c⟩) (SeqObject.seen (Side.consumer, act))
      (abstraction n log ⟨q', p, c'⟩) := by
  refine Lts.Matches.step ⟨_, _, hmove, ?_⟩
  simp only [abstraction, Pool.move, Pool.mk.injEq, true_and]
  funext t
  cases t with
  | producer => simp [phases, hcached]
  | consumer => rfl

end Matching

theorem apply_pushOp {cap : ℕ∞} {q : List T} (f : OnFail) {item : T}
    (h : (q.length : ℕ∞) < cap) :
    Apply cap q (f.pushOp item) (.pushed true) (q ++ [item]) := by
  cases f with
  | giveUp => exact .tryPush h
  | startOver | testAgain => exact .push h

theorem apply_popOp {cap : ℕ∞} {q : List T} (f : OnFail) {item : T} :
    Apply cap (item :: q) f.popOp (.popped (some item)) q := by
  cases f with
  | giveUp => exact .tryPop
  | startOver | testAgain => exact .pop

/-! ## The simulation -/

section Simulation

variable {calls : OnFail → Bool} {q q' : Queue T} {e : Event T}

/-- A ring that looks full right after the load of `head_` is full. -/
theorem QueueInv.tail_eq_of_full (hq : QueueInv n log q)
    (h : full .unbounded n q.tail q.head) : q.tail = q.head + n := by
  have hle := hq.channel.tail_le
  have hhead := hq.channel.head_le
  simp only [full, SizeT.sub_unbounded] at h
  omega

theorem QueueInv.length_of_full (hq : QueueInv n log q)
    (h : full .unbounded n q.tail q.head) : (log.drop q.head).length = n := by
  rw [List.length_drop, hq.channel.log_length, hq.tail_eq_of_full h]
  omega

theorem QueueInv.drop_of_empty (hq : QueueInv n log q)
    (h : empty q.tail q.head) : log.drop q.head = [] := by
  rw [List.drop_eq_nil_iff, hq.channel.log_length]
  exact h

/-- Every producer step is matched on the atomic object. -/
theorem Inv.matches_produce {p p' : Producer Pc T} {c : Consumer Pc T}
    (hI : Inv n log ⟨q, p, c⟩)
    (hmove : PushMove .unbounded n calls q p e q' p') :
    ((object T n).atomic Side).Matches SeqObject.seen
      (abstraction n log ⟨q, p, c⟩) (shows (.producer, e))
      (abstraction n (log ++ e.stored?.toList) ⟨q', p', c⟩) := by
  obtain ⟨hq, hp, -⟩ := hI
  dsimp only at hq hp
  cases hmove with
  | @call f item hf =>
      rw [append_stored rfl]
      exact produce_act (.call (f.pushOp item)) log rfl (.call _ _)
  | load | testFull | testRoom | enter | inSlot =>
      rw [append_stored rfl]
      exact produce_stay rfl rfl rfl
  | @refresh f item t =>
      rw [append_stored rfl]
      obtain rfl : t = q.tail := hp
      by_cases hfail : f = .giveUp ∧ full .unbounded n q.tail q.head
      · -- the call has failed: the ring is full right now
        have hphase : (Producer.push f item (.retest q.tail)).phase n q.head =
            .done (.pushed false) := if_pos hfail
        have hlen := hq.length_of_full hfail.2
        refine produce_act .effect log rfl ?_
        rw [Queue.refreshHead_cachedHead, hphase, hfail.1]
        exact .effect (Apply.full (by exact_mod_cast hlen))
      · have hphase : (Producer.push f item (.retest q.tail)).phase n q.head =
            .pending (f.pushOp item) := if_neg hfail
        exact produce_stay rfl rfl hphase
  | @retestFull f item t h =>
      rw [append_stored rfl]
      refine produce_stay rfl rfl ?_
      cases f with
      | giveUp => simp [Producer.phase, afterFull, h]
      | startOver | testAgain => simp [Producer.phase, afterFull]
  | @retestRoom f item t h =>
      rw [append_stored rfl]
      exact produce_stay rfl rfl (by simp [Producer.phase, h])
  | @store f item t =>
      obtain ⟨rfl, hroom, -⟩ := hp
      have hcached := hq.cachedHead_le
      have hhead := hq.channel.head_le
      have hlen := hq.channel.log_length
      refine produce_act .effect (log ++ [item]) rfl ?_
      rw [Queue.setChannel_toChannel, Channel.setTail_head,
        List.drop_append_of_le_length (by omega)]
      refine .effect (apply_pushOp f ?_)
      rw [List.length_drop]
      exact_mod_cast (by omega : log.length - q.head < n)
  | @ret b =>
      rw [append_stored rfl]
      exact produce_act (.ret (.pushed b)) log rfl (.ret _ _)

/-- Every consumer step is matched on the atomic object. -/
theorem Inv.matches_consume {p : Producer Pc T} {c c' : Consumer Pc T}
    (hI : Inv n log ⟨q, p, c⟩)
    (hmove : PopMove .unbounded n calls q c e q' c') :
    ((object T n).atomic Side).Matches SeqObject.seen
      (abstraction n log ⟨q, p, c⟩) (shows (.consumer, e))
      (abstraction n log ⟨q', p, c'⟩) := by
  obtain ⟨hq, -, hc⟩ := hI
  dsimp only at hq hc
  cases hmove with
  | @call f hf => exact consume_act (.call f.popOp) rfl (.call _ _)
  | load | testEmpty | testItem | enter | inSlot => exact consume_stay rfl rfl rfl
  | @refresh f item k =>
      obtain rfl : k = q.head := hc
      by_cases hfail : f = .giveUp ∧ empty q.tail q.head
      · -- the call has failed: the ring is empty right now
        have hphase : (Consumer.pop f item (.retest q.head)).phase q.tail =
            .done (.popped none) := if_pos hfail
        refine consume_act .effect rfl ?_
        rw [Queue.refreshTail_cachedTail, Queue.refreshTail_toChannel, hphase,
          hfail.1, hq.drop_of_empty hfail.2]
        exact .effect Apply.empty
      · have hphase : (Consumer.pop f item (.retest q.head)).phase q.tail =
            .pending f.popOp := if_neg hfail
        exact consume_stay rfl rfl hphase
  | @retestEmpty f item k h =>
      refine consume_stay rfl rfl ?_
      cases f with
      | giveUp => simp [Consumer.phase, afterEmpty, h]
      | startOver | testAgain => simp [Consumer.phase, afterEmpty]
  | @retestItem f item k h =>
      exact consume_stay rfl rfl (by simp [Consumer.phase, h])
  | @store f item k =>
      obtain ⟨rfl, hlt, rfl⟩ := hc
      have htail := hq.cachedTail_le
      have hlen := hq.channel.log_length
      have hget : q.head < log.length := by omega
      refine consume_act .effect rfl ?_
      rw [Queue.setChannel_toChannel, Channel.setHead_head,
        List.drop_eq_getElem_cons hget, List.getElem?_eq_getElem hget]
      exact .effect (apply_popOp f)
  | @ret item => exact consume_act (.ret (.popped item)) rfl (.ret _ _)

end Simulation

section Runs

variable {calls : OnFail → Bool} {tr : List (Side × Event T)} {s s' : State T}

/-- The starts and returns of every run are those of a run of the atomic queue
that holds the unread items. -/
theorem implements_fifo (calls : OnFail → Bool) :
    (object T n).Implements (system .unbounded n calls T) shows
      (fun tr s o => o = abstraction n (pushed tr) s) := by
  apply SeqObject.implements_of_simulation
  · simp only [SeqObject.atomic, Pool.lts, abstraction, Pool.mk.injEq]
    refine ⟨rfl, ?_⟩
    funext t
    cases t <;> rfl
  · rintro tr s a s' o hrun rfl hstep
    have hI := inv_of_run hrun
    cases hstep with
    | producer h =>
        refine ⟨_, hI.matches_produce (pushMoves_iff.mp h), ?_⟩
        rw [pushed_producer]
    | consumer h =>
        refine ⟨_, hI.matches_consume (popMoves_iff.mp h), ?_⟩
        rw [pushed_consumer]

/-! ## Failed calls -/

/-- A `try_push` that has failed began before a moment at which the ring held
`n` items. -/
theorem full_of_phase (hrun : (system .unbounded n calls T).Run tr s)
    (hfail : s.producer.phase n s.shared.cachedHead = .done (.pushed false)) :
    (system .unbounded n calls T).Since (Starts .producer)
      (fun m => m.shared.tail = m.shared.head + n) tr s := by
  revert hfail
  refine Lts.Run.induction (P := fun tr s =>
    s.producer.phase n s.shared.cachedHead = .done (.pushed false) →
      (system .unbounded n calls T).Since (Starts .producer)
        (fun m => m.shared.tail = m.shared.head + n) tr s) ?_ ?_ hrun
  · intro h
    cases h
  · intro tr s a s' hrun ih hstep hfail
    have hI := inv_of_run hrun
    have hnext := hrun.tail hstep
    have hkeep : ¬Starts .producer a →
        s.producer.phase n s.shared.cachedHead = .done (.pushed false) →
        (system .unbounded n calls T).Since (Starts .producer)
          (fun m => m.shared.tail = m.shared.head + n) (tr ++ [a]) s' :=
      fun hstart h => (ih h).tail hstep hstart
    cases hstep with
    | consumer h =>
        apply hkeep (by simp [Starts])
        cases popMoves_iff.mp h <;> exact hfail
    | @producer q q' p p' c e h =>
        have hp := hI.producer
        have hmove := pushMoves_iff.mp h
        dsimp only at hp
        cases hmove with
        | @refresh f item t =>
            obtain rfl : t = q.tail := hp
            apply Lts.Since.now hnext
            have hfull : full .unbounded n q.tail q.head := by
              by_contra hroom
              simp [Producer.phase, hroom] at hfail
            exact hI.queue.tail_eq_of_full hfull
        | @retestFull f item t hf =>
            apply hkeep (by simp [Starts])
            cases f with
            | giveUp => simp [Producer.phase, hf]
            | startOver | testAgain => simp [Producer.phase, afterFull] at hfail
        | _ => simp [Producer.phase] at hfail

/-- A `try_pop` that has failed began before a moment at which the ring was
empty. -/
theorem empty_of_phase (hrun : (system .unbounded n calls T).Run tr s)
    (hfail : s.consumer.phase s.shared.cachedTail = .done (.popped none)) :
    (system .unbounded n calls T).Since (Starts .consumer)
      (fun m => m.shared.tail = m.shared.head) tr s := by
  revert hfail
  refine Lts.Run.induction (P := fun tr s =>
    s.consumer.phase s.shared.cachedTail = .done (.popped none) →
      (system .unbounded n calls T).Since (Starts .consumer)
        (fun m => m.shared.tail = m.shared.head) tr s) ?_ ?_ hrun
  · intro h
    cases h
  · intro tr s a s' hrun ih hstep hfail
    have hI := inv_of_run hrun
    have hnext := hrun.tail hstep
    have hkeep : ¬Starts .consumer a →
        s.consumer.phase s.shared.cachedTail = .done (.popped none) →
        (system .unbounded n calls T).Since (Starts .consumer)
          (fun m => m.shared.tail = m.shared.head) (tr ++ [a]) s' :=
      fun hstart h => (ih h).tail hstep hstart
    cases hstep with
    | producer h =>
        apply hkeep (by simp [Starts])
        cases pushMoves_iff.mp h <;> exact hfail
    | @consumer q q' p c c' e h =>
        have hc := hI.consumer
        have hmove := popMoves_iff.mp h
        dsimp only at hc
        cases hmove with
        | @refresh f item k =>
            obtain rfl : k = q.head := hc
            apply Lts.Since.now hnext
            have hempty : empty q.tail q.head := by
              by_contra hitem
              simp [Consumer.phase, hitem] at hfail
            exact le_antisymm hempty hI.queue.channel.head_le
        | @retestEmpty f item k he =>
            apply hkeep (by simp [Starts])
            cases f with
            | giveUp => simp [Consumer.phase, he]
            | startOver | testAgain => simp [Consumer.phase, afterEmpty] at hfail
        | @store f item k =>
            -- a successful pop delivers an item
            obtain ⟨rfl, hlt, hitem⟩ := hc
            have htail := hI.queue.cachedTail_le
            have hget : q.head < (pushed tr).length := by
              rw [hI.queue.channel.log_length]
              exact lt_of_lt_of_le hlt htail
            rw [List.getElem?_eq_getElem hget] at hitem
            simp [Consumer.phase, hitem] at hfail
        | _ => simp [Consumer.phase] at hfail

/-! ## Items -/

/-- The item a finished pop is about to return. -/
def Consumer.delivering : Consumer Pc T → Option T
  | .done item => item
  | _ => none

/-- The items popped are the first `head_` items pushed, and all of them but
the one of a pop still to return have been obtained. -/
theorem popped_eq (hrun : (system .unbounded n calls T).Run tr s) :
    popped tr = (pushed tr).take s.shared.head ∧
      popped tr = obtained tr ++ s.consumer.delivering.toList := by
  refine Lts.Run.induction (P := fun tr s =>
    popped tr = (pushed tr).take s.shared.head ∧
      popped tr = obtained tr ++ s.consumer.delivering.toList) ?_ ?_ hrun
  · exact ⟨rfl, rfl⟩
  · rintro tr s a s' hrun ⟨htake, hdone⟩ hstep
    have hI := inv_of_run hrun
    have hlen := hI.queue.channel.log_length
    cases hstep with
    | @producer q q' p p' c e h =>
        have hle := hI.queue.channel.head_le
        have hhead : q'.head = q.head := by
          cases pushMoves_iff.mp h <;> rfl
        rw [popped_producer, pushed_producer, obtained_producer]
        refine ⟨?_, hdone⟩
        dsimp only at hlen hle htake ⊢
        rw [hhead, List.take_append_of_le_length (by omega)]
        exact htake
    | @consumer q q' p c c' e h =>
        have hc := hI.consumer
        have hmove := popMoves_iff.mp h
        rw [popped_consumer, pushed_consumer, obtained_consumer]
        dsimp only at hlen hc htake hdone ⊢
        cases hmove with
        | @store f item k =>
            obtain ⟨rfl, hlt, hitem⟩ := hc
            have htail := hI.queue.cachedTail_le
            have hget : q.head < (pushed tr).length :=
              hlen ▸ lt_of_lt_of_le hlt htail
            rw [List.getElem?_eq_getElem hget] at hitem
            subst hitem
            constructor
            · rw [htake]
              exact (List.take_succ_eq_append_getElem hget).symm
            · rw [hdone]
              rfl
        | ret =>
            constructor
            · simpa [Event.stored?] using htake
            · simpa [Event.stored?, Event.delivered?, Consumer.delivering]
                using hdone
        | @retestEmpty f item k he =>
            constructor
            · simpa [Event.stored?] using htake
            · cases f <;> simpa [Event.stored?, Event.delivered?,
                Consumer.delivering, afterEmpty] using hdone
        | _ =>
            constructor
            · simpa [Event.stored?] using htake
            · simpa [Event.stored?, Event.delivered?, Consumer.delivering]
                using hdone

end Runs

/-! ## The queues as their users see them -/

/-- A linearizable FIFO queue of capacity `n`.  Every item pushed is popped or
still in its slot, the items obtained come first and in order, and a call
fails only if the ring was full, respectively empty, at a moment inside the
call. -/
structure BoundedFifo (n : ℕ) (M : Lts (State T) (Side × Event T)) :
    Prop where
  implements : (object T n).Implements M shows
    (fun tr s o => o.shared = (pushed tr).drop s.shared.head)
  obtained_prefix : ∀ tr s, M.Run tr s → obtained tr <+: popped tr
  popped_append : ∀ tr s, M.Run tr s →
    popped tr ++ (pushed tr).drop s.shared.head = pushed tr
  unread : ∀ tr s i, M.Run tr s → s.shared.head ≤ i → i < s.shared.tail →
    s.shared.data (i % n) = (pushed tr)[i]?
  full_of_false : ∀ tr s s', M.Run tr s →
    M.step s (.producer, .ret (.pushed false)) s' →
      M.Since (Starts .producer)
        (fun m => m.shared.tail = m.shared.head + n) tr s
  empty_of_false : ∀ tr s s', M.Run tr s →
    M.step s (.consumer, .ret (.popped none)) s' →
      M.Since (Starts .consumer)
        (fun m => m.shared.tail = m.shared.head) tr s

theorem boundedFifo (calls : OnFail → Bool) :
    BoundedFifo n (system .unbounded n calls T) where
  implements := by
    intro tr s hrun
    obtain ⟨tr', o, hrun', hseen, rfl⟩ := implements_fifo calls tr s hrun
    exact ⟨tr', _, hrun', hseen, rfl⟩
  obtained_prefix := fun _ _ hrun => ⟨_, (popped_eq hrun).2.symm⟩
  popped_append := by
    intro tr s hrun
    rw [(popped_eq hrun).1, List.take_append_drop]
  unread := fun _ _ i hrun => (inv_of_run hrun).queue.channel.slots i
  full_of_false := by
    intro tr s s' hrun hstep
    apply full_of_phase hrun
    cases hstep with
    | producer h =>
        cases pushMoves_iff.mp h with
        | ret => rfl
  empty_of_false := by
    intro tr s s' hrun hstep
    apply empty_of_phase hrun
    cases hstep with
    | consumer h =>
        cases popMoves_iff.mp h with
        | ret => rfl

/-- `alpha::spsc`, with all four calls, and `StdAtomicSPSCQueue` are
linearizable FIFO queues of their capacity. -/
theorem spsc_linearizable (n : ℕ) (T : Type u) :
    BoundedFifo n (alpha.system .unbounded n T) ∧
      BoundedFifo n (StdAtomicSPSCQueue.system .unbounded n T) :=
  ⟨boundedFifo _, boundedFifo _⟩

/-- A pop that fails, a push, and a second push that finds no free slot. -/
def pushPopFail : List (Option (OnFail × ℕ) ⊕ Option OnFail) :=
  (.inr (some .giveUp) :: List.replicate 5 (.inr none)) ++
    (.inl (some (.startOver, 7)) :: List.replicate 6 (.inl none)) ++
    (.inl (some (.giveUp, 8)) :: List.replicate 4 (.inl none))

theorem spsc_linearizable_pushPopFail :
    ∃ (tr : List (Side × Event ℕ)) (s s' : State ℕ),
      (alpha.system .unbounded 1 ℕ).Run tr s ∧
        (alpha.system .unbounded 1 ℕ).step s
          (.producer, .ret (.pushed false)) s' ∧
        (alpha.system .unbounded 1 ℕ).Since (Starts .producer)
          (fun m => m.shared.tail = m.shared.head + 1) tr s := by
  obtain ⟨⟨tr, s⟩, hexec, hp⟩ := Option.map_eq_some_iff.mp
    (show (Lts.exec (Duo.next (produce .unbounded 1 (· ≠ .testAgain))
        (consume .unbounded 1 (· ≠ .testAgain)))
        ⟨Queue.new, .idle, .idle⟩ pushPopFail).map (fun r => r.2.producer) =
          some (.done false)
      by with_unfolding_all rfl)
  have hrun : (alpha.system .unbounded 1 ℕ).Run tr s := Duo.run_of_exec hexec
  obtain ⟨q, p, c⟩ := s
  obtain rfl : p = .done false := hp
  have hstep : (alpha.system .unbounded 1 ℕ).step ⟨q, .done false, c⟩
      (.producer, .ret (.pushed false)) ⟨q, .idle, c⟩ :=
    .producer (pushMoves_iff.mpr .ret)
  exact ⟨tr, _, _, hrun, hstep,
    (spsc_linearizable 1 ℕ).1.full_of_false tr _ _ hrun hstep⟩

end Spsc
end ConcurrentQueues
