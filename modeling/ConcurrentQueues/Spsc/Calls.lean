import ConcurrentQueues.Spsc.Linearizable

/-!
# Calls that run without interruption

A call during which the other thread does not move is a function of the queue.
The loops of `push` and `pop` take their number of rounds as an argument and
have no result where the rounds do not suffice; a call that has no result for
any number of rounds spins.
-/

namespace ConcurrentQueues

universe u

namespace Spsc

open Fifo

variable {T : Type u} {S : SizeT} {n : ℕ}

/-! ## The calls -/

/-- The two tests of a push and, if one of them finds room, the write of the
slot and the store of `tail_`. -/
def pushAttempt (S : SizeT) (n tail : ℕ) (q : Queue T) (item : T) :
    Bool × Queue T :=
  let q := if full S n tail q.cachedHead then q.refreshHead else q
  if full S n tail q.cachedHead then (false, q)
  else
    (true, q.setChannel
      ((q.setSlot (tail % n) (some item)).setTail (S.add tail 1)))

/-- The two tests of a pop and, if one of them finds an item, the copy out of
the slot and the store of `head_`. -/
def popAttempt (S : SizeT) (n head : ℕ) (q : Queue T) :
    Bool × Option T × Queue T :=
  let q := if empty q.cachedTail head then q.refreshTail else q
  if empty q.cachedTail head then (false, none, q)
  else
    (true, q.data (head % n), q.setChannel (q.setHead (S.add head 1)))

/-- A pop that is refused delivers nothing and leaves `head_` alone. -/
theorem popAttempt_refused {head : ℕ} {q q' : Queue T} {item : Option T}
    (h : popAttempt S n head q = (false, item, q')) :
    item = none ∧ q'.head = q.head := by
  by_cases hcached : empty q.cachedTail head
  · by_cases hempty : empty q.tail head
    · simp only [popAttempt, hcached, hempty, if_true,
        Queue.refreshTail_cachedTail, Prod.mk.injEq] at h
      rw [← h.2.1, ← h.2.2]
      exact ⟨rfl, rfl⟩
    · simp [popAttempt, hcached, hempty] at h
  · simp [popAttempt, hcached] at h

namespace alpha

def tryPushCall (S : SizeT) (n : ℕ) (q : Queue T) (item : T) : Bool × Queue T :=
  pushAttempt S n q.tail q item

def tryPopCall (S : SizeT) (n : ℕ) (q : Queue T) : Bool × Option T × Queue T :=
  popAttempt S n q.head q

/-- `while (!try_push(item))` -/
def pushCall (S : SizeT) (n : ℕ) (item : T) : ℕ → Queue T → Option (Queue T)
  | 0, _ => none
  | k + 1, q =>
      match tryPushCall S n q item with
      | (true, q') => some q'
      | (false, q') => pushCall S n item k q'

/-- `while (!try_pop(item))` -/
def popCall (S : SizeT) (n : ℕ) : ℕ → Queue T → Option (Option T × Queue T)
  | 0, _ => none
  | k + 1, q =>
      match tryPopCall S n q with
      | (true, item, q') => some (item, q')
      | (false, _, q') => popCall S n k q'

/-- A call of `alpha::spsc`. -/
def call (S : SizeT) (n k : ℕ) (q : Queue T) :
    Op T → Option (Res T × Queue T)
  | .push item => (pushCall S n item k q).map fun q' => (.pushed true, q')
  | .tryPush item =>
      let (b, q') := tryPushCall S n q item
      some (.pushed b, q')
  | .pop => (popCall S n k q).map fun (item, q') => (.popped item, q')
  | .tryPop =>
      let (_, item, q') := tryPopCall S n q
      some (.popped item, q')

end alpha

namespace StdAtomicSPSCQueue

/-- The loop of `push`; `tail` was loaded before it. -/
def pushLoop (S : SizeT) (n tail : ℕ) (item : T) :
    ℕ → Queue T → Option (Queue T)
  | 0, _ => none
  | k + 1, q =>
      match pushAttempt S n tail q item with
      | (true, q') => some q'
      | (false, q') => pushLoop S n tail item k q'

/-- The loop of `pop`; `head` was loaded before it. -/
def popLoop (S : SizeT) (n head : ℕ) :
    ℕ → Queue T → Option (Option T × Queue T)
  | 0, _ => none
  | k + 1, q =>
      match popAttempt S n head q with
      | (true, item, q') => some (item, q')
      | (false, _, q') => popLoop S n head k q'

/-- A call of `StdAtomicSPSCQueue`, which has `push` and `pop` only. -/
def call (S : SizeT) (n k : ℕ) (q : Queue T) :
    Op T → Option (Res T × Queue T)
  | .push item =>
      (pushLoop S n q.tail item k q).map fun q' => (.pushed true, q')
  | .pop =>
      (popLoop S n q.head k q).map fun (item, q') => (.popped item, q')
  | .tryPush _ | .tryPop => none

end StdAtomicSPSCQueue

/-- A refused attempt leaves the shared indexes alone, so that loading the own
index again in every round makes no difference. -/
theorem pushAttempt_refused {tail : ℕ} {q q' : Queue T} {item : T}
    (h : pushAttempt S n tail q item = (false, q')) : q'.tail = q.tail := by
  by_cases hcached : full S n tail q.cachedHead
  · by_cases hfull : full S n tail q.head
    · simp only [pushAttempt, hcached, hfull, if_true,
        Queue.refreshHead_cachedHead, Prod.mk.injEq] at h
      rw [← h.2]
      rfl
    · simp [pushAttempt, hcached, hfull] at h
  · simp [pushAttempt, hcached] at h

theorem alpha.pushCall_eq_pushLoop (item : T) (k : ℕ) (q : Queue T) :
    alpha.pushCall S n item k q =
      StdAtomicSPSCQueue.pushLoop S n q.tail item k q := by
  induction k generalizing q with
  | zero => rfl
  | succ k ih =>
      rw [alpha.pushCall, alpha.tryPushCall, StdAtomicSPSCQueue.pushLoop]
      rcases hattempt : pushAttempt S n q.tail q item with ⟨b, m⟩
      cases b with
      | true => rfl
      | false =>
          simp only
          rw [ih, pushAttempt_refused hattempt]

theorem alpha.popCall_eq_popLoop (k : ℕ) (q : Queue T) :
    alpha.popCall S n k q = StdAtomicSPSCQueue.popLoop S n q.head k q := by
  induction k generalizing q with
  | zero => rfl
  | succ k ih =>
      rw [alpha.popCall, alpha.tryPopCall, StdAtomicSPSCQueue.popLoop]
      rcases hattempt : popAttempt S n q.head q with ⟨b, x, m⟩
      cases b with
      | true => rfl
      | false =>
          simp only
          rw [ih, (popAttempt_refused hattempt).2]

/-- `push` and `pop` of the two queues are the same functions of the queue. -/
theorem alpha.call_eq_call (k : ℕ) (q : Queue T) {op : Op T}
    (hop : op.blocks) :
    alpha.call S n k q op = StdAtomicSPSCQueue.call S n k q op := by
  cases op with
  | push item =>
      rw [alpha.call, StdAtomicSPSCQueue.call, alpha.pushCall_eq_pushLoop]
  | pop => rw [alpha.call, StdAtomicSPSCQueue.call, alpha.popCall_eq_popLoop]
  | tryPush item | tryPop => cases hop

/-- The results of calls made one after the other.  A call that does not return
is the last one. -/
def results {σ : Type*} (call : σ → Op T → Option (Res T × σ)) :
    σ → List (Op T) → List (Option (Res T))
  | _, [] => []
  | s, op :: ops =>
      match call s op with
      | none => [none]
      | some (r, s') => some r :: results call s' ops

/-! ## The calls as runs of the interleaved system -/

/-- A step sequence from one call to the next, as callers see it. -/
def Runs {Q : Type*} {L : Type}
    (M : Lts (Duo Q (Producer L T) (Consumer L T)) (Side × Event T)) (q : Q)
    (op : Op T) (r : Res T) (q' : Q) : Prop :=
  ∃ t tr, M.Path ⟨q, .idle, .idle⟩ tr ⟨q', .idle, .idle⟩ ∧
    tr.filterMap shows = [(t, .call op), (t, .ret r)]

/-- A call whose inner steps show nothing. -/
theorem path_of_silent {σ : Type*} {M : Lts σ (Side × Event T)}
    {s₀ s₁ s₂ s₃ : σ} {t : Side} {op : Op T} {r : Res T}
    (hcall : M.step s₀ (t, .call op) s₁) (h : M.Matches shows s₁ none s₂)
    (hret : M.step s₂ (t, .ret r) s₃) :
    ∃ tr, M.Path s₀ tr s₃ ∧
      tr.filterMap shows = [(t, .call op), (t, .ret r)] := by
  obtain ⟨tr, hpath, hshows⟩ := h
  refine ⟨_, ((Lts.Path.single hcall).trans hpath).tail hret, ?_⟩
  rw [List.filterMap_append, List.filterMap_append, hshows]
  rfl

section Paths

variable {calls : OnFail → Bool} {q q' : Queue T} {p p' : Producer Pc T}
  {c c' : Consumer Pc T} {e : Event T} {s : State T}

/-- A path that callers see nothing of. -/
abbrev Silent (S : SizeT) (n : ℕ) (calls : OnFail → Bool) (s s' : State T) :
    Prop :=
  (system S n calls T).Matches shows s none s'

theorem silent_push (h : PushMove S n calls q p e q' p')
    (he : shows (.producer, e) = none) (hrest : Silent S n calls ⟨q', p', c⟩ s) :
    Silent S n calls ⟨q, p, c⟩ s :=
  Lts.Matches.silent (.producer (pushMoves_iff.mpr h)) he hrest

theorem silent_pop (h : PopMove S n calls q c e q' c')
    (he : shows (.consumer, e) = none) (hrest : Silent S n calls ⟨q', p, c'⟩ s) :
    Silent S n calls ⟨q, p, c⟩ s :=
  Lts.Matches.silent (.consumer (popMoves_iff.mpr h)) he hrest

theorem silent_enter_push (f : OnFail) (item : T) (t : ℕ) :
    Silent S n calls ⟨q, .push f item (.enter t), c⟩
      ⟨q.setChannel ((q.setSlot (t % n) (some item)).setTail (S.add t 1)),
        .done true, c⟩ := by
  refine silent_push .enter rfl (silent_push .inSlot rfl ?_)
  apply silent_push .store rfl
  simpa [Queue.setChannel, Channel.setSlot, Channel.setTail] using
    Lts.Matches.stay _

theorem silent_enter_pop (f : OnFail) (item : Option T) (k : ℕ) :
    Silent S n calls ⟨q, p, .pop f item (.enter k)⟩
      ⟨q.setChannel (q.setHead (S.add k 1)), p, .done (q.data (k % n))⟩ :=
  silent_pop .enter rfl (silent_pop .inSlot rfl
    (silent_pop .store rfl (Lts.Matches.stay _)))

/-- The steps of a push from its first test compute `pushAttempt`. -/
theorem silent_pushAttempt (calls : OnFail → Bool) (f : OnFail) {item : T}
    {t : ℕ} {b : Bool}
    (h : pushAttempt S n t q item = (b, q')) :
    Silent S n calls ⟨q, .push f item (.test t), c⟩
      ⟨q', if b then .done true else afterFull f item t, c⟩ := by
  obtain ⟨rfl, rfl⟩ := Prod.ext_iff.mp h
  by_cases hcached : full S n t q.cachedHead
  · refine silent_push (.testFull hcached) rfl (silent_push .refresh rfl ?_)
    by_cases hfull : full S n t q.head
    · have hrefused : pushAttempt S n t q item = (false, q.refreshHead) := by
        simp [pushAttempt, hcached, hfull]
      rw [hrefused]
      exact silent_push (.retestFull hfull) rfl (Lts.Matches.stay _)
    · apply silent_push (.retestRoom hfull) rfl
      simpa [pushAttempt, hcached, hfull] using
        silent_enter_push (q := q.refreshHead) f item t
  · apply silent_push (.testRoom hcached) rfl
    simpa [pushAttempt, hcached] using silent_enter_push f item t

/-- The steps of a pop from its first test compute `popAttempt`. -/
theorem silent_popAttempt (calls : OnFail → Bool) (f : OnFail)
    (item : Option T) {k : ℕ} {b : Bool} {item' : Option T} (h : popAttempt S n k q = (b, item', q')) :
    Silent S n calls ⟨q, p, .pop f item (.test k)⟩
      ⟨q', p, if b then .done item' else afterEmpty f item k⟩ := by
  obtain ⟨rfl, h⟩ := Prod.ext_iff.mp h
  obtain ⟨rfl, rfl⟩ := Prod.ext_iff.mp h
  by_cases hcached : empty q.cachedTail k
  · refine silent_pop (.testEmpty hcached) rfl (silent_pop .refresh rfl ?_)
    by_cases hempty : empty q.tail k
    · have hrefused : popAttempt S n k q = (false, none, q.refreshTail) := by
        simp [popAttempt, hcached, hempty]
      rw [hrefused]
      exact silent_pop (.retestEmpty hempty) rfl (Lts.Matches.stay _)
    · apply silent_pop (.retestItem hempty) rfl
      simpa [popAttempt, hcached, hempty] using
        silent_enter_pop (q := q.refreshTail) f item k
  · apply silent_pop (.testItem hcached) rfl
    simpa [popAttempt, hcached] using silent_enter_pop f item k

/-- A call of the producer that runs alone. -/
theorem path_of_push {f : OnFail} {item : T} {b : Bool} (hf : calls f)
    (h : Silent S n calls ⟨q, .push f item .load, c⟩ ⟨q', .done b, c⟩) :
    ∃ tr, (system S n calls T).Path ⟨q, .idle, c⟩ tr ⟨q', .idle, c⟩ ∧
      tr.filterMap shows = [(.producer, .call (f.pushOp item)),
        (.producer, .ret (.pushed b))] :=
  path_of_silent (.producer (pushMoves_iff.mpr (.call item hf))) h
    (.producer (pushMoves_iff.mpr .ret))

/-- A call of the consumer that runs alone. -/
theorem path_of_pop {f : OnFail} {item : Option T} (hf : calls f)
    (h : Silent S n calls ⟨q, p, .pop f none .load⟩ ⟨q', p, .done item⟩) :
    ∃ tr, (system S n calls T).Path ⟨q, p, .idle⟩ tr ⟨q', p, .idle⟩ ∧
      tr.filterMap shows = [(.consumer, .call f.popOp),
        (.consumer, .ret (.popped item))] :=
  path_of_silent (.consumer (popMoves_iff.mpr (.call hf))) h
    (.consumer (popMoves_iff.mpr .ret))

/-- The loop of `alpha::spsc::push` computes `pushCall`. -/
theorem silent_pushCall {k : ℕ} {item : T}
    (h : alpha.pushCall S n item k q = some q') :
    Silent S n calls ⟨q, .push .startOver item .load, c⟩
      ⟨q', .done true, c⟩ := by
  induction k generalizing q with
  | zero => cases h
  | succ k ih =>
      apply silent_push .load rfl
      rcases hattempt : pushAttempt S n q.tail q item with ⟨b, m⟩
      rw [alpha.pushCall, alpha.tryPushCall, hattempt] at h
      have hround := silent_pushAttempt (c := c) calls .startOver
        hattempt
      cases b with
      | true =>
          obtain rfl := Option.some.inj h
          exact hround
      | false => exact hround.after (ih h)

theorem silent_popCall {k : ℕ} {item item' : Option T}
    (h : alpha.popCall S n k q = some (item', q')) :
    Silent S n calls ⟨q, p, .pop .startOver item .load⟩
      ⟨q', p, .done item'⟩ := by
  induction k generalizing q with
  | zero => cases h
  | succ k ih =>
      apply silent_pop .load rfl
      rcases hattempt : popAttempt S n q.head q with ⟨b, x, m⟩
      rw [alpha.popCall, alpha.tryPopCall, hattempt] at h
      have hround := silent_popAttempt (p := p) calls .startOver item
        hattempt
      cases b with
      | true =>
          obtain ⟨rfl, rfl⟩ := Prod.mk.inj (Option.some.inj h)
          exact hround
      | false => exact hround.after (ih h)

/-- The loop of `StdAtomicSPSCQueue::push` computes `pushLoop`. -/
theorem silent_pushLoop {k t : ℕ} {item : T}
    (h : StdAtomicSPSCQueue.pushLoop S n t item k q = some q') :
    Silent S n calls ⟨q, .push .testAgain item (.test t), c⟩
      ⟨q', .done true, c⟩ := by
  induction k generalizing q with
  | zero => cases h
  | succ k ih =>
      rcases hattempt : pushAttempt S n t q item with ⟨b, m⟩
      rw [StdAtomicSPSCQueue.pushLoop, hattempt] at h
      have hround := silent_pushAttempt (c := c) calls .testAgain
        hattempt
      cases b with
      | true =>
          obtain rfl := Option.some.inj h
          exact hround
      | false => exact hround.after (ih h)

theorem silent_popLoop {k t : ℕ} {item item' : Option T}
    (h : StdAtomicSPSCQueue.popLoop S n t k q = some (item', q')) :
    Silent S n calls ⟨q, p, .pop .testAgain item (.test t)⟩
      ⟨q', p, .done item'⟩ := by
  induction k generalizing q with
  | zero => cases h
  | succ k ih =>
      rcases hattempt : popAttempt S n t q with ⟨b, x, m⟩
      rw [StdAtomicSPSCQueue.popLoop, hattempt] at h
      have hround := silent_popAttempt (p := p) calls .testAgain item
        hattempt
      cases b with
      | true =>
          obtain ⟨rfl, rfl⟩ := Prod.mk.inj (Option.some.inj h)
          exact hround
      | false => exact hround.after (ih h)

end Paths

/-- Every call of `alpha::spsc` that returns is a run of the interleaved
system in which nothing else happens. -/
theorem alpha.runs_call {k : ℕ} {q q' : Queue T} {op : Op T} {r : Res T}
    (h : alpha.call S n k q op = some (r, q')) :
    Runs (alpha.system S n T) q op r q' := by
  cases op with
  | push item =>
      obtain ⟨m, hm, heq⟩ := Option.map_eq_some_iff.mp h
      obtain ⟨rfl, rfl⟩ := Prod.mk.inj heq
      exact ⟨_, path_of_push (f := .startOver) rfl (silent_pushCall hm)⟩
  | tryPush item =>
      rcases hattempt : pushAttempt S n q.tail q item with ⟨b, m⟩
      rw [alpha.call, alpha.tryPushCall, hattempt] at h
      obtain ⟨rfl, rfl⟩ := Prod.mk.inj (Option.some.inj h)
      refine ⟨_, path_of_push (f := .giveUp) rfl (silent_push .load rfl ?_)⟩
      have hround := silent_pushAttempt (c := .idle) (· ≠ .testAgain) .giveUp
        hattempt
      cases b <;> exact hround
  | pop =>
      obtain ⟨⟨item, m⟩, hm, heq⟩ := Option.map_eq_some_iff.mp h
      obtain ⟨rfl, rfl⟩ := Prod.mk.inj heq
      exact ⟨_, path_of_pop (f := .startOver) rfl (silent_popCall hm)⟩
  | tryPop =>
      rcases hattempt : popAttempt S n q.head q with ⟨b, x, m⟩
      rw [alpha.call, alpha.tryPopCall, hattempt] at h
      obtain ⟨rfl, rfl⟩ := Prod.mk.inj (Option.some.inj h)
      refine ⟨_, path_of_pop (f := .giveUp) rfl (silent_pop .load rfl ?_)⟩
      have hround := silent_popAttempt (p := .idle) (· ≠ .testAgain) .giveUp
        none hattempt
      cases b with
      | true => exact hround
      | false =>
          rw [(popAttempt_refused hattempt).1]
          exact hround

/-- Every call of `StdAtomicSPSCQueue` that returns is a run of the
interleaved system in which nothing else happens. -/
theorem StdAtomicSPSCQueue.runs_call {k : ℕ} {q q' : Queue T} {op : Op T}
    {r : Res T} (h : StdAtomicSPSCQueue.call S n k q op = some (r, q')) :
    Runs (StdAtomicSPSCQueue.system S n T) q op r q' := by
  cases op with
  | push item =>
      obtain ⟨m, hm, heq⟩ := Option.map_eq_some_iff.mp h
      obtain ⟨rfl, rfl⟩ := Prod.mk.inj heq
      exact ⟨_, path_of_push (f := .testAgain) rfl
        (silent_push .load rfl (silent_pushLoop hm))⟩
  | pop =>
      obtain ⟨⟨item, m⟩, hm, heq⟩ := Option.map_eq_some_iff.mp h
      obtain ⟨rfl, rfl⟩ := Prod.mk.inj heq
      exact ⟨_, path_of_pop (f := .testAgain) rfl
        (silent_pop .load rfl (silent_popLoop hm))⟩
  | tryPush item | tryPop => cases h

end Spsc
end ConcurrentQueues
