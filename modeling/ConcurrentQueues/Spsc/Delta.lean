import ConcurrentQueues.Spsc.Calls

/-!
# `delta::spsc`

The queue of `alpha::spsc` without the cached copies: every call loads both
indexes, its own first.
-/

namespace ConcurrentQueues

universe u

namespace Spsc
namespace delta

open Fifo

variable {T : Type u}

/-! ## The operations -/

/-- Where a thread stands in a call. -/
inductive Pc
  /-- before the load of the own index -/
  | load
  /-- before the load of the other index -/
  | loadOther (own : ℕ)
  /-- before the test -/
  | test (own other : ℕ)
  /-- before the slot access -/
  | enter (own : ℕ)
  /-- inside the slot access -/
  | inSlot (own : ℕ)
  /-- before the store of the own index -/
  | store (own : ℕ)
  deriving DecidableEq

/-- The producer after the test found the ring full: `try_push` returns
`false`, and `push` calls it again. -/
def afterFull (f : OnFail) (item : T) : Producer Pc T :=
  if f = .giveUp then .done false else .push f item .load

/-- The consumer after the test found the ring empty. -/
def afterEmpty (f : OnFail) (item : Option T) : Consumer Pc T :=
  if f = .giveUp then .done none else .pop f item .load

/-- One step of a call that pushes `item`. -/
def pushStep (S : SizeT) (n : ℕ) (r : Channel T) (f : OnFail) (item : T) :
    Pc → Event T × Channel T × Producer Pc T
  | .load => (.inner, r, .push f item (.loadOther r.tail))
  | .loadOther tail => (.inner, r, .push f item (.test tail r.head))
  | .test tail head =>
      if full S n tail head then (.inner, r, afterFull f item)
      else (.inner, r, .push f item (.enter tail))
  | .enter tail =>
      (.inner, r.setSlot (tail % n) none, .push f item (.inSlot tail))
  | .inSlot tail =>
      (.inner, r.setSlot (tail % n) (some item), .push f item (.store tail))
  | .store tail =>
      (.store (S.add tail 1) (some item), r.setTail (S.add tail 1), .done true)

/-- One step of a call that pops into `item`. -/
def popStep (S : SizeT) (n : ℕ) (r : Channel T) (f : OnFail)
    (item : Option T) : Pc → Event T × Channel T × Consumer Pc T
  | .load => (.inner, r, .pop f item (.loadOther r.head))
  | .loadOther head => (.inner, r, .pop f item (.test head r.tail))
  | .test head tail =>
      if empty tail head then (.inner, r, afterEmpty f item)
      else (.inner, r, .pop f item (.enter head))
  | .enter head => (.inner, r, .pop f item (.inSlot head))
  | .inSlot head => (.inner, r, .pop f (r.data (head % n)) (.store head))
  | .store head =>
      (.store (S.add head 1) item, r.setHead (S.add head 1), .done item)

/-- `delta::spsc::try_push` -/
def tryPush (S : SizeT) (n : ℕ) (r : Channel T) (item : T) (pc : Pc) :=
  pushStep S n r .giveUp item pc

/-- `delta::spsc::push`: `while (!try_push(item))` -/
def push (S : SizeT) (n : ℕ) (r : Channel T) (item : T) (pc : Pc) :=
  pushStep S n r .startOver item pc

/-- `delta::spsc::try_pop` -/
def tryPop (S : SizeT) (n : ℕ) (r : Channel T) (item : Option T) (pc : Pc) :=
  popStep S n r .giveUp item pc

/-- `delta::spsc::pop`: `while (!try_pop(item))` -/
def pop (S : SizeT) (n : ℕ) (r : Channel T) (item : Option T) (pc : Pc) :=
  popStep S n r .startOver item pc

/-! ## The system -/

/-- One step of a producer that calls `try_push` and `push` in any order. -/
def produce (S : SizeT) (n : ℕ) (r : Channel T) :
    Producer Pc T → Option (OnFail × T) →
      Option (Event T × Channel T × Producer Pc T)
  | .idle, some (f, item) =>
      if f ≠ .testAgain then
        some (.call (f.pushOp item), r, .push f item .load)
      else none
  | .push .giveUp item pc, none => some (tryPush S n r item pc)
  | .push .startOver item pc, none => some (push S n r item pc)
  | .done b, none => some (.ret (.pushed b), r, .idle)
  | _, _ => none

/-- One step of a consumer that calls `try_pop` and `pop` in any order. -/
def consume (S : SizeT) (n : ℕ) (r : Channel T) :
    Consumer Pc T → Option OnFail →
      Option (Event T × Channel T × Consumer Pc T)
  | .idle, some f =>
      if f ≠ .testAgain then some (.call f.popOp, r, .pop f none .load)
      else none
  | .pop .giveUp item pc, none => some (tryPop S n r item pc)
  | .pop .startOver item pc, none => some (pop S n r item pc)
  | .done item, none => some (.ret (.popped item), r, .idle)
  | _, _ => none

/-- A queue with its producer and its consumer. -/
abbrev State (T : Type u) := Duo (Channel T) (Producer Pc T) (Consumer Pc T)

/-- All interleavings of one producer and one consumer. -/
def system (S : SizeT) (n : ℕ) (T : Type u) : Lts (State T) (Side × Event T) :=
  Duo.lts (Pool.Moves (produce S n)) (Pool.Moves (consume S n)) Channel.new
    .idle .idle

/-! ## The moves, case by case -/

/-- What the producer can do, one constructor for each step. -/
inductive PushMove (S : SizeT) (n : ℕ) (r : Channel T) :
    Producer Pc T → Event T → Channel T → Producer Pc T → Prop
  | call {f : OnFail} (item : T) (hf : f ≠ .testAgain) :
      PushMove S n r .idle (.call (f.pushOp item)) r (.push f item .load)
  | load {f : OnFail} {item : T} (hf : f ≠ .testAgain) :
      PushMove S n r (.push f item .load) .inner r
        (.push f item (.loadOther r.tail))
  | loadOther {f : OnFail} {item : T} {t : ℕ} (hf : f ≠ .testAgain) :
      PushMove S n r (.push f item (.loadOther t)) .inner r
        (.push f item (.test t r.head))
  | testFull {f : OnFail} {item : T} {t h : ℕ} (hf : f ≠ .testAgain)
      (hfull : full S n t h) :
      PushMove S n r (.push f item (.test t h)) .inner r (afterFull f item)
  | testRoom {f : OnFail} {item : T} {t h : ℕ} (hf : f ≠ .testAgain)
      (hroom : ¬full S n t h) :
      PushMove S n r (.push f item (.test t h)) .inner r
        (.push f item (.enter t))
  | enter {f : OnFail} {item : T} {t : ℕ} (hf : f ≠ .testAgain) :
      PushMove S n r (.push f item (.enter t)) .inner
        (r.setSlot (t % n) none) (.push f item (.inSlot t))
  | inSlot {f : OnFail} {item : T} {t : ℕ} (hf : f ≠ .testAgain) :
      PushMove S n r (.push f item (.inSlot t)) .inner
        (r.setSlot (t % n) (some item)) (.push f item (.store t))
  | store {f : OnFail} {item : T} {t : ℕ} (hf : f ≠ .testAgain) :
      PushMove S n r (.push f item (.store t)) (.store (S.add t 1) (some item))
        (r.setTail (S.add t 1)) (.done true)
  | ret {b : Bool} : PushMove S n r (.done b) (.ret (.pushed b)) r .idle

/-- What the consumer can do. -/
inductive PopMove (S : SizeT) (n : ℕ) (r : Channel T) :
    Consumer Pc T → Event T → Channel T → Consumer Pc T → Prop
  | call {f : OnFail} (hf : f ≠ .testAgain) :
      PopMove S n r .idle (.call f.popOp) r (.pop f none .load)
  | load {f : OnFail} {item : Option T} (hf : f ≠ .testAgain) :
      PopMove S n r (.pop f item .load) .inner r
        (.pop f item (.loadOther r.head))
  | loadOther {f : OnFail} {item : Option T} {h : ℕ} (hf : f ≠ .testAgain) :
      PopMove S n r (.pop f item (.loadOther h)) .inner r
        (.pop f item (.test h r.tail))
  | testEmpty {f : OnFail} {item : Option T} {h t : ℕ} (hf : f ≠ .testAgain)
      (hempty : empty t h) :
      PopMove S n r (.pop f item (.test h t)) .inner r (afterEmpty f item)
  | testItem {f : OnFail} {item : Option T} {h t : ℕ} (hf : f ≠ .testAgain)
      (hitem : ¬empty t h) :
      PopMove S n r (.pop f item (.test h t)) .inner r (.pop f item (.enter h))
  | enter {f : OnFail} {item : Option T} {h : ℕ} (hf : f ≠ .testAgain) :
      PopMove S n r (.pop f item (.enter h)) .inner r (.pop f item (.inSlot h))
  | inSlot {f : OnFail} {item : Option T} {h : ℕ} (hf : f ≠ .testAgain) :
      PopMove S n r (.pop f item (.inSlot h)) .inner r
        (.pop f (r.data (h % n)) (.store h))
  | store {f : OnFail} {item : Option T} {h : ℕ} (hf : f ≠ .testAgain) :
      PopMove S n r (.pop f item (.store h)) (.store (S.add h 1) item)
        (r.setHead (S.add h 1)) (.done item)
  | ret {item : Option T} :
      PopMove S n r (.done item) (.ret (.popped item)) r .idle

section Cases

variable {S : SizeT} {n : ℕ} {r r' : Channel T} {e : Event T}

theorem pushMove_of_step {f : OnFail} {item : T} {pc : Pc}
    {p' : Producer Pc T} (hf : f ≠ .testAgain)
    (h : pushStep S n r f item pc = (e, r', p')) :
    PushMove S n r (.push f item pc) e r' p' := by
  revert h
  fun_cases pushStep S n r f item pc <;> intro h <;> cases h
  case case1 => exact .load hf
  case case2 t => exact .loadOther hf
  case case3 t k hfull => exact .testFull hf hfull
  case case4 t k hroom => exact .testRoom hf hroom
  case case5 t => exact .enter hf
  case case6 t => exact .inSlot hf
  case case7 t => exact .store hf

theorem popMove_of_step {f : OnFail} {item : Option T} {pc : Pc}
    {c' : Consumer Pc T} (hf : f ≠ .testAgain)
    (h : popStep S n r f item pc = (e, r', c')) :
    PopMove S n r (.pop f item pc) e r' c' := by
  revert h
  fun_cases popStep S n r f item pc <;> intro h <;> cases h
  case case1 => exact .load hf
  case case2 t => exact .loadOther hf
  case case3 t k hempty => exact .testEmpty hf hempty
  case case4 t k hitem => exact .testItem hf hitem
  case case5 t => exact .enter hf
  case case6 t => exact .inSlot hf
  case case7 t => exact .store hf

/-- The case analysis is exactly the executable move. -/
theorem pushMoves_iff {p p' : Producer Pc T} :
    Pool.Moves (produce S n) r p e r' p' ↔ PushMove S n r p e r' p' := by
  constructor
  · rintro ⟨c, h⟩
    revert h
    fun_cases produce S n r p c <;> intro h
    case case1 f item hf => cases h; exact .call item hf
    case case3 | case4 =>
        exact pushMove_of_step (by simp) (Option.some.inj h)
    case case5 b => cases h; exact .ret
    all_goals cases h
  · have hstep : ∀ {f : OnFail} {item : T} {pc : Pc} {e r' p'},
        f ≠ .testAgain → pushStep S n r f item pc = (e, r', p') →
          Pool.Moves (produce S n) r (.push f item pc) e r' p' := by
      intro f item pc e r' p' hf h
      cases f with
      | giveUp | startOver => exact ⟨none, congrArg some h⟩
      | testAgain => exact absurd rfl hf
    intro h
    cases h with
    | call item hf => exact ⟨some (_, item), if_pos hf⟩
    | testFull hf h | testRoom hf h => exact hstep hf (by simp [pushStep, h])
    | load hf | loadOther hf | enter hf | inSlot hf | store hf =>
        exact hstep hf rfl
    | ret => exact ⟨none, rfl⟩

theorem popMoves_iff {c c' : Consumer Pc T} :
    Pool.Moves (consume S n) r c e r' c' ↔ PopMove S n r c e r' c' := by
  constructor
  · rintro ⟨k, h⟩
    revert h
    fun_cases consume S n r c k <;> intro h
    case case1 f hf => cases h; exact .call hf
    case case3 | case4 =>
        exact popMove_of_step (by simp) (Option.some.inj h)
    case case5 b => cases h; exact .ret
    all_goals cases h
  · have hstep : ∀ {f : OnFail} {item : Option T} {pc : Pc} {e r' c'},
        f ≠ .testAgain → popStep S n r f item pc = (e, r', c') →
          Pool.Moves (consume S n) r (.pop f item pc) e r' c' := by
      intro f item pc e r' c' hf h
      cases f with
      | giveUp | startOver => exact ⟨none, congrArg some h⟩
      | testAgain => exact absurd rfl hf
    intro h
    cases h with
    | call hf => exact ⟨some _, if_pos hf⟩
    | testEmpty hf h | testItem hf h => exact hstep hf (by simp [popStep, h])
    | load hf | loadOther hf | enter hf | inSlot hf | store hf =>
        exact hstep hf rfl
    | ret => exact ⟨none, rfl⟩

end Cases

/-! ## Calls that run without interruption -/

def tryPushCall (S : SizeT) (n : ℕ) (r : Channel T) (item : T) :
    Bool × Channel T :=
  if full S n r.tail r.head then (false, r)
  else
    (true, (r.setSlot (r.tail % n) (some item)).setTail (S.add r.tail 1))

def tryPopCall (S : SizeT) (n : ℕ) (r : Channel T) :
    Bool × Option T × Channel T :=
  if empty r.tail r.head then (false, none, r)
  else (true, r.data (r.head % n), r.setHead (S.add r.head 1))

/-- `while (!try_push(item))` -/
def pushCall (S : SizeT) (n : ℕ) (item : T) :
    ℕ → Channel T → Option (Channel T)
  | 0, _ => none
  | k + 1, r =>
      match tryPushCall S n r item with
      | (true, r') => some r'
      | (false, r') => pushCall S n item k r'

/-- `while (!try_pop(item))` -/
def popCall (S : SizeT) (n : ℕ) :
    ℕ → Channel T → Option (Option T × Channel T)
  | 0, _ => none
  | k + 1, r =>
      match tryPopCall S n r with
      | (true, item, r') => some (item, r')
      | (false, _, r') => popCall S n k r'

/-- A call of `delta::spsc`. -/
def call (S : SizeT) (n k : ℕ) (r : Channel T) :
    Op T → Option (Res T × Channel T)
  | .push item => (pushCall S n item k r).map fun r' => (.pushed true, r')
  | .tryPush item =>
      let (b, r') := tryPushCall S n r item
      some (.pushed b, r')
  | .pop => (popCall S n k r).map fun (item, r') => (.popped item, r')
  | .tryPop =>
      let (_, item, r') := tryPopCall S n r
      some (.popped item, r')

/-! ## The calls as runs of the interleaved system -/

section Paths

variable {S : SizeT} {n : ℕ} {r r' : Channel T} {p p' : Producer Pc T}
  {c c' : Consumer Pc T} {e : Event T} {s : State T} {f : OnFail}

/-- A path that callers see nothing of. -/
abbrev Silent (S : SizeT) (n : ℕ) (s s' : State T) : Prop :=
  (system S n T).Matches shows s none s'

theorem silent_push (h : PushMove S n r p e r' p')
    (he : shows (.producer, e) = none) (hrest : Silent S n ⟨r', p', c⟩ s) :
    Silent S n ⟨r, p, c⟩ s :=
  Lts.Matches.silent (.producer (pushMoves_iff.mpr h)) he hrest

theorem silent_pop (h : PopMove S n r c e r' c')
    (he : shows (.consumer, e) = none) (hrest : Silent S n ⟨r', p, c'⟩ s) :
    Silent S n ⟨r, p, c⟩ s :=
  Lts.Matches.silent (.consumer (popMoves_iff.mpr h)) he hrest

/-- The steps of a push compute `tryPushCall`. -/
theorem silent_tryPush {item : T} {b : Bool} (hf : f ≠ .testAgain)
    (h : tryPushCall S n r item = (b, r')) :
    Silent S n ⟨r, .push f item .load, c⟩
      ⟨r', if b then .done true else afterFull f item, c⟩ := by
  obtain ⟨rfl, rfl⟩ := Prod.ext_iff.mp h
  refine silent_push (.load hf) rfl (silent_push (.loadOther hf) rfl ?_)
  by_cases hfull : full S n r.tail r.head
  · apply silent_push (.testFull hf hfull) rfl
    simpa [tryPushCall, hfull] using Lts.Matches.stay _
  · refine silent_push (.testRoom hf hfull) rfl (silent_push (.enter hf) rfl ?_)
    refine silent_push (.inSlot hf) rfl (silent_push (.store hf) rfl ?_)
    simpa [tryPushCall, hfull, Channel.setSlot, Channel.setTail] using
      Lts.Matches.stay _

/-- The steps of a pop compute `tryPopCall`. -/
theorem silent_tryPop (item : Option T) {b : Bool} {item' : Option T}
    (hf : f ≠ .testAgain) (h : tryPopCall S n r = (b, item', r')) :
    Silent S n ⟨r, p, .pop f item .load⟩
      ⟨r', p, if b then .done item' else afterEmpty f item⟩ := by
  obtain ⟨rfl, h⟩ := Prod.ext_iff.mp h
  obtain ⟨rfl, rfl⟩ := Prod.ext_iff.mp h
  refine silent_pop (.load hf) rfl (silent_pop (.loadOther hf) rfl ?_)
  by_cases hempty : empty r.tail r.head
  · apply silent_pop (.testEmpty hf hempty) rfl
    simpa [tryPopCall, hempty] using Lts.Matches.stay _
  · refine silent_pop (.testItem hf hempty) rfl (silent_pop (.enter hf) rfl ?_)
    refine silent_pop (.inSlot hf) rfl (silent_pop (.store hf) rfl ?_)
    simpa [tryPopCall, hempty] using Lts.Matches.stay _

/-- The loop of `delta::spsc::push` computes `pushCall`. -/
theorem silent_pushCall {k : ℕ} {item : T}
    (h : pushCall S n item k r = some r') :
    Silent S n ⟨r, .push .startOver item .load, c⟩ ⟨r', .done true, c⟩ := by
  induction k generalizing r with
  | zero => cases h
  | succ k ih =>
      rcases hattempt : tryPushCall S n r item with ⟨b, m⟩
      rw [pushCall, hattempt] at h
      have hround := silent_tryPush (c := c) (f := .startOver) (by simp) hattempt
      cases b with
      | true =>
          obtain rfl := Option.some.inj h
          exact hround
      | false => exact hround.after (ih h)

theorem silent_popCall {k : ℕ} {item item' : Option T}
    (h : popCall S n k r = some (item', r')) :
    Silent S n ⟨r, p, .pop .startOver item .load⟩ ⟨r', p, .done item'⟩ := by
  induction k generalizing r with
  | zero => cases h
  | succ k ih =>
      rcases hattempt : tryPopCall S n r with ⟨b, x, m⟩
      rw [popCall, hattempt] at h
      have hround := silent_tryPop (p := p) (f := .startOver) item (by simp)
        hattempt
      cases b with
      | true =>
          obtain ⟨rfl, rfl⟩ := Prod.mk.inj (Option.some.inj h)
          exact hround
      | false => exact hround.after (ih h)

/-- A pop that is refused delivers nothing. -/
theorem tryPopCall_refused {item : Option T}
    (h : tryPopCall S n r = (false, item, r')) : item = none := by
  by_cases hempty : empty r.tail r.head
  · rw [tryPopCall, if_pos hempty] at h
    exact (Prod.mk.inj (Prod.mk.inj h).2).1.symm
  · simp [tryPopCall, hempty] at h

/-- A call of the producer that runs alone. -/
theorem path_of_push {item : T} {b : Bool} (hf : f ≠ .testAgain)
    (h : Silent S n ⟨r, .push f item .load, c⟩ ⟨r', .done b, c⟩) :
    ∃ tr, (system S n T).Path ⟨r, .idle, c⟩ tr ⟨r', .idle, c⟩ ∧
      tr.filterMap shows = [(.producer, .call (f.pushOp item)),
        (.producer, .ret (.pushed b))] :=
  path_of_silent (.producer (pushMoves_iff.mpr (.call item hf))) h
    (.producer (pushMoves_iff.mpr .ret))

/-- A call of the consumer that runs alone. -/
theorem path_of_pop {item : Option T} (hf : f ≠ .testAgain)
    (h : Silent S n ⟨r, p, .pop f none .load⟩ ⟨r', p, .done item⟩) :
    ∃ tr, (system S n T).Path ⟨r, p, .idle⟩ tr ⟨r', p, .idle⟩ ∧
      tr.filterMap shows = [(.consumer, .call f.popOp),
        (.consumer, .ret (.popped item))] :=
  path_of_silent (.consumer (popMoves_iff.mpr (.call hf))) h
    (.consumer (popMoves_iff.mpr .ret))

end Paths

/-- Every call of `delta::spsc` that returns is a run of the interleaved system
in which nothing else happens. -/
theorem runs_call {S : SizeT} {n k : ℕ} {r r' : Channel T} {op : Op T}
    {res : Res T} (h : call S n k r op = some (res, r')) :
    Runs (system S n T) r op res r' := by
  cases op with
  | push item =>
      obtain ⟨m, hm, heq⟩ := Option.map_eq_some_iff.mp h
      obtain ⟨rfl, rfl⟩ := Prod.mk.inj heq
      exact ⟨_, path_of_push (f := .startOver) (by simp) (silent_pushCall hm)⟩
  | tryPush item =>
      rcases hattempt : tryPushCall S n r item with ⟨b, m⟩
      rw [call, hattempt] at h
      obtain ⟨rfl, rfl⟩ := Prod.mk.inj (Option.some.inj h)
      have hround := silent_tryPush (c := .idle) (f := .giveUp) (by simp)
        hattempt
      refine ⟨_, path_of_push (f := .giveUp) (by simp) ?_⟩
      cases b <;> exact hround
  | pop =>
      obtain ⟨⟨item, m⟩, hm, heq⟩ := Option.map_eq_some_iff.mp h
      obtain ⟨rfl, rfl⟩ := Prod.mk.inj heq
      exact ⟨_, path_of_pop (f := .startOver) (by simp) (silent_popCall hm)⟩
  | tryPop =>
      rcases hattempt : tryPopCall S n r with ⟨b, x, m⟩
      rw [call, hattempt] at h
      obtain ⟨rfl, rfl⟩ := Prod.mk.inj (Option.some.inj h)
      have hround := silent_tryPop (p := .idle) (f := .giveUp) none (by simp)
        hattempt
      refine ⟨_, path_of_pop (f := .giveUp) (by simp) ?_⟩
      cases b with
      | true => exact hround
      | false =>
          rw [tryPopCall_refused hattempt]
          exact hround

end delta
end Spsc
end ConcurrentQueues
