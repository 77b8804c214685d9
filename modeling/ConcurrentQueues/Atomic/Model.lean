import ConcurrentQueues.Atomic.Layout
import ConcurrentQueues.Support.Views
import ConcurrentQueues.Support.Object

/-!
# `AtomicQueue`

A push takes a ticket from `head_` and waits until the slot of the ticket holds
`NIL`, a pop takes one from `tail_` and waits until its slot does not.  `try_push`
and `try_pop` compare the counters first.  `RetryDecorator` repeats these, and
without it `push` and `pop` take a ticket no matter what.  In `SPSC` mode loads
and stores stand where the other modes need a read-modify-write.

Counters and slots are atomics, so the memory is one in which a load may see an
old value.
-/

namespace ConcurrentQueues

universe v

namespace AtomicQueue

open Fifo

/-- A queue class with its template arguments. -/
structure Variant where
  layout : Layout
  /-- of `unsigned` -/
  width : SizeT
  NIL : ℕ
  spsc : Bool
  maximizeThroughput : Bool
  totalOrder : Bool
  /-- whether `push` and `pop` are those of `RetryDecorator` -/
  retries : Bool

/-- `AtomicQueue<T, SIZE>`, with `unsigned` of 32 bits and `NIL` of value `0` -/
def queue (SIZE elementsPerCacheLine : ℕ) (hpos : 1 ≤ SIZE)
    (hle : SIZE ≤ 2 ^ 31) : Variant where
  layout :=
    Args.layout ⟨SIZE, true, elementsPerCacheLine, hpos, fun _ => hle⟩
  width := .bits 32
  NIL := 0
  spsc := false
  maximizeThroughput := true
  totalOrder := false
  retries := false

/-- `AtomicQueue<T, SIZE, T{}, false, false, false, true>` -/
def queueSPSC (SIZE elementsPerCacheLine : ℕ) (hpos : 1 ≤ SIZE) :
    Variant where
  layout := Args.layout ⟨SIZE, false, elementsPerCacheLine, hpos, nofun⟩
  width := .bits 32
  NIL := 0
  spsc := true
  maximizeThroughput := false
  totalOrder := false
  retries := false

/-- `RetryDecorator<Queue>` -/
def RetryDecorator (V : Variant) : Variant :=
  { V with retries := true }

/-- The queue of `AtomicQueueAdapter`. -/
def AtomicQueueAdapter (SIZE elementsPerCacheLine : ℕ) (hpos : 1 ≤ SIZE)
    (hle : SIZE ≤ 2 ^ 31) : Variant :=
  RetryDecorator (queue SIZE elementsPerCacheLine hpos hle)

/-- The queue of `OptimistAtomicQueueAdapter`. -/
def OptimistAtomicQueueAdapter (SIZE elementsPerCacheLine : ℕ)
    (hpos : 1 ≤ SIZE) (hle : SIZE ≤ 2 ^ 31) : Variant :=
  queue SIZE elementsPerCacheLine hpos hle

/-- The queue of `AtomicQueueSPSCAdapter`. -/
def AtomicQueueSPSCAdapter (SIZE elementsPerCacheLine : ℕ)
    (hpos : 1 ≤ SIZE) : Variant :=
  RetryDecorator (queueSPSC SIZE elementsPerCacheLine hpos)

/-- The two ends of the queue. -/
inductive End
  | push
  | pop
  deriving DecidableEq

/-- The atomics. -/
inductive Loc
  | head
  | tail
  | element (i : ℕ)
  deriving DecidableEq

/-- The counter that deals out the tickets of an end. -/
def End.own : End → Loc
  | .push => .head
  | .pop => .tail

def End.other : End → Loc
  | .push => .tail
  | .pop => .head

/-- The atomics, with what each thread knows of them. -/
abbrev Memory (ι : Type v) := ViewMemory Loc Empty ι Unit

variable {ι : Type v}

/-- The constructor. -/
def Memory.new (NIL : ℕ) : Memory ι :=
  .init (fun
    | .head | .tail => 0
    | .element _ => NIL) fun _ => ()

/-! ## Calls -/

/-- Where a thread stands in a call.  The first argument is the local copy of
the own counter, then the ticket. -/
inductive Pc
  /-- before the load of the own counter -/
  | load
  /-- before the load of the other counter -/
  | check (own : ℕ)
  /-- before the store or the compare-exchange that takes ticket `own` -/
  | claim (own : ℕ)
  /-- before `fetch_add` -/
  | fetch
  /-- before the first access to the slot in a round of the loop -/
  | slot (own : ℕ)
  /-- before the speculative load -/
  | pause (own : ℕ)
  /-- before the store to the slot in `SPSC` mode, for or with this element -/
  | put (own element : ℕ)
  deriving DecidableEq

/-- The local state of a thread. -/
inductive Thread
  | idle
  | run (op : Op ℕ) (pc : Pc)
  | done (r : Res ℕ)
  deriving DecidableEq

/-- What a step shows. -/
inductive Event
  | call (op : Op ℕ)
  | inner
  | claim (e : End)
  | put (element : ℕ)
  | take (element : ℕ)
  | ret (r : Res ℕ)
  deriving DecidableEq

/-- The scheduler decides which call a thread makes, the memory which message a
load sees. -/
inductive Choice
  | call (op : Op ℕ)
  | see (k : ℕ)
  | go

/-- The end of the queue at which an operation works. -/
def endOf (op : Op ℕ) : End :=
  if op.takes then .pop else .push

/-- What a call returns that was refused. -/
def refused (op : Op ℕ) : Res ℕ :=
  if op.takes then .popped none else .pushed false

namespace Variant

variable (V : Variant)

/-- A `push` or `pop` that takes a ticket no matter what. -/
def Optimistic (op : Op ℕ) : Prop :=
  op.blocks ∧ ¬V.retries

instance (op : Op ℕ) : Decidable (V.Optimistic op) :=
  inferInstanceAs (Decidable (_ ∧ _))

/-- The order of `fetch_add`. -/
def memoryOrder : MemoryOrder :=
  if V.totalOrder then .seqCst else .relaxed

/-- The first step of a call. -/
def enter (op : Op ℕ) : Pc :=
  if V.Optimistic op ∧ ¬V.spsc then .fetch else .load

/-- After the load of the own counter. -/
def loaded (op : Op ℕ) (own : ℕ) : Pc :=
  if V.Optimistic op then .claim own else .check own

/-- The difference of two counters cast to `int`. -/
def dif (a b : ℕ) : ℤ :=
  match V.width with
  | .unbounded => (a : ℤ) - b
  | .bits w => (SizeT.bits w).signed ((SizeT.bits w).sub a b)

/-- The test of `try_push` or `try_pop`. -/
def Refuses (own other : ℕ) : End → Prop
  | .push => V.width.signed V.layout.size ≤ V.dif own other
  | .pop => V.dif other own ≤ 0

instance (own other : ℕ) (e : End) : Decidable (V.Refuses own other e) := by
  cases e <;> exact inferInstanceAs (Decidable (_ ≤ _))

/-- After the load of the other counter. -/
def checked (op : Op ℕ) (own other : ℕ) : Thread :=
  if V.Refuses own other (endOf op) then
    if op.blocks then .run op .load else .done (refused op)
  else .run op (.claim own)

/-- The slot of a ticket. -/
def place (own : ℕ) : Loc :=
  .element (V.layout.slot own)

/-- A slot with this value lets in the calls of an end. -/
def Admits (value : ℕ) : End → Prop
  | .push => value = V.NIL
  | .pop => value ≠ V.NIL

instance (value : ℕ) : (e : End) → Decidable (V.Admits value e)
  | .push => inferInstanceAs (Decidable (value = V.NIL))
  | .pop => inferInstanceAs (Decidable (value ≠ V.NIL))

/-- After a load of the slot at the head of the loop. -/
def looked (e : End) (own element value : ℕ) : Pc :=
  if ¬V.spsc then .pause own
  else if V.Admits value e then .put own element
  else .slot own

/-- After a speculative load. -/
def paused (e : End) (own value : ℕ) : Pc :=
  if V.Admits value e then .slot own else .pause own

/-- After an `exchange` with `NIL`. -/
def exchanged (op : Op ℕ) (own value : ℕ) : Event × Thread :=
  if V.Admits value .pop then (.take value, .done (.popped (some value)))
  else (.inner, .run op (.pause own))

end Variant

section Steps

variable [DecidableEq ι] (V : Variant) (t : ι) (mem : Memory ι)

/-- The inner loop that waits for the slot. -/
def wait (op : Op ℕ) (e : End) (own : ℕ) :
    Choice → Option (Event × Memory ι × Thread)
  | .see k =>
      if V.maximizeThroughput then
        (mem.load t .relaxed (V.place own) k).map fun (value, mem) =>
          (.inner, mem, .run op (V.paused e own value))
      else none
  | .go =>
      if V.maximizeThroughput then none
      else some (.inner, mem, .run op (.slot own))
  | .call _ => none

/-- `do_push_atomic(element, q_element)`.  The compare-exchange is a weak one,
and may fail whatever the slot holds. -/
def doPushAtomic (op : Op ℕ) (element : ℕ) :
    Pc → Choice → Option (Event × Memory ι × Thread)
  | .slot own, .see k =>
      (mem.load t .relaxed (V.place own) k).map fun (value, mem) =>
        (.inner, mem, .run op (V.looked .push own element value))
  | .slot own, .go =>
      if V.spsc then none
      else (mem.compareExchange t .release (V.place own) V.NIL element).map
        fun mem => (.put element, mem, .done (.pushed true))
  | .put own _, .go =>
      if V.spsc then
        some (.put element, mem.store t .release (V.place own) element,
          .done (.pushed true))
      else none
  | .pause own, c => wait V t mem op .push own c
  | _, _ => none

/-- `do_pop_atomic(q_element)` -/
def doPopAtomic (op : Op ℕ) :
    Pc → Choice → Option (Event × Memory ι × Thread)
  | .slot own, .see k =>
      if V.spsc then
        (mem.load t .acquire (V.place own) k).map fun (value, mem) =>
          (.inner, mem, .run op (V.looked .pop own value value))
      else none
  | .slot own, .go =>
      if V.spsc then none
      else (mem.modify t .acquire (V.place own) fun _ => V.NIL).map
        fun (value, mem) =>
          ((V.exchanged op own value).1, mem, (V.exchanged op own value).2)
  | .put own element, .go =>
      if V.spsc then
        some (.take element, mem.store t .relaxed (V.place own) V.NIL,
          .done (.popped (some element)))
      else none
  | .pause own, c => wait V t mem op .pop own c
  | _, _ => none

/-- One step of a call.  What follows the ticket is `do_push` or `do_pop`. -/
def step (op : Op ℕ) : Pc → Choice → Option (Event × Memory ι × Thread)
  | .load, .see k =>
      (mem.load t .relaxed (endOf op).own k).map fun (own, mem) =>
        (.inner, mem, .run op (V.loaded op own))
  | .check own, .see k =>
      (mem.load t .relaxed (endOf op).other k).map fun (other, mem) =>
        (.inner, mem, V.checked op own other)
  | .claim own, .go =>
      if V.spsc then
        some (.claim (endOf op),
          mem.store t .relaxed (endOf op).own (V.width.add own 1),
          .run op (.slot own))
      else
        (mem.compareExchange t .relaxed (endOf op).own own
          (V.width.add own 1)).map
          fun mem => (.claim (endOf op), mem, .run op (.slot own))
  | .claim _, .see k =>
      if V.spsc then none
      else (mem.load t .relaxed (endOf op).own k).map fun (own, mem) =>
        (.inner, mem, .run op (.check own))
  | .fetch, .go =>
      (mem.modify t V.memoryOrder (endOf op).own (V.width.add · 1)).map
        fun (own, mem) => (.claim (endOf op), mem, .run op (.slot own))
  | pc, c =>
      match op.item? with
      | some element => doPushAtomic V t mem op element pc c
      | none => doPopAtomic V t mem op pc c

def push (element : ℕ) := step V t mem (.push element)

def tryPush (element : ℕ) := step V t mem (.tryPush element)

def pop := step V t mem .pop

def tryPop := step V t mem .tryPop

/-- One step of a thread that may call at the ends `may`.  No call pushes `NIL`,
as `do_push_atomic` asserts. -/
def move (may : End → Bool) :
    Thread → Choice → Option (Event × Memory ι × Thread)
  | .idle, .call op =>
      if may (endOf op) ∧ op.item? ≠ some V.NIL then
        some (.call op, mem, .run op (V.enter op))
      else none
  | .run (.push element) pc, c => push V t mem element pc c
  | .run (.tryPush element) pc, c => tryPush V t mem element pc c
  | .run .pop pc, c => pop V t mem pc c
  | .run .tryPop pc, c => tryPop V t mem pc c
  | .done r, .go => some (.ret r, mem, .idle)
  | _, _ => none

end Steps

/-- The threads on a queue. -/
abbrev State (ι : Type v) := Pool ι (Memory ι) Thread

/-- All executions of threads `ι` that keep to their ends. -/
def system [DecidableEq ι] (V : Variant) (may : ι → End → Bool) :
    Lts (State ι) (ι × Event) where
  init := ⟨Memory.new V.NIL, fun _ => .idle⟩
  step s a s' := ∃ c mem th,
    move V a.1 s.shared (may a.1) (s.threads a.1) c = some (a.2, mem, th) ∧
      s' = s.move a.1 mem th

/-! ## The moves, case by case -/

/-- What a thread can do, one constructor for each step. -/
inductive Move [DecidableEq ι] (V : Variant) (t : ι) (may : End → Bool)
    (mem : Memory ι) : Thread → Event → Memory ι → Thread → Prop
  | call {op : Op ℕ} (hmay : may (endOf op)) (hop : op.item? ≠ some V.NIL) :
      Move V t may mem .idle (.call op) mem (.run op (V.enter op))
  | load {op : Op ℕ} {k own : ℕ} {mem' : Memory ι}
      (h : mem.load t .relaxed (endOf op).own k = some (own, mem')) :
      Move V t may mem (.run op .load) .inner mem' (.run op (V.loaded op own))
  | check {op : Op ℕ} {k own other : ℕ} {mem' : Memory ι}
      (h : mem.load t .relaxed (endOf op).other k = some (other, mem')) :
      Move V t may mem (.run op (.check own)) .inner mem'
        (V.checked op own other)
  | advance {op : Op ℕ} {own : ℕ} (hspsc : V.spsc) :
      Move V t may mem (.run op (.claim own)) (.claim (endOf op))
        (mem.store t .relaxed (endOf op).own (V.width.add own 1))
        (.run op (.slot own))
  | claim {op : Op ℕ} {own : ℕ} {mem' : Memory ι} (hspsc : V.spsc = false)
      (h : mem.compareExchange t .relaxed (endOf op).own own
        (V.width.add own 1) = some mem') :
      Move V t may mem (.run op (.claim own)) (.claim (endOf op)) mem'
        (.run op (.slot own))
  | retry {op : Op ℕ} {k own own' : ℕ} {mem' : Memory ι}
      (hspsc : V.spsc = false)
      (h : mem.load t .relaxed (endOf op).own k = some (own', mem')) :
      Move V t may mem (.run op (.claim own)) .inner mem'
        (.run op (.check own'))
  | fetch {op : Op ℕ} {own : ℕ} {mem' : Memory ι}
      (h : mem.modify t V.memoryOrder (endOf op).own (V.width.add · 1) =
        some (own, mem')) :
      Move V t may mem (.run op .fetch) (.claim (endOf op)) mem'
        (.run op (.slot own))
  | lookPush {op : Op ℕ} {element k own value : ℕ} {mem' : Memory ι}
      (hop : op.item? = some element)
      (h : mem.load t .relaxed (V.place own) k = some (value, mem')) :
      Move V t may mem (.run op (.slot own)) .inner mem'
        (.run op (V.looked .push own element value))
  | exchangePush {op : Op ℕ} {element own : ℕ} {mem' : Memory ι}
      (hop : op.item? = some element) (hspsc : V.spsc = false)
      (h : mem.compareExchange t .release (V.place own) V.NIL element =
        some mem') :
      Move V t may mem (.run op (.slot own)) (.put element) mem'
        (.done (.pushed true))
  | storePush {op : Op ℕ} {element element' own : ℕ}
      (hop : op.item? = some element) (hspsc : V.spsc) :
      Move V t may mem (.run op (.put own element')) (.put element)
        (mem.store t .release (V.place own) element) (.done (.pushed true))
  | lookPop {op : Op ℕ} {k own value : ℕ} {mem' : Memory ι}
      (hop : op.item? = none) (hspsc : V.spsc)
      (h : mem.load t .acquire (V.place own) k = some (value, mem')) :
      Move V t may mem (.run op (.slot own)) .inner mem'
        (.run op (V.looked .pop own value value))
  | exchangePop {op : Op ℕ} {own value : ℕ} {mem' : Memory ι}
      (hop : op.item? = none) (hspsc : V.spsc = false)
      (h : mem.modify t .acquire (V.place own) (fun _ => V.NIL) =
        some (value, mem')) :
      Move V t may mem (.run op (.slot own)) (V.exchanged op own value).1 mem'
        (V.exchanged op own value).2
  | storePop {op : Op ℕ} {element own : ℕ} (hop : op.item? = none)
      (hspsc : V.spsc) :
      Move V t may mem (.run op (.put own element)) (.take element)
        (mem.store t .relaxed (V.place own) V.NIL)
        (.done (.popped (some element)))
  | pause {op : Op ℕ} {k own value : ℕ} {mem' : Memory ι}
      (hmax : V.maximizeThroughput)
      (h : mem.load t .relaxed (V.place own) k = some (value, mem')) :
      Move V t may mem (.run op (.pause own)) .inner mem'
        (.run op (V.paused (endOf op) own value))
  | again {op : Op ℕ} {own : ℕ} (hmax : V.maximizeThroughput = false) :
      Move V t may mem (.run op (.pause own)) .inner mem
        (.run op (.slot own))
  | ret {r : Res ℕ} : Move V t may mem (.done r) (.ret r) mem .idle

section Moves

variable [DecidableEq ι] {V : Variant} {t : ι} {may : End → Bool}
  {mem mem' : Memory ι} {op : Op ℕ} {e : Event} {th th' : Thread}

theorem endOf_of_item {element : ℕ} (hop : op.item? = some element) :
    endOf op = .push := by
  cases op <;> first | rfl | cases hop

theorem endOf_of_no_item (hop : op.item? = none) : endOf op = .pop := by
  cases op <;> first | rfl | cases hop

theorem move_of_wait {own : ℕ} {c : Choice}
    (h : wait V t mem op (endOf op) own c = some (e, mem', th')) :
    Move V t may mem (.run op (.pause own)) e mem' th' := by
  revert h
  fun_cases wait V t mem op (endOf op) own c <;> intro h
  case case1 k hmax =>
    obtain ⟨⟨value, m⟩, hload, heq⟩ := Option.map_eq_some_iff.mp h
    cases heq
    exact .pause hmax hload
  case case4 hmax => cases h; exact .again (by simpa using hmax)
  all_goals cases h

theorem move_of_do_push_atomic {element : ℕ} {pc : Pc} {c : Choice}
    (hop : op.item? = some element)
    (h : doPushAtomic V t mem op element pc c = some (e, mem', th')) :
    Move V t may mem (.run op pc) e mem' th' := by
  revert h
  fun_cases doPushAtomic V t mem op element pc c <;> intro h
  case case1 own k =>
    obtain ⟨⟨value, m⟩, hload, heq⟩ := Option.map_eq_some_iff.mp h
    cases heq
    exact .lookPush hop hload
  case case3 own hspsc =>
    obtain ⟨m, hcas, heq⟩ := Option.map_eq_some_iff.mp h
    cases heq
    exact .exchangePush hop (by simpa using hspsc) hcas
  case case4 hspsc => cases h; exact .storePush hop hspsc
  case case6 =>
    rw [← endOf_of_item hop] at h
    exact move_of_wait h
  all_goals cases h

theorem move_of_do_pop_atomic {pc : Pc} {c : Choice} (hop : op.item? = none)
    (h : doPopAtomic V t mem op pc c = some (e, mem', th')) :
    Move V t may mem (.run op pc) e mem' th' := by
  revert h
  fun_cases doPopAtomic V t mem op pc c <;> intro h
  case case1 own k hspsc =>
    obtain ⟨⟨value, m⟩, hload, heq⟩ := Option.map_eq_some_iff.mp h
    cases heq
    exact .lookPop hop hspsc hload
  case case4 own hspsc =>
    obtain ⟨⟨value, m⟩, hmod, heq⟩ := Option.map_eq_some_iff.mp h
    cases heq
    exact .exchangePop hop (by simpa using hspsc) hmod
  case case5 hspsc => cases h; exact .storePop hop hspsc
  case case7 =>
    rw [← endOf_of_no_item hop] at h
    exact move_of_wait h
  all_goals cases h

theorem move_of_step {pc : Pc} {c : Choice}
    (h : step V t mem op pc c = some (e, mem', th')) :
    Move V t may mem (.run op pc) e mem' th' := by
  revert h
  fun_cases step V t mem op pc c <;> intro h
  case case1 k =>
    obtain ⟨⟨own, m⟩, hload, heq⟩ := Option.map_eq_some_iff.mp h
    cases heq
    exact .load hload
  case case2 own k =>
    obtain ⟨⟨other, m⟩, hload, heq⟩ := Option.map_eq_some_iff.mp h
    cases heq
    exact .check hload
  case case3 own hspsc => cases h; exact .advance hspsc
  case case4 own hspsc =>
    obtain ⟨m, hcas, heq⟩ := Option.map_eq_some_iff.mp h
    cases heq
    exact .claim (by simpa using hspsc) hcas
  case case6 own k hspsc =>
    obtain ⟨⟨own', m⟩, hload, heq⟩ := Option.map_eq_some_iff.mp h
    cases heq
    exact .retry (by simpa using hspsc) hload
  case case7 =>
    obtain ⟨⟨own, m⟩, hmod, heq⟩ := Option.map_eq_some_iff.mp h
    cases heq
    exact .fetch hmod
  case case5 => cases h
  case case8 hop _ _ _ _ _ => exact move_of_do_push_atomic hop h
  case case9 hop _ _ _ _ _ => exact move_of_do_pop_atomic hop h

theorem step_of_move {pc : Pc}
    (h : Move V t may mem (.run op pc) e mem' th') :
    ∃ c, step V t mem op pc c = some (e, mem', th') := by
  cases h with
  | @load _ k _ _ h | @check _ k _ _ _ h =>
      exact ⟨.see k, by simp [step, h]⟩
  | @retry _ k _ _ _ hspsc h => exact ⟨.see k, by simp [step, hspsc, h]⟩
  | advance hspsc => exact ⟨.go, by simp [step, hspsc]⟩
  | claim hspsc h => exact ⟨.go, by simp [step, hspsc, h]⟩
  | fetch h => exact ⟨.go, by simp [step, h]⟩
  | @lookPush _ _ k _ _ _ hop h =>
      exact ⟨.see k, by simp [step, doPushAtomic, hop, h]⟩
  | exchangePush hop hspsc h =>
      exact ⟨.go, by simp [step, doPushAtomic, hop, hspsc, h]⟩
  | storePush hop hspsc =>
      exact ⟨.go, by simp [step, doPushAtomic, hop, hspsc]⟩
  | @lookPop _ k _ _ _ hop hspsc h =>
      exact ⟨.see k, by simp [step, doPopAtomic, hop, hspsc, h]⟩
  | exchangePop hop hspsc h =>
      exact ⟨.go, by simp [step, doPopAtomic, hop, hspsc, h]⟩
  | storePop hop hspsc =>
      exact ⟨.go, by simp [step, doPopAtomic, hop, hspsc]⟩
  | @pause _ k _ _ _ hmax h =>
      refine ⟨.see k, ?_⟩
      cases hop : op.item? with
      | none =>
          rw [endOf_of_no_item hop]
          simp [step, doPopAtomic, wait, hop, hmax, h]
      | some element =>
          rw [endOf_of_item hop]
          simp [step, doPushAtomic, wait, hop, hmax, h]
  | again hmax =>
      refine ⟨.go, ?_⟩
      cases hop : op.item? with
      | none => simp [step, doPopAtomic, wait, hop, hmax]
      | some element => simp [step, doPushAtomic, wait, hop, hmax]

/-- The case analysis is exactly the executable move. -/
theorem moves_iff : (∃ c, move V t mem may th c = some (e, mem', th')) ↔
    Move V t may mem th e mem' th' := by
  constructor
  · rintro ⟨c, h⟩
    revert h
    fun_cases move V t mem may th c <;> intro h
    case case1 op hop => cases h; exact .call hop.1 hop.2
    case case7 r => cases h; exact .ret
    all_goals first | exact move_of_step h | cases h
  · intro h
    cases th with
    | idle =>
        cases h with
        | @call op hmay hop => exact ⟨.call op, if_pos ⟨hmay, hop⟩⟩
    | run op pc =>
        obtain ⟨c, hc⟩ := step_of_move h
        exact ⟨c, by cases op <;> exact hc⟩
    | done r =>
        cases h with
        | ret => exact ⟨.go, rfl⟩

end Moves

end AtomicQueue
end ConcurrentQueues
