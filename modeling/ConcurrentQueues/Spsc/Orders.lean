import ConcurrentQueues.Spsc.Calls
import ConcurrentQueues.Support.Views

/-!
# The single-producer single-consumer queues with their memory orders

`alpha`, `bravo` and `echo` load and store with `relaxed`, `acquire` and
`release`, `charlie` does so with `seq_cst`, and `delta` keeps no copy of the
other index.  `StdAtomicSPSCQueue` differs in what its loops do, `Fifo4` compares
with `==` and destroys the objects it pops.  They are one program with
parameters, run on a memory in which a load may see an old value.

A slot is a plain location, so an access to it may race.  The indexes are natural
numbers: fewer than `2 ^ w` items are pushed, and no `std::size_t` wraps.
-/

namespace ConcurrentQueues

universe u

namespace Spsc
namespace Ordered

open Fifo

/-! ## The variants -/

/-- What the queues differ in. -/
structure Variant where
  /-- order of the load of the own index -/
  ownLoad : MemoryOrder
  /-- order of the load of `head_` by the producer -/
  headLoad : MemoryOrder
  /-- order of the load of `tail_` by the consumer -/
  tailLoad : MemoryOrder
  headStore : MemoryOrder
  tailStore : MemoryOrder
  /-- whether a copy of the other index is kept and tested first -/
  cached : Bool
  /-- whether the tests are `==` instead of `>=` and `<=` -/
  exact : Bool
  /-- whether a pop destroys the object in the slot -/
  destroys : Bool
  calls : OnFail → Bool

/-- `alpha::spsc` -/
def alpha : Variant where
  ownLoad := .relaxed
  headLoad := .acquire
  tailLoad := .acquire
  headStore := .release
  tailStore := .release
  cached := true
  exact := false
  destroys := false
  calls f := f ≠ .testAgain

/-- `bravo::spsc`: the members are not aligned. -/
def bravo : Variant := alpha

/-- `charlie::spsc` -/
def charlie : Variant where
  ownLoad := .seqCst
  headLoad := .seqCst
  tailLoad := .seqCst
  headStore := .seqCst
  tailStore := .seqCst
  cached := true
  exact := false
  destroys := false
  calls f := f ≠ .testAgain

/-- `delta::spsc` -/
def delta : Variant := { alpha with cached := false }

/-- `echo::spsc`: the slots are on the heap. -/
def echo : Variant := alpha

/-- `StdAtomicSPSCQueue` -/
def StdAtomicSPSCQueue : Variant := { alpha with calls f := f = .testAgain }

/-- `Fifo4`, with the `push` and `pop` of its adapter. -/
def Fifo4 : Variant := { alpha with exact := true, destroys := true }

namespace Variant

/-- `full(tail, head)` -/
def full (V : Variant) (n tail head : ℕ) : Prop :=
  if V.exact then tail - head = n else n ≤ tail - head

/-- `empty(tail, head)` -/
def empty (V : Variant) (tail head : ℕ) : Prop :=
  if V.exact then tail = head else tail ≤ head

instance (V : Variant) (n tail head : ℕ) : Decidable (V.full n tail head) :=
  inferInstanceAs (Decidable (ite _ _ _))

instance (V : Variant) (tail head : ℕ) : Decidable (V.empty tail head) :=
  inferInstanceAs (Decidable (ite _ _ _))

end Variant

/-! ## The queue -/

/-- The two shared indexes. -/
inductive Index
  | head
  | tail
  deriving DecidableEq

variable {T : Type u}

/-- The memory, with slots taken `% SIZE`, and the copies of the indexes that
each side keeps. -/
structure Queue (T : Type u) where
  mem : ViewMemory Index ℕ Side (Option T)
  cachedHead : ℕ
  cachedTail : ℕ

def Queue.new : Queue T where
  mem := .init (fun _ => 0) (fun _ => none)
  cachedHead := 0
  cachedTail := 0

/-- Where a thread stands in a call.  The argument is the local copy of the own
index. -/
inductive Pc
  /-- before the load of the own index -/
  | load
  /-- before the test against the copy of the other index -/
  | test (own : ℕ)
  /-- before the load of the other index -/
  | refresh (own : ℕ)
  /-- before the test against the index loaded -/
  | retest (own : ℕ)
  /-- before the slot access -/
  | access (own : ℕ)
  /-- before the store of the own index -/
  | store (own : ℕ)
  deriving DecidableEq

/-- Where a call goes after the load of its own index. -/
def Variant.begin (V : Variant) (own : ℕ) : Pc :=
  if V.cached then .test own else .refresh own

/-- The producer after the last test found the ring full. -/
def afterFull (f : OnFail) (item : T) (tail : ℕ) : Producer Pc T :=
  match f with
  | .giveUp => .done false
  | .startOver => .push f item .load
  | .testAgain => .push f item (.test tail)

/-- The consumer after the last test found the ring empty. -/
def afterEmpty (f : OnFail) (item : Option T) (head : ℕ) : Consumer Pc T :=
  match f with
  | .giveUp => .done none
  | .startOver => .pop f item .load
  | .testAgain => .pop f item (.test head)

/-- One step of a call that pushes `item`.  The choice is the message that a
load sees. -/
def pushStep (V : Variant) (n : ℕ) (q : Queue T) (f : OnFail) (item : T) :
    Pc → Option ℕ → Option (Event T × Queue T × Producer Pc T)
  | .load, some k =>
      (q.mem.load .producer V.ownLoad .tail k).map fun (tail, mem) =>
        (.inner, { q with mem := mem }, .push f item (V.begin tail))
  | .test tail, none =>
      if V.full n tail q.cachedHead then
        some (.inner, q, .push f item (.refresh tail))
      else
        some (.inner, q, .push f item (.access tail))
  | .refresh tail, some k =>
      (q.mem.load .producer V.headLoad .head k).map fun (head, mem) =>
        (.inner, { q with mem := mem, cachedHead := head },
          .push f item (.retest tail))
  | .retest tail, none =>
      if V.full n tail q.cachedHead then
        some (.inner, q, afterFull f item tail)
      else
        some (.inner, q, .push f item (.access tail))
  | .access tail, none =>
      some (.inner,
        { q with mem := q.mem.write .producer (tail % n) (some item) },
        .push f item (.store tail))
  | .store tail, none =>
      some (.store (tail + 1) (some item),
        { q with mem := q.mem.store .producer V.tailStore .tail (tail + 1) },
        .done true)
  | _, _ => none

/-- The access of a pop to its slot, after the item was copied. -/
def Variant.take (V : Variant) (mem : ViewMemory Index ℕ Side (Option T))
    (slot : ℕ) : ViewMemory Index ℕ Side (Option T) :=
  if V.destroys then
    (mem.read .consumer slot).write .consumer slot none
  else
    mem.read .consumer slot

/-- One step of a call that pops into `item`. -/
def popStep (V : Variant) (n : ℕ) (q : Queue T) (f : OnFail)
    (item : Option T) :
    Pc → Option ℕ → Option (Event T × Queue T × Consumer Pc T)
  | .load, some k =>
      (q.mem.load .consumer V.ownLoad .head k).map fun (head, mem) =>
        (.inner, { q with mem := mem }, .pop f item (V.begin head))
  | .test head, none =>
      if V.empty q.cachedTail head then
        some (.inner, q, .pop f item (.refresh head))
      else
        some (.inner, q, .pop f item (.access head))
  | .refresh head, some k =>
      (q.mem.load .consumer V.tailLoad .tail k).map fun (tail, mem) =>
        (.inner, { q with mem := mem, cachedTail := tail },
          .pop f item (.retest head))
  | .retest head, none =>
      if V.empty q.cachedTail head then
        some (.inner, q, afterEmpty f item head)
      else
        some (.inner, q, .pop f item (.access head))
  | .access head, none =>
      some (.inner, { q with mem := V.take q.mem (head % n) },
        .pop f (q.mem.cells (head % n)).data (.store head))
  | .store head, none =>
      some (.store (head + 1) item,
        { q with mem := q.mem.store .consumer V.headStore .head (head + 1) },
        .done item)
  | _, _ => none

/-! ## The systems -/

/-- What the scheduler and the memory decide: the call an idle thread makes,
and the message that a load sees. -/
inductive Choice (C : Type u)
  | call (c : C)
  | see (k : ℕ)
  | go

/-- The message that a choice names. -/
def Choice.seen? {C : Type u} : Choice C → Option ℕ
  | .see k => some k
  | _ => none

def produce (V : Variant) (n : ℕ) (q : Queue T) :
    Producer Pc T → Choice (OnFail × T) →
      Option (Event T × Queue T × Producer Pc T)
  | .idle, .call (f, item) =>
      if V.calls f then some (.call (f.pushOp item), q, .push f item .load)
      else none
  | .push f item pc, c => pushStep V n q f item pc c.seen?
  | .done b, .go => some (.ret (.pushed b), q, .idle)
  | _, _ => none

def consume (V : Variant) (n : ℕ) (q : Queue T) :
    Consumer Pc T → Choice OnFail →
      Option (Event T × Queue T × Consumer Pc T)
  | .idle, .call f =>
      if V.calls f then some (.call f.popOp, q, .pop f none .load) else none
  | .pop f item pc, c => popStep V n q f item pc c.seen?
  | .done item, .go => some (.ret (.popped item), q, .idle)
  | _, _ => none

/-- A queue with its producer and its consumer. -/
abbrev State (T : Type u) := Duo (Queue T) (Producer Pc T) (Consumer Pc T)

/-- All executions of one producer and one consumer on a ring of `n` slots. -/
def system (V : Variant) (n : ℕ) (T : Type u) : Lts (State T) (Side × Event T) :=
  Duo.lts (Pool.Moves (produce V n)) (Pool.Moves (consume V n)) Queue.new
    .idle .idle

/-- The access of a pop would not race. -/
def Variant.TakeSafe (V : Variant) (mem : ViewMemory Index ℕ Side (Option T))
    (slot : ℕ) : Prop :=
  if V.destroys then mem.WriteSafe .consumer slot
  else mem.ReadSafe .consumer slot

/-- Some thread stands before an access to its slot that races. -/
inductive Racing (V : Variant) (n : ℕ) (s : State T) : Prop
  | producer {f : OnFail} {item : T} {t : ℕ}
      (hpc : s.producer = .push f item (.access t))
      (hsafe : ¬s.shared.mem.WriteSafe .producer (t % n))
  | consumer {f : OnFail} {item : Option T} {h : ℕ}
      (hpc : s.consumer = .pop f item (.access h))
      (hsafe : ¬V.TakeSafe s.shared.mem (h % n))

/-! ## The moves, case by case -/

/-- What the producer can do, one constructor for each step. -/
inductive PushMove (V : Variant) (n : ℕ) (q : Queue T) :
    Producer Pc T → Event T → Queue T → Producer Pc T → Prop
  | call {f : OnFail} (item : T) (hf : V.calls f) :
      PushMove V n q .idle (.call (f.pushOp item)) q (.push f item .load)
  | load {f : OnFail} {item : T} {k t : ℕ}
      {mem : ViewMemory Index ℕ Side (Option T)}
      (h : q.mem.load .producer V.ownLoad .tail k = some (t, mem)) :
      PushMove V n q (.push f item .load) .inner { q with mem := mem }
        (.push f item (V.begin t))
  | testFull {f : OnFail} {item : T} {t : ℕ} (h : V.full n t q.cachedHead) :
      PushMove V n q (.push f item (.test t)) .inner q
        (.push f item (.refresh t))
  | testRoom {f : OnFail} {item : T} {t : ℕ} (h : ¬V.full n t q.cachedHead) :
      PushMove V n q (.push f item (.test t)) .inner q
        (.push f item (.access t))
  | refresh {f : OnFail} {item : T} {t k v : ℕ}
      {mem : ViewMemory Index ℕ Side (Option T)}
      (h : q.mem.load .producer V.headLoad .head k = some (v, mem)) :
      PushMove V n q (.push f item (.refresh t)) .inner
        { q with mem := mem, cachedHead := v } (.push f item (.retest t))
  | retestFull {f : OnFail} {item : T} {t : ℕ} (h : V.full n t q.cachedHead) :
      PushMove V n q (.push f item (.retest t)) .inner q (afterFull f item t)
  | retestRoom {f : OnFail} {item : T} {t : ℕ}
      (h : ¬V.full n t q.cachedHead) :
      PushMove V n q (.push f item (.retest t)) .inner q
        (.push f item (.access t))
  | access {f : OnFail} {item : T} {t : ℕ} :
      PushMove V n q (.push f item (.access t)) .inner
        { q with mem := q.mem.write .producer (t % n) (some item) }
        (.push f item (.store t))
  | store {f : OnFail} {item : T} {t : ℕ} :
      PushMove V n q (.push f item (.store t)) (.store (t + 1) (some item))
        { q with mem := q.mem.store .producer V.tailStore .tail (t + 1) }
        (.done true)
  | ret {b : Bool} : PushMove V n q (.done b) (.ret (.pushed b)) q .idle

/-- What the consumer can do. -/
inductive PopMove (V : Variant) (n : ℕ) (q : Queue T) :
    Consumer Pc T → Event T → Queue T → Consumer Pc T → Prop
  | call {f : OnFail} (hf : V.calls f) :
      PopMove V n q .idle (.call f.popOp) q (.pop f none .load)
  | load {f : OnFail} {item : Option T} {k h : ℕ}
      {mem : ViewMemory Index ℕ Side (Option T)}
      (hl : q.mem.load .consumer V.ownLoad .head k = some (h, mem)) :
      PopMove V n q (.pop f item .load) .inner { q with mem := mem }
        (.pop f item (V.begin h))
  | testEmpty {f : OnFail} {item : Option T} {h : ℕ}
      (he : V.empty q.cachedTail h) :
      PopMove V n q (.pop f item (.test h)) .inner q (.pop f item (.refresh h))
  | testItem {f : OnFail} {item : Option T} {h : ℕ}
      (he : ¬V.empty q.cachedTail h) :
      PopMove V n q (.pop f item (.test h)) .inner q (.pop f item (.access h))
  | refresh {f : OnFail} {item : Option T} {h k v : ℕ}
      {mem : ViewMemory Index ℕ Side (Option T)}
      (hl : q.mem.load .consumer V.tailLoad .tail k = some (v, mem)) :
      PopMove V n q (.pop f item (.refresh h)) .inner
        { q with mem := mem, cachedTail := v } (.pop f item (.retest h))
  | retestEmpty {f : OnFail} {item : Option T} {h : ℕ}
      (he : V.empty q.cachedTail h) :
      PopMove V n q (.pop f item (.retest h)) .inner q (afterEmpty f item h)
  | retestItem {f : OnFail} {item : Option T} {h : ℕ}
      (he : ¬V.empty q.cachedTail h) :
      PopMove V n q (.pop f item (.retest h)) .inner q
        (.pop f item (.access h))
  | access {f : OnFail} {item : Option T} {h : ℕ} :
      PopMove V n q (.pop f item (.access h)) .inner
        { q with mem := V.take q.mem (h % n) }
        (.pop f (q.mem.cells (h % n)).data (.store h))
  | store {f : OnFail} {item : Option T} {h : ℕ} :
      PopMove V n q (.pop f item (.store h)) (.store (h + 1) item)
        { q with mem := q.mem.store .consumer V.headStore .head (h + 1) }
        (.done item)
  | ret {item : Option T} :
      PopMove V n q (.done item) (.ret (.popped item)) q .idle

section Cases

variable {V : Variant} {n : ℕ} {q q' : Queue T} {e : Event T}

theorem pushMove_of_step {f : OnFail} {item : T} {pc : Pc} {c : Option ℕ}
    {p' : Producer Pc T} (h : pushStep V n q f item pc c = some (e, q', p')) :
    PushMove V n q (.push f item pc) e q' p' := by
  revert h
  fun_cases pushStep V n q f item pc c <;> intro h
  case case1 k =>
    obtain ⟨⟨t, mem⟩, hload, heq⟩ := Option.map_eq_some_iff.mp h
    cases heq
    exact .load hload
  case case2 t ht => cases h; exact .testFull ht
  case case3 t ht => cases h; exact .testRoom ht
  case case4 t k =>
    obtain ⟨⟨v, mem⟩, hload, heq⟩ := Option.map_eq_some_iff.mp h
    cases heq
    exact .refresh hload
  case case5 t ht => cases h; exact .retestFull ht
  case case6 t ht => cases h; exact .retestRoom ht
  case case7 t => cases h; exact .access
  case case8 t => cases h; exact .store
  all_goals cases h

theorem popMove_of_step {f : OnFail} {item : Option T} {pc : Pc}
    {c : Option ℕ} {c' : Consumer Pc T}
    (h : popStep V n q f item pc c = some (e, q', c')) :
    PopMove V n q (.pop f item pc) e q' c' := by
  revert h
  fun_cases popStep V n q f item pc c <;> intro h
  case case1 k =>
    obtain ⟨⟨v, mem⟩, hload, heq⟩ := Option.map_eq_some_iff.mp h
    cases heq
    exact .load hload
  case case2 v hv => cases h; exact .testEmpty hv
  case case3 v hv => cases h; exact .testItem hv
  case case4 v k =>
    obtain ⟨⟨v', mem⟩, hload, heq⟩ := Option.map_eq_some_iff.mp h
    cases heq
    exact .refresh hload
  case case5 v hv => cases h; exact .retestEmpty hv
  case case6 v hv => cases h; exact .retestItem hv
  case case7 v => cases h; exact .access
  case case8 v => cases h; exact .store
  all_goals cases h

/-- The case analysis is exactly the executable move. -/
theorem pushMoves_iff {p p' : Producer Pc T} :
    Pool.Moves (produce V n) q p e q' p' ↔ PushMove V n q p e q' p' := by
  constructor
  · rintro ⟨c, h⟩
    revert h
    fun_cases produce V n q p c <;> intro h
    case case1 f item hf => cases h; exact .call item hf
    case case3 => exact pushMove_of_step h
    case case4 b => cases h; exact .ret
    all_goals cases h
  · intro h
    cases h with
    | call item hf => exact ⟨.call (_, item), if_pos hf⟩
    | @load _ _ k _ _ h | @refresh _ _ _ k _ _ h =>
        exact ⟨.see k, by simp [produce, pushStep, Choice.seen?, h]⟩
    | testFull h | testRoom h | retestFull h | retestRoom h =>
        exact ⟨.go, by simp [produce, pushStep, Choice.seen?, h]⟩
    | access | store | ret => exact ⟨.go, rfl⟩

theorem popMoves_iff {c c' : Consumer Pc T} :
    Pool.Moves (consume V n) q c e q' c' ↔ PopMove V n q c e q' c' := by
  constructor
  · rintro ⟨k, h⟩
    revert h
    fun_cases consume V n q c k <;> intro h
    case case1 f hf => cases h; exact .call hf
    case case3 => exact popMove_of_step h
    case case4 b => cases h; exact .ret
    all_goals cases h
  · intro h
    cases h with
    | call hf => exact ⟨.call _, if_pos hf⟩
    | @load _ _ k _ _ h | @refresh _ _ _ k _ _ h =>
        exact ⟨.see k, by simp [consume, popStep, Choice.seen?, h]⟩
    | testEmpty h | testItem h | retestEmpty h | retestItem h =>
        exact ⟨.go, by simp [consume, popStep, Choice.seen?, h]⟩
    | access | store | ret => exact ⟨.go, rfl⟩

end Cases

end Ordered
end Spsc
end ConcurrentQueues
