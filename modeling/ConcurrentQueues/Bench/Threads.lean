import ConcurrentQueues.Support.StopFlags
import Mathlib.Algebra.Order.Ring.Nat
import Mathlib.Data.Int.Basic

/-!
# The threads of the benchmarks

What the threads of a benchmark do once the barrier has let them go.  They push
and pop the items of the queue under test, read the clock, and share the times
of the first start and the last end with the thread that measures.

Numbers are kept as the code keeps them: items, stop flags and counters are
`unsigned`, sums are `uint64_t`.
-/

namespace ConcurrentQueues
namespace Bench

/-- What the threads share besides the queue.  `finish` is the variable
`end`. -/
structure Memory where
  start : ℤ
  finish : ℤ
  activeConsumers : ℕ
  deriving DecidableEq

/-- The next step of a thread.  The input of a step of its own is what the clock
shows. -/
abbrev Code (L : Type) := Next Memory ℤ L (Fifo.Op ℕ) (Fifo.Res ℕ)

/-- A start, an effect or a return of a call on the queue. -/
abbrev QueueAct := Act (Fifo.Op ℕ) (Fifo.Res ℕ)

/-! ## Producers -/

/-- `start.compare_exchange_strong`, with nothing but zero expected. -/
def Memory.setStart (g : Memory) (now : ℤ) : Memory :=
  if g.start = 0 then { g with start := now } else g

inductive Producer
  /-- before `high_resolution_clock::now` -/
  | timing
  /-- before `start.compare_exchange_strong` -/
  | starting (now : ℤ)
  /-- at the head of the loop -/
  | pushing (n : ℕ)
  deriving DecidableEq

def producer (numItems : ℕ) : Producer → Code Producer
  | .timing => .own fun g now => (g, .starting now)
  | .starting now => .own fun g _ => (g.setStart now, .pushing 1)
  | .pushing n =>
      let stopFlag := (numItems + 1) % 2 ^ 32
      if n ≤ stopFlag then
        .call (.push n) fun _ => .pushing ((n + 1) % 2 ^ 32)
      else .stop

inductive SingleProducer
  | timing
  | starting (now : ℤ)
  /-- at the head of the first loop -/
  | pushing (n : ℕ)
  /-- at the head of the second loop -/
  | flagging (i : ℕ)
  deriving DecidableEq

def singleProducer (numItems consumerCount : ℕ) :
    SingleProducer → Code SingleProducer
  | .timing => .own fun g now => (g, .starting now)
  | .starting now => .own fun g _ => (g.setStart now, .pushing 1)
  | .pushing n =>
      if n ≤ numItems then
        .call (.push n) fun _ => .pushing ((n + 1) % 2 ^ 32)
      else .own fun g _ => (g, .flagging 0)
  | .flagging i =>
      let stopFlag := (numItems + 1) % 2 ^ 32
      if i < consumerCount then
        .call (.push stopFlag) fun _ => .flagging ((i + 1) % 2 ^ 32)
      else .stop

/-! ## Consumers -/

inductive Consumer
  /-- at the head of the loop -/
  | popping (localSum : ℕ)
  /-- before `high_resolution_clock::now` -/
  | timing (localSum : ℕ)
  /-- before `active_consumers.fetch_sub` -/
  | leaving (localSum : ℕ) (now : ℤ)
  /-- before the write of `end` -/
  | ending (localSum : ℕ) (now : ℤ)
  /-- after the write of `sum` -/
  | returned (sum : ℕ)
  deriving DecidableEq

/-- The rest of the loop body once `queue.pop(item)` has returned. -/
def Consumer.loop (stopFlag localSum : ℕ) : Fifo.Res ℕ → Consumer
  | .popped (some item) =>
      if item = stopFlag then .timing localSum
      else .popping ((localSum + item) % 2 ^ 64)
  | .popped none | .pushed _ => .popping localSum

def consumer (stopFlag : ℕ) : Consumer → Code Consumer
  | .popping localSum => .call .pop (Consumer.loop stopFlag localSum)
  | .timing localSum => .own fun g now => (g, .leaving localSum now)
  | .leaving localSum now =>
      .own fun g _ =>
        let left := (g.activeConsumers + 2 ^ 32 - 1) % 2 ^ 32
        ({ g with activeConsumers := left },
          if g.activeConsumers = 1 then .ending localSum now
          else .returned localSum)
  | .ending localSum now =>
      .own fun g _ => ({ g with finish := now }, .returned localSum)
  | .returned _ => .stop

inductive SingleConsumer
  /-- at the head of the loop -/
  | popping (producerCount localSum : ℕ)
  | timing (localSum : ℕ)
  | ending (localSum : ℕ) (now : ℤ)
  | returned (sum : ℕ)
  deriving DecidableEq

/-- The rest of the loop body once `queue.pop(item)` has returned.  A flag that
is not the last one gets past the short circuit and is added like an item. -/
def SingleConsumer.loop (stopFlag producerCount localSum : ℕ) :
    Fifo.Res ℕ → SingleConsumer
  | .popped (some item) =>
      if item = stopFlag then
        let producerCount := (producerCount + 2 ^ 32 - 1) % 2 ^ 32
        if producerCount = 0 then .timing localSum
        else .popping producerCount ((localSum + item) % 2 ^ 64)
      else .popping producerCount ((localSum + item) % 2 ^ 64)
  | .popped none | .pushed _ => .popping producerCount localSum

def singleConsumer (stopFlag : ℕ) : SingleConsumer → Code SingleConsumer
  | .popping producerCount localSum =>
      .call .pop (SingleConsumer.loop stopFlag producerCount localSum)
  | .timing localSum => .own fun g now => (g, .ending localSum now)
  | .ending localSum now =>
      .own fun g _ => ({ g with finish := now }, .returned localSum)
  | .returned _ => .stop

/-! ## The benchmarks -/

/-- Producers of any kind and `n` consumers. -/
abbrev toConsumers {L : Type} (ι : Type*) (n : ℕ) (memory : Memory) (first : L)
    (code : L → Code L) (stopFlag : ℕ) :
    Program (ι ⊕ Fin n) Memory ℤ (L ⊕ Consumer) (Fifo.Op ℕ) (Fifo.Res ℕ) :=
  Program.groups ι (Fin n) memory first code (.popping 0) (consumer stopFlag)

/-- The threads of `balanced_benchmark_iteration`.  The number of items is a
`uint64_t` there and an `unsigned` in the threads. -/
def balanced (threadCount itemsPerProducer : ℕ) :
    Program (Fin threadCount ⊕ Fin threadCount) Memory ℤ (Producer ⊕ Consumer)
      (Fifo.Op ℕ) (Fifo.Res ℕ) :=
  toConsumers _ _ ⟨0, 0, threadCount⟩
    .timing (producer (itemsPerProducer % 2 ^ 32))
    ((itemsPerProducer + 1) % 2 ^ 64 % 2 ^ 32)

/-- The threads of `single_producer_benchmark_iteration`. -/
def singleProducerIteration (consumerCount itemsPerProducer : ℕ) :
    Program (Unit ⊕ Fin consumerCount) Memory ℤ (SingleProducer ⊕ Consumer)
      (Fifo.Op ℕ) (Fifo.Res ℕ) :=
  toConsumers _ _ ⟨0, 0, consumerCount⟩
    .timing (singleProducer itemsPerProducer consumerCount)
    ((itemsPerProducer + 1) % 2 ^ 32)

/-- The threads of `single_consumer_benchmark_iteration`, which has no
`active_consumers`. -/
def singleConsumerIteration (producerCount itemsPerProducer : ℕ) :
    Program (Fin producerCount ⊕ Unit) Memory ℤ (Producer ⊕ SingleConsumer)
      (Fifo.Op ℕ) (Fifo.Res ℕ) :=
  Program.groups _ _ ⟨0, 0, 0⟩
    .timing (producer itemsPerProducer)
    (.popping producerCount 0)
    (singleConsumer ((itemsPerProducer + 1) % 2 ^ 32))

/-- The number of items a benchmark pushes altogether. -/
def kNumItems : ℕ := 400000000

/-- `expected_sum`, in `uint64_t` arithmetic. -/
def expectedSum (threadCount itemsPerProducer : ℕ) : ℕ :=
  threadCount *
    (itemsPerProducer * ((1 + itemsPerProducer) % 2 ^ 64) % 2 ^ 64 / 2) % 2 ^ 64

/-- `total_sum` after the loop over `sums`. -/
def totalSum (sums : List ℕ) : ℕ :=
  sums.foldl (fun total sum => (total + sum) % 2 ^ 64) 0

end Bench
end ConcurrentQueues
