import ConcurrentQueues.Support.Views
import ConcurrentQueues.Support.Object

/-!
# The multi-producer multi-consumer queues with their memory orders

`StdAtomicMPMCQueue` and `mpmc_bounded_queue` claim an index with a relaxed
compare-exchange and pass the cell on by a release store of `seq_` that the next
user of the cell loads with acquire.  The two queues differ in what a call does
when its cell is not ready, and push and pop differ in the values of `seq_` they
wait for and leave behind.  They are one program with parameters, run on a
memory in which a load may see an old value and `data_` is a plain location.

The indexes and `seq_` are natural numbers: fewer indexes are claimed than a
`std::size_t` has values, and none wraps.
-/

namespace ConcurrentQueues

universe u v

namespace Mpmc

open Fifo

/-! ## The variants -/

/-- The two ends of the queue. -/
inductive Role
  | push
  | pop
  deriving DecidableEq

/-- What the queues differ in. -/
structure Variant where
  /-- order of the loads of `write_idx_` and `read_idx_`, also in a
  compare-exchange that fails -/
  indexLoad : MemoryOrder
  /-- order of a compare-exchange that succeeds -/
  exchange : MemoryOrder
  seqLoad : Role → MemoryOrder
  seqStore : Role → MemoryOrder
  /-- whether a call returns `false` when its cell lags behind -/
  refuses : Bool

/-- `StdAtomicMPMCQueue` -/
def StdAtomicMPMCQueue : Variant where
  indexLoad := .relaxed
  exchange := .relaxed
  seqLoad _ := .acquire
  seqStore _ := .release
  refuses := false

/-- The atomics: the two indexes and `seq_` of every cell. -/
inductive Loc
  | write
  | read
  | seq (cell : ℕ)
  deriving DecidableEq

/-- The members of the queue, with what each thread knows of them. -/
abbrev Memory (ι : Type v) (T : Type u) := ViewMemory Loc ℕ ι (Option T)

variable {ι : Type v} {T : Type u}

/-- The constructor: `seq_` of cell `i` is `i`. -/
def Memory.new : Memory ι T :=
  .init (fun
    | .write | .read => 0
    | .seq cell => cell) fun _ => none

namespace Role

/-- The index from which the calls take their positions. -/
def index : Role → Loc
  | .push => .write
  | .pop => .read

/-- The value of `seq_` that lets a call claim `idx`. -/
def expects (idx : ℕ) : Role → ℕ
  | .push => idx
  | .pop => idx + 1

/-- The value of `seq_` that the call leaves in the cell. -/
def leaves (n idx : ℕ) : Role → ℕ
  | .push => idx + 1
  | .pop => idx + n

/-- What a call returns that got through. -/
def success (item : Option T) : Role → Res T
  | .push => .pushed true
  | .pop => .popped item

/-- What a call returns that did not. -/
def failure : Role → Res T
  | .push => .pushed false
  | .pop => .popped none

end Role

/-! ## Threads -/

/-- Where a thread stands in a call.  The argument is the local index. -/
inductive Pc
  /-- before the load of the index -/
  | load
  /-- before the load of `seq_` -/
  | check (idx : ℕ)
  /-- before `compare_exchange_weak` -/
  | exchange (idx : ℕ)
  /-- before the access to `data_` -/
  | access (idx : ℕ)
  /-- before the store of `seq_` -/
  | store (idx : ℕ)
  deriving DecidableEq

/-- The local state of a thread, with the item of a push or the variable that a
pop copies to. -/
inductive Thread (T : Type u)
  | idle
  | run (role : Role) (item : Option T) (pc : Pc)
  | done (r : Res T)
  deriving DecidableEq

/-- What a step shows. -/
inductive Event (T : Type u)
  | call (op : Op T)
  | inner
  | claim (role : Role) (item : Option T)
  | ret (r : Res T)
  deriving DecidableEq

/-- The scheduler decides which call a thread makes, the memory which message a
load sees. -/
inductive Choice (T : Type u)
  | call (op : Op T)
  | see (k : ℕ)
  | go

variable [DecidableEq ι]

/-! ## The operations -/

/-- The test of the loaded `seq`. -/
def Variant.checked (V : Variant) (role : Role) (item : Option T)
    (idx seq : ℕ) : Thread T :=
  if seq = role.expects idx then .run role item (.exchange idx)
  else if V.refuses ∧ seq < role.expects idx then .done role.failure
  else .run role item .load

/-- The copy into the cell or out of it. -/
def access (t : ι) (mem : Memory ι T) (role : Role) (item : Option T)
    (cell : ℕ) : Memory ι T × Option T :=
  match role with
  | .push => (mem.write t cell item, item)
  | .pop => (mem.read t cell, (mem.cells cell).data)

/-- One step of a call of thread `t`.  A weak compare-exchange may fail whatever
the index holds. -/
def step (V : Variant) (n : ℕ) (t : ι) (mem : Memory ι T) (role : Role)
    (item : Option T) : Pc → Choice T →
      Option (Event T × Memory ι T × Thread T)
  | .load, .see k =>
      (mem.load t V.indexLoad role.index k).map fun (idx, mem) =>
        (.inner, mem, .run role item (.check idx))
  | .check idx, .see k =>
      (mem.load t (V.seqLoad role) (.seq (idx % n)) k).map fun (seq, mem) =>
        (.inner, mem, V.checked role item idx seq)
  | .exchange idx, .go =>
      (mem.compareExchange t V.exchange role.index idx (idx + 1)).map
        fun mem => (.claim role item, mem, .run role item (.access idx))
  | .exchange _, .see k =>
      (mem.load t V.indexLoad role.index k).map fun (idx, mem) =>
        (.inner, mem, .run role item (.check idx))
  | .access idx, .go =>
      let (mem, item) := access t mem role item (idx % n)
      some (.inner, mem, .run role item (.store idx))
  | .store idx, .go =>
      some (.inner, mem.store t (V.seqStore role) (.seq (idx % n))
        (role.leaves n idx), .done (role.success item))
  | _, _ => none

/-- `push(item)` and `enqueue(data)` -/
def push (V : Variant) (n : ℕ) (t : ι) (mem : Memory ι T) (item : Option T)
    (pc : Pc) :=
  step V n t mem .push item pc

/-- `pop(item)` and `dequeue(data)` -/
def pop (V : Variant) (n : ℕ) (t : ι) (mem : Memory ι T) (item : Option T)
    (pc : Pc) :=
  step V n t mem .pop item pc

/-! ## The system -/

/-- The end of the queue at which an operation works. -/
def roleOf (op : Op T) : Role :=
  if op.takes then .pop else .push

/-- One step of a thread.  The calls of `StdAtomicMPMCQueue` wait and those of
`mpmc_bounded_queue` may refuse. -/
def move (V : Variant) (n : ℕ) (t : ι) (mem : Memory ι T) :
    Thread T → Choice T → Option (Event T × Memory ι T × Thread T)
  | .idle, .call op =>
      if op.blocks = !V.refuses then
        some (.call op, mem, .run (roleOf op) op.item? .load)
      else none
  | .run .push item pc, c => push V n t mem item pc c
  | .run .pop item pc, c => pop V n t mem item pc c
  | .done r, .go => some (.ret r, mem, .idle)
  | _, _ => none

/-- The threads on a queue. -/
abbrev State (ι : Type v) (T : Type u) := Pool ι (Memory ι T) (Thread T)

/-- All executions of the threads `ι` on a queue of `n` cells. -/
def system (V : Variant) (n : ℕ) (ι : Type v) [DecidableEq ι] (T : Type u) :
    Lts (State ι T) (ι × Event T) where
  init := ⟨Memory.new, fun _ => .idle⟩
  step s a s' := ∃ c mem th,
    move V n a.1 s.shared (s.threads a.1) c = some (a.2, mem, th) ∧
      s' = s.move a.1 mem th

/-- The access of a call to its cell would not race. -/
def Safe (mem : Memory ι T) (t : ι) (cell : ℕ) : Role → Prop
  | .push => mem.WriteSafe t cell
  | .pop => mem.ReadSafe t cell

/-- Some thread stands before an access to its cell that races. -/
def Racing (n : ℕ) (s : State ι T) : Prop :=
  ∃ t role item idx, s.threads t = .run role item (.access idx) ∧
    ¬Safe s.shared t (idx % n) role

/-! ## The moves, case by case -/

/-- What a thread can do, one constructor for each step. -/
inductive Move (V : Variant) (n : ℕ) (t : ι) (mem : Memory ι T) :
    Thread T → Event T → Memory ι T → Thread T → Prop
  | call {op : Op T} (h : op.blocks = !V.refuses) :
      Move V n t mem .idle (.call op) mem (.run (roleOf op) op.item? .load)
  | load {role : Role} {item : Option T} {k idx : ℕ} {mem' : Memory ι T}
      (h : mem.load t V.indexLoad role.index k = some (idx, mem')) :
      Move V n t mem (.run role item .load) .inner mem'
        (.run role item (.check idx))
  | check {role : Role} {item : Option T} {idx k seq : ℕ} {mem' : Memory ι T}
      (h : mem.load t (V.seqLoad role) (.seq (idx % n)) k = some (seq, mem')) :
      Move V n t mem (.run role item (.check idx)) .inner mem'
        (V.checked role item idx seq)
  | claim {role : Role} {item : Option T} {idx : ℕ} {mem' : Memory ι T}
      (h : mem.compareExchange t V.exchange role.index idx (idx + 1) =
        some mem') :
      Move V n t mem (.run role item (.exchange idx)) (.claim role item) mem'
        (.run role item (.access idx))
  | retry {role : Role} {item : Option T} {idx k idx' : ℕ}
      {mem' : Memory ι T}
      (h : mem.load t V.indexLoad role.index k = some (idx', mem')) :
      Move V n t mem (.run role item (.exchange idx)) .inner mem'
        (.run role item (.check idx'))
  | access {role : Role} {item : Option T} {idx : ℕ} :
      Move V n t mem (.run role item (.access idx)) .inner
        (access t mem role item (idx % n)).1
        (.run role (access t mem role item (idx % n)).2 (.store idx))
  | store {role : Role} {item : Option T} {idx : ℕ} :
      Move V n t mem (.run role item (.store idx)) .inner
        (mem.store t (V.seqStore role) (.seq (idx % n)) (role.leaves n idx))
        (.done (role.success item))
  | ret {r : Res T} : Move V n t mem (.done r) (.ret r) mem .idle

variable {V : Variant} {n : ℕ} {t : ι} {mem mem' : Memory ι T} {e : Event T}
  {th th' : Thread T}

theorem move_of_step {role : Role} {item : Option T} {pc : Pc} {c : Choice T}
    (h : step V n t mem role item pc c = some (e, mem', th')) :
    Move V n t mem (.run role item pc) e mem' th' := by
  revert h
  fun_cases step V n t mem role item pc c <;> intro h
  case case1 k =>
    obtain ⟨⟨idx, m⟩, hload, heq⟩ := Option.map_eq_some_iff.mp h
    cases heq
    exact .load hload
  case case2 idx k =>
    obtain ⟨⟨seq, m⟩, hload, heq⟩ := Option.map_eq_some_iff.mp h
    cases heq
    exact .check hload
  case case3 idx =>
    obtain ⟨m, hcas, heq⟩ := Option.map_eq_some_iff.mp h
    cases heq
    exact .claim hcas
  case case4 idx k =>
    obtain ⟨⟨idx', m⟩, hload, heq⟩ := Option.map_eq_some_iff.mp h
    cases heq
    exact .retry hload
  case case5 idx m item' haccess =>
    cases h
    have hmove : Move V n t mem (.run role item (.access idx)) .inner _ _ :=
      .access
    rwa [haccess] at hmove
  case case6 idx => cases h; exact .store
  all_goals cases h

/-- The case analysis is exactly the executable move. -/
theorem moves_iff : (∃ c, move V n t mem th c = some (e, mem', th')) ↔
    Move V n t mem th e mem' th' := by
  constructor
  · rintro ⟨c, h⟩
    revert h
    fun_cases move V n t mem th c <;> intro h
    case case1 op hop => cases h; exact .call hop
    case case3 => exact move_of_step h
    case case4 => exact move_of_step h
    case case5 r => cases h; exact .ret
    all_goals cases h
  · intro h
    cases h with
    | @call op h => exact ⟨.call op, if_pos h⟩
    | @load role _ k _ _ h | @check role _ _ k _ _ h | @retry role _ _ k _ _ h =>
        exact ⟨.see k, by cases role <;> simp [move, push, pop, step, h]⟩
    | @claim role _ _ _ h =>
        exact ⟨.go, by cases role <;> simp [move, push, pop, step, h]⟩
    | @access role | @store role => exact ⟨.go, by cases role <;> rfl⟩
    | ret => exact ⟨.go, rfl⟩

end Mpmc
end ConcurrentQueues
