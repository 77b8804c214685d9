import ConcurrentQueues.Core.DropOldest
import ConcurrentQueues.Mutex.Model
import ConcurrentQueues.Support.Refinement
import ConcurrentQueues.Support.Sections
import Mathlib.Order.Bounds.Basic

/-!
# The queues under a mutex are FIFO queues

A container represents the list of its unread items.  `MutexRingBufferQueue`
moves the indexes of a ring.  `MutexBoostRingBufferQueue` never takes an item
out of its container: the unread items are the first `m_unread` of them, the
oldest one last, and what lies behind them was read and is dropped when the
container runs out of room.
-/

namespace ConcurrentQueues

universe u v w

open Fifo

namespace Mutex

variable {B : Type v} {T : Type u}

/-! ## Containers that represent a list -/

/-- A container in which `rep` finds the list of unread items. -/
structure Represents (k : Container B T) (cap : ℕ∞) (rep : B → List T → Prop) :
    Prop where
  length_le : ∀ {b l}, rep b l → (l.length : ℕ∞) ≤ cap
  full_iff : ∀ {b l}, rep b l → (k.full b = true ↔ (l.length : ℕ∞) = cap)
  empty_iff : ∀ {b l}, rep b l → (k.empty b = true ↔ l = [])
  append : ∀ {b l} item, rep b l → k.full b = false →
    rep (k.append b item) (l ++ [item])
  remove : ∀ {b item l}, rep b (item :: l) →
    (k.remove b).1 = some item ∧ rep (k.remove b).2 l

/-- The critical sections of a queue over the container. -/
def Container.call (k : Container B T) (b : B) : Op T → Option (Res T × B)
  | .push item => if k.full b then none else some (appendItem k item b)
  | .tryPush item =>
      if k.full b then some (.pushed false, b) else some (appendItem k item b)
  | .pop => if k.empty b then none else some (removeItem k b)
  | .tryPop =>
      if k.empty b then some (.popped none, b) else some (removeItem k b)

/-- What a section that does not wait may do. -/
inductive Container.Section (k : Container B T) (b : B) :
    Op T → Res T → B → Prop
  | push (item : T) (hroom : k.full b = false) :
      Section k b (.push item) (.pushed true) (k.append b item)
  | tryPush (item : T) (hroom : k.full b = false) :
      Section k b (.tryPush item) (.pushed true) (k.append b item)
  | full (item : T) (hfull : k.full b = true) :
      Section k b (.tryPush item) (.pushed false) b
  | pop (hitem : k.empty b = false) :
      Section k b .pop (.popped (k.remove b).1) (k.remove b).2
  | tryPop (hitem : k.empty b = false) :
      Section k b .tryPop (.popped (k.remove b).1) (k.remove b).2
  | empty (hempty : k.empty b = true) : Section k b .tryPop (.popped none) b

theorem Container.section_of_call {k : Container B T} {b b' : B} {op : Op T}
    {r : Res T} (h : k.call b op = some (r, b')) : k.Section b op r b' := by
  cases op with
  | push item | tryPush item =>
      cases hb : k.full b with
      | true =>
          simp only [call, hb, if_true, reduceCtorEq, Option.some.injEq,
            Prod.mk.injEq] at h
          all_goals
            obtain ⟨rfl, rfl⟩ := h
            exact .full item hb
      | false =>
          simp only [call, appendItem, hb, Bool.false_eq_true, if_false,
            Option.some.injEq, Prod.mk.injEq] at h
          obtain ⟨rfl, rfl⟩ := h
          constructor
          exact hb
  | pop | tryPop =>
      cases hb : k.empty b with
      | true =>
          simp only [call, hb, if_true, reduceCtorEq, Option.some.injEq,
            Prod.mk.injEq] at h
          all_goals
            obtain ⟨rfl, rfl⟩ := h
            exact .empty hb
      | false =>
          simp only [call, removeItem, hb, Bool.false_eq_true, if_false,
            Option.some.injEq, Prod.mk.injEq] at h
          obtain ⟨rfl, rfl⟩ := h
          constructor
          exact hb

/-- The sections of a monitor are those of a queue over the container. -/
def Calls (M : Monitor (Op T) B Cond (Res T)) (k : Container B T) : Prop :=
  ∀ op b, (M.code op).run b = k.call b op

theorem calls_bounded (k : Container B T) (b₀ : B) :
    Calls ⟨b₀, calls (waitingPush k) (failingPush k)
      (waitingPop k (some .notFull)) (failingPop k (some .notFull))⟩ k := by
  intro op b
  cases op with
  | push item | tryPush item =>
      cases hb : k.full b <;>
        simp [calls, waitingPush, failingPush, Critical.run, Container.call, hb]
  | pop | tryPop =>
      cases hb : k.empty b <;>
        simp [calls, waitingPop, failingPop, Critical.run, Container.call, hb]

theorem calls_unbounded (k : Container B T) (hfull : ∀ b, k.full b = false)
    (b₀ : B) :
    Calls ⟨b₀, calls (freePush k) (freePush k) (waitingPop k none)
      (failingPop k none)⟩ k := by
  intro op b
  cases op with
  | push item | tryPush item =>
      simp [calls, freePush, Critical.run, Container.call, hfull b]
  | pop | tryPop =>
      cases hb : k.empty b <;>
        simp [calls, waitingPop, failingPop, Critical.run, Container.call, hb]

section Represents

variable {k : Container B T} {cap : ℕ∞} {rep : B → List T → Prop} {b b' : B}
  {l l' : List T} {op : Op T} {r : Res T}

theorem Represents.lt_of_room (h : Represents k cap rep) (hrep : rep b l)
    (hroom : k.full b = false) : (l.length : ℕ∞) < cap := by
  apply lt_of_le_of_ne (h.length_le hrep)
  intro heq
  simp [(h.full_iff hrep).mpr heq] at hroom

theorem Represents.room_of_lt (h : Represents k cap rep) (hrep : rep b l)
    (hlt : (l.length : ℕ∞) < cap) : k.full b = false := by
  apply Bool.eq_false_of_not_eq_true
  intro hfull
  exact hlt.ne ((h.full_iff hrep).mp hfull)

theorem Represents.exists_cons (h : Represents k cap rep) (hrep : rep b l)
    (hitem : k.empty b = false) : ∃ x l', l = x :: l' := by
  apply List.exists_cons_of_ne_nil
  intro hnil
  simp [(h.empty_iff hrep).mpr hnil] at hitem

theorem Represents.item_of_cons (h : Represents k cap rep) {x : T}
    (hrep : rep b (x :: l)) : k.empty b = false := by
  apply Bool.eq_false_of_not_eq_true
  intro hempty
  cases (h.empty_iff hrep).mp hempty

/-- What a section does to the container it does to the list. -/
theorem Represents.apply_of_call (h : Represents k cap rep) (hrep : rep b l)
    (hcall : k.call b op = some (r, b')) :
    ∃ l', Apply cap l op r l' ∧ rep b' l' := by
  cases Container.section_of_call hcall with
  | push item hroom =>
      exact ⟨_, .push (h.lt_of_room hrep hroom), h.append item hrep hroom⟩
  | tryPush item hroom =>
      exact ⟨_, .tryPush (h.lt_of_room hrep hroom), h.append item hrep hroom⟩
  | full item hfull => exact ⟨l, .full ((h.full_iff hrep).mp hfull), hrep⟩
  | pop hitem =>
      obtain ⟨x, l', rfl⟩ := h.exists_cons hrep hitem
      obtain ⟨hx, hrest⟩ := h.remove hrep
      rw [hx]
      exact ⟨l', .pop, hrest⟩
  | tryPop hitem =>
      obtain ⟨x, l', rfl⟩ := h.exists_cons hrep hitem
      obtain ⟨hx, hrest⟩ := h.remove hrep
      rw [hx]
      exact ⟨l', .tryPop, hrest⟩
  | empty hempty =>
      obtain rfl := (h.empty_iff hrep).mp hempty
      exact ⟨[], .empty, hrep⟩

/-- What may be done to the list the section does to the container. -/
theorem Represents.call_of_apply (h : Represents k cap rep) (hrep : rep b l)
    (happly : Apply cap l op r l') :
    ∃ b', k.call b op = some (r, b') ∧ rep b' l' := by
  cases happly with
  | push hlt =>
      have hroom := h.room_of_lt hrep hlt
      exact ⟨_, if_neg (by simp [hroom]), h.append _ hrep hroom⟩
  | tryPush hlt =>
      have hroom := h.room_of_lt hrep hlt
      exact ⟨_, if_neg (by simp [hroom]), h.append _ hrep hroom⟩
  | full heq => exact ⟨b, if_pos ((h.full_iff hrep).mpr heq), hrep⟩
  | pop | tryPop =>
      obtain ⟨hitem, hrest⟩ := h.remove hrep
      refine ⟨(k.remove b).2, ?_, hrest⟩
      rw [← hitem]
      exact if_neg (by simp [h.item_of_cons hrep])
  | empty => exact ⟨b, if_pos ((h.empty_iff hrep).mpr rfl), hrep⟩

variable {M : Monitor (Op T) B Cond (Res T)}

/-- A monitor over such a container has the runs of a FIFO queue only, -/
theorem Represents.refines (h : Represents k cap rep) (hM : Calls M k)
    (hinit : rep M.init []) : M.object.Refines (Fifo.object T cap) rep where
  init := hinit
  apply := by
    intro b b' l op r hrep hrun
    exact h.apply_of_call hrep ((hM op b).symm.trans hrun)

/-- and all of them. -/
theorem Represents.refined (h : Represents k cap rep) (hM : Calls M k)
    (hinit : rep M.init []) :
    (Fifo.object T cap).Refines M.object fun l b => rep b l where
  init := hinit
  apply := by
    intro l l' b op r hrep happly
    obtain ⟨b', hcall, hrep'⟩ := h.call_of_apply hrep happly
    exact ⟨b', (hM op b).trans hcall, hrep'⟩

/-- Sections have the results that the operations on the list have. -/
theorem runs_iff (h : Represents k cap rep) (hM : Calls M k)
    (hinit : rep M.init []) (tr : List (Op T × Res T)) :
    (∃ b, M.object.sequential.Run tr b) ↔
      ∃ l, (Fifo.object T cap).sequential.Run tr l := by
  constructor
  · rintro ⟨b, hrun⟩
    obtain ⟨l, hrun', -⟩ := (h.refines hM hinit).sequential_run hrun
    exact ⟨l, hrun'⟩
  · rintro ⟨l, hrun⟩
    obtain ⟨b, hrun', -⟩ := (h.refined hM hinit).sequential_run hrun
    exact ⟨b, hrun'⟩

/-- Same sections, same items. -/
theorem rep_of_runs (h : Represents k cap rep) (hM : Calls M k)
    (hinit : rep M.init []) {tr : List (Op T × Res T)}
    (hrun : M.object.sequential.Run tr b)
    (hrun' : (Fifo.object T cap).sequential.Run tr l) : rep b l := by
  obtain ⟨b', hrun'', hrep⟩ := (h.refined hM hinit).sequential_run hrun'
  rwa [M.sequential_unique hrun hrun'']

end Represents

/-- The threads of the monitor stand in their calls as those of the object do,
and the data holds the unread items of the object. -/
def Follows {ι : Type w} (rep : B → List T → Prop)
    (s : Monitor.State ι (Op T) B Cond (Res T))
    (a : Pool ι (List T) (Phase (Op T) (Res T))) : Prop :=
  (∀ t, a.threads t = (s.threads t).phase) ∧ rep s.shared.data a.shared

/-- Any number of threads may call the monitor. -/
theorem Represents.implements {k : Container B T} {cap : ℕ∞}
    {rep : B → List T → Prop} {M : Monitor (Op T) B Cond (Res T)}
    (h : Represents k cap rep) (hM : Calls M k) (hinit : rep M.init [])
    (ι : Type w) [DecidableEq ι] :
    (Fifo.object T cap).Implements (M.system ι) Monitor.shown
      fun _ => Follows rep := by
  intro tr s hrun
  obtain ⟨tr', a, hrun', htr, q, hview, hrep⟩ :=
    (M.implements_object ι).refine (h.refines hM hinit) tr s hrun
  obtain rfl : q = s.shared.data := congrArg Pool.shared hview
  have hthreads : a.threads = fun t => (s.threads t).phase :=
    congrArg Pool.threads hview
  exact ⟨tr', a, hrun', htr, fun t => congrFun hthreads t, hrep⟩

/-! ## What callers find -/

/-- The four calls on data with the unread items `l`, of a queue with room for
`c` items. -/
structure Behaves (M : Monitor (Op T) B Cond (Res T)) (c : ℕ) (b : B)
    (l : List T) : Prop where
  length_le : l.length ≤ c
  result_eq : ∀ op, ((M.code op).run b).map Prod.fst =
    (Fifo.call c l op).map Prod.fst
  push_waits : ∀ item, (M.code (.push item)).run b = none ↔ l.length = c
  tryPush_fails : ∀ item,
    (M.code (.tryPush item)).run b = some (.pushed false, b) ↔ l.length = c
  pop_waits : (M.code .pop).run b = none ↔ l = []
  tryPop_fails : (M.code .tryPop).run b = some (.popped none, b) ↔ l = []

theorem Represents.behaves {k : Container B T} {c : ℕ}
    {rep : B → List T → Prop} {M : Monitor (Op T) B Cond (Res T)} {b : B}
    {l : List T} (h : Represents k c rep) (hM : Calls M k) (hrep : rep b l) :
    Behaves M c b l := by
  have hle : l.length ≤ c := by exact_mod_cast h.length_le hrep
  have hfull : k.full b = true ↔ l.length = c := by
    exact_mod_cast h.full_iff hrep
  have hempty := h.empty_iff hrep
  refine ⟨hle, ?_, ?_, ?_, ?_, ?_⟩
  · intro op
    rw [hM op b]
    rcases hcall : k.call b op with _ | ⟨r, b'⟩
    · rcases hfifo : Fifo.call c l op with _ | ⟨r, l'⟩
      · rfl
      · have happly := (Fifo.call_eq_some_iff hle).mp hfifo
        obtain ⟨b', hcall', -⟩ := h.call_of_apply hrep happly
        cases hcall.symm.trans hcall'
    · obtain ⟨l', happly, -⟩ := h.apply_of_call hrep hcall
      rw [(Fifo.call_eq_some_iff hle).mpr happly]
      rfl
  · intro item
    rw [hM, ← hfull]
    simp [Container.call]
  · intro item
    rw [hM, ← hfull]
    simp [Container.call, appendItem]
  · rw [hM, ← hempty]
    simp [Container.call]
  · rw [hM, ← hempty]
    cases hitem : k.empty b with
    | true => simp [Container.call, hitem]
    | false =>
        obtain ⟨x, l', rfl⟩ := h.exists_cons hrep hitem
        simp [Container.call, removeItem, hitem, (h.remove hrep).1]

end Mutex

/-! ## `MutexRingBufferQueue` -/

namespace MutexRingBufferQueue

variable {T : Type u}

/-- The unread items are those of the ring. -/
theorem represents (c : ℕ) :
    Mutex.Represents (container T) c fun q l => q.buffer.Holds c l where
  length_le := by
    intro q l h
    exact_mod_cast h.length_eq.trans_le h.size_le
  full_iff := by
    intro q l h
    exact_mod_cast h.full_iff
  empty_iff := fun h => h.empty_iff
  append := by
    intro q l item h hroom
    have hlt : l.length < c := by
      rw [h.length_eq, ← h.capacity_eq]
      exact RingBuffer.size_lt hroom
    have hpush := h.pushBack (by omega) item
    have hzero : (l ++ [item]).length - c = 0 := by
      rw [List.length_append, List.length_singleton]
      omega
    rwa [List.rtake, hzero, List.drop_zero] at hpush
  remove := fun h =>
    ⟨h.front_eq (List.cons_ne_nil _ _), h.popFront (List.cons_ne_nil _ _)⟩

theorem calls (T : Type u) [Inhabited T] (c : ℕ) :
    Mutex.Calls (monitor T c) (container T) :=
  Mutex.calls_bounded (container T) (new c)

/-- What a section does to the greatest size is what it does to the size. -/
theorem maxSize_of_call {q q' : MutexRingBufferQueue T} {op : Op T} {r : Res T}
    (hcall : (container T).call q op = some (r, q'))
    (hle : q.buffer.size ≤ q.maxSize) :
    q'.maxSize = max q'.buffer.size q.maxSize := by
  cases Mutex.Container.section_of_call hcall with
  | push item | tryPush item => exact max_comm _ _
  | full | empty => exact (max_eq_right hle).symm
  | pop | tryPop =>
      have hless : q.buffer.size - 1 ≤ q.maxSize := by omega
      exact (max_eq_right hless).symm

/-- The greatest size is that of some moment, and of no moment was it
greater. -/
theorem maxSize_isGreatest [Inhabited T] {c : ℕ} {tr : List (Op T × Res T)}
    {q : MutexRingBufferQueue T}
    (hrun : (monitor T c).object.sequential.Run tr q) :
    IsGreatest {n | (monitor T c).object.sequential.Since (fun _ => False)
      (fun q => q.buffer.size = n) tr q} q.maxSize := by
  refine Lts.Run.induction (P := fun tr q =>
    IsGreatest {n | (monitor T c).object.sequential.Since (fun _ => False)
      (fun q => q.buffer.size = n) tr q} q.maxSize) ?_ ?_ hrun
  · refine ⟨Lts.Since.now Lts.Run.init rfl, ?_⟩
    rintro n ⟨tr₁, tr₂, m, hnil, -, hpath, -, rfl⟩
    obtain ⟨rfl, rfl⟩ := List.append_eq_nil_iff.mp hnil.symm
    rw [← Lts.Path.eq_of_nil hpath]
    exact le_rfl
  · rintro tr q ⟨op, r⟩ q' hrun ih hstep
    have hle : q.buffer.size ≤ q.maxSize := ih.2 (Lts.Since.now hrun rfl)
    rw [maxSize_of_call ((calls T c op q).symm.trans hstep) hle]
    have hset : {n | (monitor T c).object.sequential.Since (fun _ => False)
        (fun q => q.buffer.size = n) (tr ++ [(op, r)]) q'} =
        insert q'.buffer.size {n | (monitor T c).object.sequential.Since
          (fun _ => False) (fun q => q.buffer.size = n) tr q} := by
      apply Set.Subset.antisymm
      · intro n hn
        rcases Lts.Since.of_tail hn with hnow | ⟨m, hbefore, -, -⟩
        · exact Or.inl hnow.symm
        · rw [(monitor T c).sequential_unique hrun hbefore.run]
          exact Or.inr hbefore
      · rintro n (rfl | hbefore)
        · exact Lts.Since.now (hrun.tail hstep) rfl
        · exact Lts.Since.tail hbefore hstep id
    rw [hset]
    exact ih.insert q'.buffer.size

end MutexRingBufferQueue

/-! ## `MutexBoostRingBufferQueue` -/

namespace MutexBoostRingBufferQueue

variable {T : Type u} {C : Type v} {cb : CircularBuffer T C}

/-- The unread items, oldest first. -/
def items (cb : CircularBuffer T C) (q : MutexBoostRingBufferQueue C) :
    List T :=
  ((cb.items q.container).take q.unread).reverse

/-- The unread items are in a container of `c` items. -/
structure Holds (cb : CircularBuffer T C) (q : MutexBoostRingBufferQueue C)
    (c : ℕ) (l : List T) : Prop where
  capacity_eq : cb.capacity q.container = c
  unread_le : q.unread ≤ (cb.items q.container).length
  length_le : (cb.items q.container).length ≤ c
  items_eq : q.items cb = l

namespace Holds

variable {q : MutexBoostRingBufferQueue C} {c : ℕ} {l : List T}

theorem length_eq (h : q.Holds cb c l) : l.length = q.unread := by
  rw [← h.items_eq, items, List.length_reverse, List.length_take]
  exact Nat.min_eq_left h.unread_le

theorem new (cb : CircularBuffer T C) (c : ℕ) :
    (MutexBoostRingBufferQueue.new cb c).Holds cb c [] where
  capacity_eq := cb.capacity_new c
  unread_le := Nat.zero_le _
  length_le := by
    change (cb.items (cb.new c)).length ≤ c
    rw [cb.items_new]
    exact Nat.zero_le c
  items_eq := rfl

/-- The item in front pushes at most an item out that was read. -/
theorem append_take (h : q.Holds cb c l) (hroom : q.unread < c) (item : T) :
    (cb.items (q.append cb item).container).take (q.unread + 1) =
      item :: (cb.items q.container).take q.unread := by
  rw [MutexBoostRingBufferQueue.append, cb.items_pushFront, h.capacity_eq,
    List.take_take, Nat.min_eq_left hroom, List.take_succ_cons]

theorem append (h : q.Holds cb c l) (hroom : q.unread < c) (item : T) :
    (q.append cb item).Holds cb c (l ++ [item]) where
  capacity_eq := (cb.capacity_pushFront _ _).trans h.capacity_eq
  unread_le := by
    have hle := h.unread_le
    simp only [MutexBoostRingBufferQueue.append, cb.items_pushFront,
      h.capacity_eq, List.length_take, List.length_cons]
    omega
  length_le := by
    simp only [MutexBoostRingBufferQueue.append, cb.items_pushFront,
      h.capacity_eq, List.length_take]
    exact Nat.min_le_left _ _
  items_eq := by
    have hunread : (q.append cb item).unread = q.unread + 1 := rfl
    rw [items, hunread, h.append_take hroom, List.reverse_cons, ← h.items_eq,
      items]

/-- The oldest unread item is the last of the first `m_unread`. -/
theorem remove {item : T} (h : q.Holds cb c (item :: l)) :
    (q.remove cb).1 = some item ∧ (q.remove cb).2.Holds cb c l := by
  obtain ⟨n, hn⟩ : ∃ n, q.unread = n + 1 := ⟨l.length, h.length_eq.symm⟩
  have hlt : n < (cb.items q.container).length := by
    have hle := h.unread_le
    omega
  have hitems := h.items_eq
  rw [items, hn, List.take_succ_eq_append_getElem hlt, List.reverse_append,
    List.reverse_singleton, List.singleton_append, List.cons.injEq] at hitems
  obtain ⟨hitem, hrest⟩ := hitems
  simp only [MutexBoostRingBufferQueue.remove, hn, Nat.add_sub_cancel]
  refine ⟨?_, h.capacity_eq, hlt.le, h.length_le, hrest⟩
  rw [List.getElem?_eq_getElem hlt, hitem]

end Holds

theorem represents (cb : CircularBuffer T C) (c : ℕ) :
    Mutex.Represents (operations cb) c fun q l => q.Holds cb c l where
  length_le := by
    intro q l h
    exact_mod_cast h.length_eq.trans_le (h.unread_le.trans h.length_le)
  full_iff := by
    intro q l h
    have hle := h.unread_le.trans h.length_le
    simp only [operations, isNotFull, Bool.not_eq_true', decide_eq_false_iff_not,
      h.capacity_eq, h.length_eq, Nat.cast_inj]
    omega
  empty_iff := by
    intro q l h
    simp only [operations, isNotEmpty, Bool.not_eq_true',
      decide_eq_false_iff_not, ← h.length_eq, ← List.length_eq_zero_iff]
    omega
  append := by
    intro q l item h hroom
    simp only [operations, isNotFull, Bool.not_eq_false', decide_eq_true_eq,
      h.capacity_eq] at hroom
    exact h.append hroom item
  remove := fun h => h.remove

theorem calls (cb : CircularBuffer T C) (c : ℕ) :
    Mutex.Calls (monitor cb c) (operations cb) :=
  Mutex.calls_bounded (operations cb) (new cb c)

end MutexBoostRingBufferQueue

/-! ## The two bounded queues -/

/-- `MutexRingBufferQueue` after the sections of `tr`, which left the items
`l` unread. -/
structure MutexRingBufferQueue.Agrees {T : Type u} [Inhabited T] (c : ℕ)
    (tr : List (Op T × Res T)) (q : MutexRingBufferQueue T) (l : List T) :
    Prop where
  items_eq : q.buffer.items = l
  behaves : Mutex.Behaves (monitor T c) c q l
  maxSize_isGreatest :
    IsGreatest {n | (monitor T c).object.sequential.Since (fun _ => False)
      (fun q => q.buffer.items.length = n) tr q} q.maxSize

/-- `MutexBoostRingBufferQueue` with the unread items `l`.  No item leaves the
container when it is popped, and no unread item when one is pushed. -/
structure MutexBoostRingBufferQueue.Agrees {T : Type u} {C : Type v}
    (cb : CircularBuffer T C) (c : ℕ) (q : MutexBoostRingBufferQueue C)
    (l : List T) : Prop where
  items_eq : q.items cb = l
  behaves : Mutex.Behaves (monitor cb c) c q l
  remove_container : (q.remove cb).2.container = q.container
  append_items : l.length < c → ∀ item,
    (cb.items (q.append cb item).container).take (q.append cb item).unread =
      item :: (cb.items q.container).take q.unread

/-- The sections of the two bounded queues, in whatever order threads enter
them, are those of one FIFO queue, and all that threads calling a queue see is
the results of such sections. -/
theorem mutex_ring_queues_are_fifo (ι : Type w) [DecidableEq ι] (T : Type u)
    [Inhabited T] {C : Type v} (cb : CircularBuffer T C) (c : ℕ) :
    (∀ tr, (∃ q, (MutexRingBufferQueue.monitor T c).object.sequential.Run tr q) ↔
      ∃ l, (Fifo.object T c).sequential.Run tr l) ∧
    (∀ tr, (∃ q,
        (MutexBoostRingBufferQueue.monitor cb c).object.sequential.Run tr q) ↔
      ∃ l, (Fifo.object T c).sequential.Run tr l) ∧
    (∀ tr l, (Fifo.object T c).sequential.Run tr l →
      (∀ q, (MutexRingBufferQueue.monitor T c).object.sequential.Run tr q →
        q.Agrees c tr l) ∧
      ∀ q, (MutexBoostRingBufferQueue.monitor cb c).object.sequential.Run tr q →
        q.Agrees cb c l) ∧
    (Fifo.object T c).Implements ((MutexRingBufferQueue.monitor T c).system ι)
      Monitor.shown (fun _ => Mutex.Follows fun q l => q.buffer.items = l) ∧
    (Fifo.object T c).Implements
      ((MutexBoostRingBufferQueue.monitor cb c).system ι) Monitor.shown
      fun _ => Mutex.Follows fun q l => q.items cb = l := by
  have hring := MutexRingBufferQueue.represents (T := T) c
  have hcalls := MutexRingBufferQueue.calls T c
  have hnew := RingBuffer.Holds.new (T := T) c
  have hboost := MutexBoostRingBufferQueue.represents cb c
  have hcalls' := MutexBoostRingBufferQueue.calls cb c
  have hnew' := MutexBoostRingBufferQueue.Holds.new cb c
  refine ⟨?_, ?_, fun tr l hrun => ⟨fun q hq => ?_, fun q hq => ?_⟩, ?_, ?_⟩
  · exact fun tr => Mutex.runs_iff hring hcalls hnew tr
  · exact fun tr => Mutex.runs_iff hboost hcalls' hnew' tr
  · have hrep := Mutex.rep_of_runs hring hcalls hnew hq hrun
    refine ⟨hrep.items_eq, hring.behaves hcalls hrep, ?_⟩
    simp only [RingBuffer.items_length]
    exact MutexRingBufferQueue.maxSize_isGreatest hq
  · have hrep := Mutex.rep_of_runs hboost hcalls' hnew' hq hrun
    refine ⟨hrep.items_eq, hboost.behaves hcalls' hrep, rfl, fun hlt item => ?_⟩
    rw [hrep.length_eq] at hlt
    exact hrep.append_take hlt item
  · intro tr s hrun
    obtain ⟨tr', a, hrun', htr, hthreads, hrep⟩ :=
      hring.implements hcalls hnew ι tr s hrun
    exact ⟨tr', a, hrun', htr, hthreads, hrep.items_eq⟩
  · intro tr s hrun
    obtain ⟨tr', a, hrun', htr, hthreads, hrep⟩ :=
      hboost.implements hcalls' hnew' ι tr s hrun
    exact ⟨tr', a, hrun', htr, hthreads, hrep.items_eq⟩

/-- A queue with room for one item, through a push that fails. -/
theorem mutex_ring_queues_are_fifo_oneItem :
    ∃ q, (MutexBoostRingBufferQueue.monitor (.ofList ℕ)
        1).object.sequential.Run
        [(.push 5, .pushed true), (.tryPush 6, .pushed false),
          (.pop, .popped (some 5)), (.tryPush 7, .pushed true)] q ∧
      q.Agrees (.ofList ℕ) 1 [7] := by
  have hrun := Monitor.run_of_exec
    (M := MutexBoostRingBufferQueue.monitor (.ofList ℕ) 1)
    (rfl : Lts.exec _ _ [.push 5, .tryPush 6, .pop, .tryPush 7] = some _)
  obtain ⟨-, hiff, hall, -⟩ := mutex_ring_queues_are_fifo ℕ ℕ (.ofList ℕ) 1
  obtain ⟨l, hl⟩ := (hiff _).mp ⟨_, hrun⟩
  have hagrees := (hall _ l hl).2 _ hrun
  obtain rfl : [7] = l := hagrees.items_eq
  exact ⟨_, hrun, hagrees⟩

end ConcurrentQueues
