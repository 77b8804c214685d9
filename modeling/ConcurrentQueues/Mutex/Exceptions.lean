import ConcurrentQueues.Mutex.Fifo

/-!
# Copies that throw

A section of a mutex queue copies one item, into the container or out of it,
and the copy may throw.  The lock is released on the way out and nobody is
notified.  What the exception leaves behind depends on the order of the copy
and of the bookkeeping around it: `MutexBoostRingBufferQueue` counts the item it
pops before the item was copied out, the other queues after.

A copy assignment that throws may leave anything in its target.  A container of
the standard library or of Boost that throws is as it was before.
-/

namespace ConcurrentQueues

universe u v

open Fifo

/-! ## What an exception leaves behind -/

/-- The data after a copy into the container has thrown, having left some value
in its target, and after a copy out of it has. -/
structure Mutex.Throws (B : Type v) (T : Type u) where
  append : B → T → B
  remove : B → B

section Throws

variable {T : Type u}

/-- `buffer_[tail_] = item` throws before any index moves. -/
def RingBuffer.pushBackThrows (r : RingBuffer T) (left : T) : RingBuffer T where
  buffer := r.buffer.set r.tail left
  head := r.head
  tail := r.tail
  size := r.size
  size_le := by
    rw [List.length_set]
    exact r.size_le

/-- `item = buffer_.front()` throws before `buffer_.pop_front()`. -/
def MutexRingBufferQueue.throws (T : Type u) :
    Mutex.Throws (MutexRingBufferQueue T) T where
  append q left := { q with buffer := q.buffer.pushBackThrows left }
  remove q := q

/-- `m_container.push_front(item)` throws before `++m_unread`, but
`item = m_container[--m_unread]` after `--m_unread`. -/
def MutexBoostRingBufferQueue.throws (T : Type u) (C : Type v) :
    Mutex.Throws (MutexBoostRingBufferQueue C) T where
  append q _ := q
  remove q := { q with unread := q.unread - 1 }

/-- `emplace_back` has no effect when it throws, and `front` is copied before
`pop_front`. -/
def Mutex.sequenceThrows (T : Type u) : Mutex.Throws (List T) T where
  append b _ := b
  remove b := b

end Throws

namespace Mutex

variable {B : Type v} {T : Type u}

/-- The data a section may leave when its copy throws. -/
inductive Throws.Leaves (x : Throws B T) : Op T → B → B → Prop
  | push (item left : T) (b : B) : Leaves x (.push item) b (x.append b left)
  | tryPush (item left : T) (b : B) :
      Leaves x (.tryPush item) b (x.append b left)
  | pop (b : B) : Leaves x .pop b (x.remove b)
  | tryPop (b : B) : Leaves x .tryPop b (x.remove b)

/-- The sections of a queue whose copies may throw. -/
abbrev throwing (M : Monitor (Op T) B Cond (Res T)) (x : Throws B T) :
    Lts B (Op T × Option (Res T)) :=
  M.interruptible x.Leaves

/-- The calls that returned, with their results. -/
def returned : Op T × Option (Res T) → Option (Op T × Res T)
  | (op, r) => r.map fun r => (op, r)

/-- A section whose copy threw leaves the unread items as they were, and later
calls behave as if it had not been entered, exactly if its operation is safe.
While only safe operations throw, the calls that return are those of a FIFO
queue. -/
structure StrongGuarantee (M : Monitor (Op T) B Cond (Res T)) (x : Throws B T)
    (items : B → List T) (cap : ℕ∞) (safe : Op T → Prop) : Prop where
  unchanged_iff : ∀ tr b op b', (throwing M x).Run tr b →
    (throwing M x).step b (op, none) b' →
      ((items b' = items b ∧
        ∀ later, (∃ c, (throwing M x).Path b' later c) ↔
          ∃ c, (throwing M x).Path b later c) ↔ safe op)
  run_returned : ∀ tr b, (throwing M x).Run tr b →
    (∀ op, (op, none) ∈ tr → safe op) →
      (Fifo.object T cap).sequential.Run (tr.filterMap returned) (items b)

/-! ## Containers and their exceptions -/

/-- The guard of a section lets it run where the container has room, or an
item. -/
def Enters (M : Monitor (Op T) B Cond (Res T)) (k : Container B T) : Prop :=
  ∀ op b, (M.code op).guard.passes b =
    if op.takes then !k.empty b else !k.full b

theorem enters_bounded (k : Container B T) (b₀ : B) :
    Enters ⟨b₀, calls (waitingPush k) (failingPush k)
      (waitingPop k (some .notFull)) (failingPop k (some .notFull))⟩ k := by
  intro op b
  cases op <;> rfl

theorem enters_unbounded (k : Container B T) (hfull : ∀ b, k.full b = false)
    (b₀ : B) :
    Enters ⟨b₀, calls (freePush k) (freePush k) (waitingPop k none)
      (failingPop k none)⟩ k := by
  intro op b
  cases op with
  | push item | tryPush item =>
      simp [calls, freePush, Guard.passes, Op.takes, hfull b]
  | pop | tryPop => rfl

/-- What exceptions do to the list of unread items: those of a push nothing,
those of a pop `lost`. -/
structure Loses (k : Container B T) (x : Throws B T) (rep : B → List T → Prop)
    (lost : List T → List T) : Prop where
  append : ∀ {b l} left, rep b l → k.full b = false → rep (x.append b left) l
  remove : ∀ {b l}, rep b l → k.empty b = false → rep (x.remove b) (lost l)

section Loses

variable {k : Container B T} {cap : ℕ∞} {rep : B → List T → Prop}
  {M : Monitor (Op T) B Cond (Res T)} {x : Throws B T}
  {lost : List T → List T} {b b' : B} {l : List T} {op : Op T}

/-- The list after an exception. -/
theorem Loses.rep_of_leaves (hx : Loses k x rep lost) (hrep : rep b l)
    (hpass : (if op.takes then !k.empty b else !k.full b) = true)
    (hleaves : x.Leaves op b b') :
    rep b' (if op.takes then lost l else l) := by
  cases hleaves with
  | push item left | tryPush item left =>
      exact hx.append left hrep (by simpa [Op.takes] using hpass)
  | pop | tryPop => exact hx.remove hrep (by simpa [Op.takes] using hpass)

/-- An exception is possible wherever the section is. -/
theorem Throws.exists_leaves (x : Throws B T) (op : Op T) (b : B) :
    ∃ b', x.Leaves op b b' := by
  cases op with
  | push item => exact ⟨_, .push item item b⟩
  | tryPush item => exact ⟨_, .tryPush item item b⟩
  | pop => exact ⟨_, .pop b⟩
  | tryPop => exact ⟨_, .tryPop b⟩

/-- Every step from data that represents `l` leads to data that represents the
list after it. -/
theorem Loses.exists_rep (hx : Loses k x rep lost) (h : Represents k cap rep)
    (hM : Calls M k) (hE : Enters M k) (hrep : rep b l)
    {a : Op T × Option (Res T)} (hstep : (throwing M x).step b a b') :
    ∃ l', rep b' l' ∧ ∀ b₂, rep b₂ l →
      ∃ b₂', (throwing M x).step b₂ a b₂' ∧ rep b₂' l' := by
  obtain ⟨op, r | r⟩ := a
  · obtain ⟨hpass, hleaves⟩ := hstep
    rw [hE op b] at hpass
    refine ⟨_, hx.rep_of_leaves hrep hpass hleaves, fun b₂ hrep₂ => ?_⟩
    have hpass₂ : (if op.takes then !k.empty b₂ else !k.full b₂) = true := by
      have hfull := (h.full_iff hrep).trans (h.full_iff hrep₂).symm
      have hempty := (h.empty_iff hrep).trans (h.empty_iff hrep₂).symm
      rwa [← Bool.eq_iff_iff.mpr hfull, ← Bool.eq_iff_iff.mpr hempty]
    obtain ⟨b₂', hleaves₂⟩ := x.exists_leaves op b₂
    exact ⟨b₂', ⟨(hE op b₂).trans hpass₂, hleaves₂⟩,
      hx.rep_of_leaves hrep₂ hpass₂ hleaves₂⟩
  · obtain ⟨l', happly, hrep'⟩ :=
      h.apply_of_call hrep ((hM op b).symm.trans hstep)
    refine ⟨l', hrep', fun b₂ hrep₂ => ?_⟩
    obtain ⟨b₂', hcall, hrep₂'⟩ := h.call_of_apply hrep₂ happly
    exact ⟨b₂', (hM op b₂).trans hcall, hrep₂'⟩

/-- Data with the same unread items have the same future. -/
theorem Loses.exists_path (hx : Loses k x rep lost) (h : Represents k cap rep)
    (hM : Calls M k) (hE : Enters M k) {b₂ : B} (hrep : rep b l)
    (hrep₂ : rep b₂ l) {later : List (Op T × Option (Res T))}
    (hpath : ∃ c, (throwing M x).Path b later c) :
    ∃ c, (throwing M x).Path b₂ later c := by
  obtain ⟨c, hpath⟩ := hpath
  obtain ⟨c', hpath', -⟩ := Lts.Path.follow (A := throwing M x)
    (R := fun b b₂ => ∃ l, rep b l ∧ rep b₂ l)
    (by
      rintro b a b' b₂ ⟨l, hrep, hrep₂⟩ hstep
      obtain ⟨l', hrep', hall⟩ := hx.exists_rep h hM hE hrep hstep
      obtain ⟨b₂', hstep₂, hrep₂'⟩ := hall b₂ hrep₂
      exact ⟨b₂', hstep₂, l', hrep', hrep₂'⟩)
    ⟨l, hrep, hrep₂⟩ hpath
  exact ⟨c', hpath'⟩

theorem Loses.rep_of_run (hx : Loses k x rep lost) (h : Represents k cap rep)
    (hM : Calls M k) (hE : Enters M k) (hinit : rep M.init [])
    {tr : List (Op T × Option (Res T))} (hrun : (throwing M x).Run tr b) :
    ∃ l, rep b l := by
  refine Lts.Run.induction (P := fun _ b => ∃ l, rep b l) ⟨[], hinit⟩ ?_ hrun
  rintro tr b a b' - ⟨l, hrep⟩ hstep
  obtain ⟨l', hrep', -⟩ := hx.exists_rep h hM hE hrep hstep
  exact ⟨l', hrep'⟩

/-- The operations whose exceptions lose nothing. -/
structure Loses.Safe (lost : List T → List T) (safe : Op T → Prop) : Prop where
  of_puts : ∀ op : Op T, op.takes = false → safe op
  of_takes : ∀ (op : Op T) l, op.takes = true → l ≠ [] →
    (lost l = l ↔ safe op)

variable {safe : Op T → Prop}

theorem Loses.rep_of_throw (hx : Loses k x rep lost)
    (hsafe : Loses.Safe lost safe) (h : Represents k cap rep)
    (hE : Enters M k) (hrep : rep b l)
    (hstep : (throwing M x).step b (op, none) b') :
    ∃ l', rep b' l' ∧ (l' = l ↔ safe op) := by
  obtain ⟨hpass, hleaves⟩ := hstep
  rw [hE op b] at hpass
  have hrep' := hx.rep_of_leaves hrep hpass hleaves
  cases hop : op.takes with
  | false =>
      simp only [hop, Bool.false_eq_true, if_false] at hrep'
      exact ⟨l, hrep', iff_of_true rfl (hsafe.of_puts op hop)⟩
  | true =>
      simp only [hop, if_true, Bool.not_eq_true'] at hrep' hpass
      obtain ⟨y, l', rfl⟩ := h.exists_cons hrep hpass
      exact ⟨_, hrep', hsafe.of_takes op _ hop (List.cons_ne_nil _ _)⟩

theorem Loses.run_returned (hx : Loses k x rep lost)
    (hsafe : Loses.Safe lost safe) (h : Represents k cap rep) (hM : Calls M k)
    (hE : Enters M k) (hinit : rep M.init [])
    {tr : List (Op T × Option (Res T))} (hrun : (throwing M x).Run tr b)
    (hall : ∀ op, (op, none) ∈ tr → safe op) :
    ∃ l, rep b l ∧
      (Fifo.object T cap).sequential.Run (tr.filterMap returned) l := by
  revert hall
  refine Lts.Run.induction (P := fun tr b =>
    (∀ op, (op, none) ∈ tr → safe op) → ∃ l, rep b l ∧
      (Fifo.object T cap).sequential.Run (tr.filterMap returned) l) ?_ ?_ hrun
  · exact fun _ => ⟨[], hinit, Lts.Run.init⟩
  · rintro tr b ⟨op, r | r⟩ b' - ih hstep hall
    · obtain ⟨l, hrep, hrun'⟩ :=
        ih fun op hop => hall op (List.mem_append_left _ hop)
      obtain ⟨l', hrep', hsame⟩ := hx.rep_of_throw hsafe h hE hrep hstep
      obtain rfl := hsame.mpr (hall op (by simp))
      have hnone : [((op, none) : Op T × Option (Res T))].filterMap returned =
        [] := rfl
      rw [List.filterMap_append, hnone, List.append_nil]
      exact ⟨l', hrep', hrun'⟩
    · obtain ⟨l, hrep, hrun'⟩ :=
        ih fun op hop => hall op (List.mem_append_left _ hop)
      obtain ⟨l', happly, hrep'⟩ :=
        h.apply_of_call hrep ((hM op b).symm.trans hstep)
      refine ⟨l', hrep', ?_⟩
      rw [List.filterMap_append]
      exact hrun'.tail happly

theorem Loses.strongGuarantee {items : B → List T} (hx : Loses k x rep lost)
    (hsafe : Loses.Safe lost safe) (h : Represents k cap rep) (hM : Calls M k)
    (hE : Enters M k) (hinit : rep M.init [])
    (hitems : ∀ b l, rep b l → items b = l) :
    StrongGuarantee M x items cap safe where
  unchanged_iff := by
    intro tr b op b' hrun hstep
    obtain ⟨l, hrep⟩ := hx.rep_of_run h hM hE hinit hrun
    obtain ⟨l', hrep', hsame⟩ := hx.rep_of_throw hsafe h hE hrep hstep
    rw [hitems b l hrep, hitems b' l' hrep', ← hsame]
    constructor
    · exact And.left
    · rintro rfl
      exact ⟨rfl, fun later => ⟨hx.exists_path h hM hE hrep' hrep,
        hx.exists_path h hM hE hrep hrep'⟩⟩
  run_returned := by
    intro tr b hrun hall
    obtain ⟨l, hrep, hrun'⟩ := hx.run_returned hsafe h hM hE hinit hrun hall
    rwa [hitems b l hrep]

/-- Where no exception loses anything every operation is safe. -/
theorem Loses.safe_id : Loses.Safe (id : List T → List T) fun _ => True where
  of_puts := fun _ _ => trivial
  of_takes := fun _ _ _ _ => iff_of_true rfl trivial

/-- Where that of a pop loses an item, pops are not. -/
theorem Loses.safe_tail :
    Loses.Safe (List.tail : List T → List T) fun op => op.takes = false where
  of_puts := fun _ h => h
  of_takes := by
    intro op l hop hl
    apply iff_of_false
    · intro htail
      have hlen := congrArg List.length htail
      have hpos := List.length_pos_iff.mpr hl
      rw [List.length_tail] at hlen
      omega
    · simp [hop]

end Loses

end Mutex

/-! ## The four queues -/

section Queues

variable {T : Type u}

theorem MutexRingBufferQueue.loses (c : ℕ) :
    Mutex.Loses (container T) (throws T) (fun q l => q.buffer.Holds c l) id where
  append := by
    intro q l left h hroom
    have hlt : q.buffer.size < c := (RingBuffer.size_lt hroom).trans_eq h.capacity_eq
    refine ⟨?_, h.head_lt, h.tail_eq, ?_⟩
    · rw [← h.capacity_eq]
      exact List.length_set
    · rw [RingBuffer.items_eq_iff]
      refine ⟨h.length_eq, fun i hi => ?_⟩
      have hi' : i < q.buffer.size := hi
      have hslot := h.append_getElem? left hi'.le (by omega)
      rw [List.getElem?_append_left (hi'.trans_eq h.length_eq.symm)] at hslot
      rw [← hslot]
      simp only [throws, RingBuffer.pushBackThrows, RingBuffer.capacity,
        List.length_set]
      rw [← h.capacity_eq]
      rfl
  remove := fun h _ => h

theorem MutexBoostRingBufferQueue.loses {C : Type v} (cb : CircularBuffer T C)
    (c : ℕ) :
    Mutex.Loses (operations cb) (throws T C) (fun q l => q.Holds cb c l)
      List.tail where
  append := fun _ h _ => h
  remove := by
    intro q l h hitem
    obtain ⟨x, l', rfl⟩ := (represents cb c).exists_cons h hitem
    exact h.remove.2

theorem Mutex.sequence_represents :
    Represents (sequence T) ⊤ fun b l => b = l where
  length_le := fun _ => le_top
  full_iff := by
    intro b l _
    simp [sequence]
  empty_iff := by
    rintro b l rfl
    exact List.isEmpty_iff
  append := by
    rintro b l item rfl _
    rfl
  remove := by
    rintro b item l rfl
    exact ⟨rfl, rfl⟩

theorem Mutex.sequence_loses :
    Loses (sequence T) (sequenceThrows T) (fun b l => b = l) id where
  append := fun _ h _ => h
  remove := fun h _ => h

end Queues

/-- In every state a queue can reach, a copy that throws leaves the unread items
alone, unless `MutexBoostRingBufferQueue` was popping.  This is about the
contents and the calls that may follow, not about when other waiting calls are
woken. -/
theorem mutex_queues_strong_guarantee_iff (T : Type u) [Inhabited T]
    {C : Type v} (cb : CircularBuffer T C) (c : ℕ) :
    Mutex.StrongGuarantee (MutexRingBufferQueue.monitor T c)
      (MutexRingBufferQueue.throws T) (fun q => q.buffer.items) c
      (fun _ => True) ∧
    Mutex.StrongGuarantee (MutexBoostRingBufferQueue.monitor cb c)
      (MutexBoostRingBufferQueue.throws T C) (fun q => q.items cb) c
      (fun op => op.takes = false) ∧
    Mutex.StrongGuarantee (MutexDequeQueue.monitor T) (Mutex.sequenceThrows T)
      id ⊤ (fun _ => True) ∧
    Mutex.StrongGuarantee (MutexListQueue.monitor T) (Mutex.sequenceThrows T)
      id ⊤ fun _ => True := by
  have hsequence : ∀ b l : List T, b = l → id b = l := fun _ _ h => h
  refine ⟨?_, ?_, ?_, ?_⟩
  · exact (MutexRingBufferQueue.loses c).strongGuarantee Mutex.Loses.safe_id
      (MutexRingBufferQueue.represents c) (MutexRingBufferQueue.calls T c)
      (Mutex.enters_bounded _ _) (RingBuffer.Holds.new c)
      fun _ _ h => h.items_eq
  · exact (MutexBoostRingBufferQueue.loses cb c).strongGuarantee
      Mutex.Loses.safe_tail (MutexBoostRingBufferQueue.represents cb c)
      (MutexBoostRingBufferQueue.calls cb c) (Mutex.enters_bounded _ _)
      (MutexBoostRingBufferQueue.Holds.new cb c) fun _ _ h => h.items_eq
  · exact Mutex.sequence_loses.strongGuarantee Mutex.Loses.safe_id
      Mutex.sequence_represents (Mutex.calls_unbounded _ (fun _ => rfl) [])
      (Mutex.enters_unbounded _ (fun _ => rfl) []) rfl hsequence
  · exact Mutex.sequence_loses.strongGuarantee Mutex.Loses.safe_id
      Mutex.sequence_represents (Mutex.calls_unbounded _ (fun _ => rfl) [])
      (Mutex.enters_unbounded _ (fun _ => rfl) []) rfl hsequence

/-- A pop whose copy throws loses the only item of the queue. -/
theorem boost_pop_throws_loses_item :
    ¬Mutex.StrongGuarantee (MutexBoostRingBufferQueue.monitor (.ofList ℕ) 2)
      (MutexBoostRingBufferQueue.throws ℕ _) (fun q => q.items (.ofList ℕ)) 2
      fun _ => True := by
  intro h
  have hrun : (Mutex.throwing
      (MutexBoostRingBufferQueue.monitor (.ofList ℕ) 2)
      (MutexBoostRingBufferQueue.throws ℕ _)).Run
      [(.push 5, some (.pushed true))] ⟨1, ([5], 2)⟩ :=
    Lts.Run.tail Lts.Run.init rfl
  have hiff := h.unchanged_iff _ _ .pop ⟨0, ([5], 2)⟩ hrun ⟨rfl, .pop _⟩
  have hsame := (hiff.mpr trivial).1
  cases hsame

end ConcurrentQueues
