import ConcurrentQueues.Mutex.Model

/-!
# No wake-up is lost

A waiting pop waits for items, a waiting push for room.  Each push makes one
item and notifies one pop, each pop of a bounded queue makes room for one item
and notifies one push: items and room are supplies that grow only with a
notification.
-/

namespace ConcurrentQueues

universe u v w

open Fifo

namespace Mutex

variable {B : Type v} {T : Type u}

/-! ## Items and room -/

/-- A count of the items in a container. -/
structure CountsItems (k : Container B T) (items : B → ℕ) : Prop where
  pos_iff : ∀ b, 0 < items b ↔ k.empty b = false
  append : ∀ b item, k.full b = false → items (k.append b item) ≤ items b + 1
  remove : ∀ b, k.empty b = false → items (k.remove b).2 + 1 ≤ items b

/-- A count of the room left in a container. -/
structure CountsRoom (k : Container B T) (room : B → ℕ) : Prop where
  pos_iff : ∀ b, 0 < room b ↔ k.full b = false
  append : ∀ b item, k.full b = false → room (k.append b item) + 1 ≤ room b
  remove : ∀ b, k.empty b = false → room (k.remove b).2 ≤ room b + 1

/-- What the waiters of each condition variable wait for. -/
def supply (items room : B → ℕ) : Cond → B → ℕ
  | .notEmpty => items
  | .notFull => room

section Supplies

variable {k : Container B T} {items room : B → ℕ}

theorem CountsItems.eq_zero_iff (h : CountsItems k items) (b : B) :
    (!k.empty b) = false ↔ items b = 0 := by
  rw [← Nat.le_zero, ← Nat.not_lt, h.pos_iff b]
  simp

theorem CountsRoom.eq_zero_iff (h : CountsRoom k room) (b : B) :
    (!k.full b) = false ↔ room b = 0 := by
  rw [← Nat.le_zero, ← Nat.not_lt, h.pos_iff b]
  simp

/-- In a bounded queue both items and room grow only with a notification. -/
theorem supplies_bounded (hi : CountsItems k items) (hr : CountsRoom k room)
    (b₀ : B) :
    Monitor.Supplies ⟨b₀, calls (waitingPush k) (failingPush k)
      (waitingPop k (some .notFull)) (failingPop k (some .notFull))⟩
      (supply items room) where
  exhausted_iff := by
    intro op c ready b hg
    cases op with
    | push item =>
        obtain ⟨rfl, rfl⟩ := Guard.waits.inj hg
        exact hr.eq_zero_iff b
    | pop =>
        obtain ⟨rfl, rfl⟩ := Guard.waits.inj hg
        exact hi.eq_zero_iff b
    | tryPush item | tryPop => cases hg
  balance := by
    intro op c b hpass
    cases op with
    | push item =>
        have hroom := (Bool.not_eq_true' (k.full b)).mp hpass
        cases c with
        | notEmpty => exact hi.append b item hroom
        | notFull => exact hr.append b item hroom
    | tryPush item =>
        have hroom := (Bool.not_eq_true' (k.full b)).mp hpass
        cases c with
        | notEmpty => exact hi.append b item hroom
        | notFull => exact Nat.le_of_succ_le (hr.append b item hroom)
    | pop =>
        have hitem := (Bool.not_eq_true' (k.empty b)).mp hpass
        cases c with
        | notEmpty => exact hi.remove b hitem
        | notFull => exact hr.remove b hitem
    | tryPop =>
        have hitem := (Bool.not_eq_true' (k.empty b)).mp hpass
        cases c with
        | notEmpty => exact Nat.le_of_succ_le (hi.remove b hitem)
        | notFull => exact hr.remove b hitem

/-- In a queue that is never full nobody waits for room, so that its supply
never needs to run out. -/
theorem supplies_unbounded (hi : CountsItems k items)
    (hfull : ∀ b, k.full b = false) (b₀ : B) :
    Monitor.Supplies ⟨b₀, calls (freePush k) (freePush k) (waitingPop k none)
      (failingPop k none)⟩ (supply items fun _ => 1) where
  exhausted_iff := by
    intro op c ready b hg
    cases op with
    | pop =>
        obtain ⟨rfl, rfl⟩ := Guard.waits.inj hg
        exact hi.eq_zero_iff b
    | push item | tryPush item | tryPop => cases hg
  balance := by
    intro op c b hpass
    cases op with
    | push item | tryPush item =>
        cases c with
        | notEmpty => exact hi.append b item (hfull b)
        | notFull => exact le_rfl
    | pop =>
        have hitem := (Bool.not_eq_true' (k.empty b)).mp hpass
        cases c with
        | notEmpty => exact hi.remove b hitem
        | notFull => exact le_rfl
    | tryPop =>
        have hitem := (Bool.not_eq_true' (k.empty b)).mp hpass
        cases c with
        | notEmpty => exact Nat.le_of_succ_le (hi.remove b hitem)
        | notFull => exact le_rfl

end Supplies

/-! ## Settled states -/

/-- Once everything has settled, a thread blocked on `not_empty` faces an empty
queue and a thread blocked on `not_full` a full one.  When every thread in a
call is blocked, everything has settled. -/
structure KeepsWakeups (ι : Type w) [DecidableEq ι] (k : Container B T)
    (M : Monitor (Op T) B Cond (Res T)) : Prop where
  empty_of_waiting : ∀ tr s t, (M.system ι).Run tr s → Monitor.Quiet s →
    (s.threads t).waitingOn M = some .notEmpty → k.empty s.shared.data
  full_of_waiting : ∀ tr s t, (M.system ι).Run tr s → Monitor.Quiet s →
    (s.threads t).waitingOn M = some .notFull → k.full s.shared.data
  quiet_of_stuck : ∀ tr s, (M.system ι).Run tr s →
    (∀ t, s.threads t = .idle ∨ ∃ op, s.threads t = .blocked op) →
      Monitor.Quiet s

theorem keepsWakeups {ι : Type w} [DecidableEq ι] {k : Container B T}
    {M : Monitor (Op T) B Cond (Res T)} {items room : B → ℕ}
    (hi : CountsItems k items) (hr : ∀ b, room b = 0 → k.full b)
    (hM : M.Supplies (supply items room)) : KeepsWakeups ι k M where
  empty_of_waiting := by
    intro tr s t hrun hq ht
    have hzero := Monitor.supply_eq_zero_of_waiting hM hrun hq ht
    by_contra hitem
    exact ((hi.pos_iff _).mpr (Bool.eq_false_of_not_eq_true hitem)).ne' hzero
  full_of_waiting := fun tr s t hrun hq ht =>
    hr _ (Monitor.supply_eq_zero_of_waiting hM hrun hq ht)
  quiet_of_stuck := fun _ _ hrun hall => Monitor.quiet_of_all_blocked hrun hall

theorem CountsRoom.full_of_eq_zero {k : Container B T} {room : B → ℕ}
    (h : CountsRoom k room) (b : B) (hb : room b = 0) : k.full b := by
  by_contra hroom
  exact ((h.pos_iff b).mpr (Bool.eq_false_of_not_eq_true hroom)).ne' hb

end Mutex

/-! ## The four queues -/

section Counts

variable {T : Type u}

theorem MutexRingBufferQueue.countsItems :
    Mutex.CountsItems (container T) fun q => q.buffer.size where
  pos_iff := by
    intro q
    simp [container, RingBuffer.empty, Nat.pos_iff_ne_zero]
  append := fun q item hroom => (RingBuffer.pushBack_size hroom item).le
  remove := by
    intro q hitem
    simp only [container, RingBuffer.empty, beq_eq_false_iff_ne] at hitem
    simp only [container, MutexRingBufferQueue.remove, RingBuffer.popFront_size]
    omega

theorem MutexRingBufferQueue.countsRoom :
    Mutex.CountsRoom (container T) fun q => q.buffer.capacity - q.buffer.size
    where
  pos_iff := by
    intro q
    have hle := q.buffer.size_le
    simp only [container, RingBuffer.full, beq_eq_false_iff_ne,
      RingBuffer.capacity]
    omega
  append := by
    intro q item hroom
    have hlt := RingBuffer.size_lt hroom
    simp only [container, MutexRingBufferQueue.append,
      RingBuffer.pushBack_capacity, RingBuffer.pushBack_size hroom item]
    omega
  remove := by
    intro q _
    simp only [container, MutexRingBufferQueue.remove, RingBuffer.popFront_size,
      RingBuffer.popFront_capacity]
    omega

theorem MutexBoostRingBufferQueue.countsItems {C : Type v}
    (cb : CircularBuffer T C) :
    Mutex.CountsItems (operations cb) fun q => q.unread where
  pos_iff := by
    intro q
    simp [operations, isNotEmpty]
  append := fun _ _ _ => le_rfl
  remove := by
    intro q hitem
    simp only [operations, isNotEmpty, Bool.not_eq_false', decide_eq_true_eq]
      at hitem
    simp only [operations, MutexBoostRingBufferQueue.remove]
    omega

theorem MutexBoostRingBufferQueue.countsRoom {C : Type v}
    (cb : CircularBuffer T C) :
    Mutex.CountsRoom (operations cb)
      fun q => cb.capacity q.container - q.unread where
  pos_iff := by
    intro q
    simp [operations, isNotFull]
  append := by
    intro q item hroom
    simp only [operations, isNotFull, Bool.not_eq_false', decide_eq_true_eq]
      at hroom
    simp only [operations, MutexBoostRingBufferQueue.append,
      cb.capacity_pushFront]
    omega
  remove := by
    intro q _
    simp only [operations, MutexBoostRingBufferQueue.remove]
    omega

theorem Mutex.sequence_countsItems :
    CountsItems (sequence T) List.length where
  pos_iff := by
    intro b
    cases b <;> simp [sequence]
  append := by
    intro b item _
    simp [sequence]
  remove := by
    intro b hitem
    cases b with
    | nil => simp [sequence] at hitem
    | cons x b => simp [sequence]

end Counts

/-- No mutex queue loses a wake-up, whatever its capacity and however many
threads call it. -/
theorem mutex_queues_keep_wakeups (ι : Type w) [DecidableEq ι] (T : Type u)
    [Inhabited T] {C : Type v} (cb : CircularBuffer T C) :
    (∀ capacity, Mutex.KeepsWakeups ι (MutexRingBufferQueue.container T)
        (MutexRingBufferQueue.monitor T capacity)) ∧
      (∀ capacity, Mutex.KeepsWakeups ι
        (MutexBoostRingBufferQueue.operations cb)
        (MutexBoostRingBufferQueue.monitor cb capacity)) ∧
      Mutex.KeepsWakeups ι (Mutex.sequence T) (MutexDequeQueue.monitor T) ∧
      Mutex.KeepsWakeups ι (Mutex.sequence T) (MutexListQueue.monitor T) := by
  have hsequence := Mutex.supplies_unbounded
    (Mutex.sequence_countsItems (T := T)) (fun _ => rfl) []
  have hnever : ∀ b : List T, 1 = 0 → (Mutex.sequence T).full b :=
    fun _ h => absurd h one_ne_zero
  refine ⟨fun capacity => ?_, fun capacity => ?_, ?_, ?_⟩
  · exact Mutex.keepsWakeups MutexRingBufferQueue.countsItems
      MutexRingBufferQueue.countsRoom.full_of_eq_zero
      (Mutex.supplies_bounded MutexRingBufferQueue.countsItems
        MutexRingBufferQueue.countsRoom _)
  · have hitems := MutexBoostRingBufferQueue.countsItems cb
    have hroom := MutexBoostRingBufferQueue.countsRoom cb
    exact Mutex.keepsWakeups hitems hroom.full_of_eq_zero
      (Mutex.supplies_bounded hitems hroom _)
  · exact Mutex.keepsWakeups Mutex.sequence_countsItems hnever hsequence
  · exact Mutex.keepsWakeups Mutex.sequence_countsItems hnever hsequence

/-- A third thread takes the item before the waiter it was announced to. -/
theorem mutex_queues_keep_wakeups_stolenItem :
    ∃ tr s, ((MutexRingBufferQueue.monitor ℕ 1).system (Fin 3)).Run tr s ∧
      (s.threads 0).waitingOn (MutexRingBufferQueue.monitor ℕ 1) =
        some .notEmpty ∧
      (MutexRingBufferQueue.container ℕ).empty s.shared.data := by
  have hinit : ((MutexRingBufferQueue.monitor ℕ 1).system (Fin 3)).Run [] _ :=
    Lts.Run.init
  -- thread 0 waits for an item
  have hwait := ((hinit.tail (.call (t := 0) .pop rfl)).tail
    (.lock (t := 0) rfl rfl)).tail (.wait (t := 0) rfl rfl rfl)
  -- thread 1 pushes one, and has yet to notify
  have hpush := ((((hwait.tail (.call (t := 1) (.push 5) rfl)).tail
    (.lock (t := 1) rfl rfl)).tail (.pass (t := 1) rfl rfl)).tail
    (.body (t := 1) rfl)).tail (.unlock (t := 1) rfl)
  -- thread 2 takes it
  have hsteal := ((((hpush.tail (.call (t := 2) .tryPop rfl)).tail
    (.lock (t := 2) rfl rfl)).tail (.pass (t := 2) rfl rfl)).tail
    (.body (t := 2) rfl)).tail (.unlock (t := 2) rfl)
  -- thread 0 is woken and waits again
  have hagain := ((hsteal.tail (.notify (t := 1) (u := 0) rfl rfl rfl)).tail
    (.relock (t := 0) rfl rfl)).tail (.wait (t := 0) rfl rfl rfl)
  have hpops : ∀ op : Op ℕ, (.pop : Op ℕ) = op →
      (MutexRingBufferQueue.monitor ℕ 1).waitsOn op ≠ some .notFull := by
    rintro op rfl
    nofun
  have hsettled := hagain.tail (.notifyNone (t := 2) rfl (by
    intro u op
    match u with
    | 0 => exact fun hu => hpops op (Monitor.Thread.blocked.inj hu)
    | 1 | 2 => nofun))
  refine ⟨_, _, hsettled, rfl, ?_⟩
  refine ((mutex_queues_keep_wakeups (Fin 3) ℕ (.ofList ℕ)).1 1).empty_of_waiting _ _ 0
    hsettled ⟨rfl, ?_, ?_⟩ rfl
  · intro t
    match t with
    | 0 | 1 | 2 => nofun
  · intro t
    match t with
    | 0 | 1 | 2 => nofun

end ConcurrentQueues
