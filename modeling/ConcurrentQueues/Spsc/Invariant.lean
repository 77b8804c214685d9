import ConcurrentQueues.Spsc.Model
import ConcurrentQueues.Support.Ring

/-!
# The invariant of the cached queues

The shared indexes and their cached copies keep the order

  `cached_head_ <= head_ <= cached_tail_ <= tail_ <= cached_head_ + SIZE`

and the slots of the indexes from `head_` up to `tail_` hold the items pushed
with these indexes.  A thread at its slot has passed a test against its cached
copy, which the other thread never changes.
-/

namespace ConcurrentQueues

universe u

namespace Spsc

open Fifo

variable {T : Type u} {n : ℕ} {log : List T}

/-! ## The history of items -/

/-- The item whose slot a store of an index publishes or releases. -/
def Event.stored? : Event T → Option T
  | .store _ item => item
  | _ => none

/-- The items pushed along a trace, in the order of the stores of `tail_`. -/
def pushed (tr : List (Side × Event T)) : List T :=
  tr.filterMap fun a => if a.1 = .producer then a.2.stored? else none

/-- The items popped along a trace, in the order of the stores of `head_`. -/
def popped (tr : List (Side × Event T)) : List T :=
  tr.filterMap fun a => if a.1 = .consumer then a.2.stored? else none

/-- A step that stores no item leaves the history as it is. -/
theorem append_stored {e : Event T} (h : e.stored? = none) :
    log ++ e.stored?.toList = log := by
  rw [h, Option.toList_none, List.append_nil]

theorem pushed_producer (tr : List (Side × Event T)) (e : Event T) :
    pushed (tr ++ [(.producer, e)]) = pushed tr ++ e.stored?.toList := by
  rw [pushed, List.filterMap_append]
  cases h : e.stored? <;> simp [pushed, h]

theorem pushed_consumer (tr : List (Side × Event T)) (e : Event T) :
    pushed (tr ++ [(.consumer, e)]) = pushed tr := by
  simp [pushed]

theorem popped_producer (tr : List (Side × Event T)) (e : Event T) :
    popped (tr ++ [(.producer, e)]) = popped tr := by
  simp [popped]

theorem popped_consumer (tr : List (Side × Event T)) (e : Event T) :
    popped (tr ++ [(.consumer, e)]) = popped tr ++ e.stored?.toList := by
  rw [popped, List.filterMap_append]
  cases h : e.stored? <;> simp [popped, h]

/-! ## The shared ring -/

/-- At most `n` items are unread, each in the slot of its index. -/
structure ChannelInv (n : ℕ) (log : List T) (r : Channel T) : Prop where
  log_length : log.length = r.tail
  head_le : r.head ≤ r.tail
  tail_le : r.tail ≤ r.head + n
  slots : ∀ i, r.head ≤ i → i < r.tail → r.data (i % n) = log[i]?

section Channel

variable {r : Channel T}

theorem channelInv_new : ChannelInv n ([] : List T) Channel.new :=
  ⟨rfl, le_rfl, Nat.zero_le _, fun _ _ hi => by cases hi⟩

/-- The slot of `tail_` is the slot of no unread item while there is room. -/
theorem slot_ne_tail {i : ℕ} (hroom : r.tail < r.head + n)
    (hhead : r.head ≤ i) (htail : i < r.tail) : i % n ≠ r.tail % n := by
  intro hslot
  have := Ring.eq_of_slot_eq hslot (by omega) (by omega)
  omega

theorem ChannelInv.write (h : ChannelInv n log r) (hroom : r.tail < r.head + n)
    (d : Option T) : ChannelInv n log (r.setSlot (r.tail % n) d) where
  log_length := h.log_length
  head_le := h.head_le
  tail_le := h.tail_le
  slots := by
    intro i hhead htail
    rw [Channel.setSlot_data_of_ne r d (slot_ne_tail hroom hhead htail)]
    exact h.slots i hhead htail

theorem ChannelInv.publish (h : ChannelInv n log r)
    (hroom : r.tail < r.head + n) {item : T}
    (hdata : r.data (r.tail % n) = some item) :
    ChannelInv n (log ++ [item]) (r.setTail (r.tail + 1)) where
  log_length := by simp [h.log_length]
  head_le := Nat.le_succ_of_le h.head_le
  tail_le := hroom
  slots := by
    intro i hhead htail
    rcases Nat.lt_succ_iff_lt_or_eq.mp htail with hlt | rfl
    · rw [List.getElem?_append_left (by rw [h.log_length]; exact hlt)]
      exact h.slots i hhead hlt
    · rw [Channel.setTail_data, hdata, ← h.log_length]
      simp

theorem ChannelInv.release (h : ChannelInv n log r)
    (hitem : r.head < r.tail) :
    ChannelInv n log (r.setHead (r.head + 1)) where
  log_length := h.log_length
  head_le := hitem
  tail_le := by
    have := h.tail_le
    simp only [Channel.setHead_tail, Channel.setHead_head]
    omega
  slots := fun i hhead htail => h.slots i (Nat.le_of_succ_le hhead) htail

end Channel

/-! ## The cached copies and the threads -/

/-- The order of the indexes and their cached copies. -/
structure QueueInv (n : ℕ) (log : List T) (q : Queue T) : Prop where
  channel : ChannelInv n log q.toChannel
  cachedHead_le : q.cachedHead ≤ q.head
  tail_le : q.tail ≤ q.cachedHead + n
  head_le : q.head ≤ q.cachedTail
  cachedTail_le : q.cachedTail ≤ q.tail

/-- What holds of a producer inside a call. -/
def PushInv (n : ℕ) (q : Queue T) (item : T) : Pc → Prop
  | .load => True
  | .test t | .refresh t | .retest t => t = q.tail
  | .enter t | .inSlot t => t = q.tail ∧ t < q.cachedHead + n
  | .store t =>
      t = q.tail ∧ t < q.cachedHead + n ∧ q.data (t % n) = some item

/-- What holds of a consumer inside a call. -/
def PopInv (log : List T) (q : Queue T) (item : Option T) : Pc → Prop
  | .load => True
  | .test h | .refresh h | .retest h => h = q.head
  | .enter h | .inSlot h => h = q.head ∧ h < q.cachedTail
  | .store h => h = q.head ∧ h < q.cachedTail ∧ item = log[h]?

def ProducerInv (n : ℕ) (q : Queue T) : Producer Pc T → Prop
  | .push _ item pc => PushInv n q item pc
  | .idle | .done _ => True

def ConsumerInv (log : List T) (q : Queue T) : Consumer Pc T → Prop
  | .pop _ item pc => PopInv log q item pc
  | .idle | .done _ => True

structure Inv (n : ℕ) (log : List T) (s : State T) : Prop where
  queue : QueueInv n log s.shared
  producer : ProducerInv n s.shared s.producer
  consumer : ConsumerInv log s.shared s.consumer

section Stable

variable {q q' : Queue T}

/-- What the producer relies on is left alone by the consumer. -/
theorem ProducerInv.congr {p : Producer Pc T} (h : ProducerInv n q p)
    (htail : q'.tail = q.tail) (hcached : q'.cachedHead = q.cachedHead)
    (hdata : q'.data = q.data) : ProducerInv n q' p := by
  cases p with
  | idle | done => trivial
  | push f item pc =>
      cases pc with
      | load => trivial
      | _ =>
          simpa only [ProducerInv, PushInv, htail, hcached, hdata] using h

/-- What the consumer relies on is left alone by the producer. -/
theorem ConsumerInv.congr {c : Consumer Pc T} (h : ConsumerInv log q c)
    (hhead : q'.head = q.head) (hcached : q'.cachedTail = q.cachedTail) :
    ConsumerInv log q' c := by
  cases c with
  | idle | done => trivial
  | pop f item pc =>
      cases pc with
      | load => trivial
      | _ => simpa only [ConsumerInv, PopInv, hhead, hcached] using h

theorem ConsumerInv.append {c : Consumer Pc T} (hq : QueueInv n log q)
    (h : ConsumerInv log q c) (item : T) : ConsumerInv (log ++ [item]) q c := by
  cases c with
  | idle | done => trivial
  | pop f out pc =>
      cases pc with
      | store k =>
          obtain ⟨hk, hlt, hout⟩ := h
          have := hq.cachedTail_le
          refine ⟨hk, hlt, ?_⟩
          rw [List.getElem?_append_left (by rw [hq.channel.log_length]; omega)]
          exact hout
      | _ => exact h

end Stable

/-! ## Steps and runs -/

theorem inv_init (calls : OnFail → Bool) :
    Inv n [] (system .unbounded n calls T).init :=
  ⟨⟨channelInv_new, le_rfl, Nat.zero_le _, le_rfl, le_rfl⟩, trivial, trivial⟩

section Steps

variable {calls : OnFail → Bool} {q q' : Queue T} {e : Event T}

theorem Inv.produce {p p' : Producer Pc T} {c : Consumer Pc T}
    (hI : Inv n log ⟨q, p, c⟩)
    (hmove : PushMove .unbounded n calls q p e q' p') :
    Inv n (log ++ e.stored?.toList) ⟨q', p', c⟩ := by
  obtain ⟨hq, hp, hc⟩ := hI
  dsimp only at hq hp hc
  have hhead := hq.cachedHead_le
  cases hmove with
  | call | ret =>
      rw [append_stored rfl]
      exact ⟨hq, trivial, hc⟩
  | load =>
      rw [append_stored rfl]
      exact ⟨hq, rfl, hc⟩
  | testFull =>
      rw [append_stored rfl]
      exact ⟨hq, hp, hc⟩
  | testRoom h | retestRoom h =>
      rw [append_stored rfl]
      obtain rfl : _ = q.tail := hp
      simp only [full, SizeT.sub_unbounded, not_le] at h
      have hroom : q.tail < q.cachedHead + n := by omega
      exact ⟨hq, ⟨rfl, hroom⟩, hc⟩
  | refresh =>
      rw [append_stored rfl]
      exact ⟨⟨hq.channel, le_rfl, hq.channel.tail_le, hq.head_le,
        hq.cachedTail_le⟩, hp, hc.congr rfl rfl⟩
  | @retestFull f item t h =>
      rw [append_stored rfl]
      refine ⟨hq, ?_, hc⟩
      cases f with
      | giveUp | startOver => trivial
      | testAgain => exact hp
  | enter =>
      rw [append_stored rfl]
      obtain ⟨rfl, hroom⟩ := hp
      exact ⟨⟨hq.channel.write (by omega) none, hhead, hq.tail_le, hq.head_le,
        hq.cachedTail_le⟩, ⟨rfl, hroom⟩, hc.congr rfl rfl⟩
  | @inSlot f item t =>
      rw [append_stored rfl]
      obtain ⟨rfl, hroom⟩ := hp
      exact ⟨⟨hq.channel.write (by omega) (some item), hhead, hq.tail_le,
        hq.head_le, hq.cachedTail_le⟩,
        ⟨rfl, hroom, Channel.setSlot_data_self _ _ _⟩, hc.congr rfl rfl⟩
  | @store f item t =>
      obtain ⟨rfl, hroom, hdata⟩ := hp
      have htail := hq.cachedTail_le
      refine ⟨⟨hq.channel.publish (by omega) hdata, hhead, hroom, hq.head_le,
        Nat.le_succ_of_le htail⟩, trivial, ?_⟩
      exact (hc.append hq item).congr rfl rfl

theorem Inv.consume {p : Producer Pc T} {c c' : Consumer Pc T}
    (hI : Inv n log ⟨q, p, c⟩)
    (hmove : PopMove .unbounded n calls q c e q' c') :
    Inv n log ⟨q', p, c'⟩ := by
  obtain ⟨hq, hp, hc⟩ := hI
  dsimp only at hq hp hc
  have htail := hq.cachedTail_le
  cases hmove with
  | call | ret => exact ⟨hq, hp, trivial⟩
  | load => exact ⟨hq, hp, rfl⟩
  | testEmpty => exact ⟨hq, hp, hc⟩
  | testItem h | retestItem h =>
      obtain rfl : _ = q.head := hc
      exact ⟨hq, hp, rfl, not_le.mp h⟩
  | refresh =>
      exact ⟨⟨hq.channel, hq.cachedHead_le, hq.tail_le, hq.channel.head_le,
        le_rfl⟩, hp.congr rfl rfl rfl, hc⟩
  | @retestEmpty f item k h =>
      refine ⟨hq, hp, ?_⟩
      cases f with
      | giveUp | startOver => trivial
      | testAgain => exact hc
  | enter => exact ⟨hq, hp, hc⟩
  | inSlot =>
      obtain ⟨rfl, hlt⟩ := hc
      exact ⟨hq, hp, rfl, hlt, hq.channel.slots q.head le_rfl (by omega)⟩
  | store =>
      obtain ⟨rfl, hlt, -⟩ := hc
      have hhead := hq.cachedHead_le
      exact ⟨⟨hq.channel.release (by omega), Nat.le_succ_of_le hhead,
        hq.tail_le, hlt, htail⟩, hp.congr rfl rfl rfl, trivial⟩

end Steps

/-- The invariant holds, of the items pushed, after every run. -/
theorem inv_of_run {calls : OnFail → Bool} {tr : List (Side × Event T)}
    {s : State T} (hrun : (system .unbounded n calls T).Run tr s) :
    Inv n (pushed tr) s := by
  refine Lts.Run.induction (P := fun tr s => Inv n (pushed tr) s)
    (inv_init calls) ?_ hrun
  rintro tr s a s' - hI hstep
  cases hstep with
  | producer h =>
      rw [pushed_producer]
      exact hI.produce (pushMoves_iff.mp h)
  | consumer h =>
      rw [pushed_consumer]
      exact hI.consume (popMoves_iff.mp h)

end Spsc
end ConcurrentQueues
