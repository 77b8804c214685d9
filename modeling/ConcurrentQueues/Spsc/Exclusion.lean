import ConcurrentQueues.Spsc.Invariant

/-!
# Exclusive slots of the cached queues

The producer writes only the slot of `tail_`, after a test that found fewer
than `SIZE` unread items, and the consumer reads only the slot of `head_`,
after a test that found one.  Whatever the other side does between the test and
the slot access, the two slots stay apart.
-/

namespace ConcurrentQueues

universe u

namespace Spsc

variable {T : Type u} {n : ℕ}

/-- The index whose slot the producer is inside of writing. -/
def Producer.writing : Producer Pc T → Option ℕ
  | .push _ _ (.inSlot t) => some t
  | _ => none

/-- The index whose slot the consumer is inside of reading. -/
def Consumer.reading : Consumer Pc T → Option ℕ
  | .pop _ _ (.inSlot h) => some h
  | _ => none

theorem ProducerInv.of_writing {q : Queue T} {p : Producer Pc T} {t : ℕ}
    (h : ProducerInv n q p) (ht : p.writing = some t) :
    t = q.tail ∧ t < q.cachedHead + n := by
  cases p with
  | idle | done => cases ht
  | push f item pc =>
      cases pc with
      | inSlot t' =>
          obtain rfl := Option.some.inj ht
          exact h
      | _ => cases ht

theorem ConsumerInv.of_reading {log : List T} {q : Queue T}
    {c : Consumer Pc T} {k : ℕ} (h : ConsumerInv log q c)
    (hk : c.reading = some k) : k = q.head ∧ k < q.cachedTail := by
  cases c with
  | idle | done => cases hk
  | pop f item pc =>
      cases pc with
      | inSlot k' =>
          obtain rfl := Option.some.inj hk
          exact h
      | _ => cases hk

/-- In every reachable state the slot being written and the slot being read
differ, and the slot being read holds the complete item of its index. -/
structure SlotsExclusive (n : ℕ) (M : Lts (State T) (Side × Event T)) :
    Prop where
  writing_tail : ∀ tr s t, M.Run tr s → s.producer.writing = some t →
    t = s.shared.tail
  reading_head : ∀ tr s h, M.Run tr s → s.consumer.reading = some h →
    h = s.shared.head
  apart : ∀ tr s t h, M.Run tr s → s.producer.writing = some t →
    s.consumer.reading = some h → t % n ≠ h % n
  complete : ∀ tr s h, M.Run tr s → s.consumer.reading = some h →
    ∃ x, s.shared.data (h % n) = some x ∧ (pushed tr)[h]? = some x

theorem slotsExclusive (calls : OnFail → Bool) :
    SlotsExclusive n (system .unbounded n calls T) where
  writing_tail := fun _ _ _ hrun ht =>
    ((inv_of_run hrun).producer.of_writing ht).1
  reading_head := fun _ _ _ hrun hk =>
    ((inv_of_run hrun).consumer.of_reading hk).1
  apart := by
    intro tr s t h hrun ht hk
    have hI := inv_of_run hrun
    obtain ⟨rfl, hroom⟩ := hI.producer.of_writing ht
    obtain ⟨rfl, hitem⟩ := hI.consumer.of_reading hk
    have hhead := hI.queue.cachedHead_le
    have htail := hI.queue.cachedTail_le
    exact (slot_ne_tail (by omega) le_rfl (by omega)).symm
  complete := by
    intro tr s h hrun hk
    have hI := inv_of_run hrun
    obtain ⟨rfl, hitem⟩ := hI.consumer.of_reading hk
    have htail := hI.queue.cachedTail_le
    have hget : s.shared.head < (pushed tr).length := by
      rw [hI.queue.channel.log_length]
      omega
    refine ⟨(pushed tr)[s.shared.head], ?_, List.getElem?_eq_getElem hget⟩
    rw [← List.getElem?_eq_getElem hget]
    exact hI.queue.channel.slots s.shared.head le_rfl (by omega)

/-- Producer and consumer never touch one slot at the same time, in both
queues. -/
theorem slot_access_exclusive (n : ℕ) (T : Type u) :
    SlotsExclusive n (alpha.system .unbounded n T) ∧
      SlotsExclusive n (StdAtomicSPSCQueue.system .unbounded n T) :=
  ⟨slotsExclusive _, slotsExclusive _⟩

/-- The consumer is inside the slot of index 0 while the producer is inside
the slot of index 1. -/
def bothInside : List (Option (OnFail × ℕ) ⊕ Option OnFail) :=
  [.inl (some (.giveUp, 7)), .inl none, .inl none, .inl none, .inl none,
    .inl none, .inl none, .inr (some .giveUp), .inr none, .inr none, .inr none,
    .inr none, .inr none, .inl (some (.giveUp, 8)), .inl none, .inl none,
    .inl none]

theorem slot_access_exclusive_bothInside :
    ∃ (tr : List (Side × Event ℕ)) (s : State ℕ),
      (alpha.system .unbounded 2 ℕ).Run tr s ∧
        s.producer.writing = some 1 ∧ s.consumer.reading = some 0 ∧
        1 % 2 ≠ 0 % 2 ∧
        ∃ x, s.shared.data 0 = some x ∧ (pushed tr)[0]? = some x := by
  obtain ⟨⟨tr, s⟩, hexec, hpcs⟩ := Option.map_eq_some_iff.mp
    (show (Lts.exec (Duo.next (produce .unbounded 2 (· ≠ .testAgain))
        (consume .unbounded 2 (· ≠ .testAgain)))
        ⟨Queue.new, .idle, .idle⟩ bothInside).map
        (fun r => (r.2.producer.writing, r.2.consumer.reading)) =
          some (some 1, some 0)
      by with_unfolding_all rfl)
  obtain ⟨hwriting, hreading⟩ := Prod.mk.injEq .. ▸ hpcs
  have hrun : (alpha.system .unbounded 2 ℕ).Run tr s := Duo.run_of_exec hexec
  have hslots := (slot_access_exclusive 2 ℕ).1
  exact ⟨tr, s, hrun, hwriting, hreading,
    hslots.apart tr s 1 0 hrun hwriting hreading,
    hslots.complete tr s 0 hrun hreading⟩

end Spsc
end ConcurrentQueues
