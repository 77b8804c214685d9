import ConcurrentQueues.Spsc.Orders
import ConcurrentQueues.Spsc.Linearizable

/-!
# Which memory orders keep the slots free of races

A message of `tail_` tells the consumer of the writes to the slots below it, and
a message of `head_` tells the producer of the accesses that a slot has seen
before it is used again.  Both pairs of a store and a load are needed, and with
both in place no access to a slot races.  How the own index is loaded does not
matter.
-/

namespace ConcurrentQueues

universe u

namespace Spsc
namespace Ordered

open Fifo

variable {T : Type u} {V : Variant} {n k r : ℕ} {log : List T}

/-- The store and the load of each index synchronize. -/
structure Variant.Synchronizes (V : Variant) : Prop where
  headStore : V.headStore.releases
  headLoad : V.headLoad.acquires
  tailStore : V.tailStore.releases
  tailLoad : V.tailLoad.acquires

/-- The plain accesses of one pop. -/
def Variant.cost (V : Variant) : ℕ :=
  if V.destroys then 2 else 1

/-! ## The tests -/

theorem lt_of_not_full {t h : ℕ} (hfull : ¬V.full n t h) (hle : t ≤ h + n) :
    t < h + n := by
  simp only [Variant.full] at hfull
  split_ifs at hfull <;> omega

theorem lt_of_not_empty {t h : ℕ} (hempty : ¬V.empty t h) (hle : h ≤ t) :
    h < t := by
  simp only [Variant.empty] at hempty
  split_ifs at hempty <;> omega

theorem eq_of_full {t h : ℕ} (hfull : V.full n t h) (hle : t ≤ h + n)
    (hle' : h ≤ t) : t = h + n := by
  simp only [Variant.full] at hfull
  split_ifs at hfull <;> omega

theorem eq_of_empty {t h : ℕ} (hempty : V.empty t h) (hle : h ≤ t) : t = h := by
  simp only [Variant.empty] at hempty
  split_ifs at hempty <;> omega

/-! ## The memory -/

/-- `tail_` has counted up to the number of items pushed and `head_` up to `k`,
the slots up to `r` have been read, and the messages pass on the accesses to the
slots. -/
structure MemInv (V : Variant) (n : ℕ) (log : List T) (k r : ℕ)
    (mem : ViewMemory Index ℕ Side (Option T)) : Prop where
  wf : mem.WellFormed
  tails : (mem.msgs .tail).map Msg.val = List.range (log.length + 1)
  heads : (mem.msgs .head).map Msg.val = List.range (k + 1)
  own_tail : log.length ≤ (mem.view .producer).seen .tail
  own_head : k ≤ (mem.view .consumer).seen .head
  tells_tail : V.Synchronizes → mem.Passes .tail .producer id
  tells_head : V.Synchronizes → mem.Passes .head .consumer (V.cost * ·)
  head_le : k ≤ r
  read_le : r ≤ log.length
  tail_le : log.length ≤ k + n
  past_consumer : (mem.view .consumer).past .consumer = V.cost * r
  slots : ∀ i, r ≤ i → i < log.length →
    (mem.cells (i % n)).data = log[i]? ∧
      (mem.cells (i % n)).wrote = some (.producer, i + 1)
  unread : ∀ l, (mem.cells l).reads .producer = 0
  taken : ∀ l e, (mem.cells l).reads .consumer = e ∨
    (mem.cells l).wrote = some (.consumer, e) →
      e = 0 ∨ ∃ j, j % n = l ∧ j < log.length ∧ e ≤ V.cost * (j + 1)
  used : ∀ j, j < r → 1 ≤ (mem.cells (j % n)).reads .consumer

section Memory

variable {mem mem' : ViewMemory Index ℕ Side (Option T)} {o : MemoryOrder}
  {ts v : ℕ}

theorem memInv_init : MemInv V n ([] : List T) 0 0
    (.init (fun _ => 0) (fun _ => none)) where
  wf := ViewMemory.wellFormed_init
  tails := rfl
  heads := rfl
  own_tail := Nat.zero_le _
  own_head := Nat.zero_le _
  tells_tail _ := ViewMemory.passes_init rfl
  tells_head _ := ViewMemory.passes_init (Nat.mul_zero _)
  head_le := le_rfl
  read_le := le_rfl
  tail_le := Nat.zero_le _
  past_consumer := rfl
  slots := fun i _ hi => absurd hi (Nat.not_lt_zero i)
  unread _ := rfl
  taken := by
    rintro l e (rfl | h)
    · exact Or.inl rfl
    · cases h
  used := fun j hj => absurd hj (Nat.not_lt_zero j)

/-- What a load of an index sees. -/
theorem val_of_load {a : Index} {t : Side} {N : ℕ}
    (hvals : (mem.msgs a).map Msg.val = List.range (N + 1))
    (hload : mem.load t o a ts = some (v, mem')) :
    v = ts ∧ (mem.view t).seen a ≤ v ∧ v ≤ N := by
  obtain ⟨hadmits, msg, hmsg, rfl, -⟩ := ViewMemory.load_eq_some_iff.mp hload
  have hval : (List.range (N + 1))[ts]? = some msg.val := by
    rw [← hvals, List.getElem?_map, hmsg]
    rfl
  obtain ⟨hlt, heq⟩ := List.getElem?_eq_some_iff.mp hval
  rw [List.getElem_range] at heq
  rw [List.length_range] at hlt
  have := hadmits.1
  omega

theorem length_msgs {a : Index} {N : ℕ}
    (hvals : (mem.msgs a).map Msg.val = List.range (N + 1)) :
    (mem.msgs a).length = N + 1 := by
  rw [← List.length_map (f := Msg.val), hvals, List.length_range]

/-- Loads add no accesses to what a thread knows of itself. -/
theorem past_of_load {t u : Side} {a : Index} (hwf : mem.WellFormed)
    (hload : mem.load u o a ts = some (v, mem')) :
    (mem'.view t).past t = (mem.view t).past t := by
  obtain ⟨-, msg, hmsg, -, rfl⟩ := ViewMemory.load_eq_some_iff.mp hload
  by_cases htu : t = u
  · subst htu
    rw [ViewMemory.learn_view_self, View.sup_past, ViewMemory.told,
      View.sup_past, View.single_past]
    split_ifs
    · have := (hwf.msg_le a msg (List.mem_of_getElem? hmsg)).2 t
      simp only [ViewMemory.limit] at this
      omega
    · simp
  · rw [ViewMemory.learn_view_of_ne htu]

/-- A load changes nothing but what its thread knows. -/
theorem MemInv.load {t : Side} {a : Index} (h : MemInv V n log k r mem)
    (hload : mem.load t o a ts = some (v, mem')) :
    MemInv V n log k r mem' := by
  have hwf := h.wf.load hload
  have hpast := past_of_load (t := .consumer) h.wf hload
  obtain ⟨-, msg, hmsg, -, rfl⟩ := ViewMemory.load_eq_some_iff.mp hload
  refine ⟨hwf, h.tails, h.heads, ?_, ?_, h.tells_tail, h.tells_head, h.head_le,
    h.read_le, h.tail_le, hpast.trans h.past_consumer, h.slots, h.unread,
    h.taken, h.used⟩
  · have := h.own_tail
    cases t with
    | producer =>
        rw [ViewMemory.learn_view_self, View.sup_seen]
        omega
    | consumer => rwa [ViewMemory.learn_view_of_ne (by decide)]
  · have := h.own_head
    cases t with
    | producer => rwa [ViewMemory.learn_view_of_ne (by decide)]
    | consumer =>
        rw [ViewMemory.learn_view_self, View.sup_seen]
        omega

/-- The slot of the next push is the slot of no unread item. -/
theorem slot_ne_next {i : ℕ} (hroom : log.length < r + n) (hri : r ≤ i)
    (hi : i < log.length) : i % n ≠ log.length % n := by
  intro hslot
  have := Ring.eq_of_slot_eq hslot (by omega) (by omega)
  omega

/-- The producer writes the slot of the next item. -/
theorem MemInv.write (h : MemInv V n log k r mem) (hroom : log.length < k + n)
    (d : Option T) :
    MemInv V n log k r (mem.write .producer (log.length % n) d) where
  wf := h.wf.write
  tails := h.tails
  heads := h.heads
  own_tail := by
    simpa using h.own_tail
  own_head := by
    rw [ViewMemory.write_view_of_ne (by decide)]
    exact h.own_head
  tells_tail := h.tells_tail
  tells_head := h.tells_head
  head_le := h.head_le
  read_le := h.read_le
  tail_le := h.tail_le
  past_consumer := by
    rw [ViewMemory.write_view_of_ne (by decide)]
    exact h.past_consumer
  slots := by
    intro i hri hi
    have hle := h.head_le
    rw [ViewMemory.write_cells_of_ne (slot_ne_next (by omega) hri hi)]
    exact h.slots i hri hi
  unread := by
    intro l
    by_cases hl : l = log.length % n
    · subst hl
      rw [ViewMemory.write_cells_self]
      exact h.unread _
    · rw [ViewMemory.write_cells_of_ne hl]
      exact h.unread l
  taken := by
    intro l e he
    by_cases hl : l = log.length % n
    · subst hl
      rw [ViewMemory.write_cells_self] at he
      rcases he with he | he
      · exact h.taken _ e (Or.inl he)
      · cases he
    · rw [ViewMemory.write_cells_of_ne hl] at he
      exact h.taken l e he
  used := by
    intro j hj
    by_cases hl : j % n = log.length % n
    · rw [hl, ViewMemory.write_cells_self, ← hl]
      exact h.used j hj
    · rw [ViewMemory.write_cells_of_ne hl]
      exact h.used j hj

/-- The producer stores `tail_`. -/
theorem MemInv.publish (h : MemInv V n log k r mem) {item : T}
    (hroom : log.length < k + n)
    (hpast : log.length + 1 ≤ (mem.view .producer).past .producer)
    (hdata : (mem.cells (log.length % n)).data = some item)
    (hwrote : (mem.cells (log.length % n)).wrote =
      some (.producer, log.length + 1)) :
    MemInv V n (log ++ [item]) k r
      (mem.store .producer V.tailStore .tail (log.length + 1)) where
  wf := h.wf.store
  tails := by
    rw [ViewMemory.store_msgs_self, List.map_append, h.tails,
      List.length_append, List.length_singleton]
    exact List.range_succ.symm
  heads := by
    rw [ViewMemory.store_msgs_of_ne (by decide)]
    exact h.heads
  own_tail := by
    simp [length_msgs h.tails]
  own_head := by
    rw [ViewMemory.store_view_of_ne (by decide)]
    exact h.own_head
  tells_tail := by
    intro hV
    apply (h.tells_tail hV).store hV.tailStore
    rw [length_msgs h.tails]
    exact hpast
  tells_head := by
    intro hV ts msg hmsg
    rw [ViewMemory.store_msgs_of_ne (by decide)] at hmsg
    exact h.tells_head hV ts msg hmsg
  head_le := h.head_le
  read_le := by
    rw [List.length_append]
    exact le_trans h.read_le (Nat.le_add_right _ _)
  tail_le := by
    simpa using hroom
  past_consumer := by
    rw [ViewMemory.store_view_of_ne (by decide)]
    exact h.past_consumer
  slots := by
    intro i hri hi
    rw [List.length_append, List.length_singleton] at hi
    rcases Nat.lt_succ_iff_lt_or_eq.mp hi with hlt | rfl
    · rw [List.getElem?_append_left hlt]
      exact h.slots i hri hlt
    · rw [ViewMemory.store_cells, hdata, hwrote]
      simp
  unread := h.unread
  taken := by
    intro l e he
    rcases h.taken l e he with rfl | ⟨j, hj, hlt, hle⟩
    · exact Or.inl rfl
    · refine Or.inr ⟨j, hj, ?_, hle⟩
      rw [List.length_append]
      omega
  used := h.used

/-! ## The access of a pop -/

variable {l l' : ℕ}

@[simp] theorem take_msgs : (V.take mem l).msgs = mem.msgs := by
  rw [Variant.take]
  split_ifs <;> rfl

@[simp] theorem take_seen {t : Side} :
    ((V.take mem l).view t).seen = (mem.view t).seen := by
  rw [Variant.take]
  split_ifs
  · exact ViewMemory.access_seen.trans ViewMemory.access_seen
  · exact ViewMemory.access_seen

@[simp] theorem take_view_producer :
    (V.take mem l).view .producer = mem.view .producer := by
  rw [Variant.take]
  split_ifs
  · rw [ViewMemory.write_view_of_ne (by decide),
      ViewMemory.read_view_of_ne (by decide)]
  · exact ViewMemory.read_view_of_ne (by decide)

theorem take_past : ((V.take mem l).view .consumer).past .consumer =
    (mem.view .consumer).past .consumer + V.cost := by
  rw [Variant.take, Variant.cost]
  split_ifs <;> simp

theorem le_take_past {t : Side} (u : Side) :
    (mem.view t).past u ≤ ((V.take mem l).view t).past u := by
  rw [Variant.take]
  split_ifs
  · exact le_trans (ViewMemory.le_access_past u) (ViewMemory.le_access_past u)
  · exact ViewMemory.le_access_past u

theorem take_cells_of_ne (h : l' ≠ l) :
    (V.take mem l).cells l' = mem.cells l' := by
  rw [Variant.take]
  split_ifs
  · rw [ViewMemory.write_cells_of_ne h, ViewMemory.read_cells_of_ne h]
  · exact ViewMemory.read_cells_of_ne h

theorem take_reads_producer : ((V.take mem l).cells l').reads .producer =
    (mem.cells l').reads .producer := by
  by_cases h : l' = l
  · subst h
    rw [Variant.take]
    split_ifs <;> simp
  · rw [take_cells_of_ne h]

theorem take_reads : 1 ≤ ((V.take mem l).cells l).reads .consumer := by
  rw [Variant.take]
  split_ifs <;> simp

/-- The accesses of a pop are its newest ones. -/
theorem take_epoch {e : ℕ}
    (he : ((V.take mem l).cells l).reads .consumer = e ∨
      ((V.take mem l).cells l).wrote = some (.consumer, e)) :
    (mem.cells l).wrote = some (.consumer, e) ∨
      e ≤ (mem.view .consumer).past .consumer + V.cost := by
  rw [Variant.take] at he
  rw [Variant.cost]
  split_ifs at he ⊢ with hd
  · simp only [ViewMemory.write_cells_self, ViewMemory.read_cells_self,
      ViewMemory.read_view_self, View.tick_past_self, Function.update_self,
      Option.some.injEq, Prod.mk.injEq, true_and] at he
    omega
  · simp only [ViewMemory.read_cells_self, Function.update_self] at he
    rcases he with rfl | he
    · exact Or.inr le_rfl
    · exact Or.inl he

theorem take_wf (h : mem.WellFormed) : (V.take mem l).WellFormed := by
  rw [Variant.take]
  split_ifs
  · exact h.read.write
  · exact h.read

/-- The consumer reads the slot of the oldest item. -/
theorem MemInv.take (h : MemInv V n log k k mem) (hitem : k < log.length) :
    MemInv V n log k (k + 1) (V.take mem (k % n)) where
  wf := take_wf h.wf
  tails := by
    rw [take_msgs]
    exact h.tails
  heads := by
    rw [take_msgs]
    exact h.heads
  own_tail := by
    rw [take_view_producer]
    exact h.own_tail
  own_head := by
    rw [take_seen]
    exact h.own_head
  tells_tail := by
    intro hV ts msg hmsg
    rw [take_msgs] at hmsg
    exact h.tells_tail hV ts msg hmsg
  tells_head := by
    intro hV ts msg hmsg
    rw [take_msgs] at hmsg
    exact h.tells_head hV ts msg hmsg
  head_le := Nat.le_succ k
  read_le := hitem
  tail_le := h.tail_le
  past_consumer := by
    rw [take_past, h.past_consumer, Nat.mul_succ]
  slots := by
    intro i hri hi
    have hle := h.tail_le
    have hne : i % n ≠ k % n := by
      intro hslot
      have := Ring.eq_of_slot_eq hslot (by omega) (by omega)
      omega
    rw [take_cells_of_ne hne]
    exact h.slots i (by omega) hi
  unread := by
    intro l
    rw [take_reads_producer]
    exact h.unread l
  taken := by
    intro l e he
    by_cases hl : l = k % n
    · subst hl
      rcases take_epoch he with hold | hle
      · exact h.taken _ e (Or.inr hold)
      · refine Or.inr ⟨k, rfl, hitem, ?_⟩
        rwa [h.past_consumer, ← Nat.mul_succ] at hle
    · rw [take_cells_of_ne hl] at he
      exact h.taken l e he
  used := by
    intro j hj
    by_cases hl : j % n = k % n
    · rw [hl]
      exact take_reads
    · rw [take_cells_of_ne hl]
      refine h.used j (lt_of_le_of_ne (Nat.lt_succ_iff.mp hj) ?_)
      rintro rfl
      exact hl rfl

/-- The consumer stores `head_`. -/
theorem MemInv.release (h : MemInv V n log k (k + 1) mem) :
    MemInv V n log (k + 1) (k + 1)
      (mem.store .consumer V.headStore .head (k + 1)) where
  wf := h.wf.store
  tails := by
    rw [ViewMemory.store_msgs_of_ne (by decide)]
    exact h.tails
  heads := by
    rw [ViewMemory.store_msgs_self, List.map_append, h.heads]
    exact List.range_succ.symm
  own_tail := by
    rw [ViewMemory.store_view_of_ne (by decide)]
    exact h.own_tail
  own_head := by
    simp [length_msgs h.heads]
  tells_tail := by
    intro hV ts msg hmsg
    rw [ViewMemory.store_msgs_of_ne (by decide)] at hmsg
    exact h.tells_tail hV ts msg hmsg
  tells_head := by
    intro hV
    apply (h.tells_head hV).store hV.headStore
    rw [length_msgs h.heads, h.past_consumer]
  head_le := le_rfl
  read_le := h.read_le
  tail_le := by
    have := h.tail_le
    omega
  past_consumer := by
    simpa using h.past_consumer
  slots := h.slots
  unread := h.unread
  taken := h.taken
  used := h.used

/-! ## No access races -/

/-- The slot of the next push has been left by the pop that used it last, as
the producer knows. -/
theorem MemInv.writeSafe (h : MemInv V n log k r mem) {cachedHead : ℕ}
    (hroom : log.length < cachedHead + n)
    (hknown : V.cost * cachedHead ≤ (mem.view .producer).past .consumer) :
    mem.WriteSafe .producer (log.length % n) := by
  have htaken : ∀ e, (mem.cells (log.length % n)).reads .consumer = e ∨
      (mem.cells (log.length % n)).wrote = some (.consumer, e) →
        e ≤ (mem.view .producer).past .consumer := by
    intro e he
    rcases h.taken _ e he with rfl | ⟨j, hj, hlt, hle⟩
    · exact Nat.zero_le _
    · have hlap := Ring.add_le_of_slot_eq hj hlt
      have hcost : V.cost * (j + 1) ≤ V.cost * cachedHead :=
        Nat.mul_le_mul_left _ (by omega)
      omega
  constructor
  · cases hw : (mem.cells (log.length % n)).wrote with
    | none => trivial
    | some w =>
        obtain ⟨t, e⟩ := w
        cases t with
        | producer =>
            have := h.wf.wrote_le (log.length % n)
            rw [hw] at this
            exact this
        | consumer => exact htaken e (Or.inr hw)
  · intro t
    cases t with
    | producer =>
        rw [h.unread]
        exact Nat.zero_le _
    | consumer => exact htaken _ (Or.inl rfl)

/-- The consumer knows of the write to the slot of the oldest item. -/
theorem MemInv.takeSafe (h : MemInv V n log k k mem) {cachedTail : ℕ}
    (hitem : k < cachedTail) (hle : cachedTail ≤ log.length)
    (hknown : cachedTail ≤ (mem.view .consumer).past .producer) :
    V.TakeSafe mem (k % n) := by
  have hwrote : (mem.view .consumer).Knows (mem.cells (k % n)).wrote := by
    rw [(h.slots k le_rfl (by omega)).2]
    exact hitem.trans_le hknown
  rw [Variant.TakeSafe]
  split_ifs
  · refine ⟨hwrote, fun t => ?_⟩
    cases t with
    | producer =>
        rw [h.unread]
        exact Nat.zero_le _
    | consumer => exact h.wf.reads_le _ _
  · exact hwrote

end Memory

/-! ## The threads -/

/-- The copies of the indexes, with what each side knows since it loaded
them. -/
structure QueueInv (V : Variant) (n : ℕ) (log : List T) (k r : ℕ)
    (q : Queue T) : Prop where
  memory : MemInv V n log k r q.mem
  cachedHead_le : q.cachedHead ≤ k
  cachedHead_seen : q.cachedHead ≤ (q.mem.view .producer).seen .head
  tail_le : log.length ≤ q.cachedHead + n
  head_le : k ≤ q.cachedTail
  cachedTail_seen : q.cachedTail ≤ (q.mem.view .consumer).seen .tail
  cachedTail_le : q.cachedTail ≤ log.length
  knows_head : V.Synchronizes →
    V.cost * q.cachedHead ≤ (q.mem.view .producer).past .consumer
  knows_tail : V.Synchronizes →
    q.cachedTail ≤ (q.mem.view .consumer).past .producer

/-- What holds of a producer inside a call. -/
def PushInv (n : ℕ) (log : List T) (q : Queue T) (item : T) : Pc → Prop
  | .load => (q.mem.view .producer).past .producer = log.length
  | .test t | .refresh t | .retest t =>
      t = log.length ∧ (q.mem.view .producer).past .producer = log.length
  | .access t => t = log.length ∧ t < q.cachedHead + n ∧
      (q.mem.view .producer).past .producer = log.length
  | .store t => t = log.length ∧ t < q.cachedHead + n ∧
      (q.mem.view .producer).past .producer = log.length + 1 ∧
      (q.mem.cells (t % n)).data = some item ∧
      (q.mem.cells (t % n)).wrote = some (.producer, t + 1)

def ProducerInv (n : ℕ) (log : List T) (q : Queue T) : Producer Pc T → Prop
  | .push _ item pc => PushInv n log q item pc
  | .idle | .done _ => (q.mem.view .producer).past .producer = log.length

/-- What holds of a consumer inside a call. -/
def PopInv (log : List T) (k : ℕ) (q : Queue T) (item : Option T) : Pc → Prop
  | .load => True
  | .test h | .refresh h | .retest h => h = k
  | .access h => h = k ∧ h < q.cachedTail
  | .store h => h = k ∧ h < q.cachedTail ∧ item = log[h]?

def ConsumerInv (log : List T) (k : ℕ) (q : Queue T) : Consumer Pc T → Prop
  | .pop _ item pc => PopInv log k q item pc
  | .idle | .done _ => True

/-- How many slots have been read when `k` of them have been released. -/
def reads (k : ℕ) : Consumer Pc T → ℕ
  | .pop _ _ (.store _) => k + 1
  | _ => k

/-- The invariant, with the items pushed and the number of items popped. -/
structure Inv (V : Variant) (n : ℕ) (log : List T) (k : ℕ) (s : State T) :
    Prop where
  queue : QueueInv V n log k (reads k s.consumer) s.shared
  producer : ProducerInv n log s.shared s.producer
  consumer : ConsumerInv log k s.shared s.consumer

theorem inv_init : Inv V n ([] : List T) 0 (system V n T).init where
  queue := ⟨memInv_init, le_rfl, le_rfl, Nat.zero_le _, le_rfl, le_rfl, le_rfl,
    fun _ => (Nat.mul_zero _).le, fun _ => le_rfl⟩
  producer := rfl
  consumer := trivial

section Steps

variable {q q' : Queue T} {e : Event T}

/-- A producer whose own accesses and slot are left alone. -/
theorem ProducerInv.congr {p : Producer Pc T} (h : ProducerInv n log q p)
    (hcached : q'.cachedHead = q.cachedHead)
    (hpast : (q'.mem.view .producer).past .producer =
      (q.mem.view .producer).past .producer)
    (hslot : log.length < q.cachedHead + n →
      q'.mem.cells (log.length % n) = q.mem.cells (log.length % n)) :
    ProducerInv n log q' p := by
  cases p with
  | idle | done => exact hpast.trans h
  | push f item pc =>
      cases pc with
      | load => exact hpast.trans h
      | test t | refresh t | retest t => exact ⟨h.1, hpast.trans h.2⟩
      | access t => exact ⟨h.1, hcached ▸ h.2.1, hpast.trans h.2.2⟩
      | store t =>
          obtain ⟨rfl, hroom, hp, hdata, hwrote⟩ := h
          refine ⟨rfl, hcached ▸ hroom, hpast.trans hp, ?_, ?_⟩
          · rw [hslot hroom]
            exact hdata
          · rw [hslot hroom]
            exact hwrote

/-- A consumer sees more items and a copy that was not changed. -/
theorem ConsumerInv.congr {c : Consumer Pc T} (h : ConsumerInv log k q c)
    (hle : q.cachedTail ≤ log.length) (hcached : q'.cachedTail = q.cachedTail)
    (more : List T) : ConsumerInv (log ++ more) k q' c := by
  cases c with
  | idle | done => trivial
  | pop f item pc =>
      cases pc with
      | load => trivial
      | test v | refresh v | retest v => exact h
      | access v => exact ⟨h.1, hcached ▸ h.2⟩
      | store v =>
          obtain ⟨rfl, hlt, rfl⟩ := h
          refine ⟨rfl, hcached ▸ hlt, ?_⟩
          rw [List.getElem?_append_left (by omega)]

theorem ConsumerInv.same {c : Consumer Pc T} (h : ConsumerInv log k q c)
    (hle : q.cachedTail ≤ log.length)
    (hcached : q'.cachedTail = q.cachedTail) : ConsumerInv log k q' c := by
  have hmore := h.congr hle hcached []
  rwa [List.append_nil] at hmore

section Loads

variable {t : Side} {o : MemoryOrder} {a : Index} {ts v : ℕ}
  {mem : ViewMemory Index ℕ Side (Option T)}

theorem QueueInv.load (h : QueueInv V n log k r q)
    (hload : q.mem.load t o a ts = some (v, mem)) :
    QueueInv V n log k r { q with mem := mem } where
  memory := h.memory.load hload
  cachedHead_le := h.cachedHead_le
  cachedHead_seen :=
    h.cachedHead_seen.trans ((ViewMemory.le_of_load hload _).1 _)
  tail_le := h.tail_le
  head_le := h.head_le
  cachedTail_seen :=
    h.cachedTail_seen.trans ((ViewMemory.le_of_load hload _).1 _)
  cachedTail_le := h.cachedTail_le
  knows_head := fun hV =>
    (h.knows_head hV).trans ((ViewMemory.le_of_load hload _).2 _)
  knows_tail := fun hV =>
    (h.knows_tail hV).trans ((ViewMemory.le_of_load hload _).2 _)

/-- An own index is loaded as it is. -/
theorem QueueInv.own_tail (h : QueueInv V n log k r q)
    (hload : q.mem.load .producer o .tail ts = some (v, mem)) :
    v = log.length := by
  have := val_of_load h.memory.tails hload
  have := h.memory.own_tail
  omega

theorem QueueInv.own_head (h : QueueInv V n log k r q)
    (hload : q.mem.load .consumer o .head ts = some (v, mem)) : v = k := by
  have := val_of_load h.memory.heads hload
  have := h.memory.own_head
  omega

/-- The producer loads `head_`. -/
theorem QueueInv.refreshHead (h : QueueInv V n log k r q)
    (hload : q.mem.load .producer V.headLoad .head ts =
      some (v, mem)) :
    QueueInv V n log k r { q with mem := mem, cachedHead := v } := by
  have hq := h.load hload
  have hknows := fun hV : V.Synchronizes =>
    (h.memory.tells_head hV).load hV.headLoad hload
  have hseen := ViewMemory.le_seen_of_load hload
  obtain ⟨rfl, hle, hk⟩ := val_of_load h.memory.heads hload
  have hcached := h.cachedHead_seen
  refine ⟨hq.memory, hk, hseen, ?_, hq.head_le, hq.cachedTail_seen,
    hq.cachedTail_le, hknows, hq.knows_tail⟩
  have := h.tail_le
  change log.length ≤ v + n
  omega

/-- The consumer loads `tail_`. -/
theorem QueueInv.refreshTail (h : QueueInv V n log k r q)
    (hload : q.mem.load .consumer V.tailLoad .tail ts =
      some (v, mem)) :
    QueueInv V n log k r { q with mem := mem, cachedTail := v } := by
  have hq := h.load hload
  have hknows := fun hV : V.Synchronizes =>
    (h.memory.tells_tail hV).load hV.tailLoad hload
  have hseen := ViewMemory.le_seen_of_load hload
  obtain ⟨rfl, hle, hk⟩ := val_of_load h.memory.tails hload
  have hcached := h.cachedTail_seen
  refine ⟨hq.memory, hq.cachedHead_le, hq.cachedHead_seen, hq.tail_le, ?_,
    hseen, hk, hq.knows_head, hknows⟩
  have := h.head_le
  change k ≤ v
  omega

end Loads

/-! ## One step -/

theorem beginPush {item : T} {t : ℕ} (ht : t = log.length)
    (hpast : (q.mem.view .producer).past .producer = log.length) :
    PushInv n log q item (V.begin t) := by
  rw [Variant.begin]
  split_ifs <;> exact ⟨ht, hpast⟩

theorem beginPop {item : Option T} {h : ℕ} (hh : h = k) :
    PopInv log k q item (V.begin h) := by
  rw [Variant.begin]
  split_ifs <;> exact hh

theorem reads_begin {f : OnFail} {item : Option T} {h : ℕ} :
    reads k (.pop f item (V.begin h) : Consumer Pc T) = k := by
  rw [Variant.begin]
  split_ifs <;> rfl

/-- The invariant after a step of the producer. -/
theorem Inv.produce {p p' : Producer Pc T} {c : Consumer Pc T}
    (h : Inv V n log k ⟨q, p, c⟩)
    (hmove : PushMove V n q p e q' p') :
    Inv V n (log ++ e.stored?.toList) k ⟨q', p', c⟩ := by
  obtain ⟨hq, hp, hc⟩ := h
  cases hmove with
  | call item hf =>
      rw [append_stored rfl]
      exact ⟨hq, hp, hc⟩
  | load hload =>
      rw [append_stored rfl]
      have hpast := past_of_load (t := .producer) hq.memory.wf hload
      exact ⟨hq.load hload, beginPush (hq.own_tail hload) (hpast.trans hp),
        hc.same hq.cachedTail_le rfl⟩
  | testFull hfull =>
      rw [append_stored rfl]
      exact ⟨hq, hp, hc⟩
  | testRoom hroom =>
      rw [append_stored rfl]
      obtain ⟨rfl, hpast⟩ := hp
      exact ⟨hq, ⟨rfl, lt_of_not_full hroom hq.tail_le, hpast⟩, hc⟩
  | refresh hload =>
      rw [append_stored rfl]
      have hpast := past_of_load (t := .producer) hq.memory.wf hload
      exact ⟨hq.refreshHead hload, ⟨hp.1, hpast.trans hp.2⟩,
        hc.same hq.cachedTail_le rfl⟩
  | @retestFull f item t hfull =>
      rw [append_stored rfl]
      refine ⟨hq, ?_, hc⟩
      cases f with
      | giveUp => exact hp.2
      | startOver => exact hp.2
      | testAgain => exact hp
  | retestRoom hroom =>
      rw [append_stored rfl]
      obtain ⟨rfl, hpast⟩ := hp
      exact ⟨hq, ⟨rfl, lt_of_not_full hroom hq.tail_le, hpast⟩, hc⟩
  | @access f item t =>
      rw [append_stored rfl]
      obtain ⟨rfl, hroom, hpast⟩ := hp
      have hhead := hq.cachedHead_le
      refine ⟨⟨hq.memory.write (by omega) _, hq.cachedHead_le, ?_, hq.tail_le,
        hq.head_le, ?_, hq.cachedTail_le, ?_, ?_⟩,
        ⟨rfl, hroom, ?_, ?_, ?_⟩, hc.same hq.cachedTail_le rfl⟩
      · simpa using hq.cachedHead_seen
      · rw [ViewMemory.write_view_of_ne (by decide)]
        exact hq.cachedTail_seen
      · rw [ViewMemory.write_view_self, View.tick_past_of_ne _ (by decide)]
        exact hq.knows_head
      · rw [ViewMemory.write_view_of_ne (by decide)]
        exact hq.knows_tail
      · simpa using hpast
      · simp
      · simpa using hpast
  | @store f item t =>
      obtain ⟨rfl, hroom, hpast, hdata, hwrote⟩ := hp
      have hhead := hq.cachedHead_le
      refine ⟨⟨hq.memory.publish (by omega) hpast.ge hdata hwrote,
        hq.cachedHead_le, ?_, ?_, hq.head_le, ?_, ?_, ?_, ?_⟩, ?_,
        hc.congr hq.cachedTail_le rfl _⟩
      · rw [ViewMemory.store_view_self, View.sup_seen]
        exact hq.cachedHead_seen.trans (le_max_left _ _)
      · simpa [Event.stored?] using hroom
      · rw [ViewMemory.store_view_of_ne (by decide)]
        exact hq.cachedTail_seen
      · rw [List.length_append]
        exact hq.cachedTail_le.trans (Nat.le_add_right _ _)
      · intro hV
        simpa using hq.knows_head hV
      · rw [ViewMemory.store_view_of_ne (by decide)]
        exact hq.knows_tail
      · simpa [ProducerInv, Event.stored?] using hpast
  | ret =>
      rw [append_stored rfl]
      exact ⟨hq, hp, hc⟩

/-- The invariant after a step of the consumer. -/
theorem Inv.consume {p : Producer Pc T} {c c' : Consumer Pc T}
    (h : Inv V n log k ⟨q, p, c⟩)
    (hmove : PopMove V n q c e q' c') :
    Inv V n log (k + e.stored?.toList.length) ⟨q', p, c'⟩ := by
  obtain ⟨hq, hp, hc⟩ := h
  cases hmove with
  | call hf => exact ⟨hq, hp, trivial⟩
  | load hload =>
      have hpast := past_of_load (t := .producer) hq.memory.wf hload
      refine ⟨?_, hp.congr rfl hpast fun _ => ?_, beginPop (hq.own_head hload)⟩
      · rw [reads_begin]
        exact hq.load hload
      · obtain ⟨-, msg, -, -, rfl⟩ := ViewMemory.load_eq_some_iff.mp hload
        rfl
  | testEmpty he => exact ⟨hq, hp, hc⟩
  | testItem he =>
      obtain rfl := hc
      exact ⟨hq, hp, ⟨rfl, lt_of_not_empty he hq.head_le⟩⟩
  | refresh hload =>
      have hpast := past_of_load (t := .producer) hq.memory.wf hload
      refine ⟨hq.refreshTail hload,
        hp.congr rfl hpast fun _ => ?_, hc⟩
      obtain ⟨-, msg, -, -, rfl⟩ := ViewMemory.load_eq_some_iff.mp hload
      rfl
  | @retestEmpty f item h he =>
      cases f with
      | giveUp => exact ⟨hq, hp, trivial⟩
      | startOver => exact ⟨hq, hp, trivial⟩
      | testAgain => exact ⟨hq, hp, hc⟩
  | retestItem he =>
      obtain rfl := hc
      exact ⟨hq, hp, ⟨rfl, lt_of_not_empty he hq.head_le⟩⟩
  | @access f item h =>
      obtain ⟨rfl, hitem⟩ := hc
      have htail := hq.cachedTail_le
      have hroom := hq.tail_le
      have hhead := hq.cachedHead_le
      refine ⟨⟨hq.memory.take (by omega), hq.cachedHead_le, ?_, hq.tail_le,
        hq.head_le, ?_, hq.cachedTail_le, ?_, ?_⟩, hp.congr rfl ?_ fun hlt => ?_,
        ⟨rfl, hitem, ?_⟩⟩
      · rw [take_seen]
        exact hq.cachedHead_seen
      · rw [take_seen]
        exact hq.cachedTail_seen
      · rw [take_view_producer]
        exact hq.knows_head
      · exact fun hV => (hq.knows_tail hV).trans (le_take_past _)
      · rw [take_view_producer]
      · apply take_cells_of_ne
        intro hslot
        have := Ring.eq_of_slot_eq hslot (by omega) (by omega)
        omega
      · exact (hq.memory.slots h le_rfl (by omega)).1
  | @store f item h =>
      obtain ⟨rfl, hitem, rfl⟩ := hc
      have htail := hq.cachedTail_le
      rw [List.getElem?_eq_getElem (by omega)]
      refine ⟨⟨hq.memory.release, ?_, ?_, hq.tail_le, hitem, ?_,
        hq.cachedTail_le, ?_, ?_⟩, hp.congr rfl ?_ fun _ => rfl, trivial⟩
      · exact hq.cachedHead_le.trans (Nat.le_succ _)
      · rw [ViewMemory.store_view_of_ne (by decide)]
        exact hq.cachedHead_seen
      · rw [ViewMemory.store_view_self, View.sup_seen]
        exact hq.cachedTail_seen.trans (le_max_left _ _)
      · rw [ViewMemory.store_view_of_ne (by decide)]
        exact hq.knows_head
      · rw [ViewMemory.store_view_self, View.sup_past]
        exact fun hV => (hq.knows_tail hV).trans (le_max_left _ _)
      · rw [ViewMemory.store_view_of_ne (by decide)]
  | ret => exact ⟨hq, hp, trivial⟩

end Steps

theorem inv_of_run {tr : List (Side × Event T)}
    {s : State T} (hrun : (system V n T).Run tr s) :
    Inv V n (pushed tr) (popped tr).length s := by
  refine Lts.Run.induction (P := fun tr s =>
    Inv V n (pushed tr) (popped tr).length s) inv_init ?_ hrun
  rintro tr s ⟨t, e⟩ s' - hI hstep
  cases hstep with
  | producer h =>
      rw [pushed_producer, popped_producer]
      exact hI.produce (pushMoves_iff.mp h)
  | consumer h =>
      rw [pushed_consumer, popped_consumer, List.length_append]
      exact hI.consume (popMoves_iff.mp h)

/-- With every store of an index synchronizing with the loads by the other side,
no access to a slot races. -/
theorem not_racing (hV : V.Synchronizes) {tr : List (Side × Event T)}
    {s : State T} (hrun : (system V n T).Run tr s) : ¬Racing V n s := by
  have hI := inv_of_run hrun
  obtain ⟨q, p, c⟩ := s
  intro hrace
  cases hrace with
  | producer hpc hsafe =>
      obtain rfl := hpc
      obtain ⟨rfl, hroom, -⟩ := hI.producer
      exact hsafe (hI.queue.memory.writeSafe hroom (hI.queue.knows_head hV))
  | consumer hpc hsafe =>
      obtain rfl := hpc
      obtain ⟨rfl, hitem⟩ := hI.consumer
      exact hsafe (hI.queue.memory.takeSafe hitem hI.queue.cachedTail_le
        (hI.queue.knows_tail hV))

end Ordered
end Spsc
end ConcurrentQueues
