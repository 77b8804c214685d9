import ConcurrentQueues.Mpmc.Model
import ConcurrentQueues.Support.Ring

/-!
# The invariant of `StdAtomicMPMCQueue`

With counters taken as unbounded naturals, the sequence number of a cell tells
where its current index stands.  Over the window of one lap that starts at
`read_idx_`, an index below `write_idx_` is being written or published, and an
index from `write_idx_` on is free or its cell is still being read on the lap
before.  Every thread between its compare-exchange and its store of `seq_` owns
one index, and a thread that saw a matching `seq_` holds an index that is still
free or has been claimed since.
-/

namespace ConcurrentQueues

universe u v

namespace StdAtomicMPMCQueue

open Fifo

variable {ι : Type v} {T : Type u}

/-- Threads on a shared queue. -/
abbrev State (ι : Type v) (T : Type u) := Pool ι (Queue T) (Thread T)

/-! ## The history of claims -/

/-- The item of a claim on `write_idx_`. -/
def Event.claimed? : Event T → Option T
  | .claimWrite _ item => some item
  | _ => none

/-- The items pushed along a trace, in the order of their claims on
`write_idx_`. -/
def pushed (tr : List (ι × Event T)) : List T :=
  tr.filterMap fun a => a.2.claimed?

theorem pushed_snoc (tr : List (ι × Event T)) (a : ι × Event T) :
    pushed (tr ++ [a]) = pushed tr ++ a.2.claimed?.toList := by
  rw [pushed, List.filterMap_append]
  cases h : a.2.claimed? <;> simp [pushed, h]

/-! ## Cells by index -/

/-- `seq_` of the cell of index `i`. -/
def Queue.seqOf (q : Queue T) (n i : ℕ) : ℕ :=
  (q.buffer (i % n)).seq

/-- `data_` of the cell of index `i`. -/
def Queue.dataOf (q : Queue T) (n i : ℕ) : Option T :=
  (q.buffer (i % n)).data

section Cells

variable {q : Queue T} {n i j k : ℕ} {d : Option T}

theorem seqOf_congr (h : i % n = j % n) : q.seqOf n i = q.seqOf n j := by
  rw [Queue.seqOf, h, Queue.seqOf]

theorem seqOf_setSeq_of_eq (h : j % n = i % n) :
    (q.setSeq (i % n) k).seqOf n j = k := by
  rw [Queue.seqOf, h, Queue.setSeq_seq_self]

theorem seqOf_setSeq_of_ne (h : j % n ≠ i % n) :
    (q.setSeq (i % n) k).seqOf n j = q.seqOf n j :=
  Queue.setSeq_seq_of_ne q k h

theorem dataOf_setData_of_eq (h : j % n = i % n) :
    (q.setData (i % n) d).dataOf n j = d := by
  rw [Queue.dataOf, h, Queue.setData_data_self]

theorem dataOf_setData_of_ne (h : j % n ≠ i % n) :
    (q.setData (i % n) d).dataOf n j = q.dataOf n j :=
  Queue.setData_data_of_ne q d h

@[simp] theorem dataOf_setSeq (c : ℕ) :
    (q.setSeq c k).dataOf n j = q.dataOf n j :=
  Queue.setSeq_data q c (j % n) k

@[simp] theorem seqOf_setData (c : ℕ) :
    (q.setData c d).seqOf n j = q.seqOf n j :=
  Queue.setData_seq q c (j % n) d

@[simp] theorem seqOf_setWriteIdx :
    (q.setWriteIdx k).seqOf n j = q.seqOf n j := rfl

@[simp] theorem seqOf_setReadIdx :
    (q.setReadIdx k).seqOf n j = q.seqOf n j := rfl

@[simp] theorem dataOf_setWriteIdx :
    (q.setWriteIdx k).dataOf n j = q.dataOf n j := rfl

@[simp] theorem dataOf_setReadIdx :
    (q.setReadIdx k).dataOf n j = q.dataOf n j := rfl

end Cells

/-! ## Ownership of indexes -/

/-- The index a thread holds between its compare-exchange and its store of
`seq_`. -/
def Pc.owned : Pc → Option ℕ
  | .claimed idx | .copying idx | .store idx => some idx
  | .load | .check _ | .exchange _ => none

/-- The index a push has claimed and not yet published. -/
def Thread.writing : Thread T → Option ℕ
  | .push _ pc => pc.owned
  | _ => none

/-- The index a pop has claimed and not yet released. -/
def Thread.reading : Thread T → Option ℕ
  | .pop _ pc => pc.owned
  | _ => none

/-! ## The clauses of the invariant -/

/-- What holds of the shared queue; `log` holds the items pushed so far. -/
structure SharedInv (n : ℕ) (log : List T) (q : Queue T) : Prop where
  writeCounts : q.writeIdx.Counts
  readCounts : q.readIdx.Counts
  log_length : log.length = q.writeIdx.val
  read_le : q.readIdx.val ≤ q.writeIdx.val
  write_le : q.writeIdx.val ≤ q.readIdx.val + n
  seq_pushed : ∀ i, q.readIdx.val ≤ i → i < q.writeIdx.val →
    q.seqOf n i = i ∨ q.seqOf n i = i + 1
  seq_free : ∀ i, q.writeIdx.val ≤ i → i < q.readIdx.val + n →
    q.seqOf n i = i ∨ n ≤ i ∧ q.seqOf n i + n = i + 1
  data_published : ∀ i, q.writeIdx.val ≤ i + n → i < q.writeIdx.val →
    q.seqOf n i = i + 1 → q.dataOf n i = log[i]?

/-- A push owns index `i`: the index is claimed and its cell not published. -/
structure Writing (n : ℕ) (log : List T) (q : Queue T) (item : T) (i : ℕ) :
    Prop where
  read_le : q.readIdx.val ≤ i
  lt_write : i < q.writeIdx.val
  seq_eq : q.seqOf n i = i
  item_eq : log[i]? = some item

/-- A pop owns index `i`: the index is claimed and its cell not released. -/
structure Reading (n : ℕ) (q : Queue T) (i : ℕ) : Prop where
  lt_read : i < q.readIdx.val
  write_le : q.writeIdx.val ≤ i + n
  seq_eq : q.seqOf n i = i + 1

/-- What holds of a thread inside `push`.  A thread whose `seq` matched holds
an index that is still free, or stale. -/
def PushInv (n : ℕ) (log : List T) (q : Queue T) (item : T) : Pc → Prop
  | .load => True
  | .check v => v ≤ q.writeIdx.val
  | .exchange v => v ≤ q.writeIdx.val ∧ (v < q.writeIdx.val ∨ q.seqOf n v = v)
  | .claimed v | .copying v => Writing n log q item v
  | .store v => Writing n log q item v ∧ q.dataOf n v = some item

/-- What holds of a thread inside `pop`. -/
def PopInv (n : ℕ) (log : List T) (q : Queue T) (item : Option T) : Pc → Prop
  | .load => True
  | .check v => v ≤ q.readIdx.val
  | .exchange v =>
      v ≤ q.readIdx.val ∧ (v < q.readIdx.val ∨ q.seqOf n v = v + 1)
  | .claimed v | .copying v => Reading n q v
  | .store v => Reading n q v ∧ item = log[v]?

/-- What holds of a thread. -/
def ThreadInv (n : ℕ) (log : List T) (q : Queue T) : Thread T → Prop
  | .idle => True
  | .push item pc => PushInv n log q item pc
  | .pop item pc => PopInv n log q item pc
  | .done idx (.pushed b) => b = true ∧ idx < q.writeIdx.val
  | .done idx (.popped item) => idx < q.readIdx.val ∧ item = log[idx]?

/-- The invariant.  The last four clauses say that unpublished and unreleased
cells are exactly the cells owned by a thread, and by one thread only. -/
structure Inv (n : ℕ) (log : List T) (s : State ι T) : Prop where
  shared : SharedInv n log s.shared
  thread : ∀ t, ThreadInv n log s.shared (s.threads t)
  writer_unique : ∀ t t' i, (s.threads t).writing = some i →
    (s.threads t').writing = some i → t' = t
  reader_unique : ∀ t t' i, (s.threads t).reading = some i →
    (s.threads t').reading = some i → t' = t
  writer_exists : ∀ i, s.shared.readIdx.val ≤ i → i < s.shared.writeIdx.val →
    s.shared.seqOf n i = i → ∃ t, (s.threads t).writing = some i
  reader_exists : ∀ i, i < s.shared.readIdx.val →
    s.shared.writeIdx.val ≤ i + n → s.shared.seqOf n i = i + 1 →
    ∃ t, (s.threads t).reading = some i

theorem ThreadInv.of_writing {n : ℕ} {log : List T} {q : Queue T}
    {th : Thread T} {i : ℕ} (h : ThreadInv n log q th)
    (hi : th.writing = some i) : ∃ item, Writing n log q item i := by
  cases th with
  | push item pc =>
      cases pc <;> simp only [Thread.writing, Pc.owned, reduceCtorEq,
        Option.some.injEq] at hi
      · subst hi
        exact ⟨item, h⟩
      · subst hi
        exact ⟨item, h⟩
      · subst hi
        exact ⟨item, h.1⟩
  | idle | pop | done => cases hi

theorem ThreadInv.of_reading {n : ℕ} {log : List T} {q : Queue T}
    {th : Thread T} {i : ℕ} (h : ThreadInv n log q th)
    (hi : th.reading = some i) : Reading n q i := by
  cases th with
  | pop item pc =>
      cases pc <;> simp only [Thread.reading, Pc.owned, reduceCtorEq,
        Option.some.injEq] at hi
      · subst hi
        exact h
      · subst hi
        exact h
      · subst hi
        exact h.1
  | idle | push | done => cases hi

/-! ## The shared clauses are kept -/

section Shared

variable {n : ℕ} {log : List T} {q : Queue T}

/-- A claim on `write_idx_` finds its cell free, so there was room. -/
theorem SharedInv.write_lt (hn : 2 ≤ n) (h : SharedInv n log q)
    (hseq : q.seqOf n q.writeIdx.val = q.writeIdx.val) :
    q.writeIdx.val < q.readIdx.val + n := by
  have hle := h.write_le
  by_contra hnot
  have hW : q.writeIdx.val = q.readIdx.val + n := by omega
  have hcell : q.seqOf n q.readIdx.val = q.writeIdx.val := by
    rw [← hseq]
    apply seqOf_congr
    rw [hW, Ring.slot_add_self]
  rcases h.seq_pushed q.readIdx.val le_rfl (by omega) with hR | hR
  · omega
  · omega

/-- A claim on `read_idx_` finds its cell published, so there was an item. -/
theorem SharedInv.read_lt (hn : 2 ≤ n) (h : SharedInv n log q)
    (hseq : q.seqOf n q.readIdx.val = q.readIdx.val + 1) :
    q.readIdx.val < q.writeIdx.val := by
  have hle := h.read_le
  by_contra hnot
  rcases h.seq_free q.readIdx.val (by omega) (by omega) with hR | hR
  · omega
  · omega

theorem SharedInv.claimWrite (hn : 2 ≤ n) (h : SharedInv n log q)
    (hseq : q.seqOf n q.writeIdx.val = q.writeIdx.val) (item : T) :
    SharedInv n (log ++ [item]) (q.setWriteIdx (q.writeIdx.val + 1)) where
  writeCounts := h.writeCounts.store_succ
  readCounts := h.readCounts
  log_length := by simp [h.log_length]
  read_le := by
    have := h.read_le
    simp only [Queue.setWriteIdx_readIdx, Queue.setWriteIdx_writeIdx,
      Atomic.val_store]
    omega
  write_le := by
    have := h.write_lt hn hseq
    simp only [Queue.setWriteIdx_readIdx, Queue.setWriteIdx_writeIdx,
      Atomic.val_store]
    omega
  seq_pushed := by
    intro i hR hW
    simp only [Queue.setWriteIdx_readIdx, Queue.setWriteIdx_writeIdx,
      Atomic.val_store, seqOf_setWriteIdx] at hR hW ⊢
    rcases Nat.lt_succ_iff_lt_or_eq.mp hW with hlt | rfl
    · exact h.seq_pushed i hR hlt
    · exact Or.inl hseq
  seq_free := by
    intro i hW hR
    simp only [Queue.setWriteIdx_readIdx, Queue.setWriteIdx_writeIdx,
      Atomic.val_store, seqOf_setWriteIdx] at hR hW ⊢
    exact h.seq_free i (by omega) hR
  data_published := by
    intro i hlo hhi hi
    simp only [Queue.setWriteIdx_writeIdx, Atomic.val_store,
      seqOf_setWriteIdx, dataOf_setWriteIdx] at hlo hhi hi ⊢
    rcases Nat.lt_succ_iff_lt_or_eq.mp hhi with hlt | rfl
    · rw [List.getElem?_append_left (by rw [h.log_length]; exact hlt)]
      exact h.data_published i (by omega) hlt hi
    · omega

theorem SharedInv.claimRead (hn : 2 ≤ n) (h : SharedInv n log q)
    (hseq : q.seqOf n q.readIdx.val = q.readIdx.val + 1) :
    SharedInv n log (q.setReadIdx (q.readIdx.val + 1)) where
  writeCounts := h.writeCounts
  readCounts := h.readCounts.store_succ
  log_length := h.log_length
  read_le := h.read_lt hn hseq
  write_le := by
    have := h.write_le
    simp only [Queue.setReadIdx_readIdx, Queue.setReadIdx_writeIdx,
      Atomic.val_store]
    omega
  seq_pushed := by
    intro i hR hW
    simp only [Queue.setReadIdx_readIdx, Queue.setReadIdx_writeIdx,
      Atomic.val_store, seqOf_setReadIdx] at hR hW ⊢
    exact h.seq_pushed i (by omega) hW
  seq_free := by
    intro i hW hR
    simp only [Queue.setReadIdx_readIdx, Queue.setReadIdx_writeIdx,
      Atomic.val_store, seqOf_setReadIdx] at hR hW ⊢
    by_cases hlt : i < q.readIdx.val + n
    · exact h.seq_free i hW hlt
    · -- the cell just claimed for reading is free for the next lap only
      have hi : i = q.readIdx.val + n := by omega
      have hcell : q.seqOf n i = q.seqOf n q.readIdx.val :=
        seqOf_congr (by rw [hi, Ring.slot_add_self])
      right
      omega
  data_published := h.data_published

theorem SharedInv.storeWrite (h : SharedInv n log q) {item : T} {i : ℕ}
    (hi : Writing n log q item i) (hdata : q.dataOf n i = some item) :
    SharedInv n log (q.setSeq (i % n) (i + 1)) where
  writeCounts := h.writeCounts
  readCounts := h.readCounts
  log_length := h.log_length
  read_le := h.read_le
  write_le := h.write_le
  seq_pushed := by
    intro j hR hW
    simp only [Queue.setSeq_readIdx, Queue.setSeq_writeIdx] at hR hW
    have hcap := h.write_le
    by_cases hslot : j % n = i % n
    · have := hi.read_le
      have := hi.lt_write
      have hji : j = i := Ring.eq_of_slot_eq hslot (by omega) (by omega)
      right
      rw [seqOf_setSeq_of_eq hslot, hji]
    · rw [seqOf_setSeq_of_ne hslot]
      exact h.seq_pushed j hR hW
  seq_free := by
    intro j hW hR
    simp only [Queue.setSeq_readIdx, Queue.setSeq_writeIdx] at hR hW
    by_cases hslot : j % n = i % n
    · have := hi.read_le
      have := hi.lt_write
      have := Ring.add_le_of_slot_eq hslot.symm (by omega)
      omega
    · rw [seqOf_setSeq_of_ne hslot]
      exact h.seq_free j hW hR
  data_published := by
    intro j hlo hhi hj
    simp only [Queue.setSeq_writeIdx] at hlo hhi
    rw [dataOf_setSeq]
    by_cases hslot : j % n = i % n
    · have := hi.read_le
      have := hi.lt_write
      have := h.write_le
      have hji : j = i := Ring.eq_of_slot_eq hslot (by omega) (by omega)
      rw [hji, hdata, hi.item_eq]
    · rw [seqOf_setSeq_of_ne hslot] at hj
      exact h.data_published j hlo hhi hj

theorem SharedInv.storeRead (hn : 2 ≤ n) (h : SharedInv n log q) {i : ℕ}
    (hi : Reading n q i) : SharedInv n log (q.setSeq (i % n) (i + n)) where
  writeCounts := h.writeCounts
  readCounts := h.readCounts
  log_length := h.log_length
  read_le := h.read_le
  write_le := h.write_le
  seq_pushed := by
    intro j hR hW
    simp only [Queue.setSeq_readIdx, Queue.setSeq_writeIdx] at hR hW
    by_cases hslot : j % n = i % n
    · have := hi.lt_read
      have := hi.write_le
      have := Ring.add_le_of_slot_eq hslot.symm (by omega)
      omega
    · rw [seqOf_setSeq_of_ne hslot]
      exact h.seq_pushed j hR hW
  seq_free := by
    intro j hW hR
    simp only [Queue.setSeq_readIdx, Queue.setSeq_writeIdx] at hR hW
    by_cases hslot : j % n = i % n
    · have := hi.lt_read
      have := hi.write_le
      have := h.read_le
      have hji : j = i + n :=
        Ring.eq_of_slot_eq (by rw [hslot, Ring.slot_add_self])
          (by omega) (by omega)
      left
      rw [seqOf_setSeq_of_eq hslot, hji]
    · rw [seqOf_setSeq_of_ne hslot]
      exact h.seq_free j hW hR
  data_published := by
    intro j hlo hhi hj
    simp only [Queue.setSeq_writeIdx] at hlo hhi
    rw [dataOf_setSeq]
    by_cases hslot : j % n = i % n
    · have := hi.lt_read
      have := hi.write_le
      have := h.read_le
      have hji : j = i := Ring.eq_of_slot_eq hslot (by omega) (by omega)
      rw [seqOf_setSeq_of_eq hslot] at hj
      omega
    · rw [seqOf_setSeq_of_ne hslot] at hj
      exact h.data_published j hlo hhi hj

/-- Copying into a claimed cell touches no published item. -/
theorem SharedInv.copyWrite (h : SharedInv n log q) {item : T} {i : ℕ}
    (hi : Writing n log q item i) (d : Option T) :
    SharedInv n log (q.setData (i % n) d) where
  writeCounts := h.writeCounts
  readCounts := h.readCounts
  log_length := h.log_length
  read_le := h.read_le
  write_le := h.write_le
  seq_pushed := by simpa using h.seq_pushed
  seq_free := by simpa using h.seq_free
  data_published := by
    intro j hlo hhi hj
    simp only [Queue.setData_writeIdx, seqOf_setData] at hlo hhi hj
    by_cases hslot : j % n = i % n
    · have := hi.read_le
      have := hi.lt_write
      have := hi.seq_eq
      have := h.write_le
      have hji : j = i := Ring.eq_of_slot_eq hslot (by omega) (by omega)
      rw [hji] at hj
      omega
    · rw [dataOf_setData_of_ne hslot]
      exact h.data_published j hlo hhi hj

end Shared

/-! ## The clauses of the other threads are kept -/

section Others

variable {n : ℕ} {log : List T} {q : Queue T} {th : Thread T}

theorem ThreadInv.claimWrite (hn : 2 ≤ n) (hq : SharedInv n log q)
    (hseq : q.seqOf n q.writeIdx.val = q.writeIdx.val) (item : T)
    (h : ThreadInv n log q th) :
    ThreadInv n (log ++ [item]) (q.setWriteIdx (q.writeIdx.val + 1)) th := by
  have hlog := hq.log_length
  have hwriting : ∀ {x v}, Writing n log q x v →
      Writing n (log ++ [item]) (q.setWriteIdx (q.writeIdx.val + 1)) x v := by
    intro x v hv
    refine ⟨hv.read_le, Nat.lt_succ_of_lt hv.lt_write, hv.seq_eq, ?_⟩
    rw [List.getElem?_append_left (by rw [hlog]; exact hv.lt_write)]
    exact hv.item_eq
  have hreading : ∀ {v}, Reading n q v →
      Reading n (q.setWriteIdx (q.writeIdx.val + 1)) v := by
    intro v hv
    refine ⟨hv.lt_read, ?_, hv.seq_eq⟩
    -- the cell of `v` is not the free cell that was claimed
    have hne : q.writeIdx.val ≠ v + n := by
      intro heq
      have hcell : q.seqOf n q.writeIdx.val = q.seqOf n v :=
        seqOf_congr (by rw [heq, Ring.slot_add_self])
      have := hv.seq_eq
      omega
    have := hv.write_le
    simp only [Queue.setWriteIdx_writeIdx, Atomic.val_store]
    omega
  have hitem : ∀ {v}, v < q.readIdx.val → (log ++ [item])[v]? = log[v]? := by
    intro v hv
    have := hq.read_le
    exact List.getElem?_append_left (by omega)
  cases th with
  | idle => trivial
  | push x pc =>
      cases pc with
      | load => trivial
      | check v => exact Nat.le_succ_of_le h
      | exchange v =>
          refine ⟨Nat.le_succ_of_le h.1, Or.inl ?_⟩
          exact Nat.lt_succ_of_le h.1
      | claimed v | copying v => exact hwriting h
      | store v => exact ⟨hwriting h.1, h.2⟩
  | pop x pc =>
      cases pc with
      | load => trivial
      | check v => exact h
      | exchange v => exact h
      | claimed v | copying v => exact hreading h
      | store v => exact ⟨hreading h.1, by rw [hitem h.1.lt_read]; exact h.2⟩
  | done idx r =>
      cases r with
      | pushed b => exact ⟨h.1, Nat.lt_succ_of_lt h.2⟩
      | popped x => exact ⟨h.1, by rw [hitem h.1]; exact h.2⟩

theorem ThreadInv.claimRead
    (hseq : q.seqOf n q.readIdx.val = q.readIdx.val + 1)
    (h : ThreadInv n log q th) :
    ThreadInv n log (q.setReadIdx (q.readIdx.val + 1)) th := by
  have hwriting : ∀ {x v}, Writing n log q x v →
      Writing n log (q.setReadIdx (q.readIdx.val + 1)) x v := by
    intro x v hv
    refine ⟨?_, hv.lt_write, hv.seq_eq, hv.item_eq⟩
    -- the cell of `v` is not published, so it is not the one claimed
    have hne : v ≠ q.readIdx.val := by
      rintro rfl
      have := hv.seq_eq
      omega
    have := hv.read_le
    simp only [Queue.setReadIdx_readIdx, Atomic.val_store]
    omega
  have hreading : ∀ {v}, Reading n q v →
      Reading n (q.setReadIdx (q.readIdx.val + 1)) v := by
    intro v hv
    exact ⟨Nat.lt_succ_of_lt hv.lt_read, hv.write_le, hv.seq_eq⟩
  cases th with
  | idle => trivial
  | push x pc =>
      cases pc with
      | load => trivial
      | check v => exact h
      | exchange v => exact h
      | claimed v | copying v => exact hwriting h
      | store v => exact ⟨hwriting h.1, h.2⟩
  | pop x pc =>
      cases pc with
      | load => trivial
      | check v => exact Nat.le_succ_of_le h
      | exchange v =>
          refine ⟨Nat.le_succ_of_le h.1, Or.inl ?_⟩
          exact Nat.lt_succ_of_le h.1
      | claimed v | copying v => exact hreading h
      | store v => exact ⟨hreading h.1, h.2⟩
  | done idx r =>
      cases r with
      | pushed b => exact h
      | popped x => exact ⟨Nat.lt_succ_of_lt h.1, h.2⟩

theorem ThreadInv.storeWrite (hn : 2 ≤ n) (hq : SharedInv n log q)
    {item : T} {i : ℕ} (hi : Writing n log q item i)
    (hne : th.writing ≠ some i) (h : ThreadInv n log q th) :
    ThreadInv n log (q.setSeq (i % n) (i + 1)) th := by
  -- a cell whose `seq_` is one past its index is not the cell of `i`
  have hpublished : ∀ {v}, q.seqOf n v = v + 1 → v % n ≠ i % n := by
    intro v hv hslot
    have hcell : q.seqOf n v = q.seqOf n i := seqOf_congr hslot
    have hvi : v + 1 = i := by rw [← hv, hcell, hi.seq_eq]
    exact Ring.slot_succ_ne hn v (by rw [hvi, hslot])
  have hwriting : ∀ {x v}, v ≠ i → Writing n log q x v →
      Writing n log (q.setSeq (i % n) (i + 1)) x v := by
    intro x v hvi hv
    have hslot : v % n ≠ i % n := by
      intro hslot
      have := hi.read_le
      have := hi.lt_write
      have := hv.read_le
      have := hv.lt_write
      have := hq.write_le
      exact hvi (Ring.eq_of_slot_eq hslot (by omega) (by omega))
    exact ⟨hv.read_le, hv.lt_write,
      by rw [seqOf_setSeq_of_ne hslot]; exact hv.seq_eq, hv.item_eq⟩
  have hreading : ∀ {v}, Reading n q v →
      Reading n (q.setSeq (i % n) (i + 1)) v := by
    intro v hv
    refine ⟨hv.lt_read, hv.write_le, ?_⟩
    rw [seqOf_setSeq_of_ne (hpublished hv.seq_eq)]
    exact hv.seq_eq
  cases th with
  | idle => trivial
  | push x pc =>
      cases pc with
      | load => trivial
      | check v => exact h
      | exchange v =>
          refine ⟨h.1, ?_⟩
          rcases h.2 with hlt | hseq
          · exact Or.inl hlt
          · by_cases hslot : v % n = i % n
            · have hcell : q.seqOf n v = q.seqOf n i := seqOf_congr hslot
              left
              have := hi.seq_eq
              have := hi.lt_write
              simp only [Queue.setSeq_writeIdx]
              omega
            · right
              rw [seqOf_setSeq_of_ne hslot]
              exact hseq
      | claimed v | copying v =>
          exact hwriting (fun hvi => hne (by rw [hvi]; rfl)) h
      | store v =>
          refine ⟨hwriting (fun hvi => hne (by rw [hvi]; rfl)) h.1, ?_⟩
          rw [dataOf_setSeq]
          exact h.2
  | pop x pc =>
      cases pc with
      | load => trivial
      | check v => exact h
      | exchange v =>
          refine ⟨h.1, ?_⟩
          rcases h.2 with hlt | hseq
          · exact Or.inl hlt
          · right
            rw [seqOf_setSeq_of_ne (hpublished hseq)]
            exact hseq
      | claimed v | copying v => exact hreading h
      | store v => exact ⟨hreading h.1, h.2⟩
  | done idx r => cases r <;> exact h

theorem ThreadInv.storeRead (hn : 2 ≤ n) {i : ℕ} (hi : Reading n q i)
    (hne : th.reading ≠ some i) (h : ThreadInv n log q th) :
    ThreadInv n log (q.setSeq (i % n) (i + n)) th := by
  -- a cell whose `seq_` equals its index is not the cell of `i`
  have hunpublished : ∀ {v}, q.seqOf n v = v → v % n ≠ i % n := by
    intro v hv hslot
    have hcell : q.seqOf n v = q.seqOf n i := seqOf_congr hslot
    have hvi : v = i + 1 := by rw [← hv, hcell, hi.seq_eq]
    exact Ring.slot_succ_ne hn i (by rw [← hvi, hslot])
  have hpublished : ∀ {v}, v ≠ i → q.seqOf n v = v + 1 → v % n ≠ i % n := by
    intro v hvi hv hslot
    have hcell : q.seqOf n v = q.seqOf n i := seqOf_congr hslot
    have := hi.seq_eq
    omega
  have hwriting : ∀ {x v}, Writing n log q x v →
      Writing n log (q.setSeq (i % n) (i + n)) x v := by
    intro x v hv
    refine ⟨hv.read_le, hv.lt_write, ?_, hv.item_eq⟩
    rw [seqOf_setSeq_of_ne (hunpublished hv.seq_eq)]
    exact hv.seq_eq
  have hreading : ∀ {v}, v ≠ i → Reading n q v →
      Reading n (q.setSeq (i % n) (i + n)) v := by
    intro v hvi hv
    refine ⟨hv.lt_read, hv.write_le, ?_⟩
    rw [seqOf_setSeq_of_ne (hpublished hvi hv.seq_eq)]
    exact hv.seq_eq
  cases th with
  | idle => trivial
  | push x pc =>
      cases pc with
      | load => trivial
      | check v => exact h
      | exchange v =>
          refine ⟨h.1, ?_⟩
          rcases h.2 with hlt | hseq
          · exact Or.inl hlt
          · right
            rw [seqOf_setSeq_of_ne (hunpublished hseq)]
            exact hseq
      | claimed v | copying v => exact hwriting h
      | store v =>
          refine ⟨hwriting h.1, ?_⟩
          rw [dataOf_setSeq]
          exact h.2
  | pop x pc =>
      cases pc with
      | load => trivial
      | check v => exact h
      | exchange v =>
          refine ⟨h.1, ?_⟩
          rcases h.2 with hlt | hseq
          · exact Or.inl hlt
          · by_cases hvi : v = i
            · left
              rw [hvi]
              exact hi.lt_read
            · right
              rw [seqOf_setSeq_of_ne (hpublished hvi hseq)]
              exact hseq
      | claimed v | copying v =>
          exact hreading (fun hvi => hne (by rw [hvi]; rfl)) h
      | store v =>
          exact ⟨hreading (fun hvi => hne (by rw [hvi]; rfl)) h.1, h.2⟩
  | done idx r => cases r <;> exact h

theorem ThreadInv.copyWrite (hq : SharedInv n log q) {item : T} {i : ℕ}
    (hi : Writing n log q item i) (hne : th.writing ≠ some i) (d : Option T)
    (h : ThreadInv n log q th) :
    ThreadInv n log (q.setData (i % n) d) th := by
  have hwriting : ∀ {x v}, Writing n log q x v →
      Writing n log (q.setData (i % n) d) x v := by
    intro x v hv
    exact ⟨hv.read_le, hv.lt_write, by simpa using hv.seq_eq, hv.item_eq⟩
  have hreading : ∀ {v}, Reading n q v →
      Reading n (q.setData (i % n) d) v := by
    intro v hv
    exact ⟨hv.lt_read, hv.write_le, by simpa using hv.seq_eq⟩
  cases th with
  | idle => trivial
  | push x pc =>
      cases pc with
      | load => trivial
      | check v => exact h
      | exchange v => exact ⟨h.1, by simpa using h.2⟩
      | claimed v | copying v => exact hwriting h
      | store v =>
          refine ⟨hwriting h.1, ?_⟩
          have hslot : v % n ≠ i % n := by
            intro hslot
            have hvi : v ≠ i := fun hvi => hne (by rw [hvi]; rfl)
            have := hi.read_le
            have := hi.lt_write
            have := h.1.read_le
            have := h.1.lt_write
            have := hq.write_le
            exact hvi (Ring.eq_of_slot_eq hslot (by omega) (by omega))
          rw [dataOf_setData_of_ne hslot]
          exact h.2
  | pop x pc =>
      cases pc with
      | load => trivial
      | check v => exact h
      | exchange v => exact ⟨h.1, by simpa using h.2⟩
      | claimed v | copying v => exact hreading h
      | store v => exact ⟨hreading h.1, h.2⟩
  | done idx r => cases r <;> exact h

end Others

end StdAtomicMPMCQueue
end ConcurrentQueues
