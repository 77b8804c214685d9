import ConcurrentQueues.Mpmc.Invariant

/-!
# Every run keeps the invariant of `StdAtomicMPMCQueue`

Six of the atomic accesses change the queue: the two claims, the two stores of
`seq_` and the two ends of the copy into a cell.  Each is one lemma below; all
other moves concern one thread only.  The invariant of a run is then the
induction over its steps.
-/

namespace ConcurrentQueues

universe u v

namespace StdAtomicMPMCQueue

open Fifo

variable {ι : Type v} {T : Type u} {n : ℕ} {log : List T} {s : State ι T}
  {t : ι}

/-! ## Ownership seen by the moving thread -/

/-- No other thread owns what the moving thread owns. -/
theorem Inv.writing_ne (hI : Inv n log s) {i : ℕ}
    (hi : (s.threads t).writing = some i) :
    ∀ t', t' ≠ t → (s.threads t').writing ≠ some i :=
  fun t' hne h => hne (hI.writer_unique t t' i hi h)

theorem Inv.reading_ne (hI : Inv n log s) {i : ℕ}
    (hi : (s.threads t).reading = some i) :
    ∀ t', t' ≠ t → (s.threads t').reading ≠ some i :=
  fun t' hne h => hne (hI.reader_unique t t' i hi h)

variable [DecidableEq ι]

/-! ## Assembling the invariant after a move -/

theorem Inv.assemble {log' : List T} {q : Queue T} {th : Thread T}
    (hI : Inv n log s) (hshared : SharedInv n log' q)
    (hself : ThreadInv n log' q th)
    (hother : ∀ t', t' ≠ t → ThreadInv n log' q (s.threads t'))
    (hwu : ∀ i, th.writing = some i →
      ∀ t', t' ≠ t → (s.threads t').writing ≠ some i)
    (hru : ∀ i, th.reading = some i →
      ∀ t', t' ≠ t → (s.threads t').reading ≠ some i)
    (hwe : ∀ i, q.readIdx.val ≤ i → i < q.writeIdx.val → q.seqOf n i = i →
      th.writing = some i ∨ ∃ t', t' ≠ t ∧ (s.threads t').writing = some i)
    (hre : ∀ i, i < q.readIdx.val → q.writeIdx.val ≤ i + n →
      q.seqOf n i = i + 1 →
      th.reading = some i ∨ ∃ t', t' ≠ t ∧ (s.threads t').reading = some i) :
    Inv n log' (s.move t q th) where
  shared := hshared
  thread := Pool.forall_move (P := fun _ => ThreadInv n log' q) hself hother
  writer_unique := by
    intro t₁ t₂ i h₁ h₂
    by_cases h1 : t₁ = t
    · by_cases h2 : t₂ = t
      · rw [h1, h2]
      · rw [h1, Pool.move_threads_self] at h₁
        rw [Pool.move_threads_of_ne s q th h2] at h₂
        exact (hwu i h₁ t₂ h2 h₂).elim
    · rw [Pool.move_threads_of_ne s q th h1] at h₁
      by_cases h2 : t₂ = t
      · rw [h2, Pool.move_threads_self] at h₂
        exact (hwu i h₂ t₁ h1 h₁).elim
      · rw [Pool.move_threads_of_ne s q th h2] at h₂
        exact hI.writer_unique t₁ t₂ i h₁ h₂
  reader_unique := by
    intro t₁ t₂ i h₁ h₂
    by_cases h1 : t₁ = t
    · by_cases h2 : t₂ = t
      · rw [h1, h2]
      · rw [h1, Pool.move_threads_self] at h₁
        rw [Pool.move_threads_of_ne s q th h2] at h₂
        exact (hru i h₁ t₂ h2 h₂).elim
    · rw [Pool.move_threads_of_ne s q th h1] at h₁
      by_cases h2 : t₂ = t
      · rw [h2, Pool.move_threads_self] at h₂
        exact (hru i h₂ t₁ h1 h₁).elim
      · rw [Pool.move_threads_of_ne s q th h2] at h₂
        exact hI.reader_unique t₁ t₂ i h₁ h₂
  writer_exists := by
    intro i hR hW hseq
    rcases hwe i hR hW hseq with h | ⟨t', hne, h⟩
    · exact ⟨t, by simpa using h⟩
    · exact ⟨t', by rw [Pool.move_threads_of_ne s q th hne]; exact h⟩
  reader_exists := by
    intro i hR hW hseq
    rcases hre i hR hW hseq with h | ⟨t', hne, h⟩
    · exact ⟨t, by simpa using h⟩
    · exact ⟨t', by rw [Pool.move_threads_of_ne s q th hne]; exact h⟩

/-- The owner of an index is the moving thread or another one. -/
theorem Inv.writer_or (hI : Inv n log s) (t : ι) {i : ℕ}
    (hR : s.shared.readIdx.val ≤ i) (hW : i < s.shared.writeIdx.val)
    (hseq : s.shared.seqOf n i = i) :
    (s.threads t).writing = some i ∨
      ∃ t', t' ≠ t ∧ (s.threads t').writing = some i := by
  obtain ⟨t', ht'⟩ := hI.writer_exists i hR hW hseq
  by_cases hne : t' = t
  · exact Or.inl (hne ▸ ht')
  · exact Or.inr ⟨t', hne, ht'⟩

theorem Inv.reader_or (hI : Inv n log s) (t : ι) {i : ℕ}
    (hR : i < s.shared.readIdx.val) (hW : s.shared.writeIdx.val ≤ i + n)
    (hseq : s.shared.seqOf n i = i + 1) :
    (s.threads t).reading = some i ∨
      ∃ t', t' ≠ t ∧ (s.threads t').reading = some i := by
  obtain ⟨t', ht'⟩ := hI.reader_exists i hR hW hseq
  by_cases hne : t' = t
  · exact Or.inl (hne ▸ ht')
  · exact Or.inr ⟨t', hne, ht'⟩

/-- A move that leaves the queue and the ownership of cells alone. -/
theorem Inv.own_move {th : Thread T} (hI : Inv n log s)
    (hself : ThreadInv n log s.shared th)
    (hw : th.writing = (s.threads t).writing)
    (hr : th.reading = (s.threads t).reading) :
    Inv n log (s.move t s.shared th) := by
  refine hI.assemble hI.shared hself (fun t' _ => hI.thread t') ?_ ?_ ?_ ?_
  · intro i hi
    exact hI.writing_ne (hw ▸ hi)
  · intro i hi
    exact hI.reading_ne (hr ▸ hi)
  · intro i hR hW hseq
    rw [hw]
    exact hI.writer_or t hR hW hseq
  · intro i hR hW hseq
    rw [hr]
    exact hI.reader_or t hR hW hseq

/-! ## The moves that change the queue -/

theorem Inv.pushClaim (hn : 2 ≤ n) (hI : Inv n log s) {item : T} {v : ℕ}
    (hth : s.threads t = .push item (.exchange v))
    (hval : s.shared.writeIdx.val = v) :
    Inv n (log ++ [item])
      (s.move t (s.shared.setWriteIdx (v + 1)) (.push item (.claimed v))) := by
  subst hval
  have hq := hI.shared
  have hpc : PushInv n log s.shared item (.exchange s.shared.writeIdx.val) := by
    have := hI.thread t
    rwa [hth] at this
  have hseq : s.shared.seqOf n s.shared.writeIdx.val =
      s.shared.writeIdx.val :=
    hpc.2.resolve_left (lt_irrefl _)
  refine hI.assemble (hq.claimWrite hn hseq item) ?_
    (fun t' _ => (hI.thread t').claimWrite hn hq hseq item) ?_ ?_ ?_ ?_
  · refine ⟨hq.read_le, Nat.lt_succ_self _, hseq, ?_⟩
    rw [← hq.log_length]
    simp
  · rintro i hi t' - ht'
    obtain rfl : s.shared.writeIdx.val = i := Option.some.inj hi
    obtain ⟨_, hown⟩ := (hI.thread t').of_writing ht'
    exact lt_irrefl _ hown.lt_write
  · intro i hi
    cases hi
  · intro i hR hW hi
    simp only [Queue.setWriteIdx_readIdx, Queue.setWriteIdx_writeIdx,
      Atomic.val_store, seqOf_setWriteIdx] at hR hW hi
    rcases Nat.lt_succ_iff_lt_or_eq.mp hW with hlt | rfl
    · rcases hI.writer_or t hR hlt hi with h | h
      · rw [hth] at h
        cases h
      · exact Or.inr h
    · exact Or.inl rfl
  · intro i hR hW hi
    simp only [Queue.setWriteIdx_readIdx, Queue.setWriteIdx_writeIdx,
      Atomic.val_store, seqOf_setWriteIdx] at hR hW hi
    rcases hI.reader_or t hR (by omega) hi with h | h
    · rw [hth] at h
      cases h
    · exact Or.inr h

theorem Inv.popClaim (hn : 2 ≤ n) (hI : Inv n log s) {item : Option T} {v : ℕ}
    (hth : s.threads t = .pop item (.exchange v))
    (hval : s.shared.readIdx.val = v) :
    Inv n log
      (s.move t (s.shared.setReadIdx (v + 1)) (.pop item (.claimed v))) := by
  subst hval
  have hq := hI.shared
  have hpc : PopInv n log s.shared item (.exchange s.shared.readIdx.val) := by
    have := hI.thread t
    rwa [hth] at this
  have hseq : s.shared.seqOf n s.shared.readIdx.val =
      s.shared.readIdx.val + 1 :=
    hpc.2.resolve_left (lt_irrefl _)
  refine hI.assemble (hq.claimRead hn hseq) ?_
    (fun t' _ => (hI.thread t').claimRead hseq) ?_ ?_ ?_ ?_
  · exact ⟨Nat.lt_succ_self _, hq.write_le, hseq⟩
  · intro i hi
    cases hi
  · rintro i hi t' - ht'
    obtain rfl : s.shared.readIdx.val = i := Option.some.inj hi
    exact lt_irrefl _ ((hI.thread t').of_reading ht').lt_read
  · intro i hR hW hi
    simp only [Queue.setReadIdx_readIdx, Queue.setReadIdx_writeIdx,
      Atomic.val_store, seqOf_setReadIdx] at hR hW hi
    rcases hI.writer_or t (by omega) hW hi with h | h
    · rw [hth] at h
      cases h
    · exact Or.inr h
  · intro i hR hW hi
    simp only [Queue.setReadIdx_readIdx, Queue.setReadIdx_writeIdx,
      Atomic.val_store, seqOf_setReadIdx] at hR hW hi
    rcases Nat.lt_succ_iff_lt_or_eq.mp hR with hlt | rfl
    · rcases hI.reader_or t hlt hW hi with h | h
      · rw [hth] at h
        cases h
      · exact Or.inr h
    · exact Or.inl rfl

/-- Both ends of the copy into a cell: the cell's owner stays its owner. -/
theorem Inv.pushCopy (hI : Inv n log s) {item : T} {v : ℕ} {d : Option T}
    {th : Thread T} (hown : Writing n log s.shared item v)
    (hth : (s.threads t).writing = some v)
    (hread : (s.threads t).reading = none)
    (hself : ThreadInv n log (s.shared.setData (v % n) d) th)
    (hw : th.writing = some v) (hr : th.reading = none) :
    Inv n log (s.move t (s.shared.setData (v % n) d) th) := by
  refine hI.assemble (hI.shared.copyWrite hown d) hself ?_ ?_ ?_ ?_ ?_
  · intro t' hne
    exact (hI.thread t').copyWrite hI.shared hown (hI.writing_ne hth t' hne) d
  · intro i hi
    rw [hw] at hi
    exact hI.writing_ne (hth.trans hi)
  · intro i hi
    rw [hr] at hi
    cases hi
  · intro i hR hW hi
    rw [hw, ← hth]
    exact hI.writer_or t hR hW (by simpa using hi)
  · intro i hR hW hi
    rw [hr, ← hread]
    exact hI.reader_or t hR hW (by simpa using hi)

theorem Inv.pushStore (hn : 2 ≤ n) (hI : Inv n log s) {item : T} {v : ℕ}
    (hth : s.threads t = .push item (.store v)) :
    Inv n log
      (s.move t (s.shared.setSeq (v % n) (v + 1)) (.done v (.pushed true))) := by
  have hq := hI.shared
  have hpc : PushInv n log s.shared item (.store v) := by
    have := hI.thread t
    rwa [hth] at this
  have hown := hpc.1
  have hmine : (s.threads t).writing = some v := by rw [hth]; rfl
  refine hI.assemble (hq.storeWrite hown hpc.2) ⟨rfl, hown.lt_write⟩ ?_ ?_ ?_
    ?_ ?_
  · intro t' hne
    exact (hI.thread t').storeWrite hn hq hown (hI.writing_ne hmine t' hne)
  · intro i hi
    cases hi
  · intro i hi
    cases hi
  · intro i hR hW hi
    simp only [Queue.setSeq_readIdx, Queue.setSeq_writeIdx] at hR hW
    by_cases hslot : i % n = v % n
    · -- the only such index is `v`, which is published now
      have := hown.read_le
      have := hown.lt_write
      have := hq.write_le
      have hiv : i = v := Ring.eq_of_slot_eq hslot (by omega) (by omega)
      rw [seqOf_setSeq_of_eq hslot] at hi
      omega
    · rw [seqOf_setSeq_of_ne hslot] at hi
      rcases hI.writer_or t hR hW hi with h | h
      · rw [hmine] at h
        obtain rfl := Option.some.inj h
        exact absurd rfl hslot
      · exact Or.inr h
  · intro i hR hW hi
    simp only [Queue.setSeq_readIdx, Queue.setSeq_writeIdx] at hR hW
    by_cases hslot : i % n = v % n
    · have := hown.read_le
      rw [seqOf_setSeq_of_eq hslot] at hi
      omega
    · rw [seqOf_setSeq_of_ne hslot] at hi
      rcases hI.reader_or t hR hW hi with h | h
      · rw [hth] at h
        cases h
      · exact Or.inr h

theorem Inv.popStore (hn : 2 ≤ n) (hI : Inv n log s) {item : Option T} {v : ℕ}
    (hth : s.threads t = .pop item (.store v)) :
    Inv n log
      (s.move t (s.shared.setSeq (v % n) (v + n)) (.done v (.popped item))) := by
  have hq := hI.shared
  have hpc : PopInv n log s.shared item (.store v) := by
    have := hI.thread t
    rwa [hth] at this
  have hown := hpc.1
  have hmine : (s.threads t).reading = some v := by rw [hth]; rfl
  refine hI.assemble (hq.storeRead hn hown) ⟨hown.lt_read, hpc.2⟩ ?_ ?_ ?_ ?_
    ?_
  · intro t' hne
    exact (hI.thread t').storeRead hn hown (hI.reading_ne hmine t' hne)
  · intro i hi
    cases hi
  · intro i hi
    cases hi
  · intro i hR hW hi
    simp only [Queue.setSeq_readIdx, Queue.setSeq_writeIdx] at hR hW
    by_cases hslot : i % n = v % n
    · have := hown.write_le
      rw [seqOf_setSeq_of_eq hslot] at hi
      omega
    · rw [seqOf_setSeq_of_ne hslot] at hi
      rcases hI.writer_or t hR hW hi with h | h
      · rw [hth] at h
        cases h
      · exact Or.inr h
  · intro i hR hW hi
    simp only [Queue.setSeq_readIdx, Queue.setSeq_writeIdx] at hR hW
    by_cases hslot : i % n = v % n
    · have := hown.lt_read
      have := hown.write_le
      have := hq.read_le
      have hiv : i = v := Ring.eq_of_slot_eq hslot (by omega) (by omega)
      rw [seqOf_setSeq_of_eq hslot] at hi
      omega
    · rw [seqOf_setSeq_of_ne hslot] at hi
      rcases hI.reader_or t hR hW hi with h | h
      · rw [hmine] at h
        obtain rfl := Option.some.inj h
        exact absurd rfl hslot
      · exact Or.inr h

/-! ## Steps and runs -/

theorem inv_init :
    Inv n [] (system .unbounded n ι T).init where
  shared := by
    refine ⟨Atomic.counts_ofVal_zero, Atomic.counts_ofVal_zero, rfl, le_rfl,
      Nat.zero_le _, ?_, ?_, ?_⟩
    · intro i _ hi
      cases hi
    · intro i _ hi
      have hi' : i < n := by
        simpa [system, Pool.lts, Queue.new, Atomic.ofVal] using hi
      left
      simp [system, Pool.lts, Queue.new, Queue.seqOf, Nat.mod_eq_of_lt hi']
    · intro i _ hi
      cases hi
  thread := fun _ => trivial
  writer_unique := by
    intro _ _ _ h
    cases h
  reader_unique := by
    intro _ _ _ h
    cases h
  writer_exists := by
    intro i _ hi
    cases hi
  reader_exists := by
    intro i hi
    cases hi

theorem Inv.step (hn : 2 ≤ n) (hI : Inv n log s) {e : Event T} {q : Queue T}
    {th th' : Thread T} (hth : s.threads t = th)
    (hmove : Move .unbounded n s.shared th e q th') :
    Inv n (log ++ e.claimed?.toList) (s.move t q th') := by
  have hpc : ThreadInv n log s.shared th := hth ▸ hI.thread t
  have hlog : ∀ {e : Event T}, e.claimed? = none →
      log ++ e.claimed?.toList = log := by
    intro e he
    rw [he, Option.toList_none, List.append_nil]
  cases hmove with
  | callPush | callPop | pushBusy | popBusy | ret =>
      rw [hlog rfl]
      exact hI.own_move trivial (by rw [hth]; rfl) (by rw [hth]; rfl)
  | pushLoad h | pushRetry h =>
      rw [hlog rfl]
      have hle := hI.shared.writeCounts.load_eq_some.mp h
      exact hI.own_move (Nat.le.intro hle) (by rw [hth]; rfl) (by rw [hth]; rfl)
  | popLoad h | popRetry h =>
      rw [hlog rfl]
      have hle := hI.shared.readCounts.load_eq_some.mp h
      exact hI.own_move (Nat.le.intro hle) (by rw [hth]; rfl) (by rw [hth]; rfl)
  | pushReady h | popReady h =>
      rw [hlog rfl]
      exact hI.own_move ⟨hpc, Or.inr h⟩ (by rw [hth]; rfl) (by rw [hth]; rfl)
  | popCopyBegin =>
      rw [hlog rfl]
      exact hI.own_move hpc (by rw [hth]; rfl) (by rw [hth]; rfl)
  | @popCopyEnd _ v =>
      rw [hlog rfl]
      have hown : Reading n s.shared v := hpc
      have hlt : v < s.shared.writeIdx.val :=
        lt_of_lt_of_le hown.lt_read hI.shared.read_le
      have hdata := hI.shared.data_published v hown.write_le hlt hown.seq_eq
      exact hI.own_move ⟨hown, hdata⟩ (by rw [hth]; rfl) (by rw [hth]; rfl)
  | pushClaim h => exact hI.pushClaim hn hth h
  | popClaim h =>
      rw [hlog rfl]
      exact hI.popClaim hn hth h
  | pushCopyBegin =>
      rw [hlog rfl]
      have hown : Writing n log s.shared _ _ := hpc
      refine hI.pushCopy hown (by rw [hth]; rfl) (by rw [hth]; rfl) ?_ rfl rfl
      exact ⟨hown.read_le, hown.lt_write, by simpa using hown.seq_eq,
        hown.item_eq⟩
  | pushCopyEnd =>
      rw [hlog rfl]
      have hown : Writing n log s.shared _ _ := hpc
      refine hI.pushCopy hown (by rw [hth]; rfl) (by rw [hth]; rfl) ?_ rfl rfl
      exact ⟨⟨hown.read_le, hown.lt_write, by simpa using hown.seq_eq,
        hown.item_eq⟩, dataOf_setData_of_eq rfl⟩
  | pushStore =>
      rw [hlog rfl]
      exact hI.pushStore hn hth
  | popStore =>
      rw [hlog rfl]
      exact hI.popStore hn hth

/-- The invariant holds, of the items pushed, after every run. -/
theorem inv_of_run (hn : 2 ≤ n) {tr : List (ι × Event T)}
    (hrun : (system .unbounded n ι T).Run tr s) : Inv n (pushed tr) s := by
  refine Lts.Run.induction (P := fun tr s => Inv n (pushed tr) s)
    inv_init ?_ hrun
  rintro tr s a s' - hI ⟨q, th, hmove, rfl⟩
  rw [pushed_snoc]
  exact hI.step hn rfl (moves_iff.mp hmove)

end StdAtomicMPMCQueue
end ConcurrentQueues
