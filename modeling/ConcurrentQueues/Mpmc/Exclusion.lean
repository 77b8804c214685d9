import ConcurrentQueues.Mpmc.Linearizable
import Mathlib.Data.List.Perm.Subperm

/-!
# Exclusive cells and bounded capacity

The plain `data_` of a cell is protected by the equality tests on `seq_` alone.
From two cells on these tests exclude every two accesses to one cell, and the
queue never holds more than its size.  With one cell the published value of an
index is the free value of the next, and pushes overwrite each other.
-/

namespace ConcurrentQueues

universe u v

namespace StdAtomicMPMCQueue

open Fifo

variable {ι : Type v} {T : Type u} {n : ℕ}

/-! ## Exclusive access to cells -/

/-- The thread is between its successful compare-exchange and its store of
`seq_` to cell `c`. -/
def InCell (n c : ℕ) : Thread T → Prop
  | .push _ pc | .pop _ pc => ∃ i, pc.owned = some i ∧ i % n = c
  | .idle | .done _ _ => False

theorem inCell_iff {c : ℕ} {th : Thread T} :
    InCell n c th ↔ ∃ i, (th.writing = some i ∨ th.reading = some i) ∧
      i % n = c := by
  cases th with
  | idle | done => simp [InCell, Thread.writing, Thread.reading]
  | push | pop => simp [InCell, Thread.writing, Thread.reading]

/-- The cells of a writer and of a reader differ: the cell of one has its own
index in `seq_`, the cell of the other the successor of its index. -/
theorem Writing.slot_ne_of_reading (hn : 2 ≤ n) {log : List T} {q : Queue T}
    {item : T} {i j : ℕ} (hi : Writing n log q item i) (hj : Reading n q j) :
    i % n ≠ j % n := by
  intro hslot
  have hseq : q.seqOf n i = q.seqOf n j := seqOf_congr hslot
  have hij : i = j + 1 := by rw [← hi.seq_eq, hseq, hj.seq_eq]
  exact Ring.slot_succ_ne hn j (by rw [← hij, hslot])

theorem Writing.eq_of_slot {log : List T} {q : Queue T} {x y : T} {i j : ℕ}
    (hi : Writing n log q x i) (hj : Writing n log q y j)
    (hslot : i % n = j % n) : i = j := by
  rw [← hi.seq_eq, seqOf_congr hslot, hj.seq_eq]

theorem Reading.eq_of_slot {q : Queue T} {i j : ℕ} (hi : Reading n q i)
    (hj : Reading n q j) (hslot : i % n = j % n) : i = j := by
  have hseq : q.seqOf n i = q.seqOf n j := seqOf_congr hslot
  rw [hi.seq_eq, hj.seq_eq] at hseq
  omega

theorem Inv.inCell_unique (hn : 2 ≤ n) {log : List T} {s : State ι T}
    (hI : Inv n log s) {c : ℕ} {t t' : ι} (ht : InCell n c (s.threads t))
    (ht' : InCell n c (s.threads t')) : t' = t := by
  obtain ⟨i, hi, rfl⟩ := inCell_iff.mp ht
  obtain ⟨j, hj, hslot⟩ := inCell_iff.mp ht'
  rcases hi with hi | hi <;> rcases hj with hj | hj
  · obtain ⟨x, hx⟩ := (hI.thread t).of_writing hi
    obtain ⟨y, hy⟩ := (hI.thread t').of_writing hj
    rw [hy.eq_of_slot hx hslot] at hj
    exact hI.writer_unique t t' i hi hj
  · obtain ⟨x, hx⟩ := (hI.thread t).of_writing hi
    have hy := (hI.thread t').of_reading hj
    exact (hx.slot_ne_of_reading hn hy hslot.symm).elim
  · have hx := (hI.thread t).of_reading hi
    obtain ⟨y, hy⟩ := (hI.thread t').of_writing hj
    exact (hy.slot_ne_of_reading hn hx hslot).elim
  · have hx := (hI.thread t).of_reading hi
    have hy := (hI.thread t').of_reading hj
    rw [hy.eq_of_slot hx hslot] at hj
    exact hI.reader_unique t t' i hi hj

/-- While a pop owns a cell, the cell holds the item of the push of the same
index. -/
theorem Inv.data_of_reading {log : List T} {s : State ι T} (hI : Inv n log s)
    {t : ι} {k : ℕ} (hk : (s.threads t).reading = some k) :
    ∃ x, log[k]? = some x ∧ s.shared.dataOf n k = some x := by
  have hown := (hI.thread t).of_reading hk
  have hlt : k < s.shared.writeIdx.val :=
    lt_of_lt_of_le hown.lt_read hI.shared.read_le
  have hget : k < log.length := by rw [hI.shared.log_length]; exact hlt
  have hdata := hI.shared.data_published k hown.write_le hlt hown.seq_eq
  rw [List.getElem?_eq_getElem hget] at hdata
  exact ⟨_, List.getElem?_eq_getElem hget, hdata⟩

section Runs

variable [DecidableEq ι]

/-- In every reachable state a cell is accessed by one thread at most, and
from its claim to its store of `seq_` a pop finds in the cell the value
completely written by the push of its index. -/
theorem cell_access_exclusive (hn : 2 ≤ n) {tr : List (ι × Event T)}
    {s : State ι T} (hrun : (system .unbounded n ι T).Run tr s) :
    (∀ c t t', InCell n c (s.threads t) → InCell n c (s.threads t') →
      t' = t) ∧
    (∀ t k, (s.threads t).reading = some k →
      ∃ t' x, (t', Event.claimWrite k x) ∈ tr ∧
        s.shared.dataOf n k = some x) := by
  have hI := inv_of_run hn hrun
  constructor
  · intro c t t' ht ht'
    exact hI.inCell_unique hn ht ht'
  · intro t k hk
    obtain ⟨x, hx, hdata⟩ := hI.data_of_reading hk
    obtain ⟨t', ht'⟩ := claimWrite_mem_of_pushed hrun hx
    exact ⟨t', x, ht', hdata⟩

/-- Thread 1 is inside the copy out of the first cell while thread 0 is inside
the copy into the second. -/
def overlap : List (ℕ × Choice ℕ) :=
  [(0, .call (.push 7)), (0, .see 0), (0, .go), (0, .go), (0, .go), (0, .go),
    (0, .go), (0, .go), (0, .call (.push 8)), (0, .see 0), (0, .go), (0, .go),
    (0, .go), (1, .call .pop), (1, .see 0), (1, .go), (1, .go), (1, .go)]

theorem cell_access_exclusive_overlap :
    ∃ (tr : List (ℕ × Event ℕ)) (s : State ℕ ℕ),
      (system .unbounded 2 ℕ ℕ).Run tr s ∧
        (s.threads 0).writing = some 1 ∧ (s.threads 1).reading = some 0 ∧
        ¬InCell 2 0 (s.threads 0) ∧
        ∃ t' x, (t', Event.claimWrite 0 x) ∈ tr ∧
          s.shared.dataOf 2 0 = some x := by
  obtain ⟨⟨tr, s⟩, hexec, hpcs⟩ := Option.map_eq_some_iff.mp
    (show (Lts.exec (Pool.next (move .unbounded 2))
        ⟨Queue.new .unbounded, fun _ => .idle⟩ overlap).map
        (fun r => ((r.2.threads 0).writing, (r.2.threads 1).reading)) =
          some (some 1, some 0)
      by with_unfolding_all rfl)
  have hrun : (system .unbounded 2 ℕ ℕ).Run tr s := Pool.run_of_exec hexec
  obtain ⟨hwriting, hreading⟩ := Prod.mk.injEq .. ▸ hpcs
  obtain ⟨hone, hread⟩ := cell_access_exclusive le_rfl hrun
  refine ⟨tr, s, hrun, hwriting, hreading, ?_, hread 1 0 hreading⟩
  intro hzero
  have hin : InCell 2 0 (s.threads 1) := inCell_iff.mpr ⟨0, .inr hreading, rfl⟩
  exact absurd (hone 0 1 0 hin hzero) (by decide)

/-! ## Capacity -/

/-- In every reachable state at most `n` indexes are claimed by pushes and not
by pops, and without a pop at most `n` pushes complete. -/
def RespectsCapacity (n : ℕ) (ι : Type v) [DecidableEq ι] (T : Type u) :
    Prop :=
  ∀ (tr : List (ι × Event T)) (s : State ι T),
    (system .unbounded n ι T).Run tr s →
      s.shared.writeIdx.val ≤ s.shared.readIdx.val + n ∧
      ((∀ t, (t, Event.call .pop) ∉ tr) → (pushTickets.returned tr).length ≤ n)

/-- Without a call of `pop` nothing is ever read. -/
theorem readIdx_eq_zero_of_no_pop {tr : List (ι × Event T)} {s : State ι T}
    (hrun : (system .unbounded n ι T).Run tr s)
    (hno : ∀ t, (t, Event.call .pop) ∉ tr) :
    s.shared.readIdx.val = 0 := by
  revert hno
  suffices h : (∀ t, (t, Event.call .pop) ∉ tr) →
      s.shared.readIdx.val = 0 ∧
        ∀ t item pc, s.threads t ≠ .pop item pc from fun hno => (h hno).1
  refine Lts.Run.induction (P := fun tr s =>
    (∀ t, (t, Event.call .pop) ∉ tr) → s.shared.readIdx.val = 0 ∧
      ∀ t item pc, s.threads t ≠ .pop item pc) ?_ ?_ hrun
  · intro _
    exact ⟨rfl, fun _ _ _ h => by cases h⟩
  · rintro tr s ⟨t, e⟩ s' - ih ⟨q, th, hmove, rfl⟩ hno
    obtain ⟨hzero, hnone⟩ := ih fun t' h => hno t' (List.mem_append_left _ h)
    have hcall : e ≠ .call .pop := by
      rintro rfl
      exact hno t (by simp)
    have hmove := moves_iff.mp hmove
    generalize hth : s.threads (t, e).1 = th₀ at hmove
    have hread : q.readIdx.val = 0 ∧ ∀ item pc, th ≠ .pop item pc := by
      cases hmove with
      | callPop => exact absurd rfl hcall
      | popLoad | popReady | popBusy | popClaim | popRetry | popCopyBegin
      | popCopyEnd | popStore => exact absurd hth (hnone t _ _)
      | _ => exact ⟨hzero, by intro _ _ h; cases h⟩
    exact ⟨hread.1, Pool.forall_move
      (P := fun _ (th : Thread T) => ∀ item pc, th ≠ .pop item pc) hread.2
      fun t' _ => hnone t'⟩

theorem respectsCapacity_of_two_le (hn : 2 ≤ n) : RespectsCapacity n ι T := by
  intro tr s hrun
  have hcap := (inv_of_run hn hrun).shared.write_le
  refine ⟨hcap, fun hno => ?_⟩
  have hA := push_accounts hrun
  have hzero := readIdx_eq_zero_of_no_pop hrun hno
  have hsub : pushTickets.returned tr ⊆ List.range n := by
    intro k hk
    have hlt : k < s.shared.writeIdx.val := hA.returned_lt k hk
    exact List.mem_range.mpr (by omega)
  simpa using (List.Nodup.subperm hA.returned_nodup hsub).length_le

/-- One thread pushes `x` twice into a queue of one cell. -/
def pushTwice (x : T) : List (Choice T) :=
  let one := [.call (.push x), .see 0, .go, .go, .go, .go, .go, .go]
  one ++ one

/-- With one cell a second push claims the cell of the first. -/
theorem exists_run_two_pushes [Inhabited ι] [Inhabited T] :
    ∃ (tr : List (ι × Event T)) (s : State ι T),
      (system .unbounded 1 ι T).Run tr s ∧
        s.shared.writeIdx.val = 2 ∧ s.shared.readIdx.val = 0 := by
  obtain ⟨⟨es, q, th⟩, hexec, hidx⟩ := Option.map_eq_some_iff.mp
    (show (Lts.exec (fun p c => move .unbounded 1 p.1 p.2 c)
        (Queue.new .unbounded, .idle) (pushTwice (default : T))).map
        (fun r => (r.2.1.writeIdx.val, r.2.1.readIdx.val)) = some (2, 0)
      by with_unfolding_all rfl)
  obtain ⟨hW, hR⟩ := Prod.mk.injEq .. ▸ hidx
  exact ⟨_, _, Pool.path_of_solo (t := (default : ι)) hexec, hW, hR⟩

/-- A queue of one cell or more respects its capacity exactly when it has two
cells or more. -/
theorem respects_capacity_iff [Inhabited ι] [Inhabited T] (hn : 1 ≤ n) :
    RespectsCapacity n ι T ↔ 2 ≤ n := by
  constructor
  · intro h
    by_contra hlt
    obtain rfl : n = 1 := by omega
    obtain ⟨tr, s, hrun, hW, hR⟩ := exists_run_two_pushes (ι := ι) (T := T)
    have := (h tr s hrun).1
    omega
  · exact respectsCapacity_of_two_le

theorem respects_capacity_two : RespectsCapacity 2 ℕ ℕ :=
  (respects_capacity_iff (by decide)).mpr le_rfl

theorem not_respectsCapacity_one : ¬RespectsCapacity 1 ℕ ℕ := by
  intro h
  obtain ⟨tr, s, hrun, hW, hR⟩ := exists_run_two_pushes (ι := ℕ) (T := ℕ)
  have := (h tr s hrun).1
  omega

end Runs

end StdAtomicMPMCQueue
end ConcurrentQueues
