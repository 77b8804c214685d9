import ConcurrentQueues.Mpmc.Orders
import ConcurrentQueues.Support.Ring
import Mathlib.Algebra.Ring.Parity

/-!
# The cells of the multi-producer multi-consumer queues are free of races

The messages of `seq_` of a cell are numbered: an even one lets a push in and an
odd one a pop, and the call that is let in leaves the next one.  So a cell has at
most one user, who has been told of all accesses before, since whoever stores
`seq_` passes on what it knows.  Old values of the indexes and of `seq_` lead to
another round of the loop and to nothing worse.
-/

namespace ConcurrentQueues

universe u v

namespace Mpmc

open Fifo

variable {ι : Type v} {T : Type u} {n k : ℕ} {log : List T}

/-- Every store of `seq_` synchronizes with the loads that wait for it. -/
def Variant.Synchronizes (V : Variant) : Prop :=
  ∀ role, (V.seqStore role).releases ∧ (V.seqLoad role).acquires

/-! ## The messages of a cell -/

/-- The value of message `j` of `seq_` of cell `c`. -/
def seqVal (n c j : ℕ) : ℕ :=
  c + j / 2 * n + j % 2

/-- The message of `seq_` that lets a call claim `idx`. -/
def Role.rank (n idx : ℕ) : Role → ℕ
  | .push => 2 * (idx / n)
  | .pop => 2 * (idx / n) + 1

theorem seqVal_even (c j : ℕ) : seqVal n c (2 * j) = c + j * n := by
  rw [seqVal, Nat.mul_div_cancel_left _ Nat.two_pos, Nat.mul_mod_right,
    Nat.add_zero]

theorem seqVal_odd (c j : ℕ) : seqVal n c (2 * j + 1) = c + j * n + 1 := by
  have hdiv : (2 * j + 1) / 2 = j := by omega
  have hmod : (2 * j + 1) % 2 = 1 := by omega
  rw [seqVal, hdiv, hmod]

theorem cell_add_lap (idx : ℕ) : idx % n + idx / n * n = idx := by
  rw [Nat.mul_comm, Nat.mod_add_div]

theorem seqVal_rank (role : Role) (idx : ℕ) :
    seqVal n (idx % n) (role.rank n idx) = role.expects idx := by
  cases role with
  | push => rw [Role.rank, seqVal_even, cell_add_lap, Role.expects]
  | pop => rw [Role.rank, seqVal_odd, cell_add_lap, Role.expects]

theorem seqVal_rank_succ (role : Role) (idx : ℕ) :
    seqVal n (idx % n) (role.rank n idx + 1) = role.leaves n idx := by
  cases role with
  | push => rw [Role.rank, seqVal_odd, cell_add_lap, Role.leaves]
  | pop =>
      have hnext : 2 * (idx / n) + 1 + 1 = 2 * (idx / n + 1) := by omega
      rw [Role.rank, hnext, seqVal_even, Nat.succ_mul, ← Nat.add_assoc,
        cell_add_lap, Role.leaves]

/-- With two cells or more the values of `seq_` grow. -/
theorem seqVal_strictMono (hn : 2 ≤ n) (c : ℕ) : StrictMono (seqVal n c) := by
  apply strictMono_nat_of_lt_succ
  intro j
  obtain ⟨m, rfl | rfl⟩ := Nat.even_or_odd' j
  · rw [seqVal_even, seqVal_odd]
    omega
  · have hnext : 2 * m + 1 + 1 = 2 * (m + 1) := by omega
    rw [hnext, seqVal_even, seqVal_odd, Nat.succ_mul]
    omega

/-- A message of a cell lets in one call. -/
theorem eq_of_rank_eq {role role' : Role} {idx idx' : ℕ}
    (hcell : idx % n = idx' % n) (hrank : role.rank n idx = role'.rank n idx') :
    role = role' ∧ idx = idx' := by
  have hidx := Nat.mod_add_div idx n
  have hidx' := Nat.mod_add_div idx' n
  cases role <;> cases role' <;> simp only [Role.rank] at hrank
  · have hdiv : idx / n = idx' / n := by omega
    exact ⟨rfl, by rw [← hidx, ← hidx', hcell, hdiv]⟩
  · omega
  · omega
  · have hdiv : idx / n = idx' / n := by omega
    exact ⟨rfl, by rw [← hidx, ← hidx', hcell, hdiv]⟩

/-! ## The memory -/

/-- The number of the newest message of `seq_`. -/
def stage (mem : Memory ι T) (c : ℕ) : ℕ :=
  (mem.msgs (.seq c)).length - 1

/-- How many positions have been claimed at each end, when the items of `log`
have been pushed and `k` of them popped. -/
def claims (log : List T) (k : ℕ) : Role → ℕ
  | .push => log.length
  | .pop => k

/-- The indexes count the claims, the messages of a cell follow each other, and
a claim begins at its message and is over at the next. -/
structure MemInv (n : ℕ) (log : List T) (k : ℕ) (mem : Memory ι T) : Prop where
  wf : mem.WellFormed
  indexes : ∀ role : Role, (mem.msgs role.index).map Msg.val =
    List.range (claims log k role + 1)
  seqs : ∀ c, (mem.msgs (.seq c)).map Msg.val =
    (List.range (stage mem c + 1)).map (seqVal n c)
  begun : ∀ role idx, idx < claims log k role →
    role.rank n idx ≤ stage mem (idx % n)
  ended : ∀ role idx, role.rank n idx < stage mem (idx % n) →
    idx < claims log k role
  data : ∀ idx, stage mem (idx % n) = Role.rank n idx .pop →
    (mem.cells (idx % n)).data = log[idx]?

section Memory

variable {mem mem' : Memory ι T} {o : MemoryOrder} {t : ι} {i v : ℕ}

theorem memInv_init : MemInv n ([] : List T) 0 (Memory.new : Memory ι T) where
  wf := ViewMemory.wellFormed_init
  indexes role := by
    cases role <;> rfl
  seqs c := by
    simp [Memory.new, ViewMemory.init, stage, seqVal]
  begun role idx h := by
    cases role <;> exact absurd h (Nat.not_lt_zero idx)
  ended role idx h := absurd h (Nat.not_lt_zero _)
  data idx h := by
    simp only [stage, Memory.new, ViewMemory.init, Role.rank,
      List.length_singleton] at h
    omega

/-- What message `i` of a cell says. -/
theorem MemInv.seq_eq (h : MemInv n log k mem) {c : ℕ} {msg : Msg Loc ι}
    (hmsg : (mem.msgs (.seq c))[i]? = some msg) : msg.val = seqVal n c i := by
  have hval : ((List.range (stage mem c + 1)).map (seqVal n c))[i]? =
      some msg.val := by
    rw [← h.seqs, List.getElem?_map, hmsg]
    rfl
  rw [List.getElem?_map, Option.map_eq_some_iff] at hval
  obtain ⟨j, hj, hval⟩ := hval
  obtain ⟨hlt, rfl⟩ := List.getElem?_eq_some_iff.mp hj
  rw [← hval, List.getElem_range]

/-- A call that sees the value it waits for sees its message. -/
theorem MemInv.rank_of_seq (h : MemInv n log k mem) (hn : 2 ≤ n) {role : Role}
    {idx : ℕ} {msg : Msg Loc ι}
    (hmsg : (mem.msgs (.seq (idx % n)))[i]? = some msg)
    (hval : msg.val = role.expects idx) : i = role.rank n idx := by
  rw [h.seq_eq hmsg, ← seqVal_rank] at hval
  exact (seqVal_strictMono hn _).injective hval

/-- The newest message of an index. -/
theorem MemInv.newest (h : MemInv n log k mem) {role : Role} {msg : Msg Loc ι}
    (hmsg : (mem.msgs role.index).getLast? = some msg) :
    msg.val = claims log k role := by
  have hlast : ((mem.msgs role.index).map Msg.val).getLast? =
      some msg.val := by
    rw [List.getLast?_map, hmsg]
    rfl
  rw [h.indexes, List.range_succ, List.getLast?_concat] at hlast
  exact (Option.some.inj hlast).symm

/-- Memories that agree on everything but what the threads know. -/
theorem MemInv.congr (h : MemInv n log k mem) (hwf : mem'.WellFormed)
    (hmsgs : mem'.msgs = mem.msgs) (hcells : mem'.cells = mem.cells) :
    MemInv n log k mem' := by
  obtain ⟨msgs, cells, view⟩ := mem'
  dsimp only at hmsgs hcells
  subst hmsgs hcells
  exact ⟨hwf, h.indexes, h.seqs, h.begun, h.ended, h.data⟩

/-- An item is claimed by a push before it is claimed by a pop. -/
theorem MemInv.pop_lt (h : MemInv n log k mem) {idx : ℕ} (hidx : idx < k) :
    idx < log.length := by
  have hle := h.begun .pop idx hidx
  exact h.ended .push idx (by simp only [Role.rank] at hle ⊢; omega)

/-- A cell is claimed by a pop before it is claimed again by a push. -/
theorem MemInv.length_le (h : MemInv n log k mem) (hn : 1 ≤ n) :
    log.length ≤ k + n := by
  by_contra hlt
  have hidx : log.length - 1 < log.length := by omega
  have hle := h.begun .push (log.length - 1) hidx
  have hlap : log.length - 1 = (log.length - 1 - n) + n := by omega
  have hdiv : (log.length - 1) / n = (log.length - 1 - n) / n + 1 := by
    rw [hlap, Nat.add_div_right _ (by omega)]
    simp
  have hcell : (log.length - 1) % n = (log.length - 1 - n) % n := by
    rw [hlap, Nat.add_mod_right]
    simp
  have hended := h.ended .pop (log.length - 1 - n)
  simp only [Role.rank, hcell, hdiv] at hle hended
  have : log.length - 1 - n < k := hended (by omega)
  omega

/-! ## What the steps do to the memory -/

theorem index_injective {role role' : Role} (h : role.index = role'.index) :
    role = role' := by
  cases role <;> cases role' <;> first | rfl | cases h

theorem index_ne_seq (role : Role) (c : ℕ) : Loc.seq c ≠ role.index := by
  cases role <;> simp [Role.index]

variable [DecidableEq ι]

/-- A claim of the next position, whose message is there. -/
theorem MemInv.claim (h : MemInv n log k mem) {role : Role} {log' : List T}
    {k' idx : ℕ} {newest : Msg Loc ι}
    (hclaims : ∀ role', claims log' k' role' =
      claims log k role' + if role' = role then 1 else 0)
    (hlog : log <+: log')
    (hnewest : (mem.msgs role.index).getLast? = some newest)
    (hidx : idx = claims log k role)
    (hrank : role.rank n idx ≤ stage mem (idx % n)) :
    MemInv n log' k' (mem.update t o role.index newest (idx + 1)) := by
  have hseq : ∀ c, (mem.update t o role.index newest (idx + 1)).msgs (.seq c) =
      mem.msgs (.seq c) :=
    fun c => ViewMemory.update_msgs_of_ne (index_ne_seq role c)
  have hstage : ∀ c, stage (mem.update t o role.index newest (idx + 1)) c =
      stage mem c :=
    fun c => by rw [stage, hseq, stage]
  refine ⟨h.wf.update (List.mem_of_getLast? hnewest), fun role' => ?_,
    fun c => ?_, fun role' idx' hlt => ?_, fun role' idx' hlt => ?_,
    fun idx' heq => ?_⟩
  · rw [hclaims]
    by_cases hrole : role' = role
    · subst hrole
      obtain ⟨w, hmsgs⟩ := ViewMemory.update_msgs_self mem t o role'.index
        newest (idx + 1)
      rw [hmsgs, List.map_append, h.indexes, if_pos rfl, hidx,
        List.range_succ (n := claims log k role' + 1)]
      rfl
    · rw [ViewMemory.update_msgs_of_ne fun heq => hrole (index_injective heq),
        h.indexes, if_neg hrole, Nat.add_zero]
  · rw [hseq, hstage]
    exact h.seqs c
  · rw [hstage]
    rw [hclaims] at hlt
    by_cases hold : idx' < claims log k role'
    · exact h.begun role' idx' hold
    · split_ifs at hlt with hrole
      · subst hrole
        obtain rfl : idx' = idx := by omega
        exact hrank
      · omega
  · rw [hstage] at hlt
    rw [hclaims]
    exact Nat.lt_of_lt_of_le (h.ended role' idx' hlt) (Nat.le_add_right _ _)
  · rw [hstage] at heq
    have hlt : idx' < log.length :=
      h.ended .push idx' (by simp only [Role.rank] at heq ⊢; omega)
    obtain ⟨rest, rfl⟩ := hlog
    rw [List.getElem?_append_left hlt]
    exact h.data idx' heq

/-- A push writes the cell that it has claimed. -/
theorem MemInv.write (h : MemInv n log k mem) {idx : ℕ}
    (hstage : stage mem (idx % n) = Role.rank n idx .push) (d : Option T) :
    MemInv n log k (mem.write t (idx % n) d) where
  wf := h.wf.write
  indexes := h.indexes
  seqs := h.seqs
  begun := h.begun
  ended := h.ended
  data idx' heq := by
    have hne : idx' % n ≠ idx % n := by
      intro hcell
      change stage mem (idx' % n) = _ at heq
      rw [hcell, hstage] at heq
      simp only [Role.rank] at heq
      omega
    rw [ViewMemory.write_cells_of_ne hne]
    exact h.data idx' heq

/-- A pop reads a cell. -/
theorem MemInv.read (h : MemInv n log k mem) (c : ℕ) :
    MemInv n log k (mem.read t c) where
  wf := h.wf.read
  indexes := h.indexes
  seqs := h.seqs
  begun := h.begun
  ended := h.ended
  data idx' heq := by
    by_cases hc : idx' % n = c
    · subst hc
      rw [ViewMemory.read_cells_self]
      exact h.data idx' heq
    · rw [ViewMemory.read_cells_of_ne hc]
      exact h.data idx' heq

/-- A call leaves its cell to the next. -/
theorem MemInv.store (h : MemInv n log k mem) {role : Role} {idx : ℕ}
    (hlt : idx < claims log k role)
    (hstage : stage mem (idx % n) = role.rank n idx)
    (hdata : role = .push → (mem.cells (idx % n)).data = log[idx]?) :
    MemInv n log k
      (mem.store t o (.seq (idx % n)) (role.leaves n idx)) := by
  have hself : stage (mem.store t o (.seq (idx % n)) (role.leaves n idx))
      (idx % n) = role.rank n idx + 1 := by
    have hpos := List.length_pos_iff.mpr (h.wf.msgs_ne (.seq (idx % n)))
    rw [stage] at hstage
    rw [stage, ViewMemory.store_msgs_self, List.length_append,
      List.length_singleton]
    omega
  have hother : ∀ c, c ≠ idx % n →
      stage (mem.store t o (.seq (idx % n)) (role.leaves n idx)) c =
        stage mem c := by
    intro c hc
    rw [stage, ViewMemory.store_msgs_of_ne (by simpa using hc), stage]
  refine ⟨h.wf.store, fun role' => ?_, fun c => ?_, fun role' idx' hidx' => ?_,
    fun role' idx' hidx' => ?_, fun idx' heq => ?_⟩
  · rw [ViewMemory.store_msgs_of_ne (index_ne_seq role' _).symm]
    exact h.indexes role'
  · by_cases hc : c = idx % n
    · subst hc
      rw [hself, ViewMemory.store_msgs_self, List.map_append, h.seqs, hstage,
        List.range_succ (n := role.rank n idx + 1), List.map_append]
      exact congrArg (fun v => _ ++ [v]) (seqVal_rank_succ role idx).symm
    · rw [hother c hc, ViewMemory.store_msgs_of_ne (by simpa using hc)]
      exact h.seqs c
  · have hold := h.begun role' idx' hidx'
    by_cases hcell : idx' % n = idx % n
    · rw [hcell, hself]
      rw [hcell, hstage] at hold
      omega
    · rw [hother _ hcell]
      exact hold
  · by_cases hcell : idx' % n = idx % n
    · rw [hcell, hself] at hidx'
      rcases Nat.lt_succ_iff_lt_or_eq.mp hidx' with hless | heq
      · exact h.ended role' idx' (by rwa [hcell, hstage])
      · obtain ⟨rfl, rfl⟩ := eq_of_rank_eq hcell heq
        exact hlt
    · rw [hother _ hcell] at hidx'
      exact h.ended role' idx' hidx'
  · by_cases hcell : idx' % n = idx % n
    · rw [hcell, hself] at heq
      rw [ViewMemory.store_cells, hcell]
      cases role with
      | push =>
          have hrank : Role.rank n idx .push = Role.rank n idx' .push := by
            simp only [Role.rank] at heq ⊢
            omega
          obtain ⟨-, rfl⟩ := eq_of_rank_eq hcell.symm hrank
          exact hdata rfl
      | pop =>
          simp only [Role.rank] at heq
          omega
    · rw [hother _ hcell] at heq
      exact h.data idx' heq

end Memory

/-! ## The threads -/

/-- The position a thread has claimed and not yet passed on. -/
def Thread.holds : Thread T → Option (Role × ℕ)
  | .run role _ (.access idx) | .run role _ (.store idx) => some (role, idx)
  | _ => none

/-- The position whose cell a thread has accessed and not yet passed on. -/
def Thread.accessed : Thread T → Option ℕ
  | .run _ _ (.store idx) => some idx
  | _ => none

/-- Thread `t` knows what the message told that lets it claim `idx`. -/
def Told (n : ℕ) (mem : Memory ι T) (t : ι) (role : Role) (idx : ℕ) : Prop :=
  ∃ msg, (mem.msgs (.seq (idx % n)))[role.rank n idx]? = some msg ∧
    msg.view ≤ mem.view t

/-- A position that has been claimed and not yet passed on. -/
structure Held (n : ℕ) (log : List T) (k : ℕ) (mem : Memory ι T) (role : Role)
    (item : Option T) (idx : ℕ) : Prop where
  lt : idx < claims log k role
  stage_eq : stage mem (idx % n) = role.rank n idx
  item_eq : role = .push → item = log[idx]?

/-- What holds of a thread inside a call. -/
def PcInv (n : ℕ) (log : List T) (k : ℕ) (mem : Memory ι T) (t : ι)
    (role : Role) (item : Option T) : Pc → Prop
  | .load | .check _ => True
  | .exchange idx => Told n mem t role idx
  | .access idx => Held n log k mem role item idx ∧ Told n mem t role idx
  | .store idx => Held n log k mem role item idx ∧
      mem.Covered (idx % n) (mem.view t) ∧ item = log[idx]? ∧
      (mem.cells (idx % n)).data = item

def ThreadInv (n : ℕ) (log : List T) (k : ℕ) (mem : Memory ι T) (t : ι) :
    Thread T → Prop
  | .run role item pc =>
      (role = .push → item.isSome) ∧ PcInv n log k mem t role item pc
  | .idle | .done _ => True

/-- The invariant, with the items pushed and the number of items popped.  The
newest message of a cell passes on all accesses to it, unless one has just been
made. -/
structure Inv (n : ℕ) (log : List T) (k : ℕ) (s : State ι T) : Prop where
  memory : MemInv n log k s.shared
  threads : ∀ t, ThreadInv n log k s.shared t (s.threads t)
  distinct : ∀ t t' p, (s.threads t).holds = some p →
    (s.threads t').holds = some p → t = t'
  covered : ∀ c msg,
    (∀ t idx, (s.threads t).accessed = some idx → idx % n ≠ c) →
    (s.shared.msgs (.seq c)).getLast? = some msg →
    s.shared.Covered c msg.view

section Threads

variable {mem mem' : Memory ι T} {s : State ι T} {t t' : ι} {th th' : Thread T}
  {log' : List T} {k' : ℕ}

theorem ThreadInv.held (h : ThreadInv n log k mem t th) {role : Role} {idx : ℕ}
    (hth : th.holds = some (role, idx)) :
    ∃ item, Held n log k mem role item idx := by
  cases th with
  | idle | done => cases hth
  | run role' item pc =>
      cases pc with
      | load | check | exchange => cases hth
      | access idx' =>
          cases hth
          exact ⟨item, h.2.1⟩
      | store idx' =>
          cases hth
          exact ⟨item, h.2.1⟩

theorem holds_of_accessed {idx : ℕ} (h : th.accessed = some idx) :
    ∃ role, th.holds = some (role, idx) := by
  cases th with
  | idle | done => cases h
  | run role item pc =>
      cases pc with
      | load | check | exchange | access => cases h
      | store idx' =>
          cases h
          exact ⟨role, rfl⟩

/-- A cell has at most one user. -/
theorem Inv.user_unique (h : Inv n log k s) {role role' : Role} {idx idx' : ℕ}
    (ht : (s.threads t).holds = some (role, idx))
    (ht' : (s.threads t').holds = some (role', idx'))
    (hcell : idx % n = idx' % n) : t = t' := by
  obtain ⟨item, hheld⟩ := (h.threads t).held ht
  obtain ⟨item', hheld'⟩ := (h.threads t').held ht'
  have hrank : role.rank n idx = role'.rank n idx' := by
    rw [← hheld.stage_eq, ← hheld'.stage_eq, hcell]
  obtain ⟨rfl, rfl⟩ := eq_of_rank_eq hcell hrank
  exact h.distinct t t' _ ht ht'

theorem Told.mono {role : Role} {idx : ℕ} (h : Told n mem t role idx)
    (hview : mem.view t ≤ mem'.view t)
    (hmsgs : mem.msgs (.seq (idx % n)) <+: mem'.msgs (.seq (idx % n))) :
    Told n mem' t role idx := by
  obtain ⟨msg, hmsg, hle⟩ := h
  obtain ⟨rest, hrest⟩ := hmsgs
  refine ⟨msg, ?_, View.le_trans hle hview⟩
  rw [← hrest, List.getElem?_append_left (List.getElem?_eq_some_iff.mp hmsg).1]
  exact hmsg

/-- A position that has been claimed has its item. -/
theorem Held.lt_length {role : Role} {item : Option T} {idx : ℕ}
    (h : Held n log k mem role item idx) (hmem : MemInv n log k mem) :
    idx < log.length := by
  cases role with
  | push => exact h.lt
  | pop => exact hmem.pop_lt h.lt

/-- A thread whose cell is left alone. -/
theorem ThreadInv.mono (h : ThreadInv n log k mem t th)
    (hmem : MemInv n log k mem) (hview : mem.view t ≤ mem'.view t)
    (hmsgs : ∀ c, mem.msgs (.seq c) <+: mem'.msgs (.seq c))
    (hcell : ∀ role idx, th.holds = some (role, idx) →
      mem'.msgs (.seq (idx % n)) = mem.msgs (.seq (idx % n)) ∧
        mem'.cells (idx % n) = mem.cells (idx % n))
    (hlog : log <+: log') (hk : k ≤ k') :
    ThreadInv n log' k' mem' t th := by
  have hclaims : ∀ role, claims log k role ≤ claims log' k' role := by
    intro role
    cases role with
    | push => exact hlog.length_le
    | pop => exact hk
  have hget : ∀ idx, idx < log.length → log'[idx]? = log[idx]? := by
    intro idx hidx
    obtain ⟨rest, rfl⟩ := hlog
    exact List.getElem?_append_left hidx
  have hheld : ∀ role item idx, th.holds = some (role, idx) →
      Held n log k mem role item idx → Held n log' k' mem' role item idx := by
    intro role item idx hth hold
    refine ⟨hold.lt.trans_le (hclaims role), ?_, fun hrole => ?_⟩
    · rw [stage, (hcell role idx hth).1]
      exact hold.stage_eq
    · rw [hget idx (hold.lt_length hmem)]
      exact hold.item_eq hrole
  cases th with
  | idle | done => trivial
  | run role item pc =>
      refine ⟨h.1, ?_⟩
      obtain ⟨-, h⟩ := h
      cases pc with
      | load | check => trivial
      | exchange idx => exact Told.mono h hview (hmsgs _)
      | access idx =>
          exact ⟨hheld role item idx rfl h.1, h.2.mono hview (hmsgs _)⟩
      | store idx =>
          obtain ⟨hold, hcovered, hitem, hdata⟩ := h
          have hsame := (hcell role idx rfl).2
          refine ⟨hheld role item idx rfl hold, ?_, ?_, ?_⟩
          · rw [ViewMemory.Covered, hsame]
            exact hcovered.mono hview
          · rw [hget idx (hold.lt_length hmem)]
            exact hitem
          · rw [hsame]
            exact hdata

/-! ## One step -/

theorem Inv.run (h : Inv n log k s) {role : Role} {item : Option T} {pc : Pc}
    (hth : s.threads t = .run role item pc) :
    (role = .push → item.isSome) ∧ PcInv n log k s.shared t role item pc := by
  have hinv := h.threads t
  rwa [hth] at hinv

theorem accessed_eq_none (h : th.holds = none) : th.accessed = none := by
  cases hacc : th.accessed with
  | none => rfl
  | some idx =>
      obtain ⟨role, hholds⟩ := holds_of_accessed hacc
      rw [h] at hholds
      cases hholds

variable [DecidableEq ι]

/-- The invariant after a step, from what the step leaves alone. -/
theorem Inv.assemble (h : Inv n log k s) (hmem : MemInv n log' k' mem')
    (hself : ThreadInv n log' k' mem' t th')
    (hview : ∀ t', t' ≠ t → s.shared.view t' ≤ mem'.view t')
    (hmsgs : ∀ c, s.shared.msgs (.seq c) <+: mem'.msgs (.seq c))
    (hcell : ∀ t', t' ≠ t → ∀ role idx,
      (s.threads t').holds = some (role, idx) →
        mem'.msgs (.seq (idx % n)) = s.shared.msgs (.seq (idx % n)) ∧
          mem'.cells (idx % n) = s.shared.cells (idx % n))
    (hlog : log <+: log') (hk : k ≤ k')
    (hfresh : ∀ p, th'.holds = some p → ∀ t', t' ≠ t →
      (s.threads t').holds ≠ some p)
    (hcovered : ∀ c msg, (∀ idx, th'.accessed = some idx → idx % n ≠ c) →
      (∀ t', t' ≠ t → ∀ idx, (s.threads t').accessed = some idx →
        idx % n ≠ c) →
      (mem'.msgs (.seq c)).getLast? = some msg → mem'.Covered c msg.view) :
    Inv n log' k' (s.move t mem' th') := by
  refine ⟨hmem, fun t' => ?_, fun t₁ t₂ p h₁ h₂ => ?_, fun c msg hno => ?_⟩
  · refine Pool.forall_move
      (P := fun t' => ThreadInv n log' k' mem' t') hself (fun u hu => ?_) t'
    exact (h.threads u).mono h.memory (hview u hu) hmsgs (hcell u hu) hlog hk
  · by_cases ht₁ : t₁ = t
    · subst ht₁
      rw [Pool.move_threads_self] at h₁
      by_contra hne
      rw [Pool.move_threads_of_ne _ _ _ (Ne.symm hne)] at h₂
      exact hfresh p h₁ t₂ (Ne.symm hne) h₂
    · rw [Pool.move_threads_of_ne _ _ _ ht₁] at h₁
      by_cases ht₂ : t₂ = t
      · subst ht₂
        rw [Pool.move_threads_self] at h₂
        exact absurd h₁ (hfresh p h₂ t₁ ht₁)
      · rw [Pool.move_threads_of_ne _ _ _ ht₂] at h₂
        exact h.distinct t₁ t₂ p h₁ h₂
  · refine hcovered c msg (fun idx hidx => hno t idx ?_)
      fun t' ht' idx hidx => hno t' idx ?_
    · rw [Pool.move_threads_self]
      exact hidx
    · rw [Pool.move_threads_of_ne _ _ _ ht']
      exact hidx

/-- A step of a thread that uses no cell, and tells the threads at most more. -/
theorem Inv.stay (h : Inv n log k s) (hwf : mem'.WellFormed)
    (hmsgs : mem'.msgs = s.shared.msgs) (hcells : mem'.cells = s.shared.cells)
    (hview : ∀ t', s.shared.view t' ≤ mem'.view t')
    (hth : (s.threads t).holds = none) (hth' : th'.holds = none)
    (hself : ThreadInv n log k mem' t th') :
    Inv n log k (s.move t mem' th') := by
  refine h.assemble (h.memory.congr hwf hmsgs hcells) hself
    (fun t' _ => hview t') (fun c => by rw [hmsgs])
    (fun _ _ _ _ _ => by rw [hmsgs, hcells]; exact ⟨rfl, rfl⟩)
    (List.prefix_refl log) le_rfl (fun p hp => ?_) fun c msg _ hno hlast => ?_
  · rw [hth'] at hp
    cases hp
  · rw [hmsgs] at hlast
    rw [ViewMemory.Covered, hcells]
    refine h.covered c msg (fun t' idx hidx => ?_) hlast
    by_cases ht' : t' = t
    · subst ht'
      rw [accessed_eq_none hth] at hidx
      cases hidx
    · exact hno t' ht' idx hidx

/-- A load. -/
theorem Inv.load (h : Inv n log k s) {o : MemoryOrder} {a : Loc} {i v : ℕ}
    (hload : s.shared.load t o a i = some (v, mem'))
    (hth : (s.threads t).holds = none) (hth' : th'.holds = none)
    (hself : ThreadInv n log k mem' t th') :
    Inv n log k (s.move t mem' th') := by
  have hwf := h.memory.wf.load hload
  have hview := ViewMemory.le_of_load hload
  obtain ⟨-, msg, -, -, rfl⟩ := ViewMemory.load_eq_some_iff.mp hload
  exact h.stay hwf rfl rfl hview hth hth' hself

omit [DecidableEq ι] in
/-- The message that lets in a claim of the next position is the newest. -/
theorem Inv.stage_eq (h : Inv n log k s) {role : Role} {item : Option T}
    {idx : ℕ} (hth : s.threads t = .run role item (.exchange idx))
    (hidx : idx = claims log k role) :
    stage s.shared (idx % n) = role.rank n idx := by
  obtain ⟨-, msg, hmsg, -⟩ := h.run hth
  have hlt := (List.getElem?_eq_some_iff.mp hmsg).1
  have hended := h.memory.ended role idx
  rw [stage] at hended ⊢
  omega

/-- A claim that succeeds is a claim of the next position. -/
theorem Inv.claim (h : Inv n log k s) {o : MemoryOrder} {role : Role}
    {item : Option T} {idx : ℕ}
    (hth : s.threads t = .run role item (.exchange idx))
    (hcas : s.shared.compareExchange t o role.index idx (idx + 1) = some mem')
    (hclaims : ∀ role', claims log' k' role' =
      claims log k role' + if role' = role then 1 else 0)
    (hlog : log <+: log') (hk : k ≤ k')
    (hitem : role = .push → item = log'[idx]?) :
    Inv n log' k' (s.move t mem' (.run role item (.access idx))) := by
  obtain ⟨newest, hnewest, hval, rfl⟩ :=
    ViewMemory.compareExchange_eq_some_iff.mp hcas
  obtain ⟨hsome, htold⟩ := h.run hth
  have hidx : idx = claims log k role := hval ▸ h.memory.newest hnewest
  have hseq : ∀ c, (s.shared.update t o role.index newest (idx + 1)).msgs
      (.seq c) = s.shared.msgs (.seq c) :=
    fun c => ViewMemory.update_msgs_of_ne (index_ne_seq role c)
  have hstage := h.stage_eq hth hidx
  have hrank := hstage.ge
  refine h.assemble (h.memory.claim hclaims hlog hnewest hidx hrank)
    ⟨hsome, ⟨?_, ?_, hitem⟩, htold.mono ViewMemory.le_update ?_⟩
    (fun _ _ => ViewMemory.le_update) (fun c => by rw [hseq])
    (fun _ _ _ _ _ => ⟨hseq _, rfl⟩) hlog hk (fun p hp t' _ hp' => ?_)
    fun c msg _ hno hlast => ?_
  · rw [hclaims, if_pos rfl]
    omega
  · rw [stage, hseq]
    exact hstage
  · rw [hseq]
  · obtain rfl := Option.some.inj hp
    obtain ⟨item', hheld⟩ := (h.threads t').held hp'
    have := hheld.lt
    omega
  · rw [hseq] at hlast
    refine h.covered c msg (fun t' idx' hidx' => ?_) hlast
    by_cases ht' : t' = t
    · subst ht'
      rw [hth] at hidx'
      cases hidx'
    · exact hno t' ht' idx' hidx'

omit [DecidableEq ι] in
/-- The newest message of a claimed cell has told its user of all accesses. -/
theorem Inv.covered_of_access (h : Inv n log k s) {role : Role}
    {item : Option T} {idx : ℕ}
    (hth : s.threads t = .run role item (.access idx)) :
    s.shared.Covered (idx % n) (s.shared.view t) := by
  obtain ⟨-, hheld, msg, hmsg, hle⟩ := h.run hth
  have hlast : (s.shared.msgs (.seq (idx % n))).getLast? = some msg := by
    rw [List.getLast?_eq_getElem?, ← stage, hheld.stage_eq]
    exact hmsg
  refine (h.covered (idx % n) msg (fun t' idx' hidx' hcell => ?_) hlast).mono hle
  -- a thread past its access would be another user of the cell
  obtain ⟨role', hholds⟩ := holds_of_accessed hidx'
  have hself : (s.threads t).holds = some (role, idx) := by
    rw [hth]
    rfl
  obtain rfl := h.user_unique hholds hself hcell
  rw [hth] at hidx'
  cases hidx'

/-- What an access leaves of the other cells. -/
theorem access_cells_of_ne {role : Role} {item : Option T} {c c' : ℕ}
    (hc : c' ≠ c) : (access t mem role item c).1.cells c' = mem.cells c' := by
  cases role with
  | push => exact ViewMemory.write_cells_of_ne hc
  | pop => exact ViewMemory.read_cells_of_ne hc

@[simp] theorem access_msgs {role : Role} {item : Option T} {c : ℕ} :
    (access t mem role item c).1.msgs = mem.msgs := by
  cases role <;> rfl

theorem access_view_of_ne {role : Role} {item : Option T} {c : ℕ}
    (ht : t' ≠ t) : (access t mem role item c).1.view t' = mem.view t' := by
  cases role with
  | push => exact ViewMemory.write_view_of_ne ht
  | pop => exact ViewMemory.read_view_of_ne ht

theorem access_data {role : Role} {item : Option T} {c : ℕ} :
    ((access t mem role item c).1.cells c).data =
      (access t mem role item c).2 := by
  cases role with
  | push => simp [access]
  | pop => simp [access]

theorem covered_access {role : Role} {item : Option T} {c : ℕ}
    (h : mem.Covered c (mem.view t)) :
    (access t mem role item c).1.Covered c
      ((access t mem role item c).1.view t) := by
  cases role with
  | push => exact h.write _
  | pop => exact h.read

/-- An access to a claimed cell. -/
theorem Inv.access (h : Inv n log k s) {role : Role} {item : Option T}
    {idx : ℕ} (hth : s.threads t = .run role item (.access idx)) :
    Inv n log k (s.move t (access t s.shared role item (idx % n)).1
      (.run role (Mpmc.access t s.shared role item (idx % n)).2
        (.store idx))) := by
  obtain ⟨hsome, hheld, -⟩ := h.run hth
  have hcovered := h.covered_of_access hth
  have hself : (s.threads t).holds = some (role, idx) := by
    rw [hth]
    rfl
  have hitem : (Mpmc.access t s.shared role item (idx % n)).2 = log[idx]? := by
    cases role with
    | push => exact hheld.item_eq rfl
    | pop => exact h.memory.data idx hheld.stage_eq
  have hmem : MemInv n log k (Mpmc.access t s.shared role item (idx % n)).1 := by
    cases role with
    | push => exact h.memory.write hheld.stage_eq item
    | pop => exact h.memory.read _
  have hcell : ∀ t', t' ≠ t → ∀ role' idx',
      (s.threads t').holds = some (role', idx') → idx' % n ≠ idx % n :=
    fun t' ht' role' idx' hholds heq =>
      ht' (h.user_unique hholds hself heq)
  refine h.assemble hmem
    ⟨fun hrole => ?_, ⟨hheld.lt, ?_, fun _ => hitem⟩, covered_access hcovered,
      hitem, access_data⟩
    (fun t' ht' => ?_) (fun c => ?_) (fun t' ht' role' idx' hholds => ?_)
    (List.prefix_refl log) le_rfl (fun p hp t' ht' hp' => ?_)
    fun c msg hself' hno hlast => ?_
  · subst hrole
    exact hsome rfl
  · rw [stage, access_msgs]
    exact hheld.stage_eq
  · rw [access_view_of_ne ht']
    exact ⟨fun _ => le_rfl, fun _ => le_rfl⟩
  · rw [access_msgs]
  · rw [access_msgs]
    exact ⟨rfl, access_cells_of_ne (hcell t' ht' role' idx' hholds)⟩
  · obtain rfl := Option.some.inj hp
    exact hcell t' ht' role idx hp' rfl
  · have hne : c ≠ idx % n := (hself' idx rfl).symm
    rw [access_msgs] at hlast
    rw [ViewMemory.Covered, access_cells_of_ne hne]
    refine h.covered c msg (fun t' idx' hidx' => ?_) hlast
    by_cases ht' : t' = t
    · subst ht'
      rw [hth] at hidx'
      cases hidx'
    · exact hno t' ht' idx' hidx'

/-- A release store of `seq_` passes on all accesses to the cell. -/
theorem Inv.store (h : Inv n log k s) {o : MemoryOrder} (ho : o.releases)
    {role : Role} {item : Option T} {idx : ℕ} {r : Res T}
    (hth : s.threads t = .run role item (.store idx)) :
    Inv n log k (s.move t
      (s.shared.store t o (.seq (idx % n)) (role.leaves n idx)) (.done r)) := by
  obtain ⟨-, hheld, hcovered, hitem, hdata⟩ := h.run hth
  have hself : (s.threads t).holds = some (role, idx) := by
    rw [hth]
    rfl
  have hother : ∀ c, c ≠ idx % n →
      (s.shared.store t o (.seq (idx % n)) (role.leaves n idx)).msgs (.seq c) =
        s.shared.msgs (.seq c) :=
    fun c hc => ViewMemory.store_msgs_of_ne (by simpa using hc)
  refine h.assemble
    (h.memory.store hheld.lt hheld.stage_eq fun _ => hdata.trans hitem) trivial
    (fun t' ht' => ?_) (fun c => ?_) (fun t' ht' role' idx' hholds => ?_)
    (List.prefix_refl log) le_rfl (fun p hp => ?_) fun c msg _ hno hlast => ?_
  · rw [ViewMemory.store_view_of_ne ht']
    exact ⟨fun _ => le_rfl, fun _ => le_rfl⟩
  · by_cases hc : c = idx % n
    · subst hc
      rw [ViewMemory.store_msgs_self]
      exact List.prefix_append _ _
    · rw [hother c hc]
  · refine ⟨hother _ fun hcell => ?_, rfl⟩
    exact ht' (h.user_unique hholds hself hcell)
  · cases hp
  · by_cases hc : c = idx % n
    · subst hc
      rw [ViewMemory.store_msgs_self, List.getLast?_concat] at hlast
      obtain rfl := Option.some.inj hlast
      refine ViewMemory.Covered.mono (v := s.shared.view t) hcovered ?_
      rw [ViewMemory.message, if_pos ho]
      exact View.le_sup_right
    · rw [hother c hc] at hlast
      refine h.covered c msg (fun t' idx' hidx' => ?_) hlast
      by_cases ht' : t' = t
      · subst ht'
        rw [hth] at hidx'
        obtain rfl := Option.some.inj hidx'
        exact Ne.symm hc
      · exact hno t' ht' idx' hidx'

end Threads

/-! ## Runs -/

/-- The item of a claim by a push. -/
def Event.pushed? : Event T → Option T
  | .claim .push item => item
  | _ => none

/-- A claim by a pop. -/
def Event.pops : Event T → Bool
  | .claim .pop _ => true
  | _ => false

/-- The items pushed along a trace, in the order of their claims. -/
def pushed (tr : List (ι × Event T)) : List T :=
  tr.filterMap fun a => a.2.pushed?

/-- How many items have been popped along a trace. -/
def popped (tr : List (ι × Event T)) : ℕ :=
  tr.countP fun a => a.2.pops

theorem pushed_snoc (tr : List (ι × Event T)) (a : ι × Event T) :
    pushed (tr ++ [a]) = pushed tr ++ a.2.pushed?.toList := by
  rw [pushed, List.filterMap_append]
  cases h : a.2.pushed? <;> simp [pushed, h]

theorem popped_snoc (tr : List (ι × Event T)) (a : ι × Event T) :
    popped (tr ++ [a]) = popped tr + if a.2.pops then 1 else 0 := by
  rw [popped, List.countP_append, List.countP_singleton, popped]

theorem inv_init : Inv n ([] : List T) 0 ⟨(Memory.new : Memory ι T),
    fun _ => .idle⟩ where
  memory := memInv_init
  threads _ := trivial
  distinct _ _ _ h := by cases h
  covered c msg _ hlast := by
    refine ⟨trivial, fun _ => Nat.zero_le _⟩

variable [DecidableEq ι] {V : Variant} {s : State ι T} {t : ι} {e : Event T}
  {mem' : Memory ι T} {th' : Thread T}

omit [DecidableEq ι] in
theorem inv_of_silent {s' : State ι T} (hpushed : e.pushed? = none)
    (hpops : e.pops = false) (h : Inv n log k s') :
    Inv n (log ++ e.pushed?.toList) (k + if e.pops then 1 else 0) s' := by
  rw [hpushed, hpops, Option.toList_none, List.append_nil]
  exact h

/-- A load of `seq_` that lets a call in tells it of its message. -/
theorem told_of_check (hn : 2 ≤ n) (hV : V.Synchronizes)
    (h : MemInv n log k s.shared) {role : Role} {idx i seq : ℕ}
    (hload : s.shared.load t (V.seqLoad role) (.seq (idx % n)) i =
      some (seq, mem')) (hseq : seq = role.expects idx) :
    Told n mem' t role idx := by
  obtain ⟨-, msg, hmsg, rfl, rfl⟩ := ViewMemory.load_eq_some_iff.mp hload
  obtain rfl := h.rank_of_seq hn hmsg hseq
  refine ⟨msg, hmsg, ?_⟩
  rw [ViewMemory.learn_view_self, ViewMemory.told, if_pos (hV role).2]
  exact View.le_trans View.le_sup_right View.le_sup_right

/-- The invariant after a load of `seq_`. -/
theorem Inv.check (hn : 2 ≤ n) (hV : V.Synchronizes) (h : Inv n log k s)
    {role : Role} {item : Option T} {idx i seq : ℕ}
    (hth : s.threads t = .run role item (.check idx))
    (hload : s.shared.load t (V.seqLoad role) (.seq (idx % n)) i =
      some (seq, mem')) :
    Inv n log k (s.move t mem' (V.checked role item idx seq)) := by
  have hsome := (h.run hth).1
  have hholds : (s.threads t).holds = none := by
    rw [hth]
    rfl
  rw [Variant.checked]
  split_ifs with hseq hlags
  · exact h.load hload hholds rfl ⟨hsome, told_of_check hn hV h.memory hload hseq⟩
  · exact h.load hload hholds rfl trivial
  · exact h.load hload hholds rfl ⟨hsome, trivial⟩

/-- The invariant after a claim. -/
theorem Inv.claimed (h : Inv n log k s) {o : MemoryOrder} {role : Role}
    {item : Option T} {idx : ℕ}
    (hth : s.threads t = .run role item (.exchange idx))
    (hcas : s.shared.compareExchange t o role.index idx (idx + 1) =
      some mem') :
    Inv n (log ++ (Event.claim role item).pushed?.toList)
      (k + if (Event.claim role item).pops then 1 else 0)
      (s.move t mem' (.run role item (.access idx))) := by
  obtain ⟨newest, hnewest, hval, -⟩ :=
    ViewMemory.compareExchange_eq_some_iff.mp hcas
  have hidx : idx = claims log k role := hval ▸ h.memory.newest hnewest
  have hsome := (h.run hth).1
  cases role with
  | push =>
      obtain ⟨x, rfl⟩ := Option.isSome_iff_exists.mp (hsome rfl)
      refine h.claim hth hcas (fun role' => ?_) (List.prefix_append _ _) le_rfl
        fun _ => ?_
      · cases role' <;> simp [claims, Event.pushed?, Event.pops]
      · simp [hidx, claims, Event.pushed?]
  | pop =>
      refine h.claim hth hcas (fun role' => ?_) (List.prefix_append _ _)
        (Nat.le_add_right _ _) fun hrole => by cases hrole
      cases role' <;> simp [claims, Event.pushed?, Event.pops]

/-- The invariant after a step. -/
theorem Inv.move (hn : 2 ≤ n) (hV : V.Synchronizes) (h : Inv n log k s)
    (hmove : Move V n t s.shared (s.threads t) e mem' th') :
    Inv n (log ++ e.pushed?.toList) (k + if e.pops then 1 else 0)
      (s.move t mem' th') := by
  generalize hth : s.threads t = th at hmove
  have hholds : th.holds = none → (s.threads t).holds = none := by
    rw [hth]
    exact id
  have hview : ∀ t', s.shared.view t' ≤ s.shared.view t' :=
    fun _ => ⟨fun _ => le_rfl, fun _ => le_rfl⟩
  cases hmove with
  | @call op hop =>
      refine inv_of_silent rfl rfl (h.stay h.memory.wf rfl rfl hview
        (hholds rfl) rfl ⟨fun hrole => ?_, trivial⟩)
      cases op with
      | push item | tryPush item => rfl
      | pop | tryPop => cases hrole
  | load hload =>
      exact inv_of_silent rfl rfl
        (h.load hload (hholds rfl) rfl ⟨(h.run hth).1, trivial⟩)
  | check hload => exact inv_of_silent rfl rfl (h.check hn hV hth hload)
  | claim hcas => exact h.claimed hth hcas
  | retry hload =>
      exact inv_of_silent rfl rfl
        (h.load hload (hholds rfl) rfl ⟨(h.run hth).1, trivial⟩)
  | access => exact inv_of_silent rfl rfl (h.access hth)
  | @store role => exact inv_of_silent rfl rfl (h.store (hV role).1 hth)
  | ret =>
      exact inv_of_silent rfl rfl
        (h.stay h.memory.wf rfl rfl hview (hholds rfl) rfl trivial)

theorem inv_of_run (hn : 2 ≤ n) (hV : V.Synchronizes)
    {tr : List (ι × Event T)} (hrun : (system V n ι T).Run tr s) :
    Inv n (pushed tr) (popped tr) s := by
  refine Lts.Run.induction (P := fun tr s => Inv n (pushed tr) (popped tr) s)
    inv_init ?_ hrun
  rintro tr s a s' - hI ⟨c, mem, th, hmove, rfl⟩
  rw [pushed_snoc, popped_snoc]
  exact hI.move hn hV (moves_iff.mp ⟨c, hmove⟩)

/-- With two cells or more, and with every store of `seq_` synchronizing with
the loads that wait for it, no access to a cell races. -/
theorem not_racing (hn : 2 ≤ n) (hV : V.Synchronizes)
    {tr : List (ι × Event T)} (hrun : (system V n ι T).Run tr s) :
    ¬Racing n s := by
  rintro ⟨t, role, item, idx, hth, hsafe⟩
  have hcovered := (inv_of_run hn hV hrun).covered_of_access hth
  cases role with
  | push => exact hsafe hcovered
  | pop => exact hsafe hcovered.1

end Mpmc
end ConcurrentQueues
