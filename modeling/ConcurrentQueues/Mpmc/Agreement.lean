import ConcurrentQueues.Mpmc.Linearizable
import ConcurrentQueues.Mpmc.WeakFifo

/-!
# The memory orders of `StdAtomicMPMCQueue` change nothing

The queue has two models, one whose loads of `seq_` see its newest value and one
with memory orders, where every load may see an old value.  The calls, claims
and returns of the two are the same: an old index is never claimed, an old
`seq_` does not let a call through, and whoever claims an index has seen the
newest `seq_` of its cell and finds the item there.

A thread that has claimed nothing may stand anywhere in its loop.  Where the
other model claims an index it goes round the loop once more, with loads of the
newest values, and claims the same one.
-/

namespace ConcurrentQueues

universe u v

namespace Mpmc

open Fifo

variable {ι : Type v} {T : Type u} {V : Variant} {n k : ℕ} {log : List T}

/-- What a step shows of the atomic object, with the claims as effects. -/
def acts : ι × Event T → Option (ι × Act (Op T) (Res T))
  | (t, .call op) => some (t, .call op)
  | (t, .claim _ _) => some (t, .effect)
  | (t, .ret r) => some (t, .ret r)
  | (_, .inner) => none

/-! ## Calls of the queue without memory orders -/

/-- A call with its item, or with the variable that its result is copied to. -/
inductive Call (T : Type u)
  | push (item : T)
  | pop (item : Option T)

namespace Call

def role : Call T → Role
  | .push _ => .push
  | .pop _ => .pop

def item : Call T → Option T
  | .push item => some item
  | .pop item => item

/-- The operation that is called. -/
def op : Call T → Op T
  | .push item => .push item
  | .pop _ => .pop

/-- The thread that makes the call. -/
def thread (c : Call T) (pc : StdAtomicMPMCQueue.Pc) :
    StdAtomicMPMCQueue.Thread T :=
  match c with
  | .push item => .push item pc
  | .pop item => .pop item pc

/-- The call at its start, when nothing has been copied. -/
def fresh : Call T → Call T
  | .push item => .push item
  | .pop _ => .pop none

/-- The call after its copy, with `data` in the cell of a pop. -/
def copied (data : Option T) : Call T → Call T
  | .push item => .push item
  | .pop _ => .pop data

/-- The index of a role. -/
def indexOf (q : StdAtomicMPMCQueue.Queue T) : Role → Atomic
  | .push => q.writeIdx
  | .pop => q.readIdx

/-- The queue after a claim of `v`. -/
def claim (q : StdAtomicMPMCQueue.Queue T) (v : ℕ) :
    Role → StdAtomicMPMCQueue.Queue T
  | .push => q.setWriteIdx (v + 1)
  | .pop => q.setReadIdx (v + 1)

/-- The queue after the first half of the copy. -/
def begun (q : StdAtomicMPMCQueue.Queue T) (cell : ℕ) :
    Call T → StdAtomicMPMCQueue.Queue T
  | .push _ => q.setData cell none
  | .pop _ => q

/-- The queue after the copy. -/
def ended (q : StdAtomicMPMCQueue.Queue T) (cell : ℕ) :
    Call T → StdAtomicMPMCQueue.Queue T
  | .push item => q.setData cell (some item)
  | .pop _ => q

def indexName : Role → StdAtomicMPMCQueue.Index
  | .push => .write
  | .pop => .read

/-- What a claim shows. -/
def claimed (v : ℕ) : Call T → StdAtomicMPMCQueue.Event T
  | .push item => .claimWrite v item
  | .pop _ => .claimRead v

theorem claimed_item (c : Call T) (v : ℕ) :
    (Event.claim c.role c.item).pushed? = (c.claimed v).claimed? := by
  cases c <;> rfl

theorem shows_claimed (c : Call T) (t : ι) (v : ℕ) :
    StdAtomicMPMCQueue.shows (t, c.claimed v) = some (t, .effect) := by
  cases c <;> rfl

theorem claim_readIdx (c : Call T) {q : StdAtomicMPMCQueue.Queue T} {v : ℕ}
    (h : (indexOf q c.role).val = v) : (claim q v c.role).readIdx.val =
      q.readIdx.val + if (Event.claim c.role c.item).pops then 1 else 0 := by
  subst h
  cases c <;> rfl

section Moves

variable {q : StdAtomicMPMCQueue.Queue T} {lag v w : ℕ} (c : Call T)

theorem move_call : StdAtomicMPMCQueue.Move .unbounded n q .idle (.call c.op) q
    (c.fresh.thread .load) := by
  cases c
  · exact .callPush _
  · exact .callPop

theorem move_load (h : (indexOf q c.role).load lag = some v) :
    StdAtomicMPMCQueue.Move .unbounded n q (c.thread .load)
      (.load (indexName c.role) lag) q (c.thread (.check v)) := by
  cases c
  · exact .pushLoad h
  · exact .popLoad h

theorem move_retry (h : (indexOf q c.role).load lag = some v) :
    StdAtomicMPMCQueue.Move .unbounded n q (c.thread (.exchange w))
      (.retry (indexName c.role) lag) q (c.thread (.check v)) := by
  cases c
  · exact .pushRetry h
  · exact .popRetry h

theorem move_ready (h : (q.buffer (v % n)).seq = c.role.expects v) :
    StdAtomicMPMCQueue.Move .unbounded n q (c.thread (.check v)) .check q
      (c.thread (.exchange v)) := by
  cases c
  · exact .pushReady h
  · exact .popReady h

theorem move_busy (h : (q.buffer (v % n)).seq ≠ c.role.expects v) :
    StdAtomicMPMCQueue.Move .unbounded n q (c.thread (.check v)) .check q
      (c.thread .load) := by
  cases c
  · exact .pushBusy h
  · exact .popBusy h

theorem move_claim (h : (indexOf q c.role).val = v) :
    StdAtomicMPMCQueue.Move .unbounded n q (c.thread (.exchange v))
      (c.claimed v) (claim q v c.role) (c.thread (.claimed v)) := by
  cases c
  · exact .pushClaim h
  · exact .popClaim h

theorem move_copyBegin :
    StdAtomicMPMCQueue.Move .unbounded n q (c.thread (.claimed v)) .copyBegin
      (c.begun q (v % n)) (c.thread (.copying v)) := by
  cases c
  · exact .pushCopyBegin
  · exact .popCopyBegin

theorem move_copyEnd :
    StdAtomicMPMCQueue.Move .unbounded n q (c.thread (.copying v)) .copyEnd
      (c.ended q (v % n))
      ((c.copied (q.buffer (v % n)).data).thread (.store v)) := by
  cases c
  · exact .pushCopyEnd
  · exact .popCopyEnd

theorem move_store :
    StdAtomicMPMCQueue.Move .unbounded n q (c.thread (.store v)) .store
      (q.setSeq (v % n) (c.role.leaves n v))
      (.done v (c.role.success c.item)) := by
  cases c
  · exact .pushStore
  · exact .popStore

end Moves

end Call

/-! ## Threads at the same place -/

/-- Where a thread with memory orders stands that has claimed as much. -/
def ordered : StdAtomicMPMCQueue.Pc → Pc
  | .load | .check _ | .exchange _ => .load
  | .claimed idx | .copying idx => .access idx
  | .store idx => .store idx

def orderedThread : StdAtomicMPMCQueue.Thread T → Thread T
  | .idle => .idle
  | .push item pc => .run .push (some item) (ordered pc)
  | .pop item pc => .run .pop item (ordered pc)
  | .done _ r => .done r

/-- The thread at the beginning of its loop if it has claimed nothing. -/
def Thread.rewound : Thread T → Thread T
  | .run role item (.check _) | .run role item (.exchange _) =>
      .run role item .load
  | th => th

theorem orderedThread_thread (c : Call T) (pc : StdAtomicMPMCQueue.Pc) :
    orderedThread (c.thread pc) = .run c.role c.item (ordered pc) := by
  cases c <;> rfl

section Threads

variable {th : StdAtomicMPMCQueue.Thread T} {th' : Thread T} {role : Role}
  {item : Option T} {r : Res T} {idx : ℕ} {pc : Pc}

theorem idle_of_ordered (h : orderedThread th = .idle) : th = .idle := by
  cases th with
  | idle => rfl
  | push | pop | done => cases h

theorem done_of_ordered (h : orderedThread th = .done r) :
    ∃ idx, th = .done idx r := by
  cases th with
  | done idx r' =>
      cases h
      exact ⟨idx, rfl⟩
  | idle | push | pop => cases h

theorem call_of_ordered (h : orderedThread th = .run role item pc) :
    ∃ c : Call T, ∃ pc', th = c.thread pc' ∧ c.role = role ∧ c.item = item ∧
      ordered pc' = pc := by
  cases th with
  | idle | done => cases h
  | push x pc' =>
      rw [orderedThread, Thread.run.injEq] at h
      obtain ⟨rfl, rfl, rfl⟩ := h
      exact ⟨.push x, pc', rfl, rfl, rfl, rfl⟩
  | pop x pc' =>
      rw [orderedThread, Thread.run.injEq] at h
      obtain ⟨rfl, rfl, rfl⟩ := h
      exact ⟨.pop x, pc', rfl, rfl, rfl, rfl⟩

theorem seeking_of_ordered {pc' : StdAtomicMPMCQueue.Pc}
    (h : ordered pc' = .load) :
    pc' = .load ∨ ∃ v, pc' = .check v ∨ pc' = .exchange v := by
  cases pc' with
  | load => exact .inl rfl
  | check v => exact .inr ⟨v, .inl rfl⟩
  | exchange v => exact .inr ⟨v, .inr rfl⟩
  | claimed | copying | store => cases h

theorem copying_of_ordered {pc' : StdAtomicMPMCQueue.Pc}
    (h : ordered pc' = .access idx) :
    pc' = .claimed idx ∨ pc' = .copying idx := by
  cases pc' with
  | claimed v =>
      cases h
      exact .inl rfl
  | copying v =>
      cases h
      exact .inr rfl
  | load | check | exchange | store => cases h

theorem store_of_ordered {pc' : StdAtomicMPMCQueue.Pc}
    (h : ordered pc' = .store idx) : pc' = .store idx := by
  cases pc' with
  | store v =>
      cases h
      rfl
  | load | check | exchange | claimed | copying => cases h

/-- Only a thread that has claimed nothing may stand elsewhere. -/
theorem eq_of_rewound {th₁ : Thread T} (h : th'.rewound = th₁)
    (hne : ∀ role item, th₁ ≠ .run role item .load) : th' = th₁ := by
  subst h
  cases th' with
  | idle | done => rfl
  | run role item pc =>
      cases pc with
      | load | access | store => rfl
      | check | exchange => exact absurd rfl (hne role item)

theorem seeking_of_rewound (h : th'.rewound = .run role item .load) :
    th' = .run role item .load ∨
      ∃ v, th' = .run role item (.check v) ∨
        th' = .run role item (.exchange v) := by
  cases th' with
  | idle | done => cases h
  | run role' item' pc =>
      cases pc with
      | load =>
          cases h
          exact .inl rfl
      | check v =>
          cases h
          exact .inr ⟨v, .inl rfl⟩
      | exchange v =>
          cases h
          exact .inr ⟨v, .inr rfl⟩
      | access | store => cases h

end Threads

/-! ## States that agree -/

/-- Two states with the same claims, the same cells and the threads at the same
places, up to a round of their loops. -/
structure Agree (n : ℕ) (log : List T) (s : StdAtomicMPMCQueue.State ι T)
    (s' : State ι T) : Prop where
  plain : StdAtomicMPMCQueue.Inv n log s
  orders : Inv n log s.shared.readIdx.val s'
  seqs : ∀ c, s'.shared.newest (.seq c) = some (s.shared.buffer c).seq
  threads : ∀ t, (s'.threads t).rewound = orderedThread (s.threads t)

section Agree

variable {s : StdAtomicMPMCQueue.State ι T} {s' : State ι T} {t : ι}
  {q : StdAtomicMPMCQueue.Queue T} {th : StdAtomicMPMCQueue.Thread T}
  {e : StdAtomicMPMCQueue.Event T} {mem : Memory ι T} {th' : Thread T}
  {e' : Event T}

/-- Both count the same claims. -/
theorem Agree.claims_eq (h : Agree n log s s') (role : Role) :
    claims log s.shared.readIdx.val role =
      (Call.indexOf s.shared role).val := by
  cases role with
  | push => exact h.plain.shared.log_length
  | pop => rfl

/-- The newest `seq_` of a cell. -/
theorem MemInv.newest_seq {mem : Memory ι T} (h : MemInv n log k mem) (c : ℕ) :
    mem.newest (.seq c) = some (seqVal n c (stage mem c)) := by
  have hlast : ((mem.msgs (.seq c)).map Msg.val).getLast? =
      some (seqVal n c (stage mem c)) := by
    rw [h.seqs, List.range_succ, List.map_append, List.map_singleton,
      List.getLast?_concat]
  rwa [List.getLast?_map] at hlast

variable [DecidableEq ι]

/-- A step of both. -/
theorem Agree.both (h : Agree n log s s')
    (hn : 2 ≤ n) (hV : V.Synchronizes)
    (hplain : StdAtomicMPMCQueue.Move .unbounded n s.shared (s.threads t) e q
      th)
    (hord : Move V n t s'.shared (s'.threads t) e' mem th')
    (hpushed : e'.pushed? = e.claimed?)
    (hpops : q.readIdx.val =
      s.shared.readIdx.val + if e'.pops then 1 else 0)
    (hseqs : ∀ c, mem.newest (.seq c) = some (q.buffer c).seq)
    (hth : th'.rewound = orderedThread th) :
    Agree n (log ++ e.claimed?.toList) (s.move t q th) (s'.move t mem th') where
  plain := h.plain.step hn rfl hplain
  orders := by
    rw [← hpushed]
    rw [Pool.move_shared, hpops]
    exact h.orders.move hn hV hord
  seqs := hseqs
  threads := by
    intro t'
    by_cases ht' : t' = t
    · subst ht'
      rw [Pool.move_threads_self, Pool.move_threads_self]
      exact hth
    · rw [Pool.move_threads_of_ne _ _ _ ht', Pool.move_threads_of_ne _ _ _ ht']
      exact h.threads t'

omit [DecidableEq ι] in
theorem claimed_eq_none (h : StdAtomicMPMCQueue.shows (t, e) = none) :
    e.claimed? = none := by
  cases e <;> first | rfl | cases h

/-- A step that only the queue without memory orders takes. -/
theorem Agree.left (h : Agree n log s s') (hn : 2 ≤ n)
    (hplain : StdAtomicMPMCQueue.Move .unbounded n s.shared (s.threads t) e q
      th)
    (hshows : StdAtomicMPMCQueue.shows (t, e) = none)
    (hread : q.readIdx = s.shared.readIdx)
    (hseqs : ∀ c, (q.buffer c).seq = (s.shared.buffer c).seq)
    (hth : orderedThread th = orderedThread (s.threads t)) :
    (StdAtomicMPMCQueue.system .unbounded n ι T).Matches
        StdAtomicMPMCQueue.shows s none (s.move t q th) ∧
      Agree n log (s.move t q th) s' := by
  refine ⟨?_, ?_, ?_, fun c => ?_, fun t' => ?_⟩
  · rw [← hshows]
    exact .step ⟨q, th, StdAtomicMPMCQueue.moves_iff.mpr hplain, rfl⟩
  · have hnext := h.plain.step hn rfl hplain
    rwa [claimed_eq_none hshows, Option.toList_none, List.append_nil] at hnext
  · rw [Pool.move_shared, hread]
    exact h.orders
  · rw [h.seqs c, Pool.move_shared, hseqs]
  · refine Pool.forall_move (P := fun t' th =>
      (s'.threads t').rewound = orderedThread th) ?_ (fun u _ => h.threads u) t'
    rw [hth]
    exact h.threads t

/-- A step that only the queue with memory orders takes. -/
theorem Agree.right (h : Agree n log s s') (hn : 2 ≤ n) (hV : V.Synchronizes)
    (hord : Move V n t s'.shared (s'.threads t) .inner mem th')
    (hseqs : ∀ c, mem.newest (.seq c) = s'.shared.newest (.seq c))
    (hth : th'.rewound = (s'.threads t).rewound) :
    (system V n ι T).Matches acts s' none (s'.move t mem th') ∧
      Agree n log s (s'.move t mem th') := by
  obtain ⟨choice, hmove⟩ := moves_iff.mpr hord
  have hstep : (system V n ι T).step s' (t, .inner) (s'.move t mem th') :=
    ⟨choice, mem, th', hmove, rfl⟩
  refine ⟨.step hstep, h.plain, ?_, fun c => ?_, fun t' => ?_⟩
  · simpa [Event.pushed?, Event.pops] using h.orders.move hn hV hord
  · rw [Pool.move_shared, hseqs, h.seqs c]
  · refine Pool.forall_move (P := fun t' (th : Thread T) =>
      th.rewound = orderedThread (s.threads t')) ?_ (fun u _ => h.threads u) t'
    rw [hth]
    exact h.threads t

/-! ## Another round of the loop -/

theorem rewound_checked (hwaits : V.refuses = false) {role : Role}
    {item : Option T} {idx seq : ℕ} :
    (V.checked role item idx seq).rewound = .run role item .load := by
  rw [Variant.checked]
  split_ifs with heq hlags
  · rfl
  · rw [hwaits] at hlags
    cases hlags.1
  · rfl

section Seek

variable {role : Role} {item : Option T} {v : ℕ}

/-- A load of the newest `seq_` lets a call in if it may enter. -/
theorem Agree.check_newest (h : Agree n log s s') (hn : 2 ≤ n)
    (hV : V.Synchronizes) (hwaits : V.refuses = false)
    (hth : s'.threads t = .run role item (.check v)) :
    ∃ s₁, (system V n ι T).Matches acts s' none s₁ ∧ Agree n log s s₁ ∧
      s₁.threads t =
        V.checked role item v (s.shared.buffer (v % n)).seq := by
  obtain ⟨msg, hlast, hval⟩ :=
    ViewMemory.newest_eq_some_iff.mp (h.seqs (v % n))
  obtain ⟨i, mem, hload⟩ :=
    h.orders.memory.wf.load_newest t (V.seqLoad role) hlast
  have hmove : Move V n t s'.shared (s'.threads t) .inner mem
      (V.checked role item v msg.val) := by
    rw [hth]
    exact .check hload
  obtain ⟨hmatch, hnext⟩ := h.right hn hV hmove
    (fun c => ViewMemory.newest_of_load hload)
    (by rw [rewound_checked hwaits, hth]; rfl)
  refine ⟨_, hmatch, hnext, ?_⟩
  rw [Pool.move_threads_self, hval]

/-- A load of the newest index. -/
theorem Agree.load_newest (h : Agree n log s s') (hn : 2 ≤ n)
    (hV : V.Synchronizes) (hth : s'.threads t = .run role item .load ∨
      s'.threads t = .run role item (.exchange v)) :
    ∃ s₁, (system V n ι T).Matches acts s' none s₁ ∧ Agree n log s s₁ ∧
      s₁.threads t =
        .run role item (.check (Call.indexOf s.shared role).val) := by
  obtain ⟨msg, hmsg⟩ := h.orders.memory.wf.exists_newest role.index
  rw [← List.getLast?_eq_getElem?] at hmsg
  have hval : msg.val = (Call.indexOf s.shared role).val :=
    (h.orders.memory.newest hmsg).trans (h.claims_eq role)
  obtain ⟨i, mem, hload⟩ :=
    h.orders.memory.wf.load_newest t V.indexLoad hmsg
  have hmove : Move V n t s'.shared (s'.threads t) .inner mem
      (.run role item (.check msg.val)) := by
    rcases hth with hth | hth
    · rw [hth]
      exact .load hload
    · rw [hth]
      exact .retry hload
  obtain ⟨hmatch, hnext⟩ := h.right hn hV hmove
    (fun c => ViewMemory.newest_of_load hload)
    (by rcases hth with hth | hth <;> rw [hth] <;> rfl)
  refine ⟨_, hmatch, hnext, ?_⟩
  rw [Pool.move_threads_self, hval]

/-- A call with memory orders gets to the claim of the next index, whose cell
lets it in. -/
theorem Agree.seek (h : Agree n log s s') (hn : 2 ≤ n) (hV : V.Synchronizes)
    (hwaits : V.refuses = false)
    (hth : (s'.threads t).rewound = .run role item .load)
    (hidx : (Call.indexOf s.shared role).val = v)
    (hseq : (s.shared.buffer (v % n)).seq = role.expects v) :
    ∃ s₁, (system V n ι T).Matches acts s' none s₁ ∧ Agree n log s s₁ ∧
      s₁.threads t = .run role item (.exchange v) := by
  subst hidx
  have again : ∀ {s₁ : State ι T} {w : ℕ}, Agree n log s s₁ →
      (s₁.threads t = .run role item .load ∨
        s₁.threads t = .run role item (.exchange w)) →
      ∃ s₂, (system V n ι T).Matches acts s₁ none s₂ ∧ Agree n log s s₂ ∧
        s₂.threads t =
          .run role item (.exchange (Call.indexOf s.shared role).val) := by
    intro s₁ w h₁ hth₁
    obtain ⟨s₂, hmatch, h₂, hth₂⟩ := h₁.load_newest hn hV hth₁
    obtain ⟨s₃, hmatch', h₃, hth₃⟩ := h₂.check_newest hn hV hwaits hth₂
    refine ⟨s₃, hmatch.after hmatch', h₃, ?_⟩
    rw [hth₃, Variant.checked, if_pos hseq]
  rcases seeking_of_rewound hth with hload | ⟨w, hcheck | hexchange⟩
  · exact again (w := 0) h (.inl hload)
  · obtain ⟨s₁, hmatch, h₁, hth₁⟩ := h.check_newest hn hV hwaits hcheck
    obtain ⟨s₂, hmatch', h₂, hth₂⟩ : ∃ s₂, _ ∧ _ ∧ _ := again (w := w) h₁ (by
      rw [hth₁, Variant.checked, hwaits]
      split_ifs with _ hlags
      · exact .inr rfl
      · cases hlags.1
      · exact .inl rfl)
    exact ⟨s₂, hmatch.after hmatch', h₂, hth₂⟩
  · exact again h (.inr hexchange)

/-- A step of the loop of the queue without memory orders. -/
theorem Agree.loop (h : Agree n log s s') (hn : 2 ≤ n) {c : Call T}
    {pc pc' : StdAtomicMPMCQueue.Pc} (hth : s.threads t = c.thread pc)
    (hmove : StdAtomicMPMCQueue.Move .unbounded n s.shared (c.thread pc) e
      s.shared (c.thread pc'))
    (hshows : StdAtomicMPMCQueue.shows (t, e) = none)
    (hpc : ordered pc' = ordered pc) :
    ∃ s₁, (StdAtomicMPMCQueue.system .unbounded n ι T).Matches
        StdAtomicMPMCQueue.shows s none s₁ ∧
      Agree n log s₁ s' ∧ s₁.shared = s.shared ∧
        s₁.threads t = c.thread pc' := by
  obtain ⟨hmatch, hnext⟩ := h.left hn (hth ▸ hmove) hshows rfl (fun _ => rfl)
    (by rw [hth, orderedThread_thread, orderedThread_thread, hpc])
  exact ⟨_, hmatch, hnext, rfl, Pool.move_threads_self s t _ _⟩

/-- A call without memory orders gets to the claim of the next index, whose cell
lets it in. -/
theorem Agree.seek_plain (h : Agree n log s s') (hn : 2 ≤ n) {c : Call T}
    {pc : StdAtomicMPMCQueue.Pc} (hth : s.threads t = c.thread pc)
    (hpc : ordered pc = .load)
    (hidx : (Call.indexOf s.shared c.role).val = v)
    (hseq : (s.shared.buffer (v % n)).seq = c.role.expects v) :
    ∃ s₁, (StdAtomicMPMCQueue.system .unbounded n ι T).Matches
        StdAtomicMPMCQueue.shows s none s₁ ∧
      Agree n log s₁ s' ∧ s₁.shared = s.shared ∧
        s₁.threads t = c.thread (.exchange v) := by
  have hload : (Call.indexOf s.shared c.role).load 0 = some v := by
    rw [Atomic.load_zero, hidx]
  have again : ∀ {s₁ : StdAtomicMPMCQueue.State ι T} {w : ℕ},
      Agree n log s₁ s' → s₁.shared = s.shared →
      (s₁.threads t = c.thread .load ∨ s₁.threads t = c.thread (.exchange w)) →
      ∃ s₂, (StdAtomicMPMCQueue.system .unbounded n ι T).Matches
          StdAtomicMPMCQueue.shows s₁ none s₂ ∧
        Agree n log s₂ s' ∧ s₂.shared = s.shared ∧
          s₂.threads t = c.thread (.exchange v) := by
    intro s₁ w h₁ hq₁ hth₁
    rw [← hq₁] at hload hseq
    obtain ⟨s₂, hmatch, h₂, hq₂, hth₂⟩ : ∃ s₂,
        (StdAtomicMPMCQueue.system .unbounded n ι T).Matches
          StdAtomicMPMCQueue.shows s₁ none s₂ ∧
        Agree n log s₂ s' ∧ s₂.shared = s₁.shared ∧
          s₂.threads t = c.thread (.check v) := by
      rcases hth₁ with hth₁ | hth₁
      · exact h₁.loop hn hth₁ (c.move_load hload) rfl rfl
      · exact h₁.loop hn hth₁ (c.move_retry hload) rfl rfl
    rw [← hq₂] at hseq
    obtain ⟨s₃, hmatch', h₃, hq₃, hth₃⟩ :=
      h₂.loop hn hth₂ (c.move_ready hseq) rfl rfl
    exact ⟨s₃, hmatch.after hmatch', h₃, hq₃.trans (hq₂.trans hq₁), hth₃⟩
  rcases seeking_of_ordered hpc with rfl | ⟨w, rfl | rfl⟩
  · exact again (w := 0) h rfl (.inl hth)
  · obtain ⟨s₁, hmatch, h₁, hq₁, hth₁⟩ : ∃ s₁,
        (StdAtomicMPMCQueue.system .unbounded n ι T).Matches
          StdAtomicMPMCQueue.shows s none s₁ ∧
        Agree n log s₁ s' ∧ s₁.shared = s.shared ∧
          (s₁.threads t = c.thread .load ∨
            s₁.threads t = c.thread (.exchange w)) := by
      by_cases hready : (s.shared.buffer (w % n)).seq = c.role.expects w
      · obtain ⟨s₁, hmatch, h₁, hq₁, hth₁⟩ :=
          h.loop hn hth (c.move_ready hready) rfl rfl
        exact ⟨s₁, hmatch, h₁, hq₁, .inr hth₁⟩
      · obtain ⟨s₁, hmatch, h₁, hq₁, hth₁⟩ :=
          h.loop hn hth (c.move_busy hready) rfl rfl
        exact ⟨s₁, hmatch, h₁, hq₁, .inl hth₁⟩
    obtain ⟨s₂, hmatch', h₂, hend⟩ := again h₁ hq₁ hth₁
    exact ⟨s₂, hmatch.after hmatch', h₂, hend⟩
  · exact again h rfl (.inr hth)

end Seek

/-! ## Steps of both -/

section Both

variable {c : Call T} {v : ℕ}

/-- Both queues move along steps that show `o`, and agree again. -/
structure Joint (V : Variant) (n : ℕ) (s : StdAtomicMPMCQueue.State ι T)
    (s' : State ι T) (o : Option (ι × Act (Op T) (Res T)))
    (s₁ : StdAtomicMPMCQueue.State ι T) (s₁' : State ι T) : Prop where
  plain : (StdAtomicMPMCQueue.system .unbounded n ι T).Matches
    StdAtomicMPMCQueue.shows s o s₁
  orders : (system V n ι T).Matches acts s' o s₁'
  agree : ∃ log, Agree n log s₁ s₁'

/-- A step of both that shows the same. -/
theorem Agree.joint (h : Agree n log s s') (hn : 2 ≤ n) (hV : V.Synchronizes)
    (hplain : StdAtomicMPMCQueue.Move .unbounded n s.shared (s.threads t) e q
      th)
    (hord : Move V n t s'.shared (s'.threads t) e' mem th')
    (hshows : StdAtomicMPMCQueue.shows (t, e) = acts (t, e'))
    (hpushed : e'.pushed? = e.claimed?)
    (hpops : q.readIdx.val =
      s.shared.readIdx.val + if e'.pops then 1 else 0)
    (hseqs : ∀ c, mem.newest (.seq c) = some (q.buffer c).seq)
    (hth : th'.rewound = orderedThread th) :
    Joint V n s s' (acts (t, e')) (s.move t q th) (s'.move t mem th') := by
  obtain ⟨choice, hmove⟩ := moves_iff.mpr hord
  have hstep : (system V n ι T).step s' (t, e') (s'.move t mem th') :=
    ⟨choice, mem, th', hmove, rfl⟩
  refine ⟨?_, .step hstep, _,
    h.both hn hV hplain hord hpushed hpops hseqs hth⟩
  rw [← hshows]
  exact .step ⟨q, th, StdAtomicMPMCQueue.moves_iff.mpr hplain, rfl⟩

omit [DecidableEq ι] in
/-- What lets a call in is what its claim finds. -/
theorem Agree.seq_of_claim (h : Agree n log s s')
    (hth' : s'.threads t = .run c.role c.item (.exchange v))
    (hidx : (Call.indexOf s.shared c.role).val = v) :
    (s.shared.buffer (v % n)).seq = c.role.expects v := by
  have hstage : stage s'.shared (v % n) = c.role.rank n v :=
    h.orders.stage_eq hth' ((h.claims_eq c.role).trans hidx).symm
  have hseq := (h.orders.memory.newest_seq (v % n)).symm.trans (h.seqs _)
  rw [hstage, seqVal_rank] at hseq
  exact (Option.some.inj hseq).symm

omit [DecidableEq ι] in
theorem Agree.seq_of_exchange (h : Agree n log s s')
    (hth : s.threads t = c.thread (.exchange v))
    (hidx : (Call.indexOf s.shared c.role).val = v) :
    (s.shared.buffer (v % n)).seq = c.role.expects v := by
  have hinv := h.plain.thread t
  rw [hth] at hinv
  cases c with
  | push item =>
      obtain ⟨-, hlt | hseq⟩ := hinv
      · exact absurd hidx hlt.ne'
      · exact hseq
  | pop item =>
      obtain ⟨-, hlt | hseq⟩ := hinv
      · exact absurd hidx hlt.ne'
      · exact hseq

/-- Both start a call. -/
theorem Agree.call (h : Agree n log s s') (hn : 2 ≤ n) (hV : V.Synchronizes)
    (hwaits : V.refuses = false) (hth : s.threads t = .idle)
    (hth' : s'.threads t = .idle) (c : Call T) :
    Joint V n s s' (some (t, .call c.op))
      (s.move t s.shared (c.fresh.thread .load))
      (s'.move t s'.shared (.run c.fresh.role c.fresh.item .load)) := by
  have hplain : StdAtomicMPMCQueue.Move .unbounded n s.shared (s.threads t)
      (.call c.op) s.shared (c.fresh.thread .load) := by
    rw [hth]
    exact c.move_call
  have hblocks : c.op.blocks = !V.refuses := by
    rw [hwaits]
    cases c <;> rfl
  have hord : Move V n t s'.shared (s'.threads t) (.call c.op) s'.shared
      (.run c.fresh.role c.fresh.item .load) := by
    rw [hth']
    cases c
    · exact .call hblocks
    · exact .call hblocks
  exact h.joint hn hV hplain hord rfl rfl rfl h.seqs
    (orderedThread_thread c.fresh .load).symm

/-- Both claim the next index. -/
theorem Agree.claim (h : Agree n log s s') (hn : 2 ≤ n) (hV : V.Synchronizes)
    (hth : s.threads t = c.thread (.exchange v))
    (hth' : s'.threads t = .run c.role c.item (.exchange v))
    (hcas : s'.shared.compareExchange t V.exchange c.role.index v (v + 1) =
      some mem) :
    Joint V n s s' (some (t, .effect))
      (s.move t (Call.claim s.shared v c.role) (c.thread (.claimed v)))
      (s'.move t mem (.run c.role c.item (.access v))) := by
  obtain ⟨hnewest, -, hother⟩ := ViewMemory.newest_of_compareExchange hcas
  obtain ⟨msg, hmsg, hval⟩ := ViewMemory.newest_eq_some_iff.mp hnewest
  have hidx : (Call.indexOf s.shared c.role).val = v := by
    rw [← h.claims_eq, ← h.orders.memory.newest hmsg, hval]
  have hplain : StdAtomicMPMCQueue.Move .unbounded n s.shared (s.threads t)
      (c.claimed v) (Call.claim s.shared v c.role)
      (c.thread (.claimed v)) := by
    rw [hth]
    exact c.move_claim hidx
  have hord : Move V n t s'.shared (s'.threads t) (.claim c.role c.item) mem
      (.run c.role c.item (.access v)) := by
    rw [hth']
    exact .claim hcas
  refine h.joint hn hV hplain hord (c.shows_claimed t v) (c.claimed_item v)
    (c.claim_readIdx hidx) (fun cell => ?_)
    (orderedThread_thread c (.claimed v)).symm
  rw [hother _ (index_ne_seq c.role cell), h.seqs]
  cases c <;> rfl

/-- Both copy the same item. -/
theorem Agree.copy (h : Agree n log s s') (hn : 2 ≤ n) (hV : V.Synchronizes)
    (hth : s.threads t = c.thread (.copying v))
    (hth' : s'.threads t = .run c.role c.item (.access v)) :
    Joint V n s s' none
      (s.move t (c.ended s.shared (v % n))
        ((c.copied (s.shared.buffer (v % n)).data).thread (.store v)))
      (s'.move t (access t s'.shared c.role c.item (v % n)).1
        (.run c.role (access t s'.shared c.role c.item (v % n)).2
          (.store v))) := by
  have hplain : StdAtomicMPMCQueue.Move .unbounded n s.shared (s.threads t)
      .copyEnd (c.ended s.shared (v % n))
      ((c.copied (s.shared.buffer (v % n)).data).thread (.store v)) := by
    rw [hth]
    exact c.move_copyEnd
  have hord : Move V n t s'.shared (s'.threads t) .inner
      (access t s'.shared c.role c.item (v % n)).1
      (.run c.role (access t s'.shared c.role c.item (v % n)).2
        (.store v)) := by
    rw [hth']
    exact .access
  refine h.joint hn hV hplain hord rfl rfl ?_ (fun cell => ?_) ?_
  · cases c <;> rfl
  · rw [ViewMemory.newest_congr (congrFun access_msgs _), h.seqs]
    cases c <;> simp [Call.ended]
  · rw [orderedThread_thread]
    cases c with
    | push item => rfl
    | pop item =>
        -- both find the item of this index
        have hplain := h.plain.thread t
        rw [hth] at hplain
        have hread : StdAtomicMPMCQueue.Reading n s.shared v := hplain
        have hdata := h.plain.shared.data_published v hread.write_le
          (hread.lt_read.trans_le h.plain.shared.read_le) hread.seq_eq
        have hheld := (h.orders.run hth').2.1
        have hcell := h.orders.memory.data v hheld.stage_eq
        exact congrArg (fun d => Thread.run .pop d (.store v))
          (hcell.trans hdata.symm)

/-- Both pass their cell on. -/
theorem Agree.store (h : Agree n log s s') (hn : 2 ≤ n) (hV : V.Synchronizes)
    (hth : s.threads t = c.thread (.store v))
    (hth' : s'.threads t = .run c.role c.item (.store v)) :
    Joint V n s s' none
      (s.move t (s.shared.setSeq (v % n) (c.role.leaves n v))
        (.done v (c.role.success c.item)))
      (s'.move t (s'.shared.store t (V.seqStore c.role) (.seq (v % n))
        (c.role.leaves n v)) (.done (c.role.success c.item))) := by
  have hplain : StdAtomicMPMCQueue.Move .unbounded n s.shared (s.threads t)
      .store (s.shared.setSeq (v % n) (c.role.leaves n v))
      (.done v (c.role.success c.item)) := by
    rw [hth]
    exact c.move_store
  have hord : Move V n t s'.shared (s'.threads t) .inner
      (s'.shared.store t (V.seqStore c.role) (.seq (v % n))
        (c.role.leaves n v)) (.done (c.role.success c.item)) := by
    rw [hth']
    exact .store
  refine h.joint hn hV hplain hord rfl rfl rfl (fun cell => ?_) rfl
  by_cases hcell : cell = v % n
  · rw [hcell, ViewMemory.newest_store_self,
      StdAtomicMPMCQueue.Queue.setSeq_seq_self]
  · rw [ViewMemory.newest_store_of_ne (by simpa using hcell),
      StdAtomicMPMCQueue.Queue.setSeq_seq_of_ne _ _ hcell]
    exact h.seqs cell

/-- Both return. -/
theorem Agree.ret (h : Agree n log s s') (hn : 2 ≤ n) (hV : V.Synchronizes)
    {r : Res T} (hth : s.threads t = .done v r)
    (hth' : s'.threads t = .done r) :
    Joint V n s s' (some (t, .ret r)) (s.move t s.shared .idle)
      (s'.move t s'.shared .idle) := by
  have hplain : StdAtomicMPMCQueue.Move .unbounded n s.shared (s.threads t)
      (.ret v r) s.shared .idle := by
    rw [hth]
    exact .ret
  have hord : Move V n t s'.shared (s'.threads t) (.ret r) s'.shared
      .idle := by
    rw [hth']
    exact .ret
  exact h.joint hn hV hplain hord rfl rfl rfl h.seqs rfl

end Both

/-! ## Every step is matched -/

section Forth

variable {c : Call T} {v : ℕ}

omit [DecidableEq ι] in
/-- The other thread is at the same place, if that is outside of the loop. -/
theorem Agree.thread_eq (h : Agree n log s s') (hth : s.threads t = th)
    (hne : ∀ role item, orderedThread th ≠ .run role item .load) :
    s'.threads t = orderedThread th := by
  subst hth
  exact eq_of_rewound (h.threads t) hne

/-- A claim without memory orders is matched. -/
theorem Agree.forth_claim (h : Agree n log s s') (hn : 2 ≤ n)
    (hV : V.Synchronizes) (hwaits : V.refuses = false)
    (hth : s.threads t = c.thread (.exchange v))
    (hidx : (Call.indexOf s.shared c.role).val = v) :
    ∃ s₁', (system V n ι T).Matches acts s' (some (t, .effect)) s₁' ∧
      ∃ log, Agree n log
        (s.move t (Call.claim s.shared v c.role) (c.thread (.claimed v))) s₁' := by
  obtain ⟨s₁', hseek, h₁, hth₁⟩ := h.seek hn hV hwaits (t := t)
    (by rw [h.threads t, hth, orderedThread_thread]; rfl) hidx
    (h.seq_of_exchange hth hidx)
  obtain ⟨msg, hmsg⟩ := h₁.orders.memory.wf.exists_newest c.role.index
  rw [← List.getLast?_eq_getElem?] at hmsg
  have hval : msg.val = v := by
    rw [h₁.orders.memory.newest hmsg, h₁.claims_eq, hidx]
  obtain ⟨mem, hcas⟩ : ∃ mem, s₁'.shared.compareExchange t V.exchange
      c.role.index v (v + 1) = some mem :=
    ⟨_, ViewMemory.compareExchange_eq_some_iff.mpr ⟨msg, hmsg, hval, rfl⟩⟩
  obtain ⟨-, hmatch, hnext⟩ := h₁.claim hn hV hth hth₁ hcas
  exact ⟨_, hseek.after hmatch, hnext⟩

theorem Agree.forth (h : Agree n log s s') (hn : 2 ≤ n) (hV : V.Synchronizes)
    (hwaits : V.refuses = false)
    (hmove : StdAtomicMPMCQueue.Move .unbounded n s.shared (s.threads t) e q
      th) :
    ∃ s₁', (system V n ι T).Matches acts s' (StdAtomicMPMCQueue.shows (t, e))
        s₁' ∧ ∃ log, Agree n log (s.move t q th) s₁' := by
  have hleft := fun hshows hread hseqs hth =>
    (h.left hn hmove hshows hread hseqs hth).2
  generalize hth : s.threads t = th₀ at hmove
  cases hmove with
  | callPush item =>
      have hth' := h.thread_eq hth nofun
      have hjoint := h.call hn hV hwaits hth hth' (.push item)
      exact ⟨_, hjoint.orders, hjoint.agree⟩
  | callPop =>
      have hth' := h.thread_eq hth nofun
      have hjoint := h.call hn hV hwaits hth hth' (.pop none)
      exact ⟨_, hjoint.orders, hjoint.agree⟩
  | pushLoad | pushReady | pushBusy | pushRetry | popLoad | popReady
  | popBusy | popRetry | popCopyBegin =>
      exact ⟨s', .stay _, _, hleft rfl rfl (fun _ => rfl) (by rw [hth]; rfl)⟩
  | pushCopyBegin =>
      exact ⟨s', .stay _, _, hleft rfl rfl (by simp) (by rw [hth]; rfl)⟩
  | @pushClaim item v hval =>
      exact h.forth_claim (c := .push item) hn hV hwaits hth hval
  | @popClaim item v hval =>
      exact h.forth_claim (c := .pop item) hn hV hwaits hth hval
  | @pushCopyEnd item v =>
      have hth' := h.thread_eq hth nofun
      have hjoint := h.copy (c := .push item) hn hV hth hth'
      exact ⟨_, hjoint.orders, hjoint.agree⟩
  | @popCopyEnd item v =>
      have hth' := h.thread_eq hth nofun
      have hjoint := h.copy (c := .pop item) hn hV hth hth'
      exact ⟨_, hjoint.orders, hjoint.agree⟩
  | @pushStore item v =>
      have hth' := h.thread_eq hth nofun
      have hjoint := h.store (c := .push item) hn hV hth hth'
      exact ⟨_, hjoint.orders, hjoint.agree⟩
  | @popStore item v =>
      have hth' := h.thread_eq hth nofun
      have hjoint := h.store (c := .pop item) hn hV hth hth'
      exact ⟨_, hjoint.orders, hjoint.agree⟩
  | @ret idx r =>
      have hth' := h.thread_eq hth nofun
      have hjoint := h.ret hn hV hth hth'
      exact ⟨_, hjoint.orders, hjoint.agree⟩

end Forth

section Back

omit [DecidableEq ι] in
/-- A call with memory orders stands in the same call of the other queue. -/
theorem Agree.call_of_run (h : Agree n log s s') {role : Role}
    {item : Option T} {pc : Pc}
    (hth' : (s'.threads t).rewound = .run role item pc) :
    ∃ c : Call T, ∃ pc', s.threads t = c.thread pc' ∧ c.role = role ∧
      c.item = item ∧ ordered pc' = pc :=
  call_of_ordered ((h.threads t).symm.trans hth')

theorem Agree.back (h : Agree n log s s') (hn : 2 ≤ n) (hV : V.Synchronizes)
    (hwaits : V.refuses = false)
    (hmove : Move V n t s'.shared (s'.threads t) e' mem th') :
    ∃ s₁, (StdAtomicMPMCQueue.system .unbounded n ι T).Matches
        StdAtomicMPMCQueue.shows s (acts (t, e')) s₁ ∧
      ∃ log, Agree n log s₁ (s'.move t mem th') := by
  have hright : Move V n t s'.shared (s'.threads t) .inner mem th' →
      (∀ c, mem.newest (.seq c) = s'.shared.newest (.seq c)) →
      th'.rewound = (s'.threads t).rewound →
      Agree n log s (s'.move t mem th') :=
    fun hmove hseqs hth => (h.right hn hV hmove hseqs hth).2
  generalize hth' : s'.threads t = th₀ at hmove
  cases hmove with
  | @call op hop =>
      have hth := idle_of_ordered ((h.threads t).symm.trans (by rw [hth']; rfl))
      rw [hwaits] at hop
      obtain ⟨c, rfl, hc⟩ : ∃ c : Call T, c.op = op ∧
          Thread.run (roleOf op) op.item? .load =
            .run c.fresh.role c.fresh.item .load := by
        cases op with
        | push item => exact ⟨.push item, rfl, rfl⟩
        | pop => exact ⟨.pop none, rfl, rfl⟩
        | tryPush | tryPop => cases hop
      have hjoint := h.call hn hV hwaits hth hth' c
      rw [hc]
      exact ⟨_, hjoint.plain, hjoint.agree⟩
  | load hload =>
      exact ⟨s, .stay _, _, hright (hth' ▸ .load hload)
        (fun _ => ViewMemory.newest_of_load hload) (by rw [hth']; rfl)⟩
  | retry hload =>
      exact ⟨s, .stay _, _, hright (hth' ▸ .retry hload)
        (fun _ => ViewMemory.newest_of_load hload) (by rw [hth']; rfl)⟩
  | check hload =>
      exact ⟨s, .stay _, _, hright (hth' ▸ .check hload)
        (fun _ => ViewMemory.newest_of_load hload)
        (by rw [rewound_checked hwaits, hth']; rfl)⟩
  | @claim role item idx _ hcas =>
      obtain ⟨c, pc, hth, rfl, rfl, hpc⟩ := h.call_of_run (by rw [hth']; rfl)
      obtain ⟨hnewest, -⟩ := ViewMemory.newest_of_compareExchange hcas
      obtain ⟨msg, hmsg, hval⟩ := ViewMemory.newest_eq_some_iff.mp hnewest
      have hidx : (Call.indexOf s.shared c.role).val = idx := by
        rw [← h.claims_eq, ← h.orders.memory.newest hmsg, hval]
      obtain ⟨s₁, hseek, h₁, hq₁, hth₁⟩ :=
        h.seek_plain hn hth hpc hidx (h.seq_of_claim hth' hidx)
      have hjoint := h₁.claim hn hV hth₁ hth' hcas
      exact ⟨_, hseek.after hjoint.plain, hjoint.agree⟩
  | @access role item idx =>
      obtain ⟨c, pc, hth, rfl, rfl, hpc⟩ := h.call_of_run (by rw [hth']; rfl)
      rcases copying_of_ordered hpc with rfl | rfl
      · -- the other copy has not begun
        obtain ⟨hbegin, h₁⟩ := h.left (t := t) hn
          (hth ▸ c.move_copyBegin) rfl (by cases c <;> rfl)
          (fun _ => by cases c <;> simp [Call.begun])
          (by rw [hth, orderedThread_thread, orderedThread_thread]; rfl)
        have hjoint := h₁.copy hn hV (Pool.move_threads_self s t _ _) hth'
        exact ⟨_, hbegin.after hjoint.plain, hjoint.agree⟩
      · have hjoint := h.copy hn hV hth hth'
        exact ⟨_, hjoint.plain, hjoint.agree⟩
  | @store role item idx =>
      obtain ⟨c, pc, hth, rfl, rfl, hpc⟩ := h.call_of_run (by rw [hth']; rfl)
      obtain rfl := store_of_ordered hpc
      have hjoint := h.store hn hV hth hth'
      exact ⟨_, hjoint.plain, hjoint.agree⟩
  | @ret r =>
      obtain ⟨idx, hth⟩ :=
        done_of_ordered ((h.threads t).symm.trans (by rw [hth']; rfl))
      have hjoint := h.ret hn hV hth hth'
      exact ⟨_, hjoint.plain, hjoint.agree⟩

end Back

end Agree

theorem agree_init [DecidableEq ι] : Agree n ([] : List T)
    (StdAtomicMPMCQueue.system .unbounded n ι T).init (system V n ι T).init where
  plain := StdAtomicMPMCQueue.inv_init
  orders := inv_init
  seqs _ := ViewMemory.newest_init
  threads _ := rfl

/-- With two cells or more, and with every store of `seq_` synchronizing with
the loads that wait for it, the memory orders change no history of calls, claims
and returns. -/
theorem orders_observations_eq (hn : 2 ≤ n) (hV : V.Synchronizes)
    (hwaits : V.refuses = false) (ι : Type v) [DecidableEq ι] (T : Type u) :
    (StdAtomicMPMCQueue.system .unbounded n ι T).observations
        StdAtomicMPMCQueue.shows =
      (system V n ι T).observations acts := by
  refine Lts.Bisimulation.observations_eq
    (R := fun s s' => ∃ log, Agree n log s s') ⟨⟨[], agree_init⟩, ?_, ?_⟩
  · rintro s a s₁ s' - - ⟨log, h⟩ ⟨q, th, hmove, rfl⟩
    exact h.forth hn hV hwaits (StdAtomicMPMCQueue.moves_iff.mp hmove)
  · rintro s s' a s₁' - - ⟨log, h⟩ ⟨choice, mem, th, hmove, rfl⟩
    exact h.back hn hV hwaits (moves_iff.mp ⟨choice, hmove⟩)

theorem orders_observations_eq_stdAtomic :
    (StdAtomicMPMCQueue.system .unbounded 2 ℕ ℕ).observations
        StdAtomicMPMCQueue.shows =
      (system StdAtomicMPMCQueue 2 ℕ ℕ).observations acts :=
  orders_observations_eq le_rfl (fun _ => ⟨rfl, rfl⟩) rfl ℕ ℕ

end Mpmc
end ConcurrentQueues
