import ConcurrentQueues.Atomic.Bag
import Mathlib.Order.Interval.Finset.Nat

/-!
# `AtomicQueue` with one thread at each end

With one thread at each end the pushes come to a slot in the order of their
tickets, and so do the pops, and the two take turns.  So the queue is a FIFO
queue, in `SPSC` mode as well as with read-modify-writes, whatever slots the
tickets name and wherever the counters wrap around.  A load that sees an old
value of a slot makes a call wait, since its own end was the last to see the
slot change in its favour.
-/

namespace ConcurrentQueues

universe v

namespace AtomicQueue

open Fifo

variable {ι : Type v} {V : Variant} {log : List ℕ} {k : ℕ} {cl : End → ℕ}

/-! ## The slots -/

/-- The slot of ticket `i`. -/
def Variant.slotOf (V : Variant) (i : ℕ) : ℕ :=
  V.layout.slotOf V.width i

/-- How many calls of an end are through: `log` lists the elements put so far,
and `k` of them have been taken. -/
def through (log : List ℕ) (k : ℕ) : End → ℕ
  | .push => log.length
  | .pop => k

/-- The unread elements lie in the slots of their tickets, which are different,
and all other slots are free. -/
structure Slots (V : Variant) (mem : Memory ι) (log : List ℕ) (k : ℕ) :
    Prop where
  le : k ≤ log.length
  ne_nil : ∀ x ∈ log, x ≠ V.NIL
  full : ∀ i x, k ≤ i → log[i]? = some x →
    mem.newest (.element (V.slotOf i)) = some x
  apart : ∀ i j, k ≤ i → i < log.length → k ≤ j → j < log.length →
    V.slotOf i = V.slotOf j → i = j
  free : ∀ c, (∀ i, k ≤ i → i < log.length → V.slotOf i ≠ c) →
    mem.newest (.element c) = some V.NIL

namespace Slots

variable {mem mem' : Memory ι} {x : ℕ}

theorem init : Slots V (Memory.new V.NIL : Memory ι) [] 0 where
  le := le_rfl
  ne_nil := nofun
  full _ _ _ h := by cases h
  apart _ _ _ h := by cases h
  free _ _ := ViewMemory.newest_init

theorem congr (h : Slots V mem log k)
    (hsame : ∀ c, mem'.newest (.element c) = mem.newest (.element c)) :
    Slots V mem' log k where
  le := h.le
  ne_nil := h.ne_nil
  full i x hk hi := (hsame _).trans (h.full i x hk hi)
  apart := h.apart
  free c hc := (hsame c).trans (h.free c hc)

/-- An unread element does not lie in a free slot. -/
theorem slotOf_ne (h : Slots V mem log k) {i c : ℕ} (hk : k ≤ i)
    (hi : i < log.length) (hc : mem.newest (.element c) = some V.NIL) :
    V.slotOf i ≠ c := by
  rintro rfl
  have hget := List.getElem?_eq_getElem hi
  rw [h.full i _ hk hget] at hc
  exact h.ne_nil _ (List.getElem_mem hi) (Option.some.inj hc)

theorem put (h : Slots V mem log k)
    (hold : mem.newest (.element (V.slotOf log.length)) = some V.NIL)
    (hnew : mem'.newest (.element (V.slotOf log.length)) = some x)
    (hx : x ≠ V.NIL)
    (hsame : ∀ c, c ≠ V.slotOf log.length →
      mem'.newest (.element c) = mem.newest (.element c)) :
    Slots V mem' (log ++ [x]) k where
  le := by
    rw [List.length_append]
    exact h.le.trans (Nat.le_add_right _ _)
  ne_nil y hy := by
    rcases List.mem_append.mp hy with hy | hy
    · exact h.ne_nil y hy
    · rwa [List.mem_singleton.mp hy]
  full i y hk hi := by
    rcases Nat.lt_or_ge i log.length with hlt | hge
    · rw [List.getElem?_append_left hlt] at hi
      exact (hsame _ (h.slotOf_ne hk hlt hold)).trans (h.full i y hk hi)
    · rw [List.getElem?_append_right hge, List.getElem?_singleton] at hi
      split_ifs at hi with heq
      obtain rfl := Option.some.inj hi
      obtain rfl : i = log.length := by omega
      exact hnew
  apart i j hki hi hkj hj heq := by
    rw [List.length_append, List.length_singleton] at hi hj
    rcases Nat.lt_or_ge i log.length with hlt | hge
    · rcases Nat.lt_or_ge j log.length with hlt' | hge'
      · exact h.apart i j hki hlt hkj hlt' heq
      · obtain rfl : j = log.length := by omega
        exact absurd heq (h.slotOf_ne hki hlt hold)
    · obtain rfl : i = log.length := by omega
      rcases Nat.lt_or_ge j log.length with hlt' | hge'
      · exact absurd heq.symm (h.slotOf_ne hkj hlt' hold)
      · omega
  free c hc := by
    rw [List.length_append, List.length_singleton] at hc
    rw [hsame c (Ne.symm (hc _ h.le (by omega)))]
    exact h.free c fun i hk hi => hc i hk (by omega)

/-- The element a pop finds is the one of its ticket. -/
theorem item_eq (h : Slots V mem log k)
    (hold : mem.newest (.element (V.slotOf k)) = some x) (hx : x ≠ V.NIL) :
    log[k]? = some x := by
  have hlt : k < log.length := by
    by_contra hge
    rw [h.free _ fun i hk hi => by omega] at hold
    exact hx (Option.some.inj hold).symm
  have hget := List.getElem?_eq_getElem hlt
  rw [h.full k _ le_rfl hget] at hold
  rw [hget, hold]

theorem take (h : Slots V mem log k) (hlt : k < log.length)
    (hnew : mem'.newest (.element (V.slotOf k)) = some V.NIL)
    (hsame : ∀ c, c ≠ V.slotOf k →
      mem'.newest (.element c) = mem.newest (.element c)) :
    Slots V mem' log (k + 1) where
  le := hlt
  ne_nil := h.ne_nil
  full i x hk hi := by
    have hne : V.slotOf i ≠ V.slotOf k := fun heq => by
      have := h.apart i k (by omega) (List.getElem?_eq_some_iff.mp hi).1 le_rfl
        hlt heq
      omega
    exact (hsame _ hne).trans (h.full i x (by omega) hi)
  apart i j hki hi hkj hj := h.apart i j (by omega) hi (by omega) hj
  free c hc := by
    by_cases heq : c = V.slotOf k
    · rw [heq, hnew]
    · rw [hsame c heq]
      refine h.free c fun i hk hi => ?_
      rcases Nat.eq_or_lt_of_le hk with rfl | hlt'
      · exact Ne.symm heq
      · exact hc i hlt' hi

/-- A push that finds its slot free finds room in the queue. -/
theorem room (h : Slots V mem log k)
    (hold : mem.newest (.element (V.slotOf log.length)) = some V.NIL) :
    (log.drop k).length < V.layout.size := by
  have hle := h.le
  have hcard : (Finset.Ico k (log.length + 1)).card ≤
      (Finset.range V.layout.size).card := by
    refine Finset.card_le_card_of_injOn V.slotOf
      (fun i _ => Finset.mem_coe.mpr (Finset.mem_range.mpr
        (V.layout.slot_lt _))) ?_
    intro i hi j hj heq
    rw [Finset.mem_coe, Finset.mem_Ico] at hi hj
    rcases Nat.lt_or_ge i log.length with hlt | hge
    · rcases Nat.lt_or_ge j log.length with hlt' | hge'
      · exact h.apart i j hi.1 hlt hj.1 hlt' heq
      · obtain rfl : j = log.length := by omega
        exact absurd heq (h.slotOf_ne hi.1 hlt hold)
    · obtain rfl : i = log.length := by omega
      rcases Nat.lt_or_ge j log.length with hlt' | hge'
      · exact absurd heq.symm (h.slotOf_ne hj.1 hlt' hold)
      · omega
  rw [Nat.card_Ico, Finset.card_range] at hcard
  rw [List.length_drop]
  omega

end Slots

/-! ## The threads -/

/-- The end at which a thread holds a ticket. -/
def Thread.holds : Thread → Option End
  | .run op (.slot _) | .run op (.pause _) | .run op (.put _ _) =>
      some (endOf op)
  | _ => none

/-- What is known where a call of end `e` stands.  The counter of the end has
dealt out `cl e` tickets. -/
def PcInv (V : Variant) (log : List ℕ) (k : ℕ) (cl : End → ℕ) (mem : Memory ι)
    (e : End) : Pc → Prop
  | .load | .fetch => True
  | .check own | .claim own => own = V.width.ofNat (cl e)
  | .slot own | .pause own =>
      own = V.width.ofNat (through log k e) ∧ cl e = through log k e + 1
  | .put own element =>
      own = V.width.ofNat (through log k e) ∧ cl e = through log k e + 1 ∧
        ∃ value, mem.newest (.element (V.slotOf (through log k e))) =
          some value ∧ V.Admits value e ∧ (e = .pop → element = value)

/-- What is known where a thread stands. -/
def ThreadInv (V : Variant) (may : End → Bool) (log : List ℕ) (k : ℕ)
    (cl : End → ℕ) (mem : Memory ι) : Thread → Prop
  | .run op pc =>
      may (endOf op) ∧ op.item? ≠ some V.NIL ∧
        PcInv V log k cl mem (endOf op) pc
  | _ => True

/-- Messages of a slot that let in the calls of a thread are not older than what
it knows of, unless they are the newest. -/
def Fresh (V : Variant) (mem : Memory ι) (t : ι) (e : End) : Prop :=
  ∀ c j msg, (mem.view t).seen (.element c) ≤ j →
    (mem.msgs (.element c))[j]? = some msg → V.Admits msg.val e →
      j + 1 = (mem.msgs (.element c)).length

/-- The invariant. -/
structure Inv (V : Variant) (may : ι → End → Bool) (log : List ℕ) (k : ℕ)
    (cl : End → ℕ) (s : State ι) : Prop where
  wf : s.shared.WellFormed
  counters : ∀ e : End, (s.shared.msgs e.own).map Msg.val =
    (List.range (cl e + 1)).map V.width.ofNat
  slots : Slots V s.shared log k
  threads : ∀ t, ThreadInv V (may t) log k cl s.shared (s.threads t)
  settled : ∀ e, (∀ t, (s.threads t).holds ≠ some e) → cl e = through log k e
  seen : ∀ t e, may t e → cl e ≤ (s.shared.view t).seen e.own
  fresh : V.spsc → ∀ t e, may t e → Fresh V s.shared t e

/-- At most one thread at each end. -/
def Single (may : ι → End → Bool) : Prop :=
  ∀ t t' e, may t e → may t' e → t = t'

/-- A value lets in the calls of one end. -/
theorem Variant.Admits.unique {value : ℕ} {e e' : End} (h : V.Admits value e)
    (h' : V.Admits value e') : e = e' := by
  cases e <;> cases e' <;> first | rfl | exact absurd h h' | exact absurd h' h

section Threads

variable {may : ι → End → Bool} {s : State ι} {t u : ι} {mem' : Memory ι}
  {op : Op ℕ} {pc : Pc} {th' : Thread} {e : End} {log' : List ℕ} {k' : ℕ}
  {cl' : End → ℕ}

theorem Inv.run (h : Inv V may log k cl s) (hth : s.threads t = .run op pc) :
    may t (endOf op) ∧ op.item? ≠ some V.NIL ∧
      PcInv V log k cl s.shared (endOf op) pc := by
  have := h.threads t
  rwa [hth] at this

/-- A thread that holds a ticket calls at its end. -/
theorem Inv.may_of_holds (h : Inv V may log k cl s)
    (hholds : (s.threads t).holds = some e) : may t e := by
  have hinv := h.threads t
  revert hinv hholds
  cases s.threads t with
  | idle | done => nofun
  | run op pc =>
      intro hholds hinv
      obtain rfl : endOf op = e := by
        cases pc <;> first | exact Option.some.inj hholds | cases hholds
      exact hinv.1

theorem Inv.counter_length (h : Inv V may log k cl s) (e : End) :
    (s.shared.msgs e.own).length = cl e + 1 := by
  have := congrArg List.length (h.counters e)
  simpa using this

/-- The newest value of a counter. -/
theorem Inv.newest_counter (h : Inv V may log k cl s) (e : End) :
    s.shared.newest e.own = some (V.width.ofNat (cl e)) := by
  rw [ViewMemory.newest, ← List.getLast?_map, h.counters, List.range_succ,
    List.map_append, List.map_singleton, List.getLast?_concat]

section Loads

variable [DecidableEq ι] {o : MemoryOrder} {j v : ℕ}

/-- A thread sees the newest value of its own counter. -/
theorem Inv.own_load (h : Inv V may log k cl s) (hmay : may t e)
    (hload : s.shared.load t o e.own j = some (v, mem')) :
    v = V.width.ofNat (cl e) := by
  obtain ⟨⟨hseen, -⟩, msg, hmsg, rfl, -⟩ := ViewMemory.load_eq_some_iff.mp hload
  have hlt := (List.getElem?_eq_some_iff.mp hmsg).1
  have hcl := h.seen t e hmay
  have hlen := h.counter_length e
  obtain rfl : j = cl e := by omega
  have hval := congrArg (·[cl e]?) (h.counters e)
  simpa [hmsg] using hval

/-- A value that lets a call in is the newest. -/
theorem Inv.fresh_load (h : Inv V may log k cl s) (hspsc : V.spsc)
    (hmay : may t e) {c : ℕ}
    (hload : s.shared.load t o (.element c) j = some (v, mem'))
    (hadmits : V.Admits v e) : s.shared.newest (.element c) = some v := by
  obtain ⟨⟨hseen, -⟩, msg, hmsg, rfl, -⟩ := ViewMemory.load_eq_some_iff.mp hload
  have hlast := h.fresh hspsc t e hmay c j msg hseen hmsg hadmits
  refine ViewMemory.newest_eq_some_iff.mpr ⟨msg, ?_, rfl⟩
  rw [List.getLast?_eq_getElem?, ← hlast, Nat.add_sub_cancel, hmsg]

omit [DecidableEq ι] in
theorem PcInv.congr (h : PcInv V log k cl s.shared e pc) (hcl : cl' e = cl e)
    (hthrough : through log' k' e = through log k e)
    (hnewest : ∀ value,
      s.shared.newest (.element (V.slotOf (through log k e))) = some value →
      V.Admits value e →
      mem'.newest (.element (V.slotOf (through log k e))) = some value) :
    PcInv V log' k' cl' mem' e pc := by
  cases pc with
  | load | fetch => trivial
  | check own | claim own => exact h.trans (by rw [hcl])
  | slot own | pause own =>
      rw [PcInv, hthrough, hcl]
      exact h
  | put own element =>
      obtain ⟨hown, hclaimed, value, hold, hadmits, helement⟩ := h
      rw [PcInv, hthrough, hcl]
      exact ⟨hown, hclaimed, value, hnewest value hold hadmits, hadmits,
        helement⟩

/-- The invariant after a step, from what the step does to its own end and to
the others. -/
theorem Inv.assemble (h : Inv V may log k cl s)
    (hwf : mem'.WellFormed)
    (hcounters : ∀ e : End, (mem'.msgs e.own).map Msg.val =
      (List.range (cl' e + 1)).map V.width.ofNat)
    (hslots : Slots V mem' log' k')
    (hself : ThreadInv V (may t) log' k' cl' mem' th')
    (hother : ∀ u, u ≠ t → ∀ e, may u e → cl' e = cl e ∧
      through log' k' e = through log k e ∧ ∀ value,
        s.shared.newest (.element (V.slotOf (through log k e))) = some value →
        V.Admits value e →
        mem'.newest (.element (V.slotOf (through log k e))) = some value)
    (hsettled : ∀ e, (∀ u, ((s.move t mem' th').threads u).holds ≠ some e) →
      cl' e = through log' k' e)
    (hseen : ∀ u e, may u e → cl' e ≤ (mem'.view u).seen e.own)
    (hfresh : V.spsc → ∀ u e, may u e → Fresh V mem' u e) :
    Inv V may log' k' cl' (s.move t mem' th') where
  wf := hwf
  counters := hcounters
  slots := hslots
  threads := Pool.forall_move
    (P := fun u th => ThreadInv V (may u) log' k' cl' mem' th) hself
    fun u hu => by
      have hinv := h.threads u
      revert hinv
      cases s.threads u with
      | idle | done => exact id
      | run op pc =>
          rintro ⟨hmay, hitem, hpc⟩
          obtain ⟨hcl, hthrough, hnewest⟩ := hother u hu _ hmay
          exact ⟨hmay, hitem, hpc.congr hcl hthrough hnewest⟩
  settled := hsettled
  seen := hseen
  fresh := hfresh

/-- Who holds a ticket after a step that gives none away and takes none. -/
theorem holds_move (hholds : th'.holds = (s.threads t).holds) (e : End)
    (hnone : ∀ u, ((s.move t mem' th').threads u).holds ≠ some e) (u : ι) :
    (s.threads u).holds ≠ some e := by
  have hu := hnone u
  by_cases heq : u = t
  · subst heq
    rwa [Pool.move_threads_self, hholds] at hu
  · rwa [Pool.move_threads_of_ne _ _ _ heq] at hu

/-- A step that changes at most the view of its thread. -/
theorem Inv.look (h : Inv V may log k cl s) {a : Loc}
    (hload : s.shared.load t o a j = some (v, mem'))
    (hholds : th'.holds = (s.threads t).holds)
    (hself : ThreadInv V (may t) log k cl mem' th') :
    Inv V may log k cl (s.move t mem' th') := by
  obtain ⟨hmsgs, -, -⟩ := ViewMemory.of_load hload
  have hle := ViewMemory.le_of_load hload
  refine h.assemble (h.wf.load hload) (fun e => ?_)
    (h.slots.congr fun c => ViewMemory.newest_of_load hload) hself
    (fun u _ e _ => ⟨rfl, rfl, fun value hvalue _ => ?_⟩)
    (fun e hnone => h.settled e (holds_move hholds e hnone))
    (fun u e hmay => (h.seen u e hmay).trans ((hle u).1 _))
    fun hspsc u e hmay c i msg hseen hmsg hadmits => ?_
  · rw [hmsgs]
    exact h.counters e
  · rwa [ViewMemory.newest_of_load hload]
  · rw [hmsgs] at hmsg ⊢
    exact h.fresh hspsc u e hmay c i msg (((hle u).1 _).trans hseen) hmsg hadmits

/-- A step that changes nothing but where its thread stands. -/
theorem Inv.stay (h : Inv V may log k cl s)
    (hholds : th'.holds = (s.threads t).holds)
    (hself : ThreadInv V (may t) log k cl s.shared th') :
    Inv V may log k cl (s.move t s.shared th') :=
  h.assemble h.wf h.counters h.slots hself
    (fun _ _ _ _ => ⟨rfl, rfl, fun _ hvalue _ => hvalue⟩)
    (fun e hnone => h.settled e (holds_move hholds e hnone)) h.seen h.fresh

/-- A ticket is taken. -/
theorem Inv.claim (hone : Single may) (h : Inv V may log k cl s)
    (hmay : may t (endOf op)) (hitem : op.item? ≠ some V.NIL)
    (hholds : (s.threads t).holds = none)
    (hwrote : s.shared.Wrote mem' t (endOf op).own
      (V.width.ofNat (cl (endOf op) + 1))) {own : ℕ}
    (hown : own = V.width.ofNat (cl (endOf op))) :
    Inv V may log k (fun e => cl e + if e = endOf op then 1 else 0)
      (s.move t mem' (.run op (.slot own))) := by
  have hcl : cl (endOf op) = through log k (endOf op) := by
    refine h.settled _ fun u hu => ?_
    obtain rfl := hone _ _ _ (h.may_of_holds hu) hmay
    rw [hholds] at hu
    cases hu
  have hnewest : ∀ c, mem'.newest (.element c) = s.shared.newest (.element c) :=
    fun c => hwrote.newest_of_ne (own_ne _ c)
  refine h.assemble (hwrote.wf h.wf) (fun e => ?_) (h.slots.congr hnewest)
    ⟨hmay, hitem, hown.trans (by rw [hcl]), ?_⟩
    (fun u hu e he => ⟨?_, rfl, fun value hvalue _ => ?_⟩)
    (fun e hnone => ?_) (fun u e he => ?_)
    fun hspsc u e he c i msg hseen hmsg hadmits => ?_
  · by_cases heq : e = endOf op
    · subst heq
      rw [hwrote.vals, h.counters, if_pos rfl,
        List.range_succ (n := cl (endOf op) + 1), List.map_append]
      rfl
    · rw [hwrote.msgs_of_ne _ fun hloc => heq (by
        cases e <;> cases hend : endOf op <;> simp_all [End.own]), if_neg heq]
      exact h.counters e
  · simp [hcl]
  · have heq : e ≠ endOf op := by
      rintro rfl
      exact hu (hone _ _ _ he hmay)
    rw [if_neg heq, Nat.add_zero]
  · rwa [hnewest]
  · have heq : e ≠ endOf op := by
      rintro rfl
      refine hnone t ?_
      rw [Pool.move_threads_self]
      rfl
    rw [if_neg heq, Nat.add_zero]
    refine h.settled e fun u hu => ?_
    by_cases hut : u = t
    · subst hut
      rw [hholds] at hu
      cases hu
    · refine hnone u ?_
      rwa [Pool.move_threads_of_ne _ _ _ hut]
  · by_cases heq : e = endOf op
    · subst heq
      obtain rfl := hone _ _ _ he hmay
      have hlen := h.counter_length (endOf op)
      rw [if_pos rfl]
      exact hlen ▸ hwrote.seen
    · rw [if_neg heq, Nat.add_zero]
      exact (h.seen u e he).trans ((hwrote.view_le u).1 _)
  · rw [hwrote.msgs_of_ne _ (own_ne _ c)] at hmsg ⊢
    exact h.fresh hspsc u e he c i msg (((hwrote.view_le u).1 _).trans hseen)
      hmsg hadmits

/-- A slot is passed on to the other end. -/
theorem Inv.pass (hone : Single may) (h : Inv V may log k cl s)
    (hmay : may t e) (hholds : (s.threads t).holds = some e)
    (hcl : cl e = through log k e + 1)
    (hwrote : s.shared.Wrote mem' t
      (.element (V.slotOf (through log k e))) v) {value : ℕ}
    (hold : s.shared.newest (.element (V.slotOf (through log k e))) =
      some value) (hadmits : V.Admits value e) (hv : ¬V.Admits v e)
    (hslots : Slots V mem' log' k')
    (hthrough : ∀ e', through log' k' e' =
      through log k e' + if e' = e then 1 else 0)
    (hself : ∀ log k cl, ThreadInv V (may t) log k cl mem' th') :
    Inv V may log' k' cl (s.move t mem' th') := by
  refine h.assemble (hwrote.wf h.wf) (fun e' => ?_) hslots (hself _ _ _)
    (fun u hu e' he' => ?_) (fun e' hnone' => ?_)
    (fun u e' he' => (h.seen u e' he').trans ((hwrote.view_le u).1 _))
    fun hspsc u e' he' c i msg hseen hmsg hadmits' => ?_
  · rw [hwrote.msgs_of_ne _ (own_ne e' _).symm]
    exact h.counters e'
  · have hne : e' ≠ e := by
      rintro rfl
      exact hu (hone _ _ _ he' hmay)
    refine ⟨rfl, by rw [hthrough, if_neg hne, Nat.add_zero],
      fun value' hvalue' hadmits' => ?_⟩
    rw [hwrote.newest_of_ne, hvalue']
    intro hslot
    rw [hslot, hold] at hvalue'
    obtain rfl := Option.some.inj hvalue'
    exact hne (hadmits'.unique hadmits)
  · rw [hthrough]
    by_cases heq : e' = e
    · subst heq
      rw [if_pos rfl, hcl]
    · rw [if_neg heq, Nat.add_zero]
      refine h.settled e' fun u hu => ?_
      by_cases hut : u = t
      · subst hut
        rw [hholds] at hu
        exact heq (Option.some.inj hu).symm
      · refine hnone' u ?_
        rwa [Pool.move_threads_of_ne _ _ _ hut]
  · by_cases hc : Loc.element c = .element (V.slotOf (through log k e))
    · rw [hc] at hseen hmsg ⊢
      obtain ⟨new, rfl, hmsgs⟩ := hwrote.msgs
      rw [hmsgs] at hmsg ⊢
      rw [List.length_append, List.length_singleton]
      by_cases heq : e' = e
      · -- whoever passed the slot on knows of it
        subst heq
        obtain rfl := hone _ _ _ he' hmay
        have hlt := (List.getElem?_eq_some_iff.mp hmsg).1
        rw [List.length_append, List.length_singleton] at hlt
        have := hwrote.seen
        omega
      · -- no old message lets in the other end
        rcases Nat.lt_or_ge i
          (s.shared.msgs (.element (V.slotOf (through log k e)))).length
          with hlt | hge
        · rw [List.getElem?_append_left hlt] at hmsg
          have hlast := h.fresh hspsc u e' he' _ i msg
            (((hwrote.view_le u).1 _).trans hseen) hmsg hadmits'
          have hnewest := ViewMemory.newest_eq_some_iff.mpr ⟨msg, by
            rw [List.getLast?_eq_getElem?, ← hlast, Nat.add_sub_cancel, hmsg],
            rfl⟩
          rw [hold] at hnewest
          obtain rfl := Option.some.inj hnewest
          exact absurd (hadmits'.unique hadmits) heq
        · have hlt := (List.getElem?_eq_some_iff.mp hmsg).1
          rw [List.length_append, List.length_singleton] at hlt
          omega
    · rw [hwrote.msgs_of_ne _ hc] at hmsg ⊢
      exact h.fresh hspsc u e' he' c i msg
        (((hwrote.view_le u).1 _).trans hseen) hmsg hadmits'

/-- An `exchange` that finds `NIL` in a slot leaves it there. -/
theorem Inv.swap (h : Inv V may log k cl s) (hspsc : V.spsc = false) {c : ℕ}
    (hwrote : s.shared.Wrote mem' t (.element c) V.NIL)
    (hold : s.shared.newest (.element c) = some V.NIL)
    (hholds : th'.holds = (s.threads t).holds)
    (hself : ThreadInv V (may t) log k cl mem' th') :
    Inv V may log k cl (s.move t mem' th') := by
  have hsame : ∀ c', mem'.newest (.element c') =
      s.shared.newest (.element c') := by
    intro c'
    by_cases hc : c' = c
    · subst hc
      rw [hwrote.newest_self, hold]
    · exact hwrote.newest_of_ne (element_ne hc)
  refine h.assemble (hwrote.wf h.wf) (fun e => ?_) (h.slots.congr hsame) hself
    (fun u _ e _ => ⟨rfl, rfl, fun value hvalue _ => by rwa [hsame]⟩)
    (fun e hnone => h.settled e (holds_move hholds e hnone))
    (fun u e hmay => (h.seen u e hmay).trans ((hwrote.view_le u).1 _))
    fun htrue => ?_
  · rw [hwrote.msgs_of_ne _ (own_ne e c).symm]
    exact h.counters e
  · rw [hspsc] at htrue
    cases htrue

/-- A push puts its element into the slot of its ticket. -/
theorem Inv.put (hone : Single may) (h : Inv V may log k cl s)
    (hth : s.threads t = .run op pc) {x own : ℕ}
    (hpc : pc = .slot own ∨ ∃ y, pc = .put own y) (hop : op.item? = some x)
    (hwrote : s.shared.Wrote mem' t (V.place own) x)
    (hold : s.shared.newest (V.place own) = some V.NIL) :
    Inv V may (log ++ [x]) k cl (s.move t mem' (.done (.pushed true))) ∧
      (log.drop k).length < V.layout.size := by
  obtain ⟨hmay, hitem, hinv⟩ := h.run hth
  have hend := endOf_of_item hop
  have hx : x ≠ V.NIL := fun heq => hitem (heq ▸ hop)
  have hheld : own = V.width.ofNat log.length ∧ cl .push = log.length + 1 ∧
      (s.threads t).holds = some .push := by
    rw [hend] at hinv
    rw [hth]
    rcases hpc with rfl | ⟨y, rfl⟩
    · exact ⟨hinv.1, hinv.2, congrArg some hend⟩
    · exact ⟨hinv.1, hinv.2.1, congrArg some hend⟩
  obtain ⟨rfl, hcl, hholds⟩ := hheld
  refine ⟨h.pass hone (hend ▸ hmay) hholds hcl hwrote hold rfl hx
    (h.slots.put hold hwrote.newest_self hx
      fun c hc => hwrote.newest_of_ne (element_ne hc))
    (fun e' => ?_) (fun _ _ _ => trivial), h.slots.room hold⟩
  cases e' <;> simp [through]

/-- A pop takes the element of its ticket out of its slot. -/
theorem Inv.take (hone : Single may) (h : Inv V may log k cl s)
    (hth : s.threads t = .run op pc) {x own : ℕ}
    (hpc : pc = .slot own ∨ ∃ y, pc = .put own y) (hop : op.item? = none)
    (hwrote : s.shared.Wrote mem' t (V.place own) V.NIL)
    (hold : s.shared.newest (V.place own) = some x) (hx : x ≠ V.NIL) :
    Inv V may log (k + 1) cl (s.move t mem' (.done (.popped (some x)))) ∧
      log[k]? = some x := by
  obtain ⟨hmay, -, hinv⟩ := h.run hth
  have hend := endOf_of_no_item hop
  have hheld : own = V.width.ofNat k ∧ cl .pop = k + 1 ∧
      (s.threads t).holds = some .pop := by
    rw [hend] at hinv
    rw [hth]
    rcases hpc with rfl | ⟨y, rfl⟩
    · exact ⟨hinv.1, hinv.2, congrArg some hend⟩
    · exact ⟨hinv.1, hinv.2.1, congrArg some hend⟩
  obtain ⟨rfl, hcl, hholds⟩ := hheld
  have hitem := h.slots.item_eq hold hx
  refine ⟨h.pass hone (hend ▸ hmay) hholds hcl hwrote hold hx (not_not.mpr rfl)
    (h.slots.take (List.getElem?_eq_some_iff.mp hitem).1 hwrote.newest_self
      fun c hc => hwrote.newest_of_ne (element_ne hc))
    (fun e' => ?_) (fun _ _ _ => trivial), hitem⟩
  cases e' <;> simp [through]

end Loads

end Threads

/-! ## Runs -/

/-- The element a step puts into a slot. -/
def Event.put? : Event → Option ℕ
  | .put x => some x
  | _ => none

/-- Whether a step takes an element out of a slot. -/
def Event.takes : Event → Bool
  | .take _ => true
  | _ => false

/-- The end whose ticket a step deals out. -/
def Event.claim? : Event → Option End
  | .claim e => some e
  | _ => none

/-- The elements put into slots along a trace. -/
def puts (tr : List (ι × Event)) : List ℕ :=
  tr.filterMap fun a => a.2.put?

/-- How many elements have been taken out of slots along a trace. -/
def takes (tr : List (ι × Event)) : ℕ :=
  tr.countP fun a => a.2.takes

/-- How many tickets an end has dealt out along a trace. -/
def claims (tr : List (ι × Event)) (e : End) : ℕ :=
  tr.countP fun a => a.2.claim? = some e

theorem puts_snoc (tr : List (ι × Event)) (a : ι × Event) :
    puts (tr ++ [a]) = puts tr ++ a.2.put?.toList := by
  rw [puts, List.filterMap_append]
  cases h : a.2.put? <;> simp [puts, h]

theorem takes_snoc (tr : List (ι × Event)) (a : ι × Event) :
    takes (tr ++ [a]) = takes tr + if a.2.takes then 1 else 0 := by
  rw [takes, List.countP_append, List.countP_singleton, takes]

theorem claims_snoc (tr : List (ι × Event)) (a : ι × Event) (e : End) :
    claims (tr ++ [a]) e = claims tr e + if a.2.claim? = some e then 1 else 0 := by
  simp [claims, List.countP_append, List.countP_singleton]

section Runs

variable [DecidableEq ι] {may : ι → End → Bool} {s : State ι} {t : ι}
  {mem' : Memory ι} {e : Event} {th' : Thread}

/-- What holds after a step that shows `e`. -/
structure Next (V : Variant) (may : ι → End → Bool) (log : List ℕ) (k : ℕ)
    (cl : End → ℕ) (e : Event) (s' : State ι) : Prop where
  inv : Inv V may (log ++ e.put?.toList) (k + if e.takes then 1 else 0)
    (fun f => cl f + if e.claim? = some f then 1 else 0) s'
  room : ∀ x, e = .put x → (log.drop k).length < V.layout.size
  item : ∀ x, e = .take x → log[k]? = some x

omit [DecidableEq ι] in
theorem next_of_silent {s' : State ι} (hput : e.put? = none)
    (htakes : e.takes = false) (hclaim : e.claim? = none)
    (h : Inv V may log k cl s') : Next V may log k cl e s' where
  inv := by
    simp only [hput, htakes, hclaim, Option.toList_none, List.append_nil,
      reduceCtorEq, Bool.false_eq_true, if_false, Nat.add_zero]
    exact h
  room := by rintro x rfl; cases hput
  item := by rintro x rfl; cases htakes

omit [DecidableEq ι] in
theorem next_of_claim {s' : State ι} {f : End}
    (h : Inv V may log k (fun e => cl e + if e = f then 1 else 0) s') :
    Next V may log k cl (.claim f) s' where
  inv := by
    simp only [Event.put?, Event.takes, Event.claim?, Option.some.injEq,
      Option.toList_none, List.append_nil, eq_comm (a := f)]
    exact h
  room := nofun
  item := nofun

omit [DecidableEq ι] in
theorem next_of_put {s' : State ι} {x : ℕ}
    (h : Inv V may (log ++ [x]) k cl s' ∧
      (log.drop k).length < V.layout.size) :
    Next V may log k cl (.put x) s' where
  inv := by simpa [Event.put?, Event.takes, Event.claim?] using h.1
  room _ _ := h.2
  item := nofun

omit [DecidableEq ι] in
theorem next_of_take {s' : State ι} {x : ℕ}
    (h : Inv V may log (k + 1) cl s' ∧ log[k]? = some x) :
    Next V may log k cl (.take x) s' where
  inv := by simpa [Event.put?, Event.takes, Event.claim?] using h.1
  room := nofun
  item := by rintro _ ⟨⟩; exact h.2

/-- One more than a counter, in its width. -/
theorem add_ofNat (S : SizeT) (a : ℕ) :
    S.add (S.ofNat a) 1 = S.ofNat (a + 1) := by
  cases S with
  | unbounded => rfl
  | bits w => exact SizeT.add_bits_mod w a 1

/-- The invariant after a look at the slot. -/
theorem Inv.looked (h : Inv V may log k cl s) {op : Op ℕ} {own value j : ℕ}
    {o : MemoryOrder} {element : ℕ}
    (hth : s.threads t = .run op (.slot own))
    (hload : s.shared.load t o (V.place own) j = some (value, mem'))
    (helement : endOf op = .pop → element = value) :
    Inv V may log k cl (s.move t mem'
      (.run op (V.looked (endOf op) own element value))) := by
  obtain ⟨hmay, hitem, hown, hcl⟩ := h.run hth
  rw [Variant.looked]
  split_ifs with hspsc hadmits
  · refine h.look hload (congrArg Thread.holds hth).symm ⟨hmay, hitem, hown, hcl, value, ?_,
      hadmits, helement⟩
    have hnewest := h.fresh_load hspsc hmay hload hadmits
    rw [hown] at hnewest hload
    rwa [ViewMemory.newest_of_load hload]
  · exact h.look hload (congrArg Thread.holds hth).symm ⟨hmay, hitem, hown, hcl⟩
  · exact h.look hload (congrArg Thread.holds hth).symm ⟨hmay, hitem, hown, hcl⟩

/-- What a step adds to the ghost values. -/
theorem Inv.move (hone : Single may) (h : Inv V may log k cl s)
    (hmove : Move V t (may t) s.shared (s.threads t) e mem' th') :
    Next V may log k cl e (s.move t mem' th') := by
  generalize hth : s.threads t = th at hmove
  cases hmove with
  | @call op hmay hop =>
      refine next_of_silent rfl rfl rfl (h.stay (by
        rw [hth, Variant.enter]
        split_ifs <;> rfl) ⟨hmay, hop, ?_⟩)
      rw [Variant.enter]
      split_ifs <;> trivial
  | @load op j own _ hload =>
      obtain ⟨hmay, hitem, -⟩ := h.run hth
      have hown := h.own_load hmay hload
      rw [Variant.loaded]
      split_ifs
      · exact next_of_silent rfl rfl rfl
          (h.look hload (congrArg Thread.holds hth).symm ⟨hmay, hitem, hown⟩)
      · exact next_of_silent rfl rfl rfl
          (h.look hload (congrArg Thread.holds hth).symm ⟨hmay, hitem, hown⟩)
  | @check op j own other _ hload =>
      obtain ⟨hmay, hitem, hown⟩ := h.run hth
      rw [Variant.checked]
      split_ifs
      · exact next_of_silent rfl rfl rfl
          (h.look hload (congrArg Thread.holds hth).symm ⟨hmay, hitem, trivial⟩)
      · exact next_of_silent rfl rfl rfl
          (h.look hload (congrArg Thread.holds hth).symm trivial)
      · exact next_of_silent rfl rfl rfl
          (h.look hload (congrArg Thread.holds hth).symm ⟨hmay, hitem, hown⟩)
  | @advance op own hspsc =>
      obtain ⟨hmay, hitem, rfl⟩ := h.run hth
      refine next_of_claim (h.claim hone hmay hitem (by rw [hth]; rfl) ?_ rfl)
      rw [← add_ofNat]
      exact ViewMemory.wrote_store
  | @claim op own _ hspsc hcas =>
      obtain ⟨hmay, hitem, rfl⟩ := h.run hth
      refine next_of_claim (h.claim hone hmay hitem (by rw [hth]; rfl) ?_ rfl)
      rw [← add_ofNat]
      exact ViewMemory.wrote_of_compareExchange hcas
  | @retry op j own own' _ hspsc hload =>
      obtain ⟨hmay, hitem, -⟩ := h.run hth
      exact next_of_silent rfl rfl rfl (h.look hload (congrArg Thread.holds hth).symm
        ⟨hmay, hitem, h.own_load hmay hload⟩)
  | @fetch op own _ hmod =>
      obtain ⟨hmay, hitem, -⟩ := h.run hth
      have hwrote := ViewMemory.wrote_of_modify hmod
      have hnewest := (ViewMemory.newest_of_modify hmod).1
      rw [h.newest_counter] at hnewest
      obtain rfl := Option.some.inj hnewest
      rw [add_ofNat] at hwrote
      exact next_of_claim
        (h.claim hone hmay hitem (by rw [hth]; rfl) hwrote rfl)
  | @lookPush op element j own value _ hop hload =>
      have hend := endOf_of_item hop
      rw [← hend]
      exact next_of_silent rfl rfl rfl
        (h.looked hth hload fun hpop => by rw [hend] at hpop; cases hpop)
  | @exchangePush op element own _ hop hspsc hcas =>
      exact next_of_put (h.put hone hth (Or.inl rfl) hop
        (ViewMemory.wrote_of_compareExchange hcas)
        (ViewMemory.newest_of_compareExchange hcas).1)
  | @storePush op element element' own hop hspsc =>
      obtain ⟨-, -, hinv⟩ := h.run hth
      rw [endOf_of_item hop] at hinv
      obtain ⟨rfl, -, value, hold, rfl, -⟩ := hinv
      exact next_of_put (h.put hone hth (Or.inr ⟨_, rfl⟩) hop
        ViewMemory.wrote_store hold)
  | @lookPop op j own value _ hop hspsc hload =>
      rw [← endOf_of_no_item hop]
      exact next_of_silent rfl rfl rfl (h.looked hth hload fun _ => rfl)
  | @exchangePop op own value _ hop hspsc hmod =>
      have hold := (ViewMemory.newest_of_modify hmod).1
      have hwrote := ViewMemory.wrote_of_modify hmod
      rw [Variant.exchanged]
      split_ifs with hvalue
      · exact next_of_take
          (h.take hone hth (Or.inl rfl) hop hwrote hold hvalue)
      · obtain rfl : value = V.NIL := not_not.mp hvalue
        have hrun := h.run hth
        exact next_of_silent rfl rfl rfl
          (h.swap hspsc hwrote hold (congrArg Thread.holds hth).symm hrun)
  | @storePop op element own hop hspsc =>
      obtain ⟨-, -, hinv⟩ := h.run hth
      rw [endOf_of_no_item hop] at hinv
      obtain ⟨rfl, -, value, hold, hvalue, helement⟩ := hinv
      obtain rfl := helement rfl
      exact next_of_take (h.take hone hth (Or.inr ⟨_, rfl⟩) hop
        ViewMemory.wrote_store hold hvalue)
  | @pause op j own value _ hmax hload =>
      have hrun := h.run hth
      rw [Variant.paused]
      split_ifs
      · exact next_of_silent rfl rfl rfl
          (h.look hload (congrArg Thread.holds hth).symm hrun)
      · exact next_of_silent rfl rfl rfl
          (h.look hload (congrArg Thread.holds hth).symm hrun)
  | again hmax =>
      have hrun := h.run hth
      exact next_of_silent rfl rfl rfl
        (h.stay (congrArg Thread.holds hth).symm hrun)
  | ret =>
      exact next_of_silent rfl rfl rfl (h.stay (by rw [hth]; rfl) trivial)

omit [DecidableEq ι] in
theorem inv_init : Inv V may [] 0 (fun _ => 0)
    (⟨Memory.new V.NIL, fun _ => .idle⟩ : State ι) where
  wf := ViewMemory.wellFormed_init
  counters e := by
    cases e <;> cases hS : V.width <;> simp [Memory.new, ViewMemory.init,
      End.own, SizeT.ofNat]
  slots := Slots.init
  threads _ := trivial
  settled e _ := by cases e <;> rfl
  seen _ _ _ := Nat.zero_le _
  fresh _ t e _ c j msg _ hmsg _ := by
    have hlt := (List.getElem?_eq_some_iff.mp hmsg).1
    simp [Memory.new, ViewMemory.init] at hlt ⊢
    exact hlt

theorem inv_of_run (hone : Single may) {tr : List (ι × Event)}
    (hrun : (system V may).Run tr s) :
    Inv V may (puts tr) (takes tr) (claims tr) s := by
  refine Lts.Run.induction
    (P := fun tr s => Inv V may (puts tr) (takes tr) (claims tr) s)
    inv_init ?_ hrun
  rintro tr s a s' - hI ⟨c, mem, th, hmove, rfl⟩
  have hnext := (hI.move hone (moves_iff.mp ⟨c, hmove⟩)).inv
  rw [puts_snoc, takes_snoc]
  convert hnext using 1
  funext f
  exact claims_snoc tr a f

/-! ## FIFO -/

theorem hesitates_put {q : List ℕ} {n x : ℕ} {op : Op ℕ}
    (hop : op.item? = some x) (hlt : q.length < n) :
    Hesitates n True True q op (.pushed true) (q ++ [x]) := by
  have hcap : (q.length : ℕ∞) < n := by exact_mod_cast hlt
  cases op with
  | push y => cases hop; exact .apply (.push hcap)
  | tryPush y => cases hop; exact .apply (.tryPush hcap)
  | pop | tryPop => cases hop

theorem hesitates_take {q : List ℕ} {n x : ℕ} {op : Op ℕ}
    (hop : op.item? = none) :
    Hesitates n True True (x :: q) op (.popped (some x)) q := by
  cases op with
  | push y | tryPush y => cases hop
  | pop => exact .apply .pop
  | tryPop => exact .apply .tryPop

theorem hesitates_refused {q : List ℕ} {n : ℕ} {op : Op ℕ}
    (hop : op.blocks = false) :
    Hesitates n True True q op (refused op) q := by
  cases op with
  | push | pop => cases hop
  | tryPush x => exact .refuse trivial
  | tryPop => exact .miss trivial

theorem simulates_fifo (V : Variant) (hone : Single may) :
    (hesitant ℕ V.layout.size True True).Implements (system V may) shows
      fun tr s o => o = abstraction ((puts tr).drop (takes tr)) s := by
  refine SeqObject.implements_of_simulation rfl ?_
  rintro tr s ⟨t, e⟩ s' o hrun rfl ⟨c, mem', th', hmove, rfl⟩
  have hmoves := moves_iff.mp ⟨c, hmove⟩
  have hinv := inv_of_run hone hrun
  have hnext := hinv.move hone hmoves
  refine ⟨_, matches_move hmoves (fun x op he hop => ?_)
    (fun x op he hop => ?_) (fun op hop => hesitates_refused hop)
    (fun hne => ?_), rfl⟩
  · obtain rfl := he
    have hdrop : (puts (tr ++ [(t, Event.put x)])).drop
        (takes (tr ++ [(t, Event.put x)])) =
          (puts tr).drop (takes tr) ++ [x] := by
      rw [puts_snoc, takes_snoc]
      exact List.drop_append_of_le_length hinv.slots.le
    rw [hdrop]
    exact hesitates_put hop (hnext.room x rfl)
  · obtain rfl := he
    obtain ⟨hlt, hget⟩ := List.getElem?_eq_some_iff.mp (hnext.item x rfl)
    have hdrop : (puts (tr ++ [(t, Event.take x)])).drop
        (takes (tr ++ [(t, Event.take x)])) =
          (puts tr).drop (takes tr + 1) := by
      rw [puts_snoc, takes_snoc]
      exact congrArg (List.drop (takes tr + 1)) (List.append_nil _)
    rw [hdrop, List.drop_eq_getElem_cons hlt, hget]
    exact hesitates_take hop
  · rw [puts_snoc, takes_snoc]
    have hput : e.put? = none := by
      cases e with
      | put x => exact absurd rfl (hne x).1
      | _ => rfl
    have htakes : e.takes = false := by
      cases e with
      | take x => exact absurd rfl (hne x).2
      | _ => rfl
    simp [hput, htakes]

/-- With one thread at each end the queue is a FIFO queue, in every mode and for
every layout, and holds at most as many elements as it has slots.  Its try calls
may fail at any time. -/
theorem fifo_of_single (V : Variant) (hone : Single may) :
    (hesitant ℕ V.layout.size True True).Implements (system V may) shows
      fun tr _ o => o.shared = (puts tr).drop (takes tr) := by
  intro tr s hrun
  obtain ⟨tr', o, hrun', hseen, rfl⟩ := simulates_fifo V hone tr s hrun
  exact ⟨tr', _, hrun', hseen, rfl⟩

theorem fifo_of_single_spsc :
    (hesitant ℕ
        (AtomicQueueSPSCAdapter 1000 8 (by decide)).layout.size True
        True).Implements
      (system (AtomicQueueSPSCAdapter 1000 8 (by decide))
        fun (t : Bool) e => e = if t then .pop else .push) shows
      fun tr _ o => o.shared = (puts tr).drop (takes tr) :=
  fifo_of_single _ fun t t' e => by
    cases t <;> cases t' <;> cases e <;> decide

end Runs

end AtomicQueue
end ConcurrentQueues
