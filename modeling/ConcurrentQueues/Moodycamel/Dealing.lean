import ConcurrentQueues.Moodycamel.Producer
import ConcurrentQueues.Support.Overcommit

/-!
# No index is claimed before its element is there

The increments of `dequeueOptimisticCount` deal out tickets, those of
`dequeueOvercommit` take tickets back, and `headIndex` counts the elements that
were claimed.  A dequeue that passes its second test is within the elements that
it or a dequeue before it has seen published, and since the dequeues pass on what
they have seen from one increment of `headIndex` to the next, it knows of the
construction of every element it claims.

The row of elements constructed so far and the number of published ones are
carried along.  The words of the counters do not wrap within half their range.
-/

namespace ConcurrentQueues

universe u v

namespace Moodycamel

open Bulk

variable {ι : Type v} {T : Type u}

/-- The orders without which accesses to elements race. -/
structure Orders.Synchronizes (V : Orders) : Prop where
  publishes : V.tailStore.releases
  observes : V.tailLoad.acquires
  joins : V.headFetch.acquires
  passes : V.headFetch.releases

/-! ## What is known of the elements -/

/-- The view knows of all accesses to the elements before `n` that are there. -/
def Told (mem : Memory ι T) (v : View Loc ι) (n : ℕ) : Prop :=
  ∀ i < n, (mem.cells i).data.isSome → mem.Covered i v

/-- Nothing was ever done to the place. -/
def Untouched (mem : Memory ι T) (i : ℕ) : Prop :=
  mem.cells i = ⟨none, none, fun _ => 0⟩

theorem Told.mono {mem : Memory ι T} {v v' : View Loc ι} {n n' : ℕ}
    (h : Told mem v n) (hn : n' ≤ n) (hv : v ≤ v') : Told mem v' n' :=
  fun i hi hdata => (h i (hi.trans_le hn) hdata).mono hv

theorem Told.max {mem : Memory ι T} {v : View Loc ι} {n n' : ℕ}
    (h : Told mem v n) (h' : Told mem v n') : Told mem v (max n n') := by
  intro i hi hdata
  rcases lt_max_iff.mp hi with hi | hi
  · exact h i hi hdata
  · exact h' i hi hdata

theorem Told.congr {mem mem' : Memory ι T} {v : View Loc ι} {n : ℕ}
    (h : Told mem v n) (hcells : ∀ i < n, (mem'.cells i).data.isSome →
      mem'.cells i = mem.cells i) : Told mem' v n := by
  intro i hi hdata
  have hsame := hcells i hi hdata
  rw [hsame] at hdata
  have := h i hi hdata
  rwa [ViewMemory.Covered, hsame]

theorem Untouched.covered {mem : Memory ι T} {i : ℕ} (h : Untouched mem i)
    (v : View Loc ι) : mem.Covered i v := by
  rw [ViewMemory.Covered, h]
  exact ⟨trivial, fun _ => Nat.zero_le _⟩

/-! ## The invariant -/

/-- The tickets of a dequeue that has not accounted for them. -/
def ticketOf : Thread T → Option Ticket
  | .dequeue _ (.reload overcommit desired myDequeueCount) =>
      some ⟨myDequeueCount, overcommit, desired⟩
  | .dequeue _ (.refund overcommit desired myDequeueCount _ _) =>
      some ⟨myDequeueCount, overcommit, desired⟩
  | .dequeue _ (.take overcommit myDequeueCount _ actual) =>
      some ⟨myDequeueCount, overcommit, actual⟩
  | _ => none

/-- The elements that a thread has claimed and not yet moved out. -/
def Holds (i : ℕ) : Thread T → Prop
  | .dequeue _ (.read firstIndex actual got) =>
      firstIndex + got.length ≤ i ∧ i < firstIndex + actual
  | _ => False

/-- The counters and the places of the elements. -/
structure MemInv (producer : ι) (row : List T) (pub : ℕ) (d : Desk ι)
    (mem : Memory ι T) : Prop where
  wf : mem.WellFormed
  tail : mem.newest .tailIndex = some pub
  head : mem.newest .headIndex = some d.served
  optimistic : mem.newest .dequeueOptimisticCount = some d.drawn
  overcommit : mem.newest .dequeueOvercommit = some d.refunded
  tail_told : ∀ msg ∈ mem.msgs .tailIndex,
    msg.val ≤ pub ∧ Told mem msg.view msg.val
  head_told : ∀ msg, (mem.msgs .headIndex).getLast? = some msg →
    Told mem msg.view d.known
  overcommit_le : ∀ msg ∈ mem.msgs .dequeueOvercommit, msg.val ≤ d.refunded
  last : (mem.msgs .tailIndex).length ≤ (mem.view producer).seen .tailIndex + 1
  known_le : d.known ≤ pub
  pub_le : pub ≤ row.length
  here : ∀ i, d.served ≤ i → i < row.length → (mem.cells i).data = row[i]?
  own : ∀ i, (mem.cells i).data.isSome → mem.Covered i (mem.view producer)
  fresh : ∀ i, row.length ≤ i → Untouched mem i

/-- The elements of the producer that are constructed but not published. -/
def Producing (row : List T) (pub : ℕ) : Thread T → Prop
  | .enqueue _ (.allocate startTailIndex) =>
      startTailIndex = pub ∧ row.length = pub
  | .enqueue items (.construct currentTailIndex rest) =>
      items = row.drop pub ++ rest ∧ currentTailIndex = row.length
  | _ => row.length = pub

/-- What a thread in a dequeue has established. -/
def DequeueInv (row : List T) (pub : ℕ) (d : Desk ι) (mem : Memory ι T) (t : ι)
    (max : ℕ) : Dequeue T → Prop
  | .load | .overcommit _ _ => True
  | .optimistic _ overcommit _ => overcommit ≤ d.refunded
  | .fence overcommit desired _ | .draw overcommit desired =>
      overcommit ≤ d.refunded ∧ 0 < desired ∧ desired ≤ max
  | .reload overcommit desired myDequeueCount =>
      overcommit ≤ myDequeueCount ∧ 0 < desired ∧ desired ≤ max
  | .refund overcommit desired myDequeueCount tail actual =>
      actual < desired ∧ desired ≤ max ∧
        (actual = 0 ∨ myDequeueCount + actual ≤ overcommit + tail) ∧
        tail ≤ pub ∧ Told mem (mem.view t) tail
  | .take overcommit myDequeueCount tail actual =>
      actual ≤ max ∧ myDequeueCount + actual ≤ overcommit + tail ∧
        tail ≤ pub ∧ Told mem (mem.view t) tail
  | .read firstIndex actual got =>
      actual ≤ max ∧ got.length ≤ actual ∧ firstIndex + actual ≤ d.served ∧
        Told mem (mem.view t) (firstIndex + actual) ∧
        got = ((row.drop firstIndex).take got.length).map some ∧
        ∀ i, firstIndex + got.length ≤ i → i < firstIndex + actual →
          (mem.cells i).data = row[i]?

/-- What a thread has established. -/
def ThreadInv (producer : ι) (row : List T) (pub : ℕ) (d : Desk ι)
    (mem : Memory ι T) (t : ι) : Thread T → Prop
  | .enqueue _ _ => t = producer
  | .dequeue max pc => 0 < max ∧ DequeueInv row pub d mem t max pc
  | _ => True

/-- The counters, the places and the threads agree. -/
structure Inv [Fintype ι] (producer : ι) (row : List T) (pub : ℕ) (d : Desk ι)
    (s : State ι T) : Prop where
  mem : MemInv producer row pub d s.shared
  sound : d.Sound
  tickets : ∀ t, d.ticket t = ticketOf (s.threads t)
  producing : Producing row pub (s.threads producer)
  threads : ∀ t, ThreadInv producer row pub d s.shared t (s.threads t)
  apart : ∀ t u i, Holds i (s.threads t) → Holds i (s.threads u) → t = u

/-! ## What the other threads keep -/

/-- What a step may do to the counters and the places. -/
structure Keeps (row row' : List T) (pub pub' : ℕ) (d d' : Desk ι)
    (mem mem' : Memory ι T) : Prop where
  row_prefix : row <+: row'
  pub_le : pub ≤ pub'
  refunded_le : d.refunded ≤ d'.refunded
  served_le : d.served ≤ d'.served
  view_le : ∀ u, mem.view u ≤ mem'.view u
  cells : ∀ i < pub, (mem'.cells i).data.isSome → mem'.cells i = mem.cells i

section Keeps

variable {producer t : ι} {row row' : List T} {pub pub' : ℕ} {d d' : Desk ι}
  {mem mem' : Memory ι T} {th : Thread T}

theorem Keeps.told (h : Keeps row row' pub pub' d d' mem mem')
    {v v' : View Loc ι} {n : ℕ} (htold : Told mem v n) (hn : n ≤ pub)
    (hv : v ≤ v') : Told mem' v' n :=
  (htold.congr fun i hi => h.cells i (hi.trans_le hn)).mono le_rfl hv

theorem take_drop_of_isPrefix {first n : ℕ} (h : row <+: row')
    (hle : first + n ≤ row.length) :
    (row'.drop first).take n = (row.drop first).take n := by
  obtain ⟨rest, rfl⟩ := h
  rw [List.drop_append_of_le_length (by omega),
    List.take_append_of_le_length (by rw [List.length_drop]; omega)]

theorem getElem?_of_isPrefix {i : ℕ} (h : row <+: row') (hi : i < row.length) :
    row'[i]? = row[i]? := by
  obtain ⟨rest, rfl⟩ := h
  exact List.getElem?_append_left hi

theorem ThreadInv.mono (h : ThreadInv producer row pub d mem t th)
    (hk : Keeps row row' pub pub' d d' mem mem') (hserved : d.served ≤ pub)
    (hpub : pub ≤ row.length)
    (hheld : ∀ i, Holds i th → mem'.cells i = mem.cells i) :
    ThreadInv producer row' pub' d' mem' t th := by
  cases th with
  | idle | done => trivial
  | enqueue => exact h
  | dequeue max pc =>
      refine ⟨h.1, ?_⟩
      cases pc with
      | load | overcommit => trivial
      | optimistic => exact le_trans h.2 hk.refunded_le
      | fence | draw => exact ⟨h.2.1.trans hk.refunded_le, h.2.2⟩
      | reload => exact h.2
      | refund overcommit desired my tail actual =>
          obtain ⟨-, hlt, hle, hcase, htail, htold⟩ := h
          exact ⟨hlt, hle, hcase, htail.trans hk.pub_le,
            hk.told htold htail (hk.view_le t)⟩
      | take overcommit my tail actual =>
          obtain ⟨-, hle, hcase, htail, htold⟩ := h
          exact ⟨hle, hcase, htail.trans hk.pub_le, hk.told htold htail (hk.view_le t)⟩
      | read first actual got =>
          obtain ⟨-, hle, hgot, hfirst, htold, hvals, hdata⟩ := h
          refine ⟨hle, hgot, hfirst.trans hk.served_le,
            hk.told htold (hfirst.trans hserved) (hk.view_le t), ?_,
            fun i hi hlt => ?_⟩
          · rwa [take_drop_of_isPrefix hk.row_prefix (by omega)]
          · rw [hheld i ⟨hi, hlt⟩, getElem?_of_isPrefix hk.row_prefix (by omega)]
            exact hdata i hi hlt

end Keeps

/-! ## The memory, step by step -/

section Memory

variable [DecidableEq ι] {producer t : ι} {row : List T} {pub : ℕ}
  {d : Desk ι} {mem mem' : Memory ι T} {v : ℕ}

omit [DecidableEq ι] in
theorem covered_of_cells {v : View Loc ι} {i : ℕ}
    (hcells : mem'.cells = mem.cells) (h : mem.Covered i v) :
    mem'.Covered i v := by
  rwa [ViewMemory.Covered, hcells]

omit [DecidableEq ι] in
theorem told_of_cells {v : View Loc ι} {n : ℕ} (hcells : mem'.cells = mem.cells)
    (h : Told mem v n) : Told mem' v n :=
  h.congr fun i _ _ => congrFun hcells i

omit [DecidableEq ι] in
/-- Loads and fences. -/
theorem MemInv.learned (h : MemInv producer row pub d mem)
    (hl : mem.Learned mem' t) : MemInv producer row pub d mem' where
  wf := hl.wf h.wf
  tail := (ViewMemory.newest_congr (by rw [hl.msgs])).trans h.tail
  head := (ViewMemory.newest_congr (by rw [hl.msgs])).trans h.head
  optimistic := (ViewMemory.newest_congr (by rw [hl.msgs])).trans h.optimistic
  overcommit := (ViewMemory.newest_congr (by rw [hl.msgs])).trans h.overcommit
  tail_told msg hmsg := by
    rw [hl.msgs] at hmsg
    exact ⟨(h.tail_told msg hmsg).1,
      told_of_cells hl.cells (h.tail_told msg hmsg).2⟩
  head_told msg hmsg := by
    rw [hl.msgs] at hmsg
    exact told_of_cells hl.cells (h.head_told msg hmsg)
  overcommit_le msg hmsg := by
    rw [hl.msgs] at hmsg
    exact h.overcommit_le msg hmsg
  last := by
    rw [hl.msgs]
    exact h.last.trans (Nat.add_le_add_right ((hl.view_le producer).1 _) 1)
  known_le := h.known_le
  pub_le := h.pub_le
  here i := by
    rw [hl.cells]
    exact h.here i
  own i hi := by
    rw [hl.cells] at hi
    exact covered_of_cells hl.cells ((h.own i hi).mono (hl.view_le producer))
  fresh i hi := (congrFun hl.cells i).trans (h.fresh i hi)

/-- The producer constructs the next element. -/
theorem MemInv.construct (h : MemInv producer row pub d mem) (element : T) :
    MemInv producer (row ++ [element]) pub d
      (mem.write producer row.length (some element)) where
  wf := h.wf.write
  tail := h.tail
  head := h.head
  optimistic := h.optimistic
  overcommit := h.overcommit
  tail_told msg hmsg := by
    obtain ⟨hle, htold⟩ := h.tail_told msg hmsg
    refine ⟨hle, htold.congr fun i hi _ => ?_⟩
    have := h.pub_le
    exact ViewMemory.write_cells_of_ne (by omega)
  head_told msg hmsg := by
    refine (h.head_told msg hmsg).congr fun i hi _ => ?_
    have := h.pub_le
    have := h.known_le
    exact ViewMemory.write_cells_of_ne (by omega)
  overcommit_le := h.overcommit_le
  last := h.last.trans (Nat.add_le_add_right (ViewMemory.le_write.1 _) 1)
  known_le := h.known_le
  pub_le := h.pub_le.trans (by simp)
  here i hi hlt := by
    rw [List.length_append, List.length_singleton] at hlt
    rcases Nat.lt_succ_iff_lt_or_eq.mp hlt with hlt | rfl
    · rw [ViewMemory.write_cells_of_ne (by omega), List.getElem?_append_left hlt]
      exact h.here i hi hlt
    · rw [ViewMemory.write_cells_self, List.getElem?_concat_length]
  own i hi := by
    by_cases heq : i = row.length
    · subst heq
      exact ((h.fresh _ le_rfl).covered _).write _
    · rw [ViewMemory.write_cells_of_ne heq] at hi
      rw [ViewMemory.Covered, ViewMemory.write_cells_of_ne heq]
      exact (h.own i hi).mono ViewMemory.le_write
  fresh i hi := by
    rw [List.length_append, List.length_singleton] at hi
    exact (ViewMemory.write_cells_of_ne (by omega)).trans
      (h.fresh i (by omega))

/-- A dequeue moves an element out that it has claimed. -/
theorem MemInv.read (h : MemInv producer row pub d mem) {i : ℕ}
    (hi : i < d.served) (hserved : d.served ≤ pub) :
    MemInv producer row pub d (mem.write t i none) := by
  have hpub := h.pub_le
  have hcells : ∀ j, ((mem.write t i none).cells j).data.isSome →
      (mem.write t i none).cells j = mem.cells j := by
    intro j hj
    by_cases heq : j = i
    · subst heq
      rw [ViewMemory.write_cells_self] at hj
      cases hj
    · exact ViewMemory.write_cells_of_ne heq
  exact {
    wf := h.wf.write
    tail := h.tail
    head := h.head
    optimistic := h.optimistic
    overcommit := h.overcommit
    tail_told := fun msg hmsg => ⟨(h.tail_told msg hmsg).1,
      (h.tail_told msg hmsg).2.congr fun j _ => hcells j⟩
    head_told := fun msg hmsg =>
      (h.head_told msg hmsg).congr fun j _ => hcells j
    overcommit_le := h.overcommit_le
    last := h.last.trans (Nat.add_le_add_right (ViewMemory.le_write.1 _) 1)
    known_le := h.known_le
    pub_le := hpub
    here := fun j hj hlt => by
      rw [ViewMemory.write_cells_of_ne (by omega)]
      exact h.here j hj hlt
    own := fun j hj => by
      rw [ViewMemory.Covered, hcells j hj]
      rw [hcells j hj] at hj
      exact (h.own j hj).mono ViewMemory.le_write
    fresh := fun j hj =>
      (ViewMemory.write_cells_of_ne (by omega)).trans (h.fresh j hj) }

/-- The producer publishes what it has constructed. -/
theorem MemInv.publish (h : MemInv producer row pub d mem) {o : MemoryOrder}
    (ho : o.releases) : MemInv producer row row.length d
      (mem.store producer o .tailIndex row.length) where
  wf := h.wf.store
  tail := ViewMemory.newest_store_self
  head := (ViewMemory.newest_store_of_ne (by simp)).trans h.head
  optimistic := (ViewMemory.newest_store_of_ne (by simp)).trans h.optimistic
  overcommit := (ViewMemory.newest_store_of_ne (by simp)).trans h.overcommit
  tail_told msg hmsg := by
    rw [ViewMemory.store_msgs_self] at hmsg
    rcases List.mem_append.mp hmsg with hmsg | hmsg
    · obtain ⟨hle, htold⟩ := h.tail_told msg hmsg
      exact ⟨hle.trans h.pub_le, told_of_cells rfl htold⟩
    · obtain rfl := List.mem_singleton.mp hmsg
      exact ⟨le_rfl, fun i _ hi =>
        (h.own i hi).mono (ViewMemory.le_message ho)⟩
  head_told msg hmsg := by
    rw [ViewMemory.store_msgs_of_ne (by simp)] at hmsg
    exact told_of_cells rfl (h.head_told msg hmsg)
  overcommit_le msg hmsg := by
    rw [ViewMemory.store_msgs_of_ne (by simp)] at hmsg
    exact h.overcommit_le msg hmsg
  last := by simp
  known_le := h.known_le.trans h.pub_le
  pub_le := le_rfl
  here := h.here
  own i hi := (h.own i hi).mono ViewMemory.le_post
  fresh := h.fresh

omit [DecidableEq ι] in
/-- A read-modify-write of a counter of the dequeues. -/
theorem MemInv.counted {d' : Desk ι} {a : Loc} (h : MemInv producer row pub d mem)
    (hw : mem.Wrote mem' t a v) (ha : a ≠ .tailIndex)
    (head : mem'.newest .headIndex = some d'.served)
    (optimistic : mem'.newest .dequeueOptimisticCount = some d'.drawn)
    (overcommit : mem'.newest .dequeueOvercommit = some d'.refunded)
    (head_told : ∀ msg, (mem'.msgs .headIndex).getLast? = some msg →
      Told mem msg.view d'.known)
    (overcommit_le : ∀ msg ∈ mem'.msgs .dequeueOvercommit,
      msg.val ≤ d'.refunded)
    (known_le : d'.known ≤ pub) (served_le : d.served ≤ d'.served) :
    MemInv producer row pub d' mem' where
  wf := hw.wf h.wf
  tail := (hw.newest_of_ne ha.symm).trans h.tail
  head := head
  optimistic := optimistic
  overcommit := overcommit
  tail_told msg hmsg := by
    rw [hw.msgs_of_ne _ ha.symm] at hmsg
    exact ⟨(h.tail_told msg hmsg).1,
      told_of_cells hw.cells (h.tail_told msg hmsg).2⟩
  head_told msg hmsg := told_of_cells hw.cells (head_told msg hmsg)
  overcommit_le := overcommit_le
  last := by
    rw [hw.msgs_of_ne _ ha.symm]
    exact h.last.trans (Nat.add_le_add_right ((hw.view_le producer).1 _) 1)
  known_le := known_le
  pub_le := h.pub_le
  here i hi := by
    rw [hw.cells]
    exact h.here i (served_le.trans hi)
  own i hi := by
    rw [hw.cells] at hi
    exact covered_of_cells hw.cells ((h.own i hi).mono (hw.view_le producer))
  fresh i hi := (congrFun hw.cells i).trans (h.fresh i hi)

/-- A dequeue counts itself in. -/
theorem MemInv.draw (h : MemInv producer row pub d mem) {c n : ℕ}
    (hw : mem.Wrote mem' t .dequeueOptimisticCount (d.drawn + n)) :
    MemInv producer row pub (d.draw t c n) mem' := by
  refine h.counted hw (by simp) ((hw.newest_of_ne (by simp)).trans h.head)
    hw.newest_self ((hw.newest_of_ne (by simp)).trans h.overcommit)
    (fun msg hmsg => ?_) (fun msg hmsg => ?_) h.known_le le_rfl
  · rw [hw.msgs_of_ne _ (by simp)] at hmsg
    exact h.head_told msg hmsg
  · rw [hw.msgs_of_ne _ (by simp)] at hmsg
    exact h.overcommit_le msg hmsg

/-- A dequeue gives back what is not there. -/
theorem MemInv.refund (h : MemInv producer row pub d mem) {k : Ticket} {n : ℕ}
    (hw : mem.Wrote mem' t .dequeueOvercommit (d.refunded + n)) :
    MemInv producer row pub (d.refund t k n) mem' := by
  refine h.counted hw (by simp) ((hw.newest_of_ne (by simp)).trans h.head)
    ((hw.newest_of_ne (by simp)).trans h.optimistic) hw.newest_self
    (fun msg hmsg => ?_) (fun msg hmsg => ?_) h.known_le le_rfl
  · rw [hw.msgs_of_ne _ (by simp)] at hmsg
    exact h.head_told msg hmsg
  · obtain ⟨new, hval, hmsgs⟩ := hw.msgs
    rw [hmsgs] at hmsg
    rcases List.mem_append.mp hmsg with hmsg | hmsg
    · exact (h.overcommit_le msg hmsg).trans (Nat.le_add_right _ _)
    · obtain rfl := List.mem_singleton.mp hmsg
      exact hval.le

/-- A dequeue claims elements and passes on what it knows and what it was told
by those before. -/
theorem MemInv.take (h : MemInv producer row pub d mem) {o : MemoryOrder}
    {f : ℕ → ℕ} {k : Ticket} {tail : ℕ} (ho : o.releases)
    (hmod : mem.modify t o .headIndex f = some (v, mem'))
    (hf : f v = d.served + k.due) (htail : tail ≤ pub)
    (htold : Told mem (mem.view t) tail) :
    MemInv producer row pub (d.serve t k tail) mem' := by
  have hw := ViewMemory.wrote_of_modify hmod
  rw [hf] at hw
  refine h.counted hw (by simp) hw.newest_self
    ((hw.newest_of_ne (by simp)).trans h.optimistic)
    ((hw.newest_of_ne (by simp)).trans h.overcommit)
    (fun msg hmsg => ?_) (fun msg hmsg => ?_) (max_le h.known_le htail)
    (Nat.le_add_right _ _)
  · obtain ⟨old, new, hlast, -, hmsgs, -, hold, hown, -⟩ :=
      ViewMemory.told_of_modify hmod
    rw [hmsgs, List.getLast?_concat] at hmsg
    obtain rfl := Option.some.inj hmsg
    exact ((h.head_told old hlast).mono le_rfl hold).max
      (htold.mono le_rfl (hown ho))
  · rw [hw.msgs_of_ne _ (by simp)] at hmsg
    exact h.overcommit_le msg hmsg

end Memory

section Steps

variable [DecidableEq ι] [Fintype ι] {producer t u : ι} {row row' : List T}
  {pub pub' : ℕ} {d d' : Desk ι} {mem mem' : Memory ι T} {s : State ι T}
  {th th' : Thread T}

omit [DecidableEq ι] in
theorem Inv.served_le (h : Inv producer row pub d s) : d.served ≤ pub :=
  h.sound.served_le.trans h.mem.known_le

omit [DecidableEq ι] in
theorem Inv.run (h : Inv producer row pub d s) (hth : s.threads t = th) :
    ThreadInv producer row pub d s.shared t th :=
  hth ▸ h.threads t

/-- A step keeps the invariant if it keeps it for the memory and its own thread
and disturbs no other. -/
theorem Inv.assemble (h : Inv producer row pub d s)
    (hk : Keeps row row' pub pub' d d' s.shared mem')
    (hmem : MemInv producer row' pub' d' mem') (hsound : d'.Sound)
    (htickets : d'.ticket = Function.update d.ticket t (ticketOf th'))
    (hproducing : t = producer → Producing row' pub' th')
    (hother : t ≠ producer → row' = row ∧ pub' = pub)
    (hself : ThreadInv producer row' pub' d' mem' t th')
    (hheld : ∀ u i, u ≠ t → Holds i (s.threads u) →
      mem'.cells i = s.shared.cells i)
    (hapart : ∀ u i, u ≠ t → Holds i th' → ¬Holds i (s.threads u)) :
    Inv producer row' pub' d' (s.move t mem' th') where
  mem := hmem
  sound := hsound
  tickets u := by
    rw [htickets]
    by_cases hu : u = t
    · subst hu
      rw [Function.update_self, Pool.move_threads_self]
    · rw [Function.update_of_ne hu, Pool.move_threads_of_ne _ _ _ hu]
      exact h.tickets u
  producing := by
    by_cases ht : t = producer
    · subst ht
      rw [Pool.move_threads_self]
      exact hproducing rfl
    · obtain ⟨rfl, rfl⟩ := hother ht
      rw [Pool.move_threads_of_ne _ _ _ (Ne.symm ht)]
      exact h.producing
  threads := Pool.forall_move hself fun u hu =>
    (h.threads u).mono hk h.served_le h.mem.pub_le fun i => hheld u i hu
  apart u x i hu hx := by
    by_cases hut : u = t <;> by_cases hxt : x = t
    · rw [hut, hxt]
    · subst hut
      rw [Pool.move_threads_self] at hu
      rw [Pool.move_threads_of_ne _ _ _ hxt] at hx
      exact absurd hx (hapart x i hxt hu)
    · subst hxt
      rw [Pool.move_threads_self] at hx
      rw [Pool.move_threads_of_ne _ _ _ hut] at hu
      exact absurd hu (hapart u i hut hx)
    · rw [Pool.move_threads_of_ne _ _ _ hut] at hu
      rw [Pool.move_threads_of_ne _ _ _ hxt] at hx
      exact h.apart u x i hu hx

/-- A step that changes neither a counter nor a place. -/
theorem Inv.stay (h : Inv producer row pub d s)
    (hl : s.shared.Learned mem' t) (hticket : ticketOf th' = d.ticket t)
    (hproducing : t = producer → Producing row pub th')
    (hself : ThreadInv producer row pub d mem' t th')
    (hholds : ∀ i, Holds i th' → Holds i (s.threads t)) :
    Inv producer row pub d (s.move t mem' th') :=
  h.assemble ⟨List.prefix_rfl, le_rfl, le_rfl, le_rfl, hl.view_le,
      fun i _ _ => congrFun hl.cells i⟩ (h.mem.learned hl) h.sound
    (by rw [hticket, Function.update_eq_self]) hproducing
    (fun _ => ⟨rfl, rfl⟩) hself (fun _ i _ _ => congrFun hl.cells i)
    fun u i hu hi hu' => hu (h.apart u t i hu' (hholds i hi))

/-- The producer sees the last value that it stored in `tailIndex`. -/
theorem Inv.own_tail (h : Inv producer row pub d s) {o : MemoryOrder} {k v : ℕ}
    (hload : s.shared.load producer o .tailIndex k = some (v, mem')) :
    v = pub := by
  obtain ⟨⟨hseen, -⟩, msg, hmsg, rfl, -⟩ :=
    ViewMemory.load_eq_some_iff.mp hload
  have hlt := (List.getElem?_eq_some_iff.mp hmsg).1
  have hlast := h.mem.last
  have htail := h.mem.tail
  rw [show k = (s.shared.msgs .tailIndex).length - 1 by omega,
    ← List.getLast?_eq_getElem?] at hmsg
  rw [ViewMemory.newest, hmsg] at htail
  exact Option.some.inj htail

omit [DecidableEq ι] in
/-- No element of the producer waits to be published unless it is in an
enqueue. -/
theorem Inv.settled (h : Inv producer row pub d s) (hth : s.threads t = th)
    (hthread : ∀ row pub, Producing (T := T) row pub th ↔ row.length = pub)
    (ht : t = producer) : row.length = pub := by
  subst ht
  have := h.producing
  rw [hth] at this
  exact (hthread row pub).mp this

theorem Inv.construct (h : Inv producer row pub d s) {items rest : List T}
    {element : T} (ht : t = producer)
    (hth : s.threads t =
      .enqueue items (.construct row.length (element :: rest))) :
    Inv producer (row ++ [element]) pub d (s.move t
      (s.shared.write t row.length (some element))
      (.enqueue items (.construct (row.length + 1) rest))) := by
  subst ht
  have hserved := h.served_le
  have hpub := h.mem.pub_le
  have hproducing := h.producing
  rw [hth] at hproducing
  have hcells : ∀ i, i < row.length →
      (s.shared.write t row.length (some element)).cells i =
        s.shared.cells i := fun i hi => ViewMemory.write_cells_of_ne hi.ne
  refine h.assemble ⟨List.prefix_append _ _, le_rfl, le_rfl, le_rfl,
    fun _ => ViewMemory.le_write, fun i hi _ => hcells i (hi.trans_le hpub)⟩
    (h.mem.construct element) h.sound ?_ (fun _ => ⟨?_, by simp⟩)
    (fun hne => absurd rfl hne) rfl (fun u i _ hi => ?_) fun _ _ _ hi => hi.elim
  · rw [show ticketOf _ = d.ticket t by rw [h.tickets, hth]; rfl,
      Function.update_eq_self]
  · rw [hproducing.1, List.drop_append_of_le_length hpub, List.append_assoc,
      List.singleton_append]
  · refine hcells i ?_
    cases hu : s.threads u with
    | idle | done | enqueue => rw [hu] at hi; exact hi.elim
    | dequeue max pc =>
        rw [hu] at hi
        cases pc with
        | read first actual got =>
            obtain ⟨-, -, -, hfirst, -⟩ := h.run hu
            have := hi.2
            omega
        | _ => exact hi.elim

theorem Inv.publish (h : Inv producer row pub d s) {items : List T}
    {o : MemoryOrder} (ho : o.releases) (ht : t = producer)
    (hth : s.threads t = .enqueue items (.construct row.length [])) :
    Inv producer row row.length d (s.move t
      (s.shared.store t o .tailIndex row.length) (.done (.enqueued true))) := by
  subst ht
  refine h.assemble ⟨List.prefix_rfl, h.mem.pub_le, le_rfl, le_rfl,
    fun _ => ViewMemory.le_post, fun _ _ _ => rfl⟩ (h.mem.publish ho) h.sound ?_
    (fun _ => rfl) (fun hne => absurd rfl hne) trivial (fun _ _ _ _ => rfl)
    fun _ _ _ hi => hi.elim
  rw [show ticketOf _ = d.ticket t by rw [h.tickets, hth]; rfl,
    Function.update_eq_self]

theorem Inv.draw (h : Inv producer row pub d s) {max overcommit n : ℕ}
    (hth : s.threads t = .dequeue max (.draw overcommit n))
    (hw : s.shared.Wrote mem' t .dequeueOptimisticCount (d.drawn + n)) :
    Inv producer row pub (d.draw t overcommit n) (s.move t mem'
      (.dequeue max (.reload overcommit n d.drawn))) := by
  obtain ⟨hmax, hle, hpos, hn⟩ := h.run hth
  have htotal := h.sound.total
  refine h.assemble ⟨List.prefix_rfl, le_rfl, le_rfl, le_rfl, hw.view_le,
    fun i _ _ => congrFun hw.cells i⟩ (h.mem.draw hw)
    (h.sound.draw (by rw [h.tickets, hth]; rfl) hpos hle) rfl
    (h.settled hth fun _ _ => Iff.rfl) (fun _ => ⟨rfl, rfl⟩)
    ⟨hmax, by omega, hpos, hn⟩ (fun _ i _ _ => congrFun hw.cells i)
    fun _ _ _ hi => hi.elim

theorem Inv.refund (h : Inv producer row pub d s)
    {max overcommit desired my tail actual : ℕ}
    (hth : s.threads t =
      .dequeue max (.refund overcommit desired my tail actual))
    (hw : s.shared.Wrote mem' t .dequeueOvercommit
      (d.refunded + (desired - actual))) :
    ∃ d', Inv producer row pub d'
      (s.move t mem' (refunded max overcommit my tail actual)) ∧
      d'.drawn = d.drawn ∧ d'.served = d.served := by
  obtain ⟨hmax, hlt, hle, hcase, htail, htold⟩ := h.run hth
  have hticket : d.ticket t = some ⟨my, overcommit, desired⟩ := by
    rw [h.tickets, hth]
    rfl
  have hsound := h.sound.refund hticket
    (n := desired - actual) (Nat.sub_le _ _)
  have hmem : MemInv producer row pub (d.refund t _ _) mem' :=
    h.mem.refund (k := ⟨my, overcommit, desired⟩) hw
  have hself : (d.refund t ⟨my, overcommit, desired⟩ (desired - actual)).ticket
      t = some ⟨my, overcommit, desired - (desired - actual)⟩ :=
    Function.update_self _ _ _
  rw [refunded]
  split_ifs with hzero
  · subst hzero
    refine ⟨(d.refund t ⟨my, overcommit, desired⟩ (desired - 0)).leave t,
      h.assemble ⟨List.prefix_rfl, le_rfl, Nat.le_add_right _ _, le_rfl,
        hw.view_le, fun i _ _ => congrFun hw.cells i⟩ ?_
        (hsound.leave hself (Nat.sub_self desired)) ?_
        (h.settled hth fun _ _ => Iff.rfl) (fun _ => ⟨rfl, rfl⟩) trivial
        (fun _ i _ _ => congrFun hw.cells i) fun _ _ _ hi => hi.elim, rfl, rfl⟩
    · exact { hmem with }
    · exact Function.update_idem _ _ _
  · refine ⟨d.refund t ⟨my, overcommit, desired⟩ (desired - actual),
      h.assemble ⟨List.prefix_rfl, le_rfl, Nat.le_add_right _ _, le_rfl,
        hw.view_le, fun i _ _ => congrFun hw.cells i⟩ hmem hsound ?_
        (h.settled hth fun _ _ => Iff.rfl) (fun _ => ⟨rfl, rfl⟩)
        ⟨hmax, by omega, hcase.resolve_left hzero, htail,
          (told_of_cells hw.cells htold).mono le_rfl (hw.view_le t)⟩
        (fun _ i _ _ => congrFun hw.cells i) fun _ _ _ hi => hi.elim, rfl, rfl⟩
    refine congrArg (fun due => Function.update d.ticket t
      (some ⟨my, overcommit, due⟩)) ?_
    exact Nat.sub_sub_self hlt.le

theorem Inv.take (h : Inv producer row pub d s)
    {max overcommit my tail actual : ℕ} {o : MemoryOrder} {f : ℕ → ℕ}
    (ho : o.releases) (ho' : o.acquires)
    (hth : s.threads t = .dequeue max (.take overcommit my tail actual))
    (hmod : s.shared.modify t o .headIndex f = some (d.served, mem'))
    (hf : f d.served = d.served + actual) :
    Inv producer row pub (d.serve t ⟨my, overcommit, actual⟩ tail)
      (s.move t mem' (.dequeue max (.read d.served actual []))) := by
  obtain ⟨hmax, hle, hcase, htail, htold⟩ := h.run hth
  have hticket : d.ticket t = some ⟨my, overcommit, actual⟩ := by
    rw [h.tickets, hth]
    rfl
  have hw := ViewMemory.wrote_of_modify hmod
  have hbound : d.served + actual ≤ Nat.max d.known tail :=
    h.sound.served_add_le hticket hcase
  have hpub := h.mem.pub_le
  have hknown := h.mem.known_le
  have hmem : MemInv producer row pub
      (d.serve t ⟨my, overcommit, actual⟩ tail) mem' :=
    h.mem.take ho hmod hf htail htold
  -- what those before it passed on, and what it knows itself
  have htold' : Told mem' (mem'.view t) (d.served + actual) := by
    obtain ⟨old, -, hlast, -, -, -, -, -, hjoin⟩ :=
      ViewMemory.told_of_modify hmod
    refine told_of_cells hw.cells (Told.mono ?_ hbound (View.le_refl _))
    exact ((h.mem.head_told old hlast).mono le_rfl (hjoin ho')).max
      (htold.mono le_rfl (hw.view_le t))
  refine h.assemble ⟨List.prefix_rfl, le_rfl, le_rfl, Nat.le_add_right _ _,
    hw.view_le, fun i _ _ => congrFun hw.cells i⟩ hmem
    (h.sound.serve hticket hcase) rfl (h.settled hth fun _ _ => Iff.rfl)
    (fun _ => ⟨rfl, rfl⟩)
    ⟨hmax, hle, Nat.zero_le _, le_rfl, htold', rfl, fun i hi hlt => ?_⟩
    (fun _ i _ _ => congrFun hw.cells i) fun u i _ hi hi' => ?_
  · rw [hw.cells]
    exact h.mem.here i hi
      (hlt.trans_le (hbound.trans ((max_le hknown htail).trans hpub)))
  · -- the others hold elements claimed before
    cases hu : s.threads u with
    | idle | done | enqueue => rw [hu] at hi'; exact hi'.elim
    | dequeue max' pc =>
        rw [hu] at hi'
        cases pc with
        | read first actual' got =>
            obtain ⟨-, -, -, hfirst, -⟩ := h.run hu
            have := hi.1
            have := hi'.2
            omega
        | _ => exact hi'.elim

theorem Inv.read (h : Inv producer row pub d s) {max first actual : ℕ}
    {got : List (Option T)} (hlt : got.length < actual)
    (hth : s.threads t = .dequeue max (.read first actual got)) :
    Inv producer row pub d (s.move t
      (s.shared.write t (first + got.length) none) (.dequeue max
        (.read first actual
          (got ++ [(s.shared.cells (first + got.length)).data])))) := by
  obtain ⟨hmax, hle, -, hfirst, htold, hgot, hdata⟩ := h.run hth
  have hserved := h.served_le
  have hholds : Holds (first + got.length) (s.threads t) := by
    rw [hth]
    exact ⟨le_rfl, by omega⟩
  have hcells : ∀ i, i ≠ first + got.length →
      (s.shared.write t (first + got.length) none).cells i =
        s.shared.cells i := fun i hi => ViewMemory.write_cells_of_ne hi
  have hkeeps : Keeps row row pub pub d d s.shared
      (s.shared.write t (first + got.length) none) := by
    refine ⟨List.prefix_rfl, le_rfl, le_rfl, le_rfl,
      fun _ => ViewMemory.le_write, fun i _ hi => hcells i fun heq => ?_⟩
    rw [heq, ViewMemory.write_cells_self] at hi
    cases hi
  refine h.assemble hkeeps (h.mem.read (by omega) hserved) h.sound ?_
    (h.settled hth fun _ _ => Iff.rfl) (fun _ => ⟨rfl, rfl⟩)
    ⟨hmax, hle, ?_, hfirst,
      hkeeps.told htold (hfirst.trans hserved) ViewMemory.le_write, ?_,
      fun i hi hlt => ?_⟩ (fun u i hu hi => hcells i fun heq => ?_)
    fun u i hu hi hi' => ?_
  · rw [show ticketOf _ = d.ticket t by rw [h.tickets, hth]; rfl,
      Function.update_eq_self]
  · rw [List.length_append, List.length_singleton]
    exact hlt
  · rw [List.length_append, List.length_singleton, List.take_add_one,
      List.getElem?_drop, List.map_append, ← hgot,
      hdata _ le_rfl (by omega)]
    have hpub := h.mem.pub_le
    rw [List.getElem?_eq_getElem (by omega)]
    rfl
  · rw [List.length_append, List.length_singleton] at hi
    rw [hcells i (by omega)]
    exact hdata i (by omega) hlt
  · subst heq
    exact hu (h.apart u t _ hi hholds)
  · refine hu (h.apart u t i hi' ?_)
    rw [hth]
    obtain ⟨hge, hlt⟩ := hi
    rw [List.length_append, List.length_singleton] at hge
    exact ⟨by omega, hlt⟩

end Steps

/-! ## Runs -/

/-- The elements that a step publishes. -/
def Event.published : Event T → List T
  | .publish items => items
  | _ => []

/-- How many tickets a step draws. -/
def Event.drawn : Event T → ℕ
  | .draw n => n
  | _ => 0

/-- How many elements a step claims. -/
def Event.taken : Event T → ℕ
  | .take n => n
  | _ => 0

/-- How many elements a step asks to enqueue. -/
def Event.requested : Event T → ℕ
  | .call (.enqueueBulk items) => items.length
  | _ => 0

/-- The elements published along a trace. -/
def published (tr : List (ι × Event T)) : List T :=
  tr.flatMap fun a => a.2.published

/-- How many tickets have been drawn along a trace. -/
def drawn (tr : List (ι × Event T)) : ℕ :=
  (tr.map fun a => a.2.drawn).sum

/-- How many elements have been claimed along a trace. -/
def taken (tr : List (ι × Event T)) : ℕ :=
  (tr.map fun a => a.2.taken).sum

/-- How many elements the enqueues along a trace have been called with. -/
def requested (tr : List (ι × Event T)) : ℕ :=
  (tr.map fun a => a.2.requested).sum

/-- Neither the elements nor the tickets reach half the range of the words. -/
def Bounded (w : ℕ) (tr : List (ι × Event T)) : Prop :=
  requested tr < 2 ^ (w - 1) ∧ drawn tr < 2 ^ (w - 1)

theorem published_snoc (tr : List (ι × Event T)) (a : ι × Event T) :
    published (tr ++ [a]) = published tr ++ a.2.published := by
  simp [published]

theorem drawn_snoc (tr : List (ι × Event T)) (a : ι × Event T) :
    drawn (tr ++ [a]) = drawn tr + a.2.drawn := by
  simp [drawn]

theorem taken_snoc (tr : List (ι × Event T)) (a : ι × Event T) :
    taken (tr ++ [a]) = taken tr + a.2.taken := by
  simp [taken]

theorem requested_snoc (tr : List (ι × Event T)) (a : ι × Event T) :
    requested (tr ++ [a]) = requested tr + a.2.requested := by
  simp [requested]

theorem Bounded.init {w : ℕ} {tr : List (ι × Event T)} {a : ι × Event T}
    (h : Bounded w (tr ++ [a])) : Bounded w tr := by
  rw [Bounded, requested_snoc, drawn_snoc] at h
  exact ⟨by omega, by omega⟩

/-- What holds after a step that shows `e`. -/
def Next [Fintype ι] (producer : ι) (row : List T) (pub : ℕ) (d : Desk ι)
    (e : Event T) (s' : State ι T) : Prop :=
  ∃ row' pub' d', Inv producer row' pub' d' s' ∧
    row'.take pub' = row.take pub ++ e.published ∧
    d'.drawn = d.drawn + e.drawn ∧ d'.served = d.served + e.taken

section Runs

variable [DecidableEq ι] [Fintype ι] {V : Orders} {w BLOCK_SIZE : ℕ}
  {producer t : ι} {row : List T} {pub : ℕ} {d : Desk ι} {mem' : Memory ι T}
  {s : State ι T} {e : Event T} {th' : Thread T}

omit [DecidableEq ι] in
theorem Inv.next {s' : State ι T} (h : Inv producer row pub d s')
    (hpublished : e.published = []) (hdrawn : e.drawn = 0)
    (htaken : e.taken = 0) : Next producer row pub d e s' :=
  ⟨row, pub, d, h, by rw [hpublished, List.append_nil], by rw [hdrawn]; rfl,
    by rw [htaken]; rfl⟩

/-- A step that changes neither a counter nor a place. -/
theorem Inv.rest (h : Inv producer row pub d s)
    (hl : s.shared.Learned mem' t) (hticket : ticketOf th' = d.ticket t)
    (hproducing : t = producer → Producing row pub th')
    (hself : ThreadInv producer row pub d mem' t th')
    (hholds : ∀ i, Holds i th' → Holds i (s.threads t))
    (hpublished : e.published = []) (hdrawn : e.drawn = 0)
    (htaken : e.taken = 0) :
    Next producer row pub d e (s.move t mem' th') :=
  (h.stay hl hticket hproducing hself hholds).next hpublished hdrawn htaken

/-- The elements of the enqueue that a thread is in. -/
def pending : Thread T → ℕ
  | .enqueue items _ => items.length
  | _ => 0

theorem add_of_lt {a b : ℕ} (h : a + b < 2 ^ (w - 1)) :
    (SizeT.bits w).add a b = a + b :=
  SizeT.add_of_fits (SizeT.fits_bits.mpr
    (h.trans_le (Nat.pow_le_pow_right (by omega) (Nat.sub_le w 1))))

/-- One step, within half the range of the words. -/
theorem Inv.move (hV : V.Synchronizes) (hw : 0 < w)
    (h : Inv producer row pub d s)
    (hmove : Move V w BLOCK_SIZE producer t s.shared (s.threads t) e mem' th')
    (hroom : pub + pending (s.threads producer) < 2 ^ (w - 1))
    (hdrawn : d.drawn + e.drawn < 2 ^ (w - 1)) :
    Next producer row pub d e (s.move t mem' th') := by
  generalize hth : s.threads t = th at hmove
  cases hmove with
  | @call op hop =>
      refine h.rest (ViewMemory.learned_refl _ _) ?_ ?_ ?_ ?_ rfl rfl
        rfl
      · rw [h.tickets, hth]
        cases op <;> rfl
      · intro ht
        have := h.settled hth (fun _ _ => Iff.rfl) ht
        cases op <;> exact this
      · cases op with
        | enqueueBulk items => exact hop
        | dequeueBulk max => exact ⟨hop, trivial⟩
      · cases op <;> exact fun _ hi => hi.elim
  | @start items k tail _ hload =>
      obtain rfl : t = producer := h.run hth
      obtain rfl := h.own_tail hload
      have hset := h.settled hth (fun _ _ => Iff.rfl) rfl
      exact h.rest (ViewMemory.learned_of_load hload)
        (by rw [h.tickets, hth]; rfl) (fun _ => ⟨rfl, hset⟩) rfl
        (fun _ hi => hi.elim) rfl rfl rfl
  | @refuse items tail hneeds =>
      obtain rfl : t = producer := h.run hth
      have hproducing := h.producing
      rw [hth] at hproducing
      exact h.rest (ViewMemory.learned_refl _ _) (by rw [h.tickets, hth]; rfl)
        (fun _ => hproducing.2) trivial (fun _ hi => hi.elim) rfl rfl rfl
  | @allocate items tail =>
      obtain rfl : t = producer := h.run hth
      have hproducing := h.producing
      rw [hth] at hproducing
      obtain ⟨rfl, hset⟩ := hproducing
      refine h.rest (ViewMemory.learned_refl _ _) (by rw [h.tickets, hth]; rfl)
        (fun _ => ⟨?_, hset.symm⟩) rfl (fun _ hi => hi.elim) rfl rfl rfl
      rw [List.drop_of_length_le hset.le, List.nil_append]
  | @construct items rest element current =>
      obtain rfl : t = producer := h.run hth
      have hproducing := h.producing
      rw [hth] at hproducing hroom
      obtain ⟨hitems, rfl⟩ := hproducing
      have hlen : pub + items.length = row.length + (rest.length + 1) := by
        have := h.mem.pub_le
        rw [hitems, List.length_append, List.length_drop, List.length_cons]
        omega
      rw [add_of_lt (by change pub + items.length < _ at hroom; omega)]
      refine ⟨_, _, _, h.construct rfl hth, ?_, rfl, rfl⟩
      rw [List.take_append_of_le_length h.mem.pub_le]
      exact (List.append_nil _).symm
  | @publish items current =>
      obtain rfl : t = producer := h.run hth
      have hproducing := h.producing
      rw [hth] at hproducing
      obtain ⟨hitems, rfl⟩ := hproducing
      refine ⟨_, _, _, h.publish hV.publishes rfl hth, ?_, rfl, rfl⟩
      rw [List.append_nil] at hitems
      rw [List.take_length, Event.published, hitems, List.take_append_drop]
  | load hload =>
      exact h.rest (ViewMemory.learned_of_load hload)
        (by rw [h.tickets, hth]; rfl) (h.settled hth fun _ _ => Iff.rfl)
        ⟨(h.run hth).1, trivial⟩ (fun _ hi => hi.elim) rfl rfl rfl
  | overcommit hload =>
      refine h.rest (ViewMemory.learned_of_load hload)
        (by rw [h.tickets, hth]; rfl) (h.settled hth fun _ _ => Iff.rfl)
        ⟨(h.run hth).1, ?_⟩ (fun _ hi => hi.elim) rfl rfl rfl
      obtain ⟨-, msg, hmsg, rfl, -⟩ := ViewMemory.load_eq_some_iff.mp hload
      exact h.mem.overcommit_le msg (List.mem_of_getElem? hmsg)
  | @optimistic max k tail overcommit v heard _ hload =>
      obtain ⟨hmax, hle⟩ := h.run hth
      have hset := h.settled hth fun _ _ => Iff.rfl
      rw [asked]
      split
      · next desired hdesired =>
          have hpos := desiredCount_pos hw hmax hdesired
          split_ifs
          · exact h.rest (ViewMemory.learned_of_load hload)
              (by rw [h.tickets, hth]; rfl) hset ⟨hmax, hle, hpos⟩
              (fun _ hi => hi.elim) rfl rfl rfl
          · exact h.rest (ViewMemory.learned_of_load hload)
              (by rw [h.tickets, hth]; rfl) hset ⟨hmax, hle, hpos⟩
              (fun _ hi => hi.elim) rfl rfl rfl
      · exact h.rest (ViewMemory.learned_of_load hload)
          (by rw [h.tickets, hth]; rfl) hset trivial
          (fun _ hi => hi.elim) rfl rfl rfl
  | fence =>
      exact h.rest (ViewMemory.learned_acquireFence _ _ _)
        (by rw [h.tickets, hth]; rfl) (h.settled hth fun _ _ => Iff.rfl)
        (h.run hth) (fun _ hi => hi.elim) rfl rfl rfl
  | @draw max overcommit n my _ hmod =>
      have hold := (ViewMemory.newest_of_modify hmod).1
      have hwrote := ViewMemory.wrote_of_modify hmod
      rw [h.mem.optimistic] at hold
      obtain rfl := Option.some.inj hold
      rw [add_of_lt (a := d.drawn) (b := n) hdrawn] at hwrote
      exact ⟨_, _, _, h.draw hth hwrote, (List.append_nil _).symm, rfl, rfl⟩
  | @reload max overcommit desired my k tail _ hload =>
      obtain ⟨hmax, hle, hpos, hdesired⟩ := h.run hth
      have hset := h.settled hth fun _ _ => Iff.rfl
      have hticket : d.ticket t = some ⟨my, overcommit, desired⟩ := by
        rw [h.tickets, hth]
        rfl
      have hmy := h.sound.number_lt t _ hticket
      obtain ⟨msg, hmsg, hval, hview⟩ :=
        ViewMemory.view_le_of_load hV.observes hload
      obtain ⟨htail, htold⟩ := h.mem.tail_told msg hmsg
      have hcells := (ViewMemory.learned_of_load hload).cells
      rw [hval] at htail htold
      have htold' := told_of_cells hcells (htold.mono le_rfl hview)
      have hactual : actualCount w desired tail overcommit my =
          min desired (tail + overcommit - my) :=
        actualCount_eq hw hle (show my < _ by change my < d.drawn at hmy; omega)
          (show tail < _ by omega)
      simp only [checked, hactual]
      split_ifs with hless
      · refine h.rest (ViewMemory.learned_of_load hload) hticket.symm hset
          ⟨hmax, hless, hdesired, ?_, htail, htold'⟩
          (fun _ hi => hi.elim) rfl rfl rfl
        omega
      · refine h.rest (ViewMemory.learned_of_load hload) ?_ hset
          ⟨hmax, ?_, ?_, htail, htold'⟩ (fun _ hi => hi.elim) rfl rfl rfl
        · rw [hticket, show min desired (tail + overcommit - my) = desired by
            omega]
          rfl
        · omega
        · omega
  | @refund max overcommit desired my tail actual old _ hmod =>
      have hold := (ViewMemory.newest_of_modify hmod).1
      have hwrote := ViewMemory.wrote_of_modify hmod
      rw [h.mem.overcommit] at hold
      obtain rfl := Option.some.inj hold
      have hticket : d.ticket t = some ⟨my, overcommit, desired⟩ := by
        rw [h.tickets, hth]
        rfl
      have hsound := (h.sound.refund hticket
        (n := desired - actual) (Nat.sub_le _ _)).total
      change d.drawn = d.served + (d.refunded + (desired - actual)) + _ at hsound
      rw [add_of_lt (by omega)] at hwrote
      obtain ⟨d', hinv, hd, hs⟩ := h.refund hth hwrote
      exact ⟨_, _, d', hinv, (List.append_nil _).symm, hd, hs⟩
  | @take max overcommit my tail actual first _ hmod =>
      have hold := (ViewMemory.newest_of_modify hmod).1
      rw [h.mem.head] at hold
      obtain rfl := Option.some.inj hold
      obtain ⟨-, -, hcase, htail, -⟩ := h.run hth
      have hticket : d.ticket t = some ⟨my, overcommit, actual⟩ := by
        rw [h.tickets, hth]
        rfl
      have hbound : d.served + actual ≤ Nat.max d.known tail :=
        h.sound.served_add_le hticket hcase
      have hle := hbound.trans (max_le h.mem.known_le htail)
      exact ⟨_, _, _, h.take hV.passes hV.joins hth hmod
        (add_of_lt (by omega)), (List.append_nil _).symm, rfl, rfl⟩
  | @read max first actual got hlt =>
      obtain ⟨-, -, -, hfirst, -⟩ := h.run hth
      have hserved := h.served_le
      rw [add_of_lt (by omega)]
      exact (h.read hlt hth).next rfl rfl rfl
  | finish hlt =>
      exact h.rest (ViewMemory.learned_refl _ _) (by rw [h.tickets, hth]; rfl)
        (h.settled hth fun _ _ => Iff.rfl) trivial
        (fun _ hi => hi.elim) rfl rfl rfl
  | ret =>
      exact h.rest (ViewMemory.learned_refl _ _) (by rw [h.tickets, hth]; rfl)
        (h.settled hth fun _ _ => Iff.rfl) trivial
        (fun _ hi => hi.elim) rfl rfl rfl

omit [Fintype ι] in
/-- The elements of an enqueue are published or given up. -/
theorem pending_move
    (hmove : Move V w BLOCK_SIZE producer t s.shared (s.threads t) e mem' th') :
    e.published.length + pending th' ≤
      pending (s.threads t) + e.requested := by
  generalize s.threads t = th at hmove
  cases hmove with
  | @call op => cases op <;> simp [enter, pending, Event.published,
      Event.requested]
  | @optimistic max k tail overcommit v heard =>
      rw [asked]
      split <;> simp [pending, Event.published]
  | @refund max overcommit desired my tail actual =>
      rw [refunded]
      split <;> simp [pending, Event.published]
  | _ => simp [checked, pending, Event.published]

/-- The counters and the places along a run. -/
structure Along (producer : ι) (row : List T) (pub : ℕ) (d : Desk ι)
    (tr : List (ι × Event T)) (s : State ι T) : Prop where
  inv : Inv producer row pub d s
  published_eq : row.take pub = published tr
  drawn_eq : d.drawn = drawn tr
  served_eq : d.served = taken tr
  pending_le : pub + pending (s.threads producer) ≤ requested tr

omit [DecidableEq ι] in
theorem Along.pub_eq {tr : List (ι × Event T)}
    (h : Along producer row pub d tr s) : pub = (published tr).length := by
  rw [← h.published_eq, List.length_take]
  exact (min_eq_left h.inv.mem.pub_le).symm

omit [DecidableEq ι] in
theorem along_init : Along producer [] 0 Desk.new []
    (⟨Memory.new, fun _ => .idle⟩ : State ι T) where
  inv := by
    refine ⟨⟨ViewMemory.wellFormed_init, rfl, rfl, rfl, rfl, ?_, ?_, ?_,
      Nat.le_refl 1, le_rfl, le_rfl, fun i _ hi => absurd hi (Nat.not_lt_zero i),
      fun i hi => absurd hi Bool.false_ne_true, fun _ _ => rfl⟩,
      Desk.sound_new, fun _ => rfl, rfl, fun _ => trivial,
      fun _ _ _ hi => hi.elim⟩
    · intro msg hmsg
      obtain rfl := List.mem_singleton.mp hmsg
      exact ⟨le_rfl, fun i hi => by cases hi⟩
    · intro msg _ i hi
      cases hi
    · intro msg hmsg
      obtain rfl := List.mem_singleton.mp hmsg
      exact le_rfl
  published_eq := rfl
  drawn_eq := rfl
  served_eq := rfl
  pending_le := le_rfl

theorem Along.step (hV : V.Synchronizes) (hw : 0 < w)
    {tr : List (ι × Event T)} (h : Along producer row pub d tr s)
    (hmove : Move V w BLOCK_SIZE producer t s.shared (s.threads t) e mem' th')
    (hbound : Bounded w (tr ++ [(t, e)])) :
    ∃ row' pub' d',
      Along producer row' pub' d' (tr ++ [(t, e)]) (s.move t mem' th') := by
  rw [Bounded, requested_snoc, drawn_snoc] at hbound
  have hle := h.pending_le
  obtain ⟨row', pub', d', hinv, hpub, hdrawn, hserved⟩ :=
    h.inv.move hV hw hmove (by omega) (by rw [h.drawn_eq]; exact hbound.2)
  refine ⟨row', pub', d', hinv, ?_, ?_, ?_, ?_⟩
  · rw [hpub, h.published_eq, published_snoc]
  · rw [hdrawn, h.drawn_eq, drawn_snoc]
  · rw [hserved, h.served_eq, taken_snoc]
  · have hpending := pending_move hmove
    have hlen := congrArg List.length hpub
    rw [List.length_append, List.length_take, List.length_take,
      min_eq_left hinv.mem.pub_le, min_eq_left h.inv.mem.pub_le] at hlen
    rw [requested_snoc]
    change _ ≤ requested tr + e.requested
    by_cases ht : t = producer
    · subst ht
      rw [Pool.move_threads_self]
      omega
    · rw [Pool.move_threads_of_ne _ _ _ (Ne.symm ht)]
      have hnone : pending (s.threads t) = 0 := by
        cases hth : s.threads t with
        | enqueue => exact absurd (h.inv.run hth) ht
        | _ => rfl
      omega

theorem along_of_run (hV : V.Synchronizes) (hw : 0 < w)
    {tr : List (ι × Event T)} (hrun : (system V w BLOCK_SIZE producer T).Run tr s)
    (hbound : Bounded w tr) :
    ∃ row pub d, Along producer row pub d tr s := by
  revert hbound
  refine Lts.Run.induction (P := fun tr s => Bounded w tr →
    ∃ row pub d, Along producer row pub d tr s)
    (fun _ => ⟨_, _, _, along_init⟩) ?_ hrun
  rintro tr s ⟨t, e⟩ s' - ih ⟨c, mem, th, hmove, rfl⟩ hbound
  obtain ⟨row, pub, d, h⟩ := ih hbound.init
  exact h.step hV hw (moves_iff.mp ⟨c, hmove⟩) hbound

/-- No access to an element races. -/
theorem not_racing (hV : V.Synchronizes) (hw : 0 < w)
    {tr : List (ι × Event T)} (hrun : (system V w BLOCK_SIZE producer T).Run tr s)
    (hbound : Bounded w tr) : ¬Racing w s := by
  obtain ⟨row, pub, d, h⟩ := along_of_run hV hw hrun hbound
  have hpub := h.pending_le
  rintro ⟨t, index, hindex, hrace⟩
  refine hrace ?_
  cases hth : s.threads t with
  | idle | done => rw [hth] at hindex; cases hindex
  | enqueue items pc =>
      obtain rfl : t = producer := h.inv.run hth
      rw [hth] at hindex
      have hproducing := h.inv.producing
      rw [hth] at hproducing
      cases pc with
      | construct current rest =>
          cases rest with
          | nil => cases hindex
          | cons element rest =>
              cases hindex
              rw [hproducing.2]
              exact (h.inv.mem.fresh _ le_rfl).covered _
      | _ => cases hindex
  | dequeue max pc =>
      have hrunning := h.inv.run hth
      rw [hth] at hindex
      cases pc with
      | read first actual got =>
          obtain ⟨-, -, -, hfirst, htold, -, hdata⟩ := hrunning
          rw [accesses] at hindex
          split_ifs at hindex with hlt
          cases hindex
          have hserved := h.inv.served_le
          have hrow := h.inv.mem.pub_le
          rw [add_of_lt (by have := hbound.1; omega)]
          refine htold _ (by omega) ?_
          rw [hdata _ le_rfl (by omega), List.getElem?_eq_getElem (by omega)]
          rfl
      | _ => cases hindex

end Runs

end Moodycamel
end ConcurrentQueues
