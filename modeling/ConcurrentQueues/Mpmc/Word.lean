import ConcurrentQueues.Mpmc.Preservation
import Mathlib.Data.List.Induction

/-!
# `StdAtomicMPMCQueue` with counters of one machine word

Counters of `w` bits wrap around, so an index held since long ago can match the
`seq_` of its cell on another lap.  The compare-exchange that follows then
fails, unless the shared index has moved by a multiple of `2 ^ w` since the
value held was the newest.  Along runs in which this does not happen the queue
of words takes the steps of the queue of unbounded counters.
-/

namespace ConcurrentQueues

universe u v

namespace StdAtomicMPMCQueue

open Fifo

variable {ι : Type v} {T : Type u} {n w : ℕ}

/-! ## What a run shows -/

/-- The index a step claims. -/
def Event.index? : Event T → Option Index
  | .claimWrite _ _ => some .write
  | .claimRead _ => some .read
  | _ => none

/-- How far behind the newest value of `x` the value is that a step loads. -/
def Event.lag? (x : Index) : Event T → Option ℕ
  | .load y lag | .retry y lag => if y = x then some lag else none
  | _ => none

/-- The index claimed, its cell, and the item of a push. -/
def Event.claim? (n : ℕ) : Event T → Option (Index × ℕ × Option T)
  | .claimWrite idx item => some (.write, idx % n, some item)
  | .claimRead idx => some (.read, idx % n, none)
  | _ => none

def Event.result? : Event T → Option (Res T)
  | .ret _ r => some r
  | _ => none

/-- The claims of a run with the claiming threads, in order. -/
def claims (n : ℕ) (tr : List (ι × Event T)) :
    List (ι × Index × ℕ × Option T) :=
  tr.filterMap fun a => (a.2.claim? n).map (a.1, ·)

/-- The results of a run with the threads they are returned to, in order. -/
def results (tr : List (ι × Event T)) : List (ι × Res T) :=
  tr.filterMap fun a => a.2.result?.map (a.1, ·)

/-- An event with its index kept modulo `2 ^ w`.  A compare-exchange that fails
loads the index, as `load` does. -/
def Event.wrap (w : ℕ) : Event T → Event T
  | .retry x lag => .load x lag
  | .claimWrite idx item => .claimWrite (idx % 2 ^ w) item
  | .claimRead idx => .claimRead (idx % 2 ^ w)
  | .ret idx r => .ret (idx % 2 ^ w) r
  | e => e

theorem claim?_wrap (hdvd : n ∣ 2 ^ w) (e : Event T) :
    (e.wrap w).claim? n = e.claim? n := by
  cases e <;> simp [Event.wrap, Event.claim?, Nat.mod_mod_of_dvd _ hdvd]

theorem result?_wrap (e : Event T) : (e.wrap w).result? = e.result? := by
  cases e <;> rfl

/-- Runs that agree up to wrapping make the same claims on the same cells. -/
theorem claims_eq_of_wrap (hdvd : n ∣ 2 ^ w) {tr tr' : List (ι × Event T)}
    (h : tr.map (fun a => (a.1, a.2.wrap w)) =
      tr'.map fun a => (a.1, a.2.wrap w)) : claims n tr = claims n tr' := by
  have hmap : ∀ tr : List (ι × Event T),
      claims n tr = claims n (tr.map fun a => (a.1, a.2.wrap w)) := by
    intro tr
    simp only [claims, List.filterMap_map, Function.comp_def,
      claim?_wrap hdvd]
  rw [hmap tr, h, ← hmap tr']

theorem results_eq_of_wrap {tr tr' : List (ι × Event T)}
    (h : tr.map (fun a => (a.1, a.2.wrap w)) =
      tr'.map fun a => (a.1, a.2.wrap w)) : results tr = results tr' := by
  have hmap : ∀ tr : List (ι × Event T),
      results tr = results (tr.map fun a => (a.1, a.2.wrap w)) := by
    intro tr
    simp only [results, List.filterMap_map, Function.comp_def, result?_wrap]
  rw [hmap tr, h, ← hmap tr']

/-! ## Claims missed since a load -/

section Missed

variable [DecidableEq ι]

/-- Counting the claims of `x` since the value that thread `t` loaded last was
the newest one: one step later. -/
def missedStep (x : Index) (t : ι) (m : ℕ) (a : ι × Event T) : ℕ :=
  if a.2.index? = some x then m + 1
  else if a.1 = t then (a.2.lag? x).getD m
  else m

/-- The claims of `x` since the value that thread `t` loaded last was the
newest one. -/
def missed (x : Index) (t : ι) (tr : List (ι × Event T)) : ℕ :=
  tr.foldl (missedStep x t) 0

theorem missed_snoc (x : Index) (t : ι) (tr : List (ι × Event T))
    (a : ι × Event T) :
    missed x t (tr ++ [a]) = missedStep x t (missed x t tr) a := by
  simp [missed]

/-- After a load of the newest value, the claims missed are the claims made
since that load. -/
theorem missed_eq_claims_since {x : Index} {t : ι} {e : Event T}
    {tr tr' : List (ι × Event T)} (he : e.lag? x = some 0)
    (hlast : ∀ a ∈ tr', a.1 = t → a.2.lag? x = none) :
    missed x t (tr ++ (t, e) :: tr') =
      (tr'.filter fun a => a.2.index? = some x).length := by
  induction tr' using List.reverseRecOn with
  | nil =>
      have hidx : e.index? ≠ some x := by
        cases e <;> simp_all [Event.lag?, Event.index?]
      simp [missed_snoc, missedStep, he, hidx]
  | append_singleton tr' a ih =>
      have hrest := ih fun b hb => hlast b (List.mem_append_left _ hb)
      have ha := hlast a (by simp)
      rw [← List.cons_append, ← List.append_assoc, missed_snoc, hrest,
        List.filter_append, List.length_append]
      by_cases hclaim : a.2.index? = some x
      · simp [missedStep, hclaim]
      · by_cases ht : a.1 = t
        · simp [missedStep, hclaim, ht, ha ht]
        · simp [missedStep, hclaim, ht]

/-- At every successful compare-exchange, fewer than `2 ^ w` claims of the
index came after the value compared with was the newest one. -/
def Timely (w : ℕ) (tr : List (ι × Event T)) : Prop :=
  ∀ tr₁ a tr₂ x, tr = tr₁ ++ a :: tr₂ → a.2.index? = some x →
    missed x a.1 tr₁ < 2 ^ w

theorem Timely.init {tr : List (ι × Event T)} {a : ι × Event T}
    (h : Timely w (tr ++ [a])) : Timely w tr := by
  intro tr₁ b tr₂ x heq hx
  exact h tr₁ b (tr₂ ++ [a]) x (by simp [heq]) hx

theorem Timely.last {tr : List (ι × Event T)} {a : ι × Event T}
    (h : Timely w (tr ++ [a])) {x : Index} (hx : a.2.index? = some x) :
    missed x a.1 tr < 2 ^ w :=
  h tr a [] x rfl hx

theorem Timely.snoc {tr : List (ι × Event T)} {a : ι × Event T}
    (h : Timely w tr)
    (ha : ∀ x, a.2.index? = some x → missed x a.1 tr < 2 ^ w) :
    Timely w (tr ++ [a]) := by
  intro tr₁ b tr₂ x heq hx
  rcases List.eq_nil_or_concat tr₂ with rfl | ⟨tr₃, c, rfl⟩
  · obtain ⟨rfl, hlast⟩ := List.append_inj' heq rfl
    obtain rfl := List.singleton_inj.mp hlast
    exact ha x hx
  · rw [List.concat_eq_append, ← List.cons_append, ← List.append_assoc] at heq
    obtain ⟨rfl, -⟩ := List.append_inj' heq rfl
    exact h tr₁ b tr₃ x rfl hx

theorem missed_wrap (x : Index) (t : ι) (tr : List (ι × Event T)) :
    missed x t (tr.map fun a => (a.1, a.2.wrap w)) = missed x t tr := by
  rw [missed, List.foldl_map]
  congr 1
  funext m ⟨i, e⟩
  cases e <;> rfl

/-- Runs that agree up to wrapping are both timely, or neither is. -/
theorem timely_wrap_iff {tr : List (ι × Event T)} :
    Timely w (tr.map fun a => (a.1, a.2.wrap w)) ↔ Timely w tr := by
  have hindex : ∀ e : Event T, (e.wrap w).index? = e.index? := by
    intro e
    cases e <;> rfl
  constructor
  · rintro h tr₁ a tr₂ x rfl hx
    rw [← missed_wrap (w := w)]
    refine h _ (a.1, a.2.wrap w) (tr₂.map fun a => (a.1, a.2.wrap w)) x ?_
      ((hindex a.2).trans hx)
    rw [List.map_append, List.map_cons]
  · intro h tr₁ b tr₂ x heq hx
    obtain ⟨l₁, l₂, rfl, rfl, hl₂⟩ := List.map_eq_append_iff.mp heq
    obtain ⟨a, l₃, rfl, rfl, rfl⟩ := List.map_eq_cons_iff.mp hl₂
    rw [missed_wrap]
    exact h l₁ a l₃ x rfl ((hindex a.2).symm.trans hx)

theorem timely_iff {tr : List (ι × Event T)} :
    Timely w tr ↔ ∀ k : Fin tr.length, ∀ x ∈ tr[k].2.index?,
      missed x tr[k].1 (tr.take k) < 2 ^ w := by
  constructor
  · intro h k x hx
    refine h (tr.take k) tr[k] (tr.drop (k + 1)) x ?_ hx
    rw [Fin.getElem_fin, List.getElem_cons_drop, List.take_append_drop]
  · rintro h tr₁ a tr₂ x rfl hx
    have hk := h ⟨tr₁.length, by simp⟩ x (by simpa using hx)
    simpa using hk

instance (tr : List (ι × Event T)) : Decidable (Timely w tr) :=
  decidable_of_iff _ timely_iff.symm

end Missed

/-! ## Wrapped states -/

def Queue.wrap (w : ℕ) (q : Queue T) : Queue T where
  buffer c := ⟨(q.buffer c).seq % 2 ^ w, (q.buffer c).data⟩
  writeIdx := q.writeIdx.wrap w
  readIdx := q.readIdx.wrap w

def Pc.wrap (w : ℕ) : Pc → Pc
  | .load => .load
  | .check idx => .check (idx % 2 ^ w)
  | .exchange idx => .exchange (idx % 2 ^ w)
  | .claimed idx => .claimed (idx % 2 ^ w)
  | .copying idx => .copying (idx % 2 ^ w)
  | .store idx => .store (idx % 2 ^ w)

def Thread.wrap (w : ℕ) : Thread T → Thread T
  | .idle => .idle
  | .push item pc => .push item (pc.wrap w)
  | .pop item pc => .pop item (pc.wrap w)
  | .done idx r => .done (idx % 2 ^ w) r

@[simp] theorem Queue.wrap_writeIdx (q : Queue T) :
    (q.wrap w).writeIdx = q.writeIdx.wrap w := rfl

@[simp] theorem Queue.wrap_readIdx (q : Queue T) :
    (q.wrap w).readIdx = q.readIdx.wrap w := rfl

theorem Queue.new_wrap :
    Queue.new (T := T) (.bits w) = (Queue.new .unbounded).wrap w := by
  simp [Queue.new, Queue.wrap, Atomic.wrap, Atomic.ofVal]

theorem Queue.wrap_setSeq (q : Queue T) (c k : ℕ) :
    (q.wrap w).setSeq c (k % 2 ^ w) = (q.setSeq c k).wrap w := by
  simp only [Queue.setSeq, Queue.wrap, Queue.mk.injEq, and_self, and_true]
  funext c'
  by_cases h : c' = c
  · subst h
    simp
  · simp [h]

theorem Queue.wrap_setData (q : Queue T) (c : ℕ) (d : Option T) :
    (q.wrap w).setData c d = (q.setData c d).wrap w := by
  simp only [Queue.setData, Queue.wrap, Queue.mk.injEq, and_self, and_true]
  funext c'
  by_cases h : c' = c
  · subst h
    simp
  · simp [h]

theorem Queue.wrap_setWriteIdx (q : Queue T) (k : ℕ) :
    (q.wrap w).setWriteIdx (k % 2 ^ w) = (q.setWriteIdx k).wrap w := rfl

theorem Queue.wrap_setReadIdx (q : Queue T) (k : ℕ) :
    (q.wrap w).setReadIdx (k % 2 ^ w) = (q.setReadIdx k).wrap w := rfl

/-! ## Accidental matches -/

section Match

variable {log : List T} {q : Queue T}

/-- The cell of the newest index is at most one lap behind it. -/
theorem SharedInv.seqOf_write_near (hn : 2 ≤ n) (h : SharedInv n log q) :
    q.writeIdx.val ≤ q.seqOf n q.writeIdx.val + n ∧
      q.seqOf n q.writeIdx.val ≤ q.writeIdx.val := by
  have hread := h.read_le
  have hcap := h.write_le
  by_cases hfull : q.writeIdx.val < q.readIdx.val + n
  · rcases h.seq_free _ le_rfl hfull with hseq | ⟨-, hseq⟩ <;> omega
  · have hcell : q.seqOf n q.writeIdx.val = q.seqOf n q.readIdx.val :=
      seqOf_congr (by
        rw [show q.writeIdx.val = q.readIdx.val + n by omega,
          Ring.slot_add_self])
    rcases h.seq_pushed q.readIdx.val le_rfl (by omega) with hseq | hseq <;>
      omega

/-- The cell of the oldest index is at most one lap behind its successor. -/
theorem SharedInv.seqOf_read_near (hn : 2 ≤ n) (h : SharedInv n log q) :
    q.readIdx.val + 1 ≤ q.seqOf n q.readIdx.val + n ∧
      q.seqOf n q.readIdx.val ≤ q.readIdx.val + 1 := by
  have hread := h.read_le
  by_cases hempty : q.readIdx.val < q.writeIdx.val
  · rcases h.seq_pushed _ le_rfl hempty with hseq | hseq <;> omega
  · rcases h.seq_free q.readIdx.val (by omega) (by omega) with
      hseq | ⟨-, hseq⟩ <;> omega

/-- The cell of the newest index matches it modulo `2 ^ w` only when it is
free. -/
theorem SharedInv.seqOf_write_of_mod (hn : 2 ≤ n) (hlt : n < 2 ^ w)
    (h : SharedInv n log q)
    (hmod : q.seqOf n q.writeIdx.val % 2 ^ w = q.writeIdx.val % 2 ^ w) :
    q.seqOf n q.writeIdx.val = q.writeIdx.val := by
  have hnear := h.seqOf_write_near hn
  exact Ring.eq_of_slot_eq hmod (by omega) (by omega)

/-- The cell of the oldest index matches its successor modulo `2 ^ w` only when
it is published. -/
theorem SharedInv.seqOf_read_of_mod (hn : 2 ≤ n) (hlt : n < 2 ^ w)
    (h : SharedInv n log q)
    (hmod : q.seqOf n q.readIdx.val % 2 ^ w = (q.readIdx.val + 1) % 2 ^ w) :
    q.seqOf n q.readIdx.val = q.readIdx.val + 1 := by
  have hnear := h.seqOf_read_near hn
  exact Ring.eq_of_slot_eq hmod (by omega) (by omega)

end Match

/-! ## The simulation -/

/-- A value held at the loop of a push or a pop lies behind the newest one by
the claims missed. -/
def Held (q : Queue T) (m : Index → ℕ) : Thread T → Prop
  | .push _ (.check v) | .push _ (.exchange v) =>
      v + m .write = q.writeIdx.val
  | .pop _ (.check v) | .pop _ (.exchange v) => v + m .read = q.readIdx.val
  | _ => True

/-- A thread of the queue of words beside its counterpart, which has gone back
to the load where `seq_` matched by accident. -/
inductive Tracks (w : ℕ) (q : Queue T) (m : Index → ℕ) :
    Thread T → Thread T → Prop
  | same (th : Thread T) (h : Held q m th) : Tracks w q m (th.wrap w) th
  | push {item : T} {v : ℕ} (hstale : v < q.writeIdx.val)
      (h : v + m .write = q.writeIdx.val) :
      Tracks w q m (.push item (.exchange (v % 2 ^ w))) (.push item .load)
  | pop {item : Option T} {v : ℕ} (hstale : v < q.readIdx.val)
      (h : v + m .read = q.readIdx.val) :
      Tracks w q m (.pop item (.exchange (v % 2 ^ w))) (.pop item .load)

/-- The queue of words in the state that the queue of unbounded counters has,
wrapped. -/
structure Simulates [DecidableEq ι] (n w : ℕ) (tr : List (ι × Event T))
    (s t : State ι T) : Prop where
  shared : s.shared = t.shared.wrap w
  thread : ∀ i, Tracks w t.shared (fun x => missed x i tr) (s.threads i)
    (t.threads i)
  inv : ∃ log, Inv n log t

/-- A step of the queue of words is matched by a step of the queue of unbounded
counters. -/
def Follows (n w : ℕ) (q : Queue T) (m : Index → ℕ) (th : Thread T)
    (e : Event T) (q' : Queue T) (th' : Thread T) : Prop :=
  ∃ e₁ q₁ th₁, Move .unbounded n q th e₁ q₁ th₁ ∧ e₁.wrap w = e.wrap w ∧
    q' = q₁.wrap w ∧ Tracks w q₁ m th' th₁

section Steps

variable [DecidableEq ι] {q q' : Queue T} {m : Index → ℕ} {log : List T}
  {th' : Thread T} {e : Event T}

/-- A value that matches modulo `2 ^ w` after fewer than `2 ^ w` claims is the
newest one. -/
theorem eq_of_timely {v k W : ℕ} (hheld : v + k = W) (hk : k < 2 ^ w)
    (hmod : W % 2 ^ w = v % 2 ^ w) : W = v :=
  Ring.eq_of_slot_eq hmod (by omega) (by omega)

theorem wrap_seq (hdvd : n ∣ 2 ^ w) (q : Queue T) (v : ℕ) :
    ((q.wrap w).buffer (v % 2 ^ w % n)).seq = q.seqOf n v % 2 ^ w := by
  rw [Nat.mod_mod_of_dvd _ hdvd]
  rfl

/-- A value just loaded lies behind the newest one by its lag. -/
theorem SharedInv.held_push (hq : SharedInv n log q) (i : ι) {item : T}
    {v lag : ℕ} (h : q.writeIdx.load lag = some v) (hindex : e.index? = none)
    (hlag : e.lag? .write = some lag) :
    Held q (fun x => missedStep x i (m x) (i, e)) (.push item (.check v)) := by
  have hv := hq.writeCounts.load_eq_some.mp h
  simpa [Held, missedStep, hindex, hlag] using hv

theorem SharedInv.held_pop (hq : SharedInv n log q) (i : ι) {item : Option T}
    {v lag : ℕ} (h : q.readIdx.load lag = some v) (hindex : e.index? = none)
    (hlag : e.lag? .read = some lag) :
    Held q (fun x => missedStep x i (m x) (i, e)) (.pop item (.check v)) := by
  have hv := hq.readCounts.load_eq_some.mp h
  simpa [Held, missedStep, hindex, hlag] using hv

theorem follows_push (hn : 2 ≤ n) (hdvd : n ∣ 2 ^ w) (hlt : n < 2 ^ w)
    (hq : SharedInv n log q) {item : T} {pc : Pc}
    (hheld : Held q m (.push item pc)) (i : ι)
    (hmove : Move (.bits w) n (q.wrap w) (.push item (pc.wrap w)) e q' th')
    (htime : ∀ x, e.index? = some x → m x < 2 ^ w) :
    Follows n w q (fun x => missedStep x i (m x) (i, e)) (.push item pc) e q'
      th' := by
  cases pc with
  | load =>
      cases hmove with
      | pushLoad h =>
          obtain ⟨v, hv, rfl⟩ := Atomic.load_wrap_eq_some.mp h
          exact ⟨_, _, _, .pushLoad hv, rfl, rfl,
            .same (.push item (.check v))
              (hq.held_push i hv rfl rfl)⟩
  | check v =>
      have hkept : Held q (fun x => missedStep x i (m x)
          (i, (Event.check : Event T)))
          (.push item (.check v)) := by
        simpa [Held, missedStep, Event.index?, Event.lag?] using hheld
      cases hmove with
      | pushReady h =>
          rw [wrap_seq hdvd] at h
          by_cases hseq : q.seqOf n v = v
          · exact ⟨_, _, _, .pushReady hseq, rfl, rfl,
              .same (.push item (.exchange v)) hkept⟩
          · -- an accidental match: the value held is not the newest one
            refine ⟨_, _, _, .pushBusy hseq, rfl, rfl, .push ?_ hkept⟩
            apply lt_of_le_of_ne (Nat.le.intro hheld)
            rintro rfl
            exact hseq (hq.seqOf_write_of_mod hn hlt h)
      | pushBusy h =>
          rw [wrap_seq hdvd] at h
          have hseq : q.seqOf n v ≠ v := fun heq => h (by rw [heq])
          exact ⟨_, _, _, .pushBusy hseq, rfl, rfl,
            .same (.push item .load) trivial⟩
  | exchange v =>
      cases hmove with
      | pushClaim h =>
          have hval := eq_of_timely hheld (htime .write rfl) h
          refine ⟨_, _, _, .pushClaim hval, by simp [Event.wrap], ?_,
            .same (.push item (.claimed v)) trivial⟩
          rw [SizeT.add_bits_mod, Queue.wrap_setWriteIdx]
          rfl
      | pushRetry h =>
          obtain ⟨v', hv, rfl⟩ := Atomic.load_wrap_eq_some.mp h
          exact ⟨_, _, _, .pushRetry hv, rfl, rfl,
            .same (.push item (.check v'))
              (hq.held_push i hv rfl rfl)⟩
  | claimed v =>
      cases hmove with
      | pushCopyBegin =>
          refine ⟨_, _, _, .pushCopyBegin, rfl, ?_,
            .same (.push item (.copying v)) trivial⟩
          rw [Nat.mod_mod_of_dvd _ hdvd, Queue.wrap_setData]
  | copying v =>
      cases hmove with
      | pushCopyEnd =>
          refine ⟨_, _, _, .pushCopyEnd, rfl, ?_,
            .same (.push item (.store v)) trivial⟩
          rw [Nat.mod_mod_of_dvd _ hdvd, Queue.wrap_setData]
  | store v =>
      cases hmove with
      | pushStore =>
          refine ⟨_, _, _, .pushStore, rfl, ?_,
            .same (.done v (.pushed true)) trivial⟩
          rw [Nat.mod_mod_of_dvd _ hdvd, SizeT.add_bits_mod,
            Queue.wrap_setSeq]
          rfl

theorem follows_pop (hn : 2 ≤ n) (hdvd : n ∣ 2 ^ w) (hlt : n < 2 ^ w)
    (hq : SharedInv n log q) {item : Option T} {pc : Pc}
    (hheld : Held q m (.pop item pc)) (i : ι)
    (hmove : Move (.bits w) n (q.wrap w) (.pop item (pc.wrap w)) e q' th')
    (htime : ∀ x, e.index? = some x → m x < 2 ^ w) :
    Follows n w q (fun x => missedStep x i (m x) (i, e)) (.pop item pc) e q'
      th' := by
  cases pc with
  | load =>
      cases hmove with
      | popLoad h =>
          obtain ⟨v, hv, rfl⟩ := Atomic.load_wrap_eq_some.mp h
          exact ⟨_, _, _, .popLoad hv, rfl, rfl,
            .same (.pop item (.check v))
              (hq.held_pop i hv rfl rfl)⟩
  | check v =>
      have hkept : Held q (fun x => missedStep x i (m x)
          (i, (Event.check : Event T)))
          (.pop item (.check v)) := by
        simpa [Held, missedStep, Event.index?, Event.lag?] using hheld
      cases hmove with
      | popReady h =>
          rw [wrap_seq hdvd, SizeT.add_bits_mod] at h
          by_cases hseq : q.seqOf n v = v + 1
          · exact ⟨_, _, _, .popReady hseq, rfl, rfl,
              .same (.pop item (.exchange v)) hkept⟩
          · -- an accidental match: the value held is not the newest one
            refine ⟨_, _, _, .popBusy hseq, rfl, rfl, .pop ?_ hkept⟩
            apply lt_of_le_of_ne (Nat.le.intro hheld)
            rintro rfl
            exact hseq (hq.seqOf_read_of_mod hn hlt h)
      | popBusy h =>
          rw [wrap_seq hdvd, SizeT.add_bits_mod] at h
          have hseq : q.seqOf n v ≠ v + 1 := fun heq => h (by rw [heq])
          exact ⟨_, _, _, .popBusy hseq, rfl, rfl,
            .same (.pop item .load) trivial⟩
  | exchange v =>
      cases hmove with
      | popClaim h =>
          have hval := eq_of_timely hheld (htime .read rfl) h
          refine ⟨_, _, _, .popClaim hval, by simp [Event.wrap], ?_,
            .same (.pop item (.claimed v)) trivial⟩
          rw [SizeT.add_bits_mod, Queue.wrap_setReadIdx]
          rfl
      | popRetry h =>
          obtain ⟨v', hv, rfl⟩ := Atomic.load_wrap_eq_some.mp h
          exact ⟨_, _, _, .popRetry hv, rfl, rfl,
            .same (.pop item (.check v'))
              (hq.held_pop i hv rfl rfl)⟩
  | claimed v =>
      cases hmove with
      | popCopyBegin =>
          exact ⟨_, _, _, .popCopyBegin, rfl, rfl,
            .same (.pop item (.copying v)) trivial⟩
  | copying v =>
      cases hmove with
      | popCopyEnd =>
          refine ⟨_, _, _, .popCopyEnd, rfl, rfl, ?_⟩
          rw [Nat.mod_mod_of_dvd _ hdvd]
          exact .same (.pop _ (.store v)) trivial
  | store v =>
      cases hmove with
      | popStore =>
          refine ⟨_, _, _, .popStore, rfl, ?_,
            .same (.done v (.popped item)) trivial⟩
          rw [Nat.mod_mod_of_dvd _ hdvd, SizeT.add_bits_mod,
            Queue.wrap_setSeq]
          rfl

/-- Every step of the queue of words is matched. -/
theorem Tracks.follows (hn : 2 ≤ n) (hdvd : n ∣ 2 ^ w) (hlt : n < 2 ^ w)
    (hq : SharedInv n log q) {thw th : Thread T} (h : Tracks w q m thw th)
    (i : ι) (hmove : Move (.bits w) n (q.wrap w) thw e q' th')
    (htime : ∀ x, e.index? = some x → m x < 2 ^ w) :
    Follows n w q (fun x => missedStep x i (m x) (i, e)) th e q' th' := by
  cases h with
  | same th hheld =>
      cases th with
      | idle =>
          cases hmove with
          | callPush item =>
              exact ⟨_, _, _, .callPush item, rfl, rfl,
                .same (.push item .load) trivial⟩
          | callPop =>
              exact ⟨_, _, _, .callPop, rfl, rfl,
                .same (.pop none .load) trivial⟩
      | push item pc => exact follows_push hn hdvd hlt hq hheld i hmove htime
      | pop item pc => exact follows_pop hn hdvd hlt hq hheld i hmove htime
      | done idx r =>
          cases hmove with
          | ret =>
              refine ⟨_, _, _, .ret, ?_, rfl, .same .idle trivial⟩
              simp [Event.wrap]
  | @push item v hstale hheld =>
      cases hmove with
      | pushClaim h =>
          -- the claim would need a value held for `2 ^ w` claims
          have hval := eq_of_timely hheld (htime .write rfl) h
          omega
      | pushRetry h =>
          obtain ⟨v', hv, rfl⟩ := Atomic.load_wrap_eq_some.mp h
          exact ⟨_, _, _, .pushLoad hv, rfl, rfl,
            .same (.push item (.check v'))
              (hq.held_push i hv rfl rfl)⟩
  | @pop item v hstale hheld =>
      cases hmove with
      | popClaim h =>
          have hval := eq_of_timely hheld (htime .read rfl) h
          omega
      | popRetry h =>
          obtain ⟨v', hv, rfl⟩ := Atomic.load_wrap_eq_some.mp h
          exact ⟨_, _, _, .popLoad hv, rfl, rfl,
            .same (.pop item (.check v'))
              (hq.held_pop i hv rfl rfl)⟩

/-- A step of the queue of unbounded counters is matched by a step of the queue
of words, which claims the newest value. -/
def Leads (n w : ℕ) (q : Queue T) (m : Index → ℕ) (i : ι) (thw : Thread T)
    (e₁ : Event T) (q₁ : Queue T) (th₁ : Thread T) : Prop :=
  (∃ e q' th', Move (.bits w) n (q.wrap w) thw e q' th' ∧
    e.wrap w = e₁.wrap w ∧ q' = q₁.wrap w ∧
    Tracks w q₁ (fun x => missedStep x i (m x) (i, e₁)) th' th₁) ∧
  ∀ x, e₁.index? = some x → m x = 0

theorem leads_push (hn : 2 ≤ n) (hdvd : n ∣ 2 ^ w) (hlt : n < 2 ^ w)
    (hq : SharedInv n log q) {item : T} {pc : Pc}
    (hheld : Held q m (.push item pc)) (i : ι)
    (hmove : Move .unbounded n q (.push item pc) e q' th') :
    Leads n w q m i (.push item (pc.wrap w)) e q' th' := by
  cases hmove with
  | pushLoad h =>
      refine ⟨⟨_, _, _, .pushLoad (Atomic.load_wrap_eq_some.mpr ⟨_, h, rfl⟩),
        rfl, rfl, .same _ (hq.held_push i h rfl rfl)⟩, nofun⟩
  | @pushReady _ v h =>
      have hkept : Held q (fun x => missedStep x i (m x)
          (i, (Event.check : Event T))) (.push item (.exchange v)) := by
        simpa [Held, missedStep, Event.index?, Event.lag?] using hheld
      refine ⟨⟨_, _, _, .pushReady ?_, rfl, rfl, .same _ hkept⟩, nofun⟩
      rw [wrap_seq hdvd]
      exact congrArg (· % 2 ^ w) h
  | @pushBusy _ v h =>
      have hkept : Held q (fun x => missedStep x i (m x)
          (i, (Event.check : Event T))) (.push item (.check v)) := by
        simpa [Held, missedStep, Event.index?, Event.lag?] using hheld
      refine ⟨?_, nofun⟩
      by_cases hmod : q.seqOf n v % 2 ^ w = v % 2 ^ w
      · -- an accidental match, which the compare-exchange will not confirm
        have hstale : v < q.writeIdx.val := by
          apply lt_of_le_of_ne (Nat.le.intro hheld)
          rintro rfl
          exact h (hq.seqOf_write_of_mod hn hlt hmod)
        refine ⟨_, _, _, .pushReady ?_, rfl, rfl, .push hstale hkept⟩
        rw [wrap_seq hdvd]
        exact hmod
      · refine ⟨_, _, _, .pushBusy ?_, rfl, rfl, .same (.push item .load) trivial⟩
        rw [wrap_seq hdvd]
        exact hmod
  | @pushClaim _ v h =>
      have hzero : m .write = 0 := by
        have hsum : v + m .write = q.writeIdx.val := hheld
        omega
      refine ⟨⟨_, _, _, .pushClaim (congrArg (· % 2 ^ w) h),
        by simp [Event.wrap], ?_, .same (.push item (.claimed v)) trivial⟩, ?_⟩
      · rw [SizeT.add_bits_mod, Queue.wrap_setWriteIdx]
        rfl
      · intro x hx
        cases hx
        exact hzero
  | pushRetry h =>
      exact ⟨⟨_, _, _, .pushRetry (Atomic.load_wrap_eq_some.mpr ⟨_, h, rfl⟩),
        rfl, rfl, .same _ (hq.held_push i h rfl rfl)⟩, nofun⟩
  | @pushCopyBegin _ v =>
      refine ⟨⟨_, _, _, .pushCopyBegin, rfl, ?_,
        .same (.push item (.copying v)) trivial⟩, nofun⟩
      rw [Nat.mod_mod_of_dvd _ hdvd, Queue.wrap_setData]
  | @pushCopyEnd _ v =>
      refine ⟨⟨_, _, _, .pushCopyEnd, rfl, ?_,
        .same (.push item (.store v)) trivial⟩, nofun⟩
      rw [Nat.mod_mod_of_dvd _ hdvd, Queue.wrap_setData]
  | @pushStore _ v =>
      refine ⟨⟨_, _, _, .pushStore, rfl, ?_,
        .same (.done v (.pushed true)) trivial⟩, nofun⟩
      rw [Nat.mod_mod_of_dvd _ hdvd, SizeT.add_bits_mod, Queue.wrap_setSeq]
      rfl

theorem leads_pop (hn : 2 ≤ n) (hdvd : n ∣ 2 ^ w) (hlt : n < 2 ^ w)
    (hq : SharedInv n log q) {item : Option T} {pc : Pc}
    (hheld : Held q m (.pop item pc)) (i : ι)
    (hmove : Move .unbounded n q (.pop item pc) e q' th') :
    Leads n w q m i (.pop item (pc.wrap w)) e q' th' := by
  cases hmove with
  | popLoad h =>
      exact ⟨⟨_, _, _, .popLoad (Atomic.load_wrap_eq_some.mpr ⟨_, h, rfl⟩),
        rfl, rfl, .same _ (hq.held_pop i h rfl rfl)⟩, nofun⟩
  | @popReady _ v h =>
      have hkept : Held q (fun x => missedStep x i (m x)
          (i, (Event.check : Event T))) (.pop item (.exchange v)) := by
        simpa [Held, missedStep, Event.index?, Event.lag?] using hheld
      refine ⟨⟨_, _, _, .popReady ?_, rfl, rfl, .same _ hkept⟩, nofun⟩
      rw [wrap_seq hdvd, SizeT.add_bits_mod]
      exact congrArg (· % 2 ^ w) h
  | @popBusy _ v h =>
      have hkept : Held q (fun x => missedStep x i (m x)
          (i, (Event.check : Event T))) (.pop item (.check v)) := by
        simpa [Held, missedStep, Event.index?, Event.lag?] using hheld
      refine ⟨?_, nofun⟩
      by_cases hmod : q.seqOf n v % 2 ^ w = (v + 1) % 2 ^ w
      · have hstale : v < q.readIdx.val := by
          apply lt_of_le_of_ne (Nat.le.intro hheld)
          rintro rfl
          exact h (hq.seqOf_read_of_mod hn hlt hmod)
        refine ⟨_, _, _, .popReady ?_, rfl, rfl, .pop hstale hkept⟩
        rw [wrap_seq hdvd, SizeT.add_bits_mod]
        exact hmod
      · refine ⟨_, _, _, .popBusy ?_, rfl, rfl, .same (.pop item .load) trivial⟩
        rw [wrap_seq hdvd, SizeT.add_bits_mod]
        exact hmod
  | @popClaim _ v h =>
      have hzero : m .read = 0 := by
        have hsum : v + m .read = q.readIdx.val := hheld
        omega
      refine ⟨⟨_, _, _, .popClaim (congrArg (· % 2 ^ w) h),
        by simp [Event.wrap], ?_, .same (.pop item (.claimed v)) trivial⟩, ?_⟩
      · rw [SizeT.add_bits_mod, Queue.wrap_setReadIdx]
        rfl
      · intro x hx
        cases hx
        exact hzero
  | popRetry h =>
      exact ⟨⟨_, _, _, .popRetry (Atomic.load_wrap_eq_some.mpr ⟨_, h, rfl⟩),
        rfl, rfl, .same _ (hq.held_pop i h rfl rfl)⟩, nofun⟩
  | @popCopyBegin _ v =>
      exact ⟨⟨_, _, _, .popCopyBegin, rfl, rfl,
        .same (.pop item (.copying v)) trivial⟩, nofun⟩
  | @popCopyEnd _ v =>
      refine ⟨⟨_, _, _, .popCopyEnd, rfl, rfl, ?_⟩, nofun⟩
      rw [Nat.mod_mod_of_dvd _ hdvd]
      exact .same (.pop _ (.store v)) trivial
  | @popStore _ v =>
      refine ⟨⟨_, _, _, .popStore, rfl, ?_,
        .same (.done v (.popped item)) trivial⟩, nofun⟩
      rw [Nat.mod_mod_of_dvd _ hdvd, SizeT.add_bits_mod, Queue.wrap_setSeq]
      rfl

/-- Every step of the queue of unbounded counters is matched. -/
theorem Tracks.leads (hn : 2 ≤ n) (hdvd : n ∣ 2 ^ w) (hlt : n < 2 ^ w)
    (hq : SharedInv n log q) {thw th : Thread T} (h : Tracks w q m thw th) (i : ι)
    (hmove : Move .unbounded n q th e q' th') :
    Leads n w q m i thw e q' th' := by
  cases h with
  | same th hheld =>
      cases th with
      | idle =>
          cases hmove with
          | callPush item =>
              exact ⟨⟨_, _, _, .callPush item, rfl, rfl,
                .same (.push item .load) trivial⟩, nofun⟩
          | callPop =>
              exact ⟨⟨_, _, _, .callPop, rfl, rfl,
                .same (.pop none .load) trivial⟩, nofun⟩
      | push item pc => exact leads_push hn hdvd hlt hq hheld i hmove
      | pop item pc => exact leads_pop hn hdvd hlt hq hheld i hmove
      | done idx r =>
          cases hmove with
          | ret =>
              refine ⟨⟨_, _, _, .ret, ?_, rfl, .same .idle trivial⟩, nofun⟩
              simp [Event.wrap]
  | push hstale hheld =>
      cases hmove with
      | pushLoad h =>
          exact ⟨⟨_, _, _, .pushRetry (Atomic.load_wrap_eq_some.mpr ⟨_, h, rfl⟩),
            rfl, rfl, .same _ (hq.held_push i h rfl rfl)⟩, nofun⟩
  | pop hstale hheld =>
      cases hmove with
      | popLoad h =>
          exact ⟨⟨_, _, _, .popRetry (Atomic.load_wrap_eq_some.mpr ⟨_, h, rfl⟩),
            rfl, rfl, .same _ (hq.held_pop i h rfl rfl)⟩, nofun⟩

/-- A step of another thread moves the newest value and the claims missed
together. -/
theorem Tracks.other {thw th₀ th₁ th : Thread T} {e₁ : Event T}
    (h : Tracks w q m thw th) {i j : ι} (hij : i ≠ j)
    (hmove : Move .unbounded n q th₀ e₁ q' th₁)
    (hwrap : e₁.wrap w = e.wrap w) :
    Tracks w q' (fun x => missedStep x j (m x) (i, e)) thw th := by
  have hindex : ∀ x, missedStep x j (m x) (i, e) =
      if e₁.index? = some x then m x + 1 else m x := by
    intro x
    have hsame : e.index? = e₁.index? := by
      cases e <;> cases e₁ <;> simp_all [Event.wrap, Event.index?]
    simp [missedStep, hij, hsame]
  have hwrite : ∀ v, v + m .write = q.writeIdx.val →
      v + missedStep .write j (m .write) (i, e) = q'.writeIdx.val := by
    intro v hv
    rw [hindex]
    cases hmove with
    | pushClaim hval => simp [Event.index?, ← hval, ← hv, Nat.add_assoc]
    | _ => simpa [Event.index?] using hv
  have hread : ∀ v, v + m .read = q.readIdx.val →
      v + missedStep .read j (m .read) (i, e) = q'.readIdx.val := by
    intro v hv
    rw [hindex]
    cases hmove with
    | popClaim hval => simp [Event.index?, ← hval, ← hv, Nat.add_assoc]
    | _ => simpa [Event.index?] using hv
  have hmono : q.writeIdx.val ≤ q'.writeIdx.val ∧
      q.readIdx.val ≤ q'.readIdx.val := by
    cases hmove with
    | pushClaim hval => simp [← hval]
    | popClaim hval => simp [← hval]
    | _ => simp
  cases h with
  | same th hheld =>
      refine .same th ?_
      cases th with
      | push item pc =>
          cases pc with
          | check v | exchange v => exact hwrite v hheld
          | _ => trivial
      | pop item pc =>
          cases pc with
          | check v | exchange v => exact hread v hheld
          | _ => trivial
      | _ => trivial
  | push hstale hheld =>
      exact .push (lt_of_lt_of_le hstale hmono.1) (hwrite _ hheld)
  | pop hstale hheld =>
      exact .pop (lt_of_lt_of_le hstale hmono.2) (hread _ hheld)

end Steps

theorem dvd_of_lt (hpow : ∃ k, n = 2 ^ k) (hlt : n < 2 ^ w) : n ∣ 2 ^ w := by
  obtain ⟨k, rfl⟩ := hpow
  exact pow_dvd_pow 2 ((Nat.pow_lt_pow_iff_right one_lt_two).mp hlt).le

section Runs

variable [DecidableEq ι] {tr : List (ι × Event T)} {s : State ι T}

theorem unbounded_of_word (hn : 2 ≤ n) (hpow : ∃ k, n = 2 ^ k)
    (hlt : n < 2 ^ w) (hrun : (system (.bits w) n ι T).Run tr s)
    (htimely : Timely w tr) :
    ∃ (tr' : List (ι × Event T)) (s' : State ι T),
      (system .unbounded n ι T).Run tr' s' ∧
        tr'.map (fun a => (a.1, a.2.wrap w)) =
          tr.map (fun a => (a.1, a.2.wrap w)) ∧
        s.shared = s'.shared.wrap w := by
  have hdvd := dvd_of_lt hpow hlt
  obtain ⟨tr', s', hrun', htr, hR⟩ :=
    Lts.simulation (A := system .unbounded n ι T)
      (f := fun a => some (a.1, a.2.wrap w))
      (g := fun a => some (a.1, a.2.wrap w)) (Timely w) (Simulates n w)
      (fun _ _ => Timely.init)
      ⟨Queue.new_wrap, fun _ => .same .idle trivial, [], inv_init⟩
      (by
        rintro tr s ⟨i, e⟩ s' t - hok hR ⟨q, th, hmove, rfl⟩
        obtain ⟨log, hI⟩ := hR.inv
        have hmove := moves_iff.mp hmove
        rw [hR.shared] at hmove
        obtain ⟨e₁, q₁, th₁, hstep, hwrap, rfl, htracks⟩ :=
          (hR.thread i).follows hn hdvd hlt hI.shared i hmove
            fun x hx => hok.last hx
        refine ⟨t.move i q₁ th₁, ?_, rfl, ?_, _, hI.step hn rfl hstep⟩
        · simp only [← hwrap]
          exact Lts.Matches.step (A := system .unbounded n ι T)
            (g := fun a => some (a.1, a.2.wrap w)) (b := (i, e₁))
            ⟨q₁, th₁, moves_iff.mpr hstep, rfl⟩
        · intro j
          simp only [missed_snoc]
          by_cases hij : j = i
          · subst hij
            simpa using htracks
          · rw [Pool.move_threads_of_ne _ _ _ hij,
              Pool.move_threads_of_ne _ _ _ hij]
            exact (hR.thread j).other (Ne.symm hij) hstep hwrap)
      hrun htimely
  simp only [List.filterMap_eq_map'] at htr
  exact ⟨tr', s', hrun', htr, hR.shared⟩

theorem word_of_unbounded (hn : 2 ≤ n) (hpow : ∃ k, n = 2 ^ k)
    (hlt : n < 2 ^ w) (hrun : (system .unbounded n ι T).Run tr s) :
    ∃ (tr' : List (ι × Event T)) (s' : State ι T),
      (system (.bits w) n ι T).Run tr' s' ∧ Timely w tr' ∧
        tr'.map (fun a => (a.1, a.2.wrap w)) =
          tr.map (fun a => (a.1, a.2.wrap w)) ∧
        s'.shared = s.shared.wrap w := by
  have hdvd := dvd_of_lt hpow hlt
  obtain ⟨tr', s', hrun', htr, hR, htimely⟩ :=
    Lts.simulation (C := system .unbounded n ι T)
      (A := system (.bits w) n ι T)
      (f := fun a => some (a.1, a.2.wrap w))
      (g := fun a => some (a.1, a.2.wrap w)) (fun _ => True)
      (fun tr s t => Simulates n w tr t s ∧ Timely w tr) (fun _ _ _ => trivial)
      ⟨⟨Queue.new_wrap, fun _ => .same .idle trivial, [], inv_init⟩,
        fun tr₁ a tr₂ x heq => by simp at heq⟩
      (by
        rintro tr s ⟨i, e⟩ s' t - - ⟨hR, htimely⟩ ⟨q, th, hmove, rfl⟩
        obtain ⟨log, hI⟩ := hR.inv
        have hmove := moves_iff.mp hmove
        obtain ⟨⟨e₁, _, th₁, hstep, hwrap, rfl, htracks⟩, hzero⟩ :=
          (hR.thread i).leads hn hdvd hlt hI.shared i hmove
        rw [← hR.shared] at hstep
        refine ⟨t.move i (q.wrap w) th₁, ?_,
          ⟨rfl, ?_, _, hI.step hn rfl hmove⟩, ?_⟩
        · simp only [← hwrap]
          exact Lts.Matches.step (A := system (.bits w) n ι T)
            (g := fun a => some (a.1, a.2.wrap w)) (b := (i, e₁))
            ⟨q.wrap w, th₁, moves_iff.mpr hstep, rfl⟩
        · intro j
          simp only [missed_snoc]
          by_cases hij : j = i
          · subst hij
            simpa using htracks
          · rw [Pool.move_threads_of_ne _ _ _ hij,
              Pool.move_threads_of_ne _ _ _ hij]
            exact (hR.thread j).other (Ne.symm hij) hmove rfl
        · exact htimely.snoc fun x hx =>
            lt_of_eq_of_lt (hzero x hx) (Nat.two_pow_pos w))
      hrun trivial
  simp only [List.filterMap_eq_map'] at htr
  refine ⟨tr', s', hrun', ?_, htr, hR.shared⟩
  exact timely_wrap_iff.mp (htr ▸ timely_wrap_iff.mpr htimely)

end Runs

/-- A run of a queue of `n = 2 ^ k` cells with counters of `w` bits in which no
compare-exchange succeeds on a value that missed `2 ^ w` claims makes the
claims of a run with unbounded counters, on the same cells, in the same order
and with the same results, and keeps its queue modulo `2 ^ w`.  And every run
with unbounded counters has such a counterpart. -/
theorem word_run_simulated [DecidableEq ι] (hn : 2 ≤ n)
    (hpow : ∃ k, n = 2 ^ k) (hlt : n < 2 ^ w) :
    (∀ {tr : List (ι × Event T)} {s : State ι T},
      (system (.bits w) n ι T).Run tr s → Timely w tr →
      ∃ (tr' : List (ι × Event T)) (s' : State ι T),
        (system .unbounded n ι T).Run tr' s' ∧
          tr'.map (fun a => (a.1, a.2.wrap w)) =
            tr.map (fun a => (a.1, a.2.wrap w)) ∧
          claims n tr' = claims n tr ∧ results tr' = results tr ∧
          s.shared = s'.shared.wrap w) ∧
    ∀ {tr' : List (ι × Event T)} {s' : State ι T},
      (system .unbounded n ι T).Run tr' s' →
      ∃ (tr : List (ι × Event T)) (s : State ι T),
        (system (.bits w) n ι T).Run tr s ∧ Timely w tr ∧
          tr.map (fun a => (a.1, a.2.wrap w)) =
            tr'.map (fun a => (a.1, a.2.wrap w)) ∧
          claims n tr = claims n tr' ∧ results tr = results tr' ∧
          s.shared = s'.shared.wrap w := by
  have hdvd := dvd_of_lt hpow hlt
  constructor
  · intro tr s hrun htimely
    obtain ⟨tr', s', hrun', htr, hshared⟩ :=
      unbounded_of_word hn hpow hlt hrun htimely
    exact ⟨tr', s', hrun', htr, claims_eq_of_wrap hdvd htr,
      results_eq_of_wrap htr, hshared⟩
  · intro tr' s' hrun'
    obtain ⟨tr, s, hrun, htimely, htr, hshared⟩ :=
      word_of_unbounded hn hpow hlt hrun'
    exact ⟨tr, s, hrun, htimely, htr, claims_eq_of_wrap hdvd htr,
      results_eq_of_wrap htr, hshared⟩

/-- Thread 0 pushes and pops five items, one after the other. -/
def laps : List (ℕ × Choice ℕ) :=
  (List.range 5).flatMap fun x =>
    [.call (.push x), .see 0, .go, .go, .go, .go, .go, .go,
      .call .pop, .see 0, .go, .go, .go, .go, .go, .go].map ((0, ·))

/-- Counters of two bits wrap around on the way: five claims have brought
`write_idx_` to one, as the first had. -/
theorem word_run_simulated_laps :
    ∃ (tr : List (ℕ × Event ℕ)) (s : State ℕ ℕ),
      (system (.bits 2) 2 ℕ ℕ).Run tr s ∧
        (claims 2 tr).length = 10 ∧ s.shared.writeIdx.val = 1 ∧
        ∃ (tr' : List (ℕ × Event ℕ)) (s' : State ℕ ℕ),
          (system .unbounded 2 ℕ ℕ).Run tr' s' ∧
            claims 2 tr' = claims 2 tr ∧ results tr' = results tr ∧
            s'.shared.writeIdx.val % 2 ^ 2 = 1 ∧
            s.shared = s'.shared.wrap 2 := by
  obtain ⟨⟨tr, s⟩, hexec, hlast⟩ := Option.map_eq_some_iff.mp
    (show (Lts.exec (Pool.next (move (.bits 2) 2))
        ⟨Queue.new (.bits 2), fun _ => .idle⟩ laps).map
        (fun r => (decide (Timely 2 r.1), (claims 2 r.1).length,
          r.2.shared.writeIdx.val)) = some (true, 10, 1)
      by decide +kernel)
  obtain ⟨htimely, hcount, hidx⟩ := Prod.mk.inj hlast |>.imp_right Prod.mk.inj
  have hrun : (system (.bits 2) 2 ℕ ℕ).Run tr s := Pool.run_of_exec hexec
  obtain ⟨tr', s', hrun', -, hclaims, hresults, hshared⟩ :=
    (word_run_simulated le_rfl ⟨1, rfl⟩ (by decide)).1 hrun
      (of_decide_eq_true htimely)
  refine ⟨tr, s, hrun, hcount, hidx, tr', s', hrun', hclaims, hresults, ?_,
    hshared⟩
  rw [hshared] at hidx
  exact hidx

end StdAtomicMPMCQueue
end ConcurrentQueues
