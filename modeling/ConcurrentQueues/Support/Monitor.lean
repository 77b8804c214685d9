import ConcurrentQueues.Support.Pool

/-!
# Monitors and lost wake-ups

A monitor is a mutex, the data it protects and condition variables.  A call
takes the mutex, tests the predicate of its critical section, runs the section,
releases the mutex and then notifies one waiter of a condition variable.  A
call whose predicate fails waits on a condition variable or returns.  Waiting
releases the mutex and blocks in one step; a waiter that was notified, or woke
spuriously, takes the mutex again and repeats its test.

Signals sent after the mutex was released may find that their waiters have left
and that others have come.  What keeps a waiter from being forgotten is a count:
while somebody waits for a condition, every unit of the supply it waits for is
matched by a notification still to be sent or by a thread on its way to the
test.
-/

namespace ConcurrentQueues

universe u v w x y

/-- What a critical section asks of the data before it runs. -/
inductive Guard (B : Type u) (K : Type v) (R : Type w)
  /-- nothing, under `std::lock_guard` -/
  | always
  /-- `c.wait(lock, ready)` -/
  | waits (c : K) (ready : B → Bool)
  /-- `if (!ready) return r;` -/
  | fails (r : R) (ready : B → Bool)

namespace Guard

variable {B : Type u} {K : Type v} {R : Type w}

/-- The predicate that lets the section run. -/
def passes : Guard B K R → B → Bool
  | always, _ => true
  | waits _ ready, b | fails _ ready, b => ready b

/-- The condition variable a call may wait on. -/
def cond? : Guard B K R → Option K
  | waits c _ => some c
  | always | fails _ _ => none

end Guard

/-- A critical section: its guard, what it does to the data and returns, and the
condition variable it notifies after the mutex was released. -/
structure Critical (B : Type u) (K : Type v) (R : Type w) where
  guard : Guard B K R
  body : B → R × B
  notifies : Option K

/-- The data a monitor starts with and the critical sections of its
operations. -/
structure Monitor (O : Type x) (B : Type u) (K : Type v) (R : Type w) where
  init : B
  code : O → Critical B K R

namespace Monitor

variable {O : Type x} {B : Type u} {K : Type v} {R : Type w} {ι : Type y}

/-- The data, and the thread that holds the mutex. -/
structure Shared (ι : Type y) (B : Type u) where
  data : B
  owner : Option ι

/-- Where a thread stands in a call. -/
inductive Thread (O : Type x) (K : Type v) (R : Type w)
  | idle
  /-- before the mutex is taken -/
  | lock (op : O)
  /-- with the mutex, before the test -/
  | test (op : O)
  /-- with the mutex, after the test -/
  | body (op : O)
  /-- with the mutex, after the section -/
  | unlock (r : R) (c : Option K)
  /-- blocked on the condition variable of `op` -/
  | blocked (op : O)
  /-- woken, before the mutex is taken again -/
  | woken (op : O)
  /-- between the release of the mutex and `c.notify_one()` -/
  | notify (r : R) (c : K)
  | done (r : R)

/-- The steps of a call that its caller sees. -/
inductive Event (O : Type x) (R : Type w)
  | call (op : O)
  | inner
  | ret (r : R)

abbrev State (ι : Type y) (O : Type x) (B : Type u) (K : Type v) (R : Type w) :=
  Pool ι (Shared ι B) (Thread O K R)

/-- The condition variable on which a call of `op` may wait. -/
def waitsOn (M : Monitor O B K R) (op : O) : Option K :=
  (M.code op).guard.cond?

/-- After the mutex was released: on to the notification, if there is one. -/
def Thread.released (r : R) : Option K → Thread O K R
  | some c => .notify r c
  | none => .done r

/-- One step of one thread.  Only a notification touches another thread. -/
inductive Step [DecidableEq ι] (M : Monitor O B K R) :
    State ι O B K R → ι × Event O R → State ι O B K R → Prop
  | call {s : State ι O B K R} {t : ι} (op : O) (h : s.threads t = .idle) :
      Step M s (t, .call op) (s.move t s.shared (.lock op))
  | lock {s : State ι O B K R} {t : ι} {op : O} (h : s.threads t = .lock op)
      (hfree : s.shared.owner = none) :
      Step M s (t, .inner) (s.move t ⟨s.shared.data, some t⟩ (.test op))
  | relock {s : State ι O B K R} {t : ι} {op : O} (h : s.threads t = .woken op)
      (hfree : s.shared.owner = none) :
      Step M s (t, .inner) (s.move t ⟨s.shared.data, some t⟩ (.test op))
  | pass {s : State ι O B K R} {t : ι} {op : O} (h : s.threads t = .test op)
      (hpass : (M.code op).guard.passes s.shared.data) :
      Step M s (t, .inner) (s.move t s.shared (.body op))
  | wait {s : State ι O B K R} {t : ι} {op : O} {c : K} {ready : B → Bool}
      (h : s.threads t = .test op) (hg : (M.code op).guard = .waits c ready)
      (hfail : ready s.shared.data = false) :
      Step M s (t, .inner) (s.move t ⟨s.shared.data, none⟩ (.blocked op))
  | fail {s : State ι O B K R} {t : ι} {op : O} {r : R} {ready : B → Bool}
      (h : s.threads t = .test op) (hg : (M.code op).guard = .fails r ready)
      (hfail : ready s.shared.data = false) :
      Step M s (t, .inner) (s.move t s.shared (.unlock r none))
  | body {s : State ι O B K R} {t : ι} {op : O} (h : s.threads t = .body op) :
      Step M s (t, .inner)
        (s.move t ⟨((M.code op).body s.shared.data).2, s.shared.owner⟩
          (.unlock ((M.code op).body s.shared.data).1 (M.code op).notifies))
  | unlock {s : State ι O B K R} {t : ι} {r : R} {c : Option K}
      (h : s.threads t = .unlock r c) :
      Step M s (t, .inner)
        (s.move t ⟨s.shared.data, none⟩ (Thread.released r c))
  /-- `notify_one` wakes some waiter -/
  | notify {s : State ι O B K R} {t u : ι} {op : O} {r : R} {c : K}
      (h : s.threads t = .notify r c) (hblocked : s.threads u = .blocked op)
      (hc : M.waitsOn op = some c) :
      Step M s (t, .inner)
        ((s.move t s.shared (.done r)).move u s.shared (.woken op))
  /-- `notify_one` finds no waiter -/
  | notifyNone {s : State ι O B K R} {t : ι} {r : R} {c : K}
      (h : s.threads t = .notify r c)
      (hnone : ∀ u op, s.threads u = .blocked op → M.waitsOn op ≠ some c) :
      Step M s (t, .inner) (s.move t s.shared (.done r))
  /-- a spurious wake-up -/
  | wake {s : State ι O B K R} {t : ι} {op : O} (h : s.threads t = .blocked op) :
      Step M s (t, .inner) (s.move t s.shared (.woken op))
  | ret {s : State ι O B K R} {t : ι} {r : R} (h : s.threads t = .done r) :
      Step M s (t, .ret r) (s.move t s.shared .idle)

/-- The monitor called by the threads `ι`. -/
def system (M : Monitor O B K R) (ι : Type y) [DecidableEq ι] :
    Lts (State ι O B K R) (ι × Event O R) where
  init := ⟨⟨M.init, none⟩, fun _ => .idle⟩
  step := Step M

/-! ## The mutex -/

/-- The program points at which a thread holds the mutex. -/
def Thread.Holds : Thread O K R → Prop
  | .test _ | .body _ | .unlock _ _ => True
  | _ => False

/-- A thread past its test runs its section on data that passed. -/
def Thread.Ready (M : Monitor O B K R) (b : B) : Thread O K R → Prop
  | .body op => (M.code op).guard.passes b
  | _ => True

/-- What holds of each thread: it owns the mutex exactly when it is inside. -/
structure Seat (M : Monitor O B K R) (q : Shared ι B) (t : ι)
    (th : Thread O K R) : Prop where
  owner_iff : q.owner = some t ↔ th.Holds
  ready : th.Ready M q.data

def Locked (M : Monitor O B K R) (s : State ι O B K R) : Prop :=
  ∀ t, M.Seat s.shared t (s.threads t)

section Locked

variable {M : Monitor O B K R} {s s' : State ι O B K R} {q : Shared ι B}
  {t : ι} {th th' : Thread O K R}

theorem Seat.keep (h : M.Seat q t th) (hholds : th'.Holds ↔ th.Holds)
    (hready : th'.Ready M q.data) : M.Seat q t th' :=
  ⟨h.owner_iff.trans hholds.symm, hready⟩

/-- A thread outside, which does not own the mutex. -/
theorem seat_outside (howner : q.owner ≠ some t) (hth : ¬th.Holds) :
    M.Seat q t th := by
  refine ⟨iff_of_false howner hth, ?_⟩
  cases th with
  | body op => exact absurd trivial hth
  | _ => trivial

/-- While one thread is inside, the others are outside. -/
theorem Locked.outside (h : M.Locked s) (ht : (s.threads t).Holds) {u : ι}
    (hne : u ≠ t) : ¬(s.threads u).Holds := by
  intro hu
  have hown := ((h t).owner_iff.mpr ht).symm.trans ((h u).owner_iff.mpr hu)
  exact hne (Option.some.inj hown).symm

variable [DecidableEq ι]

/-- A step that leaves the mutex and the data alone. -/
theorem Locked.stay (h : M.Locked s) (hholds : th.Holds ↔ (s.threads t).Holds)
    (hready : th.Ready M s.shared.data) : M.Locked (s.move t s.shared th) :=
  Pool.forall_move (P := M.Seat s.shared) ((h t).keep hholds hready)
    fun u _ => h u

/-- A step of a thread while all others are outside. -/
theorem locked_move (hout : ∀ u, u ≠ t → ¬(s.threads u).Holds)
    (hq : ∀ u, u ≠ t → q.owner ≠ some u) (hth : M.Seat q t th) :
    M.Locked (s.move t q th) :=
  Pool.forall_move (P := M.Seat q) hth fun u hne =>
    seat_outside (hq u hne) (hout u hne)

/-- A step that takes the free mutex. -/
theorem Locked.take {op : O} (h : M.Locked s) (hfree : s.shared.owner = none) :
    M.Locked (s.move t ⟨s.shared.data, some t⟩ (.test op)) := by
  refine locked_move ?_ ?_ ⟨iff_of_true rfl trivial, trivial⟩
  · intro u _
    rw [← (h u).owner_iff, hfree]
    simp
  · intro u hne heq
    exact hne (Option.some.inj heq).symm

/-- A step that releases the mutex. -/
theorem Locked.release (h : M.Locked s) (ht : (s.threads t).Holds)
    (hth : ¬th.Holds) : M.Locked (s.move t ⟨s.shared.data, none⟩ th) :=
  locked_move (fun _ => h.outside ht) (by simp) (seat_outside (by simp) hth)

/-- The critical section itself. -/
theorem Locked.run (h : M.Locked s) (ht : (s.threads t).Holds) (b : B) (r : R)
    (c : Option K) :
    M.Locked (s.move t ⟨b, s.shared.owner⟩ (.unlock r c)) := by
  have hown := (h t).owner_iff.mpr ht
  refine locked_move (fun _ => h.outside ht) ?_ ⟨iff_of_true hown trivial, trivial⟩
  intro u hne heq
  exact hne (Option.some.inj (heq.symm.trans hown))

theorem Locked.step {a : ι × Event O R} (h : M.Locked s)
    (hstep : Step M s a s') : M.Locked s' := by
  cases hstep with
  | lock ht hfree | relock ht hfree => exact h.take hfree
  | wait ht => exact h.release (by rw [ht]; trivial) id
  | body ht => exact h.run (by rw [ht]; trivial) _ _ _
  | @unlock _ _ c ht =>
      apply h.release (by rw [ht]; trivial)
      cases c <;> exact id
  | pass ht hpass => exact h.stay (by rw [ht]; exact Iff.rfl) hpass
  | fail ht => exact h.stay (by rw [ht]; exact Iff.rfl) trivial
  | @notify t u op r c ht hblocked =>
      have hne : u ≠ t := by
        rintro rfl
        rw [ht] at hblocked
        cases hblocked
      have hdone : M.Locked (s.move t s.shared (.done r)) :=
        h.stay (by rw [ht]; exact Iff.rfl) trivial
      refine hdone.stay ?_ trivial
      rw [Pool.move_threads_of_ne s _ _ hne, hblocked]
      exact Iff.rfl
  | call _ ht | notifyNone ht | wake ht | ret ht =>
      exact h.stay (by rw [ht]; exact Iff.rfl) trivial

end Locked

/-! ## Waiters and what they wait for -/

/-- The condition variable a thread is blocked on. -/
def Thread.waitingOn (M : Monitor O B K R) : Thread O K R → Option K
  | .blocked op => M.waitsOn op
  | _ => none

/-- The condition variable whose waiters a thread still answers for: it will
notify one of them, or is itself on its way to the test. -/
def Thread.owes (M : Monitor O B K R) : Thread O K R → Option K
  | .test op | .body op | .woken op => M.waitsOn op
  | .unlock _ c => c
  | .notify _ c => some c
  | _ => none

section Points

variable (M : Monitor O B K R) (op : O) (r : R) (c : K) (d : Option K)

@[simp] theorem waitingOn_idle :
    (.idle : Thread O K R).waitingOn M = none := rfl
@[simp] theorem waitingOn_lock :
    (.lock op : Thread O K R).waitingOn M = none := rfl
@[simp] theorem waitingOn_test :
    (.test op : Thread O K R).waitingOn M = none := rfl
@[simp] theorem waitingOn_body :
    (.body op : Thread O K R).waitingOn M = none := rfl
@[simp] theorem waitingOn_unlock :
    (.unlock r d : Thread O K R).waitingOn M = none := rfl
@[simp] theorem waitingOn_blocked :
    (.blocked op : Thread O K R).waitingOn M = M.waitsOn op := rfl
@[simp] theorem waitingOn_woken :
    (.woken op : Thread O K R).waitingOn M = none := rfl
@[simp] theorem waitingOn_done :
    (.done r : Thread O K R).waitingOn M = none := rfl
@[simp] theorem waitingOn_released :
    (Thread.released r d : Thread O K R).waitingOn M = none := by
  cases d <;> rfl

@[simp] theorem owes_idle : (.idle : Thread O K R).owes M = none := rfl
@[simp] theorem owes_lock : (.lock op : Thread O K R).owes M = none := rfl
@[simp] theorem owes_test :
    (.test op : Thread O K R).owes M = M.waitsOn op := rfl
@[simp] theorem owes_body :
    (.body op : Thread O K R).owes M = M.waitsOn op := rfl
@[simp] theorem owes_unlock : (.unlock r d : Thread O K R).owes M = d := rfl
@[simp] theorem owes_blocked :
    (.blocked op : Thread O K R).owes M = none := rfl
@[simp] theorem owes_woken :
    (.woken op : Thread O K R).owes M = M.waitsOn op := rfl
@[simp] theorem owes_notify :
    (.notify r c : Thread O K R).owes M = some c := rfl
@[simp] theorem owes_done : (.done r : Thread O K R).owes M = none := rfl
@[simp] theorem owes_released :
    (Thread.released r d : Thread O K R).owes M = d := by
  cases d <;> rfl

end Points

/-- Nobody holds the mutex, no notification is still to be sent, and no woken
waiter is on its way to the test. -/
structure Quiet (s : State ι O B K R) : Prop where
  free : s.shared.owner = none
  no_notify : ∀ t r c, s.threads t ≠ .notify r c
  no_woken : ∀ t op, s.threads t ≠ .woken op

/-- In a quiet state no thread answers for a waiter. -/
theorem Quiet.owes_eq {M : Monitor O B K R} {s : State ι O B K R}
    (hq : Quiet s) (hlocked : M.Locked s) (t : ι) :
    (s.threads t).owes M = none := by
  have hout : ¬(s.threads t).Holds := by
    rw [← (hlocked t).owner_iff, hq.free]
    simp
  have hnotify := hq.no_notify t
  have hwoken := hq.no_woken t
  generalize s.threads t = th at hout hnotify hwoken
  cases th with
  | test op | body op | unlock r c => exact absurd trivial hout
  | woken op => exact absurd rfl (hwoken op)
  | notify r c => exact absurd rfl (hnotify r c)
  | idle | lock op | blocked op | done r => rfl

/-- What the waiters of each condition variable wait for, in units.  A section
adds a unit only if it notifies, and one that had to wait takes a unit. -/
structure Supplies [DecidableEq K] (M : Monitor O B K R) (supply : K → B → ℕ) :
    Prop where
  exhausted_iff : ∀ op c ready b, (M.code op).guard = .waits c ready →
    (ready b = false ↔ supply c b = 0)
  balance : ∀ op c b, (M.code op).guard.passes b →
    supply c ((M.code op).body b).2 + (if M.waitsOn op = some c then 1 else 0) ≤
      supply c b + (if (M.code op).notifies = some c then 1 else 0)

/-- While somebody waits for `c`, a thread answers for each unit of its
supply. -/
def Covered (M : Monitor O B K R) (supply : K → B → ℕ) (c : K)
    (s : State ι O B K R) : Prop :=
  (∃ t, (s.threads t).waitingOn M = some c) →
    (supply c s.shared.data : ℕ∞) ≤ s.count fun th => th.owes M = some c

section Covered

variable [DecidableEq K] [DecidableEq ι] {M : Monitor O B K R}
  {supply : K → B → ℕ} {c : K} {s s' : State ι O B K R}

/-- A step of one thread, which begins no wait for `c`. -/
theorem Covered.move {t : ι} {q : Shared ι B} {th : Thread O K R}
    (h : M.Covered supply c s)
    (hwait : th.waitingOn M = some c → (s.threads t).waitingOn M = some c)
    (hsupply : supply c q.data +
        (if (s.threads t).owes M = some c then 1 else 0) ≤
      supply c s.shared.data + (if th.owes M = some c then 1 else 0)) :
    M.Covered supply c (s.move t q th) := by
  rintro ⟨u, hu⟩
  have hold : ∃ u, (s.threads u).waitingOn M = some c := by
    by_cases heq : u = t
    · subst heq
      rw [Pool.move_threads_self] at hu
      exact ⟨u, hwait hu⟩
    · rw [Pool.move_threads_of_ne s q th heq] at hu
      exact ⟨u, hu⟩
  have hcount := s.count_move t q th fun th => th.owes M = some c
  have hle : ((supply c q.data : ℕ∞) +
      if (s.threads t).owes M = some c then 1 else 0) ≤
        supply c s.shared.data + if th.owes M = some c then 1 else 0 := by
    exact_mod_cast hsupply
  have hbound := (hle.trans (add_le_add_left (h hold) _)).trans hcount.ge
  refine (ENat.add_le_add_iff_right ?_).mp hbound
  split <;> simp

omit [DecidableEq K] [DecidableEq ι] in
/-- Nothing is left to wait for. -/
theorem covered_of_exhausted (h : supply c s.shared.data = 0) :
    M.Covered supply c s := by
  intro _
  simp [h]

/-- The notification passes from its sender to the thread it wakes. -/
theorem Covered.notify {t t' : ι} {op : O} {r : R} {d : K}
    (h : M.Covered supply c s) (ht : s.threads t = .notify r d)
    (hblocked : s.threads t' = .blocked op) (hd : M.waitsOn op = some d) :
    M.Covered supply c
      ((s.move t s.shared (.done r)).move t' s.shared (.woken op)) := by
  have hne : t' ≠ t := by
    rintro rfl
    rw [ht] at hblocked
    cases hblocked
  have hsent := s.count_move t s.shared (.done r) fun th => th.owes M = some c
  have hgot := (s.move t s.shared (.done r)).count_move t' s.shared (.woken op)
    fun th => th.owes M = some c
  rw [ht] at hsent
  rw [Pool.move_threads_of_ne s _ _ hne, hblocked] at hgot
  simp only [owes_notify, owes_done, owes_blocked, owes_woken, hd, reduceCtorEq,
    if_false, add_zero] at hsent hgot
  rintro ⟨u, hu⟩
  have hold : ∃ u, (s.threads u).waitingOn M = some c := by
    refine ⟨u, ?_⟩
    by_cases heq' : u = t'
    · subst heq'
      rw [Pool.move_threads_self] at hu
      cases hu
    · rw [Pool.move_threads_of_ne _ _ _ heq'] at hu
      by_cases heq : u = t
      · subst heq
        rw [Pool.move_threads_self] at hu
        cases hu
      · rwa [Pool.move_threads_of_ne _ _ _ heq] at hu
  apply (h hold).trans_eq
  exact (hsent.symm.trans (by congr)).trans hgot.symm

theorem Covered.step {a : ι × Event O R} (hM : M.Supplies supply)
    (hlocked : M.Locked s) (h : M.Covered supply c s)
    (hstep : Step M s a s') : M.Covered supply c s' := by
  cases hstep with
  | call _ ht | lock ht | wake ht | ret ht =>
      exact h.move (by simp) (by simp [ht])
  | relock ht | pass ht => exact h.move (by simp) (by rw [ht]; exact le_rfl)
  | unlock ht => exact h.move (by simp) (by simp [ht])
  | @wait t op d ready ht hg hfail =>
      have hwaits : M.waitsOn op = some d := by rw [waitsOn, hg]; rfl
      by_cases heq : d = c
      · subst heq
        exact covered_of_exhausted
          ((hM.exhausted_iff op d ready _ hg).mp hfail)
      · exact h.move (by simp [hwaits, heq]) (by simp [ht, hwaits, heq])
  | @fail t op r ready ht hg =>
      have hwaits : M.waitsOn op = none := by rw [waitsOn, hg]; rfl
      exact h.move (by simp) (by simp [ht, hwaits])
  | @body t op ht =>
      have hready := (hlocked t).ready
      rw [ht] at hready
      apply h.move (by simp)
      rw [ht]
      exact hM.balance op c _ hready
  | notify ht hblocked hd => exact h.notify ht hblocked hd
  | @notifyNone t r d ht hnone =>
      by_cases heq : d = c
      · subst heq
        rintro ⟨u, hu⟩
        by_cases hut : u = t
        · subst hut
          simp at hu
        · rw [Pool.move_threads_of_ne s _ _ hut] at hu
          cases hth : s.threads u with
          | blocked op =>
              rw [hth] at hu
              exact absurd hu (hnone u op hth)
          | _ =>
              rw [hth] at hu
              cases hu
      · exact h.move (by simp) (by simp [ht, heq])

end Covered

/-! ## Runs -/

section Runs

variable [DecidableEq ι] {M : Monitor O B K R} {tr : List (ι × Event O R)}
  {s : State ι O B K R}

theorem locked_of_run (hrun : (M.system ι).Run tr s) : M.Locked s := by
  refine Lts.Run.induction (P := fun _ s => M.Locked s) ?_ ?_ hrun
  · exact fun t => seat_outside (by simp [system]) id
  · exact fun tr s a s' _ h hstep => h.step hstep

/-- When every thread in a call is blocked, everything has settled. -/
theorem quiet_of_all_blocked (hrun : (M.system ι).Run tr s)
    (hall : ∀ t, s.threads t = .idle ∨ ∃ op, s.threads t = .blocked op) :
    Quiet s := by
  refine ⟨?_, ?_, ?_⟩
  · by_contra hown
    obtain ⟨t, ht⟩ := Option.ne_none_iff_exists'.mp hown
    have hholds := (locked_of_run hrun t).owner_iff.mp ht
    rcases hall t with hidle | ⟨op, hblocked⟩
    · rw [hidle] at hholds
      exact hholds
    · rw [hblocked] at hholds
      exact hholds
  · intro t r c hnotify
    rcases hall t with h | ⟨op, h⟩ <;> rw [hnotify] at h <;> cases h
  · intro t op hwoken
    rcases hall t with h | ⟨op', h⟩ <;> rw [hwoken] at h <;> cases h

variable [DecidableEq K] {supply : K → B → ℕ} {c : K}

theorem covered_of_run (hM : M.Supplies supply) (c : K)
    (hrun : (M.system ι).Run tr s) : M.Covered supply c s := by
  refine Lts.Run.induction (P := fun _ s => M.Covered supply c s) ?_ ?_ hrun
  · rintro ⟨t, ht⟩
    cases ht
  · exact fun tr s a s' hrun h hstep => h.step hM (locked_of_run hrun) hstep

/-- No wake-up is lost: whoever is still blocked when everything has settled
waits for something of which nothing is left. -/
theorem supply_eq_zero_of_waiting (hM : M.Supplies supply)
    (hrun : (M.system ι).Run tr s) (hq : Quiet s) {t : ι}
    (ht : (s.threads t).waitingOn M = some c) :
    supply c s.shared.data = 0 := by
  have hcovered := covered_of_run hM c hrun ⟨t, ht⟩
  have hlocked := locked_of_run hrun
  rw [Pool.count_eq_zero fun u => by simp [hq.owes_eq hlocked u]] at hcovered
  exact_mod_cast nonpos_iff_eq_zero.mp hcovered

end Runs

end Monitor
end ConcurrentQueues
