import ConcurrentQueues.Mpmc.Refusals
import ConcurrentQueues.Support.Abandon

/-!
# Copies that throw in the queues for many threads

The copy assignment of an item stands between the claim of an index and the
store of the sequence number, and neither queue catches what it throws.  The
call ends, and the index it claimed stays claimed.  To the other threads it is
as if the caller had stopped for ever inside the copy: the cell of a push that
threw is never published, the cell of a pop that threw is never released, and
its item is returned to nobody.
-/

namespace ConcurrentQueues

universe u v

open Fifo

/-! ## Calls that may throw -/

namespace StdAtomicMPMCQueue

variable {T : Type u}

/-- The index claimed by a call whose copy throws. -/
def Thread.throws : Thread T → Option (Index × ℕ)
  | .push _ (.copying idx) => some (.write, idx)
  | .pop _ (.copying idx) => some (.read, idx)
  | _ => none

/-- All interleavings of calls whose copies may throw. -/
def throwing (S : SizeT) (n : ℕ) (ι : Type v) [DecidableEq ι] (T : Type u) :
    Lts (State ι T) (ι × (Event T ⊕ (Index × ℕ))) :=
  Pool.lts ι (Pool.Moves (Pool.abandoning (move S n) Thread.throws .idle))
    (Queue.new S) .idle

/-- The cell of a claimed index that is never published, or never released, and
how far the positions can go. -/
def Broken (n : ℕ) (q : Queue T) : Index × ℕ → Prop
  | (.write, k) => q.readIdx.val ≤ k ∧ k < q.writeIdx.val ∧
      q.writeIdx.val ≤ k + n ∧ q.seqOf n k = k
  | (.read, k) => k < q.readIdx.val ∧ q.writeIdx.val ≤ k + n ∧
      q.seqOf n k = k + 1

variable {ι : Type v} {n : ℕ} {log : List T} {s : State ι T} {t : ι}

/-- The cell of a thread inside a copy is as a throw would leave it. -/
theorem Inv.broken (hI : Inv n log s) {x : Index × ℕ}
    (hx : (s.threads t).throws = some x) : Broken n s.shared x := by
  have hcap := hI.shared.write_le
  have hpc := hI.thread t
  generalize s.threads t = th at hx hpc
  cases th with
  | push item pc =>
      cases pc with
      | copying idx =>
          obtain rfl := Option.some.inj hx
          have hown : Writing n log s.shared item idx := hpc
          have := hown.read_le
          exact ⟨hown.read_le, hown.lt_write, by omega, hown.seq_eq⟩
      | _ => cases hx
  | pop item pc =>
      cases pc with
      | copying idx =>
          obtain rfl := Option.some.inj hx
          have hown : Reading n s.shared idx := hpc
          exact ⟨hown.lt_read, hown.write_le, hown.seq_eq⟩
      | _ => cases hx
  | _ => cases hx

theorem popping_of_throws {th : Thread T} {k : ℕ}
    (h : th.throws = some (.read, k)) : th.popping = some k := by
  cases th with
  | push item pc => cases pc <;> cases h
  | pop item pc =>
      cases pc with
      | copying idx =>
          cases h
          rfl
      | _ => cases h
  | _ => cases h

end StdAtomicMPMCQueue

namespace MpmcBoundedQueue

open StdAtomicMPMCQueue (Index Queue)

variable {T : Type u}

/-- The position claimed by a call whose copy throws. -/
def Thread.throws : Thread T → Option (Index × ℕ)
  | .enqueue _ (.copying pos) => some (.write, pos)
  | .dequeue _ (.copying pos) => some (.read, pos)
  | _ => none

/-- All interleavings of calls whose copies may throw. -/
def throwing (S : SizeT) (n : ℕ) (r : Caller) (ι : Type v) [DecidableEq ι]
    (T : Type u) : Lts (State ι T) (ι × (Event T ⊕ (Index × ℕ))) :=
  Pool.lts ι (Pool.Moves (Pool.abandoning (move S n r) Thread.throws .idle))
    (Queue.new S) .idle

theorem throws_view (th : Thread T) : th.view.throws = th.throws := by
  cases th with
  | enqueue data pc | dequeue data pc => cases pc <;> rfl
  | _ => rfl

theorem dequeuing_of_throws {th : Thread T} {k : ℕ}
    (h : th.throws = some (.read, k)) : th.dequeuing = some k := by
  cases th with
  | enqueue data pc => cases pc <;> cases h
  | dequeue data pc =>
      cases pc with
      | copying pos =>
          cases h
          rfl
      | _ => cases h
  | _ => cases h

end MpmcBoundedQueue

/-! ## What a throw leaves behind -/

open StdAtomicMPMCQueue (Index Queue Broken)

section Stopped

variable {ι : Type v} {T : Type u} {Th E : Type*} {n : ℕ}

variable {K : Tickets (Queue T) Th E}
  {tr' : List ((ι × ℕ) × E)} {a : Pool (ι × ℕ) (Queue T) Th}

/-- No pop returns the index of a call that threw: the index of a push is not
reached, and the index of a pop is held by the stopped thread. -/
theorem not_returned (hA : K.Accounts tr' a)
    (hnext : K.next a.shared = a.shared.readIdx.val) {t : ι × ℕ} {x : Index}
    {k : ℕ} (hbroken : Broken n a.shared (x, k))
    (hholds : x = .read → K.holding (a.threads t) = some k) :
    k ∉ K.returned tr' := by
  intro hk
  cases x with
  | write =>
      have hlt := hA.returned_lt k hk
      have hle : a.shared.readIdx.val ≤ k := hbroken.1
      omega
  | read => exact hA.holding_fresh t k (hholds rfl) hk

variable [DecidableEq ι]

/-- The calls that threw have stopped for ever.  `M` is the queue without
exceptions, in which they stand where `gives` says what they hold, and `returns`
tells the index of a pop that returns. -/
structure LikeStopped (n : ℕ)
    (M : Lts (Pool (ι × ℕ) (Queue T) Th) ((ι × ℕ) × E))
    (gives : Th → Option (Index × ℕ)) (th₀ : Th) (returns : E → Option ℕ)
    (tr : List (ι × (E ⊕ (Index × ℕ)))) (s : Pool ι (Queue T) Th) : Prop where
  run : ∃ tr' a, M.Run tr' a ∧
    tr'.filterMap Pool.ofLife = tr.filterMap Pool.kept ∧
    Pool.Outlives gives th₀ tr s a
  broken : ∀ t x, (t, .inr x) ∈ tr → Broken n s.shared x
  lost : ∀ t x k, (t, .inr (x, k)) ∈ tr →
    ∀ u e, returns e = some k → (u, .inl e) ∉ tr

variable {gives : Th → Option (Index × ℕ)} {th₀ : Th}
  {tr : List (ι × (E ⊕ (Index × ℕ)))} {s : Pool ι (Queue T) Th}
  {M : Lts (Pool (ι × ℕ) (Queue T) Th) ((ι × ℕ) × E)}

theorem likeStopped (hrun : M.Run tr' a)
    (htr : tr'.filterMap Pool.ofLife = tr.filterMap Pool.kept)
    (hout : Pool.Outlives gives th₀ tr s a) (hA : K.Accounts tr' a)
    (hnext : K.next a.shared = a.shared.readIdx.val)
    (hbroken : ∀ t x, gives (a.threads t) = some x → Broken n a.shared x)
    (hholds : ∀ t k, gives (a.threads t) = some (.read, k) →
      K.holding (a.threads t) = some k) :
    LikeStopped n M gives th₀ K.returns tr s where
  run := ⟨tr', a, hrun, htr, hout⟩
  broken t x hmem := by
    obtain ⟨g, -, hg⟩ := hout.stopped t x hmem
    rw [← hout.shared]
    exact hbroken _ x hg
  lost t x k hmem u e he hret := by
    obtain ⟨g, -, hg⟩ := hout.stopped t (x, k) hmem
    have hkept : (u, e) ∈ tr'.filterMap Pool.ofLife := by
      rw [htr, List.mem_filterMap]
      exact ⟨_, hret, rfl⟩
    obtain ⟨⟨⟨v, j⟩, e'⟩, hmem', heq⟩ := List.mem_filterMap.mp hkept
    obtain ⟨rfl, rfl⟩ := Prod.mk.inj (Option.some.inj heq)
    refine not_returned hA hnext (t := (t, g)) (hbroken _ _ hg) ?_
      (List.mem_filterMap.mpr ⟨_, hmem', he⟩)
    rintro rfl
    exact hholds _ k hg

end Stopped

section Queues

variable {ι : Type v} [DecidableEq ι] {T : Type u} {n : ℕ}

theorem std_like_stopped (hn : 2 ≤ n)
    {tr : List (ι × (StdAtomicMPMCQueue.Event T ⊕ (Index × ℕ)))}
    {s : StdAtomicMPMCQueue.State ι T}
    (hrun : (StdAtomicMPMCQueue.throwing .unbounded n ι T).Run tr s) :
    LikeStopped n (StdAtomicMPMCQueue.system .unbounded n (ι × ℕ) T)
      StdAtomicMPMCQueue.Thread.throws .idle
      StdAtomicMPMCQueue.popTickets.returns tr s := by
  obtain ⟨tr', a, hrun', htr, hout⟩ := Pool.run_of_abandoning hrun
  have hI := StdAtomicMPMCQueue.inv_of_run hn hrun'
  refine likeStopped hrun' htr hout (StdAtomicMPMCQueue.pop_accounts hrun')
    rfl (fun t x hx => hI.broken hx) ?_
  exact fun t k hk => StdAtomicMPMCQueue.popping_of_throws hk

theorem bounded_like_stopped (hn : 2 ≤ n) (hpow : ∃ k, n = 2 ^ k)
    {r : MpmcBoundedQueue.Caller}
    {tr : List (ι × (MpmcBoundedQueue.Event T ⊕ (Index × ℕ)))}
    {s : MpmcBoundedQueue.State ι T}
    (hrun : (MpmcBoundedQueue.throwing .unbounded n r ι T).Run tr s) :
    LikeStopped n (MpmcBoundedQueue.system .unbounded n r (ι × ℕ) T)
      MpmcBoundedQueue.Thread.throws .idle
      MpmcBoundedQueue.dequeueTickets.returns tr s := by
  obtain ⟨tr', a, hrun', htr, hout⟩ := Pool.run_of_abandoning hrun
  have hI := MpmcBoundedQueue.inv_of_run hn hpow hrun'
  refine likeStopped hrun' htr hout
    (MpmcBoundedQueue.dequeue_accounts (by omega) hpow hrun') rfl ?_
    (fun t k hk => MpmcBoundedQueue.dequeuing_of_throws hk)
  intro t x hx
  rw [← MpmcBoundedQueue.throws_view] at hx
  exact hI.broken (t := t) hx

/-- In both queues a call whose copy throws is like a call that stops for ever
inside its copy. -/
theorem throwing_like_stopped (hn : 2 ≤ n) :
    (∀ tr s, (StdAtomicMPMCQueue.throwing .unbounded n ι T).Run tr s →
      LikeStopped n (StdAtomicMPMCQueue.system .unbounded n (ι × ℕ) T)
        StdAtomicMPMCQueue.Thread.throws .idle
        StdAtomicMPMCQueue.popTickets.returns tr s) ∧
    ((∃ k, n = 2 ^ k) → ∀ r tr s,
      (MpmcBoundedQueue.throwing .unbounded n r ι T).Run tr s →
        LikeStopped n (MpmcBoundedQueue.system .unbounded n r (ι × ℕ) T)
          MpmcBoundedQueue.Thread.throws .idle
          MpmcBoundedQueue.dequeueTickets.returns tr s) :=
  ⟨fun _ _ hrun => std_like_stopped hn hrun,
    fun hpow _ _ _ hrun => bounded_like_stopped hn hpow hrun⟩

end Queues

/-! ## A push and a pop that throw -/

section Runs

open StdAtomicMPMCQueue (Choice)

/-- A call of thread 0 whose copy throws. -/
def thrown (op : Op ℕ) : List (Fin 2 × Option (Choice ℕ)) :=
  [some (.call op), some (.see 0), some .go, some .go, some .go, none].map
    ((0, ·))

/-- A call of thread 1 that returns. -/
def returned (op : Op ℕ) : List (Fin 2 × Option (Choice ℕ)) :=
  [.call op, .see 0, .go, .go, .go, .go, .go, .go].map ((1, some ·))

theorem throwing_like_stopped_push :
    (∃ tr s, (StdAtomicMPMCQueue.throwing .unbounded 2 (Fin 2) ℕ).Run tr s ∧
      (0, .inr (.write, 0)) ∈ tr ∧
      LikeStopped 2 (StdAtomicMPMCQueue.system .unbounded 2 (Fin 2 × ℕ) ℕ)
        StdAtomicMPMCQueue.Thread.throws .idle
        StdAtomicMPMCQueue.popTickets.returns tr s) ∧
    ∃ tr s, (MpmcBoundedQueue.throwing .unbounded 2 .once (Fin 2) ℕ).Run tr s ∧
      (0, .inr (.write, 0)) ∈ tr ∧
      LikeStopped 2 (MpmcBoundedQueue.system .unbounded 2 .once (Fin 2 × ℕ) ℕ)
        MpmcBoundedQueue.Thread.throws .idle
        MpmcBoundedQueue.dequeueTickets.returns tr s := by
  constructor
  · obtain ⟨⟨tr, s⟩, hexec, hlast⟩ := Option.map_eq_some_iff.mp
      (show (Lts.exec (Pool.next (Pool.abandoning
            (StdAtomicMPMCQueue.move .unbounded 2)
            StdAtomicMPMCQueue.Thread.throws .idle))
          ⟨Queue.new .unbounded, fun _ => .idle⟩ (thrown (.push 5))).map
          (fun r => r.1.getLast?) = some (some (0, .inr (.write, 0)))
        by decide +kernel)
    have hrun : (StdAtomicMPMCQueue.throwing .unbounded 2 (Fin 2) ℕ).Run tr s :=
      Pool.run_of_exec hexec
    exact ⟨tr, s, hrun, List.mem_of_getLast? hlast,
      (throwing_like_stopped le_rfl).1 tr s hrun⟩
  · obtain ⟨⟨tr, s⟩, hexec, hlast⟩ := Option.map_eq_some_iff.mp
      (show (Lts.exec (Pool.next (Pool.abandoning
            (MpmcBoundedQueue.move .unbounded 2 .once)
            MpmcBoundedQueue.Thread.throws .idle))
          ⟨Queue.new .unbounded, fun _ => .idle⟩ (thrown (.push 5))).map
          (fun r => r.1.getLast?) = some (some (0, .inr (.write, 0)))
        by decide +kernel)
    have hrun : (MpmcBoundedQueue.throwing .unbounded 2 .once (Fin 2) ℕ).Run tr
        s := Pool.run_of_exec hexec
    exact ⟨tr, s, hrun, List.mem_of_getLast? hlast,
      (throwing_like_stopped le_rfl).2 ⟨1, rfl⟩ .once tr s hrun⟩

/-- After a push that threw, with no call in progress, its index is claimed and
its cell never published, and no pop claims an index although an item was
pushed.  After a pop that threw, its item is returned by no pop. -/
theorem throwing_copy_harms :
    (∃ tr s, (StdAtomicMPMCQueue.throwing .unbounded 2 (Fin 2) ℕ).Run tr s ∧
      (0, .inr (.write, 0)) ∈ tr ∧ (1, .inl (.ret 1 (.pushed true))) ∈ tr ∧
      (∀ t, s.threads t = .idle) ∧ s.shared.writeIdx.val = 2 ∧
      ∀ tr' s',
        (StdAtomicMPMCQueue.throwing .unbounded 2 (Fin 2) ℕ).Path s tr' s' →
          s'.shared.readIdx.val = 0 ∧ s'.shared.seqOf 2 0 = 0) ∧
    ∃ tr s, (StdAtomicMPMCQueue.throwing .unbounded 2 (Fin 2) ℕ).Run tr s ∧
      (1, .inl (.ret 0 (.pushed true))) ∈ tr ∧ (0, .inr (.read, 0)) ∈ tr ∧
      (∀ t, s.threads t = .idle) ∧
      ∀ tr' s',
        (StdAtomicMPMCQueue.throwing .unbounded 2 (Fin 2) ℕ).Path s tr' s' →
          s'.shared.writeIdx.val ≤ 2 ∧
            ∀ t item, (t, .inl (.ret 0 (.popped item))) ∉ tr ++ tr' := by
  constructor
  · obtain ⟨⟨tr, s⟩, hexec, hlast⟩ := Option.map_eq_some_iff.mp
      (show (Lts.exec (Pool.next (Pool.abandoning
            (StdAtomicMPMCQueue.move .unbounded 2)
            StdAtomicMPMCQueue.Thread.throws .idle))
          ⟨Queue.new .unbounded, fun _ => .idle⟩
          (thrown (.push 5) ++ returned (.push 6))).map
          (fun r => decide (r.1[5]? = some (0, .inr (.write, 0)) ∧
            r.1.getLast? = some (1, .inl (.ret 1 (.pushed true))) ∧
            (∀ t, r.2.threads t = .idle) ∧ r.2.shared.writeIdx.val = 2)) =
        some true
        by decide +kernel)
    obtain ⟨hfifth, hlast, hidle, hwrite⟩ := of_decide_eq_true hlast
    have hthrown := List.mem_of_getElem? hfifth
    have hrun : (StdAtomicMPMCQueue.throwing .unbounded 2 (Fin 2) ℕ).Run tr s :=
      Pool.run_of_exec hexec
    refine ⟨tr, s, hrun, hthrown, List.mem_of_getLast? hlast, hidle,
      hwrite, ?_⟩
    intro tr' s' hpath
    have hstopped := std_like_stopped le_rfl (Lts.Path.trans hrun hpath)
    have hbroken := hstopped.broken 0 _ (List.mem_append_left tr' hthrown)
    exact ⟨Nat.le_zero.mp hbroken.1, hbroken.2.2.2⟩
  · obtain ⟨⟨tr, s⟩, hexec, hlast⟩ := Option.map_eq_some_iff.mp
      (show (Lts.exec (Pool.next (Pool.abandoning
            (StdAtomicMPMCQueue.move .unbounded 2)
            StdAtomicMPMCQueue.Thread.throws .idle))
          ⟨Queue.new .unbounded, fun _ => .idle⟩
          (returned (.push 5) ++ thrown .pop)).map
          (fun r => decide (
            r.1[7]? = some (1, .inl (.ret 0 (.pushed true))) ∧
            r.1.getLast? = some (0, .inr (.read, 0)) ∧
            ∀ t, r.2.threads t = .idle)) = some true
        by decide +kernel)
    obtain ⟨hreturned, hlast, hidle⟩ := of_decide_eq_true hlast
    have hrun : (StdAtomicMPMCQueue.throwing .unbounded 2 (Fin 2) ℕ).Run tr s :=
      Pool.run_of_exec hexec
    have hthrown := List.mem_of_getLast? hlast
    refine ⟨tr, s, hrun, List.mem_of_getElem? hreturned, hthrown, hidle, ?_⟩
    intro tr' s' hpath
    have hstopped := std_like_stopped le_rfl (Lts.Path.trans hrun hpath)
    have hmem := List.mem_append_left tr' hthrown
    have hbroken := hstopped.broken 0 _ hmem
    exact ⟨hbroken.2.1, fun t item => hstopped.lost 0 _ 0 hmem t _ rfl⟩

end Runs

end ConcurrentQueues
