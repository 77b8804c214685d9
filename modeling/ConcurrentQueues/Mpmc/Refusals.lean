import ConcurrentQueues.Mpmc.Bounded
import ConcurrentQueues.Mpmc.Linearizable

/-!
# When `mpmc_bounded_queue` returns `false`

A call returns `false` when the sequence number of one cell lies behind the
position it holds.  A stale position never sees that, so the position is the
newest one at the test.  The cell then tells about its own position only: a
`dequeue` finds that the item at `dequeue_pos_` is not there, because there is
none or because the `enqueue` that claimed the position has not stored it yet,
and an `enqueue` finds its cell unread or still being read.

The items behind the missing one may be there all the same, and so may the room
behind the cell still being read.
-/

namespace ConcurrentQueues

universe u v

namespace MpmcBoundedQueue

open Fifo
open StdAtomicMPMCQueue (Queue Pc Choice SharedInv Inv)

variable {ι : Type v} {T : Type u} {n : ℕ}

/-! ## Sequence numbers behind a position -/

section Shared

variable {log : List T} {q : Queue T} {pos : ℕ}

/-- The cell of a stale `enqueue_pos_` is not behind it. -/
theorem seqOf_stale_enqueue (hn : 2 ≤ n) (h : SharedInv n log q)
    (hpos : pos < q.writeIdx.val) : pos ≤ q.seqOf n pos := by
  have hread := h.read_le
  have hcap := h.write_le
  obtain ⟨i, hlo, hhi, hslot⟩ :=
    Ring.exists_slot_eq (show 0 < n by omega) q.readIdx.val pos
  have hle : pos ≤ i := by
    by_contra hlt
    have := Ring.add_le_of_slot_eq hslot (not_le.mp hlt)
    omega
  have hcell : q.seqOf n pos = q.seqOf n i :=
    StdAtomicMPMCQueue.seqOf_congr hslot.symm
  rw [hcell]
  by_cases hi : i < q.writeIdx.val
  · rcases h.seq_pushed i hlo hi with hseq | hseq <;> omega
  · -- the cell is free for a later lap
    have := Ring.add_le_of_slot_eq hslot.symm (by omega)
    rcases h.seq_free i (by omega) hhi with hseq | ⟨-, hseq⟩ <;> omega

/-- The cell of a stale `dequeue_pos_` is past it. -/
theorem seqOf_stale_dequeue (hn : 2 ≤ n) (h : SharedInv n log q)
    (hpos : pos < q.readIdx.val) : pos + 1 ≤ q.seqOf n pos := by
  obtain ⟨i, hlo, hhi, hslot⟩ :=
    Ring.exists_slot_eq (show 0 < n by omega) q.readIdx.val pos
  have hlap := Ring.add_le_of_slot_eq hslot.symm (by omega)
  have hcell : q.seqOf n pos = q.seqOf n i :=
    StdAtomicMPMCQueue.seqOf_congr hslot.symm
  rw [hcell]
  by_cases hi : i < q.writeIdx.val
  · rcases h.seq_pushed i hlo hi with hseq | hseq <;> omega
  · rcases h.seq_free i (by omega) hhi with hseq | ⟨-, hseq⟩ <;> omega

end Shared

/-! ## What a refusal says -/

/-- The position an enqueue has claimed and not yet stored. -/
def Thread.writing (th : Thread T) : Option ℕ :=
  th.view.writing

/-- The position a dequeue has claimed and not yet released. -/
def Thread.reading (th : Thread T) : Option ℕ :=
  th.view.reading

/-- The item at `dequeue_pos_` is not there, or the cell at `enqueue_pos_` is
not free. -/
def Justifies (n : ℕ) (s : State ι T) : Res T → Prop
  | .popped _ =>
      s.shared.writeIdx.val = s.shared.readIdx.val ∨
        ∃ t, (s.threads t).writing = some s.shared.readIdx.val
  | .pushed _ =>
      s.shared.writeIdx.val = s.shared.readIdx.val + n ∨
        ∃ t pos, (s.threads t).reading = some pos ∧
          pos + n = s.shared.writeIdx.val

/-- The start of a call by `t`. -/
def Starts (t : ι) (a : ι × Event T) : Prop :=
  a.1 = t ∧ ∃ op, a.2 = .step (.call op)

section Test

variable {log : List T} {s : State ι T} {t : ι} {pos : ℕ}

theorem justifies_enqueue (hn : 2 ≤ n) (hI : Inv n log (s.map Thread.view))
    {data : T} (hth : s.threads t = .enqueue data (.check pos))
    (hdif : SizeT.unbounded.signedDif (s.shared.seqOf n pos) pos < 0)
    (b : Bool) : Justifies n s (.pushed b) := by
  rw [SizeT.signedDif_unbounded] at hdif
  have hbehind : s.shared.seqOf n pos < pos := by omega
  have hshared : SharedInv n log s.shared := hI.shared
  have hle : pos ≤ s.shared.writeIdx.val := by
    have hview : (s.map Thread.view).threads t = .push data (.check pos) :=
      congrArg Thread.view hth
    have := hI.thread t
    rwa [hview] at this
  have hnewest : pos = s.shared.writeIdx.val := by
    by_contra hne
    have := seqOf_stale_enqueue hn hshared (lt_of_le_of_ne hle hne)
    omega
  subst hnewest
  have hcap := hshared.write_le
  by_cases hfull : s.shared.writeIdx.val = s.shared.readIdx.val + n
  · exact Or.inl hfull
  · -- the cell is read on the lap before
    rcases hshared.seq_free _ le_rfl (by omega) with hseq | ⟨hlap, hseq⟩
    · omega
    · obtain ⟨i, hi⟩ := Nat.exists_eq_add_of_le' hlap
      have hcell : s.shared.seqOf n i = i + 1 := by
        have hslot : s.shared.seqOf n (i + n) = s.shared.seqOf n i :=
          StdAtomicMPMCQueue.seqOf_congr (Ring.slot_add_self n i)
        rw [hi] at hseq
        omega
      obtain ⟨t', ht'⟩ := hI.reader_exists i
        (show i < s.shared.readIdx.val by omega) hi.le hcell
      exact Or.inr ⟨t', i, ht', hi.symm⟩

theorem justifies_dequeue (hn : 2 ≤ n) (hI : Inv n log (s.map Thread.view))
    {data : Option T} (hth : s.threads t = .dequeue data (.check pos))
    (hdif : SizeT.unbounded.signedDif (s.shared.seqOf n pos)
      (SizeT.unbounded.add pos 1) < 0)
    (item : Option T) : Justifies n s (.popped item) := by
  rw [SizeT.signedDif_unbounded, SizeT.add_unbounded] at hdif
  have hbehind : s.shared.seqOf n pos < pos + 1 := by omega
  have hshared : SharedInv n log s.shared := hI.shared
  have hle : pos ≤ s.shared.readIdx.val := by
    have hview : (s.map Thread.view).threads t = .pop data (.check pos) :=
      congrArg Thread.view hth
    have := hI.thread t
    rwa [hview] at this
  have hnewest : pos = s.shared.readIdx.val := by
    by_contra hne
    have := seqOf_stale_dequeue hn hshared (lt_of_le_of_ne hle hne)
    omega
  subst hnewest
  have hread := hshared.read_le
  by_cases hempty : s.shared.writeIdx.val = s.shared.readIdx.val
  · exact Or.inl hempty
  · -- the position is claimed and its cell not yet published
    have hlt : s.shared.readIdx.val < s.shared.writeIdx.val := by omega
    rcases hshared.seq_pushed _ le_rfl hlt with hseq | hseq
    · exact Or.inr (hI.writer_exists _ le_rfl hlt hseq)
    · omega

end Test

/-! ## Every refusal is justified at its test -/

/-- The result a call about to return `false` returns. -/
def Thread.refusal : Thread T → Option (Res T)
  | .enqueueFailed _ => some (.pushed false)
  | .dequeueFailed _ => some (.popped none)
  | _ => none

/-- A step makes its thread refuse only when the refusal is justified. -/
theorem justifies_of_move (hn : 2 ≤ n) {log : List T} {s : State ι T}
    {t : ι} (hI : Inv n log (s.map Thread.view)) {q : Queue T} {th' : Thread T}
    {e : Event T} {res : Res T}
    (hmove : Move .unbounded n .once s.shared (s.threads t) e q th')
    (hth' : th'.refusal = some res) :
    Justifies n s res ∧ ¬Starts t (t, e) := by
  generalize hth : s.threads t = th at hmove
  cases hmove with
  | enqueueFull h =>
      obtain rfl := Option.some.inj hth'
      exact ⟨justifies_enqueue hn hI hth h false, by simp [Starts]⟩
  | dequeueEmpty h =>
      obtain rfl := Option.some.inj hth'
      exact ⟨justifies_dequeue hn hI hth h none, by simp [Starts]⟩
  | @same _ th' _ _ h _ =>
      cases th' <;> cases hth'
  | _ => cases hth'

section Runs

variable [DecidableEq ι] {tr : List (ι × Event T)} {s : State ι T}

theorem refusing_justified (hn : 2 ≤ n) (hpow : ∃ k, n = 2 ^ k)
    (hrun : (system .unbounded n .once ι T).Run tr s) {t : ι} {res : Res T}
    (ht : (s.threads t).refusal = some res) :
    (system .unbounded n .once ι T).Since (Starts t)
      (fun m => Justifies n m res) tr s := by
  revert ht
  refine Lts.Run.induction (P := fun tr s => (s.threads t).refusal = some res →
    (system .unbounded n .once ι T).Since (Starts t)
      (fun m => Justifies n m res) tr s) ?_ ?_ hrun
  · intro ht
    cases ht
  · rintro tr s ⟨u, e⟩ s' hrun ih hstep ht
    have hstep' := hstep
    obtain ⟨q, th, hmove, rfl⟩ := hstep'
    by_cases htu : t = u
    · subst htu
      rw [Pool.move_threads_self] at ht
      obtain ⟨hjust, hmark⟩ := justifies_of_move hn (inv_of_run hn hpow hrun)
        ((moves_iff (by omega) hpow).mp hmove) ht
      exact (Lts.Since.now hrun hjust).tail hstep hmark
    · rw [Pool.move_threads_of_ne s q th htu] at ht
      exact (ih ht).tail hstep fun h => htu h.1.symm

/-- A call that returns `false` passed a moment at which its refusal was
justified. -/
theorem refusal_justified (hn : 2 ≤ n) (hpow : ∃ k, n = 2 ^ k) {t : ι}
    {res : Res T}
    (hrun : (system .unbounded n .once ι T).Run (tr ++ [(t, .fail res)]) s) :
    (system .unbounded n .once ι T).Since (Starts t)
      (fun m => Justifies n m res) (tr ++ [(t, .fail res)]) s := by
  obtain ⟨m, hrunm, hlast⟩ := Lts.Path.last hrun
  have hrefusal : (m.threads t).refusal = some res := by
    obtain ⟨q, th, hmove, -⟩ := hlast
    generalize hth : m.threads t = th₀ at hmove
    cases (moves_iff (by omega) hpow).mp hmove with
    | enqueueFalse | dequeueFalse => rfl
  exact (refusing_justified hn hpow hrunm hrefusal).tail hlast
    (by simp [Starts])

end Runs

/-! ## Items that wait and room that is free -/

/-- The position of an enqueue, from its claim to its return. -/
def Thread.enqueuing : Thread T → Option ℕ
  | .enqueue _ pc => pc.owned
  | .done pos (.pushed _) => some pos
  | _ => none

/-- The position of a dequeue, from its claim to its return. -/
def Thread.dequeuing : Thread T → Option ℕ
  | .dequeue _ pc => pc.owned
  | .done pos (.popped _) => some pos
  | _ => none

/-- The item of position `k` waits: its enqueue has returned and no dequeue has
claimed the position. -/
structure Waiting (s : State ι T) (k : ℕ) : Prop where
  claimed : k < s.shared.writeIdx.val
  returned : ∀ t, (s.threads t).enqueuing ≠ some k
  unread : s.shared.readIdx.val ≤ k

/-- `enqueue_pos_` deals out the positions of enqueues. -/
def enqueueTickets : Tickets (Queue T) (Thread T) (Event T) where
  next q := q.writeIdx.val
  holding := Thread.enqueuing
  claims
    | .step (.claimWrite pos _) => some pos
    | _ => none
  returns
    | .step (.ret pos (.pushed _)) => some pos
    | _ => none

/-- `dequeue_pos_` deals out the positions of dequeues. -/
def dequeueTickets : Tickets (Queue T) (Thread T) (Event T) where
  next q := q.readIdx.val
  holding := Thread.dequeuing
  claims
    | .step (.claimRead pos) => some pos
    | _ => none
  returns
    | .step (.ret pos (.popped _)) => some pos
    | _ => none

section Accounts

variable {r : Caller} {q q' : Queue T} {th th' : Thread T} {e : Event T}

theorem enqueueTickets_effect (h : Move .unbounded n r q th e q' th') :
    enqueueTickets.Effect q th e q' th' := by
  cases h with
  | same h _ =>
      cases h with
      | pushClaim h =>
          subst h
          exact .claim rfl rfl rfl rfl rfl
      | @ret idx res =>
          cases res with
          | pushed b => exact .ret idx rfl rfl rfl rfl rfl
          | popped item => exact .other rfl rfl rfl rfl
      | _ => exact .other rfl rfl rfl rfl
  | _ => exact .other rfl rfl rfl rfl

theorem dequeueTickets_effect (h : Move .unbounded n r q th e q' th') :
    dequeueTickets.Effect q th e q' th' := by
  cases h with
  | same h _ =>
      cases h with
      | popClaim h =>
          subst h
          exact .claim rfl rfl rfl rfl rfl
      | @ret idx res =>
          cases res with
          | pushed b => exact .other rfl rfl rfl rfl
          | popped item => exact .ret idx rfl rfl rfl rfl rfl
      | _ => exact .other rfl rfl rfl rfl
  | _ => exact .other rfl rfl rfl rfl

variable [DecidableEq ι] {tr : List (ι × Event T)} {s : State ι T}

theorem enqueue_accounts (hn : 1 ≤ n) (hpow : ∃ k, n = 2 ^ k)
    (hrun : (system .unbounded n r ι T).Run tr s) :
    enqueueTickets.Accounts tr s :=
  Tickets.accounts_of_run rfl rfl
    (fun h => enqueueTickets_effect ((moves_iff hn hpow).mp h)) hrun

theorem dequeue_accounts (hn : 1 ≤ n) (hpow : ∃ k, n = 2 ^ k)
    (hrun : (system .unbounded n r ι T).Run tr s) :
    dequeueTickets.Accounts tr s :=
  Tickets.accounts_of_run rfl rfl
    (fun h => dequeueTickets_effect ((moves_iff hn hpow).mp h)) hrun

/-- Both positions count the claims made on them. -/
theorem positions_eq (hn : 1 ≤ n) (hpow : ∃ k, n = 2 ^ k)
    (hrun : (system .unbounded n r ι T).Run tr s) :
    s.shared.writeIdx.val = (enqueueTickets.claimed tr).length ∧
      s.shared.readIdx.val = (dequeueTickets.claimed tr).length := by
  rw [(enqueue_accounts hn hpow hrun).claimed_eq,
    (dequeue_accounts hn hpow hrun).claimed_eq, List.length_range,
    List.length_range]
  exact ⟨rfl, rfl⟩

/-- The items that wait are those whose enqueue returned and whose position is
not claimed by a dequeue. -/
theorem waiting_iff (hn : 1 ≤ n) (hpow : ∃ k, n = 2 ^ k)
    (hrun : (system .unbounded n r ι T).Run tr s) {k : ℕ} :
    Waiting s k ↔
      k ∈ enqueueTickets.returned tr ∧ s.shared.readIdx.val ≤ k := by
  have hA := enqueue_accounts hn hpow hrun
  constructor
  · intro h
    rcases hA.accounted k h.claimed with hk | ⟨t, ht⟩
    · exact ⟨hk, h.unread⟩
    · exact absurd ht (h.returned t)
  · rintro ⟨hk, hunread⟩
    exact ⟨hA.returned_lt k hk, fun t ht => hA.holding_fresh t k ht hk, hunread⟩

end Accounts

/-! ## Refusals beside stalled threads -/

section Throughout

variable [DecidableEq ι] {r : Caller} {pre post : List (ι × Event T)}
  {a : ι × Event T} {t : ι} {s : State ι T}

/-- An item enqueued before a call and not claimed by its end waits during the
whole call. -/
theorem waiting_throughout (hn : 1 ≤ n) (hpow : ∃ k, n = 2 ^ k)
    (ha : Starts t a) {k : ℕ} (hk : k ∈ enqueueTickets.returned pre)
    (hread : (dequeueTickets.claimed (pre ++ a :: post)).length ≤ k) :
    ¬(system .unbounded n r ι T).Since (Starts t) (fun m => ∀ k, ¬Waiting m k)
      (pre ++ a :: post) s := by
  intro hsince
  obtain ⟨between, m, hbetween, hrun, hnone⟩ := hsince.after ha
  refine hnone k ((waiting_iff hn hpow hrun).mpr ⟨?_, ?_⟩)
  · rw [Tickets.returned, List.filterMap_append]
    exact List.mem_append_left _ hk
  · rw [(positions_eq hn hpow hrun).2]
    refine le_trans (Tickets.claimed_length_le ?_) hread
    exact (List.prefix_append_right_inj pre).mpr
      (List.prefix_cons_inj a |>.mpr hbetween)

/-- A queue with room at the end of a call, counting only the dequeues before
the call, has room during the whole call. -/
theorem room_throughout (hn : 1 ≤ n) (hpow : ∃ k, n = 2 ^ k)
    (ha : Starts t a)
    (hroom : (enqueueTickets.claimed (pre ++ a :: post)).length <
      (dequeueTickets.claimed pre).length + n) :
    ¬(system .unbounded n r ι T).Since (Starts t)
      (fun m => m.shared.writeIdx.val - m.shared.readIdx.val = n)
      (pre ++ a :: post) s := by
  intro hsince
  obtain ⟨between, m, hbetween, hrun, hfull⟩ := hsince.after ha
  obtain ⟨hwrite, hread⟩ := positions_eq hn hpow hrun
  have hle : (enqueueTickets.claimed (pre ++ a :: between)).length ≤
      (enqueueTickets.claimed (pre ++ a :: post)).length :=
    Tickets.claimed_length_le ((List.prefix_append_right_inj pre).mpr
      (List.prefix_cons_inj a |>.mpr hbetween))
  have hge : (dequeueTickets.claimed pre).length ≤
      (dequeueTickets.claimed (pre ++ a :: between)).length :=
    Tickets.claimed_length_le (List.prefix_append pre _)
  omega

end Throughout

/-- Thread 0 stops between its claim and its store. -/
def stalled (op : Op ℕ) : List (ℕ × Choice ℕ) :=
  [.call op, .see 0, .go, .go].map ((0, ·))

/-- A call of thread 1 that completes. -/
def completed (op : Op ℕ) : List (ℕ × Choice ℕ) :=
  [.call op, .see 0, .go, .go, .go, .go, .go, .go].map ((1, ·))

/-- A call of thread 2 that is refused. -/
def refused (op : Op ℕ) : List (ℕ × Choice ℕ) :=
  [.call op, .see 0, .go, .go].map ((2, ·))

/-- The trace of a call of thread 2 up to its test. -/
def tested (op : Op ℕ) (x : StdAtomicMPMCQueue.Index) : List (ℕ × Event ℕ) :=
  [.step (.call op), .step (.load x 0), .step .check].map ((2, ·))

/-- Behind a stalled enqueue an item waits while a dequeue returns `false`, and
behind a stalled dequeue an enqueue returns `false` on a queue without items. -/
theorem refusals_inaccurate :
    (∃ tr s t, (system .unbounded 2 .once ℕ ℕ).Run
        (tr ++ [(t, .fail (.popped none))]) s ∧
      ¬(system .unbounded 2 .once ℕ ℕ).Since (Starts t)
        (fun m => ∀ k, ¬Waiting m k) (tr ++ [(t, .fail (.popped none))]) s) ∧
    (∃ tr s t, (system .unbounded 2 .once ℕ ℕ).Run
        (tr ++ [(t, .fail (.pushed false))]) s ∧
      ¬(system .unbounded 2 .once ℕ ℕ).Since (Starts t)
        (fun m => m.shared.writeIdx.val - m.shared.readIdx.val = 2)
        (tr ++ [(t, .fail (.pushed false))]) s) := by
  constructor
  · obtain ⟨⟨tr, s⟩, hexec, hlast⟩ := Option.map_eq_some_iff.mp
      (show (Lts.exec (Pool.next (move .unbounded 2 .once))
          ⟨Queue.new .unbounded, fun _ => .idle⟩
          (stalled (.push 5) ++ completed (.push 6) ++ refused .pop)).map
          (fun r => (enqueueTickets.returned (r.1.take 12),
            dequeueTickets.claimed r.1, r.1.drop 12)) =
        some ([1], [], tested .tryPop .read ++ [(2, .fail (.popped none))])
        by decide +kernel)
    simp only [Prod.mk.injEq] at hlast
    obtain ⟨hreturned, hclaimed, hcall⟩ := hlast
    have htr := List.take_append_drop 12 tr
    rw [hcall] at htr
    refine ⟨tr.take 12 ++ tested .tryPop .read, s, 2, ?_⟩
    rw [List.append_assoc]
    constructor
    · rw [htr]
      exact Pool.run_of_exec hexec
    refine waiting_throughout le_add_self ⟨1, rfl⟩ ⟨rfl, _, rfl⟩ (k := 1) ?_ ?_
    · rw [hreturned]
      exact List.mem_singleton_self 1
    · change (dequeueTickets.claimed (tr.take 12 ++ (tested .tryPop .read ++
        [(2, .fail (.popped none))]))).length ≤ 1
      rw [htr, hclaimed]
      exact Nat.zero_le 1
  · obtain ⟨⟨tr, s⟩, hexec, hlast⟩ := Option.map_eq_some_iff.mp
      (show (Lts.exec (Pool.next (move .unbounded 2 .once))
          ⟨Queue.new .unbounded, fun _ => .idle⟩
          (completed (.push 5) ++ completed (.push 6) ++ stalled .pop ++
            completed .pop ++ refused (.push 7))).map
          (fun r => (dequeueTickets.claimed (r.1.take 28),
            enqueueTickets.claimed r.1, r.1.drop 28)) =
        some ([0, 1], [0, 1],
          tested (.tryPush 7) .write ++ [(2, .fail (.pushed false))])
        by decide +kernel)
    simp only [Prod.mk.injEq] at hlast
    obtain ⟨hdequeued, hclaimed, hcall⟩ := hlast
    have htr := List.take_append_drop 28 tr
    rw [hcall] at htr
    refine ⟨tr.take 28 ++ tested (.tryPush 7) .write, s, 2, ?_⟩
    rw [List.append_assoc]
    constructor
    · rw [htr]
      exact Pool.run_of_exec hexec
    refine room_throughout le_add_self ⟨1, rfl⟩ ⟨rfl, _, rfl⟩ ?_
    change (enqueueTickets.claimed (tr.take 28 ++ (tested (.tryPush 7) .write ++
      [(2, .fail (.pushed false))]))).length < _
    rw [htr, hclaimed, hdequeued]
    decide

/-- A dequeue is refused while an enqueue stalls in front of an item. -/
theorem refusal_justified_stalled :
    ∃ tr s, (system .unbounded 2 .once ℕ ℕ).Run
        (tr ++ [(2, .fail (.popped none))]) s ∧
      enqueueTickets.returned tr = [1] ∧
      (system .unbounded 2 .once ℕ ℕ).Since (Starts 2)
        (fun m => Justifies 2 m (.popped none))
        (tr ++ [(2, .fail (.popped none))]) s := by
  obtain ⟨⟨tr, s⟩, hexec, hlast⟩ := Option.map_eq_some_iff.mp
    (show (Lts.exec (Pool.next (move .unbounded 2 .once))
        ⟨Queue.new .unbounded, fun _ => .idle⟩
        (stalled (.push 5) ++ completed (.push 6) ++ refused .pop)).map
        (fun r => (enqueueTickets.returned (r.1.take 15), r.1.drop 15)) =
      some ([1], [(2, .fail (.popped none))])
      by decide +kernel)
  obtain ⟨hreturned, hcall⟩ := Prod.mk.inj hlast
  have htr := List.take_append_drop 15 tr
  rw [hcall] at htr
  have hrun : (system .unbounded 2 .once ℕ ℕ).Run
      (tr.take 15 ++ [(2, .fail (.popped none))]) s := by
    rw [htr]
    exact Pool.run_of_exec hexec
  exact ⟨_, s, hrun, hreturned, refusal_justified le_rfl ⟨1, rfl⟩ hrun⟩

end MpmcBoundedQueue
end ConcurrentQueues
