import ConcurrentQueues.Mpmc.Bounded
import ConcurrentQueues.Mpmc.Progress
import ConcurrentQueues.Mpmc.Word

/-!
# The two queues of `StdAtomicMPMCQueue.h` compared

A caller that repeats `enqueue` and `dequeue` until they return `true` sees of
`mpmc_bounded_queue` what `push` and `pop` show of `StdAtomicMPMCQueue`: the
step that returns `false` and the call that follows stand where `push` and `pop`
go back to their load.  This holds in every width of `std::size_t`, since the
signed difference is zero only for equal values.

That `false` is returned exactly where the other queue would spin needs more:
the sequence number of the newest position must not lie ahead of it, which holds
as long as the counters do not wrap around.
-/

namespace ConcurrentQueues

universe u v

namespace MpmcBoundedQueue

open Fifo
open StdAtomicMPMCQueue (Queue Pc Choice Index SharedInv Inv)

variable {ι : Type v} {T : Type u} {n : ℕ} {S : SizeT}

/-! ## Values of one width -/

/-- The position a thread is about to test. -/
def tested? : StdAtomicMPMCQueue.Thread T → Option ℕ
  | .push _ (.check idx) | .pop _ (.check idx) => some idx
  | _ => none

/-- Everything that is compared fits the width. -/
structure Fitting (S : SizeT) (s : StdAtomicMPMCQueue.State ι T) : Prop where
  seq : ∀ c, S.Fits (s.shared.buffer c).seq
  write : ∀ lag v, s.shared.writeIdx.load lag = some v → S.Fits v
  read : ∀ lag v, s.shared.readIdx.load lag = some v → S.Fits v
  held : ∀ t v, tested? (s.threads t) = some v → S.Fits v

section Fitting

variable {s : StdAtomicMPMCQueue.State ι T} {t : ι}

theorem Fitting.setSeq (h : Fitting S s) (c : ℕ) {k : ℕ} (hk : S.Fits k)
    (c' : ℕ) : S.Fits ((s.shared.setSeq c k).buffer c').seq := by
  by_cases hc : c' = c
  · subst hc
    rwa [Queue.setSeq_seq_self]
  · rw [Queue.setSeq_seq_of_ne s.shared k hc]
    exact h.seq c'

variable [DecidableEq ι]

theorem fitting_init :
    Fitting S (StdAtomicMPMCQueue.system S n ι T).init where
  seq c := S.fits_ofNat c
  write lag v hv := by
    cases lag with
    | zero =>
        obtain rfl := Option.some.inj hv
        exact S.fits_zero
    | succ lag => cases hv
  read lag v hv := by
    cases lag with
    | zero =>
        obtain rfl := Option.some.inj hv
        exact S.fits_zero
    | succ lag => cases hv
  held _ _ h := by cases h

/-- Every step keeps the values within the width. -/
theorem Fitting.step (h : Fitting S s) {e : StdAtomicMPMCQueue.Event T}
    {q : Queue T} {th th' : StdAtomicMPMCQueue.Thread T}
    (hth : s.threads t = th)
    (hmove : StdAtomicMPMCQueue.Move S n s.shared th e q th') :
    Fitting S (s.move t q th') := by
  have hthread : ∀ {th'}, (∀ v, tested? th' = some v → S.Fits v) →
      ∀ (q : Queue T) t' v, tested? ((s.move t q th').threads t') = some v →
        S.Fits v := by
    intro th' hself q t'
    exact Pool.forall_move
      (P := fun _ th => ∀ v, tested? th = some v → S.Fits v) hself
      (fun t' _ => h.held t') t'
  cases hmove with
  | pushLoad hv | pushRetry hv =>
      refine ⟨h.seq, h.write, h.read, hthread ?_ _⟩
      rintro v hheld
      obtain rfl := Option.some.inj hheld
      exact h.write _ _ hv
  | popLoad hv | popRetry hv =>
      refine ⟨h.seq, h.write, h.read, hthread ?_ _⟩
      rintro v hheld
      obtain rfl := Option.some.inj hheld
      exact h.read _ _ hv
  | pushClaim hval =>
      refine ⟨h.seq, ?_, h.read, hthread (by rintro v ⟨⟩) _⟩
      intro lag v hv
      rcases Atomic.load_store hv with rfl | ⟨lag', hv⟩
      · exact S.fits_add _ 1
      · exact h.write lag' v hv
  | popClaim hval =>
      refine ⟨h.seq, h.write, ?_, hthread (by rintro v ⟨⟩) _⟩
      intro lag v hv
      rcases Atomic.load_store hv with rfl | ⟨lag', hv⟩
      · exact S.fits_add _ 1
      · exact h.read lag' v hv
  | pushStore | popStore =>
      exact ⟨h.setSeq _ (S.fits_add _ _), h.write, h.read,
        hthread (by rintro v ⟨⟩) _⟩
  | pushCopyBegin | pushCopyEnd =>
      refine ⟨?_, h.write, h.read, hthread (by rintro v ⟨⟩) _⟩
      intro c
      rw [Pool.move_shared, Queue.setData_seq]
      exact h.seq c
  | _ => exact ⟨h.seq, h.write, h.read, hthread (by rintro v ⟨⟩) _⟩

theorem fitting_of_run {tr : List (ι × StdAtomicMPMCQueue.Event T)}
    (hrun : (StdAtomicMPMCQueue.system S n ι T).Run tr s) : Fitting S s := by
  refine Lts.Run.induction (P := fun _ s => Fitting S s) fitting_init ?_ hrun
  rintro tr s ⟨t, e⟩ s' - h ⟨q, th, hmove, rfl⟩
  exact h.step rfl (StdAtomicMPMCQueue.moves_iff.mp hmove)

end Fitting

/-! ## What is seen of a run -/

/-- What is seen of `StdAtomicMPMCQueue`: the calls, the indexes claimed and the
results. -/
def visible :
    ι × StdAtomicMPMCQueue.Event T → Option (ι × StdAtomicMPMCQueue.Event T)
  | (t, .call op) => some (t, .call op)
  | (t, .claimWrite idx item) => some (t, .claimWrite idx item)
  | (t, .claimRead idx) => some (t, .claimRead idx)
  | (t, .ret idx r) => some (t, .ret idx r)
  | _ => none

/-- The same of `mpmc_bounded_queue` and a caller that tries again. -/
def visibleStep : ι × Event T → Option (ι × StdAtomicMPMCQueue.Event T)
  | (t, .step e) => visible (t, e)
  | (_, .fail _) | (_, .again) => none

/-! ## Each queue follows the other -/

section Simulation

variable [DecidableEq ι]

/-- A step of `StdAtomicMPMCQueue` is followed within two steps: a test that
fails may return `false` first. -/
theorem follows_std (hn : 1 ≤ n) (hpow : ∃ k, n = 2 ^ k)
    {s : StdAtomicMPMCQueue.State ι T} (hfit : Fitting S s) {t : ι}
    {e : StdAtomicMPMCQueue.Event T} {q : Queue T}
    {th' : StdAtomicMPMCQueue.Thread T}
    (hmove : StdAtomicMPMCQueue.Move S n s.shared (s.threads t) e q th') :
    (system S n .retry ι T).Matches visibleStep (s.map Thread.of)
      (visible (t, e)) ((s.move t q th').map Thread.of) := by
  generalize hth : s.threads t = th at hmove
  have hof : (s.map Thread.of).threads t = Thread.of th :=
    congrArg Thread.of hth
  have htested : ∀ {v}, tested? th = some v → S.Fits v := by
    intro v hv
    exact hfit.held t v (hth ▸ hv)
  have hstep : ∀ {b : State ι T} {e : Event T} {q : Queue T} {th th'},
      b.threads t = th → Move S n .retry b.shared th e q th' →
        (system S n .retry ι T).step b (t, e) (b.move t q th') := by
    rintro b e q _ th' rfl h
    exact ⟨q, th', (moves_iff hn hpow).mpr h, rfl⟩
  rw [Pool.map_move]
  cases hinner : inner e with
  | true =>
      exact Lts.Matches.step (g := visibleStep) (hstep hof (.same hmove hinner))
  | false =>
      cases hmove with
      | callPush item =>
          exact Lts.Matches.step (g := visibleStep) (hstep hof (.callEnqueue item))
      | callPop =>
          exact Lts.Matches.step (g := visibleStep) (hstep hof .callDequeue)
      | @pushReady _ v h =>
          have hdif := (SizeT.signedDif_eq_zero_iff (hfit.seq (v % n))
            (htested rfl)).mpr h
          exact Lts.Matches.step (g := visibleStep)
            (hstep hof (.enqueueReady hdif))
      | @popReady _ v h =>
          have hdif := (SizeT.signedDif_eq_zero_iff (hfit.seq (v % n))
            (S.fits_add v 1)).mpr h
          exact Lts.Matches.step (g := visibleStep)
            (hstep hof (.dequeueReady hdif))
      | @pushBusy item v h =>
          have hne := mt (SizeT.signedDif_eq_zero_iff (hfit.seq (v % n))
            (htested rfl)).mp h
          rcases lt_or_gt_of_ne hne with hdif | hdif
          · refine Lts.Matches.silent (g := visibleStep)
              (hstep hof (.enqueueFull hdif)) rfl ?_
            have hagain := hstep (b := (s.map Thread.of).move t s.shared
                (.enqueueFailed item)) (Pool.move_threads_self _ t _ _)
              (.enqueueAgain rfl)
            -- the next call starts with a load
            rw [Pool.move_shared, Pool.move_move] at hagain
            exact Lts.Matches.step (g := visibleStep) hagain
          · exact Lts.Matches.step (g := visibleStep)
              (hstep hof (.enqueueBusy hdif))
      | @popBusy item v h =>
          have hne := mt (SizeT.signedDif_eq_zero_iff (hfit.seq (v % n))
            (S.fits_add v 1)).mp h
          rcases lt_or_gt_of_ne hne with hdif | hdif
          · refine Lts.Matches.silent (g := visibleStep)
              (hstep hof (.dequeueEmpty hdif)) rfl ?_
            have hagain := hstep (b := (s.map Thread.of).move t s.shared
                (.dequeueFailed item)) (Pool.move_threads_self _ t _ _)
              (.dequeueAgain rfl)
            rw [Pool.move_shared, Pool.move_move] at hagain
            exact Lts.Matches.step (g := visibleStep) hagain
          · exact Lts.Matches.step (g := visibleStep)
              (hstep hof (.dequeueBusy hdif))
      | _ => cases hinner

/-- A step of `mpmc_bounded_queue` is followed within one step: the return of
`false` is the way back to the load. -/
theorem follows_bounded {b : State ι T}
    (hfit : Fitting S (b.map Thread.view)) {t : ι} {e : Event T} {q : Queue T}
    {th' : Thread T}
    (hmove : Move S n .retry b.shared (b.threads t) e q th') :
    (StdAtomicMPMCQueue.system S n ι T).Matches visible (b.map Thread.view)
      (visibleStep (t, e)) ((b.move t q th').map Thread.view) := by
  generalize hth : b.threads t = th at hmove
  have hview : (b.map Thread.view).threads t = th.view :=
    congrArg Thread.view hth
  have htested : ∀ {v}, tested? th.view = some v → S.Fits v := by
    intro v hv
    exact hfit.held t v (hview ▸ hv)
  have hstep : ∀ {e q th'},
      StdAtomicMPMCQueue.Move S n b.shared th.view e q th' →
        (StdAtomicMPMCQueue.system S n ι T).step (b.map Thread.view) (t, e)
          ((b.map Thread.view).move t q th') := by
    intro e q th' h
    rw [← hview] at h
    exact ⟨q, th', StdAtomicMPMCQueue.moves_iff.mpr h, rfl⟩
  rw [Pool.map_move]
  cases hmove with
  | callEnqueue data =>
      exact Lts.Matches.step (g := visible) (hstep (.callPush data))
  | callDequeue => exact Lts.Matches.step (g := visible) (hstep .callPop)
  | same h _ =>
      rw [view_of] at hstep ⊢
      exact Lts.Matches.step (g := visible) (hstep h)
  | @enqueueReady _ pos h =>
      have hseq := (SizeT.signedDif_eq_zero_iff (hfit.seq (pos % n))
        (htested rfl)).mp h
      exact Lts.Matches.step (g := visible) (hstep (.pushReady hseq))
  | @dequeueReady _ pos h =>
      have hseq := (SizeT.signedDif_eq_zero_iff (hfit.seq (pos % n))
        (S.fits_add pos 1)).mp h
      exact Lts.Matches.step (g := visible) (hstep (.popReady hseq))
  | @enqueueFull _ pos h =>
      have hseq := mt (SizeT.signedDif_eq_zero_iff (hfit.seq (pos % n))
        (htested rfl)).mpr h.ne
      exact Lts.Matches.step (g := visible) (hstep (.pushBusy hseq))
  | @enqueueBusy _ pos h =>
      have hseq := mt (SizeT.signedDif_eq_zero_iff (hfit.seq (pos % n))
        (htested rfl)).mpr h.ne'
      exact Lts.Matches.step (g := visible) (hstep (.pushBusy hseq))
  | @dequeueEmpty _ pos h =>
      have hseq := mt (SizeT.signedDif_eq_zero_iff (hfit.seq (pos % n))
        (S.fits_add pos 1)).mpr h.ne
      exact Lts.Matches.step (g := visible) (hstep (.popBusy hseq))
  | @dequeueBusy _ pos h =>
      have hseq := mt (SizeT.signedDif_eq_zero_iff (hfit.seq (pos % n))
        (S.fits_add pos 1)).mpr h.ne'
      exact Lts.Matches.step (g := visible) (hstep (.popBusy hseq))
  | enqueueFalse hr | dequeueFalse hr => cases hr
  | enqueueAgain | dequeueAgain =>
      have hsame := (b.map Thread.view).move_self t
      rw [hview] at hsame
      exact Eq.subst (motive := fun s =>
        (StdAtomicMPMCQueue.system S n ι T).Matches visible
          (b.map Thread.view) none s) hsame.symm (Lts.Matches.stay _)

/-- A run of `mpmc_bounded_queue` is seen as a run of `StdAtomicMPMCQueue`. -/
theorem run_view (hn : 1 ≤ n) (hpow : ∃ k, n = 2 ^ k)
    {tr : List (ι × Event T)} {b : State ι T}
    (hrun : (system S n .retry ι T).Run tr b) :
    ∃ tr', (StdAtomicMPMCQueue.system S n ι T).Run tr' (b.map Thread.view) ∧
      tr'.filterMap visible = tr.filterMap visibleStep := by
  obtain ⟨tr', s, hrun', htr, -, rfl⟩ :=
    Lts.simulation (A := StdAtomicMPMCQueue.system S n ι T)
      (f := visibleStep) (g := visible) (fun _ => True)
      (fun _ b s => (StdAtomicMPMCQueue.system S n ι T).Reachable s ∧
        s = b.map Thread.view) (fun _ _ _ => trivial)
      ⟨⟨[], Lts.Run.init⟩, rfl⟩
      (by
        rintro tr b ⟨t, e⟩ b' s - - ⟨⟨tr', hrun'⟩, rfl⟩ ⟨q, th', hmove, rfl⟩
        have hfollow := follows_bounded (fitting_of_run hrun')
          ((moves_iff hn hpow).mp hmove)
        exact ⟨_, hfollow, Lts.Reachable.matches ⟨tr', hrun'⟩ hfollow, rfl⟩)
      hrun trivial
  exact ⟨tr', hrun', htr⟩

/-- The two queues reach the same shared states with the same calls, claims and
results. -/
theorem reaches_iff (hn : 1 ≤ n) (hpow : ∃ k, n = 2 ^ k)
    {h : List (ι × StdAtomicMPMCQueue.Event T)} {q : Queue T} :
    Pool.Reaches (StdAtomicMPMCQueue.system S n ι T) visible h q ↔
      Pool.Reaches (system S n .retry ι T) visibleStep h q := by
  constructor
  · rintro ⟨tr, s, hrun, rfl, rfl⟩
    obtain ⟨tr', b, hrun', htr, rfl⟩ :=
      Lts.simulation (A := system S n .retry ι T) (f := visible)
        (g := visibleStep) (fun _ => True)
        (fun _ s b => b = s.map Thread.of) (fun _ _ _ => trivial) rfl
        (by
          rintro tr s ⟨t, e⟩ s' b hrun - rfl ⟨q, th', hmove, rfl⟩
          exact ⟨_, follows_std hn hpow (fitting_of_run hrun)
            (StdAtomicMPMCQueue.moves_iff.mp hmove), rfl⟩)
        hrun trivial
    exact ⟨tr', _, hrun', htr, rfl⟩
  · rintro ⟨tr, b, hrun, rfl, rfl⟩
    obtain ⟨tr', hrun', htr⟩ := run_view hn hpow hrun
    exact ⟨tr', _, hrun', htr, rfl⟩

end Simulation

/-! ## A call that runs alone -/

/-- A call of `push` or `pop` that runs alone. -/
abbrev stdAlone (S : SizeT) (n : ℕ) :
    Queue T × StdAtomicMPMCQueue.Thread T →
      Queue T × StdAtomicMPMCQueue.Thread T :=
  Pool.alone (StdAtomicMPMCQueue.move S n) StdAtomicMPMCQueue.lone

/-- The choices of a call that runs alone: loads see the newest value, a
compare-exchange fails only on a different value, and a call that has its result
stops. -/
def lone (q : Queue T) : Thread T → Choice T
  | .enqueue _ .load | .dequeue _ .load => .see 0
  | .enqueue _ (.exchange pos) =>
      if q.writeIdx.val = pos then .go else .see 0
  | .dequeue _ (.exchange pos) => if q.readIdx.val = pos then .go else .see 0
  | .enqueue _ _ | .dequeue _ _ => .go
  | .idle | .done _ _ | .enqueueFailed _ | .dequeueFailed _ => .see 0

/-- A call of `enqueue` or `dequeue` that runs alone. -/
abbrev alone (S : SizeT) (n : ℕ) : Queue T × Thread T → Queue T × Thread T :=
  Pool.alone (move S n .once) lone

/-- The queue after a whole `push`. -/
def pushedTo (S : SizeT) (n : ℕ) (q : Queue T) (item : T) : Queue T :=
  (((q.setWriteIdx (S.add q.writeIdx.val 1)).setData (q.writeIdx.val % n)
    none).setData (q.writeIdx.val % n) (some item)).setSeq
      (q.writeIdx.val % n) (S.add q.writeIdx.val 1)

/-- The queue after a whole `pop`. -/
def poppedFrom (S : SizeT) (n : ℕ) (q : Queue T) : Queue T :=
  (q.setReadIdx (S.add q.readIdx.val 1)).setSeq (q.readIdx.val % n)
    (S.add q.readIdx.val n)

section Alone

variable {q : Queue T} {item : T} {out : Option T}

theorem stdAlone_push_ready (h : q.seqOf n q.writeIdx.val = q.writeIdx.val) :
    (stdAlone S n)^[6] (q, .push item .load) =
      (pushedTo S n q item, .done q.writeIdx.val (.pushed true)) := by
  rw [Queue.seqOf] at h
  simp [Pool.alone, StdAtomicMPMCQueue.lone, StdAtomicMPMCQueue.move,
    StdAtomicMPMCQueue.push, h, pushedTo]

theorem alone_enqueue_ready (hpow : ∃ k, n = 2 ^ k)
    (h : q.seqOf n q.writeIdx.val = q.writeIdx.val) :
    (alone S n)^[6] (q, .enqueue item .load) =
      (pushedTo S n q item, .done q.writeIdx.val (.pushed true)) := by
  rw [Queue.seqOf] at h
  simp [Pool.alone, lone, move, enqueue, cell_eq hpow, h, SizeT.signedDif,
    pushedTo]

theorem stdAlone_pop_ready
    (h : q.seqOf n q.readIdx.val = S.add q.readIdx.val 1) :
    (stdAlone S n)^[6] (q, .pop out .load) =
      (poppedFrom S n q,
        .done q.readIdx.val (.popped (q.dataOf n q.readIdx.val))) := by
  rw [Queue.seqOf] at h
  simp [Pool.alone, StdAtomicMPMCQueue.lone, StdAtomicMPMCQueue.move,
    StdAtomicMPMCQueue.pop, h, poppedFrom, Queue.dataOf]

theorem alone_dequeue_ready (hn : 1 ≤ n) (hpow : ∃ k, n = 2 ^ k)
    (h : q.seqOf n q.readIdx.val = S.add q.readIdx.val 1) :
    (alone S n)^[6] (q, .dequeue out .load) =
      (poppedFrom S n q,
        .done q.readIdx.val (.popped (q.dataOf n q.readIdx.val))) := by
  rw [Queue.seqOf] at h
  simp [Pool.alone, lone, move, dequeue, cell_eq hpow, h, SizeT.signedDif,
    add_mask hn, poppedFrom, Queue.dataOf]

/-- A function that leads back and forth between two values stays on them. -/
theorem iterate_of_two_cycle {α : Type*} {f : α → α} {a b : α} (hab : f a = b)
    (hba : f b = a) (k : ℕ) : f^[k] a = a ∨ f^[k] a = b := by
  induction k with
  | zero => exact Or.inl rfl
  | succ k ih =>
      rw [Function.iterate_succ_apply']
      rcases ih with ih | ih
      · rw [ih]
        exact Or.inr hab
      · rw [ih]
        exact Or.inl hba

/-- A push that runs alone goes round its loop for ever, and only reads. -/
def PushSpins (S : SizeT) (n : ℕ) (q : Queue T) (item : T) : Prop :=
  ∀ k, ∃ pc, pc.owned = none ∧
    (stdAlone S n)^[k] (q, .push item .load) = (q, .push item pc)

/-- A pop that runs alone goes round its loop for ever, and only reads. -/
def PopSpins (S : SizeT) (n : ℕ) (q : Queue T) (out : Option T) : Prop :=
  ∀ k, ∃ pc, pc.owned = none ∧
    (stdAlone S n)^[k] (q, .pop out .load) = (q, .pop out pc)

theorem pushSpins_of_busy (h : q.seqOf n q.writeIdx.val ≠ q.writeIdx.val) :
    PushSpins S n q item := by
  rw [Queue.seqOf] at h
  have hload : stdAlone S n (q, .push item .load) =
      (q, .push item (.check q.writeIdx.val)) := by
    simp [Pool.alone, StdAtomicMPMCQueue.lone, StdAtomicMPMCQueue.move,
      StdAtomicMPMCQueue.push]
  have hcheck : stdAlone S n (q, .push item (.check q.writeIdx.val)) =
      (q, .push item .load) := by
    simp [Pool.alone, StdAtomicMPMCQueue.lone, StdAtomicMPMCQueue.move,
      StdAtomicMPMCQueue.push, h]
  intro k
  rcases iterate_of_two_cycle hload hcheck k with hk | hk
  · exact ⟨_, rfl, hk⟩
  · exact ⟨_, rfl, hk⟩

theorem popSpins_of_busy
    (h : q.seqOf n q.readIdx.val ≠ S.add q.readIdx.val 1) :
    PopSpins S n q out := by
  rw [Queue.seqOf] at h
  have hload : stdAlone S n (q, .pop out .load) =
      (q, .pop out (.check q.readIdx.val)) := by
    simp [Pool.alone, StdAtomicMPMCQueue.lone, StdAtomicMPMCQueue.move,
      StdAtomicMPMCQueue.pop]
  have hcheck : stdAlone S n (q, .pop out (.check q.readIdx.val)) =
      (q, .pop out .load) := by
    simp [Pool.alone, StdAtomicMPMCQueue.lone, StdAtomicMPMCQueue.move,
      StdAtomicMPMCQueue.pop, h]
  intro k
  rcases iterate_of_two_cycle hload hcheck k with hk | hk
  · exact ⟨_, rfl, hk⟩
  · exact ⟨_, rfl, hk⟩

theorem alone_enqueue_full (hpow : ∃ k, n = 2 ^ k)
    (h : S.signedDif (q.seqOf n q.writeIdx.val) q.writeIdx.val < 0) :
    (alone S n)^[2] (q, .enqueue item .load) = (q, .enqueueFailed item) := by
  rw [Queue.seqOf] at h
  simp [Pool.alone, lone, move, enqueue, cell_eq hpow, h, h.ne]

theorem alone_dequeue_empty (hpow : ∃ k, n = 2 ^ k)
    (h : S.signedDif (q.seqOf n q.readIdx.val) (S.add q.readIdx.val 1) < 0) :
    (alone S n)^[2] (q, .dequeue out .load) = (q, .dequeueFailed out) := by
  rw [Queue.seqOf] at h
  simp [Pool.alone, lone, move, dequeue, cell_eq hpow, h, h.ne]

/-- A call that runs alone has one result only. -/
theorem alone_result_unique {p : Queue T × Thread T} {q₁ q₂ : Queue T}
    {th₁ th₂ : Thread T} {j k : ℕ} (hj : (alone S n)^[j] p = (q₁, th₁))
    (hk : (alone S n)^[k] p = (q₂, th₂))
    (hstop₁ : alone S n (q₁, th₁) = (q₁, th₁))
    (hstop₂ : alone S n (q₂, th₂) = (q₂, th₂)) : th₁ = th₂ := by
  have hfst : (alone S n)^[k + j] p = (q₁, th₁) := by
    rw [Function.iterate_add_apply, hj, Function.iterate_fixed hstop₁]
  have hsnd : (alone S n)^[j + k] p = (q₂, th₂) := by
    rw [Function.iterate_add_apply, hk, Function.iterate_fixed hstop₂]
  rw [Nat.add_comm, hsnd] at hfst
  exact (congrArg Prod.snd hfst).symm

end Alone

/-- Alone on the shared state `q`, a fresh `enqueue` and a fresh `push` have the
same effect, and `false` stands for a loop that does not end; so with `dequeue`
and `pop`. -/
structure AgreeAlone (S : SizeT) (n : ℕ) (q : Queue T) : Prop where
  enqueue_false : ∀ item,
    (∃ k, (alone S n)^[k] (q, .enqueue item .load) =
      (q, .enqueueFailed item)) ↔ PushSpins S n q item
  enqueue_true : ∀ item, ¬PushSpins S n q item → ∃ q' pos,
    (∃ k, (stdAlone S n)^[k] (q, .push item .load) =
      (q', .done pos (.pushed true))) ∧
    ∃ k, (alone S n)^[k] (q, .enqueue item .load) =
      (q', .done pos (.pushed true))
  dequeue_false : ∀ out,
    (∃ k, (alone S n)^[k] (q, .dequeue out .load) =
      (q, .dequeueFailed out)) ↔ PopSpins S n q out
  dequeue_true : ∀ out, ¬PopSpins S n q out → ∃ q' pos item,
    (∃ k, (stdAlone S n)^[k] (q, .pop out .load) =
      (q', .done pos (.popped item))) ∧
    ∃ k, (alone S n)^[k] (q, .dequeue out .load) =
      (q', .done pos (.popped item))

/-- The two agree where no sequence number lies ahead of the newest position. -/
theorem agreeAlone_of_dif (hn : 1 ≤ n) (hpow : ∃ k, n = 2 ^ k) {q : Queue T}
    (hwrite : q.seqOf n q.writeIdx.val ≠ q.writeIdx.val →
      S.signedDif (q.seqOf n q.writeIdx.val) q.writeIdx.val < 0)
    (hread : q.seqOf n q.readIdx.val ≠ S.add q.readIdx.val 1 →
      S.signedDif (q.seqOf n q.readIdx.val) (S.add q.readIdx.val 1) < 0) :
    AgreeAlone S n q where
  enqueue_false item := by
    constructor
    · rintro ⟨k, hk⟩
      apply pushSpins_of_busy
      intro hready
      have hresult :=
        alone_result_unique (alone_enqueue_ready hpow hready) hk rfl rfl
      cases hresult
    · intro hspins
      refine ⟨2, alone_enqueue_full hpow (hwrite ?_)⟩
      intro hready
      obtain ⟨pc, -, hpc⟩ := hspins 6
      rw [stdAlone_push_ready hready] at hpc
      cases congrArg Prod.snd hpc
  enqueue_true item hspins := by
    have hready := not_not.mp (mt pushSpins_of_busy hspins)
    exact ⟨_, _, ⟨6, stdAlone_push_ready hready⟩,
      6, alone_enqueue_ready hpow hready⟩
  dequeue_false out := by
    constructor
    · rintro ⟨k, hk⟩
      apply popSpins_of_busy
      intro hready
      have hresult :=
        alone_result_unique (alone_dequeue_ready hn hpow hready) hk rfl rfl
      cases hresult
    · intro hspins
      refine ⟨2, alone_dequeue_empty hpow (hread ?_)⟩
      intro hready
      obtain ⟨pc, -, hpc⟩ := hspins 6
      rw [stdAlone_pop_ready hready] at hpc
      cases congrArg Prod.snd hpc
  dequeue_true out hspins := by
    have hready := not_not.mp (mt popSpins_of_busy hspins)
    exact ⟨_, _, _, ⟨6, stdAlone_pop_ready hready⟩,
      6, alone_dequeue_ready hn hpow hready⟩

/-! ## Runs in which no counter wraps around -/

/-- The claims of an index along a trace. -/
def claimCount (x : Index) (tr : List (ι × StdAtomicMPMCQueue.Event T)) : ℕ :=
  (tr.filter fun a => a.2.index? = some x).length

/-- Both indexes are claimed less than a quarter of the range of the word. -/
def Few (w : ℕ) (tr : List (ι × StdAtomicMPMCQueue.Event T)) : Prop :=
  ∀ x, claimCount x tr < 2 ^ (w - 2)

theorem claimCount_snoc (x : Index)
    (tr : List (ι × StdAtomicMPMCQueue.Event T))
    (a : ι × StdAtomicMPMCQueue.Event T) :
    claimCount x (tr ++ [a]) =
      claimCount x tr + if a.2.index? = some x then 1 else 0 := by
  rw [claimCount, List.filter_append, List.length_append, claimCount]
  by_cases h : a.2.index? = some x <;> simp [h]

theorem claimCount_le_append (x : Index)
    (tr₁ tr₂ : List (ι × StdAtomicMPMCQueue.Event T)) :
    claimCount x tr₁ ≤ claimCount x (tr₁ ++ tr₂) := by
  rw [claimCount, claimCount, List.filter_append, List.length_append]
  exact Nat.le_add_right _ _

/-- Claims are visible. -/
theorem claimCount_visible (x : Index)
    (tr : List (ι × StdAtomicMPMCQueue.Event T)) :
    claimCount x (tr.filterMap visible) = claimCount x tr := by
  induction tr using List.reverseRecOn with
  | nil => rfl
  | append_singleton tr a ih =>
      rw [List.filterMap_append, claimCount_snoc, ← ih]
      obtain ⟨t, e⟩ := a
      cases e with
      | call | claimWrite | claimRead | ret =>
          exact claimCount_snoc x _ _
      | _ =>
          change claimCount x (tr.filterMap visible ++ []) =
            claimCount x (tr.filterMap visible) + 0
          rw [List.append_nil, Nat.add_zero]

/-- The atomic that holds an index. -/
def atomic (q : Queue T) : Index → Atomic
  | .write => q.writeIdx
  | .read => q.readIdx

section Few

variable [DecidableEq ι] {tr : List (ι × StdAtomicMPMCQueue.Event T)}
  {s : StdAtomicMPMCQueue.State ι T}

/-- The history of an index grows by its claims, and no load reaches behind
it. -/
theorem history_of_move {q q' : Queue T} {th th' : StdAtomicMPMCQueue.Thread T}
    {e : StdAtomicMPMCQueue.Event T}
    (h : StdAtomicMPMCQueue.Move S n q th e q' th') (x : Index) :
    (atomic q' x).past.length = (atomic q x).past.length +
        (if e.index? = some x then 1 else 0) ∧
      ∀ lag, e.lag? x = some lag → lag ≤ (atomic q x).past.length := by
  have hlag : ∀ {a : Atomic} {lag v : ℕ}, a.load lag = some v →
      lag ≤ a.past.length := by
    intro a lag v hv
    exact Nat.lt_succ_iff.mp (List.getElem?_eq_some_iff.mp hv).1
  cases h with
  | pushLoad h | pushRetry h =>
      refine ⟨rfl, ?_⟩
      intro lag' hlag'
      cases x with
      | write =>
          cases hlag'
          exact hlag h
      | read => cases hlag'
  | popLoad h | popRetry h =>
      refine ⟨rfl, ?_⟩
      intro lag' hlag'
      cases x with
      | write => cases hlag'
      | read =>
          cases hlag'
          exact hlag h
  | pushClaim | popClaim =>
      refine ⟨?_, by rintro lag ⟨⟩⟩
      cases x <;> rfl
  | _ =>
      refine ⟨?_, by rintro lag ⟨⟩⟩
      cases x <;> rfl

/-- A thread has missed no more claims than were made. -/
theorem missed_le (hrun : (StdAtomicMPMCQueue.system S n ι T).Run tr s)
    (x : Index) :
    (atomic s.shared x).past.length = claimCount x tr ∧
      ∀ t, StdAtomicMPMCQueue.missed x t tr ≤ claimCount x tr := by
  refine Lts.Run.induction (P := fun tr s =>
    (atomic s.shared x).past.length = claimCount x tr ∧
      ∀ t, StdAtomicMPMCQueue.missed x t tr ≤ claimCount x tr) ?_ ?_ hrun
  · refine ⟨?_, fun _ => Nat.le_refl 0⟩
    cases x <;> rfl
  · rintro tr s ⟨u, e⟩ s' - ⟨hpast, hmissed⟩ ⟨q, th, hmove, rfl⟩
    obtain ⟨hgrow, hlag⟩ :=
      history_of_move (StdAtomicMPMCQueue.moves_iff.mp hmove) x
    rw [claimCount_snoc, Pool.move_shared, hgrow, hpast]
    refine ⟨rfl, fun t => ?_⟩
    have hle := hmissed t
    rw [StdAtomicMPMCQueue.missed_snoc, StdAtomicMPMCQueue.missedStep]
    by_cases hclaim : e.index? = some x
    · simpa [hclaim] using hle
    · rw [if_neg hclaim, if_neg hclaim, Nat.add_zero]
      by_cases hut : u = t
      · rw [if_pos hut]
        cases hload : e.lag? x with
        | none => exact hle
        | some lag =>
            have := hlag lag hload
            rw [Option.getD_some]
            omega
      · rw [if_neg hut]
        exact hle

/-- A step leaves an index alone or stores to it. -/
theorem atomic_of_move {q q' : Queue T} {th th' : StdAtomicMPMCQueue.Thread T}
    {e : StdAtomicMPMCQueue.Event T}
    (h : StdAtomicMPMCQueue.Move S n q th e q' th') (x : Index) :
    atomic q' x = atomic q x ∨ ∃ v, atomic q' x = (atomic q x).store v := by
  cases h with
  | pushClaim =>
      cases x with
      | write => exact Or.inr ⟨_, rfl⟩
      | read => exact Or.inl rfl
  | popClaim =>
      cases x with
      | write => exact Or.inl rfl
      | read => exact Or.inr ⟨_, rfl⟩
  | _ => exact Or.inl (by cases x <;> rfl)

/-- The position a thread tests is one of those its index has held. -/
theorem loaded_of_run (hrun : (StdAtomicMPMCQueue.system S n ι T).Run tr s)
    {t : ι} {v : ℕ} (hv : tested? (s.threads t) = some v) :
    ∃ x lag, (atomic s.shared x).load lag = some v := by
  revert t v
  refine Lts.Run.induction (P := fun _ s => ∀ {t : ι} {v : ℕ},
    tested? (s.threads t) = some v →
      ∃ x lag, (atomic s.shared x).load lag = some v) ?_ ?_ hrun
  · rintro t v ⟨⟩
  · rintro tr s ⟨u, e⟩ s' - ih ⟨q, th, hmove, rfl⟩ t v hv
    have hmove := StdAtomicMPMCQueue.moves_iff.mp hmove
    by_cases htu : t = u
    · subst htu
      rw [Pool.move_threads_self] at hv
      generalize s.threads t = th₀ at hmove
      cases hmove with
      | pushLoad h | pushRetry h =>
          obtain rfl := Option.some.inj hv
          exact ⟨.write, _, h⟩
      | popLoad h | popRetry h =>
          obtain rfl := Option.some.inj hv
          exact ⟨.read, _, h⟩
      | _ => cases hv
    · rw [Pool.move_threads_of_ne s q th htu] at hv
      obtain ⟨x, lag, hlag⟩ := ih hv
      rcases atomic_of_move hmove x with hsame | ⟨v', hstore⟩
      · exact ⟨x, lag, by rw [Pool.move_shared, hsame, hlag]⟩
      · exact ⟨x, lag + 1, by rw [Pool.move_shared, hstore]; exact hlag⟩

/-- Where claims are few, every compare-exchange comes in time. -/
theorem timely_of_few {w : ℕ}
    (hrun : (StdAtomicMPMCQueue.system S n ι T).Run tr s) (hfew : Few w tr) :
    StdAtomicMPMCQueue.Timely w tr := by
  rintro tr₁ a tr₂ x rfl -
  obtain ⟨m, hfst, -⟩ := Lts.Path.split hrun
  have hmissed := (missed_le hfst x).2 a.1
  have hcount := claimCount_le_append x tr₁ (a :: tr₂)
  have hless := hfew x
  have hpow : 2 ^ (w - 2) ≤ 2 ^ w :=
    Nat.pow_le_pow_right (by decide) (Nat.sub_le w 2)
  omega

/-- Where claims are few, the queue of words is in a state of the queue of
unbounded counters, and both positions stay in the lower quarter of the
range. -/
theorem unwrapped_of_few {w : ℕ} (hn : 2 ≤ n) (hpow : ∃ k, n = 2 ^ k)
    (hle : n ≤ 2 ^ (w - 2))
    (hrun : (StdAtomicMPMCQueue.system (.bits w) n ι T).Run tr s)
    (hfew : Few w tr) :
    ∃ log q, SharedInv n log q ∧ s.shared = q.wrap w ∧
      q.writeIdx.val < 2 ^ (w - 2) := by
  have hlt : 2 ^ (w - 2) < 2 ^ w := by
    refine Nat.pow_lt_pow_right (by decide) ?_
    rcases Nat.lt_or_ge 2 w with h | h
    · omega
    · rw [Nat.sub_eq_zero_of_le h] at hle
      omega
  obtain ⟨tr', s', hrun', -, hshared⟩ :=
    StdAtomicMPMCQueue.unbounded_of_word hn hpow (by omega) hrun
      (timely_of_few hrun hfew)
  have hI := StdAtomicMPMCQueue.inv_of_run hn hrun'
  refine ⟨_, s'.shared, hI.shared, hshared, ?_⟩
  have hpast := (missed_le hrun .write).1
  rw [hshared] at hpast
  have hcounts := hI.shared.writeCounts
  have hval : s'.shared.writeIdx.val = claimCount .write tr := by
    rw [← hpast]
    simp [atomic, Atomic.wrap, show s'.shared.writeIdx.past = _ from hcounts]
  rw [hval]
  exact hfew .write

/-- The half and the whole of the range in quarters. -/
theorem quarter_of_le {w : ℕ} (hn : 2 ≤ n) (hle : n ≤ 2 ^ (w - 2)) :
    2 ^ (w - 1) = 2 * 2 ^ (w - 2) ∧ 2 ^ w = 4 * 2 ^ (w - 2) := by
  obtain ⟨v, rfl⟩ : ∃ v, w = v + 2 := by
    refine Nat.exists_eq_add_of_le' ?_
    by_contra hlt
    rw [Nat.sub_eq_zero_of_le (by omega)] at hle
    omega
  constructor
  · rw [Nat.add_sub_cancel, show v + 2 - 1 = v + 1 by omega, pow_succ']
  · rw [Nat.add_sub_cancel, pow_add, Nat.mul_comm]
    rfl

/-- Where claims are few, what `mpmc_bounded_queue` compares lies in the lower
half of the range: the casts keep the values and the difference does not
overflow. -/
theorem compared_of_few {w : ℕ} (hn : 2 ≤ n) (hpow : ∃ k, n = 2 ^ k)
    (hle : n ≤ 2 ^ (w - 2)) {tr : List (ι × Event T)} {b : State ι T}
    (hrun : (system (.bits w) n .retry ι T).Run tr b)
    (hfew : Few w (tr.filterMap visibleStep)) {t : ι} {pos : ℕ}
    (ht : tested? (b.threads t).view = some pos) :
    b.shared.seqOf n pos < 2 ^ (w - 1) ∧ pos + 1 < 2 ^ (w - 1) := by
  obtain ⟨hhalf, hwhole⟩ := quarter_of_le hn hle
  obtain ⟨tr', hrun', htr⟩ := run_view (by omega) hpow hrun
  have hfew' : Few w tr' := fun x => by
    rw [← claimCount_visible, htr]
    exact hfew x
  obtain ⟨log, q, hq, hshared, hsmall⟩ :=
    unwrapped_of_few hn hpow hle hrun' hfew'
  have hread := hq.read_le
  have hpos : pos < 2 ^ (w - 2) := by
    obtain ⟨x, lag, hlag⟩ := loaded_of_run hrun' ht
    rw [hshared] at hlag
    cases x with
    | write =>
        obtain ⟨u, hu, rfl⟩ := Atomic.load_wrap_eq_some.mp hlag
        have := hq.writeCounts.load_eq_some.mp hu
        exact lt_of_le_of_lt (Nat.mod_le u _) (by omega)
    | read =>
        obtain ⟨u, hu, rfl⟩ := Atomic.load_wrap_eq_some.mp hlag
        have := hq.readCounts.load_eq_some.mp hu
        exact lt_of_le_of_lt (Nat.mod_le u _) (by omega)
  have hseq : q.seqOf n pos < 2 ^ (w - 1) := by
    obtain ⟨i, hlo, hhi, hslot⟩ :=
      Ring.exists_slot_eq (show 0 < n by omega) q.readIdx.val pos
    rw [StdAtomicMPMCQueue.seqOf_congr hslot.symm]
    by_cases hi : i < q.writeIdx.val
    · rcases hq.seq_pushed i hlo hi with h | h <;> omega
    · rcases hq.seq_free i (by omega) hhi with h | ⟨-, h⟩ <;> omega
  refine ⟨?_, by omega⟩
  have hcell : b.shared.seqOf n pos = q.seqOf n pos % 2 ^ w := by
    rw [show b.shared = q.wrap w from hshared]
    rfl
  rw [hcell]
  exact lt_of_le_of_lt (Nat.mod_le _ _) hseq

/-- Where positions stay in the lower quarter, the signed difference at the
newest position is zero or negative. -/
theorem agreeAlone_of_unwrapped {w : ℕ} {log : List T} {q : Queue T}
    (hn : 2 ≤ n) (hpow : ∃ k, n = 2 ^ k) (hle : n ≤ 2 ^ (w - 2))
    (hq : SharedInv n log q) (hsmall : q.writeIdx.val < 2 ^ (w - 2)) :
    AgreeAlone (.bits w) n (q.wrap w) := by
  obtain ⟨hhalf, hwhole⟩ := quarter_of_le hn hle
  have hread := hq.read_le
  have hmod : ∀ {a : ℕ}, a < 2 ^ (w - 1) → a % 2 ^ w = a :=
    fun ha => Nat.mod_eq_of_lt (by omega)
  have hseq : ∀ {i : ℕ}, i < 2 ^ (w - 1) → q.seqOf n i < 2 ^ (w - 1) →
      (q.wrap w).seqOf n (i % 2 ^ w) = q.seqOf n i := by
    intro i hi hlt
    rw [hmod hi]
    exact hmod hlt
  have hwrite := hq.seqOf_write_near hn
  have hnext := hq.seqOf_read_near hn
  refine agreeAlone_of_dif (by omega) hpow ?_ ?_
  · rw [Queue.wrap_writeIdx, Atomic.val_wrap, hseq (by omega) (by omega),
      hmod (by omega)]
    intro hne
    rw [SizeT.signedDif_of_lt (by omega) (by omega)]
    omega
  · rw [Queue.wrap_readIdx, Atomic.val_wrap, SizeT.add_bits_mod,
      hseq (by omega) (by omega), hmod (by omega)]
    intro hne
    rw [SizeT.signedDif_of_lt (by omega) (by omega)]
    omega

end Few

/-- `StdAtomicMPMCQueue` with `push` and `pop`, and `mpmc_bounded_queue` with
calls repeated until they return `true`, reach the same shared states with the
same calls, claims and results.  Where the claims are few, a fresh call that
runs alone returns `false` exactly where its counterpart spins for ever, and has
the same effect elsewhere, and no difference that `mpmc_bounded_queue` computes
overflows. -/
theorem queues_agree [DecidableEq ι] {w : ℕ} (hn : 2 ≤ n)
    (hpow : ∃ k, n = 2 ^ k) (hle : n ≤ 2 ^ (w - 2))
    (h : List (ι × StdAtomicMPMCQueue.Event T)) (q : Queue T) :
    (Pool.Reaches (StdAtomicMPMCQueue.system (.bits w) n ι T) visible h q ↔
      Pool.Reaches (system (.bits w) n .retry ι T) visibleStep h q) ∧
    (Few w h →
      Pool.Reaches (StdAtomicMPMCQueue.system (.bits w) n ι T) visible h q →
        AgreeAlone (.bits w) n q) ∧
    (Few w h → ∀ tr b t pos, (system (.bits w) n .retry ι T).Run tr b →
      tr.filterMap visibleStep = h → tested? (b.threads t).view = some pos →
        b.shared.seqOf n pos < 2 ^ (w - 1) ∧ pos + 1 < 2 ^ (w - 1)) := by
  refine ⟨reaches_iff (by omega) hpow, ?_, ?_⟩
  · rintro hfew ⟨tr, s, hrun, rfl, rfl⟩
    have hfew' : Few w tr := fun x => by
      rw [← claimCount_visible]
      exact hfew x
    obtain ⟨log, q, hq, hshared, hsmall⟩ :=
      unwrapped_of_few hn hpow hle hrun hfew'
    rw [hshared]
    exact agreeAlone_of_unwrapped hn hpow hle hq hsmall
  · rintro hfew tr b t pos hrun rfl ht
    exact compared_of_few hn hpow hle hrun hfew ht

/-- Three pushes and a pop of thread 0, and a pop of thread 1 that has claimed
its index and stops there. -/
def lapWithStalledPop : List (ℕ × StdAtomicMPMCQueue.Choice ℕ) :=
  let call (op : Op ℕ) : List (ℕ × StdAtomicMPMCQueue.Choice ℕ) :=
    [.call op, .see 0, .go, .go, .go, .go, .go, .go].map ((0, ·))
  call (.push 5) ++ call (.push 6) ++ call .pop ++ call (.push 7) ++
    [.call .pop, .see 0, .go, .go].map ((1, ·))

theorem queues_agree_lap :
    ∃ h q, h.length = 14 ∧ q.writeIdx.val = 3 ∧ q.readIdx.val = 2 ∧
      Pool.Reaches (system (.bits 4) 2 .retry ℕ ℕ) visibleStep h q ∧
      AgreeAlone (.bits 4) 2 q := by
  obtain ⟨⟨tr, s⟩, hexec, hend⟩ := Option.map_eq_some_iff.mp
    (show (Lts.exec (Pool.next (StdAtomicMPMCQueue.move (.bits 4) 2))
        ⟨Queue.new (.bits 4), fun _ => .idle⟩ lapWithStalledPop).map
        (fun r => ((r.1.filterMap visible).length,
          claimCount .write (r.1.filterMap visible),
          claimCount .read (r.1.filterMap visible),
          r.2.shared.writeIdx.val, r.2.shared.readIdx.val)) =
            some (14, 3, 2, 3, 2)
      by decide +kernel)
  obtain ⟨hlen, hwrite, hread, hwriteIdx, hreadIdx⟩ :=
    by simpa only [Prod.mk.injEq] using hend
  have hreach : Pool.Reaches (StdAtomicMPMCQueue.system (.bits 4) 2 ℕ ℕ) visible
      (tr.filterMap visible) s.shared :=
    ⟨tr, s, Pool.run_of_exec hexec, rfl, rfl⟩
  have hagree := queues_agree (w := 4) le_rfl ⟨1, rfl⟩ (by decide)
    (tr.filterMap visible) s.shared
  refine ⟨_, _, hlen, hwriteIdx, hreadIdx, hagree.1.mp hreach,
    hagree.2.1 (fun x => ?_) hreach⟩
  cases x with
  | write => exact hwrite.trans_lt (by decide)
  | read => exact hread.trans_lt (by decide)

end MpmcBoundedQueue
end ConcurrentQueues
