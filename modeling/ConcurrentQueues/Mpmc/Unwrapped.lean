import ConcurrentQueues.Core.Signed
import ConcurrentQueues.Mpmc.Retried

/-!
# The signed differences of `mpmc_bounded_queue`

`enqueue` and `dequeue` cast a sequence number and a position to
`std::intptr_t` and decide by the sign of their difference.  What the words of
`w` bits stand for is told by a queue beside it that takes the same steps and
keeps its positions and sequence numbers unwrapped.  It decides as the words do,
so the two stay together even where the signed difference misleads.
-/

namespace ConcurrentQueues

universe u v

namespace MpmcBoundedQueue

open Fifo
open StdAtomicMPMCQueue (Queue Pc Choice SharedInv Inv)

variable {ι : Type v} {T : Type u} {n w : ℕ} {r : Caller}

/-! ## Words -/

/-- A thread with its position kept in `w` bits. -/
def Thread.words (w : ℕ) : Thread T → Thread T
  | .idle => .idle
  | .enqueue data pc => .enqueue data (pc.wrap w)
  | .dequeue data pc => .dequeue data (pc.wrap w)
  | .done pos res => .done (pos % 2 ^ w) res
  | .enqueueFailed data => .enqueueFailed data
  | .dequeueFailed data => .dequeueFailed data

def Event.words (w : ℕ) : Event T → Event T
  | .step (.claimWrite pos data) => .step (.claimWrite (pos % 2 ^ w) data)
  | .step (.claimRead pos) => .step (.claimRead (pos % 2 ^ w))
  | .step (.ret pos res) => .step (.ret (pos % 2 ^ w) res)
  | e => e

/-- The state of the queue of words. -/
abbrev words (w : ℕ) (u : State ι T) : State ι T :=
  u.image (Queue.wrap w) (Thread.words w)

/-! ## The unwrapped queue -/

/-- Where a test of `sequence_` leads. -/
def afterTest (ready failed busy : Thread T) (dif : ℤ) : Thread T :=
  if dif = 0 then ready else if dif < 0 then failed else busy

/-- One step with unwrapped positions.  Tests and compare-exchanges decide by
the words; a position that is claimed is the newest one. -/
def unwrapped (w n : ℕ) (r : Caller) (q : Queue T) :
    Thread T → Choice T → Option (Event T × Queue T × Thread T)
  | .enqueue data (.check pos), .go =>
      some (.step .check, q, afterTest (.enqueue data (.exchange pos))
        (.enqueueFailed data) (.enqueue data .load)
        ((SizeT.bits w).signedDif ((q.buffer (cell n pos)).seq % 2 ^ w)
          (pos % 2 ^ w)))
  | .dequeue data (.check pos), .go =>
      some (.step .check, q, afterTest (.dequeue data (.exchange pos))
        (.dequeueFailed data) (.dequeue data .load)
        ((SizeT.bits w).signedDif ((q.buffer (cell n pos)).seq % 2 ^ w)
          ((pos + 1) % 2 ^ w)))
  | .enqueue data (.exchange pos), .go =>
      if q.writeIdx.val % 2 ^ w = pos % 2 ^ w then
        some (.step (.claimWrite q.writeIdx.val data),
          q.setWriteIdx (q.writeIdx.val + 1),
          .enqueue data (.claimed q.writeIdx.val))
      else
        none
  | .dequeue data (.exchange pos), .go =>
      if q.readIdx.val % 2 ^ w = pos % 2 ^ w then
        some (.step (.claimRead q.readIdx.val),
          q.setReadIdx (q.readIdx.val + 1),
          .dequeue data (.claimed q.readIdx.val))
      else
        none
  | th, c => move .unbounded n r q th c

/-- All interleavings of threads on the unwrapped queue. -/
def unwrappedSystem (w n : ℕ) (r : Caller) (ι : Type v) [DecidableEq ι]
    (T : Type u) : Lts (State ι T) (ι × Event T) :=
  Pool.lts ι (Pool.Moves (unwrapped w n r)) (Queue.new .unbounded) .idle

theorem cell_words (hpow : ∃ k, n = 2 ^ k) (hdvd : n ∣ 2 ^ w) (pos : ℕ) :
    cell n (pos % 2 ^ w) = cell n pos := by
  rw [cell_eq hpow, cell_eq hpow, Nat.mod_mod_of_dvd _ hdvd]

/-- A move of the unwrapped queue as the words take it. -/
abbrev wordMove (w : ℕ) (m : Event T × Queue T × Thread T) :
    Event T × Queue T × Thread T :=
  (m.1.words w, m.2.1.wrap w, m.2.2.words w)

theorem words_afterTest (ready failed busy : Thread T) (dif : ℤ) :
    (afterTest ready failed busy dif).words w =
      afterTest (ready.words w) (failed.words w) (busy.words w) dif := by
  simp only [afterTest]
  split_ifs <;> rfl

/-- A load, or a compare-exchange that fails. -/
theorem seen_words {a : Atomic} {lag : ℕ}
    {f g : ℕ → Event T × Queue T × Thread T}
    (h : ∀ pos, f (pos % 2 ^ w) = wordMove w (g pos)) :
    ((a.wrap w).load lag).map f =
      ((a.load lag).map g).map (wordMove w) := by
  rw [Atomic.load_wrap, Option.map_map, Option.map_map]
  exact congrArg (fun f => (a.load lag).map f) (funext h)

/-- A test in two comparisons. -/
theorem test_eq {dif : ℤ} (q : Queue T) (ready failed busy : Thread T) :
    (if dif = 0 then some (Event.step (T := T) .check, q, ready)
      else if dif < 0 then some (.step .check, q, failed)
      else some (.step .check, q, busy)) =
      some (.step .check, q, afterTest ready failed busy dif) := by
  simp only [afterTest]
  split_ifs <;> rfl

theorem enqueue_words (hpow : ∃ k, n = 2 ^ k) (hdvd : n ∣ 2 ^ w) (q : Queue T)
    (data : T) (pc : Pc) (c : Choice T) :
    enqueue (.bits w) n (q.wrap w) data (pc.wrap w) c =
      (unwrapped w n r q (.enqueue data pc) c).map (wordMove w) := by
  have hcell := cell_words hpow hdvd
  cases pc with
  | load =>
      cases c with
      | see lag => exact seen_words fun _ => rfl
      | call | go => rfl
  | check pos =>
      cases c with
      | go =>
          simp only [Pc.wrap, enqueue, unwrapped, hcell, test_eq,
            Option.map_some, wordMove, words_afterTest]
          rfl
      | call | see => rfl
  | exchange pos =>
      cases c with
      | go =>
          simp only [Pc.wrap, enqueue, unwrapped]
          by_cases hval : (q.wrap w).writeIdx.val = pos % 2 ^ w
          · have hval' : q.writeIdx.val % 2 ^ w = pos % 2 ^ w := hval
            rw [if_pos hval, if_pos hval', ← hval', SizeT.add_bits_mod,
              Queue.wrap_setWriteIdx]
            rfl
          · have hval' : ¬q.writeIdx.val % 2 ^ w = pos % 2 ^ w := hval
            rw [if_neg hval, if_neg hval']
            rfl
      | see lag => exact seen_words fun _ => rfl
      | call => rfl
  | claimed pos =>
      cases c with
      | go =>
          simp only [Pc.wrap, enqueue, hcell, Queue.wrap_setData]
          rfl
      | call | see => rfl
  | copying pos =>
      cases c with
      | go =>
          simp only [Pc.wrap, enqueue, hcell, Queue.wrap_setData]
          rfl
      | call | see => rfl
  | store pos =>
      cases c with
      | go =>
          simp only [Pc.wrap, enqueue, hcell, SizeT.add_bits_mod,
            Queue.wrap_setSeq]
          rfl
      | call | see => rfl

theorem dequeue_words (hpow : ∃ k, n = 2 ^ k) (hdvd : n ∣ 2 ^ w) (q : Queue T)
    (data : Option T) (pc : Pc) (c : Choice T) :
    dequeue (.bits w) n (q.wrap w) data (pc.wrap w) c =
      (unwrapped w n r q (.dequeue data pc) c).map (wordMove w) := by
  have hcell := cell_words hpow hdvd
  cases pc with
  | load =>
      cases c with
      | see lag => exact seen_words fun _ => rfl
      | call | go => rfl
  | check pos =>
      cases c with
      | go =>
          simp only [Pc.wrap, dequeue, unwrapped, hcell, SizeT.add_bits_mod,
            test_eq, Option.map_some, wordMove, words_afterTest]
          rfl
      | call | see => rfl
  | exchange pos =>
      cases c with
      | go =>
          simp only [Pc.wrap, dequeue, unwrapped]
          by_cases hval : (q.wrap w).readIdx.val = pos % 2 ^ w
          · have hval' : q.readIdx.val % 2 ^ w = pos % 2 ^ w := hval
            rw [if_pos hval, if_pos hval', ← hval', SizeT.add_bits_mod,
              Queue.wrap_setReadIdx]
            rfl
          · have hval' : ¬q.readIdx.val % 2 ^ w = pos % 2 ^ w := hval
            rw [if_neg hval, if_neg hval']
            rfl
      | see lag => exact seen_words fun _ => rfl
      | call => rfl
  | claimed pos =>
      cases c <;> rfl
  | copying pos =>
      cases c with
      | go =>
          simp only [Pc.wrap, dequeue, hcell]
          rfl
      | call | see => rfl
  | store pos =>
      cases c with
      | go =>
          simp only [Pc.wrap, dequeue, hcell, SizeT.add_bits_mod,
            Queue.wrap_setSeq]
          rfl
      | call | see => rfl

/-- The moves of the queue of words are those of the unwrapped one. -/
theorem move_words (hpow : ∃ k, n = 2 ^ k) (hdvd : n ∣ 2 ^ w) (q : Queue T)
    (th : Thread T) (c : Choice T) :
    move (.bits w) n r (q.wrap w) (th.words w) c =
      (unwrapped w n r q th c).map (wordMove w) := by
  cases th with
  | idle =>
      rcases c with (_ | _ | _ | _) | _ | _ <;> rfl
  | done pos res =>
      cases c <;> rfl
  | enqueueFailed data | dequeueFailed data =>
      cases c <;> cases r <;> rfl
  | enqueue data pc => exact enqueue_words hpow hdvd q data pc c
  | dequeue data pc => exact dequeue_words hpow hdvd q data pc c

/-! ## Runs of both queues -/

theorem dvd_two_pow (hpow : ∃ k, n = 2 ^ k) (hle : n ≤ 2 ^ (w - 2)) :
    n ∣ 2 ^ w := by
  obtain ⟨k, rfl⟩ := hpow
  have hk := (Nat.pow_le_pow_iff_right one_lt_two).mp hle
  exact pow_dvd_pow 2 (le_trans hk (Nat.sub_le w 2))

theorem one_le_width (hn : 2 ≤ n) (hle : n ≤ 2 ^ (w - 2)) : 1 ≤ w := by
  by_contra hzero
  rw [Nat.sub_eq_zero_of_le (by omega)] at hle
  omega

section Runs

variable [DecidableEq ι] {tr : List (ι × Event T)} {s u : State ι T}

/-- The words of a run of the unwrapped queue are a run of the queue of
words. -/
theorem run_words (hpow : ∃ k, n = 2 ^ k) (hdvd : n ∣ 2 ^ w)
    (hrun : (unwrappedSystem w n r ι T).Run tr u) :
    (system (.bits w) n r ι T).Run (tr.map fun a => (a.1, a.2.words w))
      (words w u) := by
  rw [system, Queue.new_wrap]
  exact Pool.run_image (move_words hpow hdvd) hrun

/-- Every run of the queue of words is the words of a run of the unwrapped
queue. -/
theorem exists_unwrapped (hpow : ∃ k, n = 2 ^ k) (hdvd : n ∣ 2 ^ w)
    (hrun : (system (.bits w) n r ι T).Run tr s) :
    ∃ tr' u, (unwrappedSystem w n r ι T).Run tr' u ∧
      tr'.map (fun a => (a.1, a.2.words w)) = tr ∧ words w u = s := by
  rw [system, Queue.new_wrap] at hrun
  exact Pool.exists_run_of_image (move_words hpow hdvd) hrun

end Runs

/-! ## The difference that a thread evaluates -/

/-- The operands of the signed difference that the next step of a thread
evaluates. -/
def compared (S : SizeT) (n : ℕ) (q : Queue T) : Thread T → Option (ℕ × ℕ)
  | .enqueue _ (.check pos) => some ((q.buffer (cell n pos)).seq, pos)
  | .dequeue _ (.check pos) =>
      some ((q.buffer (cell n pos)).seq, S.add pos 1)
  | _ => none

/-- The next step of `t` evaluates `dif` to compare the unwrapped sequence
number `seq` with the unwrapped position `pos`. -/
def Evaluates (w n : ℕ) (u : State ι T) (t : ι) (seq pos : ℕ) (dif : ℤ) :
    Prop :=
  compared .unbounded n u.shared (u.threads t) = some (seq, pos) ∧
    ∃ a b, compared (.bits w) n (words w u).shared ((words w u).threads t) =
      some (a, b) ∧ dif = (SizeT.bits w).signedDif a b

theorem compared_words (hpow : ∃ k, n = 2 ^ k) (hdvd : n ∣ 2 ^ w) (q : Queue T)
    (th : Thread T) :
    compared (.bits w) n (q.wrap w) (th.words w) =
      (compared .unbounded n q th).map
        fun p => (p.1 % 2 ^ w, p.2 % 2 ^ w) := by
  have hcell := cell_words hpow hdvd
  cases th with
  | idle | done | enqueueFailed | dequeueFailed => rfl
  | enqueue data pc =>
      cases pc with
      | check pos =>
          simp only [Thread.words, Pc.wrap, compared, hcell]
          rfl
      | load | exchange | claimed | copying | store => rfl
  | dequeue data pc =>
      cases pc with
      | check pos =>
          simp only [Thread.words, Pc.wrap, compared, hcell,
            SizeT.add_bits_mod]
          rfl
      | load | exchange | claimed | copying | store => rfl

theorem Evaluates.dif_eq (hpow : ∃ k, n = 2 ^ k) (hdvd : n ∣ 2 ^ w)
    {u : State ι T} {t : ι} {seq pos : ℕ} {dif : ℤ}
    (h : Evaluates w n u t seq pos dif) :
    dif = (SizeT.bits w).signedDif (seq % 2 ^ w) (pos % 2 ^ w) := by
  obtain ⟨htrue, a, b, hwords, rfl⟩ := h
  change compared (.bits w) n (u.shared.wrap w) ((u.threads t).words w) = _
    at hwords
  rw [compared_words hpow hdvd, htrue] at hwords
  cases hwords
  rfl

theorem evaluates_of_compared (hpow : ∃ k, n = 2 ^ k) (hdvd : n ∣ 2 ^ w)
    {u : State ι T} {t : ι} {seq pos : ℕ}
    (h : compared .unbounded n u.shared (u.threads t) = some (seq, pos)) :
    Evaluates w n u t seq pos
      ((SizeT.bits w).signedDif (seq % 2 ^ w) (pos % 2 ^ w)) := by
  refine ⟨h, _, _, ?_, rfl⟩
  change compared (.bits w) n (u.shared.wrap w) ((u.threads t).words w) = _
  rw [compared_words hpow hdvd, h]
  rfl

/-! ## Positions that are not held for long -/

/-- How far a position that is still to be claimed lies behind the newest
one. -/
def behind (q : Queue T) : Thread T → ℕ
  | .enqueue _ (.check pos) | .enqueue _ (.exchange pos) =>
      q.writeIdx.val - pos
  | .dequeue _ (.check pos) | .dequeue _ (.exchange pos) =>
      q.readIdx.val - pos
  | _ => 0

/-- The steps that decide by a position: the tests and the compare-exchanges
that succeed. -/
def Event.decides : Event T → Bool
  | .step .check | .step (.claimWrite _ _) | .step (.claimRead _) => true
  | _ => false

/-- No step decides by a position that lies a quarter of the range behind the
newest one. -/
def Prompt (w : ℕ) (u : State ι T) (a : ι × Event T) : Prop :=
  a.2.decides → behind u.shared (u.threads a.1) < 2 ^ (w - 2)

instance (w : ℕ) (u : State ι T) (a : ι × Event T) : Decidable (Prompt w u a) :=
  inferInstanceAs (Decidable (_ → _))

section Prompt

variable {log : List T} {q : Queue T} {pos : ℕ}

/-- A cell lies less than a lap ahead of what may be written. -/
theorem seqOf_le (hn : 2 ≤ n) (h : SharedInv n log q) (i : ℕ) :
    q.seqOf n i ≤ q.readIdx.val + n := by
  have hcap := h.write_le
  obtain ⟨j, hlo, hhi, hslot⟩ :=
    Ring.exists_slot_eq (show 0 < n by omega) q.readIdx.val i
  rw [StdAtomicMPMCQueue.seqOf_congr hslot.symm]
  by_cases hj : j < q.writeIdx.val
  · rcases h.seq_pushed j hlo hj with hseq | hseq <;> omega
  · rcases h.seq_free j (by omega) hhi with hseq | ⟨-, hseq⟩ <;> omega

/-- No cell lies more than a lap behind what is to be read. -/
theorem le_seqOf (hn : 2 ≤ n) (h : SharedInv n log q) (i : ℕ) :
    q.writeIdx.val ≤ q.seqOf n i + n ∧ q.readIdx.val + 1 ≤ q.seqOf n i + n := by
  have hread := h.read_le
  have hcap := h.write_le
  obtain ⟨j, hlo, hhi, hslot⟩ :=
    Ring.exists_slot_eq (show 0 < n by omega) q.readIdx.val i
  rw [StdAtomicMPMCQueue.seqOf_congr hslot.symm]
  by_cases hj : j < q.writeIdx.val
  · rcases h.seq_pushed j hlo hj with hseq | hseq <;> omega
  · rcases h.seq_free j (by omega) hhi with hseq | ⟨-, hseq⟩ <;> omega

/-- A thread that is not far behind compares numbers less than half the range
apart. -/
theorem near_of_behind (hn : 2 ≤ n) (hpow : ∃ k, n = 2 ^ k)
    (hle : n ≤ 2 ^ (w - 2)) (h : SharedInv n log q) {th : Thread T}
    (hth : StdAtomicMPMCQueue.ThreadInv n log q th.view)
    (hbehind : behind q th < 2 ^ (w - 2)) {seq : ℕ}
    (hcompared : compared .unbounded n q th = some (seq, pos)) :
    pos ≤ seq + 2 ^ (w - 1) ∧ seq < pos + 2 ^ (w - 1) := by
  obtain ⟨hhalf, -⟩ := quarter_of_le hn hle
  have hread := h.read_le
  cases th with
  | idle | done | enqueueFailed | dequeueFailed => cases hcompared
  | enqueue data pc =>
      cases pc with
      | load | exchange | claimed | copying | store => cases hcompared
      | check pos =>
          obtain ⟨rfl, rfl⟩ := Prod.mk.inj (Option.some.inj hcompared)
          rw [cell_eq hpow]
          have hheld : pos ≤ q.writeIdx.val := hth
          have hlag : q.writeIdx.val - pos < 2 ^ (w - 2) := hbehind
          have hlow := (le_seqOf hn h pos).1
          have hhigh := seqOf_le hn h pos
          simp only [Queue.seqOf] at hlow hhigh
          omega
  | dequeue data pc =>
      cases pc with
      | load | exchange | claimed | copying | store => cases hcompared
      | check pos =>
          obtain ⟨rfl, rfl⟩ := Prod.mk.inj (Option.some.inj hcompared)
          rw [cell_eq hpow]
          have hheld : pos ≤ q.readIdx.val := hth
          have hlag : q.readIdx.val - pos < 2 ^ (w - 2) := hbehind
          have hlow := (le_seqOf hn h pos).2
          have hhigh := seqOf_le hn h pos
          simp only [Queue.seqOf, SizeT.add_unbounded] at hlow hhigh ⊢
          omega

/-- Numbers less than half the range apart are equal where their words are. -/
theorem eq_of_near {seq : ℕ} (hw : 1 ≤ w)
    (hnear : pos ≤ seq + 2 ^ (w - 1) ∧ seq < pos + 2 ^ (w - 1))
    (hdif : (SizeT.bits w).signedDif (seq % 2 ^ w) (pos % 2 ^ w) = 0) :
    seq = pos := by
  have hhalf := SizeT.two_pow_eq_add hw
  have hpos := Nat.two_pow_pos (w - 1)
  have hword := (SizeT.signedDif_eq_zero_iff
    ((SizeT.bits w).fits_ofNat seq) ((SizeT.bits w).fits_ofNat pos)).mp hdif
  exact Ring.eq_of_slot_eq hword (by omega) (by omega)

variable [DecidableEq ι] {u : State ι T} {t : ι} {e : Event T}
  {th th' : Thread T}

/-- A test that is not passed leads back to the load. -/
theorem inv_back (hI : Inv n log (u.map Thread.view))
    {ready failed busy : Thread T} {dif : ℤ} (hdif : dif ≠ 0)
    (hsame : failed.view = busy.view)
    (hself : StdAtomicMPMCQueue.ThreadInv n log u.shared busy.view)
    (hw : busy.view.writing = ((u.map Thread.view).threads t).writing)
    (hr : busy.view.reading = ((u.map Thread.view).threads t).reading) :
    Inv n (log ++ (Event.step (T := T) .check).claimed?.toList)
      ((u.map Thread.view).move t u.shared
        (afterTest ready failed busy dif).view) := by
  have hview : (afterTest ready failed busy dif).view = busy.view := by
    rw [afterTest, if_neg hdif]
    split_ifs
    · exact hsame
    · rfl
  have hnone : log ++ (Event.step (T := T) .check).claimed?.toList = log :=
    List.append_nil log
  rw [hview, hnone]
  exact hI.own_move hself hw hr

/-- Prompt steps keep the invariant of the unbounded queue. -/
theorem inv_unwrapped (hn : 2 ≤ n) (hpow : ∃ k, n = 2 ^ k)
    (hle : n ≤ 2 ^ (w - 2)) (hI : Inv n log (u.map Thread.view)) {c : Choice T}
    (hth : u.threads t = th)
    (hmove : unwrapped w n r u.shared th c = some (e, q, th'))
    (hprompt : Prompt w u (t, e)) :
    Inv n (log ++ e.claimed?.toList) ((u.move t q th').map Thread.view) := by
  have hview : (u.map Thread.view).threads t = th.view :=
    congrArg Thread.view hth
  have hpc := hI.thread t
  rw [hview] at hpc
  have hbehind : e.decides → behind u.shared th < 2 ^ (w - 2) := hth ▸ hprompt
  obtain ⟨hhalf, hwhole⟩ := quarter_of_le hn hle
  revert hmove
  fun_cases unwrapped w n r u.shared th c <;> intro hmove
  case case1 data pos =>
    cases hmove
    have hnear := near_of_behind hn hpow hle hI.shared hpc (hbehind rfl) rfl
    rw [Pool.map_move]
    by_cases hdif : (SizeT.bits w).signedDif
        ((u.shared.buffer (cell n pos)).seq % 2 ^ w) (pos % 2 ^ w) = 0
    · have hseq := eq_of_near (one_le_width hn hle) hnear hdif
      rw [cell_eq hpow] at hseq
      rw [afterTest, if_pos hdif]
      exact hI.step hn hview (.pushReady hseq)
    · exact inv_back hI hdif rfl trivial (by rw [hview]; rfl)
        (by rw [hview]; rfl)
  case case2 data pos =>
    cases hmove
    have hnear := near_of_behind hn hpow hle hI.shared hpc (hbehind rfl) rfl
    rw [Pool.map_move]
    by_cases hdif : (SizeT.bits w).signedDif
        ((u.shared.buffer (cell n pos)).seq % 2 ^ w) ((pos + 1) % 2 ^ w) = 0
    · have hseq := eq_of_near (one_le_width hn hle) hnear hdif
      rw [cell_eq hpow] at hseq
      rw [afterTest, if_pos hdif]
      exact hI.step hn hview (.popReady hseq)
    · exact inv_back hI hdif rfl trivial (by rw [hview]; rfl)
        (by rw [hview]; rfl)
  case case3 data pos hval =>
    cases hmove
    have hlag : u.shared.writeIdx.val - pos < 2 ^ (w - 2) := hbehind rfl
    have hheld : pos ≤ u.shared.writeIdx.val := hpc.1
    obtain rfl := Ring.eq_of_slot_eq hval (by omega) (by omega)
    rw [Pool.map_move]
    exact hI.step hn hview (.pushClaim rfl)
  case case5 data pos hval =>
    cases hmove
    have hlag : u.shared.readIdx.val - pos < 2 ^ (w - 2) := hbehind rfl
    have hheld : pos ≤ u.shared.readIdx.val := hpc.1
    obtain rfl := Ring.eq_of_slot_eq hval (by omega) (by omega)
    rw [Pool.map_move]
    exact hI.step hn hview (.popClaim rfl)
  case case4 | case6 => cases hmove
  case case7 =>
    exact inv_step hn hI hth ((moves_iff (by omega) hpow).mp ⟨c, hmove⟩)

/-- The invariant holds along the runs whose steps are prompt. -/
theorem inv_of_prompt_run (hn : 2 ≤ n) (hpow : ∃ k, n = 2 ^ k)
    (hle : n ≤ 2 ^ (w - 2)) {tr : List (ι × Event T)}
    (hrun : ((unwrappedSystem w n r ι T).keeping (Prompt w)).Run tr u) :
    Inv n (enqueued tr) (u.map Thread.view) := by
  refine Lts.Run.induction
    (P := fun tr u => Inv n (enqueued tr) (u.map Thread.view))
    StdAtomicMPMCQueue.inv_init ?_ hrun
  rintro tr u ⟨t, e⟩ u' - hI ⟨⟨q, th, ⟨c, hmove⟩, rfl⟩, hprompt⟩
  rw [enqueued_snoc]
  exact inv_unwrapped hn hpow hle hI rfl hmove hprompt

end Prompt

/-! ## A difference that overflows -/

section Overflow

variable {q : Queue T} {k : ℕ}

/-- As many items as `k` have gone through the queue and all cells are free. -/
structure Cleared (n k : ℕ) (q : Queue T) : Prop where
  write_eq : q.writeIdx.val = k
  read_eq : q.readIdx.val = k
  seq_eq : ∀ i, k ≤ i → i < k + n → q.seqOf n i = i

theorem cleared_new : Cleared n 0 (Queue.new .unbounded : Queue T) where
  write_eq := rfl
  read_eq := rfl
  seq_eq i _ hi := Nat.mod_eq_of_lt (by omega)

/-- The cell of the item that goes through is free for the next lap. -/
theorem Cleared.next (hn : 2 ≤ n) (h : Cleared n k q) (item : T) :
    Cleared n (k + 1)
      (poppedFrom .unbounded n (pushedTo .unbounded n q item)) := by
  obtain ⟨hwrite, hread, hseq⟩ := h
  constructor
  · simp [poppedFrom, pushedTo, hwrite]
  · simp [poppedFrom, pushedTo, hread]
  · intro i hlo hhi
    simp only [poppedFrom, pushedTo, Queue.setSeq_readIdx,
      Queue.setData_readIdx, Queue.setWriteIdx_readIdx, SizeT.add_unbounded,
      hwrite, hread]
    by_cases hi : i = k + n
    · rw [StdAtomicMPMCQueue.seqOf_setSeq_of_eq
        (by rw [hi, Ring.slot_add_self]), hi]
    · have hslot : i % n ≠ k % n := fun heq => by
        have := Ring.eq_of_slot_eq heq (by omega) (by omega)
        omega
      rw [StdAtomicMPMCQueue.seqOf_setSeq_of_ne hslot,
        StdAtomicMPMCQueue.seqOf_setReadIdx,
        StdAtomicMPMCQueue.seqOf_setSeq_of_ne hslot,
        StdAtomicMPMCQueue.seqOf_setData, StdAtomicMPMCQueue.seqOf_setData,
        StdAtomicMPMCQueue.seqOf_setWriteIdx]
      exact hseq i (by omega) (by omega)

theorem Cleared.empty (h : Cleared n k q) :
    q.writeIdx.val = q.readIdx.val :=
  h.write_eq.trans h.read_eq.symm

theorem Cleared.pushed (h : Cleared n k q) (item : T) :
    (pushedTo .unbounded n q item).writeIdx.val ≠
        (pushedTo .unbounded n q item).readIdx.val ∧
      (pushedTo .unbounded n q item).seqOf n
        (pushedTo .unbounded n q item).readIdx.val =
          (pushedTo .unbounded n q item).readIdx.val + 1 := by
  have hempty := h.empty
  simp only [pushedTo, Queue.setSeq_writeIdx, Queue.setSeq_readIdx,
    Queue.setData_writeIdx, Queue.setData_readIdx, Queue.setWriteIdx_writeIdx,
    Queue.setWriteIdx_readIdx, Atomic.val_store, SizeT.add_unbounded, hempty]
  constructor
  · omega
  · exact StdAtomicMPMCQueue.seqOf_setSeq_of_eq rfl

theorem Cleared.free (hn : 2 ≤ n) (h : Cleared n k q) :
    q.seqOf n q.writeIdx.val = q.writeIdx.val := by
  rw [h.write_eq]
  exact h.seq_eq k le_rfl (by omega)

/-- The choices of a thread that runs alone and enqueues where the queue is
empty and dequeues where it is not. -/
def inTurn (item : T) (q : Queue T) : Thread T → Choice T
  | .idle =>
      if q.writeIdx.val = q.readIdx.val then .call (.push item)
      else .call .pop
  | .done _ _ => .go
  | th => lone q th

theorem alone_enqueue (hpow : ∃ k, n = 2 ^ k) (item : T)
    (hempty : q.writeIdx.val = q.readIdx.val)
    (hseq : q.seqOf n q.writeIdx.val = q.writeIdx.val) :
    (Pool.alone (unwrapped w n r) (inTurn item))^[8] (q, .idle) =
      (pushedTo .unbounded n q item, .idle) := by
  rw [Queue.seqOf, hempty] at hseq
  simp [Pool.alone, inTurn, lone, unwrapped, move, enqueue, cell_eq hpow,
    hempty, hseq, SizeT.signedDif, afterTest, pushedTo]

theorem alone_dequeue (hn : 1 ≤ n) (hpow : ∃ k, n = 2 ^ k) (item : T)
    (hne : q.writeIdx.val ≠ q.readIdx.val)
    (hseq : q.seqOf n q.readIdx.val = q.readIdx.val + 1) :
    (Pool.alone (unwrapped w n r) (inTurn item))^[8] (q, .idle) =
      (poppedFrom .unbounded n q, .idle) := by
  rw [Queue.seqOf] at hseq
  have hlap : q.readIdx.val + (n - 1) + 1 = q.readIdx.val + n := by omega
  simp [Pool.alone, inTurn, lone, unwrapped, move, dequeue, cell_eq hpow,
    hne, hseq, SizeT.signedDif, afterTest, hlap, poppedFrom]

theorem path_in_turn (u : State ℕ ℕ) (k : ℕ) :
    ∃ es : List (Event ℕ), (unwrappedSystem w n r ℕ ℕ).Path u
      (es.map fun e => (0, e)) (u.move 0
        ((Pool.alone (unwrapped w n r) (inTurn 0))^[k]
          (u.shared, u.threads 0)).1
        ((Pool.alone (unwrapped w n r) (inTurn 0))^[k]
          (u.shared, u.threads 0)).2) :=
  Pool.path_of_alone (inTurn 0) _ _ 0 k u

theorem exists_cleared (w : ℕ) (r : Caller) (hn : 2 ≤ n)
    (hpow : ∃ k, n = 2 ^ k) (k : ℕ) :
    ∃ tr u, (unwrappedSystem w n r ℕ ℕ).Run tr u ∧ Cleared n k u.shared ∧
      u.threads 0 = .idle := by
  induction k with
  | zero => exact ⟨[], _, Lts.Run.init, cleared_new, rfl⟩
  | succ k ih =>
      obtain ⟨tr, u, hrun, hcleared, hidle⟩ := ih
      obtain ⟨es, hfst⟩ := path_in_turn (w := w) (n := n) (r := r) u 8
      rw [hidle, alone_enqueue hpow 0 hcleared.empty (hcleared.free hn)] at hfst
      obtain ⟨es', hsnd⟩ := path_in_turn (w := w) (n := n) (r := r)
        (u.move 0 (pushedTo .unbounded n u.shared 0) .idle) 8
      rw [Pool.move_threads_self, Pool.move_shared,
        alone_dequeue (by omega) hpow 0 (hcleared.pushed 0).1
          (hcleared.pushed 0).2,
        Pool.move_move] at hsnd
      exact ⟨_, _, Lts.Path.trans hrun (hfst.trans hsnd), hcleared.next hn 0,
        Pool.move_threads_self _ _ _ _⟩

/-- A dequeue that finds nothing evaluates the difference of one position. -/
theorem exists_evaluates (r : Caller) (hn : 2 ≤ n) (hpow : ∃ k, n = 2 ^ k)
    (hdvd : n ∣ 2 ^ w) (k : ℕ) :
    ∃ tr u, (unwrappedSystem w n r ℕ ℕ).Run tr u ∧
      Evaluates w n u 0 k (k + 1)
        ((SizeT.bits w).signedDif (k % 2 ^ w) ((k + 1) % 2 ^ w)) := by
  obtain ⟨tr, u, hrun, hcleared, hidle⟩ := exists_cleared w r hn hpow k
  have hcall : (unwrappedSystem w n r ℕ ℕ).step u
      (0, .step (.call r.dequeueOp))
      (u.move 0 u.shared (.dequeue none .load)) :=
    ⟨_, _, ⟨.call .pop, by rw [hidle]; rfl⟩, rfl⟩
  have hload : (unwrappedSystem w n r ℕ ℕ).step
      (u.move 0 u.shared (.dequeue none .load)) (0, .step (.load .read 0))
      (u.move 0 u.shared (.dequeue none (.check u.shared.readIdx.val))) :=
    ⟨_, _, ⟨.see 0, by rw [Pool.move_threads_self]; rfl⟩,
      (Pool.move_move ..).symm⟩
  refine ⟨_, _, (hrun.tail hcall).tail hload, ?_⟩
  have hseq := hcleared.seq_eq k le_rfl (by omega)
  refine evaluates_of_compared hpow hdvd ?_
  rw [Pool.move_shared, Pool.move_threads_self, compared, cell_eq hpow,
    hcleared.read_eq]
  rw [Queue.seqOf] at hseq
  rw [hseq]
  rfl

end Overflow

/-! ## Where the difference tells the order -/

/-- The queue of words goes along with the unwrapped queue.  The difference it
evaluates lies in the range of `std::intptr_t` and tells whether the unwrapped
sequence number is below, equal to or above the unwrapped position just if both
have taken the same turns and lie near each other, or lie so far apart that the
turns cancel out.  Where steps are prompt they are near, and only the turns
matter. -/
theorem signed_tells_order_iff [DecidableEq ι] (hn : 2 ≤ n)
    (hpow : ∃ k, n = 2 ^ k) (hle : n ≤ 2 ^ (w - 2)) (r : Caller) :
    (∀ (tr : List (ι × Event T)) s, (system (.bits w) n r ι T).Run tr s →
      ∃ tr' u, (unwrappedSystem w n r ι T).Run tr' u ∧
        tr'.map (fun a => (a.1, a.2.words w)) = tr ∧ words w u = s) ∧
    (∀ (tr : List (ι × Event T)) u, (unwrappedSystem w n r ι T).Run tr u →
      (system (.bits w) n r ι T).Run (tr.map fun a => (a.1, a.2.words w))
        (words w u) ∧
      ∀ t seq pos dif, Evaluates w n u t seq pos dif →
        (SizeT.TellsOrder w dif seq pos ↔ SizeT.Comparable w seq pos)) ∧
    ∀ (tr : List (ι × Event T)) u,
      ((unwrappedSystem w n r ι T).keeping (Prompt w)).Run tr u →
      ∀ t seq pos dif, Evaluates w n u t seq pos dif →
        behind u.shared (u.threads t) < 2 ^ (w - 2) →
        (SizeT.TellsOrder w dif seq pos ↔
          SizeT.turns w seq = SizeT.turns w pos) := by
  have hdvd := dvd_two_pow hpow hle
  have hw := one_le_width hn hle
  refine ⟨fun tr s => exists_unwrapped hpow hdvd, ?_, ?_⟩
  · intro tr u hrun
    refine ⟨run_words hpow hdvd hrun, fun t seq pos dif heval => ?_⟩
    rw [heval.dif_eq hpow hdvd]
    exact SizeT.tellsOrder_iff hw
  · intro tr u hrun t seq pos dif heval hbehind
    have hI := inv_of_prompt_run hn hpow hle hrun
    obtain ⟨hge, hlt⟩ :=
      near_of_behind hn hpow hle hI.shared (hI.thread t) hbehind heval.1
    rw [heval.dif_eq hpow hdvd, SizeT.tellsOrder_iff hw]
    exact SizeT.comparable_iff_turns_eq hw hge hlt

/-- Counters of three bits after five items, and a dequeue that finds
nothing. -/
theorem signed_tells_order_laps :
    ∃ tr u, ((unwrappedSystem 3 2 .once ℕ ℕ).keeping (Prompt 3)).Run tr u ∧
      Evaluates 3 2 u 0 5 6 (-1) ∧ SizeT.TellsOrder 3 (-1) 5 6 := by
  obtain ⟨⟨tr, u⟩, hexec, hlast⟩ := Option.map_eq_some_iff.mp
    (show (Lts.exec
        (fun u c => (Pool.next (unwrapped 3 2 .once) u c).filter
          fun m => Prompt 3 u m.1)
        ⟨Queue.new .unbounded, fun _ => .idle⟩
        (StdAtomicMPMCQueue.laps ++ [(0, .call .pop), (0, .see 0)])).map
        (fun r => decide
          (compared .unbounded 2 r.2.shared (r.2.threads 0) = some (5, 6) ∧
            compared (.bits 3) 2 (words 3 r.2).shared
              ((words 3 r.2).threads 0) = some (5, 6) ∧
            behind r.2.shared (r.2.threads 0) < 2 ^ (3 - 2))) = some true
      by decide +kernel)
  obtain ⟨htrue, hwords, hbehind⟩ := of_decide_eq_true hlast
  have hrun :
      ((unwrappedSystem 3 2 .once ℕ ℕ).keeping (Prompt 3)).Run tr u := by
    refine Lts.path_of_exec ?_ hexec
    intro s c a s' hnext
    obtain ⟨hstep, hprompt⟩ := Option.filter_eq_some_iff.mp hnext
    exact ⟨Pool.step_of_next hstep, of_decide_eq_true hprompt⟩
  have heval : Evaluates 3 2 u 0 5 6 (-1) := ⟨htrue, 5, 6, hwords, by decide⟩
  have htells := (signed_tells_order_iff le_rfl ⟨1, rfl⟩ le_rfl .once).2.2 tr u
    hrun 0 5 6 (-1) heval hbehind
  exact ⟨tr, u, hrun, heval, htells.mpr (by decide)⟩

/-- With words of 32 bits and 1024 cells, a dequeue that finds nothing after
`2 ^ 31 - 1` items evaluates a difference of `2 ^ 32 - 1`, where it should find
the sequence number one below the position. -/
theorem signed_difference_overflows :
    ∃ tr u, (system (.bits 32) 1024 .once ℕ ℕ).Run
        (tr.map fun a => (a.1, a.2.words 32)) (words 32 u) ∧
      (unwrappedSystem 32 1024 .once ℕ ℕ).Run tr u ∧
      Evaluates 32 1024 u 0 2147483647 2147483648 4294967295 ∧
      ¬SizeT.TellsOrder 32 4294967295 2147483647 2147483648 := by
  obtain ⟨tr, u, hrun, heval⟩ := exists_evaluates (w := 32) (n := 1024) .once
    (by decide) ⟨10, rfl⟩ ⟨2 ^ 22, by decide⟩ 2147483647
  refine ⟨tr, u, run_words ⟨10, rfl⟩ ⟨2 ^ 22, by decide⟩ hrun, hrun, ?_, ?_⟩
  · have hdif : (SizeT.bits 32).signedDif (2147483647 % 2 ^ 32)
        ((2147483647 + 1) % 2 ^ 32) = 4294967295 := by decide
    rw [hdif] at heval
    exact heval
  · intro h
    exact absurd h.lt (by decide)

end MpmcBoundedQueue
end ConcurrentQueues
