import ConcurrentQueues.Mpmc.RaceFree
import ConcurrentQueues.Support.Refinement

/-!
# The multi-producer multi-consumer queues are FIFO queues under their orders

A call takes effect at its successful compare-exchange, which sees the newest
index.  The cell has been passed on by then, so the capacity is kept and a pop
finds the item that was claimed by the push at its position.  A call of
`mpmc_bounded_queue` may see an old `seq_` and refuse for no reason.
-/

namespace ConcurrentQueues

universe u v

namespace Mpmc

open Fifo

variable {ι : Type v} {T : Type u} {V : Variant} {n k : ℕ} {log : List T}

/-! ## The atomic object a state stands for -/

/-- The starts and returns of a run. -/
def shows : ι × Event T → Option (ι × Act (Op T) (Res T))
  | (t, .call op) => some (t, .call op)
  | (t, .ret r) => some (t, .ret r)
  | _ => none

/-- The operation that a call performs. -/
def opOf (refuses : Bool) : Role → Option T → Op T
  | .push, some x => if refuses then .tryPush x else .push x
  | _, _ => if refuses then .tryPop else .pop

/-- Where a call stands.  It has its result once it has claimed a position. -/
def Thread.phase (refuses : Bool) (log : List T) :
    Thread T → Phase (Op T) (Res T)
  | .idle => .idle
  | .run role _ (.access idx) | .run role _ (.store idx) =>
      .done (role.success log[idx]?)
  | .run role item _ => .pending (opOf refuses role item)
  | .done r => .done r

/-- The queue with its unread items, and where the calls stand. -/
def abstraction (V : Variant) (log : List T) (k : ℕ) (s : State ι T) :
    Pool ι (List T) (Phase (Op T) (Res T)) :=
  ⟨log.drop k, fun t => (s.threads t).phase V.refuses log⟩

/-- The object that a queue implements. -/
def Variant.object (V : Variant) (n : ℕ) (T : Type u) :
    SeqObject (List T) (Op T) (Res T) :=
  hesitant T n V.refuses V.refuses

section Simulation

variable [DecidableEq ι] {s : State ι T} {t : ι} {e : Event T}
  {mem' : Memory ι T} {th' : Thread T} {log' : List T} {k' : ℕ}

omit [DecidableEq ι] in
/-- Later pushes do not change where a call stands. -/
theorem phase_of_prefix (h : Inv n log k s) (hlog : log <+: log') (t : ι) :
    (s.threads t).phase V.refuses log' =
      (s.threads t).phase V.refuses log := by
  obtain ⟨more, rfl⟩ := hlog
  have hheld : ∀ role idx, (s.threads t).holds = some (role, idx) →
      ∃ item, Held n log k s.shared role item idx :=
    fun _ _ => (h.threads t).held
  cases hth : s.threads t with
  | idle | done => rfl
  | run role item pc =>
      rw [hth] at hheld
      cases pc with
      | load | check | exchange => rfl
      | access idx | store idx =>
          obtain ⟨item', hheld⟩ := hheld role idx rfl
          rw [Thread.phase, Thread.phase,
            List.getElem?_append_left (hheld.lt_length h.memory)]

/-- A step that leaves the call of its thread where it is. -/
theorem matches_stay (hphase : th'.phase V.refuses log =
      (s.threads t).phase V.refuses log) :
    ((V.object n T).atomic ι).Matches SeqObject.seen (abstraction V log k s)
      none (abstraction V log k (s.move t mem' th')) := by
  have hsame : abstraction V log k (s.move t mem' th') =
      abstraction V log k s := by
    simp only [abstraction, Pool.mk.injEq, true_and]
    funext t'
    by_cases ht' : t' = t
    · subst ht'
      rw [Pool.move_threads_self]
      exact hphase
    · rw [Pool.move_threads_of_ne _ _ _ ht']
  rw [hsame]
  exact .stay _

/-- A step that moves the call of its thread. -/
theorem matches_act (h : Inv n log k s) (act : Act (Op T) (Res T))
    (hlog : log <+: log')
    (hmove : (V.object n T).Move (log.drop k)
      ((s.threads t).phase V.refuses log) act (log'.drop k')
      (th'.phase V.refuses log')) :
    ((V.object n T).atomic ι).Matches SeqObject.seen (abstraction V log k s)
      (SeqObject.seen (t, act))
      (abstraction V log' k' (s.move t mem' th')) := by
  refine Lts.Matches.step ⟨_, _, hmove, ?_⟩
  simp only [abstraction, Pool.move, Pool.mk.injEq, true_and]
  funext t'
  by_cases ht' : t' = t
  · subst ht'
    simp
  · simp only [Function.update_of_ne ht']
    exact phase_of_prefix h hlog t'

theorem phase_checked {role : Role} {item : Option T} {idx seq : ℕ}
    (hseq : ¬(seq ≠ role.expects idx ∧ V.refuses ∧ seq < role.expects idx)) :
    (V.checked role item idx seq).phase V.refuses log =
      .pending (opOf V.refuses role item) := by
  rw [Variant.checked]
  split_ifs with heq hlags
  · rfl
  · exact absurd ⟨heq, hlags⟩ hseq
  · rfl

/-- A call may refuse. -/
theorem hesitates_failure {role : Role} {item : Option T} {l : List T}
    (hrefuses : V.refuses) (hitem : role = .push → item.isSome) :
    Hesitates n V.refuses V.refuses l (opOf V.refuses role item) role.failure
      l := by
  cases role with
  | push =>
      obtain ⟨x, rfl⟩ := Option.isSome_iff_exists.mp (hitem rfl)
      rw [opOf, if_pos hrefuses]
      exact .refuse hrefuses
  | pop =>
      change Hesitates n V.refuses V.refuses l
        (if V.refuses then .tryPop else .pop) (.popped none) l
      rw [if_pos hrefuses]
      exact .miss hrefuses

omit [DecidableEq ι] in
/-- A push takes effect at its claim. -/
theorem hesitates_push {mem : Memory ι T} {x : T} (hn : 1 ≤ n)
    (h : MemInv n (log ++ [x]) k mem) (hk : k ≤ log.length) :
    Hesitates n V.refuses V.refuses (log.drop k)
      (opOf V.refuses .push (some x)) (.pushed true)
      ((log ++ [x]).drop k) := by
  have hle := h.length_le hn
  rw [List.length_append, List.length_singleton] at hle
  have hroom : ((log.drop k).length : ℕ∞) < n := by
    rw [List.length_drop]
    exact_mod_cast (by omega : log.length - k < n)
  rw [List.drop_append_of_le_length hk, opOf]
  split_ifs
  · exact .apply (.tryPush hroom)
  · exact .apply (.push hroom)

omit [DecidableEq ι] in
/-- A pop takes effect at its claim. -/
theorem hesitates_pop {item : Option T} (hk : k < log.length) :
    Hesitates n V.refuses V.refuses (log.drop k) (opOf V.refuses .pop item)
      (.popped log[k]?) (log.drop (k + 1)) := by
  rw [List.drop_eq_getElem_cons hk, List.getElem?_eq_getElem hk]
  change Hesitates n V.refuses V.refuses _
    (if V.refuses then .tryPop else .pop) _ _
  split_ifs
  · exact .apply .tryPop
  · exact .apply .pop

omit [DecidableEq ι] in
/-- No more items are popped than pushed. -/
theorem MemInv.le_length {mem : Memory ι T} (h : MemInv n log k mem) :
    k ≤ log.length := by
  cases k with
  | zero => exact Nat.zero_le _
  | succ k => exact h.pop_lt (Nat.lt_succ_self k)

/-- A claim is matched by the effect of its call. -/
theorem matches_claim (hn : 1 ≤ n) (h : Inv n log k s) {o : MemoryOrder}
    {role : Role} {item : Option T} {idx : ℕ}
    (hth : s.threads t = .run role item (.exchange idx))
    (hcas : s.shared.compareExchange t o role.index idx (idx + 1) =
      some mem') :
    ((V.object n T).atomic ι).Matches SeqObject.seen (abstraction V log k s)
      none (abstraction V (log ++ (Event.claim role item).pushed?.toList)
        (k + if (Event.claim role item).pops then 1 else 0)
        (s.move t mem' (.run role item (.access idx)))) := by
  have hnext := (h.claimed hth hcas).memory
  obtain ⟨newest, hnewest, hval, -⟩ :=
    ViewMemory.compareExchange_eq_some_iff.mp hcas
  have hidx : idx = claims log k role := hval ▸ h.memory.newest hnewest
  have hsome := (h.run hth).1
  refine matches_act h .effect (List.prefix_append _ _) ?_
  rw [hth]
  cases role with
  | push =>
      obtain ⟨x, rfl⟩ := Option.isSome_iff_exists.mp (hsome rfl)
      exact .effect (hesitates_push hn hnext h.memory.le_length)
  | pop =>
      obtain rfl : idx = k := hidx
      have hlt : idx < log.length := by
        simpa [Event.pushed?] using hnext.pop_lt (Nat.lt_succ_self idx)
      have hsame : log ++ (Event.claim .pop item).pushed?.toList = log :=
        List.append_nil log
      rw [hsame]
      exact .effect (hesitates_pop hlt)

omit [DecidableEq ι] in
theorem abstraction_silent {s' : State ι T} (hpushed : e.pushed? = none)
    (hpops : e.pops = false) :
    abstraction V (log ++ e.pushed?.toList) (k + if e.pops then 1 else 0) s' =
      abstraction V log k s' := by
  rw [hpushed, hpops, Option.toList_none, List.append_nil]
  rfl

/-- Every step is matched on the atomic object. -/
theorem matches_move (hn : 1 ≤ n) (h : Inv n log k s)
    (hmove : Move V n t s.shared (s.threads t) e mem' th') :
    ((V.object n T).atomic ι).Matches SeqObject.seen (abstraction V log k s)
      (shows (t, e))
      (abstraction V (log ++ e.pushed?.toList) (k + if e.pops then 1 else 0)
        (s.move t mem' th')) := by
  generalize hth : s.threads t = th at hmove
  cases hmove with
  | @call op hop =>
      rw [abstraction_silent rfl rfl]
      refine matches_act h (.call op) (List.prefix_refl log) ?_
      rw [hth]
      have hop' : opOf V.refuses (roleOf op) op.item? = op := by
        cases op <;> cases hr : V.refuses <;>
          simp_all [Op.blocks, opOf, roleOf, Op.takes, Op.item?]
      have hphase : (Thread.run (roleOf op) op.item? .load).phase V.refuses
          log = .pending op := congrArg Phase.pending hop'
      rw [hphase]
      exact .call _ op
  | load hload | retry hload =>
      rw [abstraction_silent rfl rfl]
      exact matches_stay (by rw [hth]; rfl)
  | @check role item idx i seq _ hload =>
      rw [abstraction_silent rfl rfl]
      by_cases hseq :
          seq ≠ role.expects idx ∧ V.refuses ∧ seq < role.expects idx
      · -- the call refuses
        obtain ⟨hne, hlags⟩ := hseq
        have hchecked : V.checked role item idx seq = .done role.failure := by
          rw [Variant.checked, if_neg hne, if_pos hlags]
        rw [hchecked]
        refine matches_act h .effect (List.prefix_refl log) ?_
        rw [hth]
        exact .effect (hesitates_failure hlags.1 (h.run hth).1)
      · exact matches_stay (by rw [phase_checked hseq, hth]; rfl)
  | claim hcas => exact matches_claim hn h hth hcas
  | access =>
      rw [abstraction_silent rfl rfl]
      exact matches_stay (by rw [hth]; rfl)
  | @store role item idx =>
      rw [abstraction_silent rfl rfl]
      obtain ⟨-, -, -, hitem, -⟩ := h.run hth
      exact matches_stay (by rw [hth, Thread.phase, Thread.phase, hitem])
  | @ret r =>
      rw [abstraction_silent rfl rfl]
      refine matches_act h (.ret r) (List.prefix_refl log) ?_
      rw [hth]
      exact .ret _ r

end Simulation

/-! ## The queues as their users see them -/

/-- A FIFO queue of capacity `n` without races, whose calls may refuse for no
reason if they may refuse at all. -/
structure WeakFifo (V : Variant) (n : ℕ) (ι : Type v) [DecidableEq ι]
    (T : Type u) : Prop where
  raceFree : ∀ tr s, (system V n ι T).Run tr s → ¬Racing n s
  implements : (V.object n T).Implements (system V n ι T) shows
    (fun tr _ o => o.shared = (pushed tr).drop (popped tr))
  bounds : ∀ tr s, (system V n ι T).Run tr s →
    popped tr ≤ (pushed tr).length ∧ (pushed tr).length ≤ popped tr + n

end Mpmc
end ConcurrentQueues
