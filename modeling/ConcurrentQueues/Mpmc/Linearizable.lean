import ConcurrentQueues.Mpmc.Preservation
import ConcurrentQueues.Support.Tickets

/-!
# `StdAtomicMPMCQueue` is a linearizable bounded FIFO queue

A push takes effect at its successful compare-exchange on `write_idx_`, a pop
at its successful compare-exchange on `read_idx_`.  The abstract queue holds
the items pushed and not yet claimed by a pop, also those whose copy into the
cell is still to come.
-/

namespace ConcurrentQueues

universe u v

namespace StdAtomicMPMCQueue

open Fifo

variable {ι : Type v} {T : Type u} {n : ℕ} {log : List T}

/-! ## Tickets -/

/-- The index of a push, from its claim to its return. -/
def Thread.pushing : Thread T → Option ℕ
  | .push _ pc => pc.owned
  | .done idx (.pushed _) => some idx
  | _ => none

/-- The index of a pop, from its claim to its return. -/
def Thread.popping : Thread T → Option ℕ
  | .pop _ pc => pc.owned
  | .done idx (.popped _) => some idx
  | _ => none

/-- `write_idx_` deals out the indexes of pushes. -/
def pushTickets : Tickets (Queue T) (Thread T) (Event T) where
  next q := q.writeIdx.val
  holding := Thread.pushing
  claims
    | .claimWrite idx _ => some idx
    | _ => none
  returns
    | .ret idx (.pushed _) => some idx
    | _ => none

/-- `read_idx_` deals out the indexes of pops. -/
def popTickets : Tickets (Queue T) (Thread T) (Event T) where
  next q := q.readIdx.val
  holding := Thread.popping
  claims
    | .claimRead idx => some idx
    | _ => none
  returns
    | .ret idx (.popped _) => some idx
    | _ => none

theorem pushTickets_effect {q q' : Queue T} {th th' : Thread T} {e : Event T}
    (h : Move .unbounded n q th e q' th') :
    pushTickets.Effect q th e q' th' := by
  cases h with
  | pushClaim h =>
      subst h
      exact .claim rfl rfl rfl rfl rfl
  | @ret idx r =>
      cases r with
      | pushed b => exact .ret idx rfl rfl rfl rfl rfl
      | popped item => exact .other rfl rfl rfl rfl
  | _ => exact .other rfl rfl rfl rfl

theorem popTickets_effect {q q' : Queue T} {th th' : Thread T} {e : Event T}
    (h : Move .unbounded n q th e q' th') :
    popTickets.Effect q th e q' th' := by
  cases h with
  | popClaim h =>
      subst h
      exact .claim rfl rfl rfl rfl rfl
  | @ret idx r =>
      cases r with
      | pushed b => exact .other rfl rfl rfl rfl
      | popped item => exact .ret idx rfl rfl rfl rfl rfl
  | _ => exact .other rfl rfl rfl rfl

section Runs

variable [DecidableEq ι] {tr : List (ι × Event T)} {s : State ι T}

theorem push_accounts (hrun : (system .unbounded n ι T).Run tr s) :
    pushTickets.Accounts tr s :=
  Tickets.accounts_of_run rfl rfl
    (fun h => pushTickets_effect (moves_iff.mp h)) hrun

theorem pop_accounts (hrun : (system .unbounded n ι T).Run tr s) :
    popTickets.Accounts tr s :=
  Tickets.accounts_of_run rfl rfl
    (fun h => popTickets_effect (moves_iff.mp h)) hrun

/-! ## Items by index -/

/-- The item at position `k` of the history was claimed with index `k`. -/
theorem claimWrite_mem_of_pushed (hrun : (system .unbounded n ι T).Run tr s)
    {k : ℕ} {x : T} (hk : (pushed tr)[k]? = some x) :
    ∃ t, (t, Event.claimWrite k x) ∈ tr := by
  have hall : (pushed tr).length = s.shared.writeIdx.val ∧
      ∀ k x, (pushed tr)[k]? = some x →
        ∃ t, (t, Event.claimWrite k x) ∈ tr := by
    clear hk
    refine Lts.Run.induction (P := fun tr s =>
      (pushed tr).length = s.shared.writeIdx.val ∧
        ∀ k x, (pushed tr)[k]? = some x →
          ∃ t, (t, Event.claimWrite k x) ∈ tr) ⟨rfl, by simp [pushed]⟩ ?_ hrun
    rintro tr s ⟨t, e⟩ s' - ⟨hlen, hmem⟩ ⟨q, th, hmove, rfl⟩
    have hmove := moves_iff.mp hmove
    have hkept : ∀ {k x}, (∃ t, (t, Event.claimWrite k x) ∈ tr) →
        ∃ t', (t', Event.claimWrite k x) ∈ tr ++ [(t, e)] := by
      rintro k x ⟨t', h⟩
      exact ⟨t', List.mem_append_left _ h⟩
    rw [pushed_snoc]
    generalize s.threads (t, e).1 = th₀ at hmove
    cases hmove with
    | @pushClaim item v hval =>
        refine ⟨by simp [Event.claimed?, hlen, hval], ?_⟩
        intro k x hk
        simp only [Event.claimed?, Option.toList_some] at hk
        by_cases hlt : k < (pushed tr).length
        · rw [List.getElem?_append_left hlt] at hk
          exact hkept (hmem k x hk)
        · rw [List.getElem?_append_right (by omega)] at hk
          have hidx : k - (pushed tr).length = 0 := by
            by_contra hne
            rw [List.getElem?_eq_none (by simp; omega)] at hk
            cases hk
          rw [hidx] at hk
          obtain rfl : item = x := by simpa using hk
          obtain rfl : k = v := by omega
          exact ⟨t, by simp⟩
    | _ =>
        refine ⟨by simp only [Event.claimed?, Option.toList_none,
          List.append_nil]; exact hlen, ?_⟩
        intro k x hk
        simp only [Event.claimed?, Option.toList_none, List.append_nil] at hk
        exact hkept (hmem k x hk)
  exact hall.2 k x hk

/-- A pop that claimed index `k` returns the item pushed with index `k`. -/
theorem popped_of_ret (hn : 2 ≤ n) (hrun : (system .unbounded n ι T).Run tr s)
    {t : ι} {k : ℕ} {item : Option T}
    (hret : (t, Event.ret k (.popped item)) ∈ tr) :
    k < s.shared.readIdx.val ∧ item = (pushed tr)[k]? := by
  have hall : Inv n (pushed tr) s ∧
      ∀ t k item, (t, Event.ret k (Res.popped item)) ∈ tr →
        k < s.shared.readIdx.val ∧ item = (pushed tr)[k]? := by
    clear hret
    refine Lts.Run.induction (P := fun tr s => Inv n (pushed tr) s ∧
      ∀ t k item, (t, Event.ret k (Res.popped item)) ∈ tr →
        k < s.shared.readIdx.val ∧ item = (pushed tr)[k]?)
      ⟨inv_init, by simp⟩ ?_ hrun
    rintro tr s ⟨t, e⟩ s' hrun ⟨hI, hmem⟩ ⟨q, th, hmove, rfl⟩
    have hmove := moves_iff.mp hmove
    refine ⟨by rw [pushed_snoc]; exact hI.step hn rfl hmove, ?_⟩
    have hmono : s.shared.readIdx.val ≤ q.readIdx.val := by
      generalize s.threads (t, e).1 = th₀ at hmove
      cases hmove with
      | popClaim h => exact h ▸ Nat.le_succ _
      | _ => exact le_rfl
    intro t' k item hk
    rcases List.mem_append.mp hk with hk | hk
    · obtain ⟨hlt, heq⟩ := hmem t' k item hk
      refine ⟨lt_of_lt_of_le hlt hmono, ?_⟩
      have := hI.shared.read_le
      rw [pushed_snoc,
        List.getElem?_append_left (by rw [hI.shared.log_length]; omega)]
      exact heq
    · obtain ⟨rfl, rfl⟩ := Prod.mk.injEq .. ▸ List.mem_singleton.mp hk
      have hth := hI.thread t'
      generalize s.threads (t', _).1 = th₀ at hmove hth
      cases hmove with
      | ret =>
          rw [pushed_snoc]
          simp only [Event.claimed?, Option.toList_none, List.append_nil]
          exact hth
  exact hall.2 t k item hret

end Runs

/-! ## The simulation -/

/-- What a step shows of the atomic object. -/
def shows : ι × Event T → Option (ι × Act (Op T) (Res T))
  | (t, .call op) => some (t, .call op)
  | (t, .claimWrite _ _) => some (t, .effect)
  | (t, .claimRead _) => some (t, .effect)
  | (t, .ret _ r) => some (t, .ret r)
  | _ => none

/-- Where the call of a thread stands on the atomic object.  The result of a
pop is known from its claim on. -/
def Thread.phase (log : List T) : Thread T → Phase (Op T) (Res T)
  | .idle => .idle
  | .push item pc =>
      match pc.owned with
      | none => .pending (.push item)
      | some _ => .done (.pushed true)
  | .pop _ pc =>
      match pc.owned with
      | none => .pending .pop
      | some idx => .done (.popped log[idx]?)
  | .done _ r => .done r

/-- The atomic object that a state of the queue stands for. -/
def abstraction (log : List T) (s : State ι T) :
    Pool ι (List T) (Phase (Op T) (Res T)) :=
  ⟨log.drop s.shared.readIdx.val, fun t => (s.threads t).phase log⟩

/-- Later pushes do not change where a call stands. -/
theorem phase_append {q : Queue T} {th : Thread T} (hq : SharedInv n log q)
    (hth : ThreadInv n log q th) (more : List T) :
    th.phase (log ++ more) = th.phase log := by
  have hitem : ∀ {v}, Reading n q v → (log ++ more)[v]? = log[v]? := by
    intro v hv
    have := hq.log_length
    have := hq.read_le
    have := hv.lt_read
    exact List.getElem?_append_left (by omega)
  cases th with
  | idle | push | done => rfl
  | pop item pc =>
      cases pc with
      | load | check | exchange => rfl
      | claimed v | copying v => simp only [Thread.phase, Pc.owned, hitem hth]
      | store v => simp only [Thread.phase, Pc.owned, hitem hth.1]

variable [DecidableEq ι]

theorem abstraction_move {s : State ι T} (hI : Inv n log s) (t : ι)
    (q : Queue T) (th : Thread T) (more : List T) :
    abstraction (log ++ more) (s.move t q th) =
      (abstraction log s).move t ((log ++ more).drop q.readIdx.val)
        (th.phase (log ++ more)) := by
  rw [abstraction, Pool.move]
  congr 1
  funext t'
  by_cases hne : t' = t
  · subst hne
    simp
  · simp only [Function.update_of_ne hne]
    exact phase_append hI.shared (hI.thread t') more

/-- A move that shows nothing leaves the atomic object where it is. -/
theorem abstraction_silent {s : State ι T} (hI : Inv n log s) {t : ι}
    {q : Queue T} {th : Thread T}
    (hread : q.readIdx.val = s.shared.readIdx.val)
    (hphase : th.phase log = (s.threads t).phase log) :
    abstraction log (s.move t q th) = abstraction log s := by
  have h := abstraction_move hI t q th []
  rw [List.append_nil, hread, hphase] at h
  rw [h, Pool.move, abstraction]
  congr 1
  exact Function.update_eq_self t _

/-- The queue is simulated by the atomic FIFO queue of its size. -/
theorem linearizes_abstraction (hn : 2 ≤ n) :
    (object T n).Linearizes (system .unbounded n ι T) shows
      (fun tr s o => o = abstraction (pushed tr) s) := by
  apply SeqObject.linearizes_of_simulation rfl
  · rintro tr s ⟨t, e⟩ s' o hrun rfl ⟨q, th, hmove, rfl⟩ hsilent
    have hI := inv_of_run hn hrun
    have hmove := moves_iff.mp hmove
    generalize hth : s.threads (t, e).1 = th₀ at hmove
    rw [pushed_snoc]
    cases hmove with
    | callPush | callPop | pushClaim | popClaim | ret => cases hsilent
    | @popCopyEnd item v =>
        simp only [Event.claimed?, Option.toList_none, List.append_nil]
        exact (abstraction_silent hI rfl (by rw [hth]; rfl)).symm
    | @popStore item v =>
        simp only [Event.claimed?, Option.toList_none, List.append_nil]
        have hpc : ThreadInv n (pushed tr) s.shared (.pop item (.store v)) :=
          hth ▸ hI.thread t
        refine (abstraction_silent hI rfl ?_).symm
        rw [hth, Thread.phase, hpc.2]
        rfl
    | _ =>
        simp only [Event.claimed?, Option.toList_none, List.append_nil]
        exact (abstraction_silent hI rfl (by rw [hth]; rfl)).symm
  · rintro tr s ⟨t, e⟩ s' o t' act hrun rfl ⟨q, th, hmove, rfl⟩ hshown
    have hI := inv_of_run hn hrun
    have hlen := hI.shared.log_length
    have hmove := moves_iff.mp hmove
    generalize hth : s.threads (t, e).1 = th₀ at hmove
    have hpc : ThreadInv n (pushed tr) s.shared th₀ := hth ▸ hI.thread t
    rw [pushed_snoc, abstraction_move hI]
    simp only [abstraction]
    cases hmove with
    | callPush item =>
        obtain ⟨rfl, rfl⟩ := Prod.mk.injEq .. ▸ Option.some.inj hshown
        rw [hth]
        refine ⟨_, _, .call _ (Op.push item), ?_⟩
        simp only [Event.claimed?, Option.toList_none, List.append_nil]
        rfl
    | callPop =>
        obtain ⟨rfl, rfl⟩ := Prod.mk.injEq .. ▸ Option.some.inj hshown
        rw [hth]
        refine ⟨_, _, .call _ Op.pop, ?_⟩
        simp only [Event.claimed?, Option.toList_none, List.append_nil]
        rfl
    | @pushClaim item v hval =>
        obtain ⟨rfl, rfl⟩ := Prod.mk.injEq .. ▸ Option.some.inj hshown
        subst hval
        have hseq := hpc.2.resolve_left (lt_irrefl _)
        have hroom := hI.shared.write_lt hn hseq
        have hle := hI.shared.read_le
        rw [hth]
        refine ⟨_, _, .effect (.push (x := item) ?_), ?_⟩
        · simp only [List.length_drop]
          exact_mod_cast (by omega :
            (pushed tr).length - s.shared.readIdx.val < n)
        · rw [← List.drop_append_of_le_length (by omega)]
          rfl
    | @popClaim item v hval =>
        obtain ⟨rfl, rfl⟩ := Prod.mk.injEq .. ▸ Option.some.inj hshown
        subst hval
        have hseq := hpc.2.resolve_left (lt_irrefl _)
        have hlt := hI.shared.read_lt hn hseq
        have hget : s.shared.readIdx.val < (pushed tr).length := by omega
        rw [hth, List.drop_eq_getElem_cons hget]
        refine ⟨_, _, .effect .pop, ?_⟩
        simp [Event.claimed?, Thread.phase, Pc.owned,
          List.getElem?_eq_getElem hget]
    | @ret idx r =>
        obtain ⟨rfl, rfl⟩ := Prod.mk.injEq .. ▸ Option.some.inj hshown
        rw [hth]
        refine ⟨_, _, .ret _ r, ?_⟩
        simp only [Event.claimed?, Option.toList_none, List.append_nil]
        rfl
    | _ => cases hshown

/-! ## The queue as its users see it -/

/-- What a run does with the items: pushes and pops draw their indexes in
order and hand each back once, at most `n` items are outstanding, and the pop
that claimed an index returns the item of the push that claimed it. -/
structure Delivers (n : ℕ) (tr : List (ι × Event T)) (s : State ι T) :
    Prop where
  pushes : pushTickets.Accounts tr s
  pops : popTickets.Accounts tr s
  read_le : s.shared.readIdx.val ≤ s.shared.writeIdx.val
  outstanding_le : s.shared.writeIdx.val - s.shared.readIdx.val ≤ n
  item_eq : ∀ t k item, (t, Event.ret k (.popped item)) ∈ tr →
    ∃ t' x, (t', Event.claimWrite k x) ∈ tr ∧ item = some x

theorem delivers_of_run (hn : 2 ≤ n) {tr : List (ι × Event T)}
    {s : State ι T} (hrun : (system .unbounded n ι T).Run tr s) :
    Delivers n tr s where
  pushes := push_accounts hrun
  pops := pop_accounts hrun
  read_le := (inv_of_run hn hrun).shared.read_le
  outstanding_le := by
    have := (inv_of_run hn hrun).shared.write_le
    omega
  item_eq := by
    intro t k item hret
    have hI := (inv_of_run hn hrun).shared
    obtain ⟨hlt, hitem⟩ := popped_of_ret hn hrun hret
    have hget : k < (pushed tr).length := by
      rw [hI.log_length]
      exact lt_of_lt_of_le hlt hI.read_le
    rw [List.getElem?_eq_getElem hget] at hitem
    obtain ⟨t', ht'⟩ :=
      claimWrite_mem_of_pushed hrun (List.getElem?_eq_getElem hget)
    exact ⟨t', _, ht', hitem⟩

/-- Every run of a queue of two cells or more is simulated by the FIFO queue
of capacity `n`, each call taking effect at its claim, and the abstract queue
holds the items of the indexes from `read_idx_` up to `write_idx_`. -/
theorem push_pop_linearizable (hn : 2 ≤ n) :
    (object T n).Linearizes (system .unbounded n ι T) shows
      (fun tr s o => o.shared = (pushed tr).drop s.shared.readIdx.val ∧
        Delivers n tr s) := by
  intro tr s hrun
  obtain ⟨o, horun, rfl⟩ := linearizes_abstraction hn tr s hrun
  exact ⟨_, horun, rfl, delivers_of_run hn hrun⟩

/-- Thread 0 pushes an item, and thread 1 pops it. -/
def handover : List (ℕ × Choice ℕ) :=
  [(0, .call (.push 7)), (1, .call .pop), (0, .see 0), (1, .see 0), (1, .go),
    (0, .go), (0, .go), (0, .go), (0, .go), (1, .see 0), (0, .go), (1, .go),
    (1, .go), (0, .go), (1, .go), (1, .go), (1, .go), (1, .go)]

theorem push_pop_linearizable_handover :
    ∃ (tr : List (ℕ × Event ℕ)) (s : State ℕ ℕ),
      (system .unbounded 2 ℕ ℕ).Run tr s ∧
        tr.getLast? = some (1, .ret 0 (.popped (some 7))) ∧
        ∃ o, ((object ℕ 2).atomic ℕ).Run (tr.filterMap shows) o ∧
          o.shared = (pushed tr).drop s.shared.readIdx.val ∧
          Delivers 2 tr s := by
  obtain ⟨⟨tr, s⟩, hexec, hlast⟩ := Option.map_eq_some_iff.mp
    (show (Lts.exec (Pool.next (move .unbounded 2))
        ⟨Queue.new .unbounded, fun _ => .idle⟩ handover).map
        (fun r => r.1.getLast?) = some (some (1, .ret 0 (.popped (some 7))))
      by with_unfolding_all rfl)
  have hrun : (system .unbounded 2 ℕ ℕ).Run tr s := Pool.run_of_exec hexec
  exact ⟨tr, s, hrun, hlast, push_pop_linearizable le_rfl tr s hrun⟩

end StdAtomicMPMCQueue
end ConcurrentQueues
