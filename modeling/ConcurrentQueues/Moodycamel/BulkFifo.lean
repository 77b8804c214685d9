import ConcurrentQueues.Moodycamel.Dealing

/-!
# The elements of one producer are a FIFO queue

An enqueue takes effect when it stores `tailIndex`, a dequeue that gets something
when it increments `headIndex`.  What a dequeue moves out of the places
afterwards is what stood at the front at that moment.
-/

namespace ConcurrentQueues

universe u v

namespace Moodycamel

open Bulk

variable {ι : Type v} {T : Type u}

/-- Where a call stands, when the elements in `log` have been published. -/
def phase (log : List T) : Thread T → Phase (Op T) (Res T)
  | .idle => .idle
  | .enqueue items _ => .pending (.enqueueBulk items)
  | .dequeue _ (.read firstIndex actual _) =>
      .done (.dequeued (((log.drop firstIndex).take actual).map some))
  | .dequeue max _ => .pending (.dequeueBulk max)
  | .done r => .done r

/-- The starts and returns of a run. -/
def shows : ι × Event T → Option (ι × Act (Op T) (Res T))
  | (t, .call op) => some (t, .call op)
  | (t, .ret r) => some (t, .ret r)
  | _ => none

/-- The queue at a state and where its calls stand. -/
def abstraction (tr : List (ι × Event T)) (s : State ι T) :
    Pool ι (Contents T) (Phase (Op T) (Res T)) :=
  ⟨⟨(published tr).length, (published tr).drop (taken tr)⟩, fun t =>
    phase (published tr) (s.threads t)⟩

section Runs

variable [DecidableEq ι] [Fintype ι] {V : Orders} {w BLOCK_SIZE : ℕ}
  {producer t : ι} {row : List T} {pub : ℕ} {d : Desk ι} {mem' : Memory ι T}
  {s : State ι T} {e : Event T} {th' : Thread T} {tr : List (ι × Event T)}

omit [DecidableEq ι] in
theorem Along.taken_le (h : Along producer row pub d tr s) :
    taken tr ≤ (published tr).length := by
  rw [← h.pub_eq, ← h.served_eq]
  exact h.inv.served_le

omit [DecidableEq ι] in
/-- Elements published later do not change what a dequeue has claimed. -/
theorem Along.phase_eq (h : Along producer row pub d tr s) (u : ι)
    (log : List T) :
    phase (published tr ++ log) (s.threads u) =
      phase (published tr) (s.threads u) := by
  cases hth : s.threads u with
  | dequeue max pc =>
      cases pc with
      | read first actual got =>
          obtain ⟨-, -, -, hfirst, -⟩ := h.inv.run hth
          have hserved := h.inv.served_le
          rw [phase, phase, take_drop_of_isPrefix (List.prefix_append _ _)]
          rw [← h.pub_eq]
          omega
      | _ => rfl
  | _ => rfl

omit [Fintype ι] in
theorem matches_stay (hpublished : e.published = []) (htaken : e.taken = 0)
    (hphase : phase (published tr) th' =
      phase (published tr) (s.threads t)) :
    ((Bulk.object T BLOCK_SIZE).atomic ι).Matches SeqObject.seen (abstraction tr s) none
      (abstraction (tr ++ [(t, e)]) (s.move t mem' th')) := by
  have hsame : abstraction (tr ++ [(t, e)]) (s.move t mem' th') =
      abstraction tr s := by
    simp only [abstraction, published_snoc, taken_snoc, hpublished, htaken,
      List.append_nil, Nat.add_zero, Pool.mk.injEq, true_and]
    funext u
    by_cases hu : u = t
    · subst hu
      rw [Pool.move_threads_self]
      exact hphase
    · rw [Pool.move_threads_of_ne _ _ _ hu]
  rw [hsame]
  exact .stay _

theorem matches_act (h : Along producer row pub d tr s)
    (act : Act (Op T) (Res T)) (items : List T) (n : ℕ)
    (hpublished : e.published = items) (htaken : e.taken = n)
    (hmove : (Bulk.object T BLOCK_SIZE).Move
      ⟨(published tr).length, (published tr).drop (taken tr)⟩
      (phase (published tr) (s.threads t)) act
      ⟨(published tr).length + items.length,
        (published tr ++ items).drop (taken tr + n)⟩
      (phase (published tr ++ items) th')) :
    ((Bulk.object T BLOCK_SIZE).atomic ι).Matches SeqObject.seen (abstraction tr s)
      (SeqObject.seen (t, act))
      (abstraction (tr ++ [(t, e)]) (s.move t mem' th')) := by
  subst hpublished htaken
  refine Lts.Matches.step ⟨_, _, hmove, ?_⟩
  simp only [abstraction, published_snoc, taken_snoc, Pool.move, Pool.mk.injEq,
    List.length_append, true_and]
  funext u
  by_cases hu : u = t
  · subst hu
    rw [Function.update_self, Function.update_self]
  · rw [Function.update_of_ne hu, Function.update_of_ne hu]
    exact h.phase_eq u e.published

/-- A dequeue that gets nothing. -/
theorem matches_miss (h : Along producer row pub d tr s) {max : ℕ}
    (hphase : phase (published tr) (s.threads t) = .pending (.dequeueBulk max)) :
    ((Bulk.object T BLOCK_SIZE).atomic ι).Matches SeqObject.seen (abstraction tr s) none
      (abstraction (tr ++ [(t, .inner)])
        (s.move t mem' (.done (.dequeued [])))) := by
  refine matches_act h .effect [] 0 rfl rfl ?_
  rw [hphase, List.append_nil]
  exact .effect (.dequeue (Nat.zero_le _) (Nat.zero_le _))

omit [DecidableEq ι] in
/-- An enqueue is refused only where it would begin a block. -/
theorem Along.needsBlock (h : Along producer row pub d tr s)
    (hbound : Bounded w tr) {items : List T} {startTailIndex : ℕ}
    (hth : s.threads t = .enqueue items (.allocate startTailIndex))
    (hdiff : 0 < blockBaseDiff w BLOCK_SIZE startTailIndex items.length) :
    NeedsBlock BLOCK_SIZE (published tr).length items.length := by
  obtain rfl : t = producer := h.inv.run hth
  have hproducing := h.inv.producing
  have hpending := h.pending_le
  rw [hth] at hproducing hpending
  obtain ⟨rfl, -⟩ := hproducing
  have hlt : startTailIndex + items.length < 2 ^ (w - 1) :=
    hpending.trans_lt hbound.1
  rw [← h.pub_eq]
  exact needsBlock_of_blockBaseDiff (hlt.trans_le
    (Nat.pow_le_pow_right Nat.two_pos (Nat.sub_le w 1))) hdiff

theorem matches_move (h : Along producer row pub d tr s) (hbound : Bounded w tr)
    {row' : List T} {pub' : ℕ} {d' : Desk ι}
    (h' : Along producer row' pub' d' (tr ++ [(t, e)]) (s.move t mem' th'))
    (hmove : Move V w BLOCK_SIZE producer t s.shared (s.threads t) e mem' th') :
    ((Bulk.object T BLOCK_SIZE).atomic ι).Matches SeqObject.seen (abstraction tr s)
      (shows (t, e)) (abstraction (tr ++ [(t, e)]) (s.move t mem' th')) := by
  generalize hth : s.threads t = th at hmove
  cases hmove with
  | @call op =>
      refine matches_act h (.call op) [] 0 rfl rfl ?_
      rw [hth, List.append_nil]
      cases op <;> exact .call _ _
  | start | allocate | construct | load | overcommit | fence | draw | read =>
      exact matches_stay rfl rfl (by rw [hth]; rfl)
  | refuse hdiff =>
      refine matches_act h .effect [] 0 rfl rfl ?_
      rw [hth, List.append_nil]
      exact .effect (.refuse (h.needsBlock hbound hth hdiff))
  | @publish items =>
      refine matches_act h .effect items 0 rfl rfl ?_
      rw [hth, Nat.add_zero, List.drop_append_of_le_length h.taken_le]
      exact .effect .enqueue
  | @optimistic max =>
      rw [asked]
      split
      · split_ifs
        · exact matches_stay rfl rfl (by rw [hth]; rfl)
        · exact matches_stay rfl rfl (by rw [hth]; rfl)
      · exact matches_miss h (by rw [hth]; rfl)
  | reload =>
      rw [checked]
      refine matches_stay rfl rfl ?_
      rw [hth]
      split_ifs <;> rfl
  | @refund max =>
      rw [refunded]
      split_ifs
      · exact matches_miss h (by rw [hth]; rfl)
      · exact matches_stay rfl rfl (by rw [hth]; rfl)
  | @take max overcommit my tail actual first _ hmod =>
      obtain ⟨hmax, hle, -⟩ := h.inv.run hth
      have hbound := h'.taken_le
      rw [taken_snoc, published_snoc] at hbound
      change taken tr + actual ≤ (published tr ++ []).length at hbound
      rw [List.append_nil] at hbound
      have hfirst := (ViewMemory.newest_of_modify hmod).1
      rw [h.inv.mem.head, h.served_eq] at hfirst
      obtain rfl := Option.some.inj hfirst
      refine matches_act h .effect [] actual rfl rfl ?_
      rw [hth, List.append_nil, ← List.drop_drop]
      refine .effect (.dequeue hle ?_)
      rw [List.length_drop]
      omega
  | @finish max first actual got hlt =>
      obtain ⟨-, -, hgot, hfirst, -, hvals, -⟩ := h.inv.run hth
      have hserved := h.inv.served_le
      refine matches_stay rfl rfl ?_
      rw [hth, phase, phase, ← h.published_eq,
        ← take_drop_of_isPrefix (List.take_prefix pub row)
          (by rw [h.published_eq, ← h.pub_eq]; omega),
        show actual = got.length by omega, ← hvals]
  | ret =>
      refine matches_act h (.ret _) [] 0 rfl rfl ?_
      rw [hth, List.append_nil]
      exact .ret _ _

/-- With orders that synchronize, and as long as the words are not exhausted, the
elements of one producer are a FIFO queue for any number of threads, no access to
an element races, and no more elements are claimed than were published. -/
theorem bulkFifo_of_synchronizes (hV : V.Synchronizes) (hw : 0 < w) :
    (Bulk.object T BLOCK_SIZE).ImplementsWhile (system V w BLOCK_SIZE producer T)
      (Bounded w) shows fun tr s o =>
        o.shared = ⟨(published tr).length,
            (published tr).drop (taken tr)⟩ ∧
          taken tr ≤ (published tr).length ∧ ¬Racing w s := by
  have himpl : (Bulk.object T BLOCK_SIZE).ImplementsWhile
      (system V w BLOCK_SIZE producer T) (Bounded w) shows
      fun tr s o => o = abstraction tr s := by
    refine SeqObject.implementsWhile_of_simulation (fun _ _ => Bounded.init)
      rfl ?_
    rintro tr s ⟨t, e⟩ s' o hrun hbound rfl ⟨c, mem', th', hmove, rfl⟩
    obtain ⟨row, pub, d, h⟩ := along_of_run hV hw hrun hbound.init
    have hmoves := moves_iff.mp ⟨c, hmove⟩
    obtain ⟨row', pub', d', h'⟩ := h.step hV hw hmoves hbound
    exact ⟨_, matches_move h hbound.init h' hmoves, rfl⟩
  intro tr s hrun hbound
  obtain ⟨tr', o, hrun', hseen, rfl⟩ := himpl tr s hrun hbound
  obtain ⟨row, pub, d, h⟩ := along_of_run hV hw hrun hbound
  exact ⟨tr', _, hrun', hseen, rfl, h.taken_le, not_racing hV hw hrun hbound⟩

theorem bulkFifo_of_synchronizes_source :
    (Bulk.object ℕ 32).ImplementsWhile
      (system ConcurrentQueue 64 32 (0 : Fin 8) ℕ) (Bounded 64) shows
      fun tr s o => o.shared =
          ⟨(published tr).length, (published tr).drop (taken tr)⟩ ∧
        taken tr ≤ (published tr).length ∧ ¬Racing 64 s :=
  bulkFifo_of_synchronizes ⟨rfl, rfl, rfl, rfl⟩ (by decide)

end Runs

end Moodycamel
end ConcurrentQueues
