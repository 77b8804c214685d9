import ConcurrentQueues.Atomic.Model
import ConcurrentQueues.Support.Bag
import Mathlib.Algebra.BigOperators.Group.Finset.Basic
import Mathlib.Algebra.Order.BigOperators.Group.Finset

/-!
# `AtomicQueue` is a bag

Whatever tickets the calls hold, a push puts its element into a slot that is
free and a pop takes out what it finds.  So no element is lost or delivered
twice, and there are never more of them than slots.  Nothing is said about the
order.
-/

namespace ConcurrentQueues

universe u v

namespace AtomicQueue

open Fifo

variable {ι : Type v} {V : Variant}

/-! ## Calls as their users see them -/

/-- Where a call stands. -/
def Thread.phase : Thread → Phase (Op ℕ) (Res ℕ)
  | .idle => .idle
  | .run op _ => .pending op
  | .done r => .done r

/-- The starts and returns of a run. -/
def shows : ι × Event → Option (ι × Act (Op ℕ) (Res ℕ))
  | (t, .call op) => some (t, .call op)
  | (t, .ret r) => some (t, .ret r)
  | _ => none

/-- The calls of a state on an object with value `q`. -/
def abstraction {Q : Type u} (q : Q) (s : State ι) :
    Pool ι Q (Phase (Op ℕ) (Res ℕ)) :=
  ⟨q, fun t => (s.threads t).phase⟩

section Shown

variable [DecidableEq ι] {Q : Type u} {S : SeqObject Q (Op ℕ) (Res ℕ)}
  {q q' : Q} {s : State ι} {t : ι} {may : End → Bool} {mem' : Memory ι}
  {e : Event} {th' : Thread}

theorem matches_stay (hphase : th'.phase = (s.threads t).phase) :
    (S.atomic ι).Matches SeqObject.seen (abstraction q s) none
      (abstraction q (s.move t mem' th')) := by
  have hsame : abstraction q (s.move t mem' th') = abstraction q s := by
    simp only [abstraction, Pool.mk.injEq, true_and]
    funext t'
    by_cases ht' : t' = t
    · subst ht'
      rw [Pool.move_threads_self]
      exact hphase
    · rw [Pool.move_threads_of_ne _ _ _ ht']
  rw [hsame]
  exact .stay _

theorem matches_act (act : Act (Op ℕ) (Res ℕ))
    (hmove : S.Move q (s.threads t).phase act q' th'.phase) :
    (S.atomic ι).Matches SeqObject.seen (abstraction q s)
      (SeqObject.seen (t, act)) (abstraction q' (s.move t mem' th')) := by
  refine Lts.Matches.step ⟨_, _, hmove, ?_⟩
  simp only [abstraction, Pool.move, Pool.mk.injEq, true_and]
  funext t'
  by_cases ht' : t' = t
  · subst ht'
    simp
  · simp only [Function.update_of_ne ht']

/-- A step takes effect where it puts or takes an element, and where a try call
is refused. -/
theorem matches_move (hmove : Move V t may s.shared (s.threads t) e mem' th')
    (hput : ∀ x op, e = .put x → op.item? = some x →
      S.apply q op (.pushed true) q')
    (htake : ∀ x op, e = .take x → op.item? = none →
      S.apply q op (.popped (some x)) q')
    (hrefuse : ∀ op, op.blocks = false → S.apply q op (refused op) q)
    (hsame : (∀ x, e ≠ .put x ∧ e ≠ .take x) → q' = q) :
    (S.atomic ι).Matches SeqObject.seen (abstraction q s) (shows (t, e))
      (abstraction q' (s.move t mem' th')) := by
  generalize hth : s.threads t = th at hmove
  cases hmove with
  | @call op hmay hop =>
      obtain rfl := hsame fun x => ⟨nofun, nofun⟩
      refine matches_act (.call op) ?_
      rw [hth]
      exact .call _ op
  | load | advance | claim | retry | fetch | lookPush | lookPop | pause
    | again =>
      obtain rfl := hsame fun x => ⟨nofun, nofun⟩
      exact matches_stay (by rw [hth]; rfl)
  | @check op k own other _ h =>
      obtain rfl := hsame fun x => ⟨nofun, nofun⟩
      rw [Variant.checked]
      split_ifs with hfull hblocks
      · exact matches_stay (by rw [hth]; rfl)
      · refine matches_act .effect ?_
        rw [hth]
        exact .effect (hrefuse op (by simpa using hblocks))
      · exact matches_stay (by rw [hth]; rfl)
  | @exchangePush op element own _ hop | @storePush op element _ own hop =>
      refine matches_act .effect ?_
      rw [hth]
      exact .effect (hput element op rfl hop)
  | @exchangePop op own value _ hop hspsc h =>
      simp only [Variant.exchanged] at htake hsame ⊢
      split_ifs at htake hsame ⊢ with hvalue
      · refine matches_act .effect ?_
        rw [hth]
        exact .effect (htake value op rfl hop)
      · obtain rfl := hsame fun x => ⟨nofun, nofun⟩
        exact matches_stay (by rw [hth]; rfl)
  | @storePop op element own hop =>
      refine matches_act .effect ?_
      rw [hth]
      exact .effect (htake element op rfl hop)
  | @ret r =>
      obtain rfl := hsame fun x => ⟨nofun, nofun⟩
      refine matches_act (.ret r) ?_
      rw [hth]
      exact .ret _ r

end Shown

/-! ## The elements in the slots -/

/-- What a slot holds. -/
def held (V : Variant) (mem : Memory ι) (i : ℕ) : Multiset ℕ :=
  match mem.newest (.element i) with
  | some value => if value = V.NIL then 0 else {value}
  | none => 0

/-- The elements in all slots. -/
def contents (V : Variant) (mem : Memory ι) : Multiset ℕ :=
  ∑ i ∈ Finset.range V.layout.size, held V mem i

section Contents

variable {mem mem' : Memory ι} {i x : ℕ}

theorem held_of_nil (h : mem.newest (.element i) = some V.NIL) :
    held V mem i = 0 := by
  rw [held, h]
  exact if_pos rfl

theorem held_of_ne (h : mem.newest (.element i) = some x) (hx : x ≠ V.NIL) :
    held V mem i = {x} := by
  rw [held, h]
  exact if_neg hx

theorem card_held_le : (held V mem i).card ≤ 1 := by
  rw [held]
  split
  · split_ifs <;> simp
  · simp

theorem card_contents_le : (contents V mem).card ≤ V.layout.size := by
  rw [contents, Multiset.card_sum]
  refine (Finset.sum_le_card_nsmul _ _ 1 fun i _ => card_held_le).trans ?_
  simp

theorem contents_congr
    (h : ∀ i, mem'.newest (.element i) = mem.newest (.element i)) :
    contents V mem' = contents V mem :=
  Finset.sum_congr rfl fun i _ => by rw [held, held, h]

/-- A slot that changes. -/
theorem contents_add (hi : i < V.layout.size)
    (h : ∀ j, j ≠ i → mem'.newest (.element j) = mem.newest (.element j)) :
    contents V mem' + held V mem i = contents V mem + held V mem' i := by
  have hmem : i ∈ Finset.range V.layout.size := Finset.mem_range.mpr hi
  have hrest : ∑ j ∈ (Finset.range V.layout.size).erase i, held V mem' j =
      ∑ j ∈ (Finset.range V.layout.size).erase i, held V mem j :=
    Finset.sum_congr rfl fun j hj => by
      rw [held, held, h j (Finset.ne_of_mem_erase hj)]
  rw [contents, contents, ← Finset.add_sum_erase _ _ hmem,
    ← Finset.add_sum_erase _ (held V mem) hmem, hrest, add_comm (held V mem' i),
    add_comm (held V mem i), add_assoc, add_assoc, add_comm (held V mem' i)]

theorem contents_put (hi : i < V.layout.size)
    (hold : mem.newest (.element i) = some V.NIL)
    (hnew : mem'.newest (.element i) = some x) (hx : x ≠ V.NIL)
    (h : ∀ j, j ≠ i → mem'.newest (.element j) = mem.newest (.element j)) :
    contents V mem' = x ::ₘ contents V mem := by
  have hsum := contents_add hi h
  rw [held_of_nil hold, held_of_ne hnew hx, add_zero] at hsum
  rw [hsum, add_comm, Multiset.singleton_add]

theorem contents_take (hi : i < V.layout.size)
    (hold : mem.newest (.element i) = some x) (hx : x ≠ V.NIL)
    (hnew : mem'.newest (.element i) = some V.NIL)
    (h : ∀ j, j ≠ i → mem'.newest (.element j) = mem.newest (.element j)) :
    contents V mem = x ::ₘ contents V mem' :=
  contents_put hi hnew hold hx fun j hj => (h j hj).symm

end Contents

/-! ## The bag -/

section Bag

variable [DecidableEq ι] {may : ι → End → Bool} {s : State ι} {t : ι}
  {mem mem' : Memory ι} {e : Event} {th' : Thread}

theorem element_ne {i j : ℕ} (h : j ≠ i) : Loc.element j ≠ .element i :=
  fun heq => h (Loc.element.inj heq)

theorem own_ne (e : End) (i : ℕ) : Loc.element i ≠ e.own := by
  cases e <;> nofun

/-- What a step of a queue with read-modify-writes does to the slots. -/
theorem contents_of_move (hspsc : V.spsc = false)
    (hitem : ∀ op pc, s.threads t = .run op pc → op.item? ≠ some V.NIL)
    (hmove : Move V t (may t) s.shared (s.threads t) e mem' th') :
    (∀ x, e = .put x → contents V mem' = x ::ₘ contents V s.shared) ∧
    (∀ x, e = .take x → contents V s.shared = x ::ₘ contents V mem') ∧
    ((∀ x, e ≠ .put x ∧ e ≠ .take x) →
      contents V mem' = contents V s.shared) := by
  generalize hth : s.threads t = th at hmove
  cases hmove with
  | call | again | ret => exact ⟨nofun, nofun, fun _ => rfl⟩
  | load h | check h | retry _ h | lookPush _ h | pause _ h =>
      exact ⟨nofun, nofun, fun _ =>
        contents_congr fun i => ViewMemory.newest_of_load h⟩
  | advance h | lookPop _ h | storePush _ h | storePop _ h =>
      rw [hspsc] at h
      cases h
  | claim _ h =>
      exact ⟨nofun, nofun, fun _ => contents_congr fun i =>
        (ViewMemory.newest_of_compareExchange h).2.2 _ (own_ne _ i)⟩
  | fetch h =>
      exact ⟨nofun, nofun, fun _ => contents_congr fun i =>
        (ViewMemory.newest_of_modify h).2.2 _ (own_ne _ i)⟩
  | @exchangePush op element own _ hop _ h =>
      obtain ⟨hold, hnew, hother⟩ := ViewMemory.newest_of_compareExchange h
      refine ⟨?_, nofun, fun hne => absurd rfl (hne element).1⟩
      rintro x ⟨⟩
      exact contents_put (V.layout.slot_lt own) hold hnew
        (fun heq => hitem op _ hth (heq ▸ hop))
        fun j hj => hother _ (element_ne hj)
  | @exchangePop op own value _ hop _ h =>
      obtain ⟨hold, hnew, hother⟩ := ViewMemory.newest_of_modify h
      simp only [Variant.exchanged]
      split_ifs with hvalue
      · refine ⟨nofun, ?_, fun hne => absurd rfl (hne value).2⟩
        rintro x ⟨⟩
        exact contents_take (V.layout.slot_lt own) hold hvalue hnew
          fun j hj => hother _ (element_ne hj)
      · obtain rfl : value = V.NIL := not_not.mp hvalue
        refine ⟨nofun, nofun, fun _ => contents_congr fun j => ?_⟩
        by_cases hj : j = V.layout.slot own
        · subst hj
          exact hnew.trans hold.symm
        · exact hother _ (element_ne hj)

/-- The element of a push in progress is not `NIL`. -/
theorem item_ne_of_run {tr : List (ι × Event)}
    (hrun : (system V may).Run tr s) :
    ∀ t op pc, s.threads t = .run op pc → op.item? ≠ some V.NIL := by
  refine Lts.Run.induction (P := fun _ s => ∀ t op pc,
    s.threads t = .run op pc → op.item? ≠ some V.NIL) nofun ?_ hrun
  rintro tr s ⟨u, e⟩ s' - h ⟨c, mem', th', hmove, rfl⟩
  have hmoves := moves_iff.mp ⟨c, hmove⟩
  refine Pool.forall_move (P := fun _ th => ∀ op pc, th = Thread.run op pc →
    op.item? ≠ some V.NIL) ?_ fun t _ => h t
  intro op pc hth'
  generalize hth : s.threads u = th at hmoves
  cases hmoves with
  | call _ hop => cases hth'; exact hop
  | check =>
      rw [Variant.checked] at hth'
      split_ifs at hth' <;> cases hth' <;> exact h u _ _ hth
  | exchangePop =>
      rw [Variant.exchanged] at hth'
      split_ifs at hth'
      cases hth'
      exact h u _ _ hth
  | exchangePush | storePush | storePop | ret => cases hth'
  | _ => cases hth'; exact h u _ _ hth

theorem simulates_bag (hspsc : V.spsc = false) (may : ι → End → Bool) :
    (Bag.object ℕ V.layout.size).Implements (system V may) shows
      fun _ s o => o = abstraction (contents V s.shared) s := by
  refine SeqObject.implements_of_simulation ?_ ?_
  · have hzero : contents V (Memory.new V.NIL : Memory ι) = 0 :=
      Finset.sum_eq_zero fun i _ => held_of_nil ViewMemory.newest_init
    change _ = abstraction (contents V (Memory.new V.NIL : Memory ι)) _
    rw [hzero]
    rfl
  · rintro tr s ⟨t, e⟩ s' o hrun rfl ⟨c, mem', th', hmove, rfl⟩
    have hmoves := moves_iff.mp ⟨c, hmove⟩
    obtain ⟨hput, htake, hsame⟩ :=
      contents_of_move hspsc (item_ne_of_run hrun t) hmoves
    refine ⟨_, matches_move hmoves (fun x op he hop => ?_)
      (fun x op he hop => ?_) (fun op hop => ?_) hsame, rfl⟩
    · change Bag.Apply _ _ _ _ (contents V mem')
      rw [hput x he]
      refine Bag.Apply.put hop ?_
      have hcard : (contents V mem').card ≤ V.layout.size := card_contents_le
      rw [hput x he, Multiset.card_cons] at hcard
      exact_mod_cast hcard
    · change Bag.Apply _ (contents V s.shared) _ _ _
      rw [htake x he]
      exact Bag.Apply.take hop
    · cases op with
      | push | pop => cases hop
      | tryPush x => exact .refuse
      | tryPop => exact .miss

/-- With read-modify-writes the queue is a bag of its elements, for any number of
threads and whatever slots the tickets name. -/
theorem implements_bag (hspsc : V.spsc = false) (may : ι → End → Bool) :
    (Bag.object ℕ V.layout.size).Implements (system V may) shows
      fun _ s o => o.shared = contents V s.shared := by
  intro tr s hrun
  obtain ⟨tr', o, hrun', hseen, rfl⟩ := simulates_bag hspsc may tr s hrun
  exact ⟨tr', _, hrun', hseen, rfl⟩

theorem implements_bag_adapter :
    (Bag.object ℕ (AtomicQueueAdapter 1024 8 (by decide)
        (by decide)).layout.size).Implements
      (system (AtomicQueueAdapter 1024 8 (by decide) (by decide))
        fun (_ : ℕ) _ => true) shows
      fun _ s o => o.shared =
        contents (AtomicQueueAdapter 1024 8 (by decide) (by decide)) s.shared :=
  implements_bag rfl _

end Bag

end AtomicQueue
end ConcurrentQueues
