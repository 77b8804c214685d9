import Mathlib.Algebra.BigOperators.Group.Finset.Basic
import Mathlib.Data.Fintype.Basic
import Mathlib.Algebra.Order.BigOperators.Group.Finset

/-!
# Dealing out tickets for goods that may not be there

Goods arrive in a row, and clients want to take them in that order without
waiting for each other.  A client draws numbered tickets before it knows whether
there are as many goods.  It then looks at the goods and serves itself if its
number, less the tickets that it knows to have been given back, is within them.
Otherwise it gives its tickets back, some or all of them.

What a client knows may be old.  Still nobody is ever served beyond the goods
that somebody who was served has seen: of all clients served take the one with
the largest number.  The tickets below its number were given back, are still
out, or have been served, and those that it knew to be given back are among the
first.
-/

namespace ConcurrentQueues

universe u

/-- The tickets of a client: the first number, the refunds that the client knew
of when it drew, and how many tickets it has not accounted for. -/
structure Ticket where
  number : ℕ
  credit : ℕ
  due : ℕ

namespace Ticket

/-- What the tickets with numbers less than `b` still ask for. -/
def share (b : ℕ) : Option Ticket → ℕ
  | none => 0
  | some k => if k.number < b then k.due else 0

@[simp] theorem share_none (b : ℕ) : share b none = 0 := rfl

theorem share_of_lt {b : ℕ} {k : Ticket} (h : k.number < b) :
    share b (some k) = k.due := if_pos h

theorem share_of_le {b : ℕ} {k : Ticket} (h : b ≤ k.number) :
    share b (some k) = 0 := if_neg (Nat.not_lt.mpr h)

end Ticket

/-- The tickets drawn and given back, the goods taken, how many goods are known
to those who took some, and the tickets that are out. -/
structure Desk (ι : Type u) where
  drawn : ℕ
  refunded : ℕ
  served : ℕ
  known : ℕ
  ticket : ι → Option Ticket

namespace Desk

variable {ι : Type u}

/-- Nobody has drawn a ticket. -/
def new : Desk ι :=
  ⟨0, 0, 0, 0, fun _ => none⟩

variable [DecidableEq ι]

/-- Client `i` draws `n` tickets and knows of `credit` refunds. -/
def draw (d : Desk ι) (i : ι) (credit n : ℕ) : Desk ι :=
  { d with
    drawn := d.drawn + n
    ticket := Function.update d.ticket i (some ⟨d.drawn, credit, n⟩) }

/-- Client `i` gives back `n` of its tickets. -/
def refund (d : Desk ι) (i : ι) (k : Ticket) (n : ℕ) : Desk ι :=
  { d with
    refunded := d.refunded + n
    ticket := Function.update d.ticket i (some { k with due := k.due - n }) }

/-- Client `i` leaves. -/
def leave (d : Desk ι) (i : ι) : Desk ι :=
  { d with ticket := Function.update d.ticket i none }

/-- Client `i` takes all it has tickets for, knowing of `t` goods. -/
def serve (d : Desk ι) (i : ι) (k : Ticket) (t : ℕ) : Desk ι :=
  { d with
    served := d.served + k.due
    known := max d.known t
    ticket := Function.update d.ticket i none }

variable [Fintype ι]

/-- What all tickets with numbers less than `b` still ask for. -/
def below (d : Desk ι) (b : ℕ) : ℕ :=
  ∑ i, Ticket.share b (d.ticket i)

/-- Every ticket is accounted for, and every client with tickets either counts on
no more than the refunds it knew of, or somebody with a larger number has been
served and saw enough goods for both. -/
structure Sound (d : Desk ι) : Prop where
  total : d.drawn = d.served + d.refunded + d.below d.drawn
  number_lt : ∀ i k, d.ticket i = some k → k.number < d.drawn
  distinct : ∀ i j k l, d.ticket i = some k → d.ticket j = some l →
    k.number = l.number → i = j
  entitled : ∀ i k, d.ticket i = some k →
    d.served + d.below k.number + k.credit ≤ k.number ∨
      d.served + d.below (k.number + 1) ≤ d.known
  served_le : d.served ≤ d.known

omit [DecidableEq ι] in
theorem sound_new : (new : Desk ι).Sound where
  total := by simp [below, new]
  number_lt i k h := by cases h
  distinct i j k l h := by cases h
  entitled i k h := by cases h
  served_le := Nat.le_refl 0

variable {d : Desk ι} {i : ι} {k : Ticket} {b c n t : ℕ}

omit [Fintype ι] in
theorem update_eq_some {f : ι → Option Ticket} {x : Option Ticket} {j : ι}
    (h : Function.update f i x j = some k) :
    (j = i ∧ x = some k) ∨ (j ≠ i ∧ f j = some k) := by
  by_cases hj : j = i
  · subst hj
    rw [Function.update_self] at h
    exact Or.inl ⟨rfl, h⟩
  · rw [Function.update_of_ne hj] at h
    exact Or.inr ⟨hj, h⟩

theorem sum_update (f : ι → Option Ticket) (i : ι) (x : Option Ticket) (b : ℕ) :
    ∑ j, Ticket.share b (Function.update f i x j) + Ticket.share b (f i) =
      ∑ j, Ticket.share b (f j) + Ticket.share b x := by
  have hothers : ∑ j ∈ Finset.univ.erase i,
      Ticket.share b (Function.update f i x j) =
        ∑ j ∈ Finset.univ.erase i, Ticket.share b (f j) := by
    refine Finset.sum_congr rfl fun j hj => ?_
    rw [Function.update_of_ne (Finset.ne_of_mem_erase hj)]
  rw [← Finset.add_sum_erase _ _ (Finset.mem_univ i), hothers,
    ← Finset.add_sum_erase _ (fun j => Ticket.share b (f j))
      (Finset.mem_univ i), Function.update_self]
  omega

omit [DecidableEq ι] in
theorem below_mono (d : Desk ι) (h : b ≤ c) : d.below b ≤ d.below c := by
  refine Finset.sum_le_sum fun i _ => ?_
  cases d.ticket i with
  | none => exact Nat.le_refl 0
  | some k =>
      by_cases hk : k.number < b
      · rw [Ticket.share_of_lt hk, Ticket.share_of_lt (hk.trans_le h)]
      · rw [Ticket.share_of_le (Nat.not_lt.mp hk)]
        exact Nat.zero_le _

namespace Sound

/-- The tickets up to a number are those below it and its own. -/
theorem below_succ (hd : d.Sound) (hk : d.ticket i = some k) :
    d.below (k.number + 1) = d.below k.number + k.due := by
  have hlt := sum_update d.ticket i none (k.number + 1)
  have hle := sum_update d.ticket i none k.number
  rw [hk, Ticket.share_of_lt (Nat.lt_succ_self _)] at hlt
  rw [hk, Ticket.share_of_le (Nat.le_refl _)] at hle
  have heq : ∑ j, Ticket.share (k.number + 1) (Function.update d.ticket i none j) =
      ∑ j, Ticket.share k.number (Function.update d.ticket i none j) := by
    refine Finset.sum_congr rfl fun j _ => ?_
    by_cases hj : j = i
    · rw [hj, Function.update_self]
      rfl
    · rw [Function.update_of_ne hj]
      cases hl : d.ticket j with
      | none => rfl
      | some l =>
          have hne : l.number ≠ k.number := fun heq =>
            hj (hd.distinct j i l k hl hk heq)
          simp only [Ticket.share]
          congr 1
          exact propext (by omega)
  simp only [Ticket.share_none] at hlt hle
  simp only [below]
  omega

/-- A client without tickets draws some. -/
theorem draw (hd : d.Sound) (hi : d.ticket i = none) (hn : 0 < n)
    (hc : c ≤ d.refunded) : (d.draw i c n).Sound := by
  have hbelow : ∀ b, (d.draw i c n).below b =
      d.below b + Ticket.share b (some ⟨d.drawn, c, n⟩) := by
    intro b
    have := sum_update d.ticket i (some ⟨d.drawn, c, n⟩) b
    rw [hi, Ticket.share_none] at this
    exact this
  have hold : ∀ b, b ≤ d.drawn → (d.draw i c n).below b = d.below b := by
    intro b hb
    rw [hbelow, Ticket.share_of_le hb, Nat.add_zero]
  have hall : d.below (d.drawn + n) = d.below d.drawn := by
    refine Finset.sum_congr rfl fun j _ => ?_
    cases hj : d.ticket j with
    | none => rfl
    | some l =>
        have hlt := hd.number_lt j l hj
        rw [Ticket.share_of_lt hlt, Ticket.share_of_lt (by omega)]
  have htotal := hd.total
  refine ⟨?_, ?_, ?_, ?_, hd.served_le⟩
  · change d.drawn + n = d.served + d.refunded + (d.draw i c n).below (d.drawn + n)
    rw [hbelow, hall, Ticket.share_of_lt (by change d.drawn < _; omega)]
    change d.drawn + n = d.served + d.refunded + (d.below d.drawn + n)
    omega
  · intro j l hl
    change l.number < d.drawn + n
    obtain ⟨-, ⟨⟩⟩ | ⟨-, hl⟩ := update_eq_some hl
    · change d.drawn < d.drawn + n
      omega
    · have := hd.number_lt j l hl
      omega
  · intro j j' l l' hl hl' heq
    obtain ⟨hj, ⟨⟩⟩ | ⟨-, hother⟩ := update_eq_some hl <;>
      obtain ⟨hj', ⟨⟩⟩ | ⟨-, hother'⟩ := update_eq_some hl'
    · exact hj.trans hj'.symm
    · exact absurd heq (hd.number_lt j' l' hother').ne'
    · exact absurd heq (hd.number_lt j l hother).ne
    · exact hd.distinct j j' l l' hother hother' heq
  · intro j l hl
    obtain ⟨-, ⟨⟩⟩ | ⟨-, hl⟩ := update_eq_some hl
    · refine Or.inl ?_
      change d.served + (d.draw i c n).below d.drawn + c ≤ d.drawn
      rw [hold _ le_rfl]
      omega
    · have hlt := hd.number_lt j l hl
      rw [hold _ hlt.le, hold _ hlt]
      exact hd.entitled j l hl

/-- A client gives some of its tickets back. -/
theorem refund (hd : d.Sound) (hi : d.ticket i = some k) (hn : n ≤ k.due) :
    (d.refund i k n).Sound := by
  have hbelow : ∀ b, (d.refund i k n).below b + (if k.number < b then n else 0) =
      d.below b := by
    intro b
    have := sum_update d.ticket i (some { k with due := k.due - n }) b
    rw [hi] at this
    simp only [below, Desk.refund, Ticket.share] at this ⊢
    split_ifs at this ⊢ <;> omega
  have hle : ∀ b, (d.refund i k n).below b ≤ d.below b := fun b =>
    (Nat.le_add_right _ _).trans (hbelow b).le
  have hticket : ∀ j l, (d.refund i k n).ticket j = some l →
      ∃ l', d.ticket j = some l' ∧ l'.number = l.number ∧ l'.credit = l.credit := by
    intro j l hl
    obtain ⟨rfl, ⟨⟩⟩ | ⟨-, hl⟩ := update_eq_some hl
    · exact ⟨k, hi, rfl, rfl⟩
    · exact ⟨l, hl, rfl, rfl⟩
  refine ⟨?_, ?_, ?_, ?_, hd.served_le⟩
  · have htotal := hd.total
    have := hbelow d.drawn
    rw [if_pos (hd.number_lt i k hi)] at this
    change d.drawn = d.served + (d.refunded + n) + (d.refund i k n).below d.drawn
    omega
  · intro j l hl
    obtain ⟨l', hl', hnum, -⟩ := hticket j l hl
    exact hnum ▸ hd.number_lt j l' hl'
  · intro j j' l l' hl hl' heq
    obtain ⟨m, hm, hnum, -⟩ := hticket j l hl
    obtain ⟨m', hm', hnum', -⟩ := hticket j' l' hl'
    exact hd.distinct j j' m m' hm hm' (by omega)
  · intro j l hl
    obtain ⟨l', hl', hnum, hcredit⟩ := hticket j l hl
    rw [← hnum, ← hcredit]
    change d.served + _ + _ ≤ _ ∨ d.served + _ ≤ d.known
    have := hle l'.number
    have := hle (l'.number + 1)
    have := hd.entitled j l' hl'
    omega

/-- A client leaves once all its tickets are accounted for. -/
theorem leave (hd : d.Sound) (hi : d.ticket i = some k) (hk : k.due = 0) :
    (d.leave i).Sound := by
  have hbelow : ∀ b, (d.leave i).below b = d.below b := by
    intro b
    have := sum_update d.ticket i none b
    have hzero : Ticket.share b (d.ticket i) = 0 := by
      rw [hi, Ticket.share, hk, ite_self]
    rw [hzero] at this
    exact this
  have hticket : ∀ j l, (d.leave i).ticket j = some l → d.ticket j = some l := by
    intro j l hl
    obtain ⟨-, ⟨⟩⟩ | ⟨-, hl⟩ := update_eq_some hl
    exact hl
  refine ⟨?_, fun j l hl => hd.number_lt j l (hticket j l hl),
    fun j j' l l' hl hl' => hd.distinct j j' l l' (hticket j l hl)
      (hticket j' l' hl'), fun j l hl => ?_, hd.served_le⟩
  · rw [hbelow]
    exact hd.total
  · rw [hbelow, hbelow]
    exact hd.entitled j l (hticket j l hl)

/-- A client that passed the test is within the goods that it or somebody before
it has seen. -/
theorem served_add_le (hd : d.Sound) (hi : d.ticket i = some k)
    (hk : k.number + k.due ≤ k.credit + t) :
    d.served + k.due ≤ max d.known t := by
  have hsucc := hd.below_succ hi
  rcases hd.entitled i k hi with h | h <;> omega

/-- A client that passed the test is served. -/
theorem serve (hd : d.Sound) (hi : d.ticket i = some k)
    (hk : k.number + k.due ≤ k.credit + t) : (d.serve i k t).Sound := by
  have hbelow : ∀ b, (d.serve i k t).below b + (if k.number < b then k.due else 0) =
      d.below b := by
    intro b
    have := sum_update d.ticket i none b
    rw [hi] at this
    simpa only [below, Desk.serve, Ticket.share, Nat.add_zero] using this
  have hticket : ∀ j l, (d.serve i k t).ticket j = some l →
      j ≠ i ∧ d.ticket j = some l := by
    intro j l hl
    obtain ⟨-, ⟨⟩⟩ | hl := update_eq_some hl
    exact hl
  have hserved := hd.served_add_le hi hk
  refine ⟨?_, fun j l hl => hd.number_lt j l (hticket j l hl).2,
    fun j j' l l' hl hl' => hd.distinct j j' l l' (hticket j l hl).2
      (hticket j' l' hl').2, fun j l hl => ?_, hserved⟩
  · have htotal := hd.total
    have := hbelow d.drawn
    rw [if_pos (hd.number_lt i k hi)] at this
    change d.drawn = d.served + k.due + d.refunded + (d.serve i k t).below d.drawn
    omega
  · obtain ⟨hj, hl⟩ := hticket j l hl
    have hne : l.number ≠ k.number := fun heq => hj (hd.distinct j i l k hl hi heq)
    have hlow := hbelow l.number
    have hhigh := hbelow (l.number + 1)
    change d.served + k.due + _ + _ ≤ _ ∨ d.served + k.due + _ ≤ max d.known t
    rcases Nat.lt_or_gt_of_ne hne with hlt | hgt
    · -- the client served has the larger number and has seen enough for both
      refine Or.inr ?_
      rw [if_neg (by omega)] at hhigh
      have hmono := d.below_mono (show l.number + 1 ≤ k.number by omega)
      have hsucc := hd.below_succ hi
      rcases hd.entitled i k hi with h | h <;> omega
    · rw [if_pos (by omega)] at hlow hhigh
      have := hd.entitled j l hl
      omega

end Sound
end Desk
end ConcurrentQueues
