import ConcurrentQueues.Support.Pool
import Mathlib.Data.List.Nodup
import Mathlib.Data.List.Range

/-!
# Tickets

Threads of a pool draw consecutive tickets from a shared counter and hand them
back when their call returns.  If every move draws the next ticket, hands back
the ticket it holds, or does neither, then after every run the tickets drawn
are the first ones in order, no ticket is held or handed back twice, and every
ticket drawn is either held or handed back.
-/

namespace ConcurrentQueues

universe u v w x

/-- Which moves draw and return tickets, and which ticket a thread holds. -/
structure Tickets (Q : Type v) (Th : Type w) (E : Type x) where
  next : Q → ℕ
  holding : Th → Option ℕ
  claims : E → Option ℕ
  returns : E → Option ℕ

namespace Tickets

variable {ι : Type u} {Q : Type v} {Th : Type w} {E : Type x}

/-- What a move does with tickets. -/
inductive Effect (K : Tickets Q Th E) (q : Q) (th : Th) (e : E) (q' : Q)
    (th' : Th) : Prop
  | claim (hclaim : K.claims e = some (K.next q)) (hret : K.returns e = none)
      (hnext : K.next q' = K.next q + 1) (hbefore : K.holding th = none)
      (hafter : K.holding th' = some (K.next q))
  | ret (k : ℕ) (hclaim : K.claims e = none) (hret : K.returns e = some k)
      (hnext : K.next q' = K.next q) (hbefore : K.holding th = some k)
      (hafter : K.holding th' = none)
  | other (hclaim : K.claims e = none) (hret : K.returns e = none)
      (hnext : K.next q' = K.next q) (hsame : K.holding th' = K.holding th)

/-- The tickets drawn along a trace. -/
def claimed (K : Tickets Q Th E) (tr : List (ι × E)) : List ℕ :=
  tr.filterMap fun a => K.claims a.2

/-- The tickets handed back along a trace. -/
def returned (K : Tickets Q Th E) (tr : List (ι × E)) : List ℕ :=
  tr.filterMap fun a => K.returns a.2

/-- No ticket is lost, held by two threads or handed back twice. -/
structure Accounts (K : Tickets Q Th E) (tr : List (ι × E))
    (s : Pool ι Q Th) : Prop where
  claimed_eq : K.claimed tr = List.range (K.next s.shared)
  returned_nodup : (K.returned tr).Nodup
  returned_lt : ∀ k ∈ K.returned tr, k < K.next s.shared
  holding_lt : ∀ t k, K.holding (s.threads t) = some k → k < K.next s.shared
  holding_unique : ∀ t t' k, K.holding (s.threads t) = some k →
    K.holding (s.threads t') = some k → t' = t
  holding_fresh : ∀ t k, K.holding (s.threads t) = some k →
    k ∉ K.returned tr
  accounted : ∀ k < K.next s.shared, k ∈ K.returned tr ∨
    ∃ t, K.holding (s.threads t) = some k

variable {K : Tickets Q Th E}

theorem claimed_snoc (tr : List (ι × E)) (a : ι × E) :
    K.claimed (tr ++ [a]) = K.claimed tr ++ (K.claims a.2).toList := by
  rw [claimed, List.filterMap_append]
  cases h : K.claims a.2 <;> simp [claimed, h]

theorem returned_snoc (tr : List (ι × E)) (a : ι × E) :
    K.returned (tr ++ [a]) = K.returned tr ++ (K.returns a.2).toList := by
  rw [returned, List.filterMap_append]
  cases h : K.returns a.2 <;> simp [returned, h]

/-- A longer trace draws more tickets. -/
theorem claimed_length_le {tr tr' : List (ι × E)} (h : tr <+: tr') :
    (K.claimed tr).length ≤ (K.claimed tr').length :=
  (h.filterMap _).length_le

variable [DecidableEq ι]

/-- Who holds a ticket after a move that leaves the mover with `o`. -/
theorem holding_move {s : Pool ι Q Th} {t t' : ι} {q : Q} {th : Th} {k : ℕ}
    (h : K.holding ((s.move t q th).threads t') = some k) :
    (t' = t ∧ K.holding th = some k) ∨
      (t' ≠ t ∧ K.holding (s.threads t') = some k) := by
  by_cases heq : t' = t
  · subst heq
    exact Or.inl ⟨rfl, by simpa using h⟩
  · rw [Pool.move_threads_of_ne s q th heq] at h
    exact Or.inr ⟨heq, h⟩

theorem Accounts.claim {tr : List (ι × E)} {s : Pool ι Q Th} {t : ι} {e : E}
    {q : Q} {th : Th} (hA : K.Accounts tr s)
    (hclaim : K.claims e = some (K.next s.shared)) (hret : K.returns e = none)
    (hnext : K.next q = K.next s.shared + 1)
    (hbefore : K.holding (s.threads t) = none)
    (hafter : K.holding th = some (K.next s.shared)) :
    K.Accounts (tr ++ [(t, e)]) (s.move t q th) := by
  have hreturned : K.returned (tr ++ [(t, e)]) = K.returned tr := by
    simp [returned_snoc, hret]
  refine ⟨?_, hreturned ▸ hA.returned_nodup, ?_, ?_, ?_, ?_, ?_⟩
  · simp [claimed_snoc, hclaim, hA.claimed_eq, hnext, List.range_succ]
  · intro k hk
    have := hA.returned_lt k (hreturned ▸ hk)
    simp only [Pool.move_shared]
    omega
  · intro t' k hk
    simp only [Pool.move_shared]
    rcases holding_move hk with ⟨-, h⟩ | ⟨-, h⟩
    · obtain rfl : K.next s.shared = k := Option.some.inj (hafter.symm.trans h)
      omega
    · have := hA.holding_lt t' k h
      omega
  · intro t₁ t₂ k h₁ h₂
    rcases holding_move h₁ with ⟨e₁, h₁⟩ | ⟨e₁, h₁⟩ <;>
      rcases holding_move h₂ with ⟨e₂, h₂⟩ | ⟨e₂, h₂⟩
    · rw [e₁, e₂]
    · have hk := Option.some.inj (hafter.symm.trans h₁)
      exact absurd (hA.holding_lt t₂ k h₂) (by omega)
    · have hk := Option.some.inj (hafter.symm.trans h₂)
      exact absurd (hA.holding_lt t₁ k h₁) (by omega)
    · exact hA.holding_unique t₁ t₂ k h₁ h₂
  · intro t' k hk hmem
    rw [hreturned] at hmem
    rcases holding_move hk with ⟨-, h⟩ | ⟨-, h⟩
    · have hk' := Option.some.inj (hafter.symm.trans h)
      have := hA.returned_lt k hmem
      omega
    · exact hA.holding_fresh t' k h hmem
  · intro k hk
    simp only [Pool.move_shared, hnext] at hk
    rw [hreturned]
    rcases Nat.lt_succ_iff_lt_or_eq.mp hk with hlt | rfl
    · rcases hA.accounted k hlt with h | ⟨t', h⟩
      · exact Or.inl h
      · have hne : t' ≠ t := by
          rintro rfl
          rw [hbefore] at h
          cases h
        exact Or.inr ⟨t', by rw [Pool.move_threads_of_ne s q th hne]; exact h⟩
    · exact Or.inr ⟨t, by simpa using hafter⟩

theorem Accounts.ret {tr : List (ι × E)} {s : Pool ι Q Th} {t : ι} {e : E}
    {q : Q} {th : Th} {k : ℕ} (hA : K.Accounts tr s)
    (hclaim : K.claims e = none) (hret : K.returns e = some k)
    (hnext : K.next q = K.next s.shared)
    (hbefore : K.holding (s.threads t) = some k)
    (hafter : K.holding th = none) :
    K.Accounts (tr ++ [(t, e)]) (s.move t q th) := by
  have hreturned : K.returned (tr ++ [(t, e)]) = K.returned tr ++ [k] := by
    simp [returned_snoc, hret]
  have hother : ∀ {t' k'}, K.holding ((s.move t q th).threads t') = some k' →
      t' ≠ t ∧ K.holding (s.threads t') = some k' := by
    intro t' k' h
    rcases holding_move h with ⟨-, h⟩ | h
    · rw [hafter] at h
      cases h
    · exact h
  refine ⟨?_, ?_, ?_, ?_, ?_, ?_, ?_⟩
  · simp [claimed_snoc, hclaim, hA.claimed_eq, hnext]
  · rw [hreturned]
    apply hA.returned_nodup.append (List.nodup_singleton k)
    simpa using hA.holding_fresh t k hbefore
  · intro j hj
    rw [hreturned] at hj
    simp only [Pool.move_shared, hnext]
    rcases List.mem_append.mp hj with hj | hj
    · exact hA.returned_lt j hj
    · obtain rfl := List.mem_singleton.mp hj
      exact hA.holding_lt t j hbefore
  · intro t' j hj
    simp only [Pool.move_shared, hnext]
    exact hA.holding_lt t' j (hother hj).2
  · intro t₁ t₂ j h₁ h₂
    exact hA.holding_unique t₁ t₂ j (hother h₁).2 (hother h₂).2
  · intro t' j hj hmem
    rw [hreturned] at hmem
    obtain ⟨hne, hj⟩ := hother hj
    rcases List.mem_append.mp hmem with hmem | hmem
    · exact hA.holding_fresh t' j hj hmem
    · obtain rfl := List.mem_singleton.mp hmem
      exact hne (hA.holding_unique t t' j hbefore hj)
  · intro j hj
    simp only [Pool.move_shared, hnext] at hj
    rw [hreturned]
    rcases hA.accounted j hj with h | ⟨t', h⟩
    · exact Or.inl (List.mem_append_left [k] h)
    · by_cases hne : t' = t
      · subst hne
        obtain rfl : k = j := Option.some.inj (hbefore.symm.trans h)
        exact Or.inl (List.mem_append_right _ (List.mem_singleton_self k))
      · exact Or.inr ⟨t', by rw [Pool.move_threads_of_ne s q th hne]; exact h⟩

theorem Accounts.other {tr : List (ι × E)} {s : Pool ι Q Th} {t : ι} {e : E}
    {q : Q} {th : Th} (hA : K.Accounts tr s)
    (hclaim : K.claims e = none) (hret : K.returns e = none)
    (hnext : K.next q = K.next s.shared)
    (hsame : K.holding th = K.holding (s.threads t)) :
    K.Accounts (tr ++ [(t, e)]) (s.move t q th) := by
  have hreturned : K.returned (tr ++ [(t, e)]) = K.returned tr := by
    simp [returned_snoc, hret]
  have hholding : ∀ t', K.holding ((s.move t q th).threads t') =
      K.holding (s.threads t') := by
    intro t'
    by_cases hne : t' = t
    · subst hne
      simpa using hsame
    · rw [Pool.move_threads_of_ne s q th hne]
  refine ⟨?_, hreturned ▸ hA.returned_nodup, ?_, ?_, ?_, ?_, ?_⟩
  · simp [claimed_snoc, hclaim, hA.claimed_eq, hnext]
  · simpa [hreturned, hnext] using hA.returned_lt
  · simpa [hholding, hnext] using hA.holding_lt
  · simpa [hholding] using hA.holding_unique
  · simpa [hholding, hreturned] using hA.holding_fresh
  · simpa [hholding, hreturned, hnext] using hA.accounted

/-- The accounts are in order after every run. -/
theorem accounts_of_run {mv : Q → Th → E → Q → Th → Prop} {q₀ : Q} {th₀ : Th}
    (hnext : K.next q₀ = 0) (hholding : K.holding th₀ = none)
    (heffect : ∀ {q th e q' th'}, mv q th e q' th' → K.Effect q th e q' th')
    {tr : List (ι × E)} {s : Pool ι Q Th}
    (hrun : (Pool.lts ι mv q₀ th₀).Run tr s) : K.Accounts tr s := by
  refine Lts.Run.induction (P := fun tr s => K.Accounts tr s) ?_ ?_ hrun
  · refine ⟨?_, List.nodup_nil, ?_, ?_, ?_, ?_, ?_⟩ <;>
      simp [Pool.lts, claimed, returned, hnext, hholding]
  · rintro tr s ⟨t, e⟩ s' - hA ⟨q, th, hmove, rfl⟩
    cases heffect hmove with
    | claim hclaim hret hnext hbefore hafter =>
        exact hA.claim hclaim hret hnext hbefore hafter
    | ret k hclaim hret hnext hbefore hafter =>
        exact hA.ret hclaim hret hnext hbefore hafter
    | other hclaim hret hnext hsame =>
        exact hA.other hclaim hret hnext hsame

end Tickets
end ConcurrentQueues
