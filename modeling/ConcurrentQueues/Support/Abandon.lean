import ConcurrentQueues.Support.Pool

/-!
# Calls that are given up

A thread that gives up a call leaves the shared state as it is and is free for
the next call.  To everybody else it looks as if the thread had stopped for ever
and a new thread had come in its place.  So a run of a pool in which calls are
given up is a run of the pool without, with a fresh thread for every life of a
thread.
-/

namespace ConcurrentQueues

universe u v w x

namespace Pool

variable {ι : Type u} {Q : Type v} {Th : Type w} {E : Type x} {N κ : Type*}

/-- A move function of threads that may give up.  Where `gives` says what is
given up, a thread may go back to `th₀` instead of moving. -/
def abandoning (mv : Q → Th → κ → Option (E × Q × Th)) (gives : Th → Option N)
    (th₀ : Th) (q : Q) (th : Th) : Option κ → Option ((E ⊕ N) × Q × Th)
  | some c => (mv q th c).map fun r => (.inl r.1, r.2)
  | none => (gives th).map fun x => (.inr x, q, th₀)

/-- The same, case by case. -/
inductive Abandons (mv : Q → Th → E → Q → Th → Prop) (gives : Th → Option N)
    (th₀ : Th) : Q → Th → E ⊕ N → Q → Th → Prop
  | move {q q' : Q} {th th' : Th} {e : E} (h : mv q th e q' th') :
      Abandons mv gives th₀ q th (.inl e) q' th'
  | abandon {q : Q} {th : Th} {x : N} (h : gives th = some x) :
      Abandons mv gives th₀ q th (.inr x) q th₀

theorem abandons_of_moves {mv : Q → Th → κ → Option (E × Q × Th)}
    {gives : Th → Option N} {th₀ th th' : Th} {q q' : Q} {e : E ⊕ N}
    (h : Moves (abandoning mv gives th₀) q th e q' th') :
    Abandons (Moves mv) gives th₀ q th e q' th' := by
  obtain ⟨c, hc⟩ := h
  cases c with
  | some c =>
      obtain ⟨⟨e, q, th⟩, hmv, heq⟩ := Option.map_eq_some_iff.mp hc
      cases heq
      exact .move ⟨c, hmv⟩
  | none =>
      obtain ⟨x, hx, heq⟩ := Option.map_eq_some_iff.mp hc
      cases heq
      exact .abandon hx

/-- What is shown of a step that is not given up. -/
def kept : ι × (E ⊕ N) → Option (ι × E)
  | (t, .inl e) => some (t, e)
  | (_, .inr _) => none

/-- The step of a thread, whichever of its lives it is in. -/
def ofLife : (ι × ℕ) × E → Option (ι × E)
  | ((t, _), e) => some (t, e)

variable [DecidableEq ι]

/-- The number of calls that `t` has given up. -/
def lives (t : ι) (tr : List (ι × (E ⊕ N))) : ℕ :=
  (tr.filter fun a => a.1 = t ∧ a.2.isRight).length

theorem lives_kept (t u : ι) (tr : List (ι × (E ⊕ N))) (e : E) :
    lives t (tr ++ [(u, .inl e)]) = lives t tr := by
  simp [lives]

theorem lives_abandoned (t u : ι) (tr : List (ι × (E ⊕ N))) (x : N) :
    lives t (tr ++ [(u, .inr x)]) = lives t tr + if u = t then 1 else 0 := by
  by_cases h : u = t <;> simp [lives, h]

/-- The pool `a` in which every life of a thread is a thread of its own.  The
last life goes on, and each life before stands where its call was given up. -/
structure Outlives (gives : Th → Option N) (th₀ : Th)
    (tr : List (ι × (E ⊕ N))) (s : Pool ι Q Th) (a : Pool (ι × ℕ) Q Th) :
    Prop where
  shared : a.shared = s.shared
  current : ∀ t, a.threads (t, lives t tr) = s.threads t
  fresh : ∀ t k, lives t tr < k → a.threads (t, k) = th₀
  stopped : ∀ t x, (t, .inr x) ∈ tr →
    ∃ k < lives t tr, gives (a.threads (t, k)) = some x

variable {mv : Q → Th → κ → Option (E × Q × Th)} {gives : Th → Option N} {th₀ : Th}
  {tr : List (ι × (E ⊕ N))} {s : Pool ι Q Th} {a : Pool (ι × ℕ) Q Th} {t : ι}

theorem Outlives.move (h : Outlives gives th₀ tr s a) (e : E) (q : Q)
    (th : Th) :
    Outlives gives th₀ (tr ++ [(t, .inl e)]) (s.move t q th)
      (a.move (t, lives t tr) q th) where
  shared := rfl
  current u := by
    rw [lives_kept]
    by_cases hut : u = t
    · subst hut
      rw [move_threads_self, move_threads_self]
    · rw [move_threads_of_ne _ _ _ hut, move_threads_of_ne _ _ _ (by simp [hut])]
      exact h.current u
  fresh u k hk := by
    rw [lives_kept] at hk
    rw [move_threads_of_ne _ _ _ (by rintro ⟨⟩; omega)]
    exact h.fresh u k hk
  stopped u x hmem := by
    have hmem : (u, .inr x) ∈ tr := by simpa using hmem
    obtain ⟨k, hk, hx⟩ := h.stopped u x hmem
    refine ⟨k, by rwa [lives_kept], ?_⟩
    rw [move_threads_of_ne _ _ _ (by rintro ⟨⟩; omega)]
    exact hx

theorem Outlives.abandon (h : Outlives gives th₀ tr s a) {x : N}
    (hx : gives (s.threads t) = some x) :
    Outlives gives th₀ (tr ++ [(t, .inr x)]) (s.move t s.shared th₀) a where
  shared := h.shared
  current u := by
    rw [lives_abandoned]
    by_cases hut : t = u
    · subst hut
      rw [if_pos rfl, move_threads_self]
      exact h.fresh t _ (Nat.lt_succ_self _)
    · rw [if_neg hut, move_threads_of_ne _ _ _ (Ne.symm hut)]
      exact h.current u
  fresh u k hk := by
    rw [lives_abandoned] at hk
    exact h.fresh u k (by omega)
  stopped u y hmem := by
    rw [lives_abandoned]
    rcases List.mem_append.mp hmem with hmem | hmem
    · obtain ⟨k, hk, hy⟩ := h.stopped u y hmem
      exact ⟨k, by omega, hy⟩
    · -- the life just given up stands where its thread stood
      obtain ⟨rfl, hxy⟩ := Prod.mk.inj (List.mem_singleton.mp hmem)
      obtain rfl := Sum.inr.inj hxy
      refine ⟨lives u tr, by rw [if_pos rfl]; omega, ?_⟩
      rw [h.current u]
      exact hx

/-- A run with calls given up is a run without, of more threads. -/
theorem run_of_abandoning {q₀ : Q}
    (hrun : (lts ι (Moves (abandoning mv gives th₀)) q₀ th₀).Run tr s) :
    ∃ tr' a, (lts (ι × ℕ) (Moves mv) q₀ th₀).Run tr' a ∧
      tr'.filterMap ofLife = tr.filterMap kept ∧ Outlives gives th₀ tr s a := by
  refine Lts.simulation (A := lts (ι × ℕ) (Moves mv) q₀ th₀) (fun _ => True)
    (fun tr s a => Outlives gives th₀ tr s a) (fun _ _ _ => trivial) ?_ ?_ hrun
    trivial
  · exact ⟨rfl, fun _ => rfl, fun _ _ _ => rfl, fun _ _ h => by cases h⟩
  · rintro tr s ⟨t, e⟩ s' a - - hR ⟨q, th, hmove, rfl⟩
    cases abandons_of_moves hmove with
    | @move _ _ _ e h =>
        refine ⟨a.move (t, lives t tr) q th, ?_, hR.move e q th⟩
        refine Lts.Matches.step (g := ofLife) (b := ((t, lives t tr), e))
          ⟨q, th, ?_, rfl⟩
        rw [hR.shared, hR.current]
        exact h
    | abandon h => exact ⟨a, Lts.Matches.stay a, hR.abandon h⟩

end Pool
end ConcurrentQueues
