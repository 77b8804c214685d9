import ConcurrentQueues.Support.Lts

/-!
# Two systems side by side

Two systems that share some of their labels run side by side: a shared label is
a step of both, any other step is a step of one alone.  Runs of the two that
show the same shared labels can be put together, in whatever order the other
steps come.
-/

namespace ConcurrentQueues

universe u v w x y

namespace Lts

variable {σ : Type u} {α : Type v} {τ : Type w} {β : Type x} {γ : Type y}

/-- One step of two systems that share what `f` and `g` show. -/
inductive SyncStep (A : Lts σ α) (B : Lts τ β) (f : α → Option γ)
    (g : β → Option γ) : σ × τ → Option α × Option β → σ × τ → Prop
  | left {s s' : σ} {t : τ} {a : α} (h : A.step s a s') (ha : f a = none) :
      SyncStep A B f g (s, t) (some a, none) (s', t)
  | right {s : σ} {t t' : τ} {b : β} (h : B.step t b t') (hb : g b = none) :
      SyncStep A B f g (s, t) (none, some b) (s, t')
  | both {s s' : σ} {t t' : τ} {a : α} {b : β} {c : γ}
      (h : A.step s a s') (h' : B.step t b t') (ha : f a = some c)
      (hb : g b = some c) :
      SyncStep A B f g (s, t) (some a, some b) (s', t')

/-- The two systems side by side. -/
def sync (A : Lts σ α) (B : Lts τ β) (f : α → Option γ) (g : β → Option γ) :
    Lts (σ × τ) (Option α × Option β) where
  init := (A.init, B.init)
  step := SyncStep A B f g

variable {A : Lts σ α} {B : Lts τ β} {f : α → Option γ} {g : β → Option γ}

/-- Each system takes the steps of a run of its own, and both show the same. -/
theorem runs_of_sync {tr : List (Option α × Option β)} {p : σ × τ}
    (hrun : (sync A B f g).Run tr p) :
    A.Run (tr.filterMap Prod.fst) p.1 ∧ B.Run (tr.filterMap Prod.snd) p.2 ∧
      (tr.filterMap Prod.fst).filterMap f =
        (tr.filterMap Prod.snd).filterMap g := by
  refine Run.induction (P := fun tr p =>
    A.Run (tr.filterMap Prod.fst) p.1 ∧ B.Run (tr.filterMap Prod.snd) p.2 ∧
      (tr.filterMap Prod.fst).filterMap f =
        (tr.filterMap Prod.snd).filterMap g) ?_ ?_ hrun
  · exact ⟨Run.init, Run.init, rfl⟩
  · rintro tr p l p' - ⟨hA, hB, heq⟩ hstep
    simp only [List.filterMap_append, heq]
    cases hstep with
    | left h ha =>
        refine ⟨hA.tail h, by simpa using hB, ?_⟩
        simp [ha]
    | right h hb =>
        refine ⟨by simpa using hA, hB.tail h, ?_⟩
        simp [hb]
    | both h h' ha hb =>
        refine ⟨hA.tail h, hB.tail h', ?_⟩
        simp [ha, hb]

/-- Runs that show the same make up a run side by side. -/
theorem sync_of_runs {tr : List α} {tr' : List β} {s : σ} {t : τ}
    (hA : A.Run tr s) (hB : B.Run tr' t)
    (heq : tr.filterMap f = tr'.filterMap g) :
    ∃ tr'', (sync A B f g).Run tr'' (s, t) ∧
      tr''.filterMap Prod.fst = tr ∧ tr''.filterMap Prod.snd = tr' := by
  induction tr' using List.reverseRecOn generalizing tr s t with
  | nil =>
      obtain rfl := Path.eq_of_nil hB
      induction tr using List.reverseRecOn generalizing s with
      | nil =>
          obtain rfl := Path.eq_of_nil hA
          exact ⟨[], Run.init, rfl, rfl⟩
      | append_singleton tr a ih =>
          obtain ⟨m, hA', hstep⟩ := Path.last hA
          simp only [List.filterMap_append, List.filterMap_nil,
            List.append_eq_nil_iff] at heq
          obtain ⟨tr'', hrun, rfl, hsnd⟩ := ih hA' heq.1
          have ha : f a = none := by simpa using heq.2
          refine ⟨tr'' ++ [(some a, none)], hrun.tail (.left hstep ha), ?_, ?_⟩
          · simp
          · simp [hsnd]
  | append_singleton tr' b ih =>
      obtain ⟨m, hB', hstep⟩ := Path.last hB
      cases hb : g b with
      | none =>
          obtain ⟨tr'', hrun, hfst, rfl⟩ := ih hA hB' (by simpa [hb] using heq)
          refine ⟨tr'' ++ [(none, some b)], hrun.tail (.right hstep hb), ?_, ?_⟩
          · simp [hfst]
          · simp
      | some c =>
          -- the steps of the first system up to its share of this step
          induction tr using List.reverseRecOn generalizing s with
          | nil => simp [hb] at heq
          | append_singleton tr a ihA =>
              obtain ⟨k, hA', hstepA⟩ := Path.last hA
              cases ha : f a with
              | none =>
                  obtain ⟨tr'', hrun, rfl, hsnd⟩ :=
                    ihA hA' (by simpa [ha] using heq)
                  refine ⟨tr'' ++ [(some a, none)],
                    hrun.tail (.left hstepA ha), ?_, ?_⟩
                  · simp
                  · simp [hsnd]
              | some c' =>
                  simp only [List.filterMap_append, List.filterMap_cons, ha, hb,
                    List.filterMap_nil] at heq
                  obtain ⟨hinit, hc⟩ := List.append_inj' heq rfl
                  obtain rfl := List.singleton_inj.mp hc
                  obtain ⟨tr'', hrun, rfl, rfl⟩ := ih hA' hB' hinit
                  refine ⟨tr'' ++ [(some a, some b)],
                    hrun.tail (.both hstepA hstep ha hb), ?_, ?_⟩
                  · simp
                  · simp

end Lts
end ConcurrentQueues
