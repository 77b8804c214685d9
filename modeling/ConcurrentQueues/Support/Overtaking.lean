import ConcurrentQueues.Support.Histories

/-!
# Histories that no FIFO queue has

In the first history an item is popped although another one had been pushed
before its push began.  In the second a thread pops the second item before the
first, while another pop goes on.  Neither is possible with a FIFO queue of any
capacity, whatever its try calls may do.
-/

namespace ConcurrentQueues
namespace Fifo

universe u v

variable {T : Type u} {ι : Type v} [DecidableEq ι] {cap : ℕ∞} {push pop : Prop}
  {a b c c' d p : ι} {x y : T} {s : Pool ι (List T) (Phase (Op T) (Res T))}

/-! ## Effects -/

theorem effect_push {q q' : List T} {z : T} {ph : Phase (Op T) (Res T)}
    (h : (hesitant T cap push pop).Move q (.pending (.push z)) .effect q' ph) :
    q' = q ++ [z] ∧ ph = .done (.pushed true) := by
  cases h with
  | effect h =>
      cases h with
      | apply h =>
          cases h with
          | push => exact ⟨rfl, rfl⟩

theorem effect_pop {q q' : List T} {ph : Phase (Op T) (Res T)}
    (h : (hesitant T cap push pop).Move q (.pending .pop) .effect q' ph) :
    ∃ z, q = z :: q' ∧ ph = .done (.popped (some z)) := by
  cases h with
  | effect h =>
      cases h with
      | apply h =>
          cases h with
          | pop => exact ⟨_, rfl, rfl⟩

/-- A thread that pushes nothing but `x`, or no thread in a call. -/
def Pushing (P : T → Prop) (ph : Phase (Op T) (Res T)) : Prop :=
  ph = .idle ∨ (∃ z, P z ∧ ph = .pending (.push z)) ∨ ph = .done (.pushed true)

/-- The effect of a push. -/
theorem Pushing.effect {P : T → Prop} {q q' : List T}
    {ph ph' : Phase (Op T) (Res T)} (hph : Pushing P ph)
    (h : (hesitant T cap push pop).Move q ph .effect q' ph') :
    ∃ z, P z ∧ q' = q ++ [z] ∧ ph' = .done (.pushed true) := by
  obtain rfl | ⟨z, hz, rfl⟩ | rfl := hph
  · cases h
  · exact ⟨z, hz, effect_push h⟩
  · cases h

/-! ## An item popped too early -/

/-- Only `x` is pushed. -/
structure Filled (x : T) (s : Pool ι (List T) (Phase (Op T) (Res T))) :
    Prop where
  items : ∀ z ∈ s.shared, z = x
  phases : ∀ t, Pushing (· = x) (s.threads t)

omit [DecidableEq ι] in
theorem filled_init : Filled x (⟨[], fun _ => .idle⟩ : Pool ι (List T) _) :=
  ⟨nofun, fun _ => Or.inl rfl⟩

theorem Filled.effect {q : List T} {t : ι} {ph : Phase (Op T) (Res T)}
    (h : Filled x s)
    (hmove : (hesitant T cap push pop).Move s.shared (s.threads t) .effect q
      ph) : Filled x (s.move t q ph) ∧ q ≠ [] := by
  obtain ⟨z, rfl, rfl, rfl⟩ := (h.phases t).effect hmove
  refine ⟨⟨fun w hw => ?_, Pool.forall_move (P := fun _ th => Pushing _ th)
    (Or.inr (Or.inr rfl)) fun t' _ => h.phases t'⟩, by simp⟩
  rcases List.mem_append.mp hw with hw | hw
  · exact h.items w hw
  · exact List.mem_singleton.mp hw

theorem Filled.call (h : Filled x s) (t : ι) :
    Filled x (s.move t s.shared (.pending (.push x))) :=
  ⟨h.items, Pool.forall_move (P := fun _ th => Pushing _ th)
    (Or.inr (Or.inl ⟨x, rfl, rfl⟩)) fun t' _ => h.phases t'⟩

theorem Filled.ret (h : Filled x s) (t : ι) :
    Filled x (s.move t s.shared .idle) :=
  ⟨h.items, Pool.forall_move (P := fun _ th => Pushing _ th) (Or.inl rfl)
    fun t' _ => h.phases t'⟩

theorem filled_stable : (hesitant T cap push pop).Stable
    (Filled x : Pool ι (List T) _ → Prop) :=
  fun _ _ _ _ h hmove => (h.effect hmove).1

/-- The pop of `d` has taken `x` or will. -/
structure Led (d : ι) (x : T) (s : Pool ι (List T) (Phase (Op T) (Res T))) :
    Prop where
  own : (s.threads d = .pending .pop ∧ ∃ l, s.shared = x :: l) ∨
    s.threads d = .done (.popped (some x))
  phases : ∀ t, t ≠ d → Pushing (fun _ => True) (s.threads t)

theorem led_stable : (hesitant T cap push pop).Stable (Led d x) := by
  rintro s t q ph ⟨hown, hphases⟩ hmove
  by_cases ht : t = d
  · subst ht
    refine ⟨?_, fun t' ht' => ?_⟩
    · rcases hown with ⟨hpending, l, hl⟩ | hdone
      · rw [hpending, hl] at hmove
        obtain ⟨z, hcons, rfl⟩ := effect_pop hmove
        obtain ⟨rfl, rfl⟩ := List.cons.inj hcons
        exact Or.inr (Pool.move_threads_self _ _ _ _)
      · rw [hdone] at hmove
        cases hmove
    · rw [Pool.move_threads_of_ne _ _ _ ht']
      exact hphases t' ht'
  · obtain ⟨z, -, rfl, rfl⟩ := (hphases t ht).effect hmove
    refine ⟨?_, fun t' ht' => ?_⟩
    · rw [Pool.move_threads_of_ne _ _ _ (Ne.symm ht)]
      refine hown.imp_left fun ⟨hpending, l, hl⟩ => ⟨hpending, l ++ [z], ?_⟩
      rw [Pool.move_shared, hl, List.cons_append]
    · exact Pool.forall_move
        (P := fun u th => u ≠ d → Pushing (fun _ => True) th)
        (fun _ => Or.inr (Or.inr rfl)) (fun u _ => hphases u) t' ht'

/-- The pop of `d` goes on while others come and go. -/
theorem Led.other (h : Led d x s) {t : ι} (ht : t ≠ d)
    {ph : Phase (Op T) (Res T)} (hph : Pushing (fun _ => True) ph) :
    Led d x (s.move t s.shared ph) := by
  refine ⟨?_, fun t' ht' => ?_⟩
  · rw [Pool.move_threads_of_ne _ _ _ (Ne.symm ht)]
    exact h.own
  · exact Pool.forall_move
      (P := fun u th => u ≠ d → Pushing (fun _ => True) th)
      (fun _ => hph) (fun u _ => h.phases u) t' ht'

theorem Filled.led (h : Filled x s) (hne : s.shared ≠ []) (d : ι) :
    Led d x (s.move d s.shared (.pending .pop)) := by
  obtain ⟨z, l, hl⟩ := List.exists_cons_of_ne_nil hne
  obtain rfl := h.items z (by simp [hl])
  refine ⟨Or.inl ⟨Pool.move_threads_self _ _ _ _, l, hl⟩, fun t ht => ?_⟩
  rw [Pool.move_threads_of_ne _ _ _ ht]
  exact (h.phases t).imp id (Or.imp (fun ⟨z, _, hz⟩ => ⟨z, trivial, hz⟩) id)

/-- A push of `x` by `a` goes on while `b` pushes `x` at least once, then a pop
by `d` begins, `b` pushes `y`, and `d` gets `y`. -/
def tooEarly (a b d : ι) (x y : T) (m : ℕ) :
    List (ι × Act (Op T) (Res T)) :=
  [(a, .call (.push x))] ++ SeqObject.serial [(b, .push x, .pushed true)] ++
    SeqObject.serial (List.replicate m (b, .push x, .pushed true)) ++
    [(d, .call .pop)] ++ SeqObject.serial [(b, .push y, .pushed true)] ++
    [(d, .ret (.popped (some y)))]

theorem not_tooEarly (hxy : x ≠ y) (hbd : b ≠ d) (m : ℕ) :
    (hesitant T cap push pop).After (tooEarly a b d x y m) fun _ => False := by
  have hfull : (hesitant T cap push pop).Stable
      fun s : Pool ι (List T) _ => Filled x s ∧ s.shared ≠ [] :=
    fun s t q ph h hmove => h.1.effect hmove
  have hnil : (hesitant T cap push pop).After []
      (Filled x : Pool ι (List T) _ → Prop) :=
    SeqObject.after_nil filled_stable filled_init
  have hstart := hnil.snoc a (.call (.push x)) (Q := Filled x)
    (fun s q ph h hmove => by
      cases hth : s.threads a <;> rw [hth] at hmove <;> cases hmove
      exact h.call a) filled_stable
  have hfirst := hstart.call b (.push x) (.pushed true)
    (Q := fun s => Filled x s ∧
      (s.threads b = .pending (.push x) ∨ s.shared ≠ []))
    (R := fun s => Filled x s ∧ s.shared ≠ [])
    (fun s h _ => ⟨h.call b, Or.inl (Pool.move_threads_self _ _ _ _)⟩)
    (fun s t q ph h hmove =>
      ⟨(h.1.effect hmove).1, Or.inr (h.1.effect hmove).2⟩)
    (fun s h hth => ⟨h.1.ret b, h.2.resolve_left fun hpending => by
      rw [hth] at hpending
      cases hpending⟩) hfull
  have hpushes := hfirst.calls b (.push x) (.pushed true)
    (fun s h _ => ⟨h.1.call b, h.2⟩) hfull
    (fun s h _ => ⟨h.1.ret b, h.2⟩) hfull m
  have hpop := hpushes.snoc d (.call .pop) (Q := Led d x)
    (fun s q ph h hmove => by
      cases hth : s.threads d <;> rw [hth] at hmove <;> cases hmove
      exact h.1.led h.2 d) led_stable
  have hlast := hpop.call b (.push y) (.pushed true)
    (fun s h _ => h.other hbd (Or.inr (Or.inl ⟨y, trivial, rfl⟩))) led_stable
    (fun s h _ => h.other hbd (Or.inl rfl)) led_stable
  refine hlast.snoc d (.ret (.popped (some y))) (fun s q ph h hmove => ?_)
    fun _ _ _ _ h => h.elim
  rcases h.own with ⟨hth, -⟩ | hth
  · rw [hth] at hmove
    cases hmove
  · rw [hth] at hmove
    cases hmove
    exact hxy rfl

/-! ## The second item before the first -/

/-- `x` is pushed once, and only `c` and `c'` pop. -/
def Rare (c c' : ι) (x : T) (t : ι) (ph : Phase (Op T) (Res T)) : Prop :=
  Pushing (· ≠ x) ph ∨
    (t = c ∨ t = c') ∧ (ph = .pending .pop ∨ ∃ z, ph = .done (.popped z))

/-- `x` is gone, and not to `c'`. -/
structure Gone (c c' : ι) (x : T)
    (s : Pool ι (List T) (Phase (Op T) (Res T))) : Prop where
  phases : ∀ t, Rare c c' x t (s.threads t)
  notMem : x ∉ s.shared
  other : s.threads c' ≠ .done (.popped (some x))

/-- `x` is still the first item. -/
structure First (c c' : ι) (x : T)
    (s : Pool ι (List T) (Phase (Op T) (Res T))) : Prop where
  phases : ∀ t, Rare c c' x t (s.threads t)
  first : ∃ l, s.shared = x :: l ∧ x ∉ l
  none : ∀ t z, s.threads t ≠ .done (.popped z)

/-- `x` is the first item, or gone, or `c'` has taken it. -/
def Settled (c c' : ι) (x : T)
    (s : Pool ι (List T) (Phase (Op T) (Res T))) : Prop :=
  First c c' x s ∨ Gone c c' x s ∨ s.threads c' = .done (.popped (some x))

omit [DecidableEq ι] in
/-- The effect of a push or a pop. -/
theorem Rare.effect {t : ι} {q q' : List T} {ph ph' : Phase (Op T) (Res T)}
    (hph : Rare c c' x t ph)
    (h : (hesitant T cap push pop).Move q ph .effect q' ph') :
    (∃ z, z ≠ x ∧ q' = q ++ [z] ∧ ph' = .done (.pushed true)) ∨
      ((t = c ∨ t = c') ∧ ∃ z, q = z :: q' ∧ ph' = .done (.popped (some z))) := by
  rcases hph with hph | ⟨ht, rfl | ⟨z, rfl⟩⟩
  · exact Or.inl (hph.effect h)
  · exact Or.inr ⟨ht, effect_pop h⟩
  · cases h

omit [DecidableEq ι] in
theorem rare_pushed {t : ι} :
    Rare c c' x t (.done (.pushed true) : Phase (Op T) (Res T)) :=
  Or.inl (Or.inr (Or.inr rfl))

omit [DecidableEq ι] in
theorem rare_idle {t : ι} : Rare c c' x t (.idle : Phase (Op T) (Res T)) :=
  Or.inl (Or.inl rfl)

theorem rare_move {t : ι} {q : List T} {ph : Phase (Op T) (Res T)}
    (h : ∀ t, Rare c c' x t (s.threads t)) (hph : Rare c c' x t ph) (u : ι) :
    Rare c c' x u ((s.move t q ph).threads u) :=
  Pool.forall_move (P := fun u th => Rare c c' x u th) hph (fun u _ => h u) u

theorem move_threads_ne {t u : ι} {q : List T} {ph ph' : Phase (Op T) (Res T)}
    (hph : ph ≠ ph') (hu : s.threads u ≠ ph') :
    (s.move t q ph).threads u ≠ ph' := by
  by_cases hut : u = t
  · subst hut
    rwa [Pool.move_threads_self]
  · rwa [Pool.move_threads_of_ne _ _ _ hut]

theorem Gone.effect {t : ι} {q : List T} {ph : Phase (Op T) (Res T)}
    (h : Gone c c' x s)
    (hmove : (hesitant T cap push pop).Move s.shared (s.threads t) .effect q
      ph) : Gone c c' x (s.move t q ph) := by
  rcases (h.phases t).effect hmove with ⟨z, hz, rfl, rfl⟩ | ⟨ht, z, hq, rfl⟩
  · refine ⟨rare_move h.phases rare_pushed, ?_, move_threads_ne nofun h.other⟩
    simpa [h.notMem] using Ne.symm hz
  · have hmem := h.notMem
    rw [hq, List.mem_cons, not_or] at hmem
    refine ⟨rare_move h.phases (Or.inr ⟨ht, Or.inr ⟨_, rfl⟩⟩), hmem.2,
      move_threads_ne (fun heq => ?_) h.other⟩
    cases heq
    exact hmem.1 rfl

theorem gone_stable : (hesitant T cap push pop).Stable (Gone c c' x) :=
  fun _ _ _ _ h hmove => h.effect hmove

theorem First.effect {t : ι} {q : List T} {ph : Phase (Op T) (Res T)}
    (hcc : c ≠ c') (h : First c c' x s)
    (hmove : (hesitant T cap push pop).Move s.shared (s.threads t) .effect q
      ph) : Settled c c' x (s.move t q ph) := by
  obtain ⟨l, hl, hmem⟩ := h.first
  rcases (h.phases t).effect hmove with ⟨z, hz, rfl, rfl⟩ | ⟨ht, z, hq, rfl⟩
  · refine Or.inl ⟨rare_move h.phases rare_pushed, ⟨l ++ [z], ?_, ?_⟩,
      fun u w => ?_⟩
    · rw [Pool.move_shared, hl, List.cons_append]
    · simpa [hmem] using Ne.symm hz
    · exact move_threads_ne nofun (h.none u w)
  · rw [hl] at hq
    obtain ⟨rfl, rfl⟩ := List.cons.inj hq
    rcases ht with rfl | rfl
    · refine Or.inr (Or.inl ⟨rare_move h.phases
        (Or.inr ⟨Or.inl rfl, Or.inr ⟨_, rfl⟩⟩), hmem, ?_⟩)
      rw [Pool.move_threads_of_ne _ _ _ hcc.symm]
      exact h.none c' _
    · exact Or.inr (Or.inr (Pool.move_threads_self _ _ _ _))

theorem settled_stable (hcc : c ≠ c') :
    (hesitant T cap push pop).Stable (Settled c c' x) := by
  rintro s t q ph (h | h | h) hmove
  · exact h.effect hcc hmove
  · exact Or.inr (Or.inl (h.effect hmove))
  · refine Or.inr (Or.inr ?_)
    by_cases ht : t = c'
    · subst ht
      rw [h] at hmove
      cases hmove
    · rwa [Pool.move_threads_of_ne _ _ _ (Ne.symm ht)]

/-- A start or return that changes nothing. -/
theorem Gone.step (h : Gone c c' x s) {t : ι} {ph : Phase (Op T) (Res T)}
    (hph : Rare c c' x t ph) (hne : ph ≠ .done (.popped (some x))) :
    Gone c c' x (s.move t s.shared ph) :=
  ⟨rare_move h.phases hph, h.notMem, move_threads_ne hne h.other⟩

theorem Settled.step (h : Settled c c' x s) {t : ι}
    {ph : Phase (Op T) (Res T)} (hph : Rare c c' x t ph)
    (hnone : ∀ z, ph ≠ .done (.popped z))
    (hne : s.threads t ≠ .done (.popped (some x))) :
    Settled c c' x (s.move t s.shared ph) := by
  rcases h with h | h | h
  · exact Or.inl ⟨rare_move h.phases hph, h.first,
      fun u z => move_threads_ne (hnone z) (h.none u z)⟩
  · exact Or.inr (Or.inl (h.step hph (hnone _)))
  · refine Or.inr (Or.inr ?_)
    rwa [Pool.move_threads_of_ne]
    rintro rfl
    exact hne h

/-- The pop of `c'` that got another item shows that `x` is gone. -/
theorem Settled.gone (h : Settled c c' x s) (hxy : x ≠ y)
    (hth : s.threads c' = .done (.popped (some y))) :
    Gone c c' x (s.move c' s.shared .idle) := by
  rcases h with h | h | h
  · exact absurd hth (h.none c' _)
  · exact h.step rare_idle nofun
  · rw [hth] at h
    cases h
    exact absurd rfl hxy

/-- The first push is the only call. -/
def Begun (p : ι) (x : T) (s : Pool ι (List T) (Phase (Op T) (Res T))) : Prop :=
  (s.threads p = .pending (.push x) ∧ s.shared = [] ∨
    s.threads p = .done (.pushed true) ∧ s.shared = [x]) ∧
    ∀ t, t ≠ p → s.threads t = .idle

theorem begun_stable : (hesitant T cap push pop).Stable (Begun p x) := by
  rintro s t q ph ⟨hown, hidle⟩ hmove
  by_cases ht : t = p
  · subst ht
    refine ⟨Or.inr ?_, fun u hu => ?_⟩
    · rcases hown with ⟨hth, hnil⟩ | ⟨hth, -⟩
      · rw [hth, hnil] at hmove
        obtain ⟨rfl, rfl⟩ := effect_push hmove
        exact ⟨Pool.move_threads_self _ _ _ _, rfl⟩
      · rw [hth] at hmove
        cases hmove
    · rw [Pool.move_threads_of_ne _ _ _ hu]
      exact hidle u hu
  · rw [hidle t ht] at hmove
    cases hmove

theorem Begun.first (h : Begun p x s)
    (hth : s.threads p = .done (.pushed true)) :
    First c c' x (s.move p s.shared .idle) := by
  obtain ⟨⟨hpending, -⟩ | ⟨-, hitems⟩, hidle⟩ := h
  · rw [hth] at hpending
    cases hpending
  · have hall : ∀ t, (s.move p s.shared .idle).threads t = .idle :=
      Pool.forall_move (P := fun _ th => th = Phase.idle) rfl hidle
    refine ⟨fun t => ?_, ⟨[], hitems, nofun⟩, fun t z => ?_⟩
    · rw [hall]
      exact rare_idle
    · rw [hall]
      nofun

/-- `p` pushes `x` and then `y` any number of times, a pop by `c` begins, `c'`
pops `y` at least once, a push by `p` begins, and `c'` pops `x`. -/
def outOfOrder (p c c' : ι) (x y : T) (m k : ℕ) :
    List (ι × Act (Op T) (Res T)) :=
  SeqObject.serial [(p, .push x, .pushed true)] ++
    SeqObject.serial (List.replicate m (p, .push y, .pushed true)) ++
    [(c, .call .pop)] ++ SeqObject.serial [(c', .pop, .popped (some y))] ++
    SeqObject.serial (List.replicate k (c', .pop, .popped (some y))) ++
    [(p, .call (.push y))] ++ SeqObject.serial [(c', .pop, .popped (some x))]

theorem not_outOfOrder (hxy : x ≠ y) (hcc : c ≠ c') (m k : ℕ) :
    (hesitant T cap push pop).After (outOfOrder p c c' x y m k)
      fun _ => False := by
  have hnil : (hesitant T cap push pop).After []
      fun s : Pool ι (List T) _ => s.shared = [] ∧ ∀ t, s.threads t = .idle :=
    SeqObject.after_nil (fun s t q ph h hmove => by
      rw [h.2 t] at hmove
      cases hmove) ⟨rfl, fun _ => rfl⟩
  have hfirst := hnil.call p (.push x) (.pushed true)
    (Q := Begun p x) (R := Settled c c' x)
    (fun s h _ => ⟨Or.inl ⟨Pool.move_threads_self _ _ _ _, h.1⟩, fun t ht => by
      rw [Pool.move_threads_of_ne _ _ _ ht]
      exact h.2 t⟩) begun_stable (fun s h hth => Or.inl (h.first hth))
    (settled_stable hcc)
  have hpushes := hfirst.calls p (.push y) (.pushed true)
    (fun s h hth => h.step (Or.inl (Or.inr (Or.inl ⟨y, hxy.symm, rfl⟩)))
      nofun (by rw [hth]; nofun)) (settled_stable hcc)
    (fun s h hth => h.step rare_idle nofun (by rw [hth]; nofun))
    (settled_stable hcc) m
  have hpop := hpushes.snoc c (.call .pop) (Q := Settled c c' x)
    (fun s q ph h hmove => by
      cases hth : s.threads c <;> rw [hth] at hmove <;> cases hmove
      exact h.step (Or.inr ⟨Or.inl rfl, Or.inl rfl⟩) nofun (by rw [hth]; nofun))
    (settled_stable hcc)
  have hsecond := hpop.call c' .pop (.popped (some y)) (R := Gone c c' x)
    (fun s h hth => h.step (Or.inr ⟨Or.inr rfl, Or.inl rfl⟩) nofun
      (by rw [hth]; nofun)) (settled_stable hcc)
    (fun s h hth => h.gone hxy hth) gone_stable
  have hpops := hsecond.calls c' .pop (.popped (some y))
    (fun s h _ => h.step (Or.inr ⟨Or.inr rfl, Or.inl rfl⟩) nofun) gone_stable
    (fun s h _ => h.step rare_idle nofun) gone_stable k
  have hpush := hpops.snoc p (.call (.push y)) (Q := Gone c c' x)
    (fun s q ph h hmove => by
      cases hth : s.threads p <;> rw [hth] at hmove <;> cases hmove
      exact h.step (Or.inl (Or.inr (Or.inl ⟨y, hxy.symm, rfl⟩))) nofun)
    gone_stable
  exact hpush.call c' .pop (.popped (some x))
    (fun s h _ => h.step (Or.inr ⟨Or.inr rfl, Or.inl rfl⟩) nofun) gone_stable
    (fun s h hth => h.other hth) fun _ _ _ _ h => h.elim

end Fifo
end ConcurrentQueues
