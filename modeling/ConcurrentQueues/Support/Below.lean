import ConcurrentQueues.Support.Views
import Mathlib.Data.List.Forall2
import Mathlib.Order.MinMax

/-!
# Memories that know less

Of two memories with the same messages one may know less: its views and the
views of its messages are below those of the other, which may have more atomics
and other plain locations besides.  A load on the memory that knows more may be
made on the other one too, because it may see every message that is not known
to be old.  So an algorithm is carried over to a memory in which more is
passed on.
-/

namespace ConcurrentQueues

variable {A B L M ι D : Type*}

/-! ## Views -/

namespace View

/-- `w` knows of the atomics named by `f` and of the plain accesses all that `v`
knows. -/
def Below (f : A → B) (v : View A ι) (w : View B ι) : Prop :=
  (∀ a, v.seen a ≤ w.seen (f a)) ∧ ∀ t, v.past t ≤ w.past t

variable {f : A → B} {v v' : View A ι} {w w' : View B ι}

theorem below_bot : (⊥ : View A ι).Below f w :=
  ⟨fun _ => Nat.zero_le _, fun _ => Nat.zero_le _⟩

theorem Below.mono (h : v.Below f w) (hw : w ≤ w') : v.Below f w' :=
  ⟨fun a => (h.1 a).trans (hw.1 (f a)), fun t => (h.2 t).trans (hw.2 t)⟩

theorem Below.sup (h : v.Below f w) (h' : v'.Below f w') :
    (v ⊔ v').Below f (w ⊔ w') :=
  ⟨fun a => max_le_max (h.1 a) (h'.1 a),
    fun t => max_le_max (h.2 t) (h'.2 t)⟩

theorem below_single [DecidableEq A] [DecidableEq B] (a : A) (k : ℕ) :
    (single a k : View A ι).Below f (single (f a) k) := by
  refine ⟨fun b => ?_, fun _ => le_rfl⟩
  by_cases hb : b = a
  · subst hb
    simp
  · rw [single_seen_of_ne hb]
    exact Nat.zero_le _

theorem Below.knows (h : v.Below f w) {e : Option (ι × ℕ)} (he : v.Knows e) :
    w.Knows e := by
  cases e with
  | none => trivial
  | some e => exact Nat.le_trans he (h.2 e.1)

theorem Below.tick [DecidableEq ι] (h : v.Below f w) {t : ι}
    (hown : v.past t = w.past t) : (v.tick t).Below f (w.tick t) := by
  refine ⟨h.1, fun u => ?_⟩
  by_cases hu : u = t
  · subst hu
    rw [tick_past_self, tick_past_self, hown]
  · rw [tick_past_of_ne _ hu, tick_past_of_ne _ hu]
    exact h.2 u

end View

/-- The same message, which tells more. -/
structure Msg.Below (f : A → B) (m : Msg A ι) (m' : Msg B ι) : Prop where
  val : m.val = m'.val
  view : m.view.Below f m'.view
  seqCst : m.seqCst = m'.seqCst

namespace ViewMemory

/-! ## Memories -/

/-- `m` has the messages of `m'` and knows at most as much.  Every thread has
made as many plain accesses in the one as in the other. -/
structure Below (f : A → B) (m : ViewMemory A L ι D) (m' : ViewMemory B M ι D) :
    Prop where
  msgs : ∀ a, List.Forall₂ (Msg.Below f) (m.msgs a) (m'.msgs (f a))
  view : ∀ t, (m.view t).Below f (m'.view t)
  own : ∀ t, (m.view t).past t = (m'.view t).past t

variable {f : A → B} {m : ViewMemory A L ι D} {m' m₁ : ViewMemory B M ι D}
  {t : ι} {o : MemoryOrder} {a : A} {b : B} {k v : ℕ} {l : L} {l' : M}

theorem below_init {vals : A → ℕ} {vals' : B → ℕ} {data : L → D} {data' : M → D}
    (h : ∀ a, vals a = vals' (f a)) :
    (init vals data : ViewMemory A L ι D).Below f
      (init vals' data' : ViewMemory B M ι D) where
  msgs a := .cons ⟨h a, View.below_bot, rfl⟩ .nil
  view _ := View.below_bot
  own _ := rfl

theorem Below.length_msgs (h : m.Below f m') (a : A) :
    (m.msgs a).length = (m'.msgs (f a)).length :=
  (h.msgs a).length_eq

theorem Below.getElem? (h : m.Below f m') {msg : Msg B ι}
    (hmsg : (m'.msgs (f a))[k]? = some msg) :
    ∃ msg₀, (m.msgs a)[k]? = some msg₀ ∧ msg₀.Below f msg := by
  obtain ⟨hlt, rfl⟩ := List.getElem?_eq_some_iff.mp hmsg
  have hlt₀ : k < (m.msgs a).length := (h.length_msgs a).symm ▸ hlt
  exact ⟨_, List.getElem?_eq_getElem hlt₀, (h.msgs a).get hlt₀ hlt⟩

theorem Below.getLast? (h : m.Below f m') {msg : Msg B ι}
    (hmsg : (m'.msgs (f a)).getLast? = some msg) :
    ∃ msg₀, (m.msgs a).getLast? = some msg₀ ∧ msg₀.Below f msg := by
  rw [List.getLast?_eq_getElem?] at hmsg ⊢
  rw [h.length_msgs]
  exact h.getElem? hmsg

/-- What is covered stays covered where the cell is the same. -/
theorem Below.covered {v : View A ι} {w : View B ι} (h : v.Below f w)
    (hcell : m'.cells l' = m.cells l) (hv : m.Covered l v) :
    m'.Covered l' w := by
  rw [Covered, hcell]
  exact ⟨h.knows hv.1, fun u => (hv.2 u).trans (h.2 u)⟩

section Learn

variable [DecidableEq ι]

variable {w : View A ι} {w' : View B ι}

theorem Below.learn (h : m.Below f m') (hw : w.Below f w')
    (hown : w.past t ≤ (m.view t).past t)
    (hown' : w'.past t ≤ (m'.view t).past t) :
    (m.learn t w).Below f (m'.learn t w') := by
  refine ⟨h.msgs, fun u => ?_, fun u => ?_⟩
  · by_cases hu : u = t
    · subst hu
      rw [learn_view_self, learn_view_self]
      exact (h.view u).sup hw
    · rw [learn_view_of_ne hu, learn_view_of_ne hu]
      exact h.view u
  · by_cases hu : u = t
    · subst hu
      rw [learn_view_self, learn_view_self, View.sup_past, View.sup_past,
        max_eq_left hown, max_eq_left hown']
      exact h.own u
    · rw [learn_view_of_ne hu, learn_view_of_ne hu]
      exact h.own u

/-- Only the memory that knows more learns something. -/
theorem Below.learn_right (h : m.Below f m')
    (hown : w'.past t ≤ (m'.view t).past t) : m.Below f (m'.learn t w') := by
  refine ⟨h.msgs, fun u => (h.view u).mono le_learn, fun u => ?_⟩
  by_cases hu : u = t
  · subst hu
    rw [learn_view_self, View.sup_past, max_eq_left hown]
    exact h.own u
  · rw [learn_view_of_ne hu]
    exact h.own u

theorem acquireFence_cons (m : ViewMemory B M ι D) (t : ι) (b : B) (k : ℕ)
    (heard : List (B × ℕ)) : m.acquireFence t ((b, k) :: heard) =
      (((m.msgs b)[k]?).elim m fun msg =>
        m.learn t msg.view).acquireFence t heard := rfl

/-- A fence tells what the messages heard before it told. -/
theorem le_acquireFence {msg : Msg B ι} {heard : List (B × ℕ)}
    (hheard : (b, k) ∈ heard) (hmsg : (m'.msgs b)[k]? = some msg) :
    msg.view ≤ (m'.acquireFence t heard).view t := by
  induction heard generalizing m' with
  | nil => cases hheard
  | cons x heard ih =>
      obtain ⟨b', k'⟩ := x
      rw [acquireFence_cons]
      rcases List.mem_cons.mp hheard with heq | hheard
      · obtain ⟨rfl, rfl⟩ := Prod.mk.inj heq
        rw [hmsg, Option.elim_some]
        refine View.le_trans ?_ ((learned_acquireFence _ t heard).view_le t)
        rw [learn_view_self]
        exact View.le_sup_right
      · cases (m'.msgs b')[k']? with
        | none => exact ih hheard hmsg
        | some msg' => exact ih hheard hmsg

/-- A fence of both. -/
theorem Below.acquireFence (h : m.Below f m') (hwf : m.WellFormed)
    (hwf' : m'.WellFormed) (heard : List (A × ℕ)) :
    (m.acquireFence t heard).Below f
      (m'.acquireFence t (heard.map (Prod.map f id))) := by
  induction heard generalizing m m' with
  | nil => exact h
  | cons x heard ih =>
      obtain ⟨a, k⟩ := x
      rw [List.map_cons, Prod.map_apply, id_eq, acquireFence_cons,
        acquireFence_cons]
      cases hmsg' : (m'.msgs (f a))[k]? with
      | none =>
          have hmsg : (m.msgs a)[k]? = none := by
            rw [List.getElem?_eq_none_iff] at hmsg' ⊢
            exact h.length_msgs a ▸ hmsg'
          rw [hmsg]
          exact ih h hwf hwf'
      | some msg' =>
          obtain ⟨msg, hmsg, hbelow⟩ := h.getElem? hmsg'
          have hle := hwf.msg_le a msg (List.mem_of_getElem? hmsg)
          have hle' := hwf'.msg_le (f a) msg' (List.mem_of_getElem? hmsg')
          rw [hmsg]
          exact ih (h.learn hbelow.view (hle.2 t) (hle'.2 t)) (hwf.learn hle)
            (hwf'.learn hle')

/-- A fence of the memory that knows more. -/
theorem Below.acquireFence_right (h : m.Below f m') (hwf : m'.WellFormed)
    (heard : List (B × ℕ)) : m.Below f (m'.acquireFence t heard) := by
  induction heard generalizing m' with
  | nil => exact h
  | cons x heard ih =>
      obtain ⟨b, k⟩ := x
      rw [acquireFence_cons]
      cases hmsg : (m'.msgs b)[k]? with
      | none => exact ih h hwf
      | some msg =>
          have hle := hwf.msg_le b msg (List.mem_of_getElem? hmsg)
          exact ih (h.learn_right (hle.2 t)) (hwf.learn hle)

end Learn

/-- No message tells a thread of accesses that it has not made. -/
theorem WellFormed.told_past [DecidableEq B] (h : m'.WellFormed) {msg : Msg B ι}
    (hmsg : msg ∈ m'.msgs b) :
    (told o b k msg).past t ≤ (m'.view t).past t := by
  rw [told, View.sup_past, View.single_past, Nat.zero_max]
  split_ifs
  · exact (h.msg_le b msg hmsg).2 t
  · exact Nat.zero_le _

section Accesses

variable [DecidableEq B] [DecidableEq ι]

/-- A load of another atomic. -/
theorem Below.load_right (h : m.Below f m') (hwf : m'.WellFormed)
    (hload : m'.load t o b k = some (v, m₁)) : m.Below f m₁ := by
  obtain ⟨-, msg, hmsg, -, rfl⟩ := load_eq_some_iff.mp hload
  exact h.learn_right (hwf.told_past (List.mem_of_getElem? hmsg))

/-- A message of another atomic. -/
theorem Below.post_right (h : m.Below f m') (hb : ∀ a, f a ≠ b)
    {msg : Msg B ι} : m.Below f (m'.post t b msg) := by
  refine ⟨fun a => ?_, fun u => ?_, fun u => ?_⟩
  · rw [post_msgs_of_ne (hb a)]
    exact h.msgs a
  · exact (h.view u).mono le_post
  · by_cases hu : u = t
    · subst hu
      rw [post_view_self]
      simpa using h.own u
    · rw [post_view_of_ne hu]
      exact h.own u

variable [DecidableEq A]

omit [DecidableEq ι] in
theorem below_told {msg : Msg A ι} {msg' : Msg B ι} (h : msg.Below f msg') :
    (told o a k msg).Below f (told o (f a) k msg') := by
  refine (View.below_single a k).sup ?_
  split_ifs
  · exact h.view
  · exact View.below_bot

/-- A load of an atomic of both. -/
theorem Below.load (h : m.Below f m') (hwf : m.WellFormed)
    (hwf' : m'.WellFormed) (hload : m'.load t o (f a) k = some (v, m₁)) :
    ∃ m₀, m.load t o a k = some (v, m₀) ∧ m₀.Below f m₁ := by
  obtain ⟨⟨hseen, horder⟩, msg', hmsg', rfl, rfl⟩ := load_eq_some_iff.mp hload
  obtain ⟨msg, hmsg, hbelow⟩ := h.getElem? hmsg'
  have hadmits : m.Admits t o a k := by
    refine ⟨((h.view t).1 a).trans hseen, fun ho newer hnewer => ?_⟩
    obtain ⟨i, hi, rfl⟩ := List.getElem_of_mem hnewer
    have hdrop := List.forall₂_drop (k + 1) (h.msgs a)
    have hi' := hdrop.length_eq ▸ hi
    exact (hdrop.get hi hi').seqCst.trans (horder ho _ (List.getElem_mem hi'))
  refine ⟨_, load_eq_some_iff.mpr ⟨hadmits, msg, hmsg, hbelow.val, rfl⟩, ?_⟩
  exact h.learn (below_told hbelow)
    (hwf.told_past (List.mem_of_getElem? hmsg))
    (hwf'.told_past (List.mem_of_getElem? hmsg'))

/-- A message of an atomic of both. -/
theorem Below.post (h : m.Below f m') (hf : Function.Injective f)
    {msg : Msg A ι} {msg' : Msg B ι} (hmsg : msg.Below f msg') :
    (m.post t a msg).Below f (m'.post t (f a) msg') := by
  refine ⟨fun c => ?_, fun u => ?_, fun u => ?_⟩
  · by_cases hc : c = a
    · subst hc
      rw [post_msgs_self, post_msgs_self]
      exact List.rel_append (h.msgs c) (.cons hmsg .nil)
    · rw [post_msgs_of_ne hc, post_msgs_of_ne fun heq => hc (hf heq)]
      exact h.msgs c
  · by_cases hu : u = t
    · subst hu
      rw [post_view_self, post_view_self, h.length_msgs]
      exact (h.view u).sup (View.below_single a _)
    · rw [post_view_of_ne hu, post_view_of_ne hu]
      exact h.view u
  · by_cases hu : u = t
    · subst hu
      rw [post_view_self, post_view_self]
      simpa using h.own u
    · rw [post_view_of_ne hu, post_view_of_ne hu]
      exact h.own u

theorem Below.store (h : m.Below f m') (hf : Function.Injective f) :
    (m.store t o a v).Below f (m'.store t o (f a) v) := by
  refine h.post hf ⟨rfl, ?_, rfl⟩
  rw [message, message, h.length_msgs]
  refine (View.below_single a _).sup ?_
  split_ifs
  · exact h.view t
  · exact View.below_bot

theorem Below.modify (h : m.Below f m') (hf : Function.Injective f)
    (hwf : m.WellFormed) (hwf' : m'.WellFormed) {g : ℕ → ℕ}
    (hmodify : m'.modify t o (f a) g = some (v, m₁)) :
    ∃ m₀, m.modify t o a g = some (v, m₀) ∧ m₀.Below f m₁ := by
  obtain ⟨newest', hlast', rfl, rfl⟩ := modify_eq_some_iff.mp hmodify
  obtain ⟨newest, hlast, hbelow⟩ := h.getLast? hlast'
  refine ⟨_, modify_eq_some_iff.mpr ⟨newest, hlast, hbelow.val, rfl⟩, ?_⟩
  have hlearn := h.learn (t := t)
    (below_told (o := o) (k := (m.msgs a).length - 1) hbelow)
    (hwf.told_past (List.mem_of_getLast? hlast))
    (hwf'.told_past (List.mem_of_getLast? hlast'))
  rw [update, update, ← h.length_msgs]
  refine hlearn.post hf ⟨rfl, ?_, rfl⟩
  refine View.Below.sup ?_ hbelow.view
  rw [message, message, hlearn.length_msgs]
  refine (View.below_single a _).sup ?_
  split_ifs
  · exact hlearn.view t
  · exact View.below_bot

end Accesses

section Plain

variable [DecidableEq ι] [DecidableEq L] [DecidableEq M]

/-- An access of both. -/
theorem Below.access (h : m.Below f m') {c c' : Cell ι D} :
    (m.access t l c).Below f (m'.access t l' c') := by
  refine ⟨h.msgs, fun u => ?_, fun u => ?_⟩
  · by_cases hu : u = t
    · subst hu
      rw [access_view_self, access_view_self]
      exact (h.view u).tick (h.own u)
    · rw [access_view_of_ne hu, access_view_of_ne hu]
      exact h.view u
  · by_cases hu : u = t
    · subst hu
      rw [access_view_self, access_view_self, View.tick_past_self,
        View.tick_past_self, h.own]
    · rw [access_view_of_ne hu, access_view_of_ne hu]
      exact h.own u

/-- A write to a cell that is the same leaves the same. -/
theorem Below.write_cells (h : m.Below f m')
    (hcell : m'.cells l' = m.cells l) (d : D) :
    (m'.write t l' d).cells l' = (m.write t l d).cells l := by
  rw [write_cells_self, write_cells_self, hcell, h.own]

end Plain

end ViewMemory
end ConcurrentQueues
