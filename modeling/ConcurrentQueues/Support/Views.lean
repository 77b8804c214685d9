import Mathlib.Logic.Function.Basic
import Mathlib.Order.Lattice
import Mathlib.Data.List.Basic

/-!
# Memory with release and acquire

Atomic locations keep every write as a message, oldest first, and a thread may
load any message that is not older than one it knows of.  What a thread knows is
its view: for every atomic the newest message, and for every thread how many of
its plain accesses happen before.  A release store attaches the view of its
thread to the message, an acquire load takes the view of the message over.

Plain locations remember their last write and, for each thread, its last read.
An access races when it conflicts with one that does not happen before it.  A
store goes to the end of the modification order.
-/

namespace ConcurrentQueues

/-- The memory orders of an atomic access. -/
inductive MemoryOrder
  | relaxed
  | acquire
  | release
  | acqRel
  | seqCst
  deriving DecidableEq

namespace MemoryOrder

/-- Orders under which a load takes over the view of the message. -/
def acquires : MemoryOrder → Bool
  | acquire | acqRel | seqCst => true
  | relaxed | release => false

/-- Orders under which a store attaches the view of its thread. -/
def releases : MemoryOrder → Bool
  | release | acqRel | seqCst => true
  | relaxed | acquire => false

end MemoryOrder

/-! ## Views -/

/-- What is known of the atomics `A` and of the plain accesses of the threads
`ι`. -/
@[ext] structure View (A ι : Type*) where
  seen : A → ℕ
  past : ι → ℕ

namespace View

variable {A ι : Type*}

instance : Bot (View A ι) := ⟨⟨fun _ => 0, fun _ => 0⟩⟩

instance : Max (View A ι) :=
  ⟨fun v w => ⟨fun a => max (v.seen a) (w.seen a),
    fun t => max (v.past t) (w.past t)⟩⟩

instance : LE (View A ι) :=
  ⟨fun v w => (∀ a, v.seen a ≤ w.seen a) ∧ ∀ t, v.past t ≤ w.past t⟩

@[simp] theorem bot_seen (a : A) : (⊥ : View A ι).seen a = 0 := rfl

@[simp] theorem bot_past (t : ι) : (⊥ : View A ι).past t = 0 := rfl

@[simp] theorem sup_seen (v w : View A ι) (a : A) :
    (v ⊔ w).seen a = max (v.seen a) (w.seen a) := rfl

@[simp] theorem sup_past (v w : View A ι) (t : ι) :
    (v ⊔ w).past t = max (v.past t) (w.past t) := rfl

/-- The view that knows message `k` of `a` and nothing else. -/
def single [DecidableEq A] (a : A) (k : ℕ) : View A ι :=
  ⟨fun b => if b = a then k else 0, fun _ => 0⟩

@[simp] theorem single_seen_self [DecidableEq A] (a : A) (k : ℕ) :
    (single a k : View A ι).seen a = k := if_pos rfl

theorem single_seen_of_ne [DecidableEq A] {a b : A} (h : b ≠ a) (k : ℕ) :
    (single a k : View A ι).seen b = 0 := if_neg h

@[simp] theorem single_past [DecidableEq A] (a : A) (k : ℕ) (t : ι) :
    (single a k : View A ι).past t = 0 := rfl

theorem bot_le (v : View A ι) : ⊥ ≤ v :=
  ⟨fun _ => Nat.zero_le _, fun _ => Nat.zero_le _⟩

theorem le_refl (v : View A ι) : v ≤ v :=
  ⟨fun _ => Nat.le_refl _, fun _ => Nat.le_refl _⟩

theorem le_trans {v w x : View A ι} (h : v ≤ w) (h' : w ≤ x) : v ≤ x :=
  ⟨fun a => (h.1 a).trans (h'.1 a), fun t => (h.2 t).trans (h'.2 t)⟩

theorem sup_le {v w x : View A ι} (h : v ≤ x) (h' : w ≤ x) : v ⊔ w ≤ x :=
  ⟨fun a => max_le (h.1 a) (h'.1 a), fun t => max_le (h.2 t) (h'.2 t)⟩

theorem le_sup_left {v w : View A ι} : v ≤ v ⊔ w :=
  ⟨fun _ => le_max_left _ _, fun _ => le_max_left _ _⟩

theorem le_sup_right {v w : View A ι} : w ≤ v ⊔ w :=
  ⟨fun _ => le_max_right _ _, fun _ => le_max_right _ _⟩

theorem single_le [DecidableEq A] {a : A} {k : ℕ} {v : View A ι}
    (h : k ≤ v.seen a) : single a k ≤ v := by
  refine ⟨fun b => ?_, fun _ => Nat.zero_le _⟩
  by_cases hb : b = a
  · subst hb
    simpa using h
  · rw [single_seen_of_ne hb]
    exact Nat.zero_le _

/-- One more plain access of `t`. -/
def tick [DecidableEq ι] (v : View A ι) (t : ι) : View A ι :=
  { v with past := Function.update v.past t (v.past t + 1) }

@[simp] theorem tick_seen [DecidableEq ι] (v : View A ι) (t : ι) :
    (v.tick t).seen = v.seen := rfl

@[simp] theorem tick_past_self [DecidableEq ι] (v : View A ι) (t : ι) :
    (v.tick t).past t = v.past t + 1 := by
  simp [tick]

theorem tick_past_of_ne [DecidableEq ι] (v : View A ι) {t u : ι} (h : u ≠ t) :
    (v.tick t).past u = v.past u := by
  simp [tick, h]

/-- The access with this number, if there was one, happens before. -/
def Knows (v : View A ι) : Option (ι × ℕ) → Prop
  | none => True
  | some (t, k) => k ≤ v.past t

theorem Knows.mono {v w : View A ι} {e : Option (ι × ℕ)} (h : v.Knows e)
    (hle : v ≤ w) : w.Knows e := by
  cases e with
  | none => trivial
  | some e => exact Nat.le_trans h (hle.2 e.1)

end View

/-! ## The memory -/

/-- A write to an atomic. -/
structure Msg (A ι : Type*) where
  val : ℕ
  view : View A ι
  seqCst : Bool

/-- A plain location. -/
structure Cell (ι D : Type*) where
  data : D
  wrote : Option (ι × ℕ)
  reads : ι → ℕ

/-- Atomics `A`, plain locations `L` that hold values of `D`, and the views of
the threads `ι`. -/
structure ViewMemory (A L ι D : Type*) where
  msgs : A → List (Msg A ι)
  cells : L → Cell ι D
  view : ι → View A ι

namespace ViewMemory

variable {A L ι D : Type*}

/-- Initialization happens before everything else. -/
def init (vals : A → ℕ) (data : L → D) : ViewMemory A L ι D where
  msgs a := [⟨vals a, ⊥, false⟩]
  cells l := ⟨data l, none, fun _ => 0⟩
  view _ := ⊥

/-- All accesses to `l` so far are known to `v`. -/
def Covered (m : ViewMemory A L ι D) (l : L) (v : View A ι) : Prop :=
  v.Knows (m.cells l).wrote ∧ ∀ u, (m.cells l).reads u ≤ v.past u

/-- A write by `t` would not race. -/
def WriteSafe (m : ViewMemory A L ι D) (t : ι) (l : L) : Prop :=
  m.Covered l (m.view t)

/-- A read by `t` would not race. -/
def ReadSafe (m : ViewMemory A L ι D) (t : ι) (l : L) : Prop :=
  (m.view t).Knows (m.cells l).wrote

theorem Covered.mono {m : ViewMemory A L ι D} {l : L} {v w : View A ι}
    (h : m.Covered l v) (hle : v ≤ w) : m.Covered l w :=
  ⟨h.1.mono hle, fun u => (h.2 u).trans (hle.2 u)⟩

/-- Message `k` may be loaded: none that is known is newer, and a load in the
total order of sequentially consistent operations skips no store of that
order. -/
def Admits (m : ViewMemory A L ι D) (t : ι) (o : MemoryOrder) (a : A)
    (k : ℕ) : Prop :=
  (m.view t).seen a ≤ k ∧
    (o = .seqCst → ∀ msg ∈ (m.msgs a).drop (k + 1), msg.seqCst = false)

instance (m : ViewMemory A L ι D) (t : ι) (o : MemoryOrder) (a : A) (k : ℕ) :
    Decidable (m.Admits t o a k) :=
  inferInstanceAs (Decidable (_ ∧ _))

variable [DecidableEq A] [DecidableEq L] [DecidableEq ι]

/-! ## The accesses -/

/-- The thread `t` comes to know `v`. -/
def learn (m : ViewMemory A L ι D) (t : ι) (v : View A ι) : ViewMemory A L ι D :=
  { m with view := Function.update m.view t (m.view t ⊔ v) }

/-- What a load of message `k` tells its thread. -/
def told (o : MemoryOrder) (a : A) (k : ℕ) (msg : Msg A ι) : View A ι :=
  View.single a k ⊔ if o.acquires then msg.view else ⊥

/-- A load of `a` that sees message `k`. -/
def load (m : ViewMemory A L ι D) (t : ι) (o : MemoryOrder) (a : A) (k : ℕ) :
    Option (ℕ × ViewMemory A L ι D) :=
  if m.Admits t o a k then
    (m.msgs a)[k]?.map fun msg => (msg.val, m.learn t (told o a k msg))
  else
    none

/-- The message of a store to `a`. -/
def message (m : ViewMemory A L ι D) (t : ι) (o : MemoryOrder) (a : A)
    (v : ℕ) : Msg A ι where
  val := v
  view := View.single a (m.msgs a).length ⊔ if o.releases then m.view t else ⊥
  seqCst := o = .seqCst

/-- A new message of `a`, known to the thread that posts it. -/
def post (m : ViewMemory A L ι D) (t : ι) (a : A) (msg : Msg A ι) :
    ViewMemory A L ι D :=
  { m with
    msgs := Function.update m.msgs a (m.msgs a ++ [msg])
    view := Function.update m.view t
      (m.view t ⊔ View.single a (m.msgs a).length) }

/-- A store of `v` to `a`. -/
def store (m : ViewMemory A L ι D) (t : ι) (o : MemoryOrder) (a : A) (v : ℕ) :
    ViewMemory A L ι D :=
  m.post t a (m.message t o a v)

/-- A read-modify-write of `a` that sees the newest message and stores `v`.  Its
message passes on what that message told. -/
def update (m : ViewMemory A L ι D) (t : ι) (o : MemoryOrder) (a : A)
    (newest : Msg A ι) (v : ℕ) : ViewMemory A L ι D :=
  let m' := m.learn t (told o a ((m.msgs a).length - 1) newest)
  let msg := m'.message t o a v
  m'.post t a { msg with view := msg.view ⊔ newest.view }

/-- A compare-exchange that succeeds: the newest value is the expected one. -/
def compareExchange (m : ViewMemory A L ι D) (t : ι) (o : MemoryOrder) (a : A)
    (expected desired : ℕ) : Option (ViewMemory A L ι D) :=
  (m.msgs a).getLast?.bind fun newest =>
    if newest.val = expected then some (m.update t o a newest desired)
    else none

/-- A read-modify-write that stores `f` of the newest value and returns that
value. -/
def modify (m : ViewMemory A L ι D) (t : ι) (o : MemoryOrder) (a : A)
    (f : ℕ → ℕ) : Option (ℕ × ViewMemory A L ι D) :=
  (m.msgs a).getLast?.map fun newest =>
    (newest.val, m.update t o a newest (f newest.val))

/-- An acquire fence after loads of the messages `heard`: the thread takes over
their views, whatever the order of the loads. -/
def acquireFence (m : ViewMemory A L ι D) (t : ι) (heard : List (A × ℕ)) :
    ViewMemory A L ι D :=
  heard.foldl (fun m h => ((m.msgs h.1)[h.2]?).elim m fun msg =>
    m.learn t msg.view) m

/-- A plain access of `t` that leaves `c` in `l`. -/
def access (m : ViewMemory A L ι D) (t : ι) (l : L) (c : Cell ι D) :
    ViewMemory A L ι D :=
  { m with
    cells := Function.update m.cells l c
    view := Function.update m.view t ((m.view t).tick t) }

/-- A plain write. -/
def write (m : ViewMemory A L ι D) (t : ι) (l : L) (d : D) :
    ViewMemory A L ι D :=
  m.access t l
    { m.cells l with data := d, wrote := some (t, (m.view t).past t + 1) }

/-- A plain read. -/
def read (m : ViewMemory A L ι D) (t : ι) (l : L) : ViewMemory A L ι D :=
  m.access t l
    { m.cells l with
      reads := Function.update (m.cells l).reads t ((m.view t).past t + 1) }

variable {m m' : ViewMemory A L ι D} {t u : ι} {o : MemoryOrder} {a b : A}
  {k v : ℕ} {l l' : L} {d : D} {w : View A ι}

omit [DecidableEq A] [DecidableEq L] in
@[simp] theorem learn_msgs : (m.learn t w).msgs = m.msgs := rfl

omit [DecidableEq A] [DecidableEq L] in
@[simp] theorem learn_cells : (m.learn t w).cells = m.cells := rfl

omit [DecidableEq A] [DecidableEq L] in
@[simp] theorem learn_view_self : (m.learn t w).view t = m.view t ⊔ w := by
  simp [learn]

omit [DecidableEq A] [DecidableEq L] in
theorem learn_view_of_ne (h : u ≠ t) : (m.learn t w).view u = m.view u := by
  simp [learn, h]

omit [DecidableEq A] [DecidableEq L] in
theorem le_learn : m.view u ≤ (m.learn t w).view u := by
  by_cases hu : u = t
  · subst hu
    rw [learn_view_self]
    exact View.le_sup_left
  · rw [learn_view_of_ne hu]
    exact View.le_refl _

omit [DecidableEq L] in
theorem load_eq_some_iff :
    m.load t o a k = some (v, m') ↔
      m.Admits t o a k ∧ ∃ msg, (m.msgs a)[k]? = some msg ∧ msg.val = v ∧
        m.learn t (told o a k msg) = m' := by
  rw [load]
  by_cases h : m.Admits t o a k
  · simp [h, Option.map_eq_some_iff]
  · simp [h]

omit [DecidableEq L] in
/-- Nobody forgets anything in a load. -/
theorem le_of_load (hload : m.load t o a k = some (v, m')) (u : ι) :
    m.view u ≤ m'.view u := by
  obtain ⟨-, msg, -, -, rfl⟩ := load_eq_some_iff.mp hload
  exact le_learn

omit [DecidableEq L] in
/-- A load changes nothing but the view of its thread. -/
theorem of_load (hload : m.load t o a k = some (v, m')) :
    m'.msgs = m.msgs ∧ m'.cells = m.cells ∧
      ∀ u, u ≠ t → m'.view u = m.view u := by
  obtain ⟨-, msg, -, -, rfl⟩ := load_eq_some_iff.mp hload
  exact ⟨rfl, rfl, fun u hu => learn_view_of_ne hu⟩

omit [DecidableEq L] in
/-- A load knows of the message it saw. -/
theorem le_seen_of_load (hload : m.load t o a k = some (v, m')) :
    k ≤ (m'.view t).seen a := by
  obtain ⟨-, msg, -, -, rfl⟩ := load_eq_some_iff.mp hload
  simp [told]

section Post

omit [DecidableEq L]

variable {msg : Msg A ι}

@[simp] theorem post_cells : (m.post t a msg).cells = m.cells := rfl

@[simp] theorem post_msgs_self :
    (m.post t a msg).msgs a = m.msgs a ++ [msg] := by
  simp [post]

theorem post_msgs_of_ne (h : b ≠ a) : (m.post t a msg).msgs b = m.msgs b := by
  simp [post, h]

@[simp] theorem post_view_self : (m.post t a msg).view t =
    m.view t ⊔ View.single a (m.msgs a).length := by
  simp [post]

theorem post_view_of_ne (h : u ≠ t) : (m.post t a msg).view u = m.view u := by
  simp [post, h]

@[simp] theorem store_cells : (m.store t o a v).cells = m.cells := rfl

@[simp] theorem store_msgs_self :
    (m.store t o a v).msgs a = m.msgs a ++ [m.message t o a v] :=
  post_msgs_self

theorem store_msgs_of_ne (h : b ≠ a) :
    (m.store t o a v).msgs b = m.msgs b :=
  post_msgs_of_ne h

@[simp] theorem store_view_self : (m.store t o a v).view t =
    m.view t ⊔ View.single a (m.msgs a).length :=
  post_view_self

theorem store_view_of_ne (h : u ≠ t) :
    (m.store t o a v).view u = m.view u :=
  post_view_of_ne h

@[simp] theorem update_cells : (m.update t o a msg v).cells = m.cells := rfl

theorem update_msgs_self (m : ViewMemory A L ι D) (t : ι) (o : MemoryOrder)
    (a : A) (msg : Msg A ι) (v : ℕ) :
    ∃ w, (m.update t o a msg v).msgs a =
      m.msgs a ++ [⟨v, w, o = .seqCst⟩] :=
  ⟨_, post_msgs_self⟩

theorem update_msgs_of_ne (h : b ≠ a) :
    (m.update t o a msg v).msgs b = m.msgs b :=
  post_msgs_of_ne h

theorem update_view_of_ne (h : u ≠ t) :
    (m.update t o a msg v).view u = m.view u :=
  (post_view_of_ne h).trans (learn_view_of_ne h)

/-- A read-modify-write adds no accesses but those it is told of. -/
theorem le_update : m.view u ≤ (m.update t o a msg v).view u := by
  by_cases hu : u = t
  · subst hu
    rw [update, post_view_self, learn_view_self]
    exact ⟨fun _ => (le_max_left _ _).trans (le_max_left _ _),
      fun _ => (le_max_left _ _).trans (le_max_left _ _)⟩
  · rw [update_view_of_ne hu]
    exact ⟨fun _ => le_rfl, fun _ => le_rfl⟩

theorem compareExchange_eq_some_iff {expected desired : ℕ} :
    m.compareExchange t o a expected desired = some m' ↔
      ∃ newest, (m.msgs a).getLast? = some newest ∧ newest.val = expected ∧
        m.update t o a newest desired = m' := by
  rw [compareExchange, Option.bind_eq_some_iff]
  constructor
  · rintro ⟨newest, hlast, hval⟩
    split_ifs at hval with heq
    exact ⟨newest, hlast, heq, Option.some.inj hval⟩
  · rintro ⟨newest, hlast, heq, rfl⟩
    exact ⟨newest, hlast, if_pos heq⟩

theorem modify_eq_some_iff {f : ℕ → ℕ} :
    m.modify t o a f = some (v, m') ↔
      ∃ newest, (m.msgs a).getLast? = some newest ∧ newest.val = v ∧
        m.update t o a newest (f v) = m' := by
  rw [modify, Option.map_eq_some_iff]
  constructor
  · rintro ⟨newest, hlast, heq⟩
    obtain ⟨rfl, rfl⟩ := Prod.mk.inj heq
    exact ⟨newest, hlast, rfl, rfl⟩
  · rintro ⟨newest, hlast, rfl, rfl⟩
    exact ⟨newest, hlast, rfl⟩

end Post

section Access

omit [DecidableEq A]

variable {c : Cell ι D}

@[simp] theorem access_msgs : (m.access t l c).msgs = m.msgs := rfl

@[simp] theorem access_cells_self : (m.access t l c).cells l = c := by
  simp [access]

theorem access_cells_of_ne (h : l' ≠ l) :
    (m.access t l c).cells l' = m.cells l' := by
  simp [access, h]

@[simp] theorem access_view_self :
    (m.access t l c).view t = (m.view t).tick t := by
  simp [access]

theorem access_view_of_ne (h : u ≠ t) :
    (m.access t l c).view u = m.view u := by
  simp [access, h]

@[simp] theorem access_seen :
    ((m.access t l c).view u).seen = (m.view u).seen := by
  by_cases h : u = t
  · subst h
    simp
  · rw [access_view_of_ne h]

theorem le_access_past (w : ι) :
    (m.view u).past w ≤ ((m.access t l c).view u).past w := by
  by_cases hu : u = t
  · subst hu
    by_cases hw : w = u
    · subst hw
      simp
    · simp [View.tick_past_of_ne _ hw]
  · rw [access_view_of_ne hu]

/-- Nobody forgets anything in an access. -/
theorem le_access : m.view u ≤ (m.access t l c).view u :=
  ⟨fun a => by rw [access_seen], fun w => le_access_past w⟩

@[simp] theorem write_msgs : (m.write t l d).msgs = m.msgs := rfl

@[simp] theorem write_cells_self : (m.write t l d).cells l =
    { m.cells l with data := d, wrote := some (t, (m.view t).past t + 1) } :=
  access_cells_self

theorem write_cells_of_ne (h : l' ≠ l) :
    (m.write t l d).cells l' = m.cells l' :=
  access_cells_of_ne h

@[simp] theorem write_view_self :
    (m.write t l d).view t = (m.view t).tick t :=
  access_view_self

theorem le_write : m.view u ≤ (m.write t l d).view u :=
  le_access

theorem write_view_of_ne (h : u ≠ t) : (m.write t l d).view u = m.view u :=
  access_view_of_ne h

@[simp] theorem read_msgs : (m.read t l).msgs = m.msgs := rfl

@[simp] theorem read_cells_self : (m.read t l).cells l =
    { m.cells l with
      reads := Function.update (m.cells l).reads t ((m.view t).past t + 1) } :=
  access_cells_self

theorem read_cells_of_ne (h : l' ≠ l) : (m.read t l).cells l' = m.cells l' :=
  access_cells_of_ne h

@[simp] theorem read_view_self : (m.read t l).view t = (m.view t).tick t :=
  access_view_self

theorem read_view_of_ne (h : u ≠ t) : (m.read t l).view u = m.view u :=
  access_view_of_ne h

end Access

section Covered

omit [DecidableEq A]

/-- Whoever knew of all accesses still does after its own. -/
theorem Covered.write (h : m.Covered l (m.view t)) (d : D) :
    (m.write t l d).Covered l ((m.write t l d).view t) := by
  rw [Covered, write_cells_self, write_view_self]
  refine ⟨by simp [View.Knows], fun u => (h.2 u).trans ?_⟩
  by_cases hu : u = t
  · subst hu
    simp
  · rw [View.tick_past_of_ne _ hu]

theorem Covered.read (h : m.Covered l (m.view t)) :
    (m.read t l).Covered l ((m.read t l).view t) := by
  have hle : m.view t ≤ (m.view t).tick t := by
    refine ⟨fun _ => le_rfl, fun u => ?_⟩
    by_cases hu : u = t
    · subst hu
      simp
    · rw [View.tick_past_of_ne _ hu]
  rw [Covered, read_cells_self, read_view_self]
  refine ⟨h.1.mono hle, fun u => ?_⟩
  by_cases hu : u = t
  · subst hu
    simp
  · simp only [Function.update_of_ne hu]
    exact (h.2 u).trans (hle.2 u)

end Covered

/-! ## Nobody knows more than there is -/

/-- All messages and all plain accesses so far. -/
def limit (m : ViewMemory A L ι D) : View A ι where
  seen a := (m.msgs a).length - 1
  past t := (m.view t).past t

/-- Views, messages and plain locations speak of what there is. -/
structure WellFormed (m : ViewMemory A L ι D) : Prop where
  msgs_ne : ∀ a, m.msgs a ≠ []
  view_le : ∀ t, m.view t ≤ m.limit
  msg_le : ∀ a, ∀ msg ∈ m.msgs a, msg.view ≤ m.limit
  wrote_le : ∀ l, m.limit.Knows (m.cells l).wrote
  reads_le : ∀ l t, (m.cells l).reads t ≤ (m.view t).past t

omit [DecidableEq A] [DecidableEq L] [DecidableEq ι] in
theorem wellFormed_init {vals : A → ℕ} {data : L → D} :
    (init vals data : ViewMemory A L ι D).WellFormed where
  msgs_ne _ := List.cons_ne_nil _ _
  view_le _ := View.bot_le _
  msg_le := by
    intro a msg hmsg
    obtain rfl := List.mem_singleton.mp hmsg
    exact View.bot_le _
  wrote_le _ := trivial
  reads_le _ _ := Nat.zero_le _

omit [DecidableEq A] [DecidableEq L] in
/-- A thread that learns what is so teaches nobody more. -/
theorem WellFormed.learn (h : m.WellFormed) (hw : w ≤ m.limit) :
    (m.learn t w).WellFormed := by
  have hlimit : (m.learn t w).limit = m.limit := by
    ext u
    · rfl
    · by_cases hu : u = t
      · subst hu
        have := hw.2 u
        simp only [limit, learn_view_self, View.sup_past] at this ⊢
        omega
      · simp [limit, learn_view_of_ne hu]
  refine ⟨h.msgs_ne, fun u => ?_, ?_, ?_, fun l u => ?_⟩
  · rw [hlimit]
    by_cases hu : u = t
    · subst hu
      rw [learn_view_self]
      exact View.sup_le (h.view_le u) hw
    · rw [learn_view_of_ne hu]
      exact h.view_le u
  · rw [hlimit]
    exact h.msg_le
  · rw [hlimit]
    exact h.wrote_le
  · have hpast : ((m.learn t w).view u).past u = (m.view u).past u :=
      congrArg (fun v => v.past u) hlimit
    rw [hpast]
    exact h.reads_le l u

omit [DecidableEq L] in
theorem WellFormed.load (h : m.WellFormed)
    (hload : m.load t o a k = some (v, m')) : m'.WellFormed := by
  obtain ⟨-, msg, hmsg, -, rfl⟩ := load_eq_some_iff.mp hload
  apply h.learn
  apply View.sup_le
  · apply View.single_le
    have := (List.getElem?_eq_some_iff.mp hmsg).1
    simp only [limit]
    omega
  · split_ifs
    · exact h.msg_le a msg (List.mem_of_getElem? hmsg)
    · exact View.bot_le _

omit [DecidableEq L] in
/-- A message may tell of what there is and of itself. -/
theorem WellFormed.post (h : m.WellFormed) {msg : Msg A ι}
    (hmsg : msg.view ≤ m.limit ⊔ View.single a (m.msgs a).length) :
    (m.post t a msg).WellFormed := by
  have hseen : ((m.post t a msg).limit).seen a = (m.msgs a).length := by
    simp [limit]
  have hpast : ∀ u, ((m.post t a msg).view u).past u = (m.view u).past u := by
    intro u
    by_cases hu : u = t
    · subst hu
      simp
    · rw [post_view_of_ne hu]
  have hle : m.limit ≤ (m.post t a msg).limit := by
    refine ⟨fun b => ?_, fun u => (hpast u).ge⟩
    by_cases hb : b = a
    · subst hb
      rw [hseen]
      exact Nat.sub_le _ _
    · simp [limit, post_msgs_of_ne hb]
  have hsingle : (View.single a (m.msgs a).length : View A ι) ≤
      (m.post t a msg).limit := View.single_le hseen.ge
  refine ⟨fun b => ?_, fun u => ?_, fun b msg' hmsg' => ?_, ?_, fun l u => ?_⟩
  · by_cases hb : b = a
    · subst hb
      simp
    · rw [post_msgs_of_ne hb]
      exact h.msgs_ne b
  · by_cases hu : u = t
    · subst hu
      rw [post_view_self]
      exact View.sup_le (View.le_trans (h.view_le u) hle) hsingle
    · rw [post_view_of_ne hu]
      exact View.le_trans (h.view_le u) hle
  · by_cases hb : b = a
    · subst hb
      rw [post_msgs_self] at hmsg'
      rcases List.mem_append.mp hmsg' with hmsg' | hmsg'
      · exact View.le_trans (h.msg_le b msg' hmsg') hle
      · obtain rfl := List.mem_singleton.mp hmsg'
        exact View.le_trans hmsg (View.sup_le hle hsingle)
    · rw [post_msgs_of_ne hb] at hmsg'
      exact View.le_trans (h.msg_le b msg' hmsg') hle
  · exact fun l => View.Knows.mono (h.wrote_le l) hle
  · rw [hpast]
    exact h.reads_le l u

omit [DecidableEq L] [DecidableEq ι] in
/-- A thread passes on what it knows. -/
theorem WellFormed.message_le (h : m.WellFormed) :
    (m.message t o a v).view ≤
      m.limit ⊔ View.single a (m.msgs a).length := by
  apply View.sup_le View.le_sup_right
  split_ifs
  · exact View.le_trans (h.view_le t) View.le_sup_left
  · exact View.bot_le _

omit [DecidableEq L] in
theorem WellFormed.store (h : m.WellFormed) :
    (m.store t o a v).WellFormed :=
  h.post h.message_le

omit [DecidableEq L] in
theorem WellFormed.update (h : m.WellFormed) {newest : Msg A ι}
    (hnewest : newest ∈ m.msgs a) : (m.update t o a newest v).WellFormed := by
  have htold : told o a ((m.msgs a).length - 1) newest ≤ m.limit := by
    refine View.sup_le (View.single_le ?_) ?_
    · exact le_rfl
    · split_ifs
      · exact h.msg_le a newest hnewest
      · exact View.bot_le _
  have hlearn := h.learn (t := t) htold
  exact hlearn.post (View.sup_le hlearn.message_le
    (View.le_trans (hlearn.msg_le a newest hnewest) View.le_sup_left))

/-- A load or a fence of `t` at most adds to what it knows. -/
structure Learned (m m' : ViewMemory A L ι D) (t : ι) : Prop where
  wf : m.WellFormed → m'.WellFormed
  msgs : m'.msgs = m.msgs
  cells : m'.cells = m.cells
  view_le : ∀ u, m.view u ≤ m'.view u
  view_of_ne : ∀ u, u ≠ t → m'.view u = m.view u

omit [DecidableEq A] [DecidableEq L] [DecidableEq ι] in
theorem learned_refl (m : ViewMemory A L ι D) (t : ι) : m.Learned m t :=
  ⟨id, rfl, rfl, fun _ => View.le_refl _, fun _ _ => rfl⟩

omit [DecidableEq A] [DecidableEq L] in
theorem learned_acquireFence (m : ViewMemory A L ι D) (t : ι)
    (heard : List (A × ℕ)) : m.Learned (m.acquireFence t heard) t := by
  induction heard generalizing m with
  | nil => exact learned_refl m t
  | cons h heard ih =>
      cases hmsg : (m.msgs h.1)[h.2]? with
      | none =>
          have hskip : m.acquireFence t (h :: heard) = m.acquireFence t heard := by
            rw [acquireFence, List.foldl_cons, hmsg]
            rfl
          exact hskip ▸ ih m
      | some msg =>
          have hlearn : m.acquireFence t (h :: heard) =
              (m.learn t msg.view).acquireFence t heard := by
            rw [acquireFence, List.foldl_cons, hmsg]
            rfl
          rw [hlearn]
          obtain ⟨hwf, hmsgs, hcells, hle, hne⟩ := ih (m.learn t msg.view)
          refine ⟨fun h => hwf (h.learn ?_), hmsgs, hcells,
            fun u => View.le_trans le_learn (hle u),
            fun u hu => (hne u hu).trans (learn_view_of_ne hu)⟩
          exact h.msg_le _ msg (List.mem_of_getElem? hmsg)

omit [DecidableEq L] in
theorem learned_of_load (hload : m.load t o a k = some (v, m')) :
    m.Learned m' t where
  wf h := h.load hload
  msgs := (of_load hload).1
  cells := (of_load hload).2.1
  view_le := le_of_load hload
  view_of_ne := (of_load hload).2.2

section Access

omit [DecidableEq A]

/-- A plain access adds one to what there is. -/
theorem limit_le_access {c : Cell ι D} : m.limit ≤ (m.access t l c).limit :=
  ⟨fun _ => le_rfl, fun u => le_access_past u⟩

theorem WellFormed.access (h : m.WellFormed) {c : Cell ι D}
    (hwrote : (m.access t l c).limit.Knows c.wrote)
    (hreads : ∀ u, c.reads u ≤ ((m.access t l c).view u).past u) :
    (m.access t l c).WellFormed := by
  refine ⟨h.msgs_ne, fun u => ?_, fun b msg hmsg => ?_, fun l' => ?_,
    fun l' u => ?_⟩
  · refine ⟨fun a => ?_, fun w => ?_⟩
    · rw [access_seen]
      exact (h.view_le u).1 a
    · by_cases hu : u = t
      · subst hu
        by_cases hw : w = u
        · subst hw
          exact le_rfl
        · rw [access_view_self, View.tick_past_of_ne _ hw]
          exact le_trans ((h.view_le u).2 w) (limit_le_access.2 w)
      · rw [access_view_of_ne hu]
        exact le_trans ((h.view_le u).2 w) (limit_le_access.2 w)
  · exact View.le_trans (h.msg_le b msg hmsg) limit_le_access
  · by_cases hl : l' = l
    · subst hl
      rwa [access_cells_self]
    · rw [access_cells_of_ne hl]
      exact View.Knows.mono (h.wrote_le l') limit_le_access
  · by_cases hl : l' = l
    · subst hl
      rw [access_cells_self]
      exact hreads u
    · rw [access_cells_of_ne hl]
      exact le_trans (h.reads_le l' u) (le_access_past u)

theorem WellFormed.write (h : m.WellFormed) : (m.write t l d).WellFormed := by
  apply h.access
  · simp [View.Knows, limit]
  · exact fun u => le_trans (h.reads_le l u) (le_access_past u)

theorem WellFormed.read (h : m.WellFormed) : (m.read t l).WellFormed := by
  apply h.access
  · exact View.Knows.mono (h.wrote_le l) limit_le_access
  · intro u
    by_cases hu : u = t
    · subst hu
      simp
    · simp only [Function.update_of_ne hu]
      exact le_trans (h.reads_le l u) (le_access_past u)

end Access

/-! ## Passing messages -/

/-- The messages of `a` tell whoever acquires them of the first `f k` plain
accesses of `t`. -/
def Passes (m : ViewMemory A L ι D) (a : A) (t : ι) (f : ℕ → ℕ) : Prop :=
  ∀ k msg, (m.msgs a)[k]? = some msg → f k ≤ msg.view.past t

omit [DecidableEq A] [DecidableEq L] [DecidableEq ι] in
theorem passes_init {vals : A → ℕ} {data : L → D} {f : ℕ → ℕ} (hf : f 0 = 0) :
    (init vals data : ViewMemory A L ι D).Passes a t f := by
  intro k msg hk
  obtain rfl : k = 0 := by
    by_contra hne
    rw [init, List.getElem?_eq_none (by simp; omega)] at hk
    cases hk
  rw [hf]
  exact Nat.zero_le _

omit [DecidableEq L] in
/-- A release store by a thread that knows of the accesses passes them on. -/
theorem Passes.store {f : ℕ → ℕ} (h : m.Passes a t f) (ho : o.releases)
    (hf : f (m.msgs a).length ≤ (m.view u).past t) :
    (m.store u o a v).Passes a t f := by
  intro k msg hk
  rw [store_msgs_self] at hk
  rcases lt_trichotomy k (m.msgs a).length with hlt | rfl | hgt
  · rw [List.getElem?_append_left hlt] at hk
    exact h k msg hk
  · rw [List.getElem?_append_right le_rfl, Nat.sub_self] at hk
    obtain rfl := Option.some.inj hk
    simpa [message, ho] using hf
  · rw [List.getElem?_eq_none (by simp; omega)] at hk
    cases hk

omit [DecidableEq L] in
/-- Whoever acquires a message knows of the accesses it passes on. -/
theorem Passes.load {f : ℕ → ℕ} (h : m.Passes a t f) (ho : o.acquires)
    (hload : m.load u o a k = some (v, m')) : f k ≤ (m'.view u).past t := by
  obtain ⟨-, msg, hmsg, -, rfl⟩ := load_eq_some_iff.mp hload
  have := h k msg hmsg
  simp only [learn_view_self, told, ho, if_true, View.sup_past]
  omega

omit [DecidableEq L] in
theorem view_le_of_load (ho : o.acquires)
    (hload : m.load t o a k = some (v, m')) :
    ∃ msg ∈ m.msgs a, msg.val = v ∧ msg.view ≤ m'.view t := by
  obtain ⟨-, msg, hmsg, hval, rfl⟩ := load_eq_some_iff.mp hload
  refine ⟨msg, List.mem_of_getElem? hmsg, hval, ?_⟩
  rw [learn_view_self, told, if_pos ho]
  exact View.le_trans View.le_sup_right View.le_sup_right

omit [DecidableEq L] [DecidableEq ι] in
theorem le_message (ho : o.releases) :
    m.view t ≤ (m.message t o a v).view := by
  rw [message, if_pos ho]
  exact View.le_sup_right

omit [DecidableEq L] in
/-- A read-modify-write passes on what the message before told, and what its
thread knows if it releases. -/
theorem told_of_modify {f : ℕ → ℕ} (h : m.modify t o a f = some (v, m')) :
    ∃ old msg, (m.msgs a).getLast? = some old ∧ old.val = v ∧
      m'.msgs a = m.msgs a ++ [msg] ∧ msg.val = f v ∧ old.view ≤ msg.view ∧
      (o.releases → m.view t ≤ msg.view) ∧
      (o.acquires → old.view ≤ m'.view t) := by
  obtain ⟨old, hlast, hval, rfl⟩ := modify_eq_some_iff.mp h
  refine ⟨old, _, hlast, hval, post_msgs_self, rfl, View.le_sup_right,
    fun ho => ?_, fun ho => ?_⟩
  · exact View.le_trans le_learn (View.le_trans (le_message ho) View.le_sup_left)
  · rw [update, post_view_self, learn_view_self, told, if_pos ho]
    exact View.le_trans View.le_sup_right
      (View.le_trans View.le_sup_right View.le_sup_left)

/-! ## Keeping silent -/

/-- No other thread knows of more than the first `n` plain accesses of `t`, and
only messages of the atomics in `loud` could tell them. -/
structure Unheard (m : ViewMemory A L ι D) (loud : A → Prop) (t : ι) (n : ℕ) :
    Prop where
  views : ∀ u, u ≠ t → (m.view u).past t ≤ n
  msgs : ∀ b, ¬loud b → ∀ msg ∈ m.msgs b, msg.view.past t ≤ n

section Unheard

variable {loud : A → Prop} {n : ℕ}

omit [DecidableEq A] [DecidableEq L] [DecidableEq ι] in
theorem unheard_init {vals : A → ℕ} {data : L → D} :
    (init vals data : ViewMemory A L ι D).Unheard loud t n where
  views _ _ := Nat.zero_le n
  msgs _ _ msg hmsg := by
    obtain rfl := List.mem_singleton.mp hmsg
    exact Nat.zero_le n

omit [DecidableEq A] [DecidableEq L] in
/-- The other threads are not told more. -/
theorem Unheard.learn (h : m.Unheard loud t n)
    (hw : u ≠ t → w.past t ≤ n) : (m.learn u w).Unheard loud t n := by
  refine ⟨fun x hx => ?_, h.msgs⟩
  by_cases hxu : x = u
  · subst hxu
    rw [learn_view_self, View.sup_past]
    exact max_le (h.views x hx) (hw hx)
  · rw [learn_view_of_ne hxu]
    exact h.views x hx

omit [DecidableEq L] [DecidableEq ι] in
/-- The other threads do not acquire what is loud. -/
theorem Unheard.told (h : m.Unheard loud t n) {msg : Msg A ι}
    (hmsg : msg ∈ m.msgs b) (hdeaf : u ≠ t → loud b → o.acquires = false)
    (hu : u ≠ t) : (told o b k msg).past t ≤ n := by
  rw [ViewMemory.told, View.sup_past, View.single_past]
  refine max_le (Nat.zero_le n) ?_
  by_cases hb : loud b
  · simp [hdeaf hu hb]
  · split_ifs
    · exact h.msgs b hb msg hmsg
    · exact Nat.zero_le n

omit [DecidableEq L] in
theorem Unheard.load (h : m.Unheard loud t n)
    (hdeaf : u ≠ t → loud b → o.acquires = false)
    (hload : m.load u o b k = some (v, m')) : m'.Unheard loud t n := by
  obtain ⟨-, msg, hmsg, -, rfl⟩ := load_eq_some_iff.mp hload
  exact h.learn (h.told (List.mem_of_getElem? hmsg) hdeaf)

omit [DecidableEq L] in
/-- A new message that says no more or is loud. -/
theorem Unheard.post (h : m.Unheard loud t n) {msg : Msg A ι}
    (hmsg : ¬loud b → msg.view.past t ≤ n) :
    (m.post u b msg).Unheard loud t n := by
  refine ⟨fun x hx => ?_, fun c hc msg' hmem => ?_⟩
  · by_cases hxu : x = u
    · subst hxu
      simpa using h.views x hx
    · rw [post_view_of_ne hxu]
      exact h.views x hx
  · by_cases hcb : c = b
    · subst hcb
      rw [post_msgs_self] at hmem
      rcases List.mem_append.mp hmem with hmem | hmem
      · exact h.msgs c hc msg' hmem
      · obtain rfl := List.mem_singleton.mp hmem
        exact hmsg hc
    · rw [post_msgs_of_ne hcb] at hmem
      exact h.msgs c hc msg' hmem

omit [DecidableEq L] [DecidableEq ι] in
theorem Unheard.message (h : m.Unheard loud t n)
    (hown : u = t → o.releases → loud b) (hb : ¬loud b) :
    (m.message u o b v).view.past t ≤ n := by
  rw [ViewMemory.message]
  split_ifs with ho
  · have hu : u ≠ t := fun hu => hb (hown hu ho)
    simpa using h.views u hu
  · simp

omit [DecidableEq L] in
/-- The thread itself releases nothing but what is loud. -/
theorem Unheard.store (h : m.Unheard loud t n)
    (hown : u = t → o.releases → loud b) :
    (m.store u o b v).Unheard loud t n :=
  h.post (h.message hown)

omit [DecidableEq L] in
theorem Unheard.update (h : m.Unheard loud t n) {newest : Msg A ι}
    (hnewest : newest ∈ m.msgs b)
    (hdeaf : u ≠ t → loud b → o.acquires = false)
    (hown : u = t → o.releases → loud b) :
    (m.update u o b newest v).Unheard loud t n := by
  have hlearn := h.learn (h.told (k := (m.msgs b).length - 1) hnewest hdeaf)
  refine hlearn.post fun hb => ?_
  rw [View.sup_past]
  exact max_le (hlearn.message hown hb) (h.msgs b hb newest hnewest)

omit [DecidableEq A] in
/-- A plain access tells nobody. -/
theorem Unheard.access (h : m.Unheard loud t n) {c : Cell ι D} :
    (m.access u l c).Unheard loud t n := by
  refine ⟨fun x hx => ?_, h.msgs⟩
  by_cases hxu : x = u
  · subst hxu
    rw [access_view_self, View.tick_past_of_ne _ hx.symm]
    exact h.views x hx
  · rw [access_view_of_ne hxu]
    exact h.views x hx

end Unheard

/-! ## Loading the newest message -/

omit [DecidableEq A] [DecidableEq L] [DecidableEq ι] in
/-- The newest message may be loaded by everyone, in any order. -/
theorem WellFormed.admits_newest (h : m.WellFormed) (t : ι) (o : MemoryOrder)
    (a : A) : m.Admits t o a ((m.msgs a).length - 1) := by
  refine ⟨(h.view_le t).1 a, fun _ msg hmsg => ?_⟩
  rw [List.drop_eq_nil_of_le (by omega)] at hmsg
  cases hmsg

omit [DecidableEq A] [DecidableEq L] [DecidableEq ι] in
theorem WellFormed.exists_newest (h : m.WellFormed) (a : A) :
    ∃ msg, (m.msgs a)[(m.msgs a).length - 1]? = some msg := by
  have hlen := List.length_pos_iff.mpr (h.msgs_ne a)
  exact ⟨_, List.getElem?_eq_getElem (by omega)⟩

omit [DecidableEq L] in
theorem Admits.exists_load (h : m.Admits t o a k)
    (hlt : k < (m.msgs a).length) : ∃ v m', m.load t o a k = some (v, m') :=
  ⟨_, _, load_eq_some_iff.mpr
    ⟨h, _, List.getElem?_eq_getElem hlt, rfl, rfl⟩⟩

omit [DecidableEq L] in
theorem WellFormed.exists_load (h : m.WellFormed) (t : ι) (o : MemoryOrder)
    (a : A) : ∃ v m', m.load t o a ((m.msgs a).length - 1) = some (v, m') := by
  have hlen := List.length_pos_iff.mpr (h.msgs_ne a)
  exact (h.admits_newest t o a).exists_load (by omega)

omit [DecidableEq L] in
theorem WellFormed.load_newest (h : m.WellFormed) (t : ι) (o : MemoryOrder)
    {msg : Msg A ι} (hmsg : (m.msgs a).getLast? = some msg) :
    ∃ k m', m.load t o a k = some (msg.val, m') :=
  ⟨_, _, load_eq_some_iff.mpr ⟨h.admits_newest t o a, msg,
    List.getLast?_eq_getElem? ▸ hmsg, rfl, rfl⟩⟩

/-! ## The newest value -/

/-- The value a read-modify-write of `a` finds. -/
def newest (m : ViewMemory A L ι D) (a : A) : Option ℕ :=
  (m.msgs a).getLast?.map Msg.val

omit [DecidableEq A] [DecidableEq L] [DecidableEq ι] in
theorem newest_eq_some_iff : m.newest a = some v ↔
    ∃ msg, (m.msgs a).getLast? = some msg ∧ msg.val = v :=
  Option.map_eq_some_iff

omit [DecidableEq A] [DecidableEq L] [DecidableEq ι] in
theorem newest_congr (h : m'.msgs a = m.msgs a) : m'.newest a = m.newest a :=
  congrArg (fun msgs => msgs.getLast?.map Msg.val) h

omit [DecidableEq A] [DecidableEq L] [DecidableEq ι] in
theorem newest_init {vals : A → ℕ} {data : L → D} :
    (init vals data : ViewMemory A L ι D).newest a = some (vals a) := rfl

omit [DecidableEq L] in
theorem newest_of_load (hload : m.load t o a k = some (v, m')) :
    m'.newest b = m.newest b :=
  newest_congr (by rw [(of_load hload).1])

omit [DecidableEq L] in
@[simp] theorem newest_store_self : (m.store t o a v).newest a = some v := by
  simp [newest, message]

omit [DecidableEq L] in
theorem newest_store_of_ne (h : b ≠ a) :
    (m.store t o a v).newest b = m.newest b :=
  newest_congr (store_msgs_of_ne h)

omit [DecidableEq L] in
@[simp] theorem newest_update_self {msg : Msg A ι} :
    (m.update t o a msg v).newest a = some v := by
  obtain ⟨w, hmsgs⟩ := update_msgs_self m t o a msg v
  rw [newest, hmsgs, List.getLast?_concat]
  rfl

omit [DecidableEq L] in
theorem newest_update_of_ne {msg : Msg A ι} (h : b ≠ a) :
    (m.update t o a msg v).newest b = m.newest b :=
  newest_congr (update_msgs_of_ne h)

omit [DecidableEq L] in
theorem newest_of_compareExchange {expected desired : ℕ}
    (h : m.compareExchange t o a expected desired = some m') :
    m.newest a = some expected ∧ m'.newest a = some desired ∧
      ∀ b, b ≠ a → m'.newest b = m.newest b := by
  obtain ⟨msg, hlast, hval, rfl⟩ := compareExchange_eq_some_iff.mp h
  exact ⟨newest_eq_some_iff.mpr ⟨msg, hlast, hval⟩, newest_update_self,
    fun _ hb => newest_update_of_ne hb⟩

omit [DecidableEq L] in
theorem newest_of_modify {f : ℕ → ℕ} (h : m.modify t o a f = some (v, m')) :
    m.newest a = some v ∧ m'.newest a = some (f v) ∧
      ∀ b, b ≠ a → m'.newest b = m.newest b := by
  obtain ⟨msg, hlast, hval, rfl⟩ := modify_eq_some_iff.mp h
  exact ⟨newest_eq_some_iff.mpr ⟨msg, hlast, hval⟩, newest_update_self,
    fun _ hb => newest_update_of_ne hb⟩

/-- What a store and a read-modify-write of `t` that leave `v` in `a` have in
common. -/
structure Wrote (m m' : ViewMemory A L ι D) (t : ι) (a : A) (v : ℕ) : Prop where
  wf : m.WellFormed → m'.WellFormed
  msgs : ∃ msg : Msg A ι, msg.val = v ∧ m'.msgs a = m.msgs a ++ [msg]
  msgs_of_ne : ∀ b, b ≠ a → m'.msgs b = m.msgs b
  cells : m'.cells = m.cells
  view_le : ∀ u, m.view u ≤ m'.view u
  view_of_ne : ∀ u, u ≠ t → m'.view u = m.view u
  seen : (m.msgs a).length ≤ (m'.view t).seen a

omit [DecidableEq L] in
theorem le_post {msg : Msg A ι} : m.view u ≤ (m.post t a msg).view u := by
  by_cases hu : u = t
  · subst hu
    rw [post_view_self]
    exact View.le_sup_left
  · rw [post_view_of_ne hu]
    exact ⟨fun _ => le_rfl, fun _ => le_rfl⟩

omit [DecidableEq L] in
theorem wrote_store : m.Wrote (m.store t o a v) t a v where
  wf h := h.store
  msgs := ⟨_, rfl, store_msgs_self⟩
  msgs_of_ne _ hb := store_msgs_of_ne hb
  cells := rfl
  view_le _ := le_post
  view_of_ne _ hu := store_view_of_ne hu
  seen := by simp

omit [DecidableEq L] in
theorem wrote_update {msg : Msg A ι} (hmsg : msg ∈ m.msgs a) :
    m.Wrote (m.update t o a msg v) t a v where
  wf h := h.update hmsg
  msgs := by
    obtain ⟨w, hmsgs⟩ := update_msgs_self m t o a msg v
    exact ⟨_, rfl, hmsgs⟩
  msgs_of_ne _ hb := update_msgs_of_ne hb
  cells := rfl
  view_le _ := le_update
  view_of_ne _ hu := update_view_of_ne hu
  seen := by simp [update]

omit [DecidableEq L] in
theorem wrote_of_compareExchange {expected desired : ℕ}
    (h : m.compareExchange t o a expected desired = some m') :
    m.Wrote m' t a desired := by
  obtain ⟨msg, hlast, -, rfl⟩ := compareExchange_eq_some_iff.mp h
  exact wrote_update (List.mem_of_getLast? hlast)

omit [DecidableEq L] in
theorem wrote_of_modify {f : ℕ → ℕ} (h : m.modify t o a f = some (v, m')) :
    m.Wrote m' t a (f v) := by
  obtain ⟨msg, hlast, -, rfl⟩ := modify_eq_some_iff.mp h
  exact wrote_update (List.mem_of_getLast? hlast)

namespace Wrote

variable (h : m.Wrote m' t a v)

include h

omit [DecidableEq A] [DecidableEq L] [DecidableEq ι] in
theorem newest_self : m'.newest a = some v := by
  obtain ⟨msg, rfl, hmsgs⟩ := h.msgs
  rw [newest, hmsgs, List.getLast?_concat]
  rfl

omit [DecidableEq A] [DecidableEq L] [DecidableEq ι] in
theorem newest_of_ne (hb : b ≠ a) : m'.newest b = m.newest b :=
  newest_congr (h.msgs_of_ne b hb)

omit [DecidableEq A] [DecidableEq L] [DecidableEq ι] in
theorem vals : (m'.msgs a).map Msg.val = (m.msgs a).map Msg.val ++ [v] := by
  obtain ⟨msg, rfl, hmsgs⟩ := h.msgs
  rw [hmsgs, List.map_append, List.map_singleton]

end Wrote

/-! ## Atomics with one writer -/

/-- `t` knows whatever the messages of `a` tell. -/
def Remembers (m : ViewMemory A L ι D) (a : A) (t : ι) : Prop :=
  (m.msgs a).length - 1 ≤ (m.view t).seen a ∧
    ∀ msg ∈ m.msgs a, msg.view ≤ m.view t

omit [DecidableEq A] [DecidableEq L] [DecidableEq ι] in
theorem remembers_init {vals : A → ℕ} {data : L → D} :
    (init vals data : ViewMemory A L ι D).Remembers a t := by
  refine ⟨le_rfl, fun msg hmsg => ?_⟩
  obtain rfl := List.mem_singleton.mp hmsg
  exact View.bot_le _

omit [DecidableEq L] in
theorem Remembers.load (h : m.Remembers a t)
    (hload : m.load u o b k = some (v, m')) : m'.Remembers a t := by
  have hle := le_of_load hload t
  obtain ⟨-, msg, -, -, rfl⟩ := load_eq_some_iff.mp hload
  exact ⟨h.1.trans (hle.1 a), fun msg hmsg => View.le_trans (h.2 msg hmsg) hle⟩

omit [DecidableEq A] in
theorem Remembers.access (h : m.Remembers a t) {c : Cell ι D} :
    (m.access u l c).Remembers a t := by
  refine ⟨?_, fun msg hmsg => View.le_trans (h.2 msg hmsg)
    ⟨fun b => ?_, fun w => le_access_past w⟩⟩
  · rw [access_seen]
    exact h.1
  · rw [access_seen]

omit [DecidableEq L] in
/-- Only `t` stores to `a`. -/
theorem Remembers.store (h : m.Remembers a t) (hown : b = a → u = t) :
    (m.store u o b v).Remembers a t := by
  have hle : m.view t ≤ (m.store u o b v).view t := by
    by_cases hu : t = u
    · subst hu
      rw [store_view_self]
      exact ⟨fun _ => le_max_left _ _, fun _ => le_max_left _ _⟩
    · rw [store_view_of_ne hu]
      exact ⟨fun _ => le_rfl, fun _ => le_rfl⟩
  by_cases hb : a = b
  · subst hb
    obtain rfl := hown rfl
    refine ⟨by simp, fun msg hmsg => ?_⟩
    rw [store_msgs_self] at hmsg
    rcases List.mem_append.mp hmsg with hmsg | hmsg
    · exact View.le_trans (h.2 msg hmsg) hle
    · obtain rfl := List.mem_singleton.mp hmsg
      apply View.sup_le (View.single_le (by simp))
      split_ifs
      · exact hle
      · exact View.bot_le _
  · rw [Remembers, store_msgs_of_ne hb]
    exact ⟨h.1.trans (hle.1 a), fun msg hmsg =>
      View.le_trans (h.2 msg hmsg) hle⟩

omit [DecidableEq A] [DecidableEq L] in
/-- Learning what is known changes nothing. -/
theorem learn_of_le (h : w ≤ m.view t) : m.learn t w = m := by
  have hsup : m.view t ⊔ w = m.view t := by
    ext
    · exact max_eq_left (h.1 _)
    · exact max_eq_left (h.2 _)
  rw [learn, hsup, Function.update_eq_self]

omit [DecidableEq L] in
/-- The only writer may load the newest message and learns nothing. -/
theorem Remembers.load_own (h : m.Remembers a t) (hwf : m.WellFormed)
    (o : MemoryOrder) :
    ∃ v, m.load t o a ((m.msgs a).length - 1) = some (v, m) := by
  obtain ⟨msg, hmsg⟩ := hwf.exists_newest a
  refine ⟨msg.val, load_eq_some_iff.mpr
    ⟨hwf.admits_newest t o a, msg, hmsg, rfl, learn_of_le ?_⟩⟩
  apply View.sup_le (View.single_le h.1)
  split_ifs
  · exact h.2 msg (List.mem_of_getElem? hmsg)
  · exact View.bot_le _

/-! ## Which messages are sequentially consistent -/

/-- All stores to `a` since the initialization were made with the order `o`. -/
def StoredWith (m : ViewMemory A L ι D) (a : A) (o : MemoryOrder) : Prop :=
  ∀ k msg, (m.msgs a)[k + 1]? = some msg → msg.seqCst = decide (o = .seqCst)

omit [DecidableEq A] [DecidableEq L] [DecidableEq ι] in
theorem storedWith_init {vals : A → ℕ} {data : L → D} :
    (init vals data : ViewMemory A L ι D).StoredWith a o := by
  intro k msg hk
  cases hk

omit [DecidableEq L] in
theorem StoredWith.store {o' : MemoryOrder} (h : m.StoredWith a o)
    (ho : b = a → o' = o) :
    (m.store u o' b v).StoredWith a o := by
  intro k msg hk
  by_cases hb : a = b
  · subst hb
    obtain rfl := ho rfl
    rw [store_msgs_self] at hk
    rcases lt_trichotomy (k + 1) (m.msgs a).length with hlt | heq | hgt
    · rw [List.getElem?_append_left hlt] at hk
      exact h k msg hk
    · rw [heq, List.getElem?_append_right le_rfl, Nat.sub_self] at hk
      obtain rfl := Option.some.inj hk
      rfl
    · rw [List.getElem?_eq_none (by simp; omega)] at hk
      cases hk
  · rw [store_msgs_of_ne hb] at hk
    exact h k msg hk

omit [DecidableEq L] in
/-- Between sequentially consistent stores and loads the newest message is
loaded. -/
theorem StoredWith.newest (h : m.StoredWith a .seqCst)
    (hload : m.load t .seqCst a k = some (v, m')) :
    k = (m.msgs a).length - 1 := by
  obtain ⟨⟨-, hskip⟩, msg, hmsg, -, -⟩ := load_eq_some_iff.mp hload
  have hlt := (List.getElem?_eq_some_iff.mp hmsg).1
  by_contra hne
  have hget := List.getElem?_eq_getElem (l := m.msgs a) (i := k + 1) (by omega)
  have hmem : (m.msgs a)[k + 1] ∈ (m.msgs a).drop (k + 1) := by
    rw [List.drop_eq_getElem_cons (by omega)]
    exact List.mem_cons_self
  have hfalse := hskip rfl _ hmem
  rw [h k _ hget] at hfalse
  simp at hfalse

omit [DecidableEq A] [DecidableEq L] [DecidableEq ι] in
/-- Without them a thread that knows of no store may load the initial
value. -/
theorem StoredWith.admits_oldest (h : m.StoredWith a o) (o' : MemoryOrder)
    (hseen : (m.view t).seen a = 0) (ho : ¬(o' = .seqCst ∧ o = .seqCst)) :
    m.Admits t o' a 0 := by
  refine ⟨hseen.le, fun ho' msg hmsg => ?_⟩
  obtain ⟨i, hi⟩ := List.mem_iff_getElem?.mp hmsg
  rw [List.getElem?_drop, Nat.zero_add, Nat.add_comm] at hi
  rw [h i msg hi]
  exact decide_eq_false fun heq => ho ⟨ho', heq⟩

end ViewMemory
end ConcurrentQueues
