import ConcurrentQueues.Spsc.Calls
import ConcurrentQueues.Support.Counters

/-!
# `alpha::spsc::empty()`

`empty()` compares `head_` with `tail_` and loads the two one after the other,
in an order that the language leaves open.  It may be called by the producer
and by the consumer, between their other calls, and by any other thread.

The two loads see the ring at two moments, so an answer is compared with the
ring at all moments of the call.  The producer keeps `tail_` during a call of
its own and the consumer keeps `head_`.  A thread that moves neither index and
loads `tail_` first can be told that the ring is empty when it never was: an
item pushed and an item popped between the two loads bring `head_` to the old
value of `tail_`.
-/

namespace ConcurrentQueues

universe u v

namespace Spsc

open Fifo

variable {ι : Type v} {T : Type u} {S : SizeT} {n : ℕ} {log : List T}

/-! ## The unread items -/

/-- What the slots from `head_` up to `tail_` hold. -/
def Channel.unread (n : ℕ) (r : Channel T) : List (Option T) :=
  (List.range (r.tail - r.head)).map fun i => r.data ((r.head + i) % n)

theorem Channel.unread_eq_nil {r : Channel T} :
    r.unread n = [] ↔ r.tail ≤ r.head := by
  rw [unread, List.map_eq_nil_iff, List.range_eq_nil, Nat.sub_eq_zero_iff_le]

/-! ## The call -/

/-- The order in which the operands of `==` are loaded. -/
inductive LoadOrder
  | headFirst
  | tailFirst
  deriving DecidableEq

def LoadOrder.first (o : LoadOrder) (r : Channel T) : ℕ :=
  match o with
  | .headFirst => r.head
  | .tailFirst => r.tail

def LoadOrder.second (o : LoadOrder) (r : Channel T) : ℕ :=
  match o with
  | .headFirst => r.tail
  | .tailFirst => r.head

/-- Where a thread stands in a call of `empty()`. -/
inductive Look
  | idle
  /-- before the first load -/
  | first (o : LoadOrder)
  /-- before the second load -/
  | second (o : LoadOrder) (v : ℕ)
  | done (o : LoadOrder) (b : Bool)
  deriving DecidableEq

inductive LookEvent
  | call (o : LoadOrder)
  | load
  | ret (o : LoadOrder) (b : Bool)
  deriving DecidableEq

/-- One step of `alpha::spsc::empty`: `head_.load() == tail_.load()`. -/
def alpha.empty (r : Channel T) : Look → Option LoadOrder →
    Option (LookEvent × Look)
  | .idle, some o => some (.call o, .first o)
  | .first o, none => some (.load, .second o (o.first r))
  | .second o v, none => some (.load, .done o (v = o.second r))
  | .done o b, none => some (.ret o b, .idle)
  | _, _ => none

/-! ## The queue and the threads that look at it -/

/-- A queue at work, and the calls of `empty()` of the producer, the consumer
and the threads in `ι`. -/
structure Watched (ι : Type v) (T : Type u) where
  work : State T
  looks : Side ⊕ ι → Look

/-- A step of the queue, or of a call of `empty()` by one of the threads. -/
abbrev WatchEvent (ι : Type v) (T : Type u) :=
  (Side × Event T) ⊕ ((Side ⊕ ι) × LookEvent)

/-- A thread inside no call that pushes or pops. -/
def AtRest (s : State T) : Side ⊕ ι → Prop
  | .inl .producer => s.producer = .idle
  | .inl .consumer => s.consumer = .idle
  | .inr _ => True

/-- The steps of the queue in a trace. -/
def working (tr : List (WatchEvent ι T)) : List (Side × Event T) :=
  tr.filterMap Sum.getLeft?

@[simp] theorem working_work (tr : List (WatchEvent ι T))
    (a : Side × Event T) : working (tr ++ [.inl a]) = working tr ++ [a] := by
  simp [working]

@[simp] theorem working_look (tr : List (WatchEvent ι T))
    (a : (Side ⊕ ι) × LookEvent) : working (tr ++ [.inr a]) = working tr := by
  simp [working]

variable [DecidableEq ι]

/-- A thread is inside one call at a time. -/
inductive Watched.Step (S : SizeT) (n : ℕ) :
    Watched ι T → WatchEvent ι T → Watched ι T → Prop
  | work {s : Watched ι T} {t : Side} {e : Event T} {w : State T}
      (h : (alpha.system S n T).step s.work (t, e) w)
      (hfree : s.looks (.inl t) = .idle) :
      Step S n s (.inl (t, e)) ⟨w, s.looks⟩
  | look {s : Watched ι T} {c : Side ⊕ ι} {o : Option LoadOrder}
      {e : LookEvent} {l : Look}
      (h : alpha.empty s.work.shared.toChannel (s.looks c) o = some (e, l))
      (hrest : AtRest s.work c) :
      Step S n s (.inr (c, e)) ⟨s.work, Function.update s.looks c l⟩

/-- All interleavings of the calls of `alpha::spsc`, `empty()` among them. -/
def alpha.watched (S : SizeT) (n : ℕ) (ι : Type v) [DecidableEq ι]
    (T : Type u) : Lts (Watched ι T) (WatchEvent ι T) where
  init := ⟨(alpha.system S n T).init, fun _ => .idle⟩
  step := Watched.Step S n

/-- Calls of `empty()` do not interfere with the queue. -/
theorem working_run {tr : List (WatchEvent ι T)} {s : Watched ι T}
    (hrun : (alpha.watched S n ι T).Run tr s) :
    (alpha.system S n T).Run (working tr) s.work := by
  refine Lts.Run.induction
    (P := fun tr s => (alpha.system S n T).Run (working tr) s.work)
    Lts.Run.init ?_ hrun
  intro tr s a s' _ ih hstep
  cases hstep with
  | work h _ =>
      rw [working_work]
      exact ih.tail h
  | look h _ =>
      rw [working_look]
      exact ih

/-! ## The indexes -/

/-- The producer leaves `head_` alone. -/
theorem indexes_of_produce {calls : OnFail → Bool} {s s' : State T}
    {e : Event T} (hI : Inv n log s)
    (h : (system .unbounded n calls T).step s (.producer, e) s') :
    s'.shared.head = s.shared.head ∧ s.shared.tail ≤ s'.shared.tail := by
  cases h with
  | producer h =>
      have hp := hI.producer
      dsimp only at hp
      cases pushMoves_iff.mp h with
      | store =>
          obtain ⟨rfl, -, -⟩ := hp
          exact ⟨rfl, Nat.le_succ _⟩
      | _ => exact ⟨rfl, le_rfl⟩

/-- The consumer leaves `tail_` alone. -/
theorem indexes_of_consume {calls : OnFail → Bool} {s s' : State T}
    {e : Event T} (hI : Inv n log s)
    (h : (system .unbounded n calls T).step s (.consumer, e) s') :
    s'.shared.tail = s.shared.tail ∧
      (s'.shared.head = s.shared.head ∨
        s'.shared.head = s.shared.head + 1) := by
  cases h with
  | consumer h =>
      have hc := hI.consumer
      dsimp only at hc
      cases popMoves_iff.mp h with
      | store =>
          obtain ⟨rfl, -, -⟩ := hc
          exact ⟨rfl, Or.inr rfl⟩
      | _ => exact ⟨rfl, Or.inl rfl⟩

theorem watched_inv {tr : List (WatchEvent ι T)} {s : Watched ι T}
    (hrun : (alpha.watched .unbounded n ι T).Run tr s) :
    Inv n (pushed (working tr)) s.work :=
  inv_of_run (working_run hrun)

/-- `head_` and `tail_` as the lower and the upper one of two counters. -/
theorem watched_counters (n : ℕ) (ι : Type v) [DecidableEq ι] (T : Type u) :
    Counters (alpha.watched .unbounded n ι T)
      (fun s => s.work.shared.head) (fun s => s.work.shared.tail) where
  le := by
    rintro s ⟨tr, hrun⟩
    exact (watched_inv hrun).queue.channel.head_le
  step := by
    rintro s a s' ⟨tr, hrun⟩ hstep
    cases hstep with
    | @work t e w h hfree =>
        have hI := watched_inv hrun
        cases t with
        | producer => exact Or.inl (indexes_of_produce hI h)
        | consumer =>
            obtain ⟨htail, hhead | hhead⟩ := indexes_of_consume hI h
            · exact Or.inl ⟨hhead, htail.ge⟩
            · exact Or.inr ⟨hhead, htail⟩
    | look => exact Or.inl ⟨rfl, le_rfl⟩

/-! ## What a call sees -/

/-- The start of a call of `empty()` by the thread `c`. -/
def Calls (c : Side ⊕ ι) (a : WatchEvent ι T) : Prop :=
  ∃ o, a = .inr (c, .call o)

/-- The index that the caller alone moves is the same in both states. -/
def OwnKept (c : Side ⊕ ι) (s s' : Watched ι T) : Prop :=
  (c = .inl .producer → s'.work.shared.tail = s.work.shared.tail) ∧
    (c = .inl .consumer → s'.work.shared.head = s.work.shared.head)

/-- The calls that can be misled: neither the producer nor the consumer makes
them, they load `tail_` first, and the ring has room for two items. -/
def Misleading (n : ℕ) (c : Side ⊕ ι) (o : LoadOrder) : Prop :=
  c.isRight ∧ o = .tailFirst ∧ 2 ≤ n

/-- The answer `b` of a call of `empty()` by `c`, measured by the moments of
the call. -/
structure Answered (n : ℕ) (c : Side ⊕ ι) (o : LoadOrder) (b : Bool)
    (tr : List (WatchEvent ι T)) (s : Watched ι T) : Prop where
  /-- At some moment there was an item. -/
  held : b = false → (alpha.watched .unbounded n ι T).Since (Calls c)
    (fun m => m.work.shared.unread n ≠ []) tr s
  /-- At some moment there was none. -/
  emptied : b = true → ¬Misleading n c o →
    (alpha.watched .unbounded n ι T).Since (Calls c)
      (fun m => m.work.shared.unread n = []) tr s
  /-- What had been pushed by some moment is popped now. -/
  caughtUp : b = true → (alpha.watched .unbounded n ι T).Since (Calls c)
    (fun m => m.work.shared.tail ≤ s.work.shared.head) tr s

theorem OwnKept.step {c : Side ⊕ ι} {m s s' : Watched ι T}
    {a : WatchEvent ι T} {tr : List (WatchEvent ι T)}
    (h : OwnKept c m s)
    (hrun : (alpha.watched .unbounded n ι T).Run tr s)
    (hstep : (alpha.watched .unbounded n ι T).step s a s')
    (hcall : s.looks c ≠ .idle) : OwnKept c m s' := by
  cases hstep with
  | look => exact h
  | @work t e w hwork hfree =>
      have hI := watched_inv hrun
      constructor
      · rintro rfl
        cases t with
        | producer => exact absurd hfree hcall
        | consumer => rw [(indexes_of_consume hI hwork).1, h.1 rfl]
      · rintro rfl
        cases t with
        | producer => rw [(indexes_of_produce hI hwork).1, h.2 rfl]
        | consumer => exact absurd hfree hcall

theorem Answered.tail {c : Side ⊕ ι} {o : LoadOrder} {b : Bool}
    {tr : List (WatchEvent ι T)} {s s' : Watched ι T} {a : WatchEvent ι T}
    (h : Answered n c o b tr s)
    (hrun : (alpha.watched .unbounded n ι T).Run tr s)
    (hstep : (alpha.watched .unbounded n ι T).step s a s')
    (hmark : ¬Calls c a) : Answered n c o b (tr ++ [a]) s' where
  held hb := (h.held hb).tail hstep hmark
  emptied hb hgood := (h.emptied hb hgood).tail hstep hmark
  caughtUp hb := by
    have hgrow := (watched_counters n ι T).step s a s' ⟨tr, hrun⟩ hstep
    refine ((h.caughtUp hb).weaken fun m hm => ?_).tail hstep hmark
    omega

/-- An answer `false` is true of some moment, whatever was loaded first. -/
theorem held_of_load {c : Side ⊕ ι} {o : LoadOrder} {v : ℕ}
    {tr : List (WatchEvent ι T)} {s : Watched ι T}
    (h : (alpha.watched .unbounded n ι T).Since (Calls c)
      (fun m => o.first m.work.shared.toChannel = v) tr s)
    (hne : v ≠ o.second s.work.shared.toChannel) :
    (alpha.watched .unbounded n ι T).Since (Calls c)
      (fun m => m.work.shared.unread n ≠ []) tr s := by
  have hcounters := watched_counters n ι T
  have hapart : (alpha.watched .unbounded n ι T).Since (Calls c)
      (fun m => m.work.shared.head < m.work.shared.tail) tr s := by
    cases o with
    | headFirst => exact hcounters.apart_of_lower_ne h hne
    | tailFirst => exact hcounters.apart_of_upper_ne h hne
  refine hapart.weaken fun m hm => ?_
  rw [Ne, Channel.unread_eq_nil]
  exact not_le.mpr hm

/-- An answer `true` is true of some moment unless the call is misleading. -/
theorem emptied_of_load {c : Side ⊕ ι} {o : LoadOrder} {v : ℕ}
    {tr : List (WatchEvent ι T)} {s : Watched ι T}
    (h : (alpha.watched .unbounded n ι T).Since (Calls c)
      (fun m => o.first m.work.shared.toChannel = v ∧ OwnKept c m s) tr s)
    (heq : v = o.second s.work.shared.toChannel) (hgood : ¬Misleading n c o) :
    (alpha.watched .unbounded n ι T).Since (Calls c)
      (fun m => m.work.shared.unread n = []) tr s := by
  have hcounters := watched_counters n ι T
  have hfirst := h.weaken fun _ hm => hm.1
  suffices hmet : (alpha.watched .unbounded n ι T).Since (Calls c)
      (fun m => m.work.shared.head = m.work.shared.tail) tr s from
    hmet.weaken fun m hm => Channel.unread_eq_nil.mpr hm.ge
  cases o with
  | headFirst => exact .now h.run (hcounters.met_of_lower_eq hfirst heq)
  | tailFirst =>
      rcases c with (_ | _) | i
      · -- the producer has kept `tail_`
        obtain ⟨-, -, m, -, -, -, -, htail, hown, -⟩ := h
        have hmet := hown rfl
        exact .now hfirst.run (heq.symm.trans (htail.symm.trans hmet.symm))
      · -- the consumer has kept `head_`
        refine h.weaken fun m hm => ?_
        exact (hm.2.2 rfl).symm.trans (heq.symm.trans hm.1.symm)
      · have hsmall : n ≤ 1 := by
          by_contra hn
          exact hgood ⟨rfl, rfl, by omega⟩
        refine hcounters.met_of_reached ?_ hfirst heq.le
        rintro m ⟨tr', hrun⟩
        have := (watched_inv hrun).queue.channel.tail_le
        omega

/-- What had been pushed at the load of `tail_` has been popped where the answer
is `true`. -/
theorem caughtUp_of_load {c : Side ⊕ ι} {o : LoadOrder} {v : ℕ}
    {tr : List (WatchEvent ι T)} {s : Watched ι T}
    (h : (alpha.watched .unbounded n ι T).Since (Calls c)
      (fun m => o.first m.work.shared.toChannel = v) tr s)
    (heq : v = o.second s.work.shared.toChannel) :
    (alpha.watched .unbounded n ι T).Since (Calls c)
      (fun m => m.work.shared.tail ≤ s.work.shared.head) tr s := by
  cases o with
  | headFirst =>
      exact .now h.run ((watched_counters n ι T).met_of_lower_eq h heq).ge
  | tailFirst => exact h.weaken fun m hm => (hm.trans heq).le

/-! ## Runs -/

/-- What holds of a call of `empty()` at the point where it stands. -/
def LookInv (n : ℕ) (tr : List (WatchEvent ι T)) (s : Watched ι T)
    (c : Side ⊕ ι) : Look → Prop
  | .idle | .first _ => True
  | .second o v => (alpha.watched .unbounded n ι T).Since (Calls c)
      (fun m => o.first m.work.shared.toChannel = v ∧ OwnKept c m s) tr s
  | .done o b => Answered n c o b tr s

/-- A step outside the call keeps what holds of it. -/
theorem LookInv.tail {c : Side ⊕ ι} {tr : List (WatchEvent ι T)}
    {s s' : Watched ι T} {a : WatchEvent ι T}
    (h : LookInv n tr s c (s.looks c))
    (hrun : (alpha.watched .unbounded n ι T).Run tr s)
    (hstep : (alpha.watched .unbounded n ι T).step s a s')
    (hmark : ¬Calls c a) (hsame : s'.looks c = s.looks c) :
    LookInv n (tr ++ [a]) s' c (s'.looks c) := by
  rw [hsame]
  cases hlook : s.looks c with
  | idle | first => trivial
  | second o v =>
      rw [hlook] at h
      have hcall : s.looks c ≠ .idle := by simp [hlook]
      refine (Lts.Since.weaken h fun m hm => ?_).tail hstep hmark
      exact ⟨hm.1, hm.2.step hrun hstep hcall⟩
  | done o b =>
      rw [hlook] at h
      exact Answered.tail h hrun hstep hmark

/-- A step of the call itself. -/
theorem LookInv.own {c : Side ⊕ ι} {tr : List (WatchEvent ι T)}
    {s : Watched ι T} {o : Option LoadOrder} {e : LookEvent} {l : Look}
    (h : LookInv n tr s c (s.looks c))
    (hrun : (alpha.watched .unbounded n ι T).Run tr s)
    (hlook : alpha.empty s.work.shared.toChannel (s.looks c) o = some (e, l))
    (hrest : AtRest s.work c) :
    LookInv n (tr ++ [.inr (c, e)])
      ⟨s.work, Function.update s.looks c l⟩ c l := by
  have hstep : (alpha.watched .unbounded n ι T).step s (.inr (c, e))
    ⟨s.work, Function.update s.looks c l⟩ := .look hlook hrest
  revert h hlook
  generalize s.looks c = before
  fun_cases alpha.empty s.work.shared.toChannel before o <;> intro h hlook <;>
    cases hlook
  case case1 | case4 => trivial
  case case2 o =>
    exact Lts.Since.tail (.now hrun ⟨rfl, fun _ => rfl, fun _ => rfl⟩) hstep
      (by simp [Calls])
  case case3 o v =>
    refine Answered.tail ⟨fun hb => ?_, fun hb => ?_, fun hb => ?_⟩ hrun hstep
      (by simp [Calls])
    · exact held_of_load (h.weaken fun _ hm => hm.1) (of_decide_eq_false hb)
    · exact emptied_of_load h (of_decide_eq_true hb)
    · exact caughtUp_of_load (h.weaken fun _ hm => hm.1) (of_decide_eq_true hb)

theorem lookInv_of_run {tr : List (WatchEvent ι T)} {s : Watched ι T}
    (hrun : (alpha.watched .unbounded n ι T).Run tr s) (c : Side ⊕ ι) :
    LookInv n tr s c (s.looks c) := by
  refine Lts.Run.induction
    (P := fun tr s => LookInv n tr s c (s.looks c)) ?_ ?_ hrun
  · trivial
  · intro tr s a s' hrun ih hstep
    cases id hstep with
    | work h hfree =>
        exact ih.tail hrun hstep (by simp [Calls]) rfl
    | @look c' o e l h hrest =>
        by_cases hc : c' = c
        · subst hc
          have hown := ih.own hrun h hrest
          simpa using hown
        · have hsame : Function.update s.looks c' l c = s.looks c :=
            Function.update_of_ne (Ne.symm hc) _ _
          exact ih.tail hrun hstep (by simp [Calls, hc]) hsame

/-- Every answer of `empty()`. -/
theorem answered_of_run {c : Side ⊕ ι} {o : LoadOrder} {b : Bool}
    {tr : List (WatchEvent ι T)} {s : Watched ι T}
    (hrun : (alpha.watched .unbounded n ι T).Run
      (tr ++ [.inr (c, .ret o b)]) s) :
    Answered n c o b (tr ++ [.inr (c, .ret o b)]) s := by
  obtain ⟨m, hrunm, hstep⟩ := Lts.Path.last hrun
  have hinv := lookInv_of_run hrunm c
  refine Answered.tail ?_ hrunm hstep (by simp [Calls])
  cases hstep with
  | @look _ k _ l h hrest =>
      revert hinv h
      generalize m.looks c = before
      fun_cases alpha.empty m.work.shared.toChannel before k <;>
        intro hinv h <;> cases h
      exact hinv

/-! ## A call that is misled -/

omit [DecidableEq ι] in
/-- A trace pushes and pops what its beginning does, and more. -/
theorem working_length_le {tr tr' : List (WatchEvent ι T)} (h : tr <+: tr') :
    (pushed (working tr)).length ≤ (pushed (working tr')).length ∧
      (popped (working tr)).length ≤ (popped (working tr')).length :=
  ⟨((h.filterMap _).filterMap _).length_le,
    ((h.filterMap _).filterMap _).length_le⟩

/-- The indexes count the items of the trace. -/
theorem working_length {tr : List (WatchEvent ι T)} {s : Watched ι T}
    (hrun : (alpha.watched .unbounded n ι T).Run tr s) :
    (pushed (working tr)).length = s.work.shared.tail ∧
      (popped (working tr)).length = s.work.shared.head := by
  have hI := (watched_inv hrun).queue.channel
  rw [(popped_eq (working_run hrun)).1, List.length_take, hI.log_length]
  exact ⟨rfl, Nat.min_eq_left hI.head_le⟩

/-- A call during which `head_` stays behind what `tail_` was at an earlier
moment, up to one moment of the call and from there on, never sees the ring
empty. -/
theorem never_empty {c : Side ⊕ ι} {a : WatchEvent ι T}
    (pre first rest : List (WatchEvent ι T)) {s₁ s₂ s₃ : Watched ι T}
    (ha : Calls c a) (h₁ : (alpha.watched .unbounded n ι T).Run pre s₁)
    (h₂ : (alpha.watched .unbounded n ι T).Run (pre ++ a :: first) s₂)
    (h₃ : (alpha.watched .unbounded n ι T).Run
      (pre ++ a :: (first ++ rest)) s₃)
    (h₁₂ : s₂.work.shared.head < s₁.work.shared.tail)
    (h₂₃ : s₃.work.shared.head < s₂.work.shared.tail) :
    ¬(alpha.watched .unbounded n ι T).Since (Calls c)
      (fun m => m.work.shared.unread n = []) (pre ++ a :: (first ++ rest))
      s₃ := by
  intro hsince
  obtain ⟨between, m, hbetween, hrun, hempty⟩ := hsince.after ha
  rw [Channel.unread_eq_nil] at hempty
  obtain ⟨htail, hhead⟩ := working_length hrun
  obtain ⟨htail₁, -⟩ := working_length h₁
  obtain ⟨htail₂, hhead₂⟩ := working_length h₂
  obtain ⟨-, hhead₃⟩ := working_length h₃
  have hmono : ∀ {xs ys : List (WatchEvent ι T)}, xs <+: ys →
      pre ++ a :: xs <+: pre ++ a :: ys := fun h =>
    (List.prefix_append_right_inj pre).mpr (List.cons_prefix_cons.mpr ⟨rfl, h⟩)
  rcases List.prefix_or_prefix_of_prefix hbetween
    (List.prefix_append first rest) with hfst | hsnd
  · have hpushed := (working_length_le
      (List.prefix_append pre (a :: between))).1
    have hpopped := (working_length_le (hmono hfst)).2
    omega
  · have hpushed := (working_length_le (hmono hsnd)).1
    have hpopped := (working_length_le (hmono hbetween)).2
    omega

/-- While no producer and no consumer calls `empty()` the queue takes the steps
it takes without such calls. -/
theorem watched_path {w w' : State T} {tr : List (Side × Event T)}
    {looks : Side ⊕ ι → Look} (hidle : ∀ t, looks (.inl t) = .idle)
    (h : (alpha.system S n T).Path w tr w') :
    (alpha.watched S n ι T).Path ⟨w, looks⟩ (tr.map .inl) ⟨w', looks⟩ := by
  induction h with
  | refl => exact .refl _
  | @tail m w' tr a _ hlast ih =>
      rw [List.map_append, List.map_singleton]
      exact ih.tail (.work hlast (hidle a.1))

/-- A push that needs no look at `head_`. -/
theorem path_push {q : Queue T} (item : T) (hcached : q.cachedHead ≤ q.tail)
    (hroom : q.tail < q.cachedHead + n) :
    ∃ tr q', (alpha.system .unbounded n T).Path ⟨q, .idle, .idle⟩ tr
        ⟨q', .idle, .idle⟩ ∧
      q'.head = q.head ∧ q'.tail = q.tail + 1 ∧
      q'.cachedHead = q.cachedHead ∧ q'.cachedTail = q.cachedTail := by
  have hnot : ¬full .unbounded n q.tail q.cachedHead := by
    simp only [full, SizeT.sub_unbounded]
    omega
  have hcall : alpha.call .unbounded n 1 q (.push item) = some (.pushed true,
      q.setChannel ((q.setSlot (q.tail % n) (some item)).setTail
        (q.tail + 1))) := by
    simp [alpha.call, alpha.pushCall, alpha.tryPushCall, pushAttempt, hnot]
  obtain ⟨_, tr, hpath, -⟩ := alpha.runs_call hcall
  exact ⟨tr, _, hpath, rfl, rfl, rfl, rfl⟩

/-- A pop that has to look at `tail_`. -/
theorem path_pop {q : Queue T} (hstale : q.cachedTail ≤ q.head)
    (hitem : q.head < q.tail) :
    ∃ tr q', (alpha.system .unbounded n T).Path ⟨q, .idle, .idle⟩ tr
        ⟨q', .idle, .idle⟩ ∧ q'.head = q.head + 1 := by
  have hnot : ¬empty q.tail q.head := not_le.mpr hitem
  have hcall : alpha.call .unbounded n 1 q .pop =
      some (.popped (q.data (q.head % n)),
        q.refreshTail.setChannel (q.setHead (q.head + 1))) := by
    simp [alpha.call, alpha.popCall, alpha.tryPopCall, popAttempt,
      show empty q.cachedTail q.head from hstale, hnot]
  obtain ⟨_, tr, hpath, -⟩ := alpha.runs_call hcall
  exact ⟨tr, _, hpath, rfl⟩

/-- A step of the only call of `empty()`, made by `c`. -/
theorem watched_look {w : State T} {c : Side ⊕ ι} {k l : Look}
    {o : Option LoadOrder} {e : LookEvent}
    (h : alpha.empty w.shared.toChannel k o = some (e, l))
    (hrest : AtRest w c) :
    (alpha.watched S n ι T).Path ⟨w, Function.update (fun _ => .idle) c k⟩
      [.inr (c, e)] ⟨w, Function.update (fun _ => .idle) c l⟩ := by
  have hstep : (alpha.watched S n ι T).step
      ⟨w, Function.update (fun _ => .idle) c k⟩ (.inr (c, e))
      ⟨w, Function.update (Function.update (fun _ => .idle) c k) c l⟩ :=
    .look (o := o) (by simpa using h) hrest
  rw [Function.update_idem] at hstep
  exact .single hstep

/-- Another thread is told that the ring is empty, which it never was, where
between its two loads an item is pushed behind the one that waits and that one
is popped. -/
theorem misled (hn : 2 ≤ n) (item : T) (i : ι) :
    ∃ tr s, (alpha.watched .unbounded n ι T).Run
        (tr ++ [.inr (.inr i, .ret .tailFirst true)]) s ∧
      ¬(alpha.watched .unbounded n ι T).Since (Calls (.inr i))
        (fun m => m.work.shared.unread n = [])
        (tr ++ [.inr (.inr i, .ret .tailFirst true)]) s := by
  obtain ⟨tr₁, q₁, hpath₁, hhead₁, htail₁, hcached₁, hstale₁⟩ :=
    path_push (n := n) (q := Queue.new) item (Nat.zero_le _)
      (show 0 < 0 + n by omega)
  change q₁.head = 0 at hhead₁
  change q₁.tail = 1 at htail₁
  change q₁.cachedHead = 0 at hcached₁
  change q₁.cachedTail = 0 at hstale₁
  obtain ⟨tr₂, q₂, hpath₂, hhead₂, htail₂, -, hstale₂⟩ :=
    path_push (n := n) (q := q₁) item (by omega) (by omega)
  obtain ⟨tr₃, q₃, hpath₃, hhead₃⟩ :=
    path_pop (n := n) (q := q₂) (by omega) (by omega)
  have heq : q₁.tail = q₃.head := by omega
  have hequal : alpha.empty q₃.toChannel (.second .tailFirst q₁.tail) none =
      some (.load, .done .tailFirst true) := by
    simp [alpha.empty, LoadOrder.second, heq]
  have hidle : ∀ l t, Function.update (fun _ => Look.idle)
      (Sum.inr i : Side ⊕ ι) l (.inl t) = .idle := fun _ _ => rfl
  have hpre : (alpha.watched .unbounded n ι T).Run (tr₁.map .inl)
      ⟨⟨q₁, .idle, .idle⟩,
        Function.update (fun _ => .idle) (.inr i) .idle⟩ := by
    rw [Function.update_eq_self]
    exact watched_path (fun _ => rfl) hpath₁
  have hfirst := ((hpre.trans (watched_look (o := some .tailFirst) rfl
    trivial)).trans (watched_look (o := none) rfl trivial)).trans
      (watched_path (hidle _) hpath₂)
  have hread := ((hfirst.trans (watched_path (hidle _) hpath₃)).trans
    (watched_look (w := ⟨q₃, .idle, .idle⟩) hequal trivial)).trans
      (watched_look (o := none) rfl trivial)
  refine ⟨tr₁.map .inl ++ .inr (.inr i, .call .tailFirst) ::
    .inr (.inr i, .load) :: (tr₂ ++ tr₃).map .inl ++ [.inr (.inr i, .load)],
    ⟨⟨q₃, .idle, .idle⟩, fun _ => .idle⟩, ?_, ?_⟩
  · simpa [Lts.Run] using hread
  · have hnever := never_empty (tr₁.map .inl)
      (.inr (.inr i, .load) :: tr₂.map .inl)
      (tr₃.map .inl ++
        [.inr (.inr i, .load), .inr (.inr i, .ret .tailFirst true)])
      ⟨.tailFirst, rfl⟩ hpre (by simpa [Lts.Run] using hfirst)
      (by simpa [Lts.Run] using hread) (by simp only; omega)
      (by simp only; omega)
    simpa using hnever

/-! ## Words -/

section Words

variable {calls : OnFail → Bool} {q q' : Queue T} {e : Event T}

theorem full_iff_of_fits {t k : ℕ} (ht : S.Fits t) (hk : k ≤ t) :
    full S n t k ↔ full .unbounded n t k := by
  rw [full, full, SizeT.sub_of_fits ht hk, SizeT.sub_unbounded]

/-- A step of the producer that wraps no index. -/
theorem PushMove.unwrapped {p p' : Producer Pc T} (hq : QueueInv n log q)
    (hp : ProducerInv n q p) (h : PushMove S n calls q p e q' p')
    (hfit : S.Fits (log ++ e.stored?.toList).length) :
    PushMove .unbounded n calls q p e q' p' := by
  have htail : S.Fits q.tail := by
    rw [← hq.channel.log_length]
    exact hfit.mono (by simp)
  have hcached : q.cachedHead ≤ q.tail :=
    hq.cachedHead_le.trans hq.channel.head_le
  cases h with
  | call item hf => exact .call item hf
  | load => exact .load
  | testFull h =>
      obtain rfl := hp
      exact .testFull ((full_iff_of_fits htail hcached).mp h)
  | testRoom h =>
      obtain rfl := hp
      exact .testRoom (mt (full_iff_of_fits htail hcached).mpr h)
  | refresh => exact .refresh
  | retestFull h =>
      obtain rfl := hp
      exact .retestFull ((full_iff_of_fits htail hcached).mp h)
  | retestRoom h =>
      obtain rfl := hp
      exact .retestRoom (mt (full_iff_of_fits htail hcached).mpr h)
  | enter => exact .enter
  | inSlot => exact .inSlot
  | store =>
      obtain ⟨rfl, -, -⟩ := hp
      have hadd : S.add q.tail 1 = q.tail + 1 := by
        refine SizeT.add_of_fits ?_
        simpa [Event.stored?, hq.channel.log_length] using hfit
      rw [hadd]
      exact .store
  | ret => exact .ret

/-- A step of the consumer that wraps no index. -/
theorem PopMove.unwrapped {c c' : Consumer Pc T} (hq : QueueInv n log q)
    (hc : ConsumerInv log q c) (h : PopMove S n calls q c e q' c')
    (hfit : S.Fits log.length) : PopMove .unbounded n calls q c e q' c' := by
  cases h with
  | call hf => exact .call hf
  | load => exact .load
  | testEmpty h => exact .testEmpty h
  | testItem h => exact .testItem h
  | refresh => exact .refresh
  | retestEmpty h => exact .retestEmpty h
  | retestItem h => exact .retestItem h
  | enter => exact .enter
  | inSlot => exact .inSlot
  | store =>
      obtain ⟨rfl, hlt, -⟩ := hc
      have htail := hq.cachedTail_le
      have hadd : S.add q.head 1 = q.head + 1 := by
        refine SizeT.add_of_fits (hfit.mono ?_)
        rw [hq.channel.log_length]
        omega
      rw [hadd]
      exact .store
  | ret => exact .ret

end Words

/-- As long as the number of items pushed fits into a word, the words make no
difference. -/
theorem unwrapped_of_run {tr : List (WatchEvent ι T)} {s : Watched ι T}
    (hrun : (alpha.watched S n ι T).Run tr s)
    (hfit : S.Fits (pushed (working tr)).length) :
    (alpha.watched .unbounded n ι T).Run tr s := by
  revert hfit
  refine Lts.Run.induction (P := fun tr s =>
    S.Fits (pushed (working tr)).length →
      (alpha.watched .unbounded n ι T).Run tr s) ?_ ?_ hrun
  · intro _
    exact Lts.Run.init
  · rintro tr ⟨m, looks⟩ a s' - ih hstep hfit
    cases hstep with
    | look h hrest =>
        rw [working_look] at hfit
        exact (ih hfit).tail (.look h hrest)
    | work h hfree =>
        rw [working_work] at hfit
        cases h with
        | producer h =>
            rw [pushed_producer] at hfit
            have hbefore := ih (hfit.mono (by simp))
            have hI := watched_inv hbefore
            have hmove := pushMoves_iff.mpr
              ((pushMoves_iff.mp h).unwrapped hI.queue hI.producer hfit)
            exact hbefore.tail (.work (.producer hmove) hfree)
        | consumer h =>
            rw [pushed_consumer] at hfit
            have hbefore := ih hfit
            have hI := watched_inv hbefore
            have hmove := popMoves_iff.mpr
              ((popMoves_iff.mp h).unwrapped hI.queue hI.consumer hfit)
            exact hbefore.tail (.work (.consumer hmove) hfree)

/-- The answers with counters of any width. -/
theorem answered_of_word_run {c : Side ⊕ ι} {o : LoadOrder} {b : Bool}
    {tr : List (WatchEvent ι T)} {s : Watched ι T}
    (hrun : (alpha.watched S n ι T).Run (tr ++ [.inr (c, .ret o b)]) s)
    (hfit : S.Fits (pushed (working tr)).length) :
    Answered n c o b (tr ++ [.inr (c, .ret o b)]) s :=
  answered_of_run (unwrapped_of_run hrun (by rwa [working_look]))

/-! ## The answers -/

/-- Whatever a call by `c` with the load order `o` answers was the case at some
moment of the call. -/
def Truthful (n : ℕ) (T : Type u) (c : Side ⊕ ι) (o : LoadOrder) : Prop :=
  ∀ (tr : List (WatchEvent ι T)) (s : Watched ι T) (b : Bool),
    (alpha.watched .unbounded n ι T).Run (tr ++ [.inr (c, .ret o b)]) s →
      (alpha.watched .unbounded n ι T).Since (Calls c)
        (fun m => b = true ↔ m.work.shared.unread n = [])
        (tr ++ [.inr (c, .ret o b)]) s

theorem truthful_of_not_misleading {c : Side ⊕ ι} {o : LoadOrder}
    (hgood : ¬Misleading n c o) : Truthful n T c o := by
  intro tr s b hrun
  have hanswer := answered_of_run hrun
  cases b with
  | false => exact (hanswer.held rfl).weaken fun m hm => by simp [hm]
  | true => exact (hanswer.emptied rfl hgood).weaken fun m hm => by simp [hm]

theorem not_truthful_of_misleading {c : Side ⊕ ι} {o : LoadOrder} (item : T)
    (hbad : Misleading n c o) : ¬Truthful n T c o := by
  obtain ⟨hthird, rfl, hn⟩ := hbad
  intro htruthful
  rcases c with t | i
  · cases hthird
  · obtain ⟨tr, s, hrun, hnever⟩ := misled hn item i
    exact hnever ((htruthful tr s true hrun).weaken fun m hm => hm.mp rfl)

/-- The answers of `empty()` are true of some moment of the call in all cases
but one: for calls by other threads than the producer and the consumer that load
`tail_` first, on a ring with room for two items.  There too an answer `false`
is, and an answer `true` says that what had been pushed by some moment of the
call has been popped when it returns.  Words make no difference as long as the
number of items pushed fits into one. -/
theorem empty_truthful_iff (item : T) (c : Side ⊕ ι) (o : LoadOrder) :
    (Truthful n T c o ↔ ¬Misleading n c o) ∧
      ∀ (S : SizeT) (tr : List (WatchEvent ι T)) (s : Watched ι T) (b : Bool),
        (alpha.watched S n ι T).Run (tr ++ [.inr (c, .ret o b)]) s →
          S.Fits (pushed (working tr)).length →
            Answered n c o b (tr ++ [.inr (c, .ret o b)]) s := by
  constructor
  · constructor
    · intro htruthful hbad
      exact not_truthful_of_misleading item hbad htruthful
    · exact truthful_of_not_misleading
  · intro S tr s b hrun hfit
    exact answered_of_word_run hrun hfit

/-- On a ring of two slots a third thread that loads `tail_` first is told that
the ring is empty during a call in which it never was. -/
theorem third_thread_misled :
    ¬Truthful 2 ℕ (.inr () : Side ⊕ Unit) .tailFirst :=
  not_truthful_of_misleading 7 ⟨rfl, rfl, le_rfl⟩

end Spsc
end ConcurrentQueues
