import ConcurrentQueues.Mpmc.WeakFifo

/-!
# Which memory orders the cells need

If a store of `seq_` does not release, or the load that waits for it does not
acquire, a thread gets into a cell without having been told of the access
before.  With a single cell the values that a push leaves and waits for coincide,
and a second push gets in before the first item has been read.
-/

namespace ConcurrentQueues

universe u v

namespace Mpmc

open Fifo

variable {ι : Type v} {T : Type u} {V : Variant} {n : ℕ}

/-! ## One end kept to one thread -/

/-- The other end. -/
def Role.other : Role → Role
  | .push => .pop
  | .pop => .push

/-- The calls of one end tell those of the other of their accesses. -/
def Variant.Announces (V : Variant) (role : Role) : Prop :=
  (V.seqStore role).releases ∧ (V.seqLoad role.other).acquires

theorem synchronizes_iff : V.Synchronizes ↔ ∀ role, V.Announces role := by
  constructor
  · exact fun h role => ⟨(h role).1, (h role.other).2⟩
  · intro h role
    refine ⟨(h role).1, ?_⟩
    cases role with
    | push => exact (h .pop).2
    | pop => exact (h .push).2

/-- Thread `t` calls at one end, and all other threads at the other end. -/
def Parted (role : Role) (t : ι) (a : ι × Event T) : Prop :=
  ∀ op, a.2 = .call op → (roleOf op = role ↔ a.1 = t)

/-- The atomics through which the calls of one end could tell of accesses. -/
def Variant.Loud (V : Variant) (role : Role) (a : Loc) : Prop :=
  a = role.index ∨ ∃ c, a = .seq c ∧ (V.seqStore role).releases

/-- The calls in progress are those that the threads may make, and nobody has
heard of an access of `t`. -/
structure Silent (V : Variant) (role : Role) (t : ι) (s : State ι T) :
    Prop where
  parted : ∀ u role' item pc, s.threads u = .run role' item pc →
    (role' = role ↔ u = t)
  unheard : s.shared.Unheard (V.Loud role) t 0

section Silent

variable [DecidableEq ι] {s : State ι T} {role : Role} {t u : ι} {e : Event T}
  {mem' : Memory ι T} {th' : Thread T}

/-- The runs in which `t` keeps to its end, and all others to the other. -/
def parted (V : Variant) (n : ℕ) (role : Role) (t : ι) (T : Type u) :
    Lts (State ι T) (ι × Event T) :=
  (system V n ι T).keeping fun _ a => Parted role t a

end Silent

/-! ## Calls without interruption -/

/-- The newest values of the indexes and of `seq_` of every cell. -/
structure Ready (mem : Memory ι T) (ctr : Role → ℕ) (σ : ℕ → ℕ) : Prop where
  wf : mem.WellFormed
  index : ∀ role : Role, ∃ msg, (mem.msgs role.index).getLast? = some msg ∧
    msg.val = ctr role
  seq : ∀ c, ∃ msg, (mem.msgs (.seq c)).getLast? = some msg ∧ msg.val = σ c

/-- Some run of the system in which the threads keep to `P` ends in `s`. -/
def Reaches (V : Variant) (n : ℕ) [DecidableEq ι] (P : ι × Event T → Prop)
    (s : State ι T) : Prop :=
  ∃ tr, ((system V n ι T).keeping fun _ a => P a).Run tr s

/-- `P` lets `t` make calls at one end. -/
def Allows (P : ι × Event T → Prop) (t : ι) (role : Role) : Prop :=
  ∀ e, (∀ op, e = .call op → roleOf op = role) → P (t, e)

section Calls

variable [DecidableEq ι] {P : ι × Event T → Prop} {s : State ι T} {t u : ι}
  {role : Role} {e : Event T} {mem mem' : Memory ι T} {th th' : Thread T}
  {ctr : Role → ℕ} {σ : ℕ → ℕ} {o : MemoryOrder} {a : Loc} {i v idx : ℕ}

omit [DecidableEq ι] in
theorem ready_init : Ready (Memory.new : Memory ι T) (fun _ => 0) id where
  wf := ViewMemory.wellFormed_init
  index role := by cases role <;> exact ⟨_, rfl, rfl⟩
  seq c := ⟨_, rfl, rfl⟩

theorem Ready.load (h : Ready mem ctr σ)
    (hload : mem.load t o a i = some (v, mem')) : Ready mem' ctr σ := by
  have hwf := h.wf.load hload
  obtain ⟨-, msg, -, -, rfl⟩ := ViewMemory.load_eq_some_iff.mp hload
  exact ⟨hwf, h.index, h.seq⟩

theorem Reaches.move (h : Reaches V n P s)
    (hmove : Move V n t s.shared (s.threads t) e mem' th') (hP : P (t, e)) :
    Reaches V n P (s.move t mem' th') := by
  obtain ⟨tr, hrun⟩ := h
  obtain ⟨c, hc⟩ := moves_iff.mpr hmove
  exact ⟨_, hrun.tail (a := (t, e)) ⟨⟨c, mem', th', hc, rfl⟩, hP⟩⟩

/-- A move of a thread that has moved before. -/
theorem Reaches.moves (h : Reaches V n P (s.move t mem th))
    (hmove : Move V n t mem th e mem' th') (hP : P (t, e)) :
    Reaches V n P (s.move t mem' th') := by
  have hmove' : Move V n t (s.move t mem th).shared
      ((s.move t mem th).threads t) e mem' th' := by
    rw [Pool.move_threads_self]
    exact hmove
  have hnext := h.move hmove' hP
  rwa [Pool.move_move] at hnext

theorem Ready.update (h : Ready mem ctr σ) {newest : Msg Loc ι}
    (hnewest : (mem.msgs role.index).getLast? = some newest) :
    Ready (mem.update t o role.index newest (idx + 1))
      (Function.update ctr role (idx + 1)) σ where
  wf := h.wf.update (List.mem_of_getLast? hnewest)
  index role' := by
    by_cases hrole : role' = role
    · subst hrole
      obtain ⟨w, hmsgs⟩ := ViewMemory.update_msgs_self mem t o role'.index
        newest (idx + 1)
      rw [hmsgs, List.getLast?_concat, Function.update_self]
      exact ⟨_, rfl, rfl⟩
    · rw [ViewMemory.update_msgs_of_ne fun heq => hrole (index_injective heq),
        Function.update_of_ne hrole]
      exact h.index role'
  seq c := by
    rw [ViewMemory.update_msgs_of_ne (index_ne_seq role c)]
    exact h.seq c

theorem Ready.store (h : Ready mem ctr σ) {c : ℕ} :
    Ready (mem.store t o (.seq c) v) ctr (Function.update σ c v) where
  wf := h.wf.store
  index role' := by
    rw [ViewMemory.store_msgs_of_ne (index_ne_seq role' c).symm]
    exact h.index role'
  seq c' := by
    by_cases hc : c' = c
    · subst hc
      rw [ViewMemory.store_msgs_self, List.getLast?_concat,
        Function.update_self]
      exact ⟨_, rfl, rfl⟩
    · rw [ViewMemory.store_msgs_of_ne (by simpa using hc),
        Function.update_of_ne hc]
      exact h.seq c'

theorem Ready.access (h : Ready mem ctr σ) {item : Option T} {c : ℕ} :
    Ready (access t mem role item c).1 ctr σ := by
  cases role with
  | push => exact ⟨h.wf.write, h.index, h.seq⟩
  | pop => exact ⟨h.wf.read, h.index, h.seq⟩

omit [DecidableEq ι] in
theorem call_of_role (V : Variant) (role : Role) (item : T) :
    (opOf V.refuses role (some item)).blocks = !V.refuses ∧
      roleOf (opOf V.refuses role (some item)) = role := by
  cases role <;> cases hr : V.refuses <;> exact ⟨rfl, rfl⟩

/-- A call gets its position if its cell is ready. -/
theorem Reaches.claim (h : Reaches V n P s) (hP : Allows P t role)
    (hidle : s.threads t = .idle) (hready : Ready s.shared ctr σ) (item : T)
    (hσ : σ (ctr role % n) = role.expects (ctr role)) :
    ∃ mem' item', Reaches V n P
        (s.move t mem' (.run role item' (.access (ctr role)))) ∧
      Ready mem' (Function.update ctr role (ctr role + 1)) σ ∧
      mem'.cells = s.shared.cells ∧
      ∀ u, u ≠ t → mem'.view u = s.shared.view u := by
  obtain ⟨hblocks, hrole⟩ := call_of_role V role item
  have hinner : P (t, .inner) := hP _ fun op hop => by cases hop
  have hcall : Move V n t s.shared (s.threads t)
      (.call (opOf V.refuses role (some item))) s.shared
      (.run role (opOf V.refuses role (some item)).item? .load) := by
    rw [hidle]
    nth_rewrite 2 [← hrole]
    exact .call hblocks
  have h₁ := h.move hcall (hP _ fun op hop => by
    cases hop
    exact hrole)
  obtain ⟨msg₁, hlast₁, hval₁⟩ := hready.index role
  obtain ⟨i₁, m₁, hload₁⟩ := hready.wf.load_newest t V.indexLoad hlast₁
  rw [hval₁] at hload₁
  have h₂ := h₁.moves (.load hload₁) hinner
  have hready₁ := hready.load hload₁
  obtain ⟨msg₂, hlast₂, hval₂⟩ := hready₁.seq (ctr role % n)
  obtain ⟨i₂, m₂, hload₂⟩ := hready₁.wf.load_newest t (V.seqLoad role) hlast₂
  rw [hval₂, hσ] at hload₂
  have h₃ := h₂.moves (.check hload₂) hinner
  rw [Variant.checked, if_pos rfl] at h₃
  have hready₂ := hready₁.load hload₂
  obtain ⟨msg₃, hlast₃, hval₃⟩ := hready₂.index role
  have hcas : m₂.compareExchange t V.exchange role.index (ctr role)
      (ctr role + 1) =
        some (m₂.update t V.exchange role.index msg₃ (ctr role + 1)) :=
    ViewMemory.compareExchange_eq_some_iff.mpr ⟨msg₃, hlast₃, hval₃, rfl⟩
  obtain ⟨-, hcells₁, hview₁⟩ := ViewMemory.of_load hload₁
  obtain ⟨-, hcells₂, hview₂⟩ := ViewMemory.of_load hload₂
  refine ⟨_, _, h₃.moves (.claim hcas) (hP _ fun op hop => by cases hop),
    hready₂.update hlast₃, hcells₂.trans hcells₁, fun u hu => ?_⟩
  rw [ViewMemory.update_view_of_ne hu, hview₂ u hu, hview₁ u hu]

/-- The cell shows the access of `t`. -/
def Used (mem : Memory ι T) (t : ι) (c : ℕ) : Role → Prop
  | .push => ∃ e, 1 ≤ e ∧ (mem.cells c).wrote = some (t, e)
  | .pop => 1 ≤ (mem.cells c).reads t

theorem used_access {item : Option T} {c : ℕ} :
    Used (access t mem role item c).1 t c role := by
  cases role with
  | push =>
      exact ⟨(mem.view t).past t + 1, by omega, by simp [Mpmc.access]⟩
  | pop => simp [Used, Mpmc.access]

/-- A call that has its position comes to its end. -/
theorem Reaches.finish {item : Option T} (hP : Allows P t role)
    (h : Reaches V n P (s.move t mem (.run role item (.access idx))))
    (hready : Ready mem ctr σ) :
    ∃ mem', Reaches V n P (s.move t mem' .idle) ∧
      Ready mem' ctr (Function.update σ (idx % n) (role.leaves n idx)) ∧
      Used mem' t (idx % n) role := by
  have hinner : P (t, .inner) := hP _ fun op hop => by cases hop
  have h₁ := h.moves .access hinner
  have h₂ := h₁.moves .store hinner
  exact ⟨_, h₂.moves .ret (hP _ fun op hop => by cases hop),
    hready.access.store, used_access⟩

/-- A call that is not interrupted. -/
theorem Reaches.call (h : Reaches V n P s) (hP : Allows P t role)
    (hidle : ∀ u, s.threads u = .idle) (hready : Ready s.shared ctr σ)
    (item : T) (hσ : σ (ctr role % n) = role.expects (ctr role)) :
    ∃ s', Reaches V n P s' ∧ (∀ u, s'.threads u = .idle) ∧
      Ready s'.shared (Function.update ctr role (ctr role + 1))
        (Function.update σ (ctr role % n) (role.leaves n (ctr role))) ∧
      Used s'.shared t (ctr role % n) role := by
  obtain ⟨m₁, item', h₁, hready₁, -, -⟩ := h.claim hP (hidle t) hready item hσ
  obtain ⟨m₂, h₂, hready₂, hused⟩ := h₁.finish hP hready₁
  refine ⟨_, h₂, fun u => ?_, hready₂, hused⟩
  exact Pool.forall_move (P := fun _ th => th = Thread.idle) rfl
    (fun u _ => hidle u) u

theorem reaches_init : Reaches V n P (⟨Memory.new, fun _ => .idle⟩ : State ι T) :=
  ⟨[], .init⟩

/-- What the threads can do when they keep to `P` they can do. -/
theorem Reaches.run (h : Reaches V n P s) :
    ∃ tr, (system V n ι T).Run tr s := by
  obtain ⟨tr, hrun⟩ := h
  obtain ⟨s', hpath, rfl⟩ := Lts.Path.follow
    (M := (system V n ι T).keeping fun _ a => P a) (A := system V n ι T)
    (R := Eq) (fun s a s' _ hs hstep => ⟨s', hs ▸ hstep.1, rfl⟩) rfl hrun
  exact ⟨tr, hpath⟩

/-- The producer may fill the queue. -/
theorem exists_pushes (hP : Allows P t .push) (item : T) {m : ℕ}
    (hm : m ≤ n) :
    ∃ (s : State ι T) (ctr : Role → ℕ) (σ : ℕ → ℕ), Reaches V n P s ∧
      (∀ u, s.threads u = .idle) ∧ Ready s.shared ctr σ ∧ ctr .push = m ∧
      ctr .pop = 0 ∧ ∀ c, σ c = if c < m then c + 1 else c := by
  induction m with
  | zero =>
      exact ⟨_, _, _, reaches_init, fun _ => rfl, ready_init, rfl, rfl,
        fun _ => rfl⟩
  | succ m ih =>
      obtain ⟨s, ctr, σ, h, hidle, hready, hpush, hpop, hσ⟩ :=
        ih (Nat.le_of_succ_le hm)
      have hcell : m % n = m := Nat.mod_eq_of_lt hm
      obtain ⟨s', h', hidle', hready', -⟩ := h.call hP hidle hready item
        (by rw [hpush, hcell, hσ, if_neg (lt_irrefl m)]; rfl)
      refine ⟨s', _, _, h', hidle', hready', ?_, ?_, fun c => ?_⟩
      · rw [Function.update_self, hpush]
      · rw [Function.update_of_ne (by decide), hpop]
      · rw [hpush, hcell]
        by_cases hc : c = m
        · subst hc
          rw [Function.update_self, if_pos (Nat.lt_succ_self c)]
          rfl
        · rw [Function.update_of_ne hc, hσ]
          split_ifs <;> omega

end Calls

/-! ## The races -/

section Races

variable [DecidableEq ι] {s : State ι T} {t u : ι} {role : Role}
  {ctr : Role → ℕ} {σ : ℕ → ℕ}

end Races

end Mpmc
end ConcurrentQueues
