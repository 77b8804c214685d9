import ConcurrentQueues.Moodycamel.Reuse

/-!
# Threads that empty blocks

A dequeue moves its elements out block by block and sets their flags, behind a
release fence.  An element keeps its place until then.
-/

namespace ConcurrentQueues

universe u v

namespace Moodycamel
namespace Explicit

open Bulk

variable {ι : Type v} {T : Type u}

section Words

variable {w B base count j : ℕ}

theorem blockBase_eq {i : ℕ} (hle : base ≤ i)
    (hlt : i < blockBase B base + B) : blockBase B i = blockBase B base := by
  have hdiv : i / B = base / B := by
    apply Nat.div_eq_of_lt_le
    · exact (blockBase_le B base).trans hle
    · rw [Nat.add_mul, Nat.one_mul]
      exact hlt
  rw [blockBase, blockBase, hdiv]

/-- The flags of `count` places from `base` on in one block. -/
theorem flag_add (hB : 0 < B) (hle : B ≤ 2 ^ w)
    (hblock : base + count ≤ blockBase B base + B) (hj : j < count) :
    (SizeT.bits w).add ((SizeT.bits w).sub (B - 1 - base % B) count) 1 + j =
      B - 1 - (base + count - 1 - j) % B := by
  have hbase := Nat.div_add_mod' base B
  rw [blockBase] at hblock
  have hmod : (base + count - 1 - j) % B = base % B + (count - 1 - j) := by
    rw [show base + count - 1 - j =
      base / B * B + (base % B + (count - 1 - j)) by omega,
      Nat.mul_comm, Nat.mul_add_mod]
    exact Nat.mod_eq_of_lt (by omega)
  rw [hmod, SizeT.sub, SizeT.add]
  simp only [SizeT.ofNat_bits]
  rcases Nat.lt_or_ge (B - 1 - base % B) count with hlt | hge
  · -- the flags begin with the first one
    rw [Nat.mod_eq_of_lt
        (show B - 1 - base % B + 2 ^ w - count < 2 ^ w by omega),
      show B - 1 - base % B + 2 ^ w - count + 1 = 2 ^ w by omega, Nat.mod_self]
    omega
  · rw [show B - 1 - base % B + 2 ^ w - count =
        B - 1 - base % B - count + 2 ^ w by omega, Nat.add_mod_right,
      Nat.mod_eq_of_lt (show B - 1 - base % B - count < 2 ^ w by omega),
      Nat.mod_eq_of_lt (by omega)]
    omega

end Words

/-! ## The counters -/

section Counters

variable [DecidableEq ι] {V : Orders} {w B : ℕ} {producer t : ι}
  {m : Moodycamel.Memory ι T} {m₁ m₁' : Memory ι T}

omit [DecidableEq ι] in
theorem erase_counted {max : ℕ} {pc : Moodycamel.Dequeue T}
    (hpc : ∀ first actual got, pc ≠ .read first actual got) :
    erase (counted (ι := ι) (complete w B) (.dequeue max pc)) =
      .dequeue max pc := by
  cases pc with
  | read first actual got => exact absurd rfl (hpc first actual got)
  | _ => rfl

/-- A thread after a step on the counters, of which an increment of `headIndex`
makes it owe the flags of what it claims. -/
structure Counted (w B : ℕ) (m : Moodycamel.Memory ι T) (e : Event T)
    (th : Moodycamel.Thread T) : Prop where
  erase_eq : erase (counted (ι := ι) (complete w B) th) = th
  atRest : AtRest (counted (ι := ι) (complete w B) th)
  clears : ∀ (q : Shared ofMap ι T) (t : ι),
    Clears B q t (counted (complete w B) th)
  takes : (∀ i, ¬Owes i (counted (ι := ι) (complete w B) th)) ∧ e.taken = 0 ∨
    ∃ max firstIndex, th = .dequeue max (.read firstIndex e.taken []) ∧
      m.newest .headIndex = some firstIndex

omit [DecidableEq ι] in
theorem counted_done {e : Event T} (he : e.taken = 0) (r : Res T) :
    Counted w B m e (.done r) :=
  ⟨rfl, trivial, fun _ _ => trivial, .inl ⟨fun _ hi => hi, he⟩⟩

omit [DecidableEq ι] in
theorem counted_dequeue {e : Event T} (he : e.taken = 0) (max : ℕ)
    {pc : Moodycamel.Dequeue T} (hpc : ∀ first actual got,
      pc ≠ .read first actual got) : Counted w B m e (.dequeue max pc) := by
  refine ⟨erase_counted hpc, ?_, fun q t => ?_, .inl ⟨fun i hi => ?_, he⟩⟩
  · cases pc <;> trivial
  · cases pc with
    | read first actual got => exact absurd rfl (hpc first actual got)
    | _ => trivial
  · cases pc with
    | read first actual got => exact hpc first actual got rfl
    | _ => exact hi

/-- Both memories after the step. -/
structure InStep (m m' : Moodycamel.Memory ι T) (m₁ m₁' : Memory ι T) :
    Prop where
  below : m'.Below .counter m₁'
  cells : m'.cells = m.cells
  quiet : Quiet m₁ m₁'
  wf : m₁'.WellFormed

theorem inStep_of_load (h : m.Below .counter m₁) (hwf : m.WellFormed)
    (hwf' : m₁.WellFormed) {o : MemoryOrder} {a : Moodycamel.Loc} {k v : ℕ}
    (hl : m₁.load t o (.counter a) k = some (v, m₁')) :
    ∃ m', m.load t o a k = some (v, m') ∧ InStep m m' m₁ m₁' := by
  obtain ⟨m', hl', hbelow⟩ := h.load hwf hwf' hl
  exact ⟨m', hl', hbelow, (ViewMemory.of_load hl').2.1,
    quiet_of_learned (ViewMemory.learned_of_load hl), hwf'.load hl⟩

theorem inStep_of_modify (h : m.Below .counter m₁) (hwf : m.WellFormed)
    (hwf' : m₁.WellFormed) {o : MemoryOrder} {a : Moodycamel.Loc} {f : ℕ → ℕ}
    {v : ℕ} (hl : m₁.modify t o (.counter a) f = some (v, m₁')) :
    ∃ m', m.modify t o a f = some (v, m') ∧ InStep m m' m₁ m₁' := by
  obtain ⟨m', hl', hbelow⟩ :=
    h.modify (fun _ _ => Loc.counter.inj) hwf hwf' hl
  have hw := ViewMemory.wrote_of_modify hl
  exact ⟨m', hl', hbelow, (ViewMemory.wrote_of_modify hl').cells,
    quiet_of_wrote hw, hw.wf hwf'⟩

theorem inStep_acquireFence (h : m.Below .counter m₁) (hwf : m.WellFormed)
    (hwf' : m₁.WellFormed) (heard : List (Moodycamel.Loc × ℕ)) :
    InStep m (m.acquireFence t heard) m₁
      (m₁.acquireFence t (heard.map (Prod.map .counter id))) := by
  have hl := ViewMemory.learned_acquireFence m₁ t
    (heard.map (Prod.map Loc.counter id))
  exact ⟨h.acquireFence hwf hwf' heard,
    (ViewMemory.learned_acquireFence m t heard).cells, quiet_of_learned hl,
    hl.wf hwf'⟩

/-- The steps on the counters are those without blocks. -/
theorem move_of_dequeueCount (h : m.Below .counter m₁) (hwf : m.WellFormed)
    (hwf' : m₁.WellFormed) {max : ℕ} {pc : Moodycamel.Dequeue T} {c : Choice T}
    {e : Event T} {th : Moodycamel.Thread T}
    (hstep : dequeueCount V w t m₁ max pc c = some (e, m₁', th)) :
    ∃ m', Move V w B producer t m (.dequeue max pc) e m' th ∧
      InStep m m' m₁ m₁' ∧ Counted w B m e th := by
  revert hstep
  fun_cases dequeueCount V w t m₁ max pc c <;> intro hstep
  case case1 k =>
    obtain ⟨⟨v, m''⟩, hl, heq⟩ := Option.map_eq_some_iff.mp hstep
    cases heq
    obtain ⟨m', hl', hin⟩ := inStep_of_load h hwf hwf' hl
    exact ⟨m', .load hl', hin, counted_dequeue rfl _ (by simp)⟩
  case case2 k =>
    obtain ⟨⟨v, m''⟩, hl, heq⟩ := Option.map_eq_some_iff.mp hstep
    cases heq
    obtain ⟨m', hl', hin⟩ := inStep_of_load h hwf hwf' hl
    exact ⟨m', .overcommit hl', hin, counted_dequeue rfl _ (by simp)⟩
  case case3 tail overcommit heard k =>
    obtain ⟨⟨v, m''⟩, hl, heq⟩ := Option.map_eq_some_iff.mp hstep
    cases heq
    obtain ⟨m', hl', hin⟩ := inStep_of_load h hwf hwf' hl
    refine ⟨m', .optimistic hl', hin, ?_⟩
    rw [asked]
    split
    · split_ifs
      · exact counted_dequeue rfl _ (by simp)
      · exact counted_dequeue rfl _ (by simp)
    · exact counted_done rfl _
  case case4 overcommit desired heard =>
    cases hstep
    exact ⟨_, .fence, inStep_acquireFence h hwf hwf' heard,
      counted_dequeue rfl _ (by simp)⟩
  case case5 overcommit desired =>
    obtain ⟨⟨v, m''⟩, hl, heq⟩ := Option.map_eq_some_iff.mp hstep
    cases heq
    obtain ⟨m', hl', hin⟩ := inStep_of_modify h hwf hwf' hl
    exact ⟨m', .draw hl', hin, counted_dequeue rfl _ (by simp)⟩
  case case6 overcommit desired my k =>
    obtain ⟨⟨v, m''⟩, hl, heq⟩ := Option.map_eq_some_iff.mp hstep
    cases heq
    obtain ⟨m', hl', hin⟩ := inStep_of_load h hwf hwf' hl
    refine ⟨m', .reload hl', hin, ?_⟩
    rw [checked]
    split_ifs
    · exact counted_dequeue rfl _ (by simp)
    · exact counted_dequeue rfl _ (by simp)
  case case7 overcommit desired my tail actual =>
    obtain ⟨⟨v, m''⟩, hl, heq⟩ := Option.map_eq_some_iff.mp hstep
    cases heq
    obtain ⟨m', hl', hin⟩ := inStep_of_modify h hwf hwf' hl
    refine ⟨m', .refund hl', hin, ?_⟩
    rw [refunded]
    split_ifs
    · exact counted_done rfl _
    · exact counted_dequeue rfl _ (by simp)
  case case8 actual =>
    obtain ⟨⟨v, m''⟩, hl, heq⟩ := Option.map_eq_some_iff.mp hstep
    cases heq
    obtain ⟨m', hl', hin⟩ := inStep_of_modify h hwf hwf' hl
    exact ⟨m', .take hl', hin, rfl, trivial, fun _ _ => rfl,
      .inr ⟨_, _, rfl, (ViewMemory.newest_of_modify hl').1⟩⟩
  all_goals cases hstep

end Counters

/-! ## The steps of a dequeue -/

section Steps

variable [DecidableEq ι] {w B : ℕ} {producer t : ι} {pub served : ℕ}
  {b : Moodycamel.State ι T} {s : State ofMap ι T}
  {max first actual base found : ℕ} {got : List (Option T)}

/-- A step on the counters. -/
theorem Refines.count (h : Refines B producer pub served b s)
    {pc : Moodycamel.Dequeue T} (hth : s.threads t = .dequeue max (.count pc))
    {e : Event T} {m' : Moodycamel.Memory ι T} {mem' : Memory ι T}
    {th : Moodycamel.Thread T} (hin : InStep b.shared m' s.shared.mem mem')
    (hcounted : Counted (ι := ι) w B b.shared e th)
    (hhead : b.shared.newest .headIndex = some served)
    (hle : served + e.taken ≤ made pub (s.threads producer)) :
    Refines B producer pub (served + e.taken) (b.move t m' th)
      (s.move t { s.shared with mem := mem' } (counted (complete w B) th)) := by
  have hrest : AtRest (s.threads t) := by
    rw [hth]
    trivial
  refine h.quiet hcounted.erase_eq hin.quiet hin.cells hin.below hin.wf
    (hrest.steady hcounted.atRest) (fun i hi => ?_) (Nat.le_add_right _ _) hle
    (hcounted.clears _ t)
    fun ht live' _ => hcounted.atRest.works_iff.mpr (h.rests hrest ht)
  · rcases hcounted.takes with ⟨hnone, -⟩ | ⟨max', first', rfl, hfirst⟩
    · exact absurd hi (hnone i)
    · rw [hhead] at hfirst
      obtain rfl := Option.some.inj hfirst
      exact .inr hi

/-- A step that changes what is shared neither for the counters nor for the
blocks. -/
theorem Refines.turn (h : Refines B producer pub served b s)
    {th : Moodycamel.Thread T} {th' : Thread ofMap ι T}
    (herase : erase th' = th)
    (hrest : AtRest (s.threads t)) (hrest' : AtRest th')
    (howes : ∀ i, Owes i th' → Owes i (s.threads t))
    (hle : served ≤ made pub (s.threads producer))
    (hclears : Clears B s.shared t th') :
    Refines B producer pub served (b.move t b.shared th)
      (s.move t s.shared th') :=
  h.quiet herase (quiet_of_learned (ViewMemory.learned_refl _ t)) rfl h.below
    h.wf (hrest.steady hrest') (fun i hi => .inl (howes i hi)) le_rfl hle
    hclears fun ht _ _ => hrest'.works_iff.mpr (h.rests hrest ht)

omit [DecidableEq ι] in
/-- The elements that are owed lie in their places. -/
theorem Refines.live (h : Refines B producer pub served b s)
    (hle : served ≤ made pub (s.threads producer)) {i : ℕ}
    (hi : Owes i (s.threads t)) : Live B producer pub served s.threads i :=
  ⟨((h.owes_lt t i hi).trans_le hle).trans_le h.storage.made_le,
    .inr ⟨t, hi⟩⟩

omit [DecidableEq ι] in
theorem Refines.place_ne (h : Refines B producer pub served b s)
    (hle : served ≤ made pub (s.threads producer)) {u : ι} {i j : ℕ}
    (hi : Owes i (s.threads t)) (hj : Owes j (s.threads u)) (hne : i ≠ j) :
    s.shared.place B i ≠ s.shared.place B j := fun heq =>
  hne (h.storage.apart i j (h.live hle hi) (h.live hle hj) heq)

/-- An element is moved out of its place. -/
theorem Refines.moveOut (h : Refines B producer pub served b s) {i : ℕ}
    {th : Moodycamel.Thread T} {th' : Thread ofMap ι T}
    (herase : erase th' = th)
    (hrest : AtRest (s.threads t)) (hrest' : AtRest th')
    (howes : Owes i (s.threads t)) (howes' : Owes i th')
    (hsub : ∀ j, Owes j th' → Owes j (s.threads t))
    (hle : served ≤ made pub (s.threads producer))
    (hclears : Clears B { s.shared with
      mem := s.shared.mem.write t (s.shared.place B i) none } t th') :
    Refines B producer pub served
      (b.move t (b.shared.write t i none) th)
      (s.move t { s.shared with
        mem := s.shared.mem.write t (s.shared.place B i) none } th') := by
  have hlive := h.live hle howes
  have hmade := (h.owes_lt t i howes).trans_le hle
  have hsteady : Steady B producer t pub pub (s.threads t) th' :=
    hrest.steady hrest'
  have hsub' := fun j hj => Or.inl (b := served ≤ j) (hsub j hj)
  have hlive_le := fun j => hsteady.live_le { s.shared with
    mem := s.shared.mem.write t (s.shared.place B i) none } hsub'
    (le_refl served) (i := j)
  have hplace : ∀ place, (∀ j, Live B producer pub served s.threads j →
      s.shared.place B j ≠ place) → place ≠ s.shared.place B i :=
    fun _ hp => (hp i hlive).symm
  refine h.assemble herase h.below.access h.wf.write ?_ le_rfl
    (fun j hj => h.owes_lt t j (hsub j hj))
    (fun u j hu hj hj' => hu (h.apart u t j hj' (hsub j hj))) hclears
    (fun _ => ViewMemory.le_write) (fun u j hu hj => ⟨rfl, ?_⟩)
    (h.works_move hsteady ⟨rfl, rfl, hlive_le, ViewMemory.le_write,
      fun place hp => ViewMemory.write_cells_of_ne (hplace place hp),
      fun _ _ _ hmsg => hmsg⟩ (fun _ _ _ => rfl)
      fun ht => hrest'.works_iff.mpr (h.rests hrest ht))
  · have hstored := h.stored { s.shared with
      mem := s.shared.mem.write t (s.shared.place B i) none } hsteady hsub'
      le_rfl hle
    rw [← hsteady.made_eq] at hmade
    refine hstored.write ⟨?_, .inr ⟨t, ?_⟩⟩ hmade le_rfl hstored.made_le
      (fun _ hj _ => hj) (h.below.write_cells ?_ none) fun j hj =>
        ViewMemory.write_cells_of_ne hj
    · rw [hsteady.opened_eq]
      exact hlive.1
    · rwa [Pool.move_threads_self]
    · exact h.storage.cells i hlive (hsteady.made_eq ▸ hmade)
  · refine ViewMemory.write_cells_of_ne (h.place_ne hle hj howes ?_)
    rintro rfl
    exact hu (h.apart u t j hj howes)

/-- The block of the first element is found. -/
theorem Refines.locate (h : Refines B producer pub served b s) {search : ℕ}
    (hth : s.threads t = .dequeue max (.locate first actual search))
    (hle : served ≤ made pub (s.threads producer))
    (hfound : found = (s.shared.place B search).1) :
    Refines B producer pub served b (s.move t s.shared
      (.dequeue max (.read first actual [] first found))) := by
  have hsearch := h.clears t
  rw [hth] at hsearch
  obtain rfl : search = first := hsearch
  have hclears : Clears B s.shared t
      (.dequeue max (.read search actual [] search found)) :=
    ⟨Nat.zero_le _, le_rfl, rfl, fun _ => hfound,
      fun i hi hlt => absurd (hi.trans_lt hlt) (lt_irrefl _)⟩
  refine (h.turn ?_ ?_ ?_ (fun i hi => ?_) hle hclears).silent
  · rw [h.threads, hth]
    rfl
  · rw [hth]
    trivial
  · trivial
  · rw [hth]
    exact hi

omit [DecidableEq ι] in
/-- The next element lies in the block that has been found. -/
theorem Refines.read_place (h : Refines B producer pub served b s)
    (hth : s.threads t = .dequeue max (.read first actual got base found))
    (hlt : got.length < actual) :
    s.shared.place B (first + got.length) =
      (found, (first + got.length) % B) := by
  have hclears := h.clears t
  rw [hth] at hclears
  obtain ⟨-, hbase, hblock, hfound, -⟩ := hclears
  rw [hfound (by omega), Shared.place, Shared.place, hblock]

/-- The next element is moved out. -/
theorem Refines.read (h : Refines B producer pub served b s) (hB : 0 < B)
    (hth : s.threads t = .dequeue max (.read first actual got base found))
    (hlt : got.length < actual)
    (hle : served ≤ made pub (s.threads producer))
    (hsafe : b.shared.WriteSafe t (first + got.length)) {place : ℕ × ℕ}
    (hplace : s.shared.place B (first + got.length) = place)
    {mem : Memory ι T} (hmem : s.shared.mem.write t place none = mem)
    {got' : List (Option T)}
    (hgot : got ++ [(s.shared.mem.cells place).data] = got') :
    Refines B producer pub served
      (b.move t (b.shared.write t (first + got.length) none) (.dequeue max
        (.read first actual
          (got ++ [(b.shared.cells (first + got.length)).data]))))
      (s.move t { s.shared with mem := mem } (.dequeue max
        (if got'.length < actual ∧ ¬B ∣ first + got.length + 1
          then .read first actual got' base found
          else .setManyEmpty first actual got' base found (mem.view t)
            0))) := by
  have hclears := h.clears t
  rw [hth] at hclears
  obtain ⟨-, hbase, hblock, hfound, hcovered⟩ := hclears
  have howes : Owes (first + got.length) (s.threads t) := by
    rw [hth]
    exact ⟨hbase, by omega⟩
  have hrest : AtRest (s.threads t) := by
    rw [hth]
    trivial
  have hlen : got'.length = got.length + 1 := by simp [← hgot]
  have hcell := h.storage.cells _ (h.live hle howes)
    ((h.owes_lt t _ howes).trans_le hle)
  rw [← hcell, hplace, hgot]
  -- it knows of all accesses to the places it has emptied
  have hcovered' : ∀ j, base ≤ j → j < first + (got.length + 1) →
      mem.Covered (s.shared.place B j) (mem.view t) := by
    subst hplace hmem
    intro j hj hlt'
    by_cases heq : j = first + got.length
    · subst heq
      exact ViewMemory.Covered.write
        (ViewMemory.Below.covered (h.below.view t) hcell hsafe) none
    · have hj' : Owes j (s.threads t) := by
        rw [hth]
        exact ⟨hj, by omega⟩
      exact covered_congr (hcovered j hj (by omega))
        (ViewMemory.write_cells_of_ne (h.place_ne hle hj' howes heq))
        ViewMemory.le_write
  subst hplace hmem
  split_ifs with hnext
  · have hclears' : Clears B { s.shared with
        mem := s.shared.mem.write t (s.shared.place B (first + got.length))
          none } t (.dequeue max (.read first actual got' base found)) := by
      refine ⟨by omega, by omega, ?_, hfound, hlen ▸ hcovered'⟩
      rw [hlen, ← Nat.add_assoc, blockBase_succ, if_neg hnext.2, Nat.add_zero,
        hblock]
    refine h.moveOut rfl hrest ?_ howes ?_ (fun j hj => ?_) hle hclears'
    · trivial
    · exact ⟨hbase, by omega⟩
    · rw [hth]
      exact hj
  · have hclears' : Clears B { s.shared with
        mem := s.shared.mem.write t (s.shared.place B (first + got.length))
          none } t (.dequeue max (.setManyEmpty first actual got' base found
            ((s.shared.mem.write t (s.shared.place B (first + got.length))
              none).view t) 0)) := by
      refine ⟨by omega, by omega, ?_, fun _ => hfound (by omega),
        View.le_refl _, hlen ▸ hcovered'⟩
      rw [hlen, ← hblock]
      exact lt_blockBase hB _
    refine h.moveOut rfl hrest ?_ howes ?_ (fun j hj => ?_) hle hclears'
    · trivial
    · exact ⟨hbase, by omega, by omega⟩
    · rw [hth]
      exact ⟨hj.1, hj.2.1⟩

/-- The flag of an element is set. -/
theorem Refines.setFlag (h : Refines B producer pub served b s) (hB : 0 < B)
    {i : ℕ} {th : Moodycamel.Thread T} {th' : Thread ofMap ι T}
    (herase : erase th' = th) (hrest : AtRest (s.threads t))
    (hrest' : AtRest th') (howes : Owes i (s.threads t)) (howes' : ¬Owes i th')
    (hsub : ∀ j, Owes j th' → Owes j (s.threads t))
    (hle : served ≤ made pub (s.threads producer)) {fenced : View Loc ι}
    (hfenced : fenced ≤ s.shared.mem.view t)
    (hcovered : s.shared.mem.Covered (s.shared.place B i) fenced)
    (hclears : Clears B { s.shared with
      mem := storeFenced s.shared.mem t fenced
        (flagOf B (s.shared.place B i)) 1 } t th') :
    Refines B producer pub served (b.move t b.shared th)
      (s.move t { s.shared with
        mem := storeFenced s.shared.mem t fenced
          (flagOf B (s.shared.place B i)) 1 } th') := by
  have hlive := h.live hle howes
  have hsteady : Steady B producer t pub pub (s.threads t) th' :=
    hrest.steady hrest'
  have hsub' := fun j hj => Or.inl (b := served ≤ j) (hsub j hj)
  have hlive_le := fun j => hsteady.live_le { s.shared with
    mem := storeFenced s.shared.mem t fenced
      (flagOf B (s.shared.place B i)) 1 } hsub' (le_refl served) (i := j)
  have hsnd : ∀ j, (s.shared.place B j).2 < B := fun j => place_snd_lt hB j
  refine h.assemble herase (h.below.post_right fun a => by simp [flagOf])
    (h.wf.post ?_) ?_ le_rfl (fun j hj => h.owes_lt t j (hsub j hj))
    (fun u j hu hj hj' => hu (h.apart u t j hj' (hsub j hj))) hclears
    (fun _ => ViewMemory.le_post) (fun _ _ _ _ => ⟨rfl, rfl⟩)
    (h.works_move hsteady ⟨rfl, rfl, hlive_le, ViewMemory.le_post,
      fun _ _ => rfl, fun a k msg hmsg => ?_⟩ (fun place hplace hp => ?_)
      fun ht => hrest'.works_iff.mpr (h.rests hrest ht))
  · exact View.sup_le View.le_sup_right (View.le_trans
      (View.le_trans hfenced (h.wf.view_le t)) View.le_sup_left)
  · refine (h.stored _ hsteady hsub' le_rfl hle).post hB (hsnd i)
      (fun j hj heq => absurd ?_ howes') fun _ => ?_
    · -- the index does not own its place any more
      obtain rfl := h.storage.apart j i (hlive_le j hj) hlive heq
      rcases hj.2 with hge | ⟨u, hu⟩
      · exact absurd (h.owes_lt t j howes) (by omega)
      · by_cases hut : u = t
        · subst hut
          rwa [Pool.move_threads_self] at hu
        · rw [Pool.move_threads_of_ne _ _ _ hut] at hu
          exact absurd (h.apart u t j hu howes) hut
    · refine hcovered.mono (View.le_trans ?_ View.le_sup_right)
      exact View.le_sup_right
  · by_cases ha : a = flagOf B (s.shared.place B i)
    · subst ha
      change ((s.shared.mem.post t _ _).msgs _)[k]? = _
      rw [ViewMemory.post_msgs_self]
      rw [List.getElem?_append_left (List.getElem?_eq_some_iff.mp hmsg).1]
      exact hmsg
    · change ((s.shared.mem.post t _ _).msgs _)[k]? = _
      rwa [ViewMemory.post_msgs_of_ne ha]
  · refine ViewMemory.post_msgs_of_ne fun heq => ?_
    exact hp i hlive (flagOf_inj hplace (hsnd i) heq).symm

/-- The flags of a block are set from that of its last element on. -/
theorem Refines.setManyEmpty (h : Refines B producer pub served b s)
    (hB : 0 < B) (hfit : B ≤ 2 ^ w) {fenced : View Loc ι} {j count : ℕ}
    (hth : s.threads t =
      .dequeue max (.setManyEmpty first actual got base found fenced j))
    (hcount : base + count = first + got.length) (hj : j < count)
    (hle : served ≤ made pub (s.threads producer)) {i : ℕ}
    (hi : (SizeT.bits w).add ((SizeT.bits w).sub (B - 1 - base % B) count) 1 =
      i) :
    Refines B producer pub served b
      (s.move t { s.shared with
        mem := storeFenced s.shared.mem t fenced
          (.emptyFlag found (i + j)) 1 }
        (.dequeue max
          (.setManyEmpty first actual got base found fenced (j + 1)))) := by
  subst hi
  have hclears := h.clears t
  rw [hth] at hclears
  obtain ⟨hgot, -, hblock, hfound, hfenced, hcovered⟩ := hclears
  have hrest : AtRest (s.threads t) := by
    rw [hth]
    trivial
  have howes : Owes (base + count - 1 - j) (s.threads t) := by
    rw [hth]
    exact ⟨by omega, by omega, .inl (by omega)⟩
  have hflag : Loc.emptyFlag found
      ((SizeT.bits w).add ((SizeT.bits w).sub (B - 1 - base % B) count) 1 +
        j) = flagOf B (s.shared.place B (base + count - 1 - j)) := by
    rw [hfound (by omega)]
    have hbase := blockBase_eq (B := B) (i := base + count - 1 - j)
      (show base ≤ base + count - 1 - j by omega) (by omega)
    rw [flagOf, Shared.place, Shared.place, hbase]
    exact congrArg _ (flag_add hB hfit (hcount ▸ hblock) hj)
  rw [hflag]
  have hclears' : Clears B { s.shared with
      mem := storeFenced s.shared.mem t fenced
        (flagOf B (s.shared.place B (base + count - 1 - j))) 1 } t
      (.dequeue max
        (.setManyEmpty first actual got base found fenced (j + 1))) :=
    ⟨hgot, by omega, hblock, fun _ => hfound (by omega),
      View.le_trans hfenced ViewMemory.le_post,
      fun x hx hlt => hcovered x hx (by omega)⟩
  refine (h.setFlag hB ?_ hrest ?_ howes ?_ (fun x hx => ?_) hle hfenced
    (hcovered _ (by omega) (by omega)) hclears').silent
  · rw [h.threads, hth]
    rfl
  · trivial
  · rintro ⟨-, -, hx | hx⟩ <;> omega
  · obtain ⟨hx, hlt, hor⟩ := hx
    rw [hth]
    exact ⟨hx, hlt, hor.imp_left (by omega)⟩

/-- All flags of a block are set, and the next block begins if there is one. -/
theorem Refines.nextBlock (h : Refines B producer pub served b s)
    {fenced : View Loc ι} {j : ℕ}
    (hth : s.threads t =
      .dequeue max (.setManyEmpty first actual got base found fenced j))
    (hle : served ≤ made pub (s.threads producer)) {next : ℕ}
    (hnext : next = (s.shared.place B (first + got.length)).1) :
    Refines B producer pub served b (s.move t s.shared (.dequeue max
      (.read first actual got (first + got.length) next))) := by
  have hclears := h.clears t
  rw [hth] at hclears
  obtain ⟨hgot, hbase, -⟩ := hclears
  have hclears' : Clears B s.shared t
      (.dequeue max (.read first actual got (first + got.length) next)) :=
    ⟨hgot, le_rfl, rfl, fun _ => hnext, fun i hi hlt => absurd hi (by omega)⟩
  refine (h.turn ?_ ?_ ?_ (fun i hi => ?_) hle hclears').silent
  · rw [h.threads, hth]
    rfl
  · rw [hth]
    trivial
  · trivial
  · obtain ⟨hi, hlt⟩ := hi
    rw [hth]
    exact ⟨by omega, hlt, .inr hi⟩

end Steps

end Explicit
end Moodycamel
end ConcurrentQueues
