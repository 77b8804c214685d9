import ConcurrentQueues.Atomic.Single
import ConcurrentQueues.Support.Overtaking

/-!
# When `AtomicQueue` is a FIFO queue

With two slots or more, two threads at one end can hold tickets for the same
slot, one of them a lap ahead, and nothing decides which of them comes first.  A
push that is a lap ahead puts its element where the next pop looks, and a pop
that is a lap ahead takes the element of an earlier ticket.  Neither needs a
relaxed load that sees an old value.
-/

namespace ConcurrentQueues

universe v

namespace AtomicQueue

open Fifo

variable {ι : Type v} {V : Variant}

/-! ## The counters of a short run -/

/-- A queue with read-modify-writes and two slots or more, whose tickets name the
slots in turn, and whose size is in the range of `int`. -/
structure Variant.Regular (V : Variant) : Prop where
  spsc : V.spsc = false
  laps : V.layout.Laps
  two_le : 2 ≤ V.layout.size
  signed_eq : V.width.signed V.layout.size = V.layout.size

section Counters

variable {a b : ℕ}

/-- Half the range of `unsigned` is above the size. -/
theorem fits_of_le (hn : 2 ≤ V.layout.size)
    (hsize : V.width.signed V.layout.size = V.layout.size)
    (ha : a ≤ V.layout.size + 1) : V.width.Fits a := by
  cases hw : V.width with
  | unbounded => rfl
  | bits w =>
      rw [hw, SizeT.signed] at hsize
      have hpos := Nat.two_pow_pos w
      split_ifs at hsize with hlt
      · rw [SizeT.fits_bits]
        cases w with
        | zero => simp at hlt; omega
        | succ w =>
            rw [Nat.add_sub_cancel] at hlt
            rw [pow_succ]
            omega
      · omega

theorem dif_eq (hn : 2 ≤ V.layout.size)
    (hsize : V.width.signed V.layout.size = V.layout.size)
    (ha : a ≤ V.layout.size + 1) (hba : b ≤ a)
    (hle : a - b ≤ V.layout.size) :
    V.dif (V.width.ofNat a) (V.width.ofNat b) = (a - b : ℕ) := by
  have hfits := fits_of_le hn hsize ha
  rw [hfits, hfits.mono hba]
  cases hw : V.width with
  | unbounded =>
      simp only [Variant.dif, hw]
      omega
  | bits w =>
      rw [hw] at hsize hfits
      simp only [Variant.dif, hw]
      rw [SizeT.sub_of_fits hfits hba]
      simp only [SizeT.signed] at hsize ⊢
      have hpos := Nat.two_pow_pos w
      split_ifs at hsize ⊢ <;> omega

/-- A `try_push` is not refused while there are fewer tickets out than slots. -/
theorem not_refuses_push (hn : 2 ≤ V.layout.size)
    (hsize : V.width.signed V.layout.size = V.layout.size)
    (ha : a ≤ V.layout.size + 1) (hba : b ≤ a)
    (hlt : a - b < V.layout.size) :
    ¬V.Refuses (V.width.ofNat a) (V.width.ofNat b) .push := by
  rw [Variant.Refuses, dif_eq hn hsize ha hba hlt.le, hsize]
  omega

/-- A `try_pop` is not refused while a push is ahead. -/
theorem not_refuses_pop (hn : 2 ≤ V.layout.size)
    (hsize : V.width.signed V.layout.size = V.layout.size)
    (ha : a ≤ V.layout.size + 1) (hba : b < a)
    (hle : a - b ≤ V.layout.size) :
    ¬V.Refuses (V.width.ofNat b) (V.width.ofNat a) .pop := by
  rw [Variant.Refuses, dif_eq hn hsize ha hba.le hle]
  omega

namespace Variant.Regular

variable (hV : V.Regular)

include hV

theorem slotOf_eq_iff (ha : a ≤ V.layout.size + 1)
    (hb : b ≤ V.layout.size + 1) :
    V.slotOf a = V.slotOf b ↔ a % V.layout.size = b % V.layout.size := by
  rw [Variant.slotOf, Variant.slotOf, Layout.slotOf, Layout.slotOf, hV.laps,
    fits_of_le hV.two_le hV.signed_eq ha, fits_of_le hV.two_le hV.signed_eq hb]

theorem slotOf_ne (ha : a < V.layout.size) (hb : b < V.layout.size)
    (hne : a ≠ b) : V.slotOf a ≠ V.slotOf b := by
  rw [Ne, hV.slotOf_eq_iff (by omega) (by omega), Nat.mod_eq_of_lt ha,
    Nat.mod_eq_of_lt hb]
  exact hne

/-- The ticket one lap after the first. -/
theorem slotOf_size : V.slotOf V.layout.size = V.slotOf 0 := by
  rw [hV.slotOf_eq_iff (by omega) (by omega), Nat.mod_self, Nat.zero_mod]

end Variant.Regular

/-- So many tickets have been dealt out. -/
def tickets (i j : ℕ) : End → ℕ
  | .push => i
  | .pop => j

theorem tickets_push (i j : ℕ) :
    Function.update (tickets i j) .push (i + 1) = tickets (i + 1) j := by
  funext e
  cases e <;> rfl

theorem tickets_pop (i j : ℕ) :
    Function.update (tickets i j) .pop (j + 1) = tickets i (j + 1) := by
  funext e
  cases e <;> rfl

end Counters

/-! ## Calls that see the newest values -/

/-- The other end. -/
def End.opposite : End → End
  | .push => .pop
  | .pop => .push

theorem other_eq (e : End) : e.other = e.opposite.own := by
  cases e <;> rfl

/-- The newest values of the counters and the slots. -/
structure Ready (V : Variant) (mem : Memory ι) (cl : End → ℕ) (σ : ℕ → ℕ) :
    Prop where
  wf : mem.WellFormed
  counter : ∀ e : End, mem.newest e.own = some (V.width.ofNat (cl e))
  slot : ∀ c, mem.newest (.element c) = some (σ c)

/-- Some run that callers see as `hist` leads to this state. -/
def Reaches [DecidableEq ι] (V : Variant) (may : ι → End → Bool)
    (hist : List (ι × Act (Op ℕ) (Res ℕ))) (mem : Memory ι) (th : ι → Thread) :
    Prop :=
  ∃ tr, (system V may).Run tr ⟨mem, th⟩ ∧ tr.filterMap shows = hist

section Calls

variable [DecidableEq ι] {may : ι → End → Bool}
  {hist : List (ι × Act (Op ℕ) (Res ℕ))} {mem mem' : Memory ι}
  {th : ι → Thread} {t : ι} {op : Op ℕ} {e : Event} {th' : Thread}
  {cl : End → ℕ} {σ : ℕ → ℕ} {o : MemoryOrder} {x own : ℕ}

theorem reaches_init :
    Reaches V may [] (Memory.new V.NIL : Memory ι) fun _ => .idle :=
  ⟨[], .init, rfl⟩

omit [DecidableEq ι] in
theorem ready_init :
    Ready V (Memory.new V.NIL : Memory ι) (tickets 0 0) fun _ => V.NIL where
  wf := ViewMemory.wellFormed_init
  counter e := by
    cases e <;> cases hS : V.width <;> simp [Memory.new, End.own, tickets,
      ViewMemory.newest_init, SizeT.ofNat]
  slot _ := ViewMemory.newest_init

theorem Reaches.move (h : Reaches V may hist mem th)
    (hmove : Move V t (may t) mem (th t) e mem' th') :
    Reaches V may (hist ++ (shows (t, e)).toList) mem'
      (Function.update th t th') := by
  obtain ⟨tr, hrun, rfl⟩ := h
  obtain ⟨c, hc⟩ := moves_iff.mpr hmove
  refine ⟨_, hrun.tail (a := (t, e)) ⟨c, mem', th', hc, rfl⟩, ?_⟩
  rw [List.filterMap_append]
  cases hshows : shows (t, e) <;> simp [hshows]

/-- A move of the thread that has just moved. -/
theorem Reaches.moves {th₁ : Thread}
    (h : Reaches V may hist mem (Function.update th t th₁))
    (hmove : Move V t (may t) mem th₁ e mem' th') :
    Reaches V may (hist ++ (shows (t, e)).toList) mem'
      (Function.update th t th') := by
  have hnext := h.move (t := t) (by rwa [Function.update_self])
  rwa [Function.update_idem] at hnext

/-- A move that is not seen. -/
theorem Reaches.silent {th₁ : Thread}
    (h : Reaches V may hist mem (Function.update th t th₁))
    (hmove : Move V t (may t) mem th₁ .inner mem' th') :
    Reaches V may hist mem' (Function.update th t th') := by
  have hnext := h.moves hmove
  rwa [show (shows (t, Event.inner)).toList = [] from rfl,
    List.append_nil] at hnext

theorem Ready.exists_load (h : Ready V mem cl σ) (t : ι) (o : MemoryOrder)
    {a : Loc} {v : ℕ} (hnewest : mem.newest a = some v) :
    ∃ k mem', mem.load t o a k = some (v, mem') ∧ Ready V mem' cl σ := by
  obtain ⟨msg, hlast, rfl⟩ := ViewMemory.newest_eq_some_iff.mp hnewest
  obtain ⟨k, mem', hload⟩ := h.wf.load_newest t o hlast
  exact ⟨k, mem', hload, h.wf.load hload,
    fun e => (ViewMemory.newest_of_load hload).trans (h.counter e),
    fun c => (ViewMemory.newest_of_load hload).trans (h.slot c)⟩

theorem own_injective : Function.Injective End.own := by
  intro e e' h
  cases e <;> cases e' <;> first | rfl | cases h

omit [DecidableEq ι] in
/-- The counters after a ticket was taken. -/
theorem Ready.count (h : Ready V mem cl σ) {f : End}
    (hwrote : mem.Wrote mem' t f.own
      (V.width.add (V.width.ofNat (cl f)) 1)) :
    Ready V mem' (Function.update cl f (cl f + 1)) σ where
  wf := hwrote.wf h.wf
  counter e := by
    by_cases he : e = f
    · subst he
      rw [hwrote.newest_self, Function.update_self, add_ofNat]
    · rw [hwrote.newest_of_ne fun heq => he (own_injective heq),
        Function.update_of_ne he]
      exact h.counter e
  slot c := (hwrote.newest_of_ne (own_ne f c)).trans (h.slot c)

omit [DecidableEq ι] in
/-- The slots after a store to one of them. -/
theorem Ready.fill (h : Ready V mem cl σ) {c v : ℕ}
    (hwrote : mem.Wrote mem' t (.element c) v) :
    Ready V mem' cl (Function.update σ c v) where
  wf := hwrote.wf h.wf
  counter e := (hwrote.newest_of_ne (own_ne e c).symm).trans (h.counter e)
  slot c' := by
    by_cases hc : c' = c
    · subst hc
      rw [hwrote.newest_self, Function.update_self]
    · rw [hwrote.newest_of_ne (element_ne hc), Function.update_of_ne hc]
      exact h.slot c'

/-- A call begins. -/
theorem Reaches.call (h : Reaches V may hist mem th) (hidle : th t = .idle)
    (hmay : may t (endOf op)) (hitem : op.item? ≠ some V.NIL) :
    Reaches V may (hist ++ [(t, .call op)]) mem
      (Function.update th t (.run op (V.enter op))) := by
  have hmove : Move V t (may t) mem (th t) (.call op) mem
      (.run op (V.enter op)) := by
    rw [hidle]
    exact .call hmay hitem
  exact h.move hmove

/-- A ticket is taken unseen. -/
theorem Reaches.ticket {th₁ : Thread} {f : End}
    (h : Reaches V may hist mem (Function.update th t th₁))
    (hmove : Move V t (may t) mem th₁ (.claim f) mem' th') :
    Reaches V may hist mem' (Function.update th t th') := by
  have hnext := h.moves hmove
  rwa [show (shows (t, Event.claim f)).toList = [] from rfl,
    List.append_nil] at hnext

/-- A `push` or `pop` takes the next ticket. -/
theorem Reaches.claim (h : Reaches V may hist mem th) (op : Op ℕ)
    (hidle : th t = .idle) (hready : Ready V mem cl σ) (hspsc : V.spsc = false)
    (hmay : may t (endOf op)) (hitem : op.item? ≠ some V.NIL)
    (hroom : ¬V.Refuses (V.width.ofNat (cl (endOf op)))
      (V.width.ofNat (cl (endOf op).opposite)) (endOf op)) :
    ∃ mem', Reaches V may (hist ++ [(t, .call op)]) mem'
        (Function.update th t
          (.run op (.slot (V.width.ofNat (cl (endOf op)))))) ∧
      Ready V mem'
        (Function.update cl (endOf op) (cl (endOf op) + 1)) σ := by
  have hcall := h.call hidle hmay hitem
  have hcounter := hready.counter (endOf op)
  by_cases hopt : V.Optimistic op
  · rw [Variant.enter, if_pos ⟨hopt, by simp [hspsc]⟩] at hcall
    obtain ⟨msg, hlast, hval⟩ := ViewMemory.newest_eq_some_iff.mp hcounter
    have hmod : mem.modify t V.memoryOrder (endOf op).own
        (V.width.add · 1) = some (V.width.ofNat (cl (endOf op)), _) :=
      ViewMemory.modify_eq_some_iff.mpr ⟨msg, hlast, hval, rfl⟩
    exact ⟨_, hcall.ticket (.fetch hmod),
      hready.count (ViewMemory.wrote_of_modify (f := (V.width.add · 1)) hmod)⟩
  · rw [Variant.enter, if_neg fun hboth => hopt hboth.1] at hcall
    obtain ⟨k₁, m₁, hload₁, hready₁⟩ := hready.exists_load t .relaxed hcounter
    have hloaded := hcall.silent (.load hload₁)
    rw [Variant.loaded, if_neg hopt] at hloaded
    have hother := hready₁.counter (endOf op).opposite
    rw [← other_eq] at hother
    obtain ⟨k₂, m₂, hload₂, hready₂⟩ := hready₁.exists_load t .relaxed hother
    have hchecked := hloaded.silent (.check hload₂)
    rw [Variant.checked, if_neg hroom] at hchecked
    obtain ⟨msg, hlast, hval⟩ :=
      ViewMemory.newest_eq_some_iff.mp (hready₂.counter (endOf op))
    have hcas : m₂.compareExchange t .relaxed (endOf op).own
        (V.width.ofNat (cl (endOf op)))
        (V.width.add (V.width.ofNat (cl (endOf op))) 1) = some _ :=
      ViewMemory.compareExchange_eq_some_iff.mpr ⟨msg, hlast, hval, rfl⟩
    exact ⟨_, hchecked.ticket (.claim hspsc hcas),
      hready₂.count (ViewMemory.wrote_of_compareExchange hcas)⟩

/-- A push that holds a ticket puts its element into a free slot. -/
theorem Reaches.put
    (h : Reaches V may hist mem
      (Function.update th t (.run (.push x) (.slot own))))
    (hready : Ready V mem cl σ) (hspsc : V.spsc = false)
    (hfree : σ (V.layout.slot own) = V.NIL) :
    ∃ mem', Reaches V may (hist ++ [(t, .ret (.pushed true))]) mem'
        (Function.update th t .idle) ∧
      Ready V mem' cl (Function.update σ (V.layout.slot own) x) := by
  obtain ⟨msg, hlast, hval⟩ := ViewMemory.newest_eq_some_iff.mp
    ((hready.slot (V.layout.slot own)).trans (congrArg some hfree))
  have hcas : mem.compareExchange t .release (V.place own) V.NIL x = some _ :=
    ViewMemory.compareExchange_eq_some_iff.mpr ⟨msg, hlast, hval, rfl⟩
  have hput := h.moves (.exchangePush rfl hspsc hcas)
  rw [show (shows (t, Event.put x)).toList = [] from rfl,
    List.append_nil] at hput
  exact ⟨_, hput.moves .ret,
    hready.fill (ViewMemory.wrote_of_compareExchange hcas)⟩

/-- A pop that holds a ticket takes what is in its slot. -/
theorem Reaches.take
    (h : Reaches V may hist mem
      (Function.update th t (.run .pop (.slot own))))
    (hready : Ready V mem cl σ) (hspsc : V.spsc = false)
    (hfull : σ (V.layout.slot own) = x) (hx : x ≠ V.NIL) :
    ∃ mem', Reaches V may (hist ++ [(t, .ret (.popped (some x)))]) mem'
        (Function.update th t .idle) ∧
      Ready V mem' cl (Function.update σ (V.layout.slot own) V.NIL) := by
  obtain ⟨msg, hlast, hval⟩ := ViewMemory.newest_eq_some_iff.mp
    ((hready.slot (V.layout.slot own)).trans (congrArg some hfull))
  have hmod : mem.modify t .acquire (V.place own) (fun _ => V.NIL) =
      some (x, _) :=
    ViewMemory.modify_eq_some_iff.mpr ⟨msg, hlast, hval, rfl⟩
  have htake := h.moves (.exchangePop rfl hspsc hmod)
  have hadmits : V.Admits x .pop := hx
  rw [Variant.exchanged, if_pos hadmits,
    show (shows (t, Event.take x)).toList = [] from rfl,
    List.append_nil] at htake
  exact ⟨_, htake.moves .ret, hready.fill (ViewMemory.wrote_of_modify hmod)⟩

omit [DecidableEq ι] in
theorem append_serial (hist : List (ι × Act (Op ℕ) (Res ℕ))) (t : ι)
    (op : Op ℕ) (r : Res ℕ) : hist ++ [(t, .call op)] ++ [(t, .ret r)] =
      hist ++ SeqObject.serial [(t, op, r)] := by
  rw [List.append_assoc]
  rfl

/-- A push with room takes its ticket. -/
theorem Reaches.claim_push {i j : ℕ} (hV : V.Regular)
    (h : Reaches V may hist mem th) (hidle : th t = .idle)
    (hready : Ready V mem (tickets i j) σ) (hmay : may t .push)
    (hx : x ≠ V.NIL) (hi : i ≤ V.layout.size + 1) (hji : j ≤ i)
    (hroom : i - j < V.layout.size) :
    ∃ mem', Reaches V may (hist ++ [(t, .call (.push x))]) mem'
        (Function.update th t
          (.run (.push x) (.slot (V.width.ofNat i)))) ∧
      Ready V mem' (tickets (i + 1) j) σ := by
  obtain ⟨mem', hclaim, hready'⟩ := h.claim (.push x) hidle hready
    hV.spsc hmay (fun heq => hx (Option.some.inj heq))
    (not_refuses_push hV.two_le hV.signed_eq hi hji hroom)
  exact ⟨mem', hclaim, tickets_push i j ▸ hready'⟩

theorem Reaches.claim_pop {i j : ℕ} (hV : V.Regular)
    (h : Reaches V may hist mem th) (hidle : th t = .idle)
    (hready : Ready V mem (tickets i j) σ) (hmay : may t .pop)
    (hi : i ≤ V.layout.size + 1) (hji : j < i)
    (hle : i - j ≤ V.layout.size) :
    ∃ mem', Reaches V may (hist ++ [(t, .call .pop)]) mem'
        (Function.update th t (.run .pop (.slot (V.width.ofNat j)))) ∧
      Ready V mem' (tickets i (j + 1)) σ := by
  obtain ⟨mem', hclaim, hready'⟩ := h.claim .pop hidle hready
    hV.spsc hmay nofun (not_refuses_pop hV.two_le hV.signed_eq hi hji hle)
  exact ⟨mem', hclaim, tickets_pop i j ▸ hready'⟩

/-- A push that is not interrupted. -/
theorem Reaches.push {i j : ℕ} (hV : V.Regular)
    (h : Reaches V may hist mem th) (hidle : th t = .idle)
    (hready : Ready V mem (tickets i j) σ) (hmay : may t .push)
    (hx : x ≠ V.NIL) (hi : i ≤ V.layout.size + 1) (hji : j ≤ i)
    (hroom : i - j < V.layout.size) (hfree : σ (V.slotOf i) = V.NIL) :
    ∃ mem', Reaches V may
        (hist ++ SeqObject.serial [(t, .push x, .pushed true)]) mem' th ∧
      Ready V mem' (tickets (i + 1) j)
        (Function.update σ (V.slotOf i) x) := by
  obtain ⟨m₁, hclaim, hready₁⟩ :=
    h.claim_push hV hidle hready hmay hx hi hji hroom
  obtain ⟨m₂, hput, hready₂⟩ := hclaim.put hready₁ hV.spsc hfree
  rw [append_serial, ← hidle, Function.update_eq_self] at hput
  exact ⟨m₂, hput, hready₂⟩

/-- A pop that is not interrupted. -/
theorem Reaches.pop {i j : ℕ} (hV : V.Regular)
    (h : Reaches V may hist mem th) (hidle : th t = .idle)
    (hready : Ready V mem (tickets i j) σ) (hmay : may t .pop)
    (hx : x ≠ V.NIL) (hi : i ≤ V.layout.size + 1) (hji : j < i)
    (hle : i - j ≤ V.layout.size) (hfull : σ (V.slotOf j) = x) :
    ∃ mem', Reaches V may
        (hist ++ SeqObject.serial [(t, .pop, .popped (some x))]) mem' th ∧
      Ready V mem' (tickets i (j + 1))
        (Function.update σ (V.slotOf j) V.NIL) := by
  obtain ⟨m₁, hclaim, hready₁⟩ :=
    h.claim_pop hV hidle hready hmay hi hji hle
  obtain ⟨m₂, htake, hready₂⟩ := hclaim.take hready₁ hV.spsc hfull hx
  rw [append_serial, ← hidle, Function.update_eq_self] at htake
  exact ⟨m₂, htake, hready₂⟩

/-- Pushes one after the other. -/
theorem Reaches.pushes {i m : ℕ} (hV : V.Regular)
    (h : Reaches V may hist mem th) (hidle : th t = .idle)
    (hready : Ready V mem (tickets i 0) σ) (hmay : may t .push)
    (hx : x ≠ V.NIL) (hm : i + m ≤ V.layout.size)
    (hfree : ∀ l, i ≤ l → l < i + m → σ (V.slotOf l) = V.NIL) :
    ∃ mem' σ', Reaches V may (hist ++ SeqObject.serial
        (List.replicate m (t, .push x, .pushed true))) mem' th ∧
      Ready V mem' (tickets (i + m) 0) σ' ∧ ∀ l, l < V.layout.size →
        σ' (V.slotOf l) = if i ≤ l ∧ l < i + m then x else σ (V.slotOf l) := by
  induction m with
  | zero =>
      refine ⟨mem, σ, (List.append_nil hist).symm ▸ h, hready,
        fun l _ => (if_neg fun hl => ?_).symm⟩
      omega
  | succ m ih =>
      obtain ⟨m₁, σ₁, h₁, hready₁, hσ₁⟩ :=
        ih (by omega) fun l hl hlt => hfree l hl (by omega)
      have hslot : σ₁ (V.slotOf (i + m)) = V.NIL := by
        rw [hσ₁ _ (by omega), if_neg (by omega)]
        exact hfree _ (by omega) (by omega)
      obtain ⟨m₂, h₂, hready₂⟩ := h₁.push hV hidle hready₁ hmay hx (by omega)
        (Nat.zero_le _) (by omega) hslot
      rw [List.append_assoc, ← SeqObject.serial_append,
        ← List.replicate_succ'] at h₂
      refine ⟨m₂, _, h₂, hready₂, fun l hl => ?_⟩
      by_cases heq : l = i + m
      · subst heq
        rw [Function.update_self, if_pos (by omega)]
      · rw [Function.update_of_ne (hV.slotOf_ne hl (by omega) heq), hσ₁ l hl]
        split_ifs <;> first | rfl | omega

/-- Pops one after the other. -/
theorem Reaches.pops {i j m : ℕ} (hV : V.Regular)
    (h : Reaches V may hist mem th) (hidle : th t = .idle)
    (hready : Ready V mem (tickets i j) σ) (hmay : may t .pop)
    (hx : x ≠ V.NIL) (hi : i ≤ V.layout.size) (hm : j + m ≤ i)
    (hfull : ∀ l, j ≤ l → l < j + m → σ (V.slotOf l) = x) :
    ∃ mem' σ', Reaches V may (hist ++ SeqObject.serial
        (List.replicate m (t, .pop, .popped (some x)))) mem' th ∧
      Ready V mem' (tickets i (j + m)) σ' ∧ ∀ l, l < V.layout.size →
        σ' (V.slotOf l) =
          if j ≤ l ∧ l < j + m then V.NIL else σ (V.slotOf l) := by
  induction m with
  | zero =>
      refine ⟨mem, σ, (List.append_nil hist).symm ▸ h, hready,
        fun l _ => (if_neg fun hl => ?_).symm⟩
      omega
  | succ m ih =>
      obtain ⟨m₁, σ₁, h₁, hready₁, hσ₁⟩ :=
        ih (by omega) fun l hl hlt => hfull l hl (by omega)
      have hslot : σ₁ (V.slotOf (j + m)) = x := by
        rw [hσ₁ _ (by omega), if_neg (by omega)]
        exact hfull _ (by omega) (by omega)
      obtain ⟨m₂, h₂, hready₂⟩ := h₁.pop hV hidle hready₁ hmay hx (by omega)
        (by omega) (by omega) hslot
      rw [List.append_assoc, ← SeqObject.serial_append,
        ← List.replicate_succ'] at h₂
      refine ⟨m₂, _, h₂, hready₂, fun l hl => ?_⟩
      by_cases heq : l = j + m
      · subst heq
        rw [Function.update_self, if_pos (by omega)]
      · rw [Function.update_of_ne (hV.slotOf_ne hl (by omega) heq), hσ₁ l hl]
        split_ifs <;> first | rfl | omega

end Calls

/-! ## The runs -/

section Overtaking

variable [DecidableEq ι] {may : ι → End → Bool} {a b c c' d p : ι} {x y : ℕ}

/-- A push of `b` that is a lap ahead of the push of `a`. -/
theorem exists_tooEarly (hV : V.Regular) (ha : may a .push) (hb : may b .push)
    (hd : may d .pop) (hab : a ≠ b) (had : a ≠ d) (hbd : b ≠ d)
    (hx : x ≠ V.NIL) (hy : y ≠ V.NIL) :
    ∃ mem th, Reaches V may (tooEarly a b d x y (V.layout.size - 2)) mem th := by
  have hn := hV.two_le
  obtain ⟨m₁, h₁, hready₁⟩ := reaches_init.claim_push hV rfl ready_init ha hx
    (Nat.zero_le _) le_rfl (by omega)
  have hidle₁ : ∀ t, t ≠ a → Function.update (fun _ => Thread.idle) a
      (.run (.push x) (.slot (V.width.ofNat 0))) t = .idle :=
    fun t ht => Function.update_of_ne ht _ _
  obtain ⟨m₂, h₂, hready₂⟩ := h₁.push hV (hidle₁ b hab.symm) hready₁ hb hx
    (by omega) (by omega) (by omega) rfl
  obtain ⟨m₃, σ₃, h₃, hready₃, hσ₃⟩ :=
    h₂.pushes (m := V.layout.size - 2) hV (hidle₁ b hab.symm) hready₂ hb hx
      (by omega) fun l hl hlt => by
        rw [Function.update_of_ne (hV.slotOf_ne (by omega) hn (by omega))]
  rw [show 0 + 1 + 1 + (V.layout.size - 2) = V.layout.size by omega] at hready₃
  obtain ⟨m₄, h₄, hready₄⟩ := h₃.claim_pop hV (hidle₁ d had.symm) hready₃ hd
    (by omega) (by omega) (by omega)
  have hfree : σ₃ (V.slotOf V.layout.size) = V.NIL := by
    rw [hV.slotOf_size, hσ₃ 0 (by omega), if_neg (by omega),
      Function.update_of_ne (hV.slotOf_ne (by omega) hn (by omega))]
  obtain ⟨m₅, h₅, hready₅⟩ := h₄.push hV
    (by rw [Function.update_of_ne hbd, hidle₁ b hab.symm]) hready₄ hb hy
    (by omega) (by omega) (by omega) hfree
  obtain ⟨m₆, h₆, -⟩ := h₅.take hready₅ hV.spsc (x := y)
    (by
      rw [hV.slotOf_size]
      exact Function.update_self _ _ _) hy
  exact ⟨m₆, _, h₆⟩

/-- A pop of `c'` that is a lap ahead of the pop of `c`. -/
theorem exists_outOfOrder (hV : V.Regular) (hp : may p .push)
    (hc : may c .pop) (hc' : may c' .pop) (hcc : c ≠ c') (hpc : p ≠ c)
    (hpc' : p ≠ c') (hx : x ≠ V.NIL) (hy : y ≠ V.NIL) :
    ∃ mem th, Reaches V may (outOfOrder p c c' x y (V.layout.size - 1)
      (V.layout.size - 2)) mem th := by
  have hn := hV.two_le
  obtain ⟨m₁, h₁, hready₁⟩ := reaches_init.push hV rfl ready_init hp hx
    (Nat.zero_le _) le_rfl (by omega) rfl
  obtain ⟨m₂, σ₂, h₂, hready₂, hσ₂⟩ :=
    h₁.pushes (m := V.layout.size - 1) hV rfl hready₁ hp hy (by omega)
      fun l hl hlt => by
        rw [Function.update_of_ne (hV.slotOf_ne (by omega) (by omega)
          (by omega))]
  rw [show 0 + 1 + (V.layout.size - 1) = V.layout.size by omega] at hready₂ hσ₂
  obtain ⟨m₃, h₃, hready₃⟩ := h₂.claim_pop hV rfl hready₂ hc (by omega)
    (by omega) (by omega)
  have hidle₃ : ∀ t, t ≠ c → Function.update (fun _ => Thread.idle) c
      (.run .pop (.slot (V.width.ofNat 0))) t = .idle :=
    fun t ht => Function.update_of_ne ht _ _
  obtain ⟨m₄, h₄, hready₄⟩ := h₃.pop hV (hidle₃ c' hcc.symm) hready₃ hc' hy
    (by omega) (by omega) (by omega)
    (by rw [hσ₂ _ (by omega), if_pos (by omega)])
  obtain ⟨m₅, σ₅, h₅, hready₅, hσ₅⟩ :=
    h₄.pops (m := V.layout.size - 2) hV (hidle₃ c' hcc.symm) hready₄ hc' hy
      le_rfl (by omega) fun l hl hlt => by
        rw [Function.update_of_ne (hV.slotOf_ne (by omega) (by omega)
          (by omega)), hσ₂ l (by omega), if_pos (by omega)]
  rw [show 0 + 1 + 1 + (V.layout.size - 2) = V.layout.size by omega] at hready₅
  obtain ⟨m₆, h₆, hready₆⟩ := h₅.claim_push hV (hidle₃ p hpc) hready₅ hp hy
    (by omega) le_rfl (by omega)
  have hfull : σ₅ (V.slotOf V.layout.size) = x := by
    rw [hV.slotOf_size, hσ₅ 0 (by omega), if_neg (by omega),
      Function.update_of_ne (hV.slotOf_ne (by omega) (by omega) (by omega)),
      hσ₂ 0 (by omega), if_neg (by omega), Function.update_self]
  obtain ⟨m₇, h₇, -⟩ := h₆.pop hV
    (by rw [Function.update_of_ne hpc'.symm, hidle₃ c' hcc.symm]) hready₆ hc'
    hx le_rfl (by omega) (by omega) hfull
  exact ⟨m₇, _, h₇⟩

/-- With read-modify-writes, and with every thread at one end only, the queue is
a FIFO queue exactly if it has one slot or one thread at each end. -/
theorem fifo_iff (hspsc : V.spsc = false) (hlaps : V.layout.Laps)
    (hsize : V.width.signed V.layout.size = V.layout.size)
    (hends : ∀ t, ¬(may t .push ∧ may t .pop))
    (hpush : ∃ t, may t .push) (hpop : ∃ t, may t .pop) :
    (hesitant ℕ V.layout.size True True).Implements (system V may) shows
        (fun _ _ _ => True) ↔
      V.layout.size = 1 ∨ Single may := by
  have hpos : 0 < V.layout.size :=
    (Nat.zero_le _).trans_lt (V.layout.slot_lt 0)
  have hne : ∀ {t u}, may t .push → may u .pop → t ≠ u := by
    rintro t u ht hu rfl
    exact hends t ⟨ht, hu⟩
  constructor
  · intro himpl
    by_contra hnot
    obtain ⟨hone, hsingle⟩ := not_or.mp hnot
    have hV : V.Regular := ⟨hspsc, hlaps, by omega, hsize⟩
    have hx : V.NIL + 1 ≠ V.NIL := by omega
    have hy : V.NIL + 2 ≠ V.NIL := by omega
    have hxy : V.NIL + 1 ≠ V.NIL + 2 := by omega
    simp only [Single, not_forall] at hsingle
    obtain ⟨t, u, e, ht, hu, htu⟩ := hsingle
    cases e with
    | push =>
        obtain ⟨d, hd⟩ := hpop
        obtain ⟨mem, th, tr, hrun, hshows⟩ := exists_tooEarly hV ht hu hd htu
          (hne ht hd) (hne hu hd) hx hy
        obtain ⟨-, hfalse⟩ := himpl.exists_after hrun
          (hshows ▸ not_tooEarly hxy (hne hu hd) _)
        exact hfalse
    | pop =>
        obtain ⟨p, hp⟩ := hpush
        obtain ⟨mem, th, tr, hrun, hshows⟩ := exists_outOfOrder hV hp ht hu htu
          (hne hp ht) (hne hp hu) hx hy
        obtain ⟨-, hfalse⟩ := himpl.exists_after hrun
          (hshows ▸ not_outOfOrder hxy htu _ _)
        exact hfalse
  · rintro (hone | hsingle) tr s hrun
    · have hbag := simulates_bag hspsc may
      rw [hone] at hbag ⊢
      obtain ⟨tr', a, hrun', hseen, -⟩ :=
        hbag.refine (Bag.refines_hesitant ℕ) tr s hrun
      exact ⟨tr', a, hrun', hseen, trivial⟩
    · obtain ⟨tr', a, hrun', hseen, -⟩ := simulates_fifo V hsingle tr s hrun
      exact ⟨tr', a, hrun', hseen, trivial⟩

theorem fifo_iff_twoProducers :
    ¬(hesitant ℕ (OptimistAtomicQueueAdapter 1024 8 (by decide)
        (by decide)).layout.size True True).Implements
      (system (OptimistAtomicQueueAdapter 1024 8 (by decide) (by decide))
        fun t : Fin 3 => fun e => e = if t = 2 then .pop else .push)
      shows fun _ _ _ => True := by
  intro himpl
  rcases (fifo_iff rfl (Args.layout_laps _) (by decide) (by decide)
    ⟨0, by decide⟩ ⟨2, by decide⟩).mp himpl with hone | hsingle
  · exact absurd hone (by decide)
  · exact absurd (hsingle 0 1 .push (by decide) (by decide)) (by decide)

end Overtaking

end AtomicQueue
end ConcurrentQueues
