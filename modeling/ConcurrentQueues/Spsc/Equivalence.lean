import ConcurrentQueues.Spsc.Delta

/-!
# The cached copies do not change behaviour

`alpha::spsc` and `delta::spsc` have the same histories.  A state of `delta` is
a state of `alpha` without the cached copies, where a thread that `alpha` has
not yet sent to the other index is about to load it.  There is one difference:
`alpha` may have found room by its cached copy while `delta` still has its test
ahead.  A cached copy is never ahead of the index it copies, so that test will
find room too.
-/

namespace ConcurrentQueues

universe u v

namespace Spsc

open Fifo

variable {T : Type u} {n : ℕ}

/-! ## Histories -/

/-- A history keeps the starts of calls, the stores of the indexes with the
items they publish or release, and the returns. -/
def observed : Side × Event T → Option (Side × Event T)
  | (_, .inner) => none
  | a => some a

def Event.op? : Event T → Option (Op T)
  | .call op => some op
  | _ => none

/-- The calls one side has begun, in order. -/
def callsOf (t : Side) (h : List (Side × Event T)) : List (Op T) :=
  h.filterMap fun a => if a.1 = t then a.2.op? else none

/-- The histories in which the producer runs the program `P` and the consumer
the program `C`, each as far as it comes. -/
def histories {σ : Type v} (M : Lts σ (Side × Event T)) (P C : List (Op T)) :
    Set (List (Side × Event T)) :=
  {h ∈ M.observations observed |
    callsOf .producer h <+: P ∧ callsOf .consumer h <+: C}

/-! ## The relation between the two queues -/

/-- A program point of `alpha` without the cached copy. -/
def Pc.uncached (cached : ℕ) : Pc → delta.Pc
  | .load => .load
  | .test own | .refresh own => .loadOther own
  | .retest own => .test own cached
  | .enter own => .enter own
  | .inSlot own => .inSlot own
  | .store own => .store own

/-- The producers of `alpha` and `delta` agree, or `alpha` has already found
the room that `delta` is about to find. -/
inductive PushTracks (n cachedHead : ℕ) :
    Producer Pc T → Producer delta.Pc T → Prop
  | idle : PushTracks n cachedHead .idle .idle
  | inCall {f : OnFail} {item : T} {pc : Pc} (hf : f ≠ .testAgain) :
      PushTracks n cachedHead (.push f item pc)
        (.push f item (pc.uncached cachedHead))
  | early {f : OnFail} {item : T} {t h : ℕ} (hf : f ≠ .testAgain)
      (hroom : ¬full .unbounded n t h) :
      PushTracks n cachedHead (.push f item (.enter t))
        (.push f item (.test t h))
  | done {b : Bool} : PushTracks n cachedHead (.done b) (.done b)

/-- The same for the consumers. -/
inductive PopTracks (cachedTail : ℕ) :
    Consumer Pc T → Consumer delta.Pc T → Prop
  | idle : PopTracks cachedTail .idle .idle
  | inCall {f : OnFail} {item : Option T} {pc : Pc} (hf : f ≠ .testAgain) :
      PopTracks cachedTail (.pop f item pc)
        (.pop f item (pc.uncached cachedTail))
  | early {f : OnFail} {item : Option T} {h t : ℕ} (hf : f ≠ .testAgain)
      (hitem : ¬empty t h) :
      PopTracks cachedTail (.pop f item (.enter h)) (.pop f item (.test h t))
  | done {item : Option T} : PopTracks cachedTail (.done item) (.done item)

structure Tracks (n : ℕ) (s : State T) (r : delta.State T) : Prop where
  channel : r.shared = s.shared.toChannel
  producer : PushTracks n s.shared.cachedHead s.producer r.producer
  consumer : PopTracks s.shared.cachedTail s.consumer r.consumer

section AfterFail

variable {f : OnFail} {k h : ℕ}

/-- A failed attempt leaves both producers at the same point. -/
theorem pushTracks_afterFull (item : T) (hf : f ≠ .testAgain) :
    PushTracks n k (afterFull f item h) (delta.afterFull f item) := by
  cases f with
  | giveUp => exact .done
  | startOver => exact .inCall hf
  | testAgain => exact absurd rfl hf

theorem popTracks_afterEmpty (item : Option T) (hf : f ≠ .testAgain) :
    PopTracks k (afterEmpty f item h) (delta.afterEmpty f item) := by
  cases f with
  | giveUp => exact .done
  | startOver => exact .inCall hf
  | testAgain => exact absurd rfl hf

end AfterFail

/-! ## Room by a cached copy is room -/

theorem not_full_of_cached {t k h : ℕ} (hle : k ≤ h)
    (hroom : ¬full .unbounded n t k) : ¬full .unbounded n t h := by
  simp only [full, SizeT.sub_unbounded, not_le] at hroom ⊢
  omega

theorem not_empty_of_cached {t k h : ℕ} (hle : k ≤ t) (hitem : ¬empty k h) :
    ¬empty t h := by
  simp only [empty, not_le] at hitem ⊢
  omega

/-! ## Single steps as paths -/

section Steps

variable {q q' : Queue T} {r r' : Channel T} {e : Event T}

theorem alpha.matches_push {p p' : Producer Pc T} {c : Consumer Pc T}
    (h : PushMove .unbounded n (· ≠ .testAgain) q p e q' p') :
    (alpha.system .unbounded n T).Matches observed ⟨q, p, c⟩
      (observed (.producer, e)) ⟨q', p', c⟩ :=
  Lts.Matches.step (.producer (pushMoves_iff.mpr h))

theorem alpha.matches_pop {p : Producer Pc T} {c c' : Consumer Pc T}
    (h : PopMove .unbounded n (· ≠ .testAgain) q c e q' c') :
    (alpha.system .unbounded n T).Matches observed ⟨q, p, c⟩
      (observed (.consumer, e)) ⟨q', p, c'⟩ :=
  Lts.Matches.step (.consumer (popMoves_iff.mpr h))

theorem delta.matches_push {p p' : Producer delta.Pc T}
    {c : Consumer delta.Pc T} (h : delta.PushMove .unbounded n r p e r' p') :
    (delta.system .unbounded n T).Matches observed ⟨r, p, c⟩
      (observed (.producer, e)) ⟨r', p', c⟩ :=
  Lts.Matches.step (.producer (delta.pushMoves_iff.mpr h))

theorem delta.matches_pop {p : Producer delta.Pc T}
    {c c' : Consumer delta.Pc T} (h : delta.PopMove .unbounded n r c e r' c') :
    (delta.system .unbounded n T).Matches observed ⟨r, p, c⟩
      (observed (.consumer, e)) ⟨r', p, c'⟩ :=
  Lts.Matches.step (.consumer (delta.popMoves_iff.mpr h))

/-! ## `delta` follows `alpha` -/

/-- A producer step of `alpha` as a path of `delta`. -/
theorem PushTracks.forth {p p' : Producer Pc T} {d : Producer delta.Pc T}
    (c : Consumer delta.Pc T) (hcached : q.cachedHead ≤ q.head)
    (hT : PushTracks n q.cachedHead p d)
    (hmove : PushMove .unbounded n (· ≠ .testAgain) q p e q' p') :
    ∃ d', (delta.system .unbounded n T).Matches observed
        ⟨q.toChannel, d, c⟩ (observed (.producer, e)) ⟨q'.toChannel, d', c⟩ ∧
      PushTracks n q'.cachedHead p' d' := by
  cases hmove with
  | call item hf =>
      cases hT
      have hf : _ ≠ OnFail.testAgain := of_decide_eq_true hf
      exact ⟨_, delta.matches_push (.call item hf), .inCall hf⟩
  | load =>
      cases hT with
      | inCall hf => exact ⟨_, delta.matches_push (.load hf), .inCall hf⟩
  | testFull =>
      cases hT with
      | inCall hf => exact ⟨_, Lts.Matches.stay _, .inCall hf⟩
  | testRoom hroom =>
      -- `delta` loads the index and finds the room that the copy promised
      cases hT with
      | inCall hf =>
          have htest := not_full_of_cached hcached hroom
          exact ⟨_, (delta.matches_push (.loadOther hf)).after
            (delta.matches_push (.testRoom hf htest)), .inCall hf⟩
  | refresh =>
      cases hT with
      | inCall hf => exact ⟨_, delta.matches_push (.loadOther hf), .inCall hf⟩
  | @retestFull f item t hfull =>
      cases hT with
      | inCall hf =>
          exact ⟨_, delta.matches_push (.testFull hf hfull),
            pushTracks_afterFull item hf⟩
  | retestRoom hroom =>
      cases hT with
      | inCall hf =>
          exact ⟨_, delta.matches_push (.testRoom hf hroom), .inCall hf⟩
  | enter =>
      cases hT with
      | inCall hf => exact ⟨_, delta.matches_push (.enter hf), .inCall hf⟩
      | early hf hroom =>
          exact ⟨_, (delta.matches_push (.testRoom hf hroom)).after
            (delta.matches_push (.enter hf)), .inCall hf⟩
  | inSlot =>
      cases hT with
      | inCall hf => exact ⟨_, delta.matches_push (.inSlot hf), .inCall hf⟩
  | store =>
      cases hT with
      | inCall hf => exact ⟨_, delta.matches_push (.store hf), .done⟩
  | ret =>
      cases hT
      exact ⟨_, delta.matches_push .ret, .idle⟩

/-- A consumer step of `alpha` as a path of `delta`. -/
theorem PopTracks.forth {c c' : Consumer Pc T} {d : Consumer delta.Pc T}
    (p : Producer delta.Pc T) (hcached : q.cachedTail ≤ q.tail)
    (hT : PopTracks q.cachedTail c d)
    (hmove : PopMove .unbounded n (· ≠ .testAgain) q c e q' c') :
    ∃ d', (delta.system .unbounded n T).Matches observed
        ⟨q.toChannel, p, d⟩ (observed (.consumer, e)) ⟨q'.toChannel, p, d'⟩ ∧
      PopTracks q'.cachedTail c' d' := by
  cases hmove with
  | call hf =>
      cases hT
      have hf : _ ≠ OnFail.testAgain := of_decide_eq_true hf
      exact ⟨_, delta.matches_pop (.call hf), .inCall hf⟩
  | load =>
      cases hT with
      | inCall hf => exact ⟨_, delta.matches_pop (.load hf), .inCall hf⟩
  | testEmpty =>
      cases hT with
      | inCall hf => exact ⟨_, Lts.Matches.stay _, .inCall hf⟩
  | testItem hitem =>
      cases hT with
      | inCall hf =>
          have htest := not_empty_of_cached hcached hitem
          exact ⟨_, (delta.matches_pop (.loadOther hf)).after
            (delta.matches_pop (.testItem hf htest)), .inCall hf⟩
  | refresh =>
      cases hT with
      | inCall hf => exact ⟨_, delta.matches_pop (.loadOther hf), .inCall hf⟩
  | @retestEmpty f item k hempty =>
      cases hT with
      | inCall hf =>
          exact ⟨_, delta.matches_pop (.testEmpty hf hempty),
            popTracks_afterEmpty item hf⟩
  | retestItem hitem =>
      cases hT with
      | inCall hf =>
          exact ⟨_, delta.matches_pop (.testItem hf hitem), .inCall hf⟩
  | enter =>
      cases hT with
      | inCall hf => exact ⟨_, delta.matches_pop (.enter hf), .inCall hf⟩
      | early hf hitem =>
          exact ⟨_, (delta.matches_pop (.testItem hf hitem)).after
            (delta.matches_pop (.enter hf)), .inCall hf⟩
  | inSlot =>
      cases hT with
      | inCall hf => exact ⟨_, delta.matches_pop (.inSlot hf), .inCall hf⟩
  | store =>
      cases hT with
      | inCall hf => exact ⟨_, delta.matches_pop (.store hf), .done⟩
  | ret =>
      cases hT
      exact ⟨_, delta.matches_pop .ret, .idle⟩

/-! ## `alpha` follows `delta` -/

/-- A producer step of `delta` as a path of `alpha`.  The step leaves the
consumer's cached copy alone. -/
theorem PushTracks.back {p : Producer Pc T} {d d' : Producer delta.Pc T}
    (c : Consumer Pc T) (hcached : q.cachedHead ≤ q.head)
    (hT : PushTracks n q.cachedHead p d)
    (hmove : delta.PushMove .unbounded n q.toChannel d e r' d') :
    ∃ q' p', (alpha.system .unbounded n T).Matches observed
        ⟨q, p, c⟩ (observed (.producer, e)) ⟨q', p', c⟩ ∧
      r' = q'.toChannel ∧ q'.cachedTail = q.cachedTail ∧
      PushTracks n q'.cachedHead p' d' := by
  cases hT with
  | idle =>
      cases hmove with
      | call item hf =>
          exact ⟨_, _, alpha.matches_push (.call item (decide_eq_true hf)), rfl,
            rfl, .inCall hf⟩
  | done =>
      cases hmove with
      | ret => exact ⟨_, _, alpha.matches_push .ret, rfl, rfl, .idle⟩
  | early hf hroom =>
      cases hmove with
      | testFull _ hfull => exact absurd hfull hroom
      | testRoom => exact ⟨_, _, Lts.Matches.stay _, rfl, rfl, .inCall hf⟩
  | @inCall f item pc hf =>
      cases pc with
      | load =>
          cases hmove with
          | load => exact ⟨_, _, alpha.matches_push .load, rfl, rfl, .inCall hf⟩
      | test t =>
          cases hmove with
          | loadOther =>
              by_cases hfull : full .unbounded n t q.cachedHead
              · exact ⟨_, _, (alpha.matches_push (.testFull hfull)).after
                  (alpha.matches_push .refresh), rfl, rfl, .inCall hf⟩
              · -- `alpha` takes the copy's word; the loaded index agrees
                exact ⟨_, _, alpha.matches_push (.testRoom hfull), rfl, rfl,
                  .early hf (not_full_of_cached hcached hfull)⟩
      | refresh t =>
          cases hmove with
          | loadOther =>
              exact ⟨_, _, alpha.matches_push .refresh, rfl, rfl, .inCall hf⟩
      | retest t =>
          cases hmove with
          | testFull _ hfull =>
              exact ⟨_, _, alpha.matches_push (.retestFull hfull), rfl, rfl,
                pushTracks_afterFull item hf⟩
          | testRoom _ hroom =>
              exact ⟨_, _, alpha.matches_push (.retestRoom hroom), rfl, rfl,
                .inCall hf⟩
      | enter t =>
          cases hmove with
          | enter =>
              exact ⟨_, _, alpha.matches_push .enter, rfl, rfl, .inCall hf⟩
      | inSlot t =>
          cases hmove with
          | inSlot =>
              exact ⟨_, _, alpha.matches_push .inSlot, rfl, rfl, .inCall hf⟩
      | store t =>
          cases hmove with
          | store => exact ⟨_, _, alpha.matches_push .store, rfl, rfl, .done⟩

/-- A consumer step of `delta` as a path of `alpha`. -/
theorem PopTracks.back {c : Consumer Pc T} {d d' : Consumer delta.Pc T}
    (p : Producer Pc T) (hcached : q.cachedTail ≤ q.tail)
    (hT : PopTracks q.cachedTail c d)
    (hmove : delta.PopMove .unbounded n q.toChannel d e r' d') :
    ∃ q' c', (alpha.system .unbounded n T).Matches observed
        ⟨q, p, c⟩ (observed (.consumer, e)) ⟨q', p, c'⟩ ∧
      r' = q'.toChannel ∧ q'.cachedHead = q.cachedHead ∧
      PopTracks q'.cachedTail c' d' := by
  cases hT with
  | idle =>
      cases hmove with
      | call hf =>
          exact ⟨_, _, alpha.matches_pop (.call (decide_eq_true hf)), rfl, rfl,
            .inCall hf⟩
  | done =>
      cases hmove with
      | ret => exact ⟨_, _, alpha.matches_pop .ret, rfl, rfl, .idle⟩
  | early hf hitem =>
      cases hmove with
      | testEmpty _ hempty => exact absurd hempty hitem
      | testItem => exact ⟨_, _, Lts.Matches.stay _, rfl, rfl, .inCall hf⟩
  | @inCall f item pc hf =>
      cases pc with
      | load =>
          cases hmove with
          | load => exact ⟨_, _, alpha.matches_pop .load, rfl, rfl, .inCall hf⟩
      | test k =>
          cases hmove with
          | loadOther =>
              by_cases hempty : empty q.cachedTail k
              · exact ⟨_, _, (alpha.matches_pop (.testEmpty hempty)).after
                  (alpha.matches_pop .refresh), rfl, rfl, .inCall hf⟩
              · exact ⟨_, _, alpha.matches_pop (.testItem hempty), rfl, rfl,
                  .early hf (not_empty_of_cached hcached hempty)⟩
      | refresh k =>
          cases hmove with
          | loadOther =>
              exact ⟨_, _, alpha.matches_pop .refresh, rfl, rfl, .inCall hf⟩
      | retest k =>
          cases hmove with
          | testEmpty _ hempty =>
              exact ⟨_, _, alpha.matches_pop (.retestEmpty hempty), rfl, rfl,
                popTracks_afterEmpty item hf⟩
          | testItem _ hitem =>
              exact ⟨_, _, alpha.matches_pop (.retestItem hitem), rfl, rfl,
                .inCall hf⟩
      | enter k =>
          cases hmove with
          | enter =>
              exact ⟨_, _, alpha.matches_pop .enter, rfl, rfl, .inCall hf⟩
      | inSlot k =>
          cases hmove with
          | inSlot =>
              exact ⟨_, _, alpha.matches_pop .inSlot, rfl, rfl, .inCall hf⟩
      | store k =>
          cases hmove with
          | store => exact ⟨_, _, alpha.matches_pop .store, rfl, rfl, .done⟩

/-- The producer leaves the consumer's cached copy alone. -/
theorem PushMove.cachedTail_eq {S : SizeT} {calls : OnFail → Bool}
    {p p' : Producer Pc T} (h : PushMove S n calls q p e q' p') :
    q'.cachedTail = q.cachedTail := by
  cases h <;> rfl

theorem PopMove.cachedHead_eq {S : SizeT} {calls : OnFail → Bool}
    {c c' : Consumer Pc T} (h : PopMove S n calls q c e q' c') :
    q'.cachedHead = q.cachedHead := by
  cases h <;> rfl

end Steps

/-! ## The interleaved systems -/

/-- In a reachable state of `alpha` no cached copy is ahead of its index. -/
theorem cached_le_of_reachable {s : State T}
    (h : (alpha.system .unbounded n T).Reachable s) :
    s.shared.cachedHead ≤ s.shared.head ∧
      s.shared.cachedTail ≤ s.shared.tail := by
  obtain ⟨tr, hrun⟩ := h
  have hI := inv_of_run hrun
  exact ⟨hI.queue.cachedHead_le, hI.queue.cachedTail_le⟩

theorem tracks_bisimulation (n : ℕ) (T : Type u) :
    Lts.Bisimulation (alpha.system .unbounded n T)
      (delta.system .unbounded n T) observed observed (Tracks n) where
  init := ⟨rfl, .idle, .idle⟩
  forth := by
    rintro s a s' ⟨_, d, k⟩ hs - ⟨rfl, hp, hc⟩ hstep
    obtain ⟨hhead, htail⟩ := cached_le_of_reachable hs
    cases hstep with
    | producer h =>
        have hmove := pushMoves_iff.mp h
        obtain ⟨d', hm, hp'⟩ := hp.forth k hhead hmove
        exact ⟨_, hm, rfl, hp', hmove.cachedTail_eq ▸ hc⟩
    | consumer h =>
        have hmove := popMoves_iff.mp h
        obtain ⟨k', hm, hc'⟩ := hc.forth d htail hmove
        exact ⟨_, hm, rfl, hmove.cachedHead_eq ▸ hp, hc'⟩
  back := by
    rintro ⟨q, p, c⟩ ⟨_, d, k⟩ b t' hs - ⟨rfl, hp, hc⟩ hstep
    obtain ⟨hhead, htail⟩ := cached_le_of_reachable hs
    cases hstep with
    | producer h =>
        obtain ⟨q', p', hm, hr, hcached, hp'⟩ :=
          hp.back c hhead (delta.pushMoves_iff.mp h)
        exact ⟨_, hm, hr, hp', hcached ▸ hc⟩
    | consumer h =>
        obtain ⟨q', c', hm, hr, hcached, hc'⟩ :=
          hc.back p htail (delta.popMoves_iff.mp h)
        exact ⟨_, hm, hr, hcached ▸ hp, hc'⟩

/-- The two queues have the same histories, whatever programs their threads
run. -/
theorem histories_eq (P C : List (Op T)) :
    histories (alpha.system .unbounded n T) P C =
      histories (delta.system .unbounded n T) P C := by
  rw [histories, (tracks_bisimulation n T).observations_eq, histories]

/-! ## Calls that run without interruption -/

/-- No cached copy is ahead of the index it copies. -/
structure Behind (q : Queue T) : Prop where
  cachedHead_le : q.cachedHead ≤ q.head
  cachedTail_le : q.cachedTail ≤ q.tail

theorem behind_new : Behind (Queue.new : Queue T) :=
  ⟨le_rfl, le_rfl⟩

section Calls

variable {q : Queue T} {r : Channel T}

/-- The state after a call of `alpha` is that after the call of `delta` with
some cached copies. -/
def Agrees (q : Queue T) (r : Channel T) : Prop :=
  Behind q ∧ q.toChannel = r

theorem Agrees.tryPush (h : Agrees q r) (item : T) :
    ∃ b q' r', alpha.tryPushCall .unbounded n q item = (b, q') ∧
      delta.tryPushCall .unbounded n r item = (b, r') ∧ Agrees q' r' := by
  obtain ⟨⟨hhead, htail⟩, rfl⟩ := h
  by_cases hcached : full .unbounded n q.tail q.cachedHead
  · by_cases hfull : full .unbounded n q.tail q.head
    · refine ⟨false, q.refreshHead, q.toChannel, ?_, ?_, ⟨le_rfl, htail⟩, rfl⟩
      · simp [alpha.tryPushCall, pushAttempt, hcached, hfull]
      · simp [delta.tryPushCall, hfull]
    · refine ⟨true, q.refreshHead.setChannel
          ((q.setSlot (q.tail % n) (some item)).setTail (q.tail + 1)), _, ?_,
        if_neg hfull, ⟨le_rfl, Nat.le_succ_of_le htail⟩, rfl⟩
      simp only [alpha.tryPushCall, pushAttempt, hcached, if_true,
        Queue.refreshHead_cachedHead, hfull, if_false]
      rfl
  · have hfull := not_full_of_cached hhead hcached
    refine ⟨true, q.setChannel
        ((q.setSlot (q.tail % n) (some item)).setTail (q.tail + 1)), _, ?_,
      if_neg hfull, ⟨hhead, Nat.le_succ_of_le htail⟩, rfl⟩
    simp only [alpha.tryPushCall, pushAttempt, hcached, if_false]
    rfl

theorem Agrees.tryPop (h : Agrees q r) :
    ∃ b item q' r', alpha.tryPopCall .unbounded n q = (b, item, q') ∧
      delta.tryPopCall .unbounded n r = (b, item, r') ∧ Agrees q' r' := by
  obtain ⟨⟨hhead, htail⟩, rfl⟩ := h
  by_cases hcached : empty q.cachedTail q.head
  · by_cases hempty : empty q.tail q.head
    · refine ⟨false, none, q.refreshTail, q.toChannel, ?_, ?_, ⟨hhead, le_rfl⟩,
        rfl⟩
      · simp [alpha.tryPopCall, popAttempt, hcached, hempty]
      · simp [delta.tryPopCall, hempty]
    · refine ⟨true, _, q.refreshTail.setChannel (q.setHead (q.head + 1)), _,
        ?_, if_neg hempty, ⟨Nat.le_succ_of_le hhead, le_rfl⟩, rfl⟩
      simp only [alpha.tryPopCall, popAttempt, hcached, if_true,
        Queue.refreshTail_cachedTail, hempty, if_false]
      rfl
  · have hempty := not_empty_of_cached htail hcached
    refine ⟨true, _, q.setChannel (q.setHead (q.head + 1)), _, ?_,
      if_neg hempty, ⟨Nat.le_succ_of_le hhead, htail⟩, rfl⟩
    simp only [alpha.tryPopCall, popAttempt, hcached, if_false]
    rfl

/-- Two calls do not return, or return the same and leave queues that agree. -/
inductive SameReturn {ρ : Type v} :
    Option (ρ × Queue T) → Option (ρ × Channel T) → Prop
  | spins : SameReturn none none
  | returns {x : ρ} {q : Queue T} {r : Channel T} (h : Agrees q r) :
      SameReturn (some (x, q)) (some (x, r))

theorem Agrees.push (h : Agrees q r) (item : T) (k : ℕ) :
    SameReturn
      ((alpha.pushCall .unbounded n item k q).map
        fun q' => ((.pushed true : Res T), q'))
      ((delta.pushCall .unbounded n item k r).map
        fun r' => (.pushed true, r')) := by
  induction k generalizing q r with
  | zero => exact .spins
  | succ k ih =>
      obtain ⟨b, q', r', ha, hd, hnext⟩ := h.tryPush (n := n) item
      rw [alpha.pushCall, delta.pushCall, ha, hd]
      cases b with
      | true => exact .returns hnext
      | false => exact ih hnext

theorem Agrees.pop (h : Agrees q r) (k : ℕ) :
    SameReturn
      ((alpha.popCall .unbounded n k q).map
        fun (item, q') => (Res.popped item, q'))
      ((delta.popCall .unbounded n k r).map
        fun (item, r') => (Res.popped item, r')) := by
  induction k generalizing q r with
  | zero => exact .spins
  | succ k ih =>
      obtain ⟨b, item, q', r', ha, hd, hnext⟩ := h.tryPop (n := n)
      rw [alpha.popCall, delta.popCall, ha, hd]
      cases b with
      | true => exact .returns hnext
      | false => exact ih hnext

theorem Agrees.call (h : Agrees q r) (k : ℕ) (op : Op T) :
    SameReturn (alpha.call .unbounded n k q op)
      (delta.call .unbounded n k r op) := by
  cases op with
  | push item => exact h.push item k
  | pop => exact h.pop k
  | tryPush item =>
      obtain ⟨b, q', r', ha, hd, hnext⟩ := h.tryPush (n := n) item
      rw [alpha.call, delta.call, ha, hd]
      exact .returns hnext
  | tryPop =>
      obtain ⟨b, item, q', r', ha, hd, hnext⟩ := h.tryPop (n := n)
      rw [alpha.call, delta.call, ha, hd]
      exact .returns hnext

theorem Agrees.results (h : Agrees q r) (k : ℕ) (ops : List (Op T)) :
    results (alpha.call .unbounded n k) q ops =
      results (delta.call .unbounded n k) r ops := by
  induction ops generalizing q r with
  | nil => rfl
  | cons op ops ih =>
      have hcall := h.call (n := n) k op
      rw [Spsc.results, Spsc.results]
      generalize alpha.call .unbounded n k q op = a at hcall
      generalize delta.call .unbounded n k r op = d at hcall
      cases hcall with
      | spins => rfl
      | returns hnext => exact congrArg _ (ih hnext)

end Calls

/-- The cached copies change nothing: interleaved, `alpha::spsc` and
`delta::spsc` have the same histories, and called one call after the other they
return the same. -/
theorem alpha_delta_equivalent (n : ℕ) (T : Type u) :
    (∀ P C : List (Op T),
        histories (alpha.system .unbounded n T) P C =
          histories (delta.system .unbounded n T) P C) ∧
      ∀ (k : ℕ) (ops : List (Op T)),
        results (alpha.call .unbounded n k) Queue.new ops =
          results (delta.call .unbounded n k) Channel.new ops :=
  ⟨histories_eq, Agrees.results ⟨behind_new, rfl⟩⟩

end Spsc
end ConcurrentQueues
