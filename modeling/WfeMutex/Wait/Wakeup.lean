/-
  NO LOST WAKE-UP in the monitor backends.

  One waiter runs a wait function while other agents store to the word.  `Monitored` is the state
  of the two: the word, the waiter's monitor (`armed`), whether an event is pending for it, and
  the rest of the wait.  The steps assume of the hardware no more than this: an arming instruction
  arms the monitor (`ldaxr*`/`ldaex*` load in the same step); a store of another agent while the
  monitor is armed leaves a pending event; the sleeping instruction can stay blocked only while the
  monitor is armed and no event is pending.  Everything else may happen at any time: the monitor is
  lost, an event comes from nowhere, the waiter wakes for no reason and finds its monitor in any
  state, arming forgets an event that was pending before.

  A waiter is safe if it sleeps only on a value it has looked at AFTER arming and that is not what
  it waits for.  `watches cond` is this discipline as a protocol: its local state is the value last
  loaded since the last arming.  Then nobody sleeps on what he waits for (`watches_sound`): a store
  that would have brought it must have come after the look, hence after the arming, and has left an
  event.
-/
import WfeMutex.Wait.Discipline

set_option linter.unusedVariables false

namespace WfeMutex

open Conc

/-! ## The waiter and its monitor -/

/-- A word under a monitor, and what its waiter still has to do. -/
structure Monitored (w : Nat) (α : Type) where
  word : BitVec w
  armed : Bool
  pending : Bool
  prog : Prog (atomics w) α

section
variable {w : Nat} {α : Type}

/-- The operations that have to do with the monitor. -/
def Op.monitors : Op w → Bool
  | .loadExclusive | .arm _ | .wait _ => true
  | _ => false

/-- One step of the waiter, of another agent, or of the hardware. -/
inductive Monitored.Step : Monitored w α → Monitored w α → Prop where
  /-- Another agent stores: to an armed monitor that is an event. -/
  | store {s : Monitored w α} (v : BitVec w) :
      Step s { s with word := v, pending := s.pending || s.armed }
  /-- The monitor is lost, or an event comes from elsewhere. -/
  | disturb {s : Monitored w α} (armed pending : Bool) :
      (armed = true → s.armed = true) → (s.pending = true → pending = true) →
      Step s { s with armed := armed, pending := pending }
  | arm {s : Monitored w α} {i : ArmInsn} {k : Unit → Prog (atomics w) α} (pending : Bool) :
      s.prog = .op (.arm i) k →
      Step s { s with armed := true, pending := pending, prog := k () }
  | loadExclusive {s : Monitored w α} {k : BitVec w → Prog (atomics w) α} (pending : Bool) :
      s.prog = .op .loadExclusive k →
      Step s { s with armed := true, pending := pending, prog := k s.word }
  /-- The waiter leaves its sleeping instruction. -/
  | wake {s : Monitored w α} {i : WaitInsn} {k : Unit → Prog (atomics w) α}
      (armed pending : Bool) : s.prog = .op (.wait i) k →
      Step s { s with armed := armed, pending := pending, prog := k () }
  | op {s : Monitored w α} {o : Op w} {k : o.Ans → Prog (atomics w) α} {a : o.Ans} {v : BitVec w} :
      s.prog = .op o k → o.monitors = false → Effect s.word o a v →
      Step s { s with word := v, prog := k a }
  | jump {s : Monitored w α} {σ β : Type} {body : σ → Prog (atomics w) (Next σ β)} {x : σ}
      {k : β → Prog (atomics w) α} : s.prog = .loop body x k →
      Step s { s with prog := Prog.unroll body x k }

/-- The states reached from `s`. -/
inductive Monitored.Reaches (s : Monitored w α) : Monitored w α → Prop where
  | refl : Reaches s s
  | step {s' s'' : Monitored w α} : Reaches s s' → Step s' s'' → Reaches s s''

/-- The waiter is in its sleeping instruction and nothing wakes it. -/
def Monitored.Blocked (s : Monitored w α) : Prop :=
  (∃ i k, s.prog = .op (.wait i) k) ∧ s.armed = true ∧ s.pending = false

/-- Whatever the word and the monitor are at the start, and whatever happens: while the wait `p` is
    blocked, the word does not satisfy `cond`. -/
def NoLostWakeup (p : Prog (atomics w) α) (cond : BitVec w → Prop) : Prop :=
  ∀ (word : BitVec w) (armed pending : Bool) (s : Monitored w α),
    Monitored.Reaches ⟨word, armed, pending, p⟩ s → s.Blocked → ¬ cond s.word

/-! ## The discipline of a waiter -/

/-- Look after arming, and sleep only on a value that does not satisfy `cond`.  The local state is
    the value last loaded since the last arming. -/
def watches (cond : BitVec w → Prop) : Proto (atomics w) (Option (BitVec w)) where
  pre seen o :=
    match o with
    | .wait _ => ∃ v, seen = some v ∧ ¬ cond v
    | o => o.quiet = true
  post seen o a seen' :=
    match o with
    | .loadN _ => seen' = some a
    | .loadExclusive => seen' = some a
    | .arm _ => seen' = none
    | .wait _ => seen' = none
    | _ => seen' = seen

variable {cond : BitVec w → Prop}

/-- The waiter keeps its discipline, and what it has seen is still there, or an event tells. -/
structure Monitored.Safe (cond : BitVec w → Prop) (s : Monitored w α) (seen : Option (BitVec w)) :
    Prop where
  spec : Spec (watches cond) s.prog seen fun _ _ => True
  fresh : ∀ v, seen = some v → s.armed = true → s.pending = false → s.word = v

/-- **One step** of anybody keeps a waiter safe. -/
theorem Monitored.Safe.step {s s' : Monitored w α} {seen : Option (BitVec w)}
    (h : s.Safe cond seen) (hstep : Monitored.Step s s') : ∃ seen', s'.Safe cond seen' := by
  cases hstep with
  | store v =>
    refine ⟨seen, h.spec, ?_⟩
    intro x _ harmed hpending
    -- an armed monitor has noticed the store
    have harmed' : s.armed = true := harmed
    have hpending' : (s.pending || s.armed) = false := hpending
    rw [harmed', Bool.or_true] at hpending'
    cases hpending'
  | disturb armed pending harm hpend =>
    refine ⟨seen, h.spec, ?_⟩
    intro x hx harmed hpending
    refine h.fresh x hx (harm harmed) ?_
    cases hp : s.pending with
    | false => rfl
    | true =>
      have htrue : pending = true := hpend hp
      rw [show pending = false from hpending] at htrue
      cases htrue
  | arm pending hprog =>
    have hspec := h.spec
    rw [hprog] at hspec
    exact ⟨none, hspec.out.2 () none rfl, fun v hv => by cases hv⟩
  | loadExclusive pending hprog =>
    have hspec := h.spec
    rw [hprog] at hspec
    refine ⟨some s.word, hspec.out.2 s.word (some s.word) rfl, ?_⟩
    intro v hv _ _
    exact Option.some.inj hv
  | wake armed pending hprog =>
    have hspec := h.spec
    rw [hprog] at hspec
    exact ⟨none, hspec.out.2 () none rfl, fun v hv => by cases hv⟩
  | @op o k a v hprog hmon heff =>
    have hspec := h.spec
    rw [hprog] at hspec
    obtain ⟨hpre, hk⟩ := hspec.out
    cases heff with
    | loadN mo =>
      refine ⟨some s.word, hk s.word (some s.word) rfl, ?_⟩
      intro v hv _ _
      exact Option.some.inj hv
    | doYield => exact ⟨seen, hk () seen rfl, h.fresh⟩
    | readCycleCounter d c => exact ⟨seen, hk c seen rfl, h.fresh⟩
    | storeN | exchanged | differs | fetchSub => cases hpre
    | loadExclusive | arm | wait => cases hmon
  | jump hprog =>
    have hspec := h.spec
    rw [hprog] at hspec
    exact ⟨seen, hspec.out, h.fresh⟩

/-- Safety is kept by any number of steps. -/
theorem Monitored.Safe.reaches {s s' : Monitored w α} (h : ∃ seen, s.Safe cond seen)
    (hreach : s.Reaches s') : ∃ seen, s'.Safe cond seen := by
  induction hreach with
  | refl => exact h
  | step _ hstep ih =>
    obtain ⟨seen, hsafe⟩ := ih
    exact hsafe.step hstep

/-- **Nobody who keeps the discipline sleeps on what he waits for.** -/
theorem watches_sound {p : Prog (atomics w) α}
    (h : Spec (watches cond) p none fun _ _ => True) : NoLostWakeup p cond := by
  intro word armed pending s hreach hblocked
  have hstart : ∃ seen, Monitored.Safe cond ⟨word, armed, pending, p⟩ seen :=
    ⟨none, h, fun v hv => by cases hv⟩
  obtain ⟨seen, hsafe⟩ := Monitored.Safe.reaches hstart hreach
  obtain ⟨⟨i, k, hprog⟩, harmed, hpending⟩ := hblocked
  have hspec := hsafe.spec
  rw [hprog] at hspec
  obtain ⟨v, hv, hcond⟩ := hspec.out.1
  rw [hsafe.fresh v hv harmed hpending]
  exact hcond

/-! ## The waits keep the discipline -/

/-- What a wait has seen is what its watcher knows. -/
theorem watches_of_conduct {cycles : Option (BitVec 64)} {p : Prog (atomics w) α}
    {Q : α → Conduct w → Prop} (h : Spec (conduct cond cycles).proto p .start Q) :
    Spec (watches cond) p none fun _ _ => True := by
  refine (Spec.embed (R := fun l seen => l.seen = seen) ?_ ?_ h rfl).mono fun _ _ _ => trivial
  · rintro l _ o rfl hallows
    cases o with
    | wait i => exact hallows
    | readCycleCounter d => rfl
    | _ => exact hallows
  · rintro l _ o a seen rfl _ hpost
    refine ⟨_, rfl, ?_⟩
    cases o with
    | readCycleCounter d =>
      cases d with
      | none => exact Eq.symm hpost
      | some d => exact Eq.symm hpost
    | _ => exact Eq.symm hpost

/-- **A wait that keeps the discipline loses no wake-up.** -/
theorem noLostWakeup_of_conduct (cycles : Option (BitVec 64)) {p : Prog (atomics w) α}
    {Q : α → Conduct w → Prop} (h : Spec (conduct cond cycles).proto p .start Q) :
    NoLostWakeup p cond :=
  watches_sound (watches_of_conduct h)

end

/-! ## All waits of the monitor backends -/

/-- **No lost wake-up**, in any wait of any monitor backend at any width: in every state the waiter
    and the agents that store to its word can reach, a waiter blocked in its sleeping instruction
    does not find what it waits for in the word. -/
theorem no_lost_wakeup (w : Nat) (b : Backend) :
    (∀ value lowPower, NoLostWakeup (b.waitForValue w value lowPower) (· = value)) ∧
      (∀ bit lowPower,
        NoLostWakeup (b.waitForBitSet w bit lowPower) fun v => bitAt v bit = 1) ∧
      (∀ bit lowPower,
        NoLostWakeup (b.waitForBitNotSet w bit lowPower) fun v => bitAt v bit = 0) ∧
      (∀ F value nanoseconds lowPower,
        NoLostWakeup (b.waitForValueTimeout w F value nanoseconds lowPower) (· = value)) ∧
      (∀ value lowPower,
        NoLostWakeup (b.waitForValueSpuriousOneshot w value lowPower) (· = value)) ∧
      (∀ F value nanoseconds lowPower,
        NoLostWakeup (wfetWaitForValueTimeout w F value nanoseconds lowPower) (· = value)) ∧
      (∀ F value nanoseconds lowPower,
        NoLostWakeup (wfetWaitForValueTimeoutI32 F value nanoseconds lowPower) (· = value)) := by
  refine ⟨?_, ?_, ?_, ?_, ?_, ?_, ?_⟩
  · intro value lowPower
    exact noLostWakeup_of_conduct none (b.conduct_waitForValue value lowPower)
  · intro bit lowPower
    exact noLostWakeup_of_conduct none (b.conduct_waitForBitSet bit lowPower)
  · intro bit lowPower
    exact noLostWakeup_of_conduct none (b.conduct_waitForBitNotSet bit lowPower)
  · intro F value nanoseconds lowPower
    exact noLostWakeup_of_conduct _ (b.conduct_waitForValueTimeout F value nanoseconds lowPower)
  · intro value lowPower
    exact noLostWakeup_of_conduct none (b.conduct_waitForValueSpuriousOneshot value lowPower)
  · intro F value nanoseconds lowPower
    exact noLostWakeup_of_conduct _ (conduct_wfetWaitForValueTimeout F value nanoseconds lowPower)
  · intro F value nanoseconds lowPower
    exact noLostWakeup_of_conduct _
      (conduct_wfetWaitForValueTimeoutI32 F nanoseconds lowPower value)

/-- `wfe_wait_for_value_i32` waits for 1 at a word that is 0, and is asleep after one round. -/
theorem no_lost_wakeup_asleep :
    ∃ s, Monitored.Reaches ⟨0, false, false, wfeWaitForValueI32 1 false⟩ s ∧ s.Blocked ∧
      s.word ≠ 1 := by
  obtain ⟨s, hreach, hblocked⟩ :
      ∃ s, Monitored.Reaches ⟨0, false, false, wfeWaitForValueI32 1 false⟩ s ∧ s.Blocked := by
    have h0 := Monitored.Reaches.refl (s := ⟨0, false, false, wfeWaitForValueI32 1 false⟩)
    have h1 := h0.step (.op rfl rfl (.loadN 0 .acquire))
    have h2 := h1.step (.jump rfl)
    have h3 := h2.step (.loadExclusive false rfl)
    exact ⟨_, h3, ⟨_, _, rfl⟩, rfl, rfl⟩
  exact ⟨s, hreach, hblocked, (no_lost_wakeup 32 .wfe).1 1 false 0 false false s hreach hblocked⟩

end WfeMutex
