/-
  A VALUE THAT HAS COME IS NOTICED: liveness of every wait of every backend.

  `Wait.Wakeup` says that nobody sleeps on what he waits for.  Here is the other half.  However long
  the word has been changing under a wait, and wherever in its round the wait is, once the word
  satisfies the condition and is left so, the wait is never blocked and returns within fifteen of
  its own steps (`Arrives`).  It may have to finish a round that has just looked too early, with the
  old value in hand, but the next look ends it.

  `awaiting cond` is the `Setting` of such a wait: in company its loads may show anything, alone
  they show a word that satisfies `cond`.  The timed waits get through as well, with whatever
  result: the counter may have passed the deadline.  Only a conversion that divides by zero stops
  one.
-/
import WfeMutex.Conc.Settle
import WfeMutex.Wait.Search
import WfeMutex.Wait.Verdict
import WfeMutex.Wait.Wakeup

set_option linter.unusedVariables false

namespace WfeMutex

open Conc

section
variable {w : Nat} {α : Type}

/-! ## The setting of a wait -/

/-- A wait whose loads show anything, until it is left alone with a word that satisfies `cond`. -/
def awaiting (cond : BitVec w → Prop) : Setting (atomics w) Unit (BitVec w) where
  proto := reads fun _ => True
  alone o a v v' := Effect v o a v'
  good _ v := cond v
  covers := by
    intro _ v o a v' hv hquiet heff
    obtain rfl := heff.eq_of_not_writes (Op.writes_of_quiet hquiet a)
    exact ⟨(), fun _ _ => trivial, hv⟩

variable {cond : BitVec w → Prop} {v : BitVec w}

/-- Every operation of a wait is answered, but for the trap. -/
theorem Effect.live {o : Op w} (hquiet : o.quiet = true) (htrap : o ≠ .trap) (v : BitVec w) :
    ∃ a, Effect v o a v := by
  cases o with
  | loadN mo => exact ⟨v, .loadN v mo⟩
  | loadExclusive => exact ⟨v, .loadExclusive v⟩
  | arm i => exact ⟨(), .arm v i⟩
  | wait i => exact ⟨(), .wait v i⟩
  | doYield => exact ⟨(), .doYield v⟩
  | readCycleCounter d => exact ⟨0, .readCycleCounter v d 0⟩
  | trap => exact absurd rfl htrap
  | storeN | compareExchangeN | fetchSub | printError => cases hquiet

/-- An operation of a wait is one step, and never stuck. -/
theorem settles_act {o : Op w} (hquiet : o.quiet = true) (htrap : o ≠ .trap) :
    Settles (awaiting cond) 1 (act o) () fun _ _ => True := by
  refine Settles.perform hquiet ?_ fun _ _ _ => trivial
  intro v _
  obtain ⟨a, heff⟩ := Effect.live hquiet htrap v
  exact ⟨a, v, heff⟩

theorem settles_load (mo : MemOrder) :
    Settles (awaiting cond) 1 (atomicLoadN mo) () fun _ _ => True :=
  settles_act (o := .loadN mo) rfl (by simp)

theorem settles_waitIn (insn : WaitInsn) :
    Settles (awaiting cond) 1 (waitIn insn) () fun _ _ => True :=
  settles_act (o := .wait insn) rfl (by simp)

theorem settles_counter (d : Option (BitVec 64)) :
    Settles (awaiting cond) 1 (act (.readCycleCounter d)) () fun _ _ => True :=
  settles_act (o := .readCycleCounter d) rfl (by simp)

/-- The five yields of a low-power round. -/
theorem settles_yieldFive : Settles (awaiting cond) 5 (yieldFive w) () fun _ _ => True := by
  have hyield : Settles (awaiting cond) 1 (doYield (w := w)) () fun _ _ => True :=
    settles_act (o := .doYield) rfl (by simp)
  unfold yieldFive
  show Settles (awaiting cond) (1 + (1 + (1 + (1 + 1)))) _ () _
  iterate 4 refine Settles.seq hyield fun _ _ _ => ?_
  exact hyield

/-- A conversion that does not divide by zero. -/
theorem settles_convert {F : CycleScale} {nanoseconds : BitVec 64}
    (h : cyclesForNanoseconds F nanoseconds ≠ none) :
    Settles (awaiting cond) 0 (detectCalculateCyclesForNanoseconds (w := w) F nanoseconds) ()
      fun _ _ => True := by
  unfold detectCalculateCyclesForNanoseconds
  split
  · exact Settles.pure trivial
  · rename_i hnone
    exact absurd hnone h

/-- Alone, an operation does what its effect says. -/
theorem alone_act {o : Op w} {Q : o.Ans → BitVec w → Prop} (hans : ∃ a, Effect v o a v)
    (h : ∀ a v', Effect v o a v' → Q a v') : Within (awaiting cond).alone Q 1 (act o) v := by
  obtain ⟨a, ha⟩ := hans
  exact Within.perform ⟨a, v, ha⟩ h

/-- Alone, a load shows the word. -/
theorem alone_load (mo : MemOrder) :
    Within (awaiting cond).alone (fun r v' => r = v ∧ v' = v) 1 (atomicLoadN mo) v := by
  refine alone_act (o := .loadN mo) ⟨v, .loadN v mo⟩ ?_
  intro r v' heff
  cases heff
  exact ⟨rfl, rfl⟩

/-- So does the load that arms. -/
theorem alone_loadExclusive :
    Within (awaiting cond).alone (fun r v' => r = v ∧ v' = v) 1 loadExclusive v := by
  refine alone_act (o := .loadExclusive) ⟨v, .loadExclusive v⟩ ?_
  intro r v' heff
  cases heff
  exact ⟨rfl, rfl⟩

/-- Yielding leaves the word. -/
theorem alone_yieldFive :
    Within (awaiting cond).alone (fun _ v' => v' = v) 5 (yieldFive w) v := by
  have hyield : Within (awaiting cond).alone (fun _ v' => v' = v) 1 (doYield (w := w)) v := by
    refine alone_act (o := .doYield) ⟨(), .doYield v⟩ ?_
    intro _ v' heff
    cases heff
    rfl
  unfold yieldFive
  show Within _ _ (1 + (1 + (1 + (1 + 1)))) _ v
  iterate 4
    refine Within.seq hyield ?_
    rintro _ _ rfl
  exact hyield

/-! ## The spin loop -/

/-- A value wait of the spin loop: the rest of a round, and a load. -/
theorem settles_spinloopWaitForValue (value : BitVec w) (lowPower : Bool) :
    Settles (awaiting (· = value)) 15 (spinloopWaitForValue w value lowPower) ()
      fun _ _ => True := by
  unfold spinloopWaitForValue
  split
  all_goals
    refine (Settles.iter (n := 1 + (5 + 0)) (k := 1 + 0 + 0 + 1) (I := fun _ _ => True)
      (fun _ _ _ => ?_) ?_ trivial).mono (by omega) fun _ _ h => h
  -- alone, the first load of a round shows the value
  case' isTrue.refine_2 | isFalse.refine_2 =>
    rintro _ _ _ _ rfl
    refine Within.iter (k := 0) (Within.seq (k := 0) (alone_load _) ?_)
    rintro r _ ⟨rfl, rfl⟩
    simp only [bne_self_eq_false]
    exact Within.pure trivial
  · refine Settles.seq (settles_load _) fun r _ _ => ?_
    split
    · exact Settles.seq settles_yieldFive fun _ _ _ => Settles.pure trivial
    · exact Settles.pure trivial
  · refine Settles.seq (settles_load _) fun r _ _ => ?_
    split <;> exact Settles.pure trivial

/-- A bit wait of the spin loop, which in low power tests the load of the round before. -/
theorem settles_spinloopWaitForBit (clear : Nat) (bit : BitVec 8) (lowPower : Bool) :
    Settles (awaiting fun r => bitAt r bit ≠ clear) 15 (spinloopWaitForBit w clear bit lowPower) ()
      fun _ _ => True := by
  unfold spinloopWaitForBit
  split
  · refine (Settles.seq (settles_load _) fun r _ _ => Settles.iter (n := 5 + (1 + 0))
      (k := 5 + (1 + 0) + (0 + 0 + 1) + 1) (I := fun _ _ => True) (fun r _ _ => ?_) ?_ trivial).mono
      (by omega) fun _ _ h => h
    · split
      · refine Settles.seq settles_yieldFive fun _ _ _ => ?_
        exact Settles.seq (settles_load _) fun _ _ _ => Settles.pure trivial
      · exact Settles.pure trivial
    · intro r _ _ v hv
      have hne : bitAt v bit ≠ clear := hv
      have hset : ¬ (bitAt v bit == clear) = true := by simpa using hne
      -- a round that looks at a stale value loads the word for the next one
      refine Within.iter (n := 5 + (1 + 0)) (k := 0 + 0 + 1) ?_
      split
      · refine Within.seq alone_yieldFive ?_
        rintro _ _ rfl
        refine Within.seq (k := 0) (alone_load _) ?_
        rintro r _ ⟨rfl, rfl⟩
        refine Within.pure (Within.iter (n := 0) (k := 0) ?_)
        rw [if_neg hset]
        exact Within.pure trivial
      · exact Within.pure trivial
  · refine (Settles.iter (n := 1 + 0) (k := 1 + 0 + 0 + 1) (I := fun _ _ => True)
      (fun _ _ _ => ?_) ?_ trivial).mono (by omega) fun _ _ h => h
    · refine Settles.seq (settles_load _) fun r _ _ => ?_
      split <;> exact Settles.pure trivial
    · intro _ _ _ v hv
      have hne : bitAt v bit ≠ clear := hv
      have hset : ¬ (bitAt v bit == clear) = true := by simpa using hne
      refine Within.iter (k := 0) (Within.seq (k := 0) (alone_load _) ?_)
      rintro r _ ⟨rfl, rfl⟩
      rw [if_neg hset]
      exact Within.pure trivial

/-- The loop of the timed wait and of the one-shot. -/
theorem settles_spinloopUntil (value : BitVec w) (cyclesEnd : BitVec 64) (lowPower : Bool) :
    Settles (awaiting (· = value)) 9 (spinloopUntil w value cyclesEnd lowPower) ()
      fun _ _ => True := by
  have htest : Settles (awaiting (· = value)) 1
      (do
        if (← readCycleCounterAgainst (w := w) cyclesEnd) ≥ cyclesEnd then
          return Next.leave (σ := Unit) false
        return .again ()) () (Spec.round (fun _ _ => True) fun _ _ => True) := by
    refine Settles.seq (k := 0) (settles_counter _) fun c _ _ => ?_
    split <;> exact Settles.pure trivial
  unfold spinloopUntil
  split
  all_goals
    refine (Settles.iter (n := 1 + (5 + 1)) (k := 1 + 0 + 0 + 1) (I := fun _ _ => True)
      (fun _ _ _ => ?_) ?_ trivial).mono (by omega) fun _ _ h => h
  case' isTrue.refine_2 | isFalse.refine_2 =>
    rintro _ _ _ _ rfl
    refine Within.iter (k := 0) (Within.seq (k := 0) (alone_load _) ?_)
    rintro r _ ⟨rfl, rfl⟩
    simp only [bne_self_eq_false]
    exact Within.pure trivial
  · refine Settles.seq (settles_load _) fun r _ _ => ?_
    split
    · exact Settles.seq settles_yieldFive fun _ _ _ => htest
    · exact Settles.pure trivial
  · refine Settles.seq (settles_load _) fun r _ _ => ?_
    split
    · exact htest.mono (by omega) fun _ _ h => h
    · exact Settles.pure trivial

/-- The timed wait of the spin loop. -/
theorem settles_spinloopWaitForValueTimeout {F : CycleScale} (value : BitVec w)
    {nanoseconds : BitVec 64} (hconv : cyclesForNanoseconds F nanoseconds ≠ none)
    (lowPower : Bool) :
    Settles (awaiting (· = value)) 15 (spinloopWaitForValueTimeout w F value nanoseconds lowPower)
      () fun _ _ => True := by
  unfold spinloopWaitForValueTimeout
  refine (Settles.seq (settles_convert hconv) fun total _ _ => ?_).mono (n := 0 + (1 + 9))
    (by omega) fun _ _ h => h
  refine Settles.seq (settles_counter none) fun beginCycles _ _ => ?_
  exact settles_spinloopUntil value _ lowPower

/-- And its one-shot, which is a timed wait of 10000 cycles. -/
theorem settles_spinloopWaitForValueSpuriousOneshot (value : BitVec w) (lowPower : Bool) :
    Settles (awaiting (· = value)) 15 (spinloopWaitForValueSpuriousOneshot w value lowPower) ()
      fun _ _ => True := by
  unfold spinloopWaitForValueSpuriousOneshot
  refine (Settles.seq (settles_counter none) fun beginCycles _ _ => ?_).mono (n := 1 + 9)
    (by omega) fun _ _ h => h
  exact settles_spinloopUntil value _ lowPower

/-! ## The monitor backends -/

/-- An arming step takes at most two operations, and alone it shows the word. -/
structure ArmsSoon (armAndLoad : Prog (atomics w) (BitVec w)) : Prop where
  settles : ∀ cond : BitVec w → Prop, Settles (awaiting cond) 2 armAndLoad () fun _ _ => True
  alone : ∀ (cond : BitVec w → Prop) (v : BitVec w),
    Within (awaiting cond).alone (fun r v' => r = v ∧ v' = v) 2 armAndLoad v

/-- `ldaxr` arms and loads at once. -/
theorem armsSoon_loadExclusive : ArmsSoon (loadExclusive (w := w)) where
  settles cond := (settles_act (o := .loadExclusive) rfl (by simp)).mono (by omega) fun _ _ h => h
  alone cond v := alone_loadExclusive.mono (by omega)

/-- On x86 a load follows the arming instruction. -/
theorem armsSoon_armThenLoad (insn : ArmInsn) : ArmsSoon (armThenLoad w insn) where
  settles cond :=
    Settles.seq (settles_act (o := .arm insn) rfl (by simp)) fun _ _ _ => settles_load _
  alone cond v := by
    have harm : Within (awaiting cond).alone (fun _ v' => v' = v) 1 (armWith insn) v := by
      refine alone_act (o := .arm insn) ⟨(), .arm v insn⟩ ?_
      intro _ v' heff
      cases heff
      rfl
    refine Within.seq (k := 1) harm ?_
    rintro _ _ rfl
    exact alone_load _

variable {armAndLoad : Prog (atomics w) (BitVec w)}

/-- **The outline of a monitor wait** settles: a round that sleeps on an old value is followed by
    one that looks before it sleeps. -/
theorem settles_monitorWait (harm : ArmsSoon armAndLoad) (insn : WaitInsn)
    {arrived again : BitVec w → Bool} (harrived : ∀ r, cond r → arrived r = true) :
    Settles (awaiting cond) 15 (monitorWait w armAndLoad insn arrived again) ()
      fun _ _ => True := by
  unfold monitorWait
  refine (Settles.seq (settles_load _) fun r _ _ => ?_).mono (n := 1 + (4 + 3)) (by omega)
    fun _ _ h => h
  split
  · exact Settles.pure trivial
  refine Settles.iter (n := 2 + (1 + (1 + 0))) (k := 2 + 0 + 1) (I := fun _ _ => True)
    (fun _ _ _ => ?_) ?_ trivial
  · refine Settles.seq (harm.settles _) fun r _ _ => ?_
    split
    · exact Settles.pure trivial
    refine Settles.seq (settles_waitIn insn) fun _ _ _ => ?_
    refine Settles.seq (settles_load _) fun r _ _ => ?_
    split <;> exact Settles.pure trivial
  · intro _ _ _ v hv
    refine Within.iter (k := 0) (Within.seq (k := 0) (harm.alone _ v) ?_)
    rintro r _ ⟨rfl, rfl⟩
    rw [if_pos (harrived _ hv)]
    exact Within.pure trivial

/-- A value wait built on the outline. -/
theorem settles_monitorWaitForValue (harm : ArmsSoon armAndLoad) (insn : WaitInsn)
    (value : BitVec w) :
    Settles (awaiting (· = value)) 15
      (do let _ ← monitorWait w armAndLoad insn (· == value) (· != value); return ()) ()
      fun _ _ => True := by
  refine Settles.seq (k := 0) (settles_monitorWait harm insn fun r hr => ?_)
    fun _ _ _ => Settles.pure trivial
  simpa using hr

/-- A bit wait built on the outline. -/
theorem settles_monitorWaitForBit (harm : ArmsSoon armAndLoad) (insn : WaitInsn) (x y : Nat)
    (bit : BitVec 8) :
    Settles (awaiting fun r => bitAt r bit = x) 15
      (monitorWait w armAndLoad insn (bitAt · bit == x) (bitAt · bit == y)) ()
      fun _ _ => True :=
  settles_monitorWait harm insn fun r hr => by simpa using hr

/-- The one-shot has no loop. -/
theorem settles_monitorOneshot (harm : ArmsSoon armAndLoad) (insn : WaitInsn) (value : BitVec w) :
    Settles (awaiting cond) 15 (monitorOneshot w armAndLoad insn value) () fun _ _ => True := by
  unfold monitorOneshot
  refine (Settles.seq (settles_load _) fun r _ _ => ?_).mono (n := 1 + (2 + (1 + (1 + 0))))
    (by omega) fun _ _ h => h
  split
  · exact Settles.pure trivial
  refine Settles.seq (harm.settles _) fun r _ _ => ?_
  split
  · exact Settles.pure trivial
  refine Settles.seq (settles_waitIn insn) fun _ _ _ => ?_
  exact Settles.seq (settles_load _) fun _ _ _ => Settles.pure trivial

/-! ### Timed -/

/-- The loop of the timed ARM waits. -/
theorem settles_wfeUntil (insn : WaitInsn) (value : BitVec w) (cyclesEnd : BitVec 64) :
    Settles (awaiting (· = value)) 6 (wfeUntil w insn value cyclesEnd) () fun _ _ => True := by
  unfold wfeUntil
  refine Settles.iter (n := 1 + (1 + (1 + (1 + 0)))) (k := 1 + 0 + 1) (I := fun _ _ => True)
    (fun _ _ _ => ?_) ?_ trivial
  · refine Settles.seq (settles_act (o := .loadExclusive) rfl (by simp)) fun r _ _ => ?_
    split
    · exact Settles.pure trivial
    refine Settles.seq (settles_waitIn insn) fun _ _ _ => ?_
    refine Settles.seq (settles_load _) fun r _ _ => ?_
    refine Settles.seq (settles_counter _) fun c _ _ => ?_
    split
    · exact Settles.pure trivial
    · split <;> exact Settles.pure trivial
  · rintro _ _ _ _ rfl
    refine Within.iter (k := 0) (Within.seq (k := 0) alone_loadExclusive ?_)
    rintro r _ ⟨rfl, rfl⟩
    rw [if_pos (by simp)]
    exact Within.pure trivial

/-- What comes before the loop. -/
theorem settles_early {F : CycleScale} {value : BitVec w} {nanoseconds : BitVec 64}
    {k : BitVec 64 → BitVec 64 → Prog (atomics w) Bool} {n : Nat}
    (hconv : cyclesForNanoseconds F nanoseconds ≠ none)
    (hloop : ∀ total beginCycles, Settles (awaiting cond) n (k total beginCycles) ()
      fun _ _ => True) :
    Settles (awaiting cond) (2 + n)
      (do
        let result ← atomicLoadN .acquire
        if result == value then return true
        let totalCycles ← detectCalculateCyclesForNanoseconds F nanoseconds
        let beginCycles ← readCycleCounter
        k totalCycles beginCycles) () fun _ _ => True := by
  refine (Settles.seq (settles_load _) fun r _ _ => ?_).mono (n := 1 + (0 + (1 + n))) (by omega)
    fun _ _ h => h
  split
  · exact Settles.pure trivial
  refine Settles.seq (settles_convert hconv) fun total _ _ => ?_
  exact Settles.seq (settles_counter none) fun beginCycles _ _ => hloop total beginCycles

/-- The timed waits of both x86 backends. -/
theorem settles_x86WaitForValueTimeout {F : CycleScale} (value : BitVec w)
    {nanoseconds : BitVec 64} (hconv : cyclesForNanoseconds F nanoseconds ≠ none)
    (armInsn : ArmInsn) (insn : BitVec 64 → BitVec 64 → WaitInsn) :
    Settles (awaiting (· = value)) 15
      (x86WaitForValueTimeout w armInsn insn F value nanoseconds) () fun _ _ => True := by
  unfold x86WaitForValueTimeout
  refine (settles_early (n := 5 + 3) hconv fun total beginCycles => ?_).mono (by omega)
    fun _ _ h => h
  have harm := armsSoon_armThenLoad (w := w) armInsn
  refine Settles.iter (n := 2 + (1 + (1 + (1 + 0)))) (k := 2 + 0 + 1) (I := fun _ _ => True)
    (fun lastCycleCounter _ _ => ?_) ?_ trivial
  · refine Settles.seq (harm.settles _) fun r _ _ => ?_
    split
    · exact Settles.pure trivial
    refine Settles.seq (settles_waitIn _) fun _ _ _ => ?_
    refine Settles.seq (settles_counter _) fun c _ _ => ?_
    split
    · exact Settles.pure trivial
    refine Settles.seq (settles_load _) fun r _ _ => ?_
    split <;> exact Settles.pure trivial
  · rintro _ _ _ _ rfl
    refine Within.iter (k := 0) (Within.seq (k := 0) (harm.alone _ _) ?_)
    rintro r _ ⟨rfl, rfl⟩
    rw [if_pos (by simp)]
    exact Within.pure trivial

/-- All timed waits. -/
theorem settles_timed (b : TimedWait w) {F : CycleScale} (value : BitVec w)
    {nanoseconds : BitVec 64} (hconv : cyclesForNanoseconds F nanoseconds ≠ none)
    (lowPower : Bool) :
    Settles (awaiting (· = value)) 15 (b.run F value nanoseconds lowPower) () fun _ _ => True := by
  cases b with
  | spinloop => exact settles_spinloopWaitForValueTimeout value hconv lowPower
  | wfe =>
    exact (settles_early hconv fun _ _ => settles_wfeUntil _ value _).mono (by omega)
      fun _ _ h => h
  | wfet =>
    exact (settles_early hconv fun _ _ => settles_wfeUntil _ value _).mono (by omega)
      fun _ _ h => h
  | wfetI32 =>
    show Settles _ 15 (wfetWaitForValueTimeoutI32 F value nanoseconds lowPower) () _
    unfold wfetWaitForValueTimeoutI32
    refine (Settles.seq (settles_load _) fun r _ _ => ?_).mono (n := 1 + (1 + (0 + 6))) (by omega)
      fun _ _ h => h
    split
    · exact Settles.pure trivial
    refine Settles.seq (settles_counter none) fun beginCycles _ _ => ?_
    exact Settles.seq (settles_convert hconv) fun total _ _ => settles_wfeUntil _ value _
  | mwaitx => exact settles_x86WaitForValueTimeout value hconv _ _
  | waitpkg => exact settles_x86WaitForValueTimeout value hconv _ _

/-! ### All of a backend -/

/-- The untimed waits of one backend settle, the one-shot too. -/
structure UntimedWaits.Settle (W : UntimedWaits w) : Prop where
  value : ∀ value lowPower,
    Settles (awaiting (· = value)) 15 (W.waitForValue value lowPower) () fun _ _ => True
  bitSet : ∀ bit lowPower,
    Settles (awaiting fun v => bitAt v bit = 1) 15 (W.waitForBitSet bit lowPower) ()
      fun _ _ => True
  bitNotSet : ∀ bit lowPower,
    Settles (awaiting fun v => bitAt v bit = 0) 15 (W.waitForBitNotSet bit lowPower) ()
      fun _ _ => True
  oneshot : ∀ value lowPower,
    Settles (awaiting (· = value)) 15 (W.waitForValueSpuriousOneshot value lowPower) ()
      fun _ _ => True

/-- A bit that is not `clear` is `set`. -/
theorem bitAt_eq_iff_ne {clear set : Nat} (hset : set = 1 ∧ clear = 0 ∨ set = 0 ∧ clear = 1)
    (bit : BitVec 8) : (fun v : BitVec w => bitAt v bit = set) = fun v => bitAt v bit ≠ clear := by
  funext v
  have hbit := bitAt_eq_zero_or_one v bit
  refine propext ⟨fun h => ?_, fun h => ?_⟩
  all_goals omega

/-- The untimed waits of the spin loop. -/
theorem spinloopWaits_settle : (spinloopWaits w).Settle where
  value := settles_spinloopWaitForValue
  bitSet bit lowPower := by
    rw [bitAt_eq_iff_ne (Or.inl ⟨rfl, rfl⟩)]
    exact settles_spinloopWaitForBit 0 bit lowPower
  bitNotSet bit lowPower := by
    rw [bitAt_eq_iff_ne (Or.inr ⟨rfl, rfl⟩)]
    exact settles_spinloopWaitForBit 1 bit lowPower
  oneshot := settles_spinloopWaitForValueSpuriousOneshot

/-- Those of a backend with a monitor. -/
theorem Backend.untimedWaits_settle (b : Backend) : (b.untimedWaits w).Settle := by
  cases b with
  | wfe =>
    have harm := armsSoon_loadExclusive (w := w)
    exact ⟨fun value _ => settles_monitorWaitForValue harm _ value,
      fun bit _ => settles_monitorWaitForBit harm _ 1 0 bit,
      fun bit _ => settles_monitorWaitForBit harm _ 0 1 bit,
      fun value _ => settles_monitorOneshot harm _ value⟩
  | mwaitx =>
    have harm := armsSoon_armThenLoad (w := w) monitorx
    exact ⟨fun value _ => settles_monitorWaitForValue harm _ value,
      fun bit _ => settles_monitorWaitForBit harm _ 1 0 bit,
      fun bit _ => settles_monitorWaitForBit harm _ 0 1 bit,
      fun value _ => settles_monitorOneshot harm _ value⟩
  | waitpkg =>
    have harm := armsSoon_armThenLoad (w := w) .umonitor
    exact ⟨fun value _ => settles_monitorWaitForValue harm _ value,
      fun bit _ => settles_monitorWaitForBit harm _ 1 0 bit,
      fun bit _ => settles_monitorWaitForBit harm _ 0 1 bit,
      fun value _ => settles_monitorOneshot harm _ value⟩

/-! ## The waiter and its monitor -/

/-- The program of the waiter takes its next step. -/
def Monitored.OwnStep (s s' : Monitored w α) : Prop :=
  Monitored.Step s s' ∧
    match s.prog with
    | .ret _ => False
    | .op o k => ∃ a, Effect s.word o a s'.word ∧ s'.prog = k a
    | .loop body x k => s'.word = s.word ∧ s'.prog = Prog.unroll body x k

/-- Nobody stores any more: the waiter is never blocked, whatever happens to its monitor, and
    returns within `n` steps of its own. -/
def Monitored.GetsThrough : Nat → Monitored w α → Prop
  | 0, s => ∃ a, s.prog = .ret a
  | n + 1, s => (∃ a, s.prog = .ret a) ∨
      ∀ armed pending, (armed = true → s.armed = true) → (s.pending = true → pending = true) →
        ¬ Monitored.Blocked { s with armed := armed, pending := pending } ∧
        (∃ s', OwnStep { s with armed := armed, pending := pending } s') ∧
        ∀ s', OwnStep { s with armed := armed, pending := pending } s' → GetsThrough n s'

/-- Whatever has happened to the wait `p` so far: once the word satisfies `cond` and is left so, it
    gets through within `n` steps. -/
def Arrives (p : Prog (atomics w) α) (cond : BitVec w → Prop) (n : Nat) : Prop :=
  ∀ (word : BitVec w) (armed pending : Bool) (s : Monitored w α),
    Monitored.Reaches ⟨word, armed, pending, p⟩ s → cond s.word → s.GetsThrough n

/-- The waiter keeps its discipline, and what is left of its wait settles. -/
structure Monitored.Settled (cond : BitVec w → Prop) (n : Nat) (s : Monitored w α) : Prop where
  safe : ∃ seen, s.Safe cond seen
  settles : Settles (awaiting cond) n s.prog () fun _ _ => True

/-- **One step** of anybody. -/
theorem Monitored.Settled.step {n : Nat} {s s' : Monitored w α} (h : s.Settled cond n)
    (hstep : Monitored.Step s s') : s'.Settled cond n := by
  obtain ⟨seen, hsafe⟩ := h.safe
  refine ⟨hsafe.step hstep, ?_⟩
  have hsettles := h.settles
  cases hstep with
  | store v => exact hsettles
  | disturb => exact hsettles
  | arm pending hprog =>
    rw [hprog] at hsettles
    exact hsettles.out.2.2 () () fun x hx => by cases hx
  | loadExclusive pending hprog =>
    rw [hprog] at hsettles
    exact hsettles.out.2.2 s.word () fun _ _ => trivial
  | wake armed pending hprog =>
    rw [hprog] at hsettles
    exact hsettles.out.2.2 () () fun x hx => by cases hx
  | @op o k a v hprog hmon heff =>
    rw [hprog] at hsettles
    exact hsettles.out.2.2 a () fun _ _ => trivial
  | jump hprog =>
    rw [hprog] at hsettles
    exact hsettles.out.2

/-- Whatever the others have done to it, a wait is settled. -/
theorem Monitored.Settled.reaches {n : Nat} {s s' : Monitored w α} (h : s.Settled cond n)
    (hreach : s.Reaches s') : s'.Settled cond n := by
  induction hreach with
  | refl => exact h
  | step _ hstep ih => exact ih.step hstep

/-- On a word that satisfies the condition a safe waiter is not blocked. -/
theorem Monitored.Safe.not_blocked {s : Monitored w α} {seen : Option (BitVec w)}
    (h : s.Safe cond seen) (hcond : cond s.word) : ¬ s.Blocked := by
  rintro ⟨⟨i, k, hprog⟩, harmed, hpending⟩
  have hspec := h.spec
  rw [hprog] at hspec
  obtain ⟨v, hv, hnot⟩ := hspec.out.1
  rw [h.fresh v hv harmed hpending] at hcond
  exact hnot hcond

/-- A waiter that is not done has a step to take, whatever its monitor. -/
theorem Monitored.Settled.moves {n k : Nat} {s : Monitored w α} (h : s.Settled cond n)
    (hwithin : Within (awaiting cond).alone (fun _ _ => True) k s.prog s.word)
    (hnot : ∀ a, s.prog ≠ .ret a) : ∃ s', s.OwnStep s' := by
  unfold Monitored.OwnStep
  have hsettles := h.settles
  cases hprog : s.prog with
  | ret a => exact absurd hprog (hnot a)
  | op o f =>
    rw [hprog] at hsettles hwithin
    have hquiet : o.quiet = true := hsettles.out.2.1
    obtain ⟨a, v, heff⟩ : ∃ a v, Effect s.word o a v := by
      cases k with
      | zero => exact hwithin.elim
      | succ k => exact hwithin.1
    cases heff with
    | loadN mo => exact ⟨_, .op hprog rfl (.loadN _ mo), _, .loadN _ mo, rfl⟩
    | doYield => exact ⟨_, .op hprog rfl (.doYield _), _, .doYield _, rfl⟩
    | readCycleCounter d c =>
      exact ⟨_, .op hprog rfl (.readCycleCounter _ d c), _, .readCycleCounter _ d c, rfl⟩
    | loadExclusive => exact ⟨_, .loadExclusive false hprog, _, .loadExclusive _, rfl⟩
    | arm i => exact ⟨_, .arm false hprog, _, .arm _ i, rfl⟩
    | wait i => exact ⟨_, .wake false false hprog, _, .wait _ i, rfl⟩
    | storeN | exchanged | differs | fetchSub => cases hquiet
  | loop body x f => exact ⟨_, .jump hprog, rfl, rfl⟩

/-- Its step brings it closer to its return, and leaves the word. -/
theorem Monitored.Settled.closer {n k : Nat} {s s' : Monitored w α} (h : s.Settled cond n)
    (hcond : cond s.word)
    (hwithin : Within (awaiting cond).alone (fun _ _ => True) (k + 1) s.prog s.word)
    (hown : s.OwnStep s') :
    cond s'.word ∧ Within (awaiting cond).alone (fun _ _ => True) k s'.prog s'.word := by
  obtain ⟨-, hmove⟩ := hown
  have hsettles := h.settles
  cases hprog : s.prog with
  | ret a =>
    rw [hprog] at hmove
    exact hmove.elim
  | op o f =>
    rw [hprog] at hmove hsettles hwithin
    obtain ⟨a, heff, hprog'⟩ := hmove
    have hquiet : o.quiet = true := hsettles.out.2.1
    have hsame : s'.word = s.word := heff.eq_of_not_writes (Op.writes_of_quiet hquiet a)
    refine ⟨by rw [hsame]; exact hcond, ?_⟩
    rw [hprog']
    exact hwithin.2 a s'.word heff
  | loop body x f =>
    rw [hprog] at hmove hwithin
    obtain ⟨hsame, hprog'⟩ := hmove
    rw [hsame, hprog']
    exact ⟨hcond, hwithin⟩

/-- **A settled waiter whose word satisfies the condition gets through.** -/
theorem Monitored.Settled.getsThrough {n k : Nat} {s : Monitored w α} (h : s.Settled cond n)
    (hcond : cond s.word)
    (hwithin : Within (awaiting cond).alone (fun _ _ => True) k s.prog s.word) :
    s.GetsThrough k := by
  induction k generalizing s with
  | zero =>
    cases hprog : s.prog with
    | ret a => exact ⟨a, hprog⟩
    | op o f =>
      rw [hprog] at hwithin
      exact hwithin.elim
    | loop body x f =>
      rw [hprog] at hwithin
      exact hwithin.elim
  | succ k ih =>
    by_cases hdone : ∃ a, s.prog = .ret a
    · exact Or.inl hdone
    refine Or.inr fun armed pending harm hpend => ?_
    have h' := h.step (.disturb armed pending harm hpend)
    obtain ⟨seen, hsafe⟩ := h'.safe
    refine ⟨hsafe.not_blocked hcond, ?_, ?_⟩
    · exact h'.moves (k := k + 1) hwithin fun a ha => hdone ⟨a, ha⟩
    · intro s' hown
      obtain ⟨hcond', hwithin'⟩ := h'.closer hcond hwithin hown
      exact ih (h'.step hown.1) hcond' hwithin'

/-- A wait that keeps the discipline and settles arrives. -/
theorem arrives_of (cycles : Option (BitVec 64)) {p : Prog (atomics w) α}
    {Q : α → Conduct w → Prop} {n : Nat}
    (hconduct : Spec (conduct cond cycles).proto p .start Q)
    (hsettles : Settles (awaiting cond) n p () fun _ _ => True) : Arrives p cond n := by
  intro word armed pending s hreach hcond
  have hstart : Monitored.Settled cond n ⟨word, armed, pending, p⟩ :=
    ⟨⟨none, watches_of_conduct hconduct, fun v hv => by cases hv⟩, hsettles⟩
  have hend := hstart.reaches hreach
  exact hend.getsThrough hcond (hend.settles.frees s.word hcond)

end

/-! ## All waits of all backends -/

/-- The untimed waits of one backend arrive, the one-shot too. -/
structure UntimedWaits.Arrive {w : Nat} (W : UntimedWaits w) : Prop where
  value : ∀ value lowPower, Arrives (W.waitForValue value lowPower) (· = value) 15
  bitSet : ∀ bit lowPower, Arrives (W.waitForBitSet bit lowPower) (fun v => bitAt v bit = 1) 15
  bitNotSet : ∀ bit lowPower,
    Arrives (W.waitForBitNotSet bit lowPower) (fun v => bitAt v bit = 0) 15
  oneshot : ∀ value lowPower,
    Arrives (W.waitForValueSpuriousOneshot value lowPower) (· = value) 15

section
variable {w : Nat}

/-- The loop of the one-shot keeps the discipline of a timed wait. -/
theorem conduct_spinloopWaitForValueSpuriousOneshot (value : BitVec w) (lowPower : Bool) :
    Spec (conduct (· = value) (some SPURIOUS_WAKEUP_CYCLES)).proto
      (spinloopWaitForValueSpuriousOneshot w value lowPower) .start
      fun r l => r = true → l.seen = some value := by
  refine Spec.seq (conduct_begin rfl) ?_
  rintro beginCycles _ rfl
  exact conduct_spinloopUntil value lowPower rfl rfl

/-- The spin loop has no monitor to keep a discipline with, and so keeps it. -/
theorem spinloopWaits_arrive : (spinloopWaits w).Arrive where
  value value lowPower := arrives_of none (conduct_spinloopWaitForValue value lowPower)
    (spinloopWaits_settle.value value lowPower)
  bitSet bit lowPower := arrives_of none (conduct_spinloopWaitForBit 0 bit lowPower)
    (spinloopWaits_settle.bitSet bit lowPower)
  bitNotSet bit lowPower := arrives_of none
    (conduct_spinloopWaitForBit 1 bit lowPower) (spinloopWaits_settle.bitNotSet bit lowPower)
  oneshot value lowPower := arrives_of _
    (conduct_spinloopWaitForValueSpuriousOneshot value lowPower)
    (spinloopWaits_settle.oneshot value lowPower)

/-- The untimed waits of the monitor backends arrive. -/
theorem Backend.untimedWaits_arrive (b : Backend) : (b.untimedWaits w).Arrive where
  value value lowPower := arrives_of none (b.conduct_waitForValue value lowPower)
    (b.untimedWaits_settle.value value lowPower)
  bitSet bit lowPower := arrives_of none (b.conduct_waitForBitSet bit lowPower)
    (b.untimedWaits_settle.bitSet bit lowPower)
  bitNotSet bit lowPower := arrives_of none (b.conduct_waitForBitNotSet bit lowPower)
    (b.untimedWaits_settle.bitNotSet bit lowPower)
  oneshot value lowPower := arrives_of none
    (b.conduct_waitForValueSpuriousOneshot value lowPower)
    (b.untimedWaits_settle.oneshot value lowPower)

/-- All timed waits keep the discipline, and have seen the value where they say so. -/
theorem TimedWait.conducts (b : TimedWait w) (F : CycleScale) (value : BitVec w)
    (nanoseconds : BitVec 64) (lowPower : Bool) :
    Spec (conduct (· = value) (cyclesForNanoseconds F nanoseconds)).proto
      (b.run F value nanoseconds lowPower) .start fun r l => r = true → l.seen = some value := by
  cases b with
  | spinloop => exact conduct_spinloopWaitForValueTimeout F value nanoseconds lowPower
  | wfe => exact conduct_wfeWaitForValueTimeout F value nanoseconds lowPower
  | wfet => exact conduct_wfetWaitForValueTimeout F value nanoseconds lowPower
  | wfetI32 => exact conduct_wfetWaitForValueTimeoutI32 F nanoseconds lowPower value
  | mwaitx => exact conduct_x86WaitForValueTimeout F value nanoseconds _ _
  | waitpkg => exact conduct_x86WaitForValueTimeout F value nanoseconds _ _

/-- The timed waits arrive, if their conversion has a result. -/
theorem arrives_timed (b : TimedWait w) {F : CycleScale} (value : BitVec w)
    {nanoseconds : BitVec 64} (hconv : cyclesForNanoseconds F nanoseconds ≠ none)
    (lowPower : Bool) : Arrives (b.run F value nanoseconds lowPower) (· = value) 15 :=
  arrives_of _ (b.conducts F value nanoseconds lowPower) (settles_timed b value hconv lowPower)

/-- **A value that has come is noticed**, by every wait of every backend at every width: however
    the word has been changing, once it satisfies the condition and is left so, the waiter is not
    blocked and returns within fifteen of its own steps. -/
theorem every_wait_arrives (w : Nat) :
    (spinloopWaits w).Arrive ∧ (∀ b : Backend, (b.untimedWaits w).Arrive) ∧
      ∀ (b : TimedWait w) (F : CycleScale) (value : BitVec w) (nanoseconds : BitVec 64)
        (lowPower : Bool), cyclesForNanoseconds F nanoseconds ≠ none →
        Arrives (b.run F value nanoseconds lowPower) (· = value) 15 := by
  refine ⟨spinloopWaits_arrive, fun b => b.untimedWaits_arrive, ?_⟩
  intro b F value nanoseconds lowPower hconv
  exact arrives_timed b value hconv lowPower

end

/-- `wfe_wait_for_value_i32` sleeps on a 0 when another agent stores the 1 it waits for; it then
    gets through. -/
theorem every_wait_arrives_stored :
    ∃ s, Monitored.Reaches ⟨0, false, false, wfeWaitForValueI32 1 false⟩ s ∧ s.word = 1 ∧
      s.GetsThrough 15 := by
  have h0 := Monitored.Reaches.refl (s := ⟨0, false, false, wfeWaitForValueI32 1 false⟩)
  have h1 := h0.step (.op rfl rfl (.loadN 0 .acquire))
  have h2 := h1.step (.jump rfl)
  have h3 := h2.step (.loadExclusive false rfl)
  have h4 := h3.step (.store 1)
  exact ⟨_, h4, rfl, ((every_wait_arrives 32).2.1 .wfe).value 1 false 0 false false _ h4 rfl⟩

end WfeMutex
