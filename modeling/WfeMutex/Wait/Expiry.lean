/-
  A TIMED WAIT MAY TIME OUT, on every backend, while the word is not what it waits for.

  `Wait.Verdict` says which loads and readings decide a timed wait.  Here the converse is needed:
  for every wait and every timeout there are answers under which it gives up.  The counter begins
  at some value and, when it is next read, has reached the deadline; a counter does that.  What the
  deadline is, wrapped or not, plays no part.
-/
import WfeMutex.Conc.May
import WfeMutex.Wait.Verdict

set_option linter.unusedVariables false

namespace WfeMutex

open Conc

section
variable {w : Nat} {α : Type}

/-- Alone with the word `v`, the program may return `a` and leave the word `v'`. -/
abbrev WordMay (p : Prog (atomics w) α) (v : BitVec w) (a : α) (v' : BitVec w) : Prop :=
  May (fun o a v v' => Effect v o a v') p v a v'

variable {v value : BitVec w}

/-- Any answer an operation can have. -/
theorem may_act {o : Op w} {a : o.Ans} {v' : BitVec w} (h : Effect v o a v') :
    WordMay (act o) v a v' :=
  May.perform h

theorem may_load (mo : MemOrder) : WordMay (atomicLoadN mo) v v v :=
  may_act (.loadN v mo)

theorem may_loadExclusive : WordMay loadExclusive v v v :=
  may_act (.loadExclusive v)

theorem may_waitIn (insn : WaitInsn) : WordMay (waitIn insn) v () v :=
  may_act (.wait v insn)

/-- The counter may show anything. -/
theorem may_counter (c : BitVec 64) : WordMay readCycleCounter v c v :=
  may_act (.readCycleCounter v none c)

/-- Also when it is read to test a deadline. -/
theorem may_counterAgainst (cyclesEnd c : BitVec 64) :
    WordMay (readCycleCounterAgainst cyclesEnd) v c v :=
  may_act (.readCycleCounter v (some cyclesEnd) c)

theorem may_yieldFive : WordMay (yieldFive w) v () v := by
  have hyield : WordMay doYield v () v := may_act (.doYield v)
  unfold yieldFive
  iterate 4 refine May.seq hyield ?_
  exact hyield

theorem may_armThenLoad (insn : ArmInsn) : WordMay (armThenLoad w insn) v v v := by
  unfold armThenLoad
  exact May.seq (may_act (.arm v insn)) (may_load .acquire)

/-- A conversion that does not trap has a result. -/
theorem may_convert {F : CycleScale} {nanoseconds : BitVec 64}
    (h : cyclesForNanoseconds F nanoseconds ≠ none) :
    ∃ total, WordMay (detectCalculateCyclesForNanoseconds F nanoseconds) v total v := by
  unfold detectCalculateCyclesForNanoseconds
  split
  · rename_i total _
    exact ⟨total, May.pure total v⟩
  · rename_i hnone
    exact absurd hnone h

/-! ## The loops -/

/-- The spin loop gives up in its first round. -/
theorem may_spinloopUntil (hne : v ≠ value) (cyclesEnd : BitVec 64) (lowPower : Bool) :
    WordMay (spinloopUntil w value cyclesEnd lowPower) v false v := by
  have htest : WordMay (do
      if (← readCycleCounterAgainst (w := w) cyclesEnd) ≥ cyclesEnd then
        return Next.leave (σ := Unit) false
      return .again ()) v (.leave false) v := by
    refine May.seq (may_counterAgainst cyclesEnd cyclesEnd) ?_
    rw [if_pos (BitVec.le_refl cyclesEnd)]
    exact May.pure _ v
  unfold spinloopUntil
  split
  · refine May.iter (May.seq (may_load .acquire) ?_)
    rw [if_pos (by simpa using hne)]
    exact May.seq may_yieldFive htest
  · refine May.iter (May.seq (may_load .acquire) ?_)
    rw [if_pos (by simpa using hne)]
    exact htest

/-- So does the loop of the ARM waits: the counter is read before the load is looked at. -/
theorem may_wfeUntil (hne : v ≠ value) (insn : WaitInsn) (cyclesEnd : BitVec 64) :
    WordMay (wfeUntil w insn value cyclesEnd) v false v := by
  unfold wfeUntil
  refine May.iter (May.seq may_loadExclusive ?_)
  rw [if_neg (by simpa using hne)]
  refine May.seq (may_waitIn insn) ?_
  refine May.seq (may_load .acquire) ?_
  refine May.seq (may_counterAgainst cyclesEnd cyclesEnd) ?_
  rw [if_pos (BitVec.le_refl cyclesEnd)]
  exact May.pure _ v

/-- What comes before the loop, when the word is not there yet. -/
theorem may_early (hne : v ≠ value) {F : CycleScale} {nanoseconds : BitVec 64}
    {k : BitVec 64 → BitVec 64 → Prog (atomics w) Bool}
    (hconv : cyclesForNanoseconds F nanoseconds ≠ none)
    (hloop : ∀ total beginCycles, WordMay (k total beginCycles) v false v) :
    WordMay (do
      let result ← atomicLoadN .acquire
      if result == value then return true
      let totalCycles ← detectCalculateCyclesForNanoseconds F nanoseconds
      let beginCycles ← readCycleCounter
      k totalCycles beginCycles) v false v := by
  obtain ⟨total, hconvert⟩ := may_convert (v := v) hconv
  refine May.seq (may_load .acquire) ?_
  rw [if_neg (by simpa using hne)]
  refine May.seq hconvert ?_
  exact May.seq (may_counter 0) (hloop total 0)

/-- So do both x86 backends. -/
theorem may_x86WaitForValueTimeout (hne : v ≠ value) {F : CycleScale} {nanoseconds : BitVec 64}
    (hconv : cyclesForNanoseconds F nanoseconds ≠ none) (armInsn : ArmInsn)
    (insn : BitVec 64 → BitVec 64 → WaitInsn) :
    WordMay (x86WaitForValueTimeout w armInsn insn F value nanoseconds) v false v := by
  unfold x86WaitForValueTimeout
  refine may_early hne hconv fun total beginCycles => ?_
  refine May.iter (May.seq (may_armThenLoad armInsn) ?_)
  rw [if_neg (by simpa using hne)]
  refine May.seq (may_waitIn _) ?_
  refine May.seq (may_counterAgainst (beginCycles + total) (beginCycles + total)) ?_
  rw [if_pos (BitVec.le_refl _)]
  exact May.pure _ v

/-! ## All timed waits -/

/-- **Every timed wait may time out** while the word is another. -/
theorem TimedWait.may_expire (b : TimedWait w) (hne : v ≠ value) {F : CycleScale}
    {nanoseconds : BitVec 64} (hconv : cyclesForNanoseconds F nanoseconds ≠ none)
    (lowPower : Bool) : WordMay (b.run F value nanoseconds lowPower) v false v := by
  obtain ⟨total, hconvert⟩ := may_convert (v := v) hconv
  cases b with
  | spinloop =>
    show WordMay (spinloopWaitForValueTimeout w F value nanoseconds lowPower) v false v
    unfold spinloopWaitForValueTimeout
    refine May.seq hconvert ?_
    refine May.seq (may_counter 0) ?_
    exact may_spinloopUntil hne _ lowPower
  | wfe => exact may_early hne hconv fun _ _ => may_wfeUntil hne _ _
  | wfet => exact may_early hne hconv fun _ _ => may_wfeUntil hne _ _
  | wfetI32 =>
    show WordMay (wfetWaitForValueTimeoutI32 F value nanoseconds lowPower) v false v
    unfold wfetWaitForValueTimeoutI32
    refine May.seq (may_load .acquire) ?_
    rw [if_neg (by simpa using hne)]
    refine May.seq (may_counter 0) ?_
    refine May.seq hconvert ?_
    exact may_wfeUntil hne _ _
  | mwaitx => exact may_x86WaitForValueTimeout hne hconv _ _
  | waitpkg => exact may_x86WaitForValueTimeout hne hconv _ _

end

end WfeMutex
