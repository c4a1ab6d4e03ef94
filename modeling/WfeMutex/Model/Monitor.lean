/-
  THE MONITOR BACKENDS: `wfe`/`wfet` (`src/implementations_arm64.c`), `monitorx`/`mwaitx`
  (`src/implementations_mwaitx.cpp`) and `umonitor`/`umwait` (`src/implementations_waitpkg.cpp`).

  All waits have one outline: look at the word early; then, round by round, arm the monitor, look
  again, sleep, look once more.  `monitorWait` is that outline with the arming step, the sleeping
  instruction and the two tests as parameters: `arrived` is the test of the early return and of the
  re-check, `again` the test of the loop condition, which the sources write out separately with
  the opposite polarity.  On ARM the arming instruction loads as well (`loadExclusive`), on x86 a
  separate acquire load follows the arming one.

  The timed waits differ in where the deadline is tested.  ARM loads after waking, then reads the
  counter, and uses the loaded value in the loop condition; x86 reads the counter first and loads
  in the loop condition.
-/
import WfeMutex.Model.Cycles

namespace WfeMutex

open Conc

section
variable (w : Nat)

/-! ## The outline of a monitor wait -/

/-- Early look; then rounds of arm-and-look, sleep, look. -/
def monitorWait (armAndLoad : Prog (atomics w) (BitVec w)) (insn : WaitInsn)
    (arrived again : BitVec w → Bool) : Prog (atomics w) (BitVec w) := do
  let result ← atomicLoadN .acquire
  if arrived result then return result
  .iter (fun _ => do
    let result ← armAndLoad
    if arrived result then return .leave result
    waitIn insn
    let result ← atomicLoadN .acquire
    if again result then return .again ()
    return .leave result) ()

/-- One round of the outline, and whether one of its looks saw the value. -/
def monitorOneshot (armAndLoad : Prog (atomics w) (BitVec w)) (insn : WaitInsn)
    (value : BitVec w) : Prog (atomics w) Bool := do
  let result ← atomicLoadN .acquire
  if result == value then return true
  let result ← armAndLoad
  if result == value then return true
  waitIn insn
  let result ← atomicLoadN .acquire
  return result == value

/-! ## ARM -/

def wfeWaitForValue (value : BitVec w) (_lowPower : Bool) : Prog (atomics w) Unit := do
  let _ ← monitorWait w loadExclusive .wfe (· == value) (· != value)
  return ()

def wfeWaitForBitSet (bit : BitVec 8) (_lowPower : Bool) : Prog (atomics w) (BitVec w) :=
  monitorWait w loadExclusive .wfe (bitAt · bit == 1) (bitAt · bit == 0)

def wfeWaitForBitNotSet (bit : BitVec 8) (_lowPower : Bool) : Prog (atomics w) (BitVec w) :=
  monitorWait w loadExclusive .wfe (bitAt · bit == 0) (bitAt · bit == 1)

/-- The loop of the timed `wfe` and `wfet` waits. -/
def wfeUntil (insn : WaitInsn) (value : BitVec w) (cyclesEnd : BitVec 64) :
    Prog (atomics w) Bool :=
  .iter (fun _ => do
    let result ← loadExclusive
    if result == value then return .leave true
    waitIn insn
    let result ← atomicLoadN .acquire
    if (← readCycleCounterAgainst cyclesEnd) ≥ cyclesEnd then return .leave false
    if result != value then return .again ()
    return .leave true) ()

def wfeWaitForValueTimeout (F : CycleScale) (value : BitVec w) (nanoseconds : BitVec 64)
    (_lowPower : Bool) : Prog (atomics w) Bool := do
  let result ← atomicLoadN .acquire
  if result == value then return true
  let totalCycles ← detectCalculateCyclesForNanoseconds F nanoseconds
  let beginCycles ← readCycleCounter
  let cyclesEnd := beginCycles + totalCycles
  wfeUntil w .wfe value cyclesEnd

/-- The three members of the `wfet` family that convert before they read the counter. -/
def wfetWaitForValueTimeout (F : CycleScale) (value : BitVec w) (nanoseconds : BitVec 64)
    (_lowPower : Bool) : Prog (atomics w) Bool := do
  let result ← atomicLoadN .acquire
  if result == value then return true
  let totalCycles ← detectCalculateCyclesForNanoseconds F nanoseconds
  let beginCycles ← readCycleCounter
  let cyclesEnd := beginCycles + totalCycles
  wfeUntil w (.wfet cyclesEnd) value cyclesEnd

/-- `wfet_wait_for_value_timeout_i32` reads the counter before it converts. -/
def wfetWaitForValueTimeoutI32 (F : CycleScale) (value : BitVec 32) (nanoseconds : BitVec 64)
    (_lowPower : Bool) : Prog (atomics 32) Bool := do
  let result ← atomicLoadN .acquire
  if result == value then return true
  let beginCycles ← readCycleCounter
  let totalCycles ← detectCalculateCyclesForNanoseconds F nanoseconds
  let cyclesEnd := beginCycles + totalCycles
  wfeUntil 32 (.wfet cyclesEnd) value cyclesEnd

def wfeWaitForValueSpuriousOneshot (value : BitVec w) (_lowPower : Bool) :
    Prog (atomics w) Bool :=
  monitorOneshot w loadExclusive .wfe value

/-! ## x86: arming and looking are two instructions -/

/-- Arm, then look. -/
def armThenLoad (insn : ArmInsn) : Prog (atomics w) (BitVec w) := do
  armWith insn
  atomicLoadN .acquire

/-- The timed wait of both x86 backends; `insn` builds the sleeping instruction from the deadline
    and the last counter reading. -/
def x86WaitForValueTimeout (armInsn : ArmInsn) (insn : BitVec 64 → BitVec 64 → WaitInsn)
    (F : CycleScale) (value : BitVec w) (nanoseconds : BitVec 64) : Prog (atomics w) Bool := do
  if (← atomicLoadN .acquire) == value then return true
  let totalCycles ← detectCalculateCyclesForNanoseconds F nanoseconds
  let beginCycles ← readCycleCounter
  let cyclesEnd := beginCycles + totalCycles
  .iter (fun lastCycleCounter => do
    if (← armThenLoad w armInsn) == value then return .leave true
    waitIn (insn cyclesEnd lastCycleCounter)
    let lastCycleCounter ← readCycleCounterAgainst cyclesEnd
    if lastCycleCounter ≥ cyclesEnd then return .leave false
    if (← atomicLoadN .acquire) != value then return .again lastCycleCounter
    return .leave true) beginCycles

/-! ### monitorx -/

/-- bit [7:4] + 1 = cstate request; C0 wakes up faster. -/
def waitxHints (lowPower : Bool) : BitVec 32 := if lowPower then 0 else 0xF <<< 4

/-- `monitorx` with no extension and no hint. -/
def monitorx : ArmInsn := .monitorx 0 0

/-- The untimed `mwaitx`. -/
def mwaitx (lowPower : Bool) : WaitInsn := .mwaitx (waitxHints lowPower) 0 none

/-- `cycles_remaining`: the cycles left, clamped to 32 bits. -/
def cyclesRemaining (cyclesEnd lastCycleCounter : BitVec 64) : BitVec 32 :=
  let cyclesU64 := cyclesEnd - lastCycleCounter
  if cyclesU64 ≥ 0xFFFFFFFF then 0xFFFFFFFF else cyclesU64.setWidth 32

/-- The timed `mwaitx`: bit 1 of the extensions says that `ebx` contains a timeout. -/
def mwaitxTimed (lowPower : Bool) (cyclesEnd lastCycleCounter : BitVec 64) : WaitInsn :=
  .mwaitx (waitxHints lowPower) (1 <<< 1) (some (cyclesRemaining cyclesEnd lastCycleCounter))

def mwaitxWaitForValueImpl (value : BitVec w) (lowPower : Bool) : Prog (atomics w) Unit := do
  let _ ← monitorWait w (armThenLoad w monitorx) (mwaitx lowPower) (· == value) (· != value)
  return ()

def mwaitxWaitForBitImpl (expectedValue notExpectedValue : Nat) (bit : BitVec 8)
    (lowPower : Bool) : Prog (atomics w) (BitVec w) :=
  monitorWait w (armThenLoad w monitorx) (mwaitx lowPower)
    (bitAt · bit == expectedValue) (bitAt · bit == notExpectedValue)

def mwaitxWaitForBitSet := mwaitxWaitForBitImpl w 1 0
def mwaitxWaitForBitNotSet := mwaitxWaitForBitImpl w 0 1

def mwaitxWaitForValueTimeout (F : CycleScale) (value : BitVec w) (nanoseconds : BitVec 64)
    (lowPower : Bool) : Prog (atomics w) Bool :=
  x86WaitForValueTimeout w monitorx (mwaitxTimed lowPower) F value nanoseconds

def mwaitxWaitForValueSpuriousOneshotImpl (value : BitVec w) (lowPower : Bool) :
    Prog (atomics w) Bool :=
  monitorOneshot w (armThenLoad w monitorx) (mwaitx lowPower) value

/-! ### waitpkg -/

/-- bit 0 = power state: C0.1 wakes up faster than C0.2. -/
def powerState (lowPower : Bool) : BitVec 32 := if lowPower then 0 else 1

/-- The untimed `umwait`: the largest deadline. -/
def umwait (lowPower : Bool) : WaitInsn :=
  .umwait (powerState lowPower) 0xFFFFFFFF 0xFFFFFFFF

/-- The timed `umwait` waits until an absolute time stamp. -/
def umwaitTimed (lowPower : Bool) (cyclesEnd _lastCycleCounter : BitVec 64) : WaitInsn :=
  .umwait (powerState lowPower) (cyclesEnd.setWidth 32) ((cyclesEnd >>> 32).setWidth 32)

def waitpkgWaitForValueImpl (value : BitVec w) (lowPower : Bool) : Prog (atomics w) Unit := do
  let _ ← monitorWait w (armThenLoad w .umonitor) (umwait lowPower) (· == value) (· != value)
  return ()

def waitpkgWaitForBitImpl (expectedValue notExpectedValue : Nat) (bit : BitVec 8)
    (lowPower : Bool) : Prog (atomics w) (BitVec w) :=
  monitorWait w (armThenLoad w .umonitor) (umwait lowPower)
    (bitAt · bit == expectedValue) (bitAt · bit == notExpectedValue)

def waitpkgWaitForBitSet := waitpkgWaitForBitImpl w 1 0
def waitpkgWaitForBitNotSet := waitpkgWaitForBitImpl w 0 1

def waitpkgWaitForValueTimeout (F : CycleScale) (value : BitVec w) (nanoseconds : BitVec 64)
    (lowPower : Bool) : Prog (atomics w) Bool :=
  x86WaitForValueTimeout w .umonitor (umwaitTimed lowPower) F value nanoseconds

def waitpkgWaitForValueSpuriousOneshotImpl (value : BitVec w) (lowPower : Bool) :
    Prog (atomics w) Bool :=
  monitorOneshot w (armThenLoad w .umonitor) (umwait lowPower) value

end

/-! ## The exported functions -/

def wfeWaitForValueI8 := wfeWaitForValue 8
def wfeWaitForValueI16 := wfeWaitForValue 16
def wfeWaitForValueI32 := wfeWaitForValue 32
def wfeWaitForValueI64 := wfeWaitForValue 64

def wfeWaitForBitSetI8 := wfeWaitForBitSet 8
def wfeWaitForBitSetI16 := wfeWaitForBitSet 16
def wfeWaitForBitSetI32 := wfeWaitForBitSet 32
def wfeWaitForBitSetI64 := wfeWaitForBitSet 64

def wfeWaitForBitNotSetI8 := wfeWaitForBitNotSet 8
def wfeWaitForBitNotSetI16 := wfeWaitForBitNotSet 16
def wfeWaitForBitNotSetI32 := wfeWaitForBitNotSet 32
def wfeWaitForBitNotSetI64 := wfeWaitForBitNotSet 64

def wfeWaitForValueTimeoutI8 := wfeWaitForValueTimeout 8
def wfeWaitForValueTimeoutI16 := wfeWaitForValueTimeout 16
def wfeWaitForValueTimeoutI32 := wfeWaitForValueTimeout 32
def wfeWaitForValueTimeoutI64 := wfeWaitForValueTimeout 64

def wfeWaitForValueSpuriousOneshotI8 := wfeWaitForValueSpuriousOneshot 8
def wfeWaitForValueSpuriousOneshotI16 := wfeWaitForValueSpuriousOneshot 16
def wfeWaitForValueSpuriousOneshotI32 := wfeWaitForValueSpuriousOneshot 32
def wfeWaitForValueSpuriousOneshotI64 := wfeWaitForValueSpuriousOneshot 64

def wfetWaitForValueTimeoutI8 := wfetWaitForValueTimeout 8
def wfetWaitForValueTimeoutI16 := wfetWaitForValueTimeout 16
def wfetWaitForValueTimeoutI64 := wfetWaitForValueTimeout 64

def mwaitxWaitForValueI8 := mwaitxWaitForValueImpl 8
def mwaitxWaitForValueI16 := mwaitxWaitForValueImpl 16
def mwaitxWaitForValueI32 := mwaitxWaitForValueImpl 32
def mwaitxWaitForValueI64 := mwaitxWaitForValueImpl 64

def mwaitxWaitForBitSetI8 := mwaitxWaitForBitSet 8
def mwaitxWaitForBitSetI16 := mwaitxWaitForBitSet 16
def mwaitxWaitForBitSetI32 := mwaitxWaitForBitSet 32
def mwaitxWaitForBitSetI64 := mwaitxWaitForBitSet 64

def mwaitxWaitForBitNotSetI8 := mwaitxWaitForBitNotSet 8
def mwaitxWaitForBitNotSetI16 := mwaitxWaitForBitNotSet 16
def mwaitxWaitForBitNotSetI32 := mwaitxWaitForBitNotSet 32
def mwaitxWaitForBitNotSetI64 := mwaitxWaitForBitNotSet 64

def mwaitxWaitForValueTimeoutI8 := mwaitxWaitForValueTimeout 8
def mwaitxWaitForValueTimeoutI16 := mwaitxWaitForValueTimeout 16
def mwaitxWaitForValueTimeoutI32 := mwaitxWaitForValueTimeout 32
def mwaitxWaitForValueTimeoutI64 := mwaitxWaitForValueTimeout 64

def mwaitxWaitForValueSpuriousOneshotI8 := mwaitxWaitForValueSpuriousOneshotImpl 8
def mwaitxWaitForValueSpuriousOneshotI16 := mwaitxWaitForValueSpuriousOneshotImpl 16
def mwaitxWaitForValueSpuriousOneshotI32 := mwaitxWaitForValueSpuriousOneshotImpl 32
def mwaitxWaitForValueSpuriousOneshotI64 := mwaitxWaitForValueSpuriousOneshotImpl 64

def waitpkgWaitForValueI8 := waitpkgWaitForValueImpl 8
def waitpkgWaitForValueI16 := waitpkgWaitForValueImpl 16
def waitpkgWaitForValueI32 := waitpkgWaitForValueImpl 32
def waitpkgWaitForValueI64 := waitpkgWaitForValueImpl 64

def waitpkgWaitForBitSetI8 := waitpkgWaitForBitSet 8
def waitpkgWaitForBitSetI16 := waitpkgWaitForBitSet 16
def waitpkgWaitForBitSetI32 := waitpkgWaitForBitSet 32
def waitpkgWaitForBitSetI64 := waitpkgWaitForBitSet 64

def waitpkgWaitForBitNotSetI8 := waitpkgWaitForBitNotSet 8
def waitpkgWaitForBitNotSetI16 := waitpkgWaitForBitNotSet 16
def waitpkgWaitForBitNotSetI32 := waitpkgWaitForBitNotSet 32
def waitpkgWaitForBitNotSetI64 := waitpkgWaitForBitNotSet 64

def waitpkgWaitForValueTimeoutI8 := waitpkgWaitForValueTimeout 8
def waitpkgWaitForValueTimeoutI16 := waitpkgWaitForValueTimeout 16
def waitpkgWaitForValueTimeoutI32 := waitpkgWaitForValueTimeout 32
def waitpkgWaitForValueTimeoutI64 := waitpkgWaitForValueTimeout 64

def waitpkgWaitForValueSpuriousOneshotI8 := waitpkgWaitForValueSpuriousOneshotImpl 8
def waitpkgWaitForValueSpuriousOneshotI16 := waitpkgWaitForValueSpuriousOneshotImpl 16
def waitpkgWaitForValueSpuriousOneshotI32 := waitpkgWaitForValueSpuriousOneshotImpl 32
def waitpkgWaitForValueSpuriousOneshotI64 := waitpkgWaitForValueSpuriousOneshotImpl 64

end WfeMutex
