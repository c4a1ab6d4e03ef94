/-
  THE CYCLE COUNTER FREQUENCY (`detect_cycle_counter_frequency` in `src/detect.c`, for x86 and for
  ARM), and `wfe_mutex_init`.

  ARM reports the frequency in a register.  On x86, where CPUID leaf 0x15 does not give it, it is
  measured: five samples, each of which reads the counter, spins on `clock_gettime` until one
  millisecond has elapsed, and reads the counter again; the smallest difference counts.  `InitOp`
  are the operations of that measurement.  What the processor answers to `cpuid` is fixed, so
  `cpuid` is a function.

  Two things are parameters.  `crystalHz` is what the product of doubles
  `(double)ecx * ((double)ebx / (double)eax)` gives as a `uint64_t`, and `unset i` are the values
  that `ts_start` and `ts_end` of sample `i` have before anything is written to them: a failed
  `clock_gettime` leaves them.
-/
import WfeMutex.Model.Detect

namespace WfeMutex

open Conc

/-- `struct timespec`. -/
structure Timespec where
  tvSec : Int
  tvNsec : Int
  deriving DecidableEq, Repr

/-- The operations of the initialisation. -/
inductive InitOp where
  /-- `read_cycle_counter`, which is `__rdtsc` here. -/
  | readCycleCounter
  /-- `clock_gettime(CLOCK_MONOTONIC, ..)`. -/
  | clockGettime
  /-- Division by zero. -/
  | trap
  deriving DecidableEq, Repr

/-- What each operation answers; a `clock_gettime` that returns -1 answers `none`. -/
@[reducible] def InitOp.Ans : InitOp → Type
  | .readCycleCounter => BitVec 64
  | .clockGettime => Option Timespec
  | .trap => Empty

abbrev initOps : Sig := ⟨InitOp, InitOp.Ans⟩

def rdtsc : Prog initOps (BitVec 64) := @Prog.perform initOps .readCycleCounter

def clockGettime : Prog initOps (Option Timespec) := @Prog.perform initOps .clockGettime

def initTrap {α : Type} : Prog initOps α := (@Prog.perform initOps .trap).bind fun a => a.elim

/-! ## The measurement -/

def NANOSECOND_PER_MILLISECOND : Int := 1000000

/-- One round of the `do` loop; `continue` goes on to the test with `ts_end` as it is. -/
def spinRound (tsStart tsEnd : Timespec) : Prog initOps (Next Timespec Timespec) := do
  let tsEnd := (← clockGettime).getD tsEnd
  if tsEnd.tvNsec < tsStart.tvNsec + NANOSECOND_PER_MILLISECOND then
    return .again tsEnd
  else
    return .leave tsEnd

/-- "Spin-loop until one millisecond has elapsed." -/
def spinOneMillisecond (tsStart tsEnd : Timespec) : Prog initOps Timespec :=
  .iter (spinRound tsStart) tsEnd

/-- `rdtsc_min` after a sample. -/
def updateMin (rdtscMin rdtscStart rdtscEnd : BitVec 64) : BitVec 64 :=
  let rdtscDiff := rdtscEnd - rdtscStart
  if rdtscDiff ≤ rdtscMin then rdtscDiff else rdtscMin

/-- The body of the `for` loop. -/
def calibrationSample (unset : Timespec × Timespec) (rdtscMin : BitVec 64) :
    Prog initOps (BitVec 64) := do
  let rdtscStart ← rdtsc
  let tsStart := (← clockGettime).getD unset.1
  let _ ← spinOneMillisecond tsStart unset.2
  let rdtscEnd ← rdtsc
  return updateMin rdtscMin rdtscStart rdtscEnd

def calibrationRound (unset : Nat → Timespec × Timespec) :
    Nat × BitVec 64 → Prog initOps (Next (Nat × BitVec 64) (BitVec 64))
  | (i, rdtscMin) =>
    if i < 5 then do
      let rdtscMin ← calibrationSample (unset i) rdtscMin
      return .again (i + 1, rdtscMin)
    else
      return .leave rdtscMin

/-- "Calculate the cycle counter frequency by spin-looping five times and getting the minimum cycle
    counter times": `rdtsc_min`. -/
def calibrate (unset : Nat → Timespec × Timespec) : Prog initOps (BitVec 64) :=
  .iter (calibrationRound unset) (0, ~~~0)

/-! ## The frequency and the scale of x86 -/

/-- The frequency that CPUID leaf 0x15 reports, if the processor has the leaf and no register of it
    that counts is zero. -/
def cpuidFrequency (crystalHz : CpuidRegs → BitVec 64) (cpuid : BitVec 32 → CpuidRegs) :
    Option (BitVec 64) :=
  if (cpuid 0).eax ≥ 0x15 then
    let leaf := cpuid 0x15
    if leaf.eax ≠ 0 ∧ leaf.ebx ≠ 0 ∧ leaf.ecx ≠ 0 then some (crystalHz leaf) else none
  else none

/-- The globals the frequency detection writes. -/
structure CycleRate extends CycleScale where
  cycleHz : BitVec 64
  deriving DecidableEq, Repr

/-- The 10,000 cycle scale of a frequency. -/
def scaleOf (cycleHz : BitVec 64) : Prog initOps CycleRate :=
  if cycleHz = 0 then initTrap
  else return {
    cycleHz
    cyclesPerNanosecondMultiplier := 10000
    cyclesPerNanosecondDivisor := (1000000000 * 10000) / cycleHz }

/-- `detect_cycle_counter_frequency` on x86. -/
def detectCycleCounterFrequency (crystalHz : CpuidRegs → BitVec 64)
    (cpuid : BitVec 32 → CpuidRegs) (unset : Nat → Timespec × Timespec) :
    Prog initOps CycleRate := do
  match cpuidFrequency crystalHz cpuid with
  | some cycleHz => scaleOf cycleHz
  | none =>
    let rdtscMin ← calibrate unset
    scaleOf (rdtscMin * 1000)

/-- `wfe_mutex_init` on x86: the features are detected, then the frequency.  It leaves the table of
    the platform it returns. -/
def wfeMutexInit (crystalHz : CpuidRegs → BitVec 64) (cpuid : BitVec 32 → CpuidRegs)
    (unset : Nat → Timespec × Timespec) : Prog initOps Platform := do
  let rate ← detectCycleCounterFrequency crystalHz cpuid unset
  return { arch := .x86 cpuid, initialised := true, cycleHz := rate.cycleHz,
           scale := rate.toCycleScale }

/-! ## ARM -/

/-- The register that reports the frequency: `CNTFRQ_EL0` on AArch64, `cntfrq` on AArch32. -/
inductive FrequencyRegister where
  | cntfrqEl0 (result : BitVec 64)
  | cntfrq (result : BitVec 32)
  deriving DecidableEq, Repr

/-- `get_cycle_counter_frequency`. -/
def getCycleCounterFrequency : FrequencyRegister → BitVec 64
  | .cntfrqEl0 result => result
  | .cntfrq result => result.setWidth 64

def NANOSECONDS_IN_SECOND : BitVec 64 := 1000000000

/-- What ARM computes from the frequency: above 1 GHz the 10,000 cycle scale, otherwise nanoseconds
    are just divided. -/
def armScaleOf (cycleHz : BitVec 64) : Prog initOps CycleRate :=
  if cycleHz > NANOSECONDS_IN_SECOND then scaleOf cycleHz
  else if cycleHz = 0 then initTrap
  else return {
    cycleHz
    cyclesPerNanosecondMultiplier := 1
    cyclesPerNanosecondDivisor := NANOSECONDS_IN_SECOND / cycleHz }

/-- `detect_cycle_counter_frequency` on ARM. -/
def detectCycleCounterFrequencyArm (register : FrequencyRegister) : Prog initOps CycleRate :=
  armScaleOf (getCycleCounterFrequency register)

/-- An ARM processor, by the registers `wfe_mutex_init` reads. -/
inductive ArmProcessor where
  | aarch64 (ctr isar2 cntfrqEl0 : BitVec 64)
  | aarch32 (cntfrq : BitVec 32)
  deriving DecidableEq, Repr

def ArmProcessor.arch : ArmProcessor → Arch
  | .aarch64 ctr isar2 _ => .arm64 ctr isar2
  | .aarch32 _ => .arm32

def ArmProcessor.frequencyRegister : ArmProcessor → FrequencyRegister
  | .aarch64 _ _ cntfrqEl0 => .cntfrqEl0 cntfrqEl0
  | .aarch32 cntfrq => .cntfrq cntfrq

/-- `wfe_mutex_init` on ARM. -/
def wfeMutexInitArm (processor : ArmProcessor) : Prog initOps Platform := do
  let rate ← detectCycleCounterFrequencyArm processor.frequencyRegister
  return { arch := processor.arch, initialised := true, cycleHz := rate.cycleHz,
           scale := rate.toCycleScale }

/-! ## Every other architecture -/

/-- `wfe_mutex_init` where both detections are empty: the globals keep their initialisers.
    `read_cycle_counter` tells the nanoseconds of `CLOCK_MONOTONIC` there. -/
def wfeMutexInitOther : Prog initOps Platform :=
  return { arch := .other, initialised := true, cycleHz := 0, scale := {} }

end WfeMutex
