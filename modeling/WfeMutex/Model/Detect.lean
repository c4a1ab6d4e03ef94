/-
  THE FEATURE TABLE and its detection (`wfe_mutex_features`, `src/detect.c`).

  `Features` is the global that `wfe_mutex_get_features()` returns: the conversion globals, what
  detection found out, and the function pointers through which every wait goes.  `initial` is its
  static initialiser (the spin loop throughout), and `detectArm64`, `detectArm32`, `detectX86` are
  the three `detect()`s as functions of what the processor reports.  On every other architecture
  `detect()` is empty.

  `Platform.features` is then the table a program can find: of any architecture, before or after
  `wfe_mutex_init`, with whatever frequency and scale the frequency detection left behind.
-/
import WfeMutex.Model.Spinloop
import WfeMutex.Model.Monitor

namespace WfeMutex

open Conc

inductive WaitType where
  | spin | wfe | wfet | waitpkg | monitorx
  deriving DecidableEq, Repr

/-- `wfe_mutex_features`. -/
structure Features extends CycleScale where
  cycleHz : BitVec 64
  monitorGranuleSizeBytesMin : BitVec 32
  monitorGranuleSizeBytesMax : BitVec 32
  waitType : WaitType
  waitTypeTimeout : WaitType
  waitForValueI8 : BitVec 8 → Bool → Prog (atomics 8) Unit
  waitForValueI16 : BitVec 16 → Bool → Prog (atomics 16) Unit
  waitForValueI32 : BitVec 32 → Bool → Prog (atomics 32) Unit
  waitForValueI64 : BitVec 64 → Bool → Prog (atomics 64) Unit
  waitForValueTimeoutI8 : CycleScale → BitVec 8 → BitVec 64 → Bool → Prog (atomics 8) Bool
  waitForValueTimeoutI16 : CycleScale → BitVec 16 → BitVec 64 → Bool → Prog (atomics 16) Bool
  waitForValueTimeoutI32 : CycleScale → BitVec 32 → BitVec 64 → Bool → Prog (atomics 32) Bool
  waitForValueTimeoutI64 : CycleScale → BitVec 64 → BitVec 64 → Bool → Prog (atomics 64) Bool
  waitForBitSetI8 : BitVec 8 → Bool → Prog (atomics 8) (BitVec 8)
  waitForBitSetI16 : BitVec 8 → Bool → Prog (atomics 16) (BitVec 16)
  waitForBitSetI32 : BitVec 8 → Bool → Prog (atomics 32) (BitVec 32)
  waitForBitSetI64 : BitVec 8 → Bool → Prog (atomics 64) (BitVec 64)
  waitForBitNotSetI8 : BitVec 8 → Bool → Prog (atomics 8) (BitVec 8)
  waitForBitNotSetI16 : BitVec 8 → Bool → Prog (atomics 16) (BitVec 16)
  waitForBitNotSetI32 : BitVec 8 → Bool → Prog (atomics 32) (BitVec 32)
  waitForBitNotSetI64 : BitVec 8 → Bool → Prog (atomics 64) (BitVec 64)
  waitForValueSpuriousOneshotI8 : BitVec 8 → Bool → Prog (atomics 8) Bool
  waitForValueSpuriousOneshotI16 : BitVec 16 → Bool → Prog (atomics 16) Bool
  waitForValueSpuriousOneshotI32 : BitVec 32 → Bool → Prog (atomics 32) Bool
  waitForValueSpuriousOneshotI64 : BitVec 64 → Bool → Prog (atomics 64) Bool
  supportsWfeMutex : Bool
  supportsTimedWfeMutex : Bool
  supportsLowPowerCstateToggle : Bool

/-- The static initialiser of the global `Features`. -/
def Features.initial : Features where
  cycleHz := 0
  cyclesPerNanosecondMultiplier := 1
  cyclesPerNanosecondDivisor := 1
  monitorGranuleSizeBytesMin := 0
  monitorGranuleSizeBytesMax := 0
  waitType := .spin
  waitTypeTimeout := .spin
  waitForValueI8 := spinloopWaitForValueI8
  waitForValueI16 := spinloopWaitForValueI16
  waitForValueI32 := spinloopWaitForValueI32
  waitForValueI64 := spinloopWaitForValueI64
  waitForValueTimeoutI8 := spinloopWaitForValueTimeoutI8
  waitForValueTimeoutI16 := spinloopWaitForValueTimeoutI16
  waitForValueTimeoutI32 := spinloopWaitForValueTimeoutI32
  waitForValueTimeoutI64 := spinloopWaitForValueTimeoutI64
  waitForBitSetI8 := spinloopWaitForBitSetI8
  waitForBitSetI16 := spinloopWaitForBitSetI16
  waitForBitSetI32 := spinloopWaitForBitSetI32
  waitForBitSetI64 := spinloopWaitForBitSetI64
  waitForBitNotSetI8 := spinloopWaitForBitNotSetI8
  waitForBitNotSetI16 := spinloopWaitForBitNotSetI16
  waitForBitNotSetI32 := spinloopWaitForBitNotSetI32
  waitForBitNotSetI64 := spinloopWaitForBitNotSetI64
  waitForValueSpuriousOneshotI8 := spinloopWaitForValueSpuriousOneshotI8
  waitForValueSpuriousOneshotI16 := spinloopWaitForValueSpuriousOneshotI16
  waitForValueSpuriousOneshotI32 := spinloopWaitForValueSpuriousOneshotI32
  waitForValueSpuriousOneshotI64 := spinloopWaitForValueSpuriousOneshotI64
  supportsWfeMutex := false
  supportsTimedWfeMutex := false
  supportsLowPowerCstateToggle := false

/-! ## ARM -/

/-- `get_exclusive_monitor_granule_size` of AArch64, from `CTR_EL0`: log2 of the words of the
    reservation, 0 meaning that 2KB must be assumed. -/
def getExclusiveMonitorGranuleSize (ctr : BitVec 64) : BitVec 32 :=
  let erg : BitVec 32 := ((ctr >>> 20) &&& 0xF).setWidth 32
  if erg = 0 then 2048 else ((1 : BitVec 32) <<< erg) * 4

/-- What both ARM `detect()`s install: every width up to 32 bits. -/
def Features.installWfe (F : Features) (granule : BitVec 32) : Features :=
  { F with
    waitType := .wfe
    waitTypeTimeout := .wfe
    monitorGranuleSizeBytesMin := granule
    monitorGranuleSizeBytesMax := granule
    waitForValueI8 := wfeWaitForValueI8
    waitForValueI16 := wfeWaitForValueI16
    waitForValueI32 := wfeWaitForValueI32
    waitForValueTimeoutI8 := wfeWaitForValueTimeoutI8
    waitForValueTimeoutI16 := wfeWaitForValueTimeoutI16
    waitForValueTimeoutI32 := wfeWaitForValueTimeoutI32
    waitForValueSpuriousOneshotI8 := wfeWaitForValueSpuriousOneshotI8
    waitForValueSpuriousOneshotI16 := wfeWaitForValueSpuriousOneshotI16
    waitForValueSpuriousOneshotI32 := wfeWaitForValueSpuriousOneshotI32
    waitForBitSetI8 := wfeWaitForBitSetI8
    waitForBitSetI16 := wfeWaitForBitSetI16
    waitForBitSetI32 := wfeWaitForBitSetI32
    waitForBitNotSetI8 := wfeWaitForBitNotSetI8
    waitForBitNotSetI16 := wfeWaitForBitNotSetI16
    waitForBitNotSetI32 := wfeWaitForBitNotSetI32
    supportsWfeMutex := true }

/-- `detect()` on AArch32: the granule is assumed to be 64 bytes. -/
def detectArm32 (F : Features) : Features := F.installWfe 64

/-- `detect()` on AArch64, from `CTR_EL0` and `ID_AA64ISAR2_EL1`. -/
def detectArm64 (ctr isar2 : BitVec 64) (F : Features) : Features :=
  let F := { F.installWfe (getExclusiveMonitorGranuleSize ctr) with
    waitForValueI64 := wfeWaitForValueI64
    waitForValueTimeoutI64 := wfeWaitForValueTimeoutI64
    waitForValueSpuriousOneshotI64 := wfeWaitForValueSpuriousOneshotI64
    waitForBitSetI64 := wfeWaitForBitSetI64
    waitForBitNotSetI64 := wfeWaitForBitNotSetI64 }
  if (isar2 &&& 0xF) ≠ 0 then
    { F with
      waitTypeTimeout := .wfet
      supportsTimedWfeMutex := true
      waitForValueTimeoutI8 := wfetWaitForValueTimeoutI8
      waitForValueTimeoutI16 := wfetWaitForValueTimeoutI16
      waitForValueTimeoutI32 := wfetWaitForValueTimeoutI32
      waitForValueTimeoutI64 := wfetWaitForValueTimeoutI64 }
  else F

/-! ## x86 -/

/-- The registers `cpuid` fills in. -/
structure CpuidRegs where
  eax : BitVec 32
  ebx : BitVec 32
  ecx : BitVec 32
  edx : BitVec 32
  deriving DecidableEq, Repr

/-- The granule sizes of leaf 5, if the processor has it. -/
def Features.withGranule (F : Features) (featureLimit : BitVec 32) (leaf5 : CpuidRegs) :
    Features :=
  if featureLimit ≥ 5 then
    { F with
      monitorGranuleSizeBytesMin := leaf5.eax &&& 0xFFFF
      monitorGranuleSizeBytesMax := leaf5.ebx &&& 0xFFFF }
  else F

def Features.installMwaitx (F : Features) : Features :=
  { F with
    supportsWfeMutex := true
    supportsTimedWfeMutex := true
    supportsLowPowerCstateToggle := true
    waitType := .monitorx
    waitTypeTimeout := .monitorx
    waitForValueI8 := mwaitxWaitForValueI8
    waitForValueI16 := mwaitxWaitForValueI16
    waitForValueI32 := mwaitxWaitForValueI32
    waitForValueI64 := mwaitxWaitForValueI64
    waitForValueTimeoutI8 := mwaitxWaitForValueTimeoutI8
    waitForValueTimeoutI16 := mwaitxWaitForValueTimeoutI16
    waitForValueTimeoutI32 := mwaitxWaitForValueTimeoutI32
    waitForValueTimeoutI64 := mwaitxWaitForValueTimeoutI64
    waitForValueSpuriousOneshotI8 := mwaitxWaitForValueSpuriousOneshotI8
    waitForValueSpuriousOneshotI16 := mwaitxWaitForValueSpuriousOneshotI16
    waitForValueSpuriousOneshotI32 := mwaitxWaitForValueSpuriousOneshotI32
    waitForValueSpuriousOneshotI64 := mwaitxWaitForValueSpuriousOneshotI64
    waitForBitSetI8 := mwaitxWaitForBitSetI8
    waitForBitSetI16 := mwaitxWaitForBitSetI16
    waitForBitSetI32 := mwaitxWaitForBitSetI32
    waitForBitSetI64 := mwaitxWaitForBitSetI64
    waitForBitNotSetI8 := mwaitxWaitForBitNotSetI8
    waitForBitNotSetI16 := mwaitxWaitForBitNotSetI16
    waitForBitNotSetI32 := mwaitxWaitForBitNotSetI32
    waitForBitNotSetI64 := mwaitxWaitForBitNotSetI64 }

def Features.installWaitpkg (F : Features) : Features :=
  { F with
    supportsWfeMutex := true
    supportsTimedWfeMutex := true
    supportsLowPowerCstateToggle := true
    waitType := .waitpkg
    waitTypeTimeout := .waitpkg
    waitForValueI8 := waitpkgWaitForValueI8
    waitForValueI16 := waitpkgWaitForValueI16
    waitForValueI32 := waitpkgWaitForValueI32
    waitForValueI64 := waitpkgWaitForValueI64
    waitForValueTimeoutI8 := waitpkgWaitForValueTimeoutI8
    waitForValueTimeoutI16 := waitpkgWaitForValueTimeoutI16
    waitForValueTimeoutI32 := waitpkgWaitForValueTimeoutI32
    waitForValueTimeoutI64 := waitpkgWaitForValueTimeoutI64
    waitForValueSpuriousOneshotI8 := waitpkgWaitForValueSpuriousOneshotI8
    waitForValueSpuriousOneshotI16 := waitpkgWaitForValueSpuriousOneshotI16
    waitForValueSpuriousOneshotI32 := waitpkgWaitForValueSpuriousOneshotI32
    waitForValueSpuriousOneshotI64 := waitpkgWaitForValueSpuriousOneshotI64
    waitForBitSetI8 := waitpkgWaitForBitSetI8
    waitForBitSetI16 := waitpkgWaitForBitSetI16
    waitForBitSetI32 := waitpkgWaitForBitSetI32
    waitForBitSetI64 := waitpkgWaitForBitSetI64
    waitForBitNotSetI8 := waitpkgWaitForBitNotSetI8
    waitForBitNotSetI16 := waitpkgWaitForBitNotSetI16
    waitForBitNotSetI32 := waitpkgWaitForBitNotSetI32
    waitForBitNotSetI64 := waitpkgWaitForBitNotSetI64 }

/-- `detect()` on x86, from `cpuid` at the leaves it asks for: monitorx first, then waitpkg. -/
def detectX86 (cpuid : BitVec 32 → CpuidRegs) (F : Features) : Features :=
  let featureLimit := (cpuid 0).eax
  if (cpuid 0x80000000).eax ≥ 0x80000001 ∧ ((cpuid 0x80000001).ecx >>> 29) &&& 1 = 1 then
    F.installMwaitx.withGranule featureLimit (cpuid 5)
  else if featureLimit ≥ 7 ∧ ((cpuid 7).ecx >>> 5) &&& 1 = 1 then
    F.installWaitpkg.withGranule featureLimit (cpuid 5)
  else F

/-! ## The tables a program can find -/

/-- The processor a program runs on, as far as `detect()` looks at it. -/
inductive Arch where
  | arm64 (ctr isar2 : BitVec 64)
  | arm32
  | x86 (cpuid : BitVec 32 → CpuidRegs)
  | other

def detect : Arch → Features → Features
  | .arm64 ctr isar2 => detectArm64 ctr isar2
  | .arm32 => detectArm32
  | .x86 cpuid => detectX86 cpuid
  | .other => id

/-- Where and when a program uses the library. -/
structure Platform where
  arch : Arch
  /-- Has `wfe_mutex_init` run? -/
  initialised : Bool
  cycleHz : BitVec 64
  scale : CycleScale

/-- A program that never calls `wfe_mutex_init`, on an architecture without a monitor: "otherwise
    only spin-locks are used". -/
def Platform.uninitialised : Platform := ⟨.other, false, 0, {}⟩

/-- The table `wfe_mutex_get_features()` returns there. -/
def Platform.features (P : Platform) : Features :=
  let F := if P.initialised then detect P.arch .initial else .initial
  { F with toCycleScale := P.scale, cycleHz := P.cycleHz }

end WfeMutex
