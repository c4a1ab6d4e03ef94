/-
  THE TABLE SAYS WHAT IT CONTAINS, on every processor, before and after `wfe_mutex_init`.

  A user of the library sees the table through `wfe_mutex_get_features()`: the fields `wait_type`
  and `wait_type_timeout`, three flags, the granule sizes, and twenty function pointers, which the
  inline functions `wfe_mutex_wait_for_*` of the header call and the `get_wfe_mutex_*_ptr`
  functions hand out.  `Features.i8` to `Features.i64` are these functions, by width.

  `Features.Coherent` says that the named wait types are those of the functions behind the pointers,
  at every width, and that the flags agree with them.  The one exception is AArch32 after
  `wfe_mutex_init`: `detect()` installs no waits for a `uint64_t` there, so those five stay with the
  spin loop, whatever the wait types say (`wide_waits_spin_on_arm32`).

  What the backends return and when they get through is proved of each of them; so it is true of the
  functions a program calls, at every width (`WaitTable.Sound`).  Calling `wfe_mutex_init` again
  changes no pointer.
-/
import Mathlib.Data.Nat.Bitwise
import WfeMutex.Wait.Arrival

set_option linter.unusedVariables false

namespace WfeMutex

open Conc

/-! ## The public waits -/

/-- The waits of one width as the header offers them; the timed one reads the scale in the table. -/
structure WaitTable (w : Nat) extends UntimedWaits w where
  waitForValueTimeout : CycleScale → BitVec w → BitVec 64 → Bool → Prog (atomics w) Bool

namespace Features
variable (F : Features)

/-- `wfe_mutex_wait_for_value_i8` and the other functions for a `uint8_t`. -/
def i8 : WaitTable 8 where
  waitForValue := F.waitForValueI8
  waitForBitSet := F.waitForBitSetI8
  waitForBitNotSet := F.waitForBitNotSetI8
  waitForValueSpuriousOneshot := F.waitForValueSpuriousOneshotI8
  waitForValueTimeout := F.waitForValueTimeoutI8

/-- The functions for a `uint16_t`. -/
def i16 : WaitTable 16 where
  waitForValue := F.waitForValueI16
  waitForBitSet := F.waitForBitSetI16
  waitForBitNotSet := F.waitForBitNotSetI16
  waitForValueSpuriousOneshot := F.waitForValueSpuriousOneshotI16
  waitForValueTimeout := F.waitForValueTimeoutI16

/-- The functions for a `uint32_t`. -/
def i32 : WaitTable 32 where
  waitForValue := F.waitForValueI32
  waitForBitSet := F.waitForBitSetI32
  waitForBitNotSet := F.waitForBitNotSetI32
  waitForValueSpuriousOneshot := F.waitForValueSpuriousOneshotI32
  waitForValueTimeout := F.waitForValueTimeoutI32

/-- The functions for a `uint64_t`. -/
def i64 : WaitTable 64 where
  waitForValue := F.waitForValueI64
  waitForBitSet := F.waitForBitSetI64
  waitForBitNotSet := F.waitForBitNotSetI64
  waitForValueSpuriousOneshot := F.waitForValueSpuriousOneshotI64
  waitForValueTimeout := F.waitForValueTimeoutI64

end Features

/-! ## What the wait types name -/

/-- The untimed waits of a wait type. -/
def WaitType.untimed : WaitType → (w : Nat) → UntimedWaits w
  | .spin, w => spinloopWaits w
  | .wfe, w | .wfet, w => Backend.wfe.untimedWaits w
  | .waitpkg, w => Backend.waitpkg.untimedWaits w
  | .monitorx, w => Backend.mwaitx.untimedWaits w

/-- The timed wait of a wait type. -/
def WaitType.timed : WaitType → (w : Nat) → TimedWait w
  | .spin, w => .spinloop w
  | .wfe, w => .wfe w
  | .wfet, 32 => .wfetI32
  | .wfet, w => .wfet w
  | .waitpkg, w => .waitpkg w
  | .monitorx, w => .mwaitx w

/-- The waits of one width where untimed waits are of type `t` and timed ones of type `timeout`. -/
def WaitType.table (t timeout : WaitType) (w : Nat) : WaitTable w where
  toUntimedWaits := t.untimed w
  waitForValueTimeout := (timeout.timed w).run

/-- Does `detect()` install waits for a `uint64_t` there? -/
def Arch.wide : Arch → Bool
  | .arm32 => false
  | _ => true

/-- The wait types are those of the functions behind the pointers, and the flags agree. -/
structure Features.Coherent (F : Features) (wide : Bool) : Prop where
  i8 : F.i8 = F.waitType.table F.waitTypeTimeout 8
  i16 : F.i16 = F.waitType.table F.waitTypeTimeout 16
  i32 : F.i32 = F.waitType.table F.waitTypeTimeout 32
  i64 : F.i64 = if wide then F.waitType.table F.waitTypeTimeout 64
    else WaitType.spin.table .spin 64
  supports : F.supportsWfeMutex = true ↔ F.waitType ≠ .spin
  supportsTimed : F.supportsTimedWfeMutex = true ↔
    F.waitTypeTimeout ≠ .spin ∧ F.waitTypeTimeout ≠ .wfe
  supportsLowPower : F.supportsLowPowerCstateToggle = true ↔
    F.waitType = .waitpkg ∨ F.waitType = .monitorx

/-- The granule sizes an architecture reports: on ARM a power of two between a double word and
    128KB, on x86 the 16 bits of `cpuid`, elsewhere nothing. -/
def Features.GranuleOk (F : Features) : Arch → Prop
  | .arm64 _ _ | .arm32 => F.monitorGranuleSizeBytesMin = F.monitorGranuleSizeBytesMax ∧
      ∃ k, 3 ≤ k ∧ k ≤ 17 ∧ F.monitorGranuleSizeBytesMin.toNat = 2 ^ k
  | .x86 _ => F.monitorGranuleSizeBytesMin.toNat < 2 ^ 16 ∧
      F.monitorGranuleSizeBytesMax.toNat < 2 ^ 16
  | .other => F.monitorGranuleSizeBytesMin = 0 ∧ F.monitorGranuleSizeBytesMax = 0

/-! ## Detection -/

/-- Before `wfe_mutex_init` everything spins. -/
theorem initial_coherent (wide : Bool) : Features.initial.Coherent wide := by
  cases wide <;> constructor <;> first | rfl | decide

/-- `mwaitx` for all widths, whatever was there. -/
theorem installMwaitx_coherent (F : Features) : F.installMwaitx.Coherent true := by
  constructor <;> first | rfl | simp [Features.installMwaitx]

/-- `umwait` for all widths. -/
theorem installWaitpkg_coherent (F : Features) : F.installWaitpkg.Coherent true := by
  constructor <;> first | rfl | simp [Features.installWaitpkg]

/-- The granule sizes are not looked at. -/
theorem Features.Coherent.withGranule {F : Features} {wide : Bool} (h : F.Coherent wide)
    (featureLimit : BitVec 32) (leaf5 : CpuidRegs) :
    (F.withGranule featureLimit leaf5).Coherent wide := by
  unfold Features.withGranule
  split
  · exact ⟨h.i8, h.i16, h.i32, h.i64, h.supports, h.supportsTimed, h.supportsLowPower⟩
  · exact h

/-- Detection leaves a coherent table. -/
theorem detect_coherent (arch : Arch) : (detect arch .initial).Coherent arch.wide := by
  cases arch with
  | arm64 ctr isar2 =>
    show (detectArm64 ctr isar2 .initial).Coherent true
    unfold detectArm64
    split
    · constructor <;> first | rfl | simp [Features.installWfe, Features.initial]
    · constructor <;> first | rfl | simp [Features.installWfe, Features.initial]
  | arm32 =>
    show (Features.initial.installWfe 64).Coherent false
    constructor <;> first | rfl | simp [Features.installWfe, Features.initial]
  | x86 cpuid =>
    show (detectX86 cpuid .initial).Coherent true
    dsimp only [detectX86]
    split
    · exact (installMwaitx_coherent _).withGranule _ _
    · split
      · exact (installWaitpkg_coherent _).withGranule _ _
      · exact initial_coherent true
  | other => exact initial_coherent true

/-- Calling `wfe_mutex_init` again finds the same processor and changes nothing. -/
theorem detect_again (arch : Arch) (F : Features) :
    detect arch (detect arch F) = detect arch F := by
  cases arch with
  | arm64 ctr isar2 =>
    show detectArm64 ctr isar2 (detectArm64 ctr isar2 F) = detectArm64 ctr isar2 F
    unfold detectArm64
    split <;> rfl
  | arm32 => rfl
  | x86 cpuid =>
    show detectX86 cpuid (detectX86 cpuid F) = detectX86 cpuid F
    dsimp only [detectX86]
    split
    · unfold Features.withGranule
      split <;> rfl
    · split
      · unfold Features.withGranule
        split <;> rfl
      · rfl
  | other => rfl

/-! ## Granules -/

/-- The exclusives reservation granule is a power of two of words. -/
theorem granule_words {e : BitVec 32} (he : e.toNat < 16) :
    (((1 : BitVec 32) <<< e) * 4).toNat = 2 ^ (e.toNat + 2) := by
  have hlt : 2 ^ e.toNat < 2 ^ 16 := Nat.pow_lt_pow_right (by decide) he
  have hshift : ((1 : BitVec 32) <<< e).toNat = 2 ^ e.toNat := by
    rw [BitVec.shiftLeft_eq', BitVec.toNat_shiftLeft, Nat.shiftLeft_eq]
    show 1 * 2 ^ e.toNat % 2 ^ 32 = _
    rw [Nat.one_mul]
    exact Nat.mod_eq_of_lt (by omega)
  rw [BitVec.toNat_mul, hshift, Nat.pow_add]
  exact Nat.mod_eq_of_lt (by simp; omega)

/-- A granule that the register does not give is taken to be 2KB. -/
theorem granule_arm64 (ctr : BitVec 64) :
    ∃ k, 3 ≤ k ∧ k ≤ 17 ∧ (getExclusiveMonitorGranuleSize ctr).toNat = 2 ^ k := by
  unfold getExclusiveMonitorGranuleSize
  have hlt : (((ctr >>> 20) &&& 0xF).setWidth 32 : BitVec 32).toNat < 16 := by
    have hand : ((ctr >>> 20) &&& 0xF : BitVec 64).toNat ≤ 15 := by
      rw [BitVec.toNat_and]
      exact Nat.and_le_right
    rw [BitVec.toNat_setWidth, Nat.mod_eq_of_lt (by omega)]
    omega
  generalize (((ctr >>> 20) &&& 0xF).setWidth 32 : BitVec 32) = erg at hlt
  dsimp only
  split
  · exact ⟨11, by decide, by decide, rfl⟩
  · rename_i hne
    have hpos : 0 < erg.toNat := by
      refine Nat.pos_of_ne_zero fun hzero => hne ?_
      exact BitVec.eq_of_toNat_eq hzero
    exact ⟨erg.toNat + 2, by omega, by omega, granule_words hlt⟩

theorem toNat_and_ffff (v : BitVec 32) : (v &&& 0xFFFF).toNat < 2 ^ 16 := by
  have hle : (v &&& 0xFFFF).toNat ≤ 0xFFFF := by
    rw [BitVec.toNat_and]
    exact Nat.and_le_right
  omega

/-- Detection reports sizes that there are. -/
theorem detect_granuleOk (arch : Arch) : (detect arch .initial).GranuleOk arch := by
  cases arch with
  | arm64 ctr isar2 =>
    show (detectArm64 ctr isar2 .initial).GranuleOk (.arm64 ctr isar2)
    unfold detectArm64
    split <;> exact ⟨rfl, granule_arm64 ctr⟩
  | arm32 => exact ⟨rfl, 6, by decide, by decide, rfl⟩
  | x86 cpuid =>
    show (detectX86 cpuid .initial).GranuleOk (.x86 cpuid)
    dsimp only [detectX86, Features.withGranule]
    split
    · split
      · exact ⟨toNat_and_ffff _, toNat_and_ffff _⟩
      · exact ⟨by decide, by decide⟩
    · split
      · split
        · exact ⟨toNat_and_ffff _, toNat_and_ffff _⟩
        · exact ⟨by decide, by decide⟩
      · exact ⟨by decide, by decide⟩
  | other => exact ⟨rfl, rfl⟩

/-! ## What a program calls -/

/-- The waits of one width do what a wait is for: what the untimed ones return, what the timed one
    returns, and that all of them get through once their value has come. -/
structure WaitTable.Sound {w : Nat} (T : WaitTable w) : Prop where
  search : T.toUntimedWaits.Search
  tells : ∀ (G : CycleScale) (value : BitVec w) (nanoseconds total : BitVec 64) (lowPower : Bool),
    cyclesForNanoseconds G nanoseconds = some total →
      Tells (T.waitForValueTimeout G value nanoseconds lowPower) value total
  arrive : T.toUntimedWaits.Arrive
  timed : ∀ (G : CycleScale) (value : BitVec w) (nanoseconds : BitVec 64) (lowPower : Bool),
    cyclesForNanoseconds G nanoseconds ≠ none →
      Arrives (T.waitForValueTimeout G value nanoseconds lowPower) (· = value) 15

/-- Every table made of the waits of wait types is sound. -/
theorem table_sound (t timeout : WaitType) (w : Nat) : (t.table timeout w).Sound where
  search := by
    cases t with
    | spin => exact spinloopWaits_search w
    | wfe | wfet => exact Backend.wfe.untimedWaits_search w
    | waitpkg => exact Backend.waitpkg.untimedWaits_search w
    | monitorx => exact Backend.mwaitx.untimedWaits_search w
  tells G value nanoseconds total lowPower htotal :=
    (timeout.timed w).tells value lowPower htotal
  arrive := by
    cases t with
    | spin => exact spinloopWaits_arrive
    | wfe | wfet => exact Backend.wfe.untimedWaits_arrive
    | waitpkg => exact Backend.waitpkg.untimedWaits_arrive
    | monitorx => exact Backend.mwaitx.untimedWaits_arrive
  timed G value nanoseconds lowPower hconv :=
    arrives_timed (timeout.timed w) value hconv lowPower

/-- A coherent table is sound at every width. -/
theorem Features.Coherent.sound {F : Features} {wide : Bool} (h : F.Coherent wide) :
    F.i8.Sound ∧ F.i16.Sound ∧ F.i32.Sound ∧ F.i64.Sound := by
  refine ⟨?_, ?_, ?_, ?_⟩
  · rw [h.i8]
    exact table_sound _ _ 8
  · rw [h.i16]
    exact table_sound _ _ 16
  · rw [h.i32]
    exact table_sound _ _ 32
  · rw [h.i64]
    split
    · exact table_sound _ _ 64
    · exact table_sound _ _ 64

/-- Every table a program can find is coherent. -/
theorem Platform.coherent (P : Platform) :
    P.features.Coherent (!P.initialised || P.arch.wide) := by
  have h : (if P.initialised then detect P.arch .initial else .initial).Coherent
      (!P.initialised || P.arch.wide) := by
    cases P.initialised with
    | true => exact detect_coherent P.arch
    | false => exact initial_coherent true
  exact ⟨h.i8, h.i16, h.i32, h.i64, h.supports, h.supportsTimed, h.supportsLowPower⟩

/-- **The table says what it contains.**  Whatever the processor, before and after
    `wfe_mutex_init`, called once or again: the wait types name the functions behind all twenty
    pointers, except that the five for a `uint64_t` are those of the spin loop once AArch32 is
    initialised; the flags agree with the wait types, and the granule sizes are what the
    architecture can report.  Of the functions, the untimed ones search, a timed one says `true` or
    `false` only where it has seen the value or the deadline, and all get through once their value
    has come, and so never sleep on it. -/
theorem every_table_coherent (P : Platform) :
    P.features.Coherent (!P.initialised || P.arch.wide) ∧
      (P.initialised = true → P.features.GranuleOk P.arch) ∧
      (P.features.i8.Sound ∧ P.features.i16.Sound ∧ P.features.i32.Sound ∧
        P.features.i64.Sound) ∧
      ∀ F, detect P.arch (detect P.arch F) = detect P.arch F := by
  refine ⟨P.coherent, ?_, P.coherent.sound, detect_again P.arch⟩
  intro hinit
  have hdetect := detect_granuleOk P.arch
  unfold Platform.features
  rw [hinit]
  generalize P.arch = arch at hdetect
  cases arch <;> exact hdetect

/-- The exception is real: an AArch32 table says `wfe`, and its 64-bit waits spin. -/
theorem wide_waits_spin_on_arm32 (cycleHz : BitVec 64) (scale : CycleScale) :
    (⟨.arm32, true, cycleHz, scale⟩ : Platform).features.waitType = .wfe ∧
      (⟨.arm32, true, cycleHz, scale⟩ : Platform).features.i64 = WaitType.spin.table .spin 64 :=
  ⟨rfl, rfl⟩

/-- An AArch64 processor with WFxT and a reservation granule of sixteen words. -/
theorem every_table_coherent_wfet :
    ∃ P : Platform, P.features.GranuleOk P.arch ∧ P.features.waitTypeTimeout = .wfet :=
  ⟨⟨.arm64 0x400000 2, true, 0, {}⟩,
    (every_table_coherent ⟨.arm64 0x400000 2, true, 0, {}⟩).2.1 rfl, rfl⟩

end WfeMutex
