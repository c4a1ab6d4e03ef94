/-
  HOW LONG DOES A TIMED WAIT LAST where the frequency is not measured?

  ARM reports the frequency of its counter in a register, newer x86 processors in CPUID leaf 0x15,
  and where there is neither, `read_cycle_counter` tells the nanoseconds of the clock.  Nothing is
  estimated then, and only the conversion makes a wait longer than it was asked to be: by a factor
  that depends on the scale alone (`CycleScale.stretch`), which the truncated reciprocal keeps
  between 1 and one part in the divisor above it.  It is 1 where the division is "a clean divide".

  Around the stretched timeout a wait has two ticks of tolerance, one for each end of the interval
  that the counter rounds to whole ticks (`reported_waits_keep_time`).
-/
import WfeMutex.Init.RealTime

set_option linter.unusedVariables false

namespace WfeMutex

open Conc

/-- `wfe_mutex_init` has found the processor to report `hz` Hz, and has left the table of `P`. -/
inductive InitReported : BitVec 64 → Platform → Prop where
  | arm {processor : ArmProcessor} {tr : List (Act initOps)} {P : Platform} :
      Prog.Trace (wfeMutexInitArm processor) tr (.ret P) →
      InitReported (getCycleCounterFrequency processor.frequencyRegister) P
  | x86 {crystalHz : CpuidRegs → BitVec 64} {cpuid : BitVec 32 → CpuidRegs}
      {unset : Nat → Timespec × Timespec} {tr : List (Act initOps)} {hz : BitVec 64}
      {P : Platform} :
      cpuidFrequency crystalHz cpuid = some hz →
      Prog.Trace (wfeMutexInit crystalHz cpuid unset) tr (.ret P) → InitReported hz P
  | other {tr : List (Act initOps)} {P : Platform} :
      Prog.Trace wfeMutexInitOther tr (.ret P) → InitReported 1000000000 P

/-! ## The scale it leaves behind -/

section
variable {f : CycleFamily} {hz : BitVec 64}

/-- Either version divides by the frequency. -/
theorem one_le_of_scaleOf {tr : List (Act initOps)} {r : CycleRate}
    (h : Prog.Trace (f.scaleOf hz) tr (.ret r)) : 1 ≤ hz.toNat := by
  refine Nat.one_le_iff_ne_zero.mpr fun hzero => ?_
  obtain rfl : hz = 0 := BitVec.eq_of_toNat_eq hzero
  cases f with
  | x86 =>
    cases h with
    | @op _ _ a => exact a.elim
  | arm =>
    cases h with
    | @op _ _ a => exact a.elim

/-- The scale is all that is left of the frequency. -/
theorem finish_of_scaleOf {tr : List (Act initOps)} {P : Platform} {arch : Arch}
    (h : Prog.Trace ((f.scaleOf hz).bind fun rate =>
      .ret (⟨arch, true, rate.cycleHz, rate.toCycleScale⟩ : Platform)) tr (.ret P)) :
    1 ≤ hz.toNat ∧ ∃ r, f.scaleOf hz = .ret r ∧ P.scale = r.toCycleScale := by
  obtain ⟨tr₁, tr₂, r, rfl, hscale, hret⟩ := Prog.Trace.of_bind h
  have hlow := one_le_of_scaleOf hscale
  obtain ⟨r', hr', -⟩ := scaleOf_eq f hlow
  rw [hr'] at hscale
  cases hscale
  cases hret
  exact ⟨hlow, r, hr', rfl⟩

end

/-- **What was reported is what is converted by.** -/
theorem InitReported.scale {hz : BitVec 64} {P : Platform} (h : InitReported hz P) :
    1 ≤ hz.toNat ∧ ∃ (f : CycleFamily) (r : CycleRate), f.scaleOf hz = .ret r ∧
      P.scale = r.toCycleScale := by
  cases h with
  | @arm processor tr P h =>
    obtain ⟨hlow, r, hr, hP⟩ := finish_of_scaleOf (f := .arm) h
    exact ⟨hlow, .arm, r, hr, hP⟩
  | @x86 crystalHz cpuid unset tr hz P hcpuid h =>
    have hinit : wfeMutexInit crystalHz cpuid unset = (CycleFamily.x86.scaleOf hz).bind fun rate =>
        .ret (⟨.x86 cpuid, true, rate.cycleHz, rate.toCycleScale⟩ : Platform) := by
      unfold wfeMutexInit detectCycleCounterFrequency
      rw [hcpuid]
      rfl
    rw [hinit] at h
    obtain ⟨hlow, r, hr, hP⟩ := finish_of_scaleOf h
    exact ⟨hlow, .x86, r, hr, hP⟩
  | other h =>
    cases h
    exact ⟨by decide, .arm, ⟨⟨1, 1⟩, 1000000000⟩, rfl, rfl⟩

/-! ## The stretch -/

section
variable {f : CycleFamily} {hz : BitVec 64} {r : CycleRate}

/-- At the reported frequency the stretch is between 1 and one part in the divisor above it. -/
theorem stretch_reported (hlow : 1 ≤ hz.toNat) (hhigh : hz.toNat ≤ 10000000000000)
    (hr : f.scaleOf hz = .ret r) :
    1 ≤ r.stretch (hz.toNat / 1000000000) ∧
      r.stretch (hz.toNat / 1000000000) ≤ 1 + 1 / r.cyclesPerNanosecondDivisor.toNat := by
  have hrate : (0 : ℝ) < hz.toNat / 1000000000 := by
    have : (0 : ℝ) < hz.toNat := by exact_mod_cast hlow
    positivity
  have hpos : 0 < r.cyclesPerNanosecondDivisor.toNat := by
    obtain ⟨_, hscale, -, -, hdiv⟩ := scaleOf_eq f hlow
    cases hscale.symm.trans hr
    rw [hdiv]
    exact Nat.div_pos (f.le_multiplier hhigh) hlow
  have hge := le_stretch hrate hlow hr hpos
  have hle := stretch_le hrate hlow hr hpos
  constructor
  · exact le_of_mul_le_mul_left (by linarith) hrate
  · exact le_of_mul_le_mul_left (by linarith) hrate

/-- A clean divide does not stretch. -/
theorem stretch_of_dvd (hlow : 1 ≤ hz.toNat) (hr : f.scaleOf hz = .ret r)
    (hdvd : hz.toNat ∣ 1000000000 * r.cyclesPerNanosecondMultiplier.toNat) :
    r.stretch (hz.toNat / 1000000000) = 1 := by
  obtain ⟨_, hscale, -, hmul, hdiv⟩ := scaleOf_eq f hlow
  cases hscale.symm.trans hr
  have hm : 0 < r.cyclesPerNanosecondMultiplier.toNat := by
    rcases f.multiplier_eq hz.toNat with h | h
    all_goals omega
  rw [← hmul] at hdiv
  have hexact : r.cyclesPerNanosecondDivisor.toNat * hz.toNat =
      1000000000 * r.cyclesPerNanosecondMultiplier.toNat := by
    rw [hdiv]
    exact Nat.div_mul_cancel hdvd
  have hcast : (r.cyclesPerNanosecondDivisor.toNat : ℝ) * hz.toNat =
      1000000000 * r.cyclesPerNanosecondMultiplier.toNat := by exact_mod_cast hexact
  have hmul' : (r.cyclesPerNanosecondMultiplier.toNat : ℝ) ≠ 0 := by
    exact_mod_cast hm.ne'
  unfold CycleScale.stretch
  rw [div_div, ← mul_div_assoc, hcast]
  field_simp

end

/-! ## Timed waits -/

/-- Every timed wait in a table is that of a backend. -/
theorem Platform.timed_waits (P : Platform) :
    (∃ b : TimedWait 8, P.features.i8.waitForValueTimeout = b.run) ∧
      (∃ b : TimedWait 16, P.features.i16.waitForValueTimeout = b.run) ∧
      (∃ b : TimedWait 32, P.features.i32.waitForValueTimeout = b.run) ∧
      ∃ b : TimedWait 64, P.features.i64.waitForValueTimeout = b.run := by
  have hcoherent := P.coherent
  refine ⟨⟨P.features.waitTypeTimeout.timed 8, ?_⟩, ⟨P.features.waitTypeTimeout.timed 16, ?_⟩,
    ⟨P.features.waitTypeTimeout.timed 32, ?_⟩, ?_⟩
  · rw [hcoherent.i8]
    rfl
  · rw [hcoherent.i16]
    rfl
  · rw [hcoherent.i32]
    rfl
  · rw [hcoherent.i64]
    split
    · exact ⟨P.features.waitTypeTimeout.timed 64, rfl⟩
    · exact ⟨.spinloop 64, rfl⟩

/-- **Timed waits keep time** wherever the frequency is reported, at every width of the table that
    `wfe_mutex_init` leaves behind: stretched by the conversion, and to within two ticks. -/
theorem reported_waits_keep_time {hz : BitVec 64} {P : Platform} (h : InitReported hz P)
    (hhigh : hz.toNat ≤ 10000000000000) (offset : ℝ) :
    let F := P.features
    let rate : ℝ := hz.toNat / 1000000000
    let stretch := F.stretch rate
    let least := fun ns => stretch * ns - (2 : ℕ) / rate
    let most := fun ns => stretch * ns + 1 / rate
    (1 ≤ stretch ∧ stretch ≤ 1 + 1 / F.cyclesPerNanosecondDivisor.toNat ∧
      (hz.toNat ∣ 1000000000 * F.cyclesPerNanosecondMultiplier.toNat → stretch = 1)) ∧
    F.i8.KeepsTime F.toCycleScale rate offset least most ∧
      F.i16.KeepsTime F.toCycleScale rate offset least most ∧
      F.i32.KeepsTime F.toCycleScale rate offset least most ∧
      F.i64.KeepsTime F.toCycleScale rate offset least most := by
  obtain ⟨hlow, f, r, hr, hscale⟩ := h.scale
  have hrate : (0 : ℝ) < hz.toNat / 1000000000 := by
    have : (0 : ℝ) < hz.toNat := by exact_mod_cast hlow
    positivity
  have hF : P.features.toCycleScale = r.toCycleScale := hscale
  obtain ⟨⟨b8, h8⟩, ⟨b16, h16⟩, ⟨b32, h32⟩, ⟨b64, h64⟩⟩ := P.timed_waits
  dsimp only
  rw [hF]
  obtain ⟨hge, hle⟩ := stretch_reported hlow hhigh hr
  exact ⟨⟨hge, hle, stretch_of_dvd hlow hr⟩, keepsTime_of_stretch h8 hrate offset,
    keepsTime_of_stretch h16 hrate offset, keepsTime_of_stretch h32 hrate offset,
    keepsTime_of_stretch h64 hrate offset⟩

/-! ### A counter of 31.25 MHz -/

/-- An AArch64 processor without WFxT. -/
def tegra : ArmProcessor := .aarch64 0x400000 0 31250000

/-- A tick is 32 nanoseconds, a clean divide. -/
theorem tegra_reported :
    InitReported 31250000 ⟨.arm64 0x400000 0, true, 31250000, ⟨1, 32⟩⟩ :=
  @InitReported.arm tegra [] _ (.nil _)

/-- A wait that begins when the counter does, and next reads it two seconds later. -/
def twoSecondsSlow : Streams 32 where
  load _ := 0
  beginCycles := 0
  reading _ := 62500000

/-- A `wfe` wait of a second is over by then. -/
theorem reported_waits_keep_time_tegra :
    CycleScale.stretch ⟨1, 32⟩ (31250000 / 1000000000) = 1 ∧
      Returns twoSecondsSlow.answer (wfeWaitForValueTimeoutI32 ⟨1, 32⟩ 1 1000000000 false) {} := by
  obtain ⟨⟨-, -, hclean⟩, -, -, hkeeps, -⟩ :=
    reported_waits_keep_time tegra_reported (by decide) 0
  have hstretch : CycleScale.stretch ⟨1, 32⟩ (31250000 / 1000000000) = 1 := hclean (by decide)
  refine ⟨hstretch, ?_⟩
  have hclock : twoSecondsSlow.Clocked (31250000 / 1000000000) 0 0 fun _ => 2000000000 := by
    constructor
    · simp [twoSecondsSlow, ticks]
    · intro k
      have hticks : (31250000 / 1000000000 * 2000000000 + 0 : ℝ) = (62500000 : ℕ) := by norm_num
      unfold ticks
      rw [hticks]
      exact (Int.floor_natCast 62500000).symm
  refine (hkeeps 1 1000000000 31250000 false twoSecondsSlow 0 _ hclock (by decide) (by decide)
    (by decide)).ends 0 ?_
  show CycleScale.stretch ⟨1, 32⟩ (31250000 / 1000000000) * ((1000000000 : Nat) : ℝ) +
    1 / (31250000 / 1000000000) ≤ 2000000000 - 0
  rw [hstretch]
  norm_num

end WfeMutex
