/-
  DOES THE FREQUENCY DETECTION DIVIDE BY ZERO?

  `detect_cycle_counter_frequency` divides once, by the frequency, and leaves the quotient behind
  as the divisor of every later conversion.  The frequency comes from a register on ARM, from CPUID
  leaf 0x15 or from five samples of the cycle counter on x86 (`CycleSource.frequency`), and none of
  them is checked further than that the three CPUID registers are not zero.

  The product that CPUID stands for is taken exactly here (`exactCrystalHz`).

  So there is one frequency too low, zero, which traps at once, and there are frequencies too high,
  above 10^13 Hz, which leave a divisor of zero: the detection divides safely exactly between the
  two (`detection_divides_safely_iff`).  The samples count by their smallest difference only
  (`calibrate_reads`).
-/
import WfeMutex.Init.Calibration
import WfeMutex.Init.Conversion

set_option linter.unusedVariables false

namespace WfeMutex

open Conc

/-! ## The sources of a frequency -/

/-- What a version of `detect_cycle_counter_frequency` starts from. -/
inductive CycleSource where
  | arm (register : FrequencyRegister)
  | x86 (cpuid : BitVec 32 → CpuidRegs) (unset : Nat → Timespec × Timespec)

/-- `ecx * ebx / eax`, computed exactly and truncated.  What the code computes is a product of
    doubles, which is rounded and can be less: with 49, 1 and 49 in `eax`, `ebx` and `ecx` the
    quotient is 1, and the double below it is truncated to 0. -/
def exactCrystalHz (leaf : CpuidRegs) : BitVec 64 :=
  BitVec.ofNat 64 (leaf.ecx.toNat * leaf.ebx.toNat / leaf.eax.toNat)

/-- The smallest of five differences. -/
def leastDifference (d : Nat → Nat) : Nat := min (d 0) (min (d 1) (min (d 2) (min (d 3) (d 4))))

namespace CycleSource

def family : CycleSource → CycleFamily
  | .arm _ => .arm
  | .x86 _ _ => .x86

def detect : CycleSource → Prog initOps CycleRate
  | .arm register => detectCycleCounterFrequencyArm register
  | .x86 cpuid unset => detectCycleCounterFrequency exactCrystalHz cpuid unset

/-- The frequency in Hz: reported, or a thousand times the smallest difference modulo 2^64.  Reading
    `n` of the cycle counter is `tsc n`. -/
def frequency (tsc : Nat → BitVec 64) : CycleSource → Nat
  | .arm (.cntfrqEl0 result) => result.toNat
  | .arm (.cntfrq result) => result.toNat
  | .x86 cpuid _ =>
    let leaf := cpuid 0x15
    if (cpuid 0).eax ≥ 0x15 ∧ leaf.eax ≠ 0 ∧ leaf.ebx ≠ 0 ∧ leaf.ecx ≠ 0 then
      leaf.ecx.toNat * leaf.ebx.toNat / leaf.eax.toNat
    else
      leastDifference (fun i => (tsc (2 * i + 1) - tsc (2 * i)).toNat) * 1000 % 2 ^ 64

end CycleSource

/-! ## The readings -/

/-- Reading `n` of the cycle counter is `tsc n`; the clock may read anything, and may fail.  No
    division by zero is allowed. -/
def counterReads (tsc : Nat → BitVec 64) : Proto initOps Nat where
  pre _ o := o ≠ .trap
  post n o a n' :=
    match o with
    | .readCycleCounter => a = tsc n ∧ n' = n + 1
    | .clockGettime => n' = n
    | .trap => False

/-- **Safe division**: whatever the clock does, the detection never comes to divide by zero, and the
    divisor it ends with is good for every timeout. -/
def DividesSafely (tsc : Nat → BitVec 64) (p : Prog initOps CycleRate) : Prop :=
  ∀ tr n q, (counterReads tsc).Admits 0 tr n → Prog.Trace p tr q →
    (∀ k, q ≠ @Prog.op initOps CycleRate .trap k) ∧
      ∀ rate, q = .ret rate → 1 ≤ rate.cyclesPerNanosecondDivisor.toNat ∧
        ∀ nanoseconds, cyclesForNanoseconds rate.toCycleScale nanoseconds ≠ none

section
variable {tsc : Nat → BitVec 64} {n : Nat}

/-! ## The calibration -/

theorem reads_rdtsc :
    Spec (counterReads tsc) rdtsc n fun a n' => a = tsc n ∧ n' = n + 1 :=
  Spec.perform (fun h => by cases h) fun _ _ h => h

theorem reads_clockGettime : Spec (counterReads tsc) clockGettime n fun _ n' => n' = n :=
  Spec.perform (fun h => by cases h) fun _ _ h => h

theorem reads_spinOneMillisecond (tsStart tsEnd : Timespec) :
    Spec (counterReads tsc) (spinOneMillisecond tsStart tsEnd) n fun _ n' => n' = n := by
  refine Spec.iter (I := fun _ n' => n' = n) ?_ rfl
  rintro tsEnd _ rfl
  refine Spec.seq reads_clockGettime ?_
  rintro r _ rfl
  dsimp only
  split
  · exact Spec.pure rfl
  · exact Spec.pure rfl

/-- A sample takes two readings. -/
theorem reads_calibrationSample (unset : Timespec × Timespec) (m : BitVec 64) :
    Spec (counterReads tsc) (calibrationSample unset m) n
      fun m' n' => m' = updateMin m (tsc n) (tsc (n + 1)) ∧ n' = n + 2 := by
  refine Spec.seq reads_rdtsc ?_
  rintro _ _ ⟨rfl, rfl⟩
  refine Spec.seq reads_clockGettime ?_
  rintro r _ rfl
  refine Spec.seq (reads_spinOneMillisecond _ _) ?_
  rintro _ _ rfl
  refine Spec.seq reads_rdtsc ?_
  rintro _ _ ⟨rfl, rfl⟩
  exact Spec.pure ⟨rfl, rfl⟩

/-- **The calibration** returns the smallest of the five differences. -/
theorem calibrate_reads (unset : Nat → Timespec × Timespec) :
    Spec (counterReads tsc) (calibrate unset) 0 fun m n => m = rdtscMin tsc 5 ∧ n = 10 := by
  refine Spec.iter (I := fun s n => s.1 ≤ 5 ∧ s.2 = rdtscMin tsc s.1 ∧ n = 2 * s.1) ?_
    ⟨by decide, rfl, rfl⟩
  rintro ⟨i, m⟩ n ⟨hi, hm, hn⟩
  obtain rfl : m = rdtscMin tsc i := hm
  obtain rfl : n = 2 * i := hn
  have hi₅ : i ≤ 5 := hi
  show Spec _ (if i < 5 then _ else _) _ _
  split
  · refine Spec.seq (reads_calibrationSample (unset i) _) ?_
    rintro m n ⟨rfl, rfl⟩
    refine Spec.pure ⟨?_, rfl, ?_⟩
    · show i + 1 ≤ 5
      omega
    · show 2 * i + 2 = 2 * (i + 1)
      omega
  · obtain rfl : i = 5 := by omega
    exact Spec.pure ⟨rfl, rfl⟩

/-! ## The smallest difference -/

theorem updateMin_toNat (m a b : BitVec 64) :
    (updateMin m a b).toNat = min m.toNat (b - a).toNat := by
  unfold updateMin
  by_cases h : b - a ≤ m
  · have hle : (b - a).toNat ≤ m.toNat := h
    simp only [h, if_true]
    omega
  · have hlt : ¬ (b - a).toNat ≤ m.toNat := h
    simp only [h, if_false]
    omega

theorem rdtscMin_toNat (tsc : Nat → BitVec 64) :
    (rdtscMin tsc 5).toNat =
      leastDifference fun i => (tsc (2 * i + 1) - tsc (2 * i)).toNat := by
  have hmax : (tsc (2 * 0 + 1) - tsc (2 * 0)).toNat ≤ (~~~0 : BitVec 64).toNat :=
    Nat.le_of_lt_succ (BitVec.isLt _)
  simp only [rdtscMin, updateMin_toNat, leastDifference, Nat.min_assoc]
  -- the first difference takes the place of the largest value
  exact Nat.min_eq_right (Nat.le_trans (Nat.min_le_left _ _) hmax)

end

/-! ## The scale of a frequency -/

namespace CycleFamily
variable (f : CycleFamily)

/-- A frequency of zero is divided by. -/
theorem scaleOf_zero : ∃ k, f.scaleOf 0 = @Prog.op initOps CycleRate .trap k := by
  cases f with
  | x86 => exact ⟨_, rfl⟩
  | arm => exact ⟨_, rfl⟩

/-- Above 10^13 Hz nothing is left of the divisor. -/
theorem divisor_pos_iff {hz : Nat} (hlow : 1 ≤ hz) :
    1 ≤ 1000000000 * f.multiplier hz / hz ↔ hz ≤ 10000000000000 := by
  rw [Nat.le_div_iff_mul_le hlow, Nat.one_mul]
  constructor
  · intro h
    rcases f.multiplier_eq hz with hm | hm
    all_goals
      rw [hm] at h
      omega
  · exact f.le_multiplier

/-- From a frequency in range the rest is one safe division. -/
theorem reads_scaleOf {tsc : Nat → BitVec 64} {n : Nat} {hz : BitVec 64} (hlow : 1 ≤ hz.toNat)
    (hhigh : hz.toNat ≤ 10000000000000) :
    Spec (counterReads tsc) (f.scaleOf hz) n
      fun rate _ => 1 ≤ rate.cyclesPerNanosecondDivisor.toNat := by
  obtain ⟨rate, hrate, -, -, hdiv⟩ := scaleOf_eq f hlow
  rw [hrate]
  refine Spec.ret ?_
  rw [hdiv]
  exact (f.divisor_pos_iff hlow).mpr hhigh

end CycleFamily

/-- No conversion with a divisor that is not zero divides by zero. -/
theorem cyclesForNanoseconds_ne_none {F : CycleScale}
    (h : 1 ≤ F.cyclesPerNanosecondDivisor.toNat) (nanoseconds : BitVec 64) :
    cyclesForNanoseconds F nanoseconds ≠ none := by
  obtain ⟨c, hc, -⟩ := cyclesForNanoseconds_toNat h nanoseconds
  rw [hc]
  simp

/-- What is proved under `counterReads` is safe. -/
theorem dividesSafely_of_reads {tsc : Nat → BitVec 64} {p : Prog initOps CycleRate}
    (h : Spec (counterReads tsc) p 0 fun rate _ => 1 ≤ rate.cyclesPerNanosecondDivisor.toNat) :
    DividesSafely tsc p := by
  intro tr n q hadm htr
  have hq := h.along htr hadm
  constructor
  · rintro k rfl
    exact hq.out.1 rfl
  · rintro rate rfl
    exact ⟨hq.out, cyclesForNanoseconds_ne_none hq.out⟩

/-- A detection that comes to the scale of a frequency is safe only if the frequency is in range. -/
theorem DividesSafely.inRange {tsc : Nat → BitVec 64} {p : Prog initOps CycleRate}
    (h : DividesSafely tsc p) (f : CycleFamily) {hz : BitVec 64} {tr : List (Act initOps)} {n : Nat}
    (hadm : (counterReads tsc).Admits 0 tr n) (htr : Prog.Trace p tr (f.scaleOf hz)) :
    1 ≤ hz.toNat ∧ hz.toNat ≤ 10000000000000 := by
  obtain ⟨htrap, hret⟩ := h tr n _ hadm htr
  have hlow : 1 ≤ hz.toNat := by
    by_contra hzero
    obtain rfl : hz = 0 := BitVec.eq_of_toNat_eq (by simpa using hzero)
    obtain ⟨k, hk⟩ := f.scaleOf_zero
    exact htrap k hk
  obtain ⟨rate, hrate, -, -, hdiv⟩ := scaleOf_eq f hlow
  have hpos := (hret rate hrate).1
  rw [hdiv] at hpos
  exact ⟨hlow, (f.divisor_pos_iff hlow).mp hpos⟩

/-! ## The detection -/

namespace CycleSource
variable (tsc : Nat → BitVec 64)

/-- The code accepts what CPUID reports: leaf 0x15 is there, and none of its registers is zero. -/
def Reported (cpuid : BitVec 32 → CpuidRegs) : Prop :=
  (cpuid 0).eax ≥ 0x15 ∧ (cpuid 0x15).eax ≠ 0 ∧ (cpuid 0x15).ebx ≠ 0 ∧ (cpuid 0x15).ecx ≠ 0

variable {cpuid : BitVec 32 → CpuidRegs} (unset : Nat → Timespec × Timespec)

theorem detect_reported (h : Reported cpuid) :
    (CycleSource.x86 cpuid unset).detect = scaleOf (exactCrystalHz (cpuid 0x15)) := by
  have hfreq : cpuidFrequency exactCrystalHz cpuid = some (exactCrystalHz (cpuid 0x15)) := by
    unfold cpuidFrequency
    rw [if_pos h.1]
    exact if_pos h.2
  show detectCycleCounterFrequency exactCrystalHz cpuid unset = _
  unfold detectCycleCounterFrequency
  rw [hfreq]

theorem cpuidFrequency_eq_none (crystalHz : CpuidRegs → BitVec 64) (h : ¬ Reported cpuid) :
    cpuidFrequency crystalHz cpuid = none := by
  unfold cpuidFrequency
  by_cases hleaf : (cpuid 0).eax ≥ 0x15
  · rw [if_pos hleaf]
    exact if_neg fun hregs => h ⟨hleaf, hregs⟩
  · rw [if_neg hleaf]

theorem detect_measured (h : ¬ Reported cpuid) :
    (CycleSource.x86 cpuid unset).detect =
      sampling unset 0 (~~~0) fun rdtscMin => scaleOf (rdtscMin * 1000) := by
  show detectCycleCounterFrequency exactCrystalHz cpuid unset = _
  unfold detectCycleCounterFrequency
  rw [cpuidFrequency_eq_none _ h]
  rfl

/-- The exact product fits. -/
theorem exactCrystalHz_toNat (leaf : CpuidRegs) :
    (exactCrystalHz leaf).toNat = leaf.ecx.toNat * leaf.ebx.toNat / leaf.eax.toNat := by
  have hprod : leaf.ecx.toNat * leaf.ebx.toNat < 2 ^ 32 * 2 ^ 32 :=
    Nat.mul_lt_mul'' leaf.ecx.isLt leaf.ebx.isLt
  have hle : leaf.ecx.toNat * leaf.ebx.toNat / leaf.eax.toNat ≤
      leaf.ecx.toNat * leaf.ebx.toNat := Nat.div_le_self _ _
  unfold exactCrystalHz
  rw [BitVec.toNat_ofNat, Nat.mod_eq_of_lt (by omega)]

/-- The measured frequency in numbers. -/
theorem measured_toNat :
    (rdtscMin tsc 5 * 1000).toNat =
      leastDifference (fun i => (tsc (2 * i + 1) - tsc (2 * i)).toNat) * 1000 % 2 ^ 64 := by
  rw [BitVec.toNat_mul, rdtscMin_toNat]
  rfl

/-- **The calibration comes to scale its frequency** in some run with the readings `tsc`. -/
theorem sampling_reaches :
    ∃ tr n, (counterReads tsc).Admits 0 tr n ∧
      Prog.Trace (sampling unset 0 (~~~0) fun rdtscMin => scaleOf (rdtscMin * 1000)) tr
        (scaleOf (rdtscMin tsc 5 * 1000)) := by
  obtain ⟨c, hsteps⟩ := calibration_ends (R := ⟨.ticking 0, tsc⟩) unset
    (fun rdtscMin => scaleOf (rdtscMin * 1000)) ticking_neverCarries
  obtain ⟨tr, htr, hadm⟩ := hsteps.trace fun _ _ => True
  refine ⟨tr, 2 * 5, hadm.map Taken.tsc ?_, htr⟩
  intro m o a m' ha
  have hanswer : Readings.answer ⟨.ticking 0, tsc⟩ o m = some (a, m') := ha
  cases o with
  | readCycleCounter =>
    cases hanswer
    exact ⟨rfl, rfl⟩
  | clockGettime =>
    cases hanswer
    exact rfl
  | trap => cases hanswer

end CycleSource

/-- Without a measurement there is nothing to run. -/
theorem dividesSafely_scaleOf_iff (f : CycleFamily) (hz : BitVec 64) (tsc : Nat → BitVec 64) :
    DividesSafely tsc (f.scaleOf hz) ↔ 1 ≤ hz.toNat ∧ hz.toNat ≤ 10000000000000 := by
  constructor
  · intro h
    exact h.inRange f (.nil 0) (.nil _)
  · rintro ⟨hlow, hhigh⟩
    exact dividesSafely_of_reads (f.reads_scaleOf hlow hhigh)

/-- With a measurement the five differences decide. -/
theorem dividesSafely_sampling_iff (unset : Nat → Timespec × Timespec) (tsc : Nat → BitVec 64) :
    DividesSafely tsc (sampling unset 0 (~~~0) fun rdtscMin => scaleOf (rdtscMin * 1000)) ↔
      1 ≤ (rdtscMin tsc 5 * 1000).toNat ∧
        (rdtscMin tsc 5 * 1000).toNat ≤ 10000000000000 := by
  constructor
  · intro h
    obtain ⟨tr, n, hadm, htr⟩ := CycleSource.sampling_reaches tsc unset
    exact h.inRange .x86 hadm htr
  · rintro ⟨hlow, hhigh⟩
    refine dividesSafely_of_reads ?_
    show Spec _ ((calibrate unset).bind fun rdtscMin => scaleOf (rdtscMin * 1000)) _ _
    refine Spec.bind (calibrate_reads unset) ?_
    rintro m n ⟨rfl, rfl⟩
    exact CycleFamily.reads_scaleOf .x86 hlow hhigh

/-- **When the detection divides safely**: exactly where the frequency is at least 1 Hz and at most
    10^13 Hz, the product of CPUID being taken exactly. -/
theorem detection_divides_safely_iff (source : CycleSource) (tsc : Nat → BitVec 64) :
    DividesSafely tsc source.detect ↔
      1 ≤ source.frequency tsc ∧ source.frequency tsc ≤ 10000000000000 := by
  cases source with
  | arm register =>
    show DividesSafely tsc (CycleFamily.arm.scaleOf (getCycleCounterFrequency register)) ↔ _
    rw [dividesSafely_scaleOf_iff]
    cases register with
    | cntfrqEl0 result => exact Iff.rfl
    | cntfrq result =>
      have hwide : (getCycleCounterFrequency (.cntfrq result)).toNat = result.toNat := by
        show (result.setWidth 64).toNat = result.toNat
        rw [BitVec.toNat_setWidth]
        omega
      rw [hwide]
      exact Iff.rfl
  | x86 cpuid unset =>
    by_cases h : CycleSource.Reported cpuid
    · have hfreq : (CycleSource.x86 cpuid unset).frequency tsc =
          (cpuid 0x15).ecx.toNat * (cpuid 0x15).ebx.toNat / (cpuid 0x15).eax.toNat := if_pos h
      rw [CycleSource.detect_reported unset h, hfreq, ← CycleSource.exactCrystalHz_toNat]
      exact dividesSafely_scaleOf_iff .x86 _ tsc
    · have hfreq : (CycleSource.x86 cpuid unset).frequency tsc =
          leastDifference (fun i => (tsc (2 * i + 1) - tsc (2 * i)).toNat) * 1000 % 2 ^ 64 :=
        if_neg h
      rw [CycleSource.detect_measured unset h, hfreq, ← CycleSource.measured_toNat]
      exact dividesSafely_sampling_iff unset tsc

/-- An ARM register that reads 0 is divided by; one that reads 10^13 + 1 Hz, and a CPUID leaf whose
    ratio is below 1 Hz, are not safe either. -/
theorem detection_divides_by_zero :
    ¬ DividesSafely (fun _ => 0) (CycleSource.arm (.cntfrqEl0 0)).detect ∧
      ¬ DividesSafely (fun _ => 0) (CycleSource.arm (.cntfrqEl0 10000000000001)).detect ∧
      ¬ DividesSafely (fun _ => 0)
        (CycleSource.x86 (fun _ => ⟨0x15, 1, 2, 0⟩) fun _ => (⟨0, 0⟩, ⟨0, 0⟩)).detect := by
  refine ⟨?_, ?_, ?_⟩
  · intro h
    -- the program is the trap itself
    exact (h [] 0 _ (.nil 0) (.nil _)).1 _ rfl
  · intro h
    have hpos := ((h [] 0 _ (.nil 0) (.nil _)).2 ⟨⟨10000, 0⟩, 10000000000001⟩ rfl).1
    exact absurd hpos (by decide)
  · intro h
    exact (h [] 0 _ (.nil 0) (.nil _)).1 _ rfl

end WfeMutex
