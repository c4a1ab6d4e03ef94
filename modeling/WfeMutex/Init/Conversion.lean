/-
  NANOSECONDS TO CYCLES: how exact is the conversion, and does it keep the order of timeouts?

  Detection leaves a multiplier and a divisor behind (`CycleFamily.scaleOf`), and the conversion
  multiplies modulo 2^64 and divides.  Without a wrap that is scaling by the truncated reciprocal of
  the frequency (`Num.scaled`, `cyclesForNanoseconds_eq`): a timeout never falls short by a whole
  cycle and never doubles, and above 1 GHz the 10,000 cycle scale is good to 0.1 percent
  (`conversion_accurate`).

  The product does wrap for long timeouts wherever the multiplier is 10,000: from 2^64 / 10000
  nanoseconds on, a little over 21 days, a longer timeout can become a shorter wait.  The conversion
  keeps the order of all timeouts up to `bound` exactly where `bound` itself does not wrap, and of
  all timeouts exactly on ARM with a counter of at most 1 GHz (`conversion_mono_iff`).
-/
import WfeMutex.Model.Calibrate
import WfeMutex.Num.Scaling
import Mathlib.Data.Rat.Floor
import Mathlib.Tactic.NormNum

namespace WfeMutex

open Conc

/-! ## What detection leaves behind -/

/-- The two versions of `detect_cycle_counter_frequency`. -/
inductive CycleFamily where
  | x86 | arm
  deriving DecidableEq, Repr

namespace CycleFamily

/-- The pair a version computes from the frequency. -/
def scaleOf : CycleFamily → BitVec 64 → Prog initOps CycleRate
  | .x86 => WfeMutex.scaleOf
  | .arm => armScaleOf

/-- The multiplier for a frequency of `hz`. -/
def multiplier : CycleFamily → Nat → Nat
  | .x86, _ => 10000
  | .arm, hz => if hz ≤ 1000000000 then 1 else 10000

variable {f : CycleFamily} {hz : Nat}

theorem multiplier_eq (hz : Nat) : f.multiplier hz = 1 ∨ f.multiplier hz = 10000 := by
  unfold multiplier
  cases f with
  | x86 => exact Or.inr rfl
  | arm =>
    by_cases h : hz ≤ 1000000000
    · simp [h]
    · simp [h]

/-- Only ARM counters of at most 1 GHz do without the 10,000 cycle scale. -/
theorem multiplier_eq_one_iff : f.multiplier hz = 1 ↔ f = .arm ∧ hz ≤ 1000000000 := by
  unfold multiplier
  cases f with
  | x86 => simp
  | arm => simp

/-- The multiplier grows only where the frequency has passed 1 GHz. -/
theorem le_multiplier (h : hz ≤ 10000000000000) : hz ≤ 1000000000 * f.multiplier hz := by
  unfold multiplier
  cases f with
  | x86 => exact h
  | arm =>
    by_cases hslow : hz ≤ 1000000000
    · simp [hslow]
    · simp only [hslow, if_false]
      omega

/-- Above 1 GHz both versions use the 10,000 cycle scale. -/
theorem multiplier_of_gt (h : 1000000000 < hz) : f.multiplier hz = 10000 := by
  unfold multiplier
  cases f with
  | x86 => rfl
  | arm => simp [Nat.not_le.mpr h]

end CycleFamily

section
variable (f : CycleFamily) {hz : BitVec 64}

theorem toNat_ne_zero (h : 1 ≤ hz.toNat) : hz ≠ 0 := by
  rintro rfl
  exact absurd h (by decide)

/-- **The pair**: the multiplier, and the truncated reciprocal of the frequency at its scale. -/
theorem scaleOf_eq (hlow : 1 ≤ hz.toNat) :
    ∃ rate, f.scaleOf hz = .ret rate ∧ rate.cycleHz = hz ∧
      rate.cyclesPerNanosecondMultiplier.toNat = f.multiplier hz.toNat ∧
      rate.cyclesPerNanosecondDivisor.toNat =
        1000000000 * f.multiplier hz.toNat / hz.toNat := by
  have hne : hz ≠ 0 := toNat_ne_zero hlow
  have hfast : scaleOf hz = .ret ⟨⟨10000, (1000000000 * 10000) / hz⟩, hz⟩ := by
    unfold scaleOf
    rw [if_neg hne]
    rfl
  have hdiv : ((1000000000 * 10000 : BitVec 64) / hz).toNat = 10000000000000 / hz.toNat := by
    rw [BitVec.toNat_udiv]
    rfl
  cases f with
  | x86 => exact ⟨_, hfast, rfl, rfl, hdiv⟩
  | arm =>
    show ∃ rate, armScaleOf hz = .ret rate ∧ _
    unfold armScaleOf
    by_cases h : hz.toNat ≤ 1000000000
    · have hslow : ¬ hz > NANOSECONDS_IN_SECOND := by
        show ¬ (1000000000 : BitVec 64).toNat < hz.toNat
        simpa using h
      rw [if_neg hslow, if_neg hne]
      refine ⟨_, rfl, rfl, ?_, ?_⟩
      · show 1 = _
        simp [CycleFamily.multiplier, h]
      · simp only [CycleFamily.multiplier, h, if_true]
        exact BitVec.toNat_udiv
    · have hquick : hz > NANOSECONDS_IN_SECOND := by
        show (1000000000 : BitVec 64).toNat < hz.toNat
        simpa using h
      rw [if_pos hquick]
      refine ⟨_, hfast, rfl, ?_, ?_⟩
      · show 10000 = _
        simp [CycleFamily.multiplier, h]
      · simp only [CycleFamily.multiplier, h, if_false]
        exact hdiv

end

/-! ## The conversion in numbers -/

section
variable {F : CycleScale} {ns : BitVec 64}

/-- Detection has not left a zero divisor behind: the product modulo 2^64 is divided. -/
theorem cyclesForNanoseconds_toNat (h : 0 < F.cyclesPerNanosecondDivisor.toNat)
    (ns : BitVec 64) :
    ∃ c, cyclesForNanoseconds F ns = some c ∧
      c.toNat = ns.toNat * F.cyclesPerNanosecondMultiplier.toNat % 2 ^ 64 /
        F.cyclesPerNanosecondDivisor.toNat := by
  have hne : F.cyclesPerNanosecondDivisor ≠ 0 := by
    intro hzero
    rw [hzero] at h
    exact absurd h (by decide)
  refine ⟨_, if_neg hne, ?_⟩
  rw [BitVec.toNat_udiv, BitVec.toNat_mul]

/-- The conversion without a wrap is scaling by the truncated reciprocal of the frequency. -/
theorem cyclesForNanoseconds_eq {K hz : Nat}
    (hdiv : F.cyclesPerNanosecondDivisor.toNat = K / hz) (hhz : 1 ≤ hz) (hK : hz ≤ K)
    (hwrap : ns.toNat * F.cyclesPerNanosecondMultiplier.toNat < 2 ^ 64) :
    ∃ c, cyclesForNanoseconds F ns = some c ∧
      c.toNat = Num.scaled K hz (ns.toNat * F.cyclesPerNanosecondMultiplier.toNat) := by
  have hpos : 0 < F.cyclesPerNanosecondDivisor.toNat := by
    rw [hdiv]
    exact Nat.div_pos hK hhz
  obtain ⟨c, hc, hval⟩ := cyclesForNanoseconds_toNat hpos ns
  rw [Nat.mod_eq_of_lt hwrap, hdiv] at hval
  exact ⟨c, hc, hval⟩

end

/-! ## Accuracy -/

/-- **How exact the conversion is**, where the product does not wrap: at least the exact number of
    cycles, truncated; at most twice that number; and within 0.1 percent of it above it for
    frequencies from 1 GHz to 10 GHz. -/
theorem conversion_accurate (f : CycleFamily) (hz : BitVec 64)
    (hhz : 1 ≤ hz.toNat ∧ hz.toNat ≤ 10000000000000) :
    ∃ rate, f.scaleOf hz = .ret rate ∧ ∀ ns : BitVec 64,
      ns.toNat * rate.cyclesPerNanosecondMultiplier.toNat < 2 ^ 64 →
      ∃ c, cyclesForNanoseconds rate.toCycleScale ns = some c ∧
        ⌊(ns.toNat * hz.toNat / 1000000000 : ℚ)⌋ ≤ (c.toNat : ℤ) ∧
        (c.toNat : ℚ) ≤ 2 * ns.toNat * hz.toNat / 1000000000 ∧
        (1000000000 < hz.toNat → hz.toNat ≤ 10000000000 →
          (c.toNat : ℚ) ≤ 1001 / 1000 * ns.toNat * hz.toNat / 1000000000) := by
  obtain ⟨hlow, hhigh⟩ := hhz
  obtain ⟨rate, hrate, -, hmul, hdiv⟩ := scaleOf_eq f hlow
  refine ⟨rate, hrate, ?_⟩
  intro ns hwrap
  have hK : hz.toNat ≤ 1000000000 * f.multiplier hz.toNat := f.le_multiplier hhigh
  have hm : 0 < f.multiplier hz.toNat := by
    rcases f.multiplier_eq hz.toNat with h | h
    all_goals omega
  obtain ⟨c, hc, hval⟩ := cyclesForNanoseconds_eq hdiv hlow hK hwrap
  rw [hmul] at hval
  refine ⟨c, hc, ?_, ?_, ?_⟩
  · have hge := Num.scaled_up_ge (n := ns.toNat) hm hlow hK
    rw [← hval] at hge
    have hlt : ns.toNat * hz.toNat < (c.toNat + 1) * 1000000000 :=
      (Nat.div_lt_iff_lt_mul (by decide)).mp (Nat.lt_succ_of_le hge)
    rw [Int.floor_le_iff, div_lt_iff₀ (by norm_num)]
    exact_mod_cast hlt
  · have hone : 1 ≤ 1000000000 * f.multiplier hz.toNat / hz.toNat := Nat.div_pos hK hlow
    have hle := Num.scaled_up_mul_le (n := ns.toNat) hm hlow hone
    rw [← hval] at hle
    rw [le_div_iff₀ (by norm_num)]
    have hcast : (c.toNat * 1000000000 * 1 : ℚ) ≤ (1 + 1) * (ns.toNat * hz.toNat) := by
      exact_mod_cast hle
    linarith
  · intro hfast hslow
    have hthousand : 1000 ≤ 1000000000 * f.multiplier hz.toNat / hz.toNat := by
      rw [f.multiplier_of_gt hfast, Nat.le_div_iff_mul_le hlow]
      omega
    have hle := Num.scaled_up_mul_le (n := ns.toNat) hm hlow hthousand
    rw [← hval] at hle
    rw [le_div_iff₀ (by norm_num)]
    have hcast : (c.toNat * 1000000000 * 1000 : ℚ) ≤ (1000 + 1) * (ns.toNat * hz.toNat) := by
      exact_mod_cast hle
    linarith

/-- A 3 GHz counter on x86. -/
theorem scaleOf_3GHz : CycleFamily.x86.scaleOf 3000000000 = .ret ⟨⟨10000, 3333⟩, 3000000000⟩ := rfl

/-- Two nanoseconds of it are six cycles. -/
theorem conversion_accurate_3GHz :
    cyclesForNanoseconds ⟨10000, 3333⟩ 2 = some 6 ∧
      ⌊((2 : BitVec 64).toNat * (3000000000 : BitVec 64).toNat / 1000000000 : ℚ)⌋ ≤ (6 : ℤ) ∧
      (6 : ℚ) ≤ 1001 / 1000 * (2 : BitVec 64).toNat * (3000000000 : BitVec 64).toNat /
        1000000000 := by
  obtain ⟨rate, hrate, hall⟩ := conversion_accurate .x86 3000000000 (by decide)
  cases hrate.symm.trans scaleOf_3GHz
  obtain ⟨c, hc, hfloor, -, hfast⟩ := hall 2 (by decide)
  have hsix : cyclesForNanoseconds ⟨10000, 3333⟩ 2 = some 6 := rfl
  obtain rfl : c = 6 := Option.some.inj (hc.symm.trans hsix)
  exact ⟨hsix, hfloor, hfast (by decide) (by decide)⟩

/-! ## Order -/

/-- Timeouts up to `bound` have a conversion, and a longer one never a smaller one. -/
def CycleScale.KeepsOrder (F : CycleScale) (bound : BitVec 64) : Prop :=
  ∀ a b : BitVec 64, a ≤ b → b ≤ bound → ∃ ca cb,
    cyclesForNanoseconds F a = some ca ∧ cyclesForNanoseconds F b = some cb ∧ ca ≤ cb

/-- The order in numbers. -/
theorem CycleScale.keepsOrder_iff {F : CycleScale}
    (h : 0 < F.cyclesPerNanosecondDivisor.toNat) (bound : BitVec 64) :
    F.KeepsOrder bound ↔ ∀ a b, a ≤ b → b ≤ bound.toNat →
      a * F.cyclesPerNanosecondMultiplier.toNat % 2 ^ 64 / F.cyclesPerNanosecondDivisor.toNat ≤
        b * F.cyclesPerNanosecondMultiplier.toNat % 2 ^ 64 /
          F.cyclesPerNanosecondDivisor.toNat := by
  constructor
  · intro hkeeps a b hab hb
    have hbound : bound.toNat < 2 ^ 64 := bound.isLt
    have ha64 : (BitVec.ofNat 64 a).toNat = a := by simp; omega
    have hb64 : (BitVec.ofNat 64 b).toNat = b := by simp; omega
    have hle : BitVec.ofNat 64 a ≤ BitVec.ofNat 64 b := by
      show (BitVec.ofNat 64 a).toNat ≤ (BitVec.ofNat 64 b).toNat
      omega
    have hbb : BitVec.ofNat 64 b ≤ bound := by
      show (BitVec.ofNat 64 b).toNat ≤ bound.toNat
      omega
    obtain ⟨ca, cb, hca, hcb, hc⟩ := hkeeps _ _ hle hbb
    obtain ⟨ca', hca', hvala⟩ := cyclesForNanoseconds_toNat h (BitVec.ofNat 64 a)
    obtain ⟨cb', hcb', hvalb⟩ := cyclesForNanoseconds_toNat h (BitVec.ofNat 64 b)
    obtain rfl : ca = ca' := Option.some.inj (hca.symm.trans hca')
    obtain rfl : cb = cb' := Option.some.inj (hcb.symm.trans hcb')
    have hnat : ca.toNat ≤ cb.toNat := hc
    rwa [hvala, hvalb, ha64, hb64] at hnat
  · intro hmono a b hab hb
    obtain ⟨ca, hca, hvala⟩ := cyclesForNanoseconds_toNat h a
    obtain ⟨cb, hcb, hvalb⟩ := cyclesForNanoseconds_toNat h b
    refine ⟨ca, cb, hca, hcb, ?_⟩
    show ca.toNat ≤ cb.toNat
    rw [hvala, hvalb]
    exact hmono a.toNat b.toNat hab hb

/-- **Where the conversion keeps the order**: up to the timeouts whose product wraps; so for all
    timeouts only where the multiplier is 1, on ARM with a counter of at most 1 GHz. -/
theorem conversion_mono_iff (f : CycleFamily) (hz : BitVec 64)
    (hhz : 1 ≤ hz.toNat ∧ hz.toNat ≤ 10000000000000) :
    ∃ rate, f.scaleOf hz = .ret rate ∧
      (∀ bound, rate.toCycleScale.KeepsOrder bound ↔
        bound.toNat * (if f = .arm ∧ hz.toNat ≤ 1000000000 then 1 else 10000) < 2 ^ 64) ∧
      (rate.toCycleScale.KeepsOrder (BitVec.allOnes 64) ↔
        f = .arm ∧ hz.toNat ≤ 1000000000) := by
  obtain ⟨hlow, hhigh⟩ := hhz
  obtain ⟨rate, hrate, -, hmul, hdiv⟩ := scaleOf_eq f hlow
  have hK : hz.toNat ≤ 1000000000 * f.multiplier hz.toNat := f.le_multiplier hhigh
  have hpos : 0 < rate.cyclesPerNanosecondDivisor.toNat := by
    rw [hdiv]
    exact Nat.div_pos hK hlow
  have hmultiplier : rate.cyclesPerNanosecondMultiplier.toNat =
      if f = .arm ∧ hz.toNat ≤ 1000000000 then 1 else 10000 := by
    rw [hmul]
    rcases f.multiplier_eq hz.toNat with h | h
    · rw [h, if_pos (CycleFamily.multiplier_eq_one_iff.mp h)]
    · have hne : f.multiplier hz.toNat ≠ 1 := by omega
      rw [h, if_neg (fun hand => hne (CycleFamily.multiplier_eq_one_iff.mpr hand))]
  have hbound : ∀ bound : BitVec 64, rate.toCycleScale.KeepsOrder bound ↔
      bound.toNat * (if f = .arm ∧ hz.toNat ≤ 1000000000 then 1 else 10000) < 2 ^ 64 := by
    intro bound
    rw [CycleScale.keepsOrder_iff hpos, ← hmultiplier]
    refine Num.wrapped_mono_iff hpos ?_
    -- neither the multiplier nor the divisor comes near 2^64
    have hle : rate.cyclesPerNanosecondDivisor.toNat ≤ 1000000000 * f.multiplier hz.toNat := by
      rw [hdiv]
      exact Nat.div_le_self _ _
    rw [hmul]
    rcases f.multiplier_eq hz.toNat with h | h
    all_goals
      rw [h] at hle ⊢
      omega
  refine ⟨rate, hrate, hbound, ?_⟩
  rw [hbound]
  by_cases h : f = .arm ∧ hz.toNat ≤ 1000000000
  · simp [h]
  · simp [h]

/-- A nanosecond more than 1844674407370955, a little over 21 days, is two cycles of a 3 GHz
    counter. -/
theorem conversion_falls :
    CycleFamily.x86.scaleOf 3000000000 = .ret ⟨⟨10000, 3333⟩, 3000000000⟩ ∧
      cyclesForNanoseconds ⟨10000, 3333⟩ 1844674407370955 = some 5534576679780843 ∧
      cyclesForNanoseconds ⟨10000, 3333⟩ 1844674407370956 = some 2 ∧
      ¬ CycleScale.KeepsOrder ⟨10000, 3333⟩ (BitVec.allOnes 64) := by
  have hlast : cyclesForNanoseconds ⟨10000, 3333⟩ 1844674407370955 = some 5534576679780843 := rfl
  have hnext : cyclesForNanoseconds ⟨10000, 3333⟩ 1844674407370956 = some 2 := rfl
  refine ⟨rfl, hlast, hnext, ?_⟩
  intro hkeeps
  obtain ⟨ca, cb, hca, hcb, hle⟩ :=
    hkeeps 1844674407370955 1844674407370956 (by decide) (by decide)
  cases hca.symm.trans hlast
  cases hcb.symm.trans hnext
  exact absurd hle (by decide)

/-- At 3 GHz the order is kept for a day, and not for all timeouts. -/
theorem conversion_mono_iff_3GHz :
    CycleScale.KeepsOrder ⟨10000, 3333⟩ 86400000000000 ∧
      ¬ CycleScale.KeepsOrder ⟨10000, 3333⟩ (BitVec.allOnes 64) := by
  obtain ⟨rate, hrate, hbound, hall⟩ := conversion_mono_iff .x86 3000000000 (by decide)
  cases hrate.symm.trans scaleOf_3GHz
  exact ⟨(hbound _).mpr (by decide), fun h => absurd (hall.mp h) (by decide)⟩

end WfeMutex
