/-
  CAN THE MEASURED FREQUENCY BE TOO LOW?

  Here the readings are exact.  The clock tells the instant at which it is read, in nanoseconds; the
  cycle counter ticks steadily, and read at the instant `t` it shows `⌊rate * t + offset⌋`, modulo
  2^64.  Any amount of time may pass between two readings (`clocked`).

  A loop is left by a reading of the clock a millisecond or more after its `ts_start`, wherever the
  seconds begin (`not_passes_early`), and the two readings of the counter in a sample enclose the
  two of the clock.  So every sample spans a millisecond (`clocked_calibrate`) and its counter
  difference is less than one tick short of a millisecond's ticks.  A thousand times the smallest
  difference is therefore less than 1000 Hz below the true frequency (`measured_frequency`).
-/
import WfeMutex.Init.Frequency
import Mathlib.Algebra.Order.Archimedean.Real.Basic

set_option linter.unusedVariables false

namespace WfeMutex

open Conc

/-! ## Steady counters -/

/-- What a counter of `rate` ticks per nanosecond has counted at the instant `t`. -/
noncomputable def ticks (rate offset t : ℝ) : ℤ := ⌊rate * t + offset⌋

section
variable {rate offset s t : ℝ}

theorem ticks_mono (hrate : 0 ≤ rate) (h : s ≤ t) : ticks rate offset s ≤ ticks rate offset t := by
  refine Int.floor_le_floor ?_
  have := mul_le_mul_of_nonneg_left h hrate
  linarith

/-- The difference of two floors is less than one short. -/
theorem ticks_sub_gt : rate * (t - s) - 1 < (ticks rate offset t - ticks rate offset s : ℤ) := by
  have hs : (⌊rate * s + offset⌋ : ℝ) ≤ rate * s + offset := Int.floor_le _
  have ht : rate * t + offset < ⌊rate * t + offset⌋ + 1 := Int.lt_floor_add_one _
  unfold ticks
  push_cast
  linarith

end

/-- The difference of two counter readings is the number of ticks between them, if that fits. -/
theorem toNat_ofInt_sub {a b : ℤ} (hab : a ≤ b) (hfits : b - a < 2 ^ 64) :
    ((BitVec.ofInt 64 b - BitVec.ofInt 64 a).toNat : ℤ) = b - a := by
  rw [BitVec.toNat_sub, BitVec.toNat_ofInt, BitVec.toNat_ofInt]
  omega

/-! ## Exact readings -/

/-- Time passes.  The state is the number of counter readings taken, and the time of the last
    reading; reading `n` of the counter is taken at the instant `instant n`. -/
def clocked (rate offset : ℝ) (instant : Nat → ℝ) : Proto initOps (Nat × ℝ) where
  pre _ o := o ≠ .trap
  post l o a l' := l.2 ≤ l'.2 ∧
    match o with
    | .readCycleCounter =>
      a = BitVec.ofInt 64 (ticks rate offset (instant l.1)) ∧ l' = (l.1 + 1, instant l.1)
    | .clockGettime => ∃ ts : Timespec, a = some ts ∧ ts.Valid ∧ l' = (l.1, (ts.total : ℝ))
    | .trap => False

section
variable {rate offset : ℝ} {instant : Nat → ℝ} {n : Nat} {t : ℝ}

theorem clocked_rdtsc :
    Spec (clocked rate offset instant) rdtsc (n, t)
      fun _ l => t ≤ instant n ∧ l = (n + 1, instant n) := by
  refine Spec.perform (fun h => by cases h) ?_
  rintro _ _ ⟨htime, -, rfl⟩
  exact ⟨htime, rfl⟩

theorem clocked_clockGettime :
    Spec (clocked rate offset instant) clockGettime (n, t)
      fun a l => ∃ ts : Timespec, a = some ts ∧ ts.Valid ∧ t ≤ ts.total ∧
        l = (n, (ts.total : ℝ)) := by
  refine Spec.perform (fun h => by cases h) ?_
  rintro _ _ ⟨htime, ts, rfl, hvalid, rfl⟩
  exact ⟨ts, rfl, hvalid, htime, rfl⟩

/-- **The loop** is left a millisecond after `ts_start` or later. -/
theorem clocked_spinOneMillisecond {tsStart : Timespec} (hvalid : tsStart.Valid)
    (hstart : (tsStart.total : ℝ) ≤ t) (tsEnd : Timespec) :
    Spec (clocked rate offset instant) (spinOneMillisecond tsStart tsEnd) (n, t)
      fun _ l => l.1 = n ∧ (tsStart.total : ℝ) + 1000000 ≤ l.2 := by
  refine Spec.iter (I := fun _ l => l.1 = n ∧ (tsStart.total : ℝ) ≤ l.2) ?_ ⟨rfl, hstart⟩
  rintro tsEnd ⟨_, t'⟩ ⟨rfl, ht'⟩
  refine Spec.seq clocked_clockGettime ?_
  rintro _ _ ⟨ts, rfl, hts, htime, rfl⟩
  have hle : tsStart.total ≤ ts.total := by exact_mod_cast ht'.trans htime
  dsimp only [Option.getD_some]
  split
  · refine Spec.pure ⟨rfl, ?_⟩
    show (tsStart.total : ℝ) ≤ ts.total
    exact_mod_cast hle
  · rename_i hexit
    -- the test has let go, so it is not too early
    have hlate : ¬ ts.total < tsStart.total + 1000000 := fun hlt =>
      not_passes_early hvalid hts hle hlt (Int.not_lt.mp hexit)
    refine Spec.pure ⟨rfl, ?_⟩
    show (tsStart.total : ℝ) + 1000000 ≤ ts.total
    exact_mod_cast Int.not_lt.mp hlate

/-- A sample spans a millisecond: its counter readings enclose its clock readings. -/
theorem clocked_calibrationSample (unset : Timespec × Timespec) (m : BitVec 64) :
    Spec (clocked rate offset instant) (calibrationSample unset m) (n, t)
      fun _ l => instant n + 1000000 ≤ instant (n + 1) ∧ l.1 = n + 2 := by
  refine Spec.seq clocked_rdtsc ?_
  rintro _ _ ⟨-, rfl⟩
  refine Spec.seq clocked_clockGettime ?_
  rintro _ _ ⟨tsStart, rfl, hvalid, hstart, rfl⟩
  refine Spec.seq (clocked_spinOneMillisecond hvalid le_rfl unset.2) ?_
  rintro _ ⟨_, t'⟩ ⟨rfl, hspan⟩
  refine Spec.seq clocked_rdtsc ?_
  rintro _ _ ⟨hend, rfl⟩
  refine Spec.pure ⟨?_, rfl⟩
  have hspan' : (tsStart.total : ℝ) + 1000000 ≤ t' := hspan
  linarith

/-- **All five samples** span a millisecond. -/
theorem clocked_calibrate (unset : Nat → Timespec × Timespec) :
    Spec (clocked rate offset instant) (calibrate unset) (0, t)
      fun _ _ => ∀ i, i < 5 → instant (2 * i) + 1000000 ≤ instant (2 * i + 1) := by
  refine Spec.iter (I := fun s l => l.1 = 2 * s.1 ∧
    ∀ i, i < s.1 → instant (2 * i) + 1000000 ≤ instant (2 * i + 1)) ?_ ⟨rfl, fun i hi => by omega⟩
  rintro ⟨i, m⟩ ⟨_, t'⟩ ⟨rfl, hspans⟩
  show Spec _ (if i < 5 then _ else _) _ _
  split
  · refine Spec.seq (clocked_calibrationSample (unset i) m) ?_
    rintro m' ⟨_, t'⟩ ⟨hspan, rfl⟩
    refine Spec.pure ⟨?_, ?_⟩
    · show 2 * i + 2 = 2 * (i + 1)
      omega
    · intro j hj
      rcases Nat.lt_succ_iff_lt_or_eq.mp hj with hlt | rfl
      · exact hspans j hlt
      · exact hspan
  · rename_i hlast
    refine Spec.pure fun j hj => hspans j ?_
    show j < i
    omega

/-- The counter readings themselves are what the instants say. -/
theorem clocked_reads {α : Type} {p : Prog initOps α} {Q : α → Nat → Prop}
    (h : Spec (counterReads fun n => BitVec.ofInt 64 (ticks rate offset (instant n))) p 0 Q) :
    Spec (clocked rate offset instant) p (0, t) fun a l => Q a l.1 := by
  refine (Spec.embed (R := fun n l => n = l.1) ?_ ?_ h rfl).mono ?_
  · rintro _ l o rfl hpre
    exact hpre
  · rintro _ ⟨n, t⟩ o a ⟨n', t'⟩ rfl hpre ⟨-, hpost⟩
    refine ⟨n', ?_, rfl⟩
    cases o with
    | readCycleCounter =>
      obtain ⟨ha, hn⟩ := hpost
      exact ⟨ha, congrArg Prod.fst hn⟩
    | clockGettime =>
      obtain ⟨ts, -, -, hn⟩ := hpost
      exact congrArg Prod.fst hn
    | trap => exact hpost
  · rintro a l ⟨_, rfl, hQ⟩
    exact hQ

/-! ## The measured frequency -/

/-- Where the detection has left its five loops and comes to scale `cycle_hz`: that is a thousand
    times the smallest difference, and every sample has spanned a millisecond. -/
theorem measured_scale {crystalHz : CpuidRegs → BitVec 64} {cpuid : BitVec 32 → CpuidRegs}
    {unset : Nat → Timespec × Timespec} (hcpuid : ¬ CycleSource.Reported cpuid)
    {tr : List (Act initOps)} {l : Nat × ℝ} {cycleHz : BitVec 64}
    (hadm : (clocked rate offset instant).Admits (0, t) tr l)
    (htr : Prog.Trace (detectCycleCounterFrequency crystalHz cpuid unset) tr (scaleOf cycleHz)) :
    cycleHz = rdtscMin (fun n => BitVec.ofInt 64 (ticks rate offset (instant n))) 5 * 1000 ∧
      ∀ i, i < 5 → instant (2 * i) + 1000000 ≤ instant (2 * i + 1) := by
  let tsc : Nat → BitVec 64 := fun n => BitVec.ofInt 64 (ticks rate offset (instant n))
  let Spans : Prop := ∀ i, i < 5 → instant (2 * i) + 1000000 ≤ instant (2 * i + 1)
  -- a measured frequency of zero is divided by, so the trap has to be allowed for it
  let P : Proto initOps (Nat × ℝ) :=
    { clocked rate offset instant with
      pre := fun _ o => o = .trap → rdtscMin tsc 5 * 1000 = 0 ∧ Spans }
  have hcalibrate : Spec P (calibrate unset) (0, t) fun m _ => m = rdtscMin tsc 5 ∧ Spans := by
    have hcounter : Spec (counterReads tsc) (calibrate unset) 0 fun m n =>
        m = rdtscMin tsc 5 ∧ n = 10 := calibrate_reads unset
    have hreads := clocked_reads (t := t) hcounter
    have hboth := hreads.both (clocked_calibrate (t := t) unset)
    refine (Spec.embed (R := fun l l' => l = l') ?_ ?_ hboth rfl).mono ?_
    · rintro l _ o rfl hpre htrap
      exact absurd htrap hpre
    · rintro l _ o a m' rfl _ hpost
      exact ⟨m', hpost, rfl⟩
    · rintro m _ ⟨l, -, ⟨hm, -⟩, hspans⟩
      exact ⟨hm, hspans⟩
  have hdetect : Spec P (detectCycleCounterFrequency crystalHz cpuid unset) (0, t)
      fun r _ => r.cycleHz = rdtscMin tsc 5 * 1000 ∧ Spans := by
    unfold detectCycleCounterFrequency
    rw [CycleSource.cpuidFrequency_eq_none crystalHz hcpuid]
    refine Spec.seq hcalibrate ?_
    rintro _ l ⟨rfl, hspans⟩
    unfold scaleOf
    split
    · rename_i hzero
      exact Spec.op (fun _ => ⟨hzero, hspans⟩) fun a => a.elim
    · exact Spec.pure ⟨rfl, hspans⟩
  have hend := hdetect.along htr (hadm.map id fun _ _ _ _ h => h)
  unfold scaleOf at hend
  by_cases hzero : cycleHz = 0
  · rw [if_pos hzero] at hend
    obtain ⟨hm, hspans⟩ := hend.out.1 rfl
    exact ⟨hzero.trans hm.symm, hspans⟩
  · rw [if_neg hzero] at hend
    exact hend.out

end

/-- The smallest of five is one of them. -/
theorem leastDifference_isLeast (d : Nat → Nat) :
    IsLeast {x | ∃ i, i < 5 ∧ x = d i} (leastDifference d) := by
  unfold leastDifference
  constructor
  · have h : ∀ a b c e f : Nat, min a (min b (min c (min e f))) = a ∨
        min a (min b (min c (min e f))) = b ∨ min a (min b (min c (min e f))) = c ∨
        min a (min b (min c (min e f))) = e ∨ min a (min b (min c (min e f))) = f := by omega
    rcases h (d 0) (d 1) (d 2) (d 3) (d 4) with h | h | h | h | h
    · exact ⟨0, by decide, h⟩
    · exact ⟨1, by decide, h⟩
    · exact ⟨2, by decide, h⟩
    · exact ⟨3, by decide, h⟩
    · exact ⟨4, by decide, h⟩
  · rintro x ⟨i, hi, rfl⟩
    have hcases : i = 0 ∨ i = 1 ∨ i = 2 ∨ i = 3 ∨ i = 4 := by omega
    rcases hcases with rfl | rfl | rfl | rfl | rfl
    all_goals omega

/-- **The measured frequency** is a thousand times the smallest of the five counter differences, and
    less than 1000 Hz below the true one, whatever the delays. -/
theorem measured_frequency {rate offset : ℝ} {instant : Nat → ℝ} {t : ℝ}
    {crystalHz : CpuidRegs → BitVec 64} {cpuid : BitVec 32 → CpuidRegs}
    {unset : Nat → Timespec × Timespec} {tr : List (Act initOps)} {l : Nat × ℝ}
    {cycleHz : BitVec 64} (hrate : 0 ≤ rate) (hcpuid : ¬ CycleSource.Reported cpuid)
    (hadm : (clocked rate offset instant).Admits (0, t) tr l)
    (htr : Prog.Trace (detectCycleCounterFrequency crystalHz cpuid unset) tr (scaleOf cycleHz))
    (hfits : ∀ i, i < 5 → 1000 * (ticks rate offset (instant (2 * i + 1)) -
      ticks rate offset (instant (2 * i))) < 2 ^ 64) :
    ∃ d : ℤ, IsLeast {x | ∃ i, i < 5 ∧ x = ticks rate offset (instant (2 * i + 1)) -
        ticks rate offset (instant (2 * i))} d ∧
      (cycleHz.toNat : ℤ) = 1000 * d ∧ rate * 1000000000 - 1000 < (cycleHz.toNat : ℝ) := by
  obtain ⟨hcycle, hspans⟩ := measured_scale hcpuid hadm htr
  let diff : Nat → Nat := fun i =>
    (BitVec.ofInt 64 (ticks rate offset (instant (2 * i + 1))) -
      BitVec.ofInt 64 (ticks rate offset (instant (2 * i)))).toNat
  have hdiff : ∀ i, i < 5 → (diff i : ℤ) =
      ticks rate offset (instant (2 * i + 1)) - ticks rate offset (instant (2 * i)) := by
    intro i hi
    have hle : ticks rate offset (instant (2 * i)) ≤ ticks rate offset (instant (2 * i + 1)) :=
      ticks_mono hrate (by linarith [hspans i hi])
    have hfit := hfits i hi
    exact toNat_ofInt_sub hle (by omega)
  obtain ⟨⟨j, hj, hmin⟩, hlower⟩ := leastDifference_isLeast diff
  -- a thousand times the smallest difference does not wrap
  have hval : cycleHz.toNat = leastDifference diff * 1000 := by
    have hfit := hfits j hj
    rw [← hdiff j hj] at hfit
    have hlt : leastDifference diff * 1000 < 2 ^ 64 := by
      rw [hmin]
      omega
    rw [hcycle, CycleSource.measured_toNat]
    exact Nat.mod_eq_of_lt hlt
  refine ⟨leastDifference diff, ⟨⟨j, hj, ?_⟩, ?_⟩, ?_, ?_⟩
  · rw [hmin, hdiff j hj]
  · rintro x ⟨i, hi, rfl⟩
    rw [← hdiff i hi]
    exact_mod_cast hlower ⟨i, hi, rfl⟩
  · rw [hval]
    push_cast
    ring
  · -- the smallest difference spans a millisecond
    have hshort : rate * (instant (2 * j + 1) - instant (2 * j)) - 1 < ((diff j : ℤ) : ℝ) := by
      rw [hdiff j hj]
      exact ticks_sub_gt
    have hmilli : rate * 1000000 ≤ rate * (instant (2 * j + 1) - instant (2 * j)) :=
      mul_le_mul_of_nonneg_left (by linarith [hspans j hj]) hrate
    rw [hval, hmin]
    push_cast at hshort ⊢
    linarith

/-! ### A counter of 1 GHz, read once a millisecond -/

def millisecond (n : Nat) : ℝ := n * 1000000

theorem millisecond_total (n : Nat) :
    ((Timespec.ofNanoseconds (n * 1000000)).total : ℝ) = millisecond n := by
  rw [Timespec.total_ofNanoseconds]
  unfold millisecond
  push_cast
  rfl

section
variable {rate offset : ℝ} {instant : Nat → ℝ} {n : Nat} {t : ℝ} {tr : List (Act initOps)}
  {l : Nat × ℝ}

theorem clocked_admits_counter (htime : t ≤ instant n)
    (h : (clocked rate offset instant).Admits (n + 1, instant n) tr l) :
    (clocked rate offset instant).Admits (n, t)
      (⟨.readCycleCounter, BitVec.ofInt 64 (ticks rate offset (instant n))⟩ :: tr) l :=
  .cons ⟨htime, rfl, rfl⟩ h

theorem clocked_admits_clock {ts : Timespec} (hvalid : ts.Valid) (htime : t ≤ ts.total)
    (h : (clocked rate offset instant).Admits (n, (ts.total : ℝ)) tr l) :
    (clocked rate offset instant).Admits (n, t) (⟨.clockGettime, some ts⟩ :: tr) l :=
  .cons ⟨htime, ts, rfl, hvalid, rfl⟩ h

end

section
variable {α : Type} (unset : Nat → Timespec × Timespec) (K : BitVec 64 → Prog initOps α)

/-- One sample of it, whose loop is left at the first reading. -/
theorem millisecond_sample {m : BitVec 64} {i : Nat} (hi : i < 5) {t : ℝ}
    (ht : t ≤ millisecond (2 * i)) :
    ∃ tr m', Prog.Trace (sampling unset i m K) tr (sampling unset (i + 1) m' K) ∧
      (clocked 1 0 millisecond).Admits (2 * i, t) tr (2 * (i + 1), millisecond (2 * i + 1)) := by
  let tsStart : Timespec := .ofNanoseconds (2 * i * 1000000)
  let tsEnd : Timespec := .ofNanoseconds ((2 * i + 1) * 1000000)
  have hstart : (tsStart.total : ℝ) = millisecond (2 * i) := millisecond_total _
  have hend : (tsEnd.total : ℝ) = millisecond (2 * i + 1) := millisecond_total _
  have hnext : millisecond (2 * i) ≤ millisecond (2 * i + 1) := by
    unfold millisecond
    push_cast
    linarith
  have hexit : ¬ tsEnd.tvNsec < tsStart.tvNsec + NANOSECOND_PER_MILLISECOND := by
    show ¬ (((2 * i + 1) * 1000000 : Nat) : Int) % 1000000000 <
      ((2 * i * 1000000 : Nat) : Int) % 1000000000 + 1000000
    omega
  let rdtscStart : BitVec 64 := BitVec.ofInt 64 (ticks 1 0 (millisecond (2 * i)))
  let rdtscEnd : BitVec 64 := BitVec.ofInt 64 (ticks 1 0 (millisecond (2 * i + 1)))
  refine ⟨[⟨.readCycleCounter, rdtscStart⟩, ⟨.clockGettime, some tsStart⟩,
    ⟨.clockGettime, some tsEnd⟩, ⟨.readCycleCounter, rdtscEnd⟩],
    updateMin m rdtscStart rdtscEnd, ?_, ?_⟩
  · refine .jump ?_
    rw [unroll_calibrationRound unset i m K hi]
    refine .op (.op (.jump ?_))
    rw [unroll_spinRound]
    refine .op ?_
    rw [Option.getD_some, Option.getD_some, if_neg hexit]
    exact .op (.nil _)
  · refine clocked_admits_counter ht ?_
    refine clocked_admits_clock (Timespec.valid_ofNanoseconds _) hstart.ge ?_
    refine clocked_admits_clock (Timespec.valid_ofNanoseconds _) ?_ ?_
    · rw [hstart, hend]
      exact hnext
    · exact clocked_admits_counter hend.le (.nil _)

/-- Its samples, one after the other. -/
theorem millisecond_samples {i : Nat} (hi : i ≤ 5) :
    ∃ tr m t, Prog.Trace (sampling unset 0 (~~~0) K) tr (sampling unset i m K) ∧
      (clocked 1 0 millisecond).Admits (0, 0) tr (2 * i, t) ∧ t ≤ millisecond (2 * i) := by
  induction i with
  | zero => exact ⟨[], _, 0, .nil _, .nil _, by simp [millisecond]⟩
  | succ i ih =>
    obtain ⟨tr, m, t, htr, hadm, ht⟩ := ih (by omega)
    obtain ⟨tr', m', htr', hadm'⟩ := millisecond_sample unset K (m := m) (by omega) ht
    refine ⟨tr ++ tr', m', _, htr.append htr', hadm.append hadm', ?_⟩
    unfold millisecond
    push_cast
    linarith

end

/-- Its measured frequency is above 1 GHz less 1000 Hz. -/
theorem measured_frequency_millisecond :
    ∃ tr l, ∃ cycleHz : BitVec 64, (clocked 1 0 millisecond).Admits (0, 0) tr l ∧
      Prog.Trace (detectCycleCounterFrequency (fun _ => 0) oldCpuid fun _ => (⟨0, 0⟩, ⟨0, 0⟩)) tr
        (scaleOf cycleHz) ∧ 1 * 1000000000 - 1000 < (cycleHz.toNat : ℝ) := by
  obtain ⟨tr, m, t, htr, hadm, -⟩ := millisecond_samples (fun _ => (⟨0, 0⟩, ⟨0, 0⟩))
    (fun m => scaleOf (m * 1000)) (le_refl 5)
  have hcpuid : ¬ CycleSource.Reported oldCpuid := fun h => absurd h.1 (by decide)
  have hend : Prog.Trace (detectCycleCounterFrequency (fun _ => 0) oldCpuid
      fun _ => (⟨0, 0⟩, ⟨0, 0⟩)) (tr ++ []) (scaleOf (m * 1000)) := by
    have hlast : Prog.Trace (sampling (fun _ => (⟨0, 0⟩, ⟨0, 0⟩)) 5 m fun m => scaleOf (m * 1000))
        [] (scaleOf (m * 1000)) := by
      refine .jump ?_
      rw [unroll_calibrationRound_last _ 5 _ _ (Nat.lt_irrefl 5)]
      exact .nil _
    exact htr.append hlast
  rw [List.append_nil] at hend
  refine ⟨tr, _, _, hadm, hend, ?_⟩
  have hticks : ∀ n, ticks 1 0 (millisecond n) = n * 1000000 := by
    intro n
    unfold ticks millisecond
    rw [one_mul, add_zero]
    exact_mod_cast Int.floor_natCast (n * 1000000)
  obtain ⟨d, -, -, hlow⟩ := measured_frequency zero_le_one hcpuid hadm hend (fun i hi => by
    rw [hticks, hticks]
    omega)
  exact hlow

end WfeMutex
