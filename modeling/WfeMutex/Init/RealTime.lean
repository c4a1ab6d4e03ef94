/-
  HOW LONG DOES A TIMED WAIT LAST, in nanoseconds, after `wfe_mutex_init` has measured the counter?

  Three things come between the nanoseconds a caller asks for and the time that passes.  The
  frequency is measured too low by less than 1000 Hz, and too high by as much as the quickest of the
  five samples took longer than its millisecond (`measured_frequency`).  The conversion truncates
  the reciprocal of the frequency, and the cycles (`Num.scaled_up_ge`, `Num.scaled_up_mul_le`).  And
  the wait compares readings of a counter that has only whole ticks.

  Put together (`timed_waits_keep_time`): a wait that times out has lasted as long as it was asked
  to, less two ticks and what takes the counter as many ticks as a millionth of the timeout has
  nanoseconds; and it times out at the first reading it takes after the time has come, which is
  stretched by the excess of the sample and by one part in the divisor.
-/
import Mathlib.Data.Nat.Cast.Order.Field
import WfeMutex.Init.Measurement
import WfeMutex.Wait.Table
import WfeMutex.Wait.Timeout

set_option linter.unusedVariables false

namespace WfeMutex

open Conc

/-! ## The reading a wait times out at -/

section
variable {w : Nat} {S : Streams w} {cyclesEnd : BitVec 64} {m : Heard w} {value : BitVec w}

/-- No reading so far has reached the deadline. -/
def Unreached (S : Streams w) (cyclesEnd : BitVec 64) (m : Heard w) : Prop :=
  ∀ j, j < m.readings → ¬ cyclesEnd ≤ S.reading j

/-- If the wait times out, then at the first reading that has reached the deadline. -/
def AtFirst (S : Streams w) (cyclesEnd : BitVec 64) (r : Bool) (m : Heard w) : Prop :=
  r = false → ∃ k, m.readings = k + 1 ∧ cyclesEnd ≤ S.reading k ∧
    ∀ j, j < k → ¬ cyclesEnd ≤ S.reading j

theorem Unreached.start : Unreached S cyclesEnd {} := fun j hj => absurd hj (Nat.not_lt_zero j)

/-- A load is no reading. -/
theorem Unreached.hear (h : Unreached S cyclesEnd m) (v : BitVec w) :
    Unreached S cyclesEnd (m.hear v) := h

theorem Unreached.read (h : Unreached S cyclesEnd m) (hc : ¬ cyclesEnd ≤ S.reading m.readings) :
    Unreached S cyclesEnd (m.read (S.reading m.readings)) := by
  intro j hj
  rcases Nat.lt_succ_iff_lt_or_eq.mp hj with hlt | rfl
  · exact h j hlt
  · exact hc

theorem Unreached.atFirst (h : Unreached S cyclesEnd m)
    (hc : cyclesEnd ≤ S.reading m.readings) :
    AtFirst S cyclesEnd false (m.read (S.reading m.readings)) :=
  fun _ => ⟨m.readings, rfl, hc, h⟩

theorem atFirst_true : AtFirst S cyclesEnd true m := fun h => by cases h

/-- **The loop rule**: a round that goes on has not come to a reading that has reached the
    deadline. -/
theorem atFirst_iter {σ : Type} {body : σ → Prog (atomics w) (Next σ Bool)} {s : σ}
    (hbody : ∀ s m, Unreached S cyclesEnd m → Ends S.answer (body s) m
      (Spec.round (fun _ m' => Unreached S cyclesEnd m') (AtFirst S cyclesEnd)))
    (h : Unreached S cyclesEnd m) :
    Concludes S.answer False (Prog.iter body s) m (AtFirst S cyclesEnd) := by
  refine Concludes.iter (I := fun _ m => Unreached S cyclesEnd m) (N := fun _ _ => 0) ?_ h
  intro s m hm
  refine (hbody s m hm).mono ?_
  rintro (s' | r) m' hr
  · exact ⟨hr, False.elim⟩
  · exact hr

/-- The test of the deadline, wherever it stands in a round. -/
theorem Unreached.test {σ : Type} {k : BitVec 64 → Prog (atomics w) (Next σ Bool)}
    (h : Unreached S cyclesEnd m)
    (hk : ∀ c m', Unreached S cyclesEnd m' → Ends S.answer (k c) m'
      (Spec.round (fun _ m' => Unreached S cyclesEnd m') (AtFirst S cyclesEnd))) :
    Ends S.answer
      (do
        let c ← readCycleCounterAgainst cyclesEnd
        if c ≥ cyclesEnd then return .leave false
        k c) m
      (Spec.round (fun _ m' => Unreached S cyclesEnd m') (AtFirst S cyclesEnd)) := by
  refine Ends.seq hear_test ?_
  rintro _ _ ⟨rfl, rfl⟩
  split
  · rename_i hc
    exact Ends.pure (h.atFirst hc)
  · rename_i hc
    exact hk _ _ (h.read hc)

theorem spinloopUntil_atFirst (lowPower : Bool) (h : Unreached S cyclesEnd m) :
    Concludes S.answer False (spinloopUntil w value cyclesEnd lowPower) m
      (AtFirst S cyclesEnd) := by
  unfold spinloopUntil
  split
  all_goals
    refine atFirst_iter ?_ h
    intro _ m hm
    refine Ends.seq (hear_load _) ?_
    rintro _ _ ⟨rfl, rfl⟩
    split
  · refine Ends.seq hear_yieldFive ?_
    rintro _ _ rfl
    exact (hm.hear _).test fun _ _ hm' => Ends.pure hm'
  · exact Ends.pure atFirst_true
  · exact (hm.hear _).test fun _ _ hm' => Ends.pure hm'
  · exact Ends.pure atFirst_true

theorem x86Round_atFirst (armInsn : ArmInsn) (insn : BitVec 64 → BitVec 64 → WaitInsn)
    (beginCycles : BitVec 64) (h : Unreached S cyclesEnd m) :
    Concludes S.answer False
      (.iter (fun lastCycleCounter => do
        if (← armThenLoad w armInsn) == value then return .leave true
        waitIn (insn cyclesEnd lastCycleCounter)
        let lastCycleCounter ← readCycleCounterAgainst cyclesEnd
        if lastCycleCounter ≥ cyclesEnd then return .leave false
        if (← atomicLoadN .acquire) != value then return .again lastCycleCounter
        return .leave true) beginCycles) m (AtFirst S cyclesEnd) := by
  refine atFirst_iter ?_ h
  intro lastCycleCounter m hm
  refine Ends.seq (hear_armThenLoad armInsn) ?_
  rintro _ _ ⟨rfl, rfl⟩
  split
  · exact Ends.pure atFirst_true
  refine Ends.seq (hear_waitIn _) ?_
  rintro _ _ rfl
  refine (hm.hear _).test fun c m' hm' => ?_
  refine Ends.seq (hear_load _) ?_
  rintro _ _ ⟨rfl, rfl⟩
  split
  · exact Ends.pure (hm'.hear _)
  · exact Ends.pure atFirst_true

/-- The `wfe` and `wfet` waits load before they test, and go on or not by what they have loaded. -/
theorem wfeUntil_atFirst (insn : WaitInsn) (h : Unreached S cyclesEnd m) :
    Concludes S.answer False (wfeUntil w insn value cyclesEnd) m (AtFirst S cyclesEnd) := by
  unfold wfeUntil
  refine atFirst_iter ?_ h
  intro _ m hm
  refine Ends.seq hear_loadExclusive ?_
  rintro _ _ ⟨rfl, rfl⟩
  split
  · exact Ends.pure atFirst_true
  refine Ends.seq (hear_waitIn _) ?_
  rintro _ _ rfl
  refine Ends.seq (hear_load _) ?_
  rintro _ _ ⟨rfl, rfl⟩
  refine ((hm.hear _).hear _).test fun c m' hm' => ?_
  split
  · exact Ends.pure hm'
  · exact Ends.pure atFirst_true

variable {F : CycleScale} {nanoseconds total : BitVec 64}

/-- What comes before the loop of a monitor wait takes no reading of the deadline. -/
theorem early_atFirst {k : BitVec 64 → BitVec 64 → Prog (atomics w) Bool}
    (htotal : cyclesForNanoseconds F nanoseconds = some total)
    (hloop : ∀ m, Unreached S cyclesEnd m →
      Concludes S.answer False (k total S.beginCycles) m (AtFirst S cyclesEnd)) :
    Concludes S.answer False
      (do
        let result ← atomicLoadN .acquire
        if result == value then return true
        let totalCycles ← detectCalculateCyclesForNanoseconds F nanoseconds
        let beginCycles ← readCycleCounter
        k totalCycles beginCycles) {} (AtFirst S cyclesEnd) := by
  refine Concludes.seq (hear_load _) ?_
  rintro _ _ ⟨rfl, rfl⟩
  split
  · exact Concludes.pure atFirst_true
  refine Concludes.seq (hear_convert htotal) ?_
  rintro _ _ ⟨rfl, rfl⟩
  refine Concludes.seq hear_begin ?_
  rintro _ _ ⟨rfl, rfl⟩
  exact hloop _ (Unreached.start.hear _)

/-- `wfet_wait_for_value_timeout_i32` reads the counter before it converts the timeout. -/
theorem wfetI32_atFirst {S : Streams 32} {value : BitVec 32} (lowPower : Bool)
    (htotal : cyclesForNanoseconds F nanoseconds = some total) :
    Concludes S.answer False (wfetWaitForValueTimeoutI32 F value nanoseconds lowPower) {}
      (AtFirst S (S.beginCycles + total)) := by
  unfold wfetWaitForValueTimeoutI32
  refine Concludes.seq (hear_load _) ?_
  rintro _ _ ⟨rfl, rfl⟩
  split
  · exact Concludes.pure atFirst_true
  refine Concludes.seq hear_begin ?_
  rintro _ _ ⟨rfl, rfl⟩
  refine Concludes.seq (hear_convert htotal) ?_
  rintro _ _ ⟨rfl, rfl⟩
  exact wfeUntil_atFirst _ (Unreached.start.hear _)

/-- **A wait times out at the first reading that has reached its deadline**, in every backend: what
    an ARM wait has loaded before makes no difference to that. -/
theorem TimedWait.atFirst (b : TimedWait w) (value : BitVec w) (lowPower : Bool) (S : Streams w)
    (htotal : cyclesForNanoseconds F nanoseconds = some total) :
    Concludes S.answer False (b.run F value nanoseconds lowPower) {}
      (AtFirst S (S.beginCycles + total)) := by
  cases b with
  | spinloop w =>
    refine Concludes.seq (hear_convert htotal) ?_
    rintro _ _ ⟨rfl, rfl⟩
    refine Concludes.seq hear_begin ?_
    rintro _ _ ⟨rfl, rfl⟩
    exact spinloopUntil_atFirst lowPower Unreached.start
  | wfe w | wfet w => exact early_atFirst htotal fun m hm => wfeUntil_atFirst _ hm
  | wfetI32 => exact wfetI32_atFirst lowPower htotal
  | mwaitx w | waitpkg w => exact early_atFirst htotal fun m hm => x86Round_atFirst _ _ _ hm

end

/-! ## Ticks and nanoseconds -/

/-- The difference of two floors is less than one too much. -/
theorem ticks_sub_lt {rate offset s t : ℝ} :
    (ticks rate offset t - ticks rate offset s : ℤ) < rate * (t - s) + 1 := by
  have h : rate * (s - t) - 1 < (ticks rate offset s - ticks rate offset t : ℤ) := ticks_sub_gt
  push_cast at h ⊢
  linarith

/-- The wait begins at the instant `start`, and takes reading `k` of the counter at the instant
    `instant k`; the counter has not wrapped by then. -/
structure Streams.Clocked {w : Nat} (S : Streams w) (rate offset start : ℝ) (instant : Nat → ℝ) :
    Prop where
  begins : (S.beginCycles.toNat : ℤ) = ticks rate offset start
  reads : ∀ k, ((S.reading k).toNat : ℤ) = ticks rate offset (instant k)

namespace Streams.Clocked

variable {w : Nat} {S : Streams w} {rate offset start : ℝ} {instant : Nat → ℝ}
  {total : BitVec 64} {k : Nat}

/-- A deadline that does not wrap is reached when its cycles have passed. -/
theorem reached_iff (h : S.Clocked rate offset start instant)
    (hfits : S.beginCycles.toNat + total.toNat < 2 ^ 64) :
    S.beginCycles + total ≤ S.reading k ↔
      (total.toNat : ℤ) ≤ ticks rate offset (instant k) - ticks rate offset start := by
  rw [← h.begins, ← h.reads k, BitVec.le_def, BitVec.toNat_add, Nat.mod_eq_of_lt hfits]
  omega

theorem lt_of_reached (h : S.Clocked rate offset start instant)
    (hfits : S.beginCycles.toNat + total.toNat < 2 ^ 64)
    (hk : S.beginCycles + total ≤ S.reading k) :
    (total.toNat : ℝ) < rate * (instant k - start) + 1 := by
  have hle : (total.toNat : ℝ) ≤ (ticks rate offset (instant k) - ticks rate offset start : ℤ) := by
    exact_mod_cast (h.reached_iff hfits).mp hk
  exact lt_of_le_of_lt hle ticks_sub_lt

theorem lt_of_not_reached (h : S.Clocked rate offset start instant)
    (hfits : S.beginCycles.toNat + total.toNat < 2 ^ 64)
    (hk : ¬ S.beginCycles + total ≤ S.reading k) :
    rate * (instant k - start) < total.toNat := by
  have hlt : ticks rate offset (instant k) - ticks rate offset start + 1 ≤ (total.toNat : ℤ) := by
    have := mt (h.reached_iff hfits).mpr hk
    omega
  have hcast : ((ticks rate offset (instant k) - ticks rate offset start : ℤ) : ℝ) + 1 ≤
      total.toNat := by exact_mod_cast hlt
  have hgt : rate * (instant k - start) - 1 <
      (ticks rate offset (instant k) - ticks rate offset start : ℤ) := ticks_sub_gt
  linarith

theorem reached_of_le (h : S.Clocked rate offset start instant)
    (hfits : S.beginCycles.toNat + total.toNat < 2 ^ 64)
    (hk : total.toNat + 1 ≤ rate * (instant k - start)) :
    S.beginCycles + total ≤ S.reading k := by
  by_contra hnot
  have := h.lt_of_not_reached hfits hnot
  linarith

end Streams.Clocked

/-! ## What a timeout is converted to -/

/-- The factor by which the conversion lengthens a timeout, where the counter runs at `rate` GHz. -/
noncomputable def CycleScale.stretch (F : CycleScale) (rate : ℝ) : ℝ :=
  F.cyclesPerNanosecondMultiplier.toNat / F.cyclesPerNanosecondDivisor.toNat / rate

/-- A conversion that has a result has not divided by zero. -/
theorem divisor_pos {F : CycleScale} {ns total : BitVec 64}
    (htotal : cyclesForNanoseconds F ns = some total) :
    0 < F.cyclesPerNanosecondDivisor.toNat := by
  refine Nat.pos_of_ne_zero fun hzero => ?_
  have hdivisor : F.cyclesPerNanosecondDivisor = 0 := BitVec.eq_of_toNat_eq hzero
  unfold cyclesForNanoseconds at htotal
  rw [if_pos hdivisor] at htotal
  cases htotal

/-- The cycles of a timeout are the stretched timeout, truncated. -/
theorem cycles_of_timeout {F : CycleScale} {rate : ℝ} {ns total : BitVec 64} (hrate : 0 < rate)
    (hwrap : ns.toNat * F.cyclesPerNanosecondMultiplier.toNat < 2 ^ 64)
    (htotal : cyclesForNanoseconds F ns = some total) :
    rate * (F.stretch rate * ns.toNat) < total.toNat + 1 ∧
      (total.toNat : ℝ) ≤ rate * (F.stretch rate * ns.toNat) := by
  have hpos := divisor_pos htotal
  obtain ⟨c, hc, hval⟩ := cyclesForNanoseconds_toNat hpos ns
  obtain rfl : total = c := Option.some.inj (htotal.symm.trans hc)
  rw [Nat.mod_eq_of_lt hwrap] at hval
  have hq : (0 : ℝ) < F.cyclesPerNanosecondDivisor.toNat := by exact_mod_cast hpos
  have heq : rate * (F.stretch rate * ns.toNat) =
      (ns.toNat * F.cyclesPerNanosecondMultiplier.toNat : ℕ) /
        F.cyclesPerNanosecondDivisor.toNat := by
    unfold CycleScale.stretch
    push_cast
    field_simp
  rw [heq, hval]
  constructor
  · rw [div_lt_iff₀ hq]
    exact_mod_cast Num.lt_reciprocal_mul hpos
  · exact Nat.cast_div_le

section
variable {f : CycleFamily} {hz : BitVec 64} {r : CycleRate} {rate : ℝ}

/-- A timeout is never shortened, at the frequency the scale was made for. -/
theorem le_stretch (hrate : 0 < rate) (hlow : 1 ≤ hz.toNat) (hr : f.scaleOf hz = .ret r)
    (hpos : 0 < r.cyclesPerNanosecondDivisor.toNat) :
    (hz.toNat : ℝ) / 1000000000 ≤ rate * r.stretch rate := by
  obtain ⟨_, hscale, -, hmul, hdiv⟩ := scaleOf_eq f hlow
  cases hscale.symm.trans hr
  have hq : (0 : ℝ) < r.cyclesPerNanosecondDivisor.toNat := by exact_mod_cast hpos
  unfold CycleScale.stretch
  rw [mul_div_cancel₀ _ hrate.ne', div_le_div_iff₀ (by norm_num) hq, hmul, mul_comm]
  have hle := Num.reciprocal_mul_le (1000000000 * f.multiplier hz.toNat) hz.toNat
  rw [← hdiv, Nat.mul_comm 1000000000] at hle
  exact_mod_cast hle

/-- It is lengthened by one part in the divisor at most. -/
theorem stretch_le (hrate : 0 < rate) (hlow : 1 ≤ hz.toNat) (hr : f.scaleOf hz = .ret r)
    (hpos : 0 < r.cyclesPerNanosecondDivisor.toNat) :
    rate * r.stretch rate ≤
      (1 + 1 / r.cyclesPerNanosecondDivisor.toNat) * (hz.toNat / 1000000000) := by
  obtain ⟨_, hscale, -, hmul, hdiv⟩ := scaleOf_eq f hlow
  cases hscale.symm.trans hr
  have hq : (0 : ℝ) < r.cyclesPerNanosecondDivisor.toNat := by exact_mod_cast hpos
  unfold CycleScale.stretch
  rw [mul_div_cancel₀ _ hrate.ne', one_add_div hq.ne', div_mul_div_comm,
    div_le_div_iff₀ hq (by positivity), hmul]
  have hlt := Num.lt_reciprocal_mul (K := 1000000000 * f.multiplier hz.toNat) hlow
  rw [← hdiv] at hlt
  have hcast : (1000000000 * f.multiplier hz.toNat : ℝ) ≤
      (r.cyclesPerNanosecondDivisor.toNat + 1) * hz.toNat := by exact_mod_cast hlt.le
  have hscaled := mul_le_mul_of_nonneg_left hcast hq.le
  linarith

end

/-! ## A wait that converts by a scale -/

/-- **The wait lasts** between `least` and `most` nanoseconds: if it times out, then at a reading
    later than `least` and with none before it as late as `most`; and it is over by a reading as
    late as `most`. -/
structure Lasts {w : Nat} (S : Streams w) (p : Prog (atomics w) Bool) (start : ℝ)
    (instant : Nat → ℝ) (least most : ℝ) : Prop where
  timeout : ∀ m, Steps S.answer p {} (.ret false) m → ∃ k, m.readings = k + 1 ∧
    least < instant k - start ∧ ∀ j, j < k → instant j - start < most
  ends : ∀ k, most ≤ instant k - start → Returns S.answer p {}

/-- A timed wait of `ns` nanoseconds lasts between `least ns` and `most ns`, where neither the
    product of its timeout nor its deadline wraps. -/
def WaitTable.KeepsTime {w : Nat} (T : WaitTable w) (F : CycleScale) (rate offset : ℝ)
    (least most : ℝ → ℝ) : Prop :=
  ∀ (value : BitVec w) (ns total : BitVec 64) (lowPower : Bool) (S : Streams w) (start : ℝ)
    (instant : Nat → ℝ), S.Clocked rate offset start instant →
    ns.toNat * F.cyclesPerNanosecondMultiplier.toNat < 2 ^ 64 →
    cyclesForNanoseconds F ns = some total → S.beginCycles.toNat + total.toNat < 2 ^ 64 →
    Lasts S (T.waitForValueTimeout F value ns lowPower) start instant (least ns.toNat)
      (most ns.toNat)

/-- **Bounds on the cycles of a timeout are bounds on the time**, a tick apart: the deadline is one
    on what the counter has counted, and the wait times out at the first reading that has reached
    it. -/
theorem TimedWait.lasts {w : Nat} (b : TimedWait w) {rate offset start least most : ℝ}
    {instant : Nat → ℝ} {S : Streams w} {F : CycleScale} (value : BitVec w)
    {ns total : BitVec 64} (lowPower : Bool) (hrate : 0 < rate)
    (hclock : S.Clocked rate offset start instant)
    (htotal : cyclesForNanoseconds F ns = some total)
    (hfits : S.beginCycles.toNat + total.toNat < 2 ^ 64)
    (hfew : rate * least ≤ total.toNat - 1) (hmany : total.toNat + 1 ≤ rate * most) :
    Lasts S (b.run F value ns lowPower) start instant least most where
  timeout m hsteps := by
    obtain ⟨k, hk, hreached, hbefore⟩ := (b.atFirst value lowPower S htotal).sound _ _ hsteps rfl
    refine ⟨k, hk, ?_, ?_⟩
    · have := hclock.lt_of_reached hfits hreached
      exact lt_of_mul_lt_mul_left (by linarith) hrate.le
    · intro j hj
      have := hclock.lt_of_not_reached hfits (hbefore j hj)
      exact lt_of_mul_lt_mul_left (by linarith) hrate.le
  ends k hk := by
    have hticks := mul_le_mul_of_nonneg_left hk hrate.le
    exact (b.decides value lowPower S htotal).returns
      ⟨k, Or.inr (hclock.reached_of_le hfits (by linarith))⟩

/-- Timed waits last as long as the conversion stretches their timeout, to within two ticks. -/
theorem keepsTime_of_stretch {w : Nat} {T : WaitTable w} {b : TimedWait w} {F : CycleScale}
    {rate : ℝ} (hT : T.waitForValueTimeout = b.run) (hrate : 0 < rate) (offset : ℝ) :
    T.KeepsTime F rate offset (fun ns => F.stretch rate * ns - (2 : ℕ) / rate)
      (fun ns => F.stretch rate * ns + 1 / rate) := by
  intro value ns total lowPower S start instant hclock hwrap htotal hfits
  obtain ⟨hge, hle⟩ := cycles_of_timeout hrate hwrap htotal
  rw [hT]
  refine b.lasts value lowPower hrate hclock htotal hfits ?_ ?_
  · have heq : rate * (F.stretch rate * ns.toNat - (2 : ℕ) / rate) =
        rate * (F.stretch rate * ns.toNat) - 2 := by
      rw [mul_sub, mul_div_cancel₀ _ hrate.ne']
      norm_num
    linarith
  · have heq : rate * (F.stretch rate * ns.toNat + 1 / rate) =
        rate * (F.stretch rate * ns.toNat) + 1 := by
      rw [mul_add, mul_div_cancel₀ _ hrate.ne']
    linarith

/-- Wider bounds hold as well, for the timeouts there are. -/
theorem WaitTable.KeepsTime.mono {w : Nat} {T : WaitTable w} {F : CycleScale} {rate offset : ℝ}
    {least most least' most' : ℝ → ℝ} (h : T.KeepsTime F rate offset least most)
    (hle : ∀ ns : BitVec 64, cyclesForNanoseconds F ns ≠ none →
      least' ns.toNat ≤ least ns.toNat ∧ most ns.toNat ≤ most' ns.toNat) :
    T.KeepsTime F rate offset least' most' := by
  intro value ns total lowPower S start instant hclock hwrap htotal hfits
  obtain ⟨htimeout, hends⟩ := h value ns total lowPower S start instant hclock hwrap htotal hfits
  obtain ⟨hleast, hmost⟩ := hle ns (by simp [htotal])
  constructor
  · intro m hsteps
    obtain ⟨k, hk, hlate, hbefore⟩ := htimeout m hsteps
    exact ⟨k, hk, hleast.trans_lt hlate, fun j hj => (hbefore j hj).trans_le hmost⟩
  · exact fun k hk => hends k (hmost.trans hk)

/-! ## A scale made from the measured frequency -/

/-- The least time a wait lasts that times out: a millionth of the timeout short at a rate of one
    tick a nanosecond, and two ticks. -/
noncomputable def leastTime (rate ns : ℝ) : ℝ := ns - (ns / (1000000 : ℕ) + (2 : ℕ)) / rate

/-- The time after which a wait is over: the timeout is stretched as the sample was, which took
    `span` instead of a millisecond, and by one part in the divisor. -/
noncomputable def mostTime (rate span divisor ns : ℝ) : ℝ :=
  (1 + 1 / divisor) * ns * ((span + 1 / rate) / (1000000 : ℕ)) + 1 / rate

/-- **A frequency that is nearly right is good enough**: between `rate` GHz less 1000 Hz and what a
    sample of `span` nanoseconds can have counted. -/
theorem keepsTime_of_scale {w : Nat} {T : WaitTable w} {b : TimedWait w} {rate offset span : ℝ}
    {f : CycleFamily} {hz : BitVec 64} {r : CycleRate} (hT : T.waitForValueTimeout = b.run)
    (hrate : 0 < rate) (hlow : 1 ≤ hz.toNat) (hr : f.scaleOf hz = .ret r)
    (hleast : rate * 1000000000 - 1000 < hz.toNat)
    (hmost : (hz.toNat : ℝ) ≤ 1000 * (rate * span + 1)) :
    T.KeepsTime r.toCycleScale rate offset (leastTime rate)
      (mostTime rate span r.cyclesPerNanosecondDivisor.toNat) := by
  refine (keepsTime_of_stretch hT hrate offset).mono ?_
  intro ns hconv
  obtain ⟨total, htotal⟩ := Option.ne_none_iff_exists'.mp hconv
  have hpos := divisor_pos htotal
  have hns : (0 : ℝ) ≤ ns.toNat := Nat.cast_nonneg _
  constructor
  · have hge := le_stretch hrate hlow hr hpos
    have hscaled : (ns.toNat : ℝ) * (rate * 1000000000 - 1000) ≤
        ns.toNat * (rate * r.stretch rate * 1000000000) :=
      mul_le_mul_of_nonneg_left (by linarith) hns
    have heq : rate * (ns.toNat - ns.toNat / 1000000 / rate) =
        rate * ns.toNat - ns.toNat / 1000000 := by
      rw [mul_sub, mul_div_cancel₀ _ hrate.ne']
    have hle : (ns.toNat - ns.toNat / 1000000 / rate : ℝ) ≤ r.stretch rate * ns.toNat := by
      refine le_of_mul_le_mul_left ?_ hrate
      linarith
    unfold leastTime
    rw [add_div]
    push_cast
    linarith
  · have hle := stretch_le hrate hlow hr hpos
    have hpart : (0 : ℝ) ≤ 1 + 1 / (r.cyclesPerNanosecondDivisor.toNat : ℝ) := by positivity
    have hmeasured : r.stretch rate ≤
        (1 + 1 / r.cyclesPerNanosecondDivisor.toNat) * ((span + 1 / rate) / 1000000) := by
      refine le_of_mul_le_mul_left (hle.trans ?_) hrate
      have heq : rate * ((1 + 1 / (r.cyclesPerNanosecondDivisor.toNat : ℝ)) *
          ((span + 1 / rate) / 1000000)) =
          (1 + 1 / (r.cyclesPerNanosecondDivisor.toNat : ℝ)) *
            (1000 * (rate * span + 1) / 1000000000) := by
        field_simp
        ring
      rw [heq]
      refine mul_le_mul_of_nonneg_left ?_ hpart
      linarith
    have hscaled := mul_le_mul_of_nonneg_left hmeasured hns
    unfold mostTime
    push_cast
    linarith

/-! ## `wfe_mutex_init` -/

/-- Where CPUID does not report the frequency, it is measured and scaled. -/
theorem detectCycleCounterFrequency_eq {crystalHz : CpuidRegs → BitVec 64}
    {cpuid : BitVec 32 → CpuidRegs} (hcpuid : ¬ CycleSource.Reported cpuid)
    (unset : Nat → Timespec × Timespec) :
    detectCycleCounterFrequency crystalHz cpuid unset =
      (calibrate unset).bind fun rdtscMin => scaleOf (rdtscMin * 1000) := by
  unfold detectCycleCounterFrequency
  rw [CycleSource.cpuidFrequency_eq_none crystalHz hcpuid]
  rfl

/-- What `wfe_mutex_init` returns has been scaled from the frequency it has measured. -/
theorem init_measured {crystalHz : CpuidRegs → BitVec 64} {cpuid : BitVec 32 → CpuidRegs}
    {unset : Nat → Timespec × Timespec} {tr : List (Act initOps)} {P : Platform}
    (hcpuid : ¬ CycleSource.Reported cpuid)
    (h : Prog.Trace (wfeMutexInit crystalHz cpuid unset) tr (.ret P)) :
    ∃ r : CycleRate, P = ⟨.x86 cpuid, true, r.cycleHz, r.toCycleScale⟩ ∧ 1 ≤ r.cycleHz.toNat ∧
      scaleOf r.cycleHz = .ret r ∧
      Prog.Trace (detectCycleCounterFrequency crystalHz cpuid unset) tr (scaleOf r.cycleHz) := by
  obtain ⟨tr₁, tr₂, r, rfl, hdetect, hret⟩ := Prog.Trace.of_bind h
  obtain ⟨rfl, hP⟩ : tr₂ = [] ∧
      (⟨.x86 cpuid, true, r.cycleHz, r.toCycleScale⟩ : Platform) = P := by
    cases hret
    exact ⟨rfl, rfl⟩
  rw [detectCycleCounterFrequency_eq hcpuid] at hdetect ⊢
  obtain ⟨tr₃, tr₄, m, rfl, hcalibrate, hscale⟩ := Prog.Trace.of_bind hdetect
  have hreach := hcalibrate.bind fun rdtscMin => scaleOf (rdtscMin * 1000)
  unfold scaleOf at hscale
  by_cases hzero : m * 1000 = 0
  · rw [if_pos hzero] at hscale
    -- the frequency would have been divided by
    cases hscale with
    | @op _ _ a => exact a.elim
  · rw [if_neg hzero] at hscale
    cases hscale
    have hlow : 1 ≤ (m * 1000).toNat := by
      have hne : (m * 1000).toNat ≠ (0 : BitVec 64).toNat :=
        fun h => hzero (BitVec.eq_of_toNat_eq h)
      exact Nat.pos_of_ne_zero hne
    refine ⟨_, hP.symm, hlow, ?_, ?_⟩
    · show scaleOf (m * 1000) = _
      unfold scaleOf
      rw [if_neg hzero]
      rfl
    · rw [List.append_nil, List.append_nil]
      exact hreach

/-- **Timed waits keep time** after `wfe_mutex_init` has measured a steady counter on x86, at every
    width of the table it leaves behind, as exactly as any of the five samples was. -/
theorem timed_waits_keep_time {rate offset : ℝ} {instant : Nat → ℝ} {t : ℝ}
    {crystalHz : CpuidRegs → BitVec 64} {cpuid : BitVec 32 → CpuidRegs}
    {unset : Nat → Timespec × Timespec} {tr : List (Act initOps)} {l : Nat × ℝ} {P : Platform}
    (hrate : 0 < rate) (hcpuid : ¬ CycleSource.Reported cpuid)
    (hadm : (clocked rate offset instant).Admits (0, t) tr l)
    (htr : Prog.Trace (wfeMutexInit crystalHz cpuid unset) tr (.ret P))
    (hfits : ∀ i, i < 5 → 1000 * (ticks rate offset (instant (2 * i + 1)) -
      ticks rate offset (instant (2 * i))) < 2 ^ 64) (i : Nat) (hi : i < 5) :
    let F := P.features
    let span := instant (2 * i + 1) - instant (2 * i)
    let most := mostTime rate span F.cyclesPerNanosecondDivisor.toNat
    F.i8.KeepsTime F.toCycleScale rate offset (leastTime rate) most ∧
      F.i16.KeepsTime F.toCycleScale rate offset (leastTime rate) most ∧
      F.i32.KeepsTime F.toCycleScale rate offset (leastTime rate) most ∧
      F.i64.KeepsTime F.toCycleScale rate offset (leastTime rate) most := by
  obtain ⟨r, rfl, hlow, hr, hreach⟩ := init_measured hcpuid htr
  obtain ⟨d, ⟨-, hlower⟩, hval, hleast⟩ :=
    measured_frequency hrate.le hcpuid hadm hreach hfits
  have hmost : (r.cycleHz.toNat : ℝ) ≤
      1000 * (rate * (instant (2 * i + 1) - instant (2 * i)) + 1) := by
    have hd : d ≤ ticks rate offset (instant (2 * i + 1)) - ticks rate offset (instant (2 * i)) :=
      hlower ⟨i, hi, rfl⟩
    have hle : (r.cycleHz.toNat : ℝ) ≤ 1000 * (ticks rate offset (instant (2 * i + 1)) -
        ticks rate offset (instant (2 * i)) : ℤ) := by
      have : (r.cycleHz.toNat : ℤ) ≤ 1000 * (ticks rate offset (instant (2 * i + 1)) -
        ticks rate offset (instant (2 * i))) := by omega
      exact_mod_cast this
    have hlt : (ticks rate offset (instant (2 * i + 1)) - ticks rate offset (instant (2 * i)) : ℤ) <
        rate * (instant (2 * i + 1) - instant (2 * i)) + 1 := ticks_sub_lt
    linarith
  let P : Platform := ⟨.x86 cpuid, true, r.cycleHz, r.toCycleScale⟩
  have hcoherent : P.features.Coherent true := P.coherent
  have hall : ∀ (w : Nat) (T : WaitTable w),
      T = P.features.waitType.table P.features.waitTypeTimeout w →
      T.KeepsTime r.toCycleScale rate offset (leastTime rate)
        (mostTime rate (instant (2 * i + 1) - instant (2 * i))
          r.cyclesPerNanosecondDivisor.toNat) := by
    rintro w _ rfl
    exact keepsTime_of_scale (f := .x86) rfl hrate hlow hr hleast hmost
  exact ⟨hall 8 _ hcoherent.i8, hall 16 _ hcoherent.i16, hall 32 _ hcoherent.i32,
    hall 64 _ hcoherent.i64⟩

/-! ### The counter of 1 GHz, read once a millisecond -/

/-- The table `wfe_mutex_init` leaves there: nothing but the spin loop. -/
def millisecondPlatform : Platform := ⟨.x86 oldCpuid, true, 1000000000, ⟨10000, 10000⟩⟩

theorem ticks_millisecond (n : Nat) : ticks 1 0 (millisecond n) = n * 1000000 := by
  unfold ticks millisecond
  rw [one_mul, add_zero]
  exact_mod_cast Int.floor_natCast (n * 1000000)

theorem millisecond_init :
    ∃ tr l, (clocked 1 0 millisecond).Admits (0, 0) tr l ∧
      Prog.Trace (wfeMutexInit (fun _ => 0) oldCpuid fun _ => (⟨0, 0⟩, ⟨0, 0⟩)) tr
        (.ret millisecondPlatform) := by
  let unset : Nat → Timespec × Timespec := fun _ => (⟨0, 0⟩, ⟨0, 0⟩)
  have hcpuid : ¬ CycleSource.Reported oldCpuid := fun h => absurd h.1 (by decide)
  obtain ⟨tr, m, t, htr, hadm, -⟩ := millisecond_samples unset Prog.ret (le_refl 5)
  have hlast : Prog.Trace (sampling unset 5 m Prog.ret) [] (.ret m) := by
    refine .jump ?_
    rw [unroll_calibrationRound_last _ 5 _ _ (Nat.lt_irrefl 5)]
    exact .nil _
  have hcalibrate : Prog.Trace (calibrate unset) tr (.ret m) := by
    have := htr.append hlast
    rwa [List.append_nil] at this
  have hdetect : Prog.Trace (detectCycleCounterFrequency (fun _ => 0) oldCpuid unset) tr
      (scaleOf (m * 1000)) := by
    rw [detectCycleCounterFrequency_eq hcpuid]
    exact hcalibrate.bind fun rdtscMin => scaleOf (rdtscMin * 1000)
  -- it has measured 1 GHz
  obtain ⟨d, ⟨⟨i, hi, hd⟩, -⟩, hval, -⟩ := measured_frequency zero_le_one hcpuid hadm hdetect
    (fun i hi => by
      rw [ticks_millisecond, ticks_millisecond]
      omega)
  rw [ticks_millisecond, ticks_millisecond] at hd
  have hhz : m * 1000 = 1000000000 := by
    refine BitVec.eq_of_toNat_eq ?_
    show (m * 1000).toNat = 1000000000
    omega
  refine ⟨tr, _, hadm, ?_⟩
  have hend := hcalibrate.bind (finishInit oldCpuid)
  have hret : (Prog.ret m).bind (finishInit oldCpuid) = .ret millisecondPlatform := by
    show finishInit oldCpuid m = _
    unfold finishInit
    rw [hhz]
    rfl
  rw [hret] at hend
  exact hend

/-- A wait that begins when the counter does, and next reads it two seconds later. -/
def twoSeconds : Streams 32 where
  load _ := 0
  beginCycles := 0
  reading _ := 2000000000

/-- A wait of a second is over by then. -/
theorem timed_waits_keep_time_second :
    Returns twoSeconds.answer
      (spinloopWaitForValueTimeoutI32 ⟨10000, 10000⟩ 1 1000000000 false) {} := by
  obtain ⟨tr, l, hadm, htr⟩ := millisecond_init
  have hcpuid : ¬ CycleSource.Reported oldCpuid := fun h => absurd h.1 (by decide)
  obtain ⟨-, -, hkeeps, -⟩ := timed_waits_keep_time one_pos hcpuid hadm htr (fun i hi => by
    rw [ticks_millisecond, ticks_millisecond]
    omega) 0 (by decide)
  have hclock : twoSeconds.Clocked 1 0 0 fun _ => 2000000000 := by
    constructor
    · simp [twoSeconds, ticks]
    · intro k
      simp only [twoSeconds, ticks, one_mul, add_zero]
      exact_mod_cast (Int.floor_natCast (R := ℝ) 2000000000).symm
  refine (hkeeps 1 1000000000 1000000000 false twoSeconds 0 _ hclock (by decide) (by decide)
    (by decide)).ends 0 ?_
  show mostTime 1 _ ((10000 : Nat) : ℝ) ((1000000000 : Nat) : ℝ) ≤ 2000000000 - 0
  unfold mostTime millisecond
  norm_num

end WfeMutex
