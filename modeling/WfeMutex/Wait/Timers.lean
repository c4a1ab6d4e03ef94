/-
  DOES THE TIMED mwaitx WAIT ALWAYS SLEEP WITH A LIVE TIMER?

  `mwaitx` with bit 1 of its extensions arms a timer of `ebx` cycles, and none if `ebx` is zero.
  The wait hands over the cycles from its last counter reading to the deadline, clamped to 32 bits.
  From the second round on that reading is one which has not reached the deadline; in the first it
  is the reading the wait began with, and nothing has been tested yet.

  So every timer is live, and no longer than what is left, exactly where the conversion has given at
  least one cycle: where the product of timeout and multiplier, modulo 2^64, reaches the divisor
  (`mwaitx_timers_live_iff`).  With a shorter timeout, zero included, the wait goes to sleep with no
  timer at all.
-/
import WfeMutex.Wait.Timeout

set_option linter.unusedVariables false

namespace WfeMutex

open Conc

section
variable {w : Nat}

/-! ## Timers -/

/-- The last reading of the counter. -/
def Streams.lastReading (S : Streams w) (m : Heard w) : BitVec 64 :=
  if m.readings = 0 then S.beginCycles else S.reading (m.readings - 1)

/-- The instruction arms a timer of at least one cycle, which ends with the cycles that are left or
    as late as `ebx` can tell. -/
def LiveTimer (lastReading cyclesEnd : BitVec 64) (insn : WaitInsn) : Prop :=
  ∃ hints extensions ebx, insn = .mwaitx hints extensions (some ebx) ∧
    extensions.getLsbD 1 = true ∧ lastReading.toNat < cyclesEnd.toNat ∧
    ebx.toNat = min (cyclesEnd.toNat - lastReading.toNat) (2 ^ 32 - 1) ∧ 1 ≤ ebx.toNat

/-- Every instruction the wait sleeps in has a live timer. -/
def TimersLive (S : Streams w) (cyclesEnd : BitVec 64) (p : Prog (atomics w) Bool) : Prop :=
  ∀ i k m, Steps S.answer p {} (@Prog.op (atomics w) Bool (.wait i) k) m →
    LiveTimer (S.lastReading m) cyclesEnd i

/-- What is left of the cycles, clamped to 32 bits. -/
theorem cyclesRemaining_toNat {cyclesEnd last : BitVec 64} (h : last.toNat < cyclesEnd.toNat) :
    (cyclesRemaining cyclesEnd last).toNat =
      min (cyclesEnd.toNat - last.toNat) (2 ^ 32 - 1) := by
  have hsub : (cyclesEnd - last).toNat = cyclesEnd.toNat - last.toNat :=
    BitVec.toNat_sub_of_le (Nat.le_of_lt h)
  unfold cyclesRemaining
  by_cases hbig : cyclesEnd - last ≥ 0xFFFFFFFF
  · have hge : 2 ^ 32 - 1 ≤ (cyclesEnd - last).toNat := hbig
    simp only [hbig, if_true]
    show 2 ^ 32 - 1 = _
    omega
  · have hlt : ¬ 2 ^ 32 - 1 ≤ (cyclesEnd - last).toNat := hbig
    simp only [hbig, if_false, BitVec.toNat_setWidth]
    omega

/-- A reading that has not reached the deadline leaves a live timer. -/
theorem mwaitxTimed_live {cyclesEnd last : BitVec 64} (h : last.toNat < cyclesEnd.toNat)
    (lowPower : Bool) : LiveTimer last cyclesEnd (mwaitxTimed lowPower cyclesEnd last) := by
  refine ⟨_, _, _, rfl, rfl, h, cyclesRemaining_toNat h, ?_⟩
  rw [cyclesRemaining_toNat h]
  omega

/-! ## The timed wait -/

/-- The machine, with a live timer in every sleep. -/
def liveTimers (S : Streams w) (cyclesEnd : BitVec 64) : Proto (atomics w) (Heard w) :=
  machine S.answer fun m (o : Op w) =>
    match o with
    | .wait i => LiveTimer (S.lastReading m) cyclesEnd i
    | _ => True

variable {S : Streams w} {cyclesEnd : BitVec 64} {m : Heard w}

/-- A load reads no counter. -/
theorem live_load (mo : MemOrder) :
    Spec (liveTimers S cyclesEnd) (atomicLoadN mo) m fun _ m' => m'.readings = m.readings := by
  refine spec_act trivial ?_
  rintro a m' h
  cases h
  rfl

theorem live_armThenLoad (insn : ArmInsn) :
    Spec (liveTimers S cyclesEnd) (armThenLoad w insn) m fun _ m' => m'.readings = m.readings := by
  have harm : Spec (liveTimers S cyclesEnd) (armWith insn) m fun _ m' => m' = m := by
    refine spec_act trivial ?_
    rintro a m' h
    cases h
    rfl
  refine Spec.seq harm ?_
  rintro _ _ rfl
  exact live_load _

/-- Going to sleep with a live timer. -/
theorem live_waitIn {insn : WaitInsn} (h : LiveTimer (S.lastReading m) cyclesEnd insn) :
    Spec (liveTimers S cyclesEnd) (waitIn insn) m fun _ m' => m' = m := by
  refine spec_act h ?_
  rintro a m' h
  cases h
  rfl

/-- A test of the deadline is one more reading. -/
theorem live_test :
    Spec (liveTimers S cyclesEnd) (readCycleCounterAgainst (w := w) cyclesEnd) m
      fun c m' => c = S.reading m.readings ∧ m'.readings = m.readings + 1 := by
  refine spec_act trivial ?_
  rintro a m' h
  cases h
  exact ⟨rfl, rfl⟩

/-- The reading a wait begins with is none of them. -/
theorem live_begin :
    Spec (liveTimers S cyclesEnd) (readCycleCounter (w := w)) m
      fun c m' => c = S.beginCycles ∧ m' = m := by
  refine spec_act trivial ?_
  rintro a m' h
  cases h
  exact ⟨rfl, rfl⟩

theorem live_convert (F : CycleScale) (nanoseconds : BitVec 64) :
    Spec (liveTimers S cyclesEnd) (detectCalculateCyclesForNanoseconds (w := w) F nanoseconds) m
      fun total m' => cyclesForNanoseconds F nanoseconds = some total ∧ m' = m := by
  unfold detectCalculateCyclesForNanoseconds
  split
  · exact Spec.pure ⟨by assumption, rfl⟩
  · exact Spec.op trivial fun a => a.elim

/-- The last reading depends on the readings only. -/
theorem Streams.lastReading_eq {m' : Heard w} (h : m'.readings = m.readings) :
    S.lastReading m' = S.lastReading m := by
  unfold Streams.lastReading
  rw [h]

/-- After a test it is the one just made. -/
theorem Streams.lastReading_succ {m' : Heard w} (h : m'.readings = m.readings + 1) :
    S.lastReading m' = S.reading m.readings := by
  unfold Streams.lastReading
  rw [h]
  rfl

/-- **The timed mwaitx wait** keeps its timers live from a deadline that lies ahead. -/
theorem live_mwaitx (F : CycleScale) (value : BitVec w) (nanoseconds : BitVec 64)
    (lowPower : Bool) (hend : ∀ total, cyclesForNanoseconds F nanoseconds = some total →
      cyclesEnd = S.beginCycles + total ∧ S.beginCycles.toNat < cyclesEnd.toNat) :
    Spec (liveTimers S cyclesEnd) (mwaitxWaitForValueTimeout w F value nanoseconds lowPower) {}
      fun _ _ => True := by
  refine Spec.seq (live_load _) ?_
  intro r m hm
  split
  · exact Spec.pure trivial
  refine Spec.seq (live_convert F nanoseconds) ?_
  rintro total _ ⟨htotal, rfl⟩
  refine Spec.seq live_begin ?_
  rintro _ _ ⟨rfl, rfl⟩
  obtain ⟨rfl, hahead⟩ := hend total htotal
  -- the reading in hand is the last one, and has not reached the deadline
  refine Spec.iter
    (I := fun last m => last = S.lastReading m ∧ last.toNat < (S.beginCycles + total).toNat)
    ?_ ⟨?_, hahead⟩
  · rintro _ m ⟨rfl, hlast⟩
    refine Spec.seq (live_armThenLoad _) ?_
    intro r m' hm'
    split
    · exact Spec.pure trivial
    rw [← Streams.lastReading_eq hm'] at hlast ⊢
    refine Spec.seq (live_waitIn (mwaitxTimed_live hlast lowPower)) ?_
    rintro _ _ rfl
    refine Spec.seq live_test ?_
    rintro _ m'' ⟨rfl, hm''⟩
    split
    · exact Spec.pure trivial
    rename_i hc
    refine Spec.seq (live_load _) ?_
    intro r m₃ hm₃
    split
    · refine Spec.pure ⟨?_, Nat.lt_of_not_le hc⟩
      rw [Streams.lastReading_eq hm₃, Streams.lastReading_succ hm'']
    · exact Spec.pure trivial
  · unfold Streams.lastReading
    exact (if_pos hm).symm

/-- Without a cycle between the reading it began with and the deadline, the wait goes to sleep with
    a timer of zero. -/
theorem mwaitx_sleeps (F : CycleScale) {value : BitVec w} {nanoseconds : BitVec 64}
    (lowPower : Bool) (htotal : cyclesForNanoseconds F nanoseconds = some 0) {v : BitVec w}
    (hv : v ≠ value) (beginCycles : BitVec 64) :
    ∃ k m, Steps (Streams.standing v beginCycles).answer
      (mwaitxWaitForValueTimeout w F value nanoseconds lowPower) {}
      (@Prog.op (atomics w) Bool
        (.wait (.mwaitx (waitxHints lowPower) (1 <<< 1) (some 0))) k) m := by
  let S := Streams.standing v beginCycles
  have hne : ¬ (v == value) = true := by simpa using hv
  have hearly : Ends S.answer (atomicLoadN .acquire) {} fun r m => r = v ∧ m = Heard.hear {} v :=
    hear_load _
  have hround : Ends S.answer (armThenLoad w monitorx) (Heard.hear {} v)
      fun r m => r = v ∧ m = Heard.hear (Heard.hear {} v) v := hear_armThenLoad _
  have htimer : mwaitxTimed lowPower (beginCycles + 0) beginCycles =
      .mwaitx (waitxHints lowPower) (1 <<< 1) (some 0) := by
    simp [mwaitxTimed, cyclesRemaining]
  -- the early look, the conversion, the first reading, and the first look of the loop
  have hrun : Steps S.answer (mwaitxWaitForValueTimeout w F value nanoseconds lowPower) {} _ _ :=
    hearly.reach _
  rw [if_neg hne] at hrun
  have hconverted := hrun.append ((hear_convert htotal).reach _)
  have hbegun := hconverted.append (hear_begin.reach _)
  have hlooked := hbegun.append (.jump ((hround.reach _).bind _))
  rw [if_neg hne] at hlooked
  have hasleep : Steps S.answer (mwaitxWaitForValueTimeout w F value nanoseconds lowPower) {}
      (@Prog.op (atomics w) Bool (.wait (mwaitxTimed lowPower (beginCycles + 0) beginCycles)) _)
      _ := hlooked
  rw [htimer] at hasleep
  exact ⟨_, _, hasleep⟩

end

/-- The conversion gives no cycle exactly where the product does not reach the divisor. -/
theorem cyclesForNanoseconds_eq_zero_iff (F : CycleScale) (nanoseconds : BitVec 64) :
    cyclesForNanoseconds F nanoseconds = some 0 ↔
      ¬ F.cyclesPerNanosecondDivisor ≤ nanoseconds * F.cyclesPerNanosecondMultiplier := by
  unfold cyclesForNanoseconds
  by_cases hzero : F.cyclesPerNanosecondDivisor = 0
  · rw [if_pos hzero, hzero]
    simp
  · rw [if_neg hzero, Option.some_inj, BitVec.not_le]
    constructor
    · intro h
      exact (BitVec.udiv_eq_zero_iff_eq_zero_or_lt.mp h).resolve_left hzero
    · intro h
      exact BitVec.udiv_eq_zero_iff_eq_zero_or_lt.mpr (Or.inr h)

/-- **When every timer is live**: exactly where the timeout is a cycle or more, which is to say that
    the product of timeout and multiplier, modulo 2^64, reaches the divisor. -/
theorem mwaitx_timers_live_iff {w : Nat} (hw : 0 < w) (F : CycleScale) (value : BitVec w)
    (nanoseconds beginCycles : BitVec 64) (lowPower : Bool) :
    (∀ (S : Streams w) (total : BitVec 64), S.beginCycles = beginCycles → S.NonDecreasing →
      cyclesForNanoseconds F nanoseconds = some total →
      beginCycles.toNat + total.toNat < 2 ^ 64 →
      TimersLive S (beginCycles + total)
        (mwaitxWaitForValueTimeout w F value nanoseconds lowPower)) ↔
      F.cyclesPerNanosecondDivisor ≤ nanoseconds * F.cyclesPerNanosecondMultiplier := by
  constructor
  · intro hlive
    by_contra hshort
    have htotal := (cyclesForNanoseconds_eq_zero_iff F nanoseconds).mpr hshort
    obtain ⟨v, hv⟩ := exists_other hw value
    obtain ⟨k, m, hsteps⟩ := mwaitx_sleeps F lowPower htotal hv beginCycles
    have hasleep := hlive (.standing v beginCycles) 0 rfl
      (Streams.standing_nonDecreasing v beginCycles) htotal beginCycles.isLt _ k m hsteps
    obtain ⟨hints, extensions, ebx, hinsn, -, -, -, hpos⟩ := hasleep
    cases hinsn
    exact absurd hpos (by decide)
  · intro hlong S total hbegin hmono htotal hfits i k m hsteps
    subst hbegin
    have hne : total ≠ 0 := by
      rintro rfl
      exact (cyclesForNanoseconds_eq_zero_iff F nanoseconds).mp htotal hlong
    have hpos : 0 < total.toNat := by
      have hnat : total.toNat ≠ (0 : BitVec 64).toNat := fun h => hne (BitVec.eq_of_toNat_eq h)
      exact Nat.pos_of_ne_zero hnat
    have hahead : S.beginCycles.toNat < (S.beginCycles + total).toNat := by
      rw [BitVec.toNat_add, Nat.mod_eq_of_lt hfits]
      omega
    have hspec : Spec (liveTimers S (S.beginCycles + total))
        (mwaitxWaitForValueTimeout w F value nanoseconds lowPower) {} fun _ _ => True := by
      refine live_mwaitx F value nanoseconds lowPower ?_
      intro t ht
      obtain rfl : total = t := Option.some.inj (htotal.symm.trans ht)
      exact ⟨rfl, hahead⟩
    exact (hspec.steps hsteps).out.1

/-- Ten thousand cycles of a processor of 3 GHz in 3333 nanoseconds. -/
def threeGHz : CycleScale := ⟨10000, 3333⟩

/-- At the scale that detection leaves there, and with a timeout of zero, the wait sleeps with no
    timer. -/
theorem mwaitx_sleeps_without_timer :
    scaleOf 3000000000 = .ret ⟨threeGHz, 3000000000⟩ ∧
      (∃ k m, Steps (Streams.standing 0 1000).answer
        (mwaitxWaitForValueTimeoutI32 threeGHz 1 0 false) {}
        (@Prog.op (atomics 32) Bool (.wait (.mwaitx 0xF0 2 (some 0))) k) m) ∧
      ¬ TimersLive (Streams.standing 0 1000) (1000 + 0)
        (mwaitxWaitForValueTimeoutI32 threeGHz 1 0 false) := by
  have hsleeps : ∃ k m, Steps (Streams.standing 0 1000).answer
      (mwaitxWaitForValueTimeoutI32 threeGHz 1 0 false) {}
      (@Prog.op (atomics 32) Bool (.wait (.mwaitx 0xF0 2 (some 0))) k) m := by
    have hne : (0 : BitVec 32) ≠ 1 := by decide
    exact mwaitx_sleeps threeGHz false rfl hne 1000
  refine ⟨rfl, hsleeps, ?_⟩
  intro hlive
  obtain ⟨k, m, hsteps⟩ := hsleeps
  obtain ⟨hints, extensions, ebx, hinsn, -, -, -, hpos⟩ := hlive _ k m hsteps
  cases hinsn
  exact absurd hpos (by decide)

/-- A nanosecond of a counter of 1 GHz is enough. -/
theorem mwaitx_timers_live_iff_nanosecond :
    TimersLive (Streams.standing 0 1000) (1000 + 1)
      (mwaitxWaitForValueTimeoutI32 ⟨10000, 10000⟩ 1 1 false) :=
  (mwaitx_timers_live_iff (w := 32) (by decide) ⟨10000, 10000⟩ 1 1 1000 false).mpr (by decide)
    (.standing 0 1000) 1 rfl (Streams.standing_nonDecreasing 0 1000) rfl (by decide)

end WfeMutex
