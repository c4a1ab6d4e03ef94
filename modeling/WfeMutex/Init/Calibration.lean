/-
  DOES THE CALIBRATION END?  `wfe_mutex_init` against every clock and every cycle counter.

  The machine is a monotonic clock whose readings are valid, never decrease and pass every bound,
  and a cycle counter that reads anything (`Readings`).  `wfe_mutex_init` has one run on it
  (`Conc.Oracle`), and in that run the readings of the cycle counter mark the samples: sample `i`
  starts at reading `2i` of the counter and has left its loop at reading `2i + 1`.

  The loop of a sample compares the nanosecond fields of two readings, so what it waits for is a
  reading whose place in its second is one millisecond beyond that of `ts_start`.  No reading that
  comes less than a millisecond after `ts_start` is there (`not_passes_early`); the first one that
  comes a millisecond or more after it, the due reading, is there unless the clock has carried into
  another second on the way (`passes_iff_noCarry`).  A sample that starts in the last millisecond
  of a second waits for a reading that cannot exist (`sample_hangs`).
-/
import WfeMutex.Conc.Oracle
import WfeMutex.Model.Calibrate
import Mathlib.Order.WellFounded

set_option linter.unusedVariables false

namespace WfeMutex

open Conc

/-! ## Clocks -/

/-- The time in nanoseconds. -/
def Timespec.total (t : Timespec) : Int := t.tvSec * 1000000000 + t.tvNsec

structure Timespec.Valid (t : Timespec) : Prop where
  sec_nonneg : 0 ≤ t.tvSec
  nsec_nonneg : 0 ≤ t.tvNsec
  nsec_lt : t.tvNsec < 1000000000

/-- The successive readings of `CLOCK_MONOTONIC`. -/
structure MonotonicClock where
  reading : Nat → Timespec
  valid : ∀ n, (reading n).Valid
  mono : ∀ n, (reading n).total ≤ (reading (n + 1)).total
  unbounded : ∀ b, ∃ n, b ≤ (reading n).total

namespace MonotonicClock

variable (clock : MonotonicClock)

theorem total_le {m n : Nat} (h : m ≤ n) :
    (clock.reading m).total ≤ (clock.reading n).total := by
  induction h with
  | refl => exact Int.le_refl _
  | step _ ih => exact Int.le_trans ih (clock.mono _)

/-- Reading `d` is the first one that is at least one millisecond after reading `c`. -/
structure Due (c d : Nat) : Prop where
  after : c < d
  elapsed : (clock.reading c).total + 1000000 ≤ (clock.reading d).total
  first : ∀ n, c < n → n < d → (clock.reading n).total < (clock.reading c).total + 1000000

theorem exists_due (c : Nat) : ∃ d, clock.Due c d := by
  obtain ⟨n, hn⟩ := clock.unbounded ((clock.reading c).total + 1000000)
  let P : Nat → Prop := fun d =>
    c < d ∧ (clock.reading c).total + 1000000 ≤ (clock.reading d).total
  have hP : ∃ d, P d := by
    refine ⟨max n (c + 1), by omega, ?_⟩
    exact Int.le_trans hn (clock.total_le (Nat.le_max_left _ _))
  obtain ⟨d, hd, hmin⟩ := Nat.lt_wfRel.wf.has_min {d | P d} hP
  refine ⟨d, hd.1, hd.2, ?_⟩
  intro m hcm hmd
  have hnot : ¬ P m := fun hm => hmin m hm hmd
  have : ¬ (clock.reading c).total + 1000000 ≤ (clock.reading m).total := fun h => hnot ⟨hcm, h⟩
  omega

variable {clock}

theorem Due.unique {c d d' : Nat} (h : clock.Due c d) (h' : clock.Due c d') : d = d' := by
  by_contra hne
  rcases Nat.lt_or_gt_of_ne hne with hlt | hlt
  · have := h'.first d h.after hlt
    have := h.elapsed
    omega
  · have := h.first d' h'.after hlt
    have := h'.elapsed
    omega

end MonotonicClock

/-! ## The exit test -/

/-- The test of the spin loop lets go. -/
def Passes (start reading : Timespec) : Prop :=
  start.tvNsec + NANOSECOND_PER_MILLISECOND ≤ reading.tvNsec

/-- The time from `start` to `reading`, whole seconds aside, is a millisecond or more, and adding
    it to `start` does not carry into the next second. -/
structure NoCarry (start reading : Timespec) : Prop where
  part : 1000000 ≤ (reading.total - start.total) % 1000000000
  same : start.tvNsec + (reading.total - start.total) % 1000000000 < 1000000000

theorem passes_iff_noCarry {start reading : Timespec} (hs : start.Valid) (hr : reading.Valid) :
    Passes start reading ↔ NoCarry start reading := by
  obtain ⟨-, hs₀, hs₁⟩ := hs
  obtain ⟨-, hr₀, hr₁⟩ := hr
  have hmod : (reading.total - start.total) % 1000000000 =
      (reading.tvNsec - start.tvNsec) % 1000000000 := by
    unfold Timespec.total
    omega
  constructor
  · intro hpass
    unfold Passes NANOSECOND_PER_MILLISECOND at hpass
    constructor
    · rw [hmod]
      omega
    · rw [hmod]
      omega
  · rintro ⟨hpart, hsame⟩
    unfold Passes NANOSECOND_PER_MILLISECOND
    rw [hmod] at hpart hsame
    omega

/-- Less than a millisecond after `start`, the test does not let go. -/
theorem not_passes_early {start reading : Timespec} (hs : start.Valid) (hr : reading.Valid)
    (hle : start.total ≤ reading.total) (hlt : reading.total < start.total + 1000000) :
    ¬ Passes start reading := by
  intro hpass
  obtain ⟨-, hs₀, hs₁⟩ := hs
  obtain ⟨-, hr₀, hr₁⟩ := hr
  unfold Passes NANOSECOND_PER_MILLISECOND at hpass
  unfold Timespec.total at hle hlt
  omega

/-- In the last millisecond of a second, the test never lets go. -/
theorem not_passes_late {start reading : Timespec} (hr : reading.Valid)
    (hlate : 999000000 ≤ start.tvNsec) : ¬ Passes start reading := by
  intro hpass
  obtain ⟨-, -, hr₁⟩ := hr
  unfold Passes NANOSECOND_PER_MILLISECOND at hpass
  omega

/-! ## The machine -/

/-- What the clock and the cycle counter will read. -/
structure Readings where
  clock : MonotonicClock
  tsc : Nat → BitVec 64

/-- How many readings have been taken. -/
structure Taken where
  clock : Nat
  tsc : Nat
  deriving DecidableEq, Repr

/-- Every `clock_gettime` succeeds. -/
def Readings.answer (R : Readings) : (o : InitOp) → Taken → Option (o.Ans × Taken)
  | .readCycleCounter, n => some (R.tsc n.tsc, { n with tsc := n.tsc + 1 })
  | .clockGettime, n => some (some (R.clock.reading n.clock), { n with clock := n.clock + 1 })
  | .trap, _ => none

section
variable {R : Readings} {α : Type} {p q : Prog initOps α} {m m' : Taken}

theorem Readings.answer_clock_le {o : InitOp} {a : o.Ans} {c : Nat}
    (h : R.answer o m = some (a, m')) (hc : c ≤ m.clock) : c ≤ m'.clock := by
  cases o with
  | readCycleCounter => cases h; exact hc
  | clockGettime => cases h; exact Nat.le_succ_of_le hc
  | trap => cases h

theorem Readings.answer_tsc_le {o : InitOp} {a : o.Ans} {t : Nat}
    (h : R.answer o m = some (a, m')) (ht : t ≤ m.tsc) : t ≤ m'.tsc := by
  cases o with
  | readCycleCounter => cases h; exact Nat.le_succ_of_le ht
  | clockGettime => cases h; exact ht
  | trap => cases h

/-- Readings are only ever taken. -/
theorem Readings.clock_le (h : Steps R.answer p m q m') : m.clock ≤ m'.clock :=
  h.keeps (I := fun n => m.clock ≤ n.clock) (fun _ _ _ _ ha hn => R.answer_clock_le ha hn)
    (Nat.le_refl _)

theorem Readings.tsc_le (h : Steps R.answer p m q m') : m.tsc ≤ m'.tsc :=
  h.keeps (I := fun n => m.tsc ≤ n.tsc) (fun _ _ _ _ ha hn => R.answer_tsc_le ha hn)
    (Nat.le_refl _)

end

/-! ## What the run of a program shows -/

section
variable {α : Type} (R : Readings) (p : Prog initOps α)

/-- The program that reads the cycle counter next. -/
abbrev atCounter (k : BitVec 64 → Prog initOps α) : Prog initOps α :=
  @Prog.op initOps α .readCycleCounter k

/-- When the program comes to take reading `t` of the cycle counter, it has taken `n` readings of
    the clock. -/
def ReadsCounterAfter (t n : Nat) : Prop := ∃ k, Steps R.answer p ⟨0, 0⟩ (atCounter k) ⟨n, t⟩

/-- Sample `i` starts: its `ts_start` will be reading `c` of the clock. -/
def SampleStarts (i c : Nat) : Prop := ReadsCounterAfter R p (2 * i) c

/-- Sample `i` has left its loop at reading `j` of the clock. -/
def SampleExits (i j : Nat) : Prop := ReadsCounterAfter R p (2 * i + 1) (j + 1)

/-- **Each of the five loops exits in time**: at or before the first reading that is a millisecond
    after the sample's `ts_start`. -/
def LoopsExitInTime : Prop :=
  ∀ i, i < 5 → ∃ c j d, SampleStarts R p i c ∧ SampleExits R p i j ∧ R.clock.Due c d ∧ j ≤ d

variable {R p}

/-- Between two readings of the cycle counter there is a reading of the cycle counter. -/
theorem atCounter_clock {k k' : BitVec 64 → Prog initOps α} {t n n' : Nat}
    (h : Steps R.answer (atCounter k) ⟨n, t⟩ (atCounter k') ⟨n', t⟩) : n = n' := by
  rcases h.of_op with ⟨_, heq⟩ | ⟨a, m, ha, hsteps⟩
  · cases heq
    rfl
  · cases ha
    have hle : t + 1 ≤ t := R.tsc_le hsteps
    omega

theorem ReadsCounterAfter.unique {t n n' : Nat} (h : ReadsCounterAfter R p t n)
    (h' : ReadsCounterAfter R p t n') : n = n' := by
  obtain ⟨k, hk⟩ := h
  obtain ⟨k', hk'⟩ := h'
  rcases hk.linear hk' with hsteps | hsteps
  · exact atCounter_clock hsteps
  · exact (atCounter_clock hsteps).symm

end

/-! ## One sample -/

section
variable {α : Type} (unset : Nat → Timespec × Timespec) (i : Nat)
  (rdtscMin rdtscStart : BitVec 64) (K : BitVec 64 → Prog initOps α)

/-- Before sample `i`. -/
abbrev sampling : Prog initOps α := .loop (calibrationRound unset) (i, rdtscMin) K

/-- After the spin loop of sample `i`. -/
def afterSpin : Prog initOps α :=
  atCounter fun rdtscEnd => sampling unset (i + 1) (updateMin rdtscMin rdtscStart rdtscEnd) K

/-- After the first reading of the counter in sample `i`. -/
def afterStart : Prog initOps α :=
  @Prog.op initOps α .clockGettime fun r =>
    .loop (spinRound (r.getD (unset i).1)) (unset i).2 fun _ =>
      afterSpin unset i rdtscMin rdtscStart K

theorem unroll_calibrationRound (hi : i < 5) :
    Prog.unroll (calibrationRound unset) (i, rdtscMin) K =
      atCounter fun rdtscStart => afterStart unset i rdtscMin rdtscStart K := by
  show Prog.bind (if i < 5 then _ else _) _ = _
  rw [if_pos hi]
  rfl

theorem unroll_calibrationRound_last (hi : ¬ i < 5) :
    Prog.unroll (calibrationRound unset) (i, rdtscMin) K = K rdtscMin := by
  show Prog.bind (if i < 5 then _ else _) _ = _
  rw [if_neg hi]
  rfl

theorem unroll_spinRound (tsStart tsEnd : Timespec) (k : Timespec → Prog initOps α) :
    Prog.unroll (spinRound tsStart) tsEnd k = @Prog.op initOps α .clockGettime fun r =>
      if (r.getD tsEnd).tvNsec < tsStart.tvNsec + NANOSECOND_PER_MILLISECOND then
        .loop (spinRound tsStart) (r.getD tsEnd) k
      else k (r.getD tsEnd) := by
  refine congrArg (@Prog.op initOps α InitOp.clockGettime) (funext fun r => ?_)
  by_cases h : (r.getD tsEnd).tvNsec < tsStart.tvNsec + NANOSECOND_PER_MILLISECOND
  · rw [if_pos h]
    show Prog.bind (if (r.getD tsEnd).tvNsec < _ then _ else _) _ = _
    rw [if_pos h]
    rfl
  · rw [if_neg h]
    show Prog.bind (if (r.getD tsEnd).tvNsec < _ then _ else _) _ = _
    rw [if_neg h]
    rfl

end

section
variable {R : Readings} {α : Type} {unset : Nat → Timespec × Timespec}
  {K : BitVec 64 → Prog initOps α} {rdtscMin : BitVec 64} {i c n t : Nat} {tsEnd : Timespec}
  {k : Timespec → Prog initOps α}

/-- Inside the spin loop of a sample whose `ts_start` is reading `c`. -/
abbrev spinning (R : Readings) (c : Nat) (tsEnd : Timespec) (k : Timespec → Prog initOps α) :
    Prog initOps α :=
  .loop (spinRound (R.clock.reading c)) tsEnd k

/-- A reading that does not pass the test keeps the program in the loop. -/
theorem spinning_again (h : ¬ Passes (R.clock.reading c) (R.clock.reading n)) :
    Steps R.answer (spinning R c tsEnd k) ⟨n, t⟩ (spinning R c (R.clock.reading n) k)
      ⟨n + 1, t⟩ := by
  refine .jump ?_
  rw [unroll_spinRound]
  refine .op (a := some (R.clock.reading n)) rfl ?_
  rw [Option.getD_some, if_pos (Int.not_le.mp h)]
  exact .refl _ _

/-- A reading that passes the test ends the loop. -/
theorem spinning_leave (h : Passes (R.clock.reading c) (R.clock.reading n)) :
    Steps R.answer (spinning R c tsEnd k) ⟨n, t⟩ (k (R.clock.reading n)) ⟨n + 1, t⟩ := by
  refine .jump ?_
  rw [unroll_spinRound]
  refine .op (a := some (R.clock.reading n)) rfl ?_
  rw [Option.getD_some, if_neg (Int.not_lt.mpr h)]
  exact .refl _ _

/-- As long as no reading passes the test, the program is in the loop. -/
theorem spinning_while {j : Nat} (hj : n ≤ j)
    (h : ∀ x, n ≤ x → x < j → ¬ Passes (R.clock.reading c) (R.clock.reading x)) :
    ∃ tsEnd', Steps R.answer (spinning R c tsEnd k) ⟨n, t⟩ (spinning R c tsEnd' k) ⟨j, t⟩ := by
  induction hj with
  | refl => exact ⟨tsEnd, .refl _ _⟩
  | @step j hnj ih =>
    obtain ⟨tsEnd', hsteps⟩ := ih fun x hx hxj => h x hx (Nat.lt_succ_of_lt hxj)
    exact ⟨_, hsteps.append (spinning_again (h j hnj (Nat.lt_succ_self j)))⟩

/-- Another operation than `clock_gettime`, or a return, comes after another reading of the
    clock. -/
theorem spinning_clock {q : Prog initOps α} {m : Taken}
    (h : Steps R.answer (spinning R c tsEnd k) ⟨n, t⟩ q m)
    (hloop : q ≠ spinning R c tsEnd k) (hop : ∀ k', q ≠ @Prog.op initOps α .clockGettime k') :
    n + 1 ≤ m.clock := by
  rcases h.of_loop with ⟨hq, _⟩ | h
  · exact absurd hq hloop
  · rw [unroll_spinRound] at h
    rcases h.of_op with ⟨hq, _⟩ | ⟨a, m', ha, h⟩
    · exact absurd hq (hop _)
    · cases ha
      exact R.clock_le h

variable (unset K rdtscMin t)

/-- Sample `i` comes to read the counter first. -/
theorem sampling_counter (hi : i < 5) :
    Steps R.answer (sampling unset i rdtscMin K) ⟨c, t⟩
      (atCounter fun rdtscStart => afterStart unset i rdtscMin rdtscStart K) ⟨c, t⟩ := by
  refine .jump ?_
  rw [unroll_calibrationRound unset i rdtscMin K hi]
  exact .refl _ _

/-- It then reads the clock, and spins. -/
theorem sampling_spins (hi : i < 5) :
    Steps R.answer (sampling unset i rdtscMin K) ⟨c, t⟩
      (spinning R c (unset i).2 fun _ => afterSpin unset i rdtscMin (R.tsc t) K)
      ⟨c + 1, t + 1⟩ := by
  refine (sampling_counter unset K rdtscMin t hi).append ?_
  exact .op (a := R.tsc t) rfl (.op (a := some (R.clock.reading c)) rfl (.refl _ _))

/-- It is still spinning where no reading has passed the test. -/
theorem sampling_while (hi : i < 5) {j : Nat} (hj : c < j)
    (h : ∀ x, c < x → x < j → ¬ Passes (R.clock.reading c) (R.clock.reading x)) :
    ∃ tsEnd', Steps R.answer (sampling unset i rdtscMin K) ⟨c, t⟩
      (spinning R c tsEnd' fun _ => afterSpin unset i rdtscMin (R.tsc t) K) ⟨j, t + 1⟩ := by
  obtain ⟨tsEnd', hsteps⟩ := spinning_while (R := R) (t := t + 1) hj h
  exact ⟨tsEnd', (sampling_spins unset K rdtscMin t hi).append hsteps⟩

/-- It has left the loop after the first reading that passes the test. -/
theorem sampling_leaves (hi : i < 5) {j : Nat} (hj : c < j)
    (h : ∀ x, c < x → x < j → ¬ Passes (R.clock.reading c) (R.clock.reading x))
    (hpass : Passes (R.clock.reading c) (R.clock.reading j)) :
    Steps R.answer (sampling unset i rdtscMin K) ⟨c, t⟩
      (afterSpin unset i rdtscMin (R.tsc t) K) ⟨j + 1, t + 1⟩ := by
  obtain ⟨tsEnd', hsteps⟩ := sampling_while unset K rdtscMin t hi hj h
  exact hsteps.append (spinning_leave hpass)

end

/-! ## Five samples -/

/-- Where in the clock sample `i` starts, if every sample before it ends at its due reading. -/
inductive MonotonicClock.DueStarts (clock : MonotonicClock) : Nat → Nat → Prop where
  | zero : DueStarts clock 0 0
  | next {i c d : Nat} : DueStarts clock i c → clock.Due c d → DueStarts clock (i + 1) (d + 1)

/-- **The condition on the clock**: none of the first `n` samples is carried into another second
    before its due reading. -/
def MonotonicClock.NeverCarries (clock : MonotonicClock) (n : Nat) : Prop :=
  ∀ i, i < n → ∀ c d, clock.DueStarts i c → clock.Due c d →
    NoCarry (clock.reading c) (clock.reading d)

/-- The smallest of the first `i` counter differences. -/
def rdtscMin (tsc : Nat → BitVec 64) : Nat → BitVec 64
  | 0 => ~~~0
  | i + 1 => updateMin (rdtscMin tsc i) (tsc (2 * i)) (tsc (2 * i + 1))

namespace MonotonicClock

variable {clock : MonotonicClock} {i c d : Nat}

theorem exists_dueStarts (clock : MonotonicClock) (i : Nat) : ∃ c, clock.DueStarts i c := by
  induction i with
  | zero => exact ⟨0, .zero⟩
  | succ i ih =>
    obtain ⟨c, hc⟩ := ih
    obtain ⟨d, hd⟩ := clock.exists_due c
    exact ⟨d + 1, .next hc hd⟩

theorem Due.not_passes (h : clock.Due c d) :
    ∀ x, c < x → x < d → ¬ Passes (clock.reading c) (clock.reading x) := by
  intro x hcx hxd
  have hle : (clock.reading c).total ≤ (clock.reading x).total := clock.total_le (by omega)
  exact not_passes_early (clock.valid c) (clock.valid x) hle (h.first x hcx hxd)

theorem NeverCarries.passes {n : Nat} (h : clock.NeverCarries n) (hi : i < n)
    (hc : clock.DueStarts i c) (hd : clock.Due c d) :
    Passes (clock.reading c) (clock.reading d) :=
  (passes_iff_noCarry (clock.valid c) (clock.valid d)).mpr (h i hi c d hc hd)

theorem NeverCarries.of_le {m n : Nat} (h : clock.NeverCarries n) (hmn : m ≤ n) :
    clock.NeverCarries m := fun i hi => h i (Nat.lt_of_lt_of_le hi hmn)

end MonotonicClock

section
variable {R : Readings} {α : Type} (unset : Nat → Timespec × Timespec)
  (K : BitVec 64 → Prog initOps α) {i c d j n : Nat}

/-- **The run up to sample `i`**, where no sample before it is carried. -/
theorem calibration_reaches (hi : i ≤ 5) (hc : R.clock.DueStarts i c)
    (hclock : R.clock.NeverCarries i) :
    Steps R.answer (sampling unset 0 (~~~0) K) ⟨0, 0⟩
      (sampling unset i (rdtscMin R.tsc i) K) ⟨c, 2 * i⟩ := by
  induction hc with
  | zero => exact .refl _ _
  | @next i c d hc hd ih =>
    have hpass : Passes (R.clock.reading c) (R.clock.reading d) :=
      hclock.passes (Nat.lt_succ_self i) hc hd
    have hi₅ : i < 5 := hi
    have hbefore := ih (Nat.le_of_lt hi₅) (hclock.of_le (Nat.le_succ i))
    have hsample := sampling_leaves unset K (rdtscMin R.tsc i) (2 * i) hi₅ hd.after hd.not_passes
      hpass
    refine (hbefore.append hsample).append ?_
    exact .op (a := R.tsc (2 * i + 1)) rfl (.refl _ _)

/-- The run comes to the end of the calibration, with the smallest of the five differences. -/
theorem calibration_ends (hclock : R.clock.NeverCarries 5) :
    ∃ c, Steps R.answer (sampling unset 0 (~~~0) K) ⟨0, 0⟩ (K (rdtscMin R.tsc 5)) ⟨c, 2 * 5⟩ := by
  obtain ⟨c, hc⟩ := R.clock.exists_dueStarts 5
  have hreach := calibration_reaches unset K (Nat.le_refl 5) hc hclock
  have hend : Steps R.answer (sampling unset 5 (rdtscMin R.tsc 5) K) ⟨c, 2 * 5⟩
      (K (rdtscMin R.tsc 5)) ⟨c, 2 * 5⟩ := by
    refine .jump ?_
    rw [unroll_calibrationRound_last unset 5 _ _ (Nat.lt_irrefl 5)]
    exact .refl _ _
  exact ⟨c, hreach.append hend⟩

/-- A sample that is not carried starts and ends in time. -/
theorem sample_in_time (hi : i < 5) (hc : R.clock.DueStarts i c) (hd : R.clock.Due c d)
    (hclock : R.clock.NeverCarries 5) :
    SampleStarts R (sampling unset 0 (~~~0) K) i c ∧
      SampleExits R (sampling unset 0 (~~~0) K) i d := by
  have hreach := calibration_reaches unset K (Nat.le_of_lt hi) hc
    (hclock.of_le (Nat.le_of_lt hi))
  constructor
  · exact ⟨_, hreach.append (sampling_counter unset K _ _ hi)⟩
  · have hpass : Passes (R.clock.reading c) (R.clock.reading d) := hclock.passes hi hc hd
    have hleave := sampling_leaves unset K (rdtscMin R.tsc i) (2 * i) hi hd.after hd.not_passes
      hpass
    exact ⟨_, hreach.append hleave⟩

/-- **A sample leaves its loop at a reading that passes the test**: it does not where no reading up
    to there has passed it. -/
theorem sample_exit_after (hi : i < 5) (hc : R.clock.DueStarts i c)
    (hclock : R.clock.NeverCarries i) (hn : c < n)
    (hnone : ∀ x, c < x → x < n → ¬ Passes (R.clock.reading c) (R.clock.reading x))
    (hj : SampleExits R (sampling unset 0 (~~~0) K) i j) : n ≤ j := by
  have hreach := calibration_reaches unset K (Nat.le_of_lt hi) hc hclock
  obtain ⟨tsEnd, hspin⟩ := sampling_while unset K (rdtscMin R.tsc i) (2 * i) hi hn hnone
  obtain ⟨k, hk⟩ := hj
  rcases (hreach.append hspin).linear hk with hafter | hbefore
  · have hle : n + 1 ≤ j + 1 := by
      refine spinning_clock hafter ?_ ?_
      · intro h
        cases h
      · intro k' h
        cases h
    omega
  · -- the counter is read before the program spins again
    rcases hbefore.of_op with ⟨h, _⟩ | ⟨a, m, ha, hbefore⟩
    · cases h
    · cases ha
      have hle : 2 * i + 2 ≤ 2 * i + 1 := R.tsc_le hbefore
      omega

/-- A sample that leaves its loop in time is not carried. -/
theorem noCarry_of_sample (hi : i < 5) (hc : R.clock.DueStarts i c) (hd : R.clock.Due c d)
    (hclock : R.clock.NeverCarries i) (hj : SampleExits R (sampling unset 0 (~~~0) K) i j)
    (hjd : j ≤ d) : NoCarry (R.clock.reading c) (R.clock.reading d) := by
  rw [← passes_iff_noCarry (R.clock.valid c) (R.clock.valid d)]
  by_contra hpass
  have hnone : ∀ x, c < x → x < d + 1 → ¬ Passes (R.clock.reading c) (R.clock.reading x) := by
    intro x hcx hxd
    rcases Nat.lt_succ_iff_lt_or_eq.mp hxd with hlt | rfl
    · exact hd.not_passes x hcx hlt
    · exact hpass
  have hle : d + 1 ≤ j :=
    sample_exit_after unset K hi hc hclock (Nat.lt_succ_of_lt hd.after) hnone hj
  omega

/-- **Loops that exit in time are never carried.** -/
theorem neverCarries_of_inTime (h : LoopsExitInTime R (sampling unset 0 (~~~0) K)) :
    R.clock.NeverCarries 5 := by
  suffices hall : ∀ n, n ≤ 5 → R.clock.NeverCarries n from hall 5 (Nat.le_refl 5)
  intro n
  induction n with
  | zero =>
    intro _ i hi
    omega
  | succ n ih =>
    intro hn i hi c d hc hd
    have hclock : R.clock.NeverCarries n := ih (by omega)
    rcases Nat.lt_succ_iff_lt_or_eq.mp hi with hlt | rfl
    · exact hclock i hlt c d hc hd
    · obtain ⟨c', j, d', hstart, hexit, hd', hjd⟩ := h i (Nat.lt_of_succ_le hn)
      -- the sample starts where the run up to it ends
      have hi₅ : i < 5 := by omega
      have hreach := calibration_reaches unset K (Nat.le_of_lt hi₅) hc hclock
      have hstart' : SampleStarts R (sampling unset 0 (~~~0) K) i c :=
        ⟨_, hreach.append (sampling_counter unset K _ _ hi₅)⟩
      obtain rfl : c' = c := hstart.unique hstart'
      obtain rfl : d' = d := hd'.unique hd
      exact noCarry_of_sample unset K hi₅ hc hd hclock hexit hjd

/-- Where no sample is carried, every loop exits in time. -/
theorem inTime_of_neverCarries (h : R.clock.NeverCarries 5) :
    LoopsExitInTime R (sampling unset 0 (~~~0) K) := by
  intro i hi
  obtain ⟨c, hc⟩ := R.clock.exists_dueStarts i
  obtain ⟨d, hd⟩ := R.clock.exists_due c
  obtain ⟨hstart, hexit⟩ := sample_in_time unset K hi hc hd h
  exact ⟨c, d, d, hstart, hexit, hd, Nat.le_refl d⟩

/-- A sample that starts in the last millisecond of a second keeps the program for ever. -/
theorem sample_hangs (hi : i < 5) (hc : R.clock.DueStarts i c)
    (hclock : R.clock.NeverCarries i) (hlate : 999000000 ≤ (R.clock.reading c).tvNsec) :
    (∀ j, ¬ SampleExits R (sampling unset 0 (~~~0) K) i j) ∧
      ¬ Returns R.answer (sampling unset 0 (~~~0) K) ⟨0, 0⟩ := by
  have hnone : ∀ x, ¬ Passes (R.clock.reading c) (R.clock.reading x) := fun x =>
    not_passes_late (R.clock.valid x) hlate
  constructor
  · intro j hj
    have hle : max (j + 1) (c + 1) ≤ j :=
      sample_exit_after unset K hi hc hclock (by omega) (fun x _ _ => hnone x) hj
    omega
  · rintro ⟨a, m, hret⟩
    have hreach := calibration_reaches unset K (Nat.le_of_lt hi) hc hclock
    obtain ⟨tsEnd, hspin⟩ := sampling_while unset K (rdtscMin R.tsc i) (2 * i)
      (j := max m.clock (c + 1)) hi (by omega)
      (fun x _ _ => hnone x)
    rcases (hreach.append hspin).linear hret with hafter | hbefore
    · have hle : max m.clock (c + 1) + 1 ≤ m.clock := by
        refine spinning_clock hafter ?_ ?_
        · intro h
          cases h
        · intro k' h
          cases h
      omega
    · cases hbefore.of_ret

end

/-! ## `wfe_mutex_init` -/

/-- What is left of `wfe_mutex_init` after the calibration. -/
def finishInit (cpuid : BitVec 32 → CpuidRegs) (rdtscMin : BitVec 64) : Prog initOps Platform := do
  let rate ← scaleOf (rdtscMin * 1000)
  return { arch := .x86 cpuid, initialised := true, cycleHz := rate.cycleHz,
           scale := rate.toCycleScale }

section
variable (crystalHz : CpuidRegs → BitVec 64) (cpuid : BitVec 32 → CpuidRegs)
  (unset : Nat → Timespec × Timespec)

theorem wfeMutexInit_eq (hfreq : cpuidFrequency crystalHz cpuid = none) :
    wfeMutexInit crystalHz cpuid unset = sampling unset 0 (~~~0) (finishInit cpuid) := by
  unfold wfeMutexInit detectCycleCounterFrequency
  rw [hfreq]
  rfl

/-- The run that comes to the end of the calibration returns unless it divides by zero. -/
theorem finishInit_returns_iff {R : Readings} {p : Prog initOps Platform} {m m' : Taken}
    {rdtscMin : BitVec 64} (h : Steps R.answer p m (finishInit cpuid rdtscMin) m') :
    Returns R.answer p m ↔ rdtscMin * 1000 ≠ 0 := by
  unfold finishInit scaleOf at h
  constructor
  · rintro ⟨a, m'', hret⟩ hzero
    rw [if_pos hzero] at h
    rcases h.linear hret with htrap | hback
    · have hstuck := Steps.stuck (S := initOps) (o := .trap) htrap rfl
      cases hstuck
    · cases hback.of_ret
  · intro hne
    rw [if_neg hne] at h
    exact ⟨_, _, h⟩

/-- **`wfe_mutex_init` with a measured frequency** keeps all five loops to their millisecond and
    returns, exactly where the clock carries none of the samples into another second and the
    measured frequency, modulo 2^64, is not zero. -/
theorem calibration_in_time_iff (hfreq : cpuidFrequency crystalHz cpuid = none) (R : Readings) :
    LoopsExitInTime R (wfeMutexInit crystalHz cpuid unset) ∧
        Returns R.answer (wfeMutexInit crystalHz cpuid unset) ⟨0, 0⟩ ↔
      R.clock.NeverCarries 5 ∧ rdtscMin R.tsc 5 * 1000 ≠ 0 := by
  rw [wfeMutexInit_eq crystalHz cpuid unset hfreq]
  have hfinish : R.clock.NeverCarries 5 →
      (Returns R.answer (sampling unset 0 (~~~0) (finishInit cpuid)) ⟨0, 0⟩ ↔
        rdtscMin R.tsc 5 * 1000 ≠ 0) := by
    intro hclock
    obtain ⟨c, hend⟩ := calibration_ends unset (finishInit cpuid) hclock
    exact finishInit_returns_iff cpuid hend
  constructor
  · rintro ⟨htime, hret⟩
    have hclock : R.clock.NeverCarries 5 := neverCarries_of_inTime unset _ htime
    exact ⟨hclock, (hfinish hclock).mp hret⟩
  · rintro ⟨hclock, hne⟩
    exact ⟨inTime_of_neverCarries unset _ hclock, (hfinish hclock).mpr hne⟩

end

/-! ### A clock that ticks once a millisecond -/

/-- `n` nanoseconds. -/
def Timespec.ofNanoseconds (n : Nat) : Timespec := ⟨n / 1000000000, n % 1000000000⟩

theorem Timespec.total_ofNanoseconds (n : Nat) : (Timespec.ofNanoseconds n).total = n := by
  show ((n / 1000000000 : Int)) * 1000000000 + (n % 1000000000 : Int) = n
  omega

theorem Timespec.valid_ofNanoseconds (n : Nat) : (Timespec.ofNanoseconds n).Valid := by
  constructor
  · show (0 : Int) ≤ (n : Int) / 1000000000
    omega
  · show (0 : Int) ≤ (n : Int) % 1000000000
    omega
  · show (n : Int) % 1000000000 < 1000000000
    omega

/-- The clock that shows `start` first and a millisecond more at every reading. -/
def MonotonicClock.ticking (start : Nat) : MonotonicClock where
  reading n := .ofNanoseconds (start + n * 1000000)
  valid n := Timespec.valid_ofNanoseconds _
  mono n := by
    rw [Timespec.total_ofNanoseconds, Timespec.total_ofNanoseconds]
    omega
  unbounded b := by
    refine ⟨b.toNat, ?_⟩
    rw [Timespec.total_ofNanoseconds]
    omega

/-- A processor that has no CPUID leaf 0x15. -/
def oldCpuid : BitVec 32 → CpuidRegs := fun _ => ⟨0, 0, 0, 0⟩

/-- Started in the last millisecond of a second, the first loop never exits. -/
theorem calibration_hangs :
    cpuidFrequency (fun _ => 0) oldCpuid = none ∧
      ¬ LoopsExitInTime ⟨.ticking 999000000, fun n => BitVec.ofNat 64 n⟩
        (wfeMutexInit (fun _ => 0) oldCpuid fun _ => (⟨0, 0⟩, ⟨0, 0⟩)) ∧
      ¬ Returns (Readings.answer ⟨.ticking 999000000, fun n => BitVec.ofNat 64 n⟩)
        (wfeMutexInit (fun _ => 0) oldCpuid fun _ => (⟨0, 0⟩, ⟨0, 0⟩)) ⟨0, 0⟩ := by
  have hfreq : cpuidFrequency (fun _ => 0) oldCpuid = none := rfl
  rw [wfeMutexInit_eq _ _ _ hfreq]
  obtain ⟨hexit, hret⟩ := sample_hangs
    (R := ⟨.ticking 999000000, fun n => BitVec.ofNat 64 n⟩) (fun _ => (⟨0, 0⟩, ⟨0, 0⟩))
    (finishInit oldCpuid) (i := 0) (by decide) .zero (fun i hi => by omega) (by decide)
  refine ⟨hfreq, ?_, hret⟩
  intro htime
  obtain ⟨c, j, d, _, hj, _⟩ := htime 0 (by decide)
  exact hexit j hj

/-- From the beginning of a second, five samples of one reading each are in time. -/
theorem ticking_neverCarries : (MonotonicClock.ticking 0).NeverCarries 5 := by
  have htotal : ∀ n, ((MonotonicClock.ticking 0).reading n).total = n * 1000000 := by
    intro n
    show (Timespec.ofNanoseconds (0 + n * 1000000)).total = _
    rw [Timespec.total_ofNanoseconds]
    omega
  have hdue : ∀ c d, (MonotonicClock.ticking 0).Due c d → d = c + 1 := by
    intro c d hd
    obtain ⟨hcd, -, hfirst⟩ := hd
    by_contra hne
    have := hfirst (c + 1) (Nat.lt_succ_self c) (by omega)
    rw [htotal, htotal] at this
    omega
  have hstart : ∀ i c, (MonotonicClock.ticking 0).DueStarts i c → c = 2 * i := by
    intro i c hc
    induction hc with
    | zero => rfl
    | next _ hd ih =>
      have := hdue _ _ hd
      omega
  intro i hi c d hc hd
  obtain rfl := hdue c d hd
  obtain rfl := hstart i c hc
  rw [← passes_iff_noCarry (MonotonicClock.valid _ _) (MonotonicClock.valid _ _)]
  show ((0 + 2 * i * 1000000 : Nat) : Int) % 1000000000 + 1000000 ≤
    ((0 + (2 * i + 1) * 1000000 : Nat) : Int) % 1000000000
  omega

theorem calibration_in_time_iff_ticking :
    LoopsExitInTime ⟨.ticking 0, fun n => BitVec.ofNat 64 n⟩
        (wfeMutexInit (fun _ => 0) oldCpuid fun _ => (⟨0, 0⟩, ⟨0, 0⟩)) ∧
      Returns (Readings.answer ⟨.ticking 0, fun n => BitVec.ofNat 64 n⟩)
        (wfeMutexInit (fun _ => 0) oldCpuid fun _ => (⟨0, 0⟩, ⟨0, 0⟩)) ⟨0, 0⟩ :=
  (calibration_in_time_iff (fun _ => 0) oldCpuid _ rfl ⟨.ticking 0, fun n => BitVec.ofNat 64 n⟩).mpr
    ⟨ticking_neverCarries, by decide⟩

end WfeMutex
