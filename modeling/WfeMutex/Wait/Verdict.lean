/-
  WHAT DECIDES A TIMED WAIT, for every backend.

  A timed wait loads the word and tests readings of the counter against its deadline.  `Streams`
  says what its loads and readings observe, and `Heard` is the stream of these events as they come.
  A load of the value decides for `true`, a reading that has reached the deadline for `false`, and
  the rule is that the first decisive event ends the wait (`DecidesFirst`): nothing decisive comes
  before it, nothing at all after it, and the wait does return if something decisive is coming.

  The spin loop and both x86 backends keep the rule.  The ARM backends load after waking and read
  the counter before they look at what they have loaded.  They break the rule exactly where the
  first decisive event is such a load (`Streams.Slips`): the reading after it comes too late, and if
  it has reached the deadline, the wait returns `false` for a value it has seen
  (`timed_wait_decides_first_iff`).  What a result is worth is the same for all (`Tells`): `true` is
  said after a load of the value, `false` after a reading that has reached the deadline.

  One walk through each loop shows what it returns (`Outcome`), and one that it returns, by the
  distance to the event that decides.
-/
import WfeMutex.Conc.Oracle
import WfeMutex.Wait.Discipline

set_option linter.unusedVariables false

namespace WfeMutex

open Conc

/-! ## The timed waits -/

/-- The timed waits of all backends.  `wfetI32` is the member of the `wfet` family that reads the
    counter first. -/
inductive TimedWait : Nat → Type where
  | spinloop (w : Nat) : TimedWait w
  | wfe (w : Nat) : TimedWait w
  | wfet (w : Nat) : TimedWait w
  | wfetI32 : TimedWait 32
  | mwaitx (w : Nat) : TimedWait w
  | waitpkg (w : Nat) : TimedWait w

namespace TimedWait
variable {w : Nat}

def run : TimedWait w → CycleScale → BitVec w → BitVec 64 → Bool → Prog (atomics w) Bool
  | .spinloop w => spinloopWaitForValueTimeout w
  | .wfe w => wfeWaitForValueTimeout w
  | .wfet w => wfetWaitForValueTimeout w
  | .wfetI32 => wfetWaitForValueTimeoutI32
  | .mwaitx w => mwaitxWaitForValueTimeout w
  | .waitpkg w => waitpkgWaitForValueTimeout w

def isArm : TimedWait w → Bool
  | .wfe _ | .wfet _ | .wfetI32 => true
  | _ => false

end TimedWait

/-! ## Streams of events -/

/-- What one call observes: its loads, the reading it begins with, and the readings it tests. -/
structure Streams (w : Nat) where
  load : Nat → BitVec w
  beginCycles : BitVec 64
  reading : Nat → BitVec 64

/-- A load of the word, or a reading of the counter to test the deadline. -/
inductive WaitEvent (w : Nat) where
  | load (v : BitVec w)
  | reading (c : BitVec 64)
  deriving DecidableEq, Repr

/-- How many loads and readings there have been, and the events in their order. -/
structure Heard (w : Nat) where
  loads : Nat := 0
  readings : Nat := 0
  events : List (WaitEvent w) := []
  deriving DecidableEq, Repr

section
variable {w : Nat}

def Heard.hear (m : Heard w) (v : BitVec w) : Heard w :=
  { m with loads := m.loads + 1, events := m.events ++ [.load v] }

def Heard.read (m : Heard w) (c : BitVec 64) : Heard w :=
  { m with readings := m.readings + 1, events := m.events ++ [.reading c] }

@[simp] theorem Heard.hear_loads (m : Heard w) (v : BitVec w) :
    (m.hear v).loads = m.loads + 1 := rfl

@[simp] theorem Heard.hear_readings (m : Heard w) (v : BitVec w) :
    (m.hear v).readings = m.readings := rfl

@[simp] theorem Heard.hear_events (m : Heard w) (v : BitVec w) :
    (m.hear v).events = m.events ++ [.load v] := rfl

@[simp] theorem Heard.read_loads (m : Heard w) (c : BitVec 64) :
    (m.read c).loads = m.loads := rfl

@[simp] theorem Heard.read_readings (m : Heard w) (c : BitVec 64) :
    (m.read c).readings = m.readings + 1 := rfl

/-- The machine that serves the streams; a wait does nothing else. -/
def Streams.answer (S : Streams w) : (o : Op w) → Heard w → Option (o.Ans × Heard w)
  | .loadN _, m => some (S.load m.loads, m.hear (S.load m.loads))
  | .loadExclusive, m => some (S.load m.loads, m.hear (S.load m.loads))
  | .arm _, m => some ((), m)
  | .wait _, m => some ((), m)
  | .doYield, m => some ((), m)
  | .readCycleCounter none, m => some (S.beginCycles, m)
  | .readCycleCounter (some _), m => some (S.reading m.readings, m.read (S.reading m.readings))
  | _, _ => none

/-! ## The rule -/

/-- What an event decides. -/
def WaitEvent.decides (value : BitVec w) (cyclesEnd : BitVec 64) : WaitEvent w → Option Bool
  | .load v => if v = value then some true else none
  | .reading c => if cyclesEnd ≤ c then some false else none

variable (S : Streams w) (value : BitVec w) (cyclesEnd : BitVec 64)

/-- The last event decides for `r`, and none before it decides anything. -/
def Heard.Decided (m : Heard w) (r : Bool) : Prop :=
  ∃ before e, m.events = before ++ [e] ∧ (∀ e' ∈ before, e'.decides value cyclesEnd = none) ∧
    e.decides value cyclesEnd = some r

/-- **The rule**: where the wait returns, the first decisive event has just come, and its result is
    that of the event; and it does return if something decisive is to come. -/
def DecidesFirst (p : Prog (atomics w) Bool) : Prop :=
  (∀ r m, Steps S.answer p {} (.ret r) m → m.Decided value cyclesEnd r) ∧
    ((∃ k, S.load k = value ∨ cyclesEnd ≤ S.reading k) → Returns S.answer p {})

/-- The first decisive event of an ARM wait is the load after a wake-up, in round `j`: after the
    early load, a round takes two loads and one reading. -/
def Streams.Slips : Prop :=
  ∃ j, S.load (2 * j + 2) = value ∧ (∀ i, i < 2 * j + 2 → S.load i ≠ value) ∧
    ∀ i, i < j → ¬ cyclesEnd ≤ S.reading i

variable {S value cyclesEnd}

/-! ## Undecided -/

/-- Nothing that has been heard is decisive. -/
structure Undecided (S : Streams w) (value : BitVec w) (cyclesEnd : BitVec 64) (m : Heard w) :
    Prop where
  loads : ∀ i, i < m.loads → S.load i ≠ value
  readings : ∀ i, i < m.readings → ¬ cyclesEnd ≤ S.reading i
  events : ∀ e ∈ m.events, e.decides value cyclesEnd = none

/-- A wait begins undecided. -/
theorem Undecided.start : Undecided S value cyclesEnd {} :=
  ⟨fun i hi => absurd hi (Nat.not_lt_zero i), fun i hi => absurd hi (Nat.not_lt_zero i),
    fun e he => absurd he List.not_mem_nil⟩

variable {m : Heard w}

namespace Undecided

/-- A load of another value decides nothing. -/
theorem hear (h : Undecided S value cyclesEnd m) (hv : S.load m.loads ≠ value) :
    Undecided S value cyclesEnd (m.hear (S.load m.loads)) := by
  refine ⟨?_, h.readings, ?_⟩
  · intro i hi
    rcases Nat.lt_succ_iff_lt_or_eq.mp hi with hlt | rfl
    · exact h.loads i hlt
    · exact hv
  · intro e he
    rcases List.mem_append.mp he with hold | hnew
    · exact h.events e hold
    · rw [List.mem_singleton.mp hnew]
      exact if_neg hv

/-- Nor does a reading that has not reached the deadline. -/
theorem read (h : Undecided S value cyclesEnd m) (hc : ¬ cyclesEnd ≤ S.reading m.readings) :
    Undecided S value cyclesEnd (m.read (S.reading m.readings)) := by
  refine ⟨h.loads, ?_, ?_⟩
  · intro i hi
    rcases Nat.lt_succ_iff_lt_or_eq.mp hi with hlt | rfl
    · exact h.readings i hlt
    · exact hc
  · intro e he
    rcases List.mem_append.mp he with hold | hnew
    · exact h.events e hold
    · rw [List.mem_singleton.mp hnew]
      exact if_neg hc

/-- A load of the value decides now. -/
theorem decided_hear (h : Undecided S value cyclesEnd m) (hv : S.load m.loads = value) :
    (m.hear (S.load m.loads)).Decided value cyclesEnd true :=
  ⟨m.events, .load (S.load m.loads), rfl, h.events, if_pos hv⟩

/-- A reading that has reached the deadline decides now. -/
theorem decided_read (h : Undecided S value cyclesEnd m)
    (hc : cyclesEnd ≤ S.reading m.readings) :
    (m.read (S.reading m.readings)).Decided value cyclesEnd false :=
  ⟨m.events, .reading (S.reading m.readings), rfl, h.events, if_pos hc⟩

/-- What decides is still to come. -/
theorem ahead {k : Nat} (h : Undecided S value cyclesEnd m)
    (hk : S.load k = value ∨ cyclesEnd ≤ S.reading k) : m.loads ≤ k ∨ m.readings ≤ k := by
  by_contra hnot
  rcases hk with hload | hreading
  · exact h.loads k (by omega) hload
  · exact h.readings k (by omega) hreading

end Undecided

/-! ## What a timed wait returns -/

/-- The wait returns `r`.  It says `true` only if its last load was the value, `false` only at a
    reading that has reached the deadline, and it breaks the rule exactly where it slips. -/
structure Outcome (S : Streams w) (value : BitVec w) (cyclesEnd : BitVec 64) (slips : Prop)
    (r : Bool) (m : Heard w) : Prop where
  seen : r = true → ∃ i, m.loads = i + 1 ∧ S.load i = value
  late : r = false → ∃ before k, m.events = before ++ [.reading (S.reading k)] ∧
    cyclesEnd ≤ S.reading k
  first : m.Decided value cyclesEnd r ↔ ¬ slips

variable {slips : Prop}

/-- A return with a load of the value. -/
theorem Undecided.outcome_hear (h : Undecided S value cyclesEnd m) (hv : S.load m.loads = value)
    (hslips : ¬ slips) :
    Outcome S value cyclesEnd slips true (m.hear (S.load m.loads)) where
  seen _ := ⟨m.loads, rfl, hv⟩
  late hr := by cases hr
  first := iff_of_true (h.decided_hear hv) hslips

/-- A return with a reading that has reached the deadline. -/
theorem Undecided.outcome_read (h : Undecided S value cyclesEnd m)
    (hc : cyclesEnd ≤ S.reading m.readings) (hslips : ¬ slips) :
    Outcome S value cyclesEnd slips false (m.read (S.reading m.readings)) where
  seen hr := by cases hr
  late _ := ⟨m.events, m.readings, rfl, hc⟩
  first := iff_of_true (h.decided_read hc) hslips

/-- Something that decides is to come. -/
def Coming (S : Streams w) (value : BitVec w) (cyclesEnd : BitVec 64) : Prop :=
  ∃ k, S.load k = value ∨ cyclesEnd ≤ S.reading k

/-- What a timed wait comes to. -/
abbrev Decides (S : Streams w) (value : BitVec w) (cyclesEnd : BitVec 64) (slips : Prop)
    (p : Prog (atomics w) Bool) (m : Heard w) : Prop :=
  Concludes S.answer (Coming S value cyclesEnd) p m (Outcome S value cyclesEnd slips)

/-- **The loop rule of timed waits**: a round that does not end the wait leaves it undecided, with a
    load and a reading more. -/
theorem decides_iter {σ : Type} {I : σ → Heard w → Prop}
    {body : σ → Prog (atomics w) (Next σ Bool)} {s : σ}
    (hbody : ∀ s m, I s m → Ends S.answer (body s) m
      (Spec.round (fun s' m' => I s' m' ∧ Undecided S value cyclesEnd m' ∧ m.loads < m'.loads ∧
        m.readings < m'.readings) (Outcome S value cyclesEnd slips))) (hI : I s m) :
    Decides S value cyclesEnd slips (Prog.iter body s) m := by
  by_cases hlive : Coming S value cyclesEnd
  · obtain ⟨k, hk⟩ := hlive
    refine Concludes.iter (I := I) (N := fun _ m => k - m.loads + (k - m.readings)) ?_ hI
    intro s m hI
    refine (hbody s m hI).mono ?_
    rintro (s' | r) m' hr
    · obtain ⟨hI', hund, hloads, hreadings⟩ := hr
      have hahead := hund.ahead hk
      exact ⟨hI', fun _ => by omega⟩
    · exact hr
  · refine Concludes.iter (I := I) (N := fun _ _ => 0) ?_ hI
    intro s m hI
    refine (hbody s m hI).mono ?_
    rintro (s' | r) m' hr
    · exact ⟨hr.1, fun hcoming => absurd hcoming hlive⟩
    · exact hr

/-! ## Steps -/

/-- A load is the next value of the stream. -/
theorem hear_load (mo : MemOrder) :
    Ends S.answer (atomicLoadN mo) m fun v m' =>
      v = S.load m.loads ∧ m' = m.hear (S.load m.loads) :=
  Ends.perform rfl ⟨rfl, rfl⟩

theorem hear_loadExclusive :
    Ends S.answer (loadExclusive (w := w)) m fun v m' =>
      v = S.load m.loads ∧ m' = m.hear (S.load m.loads) :=
  Ends.perform rfl ⟨rfl, rfl⟩

theorem hear_armThenLoad (insn : ArmInsn) :
    Ends S.answer (armThenLoad w insn) m fun v m' =>
      v = S.load m.loads ∧ m' = m.hear (S.load m.loads) := by
  have harm : Ends S.answer (armWith insn) m fun _ m' => m' = m := Ends.perform rfl rfl
  refine Ends.seq harm ?_
  rintro _ _ rfl
  exact hear_load _

theorem hear_waitIn (insn : WaitInsn) : Ends S.answer (waitIn insn) m fun _ m' => m' = m :=
  Ends.perform rfl rfl

theorem hear_yieldFive : Ends S.answer (yieldFive w) m fun _ m' => m' = m := by
  have hyield : Ends S.answer (doYield (w := w)) m fun _ m' => m' = m := Ends.perform rfl rfl
  unfold yieldFive
  iterate 4
    refine Ends.seq hyield ?_
    rintro _ _ rfl
  exact hyield

/-- The reading a wait begins with is not heard; it makes the deadline. -/
theorem hear_begin :
    Ends S.answer (readCycleCounter (w := w)) m fun c m' => c = S.beginCycles ∧ m' = m :=
  Ends.perform rfl ⟨rfl, rfl⟩

/-- A reading to test the deadline is the next one. -/
theorem hear_test :
    Ends S.answer (readCycleCounterAgainst (w := w) cyclesEnd) m fun c m' =>
      c = S.reading m.readings ∧ m' = m.read (S.reading m.readings) :=
  Ends.perform rfl ⟨rfl, rfl⟩

/-- The conversion does not trap where it has a result. -/
theorem hear_convert {F : CycleScale} {nanoseconds total : BitVec 64}
    (h : cyclesForNanoseconds F nanoseconds = some total) :
    Ends S.answer (detectCalculateCyclesForNanoseconds (w := w) F nanoseconds) m
      fun t m' => t = total ∧ m' = m := by
  unfold detectCalculateCyclesForNanoseconds
  rw [h]
  exact Ends.pure ⟨rfl, rfl⟩

/-! ## The spin loop -/

/-- The test at the end of a round that began at `m`. -/
theorem ends_spinTest {m' : Heard w} (h : Undecided S value cyclesEnd m')
    (hloads : m.loads < m'.loads) (hreadings : m.readings ≤ m'.readings) :
    Ends S.answer
      (do
        if (← readCycleCounterAgainst cyclesEnd) ≥ cyclesEnd then return .leave false
        return .again ()) m'
      (Spec.round (fun (_ : Unit) m' => Undecided S value cyclesEnd m' ∧
        Undecided S value cyclesEnd m' ∧ m.loads < m'.loads ∧ m.readings < m'.readings)
        (Outcome S value cyclesEnd False)) := by
  refine Ends.seq hear_test ?_
  rintro _ _ ⟨rfl, rfl⟩
  split
  · rename_i hc
    exact Ends.pure (h.outcome_read hc id)
  · rename_i hc
    have hund := h.read hc
    exact Ends.pure ⟨hund, hund, hloads, Nat.lt_succ_of_le hreadings⟩

/-- The spin loop tests the value before the counter. -/
theorem decides_spinloopUntil (lowPower : Bool) (h : Undecided S value cyclesEnd m) :
    Decides S value cyclesEnd False (spinloopUntil w value cyclesEnd lowPower) m := by
  unfold spinloopUntil
  split
  all_goals
    refine decides_iter (I := fun _ m => Undecided S value cyclesEnd m) ?_ h
    intro _ m hm
    refine Ends.seq (hear_load _) ?_
    rintro _ _ ⟨rfl, rfl⟩
    split
  · rename_i hne
    refine Ends.seq hear_yieldFive ?_
    rintro _ _ rfl
    exact ends_spinTest (hm.hear (by simpa using hne)) (Nat.lt_succ_self _) (Nat.le_refl _)
  · rename_i heq
    exact Ends.pure (hm.outcome_hear (by simpa using heq) id)
  · rename_i hne
    exact ends_spinTest (hm.hear (by simpa using hne)) (Nat.lt_succ_self _) (Nat.le_refl _)
  · rename_i heq
    exact Ends.pure (hm.outcome_hear (by simpa using heq) id)

/-! ## The x86 backends -/

/-- So does the round of both x86 backends, twice. -/
theorem x86Round_decides (armInsn : ArmInsn) (insn : BitVec 64 → BitVec 64 → WaitInsn)
    (beginCycles : BitVec 64) (h : Undecided S value cyclesEnd m) :
    Decides S value cyclesEnd False
      (.iter (fun lastCycleCounter => do
        if (← armThenLoad w armInsn) == value then return .leave true
        waitIn (insn cyclesEnd lastCycleCounter)
        let lastCycleCounter ← readCycleCounterAgainst cyclesEnd
        if lastCycleCounter ≥ cyclesEnd then return .leave false
        if (← atomicLoadN .acquire) != value then return .again lastCycleCounter
        return .leave true) beginCycles) m := by
  refine decides_iter (I := fun _ m => Undecided S value cyclesEnd m) ?_ h
  intro lastCycleCounter m hm
  refine Ends.seq (hear_armThenLoad armInsn) ?_
  rintro _ _ ⟨rfl, rfl⟩
  split
  · rename_i heq
    exact Ends.pure (hm.outcome_hear (by simpa using heq) id)
  rename_i hne
  have hund := hm.hear (by simpa using hne)
  refine Ends.seq (hear_waitIn _) ?_
  rintro _ _ rfl
  refine Ends.seq hear_test ?_
  rintro _ _ ⟨rfl, rfl⟩
  split
  · rename_i hc
    exact Ends.pure (hund.outcome_read hc id)
  rename_i hc
  have hund := hund.read hc
  refine Ends.seq (hear_load _) ?_
  rintro _ _ ⟨rfl, rfl⟩
  split
  · rename_i hne
    have hund := hund.hear (by simpa using hne)
    refine Ends.pure ⟨hund, hund, ?_, ?_⟩
    · simp only [Heard.hear_loads, Heard.read_loads]
      omega
    · simp
  · rename_i heq
    exact Ends.pure (hund.outcome_hear (by simpa using heq) id)

/-! ## The ARM backends -/

/-- The head of a round: one load before the loop, two loads and a reading a round. -/
structure ArmHead (S : Streams w) (value : BitVec w) (cyclesEnd : BitVec 64) (m : Heard w) :
    Prop where
  undecided : Undecided S value cyclesEnd m
  loads : m.loads = 2 * m.readings + 1

/-- Undecided up to a load that does not follow a wake-up: there is no slip before it or at it. -/
theorem Undecided.not_slips_load (h : Undecided S value cyclesEnd m)
    (hv : S.load m.loads = value) (hodd : ∀ j, m.loads ≠ 2 * j + 2) :
    ¬ S.Slips value cyclesEnd := by
  rintro ⟨j, hload, hloads, -⟩
  rcases Nat.lt_trichotomy m.loads (2 * j + 2) with hlt | heq | hgt
  · exact hloads m.loads hlt hv
  · exact hodd j heq
  · exact h.loads (2 * j + 2) hgt hload

/-- Undecided up to the reading of a round: there is no slip in it, or before it. -/
theorem Undecided.not_slips_read (h : Undecided S value cyclesEnd m)
    (hc : cyclesEnd ≤ S.reading m.readings) (hloads : m.loads = 2 * m.readings + 3) :
    ¬ S.Slips value cyclesEnd := by
  rintro ⟨j, hload, -, hreadings⟩
  have hj : m.readings < j := by
    by_contra hle
    exact h.loads (2 * j + 2) (by omega) hload
  exact hreadings m.readings hj hc

/-- **The slip**: the load after a wake-up has seen the value, and the counter is read all the
    same. -/
theorem Undecided.outcome_slip (h : Undecided S value cyclesEnd m)
    (hv : S.load m.loads = value) (hloads : m.loads = 2 * m.readings + 2) {r : Bool}
    (hr : r = false → cyclesEnd ≤ S.reading m.readings) :
    Outcome S value cyclesEnd (S.Slips value cyclesEnd) r
      ((m.hear (S.load m.loads)).read (S.reading m.readings)) where
  seen _ := ⟨m.loads, rfl, hv⟩
  late hfalse := ⟨_, _, rfl, hr hfalse⟩
  first := by
    have hslips : S.Slips value cyclesEnd := by
      refine ⟨m.readings, ?_, ?_, h.readings⟩
      · rw [← hloads]
        exact hv
      · rw [← hloads]
        exact h.loads
    refine iff_of_false ?_ (not_not_intro hslips)
    rintro ⟨before, e, hevents, hbefore, -⟩
    -- the load is among the events before the last
    obtain ⟨rfl, -⟩ := List.append_inj' hevents rfl
    have hnone := hbefore (.load (S.load m.loads)) (by simp)
    rw [WaitEvent.decides, if_pos hv] at hnone
    cases hnone

/-- The ARM round reads the counter between a load and the look at it: it may slip. -/
theorem wfeUntil_decides (insn : WaitInsn) (h : ArmHead S value cyclesEnd m) :
    Decides S value cyclesEnd (S.Slips value cyclesEnd) (wfeUntil w insn value cyclesEnd) m := by
  unfold wfeUntil
  refine decides_iter (I := fun _ m => ArmHead S value cyclesEnd m) ?_ h
  rintro _ m ⟨hm, hloads⟩
  refine Ends.seq hear_loadExclusive ?_
  rintro _ _ ⟨rfl, rfl⟩
  split
  · rename_i heq
    have hv : S.load m.loads = value := by simpa using heq
    exact Ends.pure (hm.outcome_hear hv (hm.not_slips_load hv fun j => by omega))
  rename_i hne
  have hund := hm.hear (by simpa using hne)
  refine Ends.seq (hear_waitIn _) ?_
  rintro _ _ rfl
  refine Ends.seq (hear_load _) ?_
  rintro _ _ ⟨rfl, rfl⟩
  refine Ends.seq hear_test ?_
  rintro _ _ ⟨rfl, rfl⟩
  by_cases hv : S.load (m.loads + 1) = value
  · -- decided by the load, whatever the counter reads
    have hwake : (m.hear (S.load m.loads)).loads =
        2 * (m.hear (S.load m.loads)).readings + 2 := by
      simp only [Heard.hear_loads, Heard.hear_readings]
      omega
    have hslip := fun r => hund.outcome_slip (r := r) hv hwake
    split
    · rename_i hc
      exact Ends.pure (hslip false fun _ => hc)
    · split
      · rename_i hne
        exact absurd hv (by simpa using hne)
      · exact Ends.pure (hslip true fun hr => by cases hr)
  · have hund := hund.hear hv
    split
    · rename_i hc
      refine Ends.pure (hund.outcome_read hc (hund.not_slips_read hc ?_))
      simp only [Heard.hear_loads, Heard.hear_readings]
      omega
    · rename_i hc
      have hund := hund.read hc
      split
      · refine Ends.pure ⟨⟨hund, ?_⟩, hund, ?_, ?_⟩
        · simp only [Heard.read_loads, Heard.hear_loads, Heard.read_readings, Heard.hear_readings]
          omega
        · simp only [Heard.read_loads, Heard.hear_loads]
          omega
        · simp only [Heard.read_readings, Heard.hear_readings]
          omega
      · rename_i heq
        exact absurd (by simpa using heq) hv

/-! ## The timed waits -/

/-- What comes before the loop of a monitor wait: an early look, the conversion, and the reading the
    wait begins with. -/
theorem decides_early {F : CycleScale} {nanoseconds total : BitVec 64}
    {k : BitVec 64 → BitVec 64 → Prog (atomics w) Bool}
    (htotal : cyclesForNanoseconds F nanoseconds = some total)
    (hslips : S.load 0 = value → ¬ slips)
    (hloop : Undecided S value cyclesEnd (Heard.hear {} (S.load 0)) →
      Decides S value cyclesEnd slips (k total S.beginCycles) (Heard.hear {} (S.load 0))) :
    Decides S value cyclesEnd slips
      (do
        let result ← atomicLoadN .acquire
        if result == value then return true
        let totalCycles ← detectCalculateCyclesForNanoseconds F nanoseconds
        let beginCycles ← readCycleCounter
        k totalCycles beginCycles) {} := by
  refine Concludes.seq (hear_load _) ?_
  rintro _ _ ⟨rfl, rfl⟩
  split
  · rename_i heq
    have hv : S.load 0 = value := by simpa using heq
    exact Concludes.pure (Undecided.start.outcome_hear hv (hslips hv))
  rename_i hne
  have hund : Undecided S value cyclesEnd (Heard.hear {} (S.load 0)) :=
    Undecided.start.hear (by simpa using hne)
  refine Concludes.seq (hear_convert htotal) ?_
  rintro _ _ ⟨rfl, rfl⟩
  refine Concludes.seq hear_begin ?_
  rintro _ _ ⟨rfl, rfl⟩
  exact hloop hund

/-- The early look is no slip. -/
theorem not_slips_early (hv : S.load 0 = value) : ¬ S.Slips value cyclesEnd :=
  Undecided.start.not_slips_load hv fun j => by simp

/-- After the early look an ARM wait is at the head of its loop. -/
theorem Undecided.armHead (h : Undecided S value cyclesEnd (Heard.hear {} (S.load 0))) :
    ArmHead S value cyclesEnd (Heard.hear {} (S.load 0)) := ⟨h, rfl⟩

variable {F : CycleScale} {nanoseconds total : BitVec 64}

/-- `wfet_wait_for_value_timeout_i32` reads the counter before it converts the timeout. -/
theorem decides_wfetI32 {S : Streams 32} {value : BitVec 32} (lowPower : Bool)
    (htotal : cyclesForNanoseconds F nanoseconds = some total) :
    Decides S value (S.beginCycles + total) (S.Slips value (S.beginCycles + total))
      (wfetWaitForValueTimeoutI32 F value nanoseconds lowPower) {} := by
  unfold wfetWaitForValueTimeoutI32
  refine Concludes.seq (hear_load _) ?_
  rintro _ _ ⟨rfl, rfl⟩
  split
  · rename_i heq
    have hv : S.load 0 = value := by simpa using heq
    exact Concludes.pure (Undecided.start.outcome_hear hv (not_slips_early hv))
  rename_i hne
  have hund : Undecided S value (S.beginCycles + total) (Heard.hear {} (S.load 0)) :=
    Undecided.start.hear (by simpa using hne)
  refine Concludes.seq hear_begin ?_
  rintro _ _ ⟨rfl, rfl⟩
  refine Concludes.seq (hear_convert htotal) ?_
  rintro _ _ ⟨rfl, rfl⟩
  exact wfeUntil_decides _ hund.armHead

/-- **What every timed wait returns**, and that it does. -/
theorem TimedWait.decides (b : TimedWait w) (value : BitVec w) (lowPower : Bool) (S : Streams w)
    (htotal : cyclesForNanoseconds F nanoseconds = some total) :
    Decides S value (S.beginCycles + total)
      (b.isArm = true ∧ S.Slips value (S.beginCycles + total))
      (b.run F value nanoseconds lowPower) {} := by
  cases b with
  | spinloop w =>
    rw [show (TimedWait.isArm (.spinloop w) = true ∧ _) = False by simp [TimedWait.isArm]]
    refine Concludes.seq (hear_convert htotal) ?_
    rintro _ _ ⟨rfl, rfl⟩
    refine Concludes.seq hear_begin ?_
    rintro _ _ ⟨rfl, rfl⟩
    exact decides_spinloopUntil lowPower Undecided.start
  | wfe w =>
    rw [show (TimedWait.isArm (.wfe w) = true ∧ S.Slips value (S.beginCycles + total)) =
      S.Slips value (S.beginCycles + total) by simp [TimedWait.isArm]]
    exact decides_early htotal not_slips_early fun hund => wfeUntil_decides _ hund.armHead
  | wfet w =>
    rw [show (TimedWait.isArm (.wfet w) = true ∧ S.Slips value (S.beginCycles + total)) =
      S.Slips value (S.beginCycles + total) by simp [TimedWait.isArm]]
    exact decides_early htotal not_slips_early fun hund => wfeUntil_decides _ hund.armHead
  | wfetI32 =>
    rw [show (TimedWait.isArm .wfetI32 = true ∧ S.Slips value (S.beginCycles + total)) =
      S.Slips value (S.beginCycles + total) by simp [TimedWait.isArm]]
    exact decides_wfetI32 lowPower htotal
  | mwaitx w =>
    rw [show (TimedWait.isArm (.mwaitx w) = true ∧ _) = False by simp [TimedWait.isArm]]
    exact decides_early htotal (fun _ => id) fun hund => x86Round_decides _ _ _ hund
  | waitpkg w =>
    rw [show (TimedWait.isArm (.waitpkg w) = true ∧ _) = False by simp [TimedWait.isArm]]
    exact decides_early htotal (fun _ => id) fun hund => x86Round_decides _ _ _ hund

end

/-- **What a result is worth**, whatever the loads and the counter show: `true` means that the last
    load was the value, `false` that the last look was at a counter which had reached the deadline,
    `total` cycles after the reading the wait began with (modulo 2^64).  And once the one or the
    other is to come, the wait returns. -/
structure Tells {w : Nat} (p : Prog (atomics w) Bool) (value : BitVec w) (total : BitVec 64) :
    Prop where
  seen : ∀ (S : Streams w) m, Steps S.answer p {} (.ret true) m →
    ∃ i, m.loads = i + 1 ∧ S.load i = value
  late : ∀ (S : Streams w) m, Steps S.answer p {} (.ret false) m →
    ∃ before k, m.events = before ++ [.reading (S.reading k)] ∧
      S.beginCycles + total ≤ S.reading k
  returns : ∀ S : Streams w, Coming S value (S.beginCycles + total) → Returns S.answer p {}

/-- All timed waits tell. -/
theorem TimedWait.tells {w : Nat} (b : TimedWait w) {F : CycleScale} (value : BitVec w)
    {nanoseconds total : BitVec 64} (lowPower : Bool)
    (htotal : cyclesForNanoseconds F nanoseconds = some total) :
    Tells (b.run F value nanoseconds lowPower) value total where
  seen S m hsteps := ((b.decides value lowPower S htotal).sound true m hsteps).seen rfl
  late S m hsteps := ((b.decides value lowPower S htotal).sound false m hsteps).late rfl
  returns S hcoming := (b.decides value lowPower S htotal).returns hcoming

/-- **Which timed waits are decided by the first decisive event**: all of the spin loop and of x86,
    and those of ARM except where that event is the load after a wake-up. -/
theorem timed_wait_decides_first_iff {w : Nat} (b : TimedWait w) (F : CycleScale)
    (value : BitVec w) (nanoseconds total : BitVec 64) (lowPower : Bool) (S : Streams w)
    (htotal : cyclesForNanoseconds F nanoseconds = some total) :
    DecidesFirst S value (S.beginCycles + total) (b.run F value nanoseconds lowPower) ↔
      ¬ (b.isArm = true ∧ S.Slips value (S.beginCycles + total)) := by
  have hdecides := b.decides value lowPower S htotal
  constructor
  · rintro ⟨hfirst, -⟩ hslips
    obtain ⟨j, hload, -⟩ := hslips.2
    -- the value is to come, so the wait returns
    obtain ⟨r, m, hsteps⟩ := hdecides.returns ⟨_, Or.inl hload⟩
    exact (hdecides.sound r m hsteps).first.mp (hfirst r m hsteps) hslips
  · intro hslips
    refine ⟨?_, hdecides.returns⟩
    intro r m hsteps
    exact (hdecides.sound r m hsteps).first.mpr hslips

/-! ### The value arrives with the deadline -/

/-- A word that is 0 and becomes 1 for the third load; a wait of 5 cycles that begins at 0 and next
    reads the counter at 10. -/
def lateValue : Streams 32 where
  load n := if n = 2 then 1 else 0
  beginCycles := 0
  reading _ := 10

/-- The third load is the first after a wake-up. -/
theorem lateValue_slips : lateValue.Slips 1 (lateValue.beginCycles + 5) := by
  refine ⟨0, rfl, ?_, fun i hi => absurd hi (Nat.not_lt_zero i)⟩
  intro i hi
  have hne : i ≠ 2 := by omega
  show (if i = 2 then (1 : BitVec 32) else 0) ≠ 1
  rw [if_neg hne]
  decide

/-- `wfe_wait_for_value_timeout_i32` loads the 1 it waits for, and returns `false`. -/
theorem wfe_wait_slips :
    (∃ m, Steps lateValue.answer (wfeWaitForValueTimeoutI32 {} 1 5 false) {} (.ret false) m ∧
      m.events = [.load 0, .load 0, .load 1, .reading 10]) ∧
      ¬ DecidesFirst lateValue 1 (lateValue.beginCycles + 5)
        (wfeWaitForValueTimeoutI32 {} 1 5 false) := by
  have hrun : ∃ m, Steps lateValue.answer (wfeWaitForValueTimeoutI32 {} 1 5 false) {} (.ret false)
      m ∧ m.events = [.load 0, .load 0, .load 1, .reading 10] :=
    ⟨_, .op rfl (.op rfl (.jump (.op rfl (.op rfl (.op rfl (.op rfl (.refl _ _))))))), rfl⟩
  refine ⟨hrun, ?_⟩
  rintro ⟨hfirst, -⟩
  obtain ⟨m, hsteps, hevents⟩ := hrun
  obtain ⟨before, e, hsplit, hbefore, -⟩ := hfirst false m hsteps
  rw [hevents] at hsplit
  have hlast : ([.load 0, .load 0, .load 1] : List (WaitEvent 32)) ++ [.reading 10] =
      before ++ [e] := hsplit
  obtain ⟨rfl, -⟩ := List.append_inj' hlast rfl
  exact absurd (hbefore (.load 1) (by decide)) (by decide)

/-- On these streams an mwaitx wait keeps the rule, and the wfe wait does not. -/
theorem timed_wait_decides_first_iff_lateValue :
    DecidesFirst lateValue 1 5 (mwaitxWaitForValueTimeoutI32 {} 1 5 false) ∧
      ¬ DecidesFirst lateValue 1 5 (wfeWaitForValueTimeoutI32 {} 1 5 false) := by
  constructor
  · refine (timed_wait_decides_first_iff (.mwaitx 32) {} 1 5 5 false lateValue rfl).mpr ?_
    rintro ⟨harm, -⟩
    cases harm
  · intro h
    exact (timed_wait_decides_first_iff (.wfe 32) {} 1 5 5 false lateValue rfl).mp h
      ⟨rfl, lateValue_slips⟩

end WfeMutex
