/-
  WHAT A WAIT DOES: one walk through every wait function of every backend.

  A wait looks at the word, arms, sleeps, yields and reads the counter, and never writes.  The watch
  `conduct cond cycles` follows it.  Its state is the value last loaded since the last arming
  (`seen`) and the part of a deadline that is known (`stage`), and it allows a wait

  * to sleep only on a value that does not satisfy `cond`, loaded since it armed;
  * to begin one wait only, by a reading of the counter;
  * to compare later readings with that reading plus `cycles`, and with nothing else.

  Every wait keeps this discipline, and returns (the timed ones: returns `true`) with a value in
  hand that it has just seen.  What the locks rely on (`Wait.Reads`), what the monitors need
  (`Wait.Wakeup`) and what there is to say about deadlines (`Wait.Deadline`) each forget a part of
  it, by `Spec.embed`.
-/
import WfeMutex.Conc.Calls
import WfeMutex.Model.Detect

set_option linter.unusedVariables false

namespace WfeMutex

open Conc

/-- Between two waits, or inside a wait that began when the counter read `beginCycles`. -/
inductive Stage where
  | ready
  | waiting (beginCycles : BitVec 64)
  deriving DecidableEq, Repr

/-- What is known of a wait under way. -/
structure Conduct (w : Nat) where
  seen : Option (BitVec w)
  stage : Stage
  deriving DecidableEq, Repr

def Conduct.start {w : Nat} : Conduct w := ⟨none, .ready⟩

section
variable {w : Nat}

/-- One operation of a `do` block. -/
theorem spec_act {L : Type} {P : Proto (atomics w) L} {l : L} {o : Op w} {Q : o.Ans → L → Prop}
    (hpre : P.pre l o) (h : ∀ a l', P.post l o a l' → Q a l') : Spec P (act o) l Q :=
  Spec.perform hpre h

/-- The discipline of a wait for `cond` with a timeout of `cycles`, if there is one. -/
def conduct (cond : BitVec w → Prop) (cycles : Option (BitVec 64)) :
    Watch (atomics w) (Conduct w) where
  allows l
    | .wait _ => ∃ v, l.seen = some v ∧ ¬ cond v
    | .readCycleCounter none => l.stage = .ready
    | .readCycleCounter (some d) =>
      ∃ beginCycles total, l.stage = .waiting beginCycles ∧ cycles = some total ∧
        d = beginCycles + total
    | o => o.quiet = true
  next l
    | .loadN _, a => { l with seen := some a }
    | .loadExclusive, a => { l with seen := some a }
    | .arm _, _ => { l with seen := none }
    | .wait _, _ => { l with seen := none }
    | .readCycleCounter none, beginCycles => { l with stage := .waiting beginCycles }
    | _, _ => l

variable {cond : BitVec w → Prop} {cycles : Option (BitVec 64)} {l : Conduct w}

/-- A wait never writes the word or reports an error. -/
theorem conduct_quiet {o : Op w} (h : (conduct cond cycles).allows l o) : o.quiet = true := by
  cases o with
  | readCycleCounter d => rfl
  | wait i => rfl
  | _ => exact h

/-! ## Steps -/

/-- A load is what has been seen last. -/
theorem conduct_load (mo : MemOrder) :
    Spec (conduct cond cycles).proto (atomicLoadN mo) l
      fun r l' => l' = { l with seen := some r } :=
  spec_act rfl fun _ _ h => h

theorem conduct_loadExclusive :
    Spec (conduct cond cycles).proto (loadExclusive (w := w)) l
      fun r l' => l' = { l with seen := some r } :=
  spec_act rfl fun _ _ h => h

/-- Arming forgets what was seen before; the load behind it counts. -/
theorem conduct_armThenLoad (insn : ArmInsn) :
    Spec (conduct cond cycles).proto (armThenLoad w insn) l
      fun r l' => l' = { l with seen := some r } := by
  have harm : Spec (conduct cond cycles).proto (armWith insn) l
      fun _ l' => l' = { l with seen := none } := spec_act rfl fun _ _ h => h
  refine Spec.seq harm ?_
  rintro _ _ rfl
  exact conduct_load _

/-- Going to sleep on the value just seen. -/
theorem conduct_waitIn (insn : WaitInsn) {v : BitVec w} (hseen : l.seen = some v)
    (hv : ¬ cond v) :
    Spec (conduct cond cycles).proto (waitIn insn) l fun _ l' => l' = { l with seen := none } :=
  spec_act ⟨v, hseen, hv⟩ fun _ _ h => h

theorem conduct_yieldFive :
    Spec (conduct cond cycles).proto (yieldFive w) l fun _ l' => l' = l := by
  have hyield : ∀ l, Spec (conduct cond cycles).proto (doYield (w := w)) l fun _ l' => l' = l :=
    fun l => spec_act rfl fun _ _ h => h
  unfold yieldFive
  iterate 4
    refine Spec.seq (hyield _) ?_
    rintro _ _ rfl
  exact hyield _

/-- The conversion of the timeout, which traps if it divides by zero. -/
theorem conduct_convert (F : CycleScale) (nanoseconds : BitVec 64) :
    Spec (conduct cond cycles).proto (detectCalculateCyclesForNanoseconds (w := w) F nanoseconds) l
      fun total l' => cyclesForNanoseconds F nanoseconds = some total ∧ l' = l := by
  unfold detectCalculateCyclesForNanoseconds
  split
  · exact Spec.pure ⟨by assumption, rfl⟩
  · exact Spec.op rfl fun a => a.elim

/-- A wait begins by reading the counter. -/
theorem conduct_begin (h : l.stage = .ready) :
    Spec (conduct cond cycles).proto (readCycleCounter (w := w)) l
      fun beginCycles l' => l' = { l with stage := .waiting beginCycles } :=
  spec_act h fun _ _ h => h

/-- A test compares with the deadline of this wait. -/
theorem conduct_test {beginCycles total : BitVec 64} (hstage : l.stage = .waiting beginCycles)
    (htotal : cycles = some total) :
    Spec (conduct cond cycles).proto (readCycleCounterAgainst (w := w) (beginCycles + total)) l
      fun _ l' => l' = l :=
  spec_act ⟨beginCycles, total, hstage, htotal, rfl⟩ fun _ _ h => h

/-! ## The value in hand -/

/-- The three tests of the code, on the value in hand. -/
theorem some_of_beq {r value : BitVec w} (h : (r == value) = true) : some r = some value := by
  simpa using h

theorem some_of_bne {r value : BitVec w} (h : ¬ (r != value) = true) : some r = some value := by
  simpa using h

theorem ne_of_not_beq {r value : BitVec w} (h : ¬ (r == value) = true) : ¬ r = value := by
  simpa using h

/-! ## The spin loop -/

/-- A value wait of the spin loop has seen its value. -/
theorem conduct_spinloopWaitForValue (value : BitVec w) (lowPower : Bool) :
    Spec (conduct cond cycles).proto (spinloopWaitForValue w value lowPower) l
      fun _ l' => l'.seen = some value := by
  unfold spinloopWaitForValue
  split
  all_goals
    refine Spec.iter (I := fun _ _ => True) (fun _ _ _ => ?_) trivial
    refine Spec.seq (conduct_load _) ?_
    rintro r _ rfl
    split
  · exact Spec.seq conduct_yieldFive fun _ _ _ => Spec.pure trivial
  · rename_i hr
    exact Spec.pure (some_of_bne hr)
  · exact Spec.pure trivial
  · rename_i hr
    exact Spec.pure (some_of_bne hr)

/-- A bit wait of the spin loop returns the word it has seen last. -/
theorem conduct_spinloopWaitForBit (clear : Nat) (bit : BitVec 8) (lowPower : Bool) :
    Spec (conduct cond cycles).proto (spinloopWaitForBit w clear bit lowPower) l
      fun r l' => l'.seen = some r ∧ bitAt r bit ≠ clear := by
  unfold spinloopWaitForBit
  split
  · -- the value in hand was loaded before the round started
    refine Spec.seq (conduct_load _) ?_
    rintro r _ rfl
    refine Spec.iter (I := fun r l => l.seen = some r) ?_ rfl
    intro r l hr
    split
    · refine Spec.seq conduct_yieldFive ?_
      rintro _ _ rfl
      refine Spec.seq (conduct_load _) ?_
      rintro r' _ rfl
      exact Spec.pure rfl
    · rename_i hbit
      exact Spec.pure ⟨hr, by simpa using hbit⟩
  · refine Spec.iter (I := fun _ _ => True) (fun _ _ _ => ?_) trivial
    refine Spec.seq (conduct_load _) ?_
    rintro r _ rfl
    split
    · exact Spec.pure trivial
    · rename_i hbit
      exact Spec.pure ⟨rfl, by simpa using hbit⟩

/-- The loop of the timed wait, once the wait has begun. -/
theorem conduct_spinloopUntil (value : BitVec w) (lowPower : Bool) {beginCycles total : BitVec 64}
    (hstage : l.stage = .waiting beginCycles) (htotal : cycles = some total) :
    Spec (conduct cond cycles).proto (spinloopUntil w value (beginCycles + total) lowPower) l
      fun r l' => r = true → l'.seen = some value := by
  unfold spinloopUntil
  split
  all_goals
    refine Spec.iter (I := fun _ l => l.stage = .waiting beginCycles) ?_ hstage
    intro _ l hl
    refine Spec.seq (conduct_load _) ?_
    rintro r _ rfl
    split
  · refine Spec.seq conduct_yieldFive ?_
    rintro _ _ rfl
    refine Spec.seq (conduct_test (by exact hl) htotal) ?_
    rintro c _ rfl
    split
    · exact Spec.pure (fun h => absurd h (by decide))
    · exact Spec.pure hl
  · rename_i hr
    exact Spec.pure fun _ => some_of_bne hr
  · refine Spec.seq (conduct_test (by exact hl) htotal) ?_
    rintro c _ rfl
    split
    · exact Spec.pure (fun h => absurd h (by decide))
    · exact Spec.pure hl
  · rename_i hr
    exact Spec.pure fun _ => some_of_bne hr

/-- The timed wait of the spin loop has seen the value where it says so. -/
theorem conduct_spinloopWaitForValueTimeout (F : CycleScale) (value : BitVec w)
    (nanoseconds : BitVec 64) (lowPower : Bool) :
    Spec (conduct cond (cyclesForNanoseconds F nanoseconds)).proto
      (spinloopWaitForValueTimeout w F value nanoseconds lowPower) .start
      fun r l => r = true → l.seen = some value := by
  unfold spinloopWaitForValueTimeout
  refine Spec.seq (conduct_convert F nanoseconds) ?_
  rintro total _ ⟨htotal, rfl⟩
  refine Spec.seq (conduct_begin rfl) ?_
  rintro beginCycles _ rfl
  exact conduct_spinloopUntil value lowPower rfl htotal

/-! ## The outline of a monitor wait -/

/-- An arming step after which the value in hand is one loaded since. -/
def ArmsAndLoads (armAndLoad : Prog (atomics w) (BitVec w)) : Prop :=
  ∀ (cond : BitVec w → Prop) (cycles : Option (BitVec 64)) (l : Conduct w),
    Spec (conduct cond cycles).proto armAndLoad l fun r l' => l' = { l with seen := some r }

/-- Both ways of arming arm, and load afterwards or at once. -/
theorem armsAndLoads_loadExclusive : ArmsAndLoads (loadExclusive (w := w)) :=
  fun _ _ _ => conduct_loadExclusive

theorem armsAndLoads_armThenLoad (insn : ArmInsn) : ArmsAndLoads (armThenLoad w insn) :=
  fun _ _ _ => conduct_armThenLoad insn

variable {armAndLoad : Prog (atomics w) (BitVec w)}

/-- The re-check between arming and sleeping is what keeps the discipline; and the loop condition
    being the negation of the early test, the wait ends at a value that passed. -/
theorem conduct_monitorWait (harm : ArmsAndLoads armAndLoad) (insn : WaitInsn)
    {arrived again : BitVec w → Bool} (hcond : ∀ r, cond r → arrived r = true)
    (hpol : ∀ r, ¬ again r = true → arrived r = true) :
    Spec (conduct cond cycles).proto (monitorWait w armAndLoad insn arrived again) l
      fun r l' => l'.seen = some r ∧ arrived r = true := by
  unfold monitorWait
  refine Spec.seq (conduct_load _) ?_
  rintro r _ rfl
  split
  · rename_i hr
    exact Spec.pure ⟨rfl, hr⟩
  refine Spec.iter (I := fun _ _ => True) (fun _ _ _ => ?_) trivial
  refine Spec.seq (harm _ _ _) ?_
  rintro r _ rfl
  split
  · rename_i hr
    exact Spec.pure ⟨rfl, hr⟩
  · rename_i hr
    have hnot : ¬ cond r := fun h => hr (hcond r h)
    refine Spec.seq (conduct_waitIn insn rfl hnot) ?_
    rintro _ _ rfl
    refine Spec.seq (conduct_load _) ?_
    rintro r _ rfl
    split
    · exact Spec.pure trivial
    · rename_i hr
      exact Spec.pure ⟨rfl, hpol r hr⟩

/-- A value wait built on the outline. -/
theorem conduct_monitorWaitForValue (harm : ArmsAndLoads armAndLoad) (insn : WaitInsn)
    (value : BitVec w) :
    Spec (conduct (· = value) cycles).proto
      (do let _ ← monitorWait w armAndLoad insn (· == value) (· != value); return ()) l
      fun _ l' => l'.seen = some value := by
  have hcond : ∀ r, r = value → (r == value) = true := fun r hr => by simpa using hr
  have hpol : ∀ r, ¬ (r != value) = true → (r == value) = true := fun r hr => by simpa using hr
  refine Spec.seq (conduct_monitorWait harm insn hcond hpol) ?_
  rintro r l' ⟨hseen, hr⟩
  exact Spec.pure (hseen.trans (some_of_beq hr))

/-- A bit wait built on the outline: a bit that is not `y` is `x`. -/
theorem conduct_monitorWaitForBit (harm : ArmsAndLoads armAndLoad) (insn : WaitInsn) {x y : Nat}
    (hxy : x = 1 ∧ y = 0 ∨ x = 0 ∧ y = 1) (bit : BitVec 8) :
    Spec (conduct (fun r => bitAt r bit = x) cycles).proto
      (monitorWait w armAndLoad insn (bitAt · bit == x) (bitAt · bit == y)) l
      fun r l' => l'.seen = some r ∧ bitAt r bit = x := by
  have hcond : ∀ r : BitVec w, bitAt r bit = x → (bitAt r bit == x) = true :=
    fun r hr => by simpa using hr
  have hpol : ∀ r : BitVec w, ¬ (bitAt r bit == y) = true → (bitAt r bit == x) = true := by
    intro r hr
    have hbit := bitAt_eq_zero_or_one r bit
    have hne : bitAt r bit ≠ y := by simpa using hr
    have heq : bitAt r bit = x := by omega
    simpa using heq
  refine (conduct_monitorWait harm insn hcond hpol).mono ?_
  rintro r l' ⟨hseen, hr⟩
  exact ⟨hseen, by simpa using hr⟩

/-- A one-shot wait built on the same steps, without the loop. -/
theorem conduct_monitorOneshot (harm : ArmsAndLoads armAndLoad) (insn : WaitInsn)
    (value : BitVec w) :
    Spec (conduct (· = value) cycles).proto (monitorOneshot w armAndLoad insn value) l
      fun r l' => r = true → l'.seen = some value := by
  unfold monitorOneshot
  refine Spec.seq (conduct_load _) ?_
  rintro r _ rfl
  split
  · rename_i hr
    exact Spec.pure fun _ => some_of_beq hr
  refine Spec.seq (harm _ _ _) ?_
  rintro r _ rfl
  split
  · rename_i hr
    exact Spec.pure fun _ => some_of_beq hr
  · rename_i hr
    refine Spec.seq (conduct_waitIn insn rfl (ne_of_not_beq hr)) ?_
    rintro _ _ rfl
    refine Spec.seq (conduct_load _) ?_
    rintro r _ rfl
    exact Spec.pure fun hr => some_of_beq hr

/-! ## The timed monitor waits -/

/-- The loop of the timed `wfe` and `wfet` waits. -/
theorem conduct_wfeUntil (insn : WaitInsn) (value : BitVec w) {beginCycles total : BitVec 64}
    (hstage : l.stage = .waiting beginCycles) (htotal : cycles = some total) :
    Spec (conduct (· = value) cycles).proto (wfeUntil w insn value (beginCycles + total)) l
      fun r l' => r = true → l'.seen = some value := by
  unfold wfeUntil
  refine Spec.iter (I := fun _ l => l.stage = .waiting beginCycles) ?_ hstage
  intro _ l hl
  refine Spec.seq conduct_loadExclusive ?_
  rintro r _ rfl
  split
  · rename_i hr
    exact Spec.pure fun _ => some_of_beq hr
  · rename_i hr
    refine Spec.seq (conduct_waitIn insn rfl (ne_of_not_beq hr)) ?_
    rintro _ _ rfl
    refine Spec.seq (conduct_load _) ?_
    rintro r _ rfl
    refine Spec.seq (conduct_test (by exact hl) htotal) ?_
    rintro c _ rfl
    split
    · exact Spec.pure (fun h => absurd h (by decide))
    split
    · exact Spec.pure hl
    · rename_i hr
      exact Spec.pure fun _ => some_of_bne hr

variable (F : CycleScale) (value : BitVec w) (nanoseconds : BitVec 64) (lowPower : Bool)

/-- What comes before the loop: an early look, the conversion, and the reading the wait begins
    with. -/
theorem conduct_early {k : BitVec 64 → BitVec 64 → Prog (atomics w) Bool}
    (hloop : ∀ total beginCycles, cyclesForNanoseconds F nanoseconds = some total →
      ∀ l : Conduct w, l.stage = .waiting beginCycles →
        Spec (conduct (· = value) (cyclesForNanoseconds F nanoseconds)).proto
          (k total beginCycles) l fun r l => r = true → l.seen = some value) :
    Spec (conduct (· = value) (cyclesForNanoseconds F nanoseconds)).proto
      (do
        let result ← atomicLoadN .acquire
        if result == value then return true
        let totalCycles ← detectCalculateCyclesForNanoseconds F nanoseconds
        let beginCycles ← readCycleCounter
        k totalCycles beginCycles) .start
      fun r l => r = true → l.seen = some value := by
  refine Spec.seq (conduct_load _) ?_
  rintro r _ rfl
  split
  · rename_i hr
    exact Spec.pure fun _ => some_of_beq hr
  refine Spec.seq (conduct_convert F nanoseconds) ?_
  rintro total _ ⟨htotal, rfl⟩
  refine Spec.seq (conduct_begin rfl) ?_
  rintro beginCycles _ rfl
  exact hloop total beginCycles htotal _ rfl

/-- The timed `wfe` waits. -/
theorem conduct_wfeWaitForValueTimeout :
    Spec (conduct (· = value) (cyclesForNanoseconds F nanoseconds)).proto
      (wfeWaitForValueTimeout w F value nanoseconds lowPower) .start
      fun r l => r = true → l.seen = some value := by
  unfold wfeWaitForValueTimeout
  refine conduct_early F value nanoseconds ?_
  intro total beginCycles htotal l hstage
  exact conduct_wfeUntil .wfe value hstage htotal

/-- The timed `wfet` waits, but for the 32-bit one. -/
theorem conduct_wfetWaitForValueTimeout :
    Spec (conduct (· = value) (cyclesForNanoseconds F nanoseconds)).proto
      (wfetWaitForValueTimeout w F value nanoseconds lowPower) .start
      fun r l => r = true → l.seen = some value := by
  unfold wfetWaitForValueTimeout
  refine conduct_early F value nanoseconds ?_
  intro total beginCycles htotal l hstage
  exact conduct_wfeUntil _ value hstage htotal

/-- `wfet_wait_for_value_timeout_i32` reads the counter before it converts the timeout. -/
theorem conduct_wfetWaitForValueTimeoutI32 (value : BitVec 32) :
    Spec (conduct (· = value) (cyclesForNanoseconds F nanoseconds)).proto
      (wfetWaitForValueTimeoutI32 F value nanoseconds lowPower) .start
      fun r l => r = true → l.seen = some value := by
  unfold wfetWaitForValueTimeoutI32
  refine Spec.seq (conduct_load _) ?_
  rintro r _ rfl
  split
  · rename_i hr
    exact Spec.pure fun _ => some_of_beq hr
  refine Spec.seq (conduct_begin rfl) ?_
  rintro beginCycles _ rfl
  refine Spec.seq (conduct_convert F nanoseconds) ?_
  rintro total _ ⟨htotal, rfl⟩
  exact conduct_wfeUntil _ value rfl htotal

/-- The timed waits of both x86 backends: they test the counter between two looks. -/
theorem conduct_x86WaitForValueTimeout (armInsn : ArmInsn)
    (insn : BitVec 64 → BitVec 64 → WaitInsn) :
    Spec (conduct (· = value) (cyclesForNanoseconds F nanoseconds)).proto
      (x86WaitForValueTimeout w armInsn insn F value nanoseconds) .start
      fun r l => r = true → l.seen = some value := by
  unfold x86WaitForValueTimeout
  refine conduct_early F value nanoseconds ?_
  intro total beginCycles htotal l hstage
  refine Spec.iter (I := fun _ l => l.stage = .waiting beginCycles) ?_ hstage
  intro lastCycleCounter l hl
  refine Spec.seq (conduct_armThenLoad _) ?_
  rintro r _ rfl
  split
  · rename_i hr
    exact Spec.pure fun _ => some_of_beq hr
  · rename_i hr
    refine Spec.seq (conduct_waitIn _ rfl (ne_of_not_beq hr)) ?_
    rintro _ _ rfl
    refine Spec.seq (conduct_test (by exact hl) htotal) ?_
    rintro c _ rfl
    split
    · exact Spec.pure (fun h => absurd h (by decide))
    refine Spec.seq (conduct_load _) ?_
    rintro r _ rfl
    split
    · exact Spec.pure hl
    · rename_i hr
      exact Spec.pure fun _ => some_of_bne hr

end

/-! ## The monitor backends -/

/-- The backends with a monitor. -/
inductive Backend where
  | wfe | mwaitx | waitpkg
  deriving DecidableEq, Repr

namespace Backend
variable (w : Nat)

def waitForValue : Backend → BitVec w → Bool → Prog (atomics w) Unit
  | .wfe => wfeWaitForValue w
  | .mwaitx => mwaitxWaitForValueImpl w
  | .waitpkg => waitpkgWaitForValueImpl w

def waitForBitSet : Backend → BitVec 8 → Bool → Prog (atomics w) (BitVec w)
  | .wfe => wfeWaitForBitSet w
  | .mwaitx => mwaitxWaitForBitSet w
  | .waitpkg => waitpkgWaitForBitSet w

def waitForBitNotSet : Backend → BitVec 8 → Bool → Prog (atomics w) (BitVec w)
  | .wfe => wfeWaitForBitNotSet w
  | .mwaitx => mwaitxWaitForBitNotSet w
  | .waitpkg => waitpkgWaitForBitNotSet w

def waitForValueTimeout : Backend → CycleScale → BitVec w → BitVec 64 → Bool →
    Prog (atomics w) Bool
  | .wfe => wfeWaitForValueTimeout w
  | .mwaitx => mwaitxWaitForValueTimeout w
  | .waitpkg => waitpkgWaitForValueTimeout w

def waitForValueSpuriousOneshot : Backend → BitVec w → Bool → Prog (atomics w) Bool
  | .wfe => wfeWaitForValueSpuriousOneshot w
  | .mwaitx => mwaitxWaitForValueSpuriousOneshotImpl w
  | .waitpkg => waitpkgWaitForValueSpuriousOneshotImpl w

variable {w : Nat} {cycles : Option (BitVec 64)} (b : Backend)

/-- The value waits of all backends. -/
theorem conduct_waitForValue (value : BitVec w) (lowPower : Bool) :
    Spec (conduct (· = value) cycles).proto (b.waitForValue w value lowPower) .start
      fun _ l => l.seen = some value := by
  cases b with
  | wfe => exact conduct_monitorWaitForValue armsAndLoads_loadExclusive _ value
  | mwaitx => exact conduct_monitorWaitForValue (armsAndLoads_armThenLoad _) _ value
  | waitpkg => exact conduct_monitorWaitForValue (armsAndLoads_armThenLoad _) _ value

/-- The waits for a bit that is set. -/
theorem conduct_waitForBitSet (bit : BitVec 8) (lowPower : Bool) :
    Spec (conduct (fun r => bitAt r bit = 1) cycles).proto (b.waitForBitSet w bit lowPower) .start
      fun r l => l.seen = some r ∧ bitAt r bit = 1 := by
  have hxy : (1 = 1 ∧ 0 = 0) ∨ (1 = 0 ∧ 0 = 1) := Or.inl ⟨rfl, rfl⟩
  cases b with
  | wfe => exact conduct_monitorWaitForBit armsAndLoads_loadExclusive _ hxy bit
  | mwaitx => exact conduct_monitorWaitForBit (armsAndLoads_armThenLoad _) _ hxy bit
  | waitpkg => exact conduct_monitorWaitForBit (armsAndLoads_armThenLoad _) _ hxy bit

/-- The waits for a bit that is clear. -/
theorem conduct_waitForBitNotSet (bit : BitVec 8) (lowPower : Bool) :
    Spec (conduct (fun r => bitAt r bit = 0) cycles).proto (b.waitForBitNotSet w bit lowPower)
      .start fun r l => l.seen = some r ∧ bitAt r bit = 0 := by
  have hxy : (0 = 1 ∧ 1 = 0) ∨ (0 = 0 ∧ 1 = 1) := Or.inr ⟨rfl, rfl⟩
  cases b with
  | wfe => exact conduct_monitorWaitForBit armsAndLoads_loadExclusive _ hxy bit
  | mwaitx => exact conduct_monitorWaitForBit (armsAndLoads_armThenLoad _) _ hxy bit
  | waitpkg => exact conduct_monitorWaitForBit (armsAndLoads_armThenLoad _) _ hxy bit

/-- The timed waits. -/
theorem conduct_waitForValueTimeout (F : CycleScale) (value : BitVec w) (nanoseconds : BitVec 64)
    (lowPower : Bool) :
    Spec (conduct (· = value) (cyclesForNanoseconds F nanoseconds)).proto
      (b.waitForValueTimeout w F value nanoseconds lowPower) .start
      fun r l => r = true → l.seen = some value := by
  cases b with
  | wfe => exact conduct_wfeWaitForValueTimeout F value nanoseconds lowPower
  | mwaitx => exact conduct_x86WaitForValueTimeout F value nanoseconds _ _
  | waitpkg => exact conduct_x86WaitForValueTimeout F value nanoseconds _ _

/-- The one-shot waits. -/
theorem conduct_waitForValueSpuriousOneshot (value : BitVec w) (lowPower : Bool) :
    Spec (conduct (· = value) cycles).proto (b.waitForValueSpuriousOneshot w value lowPower) .start
      fun r l => r = true → l.seen = some value := by
  cases b with
  | wfe => exact conduct_monitorOneshot armsAndLoads_loadExclusive _ value
  | mwaitx => exact conduct_monitorOneshot (armsAndLoads_armThenLoad _) _ value
  | waitpkg => exact conduct_monitorOneshot (armsAndLoads_armThenLoad _) _ value

end Backend

/-! ## Every table -/

/-- The 32-bit waits of a table keep the discipline. -/
structure Features.Conducts (F : Features) : Prop where
  value : ∀ (value : BitVec 32) (lowPower : Bool),
    Spec (conduct (· = value) none).proto (F.waitForValueI32 value lowPower) .start
      fun _ l => l.seen = some value
  timeout : ∀ (G : CycleScale) (value : BitVec 32) (nanoseconds : BitVec 64) (lowPower : Bool),
    Spec (conduct (· = value) (cyclesForNanoseconds G nanoseconds)).proto
      (F.waitForValueTimeoutI32 G value nanoseconds lowPower) .start
      fun r l => r = true → l.seen = some value
  bitNotSet : ∀ (bit : BitVec 8) (lowPower : Bool),
    Spec (conduct (fun r => bitAt r bit = 0) none).proto (F.waitForBitNotSetI32 bit lowPower) .start
      fun r l => l.seen = some r ∧ bitAt r bit = 0

/-- The table before `wfe_mutex_init`, which spins. -/
theorem Features.initial_conducts : Features.initial.Conducts where
  value value lowPower := conduct_spinloopWaitForValue value lowPower
  timeout G value nanoseconds lowPower :=
    conduct_spinloopWaitForValueTimeout G value nanoseconds lowPower
  bitNotSet bit lowPower := (conduct_spinloopWaitForBit 1 bit lowPower).mono fun r _ hr =>
    ⟨hr.1, (bitAt_eq_zero_or_one r bit).resolve_right hr.2⟩

/-- A table with the 32-bit waits of a backend. -/
theorem Backend.conducts (b : Backend) {F : Features}
    (hvalue : F.waitForValueI32 = b.waitForValue 32)
    (htimeout : F.waitForValueTimeoutI32 = b.waitForValueTimeout 32)
    (hbit : F.waitForBitNotSetI32 = b.waitForBitNotSet 32) : F.Conducts where
  value := by
    rw [hvalue]
    exact b.conduct_waitForValue
  timeout := by
    rw [htimeout]
    exact b.conduct_waitForValueTimeout
  bitNotSet := by
    rw [hbit]
    exact b.conduct_waitForBitNotSet

theorem Features.installWfe_conducts (F : Features) (granule : BitVec 32) :
    (F.installWfe granule).Conducts := Backend.wfe.conducts rfl rfl rfl

theorem Features.installMwaitx_conducts (F : Features) : F.installMwaitx.Conducts :=
  Backend.mwaitx.conducts rfl rfl rfl

theorem Features.installWaitpkg_conducts (F : Features) : F.installWaitpkg.Conducts :=
  Backend.waitpkg.conducts rfl rfl rfl

/-- What AArch64 installs: `wfet` waits where the processor has them. -/
theorem detectArm64_conducts (ctr isar2 : BitVec 64) (F : Features) :
    (detectArm64 ctr isar2 F).Conducts := by
  have h := F.installWfe_conducts (getExclusiveMonitorGranuleSize ctr)
  unfold detectArm64
  split
  · exact ⟨h.value, fun G value nanoseconds lowPower =>
      conduct_wfetWaitForValueTimeoutI32 G nanoseconds lowPower value, h.bitNotSet⟩
  · exact ⟨h.value, h.timeout, h.bitNotSet⟩

/-- The granule sizes change no wait. -/
theorem Features.Conducts.withGranule {F : Features} (h : F.Conducts) (featureLimit : BitVec 32)
    (leaf5 : CpuidRegs) : (F.withGranule featureLimit leaf5).Conducts := by
  unfold Features.withGranule
  split
  · exact ⟨h.value, h.timeout, h.bitNotSet⟩
  · exact h

/-- What x86 installs, or leaves. -/
theorem detectX86_conducts (cpuid : BitVec 32 → CpuidRegs) {F : Features} (h : F.Conducts) :
    (detectX86 cpuid F).Conducts := by
  dsimp only [detectX86]
  split
  · exact F.installMwaitx_conducts.withGranule _ _
  · split
    · exact F.installWaitpkg_conducts.withGranule _ _
    · exact h

/-- Detection leaves a table that keeps the discipline. -/
theorem detect_conducts (arch : Arch) {F : Features} (h : F.Conducts) :
    (detect arch F).Conducts := by
  cases arch with
  | arm64 ctr isar2 => exact detectArm64_conducts ctr isar2 F
  | arm32 => exact F.installWfe_conducts 64
  | x86 cpuid => exact detectX86_conducts cpuid h
  | other => exact h

/-- **Every table a program can find** has waits that keep the discipline. -/
theorem Platform.conducts (P : Platform) : P.features.Conducts := by
  have h : (if P.initialised then detect P.arch .initial else .initial).Conducts := by
    split
    · exact detect_conducts P.arch Features.initial_conducts
    · exact Features.initial_conducts
  exact ⟨h.value, h.timeout, h.bitNotSet⟩

end WfeMutex
