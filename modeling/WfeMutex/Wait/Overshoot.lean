/-
  WHEN DOES A TIMED WAIT COME BACK, if nobody writes to the word?

  The deadline of a timed wait is tested when the wait is awake.  What wakes it in time is the timer
  of the instruction it sleeps in: `wfet` and `umwait` take an absolute deadline, `mwaitx` a number
  of cycles of 32 bits from the moment it is executed, and `wfe` has no timer (`WaitInsn.wakesBy`).

  Here the counter is a clock.  `elapsing δ` lets at most `δ` cycles pass from one operation to the
  next, except in a sleep, which may last as long as its timer lets it.  Then a timed wait is over,
  whatever it loads, at most eight such steps after its timeout; except that a `wfe` wait, and a
  `mwaitx` wait with a timeout of 0 cycles, may sleep for ever (`timed_wait_in_time_iff`).

  The clamp of the `mwaitx` timer to 32 bits costs nothing: what is left is slept in the rounds that
  follow.
-/
import WfeMutex.Wait.Timers

set_option linter.unusedVariables false

namespace WfeMutex

open Conc

/-! ## Timers and time -/

/-- When the timer of an instruction executed at `now` runs out, if it has one. -/
def WaitInsn.wakesBy (now : Nat) : WaitInsn → Option Nat
  | .wfe => none
  | .wfet cyclesEnd => some cyclesEnd.toNat
  | .mwaitx _ waitxExtensions (some cyclesRemaining) =>
    if waitxExtensions.getLsbD 1 = true ∧ cyclesRemaining ≠ 0 then
      some (now + cyclesRemaining.toNat)
    else none
  | .mwaitx _ _ none => none
  | .umwait _ timeoutLower timeoutUpper => some (timeoutUpper.toNat * 2 ^ 32 + timeoutLower.toNat)

section
variable {w : Nat}

/-- Time passes.  The state is what the counter has counted: at most `δ` cycles more with each
    operation, and up to the end of its timer in a sleep.  No deadline of `total` cycles wraps. -/
def elapsing (δ : Nat) (total : BitVec 64) : Proto (atomics w) Nat where
  pre _ _ := True
  post now o a now' := now ≤ now' ∧
    match o with
    | .wait insn => ∀ d, insn.wakesBy now = some d → now' ≤ max now d + δ
    | .readCycleCounter none => now' ≤ now + δ ∧ a.toNat = now' ∧ now' + total.toNat < 2 ^ 64
    | .readCycleCounter (some _) => now' ≤ now + δ ∧ a.toNat = now'
    | _ => now' ≤ now + δ

/-- At whatever point of the wait, and where it has returned, the counter has not passed `bound`. -/
def InTime (δ : Nat) (total : BitVec 64) (bound : Nat) (p : Prog (atomics w) Bool) (now : Nat) :
    Prop :=
  ∀ tr now' q, (elapsing δ total).Admits now tr now' → Prog.Trace p tr q →
    (∀ o k, q = @Prog.op (atomics w) Bool o k → now' ≤ bound) ∧ ∀ r, q = .ret r → now' ≤ bound

/-- The protocol of a wait that begins no operation later than `bound`. -/
def passing (δ : Nat) (total : BitVec 64) (bound : Nat) : Proto (atomics w) Nat :=
  { elapsing δ total with pre := fun now o => now ≤ bound ∧ o.quiet = true }

variable {δ bound now : Nat} {total : BitVec 64}

/-- What keeps the protocol is in time. -/
theorem inTime_of_passing {p : Prog (atomics w) Bool}
    (h : Spec (passing δ total bound) p now fun _ now' => now' ≤ bound) :
    InTime δ total bound p now := by
  intro tr now' q hadm htr
  have hq := h.along htr (hadm.map id fun _ _ _ _ h => h)
  constructor
  · rintro o k rfl
    exact hq.out.1.1
  · rintro r rfl
    exact hq.out

/-! ## Steps -/

/-- A load takes one step. -/
theorem pass_load (mo : MemOrder) (h : now ≤ bound) :
    Spec (passing δ total bound) (atomicLoadN (w := w) mo) now fun _ now' => now' ≤ now + δ :=
  spec_act ⟨h, rfl⟩ fun _ _ h => h.2

theorem pass_loadExclusive (h : now ≤ bound) :
    Spec (passing δ total bound) (loadExclusive (w := w)) now fun _ now' => now' ≤ now + δ :=
  spec_act ⟨h, rfl⟩ fun _ _ h => h.2

/-- Arming and loading take two. -/
theorem pass_armThenLoad (insn : ArmInsn) (h : now + δ ≤ bound) :
    Spec (passing δ total bound) (armThenLoad w insn) now fun _ now' => now' ≤ now + 2 * δ := by
  have harm : Spec (passing δ total bound) (armWith (w := w) insn) now
      fun _ now' => now' ≤ now + δ := spec_act ⟨Nat.le_of_add_right_le h, rfl⟩ fun _ _ h => h.2
  refine Spec.seq harm ?_
  intro _ now' hnow'
  refine (pass_load _ (by omega)).mono ?_
  intro _ now'' hnow''
  omega

/-- The yields of a low-power round take five. -/
theorem pass_yieldFive (h : now + 4 * δ ≤ bound) :
    Spec (passing δ total bound) (yieldFive w) now fun _ now' => now' ≤ now + 5 * δ := by
  have hyield : ∀ {now}, now ≤ bound → Spec (passing δ total bound) (doYield (w := w)) now
      fun _ now' => now' ≤ now + δ := fun h => spec_act ⟨h, rfl⟩ fun _ _ h => h.2
  refine Spec.seq (hyield (by omega)) ?_
  intro _ now₁ h₁
  refine Spec.seq (hyield (by omega)) ?_
  intro _ now₂ h₂
  refine Spec.seq (hyield (by omega)) ?_
  intro _ now₃ h₃
  refine Spec.seq (hyield (by omega)) ?_
  intro _ now₄ h₄
  refine (hyield (by omega)).mono ?_
  intro _ now₅ h₅
  omega

/-- A sleep with a timer. -/
theorem pass_waitIn {insn : WaitInsn} {d : Nat} (h : now ≤ bound)
    (hd : insn.wakesBy now = some d) :
    Spec (passing δ total bound) (waitIn (w := w) insn) now fun _ now' => now' ≤ max now d + δ :=
  spec_act ⟨h, rfl⟩ fun _ _ h => h.2 d hd

/-- The reading a wait begins with is the time then, and its deadline does not wrap. -/
theorem pass_begin (h : now ≤ bound) :
    Spec (passing δ total bound) (readCycleCounter (w := w)) now
      fun b now' => now' ≤ now + δ ∧ b.toNat = now' ∧ b.toNat + total.toNat < 2 ^ 64 := by
  refine spec_act ⟨h, rfl⟩ ?_
  rintro b now' ⟨-, hle, rfl, hfits⟩
  exact ⟨hle, rfl, hfits⟩

/-- A reading to test the deadline is the time then. -/
theorem pass_test {cyclesEnd : BitVec 64} (h : now ≤ bound) :
    Spec (passing δ total bound) (readCycleCounterAgainst (w := w) cyclesEnd) now
      fun c now' => now' ≤ now + δ ∧ c.toNat = now' :=
  spec_act ⟨h, rfl⟩ fun _ _ h => h.2

/-- The conversion takes no time. -/
theorem pass_convert {F : CycleScale} {nanoseconds : BitVec 64}
    (htotal : cyclesForNanoseconds F nanoseconds = some total) :
    Spec (passing δ total bound) (detectCalculateCyclesForNanoseconds (w := w) F nanoseconds) now
      fun t now' => t = total ∧ now' = now := by
  unfold detectCalculateCyclesForNanoseconds
  rw [htotal]
  exact Spec.pure ⟨rfl, rfl⟩

/-! ## The loops

  `cyclesEnd` is the deadline.  At the head of a loop it has not been passed, by the last reading of
  the counter. -/

variable {value : BitVec w} {cyclesEnd : BitVec 64}

theorem lt_of_not_ge {c cyclesEnd : BitVec 64} (h : ¬ c ≥ cyclesEnd) : c.toNat < cyclesEnd.toNat :=
  Nat.lt_of_not_le h

/-- The loop of the spin loop: a round that begins before the deadline takes seven steps. -/
theorem pass_spinloopUntil (lowPower : Bool) (hbound : cyclesEnd.toNat + 7 * δ ≤ bound)
    (hnow : now ≤ cyclesEnd.toNat) :
    Spec (passing δ total bound) (spinloopUntil w value cyclesEnd lowPower) now
      fun _ now' => now' ≤ bound := by
  have htest : ∀ {now}, now ≤ cyclesEnd.toNat + 6 * δ → Spec (passing δ total bound)
      (do
        if (← readCycleCounterAgainst (w := w) cyclesEnd) ≥ cyclesEnd then return .leave false
        return .again ()) now
      (Spec.round (fun (_ : Unit) now' => now' ≤ cyclesEnd.toNat) fun _ now' => now' ≤ bound) := by
    intro now hnow
    refine Spec.seq (pass_test (by omega)) ?_
    rintro c _ ⟨hle, rfl⟩
    split
    · refine Spec.pure ?_
      show c.toNat ≤ bound
      omega
    · rename_i hc
      exact Spec.pure (Nat.le_of_lt (lt_of_not_ge hc))
  unfold spinloopUntil
  split
  all_goals
    refine Spec.iter (I := fun _ now => now ≤ cyclesEnd.toNat) ?_ hnow
    intro _ now hnow
    refine Spec.seq (pass_load _ (by omega)) ?_
    intro r now₁ h₁
    split
  · refine Spec.seq (pass_yieldFive (by omega)) ?_
    intro _ now₂ h₂
    exact htest (by omega)
  · refine Spec.pure ?_
    show now₁ ≤ bound
    omega
  · exact htest (by omega)
  · refine Spec.pure ?_
    show now₁ ≤ bound
    omega

/-- The loop of both x86 backends, where every timer it sleeps with runs out in time. -/
theorem pass_x86Round (armInsn : ArmInsn) {insn : BitVec 64 → BitVec 64 → WaitInsn}
    {beginCycles : BitVec 64} (hbound : cyclesEnd.toNat + 5 * δ ≤ bound)
    (hbegin : beginCycles.toNat ≤ cyclesEnd.toNat)
    (htimer : ∀ last now, last = beginCycles ∨ last.toNat < cyclesEnd.toNat →
      now ≤ last.toNat + 3 * δ →
      ∃ d, (insn cyclesEnd last).wakesBy now = some d ∧ d ≤ cyclesEnd.toNat + 3 * δ) :
    Spec (passing δ total bound)
      (.iter (fun lastCycleCounter => do
        if (← armThenLoad w armInsn) == value then return .leave true
        waitIn (insn cyclesEnd lastCycleCounter)
        let lastCycleCounter ← readCycleCounterAgainst cyclesEnd
        if lastCycleCounter ≥ cyclesEnd then return .leave false
        if (← atomicLoadN .acquire) != value then return .again lastCycleCounter
        return .leave true) beginCycles) beginCycles.toNat fun _ now' => now' ≤ bound := by
  refine Spec.iter (I := fun last now => (last = beginCycles ∨ last.toNat < cyclesEnd.toNat) ∧
    now ≤ last.toNat + δ) ?_ ⟨Or.inl rfl, by omega⟩
  rintro last now ⟨hlast, hnow⟩
  have hle : last.toNat ≤ cyclesEnd.toNat := by
    rcases hlast with rfl | hlt
    · exact hbegin
    · exact Nat.le_of_lt hlt
  refine Spec.seq (pass_armThenLoad _ (by omega)) ?_
  intro r now₁ h₁
  split
  · refine Spec.pure ?_
    show now₁ ≤ bound
    omega
  obtain ⟨d, hd, hsleep⟩ := htimer last now₁ hlast (by omega)
  refine Spec.seq (pass_waitIn (by omega) hd) ?_
  intro _ now₂ h₂
  refine Spec.seq (pass_test (by omega)) ?_
  rintro c _ ⟨h₃, rfl⟩
  split
  · refine Spec.pure ?_
    show c.toNat ≤ bound
    omega
  rename_i hc
  have hc : c.toNat < cyclesEnd.toNat := lt_of_not_ge hc
  refine Spec.seq (pass_load _ (by omega)) ?_
  intro r now₄ h₄
  split
  · exact Spec.pure ⟨Or.inr hc, h₄⟩
  · refine Spec.pure ?_
    show now₄ ≤ bound
    omega

/-- The loop of the `wfet` waits. -/
theorem pass_wfetUntil (hbound : cyclesEnd.toNat + 4 * δ ≤ bound) (hnow : now ≤ cyclesEnd.toNat) :
    Spec (passing δ total bound) (wfeUntil w (.wfet cyclesEnd) value cyclesEnd) now
      fun _ now' => now' ≤ bound := by
  unfold wfeUntil
  refine Spec.iter (I := fun _ now => now ≤ cyclesEnd.toNat) ?_ hnow
  intro _ now hnow
  refine Spec.seq (pass_loadExclusive (by omega)) ?_
  intro r now₁ h₁
  split
  · refine Spec.pure ?_
    show now₁ ≤ bound
    omega
  refine Spec.seq (pass_waitIn (by omega) rfl) ?_
  intro _ now₂ h₂
  refine Spec.seq (pass_load _ (by omega)) ?_
  intro r now₃ h₃
  refine Spec.seq (pass_test (by omega)) ?_
  rintro c _ ⟨h₄, rfl⟩
  split
  · refine Spec.pure ?_
    show c.toNat ≤ bound
    omega
  rename_i hc
  have hc : c.toNat < cyclesEnd.toNat := lt_of_not_ge hc
  split
  · exact Spec.pure (Nat.le_of_lt hc)
  · refine Spec.pure ?_
    show c.toNat ≤ bound
    omega

/-! ## The timed waits -/

/-- Does every sleep of the wait have a timer? -/
def TimedWait.HasTimer : TimedWait w → BitVec 64 → Prop
  | .wfe _, _ => False
  | .mwaitx _, total => total ≠ 0
  | _, _ => True

/-- What is left of the cycles runs out at the deadline, if a cycle is left. -/
theorem mwaitxTimed_wakesBy {last : BitVec 64} (lowPower : Bool)
    (h : last.toNat < cyclesEnd.toNat) (now : Nat) :
    ∃ d, (mwaitxTimed lowPower cyclesEnd last).wakesBy now = some d ∧
      d ≤ now + (cyclesEnd.toNat - last.toNat) := by
  have hremaining := cyclesRemaining_toNat h
  have hne : cyclesRemaining cyclesEnd last ≠ 0 := by
    intro hzero
    rw [hzero] at hremaining
    have : (0 : BitVec 32).toNat = 0 := rfl
    omega
  refine ⟨now + (cyclesRemaining cyclesEnd last).toNat, if_pos ⟨rfl, hne⟩, ?_⟩
  omega

/-- The two halves of the deadline are the deadline. -/
theorem umwaitTimed_wakesBy (last : BitVec 64) (lowPower : Bool) (now : Nat) :
    (umwaitTimed lowPower cyclesEnd last).wakesBy now = some cyclesEnd.toNat := by
  have hlt := cyclesEnd.isLt
  have hlower : (cyclesEnd.setWidth 32).toNat = cyclesEnd.toNat % 2 ^ 32 :=
    BitVec.toNat_setWidth _ _
  have hupper : ((cyclesEnd >>> 32).setWidth 32).toNat = cyclesEnd.toNat / 2 ^ 32 := by
    rw [BitVec.toNat_setWidth, BitVec.toNat_ushiftRight, Nat.shiftRight_eq_div_pow]
    omega
  show some (((cyclesEnd >>> 32).setWidth 32).toNat * 2 ^ 32 + (cyclesEnd.setWidth 32).toNat) = _
  rw [hlower, hupper]
  congr 1
  omega

variable {F : CycleScale} {nanoseconds : BitVec 64}

/-- What comes before the loop of a monitor wait takes two steps. -/
theorem pass_early {k : BitVec 64 → BitVec 64 → Prog (atomics w) Bool}
    (htotal : cyclesForNanoseconds F nanoseconds = some total) (hbound : now + 2 * δ ≤ bound)
    (hloop : ∀ b : BitVec 64, b.toNat ≤ now + 2 * δ →
      (b + total).toNat = b.toNat + total.toNat →
      Spec (passing δ total bound) (k total b) b.toNat fun _ now' => now' ≤ bound) :
    Spec (passing δ total bound)
      (do
        let result ← atomicLoadN .acquire
        if result == value then return true
        let totalCycles ← detectCalculateCyclesForNanoseconds F nanoseconds
        let beginCycles ← readCycleCounter
        k totalCycles beginCycles) now fun _ now' => now' ≤ bound := by
  refine Spec.seq (pass_load _ (by omega)) ?_
  intro r now₁ h₁
  split
  · refine Spec.pure ?_
    show now₁ ≤ bound
    omega
  refine Spec.seq (pass_convert htotal) ?_
  rintro _ _ ⟨rfl, rfl⟩
  refine Spec.seq (pass_begin (by omega)) ?_
  rintro b _ ⟨h₂, rfl, hfits⟩
  exact hloop b (by omega) (by rw [BitVec.toNat_add, Nat.mod_eq_of_lt hfits])

/-- `wfet_wait_for_value_timeout_i32` reads the counter before it converts the timeout. -/
theorem pass_wfetI32 (value : BitVec 32) (lowPower : Bool)
    (htotal : cyclesForNanoseconds F nanoseconds = some total)
    (hbound : now + total.toNat + 8 * δ ≤ bound) :
    Spec (passing δ total bound) (wfetWaitForValueTimeoutI32 F value nanoseconds lowPower) now
      fun _ now' => now' ≤ bound := by
  unfold wfetWaitForValueTimeoutI32
  refine Spec.seq (pass_load _ (by omega)) ?_
  intro r now₁ h₁
  split
  · refine Spec.pure ?_
    show now₁ ≤ bound
    omega
  refine Spec.seq (pass_begin (by omega)) ?_
  rintro b _ ⟨h₂, rfl, hfits⟩
  refine Spec.seq (pass_convert htotal) ?_
  rintro total _ ⟨rfl, rfl⟩
  have hend : (b + total).toNat = b.toNat + total.toNat := by
    rw [BitVec.toNat_add, Nat.mod_eq_of_lt hfits]
  exact pass_wfetUntil (by omega) (by omega)

/-- **Every wait whose sleeps have timers** is over eight steps after its timeout. -/
theorem TimedWait.passes (b : TimedWait w) (value : BitVec w) (lowPower : Bool)
    (htotal : cyclesForNanoseconds F nanoseconds = some total) (htimer : b.HasTimer total)
    (hbound : now + total.toNat + 8 * δ ≤ bound) :
    Spec (passing δ total bound) (b.run F value nanoseconds lowPower) now
      fun _ now' => now' ≤ bound := by
  cases b with
  | spinloop w =>
    refine Spec.seq (pass_convert htotal) ?_
    rintro total _ ⟨rfl, rfl⟩
    refine Spec.seq (pass_begin (by omega)) ?_
    rintro b _ ⟨h₁, rfl, hfits⟩
    have hend : (b + total).toNat = b.toNat + total.toNat := by
      rw [BitVec.toNat_add, Nat.mod_eq_of_lt hfits]
    exact pass_spinloopUntil lowPower (by omega) (by omega)
  | wfe w => exact htimer.elim
  | wfet w =>
    refine pass_early htotal (by omega) fun b hb hend => ?_
    exact pass_wfetUntil (by omega) (by omega)
  | wfetI32 => exact pass_wfetI32 value lowPower htotal hbound
  | mwaitx w =>
    have hpos : 0 < total.toNat :=
      Nat.pos_of_ne_zero fun h => htimer (BitVec.eq_of_toNat_eq h)
    refine pass_early htotal (by omega) fun b hb hend => ?_
    refine pass_x86Round _ (by omega) (by omega) ?_
    intro last now' hlast hnow'
    have hlt : last.toNat < (b + total).toNat := by
      rcases hlast with rfl | hlt
      · omega
      · exact hlt
    obtain ⟨d, hd, hle⟩ := mwaitxTimed_wakesBy lowPower hlt now'
    exact ⟨d, hd, by omega⟩
  | waitpkg w =>
    refine pass_early htotal (by omega) fun b hb hend => ?_
    refine pass_x86Round _ (by omega) (by omega) ?_
    intro last now' hlast hnow'
    exact ⟨_, umwaitTimed_wakesBy last lowPower now', by omega⟩

/-! ## Sleeping for ever -/

/-- An early look that does not see the value, and the first reading. -/
theorem trace_early {k : BitVec 64 → BitVec 64 → Prog (atomics w) Bool} {v : BitVec w}
    (htotal : cyclesForNanoseconds F nanoseconds = some total) (hne : ¬ (v == value) = true)
    (b : BitVec 64) :
    Prog.Trace
      (do
        let result ← atomicLoadN .acquire
        if result == value then return true
        let totalCycles ← detectCalculateCyclesForNanoseconds F nanoseconds
        let beginCycles ← readCycleCounter
        k totalCycles beginCycles)
      [⟨.loadN .acquire, v⟩, ⟨.readCycleCounter none, b⟩] (k total b) := by
  refine .op ?_
  show Prog.Trace (if (v == value) = true then _ else _) _ _
  rw [if_neg hne]
  unfold detectCalculateCyclesForNanoseconds
  rw [htotal]
  exact .op (.nil _)

/-- A wait that goes to sleep without a timer before any time has passed is not over in time. -/
theorem not_inTime_of_sleep {p : Prog (atomics w) Bool} {tr : List (Act (atomics w))}
    {insn : WaitInsn} {k : Unit → Prog (atomics w) Bool} {o : Op w}
    {k' : o.Ans → Prog (atomics w) Bool}
    (htr : Prog.Trace p tr (@Prog.op (atomics w) Bool (.wait insn) k))
    (hadm : (elapsing 0 total).Admits 0 tr 0) (hinsn : insn.wakesBy 0 = none)
    (hk : k () = @Prog.op (atomics w) Bool o k') : ¬ InTime 0 total bound p 0 := by
  intro hin
  let sleep : Act (atomics w) := ⟨.wait insn, ()⟩
  have hsleep : (elapsing (w := w) 0 total).Admits 0 [sleep] (bound + 1) := by
    refine .cons ⟨by omega, ?_⟩ (.nil _)
    intro d hd
    rw [hinsn] at hd
    cases hd
  have hwake : Prog.Trace p (tr ++ [sleep]) (@Prog.op (atomics w) Bool o k') := by
    refine htr.append (.op ?_)
    rw [hk]
    exact .nil _
  have hle := (hin _ _ _ (hadm.append hsleep) hwake).1 o k' rfl
  omega

/-- An operation that takes no time. -/
theorem elapsing_still {tr : List (Act (atomics w))} {o : Op w} {a : o.Ans}
    (h : (elapsing 0 total).post 0 o a 0) (hrest : (elapsing 0 total).Admits 0 tr 0) :
    (elapsing 0 total).Admits 0 (⟨o, a⟩ :: tr) 0 := .cons h hrest

/-- The answers up to there: the value does not come, and the counter stands at 0. -/
theorem elapsing_begin (v : BitVec w) :
    (elapsing 0 total).Admits 0 [⟨.loadN .acquire, v⟩, ⟨.readCycleCounter none, 0⟩] 0 := by
  have hfits : 0 + total.toNat < 2 ^ 64 := by
    rw [Nat.zero_add]
    exact total.isLt
  exact elapsing_still ⟨le_rfl, le_rfl⟩ (elapsing_still ⟨le_rfl, le_rfl, rfl, hfits⟩ (.nil _))

/-- A `wfe` wait has no timer. -/
theorem wfe_not_inTime (hw : 0 < w) (value : BitVec w) (lowPower : Bool)
    (htotal : cyclesForNanoseconds F nanoseconds = some total) :
    ¬ InTime 0 total bound (wfeWaitForValueTimeout w F value nanoseconds lowPower) 0 := by
  obtain ⟨v, hv⟩ := exists_other hw value
  have hne : ¬ (v == value) = true := by simpa using hv
  obtain ⟨k, o, k', hsleep, hk⟩ : ∃ k o k', Prog.Trace (wfeUntil w .wfe value (0 + total))
      [⟨.loadExclusive, v⟩] (@Prog.op (atomics w) Bool (.wait .wfe) k) ∧
      k () = @Prog.op (atomics w) Bool o k' := by
    refine ⟨?_, ?_, ?_, .jump (.op ?_), ?_⟩
    rotate_left 3
    · show Prog.Trace (Prog.bind (if (v == value) = true then _ else _) _) _ _
      rw [if_neg hne]
      exact .nil _
    · rfl
  exact not_inTime_of_sleep ((trace_early htotal hne 0).append hsleep)
    ((elapsing_begin v).append (elapsing_still ⟨le_rfl, le_rfl⟩ (.nil _))) rfl hk

/-- Neither has a `mwaitx` wait of 0 cycles. -/
theorem mwaitx_not_inTime (hw : 0 < w) (value : BitVec w) (lowPower : Bool)
    (htotal : cyclesForNanoseconds F nanoseconds = some 0) :
    ¬ InTime 0 0 bound (mwaitxWaitForValueTimeout w F value nanoseconds lowPower) 0 := by
  obtain ⟨v, hv⟩ := exists_other hw value
  have hne : ¬ (v == value) = true := by simpa using hv
  obtain ⟨k, o, k', hsleep, hk⟩ : ∃ k o k', Prog.Trace
      (mwaitxWaitForValueTimeout w F value nanoseconds lowPower)
      ([⟨.loadN .acquire, v⟩, ⟨.readCycleCounter none, 0⟩] ++ [⟨.arm monitorx, ()⟩,
        ⟨.loadN .acquire, v⟩]) (@Prog.op (atomics w) Bool (.wait (mwaitxTimed lowPower 0 0)) k) ∧
      k () = @Prog.op (atomics w) Bool o k' := by
    refine ⟨?_, ?_, ?_, (trace_early htotal hne 0).append ?_, ?_⟩
    rotate_left 3
    · refine .jump (.op ?_)
      refine .op ?_
      show Prog.Trace (Prog.bind (if (v == value) = true then _ else _) _) _ _
      rw [if_neg hne]
      exact .nil _
    · rfl
  exact not_inTime_of_sleep hsleep ((elapsing_begin v).append
    (elapsing_still ⟨le_rfl, le_rfl⟩ (elapsing_still ⟨le_rfl, le_rfl⟩ (.nil _)))) rfl hk

end

/-- **Which timed waits are over in time**: with a timer for every sleep, eight steps after the
    timeout, whenever they begin and however long a step takes; the others within no bound. -/
theorem timed_wait_in_time {w : Nat} (hw : 0 < w) (b : TimedWait w) (F : CycleScale)
    (value : BitVec w) (nanoseconds total : BitVec 64) (lowPower : Bool)
    (htotal : cyclesForNanoseconds F nanoseconds = some total) :
    (b.HasTimer total → ∀ δ now,
      InTime δ total (now + total.toNat + 8 * δ) (b.run F value nanoseconds lowPower) now) ∧
    (¬ b.HasTimer total → ∀ bound,
      ¬ InTime 0 total bound (b.run F value nanoseconds lowPower) 0) := by
  constructor
  · intro htimer δ now
    exact inTime_of_passing (b.passes value lowPower htotal htimer le_rfl)
  · intro hnone bound
    cases b with
    | wfe w => exact wfe_not_inTime hw value lowPower htotal
    | mwaitx w =>
      obtain rfl : total = 0 := not_not.mp hnone
      exact mwaitx_not_inTime hw value lowPower htotal
    | spinloop w | wfet w | wfetI32 | waitpkg w => exact absurd trivial hnone

/-- A `mwaitx` wait of one cycle is over in time, and a `wfe` wait is not. -/
theorem timed_wait_in_time_one :
    (∀ δ now, InTime δ 1 (now + (1 : BitVec 64).toNat + 8 * δ)
      (mwaitxWaitForValueTimeoutI32 ⟨10000, 10000⟩ 1 1 false) now) ∧
      ∀ bound, ¬ InTime 0 1 bound (wfeWaitForValueTimeoutI32 ⟨10000, 10000⟩ 1 1 false) 0 :=
  ⟨(timed_wait_in_time (by decide) (.mwaitx 32) ⟨10000, 10000⟩ 1 1 1 false rfl).1
      (show (1 : BitVec 64) ≠ 0 by decide),
    (timed_wait_in_time (by decide) (.wfe 32) ⟨10000, 10000⟩ 1 1 1 false rfl).2 id⟩

end WfeMutex
