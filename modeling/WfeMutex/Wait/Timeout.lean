/-
  CAN A TIMED WAIT TIME OUT TOO EARLY, in any backend?

  A timed wait returns `false` only at a reading that has reached its deadline (`Outcome.late`).
  The deadline is the sum of the first reading and the cycles of the timeout, modulo 2^64.  Where
  the sum does not wrap, the cycles have then passed; where it does, the deadline lies before the
  first reading, and a wait that does not find its value gives up at once
  (`no_premature_timeout_iff`).
-/
import Mathlib.Algebra.Group.Nat.Defs
import WfeMutex.Wait.Verdict
import WfeMutex.Model.Calibrate

set_option linter.unusedVariables false

namespace WfeMutex

open Conc

section
variable {w : Nat}

/-- The counter does not run backwards. -/
structure Streams.NonDecreasing (S : Streams w) : Prop where
  first : S.beginCycles ≤ S.reading 0
  next : ∀ k, S.reading k ≤ S.reading (k + 1)

/-- **No premature timeout**: a wait that begins at `beginCycles` returns `false` only at a reading
    `c` from which `totalCycles` have passed, whatever it loads. -/
def NoPrematureTimeout (p : Prog (atomics w) Bool) (beginCycles totalCycles : BitVec 64) : Prop :=
  ∀ S : Streams w, S.beginCycles = beginCycles → S.NonDecreasing →
    ∀ m, Steps S.answer p {} (.ret false) m →
      ∃ before c, m.events = before ++ [.reading c] ∧
        totalCycles.toNat ≤ c.toNat - beginCycles.toNat

/-- A word of at least one bit can have another value. -/
theorem exists_other (hw : 0 < w) (value : BitVec w) : ∃ v, v ≠ value := by
  have hone : (1#w) ≠ 0#w := by
    intro h
    have hnat := congrArg BitVec.toNat h
    have hpow : 1 < 2 ^ w := Nat.one_lt_two_pow (by omega)
    rw [BitVec.toNat_ofNat, BitVec.toNat_ofNat, Nat.mod_eq_of_lt hpow, Nat.zero_mod] at hnat
    omega
  by_cases h : value = 0#w
  · exact ⟨1#w, by rw [h]; exact hone⟩
  · exact ⟨0#w, fun heq => h heq.symm⟩

/-- A word that stays away from the value, under a counter that stands still. -/
def Streams.standing (v : BitVec w) (beginCycles : BitVec 64) : Streams w where
  load _ := v
  beginCycles := beginCycles
  reading _ := beginCycles

/-- A counter that stands still does not run backwards. -/
theorem Streams.standing_nonDecreasing (v : BitVec w) (beginCycles : BitVec 64) :
    (Streams.standing v beginCycles).NonDecreasing :=
  ⟨BitVec.le_refl _, fun _ => BitVec.le_refl _⟩

variable {beginCycles total : BitVec 64}

/-- A deadline that does not wrap lies where the cycles have passed. -/
theorem passed_of_deadline {c : BitVec 64} (h : beginCycles.toNat + total.toNat < 2 ^ 64)
    (hc : beginCycles + total ≤ c) : total.toNat ≤ c.toNat - beginCycles.toNat := by
  have hle : (beginCycles + total).toNat ≤ c.toNat := hc
  rw [BitVec.toNat_add, Nat.mod_eq_of_lt h] at hle
  omega

/-- A deadline that wraps has been reached before the wait begins. -/
theorem deadline_le_begin (h : 2 ^ 64 ≤ beginCycles.toNat + total.toNat) :
    beginCycles + total ≤ beginCycles := by
  have hb := beginCycles.isLt
  have ht := total.isLt
  show (beginCycles + total).toNat ≤ beginCycles.toNat
  rw [BitVec.toNat_add]
  omega

end

/-- **When a timed wait never times out too early**: exactly where its deadline does not wrap. -/
theorem no_premature_timeout_iff {w : Nat} (hw : 0 < w) (b : TimedWait w) (F : CycleScale)
    (value : BitVec w) (nanoseconds total beginCycles : BitVec 64) (lowPower : Bool)
    (htotal : cyclesForNanoseconds F nanoseconds = some total) :
    NoPrematureTimeout (b.run F value nanoseconds lowPower) beginCycles total ↔
      beginCycles.toNat + total.toNat < 2 ^ 64 := by
  constructor
  · intro hnever
    by_contra hwraps
    have hwrap : 2 ^ 64 ≤ beginCycles.toNat + total.toNat := Nat.le_of_not_lt hwraps
    obtain ⟨v, hv⟩ := exists_other hw value
    let S := Streams.standing v beginCycles
    have hdecides := b.decides value lowPower S htotal
    -- the first reading has reached the deadline, so the wait returns
    obtain ⟨r, m, hsteps⟩ := hdecides.returns ⟨0, Or.inr (deadline_le_begin hwrap)⟩
    have hout := hdecides.sound r m hsteps
    cases r with
    | true =>
      obtain ⟨i, -, hi⟩ := hout.seen rfl
      exact hv hi
    | false =>
      obtain ⟨before, k, hevents, -⟩ := hout.late rfl
      obtain ⟨before', c, hevents', hc⟩ :=
        hnever S rfl (Streams.standing_nonDecreasing v beginCycles) m hsteps
      rw [hevents] at hevents'
      obtain ⟨-, hlast⟩ := List.append_inj' hevents' rfl
      obtain rfl : beginCycles = c := by
        cases hlast
        rfl
      have hlt := beginCycles.isLt
      omega
  · intro hfits S hbegin hmono m hsteps
    subst hbegin
    have hout := (b.decides value lowPower S htotal).sound false m hsteps
    obtain ⟨before, k, hevents, hk⟩ := hout.late rfl
    exact ⟨before, S.reading k, hevents, passed_of_deadline hfits hk⟩

/-- The longest timeout of an ARM counter of 1 GHz is as many cycles; begun at the reading 1, every
    backend gives it up at once. -/
theorem premature_timeout :
    armScaleOf 1000000000 = .ret ⟨⟨1, 1⟩, 1000000000⟩ ∧
      cyclesForNanoseconds ⟨1, 1⟩ (BitVec.allOnes 64) = some (BitVec.allOnes 64) ∧
      ¬ NoPrematureTimeout (wfeWaitForValueTimeoutI32 ⟨1, 1⟩ 1 (BitVec.allOnes 64) false) 1
        (BitVec.allOnes 64) := by
  refine ⟨rfl, rfl, ?_⟩
  intro hnever
  obtain ⟨before, c, hevents, hc⟩ := hnever (.standing 0 1) rfl
    (Streams.standing_nonDecreasing 0 1) _
    (.op rfl (.op rfl (.jump (.op rfl (.op rfl (.op rfl (.op rfl (.refl _ _))))))))
  have hlast : ([.load 0, .load 0, .load 0] : List (WaitEvent 32)) ++ [.reading 1] =
      before ++ [.reading c] := hevents
  obtain ⟨-, hreading⟩ := List.append_inj' hlast rfl
  obtain rfl : (1 : BitVec 64) = c := by
    cases hreading
    rfl
  exact absurd hc (by decide)

/-- Begun at the reading 0, no backend gives it up early. -/
theorem no_premature_timeout_iff_zero :
    NoPrematureTimeout (wfeWaitForValueTimeoutI32 ⟨1, 1⟩ 1 (BitVec.allOnes 64) false) 0
        (BitVec.allOnes 64) ∧
      NoPrematureTimeout (spinloopWaitForValueTimeoutI32 ⟨1, 1⟩ 1 (BitVec.allOnes 64) false) 0
        (BitVec.allOnes 64) :=
  ⟨(no_premature_timeout_iff (by decide) (.wfe 32) ⟨1, 1⟩ 1 _ _ 0 false rfl).mpr (by decide),
    (no_premature_timeout_iff (by decide) (.spinloop 32) ⟨1, 1⟩ 1 _ _ 0 false rfl).mpr (by decide)⟩

end WfeMutex
