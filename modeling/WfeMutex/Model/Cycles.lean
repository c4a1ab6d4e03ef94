/-
  NANOSECONDS TO CYCLES (`detect.h`), and the bit test that the `wait_for_bit_*` functions share.

  `wfe_mutex_detect_calculate_cycles_for_nanoseconds` multiplies modulo 2^64 and divides by a
  number that detection left in the global `Features`.  Both globals are collected in `CycleScale`,
  which every timed wait receives, and a zero divisor is a trap.
-/
import WfeMutex.Model.Atomic

namespace WfeMutex

open Conc

/-- The two conversion globals of `Features`; the initialisers are those of `detect.c`. -/
structure CycleScale where
  cyclesPerNanosecondMultiplier : BitVec 64 := 1
  cyclesPerNanosecondDivisor : BitVec 64 := 1
  deriving DecidableEq, Repr

/-- `nanoseconds * multiplier / divisor` in 64-bit unsigned arithmetic; `none` divides by zero. -/
def cyclesForNanoseconds (F : CycleScale) (nanoseconds : BitVec 64) : Option (BitVec 64) :=
  if F.cyclesPerNanosecondDivisor = 0 then none
  else some (nanoseconds * F.cyclesPerNanosecondMultiplier / F.cyclesPerNanosecondDivisor)

/-- `wfe_mutex_detect_calculate_cycles_for_nanoseconds`. -/
def detectCalculateCyclesForNanoseconds {w : Nat} (F : CycleScale) (nanoseconds : BitVec 64) :
    Prog (atomics w) (BitVec 64) :=
  match cyclesForNanoseconds F nanoseconds with
  | some cycles => pure cycles
  | none => trap

/-- `(result >> bit) & 1`, after the integer promotions. -/
def bitAt {w : Nat} (result : BitVec w) (bit : BitVec 8) : Nat := (result.toNat >>> bit.toNat) &&& 1

theorem bitAt_eq_zero_or_one {w : Nat} (r : BitVec w) (bit : BitVec 8) :
    bitAt r bit = 0 ∨ bitAt r bit = 1 := by
  unfold bitAt
  rw [Nat.and_one_is_mod]
  omega

end WfeMutex
