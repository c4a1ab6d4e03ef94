/-
  THE SPIN LOOP (`src/implementations.c`): the fallback on every platform.

  The four widths of each function have the same text, so each family is one definition over the
  width, and the exported functions are its members.  `low_power` adds five `do_yield`s to a round
  and, in the bit waits, turns a `do … while` into a `while` over a value loaded before it; the two
  shapes are kept apart here.
-/
import WfeMutex.Model.Cycles

namespace WfeMutex

open Conc

section
variable (w : Nat)

/-- The five `do_yield`s of a low-power round. -/
def yieldFive : Prog (atomics w) Unit := do
  doYield
  doYield
  doYield
  doYield
  doYield

/-! ## Untimed waits -/

def spinloopWaitForValue (value : BitVec w) (lowPower : Bool) : Prog (atomics w) Unit :=
  if lowPower then
    .iter (fun _ => do
      if (← atomicLoadN .acquire) != value then
        yieldFive w
        return .again ()
      return .leave ()) ()
  else
    .iter (fun _ => do
      if (← atomicLoadN .acquire) != value then return .again ()
      return .leave ()) ()

/-- `spinloop_wait_for_bit_set_*` (`clear = 0`) and `spinloop_wait_for_bit_not_set_*`
    (`clear = 1`): loop while the bit equals `clear`. -/
def spinloopWaitForBit (clear : Nat) (bit : BitVec 8) (lowPower : Bool) :
    Prog (atomics w) (BitVec w) :=
  if lowPower then do
    let result ← atomicLoadN .acquire
    .iter (fun result => do
      if bitAt result bit == clear then
        yieldFive w
        let result ← atomicLoadN .acquire
        return .again result
      return .leave result) result
  else
    .iter (fun _ => do
      let result ← atomicLoadN .acquire
      if bitAt result bit == clear then return .again ()
      return .leave result) ()

def spinloopWaitForBitSet (bit : BitVec 8) (lowPower : Bool) : Prog (atomics w) (BitVec w) :=
  spinloopWaitForBit w 0 bit lowPower

def spinloopWaitForBitNotSet (bit : BitVec 8) (lowPower : Bool) : Prog (atomics w) (BitVec w) :=
  spinloopWaitForBit w 1 bit lowPower

/-! ## Waits with a deadline -/

/-- The loop shared by the timed wait and the one-shot: until the value is seen, or the counter
    has reached `cyclesEnd`. -/
def spinloopUntil (value : BitVec w) (cyclesEnd : BitVec 64) (lowPower : Bool) :
    Prog (atomics w) Bool :=
  if lowPower then
    .iter (fun _ => do
      if (← atomicLoadN .acquire) != value then
        yieldFive w
        if (← readCycleCounterAgainst cyclesEnd) ≥ cyclesEnd then return .leave false
        return .again ()
      return .leave true) ()
  else
    .iter (fun _ => do
      if (← atomicLoadN .acquire) != value then
        if (← readCycleCounterAgainst cyclesEnd) ≥ cyclesEnd then return .leave false
        return .again ()
      return .leave true) ()

def spinloopWaitForValueTimeout (F : CycleScale) (value : BitVec w) (nanoseconds : BitVec 64)
    (lowPower : Bool) : Prog (atomics w) Bool := do
  let totalCycles ← detectCalculateCyclesForNanoseconds F nanoseconds
  let beginCycles ← readCycleCounter
  let cyclesEnd := beginCycles + totalCycles
  spinloopUntil w value cyclesEnd lowPower

/-- 10k cycles should be faster than anything that matters. -/
def SPURIOUS_WAKEUP_CYCLES : BitVec 64 := 10000

def spinloopWaitForValueSpuriousOneshot (value : BitVec w) (lowPower : Bool) :
    Prog (atomics w) Bool := do
  let beginCycles ← readCycleCounter
  let cyclesEnd := beginCycles + SPURIOUS_WAKEUP_CYCLES
  spinloopUntil w value cyclesEnd lowPower

end

/-! ## The exported functions -/

def spinloopWaitForValueI8 := spinloopWaitForValue 8
def spinloopWaitForValueI16 := spinloopWaitForValue 16
def spinloopWaitForValueI32 := spinloopWaitForValue 32
def spinloopWaitForValueI64 := spinloopWaitForValue 64

def spinloopWaitForBitSetI8 := spinloopWaitForBitSet 8
def spinloopWaitForBitSetI16 := spinloopWaitForBitSet 16
def spinloopWaitForBitSetI32 := spinloopWaitForBitSet 32
def spinloopWaitForBitSetI64 := spinloopWaitForBitSet 64

def spinloopWaitForBitNotSetI8 := spinloopWaitForBitNotSet 8
def spinloopWaitForBitNotSetI16 := spinloopWaitForBitNotSet 16
def spinloopWaitForBitNotSetI32 := spinloopWaitForBitNotSet 32
def spinloopWaitForBitNotSetI64 := spinloopWaitForBitNotSet 64

def spinloopWaitForValueTimeoutI8 := spinloopWaitForValueTimeout 8
def spinloopWaitForValueTimeoutI16 := spinloopWaitForValueTimeout 16
def spinloopWaitForValueTimeoutI32 := spinloopWaitForValueTimeout 32
def spinloopWaitForValueTimeoutI64 := spinloopWaitForValueTimeout 64

def spinloopWaitForValueSpuriousOneshotI8 := spinloopWaitForValueSpuriousOneshot 8
def spinloopWaitForValueSpuriousOneshotI16 := spinloopWaitForValueSpuriousOneshot 16
def spinloopWaitForValueSpuriousOneshotI32 := spinloopWaitForValueSpuriousOneshot 32
def spinloopWaitForValueSpuriousOneshotI64 := spinloopWaitForValueSpuriousOneshot 64

end WfeMutex
