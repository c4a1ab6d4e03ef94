/-
  WHAT A LOCK MAY RELY ON in the wait functions, for every backend.

  `reads V` is the protocol of a party that only looks at the word, in a world where every look
  shows a value in `V`: it may not write and may not report an error.  Under it

  * `wait_for_value` returns only if the value is in `V`,
  * the timed wait returns `true` only if the value is in `V`,
  * `wait_for_bit_not_set` returns a word of `V` whose bit is clear

  (`Features.WaitsOk`).  With `V` the words a lock can show, this is what the retry loops of the
  locks need; with `V` the words a stuck lock keeps showing, it says that the wait never ends.
  Nothing is assumed about timers or wake-ups: the counter and the sleeping instructions may
  answer at any moment and with anything.
-/
import WfeMutex.Wait.Discipline

set_option linter.unusedVariables false

namespace WfeMutex

open Conc

section
variable {w : Nat} {α : Type}

/-- The party only looks at the word, and sees only values in `V`. -/
def reads (V : BitVec w → Prop) : Proto (atomics w) Unit where
  pre _ o := o.quiet = true
  post _ o a _ := ∀ x, o.sees a = some x → V x

variable {V : BitVec w → Prop}

/-- A load shows one of the values. -/
theorem reads_load (mo : MemOrder) : Spec (reads V) (atomicLoadN mo) () fun r _ => V r :=
  spec_act rfl fun a _ ha => ha a rfl

/-- **A wait is a reader**: what it has seen is in `V`. -/
theorem reads_of_conduct {cond : BitVec w → Prop} {cycles : Option (BitVec 64)}
    {p : Prog (atomics w) α} {Q : α → Conduct w → Prop}
    (h : Spec (conduct cond cycles).proto p .start Q) :
    Spec (reads V) p () fun a _ => ∃ l, (∀ v, l.seen = some v → V v) ∧ Q a l := by
  refine Spec.embed (R := fun l _ => ∀ v, l.seen = some v → V v) ?_ ?_ h ?_
  · intro l _ o _ hallows
    exact conduct_quiet hallows
  · intro l _ o a _ hl _ hsees
    refine ⟨_, rfl, ?_⟩
    intro v hv
    cases o with
    | loadN mo => exact hsees v hv
    | loadExclusive => exact hsees v hv
    | arm i => cases hv
    | wait i => cases hv
    | readCycleCounter d =>
      cases d with
      | none => exact hl v hv
      | some d => exact hl v hv
    | _ => exact hl v hv
  · intro v hv
    cases hv

end

/-- What the locks rely on in the 32-bit waits of a table. -/
structure Features.WaitsOk (F : Features) : Prop where
  value : ∀ (V : BitVec 32 → Prop) (value : BitVec 32) (lowPower : Bool),
    Spec (reads V) (F.waitForValueI32 value lowPower) () fun _ _ => V value
  timeout : ∀ (V : BitVec 32 → Prop) (G : CycleScale) (value : BitVec 32)
    (nanoseconds : BitVec 64) (lowPower : Bool),
    Spec (reads V) (F.waitForValueTimeoutI32 G value nanoseconds lowPower) ()
      fun r _ => r = true → V value
  bitNotSet : ∀ (V : BitVec 32 → Prop) (bit : BitVec 8) (lowPower : Bool),
    Spec (reads V) (F.waitForBitNotSetI32 bit lowPower) () fun r _ => V r ∧ bitAt r bit = 0

/-- A table that keeps the discipline has waits the locks can rely on. -/
theorem Features.Conducts.waitsOk {F : Features} (h : F.Conducts) : F.WaitsOk where
  value V value lowPower := by
    refine (reads_of_conduct (h.value value lowPower)).mono ?_
    rintro _ _ ⟨l, hV, hseen⟩
    exact hV value hseen
  timeout V G value nanoseconds lowPower := by
    refine (reads_of_conduct (h.timeout G value nanoseconds lowPower)).mono ?_
    rintro r _ ⟨l, hV, hseen⟩ hr
    exact hV value (hseen hr)
  bitNotSet V bit lowPower := by
    refine (reads_of_conduct (h.bitNotSet bit lowPower)).mono ?_
    rintro r _ ⟨l, hV, hseen, hbit⟩
    exact ⟨hV r hseen, hbit⟩

/-- **Every table a program can find** has waits the locks can rely on. -/
theorem Platform.waitsOk (P : Platform) : P.features.WaitsOk := P.conducts.waitsOk

end WfeMutex
