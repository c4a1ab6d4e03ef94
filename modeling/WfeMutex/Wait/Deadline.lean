/-
  THE DEADLINE OF A TIMED WAIT, for every backend.

  Every timed wait computes one deadline: it reads the counter once, adds the cycles of its timeout,
  and from then on only compares readings with that sum.  `deadlines cycles` watches over this.  A
  party is `ready` to begin a wait, or it is `waiting` since a reading of the counter, and what it
  tests then must be that reading plus `cycles`; a lost exchange makes it ready again.

  No timed wait begins twice or tests against anything else (`Features.KeepsDeadline`), in every
  table a program can find (`Platform.keepsDeadline`).  The waits differ in when they look at the
  word, and a monitor wait that sees the value at its first look does not read the counter at all.
-/
import WfeMutex.Wait.Discipline

set_option linter.unusedVariables false

namespace WfeMutex

open Conc

section
variable {w : Nat} (cycles : BitVec 64)

/-- Begin only when ready; test only against the deadline of the wait. -/
def deadlines : Watch (atomics w) Stage where
  allows
    | .ready, .readCycleCounter (some _) => False
    | .waiting _, .readCycleCounter none => False
    | .waiting beginCycles, .readCycleCounter (some d) => d = beginCycles + cycles
    | _, _ => True
  next
    | .ready, .readCycleCounter none, beginCycles => .waiting beginCycles
    | l, .compareExchangeN _ _ _ _, a => if a.1 then l else .ready
    | l, _, _ => l

/-- The protocol of the waits. -/
abbrev timed : Proto (atomics w) Stage := (deadlines cycles).proto

variable {cycles}

/-- A load has nothing to do with deadlines. -/
theorem timed_load (mo : MemOrder) {l : Stage} :
    Spec (timed cycles) (atomicLoadN (w := w) mo) l fun _ l' => l' = l := by
  refine spec_act ?_ ?_
  · cases l with
    | ready => trivial
    | waiting b => trivial
  · rintro a _ rfl
    cases l with
    | ready => rfl
    | waiting b => rfl

/-- **A wait that keeps the discipline keeps its deadline.** -/
theorem timed_of_conduct {α : Type} {cond : BitVec w → Prop} {p : Prog (atomics w) α}
    {Q : α → Conduct w → Prop} (h : Spec (conduct cond (some cycles)).proto p .start Q) :
    Spec (timed cycles) p .ready fun _ _ => True := by
  refine (Spec.embed (R := fun l stage => l.stage = stage) ?_ ?_ h rfl).mono fun _ _ _ => trivial
  · rintro ⟨seen, stage⟩ _ o rfl hallows
    cases o with
    | readCycleCounter d =>
      cases d with
      | none =>
        obtain rfl : stage = .ready := hallows
        trivial
      | some d =>
        obtain ⟨b, total, rfl, htotal, rfl⟩ := hallows
        cases htotal
        rfl
    | storeN | fetchSub | compareExchangeN | printError => cases hallows
    | _ => cases stage <;> trivial
  · rintro ⟨seen, stage⟩ _ o a _ rfl hallows rfl
    refine ⟨_, rfl, ?_⟩
    cases o with
    | readCycleCounter d =>
      cases d with
      | none =>
        obtain rfl : stage = .ready := hallows
        rfl
      | some d =>
        obtain ⟨b, total, rfl, _, _⟩ := hallows
        rfl
    | storeN | fetchSub | compareExchangeN | printError => cases hallows
    | _ => cases stage <;> rfl

end

/-- The 32-bit timed wait of a table begins once, and tests against one deadline. -/
def Features.KeepsDeadline (F : Features) : Prop :=
  ∀ (G : CycleScale) (value : BitVec 32) (nanoseconds cycles : BitVec 64) (lowPower : Bool),
    cyclesForNanoseconds G nanoseconds = some cycles →
    Spec (timed cycles) (F.waitForValueTimeoutI32 G value nanoseconds lowPower) .ready
      fun _ _ => True

/-- **Every table a program can find** has a timed wait that keeps its deadline. -/
theorem Platform.keepsDeadline (P : Platform) : P.features.KeepsDeadline := by
  intro G value nanoseconds cycles lowPower hcycles
  have hwait := P.conducts.timeout G value nanoseconds lowPower
  rw [hcycles] at hwait
  exact timed_of_conduct hwait

end WfeMutex
