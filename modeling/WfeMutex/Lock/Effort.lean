/-
  WHAT A CALL DOES BETWEEN ITS EXCHANGES: one walk through the functions of both locks.

  The watch `effort ready` follows a call of a lock.  It allows the call

  * to exchange a value only if it has looked at that value since its last exchange, but for its
    first few attempts (`free`), which may expect what nobody has seen: 0, or a value with the
    top bit masked off;
  * to sleep only on a value that is not ready, loaded since it armed its monitor.

  Every function keeps this discipline beside the protocol of its lock (`LockApi.Strives`).  The
  first half bounds the exchanges that fail (`Lock.Retry`): whoever exchanges what he has just
  seen fails only if another thread has changed the word in between.  The second half is about
  sleeping threads (`Lock.Asleep`).
-/
import Mathlib.Data.Set.Insert
import WfeMutex.Conc.Watched
import WfeMutex.Lock.Completion

set_option linter.unusedVariables false

namespace WfeMutex

open Conc

/-- What there is to remember of a call between its exchanges. -/
structure Effort where
  /-- Exchanges that may still expect any value. -/
  free : Nat
  /-- The values its looks have shown since its last exchange. -/
  looked : Set (BitVec 32)
  /-- The value last loaded since its last arming. -/
  seen : Option (BitVec 32)

/-- A call that starts with `free` attempts. -/
def Effort.start (free : Nat) : Effort := ⟨free, ∅, none⟩

/-- Exchange what has been looked at; sleep on what is not ready. -/
def effort (ready : BitVec 32 → Prop) : Watch (atomics 32) Effort where
  allows l
    | .wait _ => ∃ v, l.seen = some v ∧ ¬ ready v
    | .compareExchangeN e _ _ _ => 0 < l.free ∨ e ∈ l.looked
    | _ => True
  next l
    | .loadN _, a => { l with looked := insert a l.looked, seen := some a }
    | .loadExclusive, a => { l with looked := insert a l.looked, seen := some a }
    | .arm _, _ => { l with seen := none }
    | .wait _, _ => { l with seen := none }
    | .compareExchangeN _ _ _ _, _ => ⟨l.free - 1, ∅, none⟩
    | .storeN _ _, _ => { l with seen := none }
    | .fetchSub _ _, _ => { l with seen := none }
    | _, _ => l

section
variable {Call : Type} (A : LockApi Call)

/-- The protocol of a call of act `x`, and the watch on its exchanges. -/
abbrev LockApi.striving (x : LockAct) : Proto (atomics 32) (Phase × Effort) :=
  (A.proto x).prod (effort (A.Ready x)).proto

/-- The calls keep both, each starting with its own number of free attempts. -/
def LockApi.Strives (attempts : Call → Nat) (prog : Call → Prog (atomics 32) Bool) : Prop :=
  ∀ c, Spec (A.striving (A.act c)) (prog c) (.before, .start (attempts c)) fun r y =>
    A.ends c r y.1 ∧ True

variable {A} {α : Type} {x : LockAct} {l : Effort}

/-! ## Steps -/

/-- Before the write, with no exchange since `l`. -/
structure Effort.Since (l : Effort) (y : Phase × Effort) : Prop where
  before : y.1 = .before
  free : y.2.free = l.free
  looked : l.looked ⊆ y.2.looked

theorem Effort.Since.refl (l : Effort) : l.Since (.before, l) := ⟨rfl, rfl, subset_rfl⟩

theorem Effort.Since.trans {l : Effort} {y z : Phase × Effort} (h : l.Since y)
    (h' : y.2.Since z) : l.Since z :=
  ⟨h'.before, h'.free.trans h.free, h.looked.trans h'.looked⟩

/-- A load of the word. -/
theorem effort_load (mo : MemOrder) :
    Spec (A.striving x) (atomicLoadN mo) (.before, l)
      fun v y => l.Since y ∧ v ∈ y.2.looked ∧ A.shows x v := by
  refine spec_act ⟨⟨rfl, Or.inl rfl⟩, trivial⟩ ?_
  rintro v ⟨ph, l'⟩ ⟨⟨hph, hshows⟩, hl⟩
  obtain rfl : l' = { l with looked := insert v l.looked, seen := some v } := hl
  exact ⟨⟨hph, rfl, Set.subset_insert ..⟩, Set.mem_insert .., hshows v rfl⟩

/-- A check takes no exchange. -/
theorem effort_check {check : Prog (atomics 32) Unit} (h : Checks (A.shows x) check) :
    Spec (A.striving x) check (.before, l) fun _ y => l.Since y := by
  induction h generalizing l with
  | pass => exact Spec.ret (Effort.Since.refl l)
  | look _ ih =>
    refine (effort_load .seqCst).bind ?_
    rintro v ⟨ph, l'⟩ ⟨hsince, -, hshows⟩
    obtain rfl : ph = .before := hsince.before
    exact (ih v hshows).mono fun _ _ h => hsince.trans h

/-- An exchange that is free, or for a value looked at since. -/
theorem effort_exchange {e d : BitVec 32}
    (hmay : A.mayWrite x (.compareExchangeN e d .acquire .acquire))
    (hfree : 0 < l.free ∨ e ∈ l.looked) :
    Spec (A.striving x) (atomicCompareExchangeN e d .acquire .acquire) (.before, l)
      fun a y => y.1 = (if a.1 then .after else .before) ∧ y.2.free = l.free - 1 := by
  refine spec_act ⟨⟨rfl, Or.inr hmay⟩, hfree⟩ ?_
  rintro a ⟨ph, l'⟩ ⟨⟨hph, -⟩, hl⟩
  obtain rfl : l' = ⟨l.free - 1, ∅, none⟩ := hl
  exact ⟨hph, rfl⟩

/-- The wait of a retry loop: what it has seen, the call has looked at. -/
theorem effort_wait {cond : BitVec 32 → Prop} {cycles : Option (BitVec 64)}
    {p : Prog (atomics 32) α} {R : α → Conduct 32 → Prop}
    (h : Spec (conduct cond cycles).proto p .start R) (hcond : ∀ v, A.Ready x v → cond v) :
    Spec (A.striving x) p (.before, l)
      fun a y => l.Since y ∧ ∃ k, R a k ∧ ∀ v, k.seen = some v → v ∈ y.2.looked := by
  refine (Spec.embed (R := fun k y => l.Since y ∧ ∀ v, k.seen = some v →
    y.2.seen = some v ∧ v ∈ y.2.looked) ?_ ?_ h ⟨Effort.Since.refl l, fun v hv => by cases hv⟩).mono
    ?_
  · rintro k ⟨ph, l'⟩ o ⟨hsince, hseen⟩ hallows
    refine ⟨⟨hsince.before, Or.inl (conduct_quiet hallows)⟩, ?_⟩
    cases o with
    | wait i =>
      obtain ⟨v, hv, hnot⟩ := hallows
      exact ⟨v, (hseen v hv).1, fun hready => hnot (hcond v hready)⟩
    | storeN | compareExchangeN | fetchSub => cases hallows
    | _ => trivial
  · rintro k ⟨ph, l'⟩ o a ⟨ph', l''⟩ ⟨hsince, hseen⟩ hallows ⟨⟨hph, -⟩, hl⟩
    have hquiet := conduct_quiet hallows
    rw [Op.writes_of_quiet hquiet a] at hph
    obtain rfl : l'' = (effort (A.Ready x)).next l' o a := hl
    refine ⟨_, rfl, ?_⟩
    cases o with
    | loadN | loadExclusive =>
      refine ⟨⟨hph, hsince.free, hsince.looked.trans (Set.subset_insert ..)⟩, ?_⟩
      rintro v ⟨⟩
      exact ⟨rfl, Set.mem_insert ..⟩
    | arm | wait =>
      refine ⟨⟨hph, hsince.free, hsince.looked⟩, ?_⟩
      rintro v ⟨⟩
    | readCycleCounter d =>
      refine ⟨⟨hph, hsince.free, hsince.looked⟩, fun v hv => hseen v ?_⟩
      cases d with
      | none => exact hv
      | some d => exact hv
    | doYield | trap => exact ⟨⟨hph, hsince.free, hsince.looked⟩, hseen⟩
    | storeN | compareExchangeN | fetchSub | printError => cases hquiet
  · rintro a y ⟨k, ⟨hsince, hseen⟩, hR⟩
    exact ⟨hsince, k, hR, fun v hv => (hseen v hv).2⟩

/-! ## Exclusive acquisition -/

section
variable {check unlockCheck : Prog (atomics 32) Unit} {desired : BitVec 32} {F : Features}

/-- One free attempt, then only exchanges of a 0 that the wait has seen. -/
theorem effort_exclusiveLock (hF : F.Conducts)
    (hcas : A.mayWrite .acquireWrite (.compareExchangeN 0 desired .acquire .acquire))
    (hcheck : Checks (A.shows .acquireWrite) check) (lowPower : Bool) :
    Spec (A.striving .acquireWrite) (exclusiveLock F check desired lowPower)
      (.before, .start 1) fun _ _ => True := by
  unfold exclusiveLock
  refine Spec.seq (effort_check hcheck) ?_
  rintro _ ⟨ph, l⟩ hsince
  obtain rfl : ph = .before := hsince.before
  refine Spec.seq (effort_exchange hcas (Or.inl (hsince.free ▸ Nat.one_pos))) ?_
  rintro ⟨exchanged, _⟩ ⟨ph, l'⟩ ⟨rfl, -⟩
  cases exchanged with
  | true => exact Spec.pure trivial
  | false =>
    refine Spec.iter (I := fun _ y => y.1 = .before) ?_ rfl
    rintro _ ⟨ph, l⟩ rfl
    refine Spec.seq (effort_wait (hF.value 0 lowPower) fun v hready => hready) ?_
    rintro _ ⟨ph, l⟩ ⟨hsince, k, hk, hlooked⟩
    obtain rfl : ph = .before := hsince.before
    refine Spec.seq (effort_check hcheck) ?_
    rintro _ ⟨ph, l⟩ hsince
    obtain rfl : ph = .before := hsince.before
    refine Spec.seq (effort_exchange hcas (Or.inr (hsince.looked (hlooked 0 hk)))) ?_
    rintro ⟨exchanged, _⟩ ⟨ph, l⟩ ⟨rfl, -⟩
    cases exchanged with
    | true => exact Spec.pure trivial
    | false => exact Spec.pure rfl

/-- An attempt has one exchange, which is free. -/
theorem effort_exclusiveTrylock
    (hcas : A.mayWrite .acquireWrite (.compareExchangeN 0 desired .acquire .acquire))
    (hcheck : Checks (A.shows .acquireWrite) check) :
    Spec (A.striving .acquireWrite) (exclusiveTrylock check desired) (.before, .start 1)
      fun _ _ => True := by
  unfold exclusiveTrylock
  refine Spec.seq (effort_check hcheck) ?_
  rintro _ ⟨ph, l⟩ hsince
  obtain rfl : ph = .before := hsince.before
  refine Spec.seq (effort_exchange hcas (Or.inl (hsince.free ▸ Nat.one_pos))) ?_
  rintro ⟨exchanged, _⟩ _ _
  cases exchanged with
  | true => exact Spec.pure trivial
  | false => exact Spec.pure trivial

/-- A timed lock waits before every exchange but the first. -/
theorem effort_exclusiveTimedlock (hF : F.Conducts)
    (hcas : A.mayWrite .acquireWrite (.compareExchangeN 0 desired .acquire .acquire))
    (hcheck : Checks (A.shows .acquireWrite) check) (nanoseconds : BitVec 64) (lowPower : Bool) :
    Spec (A.striving .acquireWrite) (exclusiveTimedlock F check desired nanoseconds lowPower)
      (.before, .start 1) fun _ _ => True := by
  unfold exclusiveTimedlock
  refine Spec.seq (effort_check hcheck) ?_
  rintro _ ⟨ph, l⟩ hsince
  obtain rfl : ph = .before := hsince.before
  refine Spec.seq (effort_exchange hcas (Or.inl (hsince.free ▸ Nat.one_pos))) ?_
  rintro ⟨exchanged, _⟩ ⟨ph, l'⟩ ⟨rfl, -⟩
  cases exchanged with
  | true => exact Spec.pure trivial
  | false =>
    refine Spec.iter (I := fun _ y => y.1 = .before) ?_ rfl
    rintro _ ⟨ph, l⟩ rfl
    refine Spec.seq (effort_wait (hF.timeout F.toCycleScale 0 nanoseconds lowPower)
      fun v hready => hready) ?_
    rintro arrived ⟨ph, l⟩ ⟨hsince, k, hk, hlooked⟩
    obtain rfl : ph = .before := hsince.before
    cases arrived with
    | false => exact Spec.pure trivial
    | true =>
      refine Spec.seq (effort_check hcheck) ?_
      rintro _ ⟨ph, l⟩ hsince
      obtain rfl : ph = .before := hsince.before
      refine Spec.seq (effort_exchange hcas (Or.inr (hsince.looked (hlooked 0 (hk rfl))))) ?_
      rintro ⟨exchanged, _⟩ ⟨ph, l⟩ ⟨rfl, -⟩
      cases exchanged with
      | true => exact Spec.pure trivial
      | false => exact Spec.pure rfl

/-- A release has none. -/
theorem effort_exclusiveUnlock (hcheck : Checks (A.shows .releaseWrite) check)
    (hunlock : Checks (A.shows .releaseWrite) unlockCheck) :
    Spec (A.striving .releaseWrite) (exclusiveUnlock check unlockCheck) (.before, .start 0)
      fun _ _ => True := by
  unfold exclusiveUnlock
  refine Spec.seq (effort_check hcheck) ?_
  rintro _ ⟨ph, l⟩ hsince
  obtain rfl : ph = .before := hsince.before
  refine Spec.seq (effort_check hunlock) ?_
  rintro _ ⟨ph, l⟩ hsince
  obtain rfl : ph = .before := hsince.before
  exact spec_act ⟨⟨rfl, Or.inr rfl⟩, trivial⟩ fun _ _ _ => trivial

end

end

/-! ## The read side -/

section
variable (debug : Bool) {F : Features}

/-- Two free attempts: 0, and what the first exchange saw without the top bit. -/
theorem effort_rwlockRdlock (hF : F.Conducts) (lowPower : Bool) :
    Spec (rwlockApi.striving .acquireRead) (rwlockRdlock debug F lowPower) (.before, .start 2)
      fun _ _ => True := by
  unfold rwlockRdlock
  refine Spec.seq (effort_check (checks_rwlock debug _)) ?_
  rintro _ ⟨ph, l⟩ hsince
  obtain rfl : ph = .before := hsince.before
  have htwo : l.free = 2 := hsince.free
  refine Spec.seq (effort_exchange (rwlockApi_mayIncrement (by decide)) (Or.inl (by omega))) ?_
  rintro ⟨exchanged, seen⟩ ⟨ph, l'⟩ ⟨rfl, hone⟩
  have hone' : l'.free = l.free - 1 := hone
  cases exchanged with
  | true => exact Spec.pure trivial
  | false =>
    refine Spec.seq (effort_exchange (rwlockApi_mayIncrement (toNat_and_not_top_lt seen))
      (Or.inl (by omega))) ?_
    rintro ⟨exchanged, _⟩ ⟨ph, l⟩ ⟨rfl, -⟩
    cases exchanged with
    | true => exact Spec.pure trivial
    | false =>
      refine Spec.iter (I := fun _ y => y.1 = .before) ?_ rfl
      rintro _ ⟨ph, l⟩ rfl
      refine Spec.seq (effort_wait (hF.bitNotSet 31 lowPower)
        fun v hready => (bitAt_top_eq_zero_iff v).mpr hready) ?_
      rintro e ⟨ph, l⟩ ⟨hsince, k, ⟨hk, hbit⟩, hlooked⟩
      obtain rfl : ph = .before := hsince.before
      have he : e.toNat < 2 ^ 31 := (bitAt_top_eq_zero_iff e).mp hbit
      refine Spec.seq (effort_check (checks_sanityCheckRdwrlockValue debug (Or.inr he))) ?_
      rintro _ ⟨ph, l⟩ hvalue
      obtain rfl : ph = .before := hvalue.before
      refine Spec.seq (effort_check (checks_sanityCheckRdwrlockReadReadyValue debug he)) ?_
      rintro _ ⟨ph, l⟩ hready
      obtain rfl : ph = .before := hready.before
      refine Spec.seq (effort_exchange (rwlockApi_mayIncrement he)
        (Or.inr (hready.looked (hvalue.looked (hlooked e hk))))) ?_
      rintro ⟨exchanged, _⟩ ⟨ph, l⟩ ⟨rfl, -⟩
      cases exchanged with
      | true => exact Spec.pure trivial
      | false => exact Spec.pure rfl

/-- One free attempt: what the load saw without the top bit. -/
theorem effort_rwlockTrylockShared :
    Spec (rwlockApi.striving .acquireRead) (rwlockTrylockShared debug) (.before, .start 1)
      fun _ _ => True := by
  unfold rwlockTrylockShared
  refine Spec.seq (effort_check (checks_rwlock debug _)) ?_
  rintro _ ⟨ph, l⟩ hsince
  obtain rfl : ph = .before := hsince.before
  refine Spec.seq (effort_load .acquire) ?_
  rintro seen ⟨ph, l'⟩ ⟨hload, -, -⟩
  obtain rfl : ph = .before := hload.before
  have hone : l'.free = 1 := hload.free.trans hsince.free
  refine Spec.seq (effort_exchange (rwlockApi_mayIncrement (toNat_and_not_top_lt seen))
    (Or.inl (hone ▸ Nat.one_pos))) ?_
  rintro ⟨exchanged, _⟩ _ _
  cases exchanged with
  | true => exact Spec.pure trivial
  | false => exact Spec.pure trivial

theorem effort_rwlockReadUnlock :
    Spec (rwlockApi.striving .releaseRead) (rwlockReadUnlock debug) (.before, .start 0)
      fun _ _ => True := by
  unfold rwlockReadUnlock
  refine Spec.seq (effort_check (checks_rwlock debug _)) ?_
  rintro _ ⟨ph, l⟩ hsince
  obtain rfl : ph = .before := hsince.before
  refine Spec.seq (effort_check (A := rwlockApi) (x := .releaseRead)
    (checks_sanityCheckRdwrlockUnlockSharedMutex debug fun _ hv => hv)) ?_
  rintro _ ⟨ph, l⟩ hsince
  obtain rfl : ph = .before := hsince.before
  refine Spec.seq (Q := fun _ _ => True)
    (spec_act ⟨⟨rfl, Or.inr rfl⟩, trivial⟩ fun _ _ _ => trivial) ?_
  intro _ _ _
  exact Spec.pure trivial

end

/-! ## All calls -/

/-- The exchanges that a call makes before it has waited. -/
def LockCall.attempts : LockCall → Nat
  | .lock _ | .trylock | .timedlock _ _ => 1
  | .unlock => 0

@[inherit_doc LockCall.attempts]
def RwlockCall.attempts : RwlockCall → Nat
  | .rdlock _ => 2
  | .wrlock _ | .timedwrlock _ _ | .trylock | .trylockShared => 1
  | .unlock | .readUnlock => 0

theorem effort_returning {P : Proto (atomics 32) (Phase × Effort)} {p : Prog (atomics 32) Unit}
    {y : Phase × Effort} (h : Spec P p y fun _ _ => True) :
    Spec P (returning p) y fun _ _ => True :=
  Spec.seq h fun _ _ _ => Spec.pure trivial

section
variable (P : Platform) (debug : Bool)

/-- All functions of a mutex strive. -/
theorem mutexApi_strives :
    mutexApi.Strives LockCall.attempts (LockCall.prog debug P.features) := by
  intro c
  have hcheck : Checks (mutexApi.shows (mutexApi.act c)) (sanityCheckWrlockMutex debug) :=
    checks_sanityCheckWrlockMutex debug (mutexApi_shows c)
  refine (mutexApi_conforms debug P c).beside ?_
  cases c with
  | lock lowPower =>
    exact effort_returning
      (effort_exclusiveLock P.conducts mutexApi_mayExchange hcheck lowPower)
  | trylock => exact effort_exclusiveTrylock mutexApi_mayExchange hcheck
  | timedlock nanoseconds lowPower =>
    exact effort_exclusiveTimedlock P.conducts mutexApi_mayExchange hcheck nanoseconds lowPower
  | unlock =>
    exact effort_returning (effort_exclusiveUnlock hcheck
      (checks_sanityCheckWrlockUnlockMutex debug fun _ hv => hv))

/-- All functions of a readers/writer lock strive. -/
theorem rwlockApi_strives :
    rwlockApi.Strives RwlockCall.attempts (RwlockCall.prog debug P.features) := by
  intro c
  have hcheck := checks_rwlock debug (rwlockApi.act c)
  refine (rwlockApi_conforms debug P c).beside ?_
  cases c with
  | rdlock lowPower => exact effort_returning (effort_rwlockRdlock debug P.conducts lowPower)
  | wrlock lowPower =>
    exact effort_returning
      (effort_exclusiveLock P.conducts rwlockApi_mayExchange hcheck lowPower)
  | timedwrlock nanoseconds lowPower =>
    exact effort_exclusiveTimedlock P.conducts rwlockApi_mayExchange hcheck nanoseconds lowPower
  | trylock => exact effort_exclusiveTrylock rwlockApi_mayExchange hcheck
  | trylockShared => exact effort_rwlockTrylockShared debug
  | unlock =>
    exact effort_returning (effort_exclusiveUnlock hcheck
      (checks_sanityCheckRdwrlockUnlockMutex debug fun _ hv => hv))
  | readUnlock => exact effort_returning (effort_rwlockReadUnlock debug)

end

/-! ## The outline of a lock that strives -/

section
variable {Call Tid : Type} [DecidableEq Tid] {A : LockApi Call}
  {prog : Call → Prog (atomics 32) Bool} {attempts : Call → Nat}

variable (Tid) in
/-- The outline of a conforming lock that remembers the effort of every call. -/
def LockApi.strivingOutline (hconf : A.Conforms prog) (hstrive : A.Strives attempts prog) :
    Outline (A.world Tid) prog A.Room (Phase × Effort) :=
  (LockApi.outline hconf).beside (fun c => effort (A.Ready (A.act c)))
    (fun c => .start (attempts c)) (fun _ _ _ => True) hstrive

end

end WfeMutex
