/-
  HOW THE FUNCTIONS KEEP THE PROTOCOL of their lock, and what the debug checks add to them.

  A function of a lock is made of four kinds of steps: checks (`Checks`: finitely many loads of
  their own, and no error for the words the lock can show), waits, which only look at the word
  (`LockApi.spec_look`: any proof under `reads` is one under the protocol), exchanges
  (`LockApi.spec_exchange`), and the write of a release.

  Each function is compared with the same function without checks (`Erase`): one proof gives both
  that it keeps the protocol (`LockApi.Erases.conforms`) and that the checks cost nothing but their
  loads.  The functions that `wfe_mutex_lock` shares with the write side of `wfe_mutex_rwlock` are
  treated here, for any value they exchange 0 for, any checks, and any table whose waits are
  `WaitsOk`.
-/
import WfeMutex.Conc.Erase
import WfeMutex.Lock.Api
import WfeMutex.Model.Mutex

set_option linter.unusedVariables false

namespace WfeMutex

open Conc

/-- The operation the checks make: their own load of the word. -/
def IsCheck (o : Op 32) : Prop := o = .loadN .seqCst

/-- A check that reports no error while it is shown words in `V`: some loads, and it returns. -/
inductive Checks (V : BitVec 32 → Prop) : Prog (atomics 32) Unit → Prop where
  | pass : Checks V (.ret ())
  | look {k : BitVec 32 → Prog (atomics 32) Unit} : (∀ v, V v → Checks V (k v)) →
      Checks V (.op (.loadN .seqCst) k)

section
variable {Call : Type} (A : LockApi Call) {α : Type} {x : LockAct}

/-- The calls of `prog` are those of `prog'` with checks, and keep the protocol. -/
def LockApi.Erases (prog prog' : Call → Prog (atomics 32) Bool) : Prop :=
  ∀ c, Erase (A.proto (A.act c)) IsCheck (prog c) (prog' c) .before (A.ends c)

variable {A}

/-- What erases to another program conforms. -/
theorem LockApi.Erases.conforms {prog prog' : Call → Prog (atomics 32) Bool}
    (h : A.Erases prog prog') : A.Conforms prog :=
  fun c => (h c).spec

/-! ## Steps -/

/-- A check that never fails can be left out. -/
theorem Checks.erase {p : Prog (atomics 32) Unit} (h : Checks (A.shows x) p) :
    Erase (A.proto x) IsCheck p (pure ()) .before fun _ ph => ph = .before := by
  induction h with
  | pass => exact Erase.ret rfl
  | look _ ih =>
    refine Erase.into (.drop rfl ⟨rfl, Or.inl rfl⟩ fun v ph hpost => ?_)
    obtain ⟨rfl, hsees⟩ := hpost
    exact ih v (hsees v rfl)

/-- A check only looks at the word. -/
theorem Checks.reads {V : BitVec 32 → Prop} {p : Prog (atomics 32) Unit} (h : Checks V p) :
    Spec (WfeMutex.reads V) p () fun _ _ => True := by
  induction h with
  | pass => exact Spec.ret trivial
  | look _ ih => exact Spec.op rfl fun v _ hsees => ih v (hsees v rfl)

/-- A part that only looks at the word. -/
theorem LockApi.spec_look {p : Prog (atomics 32) α} {Q : α → Unit → Prop}
    (h : Spec (reads (A.shows x)) p () Q) :
    Spec (A.proto x) p .before fun a ph => ph = .before ∧ Q a () := by
  refine (Spec.embed (R := fun _ ph => ph = Phase.before) ?_ ?_ h rfl).mono ?_
  · rintro l ph o rfl hquiet
    exact ⟨rfl, Or.inl hquiet⟩
  · rintro l ph o a ph' rfl hquiet ⟨rfl, hsees⟩
    refine ⟨(), hsees, ?_⟩
    rw [Op.writes_of_quiet hquiet a]
    rfl
  · rintro a ph ⟨_, hph, hQ⟩
    exact ⟨hph, hQ⟩

/-- An exchange the act allows: the call is after its write exactly if it happened. -/
theorem LockApi.spec_exchange {e d : BitVec 32}
    (h : A.mayWrite x (.compareExchangeN e d .acquire .acquire)) :
    Spec (A.proto x) (atomicCompareExchangeN e d .acquire .acquire) .before
      fun a ph => ph = if a.1 then .after else .before :=
  spec_act ⟨rfl, Or.inr h⟩ fun a ph hpost => hpost.1

theorem LockApi.erase_look {p : Prog (atomics 32) α} {Q : α → Unit → Prop}
    (h : Spec (reads (A.shows x)) p () Q) :
    Erase (A.proto x) IsCheck p p .before fun a ph => ph = .before ∧ Q a () :=
  Erase.refl (LockApi.spec_look h)

theorem LockApi.erase_exchange {e d : BitVec 32}
    (h : A.mayWrite x (.compareExchangeN e d .acquire .acquire)) :
    Erase (A.proto x) IsCheck (atomicCompareExchangeN e d .acquire .acquire)
      (atomicCompareExchangeN e d .acquire .acquire) .before
      fun a ph => ph = if a.1 then .after else .before :=
  Erase.refl (LockApi.spec_exchange h)

/-- The body of a `void` function, as a call. -/
theorem LockApi.erase_returning {p q : Prog (atomics 32) Unit} {ph ph' : Phase}
    (h : Erase (A.proto x) IsCheck p q ph fun _ l => l = ph') :
    Erase (A.proto x) IsCheck (returning p) (returning q) ph fun r l => r = true ∧ l = ph' :=
  Erase.seq h fun _ _ hl => Erase.pure ⟨rfl, hl⟩

/-! ## The functions of exclusive acquisition -/

section
variable {check unlockCheck : Prog (atomics 32) Unit} {desired : BitVec 32} {F : Features}

/-- Locking without its checks. -/
theorem LockApi.erase_exclusiveLock (hF : F.WaitsOk)
    (hcas : A.mayWrite x (.compareExchangeN 0 desired .acquire .acquire))
    (hcheck : Checks (A.shows x) check) (lowPower : Bool) :
    Erase (A.proto x) IsCheck (exclusiveLock F check desired lowPower)
      (exclusiveLock F (pure ()) desired lowPower) .before fun _ ph => ph = .after := by
  unfold exclusiveLock
  refine Erase.seq hcheck.erase ?_
  rintro _ _ rfl
  refine Erase.seq (LockApi.erase_exchange hcas) ?_
  rintro ⟨exchanged, _⟩ _ rfl
  cases exchanged with
  | true => exact Erase.pure rfl
  | false =>
    refine Erase.iter (I := fun _ ph => ph = .before) ?_ rfl
    rintro _ _ rfl
    refine Erase.seq (LockApi.erase_look (hF.value _ 0 lowPower)) ?_
    rintro _ _ ⟨rfl, -⟩
    refine Erase.seq hcheck.erase ?_
    rintro _ _ rfl
    refine Erase.seq (LockApi.erase_exchange hcas) ?_
    rintro ⟨exchanged, _⟩ _ rfl
    cases exchanged with
    | true => exact Erase.pure rfl
    | false => exact Erase.pure rfl

theorem LockApi.erase_exclusiveTrylock
    (hcas : A.mayWrite x (.compareExchangeN 0 desired .acquire .acquire))
    (hcheck : Checks (A.shows x) check) :
    Erase (A.proto x) IsCheck (exclusiveTrylock check desired)
      (exclusiveTrylock (pure ()) desired) .before
      fun r ph => ph = if r then .after else .before := by
  unfold exclusiveTrylock
  refine Erase.seq hcheck.erase ?_
  rintro _ _ rfl
  refine Erase.seq (LockApi.erase_exchange hcas) ?_
  rintro ⟨exchanged, _⟩ _ rfl
  cases exchanged with
  | true => exact Erase.pure rfl
  | false => exact Erase.pure rfl

theorem LockApi.erase_exclusiveTimedlock (hF : F.WaitsOk)
    (hcas : A.mayWrite x (.compareExchangeN 0 desired .acquire .acquire))
    (hcheck : Checks (A.shows x) check) (nanoseconds : BitVec 64) (lowPower : Bool) :
    Erase (A.proto x) IsCheck (exclusiveTimedlock F check desired nanoseconds lowPower)
      (exclusiveTimedlock F (pure ()) desired nanoseconds lowPower) .before
      fun r ph => ph = if r then .after else .before := by
  unfold exclusiveTimedlock
  refine Erase.seq hcheck.erase ?_
  rintro _ _ rfl
  refine Erase.seq (LockApi.erase_exchange hcas) ?_
  rintro ⟨exchanged, _⟩ _ rfl
  cases exchanged with
  | true => exact Erase.pure rfl
  | false =>
    refine Erase.iter (I := fun _ ph => ph = .before) ?_ rfl
    rintro _ _ rfl
    refine Erase.seq (LockApi.erase_look (hF.timeout _ _ 0 nanoseconds lowPower)) ?_
    rintro arrived _ ⟨rfl, -⟩
    cases arrived with
    | false => exact Erase.pure rfl
    | true =>
      refine Erase.seq hcheck.erase ?_
      rintro _ _ rfl
      refine Erase.seq (LockApi.erase_exchange hcas) ?_
      rintro ⟨exchanged, _⟩ _ rfl
      cases exchanged with
      | true => exact Erase.pure rfl
      | false => exact Erase.pure rfl

theorem LockApi.erase_exclusiveUnlock (hcheck : Checks (A.shows .releaseWrite) check)
    (hunlock : Checks (A.shows .releaseWrite) unlockCheck) :
    Erase (A.proto .releaseWrite) IsCheck (exclusiveUnlock check unlockCheck)
      (exclusiveUnlock (pure ()) (pure ())) .before fun _ ph => ph = .after := by
  unfold exclusiveUnlock
  refine Erase.seq hcheck.erase ?_
  rintro _ _ rfl
  refine Erase.seq hunlock.erase ?_
  rintro _ _ rfl
  exact Erase.refl (spec_act ⟨rfl, Or.inr rfl⟩ fun _ _ hpost => hpost.1)

end

/-! ## What a call's end says -/

/-- A call of a `void` function that ends after its write. -/
theorem LockApi.ends_void {c : Call} {r : Bool} {ph : Phase} (h : r = true ∧ ph = .after) :
    A.ends c r ph :=
  ⟨iff_of_true h.1 h.2, fun _ => h.1⟩

/-- A call that reports whether it has written. -/
theorem LockApi.ends_report {c : Call} (hvoid : A.void c = false) {r : Bool} {ph : Phase}
    (h : ph = if r then .after else .before) : A.ends c r ph := by
  subst h
  refine ⟨?_, fun hc => ?_⟩
  · cases r <;> decide
  · rw [hvoid] at hc
    cases hc

end

end WfeMutex
