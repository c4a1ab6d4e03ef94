/-
  A CALL LEFT ALONE GETS THROUGH, from wherever the others left it.

  `Lock.Solo` starts a call on a quiet lock.  Here the thread is somewhere inside its call, after
  any number of failed exchanges, wake-ups and looks at words that are gone: with a stale expected
  value in hand, about to sleep, half-way through its check.  If the lock then permits what the
  call is after and the others take no further step, the call returns within forty of its own
  steps; a `void` one has done its act.  A call past its write returns whatever the lock.

  So the only thing that can keep a thread inside a call is that others hold the lock or keep
  changing the word: "once all readers are unlocked, a waiting write-lock will continue" (USAGE).
  The argument is `Conc.Settle` with the waits of `Wait.Arrival`: a retry loop may lose one more
  exchange to its stale value; the round after that sees the word as it is.
-/
import WfeMutex.Lock.Pairing
import WfeMutex.Lock.Solo
import WfeMutex.Wait.Table

set_option linter.unusedVariables false

namespace WfeMutex

open Conc

/-! ## The waits of a table -/

/-- The 32-bit waits that the locks use settle. -/
structure Features.Settle (F : Features) : Prop where
  value : ∀ value lowPower,
    Settles (awaiting (· = value)) 15 (F.waitForValueI32 value lowPower) () fun _ _ => True
  timeout : ∀ value nanoseconds lowPower, cyclesForNanoseconds F.toCycleScale nanoseconds ≠ none →
    Settles (awaiting (· = value)) 15
      (F.waitForValueTimeoutI32 F.toCycleScale value nanoseconds lowPower) () fun _ _ => True
  bitNotSet : ∀ bit lowPower,
    Settles (awaiting fun v => bitAt v bit = 0) 15 (F.waitForBitNotSetI32 bit lowPower) ()
      fun _ _ => True

/-- The untimed waits a table can name settle. -/
theorem WaitType.untimed_settle (t : WaitType) (w : Nat) : (t.untimed w).Settle := by
  cases t with
  | spin => exact spinloopWaits_settle
  | wfe | wfet => exact Backend.wfe.untimedWaits_settle
  | waitpkg => exact Backend.waitpkg.untimedWaits_settle
  | monitorx => exact Backend.mwaitx.untimedWaits_settle

/-- Those of every table. -/
theorem Platform.settle (P : Platform) : P.features.Settle := by
  have h32 := P.coherent.i32
  have huntimed := P.features.waitType.untimed_settle 32
  rw [WaitType.table] at h32
  constructor
  · have hvalue : P.features.waitForValueI32 = (P.features.waitType.untimed 32).waitForValue :=
      congrArg (fun T : WaitTable 32 => T.waitForValue) h32
    rw [hvalue]
    exact huntimed.value
  · intro value nanoseconds lowPower hconv
    have htimed : P.features.waitForValueTimeoutI32 =
        (P.features.waitTypeTimeout.timed 32).run :=
      congrArg (fun T : WaitTable 32 => T.waitForValueTimeout) h32
    rw [htimed]
    exact settles_timed _ value hconv lowPower
  · have hbit : P.features.waitForBitNotSetI32 =
        (P.features.waitType.untimed 32).waitForBitNotSet :=
      congrArg (fun T : WaitTable 32 => T.waitForBitNotSet) h32
    rw [hbit]
    exact huntimed.bitNotSet

/-- A divisor other than zero is all the conversion needs. -/
theorem CycleScale.converts {F : CycleScale} (h : F.cyclesPerNanosecondDivisor ≠ 0)
    (nanoseconds : BitVec 64) : cyclesForNanoseconds F nanoseconds ≠ none := by
  unfold cyclesForNanoseconds
  rw [if_neg h]
  exact Option.some_ne_none _

/-! ## The setting of a call -/

section
variable {Call : Type} (A : LockApi Call) (x : LockAct)

/-- The word lets a call of act `x` do its act. -/
def LockApi.Ready (v : BitVec 32) : Prop :=
  match x with
  | .acquireRead => v.toNat < A.cap
  | .acquireWrite => v = 0
  | .releaseRead | .releaseWrite => True

/-- A call of act `x` among others, until it is left alone with a word that is ready, or after its
    write. -/
def LockApi.leaving : Setting (atomics 32) Phase (BitVec 32) where
  proto := A.proto x
  alone o a v v' := Effect v o a v'
  good ph v := ph = .before → A.shows x v ∧ A.Ready x v
  covers := by
    rintro ph v o a v' hgood ⟨rfl, hpre⟩ heff
    obtain ⟨hshows, hready⟩ := hgood rfl
    refine ⟨_, ⟨rfl, fun u hu => heff.sees hu ▸ hshows⟩, ?_⟩
    cases ha : o.writes a with
    | false =>
      rw [heff.eq_of_not_writes ha]
      exact fun _ => ⟨hshows, hready⟩
    | true =>
      rw [if_pos rfl]
      exact fun h => by cases h

variable {A x}

/-! ### Steps -/

theorem leaving_exchange {e d : BitVec 32}
    (h : A.mayWrite x (.compareExchangeN e d .acquire .acquire)) :
    Settles (A.leaving x) 1 (atomicCompareExchangeN e d .acquire .acquire) .before
      fun a ph => ph = if a.1 then .after else .before := by
  refine Settles.perform (C := A.leaving x) ⟨rfl, Or.inr h⟩ ?_ fun a ph hpost => hpost.1
  intro v _
  by_cases hv : v = e
  · exact ⟨_, _, Effect.exchange_of_eq hv⟩
  · exact ⟨_, _, .differs d _ _ hv⟩

/-- A wait for something that holds of every ready word. -/
theorem leaving_wait {α : Type} {cond : BitVec 32 → Prop} {n : Nat} {p : Prog (atomics 32) α}
    {Q : α → Unit → Prop} (h : Settles (awaiting cond) n p () fun _ _ => True)
    (hcond : ∀ v, A.shows x v → A.Ready x v → cond v) (hQ : Spec (reads (A.shows x)) p () Q) :
    Settles (A.leaving x) n p .before fun a ph => ph = .before ∧ Q a () := by
  have hleaving : Settles (A.leaving x) n p .before
      fun a ph => ∃ _ : Unit, ph = .before ∧ True := by
    refine Settles.embed (C := awaiting cond) (E := fun _ ph => ph = Phase.before) rfl ?_ ?_ ?_ h
      rfl
    · rintro _ _ v rfl hgood
      obtain ⟨hshows, hready⟩ := hgood rfl
      exact hcond v hshows hready
    · rintro _ _ o rfl hquiet
      exact ⟨rfl, Or.inl hquiet⟩
    · rintro _ _ o a ph' rfl hquiet ⟨rfl, hsees⟩
      refine ⟨(), fun _ _ => trivial, ?_⟩
      rw [Op.writes_of_quiet hquiet a]
      rfl
  exact (hleaving.both (LockApi.spec_look hQ)).mono (Nat.le_refl n) fun _ _ h => h.2

/-- A check of at most one look. -/
inductive OneLook (V : BitVec 32 → Prop) : Prog (atomics 32) Unit → Prop where
  | pass : OneLook V (.ret ())
  | look {k : BitVec 32 → Prog (atomics 32) Unit} : (∀ v, V v → k v = .ret ()) →
      OneLook V (.op (.loadN .seqCst) k)

/-- A check is one step, and leaves the call where it was. -/
theorem OneLook.settles {p : Prog (atomics 32) Unit} (h : OneLook (A.shows x) p) :
    Settles (A.leaving x) 1 p .before fun _ ph => ph = .before := by
  cases h with
  | pass => exact Settles.ret rfl
  | @look k hk =>
    have hload : Settles (A.leaving x) 1 (atomicLoadN .seqCst) .before
        fun v ph => ph = .before ∧ A.shows x v := by
      refine Settles.perform (C := A.leaving x) (o := .loadN .seqCst) ⟨rfl, Or.inl rfl⟩ ?_ ?_
      · intro v _
        exact ⟨v, v, .loadN v _⟩
      · rintro v ph ⟨hph, hsees⟩
        exact ⟨hph, hsees v rfl⟩
    refine (hload.bind (k := 0) (f := k) ?_).mono (Nat.le_refl 1) fun _ _ h => h
    rintro v _ ⟨rfl, hv⟩
    rw [hk v hv]
    exact Settles.ret rfl

/-! ### Exclusive acquisition -/

section
variable {check unlockCheck : Prog (atomics 32) Unit} {desired : BitVec 32} {F : Features}

/-- A free word is ready for an exclusive acquisition, and no other is. -/
theorem leaving_good_iff {v : BitVec 32} :
    (A.leaving .acquireWrite).good .before v ↔ v = 0 := by
  constructor
  · intro hgood
    exact (hgood rfl).2
  · rintro rfl _
    exact ⟨Or.inr A.cap_pos, rfl⟩

/-- Alone, what a step in phase `before` leaves of a free word is the free word. -/
theorem leaving_stays {α : Type} {n : Nat} {p : Prog (atomics 32) α} {R : α → Prop}
    (h : Settles (A.leaving .acquireWrite) n p .before fun a ph => ph = .before ∧ R a) :
    Within (A.leaving .acquireWrite).alone (fun a v => R a ∧ v = 0) n p 0 := by
  have hwithin := h.within (leaving_good_iff.mpr rfl)
  refine hwithin.post ?_
  rintro a v ⟨_, ⟨rfl, hR⟩, hgood⟩
  exact ⟨hR, leaving_good_iff.mp hgood⟩

/-- **Locking** gets through once the word is 0: the wait arrives, and the exchange is not lost. -/
theorem leaving_exclusiveLock (hF : F.WaitsOk) (hset : F.Settle)
    (hcheck : OneLook (A.shows .acquireWrite) check)
    (hcas : A.mayWrite .acquireWrite (.compareExchangeN 0 desired .acquire .acquire))
    (lowPower : Bool) :
    Settles (A.leaving .acquireWrite) 40 (exclusiveLock F check desired lowPower) .before
      fun _ ph => ph = .after := by
  have hwait := leaving_wait (hset.value 0 lowPower)
    (fun v (_ : A.shows .acquireWrite v) hready => hready) (hF.value _ 0 lowPower)
  have hlook : Settles (A.leaving .acquireWrite) 1 check .before
      fun _ ph => ph = .before ∧ True :=
    hcheck.settles.mono (Nat.le_refl 1) fun _ _ h => ⟨h, trivial⟩
  unfold exclusiveLock
  refine (Settles.seq (n := 1) (k := 1 + (17 + 18)) hlook ?_).mono (by omega) fun _ _ h => h
  rintro _ _ ⟨rfl, -⟩
  refine Settles.seq (leaving_exchange hcas) ?_
  rintro ⟨exchanged, _⟩ _ rfl
  cases exchanged with
  | true => exact Settles.pure rfl
  | false =>
    refine Settles.iter (I := fun _ ph => ph = .before) ?_ ?_ rfl
    · rintro _ _ rfl
      refine Settles.seq (n := 15) (k := 1 + (1 + 0)) hwait ?_
      rintro _ _ ⟨rfl, -⟩
      refine Settles.seq hlook ?_
      rintro _ _ ⟨rfl, -⟩
      refine Settles.seq (leaving_exchange hcas) ?_
      rintro ⟨exchanged, _⟩ _ rfl
      cases exchanged with
      | true => exact Settles.pure rfl
      | false => exact Settles.pure rfl
    · rintro _ _ rfl v hgood
      obtain rfl := leaving_good_iff.mp hgood
      refine Within.iter (n := 15 + (1 + (1 + 0))) (k := 0) ?_
      refine Within.seq (leaving_stays hwait) ?_
      rintro _ _ ⟨-, rfl⟩
      refine Within.seq (leaving_stays hlook) ?_
      rintro _ _ ⟨-, rfl⟩
      refine Within.seq (within_exchange rfl) ?_
      rintro ⟨exchanged, _⟩ _ rfl
      exact Within.pure trivial

/-- An attempt has no loop. -/
theorem leaving_exclusiveTrylock (hcheck : OneLook (A.shows .acquireWrite) check)
    (hcas : A.mayWrite .acquireWrite (.compareExchangeN 0 desired .acquire .acquire)) :
    Settles (A.leaving .acquireWrite) 40 (exclusiveTrylock check desired) .before
      fun _ _ => True := by
  unfold exclusiveTrylock
  refine (Settles.seq (n := 1) (k := 1 + 0) hcheck.settles ?_).mono (by omega) fun _ _ h => h
  rintro _ _ rfl
  refine Settles.seq (leaving_exchange hcas) ?_
  rintro ⟨exchanged, _⟩ _ rfl
  cases exchanged with
  | true => exact Settles.pure trivial
  | false => exact Settles.pure trivial

/-- The rounds of a timed call may also end by its wait. -/
theorem leaving_exclusiveTimedlock (hF : F.WaitsOk) (hset : F.Settle)
    (hcheck : OneLook (A.shows .acquireWrite) check)
    (hcas : A.mayWrite .acquireWrite (.compareExchangeN 0 desired .acquire .acquire))
    {nanoseconds : BitVec 64} (hconv : cyclesForNanoseconds F.toCycleScale nanoseconds ≠ none)
    (lowPower : Bool) :
    Settles (A.leaving .acquireWrite) 40 (exclusiveTimedlock F check desired nanoseconds lowPower)
      .before fun _ _ => True := by
  have hwait := leaving_wait (hset.timeout 0 nanoseconds lowPower hconv)
    (fun v (_ : A.shows .acquireWrite v) hready => hready)
    (hF.timeout _ F.toCycleScale 0 nanoseconds lowPower)
  have hlook : Settles (A.leaving .acquireWrite) 1 check .before
      fun _ ph => ph = .before ∧ True :=
    hcheck.settles.mono (Nat.le_refl 1) fun _ _ h => ⟨h, trivial⟩
  unfold exclusiveTimedlock
  refine (Settles.seq (n := 1) (k := 1 + (17 + 18)) hlook ?_).mono (by omega) fun _ _ h => h
  rintro _ _ ⟨rfl, -⟩
  refine Settles.seq (leaving_exchange hcas) ?_
  rintro ⟨exchanged, _⟩ _ rfl
  cases exchanged with
  | true => exact Settles.pure trivial
  | false =>
    refine Settles.iter (I := fun _ ph => ph = .before) ?_ ?_ rfl
    · rintro _ _ rfl
      refine Settles.seq (n := 15) (k := 1 + (1 + 0)) hwait ?_
      rintro arrived _ ⟨rfl, -⟩
      cases arrived with
      | false => exact Settles.pure trivial
      | true =>
        refine Settles.seq hlook ?_
        rintro _ _ ⟨rfl, -⟩
        refine Settles.seq (leaving_exchange hcas) ?_
        rintro ⟨exchanged, _⟩ _ rfl
        cases exchanged with
        | true => exact Settles.pure trivial
        | false => exact Settles.pure rfl
    · rintro _ _ rfl v hgood
      obtain rfl := leaving_good_iff.mp hgood
      refine Within.iter (n := 15 + (1 + (1 + 0))) (k := 0) ?_
      refine Within.seq (leaving_stays hwait) ?_
      rintro arrived _ ⟨-, rfl⟩
      cases arrived with
      | false => exact Within.pure trivial
      | true =>
        refine Within.seq (leaving_stays hlook) ?_
        rintro _ _ ⟨-, rfl⟩
        refine Within.seq (within_exchange rfl) ?_
        rintro ⟨exchanged, _⟩ _ rfl
        exact Within.pure trivial

/-- Nor has a release. -/
theorem leaving_exclusiveUnlock (hcheck : OneLook (A.shows .releaseWrite) check)
    (hunlock : OneLook (A.shows .releaseWrite) unlockCheck) :
    Settles (A.leaving .releaseWrite) 40 (exclusiveUnlock check unlockCheck) .before
      fun _ _ => True := by
  unfold exclusiveUnlock
  refine (Settles.seq (n := 1) (k := 1 + 1) hcheck.settles ?_).mono (by omega) fun _ _ h => h
  rintro _ _ rfl
  refine Settles.seq hunlock.settles ?_
  rintro _ _ rfl
  refine Settles.perform (C := A.leaving .releaseWrite) (o := .storeN 0 .release)
    ⟨rfl, Or.inr rfl⟩ ?_ fun _ _ _ => trivial
  intro v _
  exact ⟨(), 0, .storeN v 0 _⟩

end

end

/-! ## The checks -/

section
variable {V : BitVec 32 → Prop} (debug : Bool)

theorem sanityCheckRdwrlockReadReadyValue_eq {v : BitVec 32} (hv : v.toNat < 2 ^ 31) :
    sanityCheckRdwrlockReadReadyValue debug v = pure () := by
  unfold sanityCheckRdwrlockReadReadyValue
  have hand : v &&& TOP_BIT = 0 := (and_top_eq_zero_iff v).mpr hv
  cases debug with
  | false => rfl
  | true =>
    simp only [hand]
    rfl

theorem oneLook_sanityCheckWrlockMutex (hV : ∀ v, V v → v = 0 ∨ v = 1) :
    OneLook V (sanityCheckWrlockMutex debug) := by
  cases debug with
  | false => exact .pass
  | true =>
    refine .look fun v hv => ?_
    rcases hV v hv with rfl | rfl <;> rfl

theorem oneLook_sanityCheckWrlockUnlockMutex (hV : ∀ v, V v → v = 1) :
    OneLook V (sanityCheckWrlockUnlockMutex debug) := by
  cases debug with
  | false => exact .pass
  | true =>
    refine .look fun v hv => ?_
    obtain rfl := hV v hv
    rfl

theorem oneLook_sanityCheckRdwrlockMutex (hV : ∀ v, V v → v = TOP_BIT ∨ v.toNat < 2 ^ 31) :
    OneLook V (sanityCheckRdwrlockMutex debug) := by
  cases debug with
  | false => exact .pass
  | true => exact .look fun v hv => sanityCheckRdwrlockValue_eq true (hV v hv)

theorem oneLook_sanityCheckRdwrlockUnlockMutex (hV : ∀ v, V v → v = TOP_BIT) :
    OneLook V (sanityCheckRdwrlockUnlockMutex debug) := by
  cases debug with
  | false => exact .pass
  | true =>
    refine .look fun v hv => ?_
    obtain rfl := hV v hv
    rfl

theorem oneLook_sanityCheckRdwrlockUnlockSharedMutex
    (hV : ∀ v, V v → 0 < v.toNat ∧ v.toNat < 2 ^ 31) :
    OneLook V (sanityCheckRdwrlockUnlockSharedMutex debug) := by
  cases debug with
  | false => exact .pass
  | true =>
    refine .look fun v hv => ?_
    obtain ⟨hpos, hlt⟩ := hV v hv
    have hand : v &&& TOP_BIT = 0 := (and_top_eq_zero_iff v).mpr hlt
    have hne : (v &&& ~~~TOP_BIT == 0) = false := by
      rw [and_not_top_eq_self hlt, beq_eq_false_iff_ne]
      rintro rfl
      exact absurd hpos (by decide)
    simp only [Prog.bind, hand, hne]
    rfl

/-- The checks at the head of the readers/writer functions. -/
theorem oneLook_rwlock (x : LockAct) :
    OneLook (rwlockApi.shows x) (sanityCheckRdwrlockMutex debug) :=
  oneLook_sanityCheckRdwrlockMutex debug (rwlockApi_shows x)

/-- Those of the mutex functions. -/
theorem oneLook_mutex (c : LockCall) :
    OneLook (mutexApi.shows (mutexApi.act c)) (sanityCheckWrlockMutex debug) :=
  oneLook_sanityCheckWrlockMutex debug (mutexApi_shows c)

end

/-! ## The read side -/

section
variable (debug : Bool) {F : Features}

/-- The word that a wait returns when nobody changes it is that word. -/
def unchanged (v : BitVec 32) : Setting (atomics 32) Unit (BitVec 32) where
  proto := reads (· = v)
  alone o a v v' := Effect v o a v'
  good _ v' := v' = v
  covers := by
    rintro _ _ o a v' rfl hquiet heff
    exact ⟨(), fun u hu => heff.sees hu, heff.eq_of_not_writes (Op.writes_of_quiet hquiet a)⟩

/-- Alone with a word that has no writer, the reader's wait returns that word. -/
theorem alone_waitForBitNotSet (hF : F.WaitsOk) (hset : F.Settle) {v : BitVec 32}
    (hv : v.toNat < 2 ^ 31) (lowPower : Bool) :
    Within wordStep (fun r v' => r = v ∧ v' = v) 15 (F.waitForBitNotSetI32 31 lowPower) v := by
  have hwithin : Within (unchanged v).alone (fun _ _ => True) 15
      (F.waitForBitNotSetI32 31 lowPower) v :=
    (hset.bitNotSet 31 lowPower).frees v ((bitAt_top_eq_zero_iff v).mpr hv)
  refine (hwithin.spec (hF.bitNotSet (· = v) 31 lowPower) rfl).post ?_
  rintro r v' ⟨_, ⟨hr, -⟩, hv'⟩
  exact ⟨hr, hv'⟩

/-- **Locking for reading** gets through once there is no writer. -/
theorem leaving_rwlockRdlock (hF : F.WaitsOk) (hset : F.Settle) (lowPower : Bool) :
    Settles (rwlockApi.leaving .acquireRead) 40 (rwlockRdlock debug F lowPower) .before
      fun _ _ => True := by
  have hwait := leaving_wait (hset.bitNotSet 31 lowPower)
    (fun v (_ : rwlockApi.shows .acquireRead v) hready => (bitAt_top_eq_zero_iff v).mpr hready)
    (hF.bitNotSet _ 31 lowPower)
  unfold rwlockRdlock
  refine (Settles.seq (n := 1) (k := 1 + (1 + (16 + 17))) (oneLook_rwlock debug _).settles
    ?_).mono (by omega) fun _ _ h => h
  rintro _ _ rfl
  refine Settles.seq (leaving_exchange (rwlockApi_mayIncrement (by decide))) ?_
  rintro ⟨exchanged, seen⟩ _ rfl
  cases exchanged with
  | true => exact Settles.pure trivial
  | false =>
    refine Settles.seq
      (leaving_exchange (rwlockApi_mayIncrement (toNat_and_not_top_lt seen))) ?_
    rintro ⟨exchanged, _⟩ _ rfl
    cases exchanged with
    | true => exact Settles.pure trivial
    | false =>
      refine Settles.iter (I := fun _ ph => ph = .before) ?_ ?_ rfl
      · rintro _ _ rfl
        refine Settles.seq (n := 15) (k := 1 + 0) hwait ?_
        rintro e _ ⟨rfl, -, hbit⟩
        have he : e.toNat < 2 ^ 31 := (bitAt_top_eq_zero_iff e).mp hbit
        rw [sanityCheckRdwrlockValue_eq debug (Or.inr he),
          sanityCheckRdwrlockReadReadyValue_eq debug he]
        simp only [Prog.pure_bind]
        refine Settles.seq (leaving_exchange (rwlockApi_mayIncrement he)) ?_
        rintro ⟨exchanged, _⟩ _ rfl
        cases exchanged with
        | true => exact Settles.pure trivial
        | false => exact Settles.pure rfl
      · -- alone, a fresh round exchanges the very word its wait returned
        rintro _ _ rfl v hgood
        obtain ⟨-, hlt⟩ := hgood rfl
        refine Within.iter (n := 15 + (1 + 0)) (k := 0) ?_
        refine Within.seq (alone_waitForBitNotSet hF hset hlt lowPower) ?_
        rintro _ _ ⟨rfl, rfl⟩
        rw [sanityCheckRdwrlockValue_eq debug (Or.inr hlt),
          sanityCheckRdwrlockReadReadyValue_eq debug hlt]
        simp only [Prog.pure_bind]
        refine Within.seq (within_exchange rfl) ?_
        rintro ⟨exchanged, _⟩ _ rfl
        exact Within.pure trivial

theorem leaving_rwlockTrylockShared :
    Settles (rwlockApi.leaving .acquireRead) 40 (rwlockTrylockShared debug) .before
      fun _ _ => True := by
  unfold rwlockTrylockShared
  refine (Settles.seq (n := 1) (k := 1 + (1 + 0)) (oneLook_rwlock debug _).settles ?_).mono
    (by omega) fun _ _ h => h
  rintro _ _ rfl
  have hload : Settles (rwlockApi.leaving .acquireRead) 1 (atomicLoadN .acquire) .before
      fun _ ph => ph = .before := by
    refine Settles.perform (C := rwlockApi.leaving .acquireRead) (o := .loadN .acquire)
      ⟨rfl, Or.inl rfl⟩ ?_ fun v ph hpost => hpost.1
    intro v _
    exact ⟨v, v, .loadN v _⟩
  refine Settles.seq hload ?_
  rintro seen _ rfl
  refine Settles.seq (leaving_exchange (rwlockApi_mayIncrement (toNat_and_not_top_lt seen))) ?_
  rintro ⟨exchanged, _⟩ _ rfl
  cases exchanged with
  | true => exact Settles.pure trivial
  | false => exact Settles.pure trivial

theorem leaving_rwlockReadUnlock :
    Settles (rwlockApi.leaving .releaseRead) 40 (rwlockReadUnlock debug) .before
      fun _ _ => True := by
  unfold rwlockReadUnlock
  refine (Settles.seq (n := 1) (k := 1 + (1 + 0)) (oneLook_rwlock debug _).settles ?_).mono
    (by omega) fun _ _ h => h
  rintro _ _ rfl
  have hcheck := OneLook.settles (A := rwlockApi) (x := .releaseRead)
    (oneLook_sanityCheckRdwrlockUnlockSharedMutex debug fun _ hv => hv)
  refine Settles.seq hcheck ?_
  rintro _ _ rfl
  have hsub : Settles (rwlockApi.leaving .releaseRead) 1 (atomicFetchSub 1 .acquire) .before
      fun _ _ => True := by
    refine Settles.perform (C := rwlockApi.leaving .releaseRead) (o := .fetchSub 1 .acquire)
      ⟨rfl, Or.inr rfl⟩ ?_ fun _ _ _ => trivial
    intro v _
    exact ⟨v, v - 1, .fetchSub v 1 _⟩
  exact Settles.seq hsub fun _ _ _ => Settles.pure trivial

end

/-! ## All calls -/

section
variable {C : Setting (atomics 32) Phase (BitVec 32)} {n : Nat} {l : Phase}

theorem settles_returning {p : Prog (atomics 32) Unit} {R : Unit → Phase → Prop}
    (h : Settles C n p l R) : Settles C n (returning p) l fun _ _ => True :=
  Settles.seq (k := 0) h fun _ _ _ => Settles.pure trivial

end

section
variable (P : Platform) (debug : Bool)

/-- Left alone on a word that is ready, every call on a mutex is through in forty steps. -/
theorem mutexApi_settles (c : LockCall)
    (hdiv : c.timed = true → P.scale.cyclesPerNanosecondDivisor ≠ 0) :
    Settles (mutexApi.leaving (mutexApi.act c)) 40 (c.prog debug P.features) .before
      (mutexApi.ends c) := by
  have hset := P.settle
  have hcheck := oneLook_mutex debug c
  have hthrough : Settles (mutexApi.leaving (mutexApi.act c)) 40 (c.prog debug P.features) .before
      fun _ _ => True := by
    cases c with
    | lock lowPower =>
      exact settles_returning
        (leaving_exclusiveLock P.waitsOk hset hcheck mutexApi_mayExchange lowPower)
    | trylock => exact leaving_exclusiveTrylock hcheck mutexApi_mayExchange
    | timedlock nanoseconds lowPower =>
      exact leaving_exclusiveTimedlock P.waitsOk hset hcheck mutexApi_mayExchange
        (CycleScale.converts (hdiv rfl) nanoseconds) lowPower
    | unlock =>
      exact settles_returning (leaving_exclusiveUnlock hcheck
        (oneLook_sanityCheckWrlockUnlockMutex debug fun _ hv => hv))
  exact (hthrough.both (mutexApi_conforms debug P c)).mono (Nat.le_refl 40) fun _ _ h => h.2

/-- And every call on a readers/writer lock. -/
theorem rwlockApi_settles (c : RwlockCall)
    (hdiv : c.timed = true → P.scale.cyclesPerNanosecondDivisor ≠ 0) :
    Settles (rwlockApi.leaving (rwlockApi.act c)) 40 (c.prog debug P.features) .before
      (rwlockApi.ends c) := by
  have hset := P.settle
  have hcheck := oneLook_rwlock debug (rwlockApi.act c)
  have hthrough : Settles (rwlockApi.leaving (rwlockApi.act c)) 40 (c.prog debug P.features)
      .before fun _ _ => True := by
    cases c with
    | rdlock lowPower =>
      exact settles_returning (leaving_rwlockRdlock debug P.waitsOk hset lowPower)
    | wrlock lowPower =>
      exact settles_returning
        (leaving_exclusiveLock P.waitsOk hset hcheck rwlockApi_mayExchange lowPower)
    | timedwrlock nanoseconds lowPower =>
      exact leaving_exclusiveTimedlock P.waitsOk hset hcheck rwlockApi_mayExchange
        (CycleScale.converts (hdiv rfl) nanoseconds) lowPower
    | trylock => exact leaving_exclusiveTrylock hcheck rwlockApi_mayExchange
    | trylockShared => exact leaving_rwlockTrylockShared debug
    | unlock =>
      exact settles_returning (leaving_exclusiveUnlock hcheck
        (oneLook_sanityCheckRdwrlockUnlockMutex debug fun _ hv => hv))
    | readUnlock => exact settles_returning (leaving_rwlockReadUnlock debug)
  exact (hthrough.both (rwlockApi_conforms debug P c)).mono (Nat.le_refl 40) fun _ _ h => h.2

end

/-! ## In every state of every interleaving -/

section
variable {Call Tid : Type} [DecidableEq Tid] {A : LockApi Call}
  {prog : Call → Prog (atomics 32) Bool}

/-- Calls of `sure` settle; the others keep their protocol. -/
theorem LockApi.tracks (hconf : A.Conforms prog) {sure : Call → Prop}
    (hset : ∀ c, sure c → Settles (A.leaving (A.act c)) 40 (prog c) .before (A.ends c)) :
    (LockApi.outline hconf : Outline (A.world Tid) prog A.Room Phase).Tracks fun c p l =>
      Spec (A.proto (A.act c)) p l (A.ends c) ∧
        (sure c → Settles (A.leaving (A.act c)) 40 p l (A.ends c)) where
  whole c := ⟨hconf c, hset c⟩
  rest := by
    rintro c p l ⟨hspec, hsettles⟩
    cases p with
    | ret r => exact hspec.out
    | op o k =>
      obtain ⟨hpre, hk⟩ := hspec.out
      exact ⟨hpre, fun a l' hpost => ⟨hk a l' hpost, fun hc => (hsettles hc).out.2.2 a l' hpost⟩⟩
    | loop body x k => exact ⟨hspec.out, fun hc => (hsettles hc).out.2⟩

omit [DecidableEq Tid] in
/-- An act that the lock permits finds a word that is ready for it. -/
theorem LockApi.Encodes.ready {word : BitVec 32} {a : RWLock Tid} {t : Tid} {x : LockAct}
    (h : A.Encodes word a) (hroom : a.readers.card < A.cap) (hperm : x.permitted t a) :
    A.Ready x word := by
  cases x with
  | acquireRead =>
    have hfree : a.writer = none := hperm
    show word.toNat < A.cap
    rw [h.of_free hfree]
    exact hroom
  | acquireWrite =>
    have hfree : a.writer = none ∧ a.readers = 0 := hperm
    have hword := h.of_free hfree.1
    rw [hfree.2] at hword
    exact BitVec.eq_of_toNat_eq hword
  | releaseRead => trivial
  | releaseWrite => trivial

/-- Thread `t` lacks nothing: its call has done its act, or gives a hold back, or is permitted to
    take one. -/
def LockApi.Permits (A : LockApi Call) (s : Pool (A.world Tid)) (t : Tid) (c : Call) : Prop :=
  (A.act c).gives = false → s.mem.wrote t = 0 → (A.act c).permitted t s.mem.abs

/-- **Left alone**, what is left of a call that lacks nothing is through in forty steps. -/
theorem LockApi.within_of_permits (hconf : A.Conforms prog) {sure : Call → Prop}
    (hset : ∀ c, sure c → Settles (A.leaving (A.act c)) 40 (prog c) .before (A.ends c))
    {s : Pool (A.world Tid)} (hs : A.Reachable prog s) {t : Tid} {c : Call}
    {p : Prog (atomics 32) Bool} (ht : s.thread t = some (c, p)) (hsure : sure c)
    (hperm : A.Permits s t c) :
    Within wordStep (fun r _ => A.void c = true → r = true) 40 p s.mem.word := by
  obtain ⟨ph, hcov, htracked⟩ :=
    (LockApi.tracks hconf hset).reach hs LockInv.initial
  have hinv : LockInv A s.mem ph := hcov.inv
  obtain ⟨l, hph, -⟩ := hcov.busy ht
  have hsettles := (htracked t c p l ht hph).2 hsure
  have hgood : (A.leaving (A.act c)).good l s.mem.word := by
    rintro rfl
    have hshare := hinv.share t
    rw [hph] at hshare
    refine ⟨hinv.shows hph, hinv.encodes.ready (t := t) hinv.room ?_⟩
    cases hgives : (A.act c).gives with
    | true => exact hinv.gives_permitted hph hgives
    | false => exact hperm hgives hshare.2
  refine (hsettles.within hgood).post ?_
  rintro r v ⟨_, hend, -⟩
  exact hend.2

/-- The thread returns. -/
theorem LockApi.returnsWithin (hconf : A.Conforms prog) {sure : Call → Prop}
    (hset : ∀ c, sure c → Settles (A.leaving (A.act c)) 40 (prog c) .before (A.ends c))
    {s : Pool (A.world Tid)} (hs : A.Reachable prog s) {t : Tid} {c : Call}
    {p : Prog (atomics 32) Bool} (ht : s.thread t = some (c, p)) (hsure : sure c)
    (hperm : A.Permits s t c) :
    ReturnsWithin prog t c (fun r _ => A.void c = true → r = true) 41 s := by
  refine returnsWithin_of_within wordStep (fun m : LockMem Tid => m.word) ?_ ?_ ?_ ht
    (LockApi.within_of_permits hconf hset hs ht hsure hperm)
  · rintro o a m m' ⟨v, heff, rfl⟩
    show Effect m.word o a _
    rw [LockMem.answer_word]
    exact heff
  · intro o a m v heff
    exact ⟨_, v, heff, rfl⟩
  · intro r m hr
    exact ⟨⟨_, rfl⟩, fun _ _ => hr⟩

/-- **Nobody is stuck but by the others.**  In every reachable state of a readers/writer lock take
    any thread that is inside a call, wherever the interleaving has left it.  If the lock permits
    what the call is still to do, the thread, running alone, is never blocked and returns within
    41 of its own steps, with its act done if the function is `void`.  (A timed call converts its
    timeout, and must not divide by zero.) -/
theorem rwlock_left_alone (P : Platform) (debug : Bool) (s : Pool (rwlockApi.world Tid))
    (hs : rwlockApi.Reachable (RwlockCall.prog debug P.features) s) (t : Tid) (c : RwlockCall)
    (p : Prog (atomics 32) Bool) (ht : s.thread t = some (c, p))
    (hdiv : c.timed = true → P.scale.cyclesPerNanosecondDivisor ≠ 0)
    (hperm : rwlockApi.Permits s t c) :
    ReturnsWithin (RwlockCall.prog debug P.features) t c (fun r _ => c.void = true → r = true) 41
      s :=
  LockApi.returnsWithin (rwlockApi_conforms debug P) (rwlockApi_settles P debug) hs ht hdiv hperm

/-- The same of a mutex, in every interleaving of calls on it. -/
theorem mutex_left_alone (P : Platform) (debug : Bool) (s : Pool (mutexApi.world Tid))
    (hs : MutexReachable (LockCall.prog debug P.features) s) (t : Tid) (c : LockCall)
    (p : Prog (atomics 32) Bool) (ht : s.thread t = some (c, p))
    (hdiv : c.timed = true → P.scale.cyclesPerNanosecondDivisor ≠ 0)
    (hperm : mutexApi.Permits s t c) :
    ReturnsWithin (LockCall.prog debug P.features) t c (fun r _ => c.void = true → r = true) 41
      s :=
  LockApi.returnsWithin (mutexApi_conforms debug P) (mutexApi_settles P debug)
    (mutexApi_writeOnly.reachable hs) ht hdiv hperm

end

/-- Thread `false` has seen the writer `true` with the first exchange of its
    `wfe_mutex_rwlock_rdlock`; the writer then unlocks. -/
theorem rwlock_left_alone_stale :
    ∃ s : Pool (rwlockApi.world Bool), s.mem.word = 0 ∧
      ReturnsWithin (RwlockCall.prog false Platform.uninitialised.features) false (.rdlock false)
        (fun r _ => RwlockCall.void (.rdlock false) = true → r = true) 41 s := by
  have hroom : 0 < 2 ^ 31 := Nat.two_pow_pos 31
  have h0 := Reach.start (W := rwlockApi.world Bool)
    (RwlockCall.prog false Platform.uninitialised.features) rwlockApi.Room
    (LockMem.initializer Bool)
  have h1 := h0.step (.call (t := true) (c := RwlockCall.wrlock false) rfl ⟨trivial, rfl⟩) hroom
  have h2 := h1.step (.op (t := true) (c := RwlockCall.wrlock false) rfl
    ⟨_, .exchanged 0 TOP_BIT _ _, rfl⟩) hroom
  have h3 := h2.step (.ret (t := true) (c := RwlockCall.wrlock false) (r := true) rfl rfl) hroom
  have h4 := h3.step (.call (t := false) (c := RwlockCall.rdlock false) rfl ⟨trivial, rfl⟩) hroom
  have h5 := h4.step (.op (t := false) (c := RwlockCall.rdlock false) rfl
    ⟨_, .differs 1 _ _ (by decide), rfl⟩) hroom
  have h6 := h5.step (.call (t := true) (c := RwlockCall.unlock) rfl ⟨Nat.one_pos, rfl⟩) hroom
  have h7 := h6.step (.op (t := true) (c := RwlockCall.unlock) rfl
    ⟨_, .storeN TOP_BIT 0 _, rfl⟩) hroom
  exact ⟨_, rfl, rwlock_left_alone Platform.uninitialised false _ h7 false (.rdlock false) _ rfl
    (by decide) fun _ _ => rfl⟩

/-- Thread `false` is about to wait for a mutex that thread `true` has just unlocked. -/
theorem mutex_left_alone_stale :
    ∃ s : Pool (mutexApi.world Bool), s.mem.word = 0 ∧
      ReturnsWithin (LockCall.prog false Platform.uninitialised.features) false (.lock true)
        (fun r _ => LockCall.void (.lock true) = true → r = true) 41 s := by
  have h0 := Reach.start (W := mutexApi.world Bool)
    (LockCall.prog false Platform.uninitialised.features) (fun _ => True)
    (LockMem.initializer Bool)
  have h1 := h0.step (.call (t := true) (c := LockCall.trylock) rfl ⟨trivial, rfl⟩) trivial
  have h2 := h1.step (.op (t := true) (c := LockCall.trylock) rfl
    ⟨_, .exchanged 0 1 _ _, rfl⟩) trivial
  have h3 := h2.step (.ret (t := true) (c := LockCall.trylock) (r := true) rfl rfl) trivial
  have h4 := h3.step (.call (t := false) (c := LockCall.lock true) rfl ⟨trivial, rfl⟩) trivial
  have h5 := h4.step (.op (t := false) (c := LockCall.lock true) rfl
    ⟨_, .differs 1 _ _ (by decide), rfl⟩) trivial
  have h6 := h5.step (.call (t := true) (c := LockCall.unlock) rfl ⟨Nat.one_pos, rfl⟩) trivial
  have h7 := h6.step (.op (t := true) (c := LockCall.unlock) rfl
    ⟨_, .storeN 1 0 _, rfl⟩) trivial
  exact ⟨_, rfl, mutex_left_alone Platform.uninitialised false _ h7 false (.lock true) _ rfl
    (by decide) fun _ _ => ⟨rfl, rfl⟩⟩

end WfeMutex
