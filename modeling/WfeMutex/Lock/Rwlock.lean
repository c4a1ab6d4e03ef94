/-
  wfe_mutex_rwlock: the readers/writer lock.

  The word is 2^31 while a writer holds and the number of read holds otherwise, as long as fewer
  than 2^31 read holds are outstanding.  `rwlockApi_conforms` is the proof that each of the seven
  functions keeps the protocol of its act; what it needs from the values in the functions is that
  every exchange of a read acquisition expects a word without the top bit: 0, a value that a
  failed exchange or a load reported with the top bit masked off, or a value that
  `wait_for_bit_not_set` returned.
-/
import Mathlib.Data.Nat.Bitwise
import WfeMutex.Lock.Conform

set_option linter.unusedVariables false

namespace WfeMutex

open Conc

/-! ## The top bit -/

theorem TOP_BIT_toNat : TOP_BIT.toNat = 2 ^ 31 := by decide

/-- The top bit is clear below 2^31. -/
theorem and_top_eq_zero_iff (v : BitVec 32) : v &&& TOP_BIT = 0 ↔ v.toNat < 2 ^ 31 := by
  have hlt := v.isLt
  rw [← BitVec.toNat_inj, BitVec.toNat_and, TOP_BIT_toNat, Nat.and_two_pow,
    Nat.testBit_eq_decide_div_mod_eq]
  by_cases h : v.toNat / 2 ^ 31 % 2 = 1
  · simp only [h, decide_true, Bool.toNat_true]
    refine iff_of_false (by decide) (by omega)
  · simp only [h, decide_false, Bool.toNat_false]
    exact iff_of_true rfl (by omega)

/-- Without the top bit the word is the count. -/
theorem toNat_and_not_top (v : BitVec 32) : (v &&& ~~~TOP_BIT).toNat = v.toNat % 2 ^ 31 := by
  rw [BitVec.toNat_and, show (~~~TOP_BIT).toNat = 2 ^ 31 - 1 by decide,
    Nat.and_two_pow_sub_one_eq_mod]

theorem toNat_and_not_top_lt (v : BitVec 32) : (v &&& ~~~TOP_BIT).toNat < 2 ^ 31 := by
  rw [toNat_and_not_top]
  exact Nat.mod_lt _ (by decide)

/-- A word without the top bit is its own lower part. -/
theorem and_not_top_eq_self {v : BitVec 32} (h : v.toNat < 2 ^ 31) : v &&& ~~~TOP_BIT = v := by
  apply BitVec.eq_of_toNat_eq
  rw [toNat_and_not_top, Nat.mod_eq_of_lt h]

/-- `wait_for_bit_not_set` at bit 31 waits for the top bit to be clear. -/
theorem bitAt_top_eq_zero_iff (v : BitVec 32) : bitAt v 31 = 0 ↔ v.toNat < 2 ^ 31 := by
  have hlt := v.isLt
  unfold bitAt
  rw [Nat.and_one_is_mod, Nat.shiftRight_eq_div_pow]
  show v.toNat / 2 ^ 31 % 2 = 0 ↔ _
  omega

/-! ## The lock's table -/

/-- What each function does to the lock. -/
def RwlockCall.act : RwlockCall → LockAct
  | .rdlock _ | .trylockShared => .acquireRead
  | .wrlock _ | .timedwrlock _ _ | .trylock => .acquireWrite
  | .unlock => .releaseWrite
  | .readUnlock => .releaseRead

/-- The functions without a result. -/
def RwlockCall.void : RwlockCall → Bool
  | .rdlock _ | .wrlock _ | .unlock | .readUnlock => true
  | .timedwrlock _ _ | .trylock | .trylockShared => false

/-- `wfe_mutex_rwlock`: the top bit for a writer, 31 bits for the number of read holds. -/
def rwlockApi : LockApi RwlockCall where
  act := RwlockCall.act
  void := RwlockCall.void
  wr := TOP_BIT
  cap := 2 ^ 31
  cap_pos := by decide
  cap_le := by decide
  void_release c hc := by
    cases c with
    | unlock | readUnlock => rfl
    | rdlock | wrlock | timedwrlock | trylock | trylockShared =>
      rcases hc with hc | hc <;> cases hc

/-! ## The debug checks are silent -/

section
variable {V : BitVec 32 → Prop} (debug : Bool)

/-- A word with the writer's bit and no other, or without it, passes. -/
theorem sanityCheckRdwrlockValue_eq {v : BitVec 32} (hv : v = TOP_BIT ∨ v.toNat < 2 ^ 31) :
    sanityCheckRdwrlockValue debug v = pure () := by
  unfold sanityCheckRdwrlockValue
  cases debug with
  | false => rfl
  | true =>
    rcases hv with rfl | hv
    · rfl
    · have hand : v &&& TOP_BIT = 0 := (and_top_eq_zero_iff v).mpr hv
      simp only [hand]
      rfl

theorem checks_sanityCheckRdwrlockValue {v : BitVec 32} (hv : v = TOP_BIT ∨ v.toNat < 2 ^ 31) :
    Checks V (sanityCheckRdwrlockValue debug v) := by
  rw [sanityCheckRdwrlockValue_eq debug hv]
  exact .pass

theorem checks_sanityCheckRdwrlockReadReadyValue {v : BitVec 32} (hv : v.toNat < 2 ^ 31) :
    Checks V (sanityCheckRdwrlockReadReadyValue debug v) := by
  unfold sanityCheckRdwrlockReadReadyValue
  cases debug with
  | false => exact .pass
  | true =>
    have hand : v &&& TOP_BIT = 0 := (and_top_eq_zero_iff v).mpr hv
    simp only [hand]
    exact .pass

theorem checks_sanityCheckRdwrlockMutex (hV : ∀ v, V v → v = TOP_BIT ∨ v.toNat < 2 ^ 31) :
    Checks V (sanityCheckRdwrlockMutex debug) := by
  cases debug with
  | false => exact .pass
  | true => exact .look fun v hv => checks_sanityCheckRdwrlockValue true (hV v hv)

theorem checks_sanityCheckRdwrlockUnlockMutex (hV : ∀ v, V v → v = TOP_BIT) :
    Checks V (sanityCheckRdwrlockUnlockMutex debug) := by
  cases debug with
  | false => exact .pass
  | true =>
    refine .look fun v hv => ?_
    obtain rfl := hV v hv
    exact .pass

theorem checks_sanityCheckRdwrlockUnlockSharedMutex
    (hV : ∀ v, V v → 0 < v.toNat ∧ v.toNat < 2 ^ 31) :
    Checks V (sanityCheckRdwrlockUnlockSharedMutex debug) := by
  cases debug with
  | false => exact .pass
  | true =>
    refine .look fun v hv => ?_
    obtain ⟨hpos, hlt⟩ := hV v hv
    have hand : v &&& TOP_BIT = 0 := (and_top_eq_zero_iff v).mpr hlt
    have hne : (v &&& ~~~TOP_BIT == 0) = false := by
      rw [and_not_top_eq_self hlt, beq_eq_false_iff_ne]
      rintro rfl
      exact absurd hpos (by decide)
    simp only [Prog.bind, hand, hne]
    exact .pass

/-- The lock never shows anything but the writer's bit alone or a number of read holds. -/
theorem rwlockApi_shows (x : LockAct) (v : BitVec 32) (h : rwlockApi.shows x v) :
    v = TOP_BIT ∨ v.toNat < 2 ^ 31 := by
  cases x with
  | acquireRead | acquireWrite => exact h
  | releaseRead => exact Or.inr h.2
  | releaseWrite => exact Or.inl h

/-! ## The functions keep the protocol -/

/-- A read acquisition may expect any word without the top bit. -/
theorem rwlockApi_mayIncrement {e : BitVec 32} (h : e.toNat < 2 ^ 31) :
    rwlockApi.mayWrite .acquireRead (.compareExchangeN e (e + 1) .acquire .acquire) :=
  ⟨e, h, rfl⟩

theorem rwlockApi_mayExchange :
    rwlockApi.mayWrite .acquireWrite (.compareExchangeN 0 TOP_BIT .acquire .acquire) := rfl

/-- The checks at the head of the functions never fail on a word that encodes a lock. -/
theorem checks_rwlock (x : LockAct) : Checks (rwlockApi.shows x) (sanityCheckRdwrlockMutex debug) :=
  checks_sanityCheckRdwrlockMutex debug (rwlockApi_shows x)

/-- Locking for reading, without its checks. -/
theorem erase_rwlockRdlock {F : Features} (hF : F.WaitsOk) (lowPower : Bool) :
    Erase (rwlockApi.proto .acquireRead) IsCheck (rwlockRdlock debug F lowPower)
      (rwlockRdlock false F lowPower) .before fun _ ph => ph = .after := by
  unfold rwlockRdlock
  refine Erase.seq (checks_rwlock debug _).erase ?_
  rintro _ _ rfl
  refine Erase.seq (LockApi.erase_exchange (rwlockApi_mayIncrement (by decide))) ?_
  rintro ⟨exchanged, seen⟩ _ rfl
  cases exchanged with
  | true => exact Erase.pure rfl
  | false =>
    refine Erase.seq
      (LockApi.erase_exchange (rwlockApi_mayIncrement (toNat_and_not_top_lt seen))) ?_
    rintro ⟨exchanged, _⟩ _ rfl
    cases exchanged with
    | true => exact Erase.pure rfl
    | false =>
      refine Erase.iter (I := fun _ ph => ph = .before) ?_ rfl
      rintro _ _ rfl
      refine Erase.seq (LockApi.erase_look (hF.bitNotSet _ 31 lowPower)) ?_
      rintro e _ ⟨rfl, -, hbit⟩
      have he : e.toNat < 2 ^ 31 := (bitAt_top_eq_zero_iff e).mp hbit
      refine Erase.seq (checks_sanityCheckRdwrlockValue debug (Or.inr he)).erase ?_
      rintro _ _ rfl
      refine Erase.seq (checks_sanityCheckRdwrlockReadReadyValue debug he).erase ?_
      rintro _ _ rfl
      refine Erase.seq (LockApi.erase_exchange (rwlockApi_mayIncrement he)) ?_
      rintro ⟨exchanged, _⟩ _ rfl
      cases exchanged with
      | true => exact Erase.pure rfl
      | false => exact Erase.pure rfl

theorem erase_rwlockTrylockShared :
    Erase (rwlockApi.proto .acquireRead) IsCheck (rwlockTrylockShared debug)
      (rwlockTrylockShared false) .before fun r ph => ph = if r then .after else .before := by
  unfold rwlockTrylockShared
  refine Erase.seq (checks_rwlock debug _).erase ?_
  rintro _ _ rfl
  refine Erase.seq (LockApi.erase_look (reads_load _)) ?_
  rintro seen _ ⟨rfl, -⟩
  refine Erase.seq
    (LockApi.erase_exchange (rwlockApi_mayIncrement (toNat_and_not_top_lt seen))) ?_
  rintro ⟨exchanged, _⟩ _ rfl
  cases exchanged with
  | true => exact Erase.pure rfl
  | false => exact Erase.pure rfl

theorem erase_rwlockReadUnlock :
    Erase (rwlockApi.proto .releaseRead) IsCheck (rwlockReadUnlock debug)
      (rwlockReadUnlock false) .before fun _ ph => ph = .after := by
  unfold rwlockReadUnlock
  refine Erase.seq (checks_rwlock debug _).erase ?_
  rintro _ _ rfl
  refine Erase.seq (Checks.erase (A := rwlockApi) (x := .releaseRead)
    (checks_sanityCheckRdwrlockUnlockSharedMutex debug fun _ hv => hv)) ?_
  rintro _ _ rfl
  refine Erase.seq (Q := fun _ ph => ph = .after)
    (Erase.refl (spec_act ⟨rfl, Or.inr rfl⟩ fun _ _ hpost => hpost.1)) ?_
  rintro _ _ rfl
  exact Erase.pure rfl

/-- **The functions of the readers/writer lock keep its protocol** on every platform, with the
    debug checks, which add their loads only, and without them. -/
theorem rwlockApi_erases (P : Platform) :
    rwlockApi.Erases (RwlockCall.prog debug P.features) (RwlockCall.prog false P.features) := by
  intro c
  have hcheck := checks_rwlock debug (rwlockApi.act c)
  cases c with
  | rdlock lowPower =>
    exact (LockApi.erase_returning (erase_rwlockRdlock debug P.waitsOk lowPower)).mono
      fun _ _ h => LockApi.ends_void h
  | wrlock lowPower =>
    exact (LockApi.erase_returning (LockApi.erase_exclusiveLock P.waitsOk rwlockApi_mayExchange
      hcheck lowPower)).mono fun _ _ h => LockApi.ends_void h
  | timedwrlock nanoseconds lowPower =>
    exact (LockApi.erase_exclusiveTimedlock P.waitsOk rwlockApi_mayExchange hcheck nanoseconds
      lowPower).mono fun _ _ h => LockApi.ends_report rfl h
  | trylock =>
    exact (LockApi.erase_exclusiveTrylock rwlockApi_mayExchange hcheck).mono
      fun _ _ h => LockApi.ends_report rfl h
  | trylockShared =>
    exact (erase_rwlockTrylockShared debug).mono fun _ _ h => LockApi.ends_report rfl h
  | unlock =>
    exact (LockApi.erase_returning (LockApi.erase_exclusiveUnlock hcheck
      (checks_sanityCheckRdwrlockUnlockMutex debug fun _ hv => hv))).mono
        fun _ _ h => LockApi.ends_void h
  | readUnlock =>
    exact (LockApi.erase_returning (erase_rwlockReadUnlock debug)).mono
      fun _ _ h => LockApi.ends_void h

/-- The functions of a readers/writer lock conform, with their checks or without. -/
theorem rwlockApi_conforms (P : Platform) :
    rwlockApi.Conforms (RwlockCall.prog debug P.features) :=
  (rwlockApi_erases debug P).conforms

end

/-! ## Refinement -/

section
variable {Tid : Type} [DecidableEq Tid]

/-- **The readers/writer lock refines the abstract one.**  In every state of every interleaving
    with fewer than 2^31 read holds outstanding: the abstract lock's holders are the threads' own
    accounts; the word is 2^31 under a writer, who is then alone, and the number of read holds
    otherwise; and every step is one permitted step of the abstract lock or none, as
    `LockApi.Simulates` spells out: each call writes the word at most once, answers `true` exactly
    after it, and has written nothing if it answers `false`. -/
theorem rwlock_refines (P : Platform) (debug : Bool) (s : Pool (rwlockApi.world Tid))
    (hs : rwlockApi.Reachable (RwlockCall.prog debug P.features) s) :
    (∀ t, s.mem.abs.held t = rwlockApi.account s t) ∧
      (∀ t, s.mem.abs.writer = some t → s.mem.word = TOP_BIT ∧ s.mem.abs.readers = 0) ∧
      (s.mem.abs.writer = none → s.mem.word.toNat = s.mem.abs.readers.card) ∧
      ∀ e s', Pool.Step (RwlockCall.prog debug P.features) s e s' → rwlockApi.Room s'.mem →
        rwlockApi.Simulates s.mem e s'.mem := by
  have hconf := rwlockApi_conforms debug P
  obtain ⟨henc, hexcl, -⟩ := LockApi.encodes hconf hs
  refine ⟨fun t => LockApi.held_eq_account hconf hs t, fun t ht => ⟨?_, hexcl t ht⟩,
    fun hnone => ?_, fun e s' hstep hroom => LockApi.simulates hconf hs hstep hroom⟩
  · exact henc.of_writer ht
  · exact henc.of_free hnone

end

/-- Thread `true` is inside `wfe_mutex_rwlock_rdlock`, past its first exchange. -/
theorem rwlock_refines_reader :
    ∃ s : Pool (rwlockApi.world Bool),
      rwlockApi.Reachable (RwlockCall.prog false Platform.uninitialised.features) s ∧
        s.mem.word.toNat = 1 ∧ rwlockApi.account s true = ⟨1, 0⟩ := by
  have hrun : ∃ s : Pool (rwlockApi.world Bool),
      rwlockApi.Reachable (RwlockCall.prog false Platform.uninitialised.features) s ∧
        s.mem.abs = ⟨none, {true}⟩ := by
    refine ⟨_, ⟨_, .cons (.call (t := true) (c := RwlockCall.rdlock false) rfl ⟨trivial, rfl⟩)
      (.cons (.op (t := true) (c := RwlockCall.rdlock false) rfl ⟨_, .exchanged 0 1 _ _, rfl⟩)
        (.nil _)), fun x hx => ?_⟩, rfl⟩
    rcases List.mem_pair.mp hx with rfl | rfl
    · exact Nat.two_pow_pos 31
    · exact Nat.one_lt_two_pow (by decide)
  obtain ⟨s, hs, habs⟩ := hrun
  obtain ⟨hheld, -, hfree, -⟩ := rwlock_refines Platform.uninitialised false s hs
  refine ⟨s, hs, ?_, ?_⟩
  · rw [hfree (by rw [habs]), habs]
    rfl
  · rw [← hheld, habs]
    rfl

end WfeMutex
