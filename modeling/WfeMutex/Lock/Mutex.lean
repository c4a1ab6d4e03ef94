/-
  wfe_mutex_lock: the plain mutex as a lock without readers.

  Its calls act by `acquireWrite` and `releaseWrite` only, and the word is 1 while some thread
  holds it.  Nobody can hold it for reading, so the bound on read holds that the general theory
  carries along is met in every state of every run (`LockApi.WriteOnly.room`), and what follows is
  about all interleavings without any restriction.
-/
import WfeMutex.Lock.Conform

set_option linter.unusedVariables false

namespace WfeMutex

open Conc
open Function (update update_self update_of_ne)

/-- What each function does to the lock. -/
def LockCall.act : LockCall → LockAct
  | .lock _ | .trylock | .timedlock _ _ => .acquireWrite
  | .unlock => .releaseWrite

/-- The functions without a result. -/
def LockCall.void : LockCall → Bool
  | .lock _ | .unlock => true
  | .trylock | .timedlock _ _ => false

/-- `wfe_mutex_lock`: 1 while held. -/
def mutexApi : LockApi LockCall where
  act := LockCall.act
  void := LockCall.void
  wr := 1
  cap := 1
  cap_pos := by decide
  cap_le := by decide
  void_release c hc := by
    cases c with
    | unlock => rfl
    | lock | trylock | timedlock => rcases hc with hc | hc <;> cases hc

/-! ## The functions keep the protocol -/

section
variable {V : BitVec 32 → Prop} (debug : Bool)

theorem checks_sanityCheckWrlockMutex (hV : ∀ v, V v → v = 0 ∨ v = 1) :
    Checks V (sanityCheckWrlockMutex debug) := by
  cases debug with
  | false => exact .pass
  | true =>
    refine .look fun v hv => ?_
    rcases hV v hv with rfl | rfl <;> exact .pass

theorem checks_sanityCheckWrlockUnlockMutex (hV : ∀ v, V v → v = 1) :
    Checks V (sanityCheckWrlockUnlockMutex debug) := by
  cases debug with
  | false => exact .pass
  | true =>
    refine .look fun v hv => ?_
    obtain rfl := hV v hv
    exact .pass

/-- The mutex never shows anything but 0 and 1. -/
theorem mutexApi_shows (c : LockCall) (v : BitVec 32) (h : mutexApi.shows (mutexApi.act c) v) :
    v = 0 ∨ v = 1 := by
  have hword : v = 1 ∨ v.toNat < 1 := by
    cases c with
    | unlock => exact Or.inl h
    | lock | trylock | timedlock => exact h
  rcases hword with hv | hv
  · exact Or.inr hv
  · exact Or.inl (BitVec.eq_of_toNat_eq (by simpa using hv))

theorem mutexApi_mayExchange :
    mutexApi.mayWrite .acquireWrite (.compareExchangeN 0 1 .acquire .acquire) := rfl

/-- **The functions of the mutex keep its protocol** on every platform, with the debug checks,
    which add their loads only, and without them. -/
theorem mutexApi_erases (P : Platform) :
    mutexApi.Erases (LockCall.prog debug P.features) (LockCall.prog false P.features) := by
  intro c
  have hcheck : Checks (mutexApi.shows (mutexApi.act c)) (sanityCheckWrlockMutex debug) :=
    checks_sanityCheckWrlockMutex debug (mutexApi_shows c)
  cases c with
  | lock lowPower =>
    exact (LockApi.erase_returning (LockApi.erase_exclusiveLock P.waitsOk mutexApi_mayExchange
      hcheck lowPower)).mono fun _ _ h => LockApi.ends_void h
  | trylock =>
    exact (LockApi.erase_exclusiveTrylock mutexApi_mayExchange hcheck).mono
      fun _ _ h => LockApi.ends_report rfl h
  | timedlock nanoseconds lowPower =>
    exact (LockApi.erase_exclusiveTimedlock P.waitsOk mutexApi_mayExchange hcheck nanoseconds
      lowPower).mono fun _ _ h => LockApi.ends_report rfl h
  | unlock =>
    exact (LockApi.erase_returning (LockApi.erase_exclusiveUnlock hcheck
      (checks_sanityCheckWrlockUnlockMutex debug fun _ hv => hv))).mono
        fun _ _ h => LockApi.ends_void h

/-- The functions of a mutex conform, with their checks or without. -/
theorem mutexApi_conforms (P : Platform) : mutexApi.Conforms (LockCall.prog debug P.features) :=
  (mutexApi_erases debug P).conforms

end

/-! ## Mutual exclusion -/

/-- None of them takes the lock for reading. -/
theorem mutexApi_writeOnly : mutexApi.WriteOnly := by
  intro c
  cases c with
  | unlock => exact Or.inr rfl
  | lock | trylock | timedlock => exact Or.inl rfl

section
variable {Tid : Type} [DecidableEq Tid] {prog : LockCall → Prog (atomics 32) Bool}

/-- The states of all interleavings of calls on a mutex. -/
def MutexReachable (prog : LockCall → Prog (atomics 32) Bool) (s : Pool (mutexApi.world Tid)) :
    Prop :=
  Reach prog (fun _ => True) (LockMem.initializer Tid) s

/-- Thread `t` holds the mutex: by the results of its calls, and the writes of its current one. -/
def HoldsMutex (s : Pool (mutexApi.world Tid)) (t : Tid) : Prop := 0 < (mutexApi.account s t).writes

/-- What a step may do to a mutex. -/
def MutexStep (s : Pool (mutexApi.world Tid)) (e : Event (atomics 32) Tid LockCall Bool)
    (s' : Pool (mutexApi.world Tid)) : Prop :=
  match e with
  | .call t c =>
    (c = .unlock → HoldsMutex s t) ∧ s'.mem.word = s.mem.word ∧ s'.mem.wrote t = 0
  | .op t c o a =>
    if o.writes a then
      if c = .unlock then s.mem.word = 1 ∧ s'.mem.word = 0 ∧ HoldsMutex s t
      else
        -- the one transition of an acquisition
        s.mem.word = 0 ∧ s'.mem.word = 1 ∧ s.mem.wrote t = 0 ∧ s'.mem.wrote t = 1 ∧
          HoldsMutex s' t
    else s'.mem = s.mem
  | .jump _ | .client _ => s'.mem = s.mem
  | .ret t c r =>
    -- `true` after the one transition, `false` after no write; `void` functions end as if `true`
    s'.mem.word = s.mem.word ∧ s.mem.wrote t = (if r then 1 else 0) ∧ (c.void = true → r = true)

variable (hconf : mutexApi.Conforms prog)
include hconf

/-- The holder of a mutex is the writer. -/
theorem holdsMutex_iff {s : Pool (mutexApi.world Tid)} (hs : mutexApi.Reachable prog s) {t : Tid} :
    HoldsMutex s t ↔ s.mem.abs.writer = some t := by
  unfold HoldsMutex
  rw [← LockApi.held_eq_account hconf hs t]
  exact RWLock.held_writes_pos

/-- The word is 1 while there is a holder, and 0 otherwise. -/
theorem mutex_word {s : Pool (mutexApi.world Tid)} (hs : mutexApi.Reachable prog s) :
    s.mem.word = 1 ∧ s.mem.abs.writer ≠ none ∨ s.mem.word = 0 ∧ s.mem.abs.writer = none := by
  obtain ⟨henc, -, hroom⟩ := LockApi.encodes hconf hs
  cases hw : s.mem.abs.writer with
  | some t => exact Or.inl ⟨henc.of_writer hw, Option.some_ne_none t⟩
  | none =>
    have hcard := henc.of_free hw
    have hlt : s.mem.abs.readers.card < 1 := hroom
    exact Or.inr ⟨BitVec.eq_of_toNat_eq (by rw [hcard]; simpa using hlt), rfl⟩

/-- An operation's step, from what it is for the abstract lock. -/
theorem mutexStep_op {s s' : Pool (mutexApi.world Tid)} {t : Tid} {c : LockCall} {o : Op 32}
    {a : o.Ans} (hs : mutexApi.Reachable prog s) (hs' : mutexApi.Reachable prog s')
    (hsim : mutexApi.Simulates s.mem (.op t c o a) s'.mem) : MutexStep s (.op t c o a) s' := by
  have hsim' : if o.writes a then _ else _ := hsim
  show if o.writes a then _ else _
  split at hsim'
  · rename_i hwr
    rw [if_pos hwr]
    obtain ⟨hperm, habs, h0, h1, -⟩ := hsim'
    split
    · rename_i hc
      subst hc
      have hw : s.mem.abs.writer = some t := hperm
      have hw' : s'.mem.abs.writer = none := by rw [habs]; rfl
      rcases mutex_word hconf hs with ⟨hword, -⟩ | ⟨-, hnone⟩
      · rcases mutex_word hconf hs' with ⟨-, hsome⟩ | ⟨hword', -⟩
        · exact absurd hw' hsome
        · exact ⟨hword, hword', (holdsMutex_iff hconf hs).mpr hw⟩
      · rw [hnone] at hw
        cases hw
    · rename_i hc
      have hact : mutexApi.act c = .acquireWrite := by
        cases c with
        | unlock => exact absurd rfl hc
        | lock | trylock | timedlock => rfl
      rw [hact] at hperm habs
      have hw' : s'.mem.abs.writer = some t := by rw [habs]; rfl
      rcases mutex_word hconf hs with ⟨-, hsome⟩ | ⟨hword, -⟩
      · exact absurd hperm.1 hsome
      · rcases mutex_word hconf hs' with ⟨hword', -⟩ | ⟨-, hnone⟩
        · exact ⟨hword, hword', h0, h1, (holdsMutex_iff hconf hs').mpr hw'⟩
        · rw [hnone] at hw'
          cases hw'
  · rename_i hwr
    rw [if_neg hwr]
    exact hsim'

/-- Every step from a reachable state is as `MutexStep` says. -/
theorem mutexStep_of_step {s s' : Pool (mutexApi.world Tid)}
    {e : Event (atomics 32) Tid LockCall Bool} (hs : mutexApi.Reachable prog s)
    (hs' : mutexApi.Reachable prog s') (hstep : Pool.Step prog s e s') : MutexStep s e s' := by
  have hsim := LockApi.simulates hconf hs hstep (LockApi.encodes hconf hs').2.2
  cases hstep with
  | @call t c m ht hcall =>
    refine ⟨?_, hsim.2.2, hsim.1⟩
    rintro rfl
    have hcov : 0 < (s.mem.owned t).writes := hcall.1
    unfold HoldsMutex
    rw [LockApi.account, ht]
    exact hcov
  | @op t c o k a m ht hexec => exact mutexStep_op hconf hs hs' hsim
  | jump ht => exact hsim
  | ret ht hret => exact ⟨hsim.2.2.2, hsim.1, hsim.2.1⟩
  | client ht hclient => exact hsim

omit hconf in
/-- **Mutual exclusion.**  In every state of every interleaving of calls on a mutex the word is 1
    if some thread holds the mutex and 0 otherwise, at most one thread holds it, and every step
    does what `MutexStep` allows: the word changes from 0 to 1 only by the one write of an
    acquiring call, a call answers `true` exactly after that write, and `false` after no write. -/
theorem mutex_exclusion (P : Platform) (debug : Bool) (s : Pool (mutexApi.world Tid))
    (hs : MutexReachable (LockCall.prog debug P.features) s) :
    (s.mem.word = 0 ∨ s.mem.word = 1) ∧
      (s.mem.word = 1 ↔ ∃ t, HoldsMutex s t) ∧
      (∀ t u, HoldsMutex s t → HoldsMutex s u → t = u) ∧
      ∀ e s', Pool.Step (LockCall.prog debug P.features) s e s' → MutexStep s e s' := by
  have hconf := mutexApi_conforms debug P
  have hreach := mutexApi_writeOnly.reachable hs
  have hholds : ∀ t, HoldsMutex s t ↔ s.mem.abs.writer = some t :=
    fun t => holdsMutex_iff hconf hreach
  refine ⟨?_, ⟨fun h1 => ?_, ?_⟩, fun t u ht hu => ?_, fun e s' hstep => ?_⟩
  · exact (mutex_word hconf hreach).symm.imp And.left And.left
  · rcases mutex_word hconf hreach with ⟨-, hsome⟩ | ⟨h0, -⟩
    · obtain ⟨t, ht⟩ := Option.ne_none_iff_exists'.mp hsome
      exact ⟨t, (hholds t).mpr ht⟩
    · rw [h0] at h1
      exact absurd h1 (by decide)
  · rintro ⟨t, ht⟩
    rcases mutex_word hconf hreach with ⟨h1, -⟩ | ⟨-, hnone⟩
    · exact h1
    · rw [hholds, hnone] at ht
      cases ht
  · rw [hholds] at ht hu
    exact Option.some.inj (ht.symm.trans hu)
  · exact mutexStep_of_step hconf hreach
      (mutexApi_writeOnly.reachable (hs.step hstep trivial)) hstep

end

/-- Thread `true` is inside `wfe_mutex_lock_trylock`, past its exchange. -/
theorem mutex_exclusion_taken :
    ∃ s : Pool (mutexApi.world Bool),
      MutexReachable (LockCall.prog false Platform.uninitialised.features) s ∧
        s.mem.word = 1 ∧ ∃ t, HoldsMutex s t := by
  have hrun : ∃ s : Pool (mutexApi.world Bool),
      MutexReachable (LockCall.prog false Platform.uninitialised.features) s ∧ s.mem.word = 1 :=
    ⟨_, ⟨_, .cons (.call (t := true) (c := LockCall.trylock) rfl ⟨trivial, rfl⟩)
      (.cons (.op (t := true) (c := LockCall.trylock) rfl ⟨_, .exchanged 0 1 _ _, rfl⟩) (.nil _)),
      fun _ _ => trivial⟩, rfl⟩
  obtain ⟨s, hs, hword⟩ := hrun
  exact ⟨s, hs, hword, (mutex_exclusion Platform.uninitialised false s hs).2.1.mp hword⟩

end WfeMutex
