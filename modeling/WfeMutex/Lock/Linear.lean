/-
  BOTH LOCKS ARE LINEARIZABLE, refusals included.

  The sequential lock (`LockApi.object`) is the abstract one with answers: a call that answers
  `true` does its act, which must be permitted and leave room for the holds there are; one that
  answers `false` does nothing, and an exclusive acquisition may answer `false` only while the lock
  is NOT free.  A shared acquisition may be refused without a reason:
  `wfe_mutex_rwlock_trylock_shared` also fails when another reader comes or goes between its load
  and its exchange.

  A successful call takes effect at its one write.  A refused exclusive acquisition takes effect at
  a failed exchange, which has found the lock taken; but a timed one may go on from there, and
  only its return tells.  So the watch `refusal` remembers that an exchange has failed, and the
  simulation runs backwards (`Conc.Linear`).
-/
import WfeMutex.Conc.Linear
import WfeMutex.Conc.Watched
import WfeMutex.Lock.Mutex
import WfeMutex.Lock.Rwlock
import WfeMutex.Model.Cpp

set_option linter.unusedVariables false

namespace WfeMutex

open Conc

/-! ## The sequential lock -/

section
variable {Call Tid : Type} [DecidableEq Tid] (A : LockApi Call)

variable (Tid) in
/-- The lock, each call performed all at once. -/
def LockApi.object : Object Tid Call Bool where
  State := RWLock Tid
  does t c r a a' :=
    match r with
    | true => (A.act c).permitted t a ∧ a' = (A.act c).apply t a ∧ a'.readers.card < A.cap
    | false => a' = a ∧ A.void c = false ∧ (A.act c = .acquireWrite → ¬ (A.act c).permitted t a)

variable {A}

/-- The sequential lock does a permitted act. -/
theorem LockApi.does_performed {c : Call} {t : Tid} {a : RWLock Tid}
    (hperm : (A.act c).permitted t a) (hroom : ((A.act c).apply t a).readers.card < A.cap) :
    (A.object Tid).does t c true a ((A.act c).apply t a) :=
  ⟨hperm, rfl, hroom⟩

/-- It refuses an attempt, a writer's only where it is taken. -/
theorem LockApi.does_refused {c : Call} {t : Tid} {a : RWLock Tid} (hvoid : A.void c = false)
    (htaken : A.act c = .acquireWrite → ¬ (A.act c).permitted t a) :
    (A.object Tid).does t c false a a :=
  ⟨rfl, hvoid, htaken⟩

/-! ## Refusals -/

/-- Has an exchange of this call failed? -/
def refusal : Watch (atomics 32) Bool where
  allows _ _ := True
  next k
    | .compareExchangeN _ _ _ _, a => k || !a.1
    | _, _ => k

/-- An exclusive acquisition answers `false` only after an exchange has failed. -/
def LockApi.refused (A : LockApi Call) (c : Call) (r : Bool) (k : Bool) : Prop :=
  A.act c = .acquireWrite → r = false → k = true

/-- Every call of the library refuses so. -/
def LockApi.Refuses (A : LockApi Call) (prog : Call → Prog (atomics 32) Bool) : Prop :=
  ∀ c, Spec refusal.proto (prog c) false (A.refused c)

theorem refusal_any {α : Type} (p : Prog (atomics 32) α) (k : Bool) :
    Spec refusal.proto p k fun _ _ => True :=
  Watch.spec_of_closed (I := fun _ => True) (fun _ _ _ => trivial) (fun _ _ _ _ => trivial) p
    trivial

/-- A failed exchange is not forgotten. -/
theorem refusal_keeps {α : Type} (p : Prog (atomics 32) α) :
    Spec refusal.proto p true fun _ k => k = true := by
  refine Watch.spec_of_closed (I := fun k => k = true) (fun _ _ _ => trivial) ?_ p rfl
  rintro _ o a rfl
  cases o <;> rfl

/-- A lost exchange is a refusal. -/
theorem refusal_exchange {e d : BitVec 32} {s f : MemOrder} {k : Bool} :
    Spec refusal.proto (atomicCompareExchangeN e d s f) k fun a k' => a.1 = false → k' = true := by
  refine spec_act trivial ?_
  rintro a _ rfl hfail
  show (k || !a.1) = true
  rw [hfail, Bool.not_false, Bool.or_true]

/-- A `void` call refuses nothing. -/
theorem refuses_returning {c : Call} (p : Prog (atomics 32) Unit) :
    Spec refusal.proto (returning p) false (A.refused c) := by
  refine Spec.seq (refusal_any p false) fun _ _ _ => Spec.pure ?_
  rintro _ ⟨⟩

theorem refuses_of_shared {c : Call} (hc : A.act c ≠ .acquireWrite) (p : Prog (atomics 32) Bool) :
    Spec refusal.proto p false (A.refused c) :=
  (refusal_any p false).mono fun _ _ _ hact => absurd hact hc

/-- An attempt says `false` only after a lost exchange. -/
theorem refuses_exclusiveTrylock {c : Call} (check : Prog (atomics 32) Unit) (d : BitVec 32) :
    Spec refusal.proto (exclusiveTrylock check d) false (A.refused c) := by
  unfold exclusiveTrylock
  refine Spec.seq (refusal_any check false) fun _ _ _ => ?_
  refine Spec.seq refusal_exchange ?_
  rintro ⟨exchanged, _⟩ k hk
  cases exchanged with
  | true => exact Spec.pure fun _ hr => by cases hr
  | false => exact Spec.pure fun _ _ => hk rfl

/-- Whatever happens after the first exchange: it has failed. -/
theorem refuses_exclusiveTimedlock {c : Call} (F : Features) (check : Prog (atomics 32) Unit)
    (d : BitVec 32) (nanoseconds : BitVec 64) (lowPower : Bool) :
    Spec refusal.proto (exclusiveTimedlock F check d nanoseconds lowPower) false
      (A.refused c) := by
  unfold exclusiveTimedlock
  refine Spec.seq (refusal_any check false) fun _ _ _ => ?_
  refine Spec.seq refusal_exchange ?_
  rintro ⟨exchanged, _⟩ k hk
  cases exchanged with
  | true => exact Spec.pure fun _ hr => by cases hr
  | false =>
    obtain rfl := hk rfl
    exact (refusal_keeps _).mono fun _ _ hk' _ _ => hk'

/-! ## The simulation -/

variable {prog : Call → Prog (atomics 32) Bool}

/-- Where a call may stand: after its write it has answered `true`; before it, it is still to take
    effect, or has been refused, an exclusive one only after a failed exchange. -/
def LockApi.stands (A : LockApi Call) (c : Call) (l : Phase × Bool) (y : Status Call Bool) : Prop :=
  match l.1 with
  | .after => y = .done c true
  | .before => y = .called c ∨
      y = .done c false ∧ A.void c = false ∧ (A.act c = .acquireWrite → l.2 = true)

variable (Tid) in
/-- The outline of a conforming lock that remembers refusals. -/
def LockApi.refusingOutline (hconf : A.Conforms prog) (href : A.Refuses prog) :
    Outline (A.world Tid) prog A.Room (Phase × Bool) :=
  (LockApi.outline hconf).watched refusal (fun _ => false) A.refused href

/-- A failed exchange of an exclusive acquisition has found the lock taken. -/
theorem LockInv.refuses {m : LockMem Tid} {ph : Tid → Option (Call × Phase)} {t : Tid} {c : Call}
    {o : Op 32} {a : o.Ans} {v : BitVec 32} (h : LockInv A m ph) (hact : A.act c = .acquireWrite)
    (hpre : o.quiet = true ∨ A.mayWrite (A.act c) o) (heff : Effect m.word o a v)
    (hfail : refusal.next false o a = true) : ¬ (A.act c).permitted t m.abs := by
  cases o with
  | compareExchangeN e d s f =>
    rcases hpre with hquiet | hmay
    · cases hquiet
    · rw [hact] at hmay ⊢
      obtain ⟨rfl, rfl, rfl, rfl⟩ : e = 0 ∧ d = A.wr ∧ s = .acquire ∧ f = .acquire := by
        simpa [LockApi.mayWrite] using hmay
      have hlost : a.1 = false := by simpa [refusal] using hfail
      obtain ⟨hne, -, -⟩ := heff.differs_inv hlost
      rintro ⟨hnone, hreaders⟩
      have hword := h.encodes.of_free hnone
      rw [hreaders] at hword
      exact hne (BitVec.eq_of_toNat_eq hword)
  | _ => cases hfail

/-- A look at the word is no call's instant, unless it is an exclusive acquisition's first failed
    exchange. -/
theorem LockInv.commits_look {m : LockMem Tid} {ph : Tid → Option (Call × Phase)} {t : Tid}
    {c : Call} {o : Op 32} {a : o.Ans} {v : BitVec 32} {k : Bool} {y : Status Call Bool}
    (h : LockInv A m ph) (hpre : o.quiet = true ∨ A.mayWrite (A.act c) o)
    (heff : Effect m.word o a v) (hy : A.stands c (.before, refusal.next k o a) y) :
    ∃ y₀, A.stands c (.before, k) y₀ ∧ (A.object Tid).Commits t m.abs y₀ m.abs y := by
  rcases hy with rfl | ⟨rfl, hvoid, hrefused⟩
  · exact ⟨.called c, Or.inl rfl, .stay _ _⟩
  · by_cases hnow : A.act c = .acquireWrite ∧ k = false
    · obtain ⟨hact, rfl⟩ := hnow
      have htaken := h.refuses (t := t) hact hpre heff (hrefused hact)
      exact ⟨.called c, Or.inl rfl, .commit (LockApi.does_refused hvoid fun _ => htaken)⟩
    · refine ⟨.done c false, Or.inr ⟨rfl, hvoid, fun hact => ?_⟩, .stay _ _⟩
      simpa [hact] using hnow

variable (Tid) in
/-- **The lock as the shared object**: one instant for every call. -/
def LockApi.linearizes (hconf : A.Conforms prog) (href : A.Refuses prog) :
    (LockApi.refusingOutline Tid hconf href).Linearizes (A.object Tid) where
  state m := m.abs
  stands := A.stands
  somewhere := by
    rintro c ⟨phase, k⟩
    cases phase with
    | before => exact ⟨.called c, Or.inl rfl⟩
    | after => exact ⟨.done c true, rfl⟩
  call := by
    rintro m m' t c y ⟨-, rfl⟩ hstands
    rcases hstands with rfl | ⟨rfl, hvoid, hrefused⟩
    · exact .stay _ _
    · refine .commit (LockApi.does_refused hvoid fun hact => ?_)
      cases hrefused hact
  op := by
    rintro m m' ph t c ⟨phase, k⟩ ⟨phase', k'⟩ o y' a hinv ht ⟨⟨hbefore, hpre⟩, -⟩ ⟨v, heff, rfl⟩
      ⟨⟨hphase, -⟩, hk⟩ hroom hy'
    obtain rfl : phase = .before := hbefore
    obtain rfl : k' = refusal.next k o a := hk
    have hinv' : LockInv A m (unwatched ph) := hinv
    cases ha : o.writes a with
    | false =>
      rw [ha] at hphase
      obtain rfl : phase' = .before := hphase
      rw [LockMem.answer_look heff ha]
      exact hinv'.commits_look hpre heff hy'
    | true =>
      rw [ha] at hphase
      obtain rfl : phase' = .after := hphase
      obtain rfl : y' = .done c true := hy'
      rw [LockMem.answer_write ha] at hroom ⊢
      obtain ⟨hperm, -, -⟩ := hinv'.write (unwatched_of_some ht)
        (LockApi.mayWrite_of_writes hpre ha) heff ha hroom
      exact ⟨.called c, Or.inl rfl, .commit (LockApi.does_performed hperm hroom)⟩
  ret := by
    rintro m m' ph t c ⟨phase, k⟩ r hinv ht ⟨hends, hrefused⟩ rfl
    constructor
    · cases r <;> rfl
    · cases r with
      | true =>
        obtain rfl : phase = .after := hends.1.mp rfl
        exact rfl
      | false =>
        obtain rfl : phase = .before := by
          cases phase with
          | before => rfl
          | after => cases hends.1.mpr rfl
        refine Or.inr ⟨rfl, ?_, fun hact => hrefused hact rfl⟩
        cases hvoid : A.void c with
        | false => rfl
        | true => cases hends.2 hvoid
  client := by
    intro m m' t hclient
    exact hclient.elim

/-- **Every run of a conforming lock is linearizable.** -/
theorem LockApi.linearizable (hconf : A.Conforms prog) (href : A.Refuses prog)
    {s : Pool (A.world Tid)} {tr : List (Trans (A.world Tid))}
    (hrun : Run prog (Pool.start (LockMem.initializer Tid)) tr s)
    (hroom : ∀ x ∈ tr, A.Room x.dst.mem) :
    (A.object Tid).Linearizable RWLock.free (history tr) :=
  (LockApi.linearizes Tid hconf href).linearizable LockInv.initial hrun hroom

end

/-! ## The two locks -/

section
variable (debug : Bool) (F : Features)

/-- All functions of a readers/writer lock refuse only after a lost exchange. -/
theorem rwlockApi_refuses : rwlockApi.Refuses (RwlockCall.prog debug F) := by
  intro c
  cases c with
  | rdlock | wrlock | unlock | readUnlock => exact refuses_returning _
  | timedwrlock nanoseconds lowPower => exact refuses_exclusiveTimedlock F _ _ nanoseconds lowPower
  | trylock => exact refuses_exclusiveTrylock _ _
  | trylockShared => exact refuses_of_shared (by decide) _

/-- So do those of a mutex. -/
theorem mutexApi_refuses : mutexApi.Refuses (LockCall.prog debug F) := by
  intro c
  cases c with
  | lock | unlock => exact refuses_returning _
  | timedlock nanoseconds lowPower => exact refuses_exclusiveTimedlock F _ _ nanoseconds lowPower
  | trylock => exact refuses_exclusiveTrylock _ _

end

section
variable {Tid : Type} [DecidableEq Tid]

/-- **`wfe_mutex_rwlock` is linearizable.**  In every interleaving of any number of threads, on
    every platform, each call takes effect at one instant between its start and its return: an
    acquisition that succeeds and a release where the abstract lock permits it, a refused
    `trylock` or `timedwrlock` where somebody held the lock. -/
theorem rwlock_linearizable (P : Platform) (debug : Bool) (s : Pool (rwlockApi.world Tid))
    (tr : List (Trans (rwlockApi.world Tid)))
    (hrun : Run (RwlockCall.prog debug P.features) (Pool.start (LockMem.initializer Tid)) tr s)
    (hroom : ∀ x ∈ tr, rwlockApi.Room x.dst.mem) :
    (rwlockApi.object Tid).Linearizable RWLock.free (history tr) :=
  LockApi.linearizable (rwlockApi_conforms debug P) (rwlockApi_refuses debug P.features) hrun hroom

/-- **`wfe_mutex_lock` is linearizable**, in every interleaving whatever: it has no readers to
    count. -/
theorem mutex_linearizable (P : Platform) (debug : Bool) (s : Pool (mutexApi.world Tid))
    (tr : List (Trans (mutexApi.world Tid)))
    (hrun : Run (LockCall.prog debug P.features) (Pool.start (LockMem.initializer Tid)) tr s) :
    (mutexApi.object Tid).Linearizable RWLock.free (history tr) :=
  LockApi.linearizable (mutexApi_conforms debug P) (mutexApi_refuses debug P.features) hrun
    (mutexApi_writeOnly.room hrun)

end

/-- Thread `true` takes the lock by a `trylock` and is about to return; thread `false` tries the
    same and is refused. -/
theorem LockApi.refused_run {Call : Type} {A : LockApi Call} {p : Call → Prog (atomics 32) Bool}
    {c d : Call} {desired : BitVec 32} (hc : p c = exclusiveTrylock (pure ()) desired)
    (hd : p d = exclusiveTrylock (pure ()) desired) (hact : A.act c = .acquireWrite)
    (hact' : A.act d = .acquireWrite) (hne : desired ≠ 0) :
    ∃ (s : Pool (A.world Bool)) (tr : List (Trans (A.world Bool))),
      Run p (Pool.start (LockMem.initializer Bool)) tr s ∧ (∀ x ∈ tr, A.Room x.dst.mem) ∧
        history tr = [.call true c, .call false d, .ret false d false] := by
  have hcov : ∀ h, (A.act c).covered h := by
    rw [hact]
    exact fun _ => trivial
  have hcov' : ∀ h, (A.act d).covered h := by
    rw [hact']
    exact fun _ => trivial
  have hroom : ((A.act c).apply true (RWLock.free : RWLock Bool)).readers.card < A.cap := by
    rw [hact]
    exact A.cap_pos
  refine ⟨_, _, .cons (.call (t := true) (c := c) rfl ⟨hcov _, rfl⟩)
    (.cons (.op (t := true) (c := c) (congrArg (fun q => some (c, q)) hc)
      ⟨_, .exchanged 0 desired _ _, rfl⟩)
      (.cons (.call (t := false) (c := d) rfl ⟨hcov' _, rfl⟩)
        (.cons (.op (t := false) (c := d) (congrArg (fun q => some (d, q)) hd)
          ⟨_, .differs desired _ _ hne, rfl⟩)
          (.cons (.ret (t := false) (c := d) (r := false) rfl rfl) (.nil _))))),
    ?_, rfl⟩
  refine List.forall_mem_cons.mpr ⟨A.cap_pos, ?_⟩
  iterate 4 refine List.forall_mem_cons.mpr ⟨hroom, ?_⟩
  exact List.forall_mem_nil _

/-- Two attempts of writers that overlap, of which one is refused. -/
theorem rwlock_linearizable_refused :
    (rwlockApi.object Bool).Linearizable RWLock.free
      [.call true .trylock, .call false .trylock, .ret false .trylock false] := by
  obtain ⟨s, tr, hrun, hroom, hhist⟩ := LockApi.refused_run (A := rwlockApi)
    (p := RwlockCall.prog false Platform.uninitialised.features) (c := .trylock)
    (d := .trylock) rfl rfl rfl rfl (by decide)
  rw [← hhist]
  exact rwlock_linearizable Platform.uninitialised false s tr hrun hroom

/-- The same on a `wfe_mutex_lock`. -/
theorem mutex_linearizable_refused :
    (mutexApi.object Bool).Linearizable RWLock.free
      [.call true .trylock, .call false .trylock, .ret false .trylock false] := by
  obtain ⟨s, tr, hrun, -, hhist⟩ := LockApi.refused_run (A := mutexApi)
    (p := LockCall.prog false Platform.uninitialised.features) (c := .trylock)
    (d := .trylock) rfl rfl rfl rfl (by decide)
  rw [← hhist]
  exact mutex_linearizable Platform.uninitialised false s tr hrun

/-! ## Through the C++ classes -/

/-- The same lock, called under other names. -/
def LockApi.comap {Call Call' : Type} (f : Call' → Call) (A : LockApi Call) : LockApi Call' where
  act c := A.act (f c)
  void c := A.void (f c)
  wr := A.wr
  cap := A.cap
  cap_pos := A.cap_pos
  cap_le := A.cap_le
  void_release c := A.void_release (f c)

/-- The C function behind a call on a `mutex`. -/
def MutexUse.native (lowPower : Bool) : MutexUse → LockCall
  | .inl .lock => .lock lowPower
  | .inl .unlock => .unlock
  | .inl .tryLock => .trylock
  | .inr c => c

/-- The C function behind a call on a `shared_mutex`. -/
def SharedMutexUse.native (lowPower : Bool) : SharedMutexUse → RwlockCall
  | .inl .lock => .wrlock lowPower
  | .inl .tryLock => .trylock
  | .inl .unlock => .unlock
  | .inl .lockShared => .rdlock lowPower
  | .inl .tryLockShared => .trylockShared
  | .inl .unlockShared => .readUnlock
  | .inr c => c

/-- A member function of the class is the C function it forwards to. -/
theorem MutexUse.prog_eq (debug : Bool) (F : Features) (lowPower : Bool) (c : MutexUse) :
    c.prog debug F lowPower = (c.native lowPower).prog debug F := by
  rcases c with c | c
  · cases c <;> rfl
  · rfl

theorem SharedMutexUse.prog_eq (debug : Bool) (F : Features) (lowPower : Bool)
    (c : SharedMutexUse) : c.prog debug F lowPower = (c.native lowPower).prog debug F := by
  rcases c with c | c
  · cases c <;> rfl
  · rfl

section
variable {Tid : Type} [DecidableEq Tid] (lowPower : Bool)

/-- The lock in a `mutex<low_power>`. -/
abbrev mutexClass : LockApi MutexUse := mutexApi.comap (MutexUse.native lowPower)

/-- The lock in a `shared_mutex<low_power>`. -/
abbrev sharedMutexClass : LockApi SharedMutexUse := rwlockApi.comap (SharedMutexUse.native lowPower)

/-- **The C++ classes are linearizable**, also where member functions are mixed with C functions on
    the `native_handle()` of the same object: `mutex` in every interleaving, `shared_mutex` in
    those with fewer than 2^31 read holds outstanding. -/
theorem cpp_classes_linearizable (P : Platform) (debug : Bool) :
    (∀ (s : Pool ((mutexClass lowPower).world Tid)) tr,
        Run (MutexUse.prog debug P.features lowPower)
          (Pool.start (LockMem.initializer Tid)) tr s →
        ((mutexClass lowPower).object Tid).Linearizable RWLock.free (history tr)) ∧
      ∀ (s : Pool ((sharedMutexClass lowPower).world Tid)) tr,
        Run (SharedMutexUse.prog debug P.features lowPower)
          (Pool.start (LockMem.initializer Tid)) tr s →
        (∀ x ∈ tr, (sharedMutexClass lowPower).Room x.dst.mem) →
        ((sharedMutexClass lowPower).object Tid).Linearizable RWLock.free (history tr) := by
  have hmutex : MutexUse.prog debug P.features lowPower =
      fun c => (c.native lowPower).prog debug P.features :=
    funext (MutexUse.prog_eq debug P.features lowPower)
  have hshared : SharedMutexUse.prog debug P.features lowPower =
      fun c => (c.native lowPower).prog debug P.features :=
    funext (SharedMutexUse.prog_eq debug P.features lowPower)
  rw [hmutex, hshared]
  constructor
  · intro s tr hrun
    have hwrite : (mutexClass lowPower).WriteOnly := fun c => mutexApi_writeOnly (c.native lowPower)
    exact LockApi.linearizable (A := mutexClass lowPower)
      (fun c => mutexApi_conforms debug P (c.native lowPower))
      (fun c => mutexApi_refuses debug P.features (c.native lowPower)) hrun (hwrite.room hrun)
  · intro s tr hrun hroom
    exact LockApi.linearizable (A := sharedMutexClass lowPower)
      (fun c => rwlockApi_conforms debug P (c.native lowPower))
      (fun c => rwlockApi_refuses debug P.features (c.native lowPower)) hrun hroom

end

/-- One thread takes a `shared_mutex` with its member function and is about to return; another is
    refused by the C function on the object's `native_handle()`. -/
theorem cpp_classes_linearizable_mixed :
    ((sharedMutexClass true).object Bool).Linearizable RWLock.free
      [.call true (.inl .tryLock), .call false (.inr .trylock),
        .ret false (.inr .trylock) false] := by
  obtain ⟨s, tr, hrun, hroom, hhist⟩ := LockApi.refused_run (A := sharedMutexClass true)
    (p := SharedMutexUse.prog false Platform.uninitialised.features true)
    (c := .inl .tryLock) (d := .inr .trylock) rfl rfl rfl rfl (by decide)
  rw [← hhist]
  exact (cpp_classes_linearizable true Platform.uninitialised false).2 s tr hrun hroom

end WfeMutex
