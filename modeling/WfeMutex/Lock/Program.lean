/-
  A PROGRAM WITH MANY LOCKS.

  What a program links against the library for is not one lock but a table of them: mutexes,
  readers/writer locks, and objects of the two C++ classes (`LockKind`), any number of each, used by
  any number of threads.  The locks share nothing, so the program is the family of them
  (`Conc.Family`), and two things follow that cannot be said of one lock.

  * `program_linearizable` — the WHOLE history of the program, all calls on all locks in one order,
    is one of the sequential locks together.  So a program may be understood as if every call were
    performed all at once, also where it relies on several locks at a time.

  * `ordered_locks_never_deadlock` — the usual rule is enough.  If every thread that is inside a
    waiting call, on a lock `i`, holds only locks below `i`, then the program is not stuck: some
    thread that is inside a call comes back when it is left alone, or a thread that holds a lock is
    outside any call and so has its next step to itself.  The argument follows the holders: whoever
    keeps a thread from lock `i` holds `i`, so a lock it waits for itself is above `i`; there is no
    endless way up.  Calls that do not wait (`trylock`, `trylock_shared`, and the releases) need not
    keep the order.
-/
import Mathlib.Data.Fintype.Card
import WfeMutex.Conc.Family
import WfeMutex.Lock.Linear
import WfeMutex.Lock.Retry

set_option linter.unusedVariables false

namespace WfeMutex

open Conc
open Function (update update_self update_of_ne)

/-! ## The kinds of locks -/

/-- What a program can declare as a lock. -/
inductive LockKind where
  | mutex
  | rwlock
  /-- `wfe_mutex::mutex<low_power>`. -/
  | cppMutex (lowPower : Bool)
  /-- `wfe_mutex::shared_mutex<low_power>`. -/
  | cppSharedMutex (lowPower : Bool)
  deriving DecidableEq, Repr

namespace LockKind

/-- The calls there are on it. -/
abbrev Call : LockKind → Type
  | .mutex => LockCall
  | .rwlock => RwlockCall
  | .cppMutex _ => MutexUse
  | .cppSharedMutex _ => SharedMutexUse

/-- What they do. -/
def prog (debug : Bool) (F : Features) : (k : LockKind) → k.Call → Prog (atomics 32) Bool
  | .mutex => LockCall.prog debug F
  | .rwlock => RwlockCall.prog debug F
  | .cppMutex lowPower => MutexUse.prog debug F lowPower
  | .cppSharedMutex lowPower => SharedMutexUse.prog debug F lowPower

/-- What they are for. -/
def api : (k : LockKind) → LockApi k.Call
  | .mutex => mutexApi
  | .rwlock => rwlockApi
  | .cppMutex lowPower => mutexClass lowPower
  | .cppSharedMutex lowPower => sharedMutexClass lowPower

/-- The calls that wait while the lock is not theirs to take. -/
def waits : (k : LockKind) → k.Call → Bool
  | .mutex => LockCall.waits
  | .rwlock => RwlockCall.waits
  | .cppMutex lowPower => fun c => (c.native lowPower).waits
  | .cppSharedMutex lowPower => fun c => (c.native lowPower).waits

/-- The calls that wait for a limited time. -/
def timed : (k : LockKind) → k.Call → Bool
  | .mutex => LockCall.timed
  | .rwlock => RwlockCall.timed
  | .cppMutex lowPower => fun c => (c.native lowPower).timed
  | .cppSharedMutex lowPower => fun c => (c.native lowPower).timed

section
variable (P : Platform) (debug : Bool)

/-- Every kind of lock keeps its contract. -/
theorem conforms (k : LockKind) : k.api.Conforms (k.prog debug P.features) := by
  cases k with
  | mutex => exact mutexApi_conforms debug P
  | rwlock => exact rwlockApi_conforms debug P
  | cppMutex lowPower =>
    intro c
    rw [prog, MutexUse.prog_eq]
    exact mutexApi_conforms debug P (c.native lowPower)
  | cppSharedMutex lowPower =>
    intro c
    rw [prog, SharedMutexUse.prog_eq]
    exact rwlockApi_conforms debug P (c.native lowPower)

/-- It refuses only where it may. -/
theorem refuses (k : LockKind) : k.api.Refuses (k.prog debug P.features) := by
  cases k with
  | mutex => exact mutexApi_refuses debug P.features
  | rwlock => exact rwlockApi_refuses debug P.features
  | cppMutex lowPower =>
    intro c
    rw [prog, MutexUse.prog_eq]
    exact mutexApi_refuses debug P.features (c.native lowPower)
  | cppSharedMutex lowPower =>
    intro c
    rw [prog, SharedMutexUse.prog_eq]
    exact rwlockApi_refuses debug P.features (c.native lowPower)

/-- Its calls get through when they are left alone. -/
theorem settles (k : LockKind) (c : k.Call)
    (hdiv : k.timed c = true → P.scale.cyclesPerNanosecondDivisor ≠ 0) :
    Settles (k.api.leaving (k.api.act c)) 40 (k.prog debug P.features c) .before
      (k.api.ends c) := by
  cases k with
  | mutex => exact mutexApi_settles P debug c hdiv
  | rwlock => exact rwlockApi_settles P debug c hdiv
  | cppMutex lowPower =>
    rw [prog, MutexUse.prog_eq]
    exact mutexApi_settles P debug (MutexUse.native lowPower c) hdiv
  | cppSharedMutex lowPower =>
    rw [prog, SharedMutexUse.prog_eq]
    exact rwlockApi_settles P debug (SharedMutexUse.native lowPower c) hdiv

/-- And those that do not wait are through in three steps. -/
theorem company (F : Features) (k : LockKind) (c : k.Call) (hwaits : k.waits c = false) :
    Within (k.api.company (k.api.act c)) (fun _ _ => True) 3 (k.prog debug F c) .before := by
  cases k with
  | mutex => exact mutex_company debug F hwaits
  | rwlock => exact rwlock_company debug F hwaits
  | cppMutex lowPower =>
    rw [prog, MutexUse.prog_eq]
    exact mutex_company (c := MutexUse.native lowPower c) debug F hwaits
  | cppSharedMutex lowPower =>
    rw [prog, SharedMutexUse.prog_eq]
    exact rwlock_company (c := SharedMutexUse.native lowPower c) debug F hwaits

end

end LockKind

/-! ## The program -/

section
variable {ι Tid : Type} [DecidableEq ι] [DecidableEq Tid] (locks : ι → LockKind)

variable (Tid) in
/-- The shared memory of a program with the locks `locks`. -/
abbrev programWorld : World (atomics 32) Tid (Σ i, (locks i).Call) Bool :=
  World.family fun i => (locks i).api.world Tid

/-- What its calls do. -/
abbrev programProg (debug : Bool) (F : Features) : (Σ i, (locks i).Call) → Prog (atomics 32) Bool :=
  familyProg fun i => (locks i).prog debug F

variable (Tid) in
/-- Every lock statically initialised. -/
def programStart : (programWorld Tid locks).Mem := fun _ => LockMem.initializer Tid

/-- Fewer than 2^31 read holds of each readers/writer lock are outstanding. -/
def ProgramRoom (m : (programWorld Tid locks).Mem) : Prop :=
  okFamily (fun i => (locks i).api.Room) m

variable (Tid) in
/-- The sequential locks together. -/
abbrev programObject : Object Tid (Σ i, (locks i).Call) Bool :=
  Object.family fun i => (locks i).api.object Tid

variable {locks}

/-- **A program with any locks is linearizable**: in every interleaving of any number of threads, on
    every platform, all calls on all its locks take effect one after the other, each at one instant
    between its start and its return, where its sequential lock permits the act, or where it
    refuses it. -/
theorem program_linearizable (P : Platform) (debug : Bool) (s : Pool (programWorld Tid locks))
    (tr : List (Trans (programWorld Tid locks)))
    (hrun : Run (programProg locks debug P.features) (Pool.start (programStart Tid locks)) tr s)
    (hroom : ∀ x ∈ tr, ProgramRoom locks x.dst.mem) :
    (programObject Tid locks).Linearizable (fun _ => RWLock.free) (history tr) := by
  refine hrun.family_linearizable hroom ?_
  intro i tr' s' hrun' hroom'
  exact LockApi.linearizable ((locks i).conforms P debug) ((locks i).refuses P debug) hrun' hroom'

/-! ## The lock order -/

/-- The states of the interleavings of the program. -/
def ProgramReachable (prog : (Σ i, (locks i).Call) → Prog (atomics 32) Bool)
    (s : Pool (programWorld Tid locks)) : Prop :=
  Reach prog (ProgramRoom locks) (programStart Tid locks) s

/-- By its own account `t` holds the lock, in either mode. -/
def LockMem.Owns (m : LockMem Tid) (t : Tid) : Prop := m.owned t ≠ ⟨0, 0⟩

/-- **The lock order**: a thread inside a waiting call holds only locks below the one it asks
    for. -/
def Rising [LT ι] (s : Pool (programWorld Tid locks)) : Prop :=
  ∀ t i (c : (locks i).Call) p, s.thread t = some (⟨i, c⟩, p) → (locks i).waits c = true →
    ∀ j, (s.mem j).Owns t → j < i

/-- Thread `t` lacks nothing for its call at `i`. -/
def Unhindered (s : Pool (programWorld Tid locks)) (t : Tid) (i : ι) (c : (locks i).Call) : Prop :=
  (locks i).waits c = true → (locks i).api.Permits (s.on i) t c

/-- Thread `t` is inside a call on a lock that `u` holds. -/
def HeldUpBy (s : Pool (programWorld Tid locks)) (t u : Tid) : Prop :=
  ∃ i c p, s.thread t = some (⟨i, c⟩, p) ∧ (s.mem i).abs.Holder u

variable {P : Platform} {debug : Bool} {s : Pool (programWorld Tid locks)}

/-- A thread that lacks nothing returns, left alone. -/
theorem Unhindered.returnsWithin (hs : ProgramReachable (programProg locks debug P.features) s)
    {t : Tid} {i : ι} {c : (locks i).Call} {p : Prog (atomics 32) Bool}
    (ht : s.thread t = some (⟨i, c⟩, p))
    (hdiv : (locks i).timed c = true → P.scale.cyclesPerNanosecondDivisor ≠ 0)
    (h : Unhindered s t i c) :
    ReturnsWithin (programProg locks debug P.features) t ⟨i, c⟩
      (fun r _ => (locks i).api.void c = true → r = true) 41 s := by
  have hreach : (locks i).api.Reachable ((locks i).prog debug P.features) (s.on i) := Reach.on hs i
  have hthread : (s.on i).thread t = some (c, p) := Pool.on_busy ht
  have hwithin : Within wordStep (fun r _ => (locks i).api.void c = true → r = true) 40 p
      (s.mem i).word := by
    cases hwaits : (locks i).waits c with
    | true =>
      exact LockApi.within_of_permits ((locks i).conforms P debug) ((locks i).settles P debug)
        hreach hthread hdiv (h hwaits)
    | false =>
      exact (LockApi.within_of_company ((locks i).conforms P debug)
        ((locks i).company debug P.features) hreach hthread hwaits).mono (by omega)
  refine returnsWithin_of_within wordStep (fun m : (programWorld Tid locks).Mem => (m i).word)
    ?_ ?_ ?_ ht hwithin
  · rintro o a m m' ⟨_, ⟨v, heff, rfl⟩, rfl⟩
    show Effect (m i).word o a _
    rw [update_self, LockMem.answer_word]
    exact heff
  · intro o a m v heff
    exact ⟨_, _, ⟨v, heff, rfl⟩, rfl⟩
  · intro r m hr
    exact ⟨⟨_, _, rfl, rfl⟩, fun _ _ => hr⟩

/-- A thread that lacks something waits for it, and has not acquired yet. -/
theorem not_unhindered {t : Tid} {i : ι} {c : (locks i).Call} (h : ¬ Unhindered s t i c) :
    (locks i).waits c = true ∧ ((locks i).api.act c).gives = false ∧ (s.mem i).wrote t = 0 ∧
      ¬ ((locks i).api.act c).permitted t (s.mem i).abs := by
  unfold Unhindered LockApi.Permits at h
  push Not at h
  exact h

/-- A holder of the lock `i` that is not inside a call on `i` owns it by its own account. -/
theorem owns_of_elsewhere (hs : ProgramReachable (programProg locks debug P.features) s) {u : Tid}
    {i : ι} (hu : (s.mem i).abs.Holder u) (helse : (s.on i).thread u = none) :
    (s.mem i).Owns u := by
  have hreach : (locks i).api.Reachable ((locks i).prog debug P.features) (s.on i) := Reach.on hs i
  have haccount := LockApi.held_eq_account ((locks i).conforms P debug) hreach u
  unfold LockApi.account at haccount
  rw [helse] at haccount
  intro hzero
  exact hu.held_ne (haccount.trans hzero)

/-- A holder of the lock `i` that asks for `i` once more, and has not got it yet, owns it
    already. -/
theorem owns_of_asking (hs : ProgramReachable (programProg locks debug P.features) s) {u : Tid}
    {i : ι} {c : (locks i).Call} {p : Prog (atomics 32) Bool}
    (hu : (s.mem i).abs.Holder u) (hthread : s.thread u = some (⟨i, c⟩, p))
    (hgives : ((locks i).api.act c).gives = false) (hwrote : (s.mem i).wrote u = 0) :
    (s.mem i).Owns u := by
  have hreach : (locks i).api.Reachable ((locks i).prog debug P.features) (s.on i) := Reach.on hs i
  have haccount := LockApi.held_eq_account ((locks i).conforms P debug) hreach u
  unfold LockApi.account at haccount
  rw [Pool.on_busy hthread] at haccount
  have hpending : (s.mem i).abs.held u = ((locks i).api.act c).pending ((s.mem i).owned u) :=
    haccount.trans (if_pos hwrote)
  rw [LockAct.pending_of_takes hgives] at hpending
  intro hzero
  exact hu.held_ne (hpending.trans hzero)

/-- **Threads that keep the lock order never deadlock.** Take any reachable state of any program
    with any family of locks, in an order without endless ascent (any order on finitely many
    locks), in which every thread inside a waiting call holds only locks below the one it asks
    for.  From any thread inside a call, go on to a holder of the lock it asks for, from there to
    a holder of the lock which that one asks for, and so on: this leads to a thread that returns
    within 41 of its own steps when it is left alone, or to one that holds a lock and is outside
    any call.  (A timed call converts its timeout, and must not divide by zero.) -/
theorem ordered_locks_never_deadlock [Preorder ι] [WellFoundedGT ι] (P : Platform) (debug : Bool)
    (s : Pool (programWorld Tid locks))
    (hs : ProgramReachable (programProg locks debug P.features) s) (hrising : Rising s)
    (hdiv : ∀ t i c p, s.thread t = some (⟨i, c⟩, p) → (locks i).timed c = true →
      P.scale.cyclesPerNanosecondDivisor ≠ 0)
    (t : Tid) (ht : s.thread t ≠ none) :
    ∃ u, Relation.ReflTransGen (HeldUpBy s) t u ∧
      ((∃ i c p, s.thread u = some (⟨i, c⟩, p) ∧
          ReturnsWithin (programProg locks debug P.features) u ⟨i, c⟩
            (fun r _ => (locks i).api.void c = true → r = true) 41 s) ∨
        s.thread u = none ∧ ∃ i, (s.mem i).Owns u) := by
  obtain ⟨⟨⟨i, c⟩, p⟩, hin⟩ := Option.ne_none_iff_exists'.mp ht
  clear ht
  -- induction on the lock, upwards
  induction i using WellFoundedGT.induction generalizing t p with
  | ind i ih =>
    by_cases hfree : Unhindered s t i c
    · exact ⟨t, .refl, Or.inl ⟨i, c, p, hin, hfree.returnsWithin hs hin (hdiv t i c p hin)⟩⟩
    · obtain ⟨-, hgives, -, hperm⟩ := not_unhindered hfree
      obtain ⟨u, hu⟩ := RWLock.exists_holder hgives hperm
      have hedge : HeldUpBy s t u := ⟨i, c, p, hin, hu⟩
      rcases hthread : s.thread u with _ | ⟨⟨j, d⟩, q⟩
      · exact ⟨u, .single hedge,
          Or.inr ⟨hthread, i, owns_of_elsewhere hs hu (Pool.on_idle hthread)⟩⟩
      · by_cases hfree' : Unhindered s u j d
        · exact ⟨u, .single hedge, Or.inl ⟨j, d, q, hthread,
            hfree'.returnsWithin hs hthread (hdiv u j d q hthread)⟩⟩
        · -- `u` waits for `j` and holds `i`, so `j` is above `i`
          obtain ⟨hwaits, hgives', hwrote, -⟩ := not_unhindered hfree'
          have howns : (s.mem i).Owns u := by
            by_cases hj : j = i
            · subst hj
              exact owns_of_asking hs hu hthread hgives' hwrote
            · exact owns_of_elsewhere hs hu (Pool.on_elsewhere hj hthread)
          have hlt : i < j := hrising u j d q hthread hwaits i howns
          obtain ⟨w, hchain, hend⟩ := ih j hlt u q d hthread
          exact ⟨w, .head hedge hchain, hend⟩

end

/-! ## Two threads and two locks -/

/-- A mutex, and above it a readers/writer lock. -/
def twoLocks : Bool → LockKind
  | false => .mutex
  | true => .rwlock

/-- The calls on the mutex. -/
def twoLocks.mutex (c : LockCall) : Σ i, (twoLocks i).Call := ⟨false, c⟩

/-- The calls on the readers/writer lock. -/
def twoLocks.rwlock (c : RwlockCall) : Σ i, (twoLocks i).Call := ⟨true, c⟩

/-- What the callers see when thread `true` takes the mutex, thread `false` takes the
    readers/writer lock, and then the former asks for the lock that the latter gives back. -/
def twoLocks.history : List (Visible Bool (Σ i, (twoLocks i).Call) Bool) :=
  [.call true (mutex .trylock), .call false (rwlock .trylock), .ret true (mutex .trylock) true,
    .ret false (rwlock .trylock) true, .call true (rwlock (.wrlock false)),
    .call false (rwlock .unlock)]

/-- Such a run: thread `true` is kept waiting by thread `false`. -/
theorem twoLocks_run :
    ∃ (s : Pool (programWorld Bool twoLocks)) (tr : List (Trans (programWorld Bool twoLocks))),
      Run (programProg twoLocks false Platform.uninitialised.features)
        (Pool.start (programStart Bool twoLocks)) tr s ∧
      (∀ x ∈ tr, ProgramRoom twoLocks x.dst.mem) ∧ history tr = twoLocks.history ∧
      (∃ p, s.thread true = some (twoLocks.rwlock (.wrlock false), p)) ∧
      (∃ p, s.thread false = some (twoLocks.rwlock .unlock, p)) ∧
      (s.mem true).owned true = ⟨0, 0⟩ ∧ (s.mem true).abs.writer = some false := by
  have hroom : ∀ {m : (programWorld Bool twoLocks).Mem}, (m false).abs.readers = 0 →
      (m true).abs.readers = 0 → ProgramRoom twoLocks m := by
    intro m hmutex hrwlock i
    cases i with
    | false =>
      show (m false).abs.readers.card < 1
      rw [hmutex]
      exact Nat.one_pos
    | true =>
      show (m true).abs.readers.card < 2 ^ 31
      rw [hrwlock]
      exact Nat.two_pow_pos 31
  refine ⟨_, _,
    (.cons (.call (t := true) (c := twoLocks.mutex .trylock) rfl ⟨_, ⟨trivial, rfl⟩, rfl⟩)
    (.cons (.call (t := false) (c := twoLocks.rwlock .trylock) rfl ⟨_, ⟨trivial, rfl⟩, rfl⟩)
    (.cons (.op (t := true) rfl ⟨_, ⟨_, .exchanged 0 1 _ _, rfl⟩, rfl⟩)
    (.cons (.op (t := false) rfl ⟨_, ⟨_, .exchanged 0 TOP_BIT _ _, rfl⟩, rfl⟩)
    (.cons (.ret (t := true) (r := true) rfl ⟨_, rfl, rfl⟩)
    (.cons (.ret (t := false) (r := true) rfl ⟨_, rfl, rfl⟩)
    (.cons (.call (t := true) (c := twoLocks.rwlock (.wrlock false)) rfl ⟨_, ⟨trivial, rfl⟩, rfl⟩)
    (.cons (.call (t := false) (c := twoLocks.rwlock .unlock) rfl ⟨_, ⟨Nat.one_pos, rfl⟩, rfl⟩)
    (.nil _))))))))), ?_, rfl, ⟨_, rfl⟩, ⟨_, rfl⟩, rfl, rfl⟩
  iterate 8 refine List.forall_mem_cons.mpr ⟨hroom rfl rfl, ?_⟩
  exact List.forall_mem_nil _

/-- The calls overlap, and are those of the two sequential locks in some order. -/
theorem program_linearizable_two :
    (programObject Bool twoLocks).Linearizable (fun _ => RWLock.free) twoLocks.history := by
  obtain ⟨s, tr, hrun, hroom, hhist, -⟩ := twoLocks_run
  rw [← hhist]
  exact program_linearizable Platform.uninitialised false s tr hrun hroom

/-- From the thread that waits the way leads to the one that keeps it waiting. -/
theorem ordered_locks_never_deadlock_two :
    ∃ s : Pool (programWorld Bool twoLocks), HeldUpBy s true false ∧
      ∃ u, Relation.ReflTransGen (HeldUpBy s) true u ∧
        ((∃ i c p, s.thread u = some (⟨i, c⟩, p) ∧
            ReturnsWithin (programProg twoLocks false Platform.uninitialised.features) u ⟨i, c⟩
              (fun r _ => (twoLocks i).api.void c = true → r = true) 41 s) ∨
          s.thread u = none ∧ ∃ i, (s.mem i).Owns u) := by
  obtain ⟨s, tr, hrun, hroom, -, ⟨p, hwaiting⟩, ⟨q, hholding⟩, howned, hwriter⟩ := twoLocks_run
  have hedge : HeldUpBy s true false := ⟨true, .wrlock false, p, hwaiting, Or.inl hwriter⟩
  have hne : s.thread true ≠ none := by
    rw [hwaiting]
    exact Option.some_ne_none _
  refine ⟨s, hedge, ordered_locks_never_deadlock Platform.uninitialised false s
    ⟨tr, hrun, hroom⟩ ?_ ?_ true hne⟩
  · intro t i c p ht hwaits j howns
    cases t with
    | true =>
      rw [hwaiting] at ht
      cases ht
      cases j with
      | false => exact Bool.false_lt_true
      | true => exact absurd howned howns
    | false =>
      -- a release does not wait
      rw [hholding] at ht
      cases ht
      cases hwaits
  · intro t i c p ht htimed
    cases t with
    | true =>
      rw [hwaiting] at ht
      cases ht
      cases htimed
    | false =>
      rw [hholding] at ht
      cases ht
      cases htimed

end WfeMutex
