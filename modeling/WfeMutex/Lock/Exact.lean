/-
  NO MORE CAN BE SAID: the histories of the locks are exactly those of the shared object.

  `Lock.Linear` bounds what the callers of a lock can see.  Here is the converse: every linearizable
  history, of clients that give back only what they hold, is one that the functions of the header
  produce, on every platform.  For a mutex the two together are an equation, so callers cannot tell
  one backend from another, nor the debug build from the other, by any results in any order.

  For a readers/writer lock the equation holds of the histories in which no
  `wfe_mutex_rwlock_trylock_shared` is refused: the object refuses those at any time, the function
  only for a writer or because of another thread (`Lock.Solo`).

  The object performs a call all at once, so the function is run all at once (`Conc.May`): an
  acquisition of a lock that is free for it succeeds with its first write, and one that must fail
  sees that in its first exchange, where a timed one then lets its wait expire (`Wait.Expiry`).
-/
import WfeMutex.Conc.May
import WfeMutex.Lock.Completion
import WfeMutex.Lock.Linear
import WfeMutex.Wait.Expiry

set_option linter.unusedVariables false

namespace WfeMutex

open Conc
open Function (update update_self update_of_ne)

/-! ## What a call may answer -/

section
variable {v e d : BitVec 32} {s f : MemOrder} {V : BitVec 32 → Prop}

/-- A check may pass. -/
theorem OneLook.may {p : Prog (atomics 32) Unit} (h : OneLook V p) (hv : V v) :
    WordMay p v () v := by
  cases h with
  | pass => exact .ret () v
  | look hk =>
    refine May.op (a := v) (.loadN v .seqCst) ?_
    rw [hk v hv]
    exact .ret () v

/-- An exchange may succeed where it finds what it expects. -/
theorem may_exchange (h : v = e) :
    WordMay (atomicCompareExchangeN e d s f) v (true, v) d :=
  may_act (o := .compareExchangeN e d s f) (Effect.exchange_of_eq h)

theorem may_exchange_fails (h : v ≠ e) :
    WordMay (atomicCompareExchangeN e d s f) v (false, v) v :=
  may_act (o := .compareExchangeN e d s f) (.differs d s f h)

variable {check : Prog (atomics 32) Unit} {desired : BitVec 32} (F : Features)

/-- An attempt answers by the word. -/
theorem may_exclusiveTrylock (hcheck : WordMay check v () v) :
    ∃ v', WordMay (exclusiveTrylock check desired) v (decide (v = 0)) v' := by
  unfold exclusiveTrylock
  by_cases hzero : v = 0
  · rw [decide_eq_true hzero]
    exact ⟨_, hcheck.seq ((may_exchange hzero).seq (May.pure true _))⟩
  · rw [decide_eq_false hzero]
    exact ⟨_, hcheck.seq ((may_exchange_fails hzero).seq (May.pure false _))⟩

/-- A timed call may time out in its first wait. -/
theorem may_exclusiveTimedlock {nanoseconds : BitVec 64} {lowPower : Bool}
    (hcheck : WordMay check v () v)
    (hwait : v ≠ 0 →
      WordMay (F.waitForValueTimeoutI32 F.toCycleScale 0 nanoseconds lowPower) v false v) :
    ∃ v', WordMay (exclusiveTimedlock F check desired nanoseconds lowPower) v (decide (v = 0))
      v' := by
  unfold exclusiveTimedlock
  by_cases hzero : v = 0
  · rw [decide_eq_true hzero]
    exact ⟨_, hcheck.seq ((may_exchange hzero).seq (May.pure true _))⟩
  · rw [decide_eq_false hzero]
    refine ⟨v, hcheck.seq ((may_exchange_fails hzero).seq ?_)⟩
    exact May.iter ((hwait hzero).seq (May.pure _ v))

theorem may_rwlockTrylockShared (debug : Bool) (hv : v = TOP_BIT ∨ v.toNat < 2 ^ 31) :
    ∃ v', WordMay (rwlockTrylockShared debug) v (decide (v.toNat < 2 ^ 31)) v' := by
  have hcheck : WordMay (sanityCheckRdwrlockMutex debug) v () v :=
    (oneLook_sanityCheckRdwrlockMutex debug fun _ h => h).may hv
  unfold rwlockTrylockShared
  rcases hv with rfl | hv
  · exact ⟨_, hcheck.seq ((may_load .acquire).seq
      ((may_exchange_fails (by decide)).seq (May.pure false _)))⟩
  · rw [decide_eq_true hv]
    exact ⟨_, hcheck.seq ((may_load .acquire).seq
      ((may_exchange (and_not_top_eq_self hv).symm).seq (May.pure true _)))⟩

end

section
variable {Call : Type} (A : LockApi Call)

/-- Alone with the word `v`, what is left of a call may do its act, if the word is ready, and may
    refuse otherwise, unless it is `void`. -/
def LockApi.AnswersAt (c : Call) (p : Prog (atomics 32) Bool) (v : BitVec 32) : Prop :=
  (A.Ready (A.act c) v → ∃ v', WordMay p v true v') ∧
    (¬ A.Ready (A.act c) v → A.void c = false → ∃ v', WordMay p v false v')

/-- Every call answers whatever word it can find. -/
def LockApi.Answers (prog : Call → Prog (atomics 32) Bool) : Prop :=
  ∀ c v, A.shows (A.act c) v → A.AnswersAt c (prog c) v

variable {A} {c : Call} {p : Prog (atomics 32) Bool} {v : BitVec 32}

/-- A function without a result has nothing to answer. -/
theorem LockApi.answersAt_void {n : Nat}
    (h : Settles (A.leaving (A.act c)) n p .before (A.ends c)) (hvoid : A.void c = true)
    (hshows : A.shows (A.act c) v) : A.AnswersAt c p v := by
  constructor
  · intro hready
    have hgood : (A.leaving (A.act c)).good .before v := fun _ => ⟨hshows, hready⟩
    obtain ⟨r, v', hmay, ⟨_, hend, -⟩⟩ := (h.within hgood).may
    obtain rfl : r = true := hend.2 hvoid
    exact ⟨v', hmay⟩
  · intro _ hnot
    rw [hvoid] at hnot
    cases hnot

/-- An attempt answers by whether its act is permitted. -/
theorem LockApi.answersAt_try {C : Prop} [Decidable C] (hC : A.Ready (A.act c) v ↔ C)
    (h : ∃ v', WordMay p v (decide C) v') : A.AnswersAt c p v := by
  obtain ⟨v', hmay⟩ := h
  constructor
  · intro hready
    rw [decide_eq_true (hC.mp hready)] at hmay
    exact ⟨v', hmay⟩
  · intro hnot _
    rw [decide_eq_false fun hc => hnot (hC.mpr hc)] at hmay
    exact ⟨v', hmay⟩

end

section
variable (P : Platform) (debug : Bool)

/-- The timed wait of any table may time out. -/
theorem Platform.may_expire (hdiv : P.scale.cyclesPerNanosecondDivisor ≠ 0) {v value : BitVec 32}
    (hne : v ≠ value) (nanoseconds : BitVec 64) (lowPower : Bool) :
    WordMay (P.features.waitForValueTimeoutI32 P.features.toCycleScale value nanoseconds lowPower)
      v false v := by
  have h32 := P.coherent.i32
  rw [WaitType.table] at h32
  have htimed : P.features.waitForValueTimeoutI32 = (P.features.waitTypeTimeout.timed 32).run :=
    congrArg (fun T : WaitTable 32 => T.waitForValueTimeout) h32
  rw [htimed]
  exact TimedWait.may_expire _ hne (CycleScale.converts hdiv nanoseconds) lowPower

/-- Every function of a mutex may give the answer that is due. -/
theorem mutexApi_answers (hdiv : P.scale.cyclesPerNanosecondDivisor ≠ 0) :
    mutexApi.Answers (LockCall.prog debug P.features) := by
  intro c v hshows
  have hcheck := (oneLook_mutex debug c).may hshows
  have hsettles := mutexApi_settles P debug c fun _ => hdiv
  cases c with
  | lock lowPower => exact LockApi.answersAt_void hsettles rfl hshows
  | unlock => exact LockApi.answersAt_void hsettles rfl hshows
  | trylock => exact LockApi.answersAt_try (C := v = 0) Iff.rfl (may_exclusiveTrylock hcheck)
  | timedlock nanoseconds lowPower =>
    exact LockApi.answersAt_try (C := v = 0) Iff.rfl (may_exclusiveTimedlock P.features
      hcheck fun hne => P.may_expire hdiv hne nanoseconds lowPower)

/-- So may every one of a readers/writer lock. -/
theorem rwlockApi_answers (hdiv : P.scale.cyclesPerNanosecondDivisor ≠ 0) :
    rwlockApi.Answers (RwlockCall.prog debug P.features) := by
  intro c v hshows
  have hcheck := (oneLook_rwlock debug (rwlockApi.act c)).may hshows
  have hsettles := rwlockApi_settles P debug c fun _ => hdiv
  cases c with
  | rdlock lowPower => exact LockApi.answersAt_void hsettles rfl hshows
  | wrlock lowPower => exact LockApi.answersAt_void hsettles rfl hshows
  | unlock => exact LockApi.answersAt_void hsettles rfl hshows
  | readUnlock => exact LockApi.answersAt_void hsettles rfl hshows
  | trylock => exact LockApi.answersAt_try (C := v = 0) Iff.rfl (may_exclusiveTrylock hcheck)
  | trylockShared =>
    exact LockApi.answersAt_try (C := v.toNat < 2 ^ 31) Iff.rfl
      (may_rwlockTrylockShared debug (rwlockApi_shows _ _ hshows))
  | timedwrlock nanoseconds lowPower =>
    exact LockApi.answersAt_try (C := v = 0) Iff.rfl (may_exclusiveTimedlock P.features
      hcheck fun hne => P.may_expire hdiv hne nanoseconds lowPower)

end

/-! ## From the word to the lock -/

section
variable {Call Tid : Type} [DecidableEq Tid] {A : LockApi Call}
  {prog : Call → Prog (atomics 32) Bool}

omit [DecidableEq Tid] in
/-- A word that is ready for an acquisition shows that the lock permits it. -/
theorem LockApi.Encodes.permitted {word : BitVec 32} {a : RWLock Tid} {t : Tid} {x : LockAct}
    (h : A.Encodes word a) (hready : A.Ready x word) (hgives : x.gives = false) :
    x.permitted t a := by
  cases x with
  | acquireRead => exact h.writer_none hready
  | acquireWrite =>
    obtain rfl : word = 0 := hready
    have hfree := h.writer_none A.cap_pos
    exact ⟨hfree, Multiset.card_eq_zero.mp (h.of_free hfree).symm⟩
  | releaseRead => cases hgives
  | releaseWrite => cases hgives

/-- A call that is not `void` acquires. -/
theorem LockApi.gives_of_not_void {c : Call} (h : A.void c = false) :
    (A.act c).gives = false := by
  cases hgives : (A.act c).gives with
  | false => rfl
  | true =>
    rw [LockApi.void_of_gives hgives] at h
    cases h

/-- Past its write a call has nothing left to do but to return `true`. -/
theorem LockApi.may_after {t : Tid} {c : Call} {p : Prog (atomics 32) Bool} {r : Bool}
    {v v' : BitVec 32} (h : WordMay p v r v')
    (hspec : Spec (A.proto (A.act c)) p .after (A.ends c)) :
    r = true ∧ ∀ m, May ((A.world Tid).allowed A.Room t c) p m r m := by
  induction h with
  | ret r v => exact ⟨hspec.out.1.mpr rfl, fun m => .ret r m⟩
  | op _ _ _ =>
    obtain ⟨⟨hbefore, -⟩, -⟩ := hspec.out
    cases hbefore
  | jump _ ih =>
    obtain ⟨hr, hmay⟩ := ih hspec.out
    exact ⟨hr, fun m => .jump (hmay m)⟩

/-- What a call may do alone with the word, it may do in the lock, and the abstract lock is moved
    exactly if it answers `true`. -/
theorem LockApi.may_exec {t : Tid} {c : Call} {p : Prog (atomics 32) Bool} {r : Bool}
    {m : LockMem Tid} {ph : Tid → Option (Call × Phase)} {v' : BitVec 32}
    (h : WordMay p m.word r v') (hspec : Spec (A.proto (A.act c)) p .before (A.ends c))
    (hinv : LockInv A m ph) (ht : ph t = some (c, .before))
    (hroom : r = true → ((A.act c).apply t m.abs).readers.card < A.cap) :
    ∃ m', May ((A.world Tid).allowed A.Room t c) p m r m' ∧
      m'.abs = (if r then (A.act c).apply t m.abs else m.abs) ∧ m'.owned = m.owned := by
  generalize hv : m.word = v at h
  induction h with
  | ret r v =>
    have hr : r = false := by
      cases r with
      | false => rfl
      | true => cases hspec.out.1.mp rfl
    subst hr
    exact ⟨m, .ret false m, rfl, rfl⟩
  | @op o k a r v v₁ v₂ heff hrest ih =>
    obtain ⟨⟨-, hpre⟩, hk⟩ := hspec.out
    rw [← hv] at heff
    have hsees : ∀ u, o.sees a = some u → A.shows (A.act c) u :=
      fun u hu => heff.sees hu ▸ hinv.shows ht
    have hexec : (A.world Tid).exec t c o a m (m.answer (A.act c) t o a v₁) := ⟨v₁, heff, rfl⟩
    cases ha : o.writes a with
    | false =>
      have hnext := hk a .before ⟨by rw [ha]; rfl, hsees⟩
      rw [LockMem.answer_look heff ha] at hexec
      obtain ⟨m', hmay, habs, hown⟩ := ih hnext hroom (heff.eq_of_not_writes ha).symm
      exact ⟨m', .op ⟨hexec, hinv.room⟩ hmay, habs, hown⟩
    | true =>
      have hnext := hk a .after ⟨by rw [ha]; rfl, hsees⟩
      rw [LockMem.answer_write ha] at hexec
      obtain ⟨rfl, hmay⟩ := LockApi.may_after (t := t) hrest hnext
      exact ⟨_, .op ⟨hexec, hroom rfl⟩ (hmay _), rfl, rfl⟩
  | jump _ ih =>
    obtain ⟨m', hmay, habs, hown⟩ := ih hspec.out hroom hv
    exact ⟨m', .jump hmay, habs, hown⟩

end

/-! ## The lock follows the object -/

section
variable {Call Tid : Type} [DecidableEq Tid] (A : LockApi Call)

/-- The clients give back only what they hold, by their own account. -/
def LockApi.manners : Manners Tid Call Bool (Tid → Held) where
  may own t c := (A.act c).covered (own t)
  next own
    | .call t c => update own t ((A.act c).spend (own t))
    | .ret t c r => if r then update own t ((A.act c).gain (own t)) else own

/-- The answers that the object and the lock give under the same conditions: all but the refusal of
    a shared acquisition. -/
def LockApi.Definite (c : Call) (r : Bool) : Prop :=
  r = false → A.act c = .acquireRead → A.void c = true

/-- The phase of a call that is run all at once. -/
def atOnce : Status Call Bool → Option (Call × Phase)
  | .idle => none
  | .called c => some (c, .before)
  | .done c r => some (c, if r then .after else .before)

theorem atOnce_update (st : Tid → Status Call Bool) (t : Tid) (y : Status Call Bool) :
    (fun u => atOnce (update st t y u)) = update (fun u => atOnce (st u)) t (atOnce y) :=
  funext fun u => Function.apply_update (fun _ => atOnce) st t y u

variable (Tid) in
/-- The object of which the lock has every history. -/
abbrev LockApi.definite : Object Tid Call Bool := (A.object Tid).only A.Definite

/-- The memory of the lock while no call of it is half-way. -/
structure LockApi.Fits (own : Tid → Held) (z : (A.definite Tid).Config) (m : LockMem Tid) :
    Prop where
  abs : m.abs = z.state
  owned : m.owned = own
  inv : LockInv A m fun t => atOnce (z.status t)
  ends : ∀ t c r, z.status t = .done c r → A.ends c r (if r then .after else .before)

variable {A} {prog : Call → Prog (atomics 32) Bool}

theorem LockApi.ends_update {st : Tid → Status Call Bool} {t : Tid} {y : Status Call Bool}
    (h : ∀ u c r, st u = .done c r → A.ends c r (if r then .after else .before))
    (hy : ∀ c r, y = .done c r → A.ends c r (if r then .after else .before)) (u : Tid) (c : Call)
    (r : Bool) (hu : update st t y u = .done c r) :
    A.ends c r (if r then .after else .before) := by
  by_cases hut : u = t
  · subst hut
    rw [update_self] at hu
    exact hy c r hu
  · rw [update_of_ne hut] at hu
    exact h u c r hu

/-- A call of the history is one of the lock. -/
theorem LockApi.Fits.call {own : Tid → Held} {z : (A.definite Tid).Config} {m : LockMem Tid}
    {t : Tid} {c : Call} (h : A.Fits own z m) (ht : z.status t = .idle)
    (hmay : A.manners.may own t c) :
    ∃ m', (A.world Tid).call t c m m' ∧
      A.Fits (A.manners.next own (.call t c)) ⟨z.state, update z.status t (.called c)⟩ m' := by
  obtain rfl := h.owned
  have hcall : (A.world Tid).call t c m _ := ⟨hmay, rfl⟩
  refine ⟨_, hcall, h.abs, rfl, ?_, ?_⟩
  · rw [atOnce_update]
    exact h.inv.call (congrArg atOnce ht) hcall
  · exact LockApi.ends_update h.ends fun c r hy => by cases hy

/-- So is a return. -/
theorem LockApi.Fits.ret {own : Tid → Held} {z : (A.definite Tid).Config} {m : LockMem Tid}
    {t : Tid} {c : Call} {r : Bool} (h : A.Fits own z m) (ht : z.status t = .done c r) :
    ∃ m', (A.world Tid).ret t c r m m' ∧
      A.Fits (A.manners.next own (.ret t c r)) ⟨z.state, update z.status t .idle⟩ m' := by
  obtain rfl := h.owned
  have hret : (A.world Tid).ret t c r m _ := rfl
  refine ⟨_, hret, ?_, ?_, ?_, ?_⟩
  · rw [← h.abs]
    cases r <;> rfl
  · cases r <;> rfl
  · rw [atOnce_update]
    exact h.inv.ret (congrArg atOnce ht) (h.ends t c r ht) hret
  · exact LockApi.ends_update h.ends fun c r hy => by cases hy

/-- The function may answer what the object does. -/
theorem LockApi.Answers.word (hans : A.Answers prog) {t : Tid} {c : Call} {r : Bool}
    {m : LockMem Tid} {ph : Tid → Option (Call × Phase)} {a : RWLock Tid} (hinv : LockInv A m ph)
    (ht : ph t = some (c, .before)) (hdoes : (A.definite Tid).does t c r m.abs a) :
    ∃ v', WordMay (prog c) m.word r v' := by
  obtain ⟨hfor, hrefuse⟩ := hans c m.word (hinv.shows ht)
  obtain ⟨hdefinite, hdoes⟩ := hdoes
  cases r with
  | true => exact hfor (hinv.encodes.ready hinv.room hdoes.1)
  | false =>
    obtain ⟨-, hvoid, htaken⟩ := hdoes
    have hgives := LockApi.gives_of_not_void hvoid
    refine hrefuse (fun hready => ?_) hvoid
    have hperm := hinv.encodes.permitted (t := t) hready hgives
    cases hact : A.act c with
    | acquireRead => rw [hdefinite rfl hact] at hvoid; cases hvoid
    | acquireWrite => exact htaken hact hperm
    | releaseRead => rw [hact] at hgives; cases hgives
    | releaseWrite => rw [hact] at hgives; cases hgives

/-- **An instant of the history** is a whole call of the lock, performed at once. -/
theorem LockApi.Fits.commit (hconf : A.Conforms prog) (hans : A.Answers prog) {own : Tid → Held}
    {z : (A.definite Tid).Config} {m : LockMem Tid} {t : Tid} {c : Call} {r : Bool}
    {a : RWLock Tid} (h : A.Fits own z m) (ht : z.status t = .called c)
    (hdoes : (A.definite Tid).does t c r z.state a) :
    ∃ m', May ((A.world Tid).allowed A.Room t c) (prog c) m r m' ∧
      A.Fits own ⟨a, update z.status t (.done c r)⟩ m' := by
  obtain ⟨σ, st⟩ := z
  obtain rfl : m.abs = σ := h.abs
  have hph : atOnce (st t) = some (c, Phase.before) := congrArg atOnce ht
  obtain ⟨v', hword⟩ := hans.word h.inv hph hdoes
  obtain ⟨-, hdoes⟩ := hdoes
  have hroom : r = true → ((A.act c).apply t m.abs).readers.card < A.cap := by
    rintro rfl
    obtain ⟨-, rfl, hlt⟩ := hdoes
    exact hlt
  obtain ⟨m', hmay, habs, hown⟩ := LockApi.may_exec hword (hconf c) h.inv hph hroom
  obtain ⟨l, hends, hinv⟩ := Outline.may (O := LockApi.outline hconf) hmay (hconf c) h.inv hph
  have hl : l = if r then Phase.after else Phase.before := by
    cases l with
    | before =>
      have hr : r ≠ true := fun hr => by cases hends.1.mp hr
      rw [if_neg hr]
    | after => rw [if_pos (hends.1.mpr rfl)]
  subst hl
  refine ⟨m', hmay, ?_, hown.trans h.owned, ?_, ?_⟩
  · rw [habs]
    cases r with
    | true => exact hdoes.2.1.symm
    | false => exact hdoes.1.symm
  · rw [atOnce_update]
    exact hinv
  · refine LockApi.ends_update h.ends fun c' r' hy => ?_
    obtain ⟨rfl, rfl⟩ : c = c' ∧ r = r' := by simpa using hy
    exact hends

/-- **A conforming lock that answers follows the object.** -/
def LockApi.realizes (hconf : A.Conforms prog) (hans : A.Answers prog) :
    Realization (A.world Tid) prog A.Room (A.definite Tid) A.manners where
  fits := A.Fits
  within h := h.inv.room
  call h ht hmay := h.call ht hmay
  commit h ht hdoes := h.commit hconf hans ht hdoes
  ret h ht := h.ret ht

/-! ## The histories -/

theorem LockApi.Fits.start : A.Fits (fun _ => ⟨0, 0⟩) ((A.definite Tid).start RWLock.free)
    (LockMem.initializer Tid) where
  abs := rfl
  owned := rfl
  inv := LockInv.initial
  ends t c r h := by cases h

/-- **The histories of a lock are those of its object**, if no shared acquisition is refused. -/
theorem LockApi.histories_iff (hconf : A.Conforms prog) (href : A.Refuses prog)
    (hans : A.Answers prog) {h : List (Visible Tid Call Bool)}
    (hdefinite : ∀ t c r, .ret t c r ∈ h → A.Definite c r) :
    Histories (A.world Tid) prog A.Room (LockMem.initializer Tid) h ↔
      A.manners.Kept (fun _ => ⟨0, 0⟩) h ∧ (A.object Tid).Linearizable RWLock.free h := by
  constructor
  · rintro ⟨tr, s, hrun, hroom, rfl⟩
    refine ⟨?_, LockApi.linearizable hconf href hrun hroom⟩
    refine Run.kept (N := A.manners) (fun m : LockMem Tid => m.owned) ?_ ?_ ?_ ?_ hrun
    · rintro t c m m' ⟨hcov, rfl⟩
      exact ⟨hcov, rfl⟩
    · rintro t c o m m' a ⟨v, -, rfl⟩
      unfold LockMem.answer
      split <;> rfl
    · rintro t c r m m' rfl
      cases r <;> rfl
    · intro t m m' hclient
      exact hclient.elim
  · rintro ⟨hkept, hlin⟩
    have hlin' : (A.definite Tid).Linearizable RWLock.free h := by
      refine hlin.only ?_ hdefinite
      intro t c r σ σ' hnot hdoes
      cases r with
      | true => exact absurd (fun h => by cases h) hnot
      | false => exact hdoes.1
    exact (LockApi.realizes hconf hans).histories hlin' hkept LockApi.Fits.start

/-- **What the callers of a `wfe_mutex_lock` can see, exactly**: every linearizable history of
    clients that unlock only what they hold, and no other.  The right side knows neither the
    platform nor the build: no client can tell one from another by what its calls return. -/
theorem mutex_histories (P : Platform) (debug : Bool)
    (hdiv : P.scale.cyclesPerNanosecondDivisor ≠ 0) (h : List (Visible Tid LockCall Bool)) :
    Histories (mutexApi.world Tid) (LockCall.prog debug P.features) (fun _ => True)
        (LockMem.initializer Tid) h ↔
      mutexApi.manners.Kept (fun _ => ⟨0, 0⟩) h ∧
        (mutexApi.object Tid).Linearizable RWLock.free h := by
  have hdefinite : ∀ t c r, .ret t c r ∈ h → mutexApi.Definite c r := by
    intro t c r _ _ hact
    rcases mutexApi_writeOnly c with hwrite | hwrite <;> rw [hact] at hwrite <;> cases hwrite
  rw [← LockApi.histories_iff (mutexApi_conforms debug P) (mutexApi_refuses debug P.features)
    (mutexApi_answers P debug hdiv) hdefinite]
  constructor
  · rintro ⟨tr, s, hrun, -, hhist⟩
    exact ⟨tr, s, hrun, mutexApi_writeOnly.room hrun, hhist⟩
  · rintro ⟨tr, s, hrun, -, hhist⟩
    exact ⟨tr, s, hrun, fun _ _ => trivial, hhist⟩

/-- **And the callers of a `wfe_mutex_rwlock`**, while fewer than 2^31 read holds are outstanding,
    as long as no `trylock_shared` is refused. -/
theorem rwlock_histories (P : Platform) (debug : Bool)
    (hdiv : P.scale.cyclesPerNanosecondDivisor ≠ 0) (h : List (Visible Tid RwlockCall Bool))
    (hshared : ∀ t, .ret t .trylockShared false ∉ h) :
    Histories (rwlockApi.world Tid) (RwlockCall.prog debug P.features) rwlockApi.Room
        (LockMem.initializer Tid) h ↔
      rwlockApi.manners.Kept (fun _ => ⟨0, 0⟩) h ∧
        (rwlockApi.object Tid).Linearizable RWLock.free h := by
  refine LockApi.histories_iff (rwlockApi_conforms debug P) (rwlockApi_refuses debug P.features)
    (rwlockApi_answers P debug hdiv) ?_
  rintro t c r hret rfl hact
  cases c with
  | trylockShared => exact absurd hret (hshared t)
  | rdlock | wrlock | unlock | readUnlock => rfl
  | timedwrlock | trylock => cases hact

end

/-- Thread `true` locks a mutex; thread `false` asks for it with a timeout and gets it only when it
    asks again, after the unlock. -/
theorem mutex_histories_timeout :
    Histories (mutexApi.world Bool) (LockCall.prog false Platform.uninitialised.features)
      (fun _ => True) (LockMem.initializer Bool)
      [.call true (.lock false), .ret true (.lock false) true, .call false (.timedlock 5 true),
        .call true .unlock, .ret false (.timedlock 5 true) false, .ret true .unlock true,
        .call false (.timedlock 5 true), .ret false (.timedlock 5 true) true] := by
  have hroom : 0 < 1 := Nat.one_pos
  refine (mutex_histories Platform.uninitialised false (by decide) _).mpr ⟨?_, ?_⟩
  · exact ⟨trivial, trivial, Nat.one_pos, trivial, trivial⟩
  · exact ⟨_, .call rfl (.commit (t := true) rfl (LockApi.does_performed ⟨rfl, rfl⟩ hroom)
      (.ret rfl (.call rfl
        (.commit (t := false) rfl (LockApi.does_refused rfl fun _ h => by cases h.1)
          (.call rfl (.ret rfl (.commit (t := true) rfl (LockApi.does_performed rfl hroom)
            (.ret rfl (.call rfl
              (.commit (t := false) rfl (LockApi.does_performed ⟨rfl, rfl⟩ hroom)
                (.ret rfl (.nil _))))))))))))⟩

/-- Two readers; a writer's `trylock` is refused while they are there. -/
theorem rwlock_histories_readers :
    Histories (rwlockApi.world Nat) (RwlockCall.prog true Platform.uninitialised.features)
      rwlockApi.Room (LockMem.initializer Nat)
      [.call 1 (.rdlock true), .call 2 .trylockShared, .ret 2 .trylockShared true,
        .ret 1 (.rdlock true) true, .call 3 .trylock, .ret 3 .trylock false] := by
  have hroom : 2 < 2 ^ 31 := by decide
  refine (rwlock_histories Platform.uninitialised true (by decide) _ ?_).mpr ⟨?_, ?_⟩
  · simp
  · exact ⟨trivial, trivial, trivial, trivial⟩
  · exact ⟨_, .call rfl
      (.commit (t := 1) rfl (LockApi.does_performed rfl (Nat.lt_of_succ_lt hroom))
        (.call rfl (.commit (t := 2) rfl (LockApi.does_performed rfl hroom)
          (.ret rfl (.ret rfl (.call rfl
            (.commit (t := 3) rfl (LockApi.does_refused rfl fun _ h => absurd h.2 (by decide))
              (.ret rfl (.nil _)))))))))⟩

end WfeMutex
