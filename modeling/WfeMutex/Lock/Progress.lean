/-
  A CALL THAT NEVER RETURNS IS THE CLIENTS' DOING.

  `Lock.Asleep` lets a thread run alone.  Here nobody stops: a run goes on for ever, with all
  threads, their monitors and every disturbance, under a scheduler that is only weakly fair.  Let a
  call never return in it.  Then the call is one that waits, for a release or an attempt is over
  after three steps (`LockApi.returns_of_quick`), and one of two things is so.  Either the acts of
  other threads take effect again and again, for ever; or some thread has, by the calls it has come
  back from, what stands in the way, and from some point on it is inside no call that gives it back
  (`LockApi.Occupied`).  No wake-up is lost, no unlock gets stuck, and a lock that nobody holds does
  not stay idle.

  If the acts come to an end, the word stands still.  From then on a thread from which nothing is
  withheld is not asleep, so the scheduler must let it take step after step, and within forty of
  them it returns (`LockApi.returns_of_quiet`).  So from the thread that does not return something
  is withheld, by a holder who stays one.  A call that has acted has nothing withheld from it and
  returns (`LockApi.wrote_settles`), and so would a release that has not, after its act
  (`LockApi.takes_of_quiet`): the holder is in neither, and what it has is what its own account
  says (`LockApi.held_eq_owned`).
-/
import WfeMutex.Conc.Forever
import WfeMutex.Lock.Asleep
import WfeMutex.Lock.Retry

set_option linter.unusedVariables false

namespace WfeMutex

open Conc
open Function (update update_self update_of_ne)

section
variable {Call Tid : Type} [DecidableEq Tid] {A : LockApi Call}
  {prog : Call → Prog (atomics 32) Bool}

/-! ## Acts, and steps that are none -/

/-- Thread `t` writes the word: the act of its call takes effect. -/
def Acts (e : Event (atomics 32) Tid Call Bool) (t : Tid) : Prop :=
  ∃ c o a, e = .op t c o a ∧ o.writes a = true

/-- A step that is nobody's act leaves the word and the abstract lock alone, and every thread's
    count of writes, unless that thread starts a call. -/
theorem LockApi.quiet_step {s s' : Pool (A.world Tid)} {e : Event (atomics 32) Tid Call Bool}
    (hstep : Pool.Step prog s e s') (hquiet : ∀ u, ¬ Acts e u) :
    s'.mem.word = s.mem.word ∧ s'.mem.abs = s.mem.abs ∧
      ∀ u, s.thread u ≠ none → s'.mem.wrote u = s.mem.wrote u := by
  cases hstep with
  | @call t c m ht hcall =>
    obtain ⟨-, rfl⟩ := hcall
    refine ⟨rfl, rfl, fun u hu => update_of_ne ?_ ..⟩
    rintro rfl
    exact hu ht
  | @op t c o k a m ht hexec =>
    obtain ⟨v, heff, rfl⟩ := hexec
    cases ha : o.writes a with
    | false =>
      rw [Pool.put_mem, LockMem.answer_look heff ha]
      exact ⟨rfl, rfl, fun _ _ => rfl⟩
    | true => exact absurd ⟨c, o, a, rfl, ha⟩ (hquiet t)
  | jump ht => exact ⟨rfl, rfl, fun _ _ => rfl⟩
  | @ret t c r m ht hret =>
    obtain rfl := hret
    cases r <;> exact ⟨rfl, rfl, fun _ _ => rfl⟩
  | client ht hclient => exact hclient.elim

variable (A) in
/-- Thread `t` is inside a call, and not asleep: the memory lets it go on
    (`LockApi.monitored_answers`). -/
def LockApi.Awake (t : Tid) (s : Pool (A.monitored Tid)) : Prop :=
  ∃ c p, s.thread t = some (c, p) ∧ ¬ A.Asleep s t c

/-! ## When the acts have come to an end -/

/-- Whether something is withheld depends on the lock and on the own writes. -/
theorem LockApi.withheld_congr {s s' : Pool (A.monitored Tid)} {t : Tid} {c : Call}
    (habs : s'.mem.lock.abs = s.mem.lock.abs)
    (hwrote : s'.mem.lock.wrote t = s.mem.lock.wrote t) :
    A.Withheld s' t c ↔ A.Withheld s t c := by
  unfold LockApi.Withheld
  rw [habs, hwrote]

/-- A thread from which nothing is withheld is at most forty steps from its return. -/
theorem LockApi.within_of_free (hconf : A.Conforms prog) {sure : Call → Prop}
    (hset : ∀ c, sure c → Settles (A.leaving (A.act c)) 40 (prog c) .before (A.ends c))
    {s : Pool (A.monitored Tid)} (hs : A.MonitoredReachable prog s) {t : Tid} {c : Call}
    {p : Prog (atomics 32) Bool} (ht : s.thread t = some (c, p)) (hsure : sure c)
    (hfree : ¬ A.Withheld s t c) : Within wordStep (fun _ _ => True) 40 p s.mem.lock.word := by
  obtain ⟨monitor, hreach⟩ := hs
  have hunder : A.Reachable prog (s.under MonitoredMem.lock) :=
    Reach.under LockApi.monitored_over hreach
  refine (LockApi.within_of_permits hconf hset hunder ht hsure ?_).post fun _ _ _ => trivial
  intro hgives hwrote
  by_contra hnot
  exact hfree ⟨hgives, hwrote, hnot⟩

variable {attempts : Call → Nat} {sure : Call → Prop} {F : Forever (A.monitored Tid) prog}

/-- **Once nobody acts, a thread from which nothing is withheld returns**, however rarely it is
    let run. -/
theorem LockApi.returns_of_quiet (hconf : A.Conforms prog) (hstrive : A.Strives attempts prog)
    (hset : ∀ c, sure c → Settles (A.leaving (A.act c)) 40 (prog c) .before (A.ends c))
    (hreach : ∀ n, A.MonitoredReachable prog (F.state n)) {t : Tid} {c : Call} (hsure : sure c)
    (hfair : F.Fair A.Awake t) {n : Nat} (hquiet : ∀ m, n ≤ m → ∀ u, ¬ Acts (F.ev m) u)
    {p : Prog (atomics 32) Bool} (ht : (F.state n).thread t = some (c, p))
    (hfree : ¬ A.Withheld (F.state n) t c) :
    ∃ m, n ≤ m ∧ ∃ r, F.ev m = .ret t c r ∧
      (F.state m).mem.lock.wrote t = (F.state n).mem.lock.wrote t := by
  have hstill : ∀ m, n ≤ m → (F.state m).thread t ≠ none →
      (F.state (m + 1)).mem.lock.word = (F.state m).mem.lock.word ∧
        (F.state (m + 1)).mem.lock.abs = (F.state m).mem.lock.abs ∧
        (F.state (m + 1)).mem.lock.wrote t = (F.state m).mem.lock.wrote t := by
    intro m hm hin
    obtain ⟨hword, habs, hwrote⟩ :=
      LockApi.quiet_step ((F.step m).under LockApi.monitored_over) (hquiet m hm)
    exact ⟨hword, habs, hwrote t hin⟩
  refine Forever.descends (N := n) (X := fun k s => ∃ p, s.thread t = some (c, p) ∧
      Within wordStep (fun _ _ => True) k p s.mem.lock.word ∧ ¬ A.Withheld s t c ∧
      s.mem.lock.wrote t = (F.state n).mem.lock.wrote t) hfair ?_ ?_ ?_ (k := 40)
      (Nat.le_refl n)
      ⟨p, ht, LockApi.within_of_free hconf hset (hreach n) ht hsure hfree, hfree, rfl⟩
  · rintro m k hm ⟨p, ht, hwithin, hfree, -⟩
    refine ⟨c, p, ht, fun h => ?_⟩
    exact hfree (LockApi.withheld_of_asleep hconf hstrive (hreach m) h)
  · rintro m k hm ⟨p, ht, hwithin, hfree, hw⟩ hother
    obtain ⟨hword, habs, hwrote⟩ := hstill m hm (by rw [ht]; exact Option.some_ne_none _)
    refine ⟨p, ?_, ?_, ?_, hwrote.trans hw⟩
    · rw [(F.step m).thread_of_ne hother]
      exact ht
    · rw [hword]
      exact hwithin
    · rwa [LockApi.withheld_congr habs hwrote]
  · rintro m k hm ⟨p, ht, hwithin, hfree, hw⟩ hself
    obtain ⟨hword, habs, hwrote⟩ := hstill m hm (by rw [ht]; exact Option.some_ne_none _)
    have hown := (F.step m).own hself ht
    have hfree' : ¬ A.Withheld (F.state (m + 1)) t c := by
      rwa [LockApi.withheld_congr habs hwrote]
    cases p with
    | ret r => exact Or.inl ⟨r, hown.1, hw⟩
    | op o f =>
      obtain ⟨a, hev, ⟨⟨v, heff, hlock⟩, -⟩, ht'⟩ := hown
      have hv : (F.state (m + 1)).mem.lock.word = v := by
        rw [hlock, LockMem.answer_word]
      cases k with
      | zero => exact hwithin.elim
      | succ k =>
        refine Or.inr ⟨k, Nat.lt_succ_self k, f a, ht', ?_, hfree', hwrote.trans hw⟩
        rw [hv]
        exact hwithin.2 a v heff
    | loop body x f =>
      obtain ⟨hev, -, ht'⟩ := hown
      cases k with
      | zero => exact hwithin.elim
      | succ k =>
        refine Or.inr ⟨k, Nat.lt_succ_self k, _, ht', ?_, hfree', hwrote.trans hw⟩
        rw [hword]
        exact hwithin

/-! ## Calls that never wait -/

/-- **A call of few steps returns**, whoever acts meanwhile: it never sleeps, so the scheduler lets
    it take step after step. -/
theorem LockApi.returns_of_quick (hconf : A.Conforms prog) (quick : Call → Prop) {k : Nat}
    (hquick : ∀ c, quick c → Within (A.company (A.act c)) (fun _ _ => True) k (prog c) .before)
    (hreach : ∀ n, A.MonitoredReachable prog (F.state n)) {t : Tid} {c : Call} (hc : quick c)
    (hfair : F.Fair A.Awake t) {n : Nat} {p : Prog (atomics 32) Bool}
    (ht : (F.state n).thread t = some (c, p)) : ∃ m, n ≤ m ∧ ∃ r, F.ev m = .ret t c r := by
  have hplain : ∀ n, A.Reachable prog ((F.state n).under MonitoredMem.lock) := by
    intro n
    obtain ⟨monitor, hn⟩ := hreach n
    exact Reach.under LockApi.monitored_over hn
  have hok : ∀ n, A.Room (F.state n).mem.lock := fun n => (LockApi.encodes hconf (hplain n)).2.2
  obtain ⟨ph, hcov, htracked⟩ := (LockApi.tracks_company hconf hquick).reach (hplain n)
    LockInv.initial
  obtain ⟨l, hph, -⟩ := hcov.busy (t := t) ht
  refine Forever.descends (N := n) (X := fun k s => ∃ ph p l,
      (LockApi.outline hconf : Outline (A.world Tid) prog A.Room Phase).Covers
        (s.under MonitoredMem.lock) ph ∧ s.thread t = some (c, p) ∧ ph t = some (c, l) ∧
      Within (A.company (A.act c)) (fun _ _ => True) k p l) hfair ?_ ?_ ?_ (Nat.le_refl n)
      ⟨ph, p, l, hcov, ht, hph, (htracked t c p l ht hph).2 hc⟩
  · rintro m k - ⟨ph, p, l, -, ht, -, hwithin⟩
    refine ⟨c, p, ht, ?_⟩
    -- a sleeping instruction is not among its steps
    rintro ⟨⟨i, f, hasleep⟩, -⟩
    rw [ht] at hasleep
    cases hasleep
    cases k with
    | zero => exact hwithin.elim
    | succ k =>
      obtain ⟨⟨-, -, hsleeps, -⟩, -⟩ := hwithin
      cases hsleeps
  · rintro m k - ⟨ph, p, l, hcov, ht, hph, hwithin⟩ hother
    have hstep := (F.step m).under LockApi.monitored_over
    rcases hcov.within_step (t := t) ht hph hwithin hstep (hok (m + 1)) with
      ⟨r, he⟩ | ⟨ph', p', l', k', hcov', ht', hph', hwithin', hk⟩
    · exact absurd (congrArg Event.tid he) hother
    · rw [if_neg hother] at hk
      exact ⟨ph', p', l', hcov', ht', hph', hk ▸ hwithin'⟩
  · rintro m k - ⟨ph, p, l, hcov, ht, hph, hwithin⟩ hself
    have hstep := (F.step m).under LockApi.monitored_over
    rcases hcov.within_step (t := t) ht hph hwithin hstep (hok (m + 1)) with
      he | ⟨ph', p', l', k', hcov', ht', hph', hwithin', hk⟩
    · exact Or.inl he
    · rw [if_pos hself] at hk
      exact Or.inr ⟨k', by omega, ph', p', l', hcov', ht', hph', hwithin'⟩

/-! ## A call that never returns -/

/-- Acts of threads other than `t` take effect again and again. -/
def LockApi.Overtaken (F : Forever (A.monitored Tid) prog) (t : Tid) : Prop :=
  ∀ n, ∃ m, n ≤ m ∧ ∃ u, u ≠ t ∧ Acts (F.ev m) u

/-- From some point on, thread `u` has what stands in the way of the act `x`, by its own account,
    that is, from calls that have returned; and it is inside no call that gives anything back. -/
def LockApi.Occupied (F : Forever (A.monitored Tid) prog) (x : LockAct) (u : Tid) : Prop :=
  ∃ n, ∀ m, n ≤ m → x.barredBy ((F.state m).mem.lock.owned u) ∧
    ∀ d p, (F.state m).thread u = some (d, p) → (A.act d).gives = false

/-- Every step of an infinite run is one of the abstract lock. -/
theorem LockApi.simulates_forever (hconf : A.Conforms prog)
    (hreach : ∀ n, A.MonitoredReachable prog (F.state n)) (n : Nat) :
    A.Simulates (F.state n).mem.lock (F.ev n) (F.state (n + 1)).mem.lock := by
  have hplain : ∀ n, A.Reachable prog ((F.state n).under MonitoredMem.lock) := by
    intro n
    obtain ⟨monitor, hn⟩ := hreach n
    exact Reach.under LockApi.monitored_over hn
  exact LockApi.simulates hconf (hplain n) ((F.step n).under LockApi.monitored_over)
    (LockApi.encodes hconf (hplain (n + 1))).2.2

/-- An act is its call's first write. -/
theorem LockApi.wrote_of_acts (hconf : A.Conforms prog)
    (hreach : ∀ n, A.MonitoredReachable prog (F.state n)) {t : Tid} {n : Nat}
    (h : Acts (F.ev n) t) :
    (F.state n).mem.lock.wrote t = 0 ∧ (F.state (n + 1)).mem.lock.wrote t = 1 := by
  obtain ⟨c, o, a, hev, ha⟩ := h
  have hsim := LockApi.simulates_forever hconf hreach n
  rw [hev, LockApi.Simulates, if_pos ha] at hsim
  exact ⟨hsim.2.2.1, hsim.2.2.2.1⟩

/-- A call acts once: when the others have come to an end, so does it. -/
theorem LockApi.quiet_of_others (hconf : A.Conforms prog)
    (hreach : ∀ n, A.MonitoredReachable prog (F.state n)) {t : Tid} {c : Call} {n : Nat}
    (hin : F.Inside t c n) (hothers : ∀ m, n ≤ m → ∀ u, u ≠ t → ¬ Acts (F.ev m) u) :
    ∃ m, n ≤ m ∧ ∀ k, m ≤ k → ∀ u, ¬ Acts (F.ev k) u := by
  have hall : ∀ k, n ≤ k → ¬ Acts (F.ev k) t → ∀ u, ¬ Acts (F.ev k) u := by
    intro k hk ht u
    by_cases hu : u = t
    · rw [hu]
      exact ht
    · exact hothers k hk u hu
  by_cases hact : ∃ m, n ≤ m ∧ Acts (F.ev m) t
  · obtain ⟨m, hm, hacts⟩ := hact
    have hone : ∀ k, m + 1 ≤ k → (F.state k).mem.lock.wrote t = 1 := by
      intro k hk
      induction k, hk using Nat.le_induction with
      | base => exact (LockApi.wrote_of_acts hconf hreach hacts).2
      | succ k hk ih =>
        have hnot : ¬ Acts (F.ev k) t := by
          intro h
          have hzero := (LockApi.wrote_of_acts hconf hreach h).1
          omega
        obtain ⟨p, ht⟩ := hin k (by omega)
        obtain ⟨-, -, hsame⟩ := LockApi.quiet_step
          ((F.step k).under LockApi.monitored_over) (hall k (by omega) hnot)
        have hbusy : (F.state k).thread t ≠ none := by
          rw [ht]
          exact Option.some_ne_none _
        exact (hsame t hbusy).trans ih
    refine ⟨m + 1, by omega, fun k hk => hall k (by omega) fun h => ?_⟩
    have hzero := (LockApi.wrote_of_acts hconf hreach h).1
    rw [hone k hk] at hzero
    cases hzero
  · exact ⟨n, Nat.le_refl n, fun k hk => hall k hk fun h => hact ⟨k, hk, h⟩⟩

/-- Once nobody acts, a thread is inside no call that has acted, from some point on: that call
    returns. -/
theorem LockApi.wrote_settles (hconf : A.Conforms prog) (hstrive : A.Strives attempts prog)
    (hset : ∀ c, sure c → Settles (A.leaving (A.act c)) 40 (prog c) .before (A.ends c))
    (hreach : ∀ n, A.MonitoredReachable prog (F.state n)) (hsure : ∀ d, F.Calls d → sure d)
    {u : Tid} (hfair : F.Fair A.Awake u) {n : Nat}
    (hquiet : ∀ m, n ≤ m → ∀ v, ¬ Acts (F.ev m) v) :
    ∃ n', n ≤ n' ∧ ∀ m, n' ≤ m → (F.state m).thread u ≠ none →
      (F.state m).mem.lock.wrote u = 0 := by
  obtain ⟨n', hn', hstart⟩ : ∃ n', n ≤ n' ∧
      ((F.state n').thread u ≠ none → (F.state n').mem.lock.wrote u = 0) := by
    cases ht : (F.state n).thread u with
    | none => exact ⟨n, Nat.le_refl n, fun h => absurd ht h⟩
    | some x =>
      obtain ⟨d, p⟩ := x
      by_cases hw : (F.state n).mem.lock.wrote u = 0
      · exact ⟨n, Nat.le_refl n, fun _ => hw⟩
      · obtain ⟨m, hm, r, hev, -⟩ := LockApi.returns_of_quiet hconf hstrive hset hreach
          (hsure d ⟨n, u, p, ht⟩) hfair hquiet ht fun hheld => hw hheld.2.1
        exact ⟨m + 1, by omega, fun h => absurd ((F.step m).thread_of_ret hev) h⟩
  refine ⟨n', hn', fun m hm => ?_⟩
  refine Forever.keeps (I := fun s : Pool (A.monitored Tid) =>
    s.thread u ≠ none → s.mem.lock.wrote u = 0) (fun k hk h hin => ?_) hstart hm
  cases ht : (F.state k).thread u with
  | none =>
    -- the call begins with this step
    obtain ⟨d, hev⟩ := (F.step k).call_of_thread ht hin
    have hsim := LockApi.simulates_forever hconf hreach k
    rw [hev] at hsim
    exact hsim.1
  | some x =>
    have hbusy : (F.state k).thread u ≠ none := by
      rw [ht]
      exact Option.some_ne_none x
    obtain ⟨-, -, hsame⟩ := LockApi.quiet_step ((F.step k).under LockApi.monitored_over)
      (hquiet k (by omega))
    exact (hsame u hbusy).trans (h hbusy)

/-- Once nobody acts, a release is under way nowhere: it would return, and so have acted. -/
theorem LockApi.takes_of_quiet (hconf : A.Conforms prog) (hstrive : A.Strives attempts prog)
    (hset : ∀ c, sure c → Settles (A.leaving (A.act c)) 40 (prog c) .before (A.ends c))
    (hreach : ∀ n, A.MonitoredReachable prog (F.state n)) {u : Tid} {d : Call} (hsure : sure d)
    (hfair : F.Fair A.Awake u) {n : Nat} (hquiet : ∀ m, n ≤ m → ∀ v, ¬ Acts (F.ev m) v)
    {p : Prog (atomics 32) Bool} (ht : (F.state n).thread u = some (d, p))
    (hwrote : (F.state n).mem.lock.wrote u = 0) : (A.act d).gives = false := by
  by_contra hnot
  have hgives : (A.act d).gives = true := Bool.eq_true_of_not_eq_false hnot
  obtain ⟨k, hk, r, hret, hsame⟩ := LockApi.returns_of_quiet hconf hstrive hset hreach hsure hfair
    hquiet ht fun hheld => hnot hheld.1
  have hsim := LockApi.simulates_forever hconf hreach k
  rw [hret] at hsim
  obtain ⟨hwrites, hvoid, -⟩ := hsim
  rw [hsame, hwrote, hvoid (LockApi.void_of_gives hgives)] at hwrites
  cases hwrites

/-- A thread outside all calls, or before the act of one that takes, has what its account says. -/
theorem LockApi.held_eq_owned (hconf : A.Conforms prog) {s : Pool (A.world Tid)}
    (hs : A.Reachable prog s) {u : Tid} (hwrote : s.thread u ≠ none → s.mem.wrote u = 0)
    (htakes : ∀ d p, s.thread u = some (d, p) → (A.act d).gives = false) :
    s.mem.abs.held u = s.mem.owned u := by
  have hheld := LockApi.held_eq_account hconf hs u
  unfold LockApi.account at hheld
  cases ht : s.thread u with
  | none =>
    rw [ht] at hheld
    exact hheld
  | some x =>
    obtain ⟨d, p⟩ := x
    have hzero := hwrote (by rw [ht]; exact Option.some_ne_none _)
    rw [ht] at hheld
    have hpending : s.mem.abs.held u = if s.mem.wrote u = 0 then _ else _ := hheld
    rw [if_pos hzero, LockAct.pending_of_takes (htakes d p ht)] at hpending
    exact hpending

/-- **If a call never returns**, it is one that waits, and others act for ever, or somebody keeps
    what stands in its way. -/
theorem LockApi.overtaken_or_occupied (hconf : A.Conforms prog)
    (hstrive : A.Strives attempts prog)
    (hset : ∀ c, sure c → Settles (A.leaving (A.act c)) 40 (prog c) .before (A.ends c))
    (hreach : ∀ n, A.MonitoredReachable prog (F.state n)) (hfair : ∀ u, F.Fair A.Awake u)
    (hsure : ∀ d, F.Calls d → sure d) {t : Tid} {c : Call} {n : Nat} (hin : F.Inside t c n) :
    LockApi.Overtaken F t ∨ ∃ u, LockApi.Occupied F (A.act c) u := by
  by_cases hover : LockApi.Overtaken F t
  · exact Or.inl hover
  right
  have hcalled : sure c := by
    obtain ⟨p, ht⟩ := hin n (Nat.le_refl n)
    exact hsure c ⟨n, t, p, ht⟩
  obtain ⟨n₁, hothers⟩ : ∃ n₁, ∀ m, n₁ ≤ m → ∀ u, u ≠ t → ¬ Acts (F.ev m) u := by
    by_contra hall
    refine hover fun n => ?_
    by_contra hnone
    exact hall ⟨n, fun m hm u hu hacts => hnone ⟨m, hm, u, hu, hacts⟩⟩
  obtain ⟨n₂, hn₂, hquiet⟩ := LockApi.quiet_of_others hconf hreach (n := max n n₁)
    (fun m hm => hin m (by omega)) fun m hm => hothers m (by omega)
  -- something is withheld from `t`, or it would return
  have hheld : A.Withheld (F.state n₂) t c := by
    by_contra hfree
    have hstill : F.Inside t c n₂ := fun m hm => hin m (by omega)
    refine hstill.not_returns fun p ht => ?_
    obtain ⟨m, hm, r, hev, -⟩ :=
      LockApi.returns_of_quiet hconf hstrive hset hreach hcalled (hfair t) hquiet ht hfree
    exact ⟨m, hm, r, hev⟩
  obtain ⟨u, hu⟩ := RWLock.exists_barring hheld.1 hheld.2.2
  have hstays : ∀ m, n₂ ≤ m → (F.state m).mem.lock.abs = (F.state n₂).mem.lock.abs := by
    intro m hm
    refine Forever.keeps (I := fun s : Pool (A.monitored Tid) =>
      s.mem.lock.abs = (F.state n₂).mem.lock.abs) (fun k hk h => ?_) rfl hm
    obtain ⟨-, habs, -⟩ :=
      LockApi.quiet_step ((F.step k).under LockApi.monitored_over) (hquiet k hk)
    exact Eq.trans habs h
  obtain ⟨n₃, hn₃, hwrote⟩ :=
    LockApi.wrote_settles hconf hstrive hset hreach hsure (hfair u) hquiet
  refine ⟨u, n₃, fun m hm => ?_⟩
  have htakes : ∀ d p, (F.state m).thread u = some (d, p) → (A.act d).gives = false := by
    intro d p ht
    refine LockApi.takes_of_quiet hconf hstrive hset hreach (hsure d ⟨m, u, p, ht⟩) (hfair u)
      (fun k hk => hquiet k (by omega)) ht (hwrote m hm ?_)
    rw [ht]
    exact Option.some_ne_none _
  obtain ⟨monitor, hm'⟩ := hreach m
  have howned := LockApi.held_eq_owned hconf (Reach.under LockApi.monitored_over hm') (u := u)
    (hwrote m hm) htakes
  refine ⟨?_, htakes⟩
  rw [← show (F.state m).mem.lock.abs.held u = (F.state m).mem.lock.owned u from howned,
    hstays m (by omega)]
  exact hu

/-- **A call on a readers/writer lock that never returns** is the clients' doing.  Let any number of
    threads with monitors call its functions for ever, from any reachable state, every thread that
    is awake inside a call being let run again and again.  If some call never returns, then it is
    one that waits, not a release or an attempt; and acts of other threads take effect for ever, or
    some thread has what stands in its way from some point on, by calls that have returned, and is
    never again inside a call that gives it back.  (That thread is the caller itself if it asks for
    a lock that it has.  Timed calls convert their timeouts, and must not divide by zero.) -/
theorem rwlock_stuck_call (P : Platform) (debug : Bool)
    (F : Forever (rwlockApi.monitored Tid) (RwlockCall.prog debug P.features))
    (hstart : rwlockApi.MonitoredReachable (RwlockCall.prog debug P.features) (F.state 0))
    (hroom : ∀ n, rwlockApi.Room (F.state n).mem.lock) (hfair : ∀ u, F.Fair rwlockApi.Awake u)
    (hdiv : ∀ d, F.Calls d → d.timed = true → P.scale.cyclesPerNanosecondDivisor ≠ 0)
    (t : Tid) (c : RwlockCall) (n : Nat) (hin : F.Inside t c n) :
    c.waits = true ∧
      (LockApi.Overtaken F t ∨ ∃ u, LockApi.Occupied F (rwlockApi.act c) u) := by
  have hconf := rwlockApi_conforms debug P
  obtain ⟨monitor, hstart⟩ := hstart
  have hreach : ∀ n, rwlockApi.MonitoredReachable (RwlockCall.prog debug P.features) (F.state n) :=
    fun n => ⟨monitor, F.reach hstart hroom n⟩
  refine ⟨?_, LockApi.overtaken_or_occupied hconf (rwlockApi_strives P debug)
    (rwlockApi_settles P debug) hreach hfair hdiv hin⟩
  by_contra hwaits
  refine hin.not_returns fun p ht => ?_
  exact LockApi.returns_of_quick hconf (fun c => c.waits = false)
    (fun c hc => rwlock_company debug P.features hc) hreach (Bool.eq_false_of_not_eq_true hwaits)
    (hfair t) ht

/-- **And on a mutex**, in every infinite run. -/
theorem mutex_stuck_call (P : Platform) (debug : Bool) (monitor : Tid → Monitor)
    (F : Forever (mutexApi.monitored Tid) (LockCall.prog debug P.features))
    (hstart : Reach (LockCall.prog debug P.features) (fun _ => True)
      (⟨LockMem.initializer Tid, monitor⟩ : MonitoredMem Tid) (F.state 0))
    (hfair : ∀ u, F.Fair mutexApi.Awake u)
    (hdiv : ∀ d, F.Calls d → d.timed = true → P.scale.cyclesPerNanosecondDivisor ≠ 0)
    (t : Tid) (c : LockCall) (n : Nat) (hin : F.Inside t c n) :
    c.waits = true ∧ (LockApi.Overtaken F t ∨ ∃ u, LockApi.Occupied F (mutexApi.act c) u) := by
  have hconf := mutexApi_conforms debug P
  have hreach : ∀ n, mutexApi.MonitoredReachable (LockCall.prog debug P.features) (F.state n) :=
    fun n => mutexApi_writeOnly.monitored_reachable (F.reach hstart (fun _ => trivial) n)
  refine ⟨?_, LockApi.overtaken_or_occupied hconf (mutexApi_strives P debug)
    (mutexApi_settles P debug) hreach hfair hdiv hin⟩
  by_contra hwaits
  refine hin.not_returns fun p ht => ?_
  exact LockApi.returns_of_quick hconf (fun c => c.waits = false)
    (fun c hc => mutex_company debug P.features hc) hreach (Bool.eq_false_of_not_eq_true hwaits)
    (hfair t) ht

/-! ## Such runs there are -/

theorem LockApi.Asleep.inside {s : Pool (A.monitored Tid)} {t : Tid} {c : Call}
    (h : A.Asleep s t c) : ∃ p, s.thread t = some (c, p) := by
  obtain ⟨⟨i, k, ht⟩, -⟩ := h
  exact ⟨_, ht⟩

/-- Where one of two threads is always asleep, and the other makes all steps, both are treated
    fairly. -/
theorem LockApi.fair_of_asleep {A : LockApi Call} {F : Forever (A.monitored Bool) prog} {c : Call}
    (hasleep : ∀ n, A.Asleep (F.state n) false c) (hev : ∀ n, (F.ev n).tid = true) (u : Bool) :
    F.Fair A.Awake u := by
  intro n hawake
  cases u with
  | true => exact ⟨n, Nat.le_refl n, hev n⟩
  | false =>
    obtain ⟨d, p, ht, hnot⟩ := hawake n (Nat.le_refl n)
    obtain ⟨q, hq⟩ := (hasleep n).inside
    rw [ht] at hq
    cases hq
    exact absurd (hasleep n) hnot

/-- Where a thread sleeps, another may try in vain for ever, and nobody acts. -/
theorem LockApi.sleeps_on {s : Pool (A.monitored Tid)} (hs : A.MonitoredReachable prog s)
    (hroom : A.Room s.mem.lock) {t u : Tid} {c d : Call} {desired : BitVec 32} (hu : u ≠ t)
    (hasleep : A.Asleep s t c) (hidle : s.thread u = none) (hword : s.mem.lock.word ≠ 0)
    (hact : A.act d = .acquireWrite) (hprog : prog d = exclusiveTrylock (pure ()) desired) :
    ∃ F : Forever (A.monitored Tid) prog, F.state 0 = s ∧
      (∀ n, A.MonitoredReachable prog (F.state n) ∧ A.Room (F.state n).mem.lock ∧
        A.Asleep (F.state n) t c) ∧ ∀ n, (F.ev n).tid = u ∧ ∀ v, ¬ Acts (F.ev n) v := by
  have hstay : ∀ {s s' : Pool (A.monitored Tid)} {e}, A.MonitoredReachable prog s →
      Pool.Step prog s e s' → A.Room s'.mem.lock → A.MonitoredReachable prog s' := by
    rintro s s' e ⟨monitor, hs⟩ hstep hroom
    exact ⟨monitor, hs.step hstep hroom⟩
  -- thread `u` calls, loses its exchange and returns, over and over
  let I : Pool (A.monitored Tid) → Prop := fun s =>
    (A.MonitoredReachable prog s ∧ A.Room s.mem.lock ∧ A.Asleep s t c) ∧ s.mem.lock.word ≠ 0 ∧
      (s.thread u = none ∨ s.thread u = some (d, prog d) ∨ s.thread u = some (d, .ret false))
  have hnext : ∀ s, I s → ∃ e s', Pool.Step prog s e s' ∧ (e.tid = u ∧ ∀ v, ¬ Acts e v) ∧ I s' := by
    rintro s ⟨⟨hs, hroom, ⟨i, k, ht⟩, hsilent⟩, hword, hu' | hu' | hu'⟩
    · have hcall : (A.world Tid).call u d s.mem.lock _ := ⟨by rw [hact]; trivial, rfl⟩
      have hstep : Pool.Step prog s (.call u d) _ := LockApi.monitored_call hu' hcall
      refine ⟨_, _, hstep, ⟨rfl, nofun⟩,
        ⟨hstay hs hstep hroom, hroom, ⟨i, k, ?_⟩, hsilent⟩, hword,
        Or.inr (Or.inl (Pool.put_thread_self ..))⟩
      rw [Pool.put_thread_ne _ _ _ hu.symm]
      exact ht
    · rw [hprog] at hu'
      have hstep : Pool.Step prog s (.op u d (.compareExchangeN 0 desired _ _) _) _ :=
        LockApi.monitored_step (m := s.mem.monitor u) hu'
          (.differs desired .acquire .acquire hword) rfl
      refine ⟨_, _, hstep, ⟨rfl, ?_⟩, ⟨hstay hs hstep hroom, hroom, ⟨i, k, ?_⟩, ?_⟩, hword,
        Or.inr (Or.inr (Pool.put_thread_self ..))⟩
      · rintro v ⟨_, _, _, ⟨⟩, hwrites⟩
        cases hwrites
      · rw [Pool.put_thread_ne _ _ _ hu.symm]
        exact ht
      · show Monitor.Silent (if t = u then s.mem.monitor u else s.mem.monitor t)
        rw [if_neg hu.symm]
        exact hsilent
    · have hstep : Pool.Step prog s (.ret u d false) _ := LockApi.monitored_ret hu' rfl
      refine ⟨_, _, hstep, ⟨rfl, nofun⟩,
        ⟨hstay hs hstep hroom, hroom, ⟨i, k, ?_⟩, hsilent⟩, hword,
        Or.inl (Pool.put_thread_self ..)⟩
      rw [Pool.put_thread_ne _ _ _ hu.symm]
      exact ht
  obtain ⟨F, hF, hI, hev⟩ := Forever.exists_of_step
    (E := fun e => e.tid = u ∧ ∀ v, ¬ Acts e v) hnext
    ⟨⟨hs, hroom, hasleep⟩, hword, Or.inl hidle⟩
  exact ⟨F, hF, fun n => (hI n).1, hev⟩

end

/-- Behind the sleeper of `rwlock_asleepBehind` the holder tries the lock again, for ever. -/
theorem rwlock_stuck_call_asleep :
    ∃ F : Forever (rwlockApi.monitored Bool) (RwlockCall.prog false arm32.features),
      (∀ u, F.Fair rwlockApi.Awake u) ∧ F.Inside false (.wrlock false) 0 ∧
        ∃ u, LockApi.Occupied F .acquireWrite u := by
  obtain ⟨s, hs, hbehind⟩ := rwlock_asleepBehind
  obtain ⟨F, rfl, hF, hev⟩ := LockApi.sleeps_on hs hbehind.room (u := true) (d := .trylock)
    (by decide) hbehind.asleep hbehind.idle hbehind.word_ne rfl rfl
  have hin : F.Inside false (.wrlock false) 0 := fun n _ => (hF n).2.2.inside
  have hfair := LockApi.fair_of_asleep (fun n => (hF n).2.2) fun n => (hev n).1
  have hdiv : arm32.scale.cyclesPerNanosecondDivisor ≠ 0 := by decide
  obtain ⟨-, hover | hheld⟩ := rwlock_stuck_call arm32 false F hs (fun n => (hF n).2.1) hfair
    (fun _ _ _ => hdiv) false _ 0 hin
  · obtain ⟨m, -, u, -, hacts⟩ := hover 0
    exact absurd hacts ((hev m).2 u)
  · exact ⟨F, hfair, hin, hheld⟩

/-- The same with a mutex. -/
theorem mutex_stuck_call_asleep :
    ∃ F : Forever (mutexApi.monitored Bool) (LockCall.prog false arm32.features),
      (∀ u, F.Fair mutexApi.Awake u) ∧ F.Inside false (.lock true) 0 ∧
        ∃ u, LockApi.Occupied F .acquireWrite u := by
  obtain ⟨s, hs, hbehind⟩ := mutex_asleepBehind
  obtain ⟨F, rfl, hF, hev⟩ := LockApi.sleeps_on (mutexApi_writeOnly.monitored_reachable hs)
    hbehind.room (u := true) (d := .trylock) (by decide) hbehind.asleep hbehind.idle
    hbehind.word_ne rfl rfl
  have hin : F.Inside false (.lock true) 0 := fun n _ => (hF n).2.2.inside
  have hfair := LockApi.fair_of_asleep (fun n => (hF n).2.2) fun n => (hev n).1
  have hdiv : arm32.scale.cyclesPerNanosecondDivisor ≠ 0 := by decide
  obtain ⟨-, hover | hheld⟩ := mutex_stuck_call arm32 false _ F hs hfair (fun _ _ _ => hdiv) false
    _ 0 hin
  · obtain ⟨m, -, u, -, hacts⟩ := hover 0
    exact absurd hacts ((hev m).2 u)
  · exact ⟨F, hfair, hin, hheld⟩

end WfeMutex
