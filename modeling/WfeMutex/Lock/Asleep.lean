/-
  NOBODY SLEEPS ON A LOCK HE COULD TAKE: any number of threads, each with a monitor.

  `Wait.Wakeup` is about one wait and whoever stores to its word.  Here the threads are those of the
  lock itself: each runs its calls, each has a monitor, and the events are the writes of the
  others' calls.  `LockApi.monitored` is that memory, over the one of `Lock.Api`.  It assumes of
  the hardware what `Wait.Wakeup` assumes: an arming instruction arms, a write of another thread to
  an armed monitor leaves an event, and a thread can stay in its sleeping instruction only while
  its monitor is armed and no event is pending.  Between any two steps a monitor may be lost or an
  event may come from elsewhere.

  A call sleeps only on a value it has looked at since it armed, and that the lock was not ready
  for (`Lock.Effort`).  If the lock has become ready since, somebody has written, and the event is
  there.  So a sleeping thread always waits for a holder, and once nothing is held against it,
  it gets up and through its call by its own steps (`LockApi.GetsThrough`).
-/
import WfeMutex.Conc.Over
import WfeMutex.Lock.Effort

set_option linter.unusedVariables false

namespace WfeMutex

open Conc
open Function (update update_self update_of_ne)

/-! ## A monitor for every thread -/

/-- A thread's monitor, and whether an event is pending for the thread. -/
structure Monitor where
  armed : Bool
  pending : Bool
  deriving DecidableEq, Repr

/-- The monitor is lost, or an event comes from elsewhere. -/
def Monitor.Disturbed (m m' : Monitor) : Prop :=
  (m'.armed = true → m.armed = true) ∧ (m.pending = true → m'.pending = true)

/-- Another thread has written. -/
def Monitor.notified (m : Monitor) : Monitor := { m with pending := m.pending || m.armed }

/-- Nothing would wake a thread now. -/
def Monitor.Silent (m : Monitor) : Prop := m.armed = true ∧ m.pending = false

/-- What an operation requires of its thread's own monitor, and does to it. -/
def Op.listens {w : Nat} (o : Op w) (m m' : Monitor) : Prop :=
  match o with
  | .arm _ | .loadExclusive => m'.armed = true
  | .wait _ => ¬ m.Silent
  | _ => m' = m

/-- The memory of a lock, and the monitors of its clients. -/
structure MonitoredMem (Tid : Type) where
  lock : LockMem Tid
  monitor : Tid → Monitor

theorem Monitor.Disturbed.refl (m : Monitor) : m.Disturbed m := ⟨id, id⟩

theorem Monitor.Disturbed.silent {m m' : Monitor} (h : m.Disturbed m') (hm : m'.Silent) :
    m.Silent := by
  refine ⟨h.1 hm.1, ?_⟩
  cases hp : m.pending with
  | false => rfl
  | true =>
    have hpending := h.2 hp
    rw [hm.2] at hpending
    cases hpending

/-- A write wakes whoever has armed. -/
theorem Monitor.not_silent_notified (m : Monitor) : ¬ m.notified.Silent := by
  rintro ⟨harmed, hpending⟩
  have harmed' : m.armed = true := harmed
  have hpending' : (m.pending || m.armed) = false := hpending
  rw [harmed', Bool.or_true] at hpending'
  cases hpending'

section
variable {Call Tid : Type} [DecidableEq Tid] (A : LockApi Call)

variable (Tid) in
/-- The shared memory of the lock under its clients and their monitors. -/
abbrev LockApi.monitored : World (atomics 32) Tid Call Bool where
  Mem := MonitoredMem Tid
  call t c m m' := (A.world Tid).call t c m.lock m'.lock ∧
    ∀ u, (m.monitor u).Disturbed (m'.monitor u)
  exec t c o a m m' := (A.world Tid).exec t c o a m.lock m'.lock ∧
    ∃ near : Tid → Monitor, (∀ u, (m.monitor u).Disturbed (near u)) ∧
      o.listens (near t) (m'.monitor t) ∧
      ∀ u, u ≠ t → m'.monitor u = if o.writes a then (near u).notified else near u
  ret t c r m m' := (A.world Tid).ret t c r m.lock m'.lock ∧
    ∀ u, (m.monitor u).Disturbed (m'.monitor u)
  client _ _ _ := False

/-- Thread `t` is in a sleeping instruction of its call `c`, and nothing wakes it. -/
def LockApi.Asleep (s : Pool (A.monitored Tid)) (t : Tid) (c : Call) : Prop :=
  (∃ i k, s.thread t = some (c, .op (.wait i) k)) ∧ (s.mem.monitor t).Silent

/-- The states of the interleavings in which fewer than `cap` read holds are ever outstanding,
    whatever the monitors are at the beginning. -/
def LockApi.MonitoredReachable (prog : Call → Prog (atomics 32) Bool)
    (s : Pool (A.monitored Tid)) : Prop :=
  ∃ monitor, Reach prog (fun m : MonitoredMem Tid => A.Room m.lock)
    (⟨LockMem.initializer Tid, monitor⟩ : MonitoredMem Tid) s

/-- The lock withholds from thread `t` what its call is still to take. -/
def LockApi.Withheld (s : Pool (A.monitored Tid)) (t : Tid) (c : Call) : Prop :=
  (A.act c).gives = false ∧ s.mem.lock.wrote t = 0 ∧ ¬ (A.act c).permitted t s.mem.lock.abs

/-- Running alone, whatever happens to its monitor, thread `t` is not asleep in any state on the
    way, and returns within `n` steps. -/
def LockApi.GetsThrough (prog : Call → Prog (atomics 32) Bool) (t : Tid) (c : Call) :
    Nat → Pool (A.monitored Tid) → Prop
  | 0, _ => False
  | n + 1, s => ¬ A.Asleep s t c ∧ (∃ e s', Pool.Step prog s e s' ∧ e.tid = t) ∧
      ∀ e s', Pool.Step prog s e s' → e.tid = t →
        (∃ r, e = .ret t c r ∧ (A.void c = true → r = true)) ∨ GetsThrough prog t c n s'

variable {A}

/-- The monitors are beside the lock, and forgetting them gives its runs. -/
theorem LockApi.monitored_over : (A.monitored Tid).Over (A.world Tid) MonitoredMem.lock where
  call h := h.1
  exec h := h.1
  ret h := h.1
  client h := h

/-! ## What has been seen is still there, or an event tells -/

/-- The value a call has loaded since it armed is the word, as long as its monitor is silent. -/
def LockApi.Fresh (m : MonitoredMem Tid) (ph : Tid → Option (Call × (Phase × Effort))) : Prop :=
  ∀ t c l, ph t = some (c, (.before, l)) → ∀ v, l.seen = some v → (m.monitor t).Silent →
    m.lock.word = v

/-- A thread's own operation that leaves the word alone. -/
theorem effort_fresh {ready : BitVec 32 → Prop} {l : Effort} {o : Op 32} {a : o.Ans}
    {word v : BitVec 32} {near monitor' : Monitor} (heff : Effect word o a v)
    (hlistens : o.listens near monitor') (h : ∀ x, l.seen = some x → near.Silent → word = x) :
    ∀ x, ((effort ready).next l o a).seen = some x → monitor'.Silent → v = x := by
  cases heff with
  | loadN | loadExclusive =>
    rintro x ⟨⟩ _
    rfl
  | storeN | exchanged | differs | fetchSub | arm | wait =>
    rintro x ⟨⟩
  | doYield | readCycleCounter =>
    obtain rfl : monitor' = near := hlistens
    exact h

variable {prog : Call → Prog (atomics 32) Bool} {attempts : Call → Nat}

/-- **A monitor stays fresh**: armed and silent, its thread has seen the word as it is. -/
theorem LockApi.Fresh.step {hconf : A.Conforms prog} {hstrive : A.Strives attempts prog}
    {m m' : (A.monitored Tid).Mem} {ph ph' : Tid → Option (Call × (Phase × Effort))}
    {e : Event (atomics 32) Tid Call Bool}
    (hphase : ((LockApi.strivingOutline Tid hconf hstrive).over LockApi.monitored_over).PhaseStep m
      ph e m' ph') (h : LockApi.Fresh m ph) : LockApi.Fresh m' ph' := by
  cases hphase with
  | @call u c m' ht hcall =>
    obtain ⟨⟨-, hlock⟩, hdist⟩ := hcall
    have hword : m'.lock.word = m.lock.word := by
      rw [hlock]
    intro t d l htl v hv hsilent
    rw [hword]
    by_cases hu : t = u
    · subst hu
      rw [update_self] at htl
      cases htl
      cases hv
    · rw [update_of_ne hu] at htl
      exact h t d l htl v hv ((hdist t).silent hsilent)
  | @op u c y y' o a m' ht hpre hexec hpost =>
    obtain ⟨⟨v', heff, hlock⟩, near, hdist, hlistens, hrest⟩ := hexec
    obtain ⟨⟨hbefore, -⟩, -⟩ := hpre
    obtain ⟨⟨hphase, -⟩, hnext⟩ := hpost
    obtain ⟨phase, l₀⟩ := y
    obtain ⟨phase', l'⟩ := y'
    obtain rfl : phase = .before := hbefore
    obtain rfl : l' = (effort (A.Ready (A.act c))).next l₀ o a := hnext
    have hword : m'.lock.word = v' := by
      rw [hlock, LockMem.answer_word]
    intro t d l htl v hv hsilent
    rw [hword]
    by_cases hu : t = u
    · subst hu
      rw [update_self] at htl
      cases htl
      refine effort_fresh heff hlistens ?_ v hv hsilent
      exact fun x hx hnear => h t c l₀ ht x hx ((hdist t).silent hnear)
    · rw [update_of_ne hu] at htl
      rw [hrest t hu] at hsilent
      cases ha : o.writes a with
      | true =>
        rw [ha, if_pos rfl] at hsilent
        exact absurd hsilent (Monitor.not_silent_notified _)
      | false =>
        rw [ha, if_neg Bool.false_ne_true] at hsilent
        rw [heff.eq_of_not_writes ha]
        exact h t d l htl v hv ((hdist t).silent hsilent)
  | jump ht => exact h
  | @ret u c y r m' ht hpost hret =>
    obtain ⟨hlock, hdist⟩ := hret
    have hword : m'.lock.word = m.lock.word := by
      rw [show m'.lock = _ from hlock]
      cases r <;> rfl
    intro t d l htl v hv hsilent
    rw [hword]
    by_cases hu : t = u
    · subst hu
      rw [update_self] at htl
      cases htl
    · rw [update_of_ne hu] at htl
      exact h t d l htl v hv ((hdist t).silent hsilent)
  | client ht hclient => exact hclient.elim

variable (Tid) in
/-- The outline of a lock whose threads have monitors. -/
def LockApi.monitoredOutline (hconf : A.Conforms prog) (hstrive : A.Strives attempts prog) :
    Outline (A.monitored Tid) prog (fun m => A.Room m.lock) (Phase × Effort) :=
  ((LockApi.strivingOutline Tid hconf hstrive).over LockApi.monitored_over).strengthen
    LockApi.Fresh LockApi.Fresh.step

/-! ## Sleepers -/

/-- What a call that is about to sleep has seen is not ready, and still there. -/
theorem LockApi.not_ready_of_asleep {x : LockAct} {l : Effort} {word : BitVec 32}
    {monitor : Monitor} {i : WaitInsn} {k : Unit → Prog (atomics 32) Bool}
    {Q : Bool → Phase × Effort → Prop} {phase : Phase}
    (hspec : Spec (A.striving x) (.op (.wait i) k) (phase, l) Q) (hsilent : monitor.Silent)
    (hfresh : ∀ v, l.seen = some v → monitor.Silent → word = v) :
    phase = .before ∧ ¬ A.Ready x word := by
  obtain ⟨⟨hbefore, -⟩, v, hv, hnot⟩ := hspec.out.1
  refine ⟨hbefore, ?_⟩
  rw [hfresh v hv hsilent]
  exact hnot

/-- **A sleeping thread waits for a holder**, in every reachable state. -/
theorem LockApi.withheld_of_asleep (hconf : A.Conforms prog) (hstrive : A.Strives attempts prog)
    {s : Pool (A.monitored Tid)} (hs : A.MonitoredReachable prog s) {t : Tid} {c : Call}
    (h : A.Asleep s t c) : A.Withheld s t c := by
  obtain ⟨monitor, hreach⟩ := hs
  obtain ⟨ph, hcov⟩ := (LockApi.monitoredOutline Tid hconf hstrive).reach hreach
    ⟨LockInv.initial, fun t c l hl => by cases hl⟩
  obtain ⟨hinv, hfresh⟩ := hcov.inv
  obtain ⟨⟨i, k, ht⟩, hsilent⟩ := h
  obtain ⟨⟨phase, l⟩, hph, hspec⟩ := hcov.busy ht
  have hlock : LockInv A s.mem.lock (unwatched ph) := hinv
  obtain ⟨rfl, hnot⟩ : phase = .before ∧ ¬ A.Ready (A.act c) s.mem.lock.word := by
    obtain ⟨⟨hbefore, -⟩, -⟩ := hspec.out.1
    obtain rfl : phase = .before := hbefore
    exact LockApi.not_ready_of_asleep hspec hsilent (hfresh t c l hph)
  have hshare := hlock.share t
  rw [unwatched_of_some hph] at hshare
  refine ⟨?_, hshare.2, fun hperm => hnot (hlock.encodes.ready hlock.room hperm)⟩
  cases hact : A.act c with
  | acquireRead | acquireWrite => rfl
  | releaseRead | releaseWrite =>
    rw [hact] at hnot
    exact absurd trivial hnot

/-! ## Getting up -/

/-- The memory after `t`'s operation `o`, with no disturbance, and `own` as `t`'s monitor. -/
def MonitoredMem.answer (m : MonitoredMem Tid) (x : LockAct) (t : Tid) (o : Op 32) (a : o.Ans)
    (v : BitVec 32) (own : Monitor) : MonitoredMem Tid where
  lock := m.lock.answer x t o a v
  monitor u :=
    if u = t then own else if o.writes a then (m.monitor u).notified else m.monitor u

theorem LockApi.monitored_exec {c : Call} {m : MonitoredMem Tid} {t : Tid} {o : Op 32} {a : o.Ans}
    {v : BitVec 32} {own : Monitor} (heff : Effect m.lock.word o a v)
    (hown : o.listens (m.monitor t) own) :
    (A.monitored Tid).exec t c o a m (m.answer (A.act c) t o a v own) := by
  refine ⟨⟨v, heff, rfl⟩, m.monitor, fun u => Monitor.Disturbed.refl _, ?_, ?_⟩
  · have hself : (m.answer (A.act c) t o a v own).monitor t = own := if_pos rfl
    rw [hself]
    exact hown
  · intro u hu
    exact if_neg hu

/-- A step from the effect on the word and on the own monitor. -/
theorem LockApi.monitored_step {s : Pool (A.monitored Tid)} {t : Tid} {c : Call} {o : Op 32}
    {k : o.Ans → Prog (atomics 32) Bool} {a : o.Ans} {v : BitVec 32} {m : Monitor}
    (ht : s.thread t = some (c, .op o k)) (heff : Effect s.mem.lock.word o a v)
    (hown : o.listens (s.mem.monitor t) m) :
    Pool.Step prog s (.op t c o a)
      (s.put (s.mem.answer (A.act c) t o a v m) t (some (c, k a))) :=
  .op ht (LockApi.monitored_exec heff hown)

theorem LockApi.monitored_call {s : Pool (A.monitored Tid)} {t : Tid} {c : Call}
    {lock : LockMem Tid}
    (ht : s.thread t = none) (hcall : (A.world Tid).call t c s.mem.lock lock) :
    Pool.Step prog s (.call t c) (s.put ⟨lock, s.mem.monitor⟩ t (some (c, prog c))) :=
  .call ht ⟨hcall, fun u => Monitor.Disturbed.refl _⟩

theorem LockApi.monitored_ret {s : Pool (A.monitored Tid)} {t : Tid} {c : Call} {r : Bool}
    {lock : LockMem Tid} (ht : s.thread t = some (c, .ret r))
    (hret : (A.world Tid).ret t c r s.mem.lock lock) :
    Pool.Step prog s (.ret t c r) (s.put ⟨lock, s.mem.monitor⟩ t none) :=
  .ret ht ⟨hret, fun u => Monitor.Disturbed.refl _⟩

/-- The memory lets a thread that is not asleep make its operation. -/
theorem LockApi.monitored_answers {c : Call} {m : MonitoredMem Tid} {t : Tid} {o : Op 32}
    {a : o.Ans}
    {v : BitVec 32} (heff : Effect m.lock.word o a v)
    (hawake : ∀ i, o = .wait i → ¬ (m.monitor t).Silent) :
    ∃ m', (A.monitored Tid).exec t c o a m m' := by
  obtain ⟨own, hown⟩ : ∃ own, o.listens (m.monitor t) own := by
    cases o with
    | arm | loadExclusive => exact ⟨⟨true, false⟩, rfl⟩
    | wait i => exact ⟨m.monitor t, hawake i rfl⟩
    | _ => exact ⟨m.monitor t, rfl⟩
  exact ⟨_, LockApi.monitored_exec heff hown⟩

section
variable {s : Pool (A.monitored Tid)} {t : Tid} {c : Call} {p : Prog (atomics 32) Bool} {n : Nat}

/-- A thread that is about to return. -/
theorem LockApi.getsThrough_ret {r : Bool} (ht : s.thread t = some (c, .ret r))
    (hvoid : A.void c = true → r = true) : A.GetsThrough prog t c (n + 1) s := by
  refine ⟨?_, ⟨_, _, LockApi.monitored_ret ht rfl, rfl⟩, ?_⟩
  · rintro ⟨⟨i, k, hasleep⟩, -⟩
    rw [ht] at hasleep
    cases hasleep
  · intro e s' hstep he
    obtain ⟨rfl, -⟩ := hstep.own he ht
    exact Or.inl ⟨r, rfl, hvoid⟩

/-- A thread at the head of a loop. -/
theorem LockApi.getsThrough_jump {σ β : Type} {body : σ → Prog (atomics 32) (Next σ β)} {x : σ}
    {k : β → Prog (atomics 32) Bool} (ht : s.thread t = some (c, .loop body x k))
    (h : ∀ s' : Pool (A.monitored Tid), s'.mem = s.mem →
      s'.thread t = some (c, Prog.unroll body x k) → A.GetsThrough prog t c n s') :
    A.GetsThrough prog t c (n + 1) s := by
  refine ⟨?_, ⟨_, _, .jump ht, rfl⟩, ?_⟩
  · rintro ⟨⟨i, k', hasleep⟩, -⟩
    rw [ht] at hasleep
    cases hasleep
  · intro e s' hstep he
    obtain ⟨rfl, hmem, ht'⟩ := hstep.own he ht
    exact Or.inr (h s' hmem ht')

/-- After its write a call has nothing left to do but to return. -/
theorem LockApi.getsThrough_after {v : BitVec 32} (ht : s.thread t = some (c, p))
    (hspec : Spec (A.proto (A.act c)) p .after (A.ends c))
    (h : Within (A.leaving (A.act c)).alone (fun _ _ => True) n p v) :
    A.GetsThrough prog t c (n + 1) s := by
  induction n generalizing s p v with
  | zero =>
    cases p with
    | ret r => exact LockApi.getsThrough_ret ht hspec.out.2
    | op o k => exact h.elim
    | loop body x k => exact h.elim
  | succ n ih =>
    cases p with
    | ret r => exact LockApi.getsThrough_ret ht hspec.out.2
    | op o k => cases hspec.out.1.1
    | loop body x k => exact LockApi.getsThrough_jump ht fun s' _ ht' => ih ht' hspec.out h

/-- A call before its write, on a word that is ready for it. -/
theorem LockApi.getsThrough_before {l : Effort} {Q : Bool → Phase × Effort → Prop}
    (ht : s.thread t = some (c, p)) (hspec : Spec (A.proto (A.act c)) p .before (A.ends c))
    (hstrive : Spec (A.striving (A.act c)) p (.before, l) Q)
    (hfresh : ∀ v, l.seen = some v → (s.mem.monitor t).Silent → s.mem.lock.word = v)
    (hgood : (A.leaving (A.act c)).good .before s.mem.lock.word)
    (h : Within (A.leaving (A.act c)).alone (fun _ _ => True) n p s.mem.lock.word) :
    A.GetsThrough prog t c (n + 1) s := by
  induction n generalizing s p l with
  | zero =>
    cases p with
    | ret r => exact LockApi.getsThrough_ret ht hspec.out.2
    | op o k => exact h.elim
    | loop body x k => exact h.elim
  | succ n ih =>
    cases p with
    | ret r => exact LockApi.getsThrough_ret ht hspec.out.2
    | op o k =>
      have hawake : ∀ i, o = .wait i → ¬ (s.mem.monitor t).Silent := by
        rintro i rfl hsilent
        exact (LockApi.not_ready_of_asleep hstrive hsilent hfresh).2 (hgood rfl).2
      obtain ⟨⟨a, v, heff⟩, hall⟩ := h
      obtain ⟨m', hexec⟩ := LockApi.monitored_answers (A := A) (c := c) heff hawake
      refine ⟨?_, ⟨_, _, .op ht hexec, rfl⟩, ?_⟩
      · rintro ⟨⟨i, k', hasleep⟩, hsilent⟩
        rw [ht] at hasleep
        cases hasleep
        exact hawake i rfl hsilent
      · intro e s' hstep he
        obtain ⟨a, rfl, ⟨⟨v, heff, hlock⟩, near, hdist, hlistens, -⟩, ht'⟩ := hstep.own he ht
        have hword : s'.mem.lock.word = v := by
          rw [hlock, LockMem.answer_word]
        have hsees : ∀ u, o.sees a = some u → A.shows (A.act c) u :=
          fun u hu => heff.sees hu ▸ (hgood rfl).1
        obtain ⟨hpre, hnext⟩ := hspec.out
        obtain ⟨-, hstrive'⟩ := hstrive.out
        refine Or.inr ?_
        cases ha : o.writes a with
        | true =>
          have hpost : (A.proto (A.act c)).post .before o a .after := by
            refine ⟨?_, hsees⟩
            rw [ha]
            rfl
          exact LockApi.getsThrough_after ht' (hnext a .after hpost) (hall a v heff)
        | false =>
          have hpost : (A.proto (A.act c)).post .before o a .before := by
            refine ⟨?_, hsees⟩
            rw [ha]
            rfl
          have hsame : v = s.mem.lock.word := heff.eq_of_not_writes ha
          refine ih ht' (hnext a .before hpost)
            (hstrive' a (.before, (effort (A.Ready (A.act c))).next l o a) ⟨hpost, rfl⟩) ?_ ?_ ?_
          · rw [hword]
            refine effort_fresh heff hlistens ?_
            exact fun x hx hnear => hfresh x hx ((hdist t).silent hnear)
          · rw [hword, hsame]
            exact hgood
          · rw [hword]
            exact hall a v heff
    | loop body x k =>
      refine LockApi.getsThrough_jump ht fun s' hmem ht' => ?_
      refine ih ht' hspec.out hstrive.out ?_ ?_ ?_
      · rw [hmem]
        exact hfresh
      · rw [hmem]
        exact hgood
      · rw [hmem]
        exact h

end

/-! ## In every state of every interleaving -/

/-- Calls of `sure` settle; all keep their protocol. -/
theorem LockApi.monitored_tracks (hconf : A.Conforms prog) (hstrive : A.Strives attempts prog)
    {sure : Call → Prop}
    (hset : ∀ c, sure c → Settles (A.leaving (A.act c)) 40 (prog c) .before (A.ends c)) :
    (LockApi.monitoredOutline Tid hconf hstrive).Tracks fun c p y =>
      Spec (A.striving (A.act c)) p y (fun r y => A.ends c r y.1 ∧ True) ∧
        Spec (A.proto (A.act c)) p y.1 (A.ends c) ∧
        (sure c → Settles (A.leaving (A.act c)) 40 p y.1 (A.ends c)) where
  whole c := ⟨hstrive c, hconf c, hset c⟩
  rest := by
    rintro c p y ⟨hstrives, hspec, hsettles⟩
    cases p with
    | ret r => exact hstrives.out
    | op o k =>
      obtain ⟨hpre, hk⟩ := hstrives.out
      refine ⟨hpre, fun a y' hpost => ⟨hk a y' hpost, hspec.out.2 a y'.1 hpost.1, fun hc => ?_⟩⟩
      exact (hsettles hc).out.2.2 a y'.1 hpost.1
    | loop body x k => exact ⟨hstrives.out, hspec.out, fun hc => (hsettles hc).out.2⟩

/-- **A thread from which nothing is withheld gets through**, wherever the interleaving has left
    it. -/
theorem LockApi.getsThrough (hconf : A.Conforms prog) (hstrive : A.Strives attempts prog)
    {sure : Call → Prop}
    (hset : ∀ c, sure c → Settles (A.leaving (A.act c)) 40 (prog c) .before (A.ends c))
    {s : Pool (A.monitored Tid)} (hs : A.MonitoredReachable prog s) {t : Tid} {c : Call}
    {p : Prog (atomics 32) Bool} (ht : s.thread t = some (c, p)) (hsure : sure c)
    (hfree : ¬ A.Withheld s t c) : A.GetsThrough prog t c 41 s := by
  obtain ⟨monitor, hreach⟩ := hs
  obtain ⟨ph, hcov, htracked⟩ := (LockApi.monitored_tracks hconf hstrive hset).reach
    hreach ⟨LockInv.initial, fun t c l hl => by cases hl⟩
  obtain ⟨hinv, hfresh⟩ := hcov.inv
  have hlock : LockInv A s.mem.lock (unwatched ph) := hinv
  obtain ⟨⟨phase, l⟩, hph, -⟩ := hcov.busy ht
  obtain ⟨hstrives, hspec, hsettles⟩ := htracked t c p (phase, l) ht hph
  have hgood : (A.leaving (A.act c)).good phase s.mem.lock.word := by
    rintro rfl
    have hph' := unwatched_of_some hph
    have hshare := hlock.share t
    rw [hph'] at hshare
    refine ⟨hlock.shows hph', hlock.encodes.ready (t := t) hlock.room ?_⟩
    cases hgives : (A.act c).gives with
    | true => exact hlock.gives_permitted hph' hgives
    | false => exact not_not.mp fun hnot => hfree ⟨hgives, hshare.2, hnot⟩
  have hwithin := (hsettles hsure).frees s.mem.lock.word hgood
  cases phase with
  | before => exact LockApi.getsThrough_before ht hspec hstrives (hfresh t c l hph) hgood hwithin
  | after => exact LockApi.getsThrough_after ht hspec hwithin

/-- **Nobody sleeps on a readers/writer lock he could take.**  In every reachable state of any
    number of threads with monitors: a thread that is asleep waits for a holder (a reader for a
    writer, a writer for anybody); and a thread from which the lock withholds nothing is not
    asleep, nor ever while it runs alone, and returns within 41 steps of its own, whatever happens
    to its monitor. -/
theorem rwlock_sleepers_get_up (P : Platform) (debug : Bool)
    (s : Pool (rwlockApi.monitored Tid))
    (hs : rwlockApi.MonitoredReachable (RwlockCall.prog debug P.features) s) :
    (∀ t c, rwlockApi.Asleep s t c → rwlockApi.Withheld s t c) ∧
      ∀ t c p, s.thread t = some (c, p) → ¬ rwlockApi.Withheld s t c →
        (c.timed = true → P.scale.cyclesPerNanosecondDivisor ≠ 0) →
        rwlockApi.GetsThrough (RwlockCall.prog debug P.features) t c 41 s := by
  have hconf := rwlockApi_conforms debug P
  have hstrive := rwlockApi_strives P debug
  refine ⟨fun t c h => LockApi.withheld_of_asleep hconf hstrive hs h, ?_⟩
  intro t c p ht hfree hdiv
  exact LockApi.getsThrough hconf hstrive (rwlockApi_settles P debug) hs ht hdiv hfree

/-- Without reading calls the bound on read holds restricts nothing. -/
theorem LockApi.WriteOnly.monitored_reachable (hA : A.WriteOnly) {s : Pool (A.monitored Tid)}
    {monitor : Tid → Monitor}
    (hs : Reach prog (fun _ => True) (⟨LockMem.initializer Tid, monitor⟩ : MonitoredMem Tid) s) :
    A.MonitoredReachable prog s := by
  obtain ⟨tr, hrun, -⟩ := hs
  have hkeep : ∀ (s : Pool (A.monitored Tid)) e s', s.mem.lock.abs.readers = 0 →
      Pool.Step prog s e s' → s'.mem.lock.abs.readers = 0 :=
    fun s e s' hs hstep => hA.readers_step (hstep.under LockApi.monitored_over) hs
  exact ⟨monitor, tr, hrun, fun x hx => LockApi.room_of_readers (hrun.keeps_dst hkeep rfl x hx)⟩

/-- **Nor on a mutex**, in any state of any interleaving. -/
theorem mutex_sleepers_get_up (P : Platform) (debug : Bool) (monitor : Tid → Monitor)
    (s : Pool (mutexApi.monitored Tid))
    (hs : Reach (LockCall.prog debug P.features) (fun _ => True)
      (⟨LockMem.initializer Tid, monitor⟩ : MonitoredMem Tid) s) :
    (∀ t c, mutexApi.Asleep s t c → mutexApi.Withheld s t c) ∧
      ∀ t c p, s.thread t = some (c, p) → ¬ mutexApi.Withheld s t c →
        (c.timed = true → P.scale.cyclesPerNanosecondDivisor ≠ 0) →
        mutexApi.GetsThrough (LockCall.prog debug P.features) t c 41 s := by
  have hconf := mutexApi_conforms debug P
  have hstrive := mutexApi_strives P debug
  have hreach := mutexApi_writeOnly.monitored_reachable hs
  refine ⟨fun t c h => LockApi.withheld_of_asleep hconf hstrive hreach h, ?_⟩
  intro t c p ht hfree hdiv
  exact LockApi.getsThrough hconf hstrive (mutexApi_settles P debug) hreach ht hdiv hfree

end

/-! ## A sleeper -/

/-- Thread `true` holds the lock and is outside any call; thread `false` sleeps in its call `c`. -/
structure LockApi.AsleepBehind {Call : Type} {A : LockApi Call} (c : Call)
    (s : Pool (A.monitored Bool)) : Prop where
  asleep : A.Asleep s false c
  idle : s.thread true = none
  word : s.mem.lock.word = A.wr
  abs : s.mem.lock.abs = ⟨some true, 0⟩
  owned : s.mem.lock.owned true = ⟨0, 1⟩

/-- A writer leaves no room to be short of. -/
theorem LockApi.AsleepBehind.room {Call : Type} {A : LockApi Call} {c : Call}
    {s : Pool (A.monitored Bool)} (h : LockApi.AsleepBehind c s) : A.Room s.mem.lock := by
  refine LockApi.room_of_readers ?_
  rw [h.abs]

theorem LockApi.AsleepBehind.word_ne {Call : Type} {A : LockApi Call} {c : Call}
    {s : Pool (A.monitored Bool)} (h : LockApi.AsleepBehind c s) : s.mem.lock.word ≠ 0 := by
  rw [h.word]
  intro hzero
  have hcap := A.cap_le
  rw [hzero] at hcap
  exact absurd A.cap_pos (Nat.not_lt.mpr hcap)

/-- A 32-bit ARM after `wfe_mutex_init`. -/
def arm32 : Platform := ⟨.arm32, true, 0, {}⟩

/-- Thread `true` takes the lock, and thread `false` goes to sleep on it. -/
theorem rwlock_asleepBehind : ∃ s : Pool (rwlockApi.monitored Bool),
    rwlockApi.MonitoredReachable (RwlockCall.prog false arm32.features) s ∧
      LockApi.AsleepBehind (.wrlock false) s := by
  have hroom : 0 < 2 ^ 31 := Nat.two_pow_pos 31
  have h0 := Reach.start (W := rwlockApi.monitored Bool) (RwlockCall.prog false arm32.features)
    (fun m => rwlockApi.Room m.lock) ⟨LockMem.initializer Bool, fun _ => ⟨false, false⟩⟩
  have h1 := h0.step (LockApi.monitored_call (t := true) (c := RwlockCall.trylock) rfl
    ⟨trivial, rfl⟩) hroom
  have h2 := h1.step (LockApi.monitored_step (t := true) (c := RwlockCall.trylock)
    (m := ⟨false, false⟩) rfl (.exchanged 0 TOP_BIT _ _) rfl) hroom
  have h3 := h2.step (LockApi.monitored_ret (t := true) (c := RwlockCall.trylock) (r := true)
    rfl rfl) hroom
  have h4 := h3.step (LockApi.monitored_call (t := false) (c := RwlockCall.wrlock false) rfl
    ⟨trivial, rfl⟩) hroom
  have h5 := h4.step (LockApi.monitored_step (t := false) (c := RwlockCall.wrlock false)
    (m := ⟨false, false⟩) rfl (.differs TOP_BIT _ _ (by decide)) rfl) hroom
  have h6 := h5.step (.jump (t := false) (c := RwlockCall.wrlock false) rfl) hroom
  have h7 := h6.step (LockApi.monitored_step (t := false) (c := RwlockCall.wrlock false)
    (m := ⟨false, false⟩) rfl (.loadN TOP_BIT _) rfl) hroom
  have h8 := h7.step (.jump (t := false) (c := RwlockCall.wrlock false) rfl) hroom
  have h9 := h8.step (LockApi.monitored_step (t := false) (c := RwlockCall.wrlock false)
    (m := ⟨true, false⟩) rfl (.loadExclusive TOP_BIT) rfl) hroom
  exact ⟨_, ⟨_, h9⟩, ⟨⟨_, _, rfl⟩, rfl, rfl⟩, rfl, rfl, rfl, rfl⟩

theorem mutex_asleepBehind : ∃ s : Pool (mutexApi.monitored Bool),
    Reach (LockCall.prog false arm32.features) (fun _ => True)
        (⟨LockMem.initializer Bool, fun _ => ⟨false, false⟩⟩ : MonitoredMem Bool) s ∧
      LockApi.AsleepBehind (.lock true) s := by
  have h0 := Reach.start (W := mutexApi.monitored Bool) (LockCall.prog false arm32.features)
    (fun _ => True) ⟨LockMem.initializer Bool, fun _ => ⟨false, false⟩⟩
  have h1 := h0.step (LockApi.monitored_call (t := true) (c := LockCall.trylock) rfl
    ⟨trivial, rfl⟩) trivial
  have h2 := h1.step (LockApi.monitored_step (t := true) (c := LockCall.trylock)
    (m := ⟨false, false⟩) rfl (.exchanged 0 1 _ _) rfl) trivial
  have h3 := h2.step (LockApi.monitored_ret (t := true) (c := LockCall.trylock) (r := true) rfl rfl)
    trivial
  have h4 := h3.step (LockApi.monitored_call (t := false) (c := LockCall.lock true) rfl
    ⟨trivial, rfl⟩) trivial
  have h5 := h4.step (LockApi.monitored_step (t := false) (c := LockCall.lock true)
    (m := ⟨false, false⟩) rfl (.differs 1 _ _ (by decide)) rfl) trivial
  have h6 := h5.step (.jump (t := false) (c := LockCall.lock true) rfl) trivial
  have h7 := h6.step (LockApi.monitored_step (t := false) (c := LockCall.lock true)
    (m := ⟨false, false⟩) rfl (.loadN 1 _) rfl) trivial
  have h8 := h7.step (.jump (t := false) (c := LockCall.lock true) rfl) trivial
  have h9 := h8.step (LockApi.monitored_step (t := false) (c := LockCall.lock true)
    (m := ⟨true, false⟩) rfl (.loadExclusive 1) rfl) trivial
  exact ⟨_, h9, ⟨⟨_, _, rfl⟩, rfl, rfl⟩, rfl, rfl, rfl, rfl⟩

/-- On a 32-bit ARM, thread `false` is in its `wfe` inside `wfe_mutex_rwlock_wrlock`, which thread
    `true` has locked: it is asleep, and the lock is withheld from it. -/
theorem rwlock_sleepers_get_up_asleep :
    ∃ s : Pool (rwlockApi.monitored Bool), rwlockApi.Asleep s false (.wrlock false) ∧
      rwlockApi.Withheld s false (.wrlock false) := by
  obtain ⟨s, hs, hbehind⟩ := rwlock_asleepBehind
  exact ⟨s, hbehind.asleep, (rwlock_sleepers_get_up arm32 false s hs).1 false _ hbehind.asleep⟩

/-- The same with a mutex; when thread `true` unlocks it, thread `false` gets up. -/
theorem mutex_sleepers_get_up_woken :
    ∃ s : Pool (mutexApi.monitored Bool), s.mem.lock.word = 0 ∧
      mutexApi.GetsThrough (LockCall.prog false (Platform.features ⟨.arm32, true, 0, {}⟩)) false
        (.lock true) 41 s := by
  obtain ⟨s, hs, hbehind⟩ := mutex_asleepBehind
  obtain ⟨⟨i, k, ht⟩, -⟩ := hbehind.asleep
  have hcov : (mutexApi.act .unlock).covered (s.mem.lock.owned true) := by
    rw [hbehind.owned]
    exact Nat.one_pos
  have h1 := hs.step (LockApi.monitored_call (c := LockCall.unlock) hbehind.idle ⟨hcov, rfl⟩)
    trivial
  have h2 := h1.step (LockApi.monitored_step (t := true) (c := LockCall.unlock)
    (m := s.mem.monitor true) rfl (.storeN _ 0 _) rfl) trivial
  refine ⟨_, rfl, (mutex_sleepers_get_up arm32 false _ _ h2).2 false (.lock true) _ ht ?_
    (by decide)⟩
  rintro ⟨-, -, hnot⟩
  refine hnot ⟨rfl, ?_⟩
  show s.mem.lock.abs.readers = 0
  rw [hbehind.abs]

end WfeMutex
