/-
  WHOEVER FAILS, SOMEBODY ELSE HAS GOT ON: both locks under any interference.

  The retry loops of the locks have no bound, and none could be given: others may take the lock for
  ever.  What can be said is where the failures come from.  An exchange fails because the word is
  not what the call expected.  Its first few attempts expect a guess; after that a call exchanges
  what it has just looked at (`Lock.Effort`), and so another thread must have written the word
  since, which only happens when that thread's own call takes effect.

  `retries_bounded` counts: in any stretch of any run, the failed exchanges of a thread are at most
  the free attempts of its calls plus the writes of the others.  So the locks are lock-free: a
  thread goes round its loop only while other calls complete.

  The calls without a loop are wait-free: whatever the others do, they are through in three steps
  of their own and their return (`WaitFree`).
-/
import WfeMutex.Lock.Effort

set_option linter.unusedVariables false

namespace WfeMutex

open Conc
open Function (update update_self update_of_ne)

/-- Did the operation, answered so, try an exchange and fail? -/
def Op.loses {w : Nat} : (o : Op w) → o.Ans → Bool
  | .compareExchangeN _ _ _ _, a => !a.1
  | _, _ => false

/-- Is it a sleeping instruction? -/
def Op.sleeps {w : Nat} : Op w → Bool
  | .wait _ => true
  | _ => false

/-! ## Counting -/

section
variable {Call Tid : Type} [DecidableEq Tid] {A : LockApi Call} (t : Tid)

/-- The sum of `f` over the steps of a run. -/
def tally (f : Event (atomics 32) Tid Call Bool → Nat) (tr : List (Trans (A.world Tid))) : Nat :=
  (tr.map fun x => f x.ev).sum

/-- A failed exchange of `t`. -/
def lost : Event (atomics 32) Tid Call Bool → Nat
  | .op u _ o a => if u = t ∧ o.loses a = true then 1 else 0
  | _ => 0

/-- A write of the word by another thread. -/
def interference : Event (atomics 32) Tid Call Bool → Nat
  | .op u _ o a => if u ≠ t ∧ o.writes a = true then 1 else 0
  | _ => 0

/-- The free attempts of a call that `t` starts. -/
def granted (attempts : Call → Nat) : Event (atomics 32) Tid Call Bool → Nat
  | .call u c => if u = t then attempts c else 0
  | _ => 0

/-- What `t` may still lose of the call it is inside: its free attempts, and one exchange of a value
    that is gone already. -/
def outstanding (attempts : Call → Nat) (s : Pool (A.world Tid)) : Nat :=
  match s.thread t with
  | none => 0
  | some (c, _) => attempts c + 1

variable {t} {f : Event (atomics 32) Tid Call Bool → Nat} {tr : List (Trans (A.world Tid))}
  {attempts : Call → Nat}

@[simp] theorem tally_nil : tally (A := A) f [] = 0 := rfl

@[simp] theorem tally_snoc (x : Trans (A.world Tid)) :
    tally f (tr ++ [x]) = tally f tr + f x.ev := by
  simp [tally]

/-! ## The balance of a thread -/

/-- The free attempts left to a call. -/
def Effort.left : Option (Call × (Phase × Effort)) → Nat
  | some (_, (.before, l)) => l.free
  | _ => 0

variable (t attempts) in
/-- The account of thread `t` since a state in which it could lose `K`. -/
structure Ledger (K : Nat) (tr : List (Trans (A.world Tid))) (m : LockMem Tid)
    (ph : Tid → Option (Call × (Phase × Effort))) : Prop where
  balance : tally (lost t) tr + Effort.left (ph t) ≤
    K + tally (granted t attempts) tr + tally (interference t) tr
  /-- What the call has looked at is still there, or somebody has paid for the next failure. -/
  fresh : ∀ c l, ph t = some (c, (.before, l)) → (∀ v ∈ l.looked, v = m.word) ∨
    tally (lost t) tr + l.free + 1 ≤ K + tally (granted t attempts) tr + tally (interference t) tr

/-- A look keeps the free attempts, and looks at the word. -/
theorem effort_next_look (ready : BitVec 32 → Prop) (l : Effort) {o : Op 32} {a : o.Ans}
    {v v' : BitVec 32} (heff : Effect v o a v') (hlose : o.loses a = false)
    (hwrite : o.writes a = false) :
    ((effort ready).next l o a).free = l.free ∧
      ∀ u ∈ ((effort ready).next l o a).looked, u ∈ l.looked ∨ u = v := by
  cases heff with
  | loadN | loadExclusive => exact ⟨rfl, fun u hu => (Set.mem_insert_iff.mp hu).symm⟩
  | arm | wait | doYield | readCycleCounter => exact ⟨rfl, fun u hu => Or.inl hu⟩
  | storeN | exchanged | fetchSub => cases hwrite
  | differs => cases hlose

/-- A failed exchange leaves the word alone, uses up a free attempt, and forgets. -/
theorem effort_next_lose {ready : BitVec 32 → Prop} {l : Effort} {o : Op 32} {a : o.Ans}
    {v v' : BitVec 32} (heff : Effect v o a v') (hlose : o.loses a = true)
    (hallows : (effort ready).allows l o) :
    v' = v ∧ (0 < l.free ∨ ∃ e ∈ l.looked, e ≠ v) ∧
      ((effort ready).next l o a).free = l.free - 1 ∧
      ((effort ready).next l o a).looked = ∅ := by
  cases heff with
  | differs d s f hne =>
    refine ⟨rfl, hallows.imp_right fun he => ⟨_, he, hne.symm⟩, rfl, rfl⟩
  | exchanged => cases hlose
  | _ => cases hlose

namespace Ledger

variable {K : Nat} {m m' : LockMem Tid} {ph ph' : Tid → Option (Call × (Phase × Effort))}

/-- A step of another thread that leaves the word alone, or of nobody's account. -/
theorem idle {x : Trans (A.world Tid)} (h : Ledger t attempts K tr m ph) (hph : ph' t = ph t)
    (hlost : lost t x.ev = 0) (hword : m'.word = m.word ∨ 0 < interference t x.ev) :
    Ledger t attempts K (tr ++ [x]) m' ph' := by
  constructor
  · have hbalance := h.balance
    simp only [tally_snoc, hph, hlost]
    omega
  · intro c l hcl
    rw [hph] at hcl
    simp only [tally_snoc, hlost]
    rcases hword with hword | hpaid
    · rw [hword]
      exact (h.fresh c l hcl).imp_right fun hslack => by omega
    · have hbalance := h.balance
      rw [hcl] at hbalance
      have hleft : tally (lost t) tr + l.free ≤ _ := hbalance
      exact Or.inr (by omega)

/-- The thread comes to a place where it has nothing to lose. -/
theorem clear {x : Trans (A.world Tid)} (h : Ledger t attempts K tr m ph)
    (hph : ∀ c l, ph' t ≠ some (c, (.before, l))) (hlost : lost t x.ev = 0) :
    Ledger t attempts K (tr ++ [x]) m' ph' := by
  have hleft : Effort.left (ph' t) = 0 := by
    match hy : ph' t with
    | none => rfl
    | some (c, (.before, l)) => exact absurd hy (hph c l)
    | some (c, (.after, l)) => rfl
  constructor
  · have hbalance := h.balance
    simp only [tally_snoc, hleft, hlost]
    omega
  · intro c l hcl
    exact absurd hcl (hph c l)

/-- The thread starts a call, with nothing looked at. -/
theorem call {x : Trans (A.world Tid)} {c : Call} (h : Ledger t attempts K tr m ph)
    (hev : x.ev = .call t c) (hph : ph t = none)
    (hph' : ph' t = some (c, (.before, .start (attempts c)))) :
    Ledger t attempts K (tr ++ [x]) m' ph' := by
  have hgranted : granted t attempts x.ev = attempts c := by
    rw [hev]
    exact if_pos rfl
  have hlost : lost t x.ev = 0 := by
    rw [hev]
    rfl
  constructor
  · have hbalance := h.balance
    rw [hph] at hbalance
    have hbalance' : tally (lost t) tr + 0 ≤ _ := hbalance
    rw [hph']
    simp only [tally_snoc, hgranted, hlost]
    show _ + attempts c ≤ _
    omega
  · intro d l hdl
    rw [hph'] at hdl
    cases hdl
    exact Or.inl fun v hv => hv.elim

/-- The thread's own operation. -/
theorem own {x : Trans (A.world Tid)} {c : Call} {l : Effort} {o : Op 32} {a : o.Ans}
    {v : BitVec 32} {phase : Phase} (h : Ledger t attempts K tr m ph) (hev : x.ev = .op t c o a)
    (hph : ph t = some (c, (.before, l))) (hallows : (effort (A.Ready (A.act c))).allows l o)
    (heff : Effect m.word o a v) (hphase : phase = if o.writes a then .after else .before)
    (hph' : ph' t = some (c, (phase, (effort (A.Ready (A.act c))).next l o a)))
    (hword : m'.word = v) :
    Ledger t attempts K (tr ++ [x]) m' ph' := by
  have hbalance := h.balance
  rw [hph] at hbalance
  have hleft : tally (lost t) tr + l.free ≤ _ := hbalance
  have hlost : lost t x.ev = if o.loses a = true then 1 else 0 := by
    rw [hev]
    show (if t = t ∧ o.loses a = true then 1 else 0) = _
    simp
  cases hwrite : o.writes a with
  | true =>
    rw [hwrite] at hphase
    obtain rfl : phase = .after := hphase
    refine h.clear ?_ ?_
    · intro d l' hdl
      rw [hph'] at hdl
      cases hdl
    · cases o with
      | compareExchangeN e d s f =>
        have hwon : a.1 = true := hwrite
        rw [hlost, if_neg]
        show ¬ (!a.1) = true
        rw [hwon]
        decide
      | _ => rw [hlost]; exact if_neg Bool.false_ne_true
  | false =>
    rw [hwrite] at hphase
    obtain rfl : phase = .before := hphase
    have hsame : v = m.word := heff.eq_of_not_writes hwrite
    have hnow : Effort.left (ph' t) = ((effort (A.Ready (A.act c))).next l o a).free := by
      rw [hph']
      rfl
    cases hlose : o.loses a with
    | true =>
      obtain ⟨-, hpaid, hfree, hlooked⟩ := effort_next_lose heff hlose hallows
      rw [hlose, if_pos rfl] at hlost
      -- a free attempt pays, or the write by which the looked-at value went
      have hpay : tally (lost t) tr + (l.free - 1) + 1 ≤
          K + tally (granted t attempts) tr + tally (interference t) tr := by
        rcases hpaid with hpos | ⟨e, he, hne⟩
        · omega
        · rcases h.fresh c l hph with hall | hslack
          · exact absurd (hall e he) hne
          · omega
      constructor
      · simp only [tally_snoc, hnow, hfree, hlost]
        omega
      · intro d l' hdl
        rw [hph'] at hdl
        cases hdl
        refine Or.inl fun u hu => ?_
        rw [hlooked] at hu
        exact hu.elim
    | false =>
      obtain ⟨hfree, hlooked⟩ := effort_next_look (A.Ready (A.act c)) l heff hlose hwrite
      rw [hlose, if_neg Bool.false_ne_true] at hlost
      constructor
      · simp only [tally_snoc, hnow, hfree, hlost]
        omega
      · intro d l' hdl
        rw [hph'] at hdl
        cases hdl
        simp only [tally_snoc, hlost, hfree]
        refine (h.fresh c l hph).imp (fun hall u hu => ?_) fun hslack => by omega
        rw [hword, hsame]
        rcases hlooked u hu with hu | rfl
        · exact hall u hu
        · rfl

variable {prog : Call → Prog (atomics 32) Bool} {hconf : A.Conforms prog}
  {hstrive : A.Strives attempts prog}

/-- **One step** of anybody keeps the account. -/
theorem step {x : Trans (A.world Tid)} (h : Ledger t attempts K tr x.src.mem ph)
    (hphase : (LockApi.strivingOutline Tid hconf hstrive).PhaseStep x.src.mem ph x.ev x.dst.mem
      ph') : Ledger t attempts K (tr ++ [x]) x.dst.mem ph' := by
  generalize hev : x.ev = e at hphase
  generalize x.dst.mem = m' at hphase ⊢
  generalize x.src.mem = m at hphase h
  cases hphase with
  | @call u c m' ht hcall =>
    obtain ⟨-, rfl⟩ := hcall
    by_cases hu : u = t
    · subst hu
      exact h.call hev ht (update_self ..)
    · refine h.idle (update_of_ne (Ne.symm hu) ..) ?_ (Or.inl rfl)
      rw [hev]
      rfl
  | @op u c y y' o a m' ht hpre hexec hpost =>
    obtain ⟨⟨hbefore, -⟩, hallows⟩ := hpre
    obtain ⟨v, heff, rfl⟩ := hexec
    obtain ⟨⟨hphase, -⟩, hnext⟩ := hpost
    obtain ⟨phase, l⟩ := y
    obtain ⟨phase', l'⟩ := y'
    obtain rfl : phase = .before := hbefore
    obtain rfl : l' = (effort (A.Ready (A.act c))).next l o a := hnext
    by_cases hu : u = t
    · subst hu
      exact h.own hev ht hallows heff hphase (update_self ..) (LockMem.answer_word ..)
    · refine h.idle (update_of_ne (Ne.symm hu) ..) ?_ ?_
      · rw [hev]
        exact if_neg fun hboth => hu hboth.1
      · cases hwrite : o.writes a with
        | true =>
          refine Or.inr ?_
          rw [hev]
          show 0 < if u ≠ t ∧ o.writes a = true then 1 else 0
          rw [if_pos ⟨hu, hwrite⟩]
          exact Nat.one_pos
        | false => exact Or.inl (congrArg LockMem.word (LockMem.answer_look heff hwrite))
  | jump ht =>
    refine h.idle rfl ?_ (Or.inl rfl)
    rw [hev]
    rfl
  | @ret u c y r m' ht hpost hret =>
    have hlost : lost t x.ev = 0 := by
      rw [hev]
      rfl
    by_cases hu : u = t
    · subst hu
      refine h.clear ?_ hlost
      intro d l hdl
      rw [update_self] at hdl
      cases hdl
    · refine h.idle (update_of_ne (Ne.symm hu) ..) hlost (Or.inl ?_)
      have hmem : m' = if r then _ else m := hret
      rw [hmem]
      cases r <;> rfl
  | client ht hclient => exact hclient.elim

end Ledger

/-! ## In every stretch of every run -/

variable {prog : Call → Prog (atomics 32) Bool}

/-- A call never has more free attempts than it started with. -/
theorem LockApi.free_le (hconf : A.Conforms prog) (hstrive : A.Strives attempts prog)
    {s : Pool (A.world Tid)} (hs : A.Reachable prog s) :
    ∃ ph, (LockApi.strivingOutline Tid hconf hstrive).Covers s ph ∧
      ∀ u c y, ph u = some (c, y) → y.2.free ≤ attempts c := by
  obtain ⟨tr, hrun, hroom⟩ := hs
  have hinit : (LockApi.strivingOutline Tid hconf hstrive).inv (LockMem.initializer Tid)
      fun _ => none := LockInv.initial
  refine Outline.along (O := LockApi.strivingOutline Tid hconf hstrive)
    (J := fun _ _ ph => ∀ u c y, ph u = some (c, y) → y.2.free ≤ attempts c) ?_ [] hrun hroom
    ⟨hinit, fun _ => .idle⟩ fun u c y hy => by cases hy
  intro tr s e s' ph ph' _ hphase _ h
  generalize s'.mem = m' at hphase
  generalize s.mem = m at hphase
  cases hphase with
  | @call v d m' ht hcall =>
    intro u c y hy
    by_cases hu : u = v
    · subst hu
      rw [update_self] at hy
      cases hy
      exact Nat.le_refl _
    · rw [update_of_ne hu] at hy
      exact h u c y hy
  | @op v d z z' o a m' ht hpre hexec hpost =>
    intro u c y hy
    by_cases hu : u = v
    · subst hu
      rw [update_self] at hy
      cases hy
      have hnext : z'.2 = (effort (A.Ready (A.act d))).next z.2 o a := hpost.2
      have hle : z'.2.free ≤ z.2.free := by
        rw [hnext]
        cases o with
        | compareExchangeN => exact Nat.sub_le ..
        | _ => exact Nat.le_refl _
      exact Nat.le_trans hle (h u d z ht)
    · rw [update_of_ne hu] at hy
      exact h u c y hy
  | jump ht => exact h
  | @ret v d z r m' ht hpost hret =>
    intro u c y hy
    by_cases hu : u = v
    · subst hu
      rw [update_self] at hy
      cases hy
    · rw [update_of_ne hu] at hy
      exact h u c y hy
  | client ht hclient => exact h

/-- **Failures are paid for.**  In every stretch of a run a thread loses at most what was
    outstanding at its beginning, the free attempts of the calls it starts, and one exchange for
    each write by another thread. -/
theorem LockApi.lost_le (hconf : A.Conforms prog) (hstrive : A.Strives attempts prog)
    {s s' : Pool (A.world Tid)} {tr : List (Trans (A.world Tid))} (hs : A.Reachable prog s)
    (hrun : Run prog s tr s') (hroom : ∀ x ∈ tr, A.Room x.dst.mem) (t : Tid) :
    tally (lost t) tr ≤
      outstanding t attempts s + tally (granted t attempts) tr + tally (interference t) tr := by
  obtain ⟨ph, hcov, hfree⟩ := LockApi.free_le hconf hstrive hs
  have hstart : Ledger (A := A) t attempts (outstanding t attempts s) [] s.mem ph := by
    unfold outstanding
    cases ht : s.thread t with
    | none =>
      have hph := hcov.idle ht
      constructor
      · rw [hph]
        exact Nat.le_refl 0
      · intro c l hcl
        rw [hph] at hcl
        cases hcl
    | some z =>
      obtain ⟨c, p⟩ := z
      obtain ⟨y, hph, -⟩ := hcov.busy ht
      have hle := hfree t c y hph
      constructor
      · rw [hph]
        obtain ⟨phase, l⟩ := y
        cases phase with
        | before =>
          show 0 + l.free ≤ attempts c + 1 + 0 + 0
          exact (Nat.zero_add _).le.trans (Nat.le_succ_of_le hle)
        | after => exact Nat.zero_le _
      · intro d l hdl
        rw [hph] at hdl
        cases hdl
        refine Or.inr ?_
        show 0 + l.free + 1 ≤ attempts c + 1 + 0 + 0
        have hle' : l.free ≤ attempts c := hle
        omega
  obtain ⟨ph', -, hend⟩ := Outline.along (O := LockApi.strivingOutline Tid hconf hstrive)
    (J := fun tr m ph => Ledger t attempts (outstanding t attempts s) tr m ph)
    (fun tr s e s' ph ph' _ hphase _ h => h.step hphase) [] hrun hroom hcov hstart
  exact Nat.le_trans (Nat.le_add_right ..) hend.balance

end

/-! ## Calls without a loop -/

section
variable {Call : Type} {A : LockApi Call} {x : LockAct} {l : Phase}

/-- Answers as the lock gives them among others, to operations that do not sleep. -/
abbrev LockApi.company (A : LockApi Call) (x : LockAct) (o : Op 32) (a : o.Ans) (l l' : Phase) :
    Prop :=
  o.sleeps = false ∧ (A.proto x).post l o a l'

/-- In company a load shows something the call can expect. -/
theorem company_load (hany : ∃ v, A.shows x v) (mo : MemOrder) :
    Within (A.company x) (fun v _ => A.shows x v) 1 (atomicLoadN mo) l := by
  obtain ⟨v, hv⟩ := hany
  refine Within.perform (S := atomics 32) (o := .loadN mo) ⟨v, Phase.before, rfl, rfl, ?_⟩
    fun v l' hpost => hpost.2.2 v rfl
  rintro _ ⟨⟩
  exact hv

/-- An operation that is not a look, and is answered somehow. -/
theorem company_act {o : Op 32} (a : o.Ans) (hsleeps : o.sleeps = false)
    (hblind : ∀ a, o.sees a = none) : Within (A.company x) (fun _ _ => True) 1 (act o) l := by
  refine Within.perform ⟨a, _, hsleeps, rfl, ?_⟩ fun _ _ _ => trivial
  intro v hv
  rw [hblind a] at hv
  cases hv

theorem company_exchange (e d : BitVec 32) :
    Within (A.company x) (fun _ _ => True) 1 (atomicCompareExchangeN e d .acquire .acquire) l :=
  company_act (o := .compareExchangeN e d .acquire .acquire) (false, e) rfl fun _ => rfl

/-- A check is one step in company. -/
theorem OneLook.company {p : Prog (atomics 32) Unit} (h : OneLook (A.shows x) p)
    (hany : ∃ v, A.shows x v) : Within (A.company x) (fun _ _ => True) 1 p l := by
  cases h with
  | pass => exact Within.ret trivial
  | @look k hk =>
    refine Within.bind (k := 0) (f := k) (company_load hany .seqCst) ?_
    intro v l' hv
    rw [hk v hv]
    exact Within.ret trivial

/-- An attempt: a check, and an exchange. -/
theorem company_exclusiveTrylock {check : Prog (atomics 32) Unit} {desired : BitVec 32}
    (hany : ∃ v, A.shows x v) (hcheck : OneLook (A.shows x) check) :
    Within (A.company x) (fun _ _ => True) 3 (exclusiveTrylock check desired) l := by
  unfold exclusiveTrylock
  refine Within.seq (k := 2) (hcheck.company hany) fun _ _ _ => ?_
  refine Within.seq (k := 1) (company_exchange 0 desired) ?_
  rintro ⟨exchanged, _⟩ _ _
  cases exchanged with
  | true => exact Within.pure trivial
  | false => exact Within.pure trivial

/-- A release: two checks, and a store. -/
theorem company_exclusiveUnlock {check unlockCheck : Prog (atomics 32) Unit}
    (hany : ∃ v, A.shows x v) (hcheck : OneLook (A.shows x) check)
    (hunlock : OneLook (A.shows x) unlockCheck) :
    Within (A.company x) (fun _ _ => True) 3 (exclusiveUnlock check unlockCheck) l := by
  unfold exclusiveUnlock
  refine Within.seq (k := 2) (hcheck.company hany) fun _ _ _ => ?_
  refine Within.seq (k := 1) (hunlock.company hany) fun _ _ _ => ?_
  exact company_act (o := .storeN 0 .release) () rfl fun _ => rfl

theorem company_rwlockTrylockShared (debug : Bool) :
    Within (rwlockApi.company .acquireRead) (fun _ _ => True) 3 (rwlockTrylockShared debug) l := by
  have hany : ∃ v, rwlockApi.shows .acquireRead v := ⟨TOP_BIT, Or.inl rfl⟩
  unfold rwlockTrylockShared
  refine Within.seq (k := 2) ((oneLook_rwlock debug _).company hany) fun _ _ _ => ?_
  refine Within.seq (k := 1) (company_load hany .acquire) fun _ _ _ => ?_
  refine Within.seq (k := 0) (company_exchange _ _) ?_
  rintro ⟨exchanged, _⟩ _ _
  cases exchanged with
  | true => exact Within.pure trivial
  | false => exact Within.pure trivial

theorem company_rwlockReadUnlock (debug : Bool) :
    Within (rwlockApi.company .releaseRead) (fun _ _ => True) 3 (rwlockReadUnlock debug) l := by
  have hany : ∃ v, rwlockApi.shows .releaseRead v := ⟨1, by decide, by decide⟩
  have hcheck : OneLook (rwlockApi.shows .releaseRead)
      (sanityCheckRdwrlockUnlockSharedMutex debug) :=
    oneLook_sanityCheckRdwrlockUnlockSharedMutex debug fun _ hv => hv
  unfold rwlockReadUnlock
  refine Within.seq (k := 2) ((oneLook_rwlock debug _).company hany) fun _ _ _ => ?_
  refine Within.seq (k := 1) (hcheck.company hany) fun _ _ _ => ?_
  refine Within.seq (k := 0) (company_act (o := .fetchSub 1 .acquire) (0 : BitVec 32)
    rfl fun _ => rfl) fun _ _ _ => Within.pure trivial

theorem company_returning {step : (o : Op 32) → o.Ans → Phase → Phase → Prop} {n : Nat}
    {p : Prog (atomics 32) Unit} (h : Within step (fun _ _ => True) n p l) :
    Within step (fun _ _ => True) n (returning p) l :=
  Within.seq (k := 0) h fun _ _ _ => Within.pure trivial

end

/-- The functions that wait while the lock is not theirs to take. -/
def LockCall.waits : LockCall → Bool
  | .lock _ | .timedlock _ _ => true
  | .trylock | .unlock => false

@[inherit_doc LockCall.waits]
def RwlockCall.waits : RwlockCall → Bool
  | .rdlock _ | .wrlock _ | .timedwrlock _ _ => true
  | .trylock | .trylockShared | .unlock | .readUnlock => false

section
variable {Call Tid : Type} [DecidableEq Tid] {A : LockApi Call}
  {prog : Call → Prog (atomics 32) Bool}

/-- The memory of a lock answers every operation of a conforming call. -/
theorem LockApi.answers {x : LockAct} {l : Phase} {o : Op 32} (hpre : (A.proto x).pre l o)
    (a : o.Ans) (v : BitVec 32) : ∃ b v', Effect v o b v' := by
  cases o with
  | loadN mo => exact ⟨v, v, .loadN v mo⟩
  | loadExclusive => exact ⟨v, v, .loadExclusive v⟩
  | storeN y mo => exact ⟨(), y, .storeN v y mo⟩
  | compareExchangeN e d s f =>
    by_cases hv : v = e
    · exact ⟨_, _, Effect.exchange_of_eq hv⟩
    · exact ⟨_, _, .differs d s f hv⟩
  | fetchSub y mo => exact ⟨v, v - y, .fetchSub v y mo⟩
  | arm i => exact ⟨(), v, .arm v i⟩
  | wait i => exact ⟨(), v, .wait v i⟩
  | doYield => exact ⟨(), v, .doYield v⟩
  | readCycleCounter d => exact ⟨0, v, .readCycleCounter v d 0⟩
  | printError msg => exact absurd hpre.2 LockApi.not_mayReport
  | trap => exact a.elim

/-- A call that has at most `n` steps however it is answered is through after `n` of its own. -/
theorem LockApi.waitFree (hconf : A.Conforms prog) {s s' : Pool (A.world Tid)} {t : Tid} {c : Call}
    {n : Nat} (hs : A.Reachable prog s) (hcall : Pool.Step prog s (.call t c) s')
    (h : Within (A.company (A.act c)) (fun _ _ => True) n (prog c) .before) :
    WaitFree prog A.Room n t s' := by
  have hsame : s'.mem.abs = s.mem.abs := by
    cases hcall with
    | call ht hmem =>
      obtain ⟨-, rfl⟩ := hmem
      rfl
  have hroom : A.Room s'.mem := by
    show s'.mem.abs.readers.card < A.cap
    rw [hsame]
    exact (LockApi.encodes hconf hs).2.2
  obtain ⟨ph, hcov⟩ := LockApi.covers hconf hs
  obtain ⟨ph', hphase, hcov'⟩ := Outline.step hcov hcall hroom
  have hthread : s'.thread t = some (c, prog c) := by
    cases hcall with
    | call ht hmem => exact Pool.put_thread_self ..
  have hph : ph' t = some (c, .before) := by
    generalize s'.mem = m' at hphase
    cases hphase with
    | call ht _ => exact update_self ..
  refine hcov'.waitFree ?_ (fun r m => ⟨_, rfl⟩) hthread hph h
  intro l o a m hpre
  obtain ⟨b, v, heff⟩ := LockApi.answers hpre a m.word
  exact ⟨b, _, v, heff, rfl⟩

/-- A call of act `x` that is left alone, whatever the word is then. -/
def LockApi.standing (A : LockApi Call) (x : LockAct) : Setting (atomics 32) Phase (BitVec 32) where
  proto := A.proto x
  alone o a v v' := Effect v o a v'
  good ph v := ph = .before → A.shows x v
  covers := by
    rintro ph v o a v' hgood ⟨rfl, hpre⟩ heff
    have hshows := hgood rfl
    refine ⟨_, ⟨rfl, fun u hu => heff.sees hu ▸ hshows⟩, ?_⟩
    cases ha : o.writes a with
    | false =>
      rw [heff.eq_of_not_writes ha]
      exact fun _ => hshows
    | true =>
      rw [if_pos rfl]
      exact fun h => by cases h

/-- What is left of the calls of `quick` has at most `n` steps. -/
theorem LockApi.tracks_company (hconf : A.Conforms prog) {quick : Call → Prop} {n : Nat}
    (hquick : ∀ c, quick c → Within (A.company (A.act c)) (fun _ _ => True) n (prog c) .before) :
    (LockApi.outline hconf : Outline (A.world Tid) prog A.Room Phase).Tracks fun c p l =>
      Spec (A.proto (A.act c)) p l (A.ends c) ∧
        (quick c → Within (A.company (A.act c)) (fun _ _ => True) n p l) where
  whole c := ⟨hconf c, hquick c⟩
  rest := by
    rintro c p l ⟨hspec, hwithin⟩
    cases p with
    | ret r => exact hspec.out
    | op o k =>
      obtain ⟨hpre, hk⟩ := hspec.out
      refine ⟨hpre, fun a l' hpost => ⟨hk a l' hpost, fun hc => ?_⟩⟩
      have hhere := hwithin hc
      cases n with
      | zero => exact hhere.elim
      | succ n =>
        obtain ⟨⟨-, -, hsleeps, -⟩, hall⟩ := hhere
        exact (hall a l' ⟨hsleeps, hpost⟩).mono (Nat.le_succ n)
    | loop body x k =>
      refine ⟨hspec.out, fun hc => ?_⟩
      have hhere := hwithin hc
      cases n with
      | zero => exact hhere.elim
      | succ n => exact Within.mono (p := Prog.unroll body x k) hhere (Nat.le_succ n)

/-- **Left alone**, a call that does not wait is through, whatever the lock. -/
theorem LockApi.within_of_company (hconf : A.Conforms prog) {quick : Call → Prop} {n : Nat}
    (hquick : ∀ c, quick c → Within (A.company (A.act c)) (fun _ _ => True) n (prog c) .before)
    {s : Pool (A.world Tid)} (hs : A.Reachable prog s) {t : Tid} {c : Call}
    {p : Prog (atomics 32) Bool} (ht : s.thread t = some (c, p)) (hc : quick c) :
    Within wordStep (fun r _ => A.void c = true → r = true) n p s.mem.word := by
  obtain ⟨ph, hcov, htracked⟩ := (LockApi.tracks_company hconf hquick).reach hs LockInv.initial
  have hinv : LockInv A s.mem ph := hcov.inv
  obtain ⟨l, hph, -⟩ := hcov.busy ht
  obtain ⟨hspec, hwithin⟩ := htracked t c p l ht hph
  have hgood : (A.standing (A.act c)).good l s.mem.word := by
    rintro rfl
    exact hinv.shows hph
  have halone : Within (A.standing (A.act c)).alone (fun _ _ => True) n p s.mem.word :=
    (hwithin hc).of_guarded.alone (C := A.standing (A.act c)) hspec
      (fun a _ hpre => LockApi.answers hpre a _) hgood
  refine (halone.spec hspec hgood).post ?_
  rintro r v ⟨_, hend, -⟩
  exact hend.2

/-- **Whoever fails, somebody else has got on.**  Take any stretch of any run of a readers/writer
    lock.  The exchanges that a thread loses in it are at most: up to three if it was inside a call
    at the beginning (`outstanding`), one or two for each acquisition it starts, and one for each
    write of the word by another thread, that is, for each time the call of another thread takes
    effect. -/
theorem rwlock_retries_bounded (P : Platform) (debug : Bool) (s s' : Pool (rwlockApi.world Tid))
    (tr : List (Trans (rwlockApi.world Tid)))
    (hs : rwlockApi.Reachable (RwlockCall.prog debug P.features) s)
    (hrun : Run (RwlockCall.prog debug P.features) s tr s')
    (hroom : ∀ x ∈ tr, rwlockApi.Room x.dst.mem) (t : Tid) :
    tally (lost t) tr ≤ outstanding t RwlockCall.attempts s +
      tally (granted t RwlockCall.attempts) tr + tally (interference t) tr :=
  LockApi.lost_le (rwlockApi_conforms debug P) (rwlockApi_strives P debug) hs hrun hroom t

/-- The same of a mutex, in every run. -/
theorem mutex_retries_bounded (P : Platform) (debug : Bool) (s s' : Pool (mutexApi.world Tid))
    (tr : List (Trans (mutexApi.world Tid)))
    (hs : MutexReachable (LockCall.prog debug P.features) s)
    (hrun : Run (LockCall.prog debug P.features) s tr s') (t : Tid) :
    tally (lost t) tr ≤ outstanding t LockCall.attempts s +
      tally (granted t LockCall.attempts) tr + tally (interference t) tr := by
  have hreach := mutexApi_writeOnly.reachable hs
  obtain ⟨tr₀, hrun₀, -⟩ := hs
  refine LockApi.lost_le (mutexApi_conforms debug P) (mutexApi_strives P debug) hreach hrun ?_ t
  intro x hx
  exact mutexApi_writeOnly.room (hrun₀.append hrun) x (List.mem_append_right _ hx)

/-- A call on a readers/writer lock that does not wait has at most three steps, however it is
    answered. -/
theorem rwlock_company (debug : Bool) (F : Features) {c : RwlockCall} (hwaits : c.waits = false) :
    Within (rwlockApi.company (rwlockApi.act c)) (fun _ _ => True) 3 (c.prog debug F) .before := by
  have hcheck := oneLook_rwlock debug (rwlockApi.act c)
  cases c with
  | rdlock | wrlock | timedwrlock => cases hwaits
  | trylock => exact company_exclusiveTrylock ⟨TOP_BIT, Or.inl rfl⟩ hcheck
  | trylockShared => exact company_rwlockTrylockShared debug
  | unlock =>
    exact company_returning (company_exclusiveUnlock ⟨TOP_BIT, rfl⟩ hcheck
      (oneLook_sanityCheckRdwrlockUnlockMutex debug fun _ hv => hv))
  | readUnlock => exact company_returning (company_rwlockReadUnlock debug)

/-- And one on a mutex. -/
theorem mutex_company (debug : Bool) (F : Features) {c : LockCall} (hwaits : c.waits = false) :
    Within (mutexApi.company (mutexApi.act c)) (fun _ _ => True) 3 (c.prog debug F) .before := by
  have hcheck := oneLook_mutex debug c
  cases c with
  | lock | timedlock => cases hwaits
  | trylock => exact company_exclusiveTrylock ⟨1, Or.inl rfl⟩ hcheck
  | unlock =>
    exact company_returning (company_exclusiveUnlock ⟨1, rfl⟩ hcheck
      (oneLook_sanityCheckWrlockUnlockMutex debug fun _ hv => hv))

/-- **The calls that do not wait are wait-free**, on both locks: however the steps of the other
    threads fall, such a call is never blocked and has at most three steps of its own before its
    return. -/
theorem tries_and_releases_wait_free (P : Platform) (debug : Bool) :
    (∀ (s s' : Pool (rwlockApi.world Tid)) (t : Tid) (c : RwlockCall), c.waits = false →
        rwlockApi.Reachable (RwlockCall.prog debug P.features) s →
        Pool.Step (RwlockCall.prog debug P.features) s (.call t c) s' →
        WaitFree (RwlockCall.prog debug P.features) rwlockApi.Room 3 t s') ∧
      ∀ (s s' : Pool (mutexApi.world Tid)) (t : Tid) (c : LockCall), c.waits = false →
        MutexReachable (LockCall.prog debug P.features) s →
        Pool.Step (LockCall.prog debug P.features) s (.call t c) s' →
        WaitFree (LockCall.prog debug P.features) (fun _ => True) 3 t s' := by
  constructor
  · intro s s' t c hwaits hs hcall
    exact LockApi.waitFree (rwlockApi_conforms debug P) hs hcall
      (rwlock_company debug P.features hwaits)
  · intro s s' t c hwaits hs hcall tr s'' hrun _ hin
    have hfree : WaitFree (LockCall.prog debug P.features) mutexApi.Room 3 t s' :=
      LockApi.waitFree (mutexApi_conforms debug P) (mutexApi_writeOnly.reachable hs) hcall
        (mutex_company debug P.features hwaits)
    obtain ⟨tr₀, hrun₀, -⟩ := hs
    have hroom := mutexApi_writeOnly.room (hrun₀.append (.cons hcall hrun))
    exact hfree tr s'' hrun (fun x hx =>
      hroom x (List.mem_append_right _ (List.mem_cons_of_mem _ hx))) hin

end

/-- Thread `false` loses the first exchange of its `wfe_mutex_rwlock_rdlock` to the writer
    `true`. -/
theorem rwlock_retries_bounded_lost :
    ∃ (s : Pool (rwlockApi.world Bool)) (tr : List (Trans (rwlockApi.world Bool))),
      Run (RwlockCall.prog false Platform.uninitialised.features)
        (Pool.start (LockMem.initializer Bool)) tr s ∧ tally (lost false) tr = 1 ∧
      tally (interference false) tr = 1 ∧
      tally (lost false) tr ≤ 0 + tally (granted false RwlockCall.attempts) tr +
        tally (interference false) tr := by
  have hpow : 0 < 2 ^ 31 := Nat.two_pow_pos 31
  obtain ⟨s, tr, hrun, hroom, hlost, hwrites⟩ : ∃ (s : Pool (rwlockApi.world Bool))
      (tr : List (Trans (rwlockApi.world Bool))),
      Run (RwlockCall.prog false Platform.uninitialised.features)
        (Pool.start (LockMem.initializer Bool)) tr s ∧ (∀ x ∈ tr, rwlockApi.Room x.dst.mem) ∧
        tally (lost false) tr = 1 ∧ tally (interference false) tr = 1 := by
    refine ⟨_, _, .cons (.call (t := true) (c := RwlockCall.trylock) rfl ⟨trivial, rfl⟩)
      (.cons (.op (t := true) (c := RwlockCall.trylock) rfl ⟨_, .exchanged 0 TOP_BIT _ _, rfl⟩)
        (.cons (.call (t := false) (c := RwlockCall.rdlock false) rfl ⟨trivial, rfl⟩)
          (.cons (.op (t := false) (c := RwlockCall.rdlock false) rfl
            ⟨_, .differs 1 _ _ (by decide), rfl⟩) (.nil _)))), ?_, rfl, rfl⟩
    iterate 4 refine List.forall_mem_cons.mpr ⟨hpow, ?_⟩
    intro x hx
    cases hx
  have hstart := Reach.start (W := rwlockApi.world Bool)
    (RwlockCall.prog false Platform.uninitialised.features) rwlockApi.Room
    (LockMem.initializer Bool)
  exact ⟨s, tr, hrun, hlost, hwrites,
    rwlock_retries_bounded Platform.uninitialised false _ s tr hstart hrun hroom false⟩

/-- Thread `false` loses the only exchange of its `wfe_mutex_lock_trylock` to thread `true`. -/
theorem mutex_retries_bounded_lost :
    ∃ (s : Pool (mutexApi.world Bool)) (tr : List (Trans (mutexApi.world Bool))),
      Run (LockCall.prog false Platform.uninitialised.features)
        (Pool.start (LockMem.initializer Bool)) tr s ∧ tally (lost false) tr = 1 ∧
      tally (interference false) tr = 1 ∧
      tally (lost false) tr ≤ 0 + tally (granted false LockCall.attempts) tr +
        tally (interference false) tr := by
  obtain ⟨s, tr, hrun, hlost, hwrites⟩ : ∃ (s : Pool (mutexApi.world Bool))
      (tr : List (Trans (mutexApi.world Bool))),
      Run (LockCall.prog false Platform.uninitialised.features)
        (Pool.start (LockMem.initializer Bool)) tr s ∧ tally (lost false) tr = 1 ∧
        tally (interference false) tr = 1 := by
    exact ⟨_, _, .cons (.call (t := true) (c := LockCall.trylock) rfl ⟨trivial, rfl⟩)
      (.cons (.op (t := true) (c := LockCall.trylock) rfl ⟨_, .exchanged 0 1 _ _, rfl⟩)
        (.cons (.call (t := false) (c := LockCall.trylock) rfl ⟨trivial, rfl⟩)
          (.cons (.op (t := false) (c := LockCall.trylock) rfl
            ⟨_, .differs 1 _ _ (by decide), rfl⟩) (.nil _)))), rfl, rfl⟩
  have hstart := Reach.start (W := mutexApi.world Bool)
    (LockCall.prog false Platform.uninitialised.features) (fun _ => True)
    (LockMem.initializer Bool)
  exact ⟨s, tr, hrun, hlost, hwrites,
    mutex_retries_bounded Platform.uninitialised false _ s tr hstart hrun false⟩

/-- `wfe_mutex_rwlock_trylock_shared` and `wfe_mutex_lock_trylock` on locks that nobody uses yet. -/
theorem tries_and_releases_wait_free_try :
    (∃ s : Pool (rwlockApi.world Bool), s.thread true ≠ none ∧
        WaitFree (RwlockCall.prog true Platform.uninitialised.features) rwlockApi.Room 3 true s) ∧
      ∃ s : Pool (mutexApi.world Bool), s.thread true ≠ none ∧
        WaitFree (LockCall.prog true Platform.uninitialised.features) (fun _ => True) 3 true s := by
  constructor
  · have hstart := Reach.start (W := rwlockApi.world Bool)
      (RwlockCall.prog true Platform.uninitialised.features) rwlockApi.Room
      (LockMem.initializer Bool)
    exact ⟨_, Option.some_ne_none _,
      (tries_and_releases_wait_free Platform.uninitialised true).1 _ _ true .trylockShared rfl
        hstart (.call rfl ⟨trivial, rfl⟩)⟩
  · have hstart := Reach.start (W := mutexApi.world Bool)
      (LockCall.prog true Platform.uninitialised.features) (fun _ => True)
      (LockMem.initializer Bool)
    exact ⟨_, Option.some_ne_none _,
      (tries_and_releases_wait_free Platform.uninitialised true).2 _ _ true .trylock rfl hstart
        (.call rfl ⟨trivial, rfl⟩)⟩

end WfeMutex
