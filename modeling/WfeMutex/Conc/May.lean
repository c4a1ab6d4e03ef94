/-
  WHAT A PROGRAM MAY DO, and which histories a library may have.

  `Spec` and `Within` speak of all answers.  To show that something CAN happen, answers are chosen:
  `May step p m a m'` — answered as `step` admits, the program `p` can run from the memory `m` to a
  return of `a` and leave `m'`.  There is one rule for each way a program goes on; what is known to
  return whatever the answers may return (`Within.may`).

  `May.run` lets a thread of a pool do it while the others rest.

  `Realization` is the converse of linearizability.  There every history of the library is one of
  the shared object; here every history of the shared object is one of the library, if the clients
  that produce it keep the library's manners.  The rule is a forward simulation from the object:
  a call of the object starts the call, its instant lets the whole call run up to its return, and
  its return returns.  Such runs are the most orderly there are, one call after the other; they
  are enough to show that callers can see everything the object allows.
-/
import WfeMutex.Conc.Linear
import WfeMutex.Conc.Solo

set_option linter.unusedVariables false

namespace Conc

open Function (update update_self update_of_ne)

/-! ## One program -/

section
variable {S : Sig} {α β σ M : Type}

/-- Answered in some way that `step` admits, `p` returns `a`. -/
inductive May (step : (o : S.Op) → S.Ans o → M → M → Prop) :
    Prog S α → M → α → M → Prop where
  | ret (a : α) (m : M) : May step (.ret a) m a m
  | op {o : S.Op} {k : S.Ans o → Prog S α} {a : S.Ans o} {b : α} {m m₁ m₂ : M} :
      step o a m m₁ → May step (k a) m₁ b m₂ → May step (.op o k) m b m₂
  | jump {σ β : Type} {body : σ → Prog S (Next σ β)} {s : σ} {k : β → Prog S α} {b : α}
      {m m' : M} :
      May step (Prog.unroll body s k) m b m' → May step (.loop body s k) m b m'

variable {step : (o : S.Op) → S.Ans o → M → M → Prop} {p : Prog S α} {m m₁ m₂ : M}

namespace May

/-- `May.ret` for `do` blocks. -/
theorem pure (a : α) (m : M) : May step (Pure.pure a) m a m := .ret a m

theorem perform {o : S.Op} {a : S.Ans o} (h : step o a m m₁) : May step (Prog.perform o) m a m₁ :=
  .op h (.ret a m₁)

theorem bind {a : α} {b : β} {f : α → Prog S β} (h : May step p m a m₁)
    (hf : May step (f a) m₁ b m₂) : May step (p.bind f) m b m₂ := by
  induction h with
  | ret a m => exact hf
  | op ha _ ih => exact .op ha (ih hf)
  | @jump σ γ body s k b m m' _ ih =>
    refine .jump ?_
    rw [← Prog.unroll_bind]
    exact ih hf

/-- `May.bind` for `do` blocks. -/
theorem seq {a : α} {b : β} {f : α → Prog S β} (h : May step p m a m₁)
    (hf : May step (f a) m₁ b m₂) : May step (p >>= f) m b m₂ :=
  h.bind hf

/-- A loop may end with its first round. -/
theorem iter {body : σ → Prog S (Next σ α)} {s : σ} {a : α}
    (h : May step (body s) m (.leave a) m₁) : May step (Prog.iter body s) m a m₁ :=
  .jump (h.bind (.ret a m₁))

end May

/-- What returns whatever the answers may return. -/
theorem Within.may {Q : α → M → Prop} {n : Nat} (h : Within step Q n p m) :
    ∃ a m', May step p m a m' ∧ Q a m' := by
  induction n generalizing p m with
  | zero =>
    cases p with
    | ret a => exact ⟨a, m, .ret a m, h⟩
    | op o k => exact h.elim
    | loop body s k => exact h.elim
  | succ n ih =>
    cases p with
    | ret a => exact ⟨a, m, .ret a m, h⟩
    | op o k =>
      obtain ⟨⟨a, m₁, ha⟩, hall⟩ := h
      obtain ⟨b, m₂, hmay, hQ⟩ := ih (hall a m₁ ha)
      exact ⟨b, m₂, .op ha hmay, hQ⟩
    | loop body s k =>
      obtain ⟨b, m₂, hmay, hQ⟩ := ih (p := Prog.unroll body s k) h
      exact ⟨b, m₂, .jump hmay, hQ⟩

end

/-! ## A thread of a pool -/

section
variable {S : Sig} {Tid Call Res L : Type} {W : World S Tid Call Res} [DecidableEq Tid]
  {prog : Call → Prog S Res} {ok : W.Mem → Prop}

/-- The operations of `t`'s call `c`, within the runs under consideration. -/
def World.allowed (W : World S Tid Call Res) (ok : W.Mem → Prop) (t : Tid) (c : Call) (o : S.Op)
    (a : S.Ans o) (m m' : W.Mem) : Prop :=
  W.exec t c o a m m' ∧ ok m'

@[simp] theorem Pool.put_put (s : Pool W) (m m' : W.Mem) (t : Tid)
    (x y : Option (Call × Prog S Res)) : (s.put m t x).put m' t y = s.put m' t y :=
  congrArg (Pool.mk m') (Function.update_idem ..)

/-- **A thread may run its call to the end** while the others rest; nobody sees it. -/
theorem May.run {s : Pool W} {t : Tid} {c : Call} {p : Prog S Res} {r : Res} {m' : W.Mem}
    (h : May (W.allowed ok t c) p s.mem r m') (ht : s.thread t = some (c, p)) (hs : ok s.mem) :
    ∃ tr, Run prog s tr (s.put m' t (some (c, .ret r))) ∧ history tr = [] ∧
      ∀ x ∈ tr, ok x.dst.mem := by
  generalize hm : s.mem = m at h
  induction h generalizing s with
  | ret r m =>
    refine ⟨[], ?_, rfl, List.forall_mem_nil _⟩
    rw [s.put_same m ht, ← hm]
    exact .nil s
  | @op o k a r m m₁ m₂ hstep _ ih =>
    subst hm
    obtain ⟨tr, hrun, hhist, hok⟩ :=
      ih (s := s.put m₁ t (some (c, k a))) (Pool.put_thread_self ..) hstep.2 rfl
    rw [Pool.put_put] at hrun
    exact ⟨_, .cons (.op ht hstep.1) hrun, hhist, List.forall_mem_cons.mpr ⟨hstep.2, hok⟩⟩
  | @jump σ β body x k r m m' hmay ih =>
    subst hm
    obtain ⟨tr, hrun, hhist, hok⟩ :=
      ih (s := s.put s.mem t (some (c, Prog.unroll body x k))) (Pool.put_thread_self ..) hs rfl
    rw [Pool.put_put] at hrun
    exact ⟨_, .cons (.jump ht) hrun, hhist, List.forall_mem_cons.mpr ⟨hs, hok⟩⟩

/-- What an outline says of a call, it says of one that runs to its end. -/
theorem Outline.may {O : Outline W prog ok L} {t : Tid} {c : Call} {p : Prog S Res} {r : Res}
    {m m' : W.Mem} {ph : Tid → Option (Call × L)} {l : L} (h : May (W.allowed ok t c) p m r m')
    (hspec : Spec (O.proto c) p l (O.post c)) (hinv : O.inv m ph) (ht : ph t = some (c, l)) :
    ∃ l', O.post c r l' ∧ O.inv m' (update ph t (some (c, l'))) := by
  induction h generalizing ph l with
  | ret r m =>
    refine ⟨l, hspec.out, ?_⟩
    rw [← ht, Function.update_eq_self]
    exact hinv
  | op hstep _ ih =>
    obtain ⟨hpre, hk⟩ := hspec.out
    obtain ⟨l', hpost, hinv'⟩ := O.op hinv ht hpre hstep.1 hstep.2
    obtain ⟨l'', hend, hinv''⟩ := ih (hk _ l' hpost) hinv' (update_self ..)
    rw [Function.update_idem] at hinv''
    exact ⟨l'', hend, hinv''⟩
  | jump _ ih => exact ih hspec.out hinv ht

end

/-! ## The clients -/

/-- The manners of a library's clients: when a thread may start a call, by what its clients remember
    of the history. -/
structure Manners (Tid Call Res K : Type) where
  may : K → Tid → Call → Prop
  next : K → Visible Tid Call Res → K

section
variable {Tid Call Res K : Type}

/-- The clients that produce the history keep their manners, from what they remember on. -/
def Manners.Kept (N : Manners Tid Call Res K) : K → List (Visible Tid Call Res) → Prop
  | _, [] => True
  | k, .call t c :: h => N.may k t c ∧ Kept N (N.next k (.call t c)) h
  | k, .ret t c r :: h => Kept N (N.next k (.ret t c r)) h

end

section
variable {S : Sig} {Tid Call Res K : Type} {W : World S Tid Call Res} [DecidableEq Tid]
  {prog : Call → Prog S Res} {ok : W.Mem → Prop} {obj : Object Tid Call Res}
  {N : Manners Tid Call Res K}

/-- The library can have this history, in the runs under consideration. -/
def Histories (W : World S Tid Call Res) (prog : Call → Prog S Res) (ok : W.Mem → Prop)
    (m : W.Mem) (h : List (Visible Tid Call Res)) : Prop :=
  ∃ (tr : List (Trans W)) (s : Pool W),
    Run prog (Pool.start m) tr s ∧ (∀ x ∈ tr, ok x.dst.mem) ∧ history tr = h

/-- Where the memory lets only mannerly calls start, and remembers what the clients do, every run
    is a run of mannerly clients. -/
theorem Run.kept {s s' : Pool W} {tr : List (Trans W)} (know : W.Mem → K)
    (hcall : ∀ {t c m m'}, W.call t c m m' →
      N.may (know m) t c ∧ know m' = N.next (know m) (.call t c))
    (hexec : ∀ {t c o m m'} {a : S.Ans o}, W.exec t c o a m m' → know m' = know m)
    (hret : ∀ {t c r m m'}, W.ret t c r m m' → know m' = N.next (know m) (.ret t c r))
    (hclient : ∀ {t m m'}, W.client t m m' → know m' = know m) (hrun : Run prog s tr s') :
    N.Kept (know s.mem) (history tr) := by
  induction hrun with
  | nil s => trivial
  | @cons s s₁ s₂ e tr hstep _ ih =>
    cases hstep with
    | call ht hmem =>
      obtain ⟨hmay, hknow⟩ := hcall hmem
      rw [Pool.put_mem, hknow] at ih
      exact ⟨hmay, ih⟩
    | op ht hmem =>
      rw [Pool.put_mem, hexec hmem] at ih
      exact ih
    | jump ht => exact ih
    | ret ht hmem =>
      rw [Pool.put_mem, hret hmem] at ih
      exact ih
    | client ht hmem =>
      rw [Pool.put_mem, hclient hmem] at ih
      exact ih

/-! ## From the object to the library -/

/-- Where a thread stands in its call while the object's calls are performed all at once. -/
def Status.thread (prog : Call → Prog S Res) : Status Call Res → Option (Call × Prog S Res)
  | .idle => none
  | .called c => some (c, prog c)
  | .done c r => some (c, .ret r)

/-- How the library follows the object: `fits` relates what the clients remember, the object, and
    the memory while no call is half-way. -/
structure Realization (W : World S Tid Call Res) (prog : Call → Prog S Res) (ok : W.Mem → Prop)
    (obj : Object Tid Call Res) (N : Manners Tid Call Res K) where
  fits : K → obj.Config → W.Mem → Prop
  within : ∀ {k z m}, fits k z m → ok m
  call : ∀ {k z m t c}, fits k z m → z.status t = .idle → N.may k t c →
    ∃ m', W.call t c m m' ∧
      fits (N.next k (.call t c)) ⟨z.state, update z.status t (.called c)⟩ m'
  commit : ∀ {k z m t c r σ}, fits k z m → z.status t = .called c → obj.does t c r z.state σ →
    ∃ m', May (W.allowed ok t c) (prog c) m r m' ∧ fits k ⟨σ, update z.status t (.done c r)⟩ m'
  ret : ∀ {k z m t c r}, fits k z m → z.status t = .done c r →
    ∃ m', W.ret t c r m m' ∧ fits (N.next k (.ret t c r)) ⟨z.state, update z.status t .idle⟩ m'

/-- A move of one thread, in the object and in the pool. -/
theorem Status.thread_update {s : Pool W} {st : Tid → Status Call Res}
    (h : s.thread = fun t => (st t).thread prog) (m : W.Mem) (t : Tid) (y : Status Call Res) :
    (s.put m t (y.thread prog)).thread = fun u => (update st t y u).thread prog := by
  funext u
  by_cases hu : u = t
  · subst hu
    rw [Pool.put_thread_self, update_self]
  · rw [Pool.put_thread_ne _ _ _ hu, update_of_ne hu, h]

/-- **The library follows the object** along its whole run. -/
theorem Realization.run (R : Realization W prog ok obj N) {k : K} {z z' : obj.Config} {s : Pool W}
    {h : List (Visible Tid Call Res)} (hperf : obj.Performs z h z') (hkept : N.Kept k h)
    (hfits : R.fits k z s.mem) (hstands : s.thread = fun t => (z.status t).thread prog) :
    ∃ tr s', Run prog s tr s' ∧ (∀ x ∈ tr, ok x.dst.mem) ∧ history tr = h := by
  induction hperf generalizing k s with
  | nil z => exact ⟨[], s, .nil s, List.forall_mem_nil _, rfl⟩
  | @call σ st t c h z hst _ ih =>
    obtain ⟨hmay, hkept⟩ := hkept
    obtain ⟨m, hcall, hfits'⟩ := R.call hfits hst hmay
    have ht : s.thread t = none := by
      rw [hstands]
      exact congrArg (Status.thread prog) hst
    obtain ⟨tr, s', hrun, hok, hhist⟩ := ih hkept (s := s.put m t (some (c, prog c))) hfits'
      (Status.thread_update hstands m t (.called c))
    refine ⟨_, s', .cons (.call ht hcall) hrun, ?_, ?_⟩
    · exact List.forall_mem_cons.mpr ⟨R.within hfits', hok⟩
    · rw [history_cons, hhist]
      rfl
  | @commit σ σ' st t c r h z hst hdoes _ ih =>
    obtain ⟨m, hmay, hfits'⟩ := R.commit hfits hst hdoes
    have ht : s.thread t = some (c, prog c) := by
      rw [hstands]
      exact congrArg (Status.thread prog) hst
    obtain ⟨tr, hrun, hnone, hok⟩ := hmay.run ht (R.within hfits)
    obtain ⟨tr', s', hrun', hok', hhist⟩ := ih hkept (s := s.put m t (some (c, .ret r))) hfits'
      (Status.thread_update hstands m t (.done c r))
    refine ⟨tr ++ tr', s', hrun.append hrun', ?_, ?_⟩
    · exact List.forall_mem_append.mpr ⟨hok, hok'⟩
    · rw [history_append, hnone, hhist, List.nil_append]
  | @ret σ st t c r h z hst _ ih =>
    obtain ⟨m, hret, hfits'⟩ := R.ret hfits hst
    have ht : s.thread t = some (c, .ret r) := by
      rw [hstands]
      exact congrArg (Status.thread prog) hst
    obtain ⟨tr, s', hrun, hok, hhist⟩ := ih hkept (s := s.put m t none) hfits'
      (Status.thread_update hstands m t .idle)
    refine ⟨_, s', .cons (.ret ht hret) hrun, ?_, ?_⟩
    · exact List.forall_mem_cons.mpr ⟨R.within hfits', hok⟩
    · rw [history_cons, hhist]
      rfl

/-- **Every history of the object is one of the library**, with clients that keep its manners. -/
theorem Realization.histories (R : Realization W prog ok obj N) {k : K} {σ : obj.State}
    {m : W.Mem} {h : List (Visible Tid Call Res)} (hlin : obj.Linearizable σ h)
    (hkept : N.Kept k h) (hfits : R.fits k (obj.start σ) m) : Histories W prog ok m h := by
  obtain ⟨z, hperf⟩ := hlin
  exact R.run hperf hkept (s := Pool.start m) hfits rfl

end

/-! ## Instants that nobody sees -/

section
variable {Tid Call Res : Type} [DecidableEq Tid] {obj : Object Tid Call Res}
  {kept : Call → Res → Prop}

/-- The object with some of its instants only. -/
def Object.only (obj : Object Tid Call Res) (kept : Call → Res → Prop) : Object Tid Call Res where
  State := obj.State
  does t c r σ σ' := kept c r ∧ obj.does t c r σ σ'

/-- The thread stands where it did, or has still to do what is not kept. -/
inductive Status.Lags (kept : Call → Res → Prop) : Status Call Res → Status Call Res → Prop where
  | same (y : Status Call Res) : Lags kept y y
  | behind {c : Call} {r : Res} : ¬ kept c r → Lags kept (.done c r) (.called c)

namespace Status.Lags

variable {y : Status Call Res} {c : Call} {r : Res}

theorem idle (h : Lags kept .idle y) : y = .idle := by
  cases h
  rfl

theorem called (h : Lags kept (.called c) y) : y = .called c := by
  cases h
  rfl

theorem done (h : Lags kept (.done c r) y) (hr : kept c r) : y = .done c r := by
  cases h with
  | same => rfl
  | behind hnot => exact absurd hr hnot

end Status.Lags

/-- Statuses lag thread by thread. -/
theorem Status.lags_update {st st' : Tid → Status Call Res} {t : Tid} {y y' : Status Call Res}
    (h : ∀ u, (st u).Lags kept (st' u)) (hy : y.Lags kept y') (u : Tid) :
    (update st t y u).Lags kept (update st' t y' u) := by
  by_cases hu : u = t
  · subst hu
    rw [update_self, update_self]
    exact hy
  · rw [update_of_ne hu, update_of_ne hu]
    exact h u

/-- A history without the results that are not kept is one of the object that does not have them. -/
theorem Object.Performs.only (hskip : ∀ {t c r σ σ'}, ¬ kept c r → obj.does t c r σ σ' → σ' = σ)
    {z z' : obj.Config} {h : List (Visible Tid Call Res)} (hperf : obj.Performs z h z')
    (hrets : ∀ t c r, .ret t c r ∈ h → kept c r) {st' : Tid → Status Call Res}
    (hlags : ∀ u, (z.status u).Lags kept (st' u)) :
    ∃ z'', (obj.only kept).Performs ⟨z.state, st'⟩ h z'' := by
  induction hperf generalizing st' with
  | nil z => exact ⟨_, .nil _⟩
  | @call σ st t c h z hst _ ih =>
    have hlag : (st t).Lags kept (st' t) := hlags t
    rw [hst] at hlag
    obtain ⟨z'', hperf⟩ := ih (fun t c r hr => hrets t c r (List.mem_cons_of_mem _ hr))
      (Status.lags_update hlags (.same (.called c)))
    exact ⟨z'', .call hlag.idle hperf⟩
  | @commit σ σ' st t c r h z hst hdoes _ ih =>
    have hlag : (st t).Lags kept (st' t) := hlags t
    rw [hst] at hlag
    by_cases hkept : kept c r
    · obtain ⟨z'', hperf⟩ := ih hrets (Status.lags_update hlags (.same (.done c r)))
      exact ⟨z'', .commit hlag.called ⟨hkept, hdoes⟩ hperf⟩
    · -- nobody waits for this instant: it is left out
      obtain rfl := hskip hkept hdoes
      have hlags' := Status.lags_update (t := t) hlags (.behind hkept)
      rw [← hlag.called, Function.update_eq_self] at hlags'
      exact ih hrets hlags'
  | @ret σ st t c r h z hst _ ih =>
    have hlag : (st t).Lags kept (st' t) := hlags t
    rw [hst] at hlag
    obtain ⟨z'', hperf⟩ := ih (fun t c r hr => hrets t c r (List.mem_cons_of_mem _ hr))
      (Status.lags_update hlags (.same .idle))
    exact ⟨z'', .ret (hlag.done (hrets t c r List.mem_cons_self)) hperf⟩

/-- Instants that leave the object as it is can be left out of histories that do not show them. -/
theorem Object.Linearizable.only
    (hskip : ∀ {t c r σ σ'}, ¬ kept c r → obj.does t c r σ σ' → σ' = σ) {σ : obj.State}
    {h : List (Visible Tid Call Res)} (hlin : obj.Linearizable σ h)
    (hrets : ∀ t c r, .ret t c r ∈ h → kept c r) : (obj.only kept).Linearizable σ h := by
  obtain ⟨z, hperf⟩ := hlin
  exact hperf.only hskip hrets fun u => .same .idle

end

end Conc
