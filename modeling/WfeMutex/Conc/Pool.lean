/-
  THREAD POOLS: any number of threads interleaving the operations of their calls.

  A client library is given by `prog : Call → Prog S Res`, one program per call.  A `World` says
  what its shared memory is and how a step changes it: the start of a call (where the client's
  own discipline is a guard), one atomic operation of a running call, the return, and a step of
  the client between two calls.  A `Pool` is the memory with, for every thread, the call it is
  inside and what that call still has to do; `Pool.Step` lets ANY thread take its next step, so a
  `Run` is one interleaving and nothing about scheduling is assumed.

  Safety is proved once, through an `Outline`: a protocol per call (`Conc.Spec`), a global
  invariant `inv` over the memory and the threads' local protocol states, and the proof that each
  kind of step keeps it.  `Outline.step` turns a step of the pool into a step on protocol states
  (`PhaseStep`), `Outline.run` carries the invariant along a run, so that a claim about all
  interleavings becomes a case analysis with one case per kind of step.
-/
import Mathlib.Logic.Function.Basic
import WfeMutex.Conc.Spec

namespace Conc

/-- A shared memory: how calls, atomic operations, returns and client steps change it. -/
structure World (S : Sig) (Tid Call Res : Type) where
  Mem : Type
  /-- Thread `t` may start the call `c`. -/
  call : Tid → Call → Mem → Mem → Prop
  /-- An operation of `t`'s call `c` is answered. -/
  exec : Tid → Call → (o : S.Op) → S.Ans o → Mem → Mem → Prop
  /-- The call `c` of `t` returns a result. -/
  ret : Tid → Call → Res → Mem → Mem → Prop
  /-- A step of `t`'s own, between two calls. -/
  client : Tid → Mem → Mem → Prop

/-- The kinds of step a pool makes. -/
inductive Event (S : Sig) (Tid Call Res : Type) where
  | call (t : Tid) (c : Call)
  | op (t : Tid) (c : Call) (o : S.Op) (a : S.Ans o)
  | jump (t : Tid)
  | ret (t : Tid) (c : Call) (r : Res)
  | client (t : Tid)

variable {S : Sig} {Tid Call Res : Type}

/-- The thread that makes the step. -/
def Event.tid : Event S Tid Call Res → Tid
  | .call t _ | .op t _ _ _ | .jump t | .ret t _ _ | .client t => t

/-- A memory, and for each thread the call it is inside and the rest of that call. -/
structure Pool (W : World S Tid Call Res) where
  mem : W.Mem
  thread : Tid → Option (Call × Prog S Res)

variable {W : World S Tid Call Res} [DecidableEq Tid] {prog : Call → Prog S Res}

open Function (update update_self update_of_ne)

/-- All threads outside any call. -/
def Pool.start (m : W.Mem) : Pool W := ⟨m, fun _ => none⟩

/-- Thread `t` goes over to `x`. -/
def Pool.put (s : Pool W) (m : W.Mem) (t : Tid) (x : Option (Call × Prog S Res)) : Pool W :=
  ⟨m, update s.thread t x⟩

@[simp] theorem Pool.put_mem (s : Pool W) (m : W.Mem) (t : Tid)
    (x : Option (Call × Prog S Res)) : (s.put m t x).mem = m := rfl

@[simp] theorem Pool.put_thread_self (s : Pool W) (m : W.Mem) (t : Tid)
    (x : Option (Call × Prog S Res)) : (s.put m t x).thread t = x := update_self ..

theorem Pool.put_thread_ne (s : Pool W) (m : W.Mem) {t u : Tid}
    (x : Option (Call × Prog S Res)) (h : u ≠ t) : (s.put m t x).thread u = s.thread u :=
  update_of_ne h ..

/-- Thread `t` stays where it is. -/
theorem Pool.put_same (s : Pool W) (m : W.Mem) {t : Tid} {x : Option (Call × Prog S Res)}
    (h : s.thread t = x) : s.put m t x = ⟨m, s.thread⟩ := by
  rw [← h]
  exact congrArg (Pool.mk m) (Function.update_eq_self t s.thread)

/-- One step of one thread. -/
inductive Pool.Step (prog : Call → Prog S Res) :
    Pool W → Event S Tid Call Res → Pool W → Prop where
  | call {s : Pool W} {t : Tid} {c : Call} {m : W.Mem} :
      s.thread t = none → W.call t c s.mem m →
      Step prog s (.call t c) (s.put m t (some (c, prog c)))
  | op {s : Pool W} {t : Tid} {c : Call} {o : S.Op} {k : S.Ans o → Prog S Res} {a : S.Ans o}
      {m : W.Mem} :
      s.thread t = some (c, .op o k) → W.exec t c o a s.mem m →
      Step prog s (.op t c o a) (s.put m t (some (c, k a)))
  | jump {s : Pool W} {t : Tid} {c : Call} {σ β : Type} {body : σ → Prog S (Next σ β)} {x : σ}
      {k : β → Prog S Res} :
      s.thread t = some (c, .loop body x k) →
      Step prog s (.jump t) (s.put s.mem t (some (c, Prog.unroll body x k)))
  | ret {s : Pool W} {t : Tid} {c : Call} {r : Res} {m : W.Mem} :
      s.thread t = some (c, .ret r) → W.ret t c r s.mem m →
      Step prog s (.ret t c r) (s.put m t none)
  | client {s : Pool W} {t : Tid} {m : W.Mem} :
      s.thread t = none → W.client t s.mem m → Step prog s (.client t) (s.put m t none)

/-- A thread's step leaves every other thread where it was. -/
theorem Pool.Step.thread_of_ne {s s' : Pool W} {e : Event S Tid Call Res} {t : Tid}
    (h : Pool.Step prog s e s') (ht : e.tid ≠ t) : s'.thread t = s.thread t := by
  cases h <;> exact Pool.put_thread_ne _ _ _ (Ne.symm ht)

/-- A thread comes into a call by starting it. -/
theorem Pool.Step.call_of_thread {s s' : Pool W} {e : Event S Tid Call Res} {t : Tid}
    (h : Pool.Step prog s e s') (ht : s.thread t = none) (ht' : s'.thread t ≠ none) :
    ∃ c, e = .call t c := by
  by_cases he : e.tid = t
  · subst he
    cases h with
    | call => exact ⟨_, rfl⟩
    | op hsome _ | jump hsome | ret hsome _ => cases Eq.trans (Eq.symm ht) hsome
    | client _ _ => exact absurd (Pool.put_thread_self ..) ht'
  · rw [h.thread_of_ne he] at ht'
    exact absurd ht ht'

/-- After a return the thread is outside all calls. -/
theorem Pool.Step.thread_of_ret {s s' : Pool W} {e : Event S Tid Call Res} {t : Tid} {c : Call}
    {r : Res} (h : Pool.Step prog s e s') (he : e = .ret t c r) : s'.thread t = none := by
  subst he
  cases h
  exact Pool.put_thread_self ..

/-! ## Runs -/

/-- A step with the states around it. -/
structure Trans (W : World S Tid Call Res) where
  src : Pool W
  ev : Event S Tid Call Res
  dst : Pool W

/-- An interleaving from one state to another, as the list of its steps. -/
inductive Run (prog : Call → Prog S Res) : Pool W → List (Trans W) → Pool W → Prop where
  | nil (s : Pool W) : Run prog s [] s
  | cons {s s' s'' : Pool W} {e : Event S Tid Call Res} {tr : List (Trans W)} :
      Pool.Step prog s e s' → Run prog s' tr s'' → Run prog s (⟨s, e, s'⟩ :: tr) s''

namespace Run

variable {s s' s'' : Pool W} {e : Event S Tid Call Res} {tr tr' : List (Trans W)}

theorem append (h : Run prog s tr s') (h' : Run prog s' tr' s'') :
    Run prog s (tr ++ tr') s'' := by
  induction h with
  | nil s => exact h'
  | cons hstep _ ih => exact .cons hstep (ih h')

theorem snoc (h : Run prog s tr s') (hstep : Pool.Step prog s' e s'') :
    Run prog s (tr ++ [⟨s', e, s''⟩]) s'' :=
  h.append (.cons hstep (.nil _))

/-- A run ends where it started, or where one of its steps ends. -/
theorem last (h : Run prog s tr s') : s' = s ∨ ∃ x ∈ tr, x.dst = s' := by
  induction h with
  | nil s => exact Or.inl rfl
  | @cons s₁ s₂ s₃ e tr hstep hrun ih =>
    refine Or.inr ?_
    rcases ih with rfl | ⟨x, hx, hdst⟩
    · exact ⟨_, List.mem_cons_self, rfl⟩
    · exact ⟨x, List.mem_cons_of_mem _ hx, hdst⟩

/-- Every step of a run is a step, reached by the part of the run before it. -/
theorem split (h : Run prog s tr s') {x : Trans W} (hx : x ∈ tr) :
    ∃ tr₁ tr₂, tr = tr₁ ++ x :: tr₂ ∧ Run prog s tr₁ x.src ∧
      Pool.Step prog x.src x.ev x.dst ∧ Run prog x.dst tr₂ s' := by
  induction h with
  | nil s => cases hx
  | @cons s₁ s₂ s₃ e tr hstep hrun ih =>
    rcases List.mem_cons.mp hx with rfl | hx
    · exact ⟨[], tr, rfl, .nil _, hstep, hrun⟩
    · obtain ⟨tr₁, tr₂, rfl, h₁, h₂, h₃⟩ := ih hx
      exact ⟨_ :: tr₁, tr₂, rfl, .cons hstep h₁, h₂, h₃⟩

/-- **The run rule**: what every admitted step keeps, every run of admitted steps keeps. -/
theorem keeps {I : Pool W → Prop} {ok : Trans W → Prop}
    (hstep : ∀ s e s', I s → Pool.Step prog s e s' → ok ⟨s, e, s'⟩ → I s')
    (h : Run prog s tr s') (hok : ∀ x ∈ tr, ok x) (hs : I s) : I s' := by
  induction h with
  | nil s => exact hs
  | cons hst _ ih =>
    exact ih (fun x hx => hok x (List.mem_cons_of_mem _ hx))
      (hstep _ _ _ hs hst (hok _ List.mem_cons_self))

/-- What every step keeps holds after each step of a run. -/
theorem keeps_dst {I : Pool W → Prop} (hstep : ∀ s e s', I s → Pool.Step prog s e s' → I s')
    (h : Run prog s tr s') (hs : I s) : ∀ x ∈ tr, I x.dst := by
  induction h with
  | nil s => exact List.forall_mem_nil _
  | cons hst _ ih =>
    have hnext := hstep _ _ _ hs hst
    exact List.forall_mem_cons.mpr ⟨hnext, ih hnext⟩

end Run

/-- The states reached from `m` by runs all of whose states have their memory in `ok`. -/
def Reach (prog : Call → Prog S Res) (ok : W.Mem → Prop) (m : W.Mem) (s : Pool W) : Prop :=
  ∃ tr, Run prog (Pool.start m) tr s ∧ ∀ x ∈ tr, ok x.dst.mem

theorem Reach.start (prog : Call → Prog S Res) (ok : W.Mem → Prop) (m : W.Mem) :
    Reach prog ok m (Pool.start m) :=
  ⟨[], .nil _, fun x hx => by cases hx⟩

/-- One step more. -/
theorem Reach.step {ok : W.Mem → Prop} {m : W.Mem} {s s' : Pool W} {e : Event S Tid Call Res}
    (h : Reach prog ok m s) (hstep : Pool.Step prog s e s') (hok : ok s'.mem) :
    Reach prog ok m s' := by
  obtain ⟨tr, hrun, htr⟩ := h
  exact ⟨_, hrun.snoc hstep, List.forall_mem_append.mpr ⟨htr, List.forall_mem_singleton.mpr hok⟩⟩

/-! ## Proof outlines -/

/-- A proof outline of a library: a protocol for each call, and an invariant of the memory and
    the protocol states of all threads that every kind of step keeps.  `ok` bounds the runs under
    consideration. -/
structure Outline (W : World S Tid Call Res) (prog : Call → Prog S Res) (ok : W.Mem → Prop)
    (L : Type) where
  proto : Call → Proto S L
  entry : Call → L
  post : Call → Res → L → Prop
  inv : W.Mem → (Tid → Option (Call × L)) → Prop
  spec : ∀ c, Spec (proto c) (prog c) (entry c) (post c)
  call : ∀ {m m' ph t c}, inv m ph → ph t = none → W.call t c m m' → ok m' →
    inv m' (update ph t (some (c, entry c)))
  op : ∀ {m m' ph t c l o} {a : S.Ans o}, inv m ph → ph t = some (c, l) → (proto c).pre l o →
    W.exec t c o a m m' → ok m' →
    ∃ l', (proto c).post l o a l' ∧ inv m' (update ph t (some (c, l')))
  ret : ∀ {m m' ph t c l r}, inv m ph → ph t = some (c, l) → post c r l → W.ret t c r m m' →
    ok m' → inv m' (update ph t none)
  client : ∀ {m m' ph t}, inv m ph → ph t = none → W.client t m m' → ok m' → inv m' ph

namespace Outline

variable {ok : W.Mem → Prop} {L : Type} (O : Outline W prog ok L)

/-- A thread and its protocol state fit: the rest of its call keeps the protocol. -/
inductive Fits : Option (Call × Prog S Res) → Option (Call × L) → Prop where
  | idle : Fits none none
  | busy {c : Call} {p : Prog S Res} {l : L} :
      Spec (O.proto c) p l (O.post c) → Fits (some (c, p)) (some (c, l))

/-- The invariant holds, and every thread fits its protocol state. -/
structure Covers (s : Pool W) (ph : Tid → Option (Call × L)) : Prop where
  inv : O.inv s.mem ph
  fits : ∀ t, O.Fits (s.thread t) (ph t)

/-- A step of the pool, seen on protocol states. -/
inductive PhaseStep (m : W.Mem) (ph : Tid → Option (Call × L)) :
    Event S Tid Call Res → W.Mem → (Tid → Option (Call × L)) → Prop where
  | call {t : Tid} {c : Call} {m' : W.Mem} : ph t = none → W.call t c m m' →
      PhaseStep m ph (.call t c) m' (update ph t (some (c, O.entry c)))
  | op {t : Tid} {c : Call} {l l' : L} {o : S.Op} {a : S.Ans o} {m' : W.Mem} :
      ph t = some (c, l) → (O.proto c).pre l o → W.exec t c o a m m' →
      (O.proto c).post l o a l' →
      PhaseStep m ph (.op t c o a) m' (update ph t (some (c, l')))
  | jump {t : Tid} {c : Call} {l : L} : ph t = some (c, l) → PhaseStep m ph (.jump t) m ph
  | ret {t : Tid} {c : Call} {l : L} {r : Res} {m' : W.Mem} : ph t = some (c, l) →
      O.post c r l → W.ret t c r m m' → PhaseStep m ph (.ret t c r) m' (update ph t none)
  | client {t : Tid} {m' : W.Mem} : ph t = none → W.client t m m' →
      PhaseStep m ph (.client t) m' ph

variable {O}

theorem Covers.idle {s : Pool W} {ph : Tid → Option (Call × L)} (h : O.Covers s ph) {t : Tid}
    (ht : s.thread t = none) : ph t = none := by
  have hfit := h.fits t
  rw [ht] at hfit
  generalize ph t = y at hfit
  cases hfit
  rfl

/-- A thread inside a call has a local state, from which the rest of its program keeps the protocol.
    -/
theorem Covers.busy {s : Pool W} {ph : Tid → Option (Call × L)} (h : O.Covers s ph) {t : Tid}
    {c : Call} {p : Prog S Res} (ht : s.thread t = some (c, p)) :
    ∃ l, ph t = some (c, l) ∧ Spec (O.proto c) p l (O.post c) := by
  have hfit := h.fits t
  rw [ht] at hfit
  generalize ph t = y at hfit
  cases hfit with
  | busy hspec => exact ⟨_, rfl, hspec⟩

/-- Moving one thread together with its protocol state keeps all threads fitting. -/
theorem Covers.put {s : Pool W} {ph ph' : Tid → Option (Call × L)} (h : O.Covers s ph)
    {m : W.Mem} {t : Tid} {x : Option (Call × Prog S Res)} (hinv : O.inv m ph')
    (hfit : O.Fits x (ph' t)) (hrest : ∀ u, u ≠ t → ph' u = ph u) :
    O.Covers (s.put m t x) ph' := by
  refine ⟨hinv, fun u => ?_⟩
  by_cases hu : u = t
  · subst hu
    rw [Pool.put_thread_self]
    exact hfit
  · rw [Pool.put_thread_ne _ _ _ hu, hrest u hu]
    exact h.fits u

/-- `Covers.put` at an updated protocol state. -/
theorem Covers.put_update {s : Pool W} {ph : Tid → Option (Call × L)} (h : O.Covers s ph)
    {m : W.Mem} {t : Tid} {x : Option (Call × Prog S Res)} {y : Option (Call × L)}
    (hinv : O.inv m (update ph t y)) (hfit : O.Fits x y) :
    O.Covers (s.put m t x) (update ph t y) :=
  h.put hinv (by rw [update_self]; exact hfit) fun _ hu => update_of_ne hu ..

/-- **The step rule.**  A step of a covered pool is a step on protocol states, and leaves the
    pool covered. -/
theorem step {s s' : Pool W} {e : Event S Tid Call Res} {ph : Tid → Option (Call × L)}
    (h : O.Covers s ph) (hstep : Pool.Step prog s e s') (hok : ok s'.mem) :
    ∃ ph', O.PhaseStep s.mem ph e s'.mem ph' ∧ O.Covers s' ph' := by
  cases hstep with
  | @call t c m ht hcall =>
    have hph := h.idle ht
    exact ⟨_, .call hph hcall, h.put_update (O.call h.inv hph hcall hok) (.busy (O.spec c))⟩
  | @op t c o k a m ht hexec =>
    obtain ⟨l, hph, hspec⟩ := h.busy ht
    obtain ⟨hpre, hk⟩ := hspec.out
    obtain ⟨l', hpost, hinv⟩ := O.op h.inv hph hpre hexec hok
    exact ⟨_, .op hph hpre hexec hpost, h.put_update hinv (.busy (hk a l' hpost))⟩
  | @jump t c σ β body x k ht =>
    obtain ⟨l, hph, hspec⟩ := h.busy ht
    exact ⟨ph, .jump hph, h.put h.inv (by rw [hph]; exact .busy hspec.out) fun _ _ => rfl⟩
  | @ret t c r m ht hret =>
    obtain ⟨l, hph, hspec⟩ := h.busy ht
    exact ⟨_, .ret hph hspec.out hret, h.put_update (O.ret h.inv hph hspec.out hret hok) .idle⟩
  | @client t m ht hclient =>
    have hph := h.idle ht
    exact ⟨ph, .client hph hclient,
      h.put (O.client h.inv hph hclient hok) (by rw [hph]; exact .idle) fun _ _ => rfl⟩

/-- The invariant, carried along a run. -/
theorem run {s s' : Pool W} {tr : List (Trans W)} (hrun : Run prog s tr s')
    (hok : ∀ x ∈ tr, ok x.dst.mem) (h : ∃ ph, O.Covers s ph) : ∃ ph, O.Covers s' ph := by
  refine Run.keeps (I := fun s => ∃ ph, O.Covers s ph) ?_ hrun hok h
  rintro s e s' ⟨ph, hph⟩ hstep hok'
  obtain ⟨ph', -, hcov⟩ := step hph hstep hok'
  exact ⟨ph', hcov⟩

/-- The invariant in every reachable state. -/
theorem reach {m : W.Mem} {s : Pool W} (h : Reach prog ok m s)
    (hinit : O.inv m fun _ => none) : ∃ ph, O.Covers s ph := by
  obtain ⟨tr, hrun, hok⟩ := h
  exact run hrun hok ⟨fun _ => none, hinit, fun _ => .idle⟩

end Outline

end Conc
