/-
  THE SAME CALLS OVER A LARGER MEMORY.

  A proof outline is about one shared memory.  A memory with more in it, where every step does at
  least what it does in the first, needs no new proof: the outline holds over the projection
  (`Outline.over`).  What there is to say about the rest of the memory is then added to the
  invariant (`Outline.strengthen`), one case for each kind of step, and the results about
  outlines are there for the stronger one.
-/
import WfeMutex.Conc.Pool

set_option linter.unusedVariables false

namespace Conc

section
variable {S : Sig} {Tid Call Res L : Type} {W W' : World S Tid Call Res}

/-- Every step of `W'` is one of `W`, by the projection `view`. -/
structure World.Over (W' W : World S Tid Call Res) (view : W'.Mem → W.Mem) : Prop where
  call : ∀ {t c m m'}, W'.call t c m m' → W.call t c (view m) (view m')
  exec : ∀ {t c o a m m'}, W'.exec t c o a m m' → W.exec t c o a (view m) (view m')
  ret : ∀ {t c r m m'}, W'.ret t c r m m' → W.ret t c r (view m) (view m')
  client : ∀ {t m m'}, W'.client t m m' → W.client t (view m) (view m')

variable [DecidableEq Tid] {prog : Call → Prog S Res}

/-- The pool with the smaller memory. -/
def Pool.under (view : W'.Mem → W.Mem) (s : Pool W') : Pool W := ⟨view s.mem, s.thread⟩

/-- The steps are the same. -/
theorem Pool.Step.under {view : W'.Mem → W.Mem} (h : W'.Over W view) {s s' : Pool W'}
    {e : Event S Tid Call Res} (hstep : Pool.Step prog s e s') :
    Pool.Step prog (s.under view) e (s'.under view) := by
  cases hstep with
  | call ht hcall => exact .call ht (h.call hcall)
  | op ht hexec => exact .op ht (h.exec hexec)
  | jump ht => exact .jump ht
  | ret ht hret => exact .ret ht (h.ret hret)
  | client ht hclient => exact .client ht (h.client hclient)

/-- What is reached with more in the state is reached with less. -/
theorem Reach.under {view : W'.Mem → W.Mem} (h : W'.Over W view) {ok : W.Mem → Prop}
    {m : W'.Mem} {s : Pool W'} (hs : Reach prog (fun m => ok (view m)) m s) :
    Reach prog ok (view m) (s.under view) := by
  obtain ⟨tr, hrun, hok⟩ := hs
  refine hrun.keeps (I := fun s => Reach prog ok (view m) (s.under view)) ?_ hok ?_
  · intro s e s' hs hstep hdst
    exact hs.step (hstep.under h) hdst
  · exact Reach.start prog ok (view m)

/-- The step with the smaller memory. -/
def Trans.under (view : W'.Mem → W.Mem) (x : Trans W') : Trans W :=
  ⟨x.src.under view, x.ev, x.dst.under view⟩

/-- **A run over a smaller memory**: where an invariant of the larger one makes every step a step of
    the smaller, a whole run is one there. -/
theorem Run.under_of (view : W'.Mem → W.Mem) {I : Pool W' → Prop} {ok : Trans W' → Prop}
    (hstep : ∀ s e s', I s → Pool.Step prog s e s' → ok ⟨s, e, s'⟩ →
      I s' ∧ Pool.Step prog (s.under view) e (s'.under view))
    {s s' : Pool W'} {tr : List (Trans W')} (hrun : Run prog s tr s')
    (hok : ∀ x ∈ tr, ok x) (hs : I s) :
    I s' ∧ Run prog (s.under view) (tr.map (Trans.under view)) (s'.under view) := by
  induction hrun with
  | nil s => exact ⟨hs, .nil _⟩
  | cons hst _ ih =>
    obtain ⟨hmid, hunder⟩ := hstep _ _ _ hs hst (hok _ List.mem_cons_self)
    obtain ⟨hend, hrest⟩ := ih (fun x hx => hok x (List.mem_cons_of_mem _ hx)) hmid
    exact ⟨hend, .cons hunder hrest⟩

/-- An outline, over a larger memory. -/
def Outline.over {ok : W.Mem → Prop} (O : Outline W prog ok L) {view : W'.Mem → W.Mem}
    (h : W'.Over W view) : Outline W' prog (fun m => ok (view m)) L where
  proto := O.proto
  entry := O.entry
  post := O.post
  inv m ph := O.inv (view m) ph
  spec := O.spec
  call hinv ht hcall hok := O.call hinv ht (h.call hcall) hok
  op hinv ht hpre hexec hok := O.op hinv ht hpre (h.exec hexec) hok
  ret hinv ht hpost hret hok := O.ret hinv ht hpost (h.ret hret) hok
  client hinv ht hclient hok := O.client hinv ht (h.client hclient) hok

/-- An outline that knows more: `J`, which every step keeps. -/
def Outline.strengthen {ok : W.Mem → Prop} (O : Outline W prog ok L)
    (J : W.Mem → (Tid → Option (Call × L)) → Prop)
    (hJ : ∀ {m m' ph ph' e}, O.PhaseStep m ph e m' ph' → J m ph → J m' ph') :
    Outline W prog ok L where
  proto := O.proto
  entry := O.entry
  post := O.post
  inv m ph := O.inv m ph ∧ J m ph
  spec := O.spec
  call hinv ht hcall hok := ⟨O.call hinv.1 ht hcall hok, hJ (.call ht hcall) hinv.2⟩
  op := by
    rintro m m' ph t c l o a ⟨hinv, hj⟩ ht hpre hexec hok
    obtain ⟨l', hpost, hinv'⟩ := O.op hinv ht hpre hexec hok
    exact ⟨l', hpost, hinv', hJ (.op ht hpre hexec hpost) hj⟩
  ret hinv ht hpost hret hok := ⟨O.ret hinv.1 ht hpost hret hok, hJ (.ret ht hpost hret) hinv.2⟩
  client hinv ht hclient hok := ⟨O.client hinv.1 ht hclient hok, hJ (.client ht hclient) hinv.2⟩

end

end Conc
