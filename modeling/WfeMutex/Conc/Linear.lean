/-
  LINEARIZABILITY: every call takes effect at one instant between its start and its return.

  A sequential `Object` says what a call may answer, and what it does to the state, when it is
  performed all at once.  `Object.Performs` is the object shared by any number of threads in the
  best way there is: a call is announced, takes effect at one later instant (`commit`), and returns
  the answer it got there.  The HISTORY of a run is what the callers can see of it, the starts
  and the returns in their order; it is `Linearizable` when the shared object can have produced it.
  Calls that never return are part of the history, with or without having taken effect.

  The proof rule is `Outline.Linearizes`: for each local state of a call the positions the call may
  have in the shared object, and for each kind of step that the positions after it come from
  positions before it.  It is a BACKWARD simulation.  At the instant at which an attempt fails, it
  is not known yet whether the call will end in failure or try again and succeed; both positions
  stay possible until the call returns, and the return then tells which of them it was.
-/
import WfeMutex.Conc.Pool

set_option linter.unusedVariables false

namespace Conc

open Function (update update_self update_of_ne)

/-- A sequential object: what a call may answer, and what it does to the state. -/
structure Object (Tid Call Res : Type) where
  State : Type
  /-- Performed by `t` all at once, the call may be answered so and take the state to the next. -/
  does : Tid → Call → Res → State → State → Prop

/-- What the callers see: the start of a call, and its return. -/
inductive Visible (Tid Call Res : Type) where
  | call (t : Tid) (c : Call)
  | ret (t : Tid) (c : Call) (r : Res)
  deriving DecidableEq, Repr

/-- The position of a thread in the shared object. -/
inductive Status (Call Res : Type) where
  | idle
  | called (c : Call)
  | done (c : Call) (r : Res)
  deriving DecidableEq, Repr

namespace Object

variable {Tid Call Res : Type} (obj : Object Tid Call Res)

/-- The state of the shared object, and where every thread is. -/
structure Config where
  state : obj.State
  status : Tid → Status Call Res

/-- The object before any call. -/
def start (σ : obj.State) : obj.Config := ⟨σ, fun _ => .idle⟩

variable [DecidableEq Tid]

/-- A run of the shared object, with its history. -/
inductive Performs : obj.Config → List (Visible Tid Call Res) → obj.Config → Prop where
  | nil (z : obj.Config) : Performs z [] z
  | call {σ : obj.State} {st : Tid → Status Call Res} {t : Tid} {c : Call}
      {h : List (Visible Tid Call Res)} {z : obj.Config} : st t = .idle →
      Performs ⟨σ, update st t (.called c)⟩ h z → Performs ⟨σ, st⟩ (.call t c :: h) z
  /-- The instant at which the call takes effect. -/
  | commit {σ σ' : obj.State} {st : Tid → Status Call Res} {t : Tid} {c : Call} {r : Res}
      {h : List (Visible Tid Call Res)} {z : obj.Config} : st t = .called c →
      obj.does t c r σ σ' → Performs ⟨σ', update st t (.done c r)⟩ h z → Performs ⟨σ, st⟩ h z
  | ret {σ : obj.State} {st : Tid → Status Call Res} {t : Tid} {c : Call} {r : Res}
      {h : List (Visible Tid Call Res)} {z : obj.Config} : st t = .done c r →
      Performs ⟨σ, update st t .idle⟩ h z → Performs ⟨σ, st⟩ (.ret t c r :: h) z

/-- **The history can be one of the shared object**, started in the state `σ`. -/
def Linearizable (σ : obj.State) (h : List (Visible Tid Call Res)) : Prop :=
  ∃ z, obj.Performs (obj.start σ) h z

variable {obj}

theorem Performs.append {x y z : obj.Config} {h h' : List (Visible Tid Call Res)}
    (hxy : obj.Performs x h y) (hyz : obj.Performs y h' z) : obj.Performs x (h ++ h') z := by
  induction hxy with
  | nil z => exact hyz
  | call hst _ ih => exact .call hst (ih hyz)
  | commit hst hdoes _ ih => exact .commit hst hdoes (ih hyz)
  | ret hst _ ih => exact .ret hst (ih hyz)

/-! ## At most one instant of one thread -/

/-- The thread stays where it is, or its call takes effect. -/
inductive Commits (obj : Object Tid Call Res) (t : Tid) :
    obj.State → Status Call Res → obj.State → Status Call Res → Prop where
  | stay (σ : obj.State) (y : Status Call Res) : Commits obj t σ y σ y
  | commit {σ σ' : obj.State} {c : Call} {r : Res} : obj.does t c r σ σ' →
      Commits obj t σ (.called c) σ' (.done c r)

/-- As steps of the shared object, they are invisible. -/
theorem Commits.performs {t : Tid} {σ σ' : obj.State} {y : Status Call Res}
    {st : Tid → Status Call Res} (h : Commits obj t σ y σ' (st t)) :
    obj.Performs ⟨σ, update st t y⟩ [] ⟨σ', st⟩ := by
  generalize hy' : st t = y' at h
  cases h with
  | stay =>
    rw [← hy', Function.update_eq_self]
    exact .nil _
  | commit hdoes =>
    refine .commit (t := t) (update_self ..) hdoes ?_
    rw [Function.update_idem, ← hy', Function.update_eq_self]
    exact .nil _

end Object

/-! ## The history of a run -/

section
variable {S : Sig} {Tid Call Res : Type} {W : World S Tid Call Res}

/-- What the callers see of a step. -/
def Event.visible : Event S Tid Call Res → List (Visible Tid Call Res)
  | .call t c => [.call t c]
  | .ret t c r => [.ret t c r]
  | .op _ _ _ _ | .jump _ | .client _ => []

/-- What the callers see of a run. -/
def history (tr : List (Trans W)) : List (Visible Tid Call Res) :=
  tr.flatMap fun x => x.ev.visible

theorem history_cons (x : Trans W) (tr : List (Trans W)) :
    history (x :: tr) = x.ev.visible ++ history tr := rfl

theorem history_append (tr tr' : List (Trans W)) :
    history (tr ++ tr') = history tr ++ history tr' := List.flatMap_append

/-! ## The backward simulation -/

variable [DecidableEq Tid] {prog : Call → Prog S Res} {ok : W.Mem → Prop} {L : Type}

/-- The positions a call may have in the shared object, from its local state in an outline, and
    what each kind of step does to them. -/
structure Outline.Linearizes (O : Outline W prog ok L) (obj : Object Tid Call Res) where
  /-- The object's state, in the memory. -/
  state : W.Mem → obj.State
  /-- Where a thread inside the call `c` may be. -/
  stands : Call → L → Status Call Res → Prop
  somewhere : ∀ c l, ∃ y, stands c l y
  call : ∀ {m m' t c y}, W.call t c m m' → stands c (O.entry c) y →
    obj.Commits t (state m) (.called c) (state m') y
  op : ∀ {m m' ph t c l l' o y'} {a : S.Ans o}, O.inv m ph → ph t = some (c, l) →
    (O.proto c).pre l o → W.exec t c o a m m' → (O.proto c).post l o a l' → ok m' →
    stands c l' y' → ∃ y, stands c l y ∧ obj.Commits t (state m) y (state m') y'
  ret : ∀ {m m' ph t c l r}, O.inv m ph → ph t = some (c, l) → O.post c r l → W.ret t c r m m' →
    state m' = state m ∧ stands c l (.done c r)
  client : ∀ {m m' t}, W.client t m m' → state m' = state m

namespace Outline.Linearizes

variable {O : Outline W prog ok L} {obj : Object Tid Call Res} (Z : O.Linearizes obj)

/-- Where a thread may be in the shared object. -/
def Stands : Option (Call × L) → Status Call Res → Prop
  | none, y => y = .idle
  | some (c, l), y => Z.stands c l y

/-- The shared object's configurations that a memory and the local states leave possible. -/
structure Possible (m : W.Mem) (ph : Tid → Option (Call × L)) (z : obj.Config) : Prop where
  state : z.state = Z.state m
  status : ∀ t, Z.Stands (ph t) (z.status t)

variable {Z}

/-- What is possible after `t` has moved, back at the position where `t` came from. -/
theorem Possible.back {m m' : W.Mem} {ph : Tid → Option (Call × L)} {t : Tid}
    {x : Option (Call × L)} {z : obj.Config} {y : Status Call Res}
    (h : Z.Possible m' (update ph t x) z) (hy : Z.Stands (ph t) y) :
    Z.Possible m ph ⟨Z.state m, update z.status t y⟩ := by
  refine ⟨rfl, fun u => ?_⟩
  show Z.Stands (ph u) (update z.status t y u)
  by_cases hu : u = t
  · subst hu
    rw [update_self]
    exact hy
  · rw [update_of_ne hu]
    have hold := h.status u
    rw [update_of_ne hu] at hold
    exact hold

theorem Possible.self {m : W.Mem} {ph : Tid → Option (Call × L)} {t : Tid}
    {x : Option (Call × L)} {z : obj.Config} (h : Z.Possible m (update ph t x) z) :
    Z.Stands x (z.status t) := by
  have hself := h.status t
  rw [update_self] at hself
  exact hself

/-- **One step**, backwards: what is possible after it comes from something possible before. -/
theorem back {m m' : W.Mem} {ph ph' : Tid → Option (Call × L)} {e : Event S Tid Call Res}
    {z' : obj.Config} (hinv : O.inv m ph) (hstep : O.PhaseStep m ph e m' ph') (hok : ok m')
    (hz' : Z.Possible m' ph' z') :
    ∃ z, Z.Possible m ph z ∧ obj.Performs z e.visible z' := by
  obtain ⟨σ', st'⟩ := z'
  obtain rfl : σ' = Z.state m' := hz'.state
  cases hstep with
  | @call t c _ ht hcall =>
    have hidle : Z.Stands (ph t) .idle := by
      rw [ht]
      exact rfl
    refine ⟨_, hz'.back hidle, .call (update_self ..) ?_⟩
    rw [Function.update_idem]
    exact (Z.call hcall hz'.self).performs
  | @op t c l l' o a _ ht hpre hexec hpost =>
    obtain ⟨y, hy, hcommit⟩ := Z.op hinv ht hpre hexec hpost hok hz'.self
    have hold : Z.Stands (ph t) y := by
      rw [ht]
      exact hy
    exact ⟨_, hz'.back hold, hcommit.performs⟩
  | @jump t c l ht => exact ⟨_, hz', .nil _⟩
  | @ret t c l r _ ht hpost hret =>
    obtain ⟨hstate, hdone⟩ := Z.ret hinv ht hpost hret
    have hold : Z.Stands (ph t) (.done c r) := by
      rw [ht]
      exact hdone
    have hidle : st' t = .idle := hz'.self
    refine ⟨_, hz'.back hold, .ret (update_self ..) ?_⟩
    rw [Function.update_idem, ← hstate, ← hidle, Function.update_eq_self]
    exact .nil _
  | @client t _ ht hclient => exact ⟨_, ⟨Z.client hclient, hz'.status⟩, .nil _⟩

/-- **A whole run**, backwards. -/
theorem run {s s' : Pool W} {tr : List (Trans W)} {ph : Tid → Option (Call × L)}
    (hrun : Run prog s tr s') (hok : ∀ x ∈ tr, ok x.dst.mem) (hcov : O.Covers s ph) :
    ∃ z z', Z.Possible s.mem ph z ∧ obj.Performs z (history tr) z' := by
  induction hrun generalizing ph with
  | nil s =>
    -- every thread is somewhere
    have hsome : ∀ t, ∃ y, Z.Stands (ph t) y := by
      intro t
      rcases ph t with _ | ⟨c, l⟩
      · exact ⟨.idle, rfl⟩
      · exact Z.somewhere c l
    obtain ⟨st, hst⟩ := Classical.skolem.mp hsome
    exact ⟨⟨Z.state s.mem, st⟩, _, ⟨rfl, hst⟩, .nil _⟩
  | cons hstep _ ih =>
    have hok₁ := hok _ List.mem_cons_self
    obtain ⟨ph', hphase, hcov'⟩ := Outline.step hcov hstep hok₁
    obtain ⟨z₁, z', hz₁, hperf⟩ := ih (fun x hx => hok x (List.mem_cons_of_mem _ hx)) hcov'
    obtain ⟨z, hz, hback⟩ := back hcov.inv hphase hok₁ hz₁
    exact ⟨z, z', hz, hback.append hperf⟩

variable (Z)

/-- **Every run is linearizable.** -/
theorem linearizable {m : W.Mem} {s : Pool W} {tr : List (Trans W)}
    (hinit : O.inv m fun _ => none) (hrun : Run prog (Pool.start m) tr s)
    (hok : ∀ x ∈ tr, ok x.dst.mem) : obj.Linearizable (Z.state m) (history tr) := by
  obtain ⟨z, z', hz, hperf⟩ := run (Z := Z) hrun hok ⟨hinit, fun _ => .idle⟩
  refine ⟨z', ?_⟩
  have hstart : z = obj.start (Z.state m) := by
    obtain ⟨σ, st⟩ := z
    obtain rfl : σ = Z.state m := hz.state
    have hst : st = fun _ => .idle := funext hz.status
    rw [hst]
    rfl
  rw [← hstart]
  exact hperf

end Outline.Linearizes

end

end Conc
