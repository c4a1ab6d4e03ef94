/-
  GETTING THROUGH AFTER INTERFERENCE.

  `Within` (`Conc.Solo`) says of a program that it returns soon if it is alone from its start.  A
  thread that is left alone in the middle of a call is a different matter: the others have answered
  its earlier operations, and it may act on what is no longer true.  A `Setting` describes both
  times of one party, in company by a protocol, alone by what its operations do to the memory,
  and says which memories are `good`: from those it should get through.

  `Settles C n p l R` — `p`, in company from the local state `l`, keeps the protocol and returns
  only with `R`; and wherever it is left alone on the way, on a good memory, it returns within `n`
  of its own steps.  The steps of a sequence add up (`Settles.bind`).  A loop is the interesting
  case (`Settles.iter`): the round in which the party is left alone may fail on stale values, so
  beside the bound for one round it takes a bound for the loop started afresh.

  `Outline.Tracks` carries such a statement from the programs of the calls to the threads of every
  state of every run.  `WaitFree` is for calls without a loop, which need not be left alone.
-/
import WfeMutex.Conc.Solo

set_option linter.unusedVariables false

namespace Conc

/-! ## Settings -/

/-- One party of a shared memory, first in company and then alone. -/
structure Setting (S : Sig) (L M : Type) where
  /-- In company. -/
  proto : Proto S L
  /-- Alone: how an operation may be answered, and what it leaves. -/
  alone : (o : S.Op) → S.Ans o → M → M → Prop
  /-- The memories on which a party in local state `l` should get through. -/
  good : L → M → Prop
  /-- Being alone is one way of being in company, and a good memory stays good. -/
  covers : ∀ {l m o a m'}, good l m → proto.pre l o → alone o a m m' →
    ∃ l', proto.post l o a l' ∧ good l' m'

section
variable {S : Sig} {L L' M α β σ : Type} {C : Setting S L M}

/-- What a program keeps in company, it keeps alone. -/
theorem Within.spec {Q : α → M → Prop} {R : α → L → Prop} {n : Nat} {p : Prog S α} {l : L} {m : M}
    (h : Within C.alone Q n p m) (hspec : Spec C.proto p l R) (hm : C.good l m) :
    Within C.alone (fun a m' => ∃ l', R a l' ∧ C.good l' m') n p m := by
  induction n generalizing p l m with
  | zero =>
    cases p with
    | ret a => exact ⟨l, hspec.out, hm⟩
    | op o k => exact h.elim
    | loop body s k => exact h.elim
  | succ n ih =>
    cases p with
    | ret a => exact ⟨l, hspec.out, hm⟩
    | op o k =>
      obtain ⟨hpre, hk⟩ := hspec.out
      refine ⟨h.1, fun a m' ha => ?_⟩
      obtain ⟨l', hpost, hm'⟩ := C.covers hm hpre ha
      exact ih (h.2 a m' ha) (hk a l' hpost) hm'
    | loop body s k =>
      show Within _ _ n (Prog.unroll body s k) m
      exact ih h hspec.out hm

/-- What is through in `n` steps however it is answered in company, is so alone, if the memory
    answers. -/
theorem Within.alone {Q : α → L → Prop} {R : α → L → Prop} {n : Nat} {p : Prog S α} {l : L} {m : M}
    (h : Within (fun o a l l' => C.proto.post l o a l') Q n p l) (hspec : Spec C.proto p l R)
    (hanswer : ∀ {l m o}, S.Ans o → C.good l m → C.proto.pre l o → ∃ a m', C.alone o a m m')
    (hm : C.good l m) : Within C.alone (fun _ _ => True) n p m := by
  induction n generalizing p l m with
  | zero =>
    cases p with
    | ret a => exact trivial
    | op o k => exact h.elim
    | loop body s k => exact h.elim
  | succ n ih =>
    cases p with
    | ret a => exact trivial
    | op o k =>
      obtain ⟨hpre, hk⟩ := hspec.out
      obtain ⟨⟨a, -⟩, hall⟩ := h
      refine ⟨hanswer a hm hpre, fun b m' hb => ?_⟩
      obtain ⟨l', hpost, hm'⟩ := C.covers hm hpre hb
      exact ih (hall b l' hpost) (hk b l' hpost) hm'
    | loop body s k =>
      show Within _ _ n (Prog.unroll body s k) m
      exact ih h hspec.out hm

/-- A weaker postcondition. -/
theorem Within.post {step : (o : S.Op) → S.Ans o → M → M → Prop} {Q Q' : α → M → Prop} {n : Nat}
    {p : Prog S α} {m : M} (h : Within step Q n p m) (hQ : ∀ a m, Q a m → Q' a m) :
    Within step Q' n p m := by
  induction n generalizing p m with
  | zero =>
    cases p with
    | ret a => exact hQ a m h
    | op o k => exact h.elim
    | loop body s k => exact h.elim
  | succ n ih =>
    cases p with
    | ret a => exact hQ a m h
    | op o k => exact ⟨h.1, fun a m' ha => ih (h.2 a m' ha)⟩
    | loop body s k =>
      show Within step Q' n (Prog.unroll body s k) m
      exact ih h

/-- A round of a loop alone, and what follows it. -/
theorem Within.iter {step : (o : S.Op) → S.Ans o → M → M → Prop} {Q : α → M → Prop} {n k : Nat}
    {body : σ → Prog S (Next σ α)} {s : σ} {m : M}
    (h : Within step (fun r m' => match r with
      | .again s' => Within step Q k (Prog.iter body s') m'
      | .leave b => Q b m') n (body s) m) : Within step Q (n + k + 1) (Prog.iter body s) m := by
  show Within step Q (n + k) ((body s).bind (Prog.after body .ret)) m
  refine h.bind ?_
  intro r m' hr
  cases r with
  | again s' => exact hr
  | leave b => exact Within.ret hr

/-- Left alone on a good memory, the program returns within `n` steps. -/
def Setting.Frees (C : Setting S L M) (n : Nat) (p : Prog S α) (l : L) : Prop :=
  ∀ m, C.good l m → Within C.alone (fun _ _ => True) n p m

theorem Setting.Frees.mono {n k : Nat} {p : Prog S α} {l : L} (h : C.Frees n p l) (hk : n ≤ k) :
    C.Frees k p l :=
  fun m hm => (h m hm).mono hk

/-! ## Settling -/

/-- In company the program keeps the protocol and returns only with `R`; left alone anywhere on
    the way, it returns within `n` steps. -/
def Settles (C : Setting S L M) (n : Nat) (p : Prog S α) (l : L) (R : α → L → Prop) : Prop :=
  ∃ X : Prog S α → L → Prop,
    (∀ p l, X p l → C.Frees n p l ∧ head C.proto R X p l) ∧ X p l

namespace Settles

variable {n k : Nat} {p : Prog S α} {l : L} {R R' : α → L → Prop}

theorem out (h : Settles C n p l R) :
    C.Frees n p l ∧ head C.proto R (fun p l => Settles C n p l R) p l := by
  obtain ⟨X, hX, hp⟩ := h
  obtain ⟨hfree, hhead⟩ := hX p l hp
  exact ⟨hfree, head_mono (fun _ _ hR => hR) (fun p l hp => ⟨X, hX, hp⟩) hhead⟩

theorem frees (h : Settles C n p l R) : C.Frees n p l := h.out.1

theorem spec (h : Settles C n p l R) : Spec C.proto p l R := by
  refine ⟨fun p l => Settles C n p l R, fun p l hp => hp.out.2, h⟩

/-- Left alone, it returns with what it keeps in company. -/
theorem within (h : Settles C n p l R) {m : M} (hm : C.good l m) :
    Within C.alone (fun a m' => ∃ l', R a l' ∧ C.good l' m') n p m :=
  (h.frees m hm).spec h.spec hm

theorem mono (h : Settles C n p l R) (hk : n ≤ k) (hR : ∀ a l, R a l → R' a l) :
    Settles C k p l R' := by
  refine ⟨fun p l => Settles C n p l R, fun p l hp => ⟨hp.frees.mono hk, ?_⟩, h⟩
  exact head_mono hR (fun _ _ hq => hq) hp.out.2

/-- What is proved separately under the same protocol. -/
theorem both (h : Settles C n p l R) (h' : Spec C.proto p l R') :
    Settles C n p l fun a l => R a l ∧ R' a l := by
  refine ⟨fun p l => Settles C n p l R ∧ Spec C.proto p l R', ?_, h, h'⟩
  rintro p l ⟨hp, hp'⟩
  refine ⟨hp.frees, ?_⟩
  cases p with
  | ret a => exact ⟨hp.out.2, hp'.out⟩
  | op o k => exact ⟨hp'.out.1, fun a l' ha => ⟨hp.out.2.2 a l' ha, hp'.out.2 a l' ha⟩⟩
  | loop body s k => exact ⟨hp.out.2, hp'.out⟩

theorem ret {a : α} (h : R a l) : Settles C n (.ret a) l R := by
  refine ⟨fun p l => ∃ a, p = .ret a ∧ R a l, ?_, a, rfl, h⟩
  rintro _ l ⟨a, rfl, ha⟩
  exact ⟨fun m _ => Within.ret trivial, ha⟩

/-- `Settles.ret` for `do` blocks. -/
theorem pure {a : α} (h : R a l) : Settles C n (Pure.pure a) l R := ret h

/-- One operation on its own, which is never stuck. -/
theorem perform {o : S.Op} {R : S.Ans o → L → Prop} (hpre : C.proto.pre l o)
    (hlive : ∀ m, C.good l m → ∃ a m', C.alone o a m m')
    (h : ∀ a l', C.proto.post l o a l' → R a l') : Settles C 1 (Prog.perform o) l R := by
  refine ⟨fun p l' => Settles C 1 p l' R ∨ (p = Prog.perform o ∧ l' = l), ?_, Or.inr ⟨rfl, rfl⟩⟩
  rintro p l' (hp | ⟨rfl, rfl⟩)
  · exact ⟨hp.frees, head_mono (fun _ _ hR => hR) (fun _ _ hq => Or.inl hq) hp.out.2⟩
  · refine ⟨fun m hm => ?_, hpre, fun a l' ha => Or.inl (ret (h a l' ha))⟩
    exact Within.perform (hlive m hm) fun _ _ _ => trivial

/-- One operation where nothing is asked of the party if it is left alone. -/
theorem perform_of_bad {o : S.Op} {R : S.Ans o → L → Prop} (hpre : C.proto.pre l o)
    (hbad : ∀ m, ¬ C.good l m) (h : ∀ a l', C.proto.post l o a l' → R a l') :
    Settles C n (Prog.perform o) l R := by
  refine ⟨fun p l' => Settles C n p l' R ∨ (p = Prog.perform o ∧ l' = l), ?_, Or.inr ⟨rfl, rfl⟩⟩
  rintro p l' (hp | ⟨rfl, rfl⟩)
  · exact ⟨hp.frees, head_mono (fun _ _ hR => hR) (fun _ _ hq => Or.inl hq) hp.out.2⟩
  · exact ⟨fun m hm => absurd hm (hbad m), hpre, fun a l' ha => Or.inl (ret (h a l' ha))⟩

/-- The steps of a sequence add up, also from the middle of its first part. -/
theorem bind {Q : β → L → Prop} {f : α → Prog S β} (h : Settles C n p l R)
    (hf : ∀ a l, R a l → Settles C k (f a) l Q) : Settles C (n + k) (p.bind f) l Q := by
  refine ⟨fun q l => Settles C (n + k) q l Q ∨ ∃ p : Prog S α, q = p.bind f ∧ Settles C n p l R,
    fun q l hq => ?_, Or.inr ⟨p, rfl, h⟩⟩
  rcases hq with hq | ⟨p, rfl, hp⟩
  · exact ⟨hq.frees, head_mono (fun _ _ hR => hR) (fun _ _ hq => Or.inl hq) hq.out.2⟩
  · constructor
    · intro m hm
      refine (hp.within hm).bind ?_
      rintro a m' ⟨l', hR, hm'⟩
      exact (hf a l' hR).frees m' hm'
    · have hhead := hp.out.2
      cases p with
      | ret a =>
        have hq := (hf a l hhead).mono (Nat.le_add_left k n) fun _ _ hQ => hQ
        exact head_mono (fun _ _ hR => hR) (fun _ _ hq => Or.inl hq) hq.out.2
      | op o g => exact ⟨hhead.1, fun a l' ha => Or.inr ⟨g a, rfl, hhead.2 a l' ha⟩⟩
      | loop body s g =>
        exact Or.inr ⟨Prog.unroll body s g, (Prog.unroll_bind body s g f).symm, hhead⟩

/-- `Settles.bind` for `do` blocks. -/
theorem seq {Q : β → L → Prop} {f : α → Prog S β} (h : Settles C n p l R)
    (hf : ∀ a l, R a l → Settles C k (f a) l Q) : Settles C (n + k) (p >>= f) l Q :=
  bind h hf

/-- **The loop rule**: a bound for the rest of a round, and one for the loop started afresh. -/
theorem iter {I : σ → L → Prop} {body : σ → Prog S (Next σ α)} {s : σ}
    (hbody : ∀ s l, I s l → Settles C n (body s) l (Spec.round I R))
    (hfresh : ∀ s l, I s l → C.Frees k (Prog.iter body s) l) (hI : I s l) :
    Settles C (n + k) (Prog.iter body s) l R := by
  -- a loop is either at a round's start, or inside a round, or has returned
  refine ⟨fun q l => (∃ a, q = .ret a ∧ R a l) ∨ (∃ s, q = Prog.iter body s ∧ I s l) ∨
      ∃ p, q = p.bind (Prog.after body .ret) ∧ Settles C n p l (Spec.round I R),
    fun q l hq => ?_, Or.inr (Or.inl ⟨s, rfl, hI⟩)⟩
  rcases hq with ⟨a, rfl, ha⟩ | ⟨s, rfl, hs⟩ | ⟨p, rfl, hp⟩
  · exact ⟨fun m _ => Within.ret trivial, ha⟩
  · exact ⟨(hfresh s l hs).mono (Nat.le_add_left k n), Or.inr (Or.inr ⟨body s, rfl, hbody s l hs⟩)⟩
  · constructor
    · intro m hm
      refine (hp.within hm).bind ?_
      rintro r m' ⟨l', hround, hm'⟩
      cases r with
      | again s' => exact hfresh s' l' hround m' hm'
      | leave b => exact Within.ret trivial
    · have hhead := hp.out.2
      cases p with
      | ret r =>
        cases r with
        | again s' => exact Or.inr (Or.inr ⟨body s', rfl, hbody s' l hhead⟩)
        | leave b => exact hhead
      | op o g => exact ⟨hhead.1, fun a l' ha => Or.inr (Or.inr ⟨g a, rfl, hhead.2 a l' ha⟩)⟩
      | loop body' s' g =>
        exact Or.inr (Or.inr
          ⟨Prog.unroll body' s' g, (Prog.unroll_bind body' s' g _).symm, hhead⟩)

/-- A proof in one setting is a proof in another that admits no more, good memories included. -/
theorem embed {C' : Setting S L' M} {E : L → L' → Prop} (halone : C'.alone = C.alone)
    (hgood : ∀ {l l' m}, E l l' → C'.good l' m → C.good l m)
    (hpre : ∀ l l' o, E l l' → C.proto.pre l o → C'.proto.pre l' o)
    (hpost : ∀ l l' o a m', E l l' → C.proto.pre l o → C'.proto.post l' o a m' →
      ∃ m, C.proto.post l o a m ∧ E m m')
    {l' : L'} (h : Settles C n p l R) (hE : E l l') :
    Settles C' n p l' fun a m' => ∃ m, E m m' ∧ R a m := by
  refine ⟨fun q m' => ∃ m, E m m' ∧ Settles C n q m R, fun q m' hq => ?_, l, hE, h⟩
  obtain ⟨m, hm, hq⟩ := hq
  refine ⟨fun x hx => ?_, ?_⟩
  · rw [halone]
    exact hq.frees x (hgood hm hx)
  · have hhead := hq.out.2
    cases q with
    | ret a => exact ⟨m, hm, hhead⟩
    | op o g =>
      refine ⟨hpre m m' o hm hhead.1, fun a n' ha => ?_⟩
      obtain ⟨n, hn, hE'⟩ := hpost m m' o a n' hm hhead.1 ha
      exact ⟨n, hE', hhead.2 a n hn⟩
    | loop body s g => exact ⟨m, hm, hhead⟩

end Settles

end

/-! ## In every state of every run -/

section
variable {S : Sig} {Tid Call Res L : Type} {W : World S Tid Call Res} [DecidableEq Tid]
  {prog : Call → Prog S Res} {ok : W.Mem → Prop}

/-- What is left of a call, in any state: true of the whole call, and of all that may follow. -/
structure Outline.Tracks (O : Outline W prog ok L) (X : Call → Prog S Res → L → Prop) : Prop where
  whole : ∀ c, X c (prog c) (O.entry c)
  rest : ∀ c p l, X c p l → head (O.proto c) (O.post c) (X c) p l

/-- Every thread inside a call is in `X`. -/
def Outline.Tracked (X : Call → Prog S Res → L → Prop) (s : Pool W)
    (ph : Tid → Option (Call × L)) : Prop :=
  ∀ t c p l, s.thread t = some (c, p) → ph t = some (c, l) → X c p l

variable {O : Outline W prog ok L} {X : Call → Prog S Res → L → Prop}

/-- Only one thread moved. -/
theorem Outline.Tracked.put {s : Pool W} {ph : Tid → Option (Call × L)} {m : W.Mem} {t : Tid}
    {x : Option (Call × Prog S Res)} {y : Option (Call × L)} (h : Outline.Tracked X s ph)
    (hself : ∀ c p l, x = some (c, p) → y = some (c, l) → X c p l) :
    Outline.Tracked X (s.put m t x) (Function.update ph t y) := by
  intro u c p l hthread hph
  by_cases hu : u = t
  · subst hu
    rw [Pool.put_thread_self] at hthread
    rw [Function.update_self] at hph
    exact hself c p l hthread hph
  · rw [Pool.put_thread_ne _ _ _ hu] at hthread
    rw [Function.update_of_ne hu] at hph
    exact h u c p l hthread hph

/-- **One step** of the pool. -/
theorem Outline.Tracks.step (hX : O.Tracks X) {s s' : Pool W} {e : Event S Tid Call Res}
    {ph : Tid → Option (Call × L)} (hcov : O.Covers s ph) (h : Outline.Tracked X s ph)
    (hstep : Pool.Step prog s e s') (hok : ok s'.mem) :
    ∃ ph', O.Covers s' ph' ∧ Outline.Tracked X s' ph' := by
  obtain ⟨ph', hphase, hcov'⟩ := Outline.step hcov hstep hok
  refine ⟨ph', hcov', ?_⟩
  cases hstep with
  | @call t c m ht hcall =>
    cases hphase with
    | call hph _ =>
      refine h.put ?_
      rintro _ _ _ ⟨⟩ ⟨⟩
      exact hX.whole c
  | @op t c o k a m ht hexec =>
    cases hphase with
    | op hph hpre _ hpost =>
      refine h.put ?_
      rintro _ _ _ ⟨⟩ ⟨⟩
      exact (hX.rest c _ _ (h t c _ _ ht hph)).2 a _ hpost
  | @jump t c σ β body x k ht =>
    cases hphase with
    | @jump _ c' l hph =>
      obtain ⟨l', hl', -⟩ := hcov.busy ht
      rw [← Function.update_eq_self t ph]
      refine h.put ?_
      rintro _ _ l ⟨⟩ hl
      exact hX.rest c _ _ (h t c _ l ht hl)
  | @ret t c r m ht hret =>
    cases hphase with
    | ret hph _ _ =>
      refine h.put ?_
      rintro _ _ _ ⟨⟩
  | @client t m ht hclient =>
    cases hphase with
    | client hph _ =>
      rw [← Function.update_eq_self t ph]
      refine h.put ?_
      rintro _ _ _ ⟨⟩

/-- **In every reachable state**, what is left of every call is in `X`. -/
theorem Outline.Tracks.reach (hX : O.Tracks X) {m : W.Mem} {s : Pool W} (h : Reach prog ok m s)
    (hinit : O.inv m fun _ => none) : ∃ ph, O.Covers s ph ∧ Outline.Tracked X s ph := by
  obtain ⟨tr, hrun, hok⟩ := h
  refine Run.keeps (I := fun s => ∃ ph, O.Covers s ph ∧ Outline.Tracked X s ph) ?_ hrun hok
    ⟨fun _ => none, ⟨hinit, fun _ => .idle⟩, ?_⟩
  · rintro s e s' ⟨ph, hcov, htracked⟩ hstep hok'
    exact hX.step hcov htracked hstep hok'
  · rintro t c p l ⟨⟩

/-! ## Whatever the others do -/

/-- A step on protocol states moves its own thread only. -/
theorem Outline.PhaseStep.phase_of_ne {m m' : W.Mem} {ph ph' : Tid → Option (Call × L)}
    {e : Event S Tid Call Res} {t : Tid} (h : O.PhaseStep m ph e m' ph') (he : e.tid ≠ t) :
    ph' t = ph t := by
  cases h with
  | call _ _ | op _ _ _ _ | ret _ _ _ => exact Function.update_of_ne (Ne.symm he) ..
  | jump _ | client _ _ => rfl

/-- As long as thread `t` does not return from its call, it has taken at most `n` steps of its own,
    and it can take another, however the others have interleaved theirs. -/
def WaitFree (prog : Call → Prog S Res) (ok : W.Mem → Prop) (n : Nat) (t : Tid) (s : Pool W) :
    Prop :=
  ∀ tr s', Run prog s tr s' → (∀ x ∈ tr, ok x.dst.mem) → (∀ x ∈ tr, ∀ c r, x.ev ≠ .ret t c r) →
    tr.countP (fun x => x.ev.tid = t) ≤ n ∧ ∃ e s'', Pool.Step prog s' e s'' ∧ e.tid = t

/-- **One step** of a pool, for a thread inside a call whose every answered path has at most `n`
    steps: the call returns, or it goes on, with one step less if the step was its own. -/
theorem Outline.Covers.within_step {s s' : Pool W} {e : Event S Tid Call Res}
    {ph : Tid → Option (Call × L)} {guard : S.Op → Prop} {Q : Res → L → Prop} {n : Nat} {t : Tid}
    {c : Call} {p : Prog S Res} {l : L} (hcov : O.Covers s ph) (ht : s.thread t = some (c, p))
    (hph : ph t = some (c, l))
    (h : Within (fun o a l l' => guard o ∧ (O.proto c).post l o a l') Q n p l)
    (hstep : Pool.Step prog s e s') (hok : ok s'.mem) :
    (∃ r, e = .ret t c r) ∨ ∃ ph' p' l' n', O.Covers s' ph' ∧ s'.thread t = some (c, p') ∧
      ph' t = some (c, l') ∧
      Within (fun o a l l' => guard o ∧ (O.proto c).post l o a l') Q n' p' l' ∧
      n = if e.tid = t then n' + 1 else n' := by
  by_cases he : e.tid = t
  · -- the thread's own step is the one its program prescribes
    simp only [he, if_true]
    have hown := hstep.own he ht
    cases p with
    | ret r => exact Or.inl ⟨r, hown.1⟩
    | op o k =>
      obtain ⟨a, rfl, hexec, ht'⟩ := hown
      obtain ⟨ph', hphase, hcov'⟩ := Outline.step hcov hstep hok
      have hnext : ∃ l', (O.proto c).post l o a l' ∧ ph' t = some (c, l') := by
        generalize s'.mem = m' at hphase
        cases hphase with
        | @op _ _ l₀ l' _ _ _ hph' hpre _ hpost =>
          rw [hph] at hph'
          cases hph'
          exact ⟨l', hpost, Function.update_self ..⟩
      obtain ⟨l', hpost, hph'⟩ := hnext
      cases n with
      | zero => exact h.elim
      | succ n =>
        obtain ⟨⟨-, -, hguard, -⟩, hall⟩ := h
        exact Or.inr ⟨ph', _, l', n, hcov', ht', hph', hall a l' ⟨hguard, hpost⟩, rfl⟩
    | loop body x k =>
      obtain ⟨rfl, hmem, ht'⟩ := hown
      obtain ⟨ph', hphase, hcov'⟩ := Outline.step hcov hstep hok
      have hph' : ph' t = some (c, l) := by
        generalize s'.mem = m' at hphase
        cases hphase with
        | jump _ => exact hph
      cases n with
      | zero => exact h.elim
      | succ n => exact Or.inr ⟨ph', _, l, n, hcov', ht', hph', h, rfl⟩
  · obtain ⟨ph', hphase, hcov'⟩ := Outline.step hcov hstep hok
    have ht' : s'.thread t = some (c, p) := (hstep.thread_of_ne he).trans ht
    have hph' : ph' t = some (c, l) := (hphase.phase_of_ne he).trans hph
    exact Or.inr ⟨ph', p, l, n, hcov', ht', hph', h, (if_neg he).symm⟩

/-- A call whose every answered path has at most `n` steps is wait-free, if the memory answers. -/
theorem Outline.Covers.waitFree {s : Pool W} {ph : Tid → Option (Call × L)}
    {guard : S.Op → Prop} {Q : Res → L → Prop} {n : Nat} {t : Tid} {c : Call} {p : Prog S Res}
    {l : L} (hcov : O.Covers s ph)
    (hanswer : ∀ {l o} (a : S.Ans o) (m : W.Mem), (O.proto c).pre l o →
      ∃ a m', W.exec t c o a m m') (hret : ∀ r m, ∃ m', W.ret t c r m m')
    (ht : s.thread t = some (c, p)) (hph : ph t = some (c, l))
    (h : Within (fun o a l l' => guard o ∧ (O.proto c).post l o a l') Q n p l) :
    WaitFree prog ok n t s := by
  intro tr s' hrun
  induction hrun generalizing n p l ph with
  | nil s =>
    intro _ _
    refine ⟨Nat.zero_le n, ?_⟩
    cases p with
    | ret r =>
      obtain ⟨m', hm'⟩ := hret r s.mem
      exact ⟨_, _, .ret ht hm', rfl⟩
    | op o k =>
      obtain ⟨l', hl', hspec⟩ := hcov.busy ht
      obtain ⟨a, hans⟩ : ∃ a : S.Ans o, True := by
        cases n with
        | zero => exact h.elim
        | succ n => exact ⟨h.1.choose, trivial⟩
      obtain ⟨b, m', hexec⟩ := hanswer a s.mem hspec.out.1
      exact ⟨_, _, .op ht hexec, rfl⟩
    | loop body x k => exact ⟨_, _, .jump ht, rfl⟩
  | @cons s s₁ s' e tr hstep hrun ih =>
    intro hok hin
    have hok₁ : ok s₁.mem := hok _ List.mem_cons_self
    have hok' : ∀ x ∈ tr, ok x.dst.mem := fun x hx => hok x (List.mem_cons_of_mem _ hx)
    have hin' : ∀ x ∈ tr, ∀ c r, x.ev ≠ .ret t c r := fun x hx => hin x (List.mem_cons_of_mem _ hx)
    rcases hcov.within_step ht hph h hstep hok₁ with
      ⟨r, he⟩ | ⟨ph', p', l', n', hcov', ht', hph', h', hn⟩
    · exact absurd he (hin _ List.mem_cons_self c r)
    · obtain ⟨hcount, hmore⟩ := ih hcov' ht' hph' h' hok' hin'
      refine ⟨?_, hmore⟩
      by_cases he : e.tid = t
      · rw [if_pos he] at hn
        rw [List.countP_cons_of_pos (by simpa using he), hn]
        exact Nat.succ_le_succ hcount
      · rw [if_neg he] at hn
        rw [List.countP_cons_of_neg (by simpa using he), hn]
        exact hcount

end

end Conc
