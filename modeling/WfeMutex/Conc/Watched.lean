/-
  A PROOF OUTLINE WITH A WATCH ON EVERY CALL.

  An outline (`Conc.Pool`) follows each call by the local state its protocol needs.  A claim about
  the calls often needs one more thing remembered: whether an attempt has failed, which value was
  looked at last.  A watch beside the protocol adds that memory without touching the outline: it
  runs from its own entry state, the invariant is the outline's, and what is known at a return is
  what the two say together.

  * `Spec.prod`         — two proofs about one program, under one protocol each, are one proof
    under the two protocols side by side;
  * `Outline.beside`    — the outline whose local states are pairs;
  * `Outline.watched`   — the same, where the watch allows the calls whatever the protocol says;
  * `Outline.along`     — an account kept along a run, by what each step is for the outline.
-/
import WfeMutex.Conc.Calls

set_option linter.unusedVariables false

namespace Conc

open Function (update)

section
variable {S : Sig} {L K α : Type}

/-! ## Two protocols side by side -/

/-- Both protocols at once, each with its own local state. -/
def Proto.prod (P : Proto S L) (P' : Proto S K) : Proto S (L × K) where
  pre l o := P.pre l.1 o ∧ P'.pre l.2 o
  post l o a l' := P.post l.1 o a l'.1 ∧ P'.post l.2 o a l'.2

/-- Two proofs side by side. -/
theorem Spec.prod {P : Proto S L} {P' : Proto S K} {p : Prog S α} {l : L} {k : K}
    {Q : α → L → Prop} {Q' : α → K → Prop} (h : Spec P p l Q) (h' : Spec P' p k Q') :
    Spec (P.prod P') p (l, k) fun a x => Q a x.1 ∧ Q' a x.2 := by
  refine ⟨fun p x => Spec P p x.1 Q ∧ Spec P' p x.2 Q', ?_, h, h'⟩
  rintro p x ⟨hp, hp'⟩
  cases p with
  | ret a => exact ⟨hp.out, hp'.out⟩
  | op o k =>
    refine ⟨⟨hp.out.1, hp'.out.1⟩, ?_⟩
    rintro a y ⟨ha, ha'⟩
    exact ⟨hp.out.2 a y.1 ha, hp'.out.2 a y.2 ha'⟩
  | loop body s k => exact ⟨hp.out, hp'.out⟩

/-- What is known of the returns under one of them. -/
theorem Spec.beside {P : Proto S L} {P' : Proto S K} {p : Prog S α} {l : L} {k : K}
    {Q : α → L → Prop} {R : α → L × K → Prop} (h : Spec P p l Q)
    (h' : Spec (P.prod P') p (l, k) R) :
    Spec (P.prod P') p (l, k) fun a x => Q a x.1 ∧ R a x := by
  refine ⟨fun p x => Spec P p x.1 Q ∧ Spec (P.prod P') p x R, ?_, h, h'⟩
  rintro p x ⟨hp, hp'⟩
  cases p with
  | ret a => exact ⟨hp.out, hp'.out⟩
  | op o k =>
    refine ⟨hp'.out.1, ?_⟩
    intro a y ha
    exact ⟨hp.out.2 a y.1 ha.1, hp'.out.2 a y ha⟩
  | loop body s k => exact ⟨hp.out, hp'.out⟩

/-- States of a watch that allow everything and are never left, whatever the program does. -/
theorem Watch.spec_of_closed {A : Watch S K} {I : K → Prop} (hallows : ∀ k o, I k → A.allows k o)
    (hnext : ∀ k o a, I k → I (A.next k o a)) (p : Prog S α) {k : K} (hk : I k) :
    Spec A.proto p k fun _ k' => I k' := by
  refine ⟨fun _ k => I k, ?_, hk⟩
  intro p k hk
  cases p with
  | ret a => exact hk
  | op o f =>
    refine ⟨hallows k o hk, ?_⟩
    rintro a _ rfl
    exact hnext k o a hk
  | loop body s f => exact hk

end

/-! ## The watched outline -/

section
variable {S : Sig} {Tid Call Res L K : Type}

/-- The outline's own part of the local states. -/
def unwatched (ph : Tid → Option (Call × (L × K))) : Tid → Option (Call × L) :=
  Option.map (fun x => (x.1, x.2.1)) ∘ ph

theorem unwatched_of_none {ph : Tid → Option (Call × (L × K))} {t : Tid} (h : ph t = none) :
    unwatched ph t = none := by
  show (ph t).map _ = none
  rw [h]
  rfl

theorem unwatched_of_some {ph : Tid → Option (Call × (L × K))} {t : Tid} {c : Call} {l : L} {k : K}
    (h : ph t = some (c, (l, k))) : unwatched ph t = some (c, l) := by
  show (ph t).map _ = some (c, l)
  rw [h]
  rfl

variable [DecidableEq Tid]

theorem unwatched_update (ph : Tid → Option (Call × (L × K))) (t : Tid)
    (y : Option (Call × (L × K))) :
    unwatched (update ph t y) = update (unwatched ph) t (y.map fun x => (x.1, x.2.1)) :=
  Function.comp_update ..

variable {W : World S Tid Call Res} {prog : Call → Prog S Res} {ok : W.Mem → Prop}

/-- The outline `O` with a watch on every call, from `start`; what the watch knows at a return is
    `Q`. -/
def Outline.beside (O : Outline W prog ok L) (A : Call → Watch S K) (start : Call → K)
    (Q : Call → Res → K → Prop)
    (h : ∀ c, Spec ((O.proto c).prod (A c).proto) (prog c) (O.entry c, start c)
      fun r x => O.post c r x.1 ∧ Q c r x.2) :
    Outline W prog ok (L × K) where
  proto c := (O.proto c).prod (A c).proto
  entry c := (O.entry c, start c)
  post c r x := O.post c r x.1 ∧ Q c r x.2
  inv m ph := O.inv m (unwatched ph)
  spec := h
  call := by
    intro m m' ph t c hinv ht hcall hok
    rw [unwatched_update]
    exact O.call hinv (unwatched_of_none ht) hcall hok
  op := by
    intro m m' ph t c x o a hinv ht hpre hexec hok
    obtain ⟨l', hpost, hinv'⟩ := O.op hinv (unwatched_of_some ht) hpre.1 hexec hok
    refine ⟨(l', (A c).next x.2 o a), ⟨hpost, rfl⟩, ?_⟩
    rw [unwatched_update]
    exact hinv'
  ret := by
    intro m m' ph t c x r hinv ht hpost hret hok
    rw [unwatched_update]
    exact O.ret hinv (unwatched_of_some ht) hpost.1 hret hok
  client := by
    intro m m' ph t hinv ht hclient hok
    exact O.client hinv (unwatched_of_none ht) hclient hok

/-- A watch that the calls satisfy on their own. -/
def Outline.watched (O : Outline W prog ok L) (A : Watch S K) (start : Call → K)
    (Q : Call → Res → K → Prop) (h : ∀ c, Spec A.proto (prog c) (start c) (Q c)) :
    Outline W prog ok (L × K) :=
  O.beside (fun _ => A) start Q fun c => (O.spec c).prod (h c)

/-- **The account rule**: `J` speaks of the run so far, the memory and the local states; what every
    step keeps, as the outline sees it, every run keeps. -/
theorem Outline.along {O : Outline W prog ok L}
    {J : List (Trans W) → W.Mem → (Tid → Option (Call × L)) → Prop}
    (hstep : ∀ tr s e s' ph ph', O.inv s.mem ph → O.PhaseStep s.mem ph e s'.mem ph' → ok s'.mem →
      J tr s.mem ph → J (tr ++ [⟨s, e, s'⟩]) s'.mem ph')
    {s s' : Pool W} {ph : Tid → Option (Call × L)} (tr₀ : List (Trans W)) {tr : List (Trans W)}
    (hrun : Run prog s tr s') (hok : ∀ x ∈ tr, ok x.dst.mem) (hcov : O.Covers s ph)
    (hJ : J tr₀ s.mem ph) : ∃ ph', O.Covers s' ph' ∧ J (tr₀ ++ tr) s'.mem ph' := by
  induction hrun generalizing tr₀ ph with
  | nil s => exact ⟨ph, hcov, by simpa using hJ⟩
  | @cons s s₁ s' e tr hst _ ih =>
    have hok₁ : ok s₁.mem := hok _ List.mem_cons_self
    obtain ⟨ph₁, hphase, hcov₁⟩ := Outline.step hcov hst hok₁
    have hJ₁ := hstep tr₀ s e s₁ ph ph₁ hcov.inv hphase hok₁ hJ
    obtain ⟨ph', hcov', hJ'⟩ := ih _ (fun x hx => hok x (List.mem_cons_of_mem _ hx)) hcov₁ hJ₁
    exact ⟨ph', hcov', by simpa using hJ'⟩

end

end Conc
