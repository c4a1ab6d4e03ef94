/-
  PROTOCOLS: partial correctness of a program whose answers come from somebody else.

  A protocol `P : Proto S L` describes one party of a shared memory from the inside.  The party
  is in a local state `l : L`; `P.pre l o` says which operations it may perform there, and
  `P.post l o a l'` which answers it may be given, with the local state it is in afterwards.
  What the other parties do is folded into `post`: a load is answered by whatever the protocol
  says the word can be at that moment.

  `Spec P p l Q` — the program `p`, started in local state `l`, keeps the protocol for ever
  (every operation it reaches is allowed, under all answers the protocol admits), and where it
  returns `a` in local state `l'`, `Q a l'` holds.  A program that never returns is fine, so this
  is a greatest fixed point: `Spec` is the union of all relations closed under `head`, one layer
  of the program.  The rules are the usual ones — `Spec.ret`, `Spec.op`, `Spec.bind`,
  `Spec.mono`, and the invariant rule `Spec.iter` for loops — and `Spec.embed` moves a proof made
  under one protocol into another that offers at least as much.

  `P.Admits l tr l'` — the protocol admits the answers of the list `tr`, one after the other, from
  `l` to `l'`.  Along a trace that is admitted, a `Spec` holds of what is left (`Spec.along`).
-/
import WfeMutex.Conc.Prog

namespace Conc

variable {S : Sig} {L L' α β σ : Type}

/-- One party's view of a shared memory: what it may do, and how it may be answered. -/
structure Proto (S : Sig) (L : Type) where
  /-- The operations allowed in a local state. -/
  pre : L → S.Op → Prop
  /-- The answers admitted to an operation, with the local state that follows. -/
  post : L → (o : S.Op) → S.Ans o → L → Prop

/-- One layer of `Spec`: the head of the program respects the protocol, the rest is in `X`. -/
def head (P : Proto S L) (Q : α → L → Prop) (X : Prog S α → L → Prop) :
    Prog S α → L → Prop
  | .ret a, l => Q a l
  | .op o k, l => P.pre l o ∧ ∀ a l', P.post l o a l' → X (k a) l'
  | .loop body s k, l => X (Prog.unroll body s k) l

theorem head_mono {P : Proto S L} {Q Q' : α → L → Prop} {X X' : Prog S α → L → Prop}
    (hQ : ∀ a l, Q a l → Q' a l) (hX : ∀ p l, X p l → X' p l) {p : Prog S α} {l : L}
    (h : head P Q X p l) : head P Q' X' p l := by
  cases p with
  | ret a => exact hQ a l h
  | op o k => exact ⟨h.1, fun a l' ha => hX _ _ (h.2 a l' ha)⟩
  | loop body s k => exact hX _ _ h

/-- The program keeps the protocol from `l` on, and returns only with `Q`. -/
def Spec (P : Proto S L) (p : Prog S α) (l : L) (Q : α → L → Prop) : Prop :=
  ∃ X : Prog S α → L → Prop, (∀ p l, X p l → head P Q X p l) ∧ X p l

namespace Spec

variable {P : Proto S L} {p : Prog S α} {l : L} {Q Q' : α → L → Prop}

/-! ## Opening and closing one layer -/

theorem out (h : Spec P p l Q) : head P Q (fun p l => Spec P p l Q) p l := by
  obtain ⟨X, hX, hp⟩ := h
  exact head_mono (fun _ _ hQ => hQ) (fun p l hp => ⟨X, hX, hp⟩) (hX p l hp)

theorem into (h : head P Q (fun p l => Spec P p l Q) p l) : Spec P p l Q := by
  refine ⟨fun p l => head P Q (fun p l => Spec P p l Q) p l, fun p l hp => ?_, h⟩
  exact head_mono (fun _ _ hQ => hQ) (fun p l hp => hp.out) hp

theorem ret {a : α} (h : Q a l) : Spec P (.ret a) l Q := into h

theorem op {o : S.Op} {k : S.Ans o → Prog S α} (hpre : P.pre l o)
    (h : ∀ a l', P.post l o a l' → Spec P (k a) l' Q) : Spec P (.op o k) l Q :=
  into ⟨hpre, h⟩

/-! ## Structural rules -/

theorem mono (h : Spec P p l Q) (hQ : ∀ a l, Q a l → Q' a l) : Spec P p l Q' := by
  obtain ⟨X, hX, hp⟩ := h
  exact ⟨X, fun p l hp => head_mono hQ (fun _ _ hp => hp) (hX p l hp), hp⟩

theorem bind {R : β → L → Prop} {f : α → Prog S β} (h : Spec P p l Q)
    (hf : ∀ a l, Q a l → Spec P (f a) l R) : Spec P (p.bind f) l R := by
  refine ⟨fun q l => Spec P q l R ∨ ∃ p : Prog S α, q = p.bind f ∧ Spec P p l Q,
    fun q l hq => ?_, Or.inr ⟨p, rfl, h⟩⟩
  rcases hq with hq | ⟨p, rfl, hp⟩
  · exact head_mono (fun _ _ hR => hR) (fun _ _ hq => Or.inl hq) hq.out
  · cases p with
    | ret a =>
      exact head_mono (fun _ _ hR => hR) (fun _ _ hq => Or.inl hq) (hf a l hp.out).out
    | op o k =>
      have hop := hp.out
      exact ⟨hop.1, fun a l' ha => Or.inr ⟨k a, rfl, hop.2 a l' ha⟩⟩
    | loop body s k =>
      exact Or.inr ⟨Prog.unroll body s k, (Prog.unroll_bind body s k f).symm, hp.out⟩

/-- What is proved separately holds together. -/
theorem both (h : Spec P p l Q) (h' : Spec P p l Q') : Spec P p l fun a l => Q a l ∧ Q' a l := by
  refine ⟨fun p l => Spec P p l Q ∧ Spec P p l Q', ?_, h, h'⟩
  rintro p l ⟨hp, hp'⟩
  cases p with
  | ret a => exact ⟨hp.out, hp'.out⟩
  | op o k => exact ⟨hp.out.1, fun a m ha => ⟨hp.out.2 a m ha, hp'.out.2 a m ha⟩⟩
  | loop body s k => exact ⟨hp.out, hp'.out⟩

/-- `Spec.bind` for `do` blocks. -/
theorem seq {R : β → L → Prop} {f : α → Prog S β} (h : Spec P p l Q)
    (hf : ∀ a l, Q a l → Spec P (f a) l R) : Spec P (p >>= f) l R :=
  bind h hf

/-- `Spec.ret` for `do` blocks. -/
theorem pure {a : α} (h : Q a l) : Spec P (Pure.pure a) l Q := ret h

/-- One operation on its own. -/
theorem perform {o : S.Op} {Q : S.Ans o → L → Prop} (hpre : P.pre l o)
    (h : ∀ a l', P.post l o a l' → Q a l') : Spec P (Prog.perform o) l Q :=
  op hpre fun a l' ha => ret (h a l' ha)

/-- The postcondition of one round: the invariant again, or the loop's own postcondition. -/
def round (I : σ → L → Prop) (R : β → L → Prop) : Next σ β → L → Prop
  | .again s, l => I s l
  | .leave b, l => R b l

/-- **The loop rule**: an invariant that every round keeps. -/
theorem loop {I : σ → L → Prop} {R : β → L → Prop} {body : σ → Prog S (Next σ β)} {s : σ}
    {k : β → Prog S α} (hbody : ∀ s l, I s l → Spec P (body s) l (round I R))
    (hk : ∀ b l, R b l → Spec P (k b) l Q) (hI : I s l) : Spec P (.loop body s k) l Q := by
  -- a loop program is either at a round's start, or inside a round, or past the loop
  refine ⟨fun q l => Spec P q l Q ∨ (∃ s, q = .loop body s k ∧ I s l) ∨
      ∃ p, q = p.bind (Prog.after body k) ∧ Spec P p l (round I R),
    fun q l hq => ?_, Or.inr (Or.inl ⟨s, rfl, hI⟩)⟩
  rcases hq with hq | ⟨s, rfl, hs⟩ | ⟨p, rfl, hp⟩
  · exact head_mono (fun _ _ hR => hR) (fun _ _ hq => Or.inl hq) hq.out
  · exact Or.inr (Or.inr ⟨body s, rfl, hbody s l hs⟩)
  · cases p with
    | ret r =>
      cases r with
      | again s' => exact Or.inr (Or.inr ⟨body s', rfl, hbody s' l hp.out⟩)
      | leave b =>
        exact head_mono (fun _ _ hR => hR) (fun _ _ hq => Or.inl hq) (hk b l hp.out).out
    | op o k' =>
      have hop := hp.out
      exact ⟨hop.1, fun a l' ha => Or.inr (Or.inr ⟨k' a, rfl, hop.2 a l' ha⟩)⟩
    | loop body' s' k' =>
      exact Or.inr (Or.inr ⟨Prog.unroll body' s' k', (Prog.unroll_bind body' s' k' _).symm, hp.out⟩)

theorem iter {I : σ → L → Prop} {body : σ → Prog S (Next σ α)} {s : σ}
    (hbody : ∀ s l, I s l → Spec P (body s) l (round I Q)) (hI : I s l) :
    Spec P (Prog.iter body s) l Q :=
  loop hbody (fun _ _ hQ => ret hQ) hI

/-! ## Changing the protocol -/

/-- **Embedding.**  Where `R` relates the local states of two protocols so that the second allows
    what the first does and admits no answer the first would not, a proof under the first is a
    proof under the second. -/
theorem embed {P' : Proto S L'} {R : L → L' → Prop}
    (hpre : ∀ l l' o, R l l' → P.pre l o → P'.pre l' o)
    (hpost : ∀ l l' o a m', R l l' → P.pre l o → P'.post l' o a m' →
      ∃ m, P.post l o a m ∧ R m m')
    {l' : L'} (h : Spec P p l Q) (hR : R l l') :
    Spec P' p l' fun a m' => ∃ m, R m m' ∧ Q a m := by
  refine ⟨fun q m' => ∃ m, R m m' ∧ Spec P q m Q, fun q m' hq => ?_, ⟨l, hR, h⟩⟩
  obtain ⟨m, hm, hq⟩ := hq
  cases q with
  | ret a => exact ⟨m, hm, hq.out⟩
  | op o k =>
    have hop := hq.out
    refine ⟨hpre m m' o hm hop.1, fun a n' ha => ?_⟩
    obtain ⟨n, hn, hR'⟩ := hpost m m' o a n' hm hop.1 ha
    exact ⟨n, hR', hop.2 a n hn⟩
  | loop body s k => exact ⟨m, hm, hq.out⟩

end Spec

/-! ## Along a trace -/

/-- The answers of `tr` are admitted from `l` on, and lead to `l'`. -/
inductive Proto.Admits (P : Proto S L) : L → List (Act S) → L → Prop where
  | nil (l : L) : Admits P l [] l
  | cons {l l' l'' : L} {o : S.Op} {a : S.Ans o} {tr : List (Act S)} :
      P.post l o a l' → Admits P l' tr l'' → Admits P l (⟨o, a⟩ :: tr) l''

theorem Proto.Admits.append {P : Proto S L} {l l' l'' : L} {tr tr' : List (Act S)}
    (h : P.Admits l tr l') (h' : P.Admits l' tr' l'') : P.Admits l (tr ++ tr') l'' := by
  induction h with
  | nil l => exact h'
  | cons ha _ ih => exact .cons ha (ih h')

/-- Another protocol admits the list, if it admits every answer. -/
theorem Proto.Admits.map {P : Proto S L} {P' : Proto S L'} {l l' : L} {tr : List (Act S)}
    (h : P.Admits l tr l') (f : L → L')
    (hpost : ∀ l o a l', P.post l o a l' → P'.post (f l) o a (f l')) :
    P'.Admits (f l) tr (f l') := by
  induction h with
  | nil l => exact .nil _
  | cons ha _ ih => exact .cons (hpost _ _ _ _ ha) ih

theorem Spec.along {P : Proto S L} {p q : Prog S α} {l l' : L} {Q : α → L → Prop}
    {tr : List (Act S)} (h : Spec P p l Q) (htr : Prog.Trace p tr q) (hadm : P.Admits l tr l') :
    Spec P q l' Q := by
  induction htr generalizing l with
  | nil p =>
    cases hadm
    exact h
  | op _ ih =>
    cases hadm with
    | cons ha hadm => exact ih (h.out.2 _ _ ha) hadm
  | jump _ ih => exact ih h.out hadm

end Conc
