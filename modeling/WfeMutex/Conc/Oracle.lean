/-
  A PROGRAM ALONE WITH A DETERMINISTIC MACHINE.

  `answer o m` is what the machine in the state `m` answers to the operation `o`, together with the
  state it is in afterwards; `none` means that the program does not go on.

  * `Steps answer p m q m'` — started as `p` on `m`, the program has at some moment `q` left to do
    and the machine is in the state `m'`;
  * `Returns answer p m`    — the program returns.

  There is only one run, so two moments of it are always in order (`Steps.linear`).  A program is
  shown not to return, or not to pass some point, by giving a moment that comes too late
  (`Steps.linear`) or from which nothing follows (`Steps.stuck`).

  `machine answer pre` is the machine as a protocol, so what `Conc.Spec` proves of a program holds
  along its run (`Spec.steps`).

  `Ends answer p m Q` is total correctness: the program returns, and where it does, `Q` holds.  Its
  rules are those of `Spec`, with a decreasing number for a loop (`Ends.iter`).

  `Concludes answer live p m Q` is for loops that may run for ever: wherever the program returns,
  `Q` holds, and if `live` does, it returns.  One walk through a round serves for both
  (`Concludes.iter`).
-/
import WfeMutex.Conc.Spec

set_option linter.unusedVariables false

namespace Conc

variable {S : Sig} {M α β : Type}

/-- The moments of the run of a program. -/
inductive Steps (answer : (o : S.Op) → M → Option (S.Ans o × M)) :
    Prog S α → M → Prog S α → M → Prop where
  | refl (p : Prog S α) (m : M) : Steps answer p m p m
  | op {o : S.Op} {k : S.Ans o → Prog S α} {q : Prog S α} {a : S.Ans o} {m m₁ m₂ : M} :
      answer o m = some (a, m₁) → Steps answer (k a) m₁ q m₂ → Steps answer (.op o k) m q m₂
  | jump {σ β : Type} {body : σ → Prog S (Next σ β)} {s : σ} {k : β → Prog S α}
      {q : Prog S α} {m m' : M} :
      Steps answer (Prog.unroll body s k) m q m' → Steps answer (.loop body s k) m q m'

/-- The program returns. -/
def Returns (answer : (o : S.Op) → M → Option (S.Ans o × M)) (p : Prog S α) (m : M) : Prop :=
  ∃ a m', Steps answer p m (.ret a) m'

namespace Steps

variable {answer : (o : S.Op) → M → Option (S.Ans o × M)} {p q r : Prog S α} {m m₁ m₂ : M}

theorem append (h : Steps answer p m q m₁) (h' : Steps answer q m₁ r m₂) :
    Steps answer p m r m₂ := by
  induction h with
  | refl p m => exact h'
  | op ha _ ih => exact .op ha (ih h')
  | jump _ ih => exact .jump (ih h')

/-- What the machine keeps at every answer it keeps throughout. -/
theorem keeps {I : M → Prop} (h : Steps answer p m q m₁)
    (hI : ∀ o m a m', answer o m = some (a, m') → I m → I m') (hm : I m) : I m₁ := by
  induction h with
  | refl p m => exact hm
  | op ha _ ih => exact ih (hI _ _ _ _ ha hm)
  | jump _ ih => exact ih hm

/-! ### One run -/

/-- Before an operation: nothing has happened yet, or the operation has been answered. -/
theorem of_op {o : S.Op} {k : S.Ans o → Prog S α} (h : Steps answer (.op o k) m q m₁) :
    (q = .op o k ∧ m₁ = m) ∨
      ∃ a m', answer o m = some (a, m') ∧ Steps answer (k a) m' q m₁ := by
  cases h with
  | refl => exact Or.inl ⟨rfl, rfl⟩
  | op ha h => exact Or.inr ⟨_, _, ha, h⟩

theorem of_loop {σ : Type} {body : σ → Prog S (Next σ β)} {s : σ} {k : β → Prog S α}
    (h : Steps answer (.loop body s k) m q m₁) :
    (q = .loop body s k ∧ m₁ = m) ∨ Steps answer (Prog.unroll body s k) m q m₁ := by
  cases h with
  | refl => exact Or.inl ⟨rfl, rfl⟩
  | jump h => exact Or.inr h

/-- Nothing follows a return. -/
theorem of_ret {a : α} (h : Steps answer (.ret a) m q m₁) : q = .ret a := by
  cases h with
  | refl => rfl

/-- Nothing follows an operation that the machine does not answer. -/
theorem stuck {o : S.Op} {k : S.Ans o → Prog S α} (h : Steps answer (.op o k) m q m₁)
    (hnone : answer o m = none) : q = .op o k := by
  rcases h.of_op with ⟨hq, _⟩ | ⟨a, m', ha, _⟩
  · exact hq
  · rw [hnone] at ha
    cases ha

/-- **Two moments of a run are in order**: one of them is reached from the other. -/
theorem linear (h : Steps answer p m q m₁) (h' : Steps answer p m r m₂) :
    Steps answer q m₁ r m₂ ∨ Steps answer r m₂ q m₁ := by
  induction h with
  | refl p m => exact Or.inl h'
  | op ha hk ih =>
    rcases h'.of_op with ⟨rfl, rfl⟩ | ⟨b, m', hb, h'⟩
    · exact Or.inr (.op ha hk)
    · rw [ha] at hb
      cases hb
      exact ih h'
  | jump hk ih =>
    rcases h'.of_loop with ⟨rfl, rfl⟩ | h'
    · exact Or.inr (.jump hk)
    · exact ih h'

/-- A run returns once. -/
theorem ret_unique {a b : α} (h : Steps answer p m (.ret a) m₁)
    (h' : Steps answer p m (.ret b) m₂) : a = b ∧ m₁ = m₂ := by
  rcases h.linear h' with h | h
  · cases h
    exact ⟨rfl, rfl⟩
  · cases h
    exact ⟨rfl, rfl⟩

/-- A run of a program is a run of whatever it is part of. -/
theorem bind (h : Steps answer p m q m₁) (f : α → Prog S β) :
    Steps answer (p.bind f) m (q.bind f) m₁ := by
  induction h with
  | refl p m => exact .refl _ _
  | op ha _ ih => exact .op ha ih
  | @jump σ γ body s k q m m' _ ih =>
    refine .jump ?_
    rw [← Prog.unroll_bind]
    exact ih

end Steps

/-! ## Total correctness -/

/-- The program returns, and `Q` holds where it does. -/
def Ends (answer : (o : S.Op) → M → Option (S.Ans o × M)) (p : Prog S α) (m : M)
    (Q : α → M → Prop) : Prop :=
  ∃ a m', Steps answer p m (.ret a) m' ∧ Q a m'

namespace Ends

variable {answer : (o : S.Op) → M → Option (S.Ans o × M)} {p : Prog S α} {m : M}
  {Q Q' : α → M → Prop} {σ : Type}

theorem ret {a : α} (h : Q a m) : Ends answer (.ret a) m Q := ⟨a, m, .refl _ _, h⟩

/-- `Ends.ret` for `do` blocks. -/
theorem pure {a : α} (h : Q a m) : Ends answer (Pure.pure a) m Q := ret h

theorem mono (h : Ends answer p m Q) (hQ : ∀ a m, Q a m → Q' a m) : Ends answer p m Q' := by
  obtain ⟨a, m', hsteps, ha⟩ := h
  exact ⟨a, m', hsteps, hQ a m' ha⟩

theorem perform {o : S.Op} {a : S.Ans o} {m' : M} {Q : S.Ans o → M → Prop}
    (hanswer : answer o m = some (a, m')) (h : Q a m') : Ends answer (Prog.perform o) m Q :=
  ⟨a, m', .op hanswer (.refl _ _), h⟩

theorem bind {R : β → M → Prop} {f : α → Prog S β} (h : Ends answer p m Q)
    (hf : ∀ a m', Q a m' → Ends answer (f a) m' R) : Ends answer (p.bind f) m R := by
  obtain ⟨a, m', hsteps, ha⟩ := h
  obtain ⟨b, m'', hsteps', hb⟩ := hf a m' ha
  exact ⟨b, m'', (hsteps.bind f).append hsteps', hb⟩

/-- `Ends.bind` for `do` blocks. -/
theorem seq {R : β → M → Prop} {f : α → Prog S β} (h : Ends answer p m Q)
    (hf : ∀ a m', Q a m' → Ends answer (f a) m' R) : Ends answer (p >>= f) m R :=
  bind h hf

/-- The run past a first part that ends in one way. -/
theorem reach {a : α} {m' : M} (h : Ends answer p m fun b m₁ => b = a ∧ m₁ = m')
    (f : α → Prog S β) : Steps answer (p >>= f) m (f a) m' := by
  obtain ⟨_, _, hsteps, rfl, rfl⟩ := h
  exact hsteps.bind f

/-- **The loop rule**: an invariant that every round keeps, and a number that every round but the
    last decreases. -/
theorem iter {I : σ → M → Prop} {N : σ → M → Nat} {body : σ → Prog S (Next σ α)} {s : σ}
    (hbody : ∀ s m, I s m → Ends answer (body s) m
      (Spec.round (fun s' m' => I s' m' ∧ N s' m' < N s m) Q)) (hI : I s m) :
    Ends answer (Prog.iter body s) m Q := by
  -- induction on the number of rounds left
  generalize hn : N s m = n
  induction n using Nat.strongRecOn generalizing s m with
  | ind n ih =>
    obtain ⟨r, m', hround, hr⟩ := hbody s m hI
    have hjump : Steps answer (Prog.iter body s) m ((Prog.ret r).bind (Prog.after body .ret)) m' :=
      .jump (hround.bind _)
    cases r with
    | again s' =>
      obtain ⟨hI', hlt⟩ := hr
      obtain ⟨a, m'', hrest, ha⟩ := ih (N s' m') (by omega) hI' rfl
      exact ⟨a, m'', hjump.append hrest, ha⟩
    | leave b => exact ⟨b, m', hjump, hr⟩

/-- Where the whole program returns, its first part has ended before. -/
theorem of_bind {f : α → Prog S β} {b : β} {m' : M} (h : Ends answer p m Q)
    (hsteps : Steps answer (p.bind f) m (.ret b) m') :
    ∃ a m₁, Q a m₁ ∧ Steps answer (f a) m₁ (.ret b) m' := by
  obtain ⟨a, m₁, hfirst, ha⟩ := h
  refine ⟨a, m₁, ha, ?_⟩
  have hreach : Steps answer (p.bind f) m (f a) m₁ := hfirst.bind f
  rcases hreach.linear hsteps with hafter | hback
  · exact hafter
  · generalize f a = q at hback
    cases hback
    exact .refl _ _

/-- A loop whose rounds end keeps its invariant up to its return. -/
theorem iter_ret {I : σ → M → Prop} {body : σ → Prog S (Next σ α)}
    (hbody : ∀ s m, I s m → Ends answer (body s) m (Spec.round I Q)) {q t : Prog S α} {m' : M}
    (hsteps : Steps answer q m t m') :
    ∀ (p : Prog S (Next σ α)) (a : α), q = p.bind (Prog.after body .ret) → t = .ret a →
      Ends answer p m (Spec.round I Q) → Q a m' := by
  -- what is left of the round is `p`, and the loop comes after it
  induction hsteps with
  | refl q m =>
    rintro p a rfl hret hends
    cases p with
    | ret r =>
      cases r with
      | again s => cases hret
      | leave b =>
        cases hret
        obtain ⟨r, m', hr, hQ⟩ := hends
        cases hr
        exact hQ
    | op o k => cases hret
    | loop body' s k => cases hret
  | @op o k q a m m₁ m₂ ha _ ih =>
    rintro p b hq hret hends
    cases p with
    | ret r => cases r <;> cases hq
    | op o' k' =>
      cases hq
      refine ih (k' a) b rfl hret ?_
      obtain ⟨r, m', hr, hQ⟩ := hends
      rcases hr.of_op with ⟨hr, _⟩ | ⟨a', m₁', ha', hr⟩
      · cases hr
      · rw [ha] at ha'
        cases ha'
        exact ⟨r, m', hr, hQ⟩
    | loop body' s k => cases hq
  | @jump σ' γ body' s k q m m' _ ih =>
    rintro p a hq hret hends
    cases p with
    | ret r =>
      cases r with
      | again s' =>
        cases hq
        obtain ⟨r, m', hr, hI⟩ := hends
        cases hr
        exact ih (body s') a rfl hret (hbody s' m hI)
      | leave b => cases hq
    | op o k' => cases hq
    | loop body'' s'' k'' =>
      cases hq
      refine ih (Prog.unroll body' s k'') a (Prog.unroll_bind _ _ _ _).symm hret ?_
      obtain ⟨r, m', hr, hQ⟩ := hends
      rcases hr.of_loop with ⟨hr, _⟩ | hr
      · cases hr
      · exact ⟨r, m', hr, hQ⟩

end Ends

/-! ## Loops that may run for ever -/

/-- Where the program returns, `Q` holds; and it returns if `live` does. -/
structure Concludes (answer : (o : S.Op) → M → Option (S.Ans o × M)) (live : Prop) (p : Prog S α)
    (m : M) (Q : α → M → Prop) : Prop where
  sound : ∀ a m', Steps answer p m (.ret a) m' → Q a m'
  returns : live → Returns answer p m

namespace Concludes

variable {answer : (o : S.Op) → M → Option (S.Ans o × M)} {live : Prop} {p : Prog S α} {m : M}
  {Q : α → M → Prop} {σ : Type}

theorem ret {a : α} (h : Q a m) : Concludes answer live (.ret a) m Q where
  sound b m' hsteps := by
    cases hsteps
    exact h
  returns _ := ⟨a, m, .refl _ _⟩

/-- `Concludes.ret` for `do` blocks. -/
theorem pure {a : α} (h : Q a m) : Concludes answer live (Pure.pure a) m Q := ret h

/-- What comes before ends. -/
theorem bind {R : β → M → Prop} {f : α → Prog S β} (h : Ends answer p m Q)
    (hf : ∀ a m', Q a m' → Concludes answer live (f a) m' R) :
    Concludes answer live (p.bind f) m R where
  sound b m' hsteps := by
    obtain ⟨a, m₁, ha, hsteps⟩ := h.of_bind hsteps
    exact (hf a m₁ ha).sound b m' hsteps
  returns hlive := by
    obtain ⟨a, m₁, hsteps, ha⟩ := h
    obtain ⟨b, m', hsteps'⟩ := (hf a m₁ ha).returns hlive
    exact ⟨b, m', (hsteps.bind f).append hsteps'⟩

/-- `Concludes.bind` for `do` blocks. -/
theorem seq {R : β → M → Prop} {f : α → Prog S β} (h : Ends answer p m Q)
    (hf : ∀ a m', Q a m' → Concludes answer live (f a) m' R) :
    Concludes answer live (p >>= f) m R :=
  bind h hf

/-- **The loop rule**: every round ends and keeps the invariant, and if `live` holds, it also
    decreases a number. -/
theorem iter {I : σ → M → Prop} {N : σ → M → Nat} {body : σ → Prog S (Next σ α)} {s : σ}
    (hbody : ∀ s m, I s m → Ends answer (body s) m
      (Spec.round (fun s' m' => I s' m' ∧ (live → N s' m' < N s m)) Q)) (hI : I s m) :
    Concludes answer live (Prog.iter body s) m Q where
  sound a m' hsteps := by
    have hround : ∀ s m, I s m → Ends answer (body s) m (Spec.round I Q) := by
      intro s m hI
      refine (hbody s m hI).mono ?_
      rintro (s' | b) m' hr
      · exact hr.1
      · exact hr
    have hstart : Ends answer (Prog.ret (Next.again s)) m (Spec.round I Q) := Ends.ret hI
    exact Ends.iter_ret hround hsteps _ a rfl rfl hstart
  returns hlive := by
    have hends : Ends answer (Prog.iter body s) m Q := by
      refine Ends.iter (I := I) (N := N) ?_ hI
      intro s m hI
      refine (hbody s m hI).mono ?_
      rintro (s' | b) m' hr
      · exact ⟨hr.1, hr.2 hlive⟩
      · exact hr
    obtain ⟨a, m', hsteps, _⟩ := hends
    exact ⟨a, m', hsteps⟩

end Concludes

/-! ## The machine as a protocol -/

/-- The machine's own states and answers; `pre` says what the program may do in a state. -/
def machine (answer : (o : S.Op) → M → Option (S.Ans o × M)) (pre : M → S.Op → Prop) :
    Proto S M where
  pre := pre
  post m o a m' := answer o m = some (a, m')

section
variable {answer : (o : S.Op) → M → Option (S.Ans o × M)} {p q : Prog S α} {m m' : M}

/-- A run is a trace of answers that the machine admits. -/
theorem Steps.trace (h : Steps answer p m q m') (pre : M → S.Op → Prop) :
    ∃ tr, Prog.Trace p tr q ∧ (machine answer pre).Admits m tr m' := by
  induction h with
  | refl p m => exact ⟨[], .nil p, .nil m⟩
  | op ha _ ih =>
    obtain ⟨tr, htr, hadm⟩ := ih
    exact ⟨_, .op htr, .cons ha hadm⟩
  | jump _ ih =>
    obtain ⟨tr, htr, hadm⟩ := ih
    exact ⟨tr, .jump htr, hadm⟩

theorem Spec.steps {pre : M → S.Op → Prop} {Q : α → M → Prop}
    (h : Spec (machine answer pre) p m Q) (hsteps : Steps answer p m q m') :
    Spec (machine answer pre) q m' Q := by
  obtain ⟨tr, htr, hadm⟩ := hsteps.trace pre
  exact h.along htr hadm

end

end Conc
