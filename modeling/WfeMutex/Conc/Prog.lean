/-
  PROGRAMS AS TREES OF ATOMIC OPERATIONS.

  A program that shares memory with other threads is fixed by two things: which indivisible
  operation it performs next, and how it goes on after each possible answer.  `Prog S α` records
  exactly that, over a signature `S` of operations and their answer types, with one extra node
  for loops (`loop`), so that a program which may run for ever is still a finite piece of data:

  * `ret a`           — the program has returned `a`;
  * `op o k`          — perform `o`, go on with `k` at its answer;
  * `loop body s k`   — run `body s`; on `again s'` run `body s'`, on `leave b` go on with `k b`.

  `Prog S` is a monad (`bind` grafts a continuation onto every return), so a function of the
  verified program is transcribed in `do` notation, early returns included.  Nothing here says
  what an operation means: the meaning is given later, by the memory that answers (`Conc.Pool`),
  or by the property being proved (`Conc.Spec`).

  `Trace p tr q` — the program `p`, answered as the list `tr` says, has `q` left to do.
-/

namespace Conc

/-- A signature: the indivisible operations and the type each of them is answered in. -/
structure Sig where
  Op : Type
  Ans : Op → Type

/-- How one round of a loop ends: another round from `s`, or the loop's result `b`. -/
inductive Next (σ β : Type) where
  | again (s : σ)
  | leave (b : β)

/-- Programs over the operations of `S` returning an `α`. -/
inductive Prog (S : Sig) : Type → Type 1 where
  | ret {α : Type} (a : α) : Prog S α
  | op {α : Type} (o : S.Op) (k : S.Ans o → Prog S α) : Prog S α
  | loop {α σ β : Type} (body : σ → Prog S (Next σ β)) (s : σ) (k : β → Prog S α) : Prog S α

/-- An operation together with the answer it received. -/
abbrev Act (S : Sig) : Type := (o : S.Op) × S.Ans o

namespace Prog

variable {S : Sig} {α β γ σ : Type}

/-! ## The monad -/

/-- Run the program, then `f` at its result. -/
def bind : Prog S α → (α → Prog S β) → Prog S β
  | .ret a, f => f a
  | .op o k, f => .op o fun x => (k x).bind f
  | .loop body s k, f => .loop body s fun b => (k b).bind f

instance : Monad (Prog S) where
  pure := .ret
  bind := .bind

/-- The program that performs one operation and returns its answer. -/
def perform (o : S.Op) : Prog S (S.Ans o) := .op o .ret

/-- A loop whose result is the program's result. -/
def iter (body : σ → Prog S (Next σ β)) (s : σ) : Prog S β := .loop body s .ret

/-- A `do` block that starts with a value. -/
theorem pure_bind (a : α) (f : α → Prog S β) : (Pure.pure a >>= f) = f a := rfl

theorem bind_assoc (p : Prog S α) (f : α → Prog S β) (g : β → Prog S γ) :
    (p.bind f).bind g = p.bind fun a => (f a).bind g := by
  induction p with
  | ret a => rfl
  | op o k ih =>
    simp only [bind]
    congr
    funext x
    exact ih x _
  | loop body s k _ ih =>
    simp only [bind]
    congr
    funext b
    exact ih b _

/-! ## Unrolling a loop -/

/-- What is left to do after a round of the loop has ended with `r`. -/
def after (body : σ → Prog S (Next σ β)) (k : β → Prog S α) : Next σ β → Prog S α
  | .again s => .loop body s k
  | .leave b => k b

/-- The loop with its first round opened up. -/
def unroll (body : σ → Prog S (Next σ β)) (s : σ) (k : β → Prog S α) : Prog S α :=
  (body s).bind (after body k)

/-- Opening a round and continuing afterwards commute. -/
theorem unroll_bind (body : σ → Prog S (Next σ β)) (s : σ) (k : β → Prog S α)
    (f : α → Prog S γ) :
    (unroll body s k).bind f = unroll body s fun b => (k b).bind f := by
  unfold unroll
  rw [bind_assoc]
  congr
  funext r
  cases r with
  | again s' => rfl
  | leave b => rfl

/-! ## Traces: the program answered operation by operation -/

/-- `Trace p tr q`: answering the operations of `p` by `tr`, in order, leaves `q` to do. -/
inductive Trace : Prog S α → List (Act S) → Prog S α → Prop where
  | nil (p : Prog S α) : Trace p [] p
  | op {o : S.Op} {k : S.Ans o → Prog S α} {a : S.Ans o} {tr : List (Act S)} {q : Prog S α} :
      Trace (k a) tr q → Trace (.op o k) (⟨o, a⟩ :: tr) q
  | jump {σ β : Type} {body : σ → Prog S (Next σ β)} {s : σ} {k : β → Prog S α}
      {tr : List (Act S)} {q : Prog S α} :
      Trace (unroll body s k) tr q → Trace (.loop body s k) tr q

theorem Trace.append {p q r : Prog S α} {tr tr' : List (Act S)} (h : Trace p tr q)
    (h' : Trace q tr' r) : Trace p (tr ++ tr') r := by
  induction h with
  | nil p => exact h'
  | op _ ih => exact .op (ih h')
  | jump _ ih => exact .jump (ih h')

/-- A program is answered in the same way whatever comes after it. -/
theorem Trace.bind {p q : Prog S α} {tr : List (Act S)} (h : Trace p tr q) (f : α → Prog S β) :
    Trace (p.bind f) tr (q.bind f) := by
  induction h with
  | nil p => exact .nil _
  | op _ ih => exact .op ih
  | jump _ ih =>
    refine .jump ?_
    rw [← unroll_bind]
    exact ih

/-- Where the whole program has returned, its first part has returned before. -/
theorem Trace.of_bind {p : Prog S α} {f : α → Prog S β} {b : β} {tr : List (Act S)}
    (h : Trace (p.bind f) tr (.ret b)) :
    ∃ tr₁ tr₂ a, tr = tr₁ ++ tr₂ ∧ Trace p tr₁ (.ret a) ∧ Trace (f a) tr₂ (.ret b) := by
  -- induction on the trace; `p` is what is left of the first part
  generalize hq : p.bind f = q at h
  generalize hr : Prog.ret b = r at h
  induction h generalizing p with
  | nil q =>
    subst hr
    cases p with
    | ret a => exact ⟨[], [], a, rfl, .nil _, hq ▸ .nil _⟩
    | op o k => cases hq
    | loop body s k => cases hq
  | @op o k a tr q htr ih =>
    cases p with
    | ret a' => exact ⟨[], _, a', rfl, .nil _, (show f a' = _ from hq) ▸ .op htr⟩
    | op o' k' =>
      cases hq
      obtain ⟨tr₁, tr₂, a', rfl, hfirst, hrest⟩ := ih rfl hr
      exact ⟨_ :: tr₁, tr₂, a', rfl, .op hfirst, hrest⟩
    | loop body s k' => cases hq
  | @jump σ γ body s k tr q htr ih =>
    cases p with
    | ret a' => exact ⟨[], _, a', rfl, .nil _, (show f a' = _ from hq) ▸ .jump htr⟩
    | op o' k' => cases hq
    | loop body' s' k' =>
      cases hq
      obtain ⟨tr₁, tr₂, a', rfl, hfirst, hrest⟩ := ih (unroll_bind body s k' f) hr
      exact ⟨tr₁, tr₂, a', rfl, .jump hfirst, hrest⟩

end Prog

end Conc
