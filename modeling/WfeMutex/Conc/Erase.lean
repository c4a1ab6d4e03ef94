/-
  ERASURE: two programs that differ by operations nobody can notice.

  `Erase P drop p q l Q` — started in local state `l` of the protocol `P`, the program `p` does
  what `q` does, but for operations in `drop` that `p` performs in addition: they are paired
  operation by operation and round by round, and return the same results, with `Q`.  Only answers
  that `P` admits are considered, so a branch of `p` that the protocol rules out needs no partner.
  It is again a greatest fixed point with the rules of `Spec`, of which it is the binary version:
  `Erase.spec` reads off the left program's proof, `Erase.refl` pairs a program with itself.

  `Outline.erase` lifts this to thread pools.  Where every call of one library erases to the same
  call of another, and the dropped operations leave the memory alone, every run of the first is,
  without the dropped steps (`Thins`), a run of the second: same memories, same results.
-/
import WfeMutex.Conc.Pool

set_option linter.unusedVariables false

namespace Conc

section
variable {S : Sig} {L α β σ : Type}

/-- One layer of `Erase`. -/
inductive EraseHead (P : Proto S L) (drop : S.Op → Prop) (Q : α → L → Prop)
    (X : Prog S α → Prog S α → L → Prop) : Prog S α → Prog S α → L → Prop where
  | ret {a : α} {l : L} : Q a l → EraseHead P drop Q X (.ret a) (.ret a) l
  | op {o : S.Op} {k k' : S.Ans o → Prog S α} {l : L} : P.pre l o →
      (∀ a l', P.post l o a l' → X (k a) (k' a) l') →
      EraseHead P drop Q X (.op o k) (.op o k') l
  | drop {o : S.Op} {k : S.Ans o → Prog S α} {q : Prog S α} {l : L} : drop o → P.pre l o →
      (∀ a l', P.post l o a l' → X (k a) q l') → EraseHead P drop Q X (.op o k) q l
  | loop {σ β σ' β' : Type} {body : σ → Prog S (Next σ β)} {s : σ} {k : β → Prog S α}
      {body' : σ' → Prog S (Next σ' β')} {s' : σ'} {k' : β' → Prog S α} {l : L} :
      X (Prog.unroll body s k) (Prog.unroll body' s' k') l →
      EraseHead P drop Q X (.loop body s k) (.loop body' s' k') l

theorem EraseHead.mono {P : Proto S L} {drop : S.Op → Prop} {Q Q' : α → L → Prop}
    {X X' : Prog S α → Prog S α → L → Prop} (hQ : ∀ a l, Q a l → Q' a l)
    (hX : ∀ p q l, X p q l → X' p q l) {p q : Prog S α} {l : L}
    (h : EraseHead P drop Q X p q l) : EraseHead P drop Q' X' p q l := by
  cases h with
  | ret ha => exact .ret (hQ _ _ ha)
  | op hpre hk => exact .op hpre fun a l' ha => hX _ _ _ (hk a l' ha)
  | drop hdrop hpre hk => exact .drop hdrop hpre fun a l' ha => hX _ _ _ (hk a l' ha)
  | loop hround => exact .loop (hX _ _ _ hround)

/-- `p` is `q` with additional operations in `drop`. -/
def Erase (P : Proto S L) (drop : S.Op → Prop) (p q : Prog S α) (l : L) (Q : α → L → Prop) :
    Prop :=
  ∃ X : Prog S α → Prog S α → L → Prop, (∀ p q l, X p q l → EraseHead P drop Q X p q l) ∧ X p q l

namespace Erase

variable {P : Proto S L} {drop : S.Op → Prop} {p q : Prog S α} {l : L} {Q Q' : α → L → Prop}

/-! ## Opening and closing one layer -/

theorem out (h : Erase P drop p q l Q) :
    EraseHead P drop Q (fun p q l => Erase P drop p q l Q) p q l := by
  obtain ⟨X, hX, hpq⟩ := h
  exact (hX p q l hpq).mono (fun _ _ hQ => hQ) fun p q l hpq => ⟨X, hX, hpq⟩

theorem into (h : EraseHead P drop Q (fun p q l => Erase P drop p q l Q) p q l) :
    Erase P drop p q l Q := by
  refine ⟨fun p q l => EraseHead P drop Q (fun p q l => Erase P drop p q l Q) p q l,
    fun p q l hpq => ?_, h⟩
  exact hpq.mono (fun _ _ hQ => hQ) fun p q l hpq => hpq.out

theorem ret {a : α} (h : Q a l) : Erase P drop (.ret a) (.ret a) l Q := into (.ret h)

/-! ## Structural rules -/

theorem mono (h : Erase P drop p q l Q) (hQ : ∀ a l, Q a l → Q' a l) : Erase P drop p q l Q' := by
  obtain ⟨X, hX, hpq⟩ := h
  exact ⟨X, fun p q l hpq => (hX p q l hpq).mono hQ fun _ _ _ hpq => hpq, hpq⟩

/-- Sequences erase part by part. -/
theorem bind {R : β → L → Prop} {f g : α → Prog S β} (h : Erase P drop p q l Q)
    (hf : ∀ a l, Q a l → Erase P drop (f a) (g a) l R) :
    Erase P drop (p.bind f) (q.bind g) l R := by
  refine ⟨fun p' q' l => Erase P drop p' q' l R ∨
      ∃ p q : Prog S α, p' = p.bind f ∧ q' = q.bind g ∧ Erase P drop p q l Q,
    fun p' q' l hpq => ?_, Or.inr ⟨p, q, rfl, rfl, h⟩⟩
  rcases hpq with hpq | ⟨p, q, rfl, rfl, hpq⟩
  · exact hpq.out.mono (fun _ _ hR => hR) fun _ _ _ hpq => Or.inl hpq
  · cases hpq.out with
    | ret ha => exact (hf _ _ ha).out.mono (fun _ _ hR => hR) fun _ _ _ hpq => Or.inl hpq
    | op hpre hk => exact .op hpre fun a l' ha => Or.inr ⟨_, _, rfl, rfl, hk a l' ha⟩
    | drop hdrop hpre hk =>
      exact .drop hdrop hpre fun a l' ha => Or.inr ⟨_, _, rfl, rfl, hk a l' ha⟩
    | loop hround =>
      exact .loop (Or.inr ⟨_, _, (Prog.unroll_bind ..).symm, (Prog.unroll_bind ..).symm, hround⟩)

/-- `Erase.bind` for `do` blocks. -/
theorem seq {R : β → L → Prop} {f g : α → Prog S β} (h : Erase P drop p q l Q)
    (hf : ∀ a l, Q a l → Erase P drop (f a) (g a) l R) : Erase P drop (p >>= f) (q >>= g) l R :=
  bind h hf

/-- `Erase.ret` for `do` blocks. -/
theorem pure {a : α} (h : Q a l) : Erase P drop (Pure.pure a) (Pure.pure a) l Q := ret h

/-- **The loop rule**: an invariant that every pair of rounds keeps. -/
theorem loop {I : σ → L → Prop} {R : β → L → Prop} {body body' : σ → Prog S (Next σ β)} {s : σ}
    {k k' : β → Prog S α}
    (hbody : ∀ s l, I s l → Erase P drop (body s) (body' s) l (Spec.round I R))
    (hk : ∀ b l, R b l → Erase P drop (k b) (k' b) l Q) (hI : I s l) :
    Erase P drop (.loop body s k) (.loop body' s k') l Q := by
  refine ⟨fun p q l => Erase P drop p q l Q ∨
      (∃ s, p = .loop body s k ∧ q = .loop body' s k' ∧ I s l) ∨
      ∃ p' q', p = p'.bind (Prog.after body k) ∧ q = q'.bind (Prog.after body' k') ∧
        Erase P drop p' q' l (Spec.round I R),
    fun p q l hpq => ?_, Or.inr (Or.inl ⟨s, rfl, rfl, hI⟩)⟩
  rcases hpq with hpq | ⟨s, rfl, rfl, hs⟩ | ⟨p', q', rfl, rfl, hpq⟩
  · exact hpq.out.mono (fun _ _ hR => hR) fun _ _ _ hpq => Or.inl hpq
  · exact .loop (Or.inr (Or.inr ⟨body s, body' s, rfl, rfl, hbody s l hs⟩))
  · cases hpq.out with
    | @ret r l hr =>
      cases r with
      | again s' => exact .loop (Or.inr (Or.inr ⟨body s', body' s', rfl, rfl, hbody s' l hr⟩))
      | leave b =>
        exact (hk b l hr).out.mono (fun _ _ hR => hR) fun _ _ _ hpq => Or.inl hpq
    | op hpre hk => exact .op hpre fun a l' ha => Or.inr (Or.inr ⟨_, _, rfl, rfl, hk a l' ha⟩)
    | drop hdrop hpre hk =>
      exact .drop hdrop hpre fun a l' ha => Or.inr (Or.inr ⟨_, _, rfl, rfl, hk a l' ha⟩)
    | loop hround =>
      exact .loop (Or.inr (Or.inr
        ⟨_, _, (Prog.unroll_bind ..).symm, (Prog.unroll_bind ..).symm, hround⟩))

/-- A loop erases round by round. -/
theorem iter {I : σ → L → Prop} {body body' : σ → Prog S (Next σ α)} {s : σ}
    (hbody : ∀ s l, I s l → Erase P drop (body s) (body' s) l (Spec.round I Q)) (hI : I s l) :
    Erase P drop (Prog.iter body s) (Prog.iter body' s) l Q :=
  loop hbody (fun _ _ hQ => ret hQ) hI

/-! ## The unary reading -/

/-- The left program keeps the protocol. -/
theorem spec (h : Erase P drop p q l Q) : Spec P p l Q := by
  refine ⟨fun p l => ∃ q, Erase P drop p q l Q, fun p l hp => ?_, q, h⟩
  obtain ⟨q, hpq⟩ := hp
  cases hpq.out with
  | ret ha => exact ha
  | op hpre hk => exact ⟨hpre, fun a l' ha => ⟨_, hk a l' ha⟩⟩
  | drop hdrop hpre hk => exact ⟨hpre, fun a l' ha => ⟨_, hk a l' ha⟩⟩
  | loop hround => exact ⟨_, hround⟩

/-- A program that keeps the protocol pairs with itself. -/
theorem refl (h : Spec P p l Q) : Erase P drop p p l Q := by
  refine ⟨fun p q l => p = q ∧ Spec P p l Q, fun p q l hpq => ?_, rfl, h⟩
  obtain ⟨rfl, hp⟩ := hpq
  cases p with
  | ret a => exact .ret hp.out
  | op o k => exact .op hp.out.1 fun a l' ha => ⟨rfl, hp.out.2 a l' ha⟩
  | loop body s k => exact .loop ⟨rfl, hp.out⟩

end Erase

end

/-! ## Runs without the dropped steps -/

section
variable {S : Sig} {Tid Call Res L : Type} {W : World S Tid Call Res}

/-- The second list of steps is the first without some steps in `drop`: what is left has the same
    memories and events, what was left out changed nothing. -/
inductive Thins (drop : S.Op → Prop) : List (Trans W) → List (Trans W) → Prop where
  | nil : Thins drop [] []
  | keep {x y : Trans W} {tr tr' : List (Trans W)} : y.src.mem = x.src.mem → y.ev = x.ev →
      y.dst.mem = x.dst.mem → Thins drop tr tr' → Thins drop (x :: tr) (y :: tr')
  | drop {x : Trans W} {t : Tid} {c : Call} {o : S.Op} {a : S.Ans o} {tr tr' : List (Trans W)} :
      drop o → x.ev = .op t c o a → x.dst.mem = x.src.mem → Thins drop tr tr' →
      Thins drop (x :: tr) tr'

variable [DecidableEq Tid] {prog prog' : Call → Prog S Res} {ok : W.Mem → Prop}
  {drop : S.Op → Prop}

namespace Outline

variable (O : Outline W prog ok L) (drop)

/-- The call of a thread in the first pool erases to its call in the second. -/
inductive Pairs : Option (Call × Prog S Res) → Option (Call × Prog S Res) →
    Option (Call × L) → Prop where
  | idle : Pairs none none none
  | busy {c : Call} {p q : Prog S Res} {l : L} : Erase (O.proto c) drop p q l (O.post c) →
      Pairs (some (c, p)) (some (c, q)) (some (c, l))

/-- The second pool is the first with some dropped operations left out. -/
structure Mirrors (s z : Pool W) (ph : Tid → Option (Call × L)) : Prop where
  inv : O.inv s.mem ph
  mem : z.mem = s.mem
  pairs : ∀ t, O.Pairs drop (s.thread t) (z.thread t) (ph t)

variable {O drop}

theorem Mirrors.idle {s z : Pool W} {ph : Tid → Option (Call × L)} (h : O.Mirrors drop s z ph)
    {t : Tid} (ht : s.thread t = none) : z.thread t = none ∧ ph t = none := by
  have hpair := h.pairs t
  rw [ht] at hpair
  generalize z.thread t = y at hpair
  generalize ph t = l at hpair
  cases hpair
  exact ⟨rfl, rfl⟩

/-- A thread inside a call is inside the same one on the other side, with its program erased. -/
theorem Mirrors.busy {s z : Pool W} {ph : Tid → Option (Call × L)} (h : O.Mirrors drop s z ph)
    {t : Tid} {c : Call} {p : Prog S Res} (ht : s.thread t = some (c, p)) :
    ∃ q l, z.thread t = some (c, q) ∧ ph t = some (c, l) ∧
      Erase (O.proto c) drop p q l (O.post c) := by
  have hpair := h.pairs t
  rw [ht] at hpair
  generalize z.thread t = y at hpair
  generalize ph t = l at hpair
  cases hpair with
  | busy herase => exact ⟨_, _, rfl, rfl, herase⟩

/-- Moving one thread in both pools. -/
theorem Mirrors.put {s z : Pool W} {ph : Tid → Option (Call × L)} (h : O.Mirrors drop s z ph)
    {m : W.Mem} {t : Tid} {x y : Option (Call × Prog S Res)} {l : Option (Call × L)}
    (hinv : O.inv m (Function.update ph t l)) (hpair : O.Pairs drop x y l) :
    O.Mirrors drop (s.put m t x) (z.put m t y) (Function.update ph t l) := by
  refine ⟨hinv, rfl, fun u => ?_⟩
  by_cases hu : u = t
  · subst hu
    rw [Pool.put_thread_self, Pool.put_thread_self, Function.update_self]
    exact hpair
  · rw [Pool.put_thread_ne _ _ _ hu, Pool.put_thread_ne _ _ _ hu, Function.update_of_ne hu]
    exact h.pairs u

/-- Moving one thread in the first pool only. -/
theorem Mirrors.put_left {s z : Pool W} {ph : Tid → Option (Call × L)}
    (h : O.Mirrors drop s z ph) {t : Tid} {x : Option (Call × Prog S Res)}
    {l : Option (Call × L)} (hinv : O.inv s.mem (Function.update ph t l))
    (hpair : O.Pairs drop x (z.thread t) l) :
    O.Mirrors drop (s.put s.mem t x) z (Function.update ph t l) := by
  refine ⟨hinv, h.mem, fun u => ?_⟩
  by_cases hu : u = t
  · subst hu
    rw [Pool.put_thread_self, Function.update_self]
    exact hpair
  · rw [Pool.put_thread_ne _ _ _ hu, Function.update_of_ne hu]
    exact h.pairs u

variable (hprog : ∀ c, Erase (O.proto c) drop (prog c) (prog' c) (O.entry c) (O.post c))
  (hmem : ∀ t c o a m m', drop o → W.exec t c o a m m' → m' = m)
include hprog hmem

/-- **One step** of the first pool is the same step of the second, or a dropped one. -/
theorem Mirrors.step {s z s' : Pool W} {ph : Tid → Option (Call × L)} {e : Event S Tid Call Res}
    (h : O.Mirrors drop s z ph) (hstep : Pool.Step prog s e s') (hok : ok s'.mem) :
    ∃ ph', (∃ z', Pool.Step prog' z e z' ∧ O.Mirrors drop s' z' ph') ∨
      (∃ t c o a, drop o ∧ e = .op t c o a ∧ s'.mem = s.mem ∧ O.Mirrors drop s' z ph') := by
  cases hstep with
  | @call t c m ht hcall =>
    obtain ⟨hz, hl⟩ := h.idle ht
    exact ⟨_, Or.inl ⟨_, .call hz (h.mem ▸ hcall),
      h.put (O.call h.inv hl hcall hok) (.busy (hprog c))⟩⟩
  | @op t c o k a m ht hexec =>
    obtain ⟨q, l, hz, hl, herase⟩ := h.busy ht
    cases herase.out with
    | op hpre hk =>
      obtain ⟨l', hpost, hinv⟩ := O.op h.inv hl hpre hexec hok
      exact ⟨_, Or.inl ⟨_, .op hz (h.mem ▸ hexec), h.put hinv (.busy (hk a l' hpost))⟩⟩
    | drop hdrop hpre hk =>
      obtain ⟨l', hpost, hinv⟩ := O.op h.inv hl hpre hexec hok
      obtain rfl := hmem t c o a _ _ hdrop hexec
      exact ⟨_, Or.inr ⟨t, c, o, a, hdrop, rfl, rfl,
        h.put_left hinv (by rw [hz]; exact .busy (hk a l' hpost))⟩⟩
  | @jump t c σ β body x k ht =>
    obtain ⟨q, l, hz, hl, herase⟩ := h.busy ht
    cases herase.out with
    | loop hround =>
      have hinv : O.inv s.mem (Function.update ph t (some (c, l))) := by
        rw [← hl, Function.update_eq_self]
        exact h.inv
      refine ⟨Function.update ph t (some (c, l)), Or.inl ⟨_, .jump hz, ?_⟩⟩
      rw [h.mem]
      exact h.put hinv (.busy hround)
  | @ret t c r m ht hret =>
    obtain ⟨q, l, hz, hl, herase⟩ := h.busy ht
    cases herase.out with
    | ret hpost =>
      exact ⟨_, Or.inl ⟨_, .ret hz (h.mem ▸ hret), h.put (O.ret h.inv hl hpost hret hok) .idle⟩⟩
  | @client t m ht hclient =>
    obtain ⟨hz, hl⟩ := h.idle ht
    have hinv : O.inv m (Function.update ph t none) := by
      rw [← hl, Function.update_eq_self]
      exact O.client h.inv hl hclient hok
    exact ⟨_, Or.inl ⟨_, .client hz (h.mem ▸ hclient), h.put hinv .idle⟩⟩

/-- **The runs of the one pool are runs of the other**, with the dropped steps left out. -/
theorem Mirrors.run {s s' z : Pool W} {tr : List (Trans W)} (hrun : Run prog s tr s')
    (hok : ∀ x ∈ tr, ok x.dst.mem) (h : ∃ ph, O.Mirrors drop s z ph) :
    ∃ tr' z', Run prog' z tr' z' ∧ Thins drop tr tr' ∧ ∃ ph, O.Mirrors drop s' z' ph := by
  induction hrun generalizing z with
  | nil s => exact ⟨[], z, .nil z, .nil, h⟩
  | @cons s₁ s₂ s₃ e tr hstep _ ih =>
    obtain ⟨ph, hph⟩ := h
    obtain ⟨ph', ⟨z₂, hz, hph'⟩ | ⟨t, c, o, a, hdrop, he, hsame, hph'⟩⟩ :=
      hph.step hprog hmem hstep (hok _ List.mem_cons_self)
    · obtain ⟨tr', z', hrun', hthin, hend⟩ := ih (fun x hx => hok x (List.mem_cons_of_mem _ hx))
        ⟨ph', hph'⟩
      exact ⟨_, z', .cons hz hrun', .keep hph.mem rfl hph'.mem hthin, hend⟩
    · obtain ⟨tr', z', hrun', hthin, hend⟩ := ih (fun x hx => hok x (List.mem_cons_of_mem _ hx))
        ⟨ph', hph'⟩
      exact ⟨tr', z', hrun', .drop hdrop he hsame hthin, hend⟩

/-- **Every run of the first library is one of the second**, without the dropped steps. -/
theorem erase {m : W.Mem} {s : Pool W} {tr : List (Trans W)} (hinit : O.inv m fun _ => none)
    (hrun : Run prog (Pool.start m) tr s) (hok : ∀ x ∈ tr, ok x.dst.mem) :
    ∃ tr' s', Run prog' (Pool.start m) tr' s' ∧ Thins drop tr tr' ∧ s'.mem = s.mem := by
  obtain ⟨tr', s', hrun', hthin, ph, hmirror⟩ := Mirrors.run hprog hmem hrun hok
    ⟨fun _ => none, hinit, rfl, fun _ => .idle⟩
  exact ⟨tr', s', hrun', hthin, hmirror.mem⟩

end Outline

end

end Conc
