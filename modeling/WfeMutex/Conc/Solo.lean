/-
  ONE THREAD OF A POOL: what it does when it runs alone, and its own steps in an interleaving.

  `ReturnsWithin n s` — from the state `s` the thread, running alone, is never stuck and has
  returned after at most `n` steps of its own.  It is proved on the program of the call:
  `Within step Q n p m` says the same of a program `p` over a state `m` that only `p` changes, and
  `returnsWithin_of_within` carries it over, along any abstraction of the memory.

  `NeverReturns s` — however long the thread runs alone from `s`, its call does not return.  It
  follows from a `Spec` whose postcondition is false (`neverReturns_of_spec`).

  In an interleaving, the next step of a thread can be picked out (`Run.next_own`): until then the
  thread stands where it stood, and the step is the one its program prescribes.
-/
import WfeMutex.Conc.Pool

set_option linter.unusedVariables false

namespace Conc

/-! ## Programs alone with their memory -/

section
variable {S : Sig} {α β M : Type}

/-- Under every answer `step` admits, `p` returns from `m` within `n` steps, with `Q`. -/
def Within (step : (o : S.Op) → S.Ans o → M → M → Prop) (Q : α → M → Prop) :
    Nat → Prog S α → M → Prop
  | _, .ret a, m => Q a m
  | n + 1, .op o k, m =>
    (∃ a m', step o a m m') ∧ ∀ a m', step o a m m' → Within step Q n (k a) m'
  | n + 1, .loop body s k, m => Within step Q n (Prog.unroll body s k) m
  | 0, _, _ => False

namespace Within

variable {step : (o : S.Op) → S.Ans o → M → M → Prop} {Q : α → M → Prop} {n k : Nat} {m : M}

theorem ret {a : α} (h : Q a m) : Within step Q n (.ret a) m := by
  cases n with
  | zero => exact h
  | succ n => exact h

/-- `Within.ret` for `do` blocks. -/
theorem pure {a : α} (h : Q a m) : Within step Q n (Pure.pure a) m := ret h

theorem perform {o : S.Op} {Q : S.Ans o → M → Prop} (hans : ∃ a m', step o a m m')
    (h : ∀ a m', step o a m m' → Q a m') : Within step Q 1 (Prog.perform o) m :=
  ⟨hans, fun a m' ha => ret (h a m' ha)⟩

/-- More steps do no harm. -/
theorem mono {p : Prog S α} (h : Within step Q n p m) (hk : n ≤ k) : Within step Q k p m := by
  induction n generalizing p m k with
  | zero =>
    cases p with
    | ret a => exact ret h
    | op o f => exact h.elim
    | loop body s f => exact h.elim
  | succ n ih =>
    obtain ⟨k, rfl⟩ : ∃ k', k = k' + 1 := ⟨k - 1, by omega⟩
    cases p with
    | ret a => exact h
    | op o f => exact ⟨h.1, fun a m' ha => ih (h.2 a m' ha) (by omega)⟩
    | loop body s f =>
      show Within step Q k (Prog.unroll body s f) m
      exact ih h (by omega)

/-- What holds of every operation on the way may be forgotten. -/
theorem of_guarded {guard : S.Op → Prop} {p : Prog S α}
    (h : Within (fun o a m m' => guard o ∧ step o a m m') Q n p m) : Within step Q n p m := by
  induction n generalizing p m with
  | zero =>
    cases p with
    | ret a => exact h
    | op o f => exact h.elim
    | loop body s f => exact h.elim
  | succ n ih =>
    cases p with
    | ret a => exact h
    | op o f =>
      obtain ⟨⟨a, m', hguard, ha⟩, hall⟩ := h
      exact ⟨⟨a, m', ha⟩, fun a m' ha => ih (hall a m' ⟨hguard, ha⟩)⟩
    | loop body s f =>
      show Within step Q n (Prog.unroll body s f) m
      exact ih h

/-- The steps of a sequence add up. -/
theorem bind {R : β → M → Prop} {p : Prog S α} {f : α → Prog S β} (h : Within step Q n p m)
    (hf : ∀ a m, Q a m → Within step R k (f a) m) : Within step R (n + k) (p.bind f) m := by
  induction n generalizing p m with
  | zero =>
    cases p with
    | ret a => exact (hf a m h).mono (by omega)
    | op o g => exact h.elim
    | loop body s g => exact h.elim
  | succ n ih =>
    cases p with
    | ret a => exact (hf a m h).mono (by omega)
    | op o g =>
      rw [Nat.succ_add]
      exact ⟨h.1, fun a m' ha => ih (h.2 a m' ha)⟩
    | loop body s g =>
      rw [Nat.succ_add]
      show Within step R (n + k) (Prog.unroll body s fun b => (g b).bind f) m
      rw [← Prog.unroll_bind]
      exact ih h

/-- `Within.bind` for `do` blocks. -/
theorem seq {R : β → M → Prop} {p : Prog S α} {f : α → Prog S β} (h : Within step Q n p m)
    (hf : ∀ a m, Q a m → Within step R k (f a) m) : Within step R (n + k) (p >>= f) m :=
  bind h hf

end Within

end

/-! ## A thread of a pool alone -/

section
variable {S : Sig} {Tid Call Res L M : Type} {W : World S Tid Call Res} [DecidableEq Tid]
  {prog : Call → Prog S Res}

/-- Thread `t`, inside its call `c` and running alone, is never stuck, and returns within `n` steps
    of its own, with `Q`. -/
def ReturnsWithin (prog : Call → Prog S Res) (t : Tid) (c : Call) (Q : Res → W.Mem → Prop) :
    Nat → Pool W → Prop
  | 0, _ => False
  | n + 1, s =>
    (∃ e s', Pool.Step prog s e s' ∧ e.tid = t) ∧
      ∀ e s', Pool.Step prog s e s' → e.tid = t →
        (∃ r, e = .ret t c r ∧ Q r s'.mem) ∨ ReturnsWithin prog t c Q n s'

/-- However long thread `t` runs alone, it does not return from its call. -/
def NeverReturns (prog : Call → Prog S Res) (t : Tid) (s : Pool W) : Prop :=
  ∀ tr s', Run prog s tr s' → (∀ x ∈ tr, x.ev.tid = t) → ∀ x ∈ tr, ∀ c r, x.ev ≠ .ret t c r

/-! ### The step a thread takes next -/

/-- The step `e` to `s'` of a thread `t` that is inside the call `c` with `p` left to do. -/
def OwnStep (t : Tid) (c : Call) (s : Pool W) (e : Event S Tid Call Res) (s' : Pool W) :
    Prog S Res → Prop
  | .ret r => e = .ret t c r ∧ W.ret t c r s.mem s'.mem
  | .op o k =>
    ∃ a, e = .op t c o a ∧ W.exec t c o a s.mem s'.mem ∧ s'.thread t = some (c, k a)
  | .loop body x k =>
    e = .jump t ∧ s'.mem = s.mem ∧ s'.thread t = some (c, Prog.unroll body x k)

/-- A thread inside a call takes the step its program prescribes. -/
theorem Pool.Step.own {s s' : Pool W} {e : Event S Tid Call Res} {t : Tid} {c : Call}
    {p : Prog S Res} (hstep : Pool.Step prog s e s') (he : e.tid = t)
    (ht : s.thread t = some (c, p)) : OwnStep t c s e s' p := by
  cases hstep with
  | @call u d m hnone hcall =>
    obtain rfl : u = t := he
    rw [hnone] at ht
    cases ht
  | @op u d o k a m hop hexec =>
    obtain rfl : u = t := he
    rw [hop] at ht
    cases ht
    exact ⟨a, rfl, hexec, Pool.put_thread_self ..⟩
  | @jump u d σ β body x k hloop =>
    obtain rfl : u = t := he
    rw [hloop] at ht
    cases ht
    exact ⟨rfl, rfl, Pool.put_thread_self ..⟩
  | @ret u d r m hret hmem =>
    obtain rfl : u = t := he
    rw [hret] at ht
    cases ht
    exact ⟨rfl, hmem⟩
  | @client u m hnone hclient =>
    obtain rfl : u = t := he
    rw [hnone] at ht
    cases ht

/-! ### From the program of the call to the pool -/

/-- **A program that returns within `n` steps** makes its thread return within one more, along any
    abstraction `view` of the memory under which the operations are exactly `step`. -/
theorem returnsWithin_of_within (step : (o : S.Op) → S.Ans o → M → M → Prop)
    (view : W.Mem → M) {t : Tid} {c : Call} {Q : Res → M → Prop} {R : Res → W.Mem → Prop}
    (hexec : ∀ o a m m', W.exec t c o a m m' → step o a (view m) (view m'))
    (hans : ∀ o a m v, step o a (view m) v → ∃ m', W.exec t c o a m m')
    (hret : ∀ r m, Q r (view m) → (∃ m', W.ret t c r m m') ∧ ∀ m', W.ret t c r m m' → R r m')
    {n : Nat} {s : Pool W} {p : Prog S Res} (ht : s.thread t = some (c, p))
    (h : Within step Q n p (view s.mem)) : ReturnsWithin prog t c R (n + 1) s := by
  induction n generalizing s p with
  | zero =>
    cases p with
    | ret r =>
      obtain ⟨⟨m', hm'⟩, hall⟩ := hret r s.mem h
      refine ⟨⟨_, _, .ret ht hm', rfl⟩, ?_⟩
      intro e s' hstep he
      obtain ⟨rfl, hmem⟩ := hstep.own he ht
      exact Or.inl ⟨r, rfl, hall _ hmem⟩
    | op o k => exact h.elim
    | loop body x k => exact h.elim
  | succ n ih =>
    cases p with
    | ret r =>
      obtain ⟨⟨m', hm'⟩, hall⟩ := hret r s.mem h
      refine ⟨⟨_, _, .ret ht hm', rfl⟩, ?_⟩
      intro e s' hstep he
      obtain ⟨rfl, hmem⟩ := hstep.own he ht
      exact Or.inl ⟨r, rfl, hall _ hmem⟩
    | op o k =>
      obtain ⟨⟨a, v, hav⟩, hall⟩ := h
      obtain ⟨m', hm'⟩ := hans o a s.mem v hav
      refine ⟨⟨_, _, .op ht hm', rfl⟩, ?_⟩
      intro e s' hstep he
      obtain ⟨a, rfl, hmem, ht'⟩ := hstep.own he ht
      exact Or.inr (ih ht' (hall a _ (hexec o a _ _ hmem)))
    | loop body x k =>
      refine ⟨⟨_, _, .jump ht, rfl⟩, ?_⟩
      intro e s' hstep he
      obtain ⟨rfl, hmem, ht'⟩ := hstep.own he ht
      refine Or.inr (ih ht' ?_)
      rw [hmem]
      exact h

/-- **A program that no protocol-conforming run returns from** keeps its thread inside the call for
    ever, where `R` is what the local state of the protocol says of the memory. -/
theorem neverReturns_of_spec {P : Proto S L} {R : L → W.Mem → Prop} {t : Tid} {c : Call}
    (hexec : ∀ l o a m m', R l m → P.pre l o → W.exec t c o a m m' →
      ∃ l', P.post l o a l' ∧ R l' m')
    {s : Pool W} {p : Prog S Res} {l : L} (ht : s.thread t = some (c, p))
    (h : Spec P p l fun _ _ => False) (hR : R l s.mem) : NeverReturns prog t s := by
  intro tr s' hrun
  induction hrun generalizing p l with
  | nil s =>
    intro _ x hx
    cases hx
  | @cons s₁ s₂ s₃ e tr hstep hrun ih =>
    intro hown x hx c' r
    have he : e.tid = t := hown _ List.mem_cons_self
    have hrest : ∀ y ∈ tr, y.ev.tid = t := fun y hy => hown y (List.mem_cons_of_mem _ hy)
    cases p with
    | ret a => exact h.out.elim
    | op o k =>
      obtain ⟨hpre, hk⟩ := h.out
      obtain ⟨a, rfl, hmem, ht'⟩ := hstep.own he ht
      obtain ⟨l', hpost, hR'⟩ := hexec l o a _ _ hR hpre hmem
      rcases List.mem_cons.mp hx with rfl | hx
      · exact fun hev => by cases hev
      · exact ih ht' (hk a l' hpost) hR' hrest x hx c' r
    | loop body y k =>
      obtain ⟨rfl, hmem, ht'⟩ := hstep.own he ht
      rcases List.mem_cons.mp hx with rfl | hx
      · exact fun hev => by cases hev
      · exact ih ht' h.out (hmem ▸ hR) hrest x hx c' r

/-! ### A thread's own steps in an interleaving -/

/-- The next step of thread `t` in a run: until then it stands where it stood. -/
theorem Run.next_own {s s' : Pool W} {tr : List (Trans W)} {t : Tid} (hrun : Run prog s tr s')
    (h : ∃ x ∈ tr, x.ev.tid = t) :
    ∃ tr₁ x tr₂, tr = tr₁ ++ x :: tr₂ ∧ (∀ y ∈ tr₁, y.ev.tid ≠ t) ∧ x.ev.tid = t ∧
      Run prog s tr₁ x.src ∧ Pool.Step prog x.src x.ev x.dst ∧ Run prog x.dst tr₂ s' ∧
      x.src.thread t = s.thread t := by
  induction hrun with
  | nil s =>
    obtain ⟨x, hx, -⟩ := h
    cases hx
  | @cons s₁ s₂ s₃ e tr hstep hrun ih =>
    by_cases he : e.tid = t
    · refine ⟨[], _, tr, rfl, ?_, he, .nil _, hstep, hrun, rfl⟩
      intro y hy
      cases hy
    · have hrest : ∃ x ∈ tr, x.ev.tid = t := by
        obtain ⟨x, hx, hxt⟩ := h
        rcases List.mem_cons.mp hx with rfl | hx
        · exact absurd hxt he
        · exact ⟨x, hx, hxt⟩
      obtain ⟨tr₁, x, tr₂, rfl, hne, hxt, hrun₁, hst, hrun₂, hsame⟩ := ih hrest
      refine ⟨_ :: tr₁, x, tr₂, rfl, ?_, hxt, .cons hstep hrun₁, hst, hrun₂, ?_⟩
      · intro y hy
        rcases List.mem_cons.mp hy with rfl | hy
        · exact he
        · exact hne y hy
      · rw [hsame, hstep.thread_of_ne he]

/-- A thread that takes no step stands where it stood. -/
theorem Run.thread_same {s s' : Pool W} {tr : List (Trans W)} {t : Tid} (hrun : Run prog s tr s')
    (h : ∀ x ∈ tr, x.ev.tid ≠ t) : s'.thread t = s.thread t := by
  induction hrun with
  | nil s => rfl
  | @cons s₁ s₂ s₃ e tr hstep hrun ih =>
    rw [ih fun x hx => h x (List.mem_cons_of_mem _ hx),
      hstep.thread_of_ne (h _ List.mem_cons_self)]

/-- A thread that only has to return stands there until it returns. -/
theorem Run.thread_ret {s s' : Pool W} {tr : List (Trans W)} {t : Tid} {c : Call} {r : Res}
    (hrun : Run prog s tr s') (ht : s.thread t = some (c, .ret r))
    (hin : ∀ x ∈ tr, ∀ d q, x.ev ≠ .ret t d q) : s'.thread t = some (c, .ret r) := by
  rw [← ht]
  apply hrun.thread_same
  intro x hx hxt
  obtain ⟨tr₁, y, tr₂, rfl, -, hyt, -, hstep, -, hsame⟩ := hrun.next_own ⟨x, hx, hxt⟩
  obtain ⟨hev, -⟩ := hstep.own hyt (hsame.trans ht)
  exact hin y (List.mem_append_right _ List.mem_cons_self) c r hev

/-- The next operation of a thread that comes to its return. -/
theorem Run.next_op {s s' : Pool W} {tr : List (Trans W)} {t : Tid} {c d : Call} {r : Res}
    {o : S.Op} {k : S.Ans o → Prog S Res} (hrun : Run prog s tr s')
    (ht : s.thread t = some (c, .op o k)) (hret : s'.thread t = some (d, .ret r)) :
    ∃ tr₁ x tr₂ a, tr = tr₁ ++ x :: tr₂ ∧ (∀ y ∈ tr₁, y.ev.tid ≠ t) ∧ x.ev = .op t c o a ∧
      W.exec t c o a x.src.mem x.dst.mem ∧ Run prog s tr₁ x.src ∧
      Pool.Step prog x.src x.ev x.dst ∧ Run prog x.dst tr₂ s' ∧
      x.dst.thread t = some (c, k a) := by
  have hown : ∃ x ∈ tr, x.ev.tid = t := by
    by_contra hnone
    have hsame := hrun.thread_same fun x hx hxt => hnone ⟨x, hx, hxt⟩
    rw [ht, hret] at hsame
    cases hsame
  obtain ⟨tr₁, x, tr₂, htr, hne, hxt, hrun₁, hstep, hrun₂, hsame⟩ := hrun.next_own hown
  obtain ⟨a, hev, hexec, hthread⟩ := hstep.own hxt (hsame.trans ht)
  exact ⟨tr₁, x, tr₂, a, htr, hne, hev, hexec, hrun₁, hstep, hrun₂, hthread⟩

/-- Where a function of the memory has changed, some step has changed it. -/
theorem Run.exists_change {γ : Type} (f : W.Mem → γ) {s s' : Pool W} {tr : List (Trans W)}
    (hrun : Run prog s tr s') (h : f s'.mem ≠ f s.mem) :
    ∃ x ∈ tr, f x.dst.mem ≠ f x.src.mem := by
  induction hrun with
  | nil s => exact absurd rfl h
  | @cons s₁ s₂ s₃ e tr hstep hrun ih =>
    by_cases hsame : f s₂.mem = f s₁.mem
    · rw [← hsame] at h
      obtain ⟨x, hx, hne⟩ := ih h
      exact ⟨x, List.mem_cons_of_mem _ hx, hne⟩
    · exact ⟨_, List.mem_cons_self, hsame⟩

end

end Conc
