/-
  RUNS WITHOUT END, and what fairness makes of them.

  `Run` is finite, which is enough for what must never happen.  That something must happen at last
  is a claim about runs that go on for ever, and it needs a scheduler that is not unjust: a thread
  that from some point on is always ready to take a step does take one (`Forever.Fair`).  Which
  threads are ready is for the model to say; a thread outside any call need not be, and may stay
  there.

  `Forever.descends` is the rule: if each own step of a thread lowers a measure, the steps of the
  others let it be, and the thread is ready all the while, then the thread comes to an end.
-/
import Mathlib.Data.Nat.Find
import Mathlib.Data.Nat.Init
import Mathlib.Tactic.Choose
import WfeMutex.Conc.Solo

set_option linter.unusedVariables false

namespace Conc

section
variable {S : Sig} {Tid Call Res : Type} {W : World S Tid Call Res} [DecidableEq Tid]

/-- An infinite run, from any state. -/
structure Forever (W : World S Tid Call Res) (prog : Call → Prog S Res) where
  state : Nat → Pool W
  ev : Nat → Event S Tid Call Res
  step : ∀ n, Pool.Step prog (state n) (ev n) (state (n + 1))

variable {prog : Call → Prog S Res}

/-- What is never left without a step goes on for ever. -/
theorem Forever.exists_of_step {I : Pool W → Prop} {E : Event S Tid Call Res → Prop}
    (hstep : ∀ s, I s → ∃ e s', Pool.Step prog s e s' ∧ E e ∧ I s') {s : Pool W} (hs : I s) :
    ∃ F : Forever W prog, F.state 0 = s ∧ (∀ n, I (F.state n)) ∧ ∀ n, E (F.ev n) := by
  choose e next hnext hev hI using hstep
  let seq : Nat → { s : Pool W // I s } := fun n =>
    n.rec ⟨s, hs⟩ fun _ x => ⟨next x.1 x.2, hI x.1 x.2⟩
  refine ⟨⟨fun n => (seq n).1, fun n => e (seq n).1 (seq n).2, ?_⟩, rfl, ?_, ?_⟩
  · exact fun n => hnext (seq n).1 (seq n).2
  · exact fun n => (seq n).2
  · exact fun n => hev (seq n).1 (seq n).2

namespace Forever

variable (F : Forever W prog)

/-- Weak fairness to thread `t`. -/
def Fair (ready : Tid → Pool W → Prop) (t : Tid) : Prop :=
  ∀ n, (∀ m, n ≤ m → ready t (F.state m)) → ∃ m, n ≤ m ∧ (F.ev m).tid = t

/-- From the time `n` on, thread `t` is inside its call `c`. -/
def Inside (t : Tid) (c : Call) (n : Nat) : Prop :=
  ∀ m, n ≤ m → ∃ p, (F.state m).thread t = some (c, p)

/-- Some thread is inside a call `c` at some time. -/
def Calls (c : Call) : Prop := ∃ n t p, (F.state n).thread t = some (c, p)

variable {F}

/-- A thread that stays inside its call does not return from it. -/
theorem Inside.not_returns {t : Tid} {c : Call} {n : Nat} (hin : F.Inside t c n)
    (h : ∀ p, (F.state n).thread t = some (c, p) → ∃ m, n ≤ m ∧ ∃ r, F.ev m = .ret t c r) :
    False := by
  obtain ⟨p, ht⟩ := hin n (Nat.le_refl n)
  obtain ⟨m, hm, r, hev⟩ := h p ht
  obtain ⟨p', ht'⟩ := hin (m + 1) (Nat.le_succ_of_le hm)
  rw [(F.step m).thread_of_ret hev] at ht'
  cases ht'

theorem reach {ok : W.Mem → Prop} {m : W.Mem} (h : Reach prog ok m (F.state 0))
    (hok : ∀ n, ok (F.state n).mem) (n : Nat) : Reach prog ok m (F.state n) := by
  induction n with
  | zero => exact h
  | succ n ih => exact ih.step (F.step n) (hok (n + 1))

/-- What every step from `N` on keeps. -/
theorem keeps {I : Pool W → Prop} {N : Nat}
    (hstep : ∀ n, N ≤ n → I (F.state n) → I (F.state (n + 1))) (h : I (F.state N)) {n : Nat}
    (hn : N ≤ n) : I (F.state n) := by
  induction n, hn using Nat.le_induction with
  | base => exact h
  | succ n hn ih => exact hstep n hn ih

/-- The first step of a thread from the time `n` on. -/
theorem first_own {t : Tid} {n : Nat} (h : ∃ m, n ≤ m ∧ (F.ev m).tid = t) :
    ∃ m, n ≤ m ∧ (F.ev m).tid = t ∧ ∀ i, n ≤ i → i < m → (F.ev i).tid ≠ t := by
  classical
  obtain ⟨hle, hown⟩ := Nat.find_spec h
  refine ⟨Nat.find h, hle, hown, ?_⟩
  intro i hi hlt heq
  exact Nat.find_min h hlt ⟨hi, heq⟩

/-- **Fairness brings a measure down**: `X k` says that the measure is `k`, `done` what an own step
    comes to that does not lower it. -/
theorem descends {ready : Tid → Pool W → Prop} {t : Tid} (hfair : F.Fair ready t)
    {X : Nat → Pool W → Prop} {done : Nat → Prop} {N : Nat}
    (hready : ∀ n k, N ≤ n → X k (F.state n) → ready t (F.state n))
    (hother : ∀ n k, N ≤ n → X k (F.state n) → (F.ev n).tid ≠ t → X k (F.state (n + 1)))
    (hown : ∀ n k, N ≤ n → X k (F.state n) → (F.ev n).tid = t →
      done n ∨ ∃ k' < k, X k' (F.state (n + 1)))
    {k n : Nat} (hn : N ≤ n) (hX : X k (F.state n)) : ∃ m, n ≤ m ∧ done m := by
  induction k using Nat.strong_induction_on generalizing n with
  | _ k ih =>
    -- the others let the measure be
    have hthere : ∀ m, n ≤ m → (∀ i, n ≤ i → i < m → (F.ev i).tid ≠ t) → X k (F.state m) := by
      intro m hm
      induction m, hm using Nat.le_induction with
      | base => exact fun _ => hX
      | succ m hm ihm =>
        intro hothers
        exact hother m k (by omega) (ihm fun i hi hlt => hothers i hi (by omega))
          (hothers m hm (by omega))
    have hnext : ∃ m, n ≤ m ∧ (F.ev m).tid = t := by
      by_contra hnone
      have hothers : ∀ i, n ≤ i → (F.ev i).tid ≠ t := fun i hi heq => hnone ⟨i, hi, heq⟩
      exact hnone (hfair n fun m hm =>
        hready m k (by omega) (hthere m hm fun i hi _ => hothers i hi))
    obtain ⟨m, hm, hself, hothers⟩ := first_own hnext
    rcases hown m k (by omega) (hthere m hm hothers) hself with hdone | ⟨k', hk, hX'⟩
    · exact ⟨m, hm, hdone⟩
    · obtain ⟨m', hm', hdone⟩ := ih k' hk (n := m + 1) (by omega) hX'
      exact ⟨m', by omega, hdone⟩

end Forever

end

end Conc
