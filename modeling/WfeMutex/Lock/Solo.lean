/-
  SOLO COMPLETION of the readers/writer lock, and reader priority.

  Take any reachable state, with the other threads stopped anywhere inside their calls, and let one
  thread call and run alone.  It sees one word that only it changes, and a waiting thread leaves
  no trace in that word.  So whether its call returns is decided by the word alone: an acquisition
  whose exchange can succeed succeeds on the first attempt, or on the second with the value the
  first one saw (`within_*`); on a word it cannot exchange, every exchange fails and the wait of
  any backend, shown that word for ever, does not end (`still_*`).

  Under interference the only way for `wfe_mutex_rwlock_trylock_shared` to fail without a writer is
  that another thread changes the word between its load and its exchange.
-/
import WfeMutex.Conc.Solo
import WfeMutex.Lock.Rwlock

set_option linter.unusedVariables false

namespace WfeMutex

open Conc

/-! ## Calls that return -/

/-- The steps of a program that has the word to itself. -/
abbrev wordStep (o : Op 32) (a : o.Ans) (v v' : BitVec 32) : Prop := Effect v o a v'

section
variable {v e d : BitVec 32} {s f : MemOrder}

/-- One operation of a `do` block. -/
theorem within_act {o : Op 32} {Q : o.Ans → BitVec 32 → Prop} (hans : ∃ a v', Effect v o a v')
    (h : ∀ a v', Effect v o a v' → Q a v') : Within wordStep Q 1 (act o) v :=
  Within.perform hans h

/-- Alone, a load shows the word. -/
theorem within_load (mo : MemOrder) :
    Within wordStep (fun a v' => a = v ∧ v' = v) 1 (atomicLoadN mo) v := by
  refine within_act (o := .loadN mo) ⟨v, v, .loadN v mo⟩ ?_
  intro a v' h
  cases h
  exact ⟨rfl, rfl⟩

/-- An exchange that finds what it expects. -/
theorem within_exchange (h : v = e) :
    Within wordStep (fun a _ => a.1 = true) 1 (atomicCompareExchangeN e d s f) v := by
  refine within_act (o := .compareExchangeN e d s f) ⟨(true, v), d, Effect.exchange_of_eq h⟩ ?_
  intro a v' heff
  cases heff with
  | exchanged => rfl
  | differs _ _ _ hne => exact absurd h hne

/-- An exchange that does not. -/
theorem within_exchange_fails (h : v ≠ e) :
    Within wordStep (fun a v' => a = (false, v) ∧ v' = v) 1 (atomicCompareExchangeN e d s f) v := by
  refine within_act (o := .compareExchangeN e d s f) ⟨(false, v), v, .differs d s f h⟩ ?_
  intro a v' heff
  cases heff with
  | exchanged => exact absurd rfl h
  | differs _ _ _ hne => exact ⟨rfl, rfl⟩

variable (debug : Bool)

theorem within_check (hv : v = TOP_BIT ∨ v.toNat < 2 ^ 31) :
    Within wordStep (fun _ v' => v' = v) 1 (sanityCheckRdwrlockMutex debug) v := by
  unfold sanityCheckRdwrlockMutex
  cases debug with
  | false => exact Within.pure rfl
  | true =>
    refine Within.seq (k := 0) (within_load .seqCst) ?_
    rintro _ _ ⟨rfl, rfl⟩
    rw [sanityCheckRdwrlockValue_eq true hv]
    exact Within.pure rfl

variable (F : Features)

/-- Without a writer `wfe_mutex_rwlock_rdlock` returns after two exchanges at most. -/
theorem within_rdlock (hv : v.toNat < 2 ^ 31) (lowPower : Bool) :
    Within wordStep (fun r _ => r = true) 3 (RwlockCall.prog debug F (.rdlock lowPower)) v := by
  have hbody :
      Within wordStep (fun _ _ => True) (1 + (1 + 1)) (rwlockRdlock debug F lowPower) v := by
    unfold rwlockRdlock
    refine Within.seq (within_check debug (Or.inr hv)) ?_
    rintro _ v rfl
    by_cases hzero : v = 0
    · refine Within.seq (k := 1) (within_exchange hzero) ?_
      rintro ⟨exchanged, _⟩ _ rfl
      exact Within.pure trivial
    · refine Within.seq (within_exchange_fails hzero) ?_
      rintro _ _ ⟨rfl, rfl⟩
      -- the second exchange expects what the first has seen
      refine Within.seq (k := 0) (within_exchange (and_not_top_eq_self hv).symm) ?_
      rintro ⟨exchanged, _⟩ _ rfl
      exact Within.pure trivial
  refine Within.seq (k := 0) hbody ?_
  intro _ _ _
  exact Within.pure rfl

/-- On a free lock the first exchange takes it. -/
theorem within_exclusiveLock {n : Nat} {check : Prog (atomics 32) Unit}
    (hcheck : Within wordStep (fun _ v' => v' = 0) n check 0) (lowPower : Bool) :
    Within wordStep (fun _ _ => True) (n + (1 + 1)) (exclusiveLock F check d lowPower) 0 := by
  unfold exclusiveLock
  refine Within.seq hcheck ?_
  rintro _ _ rfl
  refine Within.seq (k := 1) (within_exchange rfl) ?_
  rintro ⟨exchanged, _⟩ _ rfl
  exact Within.pure trivial

theorem within_exclusiveTrylock {n : Nat} {check : Prog (atomics 32) Unit}
    (hcheck : Within wordStep (fun _ v' => v' = v) n check v) :
    Within wordStep (fun r _ => r = true ↔ v = 0) (n + (1 + 1)) (exclusiveTrylock check d) v := by
  unfold exclusiveTrylock
  refine Within.seq hcheck ?_
  rintro _ v rfl
  by_cases hzero : v = 0
  · refine Within.seq (k := 1) (within_exchange hzero) ?_
    rintro ⟨exchanged, _⟩ _ rfl
    exact Within.pure (iff_of_true rfl hzero)
  · refine Within.seq (k := 1) (within_exchange_fails hzero) ?_
    rintro _ _ ⟨rfl, rfl⟩
    exact Within.pure (iff_of_false (by decide) hzero)

/-- On a free lock `wfe_mutex_rwlock_wrlock` returns after its first exchange. -/
theorem within_wrlock (lowPower : Bool) :
    Within wordStep (fun r _ => r = true) 3 (RwlockCall.prog debug F (.wrlock lowPower)) 0 := by
  have hcheck := within_check debug (v := 0) (Or.inr (by decide))
  refine Within.seq (k := 0) (within_exclusiveLock F hcheck lowPower) ?_
  intro _ _ _
  exact Within.pure rfl

/-- `trylock` succeeds exactly on a free lock. -/
theorem within_trylock (hv : v = TOP_BIT ∨ v.toNat < 2 ^ 31) :
    Within wordStep (fun r _ => r = true ↔ v = 0) 3 (RwlockCall.prog debug F .trylock) v :=
  within_exclusiveTrylock (within_check debug hv)

/-- `trylock_shared` succeeds exactly where there is no writer. -/
theorem within_trylockShared (hv : v = TOP_BIT ∨ v.toNat < 2 ^ 31) :
    Within wordStep (fun r _ => r = true ↔ v.toNat < 2 ^ 31) 3
      (RwlockCall.prog debug F .trylockShared) v := by
  show Within wordStep _ (1 + (1 + 1)) (rwlockTrylockShared debug) v
  unfold rwlockTrylockShared
  refine Within.seq (within_check debug hv) ?_
  rintro _ v rfl
  refine Within.seq (within_load .acquire) ?_
  rintro _ _ ⟨rfl, rfl⟩
  rcases hv with rfl | hv
  · refine Within.seq (k := 0) (within_exchange_fails (by decide)) ?_
    rintro _ _ ⟨rfl, rfl⟩
    exact Within.pure (iff_of_false (by decide) (by decide))
  · refine Within.seq (k := 0) (within_exchange (and_not_top_eq_self hv).symm) ?_
    rintro ⟨exchanged, _⟩ _ rfl
    exact Within.pure (iff_of_true rfl hv)

end

/-! ## Calls that do not return -/

/-- The protocol of a thread alone with the word `v`, as long as it does not manage to write it. -/
def still (v : BitVec 32) : Proto (atomics 32) Unit where
  pre _ o := ∀ a v', Effect v o a v' → v' = v
  post _ o a _ := ∃ v', Effect v o a v'

section
variable {v e d : BitVec 32} {s f : MemOrder} {α : Type}

/-- A wait is shown `v` for ever. -/
theorem still_reads {p : Prog (atomics 32) α} {Q : α → Unit → Prop}
    (h : Spec (reads (· = v)) p () Q) : Spec (still v) p () Q := by
  refine (Spec.embed (R := fun _ _ => True) ?_ ?_ h trivial).mono ?_
  · intro _ _ o _ hquiet a v' heff
    exact heff.eq_of_not_writes (Op.writes_of_quiet hquiet a)
  · rintro _ _ o a _ _ _ ⟨v', heff⟩
    exact ⟨(), fun x hx => heff.sees hx, trivial⟩
  · rintro a _ ⟨_, _, hQ⟩
    exact hQ

/-- An exchange of another value fails, and reports `v`. -/
theorem still_exchange (h : v ≠ e) :
    Spec (still v) (atomicCompareExchangeN e d s f) () fun a _ => a = (false, v) := by
  refine spec_act ?_ ?_
  · intro a v' heff
    cases heff with
    | exchanged => exact absurd rfl h
    | differs => rfl
  · rintro a _ ⟨v', heff⟩
    cases heff with
    | exchanged => exact absurd rfl h
    | differs => rfl

variable (debug : Bool) {F : Features}

theorem still_check (hv : v = TOP_BIT ∨ v.toNat < 2 ^ 31) :
    Spec (still v) (sanityCheckRdwrlockMutex debug) () fun _ _ => True := by
  refine still_reads (Checks.reads (checks_sanityCheckRdwrlockMutex debug ?_))
  rintro w rfl
  exact hv

/-- Under a writer `wfe_mutex_rwlock_rdlock` never returns. -/
theorem still_rdlock (hF : F.WaitsOk) (lowPower : Bool) :
    Spec (still TOP_BIT) (RwlockCall.prog debug F (.rdlock lowPower)) () fun _ _ => False := by
  have hbody : Spec (still TOP_BIT) (rwlockRdlock debug F lowPower) () fun _ _ => False := by
    unfold rwlockRdlock
    refine Spec.seq (still_check debug (Or.inl rfl)) fun _ _ _ => ?_
    refine Spec.seq (still_exchange (by decide)) ?_
    rintro _ _ rfl
    -- the masked value of a write-locked word is 0
    refine Spec.seq (still_exchange (by decide)) ?_
    rintro _ _ rfl
    refine Spec.iter (I := fun _ _ => True) (fun _ _ _ => ?_) trivial
    refine Spec.seq (still_reads (hF.bitNotSet _ 31 lowPower)) ?_
    rintro r _ ⟨rfl, hbit⟩
    exact absurd ((bitAt_top_eq_zero_iff _).mp hbit) (by decide)
  exact Spec.seq hbody fun _ _ h => h.elim

/-- On a word other than 0 `wfe_mutex_rwlock_wrlock` never returns. -/
theorem still_wrlock (hF : F.WaitsOk) (hv : v = TOP_BIT ∨ v.toNat < 2 ^ 31) (hne : v ≠ 0)
    (lowPower : Bool) :
    Spec (still v) (RwlockCall.prog debug F (.wrlock lowPower)) () fun _ _ => False := by
  have hbody : Spec (still v) (rwlockWrlock debug F lowPower) () fun _ _ => False := by
    unfold rwlockWrlock exclusiveLock
    refine Spec.seq (still_check debug hv) fun _ _ _ => ?_
    refine Spec.seq (still_exchange hne) ?_
    rintro _ _ rfl
    refine Spec.iter (I := fun _ _ => True) (fun _ _ _ => ?_) trivial
    refine Spec.seq (still_reads (hF.value _ 0 lowPower)) fun _ _ hzero => ?_
    exact absurd hzero.symm hne
  exact Spec.seq hbody fun _ _ h => h.elim

end

/-! ## From the word to the lock -/

section
variable {Tid : Type} [DecidableEq Tid]

theorem exec_word {t : Tid} {c : RwlockCall} {o : Op 32} {a : o.Ans} {m m' : LockMem Tid}
    (h : (rwlockApi.world Tid).exec t c o a m m') : Effect m.word o a m'.word := by
  obtain ⟨v, heff, rfl⟩ := h
  rw [LockMem.answer_word]
  exact heff

/-- Starting a call does not touch the word. -/
theorem call_inv {prog : RwlockCall → Prog (atomics 32) Bool} {s s' : Pool (rwlockApi.world Tid)}
    {t : Tid} {c : RwlockCall} (hcall : Pool.Step prog s (.call t c) s') :
    s'.mem.word = s.mem.word ∧ s'.thread t = some (c, prog c) := by
  cases hcall with
  | call ht hmem =>
    obtain ⟨-, rfl⟩ := hmem
    exact ⟨rfl, Pool.put_thread_self ..⟩

/-- From the word to the state of the lock. -/
theorem returnsWithin_of_word {prog : RwlockCall → Prog (atomics 32) Bool}
    {s : Pool (rwlockApi.world Tid)} {t : Tid} {c : RwlockCall} {Q : Bool → Prop} {n : Nat}
    {p : Prog (atomics 32) Bool} (ht : s.thread t = some (c, p))
    (h : Within wordStep (fun r _ => Q r) n p s.mem.word) :
    ReturnsWithin prog t c (fun r _ => Q r) (n + 1) s := by
  refine returnsWithin_of_within wordStep (fun m : LockMem Tid => m.word) ?_ ?_ ?_ ht h
  · intro o a m m' hexec
    exact exec_word hexec
  · intro o a m v heff
    exact ⟨_, v, heff, rfl⟩
  · intro r m hr
    exact ⟨⟨_, rfl⟩, fun _ _ => hr⟩

/-- The same of a call that never returns. -/
theorem neverReturns_of_word {prog : RwlockCall → Prog (atomics 32) Bool}
    {s : Pool (rwlockApi.world Tid)} {t : Tid} {c : RwlockCall} {p : Prog (atomics 32) Bool}
    (ht : s.thread t = some (c, p)) (h : Spec (still s.mem.word) p () fun _ _ => False) :
    NeverReturns prog t s := by
  refine neverReturns_of_spec (P := still s.mem.word)
    (R := fun _ (m : LockMem Tid) => m.word = s.mem.word) ?_ ht h rfl
  intro _ o a m m' hword hpre hexec
  have heff := exec_word hexec
  rw [hword] at heff
  exact ⟨(), ⟨_, heff⟩, hpre a _ heff⟩

/-- What the word of a reachable state is, and what it says of the holders. -/
theorem rwlock_word {prog : RwlockCall → Prog (atomics 32) Bool} (hconf : rwlockApi.Conforms prog)
    {s : Pool (rwlockApi.world Tid)} (hs : rwlockApi.Reachable prog s) :
    (s.mem.word = TOP_BIT ∨ s.mem.word.toNat < 2 ^ 31) ∧
      (s.mem.word.toNat < 2 ^ 31 ↔ s.mem.abs.writer = none) ∧
      (s.mem.word = 0 ↔ s.mem.abs.writer = none ∧ s.mem.abs.readers = 0) := by
  obtain ⟨henc, -, hroom⟩ := LockApi.encodes hconf hs
  cases hw : s.mem.abs.writer with
  | some u =>
    have hword : s.mem.word = TOP_BIT := henc.of_writer hw
    rw [hword]
    refine ⟨Or.inl rfl, iff_of_false (by decide) (Option.some_ne_none u), ?_⟩
    exact iff_of_false (by decide) fun h => Option.some_ne_none u h.1
  | none =>
    have hcard := henc.of_free hw
    have hlt : s.mem.word.toNat < 2 ^ 31 := by
      rw [hcard]
      exact hroom
    refine ⟨Or.inr hlt, iff_of_true hlt rfl, ?_⟩
    rw [← Multiset.card_eq_zero, ← hcard]
    constructor
    · intro hzero
      rw [hzero]
      exact ⟨rfl, rfl⟩
    · intro h
      exact BitVec.eq_of_toNat_eq h.2

/-- What a thread that has just started `c` in the state `s` can count on when it runs alone. -/
def SoloOutcome (prog : RwlockCall → Prog (atomics 32) Bool) (s : Pool (rwlockApi.world Tid))
    (t : Tid) (c : RwlockCall) (s' : Pool (rwlockApi.world Tid)) : Prop :=
  match c with
  | .rdlock _ =>
    (s.mem.abs.writer = none → ReturnsWithin prog t c (fun r _ => r = true) 4 s') ∧
      (s.mem.abs.writer ≠ none → NeverReturns prog t s')
  | .wrlock _ =>
    (s.mem.abs.writer = none ∧ s.mem.abs.readers = 0 →
        ReturnsWithin prog t c (fun r _ => r = true) 4 s') ∧
      (¬ (s.mem.abs.writer = none ∧ s.mem.abs.readers = 0) → NeverReturns prog t s')
  | .trylock =>
    ReturnsWithin prog t c
      (fun r _ => r = true ↔ s.mem.abs.writer = none ∧ s.mem.abs.readers = 0) 4 s'
  | .trylockShared =>
    ReturnsWithin prog t c (fun r _ => r = true ↔ s.mem.abs.writer = none) 4 s'
  | .timedwrlock _ _ | .unlock | .readUnlock => True

/-- **What a call comes to** when it is left alone from its start. -/
theorem soloOutcome_of_call (P : Platform) (debug : Bool) {s s' : Pool (rwlockApi.world Tid)}
    {t : Tid} {c : RwlockCall}
    (hs : rwlockApi.Reachable (RwlockCall.prog debug P.features) s)
    (hcall : Pool.Step (RwlockCall.prog debug P.features) s (.call t c) s') :
    SoloOutcome (RwlockCall.prog debug P.features) s t c s' := by
  obtain ⟨hword, hwriter, hfree⟩ := rwlock_word (rwlockApi_conforms debug P) hs
  obtain ⟨hsame, ht⟩ := call_inv hcall
  rw [← hsame] at hword hwriter hfree
  cases c with
  | rdlock lowPower =>
    constructor
    · intro hnone
      exact returnsWithin_of_word ht (within_rdlock debug P.features (hwriter.mpr hnone) lowPower)
    · intro hsome
      obtain htop : s'.mem.word = TOP_BIT := by
        rcases hword with htop | hlt
        · exact htop
        · exact absurd (hwriter.mp hlt) hsome
      refine neverReturns_of_word ht ?_
      rw [htop]
      exact still_rdlock debug P.waitsOk lowPower
  | wrlock lowPower =>
    constructor
    · intro hnobody
      refine returnsWithin_of_word ht ?_
      rw [hfree.mpr hnobody]
      exact within_wrlock debug P.features lowPower
    · intro hheld
      have hne : s'.mem.word ≠ 0 := fun hzero => hheld (hfree.mp hzero)
      exact neverReturns_of_word ht (still_wrlock debug P.waitsOk hword hne lowPower)
  | trylock =>
    refine returnsWithin_of_word ht ?_
    rw [← hfree]
    exact within_trylock debug P.features hword
  | trylockShared =>
    refine returnsWithin_of_word ht ?_
    rw [← hwriter]
    exact within_trylockShared debug P.features hword
  | timedwrlock | unlock | readUnlock => trivial

/-! ## How `wfe_mutex_rwlock_trylock_shared` fails -/

/-- Every state inside a run within the bound is reachable. -/
theorem reachable_run {prog : RwlockCall → Prog (atomics 32) Bool}
    {s s' : Pool (rwlockApi.world Tid)} {tr : List (Trans (rwlockApi.world Tid))}
    (hs : rwlockApi.Reachable prog s) (hrun : Run prog s tr s')
    (hroom : ∀ x ∈ tr, rwlockApi.Room x.dst.mem) : rwlockApi.Reachable prog s' :=
  hrun.keeps (fun _ _ _ hs hstep hok => hs.step hstep hok) hroom hs

/-- In the debug build a call first makes its check; then it is where the other build starts. -/
theorem run_past_check (P : Platform) (debug : Bool) {s s' : Pool (rwlockApi.world Tid)}
    {tr : List (Trans (rwlockApi.world Tid))} {t : Tid} {c : RwlockCall} {r : Bool}
    {f : Unit → Prog (atomics 32) Bool}
    (hs : rwlockApi.Reachable (RwlockCall.prog debug P.features) s)
    (hrun : Run (RwlockCall.prog debug P.features) s tr s')
    (hroom : ∀ x ∈ tr, rwlockApi.Room x.dst.mem)
    (ht : s.thread t = some (c, (sanityCheckRdwrlockMutex debug).bind f))
    (hret : s'.thread t = some (c, .ret r)) :
    ∃ tr₁ tr₂ s₁, tr = tr₁ ++ tr₂ ∧ Run (RwlockCall.prog debug P.features) s₁ tr₂ s' ∧
      rwlockApi.Reachable (RwlockCall.prog debug P.features) s₁ ∧ s₁.thread t = some (c, f ()) := by
  cases debug with
  | false => exact ⟨[], tr, s, rfl, hrun, hs, ht⟩
  | true =>
    obtain ⟨tr₁, x, tr₂, v, rfl, -, -, hexec, hrun₁, hstep, hrun₂, hthread⟩ :=
      hrun.next_op ht hret
    have hsrc := reachable_run hs hrun₁ fun y hy => hroom y (List.mem_append_left _ hy)
    have hdst := hsrc.step hstep (hroom x (List.mem_append_right _ List.mem_cons_self))
    obtain ⟨hword, -, -⟩ := rwlock_word (rwlockApi_conforms true P) hsrc
    -- the check's load has shown the word of a lock
    have hv : v = x.src.mem.word := (exec_word hexec).sees rfl
    have hcheck := sanityCheckRdwrlockValue_eq true (hv ▸ hword)
    refine ⟨tr₁ ++ [x], tr₂, x.dst, ?_, hrun₂, hdst, ?_⟩
    · rw [List.append_assoc]
      rfl
    · rw [hthread]
      show some (c, (sanityCheckRdwrlockValue true v).bind f) = _
      rw [hcheck]
      rfl

/-- **Reader priority under interference.**  If a call of `wfe_mutex_rwlock_trylock_shared` fails,
    a writer held the lock when the call loaded the word, or another thread changed the word
    between that load and the call's exchange. -/
theorem trylockShared_fails (P : Platform) (debug : Bool) {s₀ s₁ s₂ s₃ : Pool (rwlockApi.world Tid)}
    {mid : List (Trans (rwlockApi.world Tid))} {t : Tid}
    (hs : rwlockApi.Reachable (RwlockCall.prog debug P.features) s₀)
    (hcall : Pool.Step (RwlockCall.prog debug P.features) s₀ (.call t .trylockShared) s₁)
    (hrun : Run (RwlockCall.prog debug P.features) s₁ mid s₂)
    (hroom : ∀ x ∈ mid, rwlockApi.Room x.dst.mem)
    (hin : ∀ x ∈ mid, ∀ c r, x.ev ≠ .ret t c r)
    (hret : Pool.Step (RwlockCall.prog debug P.features) s₂ (.ret t .trylockShared false) s₃) :
    ∃ tr₁ x tr₂ y tr₃ v a, mid = tr₁ ++ x :: tr₂ ++ y :: tr₃ ∧
      x.ev = .op t .trylockShared (.loadN .acquire) v ∧
      y.ev = .op t .trylockShared (.compareExchangeN (v &&& ~~~TOP_BIT) ((v &&& ~~~TOP_BIT) + 1)
        .acquire .acquire) a ∧
      (x.src.mem.abs.writer ≠ none ∨
        ∃ z ∈ tr₂, z.ev.tid ≠ t ∧ z.dst.mem.word ≠ z.src.mem.word) := by
  have hconf := rwlockApi_conforms debug P
  obtain ⟨-, ht₁⟩ := call_inv hcall
  have ht₂ : s₂.thread t = some (.trylockShared, .ret false) := by
    cases hret with
    | ret ht _ => exact ht
  have hs₁ : rwlockApi.Reachable (RwlockCall.prog debug P.features) s₁ := by
    refine hs.step hcall ?_
    cases hcall with
    | call _ hmem =>
      obtain ⟨-, rfl⟩ := hmem
      exact (LockApi.encodes hconf hs).2.2
  obtain ⟨tr₁, tr₂, s₁', rfl, hrun', hs₁', ht₁'⟩ := run_past_check P debug hs₁ hrun hroom ht₁ ht₂
  -- the load
  obtain ⟨tr₃, x, tr₄, v, rfl, -, hx, hexec, hrun₃, hstep, hrun₄, hthread⟩ :=
    hrun'.next_op ht₁' ht₂
  -- the exchange
  obtain ⟨tr₅, y, tr₆, a, rfl, hothers, hy, hexec', hrun₅, hstep', hrun₆, hthread'⟩ :=
    hrun₄.next_op hthread ht₂
  refine ⟨tr₁ ++ tr₃, x, tr₅, y, tr₆, v, a, by simp, hx, hy, ?_⟩
  -- nothing of the call is left but its result
  have hdone : y.dst.thread t = some (.trylockShared, .ret a.1) := by
    rw [hthread']
    obtain ⟨exchanged, w⟩ := a
    cases exchanged <;> rfl
  have hlast := hrun₆.thread_ret hdone fun z hz => hin z (by simp [hz])
  have hfail : a.1 = false := by
    rw [ht₂] at hlast
    generalize a.1 = b at hlast
    cases hlast
    rfl
  obtain ⟨hne, -, -⟩ := (exec_word hexec').differs_inv hfail
  have hload := exec_word hexec
  have hv : v = x.src.mem.word := hload.sees rfl
  have hsame : x.dst.mem.word = x.src.mem.word := hload.eq_of_not_writes rfl
  by_cases hwriter : x.src.mem.abs.writer = none
  · right
    have hsrc := reachable_run hs₁' hrun₃ fun z hz => hroom z (by simp [hz])
    obtain ⟨-, hiff, -⟩ := rwlock_word hconf hsrc
    rw [hv, and_not_top_eq_self (hiff.mpr hwriter), ← hsame] at hne
    obtain ⟨z, hz, hchange⟩ := hrun₅.exists_change (fun m : LockMem Tid => m.word) hne
    exact ⟨z, hz, hothers z hz, hchange⟩
  · exact Or.inl hwriter

/-- **Solo completion and reader priority.**  From any reachable state, with the other threads
    stopped wherever they are, a thread that calls and then runs alone gets what `SoloOutcome`
    says: `rdlock` returns within four steps of its own if nobody holds the lock for writing and
    never if somebody does, `wrlock` if nobody holds it at all and never otherwise, and the two try
    functions answer exactly whether they could have the lock.  Under interference,
    `trylock_shared` fails only if a writer held the lock at its load, or another thread changed
    the word between its load and its exchange. -/
theorem rwlock_solo (P : Platform) (debug : Bool) :
    (∀ (s s' : Pool (rwlockApi.world Tid)) t c,
        rwlockApi.Reachable (RwlockCall.prog debug P.features) s →
        Pool.Step (RwlockCall.prog debug P.features) s (.call t c) s' →
        SoloOutcome (RwlockCall.prog debug P.features) s t c s') ∧
      ∀ (s₀ s₁ s₂ s₃ : Pool (rwlockApi.world Tid)) mid t,
        rwlockApi.Reachable (RwlockCall.prog debug P.features) s₀ →
        Pool.Step (RwlockCall.prog debug P.features) s₀ (.call t .trylockShared) s₁ →
        Run (RwlockCall.prog debug P.features) s₁ mid s₂ →
        (∀ x ∈ mid, rwlockApi.Room x.dst.mem) → (∀ x ∈ mid, ∀ c r, x.ev ≠ .ret t c r) →
        Pool.Step (RwlockCall.prog debug P.features) s₂ (.ret t .trylockShared false) s₃ →
        ∃ tr₁ x tr₂ y tr₃ v a, mid = tr₁ ++ x :: tr₂ ++ y :: tr₃ ∧
          x.ev = .op t .trylockShared (.loadN .acquire) v ∧
          y.ev = .op t .trylockShared (.compareExchangeN (v &&& ~~~TOP_BIT)
            ((v &&& ~~~TOP_BIT) + 1) .acquire .acquire) a ∧
          (x.src.mem.abs.writer ≠ none ∨
            ∃ z ∈ tr₂, z.ev.tid ≠ t ∧ z.dst.mem.word ≠ z.src.mem.word) := by
  constructor
  · intro s s' t c hs hcall
    exact soloOutcome_of_call P debug hs hcall
  · intro s₀ s₁ s₂ s₃ mid t hs hcall hrun hroom hin hret
    exact trylockShared_fails P debug hs hcall hrun hroom hin hret

end

/-- Thread `true` is inside `wfe_mutex_rwlock_trylock`, past its exchange; thread `false` starts
    `wfe_mutex_rwlock_rdlock`, and if it runs alone from there, it never returns. -/
theorem rwlock_solo_writer :
    ∃ s s' : Pool (rwlockApi.world Bool),
      rwlockApi.Reachable (RwlockCall.prog false Platform.uninitialised.features) s ∧
        s.mem.abs.writer = some true ∧
        Pool.Step (RwlockCall.prog false Platform.uninitialised.features) s
          (.call false (.rdlock false)) s' ∧
        NeverReturns (RwlockCall.prog false Platform.uninitialised.features) false s' := by
  have hroom : 0 < 2 ^ 31 := Nat.two_pow_pos 31
  have h0 := Reach.start (W := rwlockApi.world Bool)
    (RwlockCall.prog false Platform.uninitialised.features) rwlockApi.Room
    (LockMem.initializer Bool)
  have h1 := h0.step (.call (t := true) (c := RwlockCall.trylock) rfl ⟨trivial, rfl⟩) hroom
  have h2 := h1.step (.op (t := true) (c := RwlockCall.trylock) rfl
    ⟨_, .exchanged 0 TOP_BIT _ _, rfl⟩) hroom
  obtain ⟨s, hs, hwriter, hidle⟩ : ∃ s : Pool (rwlockApi.world Bool),
      rwlockApi.Reachable (RwlockCall.prog false Platform.uninitialised.features) s ∧
        s.mem.abs.writer = some true ∧ s.thread false = none := ⟨_, h2, rfl, rfl⟩
  have hcall : Pool.Step (RwlockCall.prog false Platform.uninitialised.features) s
      (.call false (.rdlock false)) _ := .call hidle ⟨trivial, rfl⟩
  have houtcome := (rwlock_solo Platform.uninitialised false).1 s _ false (.rdlock false) hs hcall
  refine ⟨s, _, hs, hwriter, hcall, houtcome.2 ?_⟩
  rw [hwriter]
  exact Option.some_ne_none true

end WfeMutex
