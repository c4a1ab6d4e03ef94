/-
  HOW LONG CAN A TIMED LOCK TAKE?

  Each wait of `wfe_mutex_lock_timedlock` and `wfe_mutex_rwlock_timedwrlock` has the whole timeout,
  so the call has no deadline of its own (`Lock.Timed`).  It has a bound all the same, as long as
  every sleep has a timer (`TimedWait.HasTimer`): it waits once for each exchange it has lost, each
  wait is over in time (`Wait.Overshoot`), and after the first one an exchange is only lost where
  another thread has written the word in between (`Lock.Retry`).

  So the call takes two steps, and one timeout and ten steps for each of its waits, of which there
  is one more than there are writes by other threads while it is under way (`timedwrlock_overrun`,
  `timedlock_overrun`).  A lock that is given back and taken again all the time keeps it there; a
  lock that is just held does so for one timeout only.
-/
import WfeMutex.Lock.Retry
import WfeMutex.Wait.Overshoot
import WfeMutex.Wait.Table

set_option linter.unusedVariables false

namespace WfeMutex

open Conc
open Function (update update_self update_of_ne)

/-! ## The calls -/

/-- What a call that began at `start` is allowed after it has lost `lost` exchanges: two steps for
    the first check and exchange, and a wait, a check and an exchange behind each loss. -/
def allowance (δ : Nat) (total : BitVec 64) (start lost : Nat) : Nat :=
  start + 2 * δ + lost * (total.toNat + 10 * δ)

/-- A timed lock under way: what the counter has counted, and the exchanges lost so far.  No
    operation begins later than the allowance. -/
def contending (δ : Nat) (total : BitVec 64) (start : Nat) : Proto (atomics 32) (Nat × Nat) where
  pre l _ := l.1 ≤ allowance δ total start l.2
  post l o a l' := (elapsing δ total).post l.1 o a l'.1 ∧
    l'.2 = l.2 + if o.loses a = true then 1 else 0

section
variable {δ start now k : Nat} {total : BitVec 64} {debug : Bool}

/-- One more lost exchange allows one more wait. -/
theorem allowance_succ (δ start k : Nat) (total : BitVec 64) :
    allowance δ total start (k + 1) = allowance δ total start k + total.toNat + 10 * δ := by
  unfold allowance
  rw [Nat.add_one_mul k (total.toNat + 10 * δ)]
  omega

/-- A step that is no exchange. -/
theorem contend_act {o : Op 32} (h : now ≤ allowance δ total start k)
    (ho : ∀ a, o.loses a = false) (hstep : ∀ now' a, (elapsing δ total).post now o a now' →
      now' ≤ now + δ) :
    Spec (contending δ total start) (act o) (now, k) fun _ l => l.1 ≤ now + δ ∧ l.2 = k := by
  refine spec_act h ?_
  rintro a ⟨now', k'⟩ ⟨helapsed, hk⟩
  rw [ho a] at hk
  exact ⟨hstep now' a helapsed, hk⟩

theorem contend_printError {α : Type} {msg : String} {Q : α → Nat × Nat → Prop}
    (h : now ≤ allowance δ total start k) :
    Spec (contending δ total start) (printError (w := 32) msg) (now, k) Q :=
  Spec.op h fun a => a.elim

theorem contend_sanityCheckWrlockMutex (h : now + δ ≤ allowance δ total start k) :
    Spec (contending δ total start) (sanityCheckWrlockMutex debug) (now, k)
      fun _ l => l.1 ≤ now + δ ∧ l.2 = k := by
  cases debug with
  | false => exact Spec.pure ⟨by omega, rfl⟩
  | true =>
    refine Spec.seq (contend_act (o := .loadN .seqCst) (by omega) (fun _ => rfl)
      fun _ _ h => h.2) ?_
    rintro value ⟨now', k'⟩ ⟨hle, hk⟩
    obtain rfl : k' = k := hk
    have hnow : now' ≤ now + δ := hle
    unfold sanityCheckWrlockValue
    simp only [if_true]
    split
    · exact contend_printError (by omega)
    · exact Spec.pure ⟨hle, rfl⟩

theorem contend_sanityCheckRdwrlockMutex (h : now + δ ≤ allowance δ total start k) :
    Spec (contending δ total start) (sanityCheckRdwrlockMutex debug) (now, k)
      fun _ l => l.1 ≤ now + δ ∧ l.2 = k := by
  cases debug with
  | false => exact Spec.pure ⟨by omega, rfl⟩
  | true =>
    refine Spec.seq (contend_act (o := .loadN .seqCst) (by omega) (fun _ => rfl)
      fun _ _ h => h.2) ?_
    rintro value ⟨now', k'⟩ ⟨hle, hk⟩
    obtain rfl : k' = k := hk
    have hnow : now' ≤ now + δ := hle
    unfold sanityCheckRdwrlockValue
    simp only [if_true]
    split
    · split
      · exact contend_printError (by omega)
      · exact Spec.pure ⟨hle, rfl⟩
    · exact Spec.pure ⟨hle, rfl⟩

theorem contend_exchange {e d : BitVec 32} (h : now ≤ allowance δ total start k) :
    Spec (contending δ total start) (atomicCompareExchangeN e d .acquire .acquire) (now, k)
      fun a l => l.1 ≤ now + δ ∧ l.2 = if a.1 then k else k + 1 := by
  refine spec_act h ?_
  rintro ⟨exchanged, seen⟩ ⟨now', k'⟩ ⟨⟨-, hle⟩, hk⟩
  refine ⟨hle, ?_⟩
  cases exchanged with
  | true => exact hk
  | false => exact hk

/-- A wait of the call is over in time, and loses nothing. -/
theorem contend_wait {b : TimedWait 32} {F : CycleScale} {nanoseconds : BitVec 64}
    (lowPower : Bool) (htotal : cyclesForNanoseconds F nanoseconds = some total)
    (htimer : b.HasTimer total)
    (h : now + total.toNat + 8 * δ ≤ allowance δ total start k) :
    Spec (contending δ total start) (b.run F 0 nanoseconds lowPower) (now, k)
      fun _ l => l.1 ≤ now + total.toNat + 8 * δ ∧ l.2 = k := by
  have hwait : Spec (passing δ total (now + total.toNat + 8 * δ)) (b.run F 0 nanoseconds lowPower)
      now fun _ now' => now' ≤ now + total.toNat + 8 * δ :=
    b.passes 0 lowPower htotal htimer le_rfl
  refine (Spec.embed (R := fun now l => l = (now, k)) ?_ ?_ hwait rfl).mono ?_
  · rintro now' _ o rfl ⟨hle, -⟩
    show now' ≤ allowance δ total start k
    omega
  · rintro now' _ o a ⟨now'', k'⟩ rfl ⟨-, hquiet⟩ ⟨helapsed, hk⟩
    refine ⟨now'', helapsed, ?_⟩
    have hlose : o.loses a = false := by
      cases o with
      | compareExchangeN => cases hquiet
      | _ => rfl
    rw [hlose] at hk
    exact congrArg _ hk
  · rintro r _ ⟨now', rfl, hle⟩
    exact ⟨hle, rfl⟩

/-- **A timed lock** keeps within its allowance. -/
theorem contend_exclusiveTimedlock {F : Features} {b : TimedWait 32}
    {check : Prog (atomics 32) Unit} (desired : BitVec 32) {nanoseconds : BitVec 64}
    (hb : F.waitForValueTimeoutI32 = b.run)
    (hcheck : ∀ {now k}, now + δ ≤ allowance δ total start k →
      Spec (contending δ total start) check (now, k) fun _ l => l.1 ≤ now + δ ∧ l.2 = k)
    (htotal : cyclesForNanoseconds F.toCycleScale nanoseconds = some total)
    (htimer : b.HasTimer total) (lowPower : Bool) :
    Spec (contending δ total start) (exclusiveTimedlock F check desired nanoseconds lowPower)
      (start, 0) fun _ l => l.1 ≤ allowance δ total start l.2 := by
  have hzero : allowance δ total start 0 = start + 2 * δ := by simp [allowance]
  unfold exclusiveTimedlock
  rw [hb]
  refine Spec.seq (hcheck (by omega)) ?_
  rintro _ ⟨now₁, _⟩ ⟨h₁, rfl⟩
  have h₁ : now₁ ≤ start + δ := h₁
  refine Spec.seq (contend_exchange (by omega)) ?_
  rintro ⟨exchanged, seen⟩ ⟨now₂, k⟩ ⟨h₂, hk⟩
  have h₂ : now₂ ≤ now₁ + δ := h₂
  cases exchanged with
  | true =>
    obtain rfl : k = 0 := hk
    refine Spec.pure ?_
    show now₂ ≤ allowance δ total start 0
    omega
  | false =>
    obtain rfl : k = 1 := hk
    -- at the head of the loop nothing of the last loss has been spent
    refine Spec.iter (I := fun _ l => ∃ k, l.2 = k + 1 ∧ l.1 ≤ allowance δ total start k) ?_
      ⟨0, rfl, by show now₂ ≤ _; omega⟩
    rintro _ ⟨now, _⟩ ⟨k, rfl, hnow⟩
    have hnow : now ≤ allowance δ total start k := hnow
    have hsucc := allowance_succ δ start k total
    refine Spec.seq (contend_wait lowPower htotal htimer (by omega)) ?_
    rintro arrived ⟨now₃, _⟩ ⟨h₃, rfl⟩
    have h₃ : now₃ ≤ now + total.toNat + 8 * δ := h₃
    cases arrived with
    | false =>
      refine Spec.pure ?_
      show now₃ ≤ allowance δ total start (k + 1)
      omega
    | true =>
      refine Spec.seq (hcheck (by omega)) ?_
      rintro _ ⟨now₄, _⟩ ⟨h₄, rfl⟩
      have h₄ : now₄ ≤ now₃ + δ := h₄
      refine Spec.seq (contend_exchange (by omega)) ?_
      rintro ⟨exchanged, seen⟩ ⟨now₅, k'⟩ ⟨h₅, hk'⟩
      have h₅ : now₅ ≤ now₄ + δ := h₅
      cases exchanged with
      | true =>
        obtain rfl : k' = k + 1 := hk'
        refine Spec.pure ?_
        show now₅ ≤ allowance δ total start (k + 1)
        omega
      | false =>
        obtain rfl : k' = k + 1 + 1 := hk'
        exact Spec.pure ⟨k + 1, rfl, by show now₅ ≤ _; omega⟩

end

/-! ## In a run -/

/-- The lost exchanges in a list of operations. -/
def losses (acts : List (Act (atomics 32))) : Nat := acts.countP fun x => Op.loses x.1 x.2

/-- The operations of a call and the time they take are admitted with the count. -/
theorem contending_admits {δ start now now' k : Nat} {total : BitVec 64}
    {acts : List (Act (atomics 32))} (h : (elapsing δ total).Admits now acts now') :
    (contending δ total start).Admits (now, k) acts (now', k + losses acts) := by
  induction h generalizing k with
  | nil now => exact .nil _
  | @cons now now₁ now₂ o a acts helapsed _ ih =>
    have hcons : losses (⟨o, a⟩ :: acts) = losses acts + if o.loses a = true then 1 else 0 :=
      List.countP_cons ..
    have hlosses : k + losses (⟨o, a⟩ :: acts) =
        (k + if o.loses a = true then 1 else 0) + losses acts := by omega
    have hstep : (contending δ total start).post (now, k) o a
        (now₁, k + if o.loses a = true then 1 else 0) := ⟨helapsed, rfl⟩
    rw [hlosses]
    exact .cons hstep ih

section
variable {Call Tid : Type} [DecidableEq Tid] {A : LockApi Call} {attempts : Call → Nat}
  {prog : Call → Prog (atomics 32) Bool} {s₀ s₁ s : Pool (A.world Tid)} {t : Tid} {c : Call}
  {tr : List (Trans (A.world Tid))}

/-- The thread is inside a call, about to perform an operation or to return. -/
def Engaged (s : Pool (A.world Tid)) (t : Tid) : Prop :=
  ∃ d, (∃ o k, s.thread t = some (d, @Prog.op (atomics 32) Bool o k)) ∨
    ∃ r, s.thread t = some (d, .ret r)

theorem tally_cons (f : Event (atomics 32) Tid Call Bool → Nat) (x : Trans (A.world Tid)) :
    tally f (x :: tr) = f x.ev + tally f tr := by
  simp [tally]

/-- What a thread has lost is what its operations have. -/
theorem losses_actsOf (t : Tid) (tr : List (Trans (A.world Tid))) :
    losses (actsOf t tr) = tally (lost t) tr := by
  induction tr with
  | nil => rfl
  | cons x tr ih =>
    rw [tally_cons, ← ih]
    rcases x with ⟨s, e, s'⟩
    cases e with
    | op u d o a =>
      by_cases hu : u = t
      · simp only [actsOf, actOf, hu, losses, lost, if_true, List.filterMap_cons, true_and,
          List.countP_cons]
        omega
      · simp [actsOf, actOf, hu, losses, lost]
    | call | jump | ret | client => simp [actsOf, actOf, losses, lost]

/-- A thread that starts no call is granted nothing. -/
theorem granted_eq_zero (h : ∀ x ∈ tr, ∀ d, x.ev ≠ .call t d) :
    tally (granted t attempts) tr = 0 := by
  induction tr with
  | nil => rfl
  | cons x tr ih =>
    rw [tally_cons, ih fun y hy => h y (List.mem_cons_of_mem _ hy)]
    have hx := h x List.mem_cons_self
    cases hev : x.ev with
    | call u d =>
      have hu : u ≠ t := fun hu => hx d (by rw [hev, hu])
      simp [granted, hu]
    | _ => rfl

/-- **The overrun of a call** with one free attempt, which keeps within its allowance. -/
theorem LockApi.overrun {δ start now : Nat} {total : BitVec 64} (hconf : A.Conforms prog)
    (hstrive : A.Strives attempts prog) (hone : attempts c = 1)
    (hspec : Spec (contending δ total start) (prog c) (start, 0)
      fun _ l => l.1 ≤ allowance δ total start l.2)
    (hs : A.Reachable prog s₀) (hcall : Pool.Step prog s₀ (.call t c) s₁) (hrun : Run prog s₁ tr s)
    (hroom : ∀ x ∈ ⟨s₀, .call t c, s₁⟩ :: tr, A.Room x.dst.mem)
    (hinside : ∀ x ∈ tr, ∀ d, x.ev ≠ .call t d)
    (htime : (elapsing δ total).Admits start (actsOf t tr) now) (hengaged : Engaged s t) :
    now ≤ allowance δ total start (1 + tally (interference t) tr) := by
  have hle := LockApi.lost_le hconf hstrive hs (.cons hcall hrun) hroom t
  have hidle : s₀.thread t = none := by
    cases hcall with
    | call hnone _ => exact hnone
  have hlosses : losses (actsOf t tr) ≤ 1 + tally (interference t) tr := by
    rw [tally_cons, tally_cons, tally_cons, granted_eq_zero hinside, ← losses_actsOf] at hle
    simp only [outstanding, hidle, lost, granted, interference, if_true, hone] at hle
    omega
  have hallowed : now ≤ allowance δ total start (0 + losses (actsOf t tr)) := by
    have hadm : (contending δ total start).Admits (start, 0) (actsOf t tr)
        (now, 0 + losses (actsOf t tr)) := contending_admits htime
    obtain ⟨d, ⟨o, k, hthread⟩ | ⟨r, hthread⟩⟩ := hengaged
    · obtain ⟨-, htrace⟩ := actsOf_trace hcall hrun hinside hthread
      exact (hspec.along htrace hadm).out.1
    · obtain ⟨-, htrace⟩ := actsOf_trace hcall hrun hinside hthread
      exact (hspec.along htrace hadm).out
  have hmono : losses (actsOf t tr) * (total.toNat + 10 * δ) ≤
      (1 + tally (interference t) tr) * (total.toNat + 10 * δ) :=
    Nat.mul_le_mul_right _ hlosses
  unfold allowance at hallowed ⊢
  rw [Nat.zero_add] at hallowed
  omega

end

section
variable {Tid : Type} [DecidableEq Tid]

/-- The timed wait a table offers to the locks is that of its wait type. -/
theorem Platform.timedWait (P : Platform) :
    P.features.waitForValueTimeoutI32 = (P.features.waitTypeTimeout.timed 32).run :=
  congrArg WaitTable.waitForValueTimeout P.coherent.i32

/-- **How long `wfe_mutex_rwlock_timedwrlock` takes**, in every run and on every platform whose
    timed waits have timers: as long as it is inside, the counter has counted no more than two
    steps, for its first check and exchange, and one timeout and ten steps for its first wait and
    again for each write of the word by the other threads since it began. -/
theorem timedwrlock_overrun (P : Platform) (debug lowPower : Bool) (nanoseconds total : BitVec 64)
    (htotal : cyclesForNanoseconds P.features.toCycleScale nanoseconds = some total)
    (htimer : (P.features.waitTypeTimeout.timed 32).HasTimer total)
    (s₀ s₁ s : Pool (rwlockApi.world Tid)) (t : Tid) (tr : List (Trans (rwlockApi.world Tid)))
    (hs : rwlockApi.Reachable (RwlockCall.prog debug P.features) s₀)
    (hcall : Pool.Step (RwlockCall.prog debug P.features) s₀
      (.call t (.timedwrlock nanoseconds lowPower)) s₁)
    (hrun : Run (RwlockCall.prog debug P.features) s₁ tr s) (hroom₁ : rwlockApi.Room s₁.mem)
    (hroom : ∀ x ∈ tr, rwlockApi.Room x.dst.mem) (hinside : ∀ x ∈ tr, ∀ d, x.ev ≠ .call t d)
    (δ start now : Nat) (htime : (elapsing δ total).Admits start (actsOf t tr) now)
    (hengaged : Engaged s t) :
    now ≤ start + 2 * δ + (1 + tally (interference t) tr) * (total.toNat + 10 * δ) := by
  refine LockApi.overrun (rwlockApi_conforms debug P) (rwlockApi_strives P debug) rfl ?_ hs hcall
    hrun (List.forall_mem_cons.mpr ⟨hroom₁, hroom⟩) hinside htime hengaged
  exact contend_exclusiveTimedlock TOP_BIT P.timedWait contend_sanityCheckRdwrlockMutex htotal
    htimer lowPower

/-- The same of `wfe_mutex_lock_timedlock`. -/
theorem timedlock_overrun (P : Platform) (debug lowPower : Bool) (nanoseconds total : BitVec 64)
    (htotal : cyclesForNanoseconds P.features.toCycleScale nanoseconds = some total)
    (htimer : (P.features.waitTypeTimeout.timed 32).HasTimer total)
    (s₀ s₁ s : Pool (mutexApi.world Tid)) (t : Tid) (tr : List (Trans (mutexApi.world Tid)))
    (hs : MutexReachable (LockCall.prog debug P.features) s₀)
    (hcall : Pool.Step (LockCall.prog debug P.features) s₀
      (.call t (.timedlock nanoseconds lowPower)) s₁)
    (hrun : Run (LockCall.prog debug P.features) s₁ tr s)
    (hinside : ∀ x ∈ tr, ∀ d, x.ev ≠ .call t d) (δ start now : Nat)
    (htime : (elapsing δ total).Admits start (actsOf t tr) now) (hengaged : Engaged s t) :
    now ≤ start + 2 * δ + (1 + tally (interference t) tr) * (total.toNat + 10 * δ) := by
  have hreach := mutexApi_writeOnly.reachable hs
  obtain ⟨tr₀, hrun₀, -⟩ := hs
  have hroom : ∀ x ∈ ⟨s₀, .call t (.timedlock nanoseconds lowPower), s₁⟩ :: tr,
      mutexApi.Room x.dst.mem := by
    intro x hx
    exact mutexApi_writeOnly.room (hrun₀.append (.cons hcall hrun)) x
      (List.mem_append_right _ hx)
  refine LockApi.overrun (mutexApi_conforms debug P) (mutexApi_strives P debug) rfl ?_ hreach hcall
    hrun hroom hinside htime hengaged
  exact contend_exclusiveTimedlock 1 P.timedWait contend_sanityCheckWrlockMutex htotal htimer
    lowPower

end

/-! ### A timeout of a hundred cycles, while the lock changes hands

Thread `true` has the lock when the timed call of thread `false` begins.  It gives it back in the
middle of the first wait and takes it again before the retry, and then it keeps it. -/

/-- A board with `wfet` and a counter at 31.25 MHz: 3200 ns are a hundred cycles. -/
def wfetBoard : Platform := ⟨.arm64 0x400000 2, true, 31250000, ⟨1, 32⟩⟩

/-- What thread `false` performs: two lost exchanges with a wait behind each. -/
def overtakenActs (held : BitVec 32) : List (Act (atomics 32)) :=
  [⟨.compareExchangeN 0 held .acquire .acquire, (false, held)⟩,
    ⟨.loadN .acquire, held⟩, ⟨.readCycleCounter none, (3 : BitVec 64)⟩,
    ⟨.loadExclusive, held⟩, ⟨.wait (.wfet 103), ()⟩,
    ⟨.loadN .acquire, (0 : BitVec 32)⟩, ⟨.readCycleCounter (some 103), (92 : BitVec 64)⟩,
    ⟨.compareExchangeN 0 held .acquire .acquire, (false, held)⟩,
    ⟨.loadN .acquire, held⟩, ⟨.readCycleCounter none, (95 : BitVec 64)⟩,
    ⟨.loadExclusive, held⟩, ⟨.wait (.wfet 195), ()⟩,
    ⟨.loadN .acquire, held⟩, ⟨.readCycleCounter (some 195), (197 : BitVec 64)⟩]

/-- The counter of these operations, one cycle a step. -/
theorem overtakenActs_time (held : BitVec 32) :
    (elapsing 1 100).Admits 0 (overtakenActs held) 197 := by
  refine .cons ⟨Nat.le_succ 0, Nat.le_refl 1⟩ ?_
  refine .cons ⟨Nat.le_succ 1, Nat.le_refl 2⟩ ?_
  refine .cons ⟨Nat.le_succ 2, Nat.le_refl 3, rfl, by decide⟩ ?_
  refine .cons ⟨Nat.le_succ 3, Nat.le_refl 4⟩ ?_
  -- woken by the release, before the timer
  refine .cons ⟨(by decide : 4 ≤ 90), by rintro d ⟨⟩; decide⟩ ?_
  refine .cons ⟨Nat.le_succ 90, Nat.le_refl 91⟩ ?_
  refine .cons ⟨Nat.le_succ 91, Nat.le_refl 92, rfl⟩ ?_
  refine .cons ⟨Nat.le_succ 92, Nat.le_refl 93⟩ ?_
  refine .cons ⟨Nat.le_succ 93, Nat.le_refl 94⟩ ?_
  refine .cons ⟨Nat.le_succ 94, Nat.le_refl 95, rfl, by decide⟩ ?_
  refine .cons ⟨Nat.le_succ 95, Nat.le_refl 96⟩ ?_
  -- woken by the timer
  refine .cons ⟨(by decide : 96 ≤ 195), by rintro d ⟨⟩; decide⟩ ?_
  refine .cons ⟨Nat.le_succ 195, Nat.le_refl 196⟩ ?_
  exact .cons ⟨Nat.le_succ 196, Nat.le_refl 197, rfl⟩ (.nil _)

/-- The call loses two exchanges and is about to return false at the 197th cycle; two writes were
    not its own. -/
theorem timedwrlock_overrun_overtaken :
    ∃ (s₁ s : Pool (rwlockApi.world Bool)) (tr : List (Trans (rwlockApi.world Bool))),
      Run (RwlockCall.prog false wfetBoard.features) s₁ tr s ∧
      s.thread false = some (.timedwrlock 3200 false, .ret false) ∧
      actsOf false tr = overtakenActs TOP_BIT ∧
      (elapsing 1 100).Admits 0 (actsOf false tr) 197 ∧ tally (interference false) tr = 2 ∧
      197 ≤ 0 + 2 * 1 + (1 + tally (interference false) tr) *
        ((100 : BitVec 64).toNat + 10 * 1) := by
  have hpow : 0 < 2 ^ 31 := Nat.two_pow_pos 31
  have h0 := Reach.start (W := rwlockApi.world Bool)
    (RwlockCall.prog false wfetBoard.features) rwlockApi.Room (LockMem.initializer Bool)
  have h1 := h0.step (.call (t := true) (c := RwlockCall.trylock) rfl ⟨trivial, rfl⟩) hpow
  have h2 := h1.step (.op (t := true) (c := RwlockCall.trylock) rfl
    ⟨_, .exchanged 0 TOP_BIT _ _, rfl⟩) hpow
  have h3 := h2.step (.ret (t := true) (c := RwlockCall.trylock) (r := true) rfl rfl) hpow
  obtain ⟨s₀, s₁, s, tr, hs, hcall, hrun, hroom₁, hroom, hinside, hacts, hwrites, hret⟩ :
      ∃ (s₀ s₁ s : Pool (rwlockApi.world Bool)) (tr : List (Trans (rwlockApi.world Bool))),
        rwlockApi.Reachable (RwlockCall.prog false wfetBoard.features) s₀ ∧
        Pool.Step (RwlockCall.prog false wfetBoard.features) s₀
          (.call false (.timedwrlock 3200 false)) s₁ ∧
        Run (RwlockCall.prog false wfetBoard.features) s₁ tr s ∧
        rwlockApi.Room s₁.mem ∧ (∀ x ∈ tr, rwlockApi.Room x.dst.mem) ∧
        (∀ x ∈ tr, ∀ d, x.ev ≠ .call false d) ∧ actsOf false tr = overtakenActs TOP_BIT ∧
        tally (interference false) tr = 2 ∧
        s.thread false = some (.timedwrlock 3200 false, .ret false) := by
    refine ⟨_, _, _, _, h3, .call rfl ⟨trivial, rfl⟩,
      (.cons (.op (t := false) rfl ⟨_, .differs TOP_BIT _ _ (by decide), rfl⟩)
      (.cons (.jump (t := false) rfl)
      (.cons (.op (t := false) rfl ⟨_, .loadN _ .acquire, rfl⟩)
      (.cons (.op (t := false) rfl ⟨_, .readCycleCounter _ none 3, rfl⟩)
      (.cons (.jump (t := false) rfl)
      (.cons (.op (t := false) rfl ⟨_, .loadExclusive _, rfl⟩)
      (.cons (.op (t := false) rfl ⟨_, .wait _ (.wfet 103), rfl⟩)
      -- the lock is given back
      (.cons (.call (t := true) (c := RwlockCall.unlock) rfl ⟨Nat.one_pos, rfl⟩)
      (.cons (.op (t := true) rfl ⟨_, .storeN _ 0 .release, rfl⟩)
      (.cons (.ret (t := true) rfl rfl)
      (.cons (.op (t := false) rfl ⟨_, .loadN _ .acquire, rfl⟩)
      (.cons (.op (t := false) rfl ⟨_, .readCycleCounter _ (some 103) 92, rfl⟩)
      -- and taken again
      (.cons (.call (t := true) (c := RwlockCall.trylock) rfl ⟨trivial, rfl⟩)
      (.cons (.op (t := true) rfl ⟨_, .exchanged 0 TOP_BIT _ _, rfl⟩)
      (.cons (.op (t := false) rfl ⟨_, .differs TOP_BIT _ _ (by decide), rfl⟩)
      (.cons (.jump (t := false) rfl)
      (.cons (.op (t := false) rfl ⟨_, .loadN _ .acquire, rfl⟩)
      (.cons (.op (t := false) rfl ⟨_, .readCycleCounter _ none 95, rfl⟩)
      (.cons (.jump (t := false) rfl)
      (.cons (.op (t := false) rfl ⟨_, .loadExclusive _, rfl⟩)
      (.cons (.op (t := false) rfl ⟨_, .wait _ (.wfet 195), rfl⟩)
      (.cons (.op (t := false) rfl ⟨_, .loadN _ .acquire, rfl⟩)
      (.cons (.op (t := false) rfl ⟨_, .readCycleCounter _ (some 195) 197, rfl⟩)
      (.nil _)))))))))))))))))))))))), hpow, ?_, ?_, rfl, rfl, rfl⟩
    · iterate 23 refine List.forall_mem_cons.mpr ⟨hpow, ?_⟩
      exact List.forall_mem_nil _
    · iterate 23 refine List.forall_mem_cons.mpr ⟨nofun, ?_⟩
      exact List.forall_mem_nil _
  have htime : (elapsing 1 100).Admits 0 (actsOf false tr) 197 := by
    rw [hacts]
    exact overtakenActs_time TOP_BIT
  exact ⟨s₁, s, tr, hrun, hret, hacts, htime, hwrites, timedwrlock_overrun wfetBoard false false
    3200 100 (by decide) trivial s₀ s₁ s false tr hs hcall hrun hroom₁ hroom hinside 1 0 197 htime
    ⟨_, Or.inr ⟨false, hret⟩⟩⟩

/-- The same of a mutex. -/
theorem timedlock_overrun_overtaken :
    ∃ (s₁ s : Pool (mutexApi.world Bool)) (tr : List (Trans (mutexApi.world Bool))),
      Run (LockCall.prog false wfetBoard.features) s₁ tr s ∧
      s.thread false = some (.timedlock 3200 false, .ret false) ∧
      actsOf false tr = overtakenActs 1 ∧
      (elapsing 1 100).Admits 0 (actsOf false tr) 197 ∧ tally (interference false) tr = 2 ∧
      197 ≤ 0 + 2 * 1 + (1 + tally (interference false) tr) *
        ((100 : BitVec 64).toNat + 10 * 1) := by
  have h0 := Reach.start (W := mutexApi.world Bool)
    (LockCall.prog false wfetBoard.features) (fun _ => True) (LockMem.initializer Bool)
  have h1 := h0.step (.call (t := true) (c := LockCall.trylock) rfl ⟨trivial, rfl⟩) trivial
  have h2 := h1.step (.op (t := true) (c := LockCall.trylock) rfl
    ⟨_, .exchanged 0 1 _ _, rfl⟩) trivial
  have h3 := h2.step (.ret (t := true) (c := LockCall.trylock) (r := true) rfl rfl) trivial
  obtain ⟨s₀, s₁, s, tr, hs, hcall, hrun, hinside, hacts, hwrites, hret⟩ :
      ∃ (s₀ s₁ s : Pool (mutexApi.world Bool)) (tr : List (Trans (mutexApi.world Bool))),
        MutexReachable (LockCall.prog false wfetBoard.features) s₀ ∧
        Pool.Step (LockCall.prog false wfetBoard.features) s₀
          (.call false (.timedlock 3200 false)) s₁ ∧
        Run (LockCall.prog false wfetBoard.features) s₁ tr s ∧
        (∀ x ∈ tr, ∀ d, x.ev ≠ .call false d) ∧ actsOf false tr = overtakenActs 1 ∧
        tally (interference false) tr = 2 ∧
        s.thread false = some (.timedlock 3200 false, .ret false) := by
    refine ⟨_, _, _, _, h3, .call rfl ⟨trivial, rfl⟩,
      (.cons (.op (t := false) rfl ⟨_, .differs 1 _ _ (by decide), rfl⟩)
      (.cons (.jump (t := false) rfl)
      (.cons (.op (t := false) rfl ⟨_, .loadN _ .acquire, rfl⟩)
      (.cons (.op (t := false) rfl ⟨_, .readCycleCounter _ none 3, rfl⟩)
      (.cons (.jump (t := false) rfl)
      (.cons (.op (t := false) rfl ⟨_, .loadExclusive _, rfl⟩)
      (.cons (.op (t := false) rfl ⟨_, .wait _ (.wfet 103), rfl⟩)
      -- the lock is given back
      (.cons (.call (t := true) (c := LockCall.unlock) rfl ⟨Nat.one_pos, rfl⟩)
      (.cons (.op (t := true) rfl ⟨_, .storeN _ 0 .release, rfl⟩)
      (.cons (.ret (t := true) rfl rfl)
      (.cons (.op (t := false) rfl ⟨_, .loadN _ .acquire, rfl⟩)
      (.cons (.op (t := false) rfl ⟨_, .readCycleCounter _ (some 103) 92, rfl⟩)
      -- and taken again
      (.cons (.call (t := true) (c := LockCall.trylock) rfl ⟨trivial, rfl⟩)
      (.cons (.op (t := true) rfl ⟨_, .exchanged 0 1 _ _, rfl⟩)
      (.cons (.op (t := false) rfl ⟨_, .differs 1 _ _ (by decide), rfl⟩)
      (.cons (.jump (t := false) rfl)
      (.cons (.op (t := false) rfl ⟨_, .loadN _ .acquire, rfl⟩)
      (.cons (.op (t := false) rfl ⟨_, .readCycleCounter _ none 95, rfl⟩)
      (.cons (.jump (t := false) rfl)
      (.cons (.op (t := false) rfl ⟨_, .loadExclusive _, rfl⟩)
      (.cons (.op (t := false) rfl ⟨_, .wait _ (.wfet 195), rfl⟩)
      (.cons (.op (t := false) rfl ⟨_, .loadN _ .acquire, rfl⟩)
      (.cons (.op (t := false) rfl ⟨_, .readCycleCounter _ (some 195) 197, rfl⟩)
      (.nil _)))))))))))))))))))))))), ?_, rfl, rfl, rfl⟩
    iterate 23 refine List.forall_mem_cons.mpr ⟨nofun, ?_⟩
    exact List.forall_mem_nil _
  have htime : (elapsing 1 100).Admits 0 (actsOf false tr) 197 := by
    rw [hacts]
    exact overtakenActs_time 1
  exact ⟨s₁, s, tr, hrun, hret, hacts, htime, hwrites, timedlock_overrun wfetBoard false false 3200
    100 (by decide) trivial s₀ s₁ s false tr hs hcall hrun hinside 1 0 197 htime
    ⟨_, Or.inr ⟨false, hret⟩⟩⟩

end WfeMutex
