/-
  THE DEADLINE OF A TIMED LOCK.

  `wfe_mutex_lock_timedlock` and `wfe_mutex_rwlock_timedwrlock` hand their whole timeout to every
  wait.  A wait that sees the lock free ends; the exchange that follows it can be lost to another
  thread; and the next wait computes a deadline of its own, from a new reading of the counter.

  So a call has the single deadline of its first wait (`OneDeadline`) exactly as long as no wait
  that follows a lost exchange finds the counter moved (`RetriesAtOnce`).  The waits of a call are
  read off the operations it performs: `begins` are the readings its waits begin with, `tests` the
  deadlines it compares later readings with, and every one of those belongs to a wait of the call
  (`tests_begin`).  Between two waits of one call there is a lost exchange (`exists_lost`).

  A wait counts here if it reads the counter.  A monitor wait that finds the lock free at its early
  look returns without a reading; it has no deadline, and the first wait is the first one behind it
  that has.
-/
import WfeMutex.Lock.Mutex
import WfeMutex.Lock.Rwlock
import WfeMutex.Wait.Deadline

set_option linter.unusedVariables false

namespace WfeMutex

open Conc

/-! ## Reading the operations of a call -/

def beginReading : Act (atomics 32) → Option (BitVec 64)
  | ⟨.readCycleCounter none, beginCycles⟩ => some beginCycles
  | _ => none

def testedDeadline : Act (atomics 32) → Option (BitVec 64)
  | ⟨.readCycleCounter (some cyclesEnd), _⟩ => some cyclesEnd
  | _ => none

def counterReading : Act (atomics 32) → Option (BitVec 64)
  | ⟨.readCycleCounter _, reading⟩ => some reading
  | _ => none

/-- An exchange that found another value. -/
def LostExchange : Act (atomics 32) → Prop
  | ⟨.compareExchangeN _ _ _ _, a⟩ => a.1 = false
  | _ => False

/-- The counter readings that waits begin with.  A wait that ends at its early look has none. -/
def begins (acts : List (Act (atomics 32))) : List (BitVec 64) := acts.filterMap beginReading

/-- The deadlines that readings are compared with. -/
def tests (acts : List (Act (atomics 32))) : List (BitVec 64) := acts.filterMap testedDeadline

/-- All readings of the counter. -/
def readings (acts : List (Act (atomics 32))) : List (BitVec 64) := acts.filterMap counterReading

/-! ## What is wanted, and when it holds -/

/-- The waits that read the counter keep to the deadline `D`: none computes or tests a later one,
    and none but the first begins when the counter has reached it. -/
structure KeepsTo (D cycles : BitVec 64) (acts : List (Act (atomics 32))) : Prop where
  computed : ∀ b ∈ begins acts, b + cycles ≤ D
  tested : ∀ d ∈ tests acts, d ≤ D
  begun : ∀ b ∈ (begins acts).tail, b < D

/-- **One deadline for the whole call**: that of its first wait that reads the counter. -/
def OneDeadline (cycles : BitVec 64) (acts : List (Act (atomics 32))) : Prop :=
  ∀ b₁, (begins acts).head? = some b₁ → KeepsTo (b₁ + cycles) cycles acts

/-- **The condition on the interleaving**: a wait that reads the counter after the call has lost an
    exchange, itself after the first wait has read it, still reads what that first one read, and the
    timeout is not 0 cycles. -/
def RetriesAtOnce (cycles : BitVec 64) (acts : List (Act (atomics 32))) : Prop :=
  ∀ before x after b₁, acts = before ++ x :: after → LostExchange x →
    (begins before).head? = some b₁ → ∀ b ∈ begins after, b = b₁ ∧ cycles ≠ 0

/-- The counter never goes back, and no deadline of the call wraps. -/
structure CounterOk (cycles : BitVec 64) (acts : List (Act (atomics 32))) : Prop where
  mono : (readings acts).Pairwise (· ≤ ·)
  noWrap : ∀ b ∈ begins acts, b.toNat + cycles.toNat < 2 ^ 64

/-! ## What the watch says about the list -/

section
variable {cycles b b₁ : BitVec 64} {acts : List (Act (atomics 32))}

/-- What an allowed operation can be. -/
inductive DeadlineStep (cycles : BitVec 64) (x : Act (atomics 32)) : Stage → Stage → Prop where
  | begins {b : BitVec 64} : beginReading x = some b → testedDeadline x = none →
      DeadlineStep cycles x .ready (.waiting b)
  | tests {b : BitVec 64} : beginReading x = none → testedDeadline x = some (b + cycles) →
      DeadlineStep cycles x (.waiting b) (.waiting b)
  | loses {l : Stage} : beginReading x = none → testedDeadline x = none → LostExchange x →
      DeadlineStep cycles x l .ready
  | other {l : Stage} : beginReading x = none → testedDeadline x = none →
      DeadlineStep cycles x l l

/-- Every operation the watch allows is one of these. -/
theorem deadlines_step {l : Stage} {o : Op 32} (a : o.Ans) (h : (deadlines cycles).allows l o) :
    DeadlineStep cycles ⟨o, a⟩ l ((deadlines cycles).next l o a) := by
  cases o with
  | readCycleCounter d =>
    cases l with
    | ready =>
      cases d with
      | none => exact .begins rfl rfl
      | some d => exact h.elim
    | waiting b =>
      cases d with
      | none => exact h.elim
      | some d =>
        obtain rfl : d = b + cycles := h
        exact .tests rfl rfl
  | compareExchangeN e d s f =>
    obtain ⟨exchanged, seen⟩ := a
    cases exchanged with
    | true => cases l <;> exact .other rfl rfl
    | false => cases l <;> exact .loses rfl rfl rfl
  | _ => cases l <;> exact .other rfl rfl

/-- The reading a stage remembers. -/
def Stage.origin : Stage → List (BitVec 64)
  | .ready => []
  | .waiting b => [b]

/-- **Between two waits of a call there is a lost exchange**: a wait that is not the first one of
    the call begins after an exchange was lost, and that after the first one had begun. -/
theorem exists_lost {l : Stage} (h : (deadlines cycles).Accepts l acts)
    (hb : b ∈ (l.origin ++ begins acts).tail) :
    ∃ before x after, acts = before ++ x :: after ∧ LostExchange x ∧
      (l.origin ++ begins before).head? = (l.origin ++ begins acts).head? ∧ b ∈ begins after := by
  induction acts generalizing l with
  | nil => cases l <;> cases hb
  | cons y acts ih =>
    obtain ⟨o, a⟩ := y
    obtain ⟨hallows, hrest⟩ := h
    have hstep := deadlines_step a hallows
    generalize (deadlines cycles).next l o a = l' at hstep hrest
    -- an operation that leaves the stage alone is skipped
    have hskip : beginReading ⟨o, a⟩ = none → l' = l →
        ∃ before x after, ⟨o, a⟩ :: acts = before ++ x :: after ∧ LostExchange x ∧
          (l.origin ++ begins before).head? = (l.origin ++ begins (⟨o, a⟩ :: acts)).head? ∧
            b ∈ begins after := by
      rintro hnone rfl
      have hsame : ∀ acts, begins (⟨o, a⟩ :: acts) = begins acts := fun acts =>
        List.filterMap_cons_none hnone
      rw [hsame] at hb
      obtain ⟨before, x, after, rfl, hx, hfirst, hafter⟩ := ih hrest hb
      refine ⟨⟨o, a⟩ :: before, x, after, rfl, hx, ?_, hafter⟩
      rw [hsame, hsame]
      exact hfirst
    cases hstep with
    | @begins b₀ hsome _ =>
      have hfirst : ∀ acts, begins (⟨o, a⟩ :: acts) = b₀ :: begins acts := fun acts =>
        List.filterMap_cons_some hsome
      rw [hfirst] at hb
      obtain ⟨before, x, after, rfl, hx, _, hafter⟩ := ih hrest hb
      refine ⟨⟨o, a⟩ :: before, x, after, rfl, hx, ?_, hafter⟩
      rw [hfirst, hfirst]
      rfl
    | tests hnone _ => exact hskip hnone rfl
    | other hnone _ => exact hskip hnone rfl
    | loses hnone _ hlost =>
      cases l with
      | ready => exact hskip hnone rfl
      | waiting b₀ =>
        have hin : b ∈ begins (⟨o, a⟩ :: acts) := hb
        rw [begins, List.filterMap_cons_none hnone] at hin
        exact ⟨[], ⟨o, a⟩, acts, rfl, hlost, rfl, hin⟩

/-- **Every deadline a call tests is that of one of its waits.** -/
theorem tests_begin {l : Stage} (h : (deadlines cycles).Accepts l acts) :
    ∀ d ∈ tests acts, ∃ b ∈ l.origin ++ begins acts, d = b + cycles := by
  induction acts generalizing l with
  | nil =>
    intro d hd
    cases hd
  | cons y acts ih =>
    obtain ⟨o, a⟩ := y
    obtain ⟨hallows, hrest⟩ := h
    have hstep := deadlines_step a hallows
    generalize (deadlines cycles).next l o a = l' at hstep hrest
    intro d hd
    cases hstep with
    | begins hsome hnone =>
      rw [tests, List.filterMap_cons_none hnone] at hd
      rw [begins, List.filterMap_cons_some hsome]
      exact ih hrest d hd
    | @tests b hnone hsome =>
      rw [tests, List.filterMap_cons_some hsome] at hd
      rw [begins, List.filterMap_cons_none hnone]
      rcases List.mem_cons.mp hd with rfl | hd
      · exact ⟨b, List.mem_cons_self, rfl⟩
      · exact ih hrest d hd
    | loses hnone hnone' _ =>
      rw [tests, List.filterMap_cons_none hnone'] at hd
      rw [begins, List.filterMap_cons_none hnone]
      obtain ⟨b, hb, rfl⟩ := ih hrest d hd
      exact ⟨b, List.mem_append_right _ hb, rfl⟩
    | other hnone hnone' =>
      rw [tests, List.filterMap_cons_none hnone'] at hd
      rw [begins, List.filterMap_cons_none hnone]
      exact ih hrest d hd

/-- The readings waits begin with are among all readings. -/
theorem begins_sublist (acts : List (Act (atomics 32))) :
    (begins acts).Sublist (readings acts) := by
  induction acts with
  | nil => exact .refl _
  | cons y acts ih =>
    obtain ⟨o, a⟩ := y
    cases o with
    | readCycleCounter d =>
      cases d with
      | none => exact .cons_cons a ih
      | some d => exact .cons a ih
    | _ => exact ih

/-- **A call keeps one deadline exactly if it retries at once.** -/
theorem oneDeadline_iff (h : (deadlines cycles).Accepts .ready acts) (hok : CounterOk cycles acts) :
    OneDeadline cycles acts ↔ RetriesAtOnce cycles acts := by
  have hmono : (begins acts).Pairwise (· ≤ ·) := hok.mono.sublist (begins_sublist acts)
  constructor
  · intro hone before x after b₁ hacts hx hfirst b hb
    obtain ⟨first, hbefore⟩ := List.head?_eq_some_iff.mp hfirst
    have hlater : begins acts = b₁ :: (first ++ begins (x :: after)) := by
      rw [hacts, begins, List.filterMap_append]
      show begins before ++ begins (x :: after) = _
      rw [hbefore, List.cons_append]
    have hb₁ : (begins acts).head? = some b₁ := by
      rw [hlater]
      rfl
    have hbl : b ∈ first ++ begins (x :: after) := by
      obtain ⟨z, hz, hzb⟩ := List.mem_filterMap.mp hb
      exact List.mem_append_right _
        (List.mem_filterMap.mpr ⟨z, List.mem_cons_of_mem _ hz, hzb⟩)
    have hkeeps := hone b₁ hb₁
    have hmem : b ∈ begins acts := by
      rw [hlater]
      exact List.mem_cons_of_mem _ hbl
    have hcomputed := hkeeps.computed b hmem
    have hbegun := hkeeps.begun b (by rw [hlater]; exact hbl)
    have hle : b₁ ≤ b := by
      rw [hlater] at hmono
      exact (List.pairwise_cons.mp hmono).1 b hbl
    have hwrap := hok.noWrap b hmem
    have hwrap₁ := hok.noWrap b₁ (by rw [hlater]; exact List.mem_cons_self)
    constructor
    · bv_omega
    · rintro rfl
      bv_omega
  · intro hretry b₁ hb₁
    have hrest : ∀ b ∈ (begins acts).tail, b = b₁ ∧ cycles ≠ 0 := by
      intro b hb
      obtain ⟨before, x, after, hacts, hx, hfirst, hafter⟩ := exists_lost h hb
      exact hretry before x after b₁ hacts hx (hfirst.trans hb₁) b hafter
    have hall : ∀ b ∈ begins acts, b = b₁ := by
      intro b hb
      obtain ⟨later, hlater⟩ := List.head?_eq_some_iff.mp hb₁
      rw [hlater] at hb hrest
      rcases List.mem_cons.mp hb with rfl | hb
      · rfl
      · exact (hrest b hb).1
    refine ⟨?_, ?_, ?_⟩
    · intro b hb
      rw [hall b hb]
      exact BitVec.le_refl _
    · intro d hd
      obtain ⟨b, hb, rfl⟩ := tests_begin h d hd
      rw [hall b hb]
      exact BitVec.le_refl _
    · intro b hb
      obtain ⟨rfl, hne⟩ := hrest b hb
      have hwrap := hok.noWrap b (List.mem_of_mem_tail hb)
      bv_omega

end

/-! ## The timed locks -/

section
variable {cycles : BitVec 64} (debug : Bool) {l : Stage}

theorem timed_printError {α : Type} (msg : String) {Q : α → Stage → Prop} :
    Spec (timed cycles) (printError (w := 32) msg) l Q := by
  refine Spec.op ?_ fun a => a.elim
  cases l with
  | ready => trivial
  | waiting b => trivial

theorem timed_sanityCheckWrlockMutex :
    Spec (timed cycles) (sanityCheckWrlockMutex debug) l fun _ l' => l' = l := by
  cases debug with
  | false => exact Spec.pure rfl
  | true =>
    refine Spec.seq (timed_load _) ?_
    rintro value _ rfl
    unfold sanityCheckWrlockValue
    simp only [if_true]
    split
    · exact timed_printError _
    · exact Spec.pure rfl

theorem timed_sanityCheckRdwrlockMutex :
    Spec (timed cycles) (sanityCheckRdwrlockMutex debug) l fun _ l' => l' = l := by
  cases debug with
  | false => exact Spec.pure rfl
  | true =>
    refine Spec.seq (timed_load _) ?_
    rintro value _ rfl
    unfold sanityCheckRdwrlockValue
    simp only [if_true]
    split
    · split
      · exact timed_printError _
      · exact Spec.pure rfl
    · exact Spec.pure rfl

/-- An exchange makes ready for a wait if it is lost. -/
theorem timed_exchange (e d : BitVec 32) :
    Spec (timed cycles) (atomicCompareExchangeN e d .acquire .acquire) l
      fun a l' => a.1 = false → l' = .ready := by
  refine spec_act ?_ ?_
  · cases l with
    | ready => trivial
    | waiting b => trivial
  · rintro ⟨exchanged, seen⟩ _ rfl hlost
    obtain rfl : exchanged = false := hlost
    cases l with
    | ready => rfl
    | waiting b => rfl

/-- **The timed acquisition** begins every wait anew, after a lost exchange. -/
theorem timed_exclusiveTimedlock {F : Features} (hF : F.KeepsDeadline)
    {check : Prog (atomics 32) Unit} (desired : BitVec 32) {nanoseconds : BitVec 64}
    (hcheck : ∀ l, Spec (timed cycles) check l fun _ l' => l' = l)
    (hcycles : cyclesForNanoseconds F.toCycleScale nanoseconds = some cycles) (lowPower : Bool) :
    Spec (timed cycles) (exclusiveTimedlock F check desired nanoseconds lowPower) .ready
      fun _ _ => True := by
  unfold exclusiveTimedlock
  refine Spec.seq (hcheck _) ?_
  rintro _ _ rfl
  refine Spec.seq (timed_exchange _ _) ?_
  rintro ⟨exchanged, seen⟩ l hlost
  cases exchanged with
  | true => exact Spec.pure trivial
  | false =>
    refine Spec.iter (I := fun _ l => l = .ready) ?_ (hlost rfl)
    rintro _ _ rfl
    refine Spec.seq (hF _ 0 nanoseconds cycles lowPower hcycles) ?_
    intro arrived l _
    cases arrived with
    | false => exact Spec.pure trivial
    | true =>
      refine Spec.seq (hcheck _) ?_
      rintro _ _ rfl
      refine Spec.seq (timed_exchange _ _) ?_
      rintro ⟨exchanged, seen⟩ l hlost
      cases exchanged with
      | true => exact Spec.pure trivial
      | false => exact Spec.pure (hlost rfl)

end

/-- **In every interleaving**, a call of `wfe_mutex_lock_timedlock` or
    `wfe_mutex_rwlock_timedwrlock` keeps one deadline, at every moment of it, exactly if it has
    retried at once so far. -/
theorem timedlock_oneDeadline_iff {Tid : Type} [DecidableEq Tid] (P : Platform) (debug : Bool)
    {nanoseconds cycles : BitVec 64} (lowPower : Bool)
    (hcycles : cyclesForNanoseconds P.scale nanoseconds = some cycles) :
    (∀ tr (s : Pool (mutexApi.world Tid)) t acts,
      Run (LockCall.prog debug P.features) (Pool.start (LockMem.initializer Tid)) tr s →
      lastCall t tr = some (.timedlock nanoseconds lowPower, acts) → CounterOk cycles acts →
        (OneDeadline cycles acts ↔ RetriesAtOnce cycles acts)) ∧
    ∀ tr (s : Pool (rwlockApi.world Tid)) t acts,
      Run (RwlockCall.prog debug P.features) (Pool.start (LockMem.initializer Tid)) tr s →
      lastCall t tr = some (.timedwrlock nanoseconds lowPower, acts) → CounterOk cycles acts →
        (OneDeadline cycles acts ↔ RetriesAtOnce cycles acts) := by
  constructor
  · intro tr s t acts hrun hcall hok
    obtain ⟨q, htr⟩ := lastCall_trace hrun hcall
    have hspec := timed_exclusiveTimedlock P.keepsDeadline 1
      (fun l => timed_sanityCheckWrlockMutex debug) hcycles lowPower
    exact oneDeadline_iff (Watch.accepts_of_spec hspec htr) hok
  · intro tr s t acts hrun hcall hok
    obtain ⟨q, htr⟩ := lastCall_trace hrun hcall
    have hspec := timed_exclusiveTimedlock P.keepsDeadline TOP_BIT
      (fun l => timed_sanityCheckRdwrlockMutex debug) hcycles lowPower
    exact oneDeadline_iff (Watch.accepts_of_spec hspec htr) hok

/-! ## A second wait -/

/-- The build without checks, spinning. -/
def spinMutex : LockCall → Prog (atomics 32) Bool :=
  LockCall.prog false Platform.uninitialised.features

/-- The first exchange is lost, and a wait begins when the counter reads 0. -/
def firstWait : List (Act (atomics 32)) :=
  [⟨.compareExchangeN 0 1 .acquire .acquire, (false, 1)⟩, ⟨.readCycleCounter none, 0⟩]

/-- The wait sees the lock free, another exchange is lost, and a wait begins when it reads 5. -/
def secondWait : List (Act (atomics 32)) :=
  firstWait ++ [⟨.loadN .acquire, (0 : BitVec 32)⟩,
    ⟨.compareExchangeN 0 1 .acquire .acquire, (false, 1)⟩, ⟨.readCycleCounter none, 5⟩]

/-- Thread `true` has the lock, gives it back while thread `false` waits for it, and takes it again
    before thread `false` comes to its exchange. -/
theorem secondWait_watched : ∃ s s' : Pool (mutexApi.world Bool),
    Watched spinMutex (LockMem.initializer Bool) false s (some (.timedlock 10 false, firstWait)) ∧
      Watched spinMutex (LockMem.initializer Bool) false s'
        (some (.timedlock 10 false, secondWait)) := by
  have h0 := Watched.start (W := mutexApi.world Bool) spinMutex (LockMem.initializer Bool) false
  have h1 := h0.step (.call (t := true) (c := LockCall.trylock) rfl ⟨trivial, rfl⟩)
  have h2 := h1.step (.op (t := true) (c := LockCall.trylock) rfl ⟨_, .exchanged 0 1 _ _, rfl⟩)
  have h3 := h2.step (.ret (t := true) (c := LockCall.trylock) (r := true) rfl rfl)
  have h4 := h3.step (.call (t := false) (c := LockCall.timedlock 10 false) rfl ⟨trivial, rfl⟩)
  have h5 := h4.step (.op (t := false) (c := LockCall.timedlock 10 false) rfl
    ⟨_, .differs (v := 1) (e := 0) 1 _ _ (by decide), rfl⟩)
  have h6 := h5.step (.jump (t := false) (c := LockCall.timedlock 10 false) rfl)
  have h7 := h6.step (.op (t := false) (c := LockCall.timedlock 10 false) rfl
    ⟨_, .readCycleCounter _ none 0, rfl⟩)
  have h8 := h7.step (.call (t := true) (c := LockCall.unlock) rfl ⟨Nat.one_pos, rfl⟩)
  have h9 := h8.step (.op (t := true) (c := LockCall.unlock) rfl ⟨_, .storeN 1 0 _, rfl⟩)
  have h10 := h9.step (.ret (t := true) (c := LockCall.unlock) (r := true) rfl rfl)
  have h11 := h10.step (.jump (t := false) (c := LockCall.timedlock 10 false) rfl)
  have h12 := h11.step (.op (t := false) (c := LockCall.timedlock 10 false) rfl
    ⟨_, .loadN 0 _, rfl⟩)
  have h13 := h12.step (.call (t := true) (c := LockCall.trylock) rfl ⟨trivial, rfl⟩)
  have h14 := h13.step (.op (t := true) (c := LockCall.trylock) rfl ⟨_, .exchanged 0 1 _ _, rfl⟩)
  have h15 := h14.step (.op (t := false) (c := LockCall.timedlock 10 false) rfl
    ⟨_, .differs (v := 1) (e := 0) 1 _ _ (by decide), rfl⟩)
  have h16 := h15.step (.jump (t := false) (c := LockCall.timedlock 10 false) rfl)
  have h17 := h16.step (.op (t := false) (c := LockCall.timedlock 10 false) rfl
    ⟨_, .readCycleCounter _ none 5, rfl⟩)
  exact ⟨_, _, h7, h17⟩

theorem ten_cycles : cyclesForNanoseconds Platform.uninitialised.scale 10 = some 10 := by decide

theorem firstWait_counterOk : CounterOk 10 firstWait := by
  constructor
  · decide
  · intro b hb
    rw [List.mem_singleton.mp hb]
    decide

theorem secondWait_counterOk : CounterOk 10 secondWait := by
  constructor
  · decide
  · intro b hb
    rcases List.mem_pair.mp hb with rfl | rfl
    · decide
    · decide

theorem timedlock_oneDeadline_iff_firstWait :
    ∃ tr, ∃ s : Pool (mutexApi.world Bool),
      Run spinMutex (Pool.start (LockMem.initializer Bool)) tr s ∧
      lastCall false tr = some (.timedlock 10 false, firstWait) ∧ OneDeadline 10 firstWait := by
  obtain ⟨s, _, ⟨tr, hrun, hcall⟩, _⟩ := secondWait_watched
  have hretry : RetriesAtOnce 10 firstWait := by
    -- no operation comes after the wait has begun
    intro before x after b₁ hacts hx hfirst
    rcases before with _ | ⟨y, _ | ⟨z, before⟩⟩
    · cases hfirst
    · cases hacts
      cases hfirst
    · have hlength := congrArg List.length hacts
      simp only [firstWait, List.length_cons, List.length_nil, List.length_append] at hlength
      omega
  exact ⟨tr, s, hrun, hcall, ((timedlock_oneDeadline_iff Platform.uninitialised false false
    ten_cycles).1 tr s false firstWait hrun hcall firstWait_counterOk).mpr hretry⟩

/-- **The second wait of a call has a deadline of its own.** -/
theorem timedlock_not_oneDeadline :
    cyclesForNanoseconds Platform.uninitialised.scale 10 = some 10 ∧
      ¬ ∀ tr (s : Pool (mutexApi.world Bool)) t acts,
        Run spinMutex (Pool.start (LockMem.initializer Bool)) tr s →
        lastCall t tr = some (.timedlock 10 false, acts) → CounterOk 10 acts →
          OneDeadline 10 acts := by
  refine ⟨ten_cycles, ?_⟩
  intro hall
  obtain ⟨_, s, _, ⟨tr, hrun, hcall⟩⟩ := secondWait_watched
  have hkeeps := hall tr s false secondWait hrun hcall secondWait_counterOk 0 rfl
  exact absurd (hkeeps.computed 5 (by decide)) (by decide)

end WfeMutex
