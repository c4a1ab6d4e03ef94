/-
  MIS-PAIRED UNLOCKS in a sequential history of the debug build.

  The calls on one lock are made one after another, so the word is in the hands of the call that
  runs: `Alone` is that word, together with what the cycle counter is going to read, and
  `Alone.answer` is the only answer each operation can get (`Alone.effect`).  A `CallHistory` lists
  calls that have all returned, with their results.  Nothing is asked of the calls: unlocks are made
  as anybody likes, and a lock call that blocks is in no history, since it does not return.
  Who holds the lock after such a list is read off the results (`LockApi.holds`), and an unlock is
  mis-paired if that lock does not permit it.

  Of the next call two things are shown.  If it is not mis-paired it keeps the protocol of its act,
  which has no place for an error report, and its one write, which is its last operation, leaves
  the word encoding the holds (`LockApi.spec_alone`).  If it is mis-paired, the word it loads is
  below the top bit, or zero, or the top bit, where its check asks for the opposite: it loads twice
  and reports (`Reports`), before its store or its decrement.  So no call of a history was
  mis-paired, and its word encodes the holds (`CallHistory.encodes`).
-/
import Mathlib.Data.List.Induction
import WfeMutex.Conc.Oracle
import WfeMutex.Lock.Mutex
import WfeMutex.Lock.Solo

set_option linter.unusedVariables false

namespace WfeMutex

open Conc

/-! ## A word that only the running call changes -/

/-- The word, and the readings of the cycle counter to come. -/
structure Alone where
  word : BitVec 32
  readings : Nat → BitVec 64

/-- The answer to an operation; an error report has none. -/
def Alone.answer : (o : Op 32) → Alone → Option (o.Ans × Alone)
  | .loadN _, m | .loadExclusive, m => some (m.word, m)
  | .storeN value _, m => some ((), { m with word := value })
  | .compareExchangeN expected desired _ _, m =>
    if m.word = expected then some ((true, m.word), { m with word := desired })
    else some ((false, m.word), m)
  | .fetchSub value _, m => some (m.word, { m with word := m.word - value })
  | .arm _, m | .wait _, m | .doYield, m => some ((), m)
  | .readCycleCounter _, m =>
    some (m.readings 0, { m with readings := fun n => m.readings (n + 1) })
  | .printError _, _ | .trap, _ => none

/-- The answers are those an operation can get at the word. -/
theorem Alone.effect {o : Op 32} {a : o.Ans} {m m' : Alone} (h : Alone.answer o m = some (a, m')) :
    Effect m.word o a m'.word := by
  cases o with
  | loadN mo =>
    cases h
    exact .loadN _ mo
  | storeN x mo =>
    cases h
    exact .storeN _ x mo
  | compareExchangeN e d s f =>
    simp only [Alone.answer] at h
    split at h
    · rename_i heq
      cases h
      exact heq ▸ .exchanged m.word d s f
    · rename_i hne
      cases h
      exact .differs d s f hne
  | fetchSub x mo =>
    cases h
    exact .fetchSub _ x mo
  | loadExclusive =>
    cases h
    exact .loadExclusive _
  | arm i =>
    cases h
    exact .arm _ i
  | wait i =>
    cases h
    exact .wait _ i
  | doYield =>
    cases h
    exact .doYield _
  | readCycleCounter d =>
    cases h
    exact .readCycleCounter _ d _
  | printError msg => cases h
  | trap => cases h

/-- What can be answered is answered. -/
theorem Alone.answers {o : Op 32} {a : o.Ans} {m : Alone} {v : BitVec 32}
    (h : Effect m.word o a v) : ∃ b m', Alone.answer o m = some (b, m') := by
  cases o with
  | compareExchangeN e d s f =>
    simp only [Alone.answer]
    split <;> exact ⟨_, _, rfl⟩
  | printError | trap => exact a.elim
  | loadN | storeN | fetchSub | loadExclusive | arm | wait | doYield | readCycleCounter =>
    exact ⟨_, _, rfl⟩

/-- A program that returns whatever its word does returns here. -/
theorem Alone.returns {α : Type} {p : Prog (atomics 32) α} {Q : α → BitVec 32 → Prop} {n : Nat}
    {m : Alone} (h : Within wordStep Q n p m.word) : Returns Alone.answer p m := by
  induction n generalizing p m with
  | zero =>
    cases p with
    | ret a => exact ⟨a, m, .refl _ _⟩
    | op o k => exact h.elim
    | loop body s k => exact h.elim
  | succ n ih =>
    cases p with
    | ret a => exact ⟨a, m, .refl _ _⟩
    | op o k =>
      obtain ⟨⟨a, v, heff⟩, hk⟩ := h
      obtain ⟨b, m₁, hb⟩ := Alone.answers heff
      obtain ⟨r, m', hsteps⟩ := ih (hk b m₁.word (Alone.effect hb))
      exact ⟨r, m', .op hb hsteps⟩
    | loop body s k =>
      obtain ⟨r, m', hsteps⟩ := ih h
      exact ⟨r, m', .jump hsteps⟩

/-! ## Histories -/

/-- The program comes to `print_error`, and does not change the word until then. -/
structure ReportsError (p : Prog (atomics 32) Bool) (m : Alone) : Prop where
  reached : ∃ msg k m', Steps Alone.answer p m (.op (.printError msg) k) m'
  unchanged : ∀ q m', Steps Alone.answer p m q m' → m'.word = m.word

/-- `print_error` does not come back. -/
theorem ReportsError.not_returns {p : Prog (atomics 32) Bool} {m : Alone} (h : ReportsError p m) :
    ¬ Returns Alone.answer p m := by
  rintro ⟨r, m', hret⟩
  obtain ⟨msg, k, m₁, herror⟩ := h.reached
  rcases herror.linear hret with hafter | hback
  · cases hafter.stuck rfl
  · cases hback.of_ret

section
variable {Call : Type} (A : LockApi Call) (prog : Call → Prog (atomics 32) Bool)

/-- Who holds the lock after these calls, by their results; whose call it was does not matter. -/
def LockApi.holds : List (Call × Bool) → RWLock Unit :=
  List.foldl (fun a call => if call.2 then (A.act call.1).apply () a else a) RWLock.free

/-- An unlock of what is not held. -/
def LockApi.Mispaired (a : RWLock Unit) (c : Call) : Prop :=
  (A.act c).gives = true ∧ ¬ (A.act c).permitted () a

/-- A lock call without a time limit, while the lock cannot be had. -/
def LockApi.Blocks (a : RWLock Unit) (c : Call) : Prop :=
  A.void c = true ∧ (A.act c).gives = false ∧ ¬ (A.act c).permitted () a

/-- The calls made one after another from the initializer, each of which has returned. -/
inductive CallHistory : List (Call × Bool) → Alone → Prop where
  | start {m : Alone} : m.word = 0 → CallHistory [] m
  | call {calls : List (Call × Bool)} {m m' : Alone} {c : Call} {r : Bool} :
      CallHistory calls m → Steps Alone.answer (prog c) m (.ret r) m' →
        CallHistory (calls ++ [(c, r)]) m'

/-- No call of the list was a mis-paired unlock when it was made. -/
def LockApi.WellPaired (calls : List (Call × Bool)) : Prop :=
  ∀ before c r, before ++ [(c, r)] <+: calls → ¬ A.Mispaired (A.holds before) c

/-- Fewer than `cap` read holds are outstanding after each of the calls. -/
def LockApi.RoomFor (calls : List (Call × Bool)) : Prop :=
  ∀ before, before <+: calls → (A.holds before).readers.card < A.cap

/-- What becomes of the call `c`, made on the lock `a`. -/
structure LockApi.Judged (timed : Call → Bool) (a : RWLock Unit) (m : Alone) (c : Call) : Prop where
  /-- A mis-paired unlock is reported. -/
  caught : A.Mispaired a c → ReportsError (prog c) m
  /-- Any other call reports nothing, and the word is as it was before each of its operations. -/
  passed : ¬ A.Mispaired a c → ∀ o k m', Steps Alone.answer (prog c) m (.op o k) m' →
    m'.word = m.word ∧ ∀ msg, o ≠ .printError msg
  /-- Any other call returns, if it has no time limit to wait for. -/
  returns : ¬ A.Mispaired a c → ¬ A.Blocks a c → timed c = false →
    Returns Alone.answer (prog c) m

/-- Every mis-paired unlock of the lock is reported. -/
def LockApi.Catches : Prop :=
  ∀ a m c, A.Encodes m.word a → a.Exclusive → a.readers.card < A.cap → A.Mispaired a c →
    ReportsError (prog c) m

variable {A prog}

/-- What is held after one more call. -/
theorem LockApi.holds_snoc (calls : List (Call × Bool)) (c : Call) (r : Bool) :
    A.holds (calls ++ [(c, r)]) =
      if r then (A.act c).apply () (A.holds calls) else A.holds calls := by
  unfold LockApi.holds
  rw [List.foldl_append]
  rfl

/-- What an unlock that is not mis-paired gives back is there. -/
theorem LockApi.permitted_of_paired {a : RWLock Unit} {c : Call} (hc : ¬ A.Mispaired a c)
    (hgives : (A.act c).gives = true) : (A.act c).permitted () a := by
  by_contra hperm
  exact hc ⟨hgives, hperm⟩

/-! ### A call that is not mis-paired -/

/-- The word while the call of act `x` is before its write, and after it. -/
def LockApi.Stands (A : LockApi Call) (a : RWLock Unit) (m : Alone) (x : LockAct) :
    Phase → Alone → Prop
  | .before, m' => m'.word = m.word
  | .after, m' => (x.apply () a).readers.card < A.cap →
      x.permitted () a ∧ A.Encodes m'.word (x.apply () a)

/-- **A call that is not mis-paired** reports no error and writes last, whereupon the word encodes
    the holds. -/
theorem LockApi.spec_alone (hconf : A.Conforms prog) {a : RWLock Unit} {m : Alone} {c : Call}
    (henc : A.Encodes m.word a) (hexcl : a.Exclusive) (hroom : a.readers.card < A.cap)
    (hc : ¬ A.Mispaired a c) :
    Spec (machine Alone.answer fun m' (o : Op 32) => m'.word = m.word ∧ ∀ msg, o ≠ .printError msg)
      (prog c) m fun r m' => ∃ ph, A.Stands a m (A.act c) ph m' ∧ A.ends c r ph := by
  have hback := LockApi.permitted_of_paired hc
  refine Spec.embed (R := A.Stands a m (A.act c)) ?_ ?_ (hconf c) rfl
  · rintro ph m' o hstands ⟨rfl, hpre⟩
    refine ⟨hstands, ?_⟩
    rintro msg rfl
    exact LockApi.not_mayReport hpre
  · rintro ph m' o b m'' hstands ⟨rfl, hpre⟩ hanswer
    have hword : m'.word = m.word := hstands
    have heff := Alone.effect hanswer
    rw [hword] at heff
    refine ⟨_, ⟨rfl, fun v hv => heff.sees hv ▸ henc.shows hexcl hroom hback⟩, ?_⟩
    cases hb : o.writes b with
    | false => exact heff.eq_of_not_writes hb
    | true =>
      intro hroom'
      have hmay := LockApi.mayWrite_of_writes hpre hb
      obtain ⟨hperm, henc', -⟩ := henc.write hexcl hroom hback hmay heff hb hroom'
      exact ⟨hperm, henc'⟩

/-- The word when such a call has returned. -/
theorem LockApi.returned (hconf : A.Conforms prog) {a : RWLock Unit} {m m' : Alone} {c : Call}
    {r : Bool} (henc : A.Encodes m.word a) (hexcl : a.Exclusive) (hroom : a.readers.card < A.cap)
    (hc : ¬ A.Mispaired a c) (hret : Steps Alone.answer (prog c) m (.ret r) m')
    (hroom' : (if r then (A.act c).apply () a else a).readers.card < A.cap) :
    A.Encodes m'.word (if r then (A.act c).apply () a else a) ∧
      (if r then (A.act c).apply () a else a).Exclusive := by
  obtain ⟨ph, hstands, hends, -⟩ := ((LockApi.spec_alone hconf henc hexcl hroom hc).steps hret).out
  cases ph with
  | before =>
    have hr : r = false := by
      cases r with
      | false => rfl
      | true => cases hends.mp rfl
    subst hr
    have hword : m'.word = m.word := hstands
    rw [hword]
    exact ⟨henc, hexcl⟩
  | after =>
    obtain rfl : r = true := hends.mpr rfl
    obtain ⟨hperm, henc'⟩ := hstands hroom'
    exact ⟨henc', RWLock.exclusive_apply hexcl hperm⟩

/-- **The word of a history encodes the holds**, and no call of it was mis-paired. -/
theorem CallHistory.encodes (hconf : A.Conforms prog) (hcatch : A.Catches prog)
    {calls : List (Call × Bool)} {m : Alone} (h : CallHistory prog calls m)
    (hroom : A.RoomFor calls) :
    A.WellPaired calls ∧ A.Encodes m.word (A.holds calls) ∧ (A.holds calls).Exclusive := by
  induction h with
  | start hword =>
    refine ⟨?_, ?_, ?_⟩
    · intro before c r hprefix
      simp at hprefix
    · rw [hword]
      rfl
    · intro u hu
      cases hu
  | @call calls m m' c r h hret ih =>
    obtain ⟨hpaired, henc, hexcl⟩ :=
      ih fun before hbefore => hroom before (hbefore.trans (List.prefix_append ..))
    have hbefore := hroom calls (List.prefix_append ..)
    have hafter := hroom _ (List.prefix_refl _)
    rw [LockApi.holds_snoc] at hafter ⊢
    have hc : ¬ A.Mispaired (A.holds calls) c := fun hmis =>
      (hcatch _ m c henc hexcl hbefore hmis).not_returns ⟨r, m', hret⟩
    refine ⟨?_, LockApi.returned hconf henc hexcl hbefore hc hret hafter⟩
    intro before d s hprefix
    rcases List.prefix_concat_iff.mp hprefix with heq | hprefix
    · obtain ⟨hsame, hlast⟩ := List.append_inj' heq rfl
      cases hlast
      rw [hsame]
      exact hc
    · exact hpaired before d s hprefix

theorem LockApi.judged (hconf : A.Conforms prog) (hcatch : A.Catches prog) {timed : Call → Bool}
    {a : RWLock Unit} {m : Alone} {c : Call} (henc : A.Encodes m.word a) (hexcl : a.Exclusive)
    (hroom : a.readers.card < A.cap)
    (hreturns : ¬ A.Mispaired a c → ¬ A.Blocks a c → timed c = false →
      Returns Alone.answer (prog c) m) : A.Judged prog timed a m c where
  caught := hcatch a m c henc hexcl hroom
  passed hc o k m' hsteps :=
    ((LockApi.spec_alone hconf henc hexcl hroom hc).steps hsteps).out.1
  returns := hreturns

/-- Without reading calls there never is a read hold. -/
theorem LockApi.WriteOnly.holds_readers (hA : A.WriteOnly) (calls : List (Call × Bool)) :
    (A.holds calls).readers = 0 := by
  induction calls using List.reverseRecOn with
  | nil => rfl
  | append_singleton calls x ih =>
    obtain ⟨c, r⟩ := x
    rw [LockApi.holds_snoc]
    cases r with
    | true => exact (RWLock.readers_apply (hA c)).trans ih
    | false => exact ih

theorem LockApi.WriteOnly.roomFor (hA : A.WriteOnly) (calls : List (Call × Bool)) :
    A.RoomFor calls := by
  intro before _
  rw [hA.holds_readers]
  exact A.cap_pos

end

/-! ## Reports -/

/-- Shown the word `v`, the program ends in `print_error`, having done nothing but look. -/
inductive Reports (v : BitVec 32) {α : Type} : Prog (atomics 32) α → Prop where
  | error {msg : String} {k : Empty → Prog (atomics 32) α} : Reports v (.op (.printError msg) k)
  | look {mo : MemOrder} {k : BitVec 32 → Prog (atomics 32) α} :
      Reports v (k v) → Reports v (.op (.loadN mo) k)

section
variable {v : BitVec 32} {α β : Type}

theorem Reports.bind {p : Prog (atomics 32) α} (h : Reports v p) (f : α → Prog (atomics 32) β) :
    Reports v (p.bind f) := by
  induction h with
  | error => exact .error
  | look _ ih => exact .look ih

/-- A check that has no objection leaves the report to what follows it. -/
theorem Checks.reports {V : BitVec 32 → Prop} {p : Prog (atomics 32) Unit}
    {f : Unit → Prog (atomics 32) α} (h : Checks V p) (hv : V v) (hf : Reports v (f ())) :
    Reports v (p.bind f) := by
  induction h with
  | pass => exact hf
  | look _ ih => exact .look (ih v hv)

theorem Reports.reportsError {p : Prog (atomics 32) Bool} {m : Alone} (h : Reports m.word p) :
    ReportsError p m := by
  induction h with
  | @error msg k =>
    refine ⟨⟨msg, k, m, .refl _ _⟩, fun q m' hsteps => ?_⟩
    rcases hsteps.of_op with ⟨-, rfl⟩ | ⟨a, -, -, -⟩
    · rfl
    · exact a.elim
  | @look mo k _ ih =>
    obtain ⟨msg, k', m', hreached⟩ := ih.reached
    refine ⟨⟨msg, k', m', .op rfl hreached⟩, fun q m'' hsteps => ?_⟩
    rcases hsteps.of_op with ⟨-, rfl⟩ | ⟨a, m₁, ha, hsteps⟩
    · rfl
    · cases ha
      exact ih.unchanged q m'' hsteps

/-- An unlock whose own check reports. -/
theorem reports_exclusiveUnlock {V : BitVec 32 → Prop} {check unlockCheck : Prog (atomics 32) Unit}
    (hcheck : Checks V check) (hv : V v) (hunlock : Reports v unlockCheck) :
    Reports v (returning (exclusiveUnlock check unlockCheck)) :=
  Reports.bind (hcheck.reports hv (hunlock.bind _)) _

/-- The check of a write unlock reports every word without the top bit. -/
theorem reports_sanityCheckRdwrlockUnlockMutex (hv : v.toNat < 2 ^ 31) :
    Reports v (sanityCheckRdwrlockUnlockMutex true) := by
  have hand : v &&& TOP_BIT = 0 := (and_top_eq_zero_iff v).mpr hv
  refine .look ?_
  simp only [Prog.bind, hand]
  split
  · rename_i htop
    cases htop
  · split
    · exact .error
    · exact .error

/-- The check of a read unlock reports the writer's word and the word of a free lock. -/
theorem reports_sanityCheckRdwrlockUnlockSharedMutex (hv : v = TOP_BIT ∨ v = 0) :
    Reports v (sanityCheckRdwrlockUnlockSharedMutex true) := by
  refine .look ?_
  rcases hv with rfl | rfl
  · exact .error
  · exact .error

/-- The check of a mutex unlock reports the word of a free mutex. -/
theorem reports_sanityCheckWrlockUnlockMutex : Reports 0 (sanityCheckWrlockUnlockMutex true) :=
  .look .error

end

/-! ## Calls that return -/

section
variable {v : BitVec 32} {V : BitVec 32 → Prop} {check unlockCheck : Prog (atomics 32) Unit}

/-- A check that has no objection returns. -/
theorem Checks.within (h : Checks V check) (hv : V v) :
    ∃ n, Within wordStep (fun _ v' => v' = v) n check v := by
  induction h with
  | pass => exact ⟨0, Within.ret rfl⟩
  | look _ ih =>
    obtain ⟨n, hn⟩ := ih v hv
    refine ⟨n + 1, ⟨v, v, .loadN v _⟩, ?_⟩
    intro a v' heff
    cases heff
    exact hn

/-- A release whose checks pass is over after a few steps. -/
theorem within_exclusiveUnlock (hcheck : Checks V check) (hunlock : Checks V unlockCheck)
    (hv : V v) : ∃ n, Within wordStep (fun _ _ => True) n
      (returning (exclusiveUnlock check unlockCheck)) v := by
  obtain ⟨n, hn⟩ := hcheck.within hv
  obtain ⟨k, hk⟩ := hunlock.within hv
  have hbody : Within wordStep (fun _ _ => True) (n + (k + 1))
      (exclusiveUnlock check unlockCheck) v := by
    refine Within.seq hn ?_
    rintro _ _ rfl
    refine Within.seq hk ?_
    rintro _ v rfl
    exact within_act (o := .storeN 0 .release) ⟨(), 0, .storeN v 0 _⟩ fun _ _ _ => trivial
  refine ⟨_, Within.seq (k := 0) hbody ?_⟩
  intro _ _ _
  exact Within.pure trivial

theorem within_rwlockReadUnlock (hcheck : Checks V (sanityCheckRdwrlockMutex true))
    (hunlock : Checks V (sanityCheckRdwrlockUnlockSharedMutex true)) (hv : V v) :
    ∃ n, Within wordStep (fun _ _ => True) n (returning (rwlockReadUnlock true)) v := by
  obtain ⟨n, hn⟩ := hcheck.within hv
  obtain ⟨k, hk⟩ := hunlock.within hv
  have hbody : Within wordStep (fun _ _ => True) (n + (k + (1 + 0))) (rwlockReadUnlock true) v := by
    refine Within.seq hn ?_
    rintro _ _ rfl
    refine Within.seq hk ?_
    rintro _ v rfl
    refine Within.seq (Q := fun _ _ => True)
      (within_act (o := .fetchSub 1 .acquire) ⟨v, v - 1, .fetchSub v 1 _⟩ fun _ _ _ => trivial) ?_
    intro _ _ _
    exact Within.pure trivial
  refine ⟨_, Within.seq (k := 0) hbody ?_⟩
  intro _ _ _
  exact Within.pure trivial

end

/-! ## The readers/writer lock -/

/-- What the word of either lock can be. -/
theorem LockApi.Encodes.any {Call : Type} {A : LockApi Call} {word : BitVec 32} {a : RWLock Unit}
    (h : A.Encodes word a) (hexcl : a.Exclusive) (hroom : a.readers.card < A.cap) :
    word = A.wr ∨ word.toNat < A.cap :=
  h.shows (x := .acquireWrite) (t := ()) hexcl hroom fun hgives => by cases hgives

/-- The checks of a readers/writer lock catch every mispaired release. -/
theorem rwlock_catches (F : Features) : rwlockApi.Catches (RwlockCall.prog true F) := by
  rintro a m c henc hexcl hroom ⟨hgives, hperm⟩
  have hany := henc.any hexcl hroom
  have hcheck : Checks (fun v => v = m.word) (sanityCheckRdwrlockMutex true) :=
    checks_sanityCheckRdwrlockMutex true fun v hv => hv ▸ hany
  cases c with
  | rdlock | wrlock | timedwrlock | trylock | trylockShared => cases hgives
  | unlock =>
    have hfree : a.writer = none := by
      cases hw : a.writer with
      | none => rfl
      | some u => exact absurd hw hperm
    have hlt : m.word.toNat < 2 ^ 31 := henc.of_free hfree ▸ hroom
    exact (reports_exclusiveUnlock hcheck rfl
      (reports_sanityCheckRdwrlockUnlockMutex hlt)).reportsError
  | readUnlock =>
    have hword : m.word = TOP_BIT ∨ m.word = 0 := by
      cases hw : a.writer with
      | some u => exact Or.inl (henc.of_writer hw)
      | none =>
        have hnil : a.readers = 0 := Multiset.eq_zero_of_forall_notMem fun _ => hperm
        have hcard := henc.of_free hw
        rw [hnil] at hcard
        exact Or.inr (BitVec.eq_of_toNat_eq hcard)
    exact (Reports.bind (hcheck.reports rfl ((reports_sanityCheckRdwrlockUnlockSharedMutex
      hword).bind _)) _).reportsError

/-- The functions that wait for a limited time. -/
def RwlockCall.timed : RwlockCall → Bool
  | .timedwrlock _ _ => true
  | .rdlock _ | .wrlock _ | .trylock | .trylockShared | .unlock | .readUnlock => false

/-- Every other call returns, unless it waits for ever. -/
theorem rwlock_returns (F : Features) {a : RWLock Unit} {m : Alone} {c : RwlockCall}
    (henc : rwlockApi.Encodes m.word a) (hexcl : a.Exclusive) (hroom : a.readers.card < 2 ^ 31)
    (hmis : ¬ rwlockApi.Mispaired a c) (hblocks : ¬ rwlockApi.Blocks a c)
    (htimed : c.timed = false) : Returns Alone.answer (RwlockCall.prog true F c) m := by
  have hany := henc.any hexcl hroom
  have hcheck : Checks (fun v => v = m.word) (sanityCheckRdwrlockMutex true) :=
    checks_sanityCheckRdwrlockMutex true fun v hv => hv ▸ hany
  cases c with
  | rdlock lowPower =>
    have hfree : a.writer = none := by
      by_contra hne
      exact hblocks ⟨rfl, rfl, hne⟩
    have hlt : m.word.toNat < 2 ^ 31 := henc.of_free hfree ▸ hroom
    exact Alone.returns (within_rdlock true F hlt lowPower)
  | wrlock lowPower =>
    have hfree : a.writer = none ∧ a.readers = 0 := by
      by_contra hne
      exact hblocks ⟨rfl, rfl, hne⟩
    have hcard := henc.of_free hfree.1
    rw [hfree.2] at hcard
    have hzero : m.word = 0 := BitVec.eq_of_toNat_eq hcard
    exact Alone.returns (hzero ▸ within_wrlock true F lowPower)
  | timedwrlock nanoseconds lowPower => cases htimed
  | trylock => exact Alone.returns (within_trylock true F hany)
  | trylockShared => exact Alone.returns (within_trylockShared true F hany)
  | unlock =>
    have hwriter : a.writer = some () := LockApi.permitted_of_paired hmis rfl
    have hword : m.word = TOP_BIT := henc.of_writer hwriter
    obtain ⟨n, hn⟩ := within_exclusiveUnlock hcheck
      (checks_sanityCheckRdwrlockUnlockMutex true fun v hv => hv.trans hword) rfl
    exact Alone.returns hn
  | readUnlock =>
    have hshows : 0 < m.word.toNat ∧ m.word.toNat < 2 ^ 31 :=
      henc.shows hexcl hroom (LockApi.permitted_of_paired hmis)
    obtain ⟨n, hn⟩ := within_rwlockReadUnlock hcheck
      (checks_sanityCheckRdwrlockUnlockSharedMutex true fun v hv => hv ▸ hshows) rfl
    exact Alone.returns hn

/-! ## The mutex -/

/-- The word of a mutex: 1 while it is held and 0 otherwise. -/
theorem mutex_word_alone {a : RWLock Unit} {word : BitVec 32} (h : mutexApi.Encodes word a)
    (hroom : a.readers.card < 1) :
    a.writer = some () ∧ word = 1 ∨ a.writer = none ∧ word = 0 := by
  cases hw : a.writer with
  | some u => exact Or.inl ⟨rfl, h.of_writer hw⟩
  | none =>
    have hcard := h.of_free hw
    have hzero : word.toNat = 0 := by omega
    exact Or.inr ⟨rfl, BitVec.eq_of_toNat_eq hzero⟩

/-- So do those of a mutex. -/
theorem mutex_catches (F : Features) : mutexApi.Catches (LockCall.prog true F) := by
  rintro a m c henc hexcl hroom ⟨hgives, hperm⟩
  have hword := mutex_word_alone henc hroom
  cases c with
  | lock | trylock | timedlock => cases hgives
  | unlock =>
    rcases hword with ⟨hwriter, -⟩ | ⟨-, hzero⟩
    · exact absurd hwriter hperm
    · have hcheck : Checks (fun v => v = m.word) (sanityCheckWrlockMutex true) :=
        checks_sanityCheckWrlockMutex true fun v hv => Or.inl (hv.trans hzero)
      exact (reports_exclusiveUnlock hcheck rfl
        (hzero ▸ reports_sanityCheckWrlockUnlockMutex)).reportsError

/-- The functions that wait for a limited time. -/
def LockCall.timed : LockCall → Bool
  | .timedlock _ _ => true
  | .lock _ | .trylock | .unlock => false

theorem mutex_returns (F : Features) {a : RWLock Unit} {m : Alone} {c : LockCall}
    (henc : mutexApi.Encodes m.word a) (hroom : a.readers.card < 1)
    (hmis : ¬ mutexApi.Mispaired a c) (hblocks : ¬ mutexApi.Blocks a c)
    (htimed : c.timed = false) : Returns Alone.answer (LockCall.prog true F c) m := by
  have hword := mutex_word_alone henc hroom
  have hcheck : Checks (fun v => v = m.word) (sanityCheckWrlockMutex true) :=
    checks_sanityCheckWrlockMutex true fun v hv => hv ▸ hword.symm.imp And.right And.right
  obtain ⟨n, hn⟩ := hcheck.within rfl
  cases c with
  | lock lowPower =>
    rcases hword with ⟨hwriter, -⟩ | ⟨-, hzero⟩
    · refine absurd ⟨rfl, rfl, fun hperm => ?_⟩ hblocks
      rw [hperm.1] at hwriter
      cases hwriter
    · rw [hzero] at hn
      have hcall : Within wordStep (fun _ _ => True) (n + (1 + 1) + 0)
          (LockCall.prog true F (.lock lowPower)) 0 := by
        refine Within.seq (within_exclusiveLock F hn lowPower) ?_
        intro _ _ _
        exact Within.pure trivial
      exact Alone.returns (hzero ▸ hcall)
  | trylock => exact Alone.returns (within_exclusiveTrylock hn)
  | timedlock nanoseconds lowPower => cases htimed
  | unlock =>
    rcases hword with ⟨-, hone⟩ | ⟨hnone, -⟩
    · obtain ⟨n, hn⟩ := within_exclusiveUnlock hcheck
        (checks_sanityCheckWrlockUnlockMutex true fun v hv => hv.trans hone) rfl
      exact Alone.returns hn
    · have hwriter : a.writer = some () := LockApi.permitted_of_paired hmis rfl
      rw [hnone] at hwriter
      cases hwriter

/-! ## Every mis-paired unlock is caught -/

/-- **The debug checks catch every mis-paired unlock.**  On every platform, after every sequential
    history of the debug build in which fewer than 2^31 read holds were ever outstanding: none of
    its calls was a mis-paired unlock; the word is 2^31 under a writer, who is alone, and the number
    of read holds otherwise; and the next call, whichever it is, reports an error exactly if it is a
    mis-paired unlock, with the word as it was.  So it is for the mutex, whose word is 1 while it
    is held and 0 otherwise. -/
theorem mispaired_unlocks_caught (P : Platform) :
    (∀ calls m, CallHistory (RwlockCall.prog true P.features) calls m → rwlockApi.RoomFor calls →
        rwlockApi.WellPaired calls ∧
        ((rwlockApi.holds calls).writer = some () →
          m.word = TOP_BIT ∧ (rwlockApi.holds calls).readers = 0) ∧
        ((rwlockApi.holds calls).writer = none →
          m.word.toNat = (rwlockApi.holds calls).readers.card) ∧
        ∀ c, rwlockApi.Judged (RwlockCall.prog true P.features) RwlockCall.timed
          (rwlockApi.holds calls) m c) ∧
      (∀ calls m, CallHistory (LockCall.prog true P.features) calls m →
        mutexApi.WellPaired calls ∧
        ((mutexApi.holds calls).writer = some () → m.word = 1) ∧
        ((mutexApi.holds calls).writer = none → m.word = 0) ∧
        ∀ c, mutexApi.Judged (LockCall.prog true P.features) LockCall.timed
          (mutexApi.holds calls) m c) := by
  constructor
  · intro calls m h hroom
    have hconf := rwlockApi_conforms true P
    have hcatch := rwlock_catches P.features
    obtain ⟨hpaired, henc, hexcl⟩ := h.encodes hconf hcatch hroom
    have hnow := hroom calls (List.prefix_refl _)
    refine ⟨hpaired, fun hw => ⟨henc.of_writer hw, hexcl _ hw⟩, henc.of_free, fun c => ?_⟩
    exact LockApi.judged hconf hcatch henc hexcl hnow (rwlock_returns P.features henc hexcl hnow)
  · intro calls m h
    have hconf := mutexApi_conforms true P
    have hcatch := mutex_catches P.features
    have hroom := mutexApi_writeOnly.roomFor calls
    obtain ⟨hpaired, henc, hexcl⟩ := h.encodes hconf hcatch hroom
    have hnow := hroom calls (List.prefix_refl _)
    refine ⟨hpaired, henc.of_writer, fun hw => ?_, fun c => ?_⟩
    · rcases mutex_word_alone henc hnow with ⟨hsome, -⟩ | ⟨-, hzero⟩
      · rw [hw] at hsome
        cases hsome
      · exact hzero
    · exact LockApi.judged hconf hcatch henc hexcl hnow (mutex_returns P.features henc hnow)

/-- `wfe_mutex_rwlock_trylock`, then `wfe_mutex_rwlock_read_unlock`. -/
theorem mispaired_unlocks_caught_readUnlock :
    ∃ m, CallHistory (RwlockCall.prog true Platform.uninitialised.features) [(.trylock, true)] m ∧
      m.word = TOP_BIT ∧
      ReportsError (RwlockCall.prog true Platform.uninitialised.features .readUnlock) m := by
  have hsteps : Steps Alone.answer
      (RwlockCall.prog true Platform.uninitialised.features .trylock) ⟨0, fun _ => 0⟩
      (.ret true) ⟨TOP_BIT, fun _ => 0⟩ := .op rfl (.op rfl (.refl _ _))
  have hhistory := (CallHistory.start (m := ⟨0, fun _ => 0⟩) rfl).call hsteps
  have hroom : rwlockApi.RoomFor [(.trylock, true)] := by
    intro before hbefore
    have hholds : (rwlockApi.holds before).readers = 0 := by
      rcases List.prefix_cons_iff.mp hbefore with rfl | ⟨rest, rfl, hrest⟩
      · rfl
      · rw [List.prefix_nil.mp hrest]
        rfl
    rw [hholds]
    exact Nat.two_pow_pos 31
  obtain ⟨-, hwriter, -, hnext⟩ :=
    (mispaired_unlocks_caught Platform.uninitialised).1 _ _ hhistory hroom
  refine ⟨_, hhistory, (hwriter rfl).1, (hnext .readUnlock).caught ⟨rfl, ?_⟩⟩
  exact Multiset.notMem_zero ()

end WfeMutex
