/-
  THE DEBUG CHECKS (`WFE_MUTEX_DEBUG = 1`) on a program that uses its locks correctly.

  A check loads the word on its own, races with every other thread, and ends in `print_error` if it
  does not like what it sees.  Conformance says already that it never gets there: the protocol of
  a call has no place for an error report, whatever the other threads do between the check's load
  and its neighbours.  And since the checks add nothing but their loads, every run of the debug
  build is a run of the build without checks, step by step the same memory, the same operations,
  and the same results.
-/
import WfeMutex.Lock.Mutex
import WfeMutex.Lock.Rwlock

set_option linter.unusedVariables false

namespace WfeMutex

open Conc

section
variable {Call Tid : Type} [DecidableEq Tid] {A : LockApi Call}
  {prog prog' : Call → Prog (atomics 32) Bool}

/-- No thread is about to enter `print_error`. -/
def NeverReports (s : Pool (A.world Tid)) : Prop :=
  ∀ t c msg k, s.thread t ≠ some (c, .op (.printError msg) k)

/-- Nobody is ever about to report an error. -/
theorem LockApi.neverReports (hconf : A.Conforms prog) {s : Pool (A.world Tid)}
    (hs : A.Reachable prog s) : NeverReports s := by
  intro t c msg k ht
  obtain ⟨ph, hcov⟩ := LockApi.covers hconf hs
  obtain ⟨l, -, hspec⟩ := hcov.busy ht
  obtain ⟨⟨-, hpre⟩, -⟩ := hspec.out
  exact LockApi.not_mayReport hpre

/-- A check's load leaves the memory alone. -/
theorem LockApi.exec_check {t : Tid} {c : Call} {o : Op 32} {a : o.Ans} {m m' : LockMem Tid}
    (ho : IsCheck o) (hexec : (A.world Tid).exec t c o a m m') : m' = m := by
  obtain rfl := ho
  obtain ⟨v, heff, rfl⟩ := hexec
  exact LockMem.answer_look heff rfl

/-- The run `tr` of `prog` is, without some loads of checks, a run of `prog'` to the same memory. -/
def LockApi.RunsAs (A : LockApi Call) (prog' : Call → Prog (atomics 32) Bool)
    (tr : List (Trans (A.world Tid))) (s : Pool (A.world Tid)) : Prop :=
  ∃ tr' s', Run prog' (Pool.start (LockMem.initializer Tid)) tr' s' ∧ Thins IsCheck tr tr' ∧
    s'.mem = s.mem

/-- A run with checks is one without them. -/
theorem LockApi.Erases.runsAs (h : A.Erases prog prog') {tr : List (Trans (A.world Tid))}
    {s : Pool (A.world Tid)} (hrun : Run prog (Pool.start (LockMem.initializer Tid)) tr s)
    (hroom : ∀ x ∈ tr, A.Room x.dst.mem) : A.RunsAs prog' tr s :=
  Outline.erase (O := LockApi.outline h.conforms) h (fun _ _ _ _ _ _ => LockApi.exec_check)
    LockInv.initial hrun hroom

end

section
variable {Tid : Type} [DecidableEq Tid]

/-- **The debug checks never fire on a correct program.**  On every platform, in every state of
    every interleaving of the debug build, of either lock, no thread is about to report an error;
    and every run of the debug build is, up to the loads of the checks, a run of the build without
    them. -/
theorem debug_checks_never_fire (P : Platform) :
    (∀ s : Pool (mutexApi.world Tid), MutexReachable (LockCall.prog true P.features) s →
        NeverReports s) ∧
      (∀ s : Pool (rwlockApi.world Tid),
        rwlockApi.Reachable (RwlockCall.prog true P.features) s → NeverReports s) ∧
      (∀ tr (s : Pool (mutexApi.world Tid)),
        Run (LockCall.prog true P.features) (Pool.start (LockMem.initializer Tid)) tr s →
        mutexApi.RunsAs (LockCall.prog false P.features) tr s) ∧
      (∀ tr (s : Pool (rwlockApi.world Tid)),
        Run (RwlockCall.prog true P.features) (Pool.start (LockMem.initializer Tid)) tr s →
        (∀ x ∈ tr, rwlockApi.Room x.dst.mem) →
        rwlockApi.RunsAs (RwlockCall.prog false P.features) tr s) := by
  refine ⟨fun s hs => ?_, fun s hs => ?_, fun tr s hrun => ?_, fun tr s hrun hroom => ?_⟩
  · exact LockApi.neverReports (mutexApi_conforms true P) (mutexApi_writeOnly.reachable hs)
  · exact LockApi.neverReports (rwlockApi_conforms true P) hs
  · exact (mutexApi_erases true P).runsAs hrun (mutexApi_writeOnly.room hrun)
  · exact (rwlockApi_erases true P).runsAs hrun hroom

end

/-- Thread `true` is inside `wfe_mutex_lock_trylock` of the debug build, past its check and its
    exchange. -/
theorem debug_checks_never_fire_taken :
    ∃ s : Pool (mutexApi.world Bool),
      MutexReachable (LockCall.prog true Platform.uninitialised.features) s ∧ s.mem.word = 1 ∧
        NeverReports s := by
  have hrun : ∃ s : Pool (mutexApi.world Bool),
      MutexReachable (LockCall.prog true Platform.uninitialised.features) s ∧ s.mem.word = 1 :=
    ⟨_, ⟨_, .cons (.call (t := true) (c := LockCall.trylock) rfl ⟨trivial, rfl⟩)
      (.cons (.op (t := true) (c := LockCall.trylock) rfl ⟨_, .loadN 0 .seqCst, rfl⟩)
        (.cons (.op (t := true) (c := LockCall.trylock) rfl ⟨_, .exchanged 0 1 _ _, rfl⟩)
          (.nil _))), fun _ _ => trivial⟩, rfl⟩
  obtain ⟨s, hs, hword⟩ := hrun
  exact ⟨s, hs, hword, (debug_checks_never_fire Platform.uninitialised).1 s hs⟩

end WfeMutex
