/-
  THE CALLS OF A RUN: what one thread's call has done so far, and programs that watch over it.

  `lastCall t tr` is the call that thread `t` started last in the run `tr`, with the operations it
  has performed and the answers it got, whatever the other threads did in between.  That list is a
  trace of the call's program (`lastCall_trace`), so what is proved of all traces of a program holds
  of all its calls in all interleavings.

  A `Watch` reads such a list: in a state it allows certain operations, and an answered operation
  takes it to its next state.  `Watch.proto` is the protocol of a program that only performs what
  the watch allows; a `Spec` under it makes the watch accept every trace of the program
  (`Watch.accepts_of_spec`).
-/
import WfeMutex.Conc.Pool

set_option linter.unusedVariables false

namespace Conc

variable {S : Sig} {Tid Call Res L α : Type}

/-! ## Watches -/

/-- An automaton over answered operations. -/
structure Watch (S : Sig) (L : Type) where
  allows : L → S.Op → Prop
  next : L → (o : S.Op) → S.Ans o → L

namespace Watch

variable (A : Watch S L)

/-- Perform only what is allowed; any answer may come. -/
def proto : Proto S L where
  pre := A.allows
  post l o a l' := l' = A.next l o a

/-- From the state `l`, every operation of the list is allowed when it comes. -/
def Accepts : L → List (Act S) → Prop
  | _, [] => True
  | l, ⟨o, a⟩ :: acts => A.allows l o ∧ Accepts (A.next l o a) acts

/-- Where the list leads. -/
def run : L → List (Act S) → L
  | l, [] => l
  | l, ⟨o, a⟩ :: acts => run (A.next l o a) acts

/-- A watch admits every list, and follows it. -/
theorem admits_run (l : L) (acts : List (Act S)) : A.proto.Admits l acts (A.run l acts) := by
  induction acts generalizing l with
  | nil => exact .nil l
  | cons x acts ih => exact .cons rfl (ih _)

variable {A}

/-- What is proved of a program's returns holds where its traces end. -/
theorem run_of_spec {p : Prog S α} {a : α} {l : L} {Q : α → L → Prop} {acts : List (Act S)}
    (h : Spec A.proto p l Q) (htr : Prog.Trace p acts (.ret a)) : Q a (A.run l acts) :=
  (h.along htr (A.admits_run l acts)).out

/-- A program that keeps the watch's protocol is accepted at every moment. -/
theorem accepts_of_spec {p q : Prog S α} {l : L} {Q : α → L → Prop} {acts : List (Act S)}
    (h : Spec A.proto p l Q) (htr : Prog.Trace p acts q) : A.Accepts l acts := by
  induction htr generalizing l with
  | nil p => trivial
  | op _ ih =>
    obtain ⟨hpre, hk⟩ := h.out
    exact ⟨hpre, ih (hk _ _ rfl)⟩
  | jump _ ih => exact ih h.out

end Watch

/-! ## The latest call of a thread -/

section
variable {W : World S Tid Call Res} [DecidableEq Tid] {prog : Call → Prog S Res}

/-- What is known of `t`'s latest call after one more step. -/
def noteEvent (t : Tid) (now : Option (Call × List (Act S))) :
    Event S Tid Call Res → Option (Call × List (Act S))
  | .call u c => if u = t then some (c, []) else now
  | .op u _ o a => if u = t then now.map fun x => (x.1, x.2 ++ [⟨o, a⟩]) else now
  | _ => now

/-- `t`'s latest call in a run, with its operations and their answers. -/
def lastCall (t : Tid) (tr : List (Trans W)) : Option (Call × List (Act S)) :=
  tr.foldl (fun now x => noteEvent t now x.ev) none

theorem lastCall_snoc (t : Tid) (tr : List (Trans W)) (x : Trans W) :
    lastCall t (tr ++ [x]) = noteEvent t (lastCall t tr) x.ev := by
  unfold lastCall
  rw [List.foldl_append]
  rfl

/-- The list is a trace of the call's program, and leads to where the thread stands. -/
def Follows (prog : Call → Prog S Res) (now : Option (Call × List (Act S)))
    (thread : Option (Call × Prog S Res)) : Prop :=
  ∀ c acts, now = some (c, acts) →
    ∃ q, Prog.Trace (prog c) acts q ∧ ∀ d p, thread = some (d, p) → d = c ∧ p = q

namespace Follows

variable {now : Option (Call × List (Act S))} {c : Call} {acts : List (Act S)} {p : Prog S Res}

/-- Inside the call `c`, with `p` left to do. -/
theorem inside (h : Follows prog now (some (c, p))) (hnow : now = some (c, acts)) :
    Prog.Trace (prog c) acts p := by
  obtain ⟨q, htr, hq⟩ := h c acts hnow
  obtain ⟨-, rfl⟩ := hq c p rfl
  exact htr

/-- A thread is inside its latest call. -/
theorem same {d : Call} (h : Follows prog now (some (c, p))) (hnow : now = some (d, acts)) :
    d = c := by
  obtain ⟨q, -, hq⟩ := h d acts hnow
  exact (hq c p rfl).1.symm

theorem of_inside (h : Prog.Trace (prog c) acts p) :
    Follows prog (some (c, acts)) (some (c, p)) := by
  intro c' acts' hnow
  cases hnow
  refine ⟨p, h, ?_⟩
  intro d q hthread
  cases hthread
  exact ⟨rfl, rfl⟩

/-- The list outlives the call. -/
theorem outside {thread : Option (Call × Prog S Res)} (h : Follows prog now thread) :
    Follows prog now none := by
  intro c acts hnow
  obtain ⟨q, htr, _⟩ := h c acts hnow
  refine ⟨q, htr, ?_⟩
  intro d p hthread
  cases hthread

theorem unknown (thread : Option (Call × Prog S Res)) : Follows prog none thread := by
  intro c acts hnow
  cases hnow

/-- **One step** of any thread keeps the list a trace. -/
theorem step {t : Tid} {s s' : Pool W} {e : Event S Tid Call Res}
    (h : Follows prog now (s.thread t)) (hstep : Pool.Step prog s e s') :
    Follows prog (noteEvent t now e) (s'.thread t) := by
  by_cases he : e.tid = t
  · cases hstep with
    | @call u d m hnone hcall =>
      obtain rfl : u = t := he
      rw [noteEvent, if_pos rfl, Pool.put_thread_self]
      exact of_inside (.nil _)
    | @op u d o k a m hop hexec =>
      obtain rfl : u = t := he
      rw [noteEvent, if_pos rfl, Pool.put_thread_self]
      rw [hop] at h
      rcases hnow : now with _ | ⟨c, acts⟩
      · exact unknown _
      · obtain rfl := h.same hnow
        exact of_inside ((h.inside hnow).append (.op (.nil _)))
    | @jump u d σ β body x k hloop =>
      obtain rfl : u = t := he
      rw [Pool.put_thread_self]
      rw [hloop] at h
      show Follows prog now _
      rcases hnow : now with _ | ⟨c, acts⟩
      · exact unknown _
      · obtain rfl := h.same hnow
        have htr := (h.inside hnow).append (.jump (.nil _))
        rw [List.append_nil] at htr
        exact of_inside htr
    | @ret u d r m hret hmem =>
      obtain rfl : u = t := he
      rw [Pool.put_thread_self]
      exact h.outside
    | @client u m hnone hclient =>
      obtain rfl : u = t := he
      rw [Pool.put_thread_self]
      exact h.outside
  · have hnote : noteEvent t now e = now := by
      cases e with
      | call u c => exact if_neg he
      | op u c o a => exact if_neg he
      | jump u => rfl
      | ret u c r => rfl
      | client u => rfl
    rw [hnote, hstep.thread_of_ne he]
    exact h

/-- **A run** of any threads keeps it too. -/
theorem run {t : Tid} {s s' : Pool W} {tr : List (Trans W)} (h : Follows prog now (s.thread t))
    (hrun : Run prog s tr s') :
    Follows prog (tr.foldl (fun now x => noteEvent t now x.ev) now) (s'.thread t) := by
  induction hrun generalizing now with
  | nil s => exact h
  | cons hstep _ ih => exact ih (h.step hstep)

end Follows

/-- **What a call has done is a trace of its program.** -/
theorem lastCall_trace {m : W.Mem} {s : Pool W} {tr : List (Trans W)} {t : Tid} {c : Call}
    {acts : List (Act S)} (hrun : Run prog (Pool.start m) tr s)
    (h : lastCall t tr = some (c, acts)) : ∃ q, Prog.Trace (prog c) acts q := by
  obtain ⟨q, htr, _⟩ := (Follows.unknown _).run hrun c acts h
  exact ⟨q, htr⟩

/-! ### Since the call began -/

/-- The operation of `t` that an event is, with its answer. -/
def actOf (t : Tid) : Event S Tid Call Res → Option (Act S)
  | .op u _ o a => if u = t then some ⟨o, a⟩ else none
  | _ => none

/-- The operations of `t` in a stretch of a run. -/
def actsOf (t : Tid) (tr : List (Trans W)) : List (Act S) := tr.filterMap fun x => actOf t x.ev

/-- Within a call the operations are appended one by one. -/
theorem noteEvent_act {t : Tid} {c : Call} {acts : List (Act S)} {e : Event S Tid Call Res}
    (h : ∀ d, e ≠ .call t d) :
    noteEvent t (some (c, acts)) e = some (c, acts ++ (actOf t e).toList) := by
  cases e with
  | call u d =>
    have hu : u ≠ t := fun hu => h d (by rw [hu])
    simp [noteEvent, actOf, hu]
  | op u d o a =>
    by_cases hu : u = t
    · simp [noteEvent, actOf, hu]
    · simp [noteEvent, actOf, hu]
  | jump u => simp [noteEvent, actOf]
  | ret u d r => simp [noteEvent, actOf]
  | client u => simp [noteEvent, actOf]

/-- Without another call of `t` they are those of the call it is inside. -/
theorem noteEvent_acts {t : Tid} {c : Call} {tr : List (Trans W)} {acts : List (Act S)}
    (h : ∀ x ∈ tr, ∀ d, x.ev ≠ .call t d) :
    tr.foldl (fun now x => noteEvent t now x.ev) (some (c, acts)) =
      some (c, acts ++ actsOf t tr) := by
  induction tr generalizing acts with
  | nil => simp [actsOf]
  | cons x tr ih =>
    have hrest := fun y hy => h y (List.mem_cons_of_mem x hy)
    have hacts : actsOf t (x :: tr) = (actOf t x.ev).toList ++ actsOf t tr := by
      unfold actsOf
      cases hx : actOf t x.ev with
      | none => simp [hx]
      | some y => simp [hx]
    rw [List.foldl_cons, noteEvent_act (h x List.mem_cons_self), ih hrest, hacts,
      List.append_assoc]

/-- **What a call has done since it began** leads to where its thread stands. -/
theorem actsOf_trace {s₀ s₁ s : Pool W} {t : Tid} {c : Call} {tr : List (Trans W)}
    (hcall : Pool.Step prog s₀ (.call t c) s₁) (hrun : Run prog s₁ tr s)
    (h : ∀ x ∈ tr, ∀ d, x.ev ≠ .call t d) {d : Call} {p : Prog S Res}
    (hthread : s.thread t = some (d, p)) : d = c ∧ Prog.Trace (prog c) (actsOf t tr) p := by
  have hstart : Follows prog (some (c, [])) (s₁.thread t) := by
    cases hcall with
    | call _ _ =>
      rw [Pool.put_thread_self]
      exact Follows.of_inside (.nil _)
  have hend := hstart.run hrun
  rw [noteEvent_acts h, List.nil_append, hthread] at hend
  obtain rfl := hend.same rfl
  exact ⟨rfl, hend.inside rfl⟩

/-- The state `s` is reached from `m`, and `t`'s latest call is known to have done `now`. -/
def Watched (prog : Call → Prog S Res) (m : W.Mem) (t : Tid) (s : Pool W)
    (now : Option (Call × List (Act S))) : Prop :=
  ∃ tr, Run prog (Pool.start m) tr s ∧ lastCall t tr = now

theorem Watched.start (prog : Call → Prog S Res) (m : W.Mem) (t : Tid) :
    Watched prog m t (Pool.start m) none := ⟨[], .nil _, rfl⟩

/-- What is known of a thread's latest call is kept up to date by every step. -/
theorem Watched.step {m : W.Mem} {t : Tid} {s s' : Pool W} {e : Event S Tid Call Res}
    {now : Option (Call × List (Act S))} (h : Watched prog m t s now)
    (hstep : Pool.Step prog s e s') : Watched prog m t s' (noteEvent t now e) := by
  obtain ⟨tr, hrun, hnow⟩ := h
  refine ⟨_, hrun.snoc hstep, ?_⟩
  rw [lastCall_snoc, hnow]

end

end Conc
