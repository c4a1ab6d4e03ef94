/-
  THE ABSTRACT READERS/WRITER LOCK.

  What such a lock is for, with no word and no code: at most one writer, any number of read holds
  (a multiset, since one thread may hold several), never both.  A `LockAct` is what a call of a
  lock does to it; `permitted` says when the abstract lock allows it and `apply` what it becomes.
  `RWLock.Exclusive` is the invariant the permitted steps keep.

  `Held` counts the holds of one thread.  A client keeps such a count for itself, from the results
  of its calls: a release is paid for when the call starts (`spend`), an acquisition is credited
  when the call has returned `true` (`gain`).  `held_apply_self` says that the lock's own step is
  the one move between the two: `move (pending h) = gain h`.

  A lock without readers (a mutex) is the same object, used with the two write acts only.
-/
import Mathlib.Data.Multiset.Count
import Mathlib.Algebra.Order.Group.Multiset

namespace Conc

/-- Who holds the lock: the writer, if any, and one element for every read hold. -/
@[ext] structure RWLock (Tid : Type) where
  writer : Option Tid
  readers : Multiset Tid

/-- What a call does to the lock. -/
inductive LockAct where
  | acquireRead | acquireWrite | releaseRead | releaseWrite
  deriving DecidableEq, Repr

/-- The holds of one thread. -/
@[ext] structure Held where
  reads : Nat
  writes : Nat
  deriving DecidableEq, Repr

/-! ## The abstract lock -/

section
variable {Tid : Type} [DecidableEq Tid]

/-- The lock nobody holds. -/
def RWLock.free : RWLock Tid := ⟨none, 0⟩

/-- When thread `t` may do it. -/
def LockAct.permitted (t : Tid) (a : RWLock Tid) : LockAct → Prop
  | .acquireRead => a.writer = none
  | .acquireWrite => a.writer = none ∧ a.readers = 0
  | .releaseRead => t ∈ a.readers
  | .releaseWrite => a.writer = some t

/-- Does it give a hold back? -/
def LockAct.gives : LockAct → Bool
  | .acquireRead | .acquireWrite => false
  | .releaseRead | .releaseWrite => true

/-- What the lock becomes. -/
def LockAct.apply (t : Tid) (a : RWLock Tid) : LockAct → RWLock Tid
  | .acquireRead => { a with readers := t ::ₘ a.readers }
  | .acquireWrite => { a with writer := some t }
  | .releaseRead => { a with readers := a.readers.erase t }
  | .releaseWrite => { a with writer := none }

/-- A writer excludes readers. -/
def RWLock.Exclusive (a : RWLock Tid) : Prop := ∀ t, a.writer = some t → a.readers = 0

/-- A permitted act keeps readers and writer apart. -/
theorem RWLock.exclusive_apply {a : RWLock Tid} {x : LockAct} {t : Tid} (h : a.Exclusive)
    (hx : x.permitted t a) : (x.apply t a).Exclusive := by
  intro u hu
  cases x with
  | acquireRead =>
    have hnone : a.writer = none := hx
    rw [show (LockAct.apply t a .acquireRead).writer = a.writer from rfl, hnone] at hu
    cases hu
  | acquireWrite => exact hx.2
  | releaseRead =>
    have h0 : a.readers = 0 := h u hu
    have ht : t ∈ a.readers := hx
    rw [h0] at ht
    exact absurd ht (Multiset.notMem_zero t)
  | releaseWrite => cases hu

/-! ## The holds of one thread -/

/-- The holds of `t` in the lock. -/
def RWLock.held (a : RWLock Tid) (t : Tid) : Held :=
  ⟨a.readers.count t, if a.writer = some t then 1 else 0⟩

/-- What the lock's step does to the holds of its thread. -/
def LockAct.move (h : Held) : LockAct → Held
  | .acquireRead => { h with reads := h.reads + 1 }
  | .acquireWrite => { h with writes := h.writes + 1 }
  | .releaseRead => { h with reads := h.reads - 1 }
  | .releaseWrite => { h with writes := h.writes - 1 }

/-- A permitted step moves the holds of its own thread. -/
theorem RWLock.held_apply_self {a : RWLock Tid} {x : LockAct} {t : Tid} (hx : x.permitted t a) :
    (x.apply t a).held t = x.move (a.held t) := by
  cases x with
  | acquireRead => exact Held.ext (Multiset.count_cons_self ..) rfl
  | acquireWrite => simp [LockAct.apply, LockAct.move, RWLock.held, hx.1]
  | releaseRead => exact Held.ext (Multiset.count_erase_self ..) rfl
  | releaseWrite =>
    have hw : a.writer = some t := hx
    simp [LockAct.apply, LockAct.move, RWLock.held, hw]

/-- A permitted step leaves the holds of every other thread alone. -/
theorem RWLock.held_apply_ne {a : RWLock Tid} {x : LockAct} {t u : Tid} (hx : x.permitted t a)
    (hu : u ≠ t) : (x.apply t a).held u = a.held u := by
  cases x with
  | acquireRead => exact Held.ext (Multiset.count_cons_of_ne hu ..) rfl
  | acquireWrite => simp [LockAct.apply, RWLock.held, hx.1, Ne.symm hu]
  | releaseRead => exact Held.ext (Multiset.count_erase_of_ne hu ..) rfl
  | releaseWrite =>
    have hw : a.writer = some t := hx
    simp [LockAct.apply, RWLock.held, hw, Ne.symm hu]

/-- The write acts leave the readers alone. -/
theorem RWLock.readers_apply {a : RWLock Tid} {x : LockAct} {t : Tid}
    (hx : x = .acquireWrite ∨ x = .releaseWrite) : (x.apply t a).readers = a.readers := by
  rcases hx with rfl | rfl <;> rfl

/-- A thread holds the lock for writing if it is the writer. -/
theorem RWLock.held_writes_pos {a : RWLock Tid} {t : Tid} :
    0 < (a.held t).writes ↔ a.writer = some t := by
  unfold RWLock.held
  split
  · rename_i h
    exact iff_of_true Nat.one_pos h
  · rename_i h
    exact iff_of_false (Nat.lt_irrefl 0) h

/-- It holds the lock for reading if it is among the readers. -/
theorem RWLock.held_reads_pos {a : RWLock Tid} {t : Tid} :
    0 < (a.held t).reads ↔ t ∈ a.readers :=
  Multiset.count_pos

/-- Thread `t` holds the lock, in either mode. -/
def RWLock.Holder (a : RWLock Tid) (t : Tid) : Prop := a.writer = some t ∨ t ∈ a.readers

/-- A holder holds something. -/
theorem RWLock.Holder.held_ne {a : RWLock Tid} {t : Tid} (h : a.Holder t) : a.held t ≠ ⟨0, 0⟩ := by
  intro hzero
  rcases h with hw | hr
  · have hpos := RWLock.held_writes_pos.mpr hw
    rw [hzero] at hpos
    exact absurd hpos (Nat.lt_irrefl 0)
  · have hpos := RWLock.held_reads_pos.mpr hr
    rw [hzero] at hpos
    exact absurd hpos (Nat.lt_irrefl 0)

/-- What a thread must hold to stand in the way of an act. -/
def LockAct.barredBy (h : Held) : LockAct → Prop
  | .acquireRead => 0 < h.writes
  | .acquireWrite => 0 < h.reads ∨ 0 < h.writes
  | .releaseRead | .releaseWrite => False

/-- What keeps a thread from acquiring is what somebody holds. -/
theorem RWLock.exists_barring {a : RWLock Tid} {x : LockAct} {t : Tid} (hgives : x.gives = false)
    (hx : ¬ x.permitted t a) : ∃ u, x.barredBy (a.held u) := by
  cases hw : a.writer with
  | some u =>
    have hpos : 0 < (a.held u).writes := RWLock.held_writes_pos.mpr hw
    cases x with
    | acquireRead => exact ⟨u, hpos⟩
    | acquireWrite => exact ⟨u, Or.inr hpos⟩
    | releaseRead | releaseWrite => cases hgives
  | none =>
    cases x with
    | acquireRead => exact absurd hw hx
    | acquireWrite =>
      have hreaders : a.readers ≠ 0 := fun hnil => hx ⟨hw, hnil⟩
      obtain ⟨u, hu⟩ := Multiset.exists_mem_of_ne_zero hreaders
      exact ⟨u, Or.inl (RWLock.held_reads_pos.mpr hu)⟩
    | releaseRead | releaseWrite => cases hgives

/-- What keeps a thread from acquiring is a holder. -/
theorem RWLock.exists_holder {a : RWLock Tid} {x : LockAct} {t : Tid} (hgives : x.gives = false)
    (hx : ¬ x.permitted t a) : ∃ u, a.Holder u := by
  obtain ⟨u, hu⟩ := RWLock.exists_barring hgives hx
  refine ⟨u, ?_⟩
  cases x with
  | acquireRead => exact Or.inl (RWLock.held_writes_pos.mp hu)
  | acquireWrite => exact hu.symm.imp RWLock.held_writes_pos.mp RWLock.held_reads_pos.mp
  | releaseRead | releaseWrite => cases hgives

theorem RWLock.held_free (t : Tid) : (RWLock.free : RWLock Tid).held t = ⟨0, 0⟩ := rfl

end

/-! ## A client's own account -/

/-- Does the client own what the act gives back? -/
def LockAct.covered (h : Held) : LockAct → Prop
  | .acquireRead | .acquireWrite => True
  | .releaseRead => 0 < h.reads
  | .releaseWrite => 0 < h.writes

/-- The account when the call starts: a release is paid at once. -/
def LockAct.spend (h : Held) : LockAct → Held
  | .acquireRead | .acquireWrite => h
  | .releaseRead => { h with reads := h.reads - 1 }
  | .releaseWrite => { h with writes := h.writes - 1 }

/-- The account when the call has succeeded: an acquisition is credited. -/
def LockAct.gain (h : Held) : LockAct → Held
  | .acquireRead => { h with reads := h.reads + 1 }
  | .acquireWrite => { h with writes := h.writes + 1 }
  | .releaseRead | .releaseWrite => h

/-- The holds a thread has in the lock inside a call that has not touched it yet, from its
    account. -/
def LockAct.pending (h : Held) : LockAct → Held
  | .acquireRead | .acquireWrite => h
  | .releaseRead => { h with reads := h.reads + 1 }
  | .releaseWrite => { h with writes := h.writes + 1 }

/-- What a release gives away is still held before it acts. -/
theorem LockAct.pending_spend {h : Held} {x : LockAct} (hx : x.covered h) :
    x.pending (x.spend h) = h := by
  cases x with
  | acquireRead => rfl
  | acquireWrite => rfl
  | releaseRead =>
    have hpos : 0 < h.reads := hx
    ext
    · show h.reads - 1 + 1 = h.reads
      omega
    · rfl
  | releaseWrite =>
    have hpos : 0 < h.writes := hx
    ext
    · rfl
    · show h.writes - 1 + 1 = h.writes
      omega

/-- A call that takes owns, before it has, what its account says. -/
theorem LockAct.pending_of_takes {h : Held} {x : LockAct} (hgives : x.gives = false) :
    x.pending h = h := by
  cases x with
  | acquireRead | acquireWrite => rfl
  | releaseRead | releaseWrite => cases hgives

/-- The act itself takes a thread from what it had to what it has gained. -/
theorem LockAct.move_pending (h : Held) (x : LockAct) : x.move (x.pending h) = x.gain h := by
  cases x <;> rfl

end Conc
