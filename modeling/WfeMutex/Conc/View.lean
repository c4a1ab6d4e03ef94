/-
  RELEASE/ACQUIRE VIEWS of one shared word.

  Every thread carries the set of events it knows (`view`), and the word carries a message view
  (`msg`): the events that a thread learns by reading the word with acquire order.

  * a store of release order (or stronger) makes the storing thread's view the message view; a
    store without it clears the message view;
  * a read-modify-write of release order adds the thread's view to the message view; one without
    it passes the message view on as it is, and so continues the release sequence;
  * a load, or the read half of a read-modify-write, of acquire order joins the message view into
    the thread's view.

  Only views are tracked here, no values: a memory with values carries a `Views` beside its word.
-/
import Mathlib.Data.Set.Insert
import Mathlib.Logic.Function.Basic

namespace Conc

/-- The memory orders of C11 (`__ATOMIC_CONSUME`, which compilers promote, left out). -/
inductive MemOrder where
  | relaxed | acquire | release | acqRel | seqCst
  deriving DecidableEq, Repr

/-- Acquire or stronger. -/
def MemOrder.acquires : MemOrder → Bool
  | .acquire | .acqRel | .seqCst => true
  | .relaxed | .release => false

/-- Release or stronger. -/
def MemOrder.releases : MemOrder → Bool
  | .release | .acqRel | .seqCst => true
  | .relaxed | .acquire => false

/-- The word's message view and every thread's own view. -/
structure Views (Tid E : Type) where
  msg : Set E
  view : Tid → Set E

namespace Views

variable {Tid E : Type} [DecidableEq Tid] (v : Views Tid E) (mo : MemOrder) (t : Tid)

/-- Thread `t` reads the word with order `mo`. -/
def read : Views Tid E :=
  if mo.acquires then { v with view := Function.update v.view t (v.view t ∪ v.msg) } else v

/-- Thread `t` stores to the word with order `mo`. -/
def store : Views Tid E :=
  { v with msg := if mo.releases then v.view t else ∅ }

/-- Thread `t` performs a read-modify-write of order `mo`. -/
def rmw : Views Tid E :=
  { v.read mo t with msg := if mo.releases then v.msg ∪ v.view t else v.msg }

/-- Thread `t` performs the event `e` itself. -/
def know (e : E) : Views Tid E :=
  { v with view := Function.update v.view t (insert e (v.view t)) }

/-! ## Who knows what afterwards -/

@[simp] theorem read_msg : (v.read mo t).msg = v.msg := by
  unfold read
  split <;> rfl

/-- A read of acquire order joins the message to the view. -/
theorem read_view_self (h : mo.acquires = true) :
    (v.read mo t).view t = v.view t ∪ v.msg := by
  simp [read, h]

theorem read_view_ne {u : Tid} (h : u ≠ t) : (v.read mo t).view u = v.view u := by
  unfold read
  split
  · exact Function.update_of_ne h ..
  · rfl

/-- Reading only teaches: nobody forgets. -/
theorem view_subset_read (u : Tid) : v.view u ⊆ (v.read mo t).view u := by
  by_cases hu : u = t
  · subst hu
    unfold read
    split
    · simp
    · exact subset_rfl
  · rw [v.read_view_ne mo t hu]

/-- What is known after a read was known before it, or was in the message. -/
theorem read_view_subset (u : Tid) : (v.read mo t).view u ⊆ v.view u ∪ v.msg := by
  by_cases hu : u = t
  · subst hu
    unfold read
    split
    · simp
    · exact Set.subset_union_left
  · rw [v.read_view_ne mo t hu]
    exact Set.subset_union_left

omit [DecidableEq Tid] in
@[simp] theorem store_view : (v.store mo t).view = v.view := rfl

omit [DecidableEq Tid] in
theorem store_msg (h : mo.releases = true) : (v.store mo t).msg = v.view t := by
  simp [store, h]

@[simp] theorem rmw_view : (v.rmw mo t).view = (v.read mo t).view := rfl

/-- A read-modify-write without release order passes the message on unchanged. -/
theorem rmw_msg (h : mo.releases = false) : (v.rmw mo t).msg = v.msg := by
  simp [rmw, h]

@[simp] theorem know_view_self (e : E) : (v.know t e).view t = insert e (v.view t) := by
  simp [know]

theorem know_view_ne (e : E) {u : Tid} (h : u ≠ t) : (v.know t e).view u = v.view u :=
  Function.update_of_ne h ..

/-- Nobody forgets. -/
theorem view_subset_know (e : E) (u : Tid) : v.view u ⊆ (v.know t e).view u := by
  by_cases hu : u = t
  · subst hu
    rw [know_view_self]
    exact Set.subset_insert ..
  · rw [v.know_view_ne t e hu]

/-! ## Learning -/

variable {v t}

/-- From `v` to `v'` thread `t` has learned something, from the message or nothing at all. -/
structure Learns (v v' : Views Tid E) (t : Tid) : Prop where
  msg : v'.msg = v.msg
  rest : ∀ u, u ≠ t → v'.view u = v.view u
  keeps : v.view t ⊆ v'.view t
  learned : v'.view t ⊆ v.view t ∪ v.msg

omit [DecidableEq Tid] in
theorem Learns.refl (v : Views Tid E) (t : Tid) : Learns v v t where
  msg := rfl
  rest := fun _ _ => rfl
  keeps := subset_rfl
  learned := Set.subset_union_left

/-- A read teaches only its thread. -/
theorem learns_read (v : Views Tid E) (mo : MemOrder) (t : Tid) : Learns v (v.read mo t) t where
  msg := v.read_msg mo t
  rest := fun _ hu => v.read_view_ne mo t hu
  keeps := v.view_subset_read mo t t
  learned := v.read_view_subset mo t t

/-- A read-modify-write without release order only teaches. -/
theorem learns_rmw (v : Views Tid E) {mo : MemOrder} (t : Tid) (h : mo.releases = false) :
    Learns v (v.rmw mo t) t where
  msg := v.rmw_msg mo t h
  rest := fun _ hu => v.read_view_ne mo t hu
  keeps := v.view_subset_read mo t t
  learned := v.read_view_subset mo t t

/-- Nobody forgets. -/
theorem Learns.mono {v v' : Views Tid E} {t : Tid} (h : Learns v v' t) (u : Tid) :
    v.view u ⊆ v'.view u := by
  by_cases hu : u = t
  · subst hu
    exact h.keeps
  · rw [h.rest u hu]

/-- What somebody knows afterwards, somebody knew, or the message said. -/
theorem Learns.bound {v v' : Views Tid E} {t : Tid} (h : Learns v v' t) (u : Tid) :
    v'.view u ⊆ v.view u ∪ v.msg := by
  by_cases hu : u = t
  · subst hu
    exact h.learned
  · rw [h.rest u hu]
    exact Set.subset_union_left

end Views

end Conc
