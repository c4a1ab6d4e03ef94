/-
  DATA GUARDED BY A LOCK, on a memory with release/acquire views.

  A load of an ordinary variable may return an old value: that of any write which no write known to
  the thread comes after (`Readable`).  A thread that knows every write reads the newest value, as
  in an ordinary memory (`readable_iff`).

  A lock is there to see to that.  Where every access is made by a holder and every store by the
  writer, each belongs to a section, completed or under way (`History.Placed`).  Whoever holds the
  lock knows all stores then (`History.Inv.knows_made`), and what the writer does not know are the
  unpublished read sections of the others (`History.Inv.unknown_iff_since`).

  A `Client` is what the threads do with their variables.
-/
import WfeMutex.Conc.Sections

set_option linter.unusedVariables false

namespace Conc

open Function (update update_self update_of_ne)

/-! ## Variables -/

section
variable {V : Type} {first : V} {writes : List V} {known : Set Nat} {v : V}

/-- The value a variable has after its writes; `first` is the one it starts with. -/
def newest (first : V) (writes : List V) : V := writes.getLast?.getD first

@[simp] theorem newest_append : newest first (writes ++ [v]) = v := by
  simp [newest]

theorem getElem?_newest : (first :: writes)[writes.length]? = some (newest first writes) := by
  rw [newest, ← List.getLast?_cons, List.getLast?_eq_getElem?]
  rfl

/-- A thread that knows the writes `known` may read `v`: it is the value of a write, or `first`,
    which no write it knows of comes after.  Write number `i` is the `i`th from 1 on. -/
def Readable (first : V) (writes : List V) (known : Set Nat) (v : V) : Prop :=
  ∃ i, (first :: writes)[i]? = some v ∧ ∀ j, i < j → j ≤ writes.length → j ∉ known

/-- The newest value may always be read. -/
theorem readable_newest : Readable first writes known (newest first writes) :=
  ⟨writes.length, getElem?_newest, fun j hj hle => absurd hle (Nat.not_le.mpr hj)⟩

/-- **Knowing every write is reading the newest value.** -/
theorem readable_iff (h : ∀ j, 1 ≤ j → j ≤ writes.length → j ∈ known) :
    Readable first writes known v ↔ v = newest first writes := by
  constructor
  · rintro ⟨i, hi, hlast⟩
    obtain ⟨hlt, -⟩ := List.getElem?_eq_some_iff.mp hi
    rw [List.length_cons] at hlt
    -- a later write would be known
    have heq : i = writes.length := by
      by_contra hne
      exact hlast writes.length (by omega) le_rfl (h writes.length (by omega) le_rfl)
    rw [heq, getElem?_newest] at hi
    exact (Option.some.inj hi).symm
  · rintro rfl
    exact readable_newest

/-- A thread that knows of no write may read the first value still. -/
example : Readable 0 [1, 2] ∅ 0 := ⟨0, rfl, fun _ _ _ h => h⟩

end

/-- What the threads do with variables `κ` of values `V`, and with private states `R`. -/
structure Client (Tid κ V R : Type) where
  /-- The thread may go over to another state. -/
  think : Tid → R → R → Prop
  /-- The thread may load a variable, and goes over to a state when it has read `v`. -/
  load : Tid → R → κ → V → R → Prop
  /-- The thread may store `v` to a variable, and goes over to a state. -/
  store : Tid → R → κ → V → R → Prop

/-! ## Accesses -/

/-- An access to a variable.  The loads of each are numbered from 1 on, and so are the stores. -/
inductive Access (κ : Type) where
  | load (k : κ) (n : Nat)
  | store (k : κ) (n : Nat)

section
variable {κ : Type}

def Access.var : Access κ → κ
  | .load k _ | .store k _ => k

def Access.IsStore : Access κ → Prop
  | .load _ _ => False
  | .store _ _ => True

end

/-! ## Who knows the events -/

section
variable {Tid E : Type} [DecidableEq Tid] {W : E → Prop} {h : History Tid E} {a : RWLock Tid}
  {t : Tid} {e : E}

/-- Every event is of a section, completed or a holder's; and of a write section, completed or the
    writer's, if it is one of `W`. -/
structure History.Placed (W : E → Prop) (h : History Tid E) (a : RWLock Tid) : Prop where
  all : ∀ e ∈ h.made, e ∈ h.doneR ∪ h.doneW ∨ ∃ t, a.Holder t ∧ e ∈ h.cur t
  writes : ∀ e ∈ h.made, W e → e ∈ h.doneW ∨ ∃ t, a.writer = some t ∧ e ∈ h.cur t

namespace History.Placed

omit [DecidableEq Tid] in
theorem initial : (History.initial : History Tid E).Placed W a where
  all := fun _ he => he.elim
  writes := fun _ he => he.elim

omit [DecidableEq Tid] in
/-- A thread that comes in changes nobody's sections. -/
theorem mono {a' : RWLock Tid} (hp : h.Placed W a) (hhold : ∀ u, a.Holder u → a'.Holder u)
    (hwriter : ∀ u, a.writer = some u → a'.writer = some u) : h.Placed W a' where
  all e he := (hp.all e he).imp_right fun ⟨u, hu, hcur⟩ => ⟨u, hhold u hu, hcur⟩
  writes e he hW := (hp.writes e he hW).imp_right fun ⟨u, hu, hcur⟩ => ⟨u, hwriter u hu, hcur⟩

/-- A read section is completed: its events are among those of completed sections then. -/
theorem releaseRead (hp : h.Placed W a) (hexcl : a.Exclusive) (ht : t ∈ a.readers) :
    (h.complete t .releaseRead).Placed W (LockAct.apply t a .releaseRead) where
  all e he := by
    show e ∈ (h.doneR ∪ h.cur t) ∪ h.doneW ∨ ∃ u, _ ∧ e ∈ update h.cur t ∅ u
    rcases hp.all e he with (hr | hw) | ⟨u, hu, hcur⟩
    · exact Or.inl (Or.inl (Or.inl hr))
    · exact Or.inl (Or.inr hw)
    · by_cases hut : u = t
      · subst hut
        exact Or.inl (Or.inl (Or.inr hcur))
      · refine Or.inr ⟨u, hu.imp_right (Multiset.mem_erase_of_ne hut).mpr, ?_⟩
        rw [update_of_ne hut]
        exact hcur
  writes e he hW := by
    rcases hp.writes e he hW with hdone | ⟨u, hu, -⟩
    · exact Or.inl hdone
    · -- there is no writer beside a reader
      rw [hexcl u hu] at ht
      exact absurd ht (Multiset.notMem_zero t)

/-- A write section is completed. -/
theorem releaseWrite (hp : h.Placed W a) (hexcl : a.Exclusive) (ht : a.writer = some t) :
    (h.complete t .releaseWrite).Placed W (LockAct.apply t a .releaseWrite) where
  all e he := by
    show e ∈ h.doneR ∪ (h.doneW ∪ h.cur t) ∨ _
    rcases hp.all e he with (hr | hw) | ⟨u, hu, hcur⟩
    · exact Or.inl (Or.inl hr)
    · exact Or.inl (Or.inr (Or.inl hw))
    · rcases hu with hwriter | hreader
      · obtain rfl : t = u := Option.some.inj (ht.symm.trans hwriter)
        exact Or.inl (Or.inr (Or.inr hcur))
      · rw [hexcl t ht] at hreader
        exact absurd hreader (Multiset.notMem_zero u)
  writes e he hW := by
    refine Or.inl ?_
    rcases hp.writes e he hW with hdone | ⟨u, hu, hcur⟩
    · exact Or.inl hdone
    · obtain rfl : t = u := Option.some.inj (ht.symm.trans hu)
      exact Or.inr hcur

/-- No event is lost at a permitted act. -/
theorem complete {x : LockAct} (hp : h.Placed W a) (hexcl : a.Exclusive)
    (hx : x.permitted t a) : (h.complete t x).Placed W (x.apply t a) := by
  cases x with
  | acquireRead =>
    exact hp.mono (fun u hu => hu.imp_right Multiset.mem_cons_of_mem) fun u hu => hu
  | acquireWrite =>
    obtain ⟨hnone, hreaders⟩ : a.writer = none ∧ a.readers = 0 := hx
    -- nobody is inside
    refine hp.mono (fun u hu => ?_) fun u hu => ?_
    · rcases hu with hu | hu
      · rw [hnone] at hu
        cases hu
      · exact Or.inr hu
    · rw [hnone] at hu
      cases hu
  | releaseRead => exact hp.releaseRead hexcl hx
  | releaseWrite => exact hp.releaseWrite hexcl hx

/-- A holder makes an event; the writer, if it is one of `W`. -/
theorem perform (hp : h.Placed W a) (ht : a.Holder t) (hW : W e → a.writer = some t) :
    (h.perform t e).Placed W a := by
  have hnew : e ∈ (h.perform t e).cur t := by
    show e ∈ update h.cur t (insert e (h.cur t)) t
    rw [update_self]
    exact Set.mem_insert _ _
  have hkept : ∀ u, h.cur u ⊆ (h.perform t e).cur u := by
    intro u
    show h.cur u ⊆ update h.cur t (insert e (h.cur t)) u
    by_cases hut : u = t
    · subst hut
      rw [update_self]
      exact Set.subset_insert _ _
    · rw [update_of_ne hut]
  constructor
  · rintro x (rfl | hx)
    · exact Or.inr ⟨t, ht, hnew⟩
    · exact (hp.all x hx).imp_right fun ⟨u, hu, hcur⟩ => ⟨u, hu, hkept u hcur⟩
  · rintro x (rfl | hx) hWx
    · exact Or.inr ⟨t, hW hWx, hnew⟩
    · exact (hp.writes x hx hWx).imp_right fun ⟨u, hu, hcur⟩ => ⟨u, hu, hkept u hcur⟩

end History.Placed

namespace History.Inv

omit [DecidableEq Tid] in
/-- **Every holder knows every event of `W`**: the completed sections by the message, and the one
    under way is its own. -/
theorem knows_made (hinv : h.Inv a) (hp : h.Placed W a) (hexcl : a.Exclusive) (ht : a.Holder t)
    (he : e ∈ h.made) (hW : W e) : e ∈ h.views.view t := by
  rcases hp.writes e he hW with hdone | ⟨u, hu, hcur⟩
  · exact hinv.knows_writes ht hdone
  · rcases ht with hwriter | hreader
    · obtain rfl : t = u := Option.some.inj (hwriter.symm.trans hu)
      exact hinv.own t (Or.inl hcur)
    · -- a reader excludes the writer
      rw [hexcl u hu] at hreader
      exact absurd hreader (Multiset.notMem_zero t)

omit [DecidableEq Tid] in
/-- **What the writer does not know** are the unpublished read sections of the others. -/
theorem unknown_iff_since (hinv : h.Inv a) (hp : h.Placed W a) (hexcl : a.Exclusive)
    (ht : a.writer = some t) (he : e ∈ h.made) :
    e ∉ h.views.view t ↔ ∃ u, u ≠ t ∧ e ∈ h.since u := by
  constructor
  · intro hnot
    rcases hp.all e he with (hr | hw) | ⟨u, hu, hcur⟩
    · rcases hinv.reads e hr with hmsg | ⟨u, hu⟩
      · exact absurd (hinv.holder t (Or.inl ht) hmsg) hnot
      · refine ⟨u, ?_, hu⟩
        rintro rfl
        exact hnot (hinv.own u (Or.inr hu))
    · exact absurd (hinv.knows_writes (Or.inl ht) hw) hnot
    · exfalso
      rcases hu with hwriter | hreader
      · obtain rfl : t = u := Option.some.inj (ht.symm.trans hwriter)
        exact hnot (hinv.own t (Or.inl hcur))
      · rw [hexcl t ht] at hreader
        exact absurd hreader (Multiset.notMem_zero u)
  · rintro ⟨u, hu, hsince⟩
    exact (hinv.secret u e (Or.inr hsince)).2 t (Ne.symm hu)

end History.Inv

end

end Conc
