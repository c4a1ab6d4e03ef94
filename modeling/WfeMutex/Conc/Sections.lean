/-
  CRITICAL SECTIONS AND WHO KNOWS THEIR EVENTS.

  A `History` follows the critical sections under one readers/writer lock: the events each thread
  has made in the sections it is inside (`cur`), the events of completed sections, read (`doneR`)
  and write (`doneW`), and who knows them (`views`).  It is about a lock whose word synchronises as
  follows: every acquisition reads the word with acquire order, a write release stores with release
  order, and every other write of the word is a read-modify-write without release order.

  What then holds is `History.Inv`: the message view of the word has the events of all write
  sections, every holder knows the message, and of the events of read sections it has those that
  their thread has published since, by a write release of its own.  The others, `since u`, are
  known to `u` alone.  So a reader that comes in knows all write sections
  (`History.Inv.knows_writes`), and a writer that comes in knows all sections exactly if no OTHER
  thread has unpublished read sections (`History.Inv.knows_all_iff`).
-/
import WfeMutex.Conc.RWLock
import WfeMutex.Conc.View

set_option linter.unusedVariables false

namespace Conc

open Function (update update_self update_of_ne)

/-- The critical sections under a lock, their events, and who knows them. -/
structure History (Tid E : Type) where
  views : Views Tid E
  /-- All events made so far. -/
  made : Set E
  /-- Each thread's events in the sections it is inside. -/
  cur : Tid → Set E
  /-- The events of completed read sections; of nested ones from the first release on. -/
  doneR : Set E
  /-- The events of completed write sections. -/
  doneW : Set E
  /-- The events of each thread's read sections completed after its last write section. -/
  since : Tid → Set E

section
variable {Tid E : Type} [DecidableEq Tid]

/-- Nothing has happened. -/
def History.initial : History Tid E := ⟨⟨∅, fun _ => ∅⟩, ∅, fun _ => ∅, ∅, ∅, fun _ => ∅⟩

/-- Thread `t`, inside a critical section, makes the event `e`. -/
def History.perform (h : History Tid E) (t : Tid) (e : E) : History Tid E :=
  { h with
    views := h.views.know t e
    made := insert e h.made
    cur := update h.cur t (insert e (h.cur t)) }

/-- Thread `t`'s call of act `x` has written the word: a release completes its section. -/
def History.complete (h : History Tid E) (t : Tid) : LockAct → History Tid E
  | .acquireRead | .acquireWrite => h
  | .releaseRead =>
    { h with
      doneR := h.doneR ∪ h.cur t
      since := update h.since t (h.since t ∪ h.cur t)
      cur := update h.cur t ∅ }
  | .releaseWrite =>
    { h with
      doneW := h.doneW ∪ h.cur t
      since := update h.since t ∅
      cur := update h.cur t ∅ }

/-- The views have become `v`. -/
def History.withViews (h : History Tid E) (v : Views Tid E) : History Tid E := { h with views := v }

/-- Who knows what, under a lock held as `a` says. -/
structure History.Inv (h : History Tid E) (a : RWLock Tid) : Prop where
  /-- The message has all write sections. -/
  writes : h.doneW ⊆ h.views.msg
  /-- A holder has read the message. -/
  holder : ∀ t, a.Holder t → h.views.msg ⊆ h.views.view t
  /-- Completed read sections are in the message, or unpublished. -/
  reads : ∀ e ∈ h.doneR, e ∈ h.views.msg ∨ ∃ u, e ∈ h.since u
  since_done : ∀ u, h.since u ⊆ h.doneR
  /-- A thread knows what it has done itself. -/
  own : ∀ u, h.cur u ∪ h.since u ⊆ h.views.view u
  /-- What a thread has not published, nobody else knows. -/
  secret : ∀ u, ∀ e ∈ h.cur u ∪ h.since u, e ∉ h.views.msg ∧ ∀ t, t ≠ u → e ∉ h.views.view t
  /-- Nothing is known before it is made. -/
  known : h.views.msg ⊆ h.made ∧ ∀ t, h.views.view t ⊆ h.made

/-! ## What a release and an event do to the unpublished events -/

section
variable (h : History Tid E) (t : Tid) {u : Tid}

/-- A read release only moves its thread's events from `cur` to `since`. -/
theorem History.own_releaseRead (u : Tid) :
    (h.complete t .releaseRead).cur u ∪ (h.complete t .releaseRead).since u =
      h.cur u ∪ h.since u := by
  show update h.cur t ∅ u ∪ update h.since t (h.since t ∪ h.cur t) u = _
  by_cases hu : u = t
  · subst hu
    rw [update_self, update_self, Set.empty_union, Set.union_comm]
  · rw [update_of_ne hu, update_of_ne hu]

theorem History.since_releaseRead_self :
    (h.complete t .releaseRead).since t = h.since t ∪ h.cur t := update_self ..

theorem History.since_releaseRead_ne (hu : u ≠ t) :
    (h.complete t .releaseRead).since u = h.since u := update_of_ne hu ..

/-- A completed read section adds to what is unpublished. -/
theorem History.since_subset_releaseRead (u : Tid) :
    h.since u ⊆ (h.complete t .releaseRead).since u := by
  by_cases hu : u = t
  · subst hu
    rw [h.since_releaseRead_self]
    exact Set.subset_union_left
  · rw [h.since_releaseRead_ne t hu]

/-- A write release leaves its thread without unpublished events. -/
theorem History.own_releaseWrite_self :
    (h.complete t .releaseWrite).cur t ∪ (h.complete t .releaseWrite).since t = ∅ := by
  show update h.cur t ∅ t ∪ update h.since t ∅ t = ∅
  rw [update_self, update_self, Set.union_empty]

theorem History.own_releaseWrite_ne (hu : u ≠ t) :
    (h.complete t .releaseWrite).cur u ∪ (h.complete t .releaseWrite).since u =
      h.cur u ∪ h.since u := by
  show update h.cur t ∅ u ∪ update h.since t ∅ u = _
  rw [update_of_ne hu, update_of_ne hu]

theorem History.since_releaseWrite_ne (hu : u ≠ t) :
    (h.complete t .releaseWrite).since u = h.since u := update_of_ne hu ..

/-- A completed write section adds nothing to it. -/
theorem History.since_releaseWrite_subset (u : Tid) :
    (h.complete t .releaseWrite).since u ⊆ h.since u := by
  by_cases hu : u = t
  · subst hu
    rw [show (h.complete u .releaseWrite).since u = ∅ from update_self ..]
    exact Set.empty_subset _
  · rw [h.since_releaseWrite_ne t hu]

/-- A new event is its thread's own. -/
theorem History.own_perform_self (e : E) :
    (h.perform t e).cur t ∪ (h.perform t e).since t = insert e (h.cur t ∪ h.since t) := by
  show update h.cur t (insert e (h.cur t)) t ∪ h.since t = _
  rw [update_self, Set.insert_union]

theorem History.own_perform_ne (e : E) (hu : u ≠ t) :
    (h.perform t e).cur u ∪ (h.perform t e).since u = h.cur u ∪ h.since u := by
  show update h.cur t (insert e (h.cur t)) u ∪ h.since u = _
  rw [update_of_ne hu]

end

namespace History.Inv

variable {h : History Tid E} {a : RWLock Tid} {v' : Views Tid E} {t : Tid}

omit [DecidableEq Tid] in
/-- At first there are no events. -/
theorem initial : (History.initial : History Tid E).Inv RWLock.free where
  writes := subset_rfl
  holder := fun _ _ => subset_rfl
  reads := fun _ he => he.elim
  since_done := fun _ => subset_rfl
  own := fun _ => (Set.union_empty ∅).subset
  secret := fun _ _ he => he.elim False.elim False.elim
  known := ⟨subset_rfl, fun _ => subset_rfl⟩

omit [DecidableEq Tid] in
/-- **Every holder knows all completed write sections.** -/
theorem knows_writes (hinv : h.Inv a) (ht : a.Holder t) : h.doneW ⊆ h.views.view t :=
  hinv.writes.trans (hinv.holder t ht)

/-! ## Learning, and acquiring -/

/-- Reading the word keeps the invariant, also for a thread that has just become a holder, if it
    has read the message. -/
theorem learn {a' : RWLock Tid} (hinv : h.Inv a) (hv : h.views.Learns v' t)
    (hold : ∀ u, a'.Holder u → a.Holder u ∨ u = t ∧ h.views.msg ⊆ v'.view t) :
    (h.withViews v').Inv a' where
  writes := by
    show h.doneW ⊆ v'.msg
    rw [hv.msg]
    exact hinv.writes
  holder := by
    intro u hu
    show v'.msg ⊆ v'.view u
    rw [hv.msg]
    rcases hold u hu with hu | ⟨rfl, hmsg⟩
    · exact (hinv.holder u hu).trans (hv.mono u)
    · exact hmsg
  reads := by
    intro e he
    show e ∈ v'.msg ∨ _
    rw [hv.msg]
    exact hinv.reads e he
  since_done := hinv.since_done
  own := fun u => (hinv.own u).trans (hv.mono u)
  secret := by
    intro u e he
    obtain ⟨hmsg, hview⟩ := hinv.secret u e he
    constructor
    · show e ∉ v'.msg
      rw [hv.msg]
      exact hmsg
    · intro w hw hknown
      rcases hv.bound w hknown with hold | hnew
      · exact hview w hw hold
      · exact hmsg hnew
  known := by
    constructor
    · show v'.msg ⊆ h.made
      rw [hv.msg]
      exact hinv.known.1
    · intro w
      exact (hv.bound w).trans (Set.union_subset (hinv.known.2 w) hinv.known.1)

/-- An acquisition reads the message, and makes a holder. -/
theorem acquire {x : LockAct} (hinv : h.Inv a) (hv : h.views.Learns v' t)
    (hmsg : h.views.msg ⊆ v'.view t) (hx : x = .acquireRead ∨ x = .acquireWrite) :
    ((h.withViews v').complete t x).Inv (x.apply t a) := by
  have hlearn : (h.withViews v').Inv (x.apply t a) := by
    refine hinv.learn hv ?_
    intro u hu
    rcases hx with rfl | rfl
    · rcases hu with hw | hr
      · exact Or.inl (Or.inl hw)
      · rcases Multiset.mem_cons.mp hr with rfl | hr
        · exact Or.inr ⟨rfl, hmsg⟩
        · exact Or.inl (Or.inr hr)
    · rcases hu with hw | hr
      · have hut : t = u := Option.some.inj hw
        exact Or.inr ⟨hut.symm, hmsg⟩
      · exact Or.inl (Or.inr hr)
  rcases hx with rfl | rfl
  · exact hlearn
  · exact hlearn

/-! ## Releasing -/

/-- A read release publishes nothing: its sections stay with their thread. -/
theorem releaseRead (hinv : h.Inv a) (hv : h.views.Learns v' t) :
    ((h.withViews v').complete t .releaseRead).Inv (LockAct.apply t a .releaseRead) := by
  have hlearn : (h.withViews v').Inv (LockAct.apply t a .releaseRead) := by
    refine hinv.learn hv ?_
    intro u hu
    rcases hu with hw | hr
    · exact Or.inl (Or.inl hw)
    · exact Or.inl (Or.inr (Multiset.mem_of_mem_erase hr))
  generalize h.withViews v' = h' at hlearn ⊢
  exact {
    writes := hlearn.writes
    holder := hlearn.holder
    reads := by
      rintro e (he | he)
      · refine (hlearn.reads e he).imp_right ?_
        rintro ⟨u, hu⟩
        exact ⟨u, h'.since_subset_releaseRead t u hu⟩
      · refine Or.inr ⟨t, ?_⟩
        rw [h'.since_releaseRead_self]
        exact Or.inr he
    since_done := by
      intro u
      show _ ⊆ h'.doneR ∪ h'.cur t
      by_cases hu : u = t
      · subst hu
        rw [h'.since_releaseRead_self]
        exact Set.union_subset_union_left _ (hlearn.since_done u)
      · rw [h'.since_releaseRead_ne t hu]
        exact (hlearn.since_done u).trans Set.subset_union_left
    own := by
      intro u
      rw [h'.own_releaseRead t u]
      exact hlearn.own u
    secret := by
      intro u e he
      rw [h'.own_releaseRead t u] at he
      exact hlearn.secret u e he
    known := hlearn.known }

/-- A write release publishes everything its thread knows. -/
theorem releaseWrite (hinv : h.Inv a) (hexcl : a.Exclusive) (hw : a.writer = some t)
    (hmsg : v'.msg = h.views.view t) (hview : v'.view = h.views.view) :
    ((h.withViews v').complete t .releaseWrite).Inv (LockAct.apply t a .releaseWrite) where
  writes := by
    show h.doneW ∪ h.cur t ⊆ v'.msg
    rw [hmsg]
    exact Set.union_subset (hinv.knows_writes (Or.inl hw))
      (Set.subset_union_left.trans (hinv.own t))
  holder := by
    rintro u (hnone | hr)
    · cases hnone
    · -- the writer was alone
      have hmem : u ∈ a.readers := hr
      rw [hexcl t hw] at hmem
      exact absurd hmem (Multiset.notMem_zero u)
  reads := by
    intro e he
    show e ∈ v'.msg ∨ _
    rw [hmsg]
    rcases hinv.reads e he with hold | ⟨u, hu⟩
    · exact Or.inl (hinv.holder t (Or.inl hw) hold)
    · by_cases hut : u = t
      · subst hut
        exact Or.inl (hinv.own u (Or.inr hu))
      · refine Or.inr ⟨u, ?_⟩
        rw [(h.withViews v').since_releaseWrite_ne t hut]
        exact hu
  since_done := fun u => ((h.withViews v').since_releaseWrite_subset t u).trans (hinv.since_done u)
  own := by
    intro u
    show _ ⊆ v'.view u
    rw [hview]
    by_cases hu : u = t
    · subst hu
      rw [(h.withViews v').own_releaseWrite_self]
      exact Set.empty_subset _
    · rw [(h.withViews v').own_releaseWrite_ne t hu]
      exact hinv.own u
  secret := by
    intro u e he
    by_cases hu : u = t
    · subst hu
      rw [(h.withViews v').own_releaseWrite_self] at he
      exact he.elim
    · rw [(h.withViews v').own_releaseWrite_ne t hu] at he
      obtain ⟨-, hsecret⟩ := hinv.secret u e he
      constructor
      · show e ∉ v'.msg
        rw [hmsg]
        exact hsecret t (Ne.symm hu)
      · intro w hwu
        show e ∉ v'.view w
        rw [hview]
        exact hsecret w hwu
  known := by
    constructor
    · show v'.msg ⊆ h.made
      rw [hmsg]
      exact hinv.known.2 t
    · intro w
      show v'.view w ⊆ h.made
      rw [hview]
      exact hinv.known.2 w

/-! ## New events -/

omit [DecidableEq Tid] in
/-- Nobody knows an event that has not been made. -/
theorem unknown (hinv : h.Inv a) {e : E} (hfresh : e ∉ h.made) :
    e ∉ h.views.msg ∧ ∀ u, e ∉ h.views.view u :=
  ⟨fun he => hfresh (hinv.known.1 he), fun u he => hfresh (hinv.known.2 u he)⟩

/-- A new event of a client keeps the invariant. -/
theorem perform (hinv : h.Inv a) {e : E} (hfresh : e ∉ h.made) : (h.perform t e).Inv a where
  writes := hinv.writes
  holder := fun u hu => (hinv.holder u hu).trans (h.views.view_subset_know t e u)
  reads := hinv.reads
  since_done := hinv.since_done
  own := by
    intro u
    by_cases hu : u = t
    · subst hu
      rw [h.own_perform_self]
      show _ ⊆ (h.views.know u e).view u
      rw [h.views.know_view_self]
      exact Set.insert_subset_insert (hinv.own u)
    · rw [h.own_perform_ne t e hu]
      exact (hinv.own u).trans (h.views.view_subset_know t e u)
  secret := by
    obtain ⟨hmsg, hview⟩ := hinv.unknown hfresh
    -- the thread has learned nothing but its own event
    have hother : ∀ u x, x ∈ h.cur u ∪ h.since u → x ≠ e := by
      rintro u x hx rfl
      exact hview u (hinv.own u hx)
    intro u x hx
    by_cases hu : u = t
    · subst hu
      rw [h.own_perform_self] at hx
      have hknown : x ∉ h.views.msg ∧ ∀ w, w ≠ u → x ∉ h.views.view w := by
        rcases hx with rfl | hx
        · exact ⟨hmsg, fun w _ => hview w⟩
        · exact hinv.secret u x hx
      refine ⟨hknown.1, fun w hw => ?_⟩
      show x ∉ (h.views.know u e).view w
      rw [h.views.know_view_ne u e hw]
      exact hknown.2 w hw
    · rw [h.own_perform_ne t e hu] at hx
      obtain ⟨hmsg', hsecret⟩ := hinv.secret u x hx
      refine ⟨hmsg', fun w hw => ?_⟩
      show x ∉ (h.views.know t e).view w
      by_cases hwt : w = t
      · subst hwt
        rw [h.views.know_view_self]
        rintro (rfl | hx')
        · exact hother u x hx rfl
        · exact hsecret w hw hx'
      · rw [h.views.know_view_ne t e hwt]
        exact hsecret w hw
  known := by
    refine ⟨hinv.known.1.trans (Set.subset_insert ..), fun w => ?_⟩
    show (h.views.know t e).view w ⊆ insert e h.made
    by_cases hw : w = t
    · subst hw
      rw [h.views.know_view_self]
      exact Set.insert_subset_insert (hinv.known.2 w)
    · rw [h.views.know_view_ne t e hw]
      exact (hinv.known.2 w).trans (Set.subset_insert ..)

/-! ## What a holder knows -/

/-- **A holder knows all completed sections** exactly if no other thread has read sections that it
    completed after its last write section. -/
theorem knows_all_iff (hinv : h.Inv a) (ht : a.Holder t) :
    h.doneR ∪ h.doneW ⊆ h.views.view t ↔ ∀ u, u ≠ t → h.since u = ∅ := by
  constructor
  · intro hall u hu
    apply Set.eq_empty_of_forall_notMem
    intro e he
    have hknown : e ∈ h.views.view t := hall (Or.inl (hinv.since_done u he))
    exact (hinv.secret u e (Or.inr he)).2 t (Ne.symm hu) hknown
  · intro hnone
    refine Set.union_subset ?_ (hinv.knows_writes ht)
    intro e he
    rcases hinv.reads e he with hmsg | ⟨u, hu⟩
    · exact hinv.holder t ht hmsg
    · by_cases hut : u = t
      · subst hut
        exact hinv.own u (Or.inr hu)
      · rw [hnone u hut] at hu
        exact hu.elim

end History.Inv

end

end Conc
