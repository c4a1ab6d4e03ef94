/-
  VISIBILITY: what a thread knows when it gets a lock.

  `LockApi.syncWorld` is the memory of a lock with the `History` of its critical sections beside
  it: the views move with every operation by the memory order written in the code, a release
  completes a section at its write of the word, and a client that holds the lock can make events.
  Forgetting the history gives the runs of `LockApi.world` back (`forget_step`), so everything known
  about the word and the holders carries over.

  A plain mutex shows every completed section to everybody who gets it.  The readers/writer lock
  does not: `wfe_mutex_rwlock_read_unlock` decrements with `__ATOMIC_ACQUIRE` and so publishes
  nothing, although unlocking is what synchronises ("these only synchronize memory on unlock") and
  `wfe_mutex_rwlock_unlock` does store with `__ATOMIC_RELEASE`.  `rwlock_visible_iff` says exactly
  when nothing is missed, and `rwlock_not_visible` is a run with two threads in which a writer does
  not know what the reader before it did.
-/
import WfeMutex.Conc.Sections
import WfeMutex.Lock.Mutex
import WfeMutex.Lock.Rwlock

set_option linter.unusedVariables false

namespace WfeMutex

open Conc
open Function (update update_self update_of_ne)

section
variable {Call Tid E : Type} [DecidableEq Tid]

/-- The views after thread `t`'s operation `o` was answered by `a`. -/
def Op.views (v : Views Tid E) (t : Tid) : (o : Op 32) → o.Ans → Views Tid E
  | .loadN mo, _ => v.read mo t
  -- load-acquire
  | .loadExclusive, _ => v.read .acquire t
  | .storeN _ mo, _ => v.store mo t
  | .compareExchangeN _ _ success failure, a => if a.1 then v.rmw success t else v.read failure t
  | .fetchSub _ mo, _ => v.rmw mo t
  | _, _ => v

/-- A lock, and the history of its critical sections. -/
structure SyncMem (Tid E : Type) where
  lock : LockMem Tid
  hist : History Tid E

/-- `WFE_MUTEX_LOCK_INITIALIZER`, `WFE_MUTEX_RWLOCK_INITIALIZER`, and no events. -/
def SyncMem.initializer (Tid E : Type) : SyncMem Tid E := ⟨.initializer Tid, .initial⟩

/-- The history after thread `t`'s operation `o`, made for an act `x`, was answered by `a`. -/
def Op.history (h : History Tid E) (x : LockAct) (t : Tid) (o : Op 32) (a : o.Ans) :
    History Tid E :=
  let h' := h.withViews (o.views h.views t a)
  if o.writes a then h'.complete t x else h'

variable (Tid E) in
/-- The shared memory of a lock with the history of its critical sections. -/
abbrev LockApi.syncWorld (A : LockApi Call) : World (atomics 32) Tid Call Bool where
  Mem := SyncMem Tid E
  call t c m m' := ∃ l, (A.world Tid).call t c m.lock l ∧ m' = ⟨l, m.hist⟩
  exec t c o a m m' :=
    ∃ l, (A.world Tid).exec t c o a m.lock l ∧ m' = ⟨l, o.history m.hist (A.act c) t a⟩
  ret t c r m m' := ∃ l, (A.world Tid).ret t c r m.lock l ∧ m' = ⟨l, m.hist⟩
  client t m m' :=
    -- inside a critical section, the client makes a new event
    (0 < (m.lock.owned t).reads ∨ 0 < (m.lock.owned t).writes) ∧
      ∃ e, e ∉ m.hist.made ∧ m' = ⟨m.lock, m.hist.perform t e⟩

variable {A : LockApi Call} {prog : Call → Prog (atomics 32) Bool}

/-! ## Forgetting the history -/

/-- The pool without the history. -/
def forget (s : Pool (A.syncWorld Tid E)) : Pool (A.world Tid) := ⟨s.mem.lock, s.thread⟩

/-- A step with a history is one without, or a client's. -/
theorem forget_step {s s' : Pool (A.syncWorld Tid E)} {e : Event (atomics 32) Tid Call Bool}
    (hstep : Pool.Step prog s e s') :
    Pool.Step prog (forget s) e (forget s') ∨ forget s' = forget s := by
  cases hstep with
  | call ht hcall =>
    obtain ⟨l, hcall, rfl⟩ := hcall
    exact Or.inl (.call ht hcall)
  | op ht hexec =>
    obtain ⟨l, hexec, rfl⟩ := hexec
    exact Or.inl (.op ht hexec)
  | jump ht => exact Or.inl (.jump ht)
  | ret ht hret =>
    obtain ⟨l, hret, rfl⟩ := hret
    exact Or.inl (.ret ht hret)
  | @client t m ht hclient =>
    obtain ⟨-, e, -, rfl⟩ := hclient
    right
    rw [s.put_same _ ht]
    rfl

theorem forget_reachable {s s' : Pool (A.syncWorld Tid E)}
    {e : Event (atomics 32) Tid Call Bool} (hs : A.Reachable prog (forget s))
    (hstep : Pool.Step prog s e s') (hroom : A.Room s'.mem.lock) :
    A.Reachable prog (forget s') := by
  rcases forget_step hstep with hbase | hsame
  · exact hs.step hbase hroom
  · rw [hsame]
    exact hs

/-! ## Every step keeps the history -/

/-- An operation that does not write the word only teaches. -/
theorem Op.learns (v : Views Tid E) (t : Tid) {o : Op 32} {a : o.Ans} (ha : o.writes a = false) :
    v.Learns (o.views v t a) t := by
  cases o with
  | loadN mo => exact v.learns_read mo t
  | loadExclusive => exact v.learns_read .acquire t
  | storeN => cases ha
  | fetchSub => cases ha
  | compareExchangeN e d success failure =>
    have hfail : a.1 = false := ha
    show v.Learns (if a.1 then _ else _) t
    rw [hfail]
    exact v.learns_read failure t
  | arm | wait | doYield | readCycleCounter | printError | trap => exact .refl v t

/-- The write of a call keeps the history, by the memory order it is made with. -/
theorem history_write {m : LockMem Tid} {ph : Tid → Option (Call × Phase)} {t : Tid} {c : Call}
    {o : Op 32} {a : o.Ans} {v : BitVec 32} {h : History Tid E} (hist : h.Inv m.abs)
    (hinv : LockInv A m ph) (ht : ph t = some (c, .before)) (hmay : A.mayWrite (A.act c) o)
    (heff : Effect m.word o a v) (ha : o.writes a = true) :
    ((h.withViews (o.views h.views t a)).complete t (A.act c)).Inv ((A.act c).apply t m.abs) := by
  -- a successful exchange of acquire order reads the message and leaves it
  have hcas : ∀ e d (b : Bool × BitVec 32), b.1 = true →
      h.views.Learns (Op.views h.views t (.compareExchangeN e d .acquire .acquire) b) t ∧
      h.views.msg ⊆ (Op.views h.views t (.compareExchangeN e d .acquire .acquire) b).view t := by
    intro e d b hb
    have hviews : Op.views h.views t (.compareExchangeN e d .acquire .acquire) b =
        h.views.rmw .acquire t := if_pos hb
    rw [hviews]
    refine ⟨h.views.learns_rmw t rfl, ?_⟩
    rw [Views.rmw_view, h.views.read_view_self .acquire t rfl]
    exact Set.subset_union_right
  cases hc : A.act c with
  | acquireRead =>
    rw [hc] at hmay
    obtain ⟨e, -, rfl⟩ := hmay
    obtain ⟨hlearn, hmsg⟩ := hcas e (e + 1) a ha
    exact hist.acquire hlearn hmsg (Or.inl rfl)
  | acquireWrite =>
    rw [hc] at hmay
    obtain rfl := hmay
    obtain ⟨hlearn, hmsg⟩ := hcas 0 A.wr a ha
    exact hist.acquire hlearn hmsg (Or.inr rfl)
  | releaseRead =>
    rw [hc] at hmay
    obtain rfl := hmay
    exact hist.releaseRead (h.views.learns_rmw t rfl)
  | releaseWrite =>
    rw [hc] at hmay
    obtain rfl := hmay
    exact hist.releaseWrite hinv.exclusive (hinv.writer_eq ht hc)
      (h.views.store_msg .release t rfl) (h.views.store_view .release t)

/-- **Every step keeps the history's invariant.** -/
theorem hist_step (hconf : A.Conforms prog) {s s' : Pool (A.syncWorld Tid E)}
    {e : Event (atomics 32) Tid Call Bool} (hs : A.Reachable prog (forget s))
    (hist : s.mem.hist.Inv s.mem.lock.abs) (hstep : Pool.Step prog s e s') :
    s'.mem.hist.Inv s'.mem.lock.abs := by
  obtain ⟨ph, hcov⟩ := LockApi.covers hconf hs
  have hinv : LockInv A s.mem.lock ph := hcov.inv
  cases hstep with
  | @call t c m ht hcall =>
    obtain ⟨l, ⟨-, rfl⟩, rfl⟩ := hcall
    exact hist
  | @op t c o k a m ht hexec =>
    obtain ⟨l, ⟨v, heff, rfl⟩, rfl⟩ := hexec
    obtain ⟨l, hph, hspec⟩ := hcov.busy (t := t) ht
    obtain ⟨⟨rfl, hpre⟩, -⟩ := hspec.out
    rw [Pool.put_mem, Op.history]
    cases ha : o.writes a with
    | false =>
      rw [LockMem.answer_look heff ha]
      exact hist.learn (Op.learns s.mem.hist.views t ha) fun u hu => Or.inl hu
    | true =>
      rw [LockMem.answer_write ha]
      exact history_write hist hinv hph (LockApi.mayWrite_of_writes hpre ha) heff ha
  | jump ht => exact hist
  | @ret t c r m ht hret =>
    obtain ⟨l, rfl, rfl⟩ := hret
    rw [Pool.put_mem]
    cases r
    · exact hist
    · exact hist
  | @client t m ht hclient =>
    obtain ⟨-, e, hfresh, rfl⟩ := hclient
    exact hist.perform hfresh

/-- **The history's invariant** holds after every run. -/
theorem hist_run (hconf : A.Conforms prog) {s : Pool (A.syncWorld Tid E)}
    {tr : List (Trans (A.syncWorld Tid E))}
    (hrun : Run prog (Pool.start (SyncMem.initializer Tid E)) tr s)
    (hroom : ∀ x ∈ tr, A.Room x.dst.mem.lock) :
    A.Reachable prog (forget s) ∧ s.mem.hist.Inv s.mem.lock.abs := by
  refine Run.keeps (I := fun s : Pool (A.syncWorld Tid E) =>
    A.Reachable prog (forget s) ∧ s.mem.hist.Inv s.mem.lock.abs) ?_ hrun hroom ?_
  · intro s e s' hs hstep hok
    exact ⟨forget_reachable hs.1 hstep hok, hist_step hconf hs.1 hs.2 hstep⟩
  · exact ⟨⟨[], .nil _, fun x hx => by cases hx⟩, .initial⟩

/-! ## What a successful call has learned -/

/-- A call that has acquired the lock returns as a holder. -/
theorem holder_of_ret (hconf : A.Conforms prog) {s s' : Pool (A.syncWorld Tid E)} {t : Tid}
    {c : Call} (hs : A.Reachable prog (forget s)) (hstep : Pool.Step prog s (.ret t c true) s')
    (hc : A.act c = .acquireRead ∨ A.act c = .acquireWrite) : s'.mem.lock.abs.Holder t := by
  obtain ⟨ph, hcov⟩ := LockApi.covers hconf hs
  have hinv : LockInv A s.mem.lock ph := hcov.inv
  cases hstep with
  | @ret _ _ _ m ht hret =>
    obtain ⟨l, hph, hspec⟩ := hcov.busy (t := t) ht
    have hend : A.ends c true l := hspec.out
    obtain rfl : l = .after := hend.1.mp rfl
    have hshare := hinv.share t
    rw [hph] at hshare
    have hheld : s.mem.lock.abs.held t = (A.act c).gain (s.mem.lock.owned t) := hshare.1
    obtain ⟨l, rfl, rfl⟩ := hret
    show s.mem.lock.abs.Holder t
    rcases hc with hc | hc
    · right
      rw [← RWLock.held_reads_pos, hheld, hc]
      exact Nat.succ_pos _
    · left
      rw [← RWLock.held_writes_pos, hheld, hc]
      exact Nat.succ_pos _

/-- A call that returns with the lock knows the sections before it: a writer all of them, a reader
    the write sections. -/
def SeesSections (x : Trans (A.syncWorld Tid E)) : Prop :=
  ∀ t c, x.ev = .ret t c true →
    (A.act c = .acquireWrite →
      x.dst.mem.hist.doneR ∪ x.dst.mem.hist.doneW ⊆ x.dst.mem.hist.views.view t) ∧
    (A.act c = .acquireRead → x.dst.mem.hist.doneW ⊆ x.dst.mem.hist.views.view t)

/-- Where a call returns with the write lock, no other thread has made events in read sections that
    it completed after its own last write section. -/
def NoUnpublishedReads (x : Trans (A.syncWorld Tid E)) : Prop :=
  ∀ t c, x.ev = .ret t c true → A.act c = .acquireWrite →
    ∀ u, u ≠ t → x.src.mem.hist.since u = ∅

/-- A caller knows all sections exactly if none is unpublished. -/
theorem seesSections_iff (hconf : A.Conforms prog) {s s' : Pool (A.syncWorld Tid E)}
    {e : Event (atomics 32) Tid Call Bool} (hs : A.Reachable prog (forget s))
    (hist : s.mem.hist.Inv s.mem.lock.abs) (hstep : Pool.Step prog s e s') :
    SeesSections (⟨s, e, s'⟩ : Trans (A.syncWorld Tid E)) ↔
      NoUnpublishedReads (⟨s, e, s'⟩ : Trans (A.syncWorld Tid E)) := by
  have hist' := hist_step hconf hs hist hstep
  have hsame : ∀ t c, e = .ret t c true → s'.mem.hist = s.mem.hist := by
    rintro t c rfl
    cases hstep with
    | ret ht hret =>
      obtain ⟨l, -, rfl⟩ := hret
      rfl
  constructor
  · intro hsees t c he hc
    have hhold : s'.mem.lock.abs.Holder t := by
      obtain rfl : e = .ret t c true := he
      exact holder_of_ret hconf hs hstep (Or.inr hc)
    have hiff := hist'.knows_all_iff hhold
    rw [hsame t c he] at hiff
    have hall := (hsees t c he).1 hc
    rw [hsame t c he] at hall
    exact hiff.mp hall
  · intro hnone t c he
    constructor
    · intro hc
      have hhold : s'.mem.lock.abs.Holder t := by
        obtain rfl : e = .ret t c true := he
        exact holder_of_ret hconf hs hstep (Or.inr hc)
      apply (hist'.knows_all_iff hhold).mpr
      rw [hsame t c he]
      exact hnone t c he hc
    · intro hc
      obtain rfl : e = .ret t c true := he
      exact hist'.knows_writes (holder_of_ret hconf hs hstep (Or.inl hc))

/-- The same for all steps of a run. -/
theorem seesSections_run (hconf : A.Conforms prog) {s : Pool (A.syncWorld Tid E)}
    {tr : List (Trans (A.syncWorld Tid E))}
    (hrun : Run prog (Pool.start (SyncMem.initializer Tid E)) tr s)
    (hroom : ∀ x ∈ tr, A.Room x.dst.mem.lock) {x : Trans (A.syncWorld Tid E)} (hx : x ∈ tr) :
    SeesSections x ↔ NoUnpublishedReads x := by
  obtain ⟨tr₁, tr₂, rfl, hrun₁, hstep, -⟩ := hrun.split hx
  obtain ⟨hs, hist⟩ :=
    hist_run hconf hrun₁ fun y hy => hroom y (List.mem_append_left _ hy)
  exact seesSections_iff hconf hs hist hstep

/-! ## The plain mutex -/

/-- Without reading calls the runs with a history are within the bound, too. -/
theorem LockApi.WriteOnly.sync_room (hA : A.WriteOnly) {s : Pool (A.syncWorld Tid E)}
    {tr : List (Trans (A.syncWorld Tid E))}
    (hrun : Run prog (Pool.start (SyncMem.initializer Tid E)) tr s) :
    ∀ x ∈ tr, A.Room x.dst.mem.lock := by
  have hkeep : ∀ (s : Pool (A.syncWorld Tid E)) e s', s.mem.lock.abs.readers = 0 →
      Pool.Step prog s e s' → s'.mem.lock.abs.readers = 0 := by
    intro s e s' hs hstep
    rcases forget_step hstep with hbase | hsame
    · exact hA.readers_step hbase hs
    · have hlock : s'.mem.lock = s.mem.lock := congrArg Pool.mem hsame
      rw [hlock]
      exact hs
  exact fun x hx => LockApi.room_of_readers (hrun.keeps_dst hkeep rfl x hx)

/-- Without reading calls no operation completes a read section. -/
theorem LockApi.WriteOnly.history_doneR (hA : A.WriteOnly) (h : History Tid E) (c : Call) (t : Tid)
    (o : Op 32) (a : o.Ans) : (o.history h (A.act c) t a).doneR = h.doneR := by
  unfold Op.history
  dsimp only
  split
  · rcases hA c with hc | hc
    · rw [hc]
      rfl
    · rw [hc]
      rfl
  · rfl

/-- Without reading calls there are no read sections. -/
theorem LockApi.WriteOnly.sync_doneR (hA : A.WriteOnly) {s : Pool (A.syncWorld Tid E)}
    {tr : List (Trans (A.syncWorld Tid E))}
    (hrun : Run prog (Pool.start (SyncMem.initializer Tid E)) tr s) : s.mem.hist.doneR = ∅ := by
  refine Run.keeps (I := fun s : Pool (A.syncWorld Tid E) => s.mem.hist.doneR = ∅) ?_ hrun
    (fun _ _ => trivial) rfl
  intro s e s' hs hstep _
  cases hstep with
  | call ht hcall =>
    obtain ⟨l, -, rfl⟩ := hcall
    exact hs
  | @op t c o k a m ht hexec =>
    obtain ⟨l, -, rfl⟩ := hexec
    exact (hA.history_doneR ..).trans hs
  | jump ht => exact hs
  | ret ht hret =>
    obtain ⟨l, -, rfl⟩ := hret
    exact hs
  | client ht hclient =>
    obtain ⟨-, e, -, rfl⟩ := hclient
    exact hs

/-- **A plain mutex shows everything.**  Whenever a call returns with the mutex, in any
    interleaving, the caller knows every event of every critical section completed before. -/
theorem mutex_visible (P : Platform) (debug : Bool)
    (tr : List (Trans (mutexApi.syncWorld Tid E))) (s : Pool (mutexApi.syncWorld Tid E))
    (hrun : Run (LockCall.prog debug P.features) (Pool.start (SyncMem.initializer Tid E)) tr s) :
    ∀ x ∈ tr, ∀ t c, x.ev = .ret t c true → c ≠ .unlock →
      x.dst.mem.hist.doneR ∪ x.dst.mem.hist.doneW ⊆ x.dst.mem.hist.views.view t := by
  have hconf := mutexApi_conforms debug P
  have hroom := mutexApi_writeOnly.sync_room hrun
  intro x hx t c he hc
  have hact : mutexApi.act c = .acquireWrite := by
    cases c with
    | unlock => exact absurd rfl hc
    | lock | trylock | timedlock => rfl
  refine ((seesSections_run hconf hrun hroom hx).mpr ?_ t c he).1 hact
  intro t' c' he' hc' u hu
  obtain ⟨tr₁, tr₂, rfl, hrun₁, -, -⟩ := hrun.split hx
  obtain ⟨-, hist⟩ := hist_run hconf hrun₁ fun y hy => hroom y (List.mem_append_left _ hy)
  have hdone := mutexApi_writeOnly.sync_doneR hrun₁
  exact Set.subset_empty_iff.mp (hdone ▸ hist.since_done u)

end

/-- Thread `true` makes an event under the mutex; thread `false` takes the mutex, and knows it. -/
theorem mutex_visible_handover :
    ∃ tr, ∃ s : Pool (mutexApi.syncWorld Bool Unit),
      Run (LockCall.prog false Platform.uninitialised.features)
        (Pool.start (SyncMem.initializer Bool Unit)) tr s ∧
      () ∈ s.mem.hist.views.view false := by
  have h0 : Reach (LockCall.prog false Platform.uninitialised.features) (fun _ => True)
      (SyncMem.initializer Bool Unit)
      (Pool.start (SyncMem.initializer Bool Unit) : Pool (mutexApi.syncWorld Bool Unit)) :=
    Reach.start ..
  have h1 := h0.step (.call (t := true) (c := LockCall.trylock) rfl ⟨_, ⟨trivial, rfl⟩, rfl⟩)
    trivial
  have h2 := h1.step (.op (t := true) (c := LockCall.trylock) rfl
    ⟨_, ⟨_, .exchanged 0 1 _ _, rfl⟩, rfl⟩) trivial
  have h3 := h2.step (.ret (t := true) (c := LockCall.trylock) (r := true) rfl ⟨_, rfl, rfl⟩)
    trivial
  have h4 := h3.step (.client (t := true) rfl ⟨Or.inr Nat.one_pos, (), fun he => he, rfl⟩)
    trivial
  have h5 := h4.step (.call (t := true) (c := LockCall.unlock) rfl
    ⟨_, ⟨Nat.one_pos, rfl⟩, rfl⟩) trivial
  have h6 := h5.step (.op (t := true) (c := LockCall.unlock) rfl
    ⟨_, ⟨_, .storeN 1 0 .release, rfl⟩, rfl⟩) trivial
  have h7 := h6.step (.ret (t := true) (c := LockCall.unlock) (r := true) rfl ⟨_, rfl, rfl⟩)
    trivial
  have h8 := h7.step (.call (t := false) (c := LockCall.trylock) rfl ⟨_, ⟨trivial, rfl⟩, rfl⟩)
    trivial
  have h9 := h8.step (.op (t := false) (c := LockCall.trylock) rfl
    ⟨_, ⟨_, .exchanged 0 1 _ _, rfl⟩, rfl⟩) trivial
  obtain ⟨tr, hrun, -⟩ := h9
  have hrun' := hrun.snoc
    (.ret (t := false) (c := LockCall.trylock) (r := true) rfl ⟨_, rfl, rfl⟩)
  have hall := mutex_visible Platform.uninitialised false _ _ hrun' _
    (List.mem_append_right _ (List.mem_singleton.mpr rfl)) false LockCall.trylock rfl (by decide)
  exact ⟨_, _, hrun', hall (Or.inr (Or.inr (Or.inl rfl)))⟩

/-! ## The readers/writer lock -/

section
variable {Tid E : Type} [DecidableEq Tid]

/-- **When a readers/writer lock shows everything.**  In a run with fewer than 2^31 read holds
    outstanding, every call that returns with the lock knows all sections before it (a reader: all
    write sections) exactly if no writer ever comes in while another thread has unpublished read
    sections. -/
theorem rwlock_visible_iff (P : Platform) (debug : Bool)
    (tr : List (Trans (rwlockApi.syncWorld Tid E))) (s : Pool (rwlockApi.syncWorld Tid E))
    (hrun : Run (RwlockCall.prog debug P.features) (Pool.start (SyncMem.initializer Tid E)) tr s)
    (hroom : ∀ x ∈ tr, rwlockApi.Room x.dst.mem.lock) :
    (∀ x ∈ tr, SeesSections x) ↔ ∀ x ∈ tr, NoUnpublishedReads x := by
  have hconf := rwlockApi_conforms debug P
  constructor
  · intro hsees x hx
    exact (seesSections_run hconf hrun hroom hx).mp (hsees x hx)
  · intro hnone x hx
    exact (seesSections_run hconf hrun hroom hx).mpr (hnone x hx)

end

/-- Thread `true` makes an event as the writer; thread `false` comes in as a writer behind it, and
    knows the event. -/
theorem rwlock_visible_iff_handover :
    ∃ tr, ∃ s : Pool (rwlockApi.syncWorld Bool Unit),
      Run (RwlockCall.prog false Platform.uninitialised.features)
        (Pool.start (SyncMem.initializer Bool Unit)) tr s ∧
      s.mem.lock.abs.writer = some false ∧ (∀ x ∈ tr, SeesSections x) ∧
      () ∈ s.mem.hist.doneW ∧ () ∈ s.mem.hist.views.view false := by
  have hpow : 0 < 2 ^ 31 := Nat.two_pow_pos 31
  have hfresh : () ∉ (History.initial : History Bool Unit).made := fun h => h
  obtain ⟨x, tr, s, hrun, hroom, hnone, hret, hwriter, hdone⟩ :
      ∃ (x : Trans (rwlockApi.syncWorld Bool Unit)) (tr : List (Trans _)) (s : Pool _),
        Run (RwlockCall.prog false Platform.uninitialised.features)
          (Pool.start (SyncMem.initializer Bool Unit)) (tr ++ [x]) s ∧
        (∀ y ∈ tr ++ [x], rwlockApi.Room y.dst.mem.lock) ∧
        (∀ y ∈ tr ++ [x], NoUnpublishedReads y) ∧
        (x.ev = .ret false .trylock true ∧ x.dst = s) ∧ s.mem.lock.abs.writer = some false ∧
        () ∈ s.mem.hist.doneW := by
    refine ⟨_, [_, _, _, _, _, _, _, _, _], _,
      (.cons (.call (t := true) (c := RwlockCall.trylock) rfl ⟨_, ⟨trivial, rfl⟩, rfl⟩)
      (.cons (.op (t := true) rfl ⟨_, ⟨_, .exchanged 0 TOP_BIT _ _, rfl⟩, rfl⟩)
      (.cons (.ret (t := true) (r := true) rfl ⟨_, rfl, rfl⟩)
      (.cons (.client (t := true) rfl ⟨Or.inr Nat.one_pos, (), hfresh, rfl⟩)
      (.cons (.call (t := true) (c := RwlockCall.unlock) rfl ⟨_, ⟨Nat.one_pos, rfl⟩, rfl⟩)
      (.cons (.op (t := true) rfl ⟨_, ⟨_, .storeN TOP_BIT 0 .release, rfl⟩, rfl⟩)
      (.cons (.ret (t := true) (r := true) rfl ⟨_, rfl, rfl⟩)
      (.cons (.call (t := false) (c := RwlockCall.trylock) rfl ⟨_, ⟨trivial, rfl⟩, rfl⟩)
      (.cons (.op (t := false) rfl ⟨_, ⟨_, .exchanged 0 TOP_BIT _ _, rfl⟩, rfl⟩)
      (.cons (.ret (t := false) (r := true) rfl ⟨_, rfl, rfl⟩)
      (.nil _))))))))))), ?_, ?_, ⟨rfl, rfl⟩, rfl, Or.inr (Or.inl rfl)⟩
    · iterate 10 refine List.forall_mem_cons.mpr ⟨hpow, ?_⟩
      exact List.forall_mem_nil _
    · -- nobody has read
      iterate 10
        refine List.forall_mem_cons.mpr ⟨?_, ?_⟩
        · intro t c he hc u hu
          cases u
          · rfl
          · rfl
      exact List.forall_mem_nil _
  have hsees := (rwlock_visible_iff Platform.uninitialised false _ s hrun hroom).mpr hnone
  have hall := (hsees x (List.mem_append_right _ List.mem_cons_self) false .trylock hret.1).1 rfl
  rw [hret.2] at hall
  exact ⟨_, s, hrun, hwriter, hsees, hdone, hall (Or.inr hdone)⟩

/-! ## The reader nobody hears of -/

/-- The build without checks, spinning, under two threads that can make one event. -/
abbrev twoThreads : World (atomics 32) Bool RwlockCall Bool := rwlockApi.syncWorld Bool Unit

def spinRwlock : RwlockCall → Prog (atomics 32) Bool :=
  RwlockCall.prog false Platform.uninitialised.features

/-- Thread `true` has taken the lock for reading, made an event, and given the lock back. -/
def ReaderHasLeft (s : Pool twoThreads) : Prop :=
  s.thread false = none ∧ s.mem.lock.word = 0 ∧ s.mem.lock.abs = ⟨none, 0⟩ ∧
    s.mem.lock.owned false = ⟨0, 0⟩ ∧ () ∈ s.mem.hist.doneR ∧ s.mem.hist.views.msg = ∅ ∧
    s.mem.hist.views.view false = ∅

/-- The states with fewer than 2^31 read holds outstanding, under two threads. -/
def TwoReachable (s : Pool twoThreads) : Prop :=
  Reach spinRwlock (fun m : SyncMem Bool Unit => rwlockApi.Room m.lock)
    (SyncMem.initializer Bool Unit) s

theorem readerHasLeft_reached : ∃ s : Pool twoThreads, TwoReachable s ∧ ReaderHasLeft s := by
  have hzero : 0 < 2 ^ 31 := Nat.two_pow_pos 31
  have hone : 1 < 2 ^ 31 := Nat.one_lt_two_pow (by decide)
  have h0 : TwoReachable (Pool.start (SyncMem.initializer Bool Unit)) := Reach.start ..
  have h1 := Reach.step h0 (.call (t := true) (c := RwlockCall.rdlock false) rfl
    ⟨_, ⟨trivial, rfl⟩, rfl⟩) hzero
  have h2 := Reach.step h1 (.op (t := true) (c := RwlockCall.rdlock false) rfl
    ⟨_, ⟨_, .exchanged 0 1 _ _, rfl⟩, rfl⟩) hone
  have h3 := Reach.step h2 (.ret (t := true) (c := RwlockCall.rdlock false) (r := true) rfl
    ⟨_, rfl, rfl⟩) hone
  have h4 := Reach.step h3 (.client (t := true) rfl
    ⟨Or.inl Nat.one_pos, (), fun he => he, rfl⟩) hone
  have h5 := Reach.step h4 (.call (t := true) (c := RwlockCall.readUnlock) rfl
    ⟨_, ⟨Nat.one_pos, rfl⟩, rfl⟩) hone
  have h6 := Reach.step h5 (.op (t := true) (c := RwlockCall.readUnlock) rfl
    ⟨_, ⟨_, .fetchSub 1 1 _, rfl⟩, rfl⟩) hzero
  have h7 := Reach.step h6 (.ret (t := true) (c := RwlockCall.readUnlock) (r := true) rfl
    ⟨_, rfl, rfl⟩) hzero
  exact ⟨_, h7, rfl, rfl, rfl, rfl, Or.inr (Or.inl rfl), rfl, rfl⟩

/-- A reader makes an event, and unlocks; a writer comes in and does not know it. -/
theorem rwlock_not_visible :
    ¬ ∀ tr (s : Pool (rwlockApi.syncWorld Bool Unit)),
      Run (RwlockCall.prog false Platform.uninitialised.features)
        (Pool.start (SyncMem.initializer Bool Unit)) tr s →
      (∀ x ∈ tr, rwlockApi.Room x.dst.mem.lock) → ∀ x ∈ tr, SeesSections x := by
  intro hall
  obtain ⟨s, hs, hidle, hword, habs, howned, hdone, hmsg, hview⟩ := readerHasLeft_reached
  have hzero : s.mem.lock.abs.readers.card < 2 ^ 31 := by
    rw [habs]
    exact Nat.two_pow_pos 31
  have hcas : Effect s.mem.lock.word (.compareExchangeN 0 TOP_BIT .acquire .acquire) (true, 0)
      TOP_BIT := by
    rw [hword]
    exact .exchanged 0 TOP_BIT _ _
  have h1 : TwoReachable _ := Reach.step hs (.call (t := false) (c := RwlockCall.trylock) hidle
    ⟨_, ⟨trivial, rfl⟩, rfl⟩) hzero
  have h2 : TwoReachable _ := Reach.step h1 (.op (t := false) (c := RwlockCall.trylock) rfl
    ⟨_, ⟨_, hcas, rfl⟩, rfl⟩) hzero
  have hstep : ∀ s s' e, TwoReachable s → Pool.Step spinRwlock s e s' →
      rwlockApi.Room s'.mem.lock → SeesSections (⟨s, e, s'⟩ : Trans twoThreads) := by
    rintro s s' e ⟨tr, hrun, hroom⟩ hst hok
    refine hall _ _ (hrun.snoc hst) ?_ _ (List.mem_append_right _ List.mem_cons_self)
    exact List.forall_mem_append.mpr ⟨hroom, List.forall_mem_singleton.mpr hok⟩
  have hsees := hstep _ _ _ h2 (.ret (t := false) (c := RwlockCall.trylock) (r := true) rfl
    ⟨_, rfl, rfl⟩) hzero false RwlockCall.trylock rfl
  have hknown : () ∈ (s.mem.hist.views.read .acquire false).view false :=
    hsees.1 rfl (Or.inl hdone)
  rw [Views.read_view_self _ _ _ rfl, hview, hmsg] at hknown
  rcases hknown with h | h
  · exact h
  · exact h

end WfeMutex
