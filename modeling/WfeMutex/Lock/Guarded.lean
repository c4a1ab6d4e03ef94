/-
  WHAT THE LOCKS ARE FOR: data that is touched only under a lock is ordinary data.

  `LockApi.weakWorld` is a lock with variables beside it, under threads that keep to the rule: they
  load variables while they hold the lock in either mode, and store to them while they hold it for
  writing.  Memory is weak: a load may return any value that the thread's view does not rule out
  (`Readable`), and the views move by the memory orders in the code (`LockApi.syncWorld`).
  `LockApi.plainWorld` is the same lock with an ordinary memory, where a load returns the newest
  value.

  Every run of the first is, step by step, a run of the second (`LockApi.guarded`): no load returns
  an old value, so no update is lost.

  Steps come in program order here, and that is justified as long as there are no data races: an
  access knows every earlier one that it could race with.  Under the mutex nothing races
  (`mutex_guarded`).  Under the readers/writer lock no load races with a store before it, but a
  store may race: `wfe_mutex_rwlock_read_unlock` publishes nothing, so a writer does not know the
  loads of the readers before it, those excepted that their thread has published since
  (`rwlock_guarded`, and `rwlock_guarded_race` for such a run).
-/
import WfeMutex.Conc.Guarded
import WfeMutex.Conc.Over
import WfeMutex.Lock.Visibility

set_option linter.unusedVariables false

namespace WfeMutex

open Conc
open Function (update update_self update_of_ne)

/-- A lock, the variables it guards, and the threads' private states.  The events of the critical
    sections are the accesses. -/
structure WeakMem (Tid κ V R : Type) where
  sync : SyncMem Tid (Access κ)
  writes : κ → List V
  loads : κ → Nat
  reg : Tid → R

/-- A lock, variables in an ordinary memory, and the threads' private states. -/
structure PlainMem (Tid κ V R : Type) where
  lock : LockMem Tid
  value : κ → V
  reg : Tid → R

section
variable {Tid κ V R : Type}

/-- Nothing has been accessed. -/
def WeakMem.initial (κ V : Type) (reg : Tid → R) : WeakMem Tid κ V R :=
  ⟨.initializer Tid _, fun _ => [], fun _ => 0, reg⟩

def PlainMem.initial (first : κ → V) (reg : Tid → R) : PlainMem Tid κ V R :=
  ⟨.initializer Tid, first, reg⟩

/-- The memory in which the newest values are all there is. -/
def WeakMem.plain (first : κ → V) (m : WeakMem Tid κ V R) : PlainMem Tid κ V R :=
  ⟨m.sync.lock, fun k => newest (first k) (m.writes k), m.reg⟩

/-- By its own account the thread holds the lock. -/
def LockMem.Holds (m : LockMem Tid) (t : Tid) : Prop :=
  0 < (m.owned t).reads ∨ 0 < (m.owned t).writes

/-- An access that was made and that the thread does not know of. -/
def WeakMem.Unseen (m : WeakMem Tid κ V R) (t : Tid) (e : Access κ) : Prop :=
  e ∈ m.sync.hist.made ∧ e ∉ m.sync.hist.views.view t

/-- A load by `t` would race with a store. -/
def WeakMem.LoadRaces (m : WeakMem Tid κ V R) (t : Tid) (k : κ) : Prop :=
  ∃ e : Access κ, e.var = k ∧ e.IsStore ∧ m.Unseen t e

/-- A store by `t` would race with an access. -/
def WeakMem.StoreRaces (m : WeakMem Tid κ V R) (t : Tid) (k : κ) : Prop :=
  ∃ e : Access κ, e.var = k ∧ m.Unseen t e

variable [DecidableEq Tid] [DecidableEq κ]

/-- Thread `t` loads the variable `k`, and goes over to `r`. -/
def WeakMem.loaded (m : WeakMem Tid κ V R) (t : Tid) (k : κ) (r : R) : WeakMem Tid κ V R :=
  ⟨⟨m.sync.lock, m.sync.hist.perform t (.load k (m.loads k + 1))⟩, m.writes,
    update m.loads k (m.loads k + 1), update m.reg t r⟩

/-- Thread `t` stores `v` to the variable `k`, and goes over to `r`. -/
def WeakMem.stored (m : WeakMem Tid κ V R) (t : Tid) (k : κ) (v : V) (r : R) :
    WeakMem Tid κ V R :=
  ⟨⟨m.sync.lock, m.sync.hist.perform t (.store k ((m.writes k).length + 1))⟩,
    update m.writes k (m.writes k ++ [v]), m.loads, update m.reg t r⟩

/-- What a thread does between two calls, on the weak memory. -/
inductive WeakStep (C : Client Tid κ V R) (first : κ → V) (t : Tid) :
    WeakMem Tid κ V R → WeakMem Tid κ V R → Prop where
  | think {m : WeakMem Tid κ V R} {r : R} : C.think t (m.reg t) r →
      WeakStep C first t m { m with reg := update m.reg t r }
  | load {m : WeakMem Tid κ V R} {k : κ} {v : V} {r : R} : m.sync.lock.Holds t →
      -- what has been written, as far as the thread knows of it
      Readable (first k) (m.writes k) {j | .store k j ∈ m.sync.hist.views.view t} v →
      C.load t (m.reg t) k v r → WeakStep C first t m (m.loaded t k r)
  | store {m : WeakMem Tid κ V R} {k : κ} {v : V} {r : R} : 0 < (m.sync.lock.owned t).writes →
      C.store t (m.reg t) k v r → WeakStep C first t m (m.stored t k v r)

/-- What a thread does between two calls, on the ordinary memory. -/
inductive PlainStep (C : Client Tid κ V R) (t : Tid) :
    PlainMem Tid κ V R → PlainMem Tid κ V R → Prop where
  | think {m : PlainMem Tid κ V R} {r : R} : C.think t (m.reg t) r →
      PlainStep C t m { m with reg := update m.reg t r }
  | load {m : PlainMem Tid κ V R} {k : κ} {r : R} : m.lock.Holds t →
      C.load t (m.reg t) k (m.value k) r → PlainStep C t m { m with reg := update m.reg t r }
  | store {m : PlainMem Tid κ V R} {k : κ} {v : V} {r : R} : 0 < (m.lock.owned t).writes →
      C.store t (m.reg t) k v r →
      PlainStep C t m ⟨m.lock, update m.value k v, update m.reg t r⟩

variable {Call : Type}

/-- The lock and its data on the weak memory. -/
abbrev LockApi.weakWorld (A : LockApi Call) (C : Client Tid κ V R) (first : κ → V) :
    World (atomics 32) Tid Call Bool where
  Mem := WeakMem Tid κ V R
  call t c m m' := ∃ y, (A.syncWorld Tid (Access κ)).call t c m.sync y ∧ m' = { m with sync := y }
  exec t c o a m m' :=
    ∃ y, (A.syncWorld Tid (Access κ)).exec t c o a m.sync y ∧ m' = { m with sync := y }
  ret t c r m m' := ∃ y, (A.syncWorld Tid (Access κ)).ret t c r m.sync y ∧ m' = { m with sync := y }
  client t m m' := WeakStep C first t m m'

/-- The lock and its data on an ordinary memory. -/
abbrev LockApi.plainWorld (A : LockApi Call) (C : Client Tid κ V R) :
    World (atomics 32) Tid Call Bool where
  Mem := PlainMem Tid κ V R
  call t c m m' := ∃ l, (A.world Tid).call t c m.lock l ∧ m' = { m with lock := l }
  exec t c o a m m' := ∃ l, (A.world Tid).exec t c o a m.lock l ∧ m' = { m with lock := l }
  ret t c r m m' := ∃ l, (A.world Tid).ret t c r m.lock l ∧ m' = { m with lock := l }
  client t m m' := PlainStep C t m m'

/-! ## The invariant -/

variable {A : LockApi Call} {prog : Call → Prog (atomics 32) Bool} {C : Client Tid κ V R}
  {first : κ → V}

/-- The pool without the variables. -/
def syncPool (s : Pool (A.weakWorld C first)) : Pool (A.syncWorld Tid (Access κ)) :=
  ⟨s.mem.sync, s.thread⟩

/-- The events are the accesses made, each in a section, and the history is kept. -/
structure Guarded (prog : Call → Prog (atomics 32) Bool) (s : Pool (A.weakWorld C first)) :
    Prop where
  reach : A.Reachable prog (forget (syncPool s))
  hist : s.mem.sync.hist.Inv s.mem.sync.lock.abs
  placed : s.mem.sync.hist.Placed Access.IsStore s.mem.sync.lock.abs
  loads : ∀ k n, .load k n ∈ s.mem.sync.hist.made → n ≤ s.mem.loads k
  stores : ∀ k n, .store k n ∈ s.mem.sync.hist.made ↔ 1 ≤ n ∧ n ≤ (s.mem.writes k).length

theorem Guarded.start (reg : Tid → R) :
    Guarded prog (Pool.start (WeakMem.initial κ V reg) : Pool (A.weakWorld C first)) where
  reach := ⟨[], .nil _, fun x hx => by cases hx⟩
  hist := .initial
  placed := .initial
  loads := fun _ _ he => he.elim
  stores k n := by
    refine iff_of_false id ?_
    rintro ⟨hpos, hle⟩
    exact Nat.not_succ_le_zero 0 (hpos.trans hle)

/-- No operation makes or unmakes an event. -/
theorem Op.history_made {E : Type} (h : History Tid E) (x : LockAct) (t : Tid) (o : Op 32)
    (a : o.Ans) : (o.history h x t a).made = h.made := by
  unfold Op.history
  dsimp only
  split
  · cases x <;> rfl
  · rfl

variable {s s' : Pool (A.weakWorld C first)} {e : Event (atomics 32) Tid Call Bool} {t : Tid}

/-! ## The steps of the lock -/

/-- A step of the lock keeps the accesses where they belong. -/
theorem Guarded.of_sync (hconf : A.Conforms prog) (h : Guarded prog s)
    (hstep : Pool.Step prog (syncPool s) e (syncPool s')) (hroom : A.Room s'.mem.sync.lock)
    (hmade : s'.mem.sync.hist.made = s.mem.sync.hist.made)
    (hwrites : s'.mem.writes = s.mem.writes) (hloads : s'.mem.loads = s.mem.loads)
    (hplaced : s'.mem.sync.hist.Placed Access.IsStore s'.mem.sync.lock.abs) :
    Guarded prog s' where
  reach := forget_reachable h.reach hstep hroom
  hist := hist_step hconf h.reach h.hist hstep
  placed := hplaced
  loads := by
    rw [hmade, hloads]
    exact h.loads
  stores := by
    rw [hmade, hwrites]
    exact h.stores

/-- An operation of a call moves the accesses with the abstract lock. -/
theorem Guarded.placed_op (hconf : A.Conforms prog) (h : Guarded prog s) {c : Call} {o : Op 32}
    {a : o.Ans} {v : BitVec 32} (heff : Effect s.mem.sync.lock.word o a v)
    (hsim : A.Simulates s.mem.sync.lock (.op t c o a)
      (s.mem.sync.lock.answer (A.act c) t o a v)) :
    (o.history s.mem.sync.hist (A.act c) t a).Placed Access.IsStore
      (s.mem.sync.lock.answer (A.act c) t o a v).abs := by
  have hexcl := (LockApi.encodes hconf h.reach).2.1
  -- the views say nothing about where an event is
  have hplaced : (s.mem.sync.hist.withViews (o.views s.mem.sync.hist.views t a)).Placed
      Access.IsStore s.mem.sync.lock.abs := ⟨h.placed.all, h.placed.writes⟩
  unfold Op.history
  cases ha : o.writes a with
  | false =>
    rw [LockMem.answer_look heff ha]
    exact hplaced
  | true =>
    have hwrite : if o.writes a = true then _ else _ := hsim
    rw [if_pos ha] at hwrite
    obtain ⟨hperm, habs, -⟩ := hwrite
    rw [habs]
    exact hplaced.complete hexcl hperm

/-! ## The accesses -/

/-- Between two calls a thread's holds are its account. -/
theorem Guarded.held (hconf : A.Conforms prog) (h : Guarded prog s) (ht : s.thread t = none) :
    s.mem.sync.lock.abs.held t = s.mem.sync.lock.owned t := by
  have hheld := LockApi.held_eq_account hconf h.reach t
  have hidle : (forget (syncPool s)).thread t = none := ht
  unfold LockApi.account at hheld
  rw [hidle] at hheld
  exact hheld

/-- Outside its calls, who has the lock for writing by its account is the writer. -/
theorem Guarded.writer (hconf : A.Conforms prog) (h : Guarded prog s) (ht : s.thread t = none)
    (hw : 0 < (s.mem.sync.lock.owned t).writes) : s.mem.sync.lock.abs.writer = some t := by
  rw [← h.held hconf ht] at hw
  exact RWLock.held_writes_pos.mp hw

theorem Guarded.holder (hconf : A.Conforms prog) (h : Guarded prog s) (ht : s.thread t = none)
    (hholds : s.mem.sync.lock.Holds t) : s.mem.sync.lock.abs.Holder t := by
  rcases hholds with hr | hw
  · rw [← h.held hconf ht] at hr
    exact Or.inr (RWLock.held_reads_pos.mp hr)
  · exact Or.inl (h.writer hconf ht hw)

/-- **No load races**: a holder knows every store. -/
theorem Guarded.not_loadRaces (hconf : A.Conforms prog) (h : Guarded prog s)
    (ht : s.thread t = none) (hholds : s.mem.sync.lock.Holds t) (k : κ) :
    ¬ s.mem.LoadRaces t k := by
  rintro ⟨e, -, hstore, hmade, hnot⟩
  exact hnot (h.hist.knows_made h.placed (LockApi.encodes hconf h.reach).2.1
    (h.holder hconf ht hholds) hmade hstore)

/-- **What a store races with**: the loads in the unpublished read sections of the others. -/
theorem Guarded.storeRaces_iff (hconf : A.Conforms prog) (h : Guarded prog s)
    (ht : s.thread t = none) (hw : 0 < (s.mem.sync.lock.owned t).writes) (k : κ) :
    s.mem.StoreRaces t k ↔ ∃ u n, u ≠ t ∧ .load k n ∈ s.mem.sync.hist.since u := by
  have hexcl := (LockApi.encodes hconf h.reach).2.1
  have hwriter := h.writer hconf ht hw
  constructor
  · rintro ⟨e, rfl, hmade, hnot⟩
    obtain ⟨u, hu, hsince⟩ := (h.hist.unknown_iff_since h.placed hexcl hwriter hmade).mp hnot
    cases e with
    | load k n => exact ⟨u, n, hu, hsince⟩
    | store k n =>
      -- every store is known
      exact absurd (h.hist.knows_made h.placed hexcl (Or.inl hwriter) hmade trivial) hnot
  · rintro ⟨u, n, hu, hsince⟩
    have hmade := h.hist.known.2 u (h.hist.own u (Or.inr hsince))
    exact ⟨.load k n, rfl, hmade,
      (h.hist.unknown_iff_since h.placed hexcl hwriter hmade).mpr ⟨u, hu, hsince⟩⟩

/-- **A holder reads the newest value.** -/
theorem Guarded.readable (hconf : A.Conforms prog) (h : Guarded prog s) (ht : s.thread t = none)
    (hholds : s.mem.sync.lock.Holds t) {k : κ} {v : V}
    (hv : Readable (first k) (s.mem.writes k) {j | .store k j ∈ s.mem.sync.hist.views.view t} v) :
    v = newest (first k) (s.mem.writes k) := by
  refine (readable_iff ?_).mp hv
  intro j hpos hle
  by_contra hnot
  exact h.not_loadRaces hconf ht hholds k
    ⟨.store k j, rfl, trivial, (h.stores k j).mpr ⟨hpos, hle⟩, hnot⟩

/-- What a thread does between two calls leaves the lock alone. -/
theorem Guarded.reach_client (h : Guarded prog s) (ht : s.thread t = none)
    {m : WeakMem Tid κ V R} (hm : m.sync.lock = s.mem.sync.lock) :
    A.Reachable prog (forget (syncPool (s.put m t none : Pool (A.weakWorld C first)))) := by
  have hsame : forget (syncPool (⟨m, s.thread⟩ : Pool (A.weakWorld C first))) =
      forget (syncPool s) := congrArg (Pool.mk · s.thread) hm
  rw [s.put_same m ht, hsame]
  exact h.reach

/-- A thread goes over to another state. -/
theorem Guarded.register (h : Guarded prog s) (ht : s.thread t = none) (reg : Tid → R) :
    Guarded prog (s.put { s.mem with reg := reg } t none) where
  reach := h.reach_client ht rfl
  hist := h.hist
  placed := h.placed
  loads := h.loads
  stores := h.stores

/-- A load is an event of its thread's section. -/
theorem Guarded.load (hconf : A.Conforms prog) (h : Guarded prog s) (ht : s.thread t = none)
    (hholds : s.mem.sync.lock.Holds t) (k : κ) (r : R) :
    Guarded prog (s.put (s.mem.loaded t k r) t none) where
  reach := h.reach_client ht rfl
  hist := by
    refine h.hist.perform ?_
    intro hmem
    exact Nat.not_succ_le_self _ (h.loads k _ hmem)
  placed := h.placed.perform (h.holder hconf ht hholds) False.elim
  loads k' n := by
    rintro (heq | hold)
    · obtain ⟨hk, rfl⟩ := Access.load.inj heq
      show s.mem.loads k + 1 ≤ update s.mem.loads k (s.mem.loads k + 1) k'
      rw [hk, update_self]
    · show n ≤ update s.mem.loads k (s.mem.loads k + 1) k'
      by_cases hk : k' = k
      · subst hk
        rw [update_self]
        exact (h.loads k' n hold).trans (Nat.le_succ _)
      · rw [update_of_ne hk]
        exact h.loads k' n hold
  stores k' n := by
    refine Iff.trans ?_ (h.stores k' n)
    exact Set.mem_insert_iff.trans (or_iff_right nofun)

/-- A store is an event of the writer's section, and the newest write. -/
theorem Guarded.store (hconf : A.Conforms prog) (h : Guarded prog s) (ht : s.thread t = none)
    (hw : 0 < (s.mem.sync.lock.owned t).writes) (k : κ) (v : V) (r : R) :
    Guarded prog (s.put (s.mem.stored t k v r) t none) where
  reach := h.reach_client ht rfl
  hist := by
    refine h.hist.perform ?_
    intro hmem
    exact Nat.not_succ_le_self _ ((h.stores k _).mp hmem).2
  placed := h.placed.perform (h.holder hconf ht (Or.inr hw)) fun _ => h.writer hconf ht hw
  loads k' n := by
    rintro (heq | hold)
    · cases heq
    · exact h.loads k' n hold
  stores k' n := by
    show .store k' n ∈ insert (Access.store k ((s.mem.writes k).length + 1)) s.mem.sync.hist.made ↔
      1 ≤ n ∧ n ≤ (update s.mem.writes k (s.mem.writes k ++ [v]) k').length
    rw [Set.mem_insert_iff, h.stores, Access.store.injEq]
    by_cases hk : k' = k
    · subst hk
      rw [update_self, List.length_append, List.length_singleton]
      simp only [true_and]
      omega
    · rw [update_of_ne hk]
      simp only [hk, false_and, false_or]

/-! ## Every run -/

/-- The newest values, after one more write. -/
theorem newest_update (first : κ → V) (writes : κ → List V) (k : κ) (v : V) :
    (fun k' => newest (first k') (update writes k (writes k ++ [v]) k')) =
      update (fun k' => newest (first k') (writes k')) k v := by
  funext k'
  by_cases hk : k' = k
  · subst hk
    rw [update_self, update_self, newest_append]
  · rw [update_of_ne hk, update_of_ne hk]

theorem WeakMem.plain_stored (m : WeakMem Tid κ V R) (t : Tid) (k : κ) (v : V) (r : R) :
    (m.stored t k v r).plain first =
      ⟨m.sync.lock, update (m.plain first).value k v, update m.reg t r⟩ :=
  congrArg (PlainMem.mk _ · _) (newest_update first m.writes k v)

/-- Every step keeps the invariant, and is a step on the ordinary memory. -/
theorem Guarded.step (hconf : A.Conforms prog) (h : Guarded prog s)
    (hstep : Pool.Step prog s e s') (hroom : A.Room s'.mem.sync.lock) :
    Guarded prog s' ∧ Pool.Step prog (s.under (WeakMem.plain first) : Pool (A.plainWorld C)) e
      (s'.under (WeakMem.plain first)) := by
  cases hstep with
  | @call t c m ht hcall =>
    obtain ⟨y, ⟨l, hlock, rfl⟩, rfl⟩ := hcall
    have hsync : Pool.Step prog (syncPool s) _ _ := .call ht ⟨l, hlock, rfl⟩
    refine ⟨h.of_sync hconf hsync hroom rfl rfl rfl ?_, .call ht ⟨l, hlock, rfl⟩⟩
    obtain ⟨-, rfl⟩ := hlock
    exact h.placed
  | @op t c o k a m ht hexec =>
    obtain ⟨y, ⟨l, hlock, rfl⟩, rfl⟩ := hexec
    have hsync : Pool.Step prog (syncPool s) _ _ := .op ht ⟨l, hlock, rfl⟩
    have hbase : Pool.Step prog (forget (syncPool s)) _ _ := .op ht hlock
    refine ⟨h.of_sync hconf hsync hroom (Op.history_made ..) rfl rfl ?_,
      .op ht ⟨l, hlock, rfl⟩⟩
    have hsim := LockApi.simulates hconf h.reach hbase hroom
    obtain ⟨v, heff, rfl⟩ := hlock
    exact h.placed_op hconf heff hsim
  | jump ht =>
    have hsync : Pool.Step prog (syncPool s) _ _ := .jump ht
    exact ⟨h.of_sync hconf hsync hroom rfl rfl rfl h.placed, .jump ht⟩
  | @ret t c r m ht hret =>
    obtain ⟨y, ⟨l, hlock, rfl⟩, rfl⟩ := hret
    have hsync : Pool.Step prog (syncPool s) _ _ := .ret ht ⟨l, hlock, rfl⟩
    refine ⟨h.of_sync hconf hsync hroom rfl rfl rfl ?_, .ret ht ⟨l, hlock, rfl⟩⟩
    obtain rfl := hlock
    cases r <;> exact h.placed
  | @client t m ht hclient =>
    cases hclient with
    | think hthink => exact ⟨h.register ht _, .client ht (.think hthink)⟩
    | @load k v r hholds hread hload =>
      rw [h.readable hconf ht hholds hread] at hload
      exact ⟨h.load hconf ht hholds k r, .client ht (.load (k := k) hholds hload)⟩
    | @store k v r hw hstore =>
      refine ⟨h.store hconf ht hw k v r, .client ht ?_⟩
      show PlainStep C t (s.mem.plain first) ((s.mem.stored t k v r).plain first)
      rw [WeakMem.plain_stored]
      exact .store hw hstore

/-- **Guarded data is ordinary data**, under every lock that conforms. -/
theorem LockApi.guarded (hconf : A.Conforms prog) {reg : Tid → R}
    {tr : List (Trans (A.weakWorld C first))}
    (hrun : Run prog (Pool.start (WeakMem.initial κ V reg)) tr s)
    (hroom : ∀ x ∈ tr, A.Room x.dst.mem.sync.lock) :
    Guarded prog s ∧
      Run prog (Pool.start (PlainMem.initial first reg) : Pool (A.plainWorld C))
        (tr.map (Trans.under (WeakMem.plain first))) (s.under (WeakMem.plain first)) := by
  refine Run.under_of (W := A.plainWorld C) (I := Guarded prog) (WeakMem.plain first) ?_ hrun hroom
    (.start reg)
  intro s e s' h hstep hok
  exact h.step hconf hstep hok

/-! ## Without readers -/

/-- A step is one of the lock, or leaves the lock alone. -/
theorem lock_step (hstep : Pool.Step prog s e s') :
    Pool.Step prog (forget (syncPool s)) e (forget (syncPool s')) ∨
      s'.mem.sync.lock = s.mem.sync.lock := by
  cases hstep with
  | call ht hcall =>
    obtain ⟨y, ⟨l, hlock, rfl⟩, rfl⟩ := hcall
    exact Or.inl (.call ht hlock)
  | op ht hexec =>
    obtain ⟨y, ⟨l, hlock, rfl⟩, rfl⟩ := hexec
    exact Or.inl (.op ht hlock)
  | jump ht => exact Or.inl (.jump ht)
  | ret ht hret =>
    obtain ⟨y, ⟨l, hlock, rfl⟩, rfl⟩ := hret
    exact Or.inl (.ret ht hlock)
  | client ht hclient => cases hclient <;> exact Or.inr rfl

theorem LockApi.WriteOnly.weak_room (hA : A.WriteOnly) {reg : Tid → R}
    {tr : List (Trans (A.weakWorld C first))}
    (hrun : Run prog (Pool.start (WeakMem.initial κ V reg)) tr s) :
    ∀ x ∈ tr, A.Room x.dst.mem.sync.lock := by
  have hkeep : ∀ (s : Pool (A.weakWorld C first)) e s', s.mem.sync.lock.abs.readers = 0 →
      Pool.Step prog s e s' → s'.mem.sync.lock.abs.readers = 0 := by
    intro s e s' hs hstep
    rcases lock_step hstep with hbase | hsame
    · exact hA.readers_step hbase hs
    · rw [hsame]
      exact hs
  exact fun x hx => LockApi.room_of_readers (hrun.keeps_dst hkeep rfl x hx)

/-- Nor is a read section ever completed. -/
theorem LockApi.WriteOnly.weak_doneR (hA : A.WriteOnly) {reg : Tid → R}
    {tr : List (Trans (A.weakWorld C first))}
    (hrun : Run prog (Pool.start (WeakMem.initial κ V reg)) tr s) :
    s.mem.sync.hist.doneR = ∅ := by
  refine Run.keeps (I := fun s : Pool (A.weakWorld C first) => s.mem.sync.hist.doneR = ∅) ?_ hrun
    (fun _ _ => trivial) rfl
  intro s e s' hs hstep _
  cases hstep with
  | call ht hcall =>
    obtain ⟨y, ⟨l, -, rfl⟩, rfl⟩ := hcall
    exact hs
  | op ht hexec =>
    obtain ⟨y, ⟨l, -, rfl⟩, rfl⟩ := hexec
    exact (hA.history_doneR ..).trans hs
  | jump ht => exact hs
  | ret ht hret =>
    obtain ⟨y, ⟨l, -, rfl⟩, rfl⟩ := hret
    exact hs
  | client ht hclient => cases hclient <;> exact hs

end

section
variable {Tid κ V R : Type} [DecidableEq Tid] [DecidableEq κ]

/-- **Data under a mutex is ordinary data.**  In every interleaving of threads that touch the
    variables under the mutex only, on a memory with release/acquire views, no access races, every
    load returns the newest value, and the run is one on an ordinary memory. -/
theorem mutex_guarded (P : Platform) (debug : Bool) (C : Client Tid κ V R) (first : κ → V)
    (reg : Tid → R) (tr : List (Trans (mutexApi.weakWorld C first)))
    (s : Pool (mutexApi.weakWorld C first))
    (hrun : Run (LockCall.prog debug P.features) (Pool.start (WeakMem.initial κ V reg)) tr s) :
    Run (LockCall.prog debug P.features)
        (Pool.start (PlainMem.initial first reg) : Pool (mutexApi.plainWorld C))
        (tr.map (Trans.under (WeakMem.plain first))) (s.under (WeakMem.plain first)) ∧
      ∀ t k, s.thread t = none →
        (s.mem.sync.lock.Holds t → ¬ s.mem.LoadRaces t k) ∧
        (0 < (s.mem.sync.lock.owned t).writes → ¬ s.mem.StoreRaces t k) := by
  have hconf := mutexApi_conforms debug P
  obtain ⟨hguarded, hplain⟩ :=
    LockApi.guarded hconf hrun (mutexApi_writeOnly.weak_room hrun)
  refine ⟨hplain, fun t k ht => ⟨fun hholds => hguarded.not_loadRaces hconf ht hholds k, ?_⟩⟩
  intro hw hraces
  obtain ⟨u, n, -, hsince⟩ := (hguarded.storeRaces_iff hconf ht hw k).mp hraces
  have hdone := hguarded.hist.since_done u hsince
  rw [mutexApi_writeOnly.weak_doneR hrun] at hdone
  exact hdone

end

/-- Threads with one variable, that keep what they load. -/
def keeping : Client Bool Unit Nat Nat where
  think _ _ _ := False
  load _ _ _ v r := r = v
  store _ _ _ _ _ := True

/-- Thread `true` stores 7 under the mutex; thread `false` takes the mutex, and loads 7. -/
theorem mutex_guarded_handover :
    ∃ tr, ∃ s : Pool (mutexApi.weakWorld keeping fun _ => 0),
      Run (LockCall.prog false Platform.uninitialised.features)
        (Pool.start (WeakMem.initial Unit Nat fun _ => 0)) tr s ∧ s.mem.reg false = 7 ∧
      Run (LockCall.prog false Platform.uninitialised.features)
        (Pool.start (PlainMem.initial (fun _ => 0) fun _ => 0) : Pool (mutexApi.plainWorld keeping))
        (tr.map (Trans.under (WeakMem.plain fun _ => 0))) (s.under (WeakMem.plain fun _ => 0)) := by
  have h0 : Reach (LockCall.prog false Platform.uninitialised.features) (fun _ => True)
      (WeakMem.initial Unit Nat fun _ => 0)
      (Pool.start (WeakMem.initial Unit Nat fun _ => 0) :
        Pool (mutexApi.weakWorld keeping fun _ => 0)) :=
    Reach.start ..
  have h1 := h0.step (.call (t := true) (c := LockCall.trylock) rfl
    ⟨_, ⟨_, ⟨trivial, rfl⟩, rfl⟩, rfl⟩) trivial
  have h2 := h1.step (.op (t := true) (c := LockCall.trylock) rfl
    ⟨_, ⟨_, ⟨_, .exchanged 0 1 _ _, rfl⟩, rfl⟩, rfl⟩) trivial
  have h3 := h2.step (.ret (t := true) (c := LockCall.trylock) (r := true) rfl
    ⟨_, ⟨_, rfl, rfl⟩, rfl⟩) trivial
  have h4 := h3.step (.client (t := true) rfl
    (.store (k := ()) (v := 7) (r := 0) Nat.one_pos trivial)) trivial
  have h5 := h4.step (.call (t := true) (c := LockCall.unlock) rfl
    ⟨_, ⟨_, ⟨Nat.one_pos, rfl⟩, rfl⟩, rfl⟩) trivial
  have h6 := h5.step (.op (t := true) (c := LockCall.unlock) rfl
    ⟨_, ⟨_, ⟨_, .storeN 1 0 .release, rfl⟩, rfl⟩, rfl⟩) trivial
  have h7 := h6.step (.ret (t := true) (c := LockCall.unlock) (r := true) rfl
    ⟨_, ⟨_, rfl, rfl⟩, rfl⟩) trivial
  have h8 := h7.step (.call (t := false) (c := LockCall.trylock) rfl
    ⟨_, ⟨_, ⟨trivial, rfl⟩, rfl⟩, rfl⟩) trivial
  have h9 := h8.step (.op (t := false) (c := LockCall.trylock) rfl
    ⟨_, ⟨_, ⟨_, .exchanged 0 1 _ _, rfl⟩, rfl⟩, rfl⟩) trivial
  have h10 := h9.step (.ret (t := false) (c := LockCall.trylock) (r := true) rfl
    ⟨_, ⟨_, rfl, rfl⟩, rfl⟩) trivial
  obtain ⟨tr, hrun, -⟩ := h10
  have hrun' := hrun.snoc (.client (t := false) rfl
    (.load (k := ()) (v := 7) (r := 7) (Or.inr Nat.one_pos) readable_newest rfl))
  exact ⟨_, _, hrun', rfl, (mutex_guarded Platform.uninitialised false _ _ _ _ _ hrun').1⟩

section
variable {Tid κ V R : Type} [DecidableEq Tid] [DecidableEq κ]

/-- **Data under a readers/writer lock.**  In every run with fewer than 2^31 read holds outstanding,
    of threads that load under the lock and store under it as the writer, every load returns the
    newest value, the run is one on an ordinary memory, and no load races with a store before it.
    A store races exactly if another thread has loaded the variable in a read section that it
    completed after its own last write section. -/
theorem rwlock_guarded (P : Platform) (debug : Bool) (C : Client Tid κ V R) (first : κ → V)
    (reg : Tid → R) (tr : List (Trans (rwlockApi.weakWorld C first)))
    (s : Pool (rwlockApi.weakWorld C first))
    (hrun : Run (RwlockCall.prog debug P.features) (Pool.start (WeakMem.initial κ V reg)) tr s)
    (hroom : ∀ x ∈ tr, rwlockApi.Room x.dst.mem.sync.lock) :
    Run (RwlockCall.prog debug P.features)
        (Pool.start (PlainMem.initial first reg) : Pool (rwlockApi.plainWorld C))
        (tr.map (Trans.under (WeakMem.plain first))) (s.under (WeakMem.plain first)) ∧
      ∀ t k, s.thread t = none →
        (s.mem.sync.lock.Holds t → ¬ s.mem.LoadRaces t k) ∧
        (0 < (s.mem.sync.lock.owned t).writes →
          (s.mem.StoreRaces t k ↔ ∃ u n, u ≠ t ∧ .load k n ∈ s.mem.sync.hist.since u)) := by
  have hconf := rwlockApi_conforms debug P
  obtain ⟨hguarded, hplain⟩ := LockApi.guarded hconf hrun hroom
  refine ⟨hplain, fun t k ht => ⟨?_, ?_⟩⟩
  · exact fun hholds => hguarded.not_loadRaces hconf ht hholds k
  · exact fun hw => hguarded.storeRaces_iff hconf ht hw k

end

/-- Thread `true` loads the variable under the lock, and unlocks; when thread `false` comes in as
    the writer, a store of it would race with that load. -/
theorem rwlock_guarded_race :
    ∃ tr, ∃ s : Pool (rwlockApi.weakWorld keeping fun _ => 0),
      Run (RwlockCall.prog false Platform.uninitialised.features)
        (Pool.start (WeakMem.initial Unit Nat fun _ => 0)) tr s ∧
      (∀ x ∈ tr, rwlockApi.Room x.dst.mem.sync.lock) ∧ s.mem.StoreRaces false () := by
  have hzero : 0 < 2 ^ 31 := Nat.two_pow_pos 31
  have hone : 1 < 2 ^ 31 := Nat.one_lt_two_pow (by decide)
  have h0 : Reach (RwlockCall.prog false Platform.uninitialised.features)
      (fun m : WeakMem Bool Unit Nat Nat => rwlockApi.Room m.sync.lock)
      (WeakMem.initial Unit Nat fun _ => 0)
      (Pool.start (WeakMem.initial Unit Nat fun _ => 0) :
        Pool (rwlockApi.weakWorld keeping fun _ => 0)) :=
    Reach.start ..
  have h1 := h0.step (.call (t := true) (c := RwlockCall.rdlock false) rfl
    ⟨_, ⟨_, ⟨trivial, rfl⟩, rfl⟩, rfl⟩) hzero
  have h2 := h1.step (.op (t := true) (c := RwlockCall.rdlock false) rfl
    ⟨_, ⟨_, ⟨_, .exchanged 0 1 _ _, rfl⟩, rfl⟩, rfl⟩) hone
  have h3 := h2.step (.ret (t := true) (c := RwlockCall.rdlock false) (r := true) rfl
    ⟨_, ⟨_, rfl, rfl⟩, rfl⟩) hone
  have h4 := h3.step (.client (t := true) rfl
    (.load (k := ()) (v := 0) (r := 0) (Or.inl Nat.one_pos) readable_newest rfl)) hone
  have h5 := h4.step (.call (t := true) (c := RwlockCall.readUnlock) rfl
    ⟨_, ⟨_, ⟨Nat.one_pos, rfl⟩, rfl⟩, rfl⟩) hone
  have h6 := h5.step (.op (t := true) (c := RwlockCall.readUnlock) rfl
    ⟨_, ⟨_, ⟨_, .fetchSub 1 1 _, rfl⟩, rfl⟩, rfl⟩) hzero
  have h7 := h6.step (.ret (t := true) (c := RwlockCall.readUnlock) (r := true) rfl
    ⟨_, ⟨_, rfl, rfl⟩, rfl⟩) hzero
  have h8 := h7.step (.call (t := false) (c := RwlockCall.trylock) rfl
    ⟨_, ⟨_, ⟨trivial, rfl⟩, rfl⟩, rfl⟩) hzero
  have h9 := h8.step (.op (t := false) (c := RwlockCall.trylock) rfl
    ⟨_, ⟨_, ⟨_, .exchanged 0 TOP_BIT _ _, rfl⟩, rfl⟩, rfl⟩) hzero
  have h10 := h9.step (.ret (t := false) (c := RwlockCall.trylock) (r := true) rfl
    ⟨_, ⟨_, rfl, rfl⟩, rfl⟩) hzero
  obtain ⟨tr, hrun, hroom⟩ := h10
  have hiff := ((rwlock_guarded Platform.uninitialised false _ _ _ _ _ hrun hroom).2 false () rfl).2
  exact ⟨tr, _, hrun, hroom, (hiff Nat.one_pos).mpr ⟨true, 1, by decide, Or.inr (Or.inl rfl)⟩⟩

end WfeMutex
