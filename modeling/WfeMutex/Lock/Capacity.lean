/-
  THE CAPACITY OF THE READER COUNT: what happens at 2^31 read holds.

  "Top-bit determines write-lock.  Lower 31-bits gives the number of shared locks."  No read
  acquisition looks at the count it is about to exceed: each exchanges a word without the top bit
  for its successor, and the successor of 2^31 - 1 has the top bit.  `NeverSpills` says of a run
  that this does not happen, and `rwlock_neverSpills_iff` that it does not happen exactly if no
  state of the run has 2^31 read holds outstanding.  `rwlock_spills` is a run in which it does:
  one thread takes the lock with `wfe_mutex_rwlock_trylock_shared` 2^31 times, and the lock then
  looks write-locked and passes the check of `wfe_mutex_rwlock_unlock`, with all readers inside.
-/
import WfeMutex.Lock.Rwlock

set_option linter.unusedVariables false

namespace WfeMutex

open Conc

/-- The check of `wfe_mutex_rwlock_unlock` lets the word pass that it loads. -/
def PassesUnlockCheck (word : BitVec 32) : Prop :=
  Checks (fun v => v = word) (sanityCheckRdwrlockUnlockMutex true)

theorem Checks.look_inv {V : BitVec 32 → Prop} {k : BitVec 32 → Prog (atomics 32) Unit}
    (h : Checks V (.op (.loadN .seqCst) k)) {v : BitVec 32} (hv : V v) : Checks V (k v) := by
  cases h with
  | look hk => exact hk v hv

theorem Checks.not_report {V : BitVec 32 → Prop} {msg : String}
    {k : Empty → Prog (atomics 32) Unit} : ¬ Checks V (.op (.printError msg) k) := by
  intro h
  cases h

/-- The check of a write unlock asks for the top bit, and for nothing that only a writer sets. -/
theorem passesUnlockCheck_iff (word : BitVec 32) : PassesUnlockCheck word ↔ word = TOP_BIT := by
  refine ⟨fun hpass => ?_, ?_⟩
  · have hk := Checks.look_inv (k := _) hpass rfl
    simp only [Prog.bind] at hk
    split at hk
    · split at hk
      · exact absurd hk Checks.not_report
      · rename_i htop hlow
        have hge : ¬ word.toNat < 2 ^ 31 := by
          rw [← and_top_eq_zero_iff]
          exact bne_iff_ne.mp htop
        have hmod : word.toNat % 2 ^ 31 = 0 := by
          have hzero : word &&& ~~~TOP_BIT = 0 := by simpa using hlow
          rw [← toNat_and_not_top, hzero]
          rfl
        have hlt := word.isLt
        apply BitVec.eq_of_toNat_eq
        rw [TOP_BIT_toNat]
        omega
    · split at hk
      · exact absurd hk Checks.not_report
      · exact absurd hk Checks.not_report
  · rintro rfl
    exact checks_sanityCheckRdwrlockUnlockMutex true fun _ hv => hv

/-- A word without the top bit does not pass the check of `unlock`. -/
theorem not_passesUnlockCheck {word : BitVec 32} (h : word &&& TOP_BIT = 0) :
    ¬ PassesUnlockCheck word := by
  rw [passesUnlockCheck_iff]
  rintro rfl
  exact absurd h (by decide)

section
variable {Tid : Type} [DecidableEq Tid] {prog : RwlockCall → Prog (atomics 32) Bool}

/-- In this run no read acquisition makes a word with the top bit, and a lock without a writer
    neither looks write-locked nor passes the check of a write unlock. -/
def NeverSpills (tr : List (Trans (rwlockApi.world Tid))) : Prop :=
  ∀ x ∈ tr,
    (∀ t c o a, x.ev = .op t c o a → c.act = .acquireRead → o.writes a = true →
      x.dst.mem.word &&& TOP_BIT = 0) ∧
    (x.dst.mem.abs.writer = none →
      x.dst.mem.word &&& TOP_BIT = 0 ∧ ¬ PassesUnlockCheck x.dst.mem.word)

/-- A write that adds a read hold either leaves room or sets the top bit. -/
theorem rwlock_room_step (hconf : rwlockApi.Conforms prog) {s s' : Pool (rwlockApi.world Tid)}
    {e : Event (atomics 32) Tid RwlockCall Bool} (hs : rwlockApi.Reachable prog s)
    (hstep : Pool.Step prog s e s')
    (hclear : ∀ t c o a, e = .op t c o a → c.act = .acquireRead → o.writes a = true →
      s'.mem.word &&& TOP_BIT = 0) : rwlockApi.Room s'.mem := by
  obtain ⟨ph, hcov⟩ := LockApi.covers hconf hs
  have hinv : LockInv rwlockApi s.mem ph := hcov.inv
  cases hstep with
  | call ht hcall =>
    obtain ⟨-, rfl⟩ := hcall
    exact hinv.room
  | @op t c o k a m ht hexec =>
    obtain ⟨l, hph, hspec⟩ := hcov.busy ht
    obtain ⟨⟨rfl, hpre⟩, -⟩ := hspec.out
    obtain ⟨v, heff, rfl⟩ := hexec
    cases ha : o.writes a with
    | false =>
      show rwlockApi.Room (LockMem.answer s.mem _ t o a v)
      rw [LockMem.answer_look heff ha]
      exact hinv.room
    | true =>
      have hmay := LockApi.mayWrite_of_writes hpre ha
      show rwlockApi.Room (LockMem.answer s.mem (rwlockApi.act c) t o a v)
      rw [LockMem.answer_write ha]
      cases hc : rwlockApi.act c with
      | acquireRead =>
        rw [hc] at hmay
        obtain ⟨e, he, rfl⟩ := hmay
        obtain ⟨hword, hv⟩ := heff.exchanged_inv ha
        have hclear' : v &&& TOP_BIT = 0 := by
          have hput := hclear t c _ a rfl hc ha
          rw [Pool.put_mem, LockMem.answer_write ha] at hput
          exact hput
        have hcard := hinv.encodes.of_free (hinv.encodes.writer_none (hword ▸ he))
        rw [and_top_eq_zero_iff, hv, BitVec.toNat_add, ← hword, hcard] at hclear'
        have hroom : s.mem.abs.readers.card < 2 ^ 31 := hinv.room
        show (Multiset.card (t ::ₘ s.mem.abs.readers)) < 2 ^ 31
        rw [Multiset.card_cons]
        rw [show (1 : BitVec 32).toNat = 1 from rfl] at hclear'
        omega
      | acquireWrite => exact hinv.room
      | releaseRead =>
        exact lt_of_le_of_lt (Multiset.card_le_card (Multiset.erase_le _ _)) hinv.room
      | releaseWrite => exact hinv.room
  | jump ht => exact hinv.room
  | @ret t c r m ht hret =>
    obtain rfl := hret
    cases r <;> exact hinv.room
  | client ht hclient => exact hclient.elim

/-- While there is room, a word without a writer is without the top bit. -/
theorem rwlock_clear_of_room {s : Pool (rwlockApi.world Tid)}
    (hconf : rwlockApi.Conforms prog) (hs : rwlockApi.Reachable prog s)
    (hfree : s.mem.abs.writer = none) : s.mem.word &&& TOP_BIT = 0 := by
  obtain ⟨henc, -, hroom⟩ := LockApi.encodes hconf hs
  rw [and_top_eq_zero_iff, henc.of_free hfree]
  exact hroom

/-- A read acquisition leaves a lock without a writer. -/
theorem rwlock_writer_of_acquireRead (hconf : rwlockApi.Conforms prog)
    {s s' : Pool (rwlockApi.world Tid)} {t : Tid} {c : RwlockCall} {o : Op 32} {a : o.Ans}
    (hs : rwlockApi.Reachable prog s) (hstep : Pool.Step prog s (.op t c o a) s')
    (hroom : rwlockApi.Room s'.mem) (hc : c.act = .acquireRead) (ha : o.writes a = true) :
    s'.mem.abs.writer = none := by
  have hsim : if o.writes a then _ else _ := LockApi.simulates hconf hs hstep hroom
  rw [if_pos ha] at hsim
  have hact : rwlockApi.act c = .acquireRead := hc
  obtain ⟨hperm, habs, -⟩ := hsim
  rw [hact] at hperm habs
  rw [habs]
  exact hperm

/-- Within the bound the count never reaches the top bit. -/
theorem neverSpills_of_room (hconf : rwlockApi.Conforms prog) {s : Pool (rwlockApi.world Tid)}
    {tr : List (Trans (rwlockApi.world Tid))}
    (hrun : Run prog (Pool.start (LockMem.initializer Tid)) tr s)
    (hroom : ∀ x ∈ tr, rwlockApi.Room x.dst.mem) : NeverSpills tr := by
  intro x hx
  obtain ⟨tr₁, tr₂, rfl, hrun₁, hstep, -⟩ := hrun.split hx
  have hsrc : rwlockApi.Reachable prog x.src :=
    ⟨tr₁, hrun₁, fun y hy => hroom y (List.mem_append_left _ hy)⟩
  have hdst : rwlockApi.Reachable prog x.dst := hsrc.step hstep (hroom x hx)
  refine ⟨fun t c o a he hc ha => ?_, fun hfree => ?_⟩
  · rw [he] at hstep
    exact rwlock_clear_of_room hconf hdst
      (rwlock_writer_of_acquireRead hconf hsrc hstep (hroom x hx) hc ha)
  · have hclear := rwlock_clear_of_room hconf hdst hfree
    exact ⟨hclear, not_passesUnlockCheck hclear⟩

/-- A run that never spills leaves room at every step, from any reachable state on. -/
theorem room_of_neverSpills (hconf : rwlockApi.Conforms prog) {s s' : Pool (rwlockApi.world Tid)}
    {tr : List (Trans (rwlockApi.world Tid))} (hrun : Run prog s tr s')
    (hs : rwlockApi.Reachable prog s) (hspill : NeverSpills tr) :
    ∀ x ∈ tr, rwlockApi.Room x.dst.mem := by
  induction hrun with
  | nil s =>
    intro x hx
    cases hx
  | @cons s₁ s₂ s₃ e tr hstep hrun ih =>
    have hroom := rwlock_room_step hconf hs hstep (hspill _ List.mem_cons_self).1
    intro x hx
    rcases List.mem_cons.mp hx with rfl | hx
    · exact hroom
    · exact ih (hs.step hstep hroom) (fun y hy => hspill y (List.mem_cons_of_mem _ hy)) x hx

/-- **When the reader count stays out of the writer's bit**: exactly in the runs no state of which
    has 2^31 read holds outstanding. -/
theorem rwlock_neverSpills_iff (P : Platform) (debug : Bool)
    (tr : List (Trans (rwlockApi.world Tid))) (s : Pool (rwlockApi.world Tid))
    (hrun : Run (RwlockCall.prog debug P.features) (Pool.start (LockMem.initializer Tid)) tr s) :
    NeverSpills tr ↔ ∀ x ∈ tr, x.dst.mem.abs.readers.card < 2 ^ 31 := by
  have hconf := rwlockApi_conforms debug P
  have hstart : rwlockApi.Reachable (RwlockCall.prog debug P.features)
      (Pool.start (LockMem.initializer Tid)) := ⟨[], .nil _, fun x hx => by cases hx⟩
  exact ⟨room_of_neverSpills hconf hrun hstart, neverSpills_of_room hconf hrun⟩

end

/-! ## The run that spills -/

/-- The build without checks, spinning, under one thread. -/
def spinProg : RwlockCall → Prog (atomics 32) Bool :=
  RwlockCall.prog false Platform.uninitialised.features

/-- One call of `wfe_mutex_rwlock_rdlock` does not spill. -/
theorem rwlock_neverSpills_iff_once :
    ∃ tr, ∃ s : Pool (rwlockApi.world Unit),
      Run spinProg (Pool.start (LockMem.initializer Unit)) tr s ∧ s.mem.word = 1 ∧
        NeverSpills tr := by
  obtain ⟨tr, s, hrun, hword, hroom⟩ : ∃ tr, ∃ s : Pool (rwlockApi.world Unit),
      Run spinProg (Pool.start (LockMem.initializer Unit)) tr s ∧ s.mem.word = 1 ∧
        ∀ x ∈ tr, x.dst.mem.abs.readers.card < 2 ^ 31 := by
    refine ⟨_, _, .cons (.call (t := ()) (c := RwlockCall.rdlock false) rfl ⟨trivial, rfl⟩)
      (.cons (.op (t := ()) (c := RwlockCall.rdlock false) rfl ⟨_, .exchanged 0 1 _ _, rfl⟩)
        (.cons (.ret (t := ()) (c := RwlockCall.rdlock false) (r := true) rfl rfl) (.nil _))),
      rfl, fun x hx => ?_⟩
    have hone : 1 < 2 ^ 31 := Nat.one_lt_two_pow (by decide)
    rcases List.mem_cons.mp hx with rfl | hx
    · exact Nat.two_pow_pos 31
    · rcases List.mem_pair.mp hx with rfl | rfl
      · exact hone
      · exact hone
  exact ⟨tr, s, hrun, hword,
    (rwlock_neverSpills_iff Platform.uninitialised false tr s hrun).mpr hroom⟩

/-- The one thread is outside any call and has taken the lock `n` times for reading. -/
def TakenTimes (n : Nat) (s : Pool (rwlockApi.world Unit)) : Prop :=
  s.thread () = none ∧ s.mem.word.toNat = n ∧ s.mem.abs.readers.card = n

/-- Below the top bit, `wfe_mutex_rwlock_trylock_shared` takes the lock once more. -/
theorem trylockShared_once_more {n : Nat} (hn : n < 2 ^ 31) {s : Pool (rwlockApi.world Unit)}
    (hs : TakenTimes n s) : ∃ tr s', Run spinProg s tr s' ∧ TakenTimes (n + 1) s' := by
  obtain ⟨hidle, hword, hcard⟩ := hs
  generalize hw : s.mem.word = w at hword
  have hself : w = w &&& ~~~TOP_BIT := (and_not_top_eq_self (by rw [hword]; exact hn)).symm
  have hload : Effect s.mem.word (.loadN .acquire) w w := by
    rw [hw]
    exact .loadN w .acquire
  have hcas : Effect w (.compareExchangeN (w &&& ~~~TOP_BIT) ((w &&& ~~~TOP_BIT) + 1) .acquire
      .acquire) (true, w) ((w &&& ~~~TOP_BIT) + 1) := Effect.exchange_of_eq hself
  refine ⟨_, _, .cons (.call (t := ()) (c := RwlockCall.trylockShared) hidle ⟨trivial, rfl⟩)
    (.cons (.op (t := ()) (c := RwlockCall.trylockShared) rfl ⟨w, hload, rfl⟩)
      (.cons (.op (t := ()) (c := RwlockCall.trylockShared) rfl ⟨_, hcas, rfl⟩)
        (.cons (.ret (t := ()) (c := RwlockCall.trylockShared) (r := true) rfl rfl) (.nil _)))),
    rfl, ?_, ?_⟩
  · show ((w &&& ~~~TOP_BIT) + 1).toNat = n + 1
    rw [← hself, BitVec.toNat_add, hword]
    exact Nat.mod_eq_of_lt (by simp; omega)
  · show Multiset.card (() ::ₘ s.mem.abs.readers) = n + 1
    rw [Multiset.card_cons, hcard]

/-- The lock can be taken for reading `n` times, up to 2^31. -/
theorem takenTimes_run {n : Nat} (hn : n ≤ 2 ^ 31) :
    ∃ tr s, Run spinProg (Pool.start (LockMem.initializer Unit)) tr s ∧ TakenTimes n s := by
  induction n with
  | zero => exact ⟨[], _, .nil _, rfl, rfl, rfl⟩
  | succ n ih =>
    obtain ⟨tr, s, hrun, hs⟩ := ih (by omega)
    obtain ⟨tr', s', hrun', hs'⟩ := trylockShared_once_more (by omega) hs
    exact ⟨tr ++ tr', s', hrun.append hrun', hs'⟩

/-- **The count does spill**: after 2^31 calls the one reader has made the word 2^31. -/
theorem rwlock_spills :
    ¬ ∀ tr (s : Pool (rwlockApi.world Unit)),
      Run spinProg (Pool.start (LockMem.initializer Unit)) tr s → NeverSpills tr := by
  intro hall
  obtain ⟨tr, s, hrun, hidle, hword, hcard⟩ := takenTimes_run (le_refl (2 ^ 31))
  have hroom := room_of_neverSpills (rwlockApi_conforms false Platform.uninitialised) hrun
    ⟨[], .nil _, fun x hx => by cases hx⟩ (hall tr s hrun)
  rcases hrun.last with rfl | ⟨x, hx, rfl⟩
  · exact absurd hcard (by decide)
  · have hlt : x.dst.mem.abs.readers.card < 2 ^ 31 := hroom x hx
    omega

end WfeMutex
