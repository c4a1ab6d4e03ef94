/-
  ONE WORD AS A READERS/WRITER LOCK: what the two locks of wfe_mutex have in common.

  A `LockApi` says what each call of a lock does to the abstract lock, which calls are `void`, and
  how the word encodes the holders: `wr` while a writer holds, otherwise the number of read holds,
  which stays below `cap ≤ wr`.  `wfe_mutex_rwlock` is the instance `wr = cap = 2^31`,
  `wfe_mutex_lock` the instance `wr = cap = 1`, where no call acquires a read hold.

  `LockApi.world` is the shared memory of such a lock.  Beside the word it carries what a proof
  about interleavings needs and no thread can see: the abstract lock `abs`, moved by a call at
  its write of the word, whatever the state then is; each client's own account `owned`, which
  follows the results of its calls only; and `wrote`, the writes of each thread's current call.
  The client's discipline is a guard on that account: a call that gives a hold back needs one.

  A call keeps `LockApi.proto` when it looks at the word any number of times and writes it at most
  once, in the way its act allows.  Every acquisition is a compare-exchange from a value that
  encodes no writer, so it is sound however stale that value is; a release is a blind write and
  is sound because the caller's own hold pins the word.  `LockApi.outline` is that argument:
  the invariant `LockInv` is kept by every step of every interleaving.  `LockApi.simulates` reads
  off the result: each call is one step of the abstract lock, or none.
-/
import WfeMutex.Conc.Pool
import WfeMutex.Conc.RWLock
import WfeMutex.Wait.Reads

set_option linter.unusedVariables false

namespace WfeMutex

open Conc
open Function (update update_self update_of_ne)

/-- How the calls of a lock act, and how its word encodes the holders. -/
structure LockApi (Call : Type) where
  act : Call → LockAct
  /-- Calls of `void` functions, which only ever answer `true`. -/
  void : Call → Bool
  /-- The word while a writer holds. -/
  wr : BitVec 32
  /-- Read holds stay below this. -/
  cap : Nat
  cap_pos : 0 < cap
  cap_le : cap ≤ wr.toNat
  /-- The functions that give a hold back are `void`. -/
  void_release : ∀ c, act c = .releaseRead ∨ act c = .releaseWrite → void c = true

/-- The shared memory of a lock. -/
structure LockMem (Tid : Type) where
  word : BitVec 32
  /-- The abstract lock, moved by each call at its write of the word. -/
  abs : RWLock Tid
  /-- Every client's account of its holds, from the results of its calls. -/
  owned : Tid → Held
  /-- How often each thread's current call has written the word. -/
  wrote : Tid → Nat

/-- `WFE_MUTEX_LOCK_INITIALIZER`, `WFE_MUTEX_RWLOCK_INITIALIZER`: the word is 0. -/
def LockMem.initializer (Tid : Type) : LockMem Tid := ⟨0, RWLock.free, fun _ => ⟨0, 0⟩, fun _ => 0⟩

/-- Where a call is: before its write of the word, or after it. -/
inductive Phase where
  | before | after
  deriving DecidableEq, Repr

section
variable {Call Tid : Type} [DecidableEq Tid] (A : LockApi Call)

/-- The memory after `t`'s operation `o`, made for an act `x`, was answered by `a` and left `v`. -/
def LockMem.answer (m : LockMem Tid) (x : LockAct) (t : Tid) (o : Op 32) (a : o.Ans)
    (v : BitVec 32) : LockMem Tid :=
  if o.writes a then
    { m with word := v, abs := x.apply t m.abs, wrote := update m.wrote t (m.wrote t + 1) }
  else { m with word := v }

variable (Tid) in
/-- The shared memory of the lock under its clients. -/
abbrev LockApi.world : World (atomics 32) Tid Call Bool where
  Mem := LockMem Tid
  call t c m m' := (A.act c).covered (m.owned t) ∧
    m' = { m with
      owned := update m.owned t ((A.act c).spend (m.owned t))
      wrote := update m.wrote t 0 }
  exec t c o a m m' := ∃ v, Effect m.word o a v ∧ m' = m.answer (A.act c) t o a v
  ret t c r m m' :=
    m' = if r then { m with owned := update m.owned t ((A.act c).gain (m.owned t)) } else m
  client _ _ _ := False

/-! ## The protocol of a call -/

/-- The write a call of act `x` may make, with its memory order. -/
def LockApi.mayWrite (x : LockAct) (o : Op 32) : Prop :=
  match x with
  | .acquireRead =>
    ∃ e : BitVec 32, e.toNat < A.cap ∧ o = .compareExchangeN e (e + 1) .acquire .acquire
  | .acquireWrite => o = .compareExchangeN 0 A.wr .acquire .acquire
  | .releaseRead => o = .fetchSub 1 .acquire
  | .releaseWrite => o = .storeN 0 .release

/-- What a look at the word can show a call of act `x` before its write. -/
def LockApi.shows (x : LockAct) (v : BitVec 32) : Prop :=
  match x with
  | .acquireRead | .acquireWrite => v = A.wr ∨ v.toNat < A.cap
  | .releaseRead => 0 < v.toNat ∧ v.toNat < A.cap
  | .releaseWrite => v = A.wr

/-- The protocol of a call: look any number of times, write at most once. -/
def LockApi.proto (x : LockAct) : Proto (atomics 32) Phase where
  pre ph o := ph = .before ∧ (o.quiet = true ∨ A.mayWrite x o)
  post _ o a ph' := ph' = (if o.writes a then Phase.after else Phase.before) ∧
    ∀ v, o.sees a = some v → A.shows x v

/-- How a call may end: with `true` exactly after its write, and a `void` one always so. -/
def LockApi.ends (c : Call) (r : Bool) (ph : Phase) : Prop :=
  (r = true ↔ ph = .after) ∧ (A.void c = true → r = true)

/-- Every call keeps its protocol. -/
def LockApi.Conforms (prog : Call → Prog (atomics 32) Bool) : Prop :=
  ∀ c, Spec (A.proto (A.act c)) (prog c) .before (A.ends c)

/-! ## The invariant -/

/-- The word encodes the holders. -/
def LockApi.Encodes (word : BitVec 32) (a : RWLock Tid) : Prop :=
  match a.writer with
  | some _ => word = A.wr
  | none => word.toNat = a.readers.card

/-- A thread's holds in the lock, its account, and its current call's writes fit together. -/
def LockApi.Share (m : LockMem Tid) (t : Tid) : Option (Call × Phase) → Prop
  | none => m.abs.held t = m.owned t
  | some (c, .before) => m.abs.held t = (A.act c).pending (m.owned t) ∧ m.wrote t = 0
  | some (c, .after) => m.abs.held t = (A.act c).gain (m.owned t) ∧ m.wrote t = 1

/-- The invariant of every interleaving. -/
structure LockInv (m : LockMem Tid) (ph : Tid → Option (Call × Phase)) : Prop where
  encodes : A.Encodes m.word m.abs
  exclusive : m.abs.Exclusive
  room : m.abs.readers.card < A.cap
  share : ∀ t, A.Share m t (ph t)

variable {A}

omit [DecidableEq Tid] in
/-- With a writer the word is the writer's value. -/
theorem LockApi.Encodes.of_writer {word : BitVec 32} {a : RWLock Tid} {t : Tid}
    (h : A.Encodes word a) (hw : a.writer = some t) : word = A.wr := by
  simpa [LockApi.Encodes, hw] using h

omit [DecidableEq Tid] in
/-- Without one it is the number of read holds. -/
theorem LockApi.Encodes.of_free {word : BitVec 32} {a : RWLock Tid}
    (h : A.Encodes word a) (hw : a.writer = none) : word.toNat = a.readers.card := by
  simpa [LockApi.Encodes, hw] using h

omit [DecidableEq Tid] in
/-- A word below the capacity shows that there is no writer. -/
theorem LockApi.Encodes.writer_none {word : BitVec 32} {a : RWLock Tid}
    (h : A.Encodes word a) (hlt : word.toNat < A.cap) : a.writer = none := by
  cases hw : a.writer with
  | none => rfl
  | some u =>
    have hcap := A.cap_le
    rw [h.of_writer hw] at hlt
    omega

/-- Inside a `releaseRead` call, before its write, the caller still holds. -/
theorem LockInv.mem_readers {m : LockMem Tid} {ph : Tid → Option (Call × Phase)} {t : Tid}
    {c : Call} (h : LockInv A m ph) (ht : ph t = some (c, .before))
    (hc : A.act c = .releaseRead) : t ∈ m.abs.readers := by
  have hshare := h.share t
  rw [ht] at hshare
  have hheld : (m.abs.held t).reads = (m.owned t).reads + 1 := by rw [hshare.1, hc]; rfl
  exact Multiset.count_pos.mp (by rw [show m.abs.readers.count t = _ from hheld]; omega)

/-- Inside a `releaseWrite` call, before its write, the caller still holds. -/
theorem LockInv.writer_eq {m : LockMem Tid} {ph : Tid → Option (Call × Phase)} {t : Tid}
    {c : Call} (h : LockInv A m ph) (ht : ph t = some (c, .before))
    (hc : A.act c = .releaseWrite) : m.abs.writer = some t := by
  have hshare := h.share t
  rw [ht] at hshare
  have hheld : (m.abs.held t).writes = (m.owned t).writes + 1 := by rw [hshare.1, hc]; rfl
  by_contra hne
  have hzero : (m.abs.held t).writes = 0 := if_neg hne
  omega

/-- A hold that a call gives back, before its write, is there to be given back. -/
theorem LockInv.gives_permitted {m : LockMem Tid} {ph : Tid → Option (Call × Phase)} {t : Tid}
    {c : Call} (h : LockInv A m ph) (ht : ph t = some (c, .before))
    (hgives : (A.act c).gives = true) : (A.act c).permitted t m.abs := by
  cases hc : A.act c with
  | acquireRead =>
    rw [hc] at hgives
    cases hgives
  | acquireWrite =>
    rw [hc] at hgives
    cases hgives
  | releaseRead => exact h.mem_readers ht hc
  | releaseWrite => exact h.writer_eq ht hc

theorem LockApi.void_of_gives {c : Call} (h : (A.act c).gives = true) : A.void c = true := by
  refine A.void_release c ?_
  cases hact : A.act c with
  | acquireRead => rw [hact] at h; cases h
  | acquireWrite => rw [hact] at h; cases h
  | releaseRead => exact Or.inl rfl
  | releaseWrite => exact Or.inr rfl

/-! ### The word before a write -/

omit [DecidableEq Tid] in
/-- What the word can be when the act is still to come. -/
theorem LockApi.Encodes.shows {word : BitVec 32} {a : RWLock Tid} {t : Tid} {x : LockAct}
    (h : A.Encodes word a) (hexcl : a.Exclusive) (hroom : a.readers.card < A.cap)
    (hback : x.gives = true → x.permitted t a) : A.shows x word := by
  have hany : word = A.wr ∨ word.toNat < A.cap := by
    cases hw : a.writer with
    | some u => exact Or.inl (h.of_writer hw)
    | none => exact Or.inr (h.of_free hw ▸ hroom)
  cases x with
  | acquireRead => exact hany
  | acquireWrite => exact hany
  | releaseRead =>
    have hmem : t ∈ a.readers := hback rfl
    have hfree : a.writer = none := by
      by_contra hne
      obtain ⟨u, hu⟩ := Option.ne_none_iff_exists'.mp hne
      rw [hexcl u hu] at hmem
      exact Multiset.notMem_zero t hmem
    have hword := h.of_free hfree
    have hpos : 0 < a.readers.card := Multiset.card_pos_iff_exists_mem.mpr ⟨t, hmem⟩
    exact ⟨by omega, by omega⟩
  | releaseWrite => exact h.of_writer (hback rfl)

/-- Before its act a call can rely on what its client holds. -/
theorem LockInv.shows {m : LockMem Tid} {ph : Tid → Option (Call × Phase)} {t : Tid} {c : Call}
    (h : LockInv A m ph) (ht : ph t = some (c, .before)) : A.shows (A.act c) m.word :=
  h.encodes.shows h.exclusive h.room (h.gives_permitted ht)

/-! ### The word after each write -/

/-- An exchange that adds a read hold finds no writer, and counts the hold. -/
theorem LockApi.Encodes.acquireRead {word : BitVec 32} {a : RWLock Tid} {t : Tid}
    (h : A.Encodes word a) (hlt : word.toNat < A.cap)
    (hroom : (LockAct.apply t a .acquireRead).readers.card < A.cap) :
    a.writer = none ∧ A.Encodes (word + 1) (LockAct.apply t a .acquireRead) ∧ word + 1 ≠ word := by
  have hfree := h.writer_none hlt
  have hword := h.of_free hfree
  have hcard : Multiset.card (t ::ₘ a.readers) < A.cap := hroom
  rw [Multiset.card_cons] at hcard
  have hval : (word + 1).toNat = a.readers.card + 1 := by
    have hcap := A.cap_le
    have hbound := A.wr.isLt
    rw [BitVec.toNat_add, hword]
    exact Nat.mod_eq_of_lt (by simp; omega)
  refine ⟨hfree, ?_, ?_⟩
  · simpa [LockApi.Encodes, LockAct.apply, hfree] using hval
  · intro heq
    rw [heq] at hval
    omega

/-- An exchange that makes a writer finds nobody. -/
theorem LockApi.Encodes.acquireWrite {a : RWLock Tid} {t : Tid} (h : A.Encodes 0 a) :
    LockAct.permitted t a .acquireWrite ∧ A.Encodes A.wr (LockAct.apply t a .acquireWrite) ∧
      A.wr ≠ 0 := by
  have hcap := A.cap_le
  have hpos := A.cap_pos
  have hfree := h.writer_none hpos
  have hword := h.of_free hfree
  refine ⟨⟨hfree, Multiset.card_eq_zero.mp hword.symm⟩, rfl, ?_⟩
  intro heq
  rw [heq] at hcap
  exact absurd (Nat.lt_of_lt_of_le hpos hcap) (Nat.lt_irrefl 0)

/-- A decrement takes back a read hold. -/
theorem LockApi.Encodes.releaseRead {word : BitVec 32} {a : RWLock Tid} {t : Tid}
    (h : A.Encodes word a) (hlt : word.toNat < A.cap) (ht : t ∈ a.readers) :
    A.Encodes (word - 1) (LockAct.apply t a .releaseRead) ∧ word - 1 ≠ word := by
  have hfree := h.writer_none hlt
  have hword := h.of_free hfree
  have hpos : 0 < a.readers.card := Multiset.card_pos_iff_exists_mem.mpr ⟨t, ht⟩
  have hval : (word - 1).toNat = word.toNat - 1 := by
    have hle : (1 : BitVec 32) ≤ word := by
      rw [BitVec.le_def, hword]
      exact hpos
    rw [BitVec.toNat_sub_of_le hle]
    rfl
  constructor
  · have hcard : (a.readers.erase t).card = a.readers.card - 1 := by
      rw [Multiset.card_erase_of_mem ht]
      rfl
    rw [hword, ← hcard] at hval
    simpa [LockApi.Encodes, LockAct.apply, hfree] using hval
  · intro heq
    rw [heq] at hval
    omega

/-- Storing 0 takes the writer back, who was alone. -/
theorem LockApi.Encodes.releaseWrite {word : BitVec 32} {a : RWLock Tid} {t : Tid}
    (h : A.Encodes word a) (hexcl : a.Exclusive) (hw : a.writer = some t) :
    A.Encodes 0 (LockAct.apply t a .releaseWrite) ∧ 0 ≠ word := by
  constructor
  · have hnil : a.readers = 0 := hexcl t hw
    simp [LockApi.Encodes, LockAct.apply, hnil]
  · intro heq
    have hcap := A.cap_le
    rw [← h.of_writer hw, ← heq] at hcap
    exact absurd (Nat.lt_of_lt_of_le A.cap_pos hcap) (Nat.lt_irrefl 0)

/-- **The write of an act** happens when the abstract lock permits it, and leaves the word encoding
    the lock after the step. -/
theorem LockApi.Encodes.write {word v : BitVec 32} {a : RWLock Tid} {t : Tid} {x : LockAct}
    {o : Op 32} {b : o.Ans} (h : A.Encodes word a) (hexcl : a.Exclusive)
    (hroom : a.readers.card < A.cap) (hback : x.gives = true → x.permitted t a)
    (hmay : A.mayWrite x o) (heff : Effect word o b v) (hwr : o.writes b = true)
    (hroom' : (x.apply t a).readers.card < A.cap) :
    x.permitted t a ∧ A.Encodes v (x.apply t a) ∧ v ≠ word := by
  have hshows := h.shows hexcl hroom hback
  cases x with
  | acquireRead =>
    obtain ⟨e, he, rfl⟩ := hmay
    obtain ⟨rfl, rfl⟩ := heff.exchanged_inv hwr
    exact h.acquireRead he hroom'
  | acquireWrite =>
    obtain rfl := hmay
    obtain ⟨rfl, rfl⟩ := heff.exchanged_inv hwr
    exact h.acquireWrite
  | releaseRead =>
    obtain rfl := hmay
    have hmem : t ∈ a.readers := hback rfl
    cases heff with
    | fetchSub => exact ⟨hmem, h.releaseRead hshows.2 hmem⟩
  | releaseWrite =>
    obtain rfl := hmay
    have hwriter : a.writer = some t := hback rfl
    cases heff with
    | storeN => exact ⟨hwriter, h.releaseWrite hexcl hwriter⟩

/-- **The one write of a call** is its act: permitted, and encoded by the new word. -/
theorem LockInv.write {m : LockMem Tid} {ph : Tid → Option (Call × Phase)} {t : Tid} {c : Call}
    {o : Op 32} {a : o.Ans} {v : BitVec 32} (h : LockInv A m ph)
    (ht : ph t = some (c, .before)) (hmay : A.mayWrite (A.act c) o) (heff : Effect m.word o a v)
    (hwr : o.writes a = true) (hroom : ((A.act c).apply t m.abs).readers.card < A.cap) :
    (A.act c).permitted t m.abs ∧ A.Encodes v ((A.act c).apply t m.abs) ∧ v ≠ m.word :=
  h.encodes.write h.exclusive h.room (h.gives_permitted ht) hmay heff hwr hroom

/-! ## Every step keeps the invariant -/

theorem LockApi.Share.congr {m m' : LockMem Tid} {u : Tid} {y : Option (Call × Phase)}
    (h : A.Share m u y) (habs : m'.abs.held u = m.abs.held u) (hown : m'.owned u = m.owned u)
    (hwrote : m'.wrote u = m.wrote u) : A.Share m' u y := by
  match y with
  | none => exact (habs.trans h).trans hown.symm
  | some (c, .before) =>
    refine ⟨?_, hwrote.trans h.2⟩
    rw [habs, hown]
    exact h.1
  | some (c, .after) =>
    refine ⟨?_, hwrote.trans h.2⟩
    rw [habs, hown]
    exact h.1

/-- Only thread `t` moved: the other threads' shares are as before. -/
theorem LockInv.share_update {m m' : LockMem Tid} {ph : Tid → Option (Call × Phase)} {t : Tid}
    {y : Option (Call × Phase)} (h : LockInv A m ph) (hself : A.Share m' t y)
    (habs : ∀ u, u ≠ t → m'.abs.held u = m.abs.held u)
    (hown : ∀ u, u ≠ t → m'.owned u = m.owned u)
    (hwrote : ∀ u, u ≠ t → m'.wrote u = m.wrote u) (u : Tid) :
    A.Share m' u (update ph t y u) := by
  by_cases hu : u = t
  · subst hu
    rw [update_self]
    exact hself
  · rw [update_of_ne hu]
    exact (h.share u).congr (habs u hu) (hown u hu) (hwrote u hu)

/-- A call begins with nothing written. -/
theorem LockInv.call {m m' : LockMem Tid} {ph : Tid → Option (Call × Phase)} {t : Tid} {c : Call}
    (h : LockInv A m ph) (ht : ph t = none) (hcall : (A.world Tid).call t c m m') :
    LockInv A m' (update ph t (some (c, .before))) := by
  obtain ⟨hcov, rfl⟩ := hcall
  have hshare := h.share t
  rw [ht] at hshare
  refine ⟨h.encodes, h.exclusive, h.room, h.share_update ⟨?_, update_self ..⟩ (fun _ _ => rfl)
    (fun u hu => update_of_ne hu ..) (fun u hu => update_of_ne hu ..)⟩
  show m.abs.held t = (A.act c).pending (update m.owned t _ t)
  rw [update_self, LockAct.pending_spend hcov]
  exact hshare

/-- A look at the word changes nothing. -/
theorem LockMem.answer_look {m : LockMem Tid} {x : LockAct} {t : Tid} {o : Op 32} {a : o.Ans}
    {v : BitVec 32} (heff : Effect m.word o a v) (ha : o.writes a = false) :
    m.answer x t o a v = m := by
  rw [LockMem.answer, ha, heff.eq_of_not_writes ha]
  rfl

theorem LockMem.answer_write {m : LockMem Tid} {x : LockAct} {t : Tid} {o : Op 32} {a : o.Ans}
    {v : BitVec 32} (ha : o.writes a = true) :
    m.answer x t o a v =
      { m with word := v, abs := x.apply t m.abs, wrote := update m.wrote t (m.wrote t + 1) } := by
  rw [LockMem.answer, ha]
  rfl

@[simp] theorem LockMem.answer_word (m : LockMem Tid) (x : LockAct) (t : Tid) (o : Op 32)
    (a : o.Ans) (v : BitVec 32) : (m.answer x t o a v).word = v := by
  unfold LockMem.answer
  split <;> rfl

/-- A call that keeps its protocol reports no error. -/
theorem LockApi.not_mayReport {x : LockAct} {msg : String} :
    ¬ ((Op.printError msg : Op 32).quiet = true ∨ A.mayWrite x (.printError msg)) := by
  rintro (hquiet | hmay)
  · cases hquiet
  · cases x with
    | acquireRead =>
      obtain ⟨e, -, heq⟩ := hmay
      cases heq
    | acquireWrite => cases hmay
    | releaseRead => cases hmay
    | releaseWrite => cases hmay

/-- A write is by an operation the protocol lets a call write with. -/
theorem LockApi.mayWrite_of_writes {x : LockAct} {o : Op 32} {a : o.Ans}
    (hpre : o.quiet = true ∨ A.mayWrite x o) (ha : o.writes a = true) : A.mayWrite x o := by
  rcases hpre with hq | hmay
  · rw [Op.writes_of_quiet hq] at ha
    cases ha
  · exact hmay

/-- **An operation** keeps the invariant, if it keeps the protocol. -/
theorem LockInv.op {m m' : LockMem Tid} {ph : Tid → Option (Call × Phase)} {t : Tid} {c : Call}
    {l : Phase} {o : Op 32} {a : o.Ans} (h : LockInv A m ph) (ht : ph t = some (c, l))
    (hpre : (A.proto (A.act c)).pre l o) (hexec : (A.world Tid).exec t c o a m m')
    (hroom : m'.abs.readers.card < A.cap) :
    ∃ l', (A.proto (A.act c)).post l o a l' ∧ LockInv A m' (update ph t (some (c, l'))) := by
  obtain ⟨rfl, hpre⟩ := hpre
  obtain ⟨v, heff, rfl⟩ := hexec
  refine ⟨_, ⟨rfl, fun x hx => heff.sees hx ▸ h.shows ht⟩, ?_⟩
  cases ha : o.writes a with
  | false =>
    have hsame : update ph t (some (c, Phase.before)) = ph := by
      rw [← ht, Function.update_eq_self]
    rw [LockMem.answer_look heff ha, if_neg (by decide), hsame]
    exact h
  | true =>
    rw [if_pos rfl]
    rw [LockMem.answer_write ha] at hroom ⊢
    have hmay := LockApi.mayWrite_of_writes hpre ha
    obtain ⟨hperm, henc, -⟩ := h.write ht hmay heff ha hroom
    have hshare := h.share t
    rw [ht] at hshare
    refine ⟨henc, RWLock.exclusive_apply h.exclusive hperm, hroom, h.share_update ⟨?_, ?_⟩
      (fun u hu => RWLock.held_apply_ne hperm hu) (fun _ _ => rfl)
      (fun u hu => update_of_ne hu ..)⟩
    · show ((A.act c).apply t m.abs).held t = (A.act c).gain (m.owned t)
      rw [RWLock.held_apply_self hperm, hshare.1, LockAct.move_pending]
    · show update m.wrote t (m.wrote t + 1) t = 1
      rw [update_self, hshare.2]

/-- A return settles the account of the caller. -/
theorem LockInv.ret {m m' : LockMem Tid} {ph : Tid → Option (Call × Phase)} {t : Tid} {c : Call}
    {l : Phase} {r : Bool} (h : LockInv A m ph) (ht : ph t = some (c, l)) (hend : A.ends c r l)
    (hret : (A.world Tid).ret t c r m m') : LockInv A m' (update ph t none) := by
  have hshare := h.share t
  rw [ht] at hshare
  obtain rfl := hret
  cases l with
  | before =>
    have hr : r = false := by
      cases r with
      | false => rfl
      | true => cases hend.1.mp rfl
    subst hr
    -- a call that ends without a write is an acquisition: nothing was spent on it
    have hacq : (A.act c).pending (m.owned t) = m.owned t := by
      cases hc : A.act c with
      | acquireRead => rfl
      | acquireWrite => rfl
      | releaseRead => cases hend.2 (A.void_release c (Or.inl hc))
      | releaseWrite => cases hend.2 (A.void_release c (Or.inr hc))
    exact ⟨h.encodes, h.exclusive, h.room, h.share_update (hshare.1.trans hacq)
      (fun _ _ => rfl) (fun _ _ => rfl) (fun _ _ => rfl)⟩
  | after =>
    obtain rfl : r = true := hend.1.mpr rfl
    refine ⟨h.encodes, h.exclusive, h.room, h.share_update ?_ (fun _ _ => rfl)
      (fun u hu => update_of_ne hu ..) (fun _ _ => rfl)⟩
    show m.abs.held t = update m.owned t _ t
    rw [update_self]
    exact hshare.1

/-! ## The outline, and the simulation it gives -/

/-- Fewer than `cap` read holds are outstanding. -/
def LockApi.Room (A : LockApi Call) (m : LockMem Tid) : Prop := m.abs.readers.card < A.cap

variable {prog : Call → Prog (atomics 32) Bool}

/-- The proof outline of a conforming lock. -/
def LockApi.outline (hconf : A.Conforms prog) : Outline (A.world Tid) prog A.Room Phase where
  proto c := A.proto (A.act c)
  entry _ := .before
  post c := A.ends c
  inv := LockInv A
  spec := hconf
  call h ht hcall _ := h.call ht hcall
  op h ht hpre hexec hroom := h.op ht hpre hexec hroom
  ret h ht hend hret _ := h.ret ht hend hret
  client _ _ hclient _ := hclient.elim

/-- A lock as it is initialised. -/
theorem LockInv.initial : LockInv A (LockMem.initializer Tid) fun _ => none where
  encodes := rfl
  exclusive := fun _ h => by cases h
  room := A.cap_pos
  share := fun t => RWLock.held_free t

/-- The states of the interleavings in which fewer than `cap` read holds are ever outstanding. -/
def LockApi.Reachable (A : LockApi Call) (prog : Call → Prog (atomics 32) Bool)
    (s : Pool (A.world Tid)) : Prop :=
  Reach prog A.Room (LockMem.initializer Tid) s

/-- The outline covers every reachable state. -/
theorem LockApi.covers (hconf : A.Conforms prog) {s : Pool (A.world Tid)}
    (hs : A.Reachable prog s) : ∃ ph, (LockApi.outline hconf).Covers s ph :=
  Outline.reach hs LockInv.initial

/-- What a step of the pool is for the abstract lock. -/
def LockApi.Simulates (A : LockApi Call) (m : LockMem Tid) (e : Event (atomics 32) Tid Call Bool)
    (m' : LockMem Tid) : Prop :=
  match e with
  | .op t c o a =>
    -- a write is the call's first, changes the word, and is a permitted step of the abstract lock
    if o.writes a then
      (A.act c).permitted t m.abs ∧ m'.abs = (A.act c).apply t m.abs ∧
        m.wrote t = 0 ∧ m'.wrote t = 1 ∧ m'.word ≠ m.word
    else m' = m
  | .ret t c r =>
    -- a call returns `true` after exactly one write, `false` after none
    m.wrote t = (if r then 1 else 0) ∧ (A.void c = true → r = true) ∧
      m'.abs = m.abs ∧ m'.word = m.word
  | .call t _ => m'.wrote t = 0 ∧ m'.abs = m.abs ∧ m'.word = m.word
  | .jump _ | .client _ => m' = m

/-- An operation is an act of the abstract lock, or none. -/
theorem LockInv.simulates_op {m : LockMem Tid} {ph : Tid → Option (Call × Phase)} {t : Tid}
    {c : Call} {o : Op 32} {a : o.Ans} {v : BitVec 32} (h : LockInv A m ph)
    (ht : ph t = some (c, .before)) (hpre : o.quiet = true ∨ A.mayWrite (A.act c) o)
    (heff : Effect m.word o a v) (hroom : A.Room (m.answer (A.act c) t o a v)) :
    A.Simulates m (.op t c o a) (m.answer (A.act c) t o a v) := by
  show if o.writes a = true then _ else _
  cases ha : o.writes a with
  | false =>
    rw [if_neg Bool.false_ne_true]
    exact LockMem.answer_look heff ha
  | true =>
    rw [if_pos rfl]
    rw [LockMem.answer_write ha] at hroom ⊢
    obtain ⟨hperm, -, hne⟩ := h.write ht (LockApi.mayWrite_of_writes hpre ha) heff ha hroom
    have hshare := h.share t
    rw [ht] at hshare
    refine ⟨hperm, rfl, hshare.2, ?_, hne⟩
    show update m.wrote t (m.wrote t + 1) t = 1
    rw [update_self, hshare.2]

/-- A return tells whether the act has taken place. -/
theorem LockInv.simulates_ret {m m' : LockMem Tid} {ph : Tid → Option (Call × Phase)} {t : Tid}
    {c : Call} {l : Phase} {r : Bool} (h : LockInv A m ph) (ht : ph t = some (c, l))
    (hend : A.ends c r l) (hret : (A.world Tid).ret t c r m m') :
    A.Simulates m (.ret t c r) m' := by
  obtain rfl := hret
  have hshare := h.share t
  rw [ht] at hshare
  refine ⟨?_, hend.2, ?_⟩
  · cases l with
    | before =>
      cases r with
      | false => exact hshare.2
      | true => cases hend.1.mp rfl
    | after =>
      rw [hend.1.mpr rfl]
      exact hshare.2
  · cases r <;> exact ⟨rfl, rfl⟩

/-- **Refinement.**  Every step of a conforming lock is one step of the abstract lock, permitted
    there, or leaves the abstract lock and the word alone; and every call answers for what it
    did. -/
theorem LockApi.simulates (hconf : A.Conforms prog) {s s' : Pool (A.world Tid)}
    {e : Event (atomics 32) Tid Call Bool} (hs : A.Reachable prog s)
    (hstep : Pool.Step prog s e s') (hroom : A.Room s'.mem) : A.Simulates s.mem e s'.mem := by
  obtain ⟨ph, hcov⟩ := LockApi.covers hconf hs
  obtain ⟨ph', hphase, -⟩ := Outline.step hcov hstep hroom
  have hinv : LockInv A s.mem ph := hcov.inv
  generalize hm' : s'.mem = m' at hphase hroom
  generalize hm : s.mem = m at hphase hinv
  cases hphase with
  | call ht hcall =>
    obtain ⟨-, rfl⟩ := hcall
    exact ⟨update_self .., rfl, rfl⟩
  | op ht hpre hexec hpost =>
    obtain ⟨rfl, hpre⟩ := hpre
    obtain ⟨v, heff, rfl⟩ := hexec
    exact hinv.simulates_op ht hpre heff hroom
  | jump ht => rfl
  | ret ht hend hret => exact hinv.simulates_ret ht hend hret
  | client ht hclient => exact hclient.elim

/-- **The word encodes the holders exactly**, in every reachable state. -/
theorem LockApi.encodes (hconf : A.Conforms prog) {s : Pool (A.world Tid)}
    (hs : A.Reachable prog s) :
    A.Encodes s.mem.word s.mem.abs ∧ s.mem.abs.Exclusive ∧ s.mem.abs.readers.card < A.cap := by
  obtain ⟨ph, hcov⟩ := LockApi.covers hconf hs
  have hinv : LockInv A s.mem ph := hcov.inv
  exact ⟨hinv.encodes, hinv.exclusive, hinv.room⟩

/-- The holds of thread `t` by its own doings: what the results of its calls told it, and, inside a
    call, whether that call has written the word yet. -/
def LockApi.account (A : LockApi Call) (s : Pool (A.world Tid)) (t : Tid) : Held :=
  match s.thread t with
  | none => s.mem.owned t
  | some (c, _) =>
    if s.mem.wrote t = 0 then (A.act c).pending (s.mem.owned t)
    else (A.act c).gain (s.mem.owned t)

/-- **The abstract lock is what the threads did**: every thread's holds in it are its account. -/
theorem LockApi.held_eq_account (hconf : A.Conforms prog) {s : Pool (A.world Tid)}
    (hs : A.Reachable prog s) (t : Tid) : s.mem.abs.held t = A.account s t := by
  obtain ⟨ph, hcov⟩ := LockApi.covers hconf hs
  have hinv : LockInv A s.mem ph := hcov.inv
  have hshare := hinv.share t
  unfold LockApi.account
  cases ht : s.thread t with
  | none =>
    rw [hcov.idle ht] at hshare
    exact hshare
  | some x =>
    obtain ⟨c, p⟩ := x
    obtain ⟨l, hph, -⟩ := hcov.busy ht
    rw [hph] at hshare
    cases l with
    | before =>
      show _ = if s.mem.wrote t = 0 then _ else _
      rw [if_pos hshare.2]
      exact hshare.1
    | after =>
      show _ = if s.mem.wrote t = 0 then _ else _
      rw [if_neg (by rw [hshare.2]; decide)]
      exact hshare.1

/-! ## Locks without readers -/

/-- No call takes or gives back a read hold. -/
def LockApi.WriteOnly (A : LockApi Call) : Prop :=
  ∀ c, A.act c = .acquireWrite ∨ A.act c = .releaseWrite

/-- Without reading calls there never is a read hold. -/
theorem LockApi.WriteOnly.readers_step (hA : A.WriteOnly) {s s' : Pool (A.world Tid)}
    {e : Event (atomics 32) Tid Call Bool} (hstep : Pool.Step prog s e s')
    (hs : s.mem.abs.readers = 0) : s'.mem.abs.readers = 0 := by
  cases hstep with
  | call ht hcall =>
    obtain ⟨-, rfl⟩ := hcall
    exact hs
  | op ht hexec =>
    obtain ⟨v, heff, rfl⟩ := hexec
    rw [Pool.put_mem, LockMem.answer]
    split
    · exact (RWLock.readers_apply (hA _)).trans hs
    · exact hs
  | jump ht => exact hs
  | @ret t c r m ht hret =>
    obtain rfl := hret
    rw [Pool.put_mem]
    cases r <;> exact hs
  | client ht hclient => exact hclient.elim

omit [DecidableEq Tid] in
/-- With no read hold there is room. -/
theorem LockApi.room_of_readers {m : LockMem Tid} (h : m.abs.readers = 0) : A.Room m := by
  show m.abs.readers.card < A.cap
  rw [h]
  exact A.cap_pos

/-- Without reading calls the bound on read holds restricts nothing. -/
theorem LockApi.WriteOnly.room (hA : A.WriteOnly) {s : Pool (A.world Tid)}
    {tr : List (Trans (A.world Tid))}
    (hrun : Run prog (Pool.start (LockMem.initializer Tid)) tr s) :
    ∀ x ∈ tr, A.Room x.dst.mem := by
  have hnone : ∀ x ∈ tr, x.dst.mem.abs.readers = 0 :=
    Run.keeps_dst (I := fun s : Pool (A.world Tid) => s.mem.abs.readers = 0)
      (fun _ _ _ hs hstep => hA.readers_step hstep hs) hrun rfl
  exact fun x hx => LockApi.room_of_readers (hnone x hx)

/-- Without reading calls every state is within the bound. -/
theorem LockApi.WriteOnly.reachable (hA : A.WriteOnly) {s : Pool (A.world Tid)}
    (hs : Reach prog (fun _ => True) (LockMem.initializer Tid) s) : A.Reachable prog s := by
  obtain ⟨tr, hrun, -⟩ := hs
  exact ⟨tr, hrun, hA.room hrun⟩

end

end WfeMutex
