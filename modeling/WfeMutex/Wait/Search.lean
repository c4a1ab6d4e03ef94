/-
  THE UNTIMED WAITS ARE ONE SEARCH, for every backend.

  What the successive loads of one call observe is a stream of values, finite or not; `serve` hands
  it to a wait, load by load, while everything else a wait does is answered at once.  A wait
  searches the stream: it takes loads up to the first one that satisfies the condition, returns
  right then, a bit wait with exactly that word, and does not return if there is none
  (`Searches`).  All backends do (`untimed_waits_search`), though they put their loads in different
  places of a round and test them with different polarities.

  That a wait finds what is there is total correctness: a loop has fewer loads before it at every
  round.  That it finds nothing else is what `Wait.Discipline` says of its last look.

  The one-shot waits return `true` exactly where one of their loads saw the value, and do so at
  once (`Oneshot`).  Here one walk serves for the result and for what comes after a load of the
  value, namely nothing: `Settles` with no step to spare (`Heeds`).
-/
import WfeMutex.Conc.Settle
import WfeMutex.Wait.Reads
import WfeMutex.Wait.Verdict
import Mathlib.Data.Nat.Find

set_option linter.unusedVariables false

namespace WfeMutex

open Conc

section
variable {w : Nat} {α : Type}

/-! ## Streams -/

/-- Load `n` observes `load n`; where the stream has ended the wait does not go on.  The state is
    the number of loads taken. -/
def serve (load : Nat → Option (BitVec w)) : (o : Op w) → Nat → Option (o.Ans × Nat)
  | .loadN _, n => (load n).map fun v => (v, n + 1)
  | .loadExclusive, n => (load n).map fun v => (v, n + 1)
  | .arm _, n => some ((), n)
  | .wait _, n => some ((), n)
  | .doYield, n => some ((), n)
  | _, _ => none

/-- Load `n` observes `v` and is the first one that satisfies `cond`. -/
structure FirstAt (load : Nat → Option (BitVec w)) (cond : BitVec w → Prop) (n : Nat)
    (v : BitVec w) : Prop where
  observes : load n = some v
  satisfies : cond v
  first : ∀ i, i < n → ∃ u, load i = some u ∧ ¬ cond u

/-- **The search**: the wait returns `r` after `n'` loads exactly if load `n' - 1` is the first one
    that satisfies `cond`, and `r` is its result. -/
def Searches (p : Prog (atomics w) α) (cond : BitVec w → Prop) (result : BitVec w → α) : Prop :=
  ∀ (load : Nat → Option (BitVec w)) (r : α) (n' : Nat),
    Steps (serve load) p 0 (.ret r) n' ↔
      ∃ n v, FirstAt load cond n v ∧ n' = n + 1 ∧ r = result v

variable {load : Nat → Option (BitVec w)} {cond : BitVec w → Prop} {n k : Nat} {v : BitVec w}

/-! ## Finding what is there -/

/-- A load taken on the way to load `n`: it is that load, or it does not satisfy the condition. -/
def OnTheWay (cond : BitVec w → Prop) (n : Nat) (v : BitVec w) (k : Nat) (u : BitVec w) : Prop :=
  k = n ∧ u = v ∧ cond u ∨ k < n ∧ ¬ cond u

/-- Up to the load that is looked for the stream has values, and none before it satisfies the
    condition. -/
theorem FirstAt.onTheWay (h : FirstAt load cond n v) (hk : k ≤ n) :
    ∃ u, load k = some u ∧ OnTheWay cond n v k u := by
  rcases Nat.lt_or_eq_of_le hk with hlt | rfl
  · obtain ⟨u, hu, hcond⟩ := h.first k hlt
    exact ⟨u, hu, Or.inr ⟨hlt, hcond⟩⟩
  · exact ⟨v, h.observes, Or.inl ⟨rfl, rfl, h.satisfies⟩⟩

/-- What satisfies the condition is what was looked for. -/
theorem OnTheWay.found {u : BitVec w} (h : OnTheWay cond n v k u) (hu : cond u) :
    k = n ∧ u = v := by
  rcases h with ⟨hk, huv, _⟩ | ⟨_, hnot⟩
  · exact ⟨hk, huv⟩
  · exact absurd hu hnot

/-- What does not satisfy the condition comes before it. -/
theorem OnTheWay.passed {u : BitVec w} (h : OnTheWay cond n v k u) (hu : ¬ cond u) : k < n := by
  rcases h with ⟨_, _, hcond⟩ | ⟨hlt, _⟩
  · exact absurd hcond hu
  · exact hlt

/-- An operation of a wait that is no load. -/
theorem ends_idle {o : Op w} {a : o.Ans} {Q : o.Ans → Nat → Prop}
    (hanswer : serve load o k = some (a, k)) (h : Q a k) : Ends (serve load) (act o) k Q :=
  Ends.perform hanswer h

/-- A plain load takes the next value of the stream. -/
theorem serve_loadN {u : BitVec w} (h : load k = some u) (mo : MemOrder) :
    serve load (.loadN mo) k = some (u, k + 1) := by
  show (load k).map _ = _
  rw [h]
  rfl

/-- So does the load that arms. -/
theorem serve_loadExclusive {u : BitVec w} (h : load k = some u) :
    serve load .loadExclusive k = some (u, k + 1) := by
  show (load k).map _ = _
  rw [h]
  rfl

/-- A load on the way to what is looked for. -/
theorem ends_load (h : FirstAt load cond n v) (hk : k ≤ n) (mo : MemOrder) :
    Ends (serve load) (atomicLoadN mo) k fun u k' => k' = k + 1 ∧ OnTheWay cond n v k u := by
  obtain ⟨u, hu, hway⟩ := h.onTheWay hk
  exact Ends.perform (serve_loadN hu mo) ⟨rfl, hway⟩

theorem ends_yieldFive : Ends (serve load) (yieldFive w) k fun _ k' => k' = k := by
  have hyield : Ends (serve load) (doYield (w := w)) k fun _ k' => k' = k := ends_idle rfl rfl
  unfold yieldFive
  iterate 4
    refine Ends.seq hyield ?_
    rintro _ _ rfl
  exact hyield

/-! ### The spin loop -/

/-- The value wait of the spin loop finds the load. -/
theorem ends_spinloopWaitForValue {value : BitVec w} (h : FirstAt load (· = value) n v)
    (lowPower : Bool) :
    Ends (serve load) (spinloopWaitForValue w value lowPower) 0 fun _ n' => n' = n + 1 := by
  unfold spinloopWaitForValue
  split
  all_goals
    refine Ends.iter (I := fun _ k => k ≤ n) (N := fun _ k => n - k) ?_ (Nat.zero_le n)
    intro _ k hk
    refine Ends.seq (ends_load h hk _) ?_
    rintro u _ ⟨rfl, hway⟩
    split
  · rename_i hne
    have hlt : k < n := hway.passed (by simpa using hne)
    refine Ends.seq ends_yieldFive ?_
    rintro _ _ rfl
    exact Ends.pure ⟨hlt, by omega⟩
  · rename_i heq
    obtain ⟨rfl, -⟩ := hway.found (by simpa using heq)
    exact Ends.pure rfl
  · rename_i hne
    have hlt : k < n := hway.passed (by simpa using hne)
    exact Ends.pure ⟨hlt, by omega⟩
  · rename_i heq
    obtain ⟨rfl, -⟩ := hway.found (by simpa using heq)
    exact Ends.pure rfl

/-- So does its bit wait, and returns that word. -/
theorem ends_spinloopWaitForBit {clear : Nat} {bit : BitVec 8}
    (h : FirstAt load (fun r => bitAt r bit ≠ clear) n v) (lowPower : Bool) :
    Ends (serve load) (spinloopWaitForBit w clear bit lowPower) 0
      fun r n' => n' = n + 1 ∧ r = v := by
  unfold spinloopWaitForBit
  split
  · refine Ends.seq (ends_load h (Nat.zero_le n) _) ?_
    rintro u _ ⟨rfl, hway⟩
    -- the value in hand is the load before
    refine Ends.iter
      (I := fun r k => ∃ j, k = j + 1 ∧ OnTheWay (fun r => bitAt r bit ≠ clear) n v j r)
      (N := fun _ k => n + 1 - k) ?_ ⟨0, rfl, hway⟩
    rintro r _ ⟨j, rfl, hway⟩
    split
    · rename_i hclear
      have hlt : j < n := hway.passed (by simpa using hclear)
      refine Ends.seq ends_yieldFive ?_
      rintro _ _ rfl
      refine Ends.seq (ends_load h hlt _) ?_
      rintro u _ ⟨rfl, hway⟩
      exact Ends.pure ⟨⟨j + 1, rfl, hway⟩, by omega⟩
    · rename_i hset
      obtain ⟨rfl, rfl⟩ := hway.found (by simpa using hset)
      exact Ends.pure ⟨rfl, rfl⟩
  · refine Ends.iter (I := fun _ k => k ≤ n) (N := fun _ k => n - k) ?_ (Nat.zero_le n)
    intro _ k hk
    refine Ends.seq (ends_load h hk _) ?_
    rintro u _ ⟨rfl, hway⟩
    split
    · rename_i hclear
      have hlt : k < n := hway.passed (by simpa using hclear)
      exact Ends.pure ⟨hlt, by omega⟩
    · rename_i hset
      obtain ⟨rfl, rfl⟩ := hway.found (by simpa using hset)
      exact Ends.pure ⟨rfl, rfl⟩

/-! ### The outline of a monitor wait -/

/-- An arming step that takes one load, on whatever way. -/
def ArmsAndServes (armAndLoad : Prog (atomics w) (BitVec w)) : Prop :=
  ∀ (load : Nat → Option (BitVec w)) (cond : BitVec w → Prop) (n : Nat) (v : BitVec w) (k : Nat),
    FirstAt load cond n v → k ≤ n →
      Ends (serve load) armAndLoad k fun u k' => k' = k + 1 ∧ OnTheWay cond n v k u

/-- Both ways of arming take one load. -/
theorem armsAndServes_loadExclusive : ArmsAndServes (loadExclusive (w := w)) := by
  intro load cond n v k h hk
  obtain ⟨u, hu, hway⟩ := h.onTheWay hk
  exact Ends.perform (serve_loadExclusive hu) ⟨rfl, hway⟩

theorem armsAndServes_armThenLoad (insn : ArmInsn) : ArmsAndServes (armThenLoad w insn) := by
  intro load cond n v k h hk
  have harm : Ends (serve load) (armWith insn) k fun _ k' => k' = k := ends_idle rfl rfl
  refine Ends.seq harm ?_
  rintro _ _ rfl
  exact ends_load h hk _

/-- Both tests of the outline say whether the condition holds, with opposite polarities. -/
theorem ends_monitorWait {armAndLoad : Prog (atomics w) (BitVec w)}
    (harm : ArmsAndServes armAndLoad) (insn : WaitInsn) {arrived again : BitVec w → Bool}
    (harrived : ∀ r, arrived r = true ↔ cond r) (hagain : ∀ r, again r = true ↔ ¬ cond r)
    (h : FirstAt load cond n v) :
    Ends (serve load) (monitorWait w armAndLoad insn arrived again) 0
      fun r n' => n' = n + 1 ∧ r = v := by
  unfold monitorWait
  refine Ends.seq (ends_load h (Nat.zero_le n) _) ?_
  rintro u _ ⟨rfl, hway⟩
  split
  · rename_i hu
    obtain ⟨rfl, rfl⟩ := hway.found ((harrived u).mp hu)
    exact Ends.pure ⟨rfl, rfl⟩
  rename_i hu
  have hlt : 0 < n := hway.passed fun hcond => hu ((harrived u).mpr hcond)
  refine Ends.iter (I := fun _ k => k ≤ n) (N := fun _ k => n - k) ?_ hlt
  intro _ k hk
  refine Ends.seq (harm load cond n v k h hk) ?_
  rintro u _ ⟨rfl, hway⟩
  split
  · rename_i hu
    obtain ⟨rfl, rfl⟩ := hway.found ((harrived u).mp hu)
    exact Ends.pure ⟨rfl, rfl⟩
  rename_i hu
  have hlt : k < n := hway.passed fun hcond => hu ((harrived u).mpr hcond)
  have hwait : Ends (serve load) (waitIn insn) (k + 1) fun _ k' => k' = k + 1 := ends_idle rfl rfl
  refine Ends.seq hwait ?_
  rintro _ _ rfl
  refine Ends.seq (ends_load h hlt _) ?_
  rintro u _ ⟨rfl, hway⟩
  split
  · rename_i hu
    have hlt' : k + 1 < n := hway.passed ((hagain u).mp hu)
    exact Ends.pure ⟨hlt', by omega⟩
  · rename_i hu
    have hcond : cond u := by
      by_contra hnot
      exact hu ((hagain u).mpr hnot)
    obtain ⟨hk', rfl⟩ := hway.found hcond
    exact Ends.pure ⟨by omega, rfl⟩

/-! ## Finding nothing else -/

/-- A value the stream comes to. -/
def Served (load : Nat → Option (BitVec w)) (u : BitVec w) : Prop :=
  ∃ k, load k = some u ∧ ∀ i, i < k → ∃ x, load i = some x

/-- Where the stream comes to a value that satisfies the condition, one of them is the first. -/
theorem Served.first {u : BitVec w} (h : Served load u) (hu : cond u) :
    ∃ n v, FirstAt load cond n v := by
  classical
  obtain ⟨k, hk, hbefore⟩ := h
  have hex : ∃ n, ∃ v, load n = some v ∧ cond v := ⟨k, u, hk, hu⟩
  obtain ⟨v, hv, hcond⟩ := Nat.find_spec hex
  refine ⟨Nat.find hex, v, hv, hcond, ?_⟩
  intro i hi
  obtain ⟨x, hx⟩ := hbefore i (Nat.lt_of_lt_of_le hi (Nat.find_le ⟨u, hk, hu⟩))
  exact ⟨x, hx, fun hcond => Nat.find_min hex hi ⟨x, hx, hcond⟩⟩

/-- What holds of a reader of the served values holds where the wait returns. -/
theorem reads_served_sound {p : Prog (atomics w) α} {Q : α → Prop} {r : α} {n' : Nat}
    (h : Spec (reads (Served load)) p () fun r _ => Q r)
    (hsteps : Steps (serve load) p 0 (.ret r) n') : Q r := by
  have hmachine : Spec (machine (serve load) fun _ (o : Op w) => o.quiet = true) p 0
      fun r _ => Q r := by
    refine (Spec.embed (R := fun _ k => ∀ i, i < k → ∃ x, load i = some x) ?_ ?_ h ?_).mono ?_
    · intro _ k o _ hquiet
      exact hquiet
    · intro _ k o a k' hbefore _ hanswer
      have hload : ∀ {u : BitVec w}, (load k).map (fun v => (v, k + 1)) = some (u, k') →
          Served load u ∧ ∀ i, i < k' → ∃ x, load i = some x := by
        intro u hu
        obtain ⟨x, hx, hpair⟩ := Option.map_eq_some_iff.mp hu
        cases hpair
        refine ⟨⟨k, hx, hbefore⟩, ?_⟩
        intro i hi
        rcases Nat.lt_succ_iff_lt_or_eq.mp hi with hlt | rfl
        · exact hbefore i hlt
        · exact ⟨_, hx⟩
      cases o with
      | loadN mo =>
        obtain ⟨hserved, hbefore'⟩ := hload hanswer
        exact ⟨(), (fun x hx => Option.some.inj hx ▸ hserved), hbefore'⟩
      | loadExclusive =>
        obtain ⟨hserved, hbefore'⟩ := hload hanswer
        exact ⟨(), (fun x hx => Option.some.inj hx ▸ hserved), hbefore'⟩
      | arm i =>
        cases hanswer
        exact ⟨(), (fun x hx => by cases hx), hbefore⟩
      | wait i =>
        cases hanswer
        exact ⟨(), (fun x hx => by cases hx), hbefore⟩
      | doYield =>
        cases hanswer
        exact ⟨(), (fun x hx => by cases hx), hbefore⟩
      | _ => cases hanswer
    · intro i hi
      omega
    · rintro r _ ⟨_, _, hQ⟩
      exact hQ
  exact (hmachine.steps hsteps).out

/-- **A search**: total correctness where there is something to find, and a last look that has
    found it. -/
theorem searches_of {p : Prog (atomics w) α} {result : BitVec w → α}
    (hends : ∀ load n v, FirstAt load cond n v →
      Ends (serve load) p 0 fun r n' => n' = n + 1 ∧ r = result v)
    (hreads : ∀ V, Spec (reads V) p () fun _ _ => ∃ u, V u ∧ cond u) :
    Searches p cond result := by
  intro load r n'
  constructor
  · intro hsteps
    obtain ⟨u, hserved, hu⟩ := reads_served_sound (hreads _) hsteps
    obtain ⟨n, v, hfirst⟩ := hserved.first hu
    obtain ⟨r', m, hsteps', rfl, rfl⟩ := hends load n v hfirst
    obtain ⟨rfl, rfl⟩ := hsteps.ret_unique hsteps'
    exact ⟨n, v, hfirst, rfl, rfl⟩
  · rintro ⟨n, v, hfirst, rfl, rfl⟩
    obtain ⟨r', m, hsteps, rfl, rfl⟩ := hends load n v hfirst
    exact hsteps

/-- A value wait has seen its value. -/
theorem reads_value {value : BitVec w} {p : Prog (atomics w) Unit}
    (h : Spec (conduct (· = value) none).proto p .start fun _ l => l.seen = some value)
    (V : BitVec w → Prop) : Spec (reads V) p () fun _ _ => ∃ u, V u ∧ u = value := by
  refine (reads_of_conduct h).mono ?_
  rintro _ _ ⟨l, hV, hseen⟩
  exact ⟨value, hV value hseen, rfl⟩

/-- A bit wait has seen the word it returns. -/
theorem reads_word {cond' : BitVec w → Prop} {p : Prog (atomics w) (BitVec w)}
    (h : Spec (conduct cond none).proto p .start fun r l => l.seen = some r ∧ cond' r)
    (V : BitVec w → Prop) : Spec (reads V) p () fun _ _ => ∃ u, V u ∧ cond' u := by
  refine (reads_of_conduct h).mono ?_
  rintro r _ ⟨l, hV, hseen, hr⟩
  exact ⟨r, hV r hseen, hr⟩

/-! ## The one-shot waits -/

/-- The last value that was loaded. -/
def looked : Watch (atomics w) (Option (BitVec w)) where
  allows _ _ := True
  next l o a := (o.sees a).or l

/-- A party that has seen the value is to have nothing left to do. -/
def heeding (value : BitVec w) : Setting (atomics w) (Option (BitVec w)) Unit where
  proto := looked.proto
  alone _ _ _ _ := False
  good l _ := l = some value
  covers _ _ h := h.elim

/-- The program does nothing after a load that sees the value, and it returns only with `R`. -/
abbrev Heeds (value : BitVec w) (p : Prog (atomics w) α) (l : Option (BitVec w))
    (R : α → Option (BitVec w) → Prop) : Prop :=
  Settles (heeding value) 0 p l R

/-- **A one-shot wait** loads the word, and returns `true` exactly where one of the loads it
    performed saw the value.  It is over at once with such a load; and it does return where one is
    to come, whatever the counter shows. -/
structure Oneshot (p : Prog (atomics w) Bool) (value : BitVec w) : Prop where
  verdict : ∀ acts r, Prog.Trace p acts (.ret r) →
    (r = true ↔ ∃ x ∈ acts, x.1.sees x.2 = some value)
  looks : ∀ acts r, Prog.Trace p acts (.ret r) → ∃ x ∈ acts, ∃ v, x.1.sees x.2 = some v
  atOnce : ∀ acts q, Prog.Trace p acts q → (∃ x ∈ acts, x.1.sees x.2 = some value) → q = .ret true
  returns : ∀ S : Streams w, (∃ k, S.load k = value) → Returns S.answer p {}

/-- What was loaded last was loaded. -/
theorem looked_run {l : Option (BitVec w)} {acts : List (Act (atomics w))} {v : BitVec w}
    (h : looked.run l acts = some v) : l = some v ∨ ∃ x ∈ acts, x.1.sees x.2 = some v := by
  induction acts generalizing l with
  | nil => exact Or.inl h
  | cons x acts ih =>
    rcases ih h with hnext | ⟨y, hy, hsees⟩
    · rcases Option.or_eq_some_iff.mp hnext with hsees | ⟨-, hl⟩
      · exact Or.inr ⟨x, List.mem_cons_self, hsees⟩
      · exact Or.inl hl
    · exact Or.inr ⟨y, List.mem_cons_of_mem _ hy, hsees⟩

variable {value : BitVec w} {l : Option (BitVec w)}

/-- Once a load has seen the value, what is left is the return. -/
theorem Heeds.over {p q : Prog (atomics w) α} {R : α → Option (BitVec w) → Prop}
    {acts : List (Act (atomics w))} (h : Heeds value p l R) (htr : Prog.Trace p acts q)
    (hsees : ∃ x ∈ acts, x.1.sees x.2 = some value) : ∃ r, q = .ret r ∧ R r (some value) := by
  induction htr generalizing l with
  | nil =>
    obtain ⟨x, hx, -⟩ := hsees
    cases hx
  | @op o k a acts q htr ih =>
    have hnext := h.out.2.2 a _ rfl
    by_cases ha : o.sees a = some value
    · have hl : looked.next l o a = some value := by
        show (o.sees a).or l = some value
        rw [ha]
        rfl
      rw [hl] at hnext
      have hover := hnext.frees () rfl
      generalize k a = q' at htr hnext hover
      cases q' with
      | ret r =>
        cases htr
        exact ⟨r, rfl, hnext.out.2⟩
      | op o' k' => exact hover.elim
      | loop body s k' => exact hover.elim
    · obtain ⟨x, hx, hv⟩ := hsees
      rcases List.mem_cons.mp hx with rfl | hx
      · exact absurd hv ha
      · exact ih hnext ⟨x, hx, hv⟩
  | jump _ ih => exact ih h.out.2 hsees

/-- A one-shot wait, by the last value it loads. -/
theorem oneshot_of_heeds {p : Prog (atomics w) Bool}
    (h : Heeds value p none fun r l => (r = true ↔ l = some value) ∧ l ≠ none)
    (hreturns : ∀ S : Streams w, (∃ k, S.load k = value) → Returns S.answer p {}) :
    Oneshot p value where
  verdict acts r htr := by
    obtain ⟨hr, -⟩ := Watch.run_of_spec h.spec htr
    constructor
    · intro htrue
      rcases looked_run (hr.mp htrue) with hnone | hsees
      · cases hnone
      · exact hsees
    · intro hsees
      obtain ⟨r', hret, hr', -⟩ := h.over htr hsees
      cases hret
      exact hr'.mpr rfl
  looks acts r htr := by
    obtain ⟨-, hlooked⟩ := Watch.run_of_spec h.spec htr
    obtain ⟨v, hv⟩ := Option.ne_none_iff_exists'.mp hlooked
    rcases looked_run hv with hnone | ⟨x, hx, hsees⟩
    · cases hnone
    · exact ⟨x, hx, v, hsees⟩
  atOnce acts q htr hsees := by
    obtain ⟨r, rfl, hr, -⟩ := h.over htr hsees
    rw [hr.mpr rfl]
  returns := hreturns

/-- An operation of a party that has not seen the value. -/
theorem heeds_act {o : Op w} {R : o.Ans → Option (BitVec w) → Prop} (hl : l ≠ some value)
    (h : ∀ a, R a ((o.sees a).or l)) : Heeds value (act o) l R := by
  refine Settles.perform_of_bad trivial (fun _ hgood => hl hgood) ?_
  rintro a _ rfl
  exact h a

theorem heeds_seq {β : Type} {p : Prog (atomics w) α} {f : α → Prog (atomics w) β}
    {R : α → Option (BitVec w) → Prop} {Q : β → Option (BitVec w) → Prop} (h : Heeds value p l R)
    (hf : ∀ a l, R a l → Heeds value (f a) l Q) : Heeds value (p >>= f) l Q :=
  Settles.seq (n := 0) (k := 0) h hf

/-- A load is what was loaded last. -/
theorem heeds_load (mo : MemOrder) (hl : l ≠ some value) :
    Heeds value (atomicLoadN mo) l fun r l' => l' = some r :=
  heeds_act (o := .loadN mo) hl fun _ => rfl

theorem heeds_loadExclusive (hl : l ≠ some value) :
    Heeds value (loadExclusive (w := w)) l fun r l' => l' = some r :=
  heeds_act (o := .loadExclusive) hl fun _ => rfl

/-- So is the load behind an arming instruction. -/
theorem heeds_armThenLoad (insn : ArmInsn) (hl : l ≠ some value) :
    Heeds value (armThenLoad w insn) l fun r l' => l' = some r := by
  have harm : Heeds value (armWith insn) l fun _ l' => l' = l :=
    heeds_act (o := .arm insn) hl fun _ => rfl
  refine heeds_seq harm ?_
  rintro _ _ rfl
  exact heeds_load _ hl

theorem heeds_yieldFive (hl : l ≠ some value) :
    Heeds value (yieldFive w) l fun _ l' => l' = l := by
  have hyield : Heeds value (doYield (w := w)) l fun _ l' => l' = l :=
    heeds_act (o := .doYield) hl fun _ => rfl
  unfold yieldFive
  iterate 4
    refine heeds_seq hyield ?_
    rintro _ _ rfl
  exact hyield

/-- The test at the end of a round that has loaded `v`. -/
theorem heeds_spinTest {v : BitVec w} (hv : v ≠ value) (cyclesEnd : BitVec 64) :
    Heeds value
      (do
        if (← readCycleCounterAgainst cyclesEnd) ≥ cyclesEnd then return .leave false
        return .again ()) (some v)
      (Spec.round (fun (_ : Unit) l => l ≠ some value)
        fun r l => (r = true ↔ l = some value) ∧ l ≠ none) := by
  have hunseen : some v ≠ some value := fun h => hv (Option.some.inj h)
  have hread : Heeds value (readCycleCounterAgainst (w := w) cyclesEnd) (some v)
      fun _ l' => l' = some v := heeds_act (o := .readCycleCounter (some cyclesEnd)) hunseen
    fun _ => rfl
  refine heeds_seq hread ?_
  rintro c _ rfl
  split
  · exact Settles.pure ⟨iff_of_false Bool.false_ne_true hunseen, Option.some_ne_none v⟩
  · exact Settles.pure hunseen

/-- The spin loop leaves with the load that sees the value, before it reads the counter. -/
theorem heeds_spinloopUntil (cyclesEnd : BitVec 64) (lowPower : Bool) (hl : l ≠ some value) :
    Heeds value (spinloopUntil w value cyclesEnd lowPower) l
      fun r l => (r = true ↔ l = some value) ∧ l ≠ none := by
  unfold spinloopUntil
  split
  all_goals
    refine Settles.iter (n := 0) (k := 0) (I := fun _ l => l ≠ some value) ?_
      (fun _ _ hunseen _ hgood => absurd hgood hunseen) hl
    intro _ l hunseen
    refine heeds_seq (heeds_load _ hunseen) ?_
    rintro v _ rfl
    split
  · rename_i hne
    have hv : v ≠ value := by simpa using hne
    refine heeds_seq (heeds_yieldFive fun h => hv (Option.some.inj h)) ?_
    rintro _ _ rfl
    exact heeds_spinTest hv cyclesEnd
  · rename_i heq
    obtain rfl : v = value := by simpa using heq
    exact Settles.pure ⟨iff_of_true rfl rfl, Option.some_ne_none v⟩
  · rename_i hne
    exact heeds_spinTest (by simpa using hne) cyclesEnd
  · rename_i heq
    obtain rfl : v = value := by simpa using heq
    exact Settles.pure ⟨iff_of_true rfl rfl, Option.some_ne_none v⟩

/-- The one-shot wait of the spin loop. -/
theorem oneshot_spinloop (lowPower : Bool) :
    Oneshot (spinloopWaitForValueSpuriousOneshot w value lowPower) value := by
  refine oneshot_of_heeds ?_ ?_
  · have hbegin : Heeds value (readCycleCounter (w := w)) none fun _ l' => l' = none :=
      heeds_act (o := .readCycleCounter none) nofun fun _ => rfl
    refine heeds_seq hbegin ?_
    rintro beginCycles _ rfl
    exact heeds_spinloopUntil _ lowPower nofun
  · rintro S ⟨k, hk⟩
    have hdecides : Decides S value (S.beginCycles + 10000) False
        (spinloopWaitForValueSpuriousOneshot w value lowPower) {} := by
      refine Concludes.seq hear_begin ?_
      rintro _ _ ⟨rfl, rfl⟩
      exact decides_spinloopUntil lowPower Undecided.start
    exact hdecides.returns ⟨k, Or.inl hk⟩

/-- The one-shot wait of a backend with a monitor takes three loads at most. -/
theorem oneshot_monitor {armAndLoad : Prog (atomics w) (BitVec w)}
    (harm : ∀ {l}, l ≠ some value → Heeds value armAndLoad l fun r l' => l' = some r)
    (hserves : ∀ (S : Streams w) m, Ends S.answer armAndLoad m fun _ _ => True)
    (insn : WaitInsn) : Oneshot (monitorOneshot w armAndLoad insn value) value := by
  refine oneshot_of_heeds ?_ fun S _ => ?_
  · unfold monitorOneshot
    refine heeds_seq (heeds_load _ nofun) ?_
    rintro v _ rfl
    split
    · rename_i heq
      obtain rfl : v = value := by simpa using heq
      exact Settles.pure ⟨iff_of_true rfl rfl, Option.some_ne_none v⟩
    rename_i hne
    have hv : v ≠ value := by simpa using hne
    refine heeds_seq (harm fun h => hv (Option.some.inj h)) ?_
    rintro v _ rfl
    split
    · rename_i heq
      obtain rfl : v = value := by simpa using heq
      exact Settles.pure ⟨iff_of_true rfl rfl, Option.some_ne_none v⟩
    rename_i hne
    have hv : v ≠ value := by simpa using hne
    have hunseen : some v ≠ some value := fun h => hv (Option.some.inj h)
    have hwait : Heeds value (waitIn insn) (some v) fun _ l' => l' = some v :=
      heeds_act (o := .wait insn) hunseen fun _ => rfl
    refine heeds_seq hwait ?_
    rintro _ _ rfl
    refine heeds_seq (heeds_load _ hunseen) ?_
    rintro v _ rfl
    exact Settles.pure ⟨by simp, Option.some_ne_none v⟩
  · have hends : Ends S.answer (monitorOneshot w armAndLoad insn value) {} fun _ _ => True := by
      unfold monitorOneshot
      refine Ends.seq (hear_load _) fun v m _ => ?_
      split
      · exact Ends.pure trivial
      refine Ends.seq (hserves S m) fun v m _ => ?_
      split
      · exact Ends.pure trivial
      refine Ends.seq (hear_waitIn insn) fun _ m _ => ?_
      refine Ends.seq (hear_load _) fun v m _ => ?_
      exact Ends.pure trivial
    obtain ⟨r, m, hsteps, -⟩ := hends
    exact ⟨r, m, hsteps⟩

/-! ## The waits of a backend -/

/-- The value wait of the spin loop is a search. -/
theorem searches_spinloopWaitForValue (value : BitVec w) (lowPower : Bool) :
    Searches (spinloopWaitForValue w value lowPower) (· = value) fun _ => () := by
  refine searches_of ?_ (reads_value (conduct_spinloopWaitForValue value lowPower))
  intro load n v h
  exact (ends_spinloopWaitForValue h lowPower).mono fun _ _ hn => ⟨hn, rfl⟩

/-- A bit that is not `clear` is `set`. -/
theorem searches_spinloopWaitForBit {clear set : Nat}
    (hset : set = 1 ∧ clear = 0 ∨ set = 0 ∧ clear = 1) (bit : BitVec 8) (lowPower : Bool) :
    Searches (spinloopWaitForBit w clear bit lowPower) (fun r => bitAt r bit = set) id := by
  have hcond : (fun r : BitVec w => bitAt r bit = set) = fun r => bitAt r bit ≠ clear := by
    funext r
    have hbit := bitAt_eq_zero_or_one r bit
    refine propext ⟨fun h => ?_, fun h => ?_⟩
    all_goals omega
  rw [hcond]
  have hconduct : Spec (conduct (fun _ : BitVec w => True) none).proto
      (spinloopWaitForBit w clear bit lowPower) .start fun r l => l.seen = some r ∧
        bitAt r bit ≠ clear := conduct_spinloopWaitForBit clear bit lowPower
  refine searches_of ?_ (reads_word hconduct)
  intro load n v h
  exact ends_spinloopWaitForBit h lowPower

section
variable {armAndLoad : Prog (atomics w) (BitVec w)} (hserves : ArmsAndServes armAndLoad)
  (hloads : ArmsAndLoads armAndLoad) (insn : WaitInsn)
include hserves hloads

/-- A value wait of a backend with a monitor is a search. -/
theorem searches_monitorWaitForValue (value : BitVec w) :
    Searches (do let _ ← monitorWait w armAndLoad insn (· == value) (· != value); return ())
      (· = value) fun _ => () := by
  refine searches_of ?_ (reads_value (conduct_monitorWaitForValue hloads insn value))
  intro load n v h
  have harrived : ∀ r : BitVec w, (r == value) = true ↔ r = value := fun r => by simp
  have hagain : ∀ r : BitVec w, (r != value) = true ↔ ¬ r = value := fun r => by simp
  refine Ends.seq (ends_monitorWait hserves insn harrived hagain h) ?_
  rintro r n' ⟨hn, -⟩
  exact Ends.pure ⟨hn, rfl⟩

/-- So is a bit wait. -/
theorem searches_monitorWaitForBit {x y : Nat} (hxy : x = 1 ∧ y = 0 ∨ x = 0 ∧ y = 1)
    (bit : BitVec 8) :
    Searches (monitorWait w armAndLoad insn (bitAt · bit == x) (bitAt · bit == y))
      (fun r => bitAt r bit = x) id := by
  refine searches_of ?_ (reads_word (conduct_monitorWaitForBit hloads insn hxy bit))
  intro load n v h
  have harrived : ∀ r : BitVec w, (bitAt r bit == x) = true ↔ bitAt r bit = x := fun r => by simp
  have hagain : ∀ r : BitVec w, (bitAt r bit == y) = true ↔ ¬ bitAt r bit = x := by
    intro r
    have hbit := bitAt_eq_zero_or_one r bit
    rw [beq_iff_eq]
    omega
  exact ends_monitorWait hserves insn harrived hagain h

end

end

/-- The untimed waits of one backend at one width. -/
structure UntimedWaits (w : Nat) where
  waitForValue : BitVec w → Bool → Prog (atomics w) Unit
  waitForBitSet : BitVec 8 → Bool → Prog (atomics w) (BitVec w)
  waitForBitNotSet : BitVec 8 → Bool → Prog (atomics w) (BitVec w)
  waitForValueSpuriousOneshot : BitVec w → Bool → Prog (atomics w) Bool

/-- Those of the spin loop. -/
def spinloopWaits (w : Nat) : UntimedWaits w where
  waitForValue := spinloopWaitForValue w
  waitForBitSet := spinloopWaitForBitSet w
  waitForBitNotSet := spinloopWaitForBitNotSet w
  waitForValueSpuriousOneshot := spinloopWaitForValueSpuriousOneshot w

/-- Those of a backend with a monitor. -/
def Backend.untimedWaits (b : Backend) (w : Nat) : UntimedWaits w where
  waitForValue := b.waitForValue w
  waitForBitSet := b.waitForBitSet w
  waitForBitNotSet := b.waitForBitNotSet w
  waitForValueSpuriousOneshot := b.waitForValueSpuriousOneshot w

/-- They search, and the one-shot wait tells what it saw. -/
structure UntimedWaits.Search {w : Nat} (W : UntimedWaits w) : Prop where
  value : ∀ value lowPower, Searches (W.waitForValue value lowPower) (· = value) fun _ => ()
  bitSet : ∀ bit lowPower,
    Searches (W.waitForBitSet bit lowPower) (fun r => bitAt r bit = 1) id
  bitNotSet : ∀ bit lowPower,
    Searches (W.waitForBitNotSet bit lowPower) (fun r => bitAt r bit = 0) id
  oneshot : ∀ value lowPower, Oneshot (W.waitForValueSpuriousOneshot value lowPower) value

/-- The untimed waits of the spin loop. -/
theorem spinloopWaits_search (w : Nat) : (spinloopWaits w).Search where
  value := searches_spinloopWaitForValue
  bitSet := searches_spinloopWaitForBit (Or.inl ⟨rfl, rfl⟩)
  bitNotSet := searches_spinloopWaitForBit (Or.inr ⟨rfl, rfl⟩)
  oneshot _ lowPower := oneshot_spinloop lowPower

/-- Those of a backend with a monitor. -/
theorem Backend.untimedWaits_search (b : Backend) (w : Nat) : (b.untimedWaits w).Search := by
  have hset : (1 = 1 ∧ 0 = 0) ∨ (1 = 0 ∧ 0 = 1) := Or.inl ⟨rfl, rfl⟩
  have hnotSet : (0 = 1 ∧ 1 = 0) ∨ (0 = 0 ∧ 1 = 1) := Or.inr ⟨rfl, rfl⟩
  cases b with
  | wfe =>
    have hserves := armsAndServes_loadExclusive (w := w)
    have hloads := armsAndLoads_loadExclusive (w := w)
    exact ⟨fun value _ => searches_monitorWaitForValue hserves hloads _ value,
      fun bit _ => searches_monitorWaitForBit hserves hloads _ hset bit,
      fun bit _ => searches_monitorWaitForBit hserves hloads _ hnotSet bit,
      fun _ _ => oneshot_monitor heeds_loadExclusive
        (fun _ _ => hear_loadExclusive.mono fun _ _ _ => trivial) _⟩
  | mwaitx =>
    have hserves := armsAndServes_armThenLoad (w := w) monitorx
    have hloads := armsAndLoads_armThenLoad (w := w) monitorx
    exact ⟨fun value _ => searches_monitorWaitForValue hserves hloads _ value,
      fun bit _ => searches_monitorWaitForBit hserves hloads _ hset bit,
      fun bit _ => searches_monitorWaitForBit hserves hloads _ hnotSet bit,
      fun _ _ => oneshot_monitor (heeds_armThenLoad _)
        (fun _ _ => (hear_armThenLoad _).mono fun _ _ _ => trivial) _⟩
  | waitpkg =>
    have hserves := armsAndServes_armThenLoad (w := w) .umonitor
    have hloads := armsAndLoads_armThenLoad (w := w) .umonitor
    exact ⟨fun value _ => searches_monitorWaitForValue hserves hloads _ value,
      fun bit _ => searches_monitorWaitForBit hserves hloads _ hset bit,
      fun bit _ => searches_monitorWaitForBit hserves hloads _ hnotSet bit,
      fun _ _ => oneshot_monitor (heeds_armThenLoad _)
        (fun _ _ => (hear_armThenLoad _).mono fun _ _ _ => trivial) _⟩

/-- **All untimed waits are the same search**, on every stream of values, at every width. -/
theorem untimed_waits_search (w : Nat) :
    (spinloopWaits w).Search ∧ ∀ b : Backend, (b.untimedWaits w).Search :=
  ⟨spinloopWaits_search w, fun b => b.untimedWaits_search w⟩

end WfeMutex
