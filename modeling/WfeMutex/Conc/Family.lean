/-
  MANY LIBRARIES IN ONE PROGRAM, and the locality of linearizability.

  A program seldom has one lock.  `World.family` puts any family of shared memories side by side,
  one for each index: a call names its index and works on that memory only.  What such a program
  does at one index is a run of that library alone (`Run.on`): the other memories are not touched,
  and a thread that is busy elsewhere is idle here.  So whatever holds of every run of every member
  holds of each of them inside the program.

  For linearizability more is true.  `Object.locality`: if the history at every index can be one of
  the object there, the whole history can be one of all the objects together, which have ONE order
  for the calls of the whole program.  The argument goes through the whole history call by call
  and return by return; the instants at one index that its own history needs in between are
  instants of the family, since they concern no other index.  A thread is in the middle of one
  call at a time, so where it stands in the family tells where it stands at each index
  (`Status.on`).
-/
import WfeMutex.Conc.Linear

set_option linter.unusedVariables false

namespace Conc

open Function (update update_self update_of_ne)

section
variable {ι Tid Res : Type} [DecidableEq ι] {Call : ι → Type}

/-! ## What is at one index -/

/-- The call, if it is one at `i`. -/
def callOn (i : ι) (c : Σ i, Call i) : Option (Call i) :=
  if h : c.1 = i then some (h ▸ c.2) else none

@[simp] theorem callOn_self (i : ι) (c : Call i) : callOn i ⟨i, c⟩ = some c := dif_pos rfl

theorem callOn_ne {i j : ι} (h : j ≠ i) (c : Call j) : callOn i ⟨j, c⟩ = none := dif_neg h

theorem callOn_eq_some {i : ι} {c : Σ i, Call i} {d : Call i} (h : callOn i c = some d) :
    c = ⟨i, d⟩ := by
  obtain ⟨j, c⟩ := c
  by_cases hj : j = i
  · subst hj
    rw [callOn_self] at h
    cases h
    rfl
  · rw [callOn_ne hj] at h
    cases h

/-- What the callers see at `i`. -/
def Visible.on (i : ι) : Visible Tid (Σ i, Call i) Res → Option (Visible Tid (Call i) Res)
  | .call t c => (callOn i c).map fun d => .call t d
  | .ret t c r => (callOn i c).map fun d => .ret t d r

@[simp] theorem Visible.on_call_self (i : ι) (t : Tid) (c : Call i) :
    (Visible.call t ⟨i, c⟩ : Visible Tid (Σ i, Call i) Res).on i = some (.call t c) := by
  simp [Visible.on]

@[simp] theorem Visible.on_ret_self (i : ι) (t : Tid) (c : Call i) (r : Res) :
    (Visible.ret t ⟨i, c⟩ r : Visible Tid (Σ i, Call i) Res).on i = some (.ret t c r) := by
  simp [Visible.on]

theorem Visible.on_call_ne {i j : ι} (h : j ≠ i) (t : Tid) (c : Call j) :
    (Visible.call t ⟨j, c⟩ : Visible Tid (Σ i, Call i) Res).on i = none := by
  simp [Visible.on, callOn_ne h]

theorem Visible.on_ret_ne {i j : ι} (h : j ≠ i) (t : Tid) (c : Call j) (r : Res) :
    (Visible.ret t ⟨j, c⟩ r : Visible Tid (Σ i, Call i) Res).on i = none := by
  simp [Visible.on, callOn_ne h]

/-- Where a thread stands at `i`. -/
def Status.on (i : ι) : Status (Σ i, Call i) Res → Status (Call i) Res
  | .idle => .idle
  | .called c => ((callOn i c).map .called).getD .idle
  | .done c r => ((callOn i c).map fun d => .done d r).getD .idle

@[simp] theorem Status.on_called_self (i : ι) (c : Call i) :
    (Status.called ⟨i, c⟩ : Status _ Res).on i = .called c := by
  simp [Status.on]

@[simp] theorem Status.on_done_self (i : ι) (c : Call i) (r : Res) :
    (Status.done ⟨i, c⟩ r : Status _ Res).on i = .done c r := by
  simp [Status.on]

theorem Status.on_called_ne {i j : ι} (h : j ≠ i) (c : Call j) :
    (Status.called ⟨j, c⟩ : Status _ Res).on i = .idle := by
  simp [Status.on, callOn_ne h]

theorem Status.on_done_ne {i j : ι} (h : j ≠ i) (c : Call j) (r : Res) :
    (Status.done ⟨j, c⟩ r : Status _ Res).on i = .idle := by
  simp [Status.on, callOn_ne h]

theorem Status.of_on_called {i : ι} {y : Status (Σ i, Call i) Res} {c : Call i}
    (h : y.on i = .called c) : y = .called ⟨i, c⟩ := by
  cases y with
  | idle => cases h
  | called d =>
    rcases hd : callOn i d with _ | e
    · simp [Status.on, hd] at h
    · obtain rfl : e = c := by simpa [Status.on, hd] using h
      rw [callOn_eq_some hd]
  | done d r => rcases hd : callOn i d with _ | e <;> simp [Status.on, hd] at h

theorem Status.of_on_done {i : ι} {y : Status (Σ i, Call i) Res} {c : Call i} {r : Res}
    (h : y.on i = .done c r) : y = .done ⟨i, c⟩ r := by
  cases y with
  | idle => cases h
  | called d => rcases hd : callOn i d with _ | e <;> simp [Status.on, hd] at h
  | done d q =>
    rcases hd : callOn i d with _ | e
    · simp [Status.on, hd] at h
    · obtain ⟨rfl, rfl⟩ : e = c ∧ q = r := by simpa [Status.on, hd] using h
      rw [callOn_eq_some hd]

end

/-! ## Histories -/

section
variable {Tid Call Res : Type} [DecidableEq Tid]

/-- Every thread calls and returns by turns, being inside the calls `cur` at the beginning. -/
def Alternates : (Tid → Option Call) → List (Visible Tid Call Res) → Prop
  | _, [] => True
  | cur, .call t c :: h => cur t = none ∧ Alternates (update cur t (some c)) h
  | cur, .ret t c _ :: h => cur t = some c ∧ Alternates (update cur t none) h

/-- The call a thread is in the middle of. -/
def Status.current : Status Call Res → Option Call
  | .idle => none
  | .called c | .done c _ => some c

theorem Status.current_update (f : Tid → Status Call Res) (t : Tid) (y : Status Call Res) :
    (fun u => (update f t y u).current) = update (fun u => (f u).current) t y.current := by
  funext u
  by_cases hu : u = t
  · subst hu
    rw [update_self, update_self]
  · rw [update_of_ne hu, update_of_ne hu]

/-- The call a thread of a pool is inside. -/
def Pool.current {S : Sig} {W : World S Tid Call Res} (s : Pool W) (t : Tid) : Option Call :=
  (s.thread t).map Prod.fst

theorem Pool.current_put {S : Sig} {W : World S Tid Call Res} (s : Pool W) (m : W.Mem) (t : Tid)
    (x : Option (Call × Prog S Res)) :
    (s.put m t x).current = update s.current t (x.map Prod.fst) := by
  funext u
  unfold Pool.current
  by_cases hu : u = t
  · subst hu
    rw [Pool.put_thread_self, update_self]
  · rw [Pool.put_thread_ne _ _ _ hu, update_of_ne hu]

/-- **The history of a run alternates.** -/
theorem Run.alternates {S : Sig} {W : World S Tid Call Res} {prog : Call → Prog S Res}
    {s s' : Pool W} {tr : List (Trans W)} (hrun : Run prog s tr s') :
    Alternates s.current (history tr) := by
  induction hrun with
  | nil s => trivial
  | @cons s s₁ s₂ e tr hstep _ ih =>
    cases hstep with
    | @call t c m ht hcall =>
      rw [Pool.current_put] at ih
      refine ⟨?_, ih⟩
      unfold Pool.current
      rw [ht]
      rfl
    | @op t c o k a m ht hexec =>
      have hsame : s.current t = some c := by
        unfold Pool.current
        rw [ht]
        rfl
      rw [Pool.current_put, Option.map_some, ← hsame, Function.update_eq_self] at ih
      exact ih
    | @jump t c σ β body x k ht =>
      have hsame : s.current t = some c := by
        unfold Pool.current
        rw [ht]
        rfl
      rw [Pool.current_put, Option.map_some, ← hsame, Function.update_eq_self] at ih
      exact ih
    | @ret t c r m ht hret =>
      rw [Pool.current_put] at ih
      refine ⟨?_, ih⟩
      unfold Pool.current
      rw [ht]
      rfl
    | @client t m ht hclient =>
      have hsame : s.current t = none := by
        unfold Pool.current
        rw [ht]
        rfl
      rw [Pool.current_put, Option.map_none, ← hsame, Function.update_eq_self] at ih
      exact ih

end

/-! ## Many objects -/

section
variable {ι Tid Res : Type} [DecidableEq ι] [DecidableEq Tid] {Call : ι → Type}

/-- The objects side by side. -/
def Object.family (obj : ∀ i, Object Tid (Call i) Res) : Object Tid (Σ i, Call i) Res where
  State := ∀ i, (obj i).State
  does t c r σ σ' := ∃ τ, (obj c.1).does t c.2 r (σ c.1) τ ∧ σ' = update σ c.1 τ

/-- Where the threads stand at one index. -/
def statusOn (i : ι) (f : Tid → Status (Σ i, Call i) Res) (t : Tid) : Status (Call i) Res :=
  (f t).on i

theorem statusOn_update (i : ι) (f : Tid → Status (Σ i, Call i) Res) (t : Tid)
    (y : Status (Σ i, Call i) Res) :
    statusOn i (update f t y) = update (statusOn i f) t (y.on i) := by
  funext u
  unfold statusOn
  by_cases hu : u = t
  · subst hu
    rw [update_self, update_self]
  · rw [update_of_ne hu, update_of_ne hu]

/-- A move to a place that looks the same from `j` is not seen there. -/
theorem statusOn_update_same {j : ι} {f : Tid → Status (Σ i, Call i) Res} {t : Tid}
    {y : Status (Σ i, Call i) Res} (h : (f t).on j = y.on j) :
    statusOn j (update f t y) = statusOn j f := by
  rw [statusOn_update, ← h]
  exact Function.update_eq_self t (statusOn j f)

variable {obj : ∀ i, Object Tid (Call i) Res}

/-- A step that the callers see. -/
def Object.Shows {Call : Type} {obj : Object Tid Call Res} (x : obj.Config) :
    Visible Tid Call Res → obj.Config → Prop
  | .call t c, y => x.status t = .idle ∧ y = ⟨x.state, update x.status t (.called c)⟩
  | .ret t c r, y => x.status t = .done c r ∧ y = ⟨x.state, update x.status t .idle⟩

/-- A call or a return in front of a history. -/
theorem Object.Shows.performs {Call : Type} {obj : Object Tid Call Res} {x y z : obj.Config}
    {v : Visible Tid Call Res} {h : List (Visible Tid Call Res)} (hv : obj.Shows x v y)
    (hperf : obj.Performs y h z) : obj.Performs x (v :: h) z := by
  cases v with
  | call t c =>
    obtain ⟨hst, rfl⟩ := hv
    exact .call hst hperf
  | ret t c r =>
    obtain ⟨hst, rfl⟩ := hv
    exact .ret hst hperf

/-- What comes before the first visible step is instants only. -/
theorem Object.Performs.before {Call : Type} {obj : Object Tid Call Res} {x z : obj.Config}
    {v : Visible Tid Call Res} {h : List (Visible Tid Call Res)}
    (hperf : obj.Performs x (v :: h) z) :
    ∃ y y', obj.Performs x [] y ∧ obj.Shows y v y' ∧ obj.Performs y' h z := by
  generalize hw : v :: h = w at hperf
  induction hperf with
  | nil z => cases hw
  | @call σ f t c h' z hst hrest _ =>
    cases hw
    exact ⟨⟨σ, f⟩, _, .nil _, ⟨hst, rfl⟩, hrest⟩
  | commit hst hdoes _ ih =>
    obtain ⟨y, y', hy, hv, hrest⟩ := ih hw
    exact ⟨y, y', .commit hst hdoes hy, hv, hrest⟩
  | @ret σ f t c r h' z hst hrest _ =>
    cases hw
    exact ⟨⟨σ, f⟩, _, .nil _, ⟨hst, rfl⟩, hrest⟩

/-- **Instants at one index** are instants of the family: nothing else moves, and nobody starts or
    ends a call by them. -/
theorem Object.Performs.family {i : ι} {σ : ∀ i, (obj i).State}
    {f : Tid → Status (Σ i, Call i) Res} {y : (obj i).Config}
    (h : (obj i).Performs ⟨σ i, statusOn i f⟩ [] y) :
    ∃ f', (Object.family obj).Performs ⟨σ, f⟩ [] ⟨update σ i y.state, f'⟩ ∧
      statusOn i f' = y.status ∧ (∀ j, j ≠ i → statusOn j f' = statusOn j f) ∧
      (fun t => (f' t).current) = fun t => (f t).current := by
  -- induction on the instants
  generalize hx : (⟨σ i, statusOn i f⟩ : (obj i).Config) = x at h
  generalize hw : ([] : List (Visible Tid (Call i) Res)) = w at h
  induction h generalizing σ f with
  | nil z =>
    subst hx
    refine ⟨f, ?_, rfl, fun _ _ => rfl, rfl⟩
    rw [Function.update_eq_self]
    exact .nil _
  | call _ _ _ => cases hw
  | @commit τ τ' sti t c r h z hst hdoes _ ih =>
    cases hx
    have hcalled : f t = .called ⟨i, c⟩ := Status.of_on_called hst
    obtain ⟨f', hperf, hi, hother, hcurrent⟩ := ih (σ := update σ i τ')
      (f := update f t (.done ⟨i, c⟩ r)) (by
        rw [update_self, statusOn_update, Status.on_done_self]) hw
    refine ⟨f', ?_, hi, fun j hj => ?_, ?_⟩
    · rw [Function.update_idem] at hperf
      exact .commit hcalled ⟨τ', hdoes, rfl⟩ hperf
    · rw [hother j hj]
      refine statusOn_update_same ?_
      rw [hcalled, Status.on_called_ne hj.symm, Status.on_done_ne hj.symm]
    · rw [hcurrent, Status.current_update]
      funext u
      by_cases hu : u = t
      · subst hu
        rw [update_self, hcalled]
        rfl
      · rw [update_of_ne hu]
  | ret _ _ _ => cases hw

/-- The positions at every index after a move at `i`. -/
theorem Object.Performs.after_move {i : ι} {σ : ∀ i, (obj i).State} {τ : (obj i).State}
    {f f' : Tid → Status (Σ i, Call i) Res} {h : List (Visible Tid (Σ i, Call i) Res)} {t : Tid}
    {y : Status (Σ i, Call i) Res}
    (hself : ∃ z, (obj i).Performs ⟨τ, update (statusOn i f') t (y.on i)⟩
      (h.filterMap (Visible.on i)) z)
    (hlin : ∀ j, j ≠ i → ∃ z, (obj j).Performs ⟨σ j, statusOn j f⟩ (h.filterMap (Visible.on j)) z)
    (hother : ∀ j, j ≠ i → statusOn j f' = statusOn j f)
    (hsame : ∀ j, j ≠ i → (f' t).on j = y.on j) (j : ι) :
    ∃ z, (obj j).Performs ⟨update σ i τ j, statusOn j (update f' t y)⟩
      (h.filterMap (Visible.on j)) z := by
  by_cases hj : j = i
  · subst hj
    rw [update_self, statusOn_update]
    exact hself
  · rw [update_of_ne hj, statusOn_update_same (hsame j hj), hother j hj]
    exact hlin j hj

/-- **One visible step after the other**: where the history at every index can go on, the whole
    history can. -/
theorem Object.Performs.together {h : List (Visible Tid (Σ i, Call i) Res)}
    {σ : ∀ i, (obj i).State} {f : Tid → Status (Σ i, Call i) Res}
    (halt : Alternates (fun t => (f t).current) h)
    (hlin : ∀ i, ∃ z, (obj i).Performs ⟨σ i, statusOn i f⟩ (h.filterMap (Visible.on i)) z) :
    ∃ z, (Object.family obj).Performs ⟨σ, f⟩ h z := by
  induction h generalizing σ f with
  | nil => exact ⟨_, .nil _⟩
  | cons v h ih =>
    cases v with
    | call t c =>
      obtain ⟨i, c⟩ := c
      obtain ⟨hnone, halt⟩ := halt
      obtain ⟨z, hz⟩ := hlin i
      rw [List.filterMap_cons_some (Visible.on_call_self i t c)] at hz
      obtain ⟨y, _, hbefore, ⟨-, rfl⟩, hrest⟩ := hz.before
      obtain ⟨f', hperf, hi, hother, hcurrent⟩ := hbefore.family
      have hidle : f' t = .idle := by
        have hnow : (f' t).current = none := (congrFun hcurrent t).trans hnone
        cases hst : f' t with
        | idle => rfl
        | called d | done d r =>
          rw [hst] at hnow
          cases hnow
      have hnext : ∃ z, (Object.family obj).Performs
          ⟨update σ i y.state, update f' t (.called ⟨i, c⟩)⟩ h z := by
        refine ih ?_ (Object.Performs.after_move (f := f) ⟨z, ?_⟩ ?_ hother ?_)
        · rw [Status.current_update, hcurrent]
          exact halt
        · rw [hi, Status.on_called_self]
          exact hrest
        · intro j hj
          obtain ⟨z, hz⟩ := hlin j
          rw [List.filterMap_cons_none (Visible.on_call_ne hj.symm t c)] at hz
          exact ⟨z, hz⟩
        · intro j hj
          rw [hidle, Status.on_called_ne hj.symm]
          rfl
      obtain ⟨z, hz⟩ := hnext
      exact ⟨z, hperf.append (.call hidle hz)⟩
    | ret t c r =>
      obtain ⟨i, c⟩ := c
      obtain ⟨-, halt⟩ := halt
      obtain ⟨z, hz⟩ := hlin i
      rw [List.filterMap_cons_some (Visible.on_ret_self i t c r)] at hz
      obtain ⟨y, _, hbefore, ⟨hdone, rfl⟩, hrest⟩ := hz.before
      obtain ⟨f', hperf, hi, hother, hcurrent⟩ := hbefore.family
      have hst' : f' t = .done ⟨i, c⟩ r := by
        refine Status.of_on_done ?_
        rw [← hdone, ← hi]
        rfl
      have hnext : ∃ z, (Object.family obj).Performs
          ⟨update σ i y.state, update f' t .idle⟩ h z := by
        refine ih ?_ (Object.Performs.after_move (f := f) ⟨z, ?_⟩ ?_ hother ?_)
        · rw [Status.current_update, hcurrent]
          exact halt
        · rw [hi]
          exact hrest
        · intro j hj
          obtain ⟨z, hz⟩ := hlin j
          rw [List.filterMap_cons_none (Visible.on_ret_ne hj.symm t c r)] at hz
          exact ⟨z, hz⟩
        · intro j hj
          rw [hst', Status.on_done_ne hj.symm]
          rfl
      obtain ⟨z, hz⟩ := hnext
      exact ⟨z, hperf.append (.ret hst' hz)⟩

/-- **Locality**: a history of many objects can be one of all of them together when at each index it
    can be one of the object there. -/
theorem Object.locality {h : List (Visible Tid (Σ i, Call i) Res)} {σ : ∀ i, (obj i).State}
    (halt : Alternates (fun _ => none) h)
    (hlin : ∀ i, (obj i).Linearizable (σ i) (h.filterMap (Visible.on i))) :
    (Object.family obj).Linearizable σ h :=
  Object.Performs.together (f := fun _ => .idle) halt hlin

end

/-! ## Many memories -/

section
variable {S : Sig} {ι Tid Res : Type} [DecidableEq ι] [DecidableEq Tid] {Call : ι → Type}

/-- The memories side by side: a call works on its own. -/
abbrev World.family (W : ∀ i, World S Tid (Call i) Res) : World S Tid (Σ i, Call i) Res where
  Mem := ∀ i, (W i).Mem
  call t c m m' := ∃ x, (W c.1).call t c.2 (m c.1) x ∧ m' = update m c.1 x
  exec t c o a m m' := ∃ x, (W c.1).exec t c.2 o a (m c.1) x ∧ m' = update m c.1 x
  ret t c r m m' := ∃ x, (W c.1).ret t c.2 r (m c.1) x ∧ m' = update m c.1 x
  client t m m' := ∃ i x, (W i).client t (m i) x ∧ m' = update m i x

/-- Each call is the program it is in its own library. -/
def familyProg (prog : ∀ i, Call i → Prog S Res) (c : Σ i, Call i) : Prog S Res := prog c.1 c.2

variable {W : ∀ i, World S Tid (Call i) Res} {prog : ∀ i, Call i → Prog S Res}

/-- What a thread is doing at `i`. -/
def threadOn (i : ι) (x : Option ((Σ i, Call i) × Prog S Res)) : Option (Call i × Prog S Res) :=
  x.bind fun y => (callOn i y.1).map fun c => (c, y.2)

@[simp] theorem threadOn_none (i : ι) :
    threadOn i (none : Option ((Σ i, Call i) × Prog S Res)) = none := rfl

@[simp] theorem threadOn_self (i : ι) (c : Call i) (p : Prog S Res) :
    threadOn i (some (⟨i, c⟩, p)) = some (c, p) := by
  simp [threadOn]

theorem threadOn_ne {i j : ι} (h : j ≠ i) (c : Call j) (p : Prog S Res) :
    threadOn i (some (⟨j, c⟩, p)) = none := by
  simp [threadOn, callOn_ne h]

/-- The pool as the library at `i` sees it. -/
def Pool.on (i : ι) (s : Pool (World.family W)) : Pool (W i) :=
  ⟨s.mem i, fun t => threadOn i (s.thread t)⟩

theorem Pool.on_put (i : ι) (s : Pool (World.family W)) (m : ∀ i, (W i).Mem) (t : Tid)
    (x : Option ((Σ i, Call i) × Prog S Res)) :
    (s.put m t x).on i = (s.on i).put (m i) t (threadOn i x) := by
  have hthread : (fun u => threadOn i ((s.put m t x).thread u)) =
      update (fun u => threadOn i (s.thread u)) t (threadOn i x) := by
    funext u
    by_cases hu : u = t
    · subst hu
      rw [Pool.put_thread_self, update_self]
    · rw [Pool.put_thread_ne _ _ _ hu, update_of_ne hu]
  exact congrArg (Pool.mk (m i)) hthread

/-- A move at `i`, seen there. -/
theorem Pool.on_put_self (i : ι) (s : Pool (World.family W)) (m : (W i).Mem) (t : Tid)
    (x : Option ((Σ i, Call i) × Prog S Res)) :
    (s.put (update s.mem i m) t x).on i = (s.on i).put m t (threadOn i x) := by
  rw [Pool.on_put, update_self]

/-- A move that is not seen at `i`. -/
theorem Pool.on_put_same {i : ι} {s : Pool (World.family W)} {m : ∀ i, (W i).Mem} {t : Tid}
    {x : Option ((Σ i, Call i) × Prog S Res)} (hmem : m i = s.mem i)
    (hthread : threadOn i (s.thread t) = threadOn i x) : (s.put m t x).on i = s.on i := by
  rw [Pool.on_put, hmem, ← hthread]
  exact congrArg (Pool.mk (s.mem i)) (Function.update_eq_self t fun u => threadOn i (s.thread u))

section
omit [DecidableEq Tid]
variable {i : ι} {s : Pool (World.family W)} {t : Tid}

/-- A thread outside all calls is outside those on `i`. -/
theorem Pool.on_idle (h : s.thread t = none) : (s.on i).thread t = none := congrArg (threadOn i) h

/-- A call on `i` is one of the part `i`. -/
theorem Pool.on_busy {c : Call i} {p : Prog S Res} (h : s.thread t = some (⟨i, c⟩, p)) :
    (s.on i).thread t = some (c, p) :=
  (congrArg (threadOn i) h).trans (threadOn_self i c p)

/-- A thread inside a call on another part is outside those on `i`. -/
theorem Pool.on_elsewhere {j : ι} {c : Call j} {p : Prog S Res} (hj : j ≠ i)
    (h : s.thread t = some (⟨j, c⟩, p)) : (s.on i).thread t = none :=
  (congrArg (threadOn i) h).trans (threadOn_ne hj c p)

end

/-- **One step** of the program, as the library at `i` sees it: a step of its own, or nothing. -/
theorem Pool.Step.on {s s' : Pool (World.family W)} {e : Event S Tid (Σ i, Call i) Res}
    (h : Pool.Step (familyProg prog) s e s') (i : ι) :
    (∃ e', Pool.Step (prog i) (s.on i) e' (s'.on i) ∧
        e'.visible = e.visible.filterMap (Visible.on i)) ∨
      s'.on i = s.on i ∧ e.visible.filterMap (Visible.on i) = [] := by
  cases h with
  | @call t c m ht hcall =>
    obtain ⟨j, c⟩ := c
    obtain ⟨x, hx, rfl⟩ := hcall
    by_cases hj : j = i
    · subst hj
      refine Or.inl ⟨.call t c, ?_, by simp [Event.visible]⟩
      rw [Pool.on_put_self, threadOn_self]
      exact .call (Pool.on_idle ht) hx
    · refine Or.inr ⟨Pool.on_put_same (update_of_ne (Ne.symm hj) ..) ?_, ?_⟩
      · rw [ht, threadOn_ne hj, threadOn_none]
      · exact List.filterMap_cons_none (Visible.on_call_ne hj t c)
  | @op t c o k a m ht hexec =>
    obtain ⟨j, c⟩ := c
    obtain ⟨x, hx, rfl⟩ := hexec
    by_cases hj : j = i
    · subst hj
      refine Or.inl ⟨.op t c o a, ?_, rfl⟩
      rw [Pool.on_put_self, threadOn_self]
      exact .op (Pool.on_busy ht) hx
    · refine Or.inr ⟨Pool.on_put_same (update_of_ne (Ne.symm hj) ..) ?_, rfl⟩
      rw [ht, threadOn_ne hj, threadOn_ne hj]
  | @jump t c σ β body x k ht =>
    obtain ⟨j, c⟩ := c
    by_cases hj : j = i
    · subst hj
      refine Or.inl ⟨.jump t, ?_, rfl⟩
      rw [Pool.on_put, threadOn_self]
      exact Pool.Step.jump (s := s.on j) (Pool.on_busy ht)
    · refine Or.inr ⟨Pool.on_put_same rfl ?_, rfl⟩
      rw [ht, threadOn_ne hj, threadOn_ne hj]
  | @ret t c r m ht hret =>
    obtain ⟨j, c⟩ := c
    obtain ⟨x, hx, rfl⟩ := hret
    by_cases hj : j = i
    · subst hj
      refine Or.inl ⟨.ret t c r, ?_, by simp [Event.visible]⟩
      rw [Pool.on_put_self, threadOn_none]
      exact .ret (Pool.on_busy ht) hx
    · refine Or.inr ⟨Pool.on_put_same (update_of_ne (Ne.symm hj) ..) ?_, ?_⟩
      · rw [ht, threadOn_ne hj, threadOn_none]
      · exact List.filterMap_cons_none (Visible.on_ret_ne hj t c r)
  | @client t m ht hclient =>
    obtain ⟨j, x, hx, rfl⟩ := hclient
    by_cases hj : j = i
    · subst hj
      refine Or.inl ⟨.client t, ?_, rfl⟩
      rw [Pool.on_put_self, threadOn_none]
      exact .client (Pool.on_idle ht) hx
    · refine Or.inr ⟨Pool.on_put_same (update_of_ne (Ne.symm hj) ..) ?_, rfl⟩
      rw [ht]

/-- **A whole run** of the program, as the library at `i` sees it: a run of that library, with its
    part of the history, through states of the program. -/
theorem Run.on {s s' : Pool (World.family W)} {tr : List (Trans (World.family W))}
    (hrun : Run (familyProg prog) s tr s') (i : ι) :
    ∃ tr', Run (prog i) (s.on i) tr' (s'.on i) ∧
      history tr' = (history tr).filterMap (Visible.on i) ∧
      ∀ x ∈ tr', ∃ y ∈ tr, x.dst = y.dst.on i := by
  induction hrun with
  | nil s => exact ⟨[], .nil _, rfl, fun x hx => by cases hx⟩
  | @cons s s₁ s₂ e tr hstep _ ih =>
    obtain ⟨tr', hrun', hhist, hdst⟩ := ih
    have hdst' : ∀ x ∈ tr', ∃ y ∈ (⟨s, e, s₁⟩ :: tr : List (Trans (World.family W))),
        x.dst = y.dst.on i := by
      intro x hx
      obtain ⟨y, hy, hxy⟩ := hdst x hx
      exact ⟨y, List.mem_cons_of_mem _ hy, hxy⟩
    rw [history_cons, List.filterMap_append]
    rcases hstep.on i with ⟨e', hstep', hvisible⟩ | ⟨hsame, hnone⟩
    · refine ⟨⟨s.on i, e', s₁.on i⟩ :: tr', .cons hstep' hrun', ?_, ?_⟩
      · rw [history_cons, hhist, ← hvisible]
      · intro x hx
        rcases List.mem_cons.mp hx with rfl | hx
        · exact ⟨_, List.mem_cons_self, rfl⟩
        · exact hdst' x hx
    · rw [hsame] at hrun'
      exact ⟨tr', hrun', by rw [hhist, hnone, List.nil_append], hdst'⟩

/-- The bound on the runs under consideration, at every index. -/
def okFamily (ok : ∀ i, (W i).Mem → Prop) (m : (World.family W).Mem) : Prop := ∀ i, ok i (m i)

/-- What is reached in the program is reached at each index. -/
theorem Reach.on {ok : ∀ i, (W i).Mem → Prop} {m : ∀ i, (W i).Mem} {s : Pool (World.family W)}
    (h : Reach (familyProg prog) (okFamily ok) m s) (i : ι) :
    Reach (prog i) (ok i) (m i) (s.on i) := by
  obtain ⟨tr, hrun, hok⟩ := h
  obtain ⟨tr', hrun', -, hdst⟩ := hrun.on i
  refine ⟨tr', hrun', fun x hx => ?_⟩
  obtain ⟨y, hy, hxy⟩ := hdst x hx
  rw [hxy]
  exact hok y hy i

/-- **A program of linearizable libraries is linearizable**, all its calls in one order. -/
theorem Run.family_linearizable {obj : ∀ i, Object Tid (Call i) Res} {σ : ∀ i, (obj i).State}
    {ok : ∀ i, (W i).Mem → Prop} {m : ∀ i, (W i).Mem} {s : Pool (World.family W)}
    {tr : List (Trans (World.family W))} (hrun : Run (familyProg prog) (Pool.start m) tr s)
    (hok : ∀ x ∈ tr, okFamily ok x.dst.mem)
    (hlin : ∀ i tr' s', Run (prog i) (Pool.start (m i)) tr' s' → (∀ x ∈ tr', ok i x.dst.mem) →
      (obj i).Linearizable (σ i) (history tr')) :
    (Object.family obj).Linearizable σ (history tr) := by
  refine Object.locality hrun.alternates fun i => ?_
  obtain ⟨tr', hrun', hhist, hdst⟩ := hrun.on i
  rw [← hhist]
  refine hlin i tr' _ hrun' fun x hx => ?_
  obtain ⟨y, hy, hxy⟩ := hdst x hx
  rw [hxy]
  exact hok y hy i

end

end Conc
