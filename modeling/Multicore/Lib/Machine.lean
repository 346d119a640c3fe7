import Mathlib.Tactic

/-!
# Machines, their runs and their invariants

The concurrent programs of this development are all modelled the same way: a type of global
states, the initial states, and a *partial function* that says what one atomic action does.  An
action names the thread that moves together with the choice it makes, so that a schedule is
nothing but a list of actions, and a schedule can be executed.

* `Machine.Run ok` — the states reached by runs **all of whose steps meet** `ok`.  With the
  trivial condition this is `Machine.Reachable`; a condition on the state before the step says
  under which schedules a property holds.
* `Machine.Run.invariant` — the induction every safety proof goes through: an invariant holds
  initially and is kept by each step.
* `Machine.exec` — running a schedule; `Machine.run_of_exec` turns an execution into a run.
* `Machine.startAt` — the same machine started in one state, for properties that compare the two
  ends of a part of a run.
* `Machine.Trace` — a run with the states it passes through, for properties that compare the
  states at different times.
* `MutexStep` — what one thread can do to a family of mutexes; `MutexStep.owned` is the invariant
  that whoever thinks it is inside a critical section really owns the mutex.
-/

namespace Multicore

/-- A machine: its initial states, and what each action does in a state (`none`: the action is
not enabled there). -/
structure Machine (σ α : Type*) where
  init : σ → Prop
  step : σ → α → Option σ

namespace Machine

variable {σ α : Type*} {M : Machine σ α} {ok : σ → α → Prop}

/-- The states reached by the runs all of whose steps meet `ok`. -/
inductive Run (M : Machine σ α) (ok : σ → α → Prop) : σ → Prop
  | init {s : σ} (h : M.init s) : Run M ok s
  | step {s s' : σ} {a : α} (h : Run M ok s) (hok : ok s a) (hs : M.step s a = some s') :
      Run M ok s'

/-- The states reached by any run. -/
def Reachable (M : Machine σ α) : σ → Prop := M.Run fun _ _ => True

/-- Weakening the condition on the steps keeps every run. -/
lemma Run.mono {ok' : σ → α → Prop} (h : ∀ s a, ok s a → ok' s a) {s : σ} (hr : M.Run ok s) :
    M.Run ok' s := by
  induction hr with
  | init h0 => exact .init h0
  | step _ hok hs ih => exact .step ih (h _ _ hok) hs

/-- A run that meets a condition is a run. -/
lemma Run.reachable {s : σ} (hr : M.Run ok s) : M.Reachable s :=
  hr.mono fun _ _ _ => trivial

/-- **The invariant rule.**  What holds initially and is kept by every step of a run holds at its
end.  The step may use that its source is itself the end of such a run, and so every invariant
proved before. -/
theorem Run.invariant {I : σ → Prop} (h0 : ∀ s, M.init s → I s)
    (hstep : ∀ s a s', M.Run ok s → I s → ok s a → M.step s a = some s' → I s') :
    ∀ s, M.Run ok s → I s := by
  intro s hr
  induction hr with
  | init h => exact h0 _ h
  | step hr hok hs ih => exact hstep _ _ _ hr ih hok hs

/-- Execute a schedule, as long as every step passes the test `ok`. -/
def exec (M : Machine σ α) (ok : σ → α → Bool) : List α → σ → Option σ
  | [], s => some s
  | a :: as, s => if ok s a then (M.step s a).bind (M.exec ok as) else none

lemma exec_append (okb : σ → α → Bool) (as bs : List α) (s : σ) :
    M.exec okb (as ++ bs) s = (M.exec okb as s).bind (M.exec okb bs) := by
  induction as generalizing s with
  | nil => rfl
  | cons a as ih =>
      simp only [List.cons_append, exec]
      split_ifs with hok
      · cases M.step s a with
        | none => rfl
        | some s' => exact ih s'
      · rfl

/-- Executing a schedule from the end of a run continues the run. -/
theorem run_of_exec {okb : σ → α → Bool} (hok : ∀ s a, okb s a = true → ok s a) {s : σ}
    (hs : M.Run ok s) : ∀ {as : List α} {s' : σ}, M.exec okb as s = some s' → M.Run ok s' := by
  intro as
  induction as generalizing s with
  | nil =>
      intro s' h
      simp only [exec, Option.some.injEq] at h
      exact h ▸ hs
  | cons a as ih =>
      intro s' h
      simp only [exec, Option.ite_none_right_eq_some, Option.bind_eq_some_iff] at h
      obtain ⟨ha, s₁, h1, h2⟩ := h
      exact ih (.step hs (hok s a ha) h1) h2

/-- A test that holds at the end of a schedule holds at the end of some run. -/
lemma exists_run_of_exec (ok : σ → α → Prop) [∀ s a, Decidable (ok s a)] {s : σ} (hs : M.init s)
    (as : List α) (p : σ → Bool) (h : (M.exec (fun s a => decide (ok s a)) as s).any p = true) :
    ∃ s', M.Run ok s' ∧ p s' = true := by
  cases hs' : M.exec (fun s a => decide (ok s a)) as s with
  | none => simp [hs'] at h
  | some s' =>
      exact ⟨s', run_of_exec (fun s a => of_decide_eq_true) (.init hs) hs', by simpa [hs'] using h⟩

/-- A test that holds at the end of a schedule holds in some reachable state. -/
lemma exists_reachable_of_exec {s : σ} (hs : M.init s) (as : List α) (p : σ → Bool)
    (h : (M.exec (fun _ _ => decide True) as s).any p = true) :
    ∃ s', M.Reachable s' ∧ p s' = true :=
  exists_run_of_exec (fun _ _ => True) hs as p h

/-- The machine started in `s`: its runs are the parts of runs that begin there. -/
def startAt (M : Machine σ α) (s : σ) : Machine σ α := { M with init := fun s₀ => s₀ = s }

/-- A part of a run that begins in a reachable state stays in the reachable ones. -/
lemma Run.of_startAt {s s' : σ} (hs : M.Reachable s) (h : (M.startAt s).Run ok s') :
    M.Reachable s' := by
  induction h with
  | init h0 => exact h0 ▸ hs
  | step _ _ hstep ih => exact .step ih trivial hstep

/-- Tests that hold at the two ends of a part of a schedule hold at the ends of a part of a run. -/
lemma exists_part_of_exec (ok : σ → α → Prop) [∀ s a, Decidable (ok s a)] {s₀ : σ}
    (h0 : M.init s₀) (as bs : List α) (p : σ → Bool) (q : σ → σ → Bool)
    (h : (M.exec (fun _ _ => decide True) as s₀).any (fun s =>
      p s && ((M.startAt s).exec (fun s a => decide (ok s a)) bs s).any (q s)) = true) :
    ∃ s s', M.Reachable s ∧ p s = true ∧ (M.startAt s).Run ok s' ∧ q s s' = true := by
  obtain ⟨s, hs, hp⟩ := exists_reachable_of_exec h0 as _ h
  rw [Bool.and_eq_true] at hp
  have hinit : (M.startAt s).init s := rfl
  obtain ⟨s', hs', hq⟩ := exists_run_of_exec ok hinit bs (q s) hp.2
  exact ⟨s, s', hs, hp.1, hs', hq⟩

end Machine

/-! ## Traces -/

/-- A run with all its states and actions: `state k` is the state before action `k`. -/
structure Machine.Trace {σ α : Type*} (M : Machine σ α) (ok : σ → α → Prop) where
  acts : List α
  state : ℕ → σ
  init : M.init (state 0)
  step : ∀ k a, acts[k]? = some a → ok (state k) a ∧ M.step (state k) a = some (state (k + 1))

namespace Machine

variable {σ α : Type*} {M : Machine σ α} {ok : σ → α → Prop}

/-- Every state of a trace is the end of a run. -/
lemma Trace.run (e : M.Trace ok) {k : ℕ} (hk : k ≤ e.acts.length) : M.Run ok (e.state k) := by
  induction k with
  | zero => exact .init e.init
  | succ k ih =>
      obtain ⟨hok, hs⟩ := e.step k e.acts[k] (List.getElem?_eq_getElem hk)
      exact .step (ih (Nat.le_of_succ_le hk)) hok hs

/-- How many of the first `k` actions meet `p` in the state they are made in. -/
def Trace.count (e : M.Trace ok) (p : σ → α → Bool) : ℕ → ℕ
  | 0 => 0
  | k + 1 => e.count p k + if e.acts[k]?.any (p (e.state k)) then 1 else 0

lemma Trace.count_mono (e : M.Trace ok) (p : σ → α → Bool) : Monotone (e.count p) :=
  monotone_nat_of_le_succ fun _ => Nat.le_add_right _ _

/-- The state before action `k` of a schedule that starts in `s`. -/
def stateAt (M : Machine σ α) (okb : σ → α → Bool) (s : σ) (as : List α) (k : ℕ) : σ :=
  (M.exec okb (as.take k) s).getD s

lemma exec_take_isSome {okb : σ → α → Bool} {as : List α} {s : σ}
    (h : (M.exec okb as s).isSome) (k : ℕ) : (M.exec okb (as.take k) s).isSome := by
  rw [← List.take_append_drop k as, exec_append] at h
  exact Option.isSome_of_isSome_bind h

/-- A schedule that can be executed, with all its steps passing the test, as a trace. -/
def Trace.ofExec [∀ s a, Decidable (ok s a)] {s : σ} (hs : M.init s) (as : List α)
    (h : (M.exec (fun s a => decide (ok s a)) as s).isSome = true) : M.Trace ok where
  acts := as
  state := M.stateAt (fun s a => decide (ok s a)) s as
  init := hs
  step := by
    intro k a hk
    obtain ⟨s', hs'⟩ := Option.isSome_iff_exists.1 (exec_take_isSome h k)
    obtain ⟨s'', hs''⟩ := Option.isSome_iff_exists.1 (exec_take_isSome h (k + 1))
    have hsucc := hs''
    rw [List.take_add_one, hk, exec_append, hs', Option.bind_some] at hsucc
    simp only [Option.toList_some, exec, decide_eq_true_eq, Option.ite_none_right_eq_some,
      Option.bind_eq_some_iff, Option.some.injEq, exists_eq_right] at hsucc
    simpa only [stateAt, hs', hs'', Option.getD_some] using hsucc

end Machine

/-! ## Mutexes -/

section Mutex

variable {ι τ : Type*} [DecidableEq ι] {t : τ} {owner owner' : ι → Option τ}

/-- Thread `t` keeps, takes or gives back a mutex of the family `owner`.  `c` and `c'` are the
critical section it stands in before and after the step, according to its program counter. -/
inductive MutexStep (t : τ) (owner owner' : ι → Option τ) (c c' : Option ι) : Prop
  | keep (ho : owner' = owner) (hc : c' = c)
  | lock (x : ι) (hx : owner x = none) (h0 : c = none)
      (ho : owner' = Function.update owner x (some t)) (hc : c' = some x)
  | unlock (x : ι) (hx : c = some x) (ho : owner' = Function.update owner x none)
      (hc : c' = none)

/-- Who stands in a critical section owns its mutex, and the step of one thread keeps that. -/
theorem MutexStep.owned (claim claim' : τ → Option ι)
    (hs : MutexStep t owner owner' (claim t) (claim' t))
    (h : ∀ u x, claim u = some x → owner x = some u)
    (hne : ∀ u, u ≠ t → claim' u = claim u) :
    ∀ u x, claim' u = some x → owner' x = some u := by
  intro u x hu
  by_cases hut : u = t
  · subst hut
    cases hs with
    | keep ho hc => rw [ho]; exact h u x (hc ▸ hu)
    | lock y hy h0 ho hc =>
        obtain rfl : y = x := Option.some.inj (hc.symm.trans hu)
        rw [ho, Function.update_self]
    | unlock y hy ho hc => rw [hc] at hu; simp at hu
  · rw [hne u hut] at hu
    have hx := h u x hu
    cases hs with
    | keep ho hc => rw [ho]; exact hx
    | lock y hy h0 ho hc =>
        have hxy : x ≠ y := by
          rintro rfl
          rw [hy] at hx
          simp at hx
        rw [ho, Function.update_of_ne hxy]
        exact hx
    | unlock y hy ho hc =>
        have hxy : x ≠ y := by
          rintro rfl
          exact hut (Option.some.inj ((hx.symm).trans (h t x hy)))
        rw [ho, Function.update_of_ne hxy]
        exact hx

/-- The converse: a mutex that is owned protects somebody's critical section. -/
theorem MutexStep.claimed (claim claim' : τ → Option ι)
    (hs : MutexStep t owner owner' (claim t) (claim' t))
    (h : ∀ u x, owner x = some u → claim u = some x)
    (hne : ∀ u, u ≠ t → claim' u = claim u) :
    ∀ u x, owner' x = some u → claim' u = some x := by
  intro u x hx
  cases hs with
  | keep ho hc =>
      rw [ho] at hx
      by_cases hut : u = t
      · subst hut
        rw [hc]
        exact h u x hx
      · rw [hne u hut]
        exact h u x hx
  | lock y hy h0 ho hc =>
      rw [ho, Function.update_apply] at hx
      split_ifs at hx with hxy
      · obtain rfl := Option.some.inj hx
        rw [hc, hxy]
      · have hux := h u x hx
        have hut : u ≠ t := by
          rintro rfl
          rw [h0] at hux
          simp at hux
        rw [hne u hut]
        exact hux
  | unlock y hy ho hc =>
      rw [ho, Function.update_apply] at hx
      split_ifs at hx with hxy
      have hux := h u x hx
      have hut : u ≠ t := by
        rintro rfl
        exact hxy (Option.some.inj (hux.symm.trans hy))
      rw [hne u hut]
      exact hux

end Mutex

end Multicore
