import Multicore.Lib.Int32
import Multicore.Lib.Liveness
import Multicore.Project3.Stamps
import Multicore.Project3.WaitFree

/-!
# The program around the snapshot object

`project3/threadpool.cpp`: `ThreadPool::run` creates the threads, sleeps, sets the flag `exit`,
joins the threads and adds up their counts.  Each thread runs `ThreadPool::work`: as long as it
reads the flag as `false` it draws a number, calls `update` with it and counts; at the end it stores
its count in `updateCounts`.

A state of the pool holds a state of the snapshot object, and the steps of a thread in `update` are
the steps of that object.  The flag is a plain `bool`; its reads and its write are single steps
here.  `sleep_for` takes no step: the flag may be set at any moment.  The array `updateCounts` comes
from `new int[numThreads]` and holds anything at first.

* `snapshot_run` — the pool drives the snapshot object as it may be driven, so that all that is
  known about the runs of the object holds in the pool;
* **`run_returns_updates`** — what `run` returns is the number of updates that have been stored, as
  an `int`;
* **`run_returns_after_exit`** — once the flag is set, no schedule can go on for long: there is a
  bound on the steps, each thread stores at most one more value, and when nothing can move any more
  `run` has returned.
-/

namespace Multicore.Project3

/-- A thread that moves on in `update` returns from it exactly when it stores its value. -/
lemma Move.go_cases {n : ℕ} {V : Type*} [Zero V] {s s' : State n V} {t : Fin n}
    (hm : Move s t (.go t) s') :
    s.pc t ≠ .idle ∧ ((∃ v, s.pc t = .write v ∧ s'.pc t = .idle) ∨
      ((∀ v, s.pc t ≠ .write v) ∧ s'.pc t ≠ .idle)) := by
  cases hm with
  | first i hpc => simp [hpc]
  | turn hpc hi => simp [hpc]
  | again i hpc => simp [hpc]
  | @compare value moved oldCopy newCopy i hpc hi =>
      rw [setPc_self, compare_eq_scanRound]
      cases scanRound moved oldCopy newCopy <;> simp [hpc]
  | scanned hpc => simp [hpc]
  | write hpc => simp [hpc]

/-- How many steps a thread still makes before it has returned from `update`. -/
def Pc.stepsLeft {n : ℕ} {V : Type*} : Pc n V → ℕ
  | .idle => 0
  | .write _ => 1
  | .scanned _ _ => 2
  | pc => pc.rank + 2

/-- **`update` is wait-free**: every step of a thread in it brings it nearer to the end. -/
lemma Move.stepsLeft_lt {n : ℕ} {V : Type*} [Zero V] {s s' : State n V} {t : Fin n}
    (hm : Move s t (.go t) s') : (s'.pc t).stepsLeft < (s.pc t).stepsLeft := by
  have hrank := hm.rank_lt
  cases hm with
  | first i hpc =>
      rw [setPc_self, hpc] at hrank ⊢
      exact Nat.add_lt_add_right (hrank rfl) 2
  | turn hpc hi =>
      rw [setPc_self, hpc] at hrank ⊢
      exact Nat.add_lt_add_right (hrank rfl) 2
  | again i hpc =>
      rw [setPc_self, hpc] at hrank ⊢
      exact Nat.add_lt_add_right (hrank rfl) 2
  | @compare value moved oldCopy newCopy i hpc hi =>
      rw [setPc_self, hpc, compare_eq_scanRound] at hrank ⊢
      have hlt := hrank rfl
      cases hround : scanRound moved oldCopy newCopy with
      | returned snap =>
          rw [hround] at hlt
          exact Nat.add_lt_add_right ((Nat.zero_le _).trans_lt hlt) 2
      | running moved' oldCopy' =>
          rw [hround] at hlt
          exact Nat.add_lt_add_right hlt 2
  | scanned hpc =>
      rw [setPc_self, hpc]
      exact Nat.lt_succ_self 1
  | write hpc =>
      simp only [Function.update_self, hpc]
      exact Nat.lt_succ_self 0

lemma Pc.stepsLeft_le {n : ℕ} {V : Type*} (pc : Pc n V) :
    pc.stepsLeft ≤ (n + 1) * (n + 2) + 2 := by
  cases pc with
  | first value i oldCopy =>
      have : (n + 1) * (n + 2) = (n + 1) * (n + 1) + (n + 1) := by ring
      simp only [Pc.stepsLeft, Pc.rank]
      omega
  | again value moved oldCopy i newCopy =>
      have hle : unmarked moved ≤ n := (Finset.card_filter_le _ _).trans_eq (by simp)
      have := Nat.mul_le_mul_right (n + 1) hle
      have : (n + 1) * (n + 2) = n * (n + 1) + 2 * (n + 1) := by ring
      simp only [Pc.stepsLeft, Pc.rank]
      omega
  | idle => exact Nat.zero_le _
  | scanned value snap => exact Nat.le_add_left 2 _
  | write newValue => exact (Nat.le_succ 1).trans (Nat.le_add_left 2 _)

namespace ThreadPool

variable {n : ℕ}

/-- Where a thread stands in `work`. -/
inductive WorkPc
  /-- not created yet -/
  | unborn
  /-- about to read the flag -/
  | test (updateCount : ℤ)
  /-- about to draw a number and call `update` with it -/
  | call (updateCount : ℤ)
  /-- in `update`, or about to count it -/
  | update (updateCount : ℤ)
  /-- about to store the count -/
  | save (updateCount : ℤ)
  | done
deriving DecidableEq

/-- Where the main thread stands in `run`. -/
inductive RunPc
  /-- about to create thread `i`, or to set the flag -/
  | spawn (i : ℕ)
  | join (i : ℕ)
  | sum (i : ℕ) (sumUpdateCount : ℤ)
  | returned (sumUpdateCount : ℤ)

/-- The fields of `ThreadPool`, and where the threads stand. -/
structure State (n : ℕ) where
  snapshot : Project3.State n ℤ
  exit : Bool
  updateCounts : Fin n → ℤ
  work : Fin n → WorkPc
  run : RunPc

/-- The main thread moves, a thread draws a number and calls `update`, or it takes another step. -/
inductive Act (n : ℕ)
  | run
  | get (tid : Fin n) (newValue : ℤ)
  | work (tid : Fin n)

/-- The next step of `run`. -/
def State.runStep (s : State n) : Option (State n) :=
  match s.run with
  | .spawn i =>
      if h : i < n then
        some { s with work := Function.update s.work ⟨i, h⟩ (.test 0), run := .spawn (i + 1) }
      else
        some { s with exit := true, run := .join 0 }
  | .join i =>
      if h : i < n then
        if s.work ⟨i, h⟩ = .done then some { s with run := .join (i + 1) } else none
      else
        some { s with run := .sum 0 0 }
  | .sum i sumUpdateCount =>
      if h : i < n then
        some { s with run := .sum (i + 1) (toInt (sumUpdateCount + s.updateCounts ⟨i, h⟩)) }
      else
        some { s with run := .returned sumUpdateCount }
  | .returned _ => none

/-- One step of the program. -/
def State.step (s : State n) : Act n → Option (State n)
  | .run => s.runStep
  | .get tid newValue =>
      match s.work tid with
      | .call updateCount =>
          ((Project3.snapshot n ℤ).step s.snapshot (.update tid newValue)).map fun snapshot =>
            { s with snapshot := snapshot
                     work := Function.update s.work tid (.update updateCount) }
      | _ => none
  | .work tid =>
      match s.work tid with
      | .test updateCount =>
          let pc := if s.exit then WorkPc.save updateCount else .call updateCount
          some { s with work := Function.update s.work tid pc }
      | .update updateCount =>
          match s.snapshot.pc tid with
          | .idle =>
              some { s with work := Function.update s.work tid (.test (toInt (updateCount + 1))) }
          | _ =>
              ((Project3.snapshot n ℤ).step s.snapshot (.go tid)).map fun snapshot =>
                { s with snapshot := snapshot }
      | .save updateCount =>
          some { s with updateCounts := Function.update s.updateCounts tid updateCount
                        work := Function.update s.work tid .done }
      | _ => none

/-- The state after the constructor. -/
def State.start (updateCounts : Fin n → ℤ) : State n :=
  { snapshot := Project3.State.start n ℤ, exit := false, updateCounts := updateCounts,
    work := fun _ => .unborn, run := .spawn 0 }

/-- The program with `n` threads. -/
def pool (n : ℕ) : Machine (State n) (Act n) where
  init s := ∃ updateCounts, s = State.start updateCounts
  step := State.step

/-! ## What the steps do -/

/-- What the program can do in one step. -/
inductive Move (s : State n) : Act n → State n → Prop
  | spawn (i : Fin n) (hrun : s.run = .spawn i) :
      Move s .run { s with work := Function.update s.work i (.test 0), run := .spawn (i + 1) }
  | exit {i : ℕ} (hrun : s.run = .spawn i) (hi : n ≤ i) :
      Move s .run { s with exit := true, run := .join 0 }
  | join (i : Fin n) (hrun : s.run = .join i) (hdone : s.work i = .done) :
      Move s .run { s with run := .join (i + 1) }
  | joined {i : ℕ} (hrun : s.run = .join i) (hi : n ≤ i) :
      Move s .run { s with run := .sum 0 0 }
  | add {acc : ℤ} (i : Fin n) (hrun : s.run = .sum i acc) :
      Move s .run { s with run := .sum (i + 1) (toInt (acc + s.updateCounts i)) }
  | ret {i : ℕ} {acc : ℤ} (hrun : s.run = .sum i acc) (hi : n ≤ i) :
      Move s .run { s with run := .returned acc }
  | test {t : Fin n} {c : ℤ} (hwork : s.work t = .test c) :
      Move s (.work t)
        { s with work := Function.update s.work t (if s.exit then .save c else .call c) }
  | call {t : Fin n} {c : ℤ} {newValue : ℤ} {snapshot : Project3.State n ℤ}
      (hwork : s.work t = .call c)
      (hstep : (Project3.snapshot n ℤ).step s.snapshot (.update t newValue) = some snapshot) :
      Move s (.get t newValue)
        { s with snapshot := snapshot, work := Function.update s.work t (.update c) }
  | go {t : Fin n} {c : ℤ} {snapshot : Project3.State n ℤ} (hwork : s.work t = .update c)
      (hstep : (Project3.snapshot n ℤ).step s.snapshot (.go t) = some snapshot) :
      Move s (.work t) { s with snapshot := snapshot }
  | count {t : Fin n} {c : ℤ} (hwork : s.work t = .update c) (hpc : s.snapshot.pc t = .idle) :
      Move s (.work t) { s with work := Function.update s.work t (.test (toInt (c + 1))) }
  | save {t : Fin n} {c : ℤ} (hwork : s.work t = .save c) :
      Move s (.work t) { s with updateCounts := Function.update s.updateCounts t c
                                work := Function.update s.work t .done }

lemma move_of_runStep {s s' : State n} (h : s.runStep = some s') : Move s .run s' := by
  unfold State.runStep at h
  cases hrun : s.run with
  | spawn i =>
      rw [hrun] at h
      by_cases hi : i < n
      · simp only [dif_pos hi, Option.some.injEq] at h
        exact h ▸ .spawn ⟨i, hi⟩ hrun
      · simp only [dif_neg hi, Option.some.injEq] at h
        exact h ▸ .exit hrun (not_lt.1 hi)
  | join i =>
      rw [hrun] at h
      by_cases hi : i < n
      · simp only [dif_pos hi, Option.ite_none_right_eq_some, Option.some.injEq] at h
        exact h.2 ▸ .join ⟨i, hi⟩ hrun h.1
      · simp only [dif_neg hi, Option.some.injEq] at h
        exact h ▸ .joined hrun (not_lt.1 hi)
  | sum i acc =>
      rw [hrun] at h
      by_cases hi : i < n
      · simp only [dif_pos hi, Option.some.injEq] at h
        exact h ▸ .add ⟨i, hi⟩ hrun
      · simp only [dif_neg hi, Option.some.injEq] at h
        exact h ▸ .ret hrun (not_lt.1 hi)
  | returned acc => simp [hrun] at h

/-- Every step is one of these. -/
theorem move_of_step {s s' : State n} {a : Act n} (h : (pool n).step s a = some s') :
    Move s a s' := by
  simp only [pool] at h
  cases a with
  | run => exact move_of_runStep h
  | get t newValue =>
      cases hwork : s.work t <;>
        simp only [State.step, hwork, Option.map_eq_some_iff, reduceCtorEq] at h
      obtain ⟨snapshot, hstep, rfl⟩ := h
      exact .call hwork hstep
  | work t =>
      cases hwork : s.work t with
      | test c =>
          simp only [State.step, hwork, Option.some.injEq] at h
          exact h ▸ .test hwork
      | update c =>
          cases hpc : s.snapshot.pc t with
          | idle =>
              simp only [State.step, hwork, hpc, Option.some.injEq] at h
              exact h ▸ .count hwork hpc
          | _ =>
              simp only [State.step, hwork, hpc, Option.map_eq_some_iff] at h
              obtain ⟨snapshot, hstep, rfl⟩ := h
              exact .go hwork hstep
      | save c =>
          simp only [State.step, hwork, Option.some.injEq] at h
          exact h ▸ .save hwork
      | unborn => simp [State.step, hwork] at h
      | call c => simp [State.step, hwork] at h
      | done => simp [State.step, hwork] at h

/-! ## The phases of `run` -/

/-- How far the threads are when the main thread stands at `run`. -/
def Phase (s : State n) : RunPc → Prop
  | .spawn i => s.exit = false ∧ ∀ t : Fin n, s.work t = .unborn ↔ i ≤ t.val
  | .join i => s.exit = true ∧ (∀ t, s.work t ≠ .unborn) ∧ ∀ t : Fin n, t.val < i → s.work t = .done
  | .sum _ _ => s.exit = true ∧ ∀ t, s.work t = .done
  | .returned _ => s.exit = true ∧ ∀ t, s.work t = .done

/-- Outside of `update` a thread is idle for the snapshot object, and the threads are as far as the
main thread knows. -/
structure Inv (s : State n) : Prop where
  phase : Phase s s.run
  idle : ∀ t, (∀ c, s.work t ≠ .update c) → s.snapshot.pc t = .idle

/-- A thread that is neither unborn nor done moves, and is not unborn then. -/
lemma Phase.thread {s s' : State n} {run : RunPc} {t : Fin n} {pc : WorkPc} (h : Phase s run)
    (hexit : s'.exit = s.exit) (hwork : s'.work = Function.update s.work t pc)
    (hborn : s.work t ≠ .unborn) (hrunning : s.work t ≠ .done) (hpc : pc ≠ .unborn) :
    Phase s' run := by
  cases run with
  | spawn i =>
      refine ⟨hexit.trans h.1, fun u => ?_⟩
      rw [hwork]
      by_cases hut : u = t
      · rw [hut, Function.update_self, ← h.2 t]
        exact iff_of_false hpc hborn
      · rw [Function.update_of_ne hut]
        exact h.2 u
  | join i =>
      refine ⟨hexit.trans h.1, fun u => ?_, fun u hu => ?_⟩
      · rw [hwork]
        by_cases hut : u = t
        · rw [hut, Function.update_self]
          exact hpc
        · rw [Function.update_of_ne hut]
          exact h.2.1 u
      · have hut : u ≠ t := by
          rintro rfl
          exact hrunning (h.2.2 u hu)
        rw [hwork, Function.update_of_ne hut]
        exact h.2.2 u hu
  | sum i acc => exact absurd (h.2 t) hrunning
  | returned acc => exact absurd (h.2 t) hrunning

/-- A thread that changes its place keeps idle the threads that were. -/
lemma Inv.thread {s s' : State n} {t : Fin n} {pc : WorkPc} (h : Inv s) (hrun : s'.run = s.run)
    (hexit : s'.exit = s.exit) (hwork : s'.work = Function.update s.work t pc)
    (hborn : s.work t ≠ .unborn) (hrunning : s.work t ≠ .done) (hpc : pc ≠ .unborn)
    (hothers : ∀ u, u ≠ t → s'.snapshot.pc u = s.snapshot.pc u)
    (hself : (∀ c, pc ≠ .update c) → s'.snapshot.pc t = .idle) : Inv s' := by
  refine ⟨?_, fun u hu => ?_⟩
  · rw [hrun]
    exact h.phase.thread hexit hwork hborn hrunning hpc
  · rw [hwork] at hu
    by_cases hut : u = t
    · rw [hut] at hu ⊢
      simp only [Function.update_self] at hu
      exact hself hu
    · rw [Function.update_of_ne hut] at hu
      rw [hothers u hut]
      exact h.idle u hu

lemma Inv.move {s s' : State n} {a : Act n} (h : Inv s) (hm : Move s a s') : Inv s' := by
  have hphase := h.phase
  cases hm with
  | spawn i hrun =>
      rw [hrun] at hphase
      have hidle : s.snapshot.pc i = .idle := by
        refine h.idle i fun c hc => ?_
        rw [(hphase.2 i).2 le_rfl] at hc
        exact WorkPc.noConfusion hc
      refine ⟨⟨hphase.1, fun u => ?_⟩, fun u hu => ?_⟩
      · by_cases hui : u = i
        · simp [hui]
        · have hne : u.val ≠ i.val := fun heq => hui (Fin.ext heq)
          simp only [Function.update_of_ne hui, hphase.2 u]
          omega
      · by_cases hui : u = i
        · rw [hui]
          exact hidle
        · simp only [Function.update_of_ne hui] at hu
          exact h.idle u hu
  | exit hrun hi =>
      rw [hrun] at hphase
      refine ⟨⟨rfl, fun t ht => ?_, fun t ht => absurd ht (Nat.not_lt_zero _)⟩, h.idle⟩
      have := (hphase.2 t).1 ht
      omega
  | join i hrun hdone =>
      rw [hrun] at hphase
      refine ⟨⟨hphase.1, hphase.2.1, fun t ht => ?_⟩, h.idle⟩
      rcases Nat.lt_succ_iff_lt_or_eq.1 ht with hlt | heq
      · exact hphase.2.2 t hlt
      · rw [show t = i from Fin.ext heq]
        exact hdone
  | joined hrun hi =>
      rw [hrun] at hphase
      exact ⟨⟨hphase.1, fun t => hphase.2.2 t (t.2.trans_le hi)⟩, h.idle⟩
  | add i hrun =>
      rw [hrun] at hphase
      exact ⟨hphase, h.idle⟩
  | ret hrun hi =>
      rw [hrun] at hphase
      exact ⟨hphase, h.idle⟩
  | @test t c hwork =>
      refine h.thread rfl rfl rfl (by simp [hwork]) (by simp [hwork]) ?_ (fun _ _ => rfl)
        fun _ => h.idle t (by simp [hwork])
      split_ifs <;> simp
  | @call t c newValue snapshot hwork hstep =>
      have hm := Project3.move_of_step hstep
      refine h.thread rfl rfl rfl (by simp [hwork]) (by simp [hwork]) (by simp)
        (fun u hu => hm.pc_of_ne hu) fun hc => absurd rfl (hc c)
  | @go t c snapshot hwork hstep =>
      have hm := Project3.move_of_step hstep
      have hsame : s.work = Function.update s.work t (.update c) := by
        rw [← hwork, Function.update_eq_self]
      exact h.thread rfl rfl hsame (by simp [hwork]) (by simp [hwork]) (by simp)
        (fun u hu => hm.pc_of_ne hu) fun hc => absurd rfl (hc c)
  | @count t c hwork hpc =>
      exact h.thread rfl rfl rfl (by simp [hwork]) (by simp [hwork]) (by simp) (fun _ _ => rfl)
        fun _ => hpc
  | @save t c hwork =>
      exact h.thread rfl rfl rfl (by simp [hwork]) (by simp [hwork]) (by simp) (fun _ _ => rfl)
        fun _ => h.idle t (by simp [hwork])

section Run

variable {ok : State n → Act n → Prop} {s : State n}

theorem inv_of_run (hs : (pool n).Run ok s) : Inv s := by
  refine Machine.Run.invariant (I := Inv) ?_ ?_ s hs
  · rintro s ⟨updateCounts, rfl⟩
    exact ⟨⟨rfl, fun t => by simp [State.start]⟩, fun _ _ => rfl⟩
  · intro s a s' _ h _ hstep
    exact h.move (move_of_step hstep)

/-- **The pool runs the snapshot object.** -/
theorem snapshot_run (hs : (pool n).Run ok s) : (Project3.snapshot n ℤ).Reachable s.snapshot := by
  refine Machine.Run.invariant
    (I := fun s => (Project3.snapshot n ℤ).Reachable s.snapshot) ?_ ?_ s hs
  · rintro s ⟨updateCounts, rfl⟩
    exact .init rfl
  · intro s a s' _ h _ hstep
    cases move_of_step hstep with
    | call hwork hsnap => exact .step h trivial hsnap
    | go hwork hsnap => exact .step h trivial hsnap
    | _ => exact h

end Run

/-! ## Counting the updates -/

/-- Does thread `t` store its new value with this action? -/
def stores (t : Fin n) (s : State n) : Act n → Bool
  | .work tid => completes t s.snapshot (.go tid)
  | _ => false

/-- Only a thread in `update` stores a value. -/
lemma stores_iff {t : Fin n} {s : State n} (h : Inv s) {a : Act n} :
    stores t s a = true ↔
      a = .work t ∧ (∃ c, s.work t = .update c) ∧ ∃ v, s.snapshot.pc t = .write v := by
  cases a with
  | run => simp [stores]
  | get tid newValue => simp [stores]
  | work tid =>
      simp only [stores, completes_iff, Act.work.injEq, Project3.Act.go.injEq]
      refine and_congr_right fun _ => ⟨fun hwrite => ⟨?_, hwrite⟩, And.right⟩
      obtain ⟨v, hv⟩ := hwrite
      by_contra hno
      have hidle := h.idle t (by simpa using hno)
      simp [hv] at hidle

lemma not_stores_of_ne {t u : Fin n} {s : State n} (h : t ≠ u) : ¬ stores t s (.work u) := by
  rw [stores, completes_iff]
  exact fun hs => h (Project3.Act.go.inj hs.1).symm

lemma not_stores_of_idle {t : Fin n} {s : State n} {a : Act n} (h : s.snapshot.pc t = .idle) :
    ¬ stores t s a := by
  cases a with
  | work tid => simp [stores, completes, h]
  | _ => exact Bool.false_ne_true

/-- What thread `t` has counted when it has stored `m` values.  In `update` the value is stored
before it is counted. -/
def Tally (s : State n) (t : Fin n) (m : ℕ) : Prop :=
  match s.work t, s.snapshot.pc t with
  | .unborn, _ => m = 0
  | .test c, _ => c = toInt m
  | .call c, _ => c = toInt m
  | .update c, .idle => toInt (c + 1) = toInt m
  | .update c, _ => c = toInt m
  | .save c, _ => c = toInt m
  | .done, _ => s.updateCounts t = toInt m

section Tally

variable {s s' : State n} {t : Fin n} {m : ℕ}

/-- The tally of a thread depends on that thread only. -/
lemma Tally.frame (h : Tally s t m) (hwork : s'.work t = s.work t)
    (hpc : s'.snapshot.pc t = s.snapshot.pc t) (hcounts : s'.updateCounts t = s.updateCounts t) :
    Tally s' t m := by
  unfold Tally at h ⊢
  rw [hwork, hpc, hcounts]
  exact h

lemma Tally.update_of_ne_idle {c : ℤ} (hwork : s.work t = .update c)
    (hpc : s.snapshot.pc t ≠ .idle) : Tally s t m ↔ c = toInt m := by
  unfold Tally
  cases h : s.snapshot.pc t <;> simp_all

lemma Tally.update_of_idle {c : ℤ} (hwork : s.work t = .update c)
    (hpc : s.snapshot.pc t = .idle) : Tally s t m ↔ toInt (c + 1) = toInt m := by
  unfold Tally
  rw [hwork, hpc]

/-- **One step.**  A thread that stores a value has not counted it yet; the next step that it makes
counts it. -/
lemma Tally.move {a : Act n} (hinv : Inv s) (h : Tally s t m) (hm : Move s a s') :
    Tally s' t (m + if stores t s a then 1 else 0) := by
  cases hm with
  | spawn i hrun =>
      by_cases hti : t = i
      · have hphase := hinv.phase
        rw [hrun] at hphase
        have hunborn : s.work t = .unborn := (hphase.2 t).2 (le_of_eq (congrArg Fin.val hti.symm))
        have hm : m = 0 := by
          unfold Tally at h
          simpa only [hunborn] using h
        subst hti hm
        unfold Tally
        simp [stores]
      · exact h.frame (Function.update_of_ne hti _ _) rfl rfl
  | exit hrun hi => exact h
  | join i hrun hdone => exact h
  | joined hrun hi => exact h
  | add i hrun => exact h
  | ret hrun hi => exact h
  | @test u c hwork =>
      by_cases htu : t = u
      · subst htu
        rw [if_neg (not_stores_of_idle (hinv.idle t (by simp [hwork]))), Nat.add_zero]
        have hc : c = toInt m := by
          unfold Tally at h
          simpa only [hwork] using h
        unfold Tally
        cases s.exit <;> simpa using hc
      · rw [if_neg (not_stores_of_ne htu)]
        exact h.frame (Function.update_of_ne htu _ _) rfl rfl
  | @call u c newValue snapshot hwork hsnap =>
      have hpool := Project3.move_of_step hsnap
      by_cases htu : t = u
      · subst htu
        have hc : c = toInt m := by
          unfold Tally at h
          simpa only [hwork] using h
        have hpc : snapshot.pc t ≠ .idle := by
          rw [show snapshot.pc t = .first newValue 0 fun _ => .blank from hpool.of_update.2]
          simp
        exact (Tally.update_of_ne_idle (Function.update_self _ _ _) hpc).2 hc
      · exact h.frame (Function.update_of_ne htu _ _) (hpool.pc_of_ne htu) rfl
  | @go u c snapshot hwork hsnap =>
      have hpool : Project3.Move s.snapshot u (.go u) snapshot := Project3.move_of_step hsnap
      by_cases htu : t = u
      · subst htu
        obtain ⟨hbusy, ⟨v, hv, hpc⟩ | ⟨hv, hpc⟩⟩ := hpool.go_cases
        · have hc := (Tally.update_of_ne_idle hwork hbusy).1 h
          rw [if_pos ((stores_iff hinv).2 ⟨rfl, ⟨c, hwork⟩, v, hv⟩)]
          refine (Tally.update_of_idle (s := { s with snapshot := snapshot }) hwork hpc).2 ?_
          rw [hc, toInt_add_left, Nat.cast_succ]
        · have hc := (Tally.update_of_ne_idle hwork hbusy).1 h
          rw [if_neg fun hs => ((stores_iff hinv).1 hs).2.2.elim hv, Nat.add_zero]
          exact (Tally.update_of_ne_idle (s := { s with snapshot := snapshot }) hwork hpc).2 hc
      · rw [if_neg (not_stores_of_ne htu)]
        exact h.frame rfl (hpool.pc_of_ne htu) rfl
  | @count u c hwork hpc =>
      by_cases htu : t = u
      · subst htu
        rw [if_neg (not_stores_of_idle hpc), Nat.add_zero]
        have hc := (Tally.update_of_idle hwork hpc).1 h
        unfold Tally
        simpa only [Function.update_self] using hc
      · rw [if_neg (not_stores_of_ne htu)]
        exact h.frame (Function.update_of_ne htu _ _) rfl rfl
  | @save u c hwork =>
      by_cases htu : t = u
      · subst htu
        rw [if_neg (not_stores_of_idle (hinv.idle t (by simp [hwork]))), Nat.add_zero]
        have hc : c = toInt m := by
          unfold Tally at h
          simpa only [hwork] using h
        unfold Tally
        simpa only [Function.update_self] using hc
      · rw [if_neg (not_stores_of_ne htu)]
        exact h.frame (Function.update_of_ne htu _ _) rfl (Function.update_of_ne htu _ _)

end Tally

/-! ## What `run` returns -/

/-- How many values thread `t` has stored before action `k`. -/
def updates {ok : State n → Act n → Prop} (e : (pool n).Trace ok) (t : Fin n) (k : ℕ) : ℕ :=
  e.count (stores t) k

/-- What the main thread has added up. -/
def Summed (s : State n) : RunPc → Prop
  | .sum i acc => acc = toInt ((List.ofFn s.updateCounts).take i).sum
  | .returned v => v = toInt (List.ofFn s.updateCounts).sum
  | _ => True

/-- As long as a thread can move the main thread has not begun to add. -/
lemma Summed.of_running {s s' : State n} {run : RunPc} {t : Fin n} (hphase : Phase s run)
    (ht : s.work t ≠ .done) : Summed s' run := by
  cases run with
  | spawn i => trivial
  | join i => trivial
  | sum i acc => exact absurd (hphase.2 t) ht
  | returned v => exact absurd (hphase.2 t) ht

lemma Summed.move {s s' : State n} {a : Act n} (hinv : Inv s) (h : Summed s s.run)
    (hm : Move s a s') : Summed s' s'.run := by
  cases hm with
  | spawn i hrun => trivial
  | exit hrun hi => trivial
  | join i hrun hdone => trivial
  | joined hrun hi => exact toInt_zero.symm
  | @add acc i hrun =>
      rw [hrun] at h
      have hacc : acc = toInt ((List.ofFn s.updateCounts).take i).sum := h
      have hlen : i.val < (List.ofFn s.updateCounts).length := by simp
      show _ = toInt ((List.ofFn s.updateCounts).take (i + 1)).sum
      rw [List.sum_take_succ _ _ hlen, hacc, toInt_add_left, List.getElem_ofFn]
  | @ret i acc hrun hi =>
      rw [hrun] at h
      have hacc : acc = toInt ((List.ofFn s.updateCounts).take i).sum := h
      rwa [List.take_of_length_le (by simpa using hi)] at hacc
  | @test t c hwork => exact .of_running hinv.phase (t := t) (by simp [hwork])
  | @call t c newValue snapshot hwork hsnap =>
      exact .of_running hinv.phase (t := t) (by simp [hwork])
  | @go t c snapshot hwork hsnap => exact .of_running hinv.phase (t := t) (by simp [hwork])
  | @count t c hwork hpc => exact .of_running hinv.phase (t := t) (by simp [hwork])
  | @save t c hwork => exact .of_running hinv.phase (t := t) (by simp [hwork])

section Returned

variable {ok : State n → Act n → Prop}

lemma summed_of_run {s : State n} (hs : (pool n).Run ok s) : Summed s s.run := by
  refine Machine.Run.invariant (I := fun s => Summed s s.run) ?_ ?_ s hs
  · rintro s ⟨updateCounts, rfl⟩
    trivial
  · intro s a s' hs h _ hstep
    exact h.move (inv_of_run hs) (move_of_step hstep)

/-- The threads count what they have stored. -/
lemma tally_of_trace (e : (pool n).Trace ok) (t : Fin n) {k : ℕ} (hk : k ≤ e.acts.length) :
    Tally (e.state k) t (updates e t k) := by
  induction k with
  | zero =>
      obtain ⟨updateCounts, hstart⟩ := e.init
      rw [hstart]
      rfl
  | succ k ih =>
      have hact := List.getElem?_eq_getElem (l := e.acts) hk
      have hm := move_of_step (e.step k _ hact).2
      rw [updates, e.count_succ _ hact]
      exact (ih (Nat.le_of_succ_le hk)).move (inv_of_run (e.run (Nat.le_of_succ_le hk))) hm

/-- **`run` returns the number of updates.**  When it returns, every thread has finished and none is
inside of `update`; the result is the number of values that the threads have stored, as an `int`,
whatever the array of counts held at first and whenever the flag was set. -/
theorem run_returns_updates (e : (pool n).Trace ok) {k : ℕ} {v : ℤ} (hk : k ≤ e.acts.length)
    (hret : (e.state k).run = .returned v) :
    (∀ t, (e.state k).work t = .done ∧ (e.state k).snapshot.pc t = .idle) ∧
      v = toInt (∑ t, (updates e t k : ℤ)) := by
  have hinv := inv_of_run (e.run hk)
  have hphase := hinv.phase
  rw [hret] at hphase
  have hdone := hphase.2
  refine ⟨fun t => ⟨hdone t, hinv.idle t (by simp [hdone t])⟩, ?_⟩
  have hcounts : ∀ t, (e.state k).updateCounts t = toInt (updates e t k) := by
    intro t
    have htally := tally_of_trace e t hk
    unfold Tally at htally
    simpa only [hdone t] using htally
  have hsum := summed_of_run (e.run hk)
  rw [hret] at hsum
  calc v = toInt (List.ofFn (e.state k).updateCounts).sum := hsum
    _ = toInt (∑ t, toInt (updates e t k)) := by simp only [List.sum_ofFn, hcounts]
    _ = toInt (∑ t, (updates e t k : ℤ)) := toInt_sum _ _

end Returned

/-- One thread updates once; the flag is set while it counts. -/
def oneUpdate : List (Act 1) :=
  let t := Fin.last 0
  .run :: .work t :: .get t 7 :: List.replicate 6 (.work t) ++
    .run :: List.replicate 3 (.work t) ++ List.replicate 4 .run

/-- The array of counts holds `-5` at first, and `run` returns `1`. -/
theorem run_returns_updates_one : ∃ e : (pool 1).Trace fun _ _ => True,
    e.acts = oneUpdate ∧ (e.state 17).run = .returned 1 ∧
    (∀ t, (e.state 17).work t = .done ∧ (e.state 17).snapshot.pc t = .idle) ∧
      1 = toInt (∑ t, (updates e t 17 : ℤ)) := by
  let e : (pool 1).Trace fun _ _ => True :=
    Machine.Trace.ofExec (M := pool 1) (s := State.start fun _ => -5) ⟨_, rfl⟩ oneUpdate
      (by decide +kernel)
  have hlen : 17 ≤ e.acts.length := by decide +kernel
  have hret : (e.state 17).run = .returned 1 := rfl
  exact ⟨e, rfl, hret, run_returns_updates e hlen hret⟩

/-! ## After the flag is set -/

/-- How many steps a thread still makes at most once the flag is set. -/
def State.stepsLeft (s : State n) (t : Fin n) : ℕ :=
  match s.work t with
  | .unborn => 0
  | .test _ => 2
  | .call _ => (n + 1) * (n + 2) + 6
  | .update _ => (s.snapshot.pc t).stepsLeft + 3
  | .save _ => 1
  | .done => 0

/-- How many steps the main thread still makes. -/
def RunPc.stepsLeft (n : ℕ) : RunPc → ℕ
  | .spawn i => (n - i) + 1 + (2 * n + 2)
  | .join i => (n - i) + 1 + (n + 1)
  | .sum i _ => (n - i) + 1
  | .returned _ => 0

/-- How many steps all threads together still make. -/
def State.rank (s : State n) : ℕ := s.run.stepsLeft n + ∑ t, s.stepsLeft t

/-- How many values a thread still stores once the flag is set. -/
def State.owes (s : State n) (t : Fin n) : ℕ :=
  match s.work t with
  | .call _ => 1
  | .update _ => min (s.snapshot.pc t).stepsLeft 1
  | _ => 0

section AfterExit

variable {s s' : State n} {t : Fin n} {a : Act n}

lemma stepsLeft_le (s : State n) (t : Fin n) : s.stepsLeft t ≤ (n + 1) * (n + 2) + 6 := by
  unfold State.stepsLeft
  cases s.work t with
  | update c =>
      have := (s.snapshot.pc t).stepsLeft_le
      simp only
      omega
  | _ => simp

/-- The steps left of a thread depend on that thread only. -/
lemma stepsLeft_congr (hwork : s'.work t = s.work t)
    (hpc : s'.snapshot.pc t = s.snapshot.pc t) : s'.stepsLeft t = s.stepsLeft t := by
  unfold State.stepsLeft
  rw [hwork, hpc]

/-- One thread comes nearer to its end, and the others and the main thread stay. -/
lemma rank_lt_of_thread (hrun : s'.run = s.run) (hself : s'.stepsLeft t < s.stepsLeft t)
    (hothers : ∀ u, u ≠ t → s'.stepsLeft u = s.stepsLeft u) : s'.rank < s.rank := by
  have hsum : ∑ u, s'.stepsLeft u < ∑ u, s.stepsLeft u :=
    sum_lt_of_thread hself fun u hu => (hothers u hu).le
  rw [State.rank, State.rank, hrun]
  exact Nat.add_lt_add_left hsum _

/-- **Every step is one step less**, when the flag is set. -/
lemma Move.rank_lt (hm : Move s a s') (hinv : Inv s) (hexit : s.exit = true) :
    s'.rank < s.rank := by
  have hphase := hinv.phase
  cases hm with
  | spawn i hrun =>
      rw [hrun] at hphase
      simp [hphase.1] at hexit
  | exit hrun hi =>
      rw [hrun] at hphase
      simp [hphase.1] at hexit
  | join i hrun hdone =>
      refine Nat.add_lt_add_right ?_ _
      have := i.2
      simp only [hrun, RunPc.stepsLeft]
      omega
  | joined hrun hi =>
      refine Nat.add_lt_add_right ?_ _
      simp only [hrun, RunPc.stepsLeft]
      omega
  | add i hrun =>
      refine Nat.add_lt_add_right ?_ _
      have := i.2
      simp only [hrun, RunPc.stepsLeft]
      omega
  | ret hrun hi =>
      refine Nat.add_lt_add_right ?_ _
      simp only [hrun, RunPc.stepsLeft]
      omega
  | @test t c hwork =>
      refine rank_lt_of_thread (t := t) rfl ?_ fun u hu =>
        stepsLeft_congr (Function.update_of_ne hu _ _) rfl
      simp [State.stepsLeft, hwork, hexit]
  | @call t c newValue snapshot hwork hsnap =>
      have hpool := Project3.move_of_step hsnap
      refine rank_lt_of_thread (t := t) rfl ?_ fun u hu =>
        stepsLeft_congr (Function.update_of_ne hu _ _) (hpool.pc_of_ne hu)
      have := (snapshot.pc t).stepsLeft_le
      simp only [State.stepsLeft, hwork, Function.update_self]
      omega
  | @go t c snapshot hwork hsnap =>
      have hpool : Project3.Move s.snapshot t (.go t) snapshot := Project3.move_of_step hsnap
      refine rank_lt_of_thread (t := t) rfl ?_ fun u hu =>
        stepsLeft_congr rfl (hpool.pc_of_ne hu)
      simp only [State.stepsLeft, hwork]
      exact Nat.add_lt_add_right hpool.stepsLeft_lt 3
  | @count t c hwork hpc =>
      refine rank_lt_of_thread (t := t) rfl ?_ fun u hu =>
        stepsLeft_congr (Function.update_of_ne hu _ _) rfl
      simp [State.stepsLeft, hwork, hpc, Pc.stepsLeft]
  | @save t c hwork =>
      refine rank_lt_of_thread (t := t) rfl ?_ fun u hu =>
        stepsLeft_congr (Function.update_of_ne hu _ _) rfl
      simp [State.stepsLeft, hwork]

/-- What a thread owes depends on that thread only. -/
lemma owes_congr (hwork : s'.work t = s.work t)
    (hpc : s'.snapshot.pc t = s.snapshot.pc t) : s'.owes t = s.owes t := by
  unfold State.owes
  rw [hwork, hpc]

lemma owes_le_one (s : State n) (t : Fin n) : s.owes t ≤ 1 := by
  unfold State.owes
  cases s.work t <;> simp

/-- **A thread that stores a value owes none afterwards**, and nobody gets into debt. -/
lemma Move.owes_add (hm : Move s a s') (hinv : Inv s) (hexit : s.exit = true) :
    s'.owes t + (if stores t s a then 1 else 0) ≤ s.owes t := by
  have hphase := hinv.phase
  cases hm with
  | spawn i hrun =>
      rw [hrun] at hphase
      simp [hphase.1] at hexit
  | exit hrun hi => exact le_rfl
  | join i hrun hdone => exact le_rfl
  | joined hrun hi => exact le_rfl
  | add i hrun => exact le_rfl
  | ret hrun hi => exact le_rfl
  | @test u c hwork =>
      by_cases htu : t = u
      · subst htu
        rw [if_neg (not_stores_of_idle (hinv.idle t (by simp [hwork])))]
        simp [State.owes, hexit]
      · rw [if_neg (not_stores_of_ne htu)]
        exact le_of_eq (owes_congr (Function.update_of_ne htu _ _) rfl)
  | @call u c newValue snapshot hwork hsnap =>
      by_cases htu : t = u
      · subst htu
        have hone : s.owes t = 1 := by simp only [State.owes, hwork]
        rw [hone]
        exact owes_le_one _ t
      · have hpool := Project3.move_of_step hsnap
        exact le_of_eq (owes_congr (Function.update_of_ne htu _ _) (hpool.pc_of_ne htu))
  | @go u c snapshot hwork hsnap =>
      have hpool : Project3.Move s.snapshot u (.go u) snapshot := Project3.move_of_step hsnap
      by_cases htu : t = u
      · subst htu
        have hless := hpool.stepsLeft_lt
        simp only [State.owes, hwork]
        split_ifs with hstores
        · obtain ⟨-, -, v, hv⟩ := (stores_iff hinv).1 hstores
          rw [hv] at hless ⊢
          have hzero : (snapshot.pc t).stepsLeft = 0 := Nat.lt_one_iff.1 hless
          rw [hzero]
          exact le_rfl
        · exact min_le_min_right 1 hless.le
      · rw [if_neg (not_stores_of_ne htu)]
        exact le_of_eq (owes_congr rfl (hpool.pc_of_ne htu))
  | @count u c hwork hpc =>
      by_cases htu : t = u
      · subst htu
        rw [if_neg (not_stores_of_idle hpc)]
        simp [State.owes]
      · rw [if_neg (not_stores_of_ne htu)]
        exact le_of_eq (owes_congr (Function.update_of_ne htu _ _) rfl)
  | @save u c hwork =>
      by_cases htu : t = u
      · subst htu
        rw [if_neg (not_stores_of_idle (hinv.idle t (by simp [hwork])))]
        simp [State.owes]
      · rw [if_neg (not_stores_of_ne htu)]
        exact le_of_eq (owes_congr (Function.update_of_ne htu _ _) rfl)

/-- The flag is never reset. -/
lemma Move.exit_mono (hm : Move s a s') (hexit : s.exit = true) : s'.exit = true := by
  cases hm <;> first | exact hexit | rfl

/-- A thread in `update` can always move. -/
lemma go_isSome {V : Type*} [Zero V] {σ : Project3.State n V} (hbusy : σ.pc t ≠ .idle) :
    ((Project3.snapshot n V).step σ (.go t)).isSome := by
  simp only [Project3.snapshot, Project3.State.step]
  cases hpc : σ.pc t with
  | idle => exact absurd hpc hbusy
  | first value i oldCopy => by_cases hi : i < n <;> simp [Pc.next, hi]
  | again value moved oldCopy i newCopy => by_cases hi : i < n <;> simp [Pc.next, hi]
  | scanned value snap => rfl
  | write newValue => rfl

/-- A thread that has been created can move until it is done. -/
lemma thread_isSome (hinv : Inv s) (hborn : s.work t ≠ .unborn) (hrunning : s.work t ≠ .done) :
    ∃ a, ((pool n).step s a).isSome := by
  cases hwork : s.work t with
  | unborn => exact absurd hwork hborn
  | done => exact absurd hwork hrunning
  | test c => exact ⟨.work t, by simp [pool, State.step, hwork]⟩
  | save c => exact ⟨.work t, by simp [pool, State.step, hwork]⟩
  | call c =>
      have hidle := hinv.idle t (by simp [hwork])
      exact ⟨.get t 0, by
        simp [pool, State.step, hwork, Project3.snapshot, Project3.State.step, hidle]⟩
  | update c =>
      cases hpc : s.snapshot.pc t with
      | idle => exact ⟨.work t, by simp [pool, State.step, hwork, hpc]⟩
      | _ =>
          have hgo := go_isSome (show s.snapshot.pc t ≠ .idle by simp [hpc])
          exact ⟨.work t, by simpa [pool, State.step, hwork, hpc] using hgo⟩

/-- **Nobody waits for ever**: until `run` has returned some thread can move. -/
lemma step_isSome (hinv : Inv s) (hrun : ∀ v, s.run ≠ .returned v) :
    ∃ a, ((pool n).step s a).isSome := by
  have hphase := hinv.phase
  cases hr : s.run with
  | returned v => exact absurd hr (hrun v)
  | spawn i =>
      exact ⟨.run, by by_cases hi : i < n <;> simp [pool, State.step, State.runStep, hr, hi]⟩
  | sum i acc =>
      exact ⟨.run, by by_cases hi : i < n <;> simp [pool, State.step, State.runStep, hr, hi]⟩
  | join i =>
      rw [hr] at hphase
      by_cases hi : i < n
      · by_cases hdone : s.work ⟨i, hi⟩ = .done
        · exact ⟨.run, by simp [pool, State.step, State.runStep, hr, hi, hdone]⟩
        · exact thread_isSome hinv (hphase.2.1 _) hdone
      · exact ⟨.run, by simp [pool, State.step, State.runStep, hr, hi]⟩

/-- When the flag is set the main thread only has to join and to add. -/
lemma rank_le_of_exit (hinv : Inv s) (hexit : s.exit = true) :
    s.rank ≤ n * ((n + 1) * (n + 2) + 6) + 2 * n + 2 := by
  have hrun : s.run.stepsLeft n ≤ 2 * n + 2 := by
    have hphase := hinv.phase
    cases hr : s.run with
    | spawn i =>
        rw [hr] at hphase
        simp [hphase.1] at hexit
    | join i =>
        simp only [RunPc.stepsLeft]
        omega
    | sum i acc =>
        simp only [RunPc.stepsLeft]
        omega
    | returned v => exact Nat.zero_le _
  have hsum : ∑ t, s.stepsLeft t ≤ n * ((n + 1) * (n + 2) + 6) := by
    refine (Finset.sum_le_card_nsmul _ _ _ fun t _ => stepsLeft_le s t).trans_eq ?_
    simp
  rw [State.rank]
  omega

end AfterExit

section Bound

variable {ok : State n → Act n → Prop}

lemma exit_of_le (e : (pool n).Trace ok) {k l : ℕ} (hexit : (e.state k).exit = true) (hkl : k ≤ l)
    (hl : l ≤ e.acts.length) : (e.state l).exit = true := by
  induction l, hkl using Nat.le_induction with
  | base => exact hexit
  | succ l hkl ih =>
      have hact := List.getElem?_eq_getElem (l := e.acts) hl
      exact (move_of_step (e.step l _ hact).2).exit_mono (ih (Nat.le_of_succ_le hl))

/-- **Setting the flag ends the program.**  Whatever the schedule, from then on there is a bound on
the steps of all threads together, every thread stores at most one more value, and a schedule that
cannot be continued ends with `run` having returned. -/
theorem run_returns_after_exit (e : (pool n).Trace ok) {k : ℕ} (hk : k ≤ e.acts.length)
    (hexit : (e.state k).exit = true) :
    e.acts.length ≤ k + (n * ((n + 1) * (n + 2) + 6) + 2 * n + 2) ∧
    (∀ t, updates e t e.acts.length ≤ updates e t k + 1) ∧
    ((∀ a, (pool n).step (e.state e.acts.length) a = none) →
      ∃ v, (e.state e.acts.length).run = .returned v) := by
  -- a step after the flag, with what holds where it is made
  have hstep : ∀ l a, k ≤ l → e.acts[l]? = some a →
      Move (e.state l) a (e.state (l + 1)) ∧ Inv (e.state l) ∧ (e.state l).exit = true := by
    intro l a hkl hact
    have hl : l ≤ e.acts.length := (List.getElem?_eq_some_iff.1 hact).1.le
    exact ⟨move_of_step (e.step l a hact).2, inv_of_run (e.run hl), exit_of_le e hexit hkl hl⟩
  refine ⟨?_, fun t => ?_, fun hstuck => ?_⟩
  · have hpaid := e.count_add_le (fun _ _ => true) State.rank hk le_rfl fun l a hkl hact => by
      obtain ⟨hm, hinv, hx⟩ := hstep l a hkl hact
      simpa using hm.rank_lt hinv hx
    have hbound := rank_le_of_exit (inv_of_run (e.run hk)) hexit
    rw [e.count_true le_rfl, e.count_true hk] at hpaid
    omega
  · have hpaid := e.count_add_le (stores t) (fun s => s.owes t) hk le_rfl fun l a hkl hact => by
      obtain ⟨hm, hinv, hx⟩ := hstep l a hkl hact
      exact hm.owes_add hinv hx
    have hone := owes_le_one (e.state k) t
    simp only [updates]
    omega
  · by_contra hno
    obtain ⟨a, ha⟩ := step_isSome (inv_of_run (e.run le_rfl)) fun v hv => hno ⟨v, hv⟩
    rw [hstuck a] at ha
    exact Bool.noConfusion ha

end Bound

/-- The same run, from the moment at which the flag is set. -/
theorem run_returns_after_exit_one : ∃ e : (pool 1).Trace fun _ _ => True,
    e.acts = oneUpdate ∧ (e.state 10).exit = true ∧
    e.acts.length ≤ 10 + (1 * ((1 + 1) * (1 + 2) + 6) + 2 * 1 + 2) ∧
    (∀ t, updates e t e.acts.length ≤ updates e t 10 + 1) ∧
    ((∀ a, (pool 1).step (e.state e.acts.length) a = none) →
      ∃ v, (e.state e.acts.length).run = .returned v) := by
  let e : (pool 1).Trace fun _ _ => True :=
    Machine.Trace.ofExec (M := pool 1) (s := State.start fun _ => 0) ⟨_, rfl⟩ oneUpdate
      (by decide +kernel)
  have hlen : 10 ≤ e.acts.length := by decide +kernel
  have hexit : (e.state 10).exit = true := by decide +kernel
  exact ⟨e, rfl, hexit, run_returns_after_exit e hlen hexit⟩

end ThreadPool

end Multicore.Project3
