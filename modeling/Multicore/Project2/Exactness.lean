import Multicore.Project2.Serializability

/-!
# How exact the record values are

The field `value` of a record is an `int64_t`, but `Monitor::read` returns an `int`,
`Monitor::write` takes one, and all locals of `work` are `int`s.  This file compares transactions
executed one after the other through `Monitor::read` and `Monitor::write` with the same
transactions in the integers.  An `int` operation that overflows is taken to wrap around.

* `execute` — the transactions on the monitor; `exactValues` — the same in the integers;
* `value_execute` — what is stored is the exact value, reduced to the 32 bits of an `int`;
* **`values_exact_iff`** — so everything stored and logged is exact if and only if every exact
  value lies in the range of `int`; the range of the field plays no part;
* `values_overflow_int` — values inside the range of `int64_t` that are not stored exactly;
* `engine_log_values` — the log of the engine shows the same reduced values, whatever the threads
  do at the same time.
-/

namespace Multicore.Project2

variable {N R : ℕ} {E : ℤ} {s : State N R}

/-! ## Serial transactions -/

/-- The three records of a transaction. -/
structure Triple (R : ℕ) where
  i : Fin R
  j : Fin R
  k : Fin R

/-- What one transaction of `work` does to the records: `j := j + i + 1`, then `k := k - i`. -/
def Monitor.transact (m : Monitor N R) (x : Triple R) : Monitor N R :=
  let iValue := m.read x.i
  let jValue := m.read x.j
  let m := m.write x.j (jValue + iValue + 1)
  let kValue := m.read x.k
  m.write x.k (kValue - iValue)

/-- The monitor after the transactions, one after the other. -/
def execute (xs : List (Triple R)) : Monitor N R := xs.foldl Monitor.transact Monitor.init

/-- One transaction in the integers. -/
def exactStep (v : Fin R → ℤ) (x : Triple R) : Fin R → ℤ :=
  let iValue := v x.i
  let v := Function.update v x.j (v x.j + iValue + 1)
  Function.update v x.k (v x.k - iValue)

/-- The exact record values after the transactions. -/
def exactValues (xs : List (Triple R)) : Fin R → ℤ := xs.foldl exactStep fun _ => 100

lemma execute_append (xs : List (Triple R)) (x : Triple R) :
    (execute (xs ++ [x]) : Monitor N R) = (execute xs).transact x := by
  simp [execute]

lemma exactValues_append (xs : List (Triple R)) (x : Triple R) :
    exactValues (xs ++ [x]) = exactStep (exactValues xs) x := by
  simp [exactValues]

/-! ## What is stored -/

/-- The monitor stores the values `v` up to the 32 bits of an `int`. -/
def Monitor.Stores (m : Monitor N R) (v : Fin R → ℤ) : Prop :=
  ∀ y, (m.records y).value.toInt = toInt (v y)

/-- Reading a record returns what is stored. -/
lemma Monitor.Stores.read {m : Monitor N R} {v : Fin R → ℤ} (h : m.Stores v) (y : Fin R) :
    (m.read y).toInt = toInt (v y) := by
  rw [Monitor.read, Record.read, Int64.toInt_toInt32, h y, toInt, Int.bmod_bmod]

lemma Monitor.Stores.write {m : Monitor N R} {v : Fin R → ℤ} (h : m.Stores v) (x : Fin R)
    {value : Int32} {z : ℤ} (hz : value.toInt = toInt z) :
    (m.write x value).Stores (Function.update v x z) := by
  intro y
  simp only [Monitor.write, Function.update_apply]
  split_ifs
  · rw [Record.set, Int32.toInt_toInt64, hz]
  · exact h y

/-- One transaction keeps the agreement. -/
lemma Monitor.Stores.transact {m : Monitor N R} {v : Fin R → ℤ} (h : m.Stores v) (x : Triple R) :
    (m.transact x).Stores (exactStep v x) := by
  have hj : (m.write x.j (m.read x.j + m.read x.i + 1)).Stores
      (Function.update v x.j (v x.j + v x.i + 1)) := by
    refine h.write x.j ?_
    rw [Int32.toInt_add, Int32.toInt_add, h.read, h.read, Int32.toInt_one]
    simp only [toInt, Int.bmod_add_bmod, Int.add_bmod_bmod]
  refine hj.write x.k ?_
  rw [Int32.toInt_sub, hj.read, h.read, toInt, toInt, Int.bmod_sub_bmod, Int.sub_bmod_bmod, toInt]

/-- **What is stored is the exact value reduced to 32 bits.** -/
theorem value_execute (xs : List (Triple R)) :
    (execute xs : Monitor N R).Stores (exactValues xs) := by
  induction xs using List.reverseRecOn with
  | nil => exact fun y => rfl
  | append_singleton xs x ih =>
      rw [execute_append, exactValues_append]
      exact ih.transact x

/-! ## When it is exact -/

/-- After every transaction all stored values are exact, and so are the three values its log line
shows. -/
structure ShowsExact (N : ℕ) (xs : List (Triple R)) : Prop where
  stored : ∀ n ≤ xs.length, ∀ y,
    ((execute (xs.take n) : Monitor N R).records y).value.toInt = exactValues (xs.take n) y
  logged : ∀ n x, xs[n]? = some x → ∀ y ∈ [x.i, x.j, x.k],
    ((execute (xs.take (n + 1)) : Monitor N R).read y).toInt = exactValues (xs.take (n + 1)) y

/-- **The record values are exact if and only if they fit into an `int`.** -/
theorem values_exact_iff (N : ℕ) (xs : List (Triple R)) :
    ShowsExact N xs ↔ ∀ n ≤ xs.length, ∀ y, IsInt (exactValues (xs.take n) y) := by
  constructor
  · intro h n hn y
    rw [← toInt_eq_self_iff, ← value_execute (N := N) (xs.take n) y]
    exact h.stored n hn y
  · intro h
    refine ⟨fun n hn y => ?_, fun n x hx y _ => ?_⟩
    · rw [value_execute (xs.take n) y, toInt_eq_self_iff]
      exact h n hn y
    · have hn : n < xs.length := (List.getElem?_eq_some_iff.mp hx).1
      rw [(value_execute (xs.take (n + 1))).read y, toInt_eq_self_iff]
      exact h (n + 1) hn y

-- the three records below are literals of `Fin 3`
local instance instNeZeroThree : NeZero 3 := ⟨by decide⟩

/-- Records `0` and `1` are added to each other in turn. -/
def growing (n : ℕ) : List (Triple 3) :=
  (List.range n).map fun c => if c % 2 = 0 then ⟨0, 1, 2⟩ else ⟨1, 0, 2⟩

/-- Every value is inside the range of `int64_t`, and the last one is not stored. -/
theorem values_overflow_int :
    (∀ n ≤ (growing 36).length, ∀ y,
      -2 ^ 63 ≤ exactValues ((growing 36).take n) y ∧
        exactValues ((growing 36).take n) y < 2 ^ 63) ∧
    ¬ ShowsExact 1 (growing 36) := by
  refine ⟨by decide +kernel, fun h => ?_⟩
  have hlast := h.stored 36 (by decide) 0
  revert hlast
  decide +kernel

/-! ## The log of the engine -/

/-- The records of a logged transaction. -/
def LogLine.triple (l : LogLine R) : Triple R := ⟨l.i, l.j, l.k⟩

/-- The serial executions the log is compared with are transactions on the monitor. -/
lemma read_execute (log : List (LogLine R)) (h : ∀ l ∈ log, l.i ≠ l.j) :
    (execute (log.map LogLine.triple) : Monitor N R).read = serial log := by
  induction log using List.reverseRecOn with
  | nil => rfl
  | append_singleton log l ih =>
      have hij := h l (by simp)
      rw [List.map_append, List.map_singleton, execute_append, serial_append,
        ← ih fun l' hl' => h l' (by simp [hl'])]
      funext y
      simp only [Monitor.transact, LogLine.triple, serialStep, Monitor.write_read,
        Function.update_apply, hij, if_false]

/-- A logged transaction reads another record than it adds to. -/
lemma lines_distinct (hs : (engine N R E).Reachable s) : ∀ l ∈ s.lines, l.i ≠ l.j := by
  refine Machine.Run.invariant (I := fun s => ∀ l ∈ s.lines, l.i ≠ l.j) (fun s h0 => ?_)
    (fun s a s' hr hi _ hstep => ?_) s hs
  · simp [State.lines, h0.2.2.2.1]
  · have hm : Move E s a.tid s' := move_of_step hstep
    by_cases hpc : (s.thread a.tid).pc = .commit
    · have hown := (locksInv_of_reachable hr).base.own a.tid
      have hij := (hown.distinct (by rw [hpc]; trivial)).1
      have hs' : s' = commitStep E s a.tid := by
        simp only [engine, stepThread, hpc, Option.some.injEq] at hstep
        exact hstep.symm
      subst hs'
      rw [State.lines, commitStep_outFile]
      split_ifs
      · simp only [List.map_append, List.map_cons, List.map_nil, List.mem_append,
          List.mem_singleton]
        rintro l (hl | rfl)
        · exact hi l hl
        · exact hij
      · exact hi
    · rw [State.lines, (hm.count hpc).2.1]
      exact hi

/-- **The log of every run** shows the exact values of the transactions logged so far, reduced to
32 bits. -/
theorem engine_log_values (hs : (engine N R E).Reachable s) {c : ℕ} {l : LogLine R}
    (hl : s.lines[c]? = some l) {y : Fin R} {value : Int32}
    (hy : (y, value) ∈ [(l.i, l.iValue), (l.j, l.jValue), (l.k, l.kValue)]) :
    value.toInt = toInt (exactValues ((s.lines.take (c + 1)).map LogLine.triple) y) := by
  have hshows := (dataInv_of_reachable hs).shows c l hl
  have hread := read_execute (N := N) (s.lines.take (c + 1)) fun l' hl' =>
    lines_distinct hs l' (List.mem_of_mem_take hl')
  rw [← (value_execute (N := N) _).read y, hread]
  simp only [List.mem_cons, Prod.mk.injEq, List.not_mem_nil, or_false] at hy
  rcases hy with ⟨rfl, rfl⟩ | ⟨rfl, rfl⟩ | ⟨rfl, rfl⟩
  · exact congrArg Int32.toInt hshows.1
  · exact congrArg Int32.toInt hshows.2.1
  · exact congrArg Int32.toInt hshows.2.2

end Multicore.Project2
