import Multicore.Lab04.PrimeMt

/-!
# The prime counter of the thread pool

`lab07/prime_threadgroup.cpp` answers the same input lines as `lab04/prime_mt.cpp`, but one job of
a thread pool counts the primes of a whole line, and posts a job of its own that prints the line.
The loop of the job stops before the end of the range; the last worker of `prime_mt.cpp` includes
it.

* `threadFunc` — the job, with what it hands to `Print`.  `IsPrime` is that of `lab04`.
* **`counters_agree_iff`** — the two programs report the same number exactly if the end of the
  range is not a prime.
-/

namespace Multicore.Lab07

open Lab04 Lab04.PrimeMt

/-- The arguments of `Print`. -/
structure Line where
  result : ℤ
  start : ℤ
  stop : ℤ
  sequence : ℕ
  deriving DecidableEq

/-- `ThreadFunc`.  The `long` that it counts with becomes the `int result` of `Print`. -/
def threadFunc (start stop : ℤ) (sequence : ℕ) : Line where
  result := toInt (countFrom start (stop - start).toNat)
  start := start
  stop := stop
  sequence := sequence

lemma result_threadFunc {start stop : ℤ} (h : IsInt stop) (sequence : ℕ) :
    (threadFunc start stop sequence).result = primesIn start stop := by
  show toInt _ = _
  rw [countFrom_eq, toInt_of_isInt (isInt_primesIn h)]

/-- **Where the two counters agree.**  On an input line that does not overflow, the number that the
job of the thread pool reports is the one that `prime_mt.cpp` prints if and only if the end of the
range is not a prime. -/
theorem counters_agree_iff (rangeStart rangeEnd : ℤ) (hstop : rangeStart ≠ -1)
    (hle : rangeStart ≤ rangeEnd) (h : NoOverflow rangeStart rangeEnd) (sequence : ℕ) :
    PrimeMt.main [rangeStart, rangeEnd, -1] =
        some [(threadFunc rangeStart rangeEnd sequence).result] ↔
      ¬ rangeEnd.toNat.Prime := by
  have hmain : PrimeMt.main [rangeStart, rangeEnd, -1] =
      some [(primesIn rangeStart (rangeEnd + 1) : ℤ)] := by
    rw [PrimeMt.main, if_neg hstop, h.collect_numThread]
    rfl
  have hadd := primesIn_add hle (show rangeEnd ≤ rangeEnd + 1 by omega)
  rw [primesIn_succ] at hadd
  rw [hmain, result_threadFunc h.stop, ← hadd, Option.some.injEq, List.cons.injEq,
    Nat.cast_inj]
  split_ifs with hp <;> simp [hp]

/-- In the range from `2` to `4` both find two primes. -/
theorem counters_agree_four :
    PrimeMt.main [2, 4, -1] = some [(threadFunc 2 4 0).result] :=
  (counters_agree_iff 2 4 (by decide) (by decide) (by constructor <;> decide) 0).2 (by decide)

/-- For the line `2 3` one program prints two, the other one. -/
theorem counters_differ :
    NoOverflow 2 3 ∧ PrimeMt.main [2, 3, -1] = some [2] ∧ (threadFunc 2 3 0).result = 1 :=
  ⟨by constructor <;> decide, by decide +kernel, by decide +kernel⟩

end Multicore.Lab07
