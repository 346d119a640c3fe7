import Mathlib.Tactic

/-!
# What a worker counts

The function `IsPrime` and the split of a range into sub-ranges, which the programs of `lab04`
share.  `int` is `ℤ` here: an overflow is undefined in the source.

* `isPrime` — trial division up to the square root.
* `subStart`, `subEnd` — the sub-range of a worker; the last worker also gets what the division
  leaves over.
* `cntPrime` — the count that a worker stores.
-/

namespace Multicore.Lab04

/-- `for (int i = 2; i <= sqrt(n); i++)`; the first argument bounds the rounds. -/
def noDivisorFrom (n : ℤ) : ℕ → ℤ → Bool
  | 0, _ => true
  | fuel + 1, i =>
      if i * i ≤ n then
        if n.tmod i = 0 then false else noDivisorFrom n fuel (i + 1)
      else
        true

/-- `IsPrime` -/
def isPrime (n : ℤ) : Bool := if n < 2 then false else noDivisorFrom n n.toNat 2

variable (numThread : ℕ)

/-- `start` of worker `tid` -/
def subStart (rangeStart rangeEnd : ℤ) (tid : ℕ) : ℤ :=
  rangeStart + (rangeEnd - rangeStart).tdiv numThread * tid

/-- `end` of worker `tid` -/
def subEnd (rangeStart rangeEnd : ℤ) (tid : ℕ) : ℤ :=
  if tid = numThread - 1 then rangeEnd + 1
  else rangeStart + (rangeEnd - rangeStart).tdiv numThread * (tid + 1)

/-- `for (int i = start; i < end; i++) if (IsPrime(i)) cnt_prime++;` with `n` rounds to go -/
def countFrom (i : ℤ) : ℕ → ℤ
  | 0 => 0
  | n + 1 => (if isPrime i then 1 else 0) + countFrom (i + 1) n

/-- `cnt_prime` of worker `tid` -/
def cntPrime (range : ℤ × ℤ) (tid : ℕ) : ℤ :=
  countFrom (subStart numThread range.1 range.2 tid)
    (subEnd numThread range.1 range.2 tid - subStart numThread range.1 range.2 tid).toNat

end Multicore.Lab04
