import Mathlib.Algebra.BigOperators.Group.Finset.Basic
import Mathlib.Tactic

/-!
# The type `int`

An `int` has 32 bits.  What does not fit, because a sum overflows or because a wider number is
stored, is reduced to the number in its range that agrees with it modulo `2 ^ 32`.

* `IsInt` — the range of `int`; `toInt` — the reduction.
* **`toInt_eq_self_iff`** — nothing is changed exactly inside of the range.
* `toInt_add_left`, `toInt_add_right`, `toInt_sum` — a sum may be reduced on the way or at its end.
-/

namespace Multicore

/-- The range of `int`. -/
def IsInt (z : ℤ) : Prop := -2 ^ 31 ≤ z ∧ z < 2 ^ 31

instance (z : ℤ) : Decidable (IsInt z) := inferInstanceAs (Decidable (_ ∧ _))

/-- What an `int` holds of a number. -/
def toInt (z : ℤ) : ℤ := z.bmod (2 ^ 32)

variable {z : ℤ}

lemma toInt_eq_self_iff : toInt z = z ↔ IsInt z := by
  constructor
  · intro h
    have hlow : -((2 ^ 32 : ℕ) / 2 : ℤ) ≤ toInt z := Int.le_bmod (by decide)
    have hhigh : toInt z < ((2 ^ 32 : ℕ) + 1 : ℤ) / 2 := Int.bmod_lt (by decide)
    rw [h] at hlow hhigh
    exact ⟨by omega, by omega⟩
  · rintro ⟨hlow, hhigh⟩
    exact Int.bmod_eq_of_le (by omega) (by omega)

lemma toInt_of_isInt (h : IsInt z) : toInt z = z := toInt_eq_self_iff.2 h

/-- A number that is not negative does not grow. -/
lemma toInt_le (h : 0 ≤ z) : toInt z ≤ z := by
  rw [toInt, Int.bmod_def]
  split_ifs <;> omega

@[simp] lemma toInt_zero : toInt 0 = 0 := Int.zero_bmod

@[simp] lemma toInt_add_left (x y : ℤ) : toInt (toInt x + y) = toInt (x + y) :=
  Int.bmod_add_bmod

@[simp] lemma toInt_add_right (x y : ℤ) : toInt (x + toInt y) = toInt (x + y) :=
  Int.add_bmod_bmod

lemma toInt_sum {ι : Type*} (S : Finset ι) (f : ι → ℤ) :
    toInt (∑ i ∈ S, toInt (f i)) = toInt (∑ i ∈ S, f i) := by
  classical
  induction S using Finset.induction_on with
  | empty => simp
  | insert i S hi ih =>
      rw [Finset.sum_insert hi, Finset.sum_insert hi, toInt_add_left, ← toInt_add_right, ih,
        toInt_add_right]

end Multicore
