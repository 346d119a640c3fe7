import Mathlib.Tactic

/-!
# Loops

The body of a loop gives the next state, or the result with which the loop is left.  A measure goes
down with every round, so that the loop is a function.

* `Loop`, `Loop.run` — a loop with its measure, and what it results in.
* **`Loop.exists_last`** — an invariant of the body holds in the round that gives the result.
* `Loop.rounds` — a number of rounds, to compute the result with.
-/

namespace Multicore

/-- The body of a loop, with a measure that goes down. -/
structure Loop (σ ρ β : Type*) [WellFoundedRelation β] where
  body : σ → σ ⊕ ρ
  measure : σ → β
  down : ∀ s s', body s = .inl s' → WellFoundedRelation.rel (measure s') (measure s)

namespace Loop

variable {σ ρ β : Type*} [WellFoundedRelation β] (L : Loop σ ρ β) {s : σ} {r : ρ} {n : ℕ}

/-- What the loop results in. -/
def run (s : σ) : ρ :=
  match _h : L.body s with
  | .inl s' => run s'
  | .inr r => r
termination_by L.measure s
decreasing_by exact L.down s s' _h

lemma run_next {s' : σ} (h : L.body s = .inl s') : L.run s = L.run s' := by
  rw [run.eq_def L s]
  split
  · rename_i next hnext
    rw [Sum.inl.inj (h.symm.trans hnext)]
  · rename_i r hres
    cases h.symm.trans hres

lemma run_result (h : L.body s = .inr r) : L.run s = r := by
  rw [run.eq_def L s]
  split
  · rename_i s' hnext
    cases h.symm.trans hnext
  · rename_i r' hres
    exact Sum.inr.inj (hres.symm.trans h)

/-- **The invariant rule.** -/
theorem exists_last {I : σ → Prop} (hbody : ∀ s s', I s → L.body s = .inl s' → I s') (hs : I s) :
    ∃ s', I s' ∧ L.body s' = .inr (L.run s) := by
  fun_induction run L s with
  | case1 s s' hnext ih => exact ih (hbody s s' hs hnext)
  | case2 s r hres => exact ⟨s, hs, hres⟩

/-- The result, if it comes within `n` rounds. -/
def rounds : ℕ → σ → Option ρ
  | 0, _ => none
  | n + 1, s =>
      match L.body s with
      | .inl s' => rounds n s'
      | .inr r => some r

lemma run_of_rounds (h : L.rounds n s = some r) : L.run s = r := by
  induction n generalizing s with
  | zero => cases h
  | succ n ih =>
      cases hbody : L.body s with
      | inl s' =>
          rw [L.run_next hbody]
          exact ih (by simpa only [rounds, hbody] using h)
      | inr r' =>
          rw [L.run_result hbody]
          simpa only [rounds, hbody, Option.some.injEq] using h

end Loop

end Multicore
