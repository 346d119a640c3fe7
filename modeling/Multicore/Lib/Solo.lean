import Mathlib.Computability.StateTransition
import Mathlib.Tactic

/-!
# Routines that run alone

A routine that no other thread disturbs is a partial step function on the memory and a program
counter.  Its run is determined: Mathlib's `StateTransition.Reaches` are the states it comes to,
and `StateTransition.eval` is the one in which it ends.

* `GoodPath f good a b` — from `a` the run comes to `b`, and the states before `b` are good.  Paths
  are put together from the rounds of a loop.
* **`GoodPath.good_of_reaches`** — if the run ends in `b`, all states that it comes to are good:
  there is no other path.
-/

namespace Multicore

open Relation StateTransition

variable {σ : Type*} {f : σ → Option σ} {good : σ → Prop} {a b c : σ}

/-- From `a` the run comes to `b`, through good states. -/
def GoodPath (f : σ → Option σ) (good : σ → Prop) : σ → σ → Prop :=
  ReflTransGen fun a b => good a ∧ f a = some b

namespace GoodPath

lemma refl (a : σ) : GoodPath f good a a := ReflTransGen.refl

lemma head (ha : good a) (hab : f a = some b) (h : GoodPath f good b c) : GoodPath f good a c :=
  ReflTransGen.head ⟨ha, hab⟩ h

lemma trans (h : GoodPath f good a b) (h' : GoodPath f good b c) : GoodPath f good a c :=
  ReflTransGen.trans h h'

lemma reaches (h : GoodPath f good a b) : Reaches f a b := by
  induction h with
  | refl => exact ReflTransGen.refl
  | tail _ hstep ih => exact ih.tail hstep.2

lemma mem_eval (h : GoodPath f good a b) (hb : f b = none) : b ∈ eval f a :=
  StateTransition.mem_eval.2 ⟨h.reaches, hb⟩

/-- **Every state of a run that ends is on the path to the end.** -/
theorem good_of_reaches (h : GoodPath f good a b) (hgood : good b) (hb : f b = none)
    (hc : Reaches f a c) : good c := by
  induction h using ReflTransGen.head_induction_on with
  | refl =>
      rcases ReflTransGen.cases_head hc with rfl | ⟨d, hd, -⟩
      · exact hgood
      · rw [hb] at hd
        exact absurd hd (Option.not_mem_none d)
  | head hstep _ ih =>
      obtain ⟨ha, hab⟩ := hstep
      rcases ReflTransGen.cases_head hc with rfl | ⟨d, hd, hdc⟩
      · exact ha
      · exact ih (Option.some.inj (hab.symm.trans hd) ▸ hdc)

end GoodPath

end Multicore
