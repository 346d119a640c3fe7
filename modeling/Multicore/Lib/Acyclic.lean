import Mathlib.Data.Fintype.EquivFin
import Mathlib.Logic.Relation
import Mathlib.Order.WellFounded
import Mathlib.Tactic

/-!
# Acyclic relations

A relation is read as the edges of a graph.  What a graph that grows at one vertex at a time needs:

* `Acyclic.of_le` — removing edges closes no cycle;
* **`Acyclic.of_edges_from`** — edges added at one vertex close a cycle only through that vertex;
* **`Acyclic.of_edges_to_sink`** — edges added to one vertex close none if it has no outgoing edges;
* **`Acyclic.exists_sink`** — in a finite graph every nonempty set that follows the edges has a
  vertex without outgoing edges;
* `Acyclic.of_rank` — a rank that grows along every edge rules out cycles.
-/

namespace Multicore

open Relation

/-- No vertex reaches itself by a path of at least one edge. -/
def Acyclic {α : Type*} (r : α → α → Prop) : Prop := ∀ a, ¬ TransGen r a a

namespace Acyclic

variable {α : Type*} {r r' : α → α → Prop}

lemma of_le (h : Acyclic r) (hle : ∀ a b, r' a b → r a b) : Acyclic r' :=
  fun a ha => h a (TransGen.mono hle a a ha)

/-- A path either uses old edges only, or passes the vertex that got new ones. -/
lemma path_old_or_through {t : α} (hold : ∀ a b, r' a b → a ≠ t → r a b) {a b : α}
    (h : TransGen r' a b) : TransGen r a b ∨ ReflTransGen r' a t ∧ TransGen r' t b := by
  induction h with
  | @single b hab =>
      by_cases ha : a = t
      · subst ha
        exact .inr ⟨.refl, .single hab⟩
      · exact .inl (.single (hold a b hab ha))
  | @tail b c hab hbc ih =>
      by_cases hb : b = t
      · subst hb
        exact .inr ⟨hab.to_reflTransGen, .single hbc⟩
      · rcases ih with ih | ⟨hat, htb⟩
        · exact .inl (ih.tail (hold b c hbc hb))
        · exact .inr ⟨hat, htb.tail hbc⟩

/-- **Edges added at one vertex close a cycle only through it.** -/
theorem of_edges_from {t : α} (h : Acyclic r) (hold : ∀ a b, r' a b → a ≠ t → r a b)
    (ht : ¬ TransGen r' t t) : Acyclic r' := by
  intro a ha
  rcases path_old_or_through hold ha with hold' | ⟨hat, hta⟩
  · exact h a hold'
  · exact ht (hta.trans_left hat)

/-- **Edges added to one vertex close no cycle if it has no outgoing edges.** -/
theorem of_edges_to_sink {t : α} (h : Acyclic r) (hold : ∀ a b, r' a b → r a b ∨ b = t)
    (ht : ∀ b, ¬ r' t b) : Acyclic r' := by
  -- a path that goes on has not come to the vertex
  have hpath : ∀ {a b}, TransGen r' a b → TransGen r a b ∨ b = t := by
    intro a b hab
    induction hab with
    | single hab => exact (hold _ _ hab).imp_left .single
    | @tail b c _ hbc ih =>
        rcases ih with ih | rfl
        · exact (hold b c hbc).imp_left ih.tail
        · exact absurd hbc (ht c)
  intro a ha
  rcases hpath ha with hold' | rfl
  · exact h a hold'
  · obtain ⟨b, hab, -⟩ := TransGen.head'_iff.mp ha
    exact ht b hab

/-- What leads into a set that the edges do not leave does not come back. -/
lemma not_transGen_of_closed {t : α} {S : Set α} (hstart : ∀ b, r t b → b ∈ S)
    (hclosed : ∀ a ∈ S, ∀ b, r a b → b ∈ S) (ht : t ∉ S) : ¬ TransGen r t t := by
  have hpath : ∀ b, TransGen r t b → b ∈ S := by
    intro b hb
    induction hb with
    | single hab => exact hstart _ hab
    | tail _ hbc ih => exact hclosed _ ih _ hbc
  exact fun hcycle => ht (hpath t hcycle)

/-- **In a finite graph a nonempty set that follows the edges contains a sink.** -/
theorem exists_sink [Finite α] (h : Acyclic r) {S : Set α} (hne : S.Nonempty)
    (hS : ∀ a ∈ S, ∀ b, r a b → b ∈ S) : ∃ a ∈ S, ∀ b, ¬ r a b := by
  let earlier : α → α → Prop := fun b a => TransGen r a b
  have : IsTrans α earlier := ⟨fun _ _ _ hab hbc => hbc.trans hab⟩
  have : Std.Irrefl earlier := ⟨h⟩
  have hwf : WellFounded earlier := Finite.wellFounded_of_trans_of_irrefl earlier
  obtain ⟨a, ha, hmin⟩ := hwf.has_min S hne
  exact ⟨a, ha, fun b hab => hmin b (hS a ha b hab) (.single hab)⟩

/-- A rank that grows along every edge grows along every path. -/
lemma rank_lt {β : Type*} [Preorder β] {rank : α → β} (hr : ∀ a b, r a b → rank a < rank b)
    {a b : α} (h : TransGen r a b) : rank a < rank b := by
  induction h with
  | single hab => exact hr _ _ hab
  | tail _ hbc ih => exact ih.trans (hr _ _ hbc)

lemma of_rank {β : Type*} [Preorder β] (rank : α → β) (hr : ∀ a b, r a b → rank a < rank b) :
    Acyclic r :=
  fun _ ha => lt_irrefl _ (rank_lt hr ha)

end Acyclic

end Multicore
