import Mathlib.Tactic
import Mathlib.Data.List.Infix

/-!
# Prefix trees in a table of edges

A table `edge : ℕ → α → Option ℕ` gives each numbered state its outgoing edges.  It is a *prefix
tree* of a set of strings `P` if its states can be numbered by the strings of `P`, such that the
edges are exactly the extensions by one letter.  `Tree edge root P st` says so, `st` being the
numbering.

The numbers themselves carry information in the programs that use such a table, so that two
operations are needed, and the second one is not the usual one:

* **`Tree.addLeaf`** — a new string gets a fresh state;
* **`Tree.move`** — a string gets another number: its row trades places with the row of a fresh
  state, and the edge to it is redirected.
-/

namespace Multicore

variable {α : Type*}

/-- The table with the edge of `r` by the letter `c` replaced. -/
def setEdge [DecidableEq α] (edge : ℕ → α → Option ℕ) (r : ℕ) (c : α) (v : Option ℕ) :
    ℕ → α → Option ℕ :=
  Function.update edge r (Function.update (edge r) c v)

/-- The table with two rows exchanged. -/
def swapRows (edge : ℕ → α → Option ℕ) (a b : ℕ) : ℕ → α → Option ℕ :=
  Function.update (Function.update edge a (edge b)) b (edge a)

section Rows

variable {edge : ℕ → α → Option ℕ} {a b r q : ℕ} {c d : α} {v : Option ℕ}

lemma swapRows_right : swapRows edge a b b = edge a := by
  simp [swapRows]

lemma swapRows_of_ne (ha : q ≠ a) (hb : q ≠ b) : swapRows edge a b q = edge q := by
  simp [swapRows, ha, hb]

/-- Exchanging equal rows changes nothing. -/
lemma swapRows_eq_self (h : edge a = edge b) : swapRows edge a b = edge := by
  rw [swapRows, ← h, Function.update_eq_self, h, Function.update_eq_self]

variable [DecidableEq α]

lemma setEdge_self : setEdge edge r c v r c = v := by simp [setEdge]

lemma setEdge_of_ne (h : q ≠ r ∨ d ≠ c) : setEdge edge r c v q d = edge q d := by
  simp only [setEdge, Function.update_apply]
  rcases h with h | h
  · rw [if_neg h]
  · split_ifs with hq
    · rw [Function.update_of_ne h, hq]
    · rfl

/-- Only the last of two writes to an edge counts. -/
lemma setEdge_setEdge (u : Option ℕ) : setEdge (setEdge edge r c u) r c v = setEdge edge r c v := by
  simp [setEdge]

end Rows

/-- All edges of the table lead to numbers below `m`. -/
def EdgesBelow (edge : ℕ → α → Option ℕ) (m : ℕ) : Prop := ∀ r c q, edge r c = some q → q < m

namespace EdgesBelow

variable {edge : ℕ → α → Option ℕ} {m n : ℕ}

lemma mono (h : EdgesBelow edge m) (hmn : m ≤ n) : EdgesBelow edge n :=
  fun r c q hq => (h r c q hq).trans_le hmn

lemma setEdge [DecidableEq α] (h : EdgesBelow edge m) (r : ℕ) (c : α) {v : ℕ} (hv : v < m) :
    EdgesBelow (setEdge edge r c (some v)) m := by
  intro r' c' q hq
  by_cases hrc : r' = r ∧ c' = c
  · obtain ⟨rfl, rfl⟩ := hrc
    rw [setEdge_self] at hq
    exact Option.some.inj hq ▸ hv
  · rw [setEdge_of_ne (not_and_or.1 hrc)] at hq
    exact h r' c' q hq

lemma swapRows (h : EdgesBelow edge m) (a b : ℕ) : EdgesBelow (swapRows edge a b) m := by
  intro r c q hq
  simp only [Multicore.swapRows, Function.update_apply] at hq
  split_ifs at hq
  · exact h a c q hq
  · exact h b c q hq
  · exact h r c q hq

end EdgesBelow

/-- The table is the prefix tree of the strings in `P`, numbered by `st`. -/
structure Tree (edge : ℕ → α → Option ℕ) (root : ℕ) (P : List α → Prop) (st : List α → ℕ) :
    Prop where
  nil : P []
  root : st [] = root
  closed : ∀ t c, P (t ++ [c]) → P t
  edge : ∀ t c q, P t → (edge (st t) c = some q ↔ P (t ++ [c]) ∧ st (t ++ [c]) = q)
  inj : ∀ t t', P t → P t' → st t = st t' → t = t'

namespace Tree

variable {edge : ℕ → α → Option ℕ} {root : ℕ} {P : List α → Prop} {st : List α → ℕ}
  {t u : List α} {c : α} {q : ℕ}

/-- The strings of a tree are closed under prefixes. -/
lemma of_isPrefix (h : Tree edge root P st) (hu : P u) (ht : t <+: u) : P t := by
  obtain ⟨x, rfl⟩ := ht
  induction x using List.reverseRecOn with
  | nil => simpa using hu
  | append_singleton x c ih =>
      rw [← List.append_assoc] at hu
      exact ih (h.closed _ c hu)

/-- There is no edge where the extended string is not in the tree. -/
lemma edge_eq_none (h : Tree edge root P st) (ht : P t) (hno : ¬ P (t ++ [c])) :
    edge (st t) c = none := by
  rw [Option.eq_none_iff_forall_ne_some]
  exact fun q hq => hno ((h.edge t c q ht).1 hq).1

/-- Where it is, the edge leads to its state. -/
lemma edge_eq_some (h : Tree edge root P st) (hno : P (t ++ [c])) :
    edge (st t) c = some (st (t ++ [c])) :=
  (h.edge t c _ (h.closed t c hno)).2 ⟨hno, rfl⟩

variable [DecidableEq α]

/-- **A new leaf.**  `q` is the number of no string, and has no edges. -/
theorem addLeaf (h : Tree edge root P st) (ht : P t) (hno : ¬ P (t ++ [c]))
    (hq : ∀ u, P u → st u ≠ q) (hrow : ∀ d, edge q d = none) :
    Tree (setEdge edge (st t) c (some q)) root (fun u => P u ∨ u = t ++ [c])
      (Function.update st (t ++ [c]) q) := by
  have hold : ∀ u, P u → Function.update st (t ++ [c]) q u = st u := by
    intro u hu
    refine Function.update_of_ne ?_ _ _
    rintro rfl
    exact hno hu
  have hnew : Function.update st (t ++ [c]) q (t ++ [c]) = q := Function.update_self _ _ _
  -- no string of the tree extends the new one
  have hleaf : ∀ d, ¬ P (t ++ [c] ++ [d]) := fun d hd => hno (h.closed _ d hd)
  refine ⟨Or.inl h.nil, ?_, ?_, ?_, ?_⟩
  · rw [hold _ h.nil, h.root]
  · rintro u d (hu | hu)
    · exact Or.inl (h.closed u d hu)
    · exact Or.inl ((List.append_inj' hu rfl).1 ▸ ht)
  · rintro u d r (hu | rfl)
    · rw [hold u hu]
      by_cases hud : u = t ∧ d = c
      · obtain ⟨rfl, rfl⟩ := hud
        rw [setEdge_self, hnew, Option.some.injEq]
        simp
      · have hne : u ++ [d] ≠ t ++ [c] := by
          intro heq
          obtain ⟨h1, h2⟩ := List.append_inj' heq rfl
          exact hud ⟨h1, List.singleton_inj.1 h2⟩
        rw [setEdge_of_ne, h.edge u d r hu, Function.update_of_ne hne]
        · simp [hne]
        · by_contra! hcon
          exact hud ⟨h.inj u t hu ht hcon.1, hcon.2⟩
    · rw [hnew, setEdge_of_ne (Or.inl (hq t ht).symm), hrow d]
      constructor
      · exact fun hnone => absurd hnone (by simp)
      · rintro ⟨hP | heq, _⟩
        · exact absurd hP (hleaf d)
        · exact absurd heq (by simp)
  · rintro u u' (hu | rfl) (hu' | rfl) heq
    · rw [hold u hu, hold u' hu'] at heq
      exact h.inj u u' hu hu' heq
    · rw [hold u hu, hnew] at heq
      exact absurd heq (hq u hu)
    · rw [hold u' hu', hnew] at heq
      exact absurd heq.symm (hq u' hu')
    · rfl

/-- **A new number.**  The string `t ++ [c]` gets the number `q`, which is the number of no string:
the rows trade places and the edge to it is redirected. -/
theorem move (h : Tree edge root P st) (hu : P (t ++ [c])) (hq : ∀ u, P u → st u ≠ q) :
    Tree (setEdge (swapRows edge (st (t ++ [c])) q) (st t) c (some q)) root P
      (Function.update st (t ++ [c]) q) := by
  have ht : P t := h.closed t c hu
  have hself : t ++ [c] ≠ t := by simp
  have hold : ∀ u, u ≠ t ++ [c] → Function.update st (t ++ [c]) q u = st u :=
    fun u hne => Function.update_of_ne hne _ _
  have hnew : Function.update st (t ++ [c]) q (t ++ [c]) = q := Function.update_self _ _ _
  -- every string keeps the edges of its row, wherever the row is now
  have hrow : ∀ u, P u →
      swapRows edge (st (t ++ [c])) q (Function.update st (t ++ [c]) q u) = edge (st u) := by
    intro u hPu
    by_cases hut : u = t ++ [c]
    · rw [hut, hnew, swapRows_right]
    · rw [hold u hut, swapRows_of_ne (fun heq => hut (h.inj _ _ hPu hu heq)) (hq u hPu)]
  have hstt : Function.update st (t ++ [c]) q t = st t := hold t hself.symm
  have hinj : ∀ u u', P u → P u' →
      Function.update st (t ++ [c]) q u = Function.update st (t ++ [c]) q u' → u = u' := by
    intro u u' hPu hPu' heq
    by_cases h1 : u = t ++ [c]
    · by_cases h2 : u' = t ++ [c]
      · rw [h1, h2]
      · rw [h1, hnew, hold u' h2] at heq
        exact absurd heq.symm (hq u' hPu')
    · by_cases h2 : u' = t ++ [c]
      · rw [h2, hnew, hold u h1] at heq
        exact absurd heq (hq u hPu)
      · rw [hold u h1, hold u' h2] at heq
        exact h.inj u u' hPu hPu' heq
  refine ⟨h.nil, ?_, h.closed, fun u d r hPu => ?_, hinj⟩
  · rw [hold _ (by simp), h.root]
  · by_cases hud : u = t ∧ d = c
    · obtain ⟨rfl, rfl⟩ := hud
      rw [hstt, setEdge_self, hnew, Option.some.injEq]
      simp [hu]
    · have hne : u ++ [d] ≠ t ++ [c] := by
        intro heq
        obtain ⟨h1, h2⟩ := List.append_inj' heq rfl
        exact hud ⟨h1, List.singleton_inj.1 h2⟩
      rw [setEdge_of_ne, hrow u hPu, h.edge u d r hPu, hold _ hne]
      by_contra! hcon
      exact hud ⟨hinj u t hPu ht (hcon.1.trans hstt.symm), hcon.2⟩

end Tree

end Multicore
