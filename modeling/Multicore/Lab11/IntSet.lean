import Multicore.Lib.Linearization

/-!
# What the lists of lab 11 are for

`list_add`, `list_remove` and `list_contains` are the operations of a set of `int`s.  This file is
that set, as a sequential object, and what the models of the concurrent lists share: the two
sentinel nodes and their keys, the calls, and the actions.
-/

namespace Multicore.Lab11

/-- `INT_MIN`, the key of the node `head`. -/
def intMin : ℤ := -2 ^ 31

/-- `INT_MAX`, the key of the node `tail`. -/
def intMax : ℤ := 2 ^ 31 - 1

/-- The keys strictly between those of the sentinels. -/
def InRange (key : ℤ) : Prop := intMin < key ∧ key < intMax

instance (key : ℤ) : Decidable (InRange key) :=
  inferInstanceAs (Decidable (intMin < key ∧ key < intMax))

/-- The address of the first node that `list_init` allocates. -/
def head : ℕ := 0

/-- The address of the second node. -/
def tail : ℕ := 1

/-- The three functions. -/
inductive Op
  | add | remove | contains
  deriving DecidableEq

/-- A function with its argument. -/
structure Call where
  op : Op
  key : ℤ
  deriving DecidableEq

open Classical in
/-- A set of keys: `add` says whether the key is new, `remove` whether it was there. -/
noncomputable def intSet : SeqObject (Set ℤ) Call Bool where
  init := ∅
  apply c S := match c.op with
    | .add => (insert c.key S, decide (c.key ∉ S))
    | .remove => (S \ {c.key}, decide (c.key ∈ S))
    | .contains => (S, decide (c.key ∈ S))

variable {k : ℤ} {S : Set ℤ}

lemma intSet_add_of_notMem (h : k ∉ S) : intSet.apply ⟨.add, k⟩ S = (insert k S, true) := by
  simp [intSet, h]

lemma intSet_add_of_mem (h : k ∈ S) : intSet.apply ⟨.add, k⟩ S = (S, false) := by
  simp [intSet, h]

lemma intSet_remove_of_mem (h : k ∈ S) : intSet.apply ⟨.remove, k⟩ S = (S \ {k}, true) := by
  simp [intSet, h]

lemma intSet_remove_of_notMem (h : k ∉ S) : intSet.apply ⟨.remove, k⟩ S = (S, false) := by
  simp [intSet, h]

lemma intSet_contains (b : Bool) (h : b = true ↔ k ∈ S) :
    intSet.apply ⟨.contains, k⟩ S = (S, b) := by
  cases b <;> simp_all [intSet]

/-- A call takes effect. -/
lemma effect_take {c : Call} {v v' : Set ℤ} {b : Bool} (h : intSet.apply c v = (v', b)) :
    Effect intSet v v' none (.pending c) (.done b) := by
  have heff : Effect intSet v v' none (.pending c) (.done (intSet.apply c v).2) :=
    .take c (by rw [h])
  rwa [h] at heff

/-! ## Calls and actions -/

/-- The arguments of a call; `node` is what `list_add` has allocated. -/
structure Args extends Call where
  node : ℕ

variable {σ τ : Type*}

/-- What an idle thread may do, and what the others do. -/
inductive Choice
  | call (op : Op) (key : ℤ)
  | go

/-- A thread moves. -/
structure Act (τ : Type*) where
  tid : τ
  choice : Choice := .go

/-- Thread `t` calls a function. -/
def Act.call (t : τ) (op : Op) (key : ℤ) : List (Act τ) := [⟨t, .call op key⟩]

/-- Thread `t` makes `n` steps. -/
def Act.go (t : τ) (n : ℕ) : List (Act τ) := List.replicate n ⟨t, .go⟩

/-- Every call has a key strictly between those of the sentinels. -/
def KeyInRange (_ : σ) (a : Act τ) : Prop :=
  match a.choice with
  | .call _ key => InRange key
  | .go => True

instance (s : σ) (a : Act τ) : Decidable (KeyInRange s a) := by
  unfold KeyInRange
  split <;> infer_instance

end Multicore.Lab11
