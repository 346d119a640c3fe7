import Mathlib.Data.List.Nodup
import Mathlib.Logic.Function.Basic
import Mathlib.Tactic

/-!
# Segments of linked lists

Nodes with one pointer each, and the list of the nodes that are met on the way from one pointer to
another.

* `Segment next p l q` — from the pointer `p` one meets the nodes `l`, one after the other, and
  then has the pointer `q`.  It depends only on the pointers of the nodes in `l`
  (`Segment.congr`), so a store elsewhere keeps it.
* `Segment.insert`, `Segment.unlink` — the two ways in which a node enters and leaves a list;
  `Segment.concat` is the first at the end of a list.
* **`Segment.nodup`** — a list that comes to an end meets no node twice.
* **`Segment.start_unique`** — two lists of the same nodes in one memory start at the same node.
* `walkUntil` — the loop that follows the pointers to the first node with some property, with a
  bound on the number of its rounds; `walkUntil_segment` says what it finds.
-/

namespace Multicore

variable {α : Type*} {next next' : α → Option α} {p q : Option α} {a b c n : α} {l l' m : List α}

/-- From `p` on the pointers lead through the nodes `l` to `q`. -/
def Segment (next : α → Option α) : Option α → List α → Option α → Prop
  | p, [], q => p = q
  | p, a :: l, q => p = some a ∧ Segment next (next a) l q

@[simp] lemma segment_nil : Segment next p [] q ↔ p = q := Iff.rfl

@[simp] lemma segment_cons :
    Segment next p (a :: l) q ↔ p = some a ∧ Segment next (next a) l q := Iff.rfl

lemma segment_append :
    Segment next p (l ++ m) q ↔ ∃ r, Segment next p l r ∧ Segment next r m q := by
  induction l generalizing p with
  | nil => simp
  | cons a l ih =>
      simp only [List.cons_append, segment_cons, ih]
      constructor
      · rintro ⟨hp, r, hl, hm⟩
        exact ⟨r, ⟨hp, hl⟩, hm⟩
      · rintro ⟨r, ⟨hp, hl⟩, hm⟩
        exact ⟨hp, r, hl, hm⟩

/-- A list through the node `a`: it comes to `a`, and goes on with the pointer of `a`. -/
lemma segment_middle : Segment next p (l ++ a :: m) q ↔
    Segment next p l (some a) ∧ Segment next (next a) m q := by
  rw [segment_append]
  constructor
  · rintro ⟨r, hl, rfl, hm⟩
    exact ⟨hl, hm⟩
  · rintro ⟨hl, hm⟩
    exact ⟨some a, hl, rfl, hm⟩

namespace Segment

/-- A segment depends on the pointers of its own nodes only. -/
lemma congr (h : Segment next p l q) (heq : ∀ a ∈ l, next' a = next a) : Segment next' p l q := by
  induction l generalizing p with
  | nil => exact h
  | cons a l ih =>
      refine ⟨h.1, ?_⟩
      rw [heq a List.mem_cons_self]
      exact ih h.2 fun b hb => heq b (List.mem_cons_of_mem a hb)

/-- A new node `n` behind the node `a`. -/
lemma insert (h : Segment next p (l ++ a :: m) q) (ha : next' a = some n) (hn : next' n = next a)
    (heq : ∀ b ∈ l ++ m, next' b = next b) : Segment next' p (l ++ a :: n :: m) q := by
  obtain ⟨hl, hm⟩ := segment_middle.mp h
  refine segment_middle.mpr ⟨hl.congr fun b hb => heq b (List.mem_append_left m hb), ha, ?_⟩
  rw [hn]
  exact hm.congr fun b hb => heq b (List.mem_append_right l hb)

/-- Every node before the end of a segment has a pointer. -/
lemma next_ne_none (h : Segment next p l (some b)) : ∀ a ∈ l, next a ≠ none := by
  induction l generalizing p with
  | nil => simp
  | cons c l ih =>
      intro a ha
      rcases List.mem_cons.mp ha with rfl | ha
      · intro hnone
        have hl := h.2
        rw [hnone] at hl
        cases l <;> simp at hl
      · exact ih h.2 a ha

/-! ## Lists that come to an end -/

/-- What is met on the way to the null pointer is determined by where one starts. -/
lemma unique (h : Segment next p l none) (h' : Segment next p l' none) : l = l' := by
  induction l generalizing p l' with
  | nil =>
      obtain rfl := segment_nil.mp h
      cases l' with
      | nil => rfl
      | cons b l' => simp at h'
  | cons a l ih =>
      obtain ⟨rfl, hl⟩ := h
      cases l' with
      | nil => simp at h'
      | cons b l' =>
          obtain ⟨hab, hl'⟩ := h'
          obtain rfl := Option.some.inj hab
          rw [ih hl hl']

/-- The rest of a list, from one of its nodes on. -/
lemma suffix (h : Segment next p (l ++ a :: m) none) : Segment next (some a) (a :: m) none :=
  ⟨rfl, (segment_middle.mp h).2⟩

/-- A list does not come back to the node it starts with. -/
lemma eq_nil_of_start (h : Segment next (some a) (l ++ a :: m) none) : l = [] := by
  have hlen := congrArg List.length (h.unique h.suffix)
  simp only [List.length_cons, List.length_append] at hlen
  exact List.length_eq_zero_iff.mp (by omega)

/-- **A list that comes to an end meets no node twice.** -/
theorem nodup (h : Segment next p l none) : l.Nodup := by
  induction l generalizing p with
  | nil => exact List.nodup_nil
  | cons a l ih =>
      refine List.nodup_cons.mpr ⟨fun ha => ?_, ih h.2⟩
      obtain ⟨l₁, l₂, rfl⟩ := List.append_of_mem ha
      have hagain : Segment next (some a) ((a :: l₁) ++ a :: l₂) none := ⟨rfl, h.2⟩
      exact List.cons_ne_nil a l₁ hagain.eq_nil_of_start

lemma notMem (h : Segment next p (l ++ a :: m) none) : a ∉ l ++ m :=
  (List.nodup_cons.mp (List.nodup_middle.mp h.nodup)).1

lemma next_notMem (h : Segment next p (l ++ a :: c :: m) none) : c ∉ l ++ a :: m := by
  have h' : Segment next p ((l ++ [a]) ++ c :: m) none := by rwa [List.append_assoc]
  simpa using h'.notMem

/-- The node behind `a` is skipped: `a` gets its pointer. -/
lemma unlink [DecidableEq α] (h : Segment next p (l ++ a :: c :: m) none) :
    Segment (Function.update next a (next c)) p (l ++ a :: m) none := by
  have heq : ∀ b ∈ l ++ m, Function.update next a (next c) b = next b := by
    intro b hb
    refine Function.update_of_ne ?_ _ _
    rintro rfl
    exact h.notMem (((List.sublist_cons_self c m).append_left l).subset hb)
  obtain ⟨hl, -, hm⟩ := segment_middle.mp h
  refine segment_middle.mpr ⟨hl.congr fun b hb => heq b (List.mem_append_left m hb), ?_⟩
  rw [Function.update_self]
  exact hm.congr fun b hb => heq b (List.mem_append_right l hb)

/-- A new node `n` behind the last one. -/
lemma concat [DecidableEq α] (h : Segment next p (l ++ [a]) none) (hn : next n = none)
    (hna : n ≠ a) : Segment (Function.update next a (some n)) p (l ++ [a] ++ [n]) none := by
  have ha : next a = none := (segment_middle.mp h).2
  rw [List.append_assoc]
  refine h.insert (Function.update_self a _ _) ?_ fun b hb => Function.update_of_ne ?_ _ _
  · rw [Function.update_of_ne hna, hn, ha]
  · rintro rfl
    exact h.notMem hb

/-- Only one node points to a node of the list. -/
lemma pred_unique (h : Segment next p (l ++ b :: c :: m) none) : ∀ a ∈ l, next a ≠ some c := by
  intro a ha hac
  obtain ⟨l₁, l₂, rfl⟩ := List.append_of_mem ha
  rw [List.append_assoc, List.cons_append] at h
  have hrest : Segment next (next a) ((l₂ ++ [b]) ++ c :: m) none := by
    rw [List.append_assoc]
    exact h.suffix.2
  rw [hac] at hrest
  simpa using hrest.eq_nil_of_start

/-- **Two lists of the same nodes start at the same node.** -/
theorem start_unique (h : Segment next p l none) (h' : Segment next q l' none)
    (hmem : ∀ a, a ∈ l ↔ a ∈ l') : p = q := by
  have hlen : l.length = l'.length :=
    ((List.perm_ext_iff_of_nodup h.nodup h'.nodup).mpr hmem).length_eq
  cases l with
  | nil =>
      obtain rfl := List.length_eq_zero_iff.mp hlen.symm
      exact (segment_nil.mp h).trans (segment_nil.mp h').symm
  | cons a l =>
      obtain ⟨l₁, l₂, rfl⟩ := List.append_of_mem ((hmem a).mp List.mem_cons_self)
      have heq : a :: l = a :: l₂ := unique (p := some a) ⟨rfl, h.2⟩ h'.suffix
      have hl₁ : l₁.length = 0 := by
        rw [heq] at hlen
        simp only [List.length_cons, List.length_append] at hlen
        omega
      obtain rfl := List.length_eq_zero_iff.mp hl₁
      exact h.1.trans h'.1.symm

end Segment

/-! ## Following the pointers -/

/-- The first node from `a` on at which `stop` holds, if it is found in less than `n` rounds and
before the null pointer. -/
def walkUntil (next : α → Option α) (stop : α → Bool) : ℕ → α → Option α
  | 0, _ => none
  | n + 1, a => if stop a then some a else (next a).bind (walkUntil next stop n)

lemma walkUntil_segment {stop : α → Bool} {k : ℕ} (h : Segment next (some a) (l ++ b :: m) q)
    (hl : ∀ c ∈ l, stop c = false) (hb : stop b = true) (hk : l.length < k) :
    walkUntil next stop k a = some b := by
  induction l generalizing a k with
  | nil =>
      obtain ⟨k, rfl⟩ := Nat.exists_eq_add_of_lt hk
      obtain rfl := Option.some.inj h.1
      simp [walkUntil, hb]
  | cons c l ih =>
      obtain ⟨k, rfl⟩ : ∃ k', k = k' + 1 := ⟨k - 1, by simp at hk; omega⟩
      obtain ⟨hac, hrest⟩ := h
      obtain rfl := Option.some.inj hac
      rw [walkUntil, if_neg (by simp [hl a List.mem_cons_self])]
      cases hn : next a with
      | none => cases l <;> simp [hn] at hrest
      | some d =>
          rw [hn] at hrest
          exact ih hrest (fun c hc => hl c (List.mem_cons_of_mem a hc)) (by simpa using hk)

/-- More rounds do not change what is found. -/
lemma walkUntil_mono {stop : α → Bool} {j k : ℕ} (hjk : j ≤ k)
    (h : walkUntil next stop j a = some b) : walkUntil next stop k a = some b := by
  induction j generalizing a k with
  | zero => simp [walkUntil] at h
  | succ j ih =>
      obtain ⟨k, rfl⟩ : ∃ k', k = k' + 1 := ⟨k - 1, by omega⟩
      rw [walkUntil] at h ⊢
      split_ifs at h ⊢ with hs
      · exact h
      · obtain ⟨c, hc, hw⟩ := Option.bind_eq_some_iff.mp h
        exact Option.bind_eq_some_iff.mpr ⟨c, hc, ih (by omega) hw⟩

end Multicore
