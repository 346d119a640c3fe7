import Mathlib.Tactic
import Mathlib.Data.List.Infix

/-!
# Overlaps of a pattern with a text

`Overlap p x k` says that the first `k` letters of the pattern `p` are the last `k` letters of the
text `x`.  The string matchers that read a text letter by letter all keep one number, the longest
overlap below some bound, and all of them update it in the same way: shorten the overlap until the
next letter of the pattern is the next letter of the text, then lengthen it by one.

* `overlap_snoc` — how overlaps grow by one letter.
* `Overlap.trans`, `Overlap.of_le` — the shorter overlaps of a text are the overlaps of the
  pattern **with its own beginning**, which is why a table of these is enough.
* `Longest`, `Fallen` — the number that is kept, and what the shortening loop looks for.
* **`Fallen.snoc_of_eq`**, **`Fallen.snoc_of_ne`** — one letter of the text.
* `Fallen.descend` — one round of the shortening loop.
-/

namespace Multicore

variable {α : Type*} {p x : List α} {c : α} {b j k l r : ℕ}

/-- The first `k` letters of `p` are the last `k` letters of `x`. -/
def Overlap (p x : List α) (k : ℕ) : Prop := k ≤ p.length ∧ p.take k <:+ x

lemma overlap_zero (p x : List α) : Overlap p x 0 := ⟨Nat.zero_le _, by simp⟩

/-- The beginning of a pattern overlaps the pattern in full. -/
lemma overlap_take (h : k ≤ p.length) : Overlap p (p.take k) k := ⟨h, List.suffix_refl _⟩

/-- The pattern is overlapped in full where it occurs. -/
lemma overlap_length : Overlap p x p.length ↔ p <:+ x := by
  simp [Overlap]

lemma Overlap.le_length (h : Overlap p x k) : k ≤ x.length := by
  have hlen := h.2.length_le
  rwa [List.length_take, Nat.min_eq_left h.1] at hlen

lemma Overlap.le_of_take (h : Overlap p (p.take j) k) : k ≤ j :=
  h.le_length.trans (List.length_take_le j p)

/-- Overlaps with a longer text are the overlaps with the text that the new letter extends. -/
lemma overlap_snoc : Overlap p (x ++ [c]) (k + 1) ↔ Overlap p x k ∧ p[k]? = some c := by
  constructor
  · rintro ⟨hk, hs⟩
    have hlt : k < p.length := hk
    rw [List.take_add_one, List.getElem?_eq_getElem hlt, Option.toList_some] at hs
    obtain ⟨y, hy⟩ := hs
    rw [← List.append_assoc] at hy
    obtain ⟨hx, hc⟩ := List.append_inj' hy rfl
    refine ⟨⟨hlt.le, y, hx⟩, ?_⟩
    rw [List.getElem?_eq_getElem hlt]
    simpa using hc
  · rintro ⟨⟨_, y, hy⟩, hc⟩
    obtain ⟨hlt, _⟩ := List.getElem?_eq_some_iff.1 hc
    refine ⟨hlt, y, ?_⟩
    rw [List.take_add_one, hc, Option.toList_some, ← List.append_assoc, hy]

/-- An overlap of the pattern with the overlapping part is an overlap with the text. -/
lemma Overlap.trans (h : Overlap p x k) (h' : Overlap p (p.take k) l) : Overlap p x l :=
  ⟨h'.1, h'.2.trans h.2⟩

/-- Conversely the shorter of two overlaps is one with the longer. -/
lemma Overlap.of_le (h : Overlap p x k) (h' : Overlap p x l) (hle : l ≤ k) :
    Overlap p (p.take k) l := by
  refine ⟨h'.1, List.suffix_of_suffix_length_le h'.2 h.2 ?_⟩
  simp only [List.length_take]
  omega

/-- The longest overlap of the pattern with the text that is shorter than `b`. -/
def Longest (p x : List α) (b k : ℕ) : Prop := IsGreatest {l | l < b ∧ Overlap p x l} k

/-- The longest overlap with the text so far that the letter `c` extends, or `0`: what is left of
the overlap `j` after the shortening loop. -/
structure Fallen (p : List α) (c : α) (j r : ℕ) : Prop where
  overlap : Overlap p (p.take j) r
  longest : ∀ l, Overlap p (p.take j) l → p[l]? = some c → l ≤ r
  stop : r = 0 ∨ p[r]? = some c

/-- The empty overlap cannot be shortened. -/
lemma fallen_zero (p : List α) (c : α) : Fallen p c 0 0 :=
  ⟨overlap_zero _ _, fun _ h _ => h.le_of_take, Or.inl rfl⟩

/-- Where the letter extends the overlap, the loop stops. -/
lemma fallen_self (h : p[j]? = some c) : Fallen p c j j := by
  obtain ⟨hlt, _⟩ := List.getElem?_eq_some_iff.1 h
  exact ⟨overlap_take hlt.le, fun _ hl _ => hl.le_of_take, Or.inr h⟩

/-- **One round of the loop.**  Where the letter does not extend the overlap `j`, the next one to
try is the longest proper overlap of `j` with itself. -/
lemma Fallen.descend (h : Fallen p c k r) (hk : Longest p (p.take j) j k)
    (hne : p[j]? ≠ some c) : Fallen p c j r := by
  refine ⟨hk.1.2.trans h.overlap, fun l hl hc => ?_, h.stop⟩
  have hlt : l < j := by
    refine lt_of_le_of_ne hl.le_of_take ?_
    rintro rfl
    exact hne hc
  exact h.longest l (hk.1.2.of_le hl (hk.2 ⟨hlt, hl⟩)) hc

/-- **The letter extends what is left.** -/
theorem Fallen.snoc_of_eq (h : Fallen p c j r) (hj : Longest p x b j) (hc : p[r]? = some c) :
    Longest p (x ++ [c]) (b + 1) (r + 1) := by
  have hrj : r ≤ j := h.overlap.le_of_take
  refine ⟨⟨?_, overlap_snoc.2 ⟨hj.1.2.trans h.overlap, hc⟩⟩, ?_⟩
  · have := hj.1.1
    omega
  · rintro l ⟨hlb, hl⟩
    cases l with
    | zero => exact Nat.zero_le _
    | succ l =>
        obtain ⟨hl, hlc⟩ := overlap_snoc.1 hl
        have hle : l ≤ j := hj.2 ⟨Nat.lt_of_succ_lt_succ hlb, hl⟩
        exact Nat.succ_le_succ (h.longest l (hj.1.2.of_le hl hle) hlc)

/-- **The letter extends nothing.** -/
theorem Fallen.snoc_of_ne (h : Fallen p c j r) (hj : Longest p x b j) (hc : p[r]? ≠ some c) :
    r = 0 ∧ Longest p (x ++ [c]) (b + 1) 0 := by
  have hr : r = 0 := h.stop.resolve_right hc
  refine ⟨hr, ⟨Nat.succ_pos _, overlap_zero _ _⟩, ?_⟩
  rintro l ⟨hlb, hl⟩
  cases l with
  | zero => exact le_refl _
  | succ l =>
      obtain ⟨hl, hlc⟩ := overlap_snoc.1 hl
      have hle : l ≤ j := hj.2 ⟨Nat.lt_of_succ_lt_succ hlb, hl⟩
      have hlr : l ≤ r := h.longest l (hj.1.2.of_le hl hle) hlc
      have hl0 : l = r := by omega
      exact absurd (hl0 ▸ hlc) hc

end Multicore
