import Mathlib

/-!
# Lines, words and decimal numbers

The text files of these programs are lines of decimal numbers separated by blanks.  A text is the
list of its characters.

* `words` — what is left when a text is cut at its white space, as `split` and `>>` do;
* `readLines` — the lines of a file, each with its line break;
* `decimal`, `parseInt` — the text of an integer and back;
* **`parseLine_line`** — a line of numbers is read back as these numbers, and
  **`readLines_flatMap_line`** — a file of such lines as these lines.
-/

namespace Multicore.Text

/-! ## Words -/

/-- White space: the blank, and tab to carriage return. -/
def isSpace (c : Char) : Bool := c == ' ' || (9 ≤ c.toNat && c.toNat ≤ 13)

/-- The words of a text. -/
def words (cs : List Char) : List (List Char) := (cs.splitOnP isSpace).filter (· ≠ [])

/-- A word is not empty and has no white space in it. -/
def IsWord (w : List Char) : Prop := w ≠ [] ∧ ∀ c ∈ w, isSpace c = false

@[simp] lemma words_nil : words [] = [] := rfl

/-- The first word ends at the first white space. -/
lemma words_append_cons {w : List Char} (hw : IsWord w) {c : Char} (hc : isSpace c = true)
    (cs : List Char) : words (w ++ c :: cs) = w :: words cs := by
  unfold words
  rw [List.splitOnP_append_cons_of_forall_mem hw.2 c hc, List.filter_cons_of_pos (by simp [hw.1])]

/-! ## Lines -/

/-- The lines of a file, as a loop over the file yields them: each with its line break, the last
one without it if the file does not end in one. -/
def readLines : List Char → List (List Char)
  | [] => []
  | c :: cs =>
      if c = '\n' then ['\n'] :: readLines cs
      else match readLines cs with
        | [] => [[c]]
        | l :: ls => (c :: l) :: ls

lemma readLines_append {l : List Char} (hl : '\n' ∉ l) (cs : List Char) :
    readLines (l ++ '\n' :: cs) = (l ++ ['\n']) :: readLines cs := by
  induction l with
  | nil => simp [readLines]
  | cons c l ih =>
      simp only [List.mem_cons, not_or] at hl
      rw [List.cons_append, readLines, if_neg (Ne.symm hl.1), ih hl.2]
      rfl

/-! ## Decimal numbers -/

/-- The decimal text of an integer. -/
def decimal (z : ℤ) : List Char := z.repr.toList

/-- The integer a word stands for. -/
def parseInt (w : List Char) : Option ℤ := (String.ofList w).toInt?

@[simp] lemma parseInt_decimal (z : ℤ) : parseInt (decimal z) = some z := by
  rw [parseInt, decimal, String.ofList_toList, Int.toInt?_repr]

lemma isSpace_of_isDigit {c : Char} (h : c.isDigit = true) : isSpace c = false := by
  simp only [Char.isDigit, Bool.and_eq_true, decide_eq_true_eq] at h
  have h1 : 48 ≤ c.toNat := h.1
  have hne : c ≠ ' ' := by
    rintro rfl
    exact absurd h1 (by decide)
  simp only [isSpace, Bool.or_eq_false_iff, beq_eq_false_iff_ne, ne_eq, hne, not_false_iff,
    Bool.and_eq_false_iff, decide_eq_false_iff_not, not_le, true_and]
  omega

/-- The text of an integer is a word. -/
lemma isWord_decimal (z : ℤ) : IsWord (decimal z) := by
  have digits : ∀ n : ℕ, n.repr.toList = Nat.toDigits 10 n := fun n => by
    rw [Nat.repr_eq_ofList_toDigits, String.toList_ofList]
  have noSpace : ∀ n : ℕ, ∀ c ∈ Nat.toDigits 10 n, isSpace c = false := fun n c hc =>
    isSpace_of_isDigit (Nat.isDigit_of_mem_toDigits (by decide) (by decide) hc)
  unfold IsWord decimal
  rw [Int.repr_eq_if]
  split_ifs with hz
  · rw [digits]
    exact ⟨Nat.toDigits_ne_nil, noSpace _⟩
  · rw [String.toList_append, digits]
    refine ⟨by simp, fun c hc => ?_⟩
    rcases List.mem_append.mp hc with hc | hc
    · obtain rfl : c = '-' := by simpa using hc
      decide
    · exact noSpace _ c hc

/-! ## Lines of numbers -/

/-- The numbers of a list one after the other, separated by blanks. -/
def row : List ℤ → List Char
  | [] => []
  | [z] => decimal z
  | z :: zs => decimal z ++ ' ' :: row zs

/-- A line of numbers, with its line break. -/
def line (zs : List ℤ) : List Char := row zs ++ ['\n']

/-- The numbers of a line, if all its words are numbers. -/
def parseLine (cs : List Char) : Option (List ℤ) := (words cs).mapM parseInt

lemma words_line (z : ℤ) (zs : List ℤ) : words (line (z :: zs)) = (z :: zs).map decimal := by
  induction zs generalizing z with
  | nil =>
      have := words_append_cons (isWord_decimal z) (c := '\n') (by decide) []
      simpa [line, row] using this
  | cons z' zs ih =>
      have := words_append_cons (isWord_decimal z) (c := ' ') (by decide) (line (z' :: zs))
      rw [ih] at this
      simpa [line, row] using this

lemma mapM_parseInt_decimal (zs : List ℤ) : (zs.map decimal).mapM parseInt = some zs := by
  induction zs with
  | nil => rfl
  | cons z zs ih => simp [ih]

/-- **A line of numbers is read back as these numbers.** -/
theorem parseLine_line (z : ℤ) (zs : List ℤ) : parseLine (line (z :: zs)) = some (z :: zs) := by
  rw [parseLine, words_line, mapM_parseInt_decimal]

/-- There is no line break inside a row. -/
lemma newline_notMem_row : ∀ zs : List ℤ, '\n' ∉ row zs
  | [] => by simp [row]
  | [z] => fun h => by
      have := (isWord_decimal z).2 _ h
      exact absurd this (by decide)
  | z :: z' :: zs => by
      have hz : '\n' ∉ decimal z := fun h => by
        have := (isWord_decimal z).2 _ h
        exact absurd this (by decide)
      simp only [row, List.mem_append, List.mem_cons, not_or]
      exact ⟨hz, by decide, newline_notMem_row (z' :: zs)⟩

/-- **A file of lines of numbers is read back line by line.** -/
theorem readLines_flatMap_line (rows : List (List ℤ)) :
    readLines (rows.flatMap line) = rows.map line := by
  induction rows with
  | nil => rfl
  | cons zs rows ih =>
      rw [List.flatMap_cons, line, List.append_assoc, List.singleton_append,
        readLines_append (newline_notMem_row zs), ih]
      rfl

end Multicore.Text
