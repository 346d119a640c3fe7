import Mathlib.Tactic
import Mathlib.Data.List.Lex
import Mathlib.Data.List.Infix
import Mathlib.Data.List.Sort

/-!
# What a query asks for

Two programs keep a set of words under the commands `A w` (add), `D w` (delete) and `Q s` (query):
a trie in `project1/ref_solution.cpp` and a string matcher per word in
`project1/kmp_solution/ref_solution.cpp`.  This module has what both of them read and write, and
what they are for.

* `Cmd` — a command; `StrSet` — a `set<string>`, the sorted list of its elements.
* `firstPos`, `key` — where a word first occurs in a query, and the pair the answer is sorted by.
* `Answers s p ws` — `ws` is the answer to `Q s` over the words that satisfy `p`.  There is only
  one (**`Answers.unique`**), so that a program is right if its answer is *an* answer.
* `line` — the text of an answer; **`line_injective`**: the text determines the answer.
* `specRun` — the lines that a script of commands must print.
-/

namespace Multicore.Project1

/-- A lowercase letter; `'a'` is `0`. -/
abbrev Letter := Fin 26

/-- A `string` of lowercase letters. -/
abbrev Str := List Letter

/-- A word of the set is not empty. -/
abbrev Word := {w : Str // w ≠ []}

/-- A line of the script. -/
inductive Cmd
  | A (w : Word)
  | D (w : Word)
  | Q (s : Str)
  deriving DecidableEq

/-! ## Sets of strings -/

/-- A `set<string>`: its elements in the order of iteration. -/
structure StrSet where
  elems : List Str
  sorted : elems.Pairwise (· < ·)

namespace StrSet

instance : Membership Str StrSet := ⟨fun S w => w ∈ S.elems⟩

instance (w : Str) (S : StrSet) : Decidable (w ∈ S) := inferInstanceAs (Decidable (w ∈ S.elems))

lemma mem_def {S : StrSet} {w : Str} : w ∈ S ↔ w ∈ S.elems := Iff.rfl

lemma nodup (S : StrSet) : S.elems.Nodup := S.sorted.imp fun h => ne_of_lt h

/-- The empty set. -/
def empty : StrSet := ⟨[], List.Pairwise.nil⟩

@[simp] lemma not_mem_empty (w : Str) : w ∉ empty := List.not_mem_nil

/-- `set::insert`. -/
def insert (S : StrSet) (w : Str) : StrSet where
  elems := if w ∈ S.elems then S.elems else S.elems.orderedInsert (· ≤ ·) w
  sorted := by
    split_ifs with h
    · exact S.sorted
    · have hle := List.Pairwise.orderedInsert w S.elems (S.sorted.imp fun h => le_of_lt h)
      have hnd : (S.elems.orderedInsert (· ≤ ·) w).Nodup :=
        (List.perm_orderedInsert (· ≤ ·) w S.elems).nodup_iff.2
          (List.nodup_cons.2 ⟨h, S.nodup⟩)
      exact (hle.and hnd).imp fun ⟨h1, h2⟩ => lt_of_le_of_ne h1 h2

@[simp] lemma mem_insert {S : StrSet} {v w : Str} : v ∈ S.insert w ↔ v = w ∨ v ∈ S := by
  simp only [mem_def, insert]
  split_ifs with h
  · constructor
    · exact Or.inr
    · rintro (rfl | hv)
      · exact h
      · exact hv
  · exact List.mem_orderedInsert _

/-- `set::erase`. -/
def erase (S : StrSet) (w : Str) : StrSet where
  elems := S.elems.erase w
  sorted := S.sorted.sublist List.erase_sublist

@[simp] lemma mem_erase {S : StrSet} {v w : Str} : v ∈ S.erase w ↔ v ≠ w ∧ v ∈ S :=
  S.nodup.mem_erase_iff

/-- The set after the initial words have been read. -/
def ofWords (ws : List Word) : StrSet := ws.foldl (fun S w => S.insert w.1) empty

lemma mem_foldl_insert {ws : List Word} {S : StrSet} {v : Str} :
    v ∈ ws.foldl (fun S w => S.insert w.1) S ↔ v ∈ ws.map Subtype.val ∨ v ∈ S := by
  induction ws generalizing S with
  | nil => simp
  | cons w ws ih =>
      simp only [List.foldl_cons, ih, mem_insert, List.map_cons, List.mem_cons]
      tauto

@[simp] lemma mem_ofWords {ws : List Word} {v : Str} :
    v ∈ ofWords ws ↔ v ∈ ws.map Subtype.val := by
  rw [ofWords, mem_foldl_insert]
  simp only [not_mem_empty, or_false]

end StrSet

/-! ## Occurrences -/

section Occurrences

variable {α : Type*} [DecidableEq α] {w s : List α} {i : ℕ}

/-- Where `w` first occurs in `s`; one more than the length of `s` if it does not. -/
def firstPos (w s : List α) : ℕ := s.tails.findIdx fun t => decide (w <+: t)

lemma firstPos_eq (hi : i ≤ s.length) (h : w <+: s.drop i) (hlt : ∀ j < i, ¬ w <+: s.drop j) :
    firstPos w s = i := by
  have hlen : i < s.tails.length := by rw [List.length_tails]; omega
  rw [firstPos, List.findIdx_eq hlen]
  simp only [List.getElem_tails, decide_eq_true_eq, decide_eq_false_iff_not]
  exact ⟨h, hlt⟩

lemma isPrefix_drop_firstPos (h : w <:+: s) :
    firstPos w s ≤ s.length ∧ w <+: s.drop (firstPos w s) := by
  obtain ⟨x, y, hxy⟩ := h
  have hmem : ∃ t ∈ s.tails, decide (w <+: t) = true :=
    ⟨w ++ y, (List.mem_tails _ _).2 ⟨x, by rw [← hxy, List.append_assoc]⟩, by simp⟩
  have hlt : firstPos w s < s.tails.length := List.findIdx_lt_length.2 hmem
  have hget := ((List.findIdx_eq hlt).1 rfl).1
  rw [List.getElem_tails, decide_eq_true_eq] at hget
  rw [List.length_tails] at hlt
  exact ⟨Nat.lt_succ_iff.1 hlt, hget⟩

lemma firstPos_le (h : w <+: s.drop i) : firstPos w s ≤ i := by
  by_contra! hlt
  have hinf : w <:+: s := h.isInfix.trans (List.drop_suffix i s).isInfix
  have hlen : firstPos w s < s.tails.length := by
    rw [List.length_tails]
    exact Nat.lt_succ_iff.2 (isPrefix_drop_firstPos hinf).1
  have hno := ((List.findIdx_eq hlen).1 rfl).2 i hlt
  rw [List.getElem_tails, decide_eq_false_iff_not] at hno
  exact hno h

end Occurrences

variable {v w s : Str} {ws ws' : List Str} {p q : Str → Prop}

/-- An answer is sorted by the place of the first occurrence, then by length. -/
def key (s w : Str) : ℕ ×ₗ ℕ := toLex (firstPos w s, w.length)

/-- Words that occur in the query are told apart by their keys. -/
lemma eq_of_key_eq (hv : v <:+: s) (hw : w <:+: s) (h : key s v = key s w) : v = w := by
  simp only [key, EmbeddingLike.apply_eq_iff_eq, Prod.mk.injEq] at h
  obtain ⟨hpos, hlen⟩ := h
  have hv := (isPrefix_drop_firstPos hv).2
  have hw := (isPrefix_drop_firstPos hw).2
  rw [hpos] at hv
  exact (List.prefix_of_prefix_length_le hv hw hlen.le).eq_of_length hlen

/-! ## Answers -/

/-- The answer to `Q s` over the words that satisfy `p`: each of them that occurs in `s`, sorted
by key. -/
structure Answers (s : Str) (p : Str → Prop) (ws : List Str) : Prop where
  sorted : ws.Pairwise fun v w => key s v < key s w
  mem : ∀ w, w ∈ ws ↔ p w ∧ w <:+: s

/-- **There is only one answer.** -/
theorem Answers.unique (h : Answers s p ws) (h' : Answers s p ws') : ws = ws' := by
  have hperm : ws.Perm ws' := by
    rw [List.perm_ext_iff_of_nodup (h.sorted.imp fun h => by rintro rfl; exact lt_irrefl _ h)
      (h'.sorted.imp fun h => by rintro rfl; exact lt_irrefl _ h)]
    exact fun w => (h.mem w).trans (h'.mem w).symm
  exact hperm.eq_of_pairwise (fun _ _ _ _ h1 h2 => absurd h1 h2.asymm) h.sorted h'.sorted

/-- Answers over two sets of words agree exactly if the sets do, as far as the query sees them. -/
theorem Answers.eq_iff (h : Answers s p ws) (h' : Answers s q ws') :
    ws = ws' ↔ ∀ w, w <:+: s → (p w ↔ q w) := by
  constructor
  · rintro rfl w hw
    have := (h.mem w).symm.trans (h'.mem w)
    simpa [hw] using this
  · intro hpq
    refine h.unique ⟨h'.sorted, fun w => ?_⟩
    rw [h'.mem]
    constructor
    · exact fun ⟨hq, hw⟩ => ⟨(hpq w hw).2 hq, hw⟩
    · exact fun ⟨hp, hw⟩ => ⟨(hpq w hw).1 hp, hw⟩

/-- A list with the right members, sorted by key, is the answer. -/
lemma answers_of_le (hnd : ws.Nodup) (hmem : ∀ w, w ∈ ws ↔ p w ∧ w <:+: s)
    (hle : ws.Pairwise fun v w => key s v ≤ key s w) : Answers s p ws := by
  refine ⟨?_, hmem⟩
  have hne : ws.Pairwise fun v w => v ≠ w := hnd
  refine (hle.and hne).imp_of_mem fun hv hw ⟨h1, h2⟩ => lt_of_le_of_ne h1 fun heq => h2 ?_
  exact eq_of_key_eq ((hmem _).1 hv).2 ((hmem _).1 hw).2 heq

/-- The answer, computed: the words of the set that occur in the query, sorted by key. -/
def answer (S : StrSet) (s : Str) : List Str :=
  (S.elems.filter fun w => decide (w <:+: s)).insertionSort fun v w => key s v ≤ key s w

lemma answers_answer (S : StrSet) (s : Str) : Answers s (· ∈ S) (answer S s) := by
  have hperm : (answer S s).Perm _ := List.perm_insertionSort _ _
  refine answers_of_le (hperm.nodup_iff.2 (S.nodup.filter _)) (fun w => ?_) ?_
  · rw [hperm.mem_iff, List.mem_filter, decide_eq_true_eq, StrSet.mem_def]
  · have : Std.Total fun v w : Str => key s v ≤ key s w := ⟨fun v w => le_total _ _⟩
    have : IsTrans Str fun v w => key s v ≤ key s w := ⟨fun _ _ _ => le_trans⟩
    exact List.pairwise_insertionSort _ _

/-! ## The printed line -/

/-- The characters of a string. -/
def text (w : Str) : List Char := w.map fun c : Letter => Char.ofNat ('a'.toNat + c)

/-- The line of an answer: its words joined by `'|'`, or `-1`. -/
def line (ws : List Str) : List Char :=
  if ws = [] then ['-', '1'] else ['|'].intercalate (ws.map text)

lemma text_injective : Function.Injective text :=
  List.map_injective_iff.2 (by decide)

/-- Neither `'|'` nor `'-'` is a letter. -/
lemma not_mem_text {c : Char} (hc : c = '|' ∨ c = '-') (w : Str) : c ∉ text w := by
  have hbar : ∀ x : Letter, Char.ofNat ('a'.toNat + x) ≠ '|' := by decide
  have hdash : ∀ x : Letter, Char.ofNat ('a'.toNat + x) ≠ '-' := by decide
  simp only [text, List.mem_map, not_exists, not_and]
  rintro x _ rfl
  rcases hc with hc | hc
  · exact hbar x hc
  · exact hdash x hc

/-- Splitting a line at the bars gives back the texts of the words. -/
lemma splitOn_line (h : ws ≠ []) : (line ws).splitOn '|' = ws.map text := by
  rw [line, if_neg h]
  refine List.splitOn_intercalate '|' ?_ (by simpa using h)
  simp only [List.mem_map, forall_exists_index, and_imp, forall_apply_eq_imp_iff₂]
  exact fun w _ => not_mem_text (Or.inl rfl) w

lemma line_ne_dash (h : ws ≠ []) : line ws ≠ line [] := by
  intro heq
  have hsplit := splitOn_line h
  rw [heq] at hsplit
  have hmem : ['-', '1'] ∈ ws.map text := by
    rw [← hsplit]
    decide
  obtain ⟨w, _, hw⟩ := List.mem_map.1 hmem
  exact not_mem_text (Or.inr rfl) w (hw ▸ List.mem_cons_self)

/-- **The line determines the answer.** -/
theorem line_injective : Function.Injective line := by
  intro ws ws' h
  by_cases h1 : ws = []
  · by_cases h2 : ws' = []
    · rw [h1, h2]
    · exact absurd (h1 ▸ h.symm) (line_ne_dash h2)
  · by_cases h2 : ws' = []
    · exact absurd (h2 ▸ h) (line_ne_dash h1)
    · refine text_injective.list_map ?_
      rw [← splitOn_line h1, ← splitOn_line h2, h]

/-! ## The specification -/

/-- The lines a script must print, from the words that are present. -/
def specRun (S : StrSet) : List Cmd → List (List Char)
  | [] => []
  | .A w :: script => specRun (S.insert w.1) script
  | .D w :: script => specRun (S.erase w.1) script
  | .Q s :: script => line (answer S s) :: specRun S script

/-- The lines a script must print, from the initial words. -/
def spec (init : List Word) (script : List Cmd) : List (List Char) :=
  specRun (StrSet.ofWords init) script

end Multicore.Project1
