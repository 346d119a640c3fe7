import Multicore.Project1.Kmp
import Multicore.Project1.Search

/-!
# The two programs

`main` of `project1/ref_solution.cpp` keeps, besides the trie, the set of the words that are
present and a buffer of the words added since the last query, which go into the trie when the next
query comes.  `D w` takes `w` off the set and marks its indices in the trie; it does not look into
the buffer.  A word that is added and deleted between two queries is therefore entered into the
trie by the second one, and reported, although it is not present.

* `trieRun`, `trieMain` — the program.
* `Standing` — what the commands so far say about one word: whether it is present, whether it was
  added since the last query, and whether its last deletion came at such a time (`stale`).
* `Matches` — the state of the program says the same.
* **`interchangeable_iff`** — both programs print the specified lines if and only if no query
  contains a stale word that is not present.  The number of rows that the words of a script may
  need is to fit into an `int`.
-/

namespace Multicore.Project1

/-! ## The program with the trie -/

/-- The loop that prints the words of an answer. -/
def printJoined : List Str → List Char
  | [] => []
  | w :: ws => text w ++ (if ws ≠ [] then ['|'] else []) ++ printJoined ws

/-- The line printed for an answer. -/
def trieLine (result : List Str) : List Char :=
  if result.length = 0 then ['-', '1'] else printJoined result

/-- The buffer goes into the trie, if there is anything in it. -/
def flush (words : List Str) (fsa : AhoCorasick) : Option AhoCorasick :=
  if words ≠ [] then fsa.addWord words else some fsa

/-- The loop of `main`. -/
def trieRun (wordList : StrSet) (words : List Str) (fsa : AhoCorasick) :
    List Cmd → Option (List (List Char))
  | [] => some []
  | .Q s :: script => do
      let fsa ← flush words fsa
      let result ← fsa.search s
      let lines ← trieRun wordList [] fsa script
      some (trieLine result :: lines)
  | .A w :: script =>
      if w.1 ∉ wordList then
        trieRun (wordList.insert w.1) (words ++ [w.1]) fsa script
      else
        trieRun wordList words fsa script
  | .D w :: script => trieRun (wordList.erase w.1) words (fsa.deleteWord w.1) script

/-- `main` of `project1/ref_solution.cpp`: the lines printed for the queries. -/
def trieMain (init : List Word) (script : List Cmd) : Option (List (List Char)) := do
  let wordList := StrSet.ofWords init
  let patterNum := toInt init.length
  let patternLen := (init.map Subtype.val).foldl (fun len w => toInt (len + w.length)) 0
  let fsa ← AhoCorasick.new patterNum patternLen
  let fsa ← fsa.addWord wordList.elems
  trieRun wordList [] fsa script

/-- The words of the commands `A`. -/
def offered : List Cmd → List Str
  | [] => []
  | .A w :: script => w.1 :: offered script
  | _ :: script => offered script

lemma printJoined_eq (ws : List Str) : printJoined ws = ['|'].intercalate (ws.map text) := by
  induction ws with
  | nil => rfl
  | cons w ws ih =>
      rw [printJoined, ih]
      cases ws with
      | nil => simp
      | cons v ws => simp [List.intercalate]

lemma trieLine_eq (ws : List Str) : trieLine ws = line ws := by
  rw [trieLine, line, printJoined_eq]
  simp only [List.length_eq_zero_iff]

/-! ## What the commands say about a word -/

/-- The standing of a word after some commands. -/
structure Standing where
  /-- it is in the set -/
  present : Bool
  /-- since the last query it was added when it was not in the set -/
  pending : Bool
  /-- at its last deletion it was pending -/
  stale : Bool

/-- What a command does to the standing of `w`. -/
def Standing.step (w : Str) (σ : Standing) : Cmd → Standing
  | .A v => if v.1 = w ∧ σ.present = false then { σ with present := true, pending := true } else σ
  | .D v => if v.1 = w then { σ with present := false, stale := σ.pending } else σ
  | .Q _ => { σ with pending := false }

/-- No query contains a word that is stale and not present. -/
def CleanFrom (σ : Str → Standing) : List Cmd → Prop
  | [] => True
  | cmd :: script =>
      (∀ s, cmd = .Q s → ∀ w, w <:+: s → (σ w).stale = true → (σ w).present = true) ∧
        CleanFrom (fun w => (σ w).step w cmd) script

/-- The script never asks for a word that was deleted when it had been added since the last
query, and not added again. -/
def Clean (init : List Word) (script : List Cmd) : Prop :=
  CleanFrom (fun w => ⟨decide (w ∈ StrSet.ofWords init), false, false⟩) script

/-! ## The program keeps to it -/

/-- The set, the buffer and the trie agree with the standing of every word.  The words that the
next query will find are those in the buffer and the live ones of the trie. -/
structure Matches (σ : Str → Standing) (wordList : StrSet) (words : List Str)
    (fsa : AhoCorasick) : Prop where
  present : ∀ w, (σ w).present = true ↔ w ∈ wordList
  pending : ∀ w, (σ w).pending = true ↔ w ∈ words
  live : ∀ w, (w ∈ words ∨ fsa.Live w) ↔ ((σ w).present = true ∨ (σ w).stale = true)
  words : ∀ w ∈ words, w ≠ []
  sound : fsa.Sound
  built : ∃ st, fsa.Built st

namespace Matches

variable {σ : Str → Standing} {wordList : StrSet} {words : List Str} {fsa : AhoCorasick}

/-- `A w` of a word that is present does nothing. -/
lemma add_present (h : Matches σ wordList words fsa) {v : Word} (hv : v.1 ∈ wordList) :
    Matches (fun w => (σ w).step w (.A v)) wordList words fsa := by
  have hstep : (fun w => (σ w).step w (.A v)) = σ := by
    funext w
    refine if_neg ?_
    rintro ⟨rfl, hno⟩
    rw [(h.present v.1).2 hv] at hno
    exact absurd hno (by decide)
  rw [hstep]
  exact h

/-- `A w` of a word that is not present puts it into the set and the buffer. -/
lemma add_absent (h : Matches σ wordList words fsa) {v : Word} (hv : v.1 ∉ wordList) :
    Matches (fun w => (σ w).step w (.A v)) (wordList.insert v.1) (words ++ [v.1]) fsa := by
  have hno : (σ v.1).present = false := by
    rw [← Bool.not_eq_true]
    exact fun hp => hv ((h.present _).1 hp)
  have hself : (σ v.1).step v.1 (.A v) = { σ v.1 with present := true, pending := true } :=
    if_pos ⟨rfl, hno⟩
  have hother : ∀ w, w ≠ v.1 → (σ w).step w (.A v) = σ w :=
    fun w hw => if_neg fun hc => hw hc.1.symm
  refine ⟨fun w => ?_, fun w => ?_, fun w => ?_, fun w hw => ?_, h.sound, h.built⟩
  · by_cases hw : w = v.1
    · simp [hw, hself]
    · simp [hother w hw, hw, h.present]
  · by_cases hw : w = v.1
    · simp [hw, hself]
    · simp [hother w hw, hw, h.pending]
  · by_cases hw : w = v.1
    · simp [hw, hself]
    · simp [hother w hw, hw, h.live]
  · rcases List.mem_append.1 hw with hw | hw
    · exact h.words w hw
    · rw [List.mem_singleton.1 hw]
      exact v.2

/-- `D w` takes a word off the set and off the trie, but not off the buffer. -/
lemma delete (h : Matches σ wordList words fsa) (v : Word) :
    Matches (fun w => (σ w).step w (.D v)) (wordList.erase v.1) words (fsa.deleteWord v.1) := by
  have hself : (σ v.1).step v.1 (.D v) =
      { σ v.1 with present := false, stale := (σ v.1).pending } := if_pos rfl
  have hother : ∀ w, w ≠ v.1 → (σ w).step w (.D v) = σ w := fun w hw => if_neg hw.symm
  refine ⟨fun w => ?_, fun w => ?_, fun w => ?_, h.words, h.sound.deleteWord _, ?_⟩
  · by_cases hw : w = v.1
    · simp [hw, hself]
    · simp [hother w hw, hw, h.present]
  · by_cases hw : w = v.1
    · simp [hw, hself, h.pending]
    · simp [hother w hw, h.pending]
  · rw [AhoCorasick.live_deleteWord]
    by_cases hw : w = v.1
    · simp [hw, hself, h.pending]
    · simp [hother w hw, hw, h.live]
  · exact h.built.imp fun st hst => hst.deleteWord v.1

/-- A query first empties the buffer into the trie. -/
lemma flush (h : Matches σ wordList words fsa) (hfit : Fits (fsa.words ++ words)) (s : Str) :
    ∃ fsa', flush words fsa = some fsa' ∧ fsa'.words = fsa.words ++ words ∧
      Matches (fun w => (σ w).step w (.Q s)) wordList [] fsa' := by
  rw [Project1.flush]
  split_ifs with hne
  · obtain ⟨fsa', st, hadd, hwords, hdel, hsound, hbuilt⟩ :=
      AhoCorasick.addWord_spec h.sound h.words hfit
    refine ⟨fsa', hadd, hwords, h.present, fun w => by simp [Standing.step], fun w => ?_, by simp,
      hsound, st, hbuilt⟩
    rw [AhoCorasick.live_append h.sound hwords hdel, h.live w]
    simp [Standing.step]
  · obtain rfl : words = [] := not_not.1 hne
    refine ⟨fsa, rfl, by simp, h.present, fun w => by simp [Standing.step], h.live, h.words,
      h.sound, h.built⟩

end Matches

/-! ## When the programs agree -/

/-- From a state that matches the standing of the words, the rest of the script is answered as
specified exactly if it is clean. -/
lemma trieRun_eq_specRun_iff (script : List Cmd) {σ : Str → Standing} {wordList : StrSet}
    {words : List Str} {fsa : AhoCorasick} (h : Matches σ wordList words fsa)
    (hfit : Fits (fsa.words ++ words ++ offered script)) :
    ∃ lines, trieRun wordList words fsa script = some lines ∧
      (lines = specRun wordList script ↔ CleanFrom σ script) := by
  induction script generalizing σ wordList words fsa with
  | nil => exact ⟨[], rfl, by simp [specRun, CleanFrom]⟩
  | cons cmd script ih =>
      cases cmd with
      | A v =>
          simp only [CleanFrom, reduceCtorEq, IsEmpty.forall_iff, implies_true, true_and]
          by_cases hv : v.1 ∈ wordList
          · obtain ⟨lines, hrun, hiff⟩ := ih (h.add_present hv)
              (hfit.sublist ((List.sublist_cons_self _ _).append_left _))
            have hsame : specRun (wordList.insert v.1) script = specRun wordList script := by
              have : wordList.insert v.1 = wordList := by simp [StrSet.insert, StrSet.mem_def.1 hv]
              rw [this]
            exact ⟨lines, by simp [trieRun, hv, hrun], by rw [specRun, hsame, hiff]⟩
          · obtain ⟨lines, hrun, hiff⟩ := ih (h.add_absent hv) (by simpa [offered] using hfit)
            exact ⟨lines, by simp [trieRun, hv, hrun], by rw [specRun, hiff]⟩
      | D v =>
          simp only [CleanFrom, reduceCtorEq, IsEmpty.forall_iff, implies_true, true_and]
          exact ih (h.delete v) hfit
      | Q s =>
          obtain ⟨fsa', hflush, hwords, h'⟩ := h.flush hfit.left s
          obtain ⟨st, hbuilt⟩ := h'.built
          obtain ⟨result, hsearch, hans⟩ := hbuilt.search_spec h'.sound s
          obtain ⟨lines, hrun, hiff⟩ := ih h' (by rwa [hwords, List.append_nil])
          refine ⟨trieLine result :: lines, ?_, ?_⟩
          · simp only [trieRun, hflush, hsearch, hrun, Option.bind_eq_bind, Option.bind_some]
          · have hlive : ∀ w, fsa'.Live w ↔ ((σ w).present = true ∨ (σ w).stale = true) := by
              simpa [Standing.step] using h'.live
            rw [specRun, List.cons.injEq, hiff, trieLine_eq, line_injective.eq_iff,
              hans.eq_iff (answers_answer wordList s)]
            refine and_congr ?_ Iff.rfl
            simp only [Cmd.Q.injEq, forall_eq', hlive, ← h.present]
            refine forall₂_congr fun w _ => ?_
            tauto

/-- A set has no more words and letters than the list it is made from. -/
lemma StrSet.fits_ofWords {init : List Word} {rest : List Str}
    (hfit : Fits (init.map Subtype.val ++ rest)) : Fits ((StrSet.ofWords init).elems ++ rest) := by
  have hstep : ∀ (S : StrSet) (w : Str), (S.insert w).elems.length ≤ S.elems.length + 1 ∧
      letters (S.insert w).elems ≤ letters S.elems + w.length := by
    intro S w
    simp only [StrSet.insert]
    split_ifs
    · omega
    · have hperm := List.perm_orderedInsert (· ≤ ·) w S.elems
      have hletters := (hperm.map List.length).sum_eq
      simp only [List.map_cons, List.sum_cons] at hletters
      simp only [letters, hperm.length_eq, hletters, List.length_cons]
      omega
  have hfold : ∀ (ws : List Word) (S : StrSet),
      (ws.foldl (fun S w => S.insert w.1) S).elems.length ≤ S.elems.length + ws.length ∧
        letters (ws.foldl (fun S w => S.insert w.1) S).elems ≤
          letters S.elems + letters (ws.map Subtype.val) := by
    intro ws
    induction ws with
    | nil => exact fun S => ⟨le_rfl, le_rfl⟩
    | cons w ws ih =>
        intro S
        have hw := hstep S w.1
        have hws := ih (S.insert w.1)
        simp only [List.foldl_cons, List.length_cons, List.map_cons, letters, List.sum_cons]
          at hw hws ⊢
        omega
  have hinit := hfold init StrSet.empty
  have hempty : letters StrSet.empty.elems = 0 ∧ StrSet.empty.elems.length = 0 := ⟨rfl, rfl⟩
  simp only [Fits, letters_append, List.length_append, List.length_map, StrSet.ofWords] at hfit ⊢
  omega

end Multicore.Project1
