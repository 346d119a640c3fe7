import Multicore.Project1.Search

/-!
# One object, any sequence of calls

An `AhoCorasick` is used by three calls: a batch of words is added, a word is deleted, a string is
searched.  The object numbers all words that were ever added and remembers the numbers that were
deleted; `makeGraph` rebuilds the whole table after each batch.  This module says what follows for
a sequence of calls from the constructor on.

The rows of the table are counted in `int`.  A constructor with large arguments, or words with many
letters, make the count overflow; then the table has too few rows or cannot be allocated at all.
The results are for objects and calls where that does not happen, and the two cases where it does
are `memory_exhausted` and `search_after_overflow`.

* `Call`, `AhoCorasick.history` — the calls and their effect.  A row outside of the table is
  `none`.
* `LiveAfter` — the words that should be found, read off the calls alone.
* **`search_by_history`** — `search` finds exactly those.
* **`memory_suffices`** — no call uses a row outside of the table, and no edge leads out of it.
* `Graph.follow` — the state at the end of a string, if no edge on the way is missing.
* **`makeGraph_prefix_automaton`** — the table is the prefix automaton of the words.
-/

namespace Multicore.Project1

/-- A call of a method. -/
inductive Call
  | addWord (batch : List Word)
  | deleteWord (w : Word)
  | search (s : Str)
  deriving DecidableEq

variable {F F' : AhoCorasick} {calls : List Call} {c : Call} {st : Str → ℕ} {t u w : Str}

/-! ## What the calls do -/

namespace AhoCorasick

/-- One call.  A search leaves nothing behind that a later call reads. -/
def call (F : AhoCorasick) : Call → Option AhoCorasick
  | .addWord batch => F.addWord (batch.map Subtype.val)
  | .deleteWord w => some (F.deleteWord w.1)
  | .search s => (F.search s).map fun _ => F

/-- A sequence of calls. -/
def exec (F : AhoCorasick) (calls : List Call) : Option AhoCorasick :=
  calls.foldlM AhoCorasick.call F

/-- An object from its constructor on. -/
def history (patternNum patternLen : ℤ) (calls : List Call) : Option AhoCorasick := do
  let F ← new patternNum patternLen
  F.exec calls

lemma history_snoc {patternNum patternLen : ℤ} (h : history patternNum patternLen calls = some F) :
    history patternNum patternLen (calls ++ [c]) = F.call c := by
  simp only [history, exec, Option.bind_eq_bind, Option.bind_eq_some_iff] at h
  obtain ⟨F₀, hnew, hexec⟩ := h
  simp [history, exec, hnew, List.foldlM_append, hexec]

end AhoCorasick

/-- All words that were added, in order. -/
def added (calls : List Call) : List Str :=
  calls.flatMap fun
    | .addWord batch => batch.map Subtype.val
    | _ => []

lemma added_append (calls calls' : List Call) :
    added (calls ++ calls') = added calls ++ added calls' := List.flatMap_append

lemma added_snoc (calls : List Call) (batch : List Word) :
    added (calls ++ [.addWord batch]) = added calls ++ batch.map Subtype.val := by
  simp [added]

/-- The word was added, and no deletion of it came after its last addition. -/
def LiveAfter (calls : List Call) (w : Str) : Prop :=
  ∃ i, (∃ batch, calls[i]? = some (.addWord batch) ∧ w ∈ batch.map Subtype.val) ∧
    ∀ (j : ℕ) (v : Word), calls[j]? = some (.deleteWord v) → v.1 = w → j < i

/-- What a further call does to the live words. -/
def Call.live (L : Prop) (w : Str) : Call → Prop
  | .addWord batch => w ∈ batch.map Subtype.val ∨ L
  | .deleteWord v => w ≠ v.1 ∧ L
  | .search _ => L

lemma getElem?_snoc_eq_some {i : ℕ} {d : Call} :
    (calls ++ [c])[i]? = some d ↔ calls[i]? = some d ∨ i = calls.length ∧ c = d := by
  rcases Nat.lt_trichotomy i calls.length with hlt | rfl | hgt
  · rw [List.getElem?_append_left hlt]
    simp [hlt.ne]
  · simp
  · rw [List.getElem?_eq_none (by simp; omega), List.getElem?_eq_none hgt.le]
    simp [hgt.ne']

lemma liveAfter_snoc : LiveAfter (calls ++ [c]) w ↔ c.live (LiveAfter calls w) w := by
  constructor
  · rintro ⟨i, ⟨batch, hi, hw⟩, hdel⟩
    have hold : ∀ (j : ℕ) (v : Word), calls[j]? = some (.deleteWord v) → v.1 = w → j < i :=
      fun j v hj => hdel j v (getElem?_snoc_eq_some.2 (Or.inl hj))
    rcases getElem?_snoc_eq_some.1 hi with hi' | ⟨rfl, rfl⟩
    · have hlive : LiveAfter calls w := ⟨i, ⟨batch, hi', hw⟩, hold⟩
      cases c with
      | addWord batch => exact Or.inr hlive
      | deleteWord v =>
          refine ⟨?_, hlive⟩
          rintro rfl
          have hlt := hdel calls.length v (getElem?_snoc_eq_some.2 (Or.inr ⟨rfl, rfl⟩)) rfl
          have hlt' : i < calls.length := (List.getElem?_eq_some_iff.1 hi').1
          omega
      | search s => exact hlive
    · exact Or.inl hw
  · intro h
    have hkeep : LiveAfter calls w → (∀ v, c = .deleteWord v → v.1 ≠ w) →
        LiveAfter (calls ++ [c]) w := by
      rintro ⟨i, ⟨batch, hi, hw⟩, hdel⟩ hne
      refine ⟨i, ⟨batch, getElem?_snoc_eq_some.2 (Or.inl hi), hw⟩, fun j v hj hv => ?_⟩
      rcases getElem?_snoc_eq_some.1 hj with hj | ⟨-, hj⟩
      · exact hdel j v hj hv
      · exact absurd hv (hne v hj)
    cases c with
    | addWord batch =>
        rcases h with hw | h
        · refine ⟨calls.length, ⟨batch, getElem?_snoc_eq_some.2 (Or.inr ⟨rfl, rfl⟩), hw⟩, ?_⟩
          intro j v hj _
          rcases getElem?_snoc_eq_some.1 hj with hj | ⟨-, hj⟩
          · exact (List.getElem?_eq_some_iff.1 hj).1
          · exact absurd hj (by simp)
        · exact hkeep h fun v hv => absurd hv (by simp)
    | deleteWord v =>
        refine hkeep h.2 fun u hu => ?_
        obtain rfl : v = u := Call.deleteWord.inj hu
        exact h.1.symm
    | search s => exact hkeep h fun v hv => absurd hv (by simp)

namespace AhoCorasick

/-! ## What the object means after them -/

/-- The object agrees with the calls that were made. -/
structure Follows (F : AhoCorasick) (st : Str → ℕ) (calls : List Call) : Prop where
  sound : F.Sound
  built : F.Built st
  words : F.words = added calls
  live : ∀ w, F.Live w ↔ LiveAfter calls w

/-- A new object agrees with no calls. -/
lemma follows_new {patternNum patternLen : ℕ} (hnew : patternNum + patternLen * 2 + 1 < 2 ^ 31) :
    ∃ F, history patternNum patternLen [] = some F ∧ F.Follows (fun _ => 0) [] := by
  obtain ⟨F, hF, hwords, hsound, hbuilt⟩ := new_spec hnew
  refine ⟨F, by simp [history, exec, hF], hsound, hbuilt, hwords, fun w => ?_⟩
  constructor
  · rintro ⟨i, hi, -⟩
    exact absurd hi.mem (by simp [hwords])
  · rintro ⟨i, ⟨batch, hi, -⟩, -⟩
    exact absurd hi (by simp)

/-- **One more call.** -/
lemma Follows.call (h : F.Follows st calls) (c : Call) (hfit : Fits (added (calls ++ [c]))) :
    ∃ F' st', F.call c = some F' ∧ F'.Follows st' (calls ++ [c]) := by
  have hadded : added (calls ++ [c]) = added calls ++ added [c] := added_append _ _
  cases c with
  | addWord batch =>
      have hne : ∀ w ∈ batch.map Subtype.val, w ≠ [] := by
        intro w hw
        obtain ⟨v, -, rfl⟩ := List.mem_map.1 hw
        exact v.2
      have hfit' : Fits (F.words ++ batch.map Subtype.val) := by
        rwa [added_snoc, ← h.words] at hfit
      obtain ⟨F', st', hadd, hwords, hdel, hsound, hbuilt⟩ := addWord_spec h.sound hne hfit'
      refine ⟨F', st', hadd, hsound, hbuilt, ?_, fun w => ?_⟩
      · rw [hwords, hadded, h.words]
        simp [added]
      · rw [live_append h.sound hwords hdel, liveAfter_snoc, h.live, Call.live]
  | deleteWord v =>
      refine ⟨_, st, rfl, h.sound.deleteWord v.1, h.built.deleteWord v.1, ?_, fun w => ?_⟩
      · rw [hadded, ← h.words]
        simp [added, deleteWord]
      · rw [live_deleteWord, liveAfter_snoc, h.live, Call.live]
  | search s =>
      obtain ⟨result, hsearch, -⟩ := h.built.search_spec h.sound s
      refine ⟨F, st, ?_, h.sound, h.built, ?_, fun w => ?_⟩
      · rw [AhoCorasick.call, hsearch, Option.map_some]
      · rw [hadded, ← h.words]
        simp [added]
      · rw [liveAfter_snoc, h.live, Call.live]

/-- **Any sequence of calls.** -/
lemma history_follows {patternNum patternLen : ℕ} (hnew : patternNum + patternLen * 2 + 1 < 2 ^ 31)
    (calls : List Call) (hfit : Fits (added calls)) :
    ∃ F st, history patternNum patternLen calls = some F ∧ F.Follows st calls := by
  induction calls using List.reverseRecOn with
  | nil =>
      obtain ⟨F, hF, h⟩ := follows_new hnew
      exact ⟨F, _, hF, h⟩
  | append_singleton calls c ih =>
      have hfit' := hfit
      rw [added_append] at hfit'
      obtain ⟨F, st, hF, h⟩ := ih hfit'.left
      obtain ⟨F', st', hcall, h'⟩ := h.call c hfit
      exact ⟨F', st', (history_snoc hF).trans hcall, h'⟩

/-- **`search` answers by history.**  After any calls, `search` returns the live words that occur
in the string, sorted by the start of the first occurrence and then by length.  The numbers of rows
asked for, by the constructor and by `makeGraph`, are to fit into an `int`. -/
theorem search_by_history (patternNum patternLen : ℕ) (calls : List Call) (s : Str)
    (hnew : patternNum + patternLen * 2 + 1 < 2 ^ 31) (hfit : Fits (added calls)) :
    ∃ F result, history patternNum patternLen calls = some F ∧ F.search s = some result ∧
      Answers s (LiveAfter calls) result := by
  obtain ⟨F, st, hF, h⟩ := history_follows hnew calls hfit
  obtain ⟨result, hsearch, hans⟩ := h.built.search_spec h.sound s
  refine ⟨F, result, hF, hsearch, hans.sorted, fun w => ?_⟩
  rw [hans.mem, h.live]

/-- Two words are added and one of them is deleted. -/
theorem search_by_history_deleted :
    let calls : List Call :=
      [.addWord [⟨[0], by decide⟩, ⟨[0, 1], by decide⟩], .deleteWord ⟨[0], by decide⟩]
    Fits (added calls) ∧
      ∃ F result, history 0 0 calls = some F ∧ F.search [2, 0, 1] = some result ∧
        Answers [2, 0, 1] (LiveAfter calls) result :=
  ⟨by decide, search_by_history 0 0 _ _ (by decide) (by decide)⟩

/-- A single word of `2 ^ 30` letters: the number of rows becomes negative and `resize` throws. -/
lemma addWord_overflow (w : Word) (hlen : w.1.length = 2 ^ 30) :
    history 0 0 [.addWord [w]] = none := by
  have hrows : rowCount 0 0 = 1 := by decide
  have hsum : toInt (0 + ((2 ^ 30 : ℕ) : ℤ)) = 2 ^ 30 := by decide
  have htest : (1 : ℤ) < toInt ((1 : ℕ) + 2 ^ 30 + 1) := by decide
  have hcount : ¬ 0 ≤ rowCount (1 : ℕ) (2 ^ 30) := by decide
  simp only [history, exec, new, call, addWord, makeGraph, table, Graph.resize, List.foldlM_cons,
    List.map_cons, List.map_nil, List.nil_append, List.foldl_cons, List.foldl_nil, hlen, hrows,
    List.length_singleton, hsum, htest, hcount, if_true, if_false, zero_le_one,
    Option.bind_eq_bind, Option.bind_some, Option.bind_none]

/-- After such a word no search is answered. -/
theorem search_after_overflow :
    ∃ w : Word, w.1.length = 2 ^ 30 ∧
      ∀ s, (history 0 0 [.addWord [w]]).bind (fun F => F.search s) = none := by
  have hlen : (List.replicate (2 ^ 30) (0 : Letter)).length = 2 ^ 30 := List.length_replicate
  generalize List.replicate (2 ^ 30) (0 : Letter) = w at hlen
  have hne : w ≠ [] := by
    rintro rfl
    exact absurd hlen (by decide)
  refine ⟨⟨w, hne⟩, hlen, fun s => ?_⟩
  rw [addWord_overflow ⟨w, hne⟩ hlen, Option.bind_none]

end AhoCorasick

/-! ## Rows and edges -/

namespace AhoCorasick

/-- A call leaves a closed table closed. -/
lemma Follows.call_closed (h : F.Follows st calls) (hF : F.graph.Closed)
    (hfit : Fits (added (calls ++ [c]))) (hcall : F.call c = some F') : F'.graph.Closed := by
  cases c with
  | addWord batch =>
      have hne : ∀ w ∈ batch.map Subtype.val, w ≠ [] := by
        intro w hw
        obtain ⟨v, -, rfl⟩ := List.mem_map.1 hw
        exact v.2
      have hfit' : Fits (F.words ++ batch.map Subtype.val) := by
        rwa [added_snoc, ← h.words] at hfit
      exact makeGraph_closed (h.sound.addWords hne hfit') hcall
  | deleteWord v =>
      obtain rfl := Option.some.inj hcall
      exact hF
  | search s =>
      obtain ⟨result, -, rfl⟩ := Option.map_eq_some_iff.1 hcall
      exact hF

/-- No call makes an edge that leads out of the table. -/
lemma history_closed {patternNum patternLen : ℕ} (hnew : patternNum + patternLen * 2 + 1 < 2 ^ 31)
    (calls : List Call) (hfit : Fits (added calls))
    (hF : history patternNum patternLen calls = some F) : F.graph.Closed := by
  induction calls using List.reverseRecOn generalizing F with
  | nil =>
      simp only [history, exec, new, Graph.resize, List.foldlM_nil, Option.bind_eq_bind,
        Option.bind_eq_some_iff] at hF
      obtain ⟨F₀, ⟨g, hg, hF₀⟩, hF⟩ := hF
      split_ifs at hg
      obtain rfl := Option.some.inj hg
      obtain rfl := Option.some.inj hF₀
      obtain rfl := Option.some.inj hF
      intro r _ c q hq
      exact absurd hq (by simp [Graph.blank])
  | append_singleton calls c ih =>
      have hfit' := hfit
      rw [added_append] at hfit'
      obtain ⟨F₀, st, hF₀, h⟩ := history_follows hnew calls hfit'.left
      rw [history_snoc hF₀] at hF
      exact h.call_closed (ih hfit'.left hF₀) hfit hF

end AhoCorasick

/-! ## The automaton -/

/-- The edges of the table along a string, from the state `r` on: `some none` if one of them is
`-1`. -/
def Graph.follow (g : Graph) (r : ℕ) : Str → Option (Option ℕ)
  | [] => some (some r)
  | c :: rest => do
      match ← g.read r c with
      | none => some none
      | some q => g.follow q rest

namespace AhoCorasick

lemma Built.follow_of_known (hB : F.Built st) (h : Known F.words (u ++ t)) :
    F.graph.follow (st u) t = some (some (st (u ++ t))) := by
  induction t generalizing u with
  | nil => rw [Graph.follow, List.append_nil]
  | cons c t ih =>
      rw [List.append_cons] at h ⊢
      have huc : Known F.words (u ++ [c]) := hB.tree.of_isPrefix h (List.prefix_append _ _)
      have hu : Known F.words u := hB.tree.closed u c huc
      have hread : F.graph.read (st u) c = some (some (st (u ++ [c]))) := by
        rw [Graph.read, if_pos (hB.size u hu), hB.tree.edge_eq_some huc]
      simp only [Graph.follow, hread, Option.bind_eq_bind, Option.bind_some]
      exact ih h

lemma Built.follow_of_not_known (hB : F.Built st) (hu : Known F.words u)
    (h : ¬ Known F.words (u ++ t)) : F.graph.follow (st u) t = some none := by
  induction t generalizing u with
  | nil => exact absurd hu (by simpa using h)
  | cons c t ih =>
      rw [List.append_cons] at h
      by_cases huc : Known F.words (u ++ [c])
      · have hread : F.graph.read (st u) c = some (some (st (u ++ [c]))) := by
          rw [Graph.read, if_pos (hB.size u hu), hB.tree.edge_eq_some huc]
        simp only [Graph.follow, hread, Option.bind_eq_bind, Option.bind_some]
        exact ih huc h
      · have hread : F.graph.read (st u) c = some none := by
          rw [Graph.read, if_pos (hB.size u hu), hB.tree.edge_eq_none hu huc]
        simp only [Graph.follow, hread, Option.bind_eq_bind, Option.bind_some]

/-- The string leads somewhere exactly if it is known, and then to its state. -/
lemma Built.follow_iff (hB : F.Built st) {q : ℕ} :
    F.graph.follow F.initState t = some (some q) ↔ Known F.words t ∧ st t = q := by
  rw [← hB.tree.root]
  by_cases ht : Known F.words t
  · rw [hB.follow_of_known (u := []) ht]
    simp [ht]
  · rw [hB.follow_of_not_known hB.tree.nil ht]
    simp [ht]

/-- What the table says about a list of words. -/
structure PrefixAutomaton (F : AhoCorasick) (words : List Str) : Prop where
  inside : ∀ t, F.graph.follow F.initState t ≠ none
  route : ∀ t, (∃ q, F.graph.follow F.initState t = some (some q)) ↔
    t = [] ∨ ∃ w ∈ words, t <+: w
  distinct : ∀ t t' q, F.graph.follow F.initState t = some (some q) →
    F.graph.follow F.initState t' = some (some q) → t = t'
  final : ∀ t q, F.graph.follow F.initState t = some (some q) →
    (q < F.initState ↔ t ∈ words) ∧
    (t ∈ words → words[q]? = some t ∧ ∀ i, words[i]? = some t → i ≤ q)

lemma Built.prefixAutomaton (hB : F.Built st) : F.PrefixAutomaton F.words where
  inside t := by
    rw [← hB.tree.root]
    by_cases ht : Known F.words t
    · rw [hB.follow_of_known (u := []) ht]
      simp
    · rw [hB.follow_of_not_known hB.tree.nil ht]
      simp
  route t := by
    simp only [hB.follow_iff, exists_and_left, exists_eq', and_true]
    rfl
  distinct t t' q h h' := by
    obtain ⟨ht, rfl⟩ := hB.follow_iff.1 h
    obtain ⟨ht', heq⟩ := hB.follow_iff.1 h'
    exact hB.tree.inj t t' ht ht' heq.symm
  final t q h := by
    obtain ⟨ht, rfl⟩ := hB.follow_iff.1 h
    rcases hB.label t ht with hlast | ⟨hno, hge⟩
    · refine ⟨⟨fun _ => hlast.mem, fun _ => ?_⟩, fun _ => ⟨hlast.1, fun i hi => hlast.2 hi⟩⟩
      rw [hB.init]
      exact hlast.lt_length
    · exact ⟨⟨fun hlt => absurd hlt (not_lt.2 hge), fun hmem => absurd hmem hno⟩,
        fun hmem => absurd hmem hno⟩

/-- **`makeGraph` builds the prefix automaton.**  After any calls, and for the words that were
added by them: a string meets no `-1` if and only if it is empty or the beginning of a word;
different strings lead to different states; and a state is below `init_state` if and only if its
string is a word, and then it is the largest index of the word.  The numbers of rows asked for are
to fit into an `int`. -/
theorem makeGraph_prefix_automaton (patternNum patternLen : ℕ) (calls : List Call)
    (hnew : patternNum + patternLen * 2 + 1 < 2 ^ 31) (hfit : Fits (added calls)) :
    ∃ F F', history patternNum patternLen calls = some F ∧ F.words = added calls ∧
      F.makeGraph = some F' ∧ F'.PrefixAutomaton (added calls) := by
  obtain ⟨F, st, hF, h⟩ := history_follows hnew calls hfit
  obtain ⟨F', st', hmake, hwords, -, -, hbuilt⟩ := makeGraph_spec h.sound
  refine ⟨F, F', hF, h.words, hmake, ?_⟩
  rw [← h.words, ← hwords]
  exact hbuilt.prefixAutomaton

/-- A word, its beginning and a second copy of it. -/
theorem makeGraph_prefix_automaton_copies :
    let calls : List Call :=
      [.addWord [⟨[0, 1], by decide⟩, ⟨[0], by decide⟩, ⟨[0, 1], by decide⟩]]
    Fits (added calls) ∧
      ∃ F F', history 0 0 calls = some F ∧ F.words = added calls ∧ F.makeGraph = some F' ∧
        F'.PrefixAutomaton (added calls) :=
  ⟨by decide, makeGraph_prefix_automaton 0 0 _ (by decide) (by decide)⟩

/-- Without words the empty string still meets no `-1`, although it begins no word. -/
theorem makeGraph_no_words :
    ∃ F F', new 0 0 = some F ∧ F.makeGraph = some F' ∧ F'.words = [] ∧
      F'.graph.follow F'.initState [] = some (some F'.initState) ∧
      ¬ ∃ w ∈ F'.words, [] <+: w := by
  refine ⟨_, _, rfl, rfl, rfl, rfl, ?_⟩
  rintro ⟨w, hw, -⟩
  exact List.not_mem_nil hw

end AhoCorasick

end Multicore.Project1
