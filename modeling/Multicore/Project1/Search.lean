import Multicore.Project1.AhoCorasick

/-!
# Searching the trie

`search` starts at every position of the input and follows the edges of the trie from there; a
string that leads to a final state is reported, unless it has been reported before or the index it
leads to has been deleted.

* `AhoCorasick.Live` — the words that the automaton reports: those whose *last* index has not been
  deleted.
* `Scanned s L i l r` — what has been reported when all positions before `i` have been searched,
  and position `i` up to strings of length `l`.
* **`search_spec`** — `search` returns the answer over the live words.
* `addWord_spec`, `live_deleteWord` — what the other two operations do to the live words.
-/

namespace Multicore.Project1

variable {s t u v w : Str} {i l : ℕ} {L : Str → Prop} {result : List Str}

/-! ## Searching in general -/

/-- `w` occurs before position `i`, or at `i` and is no longer than `l`. -/
def Seen (s : Str) (i l : ℕ) (w : Str) : Prop :=
  (∃ j < i, w <+: s.drop j) ∨ (w <+: s.drop i ∧ w.length ≤ l)

/-- The words of `L` that have been seen have been reported, sorted by key. -/
structure Scanned (s : Str) (L : Str → Prop) (i l : ℕ) (result : List Str) : Prop where
  sorted : result.Pairwise fun v w => key s v < key s w
  mem : ∀ w, w ∈ result ↔ L w ∧ Seen s i l w

/-- One letter further, one more string has been seen. -/
lemma seen_succ (ht : t <+: s.drop i) (hl : t.length = l + 1) :
    Seen s i (l + 1) w ↔ Seen s i l w ∨ w = t := by
  constructor
  · rintro (h | ⟨h, hle⟩)
    · exact Or.inl (Or.inl h)
    · rcases Nat.lt_or_ge l w.length with hlt | hge
      · have hlen : w.length = t.length := by omega
        exact Or.inr ((List.prefix_of_prefix_length_le h ht hlen.le).eq_of_length hlen)
      · exact Or.inl (Or.inr ⟨h, hge⟩)
  · rintro ((h | ⟨h, hle⟩) | rfl)
    · exact Or.inl h
    · exact Or.inr ⟨h, hle.trans (Nat.le_succ l)⟩
    · exact Or.inr ⟨ht, hl.le⟩

namespace Scanned

/-- A string that is new and belongs to `L` comes after all that were reported. -/
lemma push (h : Scanned s L i l result) (ht : t <+: s.drop i) (hl : t.length = l + 1)
    (hi : i ≤ s.length) (hL : L t) (hnew : t ∉ result) :
    Scanned s L i (l + 1) (result ++ [t]) := by
  have hunseen : ¬ Seen s i l t := fun hseen => hnew ((h.mem t).2 ⟨hL, hseen⟩)
  have hfirst : firstPos t s = i :=
    firstPos_eq hi ht fun j hj hpre => hunseen (Or.inl ⟨j, hj, hpre⟩)
  refine ⟨List.pairwise_append.2 ⟨h.sorted, List.pairwise_singleton _ _, ?_⟩, fun w => ?_⟩
  · intro w hw t' ht'
    obtain rfl := List.mem_singleton.1 ht'
    rw [key, key, Prod.Lex.toLex_lt_toLex, hfirst]
    rcases ((h.mem w).1 hw).2 with ⟨j, hj, hpre⟩ | ⟨hpre, hle⟩
    · exact Or.inl ((firstPos_le hpre).trans_lt hj)
    · rcases (firstPos_le hpre).lt_or_eq with hlt | heq
      · exact Or.inl hlt
      · exact Or.inr ⟨heq, by simp only; omega⟩
  · rw [List.mem_append, List.mem_singleton, h.mem w, seen_succ ht hl]
    constructor
    · rintro (⟨hw, hseen⟩ | rfl)
      · exact ⟨hw, Or.inl hseen⟩
      · exact ⟨hL, Or.inr rfl⟩
    · rintro ⟨hw, hseen | rfl⟩
      · exact Or.inl ⟨hw, hseen⟩
      · exact Or.inr rfl

/-- What has been reported stays right as long as nothing of `L` is seen for the first time. -/
lemma congr {i' l' : ℕ} (h : Scanned s L i l result)
    (hseen : ∀ w, L w → (Seen s i' l' w ↔ Seen s i l w)) : Scanned s L i' l' result := by
  refine ⟨h.sorted, fun w => ?_⟩
  rw [h.mem w]
  exact and_congr_right fun hw => (hseen w hw).symm

/-- A string outside of `L`, or one that has been reported, is passed over. -/
lemma skip (h : Scanned s L i l result) (ht : t <+: s.drop i) (hl : t.length = l + 1)
    (hno : L t → t ∈ result) : Scanned s L i (l + 1) result := by
  refine h.congr fun w hw => ?_
  rw [seen_succ ht hl, or_iff_left_iff_imp]
  rintro rfl
  exact ((h.mem w).1 (hno hw)).2

/-- On to the next position. -/
lemma next (h : Scanned s L i (s.drop i).length result) (hL : ∀ w, L w → w ≠ []) :
    Scanned s L (i + 1) 0 result := by
  refine h.congr fun w hw => ⟨?_, ?_⟩
  · rintro (⟨j, hj, hpre⟩ | ⟨_, hle⟩)
    · rcases Nat.lt_succ_iff_lt_or_eq.1 hj with hj | rfl
      · exact Or.inl ⟨j, hj, hpre⟩
      · exact Or.inr ⟨hpre, hpre.length_le⟩
    · exact absurd (List.length_eq_zero_iff.1 (Nat.le_zero.1 hle)) (hL w hw)
  · rintro (⟨j, hj, hpre⟩ | ⟨hpre, _⟩)
    · exact Or.inl ⟨j, hj.trans (Nat.lt_succ_self i), hpre⟩
    · exact Or.inl ⟨i, Nat.lt_succ_self i, hpre⟩

/-- At the end of the input the answer is complete. -/
lemma answers (h : Scanned s L i 0 result) (hi : s.drop i = []) (hL : ∀ w, L w → w ≠ []) :
    Answers s L result := by
  refine ⟨h.sorted, fun w => ?_⟩
  rw [h.mem w]
  refine and_congr_right fun hw => ⟨?_, fun hinf => ?_⟩
  · rintro (⟨j, _, hpre⟩ | ⟨hpre, _⟩)
    · exact hpre.isInfix.trans (List.drop_suffix j s).isInfix
    · exact hpre.isInfix.trans (List.drop_suffix i s).isInfix
  · obtain ⟨hlen, hpre⟩ := isPrefix_drop_firstPos hinf
    refine Or.inl ⟨firstPos w s, ?_, hpre⟩
    by_contra! hge
    have hnil : s.drop (firstPos w s) = [] :=
      List.drop_eq_nil_of_le ((List.drop_eq_nil_iff.1 hi).trans hge)
    rw [hnil, List.prefix_nil] at hpre
    exact hL w hw hpre

end Scanned

/-! ## The live words -/

namespace AhoCorasick

variable {F : AhoCorasick} {st : Str → ℕ} {check : Str → Bool} {rest : Str}

/-- The words that the automaton reports: the last index has not been deleted. -/
def Live (F : AhoCorasick) (t : Str) : Prop := ∃ i, LastAt F.words t i ∧ i ∉ F.del

lemma Live.known (h : F.Live w) (ht : t <+: w) : Known F.words t := by
  obtain ⟨i, hi, _⟩ := h
  exact Or.inr ⟨w, hi.mem, ht⟩

lemma Sound.ne_nil_of_live (hF : F.Sound) (h : F.Live w) : w ≠ [] := by
  obtain ⟨i, hi, _⟩ := h
  exact hF.words w hi.mem

/-- The test of `search`: a final state that is not deleted. -/
lemma Built.live_iff (hB : F.Built st) (ht : Known F.words t) :
    (st t < F.initState ∧ st t ∉ F.del) ↔ F.Live t := by
  rcases hB.label t ht with hlast | ⟨hno, hge⟩
  · constructor
    · exact fun h => ⟨st t, hlast, h.2⟩
    · rintro ⟨i, hi, hdel⟩
      rw [hlast.unique hi]
      exact ⟨hB.init ▸ hi.lt_length, hdel⟩
  · constructor
    · exact fun h => absurd h.1 (not_lt.2 hge)
    · rintro ⟨i, hi, _⟩
      exact absurd hi.mem hno

/-- **The inner loop.**  It has read `u` from position `i` and has `rest` to go. -/
lemma Built.scan_spec (hB : F.Built st) (hu : Known F.words u) (hi : i ≤ s.length)
    (hdrop : s.drop i = u ++ rest) (hcheck : ∀ t, check t = true ↔ t ∈ result)
    (h : Scanned s F.Live i u.length result) :
    ∃ check' result', F.scan (st u) u check result rest = some (check', result') ∧
      (∀ t, check' t = true ↔ t ∈ result') ∧ Scanned s F.Live i (s.drop i).length result' := by
  induction rest generalizing u check result with
  | nil =>
      rw [List.append_nil] at hdrop
      exact ⟨check, result, rfl, hcheck, hdrop ▸ h⟩
  | cons c rest ih =>
      have happ : s.drop i = u ++ [c] ++ rest := hdrop.trans (List.append_cons u c rest)
      have hpre : u ++ [c] <+: s.drop i := happ ▸ List.prefix_append _ _
      have hlen : (u ++ [c]).length = u.length + 1 := by simp
      have hsize := hB.size u hu
      by_cases hroute : Known F.words (u ++ [c])
      · have hread : F.graph.read (st u) c = some (some (st (u ++ [c]))) := by
          rw [Graph.read, if_pos hsize, hB.tree.edge_eq_some hroute]
        simp only [scan, hread, Option.bind_eq_bind, Option.bind_some]
        split_ifs with hcond
        · have hlive := (hB.live_iff hroute).1 ⟨hcond.1, hcond.2.2⟩
          have hnew : u ++ [c] ∉ result := fun hmem => hcond.2.1 ((hcheck _).2 hmem)
          refine ih hroute happ (fun t => ?_) (hlen ▸ h.push hpre hlen hi hlive hnew)
          by_cases ht : t = u ++ [c]
          · simp [ht]
          · rw [Function.update_of_ne ht, hcheck t, List.mem_append, List.mem_singleton,
              or_iff_left ht]
        · refine ih hroute happ hcheck (hlen ▸ h.skip hpre hlen fun hlive => ?_)
          by_contra hnew
          obtain ⟨hlt, hdel⟩ := (hB.live_iff hroute).2 hlive
          exact hcond ⟨hlt, fun htrue => hnew ((hcheck _).1 htrue), hdel⟩
      · have hread : F.graph.read (st u) c = some none := by
          rw [Graph.read, if_pos hsize, hB.tree.edge_eq_none hu hroute]
        simp only [scan, hread, Option.bind_eq_bind, Option.bind_some]
        refine ⟨check, result, rfl, hcheck, h.congr fun w hw => ?_⟩
        -- a longer string at this position would be known one letter further
        have hshort : w <+: s.drop i → w.length ≤ u.length := by
          intro hwpre
          by_contra! hlt
          exact hroute (hw.known (List.prefix_of_prefix_length_le hpre hwpre (by omega)))
        constructor
        · rintro (hseen | ⟨hwpre, _⟩)
          · exact Or.inl hseen
          · exact Or.inr ⟨hwpre, hshort hwpre⟩
        · rintro (hseen | ⟨hwpre, _⟩)
          · exact Or.inl hseen
          · exact Or.inr ⟨hwpre, hwpre.length_le⟩

/-- **The outer loop.** -/
lemma Built.searchFrom_spec (hB : F.Built st) (hF : F.Sound) (hdrop : s.drop i = rest)
    (hcheck : ∀ t, check t = true ↔ t ∈ result) (h : Scanned s F.Live i 0 result) :
    ∃ result', F.searchFrom check result rest = some result' ∧ Answers s F.Live result' := by
  induction rest generalizing i check result with
  | nil => exact ⟨result, rfl, h.answers hdrop fun w => hF.ne_nil_of_live⟩
  | cons c rest ih =>
      have hi : i < s.length := by
        by_contra! hge
        rw [List.drop_eq_nil_of_le hge] at hdrop
        exact absurd hdrop (by simp)
      obtain ⟨check', result', hscan, hcheck', h'⟩ :=
        hB.scan_spec hB.tree.nil hi.le (by simpa using hdrop) hcheck h
      rw [hB.tree.root] at hscan
      have hnext : s.drop (i + 1) = rest := by
        rw [← List.drop_drop, hdrop, List.drop_one, List.tail_cons]
      simp only [searchFrom, hscan, Option.bind_eq_bind, Option.bind_some]
      exact ih hnext hcheck' (h'.next fun w => hF.ne_nil_of_live)

/-- **`search` returns the answer over the live words.** -/
theorem Built.search_spec (hB : F.Built st) (hF : F.Sound) (s : Str) :
    ∃ result, F.search s = some result ∧ Answers s F.Live result := by
  refine hB.searchFrom_spec hF (i := 0) rfl (by simp) ⟨List.Pairwise.nil, fun w => ?_⟩
  constructor
  · exact fun h => absurd h List.not_mem_nil
  · rintro ⟨hw, ⟨j, hj, _⟩ | ⟨_, hle⟩⟩
    · exact absurd hj (Nat.not_lt_zero j)
    · exact absurd (List.length_eq_zero_iff.1 (Nat.le_zero.1 hle)) (hF.ne_nil_of_live hw)

/-! ## Adding and deleting -/

/-- The sum of the lengths is exact as long as it fits into an `int`. -/
lemma foldl_toInt_length {batch : List Str} {n : ℕ} (h : n + letters batch < 2 ^ 31) :
    batch.foldl (fun (len : ℤ) w => toInt (len + w.length)) n = (n + letters batch : ℕ) := by
  induction batch generalizing n with
  | nil => simp [letters]
  | cons w batch ih =>
      simp only [letters, List.map_cons, List.sum_cons, List.foldl_cons] at h ih ⊢
      rw [toInt_of_isInt ⟨by omega, by omega⟩, ← Nat.cast_add, ih (by omega), Nat.add_assoc]

/-- The object of which `addWord` calls `makeGraph`. -/
lemma Sound.addWords (hF : F.Sound) {batch : List Str} (hne : ∀ w ∈ batch, w ≠ [])
    (hfit : Fits (F.words ++ batch)) :
    Sound { F with
      words := F.words ++ batch
      patternLen := batch.foldl (fun len w => toInt (len + w.length)) F.patternLen } := by
  refine ⟨hF.size, ?_, hfit, ?_, ?_⟩
  · have hletters := letters_append F.words batch
    rw [Fits] at hfit
    show batch.foldl _ F.patternLen = _
    rw [hF.len, foldl_toInt_length (by omega), hletters]
  · intro w hw
    rcases List.mem_append.1 hw with hw | hw
    · exact hF.words w hw
    · exact hne w hw
  · intro i hi
    rw [List.length_append]
    exact (hF.del i hi).trans_le (Nat.le_add_right _ _)

/-- Entering a batch of words keeps what the object means. -/
theorem addWord_spec (hF : F.Sound) {batch : List Str} (hne : ∀ w ∈ batch, w ≠ [])
    (hfit : Fits (F.words ++ batch)) :
    ∃ F' st, F.addWord batch = some F' ∧ F'.words = F.words ++ batch ∧ F'.del = F.del ∧
      F'.Sound ∧ F'.Built st :=
  makeGraph_spec (hF.addWords hne hfit)

lemma lastAt_append_of_not_mem {words batch : List Str} (h : w ∉ batch) :
    LastAt (words ++ batch) w i ↔ LastAt words w i := by
  have hiff : ∀ j : ℕ, (words ++ batch)[j]? = some w ↔ words[j]? = some w := by
    intro j
    rcases Nat.lt_or_ge j words.length with hlt | hge
    · rw [List.getElem?_append_left hlt]
    · rw [List.getElem?_append_right hge, List.getElem?_eq_none hge]
      constructor
      · exact fun hj => absurd (List.mem_of_getElem? hj) h
      · exact fun hj => absurd hj (by simp)
  simp only [LastAt, hiff]

lemma exists_lastAt {words : List Str} (h : w ∈ words) : ∃ i, LastAt words w i := by
  obtain ⟨j, hj⟩ := List.getElem?_of_mem h
  have hbound : ∀ k ∈ {k | words[k]? = some w}, k ≤ words.length :=
    fun k hk => (List.getElem?_eq_some_iff.1 hk).1.le
  have hfin : {k | words[k]? = some w}.Finite := (Set.finite_Iic words.length).subset hbound
  exact hfin.exists_maximal ⟨j, hj⟩ |>.imp fun i hi => ⟨hi.1, fun k hk => by
    by_contra! hlt
    exact absurd (hi.2 hk hlt.le) (not_le.2 hlt)⟩

/-- The words of a batch are live, also those whose earlier copies were deleted. -/
theorem live_append {F' : AhoCorasick} {batch : List Str} (hF : F.Sound)
    (hw : F'.words = F.words ++ batch) (hd : F'.del = F.del) :
    F'.Live w ↔ w ∈ batch ∨ F.Live w := by
  by_cases hmem : w ∈ batch
  · simp only [hmem, true_or, iff_true]
    have hmem' : w ∈ F'.words := by rw [hw]; exact List.mem_append_right _ hmem
    obtain ⟨i, hi⟩ := exists_lastAt hmem'
    refine ⟨i, hi, fun hdel => ?_⟩
    obtain ⟨j, hj⟩ := List.getElem?_of_mem hmem
    have hlt : i < F.words.length := hF.del i (hd ▸ hdel)
    have hle : F.words.length + j ≤ i := by
      refine hi.2 ?_
      show F'.words[F.words.length + j]? = some w
      rw [hw, List.getElem?_append_right (Nat.le_add_right _ _), Nat.add_sub_cancel_left, hj]
    omega
  · simp only [hmem, false_or, Live, hw, hd, lastAt_append_of_not_mem hmem]

/-- Deleting a word takes it, and no other, off the live ones. -/
theorem live_deleteWord : (F.deleteWord v).Live w ↔ w ≠ v ∧ F.Live w := by
  simp only [Live, deleteWord, Finset.mem_union, Finset.mem_filter, Finset.mem_range, not_or,
    not_and]
  constructor
  · rintro ⟨i, hi, hdel, hno⟩
    refine ⟨?_, i, hi, hdel⟩
    rintro rfl
    exact hno hi.lt_length hi.1
  · rintro ⟨hne, i, hi, hdel⟩
    refine ⟨i, hi, hdel, fun _ hget => hne ?_⟩
    exact Option.some.inj (hi.1.symm.trans hget)

lemma Sound.deleteWord (hF : F.Sound) (v : Str) : (F.deleteWord v).Sound := by
  refine ⟨hF.size, hF.len, hF.fits, hF.words, fun i hi => ?_⟩
  rcases Finset.mem_union.1 hi with hi | hi
  · exact hF.del i hi
  · exact Finset.mem_range.1 (Finset.mem_filter.1 hi).1

lemma Built.deleteWord (hB : F.Built st) (v : Str) : (F.deleteWord v).Built st :=
  ⟨hB.tree, hB.init, hB.label, hB.size⟩

/-- A new object is the automaton of no words, if its number of rows fits into an `int`. -/
lemma new_spec {patternNum patternLen : ℕ} (hfit : patternNum + patternLen * 2 + 1 < 2 ^ 31) :
    ∃ F, new patternNum patternLen = some F ∧ F.words = [] ∧ F.Sound ∧ F.Built fun _ => 0 := by
  have hrows : rowCount patternNum patternLen = (patternNum + patternLen * 2 + 1 : ℕ) := by
    rw [rowCount, toInt_of_isInt ⟨by omega, by omega⟩]
    push_cast
    rfl
  have hblank := automaton_blank (patternNum + patternLen * 2 + 1) 0
  have hnew : new patternNum patternLen = some
      { graph := Graph.blank (patternNum + patternLen * 2 + 1)
        words := []
        del := ∅
        initState := 0
        patternNum := 0
        stateNum := 1
        curSize := (patternNum + patternLen * 2 + 1 : ℕ)
        patternLen := 0 } := by
    rw [new, hrows, Graph.resize, if_pos (Int.natCast_nonneg _), Int.toNat_natCast]
    rfl
  refine ⟨_, hnew, rfl, ⟨rfl, rfl, by show Fits []; decide, fun _ h => absurd h List.not_mem_nil,
    fun _ h => absurd h (Finset.notMem_empty _)⟩, hblank.tree, rfl, ?_, ?_⟩
  · exact fun t _ => Or.inr ⟨List.not_mem_nil, le_rfl⟩
  · exact fun t _ => Nat.succ_pos _

end AhoCorasick

end Multicore.Project1
