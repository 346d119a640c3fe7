import Multicore.Lib.Int32
import Multicore.Lib.PrefixTree
import Multicore.Project1.Query

/-!
# The trie

`project1/ahocorasick.cpp`: a table of states with one row of 26 edges each.  The states below
`initState` are the final ones, and their numbers are the indices of the words in `words`:
whether a string is a word, and which one, is read off the number of its state.  To that end
`makeGraph` moves the row of a state to another place when a word ends there, also if an earlier
copy of the same word already had it moved.  Deleting a word only remembers its indices.

The number of rows is computed in `int`, from the number of words and twice the number of letters;
an overflow is taken to wrap around, and `Fits` is the condition that there is none.  The numbers
of states are natural numbers here: they stay below the number of rows.  So are the positions in a
string, which are `int`s in `search`; strings are shorter than `2 ^ 31` letters.

* `AhoCorasick` — the object; `makeGraph`, `addWord`, `deleteWord`, `search` as in the source.  A
  row outside of the table, and a negative number of rows, is `none`.
* `Automaton` — what `makeGraph` keeps while it works: the rows are the prefix tree of the words
  done so far, and a word's state is its **last** index among them.
* **`makeGraph_spec`** — no row outside of the table is used, and the automaton is the right one.
* **`makeGraph_closed`** — no edge of the table leads out of it.
-/

namespace Multicore.Project1

/-! ## The table -/

/-- `vector<vector<int>> graph`: `-1` is `none`. -/
structure Graph where
  size : ℕ
  edge : ℕ → Letter → Option ℕ

namespace Graph

/-- `graph[r][c]` -/
def read (g : Graph) (r : ℕ) (c : Letter) : Option (Option ℕ) :=
  if r < g.size then some (g.edge r c) else none

/-- `graph[r][c] = v` -/
def write (g : Graph) (r : ℕ) (c : Letter) (v : ℕ) : Option Graph :=
  if r < g.size then some { g with edge := setEdge g.edge r c (some v) } else none

/-- `swap(graph[a], graph[b])` -/
def swap (g : Graph) (a b : ℕ) : Option Graph :=
  if a < g.size ∧ b < g.size then some { g with edge := swapRows g.edge a b } else none

/-- All edges are `-1`. -/
def blank (size : ℕ) : Graph := ⟨size, fun _ _ => none⟩

/-- `resize` and `fill` with `-1`.  A negative `int` becomes a `size_t` that is more than a vector
can hold, and `resize` throws. -/
def resize (n : ℤ) : Option Graph := if 0 ≤ n then some (blank n.toNat) else none

end Graph

/-! ## The object -/

/-- The fields of an `AhoCorasick`. -/
structure AhoCorasick where
  graph : Graph
  words : List Str
  del : Finset ℕ
  initState : ℕ
  patternNum : ℤ
  stateNum : ℕ
  curSize : ℤ
  patternLen : ℤ

/-- What changes while the words are entered: the table, `state_num` and `final_state`. -/
structure Build where
  graph : Graph
  stateNum : ℕ
  finalState : ℕ

/-- The loop of `makeGraph` over the letters of one word, from `cur_state` on. -/
def Build.enter (b : Build) (cur : ℕ) : Str → Option Build
  | [] => some b
  | c :: rest => do
      match ← b.graph.read cur c with
      | none =>
          let g ← b.graph.write cur c b.stateNum
          if rest = [] then
            let g ← g.write cur c b.finalState
            let g ← g.swap b.stateNum b.finalState
            Build.enter ⟨g, b.stateNum + 1, b.finalState + 1⟩ b.stateNum rest
          else
            Build.enter { b with graph := g, stateNum := b.stateNum + 1 } b.stateNum rest
      | some next =>
          if rest = [] then
            let g ← b.graph.swap next b.finalState
            let g ← g.write cur c b.finalState
            Build.enter { b with graph := g, finalState := b.finalState + 1 } b.finalState rest
          else
            Build.enter b next rest

namespace AhoCorasick

/-- `patternNum + patternLen * 2 + 1`, an `int` -/
def rowCount (patternNum patternLen : ℤ) : ℤ := toInt (patternNum + patternLen * 2 + 1)

/-- The constructor with the expected number of words and of letters.  The one without arguments
is `new 0 0`. -/
def new (patternNum patternLen : ℤ) : Option AhoCorasick := do
  let graph ← Graph.resize (rowCount patternNum patternLen)
  some
    { graph
      words := []
      del := ∅
      initState := 0
      patternNum := 0
      stateNum := 1
      curSize := rowCount patternNum patternLen
      patternLen := 0 }

/-- The table that `makeGraph` starts with, and its `cur_size`: a new one if there are too few
rows. -/
def table (F : AhoCorasick) : Option (Graph × ℤ) := do
  if F.curSize < toInt (F.words.length + F.patternLen + 1) then
    let graph ← Graph.resize (rowCount F.words.length F.patternLen)
    some (graph, rowCount F.words.length F.patternLen)
  else
    some (Graph.blank F.graph.size, F.curSize)

/-- `makeGraph` -/
def makeGraph (F : AhoCorasick) : Option AhoCorasick := do
  let n := F.words.length
  let (graph, curSize) ← F.table
  let b ← F.words.foldlM (fun b w => Build.enter b n w) ⟨graph, n + 1, 0⟩
  some { F with
    graph := b.graph
    initState := n
    patternNum := toInt n
    stateNum := b.stateNum
    curSize }

/-- `addWord` -/
def addWord (F : AhoCorasick) (batch : List Str) : Option AhoCorasick :=
  makeGraph { F with
    words := F.words ++ batch
    patternLen := batch.foldl (fun len w => toInt (len + w.length)) F.patternLen }

/-- `deleteWord`: all indices of the word go into `del`. -/
def deleteWord (F : AhoCorasick) (word : Str) : AhoCorasick :=
  { F with del := F.del ∪ (Finset.range F.words.length).filter fun i => F.words[i]? = some word }

/-- The inner loop of `search`: `cur` and `s` are the state and the string read since `start`. -/
def scan (F : AhoCorasick) (cur : ℕ) (s : Str) (check : Str → Bool) (result : List Str) :
    Str → Option ((Str → Bool) × List Str)
  | [] => some (check, result)
  | c :: rest => do
      match ← F.graph.read cur c with
      | none => some (check, result)
      | some cur =>
          if cur < F.initState ∧ check (s ++ [c]) ≠ true ∧ cur ∉ F.del then
            F.scan cur (s ++ [c]) (Function.update check (s ++ [c]) true) (result ++ [s ++ [c]])
              rest
          else
            F.scan cur (s ++ [c]) check result rest

/-- The outer loop of `search`; the list is the input from `start` on. -/
def searchFrom (F : AhoCorasick) (check : Str → Bool) (result : List Str) :
    Str → Option (List Str)
  | [] => some result
  | c :: rest => do
      let (check, result) ← F.scan F.initState [] check result (c :: rest)
      F.searchFrom check result rest

/-- `search`, in a string of fewer than `2 ^ 31` letters -/
def search (F : AhoCorasick) (input : Str) : Option (List Str) :=
  F.searchFrom (fun _ => false) [] input

end AhoCorasick

/-- The letters of the words. -/
def letters (words : List Str) : ℕ := (words.map List.length).sum

/-- The number of rows that the words may need fits into an `int`. -/
def Fits (words : List Str) : Prop := words.length + letters words * 2 + 1 < 2 ^ 31

instance (words : List Str) : Decidable (Fits words) := inferInstanceAs (Decidable (_ < _))

lemma letters_append (words batch : List Str) :
    letters (words ++ batch) = letters words + letters batch := by
  simp [letters]

/-- Fewer words need fewer rows. -/
lemma Fits.sublist {words words' : List Str} (h : Fits words) (hsub : words'.Sublist words) :
    Fits words' := by
  have hlen := hsub.length_le
  have hletters : letters words' ≤ letters words :=
    (hsub.map List.length).sum_le_sum fun _ _ => Nat.zero_le _
  rw [Fits] at h ⊢
  omega

lemma Fits.left {words batch : List Str} (h : Fits (words ++ batch)) : Fits words :=
  h.sublist (List.sublist_append_left _ _)

/-! ## Entering words -/

variable {b : Build} {n : ℕ} {P : Str → Prop} {done : List Str} {st : Str → ℕ} {t u w : Str}
  {c : Letter} {i : ℕ}

/-- `i` is the last index of `t` in the list. -/
def LastAt (words : List Str) (t : Str) (i : ℕ) : Prop :=
  IsGreatest {j | words[j]? = some t} i

lemma LastAt.lt_length {words : List Str} (h : LastAt words t i) : i < words.length :=
  (List.getElem?_eq_some_iff.1 h.1).1

lemma LastAt.mem {words : List Str} (h : LastAt words t i) : t ∈ words :=
  List.mem_of_getElem? h.1

/-- A word that is entered has the next index. -/
lemma lastAt_snoc (words : List Str) (t : Str) : LastAt (words ++ [t]) t words.length := by
  refine ⟨by simp, fun j hj => ?_⟩
  have := (List.getElem?_eq_some_iff.1 hj).1
  rw [List.length_append, List.length_singleton] at this
  exact Nat.lt_succ_iff.1 this

/-- Other words keep theirs. -/
lemma LastAt.snoc {words : List Str} (h : LastAt words t i) (hne : t ≠ w) :
    LastAt (words ++ [w]) t i := by
  refine ⟨?_, fun j hj => ?_⟩
  · show (words ++ [w])[i]? = some t
    rw [List.getElem?_append_left h.lt_length]
    exact h.1
  · rcases Nat.lt_or_ge j words.length with hlt | hge
    · refine h.2 ?_
      have hj : (words ++ [w])[j]? = some t := hj
      rwa [List.getElem?_append_left hlt] at hj
    · have hj : (words ++ [w])[j]? = some t := hj
      rw [List.getElem?_append_right hge, List.getElem?_singleton] at hj
      split_ifs at hj with h0
      exact absurd (Option.some.inj hj).symm hne

/-- The strings the automaton knows: the beginnings of the words. -/
def Known (words : List Str) (t : Str) : Prop := t = [] ∨ ∃ w ∈ words, t <+: w

lemma known_snoc {words : List Str} : Known (words ++ [w]) t ↔ Known words t ∨ t <+: w := by
  simp only [Known, List.mem_append, List.mem_singleton, or_and_right, exists_or, exists_eq_left,
    or_assoc]

/-- What `makeGraph` keeps: the rows are the prefix tree of `P`, final states are the last indices
of the words that are `done`, the other states lie above `n`, and the rows not yet used are
blank. -/
structure Automaton (b : Build) (n : ℕ) (P : Str → Prop) (done : List Str) (st : Str → ℕ) :
    Prop where
  tree : Tree b.graph.edge n P st
  final : b.finalState = done.length
  le : done.length ≤ n
  lt : n < b.stateNum
  mem : ∀ w ∈ done, P w
  label : ∀ t, P t → LastAt done t (st t) ∨ (t ∉ done ∧ n ≤ st t ∧ st t < b.stateNum)
  blank : ∀ q, (done.length ≤ q ∧ q < n) ∨ b.stateNum ≤ q → ∀ c, b.graph.edge q c = none

namespace Automaton

lemma lt_stateNum (h : Automaton b n P done st) (ht : P t) : st t < b.stateNum := by
  rcases h.label t ht with hlast | hst
  · exact hlast.lt_length.trans_le (h.le.trans h.lt.le)
  · exact hst.2.2

/-- A row that is not used yet is the row of no string. -/
lemma ne_of_blank (h : Automaton b n P done st) {q : ℕ}
    (hq : (done.length ≤ q ∧ q < n) ∨ b.stateNum ≤ q) (ht : P t) : st t ≠ q := by
  rcases h.label t ht with hlast | hst
  · have := hlast.lt_length
    have := h.le
    have := h.lt
    omega
  · omega

/-- A string that is entered as a word gets its index; the others keep their labels. -/
lemma label_finish (h : Automaton b n P done st) (w : Str) {m : ℕ} (hm : b.stateNum ≤ m) :
    ∀ t, P t ∨ t = w →
      LastAt (done ++ [w]) t (Function.update st w done.length t) ∨
        (t ∉ done ++ [w] ∧ n ≤ Function.update st w done.length t ∧
          Function.update st w done.length t < m) := by
  intro t ht
  by_cases htw : t = w
  · left
    rw [htw, Function.update_self]
    exact lastAt_snoc done w
  · rw [Function.update_of_ne htw]
    rcases h.label t (ht.resolve_right htw) with hlast | ⟨hno, hn, hlt⟩
    · exact Or.inl (hlast.snoc htw)
    · refine Or.inr ⟨?_, hn, hlt.trans_le hm⟩
      simp [hno, htw]

/-- No route for a letter inside of a word: a new state. -/
lemma grow (h : Automaton b n P done st) (ht : P t) (hno : ¬ P (t ++ [c])) :
    Automaton ⟨⟨b.graph.size, setEdge b.graph.edge (st t) c (some b.stateNum)⟩, b.stateNum + 1,
      b.finalState⟩ n (fun u => P u ∨ u = t ++ [c]) done
      (Function.update st (t ++ [c]) b.stateNum) := by
  have hsn := h.blank b.stateNum (Or.inr le_rfl)
  refine ⟨h.tree.addLeaf ht hno (fun u => h.ne_of_blank (Or.inr le_rfl)) hsn, h.final, h.le,
    h.lt.trans (Nat.lt_succ_self _), fun w hw => Or.inl (h.mem w hw), ?_, ?_⟩
  · intro u hu
    by_cases hut : u = t ++ [c]
    · right
      rw [hut, Function.update_self]
      exact ⟨fun hmem => hno (h.mem _ hmem), h.lt.le, Nat.lt_succ_self _⟩
    · rw [Function.update_of_ne hut]
      rcases h.label u (hu.resolve_right hut) with hlast | ⟨hd, hn, hlt⟩
      · exact Or.inl hlast
      · exact Or.inr ⟨hd, hn, hlt.trans (Nat.lt_succ_self _)⟩
  · intro q hq d
    have hq' : (done.length ≤ q ∧ q < n) ∨ b.stateNum ≤ q := hq.imp_right Nat.le_of_succ_le
    show setEdge b.graph.edge (st t) c _ q d = none
    rw [setEdge_of_ne (Or.inl (h.ne_of_blank hq' ht).symm), h.blank q hq' d]

/-- No route for the last letter of a word: its state is its index.  The rows of the two states
are exchanged, but both are blank. -/
lemma finish_new (h : Automaton b n P done st) (ht : P t) (hno : ¬ P (t ++ [c]))
    (hlt : done.length < n) :
    Automaton ⟨⟨b.graph.size, swapRows (setEdge b.graph.edge (st t) c (some b.finalState))
        b.stateNum b.finalState⟩, b.stateNum + 1, b.finalState + 1⟩ n
      (fun u => P u ∨ u = t ++ [c]) (done ++ [t ++ [c]])
      (Function.update st (t ++ [c]) done.length) := by
  have hf : (done.length ≤ done.length ∧ done.length < n) ∨ b.stateNum ≤ done.length :=
    Or.inl ⟨le_rfl, hlt⟩
  have hkeep : ∀ q, (done.length ≤ q ∧ q < n) ∨ b.stateNum ≤ q →
      setEdge b.graph.edge (st t) c (some done.length) q = fun _ => none := by
    intro q hq
    funext d
    rw [setEdge_of_ne (Or.inl (h.ne_of_blank hq ht).symm), h.blank q hq d]
  have hswap : swapRows (setEdge b.graph.edge (st t) c (some done.length)) b.stateNum done.length =
      setEdge b.graph.edge (st t) c (some done.length) :=
    swapRows_eq_self ((hkeep _ (Or.inr le_rfl)).trans (hkeep _ hf).symm)
  rw [h.final, hswap]
  refine ⟨h.tree.addLeaf ht hno (fun u => h.ne_of_blank hf) (h.blank _ hf), by simp,
    by simpa using hlt, h.lt.trans (Nat.lt_succ_self _), ?_, h.label_finish _ (Nat.le_succ _), ?_⟩
  · intro w hw
    rcases List.mem_append.1 hw with hw | hw
    · exact Or.inl (h.mem w hw)
    · exact Or.inr (List.mem_singleton.1 hw)
  · intro q hq d
    simp only [List.length_append, List.length_singleton] at hq
    exact congrFun (hkeep q (by omega)) d

/-- A route for the last letter of a word: its row moves to its index. -/
lemma finish_old (h : Automaton b n P done st) (hw : P (t ++ [c])) (hlt : done.length < n) :
    Automaton ⟨⟨b.graph.size, setEdge (swapRows b.graph.edge (st (t ++ [c])) b.finalState) (st t) c
        (some b.finalState)⟩, b.stateNum, b.finalState + 1⟩ n P (done ++ [t ++ [c]])
      (Function.update st (t ++ [c]) done.length) := by
  have ht : P t := h.tree.closed t c hw
  have hf : (done.length ≤ done.length ∧ done.length < n) ∨ b.stateNum ≤ done.length :=
    Or.inl ⟨le_rfl, hlt⟩
  rw [h.final]
  refine ⟨h.tree.move hw fun u => h.ne_of_blank hf, by simp, by simpa using hlt, h.lt, ?_,
    fun u hu => h.label_finish _ le_rfl u (Or.inl hu), ?_⟩
  · intro v hv
    rcases List.mem_append.1 hv with hv | hv
    · exact h.mem v hv
    · rwa [List.mem_singleton.1 hv]
  · intro q hq d
    simp only [List.length_append, List.length_singleton] at hq
    have hlt := h.lt
    have hq' : (done.length ≤ q ∧ q < n) ∨ b.stateNum ≤ q := by omega
    show setEdge (swapRows b.graph.edge _ _) (st t) c _ q d = none
    rw [setEdge_of_ne (Or.inl (h.ne_of_blank hq' ht).symm),
      swapRows_of_ne (h.ne_of_blank hq' hw).symm (by omega), h.blank q hq' d]

end Automaton

/-- **One word.**  From the state of its beginning `u`, the rest of the word is entered.  There are
rows enough if there is one for each letter. -/
lemma Automaton.enter {rest : Str} (h : Automaton b n P done st) (hu : P u) (hne : rest ≠ [])
    (hlt : done.length < n) (hsize : b.stateNum + rest.length ≤ b.graph.size) :
    ∃ b' st', b.enter (st u) rest = some b' ∧
      Automaton b' n (fun t => P t ∨ t <+: u ++ rest) (done ++ [u ++ rest]) st' ∧
      b'.graph.size = b.graph.size ∧ b'.stateNum ≤ b.stateNum + rest.length := by
  induction rest generalizing b P st u with
  | nil => exact absurd rfl hne
  | cons c rest ih =>
      rw [List.length_cons] at hsize
      have hcur : st u < b.graph.size := (h.lt_stateNum hu).trans_le (by omega)
      have hsn : b.stateNum < b.graph.size := by omega
      have hfinal : b.finalState < b.graph.size := by
        have := h.final
        have := h.lt
        omega
      have happ : u ++ c :: rest = u ++ [c] ++ rest := List.append_cons u c rest
      by_cases hroute : P (u ++ [c])
      · have hread : b.graph.read (st u) c = some (some (st (u ++ [c]))) := by
          rw [Graph.read, if_pos hcur, h.tree.edge_eq_some hroute]
        have hnext : st (u ++ [c]) < b.graph.size := (h.lt_stateNum hroute).trans_le (by omega)
        simp only [Build.enter, hread, Option.bind_eq_bind, Option.bind_some]
        by_cases hrest : rest = []
        · subst hrest
          have hP : (fun t => P t ∨ t <+: u ++ [c]) = P := by
            funext t
            simpa using fun ht => h.tree.of_isPrefix hroute ht
          simp only [if_true, Graph.swap, Graph.write, hnext, hfinal, hcur, and_self,
            Option.bind_some, Build.enter]
          refine ⟨_, Function.update st (u ++ [c]) done.length, rfl, ?_, rfl, Nat.le_add_right _ _⟩
          rw [hP]
          exact h.finish_old hroute hlt
        · obtain ⟨b', st', hrun, hauto, hsz, hle⟩ := ih h hroute hrest (by omega)
          rw [if_neg hrest, happ]
          exact ⟨b', st', hrun, hauto, hsz, hle.trans (by simp)⟩
      · have hread : b.graph.read (st u) c = some none := by
          rw [Graph.read, if_pos hcur, h.tree.edge_eq_none hu hroute]
        simp only [Build.enter, hread, Option.bind_eq_bind, Option.bind_some, Graph.write, hcur,
          if_true]
        by_cases hrest : rest = []
        · subst hrest
          have hP : (fun t => P t ∨ t <+: u ++ [c]) = fun t => P t ∨ t = u ++ [c] := by
            funext t
            rw [List.prefix_concat_iff]
            refine propext ⟨?_, fun ht => ht.imp_right Or.inl⟩
            rintro (ht | rfl | ht)
            · exact Or.inl ht
            · exact Or.inr rfl
            · exact Or.inl (h.tree.of_isPrefix hu ht)
          simp only [if_true, Graph.swap, hsn, hfinal, and_self, Option.bind_some, Build.enter,
            setEdge_setEdge]
          refine ⟨_, Function.update st (u ++ [c]) done.length, rfl, ?_, rfl, le_rfl⟩
          rw [hP]
          exact h.finish_new hu hroute hlt
        · obtain ⟨b', st', hrun, hauto, hsz, hle⟩ :=
            ih (h.grow hu hroute) (Or.inr rfl) hrest (by simp only; omega)
          have hP : (fun t => P t ∨ t <+: u ++ [c] ++ rest) =
              fun t => (P t ∨ t = u ++ [c]) ∨ t <+: u ++ [c] ++ rest := by
            funext t
            rw [or_assoc]
            refine propext ⟨fun ht => ht.imp_right Or.inr, ?_⟩
            rintro (ht | rfl | ht)
            · exact Or.inl ht
            · exact Or.inr (List.prefix_append _ _)
            · exact Or.inr ht
          rw [Function.update_self] at hrun
          rw [if_neg hrest, happ, hP]
          refine ⟨b', st', hrun, hauto, hsz, hle.trans ?_⟩
          simp only [List.length_cons]
          omega

/-- The words one after the other. -/
lemma Automaton.foldlM_enter {words : List Str} (h : Automaton b n (Known done) done st)
    (hne : ∀ w ∈ words, w ≠ []) (hn : done.length + words.length = n)
    (hsize : b.stateNum + (words.map List.length).sum ≤ b.graph.size) :
    ∃ b' st', words.foldlM (fun b w => Build.enter b n w) b = some b' ∧
      Automaton b' n (Known (done ++ words)) (done ++ words) st' ∧
      b'.graph.size = b.graph.size ∧ b'.stateNum ≤ b.graph.size := by
  induction words generalizing b done st with
  | nil =>
      rw [List.append_nil]
      exact ⟨b, st, rfl, h, rfl, by simpa using hsize⟩
  | cons w words ih =>
      simp only [List.map_cons, List.sum_cons, List.length_cons] at hsize hn
      obtain ⟨b', st', hrun, hauto, hsz, hle⟩ := h.enter (Or.inl rfl)
        (hne w List.mem_cons_self) (by omega) (by omega)
      rw [h.tree.root] at hrun
      have hknown : (fun t => Known done t ∨ t <+: [] ++ w) = Known (done ++ [w]) := by
        funext t
        rw [known_snoc, List.nil_append]
      rw [hknown, List.nil_append] at hauto
      obtain ⟨b'', st'', hrun', hauto', hsz', hle'⟩ := ih hauto
        (fun v hv => hne v (List.mem_cons_of_mem w hv)) (by simp; omega) (by omega)
      rw [List.append_assoc, List.singleton_append] at hauto'
      refine ⟨b'', st'', ?_, hauto', hsz'.trans hsz, hle'.trans hsz.le⟩
      rw [List.foldlM_cons, hrun]
      exact hrun'

/-- The table before the first word: only the initial state is known. -/
lemma automaton_blank (size n : ℕ) :
    Automaton ⟨Graph.blank size, n + 1, 0⟩ n (Known []) [] fun _ => n := by
  have hknown : ∀ t, Known [] t ↔ t = [] := by simp [Known]
  refine ⟨⟨Or.inl rfl, rfl, ?_, ?_, ?_⟩, rfl, Nat.zero_le n, Nat.lt_succ_self n, by simp, ?_,
    fun _ _ _ => rfl⟩
  · intro t c h
    simp [hknown] at h
  · intro t c q _
    simp [hknown, Graph.blank]
  · intro t t' h h' _
    rw [(hknown t).1 h, (hknown t').1 h']
  · intro t _
    exact Or.inr ⟨List.not_mem_nil, le_rfl, Nat.lt_succ_self n⟩

/-! ## The finished automaton -/

/-- What the fields of the object mean between two calls. -/
structure AhoCorasick.Sound (F : AhoCorasick) : Prop where
  size : F.curSize = F.graph.size
  len : F.patternLen = letters F.words
  fits : Fits F.words
  words : ∀ w ∈ F.words, w ≠ []
  del : ∀ i ∈ F.del, i < F.words.length

/-- The table is the prefix tree of the words; the state of a word is its last index, and the
other states are not below `initState`. -/
structure AhoCorasick.Built (F : AhoCorasick) (st : Str → ℕ) : Prop where
  tree : Tree F.graph.edge F.initState (Known F.words) st
  init : F.initState = F.words.length
  label : ∀ t, Known F.words t →
    LastAt F.words t (st t) ∨ (t ∉ F.words ∧ F.initState ≤ st t)
  size : ∀ t, Known F.words t → st t < F.graph.size

/-- There are rows enough for all words, whether the table is resized or not. -/
lemma AhoCorasick.Sound.table {F : AhoCorasick} (hF : F.Sound) :
    ∃ size : ℕ, F.table = some (Graph.blank size, (size : ℤ)) ∧
      F.words.length + letters F.words + 1 ≤ size := by
  have hfits : F.words.length + letters F.words * 2 + 1 < 2 ^ 31 := hF.fits
  have htest : toInt (F.words.length + F.patternLen + 1) = F.words.length + F.patternLen + 1 := by
    refine toInt_of_isInt ?_
    rw [hF.len]
    constructor <;> omega
  have hcount : AhoCorasick.rowCount F.words.length F.patternLen =
      (F.words.length + letters F.words * 2 + 1 : ℕ) := by
    rw [AhoCorasick.rowCount, hF.len]
    push_cast
    exact toInt_of_isInt ⟨by omega, by omega⟩
  rw [AhoCorasick.table, htest, hcount, hF.size, hF.len]
  split_ifs with hlt
  · refine ⟨F.words.length + letters F.words * 2 + 1, ?_, by omega⟩
    rw [Graph.resize, if_pos (Int.natCast_nonneg _), Int.toNat_natCast]
    rfl
  · exact ⟨F.graph.size, rfl, by omega⟩

/-- All words are entered inside of the table. -/
lemma AhoCorasick.Sound.foldlM_enter {F : AhoCorasick} (hF : F.Sound) :
    ∃ (size : ℕ) (b : Build) (st : Str → ℕ), F.table = some (Graph.blank size, (size : ℤ)) ∧
      F.words.foldlM (fun b w => Build.enter b F.words.length w)
        ⟨Graph.blank size, F.words.length + 1, 0⟩ = some b ∧
      Automaton b F.words.length (Known F.words) F.words st ∧ b.graph.size = size ∧
      b.stateNum ≤ size := by
  obtain ⟨size, htable, hrows⟩ := hF.table
  obtain ⟨b, st, hrun, hauto, hsize, hle⟩ :=
    (automaton_blank size F.words.length).foldlM_enter hF.words (by simp)
      (by show F.words.length + 1 + letters F.words ≤ size; omega)
  exact ⟨size, b, st, htable, hrun, hauto, hsize, hle⟩

/-- **`makeGraph` builds the right automaton** and stays inside of its table. -/
theorem makeGraph_spec {F : AhoCorasick} (hF : F.Sound) :
    ∃ F' st, F.makeGraph = some F' ∧ F'.words = F.words ∧ F'.del = F.del ∧ F'.Sound ∧
      F'.Built st := by
  obtain ⟨size, b, st, htable, hrun, hauto, hsize, hle⟩ := hF.foldlM_enter
  simp only [AhoCorasick.makeGraph, htable, hrun, Option.bind_eq_bind, Option.bind_some]
  refine ⟨_, st, rfl, rfl, rfl, ⟨?_, hF.len, hF.fits, hF.words, hF.del⟩, hauto.tree, rfl,
    fun t ht => ?_, fun t ht => ?_⟩
  · show (size : ℤ) = b.graph.size
    rw [hsize]
  · exact (hauto.label t ht).imp_right fun h => ⟨h.1, h.2.1⟩
  · exact (hauto.lt_stateNum ht).trans_le (hle.trans hsize.ge)

/-! ## The edges of the table

The prefix tree says where the edges of the rows in use lead.  Rows that were given up, because
their contents were moved to a final state, are not rows of the tree; that no edge leads out of the
table is kept for all rows alike. -/

namespace Graph

variable {g g' : Graph} {r q v : ℕ}

/-- Every edge of the table leads to one of its rows. -/
def Closed (g : Graph) : Prop := ∀ r < g.size, ∀ c q, g.edge r c = some q → q < g.size

lemma below_of_write {m : ℕ} (h : EdgesBelow g.edge m) (hv : v < m)
    (hw : g.write r c v = some g') : EdgesBelow g'.edge m := by
  simp only [write, Option.ite_none_right_eq_some, Option.some.injEq] at hw
  obtain ⟨-, rfl⟩ := hw
  exact h.setEdge r c hv

lemma below_of_swap {m : ℕ} (h : EdgesBelow g.edge m) (hs : g.swap r q = some g') :
    EdgesBelow g'.edge m := by
  simp only [swap, Option.ite_none_right_eq_some, Option.some.injEq] at hs
  obtain ⟨-, rfl⟩ := hs
  exact h.swapRows r q

end Graph

/-- One word: what is written are the numbers `state_num` and `final_state`. -/
lemma Build.enter_below {b' : Build} {cur : ℕ} {rest : Str} (hrun : b.enter cur rest = some b')
    (hlt : b.finalState < b.stateNum) (hb : EdgesBelow b.graph.edge b.stateNum) :
    EdgesBelow b'.graph.edge b'.stateNum ∧ b.stateNum ≤ b'.stateNum ∧
      b'.finalState ≤ b.finalState + 1 := by
  induction rest generalizing b cur with
  | nil =>
      obtain rfl := Option.some.inj hrun
      exact ⟨hb, le_rfl, Nat.le_succ _⟩
  | cons c rest ih =>
      simp only [Build.enter, Option.bind_eq_bind, Option.bind_eq_some_iff] at hrun
      obtain ⟨edge, -, hrun⟩ := hrun
      cases edge with
      | none =>
          simp only [Option.bind_eq_some_iff] at hrun
          obtain ⟨g, hg, hrun⟩ := hrun
          have hbelow : EdgesBelow g.edge (b.stateNum + 1) :=
            Graph.below_of_write (hb.mono (Nat.le_succ _)) (Nat.lt_succ_self _) hg
          split_ifs at hrun with hrest
          · subst hrest
            simp only [Build.enter, Option.bind_eq_some_iff, Option.some.injEq] at hrun
            obtain ⟨g', hg', g'', hg'', rfl⟩ := hrun
            have hwrite := Graph.below_of_write hbelow (Nat.lt_succ_of_lt hlt) hg'
            exact ⟨Graph.below_of_swap hwrite hg'', Nat.le_succ _, le_rfl⟩
          · obtain ⟨hb', hle, hfinal⟩ := ih hrun (by simp only; omega) hbelow
            exact ⟨hb', (Nat.le_succ _).trans hle, hfinal⟩
      | some next =>
          simp only [] at hrun
          split_ifs at hrun with hrest
          · subst hrest
            simp only [Build.enter, Option.bind_eq_some_iff, Option.some.injEq] at hrun
            obtain ⟨g, hg, g', hg', rfl⟩ := hrun
            exact ⟨Graph.below_of_write (Graph.below_of_swap hb hg) hlt hg', le_rfl, le_rfl⟩
          · exact ih hrun hlt hb

/-- The words one after the other. -/
lemma Build.foldlM_enter_below {b' : Build} {words : List Str}
    (hrun : words.foldlM (fun b w => Build.enter b n w) b = some b')
    (hlen : b.finalState + words.length ≤ n) (hn : n < b.stateNum)
    (hb : EdgesBelow b.graph.edge b.stateNum) : EdgesBelow b'.graph.edge b'.stateNum := by
  induction words generalizing b with
  | nil =>
      obtain rfl := Option.some.inj hrun
      exact hb
  | cons w words ih =>
      simp only [List.foldlM_cons, Option.bind_eq_bind, Option.bind_eq_some_iff] at hrun
      obtain ⟨b₁, hw, hrun⟩ := hrun
      rw [List.length_cons] at hlen
      obtain ⟨hb₁, hle, hfinal⟩ := Build.enter_below hw (by omega) hb
      exact ih hrun (by omega) (by omega) hb₁

/-- **The table that `makeGraph` leaves is closed.** -/
theorem makeGraph_closed {F F' : AhoCorasick} (hF : F.Sound) (h : F.makeGraph = some F') :
    F'.graph.Closed := by
  obtain ⟨size, b, st, htable, hrun, -, hsize, hle⟩ := hF.foldlM_enter
  simp only [AhoCorasick.makeGraph, htable, hrun, Option.bind_eq_bind, Option.bind_some,
    Option.some.injEq] at h
  obtain rfl := h
  have hbelow : EdgesBelow b.graph.edge b.stateNum :=
    Build.foldlM_enter_below hrun (by simp) (Nat.lt_succ_self _) fun r c q hq =>
      absurd hq (by simp [Graph.blank])
  intro r _ c q hq
  exact (hbelow r c q hq).trans_le (hle.trans hsize.ge)

end Multicore.Project1
