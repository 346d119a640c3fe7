import Multicore.Lib.Overlap
import Multicore.Project1.Query

/-!
# The program with one string matcher per word

`project1/kmp_solution/ref_solution.cpp`: a query runs `kmp` for every word of the set, in threads
of which at most 47 run at a time, and sorts what they found.  Positions are natural numbers here
and `int`s in the source: words and inputs are shorter than `2 ^ 31` letters.

* `getPi`, `kmp` — the failure table and the search, as the source computes them.  An index out of
  range, or a loop that runs out of its bound, is `none`; **`getPi_spec`** and **`kmp_spec`** say
  that neither happens and what is returned.  The matcher works on letters of any kind.
* **`getPi_border_function`** — the failure table is the border function, computed from its own
  earlier entries only.
* **`kmp_first_occurrence`** — what a thread leaves in `result[word]`.
* `kmpRun` — the main loop.  The threads of a batch finish in any order (`Finish`).
* **`kmpMain_eq_spec`** — the program prints what it should, for every script and every order in
  which the threads finish.
-/

namespace Multicore.Project1

/-! ## The matcher -/

section Matcher

variable {α : Type} [DecidableEq α]

/-- `while (j > 0 && c != p[j]) j = pi[j-1];` — the first argument bounds the rounds. -/
def fallBack (p : List α) (pi : List ℕ) (c : α) : ℕ → ℕ → Option ℕ
  | _, 0 => some 0
  | 0, _ + 1 => none
  | fuel + 1, j + 1 => do
      let d ← p[j + 1]?
      if c ≠ d then
        let k ← pi[j]?
        fallBack p pi c fuel k
      else
        some (j + 1)

/-- The loop of `getPi` from index `i` on, with `n` rounds to go. -/
def getPiFrom (p : List α) (i j : ℕ) (pi : List ℕ) : ℕ → Option (List ℕ)
  | 0 => some pi
  | n + 1 => do
      let c ← p[i]?
      let j ← fallBack p pi c j j
      let d ← p[j]?
      if c = d then
        getPiFrom p (i + 1) (j + 1) (pi.set i (j + 1)) n
      else
        getPiFrom p (i + 1) j pi n

/-- `getPi`: the failure table of `p`, a word of fewer than `2 ^ 31` letters. -/
def getPi (p : List α) : Option (List ℕ) :=
  getPiFrom p 1 0 (List.replicate p.length 0) (p.length - 1)

/-- The loop of `getPi` with an inner loop that may read only the entries computed so far: to read
another one is `none`. -/
def getPiComputedFrom (p : List α) (i j : ℕ) (pi : List ℕ) : ℕ → Option (List ℕ)
  | 0 => some pi
  | n + 1 => do
      let c ← p[i]?
      let j ← fallBack p (pi.take i) c j j
      let d ← p[j]?
      if c = d then
        getPiComputedFrom p (i + 1) (j + 1) (pi.set i (j + 1)) n
      else
        getPiComputedFrom p (i + 1) j pi n

/-- `getPi` with these reads. -/
def getPiComputed (p : List α) : Option (List ℕ) :=
  getPiComputedFrom p 1 0 (List.replicate p.length 0) (p.length - 1)

/-- The loop of `kmp` from index `i` of the input on; the list is the input from there. -/
def kmpFrom (word : List α) (pi : List ℕ) (i j : ℕ) : List α → Option ℤ
  | [] => some (-1)
  | c :: rest => do
      let j ← fallBack word pi c j j
      let d ← word[j]?
      if c = d then
        if (j : ℤ) = word.length - 1 then
          some (i - word.length + 1)
        else
          kmpFrom word pi (i + 1) (j + 1) rest
      else
        kmpFrom word pi (i + 1) j rest

/-- `kmp`: the value it stores for `word`.  Both strings have fewer than `2 ^ 31` letters. -/
def kmp (word input : List α) : Option ℤ := do
  let pi ← getPi word
  kmpFrom word pi 0 0 input

/-- `result[word] = value` on a `map<string, int>`. -/
def store (result : List (List α × ℤ)) (word : List α) (value : ℤ) : List (List α × ℤ) :=
  (word, value) :: result.filter fun e => decide (e.1 ≠ word)

variable {p w s x : List α} {pi : List ℕ} {c : α} {i j k n : ℕ}

/-! ## The matcher is correct -/

/-- The entries below `i` are the lengths of the longest proper borders. -/
def Table (p : List α) (pi : List ℕ) (i : ℕ) : Prop :=
  ∀ x < i, ∃ k, pi[x]? = some k ∧ Longest p (p.take (x + 1)) (x + 1) k

omit [DecidableEq α] in
lemma Table.mono (h : Table p pi i) (hji : j ≤ i) : Table p pi j :=
  fun x hx => h x (hx.trans_le hji)

/-- The inner loop ends, reads only entries of the table and finds what it looks for. -/
lemma fallBack_spec (c : α) (fuel : ℕ) (ht : Table p pi j) (hj : j < p.length) (hf : j ≤ fuel) :
    ∃ r, fallBack p pi c fuel j = some r ∧ Fallen p c j r := by
  induction fuel generalizing j with
  | zero =>
      obtain rfl : j = 0 := Nat.le_zero.1 hf
      exact ⟨0, by simp [fallBack], fallen_zero p c⟩
  | succ fuel ih =>
      cases j with
      | zero => exact ⟨0, by simp [fallBack], fallen_zero p c⟩
      | succ j =>
          have hget : p[j + 1]? = some p[j + 1] := List.getElem?_eq_getElem hj
          by_cases hc : c = p[j + 1]
          · refine ⟨j + 1, by simp [fallBack, hget, hc], fallen_self ?_⟩
            rw [hget, hc]
          · obtain ⟨k, hk, hlong⟩ := ht j (Nat.lt_succ_self j)
            have hkj : k < j + 1 := hlong.1.1
            obtain ⟨r, hr, hfall⟩ := ih (ht.mono hkj.le) (by omega) (by omega)
            refine ⟨r, by simp [fallBack, hget, hc, hk, hr], hfall.descend hlong ?_⟩
            rw [hget]
            exact fun h => hc (Option.some.inj h).symm

/-- The inner loop reads only entries below the one it starts from. -/
lemma fallBack_take (c : α) (fuel : ℕ) (ht : Table p pi j) (hji : j ≤ i) :
    fallBack p (pi.take i) c fuel j = fallBack p pi c fuel j := by
  induction fuel generalizing j with
  | zero => cases j <;> rfl
  | succ fuel ih =>
      cases j with
      | zero => rfl
      | succ j =>
          obtain ⟨k, hk, hlong⟩ := ht j (Nat.lt_succ_self j)
          have hkj : k < j + 1 := hlong.1.1
          have htake : (pi.take i)[j]? = some k := by
            rw [List.getElem?_take_of_lt (by omega), hk]
          simp only [fallBack, htake, hk, Option.bind_eq_bind, Option.bind_some,
            ih (ht.mono hkj.le) (by omega)]

/-- One letter of the text: the loop and the comparison after it find the longest overlap. -/
lemma fallBack_step {b : ℕ} (c : α) (ht : Table p pi j) (hj : j < p.length) (hx : Longest p x b j) :
    ∃ r d, fallBack p pi c j j = some r ∧ p[r]? = some d ∧ r ≤ j ∧
      (c = d → Longest p (x ++ [c]) (b + 1) (r + 1)) ∧
      (c ≠ d → r = 0 ∧ Longest p (x ++ [c]) (b + 1) 0) := by
  obtain ⟨r, hr, hfall⟩ := fallBack_spec c j ht hj le_rfl
  have hrj : r ≤ j := hfall.overlap.le_of_take
  have hget : p[r]? = some p[r] := List.getElem?_eq_getElem (by omega)
  refine ⟨r, p[r], hr, hget, hrj, fun hc => ?_, fun hc => ?_⟩
  · exact hfall.snoc_of_eq hx (by rw [hget, hc])
  · exact hfall.snoc_of_ne hx (by rw [hget]; exact fun h => hc (Option.some.inj h).symm)

/-- The loop of `getPi` keeps: the table is right below `i` and zero from there, and `j` is the
longest proper border of the first `i` letters.  What it reads of the table is below `i`. -/
lemma getPiFrom_spec (hn : i + n = p.length) (hlen : pi.length = p.length) (ht : Table p pi i)
    (h0 : ∀ x, i ≤ x → x < p.length → pi[x]? = some 0) (hj : Longest p (p.take i) i j) :
    ∃ pi', getPiFrom p i j pi n = some pi' ∧ getPiComputedFrom p i j pi n = some pi' ∧
      pi'.length = p.length ∧ Table p pi' p.length := by
  induction n generalizing i j pi with
  | zero =>
      obtain rfl : i = p.length := by omega
      exact ⟨pi, rfl, rfl, hlen, ht⟩
  | succ n ih =>
      have hi : i < p.length := by omega
      have hji : j < i := hj.1.1
      have hget : p[i]? = some p[i] := List.getElem?_eq_getElem hi
      have htake : p.take i ++ [p[i]] = p.take (i + 1) := by simp
      obtain ⟨r, d, hr, hd, hrj, heq, hne⟩ := fallBack_step p[i] (ht.mono hji.le) (by omega) hj
      rw [htake] at heq hne
      have hr' : fallBack p (pi.take i) p[i] j j = some r := by
        rw [fallBack_take p[i] j (ht.mono hji.le) hji.le, hr]
      simp only [getPiFrom, getPiComputedFrom, hget, hr, hr', hd, Option.bind_eq_bind,
        Option.bind_some]
      by_cases hc : p[i] = d
      · rw [if_pos hc, if_pos hc]
        refine ih (by omega) (by simpa using hlen) (fun y hy => ?_) (fun y hy hyp => ?_) (heq hc)
        · rcases Nat.lt_succ_iff_lt_or_eq.1 hy with hy | rfl
          · obtain ⟨k, hk, hlong⟩ := ht y hy
            exact ⟨k, by rw [List.getElem?_set_ne (by omega), hk], hlong⟩
          · exact ⟨r + 1, List.getElem?_set_self (by omega), heq hc⟩
        · rw [List.getElem?_set_ne (by omega)]
          exact h0 y (by omega) hyp
      · obtain ⟨rfl, hlong⟩ := hne hc
        rw [if_neg hc, if_neg hc]
        refine ih (by omega) hlen (fun y hy => ?_) (fun y hy hyp => h0 y (by omega) hyp) hlong
        rcases Nat.lt_succ_iff_lt_or_eq.1 hy with hy | rfl
        · exact ht y hy
        · exact ⟨0, h0 y le_rfl hi, hlong⟩

/-- **The failure table is right**: each entry is the length of the longest proper border. -/
theorem getPi_spec (hp : p ≠ []) : ∃ pi, getPi p = some pi ∧ getPiComputed p = some pi ∧
    pi.length = p.length ∧ Table p pi p.length := by
  have hpos : 0 < p.length := List.length_pos_iff.2 hp
  have hlong : Longest p (p.take 1) 1 0 :=
    ⟨⟨Nat.one_pos, overlap_zero _ _⟩, fun l hl => Nat.lt_succ_iff.1 hl.1⟩
  have hzero : ∀ x < p.length, (List.replicate p.length 0)[x]? = some 0 := fun x hx => by
    simp [hx]
  refine getPiFrom_spec (by omega) List.length_replicate (fun x hx => ?_)
    (fun x _ hx => hzero x hx) hlong
  obtain rfl : x = 0 := by omega
  exact ⟨0, hzero 0 hpos, hlong⟩

/-- **`getPi` is the border function.**  It returns, also if the inner loop may read only the
entries computed before; there is one entry for each letter, and entry `i` is the length of the
longest proper prefix of the first `i + 1` letters that is also a suffix of them. -/
theorem getPi_border_function (p : List α) :
    ∃ pi, getPi p = some pi ∧ getPiComputed p = some pi ∧ pi.length = p.length ∧
      ∀ i < p.length, ∃ k, pi[i]? = some k ∧
        IsGreatest {l | l < i + 1 ∧ p.take l <:+ p.take (i + 1)} k := by
  rcases eq_or_ne p [] with rfl | hp
  · exact ⟨[], rfl, rfl, rfl, fun i hi => absurd hi (Nat.not_lt_zero i)⟩
  · obtain ⟨pi, hpi, hcomputed, hlen, ht⟩ := getPi_spec hp
    refine ⟨pi, hpi, hcomputed, hlen, fun i hi => ?_⟩
    obtain ⟨k, hk, hlong⟩ := ht i hi
    refine ⟨k, hk, ⟨hlong.1.1, hlong.1.2.2⟩, ?_⟩
    rintro l ⟨hl, hsuf⟩
    exact hlong.2 ⟨hl, by omega, hsuf⟩

/-- What `kmp` should store: the first position of the word, or `-1`. -/
def kmpValue (w s : List α) : ℤ := if w <:+: s then firstPos w s else -1

lemma kmpValue_ne_neg_one : kmpValue w s ≠ -1 ↔ w <:+: s := by
  rw [kmpValue]
  split_ifs with h
  · simp only [ne_eq, h, iff_true]
    omega
  · simp [h]

omit [DecidableEq α] in
lemma isInfix_iff_exists_drop : w <:+: s ↔ ∃ i, w <+: s.drop i := by
  constructor
  · rintro ⟨x, y, rfl⟩
    exact ⟨x.length, by simp⟩
  · rintro ⟨i, hi⟩
    exact hi.isInfix.trans (List.drop_suffix i s).isInfix

omit [DecidableEq α] in
/-- A word that occurs in a text early enough occurs in its beginning. -/
lemma isInfix_of_isPrefix_drop {t : List α} (hw : w <+: (x ++ t).drop j)
    (hle : j + w.length ≤ x.length) : w <:+: x := by
  rw [List.drop_append_of_le_length (by omega)] at hw
  have hpre : w <+: x.drop j :=
    List.prefix_of_prefix_length_le hw (List.prefix_append _ _) (by rw [List.length_drop]; omega)
  exact hpre.isInfix.trans (List.drop_suffix j x).isInfix

/-- A word that ends a text for the first time is found where it starts there. -/
lemma kmpValue_of_suffix {rest : List α} (hno : ¬ w <:+: x) (hw : w <:+ x ++ [c]) :
    kmpValue w (x ++ c :: rest) = x.length - w.length + 1 := by
  obtain ⟨y, hy⟩ := hw
  have hs : x ++ c :: rest = y ++ (w ++ rest) := by
    rw [← List.append_assoc, hy, List.append_assoc, List.singleton_append]
  have hlen : y.length + w.length = x.length + 1 := by
    simpa using congrArg List.length hy
  have hfirst : firstPos w (x ++ c :: rest) = y.length := by
    refine firstPos_eq (by rw [hs]; simp) (by rw [hs]; simp) fun j hj hpre => hno ?_
    exact isInfix_of_isPrefix_drop hpre (by omega)
  have hinf : w <:+: x ++ c :: rest := ⟨y, rest, by rw [hs, List.append_assoc]⟩
  rw [kmpValue, if_pos hinf, hfirst]
  omega

/-- The loop of `kmp` keeps: the word does not occur in what has been read, and `j` is the longest
overlap with it. -/
lemma kmpFrom_spec {rest : List α} (hw : w ≠ []) (ht : Table w pi w.length)
    (hj : Longest w x w.length j) (hno : ¬ w <:+: x) :
    kmpFrom w pi x.length j rest = some (kmpValue w (x ++ rest)) := by
  induction rest generalizing x j with
  | nil => simp [kmpFrom, kmpValue, hno]
  | cons c rest ih =>
      obtain ⟨r, d, hr, hd, hrj, heq, hne⟩ :=
        fallBack_step c (ht.mono hj.1.1.le) hj.1.1 hj
      -- the word occurs in what has been read only if it ends there
      have hnext : ∀ k, k < w.length → Longest w (x ++ [c]) (w.length + 1) k →
          Longest w (x ++ [c]) w.length k ∧ ¬ w <:+: x ++ [c] := by
        intro k hk hlong
        refine ⟨⟨⟨hk, hlong.1.2⟩, fun l hl => hlong.2 ⟨hl.1.trans (Nat.lt_succ_self _), hl.2⟩⟩, ?_⟩
        intro hinf
        rcases List.infix_concat_iff.1 hinf with hsuf | hinf
        · exact absurd (hlong.2 ⟨Nat.lt_succ_self _, overlap_length.2 hsuf⟩) (by omega)
        · exact hno hinf
      have happ : x ++ c :: rest = (x ++ [c]) ++ rest := by simp
      have hlen : (x ++ [c]).length = x.length + 1 := by simp
      simp only [kmpFrom, hr, hd, Option.bind_eq_bind, Option.bind_some]
      by_cases hc : c = d
      · have hlong := heq hc
        by_cases hlast : (r : ℤ) = w.length - 1
        · have hfull : r + 1 = w.length := by omega
          have hsuf : w <:+ x ++ [c] := overlap_length.1 (hfull ▸ hlong.1.2)
          rw [if_pos hc, if_pos hlast, kmpValue_of_suffix hno hsuf]
        · have hlt : r + 1 < w.length := by
            have := hlong.1.1
            omega
          obtain ⟨hlong, hno⟩ := hnext _ hlt hlong
          rw [if_pos hc, if_neg hlast, happ, ← hlen]
          exact ih hlong hno
      · obtain ⟨rfl, hlong⟩ := hne hc
        obtain ⟨hlong, hno⟩ := hnext 0 (List.length_pos_iff.2 hw) hlong
        rw [if_neg hc, happ, ← hlen]
        exact ih hlong hno

/-- **The search is right**: it returns, and it returns the first position or `-1`. -/
theorem kmp_spec (hw : w ≠ []) (s : List α) : kmp w s = some (kmpValue w s) := by
  obtain ⟨pi, hpi, -, -, ht⟩ := getPi_spec hw
  have hlong : Longest w [] w.length 0 :=
    ⟨⟨List.length_pos_iff.2 hw, overlap_zero _ _⟩, fun l hl => hl.2.le_length⟩
  have hno : ¬ w <:+: [] := by simpa using hw
  simp only [kmp, hpi, Option.bind_eq_bind, Option.bind_some]
  exact kmpFrom_spec hw ht hlong hno

/-- **`kmp` finds the first occurrence.**  The thread of a word ends with `result[word]` the least
position at which the word occurs in the input, or `-1` if and only if there is none. -/
theorem kmp_first_occurrence (word input : List α) (hw : word ≠ [])
    (result : List (List α × ℤ)) :
    ∃ result' value, (kmp word input).map (store result word) = some result' ∧
      result'.lookup word = some value ∧
      (value = -1 ↔ ∀ i, ¬ word <+: input.drop i) ∧
      ∀ p : ℕ, value = p ↔ IsLeast {i | word <+: input.drop i} p := by
  refine ⟨store result word (kmpValue word input), kmpValue word input, ?_, ?_, ?_, fun p => ?_⟩
  · rw [kmp_spec hw, Option.map_some]
  · simp [store]
  · rw [← not_iff_not, ← ne_eq, kmpValue_ne_neg_one, isInfix_iff_exists_drop]
    push Not
    rfl
  · constructor
    · intro hp
      have hinf : word <:+: input := kmpValue_ne_neg_one.1 (by omega)
      have hfirst : firstPos word input = p := by
        rw [kmpValue, if_pos hinf] at hp
        exact_mod_cast hp
      rw [← hfirst]
      exact ⟨(isPrefix_drop_firstPos hinf).2, fun i hi => firstPos_le hi⟩
    · rintro ⟨hp, hleast⟩
      have hinf : word <:+: input := isInfix_iff_exists_drop.2 ⟨p, hp⟩
      have hle : p ≤ firstPos word input := hleast (isPrefix_drop_firstPos hinf).2
      rw [kmpValue, if_pos hinf, le_antisymm (firstPos_le hp) hle]

/-- In `abababc` the word `ababc` is found at `2`, although its first four letters are found at
`0`. -/
theorem kmp_first_occurrence_ababc :
    ∃ result value, (kmp [0, 1, 0, 1, 2] [0, 1, 0, 1, 0, 1, 2]).map (store [] [0, 1, 0, 1, 2]) =
        some result ∧
      result.lookup [0, 1, 0, 1, 2] = some value ∧
      (value = -1 ↔ ∀ i, ¬ [0, 1, 0, 1, 2] <+: [0, 1, 0, 1, 0, 1, 2].drop i) ∧
      ∀ p : ℕ, value = p ↔ IsLeast {i | [0, 1, 0, 1, 2] <+: [0, 1, 0, 1, 0, 1, 2].drop i} p :=
  kmp_first_occurrence _ _ (by decide) []

end Matcher

/-! ## The main loop -/

/-- The order in which the threads of a batch get the mutex and store their results. -/
structure Finish where
  order : List Str → List Str
  perm : ∀ batch, (order batch).Perm batch

/-- The threads of a batch run to their end. -/
def join (F : Finish) (input : Str) (batch : List Str) (result : List (Str × ℤ)) :
    Option (List (Str × ℤ)) :=
  (F.order batch).foldlM (fun result word => (kmp word input).map (store result word)) result

/-- The loop that starts the threads: those of a batch are joined when there are 47 of them, or no
words left. -/
def runThreads (F : Finish) (input : Str) :
    List Str → List Str → List (Str × ℤ) → Option (List (Str × ℤ))
  | batch, [], result => join F input batch result
  | batch, word :: words, result =>
      if batch.length < 47 then
        runThreads F input (batch ++ [word]) words result
      else do
        let result ← join F input batch result
        runThreads F input [word] words result

/-- `cmp`: by position, then by the words themselves. -/
def cmp (a b : Str × ℤ) : Prop := if a.2 ≠ b.2 then a.2 < b.2 else a.1 < b.1

instance : DecidableRel cmp := fun _ _ => inferInstanceAs (Decidable (ite _ _ _))

/-- The loop that prints the words found; the bar is left out at the last entry of the map. -/
def printFound : List (Str × ℤ) → List Char
  | [] => []
  | e :: v =>
      (if e.2 ≠ -1 then text e.1 ++ (if v ≠ [] then ['|'] else []) else []) ++ printFound v

/-- The line printed for the contents of `result`. -/
def kmpLine (result : List (Str × ℤ)) : List Char :=
  let v := result.insertionSort fun a b => ¬ cmp b a
  printFound v ++ (if v.any fun e => decide (e.2 ≠ -1) then [] else ['-', '1'])

/-- The loop of `main`; the `n`-th query is answered with the schedule `F n`. -/
def kmpRun (F : ℕ → Finish) (n : ℕ) (wordList : StrSet) : List Cmd → Option (List (List Char))
  | [] => some []
  | .A w :: script => kmpRun F n (wordList.insert w.1) script
  | .D w :: script => kmpRun F n (wordList.erase w.1) script
  | .Q s :: script => do
      let result ← runThreads (F n) s [] wordList.elems []
      let lines ← kmpRun F (n + 1) wordList script
      some (kmpLine result :: lines)

/-- `main` of `project1/kmp_solution/ref_solution.cpp`: the lines printed for the queries. -/
def kmpMain (F : ℕ → Finish) (init : List Word) (script : List Cmd) : Option (List (List Char)) :=
  kmpRun F 0 (StrSet.ofWords init) script

/-! ## What the threads leave in the map -/

/-- The entry of a word in the map when its thread has finished. -/
def entry (s w : Str) : Str × ℤ := (w, kmpValue w s)

section Threads

variable {result : List (Str × ℤ)} {batch words done : List Str}

lemma store_fresh {value : ℤ} (h : w ∉ result.map Prod.fst) :
    store result w value = (w, value) :: result := by
  rw [store, List.filter_eq_self.2]
  intro e he
  rw [decide_eq_true_eq]
  rintro rfl
  exact h (List.mem_map_of_mem he)

/-- Threads that store their results one after the other add one entry each. -/
lemma foldlM_store (hne : ∀ w ∈ words, w ≠ []) (hnd : (words ++ done).Nodup)
    (hr : result.Perm (done.map (entry s))) :
    ∃ r, words.foldlM (fun result word => (kmp word s).map (store result word)) result = some r ∧
      r.Perm ((words ++ done).map (entry s)) := by
  induction words generalizing result done with
  | nil => exact ⟨result, rfl, hr⟩
  | cons w words ih =>
      have hperm : (words ++ w :: done).Perm (w :: words ++ done) := List.perm_middle
      have hmem : w ∉ result.map Prod.fst := by
        have hdone : w ∉ done := fun h => (List.nodup_cons.1 hnd).1 (List.mem_append_right _ h)
        have hkeys : (done.map (entry s)).map Prod.fst = done := by
          rw [List.map_map]
          exact List.map_id done
        rwa [(hr.map Prod.fst).mem_iff, hkeys]
      obtain ⟨r, hfold, hr'⟩ := ih (fun v hv => hne v (List.mem_cons_of_mem w hv))
        (hperm.nodup_iff.2 hnd) (hr.cons (entry s w))
      refine ⟨r, ?_, hr'.trans (hperm.map _)⟩
      rw [List.foldlM_cons, kmp_spec (hne w List.mem_cons_self), Option.map_some,
        store_fresh hmem]
      exact hfold

/-- The order in which the threads of a batch finish makes no difference. -/
lemma join_spec (F : Finish) (hne : ∀ w ∈ batch, w ≠ []) (hnd : (batch ++ done).Nodup)
    (hr : result.Perm (done.map (entry s))) :
    ∃ r, join F s batch result = some r ∧ r.Perm ((batch ++ done).map (entry s)) := by
  have hperm : (F.order batch ++ done).Perm (batch ++ done) := (F.perm batch).append_right done
  obtain ⟨r, hfold, hr'⟩ := foldlM_store (fun w hw => hne w ((F.perm batch).mem_iff.1 hw))
    (hperm.nodup_iff.2 hnd) hr
  exact ⟨r, hfold, hr'.trans (hperm.map _)⟩

/-- When all threads have been joined, the map has one entry per word. -/
lemma runThreads_spec (F : Finish) (hne : ∀ w ∈ batch ++ words, w ≠ [])
    (hnd : (batch ++ words ++ done).Nodup) (hr : result.Perm (done.map (entry s))) :
    ∃ r, runThreads F s batch words result = some r ∧
      r.Perm ((batch ++ words ++ done).map (entry s)) := by
  induction words generalizing batch done result with
  | nil =>
      rw [List.append_nil] at hne hnd ⊢
      exact join_spec F hne hnd hr
  | cons w words ih =>
      rw [runThreads]
      split_ifs with h47
      · rw [List.append_cons batch w words] at hne hnd ⊢
        exact ih hne hnd hr
      · have hperm : ([w] ++ words ++ (batch ++ done)).Perm (batch ++ w :: words ++ done) := by
          rw [← List.append_assoc]
          exact (List.perm_append_comm).append_right done
        have hnd' := hperm.nodup_iff.2 hnd
        obtain ⟨r, hjoin, hr'⟩ := join_spec F (fun v hv => hne v (List.mem_append_left _ hv))
          (List.nodup_append.1 hnd').2.1 hr
        obtain ⟨r', hrun, hr''⟩ := ih (fun v hv => hne v (List.mem_append_right _ hv)) hnd' hr'
        refine ⟨r', ?_, hr''.trans (hperm.map _)⟩
        simp only [hjoin, Option.bind_eq_bind, Option.bind_some, hrun]

end Threads

/-! ## The printed line is right -/

/-- A proper beginning of a string comes before it. -/
lemma lt_of_isPrefix {v w : Str} (h : v <+: w) (hlt : v.length < w.length) : v < w := by
  obtain ⟨t, rfl⟩ := h
  cases t with
  | nil => simp at hlt
  | cons c t =>
      have hlex : List.Lex (· < ·) (v ++ []) (v ++ c :: t) := List.Lex.append_left _ .nil v
      rwa [List.append_nil] at hlex

/-- Where two words are found, `cmp` sorts them by key: words found at the same place are each
other's beginnings, so that the alphabet sorts them by length. -/
lemma key_le_of_not_cmp {v : Str} (hv : v <:+: s) (hw : w <:+: s)
    (h : ¬ cmp (entry s w) (entry s v)) : key s v ≤ key s w := by
  simp only [cmp, entry, kmpValue, if_pos hv, if_pos hw] at h
  rw [key, key, Prod.Lex.toLex_le_toLex]
  split_ifs at h with hpos
  · left
    show firstPos v s < firstPos w s
    omega
  · have hpos : firstPos v s = firstPos w s := by omega
    refine Or.inr ⟨hpos, not_lt.1 fun hlt => h (lt_of_isPrefix ?_ hlt)⟩
    have hv := (isPrefix_drop_firstPos hv).2
    rw [hpos] at hv
    exact List.prefix_of_prefix_length_le (isPrefix_drop_firstPos hw).2 hv hlt.le

/-- `cmp` is the strict order by position, then by word. -/
lemma not_cmp_iff {a b : Str × ℤ} : ¬ cmp b a ↔ toLex (a.2, a.1) ≤ toLex (b.2, b.1) := by
  rw [cmp, Prod.Lex.toLex_le_toLex]
  split_ifs with h
  · simp only [not_lt]
    constructor
    · exact fun hle => Or.inl (lt_of_le_of_ne hle (Ne.symm h))
    · rintro (hlt | ⟨heq, _⟩)
      · exact hlt.le
      · exact heq.le
  · rw [not_not] at h
    simp [h]

/-- `sort(v.begin(), v.end(), cmp)` sorts. -/
lemma pairwise_sort (result : List (Str × ℤ)) :
    (result.insertionSort fun a b => ¬ cmp b a).Pairwise fun a b => ¬ cmp b a := by
  have : Std.Total fun a b : Str × ℤ => ¬ cmp b a :=
    ⟨fun a b => by simp only [not_cmp_iff]; exact le_total _ _⟩
  have : IsTrans (Str × ℤ) fun a b => ¬ cmp b a :=
    ⟨fun a b c => by simp only [not_cmp_iff]; exact le_trans⟩
  exact List.pairwise_insertionSort _ _

/-- Where the words that were not found come first, no bar is printed too many. -/
lemma printFound_eq {v : List (Str × ℤ)} (h : v.Pairwise fun a b => a.2 ≠ -1 → b.2 ≠ -1) :
    printFound v =
      ['|'].intercalate (((v.filter fun e => decide (e.2 ≠ -1)).map Prod.fst).map text) := by
  induction v with
  | nil => rfl
  | cons e v ih =>
      obtain ⟨he, hv⟩ := List.pairwise_cons.1 h
      rw [printFound, ih hv]
      by_cases hfound : e.2 = -1
      · simp [hfound]
      · have hall : v.filter (fun e => decide (e.2 ≠ -1)) = v :=
          List.filter_eq_self.2 fun b hb => decide_eq_true (he b hb hfound)
        have hcons : (e :: v).filter (fun e => decide (e.2 ≠ -1)) = e :: v := by
          rw [List.filter_cons, if_pos (decide_eq_true hfound), hall]
        rw [if_pos hfound, hcons, hall]
        cases v with
        | nil => simp
        | cons b v => simp [List.intercalate]

/-- The words found, in the order of the sorted map, are the answer. -/
lemma answers_found {S : StrSet} {v : List (Str × ℤ)} (hperm : v.Perm (S.elems.map (entry s)))
    (hsort : v.Pairwise fun a b => ¬ cmp b a) :
    Answers s (· ∈ S) ((v.filter fun e => decide (e.2 ≠ -1)).map Prod.fst) := by
  have hentry : ∀ e ∈ v, e = entry s e.1 ∧ e.1 ∈ S := by
    intro e he
    obtain ⟨w, hw, rfl⟩ := List.mem_map.1 (hperm.mem_iff.1 he)
    exact ⟨rfl, hw⟩
  have hkeys : (v.map Prod.fst).Nodup := by
    have hmap : (S.elems.map (entry s)).map Prod.fst = S.elems := by
      rw [List.map_map]
      exact List.map_id _
    rw [(hperm.map Prod.fst).nodup_iff, hmap]
    exact S.nodup
  refine answers_of_le (hkeys.sublist (List.filter_sublist.map _)) (fun w => ?_) ?_
  · simp only [List.mem_map, List.mem_filter, decide_eq_true_eq]
    constructor
    · rintro ⟨e, ⟨he, hfound⟩, rfl⟩
      obtain ⟨heq, hS⟩ := hentry e he
      rw [heq] at hfound
      exact ⟨hS, kmpValue_ne_neg_one.1 hfound⟩
    · rintro ⟨hS, hw⟩
      exact ⟨entry s w, ⟨hperm.mem_iff.2 (List.mem_map_of_mem hS), kmpValue_ne_neg_one.2 hw⟩, rfl⟩
  · rw [List.pairwise_map]
    refine (hsort.sublist List.filter_sublist).imp_of_mem fun {a b} ha hb hab => ?_
    simp only [List.mem_filter, decide_eq_true_eq] at ha hb
    rw [(hentry a ha.1).1, (hentry b hb.1).1] at hab
    rw [(hentry a ha.1).1] at ha
    rw [(hentry b hb.1).1] at hb
    exact key_le_of_not_cmp (kmpValue_ne_neg_one.1 ha.2) (kmpValue_ne_neg_one.1 hb.2) hab

/-- The line printed for a query is the right one. -/
lemma kmpLine_eq {S : StrSet} {result : List (Str × ℤ)}
    (hperm : result.Perm (S.elems.map (entry s))) : kmpLine result = line (answer S s) := by
  have hv := (List.perm_insertionSort (fun a b => ¬ cmp b a) result).trans hperm
  have hsort := pairwise_sort result
  rw [kmpLine]
  generalize result.insertionSort (fun a b => ¬ cmp b a) = v at hv hsort ⊢
  rw [← (answers_found hv hsort).unique (answers_answer S s), line]
  -- words that were not found have the least position
  have hfirst : v.Pairwise fun a b => a.2 ≠ -1 → b.2 ≠ -1 := by
    refine hsort.imp_of_mem fun {a b} ha hb hab hfound hnot => hab ?_
    obtain ⟨w, _, rfl⟩ := List.mem_map.1 (hv.mem_iff.1 ha)
    have hpos : (entry s w).2 = firstPos w s := if_pos (kmpValue_ne_neg_one.1 hfound)
    rw [cmp, if_pos (by omega)]
    omega
  rw [printFound_eq hfirst]
  by_cases hany : (v.any fun e => decide (e.2 ≠ -1)) = true
  · have hne : v.filter (fun e => decide (e.2 ≠ -1)) ≠ [] := by
      obtain ⟨e, he, hfound⟩ := List.any_eq_true.1 hany
      exact List.ne_nil_of_mem (List.mem_filter.2 ⟨he, hfound⟩)
    rw [if_pos hany, if_neg (by simpa using hne), List.append_nil]
  · have hnil : v.filter (fun e => decide (e.2 ≠ -1)) = [] := by
      rw [List.filter_eq_nil_iff]
      exact fun e he hfound => hany (List.any_eq_true.2 ⟨e, he, hfound⟩)
    rw [if_neg hany, hnil]
    rfl

/-! ## The program is right -/

lemma kmpRun_eq_specRun (F : ℕ → Finish) (script : List Cmd) {n : ℕ} {S : StrSet}
    (hne : ∀ w ∈ S, w ≠ []) : kmpRun F n S script = some (specRun S script) := by
  induction script generalizing n S with
  | nil => rfl
  | cons cmd script ih =>
      cases cmd with
      | A w =>
          refine ih fun v hv => ?_
          rcases StrSet.mem_insert.1 hv with rfl | hv
          · exact w.2
          · exact hne v hv
      | D w => exact ih fun v hv => hne v (StrSet.mem_erase.1 hv).2
      | Q s =>
          have hnil : ([] : List (Str × ℤ)).Perm (([] : List Str).map (entry s)) := .refl _
          have hnd : ([] ++ S.elems ++ []).Nodup := by simpa using S.nodup
          obtain ⟨r, hrun, hr⟩ := runThreads_spec (F n) hne hnd hnil
          rw [List.append_nil, List.nil_append] at hr
          simp only [kmpRun, hrun, ih hne, Option.bind_eq_bind, Option.bind_some, kmpLine_eq hr,
            specRun]

/-- **The program prints what it should**, in whatever order its threads finish. -/
theorem kmpMain_eq_spec (F : ℕ → Finish) (init : List Word) (script : List Cmd) :
    kmpMain F init script = some (spec init script) := by
  refine kmpRun_eq_specRun F script fun w hw => ?_
  obtain ⟨v, _, rfl⟩ := List.mem_map.1 (StrSet.mem_ofWords.1 hw)
  exact v.2

end Multicore.Project1
