import Multicore.Lib.Text
import Multicore.Project2.Exactness

/-!
# The log files and the script that checks them

Every thread writes its committed transactions into a file of its own, one line of seven numbers
for each.  `test.py` reads the files of all threads, sorts the lines by commit id, executes the
transactions one after the other on records that start at `100`, and compares.

* `LogLine.text`, `State.file` — what the threads write;
* `Test` — the script, with the exceptions it can raise;
* `sortLines_log` — sorting the files gives the log in commit order, whatever thread wrote which
  line;
* **`checker_accepts_iff`** — on the log of every run the script raises no exception, and it
  reports success for every transaction if and only if every value it compares fits into an `int`:
  the script computes in unbounded integers, the engine in 32 bits;
* **`total_counts_commits`** — a check the script does not make: the sum of all records counts the
  committed transactions.
-/

namespace Multicore.Project2

variable {N R : ℕ} {E : ℤ} {s : State N R}

/-! ## The files -/

/-- The numbers of a log line, in the order in which `work` writes them. -/
def LogLine.fields (l : LogLine R) : List ℤ :=
  [l.cid, (l.i : ℕ), (l.j : ℕ), (l.k : ℕ), l.iValue.toInt, l.jValue.toInt, l.kValue.toInt]

/-- `outFile << cid << " " << i << … << endl`. -/
def LogLine.text (l : LogLine R) : List Char := Text.line l.fields

/-- The lines thread `t` has written. -/
def State.linesOf (s : State N R) (t : Fin N) : List (LogLine R) :=
  (s.outFile.filter fun l => l.1 = t).map Prod.snd

/-- The content of the file of thread `t`. -/
def State.file (s : State N R) (t : Fin N) : List Char := (s.linesOf t).flatMap LogLine.text

/-- The files of all threads, in the order in which the script opens them. -/
def State.files (s : State N R) : List (List Char) := (List.finRange N).map s.file

/-! ## The script -/

namespace Test

/-- The seven numbers of a line. -/
structure Row where
  commitId : ℤ
  i : ℤ
  j : ℤ
  k : ℤ
  iResult : ℤ
  jResult : ℤ
  kResult : ℤ
  deriving DecidableEq, Repr

/-- `commit_id, i, j, k, i_result, j_result, k_result = map(int, line.split())`. -/
def parseRow (line : List Char) : Option Row :=
  match Text.parseLine line with
  | some [commitId, i, j, k, iResult, jResult, kResult] =>
      some ⟨commitId, i, j, k, iResult, jResult, kResult⟩
  | _ => none

/-- `int(line.split()[0])`. -/
def key (line : List Char) : Option ℤ := (Text.words line).head?.bind Text.parseInt

/-- `lines.sort(key=…)`, a stable sort. -/
def sortLines (lines : List (List Char)) : Option (List (List Char)) :=
  (lines.mapM fun line => (key line).map fun commitId => (commitId, line)).map fun keyed =>
    (keyed.mergeSort fun a b => a.1 ≤ b.1).map Prod.snd

/-- Which element `records[i]` is: a negative index counts from the end, and one that is out of
range is an exception. -/
def position (length : ℕ) (i : ℤ) : Option ℕ :=
  if 0 ≤ i ∧ i < length then some i.toNat
  else if i < 0 ∧ -length ≤ i then some (i + length).toNat
  else none

/-- `records[i]`. -/
def get (records : List ℤ) (i : ℤ) : Option ℤ :=
  (position records.length i).bind fun p => records[p]?

/-- `records[i] += z`. -/
def add (records : List ℤ) (i z : ℤ) : Option (List ℤ) :=
  (position records.length i).map fun p => records.modify p (· + z)

/-- The line for one record of a transaction that failed. -/
def compared (i real actual : ℤ) : String :=
  "real: record " ++ toString i ++ " = " ++ toString real ++
    " actual: record " ++ toString i ++ " = " ++ toString actual

/-- The line for a transaction that passed. -/
def successful (commitId : ℤ) : String := toString commitId ++ " commit result is successful!"

/-- What is printed for one transaction, the records being `ri`, `rj` and `rk` after it. -/
def report (r : Row) (ri rj rk : ℤ) : List String :=
  if r.iResult = ri ∧ r.jResult = rj ∧ r.kResult = rk then [successful r.commitId]
  else [toString r.commitId ++ " commit result is failed.", compared r.i ri r.iResult,
    compared r.j rj r.jResult, compared r.k rk r.kResult]

/-- The body of the loop over the lines. -/
def checkRow (records : List ℤ) (r : Row) : Option (List ℤ × List String) := do
  let read ← get records r.i
  let records ← add records r.j (read + 1)
  let records ← add records r.k (-read)
  let ri ← get records r.i
  let rj ← get records r.j
  let rk ← get records r.k
  some (records, report r ri rj rk)

/-- The loop over the sorted lines, and the last line of the output. -/
def checkLines (records : List ℤ) : List (List Char) → Option (List String)
  | [] => some ["test finish"]
  | line :: lines => do
      let r ← parseRow line
      let (records, out) ← checkRow records r
      let rest ← checkLines records lines
      some (out ++ rest)

/-- `main`: what the script prints for these files, `none` if it raises an exception. -/
def main (numOfRecord : ℕ) (files : List (List Char)) : Option (List String) := do
  let lines ← sortLines (files.flatMap Text.readLines)
  checkLines (List.replicate (numOfRecord + 1) 100) lines

end Test

/-! ## Reading a line back -/

/-- The row of a log line. -/
def LogLine.row (l : LogLine R) : Test.Row :=
  ⟨l.cid, (l.i : ℕ), (l.j : ℕ), (l.k : ℕ), l.iValue.toInt, l.jValue.toInt, l.kValue.toInt⟩

/-- **The script reads the numbers the engine wrote.** -/
lemma parseRow_text (l : LogLine R) : Test.parseRow l.text = some l.row := by
  unfold Test.parseRow LogLine.text LogLine.fields
  rw [Text.parseLine_line]
  rfl

lemma key_text (l : LogLine R) : Test.key l.text = some l.cid := by
  unfold Test.key LogLine.text LogLine.fields
  rw [Text.words_line]
  simp

lemma readLines_file (s : State N R) (t : Fin N) :
    Text.readLines (s.file t) = (s.linesOf t).map LogLine.text := by
  have hfile : s.file t = ((s.linesOf t).map LogLine.fields).flatMap Text.line := by
    rw [State.file, List.flatMap_map]
    rfl
  rw [hfile, Text.readLines_flatMap_line, List.map_map]
  rfl

/-! ## Sorting -/

/-- What is sorted by thread is counted thread by thread. -/
lemma sum_count_filter {α : Type*} [DecidableEq α] (xs : List (Fin N × α)) (a : α) :
    ∑ t, ((xs.filter fun x => x.1 = t).map Prod.snd).count a = (xs.map Prod.snd).count a := by
  induction xs with
  | nil => simp
  | cons x xs ih =>
      have hcons : ∀ t : Fin N, (((x :: xs).filter fun x => x.1 = t).map Prod.snd).count a
          = ((xs.filter fun x => x.1 = t).map Prod.snd).count a
            + if x.1 = t then (if x.2 = a then 1 else 0) else 0 := by
        intro t
        by_cases ht : x.1 = t <;> simp [ht, List.count_cons]
      rw [Finset.sum_congr rfl fun t _ => hcons t, Finset.sum_add_distrib, ih]
      simp [List.count_cons]

/-- The lines of all files are those of the log, in another order. -/
lemma flatMap_linesOf_perm (s : State N R) :
    ((List.finRange N).flatMap s.linesOf).Perm s.lines := by
  rw [List.perm_iff_count]
  intro l
  rw [List.count_flatMap, ← Fin.sum_univ_def]
  exact sum_count_filter s.outFile l

/-- Ids that count from `1` are increasing. -/
lemma increasing_of_ids {log : List (LogLine R)}
    (h : log.map LogLine.cid = (List.range log.length).map fun c : ℕ => (c : ℤ) + 1) :
    log.Pairwise fun l l' => l.cid < l'.cid := by
  rw [← List.pairwise_map (f := LogLine.cid) (R := (· < ·)), h, List.pairwise_map]
  exact List.pairwise_lt_range.imp fun hab => by omega

/-- **Sorting the files gives the log**, when its ids are increasing. -/
lemma sortLines_log {log lines : List (LogLine R)} (hperm : lines.Perm log)
    (hlog : log.Pairwise fun l l' => l.cid < l'.cid) :
    Test.sortLines (lines.map LogLine.text) = some (log.map LogLine.text) := by
  have hkeyed : ((lines.map LogLine.text).mapM fun line =>
      (Test.key line).map fun commitId => (commitId, line))
        = some (lines.map fun l => (l.cid, l.text)) := by
    clear hperm
    induction lines with
    | nil => rfl
    | cons l lines ih => simp [key_text, ih]
  have hsorted : (lines.map fun l => (l.cid, l.text)).mergeSort (fun a b => a.1 ≤ b.1)
      = log.map fun l => (l.cid, l.text) := by
    have hmap := hperm.map fun l : LogLine R => (l.cid, l.text)
    refine List.Perm.eq_of_pairwise (fun a b ha hb (hab : a.1 ≤ b.1) (hba : b.1 ≤ a.1) => ?_) ?_ ?_
      ((List.mergeSort_perm _ _).trans hmap)
    · -- two lines of the log with one id are one line
      have ha' := (((List.mergeSort_perm _ _).trans hmap).mem_iff).mp ha
      obtain ⟨l, hl, rfl⟩ := List.mem_map.mp ha'
      obtain ⟨l', hl', rfl⟩ := List.mem_map.mp hb
      have hinj := List.inj_on_of_nodup_map
        ((List.pairwise_map.mpr (hlog.imp ne_of_lt)) : (log.map LogLine.cid).Nodup)
      rw [hinj hl hl' (le_antisymm hab hba)]
    · let before : ℤ × List Char → ℤ × List Char → Bool := fun a b => decide (a.1 ≤ b.1)
      have htrans : ∀ a b c, before a b = true → before b c = true → before a c = true := by
        simp only [before, decide_eq_true_eq]
        omega
      have htotal : ∀ a b, (before a b || before b a) = true := by
        simp only [before, Bool.or_eq_true, decide_eq_true_eq]
        omega
      have hp := List.pairwise_mergeSort htrans htotal (lines.map fun l => (l.cid, l.text))
      exact hp.imp fun hab => of_decide_eq_true hab
    · rw [List.pairwise_map]
      exact hlog.imp le_of_lt
  rw [Test.sortLines, hkeyed, Option.map_some, hsorted, List.map_map]
  rfl

/-! ## Replaying -/

/-- The list `records` of the script holds the values `v`; its last element is never used. -/
structure Holds (records : List ℤ) (v : Fin R → ℤ) : Prop where
  length : records.length = R + 1
  get : ∀ x : Fin R, records[(x : ℕ)]? = some (v x)

variable {records : List ℤ} {v : Fin R → ℤ}

lemma Holds.position (h : Holds records v) (x : Fin R) :
    Test.position records.length ((x : ℕ) : ℤ) = some (x : ℕ) := by
  have := x.isLt
  rw [Test.position, if_pos ⟨by omega, by rw [h.length]; omega⟩]
  rfl

lemma Holds.get_eq (h : Holds records v) (x : Fin R) :
    Test.get records ((x : ℕ) : ℤ) = some (v x) := by
  rw [Test.get, h.position, Option.bind_some, h.get]

lemma Holds.add_eq (h : Holds records v) (x : Fin R) (z : ℤ) :
    ∃ records', Test.add records ((x : ℕ) : ℤ) z = some records' ∧
      Holds records' (Function.update v x (v x + z)) := by
  refine ⟨records.modify x (· + z), by rw [Test.add, h.position]; rfl, ?_, fun y => ?_⟩
  · rw [List.length_modify, h.length]
  · rw [List.getElem?_modify, h.get, Function.update_apply]
    by_cases hxy : y = x
    · simp [hxy]
    · have : (x : ℕ) ≠ y := fun he => hxy (Fin.ext he.symm)
      simp [hxy, this]

/-- The script executes a logged transaction in the integers and reports on it. -/
lemma Holds.checkRow (h : Holds records v) (l : LogLine R) :
    ∃ records', Test.checkRow records l.row = some (records', Test.report l.row
        (exactStep v l.triple l.i) (exactStep v l.triple l.j) (exactStep v l.triple l.k)) ∧
      Holds records' (exactStep v l.triple) := by
  obtain ⟨records₁, hadd₁, h₁⟩ := h.add_eq l.j (v l.i + 1)
  obtain ⟨records₂, hadd₂, h₂⟩ := h₁.add_eq l.k (-v l.i)
  have hstep : Function.update (Function.update v l.j (v l.j + (v l.i + 1))) l.k
      (Function.update v l.j (v l.j + (v l.i + 1)) l.k + -v l.i) = exactStep v l.triple := by
    simp only [exactStep, LogLine.triple, sub_eq_add_neg, add_assoc]
  rw [hstep] at h₂
  refine ⟨records₂, ?_, h₂⟩
  simp only [Test.checkRow, LogLine.row, h.get_eq, hadd₁, hadd₂, h₂.get_eq, Option.bind_eq_bind,
    Option.bind_some]

/-- What is printed about the transactions of a log, executed on the values `v`. -/
def reports (v : Fin R → ℤ) : List (LogLine R) → List String
  | [] => []
  | l :: log =>
      let v := exactStep v l.triple
      Test.report l.row (v l.i) (v l.j) (v l.k) ++ reports v log

/-- The script raises no exception on a log. -/
lemma Holds.checkLines (h : Holds records v) (log : List (LogLine R)) :
    Test.checkLines records (log.map LogLine.text) = some (reports v log ++ ["test finish"]) := by
  induction log generalizing records v with
  | nil => rfl
  | cons l log ih =>
      obtain ⟨records', hrow, h'⟩ := h.checkRow l
      simp only [List.map_cons, Test.checkLines, parseRow_text, hrow, ih h', Option.bind_eq_bind,
        Option.bind_some, reports, List.append_assoc]

/-! ## What is accepted -/

lemma length_le_reports (v : Fin R → ℤ) (log : List (LogLine R)) :
    log.length ≤ (reports v log).length := by
  induction log generalizing v with
  | nil => exact le_rfl
  | cons l log ih =>
      have := ih (exactStep v l.triple)
      simp only [reports, List.length_append, List.length_cons, Test.report]
      split_ifs <;> simp <;> omega

/-- The line shows exactly these values. -/
def LogLine.ShowsExactly (l : LogLine R) (v : Fin R → ℤ) : Prop :=
  l.iValue.toInt = v l.i ∧ l.jValue.toInt = v l.j ∧ l.kValue.toInt = v l.k

/-- Nothing but success is reported exactly when every line shows the values after its own
transaction: a failure takes four lines of output. -/
lemma reports_eq_iff (v : Fin R → ℤ) (log : List (LogLine R)) :
    reports v log = log.map (fun l => Test.successful l.cid) ↔
      ∀ (c : ℕ) l, log[c]? = some l →
        l.ShowsExactly (((log.take (c + 1)).map LogLine.triple).foldl exactStep v) := by
  induction log generalizing v with
  | nil => simp [reports]
  | cons l log ih =>
      have hcons : (∀ (c : ℕ) l', (l :: log)[c]? = some l' → l'.ShowsExactly
          ((((l :: log).take (c + 1)).map LogLine.triple).foldl exactStep v)) ↔
          l.ShowsExactly (exactStep v l.triple) ∧ ∀ (c : ℕ) l', log[c]? = some l' →
            l'.ShowsExactly (((log.take (c + 1)).map LogLine.triple).foldl exactStep
              (exactStep v l.triple)) := by
        refine ⟨fun h => ⟨h 0 l rfl, fun c l' hl' => h (c + 1) l' hl'⟩, fun h c l' hl' => ?_⟩
        cases c with
        | zero =>
            obtain rfl := Option.some.inj hl'
            exact h.1
        | succ c => exact h.2 c l' hl'
      rw [hcons, ← ih]
      simp only [reports, List.map_cons]
      by_cases hshow : l.ShowsExactly (exactStep v l.triple)
      · have hreport : Test.report l.row (exactStep v l.triple l.i) (exactStep v l.triple l.j)
            (exactStep v l.triple l.k) = [Test.successful l.cid] := if_pos hshow
        simp [hreport, hshow]
      · refine iff_of_false (fun heq => ?_) fun h => hshow h.1
        have hlen := congrArg List.length heq
        have hmore := length_le_reports (exactStep v l.triple) log
        have hreport : (Test.report l.row (exactStep v l.triple l.i) (exactStep v l.triple l.j)
            (exactStep v l.triple l.k)).length = 4 := by
          rw [Test.report]
          exact congrArg List.length (if_neg hshow)
        rw [List.length_append, hreport, List.length_cons, List.length_map] at hlen
        omega

/-- A line of the engine's log shows exact values when they fit into an `int`. -/
lemma showsExactly_iff (hs : (engine N R E).Reachable s) {c : ℕ} {l : LogLine R}
    (hl : s.lines[c]? = some l) :
    l.ShowsExactly (exactValues ((s.lines.take (c + 1)).map LogLine.triple)) ↔
      ∀ y ∈ [l.i, l.j, l.k], IsInt (exactValues ((s.lines.take (c + 1)).map LogLine.triple) y) := by
  have hval : ∀ {y : Fin R} {value : Int32},
      (y, value) ∈ [(l.i, l.iValue), (l.j, l.jValue), (l.k, l.kValue)] →
      (value.toInt = exactValues ((s.lines.take (c + 1)).map LogLine.triple) y ↔
        IsInt (exactValues ((s.lines.take (c + 1)).map LogLine.triple) y)) := fun hy => by
    rw [engine_log_values hs hl hy, toInt_eq_self_iff]
  rw [LogLine.ShowsExactly, hval (y := l.i) (by simp), hval (y := l.j) (by simp),
    hval (y := l.k) (by simp)]
  simp

/-- **The script on the log of every run.**  As long as the commit counter stays in the range of
`int`, the script raises no exception on the files of the threads, and it reports success for the
transactions `1, 2, …, n` in this order, and nothing else, if and only if the exact values of the
three records of every transaction fit into an `int` after it. -/
theorem checker_accepts_iff (hN : 1 ≤ N) (hE : 0 ≤ E) (hrange : E = 0 ∨ E + N ≤ 2 ^ 31)
    (hs : (engine N R E).Reachable s) :
    (Test.main R s.files).isSome = true ∧
      (Test.main R s.files = some ((List.range s.lines.length).map
          (fun c : ℕ => Test.successful (c + 1)) ++ ["test finish"]) ↔
        ∀ (c : ℕ) l, s.lines[c]? = some l → ∀ y ∈ [l.i, l.j, l.k],
          IsInt (exactValues ((s.lines.take (c + 1)).map LogLine.triple) y)) := by
  have hids := (serializable_of_range hE ⟨0, hN⟩ hrange hs).ids
  have hfiles : s.files.flatMap Text.readLines
      = ((List.finRange N).flatMap s.linesOf).map LogLine.text := by
    rw [State.files, List.flatMap_map, List.map_flatMap]
    exact List.flatMap_congr fun t _ => readLines_file s t
  have hstart : Holds (List.replicate (R + 1) 100) (fun _ : Fin R => 100) := by
    refine ⟨List.length_replicate, fun x => ?_⟩
    rw [List.getElem?_replicate, if_pos (by have := x.isLt; omega)]
  have hmain : Test.main R s.files = some (reports (fun _ => 100) s.lines ++ ["test finish"]) := by
    rw [Test.main, hfiles, sortLines_log (flatMap_linesOf_perm s) (increasing_of_ids hids)]
    exact hstart.checkLines s.lines
  have hsuccess : (List.range s.lines.length).map (fun c : ℕ => Test.successful (c + 1))
      = s.lines.map fun l => Test.successful l.cid := by
    have := congrArg (List.map Test.successful) hids
    rw [List.map_map, List.map_map] at this
    exact this.symm
  refine ⟨by rw [hmain]; rfl, ?_⟩
  rw [hmain, hsuccess, Option.some.injEq, List.append_cancel_right_eq, reports_eq_iff]
  exact forall₃_congr fun c l hl => showsExactly_iff hs hl

/-- Two threads commit one transaction each: `1 := 1 + 0 + 1`, `2 := 2 - 0`, then
`0 := 0 + 1 + 1`, `2 := 2 - 1`. -/
theorem checker_accepts_two_commits : ∃ s : State 2 3, (engine 2 3 2).Reachable s ∧
    s.lines.length = 2 ∧
    Test.main 3 s.files = some [Test.successful 1, Test.successful 2, "test finish"] := by
  obtain ⟨s, hs, hp⟩ := Machine.exists_reachable_of_exec (M := engine 2 3 2)
    (State.start_isInit 2 3)
    (List.flatten [Act.start 0 0 1 2, Act.go 0 43, Act.start 1 1 0 2, Act.go 1 43])
    (fun s => s.lines = [⟨1, 0, 1, 2, 100, 201, 0⟩, ⟨2, 1, 0, 2, 201, 302, -201⟩])
    (by decide +kernel)
  have hlines := of_decide_eq_true hp
  refine ⟨s, hs, by rw [hlines]; rfl, ?_⟩
  have hiff := (checker_accepts_iff (by decide) (by decide) (.inr (by norm_num)) hs).2
  rw [hlines] at hiff
  refine hiff.mpr fun c l hl => ?_
  match c with
  | 0 =>
      obtain rfl := Option.some.inj hl
      unfold IsInt
      decide +kernel
  | 1 =>
      obtain rfl := Option.some.inj hl
      unfold IsInt
      decide +kernel

/-! ## The sum of all records -/

/-- A transaction adds to one record what it takes from another, and one more. -/
lemma sum_exactStep (v : Fin R → ℤ) (x : Triple R) : ∑ y, exactStep v x y = ∑ y, v y + 1 := by
  have hupdate : ∀ (w : Fin R → ℤ) (y : Fin R) (z : ℤ),
      ∑ x, Function.update w y z x = ∑ x, w x - w y + z := by
    intro w y z
    rw [Finset.sum_update_of_mem (Finset.mem_univ y),
      ← Finset.add_sum_erase _ w (Finset.mem_univ y), Finset.sdiff_singleton_eq_erase]
    ring
  unfold exactStep
  simp only [hupdate]
  ring

lemma sum_exactValues (xs : List (Triple R)) :
    ∑ y, exactValues xs y = 100 * R + xs.length := by
  induction xs using List.reverseRecOn with
  | nil => simp [exactValues, mul_comm]
  | append_singleton xs x ih =>
      rw [exactValues_append, sum_exactStep, ih, List.length_append, List.length_singleton]
      push_cast
      ring

/-- **The sum of all records counts the commits.**  In every reachable state in which no attempt
has a write of its own in the records, their sum is `100` for each record and one for each line of
the log, in the arithmetic of `int`. -/
theorem total_counts_commits (hs : (engine N R E).Reachable s) (hclean : ∀ t x, ¬ s.Dirty t x) :
    (∑ x, (s.monitor.read x).toInt) ≡ 100 * R + s.lines.length [ZMOD 2 ^ 32] := by
  have hread : ∀ x, (s.monitor.read x).toInt
      = toInt (exactValues (s.lines.map LogLine.triple) x) := by
    intro x
    have hdata := (dataInv_of_reachable hs).clean x fun u ty hw hi => hclean u x ⟨ty, hw, hi⟩
    rw [← (value_execute (N := N) _).read x, read_execute _ (lines_distinct hs)]
    exact congrArg Int32.toInt hdata
  have hmod : ∀ x, (s.monitor.read x).toInt % 2 ^ 32
      = exactValues (s.lines.map LogLine.triple) x % 2 ^ 32 := by
    intro x
    rw [hread x]
    exact Int.bmod_emod
  have hsum := sum_exactValues (s.lines.map LogLine.triple)
  rw [List.length_map] at hsum
  calc (∑ x, (s.monitor.read x).toInt) % 2 ^ 32
      = (∑ x, (s.monitor.read x).toInt % 2 ^ 32) % 2 ^ 32 := Finset.sum_int_mod _ _ _
    _ = (∑ x, exactValues (s.lines.map LogLine.triple) x % 2 ^ 32) % 2 ^ 32 := by
        rw [Finset.sum_congr rfl fun x _ => hmod x]
    _ = (∑ x, exactValues (s.lines.map LogLine.triple) x) % 2 ^ 32 :=
        (Finset.sum_int_mod _ _ _).symm
    _ = (100 * R + s.lines.length) % 2 ^ 32 := by rw [hsum]

/-- Thread `0` has committed and thread `1` holds read locks only. -/
theorem total_counts_commits_one : ∃ s : State 2 3, (engine 2 3 2).Reachable s ∧
    s.lines.length = 1 ∧ (s.thread 1).pc = .request .W1 ∧
    (∑ x, (s.monitor.read x).toInt) ≡ 100 * 3 + 1 [ZMOD 2 ^ 32] := by
  obtain ⟨s, hs, hp⟩ := Machine.exists_reachable_of_exec (M := engine 2 3 2)
    (State.start_isInit 2 3)
    (List.flatten [Act.start 0 0 1 2, Act.go 0 43, Act.start 1 1 0 2, Act.go 1 9])
    (fun s => s.lines.length = 1 ∧ (s.thread 0).pc = .loop ∧ (s.thread 1).pc = .request .W1)
    (by decide +kernel)
  obtain ⟨hlen, h0, h1⟩ := of_decide_eq_true hp
  refine ⟨s, hs, hlen, h1, ?_⟩
  have htotal := total_counts_commits hs (by
    rintro t x ⟨ty, hw, -⟩
    match t with
    | 0 => cases ty <;> simp [Thread.txn, h0, txnAt, Pc.stage, LockType.wroteFrom] at hw
    | 1 => cases ty <;> simp [Thread.txn, h1, txnAt, Pc.stage, LockType.wroteFrom] at hw)
  rw [hlen] at htotal
  exact htotal

end Multicore.Project2
