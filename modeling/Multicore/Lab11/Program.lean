import Multicore.Lib.Clients
import Multicore.Lab11.CoarseGrainedSet
import Multicore.Lab11.FineGrainedSet
import Multicore.Lab11.OptimisticSet

/-!
# The program around the lists

The three programs of lab 11 have the same `main` and the same `ThreadFunc`.  `main` creates the
threads, each of which works off its row of `thread_work`; it joins them, walks along the list and
compares it with the numbers in `result.txt`, and prints `correct!` or `incorrect!`.

`program` is this text over any list (`SetList`), with the calls of a thread as in `clients`.

* `threadFunc` — the `switch` of `ThreadFunc`; entries of other types are passed over;
* `checkList` — the loop that validates the list; `none` is a null pointer that is followed;
* `SetList.Sound` — what the program needs of its list;
* **`prints_sequential_outcome`** — all three programs: when `main` has printed, the operations of
  all threads took effect in some order which every thread agrees with, and it has printed
  `correct!` exactly when `result.txt` lists the set that this order leads to, without repetitions
  and in increasing order.

`main` reads both files with `fscanf`.  The rows of `thread_work` are given here, and so is what
`size_result` and `value_result` hold after each `fscanf`, whether or not there was a number left.
-/

namespace Multicore.Lab11

variable {σ : Type*} {n : ℕ}

/-! ## The threads -/

/-- An entry of `thread_work`. -/
structure Work where
  type : Char
  value : ℤ

/-- The `switch` in the loop of `ThreadFunc`. -/
def Work.call (w : Work) : Option Call :=
  if w.type = 'A' then some ⟨.add, w.value⟩
  else if w.type = 'R' then some ⟨.remove, w.value⟩
  else if w.type = 'C' then some ⟨.contains, w.value⟩
  else none

/-- What `ThreadFunc` calls, one after the other. -/
def threadFunc (work : List Work) : List Call := work.filterMap Work.call

/-- A list as `main` and `ThreadFunc` use it: its functions, whether a thread is inside of one, and
the nodes. -/
structure SetList (σ τ : Type*) where
  list : Machine σ (Act τ)
  interface : Interface σ (Act τ) τ (Set ℤ) Call Bool
  idle : σ → τ → Bool
  next : σ → ℕ → Option ℕ
  key : σ → ℕ → ℤ

/-! ## The main thread -/

/-- Where `main` stands. -/
inductive MainPc
  | create (i : ℕ)
  | join (i : ℕ)
  | printed (is_valid : Bool)
deriving DecidableEq

/-- Has `main` created thread `i`? -/
def MainPc.created : MainPc → ℕ → Bool
  | .create k, i => i < k
  | _, _ => true

/-- The list and the threads, and where `main` stands. -/
structure MainState (σ : Type*) (n : ℕ) where
  threads : Clients σ (Fin n) Call
  main : MainPc

/-- `main` moves, or a thread. -/
inductive MainAct (n : ℕ)
  | main
  | thread (a : Act (Fin n))

/-- The loop that validates the list, from node `it` on: `left` rounds are left, and `fscanf` stores
`values i` in round `i`. -/
def checkList (next : ℕ → Option ℕ) (key : ℕ → ℤ) (values : ℕ → ℤ) :
    ℕ → ℕ → Option ℕ → Option Bool
  | 0, _, it => some (it = some tail)
  | left + 1, i, it =>
      if it = some tail then some false
      else match it with
        | none => none
        | some a => if key a ≠ values i then some false
            else checkList next key values left (i + 1) (next a)

/-- The validation, with what `fscanf` stores in `size_result` and in `value_result`. -/
def validate (next : ℕ → Option ℕ) (key : ℕ → ℤ) (size : ℤ) (values : ℕ → ℤ) : Option Bool :=
  checkList next key values size.toNat 0 (next head)

/-- The next step of `main`. -/
def MainState.mainStep (P : SetList σ (Fin n)) (size : ℤ) (values : ℕ → ℤ) (s : MainState σ n) :
    Option (MainState σ n) :=
  match s.main with
  | .create i => some { s with main := if i < n then .create (i + 1) else .join 0 }
  | .join i =>
      if h : i < n then
        if s.threads.todo ⟨i, h⟩ = [] ∧ P.idle s.threads.object ⟨i, h⟩ = true then
          some { s with main := .join (i + 1) }
        else none
      else
        (validate (P.next s.threads.object) (P.key s.threads.object) size values).map fun b =>
          { s with main := .printed b }
  | .printed _ => none

/-- One step of the program. -/
def MainState.step (P : SetList σ (Fin n)) (size : ℤ) (values : ℕ → ℤ) (s : MainState σ n) :
    MainAct n → Option (MainState σ n)
  | .main => s.mainStep P size values
  | .thread a =>
      if s.main.created (P.interface.thread a) then
        (Clients.step P.list P.interface s.threads a).map fun threads =>
          { s with threads := threads }
      else none

/-- The program with `n` threads. -/
def program (P : SetList σ (Fin n)) (work : Fin n → List Work) (size : ℤ) (values : ℕ → ℤ) :
    Machine (MainState σ n) (MainAct n) where
  init s := P.list.init s.threads.object ∧ s.threads.todo = (fun t => threadFunc (work t)) ∧
    s.main = .create 0
  step := MainState.step P size values

/-! ## The validation -/

/-- The numbers in the file. -/
def fileOf (size : ℤ) (values : ℕ → ℤ) : List ℤ := (List.range size.toNat).map values

section Check

variable {next : ℕ → Option ℕ} {key : ℕ → ℤ} {values : ℕ → ℤ} {it : Option ℕ} {l : List ℕ}

lemma checkList_segment (left i : ℕ) (hseg : Segment next it l (some tail)) (htail : tail ∉ l) :
    checkList next key values left i it =
      some (decide (l.map key = (List.range left).map fun j => values (i + j))) := by
  induction left generalizing i it l with
  | zero =>
      cases l with
      | nil =>
          obtain rfl := segment_nil.mp hseg
          simp [checkList]
      | cons a l =>
          obtain ⟨rfl, -⟩ := hseg
          have hne : a ≠ tail := fun ha => htail (by simp [ha])
          simp [checkList, hne]
  | succ left ih =>
      cases l with
      | nil =>
          obtain rfl := segment_nil.mp hseg
          simp [checkList, List.range_succ_eq_map]
      | cons a l =>
          obtain ⟨rfl, hrest⟩ := hseg
          have hne : a ≠ tail := fun ha => htail (by simp [ha])
          have hcons : (List.range (left + 1)).map (fun j => values (i + j))
              = values i :: (List.range left).map fun j => values (i + 1 + j) := by
            rw [List.range_succ_eq_map, List.map_cons, List.map_map]
            refine congrArg _ (List.map_congr_left fun j _ => ?_)
            exact congrArg values (by simp only [Nat.succ_eq_add_one]; omega)
          rw [checkList, if_neg (by simpa using hne), hcons]
          by_cases hk : key a = values i
          · simp only [hk, ne_eq, not_true_eq_false, if_false]
            rw [ih (i + 1) hrest fun ht => htail (List.mem_cons_of_mem a ht)]
            simp [hk]
          · simp [hk]

/-- The nodes between `head` and `tail` have the keys `S`, in increasing order. -/
def Lists (next : ℕ → Option ℕ) (key : ℕ → ℤ) (S : Set ℤ) : Prop :=
  ∃ l, Segment next (next head) l (some tail) ∧ tail ∉ l ∧ (l.map key).Pairwise (· < ·) ∧
    ∀ k, k ∈ l.map key ↔ k ∈ S

/-- `l` lists the set `S` in increasing order. -/
def SortedListOf (l : List ℤ) (S : Set ℤ) : Prop := l.Pairwise (· < ·) ∧ ∀ k, k ∈ l ↔ k ∈ S

/-- There is only one such list. -/
lemma SortedListOf.unique {l l' : List ℤ} {S : Set ℤ} (h : SortedListOf l S)
    (h' : SortedListOf l' S) : l = l' := by
  have hperm : l.Perm l' := (List.perm_ext_iff_of_nodup (h.1.imp ne_of_lt) (h'.1.imp ne_of_lt)).mpr
    fun k => (h.2 k).trans (h'.2 k).symm
  exact hperm.eq_of_pairwise (fun a b _ _ hab hba => absurd hab hba.not_gt) h.1 h'.1

/-- **The validation compares the list with the file.** -/
lemma validate_iff {S : Set ℤ} (h : Lists next key S) (size : ℤ) (values : ℕ → ℤ) :
    ∃ b, validate next key size values = some b ∧
      (b = true ↔ SortedListOf (fileOf size values) S) := by
  obtain ⟨l, hseg, htail, hsort, hmem⟩ := h
  refine ⟨_, checkList_segment size.toNat 0 hseg htail, ?_⟩
  have hfile : (List.range size.toNat).map (fun j => values (0 + j)) = fileOf size values := by
    simp [fileOf]
  rw [decide_eq_true_iff, hfile]
  constructor
  · rintro heq
    exact heq ▸ ⟨hsort, hmem⟩
  · intro hfileOf
    exact SortedListOf.unique ⟨hsort, hmem⟩ hfileOf

end Check

/-! ## What the program needs of its list -/

/-- The list is a set for keys between those of the sentinels: its functions take effect one by one,
and when no thread is inside of one the nodes are the set. -/
structure SetList.Sound (P : SetList σ (Fin n)) (status : σ → Fin n → Status Call Bool) : Prop where
  tracks : Tracks P.list KeyInRange intSet P.interface status
  thread : ∀ a, P.interface.thread a = a.tid
  /-- a thread that is not inside of a function can only call one -/
  idle : ∀ s t, P.idle s t = true → status s t = .idle ∧ P.list.step s ⟨t, .go⟩ = none
  call : ∀ s t op key s', P.list.step s ⟨t, .call op key⟩ = some s' →
    P.interface.event s ⟨t, .call op key⟩ = some (.call ⟨op, key⟩)
  other : ∀ s a s' t, P.list.step s a = some s' → t ≠ a.tid → P.idle s' t = P.idle s t
  lists : ∀ s, P.list.Run KeyInRange s → (∀ t, P.idle s t = true) →
    Lists (P.next s) (P.key s) (P.interface.value s)

/-- All keys of the calls are between those of the sentinels. -/
def KeysInRange (work : Fin n → List Work) : Prop :=
  ∀ t, ∀ c ∈ threadFunc (work t), InRange c.key

instance (work : Fin n → List Work) : Decidable (KeysInRange work) :=
  inferInstanceAs (Decidable (∀ t, ∀ c ∈ threadFunc (work t), InRange c.key))

/-- Has `main` joined thread `i`? -/
def MainPc.joined : MainPc → ℕ → Prop
  | .create _, _ => False
  | .join k, i => i < k
  | .printed _, _ => True

/-- The thread is through with its work. -/
def Through (P : SetList σ (Fin n)) (s : MainState σ n) (t : Fin n) : Prop :=
  s.threads.todo t = [] ∧ P.idle s.threads.object t = true

instance (P : SetList σ (Fin n)) (s : MainState σ n) (t : Fin n) : Decidable (Through P s t) :=
  inferInstanceAs (Decidable (_ ∧ _))

/-- What the program can do in one step. -/
inductive MainMove (P : SetList σ (Fin n)) (size : ℤ) (values : ℕ → ℤ) (s : MainState σ n) :
    MainState σ n → Prop
  | create (i : Fin n) (hmain : s.main = .create i) :
      MainMove P size values s { s with main := .create (i + 1) }
  | created {i : ℕ} (hmain : s.main = .create i) (hi : n ≤ i) :
      MainMove P size values s { s with main := .join 0 }
  | join (i : Fin n) (hmain : s.main = .join i) (hthrough : Through P s i) :
      MainMove P size values s { s with main := .join (i + 1) }
  | print {i : ℕ} {b : Bool} (hmain : s.main = .join i) (hi : n ≤ i)
      (hb : validate (P.next s.threads.object) (P.key s.threads.object) size values = some b) :
      MainMove P size values s { s with main := .printed b }
  | thread {a : Act (Fin n)} {threads : Clients σ (Fin n) Call}
      (hcreated : s.main.created (P.interface.thread a))
      (hstep : Clients.step P.list P.interface s.threads a = some threads) :
      MainMove P size values s { s with threads := threads }

section Program

variable {P : SetList σ (Fin n)} {status : σ → Fin n → Status Call Bool}
  {work : Fin n → List Work} {size : ℤ} {values : ℕ → ℤ} {s s' : MainState σ n}

/-- Every step is one of these. -/
theorem mainMove_of_step {a : MainAct n} (h : (program P work size values).step s a = some s') :
    MainMove P size values s s' := by
  simp only [program] at h
  cases a with
  | main =>
      simp only [MainState.step, MainState.mainStep] at h
      cases hmain : s.main with
      | create i =>
          rw [hmain] at h
          by_cases hi : i < n
          · simp only [if_pos hi, Option.some.injEq] at h
            exact h ▸ .create ⟨i, hi⟩ hmain
          · simp only [if_neg hi, Option.some.injEq] at h
            exact h ▸ .created hmain (not_lt.mp hi)
      | join i =>
          rw [hmain] at h
          by_cases hi : i < n
          · simp only [dif_pos hi, Option.ite_none_right_eq_some, Option.some.injEq] at h
            exact h.2 ▸ .join ⟨i, hi⟩ hmain h.1
          · simp only [dif_neg hi, Option.map_eq_some_iff] at h
            obtain ⟨b, hb, rfl⟩ := h
            exact .print hmain (not_lt.mp hi) hb
      | printed b => simp [hmain] at h
  | thread a =>
      simp only [MainState.step, Option.ite_none_right_eq_some, Option.map_eq_some_iff] at h
      obtain ⟨hcreated, threads, hstep, rfl⟩ := h
      exact .thread hcreated hstep

/-- The threads run, their keys are in range, and what `main` has joined is through. -/
structure MainInv (P : SetList σ (Fin n)) (work : Fin n → List Work) (size : ℤ) (values : ℕ → ℤ)
    (s : MainState σ n) : Prop where
  run : (clients P.list P.interface fun t => threadFunc (work t)).Run
    (fun s a => KeyInRange s.object a) s.threads
  range : ∀ t, ∀ c ∈ s.threads.todo t, InRange c.key
  joined : ∀ t : Fin n, s.main.joined t → Through P s t
  verdict : ∀ b, s.main = .printed b →
    validate (P.next s.threads.object) (P.key s.threads.object) size values = some b

/-- A thread that is through does not move. -/
lemma not_through_of_step (hP : P.Sound status) {a : Act (Fin n)} {threads : Clients σ (Fin n) Call}
    (hstep : Clients.step P.list P.interface s.threads a = some threads) : ¬ Through P s a.tid := by
  rintro ⟨htodo, hidle⟩
  obtain ⟨t, choice⟩ := a
  obtain ⟨hmove, hcases⟩ := Clients.step_cases hstep
  cases choice with
  | go =>
      rw [(hP.idle _ t hidle).2] at hmove
      simp at hmove
  | call op key =>
      have hev := hP.call _ _ _ _ _ hmove
      rcases hcases with ⟨c, rest, -, hc, -⟩ | ⟨hno, -⟩
      · rw [hP.thread] at hc
        exact absurd (htodo.symm.trans hc) (by simp)
      · exact hno _ hev

/-- The thread that moves takes its calls from its list. -/
lemma MainInv.keyInRange (h : MainInv P work size values s) (hP : P.Sound status)
    {a : Act (Fin n)} {threads : Clients σ (Fin n) Call}
    (hstep : Clients.step P.list P.interface s.threads a = some threads) :
    KeyInRange s.threads.object a ∧ ∀ t, ∀ c ∈ threads.todo t, c ∈ s.threads.todo t := by
  obtain ⟨t, choice⟩ := a
  obtain ⟨hmove, hcases⟩ := Clients.step_cases hstep
  refine ⟨?_, fun u c hc => ?_⟩
  · cases choice with
    | go => trivial
    | call op key =>
        have hev := hP.call _ _ _ _ _ hmove
        rcases hcases with ⟨c, rest, hev', hc, -⟩ | ⟨hno, -⟩
        · obtain rfl : ⟨op, key⟩ = c := by simpa using hev.symm.trans hev'
          exact h.range _ ⟨op, key⟩ (by rw [hc]; simp)
        · exact absurd hev (hno _)
  · rcases hcases with ⟨c', rest, -, hc', htodo⟩ | ⟨-, htodo⟩
    · rw [htodo, Function.update_apply] at hc
      split_ifs at hc with hut
      · rw [hut, hc']
        exact List.mem_cons_of_mem _ hc
      · exact hc
    · rwa [htodo] at hc

/-- The others stay through. -/
lemma Through.step (hP : P.Sound status) {a : Act (Fin n)} {threads : Clients σ (Fin n) Call}
    (hstep : Clients.step P.list P.interface s.threads a = some threads) {t : Fin n}
    (h : Through P s t) : Through P { s with threads := threads } t := by
  have hne : t ≠ a.tid := by
    rintro rfl
    exact not_through_of_step hP hstep h
  obtain ⟨hmove, hcases⟩ := Clients.step_cases hstep
  refine ⟨?_, (hP.other _ _ _ t hmove hne).trans h.2⟩
  rcases hcases with ⟨c, rest, -, -, htodo⟩ | ⟨-, htodo⟩
  · rw [hP.thread] at htodo
    simp only [htodo, Function.update_of_ne hne]
    exact h.1
  · simp only [htodo]
    exact h.1

lemma MainInv.move (h : MainInv P work size values s) (hP : P.Sound status)
    (hm : MainMove P size values s s') : MainInv P work size values s' := by
  cases hm with
  | create i hmain => exact ⟨h.run, h.range, fun _ ht => ht.elim, fun _ hb => by simp at hb⟩
  | created hmain hi =>
      exact ⟨h.run, h.range, fun _ ht => absurd ht (Nat.not_lt_zero _), fun _ hb => by simp at hb⟩
  | join i hmain hthrough =>
      refine ⟨h.run, h.range, fun t ht => ?_, fun _ hb => by simp at hb⟩
      rcases Nat.lt_succ_iff_lt_or_eq.mp ht with hlt | heq
      · exact h.joined t (by rw [hmain]; exact hlt)
      · rw [show t = i from Fin.ext heq]
        exact hthrough
  | print hmain hi hb =>
      refine ⟨h.run, h.range, fun t _ => h.joined t (by rw [hmain]; exact t.2.trans_le hi),
        fun b hb' => ?_⟩
      obtain rfl := MainPc.printed.inj hb'
      exact hb
  | @thread a threads hcreated hstep =>
      obtain ⟨hok, hsub⟩ := h.keyInRange hP hstep
      refine ⟨.step h.run hok hstep, fun t c hc => h.range t c (hsub t c hc),
        fun t ht => (h.joined t ht).step hP hstep, fun b hb => ?_⟩
      -- when `main` has printed nobody is left to move
      have hjoined : s.main.joined a.tid := by
        rw [show s.main = .printed b from hb]
        trivial
      exact absurd (h.joined _ hjoined) (not_through_of_step hP hstep)

theorem mainInv_of_reachable (hP : P.Sound status) (hwork : KeysInRange work)
    (hs : (program P work size values).Reachable s) : MainInv P work size values s := by
  refine Machine.Run.invariant (I := MainInv P work size values) ?_ ?_ s hs
  · rintro s ⟨hinit, htodo, hmain⟩
    refine ⟨.init ⟨hinit, htodo⟩, fun t c hc => hwork t c (by rwa [htodo] at hc), fun t ht => ?_,
      fun b hb => ?_⟩
    · rw [hmain] at ht
      exact ht.elim
    · rw [hmain] at hb
      simp at hb
  · intro s a s' _ h _ hstep
    exact h.move hP (mainMove_of_step hstep)

/-- When all threads are through the nodes are the outcome of all operations in some order. -/
lemma MainInv.exists_shuffle (h : MainInv P work size values s) (hP : P.Sound status)
    (hthrough : ∀ t, Through P s t) :
    ∃ order, Shuffle (fun t => threadFunc (work t)) order ∧
      Lists (P.next s.threads.object) (P.key s.threads.object)
        (intSet.execute (order.map Prod.snd)) := by
  obtain ⟨order, hshuffle, hvalue⟩ := clients_shuffle hP.tracks h.run fun t =>
    ⟨(hthrough t).1, (hP.idle _ t (hthrough t).2).1⟩
  refine ⟨order, hshuffle, ?_⟩
  rw [← hvalue]
  exact hP.lists _ (Clients.object_run h.run) fun t => (hthrough t).2

/-- What the program prints is right for some order of the operations. -/
def PrintsOutcome (P : SetList σ (Fin n)) (work : Fin n → List Work) (size : ℤ)
    (values : ℕ → ℤ) : Prop :=
  ∀ s b, (program P work size values).Reachable s → s.main = .printed b →
    ∃ order, Shuffle (fun t => threadFunc (work t)) order ∧
      (b = true ↔ SortedListOf (fileOf size values) (intSet.execute (order.map Prod.snd)))

lemma SetList.Sound.prints (hP : P.Sound status) (hwork : KeysInRange work) :
    PrintsOutcome P work size values := by
  intro s b hs hb
  have hinv := mainInv_of_reachable hP hwork hs
  have hthrough : ∀ t, Through P s t := fun t => hinv.joined t (by rw [hb]; trivial)
  obtain ⟨order, hshuffle, hlists⟩ := hinv.exists_shuffle hP hthrough
  obtain ⟨b', hb', hiff⟩ := validate_iff hlists size values
  obtain rfl : b' = b := Option.some.inj (hb'.symm.trans (hinv.verdict b hb))
  exact ⟨order, hshuffle, hiff⟩

end Program

/-! ## The three programs -/

namespace CoarseGrained

/-- `coarse_grained.cpp`. -/
def setList (n : ℕ) : SetList (State (Fin n)) (Fin n) where
  list := list (Fin n)
  interface := interface (Fin n)
  idle s t := match s.thread t with
    | .idle => true
    | _ => false
  next s := s.heap.next
  key s := s.heap.key

lemma idle_iff {s : State (Fin n)} {t : Fin n} :
    (setList n).idle s t = true ↔ s.thread t = .idle := by
  simp only [setList]
  cases s.thread t <;> simp

lemma sound (n : ℕ) : (setList n).Sound fun s t => (s.thread t).status where
  tracks := tracks
  thread _ := rfl
  idle s t h := by
    rw [idle_iff] at h
    refine ⟨by rw [h]; rfl, ?_⟩
    simp only [setList, list, step, h, go]
  call s t op key s' h := by
    simp only [setList, list, step] at h
    cases hpc : s.thread t <;> simp only [hpc, reduceCtorEq] at h
    simp only [setList, interface, event, hpc]
  other s a s' t h hne := by
    simp only [setList, (move_of_step h).other hne]
  lists s hs _ := by
    obtain ⟨l, hinv, hmem⟩ := (threadInv_of_run hs).represents
    have hseg : Segment s.heap.next (s.heap.next head) (l ++ [tail]) none := hinv.chain.2
    have htail : tail ∉ l := by simpa using hseg.notMem
    exact ⟨l, (segment_middle.mp hseg).1, htail, hinv.sorted, hmem⟩

end CoarseGrained

namespace FineGrained

/-- `fine_grained.cpp`. -/
def setList (n : ℕ) : SetList (State (Fin n)) (Fin n) where
  list := list (Fin n)
  interface := interface (Fin n)
  idle s t := match s.thread t with
    | .idle => true
    | _ => false
  next s := s.heap.next
  key s := s.heap.key

lemma idle_iff {s : State (Fin n)} {t : Fin n} :
    (setList n).idle s t = true ↔ s.thread t = .idle := by
  simp only [setList]
  cases s.thread t <;> simp

lemma sound (n : ℕ) : (setList n).Sound fun s t => (s.thread t).status where
  tracks := tracks
  thread _ := rfl
  idle s t h := by
    rw [idle_iff] at h
    refine ⟨by rw [h]; rfl, ?_⟩
    simp only [setList, list, step, h, go]
  call s t op key s' h := by
    simp only [setList, list, step] at h
    cases hpc : s.thread t <;> simp only [hpc, reduceCtorEq] at h
    simp only [setList, interface, event, hpc]
  other s a s' t h hne := by
    simp only [setList, (move_of_step h).other hne]
  lists s hs hidle := by
    have hquiet : ∀ t, (s.thread t).middle = none := fun t => by rw [idle_iff.mp (hidle t)]; rfl
    have hset := State.settled_of_quiet hquiet
    have hchain := (inv_of_run hs).heap.chain
    have hlists := hchain.exists_segment (by decide)
    rw [hset] at hlists
    show Lists s.heap.next s.heap.key s.keys
    rw [State.keys, hset]
    exact hlists

end FineGrained

namespace Optimistic

/-- `optimistic.cpp`. -/
def setList (n : ℕ) : SetList (State (Fin n)) (Fin n) where
  list := list (Fin n)
  interface := interface (Fin n)
  idle s t := match s.thread t with
    | .idle => true
    | _ => false
  next s := s.next
  key s := s.key

lemma idle_iff {s : State (Fin n)} {t : Fin n} :
    (setList n).idle s t = true ↔ s.thread t = .idle := by
  simp only [setList]
  cases s.thread t <;> simp

lemma sound (n : ℕ) : (setList n).Sound fun s t => (s.thread t).status where
  tracks := tracks
  thread _ := rfl
  idle s t h := by
    rw [idle_iff] at h
    refine ⟨by rw [h]; rfl, ?_⟩
    simp only [setList, list, step, h, go]
  call s t op key s' h := by
    simp only [setList, list, step] at h
    cases hpc : s.thread t <;> simp only [hpc, reduceCtorEq] at h
    simp only [setList, interface, event, hpc]
  other s a s' t h hne := by
    simp only [setList, (move_of_step h).other hne]
  lists s hs _ := (inv_of_run hs).chain.exists_segment (by decide)

end Optimistic

/-- **All three programs print what some order of the operations leads to.** -/
theorem prints_sequential_outcome (work : Fin n → List Work) (size : ℤ) (values : ℕ → ℤ)
    (hwork : KeysInRange work) :
    PrintsOutcome (CoarseGrained.setList n) work size values ∧
    PrintsOutcome (FineGrained.setList n) work size values ∧
    PrintsOutcome (Optimistic.setList n) work size values :=
  ⟨(CoarseGrained.sound n).prints hwork, (FineGrained.sound n).prints hwork,
    (Optimistic.sound n).prints hwork⟩

/-- The rows of one thread that adds two keys and removes one of them again. -/
def twoKeys : Fin 1 → List Work := fun _ => [⟨'A', 7⟩, ⟨'A', 5⟩, ⟨'x', 1⟩, ⟨'R', 7⟩]

/-- The hand-over-hand program prints `correct!` for the file that lists the other key. -/
theorem prints_sequential_outcome_two_keys :
    KeysInRange twoKeys ∧
    (∃ s, (program (FineGrained.setList 1) twoKeys 1 fun _ => 5).Reachable s ∧
      s.main = .printed true) ∧
    PrintsOutcome (CoarseGrained.setList 1) twoKeys 1 (fun _ => 5) ∧
    PrintsOutcome (FineGrained.setList 1) twoKeys 1 (fun _ => 5) ∧
    PrintsOutcome (Optimistic.setList 1) twoKeys 1 (fun _ => 5) := by
  have hwork : KeysInRange twoKeys := by decide
  refine ⟨hwork, ?_, prints_sequential_outcome twoKeys 1 (fun _ => 5) hwork⟩
  let threads : List (Act (Fin 1)) := Act.call 0 .add 7 ++ Act.go 0 9 ++ Act.call 0 .add 5 ++
    Act.go 0 9 ++ Act.call 0 .remove 7 ++ Act.go 0 14
  obtain ⟨s, hs, hprinted⟩ := Machine.exists_reachable_of_exec
    (M := program (FineGrained.setList 1) twoKeys 1 fun _ => 5)
    (s := ⟨⟨FineGrained.State.start (Fin 1), fun t => threadFunc (twoKeys t)⟩, .create 0⟩)
    ⟨rfl, rfl, rfl⟩ (.main :: .main :: threads.map .thread ++ [.main, .main])
    (fun s => s.main = .printed true) (by decide +kernel)
  exact ⟨s, hs, of_decide_eq_true hprinted⟩

end Multicore.Lab11
