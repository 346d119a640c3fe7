import Mathlib.Data.Fintype.Defs
import Mathlib.Data.List.DropRight
import Mathlib.Logic.Function.Basic
import Multicore.Lib.GrantQueue
import Multicore.Lib.Machine

/-!
# Table locks and `AUTO_INC`

The lock queues of all tables.  A request waits if another transaction has an incompatible lock in
the queue, granted or not; when a lock leaves, those behind it are granted that have nobody ahead to
wait for.

Locks in the mode `AUTO_INC` are counted for the table, `autoinc_trx` is the transaction that has
been granted one, and each transaction has a vector of those it has been granted.  A lock that need
not wait is the object `table->autoinc_lock`, of which there is one for each table.

`lock_table` runs under the mutex of the lock system, and so do the release of `AUTO_INC` locks at
the end of a statement and the cancelling of waits.  But `lock_release`, which takes the locks of a
transaction that ends out of the queues, does not take the mutex.  Here a request is made in steps
(the search for incompatible locks, the load of the counter, the rest), and a transaction may end
between them.

* `State`, `tableLocks` — the queues with this bookkeeping, and what can be done to them.
* `Sound`, `Entries` — the bookkeeping of one table, and the vector of one transaction, in which
  gaps may be left but not at the end; `Kept` — both, for all tables and transactions.
* **`Kept.create`**, **`Kept.dequeue`** — a lock that is created or dequeued keeps the books in
  order, and no assertion fails; the loop of `lock_table_dequeue` is a grant pass over the locks
  behind.

`lock_table_dequeue` itself is one step, although nothing keeps two transactions from ending at the
same time.  The deadlock check may answer as it likes; the rollback of another transaction is a step
of its own.  Left out are the cluster module and the locks that leave when a table is dropped.
-/

namespace Multicore.Project4.TableLocks

/-! ## Locks -/

/-- `lock_mode` -/
inductive Mode
  | is | ix | s | x | autoInc
  deriving DecidableEq

/-- `lock_compatibility_matrix` -/
def Mode.compatible : Mode → Mode → Bool
  | .is, .is | .is, .ix | .is, .s | .is, .autoInc => true
  | .ix, .is | .ix, .ix | .ix, .autoInc => true
  | .s, .is | .s, .s => true
  | .autoInc, .is | .autoInc, .ix => true
  | _, _ => false

/-- `lock_strength_matrix` -/
def Mode.strongerOrEq : Mode → Mode → Bool
  | .is, .is => true
  | .ix, .is | .ix, .ix => true
  | .s, .is | .s, .s => true
  | .x, _ => true
  | .autoInc, .autoInc => true
  | _, _ => false

lemma Mode.compatible_comm (m m' : Mode) : m.compatible m' = m'.compatible m := by
  cases m <;> cases m' <;> rfl

/-- A table lock. -/
structure Lock (τ : Type*) where
  trx : τ
  mode : Mode
  wait : Bool
  /-- the object is `table->autoinc_lock` -/
  reused : Bool
  deriving DecidableEq

/-- What a table knows about its locks. -/
structure Table (τ : Type*) where
  locks : List (Lock τ)
  autoincTrx : Option τ
  /-- `n_waiting_or_granted_auto_inc_locks` -/
  nAutoInc : ℕ

/-- A request of `lock_table`, which holds the mutex of the lock system. -/
structure Request (τ D : Type*) where
  trx : τ
  table : D
  mode : Mode
  /-- `wait_for`: there is a lock of another transaction that is not compatible -/
  waitFor : Bool
  /-- `n_waiting_or_granted_auto_inc_locks`, once it has been loaded to be incremented -/
  loaded : Option ℕ

/-- The tables, and for each transaction the vectors `autoinc_locks` and `table_locks`.  A lock of
the first one is named by its table, one of the second one by its table and mode; a gap is
`none`. -/
structure State (τ D : Type*) where
  table : D → Table τ
  autoincLocks : τ → List (Option D)
  tableLocks : τ → List (Option (D × Mode))
  request : Option (Request τ D)

variable {τ D : Type*}

def Lock.grant (l : Lock τ) : Lock τ := { l with wait := false }

/-- The lock is for `AUTO_INC` and has been granted. -/
def Lock.Holds (l : Lock τ) : Prop := l.mode = .autoInc ∧ l.wait = false

/-- What stays the same when a lock is granted. -/
def Lock.client (l : Lock τ) : τ × Mode := (l.trx, l.mode)

/-- How many locks of a queue are for `AUTO_INC`. -/
def autoIncCount (q : List (Lock τ)) : ℕ := q.countP fun l => decide (l.mode = .autoInc)

section Operations

variable [DecidableEq τ] [DecidableEq D]

/-- `lock_has_to_wait`, for table locks -/
def hasToWait (l₁ l₂ : Lock τ) : Bool :=
  decide (l₁.trx ≠ l₂.trx) && !l₁.mode.compatible l₂.mode

/-- The queue of a table. -/
def requests : Requests (Lock τ) where
  waiting := Lock.wait
  grant := Lock.grant
  waitsFor := hasToWait
  waiting_grant _ := rfl
  waitsFor_grant_left _ _ := rfl
  waitsFor_grant_right _ _ := rfl

/-- `lock_table_has`, in `trx->lock.table_locks` -/
def lockTableHas (v : List (Option (D × Mode))) (d : D) (mode : Mode) : Bool :=
  v.any fun e => e.any fun lock => decide (lock.1 = d) && lock.2.strongerOrEq mode

/-- `lock_table_other_has_incompatible`, with `LOCK_WAIT` -/
def otherHasIncompatible (q : List (Lock τ)) (trx : τ) (mode : Mode) : Bool :=
  q.any fun l => decide (l.trx ≠ trx) && !l.mode.compatible mode

/-- The lock that is created for a request. -/
def Request.lock (r : Request τ D) : Lock τ :=
  ⟨r.trx, r.mode, r.waitFor, decide (r.mode = .autoInc) && !r.waitFor⟩

/-- `lock_table_create`; the counter that was loaded is `n`. -/
def State.lockTableCreate (s : State τ D) (r : Request τ D) (n : ℕ) : State τ D :=
  let tab := s.table r.table
  { table := Function.update s.table r.table
      { locks := tab.locks ++ [r.lock]
        autoincTrx := if r.lock.reused then some r.trx else tab.autoincTrx
        nAutoInc := if r.mode = .autoInc then n + 1 else tab.nAutoInc }
    autoincLocks :=
      if r.lock.reused then
        Function.update s.autoincLocks r.trx (s.autoincLocks r.trx ++ [some r.table])
      else s.autoincLocks
    tableLocks :=
      Function.update s.tableLocks r.trx (s.tableLocks r.trx ++ [some (r.table, r.mode)])
    request := none }

/-- The last entry of a vector that is `e` becomes a gap; without a result if there is none. -/
def clearEntry {α : Type*} [DecidableEq α] (v : List (Option α)) (e : α) :
    Option (List (Option α)) :=
  (updateFirst (fun x => decide (x = some e)) (fun _ => none) v.reverse).map List.reverse

/-- `lock_table_pop_autoinc_locks`: the last entry goes, and the gaps before it. -/
def popAutoincLocks (v : List (Option D)) : List (Option D) := v.dropLast.rdropWhile Option.isNone

/-- `lock_table_remove_autoinc_lock`; without a result if an assertion fails. -/
def removeAutoincLock (v : List (Option D)) (d : D) : Option (List (Option D)) :=
  match v.getLast? with
  | none | some none => none
  | some (some d') =>
      if d' = d then some (popAutoincLocks v)
      else clearEntry v d

/-- `lock_table_remove_low` of the lock at place `i` -/
def State.lockTableRemoveLow (s : State τ D) (d : D) (i : ℕ) : Option (State τ D) :=
  let tab := s.table d
  match tab.locks[i]? with
  | none => none
  | some l =>
      if l.mode = .autoInc then
        let vector := s.autoincLocks l.trx
        let left := if l.wait || vector.isEmpty then some vector else removeAutoincLock vector d
        match left with
        | none => none
        | some v =>
            if tab.nAutoInc = 0 then none
            else some { s with
                table := Function.update s.table d
                  { locks := tab.locks.eraseIdx i
                    autoincTrx := if tab.autoincTrx = some l.trx then none else tab.autoincTrx
                    nAutoInc := tab.nAutoInc - 1 }
                autoincLocks := Function.update s.autoincLocks l.trx v }
      else some { s with
        table := Function.update s.table d { tab with locks := tab.locks.eraseIdx i } }

/-- `lock_grant` of the lock behind those `ahead` -/
def State.lockGrant (s : State τ D) (d : D) (ahead : List (Lock τ)) (l : Lock τ)
    (rest : List (Lock τ)) : State τ D :=
  let tab := s.table d
  { s with
    table := Function.update s.table d { tab with
      locks := ahead ++ l.grant :: rest
      autoincTrx := if l.mode = .autoInc then some l.trx else tab.autoincTrx }
    autoincLocks :=
      -- "Transaction already had an AUTO-INC lock!" otherwise
      if l.mode = .autoInc ∧ tab.autoincTrx ≠ some l.trx then
        Function.update s.autoincLocks l.trx (s.autoincLocks l.trx ++ [some d])
      else s.autoincLocks }

/-- The loop of `lock_table_dequeue`, over the locks behind those `ahead`. -/
def grantLoop (d : D) : List (Lock τ) → List (Lock τ) → State τ D → State τ D
  | _, [], s => s
  | ahead, l :: rest, s =>
      if l.wait && !requests.blocked ahead l then
        grantLoop d (ahead ++ [l.grant]) rest (s.lockGrant d ahead l rest)
      else grantLoop d (ahead ++ [l]) rest s

/-- `lock_table_dequeue` -/
def State.lockTableDequeue (s : State τ D) (d : D) (i : ℕ) : Option (State τ D) :=
  let q := (s.table d).locks
  (s.lockTableRemoveLow d i).map (grantLoop d (q.take i) (q.drop (i + 1)))

/-- `lock_table`, up to the search for incompatible locks.  If the transaction has such a lock
already nothing is done. -/
def State.lockTable (s : State τ D) (trx : τ) (d : D) (mode : Mode) : State τ D :=
  if lockTableHas (s.tableLocks trx) d mode then s
  else { s with
    request := some ⟨trx, d, mode, otherHasIncompatible (s.table d).locks trx mode, none⟩ }

/-- The rest of `lock_table`; `victim` is what the deadlock check says about the transaction, if it
has to wait. -/
def State.enqueue (s : State τ D) (r : Request τ D) (victim : Bool) : Option (State τ D) :=
  let s' := s.lockTableCreate r (r.loaded.getD 0)
  if r.waitFor && victim then s'.lockTableRemoveLow r.table (s.table r.table).locks.length
  else some s'

/-- `lock_release_autoinc_last_lock`, with `lock_trx_table_locks_remove` -/
def State.releaseAutoincLastLock (s : State τ D) (trx : τ) : Option (State τ D) :=
  match (s.autoincLocks trx).getLast? with
  | none | some none => none
  | some (some d) =>
      match (s.table d).locks.findIdx? fun l =>
          decide (l.trx = trx ∧ l.mode = .autoInc ∧ l.wait = false) with
      | none => none
      | some i =>
          (s.lockTableDequeue d i).bind fun s' =>
            (clearEntry (s'.tableLocks trx) (d, .autoInc)).map fun v =>
              { s' with tableLocks := Function.update s'.tableLocks trx v }

/-- What can be done. -/
inductive Op (τ D : Type*)
  /-- a request begins, and takes the mutex -/
  | lockTable (trx : τ) (d : D) (mode : Mode)
  /-- the counter is loaded -/
  | load
  /-- the request is finished, and gives the mutex back -/
  | enqueue (victim : Bool)
  /-- one round of `lock_release_autoinc_locks`: at the end of a statement, or when a wait is
  cancelled -/
  | releaseAutoinc (trx : τ)
  /-- a lock that waits is cancelled -/
  | cancelWaiting (d : D) (i : ℕ)
  /-- a transaction ends: one of its locks leaves, without the mutex -/
  | release (d : D) (i : ℕ)
  /-- and, when it has no locks any more, `trx->lock.table_locks.clear()` -/
  | clear (trx : τ)

/-- One step.  What needs the mutex has to wait for a request to be finished. -/
def State.step [Fintype D] (s : State τ D) : Op τ D → Option (State τ D)
  | .lockTable trx d mode => if s.request.isNone then some (s.lockTable trx d mode) else none
  | .load =>
      match s.request with
      | none => none
      | some r =>
          if r.mode = .autoInc ∧ r.loaded = none then
            some { s with request := some { r with loaded := some (s.table r.table).nAutoInc } }
          else none
  | .enqueue victim =>
      match s.request with
      | none => none
      | some r => if r.mode = .autoInc ∧ r.loaded = none then none else s.enqueue r victim
  | .releaseAutoinc trx => if s.request.isNone then s.releaseAutoincLastLock trx else none
  | .cancelWaiting d i =>
      if s.request.isNone ∧ (s.table d).locks[i]?.any Lock.wait then s.lockTableDequeue d i
      else none
  | .release d i =>
      -- a transaction that makes a request does not end meanwhile
      if (s.table d).locks[i]?.any (fun l => !l.wait && s.request.all fun r => r.trx ≠ l.trx) then
        s.lockTableDequeue d i
      else none
  | .clear trx =>
      if ∀ d, ∀ l ∈ (s.table d).locks, l.trx ≠ trx then
        some { s with tableLocks := Function.update s.tableLocks trx [] }
      else none

/-- The table locks. -/
def tableLocks [Fintype D] : Machine (State τ D) (Op τ D) where
  init s := s = ⟨fun _ => ⟨[], none, 0⟩, fun _ => [], fun _ => [], none⟩
  step := State.step

end Operations

/-! ## The vector of a transaction -/

section Entries

variable {v : List (Option D)} {holds holds' : D → Prop} {d : D}

/-- An entry is found. -/
lemma exists_clearEntry {α : Type*} [DecidableEq α] {v : List (Option α)} {e : α}
    (h : some e ∈ v) : ∃ v₁ v₂, v = v₁ ++ some e :: v₂ ∧
      clearEntry v e = some (v₁ ++ none :: v₂) := by
  unfold clearEntry
  cases hupd : updateFirst (fun x => decide (x = some e)) (fun _ => none) v.reverse with
  | none =>
      have hnot := updateFirst_eq_none hupd (some e) (List.mem_reverse.mpr h)
      simp at hnot
  | some q =>
      obtain ⟨q₁, a, q₂, hsplit, hfind, rfl⟩ := updateFirst_some hupd
      obtain rfl : a = some e := by simpa using List.find?_some hfind
      exact ⟨q₂.reverse, q₁.reverse, by simpa using congrArg List.reverse hsplit, by simp⟩

/-- The vector has an entry for each table where the transaction holds a lock, and no gap at its
end. -/
structure Entries (v : List (Option D)) (holds : D → Prop) : Prop where
  mem : ∀ d, some d ∈ v ↔ holds d
  once : v.Pairwise fun e e' => e ≠ none → e ≠ e'
  last : v.getLast? ≠ some none

namespace Entries

lemma congr (h : Entries v holds) (hiff : ∀ d, holds d ↔ holds' d) : Entries v holds' :=
  ⟨fun d => (h.mem d).trans (hiff d), h.once, h.last⟩

lemma push (h : Entries v holds) (hd : ¬ holds d) :
    Entries (v ++ [some d]) fun e => e = d ∨ holds e where
  mem e := by
    simp only [List.mem_append, List.mem_singleton, Option.some.injEq, h.mem]
    exact or_comm
  once := by
    refine List.pairwise_append.mpr ⟨h.once, List.pairwise_singleton _ _, fun e he e' he' _ => ?_⟩
    rw [List.mem_singleton.mp he']
    rintro rfl
    exact hd ((h.mem d).mp he)
  last := by simp

/-- The other entries of the vector are for other tables. -/
lemma mem_of_split {v₁ v₂ : List (Option D)} (h : Entries (v₁ ++ some d :: v₂) holds) (e : D) :
    some e ∈ v₁ ++ v₂ ↔ holds e ∧ e ≠ d := by
  obtain ⟨-, hcons, hbetween⟩ := List.pairwise_append.mp h.once
  have hbehind := (List.pairwise_cons.mp hcons).1
  rw [← h.mem, List.mem_append, List.mem_append, List.mem_cons]
  constructor
  · rintro (he | he)
    · refine ⟨.inl he, ?_⟩
      rintro rfl
      exact hbetween (some e) he (some e) List.mem_cons_self (Option.some_ne_none e) rfl
    · refine ⟨.inr (.inr he), ?_⟩
      rintro rfl
      exact hbehind (some e) he (Option.some_ne_none e) rfl
  · rintro ⟨he | he | he, hne⟩
    · exact .inl he
    · exact absurd (Option.some.inj he) hne
    · exact .inr he

/-- The last entry is taken out. -/
lemma pop (h : Entries (v ++ [some d]) holds) :
    Entries (popAutoincLocks (v ++ [some d])) fun e => holds e ∧ e ≠ d := by
  have hpop : popAutoincLocks (v ++ [some d]) = v.rdropWhile Option.isNone := by
    rw [popAutoincLocks, List.dropLast_concat]
  rw [hpop]
  refine ⟨fun e => ?_, ?_, fun hnone => ?_⟩
  · rw [← h.mem_of_split e, List.append_nil]
    refine ⟨fun he => (List.rdropWhile_prefix _ _).subset he, fun he => ?_⟩
    rw [← List.rdropWhile_append_rtakeWhile (p := Option.isNone) (l := v)] at he
    rcases List.mem_append.mp he with he | he
    · exact he
    · rw [List.rtakeWhile, List.mem_reverse] at he
      exact absurd (List.mem_takeWhile_imp he) Bool.false_ne_true
  · exact (List.pairwise_append.mp h.once).1.sublist (List.rdropWhile_prefix _ _).sublist
  · have hne : v.rdropWhile Option.isNone ≠ [] := by
      intro hnil
      rw [hnil] at hnone
      cases hnone
    rw [List.getLast?_eq_some_getLast hne] at hnone
    exact List.rdropWhile_last_not _ _ hne (by rw [Option.some.inj hnone]; rfl)

/-- An entry that is not the last one becomes a gap. -/
lemma gap {v₁ v₂ : List (Option D)} (h : Entries (v₁ ++ some d :: v₂) holds) (hv₂ : v₂ ≠ []) :
    Entries (v₁ ++ none :: v₂) fun e => holds e ∧ e ≠ d where
  mem e := by
    rw [← h.mem_of_split e]
    simp
  once := by
    obtain ⟨hleft, hcons, hbetween⟩ := List.pairwise_append.mp h.once
    refine List.pairwise_append.mpr ⟨hleft, List.pairwise_cons.mpr
      ⟨fun _ _ hne => absurd rfl hne, (List.pairwise_cons.mp hcons).2⟩, fun e he e' he' hne => ?_⟩
    rcases List.mem_cons.mp he' with rfl | he'
    · exact hne
    · exact hbetween e he e' (List.mem_cons_of_mem _ he') hne
  last := by
    have hlast := h.last
    rw [List.getLast?_append_of_ne_nil _ (List.cons_ne_nil _ _),
      List.getLast?_cons_of_ne_nil hv₂] at hlast ⊢
    exact hlast

/-- **The entry of a lock is found**, and taken out. -/
lemma remove [DecidableEq D] (h : Entries v holds) (hd : holds d) :
    ∃ v', removeAutoincLock v d = some v' ∧ Entries v' fun e => holds e ∧ e ≠ d := by
  have hmem := (h.mem d).mpr hd
  obtain ⟨w, e, rfl⟩ : ∃ w e, v = w ++ [e] := by
    rcases List.eq_nil_or_concat v with rfl | ⟨w, e, rfl⟩
    · exact absurd hmem List.not_mem_nil
    · exact ⟨w, e, List.concat_eq_append⟩
  have hlast : (w ++ [e]).getLast? = some e := List.getLast?_concat
  cases e with
  | none => exact absurd hlast h.last
  | some d' =>
      simp only [removeAutoincLock, hlast]
      split_ifs with heq
      · subst heq
        exact ⟨_, rfl, h.pop⟩
      · obtain ⟨v₁, v₂, hv, hclear⟩ := exists_clearEntry hmem
        have hv₂ : v₂ ≠ [] := by
          rintro rfl
          have hends := (List.append_inj' hv rfl).2
          simp [heq] at hends
        rw [hv] at h
        exact ⟨_, hclear, h.gap hv₂⟩

end Entries

end Entries

/-! ## The bookkeeping of a table -/

/-- If both locks have been granted then they are of the same transaction or compatible. -/
def Compatible (l l' : Lock τ) : Prop :=
  l.wait = false → l'.wait = false → l.trx = l'.trx ∨ l.mode.compatible l'.mode = true

lemma Compatible.symm {l l' : Lock τ} (h : Compatible l l') : Compatible l' l := by
  intro hw' hw
  rw [Mode.compatible_comm]
  exact (h hw hw').imp_left Eq.symm

instance : Std.Symm (Compatible : Lock τ → Lock τ → Prop) where
  symm _ _ := Compatible.symm

lemma mem_insert_iff {l l' : Lock τ} {q₁ q₂ : List (Lock τ)} :
    l' ∈ q₁ ++ l :: q₂ ↔ l' = l ∨ l' ∈ q₁ ++ q₂ := by
  simp only [List.mem_append, List.mem_cons]
  tauto

/-- The other locks. -/
lemma sublist_of_split {tab : Table τ} {l : Lock τ} {q₁ q₂ : List (Lock τ)}
    (hq : tab.locks = q₁ ++ l :: q₂) : (q₁ ++ q₂).Sublist tab.locks := by
  rw [hq]
  exact (List.sublist_cons_self l q₂).append_left q₁

/-- A lock that is not held does not matter. -/
lemma exists_holds_iff {l : Lock τ} {q₁ q₂ : List (Lock τ)} {t : τ} (hl : ¬ l.Holds) :
    (∃ x ∈ q₁ ++ l :: q₂, x.Holds ∧ x.trx = t) ↔ ∃ x ∈ q₁ ++ q₂, x.Holds ∧ x.trx = t := by
  constructor
  · rintro ⟨x, hx, hholds, htrx⟩
    rcases mem_insert_iff.mp hx with rfl | hx
    · exact absurd hholds hl
    · exact ⟨x, hx, hholds, htrx⟩
  · rintro ⟨x, hx, hholds⟩
    exact ⟨x, mem_insert_iff.mpr (.inr hx), hholds⟩

lemma autoIncCount_insert {l : Lock τ} {q₁ q₂ : List (Lock τ)} :
    autoIncCount (q₁ ++ l :: q₂) =
      autoIncCount (q₁ ++ q₂) + if l.mode = .autoInc then 1 else 0 := by
  simp only [autoIncCount, List.countP_append, List.countP_cons, decide_eq_true_eq]
  omega

/-- The same transactions ask for the same. -/
lemma autoIncCount_congr {q q' : List (Lock τ)} (h : q'.map Lock.client = q.map Lock.client) :
    autoIncCount q' = autoIncCount q := by
  have hcount : ∀ q : List (Lock τ),
      autoIncCount q = (q.map Lock.client).countP fun c => decide (c.2 = .autoInc) := by
    intro q
    rw [List.countP_map]
    rfl
  rw [hcount, hcount, h]

section Sound

variable [DecidableEq τ] {tab : Table τ} {l : Lock τ} {q₁ q₂ : List (Lock τ)} {trx : τ}
  {mode : Mode}

/-- The later of two locks that exclude each other waits; a transaction has one lock for `AUTO_INC`
at most; the table knows who holds one, and the counter is not too small. -/
structure Sound (tab : Table τ) : Prop where
  later : tab.locks.Pairwise fun l l' => hasToWait l' l = true → l'.wait = true
  once : tab.locks.Pairwise fun l l' => l.mode = .autoInc → l'.mode = .autoInc → l.trx ≠ l'.trx
  holder : ∀ t, tab.autoincTrx = some t ↔ ∃ l ∈ tab.locks, l.Holds ∧ l.trx = t
  count : autoIncCount tab.locks ≤ tab.nAutoInc
  reused : ∀ l ∈ tab.locks, l.reused = true → l.Holds

lemma hasToWait_of_autoInc {l l' : Lock τ} (hl : l.mode = .autoInc) (hl' : l'.mode = .autoInc)
    (hne : l.trx ≠ l'.trx) : hasToWait l l' = true := by
  simp [hasToWait, hl, hl', hne, Mode.compatible]

lemma Sound.compatible (h : Sound tab) :
    ∀ l ∈ tab.locks, ∀ l' ∈ tab.locks, Compatible l l' := by
  refine List.Pairwise.forall_of_forall (fun l _ _ _ => .inl rfl) (h.later.imp ?_)
  intro l l' hlater _ hw'
  by_contra hno
  push Not at hno
  have hwait := hlater (by
    simp [hasToWait, hno.1.symm, Mode.compatible_comm l'.mode, Bool.eq_false_of_not_eq_true hno.2])
  exact Bool.false_ne_true (hw'.symm.trans hwait)

/-- **One lock for `AUTO_INC` is granted at a time.** -/
lemma Sound.alone (h : Sound tab) : tab.locks.Pairwise fun l l' => l.Holds → ¬ l'.Holds := by
  refine (h.later.and h.once).imp ?_
  intro l l' hboth hl hl'
  have hwait := hboth.1 (hasToWait_of_autoInc hl'.1 hl.1 (hboth.2 hl.1 hl'.1).symm)
  exact Bool.false_ne_true (hl'.2.symm.trans hwait)

/-- Another lock of the queue for `AUTO_INC` is of another transaction. -/
lemma Sound.trx_ne (h : Sound tab) (hq : tab.locks = q₁ ++ l :: q₂) (hl : l.mode = .autoInc)
    {l' : Lock τ} (hl' : l' ∈ q₁ ++ q₂) (hmode : l'.mode = .autoInc) : l'.trx ≠ l.trx := by
  have honce := h.once
  rw [hq] at honce
  obtain ⟨-, hcons, hbetween⟩ := List.pairwise_append.mp honce
  rcases List.mem_append.mp hl' with hl' | hl'
  · exact hbetween l' hl' l List.mem_cons_self hmode hl
  · exact ((List.pairwise_cons.mp hcons).1 l' hl' hl hmode).symm

/-- The transaction has no lock in the queue that is strong enough. -/
def NoneOwn (tab : Table τ) (trx : τ) (mode : Mode) : Prop :=
  ∀ l ∈ tab.locks, l.trx = trx → l.mode.strongerOrEq mode = false

/-- If a lock for `AUTO_INC` can be had at once then nobody holds one. -/
lemma Sound.nobody (h : Sound tab) (hown : NoneOwn tab trx .autoInc)
    (hother : otherHasIncompatible tab.locks trx .autoInc = false) : tab.autoincTrx = none := by
  rw [Option.eq_none_iff_forall_ne_some]
  intro t
  rw [ne_eq, h.holder]
  rintro ⟨l, hl, hholds, -⟩
  have hothers := List.any_eq_false.mp hother l hl
  by_cases htrx : l.trx = trx
  · have hweaker := hown l hl htrx
    rw [hholds.1] at hweaker
    cases hweaker
  · simp [htrx, hholds.1, Mode.compatible] at hothers

/-- A new lock at the end. -/
lemma Sound.create (h : Sound tab) {wait : Bool} {n : ℕ} (hown : NoneOwn tab trx mode)
    (hother : wait = false → otherHasIncompatible tab.locks trx mode = false)
    (hn : mode = .autoInc → autoIncCount tab.locks ≤ n) :
    Sound
      { locks := tab.locks ++ [⟨trx, mode, wait, decide (mode = .autoInc) && !wait⟩]
        autoincTrx := if decide (mode = .autoInc) && !wait then some trx else tab.autoincTrx
        nAutoInc := if mode = .autoInc then n + 1 else tab.nAutoInc } := by
  have hothers : wait = false → ∀ l ∈ tab.locks, l.trx ≠ trx → l.mode.compatible mode = true := by
    intro hwait l hl htrx
    simpa [htrx] using List.any_eq_false.mp (hother hwait) l hl
  refine ⟨?_, ?_, fun t => ?_, ?_, ?_⟩
  · refine List.pairwise_append.mpr ⟨h.later, List.pairwise_singleton _ _, fun l hl l' hl' hw => ?_⟩
    obtain rfl := List.mem_singleton.mp hl'
    simp only [hasToWait, Bool.and_eq_true, decide_eq_true_eq, Bool.not_eq_true'] at hw
    by_contra hnot
    have hcompatible := hothers (Bool.eq_false_of_not_eq_true hnot) l hl hw.1.symm
    rw [Mode.compatible_comm, hw.2] at hcompatible
    exact Bool.false_ne_true hcompatible
  · refine List.pairwise_append.mpr ⟨h.once, List.pairwise_singleton _ _, ?_⟩
    rintro l hl l' hl' hmode hmode' htrx
    obtain rfl := List.mem_singleton.mp hl'
    obtain rfl : mode = .autoInc := hmode'
    have hweaker := hown l hl htrx
    rw [hmode] at hweaker
    cases hweaker
  · simp only [List.mem_append, List.mem_singleton, or_and_right, exists_or, exists_eq_left,
      ← h.holder]
    by_cases hdirect : mode = .autoInc ∧ wait = false
    · obtain ⟨rfl, rfl⟩ := hdirect
      -- nobody has a lock for `AUTO_INC`
      simp [Lock.Holds, h.nobody hown (hother rfl)]
    · have hnot : (decide (mode = .autoInc) && !wait) = false := by
        simpa using hdirect
      simp [Lock.Holds, hnot, hdirect]
  · simp only [autoIncCount_insert, List.append_nil]
    split_ifs with hmode
    · exact Nat.succ_le_succ (hn hmode)
    · exact h.count
  · intro l hl
    rcases List.mem_append.mp hl with hl | hl
    · exact h.reused l hl
    · obtain rfl := List.mem_singleton.mp hl
      simp [Lock.Holds]

/-- A lock leaves that is not for `AUTO_INC`. -/
lemma Sound.remove (h : Sound tab) (hq : tab.locks = q₁ ++ l :: q₂) (hl : l.mode ≠ .autoInc) :
    Sound { tab with locks := q₁ ++ q₂ } := by
  have hsub := sublist_of_split hq
  refine ⟨h.later.sublist hsub, h.once.sublist hsub, fun t => ?_, ?_,
    fun x hx => h.reused x (hsub.subset hx)⟩
  · rw [h.holder, hq]
    exact exists_holds_iff fun hholds => hl hholds.1
  · have hcount := h.count
    rwa [hq, autoIncCount_insert, if_neg hl] at hcount

/-- A lock for `AUTO_INC` leaves, granted or not. -/
lemma Sound.removeAutoInc (h : Sound tab) (hq : tab.locks = q₁ ++ l :: q₂)
    (hl : l.mode = .autoInc) :
    Sound
      { locks := q₁ ++ q₂
        autoincTrx := if tab.autoincTrx = some l.trx then none else tab.autoincTrx
        nAutoInc := tab.nAutoInc - 1 } := by
  have hsub := sublist_of_split hq
  refine ⟨h.later.sublist hsub, h.once.sublist hsub, fun t => ?_, ?_,
    fun x hx => h.reused x (hsub.subset hx)⟩
  · constructor
    · intro hsome
      simp only at hsome
      split_ifs at hsome with htrx
      obtain ⟨x, hx, hholds, rfl⟩ := (h.holder t).mp hsome
      rw [hq] at hx
      rcases mem_insert_iff.mp hx with rfl | hx
      · exact absurd hsome htrx
      · exact ⟨x, hx, hholds, rfl⟩
    · rintro ⟨x, hx, hholds, rfl⟩
      have hsome := (h.holder x.trx).mpr ⟨x, hsub.subset hx, hholds, rfl⟩
      have hne := h.trx_ne hq hl hx hholds.1
      simp only [hsome, Option.some.injEq, hne, if_false]
  · have hcount := h.count
    rw [hq, autoIncCount_insert, if_pos hl] at hcount
    exact Nat.le_sub_of_add_le hcount

/-- Who waits for `AUTO_INC` holds no other such lock. -/
lemma Sound.not_holder (h : Sound tab) (hq : tab.locks = q₁ ++ l :: q₂) (hl : l.mode = .autoInc)
    (hw : l.wait = true) : tab.autoincTrx ≠ some l.trx := by
  rw [ne_eq, h.holder, hq]
  rintro ⟨x, hx, hholds, htrx⟩
  rcases mem_insert_iff.mp hx with rfl | hx
  · exact Bool.false_ne_true (hholds.2.symm.trans hw)
  · exact h.trx_ne hq hl hx hholds.1 htrx

/-- If it need not wait any more then nobody holds one. -/
lemma Sound.autoincTrx_eq_none (h : Sound tab) (hq : tab.locks = q₁ ++ l :: q₂)
    (hl : l.mode = .autoInc) (hw : l.wait = true) (hfree : requests.blocked q₁ l = false) :
    tab.autoincTrx = none := by
  rw [Option.eq_none_iff_forall_ne_some]
  intro t
  rw [ne_eq, h.holder, hq]
  rintro ⟨x, hx, hholds, -⟩
  rcases mem_insert_iff.mp hx with rfl | hx
  · exact Bool.false_ne_true (hholds.2.symm.trans hw)
  · have hne := h.trx_ne hq hl hx hholds.1
    rcases List.mem_append.mp hx with hx | hx
    · exact List.any_eq_false.mp hfree x hx (hasToWait_of_autoInc hl hholds.1 hne.symm)
    · have hlater := h.later
      rw [hq] at hlater
      have hwait := (List.pairwise_cons.mp (List.pairwise_append.mp hlater).2.1).1 x hx
        (hasToWait_of_autoInc hholds.1 hl hne)
      exact Bool.false_ne_true (hholds.2.symm.trans hwait)

/-- A lock is granted that has nobody ahead to wait for. -/
lemma Sound.grant (h : Sound tab) (hq : tab.locks = q₁ ++ l :: q₂) (hw : l.wait = true)
    (hfree : requests.blocked q₁ l = false) :
    Sound { tab with
      locks := q₁ ++ l.grant :: q₂
      autoincTrx := if l.mode = .autoInc then some l.trx else tab.autoincTrx } := by
  have hlater := h.later
  have honce := h.once
  rw [hq] at hlater honce
  refine ⟨?_, ?_, fun t => ?_, ?_, fun x hx hreused => ?_⟩
  · refine pairwise_replace hlater (fun x hx _ hwaits => ?_) fun _ _ => id
    exact absurd hwaits (List.any_eq_false.mp hfree x hx)
  · exact pairwise_replace honce (fun _ _ => id) fun _ _ => id
  · by_cases hl : l.mode = .autoInc
    · have hnone : ∀ x ∈ q₁ ++ q₂, ¬ x.Holds := by
        intro x hx hholds
        have hsome := (h.holder x.trx).mpr
          ⟨x, by rw [hq]; exact mem_insert_iff.mpr (.inr hx), hholds, rfl⟩
        rw [h.autoincTrx_eq_none hq hl hw hfree] at hsome
        cases hsome
      rw [if_pos hl]
      constructor
      · intro hsome
        exact ⟨l.grant, by simp, ⟨hl, rfl⟩, Option.some.inj hsome⟩
      · rintro ⟨x, hx, hholds, rfl⟩
        rcases mem_insert_iff.mp hx with rfl | hx
        · rfl
        · exact absurd hholds (hnone x hx)
    · rw [if_neg hl, h.holder, hq, exists_holds_iff fun hholds => hl hholds.1]
      have hgranted : ¬ l.grant.Holds := fun hholds => hl hholds.1
      exact (exists_holds_iff hgranted).symm
  · have hcount := h.count
    rw [hq, autoIncCount_insert] at hcount
    rw [autoIncCount_insert]
    exact hcount
  · rcases mem_insert_iff.mp hx with rfl | hx
    · have hholds := h.reused l (by rw [hq]; simp) hreused
      exact absurd (hholds.2.symm.trans hw) Bool.false_ne_true
    · exact h.reused x (by rw [hq]; exact mem_insert_iff.mpr (.inr hx)) hreused

end Sound

/-! ## The invariant -/

section Kept

variable [DecidableEq τ] {s s' : State τ D} {d : D} {trx : τ} {mode : Mode}
  {ahead rest : List (Lock τ)} {l : Lock τ}

/-- The bookkeeping is right. -/
structure Kept (s : State τ D) : Prop where
  sound : ∀ d, Sound (s.table d)
  entries : ∀ t, Entries (s.autoincLocks t) fun d => (s.table d).autoincTrx = some t

/-- What is known about the `AUTO_INC` locks that have been granted agrees with the queues, the one
object that each table has for such a lock is in use once at most, and the counter is not too
small. -/
structure Exact (s : State τ D) : Prop where
  count : ∀ d, autoIncCount (s.table d).locks ≤ (s.table d).nAutoInc
  holder : ∀ d t, (s.table d).autoincTrx = some t ↔ ∃ l ∈ (s.table d).locks, l.Holds ∧ l.trx = t
  entries : ∀ d t, some d ∈ s.autoincLocks t ↔ ∃ l ∈ (s.table d).locks, l.Holds ∧ l.trx = t
  object : ∀ d, (s.table d).locks.Pairwise fun l l' => l.reused = true → l'.reused = false

lemma Kept.exact (h : Kept s) : Exact s where
  count d := (h.sound d).count
  holder d := (h.sound d).holder
  entries d t := ((h.entries t).mem d).trans ((h.sound d).holder t)
  object d := by
    refine (h.sound d).alone.imp_of_mem ?_
    intro l l' hl hl' halone hreused
    rw [Bool.eq_false_iff]
    intro hreused'
    exact halone ((h.sound d).reused l hl hreused) ((h.sound d).reused l' hl' hreused')

variable [DecidableEq D]

lemma Kept.sound_update (h : Kept s) {tab : Table τ} (htab : Sound tab) (e : D) :
    Sound (Function.update s.table d tab e) := by
  rw [Function.update_apply]
  split_ifs
  · exact htab
  · exact h.sound e

/-- The table changes, and nobody gets or loses the lock for `AUTO_INC`. -/
lemma Kept.setTable (h : Kept s) {tab : Table τ} (htab : Sound tab)
    (hsame : tab.autoincTrx = (s.table d).autoincTrx) :
    Kept { s with table := Function.update s.table d tab } := by
  refine ⟨h.sound_update htab, fun t => (h.entries t).congr fun e => ?_⟩
  by_cases hed : e = d
  · simp [hed, hsame]
  · simp [hed]

/-- The transaction gets the lock for `AUTO_INC`, which nobody holds. -/
lemma Kept.acquire (h : Kept s) {tab : Table τ} (htab : Sound tab)
    (hnone : (s.table d).autoincTrx = none) (hsome : tab.autoincTrx = some trx) :
    Kept { s with
      table := Function.update s.table d tab
      autoincLocks := Function.update s.autoincLocks trx (s.autoincLocks trx ++ [some d]) } := by
  refine ⟨h.sound_update htab, fun t => ?_⟩
  by_cases ht : t = trx
  · subst ht
    have hnot : ¬ (s.table d).autoincTrx = some t := by simp [hnone]
    simp only [Function.update_self]
    refine ((h.entries t).push hnot).congr fun e => ?_
    by_cases hed : e = d
    · simp [hed, hsome]
    · simp [hed]
  · simp only [Function.update_of_ne ht]
    refine (h.entries t).congr fun e => ?_
    by_cases hed : e = d
    · simp [hed, hnone, hsome, Ne.symm ht]
    · simp [hed]

/-- The transaction loses the lock for `AUTO_INC`, if it holds it. -/
lemma Kept.release (h : Kept s) {tab : Table τ} (htab : Sound tab) {v : List (Option D)}
    (hv : Entries v fun e => (s.table e).autoincTrx = some trx ∧ e ≠ d)
    (htrx : tab.autoincTrx =
      if (s.table d).autoincTrx = some trx then none else (s.table d).autoincTrx) :
    Kept { s with
      table := Function.update s.table d tab
      autoincLocks := Function.update s.autoincLocks trx v } := by
  refine ⟨h.sound_update htab, fun t => ?_⟩
  by_cases ht : t = trx
  · subst ht
    simp only [Function.update_self]
    refine hv.congr fun e => ?_
    by_cases hed : e = d
    · subst hed
      simp only [ne_eq, not_true_eq_false, and_false, Function.update_self, htrx, false_iff]
      split_ifs with hif
      · exact nofun
      · exact hif
    · simp [hed]
  · simp only [Function.update_of_ne ht]
    refine (h.entries t).congr fun e => ?_
    by_cases hed : e = d
    · subst hed
      simp only [Function.update_self, htrx]
      split_ifs with hif
      · simp [hif, Ne.symm ht]
      · rfl
    · simp [hed]

/-- Only the queue of the table `d` has changed, and the bookkeeping for `AUTO_INC`. -/
structure SameBut (d : D) (s s' : State τ D) : Prop where
  table : ∀ e, e ≠ d → s'.table e = s.table e
  tableLocks : s'.tableLocks = s.tableLocks
  request : s'.request = s.request

omit [DecidableEq τ] [DecidableEq D] in
lemma SameBut.trans {s₁ s₂ : State τ D} (h : SameBut d s s₁) (h' : SameBut d s₁ s₂) :
    SameBut d s s₂ :=
  ⟨fun e he => (h'.table e he).trans (h.table e he), h'.tableLocks.trans h.tableLocks,
    h'.request.trans h.request⟩

/-- **A lock leaves the queue**, and no assertion fails. -/
lemma Kept.removeLow (h : Kept s) {i : ℕ} (hi : (s.table d).locks[i]? = some l) :
    ∃ s', s.lockTableRemoveLow d i = some s' ∧ Kept s' ∧ SameBut d s s' ∧
      (s'.table d).locks = (s.table d).locks.eraseIdx i ∧
      (s'.table d).nAutoInc = (s.table d).nAutoInc - if l.mode = .autoInc then 1 else 0 := by
  obtain ⟨hlt, hget⟩ := List.getElem?_eq_some_iff.mp hi
  have hq : (s.table d).locks =
      (s.table d).locks.take i ++ l :: (s.table d).locks.drop (i + 1) := by
    rw [← hget, List.getElem_cons_drop, List.take_append_drop]
  have herase := List.eraseIdx_eq_take_drop_succ (s.table d).locks i
  by_cases hl : l.mode = .autoInc
  · obtain ⟨v, hv, hentries⟩ : ∃ v, (if (l.wait || (s.autoincLocks l.trx).isEmpty) = true
        then some (s.autoincLocks l.trx) else removeAutoincLock (s.autoincLocks l.trx) d) = some v ∧
        Entries v fun e => (s.table e).autoincTrx = some l.trx ∧ e ≠ d := by
      cases hw : l.wait with
      | true =>
          refine ⟨_, by simp, (h.entries l.trx).congr fun e => ⟨fun he => ⟨he, ?_⟩, And.left⟩⟩
          rintro rfl
          exact (h.sound e).not_holder hq hl hw he
      | false =>
          have hholds : (s.table d).autoincTrx = some l.trx :=
            ((h.sound d).holder l.trx).mpr ⟨l, List.mem_of_getElem? hi, ⟨hl, hw⟩, rfl⟩
          have hmem := ((h.entries l.trx).mem d).mpr hholds
          obtain ⟨v, hv, hentries⟩ := (h.entries l.trx).remove hholds
          refine ⟨v, ?_, hentries⟩
          rw [if_neg (by simpa using List.ne_nil_of_mem hmem), hv]
    have hpos : (s.table d).nAutoInc ≠ 0 := by
      have hcount := (h.sound d).count
      rw [hq, autoIncCount_insert, if_pos hl] at hcount
      omega
    have hsound := (h.sound d).removeAutoInc hq hl
    rw [← herase] at hsound
    refine ⟨_, ?_, h.release hsound hentries rfl, ⟨fun e he => by simp [he], rfl, rfl⟩, by simp,
      by simp [hl]⟩
    simp only [State.lockTableRemoveLow, hi, if_pos hl, hv, if_neg hpos]
  · have hsound := (h.sound d).remove hq hl
    rw [← herase] at hsound
    refine ⟨_, ?_, h.setTable hsound rfl, ⟨fun e he => by simp [he], rfl, rfl⟩, by simp,
      by simp [hl]⟩
    simp only [State.lockTableRemoveLow, hi, if_neg hl]

lemma Kept.lockGrant (h : Kept s) (hq : (s.table d).locks = ahead ++ l :: rest)
    (hw : l.wait = true) (hfree : requests.blocked ahead l = false) :
    Kept (s.lockGrant d ahead l rest) := by
  have hsound := (h.sound d).grant hq hw hfree
  by_cases hl : l.mode = .autoInc
  · have hnone := (h.sound d).autoincTrx_eq_none hq hl hw hfree
    have hkept := h.acquire hsound hnone (if_pos hl)
    simpa [State.lockGrant, hl, hnone] using hkept
  · have hkept := h.setTable hsound (if_neg hl)
    simpa [State.lockGrant, hl] using hkept

/-- **The loop of `lock_table_dequeue`** is a grant pass over the locks behind. -/
lemma Kept.grantLoop (h : Kept s) (hq : (s.table d).locks = ahead ++ rest) :
    Kept (grantLoop d ahead rest s) ∧ SameBut d s (grantLoop d ahead rest s) ∧
      ((grantLoop d ahead rest s).table d).locks =
        ahead ++ requests.grantPass (fun _ => true) ahead rest ∧
      ((grantLoop d ahead rest s).table d).nAutoInc = (s.table d).nAutoInc := by
  induction rest generalizing ahead s with
  | nil => exact ⟨h, ⟨fun _ _ => rfl, rfl, rfl⟩, hq, rfl⟩
  | cons l rest ih =>
      simp only [TableLocks.grantLoop, Requests.grantPass]
      by_cases hgrant : (l.wait && !requests.blocked ahead l) = true
      · have hpass : (true && requests.waiting l && !requests.blocked ahead l) = true := hgrant
        obtain ⟨hw, hfree⟩ : l.wait = true ∧ requests.blocked ahead l = false := by
          simpa using hgrant
        have hlocks : ((s.lockGrant d ahead l rest).table d).locks =
            (ahead ++ [l.grant]) ++ rest := by
          simp [State.lockGrant]
        obtain ⟨hkept, hothers, hlocks', hcount⟩ := ih (h.lockGrant hq hw hfree) hlocks
        have hsame : SameBut d s (s.lockGrant d ahead l rest) :=
          ⟨fun e he => by simp [State.lockGrant, he], rfl, rfl⟩
        rw [if_pos hgrant, if_pos hpass]
        refine ⟨hkept, hsame.trans hothers, ?_, hcount.trans (by simp [State.lockGrant])⟩
        rw [hlocks', List.append_assoc]
        rfl
      · have hpass : ¬ (true && requests.waiting l && !requests.blocked ahead l) = true := hgrant
        have hlocks : (s.table d).locks = (ahead ++ [l]) ++ rest := by simpa using hq
        obtain ⟨hkept, hothers, hlocks', hcount⟩ := ih h hlocks
        rw [if_neg hgrant, if_neg hpass]
        refine ⟨hkept, hothers, ?_, hcount⟩
        rw [hlocks', List.append_assoc]
        rfl

/-- A request is put at the end of the queue. -/
lemma Kept.create (h : Kept s) {r : Request τ D} {n : ℕ}
    (hown : NoneOwn (s.table r.table) r.trx r.mode)
    (hother : r.waitFor = false →
      otherHasIncompatible (s.table r.table).locks r.trx r.mode = false)
    (hn : r.mode = .autoInc → autoIncCount (s.table r.table).locks ≤ n) :
    Kept (s.lockTableCreate r n) := by
  have hsound := (h.sound r.table).create hown hother hn
  obtain ⟨trx, d, mode, wait, loaded⟩ := r
  simp only at hown hother hsound
  by_cases hdirect : (decide (mode = .autoInc) && !wait) = true
  · obtain ⟨rfl, rfl⟩ : mode = .autoInc ∧ wait = false := by simpa using hdirect
    have hkept := h.acquire hsound ((h.sound d).nobody hown (hother rfl)) rfl
    exact ⟨hkept.sound, hkept.entries⟩
  · have hkept := h.setTable hsound (if_neg hdirect)
    have hsame : (s.lockTableCreate ⟨trx, d, mode, wait, loaded⟩ n).autoincLocks =
        s.autoincLocks := if_neg hdirect
    refine ⟨hkept.sound, fun t => ?_⟩
    rw [hsame]
    exact hkept.entries t

/-! ## Dequeues -/

/-- What `lock_table_dequeue` of the lock `l` at place `i` does. -/
structure Dequeued (d : D) (i : ℕ) (l : Lock τ) (s s' : State τ D) : Prop where
  same : SameBut d s s'
  locks : (s'.table d).locks = (s.table d).locks.take i ++ requests.grantPass (fun _ => true)
    ((s.table d).locks.take i) ((s.table d).locks.drop (i + 1))
  count : (s'.table d).nAutoInc = (s.table d).nAutoInc - if l.mode = .autoInc then 1 else 0

/-- **A lock is dequeued**, and no assertion fails. -/
lemma Kept.dequeue (h : Kept s) {i : ℕ} (hi : (s.table d).locks[i]? = some l) :
    ∃ s', s.lockTableDequeue d i = some s' ∧ Kept s' ∧ Dequeued d i l s s' := by
  obtain ⟨s₁, hremove, hkept, hsame, hlocks, hcount⟩ := h.removeLow hi
  rw [List.eraseIdx_eq_take_drop_succ] at hlocks
  obtain ⟨hkept', hsame', hlocks', hcount'⟩ := hkept.grantLoop hlocks
  refine ⟨_, ?_, hkept', hsame.trans hsame', hlocks', hcount'.trans hcount⟩
  simp only [State.lockTableDequeue, hremove, Option.map_some]

namespace Dequeued

variable {i : ℕ}

omit [DecidableEq D]

lemma clients (h : Dequeued d i l s s') :
    (s'.table d).locks.map Lock.client = ((s.table d).locks.eraseIdx i).map Lock.client := by
  rw [h.locks, List.eraseIdx_eq_take_drop_succ, List.map_append, List.map_append,
    Requests.map_grantPass fun _ => rfl]

/-- No locks are added. -/
lemma exists_mem (h : Dequeued d i l s s') {l' : Lock τ} (hl' : l' ∈ (s'.table d).locks) :
    ∃ x ∈ (s.table d).locks.eraseIdx i, x.client = l'.client :=
  List.mem_map.mp (h.clients ▸ List.mem_map_of_mem hl')

lemma autoIncCount_eq (h : Dequeued d i l s s') (hi : (s.table d).locks[i]? = some l) :
    autoIncCount (s.table d).locks =
      autoIncCount (s'.table d).locks + if l.mode = .autoInc then 1 else 0 := by
  obtain ⟨hlt, hget⟩ := List.getElem?_eq_some_iff.mp hi
  have hq : (s.table d).locks =
      (s.table d).locks.take i ++ l :: (s.table d).locks.drop (i + 1) := by
    rw [← hget, List.getElem_cons_drop, List.take_append_drop]
  rw [autoIncCount_congr h.clients, List.eraseIdx_eq_take_drop_succ, ← autoIncCount_insert, ← hq]

end Dequeued

end Kept

end Multicore.Project4.TableLocks
