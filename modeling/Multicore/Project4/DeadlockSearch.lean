import Multicore.Lib.Loop
import Multicore.Project4.LockSystem

/-!
# The search for deadlocks

`DeadlockChecker::search` in `lock/lock0lock.cc`, for record locks.  When a lock has to wait, the
search looks for a path in the waits-for graph that leads back to its transaction.  It goes through
the locks ahead of the lock that waits; if one of them belongs to a transaction that waits in its
turn, the search goes on with the lock for which that one waits, and comes back later: what is left
to do stands on a stack.  A transaction is marked when all locks ahead of its own have been looked
at, and its locks are passed over from then on.

* `Checker.body` — one round of the loop; `search` — the loop.
* `Round` — what a round can do.
* `Searching` — the stack is a path in the graph from the transaction that wants to wait, and marked
  transactions do not lead back to it.
* **`search_exact`** — no deadlock is reported only if there is none, and a victim only if it lies
  on a cycle; no assertion fails.

Only record locks are searched: the branches of `get_first_lock` and `get_next_lock` for table locks
are left out, so nobody waits for a table here.  Left out are also transactions with a priority, and
the reports for replication.
-/

namespace Multicore.Project4.RecordLocks

open Relation

variable {τ P : Type*}

/-! ## The checker -/

/-- `LOCK_MAX_DEPTH_IN_DEADLOCK_CHECK` -/
def maxDepth : ℕ := 200

/-- `LOCK_MAX_N_STEPS_IN_DEADLOCK_CHECK` -/
def maxSteps : ℕ := 1000000

/-- `MAX_STACK_SIZE` -/
def maxStackSize : ℕ := 4096

/-- A `state_t`: a lock with those behind it, and the lock that waits for it. -/
structure Frame (τ P : Type*) where
  lock : Lock τ
  rest : List (Lock τ)
  waitLock : Ref τ P
  heapNo : ℕ

/-- A `DeadlockChecker` with the variables of `search`, and the marks. -/
structure Checker (τ P : Type*) where
  /-- `m_wait_lock` -/
  waitLock : Ref τ P
  heapNo : ℕ
  /-- the lock that is looked at, and those behind it; `[]` is `NULL` -/
  lock : List (Lock τ)
  /-- `s_states`, the last one first -/
  states : List (Frame τ P)
  cost : ℕ
  mark : τ → ℕ
  lockMarkCounter : ℕ

/-- What `search` comes to. -/
inductive Outcome (τ : Type*)
  | noDeadlock
  | victim (trx : τ)
  | tooDeep
  /-- an assertion has failed -/
  | failed

/-- `is_visited` -/
def Checker.isVisited (c : Checker τ P) (markStart : ℕ) (trx : τ) : Bool :=
  decide (markStart < c.mark trx)

/-- `is_too_deep` -/
def Checker.isTooDeep (c : Checker τ P) : Bool :=
  decide (maxDepth < c.states.length ∨ maxSteps < c.cost)

/-- The next lock on the record `heapNo` among `rest` whose transaction has not been visited. -/
def nextLock (visited : τ → Bool) (heapNo : ℕ) (rest : List (Lock τ)) : List (Lock τ) :=
  rest.dropWhile fun l => !(l.nthBit heapNo && !visited l.trx)

/-- `get_next_lock`; `rest` is what is behind the present lock. -/
def Checker.getNextLock (c : Checker τ P) (markStart : ℕ) (rest : List (Lock τ)) : List (Lock τ) :=
  nextLock (c.isVisited markStart) c.heapNo rest

/-- `get_first_lock`: the record, and the first lock on it.  `none` is a failed assertion: there has
to be a lock, it must have been granted and be another one. -/
def LockSys.getFirstLock (sys : LockSys τ P) (r : Ref τ P) : Option (ℕ × Lock τ × List (Lock τ)) :=
  match r.lock.findSetBit with
  | none => none
  | some heapNo =>
      match (sys.page r.page).dropWhile fun l => !l.nthBit heapNo with
      | [] => none
      | l :: rest =>
          if l.wait = true ∨ rest.length = r.behind.length then none else some (heapNo, l, rest)

section Search

variable [DecidableEq τ] (needOrdering weightGe : τ → τ → Bool) (sys : LockSys τ P) (start : τ)
  (markStart : ℕ)

/-- `select_victim`; `weightGe` is `trx_weight_ge`. -/
def Checker.selectVictim (c : Checker τ P) : τ :=
  if weightGe c.waitLock.lock.trx start then start else c.waitLock.lock.trx

/-- Back to the state on top of the stack, and on to the next lock there. -/
def Checker.pop (c : Checker τ P) (f : Frame τ P) (states : List (Frame τ P)) : Checker τ P :=
  let c := { c with waitLock := f.waitLock, heapNo := f.heapNo, states := states }
  { c with lock := c.getNextLock markStart f.rest }

/-- On to the lock `r` for which the transaction of `l` waits; `heapNo`, `l'` and `rest'` are its
record and the first lock there. -/
def Checker.push (c : Checker τ P) (l : Lock τ) (rest : List (Lock τ)) (r : Ref τ P) (heapNo : ℕ)
    (l' : Lock τ) (rest' : List (Lock τ)) : Checker τ P :=
  let c := { c with
    cost := c.cost + 1
    states := ⟨l, rest, c.waitLock, c.heapNo⟩ :: c.states
    waitLock := r
    heapNo := heapNo }
  { c with
    lock := if c.isVisited markStart l'.trx then c.getNextLock markStart rest' else l' :: rest' }

/-- All locks ahead of `m_wait_lock` have been looked at. -/
def Checker.markWaitLock (c : Checker τ P) : Checker τ P :=
  { c with
    mark := Function.update c.mark c.waitLock.lock.trx (c.lockMarkCounter + 1)
    lockMarkCounter := c.lockMarkCounter + 1
    lock := [] }

/-- One round of the loop in `search`. -/
def Checker.body (c : Checker τ P) : Checker τ P ⊕ Outcome τ × Checker τ P :=
  match c.lock, c.states with
  | [], [] => .inr (.noDeadlock, c)
  | [], f :: states => .inl (c.pop markStart f states)
  | l :: rest, _ =>
      if rest.length = c.waitLock.behind.length then .inl c.markWaitLock
      else if hasToWait needOrdering c.waitLock.lock l = false then
        .inl { c with lock := c.getNextLock markStart rest }
      else if l.trx = start then .inr (.victim (c.selectVictim weightGe start), c)
      else if c.isTooDeep then .inr (.tooDeep, c)
      else
        match sys.waitLock l.trx with
        | none => .inl { c with lock := c.getNextLock markStart rest }
        | some r =>
            if maxStackSize ≤ c.states.length then .inr (.tooDeep, c)
            else
              match sys.getFirstLock r with
              | none => .inr (.failed, c)
              | some (heapNo, l', rest') => .inl (c.push markStart l rest r heapNo l' rest')

/-! ## Rounds -/

/-- What a round can do, unless it is the last one. -/
inductive Round (c : Checker τ P) : Checker τ P → Prop
  | pop {f : Frame τ P} {states : List (Frame τ P)} (hlock : c.lock = [])
      (hstates : c.states = f :: states) : Round c (c.pop markStart f states)
  | mark {l : Lock τ} {rest : List (Lock τ)} (hlock : c.lock = l :: rest)
      (hlast : rest.length = c.waitLock.behind.length) : Round c c.markWaitLock
  | next {l : Lock τ} {rest : List (Lock τ)} (hlock : c.lock = l :: rest)
      (hahead : rest.length ≠ c.waitLock.behind.length)
      (hwhy : hasToWait needOrdering c.waitLock.lock l = true →
        l.trx ≠ start ∧ sys.waitLock l.trx = none) :
      Round c { c with lock := c.getNextLock markStart rest }
  | push {l : Lock τ} {rest : List (Lock τ)} {r : Ref τ P} {heapNo : ℕ} {l' : Lock τ}
      {rest' : List (Lock τ)} (hlock : c.lock = l :: rest)
      (hahead : rest.length ≠ c.waitLock.behind.length)
      (hwait : hasToWait needOrdering c.waitLock.lock l = true) (htrx : l.trx ≠ start)
      (hdepth : c.isTooDeep = false) (hr : sys.waitLock l.trx = some r)
      (hfirst : sys.getFirstLock r = some (heapNo, l', rest')) :
      Round c (c.push markStart l rest r heapNo l' rest')

/-- With what the last round can end. -/
inductive Ends (c : Checker τ P) : Outcome τ → Prop
  | noDeadlock (hlock : c.lock = []) (hstates : c.states = []) : Ends c .noDeadlock
  | victim {l : Lock τ} {rest : List (Lock τ)} (hlock : c.lock = l :: rest)
      (hahead : rest.length ≠ c.waitLock.behind.length)
      (hwait : hasToWait needOrdering c.waitLock.lock l = true) (htrx : l.trx = start) :
      Ends c (.victim (c.selectVictim weightGe start))
  | tooDeep {l : Lock τ} {rest : List (Lock τ)} (hlock : c.lock = l :: rest)
      (hahead : rest.length ≠ c.waitLock.behind.length)
      (hwait : hasToWait needOrdering c.waitLock.lock l = true) : Ends c .tooDeep
  | failed {l : Lock τ} {rest : List (Lock τ)} {r : Ref τ P} (hlock : c.lock = l :: rest)
      (hr : sys.waitLock l.trx = some r) (hfirst : sys.getFirstLock r = none) : Ends c .failed

variable {c c' : Checker τ P} {outcome : Outcome τ}

lemma body_cases (c : Checker τ P) :
    (∃ c', c.body needOrdering weightGe sys start markStart = .inl c' ∧
      Round needOrdering sys start markStart c c') ∨
    ∃ outcome, c.body needOrdering weightGe sys start markStart = .inr (outcome, c) ∧
      Ends needOrdering weightGe sys start c outcome := by
  unfold Checker.body
  split
  · rename_i hlock hstates
    exact .inr ⟨_, rfl, .noDeadlock hlock hstates⟩
  · rename_i f states hlock hstates
    exact .inl ⟨_, rfl, .pop hlock hstates⟩
  · rename_i l rest hlock
    split
    · rename_i hlast
      exact .inl ⟨_, rfl, .mark hlock hlast⟩
    rename_i hlast
    split
    · rename_i hfree
      exact .inl ⟨_, rfl, .next hlock hlast fun hwait => absurd (hfree.symm.trans hwait) (by simp)⟩
    rename_i hfree
    have hwait := Bool.eq_true_of_not_eq_false hfree
    split
    · rename_i htrx
      exact .inr ⟨_, rfl, .victim hlock hlast hwait htrx⟩
    rename_i htrx
    split
    · exact .inr ⟨_, rfl, .tooDeep hlock hlast hwait⟩
    rename_i hdepth
    split
    · rename_i hr
      exact .inl ⟨_, rfl, .next hlock hlast fun _ => ⟨htrx, hr⟩⟩
    rename_i r hr
    split
    · exact .inr ⟨_, rfl, .tooDeep hlock hlast hwait⟩
    split
    · rename_i hfirst
      exact .inr ⟨_, rfl, .failed hlock hr hfirst⟩
    · rename_i heapNo l' rest' hfirst
      exact .inl ⟨_, rfl, .push hlock hlast hwait htrx (Bool.eq_false_of_not_eq_true hdepth) hr
        hfirst⟩

variable {needOrdering weightGe sys start markStart}

lemma round_of_body (h : c.body needOrdering weightGe sys start markStart = .inl c') :
    Round needOrdering sys start markStart c c' := by
  rcases body_cases needOrdering weightGe sys start markStart c with
    ⟨c'', hbody, hround⟩ | ⟨_, hbody, -⟩
  · exact Sum.inl.inj (hbody.symm.trans h) ▸ hround
  · cases hbody.symm.trans h

lemma ends_of_body (h : c.body needOrdering weightGe sys start markStart = .inr (outcome, c')) :
    c' = c ∧ Ends needOrdering weightGe sys start c outcome := by
  rcases body_cases needOrdering weightGe sys start markStart c with
    ⟨_, hbody, -⟩ | ⟨outcome', hbody, hends⟩
  · cases hbody.symm.trans h
  · obtain ⟨rfl, rfl⟩ := Prod.mk.inj (Sum.inr.inj (hbody.symm.trans h))
    exact ⟨rfl, hends⟩

/-- The steps that are left, the depth of the stack, and the locks that are to be looked at. -/
def Checker.measure (c : Checker τ P) : ℕ × ℕ × ℕ :=
  (maxSteps + 1 - c.cost, c.states.length, c.lock.length)

lemma Round.measure_lt (h : Round needOrdering sys start markStart c c') :
    WellFoundedRelation.rel c'.measure c.measure := by
  have hnext : ∀ {heapNo l} {rest : List (Lock τ)} (visited : τ → Bool),
      (nextLock visited heapNo rest).length < (l :: rest).length := fun visited =>
    Nat.lt_succ_of_le (List.dropWhile_sublist _).length_le
  cases h with
  | pop hlock hstates =>
      refine .right _ (.left _ _ ?_)
      rw [hstates]
      exact Nat.lt_succ_self _
  | mark hlock hlast =>
      refine .right _ (.right _ ?_)
      rw [hlock]
      exact Nat.succ_pos _
  | next hlock hahead hwhy =>
      refine .right _ (.right _ ?_)
      rw [hlock]
      exact hnext _
  | push hlock hahead hwait htrx hdepth hr hfirst =>
      simp only [Checker.isTooDeep, decide_eq_false_iff_not, not_or] at hdepth
      have hlt : maxSteps + 1 - (c.cost + 1) < maxSteps + 1 - c.cost := by omega
      exact .left _ _ hlt

variable (needOrdering weightGe sys start markStart) in
/-- The loop in `search`. -/
def searchLoop : Loop (Checker τ P) (Outcome τ × Checker τ P) (ℕ × ℕ × ℕ) where
  body := Checker.body needOrdering weightGe sys start markStart
  measure := Checker.measure
  down _ _ h := (round_of_body h).measure_lt

variable (needOrdering weightGe sys start) in
/-- `DeadlockChecker::search` for the transaction `start`, which wants to wait for `lock`, with what
`is_too_deep` says afterwards; the marks stay. -/
def search (lock : Ref τ P) : Outcome τ × Bool × LockSys τ P :=
  match sys.getFirstLock lock with
  | none => (.failed, false, sys)
  | some (heapNo, l, rest) =>
      let (outcome, c) := (searchLoop needOrdering weightGe sys start sys.lockMarkCounter).run
        ⟨lock, heapNo, l :: rest, [], 0, sys.deadlockMark, sys.lockMarkCounter⟩
      (outcome, c.isTooDeep,
        { sys with deadlockMark := c.mark, lockMarkCounter := c.lockMarkCounter })

variable (needOrdering weightGe) in
/-- The search changes nothing but marks. -/
lemma search_marks (sys : LockSys τ P) (start : τ) (lock : Ref τ P) :
    ∃ mark counter, (search needOrdering weightGe sys start lock).2.2 =
      { sys with deadlockMark := mark, lockMarkCounter := counter } := by
  unfold search
  split
  · exact ⟨sys.deadlockMark, sys.lockMarkCounter, rfl⟩
  · exact ⟨_, _, rfl⟩

end Search

/-! ## The path and the marks -/

section Path

variable [DecidableEq τ] (needOrdering : τ → τ → Bool) (sys : LockSys τ P) (start : τ)
  (lock₀ : Ref τ P) (visited : τ → Bool)

/-- The lock for which a transaction waits; `start` wants to wait for `lock₀`. -/
def lockOf (t : τ) : Option (Ref τ P) := if t = start then some lock₀ else sys.waitLock t

/-- The waits-for graph, with the transaction that wants to wait. -/
def Edge (a b : τ) : Prop :=
  ∃ r, lockOf sys start lock₀ a = some r ∧ r.BlockedBy needOrdering sys b

/-- The search is done with a transaction: it has been visited, or does not wait. -/
def Done (t : τ) : Prop := t ≠ start ∧ (visited t = true ∨ sys.waitLock t = none)

/-- The search has come to `rest` on the way to `r`, and is done with the locks before. -/
def Scanned (r : Ref τ P) (heapNo : ℕ) (rest : List (Lock τ)) : Prop :=
  r.lock.findSetBit = some heapNo ∧
  ∃ before mid, sys.page r.page = before ++ rest ∧ rest = mid ++ r.lock :: r.behind ∧
    ∀ l ∈ before, waitsFor needOrdering r.lock l = true → Done sys start visited l.trx

/-- The search looks at the lock `l`. -/
structure Cursor (r : Ref τ P) (heapNo : ℕ) (l : Lock τ) (rest : List (Lock τ)) : Prop where
  owner : visited r.lock.trx = false
  trx : visited l.trx = false
  bit : l.nthBit heapNo = true
  scanned : Scanned needOrdering sys start visited r heapNo (l :: rest)

/-- The search has left the lock of a frame, to come back. -/
structure Frame.Pending (f : Frame τ P) : Prop where
  owner : visited f.waitLock.lock.trx = false
  trx : f.lock.trx ≠ start
  ahead : f.rest.length ≠ f.waitLock.behind.length
  waits : waitsFor needOrdering f.waitLock.lock f.lock = true
  scanned : Scanned needOrdering sys start visited f.waitLock f.heapNo (f.lock :: f.rest)

/-- The stack is a path from `start` to the owner of `r`. -/
def Path : Ref τ P → List (Frame τ P) → Prop
  | r, [] => r = lock₀
  | r, f :: states =>
      sys.waitLock f.lock.trx = some r ∧ f.Pending needOrdering sys start visited ∧
        Path f.waitLock states

variable {needOrdering sys start lock₀ visited} {visited' : τ → Bool} {r : Ref τ P} {heapNo : ℕ}
  {l : Lock τ} {rest : List (Lock τ)} {states : List (Frame τ P)}

lemma Done.mono (hvisited : ∀ t, visited t = true → visited' t = true) {t : τ}
    (h : Done sys start visited t) : Done sys start visited' t :=
  ⟨h.1, h.2.imp_left (hvisited t)⟩

lemma Scanned.mono (hvisited : ∀ t, visited t = true → visited' t = true)
    (h : Scanned needOrdering sys start visited r heapNo rest) :
    Scanned needOrdering sys start visited' r heapNo rest := by
  obtain ⟨hbit, before, mid, hpage, hrest, hdone⟩ := h
  exact ⟨hbit, before, mid, hpage, hrest, fun l hl hw => (hdone l hl hw).mono hvisited⟩

/-- The lock that is looked at is ahead of the one that waits. -/
lemma Scanned.split (h : Scanned needOrdering sys start visited r heapNo (l :: rest))
    (hahead : rest.length ≠ r.behind.length) :
    ∃ before mid, sys.page r.page = (before ++ l :: mid) ++ r.lock :: r.behind ∧
      rest = mid ++ r.lock :: r.behind ∧
      ∀ x ∈ before, waitsFor needOrdering r.lock x = true → Done sys start visited x.trx := by
  obtain ⟨-, before, mid, hpage, hrest, hdone⟩ := h
  cases mid with
  | nil =>
      obtain ⟨-, rfl⟩ := List.cons.inj hrest
      exact absurd rfl hahead
  | cons x mid =>
      obtain ⟨rfl, rfl⟩ := List.cons.inj hrest
      exact ⟨before, mid, by simp [hpage], rfl, hdone⟩

lemma Scanned.blockedBy (h : Scanned needOrdering sys start visited r heapNo (l :: rest))
    (hahead : rest.length ≠ r.behind.length) (hwaits : waitsFor needOrdering r.lock l = true) :
    r.BlockedBy needOrdering sys l.trx := by
  obtain ⟨before, mid, hpage, -, -⟩ := h.split hahead
  exact ⟨_, hpage, l, by simp, hwaits, rfl⟩

/-- The search finds a next lock: it does not get past the one that waits. -/
lemma Scanned.next (h : Scanned needOrdering sys start visited r heapNo (l :: rest))
    (hahead : rest.length ≠ r.behind.length) (howner : visited r.lock.trx = false)
    (hstart : visited start = false)
    (hl : waitsFor needOrdering r.lock l = true → Done sys start visited l.trx) :
    ∃ l' rest', nextLock visited heapNo rest = l' :: rest' ∧
      Cursor needOrdering sys start visited r heapNo l' rest' := by
  obtain ⟨before, mid, hpage, rfl, hdone⟩ := h.split hahead
  have hrbit : r.lock.nthBit heapNo = true := List.find?_some h.1
  have hfound : nextLock visited heapNo (mid ++ r.lock :: r.behind)
      = mid.dropWhile (fun l => !(l.nthBit heapNo && !visited l.trx)) ++ r.lock :: r.behind :=
    dropWhile_append_cons (by simp [hrbit, howner]) _ _
  obtain ⟨l', rest', hnext⟩ : ∃ l' rest',
      nextLock visited heapNo (mid ++ r.lock :: r.behind) = l' :: rest' :=
    List.exists_cons_of_ne_nil (by simp [hfound])
  obtain ⟨hstop, skipped, hskip, hskipped⟩ := dropWhile_eq_cons hnext
  simp only [Bool.not_eq_false', Bool.and_eq_true, Bool.not_eq_true'] at hstop
  refine ⟨l', rest', hnext, howner, hstop.2, hstop.1, h.1, before ++ l :: skipped, _, ?_,
    hnext.symm.trans hfound, fun x hx hwaits => ?_⟩
  · rw [hpage, List.append_assoc, List.cons_append, hskip, List.append_assoc, List.cons_append]
  · rcases List.mem_append.mp hx with hx | hx
    · exact hdone x hx hwaits
    · rcases List.mem_cons.mp hx with rfl | hx
      · exact hl hwaits
      · -- the locks that were skipped are on other records, or visited
        rw [waitsFor_eq h.1, Bool.and_eq_true] at hwaits
        have hvisited : visited x.trx = true := by simpa [hwaits.1] using hskipped x hx
        refine ⟨?_, .inl hvisited⟩
        rintro hx
        rw [hx, hstart] at hvisited
        exact Bool.false_ne_true hvisited

variable (needOrdering start visited) in
/-- Where the search for a lock begins. -/
lemma LockSys.getFirstLock_some (hfirst : sys.getFirstLock r = some (heapNo, l, rest))
    (hr : ∃ ahead, sys.page r.page = ahead ++ r.lock :: r.behind) :
    l.nthBit heapNo = true ∧ rest.length ≠ r.behind.length ∧
      Scanned needOrdering sys start visited r heapNo (l :: rest) := by
  unfold getFirstLock at hfirst
  split at hfirst
  · cases hfirst
  · rename_i h hbit
    split at hfirst
    · cases hfirst
    · rename_i l₁ rest₁ hdrop
      split_ifs at hfirst with hassert
      obtain ⟨rfl, rfl, rfl⟩ : h = heapNo ∧ l₁ = l ∧ rest₁ = rest := by simpa using hfirst
      obtain ⟨hstop, skipped, hpage, hskipped⟩ := dropWhile_eq_cons hdrop
      obtain ⟨ahead, hahead⟩ := hr
      have hrbit : r.lock.nthBit h = true := List.find?_some hbit
      have hsplit := dropWhile_append_cons (p := fun l : Lock τ => !l.nthBit h)
        (a := r.lock) (by simp [hrbit]) ahead r.behind
      rw [← hahead, hdrop] at hsplit
      refine ⟨by simpa using hstop, fun hlen => hassert (.inr hlen), hbit, skipped, _, hpage,
        hsplit, fun x hx hwaits => ?_⟩
      rw [waitsFor_eq hbit, Bool.and_eq_true] at hwaits
      simpa [hwaits.1] using hskipped x hx

namespace Path

/-- The owner of the present lock waits for it. -/
lemma lockOf_eq (h : Path needOrdering sys start lock₀ visited r states)
    (h₀ : lock₀.lock.trx = start) : lockOf sys start lock₀ r.lock.trx = some r := by
  cases states with
  | nil =>
      obtain rfl : r = lock₀ := h
      exact if_pos h₀
  | cons f states =>
      obtain ⟨hr, hf, -⟩ := h
      rw [(LockSys.waitLock_some hr).1, lockOf, if_neg hf.trx, hr]

/-- `start` has not been visited as long as the owner of the present lock has not. -/
lemma start_fresh (h : Path needOrdering sys start lock₀ visited r states)
    (h₀ : lock₀.lock.trx = start) (howner : visited r.lock.trx = false) :
    visited start = false := by
  induction states generalizing r with
  | nil =>
      obtain rfl : r = lock₀ := h
      exact h₀ ▸ howner
  | cons f states ih => exact ih h.2.2 h.2.1.owner

/-- The path is one in the graph. -/
lemma reaches (h : Path needOrdering sys start lock₀ visited r states)
    (h₀ : lock₀.lock.trx = start) :
    ReflTransGen (Edge needOrdering sys start lock₀) start r.lock.trx := by
  induction states generalizing r with
  | nil =>
      obtain rfl : r = lock₀ := h
      rw [h₀]
  | cons f states ih =>
      obtain ⟨hr, hf, hpath⟩ := h
      refine (ih hpath).tail ⟨f.waitLock, hpath.lockOf_eq h₀, ?_⟩
      rw [(LockSys.waitLock_some hr).1]
      exact hf.scanned.blockedBy hf.ahead hf.waits

/-- If the path goes anywhere `start` is blocked. -/
lemma blocked (h : Path needOrdering sys start lock₀ visited r states) {b : τ}
    (hb : r.BlockedBy needOrdering sys b) : ∃ b', lock₀.BlockedBy needOrdering sys b' := by
  induction states generalizing r b with
  | nil =>
      obtain rfl : r = lock₀ := h
      exact ⟨b, hb⟩
  | cons f states ih =>
      exact ih h.2.2 (h.2.1.scanned.blockedBy h.2.1.ahead h.2.1.waits)

/-- A transaction all of whose blockers are done with is not on the path. -/
lemma ne_of_done (h : Path needOrdering sys start lock₀ visited r states)
    (h₀ : lock₀.lock.trx = start) (howner : visited r.lock.trx = false) {t : τ} {r' : Ref τ P}
    (ht : lockOf sys start lock₀ t = some r')
    (hdone : ∀ b, r'.BlockedBy needOrdering sys b → Done sys start visited b) :
    ∀ f ∈ states, f.waitLock.lock.trx ≠ t := by
  induction states generalizing r with
  | nil => exact fun f hf => absurd hf List.not_mem_nil
  | cons f states ih =>
      obtain ⟨hr, hf, hpath⟩ := h
      refine List.forall_mem_cons.mpr ⟨?_, ih hpath hf.owner⟩
      rintro rfl
      obtain rfl : f.waitLock = r' := Option.some.inj ((hpath.lockOf_eq h₀).symm.trans ht)
      rw [(LockSys.waitLock_some hr).1] at howner
      rcases (hdone _ (hf.scanned.blockedBy hf.ahead hf.waits)).2 with hvisited | hnone
      · exact Bool.false_ne_true (howner.symm.trans hvisited)
      · cases hr.symm.trans hnone

lemma fresh (h : Path needOrdering sys start lock₀ visited r states) :
    ∀ f ∈ states, visited f.waitLock.lock.trx = false := by
  induction states generalizing r with
  | nil => exact fun f hf => absurd hf List.not_mem_nil
  | cons f states ih => exact List.forall_mem_cons.mpr ⟨h.2.1.owner, ih h.2.2⟩

/-- More transactions have been visited, but none on the path. -/
lemma mono (h : Path needOrdering sys start lock₀ visited r states)
    (hvisited : ∀ t, visited t = true → visited' t = true)
    (hfresh : ∀ f ∈ states, visited' f.waitLock.lock.trx = false) :
    Path needOrdering sys start lock₀ visited' r states := by
  induction states generalizing r with
  | nil => exact h
  | cons f states ih =>
      obtain ⟨hr, hf, hpath⟩ := h
      obtain ⟨hself, hrest⟩ := List.forall_mem_cons.mp hfresh
      exact ⟨hr, ⟨hself, hf.trx, hf.ahead, hf.waits, hf.scanned.mono hvisited⟩, ih hpath hrest⟩

end Path

end Path

/-! ## The invariant of the search -/

section Searching

variable [DecidableEq τ] (needOrdering : τ → τ → Bool) (sys : LockSys τ P) (start : τ)
  (lock₀ : Ref τ P) (markStart : ℕ)

/-- The stack is a path from `start`, and what has been visited does not lead back to `start`. -/
structure Searching (c : Checker τ P) : Prop where
  path : Path needOrdering sys start lock₀ (c.isVisited markStart) c.waitLock c.states
  done : ∀ t, c.isVisited markStart t = true → ∀ b, Edge needOrdering sys start lock₀ t b →
    Done sys start (c.isVisited markStart) b
  counter : markStart ≤ c.lockMarkCounter
  marks : ∀ t, c.mark t ≤ c.lockMarkCounter
  null : c.lock = [] → c.isVisited markStart c.waitLock.lock.trx = true
  cursor : ∀ l rest, c.lock = l :: rest →
    Cursor needOrdering sys start (c.isVisited markStart) c.waitLock c.heapNo l rest

/-- What an outcome says about a graph. -/
def Outcome.Says (E : τ → τ → Prop) (start : τ) : Outcome τ → Prop
  | .noDeadlock => ¬ TransGen E start start
  | .victim v => ReflTransGen E start v ∧ TransGen E v start
  | .tooDeep => ∃ b, E start b
  | .failed => False

variable {needOrdering sys start lock₀ markStart} {weightGe : τ → τ → Bool} {c c' : Checker τ P}
  {l : Lock τ} {rest : List (Lock τ)} {outcome : Outcome τ}

/-- The search has come to another lock, and nobody has been marked. -/
lemma Searching.of_cursor (h : Searching needOrdering sys start lock₀ markStart c)
    (hmark : c'.mark = c.mark) (hcounter : c'.lockMarkCounter = c.lockMarkCounter)
    (hpath : Path needOrdering sys start lock₀ (c.isVisited markStart) c'.waitLock c'.states)
    (hlock : c'.lock = l :: rest)
    (hcursor : Cursor needOrdering sys start (c.isVisited markStart) c'.waitLock c'.heapNo l rest) :
    Searching needOrdering sys start lock₀ markStart c' := by
  have hvisited : c'.isVisited markStart = c.isVisited markStart := by
    funext t
    rw [Checker.isVisited, hmark]
    rfl
  refine ⟨hvisited ▸ hpath, hvisited ▸ h.done, hcounter ▸ h.counter, ?_, ?_, ?_⟩
  · rw [hmark, hcounter]
    exact h.marks
  · rw [hlock]
    exact fun hnil => absurd hnil (List.cons_ne_nil l rest)
  · intro l' rest' hlock'
    obtain ⟨rfl, rfl⟩ := List.cons.inj (hlock.symm.trans hlock')
    exact hvisited ▸ hcursor

/-- The owner of the present lock is marked. -/
lemma Searching.markWaitLock (h : Searching needOrdering sys start lock₀ markStart c)
    (h₀ : lock₀.lock.trx = start) (hlock : c.lock = l :: rest)
    (hlast : rest.length = c.waitLock.behind.length) :
    Searching needOrdering sys start lock₀ markStart c.markWaitLock := by
  have hcursor := h.cursor l rest hlock
  have hself := h.path.lockOf_eq h₀
  -- all blockers are done with
  have hblockers : ∀ b, c.waitLock.BlockedBy needOrdering sys b →
      Done sys start (c.isVisited markStart) b := by
    obtain ⟨-, before, mid, hpage, hrest, hdone⟩ := hcursor.scanned
    have hmid : mid = [] := by
      have hlen := congrArg List.length hrest
      simp only [List.length_cons, List.length_append, hlast] at hlen
      exact List.length_eq_zero_iff.mp (by omega)
    rintro b ⟨ahead, hpage', x, hx, hwaits, rfl⟩
    rw [hrest, hmid, List.nil_append, hpage'] at hpage
    exact hdone x (List.append_cancel_right hpage ▸ hx) hwaits
  have hvisited : ∀ t, c.markWaitLock.isVisited markStart t = true ↔
      t = c.waitLock.lock.trx ∨ c.isVisited markStart t = true := by
    intro t
    have hcounter := h.counter
    simp only [Checker.isVisited, Checker.markWaitLock, decide_eq_true_eq, Function.update_apply]
    split_ifs with ht
    · simp only [ht, true_or, iff_true]
      omega
    · simp only [ht, false_or]
  have hmono : ∀ t, c.isVisited markStart t = true → c.markWaitLock.isVisited markStart t = true :=
    fun t ht => (hvisited t).mpr (.inr ht)
  refine ⟨h.path.mono hmono fun f hf => ?_, fun t ht b hb => ?_, ?_, fun t => ?_, fun _ => ?_,
    nofun⟩
  · rw [Bool.eq_false_iff, ne_eq, hvisited, not_or]
    exact ⟨h.path.ne_of_done h₀ hcursor.owner hself hblockers f hf,
      Bool.eq_false_iff.mp (h.path.fresh f hf)⟩
  · rcases (hvisited t).mp ht with rfl | ht
    · obtain ⟨r, hr, hblocked⟩ := hb
      obtain rfl : c.waitLock = r := Option.some.inj (hself.symm.trans hr)
      exact (hblockers b hblocked).mono hmono
    · exact (h.done t ht b hb).mono hmono
  · exact h.counter.trans (Nat.le_succ _)
  · simp only [Checker.markWaitLock, Function.update_apply]
    split_ifs
    · exact le_rfl
    · exact (h.marks t).trans (Nat.le_succ _)
  · exact (hvisited _).mpr (.inl rfl)

/-- **A round keeps the invariant.** -/
theorem Searching.round (h : Searching needOrdering sys start lock₀ markStart c)
    (h₀ : lock₀.lock.trx = start) (hround : Round needOrdering sys start markStart c c') :
    Searching needOrdering sys start lock₀ markStart c' := by
  cases hround with
  | @pop f states hlock hstates =>
      have hpath := h.path
      rw [hstates] at hpath
      obtain ⟨hr, hf, hpath⟩ := hpath
      have hvisited := h.null hlock
      rw [(LockSys.waitLock_some hr).1] at hvisited
      obtain ⟨l, rest, hnext, hcursor⟩ := hf.scanned.next hf.ahead hf.owner
        (hpath.start_fresh h₀ hf.owner) fun _ => ⟨hf.trx, .inl hvisited⟩
      exact h.of_cursor rfl rfl hpath hnext hcursor
  | mark hlock hlast => exact h.markWaitLock h₀ hlock hlast
  | @next l rest hlock hahead hwhy =>
      have hcursor := h.cursor l rest hlock
      have hdone : waitsFor needOrdering c.waitLock.lock l = true →
          Done sys start (c.isVisited markStart) l.trx := by
        rw [waitsFor_eq hcursor.scanned.1, Bool.and_eq_true]
        rintro ⟨-, hwait⟩
        exact ⟨(hwhy hwait).1, .inr (hwhy hwait).2⟩
      obtain ⟨l', rest', hnext, hcursor'⟩ := hcursor.scanned.next hahead hcursor.owner
        (h.path.start_fresh h₀ hcursor.owner) hdone
      exact h.of_cursor rfl rfl h.path hnext hcursor'
  | @push l rest r heapNo l' rest' hlock hahead hwait htrx hdepth hr hfirst =>
      have hcursor := h.cursor l rest hlock
      have hstart := h.path.start_fresh h₀ hcursor.owner
      obtain ⟨hrtrx, -, hrpage⟩ := LockSys.waitLock_some hr
      have howner : c.isVisited markStart r.lock.trx = false := hrtrx ▸ hcursor.trx
      obtain ⟨hbit, hahead', hscanned⟩ := LockSys.getFirstLock_some needOrdering start
        (c.isVisited markStart) hfirst hrpage
      have hwaits : waitsFor needOrdering c.waitLock.lock l = true := by
        rw [waitsFor_eq hcursor.scanned.1, hcursor.bit, hwait]
        rfl
      have hpath : Path needOrdering sys start lock₀ (c.isVisited markStart) r
          (⟨l, rest, c.waitLock, c.heapNo⟩ :: c.states) :=
        ⟨hr, ⟨hcursor.owner, htrx, hahead, hwaits, hcursor.scanned⟩, h.path⟩
      by_cases hvisited : c.isVisited markStart l'.trx = true
      · have hne : l'.trx ≠ start := by
          rintro heq
          rw [heq, hstart] at hvisited
          exact Bool.false_ne_true hvisited
        obtain ⟨l'', rest'', hnext, hcursor'⟩ := hscanned.next hahead' howner hstart
          fun _ => ⟨hne, .inl hvisited⟩
        exact h.of_cursor rfl rfl hpath ((if_pos hvisited).trans hnext) hcursor'
      · exact h.of_cursor rfl rfl hpath (if_neg hvisited)
          ⟨howner, Bool.eq_false_of_not_eq_true hvisited, hbit, hscanned⟩

/-- The search for a lock begins if there is another one on the record ahead of it. -/
lemma Coherent.getFirstLock_of_ahead (h : Coherent needOrdering sys) {r : Ref τ P}
    {ahead : List (Lock τ)} {heapNo : ℕ} (hpage : sys.page r.page = ahead ++ r.lock :: r.behind)
    (hone : r.lock.OnlyFor heapNo) (hahead : ∃ x ∈ ahead, x.nthBit heapNo = true) :
    (sys.getFirstLock r).isSome := by
  have hinv := h.page r.page
  have hrbit : r.lock.nthBit heapNo = true := (hone heapNo).mpr rfl
  have hdrop := dropWhile_append_cons (p := fun l : Lock τ => !l.nthBit heapNo) (a := r.lock)
    (by simp [hrbit]) ahead r.behind
  rw [← hpage] at hdrop
  obtain ⟨l, rest, hfound⟩ : ∃ l rest,
      (sys.page r.page).dropWhile (fun l => !l.nthBit heapNo) = l :: rest :=
    List.exists_cons_of_ne_nil (by simp [hdrop])
  obtain ⟨hstop, skipped, hsplit, hskipped⟩ := dropWhile_eq_cons hfound
  have hbit : l.nthBit heapNo = true := by simpa using hstop
  have hgranted : l.wait = false := by
    rw [hsplit] at hinv
    exact hinv.first_granted hbit fun x hx => by simpa using hskipped x hx
  have hother : rest.length ≠ r.behind.length := by
    intro hlen
    rw [hfound] at hdrop
    have hnil : ahead.dropWhile (fun l => !l.nthBit heapNo) = [] := by
      have := congrArg List.length hdrop
      simp only [List.length_cons, List.length_append, hlen] at this
      exact List.length_eq_zero_iff.mp (by omega)
    obtain ⟨x, hx, hxbit⟩ := hahead
    simpa [hxbit] using List.dropWhile_eq_nil_iff.mp hnil x hx
  simp [LockSys.getFirstLock, hone.findSetBit, hfound, hgranted, hother]

/-- Who waits stands behind a lock on the record. -/
lemma Coherent.getFirstLock_isSome (h : Coherent needOrdering sys) {t : τ} {r : Ref τ P}
    (hr : sys.waitLock t = some r) : (sys.getFirstLock r).isSome := by
  obtain ⟨-, hwait, ahead, hpage⟩ := LockSys.waitLock_some hr
  have hinv := h.page r.page
  obtain ⟨heapNo, hone⟩ := hinv.onlyFor r.lock (by simp [hpage]) hwait
  refine h.getFirstLock_of_ahead hpage hone ?_
  rw [hpage] at hinv
  obtain ⟨x, hx, hwaits⟩ := hinv.justified.exists_ahead hwait
  have hboth : waitsFor needOrdering r.lock x = true := hwaits
  rw [waitsFor_eq hone.findSetBit, Bool.and_eq_true] at hboth
  exact ⟨x, hx, hboth.1⟩

/-- **The last round.** -/
lemma Searching.ends (h : Searching needOrdering sys start lock₀ markStart c)
    (h₀ : lock₀.lock.trx = start) (hsys : Coherent needOrdering sys)
    (hends : Ends needOrdering weightGe sys start c outcome) :
    outcome.Says (Edge needOrdering sys start lock₀) start := by
  have hlock₀ : lockOf sys start lock₀ start = some lock₀ := if_pos rfl
  -- a lock for which the present one has to wait is an edge
  have hedge : ∀ {l rest}, c.lock = l :: rest → rest.length ≠ c.waitLock.behind.length →
      hasToWait needOrdering c.waitLock.lock l = true →
      c.waitLock.BlockedBy needOrdering sys l.trx := by
    intro l rest hlock hahead hwait
    have hcursor := h.cursor l rest hlock
    refine hcursor.scanned.blockedBy hahead ?_
    rw [waitsFor_eq hcursor.scanned.1, hcursor.bit, hwait]
    rfl
  cases hends with
  | noDeadlock hlock hstates =>
      have hpath := h.path
      rw [hstates] at hpath
      have hvisited := h.null hlock
      rw [show c.waitLock = lock₀ from hpath, h₀] at hvisited
      refine Acyclic.not_transGen_of_closed
        (S := {t | Done sys start (c.isVisited markStart) t}) (h.done start hvisited) ?_
        fun hstart => hstart.1 rfl
      rintro a ⟨hne, hvisited | hnone⟩ b hab
      · exact h.done a hvisited b hab
      · obtain ⟨r, hr, -⟩ := hab
        rw [lockOf, if_neg hne, hnone] at hr
        cases hr
  | victim hlock hahead hwait htrx =>
      have hblocked := hedge hlock hahead hwait
      rw [htrx] at hblocked
      have hback : Edge needOrdering sys start lock₀ c.waitLock.lock.trx start :=
        ⟨c.waitLock, h.path.lockOf_eq h₀, hblocked⟩
      have hpath := h.path.reaches h₀
      unfold Checker.selectVictim
      split_ifs
      · exact ⟨.refl, TransGen.tail' hpath hback⟩
      · exact ⟨hpath, .single hback⟩
  | tooDeep hlock hahead hwait =>
      obtain ⟨b, hb⟩ := h.path.blocked (hedge hlock hahead hwait)
      exact ⟨b, lock₀, hlock₀, hb⟩
  | failed hlock hr hfirst =>
      have hsome := hsys.getFirstLock_isSome hr
      rw [hfirst] at hsome
      exact absurd hsome Bool.false_ne_true

variable (weightGe) in
/-- **The search is right about the graph**, and leaves nothing behind but marks. -/
theorem search_outcome (hsys : Coherent needOrdering sys) (h₀ : lock₀.lock.trx = start)
    (hpage : ∃ ahead, sys.page lock₀.page = ahead ++ lock₀.lock :: lock₀.behind)
    (hfirst : (sys.getFirstLock lock₀).isSome) :
    (search needOrdering weightGe sys start lock₀).1.Says
      (Edge needOrdering sys start lock₀) start ∧
      ∃ mark counter, (∀ t, mark t ≤ counter) ∧
        (search needOrdering weightGe sys start lock₀).2.2 =
          { sys with deadlockMark := mark, lockMarkCounter := counter } := by
  obtain ⟨⟨heapNo, l, rest⟩, hfirst⟩ := Option.isSome_iff_exists.mp hfirst
  have hfresh : ∀ t, ¬ sys.lockMarkCounter < sys.deadlockMark t := fun t => (hsys.marks t).not_gt
  let c₀ : Checker τ P := ⟨lock₀, heapNo, l :: rest, [], 0, sys.deadlockMark, sys.lockMarkCounter⟩
  have hvisited : ∀ t, c₀.isVisited sys.lockMarkCounter t = false := fun t =>
    decide_eq_false (hfresh t)
  have hstart : Searching needOrdering sys start lock₀ sys.lockMarkCounter c₀ := by
    obtain ⟨hbit, -, hscanned⟩ := LockSys.getFirstLock_some needOrdering start
      (c₀.isVisited sys.lockMarkCounter) hfirst hpage
    refine ⟨rfl, fun t ht => ?_, le_rfl, hsys.marks, nofun, fun l' rest' hlock => ?_⟩
    · rw [hvisited] at ht
      exact absurd ht Bool.false_ne_true
    · obtain ⟨rfl, rfl⟩ := List.cons.inj hlock
      exact ⟨hvisited _, hvisited _, hbit, hscanned⟩
  obtain ⟨c, hc, hlast⟩ :=
    (searchLoop needOrdering weightGe sys start sys.lockMarkCounter).exists_last
    (fun c c' hc hbody => hc.round h₀ (round_of_body hbody)) hstart
  obtain ⟨heq, hends⟩ := ends_of_body hlast
  have hrun : search needOrdering weightGe sys start lock₀ =
      (((searchLoop needOrdering weightGe sys start sys.lockMarkCounter).run c₀).1, c.isTooDeep,
        { sys with deadlockMark := c.mark, lockMarkCounter := c.lockMarkCounter }) := by
    simp only [search, hfirst, ← heq]
    rfl
  rw [hrun]
  exact ⟨hc.ends h₀ hsys hends, c.mark, c.lockMarkCounter, hc.marks, rfl⟩

/-- If `start` waits already the graph is the waits-for graph. -/
lemma edge_eq (hlock : sys.waitLock start = some lock₀) :
    Edge needOrdering sys start lock₀ = WaitsFor needOrdering sys := by
  have hlockOf : lockOf sys start lock₀ = sys.waitLock := by
    funext t
    unfold lockOf
    split_ifs with ht
    · rw [ht, hlock]
    · rfl
  funext a b
  rw [Edge, hlockOf]
  rfl

/-- **The search is exact.**  Unless it gets too deep it finds a deadlock if and only if there is
one, and the victim is on a cycle with the transaction that has to wait. -/
theorem search_exact (hsys : Coherent needOrdering sys) (hlock : sys.waitLock start = some lock₀) :
    (search needOrdering weightGe sys start lock₀).1.Says (WaitsFor needOrdering sys) start := by
  obtain ⟨h₀, -, hpage⟩ := LockSys.waitLock_some hlock
  rw [← edge_eq hlock]
  exact (search_outcome weightGe hsys h₀ hpage (hsys.getFirstLock_isSome hlock)).1

/-- Two transactions: each has been granted the record `2` of its own page, and waits for that of
the other one. -/
def twoWaiters : LockSys Bool Bool where
  page pg := [lockAlloc pg (.of .x .recNotGap) 2 4 false,
    lockAlloc (!pg) (.of .x .recNotGap) 2 4 true]
  waitPage t := some !t
  deadlockMark _ := 0
  lockMarkCounter := 0

lemma coherent_twoWaiters : Coherent (fun _ _ => true) twoWaiters where
  page pg := inv_of_reachable (by
    cases pg with
    | false =>
        exact .step (a := .lock true false .x .recNotGap 2 4 false)
          (.step (a := .lock false false .x .recNotGap 2 4 false) (.init rfl) trivial rfl)
          trivial rfl
    | true =>
        exact .step (a := .lock false false .x .recNotGap 2 4 false)
          (.step (a := .lock true false .x .recNotGap 2 4 false) (.init rfl) trivial rfl)
          trivial rfl)
  waits pg l hl hw := by
    simp only [twoWaiters, List.mem_cons, List.not_mem_nil, or_false] at hl
    rcases hl with rfl | rfl
    · cases hw
    · simp [twoWaiters, lockAlloc]
  once pg := by simp [twoWaiters, lockAlloc]
  waiting t pg ht := by
    simp only [twoWaiters, Option.some.injEq] at ht
    subst ht
    refine ⟨lockAlloc t (.of .x .recNotGap) 2 4 true, ?_, rfl, rfl⟩
    simp [twoWaiters]
  marks _ := le_rfl

/-- The search finds the deadlock of the two. -/
theorem search_exact_two_waiters :
    ∃ lock₀, twoWaiters.waitLock true = some lock₀ ∧
      (search (fun _ _ => true) (fun _ _ => true) twoWaiters true lock₀).1 = .victim true ∧
      (search (fun _ _ => true) (fun _ _ => true) twoWaiters true lock₀).1.Says
        (WaitsFor (fun _ _ => true) twoWaiters) true := by
  refine ⟨⟨false, lockAlloc true (.of .x .recNotGap) 2 4 true, []⟩, rfl, ?_,
    search_exact coherent_twoWaiters rfl⟩
  have hrun := (searchLoop (fun _ _ => true) (fun _ _ => true) twoWaiters true 0).run_of_rounds
    (n := 8) (s := ⟨⟨false, lockAlloc true (.of .x .recNotGap) 2 4 true, []⟩, 2,
      twoWaiters.page false, [], 0, fun _ => 0, 0⟩) rfl
  exact congrArg Prod.fst hrun

end Searching

end Multicore.Project4.RecordLocks
