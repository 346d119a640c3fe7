import Multicore.Lib.Machine

/-!
# Record locks without a mutex

The changes that `project4` makes to `storage/innobase/lock/lock0lock.cc`.  The locks of a hash
cell form a list from `cell->head` along `lock->hash`.  A lock is inserted by swapping
`cell->tail` and then storing the link to it (`project4_lock_rec_insert_to_tail`).  It is removed
in two parts: its transaction walks to it and sets `lock->state` to false
(`project4_lock_rec_dequeue_from_page`), and any later walk that meets such a *marked* lock unlinks
it with a compare-and-swap and appends it to `lock_sys->gclist`, where it waits for being freed.

This module has the memory and the two routines, one load, store or read-modify-write operation a
step.  The systems that use them (one cell; many cells with transactions that start and commit; the
garbage list) are in the modules that follow.

* `Mem` — the memory.  Locks are numbered in the order in which they are allocated; only the
  transactions of `Trx` use the number of a freed lock again.
* `Mem.insertTas`, `Mem.insertLink` — the two steps of an insert.
* `Walk`, `walkStep` — the program counter of a dequeue, with its local variables, and its steps.
  A failed `ut_a` and the use of a null pointer are `Walk.failed`.
* `WStep` — the same as a relation, one case per outcome of a step (`wstep_of_walkStep`).

Left out is what follows the walk in `project4_lock_rec_dequeue_from_page`: a pass over the locks in
the other chain of the cell, from `cell->node`, which grants those that need not wait any more.
-/

namespace Multicore.Project4

/-! ## The memory -/

/-- The memory; `ι` indexes the cells of the hash table.  The last three fields are history: no step
of the code reads them. -/
structure Mem (ι : Type*) where
  /-- `lock->hash` -/
  hash : ℕ → Option ℕ
  /-- `lock->state`: false for a lock that is logically deleted -/
  state : ℕ → Bool
  /-- `lock->gc_hash` -/
  gcHash : ℕ → Option ℕ
  /-- `lock->timestamp` -/
  timestamp : ℕ → ℕ
  /-- `cell->head` -/
  head : ι → Option ℕ
  /-- `cell->tail` -/
  tail : ι → Option ℕ
  /-- `lock_sys->gclist->head` -/
  gcHead : Option ℕ
  /-- `lock_sys->gclist->tail` -/
  gcTail : Option ℕ
  /-- `trx_sys->timestamp` -/
  sysTimestamp : ℕ
  /-- the number of locks allocated so far -/
  fresh : ℕ
  /-- the locks that a compare-and-swap has taken out of their cell -/
  unlinked : ℕ → Bool
  /-- the locks in the order in which they were appended to the garbage list -/
  appended : List ℕ
  /-- the locks for which `ut_free` has been called -/
  freed : ℕ → Bool

variable {ι : Type*} [DecidableEq ι]

/-- The memory at the start: no locks, and `trx_sys->timestamp` is `1`. -/
def Mem.start : Mem ι where
  hash _ := none
  state _ := true
  gcHash _ := none
  timestamp _ := 0
  head _ := none
  tail _ := none
  gcHead := none
  gcTail := none
  sysTimestamp := 1
  fresh := 0
  unlinked _ := false
  appended := []
  freed _ := false

namespace Mem

/-- A lock is allocated with the timestamp of its transaction and swapped into `cell->tail`.  Its
other fields are those of an address that was never used. -/
def insertTas (m : Mem ι) (i : ι) (trxTimestamp : ℕ) : Mem ι :=
  { m with
    timestamp := Function.update m.timestamp m.fresh trxTimestamp
    tail := Function.update m.tail i (some m.fresh)
    fresh := m.fresh + 1 }

/-- The link to the new lock is stored, in its predecessor or in `cell->head`. -/
def insertLink (m : Mem ι) (i : ι) (l : ℕ) : Option ℕ → Mem ι
  | none => { m with head := Function.update m.head i (some l) }
  | some oldTail => { m with hash := Function.update m.hash oldTail (some l) }

/-- A successful compare-and-swap of `cell->head`. -/
def unlinkHead (m : Mem ι) (i : ι) (cur : ℕ) (v : Option ℕ) : Mem ι :=
  { m with head := Function.update m.head i v, unlinked := Function.update m.unlinked cur true }

/-- A successful compare-and-swap of `cur_lock->hash`. -/
def unlinkNext (m : Mem ι) (cur next : ℕ) (v : Option ℕ) : Mem ι :=
  { m with hash := Function.update m.hash cur v, unlinked := Function.update m.unlinked next true }

/-- The swap of `gclist->tail`. -/
def gcAppend (m : Mem ι) (x : ℕ) : Mem ι :=
  { m with gcTail := some x, appended := m.appended ++ [x] }

/-- `lock->timestamp = ts` -/
def setTimestamp (m : Mem ι) (x ts : ℕ) : Mem ι :=
  { m with timestamp := Function.update m.timestamp x ts }

/-- The link to an appended lock is stored, in its predecessor or in `gclist->head`. -/
def gcLink (m : Mem ι) (x : ℕ) : Option ℕ → Mem ι
  | none => { m with gcHead := some x }
  | some oldTail => { m with gcHash := Function.update m.gcHash oldTail (some x) }

/-- `lock->state = false` -/
def mark (m : Mem ι) (l : ℕ) : Mem ι := { m with state := Function.update m.state l false }

end Mem

/-! ## The walk -/

/-- Where a thread stands in `project4_lock_rec_dequeue_from_page`; `cur` and `next` are
`cur_lock` and `next_lock`. -/
inductive Walk
  /-- `cur_lock = cell->head; ut_a(cur_lock);` -/
  | start
  /-- `while (!cur_lock->state)` -/
  | test (cur : ℕ)
  /-- the load of `cur_lock->hash` for the compare-and-swap of `cell->head` -/
  | headHash (cur : ℕ)
  | headCas (cur : ℕ) (v : Option ℕ)
  /-- the swap of `gclist->tail` for the lock `x`; `mid` tells the two loops apart -/
  | append (x cur : ℕ) (mid : Bool)
  /-- the load of `trx_sys->timestamp` -/
  | clock (x : ℕ) (oldTail : Option ℕ) (cur : ℕ) (mid : Bool)
  /-- the store of `x->timestamp` -/
  | stamp (x : ℕ) (oldTail : Option ℕ) (cur : ℕ) (mid : Bool) (ts : ℕ)
  /-- the store of `gclist->head` or `old_gclist_tail->gc_hash` -/
  | gcLink (x : ℕ) (oldTail : Option ℕ) (cur : ℕ) (mid : Bool)
  /-- `cur_lock = cell->head;` at the end of the first loop -/
  | reload (cur : ℕ)
  /-- `while (cur_lock != in_lock) { next_lock = cur_lock->hash; ut_a(next_lock);` -/
  | next (cur : ℕ)
  /-- `if (!cur_lock->state)` -/
  | curState (cur next : ℕ)
  /-- `if (next_lock->state)` -/
  | nextState (cur next : ℕ)
  /-- `while (next_lock->hash == NULL &&` -/
  | waitHash (cur next : ℕ)
  /-- `cell->tail != next_lock);` -/
  | waitTail (cur next : ℕ)
  /-- the load of `next_lock->hash` for the compare-and-swap of `cur_lock->hash` -/
  | midHash (cur next : ℕ)
  | midCas (cur next : ℕ) (v : Option ℕ)
  /-- the lock has been found and marked -/
  | done
  /-- an assertion has failed, or a null pointer has been used -/
  | failed
  deriving DecidableEq

/-- One step of the walk to the lock `l` of cell `i`. -/
def walkStep (i : ι) (l : ℕ) (m : Mem ι) : Walk → Option (Mem ι × Walk)
  | .start =>
      match m.head i with
      | none => some (m, .failed)
      | some cur => some (m, .test cur)
  | .test cur => if m.state cur then some (m, .next cur) else some (m, .headHash cur)
  | .headHash cur => some (m, .headCas cur (m.hash cur))
  | .headCas cur v =>
      if m.head i = some cur then some (m.unlinkHead i cur v, .append cur cur false)
      else some (m, .reload cur)
  | .append x cur mid => some (m.gcAppend x, .clock x m.gcTail cur mid)
  | .clock x oldTail cur mid => some (m, .stamp x oldTail cur mid m.sysTimestamp)
  | .stamp x oldTail cur mid ts => some (m.setTimestamp x ts, .gcLink x oldTail cur mid)
  | .gcLink x oldTail cur mid =>
      some (m.gcLink x oldTail, if mid then .next cur else .reload cur)
  | .reload _ =>
      match m.head i with
      | none => some (m, .failed)
      | some cur => some (m, .test cur)
  | .next cur =>
      if cur = l then some (m.mark l, .done)
      else
        match m.hash cur with
        | none => some (m, .failed)
        | some next => some (m, .curState cur next)
  | .curState cur next =>
      if m.state cur then some (m, .nextState cur next) else some (m, .next next)
  | .nextState cur next =>
      if m.state next then some (m, .next next) else some (m, .waitHash cur next)
  | .waitHash cur next =>
      match m.hash next with
      | none => some (m, .waitTail cur next)
      | some _ => some (m, .midHash cur next)
  | .waitTail cur next =>
      if m.tail i = some next then some (m, .midHash cur next) else some (m, .waitHash cur next)
  | .midHash cur next => some (m, .midCas cur next (m.hash next))
  | .midCas cur next v =>
      if m.hash cur = some next then some (m.unlinkNext cur next v, .append next cur true)
      else some (m, .next cur)
  | .done => none
  | .failed => none

/-- What one step of the walk can do, one case per outcome. -/
inductive WStep (i : ι) (l : ℕ) (m : Mem ι) : Walk → Mem ι → Walk → Prop
  | startNull (h : m.head i = none) : WStep i l m .start m .failed
  | start (cur : ℕ) (h : m.head i = some cur) : WStep i l m .start m (.test cur)
  | testAlive (cur : ℕ) (h : m.state cur = true) : WStep i l m (.test cur) m (.next cur)
  | testMarked (cur : ℕ) (h : m.state cur = false) : WStep i l m (.test cur) m (.headHash cur)
  | headHash (cur : ℕ) : WStep i l m (.headHash cur) m (.headCas cur (m.hash cur))
  | headCas (cur : ℕ) (v : Option ℕ) (h : m.head i = some cur) :
      WStep i l m (.headCas cur v) (m.unlinkHead i cur v) (.append cur cur false)
  | headCasFails (cur : ℕ) (v : Option ℕ) (h : m.head i ≠ some cur) :
      WStep i l m (.headCas cur v) m (.reload cur)
  | append (x cur : ℕ) (mid : Bool) :
      WStep i l m (.append x cur mid) (m.gcAppend x) (.clock x m.gcTail cur mid)
  | clock (x : ℕ) (oldTail : Option ℕ) (cur : ℕ) (mid : Bool) :
      WStep i l m (.clock x oldTail cur mid) m (.stamp x oldTail cur mid m.sysTimestamp)
  | stamp (x : ℕ) (oldTail : Option ℕ) (cur : ℕ) (mid : Bool) (ts : ℕ) :
      WStep i l m (.stamp x oldTail cur mid ts) (m.setTimestamp x ts) (.gcLink x oldTail cur mid)
  | gcLinkHead (x : ℕ) (oldTail : Option ℕ) (cur : ℕ) :
      WStep i l m (.gcLink x oldTail cur false) (m.gcLink x oldTail) (.reload cur)
  | gcLinkMid (x : ℕ) (oldTail : Option ℕ) (cur : ℕ) :
      WStep i l m (.gcLink x oldTail cur true) (m.gcLink x oldTail) (.next cur)
  | reloadNull (cur : ℕ) (h : m.head i = none) : WStep i l m (.reload cur) m .failed
  | reload (cur cur' : ℕ) (h : m.head i = some cur') : WStep i l m (.reload cur) m (.test cur')
  | mark : WStep i l m (.next l) (m.mark l) .done
  | nextNull (cur : ℕ) (hne : cur ≠ l) (h : m.hash cur = none) :
      WStep i l m (.next cur) m .failed
  | next (cur next : ℕ) (hne : cur ≠ l) (h : m.hash cur = some next) :
      WStep i l m (.next cur) m (.curState cur next)
  | curAlive (cur next : ℕ) (h : m.state cur = true) :
      WStep i l m (.curState cur next) m (.nextState cur next)
  | curMarked (cur next : ℕ) (h : m.state cur = false) :
      WStep i l m (.curState cur next) m (.next next)
  | nextAlive (cur next : ℕ) (h : m.state next = true) :
      WStep i l m (.nextState cur next) m (.next next)
  | nextMarked (cur next : ℕ) (h : m.state next = false) :
      WStep i l m (.nextState cur next) m (.waitHash cur next)
  | waitNull (cur next : ℕ) (h : m.hash next = none) :
      WStep i l m (.waitHash cur next) m (.waitTail cur next)
  | waitHash (cur next v : ℕ) (h : m.hash next = some v) :
      WStep i l m (.waitHash cur next) m (.midHash cur next)
  | waitTail (cur next : ℕ) (h : m.tail i = some next) :
      WStep i l m (.waitTail cur next) m (.midHash cur next)
  | waitAgain (cur next : ℕ) (h : m.tail i ≠ some next) :
      WStep i l m (.waitTail cur next) m (.waitHash cur next)
  | midHash (cur next : ℕ) : WStep i l m (.midHash cur next) m (.midCas cur next (m.hash next))
  | midCas (cur next : ℕ) (v : Option ℕ) (h : m.hash cur = some next) :
      WStep i l m (.midCas cur next v) (m.unlinkNext cur next v) (.append next cur true)
  | midCasFails (cur next : ℕ) (v : Option ℕ) (h : m.hash cur ≠ some next) :
      WStep i l m (.midCas cur next v) m (.next cur)

/-- Every step of the walk is one of these. -/
theorem wstep_of_walkStep {i : ι} {l : ℕ} {m m' : Mem ι} {w w' : Walk}
    (h : walkStep i l m w = some (m', w')) : WStep i l m w m' w' := by
  cases w with
  | start =>
      cases hh : m.head i with
      | none =>
          simp only [walkStep, hh, Option.some.injEq, Prod.mk.injEq] at h
          obtain ⟨rfl, rfl⟩ := h
          exact .startNull hh
      | some cur =>
          simp only [walkStep, hh, Option.some.injEq, Prod.mk.injEq] at h
          obtain ⟨rfl, rfl⟩ := h
          exact .start cur hh
  | test cur =>
      simp only [walkStep] at h
      split_ifs at h with hs <;> simp only [Option.some.injEq, Prod.mk.injEq] at h <;>
        obtain ⟨rfl, rfl⟩ := h
      · exact .testAlive cur hs
      · exact .testMarked cur (by simpa using hs)
  | headHash cur =>
      simp only [walkStep, Option.some.injEq, Prod.mk.injEq] at h
      obtain ⟨rfl, rfl⟩ := h
      exact .headHash cur
  | headCas cur v =>
      simp only [walkStep] at h
      split_ifs at h with hs <;> simp only [Option.some.injEq, Prod.mk.injEq] at h <;>
        obtain ⟨rfl, rfl⟩ := h
      · exact .headCas cur v hs
      · exact .headCasFails cur v hs
  | append x cur mid =>
      simp only [walkStep, Option.some.injEq, Prod.mk.injEq] at h
      obtain ⟨rfl, rfl⟩ := h
      exact .append x cur mid
  | clock x oldTail cur mid =>
      simp only [walkStep, Option.some.injEq, Prod.mk.injEq] at h
      obtain ⟨rfl, rfl⟩ := h
      exact .clock x oldTail cur mid
  | stamp x oldTail cur mid ts =>
      simp only [walkStep, Option.some.injEq, Prod.mk.injEq] at h
      obtain ⟨rfl, rfl⟩ := h
      exact .stamp x oldTail cur mid ts
  | gcLink x oldTail cur mid =>
      simp only [walkStep, Option.some.injEq, Prod.mk.injEq] at h
      obtain ⟨rfl, rfl⟩ := h
      cases mid with
      | false => exact .gcLinkHead x oldTail cur
      | true => exact .gcLinkMid x oldTail cur
  | reload cur =>
      cases hh : m.head i with
      | none =>
          simp only [walkStep, hh, Option.some.injEq, Prod.mk.injEq] at h
          obtain ⟨rfl, rfl⟩ := h
          exact .reloadNull cur hh
      | some cur' =>
          simp only [walkStep, hh, Option.some.injEq, Prod.mk.injEq] at h
          obtain ⟨rfl, rfl⟩ := h
          exact .reload cur cur' hh
  | next cur =>
      by_cases hl : cur = l
      · simp only [walkStep, if_pos hl, Option.some.injEq, Prod.mk.injEq] at h
        obtain ⟨rfl, rfl⟩ := h
        rw [hl]
        exact .mark
      · cases hh : m.hash cur with
        | none =>
            simp only [walkStep, if_neg hl, hh, Option.some.injEq, Prod.mk.injEq] at h
            obtain ⟨rfl, rfl⟩ := h
            exact .nextNull cur hl hh
        | some next =>
            simp only [walkStep, if_neg hl, hh, Option.some.injEq, Prod.mk.injEq] at h
            obtain ⟨rfl, rfl⟩ := h
            exact .next cur next hl hh
  | curState cur next =>
      simp only [walkStep] at h
      split_ifs at h with hs <;> simp only [Option.some.injEq, Prod.mk.injEq] at h <;>
        obtain ⟨rfl, rfl⟩ := h
      · exact .curAlive cur next hs
      · exact .curMarked cur next (by simpa using hs)
  | nextState cur next =>
      simp only [walkStep] at h
      split_ifs at h with hs <;> simp only [Option.some.injEq, Prod.mk.injEq] at h <;>
        obtain ⟨rfl, rfl⟩ := h
      · exact .nextAlive cur next hs
      · exact .nextMarked cur next (by simpa using hs)
  | waitHash cur next =>
      cases hh : m.hash next with
      | none =>
          simp only [walkStep, hh, Option.some.injEq, Prod.mk.injEq] at h
          obtain ⟨rfl, rfl⟩ := h
          exact .waitNull cur next hh
      | some v =>
          simp only [walkStep, hh, Option.some.injEq, Prod.mk.injEq] at h
          obtain ⟨rfl, rfl⟩ := h
          exact .waitHash cur next v hh
  | waitTail cur next =>
      simp only [walkStep] at h
      split_ifs at h with hs <;> simp only [Option.some.injEq, Prod.mk.injEq] at h <;>
        obtain ⟨rfl, rfl⟩ := h
      · exact .waitTail cur next hs
      · exact .waitAgain cur next hs
  | midHash cur next =>
      simp only [walkStep, Option.some.injEq, Prod.mk.injEq] at h
      obtain ⟨rfl, rfl⟩ := h
      exact .midHash cur next
  | midCas cur next v =>
      simp only [walkStep] at h
      split_ifs at h with hs <;> simp only [Option.some.injEq, Prod.mk.injEq] at h <;>
        obtain ⟨rfl, rfl⟩ := h
      · exact .midCas cur next v hs
      · exact .midCasFails cur next v hs
  | done => simp [walkStep] at h
  | failed => simp [walkStep] at h

end Multicore.Project4
