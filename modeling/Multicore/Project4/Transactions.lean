import Multicore.Project4.Collector

/-!
# Transactions that start, commit and collect garbage

A fixed set of transaction objects, registered in `trx_sys->mysql_trx_list`, that are started and
committed again and again.  While it is active, a transaction allocates locks and inserts them into
the cells of the hash table; once it is to write, it joins `trx_sys->rw_trx_list` too.  To commit,
it takes a timestamp from `trx_sys->timestamp` (`trx_commit`), leaves `rw_trx_list`
(`trx_erase_lists`), changes its state, walks to each of its locks (`lock_release`), and then,
unless another transaction is doing so, looks for the smallest timestamp and lets the collector go
through the garbage list (`lock_trx_release_locks`).

The loop that looks for the smallest timestamp starts at the first transaction of `mysql_trx_list`.
But it goes on with `UT_LIST_GET_NEXT(trx_list, t)`, and `trx_list` is the link of `rw_trx_list`;
that of `mysql_trx_list` is `mysql_trx_list`.  So the loop visits the first registered transaction
and then, if that one is in `rw_trx_list`, those behind it in `rw_trx_list`.

* `Trx.State`, `Trx.State.step` — the system, one step of one transaction at a time;
  `Trx.trxSystem` is its machine, for a given list of transactions.
* `Trx.Move` — the same as a relation, one case per outcome (`Trx.move_of_step`).

`ut_malloc` may return any address at which there is no lock: one that was never used, or one that
has been freed.  `Trx.State.seen` is history: the locks to which a transaction has got a pointer in
its present `lock_release`, by loading `cell->head` or some `lock->hash`, before they were unlinked.
-/

namespace Multicore.Project4

variable {ι τ : Type*}

namespace Mem

variable [DecidableEq ι]

/-- `project4_lock_alloc`: the address `l` becomes that of a new lock. -/
def lockAlloc (m : Mem ι) (l trxTimestamp : ℕ) : Mem ι :=
  { m with
    hash := Function.update m.hash l none
    state := Function.update m.state l true
    gcHash := Function.update m.gcHash l none
    timestamp := Function.update m.timestamp l trxTimestamp
    fresh := if l = m.fresh then m.fresh + 1 else m.fresh
    unlinked := Function.update m.unlinked l false
    freed := Function.update m.freed l false }

/-- The swap of `cell->tail` in `project4_lock_rec_insert_to_tail`. -/
def swapTail (m : Mem ι) (i : ι) (l : ℕ) : Mem ι :=
  { m with tail := Function.update m.tail i (some l) }

/-- `__sync_fetch_and_add(&trx_sys->timestamp, 1)` -/
def fetchAndAdd (m : Mem ι) : Mem ι := { m with sysTimestamp := m.sysTimestamp + 1 }

end Mem

/-- The pointer that the next step of a walk loads from `cell->head` or from a field `hash`. -/
def Walk.reads (i : ι) (l : ℕ) (m : Mem ι) : Walk → Option ℕ
  | .start => m.head i
  | .headHash cur => m.hash cur
  | .reload _ => m.head i
  | .next cur => if cur = l then none else m.hash cur
  | .waitHash _ n => m.hash n
  | .midHash _ n => m.hash n
  | _ => none

namespace Trx

/-- `trx->state` -/
inductive Status
  | notStarted | active | prepared | committedInMemory
  deriving DecidableEq

/-- Where a transaction stands. -/
inductive Pc (ι τ : Type*)
  | idle
  /-- between its statements -/
  | running
  /-- a new lock `l` is to be swapped into the tail of cell `i` -/
  | insertTas (i : ι) (l : ℕ)
  /-- and linked -/
  | insertLink (i : ι) (l : ℕ) (oldTail : Option ℕ)
  /-- `trx->timestamp = ts;` in `trx_commit` -/
  | store (ts : ℕ)
  /-- `trx_erase_lists`, before the locks are released -/
  | erase
  /-- `trx->state = TRX_STATE_COMMITTED_IN_MEMORY;` -/
  | commit
  /-- the loop of `lock_release` -/
  | release
  | walk (i : ι) (l : ℕ) (w : Walk)
  /-- the test-and-set of `lock_sys->gclist_state` -/
  | tas
  /-- the loop that looks for the smallest timestamp, at `cur` -/
  | scan (cur : Option τ) (min : ℕ)
  | gc (min : ℕ) (g : Gc)
  /-- `trx->state = TRX_STATE_NOT_STARTED;` -/
  | finish
  /-- `trx->timestamp = 0;` in `trx_init` -/
  | init

/-- The state of the system. -/
structure State (ι τ : Type*) where
  mem : Mem ι
  status : τ → Status
  timestamp : τ → ℕ
  /-- `trx_sys->rw_trx_list` -/
  rwTrxList : List τ
  /-- `trx->lock.trx_locks` -/
  trxLocks : τ → List (ι × ℕ)
  gclistState : Bool
  pc : τ → Pc ι τ
  seen : τ → ℕ → Bool

/-- What a transaction does: it starts, is to write, prepares for a commit, creates a lock at the
address `l` for the cell `i`, commits, or goes on. -/
inductive Act (ι τ : Type*)
  | start (t : τ)
  | setRwMode (t : τ)
  | prepare (t : τ)
  | insert (t : τ) (i : ι) (l : ℕ)
  | commit (t : τ)
  | go (t : τ)

/-- The system at the start. -/
def State.start : State ι τ where
  mem := Mem.start
  status _ := .notStarted
  timestamp _ := 0
  rwTrxList := []
  trxLocks _ := []
  gclistState := false
  pc _ := .idle
  seen _ _ := false

variable [DecidableEq ι] [DecidableEq τ]

namespace State

variable (s : State ι τ) (t : τ)

/-- Transaction `t` goes to `q`. -/
def setPc (q : Pc ι τ) : State ι τ := { s with pc := Function.update s.pc t q }

/-- `t` has loaded the pointer `x`. -/
def saw (x : Option ℕ) : τ → ℕ → Bool :=
  Function.update s.seen t fun y =>
    s.seen t y || (decide (x = some y) && !s.mem.unlinked y)

/-- `UT_LIST_GET_NEXT(trx_list, u)`: the transaction behind `u` in `rw_trx_list`.  The link of a
transaction that is not in the list is `NULL`. -/
def rwNext (u : τ) : Option τ := (s.rwTrxList.dropWhile (· ≠ u)).tail.head?

/-- `min_timestamp` after the visit to the transaction `u`. -/
def lower (min : ℕ) (u : τ) : ℕ :=
  if (s.status u = .active ∨ s.status u = .committedInMemory) ∧ s.timestamp u < min then
    s.timestamp u
  else min

/-- The next step of a transaction that stands somewhere in its code. -/
def go (trxs : List τ) : Option (State ι τ) :=
  match s.pc t with
  | .idle => none
  | .running => none
  | .insertTas i l =>
      some { s.setPc t (.insertLink i l (s.mem.tail i)) with mem := s.mem.swapTail i l }
  | .insertLink i l oldTail =>
      some { s.setPc t .running with
        mem := s.mem.insertLink i l oldTail
        trxLocks := Function.update s.trxLocks t (s.trxLocks t ++ [(i, l)]) }
  | .store ts =>
      some { s.setPc t .erase with timestamp := Function.update s.timestamp t ts }
  | .erase => some { s.setPc t .commit with rwTrxList := s.rwTrxList.erase t }
  | .commit =>
      let s' := { s with status := Function.update s.status t .committedInMemory }
      -- `release_lock`: a transaction without locks skips all the rest
      if s.trxLocks t = [] then some (s'.setPc t .finish)
      else some { s'.setPc t .release with seen := Function.update s.seen t fun _ => false }
  | .release =>
      match (s.trxLocks t).getLast? with
      | none => some (s.setPc t .tas)
      | some (i, l) => some (s.setPc t (.walk i l .start))
  | .walk i l w =>
      match walkStep i l s.mem w with
      | none => none
      | some (m, .done) =>
          some { s.setPc t .release with
            mem := m
            trxLocks := Function.update s.trxLocks t ((s.trxLocks t).erase (i, l)) }
      | some (m, w') =>
          some { s.setPc t (.walk i l w') with mem := m, seen := s.saw t (w.reads i l s.mem) }
  | .tas =>
      if s.gclistState then some (s.setPc t .finish)
      else some { s.setPc t (.scan trxs.head? ulintMax) with gclistState := true }
  | .scan none min => some (s.setPc t (.gc min .tail))
  | .scan (some u) min => some (s.setPc t (.scan (s.rwNext u) (s.lower min u)))
  | .gc _ .done => some { s.setPc t .finish with gclistState := false }
  | .gc min g =>
      match gcStep min s.mem g with
      | none => none
      | some (m, g') => some { s.setPc t (.gc min g') with mem := m }
  | .finish =>
      some { s.setPc t .init with status := Function.update s.status t .notStarted }
  | .init => some { s.setPc t .idle with timestamp := Function.update s.timestamp t 0 }

/-- One step of the system. -/
def step (trxs : List τ) : Act ι τ → Option (State ι τ)
  | .start t =>
      match s.pc t with
      | .idle => some { s.setPc t .running with status := Function.update s.status t .active }
      | _ => none
  | .setRwMode t =>
      -- `trx_start_low` adds a transaction before it is active, `trx_set_rw_mode` afterwards
      match s.pc t with
      | .idle | .running =>
          if t ∈ s.rwTrxList then none else some { s with rwTrxList := t :: s.rwTrxList }
      | _ => none
  | .prepare t =>
      match s.pc t with
      | .running =>
          if s.status t = .active then
            some { s with status := Function.update s.status t .prepared }
          else none
      | _ => none
  | .insert t i l =>
      match s.pc t with
      | .running =>
          if s.status t = .active ∧ (l = s.mem.fresh ∨ s.mem.freed l = true) then
            some { s.setPc t (.insertTas i l) with
              mem := s.mem.lockAlloc l (s.timestamp t)
              seen := fun u => Function.update (s.seen u) l false }
          else none
      | _ => none
  | .commit t =>
      match s.pc t with
      | .running =>
          some { s.setPc t (.store s.mem.sysTimestamp) with mem := s.mem.fetchAndAdd }
      | _ => none
  | .go t => s.go t trxs

end State

/-- The system with the transactions `trxs` in `mysql_trx_list`, the first one first. -/
def trxSystem (ι : Type*) [DecidableEq ι] (trxs : List τ) : Machine (State ι τ) (Act ι τ) where
  init s := s = State.start
  step s a := s.step trxs a

/-! ## What a step can do -/

section Move

variable (trxs : List τ) (s : State ι τ) (t : τ)

/-- What a step can do, one case per outcome. -/
inductive Move : Act ι τ → State ι τ → Prop
  | start (hpc : s.pc t = .idle) :
      Move (.start t) { s.setPc t .running with status := Function.update s.status t .active }
  | setRwMode (hpc : s.pc t = .idle ∨ s.pc t = .running) :
      Move (.setRwMode t) { s with rwTrxList := t :: s.rwTrxList }
  | prepare (hpc : s.pc t = .running) (hst : s.status t = .active) :
      Move (.prepare t) { s with status := Function.update s.status t .prepared }
  | insert (i : ι) (l : ℕ) (hpc : s.pc t = .running) (hst : s.status t = .active)
      (hl : l = s.mem.fresh ∨ s.mem.freed l = true) :
      Move (.insert t i l) { s.setPc t (.insertTas i l) with
        mem := s.mem.lockAlloc l (s.timestamp t)
        seen := fun u => Function.update (s.seen u) l false }
  | faa (hpc : s.pc t = .running) :
      Move (.commit t)
        { s.setPc t (.store s.mem.sysTimestamp) with mem := s.mem.fetchAndAdd }
  | insertTas (i : ι) (l : ℕ) (hpc : s.pc t = .insertTas i l) :
      Move (.go t)
        { s.setPc t (.insertLink i l (s.mem.tail i)) with mem := s.mem.swapTail i l }
  | insertLink (i : ι) (l : ℕ) (oldTail : Option ℕ) (hpc : s.pc t = .insertLink i l oldTail) :
      Move (.go t) { s.setPc t .running with
        mem := s.mem.insertLink i l oldTail
        trxLocks := Function.update s.trxLocks t (s.trxLocks t ++ [(i, l)]) }
  | store (ts : ℕ) (hpc : s.pc t = .store ts) :
      Move (.go t) { s.setPc t .erase with timestamp := Function.update s.timestamp t ts }
  | erase (hpc : s.pc t = .erase) :
      Move (.go t) { s.setPc t .commit with rwTrxList := s.rwTrxList.erase t }
  | commitEmpty (hpc : s.pc t = .commit) :
      Move (.go t)
        { s.setPc t .finish with status := Function.update s.status t .committedInMemory }
  | commit (hpc : s.pc t = .commit) :
      Move (.go t) { s.setPc t .release with
        status := Function.update s.status t .committedInMemory
        seen := Function.update s.seen t fun _ => false }
  | released (hpc : s.pc t = .release) : Move (.go t) (s.setPc t .tas)
  | release (i : ι) (l : ℕ) (hpc : s.pc t = .release) :
      Move (.go t) (s.setPc t (.walk i l .start))
  | walk (i : ι) (l : ℕ) (w w' : Walk) (m : Mem ι) (hpc : s.pc t = .walk i l w)
      (hw : WStep i l s.mem w m w') :
      Move (.go t)
        { s.setPc t (.walk i l w') with mem := m, seen := s.saw t (w.reads i l s.mem) }
  | found (i : ι) (l : ℕ) (w : Walk) (m : Mem ι) (hpc : s.pc t = .walk i l w)
      (hw : WStep i l s.mem w m .done) :
      Move (.go t) { s.setPc t .release with
        mem := m
        trxLocks := Function.update s.trxLocks t ((s.trxLocks t).erase (i, l)) }
  | tasFails (hpc : s.pc t = .tas) : Move (.go t) (s.setPc t .finish)
  | tas (hpc : s.pc t = .tas) :
      Move (.go t) { s.setPc t (.scan trxs.head? ulintMax) with gclistState := true }
  | scanEnd (min : ℕ) (hpc : s.pc t = .scan none min) : Move (.go t) (s.setPc t (.gc min .tail))
  | scan (u : τ) (min : ℕ) (hpc : s.pc t = .scan (some u) min) :
      Move (.go t) (s.setPc t (.scan (s.rwNext u) (s.lower min u)))
  | gcDone (min : ℕ) (hpc : s.pc t = .gc min .done) :
      Move (.go t) { s.setPc t .finish with gclistState := false }
  | gc (min : ℕ) (g g' : Gc) (m : Mem ι) (hpc : s.pc t = .gc min g)
      (hg : GStep min s.mem g m g') : Move (.go t) { s.setPc t (.gc min g') with mem := m }
  | finish (hpc : s.pc t = .finish) :
      Move (.go t) { s.setPc t .init with status := Function.update s.status t .notStarted }
  | init (hpc : s.pc t = .init) :
      Move (.go t) { s.setPc t .idle with timestamp := Function.update s.timestamp t 0 }

end Move

/-- The transaction that acts. -/
def Act.trx : Act ι τ → τ
  | .start t => t
  | .setRwMode t => t
  | .prepare t => t
  | .insert t _ _ => t
  | .commit t => t
  | .go t => t

/-- Every step of a transaction that stands somewhere in its code is one of these. -/
lemma move_of_go {trxs : List τ} {s s' : State ι τ} {t : τ} (h : s.go t trxs = some s') :
    Move trxs s t (.go t) s' := by
  unfold State.go at h
  cases hpc : s.pc t with
  | idle => simp [hpc] at h
  | running => simp [hpc] at h
  | commit =>
      simp only [hpc] at h
      split_ifs at h <;> obtain rfl := Option.some.inj h
      · exact .commitEmpty hpc
      · exact .commit hpc
  | release =>
      simp only [hpc] at h
      split at h <;> obtain rfl := Option.some.inj h
      · exact .released hpc
      · exact .release _ _ hpc
  | walk i l w =>
      simp only [hpc] at h
      split at h
      · simp at h
      · rename_i m hw
        obtain rfl := Option.some.inj h
        exact .found i l w m hpc (wstep_of_walkStep hw)
      · rename_i m w' hne hw
        obtain rfl := Option.some.inj h
        exact .walk i l w w' m hpc (wstep_of_walkStep hw)
  | tas =>
      simp only [hpc] at h
      split_ifs at h <;> obtain rfl := Option.some.inj h
      · exact .tasFails hpc
      · exact .tas hpc
  | scan cur min =>
      cases cur <;> simp only [hpc, Option.some.injEq] at h <;> subst h
      · exact .scanEnd min hpc
      · exact .scan _ min hpc
  | gc min g =>
      by_cases hg : g = .done
      · subst hg
        simp only [hpc, Option.some.injEq] at h
        subst h
        exact .gcDone min hpc
      · cases hstep : gcStep min s.mem g with
        | none => cases g <;> simp_all
        | some p =>
            obtain ⟨m, g'⟩ := p
            have hs' : s' = { s.setPc t (.gc min g') with mem := m } := by
              cases g <;> simp_all
            rw [hs']
            exact .gc min g g' m hpc (gstep_of_gcStep hstep)
  | insertTas i l =>
      simp only [hpc, Option.some.injEq] at h
      subst h
      exact .insertTas i l hpc
  | insertLink i l oldTail =>
      simp only [hpc, Option.some.injEq] at h
      subst h
      exact .insertLink i l oldTail hpc
  | store ts =>
      simp only [hpc, Option.some.injEq] at h
      subst h
      exact .store ts hpc
  | erase =>
      simp only [hpc, Option.some.injEq] at h
      subst h
      exact .erase hpc
  | finish =>
      simp only [hpc, Option.some.injEq] at h
      subst h
      exact .finish hpc
  | init =>
      simp only [hpc, Option.some.injEq] at h
      subst h
      exact .init hpc

/-- Every step is one of these. -/
theorem move_of_step {trxs : List τ} {s s' : State ι τ} {a : Act ι τ}
    (h : (trxSystem ι trxs).step s a = some s') : Move trxs s a.trx a s' := by
  change s.step trxs a = some s' at h
  cases a with
  | go t => exact move_of_go h
  | start t =>
      cases hpc : s.pc t <;> simp only [State.step, hpc, Option.some.injEq, reduceCtorEq] at h
      subst h
      exact .start hpc
  | setRwMode t =>
      cases hpc : s.pc t <;> simp only [State.step, hpc, reduceCtorEq] at h
      all_goals
        split_ifs at h
        obtain rfl := Option.some.inj h
      · exact .setRwMode (Or.inl hpc)
      · exact .setRwMode (Or.inr hpc)
  | prepare t =>
      cases hpc : s.pc t <;> simp only [State.step, hpc, reduceCtorEq] at h
      split_ifs at h with hst
      obtain rfl := Option.some.inj h
      exact .prepare hpc hst
  | insert t i l =>
      cases hpc : s.pc t <;> simp only [State.step, hpc, reduceCtorEq] at h
      split_ifs at h with hst
      obtain rfl := Option.some.inj h
      exact .insert i l hpc hst.1 hst.2
  | commit t =>
      cases hpc : s.pc t <;> simp only [State.step, hpc, Option.some.injEq, reduceCtorEq] at h
      subst h
      exact .faa hpc

end Trx

end Multicore.Project4
