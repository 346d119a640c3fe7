import Multicore.Lib.Liveness
import Multicore.Project4.DeadlockSearch

/-!
# Waiting for record locks

The operations of transactions on the record locks of all pages, with the deadlock check: a request
that has to wait is put at the end of the chain (`FCFS`), and `check_and_resolve` searches for
deadlocks that it has brought about.  As long as there is one, it rolls back the victim, or takes
the request back if the victim is the transaction itself or the search has got too deep.  All this
happens under the mutex of the lock system, so that an operation is one step.

* `lockSystem` — the machine: requests, records that are given back (`lock_rec_unlock`), and waits
  that are cancelled.
* `Resolving` — between the searches only the transaction that wants to wait can close a cycle.
* **`waits_acyclic`** — no cycle of waiting transactions is left behind by any operation;
* **`request_answered`** — every request is answered, and suspends the transaction only if it has to
  wait;
* **`waits_drain`** — somebody for whom others wait is never suspended, so that records can be given
  back one after the other until everybody has been granted its lock.

The end of a transaction is not one of the operations: `lock_release` goes through
`project4_lock_rec_dequeue_from_page`, and takes no mutex.  `innodb_deadlock_detect` is on, and no
rollback is forced from outside.

The assertions of release builds (`ut_a`) are modelled, those of debug builds (`ut_ad`) are not.  If
a cycle is found when the search has got too deep, and its victim is another transaction, then
`ut_ad(trx == victim_trx)` does not hold.
-/

namespace Multicore.Project4.RecordLocks

open Relation

variable {τ P : Type*} [DecidableEq τ]

/-! ## The operations -/

section Operations

variable [DecidableEq P] (needOrdering weightGe : τ → τ → Bool)

/-- `lock_cancel_waiting_and_release` -/
def LockSys.cancelWaiting (sys : LockSys τ P) (r : Ref τ P) : LockSys τ P :=
  let sys' := sys.setPage r.page (dequeueFromPage needOrdering (sys.page r.page) (r.pos sys))
  { sys' with waitPage := Function.update sys'.waitPage r.lock.trx none }

/-- What `check_and_resolve` has to say about the transaction that wants to wait. -/
inductive Resolution
  | noVictim | victim
  /-- an assertion has failed -/
  | failed
  deriving DecidableEq

/-- One round of `check_and_resolve`; the lock that `trx` wants is the last one of the page. -/
def resolveBody (trx : τ) (pg : P) (sys : LockSys τ P) :
    LockSys τ P ⊕ Resolution × LockSys τ P :=
  match (sys.page pg).getLast? with
  | none => .inr (.failed, sys)
  | some lock =>
      match search needOrdering weightGe sys trx ⟨pg, lock, []⟩ with
      | (.noDeadlock, _, sys) => .inr (.noVictim, sys)
      | (.tooDeep, _, sys) => .inr (.victim, sys)
      | (.failed, _, sys) => .inr (.failed, sys)
      | (.victim v, tooDeep, sys) =>
          -- the loop is left when the search has got too deep, whoever the victim is, and the
          -- request is then taken back
          if tooDeep = true ∨ v = trx then .inr (.victim, sys)
          else
            -- `trx_rollback`
            match sys.waitLock v with
            | none => .inr (.failed, sys)
            | some r => .inl (sys.cancelWaiting needOrdering r)

/-- The transactions that wait. -/
def LockSys.waiters [Fintype τ] (sys : LockSys τ P) : Finset τ :=
  Finset.univ.filter fun t => (sys.waitPage t).isSome

variable {needOrdering weightGe} {sys sys' : LockSys τ P} {trx t : τ} {pg : P} {r : Ref τ P}

lemma LockSys.setPage_waitPage_of_none {q : List (Lock τ)} (h : sys.waitPage t = none) :
    (sys.setPage pg q).waitPage t = none := by
  simp only [setPage, h, ite_self]

variable (needOrdering) in
lemma LockSys.waiters_cancelWaiting_lt [Fintype τ] (hr : sys.waitLock t = some r) :
    (sys.cancelWaiting needOrdering r).waiters.card < sys.waiters.card := by
  have htrx := (LockSys.waitLock_some hr).1
  have hself : t ∈ sys.waiters := by
    simp only [waiters, Finset.mem_filter, Finset.mem_univ, true_and, Option.isSome_iff_ne_none]
    intro hnone
    rw [LockSys.waitLock_eq_none hnone] at hr
    cases hr
  refine Finset.card_lt_card ⟨fun u hu => ?_, fun hsub => ?_⟩
  · simp only [waiters, Finset.mem_filter, Finset.mem_univ, true_and, cancelWaiting,
      Function.update_apply, Option.isSome_iff_ne_none] at hu ⊢
    intro hnone
    rw [setPage_waitPage_of_none hnone, ite_self] at hu
    exact hu rfl
  · have hmem := hsub hself
    simp [waiters, cancelWaiting, htrx] at hmem

lemma resolveBody_down [Fintype τ] (h : resolveBody needOrdering weightGe trx pg sys = .inl sys') :
    sys'.waiters.card < sys.waiters.card := by
  unfold resolveBody at h
  split at h
  · cases h
  · rename_i lock _
    obtain ⟨mark, counter, hmarks⟩ := search_marks needOrdering weightGe sys trx ⟨pg, lock, []⟩
    split at h
    · cases h
    · cases h
    · cases h
    · rename_i v tooDeep sys'' hsearch
      rw [hsearch] at hmarks
      split at h
      · cases h
      · split at h
        · cases h
        · rename_i r hr
          obtain rfl := Sum.inl.inj h
          have hlt := LockSys.waiters_cancelWaiting_lt needOrdering hr
          obtain rfl : sys'' = _ := hmarks
          exact hlt

variable (needOrdering weightGe) [Fintype τ]

/-- `DeadlockChecker::check_and_resolve` -/
def resolveLoop (trx : τ) (pg : P) :
    Loop (LockSys τ P) (Resolution × LockSys τ P) ℕ where
  body := resolveBody needOrdering weightGe trx pg
  measure sys := sys.waiters.card
  down _ _ h := resolveBody_down h

/-- The last lock of the chain is taken back (`check_deadlock_result`). -/
def takeBack (heapNo : ℕ) (q : List (Lock τ)) : List (Lock τ) :=
  match q.getLast? with
  | none => q
  | some l => q.dropLast ++ [l.grant.resetNthBit heapNo]

/-- `RecLock::deadlock_check` -/
def LockSys.deadlockCheck (sys : LockSys τ P) (trx : τ) (pg : P) (heapNo : ℕ) :
    Option (Err × LockSys τ P) :=
  match (resolveLoop needOrdering weightGe trx pg).run sys with
  | (.failed, _) => none
  | (.victim, sys) => some (.deadlock, sys.setPage pg (takeBack heapNo (sys.page pg)))
  | (.noVictim, sys) =>
      some (if sys.waitPage trx = none then .successLockedRec else .lockWait, sys)

/-- The request of a transaction has been looked at in the chain of the page.  If it has to wait,
its lock is at the end of the chain and the deadlock check comes next. -/
def LockSys.answer (sys : LockSys τ P) (trx : τ) (pg : P) (heapNo : ℕ) :
    Err × List (Lock τ) → Option (Err × LockSys τ P)
  | (.lockWait, q) =>
      LockSys.deadlockCheck needOrdering weightGe { sys with
        page := Function.update sys.page pg q
        waitPage := Function.update sys.waitPage trx (some pg) } trx pg heapNo
  | (err, q) => some (err, sys.setPage pg q)

/-- What can be done to the lock system; `weightGe` is what `trx_weight_ge` says at the time. -/
inductive SysOp (τ P : Type*)
  | lock (trx : τ) (pg : P) (impl : Bool) (mode : Mode) (gapMode : Chains.GapMode)
      (heapNo nRecs : ℕ) (weightGe : τ → τ → Bool)
  | insert (trx : τ) (pg : P) (heapNo nRecs : ℕ) (weightGe : τ → τ → Bool)
  /-- `lock_rec_unlock` -/
  | unlock (trx : τ) (pg : P) (heapNo : ℕ) (mode : Mode)
  /-- the transaction has waited too long, or is killed -/
  | cancel (trx : τ)

/-- One operation.  A transaction that waits is suspended. -/
def LockSys.step (sys : LockSys τ P) : SysOp τ P → Option (LockSys τ P)
  | .lock trx pg impl mode gapMode heapNo nRecs weightGe =>
      if sys.waitPage trx = none ∧ heapNo < nRecs then
        (sys.answer needOrdering weightGe trx pg heapNo (lockRecLock needOrdering (sys.page pg) impl
          trx (.of mode gapMode) heapNo nRecs false)).map Prod.snd
      else none
  | .insert trx pg heapNo nRecs weightGe =>
      if sys.waitPage trx = none ∧ heapNo < nRecs then
        (sys.answer needOrdering weightGe trx pg heapNo (insertCheckAndLock needOrdering
          (sys.page pg) trx heapNo nRecs false)).map Prod.snd
      else none
  | .unlock trx pg heapNo mode =>
      if sys.waitPage trx = none then
        (RecordLocks.unlock needOrdering (sys.page pg) trx heapNo mode).map (sys.setPage pg)
      else none
  | .cancel trx => (sys.waitLock trx).map (sys.cancelWaiting needOrdering)

/-- The lock system. -/
def lockSystem : Machine (LockSys τ P) (SysOp τ P) where
  init sys := sys = ⟨fun _ => [], fun _ => none, fun _ => 0, 0⟩
  step sys op := sys.step needOrdering op

end Operations

/-! ## Locks that are cancelled -/

section Cancel

variable {needOrdering : τ → τ → Bool} {sys : LockSys τ P} {t : τ} {r : Ref τ P}

/-- The transaction does not wait in this chain any more. -/
lemma Coherent.runs_dequeue (h : Coherent needOrdering sys) (hr : sys.waitLock t = some r) :
    runs (dequeueFromPage needOrdering (sys.page r.page) (r.pos sys)) t = true := by
  obtain ⟨rfl, hwait, ahead, hpage⟩ := LockSys.waitLock_some hr
  have honce := h.once r.page
  rw [hpage] at honce
  obtain ⟨-, hcons, hbetween⟩ := List.pairwise_append.mp honce
  by_contra hnot
  obtain ⟨x, hx, htrx, hxwait⟩ := runs_eq_false.mp (Bool.eq_false_of_not_eq_true hnot)
  -- a lock that waits is one of those that were not taken out
  have hleft : Settled needOrdering r.lock.trx (ahead ++ r.behind)
      (dequeueFromPage needOrdering (sys.page r.page) (r.pos sys)) := by
    rw [dequeueFromPage, Ref.eraseIdx_pos hpage]
    exact .of_eased eased_grantPass
  rcases List.mem_append.mp (hleft.mem hx hxwait) with hmem | hmem
  · exact hbetween x hmem r.lock List.mem_cons_self hxwait hwait htrx
  · exact (List.pairwise_cons.mp hcons).1 x hmem hwait hxwait htrx.symm

variable [DecidableEq P]

lemma Coherent.cancelWaiting_eq (h : Coherent needOrdering sys) (hr : sys.waitLock t = some r) :
    sys.cancelWaiting needOrdering r =
      sys.setPage r.page (dequeueFromPage needOrdering (sys.page r.page) (r.pos sys)) := by
  obtain ⟨rfl, hwait, ahead, hpage⟩ := LockSys.waitLock_some hr
  have hpg := h.waits r.page r.lock (by simp [hpage]) hwait
  have hnone : (sys.setPage r.page (dequeueFromPage needOrdering (sys.page r.page)
      (r.pos sys))).waitPage r.lock.trx = none := if_pos ⟨hpg, h.runs_dequeue hr⟩
  simp only [LockSys.cancelWaiting]
  rw [← hnone, Function.update_eq_self]

/-- **A lock that waits is cancelled.** -/
lemma Coherent.cancelWaiting (h : Coherent needOrdering sys) (hr : sys.waitLock t = some r) :
    Coherent needOrdering (sys.cancelWaiting needOrdering r) ∧
      (sys.cancelWaiting needOrdering r).waitPage t = none ∧
      ∀ a b, WaitsFor needOrdering (sys.cancelWaiting needOrdering r) a b →
        WaitsFor needOrdering sys a b ∨ b = t := by
  have hnone : (sys.cancelWaiting needOrdering r).waitPage t = none := by
    simp [LockSys.cancelWaiting, (LockSys.waitLock_some hr).1]
  rw [h.cancelWaiting_eq hr] at hnone ⊢
  obtain ⟨hcoherent, hedges⟩ := h.settle ((h.page r.page).dequeueFromPage (r.pos sys))
    (settled_dequeueFromPage (t := t) (r.pos sys))
  exact ⟨hcoherent, hnone, hedges⟩

end Cancel

/-! ## Resolving deadlocks -/

section Resolving

variable (needOrdering : τ → τ → Bool) (trx : τ) (pg : P) (heapNo : ℕ)

/-- The lock that the transaction wants is the last one on the page.  It may have been granted when
others were rolled back. -/
structure Joining (sys : LockSys τ P) (ahead : List (Lock τ)) (lock : Lock τ) : Prop where
  page : sys.page pg = ahead ++ [lock]
  owner : lock.trx = trx
  onlyFor : lock.OnlyFor heapNo
  granted : ∃ x ∈ ahead, x.nthBit heapNo = true ∧ x.wait = false
  free : lock.wait = false →
    sys.waitPage trx = none ∧ ∀ x ∈ ahead, waitsFor needOrdering lock x = false

/-- Between two searches: only the transaction that wants to wait can close a cycle. -/
structure Resolving (sys : LockSys τ P) : Prop where
  coherent : Coherent needOrdering sys
  acyclic : Acyclic fun a b => a ≠ trx ∧ WaitsFor needOrdering sys a b
  joining : ∃ ahead lock, Joining needOrdering trx pg heapNo sys ahead lock

variable {needOrdering trx pg heapNo} {sys : LockSys τ P} {v : τ} {r : Ref τ P}
  {ahead : List (Lock τ)} {lock : Lock τ}

/-- If the lock waited and does so no more, then its transaction does not wait in the chain. -/
lemma Joining.runs (h : Joining needOrdering trx pg heapNo sys ahead lock)
    (hsys : Coherent needOrdering sys) (hw : lock.wait = true) {ahead' : List (Lock τ)}
    {lock' : Lock τ} (hahead : ∀ y ∈ ahead', y.wait = true → y ∈ ahead)
    (hlock' : lock'.wait = false) : RecordLocks.runs (ahead' ++ [lock']) trx = true := by
  have honce := hsys.once pg
  rw [h.page] at honce
  by_contra hnot
  obtain ⟨y, hy, hytrx, hywait⟩ := runs_eq_false.mp (Bool.eq_false_of_not_eq_true hnot)
  rcases List.mem_append.mp hy with hy | hy
  · exact (List.pairwise_append.mp honce).2.2 y (hahead y hy hywait) lock
      (List.mem_singleton_self lock) hywait hw (hytrx.trans h.owner.symm)
  · rw [List.mem_singleton.mp hy, hlock'] at hywait
    exact Bool.noConfusion hywait

lemma Joining.waitLock (h : Joining needOrdering trx pg heapNo sys ahead lock)
    (hsys : Coherent needOrdering sys) (hw : lock.wait = true) :
    sys.waitLock trx = some ⟨pg, lock, []⟩ :=
  h.owner ▸ hsys.waitLock_eq h.page hw

/-- A lock that has been granted has nobody to wait for. -/
lemma Joining.wait_of_edge (h : Joining needOrdering trx pg heapNo sys ahead lock)
    (hedge : ∃ b, Edge needOrdering sys trx ⟨pg, lock, []⟩ trx b) : lock.wait = true := by
  obtain ⟨b, r, hr, ahead', hpage, l, hl, hwaits, -⟩ := hedge
  obtain rfl : ⟨pg, lock, []⟩ = r := by simpa [lockOf] using hr
  by_contra hw
  have hfree := (h.free (Bool.eq_false_of_not_eq_true hw)).2
  have hahead : ahead' = ahead := List.append_cancel_right (hpage.symm.trans h.page)
  exact Bool.false_ne_true ((hfree l (hahead ▸ hl)).symm.trans hwaits)

lemma Resolving.setMarks (h : Resolving needOrdering trx pg heapNo sys) {mark : τ → ℕ}
    {counter : ℕ} (hmarks : ∀ t, mark t ≤ counter) : Resolving needOrdering trx pg heapNo
      { sys with deadlockMark := mark, lockMarkCounter := counter } := by
  obtain ⟨ahead, lock, hj⟩ := h.joining
  exact ⟨h.coherent.setMarks hmarks, h.acyclic, ahead, lock, hj.page, hj.owner, hj.onlyFor,
    hj.granted, hj.free⟩

/-- A lock of somebody else in the same chain is ahead of the one that the transaction wants. -/
lemma Joining.split (h : Joining needOrdering trx r.page heapNo sys ahead lock)
    (hr : sys.waitLock v = some r) (hv : v ≠ trx) : ∃ ahead₁ rest,
      ahead = ahead₁ ++ r.lock :: rest ∧ sys.page r.page = ahead₁ ++ r.lock :: r.behind ∧
      r.behind = rest ++ [lock] := by
  obtain ⟨hrtrx, -, ahead₁, hpage⟩ := LockSys.waitLock_some hr
  have hboth := hpage
  rw [h.page] at hboth
  rcases List.eq_nil_or_concat r.behind with hnil | ⟨rest, x, hx⟩
  · rw [hnil] at hboth
    obtain rfl : lock = r.lock := by simpa using (List.append_inj' hboth rfl).2
    exact absurd (hrtrx.symm.trans h.owner) hv
  · rw [List.concat_eq_append] at hx
    rw [hx, ← List.cons_append, ← List.append_assoc] at hboth
    obtain rfl : lock = x := by simpa using (List.append_inj' hboth rfl).2
    exact ⟨ahead₁, rest, List.append_cancel_right hboth, hpage, hx⟩

section Pass

variable {ahead₁ rest : List (Lock τ)}

/-- The lock that has been granted on the record stays. -/
lemma Joining.granted_pass (h : Joining needOrdering trx pg heapNo sys ahead lock)
    (hahead : ahead = ahead₁ ++ r.lock :: rest) (hrwait : r.lock.wait = true) :
    ∃ x ∈ (requests needOrdering).grantPass (fun _ => true) [] (ahead₁ ++ rest),
      x.nthBit heapNo = true ∧ x.wait = false := by
  obtain ⟨x, hx, hbit, hxwait⟩ := h.granted
  refine ⟨x, Requests.mem_grantPass ?_ hxwait, hbit, hxwait⟩
  rw [hahead] at hx
  rcases List.mem_append.mp hx with hx | hx
  · exact List.mem_append_left _ hx
  · rcases List.mem_cons.mp hx with rfl | hx
    · exact absurd (hxwait.symm.trans hrwait) Bool.false_ne_true
    · exact List.mem_append_right _ hx

/-- Who has been granted the lock, now or before, has nobody ahead to wait for. -/
lemma Joining.free_pass (h : Joining needOrdering trx pg heapNo sys ahead lock)
    (hsub : ∀ x ∈ ahead₁ ++ rest, x ∈ ahead)
    (hnow : lock.wait = true → (requests needOrdering).blocked
      ((requests needOrdering).grantPass (fun _ => true) [] (ahead₁ ++ rest)) lock = false) :
    ∀ x ∈ (requests needOrdering).grantPass (fun _ => true) [] (ahead₁ ++ rest),
      waitsFor needOrdering lock x = false := by
  cases hlw : lock.wait with
  | true =>
      intro x hx
      exact Bool.eq_false_of_not_eq_true (List.any_eq_false.mp (hnow hlw) x hx)
  | false =>
      exact Requests.forall_mem_grantPass (R := requests needOrdering)
        (P := fun x => waitsFor needOrdering lock x = false) (fun _ => id)
        fun y hy => (h.free hlw).2 y (hsub y hy)

end Pass

variable [DecidableEq P]

/-- The rollback of a victim takes a lock out of the chains, and others may be granted. -/
lemma Joining.cancelWaiting (h : Joining needOrdering trx pg heapNo sys ahead lock)
    (hsys : Coherent needOrdering sys) (hr : sys.waitLock v = some r) (hv : v ≠ trx) :
    ∃ ahead' lock', Joining needOrdering trx pg heapNo (sys.cancelWaiting needOrdering r) ahead'
      lock' := by
  have hstays : sys.waitPage trx = none →
      (sys.cancelWaiting needOrdering r).waitPage trx = none := by
    rw [hsys.cancelWaiting_eq hr]
    exact LockSys.setPage_waitPage_of_none
  by_cases hpg : pg = r.page
  · subst hpg
    obtain ⟨ahead₁, rest, hahead, hpage₁, hrest⟩ := h.split hr hv
    have hsub : ∀ x ∈ ahead₁ ++ rest, x ∈ ahead := by
      rw [hahead]
      exact fun _ => ((List.sublist_cons_self r.lock rest).append_left ahead₁).mem
    let ahead' := (requests needOrdering).grantPass (fun _ => true) [] (ahead₁ ++ rest)
    let lock' := if lock.wait && !(requests needOrdering).blocked ahead' lock then lock.grant
      else lock
    have hchain : dequeueFromPage needOrdering (sys.page r.page) (r.pos sys)
        = ahead' ++ [lock'] := by
      rw [dequeueFromPage, Ref.eraseIdx_pos hpage₁, hrest, ← List.append_assoc,
        Requests.grantPass_append_singleton]
      rfl
    have hpage' : (sys.cancelWaiting needOrdering r).page r.page = ahead' ++ [lock'] :=
      (Function.update_self r.page _ _).trans hchain
    have hsame : lock'.trx = lock.trx ∧ (∀ k, lock'.nthBit k = lock.nthBit k) ∧
        ∀ x, waitsFor needOrdering lock' x = waitsFor needOrdering lock x := by
      simp only [lock']
      split_ifs
      · exact ⟨rfl, fun _ => rfl, fun _ => rfl⟩
      · exact ⟨rfl, fun _ => rfl, fun _ => rfl⟩
    refine ⟨ahead', lock', hpage', hsame.1.trans h.owner, fun k => ?_, ?_, fun hfree => ⟨?_, ?_⟩⟩
    · rw [hsame.2.1]
      exact h.onlyFor k
    · exact h.granted_pass hahead (LockSys.waitLock_some hr).2.1
    · cases hlw : lock.wait with
      | false => exact hstays (h.free hlw).1
      | true =>
          have hwaited := hsys.waits r.page lock (by simp [h.page]) hlw
          rw [hsys.cancelWaiting_eq hr, hchain]
          refine if_pos ⟨h.owner ▸ hwaited, h.runs hsys hlw (fun y hy hywait => ?_) hfree⟩
          have hold : Settled needOrdering trx (ahead₁ ++ rest) ahead' := .of_eased eased_grantPass
          exact hsub y (hold.mem hy hywait)
    · -- the lock has been granted, now or before
      intro x hx
      rw [hsame.2.2]
      refine h.free_pass hsub (fun hlw => ?_) x hx
      by_contra hb
      have hblocked : (requests needOrdering).blocked ahead' lock = true :=
        Bool.eq_true_of_not_eq_false hb
      simp [lock', hlw, hblocked] at hfree
  · have hpage' : (sys.cancelWaiting needOrdering r).page pg = sys.page pg :=
      Function.update_of_ne hpg _ _
    exact ⟨ahead, lock, hpage'.trans h.page, h.owner, h.onlyFor, h.granted,
      fun hfree => ⟨hstays (h.free hfree).1, (h.free hfree).2⟩⟩

lemma Resolving.cancelWaiting (h : Resolving needOrdering trx pg heapNo sys)
    (hr : sys.waitLock v = some r) (hv : v ≠ trx) :
    Resolving needOrdering trx pg heapNo (sys.cancelWaiting needOrdering r) := by
  obtain ⟨hcoherent, hnone, hedges⟩ := h.coherent.cancelWaiting hr
  obtain ⟨ahead, lock, hj⟩ := h.joining
  refine ⟨hcoherent, ?_, hj.cancelWaiting h.coherent hr hv⟩
  refine h.acyclic.of_edges_to_sink (t := v) (fun a b hab => ?_) fun b hb => ?_
  · exact (hedges a b hab.2).imp_left fun hold => ⟨hab.1, hold⟩
  · exact not_waitsFor_of_none hnone b hb.2

variable (needOrdering trx pg heapNo) in
/-- How `check_and_resolve` can end. -/
inductive Resolved : Resolution → LockSys τ P → Prop
  | noVictim {sys : LockSys τ P} (hcoherent : Coherent needOrdering sys)
      (hacyclic : Acyclic (WaitsFor needOrdering sys)) : Resolved .noVictim sys
  | victim {sys : LockSys τ P} {ahead : List (Lock τ)} {lock : Lock τ}
      (h : Resolving needOrdering trx pg heapNo sys)
      (hj : Joining needOrdering trx pg heapNo sys ahead lock) (hwait : lock.wait = true) :
      Resolved .victim sys

/-- **A round of `check_and_resolve`.** -/
lemma Resolving.round (h : Resolving needOrdering trx pg heapNo sys) (weightGe : τ → τ → Bool) :
    (∃ sys', resolveBody needOrdering weightGe trx pg sys = .inl sys' ∧
      Resolving needOrdering trx pg heapNo sys') ∨
    ∃ res sys', resolveBody needOrdering weightGe trx pg sys = .inr (res, sys') ∧
      Resolved needOrdering trx pg heapNo res sys' := by
  obtain ⟨ahead, lock, hj⟩ := h.joining
  have hlast : (sys.page pg).getLast? = some lock := by simp [hj.page]
  obtain ⟨x, hx, hbit, -⟩ := hj.granted
  have hfirst : (sys.getFirstLock ⟨pg, lock, []⟩).isSome :=
    h.coherent.getFirstLock_of_ahead hj.page hj.onlyFor ⟨x, hx, hbit⟩
  obtain ⟨houtcome, mark, counter, hmarks, hsys'⟩ :=
    search_outcome weightGe h.coherent hj.owner ⟨ahead, hj.page⟩ hfirst
  have hmarked := h.setMarks hmarks
  have hj' : Joining needOrdering trx pg heapNo
      { sys with deadlockMark := mark, lockMarkCounter := counter } ahead lock :=
    ⟨hj.page, hj.owner, hj.onlyFor, hj.granted, hj.free⟩
  unfold resolveBody
  rw [hlast]
  simp only
  rcases hsearch : search needOrdering weightGe sys trx ⟨pg, lock, []⟩ with ⟨outcome, tooDeep, sys'⟩
  rw [hsearch] at houtcome hsys'
  obtain rfl : sys' = _ := hsys'
  cases outcome with
  | noDeadlock =>
      refine .inr ⟨_, _, rfl, .noVictim hmarked.coherent ?_⟩
      cases hw : lock.wait with
      | true =>
          have hno : ¬ TransGen (WaitsFor needOrdering sys) trx trx := by
            rw [← edge_eq (hj.waitLock h.coherent hw)]
            exact houtcome
          exact h.acyclic.of_edges_from (t := trx) (fun a b hab hne => ⟨hne, hab⟩) hno
      | false =>
          refine h.acyclic.of_le fun a b hab => ⟨?_, hab⟩
          rintro rfl
          exact not_waitsFor_of_none (hj.free hw).1 b hab
  | tooDeep => exact .inr ⟨_, _, rfl, .victim hmarked hj' (hj.wait_of_edge houtcome)⟩
  | failed => exact absurd houtcome id
  | victim v =>
      -- the transaction is on the cycle
      obtain ⟨b, hb, -⟩ := TransGen.head'_iff.mp (houtcome.2.trans_right houtcome.1)
      simp only
      split_ifs with hleave
      · exact .inr ⟨_, _, rfl, .victim hmarked hj' (hj.wait_of_edge ⟨b, hb⟩)⟩
      · push Not at hleave
        obtain ⟨c, ⟨r, hr, -⟩, -⟩ := TransGen.head'_iff.mp houtcome.2
        rw [lockOf, if_neg hleave.2] at hr
        have hr' : LockSys.waitLock { sys with
          deadlockMark := mark, lockMarkCounter := counter } v = some r := hr
        rw [hr']
        exact .inl ⟨_, rfl, hmarked.cancelWaiting hr' hleave.2⟩

/-- **What `check_and_resolve` comes to.** -/
theorem Resolving.resolved [Fintype τ] (h : Resolving needOrdering trx pg heapNo sys)
    (weightGe : τ → τ → Bool) :
    Resolved needOrdering trx pg heapNo
      ((resolveLoop needOrdering weightGe trx pg).run sys).1
      ((resolveLoop needOrdering weightGe trx pg).run sys).2 := by
  obtain ⟨last, hlast, hres⟩ := (resolveLoop needOrdering weightGe trx pg).exists_last
    (I := Resolving needOrdering trx pg heapNo) (fun sys sys' hs hbody => by
      rcases hs.round weightGe with ⟨next, hnext, hnext'⟩ | ⟨res, _, hend, -⟩
      · exact Sum.inl.inj (hnext.symm.trans hbody) ▸ hnext'
      · cases hend.symm.trans hbody) h
  rcases hlast.round weightGe with ⟨next, hnext, -⟩ | ⟨res, sys', hend, hresolved⟩
  · cases hnext.symm.trans hres
  · rw [← Sum.inr.inj (hend.symm.trans hres)]
    exact hresolved

end Resolving

/-! ## The invariant of the lock system -/

/-- The chains are in order, and nobody waits for itself. -/
structure SysInv (needOrdering : τ → τ → Bool) (sys : LockSys τ P) : Prop where
  coherent : Coherent needOrdering sys
  acyclic : Acyclic (WaitsFor needOrdering sys)

/-- A chain up to some lock. -/
lemma Inv.of_append {needOrdering : τ → τ → Bool} {q q' : List (Lock τ)}
    (h : Inv needOrdering (q ++ q')) : Inv needOrdering q :=
  ⟨fun l hl => h.onlyFor l (List.mem_append_left q' hl), (List.pairwise_append.mp h.later).1,
    (Requests.justifiedOn_append.mp h.justified).1⟩

/-- A request that has to wait finds a lock on the record that has been granted: the first one. -/
lemma Inv.exists_granted {needOrdering : τ → τ → Bool} {q : List (Lock τ)} {type : TypeMode}
    {heapNo : ℕ} {trx : τ} (h : Inv needOrdering q)
    (hconf : otherHasConflicting needOrdering q type heapNo trx = true) :
    ∃ x ∈ q, x.nthBit heapNo = true ∧ x.wait = false := by
  obtain ⟨x, hx, hwaits⟩ := List.any_eq_true.mp hconf
  have hbit := (Bool.and_eq_true_iff.mp hwaits).1
  obtain ⟨first, rest, hfirst⟩ : ∃ first rest,
      q.dropWhile (fun l => !l.nthBit heapNo) = first :: rest := by
    refine List.exists_cons_of_ne_nil fun hnil => ?_
    simpa [hbit] using List.dropWhile_eq_nil_iff.mp hnil x hx
  obtain ⟨hstop, skipped, hsplit, hskipped⟩ := dropWhile_eq_cons hfirst
  have hbit' : first.nthBit heapNo = true := by simpa using hstop
  rw [hsplit] at h
  exact ⟨first, by simp [hsplit], hbit',
    h.first_granted hbit' fun y hy => by simpa using hskipped y hy⟩

section Steps

variable [DecidableEq P] {needOrdering : τ → τ → Bool} {sys sys' : LockSys τ P} {trx : τ} {pg : P}
  {type : TypeMode} {heapNo nRecs : ℕ} {q : List (Lock τ)} {lock : Lock τ}

/-- A transaction that does not wait changes its locks. -/
lemma SysInv.settle (h : SysInv needOrdering sys) (htrx : sys.waitPage trx = none)
    (hinv : Inv needOrdering q) (hq : Settled needOrdering trx (sys.page pg) q) :
    SysInv needOrdering (sys.setPage pg q) := by
  obtain ⟨hcoherent, hedges⟩ := h.coherent.settle hinv hq
  exact ⟨hcoherent, h.acyclic.of_edges_to_sink hedges
    (not_waitsFor_of_none (LockSys.setPage_waitPage_of_none htrx))⟩

/-- The transaction that wants to wait is the victim: its request is taken back. -/
lemma Resolving.takeBack {ahead : List (Lock τ)}
    (h : Resolving needOrdering trx pg heapNo sys)
    (hj : Joining needOrdering trx pg heapNo sys ahead lock) (hwait : lock.wait = true) :
    SysInv needOrdering (sys.setPage pg (takeBack heapNo (sys.page pg))) ∧
      (sys.setPage pg (takeBack heapNo (sys.page pg))).waitPage trx = none := by
  let lock' := lock.grant.resetNthBit heapNo
  have htake : RecordLocks.takeBack heapNo (sys.page pg) = ahead ++ [lock'] := by
    simp [RecordLocks.takeBack, hj.page, lock']
  have hinv : Inv needOrdering (ahead ++ [lock']) := by
    have hpage := h.coherent.page pg
    rw [hj.page] at hpage
    refine hpage.of_append.append_granted rfl ?_
    rintro x hx ⟨k, he⟩
    obtain ⟨hne, hbit⟩ := nthBit_resetNthBit.mp he.right
    exact hne ((hj.onlyFor k).mp hbit)
  have hsettled : Settled needOrdering trx (sys.page pg) (ahead ++ [lock']) := by
    rw [hj.page]
    exact .of_eased (eased_replace
      ⟨rfl, fun hw => absurd hw Bool.false_ne_true, fun hne => absurd hj.owner hne⟩)
  rw [htake]
  obtain ⟨hcoherent, hedges⟩ := h.coherent.settle hinv hsettled
  have hpg : sys.waitPage trx = some pg := by
    rw [← hj.owner]
    exact h.coherent.waits pg lock (by simp [hj.page]) hwait
  have hnone : (sys.setPage pg (ahead ++ [lock'])).waitPage trx = none :=
    if_pos ⟨hpg, hj.runs h.coherent hwait (fun _ hy _ => hy) rfl⟩
  refine ⟨⟨hcoherent, h.acyclic.of_edges_to_sink (t := trx) (fun a b hab => ?_)
    (not_waitsFor_of_none hnone)⟩, hnone⟩
  refine (hedges a b hab).imp_left fun hold => ⟨?_, hold⟩
  rintro rfl
  exact not_waitsFor_of_none hnone b hab

/-- A lock that waits is put at the end of a chain, and its transaction is suspended. -/
def LockSys.join (sys : LockSys τ P) (pg : P) (lock : Lock τ) : LockSys τ P :=
  { sys with
    page := Function.update sys.page pg (sys.page pg ++ [lock])
    waitPage := Function.update sys.waitPage lock.trx (some pg) }

lemma LockSys.join_page (pg' : P) : (sys.join pg lock).page pg' =
    if pg' = pg then sys.page pg ++ [lock] else sys.page pg' :=
  Function.update_apply _ _ _ _

/-- The transaction did not wait before. -/
lemma Coherent.join (h : Coherent needOrdering sys) (htrx : sys.waitPage lock.trx = none)
    (hwait : lock.wait = true) (hinv : Inv needOrdering (sys.page pg ++ [lock])) :
    Coherent needOrdering (sys.join pg lock) := by
  have hother : ∀ {pg' l}, l ∈ sys.page pg' → l.wait = true → l.trx ≠ lock.trx := by
    intro pg' l hl hw heq
    rw [← heq, h.waits pg' l hl hw] at htrx
    cases htrx
  refine ⟨fun pg' => ?_, fun pg' l hl hw => ?_, fun pg' => ?_, fun t pg' ht => ?_, h.marks⟩
  · rw [LockSys.join_page]
    split_ifs
    · exact hinv
    · exact h.page pg'
  · have hold : ∀ {pg'}, l ∈ sys.page pg' → (sys.join pg lock).waitPage l.trx = some pg' :=
      fun hl => (Function.update_of_ne (hother hl hw) _ _).trans (h.waits _ l hl hw)
    rw [LockSys.join_page] at hl
    split_ifs at hl with heq
    · subst heq
      rcases List.mem_append.mp hl with hl | hl
      · exact hold hl
      · rw [List.mem_singleton.mp hl]
        exact Function.update_self _ _ _
    · exact hold hl
  · rw [LockSys.join_page]
    split_ifs
    · refine List.pairwise_append.mpr ⟨h.once pg, List.pairwise_singleton _ _, ?_⟩
      intro l hl l' hl' hw _
      rw [List.mem_singleton.mp hl']
      exact hother hl hw
    · exact h.once pg'
  · rw [LockSys.join_page]
    by_cases heq : t = lock.trx
    · subst heq
      obtain rfl : pg = pg' := by simpa [LockSys.join] using ht
      rw [if_pos rfl]
      exact ⟨lock, by simp, rfl, hwait⟩
    · have ht' : sys.waitPage t = some pg' := (Function.update_of_ne heq _ _).symm.trans ht
      obtain ⟨l, hl, hl'⟩ := h.waiting t pg' ht'
      refine ⟨l, ?_, hl'⟩
      split_ifs with hpg
      · exact List.mem_append_left _ (hpg ▸ hl)
      · exact hl

/-- The lock is behind all others: nobody else waits for it. -/
lemma Coherent.waitsFor_of_join (h : Coherent needOrdering (sys.join pg lock))
    (hsys : Coherent needOrdering sys) {a b : τ} (hne : a ≠ lock.trx)
    (hab : WaitsFor needOrdering (sys.join pg lock) a b) : WaitsFor needOrdering sys a b := by
  obtain ⟨pg', l, w, hsub, hw, ha, hwaits, hb⟩ := h.waitsFor_iff.mp hab
  rw [LockSys.join_page] at hsub
  refine hsys.waitsFor_iff.mpr ⟨pg', l, w, ?_, hw, ha, hwaits, hb⟩
  split_ifs at hsub with heq
  · obtain ⟨front, back, hsplit, hfront, hback⟩ := List.sublist_append_iff.mp hsub
    rcases List.sublist_singleton.mp hback with rfl | rfl
    · rw [hsplit, heq]
      simpa using hfront
    · have hlast : w = lock := by simpa using congrArg List.getLast? hsplit
      rw [hlast] at ha
      exact absurd ha.symm hne
  · exact hsub

/-- A request that has to wait is put at the end of the chain. -/
lemma SysInv.resolving (h : SysInv needOrdering sys) (htrx : sys.waitPage trx = none)
    (hlt : heapNo < nRecs)
    (hconf : otherHasConflicting needOrdering (sys.page pg) type heapNo trx = true)
    (hinv : Inv needOrdering (sys.page pg ++ [lockAlloc trx type heapNo nRecs true])) :
    Resolving needOrdering trx pg heapNo
      (sys.join pg (lockAlloc trx type heapNo nRecs true)) := by
  have hcoherent : Coherent needOrdering (sys.join pg (lockAlloc trx type heapNo nRecs true)) :=
    h.coherent.join htrx rfl hinv
  refine ⟨hcoherent, h.acyclic.of_le fun a b hab => ?_, sys.page pg, _,
    (LockSys.join_page pg).trans (if_pos rfl), rfl, fun k => nthBit_lockAlloc hlt,
    (h.coherent.page pg).exists_granted hconf, fun hw => absurd hw.symm Bool.false_ne_true⟩
  exact hcoherent.waitsFor_of_join h.coherent hab.1 hab.2

variable [Fintype τ]

/-- **A request is answered**, and the lock system is in order then.  The transaction is suspended
if it has to wait, and only then. -/
lemma SysInv.answer (h : SysInv needOrdering sys) (weightGe : τ → τ → Bool)
    (htrx : sys.waitPage trx = none) (hlt : heapNo < nRecs) {answer : Err × List (Lock τ)}
    (hanswer : Answered needOrdering (sys.page pg) trx type heapNo nRecs answer)
    (hinv : Inv needOrdering answer.2) :
    ∃ err sys', sys.answer needOrdering weightGe trx pg heapNo answer = some (err, sys') ∧
      SysInv needOrdering sys' ∧ (err = .lockWait ↔ sys'.waitPage trx ≠ none) := by
  cases hanswer with
  | @settled err q herr hq =>
      refine ⟨err, sys.setPage pg q, ?_, h.settle htrx hinv hq, ?_⟩
      · cases err with
        | lockWait => exact absurd rfl herr
        | success | successLockedRec | deadlock => rfl
      · simp [herr, LockSys.setPage_waitPage_of_none htrx]
  | waits hconf =>
      have hresolved := (h.resolving htrx hlt hconf hinv).resolved weightGe
      have hjoin : sys.answer needOrdering weightGe trx pg heapNo
          (.lockWait, sys.page pg ++ [lockAlloc trx type heapNo nRecs true]) =
          (sys.join pg (lockAlloc trx type heapNo nRecs true)).deadlockCheck needOrdering weightGe
            trx pg heapNo := rfl
      simp only [hjoin, LockSys.deadlockCheck]
      generalize (resolveLoop needOrdering weightGe trx pg).run _ = result at hresolved ⊢
      obtain ⟨res, sys'⟩ := result
      cases hresolved with
      | noVictim hcoherent hacyclic =>
          refine ⟨_, _, rfl, ⟨hcoherent, hacyclic⟩, ?_⟩
          split_ifs with hnone
          · simp [hnone]
          · simp [hnone]
      | victim hresolving hj hwait =>
          obtain ⟨hsys', hnone⟩ := hresolving.takeBack hj hwait
          exact ⟨_, _, rfl, hsys', by simp [hnone]⟩

/-- **Every operation keeps the invariant.** -/
lemma SysInv.step (h : SysInv needOrdering sys) {op : SysOp τ P}
    (hstep : sys.step needOrdering op = some sys') : SysInv needOrdering sys' := by
  cases op with
  | lock trx pg impl mode gapMode heapNo nRecs weightGe =>
      obtain ⟨⟨htrx, hlt⟩, hstep⟩ := Option.ite_none_right_eq_some.mp hstep
      obtain ⟨err, sys'', hanswer, hinv, -⟩ := h.answer weightGe htrx hlt
        (answered_lockRecLock impl) ((h.coherent.page pg).lockRecLock hlt impl false)
      rw [hanswer] at hstep
      exact Option.some.inj hstep ▸ hinv
  | insert trx pg heapNo nRecs weightGe =>
      obtain ⟨⟨htrx, hlt⟩, hstep⟩ := Option.ite_none_right_eq_some.mp hstep
      obtain ⟨err, sys'', hanswer, hinv, -⟩ := h.answer weightGe htrx hlt
        answered_insertCheckAndLock ((h.coherent.page pg).insertCheckAndLock hlt false)
      rw [hanswer] at hstep
      exact Option.some.inj hstep ▸ hinv
  | unlock trx pg heapNo mode =>
      obtain ⟨htrx, hstep⟩ := Option.ite_none_right_eq_some.mp hstep
      obtain ⟨q, hq, rfl⟩ := Option.map_eq_some_iff.mp hstep
      exact h.settle htrx ((h.coherent.page pg).unlock hq) (settled_unlock hq)
  | cancel trx =>
      obtain ⟨r, hr, rfl⟩ := Option.map_eq_some_iff.mp hstep
      obtain ⟨hcoherent, hnone, hedges⟩ := h.coherent.cancelWaiting hr
      exact ⟨hcoherent, h.acyclic.of_edges_to_sink hedges (not_waitsFor_of_none hnone)⟩

lemma sysInv_of_reachable (hs : (lockSystem needOrdering).Reachable sys) :
    SysInv needOrdering sys := by
  refine Machine.Run.invariant (M := lockSystem needOrdering) (I := SysInv needOrdering) ?_ ?_
    sys hs
  · rintro sys rfl
    refine ⟨⟨fun _ => ⟨by simp, .nil, trivial⟩, by simp, by simp, nofun, fun _ => le_rfl⟩, ?_⟩
    exact fun a ha => by
      obtain ⟨b, hab, -⟩ := TransGen.head'_iff.mp ha
      exact not_waitsFor_of_none rfl b hab
  · exact fun sys op sys' _ h _ hstep => h.step hstep

/-- **Nobody waits for itself**: no operation leaves a cycle of waiting transactions behind. -/
theorem waits_acyclic (hs : (lockSystem needOrdering).Reachable sys) :
    Acyclic (WaitsFor needOrdering sys) :=
  (sysInv_of_reachable hs).acyclic

/-- Each of two transactions has been granted the record `2` of its own page. -/
def ownRecords : LockSys Bool Bool where
  page pg := [lockAlloc pg (.of .x .recNotGap) 2 4 false]
  waitPage _ := none
  deadlockMark _ := 0
  lockMarkCounter := 0

/-- Then `true` waits for the record of `false`. -/
def crossing (mark : Bool → ℕ) (counter : ℕ) : LockSys Bool Bool where
  page pg := lockAlloc pg (.of .x .recNotGap) 2 4 false ::
    if pg then [] else [lockAlloc true (.of .x .recNotGap) 2 4 true]
  waitPage t := if t then some false else none
  deadlockMark := mark
  lockMarkCounter := counter

/-- There is no deadlock yet. -/
lemma deadlockCheck_crossing : ∃ mark counter,
    (crossing (fun _ => 0) 0).deadlockCheck (fun _ _ => true) (fun _ _ => true) true false 2 =
      some (.lockWait, crossing mark counter) := by
  let sys := crossing (fun _ => 0) 0
  let wanted : Ref Bool Bool := ⟨false, lockAlloc true (.of .x .recNotGap) 2 4 true, []⟩
  obtain ⟨mark, counter, hmarks⟩ :=
    search_marks (fun _ _ => true) (fun _ _ => true) sys true wanted
  have hrun := (searchLoop (fun _ _ => true) (fun _ _ => true) sys true 0).run_of_rounds (n := 8)
    (s := ⟨wanted, 2, sys.page false, [], 0, fun _ => 0, 0⟩) rfl
  have hnone : (search (fun _ _ => true) (fun _ _ => true) sys true wanted).1 = .noDeadlock :=
    congrArg Prod.fst hrun
  have hsearch : search (fun _ _ => true) (fun _ _ => true) sys true wanted =
      (.noDeadlock, (search (fun _ _ => true) (fun _ _ => true) sys true wanted).2.1,
        crossing mark counter) := Prod.ext hnone (Prod.ext rfl hmarks)
  have hloop : (resolveLoop (fun _ _ => true) (fun _ _ => true) true false).run sys =
      (.noVictim, crossing mark counter) := by
    have hlast : (sys.page false).getLast? = some wanted.lock := rfl
    refine Loop.run_result _ ?_
    simp only [resolveLoop, resolveBody, hlast]
    rw [hsearch]
  refine ⟨mark, counter, ?_⟩
  simp only [LockSys.deadlockCheck]
  rw [hloop]
  rfl

lemma reachable_crossing :
    ∃ mark counter, (lockSystem fun _ _ => true).Reachable (crossing mark counter) := by
  have hown : (lockSystem fun _ _ => true).Reachable ownRecords := by
    refine .step (a := .lock false false false .x .recNotGap 2 4 fun _ _ => true) (.step
      (a := .lock true true false .x .recNotGap 2 4 fun _ _ => true) (.init rfl) trivial rfl)
      trivial (congrArg some ((LockSys.mk.injEq ..).mpr ⟨?_, rfl, rfl, rfl⟩))
    funext pg
    cases pg <;> rfl
  have hjoined : { ownRecords with
      page := Function.update ownRecords.page false
        (ownRecords.page false ++ [lockAlloc true (.of .x .recNotGap) 2 4 true])
      waitPage := Function.update ownRecords.waitPage true (some false) } =
      crossing (fun _ => 0) 0 := by
    refine (LockSys.mk.injEq ..).mpr ⟨?_, ?_, rfl, rfl⟩
    · funext pg
      cases pg <;> rfl
    · funext t
      cases t <;> rfl
  obtain ⟨mark, counter, hcheck⟩ := deadlockCheck_crossing
  rw [← hjoined] at hcheck
  exact ⟨mark, counter, .step (a := .lock true false false .x .recNotGap 2 4 fun _ _ => true) hown
    trivial (congrArg (Option.map Prod.snd) hcheck)⟩

lemma waitsFor_crossing (mark : Bool → ℕ) (counter : ℕ) :
    WaitsFor (fun _ _ => true) (crossing mark counter) true false :=
  ⟨⟨false, lockAlloc true (.of .x .recNotGap) 2 4 true, []⟩, rfl, ownRecords.page false, rfl, _,
    List.mem_singleton_self _, rfl, rfl⟩

/-- When `false` in turn asks for the record of `true`, the deadlock is resolved. -/
theorem waits_acyclic_crossing : ∃ sys sys' : LockSys Bool Bool,
    (lockSystem fun _ _ => true).Reachable sys ∧ WaitsFor (fun _ _ => true) sys true false ∧
    sys.step (fun _ _ => true) (.lock false true false .x .recNotGap 2 4 fun _ _ => true) =
      some sys' ∧
    Acyclic (WaitsFor (fun _ _ => true) sys') := by
  obtain ⟨mark, counter, hs⟩ := reachable_crossing
  have h := sysInv_of_reachable hs
  have hlt : 2 < 4 := by decide
  have hasked : Answered (fun _ _ => true) ((crossing mark counter).page true) false
      (.of .x .recNotGap) 2 4 _ := answered_lockRecLock false
  obtain ⟨err, sys', hanswer, -⟩ := h.answer (fun _ _ => true) rfl hlt hasked
    ((h.coherent.page true).lockRecLock hlt false false)
  have hstep : (crossing mark counter).step (fun _ _ => true)
      (.lock false true false .x .recNotGap 2 4 fun _ _ => true) = some sys' :=
    congrArg (Option.map Prod.snd) hanswer
  have hs' : (lockSystem fun _ _ => true).Reachable sys' :=
    .step (a := .lock false true false .x .recNotGap 2 4 fun _ _ => true) hs trivial hstep
  exact ⟨_, sys', hs, waitsFor_crossing mark counter, hstep, waits_acyclic hs'⟩

variable (trx) in
/-- The transaction has got its answer, and it is suspended exactly if it is told to wait. -/
def Replied (reply : Option (Err × LockSys τ P)) : Prop :=
  ∃ err sys', reply = some (err, sys') ∧ (err = .lockWait ↔ sys'.waitPage trx ≠ none)

/-- **Every request is answered**: whatever the weights of the transactions are, no assertion of
release builds fails in the deadlock check, and the transaction is suspended if it is told to wait,
and only then. -/
theorem request_answered (hs : (lockSystem needOrdering).Reachable sys)
    (htrx : sys.waitPage trx = none) (hlt : heapNo < nRecs) (pg : P) (impl : Bool) (mode : Mode)
    (gapMode : Chains.GapMode) (weightGe : τ → τ → Bool) :
    Replied trx (sys.answer needOrdering weightGe trx pg heapNo (lockRecLock needOrdering
      (sys.page pg) impl trx (.of mode gapMode) heapNo nRecs false)) ∧
    Replied trx (sys.answer needOrdering weightGe trx pg heapNo (insertCheckAndLock needOrdering
      (sys.page pg) trx heapNo nRecs false)) := by
  have h := sysInv_of_reachable hs
  obtain ⟨err, sys₁, hlock, -, hwait⟩ := h.answer weightGe htrx hlt
    (answered_lockRecLock impl) ((h.coherent.page pg).lockRecLock hlt impl false)
  obtain ⟨err', sys₂, hinsert, -, hwait'⟩ := h.answer weightGe htrx hlt
    answered_insertCheckAndLock ((h.coherent.page pg).insertCheckAndLock hlt false)
  exact ⟨⟨err, sys₁, hlock, hwait⟩, err', sys₂, hinsert, hwait'⟩

/-- The request that would close a cycle is answered. -/
theorem request_answered_crossing : ∃ sys : LockSys Bool Bool,
    (lockSystem fun _ _ => true).Reachable sys ∧ WaitsFor (fun _ _ => true) sys true false ∧
    sys.waitPage false = none ∧
    Replied false (sys.answer (fun _ _ => true) (fun _ _ => true) false true 2 (lockRecLock
      (fun _ _ => true) (sys.page true) false false (.of .x .recNotGap) 2 4 false)) := by
  obtain ⟨mark, counter, hs⟩ := reachable_crossing
  exact ⟨_, hs, waitsFor_crossing mark counter, rfl,
    (request_answered hs rfl (by decide) true false .x .recNotGap fun _ _ => true).1⟩

end Steps

/-! ## Giving records back -/

section Drain

variable {needOrdering : τ → τ → Bool} {sys : LockSys τ P} {pg : P} {q q' : List (Lock τ)}
  {l : Lock τ} {heapNo : ℕ}

/-- The records for which the lock is. -/
def Lock.records (l : Lock τ) : Finset ℕ := (Finset.range l.nBits).filter fun k => l.nthBit k = true

/-- The number of records for which there are locks in a chain, once for each lock. -/
def bitCount (q : List (Lock τ)) : ℕ := (q.map fun l => l.records.card).sum

omit [DecidableEq τ] in
lemma Lock.mem_records {k : ℕ} : k ∈ l.records ↔ l.nthBit k = true := by
  simp only [records, Finset.mem_filter, Finset.mem_range, and_iff_right_iff_imp]
  exact fun hbit => (nthBit_iff.mp hbit).1

omit [DecidableEq τ] in
lemma Lock.records_resetNthBit_lt (hbit : l.nthBit heapNo = true) :
    (l.resetNthBit heapNo).records.card < l.records.card := by
  refine Finset.card_lt_card ⟨fun k hk => ?_, fun hsub => ?_⟩
  · exact mem_records.mpr (nthBit_resetNthBit.mp (mem_records.mp hk)).2
  · exact (nthBit_resetNthBit.mp (mem_records.mp (hsub (mem_records.mpr hbit)))).1 rfl

/-- To grant locks does not change their records. -/
lemma bitCount_grantPass {visit : Lock τ → Bool} :
    bitCount ((requests needOrdering).grantPass visit [] q) = bitCount q := by
  have hsame : ((requests needOrdering).grantPass visit [] q).map (fun l => l.records.card) =
      q.map fun l => l.records.card := by
    rw [← List.forall₂_eq_eq_eq, List.forall₂_map_left_iff, List.forall₂_map_right_iff]
    refine Requests.grantPass_forall₂.imp fun l' l h => ?_
    rcases h with rfl | rfl
    · rfl
    · rfl
  rw [bitCount, hsame, bitCount]

variable (needOrdering) in
/-- A record is given back. -/
lemma exists_unlock (hl : l ∈ q) (hbit : l.nthBit heapNo = true)
    (hruns : ∀ x ∈ q, x.trx = l.trx → x.wait = false) :
    ∃ q', unlock needOrdering q l.trx heapNo l.typeMode.mode = some q' ∧
      bitCount q' < bitCount q := by
  have hself : unlocks l.trx heapNo l.typeMode.mode l = true := by simp [unlocks, hbit]
  cases hupd : updateFirst (unlocks l.trx heapNo l.typeMode.mode) (·.resetNthBit heapNo) q with
  | none => exact absurd hself (by simp [updateFirst_eq_none hupd l hl])
  | some r =>
      obtain ⟨q₁, x, q₂, rfl, hfind, rfl⟩ := updateFirst_some hupd
      have hx : unlocks l.trx heapNo l.typeMode.mode x = true := List.find?_some hfind
      simp only [unlocks, Bool.and_eq_true, decide_eq_true_eq] at hx
      have hwait : x.wait = false := hruns x (by simp) hx.2.1
      refine ⟨_, by simp only [unlock, hfind, hwait, hupd]; rfl, ?_⟩
      rw [bitCount_grantPass]
      have hless := Lock.records_resetNthBit_lt hx.1
      simp only [bitCount, List.map_append, List.map_cons, List.sum_append, List.sum_cons]
      omega

lemma exists_bit_of_waitsFor {w : Lock τ} (h : waitsFor needOrdering w l = true) :
    ∃ k, l.nthBit k = true := by
  unfold waitsFor at h
  split at h
  · rename_i k _
    exact ⟨k, (Bool.and_eq_true_iff.mp h).1⟩
  · cases h

/-- **Somebody goes on**: among those who have locks on records one is not suspended. -/
lemma SysInv.exists_running [Finite τ] (h : SysInv needOrdering sys) (hl : l ∈ sys.page pg)
    (hbit : l.nthBit heapNo = true) :
    ∃ pg', ∃ l' ∈ sys.page pg', ∃ k, l'.nthBit k = true ∧ sys.waitPage l'.trx = none := by
  obtain ⟨t, ⟨pg', l', hl', ⟨k, hk⟩, rfl⟩, hsink⟩ := h.acyclic.exists_sink
    (S := {t | ∃ pg, ∃ l ∈ sys.page pg, (∃ k, l.nthBit k = true) ∧ l.trx = t})
    ⟨l.trx, pg, l, hl, ⟨heapNo, hbit⟩, rfl⟩ (by
      intro a _ b hab
      obtain ⟨pg, l, w, hsub, -, -, hwaits, hb⟩ := h.coherent.waitsFor_iff.mp hab
      exact ⟨pg, l, hsub.subset List.mem_cons_self, exists_bit_of_waitsFor hwaits, hb⟩)
  refine ⟨pg', l', hl', k, hk, ?_⟩
  cases hw : sys.waitPage l'.trx with
  | none => rfl
  | some pg =>
      -- who is suspended waits for somebody
      obtain ⟨r, hr⟩ := h.coherent.exists_waitLock hw
      obtain ⟨-, hwait, ahead, hpage⟩ := LockSys.waitLock_some hr
      have hjustified := (h.coherent.page r.page).justified
      rw [hpage] at hjustified
      obtain ⟨x, hx, hwaits⟩ := hjustified.exists_ahead hwait
      exact absurd ⟨r, hr, ahead, hpage, x, hx, hwaits, rfl⟩ (hsink x.trx)

/-- **All waits can be ended**: from every reachable state those who are not suspended can give back
records one after the other until everybody who waits has been granted its lock. -/
theorem waits_drain [Fintype τ] [Fintype P] [DecidableEq P]
    (hs : (lockSystem needOrdering).Reachable sys) :
    (lockSystem needOrdering).Leads
      (fun _ op => ∃ trx pg heapNo mode, op = .unlock trx pg heapNo mode) sys
      fun sys' => ∀ t, sys'.waitPage t = none := by
  refine (Machine.leads_of_rank (I := SysInv needOrdering)
    (P := fun sys' => ∀ t, sys'.waitPage t = none)
    (fun sys => ∑ pg, bitCount (sys.page pg)) ?_ sys (sysInv_of_reachable hs)).mono fun _ h => h.2
  intro sys h hnot
  push Not at hnot
  obtain ⟨t, ht⟩ := hnot
  obtain ⟨pg, hpg⟩ := Option.ne_none_iff_exists'.mp ht
  obtain ⟨w, hw, -, hwait⟩ := h.coherent.waiting t pg hpg
  obtain ⟨k, hone⟩ := (h.coherent.page pg).onlyFor w hw hwait
  obtain ⟨pg, l, hl, k, hbit, hruns⟩ := h.exists_running hw ((hone k).mpr rfl)
  have hgranted : ∀ x ∈ sys.page pg, x.trx = l.trx → x.wait = false := by
    intro x hx hxt
    by_contra hxw
    have hsome := h.coherent.waits pg x hx (Bool.eq_true_of_not_eq_false hxw)
    rw [hxt, hruns] at hsome
    cases hsome
  obtain ⟨q, hq, hless⟩ := exists_unlock needOrdering hl hbit hgranted
  have hstep : sys.step needOrdering (.unlock l.trx pg k l.typeMode.mode) =
      some (sys.setPage pg q) := by
    simp only [LockSys.step, if_pos hruns, hq, Option.map_some]
  refine ⟨.unlock l.trx pg k l.typeMode.mode, _, ⟨_, _, _, _, rfl⟩, hstep, h.step hstep, ?_⟩
  refine sum_lt_of_thread (t := pg) ?_ fun pg' hne => ?_
  · simpa only [LockSys.setPage, Function.update_self] using hless
  · simp only [LockSys.setPage, Function.update_of_ne hne, le_refl]

/-- When `false` gives the record back, `true` is granted the lock for which it waits. -/
theorem waits_drain_crossing : ∃ sys : LockSys Bool Bool,
    (lockSystem fun _ _ => true).Reachable sys ∧ WaitsFor (fun _ _ => true) sys true false ∧
    (lockSystem fun _ _ => true).Leads
      (fun _ op => ∃ trx pg heapNo mode, op = .unlock trx pg heapNo mode) sys
      fun sys' => ∀ t, sys'.waitPage t = none := by
  obtain ⟨mark, counter, hs⟩ := reachable_crossing
  exact ⟨_, hs, waitsFor_crossing mark counter, waits_drain hs⟩

end Drain

end Multicore.Project4.RecordLocks
