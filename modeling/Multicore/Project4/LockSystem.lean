import Mathlib.Data.List.Forall2
import Multicore.Lib.Acyclic
import Multicore.Project4.RecordLocks

/-!
# The record locks of all pages

The lock system has a chain of locks for each page (that from `cell->node`, under `FCFS`).  A
transaction that has to wait is suspended until its lock is granted or taken back; so it waits for
one lock at a time, and `trx->lock.wait_lock` points to it.  What is said here about the operations
on the chains holds for those that run under the mutex of the lock system.  The release of the locks
at the end of a transaction, `lock_release`, does not take it and is none of them.

* `LockSys` — the chains and the transactions; `LockSys.waitLock` — `trx->lock.wait_lock`.
* `WaitsFor` — the waits-for graph: who waits stands behind a lock of somebody else, for which it
  has to wait.
* `Coherent` — the chains and the transactions agree on who waits.
* `Settled` — what a transaction can do to a chain without waiting.  **`Coherent.settle`**: the
  graph gets no new edges by it, except to this transaction.
-/

namespace Multicore.Project4.RecordLocks

variable {τ P : Type*}

/-! ## The system -/

/-- The record locks, and what the lock system knows about transactions. -/
structure LockSys (τ P : Type*) where
  /-- the chain of each page -/
  page : P → List (Lock τ)
  /-- the page of `trx->lock.wait_lock`, if the transaction waits -/
  waitPage : τ → Option P
  /-- `trx->lock.deadlock_mark` -/
  deadlockMark : τ → ℕ
  /-- `s_lock_mark_counter` -/
  lockMarkCounter : ℕ

/-- A pointer to a lock: the lock, and the locks behind it in the chain of its page. -/
structure Ref (τ P : Type*) where
  page : P
  lock : Lock τ
  behind : List (Lock τ)

/-- The place of a lock in the chain of its page. -/
def Ref.pos (sys : LockSys τ P) (r : Ref τ P) : ℕ :=
  (sys.page r.page).length - (r.behind.length + 1)

/-- The lock is taken out of its chain. -/
lemma Ref.eraseIdx_pos {sys : LockSys τ P} {r : Ref τ P} {ahead : List (Lock τ)}
    (hpage : sys.page r.page = ahead ++ r.lock :: r.behind) :
    (sys.page r.page).eraseIdx (r.pos sys) = ahead ++ r.behind := by
  have hpos : r.pos sys = ahead.length := by
    simp only [Ref.pos, hpage, List.length_append, List.length_cons]
    omega
  rw [hpos, hpage, List.eraseIdx_append_of_length_le le_rfl, Nat.sub_self, List.eraseIdx_cons_zero]

section System

variable [DecidableEq τ] (needOrdering : τ → τ → Bool) (sys : LockSys τ P)

/-- `trx->lock.wait_lock`: the lock of the transaction that waits. -/
def LockSys.waitLock (t : τ) : Option (Ref τ P) :=
  match sys.waitPage t with
  | none => none
  | some pg =>
      match (sys.page pg).dropWhile fun l => !(decide (l.trx = t) && l.wait) with
      | [] => none
      | w :: behind => some ⟨pg, w, behind⟩

/-- The chain of a page has changed to `q`: whose lock does not wait any more goes on. -/
def LockSys.setPage [DecidableEq P] (pg : P) (q : List (Lock τ)) : LockSys τ P :=
  { sys with
    page := Function.update sys.page pg q
    waitPage := fun t =>
      if sys.waitPage t = some pg ∧ runs q t = true then none else sys.waitPage t }

/-- Ahead of the lock there is one of transaction `b` for which it has to wait. -/
def Ref.BlockedBy (r : Ref τ P) (b : τ) : Prop :=
  ∃ ahead, sys.page r.page = ahead ++ r.lock :: r.behind ∧
    ∃ l ∈ ahead, waitsFor needOrdering r.lock l = true ∧ l.trx = b

/-- The waits-for graph. -/
def WaitsFor (a b : τ) : Prop := ∃ r, sys.waitLock a = some r ∧ r.BlockedBy needOrdering sys b

/-- The chains are in order, and every lock that waits is the `wait_lock` of its transaction. -/
structure Coherent : Prop where
  page : ∀ pg, Inv needOrdering (sys.page pg)
  waits : ∀ pg, ∀ l ∈ sys.page pg, l.wait = true → sys.waitPage l.trx = some pg
  once : ∀ pg, (sys.page pg).Pairwise fun l l' => l.wait = true → l'.wait = true → l.trx ≠ l'.trx
  waiting : ∀ t pg, sys.waitPage t = some pg → ∃ l ∈ sys.page pg, l.trx = t ∧ l.wait = true
  marks : ∀ t, sys.deadlockMark t ≤ sys.lockMarkCounter

end System

section Coherent

variable [DecidableEq τ] {needOrdering : τ → τ → Bool} {sys : LockSys τ P} {t a b : τ} {pg : P}
  {r : Ref τ P}

lemma waitsFor_eq {w l : Lock τ} {heapNo : ℕ} (hbit : w.findSetBit = some heapNo) :
    waitsFor needOrdering w l = (l.nthBit heapNo && hasToWait needOrdering w l) := by
  simp only [waitsFor, hbit]

/-- The first lock on a record has nobody to wait for. -/
lemma Inv.first_granted {ahead behind : List (Lock τ)} {l : Lock τ} {heapNo : ℕ}
    (h : Inv needOrdering (ahead ++ l :: behind)) (hbit : l.nthBit heapNo = true)
    (hahead : ∀ x ∈ ahead, x.nthBit heapNo = false) : l.wait = false := by
  rw [Bool.eq_false_iff]
  intro hwait
  obtain ⟨k, hone⟩ := h.onlyFor l (by simp) hwait
  obtain rfl : heapNo = k := (hone heapNo).mp hbit
  obtain ⟨x, hx, hwaits⟩ := h.justified.exists_ahead hwait
  have hboth : waitsFor needOrdering l x = true := hwaits
  rw [waitsFor_eq hone.findSetBit, hahead x hx] at hboth
  exact Bool.noConfusion hboth

/-- What `wait_lock` points to. -/
lemma LockSys.waitLock_some (h : sys.waitLock t = some r) :
    r.lock.trx = t ∧ r.lock.wait = true ∧
      ∃ ahead, sys.page r.page = ahead ++ r.lock :: r.behind := by
  unfold waitLock at h
  split at h
  · cases h
  · rename_i pg hpg
    split at h
    · cases h
    · rename_i w behind hdrop
      obtain rfl := Option.some.inj h
      obtain ⟨hstop, ahead, hpage, -⟩ := dropWhile_eq_cons hdrop
      simp only [Bool.not_eq_false', Bool.and_eq_true, decide_eq_true_eq] at hstop
      exact ⟨hstop.1, hstop.2, ahead, hpage⟩

/-- Who does not wait has no `wait_lock`. -/
lemma LockSys.waitLock_eq_none (h : sys.waitPage t = none) : sys.waitLock t = none := by
  simp only [waitLock, h]

lemma Coherent.setMarks (h : Coherent needOrdering sys) {mark : τ → ℕ} {counter : ℕ}
    (hmarks : ∀ t, mark t ≤ counter) :
    Coherent needOrdering { sys with deadlockMark := mark, lockMarkCounter := counter } :=
  ⟨h.page, h.waits, h.once, h.waiting, hmarks⟩

/-- Who does not wait has no edges to others. -/
lemma not_waitsFor_of_none (h : sys.waitPage t = none) (b : τ) :
    ¬ WaitsFor needOrdering sys t b := by
  rintro ⟨r, hr, -⟩
  rw [LockSys.waitLock_eq_none h] at hr
  cases hr

namespace Coherent

/-- Only one lock of a transaction waits. -/
lemma waitLock_eq (h : Coherent needOrdering sys) {ahead behind : List (Lock τ)} {w : Lock τ}
    (hpage : sys.page pg = ahead ++ w :: behind) (hw : w.wait = true) :
    sys.waitLock w.trx = some ⟨pg, w, behind⟩ := by
  have hmem : w ∈ sys.page pg := by simp [hpage]
  have honce := h.once pg
  rw [hpage] at honce
  have hskip : (ahead ++ w :: behind).dropWhile (fun l => !(decide (l.trx = w.trx) && l.wait))
      = w :: behind := by
    rw [List.dropWhile_append_of_pos, List.dropWhile_cons_of_neg (by simp [hw])]
    intro l hl
    have hne := (List.pairwise_append.mp honce).2.2 l hl w List.mem_cons_self
    cases hlw : l.wait with
    | false => simp
    | true => simp [hne hlw hw]
  simp only [LockSys.waitLock, h.waits pg w hmem hw, hpage, hskip]

lemma exists_waitLock (h : Coherent needOrdering sys) (ht : sys.waitPage t = some pg) :
    ∃ r, sys.waitLock t = some r := by
  obtain ⟨w, hw, rfl, hwait⟩ := h.waiting t pg ht
  obtain ⟨ahead, behind, hpage⟩ := List.append_of_mem hw
  exact ⟨_, h.waitLock_eq hpage hwait⟩

/-- The graph, in terms of the chains. -/
lemma waitsFor_iff (h : Coherent needOrdering sys) :
    WaitsFor needOrdering sys a b ↔ ∃ pg l w, [l, w].Sublist (sys.page pg) ∧ w.wait = true ∧
      w.trx = a ∧ waitsFor needOrdering w l = true ∧ l.trx = b := by
  constructor
  · rintro ⟨r, hr, ahead, hpage, l, hl, hwaits, hb⟩
    obtain ⟨htrx, hwait, -⟩ := LockSys.waitLock_some hr
    refine ⟨r.page, l, r.lock, ?_, hwait, htrx, hwaits, hb⟩
    rw [hpage]
    exact (List.singleton_sublist.mpr hl).append (List.singleton_sublist.mpr List.mem_cons_self)
  · rintro ⟨pg, l, w, hsub, hwait, rfl, hwaits, hb⟩
    obtain ⟨ahead, rest, hpage, hl, hrest⟩ := List.cons_sublist_iff.mp hsub
    obtain ⟨between, behind, rfl⟩ := List.append_of_mem (List.singleton_sublist.mp hrest)
    rw [← List.append_assoc] at hpage
    exact ⟨_, h.waitLock_eq hpage hwait, _, hpage, l, List.mem_append_left _ hl, hwaits, hb⟩

end Coherent

end Coherent

/-! ## What happens to a chain -/

section Settled

variable [DecidableEq τ] {needOrdering : τ → τ → Bool} {sys : LockSys τ P} {t : τ} {pg : P}

/-- A lock `l` has become `l'`: it was granted, or transaction `t` has changed it. -/
structure EasedBy (needOrdering : τ → τ → Bool) (t : τ) (l' l : Lock τ) : Prop where
  trx : l'.trx = l.trx
  wait : l'.wait = true → l' = l
  others : l.trx ≠ t → ∀ w, waitsFor needOrdering w l' = true → waitsFor needOrdering w l = true

instance : Std.Refl (EasedBy needOrdering t) where
  refl _ := ⟨rfl, fun _ => rfl, fun _ _ => id⟩

instance : IsTrans (Lock τ) (EasedBy needOrdering t) where
  trans l₁ l₂ l₃ h h' :=
    { trx := h.trx.trans h'.trx
      wait := fun hw => by
        obtain rfl := h.wait hw
        exact h'.wait hw
      others := fun hne w hw => h'.others hne w (h.others (h'.trx ▸ hne) w hw) }

/-- Locks may have left the chain or been granted, transaction `t` may have changed its locks, and
may have got new ones. -/
def Settled (needOrdering : τ → τ → Bool) (t : τ) (q q' : List (Lock τ)) : Prop :=
  ∃ q₀ new, q' = q₀ ++ new ∧ List.SublistForall₂ (EasedBy needOrdering t) q₀ q ∧
    ∀ l ∈ new, l.trx = t ∧ l.wait = false

/-- Some locks of the chain, and what they were. -/
lemma exists_eased {q q₀ locks : List (Lock τ)} (hlocks : locks.Sublist q₀)
    (h : List.SublistForall₂ (EasedBy needOrdering t) q₀ q) :
    ∃ old, List.Forall₂ (EasedBy needOrdering t) locks old ∧ old.Sublist q := by
  have hsub : List.SublistForall₂ (EasedBy needOrdering t) locks q₀ := hlocks.sublistForall₂
  exact List.sublistForall₂_iff.mp (IsTrans.trans _ _ _ hsub h)

namespace Settled

variable {q q' : List (Lock τ)} {l w : Lock τ}

/-- Nothing was added. -/
lemma of_eased (h : List.SublistForall₂ (EasedBy needOrdering t) q' q) :
    Settled needOrdering t q q' :=
  ⟨q', [], (List.append_nil q').symm, h, fun _ hl => absurd hl List.not_mem_nil⟩

lemma refl (q : List (Lock τ)) : Settled needOrdering t q q :=
  of_eased (List.Sublist.refl q).sublistForall₂

/-- A lock that waits has waited before. -/
lemma mem (h : Settled needOrdering t q q') (hw : w ∈ q') (hwait : w.wait = true) : w ∈ q := by
  obtain ⟨q₀, new, rfl, hq₀, hnew⟩ := h
  rcases List.mem_append.mp hw with hmem | hmem
  · obtain ⟨old, hold, hsub⟩ := exists_eased (List.singleton_sublist.mpr hmem) hq₀
    obtain ⟨l, rest, he, hrest, rfl⟩ := List.forall₂_cons_left_iff.mp hold
    obtain rfl := List.forall₂_nil_left_iff.mp hrest
    rw [he.wait hwait]
    exact List.singleton_sublist.mp hsub
  · exact absurd ((hnew w hmem).2.symm.trans hwait) Bool.false_ne_true

/-- What is ahead of a lock that waits has been ahead of it before. -/
lemma pair (h : Settled needOrdering t q q') (hsub : [l, w].Sublist q') (hwait : w.wait = true) :
    ∃ old, [old, w].Sublist q ∧ EasedBy needOrdering t l old := by
  obtain ⟨q₀, new, rfl, hq₀, hnew⟩ := h
  obtain ⟨front, back, hsplit, hfront, hback⟩ := List.sublist_append_iff.mp hsub
  -- the waiting lock is none of the new ones
  have hback_nil : back = [] := by
    rcases List.eq_nil_or_concat back with hnil | ⟨init, x, rfl⟩
    · exact hnil
    · rw [List.concat_eq_append, ← List.append_assoc] at hsplit
      have hlast : w = x := by
        have := congrArg List.getLast? hsplit
        simpa using this
      have hmem : x ∈ new := hback.subset (by simp)
      exact absurd ((hnew x hmem).2.symm.trans (hlast ▸ hwait)) Bool.false_ne_true
  obtain rfl : front = [l, w] := by simpa [hback_nil] using hsplit.symm
  obtain ⟨old, hold, hsub⟩ := exists_eased hfront hq₀
  obtain ⟨l₀, rest, hl₀, hrest, rfl⟩ := List.forall₂_cons_left_iff.mp hold
  obtain ⟨w₀, none, hw₀, hnone, rfl⟩ := List.forall₂_cons_left_iff.mp hrest
  obtain rfl := List.forall₂_nil_left_iff.mp hnone
  obtain rfl := hw₀.wait hwait
  exact ⟨l₀, hsub, hl₀⟩

end Settled

/-! ### The operations on a chain -/

section Chain

variable {q q' q₁ q₂ : List (Lock τ)} {l l' : Lock τ} {type : TypeMode} {heapNo nRecs : ℕ}

lemma eased_replace (h : EasedBy needOrdering t l' l) :
    List.SublistForall₂ (EasedBy needOrdering t) (q₁ ++ l' :: q₂) (q₁ ++ l :: q₂) := by
  induction q₁ with
  | nil => exact .cons h (List.Sublist.refl q₂).sublistForall₂
  | cons x q₁ ih => exact .cons (Std.Refl.refl x) ih

lemma eased_grantPass {visit : Lock τ → Bool} :
    List.SublistForall₂ (EasedBy needOrdering t)
      ((requests needOrdering).grantPass visit [] q) q := by
  refine List.sublistForall₂_iff.mpr ⟨q, ?_, List.Sublist.refl q⟩
  refine Requests.grantPass_forall₂.imp fun l' l h => ?_
  rcases h with rfl | rfl
  · exact Std.Refl.refl l'
  · exact ⟨rfl, fun hw => absurd hw Bool.false_ne_true, fun _ _ => id⟩

lemma Settled.of_sublist {q₀ : List (Lock τ)} (hsub : q₀.Sublist q)
    (h : Settled needOrdering t q₀ q') : Settled needOrdering t q q' := by
  obtain ⟨rest, new, rfl, hrest, hnew⟩ := h
  obtain ⟨old, hold, hold'⟩ := List.sublistForall₂_iff.mp hrest
  exact ⟨rest, new, rfl, List.sublistForall₂_iff.mpr ⟨old, hold, hold'.trans hsub⟩, hnew⟩

lemma settled_dequeueFromPage (i : ℕ) :
    Settled needOrdering t q (dequeueFromPage needOrdering q i) :=
  (Settled.of_eased eased_grantPass).of_sublist (List.eraseIdx_sublist q i)

lemma settled_unlock {mode : Mode} (h : unlock needOrdering q t heapNo mode = some q') :
    Settled needOrdering t q q' := by
  unfold unlock at h
  split at h
  · exact Option.some.inj h ▸ .refl q
  · rename_i l hfind
    split_ifs at h with hwait
    obtain ⟨q₀, hq₀, rfl⟩ := Option.map_eq_some_iff.mp h
    obtain ⟨q₁, l', q₂, rfl, hl', rfl⟩ := updateFirst_some hq₀
    obtain rfl : l = l' := Option.some.inj (hfind.symm.trans hl')
    have hunlocks : unlocks t heapNo mode l = true := List.find?_some hfind
    simp only [unlocks, Bool.and_eq_true, decide_eq_true_eq] at hunlocks
    have heased : EasedBy needOrdering t (l.resetNthBit heapNo) l :=
      ⟨rfl, fun hw => absurd hw hwait, fun hne => absurd hunlocks.2.1 hne⟩
    exact .of_eased (IsTrans.trans _ _ _ eased_grantPass (eased_replace heased))

/-- A bit is set in a lock of the transaction. -/
lemma settled_setNthBit (h : similar t type heapNo l = true) :
    Settled needOrdering t (q₁ ++ l :: q₂) (q₁ ++ l.setNthBit heapNo :: q₂) := by
  obtain ⟨htrx, -, hw, -⟩ := of_decide_eq_true h
  exact .of_eased (eased_replace
    ⟨rfl, fun hw' => absurd (hw.symm.trans hw') Bool.false_ne_true, fun hne => absurd htrx hne⟩)

lemma settled_addToQueue :
    Settled needOrdering t q (addToQueue q t type heapNo nRecs) := by
  have hnew : Settled needOrdering t q (q ++ [lockAlloc t type heapNo nRecs false]) :=
    ⟨q, _, rfl, (List.Sublist.refl q).sublistForall₂, by simp [lockAlloc]⟩
  simp only [addToQueue]
  split_ifs
  · exact hnew
  · cases hupd : updateFirst (similar t (type.norm heapNo) heapNo) (·.setNthBit heapNo) q with
    | none => exact hnew
    | some q' =>
        obtain ⟨q₁, l, q₂, rfl, hl, rfl⟩ := updateFirst_some hupd
        exact settled_setNthBit (List.find?_some hl)

/-- What a request comes to: its lock waits at the end of the chain, or it has been answered. -/
inductive Answered (needOrdering : τ → τ → Bool) (q : List (Lock τ)) (trx : τ) (type : TypeMode)
    (heapNo nRecs : ℕ) : Err × List (Lock τ) → Prop
  | waits (hconf : otherHasConflicting needOrdering q type heapNo trx = true) :
      Answered needOrdering q trx type heapNo nRecs
        (.lockWait, q ++ [lockAlloc trx type heapNo nRecs true])
  | settled {err : Err} {q' : List (Lock τ)} (herr : err ≠ .lockWait)
      (hq : Settled needOrdering trx q q') :
      Answered needOrdering q trx type heapNo nRecs (err, q')

lemma answered_lockRecLock (impl : Bool) : Answered needOrdering q t type heapNo nRecs
    (lockRecLock needOrdering q impl t type heapNo nRecs false) := by
  unfold lockRecLock
  cases hfast : lockRecLockFast q impl t type heapNo nRecs with
  | some answer =>
      unfold lockRecLockFast at hfast
      split at hfast
      · obtain rfl := Option.some.inj hfast
        refine .settled (by simp) ?_
        split_ifs
        · exact .refl []
        · exact ⟨[], _, rfl, .nil, by simp [lockAlloc]⟩
      · rename_i l
        split_ifs at hfast with hl hbit
        · obtain rfl := Option.some.inj hfast
          exact .settled (by simp) (.refl [l])
        · obtain rfl := Option.some.inj hfast
          have hq : Settled needOrdering t ([] ++ l :: []) ([] ++ l.setNthBit heapNo :: []) :=
            settled_setNthBit hl
          exact .settled (by simp) hq
      · cases hfast
  | none =>
      simp only [lockRecLockSlow]
      split_ifs with hexpl hconf
      · exact .settled (by simp) (.refl q)
      · exact .waits hconf
      · exact .settled (by simp) (.refl q)
      · exact .settled (by simp) settled_addToQueue

lemma answered_insertCheckAndLock : Answered needOrdering q t .insertion heapNo nRecs
    (insertCheckAndLock needOrdering q t heapNo nRecs false) := by
  unfold insertCheckAndLock
  split_ifs with hconf
  · exact .waits hconf
  · exact .settled (by simp) (.refl q)

end Chain

lemma runs_eq_false {q : List (Lock τ)} :
    runs q t = false ↔ ∃ l ∈ q, l.trx = t ∧ l.wait = true := by
  simp [runs]

/-- **A transaction changes its locks in a chain.** -/
theorem Coherent.settle [DecidableEq P] (h : Coherent needOrdering sys) {q : List (Lock τ)}
    (hinv : Inv needOrdering q) (hq : Settled needOrdering t (sys.page pg) q) :
    Coherent needOrdering (sys.setPage pg q) ∧
      ∀ a b, WaitsFor needOrdering (sys.setPage pg q) a b →
        WaitsFor needOrdering sys a b ∨ b = t := by
  have hpage : ∀ pg', (sys.setPage pg q).page pg' = if pg' = pg then q else sys.page pg' :=
    fun pg' => Function.update_apply _ _ _ _
  have hcoherent : Coherent needOrdering (sys.setPage pg q) := by
    refine ⟨fun pg' => ?_, fun pg' l hl hw => ?_, fun pg' => ?_, fun u pg' hu => ?_, h.marks⟩
    · rw [hpage]
      split_ifs
      · exact hinv
      · exact h.page pg'
    · rw [hpage] at hl
      split_ifs at hl with heq
      · subst heq
        have hruns : runs q l.trx = false := runs_eq_false.mpr ⟨l, hl, rfl, hw⟩
        simp only [LockSys.setPage, hruns, Bool.false_eq_true, and_false, if_false]
        exact h.waits pg' l (hq.mem hl hw) hw
      · have hold := h.waits pg' l hl hw
        simp only [LockSys.setPage, hold, Option.some.injEq, heq, false_and, if_false]
    · rw [hpage]
      split_ifs with heq
      · subst heq
        refine List.pairwise_iff_forall_sublist.mpr fun {l l'} hsub hl hl' => ?_
        obtain ⟨old, hsub, he⟩ := hq.pair hsub hl'
        obtain rfl := he.wait hl
        exact List.pairwise_iff_forall_sublist.mp (h.once pg') hsub hl hl'
      · exact h.once pg'
    · simp only [LockSys.setPage] at hu
      split_ifs at hu with hwaits
      rw [hpage]
      split_ifs with heq
      · subst heq
        have hruns : runs q u = false := by simpa [hu] using hwaits
        exact runs_eq_false.mp hruns
      · exact h.waiting u pg' hu
  refine ⟨hcoherent, fun a b hab => ?_⟩
  obtain ⟨pg', l, w, hsub, hwait, ha, hwaits, hb⟩ := hcoherent.waitsFor_iff.mp hab
  rw [hpage] at hsub
  split_ifs at hsub with heq
  · subst heq
    obtain ⟨old, hsub, he⟩ := hq.pair hsub hwait
    by_cases hbt : b = t
    · exact .inr hbt
    · have hold : old.trx ≠ t := fun hold => hbt (hb.symm.trans (he.trx.trans hold))
      exact .inl (h.waitsFor_iff.mpr
        ⟨pg', old, w, hsub, hwait, ha, he.others hold w hwaits, he.trx.symm.trans hb⟩)
  · exact .inl (h.waitsFor_iff.mpr ⟨pg', l, w, hsub, hwait, ha, hwaits, hb⟩)

end Settled

end Multicore.Project4.RecordLocks
