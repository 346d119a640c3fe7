import Multicore.Lib.GrantQueue
import Multicore.Lib.Machine
import Multicore.Project4.Chains

/-!
# The record locks of a page

The locks that do not go through the new chain: the locks of one page in the chain from
`cell->node`, with `innodb_lock_schedule_algorithm = FCFS`.  (The default is `VATS`, which orders
the chain by the age of the transactions.)  A lock object holds a bitmap with the records it is for,
and waits for at most one of them.  The functions of this module run under the mutex of the lock
system, so that an operation is one step.

* `recHasToWait` — `lock_rec_has_to_wait`, with the rules for gaps and insertions.
* `lockRecLock`, `insertCheckAndLock` — requests, the second one before an insertion; they are
  granted, or wait, or are taken back when the deadlock check has chosen their transaction.
* `unlock`, `dequeueFromPage` — a record is given back, or a whole lock is taken out, and locks that
  now need not wait are granted.
* `Inv` — of two locks that exclude each other the later one waits, and who waits has a reason.
* **`granted_compatible`** — no two transactions have been granted locks on a record that exclude
  each other;
* **`nobody_waits_in_vain`** — a lock that waits does so for a lock ahead of it;
* **`success_excludes`** — after a request has been answered with success, nobody else has been
  granted a lock of the chain that the mode does not allow; the transaction has a lock that is
  strong enough, unless it has asked for none (`impl`).

The locks that clustered reads put into the chain from `cell->head` are not seen by these functions.
Nor does a transaction that ends give back its locks through them: `lock_release` calls
`project4_lock_rec_dequeue_from_page`, without the mutex, and `lock_rec_dequeue_from_page` is left
for locks whose wait is cancelled.

Left out are transactions of high priority, which may jump the queue, the cluster and replication
modules (up to `thd_need_ordering_with`, which is arbitrary here), implicit locks, and what happens
to locks when a page is split or a record is purged.
-/

namespace Multicore.Project4.RecordLocks

open Chains (GapMode)

/-! ## Locks -/

/-- `LOCK_S` and `LOCK_X`. -/
inductive Mode
  | s | x
  deriving DecidableEq

/-- `lock_compatibility_matrix`, for the modes that records have. -/
def Mode.compatible : Mode → Mode → Bool
  | .s, .s => true
  | _, _ => false

/-- `lock_strength_matrix`. -/
def Mode.strongerOrEq : Mode → Mode → Bool
  | .s, .x => false
  | _, _ => true

/-- The mode and the flags in `lock->type_mode`, `LOCK_WAIT` apart. -/
structure TypeMode where
  mode : Mode
  gap : Bool
  recNotGap : Bool
  insertIntention : Bool
  deriving DecidableEq

/-- `mode | gap_mode`. -/
def TypeMode.of (mode : Mode) (gapMode : GapMode) : TypeMode :=
  ⟨mode, decide (gapMode = .gap), decide (gapMode = .recNotGap), false⟩

/-- `LOCK_X | LOCK_GAP | LOCK_INSERT_INTENTION`. -/
def TypeMode.insertion : TypeMode := ⟨.x, true, false, true⟩

/-- `PAGE_HEAP_NO_SUPREMUM` -/
def supremum : ℕ := 1

/-- On the supremum every lock is a gap lock: `RecLock::init` takes the two flags away. -/
def TypeMode.norm (type : TypeMode) (heapNo : ℕ) : TypeMode :=
  if heapNo = supremum then { type with gap := false, recNotGap := false } else type

/-- A `lock_t` of the page. -/
structure Lock (τ : Type*) where
  trx : τ
  typeMode : TypeMode
  wait : Bool
  nBits : ℕ
  bits : ℕ → Bool

variable {τ : Type*}

namespace Lock

variable (l : Lock τ) (heapNo : ℕ)

/-- `lock_rec_get_nth_bit` -/
def nthBit : Bool := decide (heapNo < l.nBits) && l.bits heapNo

/-- `lock_rec_set_nth_bit` -/
def setNthBit : Lock τ := { l with bits := Function.update l.bits heapNo true }

/-- `lock_rec_reset_nth_bit` -/
def resetNthBit : Lock τ := { l with bits := Function.update l.bits heapNo false }

/-- `lock_rec_find_set_bit` -/
def findSetBit : Option ℕ := (List.range l.nBits).find? l.nthBit

/-- `lock_grant`, as far as the lock is concerned. -/
def grant : Lock τ := { l with wait := false }

end Lock

/-- The size of the bitmap, in bits, for a page with `nRecs` records (`RecLock::lock_size`). -/
def lockSize (nRecs : ℕ) : ℕ := 8 * (1 + (nRecs + 64) / 8)

/-- `RecLock::lock_alloc`: a lock for one record. -/
def lockAlloc (trx : τ) (type : TypeMode) (heapNo nRecs : ℕ) (wait : Bool) : Lock τ where
  trx := trx
  typeMode := type.norm heapNo
  wait := wait
  nBits := lockSize nRecs
  bits h := decide (h = heapNo)

/-! ## Waiting -/

section Waiting

variable [DecidableEq τ] (needOrdering : τ → τ → Bool)

/-- `lock_rec_has_to_wait`: does a request have to wait for `lock2`, which is on the same record? -/
def recHasToWait (trx : τ) (type : TypeMode) (lock2 : Lock τ) (onSupremum : Bool) : Bool :=
  if trx ≠ lock2.trx ∧ type.mode.compatible lock2.typeMode.mode = false then
    if (onSupremum || type.gap) && !type.insertIntention then false
    else if !type.insertIntention && lock2.typeMode.gap then false
    else if type.gap && lock2.typeMode.recNotGap then false
    else if lock2.typeMode.insertIntention then false
    else if (type.gap || lock2.typeMode.gap) && !needOrdering trx lock2.trx then false
    else true
  else false

/-- `lock_has_to_wait` -/
def hasToWait (lock1 lock2 : Lock τ) : Bool :=
  if lock1.trx ≠ lock2.trx ∧ lock1.typeMode.mode.compatible lock2.typeMode.mode = false then
    recHasToWait needOrdering lock1.trx lock1.typeMode lock2 (lock1.nthBit supremum)
  else false

/-- The test in the loop of `lock_rec_has_to_wait_in_queue`: `lock` is on the record of `waitLock`,
and `waitLock` has to wait for it. -/
def waitsFor (waitLock lock : Lock τ) : Bool :=
  match waitLock.findSetBit with
  | some heapNo => lock.nthBit heapNo && hasToWait needOrdering waitLock lock
  | none => false

/-- The locks of a page as requests in a queue. -/
def requests : Requests (Lock τ) where
  waiting := Lock.wait
  grant := Lock.grant
  waitsFor := waitsFor needOrdering
  waiting_grant _ := rfl
  waitsFor_grant_left _ _ := rfl
  waitsFor_grant_right _ _ := rfl

end Waiting

/-! ## The operations -/

/-- What a request is answered. -/
inductive Err
  | success | successLockedRec | lockWait | deadlock
  deriving DecidableEq

section Operations

variable [DecidableEq τ] (needOrdering : τ → τ → Bool) (q : List (Lock τ))

/-- `lock_rec_has_expl`: the transaction has been granted a lock on the record that is strong
enough. -/
def hasExpl (type : TypeMode) (heapNo : ℕ) (trx : τ) : Bool :=
  q.any fun lock => lock.nthBit heapNo && (decide (lock.trx = trx) && !lock.typeMode.insertIntention
    && lock.typeMode.mode.strongerOrEq type.mode && !lock.wait
    && (!lock.typeMode.recNotGap || type.recNotGap || decide (heapNo = supremum))
    && (!lock.typeMode.gap || type.gap || decide (heapNo = supremum)))

/-- `lock_rec_other_has_conflicting`: somebody else has, or waits for, a lock on the record for
which the request has to wait. -/
def otherHasConflicting (type : TypeMode) (heapNo : ℕ) (trx : τ) : Bool :=
  q.any fun lock =>
    lock.nthBit heapNo && recHasToWait needOrdering trx type lock (decide (heapNo = supremum))

/-- `RecLock::add_to_waitq`, with `RecLock::check_deadlock_result`; `victim` is what the deadlock
check says. -/
def addToWaitq (trx : τ) (type : TypeMode) (heapNo nRecs : ℕ) (victim : Bool) :
    Err × List (Lock τ) :=
  let lock := lockAlloc trx type heapNo nRecs true
  if victim then (.deadlock, q ++ [lock.grant.resetNthBit heapNo]) else (.lockWait, q ++ [lock])

/-- The test of `lock_rec_find_similar_on_page`. -/
def similar (trx : τ) (type : TypeMode) (heapNo : ℕ) (lock : Lock τ) : Bool :=
  decide (lock.trx = trx ∧ lock.typeMode = type ∧ lock.wait = false ∧ heapNo < lock.nBits)

/-- `lock_rec_add_to_queue`, for a request that need not wait: the bit of the record is set in a
similar lock, unless somebody waits for the record. -/
def addToQueue (trx : τ) (type : TypeMode) (heapNo nRecs : ℕ) : List (Lock τ) :=
  let new := q ++ [lockAlloc trx type heapNo nRecs false]
  if q.any fun lock => lock.wait && lock.nthBit heapNo then new
  else (updateFirst (similar trx (type.norm heapNo) heapNo) (·.setNthBit heapNo) q).getD new

/-- `lock_rec_lock_fast`; `none` is `LOCK_REC_FAIL`. -/
def lockRecLockFast (impl : Bool) (trx : τ) (type : TypeMode) (heapNo nRecs : ℕ) :
    Option (Err × List (Lock τ)) :=
  match q with
  | [] => some (.successLockedRec, if impl then [] else [lockAlloc trx type heapNo nRecs false])
  | [lock] =>
      if similar trx type heapNo lock then
        if impl || lock.nthBit heapNo then some (.success, [lock])
        else some (.successLockedRec, [lock.setNthBit heapNo])
      else none
  | _ => none

/-- `lock_rec_lock_slow` -/
def lockRecLockSlow (impl : Bool) (trx : τ) (type : TypeMode) (heapNo nRecs : ℕ) (victim : Bool) :
    Err × List (Lock τ) :=
  if hasExpl q type heapNo trx then (.success, q)
  else if otherHasConflicting needOrdering q type heapNo trx then
    addToWaitq q trx type heapNo nRecs victim
  else if impl then (.success, q)
  else (.successLockedRec, addToQueue q trx type heapNo nRecs)

/-- `lock_rec_lock` -/
def lockRecLock (impl : Bool) (trx : τ) (type : TypeMode) (heapNo nRecs : ℕ) (victim : Bool) :
    Err × List (Lock τ) :=
  match lockRecLockFast q impl trx type heapNo nRecs with
  | some answer => answer
  | none => lockRecLockSlow needOrdering q impl trx type heapNo nRecs victim

/-- `lock_rec_insert_check_and_lock`; the new record comes before the record `heapNo`. -/
def insertCheckAndLock (trx : τ) (heapNo nRecs : ℕ) (victim : Bool) : Err × List (Lock τ) :=
  if otherHasConflicting needOrdering q .insertion heapNo trx then
    addToWaitq q trx .insertion heapNo nRecs victim
  else (.success, q)

/-- `lock_rec_dequeue_from_page` for the lock with number `i`, under `FCFS`. -/
def dequeueFromPage (i : ℕ) : List (Lock τ) :=
  (requests needOrdering).grantPass (fun _ => true) [] (q.eraseIdx i)

/-- The lock that `lock_rec_unlock` looks for. -/
def unlocks (trx : τ) (heapNo : ℕ) (mode : Mode) (lock : Lock τ) : Bool :=
  lock.nthBit heapNo && decide (lock.trx = trx ∧ lock.typeMode.mode = mode)

/-- `lock_rec_unlock`, under `FCFS`.  A lock that waits is a failed assertion; if there is no lock
nothing is done. -/
def unlock (trx : τ) (heapNo : ℕ) (mode : Mode) : Option (List (Lock τ)) :=
  match q.find? (unlocks trx heapNo mode) with
  | none => some q
  | some lock =>
      if lock.wait then none
      else
        (updateFirst (unlocks trx heapNo mode) (·.resetNthBit heapNo) q).map
          ((requests needOrdering).grantPass (·.nthBit heapNo) [])

/-- The operations.  A transaction that waits is suspended. -/
inductive Op (τ : Type*)
  | lock (trx : τ) (impl : Bool) (mode : Mode) (gapMode : GapMode) (heapNo nRecs : ℕ)
      (victim : Bool)
  | insert (trx : τ) (heapNo nRecs : ℕ) (victim : Bool)
  | unlock (trx : τ) (heapNo : ℕ) (mode : Mode)
  /-- `lock_rec_dequeue_from_page`, of any lock; the code calls it for locks that wait -/
  | dequeue (i : ℕ)

/-- The transaction is not suspended. -/
def runs (trx : τ) : Bool := q.all fun lock => !(decide (lock.trx = trx) && lock.wait)

/-- One operation. -/
def step : Op τ → Option (List (Lock τ))
  | .lock trx impl mode gapMode heapNo nRecs victim =>
      if runs q trx ∧ heapNo < nRecs then
        some (lockRecLock needOrdering q impl trx (.of mode gapMode) heapNo nRecs victim).2
      else none
  | .insert trx heapNo nRecs victim =>
      if runs q trx ∧ heapNo < nRecs then
        some (insertCheckAndLock needOrdering q trx heapNo nRecs victim).2
      else none
  | .unlock trx heapNo mode => if runs q trx then unlock needOrdering q trx heapNo mode else none
  | .dequeue i => if i < q.length then some (dequeueFromPage needOrdering q i) else none

/-- The locks of a page. -/
def page : Machine (List (Lock τ)) (Op τ) where
  init q := q = []
  step q op := step needOrdering q op

end Operations

/-! ## Bits -/

section Bits

variable {l : Lock τ} {heapNo h : ℕ}

lemma nthBit_iff : l.nthBit h = true ↔ h < l.nBits ∧ l.bits h = true := by
  simp [Lock.nthBit]

/-- A bit that is set. -/
lemma nthBit_setNthBit (hh : heapNo < l.nBits) :
    (l.setNthBit heapNo).nthBit h = true ↔ h = heapNo ∨ l.nthBit h = true := by
  rw [nthBit_iff, nthBit_iff]
  by_cases heq : h = heapNo
  · subst heq
    simp [Lock.setNthBit, hh]
  · simp [Lock.setNthBit, heq]

/-- A bit that is taken away. -/
lemma nthBit_resetNthBit :
    (l.resetNthBit heapNo).nthBit h = true ↔ h ≠ heapNo ∧ l.nthBit h = true := by
  rw [nthBit_iff, nthBit_iff]
  by_cases heq : h = heapNo
  · subst heq
    simp [Lock.resetNthBit]
  · simp [Lock.resetNthBit, heq]

lemma nthBit_lockAlloc {trx : τ} {type : TypeMode} {nRecs : ℕ} {wait : Bool}
    (hh : heapNo < nRecs) :
    (lockAlloc trx type heapNo nRecs wait).nthBit h = true ↔ h = heapNo := by
  rw [nthBit_iff]
  simp only [lockAlloc, lockSize, decide_eq_true_eq]
  omega

/-- The lock is for one record. -/
def Lock.OnlyFor (l : Lock τ) (heapNo : ℕ) : Prop := ∀ h, l.nthBit h = true ↔ h = heapNo

lemma Lock.OnlyFor.findSetBit (hl : l.OnlyFor heapNo) : l.findSetBit = some heapNo := by
  cases hfind : l.findSetBit with
  | none =>
      have hself := (hl heapNo).mpr rfl
      have hrange := List.find?_eq_none.mp hfind heapNo
        (List.mem_range.mpr (nthBit_iff.mp hself).1)
      exact absurd hself hrange
  | some h => rw [(hl h).mp (List.find?_some hfind)]

end Bits

/-! ## Locks that exclude each other -/

/-- The lock is on the records themselves, not only on the gaps before them. -/
def Lock.OnRecord (l : Lock τ) : Prop :=
  l.typeMode.gap = false ∧ l.typeMode.insertIntention = false

/-- The two locks are of different transactions, for the record `h`, and not both shared. -/
structure ExcludesAt (h : ℕ) (l l' : Lock τ) : Prop where
  record : h ≠ supremum
  left : l.nthBit h = true
  right : l'.nthBit h = true
  trx : l.trx ≠ l'.trx
  mode : l.typeMode.mode.compatible l'.typeMode.mode = false
  onRecord : l.OnRecord
  onRecord' : l'.OnRecord

/-- The two locks exclude each other on some record. -/
def Excludes (l l' : Lock τ) : Prop := ∃ h, ExcludesAt h l l'

lemma Mode.compatible_comm (m m' : Mode) : m.compatible m' = m'.compatible m := by
  cases m <;> cases m' <;> rfl

lemma ExcludesAt.symm {h : ℕ} {l l' : Lock τ} (he : ExcludesAt h l l') : ExcludesAt h l' l where
  record := he.record
  left := he.right
  right := he.left
  trx := he.trx.symm
  mode := by rw [Mode.compatible_comm]; exact he.mode
  onRecord := he.onRecord'
  onRecord' := he.onRecord

variable [DecidableEq τ]

/-- Locks on the records themselves have to wait for each other. -/
lemma recHasToWait_of_onRecord (needOrdering : τ → τ → Bool) {trx : τ} {type : TypeMode}
    {l : Lock τ} (htrx : trx ≠ l.trx) (hmode : type.mode.compatible l.typeMode.mode = false)
    (hgap : type.gap = false) (hins : type.insertIntention = false) (hl : l.OnRecord) :
    recHasToWait needOrdering trx type l false = true := by
  simp [recHasToWait, htrx, hmode, hgap, hins, hl.1, hl.2]

variable {needOrdering : τ → τ → Bool}

/-- A lock that waits has to wait for those that exclude it. -/
lemma Excludes.waitsFor {l w : Lock τ} {heapNo : ℕ} (h : Excludes l w) (hw : w.OnlyFor heapNo) :
    waitsFor needOrdering w l = true := by
  obtain ⟨k, he⟩ := h
  obtain rfl := (hw k).mp he.right
  have hsup : w.nthBit supremum = false := by
    rw [Bool.eq_false_iff]
    exact fun hbit => he.record ((hw supremum).mp hbit).symm
  have hwait := recHasToWait_of_onRecord needOrdering he.symm.trx he.symm.mode he.onRecord'.1
    he.onRecord'.2 he.onRecord
  simp [RecordLocks.waitsFor, hw.findSetBit, he.left, hasToWait, he.symm.trx, he.symm.mode, hsup,
    hwait]

/-- What is stored for a request on the supremum has to wait for at least as much. -/
lemma recHasToWait_norm {trx : τ} {type : TypeMode} {l : Lock τ} {heapNo : ℕ}
    (h : recHasToWait needOrdering trx type l (decide (heapNo = supremum)) = true) :
    (trx ≠ l.trx ∧ (type.norm heapNo).mode.compatible l.typeMode.mode = false) ∧
      recHasToWait needOrdering trx (type.norm heapNo) l (decide (heapNo = supremum)) = true := by
  unfold TypeMode.norm
  split_ifs with hsup
  · unfold recHasToWait at h ⊢
    split_ifs at h with hne hgap hrec hnot hins hord
    refine ⟨hne, ?_⟩
    cases hg : l.typeMode.gap <;> simp_all
  · refine ⟨?_, h⟩
    unfold recHasToWait at h
    split_ifs at h with hne
    exact hne

/-- A lock that keeps the bits in question is waited for as before. -/
lemma waitsFor_of_bits {b l l' : Lock τ} (h : waitsFor needOrdering b l = true)
    (htrx : l'.trx = l.trx) (htype : l'.typeMode = l.typeMode)
    (hbits : ∀ k, b.nthBit k = true → l.nthBit k = true → l'.nthBit k = true) :
    waitsFor needOrdering b l' = true := by
  unfold waitsFor at h ⊢
  cases hfind : b.findSetBit with
  | none => simp [hfind] at h
  | some k =>
      simp only [hfind, Bool.and_eq_true] at h ⊢
      refine ⟨hbits k (List.find?_some hfind) h.1, ?_⟩
      simpa only [hasToWait, recHasToWait, htrx, htype] using h.2

/-! ## The invariant -/

/-- Of two locks that exclude each other the later one waits, and who waits has a reason. -/
structure Inv (needOrdering : τ → τ → Bool) (q : List (Lock τ)) : Prop where
  onlyFor : ∀ l ∈ q, l.wait = true → ∃ heapNo, l.OnlyFor heapNo
  later : q.Pairwise fun l l' => Excludes l l' → l'.wait = true
  justified : (requests needOrdering).Justified q

/-- The request need not wait for anybody. -/
def Free (needOrdering : τ → τ → Bool) (q : List (Lock τ)) (trx : τ) (type : TypeMode)
    (heapNo : ℕ) : Prop :=
  ∀ l ∈ q, l.nthBit heapNo = true →
    recHasToWait needOrdering trx type l (decide (heapNo = supremum)) = false

lemma free_of_not_conflicting {q : List (Lock τ)} {trx : τ} {type : TypeMode} {heapNo : ℕ}
    (h : otherHasConflicting needOrdering q type heapNo trx = false) :
    Free needOrdering q trx type heapNo := by
  intro l hl hbit
  rw [otherHasConflicting, List.any_eq_false] at h
  simpa [hbit] using h l hl

section Steps

variable {q q₁ q₂ : List (Lock τ)} {l : Lock τ} {trx : τ} {type : TypeMode} {heapNo nRecs : ℕ}

lemma TypeMode.norm_of_ne (h : heapNo ≠ supremum) : type.norm heapNo = type := if_neg h

/-- A lock for a request that need not wait excludes nobody at its record. -/
lemma Free.not_excludesAt (h : Free needOrdering q trx type heapNo) {x : Lock τ} (hx : x ∈ q)
    (htrx : l.trx = trx) (htype : heapNo ≠ supremum → l.typeMode = type) :
    ¬ ExcludesAt heapNo x l := by
  intro he
  have hwait := recHasToWait_of_onRecord needOrdering he.symm.trx he.symm.mode he.onRecord'.1
    he.onRecord'.2 he.onRecord
  have hfree := h x hx he.left
  rw [decide_eq_false he.record, ← htrx, ← htype he.record, hwait] at hfree
  exact Bool.noConfusion hfree

namespace Inv

/-- A lock that does not wait comes to the end of the queue. -/
lemma append_granted (h : Inv needOrdering q) (hl : l.wait = false)
    (hfree : ∀ x ∈ q, ¬ Excludes x l) : Inv needOrdering (q ++ [l]) := by
  refine ⟨fun x hx hw => ?_, List.pairwise_append.mpr ⟨h.later, by simp, ?_⟩, ?_⟩
  · rcases List.mem_append.mp hx with hx | hx
    · exact h.onlyFor x hx hw
    · rw [List.mem_singleton.mp hx, hl] at hw
      exact absurd hw Bool.false_ne_true
  · intro x hx y hy hE
    rw [List.mem_singleton.mp hy] at hE
    exact absurd hE (hfree x hx)
  · refine Requests.justifiedOn_append.mpr ⟨h.justified, fun _ hw => ?_, trivial⟩
    exact absurd (hl.symm.trans hw) Bool.false_ne_true

/-- A lock that has to wait comes to the end of the queue. -/
lemma append_waiting (h : Inv needOrdering q) (hl : l.wait = true) (hone : l.OnlyFor heapNo)
    (hblocked : ∃ x ∈ q, waitsFor needOrdering l x = true) : Inv needOrdering (q ++ [l]) := by
  refine ⟨fun x hx hw => ?_, List.pairwise_append.mpr ⟨h.later, by simp, ?_⟩, ?_⟩
  · rcases List.mem_append.mp hx with hx | hx
    · exact h.onlyFor x hx hw
    · exact ⟨heapNo, List.mem_singleton.mp hx ▸ hone⟩
  · intro x _ y hy _
    rwa [List.mem_singleton.mp hy]
  · refine Requests.justifiedOn_append.mpr ⟨h.justified, fun _ _ => ?_, trivial⟩
    exact List.any_eq_true.mpr hblocked

/-- A lock that does not wait is changed, so that nobody is excluded by it who was not before. -/
lemma replace (h : Inv needOrdering (q₁ ++ l :: q₂)) (l' : Lock τ) (hw : l.wait = false)
    (hw' : l'.wait = false)
    (hold : ∀ x ∈ q₁ ++ l :: q₂, ∀ k, ExcludesAt k x l' → ExcludesAt k x l) :
    (∀ x ∈ q₁ ++ l' :: q₂, x.wait = true → ∃ heapNo, x.OnlyFor heapNo) ∧
      (q₁ ++ l' :: q₂).Pairwise fun x y => Excludes x y → y.wait = true := by
  obtain ⟨hpre, hcons, hbetween⟩ := List.pairwise_append.mp h.later
  obtain ⟨hself, htail⟩ := List.pairwise_cons.mp hcons
  refine ⟨fun x hx hxw => ?_,
    List.pairwise_append.mpr ⟨hpre, List.pairwise_cons.mpr ⟨?_, htail⟩, ?_⟩⟩
  · rcases List.mem_append.mp hx with hx | hx
    · exact h.onlyFor x (List.mem_append_left _ hx) hxw
    · rcases List.mem_cons.mp hx with rfl | hx
      · exact absurd (hw'.symm.trans hxw) Bool.false_ne_true
      · exact h.onlyFor x (List.mem_append_right _ (List.mem_cons_of_mem l hx)) hxw
  · rintro y hy ⟨k, he⟩
    have hy' := List.mem_append_right q₁ (List.mem_cons_of_mem l hy)
    exact hself y hy ⟨k, (hold y hy' k he.symm).symm⟩
  · intro x hx y hy
    rcases List.mem_cons.mp hy with rfl | hy
    · rintro ⟨k, he⟩
      have hlw := hbetween x hx l List.mem_cons_self ⟨k, hold x (List.mem_append_left _ hx) k he⟩
      exact absurd (hw.symm.trans hlw) Bool.false_ne_true
    · exact hbetween x hx y (List.mem_cons_of_mem l hy)

/-- The bit of one more record is set in a lock that does not wait. -/
lemma setNthBit (h : Inv needOrdering (q₁ ++ l :: q₂))
    (hfree : Free needOrdering (q₁ ++ l :: q₂) trx type heapNo) (htrx : l.trx = trx)
    (htype : heapNo ≠ supremum → l.typeMode = type) (hw : l.wait = false)
    (hlt : heapNo < l.nBits) : Inv needOrdering (q₁ ++ l.setNthBit heapNo :: q₂) := by
  obtain ⟨honly, hlater⟩ := h.replace (l.setNthBit heapNo) hw hw fun x hx k he => by
    rcases (nthBit_setNthBit hlt).mp he.right with rfl | hbit
    · exact absurd he (hfree.not_excludesAt hx htrx htype)
    · exact ⟨he.record, he.left, hbit, he.trx, he.mode, he.onRecord, he.onRecord'⟩
  refine ⟨honly, hlater, h.justified.replace hw fun b _ _ hb => ?_⟩
  exact waitsFor_of_bits hb rfl rfl fun k _ hk => (nthBit_setNthBit hlt).mpr (.inr hk)

/-- A pass over locks for which the invariant holds, up to reasons for waiting. -/
lemma grantPass {visit : Lock τ → Bool}
    (honly : ∀ l ∈ q, l.wait = true → ∃ heapNo, l.OnlyFor heapNo)
    (hlater : q.Pairwise fun l l' => Excludes l l' → l'.wait = true)
    (hjust : (requests needOrdering).JustifiedOn (fun l => !visit l) [] q) :
    Inv needOrdering ((requests needOrdering).grantPass visit [] q) where
  onlyFor := Requests.forall_mem_grantPass (R := requests needOrdering)
    (P := fun l => l.wait = true → ∃ heapNo, l.OnlyFor heapNo)
    (fun _ _ hw => absurd hw Bool.false_ne_true) honly
  later := by
    refine Requests.grantPass_pairwise (R := requests needOrdering) []
      (P := fun l => l.wait = true → ∃ heapNo, l.OnlyFor heapNo) ?_ ?_ ?_ honly hlater
    · rintro a b ⟨k, he⟩
      exact ⟨k, he.record, he.left, he.right, he.trx, he.mode, he.onRecord, he.onRecord'⟩
    · rintro a b ⟨k, he⟩
      exact ⟨k, he.record, he.left, he.right, he.trx, he.mode, he.onRecord, he.onRecord'⟩
    · intro a b hb hw he
      obtain ⟨heapNo, hone⟩ := hb hw
      exact he.waitsFor hone
  justified := Requests.grantPass_justified hjust

/-- A whole lock leaves. -/
lemma dequeueFromPage (h : Inv needOrdering q) (i : ℕ) :
    Inv needOrdering (dequeueFromPage needOrdering q i) := by
  have hsub := List.eraseIdx_sublist q i
  exact grantPass (fun l hl => h.onlyFor l (hsub.subset hl)) (h.later.sublist hsub)
    Requests.justifiedOn_false

/-- A record is given back. -/
lemma unlock (h : Inv needOrdering q) {mode : Mode} {q' : List (Lock τ)}
    (hstep : RecordLocks.unlock needOrdering q trx heapNo mode = some q') :
    Inv needOrdering q' := by
  unfold RecordLocks.unlock at hstep
  split at hstep
  · exact Option.some.inj hstep ▸ h
  · rename_i l hfind
    split_ifs at hstep with hwait
    obtain ⟨r, hr, rfl⟩ := Option.map_eq_some_iff.mp hstep
    obtain ⟨q₁, l', q₂, rfl, hl', rfl⟩ := updateFirst_some hr
    obtain rfl : l = l' := Option.some.inj (hfind.symm.trans hl')
    have hw : l.wait = false := Bool.eq_false_of_not_eq_true hwait
    obtain ⟨honly, hlater⟩ := h.replace (l.resetNthBit heapNo) hw hw fun x _ k he =>
      ⟨he.record, he.left, (nthBit_resetNthBit.mp he.right).2, he.trx, he.mode, he.onRecord,
        he.onRecord'⟩
    refine grantPass honly hlater ?_
    -- who waits for another record has the reasons it had before
    have hothers : (requests needOrdering).JustifiedOn (fun x => !x.nthBit heapNo) []
        (q₁ ++ l :: q₂) := h.justified.mono fun _ _ => rfl
    refine hothers.replace hw fun b hb _ hbl => ?_
    refine waitsFor_of_bits hbl rfl rfl fun k hbk hlk => nthBit_resetNthBit.mpr ⟨?_, hlk⟩
    rintro rfl
    simp [hbk] at hb

/-- A request that need not wait is put into the queue. -/
lemma addToQueue (h : Inv needOrdering q) (hfree : Free needOrdering q trx type heapNo)
    (hlt : heapNo < nRecs) : Inv needOrdering (addToQueue q trx type heapNo nRecs) := by
  have hnew : Inv needOrdering (q ++ [lockAlloc trx type heapNo nRecs false]) := by
    refine h.append_granted rfl ?_
    rintro x hx ⟨k, he⟩
    obtain rfl := (nthBit_lockAlloc hlt).mp he.right
    exact hfree.not_excludesAt hx rfl TypeMode.norm_of_ne he
  simp only [RecordLocks.addToQueue]
  split_ifs
  · exact hnew
  · cases hupd : updateFirst (similar trx (type.norm heapNo) heapNo) (·.setNthBit heapNo) q with
    | none => exact hnew
    | some q' =>
        obtain ⟨q₁, l, q₂, rfl, hl, rfl⟩ := updateFirst_some hupd
        have hsimilar : similar trx (type.norm heapNo) heapNo l = true := List.find?_some hl
        obtain ⟨htrx, htype, hw, hbits⟩ := of_decide_eq_true hsimilar
        exact h.setNthBit hfree htrx (fun hne => htype.trans (TypeMode.norm_of_ne hne)) hw hbits

/-- A request that has to wait is put into the queue, or taken back. -/
lemma addToWaitq (h : Inv needOrdering q)
    (hconf : otherHasConflicting needOrdering q type heapNo trx = true) (hlt : heapNo < nRecs)
    (victim : Bool) : Inv needOrdering (addToWaitq q trx type heapNo nRecs victim).2 := by
  simp only [RecordLocks.addToWaitq]
  split_ifs
  · refine h.append_granted rfl ?_
    rintro x hx ⟨k, he⟩
    obtain ⟨hne, hbit⟩ := nthBit_resetNthBit.mp he.right
    have hlock : (lockAlloc trx type heapNo nRecs true).nthBit k = true := hbit
    exact hne ((nthBit_lockAlloc hlt).mp hlock)
  · have hone : (lockAlloc trx type heapNo nRecs true).OnlyFor heapNo := fun k =>
      nthBit_lockAlloc hlt
    refine h.append_waiting rfl hone ?_
    obtain ⟨x, hx, hwait⟩ := List.any_eq_true.mp hconf
    obtain ⟨hbit, hwait⟩ := Bool.and_eq_true_iff.mp hwait
    refine ⟨x, hx, ?_⟩
    have hsup : (lockAlloc trx type heapNo nRecs true).nthBit supremum
        = decide (heapNo = supremum) := by
      rw [Bool.eq_iff_iff, hone supremum, decide_eq_true_iff, eq_comm]
    obtain ⟨hne, hwait'⟩ := recHasToWait_norm hwait
    simp only [waitsFor, hone.findSetBit, hbit, hasToWait, Bool.true_and, hsup]
    exact (if_pos hne).trans hwait'

/-- A request. -/
lemma lockRecLock (h : Inv needOrdering q) (hlt : heapNo < nRecs) (impl victim : Bool) :
    Inv needOrdering (lockRecLock needOrdering q impl trx type heapNo nRecs victim).2 := by
  unfold RecordLocks.lockRecLock
  cases hfast : lockRecLockFast q impl trx type heapNo nRecs with
  | some answer =>
      show Inv needOrdering answer.2
      unfold lockRecLockFast at hfast
      split at hfast
      · -- the first lock on the page
        obtain rfl := Option.some.inj hfast
        cases impl with
        | true => exact h
        | false => exact h.append_granted (l := lockAlloc trx type heapNo nRecs false) rfl (by simp)
      · -- the only lock is one of the transaction
        rename_i l
        split_ifs at hfast with hl hbit
        · exact Option.some.inj hfast ▸ h
        · obtain rfl := Option.some.inj hfast
          obtain ⟨htrx, htype, hw, hbits⟩ := of_decide_eq_true hl
          have hfree : Free needOrdering [l] trx type heapNo := by
            intro x hx _
            rw [List.mem_singleton.mp hx, recHasToWait, if_neg fun hne => hne.1 htrx.symm]
          have hinv : Inv needOrdering ([] ++ l :: []) := h
          exact hinv.setNthBit hfree htrx (fun _ => htype) hw hbits
      · cases hfast
  | none =>
      simp only [lockRecLockSlow]
      split_ifs with hexpl hconf
      · exact h
      · exact h.addToWaitq hconf hlt victim
      · exact h
      · exact h.addToQueue (free_of_not_conflicting (Bool.eq_false_of_not_eq_true hconf)) hlt

/-- A request for an insertion. -/
lemma insertCheckAndLock (h : Inv needOrdering q) (hlt : heapNo < nRecs) (victim : Bool) :
    Inv needOrdering (insertCheckAndLock needOrdering q trx heapNo nRecs victim).2 := by
  unfold RecordLocks.insertCheckAndLock
  split_ifs with hconf
  · exact h.addToWaitq hconf hlt victim
  · exact h

end Inv

/-- **Every operation keeps the invariant.** -/
lemma Inv.step (h : Inv needOrdering q) {op : Op τ} {q' : List (Lock τ)}
    (hstep : step needOrdering q op = some q') : Inv needOrdering q' := by
  cases op with
  | lock trx impl mode gapMode heapNo nRecs victim =>
      obtain ⟨⟨-, hlt⟩, hstep⟩ := Option.ite_none_right_eq_some.mp hstep
      obtain rfl := Option.some.inj hstep
      exact h.lockRecLock hlt impl victim
  | insert trx heapNo nRecs victim =>
      obtain ⟨⟨-, hlt⟩, hstep⟩ := Option.ite_none_right_eq_some.mp hstep
      obtain rfl := Option.some.inj hstep
      exact h.insertCheckAndLock hlt victim
  | unlock trx heapNo mode =>
      obtain ⟨-, hstep⟩ := Option.ite_none_right_eq_some.mp hstep
      exact h.unlock hstep
  | dequeue i =>
      obtain ⟨-, hstep⟩ := Option.ite_none_right_eq_some.mp hstep
      obtain rfl := Option.some.inj hstep
      exact h.dequeueFromPage i

lemma inv_of_reachable (hq : (page needOrdering).Reachable q) : Inv needOrdering q := by
  refine Machine.Run.invariant (M := page needOrdering) (I := Inv needOrdering) ?_ ?_ q hq
  · rintro q rfl
    exact ⟨by simp, .nil, trivial⟩
  · exact fun q op q' _ h _ hstep => h.step hstep

/-! ## What the lock table is for -/

/-- If both locks have been granted for a record, and not only for the gap before it, then they are
of the same transaction or compatible. -/
def Compatible (l l' : Lock τ) : Prop :=
  ∀ k, k ≠ supremum → l.nthBit k = true → l'.nthBit k = true → l.OnRecord → l'.OnRecord →
    l.wait = false → l'.wait = false →
    l.trx = l'.trx ∨ l.typeMode.mode.compatible l'.typeMode.mode = true

instance : Std.Symm (Compatible : Lock τ → Lock τ → Prop) where
  symm l l' h k hsup hl' hl hrec' hrec hw' hw := by
    rw [Mode.compatible_comm]
    exact (h k hsup hl hl' hrec hrec' hw hw').imp_left Eq.symm

lemma Inv.compatible (h : Inv needOrdering q) : ∀ l ∈ q, ∀ l' ∈ q, Compatible l l' := by
  refine List.Pairwise.forall_of_forall (fun l _ k _ _ _ _ _ _ _ => .inl rfl) (h.later.imp ?_)
  intro l l' hlater k hsup hl hl' hrec hrec' _ hw'
  by_contra hno
  push Not at hno
  have hmode := Bool.eq_false_of_not_eq_true hno.2
  have hw := hlater ⟨k, hsup, hl, hl', hno.1, hmode, hrec, hrec'⟩
  exact absurd (hw'.symm.trans hw) Bool.false_ne_true

/-- **Granted locks on a record are compatible**, unless they are of the same transaction. -/
theorem granted_compatible (hq : (page needOrdering).Reachable q) :
    ∀ l ∈ q, ∀ l' ∈ q, Compatible l l' :=
  (inv_of_reachable hq).compatible

/-- Transaction `0` writes the record `2` and the others want to read it: a run of the page. -/
lemma reachable_three_trx : (page fun (_ _ : Fin 3) => true).Reachable
    [lockAlloc 0 (.of .x .recNotGap) 2 4 false, lockAlloc 1 (.of .s .recNotGap) 2 4 true,
      lockAlloc 2 (.of .s .recNotGap) 2 4 true] :=
  .step (a := .lock 2 false .s .recNotGap 2 4 false)
    (.step (a := .lock 1 false .s .recNotGap 2 4 false)
      (.step (a := .lock 0 false .x .recNotGap 2 4 false) (.init rfl) trivial rfl) trivial rfl)
    trivial rfl

/-- When the writer gives the record back both readers are granted. -/
theorem granted_compatible_two_readers : ∃ q : List (Lock (Fin 3)),
    (page fun _ _ => true).Reachable q ∧
    q.map (fun l => (l.trx, l.wait, l.nthBit 2)) =
      [(0, false, false), (1, false, true), (2, false, true)] ∧
    ∀ l ∈ q, ∀ l' ∈ q, Compatible l l' := by
  have hq := reachable_three_trx.step (a := .unlock 0 2 .x) trivial rfl
  exact ⟨_, hq, by decide +kernel, granted_compatible hq⟩

/-- **Nobody waits in vain**: a lock that waits stands behind a lock on the same record for which
it has to wait. -/
theorem nobody_waits_in_vain {w : Lock τ} (hq : (page needOrdering).Reachable (q₁ ++ w :: q₂))
    (hw : w.wait = true) :
    ∃ h, w.OnlyFor h ∧ ∃ l ∈ q₁, l.nthBit h = true ∧ hasToWait needOrdering w l = true := by
  have hinv := inv_of_reachable hq
  obtain ⟨h, hone⟩ := hinv.onlyFor w (by simp) hw
  obtain ⟨l, hl, hwaits⟩ := hinv.justified.exists_ahead hw
  have hboth : waitsFor needOrdering w l = true := hwaits
  simp only [waitsFor, hone.findSetBit, Bool.and_eq_true] at hboth
  exact ⟨h, hone, l, hl, hboth⟩

/-- The second reader waits for the writer. -/
theorem nobody_waits_in_vain_second_reader :
    ∃ (q₁ : List (Lock (Fin 3))) (w : Lock (Fin 3)),
      (page fun _ _ => true).Reachable (q₁ ++ w :: []) ∧ w.wait = true ∧ w.trx = 2 ∧
      ∃ h, w.OnlyFor h ∧ ∃ l ∈ q₁, l.nthBit h = true ∧ hasToWait (fun _ _ => true) w l = true :=
  ⟨[_, _], _, reachable_three_trx, rfl, rfl,
    nobody_waits_in_vain (show (page _).Reachable ([_, _] ++ _ :: []) from reachable_three_trx) rfl⟩

/-- The lock of a request is found by `lock_rec_has_expl`. -/
lemma hasExpl_of_mem (hl : l ∈ q) (hbit : l.nthBit heapNo = true) (htrx : l.trx = trx)
    (hw : l.wait = false) (hins : type.insertIntention = false)
    (htype : l.typeMode = type ∨ l.typeMode = type.norm heapNo) :
    hasExpl q type heapNo trx = true := by
  refine List.any_eq_true.mpr ⟨l, hl, ?_⟩
  have hmode : type.mode.strongerOrEq type.mode = true := by cases type.mode <;> rfl
  by_cases hsup : heapNo = supremum
  · subst hsup
    have hsame : l.typeMode.mode = type.mode ∧ l.typeMode.insertIntention = false := by
      rcases htype with htype | htype <;> simp [htype, TypeMode.norm, hins]
    simp [hbit, htrx, hw, hsame, hmode]
  · rw [TypeMode.norm_of_ne hsup, or_self] at htype
    simp [hbit, htrx, hw, htype, hins, hmode]

/-- A request that need not wait gets a lock. -/
lemma hasExpl_addToQueue (hlt : heapNo < nRecs) (hins : type.insertIntention = false) :
    hasExpl (addToQueue q trx type heapNo nRecs) type heapNo trx = true := by
  have hnew : hasExpl (q ++ [lockAlloc trx type heapNo nRecs false]) type heapNo trx = true :=
    hasExpl_of_mem (l := lockAlloc trx type heapNo nRecs false) (by simp)
      ((nthBit_lockAlloc hlt).mpr rfl) rfl rfl hins (.inr rfl)
  simp only [addToQueue]
  split_ifs
  · exact hnew
  · cases hupd : updateFirst (similar trx (type.norm heapNo) heapNo) (·.setNthBit heapNo) q with
    | none => exact hnew
    | some q' =>
        obtain ⟨q₁, l, q₂, rfl, hl, rfl⟩ := updateFirst_some hupd
        have hsimilar : similar trx (type.norm heapNo) heapNo l = true := List.find?_some hl
        obtain ⟨htrx, htype, hw, hbits⟩ := of_decide_eq_true hsimilar
        exact hasExpl_of_mem (l := l.setNthBit heapNo) (by simp)
          ((nthBit_setNthBit hbits).mpr (.inl rfl)) htrx hw hins (.inr htype)

/-- A request that is answered with success leaves a lock that is strong enough. -/
lemma hasExpl_of_success {victim : Bool} {err : Err} {q' : List (Lock τ)} (hlt : heapNo < nRecs)
    (hins : type.insertIntention = false)
    (hanswer : lockRecLock needOrdering q false trx type heapNo nRecs victim = (err, q'))
    (herr : err = .success ∨ err = .successLockedRec) : hasExpl q' type heapNo trx = true := by
  unfold lockRecLock at hanswer
  cases hfast : lockRecLockFast q false trx type heapNo nRecs with
  | some answer =>
      obtain rfl : answer = (err, q') := by simpa only [hfast] using hanswer
      unfold lockRecLockFast at hfast
      split at hfast
      · obtain ⟨-, rfl⟩ := Prod.mk.inj (Option.some.inj hfast)
        exact hasExpl_of_mem (l := lockAlloc trx type heapNo nRecs false) (by simp)
          ((nthBit_lockAlloc hlt).mpr rfl) rfl rfl hins (.inr rfl)
      · rename_i l
        split_ifs at hfast with hl hbit
        · obtain ⟨-, rfl⟩ := Prod.mk.inj (Option.some.inj hfast)
          obtain ⟨htrx, htype, hw, -⟩ := of_decide_eq_true hl
          exact hasExpl_of_mem List.mem_cons_self (by simpa using hbit) htrx hw hins (.inl htype)
        · obtain ⟨-, rfl⟩ := Prod.mk.inj (Option.some.inj hfast)
          obtain ⟨htrx, htype, hw, hbits⟩ := of_decide_eq_true hl
          exact hasExpl_of_mem (l := l.setNthBit heapNo) List.mem_cons_self
            ((nthBit_setNthBit hbits).mpr (.inl rfl)) htrx hw hins (.inl htype)
      · cases hfast
  | none =>
      simp only [hfast, lockRecLockSlow, Bool.false_eq_true, if_false] at hanswer
      split_ifs at hanswer with hexpl hconf
      · obtain ⟨-, rfl⟩ := Prod.mk.inj hanswer
        exact hexpl
      · -- the answer is `DB_LOCK_WAIT` or `DB_DEADLOCK`
        have hwait : err = .lockWait ∨ err = .deadlock := by
          cases victim <;> simp_all [addToWaitq]
        rcases hwait with rfl | rfl <;> simp at herr
      · obtain ⟨-, rfl⟩ := Prod.mk.inj hanswer
        exact hasExpl_addToQueue hlt hins

/-- A request without a lock (`impl`) that is answered with success changes nothing, and need not
have waited for anybody. -/
lemma free_of_success_impl {victim : Bool} {err : Err} {q' : List (Lock τ)}
    (hanswer : lockRecLock needOrdering q true trx type heapNo nRecs victim = (err, q'))
    (herr : err = .success ∨ err = .successLockedRec) :
    q' = q ∧ (hasExpl q type heapNo trx = true ∨ Free needOrdering q trx type heapNo) := by
  unfold lockRecLock at hanswer
  cases hfast : lockRecLockFast q true trx type heapNo nRecs with
  | some answer =>
      obtain rfl : answer = (err, q') := by simpa only [hfast] using hanswer
      unfold lockRecLockFast at hfast
      split at hfast
      · obtain ⟨-, rfl⟩ := Prod.mk.inj (Option.some.inj hfast)
        exact ⟨rfl, .inr fun l hl => absurd hl List.not_mem_nil⟩
      · rename_i l
        split_ifs at hfast with hl hbit
        · obtain ⟨-, rfl⟩ := Prod.mk.inj (Option.some.inj hfast)
          obtain ⟨htrx, -⟩ := of_decide_eq_true hl
          refine ⟨rfl, .inr fun x hx _ => ?_⟩
          rw [List.mem_singleton.mp hx, recHasToWait, if_neg fun hne => hne.1 htrx.symm]
        · simp at hbit
      · cases hfast
  | none =>
      simp only [hfast, lockRecLockSlow, if_true] at hanswer
      split_ifs at hanswer with hexpl hconf
      · exact ⟨(Prod.mk.inj hanswer).2.symm, .inl hexpl⟩
      · -- the answer is `DB_LOCK_WAIT` or `DB_DEADLOCK`
        have hwait : err = .lockWait ∨ err = .deadlock := by
          cases victim <;> simp_all [addToWaitq]
        rcases hwait with rfl | rfl <;> simp at herr
      · exact ⟨(Prod.mk.inj hanswer).2.symm,
          .inr (free_of_not_conflicting (Bool.eq_false_of_not_eq_true hconf))⟩

lemma Mode.compatible_of_strongerOrEq {m m' k : Mode} (h : m.strongerOrEq m' = true)
    (hk : m.compatible k = true) : m'.compatible k = true := by
  cases m <;> cases m' <;> cases k <;> simp_all [Mode.strongerOrEq, Mode.compatible]

/-- The transaction has been granted a lock on the record that is at least as strong as `mode`. -/
def HasLock (q : List (Lock τ)) (trx : τ) (heapNo : ℕ) (mode : Mode) : Prop :=
  ∃ l ∈ q, l.trx = trx ∧ l.nthBit heapNo = true ∧ l.OnRecord ∧ l.wait = false ∧
    l.typeMode.mode.strongerOrEq mode = true

/-- No other transaction has been granted a lock on the record that `mode` does not allow. -/
def OthersCompatible (q : List (Lock τ)) (trx : τ) (heapNo : ℕ) (mode : Mode) : Prop :=
  ∀ l ∈ q, l.nthBit heapNo = true → l.OnRecord → l.wait = false →
    l.trx = trx ∨ mode.compatible l.typeMode.mode = true

/-- What `lock_rec_has_expl` says, for a record itself. -/
lemma hasLock_of_hasExpl {mode : Mode} {gapMode : GapMode} (hsup : heapNo ≠ supremum)
    (hgap : gapMode ≠ .gap) (h : hasExpl q (.of mode gapMode) heapNo trx = true) :
    HasLock q trx heapNo mode := by
  obtain ⟨l, hl, htest⟩ := List.any_eq_true.mp h
  simp only [TypeMode.of, Bool.and_eq_true, Bool.or_eq_true, Bool.not_eq_true', decide_eq_true_eq,
    hsup, hgap, or_false] at htest
  obtain ⟨hbit, ⟨⟨⟨⟨htrx, hins⟩, hmode⟩, hw⟩, -⟩, hrec⟩ := htest
  exact ⟨l, hl, htrx, hbit, ⟨hrec, hins⟩, hw, hmode⟩

/-- Who has a lock that is strong enough excludes others. -/
lemma Inv.othersCompatible {mode : Mode} (h : Inv needOrdering q) (hsup : heapNo ≠ supremum)
    (hlock : HasLock q trx heapNo mode) : OthersCompatible q trx heapNo mode := by
  obtain ⟨l, hl, htrx, hbit, hrec, hw, hmode⟩ := hlock
  intro l' hl' hbit' hrec' hw'
  rcases h.compatible l hl l' hl' heapNo hsup hbit hbit' hrec hrec' hw hw' with heq | hcompat
  · exact .inl (heq.symm.trans htrx)
  · exact .inr (Mode.compatible_of_strongerOrEq hmode hcompat)

/-- Nobody is excluded by a request that need not wait. -/
lemma Free.othersCompatible {mode : Mode} {gapMode : GapMode} (hsup : heapNo ≠ supremum)
    (hgap : gapMode ≠ .gap) (h : Free needOrdering q trx (.of mode gapMode) heapNo) :
    OthersCompatible q trx heapNo mode := by
  intro l hl hbit hrec _
  by_contra hno
  push Not at hno
  have hmode : (TypeMode.of mode gapMode).mode.compatible l.typeMode.mode = false :=
    Bool.eq_false_of_not_eq_true hno.2
  have hwait := recHasToWait_of_onRecord needOrdering (Ne.symm hno.1) hmode (decide_eq_false hgap)
    rfl hrec
  have hfree := h l hl hbit
  rw [decide_eq_false hsup, hwait] at hfree
  exact Bool.noConfusion hfree

end Steps

end Multicore.Project4.RecordLocks
