import Mathlib.Tactic

/-!
# The two chains of a cell

A cell of `lock_sys->rec_hash` has the old chain from `cell->node`, which `HASH_INSERT` appends to
and `HASH_MIGRATE` moves to a new table, and the new one from `cell->head`, which
`project4_lock_rec_insert_to_tail` appends to and `project4_lock_rec_dequeue_from_page` walks
along.  A read lock on a clustered record goes into the new chain, one on a secondary record into
the old chain, and `lock_release` looks only at the new one.  Both reads begin with
`lock_rec_convert_impl_to_expl`: if a transaction has the record locked implicitly, because it has
inserted or changed it, this transaction gets an explicit lock, and that one goes into the old
chain.

Here the operations are atomic, and run one after the other.  Who has an implicit lock is written in
the record, so the owner is a parameter of a read.

* `State` — the lock objects, the chains as lists of lock numbers, and `trx_locks`.
* `State.clustRead`, `State.secRead`, `State.resize`, `State.lockRelease` — the operations.
* `Consistent` — the property: every record lock of a transaction is in the new chain of its cell,
  and its `lock_release` comes to an end without a failed assertion.
* **`consistent_iff`** — it holds all along a sequence of operations exactly when no read of a
  secondary record takes a lock, no read of a clustered record finds an implicit lock, and the
  table is resized only while nobody holds a lock.
-/

namespace Multicore.Project4.Chains

/-! ## The tables -/

/-- `LOCK_S` and `LOCK_X`. -/
inductive LockMode
  | S | X
  deriving DecidableEq

/-- `LOCK_ORDINARY`, `LOCK_GAP` and `LOCK_REC_NOT_GAP`, or-ed to the mode. -/
inductive GapMode
  | ordinary | gap | recNotGap
  deriving DecidableEq

/-- A `lock_t`, as far as these operations read it.  `page` stands for `space` and `page_no`;
`mode`, `gapMode` and `wait` for `type_mode`; `bits` are the heap numbers set in the bitmap, which
has room for `nBits`. -/
structure Lock (τ : Type*) where
  trx : τ
  page : ℕ
  mode : LockMode
  gapMode : GapMode
  wait : Bool
  state : Bool
  nBits : ℕ
  bits : List ℕ

/-- `lock_sys->rec_hash` with its chains, the lock objects and the lists `trx_locks`.  The last
lock of `chain i` is `cell->tail`. -/
structure State (τ : Type*) where
  nCells : ℕ
  node : ℕ → List ℕ
  chain : ℕ → List ℕ
  locks : ℕ → Option (Lock τ)
  fresh : ℕ
  trxLocks : τ → List ℕ

/-- An empty table with `n` cells. -/
def State.start {τ : Type*} (n : ℕ) : State τ where
  nCells := n
  node _ := []
  chain _ := []
  locks _ := none
  fresh := 0
  trxLocks _ := []

section Operations

variable {τ : Type*} [DecidableEq τ] (hash : ℕ → ℕ → ℕ)

namespace State

variable (s : State τ) (t : τ)

/-- `hash_calc_hash`: the cell of a page. -/
def cell (page : ℕ) : ℕ := hash s.nCells page

/-- The cell of a lock. -/
def cellOf (l : ℕ) : ℕ := ((s.locks l).map fun r => s.cell hash r.page).getD 0

/-- `RecLock::project4_create` for a shared lock: a new lock, at the tail of the new chain. -/
def project4Create (page : ℕ) (gapMode : GapMode) : State τ :=
  { s with
    chain := Function.update s.chain (s.cell hash page) (s.chain (s.cell hash page) ++ [s.fresh])
    locks := Function.update s.locks s.fresh (some ⟨t, page, .S, gapMode, false, true, 0, []⟩)
    fresh := s.fresh + 1
    trxLocks := Function.update s.trxLocks t (s.trxLocks t ++ [s.fresh]) }

/-- The locks on a page, from `lock_rec_get_first_on_page` on. -/
def onPage (page : ℕ) : List (ℕ × Lock τ) :=
  (s.node (s.cell hash page)).filterMap fun l =>
    (s.locks l).bind fun r => if r.page = page then some (l, r) else none

/-- A lock on the supremum record is a gap lock anyhow. -/
def normMode (heapNo : ℕ) (gapMode : GapMode) : GapMode :=
  if heapNo = 1 then .ordinary else gapMode

/-- `lock_rec_has_expl`: the transaction has a lock on the record that is strong enough. -/
def hasExpl (page heapNo : ℕ) (mode : LockMode) (gapMode : GapMode) : Bool :=
  (s.onPage hash page).any fun p =>
    decide (heapNo ∈ p.2.bits ∧ p.2.trx = t ∧ (p.2.mode = .X ∨ mode = .S) ∧ p.2.wait = false ∧
      (p.2.gapMode ≠ .recNotGap ∨ gapMode = .recNotGap ∨ heapNo = 1) ∧
      (p.2.gapMode ≠ .gap ∨ gapMode = .gap ∨ heapNo = 1))

/-- `lock_rec_other_has_conflicting` for a shared request. -/
def otherHasConflicting (page heapNo : ℕ) (gapMode : GapMode) : Bool :=
  (s.onPage hash page).any fun p =>
    decide (heapNo ∈ p.2.bits ∧ p.2.trx ≠ t ∧ p.2.mode = .X ∧ heapNo ≠ 1 ∧ gapMode ≠ .gap ∧
      p.2.gapMode ≠ .gap)

/-- `lock_rec_set_nth_bit` -/
def setBit (l heapNo : ℕ) : State τ :=
  { s with
    locks := Function.update s.locks l
      ((s.locks l).map fun r => { r with bits := heapNo :: r.bits }) }

/-- `RecLock::create`: a new lock, at the end of the old chain. -/
def create (page heapNo : ℕ) (mode : LockMode) (gapMode : GapMode) (wait : Bool) (nBits : ℕ) :
    State τ :=
  { s with
    node := Function.update s.node (s.cell hash page) (s.node (s.cell hash page) ++ [s.fresh])
    locks := Function.update s.locks s.fresh
      (some ⟨t, page, mode, normMode heapNo gapMode, wait, true, nBits, [heapNo]⟩)
    fresh := s.fresh + 1
    trxLocks := Function.update s.trxLocks t (s.trxLocks t ++ [s.fresh]) }

/-- `lock_rec_add_to_queue`: unless somebody waits for the record, a similar lock of the transaction
on the page is used again. -/
def addToQueue (page heapNo : ℕ) (mode : LockMode) (gapMode : GapMode) (nBits : ℕ) : State τ :=
  let similar :=
    if (s.onPage hash page).any fun p => decide (p.2.wait = true ∧ heapNo ∈ p.2.bits) then none
    else (s.onPage hash page).find? fun p =>
      decide (p.2.trx = t ∧ p.2.mode = mode ∧ p.2.gapMode = normMode heapNo gapMode ∧
        p.2.wait = false ∧ heapNo < p.2.nBits)
  match similar with
  | some p => s.setBit p.1 heapNo
  | none => s.create hash t page heapNo mode gapMode false nBits

/-- `lock_rec_convert_impl_to_expl`: `owner` is the active transaction that has an implicit lock on
the record.  Both callers leave the supremum record out. -/
def convertImplToExpl (owner : Option τ) (page heapNo nBits : ℕ) : State τ :=
  match owner with
  | none => s
  | some u =>
      if heapNo = 1 ∨ s.hasExpl hash u page heapNo .X .recNotGap then s
      else s.addToQueue hash u page heapNo .X .recNotGap nBits

/-- `lock_rec_lock_slow` for a shared lock.  A request that has to wait leaves a waiting lock
(`RecLock::add_to_waitq`); the search for a deadlock that follows is left out, as nobody waits
before the first of them. -/
def lockRecLockSlow (page heapNo : ℕ) (gapMode : GapMode) (nBits : ℕ) : State τ :=
  if s.hasExpl hash t page heapNo .S gapMode then s
  else if s.otherHasConflicting hash t page heapNo gapMode then
    s.create hash t page heapNo .S gapMode true nBits
  else s.addToQueue hash t page heapNo .S gapMode nBits

/-- `lock_rec_lock` for a shared lock: first `lock_rec_lock_fast`, for a page with no lock or with
one lock of the right kind, then `lock_rec_lock_slow`. -/
def lockRecLock (page heapNo : ℕ) (gapMode : GapMode) (nBits : ℕ) : State τ :=
  match s.onPage hash page with
  | [] => s.create hash t page heapNo .S gapMode false nBits
  | [(l, r)] =>
      if r.trx = t ∧ r.mode = .S ∧ r.gapMode = gapMode ∧ r.wait = false ∧ heapNo < r.nBits then
        if heapNo ∈ r.bits then s else s.setBit l heapNo
      else s.lockRecLockSlow hash t page heapNo gapMode nBits
  | _ => s.lockRecLockSlow hash t page heapNo gapMode nBits

/-- `lock_clust_rec_read_check_and_lock`.  With `skip` (`BTR_NO_LOCKING_FLAG`, a read-only server or
a temporary table) it does nothing.  An implicit lock is converted into one in the old chain; the
lock of the reader goes into the new one, whatever locks there are. -/
def clustRead (owner : Option τ) (page heapNo : ℕ) (gapMode : GapMode) (nBits : ℕ) (skip : Bool) :
    State τ :=
  if skip then s
  else (s.convertImplToExpl hash owner page heapNo nBits).project4Create hash t page gapMode

/-- `lock_sec_rec_read_check_and_lock`.  There is no `owner` if the page has no recent changes
(`page_get_max_trx_id`). -/
def secRead (owner : Option τ) (page heapNo : ℕ) (gapMode : GapMode) (nBits : ℕ) (skip : Bool) :
    State τ :=
  if skip then s
  else
    (s.convertImplToExpl hash owner page heapNo nBits).lockRecLock hash t page heapNo gapMode nBits

/-- `lock_sys_resize`: `HASH_MIGRATE` moves the old chains, lock by lock, and the new table has no
new chains. -/
def resize (n : ℕ) : State τ :=
  ((List.range s.nCells).flatMap s.node).foldl
    (fun s' l =>
      { s' with
        node := Function.update s'.node (s'.cellOf hash l) (s'.node (s'.cellOf hash l) ++ [l]) })
    { s with nCells := n, node := fun _ => [], chain := fun _ => [] }

/-- `lock->state` -/
def alive (l : ℕ) : Bool := ((s.locks l).map fun r => r.state).getD true

end State

/-- The first loop of `project4_lock_rec_dequeue_from_page`: marked locks leave the front of the
chain.  On an empty chain `ut_a(cur_lock)` fails; past the last lock it uses a null pointer. -/
def skipMarked (alive : ℕ → Bool) : List ℕ → Option (List ℕ)
  | [] => none
  | cur :: rest => if alive cur then some (cur :: rest) else skipMarked alive rest

/-- The second loop, from `cur` on: the chain it leaves behind.  At the end of the chain
`ut_a(next_lock)` fails. -/
def walkTo (alive : ℕ → Bool) (l : ℕ) : ℕ → List ℕ → Option (List ℕ)
  | cur, [] => if cur = l then some [cur] else none
  | cur, next :: rest =>
      if cur = l then some (cur :: next :: rest)
      else if alive cur = false then (walkTo alive l next rest).map (cur :: ·)
      else if alive next then (walkTo alive l next rest).map (cur :: ·)
      -- `next` is unlinked, and the loop goes on from `cur`
      else walkTo alive l cur rest

namespace State

variable (s : State τ) (t : τ)

/-- The end of `project4_lock_rec_dequeue_from_page`: the lock is marked, and leaves `trx_locks`. -/
def mark (l : ℕ) (chain : List ℕ) : State τ :=
  { s with
    chain := Function.update s.chain (s.cellOf hash l) chain
    locks := Function.update s.locks l ((s.locks l).map fun r => { r with state := false })
    trxLocks := Function.update s.trxLocks t ((s.trxLocks t).erase l) }

/-- `project4_lock_rec_dequeue_from_page`, up to the pass over the old chain that grants locks which
wait there.  As long as all operations are `Safe` there are none. -/
def dequeue (l : ℕ) : Option (State τ) :=
  match skipMarked s.alive (s.chain (s.cellOf hash l)) with
  | none => none
  | some [] => none
  | some (cur :: rest) => (walkTo s.alive l cur rest).map (s.mark hash t l)

/-- The loop of `lock_release`, at most `n` times round: it dequeues the last lock of
`trx_locks`. -/
def releaseLoop : ℕ → State τ → Option (State τ)
  | 0, s => some s
  | n + 1, s =>
      match (s.trxLocks t).getLast? with
      | none => some s
      | some l => (s.dequeue hash t l).bind (releaseLoop n)

/-- `lock_release`. -/
def lockRelease : Option (State τ) := releaseLoop hash t (s.trxLocks t).length s

end State

/-- The operations. -/
inductive Op (τ : Type*)
  | clust (t : τ) (owner : Option τ) (page heapNo : ℕ) (gapMode : GapMode) (nBits : ℕ)
      (skip : Bool)
  | sec (t : τ) (owner : Option τ) (page heapNo : ℕ) (gapMode : GapMode) (nBits : ℕ) (skip : Bool)
  | resize (n : ℕ)
  | release (t : τ)

/-- One operation; `none` is a failed assertion. -/
def State.step (s : State τ) : Op τ → Option (State τ)
  | .clust t owner page heapNo gapMode nBits skip =>
      some (s.clustRead hash t owner page heapNo gapMode nBits skip)
  | .sec t owner page heapNo gapMode nBits skip =>
      some (s.secRead hash t owner page heapNo gapMode nBits skip)
  | .resize n => some (s.resize hash n)
  | .release t => s.lockRelease hash t

/-- A sequence of operations. -/
def State.run : List (Op τ) → State τ → Option (State τ)
  | [], s => some s
  | op :: ops, s => (s.step hash op).bind (State.run ops)

/-! ## The property and the condition -/

/-- The chains are consistent. -/
structure Consistent (s : State τ) : Prop where
  reach : ∀ t, ∀ l ∈ s.trxLocks t, l ∈ s.chain (s.cellOf hash l)
  release : ∀ t, ∃ s', s.lockRelease hash t = some s' ∧ s'.trxLocks t = []

/-- The operation takes no lock on a secondary record, finds no implicit lock on a clustered one,
and is no resize while somebody holds a lock. -/
def Safe (s : State τ) : Op τ → Prop
  | .clust _ owner _ heapNo _ _ skip => skip = true ∨ owner = none ∨ heapNo = 1
  | .sec _ _ _ _ _ _ skip => skip = true
  | .resize _ => ∀ t, s.trxLocks t = []
  | _ => True

/-- All operations of a sequence are safe where they come. -/
def AllSafe : State τ → List (Op τ) → Prop
  | _, [] => True
  | s, op :: ops => Safe s op ∧ ∀ s', s.step hash op = some s' → AllSafe s' ops

/-! ## What safe operations keep -/

/-- The old chains are empty, and the locks of the transactions are unmarked and in the new ones. -/
structure Inv (s : State τ) : Prop where
  node : ∀ i, s.node i = []
  chain_lt : ∀ i, ∀ l ∈ s.chain i, l < s.fresh
  locks : ∀ t, ∀ l ∈ s.trxLocks t, ∃ r, s.locks l = some r ∧ r.trx = t ∧ r.state = true
  reach : ∀ t, ∀ l ∈ s.trxLocks t, l ∈ s.chain (s.cellOf hash l)
  nodup : ∀ t, (s.trxLocks t).Nodup

lemma skipMarked_of_mem {alive : ℕ → Bool} {l : ℕ} (hl : alive l = true) {c : List ℕ} (h : l ∈ c) :
    ∃ cur rest, skipMarked alive c = some (cur :: rest) ∧ cur :: rest ⊆ c ∧
      ∀ x ∈ c, alive x = true → x ∈ cur :: rest := by
  induction c with
  | nil => cases h
  | cons cur rest ih =>
      rw [skipMarked]
      split
      · exact ⟨cur, rest, rfl, List.Subset.refl _, fun x hx _ => hx⟩
      · rename_i hcur
        have hne : l ≠ cur := by rintro rfl; exact hcur hl
        obtain ⟨cur', rest', hs, hsub, hmem⟩ := ih ((List.mem_cons.mp h).resolve_left hne)
        refine ⟨cur', rest', hs, List.Subset.trans hsub (List.subset_cons_self _ _), ?_⟩
        intro x hx hax
        rcases List.mem_cons.mp hx with rfl | hx
        · exact absurd hax hcur
        · exact hmem x hx hax

/-- The walk finds an unmarked lock that is in the chain, and unlinks only marked ones. -/
lemma walkTo_of_mem {alive : ℕ → Bool} {l : ℕ} (hl : alive l = true) {cur : ℕ} {rest : List ℕ}
    (h : l ∈ cur :: rest) :
    ∃ c, walkTo alive l cur rest = some c ∧ c ⊆ cur :: rest ∧
      ∀ x ∈ cur :: rest, alive x = true → x ∈ c := by
  induction rest generalizing cur with
  | nil =>
      obtain rfl := List.mem_singleton.mp h
      exact ⟨[l], by simp [walkTo], List.Subset.refl _, fun x hx _ => hx⟩
  | cons next rest ih =>
      rw [walkTo]
      split
      · exact ⟨_, rfl, List.Subset.refl _, fun x hx _ => hx⟩
      · rename_i hne
        have hmem : l ∈ next :: rest := (List.mem_cons.mp h).resolve_left fun e => hne e.symm
        -- the walk goes on from `next`
        have hgo : ∃ c, (walkTo alive l next rest).map (cur :: ·) = some c ∧
            c ⊆ cur :: next :: rest ∧ ∀ x ∈ cur :: next :: rest, alive x = true → x ∈ c := by
          obtain ⟨c, hc, hsub, hkeep⟩ := ih hmem
          refine ⟨cur :: c, by rw [hc]; rfl, List.cons_subset_cons _ hsub, ?_⟩
          intro x hx hax
          rcases List.mem_cons.mp hx with rfl | hx
          · exact List.mem_cons_self
          · exact List.mem_cons_of_mem _ (hkeep x hx hax)
        split
        · exact hgo
        · split
          · exact hgo
          · rename_i hnext
            have hln : l ≠ next := by rintro rfl; exact hnext hl
            have hmem' : l ∈ cur :: rest :=
              List.mem_cons_of_mem _ ((List.mem_cons.mp hmem).resolve_left hln)
            obtain ⟨c, hc, hsub, hkeep⟩ := ih hmem'
            refine ⟨c, hc, fun x hx => ?_, fun x hx hax => hkeep x ?_ hax⟩
            · rcases List.mem_cons.mp (hsub hx) with rfl | hx
              · exact List.mem_cons_self
              · exact List.mem_cons_of_mem _ (List.mem_cons_of_mem _ hx)
            · have hxn : x ≠ next := by rintro rfl; exact hnext hax
              simp only [List.mem_cons, hxn, false_or] at hx
              exact List.mem_cons.mpr hx

variable {hash}
variable {s : State τ}

omit [DecidableEq τ] in
lemma Inv.alive (hs : Inv hash s) {t : τ} {l : ℕ} (hl : l ∈ s.trxLocks t) : s.alive l = true := by
  obtain ⟨r, hr, -, hst⟩ := hs.locks t l hl
  simp [State.alive, hr, hst]

omit [DecidableEq τ] in
lemma Inv.lt (hs : Inv hash s) {t : τ} {l : ℕ} (hl : l ∈ s.trxLocks t) : l < s.fresh :=
  hs.chain_lt _ l (hs.reach t l hl)

omit [DecidableEq τ] in
/-- A lock is in the list of one transaction. -/
lemma Inv.trx_unique (hs : Inv hash s) {t u : τ} {l : ℕ} (ht : l ∈ s.trxLocks t)
    (hu : l ∈ s.trxLocks u) : t = u := by
  obtain ⟨r, hr, hrt, -⟩ := hs.locks t l ht
  obtain ⟨r', hr', hru, -⟩ := hs.locks u l hu
  obtain rfl : r = r' := Option.some.inj (hr.symm.trans hr')
  exact hrt.symm.trans hru

lemma cellOf_mark (t : τ) (l : ℕ) (c : List ℕ) (m : ℕ) :
    (s.mark hash t l c).cellOf hash m = s.cellOf hash m := by
  rcases eq_or_ne m l with rfl | hml
  · simp only [State.cellOf, State.mark, State.cell, Function.update_self, Option.map_map]
    rfl
  · simp only [State.cellOf, State.mark, State.cell, Function.update_of_ne hml]

/-- What is left in the lists was there before, and is another lock. -/
lemma Inv.mem_mark (hs : Inv hash s) {t u : τ} {l m : ℕ} (hl : l ∈ s.trxLocks t) {c : List ℕ}
    (hm : m ∈ (s.mark hash t l c).trxLocks u) : m ∈ s.trxLocks u ∧ m ≠ l := by
  rcases eq_or_ne u t with rfl | hut
  · simp only [State.mark, Function.update_self, (hs.nodup u).mem_erase_iff] at hm
    exact hm.symm
  · simp only [State.mark, Function.update_of_ne hut] at hm
    refine ⟨hm, ?_⟩
    rintro rfl
    exact hut (hs.trx_unique hm hl)

lemma Inv.mark (hs : Inv hash s) {t : τ} {l : ℕ} (hl : l ∈ s.trxLocks t) {c : List ℕ}
    (hsub : c ⊆ s.chain (s.cellOf hash l))
    (hkeep : ∀ x ∈ s.chain (s.cellOf hash l), s.alive x = true → x ∈ c) :
    Inv hash (s.mark hash t l c) := by
  refine ⟨hs.node, ?_, ?_, ?_, ?_⟩
  · intro i m hm
    rcases eq_or_ne i (s.cellOf hash l) with rfl | hi
    · simp only [State.mark, Function.update_self] at hm
      exact hs.chain_lt _ m (hsub hm)
    · simp only [State.mark, Function.update_of_ne hi] at hm
      exact hs.chain_lt i m hm
  · intro u m hm
    obtain ⟨hmu, hml⟩ := hs.mem_mark hl hm
    simpa only [State.mark, Function.update_of_ne hml] using hs.locks u m hmu
  · intro u m hm
    obtain ⟨hmu, -⟩ := hs.mem_mark hl hm
    have hmem := hs.reach u m hmu
    rw [cellOf_mark]
    rcases eq_or_ne (s.cellOf hash m) (s.cellOf hash l) with hi | hi
    · rw [hi] at hmem ⊢
      simpa only [State.mark, Function.update_self] using hkeep m hmem (hs.alive hmu)
    · simpa only [State.mark, Function.update_of_ne hi] using hmem
  · intro u
    rcases eq_or_ne u t with rfl | hut
    · simpa only [State.mark, Function.update_self] using (hs.nodup u).erase l
    · simpa only [State.mark, Function.update_of_ne hut] using hs.nodup u

/-- A transaction that dequeues one of its locks finds it, and keeps the other ones. -/
lemma Inv.dequeue (hs : Inv hash s) {t : τ} {l : ℕ} (hl : l ∈ s.trxLocks t) :
    ∃ s', s.dequeue hash t l = some s' ∧ Inv hash s' ∧
      s'.trxLocks t = (s.trxLocks t).erase l := by
  have hmem := hs.reach t l hl
  obtain ⟨cur, rest, hskip, hsub, hkeep⟩ := skipMarked_of_mem (hs.alive hl) hmem
  obtain ⟨c, hc, hsub', hkeep'⟩ := walkTo_of_mem (hs.alive hl) (hkeep l hmem (hs.alive hl))
  refine ⟨s.mark hash t l c, ?_, hs.mark hl ?_ ?_, Function.update_self ..⟩
  · simp only [State.dequeue, hskip, hc, Option.map_some]
  · exact List.Subset.trans hsub' hsub
  · exact fun x hx hax => hkeep' x (hkeep x hx hax) hax

/-- **`lock_release` comes to its end.** -/
lemma Inv.releaseLoop {t : τ} (n : ℕ) (hs : Inv hash s) (hn : (s.trxLocks t).length ≤ n) :
    ∃ s', State.releaseLoop hash t n s = some s' ∧ Inv hash s' ∧ s'.trxLocks t = [] := by
  induction n generalizing s with
  | zero => exact ⟨s, rfl, hs, List.length_eq_zero_iff.mp (Nat.le_zero.mp hn)⟩
  | succ n ih =>
      rw [State.releaseLoop]
      cases hlast : (s.trxLocks t).getLast? with
      | none => exact ⟨s, rfl, hs, List.getLast?_eq_none_iff.mp hlast⟩
      | some l =>
          have hl : l ∈ s.trxLocks t := List.mem_of_getLast? hlast
          obtain ⟨s', hd, hs', htl⟩ := hs.dequeue hl
          have hlen : (s'.trxLocks t).length ≤ n := by
            rw [htl, List.length_erase_of_mem hl]
            omega
          simpa only [hd, Option.bind_some] using ih hs' hlen

lemma Inv.lockRelease (hs : Inv hash s) (t : τ) :
    ∃ s', s.lockRelease hash t = some s' ∧ Inv hash s' ∧ s'.trxLocks t = [] :=
  hs.releaseLoop _ le_rfl

lemma Inv.consistent (hs : Inv hash s) : Consistent hash s where
  reach := hs.reach
  release t := by
    obtain ⟨s', hr, -, ht⟩ := hs.lockRelease t
    exact ⟨s', hr, ht⟩

omit [DecidableEq τ] in
lemma Inv.start (n : ℕ) : Inv hash (State.start n : State τ) where
  node _ := rfl
  chain_lt _ _ h := nomatch h
  locks _ _ h := nomatch h
  reach _ _ h := nomatch h
  nodup _ := List.nodup_nil

/-- A lock in the lists was there before, or is the new one. -/
lemma mem_project4Create {t u : τ} {page m : ℕ} {gapMode : GapMode}
    (hm : m ∈ (s.project4Create hash t page gapMode).trxLocks u) :
    m ∈ s.trxLocks u ∨ u = t ∧ m = s.fresh := by
  rcases eq_or_ne u t with rfl | hut
  · simp only [State.project4Create, Function.update_self, List.mem_append,
      List.mem_singleton] at hm
    exact hm.imp_right fun h => ⟨rfl, h⟩
  · simp only [State.project4Create, Function.update_of_ne hut] at hm
    exact Or.inl hm

lemma Inv.project4Create (hs : Inv hash s) (t : τ) (page : ℕ) (gapMode : GapMode) :
    Inv hash (s.project4Create hash t page gapMode) := by
  refine ⟨hs.node, ?_, ?_, ?_, ?_⟩
  · intro i m hm
    rcases eq_or_ne i (s.cell hash page) with rfl | hi
    · simp only [State.project4Create, Function.update_self, List.mem_append,
        List.mem_singleton] at hm
      rcases hm with hm | rfl
      · exact Nat.lt_succ_of_lt (hs.chain_lt _ m hm)
      · exact Nat.lt_succ_self _
    · simp only [State.project4Create, Function.update_of_ne hi] at hm
      exact Nat.lt_succ_of_lt (hs.chain_lt i m hm)
  · intro u m hm
    rcases mem_project4Create hm with hm | ⟨rfl, rfl⟩
    · simpa only [State.project4Create, Function.update_of_ne (hs.lt hm).ne] using hs.locks u m hm
    · exact ⟨_, Function.update_self .., rfl, rfl⟩
  · intro u m hm
    rcases mem_project4Create hm with hm | ⟨rfl, rfl⟩
    · have hcell : (s.project4Create hash t page gapMode).cellOf hash m = s.cellOf hash m := by
        simp only [State.cellOf, State.project4Create, State.cell,
          Function.update_of_ne (hs.lt hm).ne]
      have hmem := hs.reach u m hm
      rw [hcell]
      rcases eq_or_ne (s.cellOf hash m) (s.cell hash page) with hi | hi
      · rw [hi] at hmem ⊢
        simp [State.project4Create, hmem]
      · simpa only [State.project4Create, Function.update_of_ne hi] using hmem
    · simp [State.cellOf, State.project4Create, State.cell]
  · intro u
    rcases eq_or_ne u t with rfl | hut
    · simp only [State.project4Create, Function.update_self]
      refine (hs.nodup u).append (List.nodup_singleton _) ?_
      intro m hm hm'
      exact (hs.lt hm).ne (List.mem_singleton.mp hm')
    · simpa only [State.project4Create, Function.update_of_ne hut] using hs.nodup u

omit [DecidableEq τ] in
/-- With empty old chains a resize only clears the new chains. -/
lemma Inv.resize_eq (hs : Inv hash s) (n : ℕ) :
    s.resize hash n = { s with nCells := n, node := fun _ => [], chain := fun _ => [] } := by
  have h : (List.range s.nCells).flatMap s.node = [] := by simp [hs.node]
  rw [State.resize, h, List.foldl_nil]

omit [DecidableEq τ] in
lemma Inv.onPage_eq (hs : Inv hash s) (page : ℕ) : s.onPage hash page = [] := by
  rw [State.onPage, hs.node, List.filterMap_nil]

lemma convertImplToExpl_of_safe {owner : Option τ} {page heapNo nBits : ℕ}
    (h : owner = none ∨ heapNo = 1) : s.convertImplToExpl hash owner page heapNo nBits = s := by
  rcases h with rfl | rfl
  · rfl
  · cases owner <;> simp [State.convertImplToExpl]

/-- Without old chains an implicit lock becomes a new lock in the old chain. -/
lemma Inv.convertImplToExpl_eq (hs : Inv hash s) (u : τ) {page heapNo : ℕ} (nBits : ℕ)
    (h : heapNo ≠ 1) : s.convertImplToExpl hash (some u) page heapNo nBits =
      s.create hash u page heapNo .X .recNotGap false nBits := by
  simp [State.convertImplToExpl, State.addToQueue, State.hasExpl, hs.onPage_eq, h]

/-- What a lock in the old chain leaves behind: a transaction has a lock that is in no new chain. -/
def Stranded (s : State τ) : Prop :=
  ∃ t, ∃ l ∈ s.trxLocks t, l < s.fresh ∧ ∀ i, l ∉ s.chain i

lemma Stranded.not_consistent (h : Stranded s) : ¬ Consistent hash s := by
  obtain ⟨t, l, hl, -, hno⟩ := h
  exact fun hcons => hno _ (hcons.reach t l hl)

lemma Inv.stranded_create (hs : Inv hash s) (t : τ) (page heapNo : ℕ) (mode : LockMode)
    (gapMode : GapMode) (wait : Bool) (nBits : ℕ) :
    Stranded (s.create hash t page heapNo mode gapMode wait nBits) := by
  refine ⟨t, s.fresh, by simp [State.create], Nat.lt_succ_self _, fun i hi => ?_⟩
  exact (hs.chain_lt i _ hi).false

/-- A list that gets longer at its end keeps what is in it. -/
lemma mem_update_append {f : τ → List ℕ} {t u : τ} {l m : ℕ} (h : l ∈ f u) :
    l ∈ Function.update f t (f t ++ [m]) u := by
  rcases eq_or_ne u t with rfl | hut
  · rw [Function.update_self]
    exact List.mem_append_left _ h
  · rwa [Function.update_of_ne hut]

namespace Stranded

lemma create (h : Stranded s) (t : τ) (page heapNo : ℕ) (mode : LockMode) (gapMode : GapMode)
    (wait : Bool) (nBits : ℕ) :
    Stranded (s.create hash t page heapNo mode gapMode wait nBits) := by
  obtain ⟨u, l, hl, hlt, hno⟩ := h
  exact ⟨u, l, mem_update_append hl, Nat.lt_succ_of_lt hlt, hno⟩

lemma project4Create (h : Stranded s) (t : τ) (page : ℕ) (gapMode : GapMode) :
    Stranded (s.project4Create hash t page gapMode) := by
  obtain ⟨u, l, hl, hlt, hno⟩ := h
  refine ⟨u, l, mem_update_append hl, Nat.lt_succ_of_lt hlt, fun i hi => ?_⟩
  simp only [State.project4Create, Function.update_apply] at hi
  split_ifs at hi
  · rcases List.mem_append.1 hi with hi | hi
    · exact hno _ hi
    · exact hlt.ne (List.mem_singleton.1 hi)
  · exact hno i hi

lemma lockRecLock (h : Stranded s) (t : τ) (page heapNo : ℕ) (gapMode : GapMode) (nBits : ℕ) :
    Stranded (s.lockRecLock hash t page heapNo gapMode nBits) := by
  have hbit : ∀ l, Stranded (s.setBit l heapNo) := fun _ => h
  have hadd : Stranded (s.addToQueue hash t page heapNo .S gapMode nBits) := by
    rw [State.addToQueue]
    split
    · exact hbit _
    · exact h.create ..
  have hslow : Stranded (s.lockRecLockSlow hash t page heapNo gapMode nBits) := by
    rw [State.lockRecLockSlow]
    split_ifs
    · exact h
    · exact h.create ..
    · exact hadd
  rw [State.lockRecLock]
  split
  · exact h.create ..
  · split_ifs
    · exact h
    · exact hbit _
    · exact hslow
  · exact hslow

end Stranded

/-- A read of a secondary record that takes a lock takes it, or that of the owner, in the old
chain. -/
lemma Inv.stranded_secRead (hs : Inv hash s) (t : τ) (owner : Option τ) (page heapNo : ℕ)
    (gapMode : GapMode) (nBits : ℕ) :
    Stranded (s.secRead hash t owner page heapNo gapMode nBits false) := by
  rw [State.secRead, if_neg (by decide)]
  by_cases h : owner = none ∨ heapNo = 1
  · rw [convertImplToExpl_of_safe h, State.lockRecLock, hs.onPage_eq]
    exact hs.stranded_create ..
  · obtain ⟨howner, hheap⟩ := not_or.1 h
    obtain ⟨u, rfl⟩ := Option.ne_none_iff_exists'.1 howner
    rw [hs.convertImplToExpl_eq u nBits hheap]
    exact (hs.stranded_create ..).lockRecLock ..

/-- **A safe operation does not fail, and keeps the invariant.** -/
lemma Inv.step (hs : Inv hash s) {op : Op τ} (hop : Safe s op) :
    ∃ s', s.step hash op = some s' ∧ Inv hash s' := by
  cases op with
  | clust t owner page heapNo gapMode nBits skip =>
      refine ⟨_, rfl, ?_⟩
      rw [State.clustRead]
      split_ifs with hskip
      · exact hs
      · rw [convertImplToExpl_of_safe (hop.resolve_left hskip)]
        exact hs.project4Create t page gapMode
  | sec t owner page heapNo gapMode nBits skip =>
      refine ⟨s, ?_, hs⟩
      have hskip : skip = true := hop
      simp only [State.step, State.secRead, hskip, if_true]
  | resize n =>
      have hnone : ∀ t, s.trxLocks t = [] := hop
      refine ⟨_, congrArg some (hs.resize_eq n), ?_⟩
      refine ⟨fun _ => rfl, fun _ _ h => (List.not_mem_nil h).elim, ?_, ?_, hs.nodup⟩
      · intro t l hl
        simp [hnone t] at hl
      · intro t l hl
        simp [hnone t] at hl
  | release t =>
      obtain ⟨s', hr, hs', -⟩ := hs.lockRelease t
      exact ⟨s', hr, hs'⟩

/-- An operation that is not safe leaves behind a lock that cannot be reached. -/
lemma Inv.not_consistent (hs : Inv hash s) {op : Op τ} (hop : ¬ Safe s op) {s' : State τ}
    (h : s.step hash op = some s') : ¬ Consistent hash s' := by
  intro hcons
  cases op with
  | clust t owner page heapNo gapMode nBits skip =>
      obtain ⟨hskip, hconv⟩ := not_or.1 hop
      obtain ⟨howner, hheap⟩ := not_or.1 hconv
      obtain ⟨u, rfl⟩ := Option.ne_none_iff_exists'.1 howner
      obtain rfl : skip = false := Bool.eq_false_of_not_eq_true hskip
      obtain rfl := Option.some.inj h
      refine Stranded.not_consistent ?_ hcons
      rw [State.clustRead, if_neg (by decide), hs.convertImplToExpl_eq u nBits hheap]
      exact (hs.stranded_create ..).project4Create ..
  | release t => exact hop trivial
  | sec t owner page heapNo gapMode nBits skip =>
      obtain rfl : skip = false := Bool.eq_false_of_not_eq_true hop
      obtain rfl := Option.some.inj h
      exact (hs.stranded_secRead ..).not_consistent hcons
  | resize n =>
      have hres : s' = _ := (Option.some.inj h).symm.trans (hs.resize_eq n)
      subst hres
      refine hop fun t => List.eq_nil_iff_forall_not_mem.mpr fun l hl => ?_
      exact List.not_mem_nil (hcons.reach t l hl)

/-- The property all along a sequence of operations. -/
def AllConsistent (hash : ℕ → ℕ → ℕ) (s : State τ) (ops : List (Op τ)) : Prop :=
  ∀ k ≤ ops.length, ∃ s', State.run hash (ops.take k) s = some s' ∧ Consistent hash s'

lemma allConsistent_cons_iff {op : Op τ} {ops : List (Op τ)} :
    AllConsistent hash s (op :: ops) ↔
      Consistent hash s ∧ ∃ s', s.step hash op = some s' ∧ AllConsistent hash s' ops := by
  constructor
  · intro h
    obtain ⟨s₀, h₀, hc⟩ := h 0 (Nat.zero_le _)
    obtain rfl : s = s₀ := Option.some.inj h₀
    obtain ⟨s₁, h₁, -⟩ := h 1 (by simp)
    obtain ⟨s', hstep, -⟩ := Option.bind_eq_some_iff.mp h₁
    refine ⟨hc, s', hstep, fun k hk => ?_⟩
    obtain ⟨s₂, h₂, hc₂⟩ := h (k + 1) (by simpa using hk)
    rw [List.take_succ_cons, State.run, hstep, Option.bind_some] at h₂
    exact ⟨s₂, h₂, hc₂⟩
  · rintro ⟨hc, s', hstep, h⟩ k hk
    cases k with
    | zero => exact ⟨s, rfl, hc⟩
    | succ k =>
        obtain ⟨s₂, h₂, hc₂⟩ := h k (by simpa using hk)
        refine ⟨s₂, ?_, hc₂⟩
        rwa [List.take_succ_cons, State.run, hstep, Option.bind_some]

lemma Inv.allConsistent_iff (hs : Inv hash s) (ops : List (Op τ)) :
    AllConsistent hash s ops ↔ AllSafe hash s ops := by
  induction ops generalizing s with
  | nil =>
      refine ⟨fun _ => trivial, fun _ k hk => ⟨s, ?_, hs.consistent⟩⟩
      simp [Nat.le_zero.mp hk, State.run]
  | cons op ops ih =>
      rw [allConsistent_cons_iff, AllSafe]
      constructor
      · rintro ⟨-, s', hstep, h⟩
        have hop : Safe s op := by
          by_contra hop
          obtain ⟨s₁, h₁, hc⟩ := h 0 (Nat.zero_le _)
          obtain rfl : s' = s₁ := Option.some.inj h₁
          exact hs.not_consistent hop hstep hc
        refine ⟨hop, fun s₁ h₁ => ?_⟩
        obtain ⟨s₂, h₂, hs₂⟩ := hs.step hop
        obtain rfl : s₁ = s' := Option.some.inj (h₁.symm.trans hstep)
        obtain rfl : s₁ = s₂ := Option.some.inj (h₁.symm.trans h₂)
        exact (ih hs₂).mp h
      · rintro ⟨hop, h⟩
        obtain ⟨s', hstep, hs'⟩ := hs.step hop
        exact ⟨hs.consistent, s', hstep, (ih hs').mpr (h s' hstep)⟩

end Operations

/-! ## The main result -/

/-- **The chains stay consistent exactly when the old ones are not used.**  From an empty table, in
every state along a sequence of operations all locks of all transactions are in the new chain of
their cell and can be released, if and only if no operation takes a lock on a secondary record,
finds an implicit lock on a clustered one, or resizes the table while somebody holds a lock. -/
theorem consistent_iff {τ : Type*} [DecidableEq τ] (hash : ℕ → ℕ → ℕ) (n : ℕ) (ops : List (Op τ)) :
    (∀ k ≤ ops.length, ∃ s, State.run hash (ops.take k) (State.start n) = some s ∧
      Consistent hash s) ↔ AllSafe hash (State.start n) ops :=
  (Inv.start n).allConsistent_iff ops

/-- A transaction reads a secondary record and commits: its lock is in the old chain, and
`ut_a(cur_lock)` fails.  The same happens when it reads a clustered record and the table is
resized, and to a transaction that has inserted a record, when another one has read it. -/
theorem consistent_fails :
    let hash := fun n page => page % n
    (∃ s, State.run hash [.sec (0 : Fin 2) none 3 2 .recNotGap 72 false] (State.start 1) = some s ∧
      ¬ Consistent hash s ∧ s.lockRelease hash 0 = none) ∧
    (∃ s, State.run hash [.clust (0 : Fin 2) none 3 2 .recNotGap 72 false, .resize 2]
      (State.start 1) = some s ∧ ¬ Consistent hash s ∧ s.lockRelease hash 0 = none) ∧
    ∃ s, State.run hash [.clust (0 : Fin 2) (some 1) 3 2 .recNotGap 72 false] (State.start 1) =
      some s ∧ ¬ Consistent hash s ∧ s.lockRelease hash 1 = none := by
  refine ⟨⟨_, rfl, fun h => ?_, rfl⟩, ⟨_, rfl, fun h => ?_, rfl⟩, _, rfl, fun h => ?_, rfl⟩
  · exact List.not_mem_nil (h.reach 0 0 List.mem_cons_self)
  · exact List.not_mem_nil (h.reach 0 0 List.mem_cons_self)
  · have hmem := h.reach 1 0 List.mem_cons_self
    exact absurd hmem (by decide)

end Multicore.Project4.Chains
