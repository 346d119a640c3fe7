import Mathlib.Data.Finset.Basic
import Multicore.Lib.Segment

/-!
# The queue of a cell under VATS scheduling

With `innodb_lock_schedule_algorithm = VATS` granted locks belong to the head of the chain that
hangs off `cell->node`: `RecLock::lock_add` puts a granted lock there, and
`lock_grant_and_move_on_page` moves the locks there that it grants.  Both call
`lock_rec_insert_to_head`, which `project4` has changed: it stores `cell->node = in_lock` and leaves
`in_lock->hash` alone.

The operations run one after the other, under the mutex of the lock system.  One cell is modelled;
its chain may have locks of several pages.

* `State.hashInsert`, `State.hashDelete`, `State.insertToHead`, `State.lockAdd`,
  `State.lockGrantAndMoveOnPage` — the code.  `none` is a failed assertion, the use of a null
  pointer, or a loop that has not come to an end in the given number of rounds.
* `IsQueue` — the property: the chain comes to an end, and consists of the locks that have been
  added and not deleted, each of them once.
* **`queue_kept_iff`** — it holds all along a sequence of operations exactly when every granted lock
  that is added happens to have `cell->node` in its uninitialised field `hash`, and no pass grants
  a lock other than the first of the chain.
-/

namespace Multicore.Project4.LockQueue

/-! ## The memory -/

/-- One cell and the locks.  `page` stands for `space` and `page_no`. -/
structure State (α P : Type*) where
  /-- `cell->node` -/
  node : Option α
  /-- `lock->hash` -/
  hash : α → Option α
  page : α → P
  /-- `LOCK_WAIT` in `lock->type_mode` -/
  waiting : α → Bool
  /-- the locks that have been added and not deleted; no operation reads it -/
  present : Finset α

variable {α P : Type*} [DecidableEq α] [DecidableEq P]

namespace State

variable (s : State α P)

def setHash (a : α) (p : Option α) : State α P := { s with hash := Function.update s.hash a p }

/-! ## Adding and deleting -/

/-- `RecLock::lock_alloc`.  The memory comes from a pool or a heap and is not cleared: `hash` is
what was there before. -/
def lockAlloc (lock : α) (page : P) (wait : Bool) (stale : Option α) : State α P :=
  { s with
    hash := Function.update s.hash lock stale
    page := Function.update s.page lock page
    waiting := Function.update s.waiting lock wait }

/-- `HASH_INSERT`. -/
def hashInsert (n : ℕ) (data : α) : Option (State α P) :=
  let s := s.setHash data none
  match s.node with
  | none => some { s with node := some data }
  | some first =>
      (walkUntil s.hash (fun a => (s.hash a).isNone) n first).map fun a => s.setHash a (some data)

/-- `HASH_DELETE`. -/
def hashDelete (n : ℕ) (data : α) : Option (State α P) :=
  if s.node = some data then some { s with node := s.hash data }
  else
    (s.node.bind (walkUntil s.hash (fun a => s.hash a = some data) n)).map fun a =>
      s.setHash a (s.hash data)

/-- `lock_rec_insert_to_head`, for an `in_lock` that is not null. -/
def insertToHead (inLock : α) : State α P :=
  if s.node ≠ some inLock then { s with node := some inLock } else s

/-- `RecLock::lock_add`, with `add_to_hash`. -/
def lockAdd (n : ℕ) (lock : α) : Option (State α P) :=
  if s.waiting lock then s.hashInsert n lock else some (s.insertToHead lock)

/-! ## Granting -/

/-- `lock_grant`: the lock does not wait any more. -/
def lockGrant (lock : α) : State α P := { s with waiting := Function.update s.waiting lock false }

/-- A lock is granted and moved: `lock_grant`, then `previous->hash = lock->hash` and
`lock_rec_insert_to_head`. -/
def grantAndMove (previous lock : α) : State α P :=
  ((s.lockGrant lock).setHash previous (s.hash lock)).insertToHead lock

/-- The lock is on the page, it waits, and it need not. -/
def Grants (page : P) (grantable : α → Bool) (lock : α) : Prop :=
  s.page lock = page ∧ s.waiting lock = true ∧ grantable lock = true

instance (page : P) (grantable : α → Bool) (lock : α) : Decidable (s.Grants page grantable lock) :=
  inferInstanceAs (Decidable (_ ∧ _ ∧ _))

end State

/-- The loop of `lock_grant_and_move_on_page`.  `previous` is not null in any round. -/
def grantLoop (page : P) (grantable : α → Bool) :
    ℕ → α → Option α → State α P → Option (State α P)
  | _, _, none, s => some s
  | 0, _, some _, _ => none
  | n + 1, previous, some lock, s =>
      if s.Grants page grantable lock then
        let s := s.grantAndMove previous lock
        grantLoop page grantable n previous (s.hash previous) s
      else grantLoop page grantable n lock (s.hash lock) s

namespace State

variable (s : State α P)

/-- `lock_grant_and_move_on_page`; `grantable` are the locks for which
`lock_rec_has_to_wait_in_queue` says no. -/
def lockGrantAndMoveOnPage (n : ℕ) (page : P) (grantable : α → Bool) : Option (State α P) :=
  match s.node with
  | none => some s
  | some first =>
      if s.page first = page then grantLoop page grantable n first (some first) s
      else
        (walkUntil s.hash (fun a => (s.hash a).all fun b => s.page b = page) n first).bind
          fun previous => grantLoop page grantable n previous (s.hash previous) s

end State

/-! ## Sequences of operations -/

/-- The operations on a cell. -/
inductive Op (α P : Type*)
  | lockAdd (lock : α) (page : P) (wait : Bool) (stale : Option α)
  | hashDelete (lock : α)
  | lockGrantAndMoveOnPage (page : P) (grantable : α → Bool)

namespace State

variable (s : State α P)

/-- An operation whose loops have at most `n` rounds. -/
def step (n : ℕ) : Op α P → Option (State α P)
  | .lockAdd lock page wait stale =>
      ((s.lockAlloc lock page wait stale).lockAdd n lock).map fun s' =>
        { s' with present := insert lock s.present }
  | .hashDelete lock =>
      (s.hashDelete n lock).map fun s' => { s' with present := s.present.erase lock }
  | .lockGrantAndMoveOnPage page grantable => s.lockGrantAndMoveOnPage n page grantable

/-- The operation comes back, in the state `s'`. -/
def Returns (op : Op α P) (s' : State α P) : Prop := ∃ n, s.step n op = some s'

/-- The chain comes to an end, and has the locks that are present, each of them once. -/
def IsQueue : Prop :=
  ∃ l : List α, Segment s.hash s.node l none ∧ l.Nodup ∧ ∀ a, a ∈ l ↔ a ∈ s.present

/-- A lock is added that is not there, and deleted when it is there. -/
def Legal : Op α P → Prop
  | .lockAdd lock _ _ _ => lock ∉ s.present
  | .hashDelete lock => lock ∈ s.present
  | .lockGrantAndMoveOnPage _ _ => True

instance : DecidablePred s.Legal := fun op => by
  cases op <;> unfold Legal <;> infer_instance

/-- A granted lock is added only when its field `hash` happens to be `cell->node`, and a pass grants
at most the first lock of the chain. -/
def Safe : Op α P → Prop
  | .lockAdd _ _ wait stale => wait = true ∨ stale = s.node
  | .hashDelete _ => True
  | .lockGrantAndMoveOnPage page grantable =>
      ∀ a ∈ s.present, s.Grants page grantable a → s.node = some a

instance : DecidablePred s.Safe := fun op => by
  cases op <;> unfold Safe <;> infer_instance

end State

/-- Every operation of a sequence comes back, and there is a queue before and after each of them. -/
def KeepsQueue : State α P → List (Op α P) → Prop
  | s, [] => s.IsQueue
  | s, op :: ops => s.IsQueue ∧ ∃ s', s.Returns op s' ∧ KeepsQueue s' ops

/-- Every operation of a sequence is made in a state in which it has the property `Q`. -/
def Always (Q : State α P → Op α P → Prop) : State α P → List (Op α P) → Prop
  | _, [] => True
  | s, op :: ops => Q s op ∧ ∀ s', s.Returns op s' → Always Q s' ops

/-! ## More rounds change nothing -/

lemma grantLoop_mono {page : P} {grantable : α → Bool} {j k : ℕ} {previous : α} {lock : Option α}
    {s s' : State α P} (hjk : j ≤ k) (h : grantLoop page grantable j previous lock s = some s') :
    grantLoop page grantable k previous lock s = some s' := by
  induction j generalizing k previous lock s with
  | zero =>
      cases lock with
      | none => simpa [grantLoop] using h
      | some a => simp [grantLoop] at h
  | succ j ih =>
      cases lock with
      | none => simpa [grantLoop] using h
      | some a =>
          obtain ⟨k, rfl⟩ : ∃ k', k = k' + 1 := ⟨k - 1, by omega⟩
          simp only [grantLoop] at h ⊢
          split_ifs at h ⊢ with hg
          · exact ih (by omega) h
          · exact ih (by omega) h

namespace State

variable {s s' s₁ s₂ : State α P} {op : Op α P}

lemma step_mono {j k : ℕ} (hjk : j ≤ k) (h : s.step j op = some s') : s.step k op = some s' := by
  cases op with
  | lockAdd lock page wait stale =>
      obtain ⟨t, ht, rfl⟩ := Option.map_eq_some_iff.mp h
      refine Option.map_eq_some_iff.mpr ⟨t, ?_, rfl⟩
      unfold lockAdd hashInsert at ht ⊢
      split_ifs at ht ⊢ with hw
      · dsimp only at ht ⊢
        split at ht
        · exact ht
        · obtain ⟨a, ha, rfl⟩ := Option.map_eq_some_iff.mp ht
          exact Option.map_eq_some_iff.mpr ⟨a, walkUntil_mono hjk ha, rfl⟩
      · exact ht
  | hashDelete lock =>
      obtain ⟨t, ht, rfl⟩ := Option.map_eq_some_iff.mp h
      refine Option.map_eq_some_iff.mpr ⟨t, ?_, rfl⟩
      unfold hashDelete at ht ⊢
      split_ifs at ht ⊢ with hn
      · exact ht
      · obtain ⟨a, ha, rfl⟩ := Option.map_eq_some_iff.mp ht
        obtain ⟨first, hfirst, hw⟩ := Option.bind_eq_some_iff.mp ha
        exact Option.map_eq_some_iff.mpr
          ⟨a, Option.bind_eq_some_iff.mpr ⟨first, hfirst, walkUntil_mono hjk hw⟩, rfl⟩
  | lockGrantAndMoveOnPage page grantable =>
      simp only [step, lockGrantAndMoveOnPage] at h ⊢
      split at h
      · exact h
      · split_ifs at h ⊢ with hp
        · exact grantLoop_mono hjk h
        · obtain ⟨previous, hw, hg⟩ := Option.bind_eq_some_iff.mp h
          exact Option.bind_eq_some_iff.mpr ⟨previous, walkUntil_mono hjk hw, grantLoop_mono hjk hg⟩

lemma Returns.unique (h₁ : s.Returns op s₁) (h₂ : s.Returns op s₂) : s₁ = s₂ := by
  obtain ⟨j, hj⟩ := h₁
  obtain ⟨k, hk⟩ := h₂
  have := (step_mono (le_max_left j k) hj).symm.trans (step_mono (le_max_right j k) hk)
  exact Option.some.inj this

/-! ## Adding and deleting -/

section Chain

variable {l : List α} {a : α}

omit [DecidableEq P]

/-- Whatever the head was, it is `in_lock` now. -/
lemma insertToHead_eq (s : State α P) (a : α) : s.insertToHead a = { s with node := some a } := by
  unfold insertToHead
  split_ifs with h
  · rfl
  · rw [← not_not.mp h]

lemma update_hash_of_mem (ha : a ∉ l) (p : Option α) :
    ∀ b ∈ l, Function.update s.hash a p b = s.hash b := by
  rintro b hb
  refine Function.update_of_ne ?_ _ _
  rintro rfl
  exact ha hb

/-- `HASH_INSERT` appends the lock to the chain. -/
lemma hashInsert_chain (h : Segment s.hash s.node l none) (ha : a ∉ l) :
    ∃ n s', s.hashInsert n a = some s' ∧ Segment s'.hash s'.node (l ++ [a]) none := by
  have ht : Segment (s.setHash a none).hash s.node l none := h.congr (update_hash_of_mem ha none)
  have hta : (s.setHash a none).hash a = none := Function.update_self _ _ _
  rcases List.eq_nil_or_concat l with rfl | ⟨l₀, b, rfl⟩
  · have hnode : s.node = none := h
    exact ⟨0, { s.setHash a none with node := some a }, by simp [hashInsert, setHash, hnode],
      rfl, hta⟩
  · rw [List.concat_eq_append] at *
    obtain ⟨hl₀, hb⟩ := segment_middle.mp ht
    cases hnode : s.node with
    | none => rw [hnode] at hl₀; cases l₀ <;> simp at hl₀
    | some first =>
        have hwalk : walkUntil (s.setHash a none).hash
            (fun c => ((s.setHash a none).hash c).isNone) (l₀.length + 1) first = some b := by
          rw [hnode] at ht
          refine walkUntil_segment ht (fun c hc => ?_) ?_ (Nat.lt_succ_self _)
          · rw [Option.isNone_eq_false_iff, Option.isSome_iff_ne_none]
            exact hl₀.next_ne_none c hc
          · rw [segment_nil.mp hb, Option.isNone_none]
        have hab : a ≠ b := fun heq => ha (by simp [heq])
        refine ⟨l₀.length + 1, (s.setHash a none).setHash b (some a), ?_, ?_⟩
        · simp only [hashInsert]
          rw [show (s.setHash a none).node = some first from hnode]
          simp only [hwalk, Option.map_some]
        · exact ht.concat hta hab

/-- `HASH_DELETE` takes a lock of the chain out of it. -/
lemma hashDelete_chain (h : Segment s.hash s.node l none) (ha : a ∈ l) :
    ∃ n s', s.hashDelete n a = some s' ∧ Segment s'.hash s'.node (l.erase a) none := by
  obtain ⟨l₁, l₂, -, rfl, herase⟩ := List.exists_erase_eq ha
  rw [herase]
  rcases List.eq_nil_or_concat l₁ with rfl | ⟨l₀, b, rfl⟩
  · obtain ⟨hnode, hl₂⟩ := h
    exact ⟨0, { s with node := s.hash a }, by simp [hashDelete, hnode], hl₂⟩
  · rw [List.concat_eq_append, List.append_assoc, List.singleton_append] at *
    cases hnode : s.node with
    | none => rw [hnode] at h; cases l₀ <;> simp at h
    | some first =>
        have hfirst : s.node ≠ some a := by
          intro heq
          rw [heq, ← List.singleton_append, ← List.append_assoc] at h
          simpa using h.eq_nil_of_start
        have hwalk : walkUntil s.hash (fun c => s.hash c = some a) (l₀.length + 1) first
            = some b := by
          rw [hnode] at h
          refine walkUntil_segment h (fun c hc => ?_) ?_ (Nat.lt_succ_self _)
          · simpa using h.pred_unique c hc
          · simpa using (segment_middle.mp h).2.1
        refine ⟨l₀.length + 1, s.setHash b (s.hash a), ?_, ?_⟩
        · simp only [hashDelete]
          rw [if_neg hfirst, hnode, Option.bind_some, hwalk, Option.map_some]
        · exact h.unlink

end Chain

variable {lock : α} {page : P} {stale : Option α} {grantable : α → Bool}

/-- A waiting lock can always be added. -/
lemma IsQueue.lockAdd_waiting (h : s.IsQueue) (hlock : lock ∉ s.present) :
    ∃ s', s.Returns (.lockAdd lock page true stale) s' ∧ s'.IsQueue := by
  obtain ⟨l, hl, -, hmem⟩ := h
  have hnot : lock ∉ l := fun hin => hlock ((hmem lock).mp hin)
  have hl' : Segment (s.lockAlloc lock page true stale).hash s.node l none :=
    hl.congr (update_hash_of_mem hnot stale)
  obtain ⟨n, s', hs', hchain⟩ := hashInsert_chain hl' hnot
  refine ⟨{ s' with present := insert lock s.present }, ⟨n, ?_⟩, l ++ [lock], hchain,
    hchain.nodup, fun a => ?_⟩
  · have hw : (s.lockAlloc lock page true stale).waiting lock = true := Function.update_self _ _ _
    simp only [step, lockAdd, hw, if_true, hs', Option.map_some]
  · simp only [List.mem_append, List.mem_singleton, hmem, Finset.mem_insert]
    tauto

/-- What adding a granted lock leaves behind: nothing but `cell->node` has changed. -/
def addGranted (s : State α P) (lock : α) (page : P) (stale : Option α) : State α P :=
  { s.lockAlloc lock page false stale with
    node := some lock
    present := insert lock s.present }

lemma returns_lockAdd_granted :
    s.Returns (.lockAdd lock page false stale) (s.addGranted lock page stale) := by
  have hw : (s.lockAlloc lock page false stale).waiting lock = false := Function.update_self _ _ _
  refine ⟨0, ?_⟩
  simp only [step, lockAdd, hw, Bool.false_eq_true, if_false, Option.map_some, insertToHead_eq,
    addGranted]

omit [DecidableEq P] in
/-- **A granted lock keeps the queue exactly when its `hash` is `cell->node` already.** -/
lemma IsQueue.addGranted_iff (h : s.IsQueue) (hlock : lock ∉ s.present) :
    (s.addGranted lock page stale).IsQueue ↔ stale = s.node := by
  obtain ⟨l, hl, hnd, hmem⟩ := h
  have hnot : lock ∉ l := fun hin => hlock ((hmem lock).mp hin)
  have hl' : Segment (s.addGranted lock page stale).hash s.node l none :=
    hl.congr (update_hash_of_mem hnot stale)
  have hself : (s.addGranted lock page stale).hash lock = stale := Function.update_self _ _ _
  constructor
  · rintro ⟨m, hm, hnd', hmem'⟩
    cases m with
    | nil => exact absurd hm (by simp [addGranted])
    | cons a m =>
        obtain rfl : lock = a := Option.some.inj hm.1
        -- what follows the new lock is the old queue
        have hrest := hm.2
        rw [hself] at hrest
        refine hrest.start_unique hl' fun b => ?_
        have hb := hmem' b
        rw [List.nodup_cons] at hnd'
        simp only [addGranted, List.mem_cons, Finset.mem_insert] at hb
        rw [hmem]
        constructor
        · intro hbm
          exact (hb.mp (.inr hbm)).resolve_left fun heq => hnd'.1 (heq ▸ hbm)
        · intro hbs
          exact (hb.mpr (.inr hbs)).resolve_left fun heq => hlock (heq ▸ hbs)
  · rintro rfl
    refine ⟨lock :: l, ⟨rfl, ?_⟩, List.nodup_cons.mpr ⟨hnot, hnd⟩, fun a => ?_⟩
    · rw [hself]
      exact hl'
    · simp only [addGranted, List.mem_cons, hmem, Finset.mem_insert]

/-- A lock of the queue can always be deleted. -/
lemma IsQueue.hashDelete (h : s.IsQueue) (hlock : lock ∈ s.present) :
    ∃ s', s.Returns (.hashDelete lock) s' ∧ s'.IsQueue := by
  obtain ⟨l, hl, hnd, hmem⟩ := h
  obtain ⟨n, s', hs', hchain⟩ := hashDelete_chain hl ((hmem lock).mpr hlock)
  refine ⟨{ s' with present := s.present.erase lock }, ⟨n, ?_⟩, l.erase lock, hchain,
    hchain.nodup, fun a => ?_⟩
  · simp only [step, hs', Option.map_some]
  · rw [hnd.mem_erase_iff, hmem, Finset.mem_erase]

/-! ## Granting -/

omit [DecidableEq P] in
lemma grantAndMove_eq (s : State α P) (previous a : α) : s.grantAndMove previous a =
    { s with
      node := some a
      hash := Function.update s.hash previous (s.hash a)
      waiting := Function.update s.waiting a false } := by
  rw [grantAndMove, insertToHead_eq]
  rfl

omit [DecidableEq P] in
/-- Granting a lock does not make another one grantable, or the other way round. -/
lemma grants_grantAndMove {previous a b : α} (hba : b ≠ a) :
    (s.grantAndMove previous a).Grants page grantable b ↔ s.Grants page grantable b := by
  simp only [grantAndMove_eq, Grants, Function.update_of_ne hba]

/-- What the loop does with the rest `m` of the chain: it grants nothing, or the last lock that it
grants is the head afterwards, with only what follows it in `m` behind it. -/
def LoopEnds (s : State α P) (page : P) (grantable : α → Bool) (m : List α) (s' : State α P) :
    Prop :=
  (∀ a ∈ m, ¬ s.Grants page grantable a) ∧ s' = s ∨
    ∃ m₁ a m₂, m = m₁ ++ a :: m₂ ∧ s.Grants page grantable a ∧ s'.node = some a ∧
      Segment s'.hash (some a) (a :: m₂) none

lemma grantLoop_spec {m : List α} {previous : α} {p : Option α} {n : ℕ}
    (h : Segment s.hash p m none) (hprev : previous ∉ m) (hn : m.length ≤ n) :
    ∃ s', grantLoop page grantable n previous p s = some s' ∧ s'.present = s.present ∧
      s.LoopEnds page grantable m s' := by
  induction m generalizing s previous p n with
  | nil =>
      obtain rfl := segment_nil.mp h
      exact ⟨s, by simp [grantLoop], rfl, .inl ⟨by simp, rfl⟩⟩
  | cons a m ih =>
      obtain ⟨n, rfl⟩ : ∃ n', n = n' + 1 := ⟨n - 1, by simp at hn; omega⟩
      have hnd := h.nodup
      obtain ⟨rfl, hm⟩ := h
      rw [List.nodup_cons] at hnd
      rw [List.mem_cons, not_or] at hprev
      simp only [List.length_cons, Nat.add_le_add_iff_right] at hn
      by_cases hg : s.Grants page grantable a
      · have hhash : (s.grantAndMove previous a).hash
            = Function.update s.hash previous (s.hash a) := by rw [grantAndMove_eq]
        have hm' : Segment (s.grantAndMove previous a).hash (s.hash a) m none := by
          rw [hhash]
          exact hm.congr (update_hash_of_mem hprev.2 _)
        obtain ⟨s', hs', hpres, hcase⟩ := ih hm' hprev.2 hn
        refine ⟨s', ?_, hpres.trans (by rw [grantAndMove_eq]), .inr ?_⟩
        · rw [grantLoop, if_pos hg]
          simp only [hhash, Function.update_self]
          exact hs'
        · rcases hcase with ⟨-, rfl⟩ | ⟨m₁, b, m₂, rfl, hb, hnode, hchain⟩
          · refine ⟨[], a, m, rfl, hg, by rw [grantAndMove_eq], rfl, ?_⟩
            rw [hhash, Function.update_of_ne (Ne.symm hprev.1), ← hhash]
            exact hm'
          · have hba : b ≠ a := fun heq => hnd.1 (by simp [heq])
            exact ⟨a :: m₁, b, m₂, rfl, (grants_grantAndMove hba).mp hb, hnode, hchain⟩
      · obtain ⟨s', hs', hpres, hcase⟩ := ih hm hnd.1 hn
        refine ⟨s', by rw [grantLoop, if_neg hg]; exact hs', hpres, ?_⟩
        rcases hcase with ⟨hno, rfl⟩ | ⟨m₁, b, m₂, rfl, hb, hrest⟩
        · exact .inl ⟨List.forall_mem_cons.mpr ⟨hg, hno⟩, rfl⟩
        · exact .inr ⟨a :: m₁, b, m₂, rfl, hb, hrest⟩

omit [DecidableEq α] in
/-- The loop that looks for the first lock of the page stops before it, or at the last lock. -/
lemma walkUntil_page {first : α} {m : List α} (h : Segment s.hash (some first) (first :: m) none)
    (hfirst : s.page first ≠ page) :
    ∃ l₁ previous l₂, first :: m = l₁ ++ previous :: l₂ ∧
      (∀ a ∈ l₁ ++ [previous], s.page a ≠ page) ∧
      ∀ n, m.length < n → walkUntil s.hash (fun a => (s.hash a).all fun b => s.page b = page) n
        first = some previous := by
  induction m generalizing first with
  | nil =>
      have hlast : s.hash first = none := h.2
      refine ⟨[], first, [], rfl, by simpa using hfirst, fun n hn => ?_⟩
      obtain ⟨n, rfl⟩ := Nat.exists_eq_add_of_lt hn
      simp [walkUntil, hlast]
  | cons b m ih =>
      have hnext : s.hash first = some b := h.2.1
      by_cases hb : s.page b = page
      · refine ⟨[], first, b :: m, rfl, by simpa using hfirst, fun n hn => ?_⟩
        obtain ⟨n, rfl⟩ : ∃ n', n = n' + 1 := ⟨n - 1, by simp at hn; omega⟩
        simp [walkUntil, hnext, hb]
      · obtain ⟨l₁, previous, l₂, heq, hpage, hwalk⟩ := ih ⟨rfl, h.2.2⟩ hb
        refine ⟨first :: l₁, previous, l₂, by rw [heq, List.cons_append], ?_, fun n hn => ?_⟩
        · rw [List.cons_append]
          exact List.forall_mem_cons.mpr ⟨hfirst, hpage⟩
        · obtain ⟨n, rfl⟩ : ∃ n', n = n' + 1 := ⟨n - 1, by simp at hn; omega⟩
          have := hwalk n (by simpa using hn)
          simp [walkUntil, hnext, hb, this]

omit [DecidableEq P] in
/-- **A pass keeps the queue exactly when it moves nothing.**  The loop has been running from the
state `s₀` on the part `r` of the queue, in front of which only the first lock can be granted. -/
lemma isQueue_of_loopEnds {s₀ : State α P} {first : α} {l r : List α}
    (hchain : Segment s.hash s.node (l ++ r) none) (hmem : ∀ a, a ∈ l ++ r ↔ a ∈ s.present)
    (hfirst : s.node = some first) (hin : first ∈ l)
    (hskip : ∀ a ∈ l, a ≠ first → ¬ s.Grants page grantable a)
    (hhash : s₀.hash = s.hash) (hnode : s₀.node = s.node)
    (hgrants : ∀ a, a ≠ first → (s₀.Grants page grantable a ↔ s.Grants page grantable a))
    (hpres : s'.present = s.present) (hends : s₀.LoopEnds page grantable r s') :
    s'.IsQueue ↔ s.Safe (.lockGrantAndMoveOnPage page grantable) := by
  have hnd := hchain.nodup
  have hnot : first ∉ r := fun hr => (List.nodup_append.mp hnd).2.2 first hin first hr rfl
  rcases hends with ⟨hno, rfl⟩ | ⟨m₁, a, m₂, rfl, ha, ha', hrest⟩
  · refine iff_of_true ⟨l ++ r, ?_, hnd, fun a => ?_⟩ fun a ha hg => ?_
    · rw [hhash, hnode]
      exact hchain
    · rw [hpres, hmem]
    · by_contra hne
      have haf : a ≠ first := fun heq => hne (by rw [hfirst, heq])
      rcases List.mem_append.mp ((hmem a).mpr ha) with hal | har
      · exact hskip a hal haf hg
      · exact hno a har ((hgrants a haf).mpr hg)
  · have haf : a ≠ first := fun heq => hnot (by simp [heq])
    refine iff_of_false ?_ fun hsafe => ?_
    · -- the first lock is not reached any more
      rintro ⟨l', hl', -, hmem'⟩
      rw [ha'] at hl'
      obtain rfl := hl'.unique hrest
      have hlost : first ∈ a :: m₂ :=
        (hmem' first).mpr (hpres ▸ (hmem first).mp (List.mem_append_left _ hin))
      exact hnot (List.mem_append_right m₁ hlost)
    · have hpresent : a ∈ s.present := (hmem a).mp (by simp)
      have := hsafe a hpresent ((hgrants a haf).mp ha)
      exact haf (Option.some.inj (this.symm.trans hfirst))

/-- When the first lock is on the page, `previous == lock` in the first round, which moves
nothing. -/
lemma grantLoop_first (page : P) (grantable : α → Bool) {first : α} (hfirst : s.node = some first) :
    ∃ s₀ : State α P, s₀.hash = s.hash ∧ s₀.node = s.node ∧ s₀.present = s.present ∧
      (∀ a, a ≠ first → (s₀.Grants page grantable a ↔ s.Grants page grantable a)) ∧
      ∀ n, grantLoop page grantable (n + 1) first (some first) s
        = grantLoop page grantable n first (s₀.hash first) s₀ := by
  by_cases hg : s.Grants page grantable first
  · refine ⟨s.grantAndMove first first, ?_, ?_, ?_, fun a ha => grants_grantAndMove ha, fun n => ?_⟩
    · rw [grantAndMove_eq, Function.update_eq_self]
    · rw [grantAndMove_eq, hfirst]
    · rw [grantAndMove_eq]
    · rw [grantLoop, if_pos hg]
  · exact ⟨s, rfl, rfl, rfl, fun a _ => Iff.rfl, fun n => by rw [grantLoop, if_neg hg]⟩

/-- **A pass comes to an end, and keeps the queue exactly when it grants no lock but the first.** -/
lemma IsQueue.grant (h : s.IsQueue) :
    ∃ s', s.Returns (.lockGrantAndMoveOnPage page grantable) s' ∧
      (s'.IsQueue ↔ s.Safe (.lockGrantAndMoveOnPage page grantable)) := by
  obtain ⟨l, hl, hnd, hmem⟩ := h
  cases l with
  | nil =>
      have hnode : s.node = none := hl
      refine ⟨s, ⟨0, by simp [step, lockGrantAndMoveOnPage, hnode]⟩, ?_⟩
      refine iff_of_true ⟨[], hl, hnd, hmem⟩ fun a ha _ => ?_
      exact absurd ((hmem a).mpr ha) (by simp)
  | cons first m =>
      have hfirst : s.node = some first := hl.1
      by_cases hpage : s.page first = page
      · obtain ⟨s₀, hhash, hnode, hpres₀, hgrants, hloop⟩ := grantLoop_first page grantable hfirst
        have hm : Segment s₀.hash (s₀.hash first) m none := by
          rw [hhash]
          exact hl.2
        obtain ⟨s', hs', hpres, hends⟩ := grantLoop_spec hm (List.nodup_cons.mp hnd).1 le_rfl
        refine ⟨s', ⟨m.length + 1, ?_⟩, isQueue_of_loopEnds (l := [first]) hl hmem hfirst
          (by simp) (by simp) hhash hnode hgrants (hpres.trans hpres₀) hends⟩
        simp only [step, lockGrantAndMoveOnPage, hfirst, if_pos hpage]
        rw [hloop]
        exact hs'
      · have hl' : Segment s.hash (some first) (first :: m) none := ⟨rfl, hl.2⟩
        obtain ⟨l₁, previous, l₂, heq, hskip, hwalk⟩ := walkUntil_page hl' hpage
        rw [heq] at hl hmem
        obtain ⟨s', hs', hpres, hends⟩ := grantLoop_spec (segment_middle.mp hl).2
          (fun hin => hl.notMem (List.mem_append_right l₁ hin)) le_rfl
        have hlen : l₂.length ≤ m.length + 1 := by
          have := congrArg List.length heq
          simp only [List.length_cons, List.length_append] at this
          omega
        rw [← List.singleton_append, ← List.append_assoc] at hl hmem
        refine ⟨s', ⟨m.length + 1, ?_⟩, isQueue_of_loopEnds hl hmem hfirst ?_
          (fun a ha _ hg => hskip a ha hg.1) rfl rfl (fun _ _ => Iff.rfl) hpres hends⟩
        · simp only [step, lockGrantAndMoveOnPage, hfirst, if_neg hpage]
          rw [hwalk _ (Nat.lt_succ_self _), Option.bind_some]
          exact grantLoop_mono hlen hs'
        · cases l₁ <;> simp_all

end State

/-! ## Sequences -/

/-- An operation comes back, and keeps the queue exactly when it is safe. -/
lemma State.IsQueue.step_iff {s : State α P} {op : Op α P} (h : s.IsQueue) (hlegal : s.Legal op) :
    ∃ s', s.Returns op s' ∧ (s'.IsQueue ↔ s.Safe op) := by
  cases op with
  | lockAdd lock page wait stale =>
      cases wait with
      | true =>
          obtain ⟨s', hs', hq⟩ := h.lockAdd_waiting hlegal
          exact ⟨s', hs', iff_of_true hq (.inl rfl)⟩
      | false =>
          refine ⟨_, State.returns_lockAdd_granted, ?_⟩
          rw [h.addGranted_iff hlegal, State.Safe]
          simp
  | hashDelete lock =>
      obtain ⟨s', hs', hq⟩ := h.hashDelete hlegal
      exact ⟨s', hs', iff_of_true hq trivial⟩
  | lockGrantAndMoveOnPage page grantable => exact h.grant

lemma KeepsQueue.isQueue {s : State α P} {ops : List (Op α P)} (h : KeepsQueue s ops) :
    s.IsQueue := by
  cases ops with
  | nil => exact h
  | cons op ops => exact h.1

/-- **The queue is kept exactly as long as nothing has to be linked behind a new head.** -/
theorem queue_kept_iff (s : State α P) (ops : List (Op α P)) (hs : s.IsQueue)
    (hlegal : Always State.Legal s ops) : KeepsQueue s ops ↔ Always State.Safe s ops := by
  induction ops generalizing s with
  | nil => exact iff_of_true hs trivial
  | cons op ops ih =>
      obtain ⟨s', hs', hsafe⟩ := hs.step_iff hlegal.1
      constructor
      · rintro ⟨-, s₁, hs₁, hkeep⟩
        obtain rfl := hs₁.unique hs'
        refine ⟨hsafe.mp hkeep.isQueue, fun s₂ hs₂ => ?_⟩
        obtain rfl := hs₂.unique hs'
        exact (ih s₂ hkeep.isQueue (hlegal.2 s₂ hs₂)).mp hkeep
      · rintro ⟨hok, hrest⟩
        have hq := hsafe.mpr hok
        exact ⟨hs, s', hs', (ih s' hq (hlegal.2 s' hs')).mpr (hrest s' hs')⟩

/-! ## Runs that can be computed -/

/-- The operations one after the other, with at most `n` rounds in each loop. -/
def exec (n : ℕ) (s : State α P) (ops : List (Op α P)) : Option (State α P) :=
  ops.foldlM (fun s op => s.step n op) s

/-- `Always`, tested along that run. -/
def testAlways (Q : State α P → Op α P → Prop) [∀ s, DecidablePred (Q s)] (n : ℕ) :
    State α P → List (Op α P) → Bool
  | _, [] => true
  | s, op :: ops => decide (Q s op) && (s.step n op).any fun s' => testAlways Q n s' ops

lemma always_of_test {Q : State α P → Op α P → Prop} [∀ s, DecidablePred (Q s)] {n : ℕ}
    {s : State α P} {ops : List (Op α P)} (h : testAlways Q n s ops = true) : Always Q s ops := by
  induction ops generalizing s with
  | nil => trivial
  | cons op ops ih =>
      rw [testAlways, Bool.and_eq_true, decide_eq_true_eq, Option.any_eq_true] at h
      obtain ⟨hQ, s', hs', hrest⟩ := h
      refine ⟨hQ, fun s₁ hs₁ => ?_⟩
      obtain rfl := hs₁.unique ⟨n, hs'⟩
      exact ih hrest

/-- A cell without locks. -/
def State.empty : State ℕ ℕ where
  node := none
  hash _ := none
  page _ := 0
  waiting _ := false
  present := ∅

lemma State.isQueue_empty : State.empty.IsQueue := ⟨[], rfl, List.nodup_nil, by simp [State.empty]⟩

/-- One lock is granted at once, two wait behind it; when it is deleted, a pass grants the lock that
has become the first. -/
theorem queue_kept_handover : KeepsQueue State.empty
    [.lockAdd 0 5 false none, .lockAdd 1 5 true (some 7), .lockAdd 2 6 true none, .hashDelete 0,
      .lockGrantAndMoveOnPage 5 fun _ => true] :=
  (queue_kept_iff _ _ State.isQueue_empty (always_of_test (n := 3) (by decide))).mpr
    (always_of_test (n := 3) (by decide))

/-- The lock has been added and not deleted, and the chain does not lead to it. -/
def State.Lost (s : State α P) (a : α) : Prop :=
  a ∈ s.present ∧ ∀ l, Segment s.hash s.node l none → a ∉ l

lemma lost_of_exec {n : ℕ} {s : State α P} {ops : List (Op α P)} {a b : α} (hab : a ≠ b)
    (h : (exec n s ops).any (fun s' => s'.node = some b ∧ s'.hash b = none ∧ a ∈ s'.present)) :
    ∃ s', exec n s ops = some s' ∧ s'.Lost a := by
  obtain ⟨s', hs', hb⟩ := (Option.any_eq_true _ _).mp h
  obtain ⟨hnode, hhash, hpresent⟩ := of_decide_eq_true hb
  refine ⟨s', hs', hpresent, fun l hl => ?_⟩
  have hlast : Segment s'.hash s'.node [b] none := ⟨hnode, hhash⟩
  obtain rfl := hl.unique hlast
  simpa using hab

/-- Two granted locks on one page: the first is not reached any more.  The same happens to the
first lock when a pass grants the second. -/
theorem queue_lost :
    (∃ s, exec 3 State.empty [.lockAdd 0 5 false none, .lockAdd 1 5 false none] = some s ∧
      s.Lost 0) ∧
    ∃ s, exec 3 State.empty [.lockAdd 0 5 false none, .lockAdd 1 5 true none,
      .lockGrantAndMoveOnPage 5 fun _ => true] = some s ∧ s.Lost 0 :=
  ⟨lost_of_exec (b := 1) (by decide) (by decide), lost_of_exec (b := 1) (by decide) (by decide)⟩

end Multicore.Project4.LockQueue
