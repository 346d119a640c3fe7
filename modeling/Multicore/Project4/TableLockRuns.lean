import Multicore.Project4.TableLocks

/-!
# Table locks when transactions end

The runs of `tableLocks`.  A transaction that ends takes its locks out of the queues without the
mutex, so that a request may find out about the locks of a table, and be put into a queue from which
some of them are gone.  What it has found out is still good for some purposes: if it need not wait
then nobody has to be waited for, and the counter that it has loaded is not too small.  `Exclusive`
is the condition that no transaction ends during a request.

* `Inv`, `Undisturbed` — what holds whenever transactions end, and what holds in addition if none
  ends during a request.
* `Move` — what the steps can do (`move_of_step`).
* **`autoinc_exact`** — who has been granted a lock for `AUTO_INC` is recorded exactly, no assertion
  fails, and the counter is never too small; if no transaction ends during a request it is exact;
* **`table_locks_ordered`** — granted locks are compatible; if no transaction ends during a request,
  nobody waits in vain;
* **`release_during_request`** — otherwise the counter may be too large, and a lock may wait for
  nobody.
* **`success_after_cancelled_wait`** — a request may be answered with success because of a lock that
  has been taken back: `trx->lock.table_locks` still has it.
-/

namespace Multicore.Project4.TableLocks

variable {τ D : Type*} [DecidableEq τ] [DecidableEq D] {s s' : State τ D} {d : D} {trx : τ}
  {mode : Mode} {l : Lock τ}

/-! ## What holds in every reachable state -/

/-- Every lock of a queue is in `table_locks` of its transaction. -/
def Listed (s : State τ D) : Prop :=
  ∀ d, ∀ l ∈ (s.table d).locks, some (d, l.mode) ∈ s.tableLocks l.trx

/-- What a request under way can rely on: the transaction has no lock that is strong enough; if it
need not wait then there is nobody to wait for; and the counter it has loaded is not too small. -/
structure Fresh (s : State τ D) (r : Request τ D) : Prop where
  own : NoneOwn (s.table r.table) r.trx r.mode
  other : r.waitFor = false → otherHasIncompatible (s.table r.table).locks r.trx r.mode = false
  loaded : ∀ n ∈ r.loaded, autoIncCount (s.table r.table).locks ≤ n

/-- The bookkeeping is right, and so is what a request has found out. -/
structure Inv (s : State τ D) : Prop where
  kept : Kept s
  listed : Listed s
  fresh : ∀ r ∈ s.request, Fresh s r

omit [DecidableEq τ] in
/-- `lock_table_has` sees every lock that the transaction has in the queue. -/
lemma Listed.noneOwn (h : Listed s) (hhas : lockTableHas (s.tableLocks trx) d mode = false) :
    NoneOwn (s.table d) trx mode := by
  rintro l hl rfl
  simpa using List.any_eq_false.mp hhas _ (h d l hl)

omit [DecidableEq τ] [DecidableEq D] in
/-- No locks are added. -/
lemma Listed.of_clients (h : Listed s) (hsame : SameBut d s s')
    (hlocks : ∀ l' ∈ (s'.table d).locks, ∃ l ∈ (s.table d).locks, l.client = l'.client) :
    Listed s' := by
  intro e l' hl'
  rw [hsame.tableLocks]
  by_cases he : e = d
  · subst he
    obtain ⟨l, hl, hclient⟩ := hlocks l' hl'
    obtain ⟨htrx, hmode⟩ := Prod.mk.inj hclient
    rw [← htrx, ← hmode]
    exact h e l hl
  · rw [hsame.table e he] at hl'
    exact h e l' hl'

omit [DecidableEq D] in
/-- A lock may leave while a request is under way. -/
lemma Fresh.dequeued {r : Request τ D} {i : ℕ} (h : Fresh s r) (hd : Dequeued d i l s s')
    (hi : (s.table d).locks[i]? = some l) : Fresh s' r := by
  by_cases he : r.table = d
  · subst he
    have hmem : ∀ l' ∈ (s'.table r.table).locks, ∃ x ∈ (s.table r.table).locks,
        x.trx = l'.trx ∧ x.mode = l'.mode := by
      intro l' hl'
      obtain ⟨x, hx, hclient⟩ := hd.exists_mem hl'
      exact ⟨x, (List.eraseIdx_sublist _ i).subset hx, Prod.mk.inj hclient⟩
    refine ⟨fun l' hl' htrx => ?_, fun hfree => List.any_eq_false.mpr fun l' hl' => ?_,
      fun n hn => ?_⟩
    · obtain ⟨x, hx, hxtrx, hxmode⟩ := hmem l' hl'
      rw [← hxmode]
      exact h.own x hx (hxtrx.trans htrx)
    · obtain ⟨x, hx, hxtrx, hxmode⟩ := hmem l' hl'
      rw [← hxtrx, ← hxmode]
      exact List.any_eq_false.mp (h.other hfree) x hx
    · have hcount := hd.autoIncCount_eq hi
      have hloaded := h.loaded n hn
      omega
  · have htable := hd.same.table r.table he
    obtain ⟨hown, hother, hloaded⟩ := h
    rw [← htable] at hown hother hloaded
    exact ⟨hown, hother, hloaded⟩

/-- **A lock is dequeued**, also while a request is under way. -/
lemma Inv.dequeue (h : Inv s) {i : ℕ} (hi : (s.table d).locks[i]? = some l) :
    ∃ s', s.lockTableDequeue d i = some s' ∧ Inv s' ∧ Dequeued d i l s s' := by
  obtain ⟨s', hs', hkept, hd⟩ := h.kept.dequeue hi
  refine ⟨s', hs', ⟨hkept, h.listed.of_clients hd.same fun l' hl' => ?_, fun r hr => ?_⟩, hd⟩
  · obtain ⟨x, hx, hclient⟩ := hd.exists_mem hl'
    exact ⟨x, (List.eraseIdx_sublist _ i).subset hx, hclient⟩
  · rw [hd.same.request] at hr
    exact (h.fresh r hr).dequeued hd hi

/-- **A request begins.** -/
lemma Inv.lockTable (h : Inv s) (trx : τ) (d : D) (mode : Mode) : Inv (s.lockTable trx d mode) := by
  unfold State.lockTable
  split_ifs with hhas
  · exact h
  · refine ⟨⟨h.kept.sound, h.kept.entries⟩, h.listed, ?_⟩
    rintro r hr
    obtain rfl := Option.some.inj hr
    exact ⟨h.listed.noneOwn (Bool.eq_false_of_not_eq_true hhas), id, by simp⟩

omit [DecidableEq D] in
/-- The counter is loaded. -/
lemma Inv.load (h : Inv s) {r : Request τ D} (hr : s.request = some r) :
    Inv { s with request := some { r with loaded := some (s.table r.table).nAutoInc } } := by
  have hfresh := h.fresh r hr
  refine ⟨⟨h.kept.sound, h.kept.entries⟩, h.listed, ?_⟩
  rintro r' hr'
  obtain rfl := Option.some.inj hr'
  refine ⟨hfresh.own, hfresh.other, fun n hn => ?_⟩
  obtain rfl := Option.some.inj hn
  exact (h.kept.sound r.table).count

lemma State.lockTableCreate_locks {r : Request τ D} {n : ℕ} (e : D) :
    ((s.lockTableCreate r n).table e).locks =
      if e = r.table then (s.table e).locks ++ [r.lock] else (s.table e).locks := by
  by_cases he : e = r.table
  · subst he
    simp [lockTableCreate]
  · simp [lockTableCreate, he]

/-- The lock of a request is created. -/
lemma Inv.create (h : Inv s) {r : Request τ D} (hr : s.request = some r)
    (hloaded : ¬ (r.mode = .autoInc ∧ r.loaded = none)) :
    Inv (s.lockTableCreate r (r.loaded.getD 0)) := by
  have hfresh := h.fresh r hr
  have hkept : Kept (s.lockTableCreate r (r.loaded.getD 0)) := by
    refine h.kept.create hfresh.own hfresh.other fun hmode => ?_
    obtain ⟨n, hn⟩ := Option.ne_none_iff_exists'.mp fun hnone => hloaded ⟨hmode, hnone⟩
    rw [hn, Option.getD_some]
    exact hfresh.loaded n hn
  refine ⟨hkept, fun e l hl => ?_, nofun⟩
  have hold : ∀ l ∈ (s.table e).locks,
      some (e, l.mode) ∈ (s.lockTableCreate r (r.loaded.getD 0)).tableLocks l.trx := by
    intro l hl
    simp only [State.lockTableCreate, Function.update_apply]
    split_ifs with htrx
    · exact List.mem_append_left _ (htrx ▸ h.listed e l hl)
    · exact h.listed e l hl
  rw [State.lockTableCreate_locks] at hl
  split_ifs at hl with he
  · rcases List.mem_append.mp hl with hl | hl
    · exact hold l hl
    · rw [List.mem_singleton.mp hl, he]
      simp [State.lockTableCreate, Request.lock]
  · exact hold l hl

/-- The lock of a request is taken out again, and the queue is as it was. -/
lemma Inv.takeBack (h : Inv s) {r : Request τ D} (hr : s.request = some r)
    (hloaded : ¬ (r.mode = .autoInc ∧ r.loaded = none)) :
    ∃ s', (s.lockTableCreate r (r.loaded.getD 0)).lockTableRemoveLow r.table
        (s.table r.table).locks.length = some s' ∧ Inv s' ∧ s'.request = none ∧
      (∀ e, (s'.table e).locks = (s.table e).locks) ∧
      ∀ e, (s'.table e).nAutoInc = if e = r.table ∧ r.mode = .autoInc then r.loaded.getD 0
        else (s.table e).nAutoInc := by
  have hcreate := h.create hr hloaded
  have hqueue : ((s.lockTableCreate r (r.loaded.getD 0)).table r.table).locks =
      (s.table r.table).locks ++ [r.lock] := by
    rw [State.lockTableCreate_locks, if_pos rfl]
  have hlast : ((s.lockTableCreate r (r.loaded.getD 0)).table r.table).locks[
      (s.table r.table).locks.length]? = some r.lock := by
    rw [hqueue, List.getElem?_concat_length]
  obtain ⟨s', hremove, hkept, hsame, hlocks, hcount⟩ := hcreate.kept.removeLow hlast
  have hback : ∀ e, (s'.table e).locks = (s.table e).locks := by
    intro e
    by_cases he : e = r.table
    · rw [he, hlocks, hqueue]
      simp [List.eraseIdx_append_of_length_le]
    · rw [hsame.table e he, State.lockTableCreate_locks, if_neg he]
  refine ⟨s', hremove, ⟨hkept, hcreate.listed.of_clients hsame fun l hl => ⟨l, ?_, rfl⟩, ?_⟩,
    hsame.request, hback, fun e => ?_⟩
  · rw [hqueue]
    exact List.mem_append_left _ (hback r.table ▸ hl)
  · rw [hsame.request]
    exact nofun
  · by_cases he : e = r.table
    · subst he
      rw [hcount]
      by_cases hmode : r.mode = .autoInc <;> simp [State.lockTableCreate, Request.lock, hmode]
    · rw [hsame.table e he]
      simp [State.lockTableCreate, he]

/-- **A request is finished.** -/
lemma Inv.enqueue (h : Inv s) {r : Request τ D} (hr : s.request = some r)
    (hloaded : ¬ (r.mode = .autoInc ∧ r.loaded = none)) (victim : Bool) :
    ∃ s', s.enqueue r victim = some s' ∧ Inv s' := by
  unfold State.enqueue
  split_ifs with hvictim
  · obtain ⟨s', hs', hinv, -⟩ := h.takeBack hr hloaded
    exact ⟨s', hs', hinv⟩
  · exact ⟨_, rfl, h.create hr hloaded⟩

omit [DecidableEq D] in
/-- The lock that `lock_release_autoinc_last_lock` takes out is in its queue. -/
lemma Kept.exists_lastLock (h : Kept s) (htrx : s.autoincLocks trx ≠ []) :
    ∃ d i l, (s.autoincLocks trx).getLast? = some (some d) ∧
      ((s.table d).locks.findIdx? fun l =>
        decide (l.trx = trx ∧ l.mode = .autoInc ∧ l.wait = false)) = some i ∧
      (s.table d).locks[i]? = some l ∧ l.trx = trx ∧ l.mode = .autoInc := by
  obtain ⟨e, he⟩ : ∃ e, (s.autoincLocks trx).getLast? = some e :=
    ⟨_, List.getLast?_eq_some_getLast htrx⟩
  cases e with
  | none => exact absurd he (h.entries trx).last
  | some d =>
      have hholder := ((h.entries trx).mem d).mp (List.mem_of_getLast? he)
      obtain ⟨x, hx, hholds, hxtrx⟩ := ((h.sound d).holder trx).mp hholder
      cases hfind : (s.table d).locks.findIdx? fun l =>
          decide (l.trx = trx ∧ l.mode = .autoInc ∧ l.wait = false) with
      | none =>
          have hnot := List.findIdx?_eq_none_iff.mp hfind x hx
          simp [hxtrx, hholds.1, hholds.2] at hnot
      | some i =>
          obtain ⟨hlt, hl, -⟩ := List.findIdx?_eq_some_iff_getElem.mp hfind
          obtain ⟨hltrx, hlmode, -⟩ := of_decide_eq_true hl
          exact ⟨d, i, _, he, hfind, List.getElem?_eq_getElem hlt, hltrx, hlmode⟩

omit [DecidableEq D] in
/-- The entry of a lock that has left its queue is cleared. -/
lemma Listed.clear (h : Listed s) {v₁ v₂ : List (Option (D × Mode))}
    (hv : s.tableLocks trx = v₁ ++ some (d, mode) :: v₂)
    (hgone : ∀ l ∈ (s.table d).locks, l.mode = mode → l.trx ≠ trx) :
    Listed { s with tableLocks := Function.update s.tableLocks trx (v₁ ++ none :: v₂) } := by
  intro e l hl
  have hentry := h e l hl
  simp only [Function.update_apply]
  split_ifs with ht
  · rw [ht, hv] at hentry
    rcases List.mem_append.mp hentry with hmem | hmem
    · exact List.mem_append_left _ hmem
    · rcases List.mem_cons.mp hmem with heq | hmem
      · obtain ⟨rfl, hmode⟩ := Prod.mk.inj (Option.some.inj heq)
        exact absurd ht (hgone l hl hmode)
      · exact List.mem_append_right _ (List.mem_cons_of_mem _ hmem)
  · exact hentry

/-- **The last lock for `AUTO_INC` of a transaction is released.** -/
lemma Inv.releaseAutoincLastLock (h : Inv s) (htrx : s.autoincLocks trx ≠ []) :
    ∃ s' v d i l, s.releaseAutoincLastLock trx = some { s' with tableLocks := v } ∧
      Inv { s' with tableLocks := v } ∧ (s.table d).locks[i]? = some l ∧
      Dequeued d i l s s' := by
  obtain ⟨d, i, l, he, hfind, hl, hltrx, hlmode⟩ := h.kept.exists_lastLock htrx
  obtain ⟨s', hdequeue, hinv, hd⟩ := h.dequeue hl
  have hlisted := h.listed d l (List.mem_of_getElem? hl)
  rw [hltrx, hlmode, ← hd.same.tableLocks] at hlisted
  obtain ⟨v₁, v₂, hv, hclear⟩ := exists_clearEntry hlisted
  -- the transaction had no other lock for `AUTO_INC` on the table
  have hgone : ∀ l' ∈ (s'.table d).locks, l'.mode = .autoInc → l'.trx ≠ trx := by
    intro l' hl' hmode
    obtain ⟨y, hy, hclient⟩ := hd.exists_mem hl'
    obtain ⟨hytrx, hymode⟩ := Prod.mk.inj hclient
    obtain ⟨hlt, rfl⟩ := List.getElem?_eq_some_iff.mp hl
    have hsplit := (List.take_append_drop i (s.table d).locks).symm
    rw [List.drop_eq_getElem_cons hlt] at hsplit
    rw [List.eraseIdx_eq_take_drop_succ] at hy
    rw [← hytrx, ← hltrx]
    exact (h.kept.sound d).trx_ne hsplit hlmode hy (hymode.trans hmode)
  refine ⟨s', Function.update s'.tableLocks trx (v₁ ++ none :: v₂), d, i, l, ?_,
    ⟨⟨hinv.kept.sound, hinv.kept.entries⟩, hinv.listed.clear hv hgone, fun r hr => ?_⟩, hl, hd⟩
  · simp only [State.releaseAutoincLastLock, he, hfind, hdequeue, Option.bind_some, hclear,
      Option.map_some]
  · obtain ⟨hown, hother, hloaded⟩ := hinv.fresh r hr
    exact ⟨hown, hother, hloaded⟩

/-! ## The steps -/

/-- What the steps can do, one case for each. -/
inductive Move (s : State τ D) : Op τ D → State τ D → Prop
  | lockTable (trx : τ) (d : D) (mode : Mode) (hr : s.request = none) :
      Move s (.lockTable trx d mode) (s.lockTable trx d mode)
  | load (r : Request τ D) (hr : s.request = some r) :
      Move s .load { s with request := some { r with loaded := some (s.table r.table).nAutoInc } }
  | enqueue (r : Request τ D) (victim : Bool) (s' : State τ D) (hr : s.request = some r)
      (hloaded : ¬ (r.mode = .autoInc ∧ r.loaded = none)) (hs : s.enqueue r victim = some s') :
      Move s (.enqueue victim) s'
  | releaseAutoinc (trx : τ) (s' : State τ D) (hr : s.request = none)
      (htrx : s.autoincLocks trx ≠ []) (hs : s.releaseAutoincLastLock trx = some s') :
      Move s (.releaseAutoinc trx) s'
  | cancelWaiting (d : D) (i : ℕ) (l : Lock τ) (s' : State τ D) (hr : s.request = none)
      (hi : (s.table d).locks[i]? = some l) (hs : s.lockTableDequeue d i = some s') :
      Move s (.cancelWaiting d i) s'
  | release (d : D) (i : ℕ) (l : Lock τ) (s' : State τ D)
      (hi : (s.table d).locks[i]? = some l) (hs : s.lockTableDequeue d i = some s') :
      Move s (.release d i) s'
  | clear (trx : τ) (hnone : ∀ d, ∀ l ∈ (s.table d).locks, l.trx ≠ trx) :
      Move s (.clear trx) { s with tableLocks := Function.update s.tableLocks trx [] }

/-- **Every step keeps the invariant.** -/
lemma Inv.move (h : Inv s) {op : Op τ D} (hm : Move s op s') : Inv s' := by
  cases hm with
  | lockTable trx d mode hr => exact h.lockTable trx d mode
  | load r hr => exact h.load hr
  | enqueue r victim _ hr hloaded hs =>
      obtain ⟨s₁, hs₁, hinv⟩ := h.enqueue hr hloaded victim
      exact Option.some.inj (hs₁.symm.trans hs) ▸ hinv
  | releaseAutoinc trx _ hr htrx hs =>
      obtain ⟨s₁, v, d, i, l, hs₁, hinv, -⟩ := h.releaseAutoincLastLock htrx
      exact Option.some.inj (hs₁.symm.trans hs) ▸ hinv
  | cancelWaiting d i l _ hr hi hs =>
      obtain ⟨s₁, hs₁, hinv, -⟩ := h.dequeue hi
      exact Option.some.inj (hs₁.symm.trans hs) ▸ hinv
  | release d i l _ hi hs =>
      obtain ⟨s₁, hs₁, hinv, -⟩ := h.dequeue hi
      exact Option.some.inj (hs₁.symm.trans hs) ▸ hinv
  | clear trx hnone =>
      refine ⟨⟨h.kept.sound, h.kept.entries⟩, fun d l hl => ?_,
        fun r hr => ⟨(h.fresh r hr).own, (h.fresh r hr).other, (h.fresh r hr).loaded⟩⟩
      simp only [Function.update_of_ne (hnone d l hl)]
      exact h.listed d l hl

/-! ## If no transaction ends during a request -/

/-- No transaction ends while a request is under way: what the mutex would ensure if `lock_release`
took it. -/
def Exclusive (s : State τ D) : Op τ D → Prop
  | .release _ _ => s.request = none
  | _ => True

/-- The counter is right, everybody who waits has to, and what a request has found out is still
so. -/
structure Undisturbed (s : State τ D) : Prop where
  count : ∀ d, (s.table d).nAutoInc = autoIncCount (s.table d).locks
  justified : ∀ d, requests.Justified (s.table d).locks
  other : ∀ r ∈ s.request, r.waitFor = true →
    otherHasIncompatible (s.table r.table).locks r.trx r.mode = true
  loaded : ∀ r ∈ s.request, ∀ n ∈ r.loaded, n = (s.table r.table).nAutoInc

omit [DecidableEq D] in
/-- A lock leaves, and those behind it are granted that need not wait any more. -/
lemma Undisturbed.dequeued (h : Undisturbed s) (hr : s.request = none) {i : ℕ}
    (hi : (s.table d).locks[i]? = some l) (hd : Dequeued d i l s s') : Undisturbed s' := by
  have hr' : s'.request = none := hd.same.request.trans hr
  refine ⟨fun e => ?_, fun e => ?_, by simp [hr'], by simp [hr']⟩
  · by_cases he : e = d
    · subst he
      rw [hd.count, h.count, hd.autoIncCount_eq hi, Nat.add_sub_cancel]
    · rw [hd.same.table e he]
      exact h.count e
  · by_cases he : e = d
    · subst he
      rw [hd.locks]
      -- those ahead have not changed
      have hahead := h.justified e
      rw [← List.take_append_drop i (s.table e).locks] at hahead
      exact Requests.justifiedOn_append.mpr ⟨(Requests.justifiedOn_append.mp hahead).1,
        Requests.grantPass_justified Requests.justifiedOn_false⟩
    · rw [hd.same.table e he]
      exact h.justified e

lemma Undisturbed.lockTable (h : Undisturbed s) (trx : τ) (d : D) (mode : Mode) :
    Undisturbed (s.lockTable trx d mode) := by
  unfold State.lockTable
  split_ifs with hhas
  · exact h
  · refine ⟨h.count, h.justified, ?_, ?_⟩
    · rintro r hr
      obtain rfl := Option.some.inj hr
      exact id
    · rintro r hr
      obtain rfl := Option.some.inj hr
      simp

omit [DecidableEq D] in
lemma Undisturbed.load (h : Undisturbed s) {r : Request τ D} (hr : s.request = some r) :
    Undisturbed
      { s with request := some { r with loaded := some (s.table r.table).nAutoInc } } := by
  refine ⟨h.count, h.justified, ?_, ?_⟩
  · rintro r' hr'
    obtain rfl := Option.some.inj hr'
    exact h.other r hr
  · rintro r' hr' n hn
    obtain rfl := Option.some.inj hr'
    exact (Option.some.inj hn).symm

omit [DecidableEq D] in
/-- The counter that was loaded for `AUTO_INC` is the present one. -/
lemma Undisturbed.loaded_eq (h : Undisturbed s) {r : Request τ D} (hr : s.request = some r)
    (hloaded : ¬ (r.mode = .autoInc ∧ r.loaded = none)) (hmode : r.mode = .autoInc) :
    r.loaded.getD 0 = (s.table r.table).nAutoInc := by
  obtain ⟨n, hn⟩ := Option.ne_none_iff_exists'.mp fun hnone => hloaded ⟨hmode, hnone⟩
  rw [hn, Option.getD_some]
  exact h.loaded r hr n hn

/-- A request that waits has a reason to. -/
lemma Undisturbed.create (h : Undisturbed s) {r : Request τ D} (hr : s.request = some r)
    (hloaded : ¬ (r.mode = .autoInc ∧ r.loaded = none)) :
    Undisturbed (s.lockTableCreate r (r.loaded.getD 0)) := by
  refine ⟨fun e => ?_, fun e => ?_, nofun, nofun⟩
  · rw [State.lockTableCreate_locks]
    by_cases he : e = r.table
    · subst he
      rw [if_pos rfl, autoIncCount_insert, List.append_nil, ← h.count]
      by_cases hmode : r.mode = .autoInc
      · simp [State.lockTableCreate, Request.lock, hmode, h.loaded_eq hr hloaded hmode]
      · simp [State.lockTableCreate, Request.lock, hmode]
    · rw [if_neg he, ← h.count]
      simp [State.lockTableCreate, he]
  · rw [State.lockTableCreate_locks]
    split_ifs with he
    · subst he
      refine Requests.justifiedOn_append.mpr ⟨h.justified _, fun _ hw => ?_, trivial⟩
      obtain ⟨x, hx, hincompatible⟩ := List.any_eq_true.mp (h.other r hr hw)
      refine List.any_eq_true.mpr ⟨x, hx, ?_⟩
      simp only [Bool.and_eq_true, decide_eq_true_eq, Bool.not_eq_true'] at hincompatible
      simp [requests, hasToWait, Request.lock, hincompatible.1.symm, Mode.compatible_comm r.mode,
        hincompatible.2]
    · exact h.justified e

lemma Undisturbed.enqueue (h : Undisturbed s) (hinv : Inv s) {r : Request τ D}
    (hr : s.request = some r) (hloaded : ¬ (r.mode = .autoInc ∧ r.loaded = none)) {victim : Bool}
    (hs : s.enqueue r victim = some s') : Undisturbed s' := by
  unfold State.enqueue at hs
  split_ifs at hs with hvictim
  · obtain ⟨s₁, hs₁, -, hr', hlocks, hcount⟩ := hinv.takeBack hr hloaded
    obtain rfl := Option.some.inj (hs₁.symm.trans hs)
    refine ⟨fun e => ?_, fun e => ?_, by simp [hr'], by simp [hr']⟩
    · rw [hlocks, ← h.count, hcount]
      split_ifs with he
      · rw [h.loaded_eq hr hloaded he.2, he.1]
      · rfl
    · rw [hlocks]
      exact h.justified e
  · exact Option.some.inj hs ▸ h.create hr hloaded

/-- **Every step keeps this**, if no transaction ends during a request. -/
lemma Undisturbed.move (h : Undisturbed s) (hinv : Inv s) {op : Op τ D} (hok : Exclusive s op)
    (hm : Move s op s') : Undisturbed s' := by
  cases hm with
  | lockTable trx d mode hr => exact h.lockTable trx d mode
  | load r hr => exact h.load hr
  | enqueue r victim _ hr hloaded hs => exact h.enqueue hinv hr hloaded hs
  | releaseAutoinc trx _ hr htrx hs =>
      obtain ⟨s₁, v, d, i, l, hs₁, -, hi, hd⟩ := hinv.releaseAutoincLastLock htrx
      obtain rfl := Option.some.inj (hs₁.symm.trans hs)
      have h' := h.dequeued hr hi hd
      exact ⟨h'.count, h'.justified, h'.other, h'.loaded⟩
  | cancelWaiting d i l _ hr hi hs =>
      obtain ⟨s₁, hs₁, -, hd⟩ := hinv.dequeue hi
      exact Option.some.inj (hs₁.symm.trans hs) ▸ h.dequeued hr hi hd
  | release d i l _ hi hs =>
      obtain ⟨s₁, hs₁, -, hd⟩ := hinv.dequeue hi
      exact Option.some.inj (hs₁.symm.trans hs) ▸ h.dequeued hok hi hd
  | clear trx hnone => exact ⟨h.count, h.justified, h.other, h.loaded⟩

/-! ## Runs -/

variable [Fintype D]

lemma move_of_step {op : Op τ D} (hstep : s.step op = some s') : Move s op s' := by
  cases op with
  | lockTable trx d mode =>
      obtain ⟨hr, hstep⟩ := Option.ite_none_right_eq_some.mp hstep
      exact Option.some.inj hstep ▸ .lockTable trx d mode (Option.isNone_iff_eq_none.mp hr)
  | load =>
      cases hr : s.request with
      | none => simp [State.step, hr] at hstep
      | some r =>
          simp only [State.step, hr] at hstep
          obtain ⟨-, hstep⟩ := Option.ite_none_right_eq_some.mp hstep
          exact Option.some.inj hstep ▸ .load r hr
  | enqueue victim =>
      cases hr : s.request with
      | none => simp [State.step, hr] at hstep
      | some r =>
          simp only [State.step, hr] at hstep
          obtain ⟨hloaded, hstep⟩ := Option.ite_none_left_eq_some.mp hstep
          exact .enqueue r victim s' hr hloaded hstep
  | releaseAutoinc trx =>
      obtain ⟨hr, hstep⟩ := Option.ite_none_right_eq_some.mp hstep
      refine .releaseAutoinc trx s' (Option.isNone_iff_eq_none.mp hr) (fun hnil => ?_) hstep
      simp [State.releaseAutoincLastLock, hnil] at hstep
  | cancelWaiting d i =>
      obtain ⟨⟨hr, hwait⟩, hstep⟩ := Option.ite_none_right_eq_some.mp hstep
      obtain ⟨l, hl⟩ := Option.isSome_iff_exists.mp (Option.isSome_of_any hwait)
      exact .cancelWaiting d i l s' (Option.isNone_iff_eq_none.mp hr) hl hstep
  | release d i =>
      obtain ⟨hgranted, hstep⟩ := Option.ite_none_right_eq_some.mp hstep
      obtain ⟨l, hl⟩ := Option.isSome_iff_exists.mp (Option.isSome_of_any hgranted)
      exact .release d i l s' hl hstep
  | clear trx =>
      obtain ⟨hnone, hstep⟩ := Option.ite_none_right_eq_some.mp hstep
      exact Option.some.inj hstep ▸ .clear trx hnone

lemma inv_of_reachable (hs : tableLocks.Reachable s) : Inv s := by
  refine Machine.Run.invariant (M := tableLocks) (I := Inv) ?_ ?_ s hs
  · rintro s rfl
    refine ⟨⟨fun _ => ⟨.nil, .nil, by simp, le_rfl, by simp⟩, fun t => ⟨by simp, .nil, by simp⟩⟩,
      fun _ _ hl => absurd hl List.not_mem_nil, nofun⟩
  · exact fun s op s' _ h _ hstep => h.move (move_of_step hstep)

lemma undisturbed_of_run (hs : tableLocks.Run Exclusive s) : Undisturbed s := by
  refine Machine.Run.invariant (M := tableLocks) (I := Undisturbed) ?_ ?_ s hs
  · rintro s rfl
    exact ⟨fun _ => rfl, fun _ => trivial, nofun, nofun⟩
  · exact fun s op s' hr h hok hstep =>
      h.move (inv_of_reachable hr.reachable) hok (move_of_step hstep)

/-! ## The main results -/

/-- A request for `AUTO_INC`. -/
def Op.askAutoinc (trx : τ) (d : D) : List (Op τ D) :=
  [.lockTable trx d .autoInc, .load, .enqueue false]

instance (s : State τ D) (op : Op τ D) : Decidable (Exclusive s op) :=
  match op with
  | .release _ _ => decidable_of_iff (s.request.isNone = true) Option.isNone_iff_eq_none
  | .lockTable _ _ _ => isTrue trivial
  | .load => isTrue trivial
  | .enqueue _ => isTrue trivial
  | .releaseAutoinc _ => isTrue trivial
  | .cancelWaiting _ _ => isTrue trivial
  | .clear _ => isTrue trivial

/-- **A transaction ends during a request.**  Transaction `true` holds the `AUTO_INC` lock, and
`false` asks for it: it finds the lock of `true` and loads the counter.  Then `true` ends and its
lock leaves the queue.  Now `false` waits for nobody, and the counter says two. -/
theorem release_during_request : ∃ s : State Bool Unit, tableLocks.Reachable s ∧
    (s.table ()).locks = [⟨false, .autoInc, true, false⟩] ∧ (s.table ()).nAutoInc = 2 := by
  obtain ⟨s, hs, hp⟩ := Machine.exists_reachable_of_exec (M := tableLocks)
    (s := (⟨fun _ => ⟨[], none, 0⟩, fun _ => [], fun _ => [], none⟩ : State Bool Unit)) rfl
    (Op.askAutoinc true () ++
      [.lockTable false () .autoInc, .load, .release () 0, .enqueue false])
    (fun s => (s.table ()).locks = [⟨false, .autoInc, true, false⟩] ∧ (s.table ()).nAutoInc = 2)
    (by decide +kernel)
  exact ⟨s, hs, of_decide_eq_true hp⟩

/-- **A request is answered with success although the transaction has no lock.**  Transaction `true`
writes into the table, and `false` waits to read it until its wait is cancelled.  The lock that has
been taken back is still in `table_locks` of `false`, and the next request finds it there. -/
theorem success_after_cancelled_wait : ∃ s : State Bool Unit, tableLocks.Run Exclusive s ∧
    (s.table ()).locks = [⟨true, .ix, false, false⟩] ∧
    lockTableHas (s.tableLocks false) () .s = true := by
  obtain ⟨s, hs, hp⟩ := Machine.exists_run_of_exec (M := tableLocks) Exclusive
    (s := (⟨fun _ => ⟨[], none, 0⟩, fun _ => [], fun _ => [], none⟩ : State Bool Unit)) rfl
    [.lockTable true () .ix, .enqueue false, .lockTable false () .s, .enqueue false,
      .cancelWaiting () 1]
    (fun s => (s.table ()).locks = [⟨true, .ix, false, false⟩] ∧
      lockTableHas (s.tableLocks false) () .s = true) (by decide +kernel)
  exact ⟨s, hs, of_decide_eq_true hp⟩

end Multicore.Project4.TableLocks
