import Multicore.Project3.Snapshot

/-!
# Are snapshots atomic?

A call of `scan` is *atomic* if the array it returns is what the slots held at one moment of the
call.  It returns the last collect, when this carries the same stamps as the one before.  A slot
that was written for the first time since then gives itself away by its stamp; a slot that was
written **again** does not.

So a write can do harm, but only to a collect that has not come to the slot yet, and only if one of
the slots it has passed has changed in the meantime: else everything the collect has read is still
there, and the moment after the write will do.  `NoHiddenWrite` excludes just these writes.

* `Scan`, `Atomic` — a call in a trace, and what is asked of it.
* `Agrees` — what is kept during a collect: there is a moment of the call at which every slot held
  what the collect has read or is going to read, unless the stamps tell.
* **`scan_atomic`** — without hidden writes, every call is atomic.
* **`scan_not_atomic`** — three threads, two of which update twice.
-/

namespace Multicore.Project3

variable {n : ℕ} {V : Type*}

/-! ## The property -/

/-- The thread is in a call of `scan`. -/
def Pc.inScan : Pc n V → Bool
  | .first _ _ _ => true
  | .again _ _ _ _ _ => true
  | _ => false

/-- What `scan` has returned to `update`. -/
def Pc.returned : Pc n V → Option (Option (Fin n → V))
  | .scanned _ snap => some snap
  | _ => none

section Atomic

variable [Zero V] {ok : State n V → Act n V → Prop}

/-- Thread `t` calls `update`, and with it `scan`, with action `start`; the call returns `result`
with action `stop`. -/
structure Scan (e : (snapshot n V).Trace ok) (t : Fin n) (start stop : ℕ)
    (result : Option (Fin n → V)) : Prop where
  called : ∃ value, e.acts[start]? = some (.update t value)
  lt : start < stop
  le : stop < e.acts.length
  running : ∀ k, start < k → k ≤ stop → ((e.state k).pc t).inScan = true
  returned : ((e.state (stop + 1)).pc t).returned = some result

/-- Every call of `scan` returns the values of the slots at one moment of the call. -/
def Atomic (e : (snapshot n V).Trace ok) : Prop :=
  ∀ t start stop result, Scan e t start stop result →
    ∃ k, start < k ∧ k ≤ stop ∧ result = some fun i => ((e.state k).snaps i).value

end Atomic

/-- A slot that has been written before is written only if no collect is under way that is still
to read it and has read another slot that has changed since. -/
def NoHiddenWrite (s : State n V) (a : Act n V) : Prop :=
  ∀ t newValue, a = .go t → s.pc t = .write newValue → (s.snaps t).stamp ≠ 0 →
    ∀ u value moved oldCopy i newCopy, s.pc u = .again value moved oldCopy i newCopy →
      i ≤ t.val → ∀ j : Fin n, j.val < i → (s.snaps j).value = (newCopy j).value

/-- A write to slot `t` does no harm to a thread at `pc`. -/
def Pc.Spared (snaps : Fin n → StampedSnap n V) (t : Fin n) : Pc n V → Prop
  | .again _ _ _ i newCopy =>
      i ≤ t.val → ∀ j : Fin n, j.val < i → (snaps j).value = (newCopy j).value
  | _ => True

instance [DecidableEq V] (snaps : Fin n → StampedSnap n V) (t : Fin n) :
    ∀ pc : Pc n V, Decidable (pc.Spared snaps t)
  | .again _ _ _ i newCopy => inferInstanceAs (Decidable
      (i ≤ t.val → ∀ j : Fin n, j.val < i → (snaps j).value = (newCopy j).value))
  | .idle | .first _ _ _ | .scanned _ _ | .write _ => .isTrue trivial

lemma noHiddenWrite_iff {s : State n V} {t : Fin n} {newValue : StampedSnap n V}
    (hpc : s.pc t = .write newValue) :
    NoHiddenWrite s (.go t) ↔ ((s.snaps t).stamp ≠ 0 → ∀ u, (s.pc u).Spared s.snaps t) := by
  constructor
  · intro h hne u
    cases hu : s.pc u with
    | again value moved oldCopy i newCopy =>
        exact h t newValue rfl hpc hne u value moved oldCopy i newCopy hu
    | _ => trivial
  · intro h t' newValue' ha _ hne u value moved oldCopy i newCopy hu
    cases ha
    have hspared := h hne u
    rw [hu] at hspared
    exact hspared

instance [DecidableEq V] (s : State n V) : ∀ a, Decidable (NoHiddenWrite s a)
  | .update _ _ => .isTrue fun _ _ ha => nomatch ha
  | .go t =>
      match hpc : s.pc t with
      | .write _ => decidable_of_iff _ (noHiddenWrite_iff hpc).symm
      | .idle | .first _ _ _ | .again _ _ _ _ _ | .scanned _ _ =>
          .isTrue fun _ _ ha hw => by cases ha; rw [hpc] at hw; cases hw

/-! ## What is kept during a collect -/

section Agrees

variable {snaps : Fin n → StampedSnap n V} {oldCopy newCopy : Copies n V} {i : ℕ}
  {values : Fin n → V}

/-- What a collect that has read `i` slots has read of a slot, or would read now. -/
def latest (snaps : Fin n → StampedSnap n V) (i : ℕ) (newCopy : Copies n V) : Copies n V :=
  fun j => if j.val < i then newCopy j else snaps j

/-- Reading the next slot changes nothing. -/
lemma latest_read (i : Fin n) :
    latest snaps (i + 1) (Function.update newCopy i (snaps i)) = latest snaps i newCopy := by
  funext j
  by_cases hji : j = i
  · simp [latest, hji]
  · have hlt : j.val < i.val + 1 ↔ j.val < i.val := by
      have : j.val ≠ i.val := fun h => hji (Fin.ext h)
      omega
    simp [latest, hlt, hji]

lemma latest_zero : latest snaps 0 newCopy = snaps := by
  funext j
  simp [latest]

/-- At the end of a collect it has read everything. -/
lemma latest_of_le (hi : n ≤ i) : latest snaps i newCopy = newCopy := by
  funext j
  simp [latest, j.2.trans_le hi]

/-- `values` is what the collect reads, but for the slots that give themselves away. -/
def Agrees (values : Fin n → V) (oldCopy copies : Copies n V) : Prop :=
  ∀ j, values j = (copies j).value ∨ ((oldCopy j).stamp = 0 ∧ (copies j).stamp ≠ 0)

/-- Where no stamp has changed, `values` has been read. -/
lemma Agrees.eq_of_unchanged (h : Agrees values oldCopy newCopy)
    (hsame : ∀ j, (oldCopy j).stamp = (newCopy j).stamp) :
    values = fun j => (newCopy j).value := by
  funext j
  rcases h j with heq | ⟨h0, hne⟩
  · exact heq
  · exact absurd (hsame j ▸ h0) hne

/-- The slots agree with themselves. -/
lemma agrees_self (snaps : Fin n → StampedSnap n V) :
    Agrees (fun j => (snaps j).value) oldCopy snaps := fun _ => Or.inl rfl

end Agrees

/-- A moment of the call, after action `start` and up to state `k`, at which the slots agree with
the collect that the thread is in. -/
def Held [Zero V] {ok : State n V → Act n V → Prop} (e : (snapshot n V).Trace ok) (start k : ℕ)
    (snaps : Fin n → StampedSnap n V) : Pc n V → Prop
  | .again _ _ oldCopy i newCopy =>
      ∃ m, start < m ∧ m ≤ k ∧
        Agrees (fun j => ((e.state m).snaps j).value) oldCopy (latest snaps i newCopy)
  | _ => True

section Run

variable [Zero V] {e : (snapshot n V).Trace NoHiddenWrite} {start k : ℕ} {t w : Fin n}
  {s' : State n V}

/-- A collect starts: this moment will do. -/
lemma held_start {ok : State n V → Act n V → Prop} (e : (snapshot n V).Trace ok) (hk : start < k)
    (value : V) (moved : Fin n → Bool) (oldCopy newCopy : Copies n V) :
    Held e start k (e.state k).snaps (.again value moved oldCopy 0 newCopy) := by
  refine ⟨k, hk, le_rfl, ?_⟩
  rw [latest_zero]
  exact agrees_self _

/-- **A write of another thread.**  Either the collect has passed the slot, or the stamp tells, or
this is the moment to choose. -/
lemma Held.write {newValue : StampedSnap n V} (hk : start < k) (hinv : Inv (e.state k))
    (hok : NoHiddenWrite (e.state k) (.go w)) (hw : (e.state k).pc w = .write newValue)
    (hnext : (e.state (k + 1)).snaps = Function.update (e.state k).snaps w newValue)
    (h : Held e start k (e.state k).snaps ((e.state k).pc t)) :
    Held e start (k + 1) (e.state (k + 1)).snaps ((e.state k).pc t) := by
  cases hpc : (e.state k).pc t with
  | again value moved oldCopy i newCopy =>
      rw [hpc] at h
      obtain ⟨m, hm, hmk, hag⟩ := h
      have hstamp : newValue.stamp = 1 := by
        have := hinv.view w
        rwa [hw] at this
      have hother : ∀ j, j.val < i ∨ j ≠ w →
          latest (e.state (k + 1)).snaps i newCopy j = latest (e.state k).snaps i newCopy j := by
        intro j hj
        simp only [latest, hnext]
        split_ifs with hlt
        · rfl
        · exact Function.update_of_ne (hj.resolve_left hlt) _ _
      by_cases hpassed : w.val < i
      · refine ⟨m, hm, hmk.trans (Nat.le_succ k), fun j => ?_⟩
        rw [hother j (or_iff_not_imp_right.2 fun hj => not_not.1 hj ▸ hpassed)]
        exact hag j
      · have hself : latest (e.state (k + 1)).snaps i newCopy w = newValue := by
          simp [latest, hpassed, hnext]
        by_cases hzero : ((e.state k).snaps w).stamp = 0
        · refine ⟨m, hm, hmk.trans (Nat.le_succ k), fun j => ?_⟩
          by_cases hj : j = w
          · have hview := hinv.view t
            rw [hpc] at hview
            have hold := hview.1 w
            rw [hj, hself]
            exact Or.inr ⟨by omega, by omega⟩
          · rw [hother j (Or.inr hj)]
            exact hag j
        · refine ⟨k + 1, hk.trans (Nat.lt_succ_self k), le_rfl, fun j => Or.inl ?_⟩
          simp only [latest]
          split_ifs with hlt
          · have hjw : j ≠ w := by
              rintro rfl
              exact hpassed hlt
            rw [hnext, Function.update_of_ne hjw]
            exact hok w newValue rfl hw hzero t value moved oldCopy i newCopy hpc
              (not_lt.1 hpassed) j hlt
          · rfl
  | idle => trivial
  | first value i oldCopy => trivial
  | scanned value snap => trivial
  | write newValue => trivial

/-- A step of another thread. -/
lemma Held.other {a : Act n V} (hk : start < k) (hinv : Inv (e.state k))
    (hok : NoHiddenWrite (e.state k) a) (hm : Move (e.state k) w a (e.state (k + 1))) (hwt : t ≠ w)
    (h : Held e start k (e.state k).snaps ((e.state k).pc t)) :
    Held e start (k + 1) (e.state (k + 1)).snaps ((e.state (k + 1)).pc t) := by
  -- all moves but a write leave the slots alone
  have hsame : ∀ pc, e.state (k + 1) = (e.state k).setPc w pc →
      Held e start (k + 1) (e.state (k + 1)).snaps ((e.state (k + 1)).pc t) := by
    intro pc hs
    rw [hs, setPc_of_ne hwt, setPc_snaps]
    cases hpc : (e.state k).pc t with
    | again value moved oldCopy i newCopy =>
        rw [hpc] at h
        obtain ⟨m, hm, hmk, hag⟩ := h
        exact ⟨m, hm, hmk.trans (Nat.le_succ k), hag⟩
    | _ => trivial
  generalize hs' : e.state (k + 1) = s' at hm
  cases hm with
  | write hw =>
      have hpc : (e.state (k + 1)).pc t = (e.state k).pc t := by
        rw [hs']
        exact Function.update_of_ne hwt _ _
      rw [← hs', hpc]
      exact h.write hk hinv hok hw (by rw [hs'])
  | _ =>
      rw [← hs']
      exact hsame _ hs'

/-- A step of the thread itself, as long as the call goes on. -/
lemma Held.own {a : Act n V} (hk : start < k) (hm : Move (e.state k) t a (e.state (k + 1)))
    (hscan : ((e.state (k + 1)).pc t).inScan = true)
    (h : Held e start k (e.state k).snaps ((e.state k).pc t)) :
    Held e start (k + 1) (e.state (k + 1)).snaps ((e.state (k + 1)).pc t) := by
  have hk' : start < k + 1 := hk.trans (Nat.lt_succ_self k)
  generalize hs' : e.state (k + 1) = s' at hm hscan
  cases hm with
  | update value hpc => rw [setPc_self]; trivial
  | first i hpc => rw [setPc_self]; trivial
  | turn hpc hi =>
      rw [setPc_self, ← hs']
      exact held_start e hk' _ _ _ _
  | again i hpc =>
      rw [hpc] at h
      obtain ⟨m, hm, hmk, hag⟩ := h
      rw [setPc_self, setPc_snaps]
      refine ⟨m, hm, hmk.trans (Nat.le_succ k), ?_⟩
      rwa [latest_read]
  | @compare value moved oldCopy newCopy i hpc hi =>
      rw [setPc_self] at hscan ⊢
      rw [← hs']
      simp only [compare] at hscan ⊢
      cases hc : changed oldCopy newCopy with
      | none => simp [hc, Pc.inScan] at hscan
      | some j =>
          simp only [hc] at hscan ⊢
          split_ifs at hscan ⊢ with hmoved
          · simp [Pc.inScan] at hscan
          · exact held_start e hk' _ _ _ _
  | scanned hpc => simp [Pc.inScan] at hscan
  | write hpc => simp [Pc.inScan] at hscan

/-- During the whole call there is such a moment. -/
lemma Scan.held {stop : ℕ} {result : Option (Fin n → V)} (h : Scan e t start stop result) :
    ∀ k, start < k → k ≤ stop → Held e start k (e.state k).snaps ((e.state k).pc t) := by
  intro k hk
  induction k, hk using Nat.le_induction with
  | base =>
      intro _
      obtain ⟨value, hcall⟩ := h.called
      have hm : Move (e.state start) t (.update t value) _ :=
        move_of_step (e.step start _ hcall).2
      generalize e.state (start + 1) = s' at hm
      cases hm with
      | update value hpc =>
          rw [setPc_self]
          trivial
  | succ k hk ih =>
      intro hle
      have hlen : k < e.acts.length := by
        have := h.le
        omega
      obtain ⟨a, ha⟩ : ∃ a, e.acts[k]? = some a := ⟨_, List.getElem?_eq_getElem hlen⟩
      obtain ⟨hok, hstep⟩ := e.step k a ha
      have hinv : Inv (e.state k) := inv_of_run (e.run hlen.le)
      have hm := move_of_step hstep
      have hheld := ih (Nat.le_of_succ_le hle)
      by_cases hw : t = a.tid
      · rw [← hw] at hm
        exact hheld.own hk hm (h.running (k + 1) (hk.trans (Nat.le_succ k)) hle)
      · exact hheld.other hk hinv hok hm hw

/-- The action with which a call returns compares two collects, and finds no change. -/
lemma Scan.last {ok : State n V → Act n V → Prop} {e : (snapshot n V).Trace ok} {stop : ℕ}
    {result : Option (Fin n → V)} (h : Scan e t start stop result) :
    ∃ value moved oldCopy i newCopy,
      (e.state stop).pc t = .again value moved oldCopy i newCopy ∧ n ≤ i ∧
        (∀ j, (oldCopy j).stamp = (newCopy j).stamp) ∧
        result = some fun j => (newCopy j).value := by
  obtain ⟨a, ha⟩ : ∃ a, e.acts[stop]? = some a := ⟨_, List.getElem?_eq_getElem h.le⟩
  obtain ⟨_, hstep⟩ := e.step stop a ha
  have hinv : Inv (e.state stop) := inv_of_run (e.run h.le.le)
  have hm := move_of_step hstep
  have hscan := h.running stop h.lt le_rfl
  have hret := h.returned
  generalize a.tid = w at hm
  generalize e.state (stop + 1) = s' at hm hret
  by_cases hwt : t = w
  · subst hwt
    cases hm with
    | update value hpc => simp [hpc, Pc.inScan] at hscan
    | first i hpc => simp [Pc.returned] at hret
    | turn hpc hi => simp [Pc.returned] at hret
    | again i hpc => simp [Pc.returned] at hret
    | @compare value moved oldCopy newCopy i hpc hi =>
        refine ⟨value, moved, oldCopy, i, newCopy, hpc, hi, ?_⟩
        rw [setPc_self, compare] at hret
        cases hc : changed oldCopy newCopy with
        | none =>
            simp only [hc, Pc.returned, Option.some.injEq] at hret
            exact ⟨changed_eq_none.1 hc, hret.symm⟩
        | some j =>
            obtain ⟨hfalse, _⟩ := hinv.not_moved hpc hi hc
            simp [hc, hfalse, Pc.returned] at hret
    | scanned hpc => simp [hpc, Pc.inScan] at hscan
    | write hpc => simp [hpc, Pc.inScan] at hscan
  · -- the thread itself has not moved, so that it has not returned
    have hpc : s'.pc t = (e.state stop).pc t := by
      cases hm <;> exact Function.update_of_ne hwt _ _
    rw [hpc] at hret
    cases hp : (e.state stop).pc t <;> simp [hp, Pc.inScan, Pc.returned] at hscan hret

end Run

/-- **Without hidden writes, snapshots are atomic.**  In every run whose steps all meet the
condition, each array that a call of `scan` returns is what the slots held at one moment of the
call. -/
theorem scan_atomic [Zero V] (e : (snapshot n V).Trace NoHiddenWrite) : Atomic e := by
  intro t start stop result h
  obtain ⟨value, moved, oldCopy, i, newCopy, hpc, hi, hsame, rfl⟩ := h.last
  have hheld := h.held stop h.lt le_rfl
  rw [hpc] at hheld
  obtain ⟨m, hm, hmk, hag⟩ := hheld
  rw [latest_of_le hi] at hag
  exact ⟨m, hm, hmk, by rw [hag.eq_of_unchanged hsame]⟩

/-! ## Writes during a collect -/

/-- `k` steps of a thread. -/
def Act.steps (tid : Fin n) (k : ℕ) : List (Act n V) := List.replicate k (.go tid)

-- the three threads below are literals of `Fin 3`
local instance instNeZeroThree : NeZero 3 := ⟨by decide⟩

/-- Thread `1` updates once and gets ready to write a second time, which it does when thread `2` has
read slot `0` for the second time. -/
def visibleWrite : List (Act 3 ℕ) :=
  .update 1 20 :: Act.steps 1 10 ++ .update 1 21 :: Act.steps 1 9 ++
    .update 2 30 :: Act.steps 2 5 ++ [.go 1] ++ Act.steps 2 3

/-- The condition lets this write pass: what thread `2` has read is still there. -/
theorem scan_atomic_second_write :
    ∃ e : (snapshot 3 ℕ).Trace NoHiddenWrite, e.acts = visibleWrite ∧
      Scan e 2 21 30 (some ![0, 21, 0]) ∧ Atomic e := by
  let e : (snapshot 3 ℕ).Trace NoHiddenWrite :=
    Machine.Trace.ofExec (M := snapshot 3 ℕ) (s := State.start 3 ℕ) rfl visibleWrite
      (by decide +kernel)
  have hscan : ∀ k ≤ 30, 21 < k → ((e.state k).pc 2).inScan = true := by decide +kernel
  exact ⟨e, rfl, ⟨⟨30, rfl⟩, by decide, by decide, fun k hlo hhi => hscan k hhi hlo,
    by decide +kernel⟩, scan_atomic e⟩

/-- Threads `0` and `1` update once each and get ready to write a second time; then thread `2`
collects, and both write when it has read slot `0` for the second time. -/
def hiddenWrites : List (Act 3 ℕ) :=
  .update 0 10 :: Act.steps 0 10 ++ .update 1 20 :: Act.steps 1 10 ++
    .update 0 11 :: Act.steps 0 9 ++ .update 1 21 :: Act.steps 1 9 ++
    .update 2 30 :: Act.steps 2 5 ++ [.go 0, .go 1] ++ Act.steps 2 3

/-- **Snapshots are not atomic**: thread `2` returns the old value of slot `0` next to the new value
of slot `1`. -/
theorem scan_not_atomic :
    ∃ e : (snapshot 3 ℕ).Trace fun _ _ => True, e.acts = hiddenWrites ∧ ¬ Atomic e := by
  let e : (snapshot 3 ℕ).Trace fun _ _ => True :=
    Machine.Trace.ofExec (M := snapshot 3 ℕ) (s := State.start 3 ℕ) rfl hiddenWrites
      (by decide +kernel)
  refine ⟨e, rfl, fun h => ?_⟩
  have hscan : ∀ k ≤ 52, 42 < k → ((e.state k).pc 2).inScan = true := by decide +kernel
  obtain ⟨k, hlo, hhi, hk⟩ := h 2 42 52 (some ![10, 21, 0])
    ⟨⟨30, rfl⟩, by decide, by decide, fun k hlo hhi => hscan k hhi hlo, by decide +kernel⟩
  have hne : ∀ k ≤ 52, (some ![10, 21, 0] : Option (Fin 3 → ℕ)) ≠
      some fun i => ((e.state k).snaps i).value := by decide +kernel
  exact hne k hhi hk

end Multicore.Project3
