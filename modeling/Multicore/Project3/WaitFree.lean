import Multicore.Project3.Atomicity

/-!
# `scan` is wait-free

The loop of `scan` has no counter.  After each collect it stops, or it marks in `moved` the first
slot whose stamp differs and starts again; when that slot is marked already it stops as well.  So
every round that does not return marks a slot that was not marked before, and there are `n` slots.
Nothing is assumed about the arrays that the collects return.

* `afterCollects` — the loop, run on any sequence of arrays;
* **`scan_wait_free`** — it returns after at most `n + 2` collects;
* `scan_own_steps` — in a run of the snapshot object, a call of `scan` is over after
  `(n + 1) * (n + 2)` steps of its own thread, whatever the other threads do.
-/

namespace Multicore.Project3

variable {n : ℕ} {V : Type*}

/-! ## The loop -/

/-- Where the loop of `scan` stands: it has returned, or it goes on with these two locals. -/
inductive Loop (n : ℕ) (V : Type*)
  | returned (snap : Option (Fin n → V))
  | running (moved : Fin n → Bool) (oldCopy : Copies n V)

/-- One round: what follows the collect of `newCopy`. -/
def scanRound (moved : Fin n → Bool) (oldCopy newCopy : Copies n V) : Loop n V :=
  match changed oldCopy newCopy with
  | none => .returned (some fun i => (newCopy i).value)
  | some i =>
      if moved i then .returned (oldCopy i).snap
      else .running (Function.update moved i true) newCopy

/-- Where `scan` stands after `k + 1` collects, when collect number `k` returns `collects k`. -/
def afterCollects (collects : ℕ → Copies n V) : ℕ → Loop n V
  | 0 => .running (fun _ => false) (collects 0)
  | k + 1 =>
      match afterCollects collects k with
      | .returned snap => .returned snap
      | .running moved oldCopy => scanRound moved oldCopy (collects (k + 1))

/-- The rounds of a thread of the snapshot object are these. -/
lemma compare_eq_scanRound [Zero V] (value : V) (moved : Fin n → Bool)
    (oldCopy newCopy : Copies n V) :
    compare value moved oldCopy newCopy =
      match scanRound moved oldCopy newCopy with
      | .returned snap => .scanned value snap
      | .running moved oldCopy => .again value moved oldCopy 0 fun _ => .blank := by
  unfold compare scanRound
  cases changed oldCopy newCopy with
  | none => rfl
  | some i => cases hm : moved i <;> simp [hm]

/-! ## The measure -/

/-- The slots that are not marked. -/
def unmarked (moved : Fin n → Bool) : ℕ := (Finset.univ.filter fun i => moved i = false).card

lemma unmarked_none : unmarked (fun _ : Fin n => false) = n := by
  simp [unmarked]

lemma unmarked_update {moved : Fin n → Bool} {i : Fin n} (h : moved i = false) :
    unmarked (Function.update moved i true) + 1 = unmarked moved := by
  have hmem : i ∈ Finset.univ.filter fun j => moved j = false := by simp [h]
  have herase : (Finset.univ.filter fun j => Function.update moved i true j = false)
      = (Finset.univ.filter fun j => moved j = false).erase i := by
    ext j
    by_cases hji : j = i
    · simp [hji]
    · simp [hji]
  rw [unmarked, herase, Finset.card_erase_add_one hmem, unmarked]

/-- **A round returns or marks one slot more.** -/
lemma scanRound_cases (moved : Fin n → Bool) (oldCopy newCopy : Copies n V) :
    (∃ snap, scanRound moved oldCopy newCopy = .returned snap) ∨
      ∃ i, moved i = false ∧
        scanRound moved oldCopy newCopy = .running (Function.update moved i true) newCopy := by
  unfold scanRound
  cases changed oldCopy newCopy with
  | none => exact .inl ⟨_, rfl⟩
  | some i =>
      cases hm : moved i with
      | true => exact .inl ⟨(oldCopy i).snap, by simp [hm]⟩
      | false => exact .inr ⟨i, hm, by simp [hm]⟩

/-- As long as the loop runs, each collect but the first has marked a slot. -/
lemma unmarked_afterCollects {collects : ℕ → Copies n V} {k : ℕ} {moved : Fin n → Bool}
    {oldCopy : Copies n V} (h : afterCollects collects k = .running moved oldCopy) :
    unmarked moved + k = n := by
  induction k generalizing moved oldCopy with
  | zero =>
      simp only [afterCollects, Loop.running.injEq] at h
      rw [← h.1, unmarked_none, Nat.add_zero]
  | succ k ih =>
      cases hk : afterCollects collects k with
      | returned snap => simp [afterCollects, hk] at h
      | running moved' oldCopy' =>
          have hprev := ih hk
          simp only [afterCollects, hk] at h
          rcases scanRound_cases moved' oldCopy' (collects (k + 1)) with ⟨snap, hr⟩ | ⟨i, hi, hr⟩
          · simp [hr] at h
          · rw [hr] at h
            obtain ⟨rfl, -⟩ := Loop.running.inj h
            have := unmarked_update hi
            omega

/-- **`scan` is wait-free.**  Whatever the collects return, the loop has returned after at most
`n + 2` of them, and each round returns or marks a slot that was not marked before. -/
theorem scan_wait_free (collects : ℕ → Copies n V) :
    (∃ k, k + 1 ≤ n + 2 ∧ ∃ snap, afterCollects collects k = .returned snap) ∧
    ∀ k moved oldCopy, afterCollects collects k = .running moved oldCopy →
      (∃ snap, afterCollects collects (k + 1) = .returned snap) ∨
        ∃ i, moved i = false ∧ afterCollects collects (k + 1)
          = .running (Function.update moved i true) (collects (k + 1)) := by
  refine ⟨⟨n + 1, le_rfl, ?_⟩, fun k moved oldCopy hk => ?_⟩
  · cases h : afterCollects collects (n + 1) with
    | returned snap => exact ⟨snap, rfl⟩
    | running moved oldCopy =>
        have := unmarked_afterCollects h
        omega
  · simp only [afterCollects, hk]
    exact scanRound_cases moved oldCopy (collects (k + 1))

/-! ## The steps of a call -/

/-- How many steps of its own a thread still makes in `scan`, at most. -/
def Pc.rank : Pc n V → ℕ
  | .first _ i _ => (n - i) + 1 + (n + 1) * (n + 1)
  | .again _ moved _ i _ => (n - i) + 1 + unmarked moved * (n + 1)
  | _ => 0

/-- Does thread `t` make a step of its call with this action? -/
def Act.isGo (t : Fin n) : Act n V → Bool
  | .go tid => tid = t
  | .update _ _ => false

/-- **Every own step of a thread in `scan` lowers its rank.** -/
lemma Move.rank_lt [Zero V] {s s' : State n V} {t : Fin n} (hm : Move s t (.go t) s')
    (hscan : (s.pc t).inScan = true) : (s'.pc t).rank < (s.pc t).rank := by
  cases hm with
  | first i hpc =>
      have := i.2
      simp only [setPc_self, hpc, Pc.rank]
      omega
  | turn hpc hi =>
      simp only [setPc_self, hpc, Pc.rank, unmarked_none, Nat.succ_mul]
      omega
  | again i hpc =>
      have := i.2
      simp only [setPc_self, hpc, Pc.rank]
      omega
  | @compare value moved oldCopy newCopy i hpc hi =>
      rw [setPc_self, compare_eq_scanRound, hpc]
      rcases scanRound_cases moved oldCopy newCopy with ⟨snap, hr⟩ | ⟨j, hj, hr⟩
      · simp only [hr, Pc.rank]
        omega
      · simp only [hr, Pc.rank, ← unmarked_update hj, Nat.succ_mul]
        omega
  | scanned hpc => simp [hpc, Pc.inScan] at hscan
  | write hpc => simp [hpc, Pc.inScan] at hscan

/-- Steps of other threads leave a thread where it is. -/
lemma Move.pc_of_ne [Zero V] {s s' : State n V} {t u : Fin n} {a : Act n V} (hm : Move s u a s')
    (hut : t ≠ u) : s'.pc t = s.pc t := by
  cases hm <;> exact Function.update_of_ne hut _ _

/-- A call starts from `idle`, with the first collect. -/
lemma Move.of_update [Zero V] {s s' : State n V} {t : Fin n} {value : V}
    (hm : Move s t (.update t value) s') :
    s.pc t = .idle ∧ s'.pc t = .first value 0 fun _ => .blank := by
  cases hm with
  | update _ hpc => exact ⟨hpc, setPc_self⟩

section Run

variable [Zero V] {ok : State n V → Act n V → Prop}

/-- Along a call the own steps are paid for by the rank. -/
lemma rank_add_steps (e : (snapshot n V).Trace ok) {t : Fin n} {start stop : ℕ} (hle : start ≤ stop)
    (hlen : stop ≤ e.acts.length)
    (hscan : ∀ k, start ≤ k → k < stop → ((e.state k).pc t).inScan = true) :
    ((e.state stop).pc t).rank + e.count (fun _ => Act.isGo t) stop
      ≤ ((e.state start).pc t).rank + e.count (fun _ => Act.isGo t) start := by
  induction stop, hle using Nat.le_induction with
  | base => exact le_rfl
  | succ k hk ih =>
      have hprev := ih (Nat.le_of_succ_le hlen) fun j hj hjk => hscan j hj (by omega)
      have hact := List.getElem?_eq_getElem (l := e.acts) hlen
      have hm := move_of_step (e.step k _ hact).2
      have hrun := hscan k hk (Nat.lt_succ_self k)
      simp only [Machine.Trace.count, hact, Option.any_some]
      generalize e.acts[k] = a at hm ⊢
      cases a with
      | update tid value =>
          have hne : t ≠ tid := by
            rintro rfl
            have hidle : (e.state k).pc t = .idle := (Move.of_update hm).1
            rw [hidle] at hrun
            exact Bool.noConfusion hrun
          rw [hm.pc_of_ne hne]
          simpa [Act.isGo] using hprev
      | go tid =>
          by_cases htid : tid = t
          · subst htid
            have hlt : ((e.state (k + 1)).pc tid).rank < ((e.state k).pc tid).rank :=
              Move.rank_lt hm hrun
            simp only [Act.isGo, decide_true, if_true]
            omega
          · rw [hm.pc_of_ne (Ne.symm htid)]
            simpa [Act.isGo, htid] using hprev

/-- **A call of `scan` is over after `(n + 1) * (n + 2)` steps of its own thread**: while it runs,
the thread has made fewer. -/
theorem scan_own_steps (e : (snapshot n V).Trace ok) {t : Fin n} {start stop : ℕ} {value : V}
    (hcall : e.acts[start]? = some (.update t value)) (hlt : start < stop)
    (hlen : stop ≤ e.acts.length)
    (hscan : ∀ k, start < k → k ≤ stop → ((e.state k).pc t).inScan = true) :
    e.count (fun _ => Act.isGo t) stop - e.count (fun _ => Act.isGo t) start
      < (n + 1) * (n + 2) := by
  have hfirst : (e.state (start + 1)).pc t = .first value 0 fun _ => .blank :=
    (Move.of_update (move_of_step (e.step start _ hcall).2)).2
  have hpaid : ((e.state stop).pc t).rank + e.count (fun _ => Act.isGo t) stop
      ≤ ((e.state (start + 1)).pc t).rank + e.count (fun _ => Act.isGo t) (start + 1) :=
    rank_add_steps e hlt hlen fun k hk hk' => hscan k hk hk'.le
  have hcount : e.count (fun _ => Act.isGo t) (start + 1) =
      e.count (fun _ => Act.isGo t) start := by
    simp [Machine.Trace.count, hcall, Act.isGo]
  have hrank : 0 < ((e.state stop).pc t).rank := by
    have := hscan stop hlt le_rfl
    cases hp : (e.state stop).pc t <;> simp [hp, Pc.inScan, Pc.rank] at this ⊢
  have hstart : ((e.state (start + 1)).pc t).rank = (n + 1) * (n + 2) := by
    rw [hfirst, Pc.rank]
    ring_nf
    omega
  have hpos : 0 < (n + 1) * (n + 2) := by positivity
  omega

end Run

end Multicore.Project3
