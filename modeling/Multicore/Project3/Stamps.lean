import Multicore.Project3.Snapshot

/-!
# What a stamp counts

`scan` takes equal stamps for a slot that has not been written.  That would be right if the stamp
of a slot counted the updates of its thread.  `update` reads the old stamp through the copy
constructor of `StampedSnap`, which sets it to `0`, so that every update writes the stamp `1`.

* `completed` — how many updates of a thread have stored their new value;
* `stamp_eq_min` — the stamp is `0` before the first of them and `1` ever after;
* **`stamps_identify_writes_iff`** — so stamps count updates, and tell writes of one slot apart, for
  threads that complete one update at most;
* `stamps_repeat` — two updates of one thread.
-/

namespace Multicore.Project3

variable {n : ℕ} {V : Type*} [Zero V] {ok : State n V → Act n V → Prop}

/-! ## Completed updates -/

/-- Does thread `t` store its new value with this action? -/
def completes (t : Fin n) (s : State n V) : Act n V → Bool
  | .update _ _ => false
  | .go tid => match s.pc t with
      | .write _ => tid = t
      | _ => false

omit [Zero V] in
lemma completes_iff {t : Fin n} {s : State n V} {a : Act n V} :
    completes t s a = true ↔ a = .go t ∧ ∃ newValue, s.pc t = .write newValue := by
  cases a with
  | update tid value => simp [completes]
  | go tid => cases hpc : s.pc t <;> simp [completes, hpc]

/-- The updates that thread `t` has completed before action `k`. -/
def completed (e : (snapshot n V).Trace ok) (t : Fin n) (k : ℕ) : ℕ := e.count (completes t) k

/-- Thread `t` completes an update with action `k`. -/
def Completes (e : (snapshot n V).Trace ok) (t : Fin n) (k : ℕ) : Prop :=
  e.acts[k]?.any (completes t (e.state k)) = true

instance (e : (snapshot n V).Trace ok) (t : Fin n) (k : ℕ) : Decidable (Completes e t k) :=
  inferInstanceAs (Decidable (_ = true))

lemma Completes.lt {e : (snapshot n V).Trace ok} {t : Fin n} {k : ℕ} (h : Completes e t k) :
    k < e.acts.length := by
  by_contra hk
  rw [Completes, List.getElem?_eq_none (not_lt.mp hk)] at h
  simp at h

lemma completed_succ_of_completes {e : (snapshot n V).Trace ok} {t : Fin n} {k : ℕ}
    (h : Completes e t k) : completed e t (k + 1) = completed e t k + 1 :=
  congrArg (completed e t k + ·) (if_pos h)

lemma completed_succ_of_not {e : (snapshot n V).Trace ok} {t : Fin n} {k : ℕ}
    (h : ¬ Completes e t k) : completed e t (k + 1) = completed e t k :=
  congrArg (completed e t k + ·) (if_neg h)

/-! ## The stamp -/

/-- A write stores the stamp `1`; every other step leaves the slot alone. -/
lemma stamp_succ (e : (snapshot n V).Trace ok) (t : Fin n) {k : ℕ} (hk : k < e.acts.length) :
    ((e.state (k + 1)).snaps t).stamp
      = if Completes e t k then 1 else ((e.state k).snaps t).stamp := by
  have hinv := inv_of_run (e.run hk.le)
  have hact := List.getElem?_eq_getElem hk
  have hiff : Completes e t k ↔ completes t (e.state k) e.acts[k] = true := by
    rw [Completes, hact, Option.any_some]
  have hm := move_of_step (e.step k _ hact).2
  generalize e.state (k + 1) = s' at hm
  generalize e.acts[k] = a at hm hiff
  by_cases hc : Completes e t k
  · rw [if_pos hc]
    obtain ⟨rfl, newValue, hpc⟩ := completes_iff.mp (hiff.mp hc)
    cases hm
    case write newValue' hpc' =>
      have hview := hinv.view t
      rw [show (e.state k).pc t = .write newValue' from hpc'] at hview
      simp only [Act.tid, Function.update_self]
      exact hview
    all_goals exact absurd (hpc.symm.trans ‹(e.state k).pc t = _›) (by simp)
  · rw [if_neg hc]
    generalize hu : a.tid = u at hm
    cases hm with
    | write hpc =>
        have hne : t ≠ u := by
          rintro rfl
          exact hc (hiff.mpr (completes_iff.mpr ⟨rfl, _, hpc⟩))
        simp [Function.update_of_ne hne]
    | _ => rfl

/-- **The stamp is the number of completed updates, cut off at `1`.** -/
theorem stamp_eq_min (e : (snapshot n V).Trace ok) (t : Fin n) {k : ℕ} (hk : k ≤ e.acts.length) :
    ((e.state k).snaps t).stamp = min (completed e t k) 1 := by
  induction k with
  | zero =>
      rw [show e.state 0 = State.start n V from e.init]
      rfl
  | succ k ih =>
      rw [stamp_succ e t hk, ih (Nat.le_of_succ_le hk)]
      by_cases hc : Completes e t k
      · rw [if_pos hc, completed_succ_of_completes hc]
        omega
      · rw [if_neg hc, completed_succ_of_not hc]

/-! ## When it identifies the write -/

/-- The stamp of slot `t` counts the completed updates of `t`, and no two of them store the same
stamp. -/
structure StampsIdentifyWrites (e : (snapshot n V).Trace ok) (t : Fin n) : Prop where
  count : ∀ k ≤ e.acts.length, ((e.state k).snaps t).stamp = completed e t k
  distinct : ∀ k l, Completes e t k → Completes e t l →
    ((e.state (k + 1)).snaps t).stamp = ((e.state (l + 1)).snaps t).stamp → k = l

/-- Two writes are two completed updates. -/
lemma two_le_completed {e : (snapshot n V).Trace ok} {t : Fin n} {k l : ℕ} (hkl : k < l)
    (hk : Completes e t k) (hl : Completes e t l) : 2 ≤ completed e t e.acts.length := by
  have h1 := completed_succ_of_completes hk
  have h2 := completed_succ_of_completes hl
  have h3 : completed e t (k + 1) ≤ completed e t l := e.count_mono _ hkl
  have h4 : completed e t (l + 1) ≤ completed e t e.acts.length := e.count_mono _ hl.lt
  omega

/-- **Stamps identify the writes of a thread exactly when it completes one update at most.** -/
theorem stamps_identify_writes_iff (e : (snapshot n V).Trace ok) (t : Fin n) :
    StampsIdentifyWrites e t ↔ completed e t e.acts.length ≤ 1 := by
  constructor
  · intro h
    have := h.count e.acts.length le_rfl
    rw [stamp_eq_min e t le_rfl] at this
    omega
  · intro h
    refine ⟨fun k hk => ?_, fun k l hk hl _ => ?_⟩
    · have hle : completed e t k ≤ completed e t e.acts.length := e.count_mono _ hk
      rw [stamp_eq_min e t hk]
      omega
    · rcases Nat.lt_trichotomy k l with hkl | rfl | hkl
      · exact absurd (two_le_completed hkl hk hl) (by omega)
      · rfl
      · exact absurd (two_le_completed hkl hl hk) (by omega)

/-- A single thread updates its slot twice; the second write carries the stamp of the first. -/
theorem stamps_repeat : ∃ e : (snapshot 1 ℕ).Trace fun _ _ => True,
    Completes e 0 6 ∧ Completes e 0 13 ∧ completed e 0 e.acts.length = 2 ∧
    ((e.state 7).snaps 0).stamp = 1 ∧ ((e.state 14).snaps 0).stamp = 1 := by
  let e : (snapshot 1 ℕ).Trace fun _ _ => True :=
    Machine.Trace.ofExec (M := snapshot 1 ℕ) (s := State.start 1 ℕ) rfl
      (List.flatten [[.update 0 10], List.replicate 6 (.go 0), [.update 0 20],
        List.replicate 6 (.go 0)]) (by decide +kernel)
  exact ⟨e, by decide +kernel, by decide +kernel, by decide +kernel, by decide +kernel,
    by decide +kernel⟩

end Multicore.Project3
