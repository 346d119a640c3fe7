import Multicore.Project2.Attempts

/-!
# Commit ids

`getCommitId` hands out the numbers of a 64-bit counter as `int`s.  As long as the counter stays
below `2 ^ 31` the ids of the log are `1, 2, …` without gap, at most `E` of them, and exactly `E`
once every thread has returned: this file counts.  The counter passes `E` by at most `N - 1`,
because the thread that commits number `E` does not start another attempt.

* `Counted` — the counter is the number of logged attempts and of attempts rolled back because
  they came too late;
* **`counted_of_reachable`** — it holds in every reachable state when `E = 0` or `E + N ≤ 2 ^ 31`.
-/

namespace Multicore.Project2

variable {N R : ℕ} {E : ℤ} {s s' : State N R} {t u : Fin N}

/-! ## Threads that no longer count -/

/-- The thread came too late and was rolled back. -/
def Pc.rolledBack : Pc N R → Bool
  | .unlockExit => true
  | .exited b => b
  | _ => false

/-- The thread is between two attempts, or has left the loop without a roll back. -/
def Pc.resting : Pc N R → Bool
  | .loop | .unlockLoop => true
  | .exited b => !b
  | _ => false

/-- How many threads were rolled back. -/
def State.late (s : State N R) : ℕ :=
  (Finset.univ.filter fun t => (s.thread t).pc.rolledBack = true).card

lemma Woken.rolledBack {th th' : Thread N R} (h : Woken th th') :
    th'.pc.rolledBack = th.pc.rolledBack := by
  cases h with
  | same => rfl
  | writer ty held h => rw [h]; rfl
  | reader ty held h => rw [h]; rfl

lemma Woken.resting {th th' : Thread N R} (h : Woken th th') :
    th'.pc.resting = th.pc.resting := by
  cases h with
  | same => rfl
  | writer ty held h => rw [h]; rfl
  | reader ty held h => rw [h]; rfl

lemma nextRelease_rolledBack (why : Why) (l : List (LockInfo N R)) :
    (nextRelease why l).rolledBack = false := by
  cases l <;> cases why <;> rfl

lemma nextRelease_ne_exited (why : Why) (l : List (LockInfo N R)) (b : Bool) :
    nextRelease why l ≠ .exited b := by
  cases l <;> cases why <;> simp [nextRelease]

/-- Only the commit changes the counter, the log and who was rolled back. -/
lemma Move.count (h : Move E s t s') (hne : (s.thread t).pc ≠ .commit) :
    s'.globalExecutionOrder = s.globalExecutionOrder ∧ s'.outFile = s.outFile ∧
      (s'.thread t).pc.rolledBack = (s.thread t).pc.rolledBack := by
  cases h
  case commit hpc => exact absurd hpc hne
  case deadlock ty hpc hd =>
    rw [hpc]
    refine ⟨by cases ty <;> rfl, by cases ty <;> rfl, ?_⟩
    cases ty <;> simp only [onDeadlock, State.setPc_thread, State.setMonitor_thread,
      Function.update_self, nextRelease_rolledBack] <;> rfl
  case flag ty held hpc =>
    rw [hpc]
    refine ⟨rfl, rfl, ?_⟩
    cases held <;> simp only [State.setPc_thread, Function.update_self] <;> rfl
  all_goals
    rw [‹(s.thread t).pc = _›]
    refine ⟨by simp, by simp, ?_⟩
    simp only [State.setPc_thread, State.setThread_thread, Function.update_self,
      nextRelease_rolledBack]
    rfl

/-- A thread that rests when the counter has reached `E` rests for good. -/
lemma Move.resting (h : Move E s t s') (hr : (s.thread t).pc.resting = true)
    (hE : E ≤ s.globalExecutionOrder) : (s'.thread t).pc.resting = true := by
  cases h
  case attempt i j k hpc hlt hij hik hjk => omega
  case leave hpc hlt => simp [Pc.resting]
  case unlockLoop hpc => simp [Pc.resting]
  all_goals
    rw [‹(s.thread t).pc = _›] at hr
    simp [Pc.resting] at hr

/-- A thread starts to work, or returns from the loop, according to the counter. -/
lemma Move.guard (h : Move E s t s') :
    ((s'.thread t).pc.resting = false →
      (s.thread t).pc.resting = false ∨ s.globalExecutionOrder < E) ∧
    ((s'.thread t).pc = .exited false → E ≤ s.globalExecutionOrder) := by
  cases h
  case attempt i j k hpc hlt hij hik hjk => exact ⟨fun _ => .inr hlt, by simp⟩
  case leave hpc hlt => exact ⟨by simp [Pc.resting], fun _ => by omega⟩
  case unlockLoop hpc => exact ⟨by simp [Pc.resting], by simp⟩
  case deadlock ty hpc hd =>
    refine ⟨fun _ => .inl (by rw [hpc]; rfl), ?_⟩
    cases ty <;> simp [onDeadlock, nextRelease_ne_exited]
  case commit hpc =>
    refine ⟨fun _ => .inl (by rw [hpc]; rfl), ?_⟩
    rcases commitPc_cases E s with hq | hq <;> simp [hq]
  case flag ty held hpc =>
    refine ⟨fun _ => .inl (by rw [hpc]; rfl), ?_⟩
    cases held <;> simp
  all_goals
    refine ⟨fun _ => .inl (by rw [‹(s.thread t).pc = _›]; rfl), ?_⟩
    simp [nextRelease_ne_exited]

/-! ## Counting -/

/-- The counter is the number of logged attempts and of late ones, and the ids of the log count
from `1`. -/
structure Counted (E : ℤ) (s : State N R) : Prop where
  order : s.globalExecutionOrder = s.outFile.length + s.late
  ids : s.outFile.map (fun l => l.2.cid) =
    (List.range s.outFile.length).map fun c : ℕ => (c : ℤ) + 1
  bound : (s.outFile.length : ℤ) ≤ E
  late : s.late ≠ 0 → (s.outFile.length : ℤ) = E
  rests : E ≤ s.globalExecutionOrder → ∃ t, (s.thread t).pc.resting = true
  returned : ∀ t, (s.thread t).pc = .exited false → E ≤ s.globalExecutionOrder
  working : ∀ t, (s.thread t).pc.resting = false → 0 < E

/-- Once the counter has reached `E`, the log is complete. -/
lemma Counted.length_eq (h : Counted E s) (hE : E ≤ s.globalExecutionOrder) :
    (s.outFile.length : ℤ) = E := by
  by_cases hl : s.late = 0
  · have h1 := h.order
    have h2 := h.bound
    rw [hl] at h1
    push_cast at h1
    omega
  · exact h.late hl

/-- The number of late threads after a step of one thread. -/
lemma late_eq (hne : ∀ u, u ≠ t → (s'.thread u).pc.rolledBack = (s.thread u).pc.rolledBack)
    (ht : (s'.thread t).pc.rolledBack = (s.thread t).pc.rolledBack) : s'.late = s.late := by
  unfold State.late
  congr 1
  refine Finset.filter_congr fun u _ => ?_
  by_cases hu : u = t
  · rw [hu, ht]
  · rw [hne u hu]

lemma late_succ (hne : ∀ u, u ≠ t → (s'.thread u).pc.rolledBack = (s.thread u).pc.rolledBack)
    (ht : (s.thread t).pc.rolledBack = false) (ht' : (s'.thread t).pc.rolledBack = true) :
    s'.late = s.late + 1 := by
  unfold State.late
  have hins : (Finset.univ.filter fun u => (s'.thread u).pc.rolledBack = true)
      = insert t (Finset.univ.filter fun u => (s.thread u).pc.rolledBack = true) := by
    ext u
    rw [Finset.mem_insert, Finset.mem_filter, Finset.mem_filter]
    by_cases hu : u = t
    · subst hu
      simp [ht']
    · simp [hu, hne u hu]
  rw [hins, Finset.card_insert_of_notMem (by simp [ht])]

/-- A thread that commits and a thread that rests are not late. -/
lemma late_add_two_le {f : Fin N} (htf : t ≠ f) (ht : (s.thread t).pc.rolledBack = false)
    (hf : (s.thread f).pc.rolledBack = false) : s.late + 2 ≤ N := by
  have hsub : (Finset.univ.filter fun u => (s.thread u).pc.rolledBack = true)
      ⊆ (Finset.univ.erase t).erase f := by
    intro u hu
    rw [Finset.mem_filter] at hu
    rw [Finset.mem_erase, Finset.mem_erase]
    refine ⟨?_, ?_, Finset.mem_univ _⟩ <;> rintro rfl
    · rw [hf] at hu
      simp at hu
    · rw [ht] at hu
      simp at hu
  have hcard := Finset.card_le_card hsub
  rw [Finset.card_erase_of_mem (by simp [Ne.symm htf]), Finset.card_erase_of_mem (by simp),
    Finset.card_univ, Fintype.card_fin] at hcard
  have hN : 2 ≤ N := by
    have h1 := t.isLt
    have h2 := f.isLt
    have h3 : (t : ℕ) ≠ f := fun h => htf (Fin.ext h)
    omega
  unfold State.late
  omega

/-- As long as few threads are late, an id is the counter itself. -/
lemma Counted.toInt_eq (h : Counted E s) (hpc : (s.thread t).pc = .commit)
    (hN : E = 0 ∨ E + N ≤ 2 ^ 31) :
    toInt (s.globalExecutionOrder + 1) = s.globalExecutionOrder + 1 := by
  have hE : E + N ≤ 2 ^ 31 := by
    refine hN.resolve_left fun h0 => ?_
    have := h.working t (by rw [hpc]; rfl)
    omega
  have hNpos : 0 < N := t.pos
  have horder := h.order
  have hlt : s.globalExecutionOrder + 1 < 2 ^ 31 := by
    by_cases hlt : s.globalExecutionOrder < E
    · omega
    · obtain ⟨f, hf⟩ := h.rests (by omega)
      have htf : t ≠ f := by
        rintro rfl
        rw [hpc] at hf
        simp [Pc.resting] at hf
      have hfr : (s.thread f).pc.rolledBack = false := by
        cases hpcf : (s.thread f).pc <;> simp_all [Pc.resting, Pc.rolledBack]
      have := late_add_two_le htf (by rw [hpc]; rfl) hfr
      have := h.bound
      omega
  exact toInt_of_isInt ⟨by omega, hlt⟩

/-- A move that is not a commit. -/
lemma Counted.move_of_ne (h : Counted E s) (hm : Move E s t s')
    (hne : (s.thread t).pc ≠ .commit) : Counted E s' := by
  obtain ⟨hord, hout, hrb⟩ := hm.count hne
  have hlate : s'.late = s.late := late_eq (fun u hu => (hm.woken hu).rolledBack) hrb
  refine ⟨?_, ?_, ?_, ?_, fun hE => ?_, fun u hu => ?_, fun u hu => ?_⟩
  · rw [hord, hout, hlate]; exact h.order
  · rw [hout]; exact h.ids
  · rw [hout]; exact h.bound
  · rw [hout, hlate]; exact h.late
  · rw [hord] at hE
    obtain ⟨f, hf⟩ := h.rests hE
    refine ⟨f, ?_⟩
    by_cases hft : f = t
    · subst hft
      exact hm.resting hf hE
    · rw [(hm.woken hft).resting]
      exact hf
  · rw [hord]
    by_cases hut : u = t
    · subst hut
      exact hm.guard.2 hu
    · exact h.returned u (((hm.woken hut).pc_eq (by simp)).mp hu)
  · by_cases hut : u = t
    · subst hut
      rcases hm.guard.1 hu with hu | hlt
      · exact h.working u hu
      · have := h.order
        omega
    · rw [(hm.woken hut).resting] at hu
      exact h.working u hu

section Commit

variable (h : Counted E s) (hpc : (s.thread t).pc = .commit)
  (hid : toInt (s.globalExecutionOrder + 1) = s.globalExecutionOrder + 1)

include h

/-- Nobody has returned from the loop too early. -/
lemma Counted.returned_commit (hpc : (s.thread t).pc = .commit) {u : Fin N}
    (hu : ((commitStep E s t).thread u).pc = .exited false) : E ≤ s.globalExecutionOrder := by
  by_cases hut : u = t
  · subst hut
    exact (Move.commit hpc).guard.2 hu
  · rw [commitStep_thread, Function.update_of_ne hut] at hu
    exact h.returned u hu

include hpc hid

/-- A commit whose id is the counter, and which is logged.  So far nobody was late. -/
lemma Counted.commit_logged (hle : s.globalExecutionOrder + 1 ≤ E) :
    Counted E (commitStep E s t) := by
  have hq : commitPc E s = .unlockLoop := if_pos (by rwa [hid])
  have horder := h.order
  have hlate0 : s.late = 0 := by
    by_contra hl
    have := h.late hl
    omega
  have hlate : (commitStep E s t).late = s.late := by
    refine late_eq (fun u hu => by rw [commitStep_thread, Function.update_of_ne hu]) ?_
    rw [commitStep_thread, Function.update_self, hq, hpc]
    rfl
  have hout := commitStep_outFile E s t
  rw [hid, if_pos hle] at hout
  have hlen : (commitStep E s t).outFile.length = s.outFile.length + 1 := by
    rw [hout, List.length_append, List.length_singleton]
  refine ⟨?_, ?_, ?_, ?_, fun _ => ⟨t, ?_⟩, fun u hu => ?_, fun _ _ => h.working t ?_⟩
  · rw [commitStep_order, hlate, hlen]
    push_cast
    omega
  · rw [hlen, List.range_succ, List.map_append, ← h.ids, hout]
    simp only [List.map_append, List.map_cons, List.map_nil, List.append_cancel_left_eq,
      List.cons.injEq, and_true]
    omega
  · rw [hlen]
    push_cast
    omega
  · rw [hlate, hlate0]
    simp
  · rw [commitStep_thread, Function.update_self, hq]
    rfl
  · have := h.returned_commit hpc hu
    omega
  · rw [hpc]
    rfl

/-- A commit whose id is the counter, and which is late. -/
lemma Counted.commit_late (hle : ¬ s.globalExecutionOrder + 1 ≤ E) :
    Counted E (commitStep E s t) := by
  have hq : commitPc E s = .unlockExit := if_neg (by rwa [hid])
  have horder := h.order
  have hother : ∀ u, u ≠ t → (commitStep E s t).thread u = s.thread u := fun u hu => by
    rw [commitStep_thread, Function.update_of_ne hu]
  have hlate : (commitStep E s t).late = s.late + 1 := by
    refine late_succ (fun u hu => by rw [hother u hu]) (by rw [hpc]; rfl) ?_
    rw [commitStep_thread, Function.update_self, hq]
    rfl
  have hout := commitStep_outFile E s t
  rw [hid, if_neg hle] at hout
  refine ⟨?_, ?_, ?_, fun _ => ?_, fun _ => ?_, fun u hu => ?_, fun _ _ => h.working t ?_⟩
  · rw [commitStep_order, hout, hlate]
    push_cast
    omega
  · rw [hout]
    exact h.ids
  · rw [hout]
    exact h.bound
  · rw [hout]
    exact h.length_eq (by omega)
  · obtain ⟨f, hf⟩ := h.rests (by omega)
    refine ⟨f, ?_⟩
    rw [hother f]
    · exact hf
    · rintro rfl
      rw [hpc] at hf
      simp [Pc.resting] at hf
  · have := h.returned_commit hpc hu
    rw [commitStep_order]
    omega
  · rw [hpc]
    rfl

end Commit

lemma Counted.move (h : Counted E s) (hN : E = 0 ∨ E + N ≤ 2 ^ 31) (hm : Move E s t s') :
    Counted E s' := by
  by_cases hpc : (s.thread t).pc = .commit
  · have hs' : s' = commitStep E s t := by
      cases hm with
      | commit _ => rfl
      | _ => simp_all
    rw [hs']
    have hid := h.toInt_eq hpc hN
    by_cases hle : s.globalExecutionOrder + 1 ≤ E
    · exact h.commit_logged hpc hid hle
    · exact h.commit_late hpc hid hle
  · exact h.move_of_ne hm hpc

lemma counted_init (h : IsInit s) (hE : 0 ≤ E) (t : Fin N) : Counted E s := by
  obtain ⟨hord, -, -, hout, hpc⟩ := h
  have hlate : s.late = 0 := by
    unfold State.late
    simp [hpc, Pc.rolledBack]
  refine ⟨by simp [hord, hout, hlate], by simp [hout], by simpa [hout] using hE, by simp [hlate],
    fun _ => ⟨t, by rw [hpc]; rfl⟩, fun u hu => ?_, fun u hu => ?_⟩
  · rw [hpc u] at hu
    simp at hu
  · rw [hpc u] at hu
    simp [Pc.resting] at hu

/-- **The ids count the commits**, when the counter cannot leave the range of `int`. -/
theorem counted_of_reachable (hE : 0 ≤ E) (t : Fin N) (hN : E = 0 ∨ E + N ≤ 2 ^ 31)
    (hs : (engine N R E).Reachable s) : Counted E s :=
  Machine.Run.invariant (I := Counted E) (fun _ h => counted_init h hE t)
    (fun _ _ _ _ hi _ hstep => hi.move hN (move_of_step hstep)) s hs

end Multicore.Project2
