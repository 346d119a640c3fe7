import Mathlib.Logic.Relation
import Multicore.Project2.Moves

/-!
# Deadlock detection

What `deadlock_check` computes, for an arbitrary dependency graph and arbitrary queues.

* **`findCycle_iff`** — the breadth-first search answers whether the requester reaches itself.  A
  search that fails leaves a closed set behind (`findCycle_closed`): nodes are marked only when
  they are popped, so the invariant covers what is visited *and* what is still queued;
* `Monitor.deadlockCheck_iff` — the answer `deadlock` says that the new edges close a cycle;
* the tables after each answer;
* **`deadlock_check_decides_cycles`** — the whole of it, with the new edges written out.
-/

namespace Multicore.Project2

open Relation

variable {N R : ℕ}

/-! ## The search -/

/-- The edges of a dependency graph. -/
def DependsOn (depend : Fin N → Finset (Fin N)) (a b : Fin N) : Prop := b ∈ depend a

@[simp] lemma mem_elems {A : Finset (Fin N)} {a : Fin N} : a ∈ elems A ↔ a ∈ A := by
  simp [elems]

variable {depend : Fin N → Finset (Fin N)} {tid : Fin N}

/-- What the search finds is reached from its queue. -/
lemma findCycle_sound {queue : List (Fin N)} {visited : Finset (Fin N)}
    (h : findCycle depend tid queue visited = true) :
    ∃ c ∈ queue, ReflTransGen (DependsOn depend) c tid := by
  induction queue, visited using findCycle.induct depend tid with
  | case1 visited => simp [findCycle] at h
  | case2 queue visited => exact ⟨tid, by simp, .refl⟩
  | case3 cur queue visited hcur hvis ih =>
      rw [findCycle, if_neg hcur, if_pos hvis] at h
      obtain ⟨c, hc, hpath⟩ := ih h
      exact ⟨c, List.mem_cons_of_mem _ hc, hpath⟩
  | case4 cur queue visited hcur hvis ih =>
      rw [findCycle, if_neg hcur, if_neg hvis] at h
      obtain ⟨c, hc, hpath⟩ := ih h
      rcases List.mem_append.mp hc with hc | hc
      · exact ⟨c, List.mem_cons_of_mem _ hc, hpath⟩
      · exact ⟨cur, by simp, hpath.head (mem_elems.mp hc)⟩

/-- A search that finds nothing leaves a closed set behind: what has been visited and what is
queued lies in a set that the edges do not leave and that misses `tid`. -/
lemma findCycle_closed {queue : List (Fin N)} {visited : Finset (Fin N)}
    (h : findCycle depend tid queue visited = false)
    (hvis : ∀ v ∈ visited, v ≠ tid ∧ ∀ w ∈ depend v, w ∈ visited ∨ w ∈ queue) :
    ∃ V : Set (Fin N), (∀ c ∈ queue, c ∈ V) ∧ tid ∉ V ∧ (∀ v ∈ visited, v ∈ V) ∧
      ∀ v ∈ V, ∀ w ∈ depend v, w ∈ V := by
  induction queue, visited using findCycle.induct depend tid with
  | case1 visited =>
      refine ⟨visited, by simp, fun hmem => (hvis tid hmem).1 rfl, fun v hv => hv, ?_⟩
      intro v hv w hw
      simpa using (hvis v hv).2 w hw
  | case2 queue visited => simp [findCycle] at h
  | case3 cur queue visited hcur hmem ih =>
      rw [findCycle, if_neg hcur, if_pos hmem] at h
      obtain ⟨V, hq, htid, hV, hclosed⟩ := ih h fun v hv => ⟨(hvis v hv).1, fun w hw => by
        rcases (hvis v hv).2 w hw with hw | hw
        · exact .inl hw
        · rcases List.mem_cons.mp hw with rfl | hw
          · exact .inl hmem
          · exact .inr hw⟩
      refine ⟨V, fun c hc => ?_, htid, hV, hclosed⟩
      rcases List.mem_cons.mp hc with rfl | hc
      · exact hV _ hmem
      · exact hq c hc
  | case4 cur queue visited hcur hmem ih =>
      rw [findCycle, if_neg hcur, if_neg hmem] at h
      obtain ⟨V, hq, htid, hV, hclosed⟩ := ih h fun v hv => by
        rcases Finset.mem_insert.mp hv with rfl | hv
        · exact ⟨hcur, fun w hw => .inr (by simp [hw])⟩
        · refine ⟨(hvis v hv).1, fun w hw => ?_⟩
          rcases (hvis v hv).2 w hw with hw | hw
          · exact .inl (Finset.mem_insert_of_mem hw)
          · rcases List.mem_cons.mp hw with rfl | hw
            · exact .inl (Finset.mem_insert_self _ _)
            · exact .inr (List.mem_append_left _ hw)
      refine ⟨V, fun c hc => ?_, htid, fun v hv => hV v (Finset.mem_insert_of_mem hv), hclosed⟩
      rcases List.mem_cons.mp hc with rfl | hc
      · exact hV _ (Finset.mem_insert_self _ _)
      · exact hq c (List.mem_append_left _ hc)

/-- **The search decides whether `tid` reaches itself.** -/
theorem findCycle_iff :
    findCycle depend tid (elems (depend tid)) ∅ = true ↔ TransGen (DependsOn depend) tid tid := by
  constructor
  · intro h
    obtain ⟨c, hc, hpath⟩ := findCycle_sound h
    exact TransGen.head' (mem_elems.mp hc) hpath
  · intro hpath
    by_contra hno
    obtain ⟨V, hq, htid, -, hclosed⟩ :=
      findCycle_closed (Bool.eq_false_of_not_eq_true hno) (by simp)
    have hstay : ∀ b, TransGen (DependsOn depend) tid b → b ∈ V := by
      intro b hb
      induction hb with
      | single hab => exact hq _ (mem_elems.mpr hab)
      | tail _ hbc ih => exact hclosed _ ih _ hbc
    exact htid (hstay tid hpath)

/-! ## The answer -/

namespace Monitor

variable (m : Monitor N R) (r : LockInfo N R)

lemma mem_addDepend {a b : Fin N} : b ∈ (m.addDepend r).dependThreads a ↔
    b ∈ m.dependThreads a ∨ a = r.tid ∧ b ∈ newDepend (m.lockRequest r.index) r := by
  simp only [addDepend, Function.update_apply]
  split_ifs with ha
  · simp [ha]
  · simp [ha]

lemma deadlockCheck_dependThreads :
    (m.deadlockCheck r).2.dependThreads = (m.addDepend r).dependThreads := by
  unfold deadlockCheck
  dsimp only
  split_ifs <;> rfl

/-- The answer `deadlock` says that the new edges close a cycle. -/
lemma deadlockCheck_iff : (m.deadlockCheck r).1 = .deadlock ↔
    TransGen (DependsOn (m.addDepend r).dependThreads) r.tid r.tid := by
  rw [← findCycle_iff]
  unfold deadlockCheck
  dsimp only
  split_ifs <;> simp_all

lemma deadlockCheck_deadlock_info (h : (m.deadlockCheck r).1 = .deadlock) :
    (m.deadlockCheck r).2.threadsInfo = m.threadsInfo := by
  unfold deadlockCheck at h ⊢
  dsimp only at h ⊢
  split_ifs at h ⊢ with h1
  rfl

lemma deadlockCheck_queue_info (h : (m.deadlockCheck r).1 ≠ .deadlock) :
    (m.deadlockCheck r).2.threadsInfo = Function.update m.threadsInfo r.tid
      (Function.update (m.threadsInfo r.tid) r.type (some r.index)) := by
  unfold deadlockCheck at h ⊢
  dsimp only at h ⊢
  split_ifs at h ⊢ with h1
  · simp at h
  all_goals rfl

end Monitor

/-- The graph a request is checked in: the edges that are there, and one from the requester to
the thread of every queued entry that conflicts with the request. -/
def WithRequest (m : Monitor N R) (r : LockInfo N R) (a b : Fin N) : Prop :=
  b ∈ m.dependThreads a ∨
    a = r.tid ∧ ∃ e ∈ m.lockRequest r.index, e.tid = b ∧ (r.type ≠ .R ∨ e.type ≠ .R)

lemma dependsOn_addDepend (m : Monitor N R) (r : LockInfo N R) :
    DependsOn (m.addDepend r).dependThreads = WithRequest m r := by
  funext a b
  rw [DependsOn, eq_iff_iff, Monitor.mem_addDepend, WithRequest]
  refine or_congr_right (and_congr_right fun _ => ?_)
  simp only [newDepend, List.mem_map, List.mem_filter, decide_eq_true_eq]
  exact exists_congr fun e => by tauto

/-- **`deadlock_check` decides cycles exactly**, whatever the graph and the queues are: it answers
`deadlock` when the requester reaches itself, and such an answer leaves the queues and
`threads_info` as they were. -/
theorem deadlock_check_decides_cycles (m : Monitor N R) (r : LockInfo N R) :
    ((m.deadlockCheck r).1 = .deadlock ↔ TransGen (WithRequest m r) r.tid r.tid) ∧
      ((m.deadlockCheck r).1 = .deadlock →
        (m.deadlockCheck r).2.lockRequest = m.lockRequest ∧
        (m.deadlockCheck r).2.threadsInfo = m.threadsInfo) := by
  constructor
  · rw [Monitor.deadlockCheck_iff, dependsOn_addDepend]
  · intro h
    exact ⟨m.deadlockCheck_deadlock r h, m.deadlockCheck_deadlock_info r h⟩

/-- Threads `1` and `2` wait for each other, thread `2` also waits for thread `0`, and thread `1`
reads the only record. -/
def ring : Monitor 3 1 :=
  { Monitor.init with
    dependThreads := ![∅, {2}, {1, 0}]
    lockRequest := fun _ => [⟨0, .R, 1, true⟩] }

/-- In `ring` a writer request of thread `0` closes a cycle.  A reader request does not, although
the graph has a cycle already. -/
theorem deadlock_check_decides_cycles_ring :
    TransGen (WithRequest ring ⟨0, .W1, 0, false⟩) 0 0 ∧
      (ring.deadlockCheck ⟨0, .W1, 0, false⟩).2.lockRequest = ring.lockRequest ∧
      ¬ TransGen (WithRequest ring ⟨0, .R, 0, false⟩) 0 0 := by
  have hd : (ring.deadlockCheck ⟨0, .W1, 0, false⟩).1 = .deadlock := by decide +kernel
  have hg : (ring.deadlockCheck ⟨0, .R, 0, false⟩).1 = .get := by decide +kernel
  obtain ⟨hiff, hkeep⟩ := deadlock_check_decides_cycles ring ⟨0, .W1, 0, false⟩
  refine ⟨hiff.mp hd, (hkeep hd).1, fun hcycle => ?_⟩
  have := (deadlock_check_decides_cycles ring ⟨0, .R, 0, false⟩).1.mpr hcycle
  rw [hg] at this
  exact Status.noConfusion this

end Multicore.Project2
