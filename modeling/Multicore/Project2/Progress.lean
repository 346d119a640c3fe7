import Multicore.Project2.Dependencies

/-!
# No undetected deadlock

While `global_mutex` is free, somebody who has a request in a queue can go on.  The argument
follows the dependency graph: it is acyclic, so among the threads with an entry there is one that
depends on nobody, and since the graph is the blocking relation of the queues, nothing that
conflicts stands before any of its entries.  The invariant of the queued lock then says that the
gate lets its waiting request through.

* `State.Unblocked` — what it means that a thread can go on;
* **`no_undetected_deadlock`**.
-/

namespace Multicore.Project2

open QLock

variable {N R : ℕ} {E : ℤ} {s : State N R} {t u : Fin N} {x : Fin R}

/-! ## Waiting requests -/

/-- The queued request whose lock call has not returned yet. -/
def Pc.waitingFor : Pc N R → Option LockType
  | .unlockWait ty | .gate ty _ _ => some ty
  | _ => none

/-- Has the thread set `writing` itself, inside `lockExclusive`? -/
def Pc.hasRaised : Pc N R → Bool
  | .gate _ _ .drain | .gate _ _ .asleepReader | .gate _ _ .wakeReader => true
  | _ => false

/-- Thread `t` is not blocked: all its queued requests are granted, or its waiting request can be
granted now. -/
def State.Unblocked (s : State N R) (t : Fin N) : Prop :=
  (∀ x, ∀ e ∈ s.monitor.lockRequest x, e.tid = t → s.Holds t e.type) ∨
    ∃ ty, (s.thread t).pc.waitingFor = some ty ∧
      (checkQueue (s.monitor.lockRequest ((s.thread t).index ty)) ((s.thread t).req t ty) = true ∧
          (s.monitor.lock ((s.thread t).index ty)).writing = false ∨
        (s.thread t).pc.hasRaised = true ∧
          (s.monitor.lock ((s.thread t).index ty)).numReader = 0)

/-- A queued request is granted, or its thread is waiting for it. -/
lemma Pc.waitingFor_of_inQueue {pc : Pc N R} {ty : LockType} (h : (pc.phase ty).InQueue)
    (hg : pc.phase ty ≠ .granted) : pc.waitingFor = some ty := by
  have upTo : ∀ {ty' : LockType} {p : Phase}, (phaseUpTo ty' p ty).InQueue →
      phaseUpTo ty' p ty ≠ .granted → p.InQueue ∧ p ≠ .granted ∧ ty' = ty := by
    intro ty' p hq hng
    unfold phaseUpTo at hq hng
    split_ifs at hq hng with h1 h2
    · exact absurd rfl hng
    · exact ⟨hq, hng, h2.symm⟩
    · exact absurd hq id
  cases pc with
  | release why r rest u =>
      simp only [Pc.phase] at h hg
      split_ifs at h hg
      · cases u <;> simp_all [Unlock.phase, Phase.InQueue]
      · exact absurd rfl hg
      · exact absurd h id
  | gate ty' held g => rw [(upTo h hg).2.2]; rfl
  | unlockWait ty' => rw [(upTo h hg).2.2]; rfl
  | request ty' | check ty' => exact absurd (upTo h hg).1 id
  | flag ty' held | relock ty' | unlock ty' | read ty' | write ty' =>
      exact absurd rfl (upTo h hg).2.1
  | lockCommit => exact absurd rfl hg
  | _ => exact absurd h id

/-- A waiting writer whose flag is up has raised it inside `lockExclusive`. -/
lemma Pc.hasRaised_of_raised {pc : Pc N R} {ty : LockType} (h : pc.waitingFor = some ty)
    (hr : (pc.phase ty).Raised) : pc.hasRaised = true := by
  cases pc with
  | gate ty' held g =>
      obtain rfl := Option.some.inj h
      simp only [Pc.phase, phaseUpTo_self] at hr
      cases g <;> first | rfl | exact absurd hr id
  | unlockWait ty' =>
      obtain rfl := Option.some.inj h
      simp only [Pc.phase, phaseUpTo_self] at hr
      exact absurd hr id
  | _ => simp [Pc.waitingFor] at h

/-! ## The gate -/

lemma allReader_of_ahead {q : List (LockInfo N R)} {req : LockInfo N R}
    (h : ∀ e ∈ q.takeWhile fun e => !e.same req, e.type = .R) : allReader q req = true := by
  induction q with
  | nil => rfl
  | cons e q ih =>
      rw [List.takeWhile_cons] at h
      unfold allReader
      by_cases hs : e.same req = true
      · rw [if_pos hs]
      · simp only [hs, Bool.not_false, if_true, List.mem_cons, forall_eq_or_imp] at h
        rw [if_neg hs, if_neg (by simp [h.1])]
        exact ih h.2

/-- Where nothing conflicts, `checkQueue` lets a queued request through. -/
lemma checkQueue_of_ahead {q : List (LockInfo N R)} {req : LockInfo N R} (hq : q ≠ [])
    (h : ∀ e ∈ q.takeWhile fun e => !e.same req, e.type = .R ∧ req.type = .R) :
    checkQueue q req = true := by
  cases q with
  | nil => exact absurd rfl hq
  | cons first q =>
      unfold checkQueue
      by_cases hs : req.same first = true
      · simp [hs]
      · have hs' : first.same req = false := by
          rw [← Bool.not_eq_true, LockInfo.same_iff]
          exact fun h => hs (LockInfo.same_iff.mpr ⟨h.1.symm, h.2.1.symm, h.2.2.symm⟩)
        have hR : req.type = .R := (h first (by simp [hs'])).2
        simp only [hs, hR, Bool.false_eq_true, if_false, if_true]
        exact allReader_of_ahead fun e he => (h e he).1

/-! ## A thread that depends on nobody -/

/-- Before the entries of a thread that waits for nobody nothing conflicts. -/
lemma LocksInv.noConflict (hs : LocksInv s) (hfree : ∀ u, ¬ s.WaitsFor t u) {ty : LockType}
    (hq : ((s.thread t).pc.phase ty).InQueue) :
    NoConflict IsReader (s.view ((s.thread t).index ty)).queue (t, ty) := by
  intro e he hconf
  have hmem := ((hs.lock ((s.thread t).index ty)).queue.mem_iff (t, ty)).mpr
    (by rw [view_phase_index]; exact hq)
  have hsub := sublist_of_mem_before he hmem
  rw [State.view, List.map_map] at hsub
  refine hfree e.1.1 ⟨_, blocks_iff_clients.mpr ⟨e.1.2, ty, hsub, ?_⟩⟩
  by_contra hno
  push Not at hno
  exact hconf hno

lemma view_ne_erased (hno : ∀ u ty, (s.thread u).pc.phase ty ≠ .erased) (x : Fin R)
    (d : Client N) : (s.view x).phase d ≠ .erased := by
  simp only [State.view, phaseAt]
  split_ifs
  · exact hno d.1 d.2
  · exact Phase.noConfusion

/-- What the gate finds when nothing conflicts with a queued request and no release is half done:
it is open.  A writer that has raised `writing` itself finds no reader. -/
lemma LocksInv.gate_open (hs : LocksInv s) {ty : LockType}
    (hq : ((s.thread t).pc.phase ty).InQueue) (hng : (s.thread t).pc.phase ty ≠ .granted)
    (hnc : NoConflict IsReader (s.view ((s.thread t).index ty)).queue (t, ty))
    (hno : ∀ u ty, (s.thread u).pc.phase ty ≠ .erased) :
    checkQueue (s.monitor.lockRequest ((s.thread t).index ty)) ((s.thread t).req t ty) = true ∧
      (ty = .R ∨ ¬ ((s.thread t).pc.phase ty).Raised →
        (s.monitor.lock ((s.thread t).index ty)).writing = false) ∧
      (ty ≠ .R → (s.monitor.lock ((s.thread t).index ty)).numReader = 0) := by
  have hview : (s.view ((s.thread t).index ty)).phase (t, ty) = (s.thread t).pc.phase ty :=
    view_phase_index s t ty
  have hlock := hs.lock ((s.thread t).index ty)
  have herased := view_ne_erased hno ((s.thread t).index ty)
  refine ⟨checkQueue_of_ahead ?_ ((hs.base.noConflict_iff t ty).mp hnc), fun hr => ?_,
    fun hty => ?_⟩
  · obtain ⟨e, he, -⟩ := mem_clients.mp (hs.mem_clients_iff.mpr ⟨rfl, hq⟩)
    exact List.ne_nil_of_mem he
  · exact hlock.not_writing_of_clear (by rw [hview]; exact hq) (by rw [hview]; exact hng)
      (by rw [hview]; exact hr) hnc.clear fun d _ => herased d
  · have hw : ¬ IsReader (t, ty) := hty
    exact hlock.numReader_eq_zero hw (by rw [hview]; exact hq) hnc herased

/-- **A thread that waits for nobody can go on**, unless a release is half done. -/
theorem LocksInv.unblocked (hs : LocksInv s) (hfree : ∀ u, ¬ s.WaitsFor t u)
    (hno : ∀ u ty, (s.thread u).pc.phase ty ≠ .erased) : s.Unblocked t := by
  by_cases hall : ∀ x, ∀ e ∈ s.monitor.lockRequest x, e.tid = t → s.Holds t e.type
  · exact .inl hall
  right
  push Not at hall
  obtain ⟨x, e, he, rfl, hnot⟩ := hall
  obtain ⟨-, hq⟩ := hs.mem_clients_iff.mp (mem_clients.mpr ⟨e, he, rfl, rfl⟩)
  have hng : (s.thread e.tid).pc.phase e.type ≠ .granted := fun hg => by
    refine hnot ?_
    rw [State.Holds, hg]
    trivial
  have hwait := Pc.waitingFor_of_inQueue hq hng
  obtain ⟨hcheck, hwriting, hreaders⟩ := hs.gate_open hq hng (hs.noConflict hfree hq) hno
  refine ⟨e.type, hwait, ?_⟩
  by_cases hr : e.type ≠ .R ∧ ((s.thread e.tid).pc.phase e.type).Raised
  · -- a writer past the gate: it waits for readers, and there are none
    exact .inr ⟨Pc.hasRaised_of_raised hwait hr.2, hreaders hr.1⟩
  · exact .inl ⟨hcheck, hwriting (by tauto)⟩

/-- **No undetected deadlock.**  In every reachable state in which `global_mutex` is free, if
somebody has an entry in a queue then a thread with an entry is not blocked. -/
theorem no_undetected_deadlock (hs : (engine N R E).Reachable s) (hg : s.globalMutex = none)
    (hq : ∃ x, s.monitor.lockRequest x ≠ []) :
    ∃ t, (∃ x, ∃ e ∈ s.monitor.lockRequest x, e.tid = t) ∧ s.Unblocked t := by
  have hinv := locksInv_of_reachable hs
  have htab := tables_of_reachable hs
  have hnot := hinv.base.not_releasing_of_free hg
  have hgraph : ∀ a b, s.Edge a b ↔ s.WaitsFor a b := fun a b =>
    (and_iff_left (hnot a)).trans (htab.depend a b (hnot a) (hnot b))
  let queued : Set (Fin N) := fun t => ∃ x, ∃ e ∈ s.monitor.lockRequest x, e.tid = t
  have hne : queued.Nonempty := by
    obtain ⟨x, hx⟩ := hq
    obtain ⟨e, he⟩ := List.exists_mem_of_ne_nil _ hx
    exact ⟨e.tid, x, e, he, rfl⟩
  obtain ⟨t, ht, hsink⟩ := htab.acyclic.exists_sink hne fun a _ b hab => by
    obtain ⟨x, hx⟩ := (hgraph a b).mp hab
    obtain ⟨ty, hty⟩ := hx.mem.2
    obtain ⟨e, he, hte, -⟩ := mem_clients.mp hty
    exact ⟨x, e, he, hte⟩
  refine ⟨t, ht, hinv.unblocked (fun u hu => hsink u ((hgraph t u).mpr hu)) fun u ty her => ?_⟩
  -- a release that is half done holds `global_mutex`
  obtain ⟨why, r, rest, hpc, -⟩ := release_of_erased her
  have := hnot u
  rw [hpc] at this
  exact Bool.noConfusion this

/-- Thread `0` holds two locks and thread `1` waits for one of them. -/
theorem no_undetected_deadlock_reader_waits : ∃ s : State 2 3, (engine 2 3 5).Reachable s ∧
    s.globalMutex = none ∧ s.monitor.lockRequest 1 ≠ [] ∧
    ∃ t, (∃ x, ∃ e ∈ s.monitor.lockRequest x, e.tid = t) ∧ s.Unblocked t := by
  obtain ⟨s, hs, hp⟩ := Machine.exists_reachable_of_exec (M := engine 2 3 5)
    (State.start_isInit 2 3)
    (Act.start 0 0 1 2 ++ Act.go 0 20 ++ Act.start 1 1 0 2 ++ Act.go 1 6)
    (fun s => s.globalMutex = none ∧ s.monitor.lockRequest 1 ≠ []) (by decide +kernel)
  obtain ⟨hg, hq⟩ := of_decide_eq_true hp
  exact ⟨s, hs, hg, hq, no_undetected_deadlock hs hg ⟨1, hq⟩⟩

end Multicore.Project2
