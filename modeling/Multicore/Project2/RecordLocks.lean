import Multicore.Project2.Refinement

/-!
# What the record locks guarantee

Three consequences of the refinement, over every run of the engine.

* **`served_in_queue_order`** — a request is granted only when nothing that conflicts with it
  stands before it; conflicting locks are never held together; `numReader` counts the readers.
* `Spins` — the gate found `checkQueue` true and `writing` true: `wait` does not sleep then, and
  the thread goes round the loop with `mtx` in its hands.  **`gate_never_spins`** says which
  schedules avoid that: those in which nobody examines a queue a writer has already left while
  that writer has not lowered `writing` yet.
-/

namespace Multicore.Project2

open QLock

variable {N R : ℕ} {E : ℤ} {s s' : State N R} {t u : Fin N} {x : Fin R}

/-! ## Queue order -/

/-- Thread `t` holds a lock of this type: `lockShared`/`lockExclusive` has returned, and
`unlockShared`/`unlockExclusive` has not changed the `RWLock` yet. -/
def State.Holds (s : State N R) (t : Fin N) (ty : LockType) : Prop :=
  ((s.thread t).pc.phase ty).Holds

instance (s : State N R) (t : Fin N) (ty : LockType) : Decidable (s.Holds t ty) :=
  inferInstanceAs (Decidable ((s.thread t).pc.phase ty).Holds)

/-- The entries that stand before the request of thread `t` in the queue of its record. -/
def State.ahead (s : State N R) (t : Fin N) (ty : LockType) : List (LockInfo N R) :=
  (s.monitor.lockRequest ((s.thread t).index ty)).takeWhile fun e =>
    !e.same ((s.thread t).req t ty)

/-- Conflicting locks are served in queue order. -/
structure ServedInQueueOrder (s : State N R) : Prop where
  /-- when the lock call returns, the request is in the queue … -/
  queued : ∀ t ty held, (s.thread t).pc = .flag ty held →
    ∃ e ∈ s.monitor.lockRequest ((s.thread t).index ty), e.same ((s.thread t).req t ty) = true
  /-- … and what stands before it are readers, before a writer nothing at all -/
  first : ∀ t ty held, (s.thread t).pc = .flag ty held →
    ∀ e ∈ s.ahead t ty, e.type = .R ∧ ty = .R
  /-- locks held on one record are all read locks, or one lock -/
  exclusive : ∀ t u ty ty', (t, ty) ≠ (u, ty') → (s.thread t).index ty = (s.thread u).index ty' →
    s.Holds t ty → s.Holds u ty' → ty = .R ∧ ty' = .R
  /-- a granted reader has no writer before it -/
  noOvertaking : ∀ t, (s.thread t).pc.phase .R = .granted → ∀ e ∈ s.ahead t .R, e.type = .R
  /-- the reader count -/
  count : ∀ x, (s.monitor.lock x).numReader
    = (Finset.univ.filter fun t => (s.thread t).index .R = x ∧ s.Holds t .R).card
  nonneg : ∀ x, 0 ≤ (s.monitor.lock x).numReader

lemma map_takeWhile {q : List (LockInfo N R)} (req : LockInfo N R)
    (hq : ∀ e ∈ q, e.index = req.index) :
    (q.takeWhile fun e => !e.same req).map LockInfo.entry
      = before (q.map LockInfo.entry) (req.tid, req.type) := by
  induction q with
  | nil => rfl
  | cons e q ih =>
      rw [before_cons_entry (hq e (by simp)), List.takeWhile_cons]
      by_cases hs : e.same req = true
      · simp [hs]
      · simp [hs, ih fun e he => hq e (by simp [he])]

/-- What stands before a request, seen by the queued lock. -/
lemma Base.map_ahead (hb : Base s) (t : Fin N) (ty : LockType) :
    (s.ahead t ty).map LockInfo.entry = before (s.view ((s.thread t).index ty)).queue (t, ty) :=
  map_takeWhile ((s.thread t).req t ty) (hb.index _)

lemma Base.noConflict_iff (hb : Base s) (t : Fin N) (ty : LockType) :
    NoConflict IsReader (s.view ((s.thread t).index ty)).queue (t, ty) ↔
      ∀ e ∈ s.ahead t ty, e.type = .R ∧ ty = .R := by
  rw [NoConflict, ← hb.map_ahead, List.forall_mem_map]
  exact forall₂_congr fun e _ => not_not

/-- Nothing that conflicts stands before a granted request. -/
lemma LocksInv.ahead_of_granted (hs : LocksInv s) {ty : LockType}
    (h : (s.thread t).pc.phase ty = .granted) : ∀ e ∈ s.ahead t ty, e.type = .R ∧ ty = .R :=
  (hs.base.noConflict_iff t ty).mp ((hs.lock _).queue.first (t, ty) (by rw [view_phase_index, h]))

/-- The readers of a record, counted as threads and as clients. -/
lemma readers_view (s : State N R) (x : Fin R) :
    readers IsReader (s.view x).phase
      = (Finset.univ.filter fun t => (s.thread t).index .R = x ∧ s.Holds t .R).card := by
  unfold readers
  refine Finset.card_bij' (fun c _ => c.1) (fun t _ => (t, .R)) ?_ ?_ ?_ ?_
  · rintro ⟨u, ty⟩ hc
    rw [Finset.mem_filter] at hc ⊢
    obtain ⟨-, hr, hh⟩ := hc
    obtain rfl : ty = .R := hr
    simp only [State.view, phaseAt] at hh
    split_ifs at hh with hx
    · exact ⟨Finset.mem_univ _, hx, hh⟩
    · exact absurd hh id
  · intro u hu
    rw [Finset.mem_filter] at hu ⊢
    obtain ⟨-, hx, hh⟩ := hu
    refine ⟨Finset.mem_univ _, rfl, ?_⟩
    simp only [State.view, phaseAt, hx, if_true]
    exact hh
  · rintro ⟨u, ty⟩ hc
    rw [Finset.mem_filter] at hc
    exact Prod.ext rfl hc.2.1.symm
  · intro u hu
    rfl

/-- Two locks that are held on one record are read locks. -/
lemma LocksInv.exclusive (hs : LocksInv s) {u : Fin N} {ty ty' : LockType}
    (hne : (t, ty) ≠ (u, ty')) (hx : (s.thread t).index ty = (s.thread u).index ty')
    (ht : s.Holds t ty) (hu : s.Holds u ty') : ty = .R ∧ ty' = .R := by
  refine not_not.mp ((hs.lock ((s.thread t).index ty)).exclusive hne ?_ ?_)
  · rw [view_phase_index]
    exact ht
  · rw [hx, view_phase_index]
    exact hu

/-- `num_reader` counts the threads that have a read lock on the record. -/
lemma LocksInv.numReader (hs : LocksInv s) (x : Fin R) : (s.monitor.lock x).numReader
    = (Finset.univ.filter fun t => (s.thread t).index .R = x ∧ s.Holds t .R).card := by
  rw [← readers_view]
  exact (hs.lock x).lock.count

/-- **Conflicting record locks are served in queue order**, in every state of every run. -/
theorem served_in_queue_order (hs : (engine N R E).Reachable s) : ServedInQueueOrder s := by
  have hinv := locksInv_of_reachable hs
  have flag_granted : ∀ {t ty held}, (s.thread t).pc = .flag ty held →
      (s.thread t).pc.phase ty = .granted := fun h => by rw [h]; exact phaseUpTo_self _ _
  refine ⟨fun t ty held h => ?_, fun t ty held h => hinv.ahead_of_granted (flag_granted h),
    fun t u ty ty' hne hx ht hu => hinv.exclusive hne hx ht hu,
    fun t h e he => (hinv.ahead_of_granted h e he).1, hinv.numReader, fun x => ?_⟩
  · have hmem := ((hinv.lock ((s.thread t).index ty)).queue.mem_iff (t, ty)).mpr
      (by rw [view_phase_index, flag_granted h]; trivial)
    simp only [State.view, List.map_map, List.mem_map, Function.comp_apply] at hmem
    obtain ⟨e, he, hc⟩ := hmem
    exact ⟨e, he, (same_iff_client (hinv.base.index _ e he)).mpr hc⟩
  · rw [hinv.numReader]
    exact Int.natCast_nonneg _

/-- Two readers of record `0`: the second call returns with the first reader before it. -/
theorem served_in_queue_order_two_readers : ∃ s : State 2 3, (engine 2 3 5).Reachable s ∧
    (s.thread 1).pc = .flag .R true ∧ s.ahead 1 .R = [⟨0, .R, 0, true⟩] ∧
    ServedInQueueOrder s := by
  obtain ⟨s, hs, hp⟩ := Machine.exists_reachable_of_exec (M := engine 2 3 5)
    (State.start_isInit 2 3)
    (Act.start 0 0 1 2 ++ Act.go 0 8 ++ Act.start 1 0 2 1 ++ Act.go 1 6)
    (fun s => (s.thread 1).pc = .flag .R true ∧ s.ahead 1 .R = [⟨0, .R, 0, true⟩])
    (by decide +kernel)
  obtain ⟨hpc, hahead⟩ := of_decide_eq_true hp
  exact ⟨s, hs, hpc, hahead, served_in_queue_order hs⟩

/-! ## The gate -/

/-- Thread `t` is in the loop `do writer.wait(lock, checkQueue) while (writing)` with `mtx` in its
hands, `checkQueue` was true, and `writing` is true. -/
def Spins (s : State N R) (t : Fin N) : Prop :=
  ∃ ty held, (s.thread t).pc = .gate ty held .test ∧
    (s.monitor.lock ((s.thread t).index ty)).writing = true

/-- The record whose queue a writer has left without having lowered `writing` yet: it stands
between the two halves of `releaseLock`. -/
def Pc.leaving : Pc N R → Option (Fin R)
  | .release _ r _ .mutex => if r.type = .R then none else some r.index
  | _ => none

/-- The request for which a thread is about to evaluate `checkQueue`. -/
def Pc.examines : Pc N R → Option LockType
  | .gate ty _ .check => some ty
  | _ => none

/-- A writer is leaving record `x`. -/
def Leaving (s : State N R) (x : Fin R) : Prop := ∃ u, (s.thread u).pc.leaving = some x

instance (s : State N R) (x : Fin R) : Decidable (Leaving s x) :=
  inferInstanceAs (Decidable (∃ u, (s.thread u).pc.leaving = some x))

/-- The thread that moves does not find the queue of a record clear that a writer is leaving. -/
def NotWhileLeaving (s : State N R) (a : Act N R) : Prop :=
  ∀ ty, (s.thread a.tid).pc.examines = some ty →
    checkQueue (s.monitor.lockRequest ((s.thread a.tid).index ty))
      ((s.thread a.tid).req a.tid ty) = true →
    ¬ Leaving s ((s.thread a.tid).index ty)

instance (s : State N R) (a : Act N R) : Decidable (NotWhileLeaving s a) :=
  inferInstanceAs (Decidable (∀ ty, (s.thread a.tid).pc.examines = some ty →
    checkQueue (s.monitor.lockRequest ((s.thread a.tid).index ty))
      ((s.thread a.tid).req a.tid ty) = true → ¬ Leaving s ((s.thread a.tid).index ty)))

lemma Pc.examines_eq {pc : Pc N R} {ty : LockType} :
    pc.examines = some ty ↔ ∃ held, pc = .gate ty held .check := by
  constructor
  · intro h
    cases pc with
    | gate ty' held g =>
        cases g <;> simp only [Pc.examines, reduceCtorEq, Option.some.injEq] at h
        exact ⟨held, by rw [h]⟩
    | _ => simp [Pc.examines] at h
  · rintro ⟨held, rfl⟩
    rfl

lemma Pc.leaving_eq {pc : Pc N R} {x : Fin R} :
    pc.leaving = some x ↔
      ∃ why r rest, pc = .release why r rest .mutex ∧ r.type ≠ .R ∧ r.index = x := by
  constructor
  · intro h
    cases pc with
    | release why r rest u =>
        cases u <;> simp only [Pc.leaving, reduceCtorEq] at h
        split_ifs at h with hty
        exact ⟨why, r, rest, rfl, hty, Option.some.inj h⟩
    | _ => simp [Pc.leaving] at h
  · rintro ⟨why, r, rest, rfl, hty, rfl⟩
    simp [Pc.leaving, hty]

/-- Only a thread that holds `mtx` raises `writing`. -/
lemma Move.writing (h : Move E s t s') (hw : (s'.monitor.lock x).writing = true) :
    (s.monitor.lock x).writing = true ∨ (s.thread t).mtx = some x := by
  cases h
  case raise ty held hpc hty =>
    simp only [State.setPc_monitor, State.setMonitor_monitor, Monitor.setLock_lock] at hw
    split_ifs at hw with hx
    · right
      rw [Thread.mtx_gate hpc, hx]
      rfl
    · exact Or.inl hw
  case deadlock ty hpc hd =>
    left
    cases ty <;> simpa [onDeadlock] using hw
  case commit hpc =>
    left
    rwa [commitStep_lock] at hw
  all_goals
    left
    simp only [State.setPc_monitor, State.setThread_monitor, State.setMonitor_monitor,
      State.setGlobal_monitor, Monitor.setLock_lock, Monitor.write_lock,
      Monitor.deadlockCheck_lock, Monitor.setGetLock_lock, Monitor.deleteLock_lock,
      notifyWriter_monitor, notifyReader_monitor] at hw
    first
      | exact hw
      | (split_ifs at hw with hx <;> first | exact hw | (rw [hx]; exact hw))

/-- The test of `writing` comes after a `checkQueue` that was true. -/
lemma Move.test (h : Move E s t s') {ty : LockType} {held : Bool}
    (hpc : (s'.thread t).pc = .gate ty held .test) :
    (s.thread t).pc = .gate ty held .check ∧
      checkQueue (s.monitor.lockRequest ((s.thread t).index ty)) ((s.thread t).req t ty) = true ∧
      s' = s.setPc t (.gate ty held .test) := by
  cases h
  case clear ty' held' hpc' hc =>
    simp only [State.setPc_thread, Function.update_self, Pc.gate.injEq] at hpc
    obtain ⟨rfl, rfl, -⟩ := hpc
    exact ⟨hpc', hc, rfl⟩
  case deadlock ty' hpc' hd =>
    cases ty' <;> simp [onDeadlock, nextRelease_ne_gate] at hpc
  case commit hpc' =>
    rcases commitPc_cases E s with hq | hq <;> simp [hq] at hpc
  case flag ty' held' hpc' =>
    cases held' <;> simp at hpc
  all_goals simp [nextRelease_ne_gate] at hpc

/-- A request is erased between `deleteLock` and the update of the `RWLock`. -/
lemma release_of_erased {pc : Pc N R} {ty : LockType} (h : pc.phase ty = .erased) :
    ∃ why r rest, pc = .release why r rest .mutex ∧ r.type = ty := by
  have upTo : ∀ {ty' : LockType} {p : Phase}, phaseUpTo ty' p ty = .erased → p = .erased := by
    intro ty' p hp
    unfold phaseUpTo at hp
    split_ifs at hp
    exact hp
  cases pc with
  | release why r rest u =>
      simp only [Pc.phase] at h
      split_ifs at h with hty
      cases u <;> simp only [Unlock.phase, reduceCtorEq] at h
      exact ⟨why, r, rest, rfl, hty.symm⟩
  | gate ty' held g => cases g <;> exact absurd (upTo h) (by simp [Gate.phase])
  | request ty' | check ty' | unlockWait ty' | flag ty' held | relock ty' | unlock ty' | read ty'
  | write ty' => exact absurd (upTo h) (by simp)
  | _ => simp [Pc.phase] at h

/-- A writer that is leaving is an erased client of the queued lock. -/
lemma leaving_iff (hb : Base s) :
    Leaving s x ↔ ∃ c, ¬ IsReader c ∧ (s.view x).phase c = .erased := by
  constructor
  · rintro ⟨u, hu⟩
    obtain ⟨why, r, rest, hpc, hty, rfl⟩ := Pc.leaving_eq.mp hu
    refine ⟨(u, r.type), hty, ?_⟩
    rw [(hb.own u).release_index hpc, view_phase hpc]
    simp [Pc.phase, Unlock.phase]
  · rintro ⟨⟨u, ty⟩, hc, h⟩
    simp only [State.view, phaseAt] at h
    split_ifs at h with hx
    obtain ⟨why, r, rest, hpc, rfl⟩ := release_of_erased h
    exact ⟨u, Pc.leaving_eq.mpr ⟨why, r, rest, hpc, hc,
      ((hb.own u).release_index hpc).trans hx⟩⟩

/-- When the queue is clear, a raised flag means that a writer is leaving. -/
lemma LocksInv.writing_iff_leaving (hs : LocksInv s) {ty : LockType} {held : Bool}
    (hpc : (s.thread t).pc = .gate ty held .check)
    (hc : checkQueue (s.monitor.lockRequest ((s.thread t).index ty)) ((s.thread t).req t ty)
      = true) :
    (s.monitor.lock ((s.thread t).index ty)).writing = true ↔
      Leaving s ((s.thread t).index ty) := by
  have hlock := hs.lock ((s.thread t).index ty)
  rw [leaving_iff hs.base]
  constructor
  · intro hw
    by_contra hno
    push Not at hno
    have hph := gate_phase hpc
    have := hlock.not_writing_of_clear (c := (t, ty)) (by rw [hph]; trivial) (by rw [hph]; decide)
      (.inr (by rw [hph]; exact id))
      (clear_of_checkQueue ((s.thread t).req t ty) (hs.base.index _) hc) hno
    exact absurd hw (by rw [show (s.monitor.lock _).writing = false from this]; simp)
  · rintro ⟨c, hr, hph⟩
    exact hlock.lock.raised c hr (by rw [hph]; trivial)

/-- A thread that spins in a run has examined a queue a writer was leaving. -/
lemma not_spins_step (hs : LocksInv s) (h : Move E s u s') (hno : ∀ t, ¬ Spins s t)
    {c : Choice N R} (hok : NotWhileLeaving s ⟨u, c⟩) (t : Fin N) : ¬ Spins s' t := by
  rintro ⟨ty, held, hpc, hw⟩
  by_cases htu : t = u
  · subst htu
    obtain ⟨hpc0, hc, rfl⟩ := h.test hpc
    refine hok ty (Pc.examines_eq.mpr ⟨held, hpc0⟩) hc ((hs.writing_iff_leaving hpc0 hc).mp ?_)
    simp only [State.setPc_thread, Function.update_self] at hw
    exact hw
  · -- another thread moved: it would have raised the flag with `mtx` in the hands of `t`
    have hth : s'.thread t = s.thread t := (h.woken htu).eq_of_pc (by simp [hpc]) (by simp [hpc])
    rw [hth] at hpc hw
    rcases h.writing hw with hw | hmtx
    · exact hno t ⟨ty, held, hpc, hw⟩
    · have hu := hs.base.mtx u _ hmtx
      rw [hs.base.mtx t _ (Thread.mtx_gate hpc)] at hu
      exact htu (Option.some.inj hu)

/-- **The gate spins exactly when a queue is examined in the middle of a release.**  In a run in
which nobody finds a queue clear that a writer is leaving, no thread ever spins; and a step that
does makes its thread spin. -/
theorem gate_never_spins :
    (∀ s, (engine N R E).Run NotWhileLeaving s → ∀ t, ¬ Spins s t) ∧
      ∀ s a s', (engine N R E).Reachable s → (engine N R E).step s a = some s' →
        ¬ NotWhileLeaving s a → Spins s' a.tid := by
  refine ⟨Machine.Run.invariant (I := fun s => ∀ t, ¬ Spins s t) ?_ ?_, ?_⟩
  · rintro s ⟨-, -, -, -, hpc⟩ t ⟨ty, held, h, -⟩
    rw [hpc t] at h
    simp at h
  · intro s a s' hrun hno hok hstep
    exact not_spins_step (locksInv_of_reachable hrun.reachable) (move_of_step hstep) hno hok
  · intro s a s' hreach hstep hbad
    simp only [NotWhileLeaving, not_forall, not_not] at hbad
    obtain ⟨ty, hex, hc, hl⟩ := hbad
    obtain ⟨held, hpc⟩ := Pc.examines_eq.mp hex
    have hw := ((locksInv_of_reachable hreach).writing_iff_leaving hpc hc).mpr hl
    simp only [engine, stepThread, hpc, gateStep, hc, if_true, Option.some.injEq] at hstep
    subst hstep
    refine ⟨ty, held, by simp, ?_⟩
    simp only [State.setPc_thread, State.setPc_monitor, Function.update_self]
    exact hw

/-- Thread `0` commits with a write lock on record `1`, for which thread `1` waits as a reader.
When thread `1` examines the queue after the release, it finds `writing` lowered. -/
theorem gate_never_spins_after_release : ∃ s : State 2 3, (engine 2 3 5).Run NotWhileLeaving s ∧
    (s.thread 1).pc = .gate .R false .test ∧ ∀ t, ¬ Spins s t := by
  obtain ⟨s, hs, hp⟩ := Machine.exists_run_of_exec (M := engine 2 3 5)
    NotWhileLeaving (State.start_isInit 2 3)
    (Act.start 0 0 1 2 ++ Act.go 0 31 ++ Act.start 1 1 0 2 ++ Act.go 1 3 ++ Act.go 0 6 ++
      Act.go 1 2)
    (fun s => (s.thread 1).pc = .gate .R false .test) (by decide +kernel)
  exact ⟨s, hs, of_decide_eq_true hp, gate_never_spins.1 s hs⟩

/-- Thread `0` is committing and has just erased its write lock on record `1`; thread `1`, which
waited for it as a reader, examines the queue before `writing` is lowered. -/
theorem gate_spins : ∃ s : State 2 3, (engine 2 3 5).Reachable s ∧ Spins s 1 := by
  obtain ⟨s, hs, hp⟩ := Machine.exists_reachable_of_exec (M := engine 2 3 5)
    (State.start_isInit 2 3)
    (Act.start 0 0 1 2 ++ Act.go 0 31 ++ Act.start 1 1 0 2 ++ Act.go 1 3 ++ Act.go 0 5 ++
      Act.go 1 2)
    (fun s => (s.thread 1).pc = .gate .R false .test ∧
      (s.thread 1).i = 1 ∧ (s.monitor.lock 1).writing = true) (by decide +kernel)
  obtain ⟨hpc, hi, hw⟩ := of_decide_eq_true hp
  exact ⟨s, hs, .R, false, hpc, by simpa [Thread.index, hi] using hw⟩

end Multicore.Project2
