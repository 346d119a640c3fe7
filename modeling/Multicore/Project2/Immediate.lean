import Multicore.Project2.Progress

/-!
# Immediate grants

When `deadlock_check` answers `get`, the thread calls `getLock` with `global_mutex` still locked.
A release needs `global_mutex`, so a thread that went to sleep there would sleep for ever.  The
answer is computed from the queue alone, while the gate also tests `writing` and, for a writer,
`numReader`, which belong to another class and another mutex.

**Why they agree.**  The answer `get` says that nothing in the queue conflicts with the request.
While its thread keeps `global_mutex` no entry joins or leaves any queue (`Move.sameTables`), so
that stays true up to the return of the lock call, and no release is half done.  In such a state
the invariant of the queued lock says that the gate is open (`LocksInv.gate_open`).

* `Immediate` — the invariant, with the places of the gate that are not reached;
* **`immediate_grant_never_waits`**.
-/

namespace Multicore.Project2

open QLock

variable {N R : ℕ} {E : ℤ} {s s' : State N R} {t u : Fin N}

/-! ## The answer -/

lemma ahead_of_allReader {q : List (LockInfo N R)} {req : LockInfo N R}
    (h : allReader q req = true) : ∀ e ∈ q.takeWhile fun e => !e.same req, e.type = .R := by
  induction q with
  | nil => simp
  | cons e q ih =>
      rw [List.takeWhile_cons]
      unfold allReader at h
      by_cases hs : e.same req = true
      · simp [hs]
      · rw [if_neg hs] at h
        split_ifs at h with hty
        simp only [hs, Bool.not_false, if_true, List.mem_cons, forall_eq_or_imp]
        exact ⟨not_not.mp hty, ih h⟩

/-- The answer `get` says that nothing conflicts with the request it has queued. -/
lemma Monitor.ahead_of_get {m : Monitor N R} {r : LockInfo N R} (h : (m.deadlockCheck r).1 = .get) :
    ∀ e ∈ ((m.deadlockCheck r).2.lockRequest r.index).takeWhile fun e => !e.same r,
      e.type = .R ∧ r.type = .R := by
  rw [Monitor.deadlockCheck_queue _ _ (by simp [h]), Function.update_self]
  unfold Monitor.deadlockCheck at h
  dsimp only at h
  split_ifs at h with _ hfirst hty hall
  · -- the request is the first of its queue
    have hnil : ((m.lockRequest r.index ++ [r]).takeWhile fun e => !e.same r) = [] := by
      cases hq : m.lockRequest r.index ++ [r] with
      | nil => rfl
      | cons first rest =>
          have hs : first.same r = true := by
            rw [show (m.addDepend r).lockRequest = m.lockRequest from rfl, hq] at hfirst
            simpa using hfirst
          simp [hs]
    simp [hnil]
  · exact fun e he => ⟨ahead_of_allReader hall e he, hty⟩

/-! ## The invariant -/

/-- Does a thread at this place of the gate sleep, or is it about to or just coming from it? -/
def Gate.Waits : Gate → Prop
  | .block | .asleep | .asleepReader | .wakeReader => True
  | _ => False

/-- Nothing conflicts with a request that is in the gate while its thread has `global_mutex`, and
the thread does not wait. -/
def Immediate (s : State N R) : Prop :=
  ∀ t ty g, (s.thread t).pc = .gate ty true g →
    NoConflict IsReader (s.view ((s.thread t).index ty)).queue (t, ty) ∧ ¬ g.Waits

lemma SameTables.noConflict (h : SameTables s s') (x : Fin R) (c : Client N) :
    NoConflict IsReader (s'.view x).queue c ↔ NoConflict IsReader (s.view x).queue c :=
  noConflict_congr (by rw [view_clients, view_clients, h.clients x]) c

/-- A thread in the gate with `global_mutex` in its hands: nobody is releasing. -/
lemma Base.ne_erased_of_held (hb : Base s) {ty : LockType} {g : Gate}
    (hpc : (s.thread t).pc = .gate ty true g) (u : Fin N) (ty' : LockType) :
    (s.thread u).pc.phase ty' ≠ .erased := by
  intro her
  obtain ⟨why, r, rest, hrel, -⟩ := release_of_erased her
  by_cases hut : u = t
  · rw [hut, hpc] at hrel
    simp at hrel
  · have := hb.not_releasing (by rw [hpc]; rfl) hut
    rw [hrel] at this
    exact Bool.noConfusion this

/-- The gate is open for a request that nothing conflicts with while its thread has
`global_mutex`. -/
lemma LocksInv.gate_open_of_held (hs : LocksInv s) {ty : LockType} {g : Gate}
    (hpc : (s.thread t).pc = .gate ty true g)
    (hnc : NoConflict IsReader (s.view ((s.thread t).index ty)).queue (t, ty)) :
    checkQueue (s.monitor.lockRequest ((s.thread t).index ty)) ((s.thread t).req t ty) = true ∧
      (ty = .R ∨ ¬ g.phase.Raised →
        (s.monitor.lock ((s.thread t).index ty)).writing = false) ∧
      (ty ≠ .R → (s.monitor.lock ((s.thread t).index ty)).numReader = 0) := by
  have hph : (s.thread t).pc.phase ty = g.phase := by rw [hpc]; exact phaseUpTo_self ty _
  have hq : ((s.thread t).pc.phase ty).InQueue := by rw [hph]; cases g <;> trivial
  have hng : (s.thread t).pc.phase ty ≠ .granted := by rw [hph]; cases g <;> simp [Gate.phase]
  have hopen := hs.gate_open hq hng hnc (hs.base.ne_erased_of_held hpc)
  rwa [hph] at hopen

/-- The other threads leave an immediate grant alone. -/
lemma Immediate.other (h : Immediate s) (hs : LocksInv s) (hm : Move E s t s') (hut : u ≠ t)
    {ty : LockType} {g : Gate} (hpc : (s'.thread u).pc = .gate ty true g) :
    NoConflict IsReader (s'.view ((s'.thread u).index ty)).queue (u, ty) ∧ ¬ g.Waits := by
  have hw := hm.woken hut
  -- a thread that was woken had been asleep
  have hpc0 : (s.thread u).pc = .gate ty true g := by
    generalize hth : s'.thread u = th at hw hpc
    cases hw with
    | same => exact hpc
    | writer ty' held hold =>
        obtain ⟨rfl, rfl, -⟩ := Pc.gate.inj hpc
        exact absurd trivial (h u ty' _ hold).2
    | reader ty' held hold =>
        obtain ⟨rfl, rfl, -⟩ := Pc.gate.inj hpc
        exact absurd trivial (h u ty' _ hold).2
  have hmine := hs.base.global u (by rw [hpc0]; rfl)
  have htables : SameTables s s' := by
    refine hm.sameTables_of_not_inGlobal (Bool.eq_false_of_not_eq_true fun hg => hut ?_)
    have := hs.base.global t hg
    rw [hmine] at this
    exact Option.some.inj this
  rw [hw.index, htables.noConflict]
  exact h u ty g hpc0

/-- **Every move keeps immediate grants immediate.** -/
theorem Immediate.move (h : Immediate s) (hs : LocksInv s) (hm : Move E s t s') :
    Immediate s' := by
  intro u ty g hpc'
  by_cases hut : u ≠ t
  · exact h.other hs hm hut hpc'
  obtain rfl := not_not.mp hut
  obtain ⟨hto, hindex⟩ := hm.toGate hpc'
  rw [hindex]
  cases hto with
  | get hpc hst hmon =>
      refine ⟨hindex ▸ ((hs.base.move hm).noConflict_iff u ty).mpr fun e he => ?_, id⟩
      refine Monitor.ahead_of_get hst e ?_
      rw [State.ahead, hmon, hindex] at he
      simpa [Thread.req, hindex] using he
  | step hpc hq hn hgate =>
      obtain ⟨hnc, hawake⟩ := h u ty _ hpc
      obtain ⟨hcheck, -, hreaders⟩ := hs.gate_open_of_held hpc hnc
      refine ⟨by rw [State.view, hq]; exact hnc, fun hwaits => ?_⟩
      cases hgate with
      | blocked hc =>
          rw [hc] at hcheck
          exact Bool.noConfusion hcheck
      | wait hpos =>
          have hwriter : ty ≠ .R := (hs.lock ((s.thread u).index ty)).lock.writer (u, ty)
            (.inl (gate_phase hpc))
          rw [hreaders hwriter] at hpos
          exact absurd hpos (lt_irrefl 0)
      | sleep | wakeReader => exact hawake trivial
      | _ => exact hwaits

lemma immediate_of_reachable (hs : (engine N R E).Reachable s) : Immediate s :=
  Machine.Run.invariant (I := Immediate)
    (fun s h0 t ty g hpc => by simp [h0.2.2.2.2 t] at hpc)
    (fun _ _ _ hr hi _ hstep => hi.move (locksInv_of_reachable hr) (move_of_step hstep)) s hs

/-! ## The gate after the answer -/

/-- The three tests of the gate let a request through. -/
structure PassesGate (m : Monitor N R) (req : LockInfo N R) : Prop where
  queue : checkQueue (m.lockRequest req.index) req = true
  writing : (m.lock req.index).writing = false
  numReader : req.type ≠ .R → (m.lock req.index).numReader = 0

/-- A thread in the gate with `global_mutex` finds every test in its favour.  A writer that has
raised `writing` itself has only the readers left to wait for, and there are none. -/
structure NeverWaits (s : State N R) (t : Fin N) (ty : LockType) (g : Gate) : Prop where
  awake : ¬ g.Waits
  passes : g ≠ .drain → PassesGate s.monitor ((s.thread t).req t ty)
  drained : ty ≠ .R → (s.monitor.lock ((s.thread t).index ty)).numReader = 0

lemma neverWaits_of_reachable (hs : (engine N R E).Reachable s) {ty : LockType} {g : Gate}
    (hpc : (s.thread t).pc = .gate ty true g) : NeverWaits s t ty g := by
  obtain ⟨hnc, hawake⟩ := immediate_of_reachable hs t ty g hpc
  obtain ⟨hcheck, hwriting, hreaders⟩ := (locksInv_of_reachable hs).gate_open_of_held hpc hnc
  refine ⟨hawake, fun hg => ⟨hcheck, hwriting (.inr ?_), hreaders⟩, hreaders⟩
  cases g <;> simp_all [Gate.Waits, Gate.phase, Phase.Raised]

/-- **An immediate grant never waits under `global_mutex`.**  Whenever `deadlock_check` answers
`get`, the queue, the flag and the count let the request through, and they do so at every moment
up to the return of `getLock`. -/
theorem immediate_grant_never_waits (hs : (engine N R E).Reachable s) :
    (∀ t ty, (s.thread t).pc = .check ty →
      (s.monitor.deadlockCheck ((s.thread t).req t ty)).1 = .get →
      PassesGate (s.monitor.deadlockCheck ((s.thread t).req t ty)).2 ((s.thread t).req t ty)) ∧
    ∀ t ty g, (s.thread t).pc = .gate ty true g → NeverWaits s t ty g := by
  refine ⟨fun t ty hpc hst => ?_, fun t ty g hpc => neverWaits_of_reachable hs hpc⟩
  set s' := (s.setMonitor (s.monitor.deadlockCheck ((s.thread t).req t ty)).2).setPc t
    (.gate ty true .enter) with hdef
  have hstep : (engine N R E).step s ⟨t, .go⟩ = some s' := by
    show stepThread E s t .go = _
    unfold stepThread
    simp only [hpc]
    rw [← Prod.mk.eta (p := s.monitor.deadlockCheck ((s.thread t).req t ty)), hst]
  have hnext : NeverWaits s' t ty .enter :=
    neverWaits_of_reachable (.step hs trivial hstep) (by simp [hdef])
  simpa [hdef, Thread.req, Thread.index] using hnext.passes (by simp)

/-- Thread `0` reads record `0` and thread `1` asks to read it too. -/
theorem immediate_grant_never_waits_second_reader : ∃ s : State 2 3, (engine 2 3 5).Reachable s ∧
    s.monitor.lockRequest 0 ≠ [] ∧ (s.thread 1).pc = .check .R ∧
    (s.monitor.deadlockCheck ((s.thread 1).req 1 .R)).1 = .get ∧
    PassesGate (s.monitor.deadlockCheck ((s.thread 1).req 1 .R)).2 ((s.thread 1).req 1 .R) := by
  obtain ⟨s, hs, hp⟩ := Machine.exists_reachable_of_exec (M := engine 2 3 5)
    (State.start_isInit 2 3)
    (List.flatten [Act.start 0 0 1 2, Act.go 0 9, Act.start 1 0 1 2, Act.go 1 1])
    (fun s => s.monitor.lockRequest 0 ≠ [] ∧ (s.thread 1).pc = .check .R ∧
      (s.monitor.deadlockCheck ((s.thread 1).req 1 .R)).1 = .get) (by decide +kernel)
  obtain ⟨hq, hpc, hst⟩ := of_decide_eq_true hp
  exact ⟨s, hs, hq, hpc, hst, (immediate_grant_never_waits hs).1 1 .R hpc hst⟩

end Multicore.Project2
