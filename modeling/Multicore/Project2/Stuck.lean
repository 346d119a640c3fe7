import Multicore.Lib.Liveness
import Multicore.Project2.Commits
import Multicore.Project2.Progress

/-!
# A gate that spins hangs the engine

The loop `do writer.wait(lock, checkQueue) while (writing)` does not sleep when `checkQueue` is
true, so a thread that finds `writing` up keeps the record's `mtx`.  The only thread that could
lower the flag is the writer that has left the queue; it needs that `mtx` for it, and it waits for
it with `global_mutex` in its hands.

* `Stuck s t` — thread `t` is in that loop and a writer is leaving its record; a thread that spins
  is stuck (`Spins.stuck`);
* `Stuck.move` — no step of any thread ends it;
* **`stuck_forever`** — so from such a state on nothing is ever logged or numbered again, nobody
  gets `global_mutex`, and the threads never all return.
-/

namespace Multicore.Project2

open QLock

variable {N R : ℕ} {E : ℤ} {s s' : State N R} {t u v : Fin N} {x : Fin R}

/-! ## Stuck threads -/

/-- Thread `t` goes round the loop of the gate: the queue lets it through, and a writer that has
left the queue has not lowered `writing` yet. -/
def Stuck (s : State N R) (t : Fin N) : Prop :=
  ∃ ty held g, (s.thread t).pc = .gate ty held g ∧ (g = .check ∨ g = .test) ∧
    checkQueue (s.monitor.lockRequest ((s.thread t).index ty)) ((s.thread t).req t ty) = true ∧
    Leaving s ((s.thread t).index ty)

lemma onlyWriter_of_ahead {q : List (LockInfo N R)} {req : LockInfo N R}
    (h : ∀ e ∈ q.takeWhile fun e => !e.same req, e.type = .R ∧ e.getLock = true) :
    onlyWriter q req = true := by
  induction q with
  | nil => rfl
  | cons e q ih =>
      rw [List.takeWhile_cons] at h
      unfold onlyWriter
      by_cases hs : e.same req = true
      · rw [if_pos hs]
      · simp only [hs, Bool.not_false, if_true, List.mem_cons, forall_eq_or_imp] at h
        rw [if_neg hs, if_neg (by simp [h.1])]
        exact ih h.2

/-- The condition of the queued lock is `checkQueue`. -/
lemma checkQueue_of_clear {q : List (LockInfo N R)} {req : LockInfo N R} (hne : q ≠ [])
    (hq : ∀ e ∈ q, e.index = req.index)
    (h : Clear IsReader (q.map LockInfo.entry) (req.tid, req.type)) : checkQueue q req = true := by
  have hahead : ∀ e ∈ q.takeWhile fun e => !e.same req,
      e.type = .R ∧ (req.type ≠ .R → e.getLock = true) := by
    rw [Clear, ← map_takeWhile req hq, List.forall_mem_map] at h
    exact h
  cases q with
  | nil => exact absurd rfl hne
  | cons first q =>
      unfold checkQueue
      dsimp only
      split_ifs with hs hty
      · rfl
      · exact allReader_of_ahead fun e he => (hahead e he).1
      · exact onlyWriter_of_ahead fun e he => ⟨(hahead e he).1, (hahead e he).2 hty⟩

/-- A waiting request whose queue is clear finds the flag up only if a writer is leaving. -/
lemma LocksInv.leaving_of_writing (hs : LocksInv s) {ty : LockType}
    (hq : ((s.thread t).pc.phase ty).InQueue) (hng : (s.thread t).pc.phase ty ≠ .granted)
    (hr : ¬ ((s.thread t).pc.phase ty).Raised)
    (hc : Clear IsReader (s.view ((s.thread t).index ty)).queue (t, ty))
    (hw : (s.monitor.lock ((s.thread t).index ty)).writing = true) :
    Leaving s ((s.thread t).index ty) := by
  rw [leaving_iff hs.base]
  by_contra hno
  push Not at hno
  rw [← view_phase_index] at hq hng hr
  have hdown := (hs.lock _).not_writing_of_clear hq hng (.inr hr) hc hno
  rw [show (s.monitor.lock _).writing = false from hdown] at hw
  exact Bool.noConfusion hw

/-- At the test of `writing` the queue is still clear. -/
lemma LocksInv.clear_of_test (hs : LocksInv s) {ty : LockType} {held : Bool}
    (hpc : (s.thread t).pc = .gate ty held .test) :
    Clear IsReader (s.view ((s.thread t).index ty)).queue (t, ty) ∧
      checkQueue (s.monitor.lockRequest ((s.thread t).index ty)) ((s.thread t).req t ty)
        = true := by
  have hphase : (s.view ((s.thread t).index ty)).phase (t, ty) = .checked := gate_phase hpc
  have hclear := (hs.lock _).queue.cleared (t, ty) (by rw [hphase]; trivial)
  refine ⟨hclear, checkQueue_of_clear ?_ (hs.base.index _) hclear⟩
  have hq : ((s.thread t).pc.phase ty).InQueue := by
    rw [← view_phase_index, hphase]
    trivial
  obtain ⟨e, he, -⟩ := mem_clients.mp (hs.mem_clients_iff.mpr ⟨rfl, hq⟩)
  exact List.ne_nil_of_mem he

/-- **A thread that spins is stuck.** -/
lemma Spins.stuck (h : Spins s t) (hs : LocksInv s) : Stuck s t := by
  obtain ⟨ty, held, hpc, hw⟩ := h
  obtain ⟨hclear, hcheck⟩ := hs.clear_of_test hpc
  have hphase : (s.thread t).pc.phase ty = .checked := by
    rw [← view_phase_index]
    exact gate_phase hpc
  refine ⟨ty, held, .test, hpc, .inr rfl, hcheck, hs.leaving_of_writing ?_ ?_ ?_ hclear hw⟩ <;>
    rw [hphase]
  · trivial
  · simp
  · exact id

/-! ## No step ends it -/

/-- A thread that is awake in the gate is not woken. -/
lemma Woken.eq_of_awake {th th' : Thread N R} (h : Woken th th') {ty : LockType} {held : Bool}
    {g : Gate} (hpc : th.pc = .gate ty held g) (h1 : g ≠ .asleep) (h2 : g ≠ .asleepReader) :
    th' = th := by
  cases h with
  | same => rfl
  | writer ty' held' h => exact absurd (Pc.gate.inj (hpc.symm.trans h)).2.2 h1
  | reader ty' held' h => exact absurd (Pc.gate.inj (hpc.symm.trans h)).2.2 h2

/-- Setting a flag opens the queue further. -/
lemma onlyWriter_setGetLock {q : List (LockInfo N R)} {req r : LockInfo N R}
    (h : onlyWriter q req = true) :
    onlyWriter (q.map fun e => if e.same r then { e with getLock := true } else e) req = true := by
  induction q with
  | nil => rfl
  | cons e q ih =>
      have hsame : ∀ b, ({ e with getLock := b } : LockInfo N R).same req = e.same req :=
        fun _ => rfl
      simp only [List.map_cons, onlyWriter] at h ⊢
      split_ifs at h ⊢ with h1 h2 h3 h4 h5 <;> simp_all

lemma allReader_setGetLock {q : List (LockInfo N R)} {req r : LockInfo N R}
    (h : allReader q req = true) :
    allReader (q.map fun e => if e.same r then { e with getLock := true } else e) req = true := by
  induction q with
  | nil => rfl
  | cons e q ih =>
      have hsame : ∀ b, ({ e with getLock := b } : LockInfo N R).same req = e.same req :=
        fun _ => rfl
      simp only [List.map_cons, allReader] at h ⊢
      split_ifs at h ⊢ with h1 h2 h3 h4 h5 <;> simp_all

lemma checkQueue_setGetLock {q : List (LockInfo N R)} {req r : LockInfo N R}
    (h : checkQueue q req = true) :
    checkQueue (q.map fun e => if e.same r then { e with getLock := true } else e) req = true := by
  cases q with
  | nil => exact h
  | cons first q =>
      have hfirst : req.same (if first.same r then { first with getLock := true } else first)
          = req.same first := by
        split_ifs <;> rfl
      unfold checkQueue at h ⊢
      simp only [List.map_cons, hfirst] at h ⊢
      by_cases hs : req.same first = true
      · rw [if_pos hs]
      by_cases hty : req.type = .R
      · rw [if_neg hs, if_pos hty] at h ⊢
        exact allReader_setGetLock (q := first :: q) h
      · rw [if_neg hs, if_neg hty] at h ⊢
        exact onlyWriter_setGetLock (q := first :: q) h

/-- Outside `global_mutex` a thread changes nothing in the queues but its own flag. -/
lemma Move.checkQueue (hm : Move E s v s') (hg : (s.thread v).pc.inGlobal = false)
    {req : LockInfo N R} (h : checkQueue (s.monitor.lockRequest x) req = true) :
    Project2.checkQueue (s'.monitor.lockRequest x) req = true := by
  cases hm
  case flag ty held hpc =>
    simp only [State.setPc_monitor, State.setMonitor_monitor, Monitor.setGetLock,
      Function.update_apply]
    split_ifs with hx
    · exact checkQueue_setGetLock (hx ▸ h)
    · exact h
  case deadlock ty hpc hst | waiting ty hpc hst | get ty hpc hst =>
    rw [hpc] at hg
    exact Bool.noConfusion hg
  case erase why r rest hpc =>
    rw [hpc] at hg
    exact Bool.noConfusion hg
  case commit hpc => rwa [commitStep_lockRequest]
  case notifyOne => simpa using h
  all_goals exact h

/-- A writer that is leaving has `writing` up. -/
lemma LocksInv.writing_of_leaving (hs : LocksInv s) (h : Leaving s x) :
    (s.monitor.lock x).writing = true := by
  obtain ⟨c, hc, hphase⟩ := (leaving_iff hs.base).mp h
  exact (hs.lock x).lock.raised c hc (by rw [hphase]; trivial)

/-- A writer cannot leave while somebody else has the mutex of the record. -/
lemma Base.no_move_of_leaving (hb : Base s) (hu : (s.thread u).pc.leaving = some x)
    (ht : (s.thread t).mtx = some x) : ¬ Move E s u s' := by
  obtain ⟨why, r, rest, hpc, hty, rfl⟩ := Pc.leaving_eq.mp hu
  have howner := hb.mtx t r.index ht
  intro hm
  cases hm
  case unlockShared why' r' rest' hpc' hty' hfree =>
    obtain ⟨-, rfl, -, -⟩ := Pc.release.inj (hpc.symm.trans hpc')
    exact hty hty'
  case unlockExclusive why' r' rest' hpc' hty' hfree =>
    obtain ⟨-, rfl, -, -⟩ := Pc.release.inj (hpc.symm.trans hpc')
    rw [howner] at hfree
    simp at hfree
  case notifyAll why' r' rest' un hpc' hun =>
    obtain ⟨-, -, -, rfl⟩ := Pc.release.inj (hpc.symm.trans hpc')
    simp at hun
  all_goals exact absurd (hpc.symm.trans ‹(s.thread u).pc = _›) (by simp)

/-- What a step leaves alone while a thread is stuck. -/
structure Frozen (s s' : State N R) : Prop where
  outFile : s'.outFile = s.outFile
  order : s'.globalExecutionOrder = s.globalExecutionOrder
  global : s'.globalMutex = s.globalMutex

/-- The stuck thread itself goes round its loop. -/
lemma Stuck.move_self (h : Stuck s t) (hs : LocksInv s) (hm : Move E s t s') :
    Stuck s' t ∧ Frozen s s' := by
  obtain ⟨ty, held, g, hpc, hg, hcheck, hleaving⟩ := h
  have hw := hs.writing_of_leaving hleaving
  have next : ∀ g', (g' = .check ∨ g' = .test) →
      Stuck (s.setPc t (.gate ty held g')) t ∧ Frozen s (s.setPc t (.gate ty held g')) := by
    intro g' hg'
    obtain ⟨u, hu⟩ := hleaving
    have hut : u ≠ t := by
      rintro rfl
      simp [hpc, Pc.leaving] at hu
    refine ⟨⟨ty, held, g', by simp, hg', ?_, u, ?_⟩, rfl, rfl, rfl⟩ <;>
      rw [State.setPc_thread, Function.update_self]
    · exact hcheck
    · rw [Function.update_of_ne hut]
      exact hu
  cases hm
  case clear ty' held' hpc' hc =>
    obtain ⟨rfl, rfl, -⟩ := Pc.gate.inj (hpc.symm.trans hpc')
    exact next .test (.inr rfl)
  case spin ty' held' hpc' hw' =>
    obtain ⟨rfl, rfl, -⟩ := Pc.gate.inj (hpc.symm.trans hpc')
    exact next .check (.inl rfl)
  case blocked ty' held' hpc' hc =>
    obtain ⟨rfl, -, -⟩ := Pc.gate.inj (hpc.symm.trans hpc')
    rw [hcheck] at hc
    exact Bool.noConfusion hc
  case pass ty' held' hpc' hw' =>
    obtain ⟨rfl, -, -⟩ := Pc.gate.inj (hpc.symm.trans hpc')
    rw [hw] at hw'
    exact Bool.noConfusion hw'
  all_goals
    have hbad := hpc.symm.trans ‹(s.thread t).pc = _›
    rcases hg with rfl | rfl <;> simp at hbad

/-- **No step of any thread ends it**, and nothing is logged or numbered meanwhile. -/
theorem Stuck.move (h : Stuck s t) (hs : LocksInv s) (hm : Move E s v s') :
    Stuck s' t ∧ Frozen s s' := by
  by_cases hvt : v = t
  · subst hvt
    exact h.move_self hs hm
  obtain ⟨ty, held, g, hpc, hg, hcheck, u, hu⟩ := h
  have hmtx : (s.thread t).mtx = some ((s.thread t).index ty) := by
    rw [Thread.mtx_gate hpc]
    rcases hg with rfl | rfl <;> rfl
  have hvu : v ≠ u := by
    rintro rfl
    exact hs.base.no_move_of_leaving hu hmtx hm
  -- the leaving writer has `global_mutex`, so the thread that moves has not
  obtain ⟨why, r, rest, hrel, -, -⟩ := Pc.leaving_eq.mp hu
  have hglobal : s.globalMutex = some u := hs.base.global u (by rw [hrel]; rfl)
  have hout : (s.thread v).pc.inGlobal = false := by
    refine Bool.eq_false_of_not_eq_true fun hin => hvu ?_
    have := hs.base.global v hin
    rw [hglobal] at this
    exact (Option.some.inj this).symm
  have hth : s'.thread t = s.thread t :=
    (hm.woken (Ne.symm hvt)).eq_of_awake hpc (by rcases hg with rfl | rfl <;> simp)
      (by rcases hg with rfl | rfl <;> simp)
  have hpcu : (s'.thread u).pc = (s.thread u).pc := by
    rw [hrel]
    exact ((hm.woken (Ne.symm hvu)).pc_eq (by simp)).mpr hrel
  have hcommit : (s.thread v).pc ≠ .commit := by
    intro hc
    rw [hc] at hout
    exact Bool.noConfusion hout
  obtain ⟨horder, hlog, -⟩ := hm.count hcommit
  refine ⟨⟨ty, held, g, by rw [hth]; exact hpc, hg, ?_, u, by rw [hpcu, hth]; exact hu⟩, hlog,
    horder, ?_⟩
  · rw [hth]
    exact hm.checkQueue hout hcheck
  · rw [hglobal]
    exact (hs.base.move hm).global u (by rw [hpcu, hrel]; rfl)

/-! ## For ever -/

/-- Every thread has returned. -/
def Finished (s : State N R) : Prop := ∀ t, ∃ b, (s.thread t).pc = .exited b

lemma Stuck.not_finished (h : Stuck s t) : ¬ Finished s := by
  intro hfin
  obtain ⟨ty, held, g, hpc, -⟩ := h
  obtain ⟨b, hb⟩ := hfin t
  simp [hpc] at hb

/-- **A gate that spins hangs the engine.**  From a reachable state in which a thread is stuck,
whatever the threads do: it stays stuck, the log and the commit counter stay as they are,
`global_mutex` stays with the thread that has it, and the threads never all return. -/
theorem stuck_forever (hs : (engine N R E).Reachable s) (h : Stuck s t)
    (hrun : ((engine N R E).startAt s).Reachable s') :
    Stuck s' t ∧ ¬ Finished s' ∧ s'.outFile = s.outFile ∧
      s'.globalExecutionOrder = s.globalExecutionOrder ∧
      s'.globalMutex = s.globalMutex ∧ s.globalMutex ≠ none := by
  have hinv : (engine N R E).Reachable s' ∧ Stuck s' t ∧ Frozen s s' := by
    refine Machine.Run.stays
      (I := fun s' => (engine N R E).Reachable s' ∧ Stuck s' t ∧ Frozen s s') ?_
      ⟨hs, h, rfl, rfl, rfl⟩ hrun
    rintro s₁ a s₂ ⟨hr, hst, hfr⟩ hstep
    obtain ⟨hst', hfr'⟩ := hst.move (locksInv_of_reachable hr) (move_of_step hstep)
    exact ⟨.step hr trivial hstep, hst', hfr'.outFile.trans hfr.outFile,
      hfr'.order.trans hfr.order, hfr'.global.trans hfr.global⟩
  obtain ⟨-, hst, hfr⟩ := hinv
  refine ⟨hst, hst.not_finished, hfr.outFile, hfr.order, hfr.global, ?_⟩
  obtain ⟨ty, held, g, -, -, -, u, hu⟩ := h
  obtain ⟨why, r, rest, hrel, -, -⟩ := Pc.leaving_eq.mp hu
  rw [(locksInv_of_reachable hs).base.global u (by rw [hrel]; rfl)]
  simp

/-- Thread `0` is committing and has just erased its write lock on record `1`; thread `1`, which
waited for it as a reader, has examined the queue and tests `writing`. -/
theorem stuck_forever_committing_writer :
    ∃ s : State 2 3, (engine 2 3 5).Reachable s ∧ Stuck s 1 ∧
      ∀ s', ((engine 2 3 5).startAt s).Reachable s' → s'.outFile = [] ∧ ¬ Finished s' := by
  obtain ⟨s, hs, hp⟩ := Machine.exists_reachable_of_exec (M := engine 2 3 5)
    (State.start_isInit 2 3)
    (List.flatten [Act.start 0 0 1 2, Act.go 0 31, Act.start 1 1 0 2, Act.go 1 3, Act.go 0 5,
      Act.go 1 2])
    (fun s => (s.thread 1).pc = .gate .R false .test ∧ s.outFile = [] ∧
      (s.monitor.lock ((s.thread 1).index .R)).writing = true) (by decide +kernel)
  obtain ⟨hpc, hout, hw⟩ := of_decide_eq_true hp
  have hspins : Spins s 1 := ⟨.R, false, hpc, hw⟩
  have hstuck := hspins.stuck (locksInv_of_reachable hs)
  refine ⟨s, hs, hstuck, fun s' hrun => ?_⟩
  obtain ⟨-, hfin, hlog, -⟩ := stuck_forever hs hstuck hrun
  exact ⟨hlog.trans hout, hfin⟩

end Multicore.Project2
