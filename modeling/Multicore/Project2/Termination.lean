import Multicore.Project2.Serializability
import Multicore.Project2.Stuck
import Multicore.Project2.Wakeup
import Multicore.Project2.Immediate

/-!
# The engine can finish unless a gate spins

`stuck_forever` names one way in which the engine hangs.  This file shows that it is the only one:
from every reachable state in which nobody is stuck there is a schedule, without any spurious
wake-up, after which every thread has returned and the commit counter has reached `E`.

**Why.**  Attempts that have begun can be brought to their end one step at a time, and each step
lowers `State.work`, a bound for the steps that are left.  Who moves is decided by what is held:

* a thread inside a record's `mtx` comes out of it, since it is not stuck;
* then the thread inside `global_mutex` comes out of it, since every `mtx` is free;
* then every thread outside the gates can move, since `global_mutex` is free as well;
* if all that is left are sleepers, then the dependency graph has a cycle, which it has not
  (`exists_step`).

After that, with nobody inside an attempt, a thread that runs alone commits, and once the counter
has reached `E` every thread leaves its loop.
-/

namespace Multicore.Project2

open QLock

variable {N R : ℕ} {E : ℤ} {s s' : State N R} {t u v : Fin N} {x : Fin R}

/-! ## A bound for the steps that are left -/

/-- The steps left inside the gate. -/
def Gate.work : Gate → ℕ
  | .enter => 12
  | .check => 11
  | .block | .test => 10
  | .asleep | .pass | .wakeReader => 9
  | .drain => 8
  | .asleepReader => 6

/-- What one release costs: its own steps, and the steps of the sleepers it wakes. -/
def releaseWork (N : ℕ) : ℕ := 3 * N + 4

/-- The steps left after the lock of this type has been used. -/
def LockType.work (N : ℕ) : LockType → ℕ
  | .R => 3 * releaseWork N + 34
  | .W1 => 3 * releaseWork N + 19
  | .W2 => 3 * releaseWork N + 4

/-- The steps left inside `releaseLock`. -/
def Unlock.work (N : ℕ) : Unlock → ℕ
  | .erase => releaseWork N
  | .mutex => releaseWork N - 1
  | .notifyShared _ _ | .notifyExclusive => releaseWork N - 2

/-- The steps left to a thread until it has returned, if it begins no other attempt. -/
def Pc.work : Pc N R → ℕ
  | .exited _ => 0
  | .loop => 1
  | .unlockLoop | .unlockExit => 2
  | .commit => 3
  | .release _ _ rest u => u.work N + releaseWork N * rest.length + 3
  | .lockCommit => LockType.W2.work N
  | .write ty => ty.work N + 1
  | .read ty => ty.work N + 2
  | .unlock ty => ty.work N + 3
  | .relock ty => ty.work N + 4
  | .flag ty _ => ty.work N + 5
  | .gate ty _ g => ty.work N + g.work
  | .unlockWait ty => ty.work N + 13
  | .check ty => ty.work N + 14
  | .request ty => ty.work N + 15

/-- The steps left to all threads. -/
def State.work (s : State N R) : ℕ := ∑ u, (s.thread u).pc.work

lemma nextRelease_work (why : Why) (l : List (LockInfo N R)) :
    (nextRelease why l).work ≤ releaseWork N * l.length + 3 := by
  cases l with
  | nil => cases why <;> simp [nextRelease, Pc.work]
  | cons r rest =>
      simp only [nextRelease, Pc.work, Unlock.work, List.length_cons]
      linarith

/-- Waking a thread up costs it three steps at most. -/
lemma Woken.work {th th' : Thread N R} (h : Woken th th') : th'.pc.work ≤ th.pc.work + 3 := by
  cases h with
  | same => exact Nat.le_add_right _ _
  | writer ty held h => simp [h, Pc.work, Gate.work]
  | reader ty held h => simp [h, Pc.work, Gate.work]

/-- The step is not a spurious wake-up. -/
def NotSpurious (s : State N R) (a : Act N R) : Prop :=
  ∀ ty held, (s.thread a.tid).pc ≠ .gate ty held .asleep ∧
    (s.thread a.tid).pc ≠ .gate ty held .asleepReader

/-- A step after which its thread has less to do and the others are as they were. -/
lemma work_of_update {th : Thread N R} (hth : s'.thread = Function.update s.thread t th)
    (hlt : th.pc.work < (s.thread t).pc.work) :
    (s'.thread t).pc.work + 3 * N < (s.thread t).pc.work ∨
      (s'.thread t).pc.work < (s.thread t).pc.work ∧ ∀ u, u ≠ t → s'.thread u = s.thread u := by
  refine .inr ⟨?_, fun u hu => ?_⟩ <;> rw [hth]
  · rwa [Function.update_self]
  · rw [Function.update_of_ne hu]

/-- What the work of one thread becomes in a step that is neither the start of an attempt nor a
wake-up nor a turn of the loop in the gate.  A notification costs enough to pay for everybody it
wakes. -/
lemma Move.work_self (h : Move E s t s') (ho : Own t (s.thread t))
    (hloop : (s.thread t).pc = .loop → ¬ s.globalExecutionOrder < E)
    (hspin : ∀ ty held, (s.thread t).pc = .gate ty held .test →
      (s.monitor.lock ((s.thread t).index ty)).writing = false)
    (hawake : ∀ ty held, (s.thread t).pc ≠ .gate ty held .asleep ∧
      (s.thread t).pc ≠ .gate ty held .asleepReader) :
    (s'.thread t).pc.work + 3 * N < (s.thread t).pc.work ∨
      (s'.thread t).pc.work < (s.thread t).pc.work ∧
        ∀ u, u ≠ t → s'.thread u = s.thread u := by
  have notified : ∀ {why : Why} {r : LockInfo N R} {rest : List (LockInfo N R)} {un : Unlock},
      (s.thread t).pc = .release why r rest un → un.work N = releaseWork N - 2 →
      (nextRelease why rest).work + 3 * N < (s.thread t).pc.work := by
    intro why r rest un hpc hun
    have := nextRelease_work why rest
    rw [hpc, Pc.work, hun, releaseWork] at *
    omega
  cases h
  case attempt i j k hpc hE hij hik hjk => exact absurd hE (hloop hpc)
  case wake ty held hpc => exact absurd hpc (hawake ty held).1
  case wakeReader ty held hpc => exact absurd hpc (hawake ty held).2
  case spin ty held hpc hw =>
    rw [hspin ty held hpc] at hw
    exact Bool.noConfusion hw
  case deadlock ty hpc hst =>
    have hhav := congrArg List.length (ho.having ty.earlier (by rw [hpc]; rfl))
    have hnext := nextRelease_work .abort (s.thread t).havingLocks
    rw [hhav, List.length_map] at hnext
    cases ty with
    | R =>
        refine work_of_update rfl ?_
        simp [hpc, Pc.work]
    | W1 | W2 =>
        refine work_of_update rfl (hnext.trans_lt ?_)
        simp only [hpc, Pc.work, LockType.work, LockType.earlier, List.length_cons,
          List.length_nil]
        omega
  case flag ty held hpc =>
    refine work_of_update rfl ?_
    cases held <;> simp [hpc, Pc.work]
  case lockCommit hpc hg =>
    have hhav := congrArg List.length (ho.having [.R, .W1, .W2] (by rw [hpc]; rfl))
    have hnext := nextRelease_work .commit (s.thread t).havingLocks
    rw [hhav, List.length_map] at hnext
    refine work_of_update rfl (hnext.trans_lt ?_)
    simp only [hpc, Pc.work, LockType.work, List.length_cons, List.length_nil]
    omega
  case notifyOne why r rest n w u hpc hw hn hu =>
    left
    rw [State.setPc_thread, Function.update_self]
    exact notified hpc rfl
  case notifyNone why r rest n w hpc hw hu =>
    left
    rw [State.setPc_thread, Function.update_self]
    exact notified hpc rfl
  case notifyAll why r rest un hpc hun =>
    left
    rw [State.setPc_thread, Function.update_self]
    exact notified hpc (by rcases hun with rfl | ⟨n, rfl⟩ <;> rfl)
  case commit hpc =>
    refine work_of_update (commitStep_thread E s t) ?_
    rcases commitPc_cases E s with hq | hq <;> simp [hq, hpc, Pc.work]
  case erase why r rest hpc | unlockShared why r rest hpc hty hm
      | unlockExclusive why r rest hpc hty hm =>
    refine work_of_update rfl ?_
    simp only [hpc, Pc.work, Unlock.work, releaseWork]
    omega
  all_goals
    refine work_of_update rfl ?_
    simp [‹(s.thread t).pc = _›, Pc.work, Gate.work, LockType.work]

/-- **Every such step lowers the work that is left.** -/
lemma Move.work_lt (h : Move E s t s') (ho : Own t (s.thread t))
    (hloop : (s.thread t).pc = .loop → ¬ s.globalExecutionOrder < E)
    (hspin : ∀ ty held, (s.thread t).pc = .gate ty held .test →
      (s.monitor.lock ((s.thread t).index ty)).writing = false)
    (hawake : ∀ ty held, (s.thread t).pc ≠ .gate ty held .asleep ∧
      (s.thread t).pc ≠ .gate ty held .asleepReader) : s'.work < s.work := by
  unfold State.work
  rw [← Finset.add_sum_erase _ _ (Finset.mem_univ t),
    ← Finset.add_sum_erase _ _ (Finset.mem_univ t)]
  rcases h.work_self ho hloop hspin hawake with hpaid | ⟨hlt, hsame⟩
  · have hothers : ∑ u ∈ Finset.univ.erase t, (s'.thread u).pc.work ≤
        ∑ u ∈ Finset.univ.erase t, ((s.thread u).pc.work + 3) :=
      Finset.sum_le_sum fun u hu => (h.woken (Finset.ne_of_mem_erase hu)).work
    rw [Finset.sum_add_distrib, Finset.sum_const, smul_eq_mul] at hothers
    have hcard : (Finset.univ.erase t).card ≤ N := by simp
    omega
  · have hothers : ∑ u ∈ Finset.univ.erase t, (s'.thread u).pc.work =
        ∑ u ∈ Finset.univ.erase t, (s.thread u).pc.work :=
      Finset.sum_congr rfl fun u hu => by rw [hsame u (Finset.ne_of_mem_erase hu)]
    omega

/-! ## Who can move -/

/-- Whoever owns the `mtx` of a record is inside one of its critical sections. -/
lemma mtx_of_owner (hs : (engine N R E).Reachable s) :
    ∀ u x, (s.monitor.lock x).mtx = some u → (s.thread u).mtx = some x := by
  refine Machine.Run.invariant
    (I := fun s => ∀ u x, (s.monitor.lock x).mtx = some u → (s.thread u).mtx = some x)
    (fun s h0 u x hx => ?_) (fun s a s' _ hi _ hstep => ?_) s hs
  · simp [h0.2.2.1, Monitor.init, Monitor.lock] at hx
  · have hm := move_of_step hstep
    exact MutexStep.claimed (fun u => (s.thread u).mtx) (fun u => (s'.thread u).mtx) hm.mtx hi
      fun u hu => (hm.woken hu).mtx

lemma nextRelease_ne_write (why : Why) (l : List (LockInfo N R)) (ty : LockType) :
    nextRelease why l ≠ .write ty := by
  cases l <;> cases why <;> simp [nextRelease]

/-- Record `i` is only read. -/
lemma ne_write_R (hs : (engine N R E).Reachable s) : ∀ t, (s.thread t).pc ≠ .write .R := by
  refine Machine.Run.invariant (I := fun s => ∀ t, (s.thread t).pc ≠ .write .R)
    (fun s h0 t => by simp [h0.2.2.2.2 t]) (fun s a s' _ hi _ hstep t => ?_) s hs
  have hm := move_of_step hstep
  by_cases hta : t = a.tid
  · subst hta
    cases hm
    case commit hpc => rcases commitPc_cases E s with hq | hq <;> simp [hq]
    case deadlock ty hpc hst => cases ty <;> simp [onDeadlock, nextRelease_ne_write]
    case flag ty held hpc => cases held <;> simp
    all_goals simp [nextRelease_ne_write]
  · rw [ne_eq, (hm.woken hta).pc_eq (by simp)]
    exact hi t

lemma gateStep_isSome {ty : LockType} {held : Bool} {g : Gate}
    (h : g.inMtx = true ∨ (s.monitor.lock ((s.thread t).index ty)).mtx = none) :
    (gateStep s t ty held g).isSome = true := by
  cases g <;> simp only [gateStep]
  case enter | wakeReader =>
    rw [if_pos (h.resolve_left (by simp [Gate.inMtx]))]
    rfl
  case check | test | pass => split_ifs <;> rfl
  all_goals rfl

/-- `notify_one` finds a sleeper, or there is none. -/
lemma releaseStep_isSome {why : Why} {r : LockInfo N R} {rest : List (LockInfo N R)} {un : Unlock}
    (h : (s.monitor.lock r.index).mtx = none) :
    ∃ c, (releaseStep s t c why r rest un).isSome = true := by
  cases un with
  | erase => exact ⟨.go, rfl⟩
  | mutex =>
      refine ⟨.go, ?_⟩
      simp only [releaseStep, if_pos h]
      split_ifs <;> rfl
  | notifyShared n w =>
      by_cases hu : ∃ u, s.sleepsReader r.index u = true
      · obtain ⟨u, hu⟩ := hu
        refine ⟨.one u, ?_⟩
        simp only [releaseStep, hu, if_true]
        split_ifs <;> rfl
      · refine ⟨.go, ?_⟩
        simp only [releaseStep, if_neg hu]
        split_ifs <;> rfl
  | notifyExclusive => exact ⟨.go, rfl⟩

/-- **A thread in an attempt can move** when it is inside a record's `mtx`, and otherwise when
these mutexes are free and it is inside `global_mutex` or that one is free too. -/
lemma exists_step (hpc : (s.thread t).pc.InAttempt) (hwrite : (s.thread t).pc ≠ .write .R)
    (hfree : (s.thread t).mtx = none → (∀ x, (s.monitor.lock x).mtx = none) ∧
      ((s.thread t).pc.inGlobal = true ∨ s.globalMutex = none)) :
    ∃ c, (stepThread E s t c).isSome = true := by
  have hmtx : (∀ ty held g, (s.thread t).pc ≠ .gate ty held g) →
      ∀ x, (s.monitor.lock x).mtx = none := fun h => (hfree (Thread.mtx_eq_none h)).1
  have hglobal : (s.thread t).pc.inGlobal = false →
      (∀ ty held g, (s.thread t).pc ≠ .gate ty held g) → s.globalMutex = none := fun hg h =>
    (hfree (Thread.mtx_eq_none h)).2.resolve_left (by simp [hg])
  cases hp : (s.thread t).pc with
  | loop | exited b => simp [hp, Pc.InAttempt] at hpc
  | request ty | relock ty =>
      exact ⟨.go, by simp [stepThread, hp, hglobal (by rw [hp]; rfl) (by simp [hp])]⟩
  | lockCommit => exact ⟨.go, by simp [stepThread, hp, hglobal (by rw [hp]; rfl) (by simp [hp])]⟩
  | check ty =>
      refine ⟨.go, ?_⟩
      simp only [stepThread, hp]
      split <;> rfl
  | gate ty held g =>
      refine ⟨.go, ?_⟩
      simp only [stepThread, hp]
      refine gateStep_isSome ?_
      by_cases hg : g.inMtx = true
      · exact .inl hg
      · exact .inr ((hfree (by rw [Thread.mtx_gate hp, if_neg hg])).1 _)
  | release why r rest un =>
      simp only [stepThread, hp]
      exact releaseStep_isSome (hmtx (by simp [hp]) _)
  | read ty => exact ⟨.go, by cases ty <;> simp [stepThread, hp]⟩
  | write ty =>
      cases ty with
      | R => exact absurd hp hwrite
      | W1 | W2 => exact ⟨.go, by simp [stepThread, hp]⟩
  | _ => exact ⟨.go, by simp [stepThread, hp]⟩

/-! ## Nobody gets stuck -/

/-- The moves inside the gate leave the queues alone. -/
lemma Move.queue_of_gate (hm : Move E s t s') {ty : LockType} {held : Bool} {g : Gate}
    (hpc : (s.thread t).pc = .gate ty held g) :
    s'.monitor.lockRequest = s.monitor.lockRequest ∧
      ∀ why r rest un, (s'.thread t).pc ≠ .release why r rest un := by
  cases hm
  case clear | blocked | enter | sleep | wake | spin | pass | share | raise | wait | grant
      | wakeReader | reenter => exact ⟨rfl, by simp⟩
  all_goals
    have hbad := hpc.symm.trans ‹(s.thread t).pc = _›
    simp at hbad

/-- A thread that has the `mtx` of a record is at a place of the gate. -/
lemma gate_of_mtx (h : (s.thread t).mtx ≠ none) :
    ∃ ty held g, (s.thread t).pc = .gate ty held g ∧ g.inMtx = true := by
  by_contra hno
  push Not at hno
  refine h ?_
  unfold Thread.mtx
  split
  · rename_i ty held g hpc
    rw [if_neg (hno ty held g hpc)]
  · rfl

/-- The writer that is leaving a record after a step of another thread was leaving it before. -/
lemma Move.leaving_other (hm : Move E s t s') (hut : u ≠ t)
    (h : (s'.thread u).pc.leaving = some x) : (s.thread u).pc.leaving = some x := by
  obtain ⟨why, r, rest, hrel, hty, hx⟩ := Pc.leaving_eq.mp h
  exact Pc.leaving_eq.mpr ⟨why, r, rest, (hm.release_iff hut).mp hrel, hty, hx⟩

/-- A step inside a record's `mtx` makes nobody stuck who was not. -/
lemma Stuck.of_move_mtx (h : Stuck s' u) (hm : Move E s t s') (hmtx : (s.thread t).mtx ≠ none) :
    Stuck s u := by
  obtain ⟨ty₀, held₀, g₀, hpc₀, hg₀⟩ := gate_of_mtx hmtx
  obtain ⟨hqueue, hrelease⟩ := hm.queue_of_gate hpc₀
  obtain ⟨ty, held, g, hpc', hg, hcheck, v, hv⟩ := h
  have hvt : v ≠ t := by
    rintro rfl
    obtain ⟨why, r, rest, hrel, -⟩ := Pc.leaving_eq.mp hv
    exact hrelease why r rest _ hrel
  have hv := hm.leaving_other hvt hv
  by_cases hut : u = t
  · subst hut
    obtain ⟨hto, hindex⟩ := hm.toGate hpc'
    have hreq : (s'.thread u).req u ty = (s.thread u).req u ty := by
      simp only [Thread.req, hindex]
    rw [hreq, hqueue, hindex] at hcheck
    rw [hindex] at hv
    cases hto with
    | get hpc | unlockWait hpc => simp [hpc] at hpc₀
    | step hpc hq hn hgate =>
        obtain ⟨rfl, rfl, rfl⟩ := Pc.gate.inj (hpc₀.symm.trans hpc)
        cases hgate with
        | clear => exact ⟨_, _, _, hpc, .inl rfl, hcheck, v, hv⟩
        | spin => exact ⟨_, _, _, hpc, .inr rfl, hcheck, v, hv⟩
        | enter => simp [Gate.inMtx] at hg₀
        | _ => simp at hg
  · have hth := hm.eq_of_gate hut hpc' (by rcases hg with rfl | rfl <;> simp)
      (by rcases hg with rfl | rfl <;> simp)
    rw [hth] at hpc' hcheck hv
    rw [hqueue] at hcheck
    exact ⟨ty, held, g, hpc', hg, hcheck, v, hv⟩

/-- Where every record mutex is free, a step makes nobody stuck: the thread that enters a gate
finds no writer leaving, since that one would be inside `global_mutex`. -/
lemma Move.not_stuck (hm : Move E s t s') (hb : Base s) (hmtx : ∀ u, (s.thread u).mtx = none)
    (hglobal : (s.thread t).pc.inGlobal = true ∨ ∀ u, (s.thread u).pc.inGlobal = false) :
    ¬ Stuck s' u := by
  rintro ⟨ty, held, g, hpc', hg, -, v, hv⟩
  have hout : ∀ ty held g, (s.thread u).pc = .gate ty held g → g.inMtx = false := by
    intro ty held g hpc
    have := hmtx u
    rw [Thread.mtx_gate hpc] at this
    simpa using this
  by_cases hut : u = t
  · subst hut
    obtain ⟨hto, -⟩ := hm.toGate hpc'
    have hvu : v ≠ u := by
      rintro rfl
      simp [hpc', Pc.leaving] at hv
    obtain ⟨why, r, rest, hrel, -⟩ := Pc.leaving_eq.mp (hm.leaving_other hvu hv)
    have hin : (s.thread v).pc.inGlobal = true := by rw [hrel]; rfl
    rcases hglobal with hmine | hnone
    · have howner := hb.global v hin
      rw [hb.global u hmine] at howner
      exact hvu (Option.some.inj howner).symm
    · rw [hnone v] at hin
      exact Bool.noConfusion hin
  · have hth := hm.eq_of_gate hut hpc' (by rcases hg with rfl | rfl <;> simp)
      (by rcases hg with rfl | rfl <;> simp)
    rw [hth] at hpc'
    have := hout ty held g hpc'
    rcases hg with rfl | rfl <;> simp [Gate.inMtx] at this

/-! ## Sleepers alone -/

/-- A sleeper waits for an entry before its own, when nobody is inside `global_mutex`. -/
lemma waitsFor_of_asleep (hs : (engine N R E).Reachable s)
    (hglobal : ∀ u, (s.thread u).pc.inGlobal = false) {ty : LockType} {held : Bool} {g : Gate}
    (hpc : (s.thread t).pc = .gate ty held g) (hg : g = .asleep ∨ g = .asleepReader) :
    ∃ u, s.WaitsFor t u := by
  have hinv := locksInv_of_reachable hs
  have hwake := wakeups_of_reachable hs
  have hrel : ∀ v why r rest un, (s.thread v).pc ≠ .release why r rest un := by
    intro v why r rest un hv
    have := hglobal v
    rw [hv] at this
    exact Bool.noConfusion this
  have herased : ∀ v ty, (s.thread v).pc.phase ty ≠ .erased := by
    intro v ty' her
    obtain ⟨why, r, rest, hv, -⟩ := release_of_erased her
    exact hrel v why r rest _ hv
  have hphase := gate_phase hpc
  have hq : ((s.thread t).pc.phase ty).InQueue := by
    rw [← view_phase_index, hphase]
    rcases hg with rfl | rfl <;> trivial
  by_contra hno
  push Not at hno
  have hnc := hinv.noConflict hno hq
  rcases hg with rfl | rfl
  · rcases hwake.asleep t ty held hpc with (hcon | ⟨d, hd⟩) | ⟨v, why, r, rest, un, hv, -⟩
    · exact hcon hnc
    · exact view_ne_erased herased _ d hd
    · exact hrel v why r rest un hv
  · rcases hwake.drain t ty held hpc with hpos | ⟨v, why, r, rest, hv, -⟩
    · have hlock := hinv.lock ((s.thread t).index ty)
      have hwriter := hlock.lock.writer (t, ty) (.inr hphase)
      have hzero := hlock.numReader_eq_zero hwriter (by rw [hphase]; trivial) hnc
        (view_ne_erased herased _)
      exact absurd hpos (by rw [show (s.monitor.lock _).numReader = 0 from hzero]; simp)
    · exact hrel v why r rest _ hv

/-- A thread with an entry in a queue is inside an attempt. -/
lemma inAttempt_of_inQueue {pc : Pc N R} {ty : LockType} (h : (pc.phase ty).InQueue) :
    pc.InAttempt := by
  cases pc <;> trivial

/-- **Not everybody sleeps.** -/
lemma exists_awake (hs : (engine N R E).Reachable s)
    (hglobal : ∀ u, (s.thread u).pc.inGlobal = false) (h : ∃ t, (s.thread t).pc.InAttempt) :
    ∃ t, (s.thread t).pc.InAttempt ∧ ∀ ty held, (s.thread t).pc ≠ .gate ty held .asleep ∧
      (s.thread t).pc ≠ .gate ty held .asleepReader := by
  have hinv := locksInv_of_reachable hs
  have htab := tables_of_reachable hs
  have hnot : ∀ u, (s.thread u).pc.releasing = false := by
    intro u
    refine Bool.eq_false_of_not_eq_true fun hrel => ?_
    have := Pc.releasing_inGlobal hrel
    rw [hglobal u] at this
    exact Bool.noConfusion this
  have hgraph : ∀ a b, s.Edge a b ↔ s.WaitsFor a b := fun a b =>
    (and_iff_left (hnot a)).trans (htab.depend a b (hnot a) (hnot b))
  -- the threads inside an attempt follow the edges of the graph, so one of them waits for nobody
  obtain ⟨t, ht, hsink⟩ := htab.acyclic.exists_sink
    (S := fun t => (s.thread t).pc.InAttempt) h fun a _ b hab => by
      obtain ⟨x, hx⟩ := (hgraph a b).mp hab
      obtain ⟨ty, hty⟩ := hx.mem.2
      exact inAttempt_of_inQueue (hinv.mem_clients_iff.mp hty).2
  have hfree : ¬ ∃ u, s.WaitsFor t u := by
    rintro ⟨u, hu⟩
    exact hsink u ((hgraph t u).mpr hu)
  refine ⟨t, ht, fun ty held => ⟨fun hpc => ?_, fun hpc => ?_⟩⟩
  · exact hfree (waitsFor_of_asleep hs hglobal hpc (.inl rfl))
  · exact hfree (waitsFor_of_asleep hs hglobal hpc (.inr rfl))

/-! ## Attempts come to their end -/

/-- Nobody is inside an attempt. -/
def Quiet (s : State N R) : Prop := ∀ t, ¬ (s.thread t).pc.InAttempt

/-- Whom to let move: a thread inside a record's `mtx` if there is one, else the thread inside
`global_mutex`, else any thread that does not sleep. -/
lemma exists_mover (hs : (engine N R E).Reachable s) (hbusy : ¬ Quiet s) :
    ∃ t, (s.thread t).pc.InAttempt ∧
      (∀ ty held, (s.thread t).pc ≠ .gate ty held .asleep ∧
        (s.thread t).pc ≠ .gate ty held .asleepReader) ∧
      ((s.thread t).mtx ≠ none ∨ (∀ u, (s.thread u).mtx = none) ∧
        ((s.thread t).pc.inGlobal = true ∨ ∀ u, (s.thread u).pc.inGlobal = false)) := by
  have hwaits := immediate_of_reachable hs
  by_cases hmtx : ∃ t, (s.thread t).mtx ≠ none
  · obtain ⟨t, ht⟩ := hmtx
    obtain ⟨ty, held, g, hpc, hg⟩ := gate_of_mtx ht
    refine ⟨t, by rw [hpc]; trivial, fun ty' held' => ?_, .inl ht⟩
    rw [hpc]
    constructor <;>
      · rintro h
        obtain ⟨-, -, rfl⟩ := Pc.gate.inj h
        simp [Gate.inMtx] at hg
  push Not at hmtx
  by_cases hglobal : ∃ t, (s.thread t).pc.inGlobal = true
  · obtain ⟨t, ht⟩ := hglobal
    refine ⟨t, ?_, fun ty held => ⟨fun hpc => ?_, fun hpc => ?_⟩, .inr ⟨hmtx, .inl ht⟩⟩
    · cases hpc : (s.thread t).pc <;> first | trivial | (rw [hpc] at ht; simp [Pc.inGlobal] at ht)
    all_goals
      rw [hpc] at ht
      obtain rfl : held = true := ht
      exact (hwaits t ty _ hpc).2 trivial
  · have hnone : ∀ u, (s.thread u).pc.inGlobal = false := fun u =>
      Bool.eq_false_of_not_eq_true fun hu => hglobal ⟨u, hu⟩
    have hex : ∃ t, (s.thread t).pc.InAttempt := by
      simpa [Quiet] using hbusy
    obtain ⟨t, ht, hawake⟩ := exists_awake hs hnone hex
    exact ⟨t, ht, hawake, .inr ⟨hmtx, .inr hnone⟩⟩

/-- A reachable state in which nobody is stuck. -/
def Live (E : ℤ) (s : State N R) : Prop := (engine N R E).Reachable s ∧ ∀ t, ¬ Stuck s t

/-- **As long as somebody is inside an attempt, some step brings it nearer to its end** and makes
nobody stuck. -/
theorem Live.progress (h : Live E s) (hbusy : ¬ Quiet s) :
    ∃ a s', NotSpurious s a ∧ (engine N R E).step s a = some s' ∧ Live E s' ∧
      s'.work < s.work := by
  obtain ⟨hs, hstuck⟩ := h
  have hinv := locksInv_of_reachable hs
  obtain ⟨t, hin, hawake, hwho⟩ := exists_mover hs hbusy
  have hfree : (s.thread t).mtx = none → (∀ x, (s.monitor.lock x).mtx = none) ∧
      ((s.thread t).pc.inGlobal = true ∨ s.globalMutex = none) := by
    intro hmine
    obtain ⟨hnone, hg⟩ := hwho.resolve_left (not_not.mpr hmine)
    refine ⟨fun x => ?_, hg.imp_right fun hg => ?_⟩
    · cases hx : (s.monitor.lock x).mtx with
      | none => rfl
      | some u =>
          have := mtx_of_owner hs u x hx
          simp [hnone u] at this
    · cases hx : s.globalMutex with
      | none => rfl
      | some u =>
          have := inGlobal_of_global hs u hx
          simp [hg u] at this
  obtain ⟨c, hc⟩ := exists_step (E := E) hin (ne_write_R hs t) hfree
  obtain ⟨s', hstep⟩ := Option.isSome_iff_exists.mp hc
  have hm : Move E s t s' := move_of_step hstep
  have hs' : (engine N R E).Reachable s' := .step (a := ⟨t, c⟩) hs trivial hstep
  refine ⟨⟨t, c⟩, s', hawake, hstep, ⟨hs', fun u hu => ?_⟩, ?_⟩
  · rcases hwho with hmine | ⟨hfree, hg⟩
    · exact hstuck u (hu.of_move_mtx hm hmine)
    · exact hm.not_stuck hinv.base hfree hg hu
  · refine hm.work_lt (hinv.base.own t) (fun hpc => ?_) (fun ty held hpc => ?_) hawake
    · rw [hpc] at hin
      exact absurd hin id
    · refine Bool.eq_false_of_not_eq_true fun hw => hstuck t ?_
      have hspins : Spins s t := ⟨ty, held, hpc, hw⟩
      exact hspins.stuck hinv

/-- **Every attempt that has begun can be brought to its end.** -/
theorem Live.leads_quiet (h : Live E s) :
    (engine N R E).Leads NotSpurious s fun s' => Live E s' ∧ Quiet s' :=
  Machine.leads_of_rank State.work (fun _ hs hbusy => hs.progress hbusy) s h

/-! ## One commit after the other -/

lemma Quiet.not_stuck (h : Quiet s) (t : Fin N) : ¬ Stuck s t := by
  rintro ⟨ty, held, g, hpc, -⟩
  refine h t ?_
  rw [hpc]
  trivial

lemma idle_of_not_inAttempt {pc : Pc N R} (h : ¬ pc.InAttempt) : pc.idle = true := by
  cases pc <;> first | rfl | exact absurd trivial h

/-- Outside of attempts nothing is held and nobody waits. -/
lemma Quiet.alone (h : Quiet s) (hs : (engine N R E).Reachable s) (t : Fin N) : Alone s t := by
  have hinv := locksInv_of_reachable hs
  have hidle : ∀ u, (s.thread u).pc.idle = true := fun u => idle_of_not_inAttempt (h u)
  have hnot : ∀ u, (s.thread u).pc.releasing = false := by
    intro u
    refine Bool.eq_false_of_not_eq_true fun hrel => ?_
    have := Pc.releasing_inGlobal hrel
    rw [inGlobal_of_idle (hidle u)] at this
    exact Bool.noConfusion this
  refine ⟨fun u _ => hidle u, inGlobal_of_global hs, mtx_of_owner hs, fun u => ?_⟩
  rw [Finset.eq_empty_iff_forall_notMem]
  intro v hv
  refine (hinv.not_waitsFor (fun ty => ?_) v).1
    (((tables_of_reachable hs).depend u v (hnot u) (hnot v)).mp hv)
  rw [phase_of_idle (hidle u)]
  exact id

/-- Does a thread return, or has it? -/
def Pc.returns : Pc N R → Bool
  | .unlockExit | .exited _ => true
  | _ => false

lemma nextRelease_returns (why : Why) (l : List (LockInfo N R)) :
    (nextRelease why l).returns = false := by
  cases l <;> cases why <;> rfl

/-- A thread begins to return only when the counter has reached `E`. -/
lemma Move.returns (hm : Move E s t s') (h0 : 0 ≤ s.globalExecutionOrder)
    (h : (s'.thread t).pc.returns = true) :
    (s.thread t).pc.returns = true ∨ E ≤ s'.globalExecutionOrder := by
  cases hm
  case leave hpc hE => exact .inr (not_lt.mp hE)
  case unlockExit hpc => exact .inl (by rw [hpc]; rfl)
  case commit hpc =>
    refine .inr ?_
    rw [commitStep_order]
    by_contra hlt
    have hle := toInt_le (z := s.globalExecutionOrder + 1) (by omega)
    have hq : commitPc E s = .unlockLoop := if_pos (by omega)
    simp [hq, Pc.returns] at h
  case deadlock ty hpc hst =>
    cases ty <;>
      · simp only [onDeadlock, State.setPc_thread, Function.update_self, nextRelease_returns] at h
        exact Bool.noConfusion h
  case flag ty held hpc => cases held <;> simp [Pc.returns] at h
  all_goals
    simp only [State.setPc_thread, State.setThread_thread, Function.update_self,
      nextRelease_returns] at h
    exact Bool.noConfusion h

lemma Woken.returns {th th' : Thread N R} (h : Woken th th') :
    th'.pc.returns = th.pc.returns := by
  cases h with
  | same => rfl
  | writer ty held h => rw [h]; rfl
  | reader ty held h => rw [h]; rfl

/-- A thread that has returned has seen the counter at `E`. -/
lemma order_of_returned (hs : (engine N R E).Reachable s) : 0 ≤ s.globalExecutionOrder ∧
    ∀ t, (s.thread t).pc.returns = true → E ≤ s.globalExecutionOrder := by
  refine Machine.Run.invariant (I := fun s => 0 ≤ s.globalExecutionOrder ∧
    ∀ t, (s.thread t).pc.returns = true → E ≤ s.globalExecutionOrder)
    (fun s h0 => ?_) (fun s a s' _ hi _ hstep => ?_) s hs
  · obtain ⟨hord, -, -, -, hpc⟩ := h0
    refine ⟨hord.ge, fun t ht => ?_⟩
    rw [hpc t] at ht
    exact Bool.noConfusion ht
  · have hm := move_of_step hstep
    have hle : s.globalExecutionOrder ≤ s'.globalExecutionOrder := by
      by_cases hpc : (s.thread a.tid).pc = .commit
      · simp only [engine, stepThread, hpc, Option.some.injEq] at hstep
        rw [← hstep, commitStep_order]
        omega
      · exact (hm.count hpc).1.ge
    refine ⟨hi.1.trans hle, fun t ht => ?_⟩
    by_cases hta : t = a.tid
    · subst hta
      rcases hm.returns hi.1 ht with hold | hnew
      · exact (hi.2 _ hold).trans hle
      · exact hnew
    · exact (hi.2 t ((hm.woken hta).returns ▸ ht)).trans hle

/-- A thread whose attempt has begun commits if it runs alone. -/
lemma leads_commit_alone (hs : (engine N R E).Reachable s) (ha : Alone s t)
    (hquiet : ∀ u, u ≠ t → ¬ (s.thread u).pc.InAttempt) (hc : (s.thread t).pc.onCourse = true) :
    (engine N R E).Leads NotSpurious s fun s' => (engine N R E).Reachable s' ∧ Alone s' t ∧
      (∀ u, u ≠ t → ¬ (s'.thread u).pc.InAttempt) ∧
      s'.globalExecutionOrder = s.globalExecutionOrder ∧ (s'.thread t).pc = .commit := by
  refine (Machine.leads_of_rank (P := fun s' => (s'.thread t).pc = .commit)
    (I := fun s' => (engine N R E).Reachable s' ∧ Alone s' t ∧
      (∀ u, u ≠ t → ¬ (s'.thread u).pc.InAttempt) ∧
      ((s'.thread t).pc.onCourse = true ∨ (s'.thread t).pc = .commit) ∧
      s'.globalExecutionOrder = s.globalExecutionOrder)
    (fun s => (s.thread t).pc.remaining) ?_ s ⟨hs, ha, hquiet, .inl hc, rfl⟩).mono ?_
  · rintro s₁ ⟨hs₁, ha₁, hq₁, hc₁, hord⟩ hne
    have hc₁ := hc₁.resolve_right hne
    obtain ⟨s₂, hstep, hdep, hlt, hc₂⟩ := ha₁.advances (locksInv_of_reachable hs₁) hc₁ (E := E)
    have hm : Move E s₁ t s₂ := move_of_step hstep
    have hloop : (s₂.thread t).pc ≠ .loop := by
      intro h
      rw [h] at hc₂
      simp [Pc.onCourse] at hc₂
    refine ⟨⟨t, .go⟩, s₂, fun ty held => ⟨fun h => ?_, fun h => ?_⟩, hstep,
      ⟨.step (a := ⟨t, .go⟩) hs₁ trivial hstep, ha₁.move hm hloop hdep, fun u hu => ?_, hc₂,
        (hm.count hne).1.trans hord⟩, hlt⟩
    · simp [h, Pc.onCourse] at hc₁
    · simp [h, Pc.onCourse] at hc₁
    · rw [(hm.woken hu).eq_of_idle (ha₁.idle u hu)]
      exact hq₁ u hu
  · rintro s₁ ⟨⟨hs₁, ha₁, hq₁, -, hord⟩, hpc⟩
    exact ⟨hs₁, ha₁, hq₁, hord, hpc⟩

/-- A thread at its commit gives `global_mutex` back. -/
lemma leads_after_commit (hs : (engine N R E).Reachable s)
    (hquiet : ∀ u, u ≠ t → ¬ (s.thread u).pc.InAttempt) (hpc : (s.thread t).pc = .commit) :
    (engine N R E).Leads NotSpurious s fun s' => (engine N R E).Reachable s' ∧ Quiet s' ∧
      s'.globalExecutionOrder = s.globalExecutionOrder + 1 := by
  have hstep : (engine N R E).step s ⟨t, .go⟩ = some (commitStep E s t) := by
    simp only [engine, stepThread, hpc]
  have hs₁ : (engine N R E).Reachable (commitStep E s t) := .step hs trivial hstep
  obtain ⟨Q, hQ, hstep'⟩ : ∃ Q : Pc N R, ¬ Q.InAttempt ∧
      (engine N R E).step (commitStep E s t) ⟨t, .go⟩
        = some (((commitStep E s t).setGlobal none).setPc t Q) := by
    rcases commitPc_cases E s with hq | hq
    · refine ⟨.loop, id, ?_⟩
      have : ((commitStep E s t).thread t).pc = .unlockLoop := by simp [hq]
      simp only [engine, stepThread, this]
    · refine ⟨.exited true, id, ?_⟩
      have : ((commitStep E s t).thread t).pc = .unlockExit := by simp [hq]
      simp only [engine, stepThread, this]
  refine .step (a := ⟨t, .go⟩) (by simp [NotSpurious, hpc]) hstep (.step (a := ⟨t, .go⟩) ?_ hstep'
    (.refl ⟨.step hs₁ trivial hstep', fun u => ?_, commitStep_order E s t⟩))
  · intro ty held
    rcases commitPc_cases E s with hq | hq <;> simp [hq]
  · rw [State.setPc_thread, State.setGlobal_thread, Function.update_apply]
    split_ifs with hu
    · exact hQ
    · rw [commitStep_thread, Function.update_of_ne hu]
      exact hquiet u hu

/-- Outside of attempts, a thread can make one that ends with a commit. -/
lemma Quiet.leads_commit (h : Quiet s) (hs : (engine N R E).Reachable s) (hR : 3 ≤ R) (t : Fin N)
    (hlt : s.globalExecutionOrder < E) :
    (engine N R E).Leads NotSpurious s fun s' => (engine N R E).Reachable s' ∧ Quiet s' ∧
      s'.globalExecutionOrder = s.globalExecutionOrder + 1 := by
  have hpc : (s.thread t).pc = .loop := by
    have hret := (order_of_returned hs).2 t
    have hquiet := h t
    cases hp : (s.thread t).pc with
    | loop => rfl
    | exited b =>
        rw [hp] at hret
        exact absurd (hret rfl) (not_le.mpr hlt)
    | _ =>
        rw [hp] at hquiet
        exact absurd trivial hquiet
  let i : Fin R := ⟨0, by omega⟩
  let j : Fin R := ⟨1, by omega⟩
  let k : Fin R := ⟨2, by omega⟩
  let s₁ := s.setThread t
    { s.thread t with pc := .request .R, i := i, j := j, k := k, havingLocks := [] }
  have hstep : (engine N R E).step s ⟨t, .triple i j k⟩ = some s₁ := by
    simp only [engine, stepThread, hpc]
    exact if_pos ⟨hlt, by simp [i, j], by simp [i, k], by simp [j, k]⟩
  have hs₁ : (engine N R E).Reachable s₁ := .step hs trivial hstep
  have hne : ∀ u, u ≠ t → s₁.thread u = s.thread u := fun u hu => by simp [s₁, hu]
  have hpc₁ : (s₁.thread t).pc = .request .R := by simp [s₁]
  have ha := h.alone hs t
  have ha₁ : Alone s₁ t := by
    refine ⟨fun u hu => ?_, inGlobal_of_global hs₁, mtx_of_owner hs₁, ha.depend⟩
    rw [hne u hu]
    exact ha.idle u hu
  refine .step (by simp [NotSpurious, hpc]) hstep ((leads_commit_alone hs₁ ha₁ (fun u hu => ?_)
    (by rw [hpc₁]; rfl)).trans fun s₂ hs₂ => ?_)
  · rw [hne u hu]
    exact h u
  · obtain ⟨hreach, -, hquiet, hord, hcommit⟩ := hs₂
    refine (leads_after_commit hreach hquiet hcommit).mono fun s₃ hs₃ => ?_
    exact ⟨hs₃.1, hs₃.2.1, hs₃.2.2.trans (congrArg (· + 1) hord)⟩

/-- The counter can be driven to `E`. -/
lemma Quiet.leads_order (hR : 3 ≤ R) (t : Fin N) : ∀ n : ℕ, ∀ s : State N R, Quiet s →
    (engine N R E).Reachable s → (E - s.globalExecutionOrder).toNat = n →
    (engine N R E).Leads NotSpurious s fun s' => (engine N R E).Reachable s' ∧ Quiet s' ∧
      E ≤ s'.globalExecutionOrder := by
  intro n
  induction n with
  | zero =>
      intro s h hs hn
      exact .refl ⟨hs, h, by omega⟩
  | succ n ih =>
      intro s h hs hn
      refine (h.leads_commit hs hR t (by omega)).trans fun s' hs' => ?_
      exact ih s' hs'.2.1 hs'.1 (by omega)

/-- Once the counter has reached `E`, the threads leave their loops. -/
lemma Quiet.leads_finished (h : Quiet s) (hs : (engine N R E).Reachable s)
    (hE : E ≤ s.globalExecutionOrder) : (engine N R E).Leads NotSpurious s fun s' =>
      ((engine N R E).Reachable s' ∧ Quiet s' ∧ E ≤ s'.globalExecutionOrder) ∧ Finished s' := by
  refine Machine.leads_of_rank State.work ?_ s ⟨hs, h, hE⟩
  rintro s ⟨hs, h, hE⟩ hfin
  simp only [Finished, not_forall, not_exists] at hfin
  obtain ⟨t, ht⟩ := hfin
  have hpc : (s.thread t).pc = .loop := by
    have hquiet := h t
    cases hp : (s.thread t).pc with
    | loop => rfl
    | exited b => exact absurd hp (ht b)
    | _ =>
        rw [hp] at hquiet
        exact absurd trivial hquiet
  have hnlt : ¬ s.globalExecutionOrder < E := not_lt.mpr hE
  have hstep : (engine N R E).step s ⟨t, .go⟩ = some (s.setPc t (.exited false)) := by
    simp only [engine, stepThread, hpc, if_neg hnlt]
  have hm : Move E s t (s.setPc t (.exited false)) := .leave hpc hnlt
  refine ⟨⟨t, .go⟩, _, by simp [NotSpurious, hpc], hstep,
    ⟨.step hs trivial hstep, fun u => ?_, hE⟩, ?_⟩
  · rw [State.setPc_thread, Function.update_apply]
    split_ifs
    · exact id
    · exact h u
  · exact hm.work_lt ((locksInv_of_reachable hs).base.own t) (fun _ => hnlt) (by simp [hpc])
      (by simp [hpc])

/-- **The engine can finish unless a gate spins.**  From a reachable state some schedule without
spurious wake-ups brings every thread to its end, with the commit counter at `E` or above, if and
only if nobody is stuck there. -/
theorem can_finish_iff (hN : 1 ≤ N) (hR : 3 ≤ R) (hs : (engine N R E).Reachable s) :
    ((engine N R E).Leads NotSpurious s fun s' => Finished s' ∧ E ≤ s'.globalExecutionOrder) ↔
      ∀ t, ¬ Stuck s t := by
  constructor
  · rintro ⟨s', hrun, hfin, -⟩ t hstuck
    have hinv : (engine N R E).Reachable s' ∧ Stuck s' t := by
      refine Machine.Run.stays (I := fun s' => (engine N R E).Reachable s' ∧ Stuck s' t) ?_
        ⟨hs, hstuck⟩ hrun
      rintro s₁ a s₂ ⟨hr, hst⟩ hstep
      exact ⟨.step hr trivial hstep,
        (hst.move (locksInv_of_reachable hr) (move_of_step hstep)).1⟩
    exact hinv.2.not_finished hfin
  · intro hlive
    have hlive : Live E s := ⟨hs, hlive⟩
    refine hlive.leads_quiet.trans fun s₁ hs₁ => ?_
    refine (hs₁.2.leads_order hR ⟨0, hN⟩ _ s₁ hs₁.1.1 rfl).trans fun s₂ hs₂ => ?_
    exact (hs₂.2.1.leads_finished hs₂.1 hs₂.2.2).mono fun s₃ hs₃ => ⟨hs₃.2, hs₃.1.2.2⟩

/-- Thread `0` is leaving record `1`, and thread `1`, which waits for it, has not entered the gate
yet: there is still time. -/
theorem can_finish_before_gate : ∃ s : State 2 3, (engine 2 3 5).Reachable s ∧ Leaving s 1 ∧
    (s.thread 1).pc = .gate .R false .enter ∧
    (engine 2 3 5).Leads NotSpurious s fun s' => Finished s' ∧ 5 ≤ s'.globalExecutionOrder := by
  obtain ⟨s, hs, hp⟩ := Machine.exists_reachable_of_exec (M := engine 2 3 5)
    (State.start_isInit 2 3)
    (List.flatten [Act.start 0 0 1 2, Act.go 0 31, Act.start 1 1 0 2, Act.go 1 3, Act.go 0 5])
    (fun s => (s.thread 0).pc.leaving = some 1 ∧ (s.thread 1).pc = .gate .R false .enter)
    (by decide +kernel)
  obtain ⟨h0, h1⟩ := of_decide_eq_true hp
  refine ⟨s, hs, ⟨0, h0⟩, h1, (can_finish_iff (by decide) (by decide) hs).mpr ?_⟩
  rintro t ⟨ty, held, g, hpc, hg, -⟩
  match t with
  | 0 => simp [hpc, Pc.leaving] at h0
  | 1 =>
      obtain ⟨-, -, rfl⟩ := Pc.gate.inj (h1.symm.trans hpc)
      simp at hg

end Multicore.Project2
