import Multicore.Project2.Transaction

/-!
# What a step of the engine can do

`Move E s t s'` lists the steps of thread `t` one by one, each with the program counter it starts
from, its guard and the state it leads to.  `move_of_step` says that the step function does
nothing else; every invariant of the engine is proved from this list and never unfolds
`stepThread`.

The file also has the small lemmas about the updates the moves are made of.
-/

namespace Multicore.Project2

variable {N R : ℕ} {E : ℤ} {s s' : State N R} {t u : Fin N}

/-! ## Updates -/

namespace State

@[simp] lemma setThread_thread (s : State N R) (t : Fin N) (th : Thread N R) :
    (s.setThread t th).thread = Function.update s.thread t th := rfl

@[simp] lemma setThread_monitor (s : State N R) (t : Fin N) (th : Thread N R) :
    (s.setThread t th).monitor = s.monitor := rfl

@[simp] lemma setThread_global (s : State N R) (t : Fin N) (th : Thread N R) :
    (s.setThread t th).globalMutex = s.globalMutex := rfl

@[simp] lemma setThread_order (s : State N R) (t : Fin N) (th : Thread N R) :
    (s.setThread t th).globalExecutionOrder = s.globalExecutionOrder := rfl

@[simp] lemma setThread_outFile (s : State N R) (t : Fin N) (th : Thread N R) :
    (s.setThread t th).outFile = s.outFile := rfl

@[simp] lemma setPc_thread (s : State N R) (t : Fin N) (pc : Pc N R) :
    (s.setPc t pc).thread = Function.update s.thread t { s.thread t with pc := pc } := rfl

@[simp] lemma setPc_monitor (s : State N R) (t : Fin N) (pc : Pc N R) :
    (s.setPc t pc).monitor = s.monitor := rfl

@[simp] lemma setPc_global (s : State N R) (t : Fin N) (pc : Pc N R) :
    (s.setPc t pc).globalMutex = s.globalMutex := rfl

@[simp] lemma setPc_order (s : State N R) (t : Fin N) (pc : Pc N R) :
    (s.setPc t pc).globalExecutionOrder = s.globalExecutionOrder := rfl

@[simp] lemma setPc_outFile (s : State N R) (t : Fin N) (pc : Pc N R) :
    (s.setPc t pc).outFile = s.outFile := rfl

@[simp] lemma setMonitor_thread (s : State N R) (m : Monitor N R) :
    (s.setMonitor m).thread = s.thread := rfl

@[simp] lemma setMonitor_monitor (s : State N R) (m : Monitor N R) :
    (s.setMonitor m).monitor = m := rfl

@[simp] lemma setMonitor_global (s : State N R) (m : Monitor N R) :
    (s.setMonitor m).globalMutex = s.globalMutex := rfl

@[simp] lemma setMonitor_order (s : State N R) (m : Monitor N R) :
    (s.setMonitor m).globalExecutionOrder = s.globalExecutionOrder := rfl

@[simp] lemma setMonitor_outFile (s : State N R) (m : Monitor N R) :
    (s.setMonitor m).outFile = s.outFile := rfl

@[simp] lemma setGlobal_thread (s : State N R) (o : Option (Fin N)) :
    (s.setGlobal o).thread = s.thread := rfl

@[simp] lemma setGlobal_monitor (s : State N R) (o : Option (Fin N)) :
    (s.setGlobal o).monitor = s.monitor := rfl

@[simp] lemma setGlobal_global (s : State N R) (o : Option (Fin N)) :
    (s.setGlobal o).globalMutex = o := rfl

@[simp] lemma setGlobal_order (s : State N R) (o : Option (Fin N)) :
    (s.setGlobal o).globalExecutionOrder = s.globalExecutionOrder := rfl

@[simp] lemma setGlobal_outFile (s : State N R) (o : Option (Fin N)) :
    (s.setGlobal o).outFile = s.outFile := rfl

end State

namespace Monitor

variable (m : Monitor N R) (x y : Fin R) (l : RWLock N) (v : Int32) (r : LockInfo N R)

@[simp] lemma setLock_lockRequest : (m.setLock x l).lockRequest = m.lockRequest := rfl

lemma setLock_lock : (m.setLock x l).lock y = if y = x then l else m.lock y := by
  simp only [setLock, lock, Function.update_apply]
  split_ifs <;> rfl

@[simp] lemma setLock_read : (m.setLock x l).read y = m.read y := by
  simp only [setLock, read, Function.update_apply]
  split_ifs with h
  · rw [h]; rfl
  · rfl

@[simp] lemma write_lockRequest : (m.write x v).lockRequest = m.lockRequest := rfl

@[simp] lemma write_lock : (m.write x v).lock y = m.lock y := by
  simp only [write, lock, Function.update_apply]
  split_ifs with h
  · rw [h]; rfl
  · rfl

lemma write_read : (m.write x v).read y = if y = x then v else m.read y := by
  simp only [write, read, Function.update_apply]
  split_ifs <;> simp

@[simp] lemma setGetLock_lock : (m.setGetLock r).lock y = m.lock y := rfl

@[simp] lemma setGetLock_read : (m.setGetLock r).read y = m.read y := rfl

@[simp] lemma deleteLock_lock : (m.deleteLock r).lock y = m.lock y := rfl

@[simp] lemma deleteLock_read : (m.deleteLock r).read y = m.read y := rfl

@[simp] lemma deadlockCheck_records : (m.deadlockCheck r).2.records = m.records := by
  unfold deadlockCheck
  dsimp only
  split_ifs <;> rfl

@[simp] lemma deadlockCheck_lock : (m.deadlockCheck r).2.lock y = m.lock y := by
  simp [lock]

@[simp] lemma deadlockCheck_read : (m.deadlockCheck r).2.read y = m.read y := by
  simp [read]

/-- A deadlock leaves the queues alone. -/
lemma deadlockCheck_deadlock (h : (m.deadlockCheck r).1 = .deadlock) :
    (m.deadlockCheck r).2.lockRequest = m.lockRequest := by
  unfold deadlockCheck at h ⊢
  dsimp only at h ⊢
  split_ifs at h ⊢ with h1
  rfl

/-- Every other answer queues the request. -/
lemma deadlockCheck_queue (h : (m.deadlockCheck r).1 ≠ .deadlock) :
    (m.deadlockCheck r).2.lockRequest
      = Function.update m.lockRequest r.index (m.lockRequest r.index ++ [r]) := by
  unfold deadlockCheck at h ⊢
  dsimp only at h ⊢
  split_ifs at h ⊢ with h1
  · simp at h
  all_goals rfl

end Monitor

/-! ## The commit -/

section Commit

variable (E : ℤ) (s : State N R) (t : Fin N)

/-- Where a thread goes on after its commit. -/
def commitPc : Pc N R :=
  if toInt (s.globalExecutionOrder + 1) ≤ E then .unlockLoop else .unlockExit

lemma commitPc_cases : commitPc E s = .unlockLoop ∨ commitPc E s = .unlockExit := by
  unfold commitPc
  split_ifs
  · exact Or.inl rfl
  · exact Or.inr rfl

@[simp] lemma commitStep_thread : (commitStep E s t).thread =
    Function.update s.thread t { s.thread t with pc := commitPc E s } := by
  unfold commitStep commitPc
  dsimp only
  split_ifs <;> rfl

@[simp] lemma commitStep_global : (commitStep E s t).globalMutex = s.globalMutex := by
  unfold commitStep
  dsimp only
  split_ifs <;> rfl

@[simp] lemma commitStep_order :
    (commitStep E s t).globalExecutionOrder = s.globalExecutionOrder + 1 := by
  unfold commitStep
  dsimp only
  split_ifs <;> rfl

lemma commitStep_outFile : (commitStep E s t).outFile =
    if toInt (s.globalExecutionOrder + 1) ≤ E then
      s.outFile ++ [(t, ⟨toInt (s.globalExecutionOrder + 1), (s.thread t).i, (s.thread t).j,
        (s.thread t).k, s.monitor.read (s.thread t).i, s.monitor.read (s.thread t).j,
        s.monitor.read (s.thread t).k⟩)]
    else s.outFile := by
  unfold commitStep
  dsimp only
  split_ifs <;> rfl

@[simp] lemma commitStep_lockRequest :
    (commitStep E s t).monitor.lockRequest = s.monitor.lockRequest := by
  unfold commitStep
  dsimp only
  split_ifs <;> rfl

@[simp] lemma commitStep_dependThreads :
    (commitStep E s t).monitor.dependThreads = s.monitor.dependThreads := by
  unfold commitStep
  dsimp only
  split_ifs <;> rfl

@[simp] lemma commitStep_threadsInfo :
    (commitStep E s t).monitor.threadsInfo = s.monitor.threadsInfo := by
  unfold commitStep
  dsimp only
  split_ifs <;> rfl

@[simp] lemma commitStep_lock (x : Fin R) :
    (commitStep E s t).monitor.lock x = s.monitor.lock x := by
  unfold commitStep
  dsimp only
  split_ifs <;> simp

end Commit

/-! ## The moves -/

/-- The steps of thread `t`. -/
inductive Move (E : ℤ) (s : State N R) (t : Fin N) : State N R → Prop
  | attempt (i j k : Fin R) (hpc : (s.thread t).pc = .loop) (hE : s.globalExecutionOrder < E)
      (hij : i ≠ j) (hik : i ≠ k) (hjk : j ≠ k) :
      Move E s t (s.setThread t
        { s.thread t with pc := .request .R, i := i, j := j, k := k, havingLocks := [] })
  | leave (hpc : (s.thread t).pc = .loop) (hE : ¬ s.globalExecutionOrder < E) :
      Move E s t (s.setPc t (.exited false))
  | request (ty : LockType) (hpc : (s.thread t).pc = .request ty) (hg : s.globalMutex = none) :
      Move E s t ((s.setGlobal (some t)).setPc t (.check ty))
  | deadlock (ty : LockType) (hpc : (s.thread t).pc = .check ty)
      (h : (s.monitor.deadlockCheck ((s.thread t).req t ty)).1 = .deadlock) :
      Move E s t
        (onDeadlock (s.setMonitor (s.monitor.deadlockCheck ((s.thread t).req t ty)).2) t ty)
  | waiting (ty : LockType) (hpc : (s.thread t).pc = .check ty)
      (h : (s.monitor.deadlockCheck ((s.thread t).req t ty)).1 = .waiting) :
      Move E s t ((s.setMonitor (s.monitor.deadlockCheck ((s.thread t).req t ty)).2).setPc t
        (.unlockWait ty))
  | get (ty : LockType) (hpc : (s.thread t).pc = .check ty)
      (h : (s.monitor.deadlockCheck ((s.thread t).req t ty)).1 = .get) :
      Move E s t ((s.setMonitor (s.monitor.deadlockCheck ((s.thread t).req t ty)).2).setPc t
        (.gate ty true .enter))
  | unlockWait (ty : LockType) (hpc : (s.thread t).pc = .unlockWait ty) :
      Move E s t ((s.setGlobal none).setPc t (.gate ty false .enter))
  | enter (ty : LockType) (held : Bool) (hpc : (s.thread t).pc = .gate ty held .enter)
      (hm : (s.monitor.lock ((s.thread t).index ty)).mtx = none) :
      Move E s t ((s.setMonitor (s.monitor.setLock ((s.thread t).index ty)
        { s.monitor.lock ((s.thread t).index ty) with mtx := some t })).setPc t
          (.gate ty held .check))
  | clear (ty : LockType) (held : Bool) (hpc : (s.thread t).pc = .gate ty held .check)
      (hc : checkQueue (s.monitor.lockRequest ((s.thread t).index ty)) ((s.thread t).req t ty)
        = true) :
      Move E s t (s.setPc t (.gate ty held .test))
  | blocked (ty : LockType) (held : Bool) (hpc : (s.thread t).pc = .gate ty held .check)
      (hc : checkQueue (s.monitor.lockRequest ((s.thread t).index ty)) ((s.thread t).req t ty)
        = false) :
      Move E s t (s.setPc t (.gate ty held .block))
  | sleep (ty : LockType) (held : Bool) (hpc : (s.thread t).pc = .gate ty held .block) :
      Move E s t ((s.setMonitor (s.monitor.setLock ((s.thread t).index ty)
        { s.monitor.lock ((s.thread t).index ty) with mtx := none })).setPc t
          (.gate ty held .asleep))
  | wake (ty : LockType) (held : Bool) (hpc : (s.thread t).pc = .gate ty held .asleep) :
      Move E s t (s.setPc t (.gate ty held .enter))
  | spin (ty : LockType) (held : Bool) (hpc : (s.thread t).pc = .gate ty held .test)
      (hw : (s.monitor.lock ((s.thread t).index ty)).writing = true) :
      Move E s t (s.setPc t (.gate ty held .check))
  | pass (ty : LockType) (held : Bool) (hpc : (s.thread t).pc = .gate ty held .test)
      (hw : (s.monitor.lock ((s.thread t).index ty)).writing = false) :
      Move E s t (s.setPc t (.gate ty held .pass))
  | share (held : Bool) (hpc : (s.thread t).pc = .gate .R held .pass) :
      Move E s t ((s.setMonitor (s.monitor.setLock ((s.thread t).index .R)
        { s.monitor.lock ((s.thread t).index .R) with
          numReader := (s.monitor.lock ((s.thread t).index .R)).numReader + 1
          mtx := none })).setPc t (.flag .R held))
  | raise (ty : LockType) (held : Bool) (hpc : (s.thread t).pc = .gate ty held .pass)
      (hty : ty ≠ .R) :
      Move E s t ((s.setMonitor (s.monitor.setLock ((s.thread t).index ty)
        { s.monitor.lock ((s.thread t).index ty) with writing := true })).setPc t
          (.gate ty held .drain))
  | wait (ty : LockType) (held : Bool) (hpc : (s.thread t).pc = .gate ty held .drain)
      (hn : 0 < (s.monitor.lock ((s.thread t).index ty)).numReader) :
      Move E s t ((s.setMonitor (s.monitor.setLock ((s.thread t).index ty)
        { s.monitor.lock ((s.thread t).index ty) with mtx := none })).setPc t
          (.gate ty held .asleepReader))
  | grant (ty : LockType) (held : Bool) (hpc : (s.thread t).pc = .gate ty held .drain)
      (hn : ¬ 0 < (s.monitor.lock ((s.thread t).index ty)).numReader) :
      Move E s t ((s.setMonitor (s.monitor.setLock ((s.thread t).index ty)
        { s.monitor.lock ((s.thread t).index ty) with mtx := none })).setPc t (.flag ty held))
  | wakeReader (ty : LockType) (held : Bool)
      (hpc : (s.thread t).pc = .gate ty held .asleepReader) :
      Move E s t (s.setPc t (.gate ty held .wakeReader))
  | reenter (ty : LockType) (held : Bool) (hpc : (s.thread t).pc = .gate ty held .wakeReader)
      (hm : (s.monitor.lock ((s.thread t).index ty)).mtx = none) :
      Move E s t ((s.setMonitor (s.monitor.setLock ((s.thread t).index ty)
        { s.monitor.lock ((s.thread t).index ty) with mtx := some t })).setPc t
          (.gate ty held .drain))
  | flag (ty : LockType) (held : Bool) (hpc : (s.thread t).pc = .flag ty held) :
      Move E s t ((s.setMonitor (s.monitor.setGetLock ((s.thread t).req t ty))).setPc t
        (if held then .unlock ty else .relock ty))
  | relock (ty : LockType) (hpc : (s.thread t).pc = .relock ty) (hg : s.globalMutex = none) :
      Move E s t ((s.setGlobal (some t)).setPc t (.unlock ty))
  | unlock (ty : LockType) (hpc : (s.thread t).pc = .unlock ty) :
      Move E s t ((s.setGlobal none).setThread t { s.thread t with
        pc := .read ty
        havingLocks := (s.thread t).havingLocks ++ [(s.thread t).req t ty] })
  | readI (hpc : (s.thread t).pc = .read .R) :
      Move E s t (s.setThread t
        { s.thread t with pc := .request .W1, iValue := s.monitor.read (s.thread t).i })
  | readJ (hpc : (s.thread t).pc = .read .W1) :
      Move E s t (s.setThread t
        { s.thread t with pc := .write .W1, jValue := s.monitor.read (s.thread t).j })
  | readK (hpc : (s.thread t).pc = .read .W2) :
      Move E s t (s.setThread t
        { s.thread t with pc := .write .W2, kValue := s.monitor.read (s.thread t).k })
  | writeJ (hpc : (s.thread t).pc = .write .W1) :
      Move E s t ((s.setMonitor (s.monitor.write (s.thread t).j
        ((s.thread t).jValue + (s.thread t).iValue + 1))).setPc t (.request .W2))
  | writeK (hpc : (s.thread t).pc = .write .W2) :
      Move E s t ((s.setMonitor (s.monitor.write (s.thread t).k
        ((s.thread t).kValue - (s.thread t).iValue))).setPc t .lockCommit)
  | lockCommit (hpc : (s.thread t).pc = .lockCommit) (hg : s.globalMutex = none) :
      Move E s t ((s.setGlobal (some t)).setPc t
        (nextRelease .commit (s.thread t).havingLocks))
  | erase (why : Why) (r : LockInfo N R) (rest : List (LockInfo N R))
      (hpc : (s.thread t).pc = .release why r rest .erase) :
      Move E s t ((s.setMonitor (s.monitor.deleteLock r)).setPc t (.release why r rest .mutex))
  | unlockShared (why : Why) (r : LockInfo N R) (rest : List (LockInfo N R))
      (hpc : (s.thread t).pc = .release why r rest .mutex) (hty : r.type = .R)
      (hm : (s.monitor.lock r.index).mtx = none) :
      Move E s t ((s.setMonitor (s.monitor.setLock r.index
        { s.monitor.lock r.index with
          numReader := (s.monitor.lock r.index).numReader - 1 })).setPc t
        (.release why r rest (.notifyShared ((s.monitor.lock r.index).numReader - 1)
          (s.monitor.lock r.index).writing)))
  | unlockExclusive (why : Why) (r : LockInfo N R) (rest : List (LockInfo N R))
      (hpc : (s.thread t).pc = .release why r rest .mutex) (hty : r.type ≠ .R)
      (hm : (s.monitor.lock r.index).mtx = none) :
      Move E s t ((s.setMonitor (s.monitor.setLock r.index
        { s.monitor.lock r.index with writing := false })).setPc t
        (.release why r rest .notifyExclusive))
  | notifyOne (why : Why) (r : LockInfo N R) (rest : List (LockInfo N R)) (n : ℤ) (w : Bool)
      (u : Fin N) (hpc : (s.thread t).pc = .release why r rest (.notifyShared n w))
      (hw : w = true) (hn : n = 0) (hu : s.sleepsReader r.index u = true) :
      Move E s t ((s.notifyReader u).setPc t (nextRelease why rest))
  | notifyNone (why : Why) (r : LockInfo N R) (rest : List (LockInfo N R)) (n : ℤ) (w : Bool)
      (hpc : (s.thread t).pc = .release why r rest (.notifyShared n w)) (hw : w = true)
      (hu : n = 0 → ∀ u, s.sleepsReader r.index u = false) :
      Move E s t (s.setPc t (nextRelease why rest))
  | notifyAll (why : Why) (r : LockInfo N R) (rest : List (LockInfo N R)) (u : Unlock)
      (hpc : (s.thread t).pc = .release why r rest u)
      (hu : u = .notifyExclusive ∨ ∃ n, u = .notifyShared n false) :
      Move E s t ((s.notifyWriter r.index).setPc t (nextRelease why rest))
  | commit (hpc : (s.thread t).pc = .commit) : Move E s t (commitStep E s t)
  | unlockLoop (hpc : (s.thread t).pc = .unlockLoop) :
      Move E s t ((s.setGlobal none).setPc t .loop)
  | unlockExit (hpc : (s.thread t).pc = .unlockExit) :
      Move E s t ((s.setGlobal none).setPc t (.exited true))

/-- A step inside the gate is a move. -/
lemma move_of_gateStep {ty : LockType} {held : Bool} {g : Gate}
    (hpc : (s.thread t).pc = .gate ty held g) (h : gateStep s t ty held g = some s') :
    Move E s t s' := by
  cases g <;> simp only [gateStep] at h
  case enter =>
    split_ifs at h with hm
    obtain rfl := Option.some.inj h
    exact .enter ty held hpc hm
  case check =>
    split_ifs at h with hc
    · obtain rfl := Option.some.inj h
      exact .clear ty held hpc hc
    · obtain rfl := Option.some.inj h
      exact .blocked ty held hpc (by simpa using hc)
  case block =>
    obtain rfl := Option.some.inj h
    exact .sleep ty held hpc
  case asleep =>
    obtain rfl := Option.some.inj h
    exact .wake ty held hpc
  case test =>
    split_ifs at h with hw
    · obtain rfl := Option.some.inj h
      exact .spin ty held hpc hw
    · obtain rfl := Option.some.inj h
      exact .pass ty held hpc (by simpa using hw)
  case pass =>
    split_ifs at h with hty
    · obtain rfl := Option.some.inj h
      subst hty
      exact .share held hpc
    · obtain rfl := Option.some.inj h
      exact .raise ty held hpc hty
  case drain =>
    obtain rfl := Option.some.inj h
    split_ifs with hn
    · exact .wait ty held hpc hn
    · exact .grant ty held hpc hn
  case asleepReader =>
    obtain rfl := Option.some.inj h
    exact .wakeReader ty held hpc
  case wakeReader =>
    split_ifs at h with hm
    obtain rfl := Option.some.inj h
    exact .reenter ty held hpc hm

/-- A step inside `releaseLock` is a move. -/
lemma move_of_releaseStep {c : Choice N R} {why : Why} {r : LockInfo N R}
    {rest : List (LockInfo N R)} {u : Unlock} (hpc : (s.thread t).pc = .release why r rest u)
    (h : releaseStep s t c why r rest u = some s') : Move E s t s' := by
  cases u <;> simp only [releaseStep] at h
  case erase =>
    obtain rfl := Option.some.inj h
    exact .erase why r rest hpc
  case mutex =>
    split_ifs at h with hm hty
    · obtain rfl := Option.some.inj h
      exact .unlockShared why r rest hpc hty hm
    · obtain rfl := Option.some.inj h
      exact .unlockExclusive why r rest hpc hty hm
  case notifyShared n w =>
    by_cases hw : w = true ∧ n = 0
    · rw [if_pos hw] at h
      have none_case : (if ∃ u, s.sleepsReader r.index u = true then none
          else some (s.setPc t (nextRelease why rest))) = some s' → Move E s t s' := by
        intro h
        split_ifs at h with hex
        obtain rfl := Option.some.inj h
        exact .notifyNone why r rest n w hpc hw.1 fun _ u => by
          by_contra hu
          exact hex ⟨u, by simpa using hu⟩
      cases c with
      | go => exact none_case h
      | triple i j k => exact none_case h
      | one u =>
          dsimp only at h
          split_ifs at h with hu
          obtain rfl := Option.some.inj h
          exact .notifyOne why r rest n w u hpc hw.1 hw.2 hu
    · rw [if_neg hw] at h
      split_ifs at h with hw'
      · obtain rfl := Option.some.inj h
        exact .notifyAll why r rest _ hpc (Or.inr ⟨n, by rw [hw']⟩)
      · obtain rfl := Option.some.inj h
        have hw1 : w = true := by simpa using hw'
        exact .notifyNone why r rest n w hpc hw1 fun hn => absurd ⟨hw1, hn⟩ hw
  case notifyExclusive =>
    obtain rfl := Option.some.inj h
    exact .notifyAll why r rest _ hpc (Or.inl rfl)

/-- **Every step is one of the moves.** -/
theorem move_of_step {c : Choice N R} (h : stepThread E s t c = some s') : Move E s t s' := by
  unfold stepThread at h
  cases hpc : (s.thread t).pc <;> simp only [hpc] at h
  case loop =>
    have leave_case : (if s.globalExecutionOrder < E then none
        else some (s.setPc t (.exited false))) = some s' → Move E s t s' := by
      intro h
      split_ifs at h with hE
      obtain rfl := Option.some.inj h
      exact .leave hpc hE
    cases c with
    | go => exact leave_case h
    | one u => exact leave_case h
    | triple i j k =>
        dsimp only at h
        split_ifs at h with hc
        obtain rfl := Option.some.inj h
        exact .attempt i j k hpc hc.1 hc.2.1 hc.2.2.1 hc.2.2.2
  case request ty =>
    split_ifs at h with hg
    obtain rfl := Option.some.inj h
    exact .request ty hpc hg
  case check ty =>
    cases hst : (s.monitor.deadlockCheck ((s.thread t).req t ty)) with
    | mk st m =>
        have h1 : (s.monitor.deadlockCheck ((s.thread t).req t ty)).1 = st := by rw [hst]
        have h2 : (s.monitor.deadlockCheck ((s.thread t).req t ty)).2 = m := by rw [hst]
        rw [hst] at h
        cases st <;> dsimp only at h <;> obtain rfl := Option.some.inj h <;> rw [← h2]
        · exact .get ty hpc h1
        · exact .waiting ty hpc h1
        · exact .deadlock ty hpc h1
  case unlockWait ty =>
    obtain rfl := Option.some.inj h
    exact .unlockWait ty hpc
  case gate ty held g => exact move_of_gateStep hpc h
  case flag ty held =>
    obtain rfl := Option.some.inj h
    exact .flag ty held hpc
  case relock ty =>
    split_ifs at h with hg
    obtain rfl := Option.some.inj h
    exact .relock ty hpc hg
  case unlock ty =>
    obtain rfl := Option.some.inj h
    exact .unlock ty hpc
  case read ty =>
    cases ty <;> dsimp only at h <;> obtain rfl := Option.some.inj h
    · exact .readI hpc
    · exact .readJ hpc
    · exact .readK hpc
  case write ty =>
    cases ty <;> dsimp only at h
    · simp at h
    · obtain rfl := Option.some.inj h
      exact .writeJ hpc
    · obtain rfl := Option.some.inj h
      exact .writeK hpc
  case lockCommit =>
    split_ifs at h with hg
    obtain rfl := Option.some.inj h
    exact .lockCommit hpc hg
  case release why r rest u => exact move_of_releaseStep hpc h
  case commit =>
    obtain rfl := Option.some.inj h
    exact .commit hpc
  case unlockLoop =>
    obtain rfl := Option.some.inj h
    exact .unlockLoop hpc
  case unlockExit =>
    obtain rfl := Option.some.inj h
    exact .unlockExit hpc
  case exited => simp at h

end Multicore.Project2
