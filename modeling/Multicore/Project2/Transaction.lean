import Multicore.Lib.Int32
import Multicore.Lib.Machine
import Multicore.Project2.Monitor

/-!
# The threads of the transaction engine

`Transaction::work` as a machine.  A thread's program counter `Pc` names the statement of `work`
it is about to execute, and inside `Monitor::getLock` and `Monitor::releaseLock` the statement of
`RWLock` (`Gate`, `Unlock`), so that the following are all steps of their own:

* taking and leaving `global_mutex`, and everything that is done between the two — the
  `deadlock_check`, each queue erase, each `RWLock` update, each notification, the commit;
* the gate of `lockShared`/`lockExclusive`: taking `mtx`, evaluating `checkQueue`, going to
  sleep (also waking up again, notified or not), the test of `writing`, the update of
  `numReader`/`writing`, the wait for the last reader, the return;
* setting the flag `getLock` of the queue entry, which happens after the return;
* every `Monitor::read` and `Monitor::write` outside a critical section.

What is one step here although the code has several statements: `commit` numbers the attempt and
then logs it or rolls it back, and the answer `deadlock` for record `k` restores record `j`.  Both
are inside a critical section of `global_mutex`.

The random triple is a choice of the schedule: any three distinct records.  The `N` files
`thread1.txt`, … are one list of lines, each with the thread that wrote it.
-/

namespace Multicore.Project2

variable {N R : ℕ}

/-! ## Program counters -/

/-- Where a thread stands inside `lockShared`/`lockExclusive`. -/
inductive Gate
  /-- about to lock `mtx`, on entry or woken up on `writer` -/
  | enter
  /-- holds `mtx`, about to evaluate `checkQueue` -/
  | check
  /-- holds `mtx`, `checkQueue` was false -/
  | block
  /-- sleeps on `writer` -/
  | asleep
  /-- holds `mtx`, `checkQueue` was true: `while (writing)` -/
  | test
  /-- holds `mtx`, `writing` was false -/
  | pass
  /-- a writer, holds `mtx` and has set `writing`: `while (numReader > 0)` -/
  | drain
  /-- a writer that sleeps on `reader` -/
  | asleepReader
  /-- a writer woken up on `reader`, about to lock `mtx` again -/
  | wakeReader
  deriving DecidableEq, Repr

/-- Where a thread stands inside `releaseLock`. -/
inductive Unlock
  /-- about to call `deleteLock` -/
  | erase
  /-- the entry is gone, about to lock `mtx` -/
  | mutex
  /-- `unlockShared` has left `mtx` with these two locals -/
  | notifyShared (numReader : ℤ) (writing : Bool)
  /-- `unlockExclusive` has left `mtx` -/
  | notifyExclusive
  deriving DecidableEq, Repr

/-- Which of the two release loops is running: `undo`, or the one of the commit. -/
inductive Why
  | abort | commit
  deriving DecidableEq, Repr

/-- The statement of `work` a thread is about to execute. -/
inductive Pc (N R : ℕ)
  /-- `while (global_execution_order < max_global_execution_order)` -/
  | loop
  /-- `global_mutex.lock()` before a request -/
  | request (ty : LockType)
  /-- `switch (monitor->deadlock_check(req))` -/
  | check (ty : LockType)
  /-- case `waiting`: `global_mutex.unlock()` -/
  | unlockWait (ty : LockType)
  /-- `monitor->getLock(req)`, with `global_mutex` held or not -/
  | gate (ty : LockType) (held : Bool) (g : Gate)
  /-- the lock is there: set `getLock` in the queue -/
  | flag (ty : LockType) (held : Bool)
  /-- case `waiting`: `global_mutex.lock()` -/
  | relock (ty : LockType)
  /-- `global_mutex.unlock(); havingLocks.push_back(req)` -/
  | unlock (ty : LockType)
  /-- `monitor->read` -/
  | read (ty : LockType)
  /-- `monitor->write` -/
  | write (ty : LockType)
  /-- `global_mutex.lock()` before the commit -/
  | lockCommit
  /-- releasing `r`, then `rest` -/
  | release (why : Why) (r : LockInfo N R) (rest : List (LockInfo N R)) (u : Unlock)
  /-- `cid = getCommitId()`, then log or roll back -/
  | commit
  /-- `global_mutex.unlock()` before the next attempt -/
  | unlockLoop
  /-- `global_mutex.unlock()` after the roll back -/
  | unlockExit
  /-- returned, after a roll back or not -/
  | exited (rolledBack : Bool)
  deriving DecidableEq, Repr

/-- A thread: its program counter and the locals of `work`. -/
structure Thread (N R : ℕ) where
  pc : Pc N R
  i : Fin R
  j : Fin R
  k : Fin R
  iValue : Int32
  jValue : Int32
  kValue : Int32
  havingLocks : List (LockInfo N R)

/-- The record a lock of this type is for. -/
def Thread.index (th : Thread N R) : LockType → Fin R
  | .R => th.i
  | .W1 => th.j
  | .W2 => th.k

/-- `req = { index, type, tid, false }`. -/
def Thread.req (th : Thread N R) (t : Fin N) (ty : LockType) : LockInfo N R :=
  ⟨th.index ty, ty, t, false⟩

/-- One line of a log file. -/
structure LogLine (R : ℕ) where
  cid : ℤ
  i : Fin R
  j : Fin R
  k : Fin R
  iValue : Int32
  jValue : Int32
  kValue : Int32
  deriving DecidableEq, Repr

/-- The state of the engine.  The 64-bit counter `global_execution_order` cannot overflow: it
moves only while it is at most `max_global_execution_order + N`. -/
structure State (N R : ℕ) where
  globalExecutionOrder : ℤ
  globalMutex : Option (Fin N)
  monitor : Monitor N R
  thread : Fin N → Thread N R
  outFile : List (Fin N × LogLine R)

namespace State

/-- Replace the locals of one thread. -/
def setThread (s : State N R) (t : Fin N) (th : Thread N R) : State N R :=
  { s with thread := Function.update s.thread t th }

/-- Move one thread. -/
def setPc (s : State N R) (t : Fin N) (pc : Pc N R) : State N R :=
  s.setThread t { s.thread t with pc := pc }

/-- Replace the monitor. -/
def setMonitor (s : State N R) (m : Monitor N R) : State N R := { s with monitor := m }

/-- Give `global_mutex` to a thread, or free it. -/
def setGlobal (s : State N R) (o : Option (Fin N)) : State N R := { s with globalMutex := o }

/-- `writer.notify_all()` on record `x`. -/
def notifyWriter (s : State N R) (x : Fin R) : State N R :=
  { s with
    thread := fun u => match (s.thread u).pc with
      | .gate ty held .asleep =>
          if (s.thread u).index ty = x then { s.thread u with pc := .gate ty held .enter }
          else s.thread u
      | _ => s.thread u }

/-- Does thread `u` sleep on the condition variable `reader` of record `x`? -/
def sleepsReader (s : State N R) (x : Fin R) (u : Fin N) : Bool :=
  match (s.thread u).pc with
  | .gate ty _ .asleepReader => (s.thread u).index ty = x
  | _ => false

/-- `reader.notify_one()` wakes thread `u`. -/
def notifyReader (s : State N R) (u : Fin N) : State N R :=
  match (s.thread u).pc with
  | .gate ty held .asleepReader => s.setPc u (.gate ty held .wakeReader)
  | _ => s

end State

/-! ## The steps -/

/-- What a schedule chooses besides the thread: the random triple, or whom `notify_one` wakes. -/
inductive Choice (N R : ℕ)
  | go
  | triple (i j k : Fin R)
  | one (u : Fin N)

/-- A thread moves. -/
structure Act (N R : ℕ) where
  tid : Fin N
  choice : Choice N R := .go

/-- A step inside `lockShared`/`lockExclusive`. -/
def gateStep (s : State N R) (t : Fin N) (ty : LockType) (held : Bool) (g : Gate) :
    Option (State N R) :=
  let x := (s.thread t).index ty
  match g with
  | .enter =>
      if (s.monitor.lock x).mtx = none then
        some ((s.setMonitor (s.monitor.setLock x { s.monitor.lock x with mtx := some t })).setPc t
          (.gate ty held .check))
      else none
  | .check =>
      if checkQueue (s.monitor.lockRequest x) ((s.thread t).req t ty) then
        some (s.setPc t (.gate ty held .test))
      else some (s.setPc t (.gate ty held .block))
  | .block =>
      some ((s.setMonitor (s.monitor.setLock x { s.monitor.lock x with mtx := none })).setPc t
        (.gate ty held .asleep))
  | .asleep => some (s.setPc t (.gate ty held .enter))
  | .test =>
      if (s.monitor.lock x).writing then some (s.setPc t (.gate ty held .check))
      else some (s.setPc t (.gate ty held .pass))
  | .pass =>
      if ty = .R then
        some ((s.setMonitor (s.monitor.setLock x { s.monitor.lock x with
          numReader := (s.monitor.lock x).numReader + 1, mtx := none })).setPc t (.flag ty held))
      else
        some ((s.setMonitor (s.monitor.setLock x { s.monitor.lock x with writing := true })).setPc t
          (.gate ty held .drain))
  | .drain =>
      some ((s.setMonitor (s.monitor.setLock x { s.monitor.lock x with mtx := none })).setPc t
        (if 0 < (s.monitor.lock x).numReader then .gate ty held .asleepReader else .flag ty held))
  | .asleepReader => some (s.setPc t (.gate ty held .wakeReader))
  | .wakeReader =>
      if (s.monitor.lock x).mtx = none then
        some ((s.setMonitor (s.monitor.setLock x { s.monitor.lock x with mtx := some t })).setPc t
          (.gate ty held .drain))
      else none

/-- The statement after the release loops. -/
def nextRelease (why : Why) : List (LockInfo N R) → Pc N R
  | r :: rest => .release why r rest .erase
  | [] => match why with
      | .abort => .unlockLoop
      | .commit => .commit

/-- A step inside `releaseLock(r)`. -/
def releaseStep (s : State N R) (t : Fin N) (c : Choice N R) (why : Why) (r : LockInfo N R)
    (rest : List (LockInfo N R)) : Unlock → Option (State N R)
  | .erase =>
      some ((s.setMonitor (s.monitor.deleteLock r)).setPc t (.release why r rest .mutex))
  | .mutex =>
      if (s.monitor.lock r.index).mtx = none then
        if r.type = .R then
          let l := { s.monitor.lock r.index with
            numReader := (s.monitor.lock r.index).numReader - 1 }
          some ((s.setMonitor (s.monitor.setLock r.index l)).setPc t
            (.release why r rest (.notifyShared l.numReader l.writing)))
        else
          let l := { s.monitor.lock r.index with writing := false }
          some ((s.setMonitor (s.monitor.setLock r.index l)).setPc t
            (.release why r rest .notifyExclusive))
      else none
  | .notifyShared numReader writing =>
      if writing = true ∧ numReader = 0 then
        match c with
        | .one u =>
            if s.sleepsReader r.index u then
              some ((s.notifyReader u).setPc t (nextRelease why rest))
            else none
        | _ =>
            if ∃ u, s.sleepsReader r.index u then none
            else some (s.setPc t (nextRelease why rest))
      else if writing = false then
        some ((s.notifyWriter r.index).setPc t (nextRelease why rest))
      else some (s.setPc t (nextRelease why rest))
  | .notifyExclusive =>
      some ((s.notifyWriter r.index).setPc t (nextRelease why rest))

/-- The answer `deadlock`.  For record `i` the code goes on with the next attempt and keeps
`global_mutex`; for `j` and `k` it releases what it has, for `k` after restoring `j`. -/
def onDeadlock (s : State N R) (t : Fin N) : LockType → State N R
  | .R => s.setPc t .loop
  | .W1 => s.setPc t (nextRelease .abort (s.thread t).havingLocks)
  | .W2 => (s.setMonitor (s.monitor.write (s.thread t).j (s.thread t).jValue)).setPc t
      (nextRelease .abort (s.thread t).havingLocks)

/-- `cid = getCommitId()`, the 64-bit counter as an `int`: an attempt with an id up to `E` is
logged, a later one rolled back. -/
def commitStep (E : ℤ) (s : State N R) (t : Fin N) : State N R :=
  let th := s.thread t
  let m := s.monitor
  let order := s.globalExecutionOrder + 1
  if toInt order ≤ E then
    { s.setPc t .unlockLoop with
      globalExecutionOrder := order
      outFile := s.outFile ++ [(t, ⟨toInt order, th.i, th.j, th.k,
        m.read th.i, m.read th.j, m.read th.k⟩)] }
  else
    { (s.setMonitor (((m.write th.i th.iValue).write th.j th.jValue).write th.k th.kValue)).setPc t
        .unlockExit with
      globalExecutionOrder := order }

/-- One step of thread `t`. -/
def stepThread (E : ℤ) (s : State N R) (t : Fin N) (c : Choice N R) : Option (State N R) :=
  let th := s.thread t
  match th.pc with
  | .loop =>
      match c with
      | .triple i j k =>
          if s.globalExecutionOrder < E ∧ i ≠ j ∧ i ≠ k ∧ j ≠ k then
            some (s.setThread t
              { th with pc := .request .R, i := i, j := j, k := k, havingLocks := [] })
          else none
      | _ => if s.globalExecutionOrder < E then none else some (s.setPc t (.exited false))
  | .request ty =>
      if s.globalMutex = none then some ((s.setGlobal (some t)).setPc t (.check ty)) else none
  | .check ty =>
      match s.monitor.deadlockCheck (th.req t ty) with
      | (.deadlock, m) => some (onDeadlock (s.setMonitor m) t ty)
      | (.waiting, m) => some ((s.setMonitor m).setPc t (.unlockWait ty))
      | (.get, m) => some ((s.setMonitor m).setPc t (.gate ty true .enter))
  | .unlockWait ty => some ((s.setGlobal none).setPc t (.gate ty false .enter))
  | .gate ty held g => gateStep s t ty held g
  | .flag ty held =>
      some ((s.setMonitor (s.monitor.setGetLock (th.req t ty))).setPc t
        (if held then .unlock ty else .relock ty))
  | .relock ty =>
      if s.globalMutex = none then some ((s.setGlobal (some t)).setPc t (.unlock ty)) else none
  | .unlock ty =>
      some ((s.setGlobal none).setThread t
        { th with pc := .read ty, havingLocks := th.havingLocks ++ [th.req t ty] })
  | .read .R => some (s.setThread t { th with pc := .request .W1, iValue := s.monitor.read th.i })
  | .read .W1 => some (s.setThread t { th with pc := .write .W1, jValue := s.monitor.read th.j })
  | .read .W2 => some (s.setThread t { th with pc := .write .W2, kValue := s.monitor.read th.k })
  | .write .R => none
  | .write .W1 =>
      some ((s.setMonitor (s.monitor.write th.j (th.jValue + th.iValue + 1))).setPc t
        (.request .W2))
  | .write .W2 =>
      some ((s.setMonitor (s.monitor.write th.k (th.kValue - th.iValue))).setPc t .lockCommit)
  | .lockCommit =>
      if s.globalMutex = none then
        some ((s.setGlobal (some t)).setPc t (nextRelease .commit th.havingLocks))
      else none
  | .release why r rest u => releaseStep s t c why r rest u
  | .commit => some (commitStep E s t)
  | .unlockLoop => some ((s.setGlobal none).setPc t .loop)
  | .unlockExit => some ((s.setGlobal none).setPc t (.exited true))
  | .exited _ => none

/-- The initial states: fresh tables, every thread at its loop with uninitialised locals. -/
def IsInit (s : State N R) : Prop :=
  s.globalExecutionOrder = 0 ∧ s.globalMutex = none ∧ s.monitor = Monitor.init ∧
    s.outFile = [] ∧ ∀ t, (s.thread t).pc = .loop

/-- One initial state: every local is zero. -/
def State.start (N R : ℕ) [NeZero R] : State N R :=
  ⟨0, none, Monitor.init, fun _ => ⟨.loop, 0, 0, 0, 0, 0, 0, []⟩, []⟩

lemma State.start_isInit (N R : ℕ) [NeZero R] : IsInit (State.start N R) :=
  ⟨rfl, rfl, rfl, rfl, fun _ => rfl⟩

/-- The engine with `N` threads and `R` records, run up to commit `E`. -/
def engine (N R : ℕ) (E : ℤ) : Machine (State N R) (Act N R) where
  init := IsInit
  step s a := stepThread E s a.tid a.choice

/-- Thread `t` makes `n` steps. -/
def Act.go (t : Fin N) (n : ℕ) : List (Act N R) := List.replicate n ⟨t, .go⟩

/-- Thread `t` starts an attempt on these records. -/
def Act.start (t : Fin N) (i j k : Fin R) : List (Act N R) := [⟨t, .triple i j k⟩]

end Multicore.Project2
