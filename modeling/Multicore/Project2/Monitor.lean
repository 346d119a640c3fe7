import Mathlib.Data.Fintype.Card
import Mathlib.Tactic

/-!
# The lock tables of the transaction engine

`project2` runs `N` threads over `R` records.  Who may touch a record is decided by three tables,
kept by different classes and changed at different moments; this file is the data and the
sequential code of all three.

* `LockInfo` and the queues `lockRequest` — one FIFO of requests for every record;
* `RWLock` — the reader count and the `writing` flag behind each record's own mutex, with
  `checkQueue`, the gate predicate that reads the record's queue;
* `Monitor` — the queues, the records, `threadsInfo` and the dependency graph, with
  `deadlockCheck`, `deleteLock` and the flag half of `getLock`.

The interleaving of these pieces is `Transaction.lean`.  Thread ids and record indices are `Fin N`
and `Fin R`; a C++ `int` that holds a record value is an `Int32`, and the declared field type
`int64_t` is `Int64`.
-/

namespace Multicore.Project2

variable {N R : ℕ}

/-! ## Requests and queues -/

/-- `enum LockType`: `R` reads record `i`, `W1` writes record `j`, `W2` writes record `k`. -/
inductive LockType
  | R | W1 | W2
  deriving DecidableEq, Repr

instance : Fintype LockType := ⟨{.R, .W1, .W2}, fun ty => by cases ty <;> decide⟩

/-- One entry of a record's queue. -/
structure LockInfo (N R : ℕ) where
  index : Fin R
  type : LockType
  tid : Fin N
  getLock : Bool
  deriving DecidableEq, Repr

/-- `LockInfo::operator==`: the flag `getLock` is not compared. -/
def LockInfo.same (a b : LockInfo N R) : Bool :=
  a.index == b.index && a.type == b.type && a.tid == b.tid

lemma LockInfo.same_iff {a b : LockInfo N R} :
    a.same b = true ↔ a.index = b.index ∧ a.type = b.type ∧ a.tid = b.tid := by
  simp [LockInfo.same, and_assoc]

/-- The loop over the entries before `req` that stops at the first writer: the reader branch of
`checkQueue`, and the last loop of `deadlock_check`. -/
def allReader : List (LockInfo N R) → LockInfo N R → Bool
  | [], _ => true
  | r :: waitings, req =>
      if r.same req then true
      else if r.type ≠ .R then false
      else allReader waitings req

/-- The writer branch of `checkQueue`: stops at the first writer and at the first reader that
has not got its lock yet. -/
def onlyWriter : List (LockInfo N R) → LockInfo N R → Bool
  | [], _ => true
  | r :: waitings, req =>
      if r.same req then true
      else if r.type = .W1 ∨ r.type = .W2 ∨ r.getLock = false then false
      else onlyWriter waitings req

/-- `RWLock::checkQueue`.  The code reads `waitings.front()`, so a queue is never empty here. -/
def checkQueue (waitings : List (LockInfo N R)) (req : LockInfo N R) : Bool :=
  match waitings with
  | [] => false
  | first :: _ =>
      if req.same first then true
      else if req.type = .R then allReader waitings req
      else onlyWriter waitings req

/-! ## Records -/

/-- `RWLock`: who holds `mtx`, the reader count and the writer flag.  The waiters of its two
condition variables are the threads that sleep there. -/
structure RWLock (N : ℕ) where
  mtx : Option (Fin N) := none
  numReader : ℤ := 0
  writing : Bool := false

/-- `Record`: the value, `100` at the start, and its lock. -/
structure Record (N : ℕ) where
  value : Int64 := 100
  rwlock : RWLock N := {}

/-- `int Record::read()`: the 64-bit field is returned as an `int`. -/
def Record.read (r : Record N) : Int32 := r.value.toInt32

/-- `void Record::set(int _value)`. -/
def Record.set (r : Record N) (value : Int32) : Record N := { r with value := value.toInt64 }

@[simp] lemma Record.read_set (r : Record N) (v : Int32) : (r.set v).read = v := by
  simp [Record.read, Record.set]

@[simp] lemma Record.rwlock_set (r : Record N) (v : Int32) : (r.set v).rwlock = r.rwlock := rfl

/-! ## The monitor -/

/-- `Monitor`.  `UNDEFINED` in `threads_info` is `none`. -/
structure Monitor (N R : ℕ) where
  threadsInfo : Fin N → LockType → Option (Fin R)
  lockRequest : Fin R → List (LockInfo N R)
  records : Fin R → Record N
  dependThreads : Fin N → Finset (Fin N)

/-- `Monitor::Monitor`. -/
def Monitor.init : Monitor N R where
  threadsInfo _ _ := none
  lockRequest _ := []
  records _ := {}
  dependThreads _ := ∅

/-- `Monitor::read`. -/
def Monitor.read (m : Monitor N R) (index : Fin R) : Int32 := (m.records index).read

/-- `Monitor::write`. -/
def Monitor.write (m : Monitor N R) (index : Fin R) (value : Int32) : Monitor N R :=
  { m with records := Function.update m.records index ((m.records index).set value) }

/-- A change of one record's `RWLock`. -/
def Monitor.setLock (m : Monitor N R) (index : Fin R) (l : RWLock N) : Monitor N R :=
  { m with records := Function.update m.records index { m.records index with rwlock := l } }

/-- The `RWLock` of a record. -/
def Monitor.lock (m : Monitor N R) (index : Fin R) : RWLock N := (m.records index).rwlock

/-- The second half of `Monitor::getLock`: once the lock is there, mark the entry. -/
def Monitor.setGetLock (m : Monitor N R) (req : LockInfo N R) : Monitor N R :=
  { m with
    lockRequest := Function.update m.lockRequest req.index
      ((m.lockRequest req.index).map fun r =>
        if r.same req then { r with getLock := true } else r) }

/-- `Monitor::deleteLock`: the entry leaves the queue, the thread's table entry is reset and the
thread leaves the dependency graph altogether. -/
def Monitor.deleteLock (m : Monitor N R) (req : LockInfo N R) : Monitor N R where
  lockRequest := Function.update m.lockRequest req.index
    ((m.lockRequest req.index).eraseP fun r => r.same req)
  threadsInfo := Function.update m.threadsInfo req.tid
    (Function.update (m.threadsInfo req.tid) req.type none)
  records := m.records
  dependThreads t := if t = req.tid then ∅ else (m.dependThreads t).erase req.tid

/-! ## Deadlock detection -/

/-- `enum Status`. -/
inductive Status
  | get | waiting | deadlock
  deriving DecidableEq, Repr

/-- The threads the new request has to wait for: every queued writer, and every queued entry at
all when the request is itself a writer. -/
def newDepend (waitings : List (LockInfo N R)) (req : LockInfo N R) : List (Fin N) :=
  (waitings.filter fun r => req.type ≠ .R ∨ r.type ≠ .R).map (·.tid)

/-- The first loop of `deadlock_check`: the new edges of the dependency graph. -/
def Monitor.addDepend (m : Monitor N R) (req : LockInfo N R) : Monitor N R :=
  { m with
    dependThreads := Function.update m.dependThreads req.tid
      (m.dependThreads req.tid ∪ (newDepend (m.lockRequest req.index) req).toFinset) }

/-- The elements of a `set<int>` of thread ids, in the order the loops visit them. -/
def elems (s : Finset (Fin N)) : List (Fin N) := (List.finRange N).filter (· ∈ s)

lemma length_elems_le (s : Finset (Fin N)) : (elems s).length ≤ N := by
  simpa [elems] using List.length_filter_le (· ∈ s) (List.finRange N)

/-- The breadth-first search of `deadlock_check` over the queue `checkDepend`: is `tid` reached?
A thread may be queued several times; it is expanded once, when it is first popped. -/
def findCycle (depend : Fin N → Finset (Fin N)) (tid : Fin N) :
    List (Fin N) → Finset (Fin N) → Bool
  | [], _ => false
  | cur :: checkDepend, visited =>
      if cur = tid then true
      else if cur ∈ visited then findCycle depend tid checkDepend visited
      else findCycle depend tid (checkDepend ++ elems (depend cur)) (insert cur visited)
termination_by checkDepend visited => (N - visited.card) * (N + 1) + checkDepend.length
decreasing_by
  · simp_wf
  · rename_i h
    have h1 : (insert cur visited).card = visited.card + 1 := Finset.card_insert_of_notMem h
    have h2 : (insert cur visited).card ≤ N := by
      simpa using Finset.card_le_univ (insert cur visited)
    have h3 := length_elems_le (depend cur)
    have h4 : N - visited.card = N - (insert cur visited).card + 1 := by omega
    rw [h4, List.length_append, List.length_cons, Nat.succ_mul]
    omega

/-- `Monitor::deadlock_check`.  On a deadlock only the new edges stay behind; otherwise the
request is queued, and it is answered whether it can be served at once. -/
def Monitor.deadlockCheck (m : Monitor N R) (req : LockInfo N R) : Status × Monitor N R :=
  let m := m.addDepend req
  if findCycle m.dependThreads req.tid (elems (m.dependThreads req.tid)) ∅ then (.deadlock, m)
  else
    let queue := m.lockRequest req.index ++ [req]
    let m := { m with
      lockRequest := Function.update m.lockRequest req.index queue
      threadsInfo := Function.update m.threadsInfo req.tid
        (Function.update (m.threadsInfo req.tid) req.type (some req.index)) }
    if (queue.head?.any fun first => first.same req) then (.get, m)
    else if req.type = .R then (if allReader queue req then .get else .waiting, m)
    else (.waiting, m)

end Multicore.Project2
