import Multicore.Lib.Machine
import Multicore.Lab04.Ranges

/-!
# Counting primes with a condition variable

`lab04/prime_cond.cpp`: main reads a range, wakes the workers with a broadcast, waits until all
entries of `thread_ret` are non-negative, and prints their sum.  A worker sleeps twice in each
round of its loop, on the same condition variable: with `thread_ret[tid] = -1` before it counts, and
with its result after it has counted.

Locking, unlocking, going to sleep, waking up, a broadcast and each access to `thread_ret` is one
step of `primeCond N`, with `N` workers; so is counting.  Wake-ups are not spurious.

* `Worker`, `Main` — the program counters.  A worker that is woken for its count remembers the
  number of the broadcast; the source does not, but it tells which range a result is for.
* `Right` — what the `k`-th printed number should be, **and what it should be made of**.
* `Worker.Fits`, `Main.Fits`, `Inv` — where the workers are in relation to main.
* **`right_iff`** — a printed number is right exactly if every worker was in its first sleep at the
  broadcast.  Nothing in the program sees to that, neither for the first range nor later.
-/

namespace Multicore.Lab04

/-! ## The program -/

/-- Where main stands. -/
inductive Main
  /-- `scanf("%d", &range_start)` -/
  | scanStart
  /-- `scanf("%d", &range_end)` -/
  | scanEnd
  | lock
  | broadcast
  | unlock
  /-- about to test `thread_ret[i]`, or after the last test -/
  | poll (i : ℕ)
  /-- about to add `thread_ret[i]`, or to print; `sources` are those of the entries added -/
  | collect (i : ℕ) (cntPrime : ℤ) (sources : List (Option ℕ))
  /-- the steps after the input `-1` -/
  | stopLock
  | stopBroadcast
  | stopUnlock
  | exited

/-- Where a worker stands; `r` is the number of the broadcast that woke it. -/
inductive Worker
  | lock1
  /-- `thread_ret[tid] = -1` -/
  | reset
  /-- the first `pthread_cond_wait`: about to sleep, asleep, and woken but without the mutex -/
  | wait1
  | asleep1
  | woken1 (r : ℕ)
  | unlock1 (r : ℕ)
  | count (r : ℕ)
  | lock2 (r : ℕ) (cnt : ℤ)
  /-- `thread_ret[tid] = cnt_prime` -/
  | store (r : ℕ) (cnt : ℤ)
  /-- the second `pthread_cond_wait` -/
  | wait2
  | asleep2
  | woken2
  | unlock2
  deriving DecidableEq

/-- A printed number, and the rounds in which its summands were counted; `none` is the `0` from the
start, or `-1`. -/
structure Output where
  cntPrime : ℤ
  sources : List (Option ℕ)
  deriving DecidableEq

/-- The memory, and where the threads stand; `owner` is who has the mutex, main being `none`.  The
last four fields are history. -/
structure State (N : ℕ) where
  rangeStart : ℤ
  rangeEnd : ℤ
  threadRet : Fin N → ℤ
  owner : Option (Option (Fin N))
  main : Main
  worker : Fin N → Worker
  /-- the ranges that were read -/
  inputs : List (ℤ × ℤ)
  /-- for each broadcast: whether it found all workers in their first sleep -/
  ready : List Bool
  /-- for each entry of `threadRet`: the number of the broadcast it was counted for -/
  source : Fin N → Option ℕ
  printed : List Output

variable {N : ℕ}

/-- The start: the workers have been created. -/
def State.start (N : ℕ) : State N where
  rangeStart := 0
  rangeEnd := 0
  threadRet _ := 0
  owner := none
  main := .scanStart
  worker _ := .lock1
  inputs := []
  ready := []
  source _ := none
  printed := []

/-- Main reads a number, or takes its next step; a worker takes its next step. -/
inductive Act (N : ℕ)
  | scan (n : ℤ)
  | main
  | worker (i : Fin N)

/-- The effect of a broadcast, the `r`-th, on a worker. -/
def Worker.wake (r : ℕ) : Worker → Worker
  | .asleep1 => .woken1 r
  | .asleep2 => .woken2
  | w => w

namespace State

variable (s : State N)

/-- The broadcast for a range. -/
def broadcast : State N :=
  { s with
    main := .unlock
    worker := fun i => (s.worker i).wake s.ready.length
    ready := s.ready ++ [decide (∀ i, s.worker i = .asleep1)] }

/-- The broadcast after the input `-1`. -/
def stopBroadcast : State N :=
  { s with main := .stopUnlock, worker := fun i => (s.worker i).wake s.ready.length }

/-- The end of a round. -/
def print (cntPrime : ℤ) (sources : List (Option ℕ)) : State N :=
  { s with main := .scanStart, printed := s.printed ++ [⟨cntPrime, sources⟩] }

/-- Main reads a number. -/
def scan (n : ℤ) : Option (State N) :=
  match s.main with
  | .scanStart =>
      some { s with rangeStart := n, main := if n = -1 then .stopLock else .scanEnd }
  | .scanEnd =>
      some { s with rangeEnd := n, main := .lock, inputs := s.inputs ++ [(s.rangeStart, n)] }
  | _ => none

/-- The next step of main. -/
def mainStep : Option (State N) :=
  match s.main with
  | .lock => if s.owner = none then some { s with owner := some none, main := .broadcast } else none
  | .broadcast => some s.broadcast
  | .unlock => some { s with owner := none, main := .poll 0 }
  | .poll i =>
      if h : i < N then
        if s.threadRet ⟨i, h⟩ < 0 then some { s with main := .poll 0 }
        else some { s with main := .poll (i + 1) }
      else some { s with main := .collect 0 0 [] }
  | .collect i cnt sources =>
      if h : i < N then
        some { s with
          main := .collect (i + 1) (cnt + s.threadRet ⟨i, h⟩) (sources ++ [s.source ⟨i, h⟩]) }
      else some (s.print cnt sources)
  | .stopLock =>
      if s.owner = none then some { s with owner := some none, main := .stopBroadcast } else none
  | .stopBroadcast => some s.stopBroadcast
  | .stopUnlock => some { s with owner := none, main := .exited }
  | _ => none

/-- A worker takes the mutex and goes on at `w`. -/
def acquire (i : Fin N) (w : Worker) : Option (State N) :=
  if s.owner = none then
    some { s with owner := some (some i), worker := Function.update s.worker i w }
  else none

/-- A worker gives the mutex back and goes on at `w`. -/
def release (i : Fin N) (w : Worker) : State N :=
  { s with owner := none, worker := Function.update s.worker i w }

/-- A worker writes its entry, a result counted for the round `source` or `-1`, and goes on at
`w`. -/
def writeRet (i : Fin N) (ret : ℤ) (source : Option ℕ) (w : Worker) : State N :=
  { s with
    threadRet := Function.update s.threadRet i ret
    source := Function.update s.source i source
    worker := Function.update s.worker i w }

/-- The next step of a worker. -/
def workerStep (i : Fin N) : Option (State N) :=
  match s.worker i with
  | .lock1 => s.acquire i .reset
  | .reset => some (s.writeRet i (-1) none .wait1)
  | .wait1 => some (s.release i .asleep1)
  | .asleep1 => none
  | .woken1 r => s.acquire i (.unlock1 r)
  | .unlock1 r => some (s.release i (.count r))
  | .count r =>
      some { s with
        worker := Function.update s.worker i (.lock2 r (cntPrime N (s.rangeStart, s.rangeEnd) i)) }
  | .lock2 r cnt => s.acquire i (.store r cnt)
  | .store r cnt => some (s.writeRet i cnt (some r) .wait2)
  | .wait2 => some (s.release i .asleep2)
  | .asleep2 => none
  | .woken2 => s.acquire i .unlock2
  | .unlock2 => some (s.release i .lock1)

end State

/-- The program with `N` workers; in the source `NUM_THREAD` is `10`. -/
def primeCond (N : ℕ) : Machine (State N) (Act N) where
  init s := s = State.start N
  step s
    | .scan n => s.scan n
    | .main => s.mainStep
    | .worker i => s.workerStep i

/-! ## The property -/

/-- The sum over all workers of the prime counts of their sub-ranges. -/
def total (N : ℕ) (range : ℤ × ℤ) : ℤ := ∑ i : Fin N, cntPrime N range i

/-- The `k`-th printed number belongs to the `k`-th range, and all its summands were counted for
it. -/
def Right (s : State N) (k : ℕ) (out : Output) : Prop :=
  ∃ range, s.inputs[k]? = some range ∧ out.cntPrime = total N range ∧
    out.sources = List.replicate N (some k)

/-! ## What the steps can do -/

/-- The steps of main. -/
inductive MainMove (s : State N) : State N → Prop
  | scanStart {n : ℤ} (hm : s.main = .scanStart) :
      MainMove s { s with rangeStart := n, main := .scanEnd }
  | scanStop {n : ℤ} (hm : s.main = .scanStart) :
      MainMove s { s with rangeStart := n, main := .stopLock }
  | scanEnd {n : ℤ} (hm : s.main = .scanEnd) :
      MainMove s { s with rangeEnd := n, main := .lock, inputs := s.inputs ++ [(s.rangeStart, n)] }
  | lock (hm : s.main = .lock) (ho : s.owner = none) :
      MainMove s { s with owner := some none, main := .broadcast }
  | broadcast (hm : s.main = .broadcast) : MainMove s s.broadcast
  | unlock (hm : s.main = .unlock) : MainMove s { s with owner := none, main := .poll 0 }
  | pollAgain {i : ℕ} (hm : s.main = .poll i) : MainMove s { s with main := .poll 0 }
  | pollNext {i : Fin N} (hm : s.main = .poll i) (hret : 0 ≤ s.threadRet i) :
      MainMove s { s with main := .poll (i + 1) }
  | pollDone {i : ℕ} (hm : s.main = .poll i) (hi : N ≤ i) :
      MainMove s { s with main := .collect 0 0 [] }
  | collect {i : Fin N} {cnt : ℤ} {sources : List (Option ℕ)}
      (hm : s.main = .collect i cnt sources) :
      MainMove s { s with
        main := .collect (i + 1) (cnt + s.threadRet i) (sources ++ [s.source i]) }
  | print {i : ℕ} {cnt : ℤ} {sources : List (Option ℕ)} (hm : s.main = .collect i cnt sources)
      (hi : N ≤ i) : MainMove s (s.print cnt sources)
  | stopLock (hm : s.main = .stopLock) (ho : s.owner = none) :
      MainMove s { s with owner := some none, main := .stopBroadcast }
  | stopBroadcast (hm : s.main = .stopBroadcast) : MainMove s s.stopBroadcast
  | stopUnlock (hm : s.main = .stopUnlock) : MainMove s { s with owner := none, main := .exited }

/-- The worker takes the mutex between the two places. -/
inductive Acquires : Worker → Worker → Prop
  | lock1 : Acquires .lock1 .reset
  | woken1 (r : ℕ) : Acquires (.woken1 r) (.unlock1 r)
  | lock2 (r : ℕ) (cnt : ℤ) : Acquires (.lock2 r cnt) (.store r cnt)
  | woken2 : Acquires .woken2 .unlock2

/-- The worker gives the mutex back between the two places. -/
inductive Releases : Worker → Worker → Prop
  | wait1 : Releases .wait1 .asleep1
  | unlock1 (r : ℕ) : Releases (.unlock1 r) (.count r)
  | wait2 : Releases .wait2 .asleep2
  | unlock2 : Releases .unlock2 .lock1

/-- The steps of a worker. -/
inductive WorkerMove (s : State N) (i : Fin N) : State N → Prop
  | acquire {w w' : Worker} (hw : s.worker i = w) (ha : Acquires w w') (ho : s.owner = none) :
      WorkerMove s i { s with owner := some (some i), worker := Function.update s.worker i w' }
  | release {w w' : Worker} (hw : s.worker i = w) (hr : Releases w w') :
      WorkerMove s i (s.release i w')
  | reset (hw : s.worker i = .reset) : WorkerMove s i (s.writeRet i (-1) none .wait1)
  | count {r : ℕ} (hw : s.worker i = .count r) : WorkerMove s i { s with
      worker := Function.update s.worker i (.lock2 r (cntPrime N (s.rangeStart, s.rangeEnd) i)) }
  | store {r : ℕ} {cnt : ℤ} (hw : s.worker i = .store r cnt) :
      WorkerMove s i (s.writeRet i cnt (some r) .wait2)

lemma mainMove_of_scan {s s' : State N} {n : ℤ} (h : s.scan n = some s') : MainMove s s' := by
  simp only [State.scan] at h
  split at h
  · rename_i hm
    obtain rfl := Option.some.inj h
    split_ifs
    · exact .scanStop hm
    · exact .scanStart hm
  · rename_i hm
    obtain rfl := Option.some.inj h
    exact .scanEnd hm
  · cases h

lemma mainMove_of_step {s s' : State N} (h : s.mainStep = some s') : MainMove s s' := by
  simp only [State.mainStep] at h
  split at h
  · rename_i hm
    obtain ⟨ho, h⟩ := Option.ite_none_right_eq_some.1 h
    obtain rfl := Option.some.inj h
    exact .lock hm ho
  · rename_i hm
    obtain rfl := Option.some.inj h
    exact .broadcast hm
  · rename_i hm
    obtain rfl := Option.some.inj h
    exact .unlock hm
  · rename_i i hm
    split_ifs at h with hi hret <;> obtain rfl := Option.some.inj h
    · exact .pollAgain hm
    · exact .pollNext (i := ⟨i, hi⟩) hm (not_lt.1 hret)
    · exact .pollDone hm (not_lt.1 hi)
  · rename_i i cnt sources hm
    split_ifs at h with hi <;> obtain rfl := Option.some.inj h
    · exact .collect (i := ⟨i, hi⟩) hm
    · exact .print hm (not_lt.1 hi)
  · rename_i hm
    obtain ⟨ho, h⟩ := Option.ite_none_right_eq_some.1 h
    obtain rfl := Option.some.inj h
    exact .stopLock hm ho
  · rename_i hm
    obtain rfl := Option.some.inj h
    exact .stopBroadcast hm
  · rename_i hm
    obtain rfl := Option.some.inj h
    exact .stopUnlock hm
  · cases h

lemma workerMove_of_acquire {s s' : State N} {i : Fin N} {w w' : Worker} (hw : s.worker i = w)
    (ha : Acquires w w') (h : s.acquire i w' = some s') : WorkerMove s i s' := by
  obtain ⟨ho, h⟩ := Option.ite_none_right_eq_some.1 h
  obtain rfl := Option.some.inj h
  exact .acquire hw ha ho

lemma workerMove_of_step {s s' : State N} {i : Fin N} (h : s.workerStep i = some s') :
    WorkerMove s i s' := by
  simp only [State.workerStep] at h
  split at h
  · rename_i hw
    exact workerMove_of_acquire hw .lock1 h
  · rename_i hw
    obtain rfl := Option.some.inj h
    exact .reset hw
  · rename_i hw
    obtain rfl := Option.some.inj h
    exact .release hw .wait1
  · cases h
  · rename_i r hw
    exact workerMove_of_acquire hw (.woken1 r) h
  · rename_i r hw
    obtain rfl := Option.some.inj h
    exact .release hw (.unlock1 r)
  · rename_i r hw
    obtain rfl := Option.some.inj h
    exact .count hw
  · rename_i r cnt hw
    exact workerMove_of_acquire hw (.lock2 r cnt) h
  · rename_i r cnt hw
    obtain rfl := Option.some.inj h
    exact .store hw
  · rename_i hw
    obtain rfl := Option.some.inj h
    exact .release hw .wait2
  · cases h
  · rename_i hw
    exact workerMove_of_acquire hw .woken2 h
  · rename_i hw
    obtain rfl := Option.some.inj h
    exact .release hw .unlock2

/-! ## The mutex -/

/-- Main has the mutex. -/
def Main.inside : Main → Bool
  | .broadcast => true
  | .unlock => true
  | .stopBroadcast => true
  | .stopUnlock => true
  | _ => false

/-- The worker has the mutex. -/
def Worker.inside : Worker → Bool
  | .reset => true
  | .wait1 => true
  | .unlock1 _ => true
  | .store _ _ => true
  | .wait2 => true
  | .unlock2 => true
  | _ => false

lemma Worker.inside_wake (r : ℕ) (w : Worker) : (w.wake r).inside = w.inside := by
  cases w <;> rfl

variable {s s' : State N} {i : Fin N}

/-- Who is inside; main is `none`, as in `owner`. -/
def State.claim (s : State N) : Option (Fin N) → Option Unit
  | none => if s.main.inside then some () else none
  | some i => if (s.worker i).inside then some () else none

/-- Whoever is inside has the mutex. -/
def Owned (s : State N) : Prop := ∀ u x, s.claim u = some x → s.owner = some u

/-- The step of one thread, main or a worker. -/
lemma Owned.step (h : Owned s) (t : Option (Fin N))
    (hs : MutexStep t (fun _ : Unit => s.owner) (fun _ => s'.owner) (s.claim t) (s'.claim t))
    (hne : ∀ u, u ≠ t → s'.claim u = s.claim u) : Owned s' :=
  MutexStep.owned s.claim s'.claim hs h hne

/-- A store into the one mutex. -/
lemma owner_update (s : State N) (o : Option (Option (Fin N))) :
    (fun _ : Unit => o) = Function.update (fun _ => s.owner) () o := by
  funext x
  rw [Function.update_self]

lemma Owned.mainMove (h : Owned s) (hm : MainMove s s') : Owned s' := by
  refine h.step none ?_ ?_
  · cases hm with
    | scanStart hm | scanStop hm | scanEnd hm | pollAgain hm | pollNext hm | pollDone hm
    | collect hm | print hm | broadcast hm | stopBroadcast hm =>
        exact .keep rfl (by simp only [State.claim, hm]; rfl)
    | lock hm ho | stopLock hm ho =>
        exact .lock () ho (by simp only [State.claim, hm]; rfl) (owner_update s _) rfl
    | unlock hm | stopUnlock hm =>
        exact .unlock () (by simp only [State.claim, hm]; rfl) (owner_update s _) rfl
  · intro u hu
    cases u with
    | none => exact absurd rfl hu
    | some i =>
        cases hm with
        | broadcast hm | stopBroadcast hm =>
            simp only [State.claim, State.broadcast, State.stopBroadcast, Worker.inside_wake]
        | _ => rfl

lemma Owned.workerMove (h : Owned s) (hm : WorkerMove s i s') : Owned s' := by
  refine h.step (some i) ?_ ?_
  · cases hm with
    | acquire hw ha ho =>
        refine .lock () ho ?_ (owner_update s _) ?_
        · cases ha <;> simp [State.claim, hw, Worker.inside]
        · cases ha <;> simp [State.claim, Worker.inside]
    | release hw hr =>
        refine .unlock () ?_ (owner_update s _) ?_
        · cases hr <;> simp [State.claim, hw, Worker.inside]
        · cases hr <;> simp [State.claim, State.release, Worker.inside]
    | reset hw | store hw =>
        exact .keep rfl (by simp [State.claim, State.writeRet, hw, Worker.inside])
    | count hw => exact .keep rfl (by simp [State.claim, hw, Worker.inside])
  · intro u hu
    cases u with
    | none => cases hm <;> rfl
    | some j =>
        have hj : j ≠ i := fun e => hu (congrArg some e)
        cases hm <;> simp [State.claim, State.release, State.writeRet, Function.update_of_ne hj]

lemma owned_of_reachable (hs : (primeCond N).Reachable s) : Owned s := by
  refine Machine.Run.invariant (I := Owned) ?_ ?_ s hs
  · rintro _ rfl u x hu
    cases u <;> simp [State.claim, State.start, Main.inside, Worker.inside] at hu
  · intro s a s' _ h _ hstep
    cases a with
    | scan n => exact h.mainMove (mainMove_of_scan hstep)
    | main => exact h.mainMove (mainMove_of_step hstep)
    | worker i => exact h.workerMove (workerMove_of_step hstep)

/-- At the broadcast nobody is about to go to sleep. -/
lemma Owned.ne_wait2 (h : Owned s) (hm : s.main = .broadcast) (i : Fin N) :
    s.worker i ≠ .wait2 := by
  intro hw
  have hmain : s.owner = some none := h none () (by simp [State.claim, hm, Main.inside])
  have hworker : s.owner = some (some i) := h (some i) () (by simp [State.claim, hw, Worker.inside])
  simp [hmain] at hworker

/-! ## Where the workers are in relation to main -/

/-- Main still waits for the entry of worker `i`. -/
def Main.waitsFor (i : ℕ) : Main → Prop
  | .unlock => True
  | .poll j => j ≤ i
  | _ => False

/-- Main is between a broadcast and its printing. -/
def Main.inRound : Main → Bool
  | .unlock => true
  | .poll _ => true
  | .collect _ _ _ => true
  | _ => false

/-- Main has read the input `-1`. -/
def Main.stopped : Main → Bool
  | .stopLock => true
  | .stopBroadcast => true
  | .stopUnlock => true
  | .exited => true
  | _ => false

/-- The worker got the last broadcast in its first sleep. -/
def Worker.got : Worker → Bool
  | .woken1 _ => true
  | .unlock1 _ => true
  | .count _ => true
  | .lock2 _ _ => true
  | .store _ _ => true
  | .wait2 => true
  | .asleep2 => true
  | _ => false

/-- A worker with the entry `ret` that was woken for round `r` and has not stored its result yet;
there have been `rounds` broadcasts. -/
structure Counting (rounds : ℕ) (main : Main) (i r : ℕ) (source : Option ℕ) (ret : ℤ) : Prop where
  source : source = none
  ret : ret = -1
  round : r + 1 = rounds
  waits : main.waitsFor i

/-- The entry `ret` of worker `i`, counted for round `source`, fits where the worker stands. -/
def Worker.Fits (N : ℕ) (inputs : List (ℤ × ℤ)) (rounds : ℕ) (main : Main) (i : ℕ)
    (source : Option ℕ) (ret : ℤ) : Worker → Prop
  -- it missed the last broadcast, or was woken by it from its second sleep: the entry is old
  | .lock1 => ∀ r, source = some r → r + 1 < rounds
  | .reset => ∀ r, source = some r → r + 1 < rounds
  | .woken2 => ∀ r, source = some r → r + 1 < rounds
  | .unlock2 => ∀ r, source = some r → r + 1 < rounds
  | .wait1 => source = none ∧ ret = -1
  | .asleep1 => source = none ∧ ret = -1
  | .woken1 r => Counting rounds main i r source ret
  | .unlock1 r => Counting rounds main i r source ret
  | .count r => Counting rounds main i r source ret
  | .lock2 r cnt => Counting rounds main i r source ret ∧
      ∃ range, inputs[r]? = some range ∧ cnt = cntPrime N range i
  | .store r cnt => Counting rounds main i r source ret ∧
      ∃ range, inputs[r]? = some range ∧ cnt = cntPrime N range i
  | .wait2 => ∃ r range, source = some r ∧ r + 1 = rounds ∧ inputs[r]? = some range ∧
      ret = cntPrime N range i
  | .asleep2 => ∃ r range, source = some r ∧ r + 1 = rounds ∧ inputs[r]? = some range ∧
      ret = cntPrime N range i

/-- What main has collected from the first `i` workers for round `k`, if `got` are the workers that
got the broadcast. -/
structure Collected (k : ℕ) (range : ℤ × ℤ) (got : Fin N → Bool) (i : ℕ) (cnt : ℤ)
    (sources : List (Option ℕ)) : Prop where
  le : i ≤ N
  length : sources.length = i
  source : ∀ j : Fin N, j.1 < i → (sources[j.1]? = some (some k) ↔ got j = true)
  sum : (∀ j, got j = true) → cnt = ∑ j : Fin N, if j.1 < i then cntPrime N range j else 0

/-- The numbers of broadcasts and outputs, and the current range, fit where main stands. -/
def Main.Fits (inputs : List (ℤ × ℤ)) (rounds outputs : ℕ) (range : ℤ × ℤ) (got : Fin N → Bool) :
    Main → Prop
  | .scanStart => inputs.length = rounds ∧ outputs = rounds
  | .scanEnd => inputs.length = rounds ∧ outputs = rounds
  | .lock => inputs.length = rounds + 1 ∧ outputs = rounds ∧ inputs[outputs]? = some range
  | .broadcast => inputs.length = rounds + 1 ∧ outputs = rounds ∧ inputs[outputs]? = some range
  | .unlock => inputs.length = rounds ∧ outputs + 1 = rounds ∧ inputs[outputs]? = some range
  | .poll _ => inputs.length = rounds ∧ outputs + 1 = rounds ∧ inputs[outputs]? = some range
  | .collect i cnt sources => inputs.length = rounds ∧ outputs + 1 = rounds ∧
      inputs[outputs]? = some range ∧ Collected outputs range got i cnt sources
  | _ => True

lemma Main.waitsFor.inRound {main : Main} {i : ℕ} (h : main.waitsFor i) : main.inRound = true := by
  cases main with
  | unlock | poll => rfl
  | _ => cases h

/-- In a round the range is the current one. -/
lemma Main.Fits.current {main : Main} {inputs : List (ℤ × ℤ)} {rounds outputs : ℕ} {range : ℤ × ℤ}
    {got : Fin N → Bool} (h : main.Fits inputs rounds outputs range got)
    (hr : main.inRound = true) :
    inputs.length = rounds ∧ outputs + 1 = rounds ∧ inputs[outputs]? = some range := by
  cases main with
  | unlock | poll => exact h
  | collect => exact ⟨h.1, h.2.1, h.2.2.1⟩
  | _ => cases hr

/-- **The invariant.** -/
structure Inv (s : State N) : Prop where
  printed : ∀ k out, s.printed[k]? = some out → (Right s k out ↔ s.ready[k]? = some true)
  main : s.main.Fits s.inputs s.ready.length s.printed.length (s.rangeStart, s.rangeEnd)
    fun i => (s.worker i).got
  workers : s.main.stopped = false → ∀ i, (s.worker i).Fits N s.inputs s.ready.length s.main i
    (s.source i) (s.threadRet i)
  ready : s.main.inRound = true →
    s.ready[s.printed.length]? = some (decide (∀ i, (s.worker i).got = true))

lemma inv_start : Inv (State.start N) where
  printed k out h := by simp [State.start] at h
  main := ⟨rfl, rfl⟩
  workers _ i r h := nomatch h
  ready h := nomatch h

/-- A worker moves, and keeps having got the broadcast or not. -/
lemma Inv.workerStep (h : Inv s) {w : Worker} (hw : s'.worker = Function.update s.worker i w)
    (hmain : s'.main = s.main)
    (hrange : (s'.rangeStart, s'.rangeEnd) = (s.rangeStart, s.rangeEnd))
    (hin : s'.inputs = s.inputs) (hready : s'.ready = s.ready) (hout : s'.printed = s.printed)
    (hother : ∀ j, j ≠ i → s'.source j = s.source j ∧ s'.threadRet j = s.threadRet j)
    (hgot : w.got = (s.worker i).got)
    (hfit : s.main.stopped = false →
      w.Fits N s.inputs s.ready.length s.main i (s'.source i) (s'.threadRet i)) : Inv s' := by
  have hgots : (fun j => (s'.worker j).got) = fun j => (s.worker j).got := by
    funext j
    rw [hw, Function.update_apply]
    split_ifs with hj
    · rw [hj, hgot]
    · rfl
  refine ⟨?_, ?_, ?_, ?_⟩
  · simpa only [Right, hin, hready, hout] using h.printed
  · rw [hmain, hin, hready, hout, hrange, hgots]
    exact h.main
  · rw [hmain]
    intro hst j
    rw [hin, hready, hw, Function.update_apply]
    split_ifs with hj
    · subst hj
      exact hfit hst
    · obtain ⟨hs, hr⟩ := hother j hj
      rw [hs, hr]
      exact h.workers hst j
  · rw [hmain, hready, hout]
    intro hr
    have hall : (∀ j, (s'.worker j).got = true) ↔ ∀ j, (s.worker j).got = true := by
      simp only [congrFun hgots]
    simpa only [hall] using h.ready hr

lemma Inv.workerMove (h : Inv s) (hm : WorkerMove s i s') : Inv s' := by
  cases hm with
  | @acquire w w' hw ha ho =>
      refine h.workerStep rfl rfl rfl rfl rfl rfl (fun _ _ => ⟨rfl, rfl⟩) ?_ fun hst => ?_
      · rw [hw]
        cases ha <;> rfl
      · have hfit := h.workers hst i
        rw [hw] at hfit
        cases ha <;> exact hfit
  | @release w w' hw hr =>
      refine h.workerStep rfl rfl rfl rfl rfl rfl (fun _ _ => ⟨rfl, rfl⟩) ?_ fun hst => ?_
      · rw [hw]
        cases hr <;> rfl
      · have hfit := h.workers hst i
        rw [hw] at hfit
        cases hr <;> exact hfit
  | reset hw =>
      refine h.workerStep rfl rfl rfl rfl rfl rfl ?_ (by rw [hw]; rfl) fun _ => ?_
      · exact fun j hj => ⟨Function.update_of_ne hj _ _, Function.update_of_ne hj _ _⟩
      · exact ⟨Function.update_self .., Function.update_self ..⟩
  | @count r hw =>
      refine h.workerStep rfl rfl rfl rfl rfl rfl (fun _ _ => ⟨rfl, rfl⟩) (by rw [hw]; rfl) ?_
      intro hst
      have hfit := h.workers hst i
      rw [hw] at hfit
      -- main waits, so the range is still that of the round
      obtain ⟨-, hout, hrange⟩ := h.main.current hfit.waits.inRound
      obtain rfl : r = s.printed.length := by
        have := hfit.round
        omega
      exact ⟨hfit, _, hrange, rfl⟩
  | @store r cnt hw =>
      refine h.workerStep rfl rfl rfl rfl rfl rfl ?_ (by rw [hw]; rfl) fun hst => ?_
      · exact fun j hj => ⟨Function.update_of_ne hj _ _, Function.update_of_ne hj _ _⟩
      · have hfit := h.workers hst i
        rw [hw] at hfit
        obtain ⟨hc, range, hrange, rfl⟩ := hfit
        exact ⟨r, range, Function.update_self .., hc.round, hrange, Function.update_self ..⟩

/-- Main moves on, or reads a further range: nothing changes for a worker that main does not stop
waiting for. -/
lemma Worker.Fits.mono {w : Worker} {inputs inputs' : List (ℤ × ℤ)} {rounds j : ℕ} {m m' : Main}
    {source : Option ℕ} {ret : ℤ} (h : w.Fits N inputs rounds m j source ret)
    (hin : ∀ (r : ℕ) range, inputs[r]? = some range → inputs'[r]? = some range)
    (hw : ret = -1 → m.waitsFor j → m'.waitsFor j) : w.Fits N inputs' rounds m' j source ret := by
  have hc : ∀ r, Counting rounds m j r source ret → Counting rounds m' j r source ret :=
    fun r hc => ⟨hc.source, hc.ret, hc.round, hw hc.ret hc.waits⟩
  cases w with
  | lock1 | reset | woken2 | unlock2 | wait1 | asleep1 => exact h
  | woken1 r | unlock1 r | count r => exact hc r h
  | lock2 r cnt | store r cnt =>
      obtain ⟨hcount, range, hrange, hcnt⟩ := h
      exact ⟨hc r hcount, range, hin r range hrange, hcnt⟩
  | wait2 | asleep2 =>
      obtain ⟨r, range, hsrc, hround, hrange, hret⟩ := h
      exact ⟨r, range, hsrc, hround, hin r range hrange, hret⟩

/-- A worker that got the broadcast, and that main does not wait for, has stored its result. -/
lemma Worker.Fits.stored {w : Worker} {inputs : List (ℤ × ℤ)} {rounds j : ℕ} {m : Main}
    {source : Option ℕ} {ret : ℤ} (h : w.Fits N inputs rounds m j source ret)
    (hm : ¬ m.waitsFor j) (hgot : w.got = true) :
    (w = .wait2 ∨ w = .asleep2) ∧ ∃ r range, source = some r ∧ r + 1 = rounds ∧
      inputs[r]? = some range ∧ ret = cntPrime N range j := by
  cases w with
  | wait2 => exact ⟨Or.inl rfl, h⟩
  | asleep2 => exact ⟨Or.inr rfl, h⟩
  | woken1 | unlock1 | count => exact absurd (Counting.waits h) hm
  | lock2 | store => exact absurd h.1.waits hm
  | lock1 | reset | wait1 | asleep1 | woken2 | unlock2 => cases hgot

/-- The entry of a worker that did not get the broadcast is none of this round. -/
lemma Worker.Fits.old {w : Worker} {inputs : List (ℤ × ℤ)} {rounds j : ℕ} {m : Main}
    {source : Option ℕ} {ret : ℤ} (h : w.Fits N inputs rounds m j source ret)
    (hgot : w.got = false) : ∀ r, source = some r → r + 1 < rounds := by
  cases w with
  | lock1 | reset | woken2 | unlock2 => exact h
  | wait1 | asleep1 =>
      intro r hr
      rw [h.1] at hr
      cases hr
  | woken1 | unlock1 | count | lock2 | store | wait2 | asleep2 => cases hgot

/-- The broadcast of the next round, when nobody counts or is about to go to sleep. -/
lemma Worker.Fits.wake {w : Worker} {inputs : List (ℤ × ℤ)} {rounds j : ℕ} {m : Main}
    {source : Option ℕ} {ret : ℤ} (h : w.Fits N inputs rounds m j source ret)
    (hm : ¬ m.waitsFor j) (hne : w ≠ .wait2) :
    (w.wake rounds).Fits N inputs (rounds + 1) .unlock j source ret ∧
      ((w.wake rounds).got = true ↔ w = .asleep1) := by
  cases hgot : w.got with
  | true =>
      obtain ⟨hw, r, range, hsrc, hround, -⟩ := h.stored hm hgot
      obtain rfl := hw.resolve_left hne
      refine ⟨fun r' hr' => ?_, by simp [Worker.wake, Worker.got]⟩
      obtain rfl : r = r' := Option.some.inj (hsrc.symm.trans hr')
      omega
  | false =>
      have hold := h.old hgot
      cases w with
      | lock1 | reset | woken2 | unlock2 =>
          exact ⟨fun r hr => (hold r hr).trans (Nat.lt_succ_self _),
            by simp [Worker.wake, Worker.got]⟩
      | wait1 => exact ⟨h, by simp [Worker.wake, Worker.got]⟩
      | asleep1 => exact ⟨⟨h.1, h.2, rfl, trivial⟩, by simp [Worker.wake, Worker.got]⟩
      | woken1 | unlock1 | count | lock2 | store | wait2 | asleep2 => cases hgot

/-- Main moves on without printing or waking anybody. -/
lemma Inv.mainStep (h : Inv s) (hw : s'.worker = s.worker) (hret : s'.threadRet = s.threadRet)
    (hsrc : s'.source = s.source) (hin : s'.inputs = s.inputs) (hready : s'.ready = s.ready)
    (hout : s'.printed = s.printed)
    (hfit : s'.main.Fits s.inputs s.ready.length s.printed.length (s'.rangeStart, s'.rangeEnd)
      fun i => (s.worker i).got)
    (hst : s'.main.stopped = false → s.main.stopped = false)
    (hwait : ∀ i, s.threadRet i = -1 → s.main.waitsFor i → s'.main.waitsFor i)
    (hround : s'.main.inRound = true → s.main.inRound = true) : Inv s' := by
  refine ⟨?_, ?_, ?_, ?_⟩
  · simpa only [Right, hin, hready, hout] using h.printed
  · rw [hin, hready, hout, hw]
    exact hfit
  · intro hstop j
    rw [hin, hready, hw, hret, hsrc]
    exact (h.workers (hst hstop) j).mono (fun _ _ hr => hr) (hwait j)
  · intro hr
    rw [hready, hout, hw]
    exact h.ready (hround hr)

/-- A further range is read. -/
lemma Inv.scanEnd (h : Inv s) (hm : s.main = .scanEnd) (n : ℤ) :
    Inv { s with rangeEnd := n, main := .lock, inputs := s.inputs ++ [(s.rangeStart, n)] } := by
  have hmain := h.main
  rw [hm] at hmain
  obtain ⟨hlen, hout⟩ := hmain
  have hkeep : ∀ (r : ℕ) range, s.inputs[r]? = some range →
      (s.inputs ++ [(s.rangeStart, n)])[r]? = some range := by
    intro r range hr
    rw [List.getElem?_append_left (List.getElem?_eq_some_iff.1 hr).1]
    exact hr
  refine ⟨fun k out hk => ?_, ?_, fun _ j => ?_, nofun⟩
  · have hlt : k < s.inputs.length := by
      have hk : k < s.printed.length := (List.getElem?_eq_some_iff.1 hk).1
      omega
    simpa only [Right, List.getElem?_append_left hlt] using h.printed k out hk
  · refine ⟨by simp [hlen], hout, ?_⟩
    show (s.inputs ++ [(s.rangeStart, n)])[s.printed.length]? = _
    rw [hout, ← hlen]
    simp
  · refine (h.workers (by rw [hm]; rfl) j).mono hkeep fun _ hw => ?_
    rw [hm] at hw
    exact hw.elim

/-- **The broadcast** starts a round: the workers that get it are those in their first sleep. -/
lemma Inv.broadcast (h : Inv s) (ho : Owned s) (hm : s.main = .broadcast) : Inv s.broadcast := by
  have hmain := h.main
  rw [hm] at hmain
  obtain ⟨hlen, hout, hrange⟩ := hmain
  have hfits := h.workers (by rw [hm]; rfl)
  have hwake : ∀ i, _ := fun i => (hfits i).wake (by rw [hm]; exact id) (ho.ne_wait2 hm i)
  refine ⟨fun k out hk => ?_, ?_, fun _ i => ?_, fun _ => ?_⟩
  · have hlt : k < s.ready.length := by
      have := (List.getElem?_eq_some_iff.1 hk).1
      exact hout ▸ this
    simpa only [State.broadcast, Right, List.getElem?_append_left hlt] using h.printed k out hk
  · refine ⟨?_, ?_, hrange⟩
    · simpa [State.broadcast] using hlen
    · simpa [State.broadcast] using hout
  · simpa only [State.broadcast, List.length_append, List.length_singleton] using (hwake i).1
  · show (s.ready ++ [_])[s.printed.length]? = _
    rw [hout, List.getElem?_concat_length]
    simp only [State.broadcast, (hwake _).2]

/-- The sum over one more worker. -/
lemma sum_lt_succ (f : Fin N → ℤ) (i : Fin N) :
    (∑ j : Fin N, if j.1 < i + 1 then f j else 0)
      = (∑ j : Fin N, if j.1 < i then f j else 0) + f i := by
  have hsplit : ∀ j : Fin N, (if j.1 < i + 1 then f j else 0) =
      (if j.1 < i then f j else 0) + if j = i then f j else 0 := by
    intro j
    rcases Nat.lt_trichotomy j.1 i.1 with hlt | heq | hgt
    · rw [if_pos (by omega), if_pos hlt, if_neg (by rintro rfl; omega), add_zero]
    · rw [if_pos (by omega), if_neg (by omega), if_pos (Fin.ext heq), zero_add]
    · rw [if_neg (by omega), if_neg (by omega), if_neg (by rintro rfl; omega), add_zero]
  rw [Finset.sum_congr rfl fun j _ => hsplit j, Finset.sum_add_distrib, Finset.sum_ite_eq']
  simp

/-- Main adds the entry of worker `i`. -/
lemma Inv.collect (h : Inv s) {cnt : ℤ} {sources : List (Option ℕ)}
    (hm : s.main = .collect i cnt sources) :
    Inv { s with main := .collect (i + 1) (cnt + s.threadRet i) (sources ++ [s.source i]) } := by
  have hmain := h.main
  rw [hm] at hmain
  obtain ⟨hlen, hout, hrange, hcol⟩ := hmain
  have hfit := h.workers (by rw [hm]; rfl) i
  have hstored : (s.worker i).got = true → s.source i = some s.printed.length ∧
      s.threadRet i = cntPrime N (s.rangeStart, s.rangeEnd) i := by
    intro hgot
    obtain ⟨-, r, range, hsrc, hround, hr, hret⟩ := hfit.stored (by rw [hm]; exact id) hgot
    obtain rfl : r = s.printed.length := by omega
    obtain rfl : (s.rangeStart, s.rangeEnd) = range := Option.some.inj (hrange.symm.trans hr)
    exact ⟨hsrc, hret⟩
  refine h.mainStep rfl rfl rfl rfl rfl rfl ⟨hlen, hout, hrange, i.2, ?_, ?_, ?_⟩
    (fun _ => by rw [hm]; rfl) (fun j _ hw => by rw [hm] at hw; exact hw.elim)
    (fun _ => by rw [hm]; rfl)
  · simp [hcol.length]
  · intro j hj
    rcases Nat.lt_succ_iff_lt_or_eq.1 hj with hj | hj
    · rw [List.getElem?_append_left (by rw [hcol.length]; exact hj)]
      exact hcol.source j hj
    · obtain rfl : j = i := Fin.ext hj
      rw [← hcol.length, List.getElem?_concat_length, Option.some.injEq]
      refine ⟨fun hsrc => ?_, fun hgot => (hstored hgot).1⟩
      by_contra hgot
      have := hfit.old (Bool.eq_false_of_not_eq_true hgot) _ hsrc
      omega
  · intro hall
    rw [sum_lt_succ, hcol.sum hall, (hstored (hall i)).2]

/-- **A number is printed.** -/
lemma Inv.print (h : Inv s) {j : ℕ} {cnt : ℤ} {sources : List (Option ℕ)}
    (hm : s.main = .collect j cnt sources) (hj : N ≤ j) : Inv (s.print cnt sources) := by
  have hmain := h.main
  rw [hm] at hmain
  obtain ⟨hlen, hout, hrange, hcol⟩ := hmain
  obtain rfl : j = N := le_antisymm hcol.le hj
  have hnew : Right s s.printed.length ⟨cnt, sources⟩ ↔
      s.ready[s.printed.length]? = some true := by
    rw [h.ready (by rw [hm]; rfl), Option.some.injEq, decide_eq_true_eq]
    constructor
    · rintro ⟨-, -, -, hsrc⟩ i
      have hsrc : sources = _ := hsrc
      refine (hcol.source i i.2).1 ?_
      simp [hsrc]
    · intro hall
      refine ⟨_, hrange, ?_, ?_⟩
      · simpa [total] using hcol.sum hall
      · refine List.eq_replicate_iff.2 ⟨hcol.length, fun b hb => ?_⟩
        obtain ⟨x, hx⟩ := List.getElem?_of_mem hb
        have hlt : x < j := hcol.length ▸ (List.getElem?_eq_some_iff.1 hx).1
        have hsrc := (hcol.source ⟨x, hlt⟩ hlt).2 (hall _)
        exact Option.some.inj (hx.symm.trans hsrc)
  refine ⟨fun k out hk => ?_, ?_, fun _ i => ?_, nofun⟩
  · rcases Nat.lt_trichotomy k s.printed.length with hlt | rfl | hgt
    · have hk : (s.printed ++ [⟨cnt, sources⟩])[k]? = some out := hk
      rw [List.getElem?_append_left hlt] at hk
      exact h.printed k out hk
    · have hk : (s.printed ++ [⟨cnt, sources⟩])[s.printed.length]? = some out := hk
      rw [List.getElem?_concat_length] at hk
      obtain rfl := Option.some.inj hk
      exact hnew
    · have hk : (s.printed ++ [⟨cnt, sources⟩])[k]? = some out := hk
      rw [List.getElem?_eq_none (by simp; omega)] at hk
      cases hk
  · exact ⟨hlen, by simpa [State.print] using hout⟩
  · refine (h.workers (by rw [hm]; rfl) i).mono (fun _ _ hr => hr) fun _ hw => ?_
    rw [hm] at hw
    exact hw.elim

lemma Inv.mainMove (h : Inv s) (ho : Owned s) (hm : MainMove s s') : Inv s' := by
  have hmain := h.main
  cases hm with
  | scanEnd hm => exact h.scanEnd hm _
  | broadcast hm => exact h.broadcast ho hm
  | collect hm => exact h.collect hm
  | print hm hi => exact h.print hm hi
  | scanStop | stopLock | stopBroadcast | stopUnlock => exact ⟨h.printed, trivial, nofun, nofun⟩
  | scanStart hm | lock hm _ | unlock hm | pollAgain hm =>
      rw [hm] at hmain
      refine h.mainStep rfl rfl rfl rfl rfl rfl hmain (fun _ => by rw [hm]; rfl) ?_ ?_
      · rw [hm]
        exact fun j _ hw => by first | exact hw.elim | exact Nat.zero_le _
      · rw [hm]
        exact fun hr => hr
  | @pollNext i hm hret =>
      rw [hm] at hmain
      refine h.mainStep rfl rfl rfl rfl rfl rfl hmain (fun _ => by rw [hm]; rfl) ?_ fun _ => ?_
      · intro j hj hw
        rw [hm] at hw
        -- main has just seen a result from this worker
        have hne : i ≠ j := by
          rintro rfl
          omega
        exact Nat.lt_of_le_of_ne hw fun e => hne (Fin.ext e)
      · rw [hm]
        rfl
  | pollDone hm hi =>
      rw [hm] at hmain
      obtain ⟨hlen, hout, hrange⟩ := hmain
      refine h.mainStep rfl rfl rfl rfl rfl rfl ⟨hlen, hout, hrange, ?_⟩ (fun _ => by rw [hm]; rfl)
        ?_ fun _ => by rw [hm]; rfl
      · exact ⟨Nat.zero_le _, rfl, fun j hj => absurd hj (Nat.not_lt_zero _), by simp⟩
      · intro j _ hw
        rw [hm] at hw
        exact absurd j.2 (not_lt.2 (hi.trans hw))

lemma inv_of_reachable (hs : (primeCond N).Reachable s) : Inv s := by
  refine Machine.Run.invariant (I := Inv) ?_ ?_ s hs
  · rintro _ rfl
    exact inv_start
  · intro s a s' hr h _ hstep
    cases a with
    | scan n => exact h.mainMove (owned_of_reachable hr) (mainMove_of_scan hstep)
    | main => exact h.mainMove (owned_of_reachable hr) (mainMove_of_step hstep)
    | worker i => exact h.workerMove (workerMove_of_step hstep)

/-! ## The main result -/

/-- **A printed number is right exactly if the broadcast came at the right time.**  The `k`-th
number is the sum of the counts for the `k`-th range, and all its summands were counted for this
range, if and only if every worker was in its first sleep at the `k`-th broadcast. -/
theorem right_iff (hs : (primeCond N).Reachable s) {k : ℕ} {out : Output}
    (hk : s.printed[k]? = some out) : Right s k out ↔ s.ready[k]? = some true :=
  (inv_of_reachable hs).printed k out hk

/-- Two workers go to sleep, the range from `2` to `9` is read, and `4` is printed. -/
theorem right_after_sleep :
    ∃ s : State 2, (primeCond 2).Reachable s ∧
      s.printed = [⟨4, [some 0, some 0]⟩] ∧ s.ready[0]? = some true ∧
      (Right s 0 ⟨4, [some 0, some 0]⟩ ↔ s.ready[0]? = some true) := by
  obtain ⟨s, hs, hp⟩ := Machine.exists_reachable_of_exec (M := primeCond 2) rfl
    (List.flatten [List.replicate 3 (.worker 0), List.replicate 3 (.worker 1), [.scan 2, .scan 9],
      List.replicate 3 .main, List.replicate 6 (.worker 0), List.replicate 6 (.worker 1),
      List.replicate 6 .main])
    (fun s => decide (s.printed = [⟨4, [some 0, some 0]⟩] ∧ s.ready[0]? = some true))
    (by decide +kernel)
  obtain ⟨hprinted, hready⟩ := of_decide_eq_true hp
  exact ⟨s, hs, hprinted, hready, right_iff hs (by rw [hprinted]; rfl)⟩

/-- With ten workers: main comes before all of them and prints `0`, the initial entries, for the two
primes from `2` to `3`; and when all workers come in time for this range, main may print their
results again for the range from `4` to `4`. -/
theorem wrong_answers :
    (∃ s : State 10, (primeCond 10).Reachable s ∧ s.inputs = [(2, 3)] ∧
      s.printed = [⟨0, List.replicate 10 none⟩] ∧ total 10 (2, 3) = 2) ∧
    ∃ s : State 10, (primeCond 10).Reachable s ∧ s.inputs = [(2, 3), (4, 4)] ∧
      s.printed = [⟨2, List.replicate 10 (some 0)⟩, ⟨2, List.replicate 10 (some 0)⟩] ∧
      total 10 (4, 4) = 0 := by
  constructor
  · obtain ⟨s, hs, hp⟩ := Machine.exists_reachable_of_exec (M := primeCond 10) rfl
      (List.flatten [[.scan 2, .scan 3], List.replicate 25 .main])
      (fun s => decide (s.inputs = [(2, 3)] ∧ s.printed = [⟨0, List.replicate 10 none⟩]))
      (by decide +kernel)
    obtain ⟨hin, hout⟩ := of_decide_eq_true hp
    exact ⟨s, hs, hin, hout, by decide +kernel⟩
  · obtain ⟨s, hs, hp⟩ := Machine.exists_reachable_of_exec (M := primeCond 10) rfl
      (List.flatten [(List.finRange 10).flatMap fun i => List.replicate 3 (.worker i),
        [.scan 2, .scan 3], List.replicate 3 .main,
        (List.finRange 10).flatMap fun i => List.replicate 6 (.worker i),
        List.replicate 22 .main, [.scan 4, .scan 4], List.replicate 25 .main])
      (fun s => decide (s.inputs = [(2, 3), (4, 4)] ∧
        s.printed = [⟨2, List.replicate 10 (some 0)⟩, ⟨2, List.replicate 10 (some 0)⟩]))
      (by decide +kernel)
    obtain ⟨hin, hout⟩ := of_decide_eq_true hp
    exact ⟨s, hs, hin, hout, by decide +kernel⟩

end Multicore.Lab04
