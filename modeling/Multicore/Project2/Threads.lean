import Multicore.Lib.QueuedLock
import Multicore.Project2.Moves

/-!
# What a thread's program counter says

The invariants that need no argument about the locks: who holds `global_mutex` and the record
mutexes, which requests a thread has collected in `havingLocks`, which ones a release loop still
has to give back.  Each is read off the program counter, and `Base` collects them.

* `Pc.phase` — how far a thread is with its request of each type, as a phase of the queued lock;
* `Woken` — the only change a move makes to another thread: a notification;
* **`Base.move`** — every move keeps `Base`.
-/

namespace Multicore.Project2

variable {N R : ℕ} {E : ℤ} {s s' : State N R} {t u : Fin N}

/-! ## Phases -/

/-- The phase of a thread inside the gate. -/
def Gate.phase : Gate → Phase
  | .enter | .asleep => .queued
  | .check | .block => .checking
  | .test => .checked
  | .pass => .passed
  | .drain => .draining
  | .asleepReader | .wakeReader => .gated

/-- The phase of a request inside `releaseLock`. -/
def Unlock.phase : Unlock → Phase
  | .erase => .granted
  | .mutex => .erased
  | .notifyShared _ _ | .notifyExclusive => .absent

/-- The types an attempt has asked for before `ty`. -/
def LockType.earlier : LockType → List LockType
  | .R => []
  | .W1 => [.R]
  | .W2 => [.R, .W1]

/-- An attempt in phase `p` of its request `ty` has all earlier locks and no later one. -/
def phaseUpTo (ty : LockType) (p : Phase) (ty' : LockType) : Phase :=
  if ty' ∈ ty.earlier then .granted else if ty' = ty then p else .absent

/-- How far a thread is with its request of each type. -/
def Pc.phase : Pc N R → LockType → Phase
  | .loop | .commit | .unlockLoop | .unlockExit | .exited _ => fun _ => .absent
  | .request ty | .check ty => phaseUpTo ty .absent
  | .unlockWait ty => phaseUpTo ty .queued
  | .gate ty _ g => phaseUpTo ty g.phase
  | .flag ty _ | .relock ty | .unlock ty | .read ty | .write ty => phaseUpTo ty .granted
  | .lockCommit => fun _ => .granted
  | .release _ r rest u => fun ty =>
      if ty = r.type then u.phase else if ty ∈ rest.map (·.type) then .granted else .absent

/-- Does a thread stand in a critical section of `global_mutex`? -/
def Pc.inGlobal : Pc N R → Bool
  | .check _ | .unlockWait _ | .unlock _ | .release _ _ _ _ | .commit | .unlockLoop
  | .unlockExit => true
  | .gate _ held _ | .flag _ held => held
  | _ => false

/-- Does a thread stand in a critical section of the `mtx` of the record it asks for? -/
def Gate.inMtx : Gate → Bool
  | .check | .block | .test | .pass | .drain => true
  | _ => false

/-- The record whose `mtx` a thread holds. -/
def Thread.mtx (th : Thread N R) : Option (Fin R) :=
  match th.pc with
  | .gate ty _ g => if g.inMtx then some (th.index ty) else none
  | _ => none

/-- What `havingLocks` holds outside the release loops. -/
def Pc.having : Pc N R → Option (List LockType)
  | .request ty | .check ty | .unlockWait ty | .gate ty _ _ | .flag ty _ | .relock ty
  | .unlock ty => some ty.earlier
  | .read ty | .write ty => some (ty.earlier ++ [ty])
  | .lockCommit => some [.R, .W1, .W2]
  | _ => none

/-- Is a thread inside an attempt? -/
def Pc.InAttempt : Pc N R → Prop
  | .loop | .exited _ => False
  | _ => True

@[simp] lemma nextRelease_inGlobal (why : Why) (l : List (LockInfo N R)) :
    (nextRelease why l).inGlobal = true := by
  cases l <;> cases why <;> rfl

lemma nextRelease_ne_gate (why : Why) (l : List (LockInfo N R)) (ty : LockType) (held : Bool)
    (g : Gate) : nextRelease why l ≠ .gate ty held g := by
  cases l <;> cases why <;> simp [nextRelease]

@[simp] lemma nextRelease_having (why : Why) (l : List (LockInfo N R)) :
    (nextRelease why l).having = none := by
  cases l <;> cases why <;> rfl

/-- The next release starts with everything in the list granted and nothing else. -/
lemma nextRelease_phase (why : Why) (l : List (LockInfo N R)) (ty : LockType) :
    (nextRelease why l).phase ty = if ty ∈ l.map (·.type) then .granted else .absent := by
  cases l with
  | nil => cases why <;> rfl
  | cons r rest =>
      simp only [nextRelease, Pc.phase, Unlock.phase, List.map_cons, List.mem_cons]
      by_cases h : ty = r.type <;> simp [h]

@[simp] lemma phaseUpTo_self (ty : LockType) (p : Phase) : phaseUpTo ty p ty = p := by
  cases ty <;> rfl

lemma phaseUpTo_of_ne {ty ty' : LockType} (h : ty' ≠ ty) (p q : Phase) :
    phaseUpTo ty p ty' = phaseUpTo ty q ty' := by
  simp [phaseUpTo, h]

/-! ## Other threads -/

/-- What a move can do to another thread: wake it up. -/
inductive Woken (th : Thread N R) : Thread N R → Prop
  | same : Woken th th
  | writer (ty : LockType) (held : Bool) (h : th.pc = .gate ty held .asleep) :
      Woken th { th with pc := .gate ty held .enter }
  | reader (ty : LockType) (held : Bool) (h : th.pc = .gate ty held .asleepReader) :
      Woken th { th with pc := .gate ty held .wakeReader }

namespace Woken

variable {th th' : Thread N R}

lemma index (h : Woken th th') : th'.index = th.index := by
  cases h <;> rfl

lemma req (h : Woken th th') (t : Fin N) : th'.req t = th.req t := by
  cases h <;> rfl

lemma havingLocks (h : Woken th th') : th'.havingLocks = th.havingLocks := by
  cases h <;> rfl

lemma phase (h : Woken th th') : th'.pc.phase = th.pc.phase := by
  cases h with
  | same => rfl
  | writer ty held h => rw [h]; rfl
  | reader ty held h => rw [h]; rfl

lemma inGlobal (h : Woken th th') : th'.pc.inGlobal = th.pc.inGlobal := by
  cases h with
  | same => rfl
  | writer ty held h => rw [h]; rfl
  | reader ty held h => rw [h]; rfl

lemma mtx (h : Woken th th') : th'.mtx = th.mtx := by
  cases h with
  | same => rfl
  | writer ty held h => simp [Thread.mtx, h, Gate.inMtx]
  | reader ty held h => simp [Thread.mtx, h, Gate.inMtx]

lemma having (h : Woken th th') : th'.pc.having = th.pc.having := by
  cases h with
  | same => rfl
  | writer ty held h => rw [h]; rfl
  | reader ty held h => rw [h]; rfl

/-- A woken thread was asleep and is awake; every other program counter is kept. -/
lemma pc_eq (h : Woken th th') {pc : Pc N R} (hg : ∀ ty held g, pc ≠ .gate ty held g) :
    th'.pc = pc ↔ th.pc = pc := by
  cases h with
  | same => rfl
  | writer ty held h => rw [h]; simp [(hg _ _ _).symm]
  | reader ty held h => rw [h]; simp [(hg _ _ _).symm]

/-- A thread that is not on its way back into a mutex was not woken. -/
lemma eq_of_pc (h : Woken th th') (h1 : ∀ ty held, th'.pc ≠ .gate ty held .enter)
    (h2 : ∀ ty held, th'.pc ≠ .gate ty held .wakeReader) : th' = th := by
  cases h with
  | same => rfl
  | writer ty held h => exact absurd rfl (h1 ty held)
  | reader ty held h => exact absurd rfl (h2 ty held)

end Woken

lemma woken_notifyWriter (s : State N R) (x : Fin R) (u : Fin N) :
    Woken (s.thread u) ((s.notifyWriter x).thread u) := by
  unfold State.notifyWriter
  dsimp only
  split
  · rename_i ty held hpc
    split_ifs
    · exact .writer ty held hpc
    · exact .same
  · exact .same

lemma woken_notifyReader (s : State N R) (v u : Fin N) :
    Woken (s.thread u) ((s.notifyReader v).thread u) := by
  unfold State.notifyReader
  split
  · rename_i ty held hpc
    rw [State.setPc_thread, Function.update_apply]
    split_ifs with hu
    · subst hu
      exact .reader ty held hpc
    · exact .same
  · exact .same

@[simp] lemma notifyWriter_monitor (s : State N R) (x : Fin R) :
    (s.notifyWriter x).monitor = s.monitor := rfl

@[simp] lemma notifyWriter_global (s : State N R) (x : Fin R) :
    (s.notifyWriter x).globalMutex = s.globalMutex := rfl

@[simp] lemma notifyWriter_outFile (s : State N R) (x : Fin R) :
    (s.notifyWriter x).outFile = s.outFile := rfl

@[simp] lemma notifyWriter_order (s : State N R) (x : Fin R) :
    (s.notifyWriter x).globalExecutionOrder = s.globalExecutionOrder := rfl

@[simp] lemma notifyReader_outFile (s : State N R) (u : Fin N) :
    (s.notifyReader u).outFile = s.outFile := by
  unfold State.notifyReader; split <;> rfl

@[simp] lemma notifyReader_order (s : State N R) (u : Fin N) :
    (s.notifyReader u).globalExecutionOrder = s.globalExecutionOrder := by
  unfold State.notifyReader; split <;> rfl

@[simp] lemma notifyReader_monitor (s : State N R) (u : Fin N) :
    (s.notifyReader u).monitor = s.monitor := by
  unfold State.notifyReader; split <;> rfl

@[simp] lemma notifyReader_global (s : State N R) (u : Fin N) :
    (s.notifyReader u).globalMutex = s.globalMutex := by
  unfold State.notifyReader; split <;> rfl

/-- A notification does not touch the thread that sends it. -/
lemma notifyWriter_self {x : Fin R} (h : ∀ ty held, (s.thread t).pc ≠ .gate ty held .asleep) :
    (s.notifyWriter x).thread t = s.thread t := by
  unfold State.notifyWriter
  dsimp only
  split
  · rename_i ty held hpc
    exact absurd hpc (h ty held)
  · rfl

lemma notifyReader_self (h : ∀ ty held, (s.thread t).pc ≠ .gate ty held .asleepReader) :
    (s.notifyReader u).thread t = s.thread t := by
  unfold State.notifyReader
  split
  · rename_i ty held hpc
    rw [State.setPc_thread, Function.update_apply]
    split_ifs with htu
    · subst htu
      exact absurd hpc (h ty held)
    · rfl
  · rfl

/-- **A move changes other threads by waking them up only.** -/
lemma Move.woken (h : Move E s t s') (hu : u ≠ t) : Woken (s.thread u) (s'.thread u) := by
  cases h
  case notifyOne why r rest n w v hpc hw hn hv =>
    rw [State.setPc_thread, Function.update_of_ne hu]
    exact woken_notifyReader s v u
  case notifyAll why r rest un hpc hun =>
    rw [State.setPc_thread, Function.update_of_ne hu]
    exact woken_notifyWriter s r.index u
  case deadlock ty hpc hd =>
    cases ty <;> simp only [onDeadlock, State.setPc_thread, Function.update_of_ne hu,
      State.setMonitor_thread] <;> exact .same
  case commit hpc =>
    rw [commitStep_thread, Function.update_of_ne hu]
    exact .same
  all_goals
    simp only [State.setPc_thread, State.setThread_thread, State.setMonitor_thread,
      State.setGlobal_thread, Function.update_of_ne hu]
    exact .same

/-- The simp set that reads one thread's part of a move. -/
lemma Move.thread_notify {why : Why} {r : LockInfo N R} {rest : List (LockInfo N R)} {un : Unlock}
    (hpc : (s.thread t).pc = .release why r rest un) (x : Fin R) (u : Fin N) :
    (s.notifyWriter x).thread t = s.thread t ∧ (s.notifyReader u).thread t = s.thread t :=
  ⟨notifyWriter_self (by simp [hpc]), notifyReader_self (by simp [hpc])⟩

/-! ## Inside the gate -/

/-- The steps of a thread from one place of the gate to another, with what it has found. -/
inductive GateStep (s : State N R) (t : Fin N) (ty : LockType) : Gate → Gate → Prop
  | enter : GateStep s t ty .enter .check
  | clear : GateStep s t ty .check .test
  | blocked (hc : checkQueue (s.monitor.lockRequest ((s.thread t).index ty))
      ((s.thread t).req t ty) = false) : GateStep s t ty .check .block
  | sleep : GateStep s t ty .block .asleep
  | wake : GateStep s t ty .asleep .enter
  | spin : GateStep s t ty .test .check
  | pass : GateStep s t ty .test .pass
  | raise : GateStep s t ty .pass .drain
  | wait (hn : 0 < (s.monitor.lock ((s.thread t).index ty)).numReader) :
      GateStep s t ty .drain .asleepReader
  | wakeReader : GateStep s t ty .asleepReader .wakeReader
  | reenter : GateStep s t ty .wakeReader .drain

/-- How a thread comes to a place of the gate: from `deadlock_check` with `global_mutex`, after
giving `global_mutex` back, or from another place. -/
inductive ToGate (s s' : State N R) (t : Fin N) (ty : LockType) : Bool → Gate → Prop
  | get (hpc : (s.thread t).pc = .check ty)
      (hst : (s.monitor.deadlockCheck ((s.thread t).req t ty)).1 = .get)
      (hm : s'.monitor = (s.monitor.deadlockCheck ((s.thread t).req t ty)).2) :
      ToGate s s' t ty true .enter
  | unlockWait (hpc : (s.thread t).pc = .unlockWait ty) : ToGate s s' t ty false .enter
  | step {held : Bool} {g g' : Gate} (hpc : (s.thread t).pc = .gate ty held g)
      (hq : s'.monitor.lockRequest = s.monitor.lockRequest)
      (hn : ∀ x, (s'.monitor.lock x).numReader = (s.monitor.lock x).numReader)
      (h : GateStep s t ty g g') : ToGate s s' t ty held g'

lemma setLock_numReader (m : Monitor N R) (x : Fin R) (l : RWLock N)
    (hl : l.numReader = (m.lock x).numReader) (y : Fin R) :
    ((m.setLock x l).lock y).numReader = (m.lock y).numReader := by
  rw [Monitor.setLock_lock]
  split_ifs with hy
  · rw [hl, hy]
  · rfl

/-- **How a thread comes to a place of the gate.** -/
lemma Move.toGate (h : Move E s t s') {ty : LockType} {held : Bool} {g : Gate}
    (hpc' : (s'.thread t).pc = .gate ty held g) :
    ToGate s s' t ty held g ∧ (s'.thread t).index = (s.thread t).index := by
  cases h
  case get ty' hpc hst =>
    simp only [State.setPc_thread, Function.update_self, Pc.gate.injEq] at hpc' ⊢
    obtain ⟨rfl, rfl, rfl⟩ := hpc'
    exact ⟨.get hpc hst rfl, rfl⟩
  case unlockWait ty' hpc =>
    simp only [State.setPc_thread, Function.update_self, Pc.gate.injEq] at hpc' ⊢
    obtain ⟨rfl, rfl, rfl⟩ := hpc'
    exact ⟨.unlockWait hpc, rfl⟩
  case commit hpc =>
    rcases commitPc_cases E s with hq | hq <;> simp [hq] at hpc'
  case deadlock ty' hpc hst => cases ty' <;> simp [onDeadlock, nextRelease_ne_gate] at hpc'
  case flag ty' held' hpc => cases held' <;> simp at hpc'
  case enter ty' held' hpc hg | blocked ty' held' hpc hg | wait ty' held' hpc hg
      | clear ty' held' hpc hg | spin ty' held' hpc hg | pass ty' held' hpc hg
      | raise ty' held' hpc hg | reenter ty' held' hpc hg | sleep ty' held' hpc
      | wake ty' held' hpc | wakeReader ty' held' hpc =>
    simp only [State.setPc_thread, Function.update_self, State.setMonitor_thread,
      Pc.gate.injEq] at hpc' ⊢
    obtain ⟨rfl, rfl, rfl⟩ := hpc'
    refine ⟨.step hpc rfl ?_ (by constructor <;> assumption), rfl⟩
    first
      | exact fun _ => rfl
      | exact setLock_numReader _ _ _ rfl
  all_goals simp [nextRelease_ne_gate] at hpc'

/-! ## The thread's own bookkeeping -/

/-- What the locals of thread `t` hold: `havingLocks` follows the program counter, a release loop
runs over distinct requests of the thread, and the triple is distinct. -/
structure Own (t : Fin N) (th : Thread N R) : Prop where
  having : ∀ tys, th.pc.having = some tys → th.havingLocks = tys.map (th.req t)
  release : ∀ why r rest u, th.pc = .release why r rest u →
    ∃ tys : List LockType, tys.Nodup ∧ r :: rest = tys.map (th.req t)
  distinct : th.pc.InAttempt → th.i ≠ th.j ∧ th.i ≠ th.k ∧ th.j ≠ th.k

lemma Own.woken {th th' : Thread N R} (h : Own t th) (hw : Woken th th') : Own t th' where
  having tys ht := by
    rw [hw.havingLocks, hw.req]
    exact h.having tys (hw.having ▸ ht)
  release why r rest un hr := by
    rw [hw.req]
    exact h.release why r rest un ((hw.pc_eq (by simp)).mp hr)
  distinct ha := by
    cases hw <;> exact h.distinct (by simp_all [Pc.InAttempt])

/-- The program counter moves inside an attempt, outside the release loops. -/
lemma Own.setPc {th : Thread N R} (h : Own t th) {pc : Pc N R} (hp : pc.having = th.pc.having)
    (hr : ∀ why r rest u, pc ≠ .release why r rest u) (ha : pc.InAttempt → th.pc.InAttempt) :
    Own t { th with pc := pc } where
  having tys ht := h.having tys (hp ▸ ht)
  release why r rest u hu := absurd hu (hr why r rest u)
  distinct h' := h.distinct (ha h')

/-- A release loop starts on a list of distinct requests. -/
lemma Own.nextRelease {th : Thread N R} (h : Own t th) (ha : th.pc.InAttempt) {why : Why}
    {tys : List LockType} (hn : tys.Nodup) {l : List (LockInfo N R)}
    (hl : l = tys.map (th.req t)) : Own t { th with pc := nextRelease why l } where
  having tys' ht := by simp at ht
  release why' r rest u hu := by
    cases l with
    | nil => cases why <;> simp [Project2.nextRelease] at hu
    | cons r' rest' =>
        simp only [Project2.nextRelease, Pc.release.injEq] at hu
        obtain ⟨-, rfl, rfl, -⟩ := hu
        exact ⟨tys, hn, hl⟩
  distinct _ := h.distinct ha

/-- A release loop goes on with the rest of its list. -/
lemma Own.releaseRest {th : Thread N R} (h : Own t th) {why : Why} {r : LockInfo N R}
    {rest : List (LockInfo N R)} {u : Unlock} (hpc : th.pc = .release why r rest u) :
    Own t { th with pc := Project2.nextRelease why rest } := by
  obtain ⟨tys, hnd, htys⟩ := h.release why r rest u hpc
  cases tys with
  | nil => simp at htys
  | cons ty tys =>
      exact h.nextRelease (by rw [hpc]; trivial) (List.nodup_cons.mp hnd).2 (List.cons.inj htys).2

/-- A release loop moves inside `releaseLock`. -/
lemma Own.releaseSame {th : Thread N R} (h : Own t th) {why : Why} {r : LockInfo N R}
    {rest : List (LockInfo N R)} {u u' : Unlock} (hpc : th.pc = .release why r rest u) :
    Own t { th with pc := .release why r rest u' } where
  having tys ht := by simp [Pc.having] at ht
  release why' r' rest' v hv := by
    simp only [Pc.release.injEq] at hv
    obtain ⟨-, rfl, rfl, -⟩ := hv
    exact h.release why r rest u hpc
  distinct _ := h.distinct (by rw [hpc]; trivial)

lemma LockType.earlier_nodup (ty : LockType) : ty.earlier.Nodup := by
  cases ty <;> decide

lemma Own.move (h : Own t (s.thread t)) (hm : Move E s t s') : Own t (s'.thread t) := by
  cases hm
  case attempt i j k hpc hE hij hik hjk =>
    simp only [State.setThread_thread, Function.update_self]
    exact ⟨by simp [Pc.having, LockType.earlier], by simp, fun _ => ⟨hij, hik, hjk⟩⟩
  case deadlock ty hpc hd =>
    have hhav := h.having ty.earlier (by rw [hpc]; rfl)
    cases ty <;> simp only [onDeadlock, State.setPc_thread, Function.update_self,
      State.setMonitor_thread]
    · exact ⟨by simp [Pc.having], by simp, by simp [Pc.InAttempt]⟩
    all_goals exact h.nextRelease (by rw [hpc]; trivial) (LockType.earlier_nodup _) hhav
  case unlock ty hpc =>
    simp only [State.setThread_thread, Function.update_self]
    refine ⟨fun tys ht => ?_, by simp, fun _ => h.distinct (by rw [hpc]; trivial)⟩
    obtain rfl := Option.some.inj ht
    rw [h.having ty.earlier (by rw [hpc]; rfl), List.map_append]
    rfl
  case readI hpc | readJ hpc | readK hpc =>
    simp only [State.setThread_thread, Function.update_self]
    exact ⟨fun tys ht => h.having tys (by rw [hpc]; exact ht), by simp,
      fun _ => h.distinct (by rw [hpc]; trivial)⟩
  case lockCommit hpc hg =>
    simp only [State.setPc_thread, State.setGlobal_thread, Function.update_self]
    exact h.nextRelease (by rw [hpc]; trivial) (by decide)
      (h.having [.R, .W1, .W2] (by rw [hpc]; rfl))
  case erase why r rest hpc =>
    simpa only [State.setPc_thread, State.setMonitor_thread, Function.update_self]
      using h.releaseSame hpc
  case unlockShared why r rest hpc hty hm =>
    simpa only [State.setPc_thread, State.setMonitor_thread, Function.update_self]
      using h.releaseSame hpc
  case unlockExclusive why r rest hpc hty hm =>
    simpa only [State.setPc_thread, State.setMonitor_thread, Function.update_self]
      using h.releaseSame hpc
  case notifyOne why r rest n w u hpc hw hn hu =>
    simpa only [State.setPc_thread, Function.update_self, (Move.thread_notify hpc r.index u).2]
      using h.releaseRest hpc
  case notifyNone why r rest n w hpc hw hu =>
    simpa only [State.setPc_thread, Function.update_self] using h.releaseRest hpc
  case notifyAll why r rest un hpc hun =>
    simpa only [State.setPc_thread, Function.update_self, (Move.thread_notify hpc r.index t).1]
      using h.releaseRest hpc
  case commit hpc =>
    rw [commitStep_thread, Function.update_self]
    rcases commitPc_cases E s with hq | hq <;> rw [hq] <;>
      exact h.setPc (by rw [hpc]; rfl) (by simp) (by simp [hpc, Pc.InAttempt])
  case flag ty held hpc =>
    simp only [State.setPc_thread, Function.update_self, State.setMonitor_thread]
    cases held <;> exact h.setPc (by rw [hpc]; rfl) (by simp) (by simp [hpc, Pc.InAttempt])
  all_goals
    simp only [State.setPc_thread, State.setMonitor_thread, State.setGlobal_thread,
      Function.update_self]
    refine h.setPc ?_ (by simp) ?_ <;> simp_all [Pc.having, Pc.InAttempt, LockType.earlier]

/-! ## The two kinds of mutexes -/

/-- What a thread claims of `global_mutex`. -/
def Thread.global (th : Thread N R) : Option Unit := if th.pc.inGlobal then some () else none

/-- Every move keeps, takes or gives back `global_mutex`, except that the answer `deadlock` for
the first request goes on with the next attempt and forgets it. -/
lemma Move.global (h : Move E s t s') :
    MutexStep t (fun _ : Unit => s.globalMutex) (fun _ => s'.globalMutex)
        (s.thread t).global (s'.thread t).global ∨
      ((s.thread t).pc = .check .R ∧
        (s.monitor.deadlockCheck ((s.thread t).req t .R)).1 = .deadlock) ∧
      (s'.thread t).pc = .loop ∧ s'.globalMutex = s.globalMutex := by
  cases h
  case request ty hpc hg =>
    exact .inl (.lock () hg (by simp [Thread.global, hpc, Pc.inGlobal]) (by ext; simp)
      (by simp [Thread.global, Pc.inGlobal]))
  case relock ty hpc hg =>
    exact .inl (.lock () hg (by simp [Thread.global, hpc, Pc.inGlobal]) (by ext; simp)
      (by simp [Thread.global, Pc.inGlobal]))
  case lockCommit hpc hg =>
    exact .inl (.lock () hg (by simp [Thread.global, hpc, Pc.inGlobal]) (by ext; simp)
      (by simp [Thread.global]))
  case unlockWait ty hpc | unlock ty hpc | unlockLoop hpc | unlockExit hpc =>
    exact .inl (.unlock () (by simp [Thread.global, hpc, Pc.inGlobal]) (by ext; simp)
      (by simp [Thread.global, Pc.inGlobal]))
  case commit hpc =>
    refine .inl (.keep (by simp) ?_)
    rcases commitPc_cases E s with hq | hq <;> simp [Thread.global, hpc, Pc.inGlobal, hq]
  case deadlock ty hpc hd =>
    cases ty with
    | R => exact .inr ⟨⟨hpc, hd⟩, by simp [onDeadlock], rfl⟩
    | W1 =>
        refine .inl (.keep rfl ?_)
        simp only [onDeadlock, State.setPc_thread, Function.update_self, Thread.global, hpc,
          nextRelease_inGlobal]
        rfl
    | W2 =>
        refine .inl (.keep rfl ?_)
        simp only [onDeadlock, State.setPc_thread, Function.update_self, Thread.global, hpc,
          nextRelease_inGlobal]
        rfl
  case flag ty held hpc =>
    refine .inl (.keep rfl ?_)
    cases held <;> simp [Thread.global, hpc, Pc.inGlobal]
  case notifyOne | notifyNone | notifyAll =>
    refine .inl (.keep (by simp) ?_)
    simp only [State.setPc_thread, Function.update_self, Thread.global, nextRelease_inGlobal,
      ‹(s.thread t).pc = _›]
    rfl
  all_goals
    refine .inl (.keep ?_ ?_)
    · simp
    · simp_all [Thread.global, Pc.inGlobal]

/-- The record mutexes after a change of one record's lock. -/
lemma setLock_mtx (m : Monitor N R) (x : Fin R) (l : RWLock N) :
    (fun y => ((m.setLock x l).lock y).mtx)
      = Function.update (fun y => (m.lock y).mtx) x l.mtx := by
  funext y
  rw [Monitor.setLock_lock, Function.update_apply]
  split_ifs <;> rfl

lemma setLock_mtx_same (m : Monitor N R) (x : Fin R) (l : RWLock N) (hl : l.mtx = (m.lock x).mtx) :
    (fun y => ((m.setLock x l).lock y).mtx) = fun y => (m.lock y).mtx := by
  rw [setLock_mtx, hl]
  exact Function.update_eq_self x _

lemma Thread.mtx_gate {th : Thread N R} {ty : LockType} {held : Bool} {g : Gate}
    (h : th.pc = .gate ty held g) :
    th.mtx = if g.inMtx then some (th.index ty) else none := by
  simp [Thread.mtx, h]

lemma Thread.mtx_eq_none {th : Thread N R} (h : ∀ ty held g, th.pc ≠ .gate ty held g) :
    th.mtx = none := by
  unfold Thread.mtx
  split
  · rename_i ty held g hpc
    exact absurd hpc (h ty held g)
  · rfl

/-- Every move keeps, takes or gives back one record mutex. -/
lemma Move.mtx (h : Move E s t s') :
    MutexStep t (fun x => (s.monitor.lock x).mtx) (fun x => (s'.monitor.lock x).mtx)
      (s.thread t).mtx (s'.thread t).mtx := by
  have outside : (∀ ty held g, (s.thread t).pc ≠ .gate ty held g) →
      (∀ ty held g, (s'.thread t).pc ≠ .gate ty held g) →
      (s'.thread t).mtx = (s.thread t).mtx := fun h h' => by
    rw [Thread.mtx_eq_none h, Thread.mtx_eq_none h']
  cases h
  case enter ty held hpc hm | reenter ty held hpc hm =>
    refine .lock ((s.thread t).index ty) hm ?_ (setLock_mtx _ _ _) ?_
    · rw [Thread.mtx_gate hpc]; rfl
    · rw [State.setPc_thread, Function.update_self, Thread.mtx_gate rfl]; rfl
  case sleep ty held hpc =>
    refine .unlock ((s.thread t).index ty) ?_ (setLock_mtx _ _ _) ?_
    · rw [Thread.mtx_gate hpc]; rfl
    · rw [State.setPc_thread, Function.update_self, Thread.mtx_gate rfl]; rfl
  case wait ty held hpc hn =>
    refine .unlock ((s.thread t).index ty) ?_ (setLock_mtx _ _ _) ?_
    · rw [Thread.mtx_gate hpc]; rfl
    · rw [State.setPc_thread, Function.update_self, Thread.mtx_gate rfl]; rfl
  case share held hpc =>
    refine .unlock ((s.thread t).index .R) ?_ (setLock_mtx _ _ _) ?_
    · rw [Thread.mtx_gate hpc]; rfl
    · rw [State.setPc_thread, Function.update_self]; exact Thread.mtx_eq_none (by simp)
  case grant ty held hpc hn =>
    refine .unlock ((s.thread t).index ty) ?_ (setLock_mtx _ _ _) ?_
    · rw [Thread.mtx_gate hpc]; rfl
    · rw [State.setPc_thread, Function.update_self]; exact Thread.mtx_eq_none (by simp)
  case raise ty held hpc hty =>
    refine .keep (setLock_mtx_same _ _ _ rfl) ?_
    rw [State.setPc_thread, Function.update_self, Thread.mtx_gate rfl, Thread.mtx_gate hpc]
    rfl
  case clear ty held hpc hc | blocked ty held hpc hc | wake ty held hpc | spin ty held hpc hw
      | pass ty held hpc hw | wakeReader ty held hpc =>
    refine .keep rfl ?_
    rw [State.setPc_thread, Function.update_self, Thread.mtx_gate rfl, Thread.mtx_gate hpc]
    rfl
  case unlockShared why r rest hpc hty hm =>
    exact .keep (setLock_mtx_same _ _ _ rfl) (outside (by simp [hpc]) (by simp))
  case unlockExclusive why r rest hpc hty hm =>
    exact .keep (setLock_mtx_same _ _ _ rfl) (outside (by simp [hpc]) (by simp))
  case get ty hpc hst =>
    refine .keep (by simp) ?_
    rw [State.setPc_thread, Function.update_self, Thread.mtx_gate rfl,
      Thread.mtx_eq_none (by simp [hpc])]
    rfl
  case unlockWait ty hpc =>
    refine .keep rfl ?_
    rw [State.setPc_thread, Function.update_self, Thread.mtx_gate rfl,
      Thread.mtx_eq_none (by simp [hpc])]
    rfl
  case commit hpc =>
    refine .keep (by simp) (outside (by simp [hpc]) ?_)
    rcases commitPc_cases E s with hq | hq <;> simp [hq]
  case deadlock ty hpc hd =>
    refine .keep (by cases ty <;> simp [onDeadlock]) (outside (by simp [hpc]) ?_)
    cases ty <;> simp [onDeadlock, nextRelease_ne_gate]
  case flag ty held hpc =>
    exact .keep (by simp) (outside (by simp [hpc]) (by cases held <;> simp))
  all_goals
    exact .keep (by simp) (outside (by simp [‹(s.thread t).pc = _›])
      (by simp [nextRelease_ne_gate]))

/-! ## The queues -/

/-- The entries of a queue are requests for its record, and every move keeps that. -/
lemma Move.index (h : Move E s t s')
    (hi : ∀ x, ∀ e ∈ s.monitor.lockRequest x, e.index = x) :
    ∀ x, ∀ e ∈ s'.monitor.lockRequest x, e.index = x := by
  have enqueue : ∀ r : LockInfo N R, ∀ x, ∀ e ∈ (Function.update s.monitor.lockRequest r.index
      (s.monitor.lockRequest r.index ++ [r])) x, e.index = x := by
    intro r x e he
    rw [Function.update_apply] at he
    split_ifs at he with hx
    · rw [List.mem_append, List.mem_singleton] at he
      rcases he with he | rfl
      · rw [hx]; exact hi _ e he
      · exact hx.symm
    · exact hi x e he
  cases h
  case deadlock ty hpc hd =>
    have hq := Monitor.deadlockCheck_deadlock _ _ hd
    cases ty <;> simpa [onDeadlock, hq] using hi
  case waiting ty hpc hw =>
    simp only [State.setPc_monitor, State.setMonitor_monitor]
    rw [Monitor.deadlockCheck_queue _ _ (by simp [hw])]
    exact enqueue _
  case get ty hpc hw =>
    simp only [State.setPc_monitor, State.setMonitor_monitor]
    rw [Monitor.deadlockCheck_queue _ _ (by simp [hw])]
    exact enqueue _
  case flag ty held hpc =>
    intro x e he
    simp only [State.setPc_monitor, State.setMonitor_monitor, Monitor.setGetLock,
      Function.update_apply] at he
    split_ifs at he with hx
    · obtain ⟨e', he', rfl⟩ := List.mem_map.mp he
      have := hi _ e' he'
      rw [hx]
      split_ifs <;> exact this
    · exact hi x e he
  case erase why r rest hpc =>
    intro x e he
    simp only [State.setPc_monitor, State.setMonitor_monitor, Monitor.deleteLock,
      Function.update_apply] at he
    split_ifs at he with hx
    · rw [hx]; exact hi _ e (List.mem_of_mem_eraseP he)
    · exact hi x e he
  all_goals simpa using hi

/-! ## All of it -/

/-- The invariants that come from the program counters alone. -/
structure Base (s : State N R) : Prop where
  global : ∀ u, (s.thread u).pc.inGlobal = true → s.globalMutex = some u
  mtx : ∀ u x, (s.thread u).mtx = some x → (s.monitor.lock x).mtx = some u
  index : ∀ x, ∀ e ∈ s.monitor.lockRequest x, e.index = x
  own : ∀ u, Own u (s.thread u)

lemma base_init (h : IsInit s) : Base s := by
  obtain ⟨-, hg, hm, -, hpc⟩ := h
  refine ⟨fun u hu => ?_, fun u x hu => ?_, fun x e he => ?_, fun u => ?_⟩
  · simp [hpc u, Pc.inGlobal] at hu
  · simp [Thread.mtx, hpc u] at hu
  · simp [hm, Monitor.init] at he
  · constructor <;> simp [hpc u, Pc.having, Pc.InAttempt]

/-- **Every move keeps the bookkeeping.** -/
theorem Base.move (hb : Base s) (h : Move E s t s') : Base s' := by
  have hw : ∀ u, u ≠ t → Woken (s.thread u) (s'.thread u) := fun u hu => h.woken hu
  refine ⟨fun u hu => ?_, ?_, h.index hb.index, fun u => ?_⟩
  · rcases h.global with hstep | ⟨-, hloop, hg⟩
    · have key := MutexStep.owned (fun u => (s.thread u).global) (fun u => (s'.thread u).global)
        hstep (fun u _ hu => hb.global u (by simpa [Thread.global] using hu))
        (fun u hu => by simp [Thread.global, (hw u hu).inGlobal])
      exact key u () (by simp [Thread.global, hu])
    · have hut : u ≠ t := by
        rintro rfl
        rw [hloop] at hu
        simp [Pc.inGlobal] at hu
      rw [hg]
      exact hb.global u ((hw u hut).inGlobal ▸ hu)
  · exact MutexStep.owned (fun u => (s.thread u).mtx) (fun u => (s'.thread u).mtx) h.mtx
      hb.mtx fun u hu => (hw u hu).mtx
  · by_cases hu : u = t
    · subst hu
      exact (hb.own u).move h
    · exact (hb.own u).woken (hw u hu)

end Multicore.Project2
