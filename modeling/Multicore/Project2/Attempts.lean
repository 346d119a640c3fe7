import Multicore.Project2.Refinement
import Multicore.Project2.Serial

/-!
# The attempts of the engine

How far an attempt has come with its records is a number read off the program counter, `Pc.stage`;
together with the locals it gives the attempt of the data layer, and the moves of the engine
become its steps.  The guard of `Data.Step.acquire` is where the locks come in: a thread begins to
own a record while it holds `global_mutex`, so nobody is between releasing its record locks and
the end of its commit, and everybody who owns the record then still holds its lock.

* **`Move.data`** — every move of the engine is a step on the data or invisible there;
* **`dataInv_of_reachable`** — in every reachable state the data is serial.
-/

namespace Multicore.Project2

variable {N R : ℕ} {E : ℤ} {s s' : State N R} {t u : Fin N}

/-! ## Stages -/

/-- How far an attempt has come: `1`, `3`, `6` own the next record, `2`, `4`, `7` have saved it,
`5` and `8` have written `j` and `k`. -/
def Pc.stage : Pc N R → ℕ
  | .read .R => 1
  | .request .W1 | .check .W1 | .unlockWait .W1 | .gate .W1 _ _ | .flag .W1 _ | .relock .W1
  | .unlock .W1 => 2
  | .read .W1 => 3
  | .write .W1 => 4
  | .request .W2 | .check .W2 | .unlockWait .W2 | .gate .W2 _ _ | .flag .W2 _ | .relock .W2
  | .unlock .W2 => 5
  | .read .W2 => 6
  | .write .W2 => 7
  | .lockCommit | .release .commit _ _ _ | .commit => 8
  | _ => 0

/-- The stage from which a record is owned. -/
def LockType.ownsFrom : LockType → ℕ
  | .R => 1
  | .W1 => 3
  | .W2 => 6

/-- The stage from which its value is saved. -/
def LockType.savedFrom : LockType → ℕ
  | .R => 2
  | .W1 => 4
  | .W2 => 7

/-- The stage from which it is written; record `i` never is. -/
def LockType.wroteFrom : LockType → ℕ
  | .R => 9
  | .W1 => 5
  | .W2 => 8

/-- The locals `i_value`, `j_value`, `k_value`. -/
def Thread.value (th : Thread N R) : LockType → Int32
  | .R => th.iValue
  | .W1 => th.jValue
  | .W2 => th.kValue

/-- The attempt at a stage. -/
def txnAt (stage : ℕ) (index : LockType → Fin R) (value : LockType → Int32) : Txn R where
  index := index
  value := value
  owns ty := ty.ownsFrom ≤ stage
  saved ty := ty.savedFrom ≤ stage
  wrote ty := ty.wroteFrom ≤ stage

/-- The attempt of a thread. -/
def Thread.txn (th : Thread N R) : Txn R := txnAt th.pc.stage th.index th.value

/-- The data of the engine. -/
def State.data (s : State N R) : Data N R where
  txn t := (s.thread t).txn
  mem := s.monitor.read
  log := s.outFile.map Prod.snd

lemma Woken.txn {th th' : Thread N R} (h : Woken th th') : th'.txn = th.txn := by
  cases h with
  | same => rfl
  | writer ty held h => cases ty <;> simp only [Thread.txn, h] <;> rfl
  | reader ty held h => cases ty <;> simp only [Thread.txn, h] <;> rfl

lemma nextRelease_stage (why : Why) (l : List (LockInfo N R)) :
    (nextRelease why l).stage = match why with | .abort => 0 | .commit => 8 := by
  cases l <;> cases why <;> rfl

/-! ## Owning a record -/

/-- Outside `global_mutex`, whoever owns a record holds its lock. -/
lemma granted_of_owns {pc : Pc N R} {ty : LockType} (ho : ty.ownsFrom ≤ pc.stage)
    (hg : pc.inGlobal = false) : pc.phase ty = .granted := by
  cases pc with
  | read ty' => cases ty' <;> cases ty <;> first | rfl | simp [Pc.stage, LockType.ownsFrom] at ho
  | write ty' => cases ty' <;> cases ty <;> first | rfl | simp [Pc.stage, LockType.ownsFrom] at ho
  | request ty' => cases ty' <;> cases ty <;> first | rfl | simp [Pc.stage, LockType.ownsFrom] at ho
  | gate ty' held g =>
      cases ty' <;> cases ty <;> first | rfl | simp [Pc.stage, LockType.ownsFrom] at ho
  | flag ty' held =>
      cases ty' <;> cases ty <;> first | rfl | simp [Pc.stage, LockType.ownsFrom] at ho
  | relock ty' => cases ty' <;> cases ty <;> first | rfl | simp [Pc.stage, LockType.ownsFrom] at ho
  | lockCommit => rfl
  | loop => cases ty <;> simp [Pc.stage, LockType.ownsFrom] at ho
  | exited b => cases ty <;> simp [Pc.stage, LockType.ownsFrom] at ho
  | _ => simp [Pc.inGlobal] at hg

/-- A thread that leaves `global_mutex` with a lock owns the record alone. -/
lemma LocksInv.acquire_free (hs : LocksInv s) {ty : LockType} (hpc : (s.thread t).pc = .unlock ty)
    (hut : u ≠ t) {ty' : LockType} (ho : ty'.ownsFrom ≤ (s.thread u).pc.stage)
    (hx : (s.thread u).index ty' = (s.thread t).index ty) : ty = .R ∧ ty' = .R := by
  have hg : (s.thread u).pc.inGlobal = false := by
    by_contra hg
    have hu := hs.base.global u (by simpa using hg)
    rw [hs.base.global t (by rw [hpc]; rfl)] at hu
    exact hut (Option.some.inj hu).symm
  have hu : ((s.view ((s.thread t).index ty)).phase (u, ty')).Holds := by
    rw [← hx, view_phase_index, granted_of_owns ho hg]
    trivial
  have ht : ((s.view ((s.thread t).index ty)).phase (t, ty)).Holds := by
    rw [view_phase hpc, show (Pc.unlock ty : Pc N R).phase ty = .granted from phaseUpTo_self ty _]
    trivial
  exact not_not.mp ((hs.lock _).exclusive (fun h => hut (Prod.ext_iff.mp h).1.symm) ht hu)

lemma Own.index_injective {th : Thread N R} (h : Own t th) (ha : th.pc.InAttempt) :
    Function.Injective th.index := by
  obtain ⟨hij, hik, hjk⟩ := h.distinct ha
  intro a b hab
  cases a <;> cases b <;> first
    | rfl
    | (simp only [Thread.index] at hab; first | exact absurd hab ‹_› | exact absurd hab.symm ‹_›)

/-! ## Moves as steps on the data -/

/-- The data after a move, from what it does to its own thread. -/
lemma Move.data_eq (h : Move E s t s') {x : Txn R} {mem : Fin R → Int32} {log : List (LogLine R)}
    (hx : (s'.thread t).txn = x) (hm : ∀ y, s'.monitor.read y = mem y)
    (hl : s'.outFile.map Prod.snd = log) :
    s'.data = { s.data.set t x with mem := mem, log := log } := by
  have htxn : (fun u => (s'.thread u).txn)
      = Function.update (fun u => (s.thread u).txn) t x := by
    funext u
    by_cases hu : u = t
    · subst hu
      rw [Function.update_self, hx]
    · rw [Function.update_of_ne hu, (h.woken hu).txn]
  simp only [State.data, Data.set, htxn, hl, funext hm]

/-- The moves that are invisible in the data. -/
lemma Move.data_same (h : Move E s t s') (hst : (s'.thread t).pc.stage = (s.thread t).pc.stage)
    (hi : (s'.thread t).index = (s.thread t).index) (hv : (s'.thread t).value = (s.thread t).value)
    (hm : ∀ y, s'.monitor.read y = s.monitor.read y) (hl : s'.outFile = s.outFile) :
    s'.data = s.data := by
  have hx : (s'.thread t).txn = (s.thread t).txn := by
    simp only [Thread.txn, hst, hi, hv]
  rw [h.data_eq hx hm (congrArg _ hl)]
  simp only [State.data, Data.set, Function.update_eq_self]

/-- The moves of the program counter inside a stage. -/
lemma Move.data_pc (h : Move E s t s') {Q : Pc N R}
    (hth : s'.thread t = { s.thread t with pc := Q }) (hst : Q.stage = (s.thread t).pc.stage)
    (hm : ∀ y, s'.monitor.read y = s.monitor.read y) (hl : s'.outFile = s.outFile) :
    s'.data = s.data := by
  refine h.data_same ?_ ?_ ?_ hm hl <;> rw [hth]
  · exact hst
  · rfl
  · rfl

section Stages

variable (index : LockType → Fin R) (value : LockType → Int32)

/-- Stage `0` is the end of an attempt. -/
lemma txnAt_zero (n : ℕ) : txnAt 0 index value = (txnAt n index value).done := by
  ext ty <;> first | rfl | (cases ty <;> rfl)

/-- One stage further, the next record is owned. -/
lemma txnAt_acquire (ty : LockType) :
    txnAt ty.ownsFrom index value = { txnAt (ty.ownsFrom - 1) index value with
      owns := Function.update (txnAt (ty.ownsFrom - 1) index value).owns ty true } := by
  ext ty' <;> first | rfl | (cases ty <;> cases ty' <;> rfl)

/-- One stage further, its value is saved. -/
lemma txnAt_save (ty : LockType) (v : Int32) :
    txnAt ty.savedFrom index (Function.update value ty v)
      = { txnAt (ty.savedFrom - 1) index value with
        saved := Function.update (txnAt (ty.savedFrom - 1) index value).saved ty true
        value := Function.update value ty v } := by
  ext ty' <;> first | rfl | (cases ty <;> cases ty' <;> rfl)

/-- One stage further, it is written. -/
lemma txnAt_write {ty : LockType} (hty : ty ≠ .R) :
    txnAt ty.wroteFrom index value = { txnAt (ty.wroteFrom - 1) index value with
      wrote := Function.update (txnAt (ty.wroteFrom - 1) index value).wrote ty true } := by
  ext ty' <;> first | rfl | (cases ty <;> first | exact absurd rfl hty | (cases ty' <;> rfl))

end Stages

/-- An attempt saves a value. -/
lemma Move.data_save (h : Move E s t s') (ty : LockType)
    (hst : (s.thread t).pc.stage = ty.savedFrom - 1) (hst' : (s'.thread t).pc.stage = ty.savedFrom)
    (hi : (s'.thread t).index = (s.thread t).index)
    (hv : (s'.thread t).value
      = Function.update (s.thread t).value ty (s.monitor.read ((s.thread t).index ty)))
    (hm : s'.monitor = s.monitor) (hl : s'.outFile = s.outFile) : Data.Step s.data t s'.data := by
  have hx : (s'.thread t).txn = { (s.thread t).txn with
      saved := Function.update (s.thread t).txn.saved ty true
      value := Function.update (s.thread t).value ty
        (s.monitor.read ((s.thread t).index ty)) } := by
    simp only [Thread.txn, hst, hst', hi, hv]
    exact txnAt_save _ _ ty _
  rw [h.data_eq hx (fun _ => by rw [hm]) (congrArg _ hl)]
  refine .save ty ?_ ?_
  · simp only [State.data, Thread.txn, hst]
    cases ty <;> rfl
  · simp only [State.data, Thread.txn, hst]
    cases ty <;> rfl

/-- An attempt writes a record. -/
lemma Move.data_write (h : Move E s t s') (ty : LockType) (hty : ty ≠ .R)
    (hst : (s.thread t).pc.stage = ty.wroteFrom - 1) (hst' : (s'.thread t).pc.stage = ty.wroteFrom)
    (hi : (s'.thread t).index = (s.thread t).index) (hv : (s'.thread t).value = (s.thread t).value)
    (hm : s'.monitor = s.monitor.write ((s.thread t).index ty) ((s.thread t).txn.newValue ty))
    (hl : s'.outFile = s.outFile) : Data.Step s.data t s'.data := by
  have hx : (s'.thread t).txn = { (s.thread t).txn with
      wrote := Function.update (s.thread t).txn.wrote ty true } := by
    simp only [Thread.txn, hst, hst', hi, hv]
    exact txnAt_write _ _ hty
  rw [h.data_eq hx (fun y => by rw [hm, Monitor.write_read, ← Function.update_apply])
    (congrArg _ hl)]
  refine .write ty hty ?_ ?_
  · simp only [State.data, Thread.txn, hst]
    cases ty <;> rfl
  · simp only [State.data, Thread.txn, hst]
    cases ty <;> rfl

/-- An attempt ends without a line in the log. -/
lemma Move.data_undo (h : Move E s t s') (hst : (s'.thread t).pc.stage = 0)
    (hi : (s'.thread t).index = (s.thread t).index) (hv : (s'.thread t).value = (s.thread t).value)
    (hl : s'.outFile = s.outFile)
    (hw : ∀ ty : LockType, ty.wroteFrom ≤ (s.thread t).pc.stage →
      s'.monitor.read ((s.thread t).index ty) = (s.thread t).value ty)
    (hm : ∀ x, s'.monitor.read x = s.monitor.read x ∨ ∃ ty : LockType,
      ty.savedFrom ≤ (s.thread t).pc.stage ∧ (s.thread t).index ty = x ∧
        s'.monitor.read x = (s.thread t).value ty) :
    Data.Step s.data t s'.data := by
  rw [h.data_eq (x := (s.thread t).txn.done) ?_ (fun _ => rfl) (congrArg _ hl)]
  · exact .undo s'.monitor.read (fun ty h => hw ty (of_decide_eq_true h))
      fun x => (hm x).imp_right fun ⟨ty, h1, h2, h3⟩ => ⟨ty, decide_eq_true h1, h2, h3⟩
  · simp only [Thread.txn, hst, hi, hv]
    exact txnAt_zero _ _ _

/-- A refused request ends the attempt; what it has written is undone. -/
lemma Move.data_deadlock {ty : LockType} (hpc : (s.thread t).pc = .check ty)
    (hs' : s' = onDeadlock (s.setMonitor (s.monitor.deadlockCheck ((s.thread t).req t ty)).2) t ty)
    (hm : Move E s t s') : s'.data = s.data ∨ Data.Step s.data t s'.data := by
  subst hs'
  cases ty with
  | R =>
      exact .inl (hm.data_pc (Function.update_self _ _ _) (by rw [hpc]; rfl)
        (by simp [onDeadlock]) rfl)
  | W1 =>
      right
      refine hm.data_undo ?_ ?_ ?_ rfl ?_ (by simp [onDeadlock]) <;>
        simp only [onDeadlock, State.setPc_thread, State.setMonitor_thread, Function.update_self]
      · exact nextRelease_stage _ _
      · rfl
      · rfl
      · intro ty hw
        rw [hpc] at hw
        cases ty <;> simp [Pc.stage, LockType.wroteFrom] at hw
  | W2 =>
      right
      refine hm.data_undo ?_ ?_ ?_ rfl ?_ ?_ <;>
        simp only [onDeadlock, State.setPc_thread, State.setMonitor_thread, Function.update_self,
          State.setPc_monitor, State.setMonitor_monitor, Monitor.write_read,
          Monitor.deadlockCheck_read]
      · exact nextRelease_stage _ _
      · rfl
      · rfl
      · intro ty hw
        rw [hpc] at hw
        cases ty <;> simp [Pc.stage, LockType.wroteFrom, Thread.index, Thread.value] at hw ⊢
      · intro x
        by_cases hx : x = (s.thread t).j
        · exact Or.inr ⟨.W1, by rw [hpc]; exact Nat.le_succ 4, hx.symm, by rw [if_pos hx]; rfl⟩
        · exact Or.inl (if_neg hx)

/-- A commit logs the attempt, or undoes all of it when its id is beyond the bound. -/
lemma Move.data_commit (hs : LocksInv s) (hpc : (s.thread t).pc = .commit)
    (hs' : s' = commitStep E s t) (hm : Move E s t s') : Data.Step s.data t s'.data := by
  subst hs'
  unfold commitStep at hm ⊢
  dsimp only at hm ⊢
  split_ifs at hm ⊢
  · rw [hm.data_eq (x := (s.thread t).txn.done) ?_ (fun _ => rfl) List.map_append]
    · refine .commit _ ?_ ?_ <;> simp only [State.data, Thread.txn, hpc] <;> rfl
    · simp only [State.setPc_thread, Function.update_self]
      exact txnAt_zero _ _ _
  · obtain ⟨hij, hik, hjk⟩ := (hs.base.own t).distinct (by rw [hpc]; trivial)
    refine hm.data_undo ?_ ?_ ?_ rfl ?_ ?_ <;>
      simp only [State.setPc_thread, State.setMonitor_thread, Function.update_self,
        State.setPc_monitor, State.setMonitor_monitor, Monitor.write_read]
    · rfl
    · rfl
    · rfl
    · intro ty hw
      rw [hpc] at hw
      cases ty <;> simp [Pc.stage, LockType.wroteFrom, Thread.index, Thread.value, hjk] at hw ⊢
    · intro x
      have hsaved : ∀ ty : LockType, ty.savedFrom ≤ (s.thread t).pc.stage := by
        intro ty
        rw [hpc]
        cases ty <;> simp [Pc.stage, LockType.savedFrom]
      by_cases hk : x = (s.thread t).k
      · exact Or.inr ⟨.W2, hsaved _, hk.symm, by rw [if_pos hk]; rfl⟩
      · rw [if_neg hk]
        by_cases hj : x = (s.thread t).j
        · exact Or.inr ⟨.W1, hsaved _, hj.symm, by rw [if_pos hj]; rfl⟩
        · rw [if_neg hj]
          by_cases hi : x = (s.thread t).i
          · exact Or.inr ⟨.R, hsaved _, hi.symm, by rw [if_pos hi]; rfl⟩
          · exact Or.inl (if_neg hi)

/-- **Every move of the engine is a step on the data, or invisible there.** -/
theorem Move.data (hs : LocksInv s) (h : Move E s t s') :
    s'.data = s.data ∨ Data.Step s.data t s'.data := by
  have hm := h
  cases h
  case attempt i j k hpc hE hij hik hjk =>
    right
    rw [hm.data_eq (x := { (s.thread t).txn.done with
      index := fun | .R => i | .W1 => j | .W2 => k }) ?_ (fun _ => rfl) rfl]
    · refine .restart _ fun ty => ?_
      simp only [State.data, Thread.txn, hpc]
      cases ty <;> rfl
    · simp only [State.setThread_thread, Function.update_self, Thread.txn, hpc]
      ext ty <;> cases ty <;> rfl
  case unlock ty hpc =>
    right
    have hstage : (s.thread t).pc.stage = ty.ownsFrom - 1 := by rw [hpc]; cases ty <;> rfl
    rw [hm.data_eq (x := { (s.thread t).txn with
      owns := Function.update (s.thread t).txn.owns ty true }) ?_ (fun _ => rfl) rfl]
    · exact .acquire ty ((hs.base.own t).index_injective (by rw [hpc]; trivial))
        fun u hu ty' ho hx => hs.acquire_free hpc hu (of_decide_eq_true ho) hx
    · simp only [State.setThread_thread, Function.update_self, Thread.txn, hstage]
      rw [← txnAt_acquire]
      cases ty <;> rfl
  case readI hpc =>
    right
    refine hm.data_save .R (by rw [hpc]; rfl) ?_ ?_ ?_ rfl rfl <;>
      simp only [State.setThread_thread, Function.update_self]
    · rfl
    · rfl
    · funext ty
      cases ty <;> rfl
  case readJ hpc =>
    right
    refine hm.data_save .W1 (by rw [hpc]; rfl) ?_ ?_ ?_ rfl rfl <;>
      simp only [State.setThread_thread, Function.update_self]
    · rfl
    · rfl
    · funext ty
      cases ty <;> rfl
  case readK hpc =>
    right
    refine hm.data_save .W2 (by rw [hpc]; rfl) ?_ ?_ ?_ rfl rfl <;>
      simp only [State.setThread_thread, Function.update_self]
    · rfl
    · rfl
    · funext ty
      cases ty <;> rfl
  case writeJ hpc =>
    right
    exact hm.data_write .W1 (by decide) (by rw [hpc]; rfl) (by simp; rfl) (by simp; rfl)
      (by simp; rfl) rfl rfl
  case writeK hpc =>
    right
    exact hm.data_write .W2 (by decide) (by rw [hpc]; rfl) (by simp; rfl) (by simp; rfl)
      (by simp; rfl) rfl rfl
  case deadlock ty hpc hd => exact Move.data_deadlock hpc rfl hm
  case commit hpc => exact .inr (Move.data_commit hs hpc rfl hm)
  case flag ty held hpc =>
    refine .inl (hm.data_pc (Function.update_self _ _ _) ?_ (by simp) rfl)
    rw [hpc]
    cases held <;> cases ty <;> rfl
  case lockCommit hpc hg =>
    exact .inl (hm.data_pc (Function.update_self _ _ _) (by rw [hpc, nextRelease_stage]; rfl)
      (by simp) rfl)
  case notifyOne why r rest n w u hpc hw hn hu =>
    refine .inl (hm.data_pc (Q := nextRelease why rest) ?_ ?_ (by simp) (by simp))
    · simp only [State.setPc_thread, Function.update_self, (Move.thread_notify hpc r.index u).2]
    · rw [hpc, nextRelease_stage]
      cases why <;> rfl
  case notifyNone why r rest n w hpc hw hu =>
    refine .inl (hm.data_pc (Function.update_self _ _ _) ?_ (by simp) (by simp))
    rw [hpc, nextRelease_stage]
    cases why <;> rfl
  case notifyAll why r rest un hpc hun =>
    refine .inl (hm.data_pc (Q := nextRelease why rest) ?_ ?_ (by simp) (by simp))
    · simp only [State.setPc_thread, Function.update_self, (Move.thread_notify hpc r.index t).1]
    · rw [hpc, nextRelease_stage]
      cases why <;> rfl
  case erase why r rest hpc | unlockShared why r rest hpc hty hfree
      | unlockExclusive why r rest hpc hty hfree =>
    refine .inl (hm.data_pc (Function.update_self _ _ _) ?_ (by simp) rfl)
    rw [hpc]
    cases why <;> rfl
  case share held hpc | leave hpc hE | unlockLoop hpc | unlockExit hpc =>
    exact .inl (hm.data_pc (Function.update_self _ _ _) (by rw [hpc]; rfl) (by simp) rfl)
  -- the other moves stay inside one request
  all_goals
    rename LockType => ty
    refine .inl (hm.data_pc (Function.update_self _ _ _) ?_ (by simp) rfl)
    rw [‹(s.thread t).pc = _›]
    cases ty <;> rfl

/-! ## Every run -/

/-- Initially every record holds `100` and the log is empty. -/
lemma dataInv_init (h : IsInit s) : s.data.Inv := by
  obtain ⟨-, -, hm, hout, hpc⟩ := h
  have hstage : ∀ t, (s.thread t).pc.stage = 0 := fun t => by rw [hpc t]; rfl
  have hlog : s.data.log = [] := by simp [State.data, hout]
  refine ⟨fun t => ?_, fun t u ty ty' _ ho => ?_, fun x _ => ?_, fun c l hl => ?_⟩
  · have : s.data.txn t = (s.data.txn t).done := by
      simp only [State.data, Thread.txn, hstage t]
      exact txnAt_zero _ _ 0
    rw [this]
    exact Txn.good_done (s.data.txn t) (s.data.txn t).index
  · simp only [State.data, Thread.txn, hstage t] at ho
    cases ty <;> simp [txnAt, LockType.ownsFrom] at ho
  · rw [hlog]
    simp only [State.data, hm]
    rfl
  · rw [hlog] at hl
    simp at hl

/-- **In every reachable state the data is serial.** -/
theorem dataInv_of_reachable (hs : (engine N R E).Reachable s) : s.data.Inv :=
  Machine.Run.invariant (I := fun s => s.data.Inv) (fun _ h => dataInv_init h)
    (fun s a s' hrun hi _ hstep => by
      rcases (move_of_step hstep).data (locksInv_of_reachable hrun.reachable) with heq | hd
      · rw [heq]
        exact hi
      · exact hi.step hd) s hs

end Multicore.Project2
