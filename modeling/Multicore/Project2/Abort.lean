import Multicore.Project2.Dependencies

/-!
# What an abort leaves behind

A writer request that is answered with `deadlock` ends its attempt inside the critical section of
`global_mutex` it was made in: the value of record `j` is put back, if it was written, and the
release loop gives the locks back one after the other.  `Aborts` is such a section, from any
moment at which the request is still to be checked up to the `unlock` of `global_mutex`, with
everything the other threads do meanwhile.

**Frame.**  Nobody else changes the lock tables during the section (`Move.sameTables`), and what
the aborting thread changes has its own id on it.  So the part of the tables that is about the
other threads stays as it was (`OffTables`), and the rest follows from the invariants at the end:
a thread at `unlockLoop` has no queued request.

**The values** need more care.  The critical section does not keep out a thread that has a writer
lock already and stands at its `monitor->read` or `monitor->write` (`State.Writes`): that thread
may go on and write its record in the meantime.  What it writes is known from the start, since
nobody else can change the record.

* **`abort_leaves_no_trace`** — what is the same at both ends of the section and what is gone;
* `abort_other_writer` — a section during which another thread writes its record.
-/

namespace Multicore.Project2

open Relation QLock

variable {N R : ℕ} {E : ℤ} {s s' s₁ s₂ : State N R} {t u v : Fin N} {ty : LockType}

/-! ## The section -/

/-- Thread `u` has a writer lock on record `y` and stands at its `read` or `write` of it, and `v` is
what it is going to write. -/
inductive State.Writes (s : State N R) (u : Fin N) : Fin R → Int32 → Prop
  | readJ (hpc : (s.thread u).pc = .read .W1) :
      Writes s u (s.thread u).j (s.monitor.read (s.thread u).j + (s.thread u).iValue + 1)
  | writeJ (hpc : (s.thread u).pc = .write .W1) :
      Writes s u (s.thread u).j ((s.thread u).jValue + (s.thread u).iValue + 1)
  | readK (hpc : (s.thread u).pc = .read .W2) :
      Writes s u (s.thread u).k (s.monitor.read (s.thread u).k - (s.thread u).iValue)
  | writeK (hpc : (s.thread u).pc = .write .W2) :
      Writes s u (s.thread u).k ((s.thread u).kValue - (s.thread u).iValue)

/-- Thread `u` stood before its `write` of record `y` in `s`.  It has gone on, and the record has
the value it wrote. -/
def State.Wrote (s s' : State N R) (u : Fin N) (y : Fin R) : Prop :=
  ∃ v, s.Writes u y v ∧ (∀ w, ¬ s'.Writes u y w) ∧ (s'.monitor.records y).value = v.toInt64

/-- A critical section of `global_mutex` in which the writer request `ty` of thread `t` is refused:
`s` is a state before the answer and `s'` the state before the `unlock`. -/
structure Aborts (E : ℤ) (t : Fin N) (ty : LockType) (s s' : State N R) : Prop where
  check : (s.thread t).pc = .check ty
  writer : ty ≠ .R
  refused : (s.monitor.deadlockCheck ((s.thread t).req t ty)).1 = .deadlock
  run : ((engine N R E).startAt s).Run (fun s _ => s.globalMutex = some t) s'
  finish : (s'.thread t).pc = .unlockLoop

/-- What an abort of thread `t` leaves behind.  Entries are compared as `LockInfo::operator==`
does, without the flag `getLock`. -/
structure NoTrace (t : Fin N) (ty : LockType) (s s' : State N R) : Prop where
  /-- a written record `j` holds the value `t` has read under its lock -/
  restored : ty = .W2 →
    (s'.monitor.records (s.thread t).j).value = (s.thread t).jValue.toInt64
  /-- every other record is as it was, or a thread that had its writer lock has written it -/
  values : ∀ y, (ty = .W2 → y ≠ (s.thread t).j) →
    (s'.monitor.records y).value = (s.monitor.records y).value ∨ ∃ u, u ≠ t ∧ s.Wrote s' u y
  queues : ∀ x, clients (s'.monitor.lockRequest x)
    = (clients (s.monitor.lockRequest x)).filter fun c => c.1 ≠ t
  info : ∀ ty', s'.monitor.threadsInfo t ty' = none
  otherInfo : ∀ u, u ≠ t → s'.monitor.threadsInfo u = s.monitor.threadsInfo u
  depend : s'.monitor.dependThreads t = ∅ ∧ ∀ u, t ∉ s'.monitor.dependThreads u
  otherDepend : ∀ a b, a ≠ t → b ≠ t →
    (b ∈ s'.monitor.dependThreads a ↔ b ∈ s.monitor.dependThreads a)
  /-- `numReader` counts other threads only … -/
  readers : ∀ x, (s'.monitor.lock x).numReader
    = (Finset.univ.filter fun u => u ≠ t ∧ (s'.thread u).index .R = x ∧ s'.Holds u .R).card
  /-- … and a raised `writing` belongs to another thread -/
  writing : ∀ x, (s'.monitor.lock x).writing = true →
    ∃ u ty', u ≠ t ∧ ty' ≠ .R ∧ (s'.thread u).index ty' = x ∧ ((s'.thread u).pc.phase ty').Raised

/-! ## What one move does to the values -/

lemma Monitor.setLock_value (m : Monitor N R) (x y : Fin R) (l : RWLock N) :
    ((m.setLock x l).records y).value = (m.records y).value := by
  simp only [Monitor.setLock, Function.update_apply]
  split_ifs with h
  · rw [h]
  · rfl

lemma Monitor.write_value (m : Monitor N R) (x y : Fin R) (v : Int32) :
    ((m.write x v).records y).value = if y = x then v.toInt64 else (m.records y).value := by
  simp only [Monitor.write, Function.update_apply]
  split_ifs <;> rfl

/-- The values change at a `write`, at the answer `deadlock` and at the commit. -/
lemma Move.value_eq (hm : Move E s t s') (hw : ∀ ty, (s.thread t).pc ≠ .write ty)
    (hc : ∀ ty, (s.thread t).pc ≠ .check ty) (hcommit : (s.thread t).pc ≠ .commit) (y : Fin R) :
    (s'.monitor.records y).value = (s.monitor.records y).value := by
  cases hm
  case writeJ hpc | writeK hpc => exact absurd hpc (hw _)
  case deadlock ty hpc hst | waiting ty hpc hst | get ty hpc hst => exact absurd hpc (hc ty)
  case commit hpc => exact absurd hpc hcommit
  case enter | sleep | share | raise | wait | grant | reenter | unlockShared | unlockExclusive =>
    simp only [State.setPc_monitor, State.setMonitor_monitor, Monitor.setLock_value]
  case notifyOne => simp
  all_goals rfl

/-- Where a thread that writes stands. -/
lemma State.Writes.pc {y : Fin R} {v : Int32} (h : s.Writes u y v) :
    ∃ ty, ty ≠ .R ∧ ((s.thread u).pc = .read ty ∨ (s.thread u).pc = .write ty) ∧
      (s.thread u).index ty = y := by
  cases h with
  | readJ hpc => exact ⟨.W1, by simp, .inl hpc, rfl⟩
  | writeJ hpc => exact ⟨.W1, by simp, .inr hpc, rfl⟩
  | readK hpc => exact ⟨.W2, by simp, .inl hpc, rfl⟩
  | writeK hpc => exact ⟨.W2, by simp, .inr hpc, rfl⟩

/-- Outside the critical sections a thread changes the record it has a writer lock on. -/
lemma Move.value_of_not_inGlobal (hm : Move E s t s') (hg : (s.thread t).pc.inGlobal = false)
    (y : Fin R) :
    (s'.monitor.records y).value = (s.monitor.records y).value ∨ s.Wrote s' t y := by
  by_cases hw : ∃ ty, (s.thread t).pc = .write ty
  · obtain ⟨ty, hty⟩ := hw
    cases hm
    case writeJ hpc =>
      by_cases hy : y = (s.thread t).j
      · subst hy
        refine .inr ⟨_, .writeJ hpc, fun w hw => ?_, by simp [Monitor.write_value]⟩
        obtain ⟨ty', -, hpc', -⟩ := hw.pc
        simp at hpc'
      · exact .inl (by simp [Monitor.write_value, hy])
    case writeK hpc =>
      by_cases hy : y = (s.thread t).k
      · subst hy
        refine .inr ⟨_, .writeK hpc, fun w hw => ?_, by simp [Monitor.write_value]⟩
        obtain ⟨ty', -, hpc', -⟩ := hw.pc
        simp at hpc'
      · exact .inl (by simp [Monitor.write_value, hy])
    all_goals exact absurd (hty.symm.trans ‹(s.thread t).pc = _›) (by simp)
  · push Not at hw
    refine .inl (hm.value_eq hw (fun ty hpc => ?_) (fun hpc => ?_) y) <;>
      · rw [hpc] at hg
        exact Bool.noConfusion hg

/-- Outside the critical sections nobody comes to write: the lock was granted inside one.  A thread
that goes from its `read` to its `write` is to write the same. -/
lemma Move.writes_of_not_inGlobal (hm : Move E s t s') (hg : (s.thread t).pc.inGlobal = false)
    {y : Fin R} {v : Int32} (h : s'.Writes t y v) : s.Writes t y v := by
  obtain ⟨ty, hty, hpc', -⟩ := h.pc
  cases hm
  case readJ hpc =>
    cases h with
    | writeJ _ =>
        simp only [State.setThread_thread, Function.update_self]
        exact .readJ hpc
    | _ => simp_all
  case readK hpc =>
    cases h with
    | writeK _ =>
        simp only [State.setThread_thread, Function.update_self]
        exact .readK hpc
    | _ => simp_all
  case lockCommit hpc hfree =>
    have hin := nextRelease_inGlobal .commit (s.thread t).havingLocks
    simp only [State.setPc_thread, State.setGlobal_thread, Function.update_self] at hpc'
    rcases hpc' with h | h <;> rw [h] at hin <;> exact Bool.noConfusion hin
  case flag ty' held hpc => cases held <;> simp at hpc'
  all_goals
    first
      | rw [‹(s.thread t).pc = _›] at hg
        exact Bool.noConfusion hg
      | simp at hpc'

/-! ## The tables of the other threads -/

/-- The part of the lock tables that is not about thread `t` is the same. -/
structure OffTables (t : Fin N) (s s' : State N R) : Prop where
  clients : ∀ x, (clients (s'.monitor.lockRequest x)).filter (fun c => c.1 ≠ t)
    = (Project2.clients (s.monitor.lockRequest x)).filter fun c => c.1 ≠ t
  info : ∀ u, u ≠ t → s'.monitor.threadsInfo u = s.monitor.threadsInfo u
  depend : ∀ a b, a ≠ t → b ≠ t →
    (b ∈ s'.monitor.dependThreads a ↔ b ∈ s.monitor.dependThreads a)

lemma SameTables.off (h : SameTables s s') (t : Fin N) : OffTables t s s' where
  clients x := by rw [h.clients x]
  info u _ := by rw [h.info]
  depend a b _ _ := by rw [h.depend]

lemma SameTables.trans (h : SameTables s s₁) (h' : SameTables s₁ s₂) : SameTables s s₂ where
  clients x := (h'.clients x).trans (h.clients x)
  depend := h'.depend.trans h.depend
  info := h'.info.trans h.info

lemma OffTables.trans (h : OffTables t s s₁) (h' : OffTables t s₁ s₂) : OffTables t s s₂ where
  clients x := (h'.clients x).trans (h.clients x)
  info u hu := (h'.info u hu).trans (h.info u hu)
  depend a b ha hb := (h'.depend a b ha hb).trans (h.depend a b ha hb)

/-- Erasing an entry of `t` does not change what is left when all its entries are left out. -/
lemma filter_clients_eraseP (q : List (LockInfo N R)) {r : LockInfo N R} (hr : r.tid = t) :
    (clients (q.eraseP fun e => e.same r)).filter (fun c => c.1 ≠ t)
      = (clients q).filter fun c => c.1 ≠ t := by
  induction q with
  | nil => rfl
  | cons e q ih =>
      by_cases hs : e.same r = true
      · have he : e.entry.1.1 = t := ((LockInfo.same_iff.mp hs).2.2).trans hr
        rw [List.eraseP_cons_of_pos (p := fun e : LockInfo N R => e.same r) hs]
        simp [clients, he]
      · rw [List.eraseP_cons_of_neg (p := fun e : LockInfo N R => e.same r) hs]
        simp only [clients, List.map_cons, List.filter_cons] at ih ⊢
        rw [ih]

/-- The check of a request sees the tables only. -/
lemma SameTables.withRequest (h : SameTables s s') (r : LockInfo N R) :
    WithRequest s'.monitor r = WithRequest s.monitor r := by
  have key : ∀ (m : Monitor N R) (b : Fin N),
      (∃ e ∈ m.lockRequest r.index, e.tid = b ∧ (r.type ≠ .R ∨ e.type ≠ .R)) ↔
        ∃ c ∈ Project2.clients (m.lockRequest r.index), c.1 = b ∧ (r.type ≠ .R ∨ c.2 ≠ .R) := by
    intro m b
    simp [Project2.clients, LockInfo.entry]
  funext a b
  rw [WithRequest, WithRequest, h.depend, key, key, h.clients]

lemma SameTables.deadlock_iff (h : SameTables s s') (r : LockInfo N R) :
    (s'.monitor.deadlockCheck r).1 = .deadlock ↔ (s.monitor.deadlockCheck r).1 = .deadlock := by
  rw [Monitor.deadlockCheck_iff, Monitor.deadlockCheck_iff, dependsOn_addDepend,
    dependsOn_addDepend, h.withRequest]

/-! ## Along the section -/

/-- Is the thread on its way out of an attempt that was refused? -/
def Pc.aborting : Pc N R → Bool
  | .release .abort _ _ _ | .unlockLoop => true
  | _ => false

@[simp] lemma nextRelease_aborting (l : List (LockInfo N R)) :
    (nextRelease .abort l).aborting = true := by
  cases l <;> rfl

/-- What holds at every moment `s₁` of the section that began in `s`. -/
structure Along (t : Fin N) (ty : LockType) (s s₁ : State N R) : Prop where
  index : (s₁.thread t).index = (s.thread t).index
  jValue : (s₁.thread t).jValue = (s.thread t).jValue
  stage : (s₁.thread t).pc = .check ty ∧ SameTables s s₁ ∨
    (s₁.thread t).pc.aborting = true ∧ (ty = .W2 →
      (s₁.monitor.records (s.thread t).j).value = (s.thread t).jValue.toInt64)
  tables : OffTables t s s₁
  writers : ∀ u, u ≠ t → ∀ y v, s₁.Writes u y v → s.Writes u y v
  values : ∀ y, (ty = .W2 → y ≠ (s.thread t).j) →
    (s₁.monitor.records y).value = (s.monitor.records y).value ∨ ∃ u, u ≠ t ∧ s.Wrote s₁ u y

lemma Along.not_gate (h : Along t ty s s₁) (ty' : LockType) (held : Bool) (g : Gate) :
    (s₁.thread t).pc ≠ .gate ty' held g := by
  intro hpc
  rcases h.stage with ⟨hstage, -⟩ | ⟨hstage, -⟩ <;> rw [hpc] at hstage
  · simp at hstage
  · exact Bool.noConfusion hstage

lemma Woken.eq_of_not_gate {th th' : Thread N R} (h : Woken th th')
    (hg : ∀ ty held g, th.pc ≠ .gate ty held g) : th' = th := by
  cases h with
  | same => rfl
  | writer ty held hpc => exact absurd hpc (hg ty held _)
  | reader ty held hpc => exact absurd hpc (hg ty held _)

lemma holds_of_writing (h : (s.thread u).pc = .read ty ∨ (s.thread u).pc = .write ty) :
    s.Holds u ty := by
  rcases h with h | h <;>
  · rw [State.Holds, h, Pc.phase, phaseUpTo_self]
    trivial

/-- A thread that is to write a record is the only one that has a writer lock on it. -/
lemma not_writes (hs : (engine N R E).Reachable s) {y : Fin R} {v : Int32} (hty : ty ≠ .R)
    (hx : (s.thread t).index ty = y) (ht : s.Holds t ty) (hut : u ≠ t) : ¬ s.Writes u y v := by
  intro h
  obtain ⟨ty', -, hpc, hy⟩ := h.pc
  have hne : (t, ty) ≠ (u, ty') := by simp [hut.symm]
  exact hty ((locksInv_of_reachable hs).exclusive hne (hx.trans hy.symm) ht
    (holds_of_writing hpc)).1

/-- A move of one thread does not make another one write.  It leaves what that one is to write: if
it changes a record, it has the writer lock on it. -/
lemma Move.writes_other (hs : (engine N R E).Reachable s) (hm : Move E s t s') (hut : u ≠ t)
    {y : Fin R} {v : Int32}
    (hval : (s'.monitor.records y).value = (s.monitor.records y).value ∨
      ∃ ty, ty ≠ .R ∧ (s.thread t).index ty = y ∧ s.Holds t ty)
    (h : s'.Writes u y v) : s.Writes u y v := by
  obtain ⟨ty', hty', hpc', hy⟩ := h.pc
  have hwoken := hm.woken hut
  have hpc := hpc'
  rw [hwoken.pc_eq (by simp), hwoken.pc_eq (by simp)] at hpc
  have hsame : s'.thread u = s.thread u := by
    refine hwoken.eq_of_not_gate fun ty held g hg => ?_
    rcases hpc with hpc | hpc <;> rw [hpc] at hg <;> simp at hg
  rcases hval with hval | ⟨ty, hty, hx, ht⟩
  · have hread : s'.monitor.read y = s.monitor.read y := by
      rw [Monitor.read, Record.read, hval]
      rfl
    cases h with
    | readJ hpc =>
        rw [hread, hsame]
        exact .readJ (hsame ▸ hpc)
    | writeJ hpc =>
        rw [hsame]
        exact .writeJ (hsame ▸ hpc)
    | readK hpc =>
        rw [hread, hsame]
        exact .readK (hsame ▸ hpc)
    | writeK hpc =>
        rw [hsame]
        exact .writeK (hsame ▸ hpc)
  · have hne : (t, ty) ≠ (u, ty') := by simp [hut.symm]
    rw [hsame] at hy
    exact absurd ((locksInv_of_reachable hs).exclusive hne (hx.trans hy.symm) ht
      (holds_of_writing hpc)).1 hty

/-- What a thread wrote stays, as long as the record is left and the thread does not come to write
again. -/
lemma State.Wrote.trans {y : Fin R} (h : s.Wrote s₁ u y)
    (hback : ∀ w, s₂.Writes u y w → s₁.Writes u y w)
    (hval : (s₂.monitor.records y).value = (s₁.monitor.records y).value) : s.Wrote s₂ u y := by
  obtain ⟨v, hv, hgone, hvalue⟩ := h
  exact ⟨v, hv, fun w hw => hgone w (hback w hw), hval.trans hvalue⟩

/-- The other threads keep the invariant of the section. -/
lemma Along.other (h : Along t ty s s₁) (hs : (engine N R E).Reachable s)
    (hcheck : (s.thread t).pc = .check ty) (hs₁ : (engine N R E).Reachable s₁)
    (hg : s₁.globalMutex = some t) (hvt : v ≠ t) (hm : Move E s₁ v s₂) : Along t ty s s₂ := by
  have hout : (s₁.thread v).pc.inGlobal = false := by
    refine Bool.eq_false_of_not_eq_true fun hin => hvt ?_
    have := (locksInv_of_reachable hs₁).base.global v hin
    rw [hg] at this
    exact (Option.some.inj this).symm
  have htab : SameTables s₁ s₂ := hm.sameTables_of_not_inGlobal hout
  have hself : s₂.thread t = s₁.thread t := (hm.woken hvt.symm).eq_of_not_gate h.not_gate
  have hvalue := hm.value_of_not_inGlobal hout
  have hback : ∀ u y w, s₂.Writes u y w → s₁.Writes u y w := by
    intro u y w hw
    by_cases huv : u = v
    · subst huv
      exact hm.writes_of_not_inGlobal hout hw
    · refine hm.writes_other hs₁ huv ((hvalue y).imp_right ?_) hw
      rintro ⟨_, hv, -, -⟩
      obtain ⟨ty', hty', hpc, hy⟩ := hv.pc
      exact ⟨ty', hty', hy, holds_of_writing hpc⟩
  refine ⟨by rw [hself, h.index], by rw [hself, h.jValue], ?_, h.tables.trans (htab.off t),
    fun u hut y w hw => h.writers u hut y w (hback u y w hw), fun y hy => ?_⟩
  · rw [hself]
    refine h.stage.imp (fun ⟨hpc, hsame⟩ => ⟨hpc, hsame.trans htab⟩) fun ⟨hpc, hval⟩ => ⟨hpc, ?_⟩
    rintro rfl
    rw [← hval rfl]
    refine (hvalue _).resolve_right ?_
    rintro ⟨w, hw, -, -⟩
    have hj : s.Holds t .W1 := by
      rw [State.Holds, hcheck]
      trivial
    exact not_writes hs (by simp) rfl hj hvt (h.writers v hvt _ w hw)
  · rcases hvalue y with heq | ⟨w, hw, hgone, hnew⟩
    · refine (h.values y hy).imp heq.trans ?_
      rintro ⟨u, hut, hwrote⟩
      exact ⟨u, hut, hwrote.trans (hback u y) heq⟩
    · exact .inr ⟨v, hvt, w, h.writers v hvt y w hw, hgone, hnew⟩

/-- A refused request changes the edges of its own thread only. -/
lemma offTables_of_refused {r : LockInfo N R} (hr : r.tid = t)
    (hst : (s.monitor.deadlockCheck r).1 = .deadlock)
    (hq : s'.monitor.lockRequest = (s.monitor.deadlockCheck r).2.lockRequest)
    (hi : s'.monitor.threadsInfo = (s.monitor.deadlockCheck r).2.threadsInfo)
    (hd : s'.monitor.dependThreads = (s.monitor.deadlockCheck r).2.dependThreads) :
    OffTables t s s' := by
  refine ⟨fun x => ?_, fun u _ => ?_, fun a b ha _ => ?_⟩
  · rw [hq, Monitor.deadlockCheck_deadlock _ _ hst]
  · rw [hi, Monitor.deadlockCheck_deadlock_info _ _ hst]
  · rw [hd, Monitor.deadlockCheck_dependThreads, Monitor.mem_addDepend]
    exact or_iff_left fun h => ha (h.1.trans hr)

/-- The values after the answer `deadlock`: that of record `j` is put back if the request was for
record `k`. -/
lemma onDeadlock_value (s : State N R) (t : Fin N) (y : Fin R) :
    ((onDeadlock s t ty).monitor.records y).value =
      if ty = .W2 ∧ y = (s.thread t).j then (s.thread t).jValue.toInt64
      else (s.monitor.records y).value := by
  cases ty <;> simp [onDeadlock, Monitor.write_value]

/-- The refusal: record `j` is put back and the release loop starts. -/
lemma Along.refuse (h : Along t ty s s₁) (hs₁ : (engine N R E).Reachable s₁) (hty : ty ≠ .R)
    (hrefused : (s.monitor.deadlockCheck ((s.thread t).req t ty)).1 = .deadlock)
    (hpc : (s₁.thread t).pc = .check ty) (hsame : SameTables s s₁) (hm : Move E s₁ t s₂) :
    Along t ty s s₂ := by
  have hreq : (s₁.thread t).req t ty = (s.thread t).req t ty := by
    simp only [Thread.req, h.index]
  have hst : (s₁.monitor.deadlockCheck ((s₁.thread t).req t ty)).1 = .deadlock := by
    rw [hreq, hsame.deadlock_iff]
    exact hrefused
  have hj : (s₁.thread t).j = (s.thread t).j := congrFun h.index .W1
  have hm' := hm
  cases hm
  case deadlock ty' hpc' hst' =>
    obtain rfl : ty = ty' := by simpa using hpc.symm.trans hpc'
    set s₂ := onDeadlock
      (s₁.setMonitor (s₁.monitor.deadlockCheck ((s₁.thread t).req t ty)).2) t ty with hs₂
    have hoff : OffTables t s₁ s₂ :=
      offTables_of_refused rfl hst (by cases ty <;> rfl) (by cases ty <;> rfl)
        (by cases ty <;> rfl)
    have hvalue : ∀ y, (s₂.monitor.records y).value =
        if ty = .W2 ∧ y = (s.thread t).j then (s.thread t).jValue.toInt64
        else (s₁.monitor.records y).value := by
      intro y
      rw [hs₂, onDeadlock_value, State.setMonitor_thread, State.setMonitor_monitor,
        Monitor.deadlockCheck_records, hj, h.jValue]
    have hback : ∀ u, u ≠ t → ∀ y w, s₂.Writes u y w → s₁.Writes u y w := by
      intro u hut y w hw
      refine hm'.writes_other hs₁ hut ?_ hw
      by_cases hy : ty = .W2 ∧ y = (s.thread t).j
      · obtain ⟨rfl, rfl⟩ := hy
        exact .inr ⟨.W1, by simp, hj, by rw [State.Holds, hpc]; trivial⟩
      · exact .inl (by rw [hvalue, if_neg hy])
    refine ⟨?_, ?_, .inr ⟨?_, fun hw => ?_⟩, h.tables.trans hoff,
      fun u hut y w hw => h.writers u hut y w (hback u hut y w hw), fun y hy => ?_⟩
    · rw [← h.index, hs₂]
      cases ty <;> simp only [onDeadlock, State.setPc_thread, State.setMonitor_thread,
        Function.update_self] <;> rfl
    · rw [← h.jValue, hs₂]
      cases ty <;> simp [onDeadlock]
    · rw [hs₂]
      cases ty <;> simp [onDeadlock] at hty ⊢
    · rw [hvalue, if_pos ⟨hw, rfl⟩]
    · have hkeep : (s₂.monitor.records y).value = (s₁.monitor.records y).value := by
        rw [hvalue, if_neg fun hc => hy hc.1 hc.2]
      refine (h.values y hy).imp hkeep.trans ?_
      rintro ⟨u, hut, hwrote⟩
      exact ⟨u, hut, hwrote.trans (hback u hut y) hkeep⟩
  case waiting ty' hpc' hst' =>
    obtain rfl : ty = ty' := by simpa using hpc.symm.trans hpc'
    rw [hst] at hst'
    exact Status.noConfusion hst'
  case get ty' hpc' hst' =>
    obtain rfl : ty = ty' := by simpa using hpc.symm.trans hpc'
    rw [hst] at hst'
    exact Status.noConfusion hst'
  all_goals exact absurd (hpc.symm.trans ‹(s₁.thread t).pc = _›) (by simp)

/-- A `deleteLock` changes what is about its own thread. -/
lemma offTables_deleteLock (s : State N R) {r : LockInfo N R} (hr : r.tid = t) (pc : Pc N R) :
    OffTables t s ((s.setMonitor (s.monitor.deleteLock r)).setPc t pc) := by
  refine ⟨fun x => ?_, fun u hu => ?_, fun a b ha hb => ?_⟩
  · simp only [State.setPc_monitor, State.setMonitor_monitor, Monitor.deleteLock,
      Function.update_apply]
    split_ifs with hx
    · rw [hx]
      exact filter_clients_eraseP _ hr
    · rfl
  · simp only [State.setPc_monitor, State.setMonitor_monitor, Monitor.deleteLock]
    exact Function.update_of_ne (hr ▸ hu) _ _
  · simp only [State.setPc_monitor, State.setMonitor_monitor, Monitor.deleteLock, hr, if_neg ha,
      Finset.mem_erase]
    exact and_iff_right hb

/-- The release loop of an abort, step by step, up to the `unlock`. -/
lemma Move.aborting (hm : Move E s t s') (hab : (s.thread t).pc.aborting = true)
    (hg : s'.globalMutex = some t) :
    (s'.thread t).pc.aborting = true ∧ (s'.thread t).index = (s.thread t).index ∧
      (s'.thread t).jValue = (s.thread t).jValue := by
  have habort : ∀ {why r rest un}, (s.thread t).pc = .release why r rest un → why = .abort := by
    intro why r rest un hpc
    rw [hpc] at hab
    cases why with
    | abort => rfl
    | commit => exact Bool.noConfusion hab
  cases hm
  case erase why r rest hpc | unlockShared why r rest hpc hty hfree
      | unlockExclusive why r rest hpc hty hfree =>
    obtain rfl := habort hpc
    simp only [State.setPc_thread, State.setMonitor_thread, Function.update_self]
    exact ⟨rfl, rfl, trivial⟩
  case notifyOne why r rest n w u hpc hw hn hu =>
    obtain rfl := habort hpc
    simp only [State.setPc_thread, Function.update_self, nextRelease_aborting,
      (Move.thread_notify hpc r.index u).2]
    exact ⟨trivial, rfl, trivial⟩
  case notifyNone why r rest n w hpc hw hu =>
    obtain rfl := habort hpc
    simp only [State.setPc_thread, Function.update_self, nextRelease_aborting]
    exact ⟨trivial, rfl, trivial⟩
  case notifyAll why r rest un hpc hun =>
    obtain rfl := habort hpc
    simp only [State.setPc_thread, Function.update_self, nextRelease_aborting,
      (Move.thread_notify hpc r.index t).1]
    exact ⟨trivial, rfl, trivial⟩
  case unlockLoop hpc => simp at hg
  all_goals
    rw [‹(s.thread t).pc = _›] at hab
    exact Bool.noConfusion hab

/-- The release loop leaves the values and the tables of the others alone. -/
lemma Along.release (h : Along t ty s s₁) (hs₁ : (engine N R E).Reachable s₁)
    (hab : (s₁.thread t).pc.aborting = true) (hm : Move E s₁ t s₂)
    (hg : s₂.globalMutex = some t) : Along t ty s s₂ := by
  obtain ⟨hab', hindex, hj⟩ := hm.aborting hab hg
  have hno : ∀ pc : Pc N R, pc.aborting = false → (s₁.thread t).pc ≠ pc := by
    rintro pc hpc rfl
    rw [hab] at hpc
    exact Bool.noConfusion hpc
  have hval : ∀ y, (s₂.monitor.records y).value = (s₁.monitor.records y).value :=
    hm.value_eq (fun _ => hno _ rfl) (fun _ => hno _ rfl) (hno _ rfl)
  have htab : OffTables t s₁ s₂ := by
    by_cases he : ∃ why r rest, (s₁.thread t).pc = .release why r rest .erase
    · obtain ⟨why, r, rest, hpc⟩ := he
      have htid : r.tid = t := ((locksInv_of_reachable hs₁).base.own t).release_tid hpc
      cases hm
      case erase why' r' rest' hpc' =>
        obtain ⟨rfl, rfl, rfl, -⟩ := Pc.release.inj (hpc.symm.trans hpc')
        exact offTables_deleteLock s₁ htid _
      case notifyAll why' r' rest' un hpc' hun =>
        obtain ⟨-, -, -, rfl⟩ := Pc.release.inj (hpc.symm.trans hpc')
        simp at hun
      all_goals exact absurd (hpc.symm.trans ‹(s₁.thread t).pc = _›) (by simp)
    · push Not at he
      exact (hm.sameTables (fun _ => hno _ rfl) he).off t
  have hback : ∀ u, u ≠ t → ∀ y w, s₂.Writes u y w → s₁.Writes u y w :=
    fun u hut y w hw => hm.writes_other hs₁ hut (.inl (hval y)) hw
  refine ⟨hindex.trans h.index, hj.trans h.jValue, .inr ⟨hab', fun hw => ?_⟩,
    h.tables.trans htab, fun u hut y w hw => h.writers u hut y w (hback u hut y w hw),
    fun y hy => ?_⟩
  · rw [hval]
    exact (h.stage.resolve_left fun hc => hno _ rfl hc.1).2 hw
  · refine (h.values y hy).imp (hval y).trans ?_
    rintro ⟨u, hut, hwrote⟩
    exact ⟨u, hut, hwrote.trans (hback u hut y) (hval y)⟩

/-- **The invariant of the section**, from its start to its end. -/
lemma Aborts.along (hs : (engine N R E).Reachable s) (h : Aborts E t ty s s') :
    Along t ty s s' := by
  have key : ∀ s₁, ((engine N R E).startAt s).Run (fun s _ => s.globalMutex = some t) s₁ →
      s₁.globalMutex = some t → Along t ty s s₁ := by
    refine Machine.Run.invariant (I := fun s₁ => s₁.globalMutex = some t → Along t ty s s₁)
      (fun s₁ h0 _ => ?_) fun s₁ a s₂ hr hi hg hstep hg' => ?_
    · obtain rfl : s₁ = s := h0
      exact ⟨rfl, rfl, .inl ⟨h.check, fun _ => rfl, rfl, rfl⟩, ⟨fun _ => rfl, fun _ _ => rfl,
        fun _ _ _ _ => Iff.rfl⟩, fun _ _ _ _ hw => hw, fun _ _ => .inl rfl⟩
    · have hm : Move E s₁ a.tid s₂ := move_of_step hstep
      have hreach := Machine.Run.of_startAt hs hr
      by_cases hat : a.tid = t
      · rw [hat] at hm
        rcases (hi hg).stage with ⟨hpc, hsame⟩ | ⟨hab, -⟩
        · exact (hi hg).refuse hreach h.writer h.refused hpc hsame hm
        · exact (hi hg).release hreach hab hm hg'
      · exact (hi hg).other hs h.check hreach hg hat hm
  refine key s' h.run ?_
  exact (locksInv_of_reachable (Machine.Run.of_startAt hs h.run)).base.global t
    (by rw [h.finish]; rfl)

/-! ## The end of the section

A thread without a lock or a request has left nothing in the queues and in the `RWLock`s. -/

section Absent

variable (hinv : LocksInv s) (habsent : ∀ ty, (s.thread t).pc.phase ty = .absent)

include hinv habsent

lemma LocksInv.notMem_clients (x : Fin R) (ty : LockType) :
    (t, ty) ∉ clients (s.monitor.lockRequest x) := by
  intro hmem
  have := (hinv.mem_clients_iff.mp hmem).2
  rw [habsent] at this
  exact this

lemma LocksInv.numReader_others (x : Fin R) : (s.monitor.lock x).numReader
    = (Finset.univ.filter fun u => u ≠ t ∧ (s.thread u).index .R = x ∧ s.Holds u .R).card := by
  rw [hinv.numReader x]
  congr 2
  ext u
  simp only [Finset.mem_filter, Finset.mem_univ, true_and]
  refine ⟨fun ⟨hx, hh⟩ => ⟨?_, hx, hh⟩, fun ⟨_, hx, hh⟩ => ⟨hx, hh⟩⟩
  rintro rfl
  rw [State.Holds, habsent] at hh
  exact hh

lemma LocksInv.raiser_other {x : Fin R} (hx : (s.monitor.lock x).writing = true) :
    ∃ u ty, u ≠ t ∧ ty ≠ .R ∧ (s.thread u).index ty = x ∧ ((s.thread u).pc.phase ty).Raised := by
  obtain ⟨⟨u, ty⟩, hw, hraised⟩ := (hinv.lock x).lock.raiser hx
  simp only [State.view, phaseAt] at hraised
  split_ifs at hraised with hux
  · refine ⟨u, ty, ?_, hw, hux, hraised⟩
    rintro rfl
    rw [habsent] at hraised
    exact hraised
  · exact absurd hraised id

end Absent

/-- **Aborting leaves no trace.**  At the end of the section in which a writer request of `t` is
refused, a written record `j` has its old value back, the queues, `threads_info` and the
dependency graph are those of the start without `t`, and `t` neither counts as a reader nor holds
a `writing` flag.  All other values are those of the start, except where a thread that had a
writer lock at the start has gone on to write its record; that record has the value it wrote. -/
theorem abort_leaves_no_trace (hs : (engine N R E).Reachable s) (h : Aborts E t ty s s') :
    NoTrace t ty s s' := by
  have hs' := Machine.Run.of_startAt hs h.run
  have hinv := locksInv_of_reachable hs'
  have htab := tables_of_reachable hs'
  have hal := h.along hs
  have hfin := h.finish
  have habsent : ∀ ty', (s'.thread t).pc.phase ty' = .absent := fun ty' => by rw [hfin]; rfl
  have hgone := hinv.notMem_clients habsent
  have hnot : ∀ u, (s'.thread u).pc.releasing = false := fun u => by
    by_cases hut : u = t
    · rw [hut, hfin]; rfl
    · exact hinv.base.not_releasing (by rw [hfin]; rfl) hut
  have hwaits := hinv.not_waitsFor (t := t) fun ty' => by rw [habsent]; exact id
  have hstage := (hal.stage.resolve_left fun hc => by rw [hfin] at hc; simp at hc).2
  refine ⟨hstage, hal.values, fun x => ?_, fun ty' => ?_, hal.tables.info, ⟨?_, fun u hu => ?_⟩,
    hal.tables.depend, hinv.numReader_others habsent, fun _ => hinv.raiser_other habsent⟩
  · rw [← hal.tables.clients x, List.filter_eq_self.mpr]
    rintro ⟨u, ty'⟩ hmem
    have hut : u ≠ t := by
      rintro rfl
      exact hgone x ty' hmem
    simpa using hut
  · refine Option.eq_none_iff_forall_ne_some.mpr fun x hx => ?_
    exact hgone x ty' ((htab.info t ty' x).mp hx)
  · refine Finset.eq_empty_of_forall_notMem fun u hu => ?_
    exact (hwaits u).1 ((htab.depend t u (hnot t) (hnot u)).mp hu)
  · exact (hwaits u).2 ((htab.depend u t (hnot u) (hnot t)).mp hu)

/-- Thread `0` has written record `1` and its request for record `2` closes a cycle with thread
`1`: the section puts the `100` of record `1` back. -/
theorem abort_leaves_no_trace_restores : ∃ s s' : State 2 4, (engine 2 4 5).Reachable s ∧
    Aborts 5 0 .W2 s s' ∧ (s.monitor.records 1).value = 201 ∧ (s'.monitor.records 1).value = 100 ∧
    NoTrace 0 .W2 s s' := by
  obtain ⟨s, s', hs, hp, hrun, hq⟩ := Machine.exists_part_of_exec (M := engine 2 4 5)
    (fun s _ => s.globalMutex = some 0) (State.start_isInit 2 4)
    (List.flatten [Act.start 0 0 1 2, Act.go 0 20, Act.start 1 2 0 3, Act.go 1 12, Act.go 0 1])
    (Act.go 0 7)
    (fun s => (s.thread 0).pc = .check .W2 ∧
      (s.monitor.deadlockCheck ((s.thread 0).req 0 .W2)).1 = .deadlock ∧
      (s.monitor.records 1).value = 201)
    (fun _ s' => (s'.thread 0).pc = .unlockLoop ∧ (s'.monitor.records 1).value = 100)
    (by decide +kernel)
  obtain ⟨hpc, hst, hold⟩ := of_decide_eq_true hp
  obtain ⟨hfin, hnew⟩ := of_decide_eq_true hq
  have hab : Aborts 5 0 .W2 s s' := ⟨hpc, by simp, hst, hrun, hfin⟩
  exact ⟨s, s', hs, hab, hold, hnew, abort_leaves_no_trace hs hab⟩

/-- **The values of other records need not be unchanged**: while thread `0` gives up its request
for record `1`, thread `2`, which has a writer lock on record `3`, writes it. -/
theorem abort_other_writer : ∃ s s' : State 3 5, (engine 3 5 5).Reachable s ∧
    Aborts 5 0 .W1 s s' ∧ (s.thread 0).j ≠ 3 ∧
    (s.monitor.records 3).value = 100 ∧ (s'.monitor.records 3).value = 201 := by
  obtain ⟨s, s', hs, hp, hrun, hq⟩ := Machine.exists_part_of_exec (M := engine 3 5 5)
    (fun s _ => s.globalMutex = some 0) (State.start_isInit 3 5)
    (List.flatten [Act.start 0 0 1 2, Act.go 0 9, Act.start 1 1 0 2, Act.go 1 12,
      Act.start 2 2 3 4, Act.go 2 19, Act.go 0 1])
    (List.flatten [Act.go 2 1, Act.go 0 4])
    (fun s => (s.thread 0).pc = .check .W1 ∧
      (s.monitor.deadlockCheck ((s.thread 0).req 0 .W1)).1 = .deadlock ∧ (s.thread 0).j ≠ 3 ∧
      (s.monitor.records 3).value = 100)
    (fun _ s' => (s'.thread 0).pc = .unlockLoop ∧ (s'.monitor.records 3).value = 201)
    (by decide +kernel)
  obtain ⟨hpc, hst, hj, hold⟩ := of_decide_eq_true hp
  obtain ⟨hfin, hnew⟩ := of_decide_eq_true hq
  exact ⟨s, s', hs, ⟨hpc, by simp, hst, hrun, hfin⟩, hj, hold, hnew⟩

end Multicore.Project2
