import Multicore.Project2.Threads

/-!
# The record locks are queued locks

For every record `x` the engine contains one instance of the queued reader–writer lock: its queue
is `lock_request[x]`, its count and flag are those of the record's `RWLock`, and its clients are
the requests `(tid, type)`.  `State.view s x` reads that lock off the state.

* `Move.refines` — every move of the engine leaves the lock of each record alone or is one of its
  steps;
* **`locksInv_of_reachable`** — so in every reachable state the lock of each record satisfies the
  invariant of queued locks.
-/

namespace Multicore.Project2

open QLock

variable {N R : ℕ} {E : ℤ} {s s' : State N R} {t u : Fin N} {x : Fin R}

/-! ## The view of one record -/

/-- A client of a record's lock: a thread with the type of its request. -/
abbrev Client (N : ℕ) := Fin N × LockType

/-- The readers are the requests of type `R`. -/
def IsReader (c : Client N) : Prop := c.2 = .R

instance : DecidablePred (IsReader (N := N)) := fun c => inferInstanceAs (Decidable (c.2 = .R))

/-- The client and the flag of a queue entry. -/
def LockInfo.entry (e : LockInfo N R) : Client N × Bool := ((e.tid, e.type), e.getLock)

/-- The phase of each client at record `x`. -/
def phaseAt (thread : Fin N → Thread N R) (x : Fin R) (c : Client N) : Phase :=
  if (thread c.1).index c.2 = x then (thread c.1).pc.phase c.2 else .absent

/-- The queued lock of record `x`. -/
def State.view (s : State N R) (x : Fin R) : QLock (Client N) where
  queue := (s.monitor.lockRequest x).map LockInfo.entry
  numReader := (s.monitor.lock x).numReader
  writing := (s.monitor.lock x).writing
  phase := phaseAt s.thread x

lemma view_phase_index (s : State N R) (t : Fin N) (ty : LockType) :
    (s.view ((s.thread t).index ty)).phase (t, ty) = (s.thread t).pc.phase ty := by
  simp [State.view, phaseAt]

/-! ## The gate predicate -/

/-- Entries for one record are the same request when they have the same client. -/
lemma same_iff_client {e req : LockInfo N R} (h : e.index = req.index) :
    e.same req = true ↔ e.entry.1 = (req.tid, req.type) := by
  rw [LockInfo.same_iff, LockInfo.entry, Prod.mk.injEq]
  tauto

lemma before_cons_entry {e req : LockInfo N R} (h : e.index = req.index)
    (q : List (LockInfo N R)) :
    before ((e :: q).map LockInfo.entry) (req.tid, req.type)
      = if e.same req = true then []
        else e.entry :: before (q.map LockInfo.entry) (req.tid, req.type) := by
  rw [List.map_cons, before_cons]
  by_cases hs : e.same req = true
  · rw [if_pos hs, if_pos ((same_iff_client h).mp hs)]
  · rw [if_neg hs, if_neg fun h' => hs ((same_iff_client h).mpr h')]

lemma allReader_clear {req : LockInfo N R} {q : List (LockInfo N R)}
    (hq : ∀ e ∈ q, e.index = req.index) (h : allReader q req = true) :
    ∀ e ∈ before (q.map LockInfo.entry) (req.tid, req.type), IsReader e.1 := by
  induction q with
  | nil => simp
  | cons e q ih =>
      rw [before_cons_entry (hq e (by simp))]
      simp only [allReader] at h
      split_ifs at h ⊢ with hs ht
      · simp
      · intro e' he'
        rcases List.mem_cons.mp he' with rfl | he'
        · exact not_not.mp ht
        · exact ih (fun e he => hq e (by simp [he])) h e' he'

lemma onlyWriter_clear {req : LockInfo N R} {q : List (LockInfo N R)}
    (hq : ∀ e ∈ q, e.index = req.index) (h : onlyWriter q req = true) :
    ∀ e ∈ before (q.map LockInfo.entry) (req.tid, req.type), IsReader e.1 ∧ e.2 = true := by
  induction q with
  | nil => simp
  | cons e q ih =>
      rw [before_cons_entry (hq e (by simp))]
      simp only [onlyWriter] at h
      split_ifs at h ⊢ with hs ht
      · simp
      · intro e' he'
        rcases List.mem_cons.mp he' with rfl | he'
        · simp only [not_or] at ht
          refine ⟨?_, by simpa [LockInfo.entry] using ht.2.2⟩
          show e.type = .R
          cases hty : e.type <;> simp_all
        · exact ih (fun e he => hq e (by simp [he])) h e' he'

/-- `checkQueue` is the condition of the queued lock. -/
lemma clear_of_checkQueue {q : List (LockInfo N R)} (req : LockInfo N R)
    (hq : ∀ e ∈ q, e.index = req.index) (h : checkQueue q req = true) :
    Clear IsReader (q.map LockInfo.entry) (req.tid, req.type) := by
  cases q with
  | nil => simp [checkQueue] at h
  | cons first q =>
      simp only [checkQueue] at h
      split_ifs at h with hs ht
      · intro e he
        have hs' : first.same req = true := by
          rw [LockInfo.same_iff] at hs ⊢
          exact ⟨hs.1.symm, hs.2.1.symm, hs.2.2.symm⟩
        rw [before_cons_entry (hq first (by simp)), if_pos hs'] at he
        simp at he
      · exact fun e he => ⟨allReader_clear hq h e he, fun hr => absurd ht hr⟩
      · exact fun e he => ⟨(onlyWriter_clear hq h e he).1, fun _ => (onlyWriter_clear hq h e he).2⟩

/-! ## Moves of one client -/

/-- The engine goes from `s` to `s'`, and the lock of each record stays or makes a step. -/
def Refines (s s' : State N R) : Prop :=
  ∀ x, s'.view x = s.view x ∨ Step IsReader (s.view x) (s'.view x)

lemma phaseAt_congr {thread thread' : Fin N → Thread N R}
    (h : ∀ u, (thread' u).pc.phase = (thread u).pc.phase ∧
      ((thread' u).index = (thread u).index ∨ (thread u).pc.phase = fun _ => .absent)) (x : Fin R) :
    phaseAt thread' x = phaseAt thread x := by
  funext c
  obtain ⟨hp, hi | hi⟩ := h c.1
  · simp only [phaseAt, hp, hi]
  · simp only [phaseAt, hp, hi, ite_self]

/-- The moves no lock notices. -/
lemma Move.refines_of_phase (h : Move E s t s')
    (hq : s'.monitor.lockRequest = s.monitor.lockRequest)
    (hl : ∀ x, (s'.monitor.lock x).numReader = (s.monitor.lock x).numReader ∧
      (s'.monitor.lock x).writing = (s.monitor.lock x).writing)
    (hp : (s'.thread t).pc.phase = (s.thread t).pc.phase)
    (hi : (s'.thread t).index = (s.thread t).index ∨ (s.thread t).pc.phase = fun _ => .absent) :
    Refines s s' := by
  intro x
  left
  have hph : phaseAt s'.thread x = phaseAt s.thread x := by
    refine phaseAt_congr (fun u => ?_) x
    by_cases hu : u = t
    · subst hu
      exact ⟨hp, hi⟩
    · exact ⟨(h.woken hu).phase, Or.inl (h.woken hu).index⟩
  simp only [State.view, hq, (hl x).1, (hl x).2, hph]

/-- One request changes its phase, at its record only. -/
lemma phaseAt_update (thread : Fin N → Thread N R) {th : Thread N R} {ty : LockType}
    (hi : th.index = (thread t).index)
    (hp : ∀ ty', ty' ≠ ty → th.pc.phase ty' = (thread t).pc.phase ty') (x : Fin R) :
    phaseAt (Function.update thread t th) x =
      if x = (thread t).index ty then Function.update (phaseAt thread x) (t, ty) (th.pc.phase ty)
      else phaseAt thread x := by
  funext ⟨u, ty'⟩
  by_cases hu : u = t
  · subst hu
    by_cases hty : ty' = ty
    · subst hty
      by_cases hx : x = (thread u).index ty'
      · simp [phaseAt, hi, hx]
      · simp [phaseAt, hi, hx, Ne.symm hx]
    · by_cases hx : x = (thread u).index ty <;> simp [phaseAt, hi, hx, hty, hp ty' hty]
  · by_cases hx : x = (thread t).index ty <;> simp [phaseAt, hx, hu]

/-- The moves one lock notices: the request `(t, ty)` goes to phase `p`. -/
lemma refines_of_step (th : Thread N R) (ty : LockType) (p : Phase)
    (hth : s'.thread = Function.update s.thread t th) (hi : th.index = (s.thread t).index)
    (hp : ∀ ty', ty' ≠ ty → th.pc.phase ty' = (s.thread t).pc.phase ty') (hpty : th.pc.phase ty = p)
    (hne : ∀ y, y ≠ (s.thread t).index ty →
      s'.monitor.lockRequest y = s.monitor.lockRequest y ∧
      (s'.monitor.lock y).numReader = (s.monitor.lock y).numReader ∧
      (s'.monitor.lock y).writing = (s.monitor.lock y).writing)
    (hs : Step IsReader (s.view ((s.thread t).index ty))
      { queue := (s'.monitor.lockRequest ((s.thread t).index ty)).map LockInfo.entry
        numReader := (s'.monitor.lock ((s.thread t).index ty)).numReader
        writing := (s'.monitor.lock ((s.thread t).index ty)).writing
        phase := Function.update (s.view ((s.thread t).index ty)).phase (t, ty) p }) :
    Refines s s' := by
  intro x
  have hph := phaseAt_update s.thread hi hp x
  rw [← hth, hpty] at hph
  by_cases hx : x = (s.thread t).index ty
  · right
    rw [if_pos hx] at hph
    simp only [State.view, hph]
    subst hx
    exact hs
  · left
    obtain ⟨h1, h2, h3⟩ := hne x hx
    rw [if_neg hx] at hph
    simp only [State.view, h1, h2, h3, hph]

/-- A move that changes the `RWLock` of its record. -/
lemma refines_setLock {pc : Pc N R} (ty : LockType) (p : Phase) {l : RWLock N}
    (hp : ∀ ty', ty' ≠ ty → pc.phase ty' = (s.thread t).pc.phase ty') (hpty : pc.phase ty = p)
    (hs : Step IsReader (s.view ((s.thread t).index ty))
      { s.view ((s.thread t).index ty) with
        numReader := l.numReader
        writing := l.writing
        phase := Function.update (s.view ((s.thread t).index ty)).phase (t, ty) p }) :
    Refines s ((s.setMonitor (s.monitor.setLock ((s.thread t).index ty) l)).setPc t pc) := by
  refine refines_of_step { s.thread t with pc := pc } ty p rfl rfl hp hpty (fun y hy => ?_) ?_
  · simp [Monitor.setLock_lock, hy]
  · simpa [Monitor.setLock_lock, State.view] using hs

/-- A move that changes the queue of its record. -/
lemma refines_setQueue {pc : Pc N R} (ty : LockType) (p : Phase) {m : Monitor N R}
    (q : List (Client N × Bool)) (hr : ∀ y, m.lock y = s.monitor.lock y)
    (hne : ∀ y, y ≠ (s.thread t).index ty → m.lockRequest y = s.monitor.lockRequest y)
    (hq : (m.lockRequest ((s.thread t).index ty)).map LockInfo.entry = q)
    (hp : ∀ ty', ty' ≠ ty → pc.phase ty' = (s.thread t).pc.phase ty') (hpty : pc.phase ty = p)
    (hs : Step IsReader (s.view ((s.thread t).index ty))
      { s.view ((s.thread t).index ty) with
        queue := q
        phase := Function.update (s.view ((s.thread t).index ty)).phase (t, ty) p }) :
    Refines s ((s.setMonitor m).setPc t pc) := by
  refine refines_of_step { s.thread t with pc := pc } ty p rfl rfl hp hpty (fun y hy => ?_) ?_
  · exact ⟨hne y hy, by simp [hr], by simp [hr]⟩
  · simp only [State.setPc_monitor, State.setMonitor_monitor, hr, hq]
    exact hs

/-- A move that changes the phase only. -/
lemma refines_setPc {pc : Pc N R} (ty : LockType) (p : Phase)
    (hp : ∀ ty', ty' ≠ ty → pc.phase ty' = (s.thread t).pc.phase ty') (hpty : pc.phase ty = p)
    (hs : Step IsReader (s.view ((s.thread t).index ty))
      ((s.view ((s.thread t).index ty)).setPhase (t, ty) p)) :
    Refines s (s.setPc t pc) :=
  refines_of_step { s.thread t with pc := pc } ty p rfl rfl hp hpty (fun _ _ => ⟨rfl, rfl, rfl⟩) hs

/-! ## The record mutex -/

/-- Only the current request can be inside `mtx`. -/
lemma mtx_of_phase {th : Thread N R} {ty : LockType} (h : (th.pc.phase ty).HoldsMtx) :
    th.mtx = some (th.index ty) := by
  have upTo : ∀ {ty' : LockType} {p : Phase}, (phaseUpTo ty' p ty).HoldsMtx →
      ty = ty' ∧ p.HoldsMtx := by
    intro ty' p hp
    unfold phaseUpTo at hp
    split_ifs at hp with h1 h2
    · exact absurd hp id
    · exact ⟨h2, hp⟩
    · exact absurd hp id
  cases hpc : th.pc with
  | gate ty' held g =>
      rw [hpc] at h
      obtain ⟨rfl, hg⟩ := upTo h
      rw [Thread.mtx_gate hpc]
      cases g <;> first | rfl | exact absurd hg id
  | request ty' => rw [hpc] at h; exact absurd (upTo h).2 id
  | check ty' => rw [hpc] at h; exact absurd (upTo h).2 id
  | unlockWait ty' => rw [hpc] at h; exact absurd (upTo h).2 id
  | flag ty' held => rw [hpc] at h; exact absurd (upTo h).2 id
  | relock ty' => rw [hpc] at h; exact absurd (upTo h).2 id
  | unlock ty' => rw [hpc] at h; exact absurd (upTo h).2 id
  | read ty' => rw [hpc] at h; exact absurd (upTo h).2 id
  | write ty' => rw [hpc] at h; exact absurd (upTo h).2 id
  | release why r rest u =>
      simp only [hpc, Pc.phase] at h
      split_ifs at h
      · cases u <;> exact absurd h id
      · exact absurd h id
      · exact absurd h id
  | _ => rw [hpc] at h; exact absurd h id

/-- A free `mtx` is a free mutex of the queued lock. -/
lemma mtxFree (hb : Base s) (hm : (s.monitor.lock x).mtx = none) : (s.view x).MtxFree := by
  rintro ⟨u, ty⟩ h
  simp only [State.view, phaseAt] at h
  split_ifs at h with hx
  · have := hb.mtx u x (hx ▸ mtx_of_phase h)
    rw [hm] at this
    simp at this
  · exact h

/-! ## Queue updates -/

lemma entry_map_flag (q : List (LockInfo N R)) (req : LockInfo N R)
    (hq : ∀ e ∈ q, e.index = req.index) :
    (q.map fun r => if r.same req then { r with getLock := true } else r).map LockInfo.entry
      = (q.map LockInfo.entry).map (setFlag (req.tid, req.type)) := by
  simp only [List.map_map]
  refine List.map_congr_left fun e he => ?_
  have hiff := same_iff_client (hq e he)
  by_cases hs : e.same req = true
  · simp only [Function.comp_apply, hs, if_true, setFlag, hiff.mp hs]
    exact Prod.ext (hiff.mp hs) rfl
  · have hne : e.entry.1 ≠ (req.tid, req.type) := fun h' => hs (hiff.mpr h')
    simp [hs, setFlag, hne]

lemma entry_eraseP (q : List (LockInfo N R)) (req : LockInfo N R)
    (hq : ∀ e ∈ q, e.index = req.index) :
    (q.eraseP fun r => r.same req).map LockInfo.entry
      = (q.map LockInfo.entry).eraseP fun e => e.1 = (req.tid, req.type) := by
  induction q with
  | nil => rfl
  | cons e q ih =>
      have hiff := same_iff_client (hq e (by simp))
      by_cases hs : e.same req = true
      · have := hiff.mp hs
        simp [hs, this]
      · have hne : e.entry.1 ≠ (req.tid, req.type) := fun h' => hs (hiff.mpr h')
        simp [hs, hne, ih fun e he => hq e (by simp [he])]

/-! ## The simulation -/

lemma view_phase {pc : Pc N R} (hpc : (s.thread t).pc = pc) (ty : LockType) :
    (s.view ((s.thread t).index ty)).phase (t, ty) = pc.phase ty := by
  rw [view_phase_index, hpc]

/-- A request joins the queue of its record. -/
lemma refines_enqueue {ty : LockType} (hpc : (s.thread t).pc = .check ty)
    (hst : (s.monitor.deadlockCheck ((s.thread t).req t ty)).1 ≠ .deadlock) {pc : Pc N R}
    (hp : pc.phase = phaseUpTo ty .queued) :
    Refines s ((s.setMonitor (s.monitor.deadlockCheck ((s.thread t).req t ty)).2).setPc t pc) := by
  have hq := Monitor.deadlockCheck_queue _ _ hst
  refine refines_setQueue ty .queued ((s.view ((s.thread t).index ty)).queue ++ [((t, ty), false)])
    (fun y => Monitor.deadlockCheck_lock _ _ _) (fun y hy => ?_) ?_ (fun ty' h => ?_)
    (by rw [hp]; exact phaseUpTo_self ty _)
    (.enqueue (t, ty) (by rw [view_phase hpc]; exact phaseUpTo_self ty _))
  · rw [hq]
    exact Function.update_of_ne hy _ _
  · rw [hq, show ((s.thread t).req t ty).index = (s.thread t).index ty from rfl,
      Function.update_self, List.map_append]
    rfl
  · rw [hp, hpc]
    exact phaseUpTo_of_ne h _ _

/-- The release loop works on requests of its own thread. -/
lemma Own.release_head {th : Thread N R} (h : Own t th) {why : Why} {r : LockInfo N R}
    {rest : List (LockInfo N R)} {un : Unlock} (hpc : th.pc = .release why r rest un) :
    r = th.req t r.type ∧ r.type ∉ rest.map (·.type) := by
  obtain ⟨tys, hnd, htys⟩ := h.release why r rest un hpc
  cases tys with
  | nil => simp at htys
  | cons ty tys =>
      obtain ⟨hr, hrest⟩ := List.cons.inj htys
      have hty : r.type = ty := by rw [hr]; rfl
      refine ⟨by rw [hty]; exact hr, ?_⟩
      rw [hrest, List.map_map, hty]
      have : ((fun e : LockInfo N R => e.type) ∘ th.req t) = id := rfl
      rw [this, List.map_id]
      exact (List.nodup_cons.mp hnd).1

section Release

variable {th : Thread N R} {why : Why} {r : LockInfo N R} {rest : List (LockInfo N R)} {un : Unlock}

lemma Own.release_index (h : Own t th) (hpc : th.pc = .release why r rest un) :
    r.index = th.index r.type := congrArg LockInfo.index (h.release_head hpc).1

lemma Own.release_tid (h : Own t th) (hpc : th.pc = .release why r rest un) : r.tid = t :=
  congrArg LockInfo.tid (h.release_head hpc).1

end Release

/-- Leaving `releaseLock` is not noticed by any lock. -/
lemma nextRelease_phase_eq (hown : Own t (s.thread t)) {why : Why} {r : LockInfo N R}
    {rest : List (LockInfo N R)} {un : Unlock} (hpc : (s.thread t).pc = .release why r rest un)
    (hun : un.phase = .absent) : (nextRelease why rest).phase = (s.thread t).pc.phase := by
  funext ty
  rw [nextRelease_phase, hpc]
  simp only [Pc.phase, hun]
  by_cases hty : ty = r.type
  · rw [if_pos hty, if_neg (hty ▸ (hown.release_head hpc).2)]
  · rw [if_neg hty]

/-- The gate moves between two phases of one request. -/
lemma gate_phase_of_ne {ty ty' : LockType} {held held' : Bool} {g g' : Gate}
    (hpc : (s.thread t).pc = .gate ty held g) (h : ty' ≠ ty) :
    (Pc.gate ty held' g' : Pc N R).phase ty' = (s.thread t).pc.phase ty' := by
  rw [hpc]
  exact phaseUpTo_of_ne h _ _

lemma flag_phase_of_ne {ty ty' : LockType} {held held' : Bool} {g : Gate}
    (hpc : (s.thread t).pc = .gate ty held g) (h : ty' ≠ ty) :
    (Pc.flag ty held' : Pc N R).phase ty' = (s.thread t).pc.phase ty' := by
  rw [hpc]
  exact phaseUpTo_of_ne h _ _

lemma gate_phase {ty : LockType} {held : Bool} {g : Gate}
    (hpc : (s.thread t).pc = .gate ty held g) :
    (s.view ((s.thread t).index ty)).phase (t, ty) = g.phase := by
  rw [view_phase hpc]
  exact phaseUpTo_self ty _

/-- A release loop starts with exactly the locks of `havingLocks`. -/
lemma nextRelease_phase_map (why : Why) (th : Thread N R) (tys : List LockType) (ty : LockType) :
    (nextRelease why (tys.map (th.req t))).phase ty = if ty ∈ tys then .granted else .absent := by
  have hid : ((fun e : LockInfo N R => e.type) ∘ th.req t) = id := rfl
  rw [nextRelease_phase, List.map_map, hid, List.map_id]

/-- **Every move of the engine is a step of the queued lock of at most one record, and leaves the
others alone.** -/
theorem Move.refines (hb : Base s) (h : Move E s t s') : Refines s s' := by
  have hm := h
  cases h
  case enter ty held hpc hfree =>
    exact refines_setLock ty .checking (fun _ => gate_phase_of_ne hpc) (phaseUpTo_self ty _)
      (.lockMtx (t, ty) (gate_phase hpc) (mtxFree hb hfree))
  case clear ty held hpc hc =>
    exact refines_setPc ty .checked (fun _ => gate_phase_of_ne hpc) (phaseUpTo_self ty _)
      (.clear (t, ty) (gate_phase hpc)
        (clear_of_checkQueue ((s.thread t).req t ty) (hb.index _) hc))
  case sleep ty held hpc =>
    exact refines_setLock ty .queued (fun _ => gate_phase_of_ne hpc) (phaseUpTo_self ty _)
      (.sleep (t, ty) (gate_phase hpc))
  case spin ty held hpc hw =>
    exact refines_setPc ty .checking (fun _ => gate_phase_of_ne hpc) (phaseUpTo_self ty _)
      (.spin (t, ty) (gate_phase hpc) hw)
  case pass ty held hpc hw =>
    exact refines_setPc ty .passed (fun _ => gate_phase_of_ne hpc) (phaseUpTo_self ty _)
      (.pass (t, ty) (gate_phase hpc) hw)
  case share held hpc =>
    exact refines_setLock .R .granted (fun _ => flag_phase_of_ne hpc) (phaseUpTo_self .R _)
      (.share (t, LockType.R) (gate_phase hpc) rfl)
  case raise ty held hpc hty =>
    exact refines_setLock ty .draining (fun _ => gate_phase_of_ne hpc) (phaseUpTo_self ty _)
      (.raise (t, ty) (gate_phase hpc) hty)
  case wait ty held hpc hn =>
    exact refines_setLock ty .gated (fun _ => gate_phase_of_ne hpc) (phaseUpTo_self ty _)
      (.wait (t, ty) (gate_phase hpc) hn)
  case grant ty held hpc hn =>
    exact refines_setLock ty .granted (fun _ => flag_phase_of_ne hpc) (phaseUpTo_self ty _)
      (.grant (t, ty) (gate_phase hpc) hn)
  case reenter ty held hpc hfree =>
    exact refines_setLock ty .draining (fun _ => gate_phase_of_ne hpc) (phaseUpTo_self ty _)
      (.relock (t, ty) (gate_phase hpc) (mtxFree hb hfree))
  case waiting ty hpc hst => exact refines_enqueue hpc (by simp [hst]) rfl
  case get ty hpc hst => exact refines_enqueue hpc (by simp [hst]) rfl
  case flag ty held hpc =>
    have hph := (view_phase hpc ty).trans (phaseUpTo_self ty _)
    refine refines_setQueue ty .granted
      ((s.view ((s.thread t).index ty)).queue.map (setFlag (t, ty))) (fun _ => rfl)
      (fun y hy => Function.update_of_ne hy _ _) ?_
      (fun ty' _ => by rw [hpc]; cases held <;> rfl)
      (by cases held <;> exact phaseUpTo_self ty _) ?_
    · simp only [Monitor.setGetLock]
      rw [show ((s.thread t).req t ty).index = (s.thread t).index ty from rfl, Function.update_self]
      exact entry_map_flag _ ((s.thread t).req t ty) (hb.index _)
    · rw [Function.update_eq_self_iff.mpr hph.symm]
      exact .flag (t, ty) hph
  case erase why r rest hpc =>
    have hx := (hb.own t).release_index hpc
    have ht := (hb.own t).release_tid hpc
    refine refines_setQueue r.type .erased _ (fun _ => rfl)
      (fun y hy => Function.update_of_ne (hx ▸ hy) _ _) ?_
      (fun ty' h => by rw [hpc]; simp [Pc.phase, h]) (by simp [Pc.phase, Unlock.phase])
      (.erase (t, r.type) (by rw [view_phase hpc]; simp [Pc.phase, Unlock.phase]))
    simp only [Monitor.deleteLock]
    rw [← hx, Function.update_self, entry_eraseP _ _ (hb.index _), ht]
    rfl
  case unlockShared why r rest hpc hty hfree =>
    rw [(hb.own t).release_index hpc] at hfree ⊢
    exact refines_setLock r.type .absent (fun ty' h => by rw [hpc]; simp [Pc.phase, h])
      (by simp [Pc.phase, Unlock.phase]) (.unlockShared (t, r.type)
        (by rw [view_phase hpc]; simp [Pc.phase, Unlock.phase]) hty (mtxFree hb hfree))
  case unlockExclusive why r rest hpc hty hfree =>
    rw [(hb.own t).release_index hpc] at hfree ⊢
    exact refines_setLock r.type .absent (fun ty' h => by rw [hpc]; simp [Pc.phase, h])
      (by simp [Pc.phase, Unlock.phase]) (.unlockExclusive (t, r.type)
        (by rw [view_phase hpc]; simp [Pc.phase, Unlock.phase]) hty (mtxFree hb hfree))
  case attempt i j k hpc hE hij hik hjk =>
    refine hm.refines_of_phase rfl (fun _ => ⟨rfl, rfl⟩) ?_ (Or.inr (by rw [hpc]; rfl))
    rw [hpc, State.setThread_thread, Function.update_self]
    funext ty
    cases ty <;> rfl
  case deadlock ty hpc hd =>
    have hq := Monitor.deadlockCheck_deadlock _ _ hd
    have hhav := (hb.own t).having ty.earlier (by rw [hpc]; rfl)
    refine hm.refines_of_phase (by cases ty <;> simp [onDeadlock, hq])
      (fun x => by cases ty <;> simp [onDeadlock]) ?_ (Or.inl ?_)
    · funext ty'
      cases ty <;> simp only [onDeadlock, State.setPc_thread, State.setMonitor_thread,
        Function.update_self, hhav, nextRelease_phase_map, hpc] <;> cases ty' <;> rfl
    · cases ty <;> simp only [onDeadlock, State.setPc_thread, State.setMonitor_thread,
        Function.update_self] <;> rfl
  case lockCommit hpc hg =>
    refine hm.refines_of_phase rfl (fun _ => ⟨rfl, rfl⟩) ?_ (Or.inl ?_) <;>
      simp only [State.setPc_thread, State.setGlobal_thread, Function.update_self]
    · funext ty
      rw [(hb.own t).having [.R, .W1, .W2] (by rw [hpc]; rfl), nextRelease_phase_map, hpc]
      cases ty <;> rfl
    · rfl
  case notifyOne why r rest n w u hpc hw hn hu =>
    refine hm.refines_of_phase (by simp) (by simp) ?_ (Or.inl ?_) <;>
      rw [State.setPc_thread, Function.update_self, (Move.thread_notify hpc r.index u).2]
    · exact nextRelease_phase_eq (hb.own t) hpc rfl
    · rfl
  case notifyNone why r rest n w hpc hw hu =>
    refine hm.refines_of_phase (by simp) (by simp) ?_ (Or.inl ?_) <;>
      rw [State.setPc_thread, Function.update_self]
    · exact nextRelease_phase_eq (hb.own t) hpc rfl
    · rfl
  case notifyAll why r rest un hpc hun =>
    refine hm.refines_of_phase (by simp) (by simp) ?_ (Or.inl ?_) <;>
      rw [State.setPc_thread, Function.update_self, (Move.thread_notify hpc r.index t).1]
    · exact nextRelease_phase_eq (hb.own t) hpc (by rcases hun with rfl | ⟨n, rfl⟩ <;> rfl)
    · rfl
  case commit hpc =>
    refine hm.refines_of_phase (by simp) (by simp) ?_ (Or.inl ?_) <;>
      rw [commitStep_thread, Function.update_self]
    · rcases commitPc_cases E s with hq | hq <;> rw [hq, hpc] <;> rfl
    · rfl
  case writeJ hpc | writeK hpc | readI hpc =>
    refine hm.refines_of_phase rfl (by simp) ?_ (Or.inl ?_) <;>
      simp only [State.setPc_thread, State.setThread_thread, State.setMonitor_thread,
        Function.update_self]
    · funext ty
      rw [hpc]
      cases ty <;> rfl
    · rfl
  all_goals
    refine hm.refines_of_phase (by simp) (by simp) ?_ (Or.inl ?_)
    · simp_all [Pc.phase, Gate.phase]
    · simp
      rfl

/-! ## Every run -/

/-- The bookkeeping together with the invariant of every record's lock. -/
structure LocksInv (s : State N R) : Prop where
  base : Base s
  lock : ∀ x, Inv IsReader (s.view x)

lemma locksInv_init (h : IsInit s) : LocksInv s := by
  refine ⟨base_init h, fun x => ?_⟩
  obtain ⟨-, -, hm, -, hpc⟩ := h
  have hph : phaseAt s.thread x = fun _ => .absent := by
    funext c
    simp [phaseAt, hpc c.1, Pc.phase]
  have hview : s.view x = ⟨[], 0, false, fun _ => .absent⟩ := by
    simp [State.view, hm, hph, Monitor.init, Monitor.lock]
  rw [hview]
  exact inv_init

lemma LocksInv.move (hs : LocksInv s) (h : Move E s t s') : LocksInv s' := by
  refine ⟨hs.base.move h, fun x => ?_⟩
  rcases h.refines hs.base x with heq | hstep
  · rw [heq]
    exact hs.lock x
  · exact (hs.lock x).step hstep

/-- **In every reachable state the lock of each record is a queued lock in good order.** -/
theorem locksInv_of_reachable (hs : (engine N R E).Reachable s) : LocksInv s :=
  Machine.Run.invariant (I := LocksInv) (fun _ h => locksInv_init h)
    (fun _ _ _ _ hi _ hstep => hi.move (move_of_step hstep)) s hs

end Multicore.Project2
