import Multicore.Project2.Progress

/-!
# No lost wake-up

A thread sleeps on one of the two condition variables of its record: on `writer` until
`checkQueue` lets it through, or, as a writer that has set `writing`, on `reader` until the last
reader is gone.  The queue is changed without the record's mutex, the flags in it are set without
a notification, and `unlockShared` notifies one variable, the other one or none.

**What a sleeper waits for.**  A sleeper on `writer` has a conflicting entry before its own, or a
release on its record is on its way: it has erased its entry and not yet locked the mutex, or it
is about to call `writer.notify_all()`.  `unlockShared` may skip that call when `writing` is up;
then the writer that has raised the flag stands before every sleeper
(`QLock.Inv.conflict_of_writing`).  A sleeper on `reader` has readers counted, or the release of
the last one is about to call `reader.notify_one()`, and nobody else sleeps there.

* `Wakeups` — the invariant, kept by every move;
* **`no_lost_wakeup`** — outside releases every sleeper has a conflicting entry before its own.
-/

namespace Multicore.Project2

open QLock

variable {N R : ℕ} {E : ℤ} {s s' : State N R} {t u : Fin N} {x : Fin R}

/-! ## The invariant -/

/-- A release on record `x` is about to call `writer.notify_all()`. -/
def State.NotifiesWriter (s : State N R) (x : Fin R) : Prop :=
  ∃ v why r rest un, (s.thread v).pc = .release why r rest un ∧ r.index = x ∧
    (un = .notifyExclusive ∨ ∃ n, un = .notifyShared n false)

/-- A release on record `x` is about to call `reader.notify_one()`. -/
def State.NotifiesReader (s : State N R) (x : Fin R) : Prop :=
  ∃ v why r rest, (s.thread v).pc = .release why r rest (.notifyShared 0 true) ∧ r.index = x

/-- What each thread waits for that sleeps, or is about to. -/
structure Wakeups (s : State N R) : Prop where
  block : ∀ u ty held, (s.thread u).pc = .gate ty held .block →
    Awaited IsReader (s.view ((s.thread u).index ty)) (u, ty)
  asleep : ∀ u ty held, (s.thread u).pc = .gate ty held .asleep →
    Awaited IsReader (s.view ((s.thread u).index ty)) (u, ty) ∨
      s.NotifiesWriter ((s.thread u).index ty)
  drain : ∀ u ty held, (s.thread u).pc = .gate ty held .asleepReader →
    0 < (s.monitor.lock ((s.thread u).index ty)).numReader ∨
      s.NotifiesReader ((s.thread u).index ty)

/-! ## Other threads -/

/-- A thread that sleeps, or is about to, after a move of another thread did so before. -/
lemma Move.eq_of_gate (hm : Move E s t s') (hut : u ≠ t) {ty : LockType} {held : Bool} {g : Gate}
    (hpc : (s'.thread u).pc = .gate ty held g) (h1 : g ≠ .enter) (h2 : g ≠ .wakeReader) :
    s'.thread u = s.thread u := by
  refine (hm.woken hut).eq_of_pc (fun ty' held' h => h1 ?_) fun ty' held' h => h2 ?_ <;>
    · rw [hpc] at h
      exact (Pc.gate.inj h).2.2

/-- The releases of other threads stay where they are. -/
lemma Move.release_iff (hm : Move E s t s') (hut : u ≠ t) {why : Why} {r : LockInfo N R}
    {rest : List (LockInfo N R)} {un : Unlock} :
    (s'.thread u).pc = .release why r rest un ↔ (s.thread u).pc = .release why r rest un :=
  (hm.woken hut).pc_eq (by simp)

/-- After `writer.notify_all()` nobody sleeps there. -/
lemma notifyWriter_awake {ty : LockType} {held : Bool}
    (hpc : ((s.notifyWriter x).thread u).pc = .gate ty held .asleep) :
    (s.thread u).index ty ≠ x := by
  rintro rfl
  unfold State.notifyWriter at hpc
  dsimp only at hpc
  split at hpc
  · rename_i ty' held' hpc0
    split_ifs at hpc with hx
    · simp at hpc
    · rw [hpc0] at hpc
      obtain ⟨rfl, -⟩ := Pc.gate.inj hpc
      exact hx rfl
  · rename_i hno
    exact hno ty held hpc

/-- What follows the erased entry of a release. -/
lemma Move.of_mutex (hm : Move E s t s') {why : Why} {r : LockInfo N R}
    {rest : List (LockInfo N R)} (hpc : (s.thread t).pc = .release why r rest .mutex) :
    r.type = .R ∧ (s'.thread t).pc = .release why r rest
        (.notifyShared ((s.monitor.lock r.index).numReader - 1) (s.monitor.lock r.index).writing) ∨
      r.type ≠ .R ∧ (s'.thread t).pc = .release why r rest .notifyExclusive := by
  cases hm
  case unlockShared why' r' rest' hpc' hty hfree =>
    obtain ⟨rfl, rfl, rfl, -⟩ := Pc.release.inj (hpc.symm.trans hpc')
    exact .inl ⟨hty, by simp⟩
  case unlockExclusive why' r' rest' hpc' hty hfree =>
    obtain ⟨rfl, rfl, rfl, -⟩ := Pc.release.inj (hpc.symm.trans hpc')
    exact .inr ⟨hty, by simp⟩
  case notifyAll why' r' rest' un hpc' hun =>
    obtain ⟨-, -, -, rfl⟩ := Pc.release.inj (hpc.symm.trans hpc')
    simp at hun
  all_goals exact absurd (hpc.symm.trans ‹(s.thread t).pc = _›) (by simp)

/-- A release that is about to call `writer.notify_all()` wakes every sleeper there. -/
lemma Move.of_notifyAll (hm : Move E s t s') (hut : u ≠ t) {why : Why} {r : LockInfo N R}
    {rest : List (LockInfo N R)} {un : Unlock} (hpc : (s.thread t).pc = .release why r rest un)
    (hun : un = .notifyExclusive ∨ ∃ n, un = .notifyShared n false) {ty : LockType} {held : Bool}
    (hu : (s'.thread u).pc = .gate ty held .asleep) : (s.thread u).index ty ≠ r.index := by
  cases hm
  case notifyAll why' r' rest' un' hpc' hun' =>
    obtain ⟨-, rfl, -, -⟩ := Pc.release.inj (hpc.symm.trans hpc')
    rw [State.setPc_thread, Function.update_of_ne hut] at hu
    exact notifyWriter_awake hu
  case notifyOne why' r' rest' n w v hpc' hw hn hv =>
    obtain ⟨-, -, -, rfl⟩ := Pc.release.inj (hpc.symm.trans hpc')
    simp [hw] at hun
  case notifyNone why' r' rest' n w hpc' hw hv =>
    obtain ⟨-, -, -, rfl⟩ := Pc.release.inj (hpc.symm.trans hpc')
    simp [hw] at hun
  all_goals
    have hbad := hpc.symm.trans ‹(s.thread t).pc = _›
    rcases hun with rfl | ⟨n, rfl⟩ <;> simp at hbad

/-- A release that is about to call `reader.notify_one()` wakes a sleeper there, if there is
one. -/
lemma Move.of_notifyOne (hm : Move E s t s') {why : Why} {r : LockInfo N R}
    {rest : List (LockInfo N R)}
    (hpc : (s.thread t).pc = .release why r rest (.notifyShared 0 true))
    (hu : s.sleepsReader r.index u = true) :
    ∃ v, s.sleepsReader r.index v = true ∧ (v ≠ t → ∃ ty held,
      (s'.thread v).pc = .gate ty held .wakeReader) := by
  cases hm
  case notifyOne why' r' rest' n w v hpc' hw hn hv =>
    obtain ⟨-, rfl, -, -⟩ := Pc.release.inj (hpc.symm.trans hpc')
    refine ⟨v, hv, fun hvt => ?_⟩
    rw [State.setPc_thread, Function.update_of_ne hvt]
    unfold State.sleepsReader at hv
    unfold State.notifyReader
    split at hv
    · simp
    · simp at hv
  case notifyNone why' r' rest' n w hpc' hw hv =>
    obtain ⟨-, rfl, -, hun⟩ := Pc.release.inj (hpc.symm.trans hpc')
    obtain ⟨rfl, -⟩ := Unlock.notifyShared.inj hun
    rw [hv rfl u] at hu
    exact Bool.noConfusion hu
  case notifyAll why' r' rest' un hpc' hun =>
    obtain ⟨-, -, -, rfl⟩ := Pc.release.inj (hpc.symm.trans hpc')
    simp at hun
  all_goals exact absurd (hpc.symm.trans ‹(s.thread t).pc = _›) (by simp)

/-- Who undoes its share of the lock state is the thread that moves. -/
lemma Move.undoes (hm : Move E s t s') (hb : Base s) {d : Client N}
    (hd : Undoes (s.view x) (s'.view x) d) :
    ∃ why r rest, (s.thread t).pc = .release why r rest .mutex ∧ r.index = x ∧ d = (t, r.type) := by
  have herased : phaseAt s.thread x d = .erased := hd.erased
  have habsent : phaseAt s'.thread x d = .absent := hd.absent
  have hdt : d.1 = t := by
    by_contra hdt
    simp only [phaseAt, (hm.woken hdt).index, (hm.woken hdt).phase] at herased habsent
    rw [herased] at habsent
    exact Phase.noConfusion habsent
  unfold phaseAt at herased
  split_ifs at herased with hx
  obtain ⟨why, r, rest, hpc, hty⟩ := release_of_erased herased
  rw [hdt] at hx hpc
  refine ⟨why, r, rest, hpc, ?_, Prod.ext hdt hty.symm⟩
  rw [← hx, (hb.own t).release_index hpc, ← hty]

/-! ## Sleepers on `writer` -/

/-- What a thread waits for that is about to sleep: nobody can undo a share while it has the
mutex. -/
lemma Wakeups.awaited_of_block (h : Wakeups s) (hs : LocksInv s) (hm : Move E s t s')
    {ty : LockType} {held : Bool} (hpc : (s.thread u).pc = .gate ty held .block) :
    Awaited IsReader (s'.view ((s.thread u).index ty)) (u, ty) := by
  have hold := h.block u ty held hpc
  have hphase : (s.view ((s.thread u).index ty)).phase (u, ty) = .checking := gate_phase hpc
  rcases hm.refines hs.base ((s.thread u).index ty) with heq | hstep
  · rw [heq]
    exact hold
  · refine (hstep.awaited (((hs.lock _).queue.mem_iff _).mpr ?_) hold).resolve_right ?_
    · rw [hphase]
      trivial
    · rintro ⟨d, hd⟩
      refine hd.free (u, ty) ?_
      rw [hphase]
      trivial

/-- When a release undoes its share it goes on to notify, or the writer that has raised the flag
stands before the sleeper. -/
lemma LocksInv.awaited_of_asleep (hs : LocksInv s) (hm : Move E s t s') {ty : LockType}
    {held : Bool} (hpc : (s.thread u).pc = .gate ty held .asleep)
    (hold : Awaited IsReader (s.view ((s.thread u).index ty)) (u, ty)) :
    Awaited IsReader (s'.view ((s.thread u).index ty)) (u, ty) ∨
      s'.NotifiesWriter ((s.thread u).index ty) := by
  have hphase : (s.view ((s.thread u).index ty)).phase (u, ty) = .queued := gate_phase hpc
  rcases hm.refines hs.base ((s.thread u).index ty) with heq | hstep
  · rw [heq]
    exact .inl hold
  rcases hstep.awaited (((hs.lock _).queue.mem_iff _).mpr (by rw [hphase]; trivial)) hold with
    hnew | ⟨d, hd⟩
  · exact .inl hnew
  obtain ⟨why, r, rest, hrel, hrx, rfl⟩ := hm.undoes hs.base hd
  rcases hm.of_mutex hrel with ⟨hty, hpc'⟩ | ⟨hty, hpc'⟩
  · cases hw : (s.monitor.lock r.index).writing with
    | false =>
        rw [hw] at hpc'
        exact .inr ⟨t, why, r, rest, _, hpc', hrx, .inr ⟨_, rfl⟩⟩
    | true =>
        refine .inl (.inl ?_)
        rw [hd.queue]
        have hreader : IsReader (t, r.type) := hty
        exact (hs.lock _).conflict_of_writing hreader (by rw [hd.erased]; trivial) (hrx ▸ hw) hphase
  · exact .inr ⟨t, why, r, rest, _, hpc', hrx, .inl rfl⟩

/-- **A sleeper on `writer` is not forgotten.** -/
lemma Wakeups.asleep_move (h : Wakeups s) (hs : LocksInv s) (hm : Move E s t s') {ty : LockType}
    {held : Bool} (hpc' : (s'.thread u).pc = .gate ty held .asleep) :
    Awaited IsReader (s'.view ((s'.thread u).index ty)) (u, ty) ∨
      s'.NotifiesWriter ((s'.thread u).index ty) := by
  by_cases hut : u = t
  · subst hut
    -- it went to sleep in this step
    obtain ⟨hto, hindex⟩ := hm.toGate hpc'
    rw [hindex]
    cases hto with
    | step hpc hq hn hgate =>
        cases hgate with
        | sleep => exact .inl (h.awaited_of_block hs hm hpc)
  · have heq := hm.eq_of_gate hut hpc' (by simp) (by simp)
    have hpc : (s.thread u).pc = .gate ty held .asleep := heq ▸ hpc'
    rw [heq]
    rcases h.asleep u ty held hpc with hold | ⟨v, why, r, rest, un, hrel, hrx, hun⟩
    · exact hs.awaited_of_asleep hm hpc hold
    · by_cases hvt : v = t
      · subst hvt
        exact absurd hrx.symm (hm.of_notifyAll hut hrel hun hpc')
      · exact .inr ⟨v, why, r, rest, un, (hm.release_iff hvt).mpr hrel, hrx, hun⟩

/-! ## Sleepers on `reader` -/

lemma sleepsReader_iff : s.sleepsReader x u = true ↔
    ∃ ty held, (s.thread u).pc = .gate ty held .asleepReader ∧ (s.thread u).index ty = x := by
  unfold State.sleepsReader
  split
  · rename_i ty held hpc
    simp [hpc]
  · rename_i hno
    exact ⟨fun h => Bool.noConfusion h, fun ⟨ty, held, hpc, _⟩ => absurd hpc (hno ty held)⟩

/-- Only one thread sleeps on the `reader` of a record: the writer that has set `writing`. -/
lemma LocksInv.sleepsReader_unique (hs : LocksInv s) (ht : s.sleepsReader x t = true)
    (hu : s.sleepsReader x u = true) : t = u := by
  obtain ⟨ty, held, hpc, rfl⟩ := sleepsReader_iff.mp ht
  obtain ⟨ty', held', hpc', hx⟩ := sleepsReader_iff.mp hu
  have hlock := (hs.lock ((s.thread t).index ty)).lock
  have hphase : (s.view ((s.thread t).index ty)).phase (t, ty) = .gated := gate_phase hpc
  have hphase' : (s.view ((s.thread t).index ty)).phase (u, ty') = .gated := hx ▸ gate_phase hpc'
  exact congrArg Prod.fst (hlock.unique _ _ (hlock.writer _ (.inr hphase))
    (hlock.writer _ (.inr hphase')) (by rw [hphase]; trivial) (by rw [hphase']; trivial))

/-- The count stays positive, or the release that has made it zero goes on to notify. -/
lemma LocksInv.readers_of_drain (hs : LocksInv s) (hm : Move E s t s') {ty : LockType}
    {held : Bool} (hpc : (s.thread u).pc = .gate ty held .asleepReader)
    (hold : 0 < (s.monitor.lock ((s.thread u).index ty)).numReader) :
    0 < (s'.monitor.lock ((s.thread u).index ty)).numReader ∨
      s'.NotifiesReader ((s.thread u).index ty) := by
  have hphase : (s.view ((s.thread u).index ty)).phase (u, ty) = .gated := gate_phase hpc
  have hlock := (hs.lock ((s.thread u).index ty)).lock
  rcases hm.refines hs.base ((s.thread u).index ty) with heq | hstep
  · have hn : (s'.view ((s.thread u).index ty)).numReader
        = (s.view ((s.thread u).index ty)).numReader := by rw [heq]
    exact .inl (show 0 < (s'.view ((s.thread u).index ty)).numReader from hn ▸ hold)
  rcases hstep.numReader_pos hold with hnew | ⟨d, hd, hundo, hzero⟩
  · exact .inl hnew
  obtain ⟨why, r, rest, hrel, hrx, rfl⟩ := hm.undoes hs.base hundo
  -- the flag is up: the sleeper has raised it
  have hw : (s.monitor.lock ((s.thread u).index ty)).writing = true :=
    hlock.raised (u, ty) (hlock.writer _ (.inr hphase)) (by rw [hphase]; trivial)
  rcases hm.of_mutex hrel with ⟨-, hpc'⟩ | ⟨hty, -⟩
  · have hz : (s.monitor.lock ((s.thread u).index ty)).numReader - 1 = 0 := hzero
    rw [hrx, hz, hw] at hpc'
    exact .inr ⟨t, why, r, rest, hpc', hrx⟩
  · exact absurd hd hty

/-- **A sleeper on `reader` is not forgotten.** -/
lemma Wakeups.drain_move (h : Wakeups s) (hs : LocksInv s) (hm : Move E s t s') {ty : LockType}
    {held : Bool} (hpc' : (s'.thread u).pc = .gate ty held .asleepReader) :
    0 < (s'.monitor.lock ((s'.thread u).index ty)).numReader ∨
      s'.NotifiesReader ((s'.thread u).index ty) := by
  by_cases hut : u = t
  · subst hut
    obtain ⟨hto, hindex⟩ := hm.toGate hpc'
    rw [hindex]
    cases hto with
    | step hpc hq hn hgate =>
        cases hgate with
        | wait hpos => exact .inl (hn _ ▸ hpos)
  · have heq := hm.eq_of_gate hut hpc' (by simp) (by simp)
    have hpc : (s.thread u).pc = .gate ty held .asleepReader := heq ▸ hpc'
    rw [heq]
    rcases h.drain u ty held hpc with hold | ⟨v, why, r, rest, hrel, hrx⟩
    · exact hs.readers_of_drain hm hpc hold
    · by_cases hvt : v = t
      · subst hvt
        -- the notified thread is the only one that can sleep there
        have hsleeps : s.sleepsReader r.index u = true := by simp [State.sleepsReader, hpc, hrx]
        obtain ⟨w, hw, hwoken⟩ := hm.of_notifyOne hrel hsleeps
        have hwu := hs.sleepsReader_unique hw hsleeps
        subst hwu
        obtain ⟨ty', held', hpcw⟩ := hwoken hut
        rw [hpc'] at hpcw
        simp at hpcw
      · exact .inr ⟨v, why, r, rest, (hm.release_iff hvt).mpr hrel, hrx⟩

/-! ## Every run -/

/-- A thread that finds `checkQueue` false has a conflicting entry before its own. -/
lemma LocksInv.conflict_of_checkQueue (hs : LocksInv s) {ty : LockType} {held : Bool}
    (hpc : (s.thread t).pc = .gate ty held .check)
    (hc : checkQueue (s.monitor.lockRequest ((s.thread t).index ty)) ((s.thread t).req t ty)
      = false) : ¬ NoConflict IsReader (s.view ((s.thread t).index ty)).queue (t, ty) := by
  intro hno
  have hq : ((s.thread t).pc.phase ty).InQueue := by
    rw [← view_phase_index, gate_phase hpc]
    trivial
  obtain ⟨e, he, -⟩ := mem_clients.mp (hs.mem_clients_iff.mpr ⟨rfl, hq⟩)
  have := checkQueue_of_ahead (List.ne_nil_of_mem he) ((hs.base.noConflict_iff t ty).mp hno)
  rw [hc] at this
  exact Bool.noConfusion this

/-- **Every move keeps the sleepers awaited.** -/
theorem Wakeups.move (h : Wakeups s) (hs : LocksInv s) (hm : Move E s t s') : Wakeups s' := by
  refine ⟨fun u ty held hpc' => ?_, fun u ty held hpc' => h.asleep_move hs hm hpc',
    fun u ty held hpc' => h.drain_move hs hm hpc'⟩
  by_cases hut : u = t
  · subst hut
    obtain ⟨hto, hindex⟩ := hm.toGate hpc'
    rw [hindex]
    cases hto with
    | step hpc hq hn hgate =>
        cases hgate with
        | blocked hc =>
            refine .inl fun hno => hs.conflict_of_checkQueue hpc hc ?_
            rwa [State.view, hq] at hno
  · have heq := hm.eq_of_gate hut hpc' (by simp) (by simp)
    rw [heq]
    exact h.awaited_of_block hs hm (heq ▸ hpc')

theorem wakeups_of_reachable (hs : (engine N R E).Reachable s) : Wakeups s := by
  refine Machine.Run.invariant (I := Wakeups) (fun s h0 => ?_)
    (fun _ _ _ hr hi _ hstep => hi.move (locksInv_of_reachable hr) (move_of_step hstep)) s hs
  constructor <;> simp [h0.2.2.2.2]

/-- No thread stands between erasing its entry in the queue of record `x` and the end of the
notification of the matching `unlockShared`/`unlockExclusive`. -/
def State.NoReleaseOn (s : State N R) (x : Fin R) : Prop :=
  ∀ v why r rest un, (s.thread v).pc = .release why r rest un → r.index = x → un = .erase

/-- **No lost wake-up.**  In every reachable state in which no release on its record is half done,
a thread that sleeps on `writer` or on `reader` has an entry before its own that conflicts with
it.  Runs without spurious wake-ups are runs, so none is needed for this. -/
theorem no_lost_wakeup (hs : (engine N R E).Reachable s) {ty : LockType} {held : Bool} {g : Gate}
    (hpc : (s.thread u).pc = .gate ty held g) (hg : g = .asleep ∨ g = .asleepReader)
    (hquiet : s.NoReleaseOn ((s.thread u).index ty)) :
    ∃ e ∈ s.ahead u ty, e.type ≠ .R ∨ ty ≠ .R := by
  have hinv := locksInv_of_reachable hs
  have hwake := wakeups_of_reachable hs
  have herased : ∀ d, (s.view ((s.thread u).index ty)).phase d ≠ .erased := by
    intro d hd
    simp only [State.view, phaseAt] at hd
    split_ifs at hd with hx
    obtain ⟨why, r, rest, hrel, hty⟩ := release_of_erased hd
    have hrx : r.index = (s.thread u).index ty := by
      rw [← hx, (hinv.base.own d.1).release_index hrel, ← hty]
    simpa using hquiet d.1 why r rest _ hrel hrx
  by_contra hno
  push Not at hno
  have hnc : NoConflict IsReader (s.view ((s.thread u).index ty)).queue (u, ty) :=
    (hinv.base.noConflict_iff u ty).mpr hno
  rcases hg with rfl | rfl
  · rcases hwake.asleep u ty held hpc with (hcon | ⟨d, hd⟩) | ⟨v, why, r, rest, un, hrel, hrx, hun⟩
    · exact hcon hnc
    · exact herased d hd
    · have := hquiet v why r rest un hrel hrx
      simp [this] at hun
  · rcases hwake.drain u ty held hpc with hpos | ⟨v, why, r, rest, hrel, hrx⟩
    · have hphase : (s.view ((s.thread u).index ty)).phase (u, ty) = .gated := gate_phase hpc
      have hlock := hinv.lock ((s.thread u).index ty)
      have hzero := hlock.numReader_eq_zero (hlock.lock.writer _ (.inr hphase))
        (by rw [hphase]; trivial) hnc herased
      exact absurd hpos (by rw [show (s.monitor.lock _).numReader = 0 from hzero]; simp)
    · simpa using hquiet v why r rest _ hrel hrx

/-- Thread `0` writes record `1` and thread `1` sleeps until it may read it. -/
theorem no_lost_wakeup_reader_sleeps : ∃ s : State 2 3, (engine 2 3 5).Reachable s ∧
    (s.thread 1).pc = .gate .R false .asleep ∧ s.NoReleaseOn ((s.thread 1).index .R) ∧
    ∃ e ∈ s.ahead 1 .R, e.type ≠ .R ∨ LockType.R ≠ .R := by
  obtain ⟨s, hs, hp⟩ := Machine.exists_reachable_of_exec (M := engine 2 3 5)
    (State.start_isInit 2 3)
    (List.flatten [Act.start 0 0 1 2, Act.go 0 20, Act.start 1 1 0 2, Act.go 1 6])
    (fun s => (s.thread 0).pc = .request .W2 ∧ (s.thread 1).pc = .gate .R false .asleep)
    (by decide +kernel)
  obtain ⟨h0, h1⟩ := of_decide_eq_true hp
  have hquiet : s.NoReleaseOn ((s.thread 1).index .R) := by
    intro v why r rest un hv
    match v with
    | 0 => simp [h0] at hv
    | 1 => simp [h1] at hv
  exact ⟨s, hs, h1, hquiet, no_lost_wakeup hs h1 (.inl rfl) hquiet⟩

end Multicore.Project2
