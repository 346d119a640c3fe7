import Multicore.Project2.Commits

/-!
# A thread that runs alone

When every other thread is outside an attempt, or has not asked for its first lock yet, a thread
that moves alone is never in its own way: every request is answered at once, no gate blocks it,
and after a bounded number of steps it commits.  So the engine makes progress whenever one thread
is left undisturbed, and its commit counter can be driven as far as one likes.

* `Alone` — the other threads are idle and hold nothing;
* **`Alone.step`** — the thread can move, and has fewer steps left;
* **`commits_alone`** — it reaches its commit.
-/

namespace Multicore.Project2

open QLock

variable {N R : ℕ} {E : ℤ} {s s' : State N R} {t u : Fin N} {x : Fin R}

/-! ## Idle threads -/

/-- The thread has asked for nothing. -/
def Pc.idle : Pc N R → Bool
  | .loop | .request .R | .exited _ => true
  | _ => false

lemma phase_of_idle {pc : Pc N R} (h : pc.idle = true) (ty : LockType) :
    pc.phase ty = .absent := by
  cases pc with
  | request ty' => cases ty' <;> cases ty <;> first | rfl | simp [Pc.idle] at h
  | loop => rfl
  | exited b => rfl
  | _ => simp [Pc.idle] at h

lemma inGlobal_of_idle {pc : Pc N R} (h : pc.idle = true) : pc.inGlobal = false := by
  cases pc <;> first | rfl | simp [Pc.idle] at h

lemma mtx_of_idle {th : Thread N R} (h : th.pc.idle = true) : th.mtx = none := by
  refine Thread.mtx_eq_none fun ty held g hpc => ?_
  simp [hpc, Pc.idle] at h

lemma Woken.eq_of_idle {th th' : Thread N R} (hw : Woken th th') (h : th.pc.idle = true) :
    th' = th := by
  cases hw with
  | same => rfl
  | writer ty held hpc => simp [hpc, Pc.idle] at h
  | reader ty held hpc => simp [hpc, Pc.idle] at h

/-- All threads but `t` are idle, no mutex is held without need and nobody waits for anybody. -/
structure Alone (s : State N R) (t : Fin N) : Prop where
  idle : ∀ u, u ≠ t → (s.thread u).pc.idle = true
  global : ∀ u, s.globalMutex = some u → (s.thread u).pc.inGlobal = true
  mtx : ∀ u x, (s.monitor.lock x).mtx = some u → (s.thread u).mtx = some x
  depend : ∀ u, s.monitor.dependThreads u = ∅

namespace Alone

/-- Outside its critical sections, `global_mutex` is free. -/
lemma global_none (h : Alone s t) (ht : (s.thread t).pc.inGlobal = false) :
    s.globalMutex = none := by
  cases hg : s.globalMutex with
  | none => rfl
  | some u =>
      have hu := h.global u hg
      by_cases hut : u = t
      · rw [hut, ht] at hu
        simp at hu
      · rw [inGlobal_of_idle (h.idle u hut)] at hu
        simp at hu

/-- Outside its critical sections, the record mutexes are free. -/
lemma mtx_none (h : Alone s t) (ht : (s.thread t).mtx = none) (x : Fin R) :
    (s.monitor.lock x).mtx = none := by
  cases hm : (s.monitor.lock x).mtx with
  | none => rfl
  | some u =>
      have hu := h.mtx u x hm
      by_cases hut : u = t
      · rw [hut, ht] at hu
        simp at hu
      · rw [mtx_of_idle (h.idle u hut)] at hu
        simp at hu

/-- The only client of a record's lock is the request of the thread for it. -/
lemma client_eq (h : Alone s t) (hi : Function.Injective (s.thread t).index) {ty : LockType}
    {c : Client N} (hc : (s.view ((s.thread t).index ty)).phase c ≠ .absent) : c = (t, ty) := by
  obtain ⟨u, ty'⟩ := c
  simp only [State.view, phaseAt] at hc
  split_ifs at hc with hx
  · have hut : u = t := by
      by_contra hut
      exact hc (phase_of_idle (h.idle u hut) ty')
    subst hut
    rw [hi hx]
  · exact absurd rfl hc

/-- A queue the thread is not in is empty. -/
lemma queue_nil (h : Alone s t) (hs : LocksInv s) (hi : Function.Injective (s.thread t).index)
    {ty : LockType} (hp : (s.thread t).pc.phase ty = .absent) :
    s.monitor.lockRequest ((s.thread t).index ty) = [] := by
  rw [List.eq_nil_iff_forall_not_mem]
  intro e he
  have hmem : e.entry.1 ∈ (s.view ((s.thread t).index ty)).queue.map Prod.fst :=
    List.mem_map_of_mem (List.mem_map_of_mem he)
  have hin := ((hs.lock _).queue.mem_iff e.entry.1).mp hmem
  have hne : (s.view ((s.thread t).index ty)).phase e.entry.1 ≠ .absent := by
    intro h0
    rw [h0] at hin
    exact hin
  rw [h.client_eq hi hne, view_phase_index, hp] at hin
  exact hin

/-- In a queue the thread is in, it is the first. -/
lemma checkQueue_eq (h : Alone s t) (hs : LocksInv s) (hi : Function.Injective (s.thread t).index)
    {ty : LockType} (hp : (s.thread t).pc.phase ty = .checking) :
    checkQueue (s.monitor.lockRequest ((s.thread t).index ty)) ((s.thread t).req t ty) = true := by
  have hmem := ((hs.lock ((s.thread t).index ty)).queue.mem_iff (t, ty)).mpr
    (by rw [view_phase_index, hp]; trivial)
  cases hq : s.monitor.lockRequest ((s.thread t).index ty) with
  | nil => simp [State.view, hq] at hmem
  | cons e q =>
      have he : e ∈ s.monitor.lockRequest ((s.thread t).index ty) := by simp [hq]
      have hin := ((hs.lock _).queue.mem_iff e.entry.1).mp
        (List.mem_map_of_mem (List.mem_map_of_mem he))
      have hc : e.entry.1 = (t, ty) := h.client_eq hi fun h0 => by
        rw [h0] at hin
        exact hin
      have hsame : e.same ((s.thread t).req t ty) = true :=
        (same_iff_client (hs.base.index _ e he)).mpr hc
      rw [LockInfo.same_iff] at hsame
      have hsame' : ((s.thread t).req t ty).same e = true :=
        LockInfo.same_iff.mpr ⟨hsame.1.symm, hsame.2.1.symm, hsame.2.2.symm⟩
      simp [checkQueue, hsame']

/-- At the test of `writing` no writer has raised it. -/
lemma writing_eq (h : Alone s t) (hs : LocksInv s) (hi : Function.Injective (s.thread t).index)
    {ty : LockType} (hp : (s.thread t).pc.phase ty = .checked) :
    (s.monitor.lock ((s.thread t).index ty)).writing = false := by
  by_contra hw
  obtain ⟨c, -, hraised⟩ := (hs.lock ((s.thread t).index ty)).lock.raiser
    (by simpa [State.view] using hw)
  have hne : (s.view ((s.thread t).index ty)).phase c ≠ .absent := by
    intro h0
    rw [h0] at hraised
    exact hraised
  rw [h.client_eq hi hne, view_phase_index, hp] at hraised
  exact hraised

/-- A writer that has raised `writing` finds no reader. -/
lemma numReader_eq (h : Alone s t) (hs : LocksInv s) (hi : Function.Injective (s.thread t).index)
    {ty : LockType} (hp : (s.thread t).pc.phase ty = .draining) :
    (s.monitor.lock ((s.thread t).index ty)).numReader = 0 := by
  have hcount := (hs.lock ((s.thread t).index ty)).lock.count
  have hzero : readers IsReader (s.view ((s.thread t).index ty)).phase = 0 := by
    unfold readers
    rw [Finset.card_eq_zero, Finset.filter_eq_empty_iff]
    rintro c - ⟨-, hh⟩
    have hne : (s.view ((s.thread t).index ty)).phase c ≠ .absent := by
      intro h0
      rw [h0] at hh
      exact hh
    rw [h.client_eq hi hne, view_phase_index, hp] at hh
    exact hh
  rw [hzero] at hcount
  exact hcount

/-- The other threads stay idle, and the mutexes are accounted for. -/
lemma move (h : Alone s t) (hm : Move E s t s') (hloop : (s'.thread t).pc ≠ .loop)
    (hdep : ∀ u, s'.monitor.dependThreads u = ∅) : Alone s' t := by
  have hne : ∀ u, u ≠ t → s'.thread u = s.thread u :=
    fun u hu => (hm.woken hu).eq_of_idle (h.idle u hu)
  refine ⟨fun u hu => ?_, fun u hu => ?_, ?_, hdep⟩
  · rw [hne u hu]
    exact h.idle u hu
  · rcases hm.global with hstep | ⟨-, hl, -⟩
    · have key := MutexStep.claimed (fun u => (s.thread u).global) (fun u => (s'.thread u).global)
        hstep (fun u _ hu => by simp [Thread.global, h.global u hu])
        (fun u hu => by simp [hne u hu])
      simpa [Thread.global] using key u () hu
    · exact absurd hl hloop
  · exact MutexStep.claimed (fun u => (s.thread u).mtx) (fun u => (s'.thread u).mtx) hm.mtx
      h.mtx fun u hu => by simp [hne u hu]

end Alone

/-! ## The way to the commit -/

/-- The program counters of an attempt whose requests are answered at once. -/
def Pc.onCourse : Pc N R → Bool
  | .request _ | .check _ | .unlock _ | .read _ | .lockCommit => true
  | .write ty => ty ≠ .R
  | .flag _ held => held
  | .gate _ held g => held && match g with
      | .enter | .check | .test | .pass | .drain => true
      | _ => false
  | .release why _ _ _ => why = .commit
  | _ => false

/-- How many steps follow the lock of this type. -/
def LockType.after : LockType → ℕ
  | .R => 36
  | .W1 => 25
  | .W2 => 14

/-- An upper bound for the steps that are left. -/
def Pc.remaining : Pc N R → ℕ
  | .request ty => ty.after + 10
  | .check ty => ty.after + 9
  | .gate ty _ g => ty.after + match g with
      | .enter => 8
      | .check => 7
      | .test => 6
      | .pass => 5
      | _ => 4
  | .flag ty _ => ty.after + 3
  | .unlock ty => ty.after + 2
  | .read ty => ty.after + 1
  | .write ty => ty.after
  | .lockCommit => 13
  | .release _ _ rest u => 4 * rest.length + match u with
      | .erase => 4
      | .mutex => 3
      | _ => 2
  | _ => 0

lemma nextRelease_remaining (why : Why) (l : List (LockInfo N R)) :
    (nextRelease why l).remaining = 4 * l.length := by
  cases l <;> cases why <;> simp [nextRelease, Pc.remaining] <;> omega

lemma nextRelease_onCourse (l : List (LockInfo N R)) :
    (nextRelease .commit l).onCourse = true ∨ (nextRelease .commit l : Pc N R) = .commit := by
  cases l
  · exact .inr rfl
  · exact .inl rfl

/-- What a step on the way to the commit gives: it can be made, nobody waits for anybody after
it, and fewer steps are left. -/
def Advances (E : ℤ) (s : State N R) (t : Fin N) : Prop :=
  ∃ s', stepThread E s t .go = some s' ∧ (∀ u, s'.monitor.dependThreads u = ∅) ∧
    (s'.thread t).pc.remaining < (s.thread t).pc.remaining ∧
    ((s'.thread t).pc.onCourse = true ∨ (s'.thread t).pc = .commit)

/-- A request for a record nobody has asked for is answered `get`. -/
lemma deadlockCheck_get {m : Monitor N R} {req : LockInfo N R} (hd : ∀ u, m.dependThreads u = ∅)
    (hq : m.lockRequest req.index = []) :
    (m.deadlockCheck req).1 = .get ∧ ∀ u, (m.deadlockCheck req).2.dependThreads u = ∅ := by
  have hdep : (m.addDepend req).dependThreads = fun _ => ∅ := by
    funext u
    simp only [Monitor.addDepend, hq, newDepend, Function.update_apply, hd]
    split_ifs <;> rfl
  have hsame : req.same req = true := LockInfo.same_iff.mpr ⟨rfl, rfl, rfl⟩
  have hcycle : findCycle (fun _ => ∅) req.tid (elems (∅ : Finset (Fin N))) ∅ = false := by
    simp [elems, findCycle]
  unfold Monitor.deadlockCheck
  have hq' : (m.addDepend req).lockRequest req.index = [] := hq
  simp only [hdep, hcycle, hq', List.nil_append, List.head?_cons, Option.any_some, hsame, if_true]
  exact ⟨rfl, fun _ => rfl⟩

lemma advances_setThread (m : State N R) (th : Thread N R)
    (hstep : stepThread E s t .go = some (m.setThread t th))
    (hd : ∀ u, m.monitor.dependThreads u = ∅)
    (hlt : th.pc.remaining < (s.thread t).pc.remaining)
    (hc : th.pc.onCourse = true ∨ th.pc = .commit) : Advances E s t :=
  ⟨m.setThread t th, hstep, hd, by simpa using hlt, by simpa using hc⟩

/-- Most steps move the program counter of the thread only. -/
lemma advances_setPc (m : State N R) (Q : Pc N R)
    (hstep : stepThread E s t .go = some (m.setPc t Q)) (hd : ∀ u, m.monitor.dependThreads u = ∅)
    (hlt : Q.remaining < (s.thread t).pc.remaining) (hc : Q.onCourse = true ∨ Q = .commit) :
    Advances E s t :=
  advances_setThread m { m.thread t with pc := Q } hstep hd hlt hc

namespace Alone

variable (h : Alone s t) (hs : LocksInv s)

include h hs

omit hs in
lemma advances_request {ty : LockType} (hpc : (s.thread t).pc = .request ty) :
    Advances E s t :=
  advances_setPc (s.setGlobal (some t)) (.check ty)
    (by simp only [stepThread, hpc, h.global_none (by rw [hpc]; rfl), if_true]) h.depend
    (by simp [hpc, Pc.remaining]) (.inl rfl)

lemma advances_check {ty : LockType} (hpc : (s.thread t).pc = .check ty) : Advances E s t := by
  have hi := (hs.base.own t).index_injective (by rw [hpc]; trivial)
  have hq : s.monitor.lockRequest ((s.thread t).req t ty).index = [] :=
    h.queue_nil hs hi (by rw [hpc]; exact phaseUpTo_self ty _)
  obtain ⟨hget, hdep⟩ := deadlockCheck_get h.depend hq
  have hpair : s.monitor.deadlockCheck ((s.thread t).req t ty)
      = (.get, (s.monitor.deadlockCheck ((s.thread t).req t ty)).2) := Prod.ext hget rfl
  refine advances_setPc (s.setMonitor (s.monitor.deadlockCheck ((s.thread t).req t ty)).2)
    (.gate ty true .enter) ?_ hdep (by simp [hpc, Pc.remaining]) (.inl rfl)
  simp only [stepThread, hpc]
  rw [hpair]

lemma advances_gate {ty : LockType} {held : Bool} {g : Gate}
    (hpc : (s.thread t).pc = .gate ty held g) (hc : (s.thread t).pc.onCourse = true) :
    Advances E s t := by
  have hi := (hs.base.own t).index_injective (by rw [hpc]; trivial)
  have hph : (s.thread t).pc.phase ty = g.phase := by rw [hpc]; exact phaseUpTo_self ty _
  have hstep : stepThread E s t .go = gateStep s t ty held g := by simp only [stepThread, hpc]
  rw [hpc] at hc
  cases g <;> simp only [Pc.onCourse, Bool.and_true, Bool.and_false, Bool.false_eq_true] at hc
  case enter =>
    exact advances_setPc (s.setMonitor (s.monitor.setLock ((s.thread t).index ty)
        { s.monitor.lock ((s.thread t).index ty) with mtx := some t })) (.gate ty held .check)
      (by rw [hstep, gateStep]; exact if_pos (h.mtx_none (by rw [Thread.mtx_gate hpc]; rfl) _))
      h.depend (by simp [hpc, Pc.remaining]) (.inl (by simp [Pc.onCourse, hc]))
  case check =>
    exact advances_setPc s (.gate ty held .test)
      (by rw [hstep, gateStep]; exact if_pos (h.checkQueue_eq hs hi hph))
      h.depend (by simp [hpc, Pc.remaining]) (.inl (by simp [Pc.onCourse, hc]))
  case test =>
    exact advances_setPc s (.gate ty held .pass)
      (by rw [hstep, gateStep]; exact if_neg (by rw [h.writing_eq hs hi hph]; simp))
      h.depend (by simp [hpc, Pc.remaining]) (.inl (by simp [Pc.onCourse, hc]))
  case pass =>
    by_cases hty : ty = .R
    · exact advances_setPc (s.setMonitor (s.monitor.setLock ((s.thread t).index ty)
          { s.monitor.lock ((s.thread t).index ty) with
            numReader := (s.monitor.lock ((s.thread t).index ty)).numReader + 1, mtx := none }))
        (.flag ty held) (by rw [hstep, gateStep]; exact if_pos hty)
        h.depend (by simp [hpc, Pc.remaining]) (.inl (by simp [Pc.onCourse, hc]))
    · exact advances_setPc (s.setMonitor (s.monitor.setLock ((s.thread t).index ty)
          { s.monitor.lock ((s.thread t).index ty) with writing := true }))
        (.gate ty held .drain) (by rw [hstep, gateStep]; exact if_neg hty)
        h.depend (by simp [hpc, Pc.remaining]) (.inl (by simp [Pc.onCourse, hc]))
  case drain =>
    refine advances_setPc (s.setMonitor (s.monitor.setLock ((s.thread t).index ty)
      { s.monitor.lock ((s.thread t).index ty) with mtx := none })) (.flag ty held) ?_
      h.depend (by simp [hpc, Pc.remaining]) (.inl (by simp [Pc.onCourse, hc]))
    rw [hstep, gateStep, if_neg (by rw [h.numReader_eq hs hi hph]; omega)]

omit hs in
/-- Nobody sleeps. -/
lemma sleepsReader_eq (ht : ∀ ty held g, (s.thread t).pc ≠ .gate ty held g) (x : Fin R)
    (u : Fin N) : s.sleepsReader x u = false := by
  unfold State.sleepsReader
  split
  · rename_i ty held hpc
    by_cases hut : u = t
    · subst hut
      exact absurd hpc (ht _ _ _)
    · have := h.idle u hut
      simp [hpc, Pc.idle] at this
  · rfl

omit hs in
lemma advances_release {r : LockInfo N R} {rest : List (LockInfo N R)} {un : Unlock}
    (hpc : (s.thread t).pc = .release .commit r rest un) : Advances E s t := by
  have hfree := h.mtx_none (Thread.mtx_eq_none (by simp [hpc])) r.index
  have hstep : stepThread E s t .go = releaseStep s t .go .commit r rest un := by
    simp only [stepThread, hpc]
  have hnext : (nextRelease .commit rest).remaining < (s.thread t).pc.remaining ∨
      un = .erase ∨ un = .mutex := by
    rw [hpc, nextRelease_remaining]
    cases un <;> simp [Pc.remaining]
  cases un with
  | erase =>
      refine advances_setPc (s.setMonitor (s.monitor.deleteLock r)) (.release .commit r rest .mutex)
        hstep (fun u => ?_) (by simp [hpc, Pc.remaining]) (.inl rfl)
      simp [Monitor.deleteLock, h.depend]
  | mutex =>
      simp only [releaseStep, if_pos hfree] at hstep
      split_ifs at hstep with hty
      · exact advances_setPc _ _ hstep h.depend (by simp [hpc, Pc.remaining]) (.inl rfl)
      · exact advances_setPc _ _ hstep h.depend (by simp [hpc, Pc.remaining]) (.inl rfl)
  | notifyShared n w =>
      have hlt : (nextRelease .commit rest).remaining < (s.thread t).pc.remaining := by
        simpa using hnext
      have hno : ¬ ∃ u, s.sleepsReader r.index u = true := by
        rintro ⟨u, hu⟩
        rw [h.sleepsReader_eq (by simp [hpc])] at hu
        simp at hu
      simp only [releaseStep, if_neg hno] at hstep
      split_ifs at hstep with h1 h2
      · exact advances_setPc _ _ hstep h.depend hlt (nextRelease_onCourse rest)
      · exact advances_setPc _ _ hstep h.depend hlt (nextRelease_onCourse rest)
      · exact advances_setPc _ _ hstep h.depend hlt (nextRelease_onCourse rest)
  | notifyExclusive =>
      exact advances_setPc _ _ hstep h.depend (by simpa using hnext) (nextRelease_onCourse rest)

/-- **A thread that runs alone can move**, as long as it is on its way to the commit. -/
theorem advances (hc : (s.thread t).pc.onCourse = true) : Advances E s t := by
  cases hpc : (s.thread t).pc with
  | request ty => exact h.advances_request hpc
  | check ty => exact h.advances_check hs hpc
  | gate ty held g => exact h.advances_gate hs hpc hc
  | release why r rest un =>
      rw [hpc] at hc
      obtain rfl : why = .commit := by simpa [Pc.onCourse] using hc
      exact h.advances_release hpc
  | flag ty held =>
      rw [hpc] at hc
      obtain rfl : held = true := hc
      exact advances_setPc (s.setMonitor (s.monitor.setGetLock ((s.thread t).req t ty)))
        (.unlock ty) (by simp only [stepThread, hpc, if_true]) h.depend
        (by simp [hpc, Pc.remaining]) (.inl rfl)
  | unlock ty =>
      exact advances_setThread (s.setGlobal none) { s.thread t with
          pc := .read ty
          havingLocks := (s.thread t).havingLocks ++ [(s.thread t).req t ty] }
        (by simp only [stepThread, hpc]) h.depend (by simp [hpc, Pc.remaining]) (.inl rfl)
  | read ty =>
      cases ty with
      | R =>
          exact advances_setThread s { s.thread t with
              pc := .request .W1, iValue := s.monitor.read (s.thread t).i }
            (by simp only [stepThread, hpc]) h.depend
            (by simp [hpc, Pc.remaining, LockType.after]) (.inl rfl)
      | W1 =>
          exact advances_setThread s { s.thread t with
              pc := .write .W1, jValue := s.monitor.read (s.thread t).j }
            (by simp only [stepThread, hpc]) h.depend
            (by simp [hpc, Pc.remaining]) (.inl rfl)
      | W2 =>
          exact advances_setThread s { s.thread t with
              pc := .write .W2, kValue := s.monitor.read (s.thread t).k }
            (by simp only [stepThread, hpc]) h.depend
            (by simp [hpc, Pc.remaining]) (.inl rfl)
  | write ty =>
      rw [hpc] at hc
      cases ty with
      | R => simp [Pc.onCourse] at hc
      | W1 =>
          exact advances_setPc (s.setMonitor (s.monitor.write (s.thread t).j
              ((s.thread t).jValue + (s.thread t).iValue + 1))) (.request .W2)
            (by simp only [stepThread, hpc]) h.depend
            (by simp [hpc, Pc.remaining, LockType.after]) (.inl rfl)
      | W2 =>
          exact advances_setPc (s.setMonitor (s.monitor.write (s.thread t).k
              ((s.thread t).kValue - (s.thread t).iValue))) .lockCommit
            (by simp only [stepThread, hpc]) h.depend
            (by simp [hpc, Pc.remaining, LockType.after]) (.inl rfl)
  | lockCommit =>
      have hhav := (hs.base.own t).having [.R, .W1, .W2] (by rw [hpc]; rfl)
      refine advances_setPc (s.setGlobal (some t)) (nextRelease .commit (s.thread t).havingLocks)
        (by simp only [stepThread, hpc, h.global_none (by rw [hpc]; rfl), if_true]) h.depend ?_
        (nextRelease_onCourse _)
      rw [nextRelease_remaining, hhav, hpc]
      simp [Pc.remaining]
  | _ => rw [hpc] at hc; simp [Pc.onCourse] at hc

end Alone

/-- **A thread that runs alone commits.**  From its first request on it reaches its commit, the
other threads and the commit counter being as they were. -/
theorem commits_alone (hs : (engine N R E).Reachable s) (ha : Alone s t)
    (hc : (s.thread t).pc.onCourse = true ∨ (s.thread t).pc = .commit) :
    ∃ s', (engine N R E).Reachable s' ∧ Alone s' t ∧ (s'.thread t).pc = .commit ∧
      s'.globalExecutionOrder = s.globalExecutionOrder ∧ s'.outFile = s.outFile ∧
      ∀ u, u ≠ t → s'.thread u = s.thread u := by
  induction hn : (s.thread t).pc.remaining using Nat.strong_induction_on generalizing s with
  | _ n ih =>
      rcases hc with hc | hc
      · obtain ⟨s₁, hstep, hdep, hlt, hc₁⟩ := ha.advances (locksInv_of_reachable hs) hc (E := E)
        have hm : Move E s t s₁ := move_of_step hstep
        have hne : (s.thread t).pc ≠ .commit := by
          intro h
          rw [h] at hc
          simp [Pc.onCourse] at hc
        have hloop : (s₁.thread t).pc ≠ .loop := by
          intro h
          rw [h] at hc₁
          simp [Pc.onCourse] at hc₁
        obtain ⟨hord, hout, -⟩ := hm.count hne
        have hs₁ : (engine N R E).Reachable s₁ := .step (a := ⟨t, .go⟩) hs trivial hstep
        obtain ⟨s', h1, h2, h3, h4, h5, h6⟩ := ih _ (hn ▸ hlt) hs₁ (ha.move hm hloop hdep) hc₁ rfl
        refine ⟨s', h1, h2, h3, h4.trans hord, h5.trans hout, fun u hu => (h6 u hu).trans ?_⟩
        exact (hm.woken hu).eq_of_idle (ha.idle u hu)
      · exact ⟨s, hs, ha, hc, rfl, rfl, fun _ _ => rfl⟩

end Multicore.Project2
