import Multicore.Project2.Alone

/-!
# Serializability of the transaction engine

The log is the serial execution of its own transactions: `Serializable E s` says that of a state,
and **`serializable_iff`** says when it holds in every state of every run.  The condition is the
range of `int`: the commit counter has 64 bits, the commit id `cid` has 32, and the counter goes
up to `E + N - 1`.  When that is `2 ^ 31` or more, the thread that draws number `2 ^ 31` gets the
id `-2 ^ 31`, which is not above `E`, and logs an attempt that came too late.

The run that shows it needs no interference at all: threads that are past the test of the counter
commit one after the other (`Ready.commit`).
-/

namespace Multicore.Project2

variable {N R : ℕ} {E : ℤ} {s s' : State N R} {t u : Fin N}

/-! ## The property -/

/-- The lines of all log files, in the order in which they were written. -/
def State.lines (s : State N R) : List (LogLine R) := s.outFile.map Prod.snd

/-- Thread `t` has written record `x` in an attempt that it has neither committed nor undone. -/
def State.Dirty (s : State N R) (t : Fin N) (x : Fin R) : Prop :=
  ∃ ty, (s.thread t).txn.wrote ty = true ∧ (s.thread t).index ty = x

/-- The log is the serial execution of the logged transactions. -/
structure Serializable (E : ℤ) (s : State N R) : Prop where
  /-- the ids are `1, 2, …, n` -/
  ids : s.lines.map LogLine.cid = (List.range s.lines.length).map fun c : ℕ => (c : ℤ) + 1
  bound : (s.lines.length : ℤ) ≤ E
  /-- all `E` transactions are there once every thread has returned -/
  complete : (∀ t, ∃ b, (s.thread t).pc = .exited b) → (s.lines.length : ℤ) = E
  /-- line `c` shows the records after the first `c` transactions -/
  shows : ∀ c (l : LogLine R), s.lines[c]? = some l → l.Shows (serial (s.lines.take (c + 1)))
  /-- attempts that did not commit have left nothing behind -/
  clean : ∀ x, (∀ t, ¬ s.Dirty t x) → s.monitor.read x = serial s.lines x

/-- The counter stays in the range of `int`: every state is serializable. -/
lemma serializable_of_range (hE : 0 ≤ E) (t : Fin N) (hN : E = 0 ∨ E + N ≤ 2 ^ 31)
    (hs : (engine N R E).Reachable s) : Serializable E s := by
  have hcount := counted_of_reachable hE t hN hs
  have hdata := dataInv_of_reachable hs
  have hlen : s.lines.length = s.outFile.length := List.length_map _
  refine ⟨?_, ?_, fun hexit => ?_, hdata.shows, fun x hx => ?_⟩
  · rw [hlen, ← hcount.ids]
    simp [State.lines]
  · rw [hlen]
    exact hcount.bound
  · rw [hlen]
    obtain ⟨b, hb⟩ := hexit t
    cases b with
    | false => exact hcount.length_eq (hcount.returned t hb)
    | true =>
        refine hcount.late (Finset.card_pos.mpr ⟨t, ?_⟩).ne'
        rw [Finset.mem_filter]
        exact ⟨Finset.mem_univ _, by rw [hb]; rfl⟩
  · exact hdata.clean x fun u ty hw hi => hx u ⟨ty, hw, hi⟩

/-! ## One attempt after the other -/

/-- Every thread is idle and nothing is held. -/
structure Ready (s : State N R) : Prop where
  idle : ∀ u, (s.thread u).pc.idle = true
  global : s.globalMutex = none
  mtx : ∀ x, (s.monitor.lock x).mtx = none
  depend : ∀ u, s.monitor.dependThreads u = ∅

lemma Ready.alone (h : Ready s) (t : Fin N) : Alone s t :=
  ⟨fun u _ => h.idle u, fun u hu => by simp [h.global] at hu,
    fun u x hx => by simp [h.mtx] at hx, h.depend⟩

/-- An attempt is over and the next thread may begin. -/
lemma Alone.ready (h : Alone s t) (ht : (s.thread t).mtx = none) {Q : Pc N R}
    (hQ : Q.idle = true) : Ready ((s.setGlobal none).setPc t Q) := by
  refine ⟨fun u => ?_, rfl, fun x => h.mtx_none ht x, h.depend⟩
  rw [State.setPc_thread, Function.update_apply]
  split_ifs with hu
  · exact hQ
  · exact h.idle u hu

lemma ready_start (N R : ℕ) [NeZero R] : Ready (State.start N R) :=
  ⟨fun _ => rfl, rfl, fun _ => rfl, fun _ => rfl⟩

/-- A thread passes the test of the counter. -/
lemma Ready.begin (h : Ready s) (hs : (engine N R E).Reachable s) (hR : 3 ≤ R)
    (hpc : (s.thread t).pc = .loop) (hlt : s.globalExecutionOrder < E) :
    ∃ s', (engine N R E).Reachable s' ∧ Ready s' ∧ (s'.thread t).pc = .request .R ∧
      s'.globalExecutionOrder = s.globalExecutionOrder ∧ ∀ u, u ≠ t → s'.thread u = s.thread u := by
  refine ⟨s.setThread t { s.thread t with
    pc := .request .R, i := ⟨0, by omega⟩, j := ⟨1, by omega⟩, k := ⟨2, by omega⟩,
    havingLocks := [] }, .step (a := ⟨t, .triple ⟨0, by omega⟩ ⟨1, by omega⟩ ⟨2, by omega⟩⟩) hs
      trivial ?_, ⟨fun u => ?_, h.global, h.mtx, h.depend⟩, by simp, rfl, fun u hu => by simp [hu]⟩
  · simp only [engine, stepThread, hpc]
    exact if_pos ⟨hlt, by simp, by simp, by simp⟩
  · rw [State.setThread_thread, Function.update_apply]
    split_ifs with hu
    · rfl
    · exact h.idle u

/-- A thread that has passed the test makes its attempt alone and commits or is rolled back. -/
lemma Ready.commit (h : Ready s) (hs : (engine N R E).Reachable s)
    (hpc : (s.thread t).pc = .request .R) :
    ∃ s', (engine N R E).Reachable s' ∧ Ready s' ∧
      s'.globalExecutionOrder = s.globalExecutionOrder + 1 ∧
      (∀ u, u ≠ t → s'.thread u = s.thread u) ∧
      (toInt (s.globalExecutionOrder + 1) ≤ E → (s'.thread t).pc = .loop ∧
        ∃ l ∈ s'.lines, l.cid = toInt (s.globalExecutionOrder + 1)) := by
  obtain ⟨s₁, hs₁, ha₁, hpc₁, hord, -, hne⟩ :=
    commits_alone hs (h.alone t) (.inl (by rw [hpc]; rfl))
  rw [← hord]
  have hm : Move E s₁ t (commitStep E s₁ t) := .commit hpc₁
  have hs₂ : (engine N R E).Reachable (commitStep E s₁ t) :=
    .step (a := ⟨t, .go⟩) hs₁ trivial (by simp only [engine, stepThread, hpc₁])
  have hne₂ : ∀ u, u ≠ t → (commitStep E s₁ t).thread u = s.thread u := fun u hu =>
    ((hm.woken hu).eq_of_idle (ha₁.idle u hu)).trans (hne u hu)
  have hord₂ := commitStep_order E s₁ t
  have hdep₂ : ∀ u, (commitStep E s₁ t).monitor.dependThreads u = ∅ := by
    rw [commitStep_dependThreads]
    exact ha₁.depend
  have hkeep : ∀ pc u, u ≠ t →
      (((commitStep E s₁ t).setGlobal none).setPc t pc).thread u = s.thread u := fun _ u hu =>
    (Function.update_of_ne hu _ _).trans (hne₂ u hu)
  by_cases hle : toInt (s₁.globalExecutionOrder + 1) ≤ E
  · have hq : commitPc E s₁ = .unlockLoop := if_pos hle
    have hpc₂ : ((commitStep E s₁ t).thread t).pc = .unlockLoop := by simp [hq]
    have ha₂ : Alone (commitStep E s₁ t) t := ha₁.move hm (by simp [hq]) hdep₂
    refine ⟨((commitStep E s₁ t).setGlobal none).setPc t .loop,
      .step (a := ⟨t, .go⟩) hs₂ trivial (by simp only [engine, stepThread, hpc₂]),
      ha₂.ready (Thread.mtx_eq_none (by simp [hq])) rfl, hord₂, hkeep _, fun _ => ⟨by simp, ?_⟩⟩
    simp [State.lines, commitStep_outFile, hle]
  · have hq : commitPc E s₁ = .unlockExit := if_neg hle
    have hpc₂ : ((commitStep E s₁ t).thread t).pc = .unlockExit := by simp [hq]
    have ha₂ : Alone (commitStep E s₁ t) t := ha₁.move hm (by simp [hq]) hdep₂
    exact ⟨((commitStep E s₁ t).setGlobal none).setPc t (.exited true),
      .step (a := ⟨t, .go⟩) hs₂ trivial (by simp only [engine, stepThread, hpc₂]),
      ha₂.ready (Thread.mtx_eq_none (by simp [hq])) rfl, hord₂, hkeep _, fun h => absurd h hle⟩

/-! ## Driving the counter to its limit -/

/-- Any set of threads can be past the test of the counter before the first commit. -/
lemma exists_parked (hR : 3 ≤ R) (hE : 0 < E) (S : Finset (Fin N)) :
    ∃ s : State N R, (engine N R E).Reachable s ∧ Ready s ∧ s.globalExecutionOrder = 0 ∧
      ∀ u, (s.thread u).pc = if u ∈ S then .request .R else .loop := by
  induction S using Finset.induction_on with
  | empty =>
      have : NeZero R := ⟨by omega⟩
      exact ⟨State.start N R, .init (State.start_isInit N R), ready_start N R, rfl, fun _ => rfl⟩
  | insert v S hv ih =>
      obtain ⟨s, hs, hready, hord, hpc⟩ := ih
      have hloop : (s.thread v).pc = .loop := by rw [hpc v, if_neg hv]
      obtain ⟨s', hs', hready', hpc', hord', hne⟩ := hready.begin hs hR hloop (by omega)
      refine ⟨s', hs', hready', hord'.trans hord, fun u => ?_⟩
      by_cases huv : u = v
      · subst huv
        simp [hpc']
      · rw [hne u huv, hpc u]
        simp [huv]

/-- One thread commits `n` times while all others are past the test of the counter. -/
lemma exists_counter (hR : 3 ≤ R) (hE : 0 < E) (t : Fin N) (n : ℕ) (hn : (n : ℤ) ≤ E)
    (hn' : (n : ℤ) < 2 ^ 31) :
    ∃ s : State N R, (engine N R E).Reachable s ∧ Ready s ∧ s.globalExecutionOrder = n ∧
      (s.thread t).pc = .loop ∧ ∀ u, u ≠ t → (s.thread u).pc = .request .R := by
  induction n with
  | zero =>
      obtain ⟨s, hs, hready, hord, hpc⟩ := exists_parked hR hE (Finset.univ.erase t)
      exact ⟨s, hs, hready, hord, by simp [hpc], fun u hu => by simp [hpc, hu]⟩
  | succ n ih =>
      push_cast at hn hn' ⊢
      obtain ⟨s, hs, hready, hord, hloop, hpc⟩ := ih (by omega) (by omega)
      obtain ⟨s₁, hs₁, hready₁, hpc₁, hord₁, hne₁⟩ := hready.begin hs hR hloop (by omega)
      obtain ⟨s₂, hs₂, hready₂, hord₂, hne₂, hlog⟩ := hready₁.commit hs₁ hpc₁
      refine ⟨s₂, hs₂, hready₂, by omega, (hlog ?_).1, fun u hu => ?_⟩
      · rw [toInt_of_isInt ⟨by omega, by omega⟩]
        omega
      · rw [hne₂ u hu, hne₁ u hu]
        exact hpc u hu

/-- The threads past the test of the counter drive it above `E`, one each. -/
lemma exists_counter_late (hR : 3 ≤ R) (hE : 0 < E) (hE' : E < 2 ^ 31) (t : Fin N) (m : ℕ)
    (hm : E + m < 2 ^ 31) (hN : m < N) :
    ∃ (s : State N R) (S : Finset (Fin N)), (engine N R E).Reachable s ∧ Ready s ∧
      s.globalExecutionOrder = E + m ∧ S.card + m + 1 = N ∧
      ∀ u ∈ S, (s.thread u).pc = .request .R := by
  induction m with
  | zero =>
      obtain ⟨s, hs, hready, hord, -, hpc⟩ :=
        exists_counter hR hE t E.toNat (by omega) (by omega)
      refine ⟨s, Finset.univ.erase t, hs, hready, by omega, ?_, fun u hu => hpc u ?_⟩
      · rw [Finset.card_erase_of_mem (Finset.mem_univ t), Finset.card_univ, Fintype.card_fin]
        omega
      · exact Finset.ne_of_mem_erase hu
  | succ m ih =>
      push_cast at hm ⊢
      obtain ⟨s, S, hs, hready, hord, hcard, hpc⟩ := ih (by omega) (by omega)
      obtain ⟨v, hv⟩ : S.Nonempty := Finset.card_pos.mp (by omega)
      obtain ⟨s', hs', hready', hord', hne, -⟩ := hready.commit hs (hpc v hv)
      refine ⟨s', S.erase v, hs', hready', by omega, ?_, fun u hu => ?_⟩
      · rw [Finset.card_erase_of_mem hv]
        omega
      · rw [hne u (Finset.ne_of_mem_erase hu)]
        exact hpc u (Finset.mem_of_mem_erase hu)

/-- When the counter can reach `2 ^ 31`, some run logs an attempt under a negative id. -/
lemma exists_negative_id (hR : 3 ≤ R) (hE : 0 < E) (t : Fin N) (hN : 2 ^ 31 < E + N) :
    ∃ s : State N R, (engine N R E).Reachable s ∧ ∃ l ∈ s.lines, l.cid = -2 ^ 31 := by
  have key : ∃ (s : State N R) (u : Fin N), (engine N R E).Reachable s ∧ Ready s ∧
      s.globalExecutionOrder = 2 ^ 31 - 1 ∧ (s.thread u).pc = .request .R := by
    by_cases hE' : E < 2 ^ 31
    · obtain ⟨s, S, hs, hready, hord, hcard, hpc⟩ :=
        exists_counter_late hR hE hE' t (2 ^ 31 - 1 - E).toNat (by omega) (by omega)
      obtain ⟨v, hv⟩ : S.Nonempty := Finset.card_pos.mp (by omega)
      exact ⟨s, v, hs, hready, by omega, hpc v hv⟩
    · obtain ⟨s, hs, hready, hord, hloop, -⟩ :=
        exists_counter hR hE t (2 ^ 31 - 1) (by omega) (by omega)
      obtain ⟨s', hs', hready', hpc', hord', -⟩ := hready.begin hs hR hloop (by omega)
      exact ⟨s', t, hs', hready', by omega, hpc'⟩
  obtain ⟨s, u, hs, hready, hord, hpc⟩ := key
  obtain ⟨s', hs', -, -, -, hlog⟩ := hready.commit hs hpc
  have hid : toInt (s.globalExecutionOrder + 1) = -2 ^ 31 := by
    rw [hord]
    decide
  obtain ⟨-, l, hl, hcid⟩ := hlog (by rw [hid]; omega)
  exact ⟨s', hs', l, hl, hcid.trans hid⟩

/-- A log with a negative id is not the log of a serial execution. -/
lemma not_serializable_of_id {l : LogLine R} (hl : l ∈ s.lines) (hid : l.cid < 0) :
    ¬ Serializable E s := by
  intro h
  have hmem : l.cid ∈ (List.range s.lines.length).map fun c : ℕ => (c : ℤ) + 1 :=
    h.ids ▸ List.mem_map_of_mem hl
  obtain ⟨c, -, hc⟩ := List.mem_map.mp hmem
  omega

/-- **Serializability of the engine.**  Every reachable state of the engine is serializable
exactly when its commit counter stays in the range of `int`. -/
theorem serializable_iff (hN : 1 ≤ N) (hR : 3 ≤ R) (hE : 0 ≤ E) :
    (∀ s, (engine N R E).Reachable s → Serializable E s) ↔ E = 0 ∨ E + N ≤ 2 ^ 31 := by
  have t : Fin N := ⟨0, hN⟩
  constructor
  · intro h
    by_contra hrange
    obtain ⟨s, hs, l, hl, hid⟩ := exists_negative_id (E := E) hR (by omega) t (by omega)
    exact not_serializable_of_id hl (by rw [hid]; norm_num) (h s hs)
  · exact fun h s hs => serializable_of_range hE t h hs

/-- Four threads, ten records, twenty commits. -/
theorem serializable_four_threads : 1 ≤ 4 ∧ 3 ≤ 10 ∧
    ∀ s, (engine 4 10 20).Reachable s → Serializable 20 s :=
  ⟨by decide, by decide,
    (serializable_iff (by decide) (by decide) (by decide)).mpr (.inr (by norm_num))⟩

/-- Two threads with the largest `E` an `int` can hold: a late attempt is logged. -/
theorem not_serializable_max_int :
    ∃ s : State 2 3, (engine 2 3 (2 ^ 31 - 1)).Reachable s ∧ ¬ Serializable (2 ^ 31 - 1) s := by
  obtain ⟨s, hs, l, hl, hid⟩ := exists_negative_id (N := 2) (R := 3) (E := 2 ^ 31 - 1)
    (by decide) (by norm_num) 0 (by norm_num)
  exact ⟨s, hs, not_serializable_of_id hl (by rw [hid]; norm_num)⟩

end Multicore.Project2
