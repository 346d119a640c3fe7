import Multicore.Lib.Acyclic
import Multicore.Project2.Deadlock
import Multicore.Project2.RecordLocks

/-!
# The lock tables mirror each other

`Monitor` keeps the queues, `threadsInfo` and the dependency graph `dependThreads` side by side.
Edges enter the graph when a request is queued and leave it wholesale when their thread releases
anything, also after a deadlock, when edges of a request that was never queued are in the graph.

* `Tables` — the invariant.  A thread inside a release loop is exempt from the mirror: its edges
  may be ahead of the queues (a request that was refused) or behind them (the first release has
  removed them all).  `Pc.cleared` says that they have been removed, and when the loop ends the
  thread has no entry either;
* **`tables_mirror`** — while `global_mutex` is free, the graph is the blocking relation of the
  queues, it is acyclic, and `threadsInfo` lists the queue entries, each of which is there once;
* **`first_request_not_deadlock`** — the first request of an attempt is never refused, so that no
  thread comes back to its loop with `global_mutex` locked.
-/

namespace Multicore.Project2

open Relation QLock

variable {N R : ℕ} {E : ℤ} {s s' : State N R} {t u : Fin N} {x : Fin R}

/-! ## What the queues say -/

/-- In this queue an entry of `u` stands before an entry of `t`, and one of the two writes. -/
def Blocks (q : List (LockInfo N R)) (t u : Fin N) : Prop :=
  ∃ a b, [a, b].Sublist q ∧ a.tid = u ∧ b.tid = t ∧ (a.type ≠ .R ∨ b.type ≠ .R)

/-- Whom a thread has to wait for, read off the queues. -/
def State.WaitsFor (s : State N R) (t u : Fin N) : Prop :=
  ∃ x, Blocks (s.monitor.lockRequest x) t u

/-- Who stands in a queue, in order. -/
def clients (q : List (LockInfo N R)) : List (Client N) := q.map fun e => e.entry.1

lemma mem_clients {q : List (LockInfo N R)} {c : Client N} :
    c ∈ clients q ↔ ∃ e ∈ q, e.tid = c.1 ∧ e.type = c.2 := by
  simp [clients, LockInfo.entry, Prod.ext_iff]

/-- The flags of the entries do not matter for who blocks whom. -/
lemma blocks_iff_clients {q : List (LockInfo N R)} :
    Blocks q t u ↔ ∃ ty ty', [(u, ty), (t, ty')].Sublist (clients q) ∧ (ty ≠ .R ∨ ty' ≠ .R) := by
  constructor
  · rintro ⟨a, b, hsub, rfl, rfl, hty⟩
    exact ⟨a.type, b.type, hsub.map fun e : LockInfo N R => e.entry.1, hty⟩
  · rintro ⟨ty, ty', hsub, hty⟩
    obtain ⟨l, hl, heq⟩ := List.sublist_map_iff.mp hsub
    match l, heq with
    | [a, b], heq =>
        simp only [List.map_cons, List.map_nil, List.cons.injEq, LockInfo.entry, Prod.mk.injEq,
          and_true] at heq
        obtain ⟨⟨rfl, rfl⟩, rfl, rfl⟩ := heq
        exact ⟨a, b, hl, rfl, rfl, hty⟩

/-- Both threads of a blocking pair have an entry. -/
lemma Blocks.mem {q : List (LockInfo N R)} (h : Blocks q t u) :
    (∃ ty, (t, ty) ∈ clients q) ∧ ∃ ty, (u, ty) ∈ clients q := by
  obtain ⟨ty, ty', hsub, -⟩ := blocks_iff_clients.mp h
  exact ⟨⟨ty', hsub.subset (by simp)⟩, ⟨ty, hsub.subset (by simp)⟩⟩

/-- A new entry is blocked by the conflicting entries before it and blocks nobody. -/
lemma blocks_append {q : List (LockInfo N R)} {r : LockInfo N R} :
    Blocks (q ++ [r]) t u ↔ Blocks q t u ∨ t = r.tid ∧ u ∈ newDepend q r := by
  simp only [newDepend, List.mem_map, List.mem_filter, decide_eq_true_eq]
  constructor
  · rintro ⟨a, b, hsub, rfl, rfl, hty⟩
    rw [List.sublist_append_iff] at hsub
    obtain ⟨l₁, l₂, heq, h1, h2⟩ := hsub
    rcases List.sublist_singleton.mp h2 with rfl | rfl
    · exact .inl ⟨a, b, by rw [heq, List.append_nil]; exact h1, rfl, rfl, hty⟩
    · have hcons : [a] ++ [b] = l₁ ++ [r] := heq
      obtain ⟨rfl, hbr⟩ := List.append_inj' hcons rfl
      obtain rfl := (List.cons.inj hbr).1
      exact .inr ⟨rfl, a, ⟨List.singleton_sublist.mp h1, hty.symm⟩, rfl⟩
  · rintro (⟨a, b, hsub, ha, hb, hty⟩ | ⟨rfl, a, ⟨ha, hty⟩, rfl⟩)
    · exact ⟨a, b, hsub.trans (List.sublist_append_left _ _), ha, hb, hty⟩
    · exact ⟨a, r, (List.singleton_sublist.mpr ha).append (List.Sublist.refl [r]), rfl, rfl,
        hty.symm⟩

/-- Erasing an entry of another thread does not change who blocks whom. -/
lemma blocks_eraseP {q : List (LockInfo N R)} {r : LockInfo N R} (ht : t ≠ r.tid)
    (hu : u ≠ r.tid) : Blocks (q.eraseP fun e => e.same r) t u ↔ Blocks q t u := by
  constructor
  · rintro ⟨a, b, hsub, h⟩
    exact ⟨a, b, hsub.trans List.eraseP_sublist, h⟩
  · rintro ⟨a, b, hsub, rfl, rfl, hty⟩
    have hkeep : [a, b].eraseP (fun e => e.same r) = [a, b] := by
      refine List.eraseP_of_forall_not fun e he => ?_
      simp only [List.mem_cons, List.not_mem_nil, or_false] at he
      rw [Bool.not_eq_true, ← Bool.not_eq_true, LockInfo.same_iff]
      rcases he with rfl | rfl
      · exact fun h => hu h.2.2
      · exact fun h => ht h.2.2
    exact ⟨a, b, hkeep ▸ hsub.eraseP, rfl, rfl, hty⟩

/-! ## The invariant -/

/-- Is the thread inside a release loop? -/
def Pc.releasing : Pc N R → Bool
  | .release _ _ _ _ => true
  | _ => false

/-- Inside a release loop, after a `deleteLock`: the edges of the thread are gone. -/
def Pc.cleared : Pc N R → Bool
  | .release _ _ _ .erase => false
  | .release _ _ _ _ => true
  | _ => false

lemma Woken.releasing {th th' : Thread N R} (h : Woken th th') :
    th'.pc.releasing = th.pc.releasing := by
  cases h with
  | same => rfl
  | writer ty held h => rw [h]; rfl
  | reader ty held h => rw [h]; rfl

lemma Woken.cleared {th th' : Thread N R} (h : Woken th th') :
    th'.pc.cleared = th.pc.cleared := by
  cases h with
  | same => rfl
  | writer ty held h => rw [h]; rfl
  | reader ty held h => rw [h]; rfl

@[simp] lemma nextRelease_cleared (why : Why) (l : List (LockInfo N R)) :
    (nextRelease why l).cleared = false := by
  cases l <;> cases why <;> rfl

lemma Pc.releasing_inGlobal {pc : Pc N R} (h : pc.releasing = true) : pc.inGlobal = true := by
  cases pc <;> simp_all [Pc.releasing, Pc.inGlobal]

lemma Pc.releasing_of_cleared {pc : Pc N R} (h : pc.cleared = true) : pc.releasing = true := by
  cases pc <;> simp_all [Pc.releasing, Pc.cleared]

/-- The edges that count: those of threads outside a release loop. -/
def State.Edge (s : State N R) (a b : Fin N) : Prop :=
  b ∈ s.monitor.dependThreads a ∧ (s.thread a).pc.releasing = false

/-- The tables agree, up to the thread that is inside a release loop. -/
structure Tables (s : State N R) : Prop where
  /-- outside release loops the graph is the blocking relation -/
  depend : ∀ t u, (s.thread t).pc.releasing = false → (s.thread u).pc.releasing = false →
    (u ∈ s.monitor.dependThreads t ↔ s.WaitsFor t u)
  /-- after a `deleteLock` its thread has left the graph -/
  cleared : ∀ t, (s.thread t).pc.cleared = true →
    s.monitor.dependThreads t = ∅ ∧ ∀ u, t ∉ s.monitor.dependThreads u
  acyclic : Acyclic s.Edge
  info : ∀ t ty x, s.monitor.threadsInfo t ty = some x ↔
    (t, ty) ∈ clients (s.monitor.lockRequest x)

lemma tables_init (h : IsInit s) : Tables s := by
  obtain ⟨-, -, hm, -, hpc⟩ := h
  refine ⟨fun t u _ _ => ?_, fun t ht => ?_, ?_, fun t ty x => ?_⟩
  · simp [hm, Monitor.init, State.WaitsFor, Blocks]
  · simp [hpc t, Pc.cleared] at ht
  · refine Acyclic.of_rank (β := ℕ) (fun _ => 0) fun a b hab => ?_
    simp [State.Edge, hm, Monitor.init] at hab
  · simp [hm, Monitor.init, clients]

/-- The clients of a queue are those of its queued lock. -/
lemma view_clients (s : State N R) (x : Fin R) :
    (s.view x).queue.map Prod.fst = clients (s.monitor.lockRequest x) := by
  simp [clients, State.view]

/-- Who is in a queue, read off the program counters. -/
lemma LocksInv.mem_clients_iff (hs : LocksInv s) {ty : LockType} :
    (t, ty) ∈ clients (s.monitor.lockRequest x) ↔
      (s.thread t).index ty = x ∧ ((s.thread t).pc.phase ty).InQueue := by
  rw [← view_clients, (hs.lock x).queue.mem_iff]
  simp only [State.view, phaseAt]
  split_ifs with hx
  · simp [hx]
  · simp [hx, Phase.InQueue]

/-- A thread without a queued request is blocked by nobody and blocks nobody. -/
lemma LocksInv.not_waitsFor (hs : LocksInv s)
    (h : ∀ ty, ¬ ((s.thread t).pc.phase ty).InQueue) (u : Fin N) :
    ¬ s.WaitsFor t u ∧ ¬ s.WaitsFor u t := by
  refine ⟨fun ⟨x, hx⟩ => ?_, fun ⟨x, hx⟩ => ?_⟩
  · obtain ⟨ty, hty⟩ := hx.mem.1
    exact h ty (hs.mem_clients_iff.mp hty).2
  · obtain ⟨ty, hty⟩ := hx.mem.2
    exact h ty (hs.mem_clients_iff.mp hty).2

/-- The thread in a critical section of `global_mutex` is the only one that can be releasing. -/
lemma Base.not_releasing (hb : Base s) (ht : (s.thread t).pc.inGlobal = true) (hu : u ≠ t) :
    (s.thread u).pc.releasing = false := by
  by_contra hrel
  have h1 := hb.global u (Pc.releasing_inGlobal (Bool.eq_true_of_not_eq_false hrel))
  rw [hb.global t ht] at h1
  exact hu (Option.some.inj h1).symm

/-- The moves that leave graph and queues alone, up to flags.  A thread that leaves its release
loop has left the graph before and has no entry any more. -/
lemma Tables.keep (h : Tables s) (hw : ∀ u, u ≠ t → Woken (s.thread u) (s'.thread u))
    (hq : ∀ x, clients (s'.monitor.lockRequest x) = clients (s.monitor.lockRequest x))
    (hd : s'.monitor.dependThreads = s.monitor.dependThreads)
    (hi : s'.monitor.threadsInfo = s.monitor.threadsInfo)
    (hc : (s'.thread t).pc.cleared = true → (s.thread t).pc.cleared = true)
    (hend : (s.thread t).pc.releasing = true → (s'.thread t).pc.releasing = false →
      (s.thread t).pc.cleared = true ∧ ∀ u, ¬ s'.WaitsFor t u ∧ ¬ s'.WaitsFor u t) :
    Tables s' := by
  have hwait : ∀ a b, s'.WaitsFor a b ↔ s.WaitsFor a b := fun a b => by
    simp only [State.WaitsFor, blocks_iff_clients, hq]
  -- outside `t` nobody enters or leaves a release loop
  have hleft : ∀ a, (s'.thread a).pc.releasing = false → (s.thread a).pc.releasing = true →
      a = t := by
    intro a ha' ha
    by_contra hat
    rw [(hw a hat).releasing, ha] at ha'
    exact Bool.noConfusion ha'
  refine ⟨fun a b ha hb => ?_, fun a ha => ?_, ?_, fun a ty x => ?_⟩
  · rw [hd]
    cases hra : (s.thread a).pc.releasing with
    | true =>
        obtain rfl := hleft a ha hra
        obtain ⟨hcl, hno⟩ := hend hra ha
        simp [(h.cleared a hcl).1, (hno b).1]
    | false =>
        cases hrb : (s.thread b).pc.releasing with
        | true =>
            obtain rfl := hleft b hb hrb
            obtain ⟨hcl, hno⟩ := hend hrb hb
            simp [(h.cleared b hcl).2 a, (hno a).2]
        | false => rw [h.depend a b hra hrb, hwait]
  · rw [hd]
    refine h.cleared a ?_
    by_cases hat : a = t
    · subst hat
      exact hc ha
    · rw [← (hw a hat).cleared]
      exact ha
  · refine h.acyclic.of_le fun a b hab => ?_
    obtain ⟨hab, ha⟩ := hab
    rw [hd] at hab
    refine ⟨hab, Bool.eq_false_of_not_eq_true fun hra => ?_⟩
    obtain rfl := hleft a ha hra
    rw [(h.cleared a (hend hra ha).1).1] at hab
    simp at hab
  · rw [hi, hq]
    exact h.info a ty x

/-! ## Requests -/

/-- Who waits for whom after a request has been queued. -/
lemma exists_blocks_update {lr : Fin R → List (LockInfo N R)} {r : LockInfo N R} {a b : Fin N} :
    (∃ x, Blocks (Function.update lr r.index (lr r.index ++ [r]) x) a b) ↔
      (∃ x, Blocks (lr x) a b) ∨ a = r.tid ∧ b ∈ newDepend (lr r.index) r := by
  constructor
  · rintro ⟨x, hx⟩
    rw [Function.update_apply] at hx
    split_ifs at hx with hr
    · exact (blocks_append.mp hx).imp_left fun h => ⟨r.index, h⟩
    · exact .inl ⟨x, hx⟩
  · rintro (⟨x, hx⟩ | h)
    · refine ⟨x, ?_⟩
      rw [Function.update_apply]
      split_ifs with hr
      · exact blocks_append.mpr (.inl (hr ▸ hx))
      · exact hx
    · refine ⟨r.index, ?_⟩
      rw [Function.update_self]
      exact blocks_append.mpr (.inr h)

/-- A request is queued: its edges are new, and they close no cycle. -/
lemma Tables.enqueue (h : Tables s) (hs : LocksInv s) {ty : LockType}
    (hpc : (s.thread t).pc = .check ty)
    (hst : (s.monitor.deadlockCheck ((s.thread t).req t ty)).1 ≠ .deadlock) {pc : Pc N R}
    (hrel : pc.releasing = false) :
    Tables ((s.setMonitor (s.monitor.deadlockCheck ((s.thread t).req t ty)).2).setPc t pc) := by
  have hin : (s.thread t).pc.inGlobal = true := by rw [hpc]; rfl
  have hnot : ∀ a, (s.thread a).pc.releasing = false := fun a => by
    by_cases hat : a = t
    · rw [hat, hpc]; rfl
    · exact hs.base.not_releasing hin hat
  refine ⟨fun a b _ _ => ?_, fun a ha => ?_, ?_, fun a ty' x => ?_⟩
  · simp only [State.setPc_monitor, State.setMonitor_monitor, State.WaitsFor,
      Monitor.deadlockCheck_dependThreads, Monitor.deadlockCheck_queue _ _ hst]
    rw [Monitor.mem_addDepend, exists_blocks_update, h.depend a b (hnot a) (hnot b)]
    rfl
  · -- nobody is inside a release loop while a request is checked
    have hrel' := Pc.releasing_of_cleared ha
    simp only [State.setPc_thread, State.setMonitor_thread, Function.update_apply] at hrel'
    split_ifs at hrel'
    · rw [hrel] at hrel'
      exact Bool.noConfusion hrel'
    · rw [hnot a] at hrel'
      exact Bool.noConfusion hrel'
  · refine h.acyclic.of_edges_from (t := t) (fun a b hab hat => ⟨?_, hnot a⟩) fun hcyc => hst ?_
    · have hab := hab.1
      simp only [State.setPc_monitor, State.setMonitor_monitor,
        Monitor.deadlockCheck_dependThreads, Monitor.mem_addDepend] at hab
      exact hab.resolve_right fun h => hat h.1
    · refine (Monitor.deadlockCheck_iff _ _).mpr (TransGen.mono (fun a b hab => ?_) _ _ hcyc)
      rw [DependsOn, ← Monitor.deadlockCheck_dependThreads]
      exact hab.1
  · simp only [State.setPc_monitor, State.setMonitor_monitor,
      Monitor.deadlockCheck_queue_info _ _ hst, Monitor.deadlockCheck_queue _ _ hst]
    have habs : ∀ y, (t, ty) ∉ clients (s.monitor.lockRequest y) := fun y hy => by
      have := (hs.mem_clients_iff.mp hy).2
      rw [hpc, show (Pc.check ty : Pc N R).phase ty = .absent from phaseUpTo_self ty _] at this
      exact this
    have hq : ∀ c : Client N, c ∈ clients (Function.update s.monitor.lockRequest
        ((s.thread t).index ty) (s.monitor.lockRequest ((s.thread t).index ty)
          ++ [(s.thread t).req t ty]) x) ↔
        c ∈ clients (s.monitor.lockRequest x) ∨ (s.thread t).index ty = x ∧ c = (t, ty) := by
      intro c
      rw [Function.update_apply]
      split_ifs with hx
      · simp [clients, hx, LockInfo.entry, Thread.req]
      · simp [clients, Ne.symm hx]
    refine Iff.trans ?_ (hq (a, ty')).symm
    by_cases hat : a = t ∧ ty' = ty
    · obtain ⟨rfl, rfl⟩ := hat
      simp [Thread.req, habs]
    · have hne : (a, ty') ≠ (t, ty) := by simpa [Prod.ext_iff] using hat
      have hold : Function.update s.monitor.threadsInfo ((s.thread t).req t ty).tid
          (Function.update (s.monitor.threadsInfo ((s.thread t).req t ty).tid)
            ((s.thread t).req t ty).type (some ((s.thread t).req t ty).index)) a ty'
          = s.monitor.threadsInfo a ty' := by
        simp only [Thread.req, Function.update_apply]
        split_ifs with ha
        · rw [Function.update_apply, if_neg fun h => hat ⟨ha, h⟩, ha]
        · rfl
      rw [hold, h.info]
      simp [hne]

/-- **The first request of an attempt closes no cycle**: its thread has no entry, so nobody
depends on it. -/
theorem Tables.first_request (h : Tables s) (hs : LocksInv s) (hpc : (s.thread t).pc = .check .R) :
    (s.monitor.deadlockCheck ((s.thread t).req t .R)).1 ≠ .deadlock := by
  intro hd
  have hin : (s.thread t).pc.inGlobal = true := by rw [hpc]; rfl
  have hnone : ∀ ty, ¬ ((s.thread t).pc.phase ty).InQueue := fun ty => by
    rw [hpc]
    cases ty <;> simp [Pc.phase, phaseUpTo, LockType.earlier, Phase.InQueue]
  have hnot : ∀ a, (s.thread a).pc.releasing = false := fun a => by
    by_cases hat : a = t
    · rw [hat, hpc]; rfl
    · exact hs.base.not_releasing hin hat
  obtain ⟨a, -, hat⟩ := TransGen.tail'_iff.mp ((Monitor.deadlockCheck_iff _ _).mp hd)
  rcases (Monitor.mem_addDepend _ _).mp hat with hat | ⟨-, hat⟩
  · exact (hs.not_waitsFor hnone a).2 ((h.depend a t (hnot a) (hnot t)).mp hat)
  · simp only [newDepend, List.mem_map, List.mem_filter] at hat
    obtain ⟨e, ⟨he, -⟩, hte⟩ := hat
    exact hnone e.type (hs.mem_clients_iff.mp (mem_clients.mpr ⟨e, he, hte, rfl⟩)).2

/-- A refused request leaves edges behind, all of them at a thread that starts to release. -/
lemma Tables.refuse (h : Tables s) (hs : LocksInv s) {ty : LockType}
    (hpc : (s.thread t).pc = .check ty)
    (hst : (s.monitor.deadlockCheck ((s.thread t).req t ty)).1 = .deadlock)
    (hw : ∀ u, u ≠ t → s'.thread u = s.thread u)
    (hq : s'.monitor.lockRequest = s.monitor.lockRequest)
    (hd : s'.monitor.dependThreads
      = (s.monitor.addDepend ((s.thread t).req t ty)).dependThreads)
    (hi : s'.monitor.threadsInfo = s.monitor.threadsInfo)
    (hpc' : (s'.thread t).pc = nextRelease .abort (s.thread t).havingLocks) : Tables s' := by
  have hin : (s.thread t).pc.inGlobal = true := by rw [hpc]; rfl
  have hrel : (s'.thread t).pc.releasing = true := by
    rw [hpc', (hs.base.own t).having ty.earlier (by rw [hpc]; rfl)]
    cases ty with
    | R => exact absurd hst (h.first_request hs hpc)
    | W1 => rfl
    | W2 => rfl
  have hother : ∀ a, (s'.thread a).pc.releasing = false → a ≠ t := by
    rintro a ha rfl
    rw [hrel] at ha
    exact Bool.noConfusion ha
  have hedge : ∀ a b, a ≠ t →
      (b ∈ s'.monitor.dependThreads a ↔ b ∈ s.monitor.dependThreads a) := fun a b hat => by
    rw [hd, Monitor.mem_addDepend]
    exact or_iff_left fun h => hat h.1
  refine ⟨fun a b ha hb => ?_, fun a ha => ?_, h.acyclic.of_le fun a b hab => ?_, fun a ty' x => ?_⟩
  · have hat := hother a ha
    rw [hedge a b hat, State.WaitsFor, hq]
    rw [hw a hat] at ha
    rw [hw b (hother b hb)] at hb
    exact h.depend a b ha hb
  · by_cases hat : a = t
    · rw [hat, hpc', nextRelease_cleared] at ha
      exact Bool.noConfusion ha
    · rw [hw a hat] at ha
      have := hs.base.not_releasing hin hat
      rw [Pc.releasing_of_cleared ha] at this
      exact Bool.noConfusion this
  · have hat := hother a hab.2
    exact ⟨(hedge a b hat).mp hab.1, hw a hat ▸ hab.2⟩
  · rw [hi, hq]
    exact h.info a ty' x

/-! ## Releases -/

/-- Erasing an entry leaves the other ones. -/
lemma mem_clients_eraseP {q : List (LockInfo N R)} {r : LockInfo N R} {c : Client N}
    (hc : c ≠ (r.tid, r.type)) : c ∈ clients (q.eraseP fun e => e.same r) ↔ c ∈ clients q := by
  simp only [mem_clients]
  constructor
  · rintro ⟨e, he, hec⟩
    exact ⟨e, List.mem_of_mem_eraseP he, hec⟩
  · rintro ⟨e, he, hec⟩
    refine ⟨e, (List.mem_eraseP_of_neg fun hsame => hc ?_).mpr he, hec⟩
    obtain ⟨-, hty, htid⟩ := LockInfo.same_iff.mp hsame
    exact Prod.ext (hec.1.symm.trans htid) (hec.2.symm.trans hty)

/-- A release takes its thread out of the graph and its entry out of the queue. -/
lemma Tables.erase (h : Tables s) (hs : LocksInv s) {why : Why} {r : LockInfo N R}
    {rest : List (LockInfo N R)} (hpc : (s.thread t).pc = .release why r rest .erase)
    (hs' :
      LocksInv ((s.setMonitor (s.monitor.deleteLock r)).setPc t (.release why r rest .mutex))) :
    Tables ((s.setMonitor (s.monitor.deleteLock r)).setPc t (.release why r rest .mutex)) := by
  have hin : (s.thread t).pc.inGlobal = true := by rw [hpc]; rfl
  have htid : r.tid = t := (hs.base.own t).release_tid hpc
  set s' := (s.setMonitor (s.monitor.deleteLock r)).setPc t (.release why r rest .mutex) with hdef
  have hw : ∀ a, a ≠ t → s'.thread a = s.thread a := fun a hat => Function.update_of_ne hat _ _
  have hself : (s'.thread t).pc = .release why r rest .mutex := by
    rw [hdef, State.setPc_thread, Function.update_self]
  have hother : ∀ a, (s'.thread a).pc.releasing = false → a ≠ t := by
    rintro a ha rfl
    rw [hself] at ha
    exact Bool.noConfusion ha
  have hq : s'.monitor.lockRequest = Function.update s.monitor.lockRequest r.index
      ((s.monitor.lockRequest r.index).eraseP fun e => e.same r) := rfl
  have hd : ∀ a, s'.monitor.dependThreads a
      = if a = t then ∅ else (s.monitor.dependThreads a).erase t := fun a => by
    rw [← htid]; rfl
  have hedge : ∀ a b, a ≠ t → b ≠ t →
      (b ∈ s'.monitor.dependThreads a ↔ b ∈ s.monitor.dependThreads a) := fun a b hat hbt => by
    rw [hd, if_neg hat, Finset.mem_erase]
    exact and_iff_right hbt
  refine ⟨fun a b ha hb => ?_, fun a ha => ?_, h.acyclic.of_le fun a b hab => ?_, fun a ty x => ?_⟩
  · have hat := hother a ha
    have hbt := hother b hb
    have hwait : s'.WaitsFor a b ↔ s.WaitsFor a b := by
      refine exists_congr fun x => ?_
      rw [hq, Function.update_apply]
      split_ifs with hx
      · rw [hx]
        exact blocks_eraseP (htid ▸ hat) (htid ▸ hbt)
      · rfl
    rw [hedge a b hat hbt, hwait]
    rw [hw a hat] at ha
    rw [hw b hbt] at hb
    exact h.depend a b ha hb
  · by_cases hat : a = t
    · subst hat
      refine ⟨by rw [hd, if_pos rfl], fun u => ?_⟩
      rw [hd]
      split_ifs <;> simp
    · rw [hw a hat] at ha
      have := hs.base.not_releasing hin hat
      rw [Pc.releasing_of_cleared ha] at this
      exact Bool.noConfusion this
  · have hat := hother a hab.2
    have hab' := hab.1
    rw [hd, if_neg hat] at hab'
    exact ⟨Finset.mem_of_mem_erase hab', hw a hat ▸ hab.2⟩
  · have hi : s'.monitor.threadsInfo = Function.update s.monitor.threadsInfo r.tid
        (Function.update (s.monitor.threadsInfo r.tid) r.type none) := rfl
    rw [hi]
    by_cases hat : a = r.tid ∧ ty = r.type
    · obtain ⟨rfl, rfl⟩ := hat
      rw [Function.update_self, Function.update_self, hs'.mem_clients_iff, htid, hself]
      simp [Pc.phase, Unlock.phase, Phase.InQueue]
    · have hold : Function.update s.monitor.threadsInfo r.tid
          (Function.update (s.monitor.threadsInfo r.tid) r.type none) a ty
          = s.monitor.threadsInfo a ty := by
        rw [Function.update_apply]
        split_ifs with ha
        · rw [Function.update_apply, if_neg fun h => hat ⟨ha, h⟩, ha]
        · rfl
      rw [hold, h.info, hq, Function.update_apply]
      split_ifs with hx
      · rw [hx]
        exact (mem_clients_eraseP fun h => hat (Prod.ext_iff.mp h)).symm
      · rfl

/-- The release loop goes on: at its end the thread has no entry left. -/
lemma Tables.next (h : Tables s) (hs' : LocksInv s')
    (hw : ∀ u, u ≠ t → Woken (s.thread u) (s'.thread u)) (hm : s'.monitor = s.monitor)
    {why : Why} {r : LockInfo N R} {rest : List (LockInfo N R)} {un : Unlock}
    (hpc : (s.thread t).pc = .release why r rest un) (hun : un ≠ .erase)
    (hpc' : (s'.thread t).pc = nextRelease why rest) : Tables s' := by
  have hcl : (s.thread t).pc.cleared = true := by
    rw [hpc]
    cases un <;> first | rfl | exact absurd rfl hun
  refine h.keep hw (by simp [hm]) (by rw [hm]) (by rw [hm]) (by simp [hpc'])
    fun _ hrel => ⟨hcl, hs'.not_waitsFor fun ty => ?_⟩
  rw [hpc'] at hrel ⊢
  cases rest with
  | nil => cases why <;> simp [nextRelease, Pc.phase, Phase.InQueue]
  | cons r' rest => exact Bool.noConfusion hrel

/-! ## Every run -/

/-- Setting a flag changes no client. -/
lemma clients_setGetLock (m : Monitor N R) (r : LockInfo N R) (x : Fin R) :
    clients ((m.setGetLock r).lockRequest x) = clients (m.lockRequest x) := by
  simp only [Monitor.setGetLock, Function.update_apply]
  split_ifs with hx
  · rw [hx, clients, clients, List.map_map]
    refine List.map_congr_left fun e _ => ?_
    simp only [Function.comp_apply]
    split_ifs <;> rfl
  · rfl

/-- The lock tables are the same, up to the flags of the queue entries. -/
structure SameTables (s s' : State N R) : Prop where
  clients : ∀ x, clients (s'.monitor.lockRequest x) = Project2.clients (s.monitor.lockRequest x)
  depend : s'.monitor.dependThreads = s.monitor.dependThreads
  info : s'.monitor.threadsInfo = s.monitor.threadsInfo

/-- The tables change when a request is checked and when an entry is erased, and at no other
moment. -/
lemma Move.sameTables (hm : Move E s t s') (hc : ∀ ty, (s.thread t).pc ≠ .check ty)
    (he : ∀ why r rest, (s.thread t).pc ≠ .release why r rest .erase) : SameTables s s' := by
  cases hm
  case deadlock ty hpc hst => exact absurd hpc (hc ty)
  case waiting ty hpc hst => exact absurd hpc (hc ty)
  case get ty hpc hst => exact absurd hpc (hc ty)
  case erase why r rest hpc => exact absurd hpc (he why r rest)
  case notifyOne => exact ⟨by simp, by simp, by simp⟩
  case flag ty held hpc => exact ⟨fun x => clients_setGetLock _ _ x, rfl, rfl⟩
  case commit hpc => exact ⟨by simp, by simp, by simp⟩
  all_goals exact ⟨fun _ => rfl, rfl, rfl⟩

/-- Outside the critical sections of `global_mutex` nobody changes the tables. -/
lemma Move.sameTables_of_not_inGlobal (hm : Move E s t s')
    (hg : (s.thread t).pc.inGlobal = false) : SameTables s s' := by
  refine hm.sameTables (fun ty hpc => ?_) fun why r rest hpc => ?_ <;>
    · rw [hpc] at hg
      exact Bool.noConfusion hg

/-- **Every move keeps the tables in agreement.** -/
theorem Tables.move (h : Tables s) (hs : LocksInv s) (hm : Move E s t s') : Tables s' := by
  have hs' : LocksInv s' := hs.move hm
  have hw : ∀ u, u ≠ t → Woken (s.thread u) (s'.thread u) := fun u hu => hm.woken hu
  cases hm
  case waiting ty hpc hst => exact h.enqueue hs hpc (by simp [hst]) rfl
  case get ty hpc hst => exact h.enqueue hs hpc (by simp [hst]) rfl
  case deadlock ty hpc hst =>
    have hq := Monitor.deadlockCheck_deadlock _ _ hst
    have hi := Monitor.deadlockCheck_deadlock_info _ _ hst
    have hd := Monitor.deadlockCheck_dependThreads s.monitor ((s.thread t).req t ty)
    cases ty with
    | R => exact absurd hst (h.first_request hs hpc)
    | W1 =>
        exact h.refuse hs hpc hst (fun u hu => Function.update_of_ne hu _ _) hq hd hi
          (by simp [onDeadlock])
    | W2 =>
        exact h.refuse hs hpc hst (fun u hu => Function.update_of_ne hu _ _) hq hd hi
          (by simp [onDeadlock])
  case erase why r rest hpc => exact h.erase hs hpc hs'
  case notifyOne why r rest n w u hpc hw' hn hu =>
    exact h.next hs' hw (by simp) hpc (by simp) (by simp)
  case notifyNone why r rest n w hpc hw' hu =>
    exact h.next hs' hw (by simp) hpc (by simp) (by simp)
  case notifyAll why r rest un hpc hun =>
    exact h.next hs' hw (by simp) hpc (by rcases hun with rfl | ⟨n, rfl⟩ <;> simp) (by simp)
  case flag ty held hpc =>
    refine h.keep hw (fun x => clients_setGetLock _ _ x) rfl rfl ?_ ?_
    · cases held <;> simp [Pc.cleared]
    · simp [hpc, Pc.releasing]
  case commit hpc =>
    refine h.keep hw (by simp) (by simp) (by simp) ?_ (by simp [hpc, Pc.releasing])
    rcases commitPc_cases E s with hq | hq <;> simp [hq, Pc.cleared]
  case lockCommit hpc hg =>
    exact h.keep hw (fun x => rfl) rfl rfl (by simp) (by simp [hpc, Pc.releasing])
  case unlockShared why r rest hpc hty hm =>
    exact h.keep hw (fun x => rfl) rfl rfl (by simp [hpc, Pc.cleared]) (by simp [Pc.releasing])
  case unlockExclusive why r rest hpc hty hm =>
    exact h.keep hw (fun x => rfl) rfl rfl (by simp [hpc, Pc.cleared]) (by simp [Pc.releasing])
  all_goals
    exact h.keep hw (fun x => rfl) rfl rfl (by simp [Pc.cleared])
      (by simp [‹(s.thread t).pc = _›, Pc.releasing])

theorem tables_of_reachable (hs : (engine N R E).Reachable s) : Tables s := by
  have key : LocksInv s ∧ Tables s :=
    Machine.Run.invariant (I := fun s => LocksInv s ∧ Tables s)
      (fun _ h => ⟨locksInv_init h, tables_init h⟩)
      (fun _ _ _ _ hi _ hstep => ⟨hi.1.move (move_of_step hstep),
        hi.2.move hi.1 (move_of_step hstep)⟩) s hs
  exact key.2

/-- The three tables say the same. -/
structure TablesMirror (s : State N R) : Prop where
  /-- the dependency graph is the blocking relation of the queues … -/
  depend : ∀ t u, u ∈ s.monitor.dependThreads t ↔ s.WaitsFor t u
  /-- … and has no cycle -/
  acyclic : Acyclic (DependsOn s.monitor.dependThreads)
  /-- `threads_info` lists the entries of the queues -/
  info : ∀ t ty x, s.monitor.threadsInfo t ty = some x ↔
    ∃ e ∈ s.monitor.lockRequest x, e.same ⟨x, ty, t, false⟩ = true
  once : ∀ t ty x, s.monitor.threadsInfo t ty = some x →
    (s.monitor.lockRequest x).countP (·.same ⟨x, ty, t, false⟩) = 1

/-- While `global_mutex` is free nobody is inside a release loop. -/
lemma Base.not_releasing_of_free (hb : Base s) (hg : s.globalMutex = none) (u : Fin N) :
    (s.thread u).pc.releasing = false := by
  by_contra hrel
  have := hb.global u (Pc.releasing_inGlobal (Bool.eq_true_of_not_eq_false hrel))
  simp [hg] at this

/-- **The lock tables mirror each other** in every reachable state in which `global_mutex` is
free. -/
theorem tables_mirror (hs : (engine N R E).Reachable s) (hg : s.globalMutex = none) :
    TablesMirror s := by
  have hinv := locksInv_of_reachable hs
  have htab := tables_of_reachable hs
  have hnot := hinv.base.not_releasing_of_free hg
  have hsame : ∀ x ty t, ∀ e ∈ s.monitor.lockRequest x,
      (e.same ⟨x, ty, t, false⟩ = true ↔ e.entry.1 = (t, ty)) := fun x ty t e he =>
    same_iff_client (hinv.base.index x e he)
  refine ⟨fun t u => htab.depend t u (hnot t) (hnot u), ?_, fun t ty x => ?_, fun t ty x h => ?_⟩
  · exact htab.acyclic.of_le fun a b hab => ⟨hab, hnot a⟩
  · rw [htab.info, clients, List.mem_map]
    exact exists_congr fun e => and_congr_right fun he => (hsame x ty t e he).symm
  · -- the clients of a queue are distinct
    have hnd : (clients (s.monitor.lockRequest x)).Nodup := by
      have := (hinv.lock x).queue.nodup
      rwa [State.view, List.map_map] at this
    have hcount := List.count_eq_one_of_mem hnd ((htab.info t ty x).mp h)
    rw [clients, List.count, List.countP_map] at hcount
    rw [← hcount]
    refine List.countP_congr fun e he => ?_
    simpa using hsame x ty t e he

/-- Thread `0` writes record `1`, and thread `1` waits for it as a reader. -/
theorem tables_mirror_reader_waits : ∃ s : State 2 3, (engine 2 3 5).Reachable s ∧
    s.globalMutex = none ∧ 0 ∈ s.monitor.dependThreads 1 ∧ s.monitor.threadsInfo 1 .R = some 1 ∧
    TablesMirror s := by
  obtain ⟨s, hs, hp⟩ := Machine.exists_reachable_of_exec (M := engine 2 3 5)
    (State.start_isInit 2 3)
    (Act.start 0 0 1 2 ++ Act.go 0 20 ++ Act.start 1 1 0 2 ++ Act.go 1 3)
    (fun s => s.globalMutex = none ∧ 0 ∈ s.monitor.dependThreads 1 ∧
      s.monitor.threadsInfo 1 .R = some 1) (by decide +kernel)
  obtain ⟨hg, hd, hi⟩ := of_decide_eq_true hp
  exact ⟨s, hs, hg, hd, hi, tables_mirror hs hg⟩

/-! ## The first request of an attempt -/

/-- Whoever has `global_mutex` is inside one of its critical sections. -/
lemma inGlobal_of_global (hs : (engine N R E).Reachable s) :
    ∀ t, s.globalMutex = some t → (s.thread t).pc.inGlobal = true := by
  refine Machine.Run.invariant
    (I := fun s => ∀ t, s.globalMutex = some t → (s.thread t).pc.inGlobal = true)
    (fun s h0 t ht => ?_) (fun s a s' hr hi _ hstep t ht => ?_) s hs
  · rw [h0.2.1] at ht
    simp at ht
  · have hm := move_of_step hstep
    rcases hm.global with hmutex | ⟨⟨hpc, hd⟩, -⟩
    · have key := MutexStep.claimed (fun u => (s.thread u).global) (fun u => (s'.thread u).global)
        hmutex (fun u _ hu => by simp [Thread.global, hi u hu])
        (fun u hu => by simp [Thread.global, (hm.woken hu).inGlobal]) t () ht
      simpa [Thread.global] using key
    · -- the answer that forgets `global_mutex` is never given
      exact absurd hd ((tables_of_reachable hr).first_request (locksInv_of_reachable hr) hpc)

/-- **The first request of an attempt is never answered with `deadlock`**, however many attempts
of its thread came before.  So a thread at the head of its loop does not own `global_mutex`, and
no queue has an entry of it. -/
theorem first_request_not_deadlock (hs : (engine N R E).Reachable s) :
    (∀ t, (s.thread t).pc = .check .R →
      (s.monitor.deadlockCheck ((s.thread t).req t .R)).1 ≠ .deadlock) ∧
    ∀ t, (s.thread t).pc = .loop →
      s.globalMutex ≠ some t ∧ ∀ x, ∀ e ∈ s.monitor.lockRequest x, e.tid ≠ t := by
  have hinv := locksInv_of_reachable hs
  refine ⟨fun t hpc => (tables_of_reachable hs).first_request hinv hpc, fun t hpc => ⟨?_, ?_⟩⟩
  · intro hg
    have := inGlobal_of_global hs t hg
    rw [hpc] at this
    exact Bool.noConfusion this
  · rintro x e he rfl
    have := (hinv.mem_clients_iff.mp (mem_clients.mpr ⟨e, he, rfl, rfl⟩)).2
    rw [hpc] at this
    exact this

/-- Thread `0` has committed once and asks for record `1`, which thread `1` writes. -/
theorem first_request_not_deadlock_after_commit : ∃ s : State 2 3, (engine 2 3 5).Reachable s ∧
    s.globalExecutionOrder = 1 ∧ (s.thread 0).pc = .check .R ∧ (s.thread 0).i = 1 ∧
    s.monitor.lockRequest 1 ≠ [] ∧
    (s.monitor.deadlockCheck ((s.thread 0).req 0 .R)).1 ≠ .deadlock := by
  obtain ⟨s, hs, hp⟩ := Machine.exists_reachable_of_exec (M := engine 2 3 5)
    (State.start_isInit 2 3)
    (List.flatten [Act.start 0 0 1 2, Act.go 0 43, Act.start 1 0 1 2, Act.go 1 20,
      Act.start 0 1 0 2, Act.go 0 1])
    (fun s => s.globalExecutionOrder = 1 ∧ (s.thread 0).pc = .check .R ∧ (s.thread 0).i = 1 ∧
      s.monitor.lockRequest 1 ≠ []) (by decide +kernel)
  obtain ⟨ho, hpc, hi, hq⟩ := of_decide_eq_true hp
  exact ⟨s, hs, ho, hpc, hi, hq, (first_request_not_deadlock hs).1 0 hpc⟩

end Multicore.Project2
