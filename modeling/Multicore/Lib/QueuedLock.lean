import Mathlib.Data.Fintype.Card
import Mathlib.Tactic

/-!
# A reader–writer lock with an external queue

The abstract counterpart of a lock whose admission is decided by three pieces of state that are
changed at different moments: a queue of requests that lives *outside* the lock, a reader count
and a writer flag that live behind the lock's mutex, and a flag per queue entry that is set only
after the lock has been handed out.  Clients are an arbitrary finite type `κ`, split into readers
and writers; each goes through the phases of `Phase`.

* `QLock.Step` — what one client can do in one atomic step.  The mutex is not a field: a phase
  says whether the client holds it (`Phase.HoldsMtx`), and a step that takes it asks that nobody
  does.
* `QLock.Inv` — the invariant, and **`QLock.Inv.step`**: every step keeps it.
* **`QLock.Inv.exclusive`** — two clients that are past the gate for good never conflict;
  `QLock.QueueInv.first` says that a granted client has no conflicting entry before it.
* `QLock.Inv.not_writing_of_clear` — a client for which the queue is clear meets the writer flag
  only while a released writer has not lowered it yet.
-/

namespace Multicore

/-- How far a client is with its request. -/
inductive Phase
  /-- no request -/
  | absent
  /-- in the queue, not holding the mutex -/
  | queued
  /-- holds the mutex, the queue not examined or found blocked -/
  | checking
  /-- holds the mutex, the queue was clear -/
  | checked
  /-- holds the mutex, the writer flag was down as well -/
  | passed
  /-- a writer that has raised the flag and holds the mutex -/
  | draining
  /-- a writer that has raised the flag and waits for the readers -/
  | gated
  /-- has the lock -/
  | granted
  /-- has left the queue, has not yet undone its share of the lock state -/
  | erased
  deriving DecidableEq

namespace Phase

/-- Phases in which the request stands in the queue. -/
def InQueue : Phase → Prop
  | absent | erased => False
  | _ => True

/-- Phases in which the client holds the mutex. -/
def HoldsMtx : Phase → Prop
  | checking | checked | passed | draining => True
  | _ => False

/-- Phases in which a writer's flag is up. -/
def Raised : Phase → Prop
  | draining | gated | granted | erased => True
  | _ => False

/-- Phases in which the client has the lock, or has not yet given all of it back. -/
def Holds : Phase → Prop
  | granted | erased => True
  | _ => False

/-- Phases that are entered only when the queue is clear. -/
def NeedsClear : Phase → Prop
  | checked | passed | draining | gated => True
  | _ => False

instance : DecidablePred InQueue := fun p => by cases p <;> unfold InQueue <;> infer_instance
instance : DecidablePred HoldsMtx := fun p => by cases p <;> unfold HoldsMtx <;> infer_instance
instance : DecidablePred Raised := fun p => by cases p <;> unfold Raised <;> infer_instance
instance : DecidablePred Holds := fun p => by cases p <;> unfold Holds <;> infer_instance

lemma Holds.raised {p : Phase} (h : p.Holds) : p.Raised := by
  cases p <;> simp_all [Holds, Raised]

lemma NeedsClear.inQueue {p : Phase} (h : p.NeedsClear) : p.InQueue := by
  cases p <;> simp_all [NeedsClear, InQueue]

end Phase

/-- The lock: the queue with the flag of each entry, the reader count, the writer flag, and how
far each client is. -/
structure QLock (κ : Type*) where
  queue : List (κ × Bool)
  numReader : ℤ
  writing : Bool
  phase : κ → Phase

namespace QLock

variable {κ : Type*} [DecidableEq κ] {reader : κ → Prop}

/-! ## What stands before a client -/

/-- The entries before the one of `c`. -/
def before (q : List (κ × Bool)) (c : κ) : List (κ × Bool) := q.takeWhile fun e => e.1 ≠ c

/-- The queue lets `c` through: only readers before a reader, and before a writer only readers
that already have the lock. -/
def Clear (reader : κ → Prop) (q : List (κ × Bool)) (c : κ) : Prop :=
  ∀ e ∈ before q c, reader e.1 ∧ (¬ reader c → e.2 = true)

/-- Two clients conflict unless both read. -/
def Conflict (reader : κ → Prop) (c d : κ) : Prop := ¬ (reader c ∧ reader d)

/-- Nothing that conflicts with `c` stands before it. -/
def NoConflict (reader : κ → Prop) (q : List (κ × Bool)) (c : κ) : Prop :=
  ∀ e ∈ before q c, ¬ Conflict reader e.1 c

@[simp] lemma before_nil (c : κ) : before ([] : List (κ × Bool)) c = [] := rfl

lemma before_cons (e : κ × Bool) (q : List (κ × Bool)) (c : κ) :
    before (e :: q) c = if e.1 = c then [] else e :: before q c := by
  by_cases h : e.1 = c <;> simp [before, h]

lemma before_subset (q : List (κ × Bool)) (c : κ) : before q c ⊆ q :=
  fun _ h => (List.takeWhile_prefix _).subset h

/-- A new entry at the end stands before nobody that is already queued. -/
lemma before_append {q : List (κ × Bool)} {c : κ} (h : c ∈ q.map Prod.fst)
    (q' : List (κ × Bool)) : before (q ++ q') c = before q c := by
  induction q with
  | nil => simp at h
  | cons e q ih =>
      rw [List.cons_append, before_cons, before_cons]
      split_ifs with he
      · rfl
      · simp only [List.map_cons, List.mem_cons] at h
        rw [ih (h.resolve_left fun hc => he hc.symm)]

/-- Erasing an entry puts nothing new before the others. -/
lemma before_erase_subset (q : List (κ × Bool)) {c d : κ} (h : d ≠ c) :
    before (q.eraseP fun e => e.1 = c) d ⊆ before q d := by
  induction q with
  | nil => simp
  | cons e q ih =>
      by_cases hc : e.1 = c
      · rw [List.eraseP_cons_of_pos (by simpa using hc), before_cons,
          if_neg (fun hd => h (hd.symm.trans hc))]
        exact List.subset_cons_self _ _
      · rw [List.eraseP_cons_of_neg (by simpa using hc), before_cons, before_cons]
        split_ifs
        · simp
        · exact List.cons_subset_cons _ ih

/-- Setting flags moves nobody. -/
lemma before_map {f : κ × Bool → κ × Bool} (hf : ∀ e, (f e).1 = e.1) (q : List (κ × Bool))
    (c : κ) : before (q.map f) c = (before q c).map f := by
  induction q with
  | nil => rfl
  | cons e q ih =>
      rw [List.map_cons, before_cons, before_cons, hf]
      split_ifs
      · rfl
      · rw [ih, List.map_cons]

lemma map_before (q : List (κ × Bool)) (c : κ) :
    (before q c).map Prod.fst = (q.map Prod.fst).takeWhile fun d => d ≠ c := by
  rw [List.takeWhile_map]
  rfl

/-- Of two queued clients one stands before the other. -/
lemma before_total {q : List (κ × Bool)} {c d : κ} (hc : c ∈ q.map Prod.fst)
    (hd : d ∈ q.map Prod.fst) (h : c ≠ d) :
    (∃ b, (c, b) ∈ before q d) ∨ ∃ b, (d, b) ∈ before q c := by
  induction q with
  | nil => simp at hc
  | cons e q ih =>
      simp only [List.map_cons, List.mem_cons] at hc hd
      rw [before_cons, before_cons]
      by_cases hec : e.1 = c
      · refine Or.inl ⟨e.2, ?_⟩
        rw [if_neg (fun hed => h (hec.symm.trans hed))]
        exact List.mem_cons.mpr (Or.inl (Prod.ext hec.symm rfl))
      · by_cases hed : e.1 = d
        · refine Or.inr ⟨e.2, ?_⟩
          rw [if_neg hec]
          exact List.mem_cons.mpr (Or.inl (Prod.ext hed.symm rfl))
        · rw [if_neg hec, if_neg hed]
          rcases ih (hc.resolve_left fun h => hec h.symm) (hd.resolve_left fun h => hed h.symm) with
            ⟨b, hb⟩ | ⟨b, hb⟩
          · exact Or.inl ⟨b, List.mem_cons_of_mem _ hb⟩
          · exact Or.inr ⟨b, List.mem_cons_of_mem _ hb⟩

/-- What stands before a queued client stands before it in the queue. -/
lemma sublist_of_mem_before {q : List (κ × Bool)} {c : κ} {e : κ × Bool} (he : e ∈ before q c)
    (hc : c ∈ q.map Prod.fst) : [e.1, c].Sublist (q.map Prod.fst) := by
  induction q with
  | nil => simp at he
  | cons f q ih =>
      rw [before_cons] at he
      split_ifs at he with hf
      · simp at he
      · have hc' : c ∈ q.map Prod.fst := by
          simp only [List.map_cons, List.mem_cons] at hc
          exact hc.resolve_left fun h => hf h.symm
        rcases List.mem_cons.mp he with rfl | he
        · exact (List.singleton_sublist.mpr hc').cons_cons _
        · exact (ih he hc').cons _

/-- Where nothing conflicts the queue is clear. -/
lemma NoConflict.clear {q : List (κ × Bool)} {c : κ} (h : NoConflict reader q c) :
    Clear reader q c := by
  intro e he
  obtain ⟨hr, hc⟩ := not_not.mp (h e he)
  exact ⟨hr, fun hw => absurd hc hw⟩

/-- Whether something conflicts depends on who stands where, not on the flags. -/
lemma noConflict_congr {q q' : List (κ × Bool)} (h : q'.map Prod.fst = q.map Prod.fst) (c : κ) :
    NoConflict reader q' c ↔ NoConflict reader q c := by
  have key : ∀ q : List (κ × Bool), NoConflict reader q c ↔
      ∀ d ∈ (q.map Prod.fst).takeWhile fun d => d ≠ c, ¬ Conflict reader d c := by
    intro q
    rw [← map_before, List.forall_mem_map]
    rfl
  rw [key, key, h]

/-! ## The steps -/

/-- Move one client to another phase. -/
def setPhase (l : QLock κ) (c : κ) (p : Phase) : QLock κ :=
  { l with phase := Function.update l.phase c p }

/-- Set the flag of the entry of `c`. -/
def setFlag (c : κ) (e : κ × Bool) : κ × Bool := if e.1 = c then (e.1, true) else e

@[simp] lemma setFlag_fst (c : κ) (e : κ × Bool) : (setFlag c e).1 = e.1 := by
  unfold setFlag; split_ifs <;> rfl

/-- Nobody holds the mutex. -/
def MtxFree (l : QLock κ) : Prop := ∀ c, ¬ (l.phase c).HoldsMtx

/-- One atomic step of one client. -/
inductive Step (reader : κ → Prop) (l : QLock κ) : QLock κ → Prop
  | enqueue (c : κ) (h : l.phase c = .absent) :
      Step reader l { l.setPhase c .queued with queue := l.queue ++ [(c, false)] }
  | lockMtx (c : κ) (h : l.phase c = .queued) (hm : l.MtxFree) :
      Step reader l (l.setPhase c .checking)
  | clear (c : κ) (h : l.phase c = .checking) (hc : Clear reader l.queue c) :
      Step reader l (l.setPhase c .checked)
  | sleep (c : κ) (h : l.phase c = .checking) : Step reader l (l.setPhase c .queued)
  | spin (c : κ) (h : l.phase c = .checked) (hw : l.writing = true) :
      Step reader l (l.setPhase c .checking)
  | pass (c : κ) (h : l.phase c = .checked) (hw : l.writing = false) :
      Step reader l (l.setPhase c .passed)
  | share (c : κ) (h : l.phase c = .passed) (hr : reader c) :
      Step reader l { l.setPhase c .granted with numReader := l.numReader + 1 }
  | raise (c : κ) (h : l.phase c = .passed) (hr : ¬ reader c) :
      Step reader l { l.setPhase c .draining with writing := true }
  | wait (c : κ) (h : l.phase c = .draining) (hn : 0 < l.numReader) :
      Step reader l (l.setPhase c .gated)
  | relock (c : κ) (h : l.phase c = .gated) (hm : l.MtxFree) :
      Step reader l (l.setPhase c .draining)
  | grant (c : κ) (h : l.phase c = .draining) (hn : ¬ 0 < l.numReader) :
      Step reader l (l.setPhase c .granted)
  | flag (c : κ) (h : l.phase c = .granted) :
      Step reader l { l with queue := l.queue.map (setFlag c) }
  | erase (c : κ) (h : l.phase c = .granted) :
      Step reader l { l.setPhase c .erased with queue := l.queue.eraseP fun e => e.1 = c }
  | unlockShared (c : κ) (h : l.phase c = .erased) (hr : reader c) (hm : l.MtxFree) :
      Step reader l { l.setPhase c .absent with numReader := l.numReader - 1 }
  | unlockExclusive (c : κ) (h : l.phase c = .erased) (hr : ¬ reader c) (hm : l.MtxFree) :
      Step reader l { l.setPhase c .absent with writing := false }

/-! ## The invariant: the queue

`QueueInv` speaks about the queue and the phases only, `LockInv` about the phases, the count and
the flag.  A step changes at most one of the two besides the phase of its client, so each step
has one real case.
-/

/-- The queue agrees with the phases: who is in it, whose flag is set, and for whom it is clear. -/
structure QueueInv (reader : κ → Prop) (q : List (κ × Bool)) (phase : κ → Phase) : Prop where
  nodup : (q.map Prod.fst).Nodup
  mem_iff : ∀ c, c ∈ q.map Prod.fst ↔ (phase c).InQueue
  flagged : ∀ c, (c, true) ∈ q → phase c = .granted
  cleared : ∀ c, (phase c).NeedsClear → Clear reader q c
  first : ∀ c, phase c = .granted → NoConflict reader q c

variable {q : List (κ × Bool)} {phase : κ → Phase}

/-- A client moves and the queue stays. -/
lemma QueueInv.move (h : QueueInv reader q phase) {c : κ} {p : Phase}
    (hq : p.InQueue ↔ (phase c).InQueue) (hg : phase c ≠ .granted)
    (hc : p.NeedsClear → Clear reader q c) (hf : p = .granted → NoConflict reader q c) :
    QueueInv reader q (Function.update phase c p) where
  nodup := h.nodup
  mem_iff d := by
    rw [Function.update_apply]
    split_ifs with hd
    · rw [hq, hd]; exact h.mem_iff c
    · exact h.mem_iff d
  flagged d hd := by
    have hdc : d ≠ c := by
      rintro rfl
      exact hg (h.flagged d hd)
    rw [Function.update_of_ne hdc]
    exact h.flagged d hd
  cleared d := by
    rw [Function.update_apply]
    split_ifs with hd
    · exact hd ▸ hc
    · exact h.cleared d
  first d := by
    rw [Function.update_apply]
    split_ifs with hd
    · exact hd ▸ hf
    · exact h.first d

/-- A request joins the queue: nobody before gets a new entry in front of it. -/
lemma QueueInv.enqueue (h : QueueInv reader q phase) {c : κ} (hp : phase c = .absent) :
    QueueInv reader (q ++ [(c, false)]) (Function.update phase c .queued) := by
  have hc : c ∉ q.map Prod.fst := by
    rw [h.mem_iff, hp]; simp [Phase.InQueue]
  have hne : ∀ d, d ≠ c → (Function.update phase c .queued) d = phase d :=
    fun d hd => Function.update_of_ne hd _ _
  have key : ∀ d, (phase d).InQueue → before (q ++ [(c, false)]) d = before q d :=
    fun d hd => before_append ((h.mem_iff d).mpr hd) _
  refine ⟨?_, fun d => ?_, fun d hd => ?_, fun d hd => ?_, fun d hd => ?_⟩
  · rw [List.map_append, List.map_singleton, List.nodup_append]
    refine ⟨h.nodup, by simp, fun d hd e he hde => hc ?_⟩
    rw [List.mem_singleton] at he
    rw [hde, he] at hd
    exact hd
  · by_cases hd : d = c
    · simp [hd, Phase.InQueue]
    · rw [hne d hd, ← h.mem_iff d]
      simp [hd]
  · have hmem : (d, true) ∈ q := by simpa using hd
    have hdc : d ≠ c := fun h' => hc (h' ▸ List.mem_map_of_mem hmem)
    rw [hne d hdc]
    exact h.flagged d hmem
  · have hdc : d ≠ c := by
      rintro rfl
      simp [Phase.NeedsClear] at hd
    rw [hne d hdc] at hd
    unfold Clear
    rw [key d hd.inQueue]
    exact h.cleared d hd
  · have hdc : d ≠ c := by
      rintro rfl
      simp at hd
    rw [hne d hdc] at hd
    unfold NoConflict
    rw [key d (by rw [hd]; simp [Phase.InQueue])]
    exact h.first d hd

/-- Setting a flag keeps every clear queue clear. -/
lemma QueueInv.flag (h : QueueInv reader q phase) {c : κ} (hp : phase c = .granted) :
    QueueInv reader (q.map (setFlag c)) phase := by
  have hmap : (q.map (setFlag c)).map Prod.fst = q.map Prod.fst := by
    rw [List.map_map]
    exact List.map_congr_left fun e _ => setFlag_fst c e
  refine ⟨hmap ▸ h.nodup, fun d => hmap ▸ h.mem_iff d, fun d hd => ?_, fun d hd => ?_,
    fun d hd => ?_⟩
  · obtain ⟨e, he, hed⟩ := List.mem_map.mp hd
    unfold setFlag at hed
    split_ifs at hed with hec
    · rw [Prod.mk.injEq] at hed
      rw [← hed.1, hec, hp]
    · exact h.flagged d (hed ▸ he)
  · intro e he
    rw [before_map (setFlag_fst c)] at he
    obtain ⟨e', he', rfl⟩ := List.mem_map.mp he
    have hcl := h.cleared d hd e' he'
    rw [setFlag_fst]
    refine ⟨hcl.1, fun hr => ?_⟩
    unfold setFlag
    split_ifs
    · rfl
    · exact hcl.2 hr
  · intro e he
    rw [before_map (setFlag_fst c)] at he
    obtain ⟨e', he', rfl⟩ := List.mem_map.mp he
    rw [setFlag_fst]
    exact h.first d hd e' he'

/-- An entry leaves, wherever in the queue it stands. -/
lemma QueueInv.erase (h : QueueInv reader q phase) {c : κ} (hp : phase c = .granted) :
    QueueInv reader (q.eraseP fun e => e.1 = c) (Function.update phase c .erased) := by
  have hmem : ∀ d, d ≠ c → (d ∈ (q.eraseP fun e => e.1 = c).map Prod.fst ↔
      d ∈ q.map Prod.fst) := by
    intro d hd
    simp only [List.mem_map]
    constructor
    · rintro ⟨e, he, rfl⟩
      exact ⟨e, List.mem_of_mem_eraseP he, rfl⟩
    · rintro ⟨e, he, rfl⟩
      exact ⟨e, (List.mem_eraseP_of_neg (by simpa using hd)).mpr he, rfl⟩
  have hnot : c ∉ (q.eraseP fun e => e.1 = c).map Prod.fst := by
    have hnd := h.nodup
    clear h hmem
    induction q with
    | nil => simp
    | cons e q ih =>
        rw [List.map_cons, List.nodup_cons] at hnd
        by_cases hec : e.1 = c
        · rw [List.eraseP_cons_of_pos (by simpa using hec)]
          exact hec ▸ hnd.1
        · rw [List.eraseP_cons_of_neg (by simpa using hec), List.map_cons, List.mem_cons]
          rintro (h' | h')
          · exact hec h'.symm
          · exact ih hnd.2 h'
  have hne : ∀ d, d ≠ c → (Function.update phase c .erased) d = phase d :=
    fun d hd => Function.update_of_ne hd _ _
  refine ⟨?_, fun d => ?_, fun d hd => ?_, fun d hd => ?_, fun d hd => ?_⟩
  · exact h.nodup.sublist (List.eraseP_sublist.map _)
  · by_cases hd : d = c
    · simp only [hd, Function.update_self, Phase.InQueue, iff_false]
      exact hnot
    · rw [hmem d hd, hne d hd]
      exact h.mem_iff d
  · have hdc : d ≠ c := by
      rintro rfl
      exact hnot (List.mem_map.mpr ⟨_, hd, rfl⟩)
    rw [hne d hdc]
    exact h.flagged d (List.mem_of_mem_eraseP hd)
  · have hdc : d ≠ c := by
      rintro rfl
      simp [Phase.NeedsClear] at hd
    rw [hne d hdc] at hd
    exact fun e he => h.cleared d hd e (before_erase_subset q hdc he)
  · have hdc : d ≠ c := by
      rintro rfl
      simp at hd
    rw [hne d hdc] at hd
    exact fun e he => h.first d hd e (before_erase_subset q hdc he)

/-! ## The invariant: the count and the flag -/

variable [Fintype κ] [DecidablePred reader] {n : ℤ} {w : Bool}

/-- How many readers hold the lock, or have not yet left the count. -/
def readers (reader : κ → Prop) [DecidablePred reader] (phase : κ → Phase) : ℕ :=
  (Finset.univ.filter fun c => reader c ∧ (phase c).Holds).card

omit [DecidableEq κ] in
lemma readers_congr {phase phase' : κ → Phase}
    (h : ∀ d, reader d → ((phase' d).Holds ↔ (phase d).Holds)) :
    readers reader phase = readers reader phase' := by
  unfold readers
  congr 1
  exact Finset.filter_congr fun d _ => and_congr_right fun hd => (h d hd).symm

/-- One more reader holds the lock. -/
lemma readers_succ {phase phase' : κ → Phase} {c : κ} (hr : reader c) (hc : ¬ (phase c).Holds)
    (hc' : (phase' c).Holds) (hne : ∀ d, d ≠ c → phase' d = phase d) :
    readers reader phase' = readers reader phase + 1 := by
  have hins : (Finset.univ.filter fun d => reader d ∧ (phase' d).Holds)
      = insert c (Finset.univ.filter fun d => reader d ∧ (phase d).Holds) := by
    ext d
    rw [Finset.mem_insert, Finset.mem_filter, Finset.mem_filter]
    by_cases hd : d = c
    · subst hd; simp [hr, hc']
    · simp [hd, hne d hd]
  have hnot : c ∉ Finset.univ.filter fun d => reader d ∧ (phase d).Holds := by
    rw [Finset.mem_filter]
    exact fun h => hc h.2.2
  rw [readers, hins, Finset.card_insert_of_notMem hnot, readers]

/-- The count and the flag agree with the phases: one client at most behind the mutex, one writer
at most behind the flag, and no reader together with a writer that holds. -/
structure LockInv (reader : κ → Prop) [DecidablePred reader] (phase : κ → Phase) (n : ℤ)
    (w : Bool) : Prop where
  mtx : ∀ c d, (phase c).HoldsMtx → (phase d).HoldsMtx → c = d
  writer : ∀ c, phase c = .draining ∨ phase c = .gated → ¬ reader c
  down : ∀ c, phase c = .passed → w = false
  raised : ∀ c, ¬ reader c → (phase c).Raised → w = true
  raiser : w = true → ∃ c, ¬ reader c ∧ (phase c).Raised
  unique : ∀ c d, ¬ reader c → ¬ reader d → (phase c).Raised → (phase d).Raised → c = d
  count : n = readers reader phase
  drained : ∀ c d, ¬ reader c → (phase c).Holds → reader d → ¬ (phase d).Holds

/-- A client moves and neither the count nor the flag changes. -/
lemma LockInv.move (h : LockInv reader phase n w) {c : κ} {p : Phase}
    (hr : p.Raised ↔ (phase c).Raised) (hh : p.Holds ↔ (phase c).Holds)
    (hm : p.HoldsMtx → (phase c).HoldsMtx ∨ ∀ d, ¬ (phase d).HoldsMtx)
    (hw : p = .passed → w = false) (hd : p = .draining ∨ p = .gated → ¬ reader c) :
    LockInv reader (Function.update phase c p) n w := by
  have raise : ∀ d, (Function.update phase c p d).Raised ↔ (phase d).Raised := by
    intro d
    rw [Function.update_apply]
    split_ifs with hdc
    · rw [hr, hdc]
    · rfl
  have hold : ∀ d, (Function.update phase c p d).Holds ↔ (phase d).Holds := by
    intro d
    rw [Function.update_apply]
    split_ifs with hdc
    · rw [hh, hdc]
    · rfl
  refine ⟨fun d e => ?_, fun d => ?_, fun d => ?_, fun d => ?_, fun hw' => ?_, fun d e => ?_, ?_,
    fun d e => ?_⟩
  · rw [Function.update_apply, Function.update_apply]
    split_ifs with h1 h2 h2
    · exact fun _ _ => h1.trans h2.symm
    · intro h3 h4
      rcases hm h3 with h5 | h5
      · exact h1.trans (h.mtx c e h5 h4)
      · exact absurd h4 (h5 e)
    · intro h3 h4
      rcases hm h4 with h5 | h5
      · exact (h.mtx d c h3 h5).trans h2.symm
      · exact absurd h3 (h5 d)
    · exact h.mtx d e
  · rw [Function.update_apply]
    split_ifs with h1
    · exact h1 ▸ hd
    · exact h.writer d
  · rw [Function.update_apply]
    split_ifs with h1
    · exact hw
    · exact h.down d
  · rw [raise]; exact h.raised d
  · obtain ⟨d, h1, h2⟩ := h.raiser hw'
    exact ⟨d, h1, (raise d).mpr h2⟩
  · rw [raise, raise]; exact h.unique d e
  · rw [h.count]
    exact congrArg Nat.cast (readers_congr fun d _ => hold d)
  · rw [hold, hold]; exact h.drained d e

/-- A reader is admitted: the flag is down, so no writer holds. -/
lemma LockInv.share (h : LockInv reader phase n w) {c : κ} (hp : phase c = .passed)
    (hr : reader c) : LockInv reader (Function.update phase c .granted) (n + 1) w := by
  have hw : w = false := h.down c hp
  have hne : ∀ d, d ≠ c → Function.update phase c .granted d = phase d :=
    fun d hd => Function.update_of_ne hd _ _
  have hwr : ∀ d, ¬ reader d → Function.update phase c .granted d = phase d :=
    fun d hd => hne d fun h' => hd (h' ▸ hr)
  have noRaise : ∀ d, ¬ reader d → ¬ (phase d).Raised := fun d h1 h2 => by
    simp [h.raised d h1 h2] at hw
  refine ⟨fun d e => ?_, fun d hd => ?_, fun _ _ => hw, fun d h1 => ?_, fun hw' => ?_,
    fun d e h1 h2 => ?_, ?_, fun d e h1 => ?_⟩
  · rw [Function.update_apply, Function.update_apply]
    split_ifs <;> simp only [Phase.HoldsMtx, false_implies, implies_true]
    exact h.mtx d e
  · have hdc : d ≠ c := by
      rintro rfl
      simp at hd
    rw [hne d hdc] at hd
    exact h.writer d hd
  · rw [hwr d h1]; exact h.raised d h1
  · simp [hw] at hw'
  · rw [hwr d h1, hwr e h2]; exact h.unique d e h1 h2
  · rw [h.count, readers_succ hr (by rw [hp]; exact id) (by rw [Function.update_self]; trivial) hne]
    push_cast
    ring
  · rw [hwr d h1]
    exact fun h2 => absurd h2.raised (noRaise d h1)

/-- A writer raises the flag: it was down, so nobody else has raised it. -/
lemma LockInv.raise (h : LockInv reader phase n w) {c : κ} (hp : phase c = .passed)
    (hr : ¬ reader c) : LockInv reader (Function.update phase c .draining) n true := by
  have hw : w = false := h.down c hp
  have hne : ∀ d, d ≠ c → Function.update phase c .draining d = phase d :=
    fun d hd => Function.update_of_ne hd _ _
  have noRaise : ∀ d, ¬ reader d → ¬ (phase d).Raised := fun d h1 h2 => by
    simp [h.raised d h1 h2] at hw
  have hmtx : ∀ d, (phase d).HoldsMtx → d = c := fun d hd => h.mtx d c hd (by rw [hp]; trivial)
  have only : ∀ d, ¬ reader d → (Function.update phase c .draining d).Raised → d = c := by
    intro d h1 h2
    by_contra hd
    rw [hne d hd] at h2
    exact noRaise d h1 h2
  have hold : ∀ d, (Function.update phase c .draining d).Holds ↔ (phase d).Holds := by
    intro d
    by_cases hd : d = c
    · simp [hd, hp, Phase.Holds]
    · rw [hne d hd]
  refine ⟨fun d e h1 h2 => ?_, fun d hd => ?_, fun d hd => ?_, fun _ _ _ => rfl,
    fun _ => ⟨c, hr, by simp [Phase.Raised]⟩, fun d e h1 h2 h3 h4 => ?_, ?_, fun d e => ?_⟩
  · have aux : ∀ f, (Function.update phase c .draining f).HoldsMtx → f = c := by
      intro f hf
      by_contra hfc
      rw [hne f hfc] at hf
      exact hfc (hmtx f hf)
    exact (aux d h1).trans (aux e h2).symm
  · by_cases hdc : d = c
    · exact hdc ▸ hr
    · rw [hne d hdc] at hd
      exact h.writer d hd
  · by_cases hdc : d = c
    · simp [hdc] at hd
    · rw [hne d hdc] at hd
      exact absurd (hmtx d (by rw [hd]; trivial)) hdc
  · exact (only d h1 h3).trans (only e h2 h4).symm
  · rw [h.count]
    exact congrArg Nat.cast (readers_congr fun d _ => hold d)
  · rw [hold, hold]; exact h.drained d e

/-- The waiting writer gets the lock once no reader is counted any more. -/
lemma LockInv.grant (h : LockInv reader phase n w) {c : κ} (hp : phase c = .draining)
    (hn : ¬ 0 < n) : LockInv reader (Function.update phase c .granted) n w := by
  have hr : ¬ reader c := h.writer c (Or.inl hp)
  have hne : ∀ d, d ≠ c → Function.update phase c .granted d = phase d :=
    fun d hd => Function.update_of_ne hd _ _
  have raise : ∀ d, (Function.update phase c .granted d).Raised ↔ (phase d).Raised := by
    intro d
    by_cases hd : d = c
    · simp [hd, hp, Phase.Raised]
    · rw [hne d hd]
  have hrd : ∀ d, reader d → Function.update phase c .granted d = phase d :=
    fun d hd => hne d fun h' => hr (h' ▸ hd)
  have noReader : ∀ d, reader d → ¬ (phase d).Holds := by
    intro d h1 h2
    have hpos : 0 < readers reader phase :=
      Finset.card_pos.mpr ⟨d, by simp [h1, h2]⟩
    rw [h.count] at hn
    exact hn (by exact_mod_cast hpos)
  refine ⟨fun d e => ?_, fun d hd => ?_, fun d hd => ?_, fun d => ?_, fun hw => ?_, fun d e => ?_,
    ?_, fun d e _ _ h3 => ?_⟩
  · rw [Function.update_apply, Function.update_apply]
    split_ifs <;> simp only [Phase.HoldsMtx, false_implies, implies_true]
    exact h.mtx d e
  · by_cases hdc : d = c
    · exact hdc ▸ hr
    · rw [hne d hdc] at hd
      exact h.writer d hd
  · have hdc : d ≠ c := by
      rintro rfl
      simp at hd
    rw [hne d hdc] at hd
    exact h.down d hd
  · rw [raise]; exact h.raised d
  · obtain ⟨d, h1, h2⟩ := h.raiser hw
    exact ⟨d, h1, (raise d).mpr h2⟩
  · rw [raise, raise]; exact h.unique d e
  · rw [h.count]
    exact congrArg Nat.cast (readers_congr fun d hd => by rw [hrd d hd])
  · rw [hrd e h3]
    exact noReader e h3

/-- A released reader leaves the count. -/
lemma LockInv.unlockShared (h : LockInv reader phase n w) {c : κ} (hp : phase c = .erased)
    (hr : reader c) : LockInv reader (Function.update phase c .absent) (n - 1) w := by
  have hne : ∀ d, d ≠ c → Function.update phase c .absent d = phase d :=
    fun d hd => Function.update_of_ne hd _ _
  have hwr : ∀ d, ¬ reader d → Function.update phase c .absent d = phase d :=
    fun d hd => hne d fun h' => hd (h' ▸ hr)
  refine ⟨fun d e => ?_, fun d hd => ?_, fun d hd => ?_, fun d h1 => ?_, fun hw => ?_,
    fun d e h1 h2 => ?_, ?_, fun d e h1 => ?_⟩
  · rw [Function.update_apply, Function.update_apply]
    split_ifs <;> simp only [Phase.HoldsMtx, false_implies, implies_true]
    exact h.mtx d e
  · have hdc : d ≠ c := by
      rintro rfl
      simp at hd
    rw [hne d hdc] at hd
    exact h.writer d hd
  · have hdc : d ≠ c := by
      rintro rfl
      simp at hd
    rw [hne d hdc] at hd
    exact h.down d hd
  · rw [hwr d h1]; exact h.raised d h1
  · obtain ⟨d, h1, h2⟩ := h.raiser hw
    exact ⟨d, h1, by rw [hwr d h1]; exact h2⟩
  · rw [hwr d h1, hwr e h2]; exact h.unique d e h1 h2
  · rw [h.count, readers_succ hr (by rw [Function.update_self]; exact id) (by rw [hp]; trivial)
      fun d hd => (hne d hd).symm]
    push_cast
    ring
  · rw [hwr d h1]
    exact fun h2 h3 => absurd (by rw [hp]; trivial) (h.drained d c h1 h2 hr)

/-- A released writer lowers the flag; nobody else had raised it. -/
lemma LockInv.unlockExclusive (h : LockInv reader phase n w) {c : κ} (hp : phase c = .erased)
    (hr : ¬ reader c) : LockInv reader (Function.update phase c .absent) n false := by
  have hne : ∀ d, d ≠ c → Function.update phase c .absent d = phase d :=
    fun d hd => Function.update_of_ne hd _ _
  have noRaise : ∀ d, ¬ reader d → ¬ (Function.update phase c .absent d).Raised := by
    intro d h1 h2
    by_cases hd : d = c
    · simp [hd, Phase.Raised] at h2
    · rw [hne d hd] at h2
      exact hd (h.unique d c h1 hr h2 (by rw [hp]; trivial))
  refine ⟨fun d e => ?_, fun d hd => ?_, fun _ _ => rfl, fun d h1 h2 => absurd h2 (noRaise d h1),
    fun hw => by simp at hw, fun d e h1 _ h3 => absurd h3 (noRaise d h1), ?_,
    fun d e h1 h2 => absurd h2.raised (noRaise d h1)⟩
  · rw [Function.update_apply, Function.update_apply]
    split_ifs <;> simp only [Phase.HoldsMtx, false_implies, implies_true]
    exact h.mtx d e
  · have hdc : d ≠ c := by
      rintro rfl
      simp at hd
    rw [hne d hdc] at hd
    exact h.writer d hd
  · rw [h.count]
    exact congrArg Nat.cast (readers_congr fun d hd => by rw [hne d fun h' => hr (h' ▸ hd)])

/-! ## The invariant -/

/-- What holds of the lock between any two steps. -/
structure Inv (reader : κ → Prop) [DecidablePred reader] (l : QLock κ) : Prop where
  queue : QueueInv reader l.queue l.phase
  lock : LockInv reader l.phase l.numReader l.writing

/-- The empty lock. -/
lemma inv_init : Inv reader (⟨[], 0, false, fun _ => .absent⟩ : QLock κ) := by
  refine ⟨?_, ?_⟩
  · constructor <;> simp [Phase.InQueue, Phase.NeedsClear]
  · constructor <;> simp [Phase.HoldsMtx, Phase.Raised, Phase.Holds, readers]

/-- When the waiting writer finds no reader counted, it is the first of the queue: everything
before it was a reader that had the lock. -/
lemma Inv.before_nil_of_drained {l : QLock κ} (h : Inv reader l) {c : κ}
    (hp : l.phase c = .draining) (hn : ¬ 0 < l.numReader) : before l.queue c = [] := by
  have hr : ¬ reader c := h.lock.writer c (Or.inl hp)
  rw [List.eq_nil_iff_forall_not_mem]
  intro e he
  obtain ⟨hre, hfl⟩ := h.queue.cleared c (by rw [hp]; trivial) e he
  have hmem : (e.1, true) ∈ l.queue := by
    have := before_subset _ _ he
    rwa [← hfl hr]
  have hpos : 0 < readers reader l.phase :=
    Finset.card_pos.mpr ⟨e.1, by
      rw [Finset.mem_filter, h.queue.flagged e.1 hmem]
      exact ⟨Finset.mem_univ _, hre, trivial⟩⟩
  rw [h.lock.count] at hn
  exact hn (by exact_mod_cast hpos)

/-- **Every step keeps the invariant.** -/
theorem Inv.step {l l' : QLock κ} (h : Inv reader l) (hs : Step reader l l') : Inv reader l' := by
  cases hs with
  | enqueue c hp =>
      exact ⟨h.queue.enqueue hp, h.lock.move (by simp [hp, Phase.Raised])
        (by simp [hp, Phase.Holds]) (by simp [Phase.HoldsMtx]) (by simp) (by simp)⟩
  | lockMtx c hp hm =>
      exact ⟨h.queue.move (by simp [hp, Phase.InQueue]) (by simp [hp]) (by simp [Phase.NeedsClear])
        (by simp), h.lock.move (by simp [hp, Phase.Raised]) (by simp [hp, Phase.Holds])
        (fun _ => Or.inr hm) (by simp) (by simp)⟩
  | clear c hp hc =>
      exact ⟨h.queue.move (by simp [hp, Phase.InQueue]) (by simp [hp]) (fun _ => hc) (by simp),
        h.lock.move (by simp [hp, Phase.Raised]) (by simp [hp, Phase.Holds])
        (by simp [hp, Phase.HoldsMtx]) (by simp) (by simp)⟩
  | sleep c hp =>
      exact ⟨h.queue.move (by simp [hp, Phase.InQueue]) (by simp [hp]) (by simp [Phase.NeedsClear])
        (by simp), h.lock.move (by simp [hp, Phase.Raised]) (by simp [hp, Phase.Holds])
        (by simp [Phase.HoldsMtx]) (by simp) (by simp)⟩
  | spin c hp hw =>
      exact ⟨h.queue.move (by simp [hp, Phase.InQueue]) (by simp [hp]) (by simp [Phase.NeedsClear])
        (by simp), h.lock.move (by simp [hp, Phase.Raised]) (by simp [hp, Phase.Holds])
        (by simp [hp, Phase.HoldsMtx]) (by simp) (by simp)⟩
  | pass c hp hw =>
      exact ⟨h.queue.move (by simp [hp, Phase.InQueue]) (by simp [hp])
        (fun _ => h.queue.cleared c (by rw [hp]; trivial)) (by simp),
        h.lock.move (by simp [hp, Phase.Raised]) (by simp [hp, Phase.Holds])
        (by simp [hp, Phase.HoldsMtx]) (fun _ => hw) (by simp)⟩
  | share c hp hr =>
      refine ⟨h.queue.move (by simp [hp, Phase.InQueue]) (by simp [hp]) (by simp [Phase.NeedsClear])
        fun _ e he => ?_, h.lock.share hp hr⟩
      exact not_not_intro ⟨(h.queue.cleared c (by rw [hp]; trivial) e he).1, hr⟩
  | raise c hp hr =>
      exact ⟨h.queue.move (by simp [hp, Phase.InQueue]) (by simp [hp])
        (fun _ => h.queue.cleared c (by rw [hp]; trivial)) (by simp), h.lock.raise hp hr⟩
  | wait c hp hn =>
      exact ⟨h.queue.move (by simp [hp, Phase.InQueue]) (by simp [hp])
        (fun _ => h.queue.cleared c (by rw [hp]; trivial)) (by simp),
        h.lock.move (by simp [hp, Phase.Raised]) (by simp [hp, Phase.Holds])
        (by simp [Phase.HoldsMtx]) (by simp) (fun _ => h.lock.writer c (Or.inl hp))⟩
  | relock c hp hm =>
      exact ⟨h.queue.move (by simp [hp, Phase.InQueue]) (by simp [hp])
        (fun _ => h.queue.cleared c (by rw [hp]; trivial)) (by simp),
        h.lock.move (by simp [hp, Phase.Raised]) (by simp [hp, Phase.Holds])
        (fun _ => Or.inr hm) (by simp) (fun _ => h.lock.writer c (Or.inr hp))⟩
  | grant c hp hn =>
      refine ⟨h.queue.move (by simp [hp, Phase.InQueue]) (by simp [hp]) (by simp [Phase.NeedsClear])
        fun _ e he => ?_, h.lock.grant hp hn⟩
      rw [h.before_nil_of_drained hp hn] at he
      simp at he
  | flag c hp => exact ⟨h.queue.flag hp, h.lock⟩
  | erase c hp =>
      exact ⟨h.queue.erase hp, h.lock.move (by simp [hp, Phase.Raised]) (by simp [hp, Phase.Holds])
        (by simp [Phase.HoldsMtx]) (by simp) (by simp)⟩
  | unlockShared c hp hr hm =>
      exact ⟨h.queue.move (by simp [hp, Phase.InQueue]) (by simp [hp]) (by simp [Phase.NeedsClear])
        (by simp), h.lock.unlockShared hp hr⟩
  | unlockExclusive c hp hr hm =>
      exact ⟨h.queue.move (by simp [hp, Phase.InQueue]) (by simp [hp]) (by simp [Phase.NeedsClear])
        (by simp), h.lock.unlockExclusive hp hr⟩

/-! ## What the invariant gives -/

/-- **Mutual exclusion.**  Two clients that hold the lock do not conflict, counting each from its
grant to the moment it has given its share of the lock state back. -/
theorem Inv.exclusive {l : QLock κ} (h : Inv reader l) {c d : κ} (hcd : c ≠ d)
    (hc : (l.phase c).Holds) (hd : (l.phase d).Holds) : ¬ Conflict reader c d := by
  refine not_not_intro ?_
  by_cases hrc : reader c
  · by_cases hrd : reader d
    · exact ⟨hrc, hrd⟩
    · exact absurd hc (h.lock.drained d c hrd hd hrc)
  · by_cases hrd : reader d
    · exact absurd hd (h.lock.drained c d hrc hc hrd)
    · exact absurd (h.lock.unique c d hrc hrd hc.raised hd.raised) hcd

/-- A waiting client whose queue is clear finds the flag up only if it has raised it itself, or if
the writer that raised it has already left the queue. -/
theorem Inv.not_writing_of_clear {l : QLock κ} (h : Inv reader l) {c : κ}
    (hcq : (l.phase c).InQueue) (hcg : l.phase c ≠ .granted)
    (hcr : reader c ∨ ¬ (l.phase c).Raised) (hc : Clear reader l.queue c)
    (hno : ∀ d, ¬ reader d → l.phase d ≠ .erased) : l.writing = false := by
  by_contra hw
  obtain ⟨d, hd, hraised⟩ := h.lock.raiser (by simpa using hw)
  have hcd : c ≠ d := by
    rintro rfl
    exact hcr.elim hd fun hnr => hnr hraised
  have hdq : (l.phase d).InQueue := by
    have := hno d hd
    cases hpd : l.phase d <;> simp_all [Phase.Raised, Phase.InQueue]
  rcases before_total ((h.queue.mem_iff c).mpr hcq) ((h.queue.mem_iff d).mpr hdq) hcd with
    ⟨b, hb⟩ | ⟨b, hb⟩
  · -- `c` stands before the writer: it would have the lock, or nobody would be there
    have hgr : l.phase d ≠ .granted := fun hg => h.queue.first d hg _ hb (fun hc => hd hc.2)
    have hclear : (l.phase d).NeedsClear := by
      have := hno d hd
      cases hpd : l.phase d <;> simp_all [Phase.Raised, Phase.NeedsClear]
    have hflag := (h.queue.cleared d hclear _ hb).2 hd
    simp only at hflag
    exact hcg (h.queue.flagged c (hflag ▸ before_subset _ _ hb))
  · exact hd (hc _ hb).1

/-- A queued writer that nothing conflicts with meets no reader, unless one that has already left
the queue. -/
theorem Inv.numReader_eq_zero {l : QLock κ} (h : Inv reader l) {c : κ} (hr : ¬ reader c)
    (hcq : (l.phase c).InQueue) (hc : NoConflict reader l.queue c)
    (hno : ∀ d, l.phase d ≠ .erased) : l.numReader = 0 := by
  rw [h.lock.count, readers, Int.natCast_eq_zero, Finset.card_eq_zero, Finset.filter_eq_empty_iff]
  rintro d - ⟨hd, hholds⟩
  have hgr : l.phase d = .granted := by
    have := hno d
    cases hpd : l.phase d <;> simp_all [Phase.Holds]
  have hdq : (l.phase d).InQueue := by rw [hgr]; trivial
  have hcd : c ≠ d := by
    rintro rfl
    exact hr hd
  rcases before_total ((h.queue.mem_iff c).mpr hcq) ((h.queue.mem_iff d).mpr hdq) hcd with
    ⟨b, hb⟩ | ⟨b, hb⟩
  · exact h.queue.first d hgr _ hb fun hc => hr hc.1
  · exact hc _ hb fun hc => hr hc.2

/-! ## Who is still waited for

A client that sleeps must be waited for by something: an entry that conflicts with it and stands
before it, or a client that has left the queue and will notify.
-/

/-- Something conflicts with `c`, or somebody who has left the queue has yet to undo its share of
the lock state. -/
def Awaited (reader : κ → Prop) (l : QLock κ) (c : κ) : Prop :=
  ¬ NoConflict reader l.queue c ∨ ∃ d, l.phase d = .erased

/-- Client `d` undoes its share of the lock state in this step. -/
structure Undoes (l l' : QLock κ) (d : κ) : Prop where
  erased : l.phase d = .erased
  absent : l'.phase d = .absent
  free : l.MtxFree
  queue : l'.queue = l.queue

omit [Fintype κ] [DecidablePred reader] in
/-- What a sleeper waits for stays until somebody undoes its share. -/
lemma Step.awaited {l l' : QLock κ} (h : Step reader l l') {c : κ}
    (hc : c ∈ l.queue.map Prod.fst) (ha : Awaited reader l c) :
    Awaited reader l' c ∨ ∃ d, Undoes l l' d := by
  -- the phase of one client changes, and it was not `erased`
  have erased : ∀ {d : κ} {p : Phase}, l.phase d ≠ .erased → (∃ e, l.phase e = .erased) →
      ∃ e, Function.update l.phase d p e = .erased := by
    rintro d p hd ⟨e, he⟩
    have hed : e ≠ d := by
      rintro rfl
      exact hd he
    exact ⟨e, by rw [Function.update_of_ne hed, he]⟩
  cases h with
  | enqueue d hp =>
      left
      refine ha.imp (fun hno => ?_) (erased (by rw [hp]; simp))
      simp only [NoConflict, before_append hc]
      exact hno
  | flag d hp =>
      left
      refine ha.imp_left fun hno hno' => hno ?_
      refine (noConflict_congr ?_ c).mp hno'
      simp [List.map_map, Function.comp_def]
  | erase d hp => exact .inl (.inr ⟨d, Function.update_self ..⟩)
  | unlockShared d hp hr hm => exact .inr ⟨d, hp, Function.update_self .., hm, rfl⟩
  | unlockExclusive d hp hr hm => exact .inr ⟨d, hp, Function.update_self .., hm, rfl⟩
  | lockMtx d hp | clear d hp | sleep d hp | spin d hp | pass d hp | share d hp | raise d hp
  | wait d hp | relock d hp | grant d hp =>
      exact .inl (ha.imp_right (erased (by rw [hp]; simp)))

/-- Behind a reader that has not given its share back, a raised flag conflicts with every sleeper:
the writer that has raised it waits for that reader, and the sleeper was not let through before
it. -/
theorem Inv.conflict_of_writing {l : QLock κ} (h : Inv reader l) {c d : κ} (hd : reader d)
    (hholds : (l.phase d).Holds) (hw : l.writing = true) (hc : l.phase c = .queued) :
    ¬ NoConflict reader l.queue c := by
  intro hno
  obtain ⟨e, he, hraised⟩ := h.lock.raiser hw
  have hnot : ¬ (l.phase e).Holds := fun hholds' => h.lock.drained e d he hholds' hd hholds
  have hclear : (l.phase e).NeedsClear := by
    cases hpe : l.phase e <;> simp_all [Phase.Raised, Phase.Holds, Phase.NeedsClear]
  have hce : c ≠ e := by
    rintro rfl
    rw [hc] at hraised
    exact hraised
  rcases before_total ((h.queue.mem_iff c).mpr (by rw [hc]; trivial))
    ((h.queue.mem_iff e).mpr hclear.inQueue) hce with ⟨b, hb⟩ | ⟨b, hb⟩
  · have hflag := (h.queue.cleared e hclear _ hb).2 he
    simp only at hflag
    have hgranted := h.queue.flagged c (hflag ▸ before_subset _ _ hb)
    rw [hc] at hgranted
    exact Phase.noConfusion hgranted
  · exact hno _ hb fun hboth => he hboth.1

omit [Fintype κ] [DecidablePred reader] in
/-- Readers stay counted, until the last of them undoes its share. -/
lemma Step.numReader_pos {l l' : QLock κ} (h : Step reader l l') (hn : 0 < l.numReader) :
    0 < l'.numReader ∨ ∃ d, reader d ∧ Undoes l l' d ∧ l.numReader - 1 = 0 := by
  cases h with
  | share c hp hr => exact .inl (show 0 < l.numReader + 1 by omega)
  | unlockShared c hp hr hm =>
      by_cases h1 : 0 < l.numReader - 1
      · exact .inl h1
      · exact .inr ⟨c, hr, ⟨hp, Function.update_self .., hm, rfl⟩, by omega⟩
  | _ => exact .inl hn

end QLock

end Multicore
