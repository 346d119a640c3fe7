import Multicore.Lab11.CoarseGrained

/-!
# Threads and the one mutex

`lab11/coarse_grained.cpp` with threads.  A call locks the mutex, executes its body, unlocks the
mutex and returns.  The body is one step, because nobody else can look at the list meanwhile.
`list_add` allocates its node before it locks, and `list_remove` frees its node after it has
unlocked; both belong to the body here, as nobody else has the address of such a node.

* `tracks` — the body is the instant at which a call takes effect, for keys below `INT_MAX`.
-/

namespace Multicore.Lab11.CoarseGrained

open FineGrained (Heap)

variable {τ : Type*}

/-! ## The machine -/

/-- The statement a thread is about to execute. -/
inductive Pc
  /-- between two calls -/
  | idle
  /-- `pthread_mutex_lock(&mutex)` -/
  | lock (c : Call)
  /-- what is done with the list -/
  | body (c : Call)
  /-- `pthread_mutex_unlock(&mutex)` -/
  | unlock (b : Bool)
  /-- `return` -/
  | ret (b : Bool)

/-- The heap, the mutex and the threads. -/
structure State (τ : Type*) where
  heap : Heap
  mutex : Bool
  thread : τ → Pc

/-- One step of a thread inside a call. -/
def go [DecidableEq τ] (s : State τ) (t : τ) : Pc → Option (State τ)
  | .idle => none
  | .lock c =>
      if s.mutex = false then
        some { s with mutex := true, thread := Function.update s.thread t (.body c) }
      else none
  | .body c =>
      (call s.heap c).map fun (heap, b) =>
        { s with heap := heap, thread := Function.update s.thread t (.unlock b) }
  | .unlock b => some { s with mutex := false, thread := Function.update s.thread t (.ret b) }
  | .ret _ => some { s with thread := Function.update s.thread t .idle }

/-- One step. -/
def step [DecidableEq τ] (s : State τ) (a : Act τ) : Option (State τ) :=
  match s.thread a.tid, a.choice with
  | .idle, .call op key =>
      some { s with thread := Function.update s.thread a.tid (.lock ⟨op, key⟩) }
  | pc, .go => go s a.tid pc
  | _, _ => none

/-- What `list_init` leaves behind. -/
def State.start (τ : Type*) : State τ := ⟨listInit, false, fun _ => .idle⟩

/-- The list with threads `τ`. -/
def list (τ : Type*) [DecidableEq τ] : Machine (State τ) (Act τ) where
  init s := s = State.start τ
  step := step

/-- The call or the return that a step is. -/
def event (s : State τ) (a : Act τ) : Option (Event Call Bool) :=
  match s.thread a.tid, a.choice with
  | .idle, .call op key => some (.call ⟨op, key⟩)
  | .ret b, .go => some (.ret b)
  | _, _ => none

/-! ## What a step can do -/

/-- The steps of thread `t`, one by one, with the event each of them is. -/
inductive Move [DecidableEq τ] (s : State τ) (t : τ) : Option (Event Call Bool) → State τ → Prop
  | call (c : Call) (hpc : s.thread t = .idle) :
      Move s t (some (.call c)) { s with thread := Function.update s.thread t (.lock c) }
  | lock (c : Call) (hpc : s.thread t = .lock c) (hm : s.mutex = false) :
      Move s t none { s with mutex := true, thread := Function.update s.thread t (.body c) }
  | body (c : Call) (heap : Heap) (b : Bool) (hpc : s.thread t = .body c)
      (hcall : CoarseGrained.call s.heap c = some (heap, b)) :
      Move s t none { s with heap := heap, thread := Function.update s.thread t (.unlock b) }
  | unlock (b : Bool) (hpc : s.thread t = .unlock b) :
      Move s t none { s with mutex := false, thread := Function.update s.thread t (.ret b) }
  | ret (b : Bool) (hpc : s.thread t = .ret b) :
      Move s t (some (.ret b)) { s with thread := Function.update s.thread t .idle }

variable [DecidableEq τ] {s s' : State τ} {t u : τ}

/-- A step inside a call is a move. -/
lemma move_of_go (h : go s t (s.thread t) = some s') : Move s t (event s ⟨t, .go⟩) s' := by
  cases hpc : s.thread t <;> simp only [hpc, go, event] at h ⊢
  case idle => simp at h
  case lock c =>
    obtain ⟨hm, h⟩ := Option.ite_none_right_eq_some.mp h
    obtain rfl := Option.some.inj h
    exact .lock c hpc hm
  case body c =>
    obtain ⟨⟨heap, b⟩, hcall, rfl⟩ := Option.map_eq_some_iff.mp h
    exact .body c heap b hpc hcall
  case unlock b =>
    obtain rfl := Option.some.inj h
    exact .unlock b hpc
  case ret b =>
    obtain rfl := Option.some.inj h
    exact .ret b hpc

/-- **Every step is one of the moves.** -/
theorem move_of_step {a : Act τ} (h : step s a = some s') : Move s a.tid (event s a) s' := by
  obtain ⟨t, choice⟩ := a
  unfold step at h
  dsimp only at h
  split at h
  · rename_i op key hpc
    obtain rfl := Option.some.inj h
    simp only [event, hpc]
    exact .call ⟨op, key⟩ hpc
  · exact move_of_go h
  · simp at h

/-- A move does not touch other threads. -/
lemma Move.other {ev : Option (Event Call Bool)} (h : Move s t ev s') (hu : u ≠ t) :
    s'.thread u = s.thread u := by
  cases h <;> exact Function.update_of_ne hu _ _

/-! ## Calls and the set -/

/-- The keys in the list, between two calls. -/
def keys (h : Heap) : Set ℤ := {k | ∃ l, Inv h l ∧ k ∈ l.map h.key}

lemma Represents.keys_eq {h : Heap} {S : Set ℤ} (hr : Represents h S) : keys h = S := by
  obtain ⟨l, hinv, hmem⟩ := hr
  ext k
  rw [← hmem]
  constructor
  · rintro ⟨l', hinv', hk⟩
    have heq := hinv'.chain.unique hinv.chain
    obtain rfl : l' = l := List.append_cancel_right (List.cons.inj heq).2
    exact hk
  · intro hk
    exact ⟨l, hinv, hk⟩

/-- How a run of the list is read. -/
def interface (τ : Type*) : Interface (State τ) (Act τ) τ (Set ℤ) Call Bool where
  thread := Act.tid
  event := event
  value s := keys s.heap

/-- Has the call taken effect? -/
def Pc.status : Pc → Status Call Bool
  | .idle => .idle
  | .lock c | .body c => .pending c
  | .unlock b | .ret b => .done b

/-- The keys of the calls that have not taken effect are below `INT_MAX`. -/
def Pc.Fits : Pc → Prop
  | .lock c | .body c => c.key < intMax
  | _ => True

/-- The list is in order, and the calls have keys it can handle. -/
structure ThreadInv (s : State τ) : Prop where
  represents : Represents s.heap (keys s.heap)
  fits : ∀ t, (s.thread t).Fits

/-- A thread moves on. -/
lemma fits_update {pc : Pc} (h : ∀ u, (s.thread u).Fits) (hpc : pc.Fits) (u : τ) :
    (Function.update s.thread t pc u).Fits := by
  rw [Function.update_apply]
  split_ifs
  · exact hpc
  · exact h u

omit [DecidableEq τ] in
/-- The body of a call is the call on the set. -/
lemma ThreadInv.body (h : ThreadInv s) {c : Call} {heap : Heap} {b : Bool}
    (hpc : s.thread t = .body c) (hcall : call s.heap c = some (heap, b)) :
    Represents heap (intSet.apply c (keys s.heap)).1 ∧ b = (intSet.apply c (keys s.heap)).2 := by
  have hfits := h.fits t
  rw [hpc] at hfits
  obtain ⟨heap', hcall', hr⟩ := call_spec h.represents (c := c) hfits
  rw [hcall'] at hcall
  obtain ⟨rfl, rfl⟩ := Prod.mk.inj (Option.some.inj hcall)
  exact ⟨hr, rfl⟩

lemma ThreadInv.move (h : ThreadInv s) {ev : Option (Event Call Bool)} (hm : Move s t ev s')
    (hr : ∀ c, ev = some (.call c) → c.key < intMax) : ThreadInv s' := by
  have hfits := h.fits t
  cases hm with
  | call c hpc => exact ⟨h.represents, fits_update h.fits (hr c rfl)⟩
  | lock c hpc hmutex =>
      rw [hpc] at hfits
      exact ⟨h.represents, fits_update h.fits hfits⟩
  | body c heap b hpc hcall =>
      have hrep := (h.body hpc hcall).1
      refine ⟨?_, fits_update h.fits trivial⟩
      show Represents heap (keys heap)
      rw [hrep.keys_eq]
      exact hrep
  | unlock b hpc => exact ⟨h.represents, fits_update h.fits trivial⟩
  | ret b hpc => exact ⟨h.represents, fits_update h.fits trivial⟩

omit [DecidableEq τ] in
lemma key_lt_of_event {a : Act τ} (hok : KeyInRange s a) {c : Call}
    (hev : event s a = some (.call c)) : c.key < intMax := by
  obtain ⟨t, choice⟩ := a
  unfold event at hev
  dsimp only at hev
  split at hev
  · rename_i op key _
    obtain rfl : ⟨op, key⟩ = c := by simpa using hev
    exact (show InRange key from hok).2
  · simp at hev
  · simp at hev

lemma threadInv_of_run (hs : (list τ).Run KeyInRange s) : ThreadInv s := by
  refine Machine.Run.invariant (I := ThreadInv) ?_ ?_ s hs
  · rintro s rfl
    have hrep : Represents listInit ∅ := ⟨[], inv_init, fun k => by simp⟩
    refine ⟨?_, fun _ => trivial⟩
    show Represents listInit (keys listInit)
    rw [hrep.keys_eq]
    exact hrep
  · intro s a s' _ h hok hstep
    exact h.move (move_of_step hstep) fun c hc => key_lt_of_event hok hc

/-- **Every move tracks the set.** -/
lemma ThreadInv.effect (h : ThreadInv s) {ev : Option (Event Call Bool)} (hm : Move s t ev s') :
    Effect intSet (keys s.heap) (keys s'.heap) ev (s.thread t).status (s'.thread t).status := by
  cases hm with
  | call c hpc =>
      simp only [hpc, Function.update_self, Pc.status]
      exact .call c rfl
  | lock c hpc hmutex =>
      simp only [hpc, Function.update_self, Pc.status]
      exact .skip _ rfl
  | body c heap b hpc hcall =>
      obtain ⟨hrep, rfl⟩ := h.body hpc hcall
      simp only [hpc, Function.update_self, Pc.status]
      exact .take c hrep.keys_eq
  | unlock b hpc =>
      simp only [hpc, Function.update_self, Pc.status]
      exact .skip _ rfl
  | ret b hpc =>
      simp only [hpc, Function.update_self, Pc.status]
      exact .ret b rfl

lemma tracks : Tracks (list τ) KeyInRange intSet (interface τ) fun s t => (s.thread t).status where
  init s hs := by
    obtain rfl := hs
    have hrep : Represents listInit ∅ := ⟨[], inv_init, fun k => by simp⟩
    exact ⟨hrep.keys_eq, fun _ => rfl⟩
  other s a s' _ _ hstep t ht := by rw [(move_of_step hstep).other ht]
  effect s a s' hrun _ hstep := (threadInv_of_run hrun).effect (move_of_step hstep)

end Multicore.Lab11.CoarseGrained
