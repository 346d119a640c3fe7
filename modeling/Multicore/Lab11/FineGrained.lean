import Multicore.Lab11.IntSet

/-!
# The hand-over-hand list

`lab11/fine_grained.cpp` as a machine.  A call walks down the list with two locks: it unlocks `prev`
only after `curr` is locked, and locks the next node only while it holds `curr`.  The three
functions differ only in what they do when they have arrived.

As in the optimistic list a node is its address, every step reads or writes at most one pointer, or
locks or unlocks one mutex, and the calls are left open.  Two things are different in this program:

* `list_add` stores `prev->next = node` *before* `node->next = curr`.  In between the chain is
  broken; `Pc.middle` is the store that is missing.
* `list_remove` frees the node it has unlinked.  The program never compares pointers, so an address
  is used once: `malloc` returns a new one each time, and what has been freed stays freed.  A thread
  that got at a freed node would be seen to do so even if the memory had been given out again.
-/

namespace Multicore.Lab11.FineGrained

variable {τ : Type*}

/-! ## Program counters -/

/-- The statement a thread is about to execute. -/
inductive Pc
  /-- between two calls -/
  | idle
  /-- `prev = head; pthread_mutex_lock(&prev->mutex)` -/
  | lockHead (c : Args)
  /-- `curr = prev->next`, written as `head->next` before and as `curr->next` in the loop -/
  | read (c : Args) (prev : ℕ)
  /-- `pthread_mutex_lock(&curr->mutex)` -/
  | lockCurr (c : Args) (prev curr : ℕ)
  /-- `while (curr->key < key)`, and the test that follows the loop -/
  | test (c : Args) (prev curr : ℕ)
  /-- `pthread_mutex_unlock(&prev->mutex); prev = curr` -/
  | advance (c : Args) (prev curr : ℕ)
  /-- `list_add`: `prev->next = node` -/
  | link (c : Args) (prev curr : ℕ)
  /-- `list_add`: `node->next = curr` -/
  | setNext (c : Args) (prev curr : ℕ)
  /-- `list_remove`: the read of `curr->next` -/
  | getNext (c : Args) (prev curr : ℕ)
  /-- `list_remove`: the write of `prev->next` -/
  | unlink (c : Args) (prev curr : ℕ) (next : Option ℕ)
  /-- `pthread_mutex_unlock(&prev->mutex)`, with the result -/
  | unlockPrev (c : Args) (prev curr : ℕ) (ret : Bool)
  /-- `pthread_mutex_unlock(&curr->mutex)` -/
  | unlockCurr (c : Args) (curr : ℕ) (ret : Bool)
  /-- `list_remove`: `free(curr)` -/
  | free (curr : ℕ)
  /-- `return` -/
  | ret (b : Bool)

/-- The nodes, without their mutexes. -/
structure Heap where
  key : ℕ → ℤ
  next : ℕ → Option ℕ
  freed : ℕ → Bool
  /-- the addresses `malloc` has returned are those below -/
  alloc : ℕ

/-- `malloc` and `node->key = key`.  The pointer of a new node is not initialised. -/
def Heap.malloc (h : Heap) (key : ℤ) : Heap :=
  { h with
    key := Function.update h.key h.alloc key
    next := Function.update h.next h.alloc none
    alloc := h.alloc + 1 }

def Heap.setNext (h : Heap) (a : ℕ) (b : Option ℕ) : Heap :=
  { h with next := Function.update h.next a b }

def Heap.free (h : Heap) (a : ℕ) : Heap := { h with freed := Function.update h.freed a true }

/-- The heap, the mutexes and the threads. -/
structure State (τ : Type*) where
  heap : Heap
  mutex : ℕ → Bool
  thread : τ → Pc

namespace State

variable [DecidableEq τ]

def setPc (s : State τ) (t : τ) (pc : Pc) : State τ :=
  { s with thread := Function.update s.thread t pc }

def setHeap (s : State τ) (h : Heap) : State τ := { s with heap := h }

def setMutex (s : State τ) (a : ℕ) (b : Bool) : State τ :=
  { s with mutex := Function.update s.mutex a b }

/-- The first statements of a call. -/
def begin (s : State τ) (t : τ) : Op → ℤ → State τ
  | .add, key =>
      ((s.setHeap (s.heap.malloc key)).setMutex s.heap.alloc false).setPc t
        (.lockHead ⟨⟨.add, key⟩, s.heap.alloc⟩)
  | op, key => s.setPc t (.lockHead ⟨⟨op, key⟩, 0⟩)

end State

/-! ## The steps -/

/-- What the three functions do at the end of the walk. -/
def decided (c : Args) (prev curr : ℕ) (currKey : ℤ) : Pc :=
  match c.op with
  | .add => if currKey = c.key then .unlockPrev c prev curr false else .link c prev curr
  | .remove => if currKey ≠ c.key then .unlockPrev c prev curr false else .getNext c prev curr
  | .contains => .unlockPrev c prev curr (currKey = c.key)

/-- The call has unlinked `curr`. -/
def Removed (c : Args) (ret : Bool) : Prop := c.op = .remove ∧ ret = true

instance (c : Args) (ret : Bool) : Decidable (Removed c ret) :=
  inferInstanceAs (Decidable (c.op = .remove ∧ ret = true))

/-- What follows the last unlock. -/
def leave (c : Args) (curr : ℕ) (ret : Bool) : Pc := if Removed c ret then .free curr else .ret ret

/-- One step of a thread inside a call.  A step that would follow a null pointer is none. -/
def go [DecidableEq τ] (s : State τ) (t : τ) : Pc → Option (State τ)
  | .idle => none
  | .lockHead c =>
      if s.mutex head = false then some ((s.setMutex head true).setPc t (.read c head)) else none
  | .read c prev => (s.heap.next prev).map fun curr => s.setPc t (.lockCurr c prev curr)
  | .lockCurr c prev curr =>
      if s.mutex curr = false then some ((s.setMutex curr true).setPc t (.test c prev curr))
      else none
  | .test c prev curr =>
      if s.heap.key curr < c.key then some (s.setPc t (.advance c prev curr))
      else some (s.setPc t (decided c prev curr (s.heap.key curr)))
  | .advance c prev curr => some ((s.setMutex prev false).setPc t (.read c curr))
  | .link c prev curr =>
      some ((s.setHeap (s.heap.setNext prev (some c.node))).setPc t (.setNext c prev curr))
  | .setNext c prev curr =>
      some ((s.setHeap (s.heap.setNext c.node (some curr))).setPc t (.unlockPrev c prev curr true))
  | .getNext c prev curr => some (s.setPc t (.unlink c prev curr (s.heap.next curr)))
  | .unlink c prev curr next =>
      some ((s.setHeap (s.heap.setNext prev next)).setPc t (.unlockPrev c prev curr true))
  | .unlockPrev c prev curr ret => some ((s.setMutex prev false).setPc t (.unlockCurr c curr ret))
  | .unlockCurr c curr ret => some ((s.setMutex curr false).setPc t (leave c curr ret))
  | .free curr => some ((s.setHeap (s.heap.free curr)).setPc t (.ret true))
  | .ret _ => some (s.setPc t .idle)

/-- One step. -/
def step [DecidableEq τ] (s : State τ) (a : Act τ) : Option (State τ) :=
  match s.thread a.tid, a.choice with
  | .idle, .call op key => some (s.begin a.tid op key)
  | pc, .go => go s a.tid pc
  | _, _ => none

/-- What `list_init` leaves behind; here it initialises the two mutexes. -/
def State.start (τ : Type*) : State τ where
  heap :=
    { key := fun a => if a = head then intMin else intMax
      next := fun a => if a = head then some tail else none
      freed := fun _ => false
      alloc := 2 }
  mutex _ := false
  thread _ := .idle

/-- The list with threads `τ`. -/
def list (τ : Type*) [DecidableEq τ] : Machine (State τ) (Act τ) where
  init s := s = State.start τ
  step := step

/-- The call or the return that a step is. -/
def event (s : State τ) (a : Act τ) : Option (Event Call Bool) :=
  match s.thread a.tid, a.choice with
  | .idle, .call op key => some (.call ⟨op, key⟩)
  | .ret b, .go => some (.ret b)
  | _, _ => none

/-- The keys of the calls of a run are in range. -/
lemma inRange_of_event {s : State τ} {a : Act τ} (hok : KeyInRange s a) {op : Op} {key : ℤ}
    (hev : event s a = some (.call ⟨op, key⟩)) : InRange key := by
  obtain ⟨t, choice⟩ := a
  unfold event at hev
  dsimp only at hev
  split at hev
  · rename_i op' key' _
    obtain ⟨rfl, rfl⟩ : op' = op ∧ key' = key := by simpa using hev
    exact hok
  · simp at hev
  · simp at hev

/-! ## What a step can do -/

/-- The steps of thread `t`, one by one, with the event each of them is. -/
inductive Move [DecidableEq τ] (s : State τ) (t : τ) : Option (Event Call Bool) → State τ → Prop
  | call (op : Op) (key : ℤ) (hpc : s.thread t = .idle) :
      Move s t (some (.call ⟨op, key⟩)) (s.begin t op key)
  | lockHead (c : Args) (hpc : s.thread t = .lockHead c) (hm : s.mutex head = false) :
      Move s t none ((s.setMutex head true).setPc t (.read c head))
  | read (c : Args) (prev curr : ℕ) (hpc : s.thread t = .read c prev)
      (hn : s.heap.next prev = some curr) : Move s t none (s.setPc t (.lockCurr c prev curr))
  | lockCurr (c : Args) (prev curr : ℕ) (hpc : s.thread t = .lockCurr c prev curr)
      (hm : s.mutex curr = false) :
      Move s t none ((s.setMutex curr true).setPc t (.test c prev curr))
  | pass (c : Args) (prev curr : ℕ) (hpc : s.thread t = .test c prev curr)
      (hk : s.heap.key curr < c.key) : Move s t none (s.setPc t (.advance c prev curr))
  | arrive (c : Args) (prev curr : ℕ) (hpc : s.thread t = .test c prev curr)
      (hk : c.key ≤ s.heap.key curr) :
      Move s t none (s.setPc t (decided c prev curr (s.heap.key curr)))
  | advance (c : Args) (prev curr : ℕ) (hpc : s.thread t = .advance c prev curr) :
      Move s t none ((s.setMutex prev false).setPc t (.read c curr))
  | link (c : Args) (prev curr : ℕ) (hpc : s.thread t = .link c prev curr) :
      Move s t none
        ((s.setHeap (s.heap.setNext prev (some c.node))).setPc t (.setNext c prev curr))
  | setNext (c : Args) (prev curr : ℕ) (hpc : s.thread t = .setNext c prev curr) :
      Move s t none
        ((s.setHeap (s.heap.setNext c.node (some curr))).setPc t (.unlockPrev c prev curr true))
  | getNext (c : Args) (prev curr : ℕ) (hpc : s.thread t = .getNext c prev curr) :
      Move s t none (s.setPc t (.unlink c prev curr (s.heap.next curr)))
  | unlink (c : Args) (prev curr : ℕ) (next : Option ℕ)
      (hpc : s.thread t = .unlink c prev curr next) :
      Move s t none
        ((s.setHeap (s.heap.setNext prev next)).setPc t (.unlockPrev c prev curr true))
  | unlockPrev (c : Args) (prev curr : ℕ) (ret : Bool)
      (hpc : s.thread t = .unlockPrev c prev curr ret) :
      Move s t none ((s.setMutex prev false).setPc t (.unlockCurr c curr ret))
  | unlockCurr (c : Args) (curr : ℕ) (ret : Bool) (hpc : s.thread t = .unlockCurr c curr ret) :
      Move s t none ((s.setMutex curr false).setPc t (leave c curr ret))
  | free (curr : ℕ) (hpc : s.thread t = .free curr) :
      Move s t none ((s.setHeap (s.heap.free curr)).setPc t (.ret true))
  | ret (b : Bool) (hpc : s.thread t = .ret b) :
      Move s t (some (.ret b)) (s.setPc t .idle)

variable [DecidableEq τ] {s s' : State τ} {t : τ}

/-- A step inside a call is a move. -/
lemma move_of_go (h : go s t (s.thread t) = some s') :
    Move s t (event s ⟨t, .go⟩) s' := by
  cases hpc : s.thread t <;> simp only [hpc, go, event] at h ⊢
  case idle => simp at h
  case lockHead c =>
    obtain ⟨hm, h⟩ := Option.ite_none_right_eq_some.mp h
    obtain rfl := Option.some.inj h
    exact .lockHead c hpc hm
  case read c prev =>
    obtain ⟨curr, hn, rfl⟩ := Option.map_eq_some_iff.mp h
    exact .read c prev curr hpc hn
  case lockCurr c prev curr =>
    obtain ⟨hm, h⟩ := Option.ite_none_right_eq_some.mp h
    obtain rfl := Option.some.inj h
    exact .lockCurr c prev curr hpc hm
  case test c prev curr =>
    split_ifs at h with hk
    · obtain rfl := Option.some.inj h
      exact .pass c prev curr hpc hk
    · obtain rfl := Option.some.inj h
      exact .arrive c prev curr hpc (not_lt.mp hk)
  all_goals obtain rfl := Option.some.inj h
  case advance c prev curr => exact .advance c prev curr hpc
  case link c prev curr => exact .link c prev curr hpc
  case setNext c prev curr => exact .setNext c prev curr hpc
  case getNext c prev curr => exact .getNext c prev curr hpc
  case unlink c prev curr next => exact .unlink c prev curr next hpc
  case unlockPrev c prev curr ret => exact .unlockPrev c prev curr ret hpc
  case unlockCurr c curr ret => exact .unlockCurr c curr ret hpc
  case free curr => exact .free curr hpc
  case ret b => exact .ret b hpc

/-- **Every step is one of the moves.** -/
theorem move_of_step {a : Act τ} (h : step s a = some s') : Move s a.tid (event s a) s' := by
  obtain ⟨t, choice⟩ := a
  unfold step at h
  dsimp only at h
  split at h
  · rename_i op key hpc
    obtain rfl := Option.some.inj h
    simp only [event, hpc]
    exact .call op key hpc
  · exact move_of_go h
  · simp at h

end Multicore.Lab11.FineGrained
