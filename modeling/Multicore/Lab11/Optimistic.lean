import Multicore.Lab11.IntSet

/-!
# The optimistic list

`lab11/optimistic.cpp` as a machine.  A call walks to its place without locks, locks the two nodes
it has found, and lets `list_validate` walk once more from `head`; if the second walk does not find
`prev` with `curr` behind it, the call starts again.  The three functions differ only in what they
do between validation and unlocking.

A node is its address; the fields `key`, `next` and `mutex` are three maps.  Every step reads or
writes at most one pointer, or locks or unlocks one mutex.  A `key` is written once, before its node
is known to anybody else.  What the machine leaves open, as the program does:

* the calls — an idle thread may call any function with any key;
* the mutexes of `head` and `tail`, which `list_init` does not initialise: they may be locked from
  the start, by nobody.

Nodes are never freed, so `malloc` returns a new address each time.
-/

namespace Multicore.Lab11.Optimistic

variable {τ : Type*}

/-! ## Program counters -/

/-- The statement a thread is about to execute. -/
inductive Pc
  /-- between two calls -/
  | idle
  /-- `prev = head; curr = head->next` -/
  | start (c : Args)
  /-- `while (curr->key < key)` -/
  | walk (c : Args) (prev curr : ℕ)
  /-- `pthread_mutex_lock(&prev->mutex)` -/
  | lockPrev (c : Args) (prev curr : ℕ)
  /-- `pthread_mutex_lock(&curr->mutex)` -/
  | lockCurr (c : Args) (prev curr : ℕ)
  /-- `list_validate`: `while (it->key <= prev->key)` -/
  | validate (c : Args) (prev curr it : ℕ)
  /-- validated: the test of `curr->key` -/
  | decide (c : Args) (prev curr : ℕ)
  /-- `list_add`: `node->next = curr` -/
  | setNext (c : Args) (prev curr : ℕ)
  /-- `list_add`: `prev->next = node` -/
  | link (c : Args) (prev curr : ℕ)
  /-- `list_remove`: the read of `curr->next` -/
  | getNext (c : Args) (prev curr : ℕ)
  /-- `list_remove`: the write of `prev->next` -/
  | unlink (c : Args) (prev curr : ℕ) (next : Option ℕ)
  /-- `pthread_mutex_unlock(&prev->mutex)`, then once more from the start or with a result -/
  | unlockPrev (c : Args) (prev curr : ℕ) (ret : Option Bool)
  /-- `pthread_mutex_unlock(&curr->mutex)` -/
  | unlockCurr (c : Args) (curr : ℕ) (ret : Option Bool)
  /-- `return` -/
  | ret (b : Bool)

/-- The heap and the threads. -/
structure State (τ : Type*) where
  key : ℕ → ℤ
  next : ℕ → Option ℕ
  mutex : ℕ → Bool
  /-- the addresses `malloc` has returned are those below -/
  alloc : ℕ
  thread : τ → Pc

namespace State

variable [DecidableEq τ]

def setPc (s : State τ) (t : τ) (pc : Pc) : State τ :=
  { s with thread := Function.update s.thread t pc }

def setNext (s : State τ) (a : ℕ) (b : Option ℕ) : State τ :=
  { s with next := Function.update s.next a b }

def setMutex (s : State τ) (a : ℕ) (b : Bool) : State τ :=
  { s with mutex := Function.update s.mutex a b }

/-- `malloc`, `node->key = key` and `pthread_mutex_init`.  The pointer of a new node is not read
before it is written. -/
def malloc (s : State τ) (key : ℤ) : State τ :=
  { s with
    key := Function.update s.key s.alloc key
    next := Function.update s.next s.alloc none
    mutex := Function.update s.mutex s.alloc false
    alloc := s.alloc + 1 }

/-- The first statements of a call. -/
def begin (s : State τ) (t : τ) : Op → ℤ → State τ
  | .add, key => (s.malloc key).setPc t (.start ⟨⟨.add, key⟩, s.alloc⟩)
  | op, key => s.setPc t (.start ⟨⟨op, key⟩, 0⟩)

end State

/-! ## The steps -/

/-- What the three functions do with a validated pair. -/
def decided (c : Args) (prev curr : ℕ) (currKey : ℤ) : Pc :=
  match c.op with
  | .add =>
      if currKey = c.key then .unlockPrev c prev curr (some false) else .setNext c prev curr
  | .remove =>
      if currKey ≠ c.key then .unlockPrev c prev curr (some false) else .getNext c prev curr
  | .contains => .unlockPrev c prev curr (some (currKey = c.key))

/-- One round of the loop of `list_validate`. -/
def validateStep (s : State τ) (c : Args) (prev curr it : ℕ) : Option Pc :=
  if s.key it ≤ s.key prev then
    if it = prev then
      some (if s.next it = some curr then .decide c prev curr else .unlockPrev c prev curr none)
    else (s.next it).map fun n => .validate c prev curr n
  else some (.unlockPrev c prev curr none)

/-- One step of a thread inside a call.  A step that would follow a null pointer is none. -/
def go [DecidableEq τ] (s : State τ) (t : τ) : Pc → Option (State τ)
  | .idle => none
  | .start c => (s.next head).map fun curr => s.setPc t (.walk c head curr)
  | .walk c prev curr =>
      if s.key curr < c.key then (s.next curr).map fun n => s.setPc t (.walk c curr n)
      else some (s.setPc t (.lockPrev c prev curr))
  | .lockPrev c prev curr =>
      if s.mutex prev = false then
        some ((s.setMutex prev true).setPc t (.lockCurr c prev curr))
      else none
  | .lockCurr c prev curr =>
      if s.mutex curr = false then
        some ((s.setMutex curr true).setPc t (.validate c prev curr head))
      else none
  | .validate c prev curr it => (validateStep s c prev curr it).map (s.setPc t)
  | .decide c prev curr => some (s.setPc t (decided c prev curr (s.key curr)))
  | .setNext c prev curr => some ((s.setNext c.node (some curr)).setPc t (.link c prev curr))
  | .link c prev curr =>
      some ((s.setNext prev (some c.node)).setPc t (.unlockPrev c prev curr (some true)))
  | .getNext c prev curr => some (s.setPc t (.unlink c prev curr (s.next curr)))
  | .unlink c prev curr next =>
      some ((s.setNext prev next).setPc t (.unlockPrev c prev curr (some true)))
  | .unlockPrev c prev curr ret =>
      some ((s.setMutex prev false).setPc t (.unlockCurr c curr ret))
  | .unlockCurr c curr ret =>
      some ((s.setMutex curr false).setPc t (match ret with | none => .start c | some b => .ret b))
  | .ret _ => some (s.setPc t .idle)

/-- One step. -/
def step [DecidableEq τ] (s : State τ) (a : Act τ) : Option (State τ) :=
  match s.thread a.tid, a.choice with
  | .idle, .call op key => some (s.begin a.tid op key)
  | pc, .go => go s a.tid pc
  | _, _ => none

/-- What `list_init` leaves behind. -/
def IsInit (s : State τ) : Prop :=
  s.key head = intMin ∧ s.key tail = intMax ∧ s.next head = some tail ∧
    (∀ a, a ≠ head → s.next a = none) ∧ s.alloc = 2 ∧ ∀ t, s.thread t = .idle

/-- One initial state: no mutex is locked. -/
def State.start (τ : Type*) : State τ where
  key a := if a = head then intMin else intMax
  next a := if a = head then some tail else none
  mutex _ := false
  alloc := 2
  thread _ := .idle

lemma State.start_isInit (τ : Type*) : IsInit (State.start τ) :=
  ⟨rfl, rfl, rfl, fun _ ha => if_neg ha, rfl, fun _ => rfl⟩

/-- The list with threads `τ`. -/
def list (τ : Type*) [DecidableEq τ] : Machine (State τ) (Act τ) where
  init := IsInit
  step := step

/-- The call or the return that a step is. -/
def event (s : State τ) (a : Act τ) : Option (Event Call Bool) :=
  match s.thread a.tid, a.choice with
  | .idle, .call op key => some (.call ⟨op, key⟩)
  | .ret b, .go => some (.ret b)
  | _, _ => none

/-! ## What a step can do -/

/-- The steps of thread `t`, one by one, with the event each of them is. -/
inductive Move [DecidableEq τ] (s : State τ) (t : τ) : Option (Event Call Bool) → State τ → Prop
  | call (op : Op) (key : ℤ) (hpc : s.thread t = .idle) :
      Move s t (some (.call ⟨op, key⟩)) (s.begin t op key)
  | start (c : Args) (curr : ℕ) (hpc : s.thread t = .start c) (hn : s.next head = some curr) :
      Move s t none (s.setPc t (.walk c head curr))
  | walk (c : Args) (prev curr n : ℕ) (hpc : s.thread t = .walk c prev curr)
      (hk : s.key curr < c.key) (hn : s.next curr = some n) :
      Move s t none (s.setPc t (.walk c curr n))
  | found (c : Args) (prev curr : ℕ) (hpc : s.thread t = .walk c prev curr)
      (hk : c.key ≤ s.key curr) : Move s t none (s.setPc t (.lockPrev c prev curr))
  | lockPrev (c : Args) (prev curr : ℕ) (hpc : s.thread t = .lockPrev c prev curr)
      (hm : s.mutex prev = false) :
      Move s t none ((s.setMutex prev true).setPc t (.lockCurr c prev curr))
  | lockCurr (c : Args) (prev curr : ℕ) (hpc : s.thread t = .lockCurr c prev curr)
      (hm : s.mutex curr = false) :
      Move s t none ((s.setMutex curr true).setPc t (.validate c prev curr head))
  | seek (c : Args) (prev curr it n : ℕ) (hpc : s.thread t = .validate c prev curr it)
      (hk : s.key it ≤ s.key prev) (hn : s.next it = some n) :
      Move s t none (s.setPc t (.validate c prev curr n))
  | valid (c : Args) (prev curr : ℕ) (hpc : s.thread t = .validate c prev curr prev)
      (hn : s.next prev = some curr) : Move s t none (s.setPc t (.decide c prev curr))
  | invalid (c : Args) (prev curr it : ℕ) (hpc : s.thread t = .validate c prev curr it) :
      Move s t none (s.setPc t (.unlockPrev c prev curr none))
  | decide (c : Args) (prev curr : ℕ) (hpc : s.thread t = .decide c prev curr) :
      Move s t none (s.setPc t (decided c prev curr (s.key curr)))
  | setNext (c : Args) (prev curr : ℕ) (hpc : s.thread t = .setNext c prev curr) :
      Move s t none ((s.setNext c.node (some curr)).setPc t (.link c prev curr))
  | link (c : Args) (prev curr : ℕ) (hpc : s.thread t = .link c prev curr) :
      Move s t none
        ((s.setNext prev (some c.node)).setPc t (.unlockPrev c prev curr (some true)))
  | getNext (c : Args) (prev curr : ℕ) (hpc : s.thread t = .getNext c prev curr) :
      Move s t none (s.setPc t (.unlink c prev curr (s.next curr)))
  | unlink (c : Args) (prev curr : ℕ) (next : Option ℕ)
      (hpc : s.thread t = .unlink c prev curr next) :
      Move s t none ((s.setNext prev next).setPc t (.unlockPrev c prev curr (some true)))
  | unlockPrev (c : Args) (prev curr : ℕ) (ret : Option Bool)
      (hpc : s.thread t = .unlockPrev c prev curr ret) :
      Move s t none ((s.setMutex prev false).setPc t (.unlockCurr c curr ret))
  | again (c : Args) (curr : ℕ) (hpc : s.thread t = .unlockCurr c curr none) :
      Move s t none ((s.setMutex curr false).setPc t (.start c))
  | leave (c : Args) (curr : ℕ) (b : Bool) (hpc : s.thread t = .unlockCurr c curr (some b)) :
      Move s t none ((s.setMutex curr false).setPc t (.ret b))
  | ret (b : Bool) (hpc : s.thread t = .ret b) :
      Move s t (some (.ret b)) (s.setPc t .idle)

variable [DecidableEq τ] {s s' : State τ} {t : τ}

/-- A step inside a call is a move. -/
lemma move_of_go (h : go s t (s.thread t) = some s') :
    Move s t (event s ⟨t, .go⟩) s' := by
  cases hpc : s.thread t <;> simp only [hpc, go, event] at h ⊢
  case idle => simp at h
  case start c =>
    obtain ⟨curr, hn, rfl⟩ := Option.map_eq_some_iff.mp h
    exact .start c curr hpc hn
  case walk c prev curr =>
    split_ifs at h with hk
    · obtain ⟨n, hn, rfl⟩ := Option.map_eq_some_iff.mp h
      exact .walk c prev curr n hpc hk hn
    · obtain rfl := Option.some.inj h
      exact .found c prev curr hpc (not_lt.mp hk)
  case lockPrev c prev curr =>
    obtain ⟨hm, h⟩ := Option.ite_none_right_eq_some.mp h
    obtain rfl := Option.some.inj h
    exact .lockPrev c prev curr hpc hm
  case lockCurr c prev curr =>
    obtain ⟨hm, h⟩ := Option.ite_none_right_eq_some.mp h
    obtain rfl := Option.some.inj h
    exact .lockCurr c prev curr hpc hm
  case validate c prev curr it =>
    obtain ⟨pc, hv, rfl⟩ := Option.map_eq_some_iff.mp h
    unfold validateStep at hv
    split_ifs at hv with hk hit hn
    · obtain rfl := Option.some.inj hv
      subst hit
      exact .valid c it curr hpc hn
    · obtain rfl := Option.some.inj hv
      exact .invalid c prev curr it hpc
    · obtain ⟨n, hn, rfl⟩ := Option.map_eq_some_iff.mp hv
      exact .seek c prev curr it n hpc hk hn
    · obtain rfl := Option.some.inj hv
      exact .invalid c prev curr it hpc
  case decide c prev curr =>
    obtain rfl := Option.some.inj h
    exact .decide c prev curr hpc
  case setNext c prev curr =>
    obtain rfl := Option.some.inj h
    exact .setNext c prev curr hpc
  case link c prev curr =>
    obtain rfl := Option.some.inj h
    exact .link c prev curr hpc
  case getNext c prev curr =>
    obtain rfl := Option.some.inj h
    exact .getNext c prev curr hpc
  case unlink c prev curr next =>
    obtain rfl := Option.some.inj h
    exact .unlink c prev curr next hpc
  case unlockPrev c prev curr ret =>
    obtain rfl := Option.some.inj h
    exact .unlockPrev c prev curr ret hpc
  case unlockCurr c curr ret =>
    obtain rfl := Option.some.inj h
    cases ret with
    | none => exact .again c curr hpc
    | some b => exact .leave c curr b hpc
  case ret b =>
    obtain rfl := Option.some.inj h
    exact .ret b hpc

/-- **Every step is one of the moves.** -/
theorem move_of_step {a : Act τ} (h : step s a = some s') : Move s a.tid (event s a) s' := by
  obtain ⟨t, choice⟩ := a
  unfold step at h
  dsimp only at h
  split at h
  · rename_i op key hpc
    obtain rfl := Option.some.inj h
    simp only [event, hpc]
    exact .call op key hpc
  · rename_i hpc
    exact move_of_go h
  · simp at h

end Multicore.Lab11.Optimistic
