import Multicore.Lib.Machine

/-!
# The bounded queue

`lab13/queue_giantlock.cpp`: a ring of `QUEUE_SIZE` slots.  A call of `enqueue` or `dequeue` draws
a ticket; the ticket names a slot and a round, and the flag of the slot says whose turn it is: in
round `r` it is `2 r` for the enqueue and `2 r + 1` for the dequeue.

Each access to the shared memory is one step of `queue τ`; `τ` are the threads, and any of them may
call either function.

* `fetchAndAnd` — how a ticket is drawn.  It is an *and*, not an addition, so that **every ticket
  is `0`** (`Tickets`).
* `LosesNothing` — what a queue should do, about the calls made so far.
* `Stage` — the life of the one key that can pass through the queue properly.
* **`losesNothing_iff`** — the queue is right exactly as long as there has been at most one
  enqueue and at most one dequeue.
-/

namespace Multicore.Lab13

/-! ## The program -/

/-- The number of slots. -/
def queueSize : ℕ := 1024

/-- `__sync_fetch_and_and(p, v)`: what was there before, and what is there now. -/
def fetchAndAnd (p v : ℕ) : ℕ × ℕ := (p, p &&& v)

/-- Where a thread stands.  `call` numbers the enqueues, or the dequeues, in the order in which they
drew their tickets. -/
inductive Pc
  | idle
  /-- `flag = queue[slot_idx].flag` and the tests that follow -/
  | enqTest (call : ℕ) (key : ℤ) (seq : ℕ)
  /-- `queue[slot_idx].key = key` -/
  | enqWrite (call : ℕ) (key : ℤ) (seq : ℕ)
  /-- `queue[slot_idx].flag++` -/
  | enqFlag (call : ℕ) (key : ℤ) (seq : ℕ)
  /-- `flag = queue[slot_idx].flag` and the tests that follow -/
  | deqTest (call : ℕ) (seq : ℕ)
  /-- `ret_key = queue[slot_idx].key` -/
  | deqRead (call : ℕ) (seq : ℕ)
  /-- `queue[slot_idx].flag++` -/
  | deqFlag (call : ℕ) (seq : ℕ) (retKey : ℤ)
  deriving DecidableEq

/-- A dequeue with its ticket, the key it read, and the enqueue that had written the key. -/
structure Taken where
  seq : ℕ
  key : ℤ
  source : Option ℕ
  deriving DecidableEq

/-- The memory, and where each thread stands.  The last five fields are history: no step of the code
reads them. -/
structure State (τ : Type*) where
  rear : ℕ
  front : ℕ
  /-- `queue[i].key` -/
  key : ℕ → ℤ
  /-- `queue[i].flag` -/
  flag : ℕ → ℕ
  pc : τ → Pc
  /-- the key and the ticket of each enqueue -/
  enqueued : List (ℤ × ℕ)
  /-- the ticket of each dequeue -/
  dequeued : List ℕ
  /-- the enqueue that wrote the key of a slot -/
  writer : ℕ → Option ℕ
  /-- the keys that were read -/
  taken : List Taken
  /-- the enqueues whose key was overwritten before it was read -/
  overwritten : List ℕ

/-- After `init_queue`. -/
def State.start (τ : Type*) : State τ where
  rear := 0
  front := 0
  key _ := 0
  flag _ := 0
  pc _ := .idle
  enqueued := []
  dequeued := []
  writer _ := none
  taken := []
  overwritten := []

/-- A thread calls a function, or takes its next step in it. -/
inductive Act (τ : Type*)
  | enqueue (t : τ) (key : ℤ)
  | dequeue (t : τ)
  | go (t : τ)

section Steps

variable {τ : Type*} [DecidableEq τ]

namespace State

variable (s : State τ)

/-- `queue[slot_idx].flag++` on a `uint64_t`, at the end of a call. -/
def flagIncr (t : τ) (slot : ℕ) : State τ :=
  { s with
    flag := Function.update s.flag slot ((s.flag slot + 1) % 2 ^ 64)
    pc := Function.update s.pc t .idle }

/-- The ticket of an enqueue. -/
def enqTicket (t : τ) (key : ℤ) : State τ :=
  { s with
    rear := (fetchAndAnd s.rear 1).2
    pc := Function.update s.pc t (.enqTest s.enqueued.length key (fetchAndAnd s.rear 1).1)
    enqueued := s.enqueued ++ [(key, (fetchAndAnd s.rear 1).1)] }

/-- The ticket of a dequeue. -/
def deqTicket (t : τ) : State τ :=
  { s with
    front := (fetchAndAnd s.front 1).2
    pc := Function.update s.pc t (.deqTest s.dequeued.length (fetchAndAnd s.front 1).1)
    dequeued := s.dequeued ++ [(fetchAndAnd s.front 1).1] }

/-- The enqueue whose key is in a slot and has not been read. -/
def unread (slot : ℕ) : Option ℕ :=
  (s.writer slot).filter fun i => decide (some i ∉ s.taken.map Taken.source)

/-- An enqueue writes its key. -/
def keyWrite (t : τ) (call : ℕ) (key : ℤ) (seq : ℕ) : State τ :=
  { s with
    key := Function.update s.key (seq % queueSize) key
    pc := Function.update s.pc t (.enqFlag call key seq)
    writer := Function.update s.writer (seq % queueSize) (some call)
    overwritten := s.overwritten ++ (s.unread (seq % queueSize)).toList }

/-- A dequeue reads a key. -/
def keyRead (t : τ) (call seq : ℕ) : State τ :=
  { s with
    pc := Function.update s.pc t (.deqFlag call seq (s.key (seq % queueSize)))
    taken := s.taken ++ [⟨seq, s.key (seq % queueSize), s.writer (seq % queueSize)⟩] }

/-- The next step of a thread inside of a call. -/
def go (t : τ) : Option (State τ) :=
  match s.pc t with
  | .idle => none
  | .enqTest call key seq =>
      if s.flag (seq % queueSize) % 2 = 1 then some s
      else if s.flag (seq % queueSize) / 2 = seq / queueSize then
        some { s with pc := Function.update s.pc t (.enqWrite call key seq) }
      else some s
  | .enqWrite call key seq => some (s.keyWrite t call key seq)
  | .enqFlag _ _ seq => some (s.flagIncr t (seq % queueSize))
  | .deqTest call seq =>
      if s.flag (seq % queueSize) % 2 = 0 then some s
      else if s.flag (seq % queueSize) / 2 = seq / queueSize then
        some { s with pc := Function.update s.pc t (.deqRead call seq) }
      else some s
  | .deqRead call seq => some (s.keyRead t call seq)
  | .deqFlag _ seq _ => some (s.flagIncr t (seq % queueSize))

/-- What an action does. -/
def step : Act τ → Option (State τ)
  | .enqueue t key => if s.pc t = .idle then some (s.enqTicket t key) else none
  | .dequeue t => if s.pc t = .idle then some (s.deqTicket t) else none
  | .go t => s.go t

end State

/-- The program with threads `τ`. -/
def queue (τ : Type*) [DecidableEq τ] : Machine (State τ) (Act τ) where
  init s := s = State.start τ
  step := State.step

end Steps

/-! ## The property -/

/-- Nothing is lost or duplicated, as far as the calls have come. -/
structure LosesNothing {τ : Type*} (s : State τ) : Prop where
  enq_tickets : (s.enqueued.map Prod.snd).Nodup
  deq_tickets : s.dequeued.Nodup
  overwritten : s.overwritten = []
  once : (s.taken.map Taken.source).Nodup
  match_ticket : ∀ x ∈ s.taken, ∃ i, x.source = some i ∧ s.enqueued[i]? = some (x.key, x.seq)

/-! ## What the steps can do -/

section Moves

variable {τ : Type*} [DecidableEq τ]

/-- The steps, with what is known when they are made. -/
inductive Move (s : State τ) (t : τ) : State τ → Prop
  | stay : Move s t s
  | enqTicket {key : ℤ} (hpc : s.pc t = .idle) : Move s t (s.enqTicket t key)
  | deqTicket (hpc : s.pc t = .idle) : Move s t (s.deqTicket t)
  | enqPass {call : ℕ} {key : ℤ} {seq : ℕ} (hpc : s.pc t = .enqTest call key seq)
      (hflag : s.flag (seq % queueSize) = 2 * (seq / queueSize)) :
      Move s t { s with pc := Function.update s.pc t (.enqWrite call key seq) }
  | keyWrite {call : ℕ} {key : ℤ} {seq : ℕ} (hpc : s.pc t = .enqWrite call key seq) :
      Move s t (s.keyWrite t call key seq)
  | enqFlag {call : ℕ} {key : ℤ} {seq : ℕ} (hpc : s.pc t = .enqFlag call key seq) :
      Move s t (s.flagIncr t (seq % queueSize))
  | deqPass {call seq : ℕ} (hpc : s.pc t = .deqTest call seq)
      (hflag : s.flag (seq % queueSize) = 2 * (seq / queueSize) + 1) :
      Move s t { s with pc := Function.update s.pc t (.deqRead call seq) }
  | keyRead {call seq : ℕ} (hpc : s.pc t = .deqRead call seq) : Move s t (s.keyRead t call seq)
  | deqFlag {call seq : ℕ} {retKey : ℤ} (hpc : s.pc t = .deqFlag call seq retKey) :
      Move s t (s.flagIncr t (seq % queueSize))

lemma move_of_step {s s' : State τ} {a : Act τ} (h : (queue τ).step s a = some s') :
    ∃ t, Move s t s' := by
  cases a with
  | enqueue t key =>
      obtain ⟨hpc, h⟩ := Option.ite_none_right_eq_some.1 h
      obtain rfl := Option.some.inj h
      exact ⟨t, .enqTicket hpc⟩
  | dequeue t =>
      obtain ⟨hpc, h⟩ := Option.ite_none_right_eq_some.1 h
      obtain rfl := Option.some.inj h
      exact ⟨t, .deqTicket hpc⟩
  | go t =>
      refine ⟨t, ?_⟩
      simp only [queue, State.step, State.go] at h
      split at h
      · cases h
      · rename_i call key seq hpc
        split_ifs at h with hodd hround <;> obtain rfl := Option.some.inj h
        · exact .stay
        · exact .enqPass hpc (by omega)
        · exact .stay
      · rename_i hpc
        obtain rfl := Option.some.inj h
        exact .keyWrite hpc
      · rename_i hpc
        obtain rfl := Option.some.inj h
        exact .enqFlag hpc
      · rename_i call seq hpc
        split_ifs at h with heven hround <;> obtain rfl := Option.some.inj h
        · exact .stay
        · exact .deqPass hpc (by omega)
        · exact .stay
      · rename_i hpc
        obtain rfl := Option.some.inj h
        exact .keyRead hpc
      · rename_i hpc
        obtain rfl := Option.some.inj h
        exact .deqFlag hpc

end Moves

/-! ## Calls and tickets -/

/-- The enqueue that a thread is in. -/
def Pc.enq : Pc → Option ℕ
  | .enqTest call _ _ => some call
  | .enqWrite call _ _ => some call
  | .enqFlag call _ _ => some call
  | _ => none

/-- The dequeue that a thread is in. -/
def Pc.deq : Pc → Option ℕ
  | .deqTest call _ => some call
  | .deqRead call _ => some call
  | .deqFlag call _ _ => some call
  | _ => none

/-- The key and the ticket of a call are those of the history. -/
def Pc.Fits (enqueued : List (ℤ × ℕ)) (dequeued : List ℕ) : Pc → Prop
  | .idle => True
  | .enqTest call key seq => enqueued[call]? = some (key, seq)
  | .enqWrite call key seq => enqueued[call]? = some (key, seq)
  | .enqFlag call key seq => enqueued[call]? = some (key, seq)
  | .deqTest call seq => dequeued[call]? = some seq
  | .deqRead call seq => dequeued[call]? = some seq
  | .deqFlag call seq _ => dequeued[call]? = some seq

lemma Pc.Fits.append {enq : List (ℤ × ℕ)} {deq : List ℕ} {pc : Pc} (h : pc.Fits enq deq)
    (enq' : List (ℤ × ℕ)) (deq' : List ℕ) : pc.Fits (enq ++ enq') (deq ++ deq') := by
  cases pc with
  | idle => trivial
  | enqTest | enqWrite | enqFlag | deqTest | deqRead | deqFlag =>
      obtain ⟨hlt, -⟩ := List.getElem?_eq_some_iff.1 h
      simpa only [Pc.Fits, List.getElem?_append_left hlt] using h

lemma Pc.Fits.enq_lt {enq : List (ℤ × ℕ)} {deq : List ℕ} {pc : Pc} (h : pc.Fits enq deq) {i : ℕ}
    (hi : pc.enq = some i) : i < enq.length := by
  cases pc with
  | enqTest | enqWrite | enqFlag =>
      obtain rfl := Option.some.inj hi
      exact (List.getElem?_eq_some_iff.1 h).1
  | idle | deqTest | deqRead | deqFlag => cases hi

lemma Pc.Fits.deq_lt {enq : List (ℤ × ℕ)} {deq : List ℕ} {pc : Pc} (h : pc.Fits enq deq) {i : ℕ}
    (hi : pc.deq = some i) : i < deq.length := by
  cases pc with
  | deqTest | deqRead | deqFlag =>
      obtain rfl := Option.some.inj hi
      exact (List.getElem?_eq_some_iff.1 h).1
  | idle | enqTest | enqWrite | enqFlag => cases hi

variable {τ : Type*} {s s' : State τ} {t u : τ}

/-- Calls stay apart: a thread that moves is in its old call, or in one with a new number. -/
lemma inj_update [DecidableEq τ] {call : Pc → Option ℕ} {f : τ → Pc} {n : ℕ}
    (hlt : ∀ u i, call (f u) = some i → i < n)
    (hinj : ∀ u v i, call (f u) = some i → call (f v) = some i → u = v) {pc : Pc}
    (hpc : ∀ i, call pc = some i → i = n ∨ call (f t) = some i) :
    ∀ u v i, call (Function.update f t pc u) = some i → call (Function.update f t pc v) = some i →
      u = v := by
  have hself : ∀ u i, call pc = some i → call (f u) = some i → u = t := by
    intro u i hi hu
    rcases hpc i hi with rfl | ht
    · exact absurd (hlt u i hu) (lt_irrefl i)
    · exact hinj u t i hu ht
  intro u v i hu hv
  rw [Function.update_apply] at hu hv
  split_ifs at hu hv with hut hvt hvt
  · exact hut.trans hvt.symm
  · exact hut.trans (hself v i hu hv).symm
  · exact (hself u i hv hu).trans hvt.symm
  · exact hinj u v i hu hv

/-- Tickets and calls. -/
structure Tickets (s : State τ) : Prop where
  rear : s.rear = 0
  front : s.front = 0
  enq_zero : ∀ e ∈ s.enqueued, e.2 = 0
  deq_zero : ∀ seq ∈ s.dequeued, seq = 0
  fits : ∀ t, (s.pc t).Fits s.enqueued s.dequeued
  enq_inj : ∀ t u i, (s.pc t).enq = some i → (s.pc u).enq = some i → t = u
  deq_inj : ∀ t u i, (s.pc t).deq = some i → (s.pc u).deq = some i → t = u

namespace Tickets

lemma start : Tickets (State.start τ) where
  rear := rfl
  front := rfl
  enq_zero _ h := absurd h List.not_mem_nil
  deq_zero _ h := absurd h List.not_mem_nil
  fits _ := trivial
  enq_inj _ _ _ h := nomatch h
  deq_inj _ _ _ h := nomatch h

/-- While there has been one enqueue only one thread can be in it. -/
lemma enq_other (h : Tickets s) (hn : s.enqueued.length ≤ 1) {i : ℕ} (ht : (s.pc t).enq = some i)
    (hut : u ≠ t) : (s.pc u).enq = none := by
  rw [Option.eq_none_iff_forall_ne_some]
  intro j hu
  have hi := (h.fits t).enq_lt ht
  have hj := (h.fits u).enq_lt hu
  obtain rfl : i = j := by omega
  exact hut (h.enq_inj u t i hu ht)

lemma deq_other (h : Tickets s) (hm : s.dequeued.length ≤ 1) {i : ℕ} (ht : (s.pc t).deq = some i)
    (hut : u ≠ t) : (s.pc u).deq = none := by
  rw [Option.eq_none_iff_forall_ne_some]
  intro j hu
  have hi := (h.fits t).deq_lt ht
  have hj := (h.fits u).deq_lt hu
  obtain rfl : i = j := by omega
  exact hut (h.deq_inj u t i hu ht)

lemma enq_seq (h : Tickets s) {call seq : ℕ} {key : ℤ} (hc : s.enqueued[call]? = some (key, seq)) :
    seq = 0 :=
  h.enq_zero _ (List.mem_of_getElem? hc)

lemma deq_seq (h : Tickets s) {call seq : ℕ} (hc : s.dequeued[call]? = some seq) : seq = 0 :=
  h.deq_zero _ (List.mem_of_getElem? hc)

variable [DecidableEq τ]

/-- A step inside of a call: the thread stays in its call, or leaves it. -/
lemma inCall (h : Tickets s) {pc : Pc} (hpc : s'.pc = Function.update s.pc t pc)
    (hr : s'.rear = s.rear) (hf : s'.front = s.front) (he : s'.enqueued = s.enqueued)
    (hd : s'.dequeued = s.dequeued) (hfit : pc.Fits s.enqueued s.dequeued)
    (henq : ∀ i, pc.enq = some i → (s.pc t).enq = some i)
    (hdeq : ∀ i, pc.deq = some i → (s.pc t).deq = some i) : Tickets s' := by
  refine ⟨hr.trans h.rear, hf.trans h.front, he ▸ h.enq_zero, hd ▸ h.deq_zero, fun u => ?_, ?_, ?_⟩
  · rw [he, hd, hpc, Function.update_apply]
    split_ifs
    · exact hfit
    · exact h.fits u
  · rw [hpc]
    exact inj_update (fun u i => (h.fits u).enq_lt) h.enq_inj fun i hi => Or.inr (henq i hi)
  · rw [hpc]
    exact inj_update (fun u i => (h.fits u).deq_lt) h.deq_inj fun i hi => Or.inr (hdeq i hi)

lemma enqTicket (h : Tickets s) (t : τ) (key : ℤ) : Tickets (s.enqTicket t key) := by
  refine ⟨?_, h.front, ?_, h.deq_zero, fun u => ?_, ?_, ?_⟩
  · simp [State.enqTicket, fetchAndAnd, h.rear]
  · intro e he
    rcases List.mem_append.1 he with he | he
    · exact h.enq_zero e he
    · rw [List.mem_singleton.1 he]
      exact h.rear
  · simp only [State.enqTicket, Function.update_apply]
    split_ifs
    · simp [Pc.Fits]
    · simpa using (h.fits u).append [(key, (fetchAndAnd s.rear 1).1)] []
  · refine inj_update (fun u i => (h.fits u).enq_lt) h.enq_inj fun i hi => Or.inl ?_
    exact (Option.some.inj hi).symm
  · exact inj_update (fun u i => (h.fits u).deq_lt) h.deq_inj fun i hi => nomatch hi

lemma deqTicket (h : Tickets s) (t : τ) : Tickets (s.deqTicket t) := by
  refine ⟨h.rear, ?_, h.enq_zero, ?_, fun u => ?_, ?_, ?_⟩
  · simp [State.deqTicket, fetchAndAnd, h.front]
  · intro seq hseq
    rcases List.mem_append.1 hseq with hseq | hseq
    · exact h.deq_zero seq hseq
    · rw [List.mem_singleton.1 hseq]
      exact h.front
  · simp only [State.deqTicket, Function.update_apply]
    split_ifs
    · simp [Pc.Fits]
    · simpa using (h.fits u).append [] [(fetchAndAnd s.front 1).1]
  · exact inj_update (fun u i => (h.fits u).enq_lt) h.enq_inj fun i hi => nomatch hi
  · refine inj_update (fun u i => (h.fits u).deq_lt) h.deq_inj fun i hi => Or.inl ?_
    exact (Option.some.inj hi).symm

lemma move (h : Tickets s) (hm : Move s t s') : Tickets s' := by
  have hfit := h.fits t
  cases hm with
  | stay => exact h
  | enqTicket hpc => exact h.enqTicket t _
  | deqTicket hpc => exact h.deqTicket t
  | enqPass hpc | keyWrite hpc | deqPass hpc | keyRead hpc =>
      rw [hpc] at hfit
      refine h.inCall rfl rfl rfl rfl rfl hfit ?_ ?_
      · rw [hpc]
        exact fun i hi => hi
      · rw [hpc]
        exact fun i hi => hi
  | enqFlag hpc | deqFlag hpc =>
      exact h.inCall rfl rfl rfl rfl rfl trivial (fun _ hi => nomatch hi) fun _ hi => nomatch hi

end Tickets

/-! ## One enqueue and one dequeue -/

/-- How far the key of the only enqueue has come. -/
inductive Phase
  | empty | written | full | read | done

/-- `queue[0].flag` -/
def Phase.flag : Phase → ℕ
  | .empty => 0
  | .written => 0
  | .full => 1
  | .read => 1
  | .done => 2

/-- Where threads may stand. -/
def Phase.allows : Phase → Pc → Bool
  | _, .idle => true
  | .empty, .enqTest .. => true
  | .empty, .enqWrite .. => true
  | .empty, .deqTest .. => true
  | .written, .enqFlag .. => true
  | .written, .deqTest .. => true
  | .full, .deqTest .. => true
  | .full, .deqRead .. => true
  | .read, .deqFlag .. => true
  | _, _ => false

/-- The key has been written. -/
def Phase.isStored : Phase → Bool
  | .empty => false
  | _ => true

/-- The key has been read. -/
def Phase.isTaken : Phase → Bool
  | .read => true
  | .done => true
  | _ => false

/-- The state of slot `0` with at most one enqueue and at most one dequeue. -/
structure Stage (s : State τ) (p : Phase) : Prop where
  flag : s.flag 0 = p.flag
  allows : ∀ t, p.allows (s.pc t) = true
  writer : s.writer 0 = if p.isStored then some 0 else none
  stored : p.isStored = true → s.enqueued[0]? = some (s.key 0, 0)
  called : p.isTaken = true → s.dequeued ≠ []
  taken : s.taken = if p.isTaken then [⟨0, s.key 0, some 0⟩] else []
  overwritten : s.overwritten = []

/-- The right state as long as there is at most one of both. -/
def Staged (s : State τ) : Prop :=
  s.enqueued.length ≤ 1 → s.dequeued.length ≤ 1 → ∃ p, Stage s p

variable [DecidableEq τ]

omit [DecidableEq τ] in
/-- The phase in which a thread stands where only one phase allows it. -/
lemma Stage.eq_of_pc {p q : Phase} (h : Stage s p) {pc : Pc} (hpc : s.pc t = pc)
    (hq : ∀ p : Phase, p.allows pc = true → p = q) : p = q :=
  hq p (hpc ▸ h.allows t)

/-- The moving thread goes where the new phase allows it; the others are allowed there unless they
are in the same call. -/
lemma Stage.allows_update {p p' : Phase} {pc : Pc} (h : Stage s p) (hpc : p'.allows pc = true)
    (hother : ∀ u, u ≠ t → p.allows (s.pc u) = true → p'.allows (s.pc u) = true) (u : τ) :
    p'.allows (Function.update s.pc t pc u) = true := by
  rw [Function.update_apply]
  split_ifs with hut
  · exact hpc
  · exact hother u hut (h.allows u)

/-- A thread in the only enqueue moves: nobody else is in it. -/
lemma Stage.allows_enq {p p' : Phase} {pc : Pc} {i : ℕ} (h : Stage s p) (ht : Tickets s)
    (hn : s.enqueued.length ≤ 1) (henq : (s.pc t).enq = some i) (hpc : p'.allows pc = true)
    (hout : ∀ q : Pc, q.enq = none → p.allows q = true → p'.allows q = true) (u : τ) :
    p'.allows (Function.update s.pc t pc u) = true :=
  h.allows_update hpc (fun _ hut hu => hout _ (ht.enq_other hn henq hut) hu) u

/-- The same for a dequeue. -/
lemma Stage.allows_deq {p p' : Phase} {pc : Pc} {i : ℕ} (h : Stage s p) (ht : Tickets s)
    (hm : s.dequeued.length ≤ 1) (hdeq : (s.pc t).deq = some i) (hpc : p'.allows pc = true)
    (hout : ∀ q : Pc, q.deq = none → p.allows q = true → p'.allows q = true) (u : τ) :
    p'.allows (Function.update s.pc t pc u) = true :=
  h.allows_update hpc (fun _ hut hu => hout _ (ht.deq_other hm hdeq hut) hu) u

lemma Staged.enqTicket (hs : Staged s) (t : τ) (key : ℤ) : Staged (s.enqTicket t key) := by
  intro hn hm
  have hnil : s.enqueued = [] := by
    rw [← List.length_eq_zero_iff]
    simpa [State.enqTicket] using hn
  obtain ⟨p, h⟩ := hs (by simp [hnil]) hm
  have hp : p.isStored = false := by
    by_contra hp
    have := h.stored (Bool.eq_true_of_not_eq_false hp)
    simp [hnil] at this
  cases p with
  | empty => exact ⟨.empty, h.flag, h.allows_update rfl fun _ _ hu => hu, h.writer, nofun, nofun,
      h.taken, h.overwritten⟩
  | written | full | read | done => cases hp

lemma Staged.deqTicket (hs : Staged s) (t : τ) : Staged (s.deqTicket t) := by
  intro hn hm
  have hnil : s.dequeued = [] := by
    rw [← List.length_eq_zero_iff]
    simpa [State.deqTicket] using hm
  obtain ⟨p, h⟩ := hs hn (by simp [hnil])
  have hp : p.isTaken = false := by
    by_contra hp
    exact h.called (Bool.eq_true_of_not_eq_false hp) hnil
  cases p with
  | empty | written | full => exact ⟨_, h.flag, h.allows_update rfl fun _ _ hu => hu, h.writer,
      h.stored, nofun, h.taken, h.overwritten⟩
  | read | done => cases hp

lemma Staged.keyWrite (hs : Staged s) (ht : Tickets s) {call seq : ℕ} {key : ℤ}
    (hpc : s.pc t = .enqWrite call key seq) : Staged (s.keyWrite t call key seq) := by
  intro hn hm
  obtain ⟨p, h⟩ := hs hn hm
  obtain rfl : p = .empty := h.eq_of_pc hpc fun p hp => by cases p <;> first | rfl | cases hp
  have hfit : s.enqueued[call]? = some (key, seq) := by
    have := ht.fits t
    rwa [hpc] at this
  obtain rfl := ht.enq_seq hfit
  obtain rfl : call = 0 :=
    Nat.lt_one_iff.1 ((List.getElem?_eq_some_iff.1 hfit).1.trans_le hn)
  have hout : ∀ q : Pc, q.enq = none → Phase.empty.allows q = true →
      Phase.written.allows q = true := by
    intro q hq hp
    cases q <;> simp_all [Phase.allows, Pc.enq]
  have henq : (s.pc t).enq = some 0 := by rw [hpc]; rfl
  refine ⟨.written, h.flag, h.allows_enq ht hn henq rfl hout, ?_, fun _ => ?_, nofun, h.taken, ?_⟩
  · simp [State.keyWrite, Phase.isStored]
  · simpa [State.keyWrite] using hfit
  · have hw : s.writer 0 = none := h.writer
    simp [State.keyWrite, State.unread, hw, h.overwritten]

lemma Staged.enqFlag (hs : Staged s) (ht : Tickets s) {call seq : ℕ} {key : ℤ}
    (hpc : s.pc t = .enqFlag call key seq) : Staged (s.flagIncr t (seq % queueSize)) := by
  intro hn hm
  obtain ⟨p, h⟩ := hs hn hm
  obtain rfl : p = .written := h.eq_of_pc hpc fun p hp => by cases p <;> first | rfl | cases hp
  have hfit : s.enqueued[call]? = some (key, seq) := by
    have := ht.fits t
    rwa [hpc] at this
  obtain rfl := ht.enq_seq hfit
  have hout : ∀ q : Pc, q.enq = none → Phase.written.allows q = true →
      Phase.full.allows q = true := by
    intro q hq hp
    cases q <;> simp_all [Phase.allows, Pc.enq]
  have henq : (s.pc t).enq = some call := by rw [hpc]; rfl
  refine ⟨.full, ?_, h.allows_enq ht hn henq rfl hout, h.writer, h.stored, nofun, h.taken,
    h.overwritten⟩
  have hflag : s.flag 0 = 0 := h.flag
  simp [State.flagIncr, hflag, Phase.flag]

lemma Staged.keyRead (hs : Staged s) (ht : Tickets s) {call seq : ℕ}
    (hpc : s.pc t = .deqRead call seq) : Staged (s.keyRead t call seq) := by
  intro hn hm
  obtain ⟨p, h⟩ := hs hn hm
  obtain rfl : p = .full := h.eq_of_pc hpc fun p hp => by cases p <;> first | rfl | cases hp
  have hfit : s.dequeued[call]? = some seq := by
    have := ht.fits t
    rwa [hpc] at this
  obtain rfl := ht.deq_seq hfit
  have hout : ∀ q : Pc, q.deq = none → Phase.full.allows q = true →
      Phase.read.allows q = true := by
    intro q hq hp
    cases q <;> simp_all [Phase.allows, Pc.deq]
  have hdeq : (s.pc t).deq = some call := by rw [hpc]; rfl
  have hw : s.writer 0 = some 0 := h.writer
  have htaken : s.taken = [] := h.taken
  refine ⟨.read, h.flag, h.allows_deq ht hm hdeq rfl hout, h.writer, h.stored, fun _ => ?_, ?_,
    h.overwritten⟩
  · exact List.ne_nil_of_mem (List.mem_of_getElem? hfit)
  · simp [State.keyRead, htaken, hw, Phase.isTaken]

lemma Staged.deqFlag (hs : Staged s) (ht : Tickets s) {call seq : ℕ} {retKey : ℤ}
    (hpc : s.pc t = .deqFlag call seq retKey) : Staged (s.flagIncr t (seq % queueSize)) := by
  intro hn hm
  obtain ⟨p, h⟩ := hs hn hm
  obtain rfl : p = .read := h.eq_of_pc hpc fun p hp => by cases p <;> first | rfl | cases hp
  have hfit : s.dequeued[call]? = some seq := by
    have := ht.fits t
    rwa [hpc] at this
  obtain rfl := ht.deq_seq hfit
  have hout : ∀ q : Pc, q.deq = none → Phase.read.allows q = true →
      Phase.done.allows q = true := by
    intro q hq hp
    cases q <;> simp_all [Phase.allows, Pc.deq]
  have hdeq : (s.pc t).deq = some call := by rw [hpc]; rfl
  refine ⟨.done, ?_, h.allows_deq ht hm hdeq rfl hout, h.writer, h.stored, h.called, h.taken,
    h.overwritten⟩
  have hflag : s.flag 0 = 1 := h.flag
  simp [State.flagIncr, hflag, Phase.flag]

lemma Staged.move (hs : Staged s) (ht : Tickets s) (hm : Move s t s') : Staged s' := by
  cases hm with
  | stay => exact hs
  | enqTicket hpc => exact hs.enqTicket t _
  | deqTicket hpc => exact hs.deqTicket t
  | keyWrite hpc => exact hs.keyWrite ht hpc
  | enqFlag hpc => exact hs.enqFlag ht hpc
  | keyRead hpc => exact hs.keyRead ht hpc
  | deqFlag hpc => exact hs.deqFlag ht hpc
  | enqPass hpc hflag =>
      intro hn hm
      obtain ⟨p, h⟩ := hs hn hm
      obtain rfl : p = .empty := h.eq_of_pc hpc fun p hp => by cases p <;> first | rfl | cases hp
      exact ⟨.empty, h.flag, h.allows_update rfl fun _ _ hu => hu, h.writer, h.stored, h.called,
        h.taken, h.overwritten⟩
  | @deqPass call seq hpc hflag =>
      intro hn hm
      obtain ⟨p, h⟩ := hs hn hm
      have hallow := h.allows t
      have hfit := ht.fits t
      rw [hpc] at hallow hfit
      obtain rfl := ht.deq_seq hfit
      -- three phases allow the test, but the flag is that of the last one
      have hp : p.flag = 1 := by rw [← h.flag]; exact hflag
      cases p with
      | full => exact ⟨.full, h.flag, h.allows_update rfl fun _ _ hu => hu, h.writer, h.stored,
          h.called, h.taken, h.overwritten⟩
      | empty | written => cases hp
      | read | done => cases hallow

lemma inv_of_reachable (hs : (queue τ).Reachable s) : Tickets s ∧ Staged s := by
  refine Machine.Run.invariant (I := fun s => Tickets s ∧ Staged s) ?_ ?_ s hs
  · rintro _ rfl
    refine ⟨Tickets.start, fun _ _ => ⟨.empty, ?_⟩⟩
    exact ⟨rfl, fun _ => rfl, rfl, nofun, nofun, rfl, rfl⟩
  · rintro s a s' - ⟨ht, hst⟩ - hstep
    obtain ⟨t, hm⟩ := move_of_step hstep
    exact ⟨ht.move hm, hst.move ht hm⟩

/-! ## The main result -/

/-- A list of equal things has no duplicates only if it is short. -/
lemma nodup_iff_length_le_one {α : Type*} {l : List α} {a : α} (h : ∀ x ∈ l, x = a) :
    l.Nodup ↔ l.length ≤ 1 := by
  rw [← List.nodup_replicate (a := a), ← List.eq_replicate_of_mem h]

/-- **The queue is right exactly as long as it is hardly used.**  In a reachable state the tickets
are distinct, no key was overwritten before it was read, and each key was read by the dequeue with
the ticket of its enqueue and by no other, if and only if at most one enqueue and at most one
dequeue have drawn a ticket. -/
theorem losesNothing_iff (hs : (queue τ).Reachable s) :
    LosesNothing s ↔ s.enqueued.length ≤ 1 ∧ s.dequeued.length ≤ 1 := by
  obtain ⟨ht, hst⟩ := inv_of_reachable hs
  have hzero : ∀ seq ∈ s.enqueued.map Prod.snd, seq = 0 := by
    intro seq hseq
    obtain ⟨e, he, rfl⟩ := List.mem_map.1 hseq
    exact ht.enq_zero e he
  have henq : (s.enqueued.map Prod.snd).Nodup ↔ s.enqueued.length ≤ 1 := by
    rw [nodup_iff_length_le_one hzero, List.length_map]
  have hdeq : s.dequeued.Nodup ↔ s.dequeued.length ≤ 1 := nodup_iff_length_le_one ht.deq_zero
  refine ⟨fun h => ⟨henq.1 h.enq_tickets, hdeq.1 h.deq_tickets⟩, ?_⟩
  rintro ⟨hn, hm⟩
  obtain ⟨p, h⟩ := hst hn hm
  have htaken : s.taken = [] ∨ p.isStored = true ∧ s.taken = [⟨0, s.key 0, some 0⟩] := by
    have := h.taken
    cases p with
    | empty | written | full => exact Or.inl this
    | read | done => exact Or.inr ⟨rfl, this⟩
  refine ⟨henq.2 hn, hdeq.2 hm, h.overwritten, ?_, ?_⟩
  · rcases htaken with htaken | ⟨-, htaken⟩
    · simp [htaken]
    · simp [htaken]
  · intro x hx
    rcases htaken with htaken | ⟨hstored, htaken⟩
    · simp [htaken] at hx
    · rw [htaken, List.mem_singleton] at hx
      subst hx
      exact ⟨0, rfl, h.stored hstored⟩

/-- One key goes through the queue. -/
theorem losesNothing_one_key :
    ∃ s : State (Fin 2), (queue (Fin 2)).Reachable s ∧ s.taken.map Taken.key = [7] ∧
      (LosesNothing s ↔ s.enqueued.length ≤ 1 ∧ s.dequeued.length ≤ 1) := by
  obtain ⟨s, hs, hp⟩ := Machine.exists_reachable_of_exec (M := queue (Fin 2)) rfl
    [.enqueue 0 7, .go 0, .dequeue 1, .go 1, .go 0, .go 0, .go 1, .go 1, .go 1]
    (fun s => decide (s.taken.map Taken.key = [7])) (by decide +kernel)
  exact ⟨s, hs, of_decide_eq_true hp, losesNothing_iff hs⟩

/-- Two enqueues draw the same ticket and pass the test together: the key of the first is
overwritten, and two dequeues read the key of the second. -/
theorem loses_and_duplicates :
    ∃ s : State (Fin 4), (queue (Fin 4)).Reachable s ∧ s.enqueued = [(7, 0), (8, 0)] ∧
      s.overwritten = [0] ∧ s.taken = [⟨0, 8, some 1⟩, ⟨0, 8, some 1⟩] ∧ ¬ LosesNothing s := by
  obtain ⟨s, hs, hp⟩ := Machine.exists_reachable_of_exec (M := queue (Fin 4)) rfl
    [.enqueue 0 7, .enqueue 1 8, .go 0, .go 1, .go 0, .go 1, .go 0,
      .dequeue 2, .dequeue 3, .go 2, .go 3, .go 2, .go 3]
    (fun s => decide (s.enqueued = [(7, 0), (8, 0)] ∧ s.overwritten = [0] ∧
      s.taken = [⟨0, 8, some 1⟩, ⟨0, 8, some 1⟩])) (by decide +kernel)
  obtain ⟨henq, hover, htaken⟩ := of_decide_eq_true hp
  refine ⟨s, hs, henq, hover, htaken, fun h => ?_⟩
  rw [h.overwritten] at hover
  cases hover

end Multicore.Lab13
