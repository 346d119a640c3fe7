import Multicore.Lib.Liveness
import Multicore.Lab13.Queue

/-!
# The program of lab 13

`main` of `lab13/queue_giantlock.cpp` starts `NUM_PRODUCER` producers and as many consumers, joins
them and looks whether every key has come out of the queue.  A producer calls `enqueue`
`NUM_ENQUEUE_PER_PRODUCER` times, a consumer `dequeue` as often.

All tickets are `0`, so that only the flag of the first slot is of interest: producers get past it
while it is `0`, consumers while it is `1`, and every call adds one to it when it leaves.  The flag
is a plain `uint64_t`: here `flag++` is a read and a write, between which other threads may write
the flag, so that increments are lost and the flag can go back from `2` to `1`, but not to `0`.

* `program p n` — the program with `p` producers and `p` consumers of `n` calls each.
* `View`, `Hop` — the flag and where the threads are in relation to it.  **`Linked.hop`**: every
  step of a thread is a hop.
* `Turns` — no producer completes two calls, and no consumer more than there are enqueued keys.
* `Orderly` — schedules under which all calls get past the flag if there is one for each thread.
* **`prints_iff`** — the program can print at all exactly if its threads make one call at most.
-/

namespace Multicore.Lab13

variable {p n : ℕ}

/-! ## The program -/

/-- Where a thread is in its loop. -/
inductive Loop
  /-- about to make the call `i`, if there is one -/
  | next (i : ℕ)
  | inside (i : ℕ)
  /-- in `flag++`, with the value that was read -/
  | store (i flag : ℕ)
  /-- `flag_verification[key_dequeue] = true` -/
  | mark (i : ℕ) (key : ℤ)

/-- The write of `queue[slot_idx].flag++`, at the end of a call. -/
def State.flagStore {τ : Type*} [DecidableEq τ] (s : State τ) (t : τ) (slot flag : ℕ) : State τ :=
  { s with
    flag := Function.update s.flag slot ((flag + 1) % 2 ^ 64)
    pc := Function.update s.pc t .idle }

/-- Where `main` is; it joins the threads in the order in which it has created them. -/
inductive MainPc
  | create (i : ℕ)
  | join (i : ℕ)
  /-- `CORRECT!` or `INCORRECT!` -/
  | printed (correct : Bool)

/-- The queue, the threads and `main`.  The first `p` threads are the producers. -/
structure ProgState (p : ℕ) where
  queue : State (Fin (2 * p))
  loop : Fin (2 * p) → Loop
  flagVerification : ℤ → Bool
  main : MainPc

/-- Has thread `t` been created? -/
def MainPc.created (main : MainPc) (t : Fin (2 * p)) : Bool :=
  match main with
  | .create i => decide (t.val < i)
  | _ => true

namespace ProgState

variable (n : ℕ) (s : ProgState p)

/-- The thread is through with its loop. -/
def through (t : Fin (2 * p)) : Bool :=
  match s.loop t with
  | .next i => decide (n ≤ i)
  | _ => false

/-- The verification at the end of `main`. -/
def verify : Bool := (List.range (p * n)).all fun i => s.flagVerification i

/-- The call `i` of a thread: `ProducerFunc` and `ConsumerFunc`. -/
def call (t : Fin (2 * p)) (i : ℕ) : Act (Fin (2 * p)) :=
  if t.val < p then .enqueue t (n * t.val + i) else .dequeue t

/-- A step of a thread. -/
def threadStep (t : Fin (2 * p)) : Option (ProgState p) :=
  match s.loop t with
  | .next i =>
      if i < n then
        (s.queue.step (call n t i)).map fun q =>
          { s with queue := q, loop := Function.update s.loop t (.inside i) }
      else none
  | .inside i =>
      match s.queue.pc t with
      | .enqFlag _ _ seq | .deqFlag _ seq _ =>
          some { s with
            loop := Function.update s.loop t (.store i (s.queue.flag (seq % queueSize))) }
      | _ => (s.queue.step (.go t)).map fun q => { s with queue := q }
  | .store i flag =>
      match s.queue.pc t with
      | .enqFlag _ _ seq =>
          some { s with
            queue := s.queue.flagStore t (seq % queueSize) flag
            loop := Function.update s.loop t (.next (i + 1)) }
      | .deqFlag _ seq key =>
          some { s with
            queue := s.queue.flagStore t (seq % queueSize) flag
            loop := Function.update s.loop t (.mark i key) }
      | _ => none
  | .mark i key =>
      some { s with
        flagVerification := Function.update s.flagVerification key true
        loop := Function.update s.loop t (.next (i + 1)) }

/-- A step of `main`. -/
def mainStep : Option (ProgState p) :=
  match s.main with
  | .create i => some { s with main := if i < 2 * p then .create (i + 1) else .join 0 }
  | .join i =>
      if h : i < 2 * p then
        if s.through n ⟨i, h⟩ then some { s with main := .join (i + 1) } else none
      else some { s with main := .printed (s.verify n) }
  | .printed _ => none

/-- `main`, or the thread `t`, takes a step. -/
def step : Option (Fin (2 * p)) → Option (ProgState p)
  | none => s.mainStep n
  | some t => if s.main.created t then s.threadStep n t else none

end ProgState

/-- The program. -/
def program (p n : ℕ) : Machine (ProgState p) (Option (Fin (2 * p))) where
  init s := s = ⟨State.start _, fun _ => .next 0, fun _ => false, .create 0⟩
  step s a := s.step n a

/-! ## The flag and the threads -/

/-- Where a thread is, in relation to the flag of the first slot. -/
inductive Place
  | before (i : ℕ)
  /-- in the loop that looks at the flag -/
  | test (i : ℕ)
  /-- about to access the key -/
  | access (i : ℕ)
  /-- about to increment the flag -/
  | leave (i : ℕ)
  /-- has read the flag to increment it -/
  | store (i flag : ℕ)
  | mark (i : ℕ)
  deriving DecidableEq

def place (loop : Loop) (pc : Pc) : Place :=
  match loop with
  | .next i => .before i
  | .inside i =>
      match pc with
      | .idle => .before i
      | .enqTest _ _ _ | .deqTest _ _ => .test i
      | .enqWrite _ _ _ | .deqRead _ _ => .access i
      | .enqFlag _ _ _ | .deqFlag _ _ _ => .leave i
  | .store i flag => .store i flag
  | .mark i _ => .mark i

/-- The flag of the first slot, and where the threads are. -/
structure View (p : ℕ) where
  flag : ℕ
  place : Fin (2 * p) → Place

def ProgState.view (s : ProgState p) : View p :=
  ⟨s.queue.flag 0, fun t => Lab13.place (s.loop t) (s.queue.pc t)⟩

/-- The flag for which a thread waits. -/
def turn (t : Fin (2 * p)) : ℕ := if t.val < p then 0 else 1

/-- What a thread can do. -/
inductive Hop (n : ℕ) (v : View p) (t : Fin (2 * p)) : View p → Prop
  | call (i : ℕ) (ht : v.place t = .before i) (hi : i < n) :
      Hop n v t ⟨v.flag, Function.update v.place t (.test i)⟩
  | spin (i : ℕ) (ht : v.place t = .test i) (hflag : v.flag ≠ turn t) : Hop n v t v
  | pass (i : ℕ) (ht : v.place t = .test i) (hflag : v.flag = turn t) :
      Hop n v t ⟨v.flag, Function.update v.place t (.access i)⟩
  | access (i : ℕ) (ht : v.place t = .access i) :
      Hop n v t ⟨v.flag, Function.update v.place t (.leave i)⟩
  | leave (i : ℕ) (ht : v.place t = .leave i) :
      Hop n v t ⟨v.flag, Function.update v.place t (.store i v.flag)⟩
  | store (i flag : ℕ) (ht : v.place t = .store i flag) :
      Hop n v t ⟨(flag + 1) % 2 ^ 64,
        Function.update v.place t (if t.val < p then .before (i + 1) else .mark i)⟩
  | mark (i : ℕ) (ht : v.place t = .mark i) :
      Hop n v t ⟨v.flag, Function.update v.place t (.before (i + 1))⟩

/-- A thread in its loop is in a call of its own function, or in none. -/
def Loop.Fits (t : Fin (2 * p)) (pc : Pc) : Loop → Prop
  | .inside _ => (t.val < p → pc.enq.isSome) ∧ (¬ t.val < p → pc.deq.isSome)
  | .store _ _ =>
      (t.val < p → ∃ call key seq, pc = .enqFlag call key seq) ∧
      (¬ t.val < p → ∃ call seq key, pc = .deqFlag call seq key)
  | _ => pc = .idle

/-- The loops and the queue belong together. -/
structure Linked (s : ProgState p) : Prop where
  tickets : Tickets s.queue
  fits : ∀ t, (s.loop t).Fits t (s.queue.pc t)

section Linked

variable {s s' : ProgState p} {t : Fin (2 * p)}

/-- One thread moves. -/
lemma Linked.moved (h : Linked s) {loop : Loop} {pc : Pc} (htickets : Tickets s'.queue)
    (hloop : s'.loop = Function.update s.loop t loop)
    (hpc : s'.queue.pc = Function.update s.queue.pc t pc) (hfits : loop.Fits t pc)
    (hhop : Hop n s.view t
      ⟨s'.queue.flag 0, Function.update s.view.place t (Lab13.place loop pc)⟩) :
    Linked s' ∧ Hop n s.view t s'.view := by
  refine ⟨⟨htickets, fun u => ?_⟩, ?_⟩
  · rw [hloop, hpc, Function.update_apply, Function.update_apply]
    split_ifs with hu
    · exact hu ▸ hfits
    · exact h.fits u
  · have hview : s'.view
        = ⟨s'.queue.flag 0, Function.update s.view.place t (Lab13.place loop pc)⟩ := by
      simp only [ProgState.view, View.mk.injEq, true_and, hloop, hpc]
      funext u
      simp only [Function.update_apply]
      split_ifs with hu
      · rfl
      · rfl
    rw [hview]
    exact hhop

/-- A step of a call before its end. -/
lemma Linked.go (h : Linked s) {i : ℕ} {q : State (Fin (2 * p))} (hloop : s.loop t = .inside i)
    (henq : ∀ call key seq, s.queue.pc t ≠ .enqFlag call key seq)
    (hdeq : ∀ call seq key, s.queue.pc t ≠ .deqFlag call seq key) (hq : s.queue.go t = some q) :
    Linked { s with queue := q } ∧ Hop n s.view t (ProgState.view { s with queue := q }) := by
  have hfits := h.fits t
  rw [hloop] at hfits
  have hcall := h.tickets.fits t
  have hplace : s.view.place t = Lab13.place (.inside i) (s.queue.pc t) := by
    rw [← hloop]
    rfl
  have hstays : s.loop = Function.update s.loop t (.inside i) := by
    rw [← hloop, Function.update_eq_self]
  unfold State.go at hq
  cases hpc : s.queue.pc t with
  | idle => simp [hpc] at hq
  | enqTest call key seq =>
      rw [hpc] at hplace hcall hfits
      have hprod : t.val < p := by
        by_contra hcons
        simpa [Pc.deq] using hfits.2 hcons
      have hturn : turn t = 0 := if_pos hprod
      obtain rfl := h.tickets.enq_seq hcall
      simp only [hpc, Nat.zero_mod, Nat.zero_div] at hq
      have hflag : s.view.flag = s.queue.flag 0 := rfl
      split_ifs at hq with hodd hround
      · obtain rfl := Option.some.inj hq
        exact ⟨h, .spin i hplace (by omega)⟩
      · obtain rfl := Option.some.inj hq
        have hzero : s.queue.flag 0 = turn t := by omega
        exact h.moved (h.tickets.move (.enqPass hpc (by simpa using hzero.trans hturn))) hstays rfl
          ⟨fun _ => rfl, absurd hprod⟩ (.pass i hplace hzero)
      · obtain rfl := Option.some.inj hq
        exact ⟨h, .spin i hplace (by omega)⟩
  | enqWrite call key seq =>
      rw [hpc] at hplace hfits
      simp only [hpc] at hq
      obtain rfl := Option.some.inj hq
      exact h.moved (h.tickets.move (.keyWrite hpc)) hstays rfl hfits (.access i hplace)
  | enqFlag call key seq => exact absurd hpc (henq call key seq)
  | deqTest call seq =>
      rw [hpc] at hplace hcall hfits
      have hcons : ¬ t.val < p := fun hprod => by simpa [Pc.enq] using hfits.1 hprod
      have hturn : turn t = 1 := if_neg hcons
      obtain rfl := h.tickets.deq_seq hcall
      simp only [hpc, Nat.zero_mod, Nat.zero_div] at hq
      have hflag : s.view.flag = s.queue.flag 0 := rfl
      split_ifs at hq with heven hround
      · obtain rfl := Option.some.inj hq
        exact ⟨h, .spin i hplace (by omega)⟩
      · obtain rfl := Option.some.inj hq
        have hone : s.queue.flag 0 = turn t := by omega
        exact h.moved (h.tickets.move (.deqPass hpc (by simpa using hone.trans hturn))) hstays rfl
          ⟨fun hprod => absurd hprod hcons, fun _ => rfl⟩ (.pass i hplace hone)
      · obtain rfl := Option.some.inj hq
        exact ⟨h, .spin i hplace (by omega)⟩
  | deqRead call seq =>
      rw [hpc] at hplace hfits
      simp only [hpc] at hq
      obtain rfl := Option.some.inj hq
      exact h.moved (h.tickets.move (.keyRead hpc)) hstays rfl hfits (.access i hplace)
  | deqFlag call seq key => exact absurd hpc (hdeq call seq key)

/-- The read of `flag++`. -/
lemma Linked.load (h : Linked s) {i seq : ℕ} (hloop : s.loop t = .inside i)
    (hplace : place (.inside i) (s.queue.pc t) = .leave i) (hseq : seq = 0)
    (hfits : (Loop.store i 0).Fits t (s.queue.pc t)) :
    Linked { s with
      loop := Function.update s.loop t (.store i (s.queue.flag (seq % queueSize))) } ∧
    Hop n s.view t (ProgState.view { s with
      loop := Function.update s.loop t (.store i (s.queue.flag (seq % queueSize))) }) := by
  subst hseq
  refine h.moved h.tickets rfl (Function.update_eq_self t _).symm hfits (.leave i ?_)
  rw [← hplace, ← hloop]
  rfl

/-- The write of `flag++`. -/
lemma Linked.store (h : Linked s) {i seq flag : ℕ} {loop : Loop} (hloop : s.loop t = .store i flag)
    (hseq : seq = 0) (hidle : loop.Fits t .idle)
    (hplace : place loop .idle = if t.val < p then .before (i + 1) else .mark i) :
    Linked { s with
      queue := s.queue.flagStore t (seq % queueSize) flag
      loop := Function.update s.loop t loop } ∧
    Hop n s.view t (ProgState.view { s with
      queue := s.queue.flagStore t (seq % queueSize) flag
      loop := Function.update s.loop t loop }) := by
  subst hseq
  have htickets : Tickets (s.queue.flagStore t (0 % queueSize) flag) :=
    h.tickets.inCall rfl rfl rfl rfl rfl trivial nofun nofun
  refine h.moved htickets rfl rfl hidle ?_
  have hhop := Hop.store (n := n) (v := s.view) (t := t) i flag (by
    simp [ProgState.view, hloop, place])
  rw [← hplace] at hhop
  exact hhop

/-- **Every step of a thread is a hop.** -/
lemma Linked.hop (h : Linked s) (hs : s.threadStep n t = some s') :
    Linked s' ∧ Hop n s.view t s'.view := by
  have hfits := h.fits t
  unfold ProgState.threadStep at hs
  cases hloop : s.loop t with
  | next i =>
      simp only [hloop] at hs hfits
      obtain ⟨hi, hs⟩ := Option.ite_none_right_eq_some.mp hs
      have hidle : s.queue.pc t = .idle := hfits
      have hplace : s.view.place t = .before i := by simp [ProgState.view, hloop, place]
      obtain ⟨q, hq, rfl⟩ := Option.map_eq_some_iff.mp hs
      unfold ProgState.call at hq
      split_ifs at hq with hprod
      · simp only [State.step, hidle, if_true, Option.some.injEq] at hq
        subst hq
        exact h.moved (h.tickets.enqTicket t _) rfl rfl ⟨fun _ => rfl, absurd hprod⟩
          (.call i hplace hi)
      · simp only [State.step, hidle, if_true, Option.some.injEq] at hq
        subst hq
        exact h.moved (h.tickets.deqTicket t) rfl rfl ⟨fun ht => absurd ht hprod, fun _ => rfl⟩
          (.call i hplace hi)
  | inside i =>
      simp only [hloop] at hs hfits
      have hcall := h.tickets.fits t
      split at hs
      · rename_i call key seq hpc
        rw [hpc] at hcall hfits
        have hprod : t.val < p := by
          by_contra hcons
          simpa [Pc.deq] using hfits.2 hcons
        obtain rfl := Option.some.inj hs
        exact h.load hloop (by rw [hpc]; rfl) (h.tickets.enq_seq hcall)
          ⟨fun _ => ⟨call, key, seq, hpc⟩, absurd hprod⟩
      · rename_i call seq key hpc
        rw [hpc] at hcall hfits
        have hcons : ¬ t.val < p := fun hprod => by simpa [Pc.enq] using hfits.1 hprod
        obtain rfl := Option.some.inj hs
        exact h.load hloop (by rw [hpc]; rfl) (h.tickets.deq_seq hcall)
          ⟨fun hprod => absurd hprod hcons, fun _ => ⟨call, seq, key, hpc⟩⟩
      · rename_i henq hdeq
        obtain ⟨q, hq, rfl⟩ := Option.map_eq_some_iff.mp hs
        exact h.go hloop henq hdeq hq
  | store i flag =>
      simp only [hloop] at hs hfits
      have hcall := h.tickets.fits t
      split at hs
      · rename_i call key seq hpc
        rw [hpc] at hcall hfits
        have hprod : t.val < p := by
          by_contra hcons
          simpa using hfits.2 hcons
        obtain rfl := Option.some.inj hs
        exact h.store hloop (h.tickets.enq_seq hcall) rfl (by rw [if_pos hprod]; rfl)
      · rename_i call seq key hpc
        rw [hpc] at hcall hfits
        have hcons : ¬ t.val < p := fun hprod => by simpa using hfits.1 hprod
        obtain rfl := Option.some.inj hs
        exact h.store hloop (h.tickets.deq_seq hcall) rfl (by rw [if_neg hcons]; rfl)
      · cases hs
  | mark i key =>
      simp only [hloop] at hs hfits
      obtain rfl := Option.some.inj hs
      have hplace : s.view.place t = .mark i := by simp [ProgState.view, hloop, place]
      have hidle : s.queue.pc t = .idle := hfits
      have hpc : s.queue.pc = Function.update s.queue.pc t .idle := by
        rw [← hidle, Function.update_eq_self]
      exact h.moved h.tickets rfl hpc rfl (.mark i hplace)

end Linked

/-! ## No producer completes two calls -/

/-- How many calls a thread has completed. -/
def Place.done : Place → ℕ
  | .before i | .test i | .access i | .leave i | .store i _ => i
  | .mark i => i + 1

/-- With how many calls a thread has got past the flag. -/
def Place.passed : Place → ℕ
  | .before i | .test i => i
  | .access i | .leave i | .store i _ | .mark i => i + 1

lemma Place.done_le_passed (place : Place) : place.done ≤ place.passed := by
  cases place <;> simp [done, passed]

/-- The completed calls. -/
def View.done (v : View p) : ℕ := ∑ t, (v.place t).done

/-- The completed calls of the producers. -/
def View.puts (v : View p) : ℕ := ∑ t, if t.val < p then (v.place t).done else 0

section Turns

variable {v v' : View p} {t : Fin (2 * p)}

lemma sum_update (weight : Fin (2 * p) → Place → ℕ) (place : Fin (2 * p) → Place)
    (t : Fin (2 * p)) (new : Place) :
    ∑ u, weight u (Function.update place t new u) + weight t (place t)
      = ∑ u, weight u (place u) + weight t new := by
  rw [← Finset.add_sum_erase _ (fun u => weight u (place u)) (Finset.mem_univ t),
    ← Finset.add_sum_erase _ (fun u => weight u (Function.update place t new u))
      (Finset.mem_univ t), Function.update_self]
  have hrest : ∑ u ∈ Finset.univ.erase t, weight u (Function.update place t new u)
      = ∑ u ∈ Finset.univ.erase t, weight u (place u) :=
    Finset.sum_congr rfl fun u hu => by rw [Function.update_of_ne (Finset.ne_of_mem_erase hu)]
  omega

lemma View.done_update (flag : ℕ) (new : Place) :
    (⟨flag, Function.update v.place t new⟩ : View p).done + (v.place t).done
      = v.done + new.done :=
  sum_update (fun _ place => place.done) v.place t new

lemma View.puts_update (flag : ℕ) (new : Place) :
    (⟨flag, Function.update v.place t new⟩ : View p).puts
        + (if t.val < p then (v.place t).done else 0)
      = v.puts + if t.val < p then new.done else 0 :=
  sum_update (fun u place => if u.val < p then place.done else 0) v.place t new

lemma View.done_le_puts (ht : t.val < p) : (v.place t).done ≤ v.puts := by
  have hle := Finset.single_le_sum
    (f := fun u : Fin (2 * p) => if u.val < p then (v.place u).done else 0)
    (fun _ _ => Nat.zero_le _) (Finset.mem_univ t)
  simp only [ht, if_true] at hle
  exact hle

/-- What is known of the flag, and of the values of it that are to be incremented. -/
structure Turns (v : View p) : Prop where
  flag_le : v.flag ≤ v.done
  read_le : ∀ t i flag, v.place t = .store i flag → flag ≤ v.done
  read_pos : ∀ t i flag, ¬ t.val < p → v.place t = .store i flag → 0 < flag
  started : 0 < v.puts → 0 < v.flag
  producer : ∀ t, t.val < p → (v.place t).passed ≤ 1
  consumer : ∀ t, ¬ t.val < p → (v.place t).passed ≤ v.puts
  /-- whom the flag lets pass has completed less calls than the producers -/
  waits : v.flag = 1 → ∀ t, ¬ t.val < p → (v.place t).passed = (v.place t).done →
    (v.place t).done < v.puts

namespace Turns

/-- There are not enough calls for the flag to go round. -/
lemma done_lt (h : Turns v) (hp : 2 * p < 2 ^ 32) (ht : (v.place t).done < (v.place t).passed) :
    v.done + 1 < 2 ^ 64 := by
  have hputs : v.puts ≤ 2 * p := by
    have hle : v.puts ≤ ∑ _t : Fin (2 * p), 1 := by
      refine Finset.sum_le_sum fun u _ => ?_
      split_ifs with hu
      · exact (v.place u).done_le_passed.trans (h.producer u hu)
      · exact Nat.zero_le 1
    simpa using hle
  have hpassed : ∀ u, (v.place u).passed ≤ 2 * p := fun u => by
    by_cases hu : u.val < p
    · have := h.producer u hu
      omega
    · exact (h.consumer u hu).trans hputs
  have hlt : v.done < 2 * p * (2 * p) := by
    calc v.done < ∑ u, (v.place u).passed :=
          Finset.sum_lt_sum (fun u _ => (v.place u).done_le_passed) ⟨t, Finset.mem_univ t, ht⟩
      _ ≤ ∑ _u : Fin (2 * p), 2 * p := Finset.sum_le_sum fun u _ => hpassed u
      _ = 2 * p * (2 * p) := by simp
  have hsquare : 2 * p * (2 * p) ≤ (2 ^ 32 - 1) * (2 ^ 32 - 1) :=
    Nat.mul_le_mul (by omega) (by omega)
  omega

/-- A thread moves without writing the flag. -/
lemma moved (h : Turns v) {new : Place} (hdone : new.done = (v.place t).done)
    (hprod : t.val < p → new.passed ≤ 1) (hcons : ¬ t.val < p → new.passed ≤ v.puts)
    (hwaits : new.passed = new.done → (v.place t).passed = (v.place t).done)
    (hread : ∀ i flag, new = .store i flag → flag = v.flag ∧ (¬ t.val < p → 0 < flag)) :
    Turns ⟨v.flag, Function.update v.place t new⟩ := by
  have hdone' : (⟨v.flag, Function.update v.place t new⟩ : View p).done = v.done := by
    have := View.done_update (v := v) (t := t) v.flag new
    omega
  have hputs' : (⟨v.flag, Function.update v.place t new⟩ : View p).puts = v.puts := by
    have := View.puts_update (v := v) (t := t) v.flag new
    rw [hdone] at this
    exact Nat.add_right_cancel this
  refine ⟨?_, ?_, ?_, ?_, ?_, ?_, ?_⟩
  · rw [hdone']
    exact h.flag_le
  · rw [hdone']
    intro u i flag hu
    simp only [Function.update_apply] at hu
    split_ifs at hu with hut
    · exact (hread i flag hu).1 ▸ h.flag_le
    · exact h.read_le u i flag hu
  · intro u i flag hucons hu
    simp only [Function.update_apply] at hu
    split_ifs at hu with hut
    · exact (hread i flag hu).2 (hut ▸ hucons)
    · exact h.read_pos u i flag hucons hu
  · rw [hputs']
    exact h.started
  · intro u hu
    simp only [Function.update_apply]
    split_ifs with hut
    · exact hprod (hut ▸ hu)
    · exact h.producer u hu
  · rw [hputs']
    intro u hu
    simp only [Function.update_apply]
    split_ifs with hut
    · exact hcons (hut ▸ hu)
    · exact h.consumer u hu
  · rw [hputs']
    intro hflag u hu
    simp only [Function.update_apply]
    split_ifs with hut
    · intro hsame
      subst hut
      rw [hdone]
      exact h.waits hflag u hu (hwaits hsame)
    · exact h.waits hflag u hu

/-- A thread writes the flag. -/
lemma stored (h : Turns v) (hp : 2 * p < 2 ^ 32) {i flag : ℕ} {new : Place}
    (ht : v.place t = .store i flag) (hdone : new.done = i + 1) (hpassed : new.passed = i + 1)
    (hread : ∀ i flag, new ≠ .store i flag) :
    Turns ⟨(flag + 1) % 2 ^ 64, Function.update v.place t new⟩ := by
  have hplace : (v.place t).done = i ∧ (v.place t).passed = i + 1 := by
    rw [ht]
    exact ⟨rfl, rfl⟩
  have hle := h.read_le t i flag ht
  have hround := h.done_lt hp (t := t) (by omega)
  have hdone' := View.done_update (v := v) (t := t) (flag + 1) new
  have hputs' := View.puts_update (v := v) (t := t) (flag + 1) new
  rw [hdone, hplace.1] at hdone' hputs'
  rw [Nat.mod_eq_of_lt (by omega)]
  refine ⟨?_, ?_, ?_, ?_, ?_, ?_, ?_⟩
  · show flag + 1 ≤ _
    omega
  · intro u j value hu
    simp only [Function.update_apply] at hu
    split_ifs at hu with hut
    · exact absurd hu (hread j value)
    · exact (h.read_le u j value hu).trans (by omega)
  · intro u j value hucons hu
    simp only [Function.update_apply] at hu
    split_ifs at hu with hut
    · exact absurd hu (hread j value)
    · exact h.read_pos u j value hucons hu
  · exact fun _ => Nat.succ_pos flag
  · intro u hu
    simp only [Function.update_apply]
    split_ifs with hut
    · subst hut
      have := h.producer u hu
      omega
    · exact h.producer u hu
  · intro u hu
    simp only [Function.update_apply]
    split_ifs with hut
    · subst hut
      have := h.consumer u hu
      simp only [hu, if_false] at hputs'
      omega
    · refine (h.consumer u hu).trans ?_
      split_ifs at hputs' <;> omega
  · -- the flag has become `1`: this was a producer, and the consumers may pass once more
    intro hflag u hu
    have hzero : flag = 0 := Nat.succ.inj hflag
    have hprod : t.val < p := by
      by_contra hcons
      exact absurd (h.read_pos t i flag hcons ht) (by omega)
    simp only [hprod, if_true] at hputs'
    simp only [Function.update_apply]
    split_ifs with hut
    · exact absurd hprod (hut ▸ hu)
    · intro _
      have := (v.place u).done_le_passed.trans (h.consumer u hu)
      omega

/-- **One hop.** -/
lemma hop (h : Turns v) (hp : 2 * p < 2 ^ 32) (hhop : Hop n v t v') : Turns v' := by
  have hprod := h.producer t
  have hcons := h.consumer t
  cases hhop with
  | call i ht hi =>
      rw [ht] at hprod hcons
      exact h.moved (by rw [ht]; rfl) hprod hcons (by rw [ht]; exact id) nofun
  | spin i ht hflag => exact h
  | pass i ht hflag =>
      refine h.moved (by rw [ht]; rfl) (fun hlt => ?_) (fun hge => ?_) ?_ nofun
      · -- the flag is `0`: no producer has completed a call
        have hputs : ¬ 0 < v.puts := fun hpos => by
          have := h.started hpos
          rw [turn, if_pos hlt] at hflag
          omega
        have hdone := View.done_le_puts (v := v) hlt
        rw [ht] at hdone
        simp only [Place.done] at hdone
        simp only [Place.passed]
        omega
      · rw [turn, if_neg hge] at hflag
        have hlt := h.waits hflag t hge (by rw [ht]; rfl)
        rwa [ht] at hlt
      · simp [Place.passed, Place.done]
  | access i ht =>
      rw [ht] at hprod hcons
      exact h.moved (by rw [ht]; rfl) hprod hcons (by simp [Place.passed, Place.done]) nofun
  | leave i ht =>
      rw [ht] at hprod hcons
      refine h.moved (by rw [ht]; rfl) hprod hcons (by simp [Place.passed, Place.done]) ?_
      rintro j flag hnew
      obtain ⟨-, rfl⟩ : i = j ∧ v.flag = flag := by simpa using hnew
      exact ⟨rfl, fun hge => h.started ((Nat.succ_pos i).trans_le (hcons hge))⟩
  | store i flag ht =>
      split_ifs with hlt
      · exact h.stored hp ht rfl rfl nofun
      · exact h.stored hp ht rfl rfl nofun
  | mark i ht =>
      rw [ht] at hprod hcons
      exact h.moved (by rw [ht]; rfl) hprod hcons (by rw [ht]; exact id) nofun

/-- As long as the flag is `0` it can only become `1`. -/
lemma flag_le_one (h : Turns v) (hflag : v.flag = 0) (hhop : Hop n v t v') : v'.flag ≤ 1 := by
  cases hhop with
  | store i flag ht =>
      have hputs : ¬ 0 < v.puts := fun hpos => by
        have := h.started hpos
        omega
      have hnone : ∀ u, (v.place u).done = 0 := fun u => by
        by_cases hu : u.val < p
        · have := View.done_le_puts (v := v) hu
          omega
        · have := (v.place u).done_le_passed.trans (h.consumer u hu)
          omega
      have hle := h.read_le t i flag ht
      simp only [View.done, hnone, Finset.sum_const_zero] at hle
      exact (Nat.mod_le _ _).trans (by omega)
  | call | spin | pass | access | leave | mark => exact hflag.trans_le (Nat.zero_le 1)

end Turns

end Turns

/-! ## Schedules on which every call gets past the flag -/

/-- The thread still has something to do. -/
def Place.unfinished (n : ℕ) : Place → Bool
  | .before i => decide (i < n)
  | _ => true

/-- The thread will not wait for the flag any more. -/
def Place.gone (n : ℕ) : Place → Bool
  | .before i => decide (n ≤ i)
  | .test _ => false
  | _ => true

/-- The steps of a thread that makes at most one call. -/
def Place.stepsLeft (n : ℕ) : Place → ℕ
  | .before i => if i < n then 6 else 0
  | .test _ => 5
  | .access _ => 4
  | .leave _ => 3
  | .store _ _ => 2
  | .mark _ => 1

/-- Nobody has incremented the flag before those have got past it who wait for what it was. -/
structure Orderly (n : ℕ) (v : View p) : Prop where
  inCall : ∀ t i, v.place t = .test i → i < n
  producers : 1 ≤ v.flag → ∀ t, t.val < p → (v.place t).gone n = true
  consumers : 2 ≤ v.flag → ∀ t, ¬ t.val < p → (v.place t).gone n = true

section Schedule

variable {v v' : View p} {t : Fin (2 * p)}

lemma Hop.other (hhop : Hop n v t v') {u : Fin (2 * p)} (hu : u ≠ t) :
    v'.place u = v.place u := by
  cases hhop with
  | spin => rfl
  | call | pass | access | leave | store | mark => exact Function.update_of_ne hu _ _

/-- A hop that is not a look at the flag in vain brings the thread nearer to its end. -/
lemma Hop.stepsLeft_lt (hhop : Hop n v t v') (hn : n ≤ 1)
    (hturn : ∀ i, v.place t = .test i → v.flag = turn t) :
    (v'.place t).stepsLeft n < (v.place t).stepsLeft n := by
  have hlast : ∀ i, ¬ i + 1 < n := fun i => by omega
  cases hhop with
  | call i ht hi => simp [ht, Place.stepsLeft, hi]
  | spin i ht hflag => exact absurd (hturn i ht) hflag
  | pass i ht hflag => simp [ht, Place.stepsLeft]
  | access i ht => simp [ht, Place.stepsLeft]
  | leave i ht => simp [ht, Place.stepsLeft]
  | store i flag ht =>
      simp only [Function.update_self, ht]
      split_ifs <;> simp [Place.stepsLeft, hlast]
  | mark i ht => simp [ht, Place.stepsLeft, hlast]

lemma Hop.gone (hhop : Hop n v t v') (hn : n ≤ 1) (ht : (v.place t).gone n = true) :
    (v'.place t).gone n = true := by
  have hlast : ∀ i, n ≤ i + 1 := fun i => by omega
  cases hhop with
  | call i hplace hi =>
      rw [hplace] at ht
      simp only [Place.gone, decide_eq_true_eq] at ht
      omega
  | spin i hplace hflag => exact ht
  | pass i hplace hflag => simp [Place.gone]
  | access i hplace => simp [Place.gone]
  | leave i hplace => simp [Place.gone]
  | store i flag hplace =>
      simp only [Function.update_self]
      split_ifs <;> simp [Place.gone, hlast]
  | mark i hplace => simp [Place.gone, hlast]

/-- Who waits for the flag does not change it. -/
lemma Hop.flag_of_not_gone (hhop : Hop n v t v') (ht : (v.place t).gone n = false) :
    v'.flag = v.flag := by
  cases hhop with
  | store i flag hplace => simp [hplace, Place.gone] at ht
  | call | spin | pass | access | leave | mark => rfl

lemma Orderly.inCall_hop (h : Orderly n v) (hhop : Hop n v t v') :
    ∀ u i, v'.place u = .test i → i < n := by
  intro u i hu
  by_cases hut : u = t
  · subst hut
    cases hhop with
    | call j ht hj =>
        obtain rfl : j = i := by simpa using hu
        exact hj
    | spin j ht hflag => exact h.inCall u i hu
    | store j flag ht =>
        simp only [Function.update_self] at hu
        split_ifs at hu
    | pass | access | leave | mark => simp at hu
  · exact h.inCall u i ((hhop.other hut).symm.trans hu)

/-- **There is always a thread to go on with.** -/
lemma Orderly.exists_hop (h : Orderly n v) (hturns : Turns v) (hn : n ≤ 1)
    (hbusy : ∃ t, (v.place t).unfinished n = true) :
    ∃ t, (v.place t).unfinished n = true ∧ (∀ i, v.place t = .test i → v.flag = turn t) ∧
      ∀ v', Hop n v t v' → Orderly n v' := by
  -- those who wait are not finished
  have hwaits : ∀ {t}, (v.place t).gone n = false → (v.place t).unfinished n = true := by
    intro t ht
    cases hplace : v.place t <;> simp_all [Place.gone, Place.unfinished]
  have hkeep : ∀ {t u v'}, Hop n v t v' → (v.place u).gone n = true →
      (v'.place u).gone n = true := by
    intro t u v' hhop hu
    by_cases hut : u = t
    · subst hut
      exact hhop.gone hn hu
    · rwa [hhop.other hut]
  by_cases hprod : ∃ t : Fin (2 * p), t.val < p ∧ (v.place t).gone n = false
  · -- a producer waits, and the flag is still `0`
    obtain ⟨t, htp, ht⟩ := hprod
    have hflag : v.flag = 0 := by
      by_contra hne
      simp [h.producers (by omega) t htp] at ht
    refine ⟨t, hwaits ht, fun i _ => by rw [hflag, turn, if_pos htp], fun v' hhop => ?_⟩
    have hflag' := hhop.flag_of_not_gone ht
    exact ⟨h.inCall_hop hhop, by omega, by omega⟩
  · push Not at hprod
    have hprods : ∀ t : Fin (2 * p), t.val < p → (v.place t).gone n = true := fun t ht => by
      simpa using hprod t ht
    by_cases hcons : ∃ t : Fin (2 * p), ¬ t.val < p ∧ (v.place t).gone n = false
    · obtain ⟨t, htp, ht⟩ := hcons
      have hle : v.flag ≤ 1 := by
        by_contra hgt
        simp [h.consumers (by omega) t htp] at ht
      by_cases hflag : v.flag = 0
      · -- a consumer waits for a producer, all of which have got past the flag
        have hpos : 0 < p := by
          have := t.2
          omega
        have hone : 0 < n := by
          cases hplace : v.place t <;> simp [hplace, Place.gone] at ht
          case before i => omega
          case test i => exact (Nat.zero_le i).trans_lt (h.inCall t i hplace)
        obtain ⟨u, hup⟩ : ∃ u : Fin (2 * p), u.val < p := ⟨⟨0, by omega⟩, hpos⟩
        have hdone : (v.place u).done = 0 := by
          have hputs : ¬ 0 < v.puts := fun hpos => by
            have := hturns.started hpos
            omega
          have := View.done_le_puts (v := v) hup
          omega
        have hnot : ∀ i, v.place u ≠ .test i ∧ v.place u ≠ .before i := fun i => by
          have hgone := hprods u hup
          constructor
          · intro hplace
            simp [hplace, Place.gone] at hgone
          · intro hplace
            simp only [hplace, Place.gone, Place.done, decide_eq_true_eq] at hgone hdone
            omega
        refine ⟨u, ?_, fun i hplace => absurd hplace (hnot i).1, fun v' hhop => ?_⟩
        · cases hplace : v.place u <;> simp_all [Place.unfinished]
        · have hflag' := hturns.flag_le_one hflag hhop
          exact ⟨h.inCall_hop hhop, fun _ w hw => hkeep hhop (hprods w hw), by omega⟩
      · refine ⟨t, hwaits ht, fun i _ => ?_, fun v' hhop => ?_⟩
        · rw [turn, if_neg htp]
          omega
        · have hflag' := hhop.flag_of_not_gone ht
          exact ⟨h.inCall_hop hhop, fun _ w hw => hkeep hhop (hprods w hw), by omega⟩
    · -- nobody waits any more
      push Not at hcons
      obtain ⟨t, ht⟩ := hbusy
      have hgone : ∀ u, (v.place u).gone n = true := fun u => by
        by_cases hu : u.val < p
        · exact hprods u hu
        · simpa using hcons u (not_lt.mp hu)
      refine ⟨t, ht, fun i hplace => ?_, fun v' hhop => ?_⟩
      · simpa [hplace, Place.gone] using hgone t
      · exact ⟨h.inCall_hop hhop, fun _ w _ => hkeep hhop (hgone w),
          fun _ w _ => hkeep hhop (hgone w)⟩

end Schedule

/-! ## The whole program -/

/-- Has thread `t` been joined? -/
def MainPc.joined (main : MainPc) (t : Fin (2 * p)) : Bool :=
  match main with
  | .create _ => false
  | .join i => decide (t.val < i)
  | .printed _ => true

/-- The invariant of the program. -/
structure ProgInv (n : ℕ) (s : ProgState p) : Prop where
  linked : Linked s
  turns : Turns s.view
  joined : ∀ t, s.main.joined t = true → s.through n t = true

section Program

variable {s s' : ProgState p} {t : Fin (2 * p)}

/-- A thread that is through stays so. -/
lemma threadStep_of_through (h : s.through n t = true) : s.threadStep n t = none := by
  unfold ProgState.through at h
  unfold ProgState.threadStep
  cases hloop : s.loop t with
  | next i =>
      simp only [hloop, decide_eq_true_eq] at h
      simp [not_lt.mpr h]
  | inside | store | mark => simp [hloop] at h

/-- A step of a thread leaves `main` and the other threads alone. -/
lemma threadStep_frame (h : s.threadStep n t = some s') :
    s'.main = s.main ∧ ∀ u, u ≠ t → s'.loop u = s.loop u := by
  unfold ProgState.threadStep at h
  split at h
  · obtain ⟨-, h⟩ := Option.ite_none_right_eq_some.mp h
    obtain ⟨q, -, rfl⟩ := Option.map_eq_some_iff.mp h
    exact ⟨rfl, fun u hu => Function.update_of_ne hu _ _⟩
  · split at h
    · obtain rfl := Option.some.inj h
      exact ⟨rfl, fun u hu => Function.update_of_ne hu _ _⟩
    · obtain rfl := Option.some.inj h
      exact ⟨rfl, fun u hu => Function.update_of_ne hu _ _⟩
    · obtain ⟨q, -, rfl⟩ := Option.map_eq_some_iff.mp h
      exact ⟨rfl, fun u hu => rfl⟩
  · split at h
    · obtain rfl := Option.some.inj h
      exact ⟨rfl, fun u hu => Function.update_of_ne hu _ _⟩
    · obtain rfl := Option.some.inj h
      exact ⟨rfl, fun u hu => Function.update_of_ne hu _ _⟩
    · cases h
  · obtain rfl := Option.some.inj h
    exact ⟨rfl, fun u hu => Function.update_of_ne hu _ _⟩

lemma ProgInv.thread (h : ProgInv n s) (hp : 2 * p < 2 ^ 32) (hs : s.threadStep n t = some s') :
    ProgInv n s' ∧ Hop n s.view t s'.view := by
  obtain ⟨hlinked, hhop⟩ := h.linked.hop hs
  obtain ⟨hmain, hother⟩ := threadStep_frame hs
  refine ⟨⟨hlinked, h.turns.hop hp hhop, fun u hu => ?_⟩, hhop⟩
  rw [hmain] at hu
  have hthrough := h.joined u hu
  have hne : u ≠ t := by
    rintro rfl
    simp [threadStep_of_through hthrough] at hs
  simpa only [ProgState.through, hother u hne] using hthrough

lemma ProgInv.main (h : ProgInv n s) (hs : s.mainStep n = some s') : ProgInv n s' := by
  unfold ProgState.mainStep at hs
  split at hs
  · obtain rfl := Option.some.inj hs
    refine ⟨⟨h.linked.tickets, h.linked.fits⟩, h.turns, fun u hu => ?_⟩
    simp only at hu
    split_ifs at hu <;> simp [MainPc.joined] at hu
  · rename_i i hmain
    split_ifs at hs with hi hthrough
    · obtain rfl := Option.some.inj hs
      refine ⟨⟨h.linked.tickets, h.linked.fits⟩, h.turns, fun u hu => ?_⟩
      simp only [MainPc.joined, decide_eq_true_eq] at hu
      rcases Nat.lt_succ_iff_lt_or_eq.mp hu with hlt | heq
      · exact h.joined u (by simp [hmain, MainPc.joined, hlt])
      · obtain rfl : u = ⟨i, hi⟩ := Fin.ext heq
        exact hthrough
    · obtain rfl := Option.some.inj hs
      refine ⟨⟨h.linked.tickets, h.linked.fits⟩, h.turns, fun u _ => ?_⟩
      refine h.joined u ?_
      simp only [hmain, MainPc.joined, decide_eq_true_eq]
      exact u.2.trans_le (not_lt.mp hi)
  · cases hs

lemma progInv_of_reachable (hp : 2 * p < 2 ^ 32) (hs : (program p n).Reachable s) :
    ProgInv n s := by
  refine Machine.Run.invariant (M := program p n) (I := ProgInv n) ?_ ?_ s hs
  · rintro s rfl
    refine ⟨⟨.start, fun t => rfl⟩, ⟨Nat.zero_le _, fun _ _ _ => nofun, fun _ _ _ _ => nofun, ?_,
      fun _ _ => Nat.zero_le 1, fun _ _ => Nat.zero_le _, nofun⟩, nofun⟩
    simp [View.puts, ProgState.view, place, Place.done]
  · intro s a s' _ h _ hstep
    cases a with
    | none => exact h.main hstep
    | some t =>
        obtain ⟨-, hstep⟩ := Option.ite_none_right_eq_some.mp hstep
        exact (h.thread hp hstep).1

/-- A thread that is not through can take a step. -/
lemma Linked.exists_step (h : Linked s) (ht : (s.view.place t).unfinished n = true) :
    ∃ s', s.threadStep n t = some s' := by
  have hfits := h.fits t
  rw [← Option.isSome_iff_exists]
  unfold ProgState.threadStep
  cases hloop : s.loop t with
  | next i =>
      simp only [ProgState.view, hloop, place, Place.unfinished, decide_eq_true_eq] at ht
      simp only [hloop] at hfits
      have hidle : s.queue.pc t = .idle := hfits
      simp only [ht, if_true, Option.isSome_map, ProgState.call]
      split_ifs <;> simp [State.step, hidle]
  | inside i =>
      rw [hloop] at hfits
      cases hpc : s.queue.pc t with
      | idle =>
          rw [hpc] at hfits
          by_cases hprod : t.val < p
          · simpa [Pc.enq] using hfits.1 hprod
          · simpa [Pc.deq] using hfits.2 hprod
      | enqTest | deqTest =>
          simp only [State.step, State.go, hpc, Option.isSome_map]
          split_ifs <;> rfl
      | enqWrite | enqFlag | deqRead | deqFlag => simp [State.step, State.go, hpc]
  | store i flag =>
      rw [hloop] at hfits
      by_cases hprod : t.val < p
      · obtain ⟨call, key, seq, hpc⟩ := hfits.1 hprod
        simp [hpc]
      · obtain ⟨call, seq, key, hpc⟩ := hfits.2 hprod
        simp [hpc]
  | mark i key => rfl

lemma Linked.through_iff (h : Linked s) :
    s.through n t = true ↔ (s.view.place t).unfinished n = false := by
  have hfits := h.fits t
  unfold ProgState.through
  cases hloop : s.loop t with
  | next i => simp [ProgState.view, hloop, place, Place.unfinished]
  | inside i =>
      rw [hloop] at hfits
      cases hpc : s.queue.pc t with
      | idle =>
          rw [hpc] at hfits
          by_cases hprod : t.val < p
          · simpa [Pc.enq] using hfits.1 hprod
          · simpa [Pc.deq] using hfits.2 hprod
      | _ => simp [ProgState.view, hloop, hpc, place, Place.unfinished]
  | store | mark => simp [ProgState.view, hloop, place, Place.unfinished]

/-- How many steps `main` still makes. -/
def MainPc.stepsLeft (p : ℕ) : MainPc → ℕ
  | .create i => (2 * p - i) + 1 + (2 * p + 1)
  | .join i => (2 * p - i) + 1
  | .printed _ => 0

/-- **A schedule for threads with one call**: from an orderly state `main` can get to its end. -/
lemma exists_printed (hp : 2 * p < 2 ^ 32) (hn : p = 0 ∨ n ≤ 1) (hs : ProgInv n s)
    (horder : Orderly n s.view) :
    (program p n).Leads (fun _ _ => True) s fun s' => ∃ b, s'.main = .printed b := by
  let rank : ProgState p → ℕ := fun s =>
    ∑ t, (s.view.place t).stepsLeft n + s.main.stepsLeft p
  refine (Machine.leads_of_rank (I := fun s => ProgInv n s ∧ Orderly n s.view) rank ?_ s
    ⟨hs, horder⟩).mono fun s' h => h.2
  rintro s ⟨h, horder⟩ hrunning
  -- `main` can take a step, which leaves the threads alone
  have hmain : ∀ main : MainPc, s.mainStep n = some { s with main := main } →
      main.stepsLeft p < s.main.stepsLeft p →
      ∃ a s', True ∧ (program p n).step s a = some s' ∧ (ProgInv n s' ∧ Orderly n s'.view) ∧
        rank s' < rank s :=
    fun main hstep hlt => ⟨none, _, trivial, hstep, ⟨h.main hstep, horder⟩,
      Nat.add_lt_add_left hlt _⟩
  cases hpc : s.main with
  | printed b => exact absurd ⟨b, hpc⟩ hrunning
  | create i =>
      refine hmain (if i < 2 * p then .create (i + 1) else .join 0) ?_ ?_
      · simp only [ProgState.mainStep, hpc]
      · rw [hpc]
        split_ifs with hi
        · simp only [MainPc.stepsLeft]
          omega
        · simp only [MainPc.stepsLeft]
          omega
  | join i =>
      by_cases hbusy : ∃ t, (s.view.place t).unfinished n = true
      · -- a thread goes on
        have hn' : n ≤ 1 := by
          rcases hn with rfl | hn
          · obtain ⟨t, -⟩ := hbusy
            exact t.elim0
          · exact hn
        obtain ⟨t, ht, hturn, hkeep⟩ := horder.exists_hop h.turns hn' hbusy
        obtain ⟨s', hstep⟩ := h.linked.exists_step ht
        obtain ⟨hinv, hhop⟩ := h.thread hp hstep
        refine ⟨some t, s', trivial, ?_, ⟨hinv, hkeep _ hhop⟩, ?_⟩
        · simp only [program, ProgState.step, hpc, MainPc.created, if_true]
          exact hstep
        · have hsum : ∑ u, (s'.view.place u).stepsLeft n < ∑ u, (s.view.place u).stepsLeft n :=
            sum_lt_of_thread (hhop.stepsLeft_lt hn' hturn) fun u hu => by rw [hhop.other hu]
          simp only [rank, (threadStep_frame hstep).1]
          omega
      · push Not at hbusy
        have hthrough : ∀ t, s.through n t = true := fun t =>
          h.linked.through_iff.mpr (by simpa using hbusy t)
        by_cases hi : i < 2 * p
        · refine hmain (.join (i + 1)) ?_ ?_
          · simp [ProgState.mainStep, hpc, hi, hthrough]
          · simp only [hpc, MainPc.stepsLeft]
            omega
        · refine hmain (.printed (s.verify n)) ?_ ?_
          · simp [ProgState.mainStep, hpc, hi]
          · simp [hpc, MainPc.stepsLeft]

/-- **The program can print exactly if its threads make one call at most.** -/
theorem prints_iff (hp : 2 * p < 2 ^ 32) :
    (∃ s, (program p n).Reachable s ∧ ∃ b, s.main = .printed b) ↔ p = 0 ∨ n ≤ 1 := by
  constructor
  · rintro ⟨s, hs, b, hb⟩
    have hinv := progInv_of_reachable hp hs
    by_contra hno
    push Not at hno
    -- the first producer has not made its second call
    have ht : 0 < 2 * p := by omega
    have hthrough := hinv.joined ⟨0, ht⟩ (by rw [hb]; rfl)
    have honce := hinv.turns.producer ⟨0, ht⟩ (by simp only; omega)
    unfold ProgState.through at hthrough
    cases hloop : s.loop ⟨0, ht⟩ with
    | next i =>
        simp only [hloop, decide_eq_true_eq] at hthrough
        simp only [ProgState.view, hloop, place, Place.passed] at honce
        omega
    | inside | store | mark => simp [hloop] at hthrough
  · intro hn
    let start : ProgState p := ⟨State.start _, fun _ => .next 0, fun _ => false, .create 0⟩
    have hstart : (program p n).Reachable start := .init rfl
    have horder : Orderly n start.view :=
      ⟨nofun, fun h => absurd h (by simp [start, ProgState.view, State.start]),
        fun h => absurd h (by simp [start, ProgState.view, State.start])⟩
    obtain ⟨s, hrun, hprinted⟩ :=
      exists_printed hp hn (progInv_of_reachable hp hstart) horder
    exact ⟨s, hrun.of_startAt hstart, hprinted⟩

/-- With the numbers of the source, four producers and a million keys each, nothing is ever
printed. -/
theorem prints_iff_source :
    ¬ ∃ s, (program 4 1000000).Reachable s ∧ ∃ b, s.main = .printed b := by
  intro h
  have hfew := (prints_iff (p := 4) (n := 1000000) (by decide)).mp h
  omega

end Program

end Multicore.Lab13
