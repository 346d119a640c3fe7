import Multicore.Lib.Machine

/-!
# The snapshot object

`project3/wfsnapshot.h` and `project3/stampedsnap.h`: each of `n` threads owns one slot of the
array `snaps`, and writes it with `update`.  An update first takes a snapshot of all slots with
`scan`, which collects the array again and again until two collects in a row carry the same
stamps, and stores it next to the new value.

Each read or write of a slot is one step of `snapshot n V`; what a thread does with its own copies
in between is one step as well, which no other thread can see.

* `StampedSnap.copy` — the copy constructor.  It takes over the value and the snapshot but **not
  the stamp**, and `update` reads the old stamp through it; the assignment that `collect` uses
  takes over everything.
* `Move` — what the steps can do, one case per action of the source (`move_of_step`).
* `Inv` — what follows: the stamps are `0` before the first update of a slot and `1` ever after
  (**`inv_of_run`**).
-/

namespace Multicore.Project3

variable {n : ℕ} {V : Type*}

/-- A `StampedSnap<T>`; `nullptr` is `none`. -/
structure StampedSnap (n : ℕ) (V : Type*) where
  value : V
  stamp : ℕ
  snap : Option (Fin n → V)

namespace StampedSnap

/-- `StampedSnap(T value = 0, long stamp = 0, T* _snap = nullptr)` -/
def blank [Zero V] : StampedSnap n V := ⟨0, 0, none⟩

/-- `StampedSnap(const StampedSnap& ssnap)` -/
def copy (ssnap : StampedSnap n V) : StampedSnap n V :=
  { value := ssnap.value, stamp := 0, snap := ssnap.snap }

end StampedSnap

/-- An array of copies of the slots, as `collect` returns it. -/
abbrev Copies (n : ℕ) (V : Type*) := Fin n → StampedSnap n V

/-- Where a thread stands in `update`; `i` slots have been collected. -/
inductive Pc (n : ℕ) (V : Type*)
  /-- between two updates -/
  | idle
  /-- in the first `collect` of `scan` -/
  | first (value : V) (i : ℕ) (oldCopy : Copies n V)
  /-- in a later one, or about to compare -/
  | again (value : V) (moved : Fin n → Bool) (oldCopy : Copies n V) (i : ℕ)
      (newCopy : Copies n V)
  /-- `scan` has returned `snap`; about to read the own slot -/
  | scanned (value : V) (snap : Option (Fin n → V))
  /-- about to write the own slot -/
  | write (newValue : StampedSnap n V)

/-- The slots, and where each thread stands. -/
structure State (n : ℕ) (V : Type*) where
  snaps : Fin n → StampedSnap n V
  pc : Fin n → Pc n V

/-- A thread calls `update`, or takes its next step in it. -/
inductive Act (n : ℕ) (V : Type*)
  | update (tid : Fin n) (value : V)
  | go (tid : Fin n)

/-- The loop over the two collects: the first slot whose stamps differ. -/
def changed (oldCopy newCopy : Copies n V) : Option (Fin n) :=
  (List.finRange n).find? fun i => decide ((oldCopy i).stamp ≠ (newCopy i).stamp)

/-- What happens after a collect inside of the loop of `scan`. -/
def compare [Zero V] (value : V) (moved : Fin n → Bool) (oldCopy newCopy : Copies n V) : Pc n V :=
  match changed oldCopy newCopy with
  | none => .scanned value (some fun i => (newCopy i).value)
  | some i =>
      if moved i then .scanned value (oldCopy i).snap
      else .again value (Function.update moved i true) newCopy 0 fun _ => .blank

/-- The next step of a thread: where it stands then, and what it writes into its slot. -/
def Pc.next [Zero V] (snaps : Fin n → StampedSnap n V) (tid : Fin n) :
    Pc n V → Option (Pc n V × Option (StampedSnap n V))
  | .idle => none
  | .first value i oldCopy =>
      if h : i < n then
        some (.first value (i + 1) (Function.update oldCopy ⟨i, h⟩ (snaps ⟨i, h⟩)), none)
      else
        some (.again value (fun _ => false) oldCopy 0 fun _ => .blank, none)
  | .again value moved oldCopy i newCopy =>
      if h : i < n then
        some (.again value moved oldCopy (i + 1)
          (Function.update newCopy ⟨i, h⟩ (snaps ⟨i, h⟩)), none)
      else
        some (compare value moved oldCopy newCopy, none)
  | .scanned value snap =>
      let oldValue := (snaps tid).copy
      some (.write { value := value, stamp := oldValue.stamp + 1, snap := snap }, none)
  | .write newValue => some (.idle, some newValue)

/-- One step of the system. -/
def State.step [Zero V] (s : State n V) : Act n V → Option (State n V)
  | .update tid value =>
      match s.pc tid with
      | .idle => some { s with pc := Function.update s.pc tid (.first value 0 fun _ => .blank) }
      | _ => none
  | .go tid =>
      match (s.pc tid).next s.snaps tid with
      | none => none
      | some (pc, none) => some { s with pc := Function.update s.pc tid pc }
      | some (pc, some newValue) =>
          some { snaps := Function.update s.snaps tid newValue, pc := Function.update s.pc tid pc }

/-- The state after the constructor of `WFSnapshot`. -/
def State.start (n : ℕ) (V : Type*) [Zero V] : State n V := ⟨fun _ => .blank, fun _ => .idle⟩

/-- The snapshot object with `n` threads and values of type `V`. -/
def snapshot (n : ℕ) (V : Type*) [Zero V] : Machine (State n V) (Act n V) where
  init s := s = State.start n V
  step := State.step

/-! ## What the steps do -/

/-- The state with the thread moved to `pc`. -/
def State.setPc (s : State n V) (tid : Fin n) (pc : Pc n V) : State n V :=
  { s with pc := Function.update s.pc tid pc }

section SetPc

variable {s : State n V} {t u : Fin n} {pc : Pc n V}

@[simp] lemma setPc_snaps : (s.setPc t pc).snaps = s.snaps := rfl

@[simp] lemma setPc_self : (s.setPc t pc).pc t = pc := Function.update_self _ _ _

lemma setPc_of_ne (h : u ≠ t) : (s.setPc t pc).pc u = s.pc u := Function.update_of_ne h _ _

end SetPc

/-- What thread `t` can do in one step. -/
inductive Move [Zero V] (s : State n V) (t : Fin n) : Act n V → State n V → Prop
  | update (value : V) (hpc : s.pc t = .idle) :
      Move s t (.update t value) (s.setPc t (.first value 0 fun _ => .blank))
  | first {value : V} {oldCopy : Copies n V} (i : Fin n) (hpc : s.pc t = .first value i oldCopy) :
      Move s t (.go t)
        (s.setPc t (.first value (i + 1) (Function.update oldCopy i (s.snaps i))))
  | turn {value : V} {oldCopy : Copies n V} {i : ℕ} (hpc : s.pc t = .first value i oldCopy)
      (hi : n ≤ i) :
      Move s t (.go t) (s.setPc t (.again value (fun _ => false) oldCopy 0 fun _ => .blank))
  | again {value : V} {moved : Fin n → Bool} {oldCopy newCopy : Copies n V} (i : Fin n)
      (hpc : s.pc t = .again value moved oldCopy i newCopy) :
      Move s t (.go t) (s.setPc t
        (.again value moved oldCopy (i + 1) (Function.update newCopy i (s.snaps i))))
  | compare {value : V} {moved : Fin n → Bool} {oldCopy newCopy : Copies n V} {i : ℕ}
      (hpc : s.pc t = .again value moved oldCopy i newCopy) (hi : n ≤ i) :
      Move s t (.go t) (s.setPc t (compare value moved oldCopy newCopy))
  | scanned {value : V} {snap : Option (Fin n → V)} (hpc : s.pc t = .scanned value snap) :
      Move s t (.go t) (s.setPc t (.write ⟨value, (s.snaps t).copy.stamp + 1, snap⟩))
  | write {newValue : StampedSnap n V} (hpc : s.pc t = .write newValue) :
      Move s t (.go t) { snaps := Function.update s.snaps t newValue
                         pc := Function.update s.pc t .idle }

/-- The thread that acts. -/
def Act.tid : Act n V → Fin n
  | .update tid _ => tid
  | .go tid => tid

/-- Every step is one of these. -/
theorem move_of_step [Zero V] {s s' : State n V} {a : Act n V}
    (h : (snapshot n V).step s a = some s') : Move s a.tid a s' := by
  simp only [snapshot] at h
  cases a with
  | update t value =>
      cases hpc : s.pc t <;> simp only [State.step, hpc, Option.some.injEq, reduceCtorEq] at h
      subst h
      exact .update value hpc
  | go t =>
      cases hpc : s.pc t with
      | idle => simp [State.step, hpc, Pc.next] at h
      | first value i oldCopy =>
          by_cases hi : i < n
          · simp only [State.step, hpc, Pc.next, dif_pos hi, Option.some.injEq] at h
            subst h
            exact .first ⟨i, hi⟩ hpc
          · simp only [State.step, hpc, Pc.next, dif_neg hi, Option.some.injEq] at h
            subst h
            exact .turn hpc (not_lt.1 hi)
      | again value moved oldCopy i newCopy =>
          by_cases hi : i < n
          · simp only [State.step, hpc, Pc.next, dif_pos hi, Option.some.injEq] at h
            subst h
            exact .again ⟨i, hi⟩ hpc
          · simp only [State.step, hpc, Pc.next, dif_neg hi, Option.some.injEq] at h
            subst h
            exact .compare hpc (not_lt.1 hi)
      | scanned value snap =>
          simp only [State.step, hpc, Pc.next, Option.some.injEq] at h
          subst h
          exact .scanned hpc
      | write newValue =>
          simp only [State.step, hpc, Pc.next, Option.some.injEq] at h
          subst h
          exact .write hpc

/-! ## Stamps -/

section Compare

variable {value : V} {moved : Fin n → Bool} {oldCopy newCopy : Copies n V} {i : Fin n}

lemma changed_eq_none :
    changed oldCopy newCopy = none ↔ ∀ i, (oldCopy i).stamp = (newCopy i).stamp := by
  simp [changed]

lemma stamp_ne_of_changed (h : changed oldCopy newCopy = some i) :
    (oldCopy i).stamp ≠ (newCopy i).stamp := by
  simpa using List.find?_some h

end Compare

/-- What the copies of a thread say about the slots.  Stamps do not go down, so that a later copy
carries the higher stamp, and a slot that has been seen to move has reached stamp `1`. -/
def View (snaps : Fin n → StampedSnap n V) : Pc n V → Prop
  | .idle => True
  | .first _ i oldCopy => ∀ j : Fin n, j.val < i → (oldCopy j).stamp ≤ (snaps j).stamp
  | .again _ moved oldCopy i newCopy =>
      (∀ j, (oldCopy j).stamp ≤ (snaps j).stamp) ∧
      (∀ j : Fin n, j.val < i →
        (oldCopy j).stamp ≤ (newCopy j).stamp ∧ (newCopy j).stamp ≤ (snaps j).stamp) ∧
      ∀ j, moved j = true → (oldCopy j).stamp = 1
  | .scanned _ _ => True
  | .write newValue => newValue.stamp = 1

/-- The stamps are `0` or `1`, and every thread has a right view of them. -/
structure Inv (s : State n V) : Prop where
  stamp : ∀ i, (s.snaps i).stamp ≤ 1
  view : ∀ t, View s.snaps (s.pc t)

lemma View.mono {snaps snaps' : Fin n → StampedSnap n V} {pc : Pc n V} (h : View snaps pc)
    (hle : ∀ j, (snaps j).stamp ≤ (snaps' j).stamp) : View snaps' pc := by
  cases pc with
  | idle => trivial
  | first value i oldCopy => exact fun j hj => (h j hj).trans (hle j)
  | again value moved oldCopy i newCopy =>
      obtain ⟨hold, hnew, hmoved⟩ := h
      exact ⟨fun j => (hold j).trans (hle j),
        fun j hj => ⟨(hnew j hj).1, (hnew j hj).2.trans (hle j)⟩, hmoved⟩
  | scanned value snap => trivial
  | write newValue => exact h

/-- A thread moves, the slots stay. -/
lemma Inv.setPc {s : State n V} (h : Inv s) {t : Fin n} {pc : Pc n V} (hpc : View s.snaps pc) :
    Inv (s.setPc t pc) := by
  refine ⟨h.stamp, fun u => ?_⟩
  by_cases hu : u = t
  · rw [hu, setPc_self]
    exact hpc
  · rw [setPc_of_ne hu]
    exact h.view u

/-- A slot that has moved once does not move again. -/
lemma Inv.not_moved {s : State n V} (h : Inv s) {t i : Fin n} {value : V} {moved : Fin n → Bool}
    {oldCopy newCopy : Copies n V} {k : ℕ} (hpc : s.pc t = .again value moved oldCopy k newCopy)
    (hk : n ≤ k) (hi : changed oldCopy newCopy = some i) :
    moved i = false ∧ (newCopy i).stamp = 1 := by
  have hview := h.view t
  rw [hpc] at hview
  obtain ⟨_, hnew, hmoved⟩ := hview
  have hne := stamp_ne_of_changed hi
  have hle := hnew i (i.2.trans_le hk)
  have hone := h.stamp i
  refine ⟨?_, by omega⟩
  rw [← Bool.not_eq_true]
  intro hm
  have := hmoved i hm
  omega

lemma Inv.move [Zero V] {s s' : State n V} {t : Fin n} {a : Act n V} (h : Inv s)
    (hm : Move s t a s') :
    Inv s' := by
  have hview := h.view t
  cases hm with
  | update value hpc => exact h.setPc fun j hj => absurd hj (Nat.not_lt_zero _)
  | @first value oldCopy i hpc =>
      rw [hpc] at hview
      refine h.setPc fun j hj => ?_
      by_cases hji : j = i
      · rw [hji, Function.update_self]
      · rw [Function.update_of_ne hji]
        exact hview j (by omega)
  | @turn value oldCopy i hpc hi =>
      rw [hpc] at hview
      exact h.setPc ⟨fun j => hview j (j.2.trans_le hi), fun j hj => absurd hj (Nat.not_lt_zero _),
        fun j hj => absurd hj Bool.false_ne_true⟩
  | @again value moved oldCopy newCopy i hpc =>
      rw [hpc] at hview
      obtain ⟨hold, hnew, hmoved⟩ := hview
      refine h.setPc ⟨hold, fun j hj => ?_, hmoved⟩
      by_cases hji : j = i
      · rw [hji, Function.update_self]
        exact ⟨hold i, le_rfl⟩
      · rw [Function.update_of_ne hji]
        exact hnew j (by omega)
  | @compare value moved oldCopy newCopy i hpc hi =>
      rw [hpc] at hview
      obtain ⟨hold, hnew, hmoved⟩ := hview
      refine h.setPc ?_
      rw [compare]
      cases hc : changed oldCopy newCopy with
      | none => trivial
      | some j =>
          obtain ⟨hfalse, hone⟩ := h.not_moved hpc hi hc
          simp only [hfalse, Bool.false_eq_true, if_false]
          refine ⟨fun l => (hnew l (l.2.trans_le hi)).2, fun l hl => absurd hl (Nat.not_lt_zero _),
            fun l hl => ?_⟩
          by_cases hlj : l = j
          · rw [hlj, hone]
          · rw [Function.update_of_ne hlj] at hl
            have := hmoved l hl
            have := hnew l (l.2.trans_le hi)
            have := h.stamp l
            omega
  | scanned hpc => exact h.setPc rfl
  | @write newValue hpc =>
      rw [hpc] at hview
      have hle : ∀ j, (s.snaps j).stamp ≤ (Function.update s.snaps t newValue j).stamp := by
        intro j
        by_cases hjt : j = t
        · rw [hjt, Function.update_self, show newValue.stamp = 1 from hview]
          exact h.stamp t
        · rw [Function.update_of_ne hjt]
      refine ⟨fun i => ?_, fun u => ?_⟩
      · by_cases hit : i = t
        · rw [hit]
          simp only [Function.update_self]
          exact le_of_eq hview
        · simp only [Function.update_of_ne hit]
          exact h.stamp i
      · by_cases hut : u = t
        · simp [hut, View]
        · simp only [Function.update_of_ne hut]
          exact (h.view u).mono hle

/-- **Stamps only tell whether a slot has been written at all.** -/
theorem inv_of_run [Zero V] {ok : State n V → Act n V → Prop} {s : State n V}
    (hs : (snapshot n V).Run ok s) : Inv s := by
  refine Machine.Run.invariant (I := Inv) ?_ ?_ s hs
  · rintro s rfl
    exact ⟨fun _ => Nat.zero_le 1, fun _ => trivial⟩
  · intro s a s' _ h _ hstep
    exact h.move (move_of_step hstep)

end Multicore.Project3
