import Multicore.Lib.Linearization

/-!
# Threads that work off lists of operations

An object that several threads call is mostly part of a program in which every thread has a list of
operations and calls them one after the other.  `clients` is that program, for any machine with an
interface.

* `SeqObject.execute` — the operations executed one by one on the object;
* `Shuffle` — the operations of all threads in one order, in which those of each thread keep theirs;
* **`clients_shuffle`** — if the steps of the machine track the operations of the object, then at
  any moment the value is that of the operations that have taken effect, in some order which every
  thread agrees with; and when all have returned these are all the operations there were.
-/

namespace Multicore

variable {σ α τ ν Op Ret : Type*} {M : Machine σ α} {ok : σ → α → Prop}
  {O : SeqObject ν Op Ret} {I : Interface σ α τ ν Op Ret} {status : σ → τ → Status Op Ret}

/-- The value after operations that are executed one after the other. -/
def SeqObject.execute (O : SeqObject ν Op Ret) (ops : List Op) : ν :=
  ops.foldl (fun v op => (O.apply op v).1) O.init

lemma SeqObject.execute_concat (O : SeqObject ν Op Ret) (ops : List Op) (op : Op) :
    O.execute (ops ++ [op]) = (O.apply op (O.execute ops)).1 := by
  simp [SeqObject.execute]

/-- The object, and what each thread still has to call. -/
structure Clients (σ τ Op : Type*) where
  object : σ
  todo : τ → List Op

variable [DecidableEq τ] [DecidableEq Op]

/-- One step of the object.  A call has to be the next one of its thread. -/
def Clients.step (M : Machine σ α) (I : Interface σ α τ ν Op Ret) (s : Clients σ τ Op) (a : α) :
    Option (Clients σ τ Op) :=
  match I.event s.object a with
  | some (.call op) =>
      match s.todo (I.thread a) with
      | [] => none
      | next :: rest =>
          if next = op then
            (M.step s.object a).map fun object =>
              { object := object, todo := Function.update s.todo (I.thread a) rest }
          else none
  | _ => (M.step s.object a).map fun object => { s with object := object }

/-- The object with threads that call the operations `work`. -/
def clients (M : Machine σ α) (I : Interface σ α τ ν Op Ret) (work : τ → List Op) :
    Machine (Clients σ τ Op) α where
  init s := M.init s.object ∧ s.todo = work
  step := Clients.step M I

/-! ## What a step does -/

/-- A step of the clients is a step of the object, and a call takes the next operation off the list
of its thread. -/
lemma Clients.step_cases {s s' : Clients σ τ Op} {a : α} (h : Clients.step M I s a = some s') :
    M.step s.object a = some s'.object ∧
    ((∃ op rest, I.event s.object a = some (.call op) ∧ s.todo (I.thread a) = op :: rest ∧
        s'.todo = Function.update s.todo (I.thread a) rest) ∨
      ((∀ op, I.event s.object a ≠ some (.call op)) ∧ s'.todo = s.todo)) := by
  unfold Clients.step at h
  split at h
  · rename_i op hev
    cases htodo : s.todo (I.thread a) with
    | nil => simp [htodo] at h
    | cons next rest =>
        simp only [htodo, Option.ite_none_right_eq_some, Option.map_eq_some_iff] at h
        obtain ⟨rfl, object, hstep, rfl⟩ := h
        exact ⟨hstep, .inl ⟨next, rest, hev, rfl, rfl⟩⟩
  · rename_i hev
    simp only [Option.map_eq_some_iff] at h
    obtain ⟨object, hstep, rfl⟩ := h
    exact ⟨hstep, .inr ⟨hev, rfl⟩⟩

/-- The object of the clients runs. -/
lemma Clients.object_run {work : τ → List Op} {s : Clients σ τ Op}
    (hs : (clients M I work).Run (fun s a => ok s.object a) s) : M.Run ok s.object := by
  induction hs with
  | init h => exact .init h.1
  | step _ hok hstep ih => exact .step ih hok (Clients.step_cases hstep).1

/-! ## The order in which the operations take effect -/

/-- The operation a thread has called that has not taken effect. -/
def Status.waiting : Status Op Ret → List Op
  | .pending op => [op]
  | _ => []

/-- The operations of thread `t` in an order. -/
def opsOf (order : List (τ × Op)) (t : τ) : List Op :=
  (order.filter fun x => x.1 = t).map Prod.snd

omit [DecidableEq Op] in
lemma opsOf_concat (order : List (τ × Op)) (t u : τ) (op : Op) :
    opsOf (order ++ [(u, op)]) t = opsOf order t ++ if u = t then [op] else [] := by
  by_cases hut : u = t <;> simp [opsOf, hut]

/-- The operations of all threads, in an order in which those of each thread keep theirs. -/
def Shuffle (work : τ → List Op) (order : List (τ × Op)) : Prop := ∀ t, opsOf order t = work t

/-- What has taken effect, in this order: it gives the value, and with what is waiting and what is
to be done it makes up the work of every thread. -/
structure TookEffect (O : SeqObject ν Op Ret) (I : Interface σ α τ ν Op Ret)
    (status : σ → τ → Status Op Ret) (work : τ → List Op) (s : Clients σ τ Op)
    (order : List (τ × Op)) : Prop where
  value : I.value s.object = O.execute (order.map Prod.snd)
  split : ∀ t, work t = opsOf order t ++ (status s.object t).waiting ++ s.todo t

/-- **One step.**  At the instant of an operation it is appended to the order. -/
lemma TookEffect.step {work : τ → List Op} {s s' : Clients σ τ Op} {a : α} {order : List (τ × Op)}
    (h : TookEffect O I status work s order) (hstep : Clients.step M I s a = some s')
    (hother : ∀ t, t ≠ I.thread a → status s'.object t = status s.object t)
    (heff : Effect O (I.value s.object) (I.value s'.object) (I.event s.object a)
      (status s.object (I.thread a)) (status s'.object (I.thread a))) :
    ∃ order', TookEffect O I status work s' order' := by
  obtain ⟨-, htodo⟩ := Clients.step_cases hstep
  -- the other threads: neither what is waiting nor what is to be done changes
  have hrest : ∀ t, t ≠ I.thread a → s'.todo t = s.todo t := by
    intro t ht
    rcases htodo with ⟨op, rest, -, -, hs'⟩ | ⟨-, hs'⟩
    · rw [hs', Function.update_of_ne ht]
    · rw [hs']
  have hself := h.split (I.thread a)
  generalize hold : status s.object (I.thread a) = st at heff hself
  generalize hnew : status s'.object (I.thread a) = st' at heff
  generalize I.event s.object a = ev at heff htodo
  have hsame : (∀ op, ev ≠ some (.call op)) → s'.todo = s.todo := by
    intro hno
    rcases htodo with ⟨op, rest, hev, -⟩ | ⟨-, hs'⟩
    · exact absurd hev (hno op)
    · exact hs'
  -- a step that appends nothing
  have keep (hv : I.value s'.object = I.value s.object)
      (hs : work (I.thread a) = opsOf order (I.thread a) ++ st'.waiting ++ s'.todo (I.thread a)) :
      TookEffect O I status work s' order := by
    refine ⟨hv.trans h.value, fun t => ?_⟩
    by_cases ht : t = I.thread a
    · rw [ht, hnew]
      exact hs
    · rw [hother t ht, hrest t ht]
      exact h.split t
  cases heff with
  | call op hv =>
      refine ⟨order, keep hv ?_⟩
      rcases htodo with ⟨op', rest, hev', hs, hs'⟩ | ⟨hno, -⟩
      · obtain rfl : op = op' := by simpa using hev'
        rw [hself, hs, hs', Function.update_self]
        simp [Status.waiting]
      · exact absurd rfl (hno op)
  | take op hv =>
      refine ⟨order ++ [(I.thread a, op)], ?_, fun t => ?_⟩
      · rw [List.map_append, List.map_singleton, O.execute_concat, ← h.value]
        exact hv
      · rw [opsOf_concat, hsame (by simp)]
        by_cases ht : t = I.thread a
        · subst ht
          rw [hself, hnew, if_pos rfl]
          simp [Status.waiting]
        · rw [if_neg (Ne.symm ht), List.append_nil, hother t ht]
          exact h.split t
  | ret r hv =>
      refine ⟨order, keep hv ?_⟩
      rw [hsame (by simp)]
      exact hself
  | skip _ hv =>
      refine ⟨order, keep hv ?_⟩
      rw [hsame (by simp)]
      exact hself

/-- At every moment of a run the value is that of the operations that have taken effect. -/
theorem exists_tookEffect (h : Tracks M ok O I status) {work : τ → List Op} {s : Clients σ τ Op}
    (hs : (clients M I work).Run (fun s a => ok s.object a) s) :
    ∃ order, TookEffect O I status work s order := by
  refine Machine.Run.invariant (I := fun s => ∃ order, TookEffect O I status work s order)
    ?_ ?_ s hs
  · rintro s ⟨hinit, htodo⟩
    obtain ⟨hvalue, hidle⟩ := h.init _ hinit
    exact ⟨[], hvalue, fun t => by simp [opsOf, hidle t, Status.waiting, htodo]⟩
  · rintro s a s' hrun ⟨order, hord⟩ hok hstep
    have hobj := Clients.object_run hrun
    have hmove := (Clients.step_cases hstep).1
    exact hord.step hstep (h.other _ _ _ hobj hok hmove) (h.effect _ _ _ hobj hok hmove)

/-- **When all threads are through**, the value is that of all the operations, executed one after
the other in an order that every thread agrees with. -/
theorem clients_shuffle (h : Tracks M ok O I status) {work : τ → List Op} {s : Clients σ τ Op}
    (hs : (clients M I work).Run (fun s a => ok s.object a) s)
    (hdone : ∀ t, s.todo t = [] ∧ status s.object t = .idle) :
    ∃ order, Shuffle work order ∧ I.value s.object = O.execute (order.map Prod.snd) := by
  obtain ⟨order, hord⟩ := exists_tookEffect h hs
  refine ⟨order, fun t => ?_, hord.value⟩
  rw [hord.split t, (hdone t).1, (hdone t).2]
  simp [Status.waiting]

end Multicore
