import Multicore.Lib.Machine

/-!
# Linearizability

An implementation is a machine whose steps are made by threads; some of its steps are the *call*
or the *return* of an operation, and each of its states stands for a value of a sequential object.

* `Linearization` — a choice of instants in a run: at an instant the operation that the moving
  thread has called and not yet returned from takes effect on the value, once; between the
  instants the value stays; and every completed call has an instant inside the call, at which the
  sequential operation gives the result that was returned.
* **`Linearizable.of_status`** — the rule by which it is proved.  `status` says of each thread
  whether its operation has taken effect already; it is enough that every step changes status and
  value in one of the ways of `Effect`.
-/

namespace Multicore

/-- A sequential object: its first value, and what an operation does to the value and returns. -/
structure SeqObject (ν Op Ret : Type*) where
  init : ν
  apply : Op → ν → ν × Ret

/-- The steps of a thread that its caller sees. -/
inductive Event (Op Ret : Type*)
  | call (op : Op)
  | ret (r : Ret)

/-- How the states and actions of a machine are read as those of an object. -/
structure Interface (σ α τ ν Op Ret : Type*) where
  thread : α → τ
  event : σ → α → Option (Event Op Ret)
  value : σ → ν

variable {σ α τ ν Op Ret : Type*} {M : Machine σ α} {ok : σ → α → Prop}

namespace Interface

variable (I : Interface σ α τ ν Op Ret) (e : M.Trace ok)

/-- Step `k` of the run is made by thread `t`. -/
def Moves (k : ℕ) (t : τ) : Prop := ∃ a, e.acts[k]? = some a ∧ I.thread a = t

/-- Step `k` of the run is this event of thread `t`. -/
def Happens (k : ℕ) (t : τ) (ev : Event Op Ret) : Prop :=
  ∃ a, e.acts[k]? = some a ∧ I.thread a = t ∧ I.event (e.state k) a = some ev

/-- Thread `t` neither calls nor returns between the steps `i` and `j`. -/
def Quiet (i j : ℕ) (t : τ) : Prop := ∀ k ev, i < k → k < j → ¬ I.Happens e k t ev

/-- Thread `t` calls `op` at step `i`, and the call returns `r` at step `j`. -/
structure Completed (t : τ) (i j : ℕ) (op : Op) (r : Ret) : Prop where
  lt : i < j
  call : I.Happens e i t (.call op)
  ret : I.Happens e j t (.ret r)
  quiet : I.Quiet e i j t

end Interface

/-- The operations of the run take effect one by one at these instants. -/
structure Linearization (O : SeqObject ν Op Ret) (I : Interface σ α τ ν Op Ret)
    (e : M.Trace ok) (instant : ℕ → Prop) : Prop where
  init : I.value (e.state 0) = O.init
  /-- the value changes at instants only -/
  keep : ∀ k, k < e.acts.length → ¬ instant k → I.value (e.state (k + 1)) = I.value (e.state k)
  /-- at an instant the open call of the moving thread takes effect, which it has not done yet -/
  effect : ∀ k t, I.Moves e k t → instant k → ∃ i op, i < k ∧ I.Happens e i t (.call op) ∧
    I.Quiet e i k t ∧ (∀ m, i < m → m < k → I.Moves e m t → ¬ instant m) ∧
    I.value (e.state (k + 1)) = (O.apply op (I.value (e.state k))).1
  /-- a completed call returns what the operation returns at an instant inside the call -/
  result : ∀ t i j op r, I.Completed e t i j op r → ∃ k, i < k ∧ k < j ∧ I.Moves e k t ∧
    instant k ∧ r = (O.apply op (I.value (e.state k))).2

/-- The run has a linearization. -/
def Linearizable (O : SeqObject ν Op Ret) (I : Interface σ α τ ν Op Ret) (e : M.Trace ok) : Prop :=
  ∃ instant, Linearization O I e instant

/-! ## The proof rule -/

/-- How far a thread is with its operation. -/
inductive Status (Op Ret : Type*)
  /-- between two calls -/
  | idle
  /-- called, has not taken effect -/
  | pending (op : Op)
  /-- has taken effect and will return `r` -/
  | done (r : Ret)

/-- What a step that shows an event does to the value and to the status of the moving thread. -/
inductive Effect (O : SeqObject ν Op Ret) (v v' : ν) :
    Option (Event Op Ret) → Status Op Ret → Status Op Ret → Prop
  | call (op : Op) (hv : v' = v) : Effect O v v' (some (.call op)) .idle (.pending op)
  | take (op : Op) (hv : v' = (O.apply op v).1) :
      Effect O v v' none (.pending op) (.done (O.apply op v).2)
  | ret (r : Ret) (hv : v' = v) : Effect O v v' (some (.ret r)) (.done r) .idle
  | skip (st : Status Op Ret) (hv : v' = v) : Effect O v v' none st st

/-- Every step of every run changes status and value in one of these ways. -/
structure Tracks (M : Machine σ α) (ok : σ → α → Prop) (O : SeqObject ν Op Ret)
    (I : Interface σ α τ ν Op Ret) (status : σ → τ → Status Op Ret) : Prop where
  init : ∀ s, M.init s → I.value s = O.init ∧ ∀ t, status s t = .idle
  other : ∀ s a s', M.Run ok s → ok s a → M.step s a = some s' → ∀ t, t ≠ I.thread a →
    status s' t = status s t
  effect : ∀ s a s', M.Run ok s → ok s a → M.step s a = some s' →
    Effect O (I.value s) (I.value s') (I.event s a) (status s (I.thread a))
      (status s' (I.thread a))

namespace Tracks

variable {O : SeqObject ν Op Ret} {I : Interface σ α τ ν Op Ret} {status : σ → τ → Status Op Ret}
  {e : M.Trace ok}

/-- The instants: the steps at which the moving thread's operation takes effect. -/
def Instant (I : Interface σ α τ ν Op Ret) (status : σ → τ → Status Op Ret) (e : M.Trace ok)
    (k : ℕ) : Prop :=
  ∃ t op r, I.Moves e k t ∧ status (e.state k) t = .pending op ∧
    status (e.state (k + 1)) t = .done r

lemma moves_inj {k : ℕ} {t u : τ} (ht : I.Moves e k t) (hu : I.Moves e k u) : t = u := by
  obtain ⟨a, ha, rfl⟩ := ht
  obtain ⟨b, hb, rfl⟩ := hu
  rw [Option.some.inj (ha.symm.trans hb)]

lemma happens_moves {k : ℕ} {t : τ} {ev : Event Op Ret} (h : I.Happens e k t ev) : I.Moves e k t :=
  ⟨h.choose, h.choose_spec.1, h.choose_spec.2.1⟩

lemma happens_inj {k : ℕ} {t : τ} {ev ev' : Event Op Ret} (h : I.Happens e k t ev)
    (h' : I.Happens e k t ev') : ev = ev' := by
  obtain ⟨a, ha, -, hev⟩ := h
  obtain ⟨b, hb, -, hev'⟩ := h'
  obtain rfl := Option.some.inj (ha.symm.trans hb)
  exact Option.some.inj (hev.symm.trans hev')

/-- One step of a run, as the rule describes it. -/
lemma effect_at (h : Tracks M ok O I status) {k : ℕ} {a : α} (ha : e.acts[k]? = some a) :
    (∀ t, t ≠ I.thread a → status (e.state (k + 1)) t = status (e.state k) t) ∧
      Effect O (I.value (e.state k)) (I.value (e.state (k + 1))) (I.event (e.state k) a)
        (status (e.state k) (I.thread a)) (status (e.state (k + 1)) (I.thread a)) := by
  obtain ⟨hok, hs⟩ := e.step k a ha
  have hk : k < e.acts.length := (List.getElem?_eq_some_iff.mp ha).1
  have hrun := e.run hk.le
  exact ⟨h.other _ _ _ hrun hok hs, h.effect _ _ _ hrun hok hs⟩

/-- Where the call of a thread is that has the given status before step `k`. -/
def History (O : SeqObject ν Op Ret) (I : Interface σ α τ ν Op Ret)
    (status : σ → τ → Status Op Ret) (e : M.Trace ok) (k : ℕ) (t : τ) : Status Op Ret → Prop
  | .idle => True
  | .pending op => ∃ i, i < k ∧ I.Happens e i t (.call op) ∧ I.Quiet e i k t ∧
      ∀ m, i < m → m < k → I.Moves e m t → ¬ Instant I status e m
  | .done r => ∃ i m op, i < m ∧ m < k ∧ I.Happens e i t (.call op) ∧ I.Quiet e i k t ∧
      I.Moves e m t ∧ Instant I status e m ∧ r = (O.apply op (I.value (e.state m))).2

lemma quiet_succ {i k : ℕ} {t : τ} (h : I.Quiet e i k t) (hk : ∀ ev, ¬ I.Happens e k t ev) :
    I.Quiet e i (k + 1) t := by
  intro m ev him hmk
  rcases Nat.lt_succ_iff_lt_or_eq.mp hmk with hm | rfl
  · exact h m ev him hm
  · exact hk ev

/-- A step that shows nothing of thread `t` and at which nothing of it takes effect. -/
lemma History.skip {k : ℕ} {t : τ} {st : Status Op Ret} (h : History O I status e k t st)
    (hev : ∀ ev, ¬ I.Happens e k t ev) (hin : I.Moves e k t → ¬ Instant I status e k) :
    History O I status e (k + 1) t st := by
  cases st with
  | idle => trivial
  | pending op =>
      obtain ⟨i, hik, hcall, hq, hno⟩ := h
      refine ⟨i, hik.trans k.lt_succ_self, hcall, quiet_succ hq hev, fun m him hmk hm => ?_⟩
      rcases Nat.lt_succ_iff_lt_or_eq.mp hmk with hmk | rfl
      · exact hno m him hmk hm
      · exact hin hm
  | done r =>
      obtain ⟨i, m, op, him, hmk, hcall, hq, hm, hinst, hr⟩ := h
      exact ⟨i, m, op, him, hmk.trans k.lt_succ_self, hcall, quiet_succ hq hev, hm, hinst, hr⟩

/-- The history of every thread at every moment of a run. -/
lemma history (h : Tracks M ok O I status) {k : ℕ} (hk : k ≤ e.acts.length) (t : τ) :
    History O I status e k t (status (e.state k) t) := by
  induction k with
  | zero =>
      rw [(h.init _ e.init).2 t]
      trivial
  | succ k ih =>
      have ih := ih (Nat.le_of_succ_le hk)
      have ha : e.acts[k]? = some e.acts[k] := List.getElem?_eq_getElem hk
      generalize e.acts[k] = a at ha
      obtain ⟨hother, heff⟩ := h.effect_at ha
      have hmove : I.Moves e k t → t = I.thread a := fun hm => moves_inj hm ⟨a, ha, rfl⟩
      by_cases ht : t = I.thread a
      · subst ht
        have hev : ∀ ev, I.Happens e k (I.thread a) ev → I.event (e.state k) a = some ev := by
          rintro ev ⟨b, hb, -, hev⟩
          rwa [Option.some.inj (ha.symm.trans hb)]
        generalize hst : status (e.state k) (I.thread a) = st at ih heff
        generalize hst' : status (e.state (k + 1)) (I.thread a) = st' at heff
        generalize hevent : I.event (e.state k) a = event at heff hev
        cases heff with
        | call op hv =>
            exact ⟨k, k.lt_succ_self, ⟨a, ha, rfl, hevent⟩, fun m ev h1 h2 => by omega,
              fun m h1 h2 => by omega⟩
        | take op hv =>
            obtain ⟨i, hik, hcall, hq, -⟩ := ih
            exact ⟨i, k, op, hik, k.lt_succ_self, hcall,
              quiet_succ hq fun ev hh => by simpa using hev ev hh, ⟨a, ha, rfl⟩,
              ⟨_, op, _, ⟨a, ha, rfl⟩, hst, hst'⟩, rfl⟩
        | ret r hv => trivial
        | skip _ hv =>
            refine ih.skip (fun ev hh => by simpa using hev ev hh) fun _ hinst => ?_
            obtain ⟨u, op, r, hu, hp, hd⟩ := hinst
            obtain rfl := moves_inj hu ⟨a, ha, rfl⟩
            rw [hst] at hp
            rw [hst', hp] at hd
            simp at hd
      · rw [hother t ht]
        exact ih.skip (fun ev hh => ht (hmove (happens_moves hh))) fun hm => absurd (hmove hm) ht

end Tracks

/-- **The rule.**  A machine whose steps track the status of every thread is linearizable. -/
theorem Linearizable.of_status {O : SeqObject ν Op Ret} {I : Interface σ α τ ν Op Ret}
    {status : σ → τ → Status Op Ret} (h : Tracks M ok O I status) (e : M.Trace ok) :
    Linearizable O I e := by
  refine ⟨Tracks.Instant I status e, (h.init _ e.init).1, fun k hk hno => ?_, ?_, ?_⟩
  · have ha : e.acts[k]? = some e.acts[k] := List.getElem?_eq_getElem hk
    generalize e.acts[k] = a at ha
    have heff := (h.effect_at ha).2
    generalize hst : status (e.state k) (I.thread a) = st at heff
    generalize hst' : status (e.state (k + 1)) (I.thread a) = st' at heff
    generalize I.event (e.state k) a = event at heff
    cases heff with
    | take op hv => exact absurd ⟨_, op, _, ⟨a, ha, rfl⟩, hst, hst'⟩ hno
    | call op hv => exact hv
    | ret r hv => exact hv
    | skip _ hv => exact hv
  · rintro k t hm ⟨u, op, r, hu, hp, hd⟩
    obtain rfl := Tracks.moves_inj hm hu
    obtain ⟨a, ha, rfl⟩ := hm
    have hk : k < e.acts.length := (List.getElem?_eq_some_iff.mp ha).1
    have hhist := h.history hk.le (I.thread a)
    have heff := (h.effect_at ha).2
    rw [hp] at hhist heff
    rw [hd] at heff
    obtain ⟨i, hik, hcall, hq, hno⟩ := hhist
    refine ⟨i, op, hik, hcall, hq, hno, ?_⟩
    generalize I.event (e.state k) a = event at heff
    cases heff with
    | take _ hv => exact hv
  · intro t i j op r hc
    obtain ⟨a, ha, rfl, hret⟩ := hc.ret
    have hj : j < e.acts.length := (List.getElem?_eq_some_iff.mp ha).1
    have hhist := h.history hj.le (I.thread a)
    have heff := (h.effect_at ha).2
    rw [hret] at heff
    generalize status (e.state j) (I.thread a) = st at hhist heff
    generalize status (e.state (j + 1)) (I.thread a) = st' at heff
    cases heff with
    | ret _ hv =>
        obtain ⟨i', m, op', him, hmj, hcall, hq, hm, hinst, hr⟩ := hhist
        -- the call found in the history is the one the return belongs to
        have hii : i' = i := by
          rcases lt_trichotomy i' i with hlt | heq | hlt
          · exact absurd hc.call (hq i _ hlt hc.lt)
          · exact heq
          · exact absurd hcall (hc.quiet i' _ hlt (him.trans hmj))
        subst hii
        obtain rfl : op' = op := by simpa using Tracks.happens_inj hcall hc.call
        exact ⟨m, him, hmj, hm, hinst, hr⟩

end Multicore
