import Multicore.Lib.Liveness
import Multicore.Lab11.Program

/-!
# The programs of lab 11 come to an end

Every thread has a finite number of calls, but a call may wait for a mutex, and its walk may meet
nodes that are being added in front of it.  This file shows that no schedule can go on for ever and
none can get stuck, so that `main` always prints.

* `SetList.Budget` — what the program needs of its list: a cost that every step inside of a call
  lowers and a call raises by a fixed amount, and that somebody can move as long as a thread is
  inside of a call;
* `AlwaysPrints` — a bound on the length of all schedules, and a schedule that cannot be continued
  has printed;
* `behind` — the nodes a walk may still meet, of which there are no more than nodes that are ever
  allocated.  Keys grow along the list, so every round of a walk has one less;
* `CoarseGrained.budget`, `FineGrained.budget` — two of the lists.
-/

namespace Multicore.Lab11

variable {σ : Type*} {n : ℕ}

/-! ## Programs over a list that does not block -/

/-- How the calls of a list are paid for, if no more than `bound` nodes are allocated. -/
structure SetList.Budget (P : SetList σ (Fin n)) (Start : σ → Prop) (bound perCall : ℕ) where
  Good : σ → Prop
  cost : σ → ℕ
  alloc : σ → ℕ
  init : ∀ s, P.list.init s → Start s → Good s ∧ cost s = 0 ∧ alloc s = 2
  good : ∀ s a s', P.list.Run KeyInRange s → Good s → P.list.step s a = some s' → Good s'
  go : ∀ s t s', P.list.Run KeyInRange s → Good s → alloc s ≤ bound →
    P.list.step s ⟨t, .go⟩ = some s' → cost s' < cost s ∧ alloc s' = alloc s
  call : ∀ s t op key s', P.list.Run KeyInRange s → alloc s < bound →
    P.list.step s ⟨t, .call op key⟩ = some s' →
    cost s' ≤ cost s + perCall ∧ alloc s' ≤ alloc s + 1
  progress : ∀ s, P.list.Run KeyInRange s → Good s → (∃ t, P.idle s t = false) →
    ∃ t, (P.list.step s ⟨t, .go⟩).isSome
  goEvent : ∀ s t op, P.interface.event s ⟨t, .go⟩ ≠ some (.call op)
  canCall : ∀ s t op key, P.idle s t = true → (P.list.step s ⟨t, .call op key⟩).isSome

/-- How many steps `main` still makes. -/
def MainPc.stepsLeft (n : ℕ) : MainPc → ℕ
  | .create i => (n - i) + 1 + (n + 1)
  | .join i => (n - i) + 1
  | .printed _ => 0

/-- How many calls the threads still make. -/
def callsLeft (todo : Fin n → List Call) : ℕ := ∑ t, (todo t).length

/-- How many calls the threads make. -/
def calls (work : Fin n → List Work) : ℕ := callsLeft fun t => threadFunc (work t)

lemma callsLeft_update {todo : Fin n → List Call} {t : Fin n} {c : Call} {rest : List Call}
    (h : todo t = c :: rest) : callsLeft (Function.update todo t rest) + 1 = callsLeft todo := by
  have hsame : ∑ u ∈ Finset.univ.erase t, (Function.update todo t rest u).length
      = ∑ u ∈ Finset.univ.erase t, (todo u).length :=
    Finset.sum_congr rfl fun u hu => by rw [Function.update_of_ne (Finset.ne_of_mem_erase hu)]
  rw [callsLeft, callsLeft, ← Finset.add_sum_erase _ _ (Finset.mem_univ t),
    ← Finset.add_sum_erase _ (fun u => (todo u).length) (Finset.mem_univ t), hsame,
    Function.update_self, h, List.length_cons]
  omega

/-- There is a bound on the length of all schedules, and a schedule that cannot be continued ends
with `main` having printed. -/
def AlwaysPrints (P : SetList σ (Fin n)) (Start : σ → Prop) (work : Fin n → List Work) (size : ℤ)
    (values : ℕ → ℤ) (steps : ℕ) : Prop :=
  ∀ e : (program P work size values).Trace fun _ _ => True, Start (e.state 0).threads.object →
    e.acts.length ≤ steps ∧
    ((∀ a, (program P work size values).step (e.state e.acts.length) a = none) →
      ∃ b, (e.state e.acts.length).main = .printed b)

section Program

variable {P : SetList σ (Fin n)} {status : σ → Fin n → Status Call Bool} {Start : σ → Prop}
  {bound perCall : ℕ} {work : Fin n → List Work} {size : ℤ} {values : ℕ → ℤ}
  {s s' : MainState σ n}

/-- The steps that are left. -/
def SetList.Budget.rank (B : P.Budget Start bound perCall) (s : MainState σ n) : ℕ :=
  B.cost s.threads.object + callsLeft s.threads.todo * (perCall + 1) + s.main.stepsLeft n

/-- What is kept: enough nodes are left for the calls that are left. -/
structure SetList.Budget.Kept (B : P.Budget Start bound perCall) (s : MainState σ n) : Prop where
  good : B.Good s.threads.object
  nodes : B.alloc s.threads.object + callsLeft s.threads.todo ≤ bound

/-- **One step.** -/
lemma SetList.Budget.move (B : P.Budget Start bound perCall) (hP : P.Sound status)
    (hinv : MainInv P work size values s) (hk : B.Kept s) (hm : MainMove P size values s s') :
    B.Kept s' ∧ B.rank s' < B.rank s := by
  have hrun := Clients.object_run hinv.run
  -- a step of `main` alone
  have hmain : ∀ pc : MainPc, pc.stepsLeft n < s.main.stepsLeft n →
      B.Kept { s with main := pc } ∧ B.rank { s with main := pc } < B.rank s :=
    fun pc hpc => ⟨⟨hk.good, hk.nodes⟩, Nat.add_lt_add_left hpc _⟩
  cases hm with
  | create i hs =>
      have := i.2
      exact hmain _ (by simp only [hs, MainPc.stepsLeft]; omega)
  | created hs hi => exact hmain _ (by simp only [hs, MainPc.stepsLeft]; omega)
  | join i hs hthrough =>
      have := i.2
      exact hmain _ (by simp only [hs, MainPc.stepsLeft]; omega)
  | print hs hi hb => exact hmain _ (by simp only [hs, MainPc.stepsLeft]; omega)
  | @thread a threads hcreated hstep =>
      obtain ⟨hmove, hcases⟩ := Clients.step_cases hstep
      have hgood := B.good _ _ _ hrun hk.good hmove
      have hnodes := hk.nodes
      obtain ⟨t, choice⟩ := a
      cases choice with
      | go =>
          have htodo : threads.todo = s.threads.todo := by
            rcases hcases with ⟨c, rest, hev, -⟩ | ⟨-, htodo⟩
            · exact absurd hev (B.goEvent _ _ _)
            · exact htodo
          obtain ⟨hcost, halloc⟩ := B.go _ _ _ hrun hk.good (by omega) hmove
          refine ⟨⟨hgood, ?_⟩, ?_⟩
          · simp only [htodo, halloc]
            exact hnodes
          · simp only [SetList.Budget.rank, htodo]
            omega
      | call op key =>
          obtain ⟨c, rest, hc, htodo⟩ : ∃ c rest, s.threads.todo t = c :: rest ∧
              threads.todo = Function.update s.threads.todo t rest := by
            rcases hcases with ⟨c, rest, -, hc, htodo⟩ | ⟨hno, -⟩
            · rw [hP.thread] at hc htodo
              exact ⟨c, rest, hc, htodo⟩
            · exact absurd (hP.call _ _ _ _ _ hmove) (hno _)
          have hleft := callsLeft_update hc
          obtain ⟨hcost, halloc⟩ := B.call _ _ _ _ _ hrun (by omega) hmove
          refine ⟨⟨hgood, ?_⟩, ?_⟩
          · simp only [htodo]
            omega
          · simp only [SetList.Budget.rank, htodo, ← hleft, Nat.succ_mul]
            omega

/-- **Somebody can move** until `main` has printed. -/
lemma SetList.Budget.exists_step (B : P.Budget Start bound perCall) (hP : P.Sound status)
    (hinv : MainInv P work size values s) (hk : B.Kept s) (hrunning : ∀ b, s.main ≠ .printed b) :
    ∃ a, ((program P work size values).step s a).isSome := by
  cases hs : s.main with
  | printed b => exact absurd hs (hrunning b)
  | create i => exact ⟨.main, by simp [program, MainState.step, MainState.mainStep, hs]⟩
  | join i =>
      have hcreated : ∀ k, s.main.created k = true := fun k => by rw [hs]; rfl
      by_cases hi : i < n
      · by_cases hthrough : Through P s ⟨i, hi⟩
        · refine ⟨.main, ?_⟩
          have hboth : s.threads.todo ⟨i, hi⟩ = [] ∧ P.idle s.threads.object ⟨i, hi⟩ = true :=
            hthrough
          simp [program, MainState.step, MainState.mainStep, hs, hi, hboth]
        · by_cases hbusy : ∃ t, P.idle s.threads.object t = false
          · -- a thread is inside of a call
            obtain ⟨t, ht⟩ := B.progress _ (Clients.object_run hinv.run) hk.good hbusy
            refine ⟨.thread ⟨t, .go⟩, ?_⟩
            have hgo : Clients.step P.list P.interface s.threads ⟨t, .go⟩
                = (P.list.step s.threads.object ⟨t, .go⟩).map fun object =>
                  { s.threads with object := object } := by
              unfold Clients.step
              split
              · exact absurd ‹_› (B.goEvent _ _ _)
              · rfl
            simp [program, MainState.step, hP.thread, hcreated, hgo, ht]
          · -- thread `i` makes its next call
            push Not at hbusy
            have hidle : P.idle s.threads.object ⟨i, hi⟩ = true := by
              simpa using hbusy ⟨i, hi⟩
            cases htodo : s.threads.todo ⟨i, hi⟩ with
            | nil => exact absurd ⟨htodo, hidle⟩ hthrough
            | cons c rest =>
                refine ⟨.thread ⟨⟨i, hi⟩, .call c.op c.key⟩, ?_⟩
                obtain ⟨object, hobject⟩ := Option.isSome_iff_exists.mp
                  (B.canCall _ ⟨i, hi⟩ c.op c.key hidle)
                have hev := hP.call _ _ _ _ _ hobject
                simp [program, MainState.step, hP.thread, hcreated, Clients.step, hev, htodo,
                  hobject]
      · -- the list is in order, so that the validation comes to an end
        have hthrough : ∀ t, Through P s t := fun t =>
          hinv.joined t (by rw [hs]; exact t.2.trans_le (not_lt.mp hi))
        obtain ⟨order, -, hlists⟩ := hinv.exists_shuffle hP hthrough
        obtain ⟨b, hb, -⟩ := validate_iff hlists size values
        exact ⟨.main, by simp [program, MainState.step, MainState.mainStep, hs, hi, hb]⟩

/-- **Programs over a list with a budget always print.** -/
theorem SetList.Budget.alwaysPrints (B : P.Budget Start (calls work + 2) perCall)
    (hP : P.Sound status) (hwork : KeysInRange work) :
    AlwaysPrints P Start work size values (calls work * (perCall + 1) + (2 * n + 2)) := by
  intro e hstart
  have hinv : ∀ k ≤ e.acts.length, MainInv P work size values (e.state k) := fun k hk =>
    mainInv_of_reachable hP hwork (e.run hk)
  have hmove : ∀ k a, e.acts[k]? = some a →
      MainMove P size values (e.state k) (e.state (k + 1)) := fun k a hact =>
    mainMove_of_step (e.step k a hact).2
  obtain ⟨hinit, htodo, hmain⟩ := e.init
  obtain ⟨hgood, hcost, halloc⟩ := B.init _ hinit hstart
  have hleft : callsLeft (e.state 0).threads.todo = calls work := by rw [htodo]; rfl
  have hkept : ∀ k ≤ e.acts.length, B.Kept (e.state k) := by
    intro k
    induction k with
    | zero => exact fun _ => ⟨hgood, by omega⟩
    | succ k ih =>
        intro hk
        have hk' := Nat.le_of_succ_le hk
        exact (B.move hP (hinv k hk') (ih hk') (hmove k _ (List.getElem?_eq_getElem hk))).1
  refine ⟨?_, fun hstuck => ?_⟩
  · have hpaid := e.count_add_le (fun _ _ => true) B.rank (Nat.zero_le _) le_rfl
      fun k a _ hact => by
        have hk : k ≤ e.acts.length := (List.getElem?_eq_some_iff.mp hact).1.le
        simpa using (B.move hP (hinv k hk) (hkept k hk) (hmove k a hact)).2
    rw [e.count_true le_rfl, e.count_true (Nat.zero_le _)] at hpaid
    have hrank : B.rank (e.state 0) = calls work * (perCall + 1) + (2 * n + 2) := by
      simp only [SetList.Budget.rank, hcost, hleft, hmain, MainPc.stepsLeft]
      omega
    omega
  · by_contra hno
    obtain ⟨a, ha⟩ := B.exists_step hP (hinv _ le_rfl) (hkept _ le_rfl) fun b hb => hno ⟨b, hb⟩
    rw [hstuck a] at ha
    exact Bool.noConfusion ha

end Program

/-! ## The list under one mutex -/

namespace CoarseGrained

/-- Does the thread have the mutex? -/
def Pc.inside : Pc → Bool
  | .body _ | .unlock _ => true
  | _ => false

/-- The steps to the end of the call. -/
def Pc.cost : Pc → ℕ
  | .idle => 0
  | .lock _ => 4
  | .body _ => 3
  | .unlock _ => 2
  | .ret _ => 1

/-- Somebody has the mutex when it is locked. -/
def Manned (s : State (Fin n)) : Prop := s.mutex = true → ∃ t, (s.thread t).inside = true

lemma Manned.move {s s' : State (Fin n)} {t : Fin n} {ev : Option (Event Call Bool)}
    (h : Manned s) (hm : Move s t ev s') : Manned s' := by
  -- the thread that has the mutex is another one and stays where it is
  have hstay : ∀ pc : Pc, (s.thread t).inside = false → s.mutex = true →
      ∃ u, (Function.update s.thread t pc u).inside = true := by
    intro pc hout hmutex
    obtain ⟨u, hu⟩ := h hmutex
    have hut : u ≠ t := by
      rintro rfl
      simp [hu] at hout
    exact ⟨u, by rwa [Function.update_of_ne hut]⟩
  cases hm with
  | call c hpc => exact hstay _ (by rw [hpc]; rfl)
  | lock c hpc hmutex => exact fun _ => ⟨t, by simp [Pc.inside]⟩
  | body c heap b hpc hcall => exact fun _ => ⟨t, by simp [Pc.inside]⟩
  | unlock b hpc => exact fun hmutex => absurd hmutex Bool.false_ne_true
  | ret b hpc => exact hstay _ (by rw [hpc]; rfl)

/-- A thread that does not wait for the mutex can move. -/
lemma go_isSome {s : State (Fin n)} {t : Fin n} (hinv : ThreadInv s) (hbusy : s.thread t ≠ .idle)
    (hfree : ∀ c, s.thread t = .lock c → s.mutex = false) :
    ((list (Fin n)).step s ⟨t, .go⟩).isSome := by
  have hstep : (list (Fin n)).step s ⟨t, .go⟩ = go s t (s.thread t) := by
    simp only [list, step]
  rw [hstep]
  have hfits := hinv.fits t
  cases hpc : s.thread t with
  | idle => exact absurd hpc hbusy
  | lock c => simp [go, hfree c hpc]
  | body c =>
      rw [hpc] at hfits
      obtain ⟨heap, hcall, -⟩ := call_spec hinv.represents (c := c) hfits
      simp [go, hcall]
  | unlock b => rfl
  | ret b => rfl

/-- A call costs four steps after the first one. -/
def budget (n bound : ℕ) : (setList n).Budget (fun _ => True) bound 4 where
  Good := Manned
  cost s := ∑ t, (s.thread t).cost
  alloc _ := 2
  init s hs _ := by
    obtain rfl := hs
    exact ⟨fun h => absurd h Bool.false_ne_true, by simp [State.start, Pc.cost], rfl⟩
  good s a s' _ h hstep := h.move (move_of_step hstep)
  go s t s' _ _ _ hstep := by
    have hm := move_of_step hstep
    refine ⟨sum_lt_of_thread (t := t) ?_ fun u hu => by rw [hm.other hu], rfl⟩
    have hev : ∀ c, event s ⟨t, .go⟩ ≠ some (.call c) := by
      intro c
      cases hpc : s.thread t <;> simp [event, hpc]
    generalize event s ⟨t, .go⟩ = ev at hm hev
    cases hm with
    | call c hpc => exact absurd rfl (hev c)
    | lock c hpc hmutex => simp [hpc, Pc.cost]
    | body c heap b hpc hcall => simp [hpc, Pc.cost]
    | unlock b hpc => simp [hpc, Pc.cost]
    | ret b hpc => simp [hpc, Pc.cost]
  call s t op key s' _ _ hstep := by
    have hm := move_of_step hstep
    refine ⟨sum_le_add_of_thread (t := t) ?_ fun u hu => by rw [hm.other hu], by omega⟩
    have hle : ∀ pc : Pc, pc.cost ≤ 4 := fun pc => by cases pc <;> simp [Pc.cost]
    exact (hle _).trans (Nat.le_add_left _ _)
  progress s hs h hbusy := by
    have hinv := threadInv_of_run hs
    obtain ⟨t, ht⟩ := hbusy
    have hpc : s.thread t ≠ .idle := fun hidle => by simp [idle_iff.mpr hidle] at ht
    by_cases hmutex : s.mutex = true
    · obtain ⟨u, hu⟩ := h hmutex
      refine ⟨u, go_isSome hinv (fun hidle => ?_) fun c hc => ?_⟩
      · simp [hidle, Pc.inside] at hu
      · simp [hc, Pc.inside] at hu
    · exact ⟨t, go_isSome hinv hpc fun _ _ => Bool.eq_false_of_not_eq_true hmutex⟩
  goEvent s t op := by
    simp only [setList, interface]
    cases hpc : s.thread t <;> simp [event, hpc]
  canCall s t op key h := by
    rw [idle_iff] at h
    simp [setList, list, step, h]

end CoarseGrained

/-! ## The nodes ahead of a walk -/

/-- The addresses below `bound` that a walk at node `a` may still meet: the nodes with greater keys,
and the nodes that are not allocated yet. -/
def behind (bound alloc : ℕ) (key : ℕ → ℤ) (a : ℕ) : ℕ :=
  ((Finset.range bound).filter fun b => b < alloc → key a < key b).card

section Behind

variable {bound alloc : ℕ} {key : ℕ → ℤ} {a b : ℕ}

lemma behind_le (bound alloc : ℕ) (key : ℕ → ℤ) (a : ℕ) : behind bound alloc key a ≤ bound := by
  rw [behind]
  exact (Finset.card_filter_le _ _).trans_eq (Finset.card_range bound)

/-- **A walk goes to a node with a greater key.** -/
lemma behind_lt (hab : key a < key b) (hb : b < alloc) (halloc : alloc ≤ bound) :
    behind bound alloc key b < behind bound alloc key a := by
  refine Finset.card_lt_card (Finset.ssubset_iff_of_subset ?_ |>.mpr ⟨b, ?_, ?_⟩)
  · intro x hx
    simp only [Finset.mem_filter] at hx ⊢
    exact ⟨hx.1, fun hlt => hab.trans (hx.2 hlt)⟩
  · simp only [Finset.mem_filter, Finset.mem_range]
    exact ⟨hb.trans_le halloc, fun _ => hab⟩
  · simp only [Finset.mem_filter, not_and]
    exact fun _ hlt => lt_irrefl _ (hlt hb)

/-- A new node is not one more to meet: its address was counted before. -/
lemma behind_malloc (ha : a < alloc) (k : ℤ) :
    behind bound (alloc + 1) (Function.update key alloc k) a ≤ behind bound alloc key a := by
  refine Finset.card_le_card fun x hx => ?_
  simp only [Finset.mem_filter] at hx ⊢
  refine ⟨hx.1, fun hlt => ?_⟩
  have hx2 := hx.2 (hlt.trans (Nat.lt_succ_self _))
  rwa [Function.update_of_ne ha.ne, Function.update_of_ne hlt.ne] at hx2

end Behind

/-! ## The hand-over-hand list -/

namespace FineGrained

variable {bound : ℕ} {s s' : State (Fin n)} {t : Fin n}

/-- The steps to the end of the call.  A round of the walk has four. -/
def Pc.cost (bound : ℕ) (h : Heap) : Pc → ℕ
  | .idle => 0
  | .lockHead _ => 4 * bound + 11
  | .read _ prev => 4 * behind bound h.alloc h.key prev + 10
  | .lockCurr _ prev _ => 4 * behind bound h.alloc h.key prev + 9
  | .test _ prev _ => 4 * behind bound h.alloc h.key prev + 8
  | .advance _ prev _ => 4 * behind bound h.alloc h.key prev + 7
  | .link _ _ _ | .getNext _ _ _ => 7
  | .setNext _ _ _ | .unlink _ _ _ _ => 6
  | .unlockPrev _ _ _ _ => 5
  | .unlockCurr _ _ _ => 4
  | .free _ => 3
  | .ret _ => 2

lemma decided_cost (c : Args) (prev curr : ℕ) (k : ℤ) (h : Heap) :
    (decided c prev curr k).cost bound h ≤ 7 := by
  unfold decided
  split
  · split_ifs <;> simp [Pc.cost]
  · split_ifs <;> simp [Pc.cost]
  · simp [Pc.cost]

lemma leave_cost (c : Args) (curr : ℕ) (b : Bool) (h : Heap) :
    (leave c curr b).cost bound h ≤ 3 := by
  unfold leave
  split_ifs <;> simp [Pc.cost]

/-- The pointers have no influence on the cost. -/
lemma Pc.cost_congr {h h' : Heap} (hkey : h'.key = h.key) (halloc : h'.alloc = h.alloc) (pc : Pc) :
    pc.cost bound h' = pc.cost bound h := by
  cases pc <;> simp [Pc.cost, hkey, halloc]

/-- A new node is no additional cost for those who are on their way. -/
lemma Pc.cost_malloc {h : Heap} {pc : Pc} (hlocals : ∀ a ∈ pc.locals, a < h.alloc) (key : ℤ) :
    pc.cost bound (h.malloc key) ≤ pc.cost bound h := by
  have hle : ∀ a ∈ pc.locals,
      behind bound (h.malloc key).alloc (h.malloc key).key a ≤ behind bound h.alloc h.key a :=
    fun a ha => behind_malloc (hlocals a ha) key
  cases pc <;> simp only [Pc.cost, le_refl]
  case read c prev =>
    exact Nat.add_le_add_right (Nat.mul_le_mul_left 4 (hle prev (by simp [locals]))) _
  case lockCurr c prev curr =>
    exact Nat.add_le_add_right (Nat.mul_le_mul_left 4 (hle prev (by simp [locals]))) _
  case test c prev curr =>
    exact Nat.add_le_add_right (Nat.mul_le_mul_left 4 (hle prev (by simp [locals]))) _
  case advance c prev curr =>
    exact Nat.add_le_add_right (Nat.mul_le_mul_left 4 (hle prev (by simp [locals]))) _

/-- **A step inside of a call brings it nearer to its end.** -/
lemma Inv.cost_lt (h : Inv s) (halloc : s.heap.alloc ≤ bound) {ev : Option (Event Call Bool)}
    (hm : Move s t ev s') (hev : ∀ c, ev ≠ some (.call c)) :
    s'.heap.key = s.heap.key ∧ s'.heap.alloc = s.heap.alloc ∧
      (s'.thread t).cost bound s'.heap < (s.thread t).cost bound s.heap := by
  have hlinks := (h.sits t).links
  cases hm
  case call op key hpc => exact absurd rfl (hev ⟨op, key⟩)
  all_goals refine ⟨rfl, rfl, ?_⟩
  all_goals rw [setPc_self, ‹s.thread t = _›]
  case lockHead c hpc hmutex =>
    have := behind_le bound s.heap.alloc s.heap.key head
    simp only [Pc.cost, State.setPc, State.setMutex]
    omega
  case arrive c prev curr hpc hk =>
    refine (decided_cost c prev curr (s.heap.key curr) s.heap).trans_lt ?_
    simp only [Pc.cost]
    omega
  case advance c prev curr hpc =>
    -- `curr` is behind `prev`, so that it has the greater key
    have hnext : s.settled.next prev = some curr := hlinks _ _ (by simp [hpc, Pc.links])
    have hkey : s.heap.key prev < s.heap.key curr := h.heap.chain.order _ _ hnext
    have hcurr : curr < s.heap.alloc := h.heap.target _ _ hnext
    have := behind_lt hkey hcurr halloc
    simp only [Pc.cost, State.setPc, State.setMutex]
    omega
  case unlockCurr c curr ret hpc =>
    exact (leave_cost c curr ret s.heap).trans_lt (Nat.lt_succ_self 3)
  all_goals simp [Pc.cost, State.setPc, State.setMutex]

/-- Somebody holds every mutex that is locked. -/
def State.Manned (s : State (Fin n)) : Prop :=
  Multicore.Manned (fun pc a => a ∈ pc.held) s.mutex s.thread

/-- A thread moves and keeps its mutexes. -/
lemma State.Manned.keep (h : s.Manned) {heap : Heap} {pc : Pc}
    (hheld : ∀ a ∈ (s.thread t).held, a ∈ pc.held) :
    State.Manned ⟨heap, s.mutex, Function.update s.thread t pc⟩ :=
  Multicore.Manned.keep h hheld

lemma State.Manned.move (h : s.Manned) {ev : Option (Event Call Bool)} (hm : Move s t ev s') :
    s'.Manned := by
  cases hm
  case call op key hpc =>
    cases op with
    | add =>
        have hmanned : Multicore.Manned _ s.mutex s.thread := h
        refine hmanned.update fun a ha => .inr ⟨?_, by simp [hpc, Pc.held]⟩
        have hupd : Function.update s.mutex s.heap.alloc false a = true := ha
        rw [Function.update_apply] at hupd
        split_ifs at hupd
        exact hupd
    | remove => exact h.keep (by simp [hpc, Pc.held])
    | contains => exact h.keep (by simp [hpc, Pc.held])
  case lockHead c hpc hmutex =>
    exact Multicore.Manned.lock h (by simp [Pc.held]) (by simp [hpc, Pc.held])
  case lockCurr c prev curr hpc hmutex =>
    exact Multicore.Manned.lock h (by simp [Pc.held]) (by simp [hpc, Pc.held])
  case advance c prev curr hpc => exact Multicore.Manned.unlock h (by simp [hpc, Pc.held])
  case unlockPrev c prev curr ret hpc => exact Multicore.Manned.unlock h (by simp [hpc, Pc.held])
  case unlockCurr c curr ret hpc => exact Multicore.Manned.unlock h (by simp [hpc, Pc.held])
  case arrive c prev curr hpc hk =>
    refine h.keep ?_
    unfold decided
    split
    · split_ifs <;> simp [hpc, Pc.held]
    · split_ifs <;> simp [hpc, Pc.held]
    · simp [hpc, Pc.held]
  all_goals exact h.keep (by simp [*, Pc.held])

/-- **No deadlock**: as long as a thread is inside of a call some thread can move. -/
lemma exists_go (hs : (list (Fin n)).Run KeyInRange s) (hmanned : s.Manned)
    (hbusy : ∃ t, s.thread t ≠ .idle) : ∃ t, ((list (Fin n)).step s ⟨t, .go⟩).isSome := by
  have hinv := inv_of_run hs
  obtain ⟨t, ht, hfree⟩ := exists_not_blocked (S := {t | s.thread t ≠ .idle}) (Set.toFinite _)
    hbusy (fun t => (s.thread t).waitsFor) (fun t a => a ∈ (s.thread t).held)
    (fun a => s.mutex a = true) s.heap.key
    (fun t _ a _ hlocked => by
      obtain ⟨u, hu⟩ := hmanned a hlocked
      refine ⟨u, fun hidle => ?_, hu⟩
      simp [hidle, Pc.held] at hu)
    (fun t _ a b ha hb => by
      -- who waits inside of the list holds the node in front of the one it waits for
      cases hpc : s.thread t <;> simp only [hpc, Pc.waitsFor, Pc.held, reduceCtorEq] at ha hb
      case lockHead c => simp at ha
      case lockCurr c prev curr =>
        obtain rfl : a = prev := by simpa using ha
        obtain rfl : curr = b := Option.some.inj hb
        have hlink := (hinv.sits t).links a (some curr) (by simp [hpc, Pc.links])
        exact hinv.heap.chain.order _ _ hlink)
  refine ⟨t, step_isSome hs ht fun a ha => Bool.eq_false_of_not_eq_true (hfree a ha)⟩

/-- A call walks past at most `bound` nodes. -/
def budget (n bound : ℕ) : (setList n).Budget (fun _ => True) bound (4 * bound + 11) where
  Good := State.Manned
  cost s := ∑ t, (s.thread t).cost bound s.heap
  alloc s := s.heap.alloc
  init s hs _ := by
    obtain rfl := hs
    exact ⟨fun a ha => absurd ha Bool.false_ne_true, by simp [State.start, Pc.cost], rfl⟩
  good s a s' _ h hstep := h.move (move_of_step hstep)
  go s t s' hs _ halloc hstep := by
    have hm := move_of_step hstep
    have hev : ∀ c, event s ⟨t, .go⟩ ≠ some (.call c) := by
      intro c
      cases hpc : s.thread t <;> simp [event, hpc]
    obtain ⟨hkey, halloc', hlt⟩ := (inv_of_run hs).cost_lt halloc hm hev
    exact ⟨sum_lt_of_thread (t := t) hlt fun u hu => by
      rw [hm.other hu, Pc.cost_congr hkey halloc'], halloc'⟩
  call s t op key s' hs _ hstep := by
    have hm := move_of_step hstep
    have hinv := inv_of_run hs
    have hev : event s ⟨t, .call op key⟩ = some (.call ⟨op, key⟩) :=
      (sound n).call _ _ _ _ _ hstep
    rw [hev] at hm
    have hother := fun u (hu : u ≠ t) => hm.other hu
    cases hm with
    | call _ _ hpc =>
        cases op with
        | add =>
            refine ⟨sum_le_add_of_thread (t := t) ?_ fun u hu => ?_, le_rfl⟩
            · simp [State.begin, State.setPc, Pc.cost]
            · rw [hother u hu]
              exact Pc.cost_malloc (fun a ha => hinv.lt_alloc (.inr (.inl ha))) key
        | remove =>
            refine ⟨sum_le_add_of_thread (t := t) ?_ fun u hu => ?_, Nat.le_succ _⟩
            · simp [State.begin, State.setPc, Pc.cost]
            · rw [hother u hu]
              exact le_rfl
        | contains =>
            refine ⟨sum_le_add_of_thread (t := t) ?_ fun u hu => ?_, Nat.le_succ _⟩
            · simp [State.begin, State.setPc, Pc.cost]
            · rw [hother u hu]
              exact le_rfl
  progress s hs h hbusy := by
    refine exists_go hs h ?_
    obtain ⟨t, ht⟩ := hbusy
    exact ⟨t, fun hidle => by simp [idle_iff.mpr hidle] at ht⟩
  goEvent s t op := by
    simp only [setList, interface]
    cases hpc : s.thread t <;> simp [event, hpc]
  canCall s t op key h := by
    rw [idle_iff] at h
    simp [setList, list, step, h]

end FineGrained

end Multicore.Lab11
