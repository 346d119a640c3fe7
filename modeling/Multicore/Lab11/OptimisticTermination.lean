import Multicore.Lab11.Termination

/-!
# The optimistic list does not retry for ever

A call of the optimistic list starts again when its validation fails, and nothing in the call itself
says how often this may happen.  The reason why it comes to an end is that a failed attempt has
been spoilt by another thread: as long as nobody stores into the chain, an attempt that has walked
along the chain stays on it, and the second walk finds what the first one has found.

* `Pc.Doomed` — the attempt can no longer be validated: `prev` is not in the chain any more, or
  `curr` is not behind it, or the second walk has got to where `prev` is not found;
* `Inv.validate_cases` — an attempt that is not spoilt is validated;
* `Pc.cost` — what a call costs: every store into the chain is charged with one more attempt for
  every thread, and every call makes at most one such store;
* **`Inv.pays`** — every step inside of a call is paid for; the steps of the thread itself do not
  spoil its attempt;
* **`always_prints`** — all three programs of lab 11 come to an end on every schedule.
-/

namespace Multicore.Lab11

variable {n : ℕ}

namespace Optimistic

variable {bound : ℕ} {s s' : State (Fin n)} {t : Fin n}

/-! ## Attempts that are spoilt -/

/-- The attempt can no longer be validated. -/
def Pc.Doomed (next : ℕ → Option ℕ) : Pc → Prop
  | .walk _ prev curr | .lockPrev _ prev curr | .lockCurr _ prev curr =>
      ¬ (Leads next head prev ∧ next prev = some curr)
  | .validate _ prev curr it =>
      ¬ (Leads next head prev ∧ next prev = some curr ∧ Leads next it prev)
  | _ => False

/-- **The second walk finds what the first one has found**: if the attempt is not spoilt, the step
goes on with the walk, which is not spoilt either, or accepts the pair. -/
lemma Inv.validate_cases (h : Inv s) {c : Args} {prev curr it : ℕ} {pc : Pc}
    (hstep : validateStep s c prev curr it = some pc) :
    pc = .decide c prev curr ∨
    (∃ m, s.next it = some m ∧ pc = .validate c prev curr m ∧
      (pc.Doomed s.next → (Pc.validate c prev curr it).Doomed s.next)) ∨
    pc = .unlockPrev c prev curr none ∧ (Pc.validate c prev curr it).Doomed s.next := by
  unfold validateStep at hstep
  split_ifs at hstep with hk hit hn
  · exact .inl (Option.some.inj hstep).symm
  · refine .inr (.inr ⟨(Option.some.inj hstep).symm, fun hgood => hn ?_⟩)
    rw [hit]
    exact hgood.2.1
  · obtain ⟨m, hm, rfl⟩ := Option.map_eq_some_iff.mp hstep
    refine .inr (.inl ⟨m, hm, rfl, fun hbad hgood => hbad ⟨hgood.1, hgood.2.1, ?_⟩⟩)
    -- `it` leads to `prev` and is not `prev`, so that its pointer leads there
    rcases hgood.2.2.cases_head with heq | ⟨d, hd, hlead⟩
    · exact absurd heq hit
    · obtain rfl : d = m := Option.some.inj (hd.symm.trans hm)
      exact hlead
  · refine .inr (.inr ⟨(Option.some.inj hstep).symm, fun hgood => hk ?_⟩)
    exact h.chain.key_le hgood.2.2

/-! ## What a call costs -/

/-- The steps of one attempt. -/
def attempt (bound : ℕ) : ℕ := 2 * bound + 12

/-- The steps to the end of the attempt, and of the next one if this one has failed. -/
def Pc.steps (bound alloc : ℕ) (key : ℕ → ℤ) : Pc → ℕ
  | .idle => 0
  | .start _ => attempt bound
  | .walk _ _ curr => behind bound alloc key curr + bound + 11
  | .lockPrev _ _ _ => bound + 10
  | .lockCurr _ _ _ => bound + 9
  | .validate _ _ _ it => behind bound alloc key it + 8
  | .decide _ _ _ => 7
  | .setNext _ _ _ | .getNext _ _ _ => 6
  | .link _ _ _ | .unlink _ _ _ _ => 5
  | .unlockPrev _ _ _ none => attempt bound + 2
  | .unlockCurr _ _ none => attempt bound + 1
  | .unlockPrev _ _ _ (some _) => 4
  | .unlockCurr _ _ (some _) => 3
  | .ret _ => 2

/-- What is put aside for the attempts that the store of this call will spoil. -/
def Pc.reserve (n bound : ℕ) (pc : Pc) : ℕ :=
  match pc.status with
  | .pending _ => n * attempt bound
  | _ => 0

open Classical in
/-- The next attempt, if this one is spoilt. -/
noncomputable def Pc.penalty (bound : ℕ) (next : ℕ → Option ℕ) (pc : Pc) : ℕ :=
  if pc.Doomed next then attempt bound else 0

/-- What the call still costs. -/
noncomputable def Pc.cost (bound : ℕ) (s : State (Fin n)) (pc : Pc) : ℕ :=
  pc.reserve n bound + pc.steps bound s.alloc s.key + pc.penalty bound s.next

section Cost

variable {pc pc' : Pc} {next next' : ℕ → Option ℕ}

lemma Pc.penalty_le (bound : ℕ) (next : ℕ → Option ℕ) (pc : Pc) :
    pc.penalty bound next ≤ attempt bound := by
  unfold Pc.penalty
  split_ifs
  · exact le_rfl
  · exact Nat.zero_le _

lemma Pc.penalty_mono (bound : ℕ) (h : pc'.Doomed next' → pc.Doomed next) :
    pc'.penalty bound next' ≤ pc.penalty bound next := by
  unfold Pc.penalty
  split_ifs with h' hpc
  · exact le_rfl
  · exact absurd (h h') hpc
  · exact Nat.zero_le _
  · exact le_rfl

/-- A store spoils one attempt of a thread at most. -/
lemma Pc.cost_store (hkey : s'.key = s.key) (halloc : s'.alloc = s.alloc) :
    pc.cost bound s' ≤ pc.cost bound s + attempt bound := by
  have := Pc.penalty_le bound s'.next pc
  simp only [Pc.cost, hkey, halloc]
  omega

/-- What does not spoil the attempt does not raise the cost. -/
lemma Pc.cost_le (hkey : s'.key = s.key) (halloc : s'.alloc = s.alloc)
    (hdoomed : pc.Doomed s'.next → pc.Doomed s.next) : pc.cost bound s' ≤ pc.cost bound s := by
  have := Pc.penalty_mono bound hdoomed
  simp only [Pc.cost, hkey, halloc]
  omega

/-- **One step in the attempt**: it has less steps left and does not spoil the attempt. -/
lemma Pc.cost_lt (hkey : s'.key = s.key) (halloc : s'.alloc = s.alloc)
    (hreserve : pc'.reserve n bound ≤ pc.reserve n bound)
    (hsteps : pc'.steps bound s.alloc s.key < pc.steps bound s.alloc s.key)
    (hdoomed : pc'.Doomed s'.next → pc.Doomed s.next) : pc'.cost bound s' < pc.cost bound s := by
  have := Pc.penalty_mono bound hdoomed
  simp only [Pc.cost, hkey, halloc]
  omega

/-- A new node changes nothing for those who are on their way. -/
lemma Inv.cost_malloc (h : Inv s) (hsits : Sits s pc) (key : ℤ) :
    pc.cost bound (s.malloc key) ≤ pc.cost bound s := by
  have hle : ∀ a ∈ pc.locals, behind bound (s.malloc key).alloc (s.malloc key).key a
      ≤ behind bound s.alloc s.key a :=
    fun a ha => behind_malloc (hsits.locals a ha).1 key
  have hsteps : pc.steps bound (s.malloc key).alloc (s.malloc key).key
      ≤ pc.steps bound s.alloc s.key := by
    cases pc with
    | walk c prev curr =>
        have := hle curr (by simp [Pc.locals])
        simp only [Pc.steps]
        omega
    | validate c prev curr it =>
        have := hle it (by simp [Pc.locals])
        simp only [Pc.steps]
        omega
    | unlockPrev c prev curr ret => cases ret <;> exact le_rfl
    | unlockCurr c curr ret => cases ret <;> exact le_rfl
    | _ => exact le_rfl
  simp only [Pc.cost, h.malloc_next]
  omega

end Cost

/-! ## The steps of a call -/

/-- The new node of a call of `list_add` is out of everybody's sight. -/
lemma Inv.doomed_setNext (h : Inv s) {c : Args} {prev curr : ℕ}
    (hpc : s.thread t = .setNext c prev curr) {u : Fin n}
    (hdoomed : (s.thread u).Doomed (s.setNext c.node (some curr)).next) :
    (s.thread u).Doomed s.next := by
  have hsits := h.sits t
  rw [hpc] at hsits
  obtain ⟨-, -, -, hop⟩ := hsits.fits
  have hown : (Pc.setNext c prev curr).owned = some (c.node, c.key) := by simp [Pc.owned, hop]
  have hfresh := (hsits.own _ _ hown).2.2.2
  have hhead : head ≠ c.node := hsits.own_ne_head hown
  have hlocal : ∀ a ∈ (s.thread u).locals, a ≠ c.node := by
    rintro a ha rfl
    exact h.cross.apart t u c.node ⟨c.key, by rw [hpc]; exact hown⟩ ha
  have hleads : ∀ {a b}, a ≠ c.node →
      (Leads (s.setNext c.node (some curr)).next a b ↔ Leads s.next a b) :=
    fun ha => leads_update_of_isolated hfresh _ ha
  have hnext : ∀ {a}, a ≠ c.node → (s.setNext c.node (some curr)).next a = s.next a :=
    fun ha => Function.update_of_ne ha _ _
  cases hu : s.thread u with
  | walk c' p q =>
      rw [hu] at hdoomed hlocal
      have hp := hlocal p (by simp [Pc.locals])
      rwa [Pc.Doomed, hleads hhead, hnext hp] at hdoomed
  | lockPrev c' p q =>
      rw [hu] at hdoomed hlocal
      have hp := hlocal p (by simp [Pc.locals])
      rwa [Pc.Doomed, hleads hhead, hnext hp] at hdoomed
  | lockCurr c' p q =>
      rw [hu] at hdoomed hlocal
      have hp := hlocal p (by simp [Pc.locals])
      rwa [Pc.Doomed, hleads hhead, hnext hp] at hdoomed
  | validate c' p q it =>
      rw [hu] at hdoomed hlocal
      have hp := hlocal p (by simp [Pc.locals])
      have hit := hlocal it (by simp [Pc.locals])
      rwa [Pc.Doomed, hleads hhead, hnext hp, hleads hit] at hdoomed
  | _ => rw [hu] at hdoomed; exact hdoomed.elim

/-- What a step of thread `t` costs: it is one of the steps that its call has left and spoils no
attempt, or it is the store of the call and its reserve pays for the attempts that it spoils. -/
def Pays (bound : ℕ) (s : State (Fin n)) (t : Fin n) (s' : State (Fin n)) : Prop :=
  s'.key = s.key ∧ s'.alloc = s.alloc ∧
    ((s'.thread t).cost bound s' < (s.thread t).cost bound s ∧
        (∀ u, (s.thread u).Doomed s'.next → (s.thread u).Doomed s.next) ∨
      (s'.thread t).cost bound s' + n * attempt bound < (s.thread t).cost bound s)

/-- A step that leaves the pointers alone. -/
lemma pays_of_steps {pc : Pc} {mutex : ℕ → Bool}
    (hreserve : pc.reserve n bound ≤ (s.thread t).reserve n bound)
    (hsteps : pc.steps bound s.alloc s.key < (s.thread t).steps bound s.alloc s.key)
    (hdoomed : pc.Doomed s.next → (s.thread t).Doomed s.next) :
    Pays bound s t { s with mutex := mutex, thread := Function.update s.thread t pc } := by
  refine ⟨rfl, rfl, .inl ⟨?_, fun u => id⟩⟩
  simp only [Function.update_self]
  exact Pc.cost_lt rfl rfl hreserve hsteps hdoomed

/-- The store of a call. -/
lemma pays_of_store {a : ℕ} {b : Option ℕ} {c : Args} {prev curr : ℕ}
    (hpending : (s.thread t).reserve n bound = n * attempt bound)
    (hsteps : (s.thread t).steps bound s.alloc s.key = 5) :
    Pays bound s t ((s.setNext a b).setPc t (.unlockPrev c prev curr (some true))) := by
  refine ⟨rfl, rfl, .inr ?_⟩
  have hpenalty : (Pc.unlockPrev c prev curr (some true)).penalty bound
      (Function.update s.next a b) = 0 := if_neg id
  have hnew : (Pc.unlockPrev c prev curr (some true)).cost bound
      ((s.setNext a b).setPc t (.unlockPrev c prev curr (some true))) = 4 := by
    simp only [Pc.cost, State.setPc, State.setNext, hpenalty]
    rfl
  have hold : n * attempt bound + 5 ≤ (s.thread t).cost bound s := by
    rw [Pc.cost, hpending, hsteps]
    exact Nat.le_add_right _ _
  rw [setPc_self, hnew]
  omega

/-- **Every step inside of a call is paid for.** -/
lemma Inv.pays (h : Inv s) (halloc : s.alloc ≤ bound)
    (hgo : Optimistic.go s t (s.thread t) = some s') : Pays bound s t s' := by
  -- the next node of a walk has a greater key
  have hbehind : ∀ {a b}, s.next a = some b →
      behind bound s.alloc s.key b < behind bound s.alloc s.key a := fun hab =>
    behind_lt (h.chain.order _ _ hab) (h.target _ _ hab).1 halloc
  cases hpc : s.thread t <;> simp only [hpc, Optimistic.go] at hgo
  case idle => simp at hgo
  case start c =>
    obtain ⟨curr, hn, rfl⟩ := Option.map_eq_some_iff.mp hgo
    refine pays_of_steps (by simp [hpc, Pc.reserve, Pc.status]) ?_ fun hbad => ?_
    · have := behind_le bound s.alloc s.key curr
      simp only [hpc, Pc.steps, attempt]
      omega
    · exact absurd ⟨.refl head, hn⟩ hbad
  case walk c prev curr =>
    split_ifs at hgo with hk
    · obtain ⟨m, hn, rfl⟩ := Option.map_eq_some_iff.mp hgo
      refine pays_of_steps (by simp [hpc, Pc.reserve, Pc.status]) ?_ fun hbad => ?_
      · have := hbehind hn
        simp only [hpc, Pc.steps]
        omega
      · rw [hpc]
        exact fun hgood => hbad ⟨hgood.1.tail hgood.2, hn⟩
    · obtain rfl := Option.some.inj hgo
      refine pays_of_steps (by simp [hpc, Pc.reserve, Pc.status]) ?_ fun hbad => ?_
      · simp only [hpc, Pc.steps]
        omega
      · rw [hpc]
        exact hbad
  case lockPrev c prev curr =>
    obtain ⟨-, hgo⟩ := Option.ite_none_right_eq_some.mp hgo
    obtain rfl := Option.some.inj hgo
    refine pays_of_steps (by simp [hpc, Pc.reserve, Pc.status]) (by simp [hpc, Pc.steps]) ?_
    rw [hpc]
    exact id
  case lockCurr c prev curr =>
    obtain ⟨-, hgo⟩ := Option.ite_none_right_eq_some.mp hgo
    obtain rfl := Option.some.inj hgo
    refine pays_of_steps (by simp [hpc, Pc.reserve, Pc.status]) ?_ fun hbad => ?_
    · have := behind_le bound s.alloc s.key head
      simp only [hpc, Pc.steps]
      omega
    · rw [hpc]
      exact fun hgood => hbad ⟨hgood.1, hgood.2, hgood.1⟩
  case validate c prev curr it =>
    obtain ⟨pc, hv, rfl⟩ := Option.map_eq_some_iff.mp hgo
    rcases h.validate_cases hv with rfl | ⟨m, hm, rfl, hdoomed⟩ | ⟨rfl, hdoomed⟩
    · exact pays_of_steps (by simp [hpc, Pc.reserve, Pc.status]) (by simp [hpc, Pc.steps])
        False.elim
    · refine pays_of_steps (by simp [hpc, Pc.reserve, Pc.status]) ?_ (by rwa [hpc])
      have := hbehind hm
      simp only [hpc, Pc.steps]
      omega
    · -- the attempt was spoilt, and the next one is paid for
      refine ⟨rfl, rfl, .inl ⟨?_, fun u => id⟩⟩
      have hold : (Pc.validate c prev curr it).penalty bound s.next = attempt bound :=
        if_pos hdoomed
      have hnew : (Pc.unlockPrev c prev curr none).penalty bound s.next = 0 := if_neg id
      rw [setPc_self, hpc]
      simp only [Pc.cost, State.setPc, hold, hnew, Pc.reserve, Pc.status, Pc.steps]
      omega
  case decide c prev curr =>
    obtain rfl := Option.some.inj hgo
    refine pays_of_steps ?_ ?_ ?_
    all_goals rw [hpc]; unfold decided
    all_goals split <;> try split_ifs
    all_goals simp [Pc.reserve, Pc.status, Pc.steps, Pc.Doomed]
  case setNext c prev curr =>
    obtain rfl := Option.some.inj hgo
    refine ⟨rfl, rfl, .inl ⟨?_, fun u => h.doomed_setNext hpc⟩⟩
    rw [setPc_self, hpc]
    exact Pc.cost_lt rfl rfl le_rfl (Nat.lt_succ_self 5) False.elim
  case link c prev curr =>
    obtain rfl := Option.some.inj hgo
    exact pays_of_store (by rw [hpc]; rfl) (by rw [hpc]; rfl)
  case getNext c prev curr =>
    obtain rfl := Option.some.inj hgo
    exact pays_of_steps (by simp [hpc, Pc.reserve, Pc.status]) (by simp [hpc, Pc.steps]) False.elim
  case unlink c prev curr next =>
    obtain rfl := Option.some.inj hgo
    exact pays_of_store (by rw [hpc]; rfl) (by rw [hpc]; rfl)
  case unlockPrev c prev curr ret =>
    obtain rfl := Option.some.inj hgo
    refine pays_of_steps ?_ ?_ False.elim
    all_goals rw [hpc]; cases ret
    all_goals simp [Pc.reserve, Pc.status, Pc.steps]
  case unlockCurr c curr ret =>
    obtain rfl := Option.some.inj hgo
    refine pays_of_steps ?_ ?_ ?_
    all_goals rw [hpc]; cases ret
    all_goals simp [Pc.reserve, Pc.status, Pc.steps, Pc.Doomed]
  case ret b =>
    obtain rfl := Option.some.inj hgo
    exact pays_of_steps (by simp [Pc.reserve, Pc.status]) (by simp [hpc, Pc.steps]) False.elim

/-- **The calls of all threads together.** -/
lemma Pays.sum_lt {ev : Option (Event Call Bool)} (h : Pays bound s t s') (hm : Move s t ev s') :
    ∑ u, (s'.thread u).cost bound s' < ∑ u, (s.thread u).cost bound s := by
  obtain ⟨hkey, halloc, ⟨hlt, hspared⟩ | hlt⟩ := h
  · refine sum_lt_of_thread (t := t) hlt fun u hu => ?_
    rw [hm.other hu]
    exact Pc.cost_le hkey halloc (hspared u)
  · refine sum_lt_of_reserve (t := t) (c := attempt bound) (by rwa [Fintype.card_fin])
      fun u hu => ?_
    rw [hm.other hu]
    exact Pc.cost_store hkey halloc

/-! ## Waiting for a mutex -/

/-- Somebody holds every mutex that is locked. -/
def State.Manned (s : State (Fin n)) : Prop :=
  Multicore.Manned (fun pc a => a ∈ pc.held) s.mutex s.thread

/-- A thread moves and keeps its mutexes. -/
lemma State.Manned.keep (h : s.Manned) {key : ℕ → ℤ} {next : ℕ → Option ℕ} {alloc : ℕ} {pc : Pc}
    (hheld : ∀ a ∈ (s.thread t).held, a ∈ pc.held) :
    State.Manned ⟨key, next, s.mutex, alloc, Function.update s.thread t pc⟩ :=
  Multicore.Manned.keep h hheld

lemma State.Manned.move (h : s.Manned) {ev : Option (Event Call Bool)} (hm : Move s t ev s') :
    s'.Manned := by
  cases hm
  case call op key hpc =>
    cases op with
    | add =>
        have hmanned : Multicore.Manned _ s.mutex s.thread := h
        refine hmanned.update fun a ha => .inr ⟨?_, by simp [hpc, Pc.held]⟩
        have hupd : Function.update s.mutex s.alloc false a = true := ha
        rw [Function.update_apply] at hupd
        split_ifs at hupd
        exact hupd
    | remove => exact h.keep (by simp [hpc, Pc.held])
    | contains => exact h.keep (by simp [hpc, Pc.held])
  case lockPrev c prev curr hpc hmutex =>
    exact Multicore.Manned.lock h (by simp [Pc.held]) (by simp [hpc, Pc.held])
  case lockCurr c prev curr hpc hmutex =>
    exact Multicore.Manned.lock h (by simp [Pc.held]) (by simp [hpc, Pc.held])
  case unlockPrev c prev curr ret hpc => exact Multicore.Manned.unlock h (by simp [hpc, Pc.held])
  case again c curr hpc => exact Multicore.Manned.unlock h (by simp [hpc, Pc.held])
  case leave c curr b hpc => exact Multicore.Manned.unlock h (by simp [hpc, Pc.held])
  case decide c prev curr hpc =>
    refine h.keep ?_
    unfold decided
    split
    · split_ifs <;> simp [hpc, Pc.held]
    · split_ifs <;> simp [hpc, Pc.held]
    · simp [hpc, Pc.held]
  all_goals exact h.keep (by simp [*, Pc.held])

/-- **No deadlock**: as long as a thread is inside of a call some thread can move. -/
lemma exists_go (hs : (list (Fin n)).Run KeyInRange s) (hmanned : s.Manned)
    (hbusy : ∃ t, s.thread t ≠ .idle) : ∃ t, ((list (Fin n)).step s ⟨t, .go⟩).isSome := by
  have hinv := inv_of_run hs
  obtain ⟨t, ht, hfree⟩ := exists_not_blocked (S := {t | s.thread t ≠ .idle}) (Set.toFinite _)
    hbusy (fun t => (s.thread t).waitsFor) (fun t a => a ∈ (s.thread t).held)
    (fun a => s.mutex a = true) s.key
    (fun t _ a _ hlocked => by
      obtain ⟨u, hu⟩ := hmanned a hlocked
      refine ⟨u, fun hidle => ?_, hu⟩
      simp [hidle, Pc.held] at hu)
    (fun t _ a b ha hb => by
      -- who holds `prev` and waits for `curr` has found its key between the two
      obtain ⟨c, prev, hpc, hheld⟩ := Pc.held_of_waitsFor hb (List.ne_nil_of_mem ha)
      obtain rfl : a = prev := by simpa [hheld] using ha
      have hfits := (hinv.sits t).fits
      rw [hpc] at hfits
      exact hfits.2.1.trans_le hfits.2.2)
  exact ⟨t, step_isSome hs ht fun a ha => Bool.eq_false_of_not_eq_true (hfree a ha)⟩

/-- A call makes one attempt, and its store at most one more for every thread. -/
noncomputable def budget (n bound : ℕ) :
    (setList n).Budget (fun s => ∀ a, s.mutex a = false) bound ((n + 1) * attempt bound) where
  Good := State.Manned
  cost s := ∑ t, (s.thread t).cost bound s
  alloc s := s.alloc
  init s hs hfree := by
    obtain ⟨-, -, -, -, halloc, hidle⟩ := hs
    refine ⟨fun a ha => by simp [hfree a] at ha, Finset.sum_eq_zero fun t _ => ?_, halloc⟩
    have hpenalty : Pc.idle.penalty bound s.next = 0 := if_neg id
    rw [hidle t, Pc.cost, hpenalty]
    rfl
  good s a s' _ h hstep := h.move (move_of_step hstep)
  go s t s' hs _ halloc hstep := by
    have hgo : Optimistic.go s t (s.thread t) = some s' := by
      simpa only [setList, list, step] using hstep
    have hpays := (inv_of_run hs).pays halloc hgo
    exact ⟨hpays.sum_lt (move_of_step hstep), hpays.2.1⟩
  call s t op key s' hs _ hstep := by
    have hm := move_of_step hstep
    have hinv := inv_of_run hs
    have hev : event s ⟨t, .call op key⟩ = some (.call ⟨op, key⟩) :=
      (sound n).call _ _ _ _ _ hstep
    rw [hev] at hm
    have hother := fun u (hu : u ≠ t) => hm.other hu
    have hself : ∀ (s'' : State (Fin n)) (c : Args),
        (Pc.start c).cost bound s'' = (n + 1) * attempt bound := by
      intro s'' c
      have hpenalty : (Pc.start c).penalty bound s''.next = 0 := if_neg id
      rw [Pc.cost, hpenalty, Nat.succ_mul]
      rfl
    cases hm with
    | call _ _ hpc =>
        cases op with
        | add =>
            refine ⟨sum_le_add_of_thread (t := t) ?_ fun u hu => ?_, le_rfl⟩
            · rw [State.begin, setPc_self, hself]
              exact Nat.le_add_left _ _
            · rw [hother u hu]
              exact hinv.cost_malloc (hinv.sits u) key
        | remove =>
            refine ⟨sum_le_add_of_thread (t := t) ?_ fun u hu => ?_, Nat.le_succ _⟩
            · rw [State.begin, setPc_self, hself]
              · exact Nat.le_add_left _ _
              · simp
            · rw [hother u hu]
              exact le_rfl
        | contains =>
            refine ⟨sum_le_add_of_thread (t := t) ?_ fun u hu => ?_, Nat.le_succ _⟩
            · rw [State.begin, setPc_self, hself]
              · exact Nat.le_add_left _ _
              · simp
            · rw [hother u hu]
              exact le_rfl
  progress s hs h hbusy := by
    refine exists_go hs h ?_
    obtain ⟨t, ht⟩ := hbusy
    exact ⟨t, fun hidle => by simp [idle_iff.mpr hidle] at ht⟩
  goEvent s t op := by
    simp only [setList, interface]
    cases hpc : s.thread t <;> simp [event, hpc]
  canCall s t op key h := by
    rw [idle_iff] at h
    simp [setList, list, step, h]

end Optimistic

/-- **All three programs of lab 11 print on every schedule**: there is a bound on the number of
their steps, and a schedule that cannot be continued has printed.  The optimistic program needs that
the mutexes of `head` and `tail` happen to be unlocked at the start. -/
theorem always_prints (work : Fin n → List Work) (size : ℤ) (values : ℕ → ℤ)
    (hwork : KeysInRange work) :
    AlwaysPrints (CoarseGrained.setList n) (fun _ => True) work size values
      (calls work * 5 + (2 * n + 2)) ∧
    AlwaysPrints (FineGrained.setList n) (fun _ => True) work size values
      (calls work * (4 * (calls work + 2) + 12) + (2 * n + 2)) ∧
    AlwaysPrints (Optimistic.setList n) (fun s => ∀ a, s.mutex a = false) work size values
      (calls work * ((n + 1) * Optimistic.attempt (calls work + 2) + 1) + (2 * n + 2)) :=
  ⟨(CoarseGrained.budget n _).alwaysPrints (CoarseGrained.sound n) hwork,
    (FineGrained.budget n _).alwaysPrints (FineGrained.sound n) hwork,
    (Optimistic.budget n _).alwaysPrints (Optimistic.sound n) hwork⟩

/-- One thread with three calls. -/
theorem always_prints_two_keys :
    KeysInRange twoKeys ∧ calls twoKeys = 3 ∧
    AlwaysPrints (CoarseGrained.setList 1) (fun _ => True) twoKeys 1 (fun _ => 5) 19 ∧
    AlwaysPrints (FineGrained.setList 1) (fun _ => True) twoKeys 1 (fun _ => 5) 100 ∧
    AlwaysPrints (Optimistic.setList 1) (fun s => ∀ a, s.mutex a = false) twoKeys 1 (fun _ => 5)
      139 := by
  have hwork : KeysInRange twoKeys := by decide
  exact ⟨hwork, by decide, always_prints twoKeys 1 (fun _ => 5) hwork⟩

end Multicore.Lab11
