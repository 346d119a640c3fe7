import Multicore.Lab11.OptimisticInv

/-!
# The optimistic list is a linearizable set

The value of a state is the set of keys between `head` and `tail`.  A call takes effect at one of
its own steps: a call that changes the list at its store into `prev->next`, every other call when it
looks at `curr->key` after validation.  At both moments the pair `prev`, `curr` is adjacent in the
chain and the key lies between the two, so `curr->key` decides whether the key is in the set.

* **`linearizable_set`** — the chain is sorted at all times, and every run has a linearization;
* **`no_lock_cycle`** — a thread that holds a mutex waits only for the mutex of a node with a larger
  key.
-/

namespace Multicore.Lab11.Optimistic

variable {τ : Type*} {s s' : State τ} {t u : τ}

/-! ## Calls and the set -/

/-- The keys between `head` and `tail`. -/
def State.keys (s : State τ) : Set ℤ := keySet s.next s.key head tail

/-- How a run of the list is read. -/
def interface (τ : Type*) : Interface (State τ) (Act τ) τ (Set ℤ) Call Bool where
  thread := Act.tid
  event := event
  value := State.keys

/-- Has the call taken effect? -/
def Pc.status : Pc → Status Call Bool
  | .idle => .idle
  | .start c | .walk c _ _ | .lockPrev c _ _ | .lockCurr c _ _ | .validate c _ _ _ | .decide c _ _
  | .setNext c _ _ | .link c _ _ | .getNext c _ _ | .unlink c _ _ _
  | .unlockPrev c _ _ none | .unlockCurr c _ none => .pending c.toCall
  | .unlockPrev _ _ _ (some b) | .unlockCurr _ _ (some b) | .ret b => .done b

lemma keys_init (h : IsInit s) : s.keys = ∅ := by
  obtain ⟨-, -, hn, hnone, -, -⟩ := h
  refine Set.eq_empty_of_forall_notMem ?_
  rintro k ⟨a, ha, hah, hat, -⟩
  rcases ha.cases_head with rfl | ⟨b, hb, hba⟩
  · exact hah rfl
  · obtain rfl : tail = b := Option.some.inj (hn.symm.trans hb)
    rcases hba.cases_head with rfl | ⟨c, hc, -⟩
    · exact hat rfl
    · simp [hnone tail (by decide)] at hc

/-- The set after a call of `list_add` has allocated its node. -/
lemma Inv.keys_malloc (h : Inv s) (key : ℤ) : (s.malloc key).keys = s.keys := by
  have hsmall : ∀ {a}, Leads s.next head a → a < s.alloc := by
    intro a ha
    rcases Relation.ReflTransGen.cases_tail ha with rfl | ⟨b, -, hb⟩
    · exact lt_of_lt_of_le (by decide) h.two
    · exact (h.target b _ hb).1
  ext k
  simp only [State.keys, keySet, Set.mem_ofPred_eq, h.malloc_next]
  refine exists_congr fun a => and_congr_right fun ha => ?_
  rw [malloc_key (hsmall ha)]

/-- The validated pair decides whether the key is in the set. -/
lemma Inv.mem_keys_iff (h : Inv s) {c : Args} {prev curr : ℕ}
    (hv : (s.thread t).validated = some (prev, curr)) (hr : InRange c.key)
    (hprev : s.key prev < c.key) (hcurr : c.key ≤ s.key curr) :
    c.key ∈ s.keys ↔ s.key curr = c.key := by
  obtain ⟨hreach, hnext⟩ := (h.sits t).valid prev curr hv
  exact h.chain.search hreach hnext hprev hcurr (h.keyTail ▸ hr.2)

/-- The test of `curr->key`: what does not change the list takes effect here. -/
lemma Inv.effect_decide (h : Inv s) {c : Args} {prev curr : ℕ}
    (hpc : s.thread t = .decide c prev curr) :
    Effect intSet s.keys s.keys none (.pending c.toCall)
      (decided c prev curr (s.key curr)).status := by
  have hsits := h.sits t
  rw [hpc] at hsits
  obtain ⟨hr, hprev, hcurr⟩ := hsits.fits
  have hmem := h.mem_keys_iff (t := t) (by rw [hpc]; rfl) hr hprev hcurr
  obtain ⟨⟨op, key⟩, node⟩ := c
  cases op with
  | add =>
      simp only [decided]
      split_ifs with hk
      · exact effect_take (intSet_add_of_mem (hmem.mpr hk))
      · exact .skip _ rfl
  | remove =>
      simp only [decided]
      split_ifs with hk
      · exact effect_take (intSet_remove_of_notMem fun hin => hk (hmem.mp hin))
      · exact .skip _ rfl
  | contains => exact effect_take (intSet_contains _ (by rw [decide_eq_true_iff, hmem]))

/-- The store of `list_add` adds the key. -/
lemma Inv.effect_link (h : Inv s) {c : Args} {prev curr : ℕ}
    (hpc : s.thread t = .link c prev curr) :
    Effect intSet s.keys (s.setNext prev (some c.node)).keys none (.pending c.toCall)
      (.done true) := by
  have hsits := h.sits t
  rw [hpc] at hsits
  obtain ⟨hr, hprev, hcurr, hop⟩ := hsits.fits
  have hown : (Pc.link c prev curr).owned = some (c.node, c.key) := by simp [Pc.owned, hop]
  obtain ⟨-, -, hkey, hno⟩ := hsits.own _ _ hown
  obtain ⟨hreach, hnext⟩ := hsits.valid prev curr rfl
  have hmem := h.mem_keys_iff (t := t) (by rw [hpc]; rfl) hr hprev hcurr.le
  have hkeys : (s.setNext prev (some c.node)).keys = insert c.key s.keys := by
    rw [← hkey]
    exact h.chain.keySet_insert hreach hnext (hsits.known c.node (some curr) rfl) hno
      (hsits.own_ne_head hown) (hkey ▸ hprev)
  obtain ⟨⟨op, key⟩, node⟩ := c
  obtain rfl : op = .add := hop
  rw [hkeys]
  exact effect_take (intSet_add_of_notMem fun hin => hcurr.ne' (hmem.mp hin))

/-- The store of `list_remove` removes the key. -/
lemma Inv.effect_unlink (h : Inv s) {c : Args} {prev curr : ℕ} {next : Option ℕ}
    (hpc : s.thread t = .unlink c prev curr next) :
    Effect intSet s.keys (s.setNext prev next).keys none (.pending c.toCall) (.done true) := by
  obtain ⟨hnext, n, rfl⟩ := h.unlink_next hpc
  have hsits := h.sits t
  rw [hpc] at hsits
  obtain ⟨hr, hprev, hcurr, hop⟩ := hsits.fits
  obtain ⟨hreach, hpn⟩ := hsits.valid prev curr rfl
  have hmem := h.mem_keys_iff (t := t) (by rw [hpc]; rfl) hr hprev hcurr.ge
  have hkeys : (s.setNext prev (some n)).keys = s.keys \ {c.key} := by
    rw [← hcurr]
    exact h.chain.keySet_delete hreach hpn hnext
  obtain ⟨⟨op, key⟩, node⟩ := c
  obtain rfl : op = .remove := hop
  rw [hkeys]
  exact effect_take (intSet_remove_of_mem (hmem.mpr hcurr))

variable [DecidableEq τ]

/-- A move does not touch other threads. -/
lemma Move.other {ev : Option (Event Call Bool)} (h : Move s t ev s') (hu : u ≠ t) :
    s'.thread u = s.thread u := by
  cases h
  case call op key hpc => cases op <;> exact Function.update_of_ne hu _ _
  all_goals exact Function.update_of_ne hu _ _

lemma setPc_self (s : State τ) (t : τ) (pc : Pc) : (s.setPc t pc).thread t = pc :=
  Function.update_self _ _ _

/-- **Every move tracks the set.** -/
lemma Inv.effect (h : Inv s) {ev : Option (Event Call Bool)} (hm : Move s t ev s') :
    Effect intSet s.keys s'.keys ev (s.thread t).status (s'.thread t).status := by
  cases hm
  case call op key hpc =>
    rw [hpc]
    cases op with
    | add =>
        rw [State.begin, setPc_self]
        exact .call _ (h.keys_malloc key)
    | remove =>
        rw [State.begin, setPc_self]
        · exact .call _ rfl
        · simp
    | contains =>
        rw [State.begin, setPc_self]
        · exact .call _ rfl
        · simp
  all_goals rw [setPc_self, ‹s.thread t = _›]
  case decide c prev curr hpc => exact h.effect_decide hpc
  case link c prev curr hpc => exact h.effect_link hpc
  case unlink c prev curr next hpc => exact h.effect_unlink hpc
  case setNext c prev curr hpc =>
    have hsits := h.sits t
    rw [hpc] at hsits
    obtain ⟨-, -, -, hop⟩ := hsits.fits
    have hown : (Pc.setNext c prev curr).owned = some (c.node, c.key) := by simp [Pc.owned, hop]
    exact .skip _ (SortedChain.keySet_prepare (hsits.own _ _ hown).2.2.2 (hsits.own_ne_head hown) _)
  case unlockPrev c prev curr ret hpc => cases ret <;> exact .skip _ rfl
  case ret b hpc => exact .ret b rfl
  all_goals exact .skip _ rfl

lemma tracks : Tracks (list τ) KeyInRange intSet (interface τ) fun s t => (s.thread t).status where
  init s hs := ⟨keys_init hs, fun t => by rw [hs.2.2.2.2.2 t]; rfl⟩
  other s a s' _ _ hstep t ht := by rw [(move_of_step hstep).other ht]
  effect s a s' hrun _ hstep := (inv_of_run hrun).effect (move_of_step hstep)

/-- The nodes reached from `head` have growing keys, and the last one is `tail`. -/
def State.Sorted (s : State τ) : Prop :=
  (∀ a b, Leads s.next head a → s.next a = some b → s.key a < s.key b) ∧
    Leads s.next head tail ∧ s.next tail = none

/-- **The optimistic list is a linearizable set.**  In every run with keys strictly between those
of the sentinels the chain is sorted at all times, and every call has the effect and the result of
the set operation at one instant inside the call. -/
theorem linearizable_set (e : (list τ).Trace KeyInRange) :
    (∀ k ≤ e.acts.length, (e.state k).Sorted) ∧ Linearizable intSet (interface τ) e := by
  refine ⟨fun k hk => ?_, .of_status tracks e⟩
  have hinv := inv_of_run (e.run hk)
  exact ⟨fun a b _ hab => hinv.chain.order a b hab, hinv.chain.complete, hinv.chain.last⟩

/-- Thread `false` adds `5` and still holds the mutexes when thread `true` comes to the new node. -/
def addContains : List (Act Bool) :=
  Act.call false .add 5 ++ Act.go false 8 ++ Act.call true .contains 5 ++ Act.go true 2 ++
    Act.go false 3 ++ Act.go true 7

theorem linearizable_set_add_contains :
    ∃ e : (list Bool).Trace KeyInRange, e.acts = addContains ∧
      event (e.state 14) ⟨false, .go⟩ = some (.ret true) ∧
      event (e.state 21) ⟨true, .go⟩ = some (.ret true) ∧
      (∀ k ≤ e.acts.length, (e.state k).Sorted) ∧ Linearizable intSet (interface Bool) e := by
  let e : (list Bool).Trace KeyInRange :=
    Machine.Trace.ofExec (M := list Bool) (State.start_isInit Bool) addContains (by decide +kernel)
  exact ⟨e, rfl, rfl, rfl, linearizable_set e⟩

/-! ## Null pointers and locks -/

/-- The node whose mutex a thread is about to lock. -/
def Pc.waitsFor : Pc → Option ℕ
  | .lockPrev _ prev _ => some prev
  | .lockCurr _ _ curr => some curr
  | _ => none

/-- **No thread follows a null pointer**: inside a call every thread can make its next step, unless
it waits for a mutex that is locked. -/
theorem step_isSome (hs : (list τ).Run KeyInRange s) (hpc : s.thread t ≠ .idle)
    (hfree : ∀ a, (s.thread t).waitsFor = some a → s.mutex a = false) :
    ((list τ).step s ⟨t, .go⟩).isSome = true := by
  have hinv := inv_of_run hs
  have hsits := hinv.sits t
  have hstep : (list τ).step s ⟨t, .go⟩ = go s t (s.thread t) := by
    simp only [list, step]
  rw [hstep]
  cases hth : s.thread t <;> rw [hth] at hsits hfree <;> simp only [Optimistic.go]
  case idle => exact absurd hth hpc
  case start c =>
    obtain ⟨b, hb⟩ := Option.ne_none_iff_exists'.mp
      (hinv.chain.next_ne_none (.refl head) (by decide))
    simp [hb]
  case walk c prev curr =>
    split_ifs with hk
    · obtain ⟨b, hb⟩ := hinv.next_isSome (hsits.locals curr (by simp [Pc.locals])).2
        (hk.trans hsits.fits.1.2)
      simp [hb]
    · rfl
  case lockPrev c prev curr => simp [hfree prev rfl]
  case lockCurr c prev curr => simp [hfree curr rfl]
  case validate c prev curr it =>
    obtain ⟨hr, hprev, -⟩ := hsits.fits
    unfold validateStep
    split_ifs with hk hit hn
    · rfl
    · rfl
    · obtain ⟨b, hb⟩ := hinv.next_isSome (hsits.locals it (by simp [Pc.locals])).2
        (hk.trans_lt (hprev.trans hr.2))
      simp [hb]
    · rfl
  all_goals rfl

/-- A thread that holds a mutex and waits for another one holds that of `prev` only. -/
lemma Pc.held_of_waitsFor {pc : Pc} {a : ℕ} (hw : pc.waitsFor = some a) (hh : pc.held ≠ []) :
    ∃ c prev, pc = .lockCurr c prev a ∧ pc.held = [prev] := by
  cases pc <;> simp_all [waitsFor, held]

/-- **There is no lock cycle**: no set of threads each of which holds a node mutex and waits for one
that another thread of the set holds.  The awaited keys would grow for ever. -/
theorem no_lock_cycle (hs : (list τ).Run KeyInRange s) (S : Finset τ) (hne : S.Nonempty) :
    ¬ ∀ t ∈ S, (s.thread t).held ≠ [] ∧ ∃ a, (s.thread t).waitsFor = some a ∧
      ∃ u ∈ S, u ≠ t ∧ a ∈ (s.thread u).held := by
  intro hall
  let awaited : τ → ℤ := fun t => ((s.thread t).waitsFor.map s.key).getD 0
  obtain ⟨t, ht, hmax⟩ := S.exists_max_image awaited hne
  obtain ⟨hheld, a, hwait, u, hu, -, hau⟩ := hall t ht
  obtain ⟨hheldu, b, hwaitu, -⟩ := hall u hu
  obtain ⟨c, prev, hpc, hprev⟩ := Pc.held_of_waitsFor hwaitu hheldu
  obtain rfl : a = prev := by simpa [hprev] using hau
  have hfits := ((inv_of_run hs).sits u).fits
  rw [hpc] at hfits
  have hlt : s.key a < s.key b := hfits.2.1.trans_le hfits.2.2
  have := hmax u hu
  simp only [awaited, hwait, hwaitu, Option.map_some, Option.getD_some] at this
  exact absurd hlt this.not_gt

/-- Thread `0` holds `head` and waits for the node with key `5`, which thread `1` holds while it
waits for `tail`. -/
theorem no_lock_cycle_two_threads : ∃ s : State (Fin 2), (list (Fin 2)).Run KeyInRange s ∧
    (s.thread 0).waitsFor = some 2 ∧ (s.thread 1).held = [2] ∧
    ({0, 1} : Finset (Fin 2)).Nonempty ∧
    ¬ ∀ t ∈ ({0, 1} : Finset (Fin 2)), (s.thread t).held ≠ [] ∧
      ∃ a, (s.thread t).waitsFor = some a ∧
        ∃ u ∈ ({0, 1} : Finset (Fin 2)), u ≠ t ∧ a ∈ (s.thread u).held := by
  obtain ⟨s, hs, hp⟩ := Machine.exists_run_of_exec (M := list (Fin 2)) KeyInRange
    (State.start_isInit (Fin 2))
    (Act.call 1 .add 5 ++ Act.go 1 11 ++ Act.call 1 .add 7 ++ Act.go 1 4 ++
      Act.call 0 .contains 5 ++ Act.go 0 3)
    (fun s => (s.thread 0).waitsFor = some 2 ∧ (s.thread 1).held = [2]) (by decide +kernel)
  obtain ⟨hwait, hheld⟩ := of_decide_eq_true hp
  have hne : ({0, 1} : Finset (Fin 2)).Nonempty := ⟨0, by decide⟩
  exact ⟨s, hs, hwait, hheld, hne, no_lock_cycle hs {0, 1} hne⟩

end Multicore.Lab11.Optimistic
