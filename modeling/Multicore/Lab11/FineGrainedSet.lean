import Multicore.Lab11.FineGrainedInv

/-!
# The hand-over-hand list is a linearizable set

The value of a state is the set of keys in the settled chain; when no thread is between the two
stores of an insert these are the keys reached from `head`.  A call takes effect at one of its own
steps: a call that changes the list at its store into `prev->next`, every other call when it looks
at `curr->key` for the last time.

* **`hand_over_hand_set`** — outside of inserts the chain is sorted, every run has a linearization,
  and no thread touches a node that has been freed;
* **`step_isSome`** — no thread follows a null pointer, or the pointer of a node that has none yet.
-/

namespace Multicore.Lab11.FineGrained

variable {τ : Type*} {s s' : State τ} {t u : τ}

/-! ## Calls and the set -/

/-- The keys between `head` and `tail` in the settled chain. -/
def State.keys (s : State τ) : Set ℤ := keySet s.settled.next s.settled.key head tail

/-- How a run of the list is read. -/
def interface (τ : Type*) : Interface (State τ) (Act τ) τ (Set ℤ) Call Bool where
  thread := Act.tid
  event := event
  value := State.keys

/-- Has the call taken effect? -/
def Pc.status : Pc → Status Call Bool
  | .idle => .idle
  | .lockHead c | .read c _ | .lockCurr c _ _ | .test c _ _ | .advance c _ _ | .link c _ _
  | .getNext c _ _ | .unlink c _ _ _ => .pending c.toCall
  | .setNext _ _ _ | .free _ => .done true
  | .unlockPrev _ _ _ b | .unlockCurr _ _ b | .ret b => .done b

lemma leave_status (c : Args) (curr : ℕ) (b : Bool) : (leave c curr b).status = .done b := by
  unfold leave
  split_ifs with hrem
  · rw [hrem.2]
    rfl
  · rfl

lemma leave_middle (c : Args) (curr : ℕ) (b : Bool) : (leave c curr b).middle = none := by
  unfold leave
  split_ifs <;> rfl

lemma decided_middle (c : Args) (prev curr : ℕ) (k : ℤ) :
    (decided c prev curr k).middle = none := by
  unfold decided
  split
  · split_ifs <;> rfl
  · split_ifs <;> rfl
  · rfl

lemma keys_init : (State.start τ).keys = ∅ := by
  have hset : (State.start τ).settled.next = (State.start τ).heap.next :=
    State.settled_of_quiet fun _ => rfl
  refine Set.eq_empty_of_forall_notMem ?_
  rintro k ⟨a, ha, hah, hat, -⟩
  rw [hset] at ha
  rcases ha.cases_head with rfl | ⟨b, hb, hba⟩
  · exact hah rfl
  · obtain rfl : tail = b := Option.some.inj hb
    rcases hba.cases_head with rfl | ⟨c, hc, -⟩
    · exact hat rfl
    · exact absurd (show (none : Option ℕ) = some c from hc) (by simp)

/-- Adjacent nodes around a key decide whether the key is in the set. -/
lemma Inv.mem_keys_iff (h : Inv s) {c : Args} {prev curr : ℕ}
    (hl : (prev, some curr) ∈ (s.thread t).links) (hr : InRange c.key)
    (hprev : s.heap.key prev < c.key) (hcurr : c.key ≤ s.heap.key curr) :
    c.key ∈ s.keys ↔ s.heap.key curr = c.key :=
  h.heap.chain.search (h.leads_of_links hl) ((h.sits t).links _ _ hl) hprev hcurr
    (h.heap.keyTail ▸ hr.2)

/-- The test of `curr->key`: what does not change the list takes effect here. -/
lemma Inv.effect_arrive (h : Inv s) {c : Args} {prev curr : ℕ}
    (hpc : s.thread t = .test c prev curr) (hcurr : c.key ≤ s.heap.key curr) :
    Effect intSet s.keys s.keys none (.pending c.toCall)
      (decided c prev curr (s.heap.key curr)).status := by
  have hfits := (h.sits t).fits
  rw [hpc] at hfits
  obtain ⟨hr, hprev⟩ := hfits
  have hmem := h.mem_keys_iff (t := t) (by simp [hpc, Pc.links]) hr hprev hcurr
  obtain ⟨⟨op, key⟩, node⟩ := c
  cases op with
  | add =>
      simp only [decided]
      split_ifs with hk
      · exact effect_take (intSet_add_of_mem (hmem.mpr hk))
      · exact .skip _ rfl
  | remove =>
      simp only [decided]
      split_ifs with hk
      · exact effect_take (intSet_remove_of_notMem fun hin => hk (hmem.mp hin))
      · exact .skip _ rfl
  | contains => exact effect_take (intSet_contains _ (by rw [decide_eq_true_iff, hmem]))

variable [DecidableEq τ]

/-- The first store of `list_add` adds the key. -/
lemma Inv.effect_link (h : Inv s) {c : Args} {prev curr : ℕ}
    (hpc : s.thread t = .link c prev curr) :
    Effect intSet s.keys
      ((s.setHeap (s.heap.setNext prev (some c.node))).setPc t (.setNext c prev curr)).keys
      none (.pending c.toCall) (.done true) := by
  have hfits := (h.sits t).fits
  rw [hpc] at hfits
  obtain ⟨hr, hprev, hcurr, hop⟩ := hfits
  obtain ⟨hgap, hown⟩ := h.gap hpc
  have hmem := h.mem_keys_iff (t := t) (by simp [hpc, Pc.links]) hr hprev hcurr.le
  have hkeys : ((s.setHeap (s.heap.setNext prev (some c.node))).setPc t (.setNext c prev curr)).keys
      = insert c.key s.keys := by
    have hset : ((s.setHeap (s.heap.setNext prev (some c.node))).setPc t
        (.setNext c prev curr)).settled = _ := h.settled_link hpc
    rw [State.keys, hset, ← ((h.sits t).own _ _ hown).2.2.1]
    exact hgap.keySet_link h.heap.chain
  obtain ⟨⟨op, key⟩, node⟩ := c
  obtain rfl : op = .add := hop
  rw [hkeys]
  exact effect_take (intSet_add_of_notMem fun hin => hcurr.ne' (hmem.mp hin))

/-- The store of `list_remove` removes the key. -/
lemma Inv.effect_unlink (h : Inv s) {c : Args} {prev curr : ℕ} {next : Option ℕ}
    (hpc : s.thread t = .unlink c prev curr next) :
    Effect intSet s.keys
      ((s.setHeap (s.heap.setNext prev next)).setPc t (.unlockPrev c prev curr true)).keys
      none (.pending c.toCall) (.done true) := by
  obtain ⟨hcn, n, rfl⟩ := h.unlink_next hpc
  have hsits := h.sits t
  rw [hpc] at hsits
  obtain ⟨hr, hprev, hcurr, hop⟩ := hsits.fits
  have hmem := h.mem_keys_iff (t := t) (by simp [hpc, Pc.links]) hr hprev hcurr.ge
  have hreach := hsits.live prev (by simp [Pc.held]) (by simp [Pc.retired])
  have hkeys : ((s.setHeap (s.heap.setNext prev (some n))).setPc t
      (.unlockPrev c prev curr true)).keys = s.keys \ {c.key} := by
    have hset : ((s.setHeap (s.heap.setNext prev (some n))).setPc t
        (.unlockPrev c prev curr true)).settled = _ := h.settled_unlink hpc
    rw [State.keys, hset, ← hcurr]
    exact h.heap.chain.keySet_delete hreach (hsits.links prev (some curr) (by simp [Pc.links])) hcn
  obtain ⟨⟨op, key⟩, node⟩ := c
  obtain rfl : op = .remove := hop
  rw [hkeys]
  exact effect_take (intSet_remove_of_mem (hmem.mpr hcurr))

/-- The set after a call of `list_add` has allocated its node. -/
lemma Inv.keys_malloc (h : Inv s) (hidle : s.thread t = .idle) (key : ℤ) :
    (s.begin t .add key).keys = s.keys := by
  have hmid : (s.thread t).middle = none := by rw [hidle]; rfl
  have hset : (s.begin t .add key).settled.next = s.settled.next := by
    show settle (s.heap.malloc key).next (Function.update s.thread t _) = _
    rw [settle_update hmid rfl, h.settle_malloc]
  ext k
  simp only [State.keys, keySet, Set.mem_ofPred_eq, hset]
  refine exists_congr fun a => and_congr_right fun ha => ?_
  have hkey : (s.begin t .add key).settled.key a = s.settled.key a :=
    malloc_key (v := s.heap) (h.heap.lt_alloc ha)
  rw [hkey]

/-- A step of a thread that is not between the two stores of an insert, neither before nor after,
and that leaves keys and pointers alone. -/
lemma keys_update {heap : Heap} {pc : Pc} {mutex : ℕ → Bool} (hold : (s.thread t).middle = none)
    (hnew : pc.middle = none) (hkey : heap.key = s.heap.key) (hnext : heap.next = s.heap.next) :
    State.keys ⟨heap, mutex, Function.update s.thread t pc⟩ = s.keys := by
  simp only [State.keys, State.settled, settle_update hold hnew, hkey, hnext]

/-- A move does not touch other threads. -/
lemma Move.other {ev : Option (Event Call Bool)} (h : Move s t ev s') (hu : u ≠ t) :
    s'.thread u = s.thread u := by
  cases h
  case call op key hpc => cases op <;> exact Function.update_of_ne hu _ _
  all_goals exact Function.update_of_ne hu _ _

lemma setPc_self (s : State τ) (t : τ) (pc : Pc) : (s.setPc t pc).thread t = pc :=
  Function.update_self _ _ _

/-- **Every move tracks the set.** -/
lemma Inv.effect (h : Inv s) {ev : Option (Event Call Bool)} (hm : Move s t ev s') :
    Effect intSet s.keys s'.keys ev (s.thread t).status (s'.thread t).status := by
  cases hm
  case call op key hpc =>
    have hmid : (s.thread t).middle = none := by rw [hpc]; rfl
    have hstart : ∀ op, Effect intSet s.keys (s.setPc t (.lockHead ⟨⟨op, key⟩, 0⟩)).keys
        (some (.call ⟨op, key⟩)) .idle (.pending ⟨op, key⟩) := fun op =>
      .call _ (keys_update hmid rfl rfl rfl)
    rw [hpc]
    cases op with
    | add =>
        have hself : (s.begin t .add key).thread t = .lockHead ⟨⟨.add, key⟩, s.heap.alloc⟩ :=
          Function.update_self _ _ _
        rw [hself]
        exact .call _ (h.keys_malloc hpc key)
    | remove =>
        rw [State.begin, setPc_self]
        · exact hstart .remove
        · simp
    | contains =>
        rw [State.begin, setPc_self]
        · exact hstart .contains
        · simp
  all_goals rw [setPc_self, ‹s.thread t = _›]
  case link c prev curr hpc => exact h.effect_link hpc
  case setNext c prev curr hpc =>
    refine .skip _ ?_
    have hset : ((s.setHeap (s.heap.setNext c.node (some curr))).setPc t
        (.unlockPrev c prev curr true)).settled = s.settled := h.settled_setNext hpc
    rw [State.keys, hset, State.keys]
  case unlink c prev curr next hpc => exact h.effect_unlink hpc
  all_goals
    have hmid : (s.thread t).middle = none := by rw [‹s.thread t = _›]; rfl
  case arrive c prev curr hpc hk =>
    have hkeys : (s.setPc t (decided c prev curr (s.heap.key curr))).keys = s.keys :=
      keys_update hmid (decided_middle c prev curr _) rfl rfl
    rw [hkeys]
    exact h.effect_arrive hpc hk
  case unlockCurr c curr ret hpc =>
    rw [leave_status]
    exact .skip _ (keys_update hmid (leave_middle c curr ret) rfl rfl)
  case ret b hpc => exact .ret b (keys_update hmid rfl rfl rfl)
  all_goals exact .skip _ (keys_update hmid rfl rfl rfl)

lemma tracks : Tracks (list τ) KeyInRange intSet (interface τ) fun s t => (s.thread t).status where
  init s hs := by
    obtain rfl := hs
    exact ⟨keys_init, fun _ => rfl⟩
  other s a s' _ _ hstep t ht := by rw [(move_of_step hstep).other ht]
  effect s a s' hrun _ hstep := (inv_of_run hrun).effect (move_of_step hstep)

/-! ## What a thread touches -/

/-- The nodes of which a thread is about to read or write a field or the mutex. -/
def Pc.touches : Pc → List ℕ
  | .idle | .ret _ => []
  | .lockHead _ => [head]
  | .read _ prev | .advance _ prev _ | .link _ prev _ | .unlink _ prev _ _
  | .unlockPrev _ prev _ _ => [prev]
  | .lockCurr _ _ curr | .test _ _ curr | .getNext _ _ curr | .unlockCurr _ curr _
  | .free curr => [curr]
  | .setNext c _ _ => [c.node]

lemma Pc.touches_cases {pc : Pc} {a : ℕ} (ha : a ∈ pc.touches) :
    a = head ∨ a ∈ pc.locals ∨ (∃ p, (p, some a) ∈ pc.links) ∨ pc.retired = some a := by
  cases pc <;> simp_all [touches, locals, links, retired]
  case unlockPrev c prev curr b => by_cases hrem : Removed c b <;> simp [hrem]
  case unlockCurr c curr b => by_cases hrem : Removed c b <;> simp [hrem]

omit [DecidableEq τ] in
/-- **No thread touches a freed node**: it touches nodes in the chain, and the one it has unlinked
itself. -/
lemma Inv.touches_not_freed (h : Inv s) {a : ℕ} (ha : a ∈ (s.thread t).touches) :
    s.heap.freed a = false := by
  rcases Pc.touches_cases ha with rfl | ha | ⟨p, hp⟩ | ha
  · exact h.heap.not_freed (.refl head)
  · exact h.heap.not_freed (h.leads_of_locals ha)
  · exact h.heap.not_freed ((h.leads_of_links hp).tail ((h.sits t).links _ _ hp))
  · exact ((h.sits t).retired a ha).2.1

/-! ## Main results -/

/-- The nodes reached from `head` have growing keys, and the last one is `tail`. -/
def State.Sorted (s : State τ) : Prop :=
  (∀ a b, Leads s.heap.next head a → s.heap.next a = some b → s.heap.key a < s.heap.key b) ∧
    Leads s.heap.next head tail ∧ s.heap.next tail = none

/-- **The hand-over-hand list is a linearizable set.**  In every run with keys strictly between
those of the sentinels: whenever no thread is between the two stores of an insert the chain is
sorted and the set is that of the keys in it; every call has the effect and the result of the set
operation at one instant inside the call; and no thread touches a node after it was freed. -/
theorem hand_over_hand_set (e : (list τ).Trace KeyInRange) :
    (∀ k ≤ e.acts.length, (∀ t, ((e.state k).thread t).middle = none) →
      (e.state k).Sorted ∧
        (e.state k).keys = keySet (e.state k).heap.next (e.state k).heap.key head tail) ∧
    Linearizable intSet (interface τ) e ∧
    ∀ k ≤ e.acts.length, ∀ t, ∀ a ∈ ((e.state k).thread t).touches,
      (e.state k).heap.freed a = false := by
  refine ⟨fun k hk hquiet => ?_, .of_status tracks e, fun k hk t a ha => ?_⟩
  · have hchain := (inv_of_run (e.run hk)).heap.chain
    have hset := State.settled_of_quiet hquiet
    rw [hset] at hchain
    exact ⟨⟨fun a b _ hab => hchain.order a b hab, hchain.complete, hchain.last⟩,
      by rw [State.keys, hset]; rfl⟩
  · exact (inv_of_run (e.run hk)).touches_not_freed ha

/-- Thread `false` adds `5`, thread `true` removes it and frees the node. -/
def addRemove : List (Act Bool) :=
  Act.call false .add 5 ++ Act.call true .remove 5 ++ Act.go false 7 ++ Act.go true 3 ++
    Act.go false 2 ++ Act.go true 7

theorem hand_over_hand_set_add_remove :
    ∃ e : (list Bool).Trace KeyInRange, e.acts = addRemove ∧
      event (e.state 13) ⟨false, .go⟩ = some (.ret true) ∧
      event (e.state 20) ⟨true, .go⟩ = some (.ret true) ∧ (e.state 21).heap.freed 2 = true ∧
      (e.state 21).Sorted ∧ Linearizable intSet (interface Bool) e := by
  let e : (list Bool).Trace KeyInRange :=
    Machine.Trace.ofExec (M := list Bool) (s := State.start Bool) rfl addRemove (by decide +kernel)
  obtain ⟨hsorted, hlin, -⟩ := hand_over_hand_set e
  have hquiet : ∀ t, ((e.state 21).thread t).middle = none := by decide +kernel
  exact ⟨e, rfl, rfl, rfl, rfl, (hsorted 21 (by decide) hquiet).1, hlin⟩

/-- The node whose mutex a thread is about to lock. -/
def Pc.waitsFor : Pc → Option ℕ
  | .lockHead _ => some head
  | .lockCurr _ _ curr => some curr
  | _ => none

/-- **No thread follows a null pointer**, nor the pointer of a node that has not been stored yet:
inside a call every thread can make its next step, unless it waits for a mutex that is locked. -/
theorem step_isSome (hs : (list τ).Run KeyInRange s) (hpc : s.thread t ≠ .idle)
    (hfree : ∀ a, (s.thread t).waitsFor = some a → s.mutex a = false) :
    ((list τ).step s ⟨t, .go⟩).isSome = true := by
  have hinv := inv_of_run hs
  have hstep : (list τ).step s ⟨t, .go⟩ = go s t (s.thread t) := by
    simp only [list, step]
  rw [hstep]
  cases hth : s.thread t <;> rw [hth] at hfree <;> simp only [FineGrained.go]
  case idle => exact absurd hth hpc
  case lockHead c => simp [hfree head rfl]
  case read c prev =>
    have hprev : prev ∈ (s.thread t).locals := by simp [hth, Pc.locals]
    have hfits := (hinv.sits t).fits
    rw [hth] at hfits
    obtain ⟨b, hb⟩ := hinv.heap.next_isSome (hinv.leads_of_locals hprev)
      (hfits.2.trans hfits.1.2)
    simp [(hinv.next_eq hprev).symm.trans hb]
  case lockCurr c prev curr => simp [hfree curr rfl]
  case test c prev curr => split_ifs <;> rfl
  all_goals rfl

end Multicore.Lab11.FineGrained
