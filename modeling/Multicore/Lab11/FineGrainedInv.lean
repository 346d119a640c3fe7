import Multicore.Lab11.HandOverHand

/-!
# Every move keeps the invariant

Most moves of the hand-over-hand list do not change the settled heap: they change the program
counter and perhaps one mutex (`Inv.setPc`, `Inv.lock`, `Inv.unlock`).  What remains:

* `Inv.malloc` — a call of `list_add` allocates its node;
* `Inv.link` — `prev->next = node` puts the node into the settled chain, with `curr` behind it;
* `Inv.setNext` — `node->next = curr` makes true what was settled already;
* `Inv.unlink` — `prev->next = curr->next` takes `curr` out of the chain, and from then on nobody
  else has its address;
* `Inv.free` — the node that is freed is not in the chain.

**`inv_of_run`** collects them.
-/

namespace Multicore.Lab11.FineGrained

variable {τ : Type*} {s s' : State τ} {t u : τ}

/-! ## Steps that leave the settled heap alone -/

/-- What a thread has to see to when it moves on to `pc`: where its addresses come from, that it
allocates and unlinks nothing, and what it relies on there. -/
structure Goes (s : State τ) (t : τ) (pc : Pc) : Prop where
  fits : pc.Fits s.heap.key
  reads : ∀ a ∈ pc.locals, a ∈ (s.thread t).locals ∨ a = head ∨
    ∃ p ∈ (s.thread t).held, (s.thread t).retired ≠ some p ∧ s.settled.next p = some a
  live : ∀ a ∈ pc.held, pc.retired ≠ some a → Leads s.settled.next head a
  links : ∀ p o, (p, o) ∈ pc.links → s.settled.next p = o
  own : ∀ a k, pc.owned = some (a, k) → (s.thread t).owned = some (a, k)
  retired : ∀ a, pc.retired = some a → (s.thread t).retired = some a
  middle : pc.middle = none

/-- The thread goes on with what it has. -/
lemma Goes.same {pc : Pc} (h : Sits s.settled (s.thread t)) (fits : pc.Fits s.heap.key)
    (hlocals : ∀ a ∈ pc.locals, a ∈ (s.thread t).locals)
    (hheld : ∀ a ∈ pc.held, a ∈ (s.thread t).held)
    (hlinks : ∀ l ∈ pc.links, l ∈ (s.thread t).links)
    (own : ∀ a k, pc.owned = some (a, k) → (s.thread t).owned = some (a, k))
    (hretired : pc.retired = (s.thread t).retired) (middle : pc.middle = none) : Goes s t pc :=
  ⟨fits, fun a ha => .inl (hlocals a ha), fun a ha hr => h.live a (hheld a ha) (hretired ▸ hr),
    fun p o hp => h.links p o (hlinks _ hp), own, fun _ ha => hretired ▸ ha, middle⟩

section Goes

variable (h : Inv s) {pc : Pc} {a : ℕ} (hg : Goes s t pc)

include h hg

lemma Inv.sits_of_goes : Sits s.settled pc :=
  ⟨hg.fits, hg.live, hg.links, fun a k ho => (h.sits t).own a k (hg.own a k ho),
    fun a ha => (h.sits t).retired a (hg.retired a ha)⟩

/-- The addresses of the thread are those of nodes in the chain. -/
lemma Inv.leads_of_goes (ha : a ∈ pc.locals) : Leads s.settled.next head a := by
  rcases hg.reads a ha with ha | rfl | ⟨p, hp, hr, hpa⟩
  · exact h.leads_of_locals ha
  · exact .refl head
  · exact ((h.sits t).live p hp hr).tail hpa

/-- A thread that reads addresses from locked nodes leaves the nodes out of reach alone. -/
lemma Inv.owns_of_goes : (∀ a, pc.Owns a → a ∉ pc.locals ∧ (s.thread t).Owns a) ∧
    ∀ a ∈ pc.locals, a ∈ (s.thread t).locals ∨ ∀ u, u ≠ t → ¬ (s.thread u).Owns a := by
  refine ⟨?_, fun a ha => (hg.reads a ha).imp_right fun hread u hu => ?_⟩
  · rintro a (⟨k, ho⟩ | ⟨b, hb⟩ | hr)
    · exact ⟨fun ha => (h.sits_of_goes hg).not_leads_of_owned ho (h.leads_of_goes hg ha),
        .inl ⟨k, hg.own a k ho⟩⟩
    · simp [hg.middle] at hb
    · exact ⟨fun ha => ((h.sits_of_goes hg).retired a hr).2.2 (h.leads_of_goes hg ha),
        .inr (.inr (hg.retired a hr))⟩
  · rcases hread with rfl | ⟨p, hp, hr, hpa⟩
    · exact h.not_owns_head
    · exact h.not_owns_of_link hu hp ((h.sits t).live p hp hr) hpa

end Goes

variable [DecidableEq τ]

/-- What every thread relies on after a step of thread `t`. -/
lemma sits_update {v : Heap} {thread : τ → Pc} {pc : Pc} (hother : ∀ u, u ≠ t → Sits v (thread u))
    (hsits : Sits v pc) (u : τ) : Sits v (Function.update thread t pc u) := by
  rw [Function.update_apply]
  split_ifs with hu
  · exact hsits
  · exact hother u hu

/-- Thread `t` moves on to `pc`, and `v` is the settled heap afterwards. -/
lemma inv_of_settled {v heap : Heap} {pc : Pc} {mutex : ℕ → Bool}
    (hset : State.settled ⟨heap, mutex, Function.update s.thread t pc⟩ = v) (hok : v.Ok)
    (hother : ∀ u, u ≠ t → Sits v (s.thread u)) (hsits : Sits v pc)
    (hcross : Ownership (fun pc a => a ∈ pc.held) (fun pc a => a ∈ pc.locals) Pc.Owns mutex
      (Function.update s.thread t pc)) :
    Inv ⟨heap, mutex, Function.update s.thread t pc⟩ :=
  ⟨hset ▸ hok, fun u => hset ▸ sits_update hother hsits u, hcross⟩

/-- A thread moves, and is between the two stores of an insert neither before nor after. -/
lemma settled_update {heap : Heap} {pc : Pc} {mutex : ℕ → Bool} (hold : (s.thread t).middle = none)
    (hnew : pc.middle = none) :
    State.settled ⟨heap, mutex, Function.update s.thread t pc⟩
      = { heap with next := settle heap.next s.thread } := by
  rw [State.settled, settle_update hold hnew]

section Moves

variable (h : Inv s) {pc : Pc} {a : ℕ} (hg : Goes s t pc) (hm : (s.thread t).middle = none)

include h hg hm

/-- The thread moves and no mutex changes. -/
lemma Inv.setPc (hheld : ∀ a ∈ pc.held, a ∈ (s.thread t).held) : Inv (s.setPc t pc) :=
  inv_of_settled (settled_update hm hg.middle) h.heap (fun u _ => h.sits u) (h.sits_of_goes hg)
    (h.cross.keep hheld (h.owns_of_goes hg).1 (h.owns_of_goes hg).2)

/-- The thread locks a mutex. -/
lemma Inv.lock (hfree : s.mutex a = false)
    (hheld : ∀ b ∈ pc.held, b = a ∨ b ∈ (s.thread t).held) :
    Inv ((s.setMutex a true).setPc t pc) :=
  inv_of_settled (settled_update hm hg.middle) h.heap (fun u _ => h.sits u) (h.sits_of_goes hg)
    (h.cross.lock hfree hheld (h.owns_of_goes hg).1 (h.owns_of_goes hg).2)

/-- The thread unlocks a mutex it holds. -/
lemma Inv.unlock (ha : a ∈ (s.thread t).held)
    (hheld : ∀ b ∈ pc.held, b ≠ a ∧ b ∈ (s.thread t).held) :
    Inv ((s.setMutex a false).setPc t pc) :=
  inv_of_settled (settled_update hm hg.middle) h.heap (fun u _ => h.sits u) (h.sits_of_goes hg)
    (h.cross.unlock ha hheld (h.owns_of_goes hg).1 (h.owns_of_goes hg).2)

end Moves

/-! ## The two stores of an insert -/

/-- What a thread relies on after a store that it does not notice. -/
lemma Sits.store {v : Heap} {pc : Pc} {next : ℕ → Option ℕ} (h : Sits v pc)
    (hlive : ∀ a ∈ pc.held, Leads v.next head a → Leads next head a ∧ next a = v.next a)
    (hown : ∀ a k, pc.owned = some (a, k) → ∀ b, next b ≠ some a)
    (hretired : ∀ a, pc.retired = some a → ¬ Leads next head a) :
    Sits { v with next := next } pc := by
  refine ⟨h.fits, fun a ha hr => (hlive a ha (h.live a ha hr)).1, fun p o hp => ?_,
    fun a k ho => ?_, fun a ha => ?_⟩
  · obtain ⟨hheld, hr⟩ := Pc.held_of_links hp
    exact (hlive p hheld (h.live p hheld (by simp [hr]))).2.trans (h.links p o hp)
  · obtain ⟨htwo, hlt, hkey, hfree, -⟩ := h.own a k ho
    exact ⟨htwo, hlt, hkey, hfree, hown a k ho⟩
  · obtain ⟨hlt, hfree, -⟩ := h.retired a ha
    exact ⟨hlt, hfree, hretired a ha⟩

section Link

omit [DecidableEq τ]

variable {c : Args} {prev curr : ℕ}

/-- What is known when `list_add` is about to link its node. -/
lemma Inv.gap (h : Inv s) (hpc : s.thread t = .link c prev curr) :
    Gap s.settled.next s.settled.key head prev c.node curr ∧
      (s.thread t).owned = some (c.node, c.key) := by
  have hsits := h.sits t
  rw [hpc] at hsits ⊢
  obtain ⟨-, hprev, hcurr, hop⟩ := hsits.fits
  have hown : (Pc.link c prev curr).owned = some (c.node, c.key) := by simp [Pc.owned, hop]
  obtain ⟨-, -, hkey, -, hno⟩ := hsits.own _ _ hown
  exact ⟨⟨hsits.live prev (by simp [Pc.held]) (by simp [Pc.retired]),
    hsits.links prev (some curr) (by simp [Pc.links]), hno, hsits.not_leads_of_owned hown,
    hkey ▸ hprev, hkey ▸ hcurr⟩, hown⟩

lemma Heap.Ok.link {v : Heap} {node : ℕ} (h : v.Ok)
    (hg : Gap v.next v.key head prev node curr) (hlt : node < v.alloc)
    (hfree : v.freed node = false) : Heap.Ok { v with next := link v.next prev node curr } := by
  have hprev : prev < v.alloc := h.lt_alloc hg.reach
  refine ⟨hg.chain h.chain, h.keyHead, h.keyTail, h.two, fun a ha => ?_, fun a b hab => ?_,
    fun a ha hl => ?_⟩
  · have hnext : Multicore.link v.next prev node curr a = v.next a :=
      link_of_ne (hprev.trans_le ha).ne' (hlt.trans_le ha).ne'
    exact ⟨hnext.trans (h.fresh a ha).1, (h.fresh a ha).2⟩
  · rcases link_eq_some hab with rfl | rfl | hab
    · exact hlt
    · exact h.target _ _ hg.adjacent
    · exact h.target a b hab
  · rcases hg.leads_iff.mp hl with hl | rfl
    · exact h.dead a ha hl
    · exact absurd ha (by rw [hfree]; exact Bool.false_ne_true)

variable [DecidableEq τ]

/-- After the first store the settled heap has the node behind `prev` and `curr` behind the node. -/
lemma Inv.settled_link (h : Inv s) (hpc : s.thread t = .link c prev curr) {mutex : ℕ → Bool} :
    State.settled ⟨s.heap.setNext prev (some c.node), mutex,
        Function.update s.thread t (.setNext c prev curr)⟩
      = { s.settled with next := Multicore.link s.settled.next prev c.node curr } := by
  obtain ⟨hgap, hown⟩ := h.gap hpc
  have hlocal : prev ∈ (s.thread t).locals := by simp [hpc, Pc.locals]
  have hset : settle (s.heap.setNext prev (some c.node)).next
      (Function.update s.thread t (.setNext c prev curr))
      = Multicore.link s.settled.next prev c.node curr := by
    funext a
    by_cases hp : a = prev
    · subst hp
      rw [settle_of_not, link_self]
      · exact Function.update_self _ _ _
      intro b hb
      rcases missing_update.mp hb with hb | ⟨u, -, hb⟩
      · have hnode : c.node = a ∧ curr = b := by simpa [Pc.middle] using hb
        exact hgap.ne hnode.1.symm
      · exact h.cross.apart u t a (.inr (.inl ⟨b, hb⟩)) hlocal
    by_cases hn : a = c.node
    · subst hn
      rw [settle_of_missing (b := curr), link_node hp]
      · exact missing_update.mpr (.inl rfl)
      intro b hb
      rcases missing_update.mp hb with hb | ⟨u, hu, hb⟩
      · simpa [Pc.middle, eq_comm] using hb
      · exact (hu (h.cross.distinct u t _ (.inr (.inl ⟨b, hb⟩)) (.inl ⟨_, hown⟩))).elim
    · rw [link_of_ne hp hn]
      refine settle_congr (fun b => missing_update_iff (by simp [hpc, Pc.middle]) ?_)
        (Function.update_of_ne hp _ _)
      simpa [Pc.middle] using fun he => absurd he.symm hn
  rw [State.settled, hset]
  rfl

/-- `prev->next = node`: the node joins the chain. -/
lemma Inv.link (h : Inv s) (hpc : s.thread t = .link c prev curr) :
    Inv ((s.setHeap (s.heap.setNext prev (some c.node))).setPc t (.setNext c prev curr)) := by
  obtain ⟨hgap, ho⟩ := h.gap hpc
  have hown : (s.thread t).Owns c.node := .inl ⟨_, ho⟩
  obtain ⟨-, hlt, -, hfree, -⟩ := (h.sits t).own _ _ ho
  have hheld : prev ∈ (s.thread t).held := by simp [hpc, Pc.held]
  have hlocal : curr ∈ (s.thread t).locals := by simp [hpc, Pc.locals]
  have hsits := h.sits t
  rw [hpc] at hsits
  refine inv_of_settled (h.settled_link hpc) (h.heap.link hgap hlt hfree) (fun u hu => ?_) ?_ ?_
  · refine (h.sits u).store (fun a ha hreach => ⟨hgap.leads_iff.mpr (.inl hreach), ?_⟩)
      (fun a k ho b hb => ?_) fun a ha hlead => ?_
    · refine link_of_ne (fun he => ?_) fun he => hgap.not_reach (he ▸ hreach)
      exact h.cross.excl u t a hu ha (he ▸ hheld)
    · have howns : (s.thread u).Owns a := .inl ⟨k, ho⟩
      rcases link_eq_some hb with rfl | rfl | hb
      · exact hu (h.cross.distinct u t _ howns hown)
      · exact h.cross.apart u t _ howns hlocal
      · exact ((h.sits u).own a k ho).2.2.2.2 b hb
    · rcases hgap.leads_iff.mp hlead with hlead | rfl
      · exact ((h.sits u).retired a ha).2.2 hlead
      · exact hu (h.cross.distinct u t _ (.inr (.inr ha)) hown)
  · refine ⟨⟨hgap.left.trans hgap.right, hsits.fits.2.2.2⟩, fun a ha hr => ?_, fun p o hp => ?_,
      by simp [Pc.owned], by simp [Pc.retired]⟩
    · exact hgap.leads_iff.mpr (.inl (hsits.live a ha (by simp [Pc.retired])))
    · obtain ⟨rfl, rfl⟩ : p = prev ∧ o = some c.node := by simpa [Pc.links] using hp
      exact link_self
  · refine h.cross.keep (by simp [hpc, Pc.held]) ?_ (by simp [hpc, Pc.locals])
    rintro a (⟨k, ho⟩ | ⟨b, hb⟩ | hr)
    · simp [Pc.owned] at ho
    · obtain ⟨rfl, -⟩ : c.node = a ∧ curr = b := by simpa [Pc.middle] using hb
      exact ⟨by simpa [Pc.locals] using ⟨hgap.ne.symm, hgap.right_ne.symm⟩, hown⟩
    · simp [Pc.retired] at hr

/-- `node->next = curr` changes nothing in the settled heap. -/
lemma Inv.settled_setNext (h : Inv s) (hpc : s.thread t = .setNext c prev curr) {b : Bool}
    {mutex : ℕ → Bool} :
    State.settled ⟨s.heap.setNext c.node (some curr), mutex,
      Function.update s.thread t (.unlockPrev c prev curr b)⟩ = s.settled := by
  have hmiddle : (s.thread t).middle = some (c.node, curr) := by simp [hpc, Pc.middle]
  have hset : settle (s.heap.setNext c.node (some curr)).next
      (Function.update s.thread t (.unlockPrev c prev curr b)) = settle s.heap.next s.thread := by
    funext a
    by_cases hn : a = c.node
    · subst hn
      rw [settle_of_missing ⟨t, hmiddle⟩ fun b' => h.missing_unique hmiddle, settle_of_not]
      · exact Function.update_self _ _ _
      · intro b' hb
        rcases missing_update.mp hb with hb | ⟨u, hu, hb⟩
        · simp [Pc.middle] at hb
        · exact hu (h.cross.distinct u t _ (.inr (.inl ⟨b', hb⟩)) (.inr (.inl ⟨curr, hmiddle⟩)))
    · refine settle_congr (fun b' => missing_update_iff ?_ (by simp [Pc.middle]))
        (Function.update_of_ne hn _ _)
      rw [hmiddle]
      simpa using fun he => absurd he.symm hn
  rw [State.settled, hset]
  rfl

/-- `node->next = curr`: the insert is complete. -/
lemma Inv.setNext (h : Inv s) (hpc : s.thread t = .setNext c prev curr) :
    Inv ((s.setHeap (s.heap.setNext c.node (some curr))).setPc t
      (.unlockPrev c prev curr true)) := by
  have hsits := h.sits t
  have hfits := hsits.fits
  rw [hpc] at hfits
  obtain ⟨hlt, hop⟩ := hfits
  have hrem : ¬ Removed c true := fun hr => by simp [hr.1] at hop
  have hg : Goes s t (.unlockPrev c prev curr true) :=
    .same hsits hlt (by simp [hpc, Pc.locals, hrem]) (by simp [hpc, Pc.held]) (by simp [Pc.links])
      (by simp [Pc.owned]) (by simp [hpc, Pc.retired, hrem]) rfl
  exact inv_of_settled (h.settled_setNext hpc) h.heap (fun u _ => h.sits u) (h.sits_of_goes hg)
    (h.cross.keep (by simp [hpc, Pc.held]) (h.owns_of_goes hg).1 (h.owns_of_goes hg).2)

end Link

/-! ## Unlinking and freeing -/

section Unlink

variable {c : Args} {prev curr : ℕ} {next : Option ℕ}

lemma Inv.settled_unlink (h : Inv s) (hpc : s.thread t = .unlink c prev curr next) {b : Bool}
    {mutex : ℕ → Bool} :
    State.settled ⟨s.heap.setNext prev next, mutex,
      Function.update s.thread t (.unlockPrev c prev curr b)⟩ = s.settled.setNext prev next := by
  have hlocal : prev ∈ (s.thread t).locals := by simp [hpc, Pc.locals]
  rw [settled_update (by simp [hpc, Pc.middle]) rfl]
  have hset : settle (s.heap.setNext prev next).next s.thread
      = Function.update s.settled.next prev next := by
    funext a
    by_cases hp : a = prev
    · subst hp
      rw [settle_of_not, Function.update_self]
      · exact Function.update_self _ _ _
      · rintro b ⟨u, hu⟩
        exact h.cross.apart u t _ (.inr (.inl ⟨b, hu⟩)) hlocal
    · rw [Function.update_of_ne hp]
      exact settle_congr (fun _ => Iff.rfl) (Function.update_of_ne hp _ _)
  rw [hset]
  rfl

/-- `prev->next = curr->next`: `curr` leaves the chain, and is out of everybody's reach. -/
lemma Inv.unlink (h : Inv s) (hpc : s.thread t = .unlink c prev curr next) :
    Inv ((s.setHeap (s.heap.setNext prev next)).setPc t (.unlockPrev c prev curr true)) := by
  obtain ⟨hcn, n, rfl⟩ := h.unlink_next hpc
  have hsits := h.sits t
  rw [hpc] at hsits
  obtain ⟨hrange, hprev, hcurr, hop⟩ := hsits.fits
  have hrem : Removed c true := ⟨hop, rfl⟩
  have hpn : s.settled.next prev = some curr := hsits.links prev (some curr) (by simp [Pc.links])
  have hreach : Leads s.settled.next head prev :=
    hsits.live prev (by simp [Pc.held]) (by simp [Pc.retired])
  have hheld : prev ∈ (s.thread t).held ∧ curr ∈ (s.thread t).held := by simp [hpc, Pc.held]
  have hne : curr ≠ prev := by
    rintro rfl
    exact absurd hprev hcurr.ge.not_gt
  have hlive : s.settled.freed curr = false := h.heap.not_freed (hreach.tail hpn)
  have hpaths : ∀ {a}, a ≠ curr → (Leads (s.settled.setNext prev (some n)).next head a ↔
      Leads s.settled.next head a) := fun ha => SortedChain.leads_delete hpn hcn hne ha
  have hgone : ¬ Leads (s.settled.setNext prev (some n)).next head curr :=
    h.heap.chain.not_leads_delete hreach hpn hcn
  -- no path is new: `curr` is not reached any more, and the others were reached before
  have hback : ∀ {a}, Leads (s.settled.setNext prev (some n)).next head a →
      Leads s.settled.next head a := fun {a} ha =>
    (hpaths fun he => hgone (he ▸ ha)).mp ha
  refine inv_of_settled (h.settled_unlink hpc) ?_ (fun u hu => ?_) ?_ ?_
  · refine ⟨h.heap.chain.delete hpn hcn, h.heap.keyHead, h.heap.keyTail, h.heap.two, fun a ha => ?_,
      fun a b hab => ?_, fun a ha hl => h.heap.dead a ha (hback hl)⟩
    · have hap : a ≠ prev := ((h.heap.lt_alloc hreach).trans_le ha).ne'
      exact ⟨(Function.update_of_ne hap _ _).trans (h.heap.fresh a ha).1, (h.heap.fresh a ha).2⟩
    · simp only [Heap.setNext, Function.update_apply] at hab
      split_ifs at hab
      · obtain rfl := Option.some.inj hab
        exact h.heap.target _ _ hcn
      · exact h.heap.target a b hab
  · refine (h.sits u).store (fun a ha hl => ⟨(hpaths ?_).mpr hl, Function.update_of_ne ?_ _ _⟩)
      (fun a k ho b hb => ?_) fun a ha hl => ((h.sits u).retired a ha).2.2 (hback hl)
    · rintro rfl
      exact h.cross.excl u t a hu ha hheld.2
    · rintro rfl
      exact h.cross.excl u t a hu ha hheld.1
    · have hno := ((h.sits u).own a k ho).2.2.2.2
      rw [Function.update_apply] at hb
      split_ifs at hb
      · exact hno curr (hcn.trans hb)
      · exact hno b hb
  · have hlt : s.settled.key prev < s.settled.key curr := hcurr ▸ hprev
    refine ⟨hlt, fun a ha hr => ?_, by simp [Pc.links], by simp [Pc.owned], fun a ha => ?_⟩
    · have hac : a ≠ curr := by simpa [Pc.retired, hrem, eq_comm] using hr
      exact (hpaths hac).mpr (hsits.live a ha (by simp [Pc.retired]))
    · obtain rfl : curr = a := by simpa [Pc.retired, hrem] using ha
      exact ⟨h.heap.lt_alloc (hreach.tail hpn), hlive, hgone⟩
  · refine h.cross.update (fun a ha => h.cross.locked t a (by simpa [hpc, Pc.held] using ha))
      (fun a ha u hu => h.cross.excl t u a hu.symm (by simpa [hpc, Pc.held] using ha))
      (fun u _ => h.cross.locked u) ?_ (fun a ha => .inl ?_)
    · rintro a (⟨k, ho⟩ | ⟨b, hb⟩ | hr)
      · simp [Pc.owned] at ho
      · simp [Pc.middle] at hb
      · obtain rfl : curr = a := by simpa [Pc.retired, hrem] using hr
        exact ⟨by simpa [Pc.locals, hrem] using hne, .inr fun u hu =>
          ⟨h.not_knows_of_link hu hheld.1 hheld.2 hreach hpn,
            h.not_owns_of_link hu hheld.1 hreach hpn⟩⟩
    · obtain rfl : a = prev := by simpa [Pc.locals, hrem] using ha
      simp [hpc, Pc.locals]

/-- `free(curr)`: the node is not in the chain, and nobody else has its address. -/
lemma Inv.free (h : Inv s) (hpc : s.thread t = .free curr) :
    Inv ((s.setHeap (s.heap.free curr)).setPc t (.ret true)) := by
  have hret : (s.thread t).retired = some curr := by simp [hpc, Pc.retired]
  obtain ⟨hlt, hfree, hgone⟩ := (h.sits t).retired curr hret
  have hother : ∀ u, u ≠ t → ∀ a, (s.thread u).Owns a → (s.settled.free curr).freed a
      = s.settled.freed a := by
    intro u hu a ho
    refine Function.update_of_ne ?_ _ _
    rintro rfl
    exact hu (h.cross.distinct u t a ho (.inr (.inr hret)))
  refine inv_of_settled (v := s.settled.free curr) ?_ ?_ (fun u hu => ?_) ?_ ?_
  · have hmid : (s.thread t).middle = none := by rw [hpc]; rfl
    exact settled_update hmid rfl
  · refine ⟨h.heap.chain, h.heap.keyHead, h.heap.keyTail, h.heap.two, fun a ha => ?_, h.heap.target,
      fun a ha => ?_⟩
    · exact ⟨(h.heap.fresh a ha).1,
        (Function.update_of_ne (hlt.trans_le ha).ne' _ _).trans (h.heap.fresh a ha).2⟩
    · by_cases hac : a = curr
      · exact hac ▸ hgone
      · exact h.heap.dead a ((Function.update_of_ne hac _ _).symm.trans ha)
  · have hsits := h.sits u
    refine ⟨hsits.fits, hsits.live, hsits.links, fun a k ho => ?_, fun a ha => ?_⟩
    · obtain ⟨htwo, hlt, hkey, hf, hno⟩ := hsits.own a k ho
      exact ⟨htwo, hlt, hkey, (hother u hu a (.inl ⟨k, ho⟩)).trans hf, hno⟩
    · obtain ⟨hlt, hf, hl⟩ := hsits.retired a ha
      exact ⟨hlt, (hother u hu a (.inr (.inr ha))).trans hf, hl⟩
  · constructor <;> simp [Pc.Fits, Pc.held, Pc.links, Pc.owned, Pc.retired]
  · refine h.cross.keep (by simp [Pc.held]) ?_ (by simp [Pc.locals])
    rintro a (⟨k, ho⟩ | ⟨b, hb⟩ | hr)
    · simp [Pc.owned] at ho
    · simp [Pc.middle] at hb
    · simp [Pc.retired] at hr

end Unlink

/-! ## Calls -/

section Malloc

variable {key : ℤ}

lemma malloc_key {v : Heap} {a : ℕ} (ha : a < v.alloc) : (v.malloc key).key a = v.key a :=
  Function.update_of_ne ha.ne _ _

lemma Heap.Ok.malloc {v : Heap} (h : v.Ok) :
    Heap.Ok { v.malloc key with next := v.next } := by
  have hzero : head < v.alloc := lt_of_lt_of_le (by decide) h.two
  have hone : tail < v.alloc := lt_of_lt_of_le (by decide) h.two
  refine ⟨⟨fun a b hab => ?_, h.chain.complete, h.chain.last⟩, (malloc_key hzero).trans h.keyHead,
    (malloc_key hone).trans h.keyTail, h.two.trans (Nat.le_succ _),
    fun a ha => h.fresh a (Nat.le_of_succ_le ha),
    fun a b hab => (h.target a b hab).trans v.alloc.lt_succ_self, h.dead⟩
  have ha : a < v.alloc := by
    by_contra ha
    simp [(h.fresh a (not_lt.mp ha)).1] at hab
  show (v.malloc key).key a < (v.malloc key).key b
  rw [malloc_key ha, malloc_key (h.target a b hab)]
  exact h.chain.order a b hab

omit [DecidableEq τ]

/-- Every node a thread has to do with has been allocated. -/
lemma Inv.lt_alloc (h : Inv s) {a : ℕ}
    (ha : a ∈ (s.thread u).held ∨ a ∈ (s.thread u).locals ∨ (s.thread u).Owns a) :
    a < s.heap.alloc := by
  rcases ha with ha | ha | ⟨k, ho⟩ | ⟨b, hb⟩ | hr
  · by_cases hr : (s.thread u).retired = some a
    · exact ((h.sits u).retired a hr).1
    · exact h.heap.lt_alloc ((h.sits u).live a ha hr)
  · exact h.heap.lt_alloc (h.leads_of_locals ha)
  · exact ((h.sits u).own a k ho).2.1
  · obtain ⟨p, hp⟩ := Pc.links_of_middle hb
    exact h.heap.target p a ((h.sits u).links _ _ hp)
  · exact ((h.sits u).retired a hr).1

/-- Nobody relies on the contents of an address that has not been returned yet. -/
lemma Inv.malloc_sits (h : Inv s) (u : τ) :
    Sits { s.settled.malloc key with next := s.settled.next } (s.thread u) := by
  have hsits := h.sits u
  refine ⟨hsits.fits.congr fun a ha => malloc_key (h.lt_alloc (ha.imp_right .inl)), hsits.live,
    hsits.links, fun a k ho => ?_, fun a ha => ?_⟩
  · obtain ⟨htwo, hlt, hkey, hfree, hno⟩ := hsits.own a k ho
    exact ⟨htwo, hlt.trans (Nat.lt_succ_self _), (malloc_key hlt).trans hkey, hfree, hno⟩
  · obtain ⟨hlt, hfree, hgone⟩ := hsits.retired a ha
    exact ⟨hlt.trans (Nat.lt_succ_self _), hfree, hgone⟩

/-- The new node is not between the two stores of an insert, and has no pointer. -/
lemma Inv.settle_malloc (h : Inv s) :
    settle (s.heap.malloc key).next s.thread = s.settled.next := by
  funext a
  by_cases ha : a = s.heap.alloc
  · subst ha
    rw [settle_of_not, (h.heap.fresh s.heap.alloc le_rfl).1]
    · exact Function.update_self _ _ _
    · rintro b ⟨u, hu⟩
      exact absurd (h.lt_alloc (.inr (.inr (.inr (.inl ⟨b, hu⟩))))) (lt_irrefl _)
  · exact settle_congr (fun _ => Iff.rfl) (Function.update_of_ne ha _ _)

variable [DecidableEq τ]

/-- A call of `list_add` begins. -/
lemma Inv.malloc (h : Inv s) (hidle : s.thread t = .idle) (hr : InRange key) :
    Inv (s.begin t .add key) := by
  have hown : ∀ {a k}, (Pc.lockHead ⟨⟨.add, key⟩, s.heap.alloc⟩).owned = some (a, k) →
      s.heap.alloc = a ∧ key = k := by
    intro a k ho
    simpa [Pc.owned] using ho
  refine inv_of_settled (v := { s.settled.malloc key with next := s.settled.next }) ?_
    h.heap.malloc (fun u _ => h.malloc_sits u) ?_ ?_
  · have hmid : (s.thread t).middle = none := by rw [hidle]; rfl
    refine (settled_update hmid rfl).trans ?_
    show { s.heap.malloc key with next := settle (s.heap.malloc key).next s.thread } = _
    rw [h.settle_malloc]
    rfl
  · refine ⟨hr, by simp [Pc.held], by simp [Pc.links], fun a k ho => ?_, by simp [Pc.retired]⟩
    obtain ⟨rfl, rfl⟩ := hown ho
    exact ⟨h.heap.two, Nat.lt_succ_self _, Function.update_self _ _ _,
      (h.heap.fresh s.heap.alloc le_rfl).2, fun b hb => absurd (h.heap.target b _ hb) (lt_irrefl _)⟩
  · refine h.cross.update (by simp [Pc.held]) (by simp [Pc.held]) (fun u _ a ha => ?_) ?_
      (by simp [Pc.locals])
    · exact (Function.update_of_ne (h.lt_alloc (.inl ha)).ne _ _).trans (h.cross.locked u a ha)
    · rintro a (⟨k, ho⟩ | ⟨b, hb⟩ | hr)
      · obtain ⟨rfl, rfl⟩ := hown ho
        exact ⟨by simp [Pc.locals], .inr fun u _ =>
          ⟨fun ha => absurd (h.lt_alloc (.inr (.inl ha))) (lt_irrefl _),
            fun ha => absurd (h.lt_alloc (.inr (.inr ha))) (lt_irrefl _)⟩⟩
      · simp [Pc.middle] at hb
      · simp [Pc.retired] at hr

end Malloc

/-! ## Every move -/

/-- What follows the walk. -/
lemma Inv.arrive (h : Inv s) {c : Args} {prev curr : ℕ} (hpc : s.thread t = .test c prev curr)
    (hcurr : c.key ≤ s.heap.key curr) :
    Inv (s.setPc t (decided c prev curr (s.heap.key curr))) := by
  have hsits := h.sits t
  have hmid : (s.thread t).middle = none := by rw [hpc]; rfl
  have hfits := hsits.fits
  rw [hpc] at hfits
  obtain ⟨hr, hprev⟩ := hfits
  have hret : ∀ b, ¬ Removed c b → Inv (s.setPc t (.unlockPrev c prev curr b)) := fun b hb =>
    h.setPc (.same hsits (hprev.trans_le hcurr) (by simp [hpc, Pc.locals, hb])
      (by simp [hpc, Pc.held]) (by simp [Pc.links]) (by simp [Pc.owned])
      (by simp [hpc, Pc.retired, hb]) rfl) hmid (by simp [hpc, Pc.held])
  unfold decided
  split
  · rename_i hop
    split_ifs with hk
    · exact hret false (by simp [Removed])
    · exact h.setPc (.same hsits ⟨hr, hprev, lt_of_le_of_ne hcurr (Ne.symm hk), hop⟩
        (by simp [hpc, Pc.locals]) (by simp [hpc, Pc.held]) (by simp [hpc, Pc.links])
        (by simp [hpc, Pc.owned]) (by simp [hpc, Pc.retired]) rfl) hmid (by simp [hpc, Pc.held])
  · rename_i hop
    split_ifs with hk
    · exact hret false (by simp [Removed])
    · exact h.setPc (.same hsits ⟨hr, hprev, not_not.mp hk, hop⟩
        (by simp [hpc, Pc.locals]) (by simp [hpc, Pc.held]) (by simp [hpc, Pc.links])
        (by simp [Pc.owned]) (by simp [hpc, Pc.retired]) rfl) hmid (by simp [hpc, Pc.held])
  · rename_i hop
    exact hret _ (by simp [Removed, hop])

/-- **Every move keeps the invariant.** -/
theorem Inv.move (h : Inv s) {ev : Option (Event Call Bool)} (hm : Move s t ev s')
    (hr : ∀ op key, ev = some (.call ⟨op, key⟩) → InRange key) : Inv s' := by
  have hsits := h.sits t
  have hfits := hsits.fits
  cases hm
  case call op key hpc =>
    have hrange := hr op key rfl
    have start : ∀ op, op ≠ .add → Inv (s.setPc t (.lockHead ⟨⟨op, key⟩, 0⟩)) := fun op hop =>
      h.setPc (.same hsits hrange (by simp [Pc.locals]) (by simp [Pc.held]) (by simp [Pc.links])
        (by simp [Pc.owned, hop]) (by simp [hpc, Pc.retired]) rfl) (by rw [hpc]; rfl)
        (by simp [Pc.held])
    cases op with
    | add => exact h.malloc hpc hrange
    | remove => exact start .remove (by simp)
    | contains => exact start .contains (by simp)
  case setNext c prev curr hpc => exact h.setNext hpc
  all_goals
    have hmid : (s.thread t).middle = none := by rw [‹s.thread t = _›]; rfl
    rw [‹s.thread t = _›] at hfits
  case lockHead c hpc hm =>
    have hrange : InRange c.key := hfits
    refine h.lock ⟨⟨hrange, h.heap.keyHead ▸ hrange.1⟩, by simp [Pc.locals], fun a ha _ => ?_,
      by simp [Pc.links], by simp [hpc, Pc.owned], by simp [Pc.retired], rfl⟩ hmid hm
      (by simp [Pc.held])
    obtain rfl : a = head := by simpa [Pc.held] using ha
    exact .refl head
  case read c prev curr hpc hn =>
    have hprev : prev ∈ (s.thread t).locals := by simp [hpc, Pc.locals]
    have hnext : s.settled.next prev = some curr := (h.next_eq hprev).trans hn
    refine h.setPc ⟨hfits, fun a ha => ?_, fun a ha _ => ?_, fun p o hp => ?_,
      by simp [hpc, Pc.owned], by simp [Pc.retired], rfl⟩ hmid (by simp [hpc, Pc.held])
    · rcases (by simpa [Pc.locals] using ha : a = prev ∨ a = curr) with rfl | rfl
      · exact .inl hprev
      · exact .inr (.inr ⟨prev, by simp [hpc, Pc.held], by simp [hpc, Pc.retired], hnext⟩)
    · obtain rfl : a = prev := by simpa [Pc.held] using ha
      exact h.leads_of_locals hprev
    · obtain ⟨rfl, rfl⟩ : p = prev ∧ o = some curr := by simpa [Pc.links] using hp
      exact hnext
  case lockCurr c prev curr hpc hm =>
    refine h.lock ⟨hfits, by simp [hpc, Pc.locals], fun a ha _ => ?_, fun p o hp => ?_,
      by simp [hpc, Pc.owned], by simp [Pc.retired], rfl⟩ hmid hm (by simp [hpc, Pc.held])
    · exact h.leads_of_locals (t := t) (by simpa [hpc, Pc.locals, Pc.held] using ha)
    · exact hsits.links p o (by simpa [hpc, Pc.links] using hp)
  case pass c prev curr hpc hk =>
    exact h.setPc (.same hsits ⟨hfits.1, hk⟩ (by simp [hpc, Pc.locals]) (by simp [hpc, Pc.held])
      (by simp [hpc, Pc.links]) (by simp [hpc, Pc.owned]) (by simp [hpc, Pc.retired]) rfl) hmid
      (by simp [hpc, Pc.held])
  case arrive c prev curr hpc hk => exact h.arrive hpc hk
  case advance c prev curr hpc =>
    have hlt : s.heap.key prev < s.heap.key curr :=
      h.heap.chain.order _ _ (hsits.links prev (some curr) (by simp [hpc, Pc.links]))
    have hne : curr ≠ prev := by
      rintro rfl
      exact lt_irrefl _ hlt
    exact h.unlock (.same hsits hfits (by simp [hpc, Pc.locals]) (by simp [hpc, Pc.held])
      (by simp [Pc.links]) (by simp [hpc, Pc.owned]) (by simp [hpc, Pc.retired]) rfl) hmid
      (by simp [hpc, Pc.held]) (by simp [hpc, Pc.held, hne])
  case link c prev curr hpc => exact h.link hpc
  case getNext c prev curr hpc =>
    have hcurr : curr ∈ (s.thread t).locals := by simp [hpc, Pc.locals]
    have hnext : s.settled.next curr = s.heap.next curr := h.next_eq hcurr
    refine h.setPc ⟨hfits, fun a ha => ?_, fun a ha _ => ?_, fun p o hp => ?_, by simp [Pc.owned],
      by simp [Pc.retired], rfl⟩ hmid (by simp [hpc, Pc.held])
    · simp only [Pc.locals, List.mem_cons, Option.mem_toList] at ha
      rcases ha with rfl | rfl | ha
      · exact .inl (by simp [hpc, Pc.locals])
      · exact .inl hcurr
      · exact .inr (.inr ⟨curr, by simp [hpc, Pc.held], by simp [hpc, Pc.retired],
          hnext.trans ha⟩)
    · exact hsits.live a (by simpa [hpc, Pc.held] using ha) (by simp [hpc, Pc.retired])
    · simp only [Pc.links, List.mem_cons, Prod.mk.injEq, List.not_mem_nil, or_false] at hp
      rcases hp with ⟨rfl, rfl⟩ | ⟨rfl, rfl⟩
      · exact hsits.links p (some curr) (by simp [hpc, Pc.links])
      · exact hnext
  case unlink c prev curr next hpc => exact h.unlink hpc
  case unlockPrev c prev curr ret hpc =>
    have hlt : s.heap.key prev < s.heap.key curr := hfits
    have hne : curr ≠ prev := by
      rintro rfl
      exact lt_irrefl _ hlt
    refine h.unlock (.same hsits trivial ?_ (by simp [hpc, Pc.held]) (by simp [Pc.links])
      (by simp [Pc.owned]) (by simp [hpc, Pc.retired]) rfl) hmid (by simp [hpc, Pc.held])
      (by simp [hpc, Pc.held, hne])
    rw [hpc]
    by_cases hrem : Removed c ret <;> simp [Pc.locals, hrem]
  case unlockCurr c curr ret hpc =>
    have hgoes : Goes s t (leave c curr ret) := by
      unfold leave
      split_ifs with hrem
      · exact .same hsits trivial (by simp [Pc.locals]) (by simp [Pc.held]) (by simp [Pc.links])
          (by simp [Pc.owned]) (by simp [hpc, Pc.retired, hrem]) rfl
      · exact .same hsits trivial (by simp [Pc.locals]) (by simp [Pc.held]) (by simp [Pc.links])
          (by simp [Pc.owned]) (by simp [hpc, Pc.retired, hrem]) rfl
    refine h.unlock hgoes hmid (by simp [hpc, Pc.held]) ?_
    unfold leave
    split_ifs <;> simp [Pc.held]
  case free curr hpc => exact h.free hpc
  case ret b hpc =>
    exact h.setPc (.same hsits trivial (by simp [Pc.locals]) (by simp [Pc.held])
      (by simp [Pc.links])
      (by simp [Pc.owned]) (by simp [hpc, Pc.retired]) rfl) hmid (by simp [Pc.held])

/-- **In every state of every run** with keys in range the invariant holds. -/
theorem inv_of_run (hs : (list τ).Run KeyInRange s) : Inv s :=
  Machine.Run.invariant (I := Inv) (fun _ h => h ▸ inv_init)
    (fun _ _ _ _ hi hok hstep => hi.move (move_of_step hstep) fun _ _ => inRange_of_event hok) s hs

end Multicore.Lab11.FineGrained
