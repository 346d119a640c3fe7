import Multicore.Lab11.Validation

/-!
# Every move keeps the invariant

The moves of the optimistic list fall into five kinds.  Most of them change the program counter and
perhaps one mutex (`Inv.setPc`, `Inv.lock`, `Inv.unlock`); what remains are the allocation of a node
and the three stores:

* `Inv.setNext` — `node->next = curr` is noticed by nobody;
* `Inv.link` — `prev->next = node` puts the node into the chain;
* `Inv.unlink` — `prev->next = curr->next` takes `curr` out of it.

**`inv_of_run`** collects them.
-/

namespace Multicore.Lab11.Optimistic

variable {τ : Type*} [DecidableEq τ] {s s' : State τ} {t u : τ}

/-! ## Steps that leave the pointers alone -/

/-- What every thread relies on after a step of thread `t`. -/
lemma sits_update {thread : τ → Pc} {pc : Pc} (hother : ∀ u, u ≠ t → Sits s (thread u))
    (hsits : Sits s pc) (u : τ) : Sits s (Function.update thread t pc u) := by
  rw [Function.update_apply]
  split_ifs with hu
  · exact hsits
  · exact hother u hu

/-- A thread moves and the pointers stay. -/
lemma Inv.go (h : Inv s) {pc : Pc} {mutex : ℕ → Bool} (hsits : Sits s pc)
    (hcross : Ownership (fun pc a => a ∈ pc.held) (fun pc a => a ∈ pc.locals) Pc.Owns mutex
      (Function.update s.thread t pc)) :
    Inv { s with mutex := mutex, thread := Function.update s.thread t pc } :=
  ⟨h.chain, h.keyHead, h.keyTail, h.two, h.fresh, h.target,
    fun u => (sits_update (fun u _ => h.sits u) hsits u).congr rfl rfl rfl, hcross⟩

section Moves

variable (h : Inv s) {pc : Pc} {a : ℕ} (hg : Goes s t pc)

include h hg

/-- The thread moves and no mutex changes. -/
lemma Inv.setPc (hheld : ∀ a ∈ pc.held, a ∈ (s.thread t).held) : Inv (s.setPc t pc) :=
  h.go (h.sits_of_goes hg) (h.cross.keep hheld (h.owns_of_goes hg).1 (h.owns_of_goes hg).2)

/-- The thread locks a mutex. -/
lemma Inv.lock (hm : s.mutex a = false) (hheld : ∀ b ∈ pc.held, b = a ∨ b ∈ (s.thread t).held) :
    Inv ((s.setMutex a true).setPc t pc) :=
  h.go (h.sits_of_goes hg) (h.cross.lock hm hheld (h.owns_of_goes hg).1 (h.owns_of_goes hg).2)

/-- The thread unlocks a mutex it holds. -/
lemma Inv.unlock (ha : a ∈ (s.thread t).held)
    (hheld : ∀ b ∈ pc.held, b ≠ a ∧ b ∈ (s.thread t).held) :
    Inv ((s.setMutex a false).setPc t pc) :=
  h.go (h.sits_of_goes hg) (h.cross.unlock ha hheld (h.owns_of_goes hg).1 (h.owns_of_goes hg).2)

end Moves

/-! ## Steps that store a pointer -/

/-- Thread `t` stores a pointer to a linked node and moves on. -/
lemma Inv.store (h : Inv s) {pc : Pc} {a b : ℕ}
    (hchain : SortedChain (s.setNext a (some b)).next s.key head tail) (ha : a < s.alloc)
    (hb : b < s.alloc ∧ s.Linked b)
    (hother : ∀ u, u ≠ t → Sits (s.setNext a (some b)) (s.thread u))
    (hsits : Sits (s.setNext a (some b)) pc)
    (hheld : ∀ x ∈ pc.held, x ∈ (s.thread t).held)
    (hown : ∀ x k, pc.owned = some (x, k) → (s.thread t).owned = some (x, k))
    (hlocals : ∀ x ∈ pc.locals, x ∈ (s.thread t).locals) :
    Inv ((s.setNext a (some b)).setPc t pc) := by
  refine ⟨hchain, h.keyHead, h.keyTail, h.two, fun x hx => ?_, fun x y hxy => ?_, fun u => ?_, ?_⟩
  · exact (Function.update_of_ne (ha.trans_le hx).ne' _ _).trans (h.fresh x hx)
  · simp only [State.setPc, State.setNext, Function.update_apply] at hxy
    split_ifs at hxy
    · obtain rfl := Option.some.inj hxy
      exact ⟨hb.1, hb.2.setNext⟩
    · exact ⟨(h.target x y hxy).1, (h.target x y hxy).2.setNext⟩
  · exact (sits_update hother hsits u).congr rfl rfl rfl
  · refine h.cross.keep hheld (fun x ⟨k, ho⟩ => ?_) fun x hx => .inl (hlocals x hx)
    have hold : (s.thread t).Owns x := ⟨k, hown x k ho⟩
    exact ⟨fun hx => h.cross.apart t t x hold (hlocals x hx), hold⟩

/-- `node->next = curr`: nobody notices. -/
lemma Inv.setNext (h : Inv s) {c : Args} {prev curr : ℕ} (hpc : s.thread t = .setNext c prev curr) :
    Inv ((s.setNext c.node (some curr)).setPc t (.link c prev curr)) := by
  have hsits := h.sits t
  rw [hpc] at hsits
  obtain ⟨-, -, hcurr, hop⟩ := hsits.fits
  have hown : (Pc.setNext c prev curr).owned = some (c.node, c.key) := by simp [Pc.owned, hop]
  obtain ⟨htwo, hlt, hkey, hno⟩ := hsits.own _ _ hown
  have hhead : head ≠ c.node := hsits.own_ne_head hown
  have htail : c.node ≠ tail := fun he => by
    rw [he] at htwo
    exact absurd htwo (by decide)
  rw [← hpc] at hown
  have hlocal : ∀ u, ∀ x ∈ (s.thread u).locals, x ≠ c.node := fun u x hx hxn =>
    h.cross.apart t u c.node ⟨_, hown⟩ (hxn ▸ hx)
  have hcurrMem : curr ∈ (s.thread t).locals := by rw [hpc]; simp [Pc.locals]
  -- what thread `u` relies on is not the pointer of the node, which nobody can meet
  have hstore : ∀ u, (∀ x o, (s.thread u).known = some (x, o) → x ≠ c.node) →
      Sits (s.setNext c.node (some curr)) (s.thread u) := by
    intro u hknown
    refine (h.sits u).store (fun hx => hlocal u _ (Pc.held_subset_locals hx) rfl) hknown
      (fun x k ho => ?_) (fun p _ hp => (leads_update_of_isolated hno _ hhead).mpr hp)
      fun p i hv hl => ?_
    · rintro rfl
      exact h.cross.apart u t x ⟨k, ho⟩ hcurrMem
    · exact (leads_update_of_isolated hno _ (hlocal u i (Pc.held_of_seeking hv).2)).mp hl
  refine h.store (h.chain.prepare hno hhead htail (hkey ▸ hcurr)) hlt
    (hsits.locals curr (by simp [Pc.locals])) (fun u hu => hstore u fun x o hx => ?_) ?_ ?_ ?_ ?_
  · rcases Pc.held_or_owned_of_known hx (h.sits u).fits with hx | hx
    · exact hlocal u x (Pc.held_subset_locals hx)
    · rintro rfl
      exact hu (h.cross.distinct u t _ hx ⟨_, hown⟩)
  · have hnew := hstore t (by simp [hpc, Pc.known])
    rw [hpc] at hnew
    refine ⟨hnew.fits, hnew.locals, hnew.valid, by simp [Pc.seeking], ?_, hnew.own⟩
    intro x o hx
    obtain ⟨rfl, rfl⟩ : c.node = x ∧ some curr = o := by simpa [Pc.known] using hx
    rw [setNext_next, Function.update_self]
  · simp [hpc, Pc.held]
  · simp [hpc, Pc.owned]
  · simp [hpc, Pc.locals]

/-- `prev->next = node`: the node joins the chain. -/
lemma Inv.link (h : Inv s) {c : Args} {prev curr : ℕ} (hpc : s.thread t = .link c prev curr) :
    Inv ((s.setNext prev (some c.node)).setPc t (.unlockPrev c prev curr (some true))) := by
  have hsits := h.sits t
  rw [hpc] at hsits
  obtain ⟨hrange, hprev, hcurr, hop⟩ := hsits.fits
  have hown : (Pc.link c prev curr).owned = some (c.node, c.key) := by simp [Pc.owned, hop]
  obtain ⟨-, hlt, hkey, hno⟩ := hsits.own _ _ hown
  have hhead : head ≠ c.node := hsits.own_ne_head hown
  obtain ⟨hreach, hnext⟩ := hsits.valid prev curr rfl
  have hnode : s.next c.node = some curr := hsits.known c.node (some curr) rfl
  rw [← hpc] at hown
  have hheld : prev ∈ (s.thread t).held := by rw [hpc]; simp [Pc.held]
  have hlocal : ∀ u, ∀ x ∈ (s.thread u).locals, x ≠ c.node := fun u x hx hxn =>
    h.cross.apart t u c.node ⟨_, hown⟩ (hxn ▸ hx)
  have hprevNode : prev ≠ c.node := hlocal t prev (Pc.held_subset_locals hheld)
  have hpaths : ∀ {a b}, a ≠ c.node → (Leads (s.setNext prev (some c.node)).next a b ↔
      Leads s.next a b ∨ b = c.node ∧ Leads s.next a prev) := fun ha =>
    SortedChain.leads_insert hnext hnode hno ha hprevNode
  refine h.store (h.chain.insert hnext hnode hno hhead (hkey ▸ hprev))
    (hsits.locals prev (by simp [Pc.locals])).1 ⟨hlt, .inr (by rw [hnode]; simp)⟩
    (fun u hu => ?_) ?_ ?_ ?_ ?_
  · refine (h.sits u).store (fun hx => h.cross.excl u t prev hu hx hheld)
      (fun x o hx => h.not_known hu hheld hx) (fun x k ho => ?_)
      (fun p _ hp => (hpaths hhead).mpr (.inl hp)) fun p i hv hl => ?_
    · rintro rfl
      exact hu (h.cross.distinct u t _ ⟨k, ho⟩ ⟨_, hown⟩)
    · obtain ⟨hp, hi⟩ := Pc.held_of_seeking hv
      exact ((hpaths (hlocal u i hi)).mp hl).resolve_right fun hpn =>
        hlocal u p (Pc.held_subset_locals hp) hpn.1
  · refine ⟨⟨hrange, hprev.trans hcurr⟩, fun x hx => ?_, ?_, ?_, ?_, ?_⟩
    · exact ⟨(hsits.locals x hx).1, (hsits.locals x hx).2.setNext⟩
    all_goals simp [Pc.validated, Pc.seeking, Pc.known, Pc.owned]
  · simp [hpc, Pc.held]
  · simp [Pc.owned]
  · simp [hpc, Pc.locals]

/-- `prev->next = curr->next`: `curr` leaves the chain. -/
lemma Inv.unlink (h : Inv s) {c : Args} {prev curr : ℕ} {next : Option ℕ}
    (hpc : s.thread t = .unlink c prev curr next) :
    Inv ((s.setNext prev next).setPc t (.unlockPrev c prev curr (some true))) := by
  obtain ⟨hnext, n, rfl⟩ := h.unlink_next hpc
  have hsits := h.sits t
  rw [hpc] at hsits
  obtain ⟨hrange, hprev, hcurr, hop⟩ := hsits.fits
  obtain ⟨hreach, hpc'⟩ := hsits.valid prev curr rfl
  have hheld : prev ∈ (s.thread t).held ∧ curr ∈ (s.thread t).held := by
    rw [hpc]; simp [Pc.held]
  have hne : curr ≠ prev := by
    rintro rfl
    exact absurd hprev hcurr.ge.not_gt
  have hpaths : ∀ {a b}, b ≠ curr →
      (Leads (s.setNext prev (some n)).next a b ↔ Leads s.next a b) := fun hb =>
    SortedChain.leads_delete hpc' hnext hne hb
  refine h.store (h.chain.delete hpc' hnext) (hsits.locals prev (by simp [Pc.locals])).1
    (h.target curr n hnext) (fun u hu => ?_) ?_ ?_ ?_ ?_
  · have hother : ∀ p ∈ (s.thread u).held, p ≠ curr := fun p hp hpc =>
      h.cross.excl u t p hu hp (hpc ▸ hheld.2)
    refine (h.sits u).store (fun hx => h.cross.excl u t prev hu hx hheld.1)
      (fun x o hx => h.not_known hu hheld.1 hx) (fun x k ho => ?_)
      (fun p hp hl => (hpaths (hother p hp)).mpr hl) fun p i hv hl => ?_
    · rintro rfl
      exact ((h.sits u).own x k ho).2.2.2 curr hnext
    · exact (hpaths (hother p (Pc.held_of_seeking hv).1)).mp hl
  · refine ⟨⟨hrange, hcurr ▸ hprev⟩, fun x hx => ?_, ?_, ?_, ?_, ?_⟩
    · have hx' : x ∈ (Pc.unlink c prev curr (some n)).locals := by
        simp only [Pc.locals, List.mem_cons, List.not_mem_nil, or_false] at hx ⊢
        tauto
      exact ⟨(hsits.locals x hx').1, (hsits.locals x hx').2.setNext⟩
    all_goals simp [Pc.validated, Pc.seeking, Pc.known, Pc.owned]
  · simp [hpc, Pc.held]
  · simp [Pc.owned]
  · intro x hx
    rw [hpc]
    simp only [Pc.locals, List.mem_cons, List.not_mem_nil, or_false] at hx ⊢
    tauto

/-! ## Calls -/

/-- A call of `list_add` begins. -/
lemma Inv.malloc (h : Inv s) {key : ℤ} (hr : InRange key) :
    Inv ((s.malloc key).setPc t (.start ⟨⟨.add, key⟩, s.alloc⟩)) := by
  have hn := h.malloc_next key
  have hsmall : ∀ u, ∀ a ∈ (s.thread u).locals, a < s.alloc := fun u a ha =>
    ((h.sits u).locals a ha).1
  have hheld : ∀ u, ∀ a ∈ (s.thread u).held, a < s.alloc := fun u a ha =>
    hsmall u a (Pc.held_subset_locals ha)
  have hzero : head < s.alloc := lt_of_lt_of_le (by decide) h.two
  have hone : tail < s.alloc := lt_of_lt_of_le (by decide) h.two
  have hchain : SortedChain (s.malloc key).next (s.malloc key).key head tail := by
    rw [hn]
    refine ⟨fun a b hab => ?_, h.chain.complete, h.chain.last⟩
    have ha : a < s.alloc := by
      by_contra ha
      simp [h.fresh a (not_lt.mp ha)] at hab
    rw [malloc_key ha, malloc_key (h.target a b hab).1]
    exact h.chain.order a b hab
  refine ⟨hchain, (malloc_key hzero).trans h.keyHead, (malloc_key hone).trans h.keyTail,
    h.two.trans (Nat.le_succ _), fun a ha => ?_, fun a b hab => ?_, fun u => ?_, ?_⟩
  · show (s.malloc key).next a = none
    rw [hn]
    exact h.fresh a (Nat.le_of_succ_le ha)
  · have hab' : s.next a = some b := hn ▸ hab
    refine ⟨(h.target a b hab').1.trans s.alloc.lt_succ_self, ?_⟩
    show b = tail ∨ (s.malloc key).next b ≠ none
    rw [hn]
    exact (h.target a b hab').2
  · refine (sits_update (fun u _ => h.malloc_sits key (h.sits u)) ?_ u).congr rfl rfl rfl
    refine ⟨hr, ?_, ?_, ?_, ?_, fun a k ho => ?_⟩
    · simp [Pc.locals]
    · simp [Pc.validated]
    · simp [Pc.seeking]
    · simp [Pc.known]
    · obtain ⟨rfl, rfl⟩ : s.alloc = a ∧ key = k := by simpa [Pc.owned] using ho
      refine ⟨h.two, Nat.lt_succ_self _, Function.update_self _ _ _, fun b hb => ?_⟩
      rw [hn] at hb
      exact absurd (h.target b _ hb).1 (lt_irrefl _)
  · refine h.cross.update (by simp [Pc.held]) (by simp [Pc.held]) (fun u _ a ha => ?_) ?_
      (by simp [Pc.locals])
    · exact (Function.update_of_ne (hheld u a ha).ne _ _).trans (h.cross.locked u a ha)
    · rintro a ⟨k, ho⟩
      obtain ⟨rfl, rfl⟩ : s.alloc = a ∧ key = k := by simpa [Pc.owned] using ho
      refine ⟨by simp [Pc.locals], .inr fun u _ => ⟨fun ha => ?_, ?_⟩⟩
      · exact absurd (hsmall u _ ha) (lt_irrefl _)
      · rintro ⟨l, ho⟩
        exact absurd ((h.sits u).own _ _ ho).2.1 (lt_irrefl _)

/-! ## Every move -/

/-- What follows the test of `curr->key`. -/
lemma Inv.decide (h : Inv s) {c : Args} {prev curr : ℕ} (hpc : s.thread t = .decide c prev curr) :
    Inv (s.setPc t (decided c prev curr (s.key curr))) := by
  have hsits := h.sits t
  have hfits := hsits.fits
  rw [hpc] at hfits
  obtain ⟨hr, hprev, hcurr⟩ := hfits
  have hret : ∀ b, Inv (s.setPc t (.unlockPrev c prev curr (some b))) := fun b =>
    h.setPc (.same hsits ⟨hr, hprev.trans_le hcurr⟩ (by simp [hpc, Pc.locals]) (by simp [Pc.owned])
      (by simp [Pc.validated]) rfl rfl) (by simp [hpc, Pc.held])
  unfold decided
  split
  · rename_i hop
    split_ifs with hk
    · exact hret false
    · exact h.setPc (.same hsits ⟨hr, hprev, lt_of_le_of_ne hcurr (Ne.symm hk), hop⟩
        (by simp [hpc, Pc.locals]) (by simp [hpc, Pc.owned]) (by simp [hpc, Pc.validated]) rfl rfl)
        (by simp [hpc, Pc.held])
  · rename_i hop
    split_ifs with hk
    · exact hret false
    · exact h.setPc (.same hsits ⟨hr, hprev, not_not.mp hk, hop⟩ (by simp [hpc, Pc.locals])
        (by simp [Pc.owned]) (by simp [hpc, Pc.validated]) rfl rfl) (by simp [hpc, Pc.held])
  · exact hret _

/-- **Every move keeps the invariant.** -/
theorem Inv.move (h : Inv s) {ev : Option (Event Call Bool)} (hm : Move s t ev s')
    (hr : ∀ op key, ev = some (.call ⟨op, key⟩) → InRange key) : Inv s' := by
  have hsits := h.sits t
  have hfits := hsits.fits
  cases hm
  case call op key hpc =>
    have hrange := hr op key rfl
    have start : ∀ op, op ≠ .add → Inv (s.setPc t (.start ⟨⟨op, key⟩, 0⟩)) := fun op hop =>
      h.setPc (.plain hrange (by simp [Pc.locals]) (by simp [Pc.owned, hop]) rfl rfl rfl)
        (by simp [Pc.held])
    cases op with
    | add => exact h.malloc hrange
    | remove => exact start .remove (by simp)
    | contains => exact start .contains (by simp)
  all_goals rw [‹s.thread t = _›] at hfits
  case start c curr hpc hn =>
    have hrange : InRange c.key := hfits
    refine h.setPc (.plain ⟨hrange, h.keyHead ▸ hrange.1⟩ ?_ (by simp [hpc, Pc.owned]) rfl rfl rfl)
      (by simp [Pc.held])
    simpa [Pc.locals] using .inr (.inr ⟨head, hn⟩)
  case walk c prev curr n hpc hk hn =>
    refine h.setPc (.plain ⟨hfits.1, hk⟩ ?_ (by simp [hpc, Pc.owned]) rfl rfl rfl)
      (by simp [Pc.held])
    simpa [hpc, Pc.locals] using .inr (.inr ⟨curr, hn⟩)
  case found c prev curr hpc hk =>
    exact h.setPc (.same hsits ⟨hfits.1, hfits.2, hk⟩ (by simp [hpc, Pc.locals])
      (by simp [hpc, Pc.owned]) (by simp [Pc.validated]) rfl rfl) (by simp [Pc.held])
  case lockPrev c prev curr hpc hm =>
    exact h.lock (.same hsits hfits (by simp [hpc, Pc.locals]) (by simp [hpc, Pc.owned])
      (by simp [Pc.validated]) rfl rfl) hm (by simp [Pc.held])
  case lockCurr c prev curr hpc hm =>
    refine h.lock ⟨hfits, by simp [hpc, Pc.locals], by simp [hpc, Pc.owned], by simp [Pc.validated],
      fun p i hp hl => ?_, by simp [Pc.known]⟩ hm (by simp [hpc, Pc.held])
    obtain ⟨rfl, rfl⟩ : prev = p ∧ head = i := by simpa [Pc.seeking] using hp
    exact hl
  case seek c prev curr it n hpc hk hn =>
    refine h.setPc ⟨hfits, ?_, by simp [hpc, Pc.owned], by simp [Pc.validated], fun p i hp hl => ?_,
      by simp [Pc.known]⟩ (by simp [hpc, Pc.held])
    · simpa [hpc, Pc.locals] using .inr (.inr ⟨it, hn⟩)
    · obtain ⟨rfl, rfl⟩ : prev = p ∧ n = i := by simpa [Pc.seeking] using hp
      exact hsits.seek prev it (by rw [hpc]; rfl) (hl.head hn)
  case valid c prev curr hpc hn =>
    refine h.setPc ⟨hfits, by simp [hpc, Pc.locals], by simp [hpc, Pc.owned], fun p q hp => ?_,
      by simp [Pc.seeking], by simp [Pc.known]⟩ (by simp [hpc, Pc.held])
    obtain ⟨rfl, rfl⟩ : prev = p ∧ curr = q := by simpa [Pc.validated] using hp
    exact ⟨hsits.seek prev prev (by rw [hpc]; rfl) (.refl prev), hn⟩
  case invalid c prev curr it hpc =>
    obtain ⟨hrange, hprev, hcurr⟩ := hfits
    exact h.setPc (.same hsits ⟨hrange, hprev.trans_le hcurr⟩ (by simp [hpc, Pc.locals])
      (by simp [hpc, Pc.owned]) (by simp [Pc.validated]) rfl rfl) (by simp [hpc, Pc.held])
  case decide c prev curr hpc => exact h.decide hpc
  case setNext c prev curr hpc => exact h.setNext hpc
  case link c prev curr hpc => exact h.link hpc
  case getNext c prev curr hpc =>
    refine h.setPc ⟨hfits, fun a ha => ?_, by simp [Pc.owned], fun p q hp => ?_,
      by simp [Pc.seeking], fun a o ha => ?_⟩ (by simp [hpc, Pc.held])
    · simp only [Pc.locals, List.mem_cons, Option.mem_toList] at ha
      rcases ha with rfl | rfl | ha
      · exact .inl (by simp [hpc, Pc.locals])
      · exact .inl (by simp [hpc, Pc.locals])
      · exact .inr (.inr ⟨curr, ha⟩)
    · exact hsits.valid p q (by rw [hpc]; exact hp)
    · obtain ⟨rfl, rfl⟩ : curr = a ∧ s.next curr = o := by simpa [Pc.known] using ha
      rfl
  case unlink c prev curr next hpc => exact h.unlink hpc
  case unlockPrev c prev curr ret hpc =>
    obtain ⟨hrange, hlt⟩ := hfits
    have hne : curr ≠ prev := by
      rintro rfl
      exact lt_irrefl _ hlt
    refine h.unlock (.same hsits hrange (by simp [hpc, Pc.locals]) ?_ (by simp [Pc.validated]) rfl
      rfl) (by simp [hpc, Pc.held]) (by simp [hpc, Pc.held, hne])
    cases ret <;> simp [hpc, Pc.owned]
  case again c curr hpc =>
    exact h.unlock (.same hsits hfits (by simp [Pc.locals]) (by simp [hpc, Pc.owned])
      (by simp [Pc.validated]) rfl rfl) (by simp [hpc, Pc.held]) (by simp [Pc.held])
  case leave c curr b hpc =>
    exact h.unlock (.same hsits trivial (by simp [Pc.locals]) (by simp [Pc.owned])
      (by simp [Pc.validated]) rfl rfl) (by simp [hpc, Pc.held]) (by simp [Pc.held])
  case ret b hpc =>
    exact h.setPc (.same hsits trivial (by simp [Pc.locals]) (by simp [Pc.owned])
      (by simp [Pc.validated]) rfl rfl) (by simp [Pc.held])

/-- **In every state of every run** with keys in range the invariant holds. -/
theorem inv_of_run (hs : (list τ).Run KeyInRange s) : Inv s :=
  Machine.Run.invariant (I := Inv) (fun _ h => inv_init h)
    (fun _ _ _ _ hi hok hstep => hi.move (move_of_step hstep) fun _ _ => inRange_of_event hok) s hs

end Multicore.Lab11.Optimistic
