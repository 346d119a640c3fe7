import Multicore.Lib.Ownership
import Multicore.Lib.SortedChain
import Multicore.Lab11.Optimistic

/-!
# What a validated pair guarantees

The invariant of the optimistic list.  `Sits` says what one thread may rely on, `Inv` adds the heap
and what two threads have to do with each other.  The file ends with what a step of one thread
leaves to the others; that every move keeps the invariant is `OptimisticInv.lean`.

* **The second walk** (`Sits.seek`).  While `list_validate` is walking, `prev` is locked.  If `it`
  leads to `prev`, then so does `head`: a lock on `prev` keeps it from being unlinked, and no store
  makes a node lead to `prev` that did not before.  At the start `it` is `head`; when `it` is `prev`
  the conclusion is that `prev` is in the chain.  Nothing is said about *when* `prev` was found.
* **The validated pair** (`Sits.valid`).  From then on `prev` is in the chain with `curr` behind it
  until `prev` is unlocked, because only a thread that holds a lock on a node, as its own `prev`,
  stores into its `next`.
* **New nodes** (`Inv.apart`).  Until `prev->next = node` nobody else knows the node: no pointer and
  no local variable holds its address.
-/

namespace Multicore.Lab11.Optimistic

variable {τ : Type*} {s s' : State τ} {t u : τ}

/-! ## What a program counter knows -/

namespace Pc

/-- The addresses a thread has in `prev`, `curr` and `it`. -/
def locals : Pc → List ℕ
  | .walk _ prev curr | .lockPrev _ prev curr | .lockCurr _ prev curr | .decide _ prev curr
  | .setNext _ prev curr | .link _ prev curr | .getNext _ prev curr
  | .unlockPrev _ prev curr _ => [prev, curr]
  | .unlink _ prev curr next => prev :: curr :: next.toList
  | .validate _ prev curr it => [prev, curr, it]
  | .unlockCurr _ curr _ => [curr]
  | .idle | .start _ | .ret _ => []

/-- The nodes whose mutex a thread holds. -/
def held : Pc → List ℕ
  | .lockCurr _ prev _ => [prev]
  | .validate _ prev curr _ | .decide _ prev curr | .setNext _ prev curr | .link _ prev curr
  | .getNext _ prev curr | .unlink _ prev curr _ | .unlockPrev _ prev curr _ => [prev, curr]
  | .unlockCurr _ curr _ => [curr]
  | .idle | .start _ | .walk _ _ _ | .lockPrev _ _ _ | .ret _ => []

/-- The pair that `list_validate` has accepted. -/
def validated : Pc → Option (ℕ × ℕ)
  | .decide _ prev curr | .setNext _ prev curr | .link _ prev curr | .getNext _ prev curr
  | .unlink _ prev curr _ => some (prev, curr)
  | _ => none

/-- What `list_validate` is looking for, and where it is. -/
def seeking : Pc → Option (ℕ × ℕ)
  | .validate _ prev _ it => some (prev, it)
  | _ => none

/-- A pointer whose value the next store relies on. -/
def known : Pc → Option (ℕ × Option ℕ)
  | .link c _ curr => some (c.node, some curr)
  | .unlink _ _ curr next => some (curr, next)
  | _ => none

/-- The node a call of `list_add` has allocated and not linked yet, if it may still be linked. -/
def owned : Pc → Option (ℕ × ℤ)
  | .start c | .walk c _ _ | .lockPrev c _ _ | .lockCurr c _ _ | .validate c _ _ _ | .decide c _ _
  | .setNext c _ _ | .link c _ _ | .unlockPrev c _ _ none | .unlockCurr c _ none =>
      if c.op = .add then some (c.node, c.key) else none
  | _ => none

/-- The thread has allocated this node and may still link it. -/
def Owns (pc : Pc) (a : ℕ) : Prop := ∃ k, pc.owned = some (a, k)

/-- How the keys of `prev` and `curr` lie. -/
def Fits (key : ℕ → ℤ) : Pc → Prop
  | .idle | .ret _ => True
  | .start c | .unlockCurr c _ _ => InRange c.key
  | .walk c prev _ => InRange c.key ∧ key prev < c.key
  | .lockPrev c prev curr | .lockCurr c prev curr | .validate c prev curr _
  | .decide c prev curr => InRange c.key ∧ key prev < c.key ∧ c.key ≤ key curr
  | .setNext c prev curr | .link c prev curr =>
      InRange c.key ∧ key prev < c.key ∧ c.key < key curr ∧ c.op = .add
  | .getNext c prev curr | .unlink c prev curr _ =>
      InRange c.key ∧ key prev < c.key ∧ key curr = c.key ∧ c.op = .remove
  | .unlockPrev c prev curr _ => InRange c.key ∧ key prev < key curr

variable {pc : Pc} {p c i a : ℕ} {o : Option ℕ}

lemma held_subset_locals (h : a ∈ pc.held) : a ∈ pc.locals := by
  cases pc <;> simp_all [held, locals]
  case validate => tauto
  case unlink => tauto

lemma held_of_validated (h : pc.validated = some (p, c)) : p ∈ pc.held ∧ c ∈ pc.held := by
  cases pc <;> simp_all [validated, held]

lemma held_of_seeking (h : pc.seeking = some (p, i)) : p ∈ pc.held ∧ i ∈ pc.locals := by
  cases pc <;> simp_all [seeking, held, locals]

lemma held_or_owned_of_known (h : pc.known = some (a, o)) {key : ℕ → ℤ} (hf : pc.Fits key) :
    a ∈ pc.held ∨ pc.Owns a := by
  cases pc <;> simp_all [known, held, Owns, owned, Fits]

/-- Keys are only looked up at the addresses a thread has. -/
lemma Fits.congr {key key' : ℕ → ℤ} (h : pc.Fits key) (hk : ∀ a ∈ pc.locals, key' a = key a) :
    pc.Fits key' := by
  cases pc <;> simp_all [Fits, locals]

end Pc

/-! ## The invariant -/

/-- Once linked, a node keeps a pointer; only `tail` has none. -/
def State.Linked (s : State τ) (a : ℕ) : Prop := a = tail ∨ s.next a ≠ none

/-- What a thread may rely on at its program counter. -/
structure Sits (s : State τ) (pc : Pc) : Prop where
  fits : pc.Fits s.key
  locals : ∀ a ∈ pc.locals, a < s.alloc ∧ s.Linked a
  valid : ∀ p c, pc.validated = some (p, c) → Leads s.next head p ∧ s.next p = some c
  seek : ∀ p i, pc.seeking = some (p, i) → Leads s.next i p → Leads s.next head p
  known : ∀ a o, pc.known = some (a, o) → s.next a = o
  own : ∀ a k, pc.owned = some (a, k) →
    2 ≤ a ∧ a < s.alloc ∧ s.key a = k ∧ ∀ b, s.next b ≠ some a

/-- The invariant of the list. -/
structure Inv (s : State τ) : Prop where
  chain : SortedChain s.next s.key head tail
  keyHead : s.key head = intMin
  keyTail : s.key tail = intMax
  two : 2 ≤ s.alloc
  fresh : ∀ a, s.alloc ≤ a → s.next a = none
  target : ∀ a b, s.next a = some b → b < s.alloc ∧ s.Linked b
  sits : ∀ t, Sits s (s.thread t)
  cross : Ownership (fun pc a => a ∈ pc.held) (fun pc a => a ∈ pc.locals) Pc.Owns s.mutex s.thread

lemma inv_init (h : IsInit s) : Inv s := by
  obtain ⟨hk0, hk1, hn, hnone, halloc, hpc⟩ := h
  have htail : s.next tail = none := hnone tail (by decide)
  have hpointer : ∀ a b, s.next a = some b → a = head ∧ b = tail := by
    intro a b hab
    by_cases ha : a = head
    · subst ha
      exact ⟨rfl, Option.some.inj (hab.symm.trans hn)⟩
    · simp [hnone a ha] at hab
  refine ⟨⟨fun a b hab => ?_, (Leads.refl head).tail hn, htail⟩, hk0, hk1, halloc.ge,
    fun a ha => hnone a ?_, fun a b hab => ?_, fun t => ?_, ?_⟩
  · obtain ⟨rfl, rfl⟩ := hpointer a b hab
    rw [hk0, hk1]
    decide
  · rintro rfl
    rw [halloc] at ha
    exact absurd ha (by decide)
  · obtain ⟨rfl, rfl⟩ := hpointer a b hab
    exact ⟨by rw [halloc]; decide, .inl rfl⟩
  · rw [hpc t]
    constructor <;> simp [Pc.Fits, Pc.locals, Pc.validated, Pc.seeking, Pc.known, Pc.owned]
  · constructor <;> simp [hpc, Pc.held, Pc.Owns, Pc.owned]

/-- A new node is not `head`. -/
lemma Sits.own_ne_head {pc : Pc} {a : ℕ} {k : ℤ} (h : Sits s pc) (ho : pc.owned = some (a, k)) :
    head ≠ a := by
  rintro rfl
  exact absurd (h.own _ _ ho).1 (by decide)

/-- What a thread may find in a pointer, or at `head`, is not a new node. -/
lemma Inv.not_owned (h : Inv s) {a : ℕ} (ha : a = head ∨ ∃ b, s.next b = some a) (u : τ) :
    ¬ (s.thread u).Owns a := by
  rintro ⟨k, ho⟩
  rcases ha with rfl | ⟨b, hb⟩
  · exact (h.sits u).own_ne_head ho rfl
  · exact ((h.sits u).own _ _ ho).2.2.2 b hb

/-! ## What the others rely on -/

/-- What a thread relies on does not depend on the mutexes and on the other threads. -/
lemma Sits.congr {pc : Pc} (h : Sits s pc) (hk : s'.key = s.key) (hn : s'.next = s.next)
    (ha : s'.alloc = s.alloc) : Sits s' pc := by
  refine ⟨hk ▸ h.fits, fun a hmem => ?_, ?_, ?_, ?_, ?_⟩
  · rw [ha, State.Linked, hn]
    exact h.locals a hmem
  · rw [hn]
    exact h.valid
  · rw [hn]
    exact h.seek
  · rw [hn]
    exact h.known
  · rw [hn, hk, ha]
    exact h.own

/-- What a thread has to see to when it moves on to `pc`: where its addresses come from, that it
allocates nothing, and what it relies on there. -/
structure Goes (s : State τ) (t : τ) (pc : Pc) : Prop where
  fits : pc.Fits s.key
  reads : ∀ a ∈ pc.locals, a ∈ (s.thread t).locals ∨ a = head ∨ ∃ b, s.next b = some a
  own : ∀ a k, pc.owned = some (a, k) → (s.thread t).owned = some (a, k)
  valid : ∀ p c, pc.validated = some (p, c) → Leads s.next head p ∧ s.next p = some c
  seek : ∀ p i, pc.seeking = some (p, i) → Leads s.next i p → Leads s.next head p
  known : ∀ a o, pc.known = some (a, o) → s.next a = o

/-- Outside validation a thread relies on keys and addresses only. -/
lemma Goes.plain {pc : Pc} (fits : pc.Fits s.key)
    (reads : ∀ a ∈ pc.locals, a ∈ (s.thread t).locals ∨ a = head ∨ ∃ b, s.next b = some a)
    (own : ∀ a k, pc.owned = some (a, k) → (s.thread t).owned = some (a, k))
    (hv : pc.validated = none) (hs : pc.seeking = none) (hk : pc.known = none) : Goes s t pc :=
  ⟨fits, reads, own, by simp [hv], by simp [hs], by simp [hk]⟩

/-- The thread goes on with the addresses it has. -/
lemma Goes.same {pc : Pc} (h : Sits s (s.thread t)) (fits : pc.Fits s.key)
    (hl : ∀ a ∈ pc.locals, a ∈ (s.thread t).locals)
    (own : ∀ a k, pc.owned = some (a, k) → (s.thread t).owned = some (a, k))
    (hv : ∀ p c, pc.validated = some (p, c) → (s.thread t).validated = some (p, c))
    (hs : pc.seeking = none) (hk : pc.known = none) : Goes s t pc :=
  ⟨fits, fun a ha => .inl (hl a ha), own, fun p c hp => h.valid p c (hv p c hp), by simp [hs],
    by simp [hk]⟩

section Goes

variable (h : Inv s) {pc : Pc} {a : ℕ} (hg : Goes s t pc)

include h hg

lemma Inv.sits_of_goes : Sits s pc := by
  refine ⟨hg.fits, fun a ha => ?_, hg.valid, hg.seek, hg.known,
    fun a k ho => (h.sits t).own a k (hg.own a k ho)⟩
  rcases hg.reads a ha with ha | rfl | ⟨b, hb⟩
  · exact (h.sits t).locals a ha
  · exact ⟨lt_of_lt_of_le (by decide) h.two,
      .inr (h.chain.next_ne_none (.refl head) (by decide))⟩
  · exact h.target b a hb

/-- A thread that allocates nothing and reads addresses from pointers leaves the new nodes alone. -/
lemma Inv.owns_of_goes : (∀ a, pc.Owns a → a ∉ pc.locals ∧ (s.thread t).Owns a) ∧
    ∀ a ∈ pc.locals, a ∈ (s.thread t).locals ∨ ∀ u, u ≠ t → ¬ (s.thread u).Owns a := by
  refine ⟨fun a ⟨k, ho⟩ => ?_, fun a ha => (hg.reads a ha).imp_right fun ha u _ => h.not_owned ha u⟩
  have hold : (s.thread t).Owns a := ⟨k, hg.own a k ho⟩
  refine ⟨fun ha => ?_, hold⟩
  rcases hg.reads a ha with ha | ha
  · exact h.cross.apart t t a hold ha
  · exact h.not_owned ha t hold

end Goes

/-! ## Stores and allocation -/

lemma setNext_next (a : ℕ) (o : Option ℕ) :
    (s.setNext a o).next = Function.update s.next a o := rfl

/-- A store of a pointer unlinks nothing. -/
lemma State.Linked.setNext {a b x : ℕ} (h : s.Linked x) : (s.setNext a (some b)).Linked x := by
  refine h.imp_right fun hx => ?_
  rw [setNext_next, Function.update_apply]
  split_ifs
  · simp
  · exact hx

/-- What a thread relies on after a store into `a`, on which it does not rely. -/
lemma Sits.store {pc : Pc} {a b : ℕ} (h : Sits s pc) (hheld : a ∉ pc.held)
    (hknown : ∀ x o, pc.known = some (x, o) → x ≠ a)
    (hown : ∀ x k, pc.owned = some (x, k) → x ≠ b)
    (hreach : ∀ p ∈ pc.held, Leads s.next head p →
      Leads (Function.update s.next a (some b)) head p)
    (hseek : ∀ p i, pc.seeking = some (p, i) → Leads (Function.update s.next a (some b)) i p →
      Leads s.next i p) : Sits (s.setNext a (some b)) pc := by
  have hother : ∀ x, x ≠ a → (s.setNext a (some b)).next x = s.next x :=
    fun x hx => Function.update_of_ne hx _ _
  have hne : ∀ p ∈ pc.held, p ≠ a := fun p hp hpa => hheld (hpa ▸ hp)
  refine ⟨h.fits, fun x hx => ⟨(h.locals x hx).1, ?_⟩, fun p c hv => ?_, fun p i hv hl => ?_,
    fun x o hv => ?_, fun x k ho => ?_⟩
  · exact (h.locals x hx).2.setNext
  · have hp := (Pc.held_of_validated hv).1
    rw [hother p (hne p hp)]
    exact ⟨hreach p hp (h.valid p c hv).1, (h.valid p c hv).2⟩
  · exact hreach p (Pc.held_of_seeking hv).1 (h.seek p i hv (hseek p i hv hl))
  · rw [hother x (hknown x o hv)]
    exact h.known x o hv
  · obtain ⟨h2, hlt, hk, hno⟩ := h.own x k ho
    refine ⟨h2, hlt, hk, fun y hy => ?_⟩
    rw [setNext_next, Function.update_apply] at hy
    split_ifs at hy
    · exact hown x k ho (Option.some.inj hy).symm
    · exact hno y hy

/-- Another thread does not rely on the `next` of a node that thread `t` holds. -/
lemma Inv.not_known (h : Inv s) (hu : u ≠ t) {p x : ℕ} {o : Option ℕ} (hp : p ∈ (s.thread t).held)
    (hx : (s.thread u).known = some (x, o)) : x ≠ p := by
  rintro rfl
  rcases Pc.held_or_owned_of_known hx (h.sits u).fits with hx | hx
  · exact h.cross.excl u t x hu hx hp
  · exact h.cross.apart u t x hx (Pc.held_subset_locals hp)

/-- A node that was linked and has a smaller key than `tail` has a pointer. -/
lemma Inv.next_isSome (h : Inv s) {a : ℕ} (ha : s.Linked a) (hk : s.key a < intMax) :
    ∃ b, s.next a = some b := by
  refine Option.ne_none_iff_exists'.mp (ha.resolve_left ?_)
  rintro rfl
  exact absurd h.keyTail hk.ne

/-- What `list_remove` has read of `curr->next` is a node. -/
lemma Inv.unlink_next (h : Inv s) {c : Args} {prev curr : ℕ} {next : Option ℕ}
    (hpc : s.thread t = .unlink c prev curr next) :
    s.next curr = next ∧ ∃ n, next = some n := by
  have hsits := h.sits t
  rw [hpc] at hsits
  obtain ⟨hrange, -, hcurr, -⟩ := hsits.fits
  have hknown : s.next curr = next := hsits.known curr next rfl
  obtain ⟨n, hn⟩ := h.next_isSome (hsits.locals curr (by simp [Pc.locals])).2 (hcurr ▸ hrange.2)
  exact ⟨hknown, n, hknown.symm.trans hn⟩

/-- A new node has no pointer. -/
lemma Inv.malloc_next (h : Inv s) (key : ℤ) : (s.malloc key).next = s.next := by
  rw [State.malloc, ← h.fresh s.alloc le_rfl]
  exact Function.update_eq_self _ _

lemma malloc_key {key : ℤ} {a : ℕ} (ha : a < s.alloc) : (s.malloc key).key a = s.key a :=
  Function.update_of_ne ha.ne _ _

/-- Nobody relies on the contents of an address that has not been returned yet. -/
lemma Inv.malloc_sits (h : Inv s) (key : ℤ) {pc : Pc} (hs : Sits s pc) :
    Sits (s.malloc key) pc := by
  have hn := h.malloc_next key
  refine ⟨hs.fits.congr fun a ha => malloc_key (hs.locals a ha).1, fun a ha => ?_, ?_, ?_, ?_,
    fun a k ho => ?_⟩
  · rw [State.Linked, hn]
    exact ⟨(hs.locals a ha).1.trans s.alloc.lt_succ_self, (hs.locals a ha).2⟩
  · rw [hn]
    exact hs.valid
  · rw [hn]
    exact hs.seek
  · rw [hn]
    exact hs.known
  · obtain ⟨h2, hlt, hk, hno⟩ := hs.own a k ho
    rw [hn, malloc_key hlt]
    exact ⟨h2, hlt.trans s.alloc.lt_succ_self, hk, hno⟩

/-- The keys of the calls of a run are in range. -/
lemma inRange_of_event {a : Act τ} (hok : KeyInRange s a) {op : Op} {key : ℤ}
    (hev : event s a = some (.call ⟨op, key⟩)) : InRange key := by
  obtain ⟨t, choice⟩ := a
  unfold event at hev
  dsimp only at hev
  split at hev
  · rename_i op' key' _
    obtain ⟨rfl, rfl⟩ : op' = op ∧ key' = key := by simpa using hev
    exact hok
  · simp at hev
  · simp at hev

end Multicore.Lab11.Optimistic
