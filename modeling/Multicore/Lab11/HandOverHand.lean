import Multicore.Lib.Ownership
import Multicore.Lib.SortedChain
import Multicore.Lab11.FineGrained

/-!
# Nobody passes a locked predecessor

The invariant of the hand-over-hand list.  It speaks about the *settled* heap (`State.settled`): the
heap as it will be when every insert that has made its first store has made its second one.  In the
settled heap the chain is never broken, and a thread takes everything it knows from there:

* **Locked nodes** (`Sits.live`).  A node that a thread has locked is in the chain, until the thread
  itself unlinks it.
* **Links** (`Sits.links`).  While a thread holds `prev`, the node behind `prev` is `curr`.
* **Nodes out of reach** (`Pc.Owns`, `Inv.cross`).  Nobody else has the address of a node that is
  not linked yet, of a node whose `next` is not stored yet, or of a node that has been unlinked.

The last point is the heart of the matter.  In the chain a node has one predecessor, and an address
comes from the pointer of a node that is locked (`Inv.not_owns_of_link`); so whoever holds the
predecessor of a node is the only one who can be on the way to it.
-/

namespace Multicore.Lab11.FineGrained

variable {τ : Type*} {s s' : State τ} {t u : τ}

/-! ## What a program counter knows -/

namespace Pc

/-- The addresses a thread has and may still use, other than that of a node it has unlinked. -/
def locals : Pc → List ℕ
  | .read _ prev => [prev]
  | .lockCurr _ prev curr | .test _ prev curr | .advance _ prev curr | .link _ prev curr
  | .setNext _ prev curr | .getNext _ prev curr => [prev, curr]
  | .unlink _ prev curr next => prev :: curr :: next.toList
  | .unlockPrev c prev curr b => if Removed c b then [prev] else [prev, curr]
  | .unlockCurr c curr b => if Removed c b then [] else [curr]
  | .idle | .lockHead _ | .free _ | .ret _ => []

/-- The nodes whose mutex a thread holds. -/
def held : Pc → List ℕ
  | .read _ prev | .lockCurr _ prev _ => [prev]
  | .test _ prev curr | .advance _ prev curr | .link _ prev curr | .setNext _ prev curr
  | .getNext _ prev curr | .unlink _ prev curr _ | .unlockPrev _ prev curr _ => [prev, curr]
  | .unlockCurr _ curr _ => [curr]
  | .idle | .lockHead _ | .free _ | .ret _ => []

/-- The pointers whose values a thread relies on. -/
def links : Pc → List (ℕ × Option ℕ)
  | .lockCurr _ prev curr | .test _ prev curr | .advance _ prev curr | .link _ prev curr
  | .getNext _ prev curr => [(prev, some curr)]
  | .setNext c prev _ => [(prev, some c.node)]
  | .unlink _ prev curr next => [(prev, some curr), (curr, next)]
  | _ => []

/-- The node a call of `list_add` has allocated and not linked yet, if it may still be linked. -/
def owned : Pc → Option (ℕ × ℤ)
  | .lockHead c | .read c _ | .lockCurr c _ _ | .test c _ _ | .advance c _ _ | .link c _ _ =>
      if c.op = .add then some (c.node, c.key) else none
  | _ => none

/-- Between the two stores of an insert: the second store. -/
def middle : Pc → Option (ℕ × ℕ)
  | .setNext c _ curr => some (c.node, curr)
  | _ => none

/-- The node a call of `list_remove` has unlinked and not freed yet. -/
def retired : Pc → Option ℕ
  | .unlockPrev c _ curr b | .unlockCurr c curr b => if Removed c b then some curr else none
  | .free curr => some curr
  | _ => none

/-- Nobody else has the address of this node. -/
def Owns (pc : Pc) (a : ℕ) : Prop :=
  (∃ k, pc.owned = some (a, k)) ∨ (∃ b, pc.middle = some (a, b)) ∨ pc.retired = some a

/-- How the keys of `prev` and `curr` lie. -/
def Fits (key : ℕ → ℤ) : Pc → Prop
  | .lockHead c => InRange c.key
  | .read c prev | .lockCurr c prev _ | .test c prev _ => InRange c.key ∧ key prev < c.key
  | .advance c _ curr => InRange c.key ∧ key curr < c.key
  | .link c prev curr => InRange c.key ∧ key prev < c.key ∧ c.key < key curr ∧ c.op = .add
  | .setNext c prev curr => key prev < key curr ∧ c.op = .add
  | .getNext c prev curr | .unlink c prev curr _ =>
      InRange c.key ∧ key prev < c.key ∧ key curr = c.key ∧ c.op = .remove
  | .unlockPrev _ prev curr _ => key prev < key curr
  | .idle | .unlockCurr _ _ _ | .free _ | .ret _ => True

variable {pc : Pc} {a p : ℕ} {o : Option ℕ} {key key' : ℕ → ℤ}

/-- The pointers a thread relies on are those of nodes it holds. -/
lemma held_of_links (h : (p, o) ∈ pc.links) : p ∈ pc.held ∧ pc.retired = none := by
  cases pc <;> simp_all [links, held, retired]
  tauto

/-- An address is that of a node the thread holds, or comes from a pointer it relies on. -/
lemma locals_cases (ha : a ∈ pc.locals) (hf : pc.Fits key) :
    a ∈ pc.held ∧ pc.retired ≠ some a ∨ ∃ p, (p, some a) ∈ pc.links := by
  cases pc <;> simp_all [held, locals, retired, links]
  case unlink => grind
  case unlockPrev c prev curr b =>
    have hne : curr ≠ prev := by
      rintro rfl
      exact lt_irrefl _ (show key curr < key curr from hf)
    grind

lemma links_of_middle {b : ℕ} (h : pc.middle = some (a, b)) : ∃ p, (p, some a) ∈ pc.links := by
  cases pc <;> simp_all [middle, links]

/-- Keys are only looked up at nodes whose mutex the thread holds, or holds the predecessor of. -/
lemma Fits.congr (h : pc.Fits key) (hk : ∀ a, a ∈ pc.held ∨ a ∈ pc.locals → key' a = key a) :
    pc.Fits key' := by
  cases pc <;> simp_all [Fits, locals, held]

end Pc

/-! ## The settled heap -/

/-- Some insert has still to store `b` into `a`. -/
def Missing (thread : τ → Pc) (a b : ℕ) : Prop := ∃ t, (thread t).middle = some (a, b)

open Classical in
/-- The pointers when all inserts have made their second store. -/
noncomputable def settle (next : ℕ → Option ℕ) (thread : τ → Pc) (a : ℕ) : Option ℕ :=
  if h : ∃ b, Missing thread a b then some h.choose else next a

/-- The heap when all inserts have made their second store. -/
noncomputable def State.settled (s : State τ) : Heap :=
  { s.heap with next := settle s.heap.next s.thread }

section Settle

variable {next next' : ℕ → Option ℕ} {thread thread' : τ → Pc} {a b : ℕ}

lemma settle_of_missing (h : Missing thread a b) (huniq : ∀ b', Missing thread a b' → b' = b) :
    settle next thread a = some b := by
  have hex : ∃ b, Missing thread a b := ⟨b, h⟩
  rw [settle, dif_pos hex, huniq _ hex.choose_spec]

lemma settle_of_not (h : ∀ b, ¬ Missing thread a b) : settle next thread a = next a :=
  dif_neg (not_exists.mpr h)

lemma settle_congr (hm : ∀ b, Missing thread' a b ↔ Missing thread a b)
    (hn : next' a = next a) : settle next' thread' a = settle next thread a := by
  have hfun : Missing thread' a = Missing thread a := funext fun b => propext (hm b)
  rw [settle, settle, hfun, hn]

/-- When no thread is between the two stores of an insert the heap is settled. -/
lemma State.settled_of_quiet (h : ∀ t, (s.thread t).middle = none) :
    s.settled.next = s.heap.next :=
  funext fun a => settle_of_not fun b ⟨t, ht⟩ => by simp [h t] at ht

variable [DecidableEq τ] {pc : Pc}

/-- What is missing after thread `t` has moved. -/
lemma missing_update : Missing (Function.update thread t pc) a b ↔
    pc.middle = some (a, b) ∨ ∃ u, u ≠ t ∧ (thread u).middle = some (a, b) := by
  constructor
  · rintro ⟨u, hu⟩
    rw [Function.update_apply] at hu
    split_ifs at hu with hut
    · exact .inl hu
    · exact .inr ⟨u, hut, hu⟩
  · rintro (h | ⟨u, hu, h⟩)
    · exact ⟨t, by rwa [Function.update_self]⟩
    · exact ⟨u, by rwa [Function.update_of_ne hu]⟩

/-- A thread moves from and to places that are not between the two stores, with respect to `a`. -/
lemma missing_update_iff (hold : (thread t).middle ≠ some (a, b)) (hnew : pc.middle ≠ some (a, b)) :
    Missing (Function.update thread t pc) a b ↔ Missing thread a b := by
  rw [missing_update]
  constructor
  · rintro (h | ⟨u, -, h⟩)
    · exact absurd h hnew
    · exact ⟨u, h⟩
  · rintro ⟨u, h⟩
    refine .inr ⟨u, ?_, h⟩
    rintro rfl
    exact hold h

lemma settle_update (hold : (thread t).middle = none) (hnew : pc.middle = none) :
    settle next (Function.update thread t pc) = settle next thread :=
  funext fun _ => settle_congr
    (fun _ => missing_update_iff (by simp [hold]) (by simp [hnew])) rfl

end Settle

/-! ## The invariant -/

/-- What a thread may rely on at its program counter. -/
structure Sits (v : Heap) (pc : Pc) : Prop where
  fits : pc.Fits v.key
  live : ∀ a ∈ pc.held, pc.retired ≠ some a → Leads v.next head a
  links : ∀ p o, (p, o) ∈ pc.links → v.next p = o
  own : ∀ a k, pc.owned = some (a, k) →
    2 ≤ a ∧ a < v.alloc ∧ v.key a = k ∧ v.freed a = false ∧ ∀ b, v.next b ≠ some a
  retired : ∀ a, pc.retired = some a → a < v.alloc ∧ v.freed a = false ∧ ¬ Leads v.next head a

/-- A heap whose chain is sorted and contains no freed node. -/
structure Heap.Ok (v : Heap) : Prop where
  chain : SortedChain v.next v.key head tail
  keyHead : v.key head = intMin
  keyTail : v.key tail = intMax
  two : 2 ≤ v.alloc
  fresh : ∀ a, v.alloc ≤ a → v.next a = none ∧ v.freed a = false
  target : ∀ a b, v.next a = some b → b < v.alloc
  dead : ∀ a, v.freed a = true → ¬ Leads v.next head a

/-- The invariant of the list. -/
structure Inv (s : State τ) : Prop where
  heap : s.settled.Ok
  sits : ∀ t, Sits s.settled (s.thread t)
  cross : Ownership (fun pc a => a ∈ pc.held) (fun pc a => a ∈ pc.locals) Pc.Owns s.mutex s.thread

lemma inv_init : Inv (State.start τ) := by
  have hset : (State.start τ).settled.next = (State.start τ).heap.next :=
    State.settled_of_quiet fun _ => rfl
  have hnext : ∀ a b, (State.start τ).heap.next a = some b → a = head ∧ b = tail := by
    intro a b hab
    simp only [State.start] at hab
    split_ifs at hab with ha
    exact ⟨ha, (Option.some.inj hab).symm⟩
  have hhead : (State.start τ).heap.next head = some tail := rfl
  refine ⟨⟨⟨fun a b hab => ?_, ?_, ?_⟩, rfl, rfl, le_rfl, fun a ha => ⟨?_, rfl⟩, fun a b hab => ?_,
    fun a ha => ?_⟩, fun t => ?_, ?_⟩
  · rw [hset] at hab
    obtain ⟨rfl, rfl⟩ := hnext a b hab
    show intMin < intMax
    decide
  · rw [hset]
    exact (Leads.refl head).tail hhead
  · rw [hset]
    rfl
  · rw [hset]
    refine if_neg ?_
    rintro rfl
    exact absurd (show 2 ≤ head from ha) (by decide)
  · rw [hset] at hab
    obtain ⟨rfl, rfl⟩ := hnext a b hab
    show tail < 2
    decide
  · exact absurd ha Bool.false_ne_true
  · show Sits _ Pc.idle
    constructor <;> simp [Pc.Fits, Pc.held, Pc.links, Pc.owned, Pc.retired]
  · constructor <;> simp [State.start, Pc.held, Pc.Owns, Pc.owned, Pc.middle, Pc.retired]

/-- A node that is not linked yet is neither `head` nor behind a pointer. -/
lemma Sits.not_leads_of_owned {v : Heap} {pc : Pc} {a : ℕ} {k : ℤ} (h : Sits v pc)
    (ho : pc.owned = some (a, k)) : ¬ Leads v.next head a := by
  obtain ⟨htwo, -, -, -, hno⟩ := h.own a k ho
  intro ha
  rcases Relation.ReflTransGen.cases_tail ha with rfl | ⟨b, -, hb⟩
  · exact absurd htwo (by decide)
  · exact hno b hb

namespace Heap.Ok

variable {v : Heap} {a : ℕ}

/-- What is in the chain has been allocated, and has not been freed. -/
lemma lt_alloc (h : v.Ok) (ha : Leads v.next head a) : a < v.alloc := by
  rcases Relation.ReflTransGen.cases_tail ha with rfl | ⟨b, -, hb⟩
  · exact lt_of_lt_of_le (by decide) h.two
  · exact h.target b _ hb

lemma not_freed (h : v.Ok) (ha : Leads v.next head a) : v.freed a = false := by
  by_contra hf
  exact h.dead a (Bool.eq_true_of_not_eq_false hf) ha

/-- A node with a smaller key than `tail` has a pointer. -/
lemma next_isSome (h : v.Ok) (ha : Leads v.next head a) (hk : v.key a < intMax) :
    ∃ b, v.next a = some b := by
  refine Option.ne_none_iff_exists'.mp (h.chain.next_ne_none ha ?_)
  rintro rfl
  exact absurd h.keyTail hk.ne

end Heap.Ok

namespace Inv

variable (h : Inv s)

include h

/-- A pointer a thread relies on is that of a node in the chain. -/
lemma leads_of_links {p : ℕ} {o : Option ℕ} (hp : (p, o) ∈ (s.thread t).links) :
    Leads s.settled.next head p :=
  (h.sits t).live p (Pc.held_of_links hp).1 (by simp [(Pc.held_of_links hp).2])

/-- A thread can be on the way to a node from one place only: its predecessor in the chain. -/
lemma mem_held_of_links {p a : ℕ} (hp : Leads s.settled.next head p)
    (hpa : s.settled.next p = some a) {q : ℕ} (hq : (q, some a) ∈ (s.thread u).links) :
    p ∈ (s.thread u).held := by
  rw [h.heap.chain.pred_unique hp (h.leads_of_links hq) hpa ((h.sits u).links _ _ hq)]
  exact (Pc.held_of_links hq).1

/-- What a node in the chain can be to a thread that owns it: a node between the two stores. -/
lemma links_of_owns {a : ℕ} (ha : Leads s.settled.next head a) (ho : (s.thread u).Owns a) :
    ∃ p, (p, some a) ∈ (s.thread u).links := by
  rcases ho with ⟨k, ho⟩ | ⟨b, hb⟩ | hr
  · exact absurd ha ((h.sits u).not_leads_of_owned ho)
  · exact Pc.links_of_middle hb
  · exact absurd ha ((h.sits u).retired a hr).2.2

/-- `head` is out of nobody's reach. -/
lemma not_owns_head : ¬ (s.thread u).Owns head := by
  intro ho
  obtain ⟨p, hp⟩ := h.links_of_owns (.refl head) ho
  have hlt := h.heap.chain.order _ _ ((h.sits u).links _ _ hp)
  exact absurd (h.heap.chain.key_le (h.leads_of_links hp)) hlt.not_ge

/-- **Whoever holds the predecessor of a node** is the only thread that may own it. -/
lemma not_owns_of_link (hu : u ≠ t) {p a : ℕ} (hp : p ∈ (s.thread t).held)
    (hreach : Leads s.settled.next head p) (hpa : s.settled.next p = some a) :
    ¬ (s.thread u).Owns a := by
  intro ho
  obtain ⟨q, hq⟩ := h.links_of_owns (hreach.tail hpa) ho
  exact h.cross.excl u t p hu (h.mem_held_of_links hreach hpa hq) hp

/-- **Whoever holds a node and its predecessor** is the only thread that knows it. -/
lemma not_knows_of_link (hu : u ≠ t) {p a : ℕ} (hp : p ∈ (s.thread t).held)
    (ha : a ∈ (s.thread t).held) (hreach : Leads s.settled.next head p)
    (hpa : s.settled.next p = some a) : a ∉ (s.thread u).locals := by
  intro hk
  rcases Pc.locals_cases hk (h.sits u).fits with ⟨hheld, -⟩ | ⟨q, hq⟩
  · exact h.cross.excl u t a hu hheld ha
  · exact h.cross.excl u t p hu (h.mem_held_of_links hreach hpa hq) hp

/-- The addresses a thread has are those of nodes in the chain. -/
lemma leads_of_locals {a : ℕ} (ha : a ∈ (s.thread t).locals) : Leads s.settled.next head a := by
  rcases Pc.locals_cases ha (h.sits t).fits with ⟨hheld, hr⟩ | ⟨p, hp⟩
  · exact (h.sits t).live a hheld hr
  · exact (h.leads_of_links hp).tail ((h.sits t).links _ _ hp)

/-- A pointer that a thread reads is settled. -/
lemma next_eq {a : ℕ} (ha : a ∈ (s.thread t).locals) : s.settled.next a = s.heap.next a :=
  settle_of_not fun b ⟨u, hu⟩ => h.cross.apart u t a (.inr (.inl ⟨b, hu⟩)) ha

/-- Only one store is missing at a node. -/
lemma missing_unique {a b b' : ℕ} (hb : (s.thread t).middle = some (a, b))
    (hb' : Missing s.thread a b') : b' = b := by
  obtain ⟨u, hu⟩ := hb'
  obtain rfl := h.cross.distinct t u a (.inr (.inl ⟨b, hb⟩)) (.inr (.inl ⟨b', hu⟩))
  simpa using hu.symm.trans hb

/-- What `list_remove` has read of `curr->next` is a node. -/
lemma unlink_next {c : Args} {prev curr : ℕ} {next : Option ℕ}
    (hpc : s.thread t = .unlink c prev curr next) :
    s.settled.next curr = next ∧ ∃ n, next = some n := by
  have hsits := h.sits t
  rw [hpc] at hsits
  obtain ⟨hrange, -, hcurr, -⟩ := hsits.fits
  have hknown : s.settled.next curr = next := hsits.links curr next (by simp [Pc.links])
  have hreach := hsits.live curr (by simp [Pc.held]) (by simp [Pc.retired])
  obtain ⟨n, hn⟩ := h.heap.next_isSome hreach (hcurr ▸ hrange.2)
  exact ⟨hknown, n, hknown.symm.trans hn⟩

end Inv

end Multicore.Lab11.FineGrained
