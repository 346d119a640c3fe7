import Multicore.Lab11.FineGrained
import Multicore.Lib.Segment

/-!
# The list under one mutex

`lab11/coarse_grained.cpp`.  Every call has the one mutex from its first look at the list to its
last, so calls happen one after the other, and a call is a function on the heap.  `none` is a call
that does not come back: it follows a null pointer or a freed node, or its loop goes on for ever.

* `listInit`, `listAdd`, `listRemove`, `listContains` — the functions of the program.  Nodes are
  addresses, used once, as in the hand-over-hand list.
* `IsSet h S` — the nodes between `head` and `tail` have the keys `S`, in increasing order, and the
  chain ends behind `tail`.
* **`behaves_as_set_iff`** — a sequence of calls behaves as on a set of `int`s exactly when no call
  has the key `INT_MAX`.  The key of `tail` is compared like any other; that of `head` never is,
  and `INT_MIN` is a key like the others.
-/

namespace Multicore.Lab11.CoarseGrained

open FineGrained (Heap)

/-! ## The functions -/

/-- `list_init`. -/
def listInit : Heap where
  key a := if a = head then intMin else intMax
  next a := if a = head then some tail else none
  freed _ := false
  alloc := 2

/-- The node behind a pointer that is followed. -/
def deref (h : Heap) (p : Option ℕ) : Option ℕ := p.filter fun a => !h.freed a

/-- `while (curr->key < key) { prev = curr; curr = curr->next; }`, at most `n` times. -/
def search (h : Heap) (key : ℤ) : ℕ → ℕ → Option ℕ → Option (ℕ × ℕ)
  | 0, _, _ => none
  | n + 1, prev, curr =>
      (deref h curr).bind fun a =>
        if h.key a < key then search h key n a (h.next a) else some (prev, a)

/-- The search from `head`.  There are `alloc` nodes, and a loop that meets more of them than that
meets one of them again and again. -/
def find (h : Heap) (key : ℤ) : Option (ℕ × ℕ) := search h key h.alloc head (h.next head)

/-- `list_add`. -/
def listAdd (h₀ : Heap) (key : ℤ) : Option (Heap × Bool) :=
  let node := h₀.alloc
  let h := h₀.malloc key
  (find h key).map fun (prev, curr) =>
    if h.key curr = key then (h, false)
    else ((h.setNext prev (some node)).setNext node (some curr), true)

/-- `list_remove`. -/
def listRemove (h : Heap) (key : ℤ) : Option (Heap × Bool) :=
  (find h key).map fun (prev, curr) =>
    if h.key curr ≠ key then (h, false)
    else ((h.setNext prev (h.next curr)).free curr, true)

/-- `list_contains`. -/
def listContains (h : Heap) (key : ℤ) : Option (Heap × Bool) :=
  (find h key).map fun (_, curr) => (h, decide (h.key curr = key))

/-- A call. -/
def call (h : Heap) (c : Call) : Option (Heap × Bool) :=
  match c.op with
  | .add => listAdd h c.key
  | .remove => listRemove h c.key
  | .contains => listContains h c.key

/-- The calls one after the other, with their results. -/
def exec (calls : List Call) : Option (Heap × List Bool) :=
  calls.foldlM (fun (h, rets) c => (call h c).map fun (h', ret) => (h', rets ++ [ret]))
    (listInit, [])

/-- The same calls on a set. -/
noncomputable def execSet (calls : List Call) : Set ℤ × List Bool :=
  calls.foldl (fun (S, rets) c => ((intSet.apply c S).1, rets ++ [(intSet.apply c S).2]))
    (intSet.init, [])

/-! ## What the list should be -/

/-- The keys between `head` and `tail` are those of `S`, in strictly increasing order, and the chain
ends behind `tail`. -/
def IsSet (h : Heap) (S : Set ℤ) : Prop :=
  ∃ l : List ℕ, Segment h.next (some head) (head :: (l ++ [tail])) none ∧
    (l.map h.key).Pairwise (· < ·) ∧ ∀ k, k ∈ l.map h.key ↔ k ∈ S

/-- After every call the results are those of a set, and the list is that set. -/
def BehavesAsSet (calls : List Call) : Prop :=
  ∀ n ≤ calls.length, ∃ h, exec (calls.take n) = some (h, (execSet (calls.take n)).2) ∧
    IsSet h (execSet (calls.take n)).1

/-- The keys a caller can pass. -/
def IsInt (key : ℤ) : Prop := intMin ≤ key ∧ key ≤ intMax

instance (key : ℤ) : Decidable (IsInt key) :=
  inferInstanceAs (Decidable (intMin ≤ key ∧ key ≤ intMax))

lemma exec_snoc (calls : List Call) (c : Call) : exec (calls ++ [c]) =
    (exec calls).bind fun x => (call x.1 c).map fun y => (y.1, x.2 ++ [y.2]) := by
  simp only [exec, List.foldlM_append, List.foldlM_cons, List.foldlM_nil, bind_pure]
  rfl

lemma execSet_snoc (calls : List Call) (c : Call) : execSet (calls ++ [c]) =
    ((intSet.apply c (execSet calls).1).1,
      (execSet calls).2 ++ [(intSet.apply c (execSet calls).1).2]) := by
  simp only [execSet, List.foldl_append, List.foldl_cons, List.foldl_nil]

/-! ## The invariant -/

variable {h : Heap} {l l₁ l₂ pre post : List ℕ} {S : Set ℤ} {key : ℤ} {p c n : ℕ}

/-- The list between two calls; `l` are the nodes between the sentinels. -/
structure Inv (h : Heap) (l : List ℕ) : Prop where
  chain : Segment h.next (some head) (head :: (l ++ [tail])) none
  sorted : (l.map h.key).Pairwise (· < ·)
  below : ∀ a ∈ l, h.key a < intMax
  keyTail : h.key tail = intMax
  lt_alloc : ∀ a ∈ head :: (l ++ [tail]), a < h.alloc
  notFreed : ∀ a ∈ head :: (l ++ [tail]), h.freed a = false
  fresh : ∀ a, h.alloc ≤ a → h.freed a = false

lemma inv_init : Inv listInit [] := by
  refine ⟨by simp [listInit, head, tail], List.Pairwise.nil, by simp, rfl, ?_, fun _ _ => rfl,
    fun _ _ => rfl⟩
  simp [listInit, head, tail]

/-- There are no more nodes in the list than have been allocated. -/
lemma Inv.length_lt (hinv : Inv h l) : l.length + 1 < h.alloc := by
  have hsub : (head :: (l ++ [tail])).Subperm (List.range h.alloc) :=
    hinv.chain.nodup.subperm fun a ha => List.mem_range.mpr (hinv.lt_alloc a ha)
  have hle := hsub.length_le
  simp only [List.length_cons, List.length_append, List.length_nil, List.length_range] at hle
  omega

/-! ## The search -/

/-- Where a search from `first` stops: the nodes `l₁` with smaller keys end with `prev`, the other
ones begin with `curr`. -/
structure Found (h : Heap) (key : ℤ) (first : ℕ) (l l₁ l₂ pre post : List ℕ) (p c : ℕ) : Prop where
  eq : l = l₁ ++ l₂
  prev : first :: l₁ = pre ++ [p]
  curr : l₂ ++ [tail] = c :: post
  smaller : ∀ a ∈ l₁, h.key a < key
  rest : ∀ a ∈ l₂, key ≤ h.key a

lemma deref_of_notFreed {a : ℕ} (ha : h.freed a = false) : deref h (some a) = some a := by
  simp [deref, Option.filter, ha]

lemma search_found {q : Option ℕ} {first : ℕ} (hseg : Segment h.next q (l ++ [tail]) none)
    (hsort : (l.map h.key).Pairwise (· < ·)) (hfree : ∀ a ∈ l ++ [tail], h.freed a = false)
    (htail : key ≤ h.key tail) (hn : l.length < n) :
    ∃ l₁ l₂ pre post p c, Found h key first l l₁ l₂ pre post p c ∧
      search h key n first q = some (p, c) := by
  induction l generalizing q first n with
  | nil =>
      obtain ⟨n, rfl⟩ := Nat.exists_eq_add_of_lt hn
      refine ⟨[], [], [], [], first, tail, ⟨rfl, rfl, rfl, by simp, by simp⟩, ?_⟩
      obtain rfl := hseg.1
      simp [search, deref_of_notFreed (hfree tail (by simp)), htail.not_gt]
  | cons a l ih =>
      obtain ⟨n, rfl⟩ : ∃ n', n = n' + 1 := ⟨n - 1, by simp at hn; omega⟩
      obtain ⟨rfl, hrest⟩ := hseg
      simp only [List.map_cons, List.pairwise_cons, List.mem_map, forall_exists_index, and_imp,
        forall_apply_eq_imp_iff₂] at hsort
      have ha : deref h (some a) = some a := deref_of_notFreed (hfree a (by simp))
      by_cases hlt : h.key a < key
      · have hfree' : ∀ b ∈ l ++ [tail], h.freed b = false := fun b hb =>
          hfree b (List.mem_cons_of_mem a hb)
        obtain ⟨l₁, l₂, pre, post, p, c, hf, hs⟩ :
            ∃ l₁ l₂ pre post p c, Found h key a l l₁ l₂ pre post p c ∧
              search h key n a (h.next a) = some (p, c) :=
          ih hrest hsort.2 hfree' (by simpa using hn)
        refine ⟨a :: l₁, l₂, first :: pre, post, p, c, ⟨?_, ?_, hf.curr, ?_, hf.rest⟩, ?_⟩
        · rw [hf.eq, List.cons_append]
        · rw [hf.prev, List.cons_append]
        · exact List.forall_mem_cons.mpr ⟨hlt, hf.smaller⟩
        · simp [search, ha, hlt, hs]
      · refine ⟨[], a :: l, [], l ++ [tail], first, a, ⟨rfl, rfl, rfl, by simp, ?_⟩, ?_⟩
        · refine List.forall_mem_cons.mpr ⟨not_lt.mp hlt, fun b hb => ?_⟩
          exact (not_lt.mp hlt).trans (hsort.1 b hb).le
        · simp [search, ha, hlt]

/-- **Every search comes to an end**, at two adjacent nodes around the key. -/
lemma Inv.find_found (hinv : Inv h l) (hkey : key ≤ intMax) :
    ∃ l₁ l₂ pre post p c, Found h key head l l₁ l₂ pre post p c ∧ find h key = some (p, c) :=
  search_found hinv.chain.2 hinv.sorted (fun a ha => hinv.notFreed a (List.mem_cons_of_mem _ ha))
    (by rw [hinv.keyTail]; exact hkey) (by have := hinv.length_lt; omega)

namespace Found

/-- Whatever follows the smaller keys follows `prev`. -/
lemma front (hf : Found h key head l l₁ l₂ pre post p c) (m : List ℕ) :
    head :: (l₁ ++ m) = pre ++ p :: m := by
  rw [← List.cons_append, hf.prev, List.append_assoc, List.singleton_append]

lemma whole (hf : Found h key head l l₁ l₂ pre post p c) :
    head :: (l ++ [tail]) = pre ++ p :: c :: post := by
  rw [hf.eq, List.append_assoc, hf.front, hf.curr]

/-- Either the search stopped at the end, or at a node of the list. -/
lemma curr_cases (hf : Found h key head l l₁ l₂ pre post p c) :
    l₂ = [] ∧ c = tail ∨ ∃ l₃, l₂ = c :: l₃ := by
  have hc := hf.curr
  cases l₂ with
  | nil => exact .inl ⟨rfl, (List.cons.inj hc).1.symm⟩
  | cons a l₃ => exact .inr ⟨l₃, by rw [(List.cons.inj hc).1]⟩

/-- The node where the search stopped tells whether the key is in the list. -/
lemma key_eq_iff (hf : Found h key head l l₁ l₂ pre post p c) (hinv : Inv h l)
    (hkey : key < intMax) : h.key c = key ↔ key ∈ l.map h.key := by
  rw [List.mem_map]
  rcases hf.curr_cases with ⟨rfl, rfl⟩ | ⟨l₃, rfl⟩
  · constructor
    · intro hc
      exact absurd (hinv.keyTail.symm.trans hc) hkey.ne'
    · rintro ⟨a, ha, rfl⟩
      rw [hf.eq, List.append_nil] at ha
      exact absurd (hf.smaller a ha) (lt_irrefl _)
  · constructor
    · intro hc
      exact ⟨c, by rw [hf.eq]; simp, hc⟩
    · rintro ⟨a, ha, rfl⟩
      have hsort := hinv.sorted
      rw [hf.eq, List.map_append, List.pairwise_append, List.map_cons, List.pairwise_cons] at hsort
      rw [hf.eq, List.mem_append, List.mem_cons] at ha
      rcases ha with ha | rfl | ha
      · exact absurd (hf.smaller a ha) (lt_irrefl _)
      · rfl
      · exact absurd (hsort.2.1.1 _ (List.mem_map_of_mem ha)) (hf.rest c (by simp)).not_gt

end Found

/-! ## The stores -/

/-- The nodes of the list keep their keys when a new node is allocated. -/
lemma Inv.malloc_key (hinv : Inv h l) (key : ℤ) {a : ℕ} (ha : a ∈ head :: (l ++ [tail])) :
    (h.malloc key).key a = h.key a :=
  Function.update_of_ne (hinv.lt_alloc a ha).ne _ _

lemma Inv.map_malloc (hinv : Inv h l) (key : ℤ) : l.map (h.malloc key).key = l.map h.key :=
  List.map_congr_left fun _ ha => hinv.malloc_key key (by simp [ha])

/-- A new node is not noticed. -/
lemma Inv.malloc (hinv : Inv h l) (key : ℤ) : Inv (h.malloc key) l := by
  refine ⟨hinv.chain.congr fun a ha => Function.update_of_ne (hinv.lt_alloc a ha).ne _ _, ?_,
    fun a ha => ?_, ?_, fun a ha => (hinv.lt_alloc a ha).trans (Nat.lt_succ_self _), hinv.notFreed,
    fun a ha => hinv.fresh a ((Nat.le_succ _).trans ha)⟩
  · rw [hinv.map_malloc]
    exact hinv.sorted
  · rw [hinv.malloc_key key (by simp [ha])]
    exact hinv.below a ha
  · rw [hinv.malloc_key key (by simp)]
    exact hinv.keyTail

/-- The pointers after `prev->next = node; node->next = curr`. -/
lemma segment_link (hf : Found h key head l l₁ l₂ pre post p c) (hinv : Inv h l)
    (hn : n ∉ head :: (l ++ [tail])) :
    Segment ((h.setNext p (some n)).setNext n (some c)).next (some head)
      (head :: (l₁ ++ n :: l₂ ++ [tail])) none := by
  have hchain := hinv.chain
  rw [hf.whole] at hchain hn
  have hpn : p ≠ n := fun heq => hn (by simp [heq])
  have hpc : h.next p = some c := (segment_middle.mp hchain).2.1
  rw [List.append_assoc, hf.front, List.cons_append, hf.curr]
  refine hchain.insert ?_ ?_ fun b hb => ?_
  · simp [Heap.setNext, Function.update_of_ne hpn]
  · simp [Heap.setNext, hpc]
  · have hbn : b ≠ n := fun heq => hn (by simp_all)
    have hbp : b ≠ p := fun heq => hchain.notMem (heq ▸ hb)
    simp [Heap.setNext, Function.update_of_ne hbn, Function.update_of_ne hbp]

/-- A node with a new key is linked at its place. -/
lemma Inv.link (hinv : Inv h l) (hf : Found h key head l l₁ l₂ pre post p c)
    (hn : n ∉ head :: (l ++ [tail])) (halloc : n < h.alloc) (hfree : h.freed n = false)
    (hkey : h.key n = key) (hne : h.key c ≠ key) (hmax : key < intMax) :
    Inv ((h.setNext p (some n)).setNext n (some c)) (l₁ ++ n :: l₂) := by
  have hmem : ∀ a, a ∈ head :: (l₁ ++ n :: l₂ ++ [tail]) ↔ a = n ∨ a ∈ head :: (l ++ [tail]) := by
    intro a
    rw [hf.eq]
    simp only [List.mem_cons, List.mem_append]
    tauto
  have hrest : ∀ a ∈ l₂, key < h.key a := by
    intro a ha
    refine lt_of_le_of_ne (hf.rest a ha) fun heq => hne ?_
    rw [hf.key_eq_iff hinv hmax, hf.eq]
    exact List.mem_map.mpr ⟨a, by simp [ha], heq.symm⟩
  have hsort := hinv.sorted
  have hbelow := hinv.below
  rw [hf.eq] at hsort hbelow
  refine ⟨segment_link hf hinv hn, ?_, fun a ha => ?_, hinv.keyTail, fun a ha => ?_,
    fun a ha => ?_, hinv.fresh⟩
  · simp only [List.map_append, List.map_cons, List.pairwise_append, List.pairwise_cons,
      List.mem_cons, List.forall_mem_map] at hsort ⊢
    refine ⟨hsort.1, ⟨fun a ha => ?_, hsort.2.1⟩, fun a ha k hk => ?_⟩
    · exact hkey.trans_lt (hrest a ha)
    · rcases hk with rfl | hk
      · exact (hf.smaller a ha).trans_eq hkey.symm
      · obtain ⟨b, hb, rfl⟩ := List.mem_map.mp hk
        exact hsort.2.2 a ha b hb
  · rcases List.mem_append.mp ha with ha | ha
    · exact hbelow a (List.mem_append_left _ ha)
    · rcases List.mem_cons.mp ha with rfl | ha
      · exact hkey.trans_lt hmax
      · exact hbelow a (List.mem_append_right _ ha)
  · rcases (hmem a).mp ha with rfl | ha
    · exact halloc
    · exact hinv.lt_alloc a ha
  · rcases (hmem a).mp ha with rfl | ha
    · exact hfree
    · exact hinv.notFreed a ha

/-- The first node that is not smaller is unlinked and freed. -/
lemma Inv.unlink {l₃ : List ℕ} (hinv : Inv h l) (hf : Found h key head l l₁ l₂ pre post p c)
    (hl₂ : l₂ = c :: l₃) : Inv ((h.setNext p (h.next c)).free c) (l₁ ++ l₃) := by
  subst hl₂
  obtain rfl : l₃ ++ [tail] = post := (List.cons.inj hf.curr).2
  have hchain := hinv.chain
  rw [hf.whole] at hchain
  have hkeep : ∀ a ∈ head :: (l₁ ++ l₃ ++ [tail]), a ∈ head :: (l ++ [tail]) ∧ a ≠ c := by
    intro a ha
    rw [List.append_assoc, hf.front] at ha
    rw [hf.whole]
    constructor
    · simp only [List.mem_append, List.mem_cons] at ha ⊢
      tauto
    · exact ne_of_mem_of_not_mem ha hchain.next_notMem
  have hsort := hinv.sorted
  have hbelow := hinv.below
  rw [hf.eq] at hsort hbelow
  refine ⟨?_, ?_, fun a ha => ?_, hinv.keyTail, fun a ha => ?_, fun a ha => ?_, fun a ha => ?_⟩
  · rw [List.append_assoc, hf.front]
    exact hchain.unlink
  · refine hsort.sublist ?_
    exact ((List.sublist_cons_self c l₃).append_left l₁).map h.key
  · exact hbelow a (((List.sublist_cons_self c l₃).append_left l₁).subset ha)
  · exact hinv.lt_alloc a (hkeep a ha).1
  · show Function.update h.freed c true a = false
    rw [Function.update_of_ne (hkeep a ha).2]
    exact hinv.notFreed a (hkeep a ha).1
  · show Function.update h.freed c true a = false
    have hlt : c < h.alloc := hinv.lt_alloc c (by rw [hf.whole]; simp)
    rw [Function.update_of_ne (hlt.trans_le ha).ne']
    exact hinv.fresh a ha

/-! ## The calls -/

/-- The list is `S`, and in order. -/
def Represents (h : Heap) (S : Set ℤ) : Prop :=
  ∃ l, Inv h l ∧ ∀ k, k ∈ l.map h.key ↔ k ∈ S

lemma Represents.isSet (hr : Represents h S) : IsSet h S := by
  obtain ⟨l, hinv, hmem⟩ := hr
  exact ⟨l, hinv.chain, hinv.sorted, hmem⟩

/-- `list_add` inserts a key below `INT_MAX`. -/
lemma listAdd_spec (hr : Represents h S) (hkey : key < intMax) :
    ∃ h', listAdd h key = some (h', (intSet.apply ⟨.add, key⟩ S).2) ∧
      Represents h' (intSet.apply ⟨.add, key⟩ S).1 := by
  obtain ⟨l, hinv, hmem⟩ := hr
  have hinv' := hinv.malloc key
  obtain ⟨l₁, l₂, pre, post, p, c, hf, hfind⟩ := hinv'.find_found hkey.le
  have hiff := hf.key_eq_iff hinv' hkey
  rw [hinv.map_malloc, hmem] at hiff
  simp only [listAdd, hfind, Option.map_some]
  by_cases hk : key ∈ S
  · rw [intSet_add_of_mem hk, if_pos (hiff.mpr hk)]
    exact ⟨_, rfl, l, hinv', fun k => by rw [hinv.map_malloc, hmem]⟩
  · rw [intSet_add_of_notMem hk, if_neg fun hc => hk (hiff.mp hc)]
    have hn : h.alloc ∉ head :: (l ++ [tail]) := fun ha => (hinv.lt_alloc _ ha).ne rfl
    have hkeyn : (h.malloc key).key h.alloc = key := Function.update_self _ _ _
    refine ⟨_, rfl, l₁ ++ h.alloc :: l₂, hinv'.link hf hn (Nat.lt_succ_self _)
      (hinv.fresh _ le_rfl) hkeyn (fun hc => hk (hiff.mp hc)) hkey, fun k => ?_⟩
    have hold : k ∈ (l₁ ++ l₂).map (h.malloc key).key ↔ k ∈ S := by
      rw [← hf.eq, hinv.map_malloc, hmem]
    show k ∈ (l₁ ++ h.alloc :: l₂).map (h.malloc key).key ↔ k ∈ insert key S
    simp only [List.map_append, List.map_cons, List.mem_append, List.mem_cons, hkeyn,
      Set.mem_insert_iff, ← hold]
    tauto

/-- `list_remove` removes a key below `INT_MAX`. -/
lemma listRemove_spec (hr : Represents h S) (hkey : key < intMax) :
    ∃ h', listRemove h key = some (h', (intSet.apply ⟨.remove, key⟩ S).2) ∧
      Represents h' (intSet.apply ⟨.remove, key⟩ S).1 := by
  obtain ⟨l, hinv, hmem⟩ := hr
  obtain ⟨l₁, l₂, pre, post, p, c, hf, hfind⟩ := hinv.find_found hkey.le
  have hiff := hf.key_eq_iff hinv hkey
  rw [hmem] at hiff
  simp only [listRemove, hfind, Option.map_some]
  by_cases hk : key ∈ S
  · rw [intSet_remove_of_mem hk, if_neg (not_not.mpr (hiff.mpr hk))]
    rcases hf.curr_cases with ⟨-, rfl⟩ | ⟨l₃, hl₂⟩
    · exact absurd (hinv.keyTail.symm.trans (hiff.mpr hk)) hkey.ne'
    · refine ⟨_, rfl, l₁ ++ l₃, hinv.unlink hf hl₂, fun k => ?_⟩
      have hall : l.map h.key = l₁.map h.key ++ key :: l₃.map h.key := by
        rw [hf.eq, hl₂, List.map_append, List.map_cons, hiff.mpr hk]
      have hnd : (l.map h.key).Nodup := hinv.sorted.imp fun hlt => hlt.ne
      rw [hall, List.nodup_middle, List.nodup_cons] at hnd
      show k ∈ (l₁ ++ l₃).map h.key ↔ k ∈ S \ {key}
      rw [Set.mem_sdiff, Set.mem_singleton_iff, ← hmem, hall, List.map_append]
      simp only [List.mem_append, List.mem_cons] at hnd ⊢
      constructor
      · intro hin
        exact ⟨hin.imp_right .inr, fun heq => hnd.1 (heq ▸ hin)⟩
      · rintro ⟨hin | rfl | hin, hne⟩
        · exact .inl hin
        · exact absurd rfl hne
        · exact .inr hin
  · rw [intSet_remove_of_notMem hk, if_pos fun hc => hk (hiff.mp hc)]
    exact ⟨_, rfl, l, hinv, hmem⟩

/-- `list_contains` finds a key below `INT_MAX`. -/
lemma listContains_spec (hr : Represents h S) (hkey : key < intMax) :
    ∃ h', listContains h key = some (h', (intSet.apply ⟨.contains, key⟩ S).2) ∧
      Represents h' (intSet.apply ⟨.contains, key⟩ S).1 := by
  obtain ⟨l, hinv, hmem⟩ := hr
  obtain ⟨l₁, l₂, pre, post, p, c, hf, hfind⟩ := hinv.find_found hkey.le
  have hiff := hf.key_eq_iff hinv hkey
  rw [hmem] at hiff
  simp only [listContains, hfind, Option.map_some]
  rw [intSet_contains (decide (h.key c = key)) (by rw [decide_eq_true_eq, hiff])]
  exact ⟨h, rfl, l, hinv, hmem⟩

lemma call_spec (hr : Represents h S) {c : Call} (hkey : c.key < intMax) :
    ∃ h', call h c = some (h', (intSet.apply c S).2) ∧ Represents h' (intSet.apply c S).1 := by
  obtain ⟨op, key⟩ := c
  cases op with
  | add => exact listAdd_spec hr hkey
  | remove => exact listRemove_spec hr hkey
  | contains => exact listContains_spec hr hkey

/-- With the key `INT_MAX` the search stops at `tail`, which has that key. -/
lemma Inv.find_max (hinv : Inv h l) : ∃ p, find h intMax = some (p, tail) := by
  obtain ⟨l₁, l₂, pre, post, p, c, hf, hfind⟩ := hinv.find_found le_rfl
  rcases hf.curr_cases with ⟨-, rfl⟩ | ⟨l₃, rfl⟩
  · exact ⟨p, hfind⟩
  · have hc : c ∈ l := by rw [hf.eq]; simp
    exact absurd (hf.rest c (by simp)) (hinv.below c hc).not_ge

/-- A call with the key `INT_MAX` returns the wrong result. -/
lemma call_max (hr : Represents h S) {c : Call} (hkey : c.key = intMax) :
    ∃ h' ret, call h c = some (h', ret) ∧ ret ≠ (intSet.apply c S).2 := by
  obtain ⟨l, hinv, hmem⟩ := hr
  obtain ⟨op, key⟩ := c
  obtain rfl : key = intMax := hkey
  have hnot : intMax ∉ S := by
    rw [← hmem]
    intro hk
    obtain ⟨a, ha, heq⟩ := List.mem_map.mp hk
    exact absurd heq (hinv.below a ha).ne
  cases op with
  | add =>
      have hinv' := hinv.malloc intMax
      obtain ⟨p, hp⟩ := hinv'.find_max
      rw [intSet_add_of_notMem hnot]
      simp only [call, listAdd, hp, Option.map_some, hinv'.keyTail, if_true]
      exact ⟨_, _, rfl, by simp⟩
  | remove =>
      obtain ⟨p, hp⟩ := hinv.find_max
      rw [intSet_remove_of_notMem hnot]
      simp only [call, listRemove, hp, Option.map_some, hinv.keyTail, ne_eq, not_true, if_false]
      exact ⟨_, _, rfl, by simp⟩
  | contains =>
      obtain ⟨p, hp⟩ := hinv.find_max
      rw [intSet_contains false (by simp [hnot])]
      simp only [call, listContains, hp, Option.map_some, hinv.keyTail, decide_true]
      exact ⟨_, _, rfl, by simp⟩

/-! ## Sequences of calls -/

/-- Calls with keys below `INT_MAX` behave as on a set. -/
lemma exec_represents (calls : List Call) (hkeys : ∀ c ∈ calls, c.key < intMax) :
    ∃ h, exec calls = some (h, (execSet calls).2) ∧ Represents h (execSet calls).1 := by
  induction calls using List.reverseRecOn with
  | nil => exact ⟨listInit, rfl, [], inv_init, fun k => by simp [execSet, intSet]⟩
  | append_singleton calls c ih =>
      obtain ⟨h, hexec, hr⟩ := ih fun c' hc' => hkeys c' (List.mem_append_left _ hc')
      obtain ⟨h', hcall, hr'⟩ := call_spec hr (hkeys c (by simp))
      refine ⟨h', ?_, ?_⟩
      · rw [exec_snoc, hexec, execSet_snoc, Option.bind_some, hcall, Option.map_some]
      · rw [execSet_snoc]
        exact hr'

lemma BehavesAsSet.of_append {calls rest : List Call} (h : BehavesAsSet (calls ++ rest)) :
    BehavesAsSet calls := by
  intro n hn
  have := h n (by rw [List.length_append]; omega)
  rwa [List.take_append_of_le_length hn] at this

/-- **The list is a set of `int`s exactly as long as no call has the key `INT_MAX`.** -/
theorem behaves_as_set_iff (calls : List Call) (hint : ∀ c ∈ calls, IsInt c.key) :
    BehavesAsSet calls ↔ ∀ c ∈ calls, c.key ≠ intMax := by
  constructor
  · intro h
    induction calls using List.reverseRecOn with
    | nil => simp
    | append_singleton calls c ih =>
        have hints : ∀ c' ∈ calls, IsInt c'.key :=
          fun c' hc' => hint c' (List.mem_append_left _ hc')
        have hold := ih hints h.of_append
        obtain ⟨h₀, hexec, hr⟩ := exec_represents calls fun c' hc' =>
          lt_of_le_of_ne (hints c' hc').2 (hold c' hc')
        intro c' hc'
        rcases List.mem_append.mp hc' with hc' | hc'
        · exact hold c' hc'
        · obtain rfl := List.mem_singleton.mp hc'
          intro hmax
          -- the first call with that key already returns the wrong result
          obtain ⟨h', ret, hcall, hret⟩ := call_max hr hmax
          obtain ⟨h₁, hexec₁, -⟩ := h _ le_rfl
          rw [List.take_length, exec_snoc, execSet_snoc, hexec, Option.bind_some, hcall,
            Option.map_some, Option.some.injEq, Prod.mk.injEq] at hexec₁
          exact hret (List.cons.inj (List.append_cancel_left hexec₁.2)).1
  · intro hne n _
    obtain ⟨h, hexec, hr⟩ := exec_represents (calls.take n) fun c hc =>
      lt_of_le_of_ne (hint c (List.mem_of_mem_take hc)).2 (hne c (List.mem_of_mem_take hc))
    exact ⟨h, hexec, hr.isSet⟩

/-- The least key of all is a key like the others. -/
theorem behaves_as_set_min_key : BehavesAsSet
    [⟨.add, 5⟩, ⟨.add, intMin⟩, ⟨.add, 5⟩, ⟨.contains, intMin⟩, ⟨.remove, 5⟩, ⟨.remove, intMin⟩] :=
  (behaves_as_set_iff _ (by decide)).mpr (by decide)

/-- `list_add(INT_MAX)` on the empty list returns false.  `list_remove(INT_MAX)` unlinks and frees
`tail`, and the next call follows a null pointer. -/
theorem not_set_max_key :
    ¬ BehavesAsSet [⟨.add, intMax⟩] ∧ exec [⟨.remove, intMax⟩, ⟨.contains, 5⟩] = none := by
  refine ⟨fun h => ?_, by decide⟩
  obtain ⟨h₁, hexec, -⟩ := h 1 le_rfl
  have hret : (execSet [⟨.add, intMax⟩]).2 = [true] := by
    simp [execSet, intSet]
  rw [List.take_one, List.head?_cons, Option.toList_some, hret] at hexec
  have hcode : (exec [⟨.add, intMax⟩]).map Prod.snd = some [false] := by decide
  rw [hexec] at hcode
  simp at hcode

end Multicore.Lab11.CoarseGrained
