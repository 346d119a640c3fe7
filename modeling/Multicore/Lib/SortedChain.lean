import Mathlib.Logic.Relation
import Mathlib.Tactic
import Multicore.Lib.Segment

/-!
# Sorted chains of pointers

A heap of nodes, each with an immutable key and at most one pointer `next`.  The library is about
the nodes that are reached from `head`, and about the three stores a list-based set makes:

* `leads_update_of_isolated` — a store into a node nobody points to is not noticed;
* `SortedChain.insert` — a new node is linked behind `p`; **`SortedChain.leads_insert`** says that
  every other node still leads where it led;
* `SortedChain.delete` — the successor `c` of `p` is unlinked; **`SortedChain.leads_delete`** says
  that every path survives except those that end in `c`.

`Gap` is about an insert whose two stores come in the wrong order: what is there once both are made.

`SortedChain.search` is the reason why such a list is a set: two adjacent nodes around a key decide
whether the key is there.  The heap may contain any number of other nodes, also ones that have been
unlinked and still point into the chain.  `SortedChain.exists_segment` lists the nodes of a chain.
-/

namespace Multicore

open Relation

variable {α κ : Type*} {next : α → Option α} {a b c n p : α}

/-! ## Following the pointers -/

/-- Following the pointers from `a` one meets `b`. -/
def Leads (next : α → Option α) : α → α → Prop := ReflTransGen fun a b => next a = some b

namespace Leads

lemma refl (a : α) : Leads next a a := ReflTransGen.refl

lemma head (h : next a = some b) (hb : Leads next b c) : Leads next a c := ReflTransGen.head h hb

lemma tail (h : Leads next a b) (hb : next b = some c) : Leads next a c := ReflTransGen.tail h hb

/-- Two nodes on the way from one node: one of them leads to the other. -/
lemma total (hb : Leads next a b) (hc : Leads next a c) : Leads next b c ∨ Leads next c b :=
  ReflTransGen.total_of_right_unique (fun _ _ _ h h' => Option.some.inj (h.symm.trans h')) hb hc

/-- A node leads to itself, or its pointer leads on. -/
lemma cases_head (h : Leads next a b) : a = b ∨ ∃ c, next a = some c ∧ Leads next c b :=
  ReflTransGen.cases_head h

end Leads

section Update

variable [DecidableEq α]

/-- A store into a node that nobody points to is noticed by that node only. -/
lemma leads_update_of_isolated (hn : ∀ b, next b ≠ some n) (o : Option α) (ha : a ≠ n) :
    Leads (Function.update next n o) a b ↔ Leads next a b := by
  -- a path from elsewhere never meets the node
  have avoid : ∀ {x : α} {f : α → Option α}, (∀ y, y ≠ n → f y = next y) → Leads f a x → x ≠ n := by
    intro x f hf hx
    induction hx with
    | refl => exact ha
    | @tail y z _ hyz ih =>
        rintro rfl
        exact hn y ((hf y ih).symm.trans hyz)
  have hupd : ∀ y, y ≠ n → Function.update next n o y = next y :=
    fun y hy => Function.update_of_ne hy _ _
  constructor <;> intro h
  · induction h with
    | refl => exact .refl a
    | @tail y z hy hyz ih => exact ih.tail ((hupd y (avoid hupd hy)).symm.trans hyz)
  · induction h with
    | refl => exact .refl a
    | @tail y z hy hyz ih => exact ih.tail ((hupd y (avoid (fun _ _ => rfl) hy)).trans hyz)

end Update

/-! ## Sorted chains -/

/-- Keys grow along every pointer, and the pointers lead from `head` to `tail`, where they end. -/
structure SortedChain [Preorder κ] (next : α → Option α) (key : α → κ) (head tail : α) : Prop where
  order : ∀ a b, next a = some b → key a < key b
  complete : Leads next head tail
  last : next tail = none

/-- The keys between `head` and `tail`. -/
def keySet (next : α → Option α) (key : α → κ) (head tail : α) : Set κ :=
  {k | ∃ a, Leads next head a ∧ a ≠ head ∧ a ≠ tail ∧ key a = k}

namespace SortedChain

variable [LinearOrder κ] {key : α → κ} {head tail : α} {k : κ}

lemma key_le (h : SortedChain next key head tail) (hab : Leads next a b) : key a ≤ key b := by
  induction hab with
  | refl => exact le_rfl
  | tail _ hbc ih => exact ih.trans (h.order _ _ hbc).le

/-- On a path keys identify nodes. -/
lemma eq_of_leads (h : SortedChain next key head tail) (hab : Leads next a b)
    (hk : key b ≤ key a) : a = b := by
  rcases hab.cases_head with rfl | ⟨c, hc, hcb⟩
  · rfl
  · exact absurd ((h.order _ _ hc).trans_le (h.key_le hcb)) hk.not_gt

lemma eq_of_key (h : SortedChain next key head tail) (ha : Leads next head a)
    (hb : Leads next head b) (hk : key a = key b) : a = b := by
  rcases ha.total hb with hab | hba
  · exact h.eq_of_leads hab hk.ge
  · exact (h.eq_of_leads hba hk.le).symm

/-- In the chain a node has one predecessor. -/
lemma pred_unique (h : SortedChain next key head tail) (ha : Leads next head a)
    (hb : Leads next head b) (hac : next a = some c) (hbc : next b = some c) : a = b := by
  have key : ∀ {x y : α}, Leads next x y → next x = some c → next y = some c → x = y := by
    intro x y hxy hx hy
    rcases hxy.cases_head with rfl | ⟨d, hd, hdy⟩
    · rfl
    · -- `c` would lead to its own predecessor
      obtain rfl : d = c := Option.some.inj (hd.symm.trans hx)
      exact absurd (h.order _ _ hy) (h.key_le hdy).not_gt
  rcases ha.total hb with hab | hba
  · exact key hab hac hbc
  · exact (key hba hbc hac).symm

/-- A node that leads to `tail` and is not `tail` has a pointer. -/
lemma next_ne_none (h : SortedChain next key head tail) (ha : Leads next head a)
    (hat : a ≠ tail) : next a ≠ none := by
  intro hnone
  rcases ha.total h.complete with hat' | hta
  · rcases hat'.cases_head with rfl | ⟨c, hc, -⟩
    · exact hat rfl
    · simp [hnone] at hc
  · rcases hta.cases_head with rfl | ⟨c, hc, -⟩
    · exact hat rfl
    · simp [h.last] at hc

/-- **Two adjacent nodes around a key decide whether the key is in the chain.** -/
theorem search (h : SortedChain next key head tail) (hp : Leads next head p)
    (hpc : next p = some c) (hpk : key p < k) (hkc : k ≤ key c) (hk : k < key tail) :
    k ∈ keySet next key head tail ↔ key c = k := by
  constructor
  · rintro ⟨a, ha, -, -, rfl⟩
    rcases hp.total ha with hpa | hap
    · rcases hpa.cases_head with rfl | ⟨d, hd, hda⟩
      · exact absurd hpk (lt_irrefl _)
      · obtain rfl : d = c := Option.some.inj (hd.symm.trans hpc)
        exact le_antisymm (h.key_le hda) hkc
    · exact absurd hpk (h.key_le hap).not_gt
  · intro hck
    refine ⟨c, hp.tail hpc, ?_, ?_, hck⟩
    · rintro rfl
      exact absurd ((h.key_le hp).trans_lt hpk) hck.ge.not_gt
    · rintro rfl
      exact hk.ne' hck

variable [DecidableEq α]

/-! ## Preparing a node -/

lemma prepare (h : SortedChain next key head tail) (hn : ∀ b, next b ≠ some n) (hhn : head ≠ n)
    (hnt : n ≠ tail) (hkey : key n < key c) :
    SortedChain (Function.update next n (some c)) key head tail := by
  refine ⟨fun a b hab => ?_, (leads_update_of_isolated hn _ hhn).mpr h.complete, ?_⟩
  · rw [Function.update_apply] at hab
    split_ifs at hab with han
    · obtain rfl := Option.some.inj hab
      exact han ▸ hkey
    · exact h.order a b hab
  · rw [Function.update_of_ne hnt.symm, h.last]

omit [LinearOrder κ] in
lemma keySet_prepare (hn : ∀ b, next b ≠ some n) (hhn : head ≠ n) (o : Option α) :
    keySet (Function.update next n o) key head tail = keySet next key head tail := by
  ext k
  simp only [keySet, Set.mem_ofPred_eq, leads_update_of_isolated hn o hhn]

/-! ## Linking a node -/

/-- Linking `n` behind `p`: paths from other nodes are as before, and may end in `n`. -/
theorem leads_insert (hpc : next p = some c) (hnc : next n = some c) (hn : ∀ b, next b ≠ some n)
    (ha : a ≠ n) (hpn : p ≠ n) :
    Leads (Function.update next p (some n)) a b ↔ Leads next a b ∨ b = n ∧ Leads next a p := by
  have hp : Function.update next p (some n) p = some n := Function.update_self _ _ _
  have hother : ∀ y, y ≠ p → Function.update next p (some n) y = next y :=
    fun y hy => Function.update_of_ne hy _ _
  have old : ∀ {x}, Leads next a x → Leads (Function.update next p (some n)) a x := by
    intro x hx
    induction hx with
    | refl => exact .refl a
    | @tail y z hy hyz ih =>
        by_cases hyp : y = p
        · subst hyp
          obtain rfl : c = z := Option.some.inj (hpc.symm.trans hyz)
          exact (ih.tail hp).tail ((hother n hpn.symm).trans hnc)
        · exact ih.tail ((hother y hyp).trans hyz)
  constructor
  · intro h
    induction h with
    | refl => exact .inl (.refl a)
    | @tail y z _ hyz ih =>
        by_cases hyp : y = p
        · subst hyp
          obtain rfl : n = z := Option.some.inj (hp.symm.trans hyz)
          exact .inr ⟨rfl, ih.elim id And.right⟩
        · rw [hother y hyp] at hyz
          rcases ih with hy | ⟨rfl, hap⟩
          · exact .inl (hy.tail hyz)
          · obtain rfl : c = z := Option.some.inj (hnc.symm.trans hyz)
            exact .inl (hap.tail hpc)
  · rintro (h | ⟨rfl, h⟩)
    · exact old h
    · exact (old h).tail hp

lemma insert (h : SortedChain next key head tail) (hpc : next p = some c) (hnc : next n = some c)
    (hn : ∀ b, next b ≠ some n) (hhn : head ≠ n) (hkey : key p < key n) :
    SortedChain (Function.update next p (some n)) key head tail := by
  have hpn : p ≠ n := fun he => absurd hkey (by rw [he]; exact lt_irrefl _)
  refine ⟨fun a b hab => ?_, (leads_insert hpc hnc hn hhn hpn).mpr (.inl h.complete), ?_⟩
  · rw [Function.update_apply] at hab
    split_ifs at hab with hap
    · obtain rfl := Option.some.inj hab
      exact hap ▸ hkey
    · exact h.order a b hab
  · rw [Function.update_of_ne, h.last]
    rintro rfl
    simp [h.last] at hpc

/-- Linking adds the key of the new node. -/
lemma keySet_insert (h : SortedChain next key head tail) (hp : Leads next head p)
    (hpc : next p = some c) (hnc : next n = some c) (hn : ∀ b, next b ≠ some n) (hhn : head ≠ n)
    (hkey : key p < key n) :
    keySet (Function.update next p (some n)) key head tail
      = Insert.insert (key n) (keySet next key head tail) := by
  have hpn : p ≠ n := fun he => absurd hkey (by rw [he]; exact lt_irrefl _)
  have hnt : n ≠ tail := by
    rintro rfl
    simp [h.last] at hnc
  ext k
  simp only [keySet, Set.mem_ofPred_eq, Set.mem_insert_iff, leads_insert hpc hnc hn hhn hpn]
  constructor
  · rintro ⟨a, ha | ⟨rfl, -⟩, h1, h2, rfl⟩
    · exact .inr ⟨a, ha, h1, h2, rfl⟩
    · exact .inl rfl
  · rintro (rfl | ⟨a, ha, h1, h2, hk⟩)
    · exact ⟨n, .inr ⟨rfl, hp⟩, hhn.symm, hnt, rfl⟩
    · exact ⟨a, .inl ha, h1, h2, hk⟩

end SortedChain

section Link

variable [DecidableEq α]

/-- Both stores of an insert: `n` behind `p`, and `c` behind `n`. -/
def link (next : α → Option α) (p n c : α) : α → Option α :=
  Function.update (Function.update next n (some c)) p (some n)

lemma link_self : link next p n c p = some n := Function.update_self _ _ _

lemma link_node (h : n ≠ p) : link next p n c n = some c := by
  rw [link, Function.update_of_ne h, Function.update_self]

lemma link_of_ne (hp : a ≠ p) (hn : a ≠ n) : link next p n c a = next a := by
  rw [link, Function.update_of_ne hp, Function.update_of_ne hn]

lemma link_eq_some (hab : link next p n c a = some b) : b = n ∨ b = c ∨ next a = some b := by
  simp only [link, Function.update_apply] at hab
  split_ifs at hab
  · exact .inl (Option.some.inj hab).symm
  · exact .inr (.inl (Option.some.inj hab).symm)
  · exact .inr (.inr hab)

end Link

/-- A place for a new node `n`: `p` and `c` are adjacent in the chain, and the key of `n` lies
between theirs. -/
structure Gap [Preorder κ] (next : α → Option α) (key : α → κ) (head p n c : α) : Prop where
  reach : Leads next head p
  adjacent : next p = some c
  fresh : ∀ b, next b ≠ some n
  not_reach : ¬ Leads next head n
  left : key p < key n
  right : key n < key c

namespace Gap

variable [LinearOrder κ] {key : α → κ} {head tail : α} (h : Gap next key head p n c)

include h

lemma head_ne : head ≠ n := by
  rintro rfl
  exact h.not_reach (.refl _)

lemma ne : p ≠ n := by
  rintro rfl
  exact h.not_reach h.reach

lemma right_ne : c ≠ n := by
  rintro rfl
  exact h.not_reach (h.reach.tail h.adjacent)

variable [DecidableEq α]

/-- Once `n` points to `c` it is ready to be linked. -/
lemma prepared : Function.update next n (some c) p = some c ∧
    Function.update next n (some c) n = some c ∧
    ∀ b, Function.update next n (some c) b ≠ some n := by
  refine ⟨(Function.update_of_ne h.ne _ _).trans h.adjacent, Function.update_self _ _ _,
    fun b hb => ?_⟩
  rw [Function.update_apply] at hb
  split_ifs at hb
  · exact h.right_ne (Option.some.inj hb)
  · exact h.fresh b hb

/-- The chain contains the node in addition. -/
lemma leads_iff : Leads (link next p n c) head a ↔ Leads next head a ∨ a = n := by
  obtain ⟨hp, hn, hno⟩ := h.prepared
  rw [link, SortedChain.leads_insert hp hn hno h.head_ne h.ne,
    leads_update_of_isolated h.fresh _ h.head_ne, leads_update_of_isolated h.fresh _ h.head_ne]
  exact or_congr_right (and_iff_left h.reach)

lemma prepare_chain (hc : SortedChain next key head tail) :
    SortedChain (Function.update next n (some c)) key head tail := by
  refine hc.prepare h.fresh h.head_ne ?_ h.right
  rintro rfl
  exact h.not_reach hc.complete

lemma chain (hc : SortedChain next key head tail) :
    SortedChain (link next p n c) key head tail := by
  obtain ⟨hp, hn, hno⟩ := h.prepared
  exact (h.prepare_chain hc).insert hp hn hno h.head_ne h.left

lemma keySet_link (hc : SortedChain next key head tail) :
    keySet (link next p n c) key head tail = insert (key n) (keySet next key head tail) := by
  obtain ⟨hp, hn, hno⟩ := h.prepared
  have hreach := (leads_update_of_isolated h.fresh (some c) h.head_ne).mpr h.reach
  rw [link, (h.prepare_chain hc).keySet_insert hreach hp hn hno h.head_ne h.left,
    SortedChain.keySet_prepare h.fresh h.head_ne]

end Gap

namespace SortedChain

variable [LinearOrder κ] {key : α → κ} {head tail : α} {k : κ} [DecidableEq α]

/-! ## Unlinking a node -/

/-- Unlinking `c` behind `p`: every path survives that does not end in `c`. -/
theorem leads_delete (hpc : next p = some c) (hcn : next c = some n) (hcp : c ≠ p) (hb : b ≠ c) :
    Leads (Function.update next p (some n)) a b ↔ Leads next a b := by
  have hp : Function.update next p (some n) p = some n := Function.update_self _ _ _
  have hother : ∀ y, y ≠ p → Function.update next p (some n) y = next y :=
    fun y hy => Function.update_of_ne hy _ _
  have short : ∀ {x}, Leads next a x →
      Leads (Function.update next p (some n)) a x ∨
        x = c ∧ Leads (Function.update next p (some n)) a p := by
    intro x hx
    induction hx with
    | refl => exact .inl (.refl a)
    | @tail y z _ hyz ih =>
        rcases ih with hy | ⟨rfl, hap⟩
        · by_cases hyp : y = p
          · subst hyp
            exact .inr ⟨Option.some.inj (hyz.symm.trans hpc), hy⟩
          · exact .inl (hy.tail ((hother y hyp).trans hyz))
        · obtain rfl : n = z := Option.some.inj (hcn.symm.trans hyz)
          exact .inl (hap.tail hp)
  constructor
  · intro h
    clear hb
    induction h with
    | refl => exact .refl a
    | @tail y z _ hyz ih =>
        by_cases hyp : y = p
        · subst hyp
          obtain rfl : n = z := Option.some.inj (hp.symm.trans hyz)
          exact (ih.tail hpc).tail hcn
        · exact ih.tail ((hother y hyp).symm.trans hyz)
  · intro h
    exact (short h).resolve_right fun hc => hb hc.1

/-- What is unlinked from the chain is not reached any more. -/
lemma not_leads_delete (h : SortedChain next key head tail) (hp : Leads next head p)
    (hpc : next p = some c) (hcn : next c = some n) :
    ¬ Leads (Function.update next p (some n)) head c := by
  have hcp : c ≠ p := fun he => absurd (h.order _ _ hpc) (by rw [he]; exact lt_irrefl _)
  intro hc
  rcases ReflTransGen.cases_tail hc with rfl | ⟨y, hy, hyc⟩
  · exact absurd (h.order _ _ hpc) (h.key_le hp).not_gt
  · rw [Function.update_apply] at hyc
    split_ifs at hyc with hyp
    · exact absurd (h.order _ _ hcn) (by rw [Option.some.inj hyc]; exact lt_irrefl _)
    · have hyc' : y ≠ c := by
        rintro rfl
        exact absurd (h.order _ _ hyc) (lt_irrefl _)
      exact hyp (h.pred_unique ((leads_delete hpc hcn hcp hyc').mp hy) hp hyc hpc)

lemma delete (h : SortedChain next key head tail) (hpc : next p = some c) (hcn : next c = some n) :
    SortedChain (Function.update next p (some n)) key head tail := by
  have hcp : c ≠ p := fun he => absurd (h.order _ _ hpc) (by rw [he]; exact lt_irrefl _)
  have htc : tail ≠ c := by
    rintro rfl
    simp [h.last] at hcn
  refine ⟨fun a b hab => ?_, (leads_delete hpc hcn hcp htc).mpr h.complete, ?_⟩
  · rw [Function.update_apply] at hab
    split_ifs at hab with hap
    · obtain rfl := Option.some.inj hab
      rw [hap]
      exact (h.order _ _ hpc).trans (h.order _ _ hcn)
    · exact h.order a b hab
  · rw [Function.update_of_ne, h.last]
    rintro rfl
    simp [h.last] at hpc

/-- Unlinking removes the key of the node. -/
lemma keySet_delete (h : SortedChain next key head tail) (hp : Leads next head p)
    (hpc : next p = some c) (hcn : next c = some n) :
    keySet (Function.update next p (some n)) key head tail
      = keySet next key head tail \ {key c} := by
  have hcp : c ≠ p := fun he => absurd (h.order _ _ hpc) (by rw [he]; exact lt_irrefl _)
  ext k
  simp only [keySet, Set.mem_ofPred_eq, Set.mem_sdiff, Set.mem_singleton_iff]
  constructor
  · rintro ⟨a, ha, h1, h2, rfl⟩
    have hac : a ≠ c := by
      rintro rfl
      exact h.not_leads_delete hp hpc hcn ha
    have ha' := (leads_delete hpc hcn hcp hac).mp ha
    exact ⟨⟨a, ha', h1, h2, rfl⟩, fun hk => hac (h.eq_of_key ha' (hp.tail hpc) hk)⟩
  · rintro ⟨⟨a, ha, h1, h2, rfl⟩, hne⟩
    have hac : a ≠ c := by
      rintro rfl
      exact hne rfl
    exact ⟨a, (leads_delete hpc hcn hcp hac).mpr ha, h1, h2, rfl⟩

end SortedChain

/-! ## The nodes of a chain -/

namespace SortedChain

variable [LinearOrder κ] {key : α → κ} {head tail : α}

/-- What is met on the way from a node to `tail`, in increasing order of the keys. -/
lemma exists_segment_from (h : SortedChain next key head tail) (ha : Leads next a tail) :
    ∃ l, Segment next (some a) l (some tail) ∧ (∀ b, b ∈ l ↔ Leads next a b ∧ b ≠ tail) ∧
      (l.map key).Pairwise (· < ·) := by
  induction ha using ReflTransGen.head_induction_on with
  | refl =>
      refine ⟨[], rfl, fun b => ?_, List.Pairwise.nil⟩
      refine iff_of_false (List.not_mem_nil) ?_
      rintro ⟨hb, hne⟩
      rcases hb.cases_head with rfl | ⟨c, hc, -⟩
      · exact hne rfl
      · simp [h.last] at hc
  | @head a c hac _ ih =>
      obtain ⟨l, hseg, hmem, hsort⟩ := ih
      refine ⟨a :: l, ⟨rfl, by rw [hac]; exact hseg⟩, fun b => ?_, ?_⟩
      · rw [List.mem_cons, hmem]
        constructor
        · rintro (rfl | ⟨hb, hne⟩)
          · refine ⟨.refl _, ?_⟩
            rintro rfl
            simp [h.last] at hac
          · exact ⟨.head hac hb, hne⟩
        · rintro ⟨hb, hne⟩
          rcases hb.cases_head with rfl | ⟨d, hd, hdb⟩
          · exact .inl rfl
          · obtain rfl : d = c := Option.some.inj (hd.symm.trans hac)
            exact .inr ⟨hdb, hne⟩
      · rw [List.map_cons, List.pairwise_cons]
        refine ⟨fun k hk => ?_, hsort⟩
        obtain ⟨b, hb, rfl⟩ := List.mem_map.mp hk
        exact (h.order _ _ hac).trans_le (h.key_le ((hmem b).mp hb).1)

/-- **The nodes between `head` and `tail`**, in increasing order of their keys. -/
theorem exists_segment (h : SortedChain next key head tail) (hne : head ≠ tail) :
    ∃ l, Segment next (next head) l (some tail) ∧ tail ∉ l ∧ (l.map key).Pairwise (· < ·) ∧
      ∀ k, k ∈ l.map key ↔ k ∈ keySet next key head tail := by
  obtain ⟨l, hseg, hmem, hsort⟩ := h.exists_segment_from h.complete
  cases l with
  | nil => exact absurd (Option.some.inj (segment_nil.mp hseg)) hne
  | cons a l =>
      obtain ⟨ha, hrest⟩ := hseg
      obtain rfl := Option.some.inj ha
      rw [List.map_cons, List.pairwise_cons] at hsort
      have hhead : head ∉ l := fun hin => lt_irrefl _ (hsort.1 _ (List.mem_map_of_mem hin))
      have hin : ∀ b, b ∈ l ↔ Leads next head b ∧ b ≠ head ∧ b ≠ tail := by
        intro b
        have hb := hmem b
        rw [List.mem_cons] at hb
        constructor
        · intro hbl
          have hlead := hb.mp (.inr hbl)
          refine ⟨hlead.1, ?_, hlead.2⟩
          rintro rfl
          exact hhead hbl
        · rintro ⟨hlead, hbh, hbt⟩
          exact (hb.mpr ⟨hlead, hbt⟩).resolve_left hbh
      refine ⟨l, hrest, fun ht => ((hin tail).mp ht).2.2 rfl, hsort.2, fun k => ?_⟩
      simp only [List.mem_map, keySet, Set.mem_ofPred_eq, hin, and_assoc]

end SortedChain

end Multicore
