import Mathlib.Tactic
import Mathlib.Data.Set.Insert

/-!
# Epoch-based reclamation

Readers of a shared structure hold pointers to its objects.  An object that has been taken out of
the structure may be freed only when no reader can still hold a pointer to it.  In the scheme of
this module a global clock decides.  A reader enters with an *epoch*, an earlier value of the
clock; an object is *stamped* with the clock after it has been taken out; a collector takes a
*bound* that is not above the clock nor above the epochs of the readers, and then, while everything
else goes on, frees what has a stamp below the bound.

The argument has two halves.  A reader that was inside when the bound was taken has an epoch that is
not below it, and what it has seen is stamped later than its epoch.  A reader that entered
afterwards has seen nothing before, and so what it has seen is stamped with a later clock.

* `Epochs` — the state, over arbitrary types of participants and objects.  Which objects a reader
  has seen is history.
* `Epochs.Sound` — the invariant; **`Epochs.Sound.safe`** is the property: no reader has seen an
  object that is freed.
* `Epochs.tick`, `enter`, `leave`, `see`, `retire`, `stamp`, `beginPass`, `free`, `allocate` — the
  steps, each with the lemma that it keeps the invariant.  A pass may be interrupted anywhere, an
  object may be stamped more than once, and the memory of an object may be allocated again at any
  time.
-/

namespace Multicore

/-- The state of the scheme, with participants `τ` and objects `α`. -/
structure Epochs (τ α : Type*) where
  clock : ℕ
  /-- the epoch of a participant that is reading -/
  reader : τ → Option ℕ
  /-- the objects to which it has got a pointer before they were taken out -/
  seen : τ → Set α
  /-- the objects taken out of the structure -/
  out : Set α
  /-- the stamps that an object has been given -/
  stamps : α → Set ℕ
  freed : Set α
  /-- the bound of a participant that is collecting -/
  pass : τ → Option ℕ

namespace Epochs

variable {τ α : Type*} {E : Epochs τ α} {t u : τ} {x : α} {e b : ℕ}

/-- What `t` has seen is not stamped before `b`. -/
def Newer (E : Epochs τ α) (t : τ) (b : ℕ) : Prop := ∀ x ∈ E.seen t, ∀ v ∈ E.stamps x, b ≤ v

/-- The invariant of the scheme. -/
structure Sound (E : Epochs τ α) : Prop where
  /-- a stamped object is out -/
  out : ∀ x v, v ∈ E.stamps x → x ∈ E.out
  freed : E.freed ⊆ E.out
  reader : ∀ t e, E.reader t = some e → e < E.clock ∧ E.Newer t (e + 1)
  pass : ∀ t b, E.pass t = some b → b ≤ E.clock
  /-- what a reader has seen is not stamped before the bound of a pass -/
  bound : ∀ t b, E.pass t = some b → ∀ u e, E.reader u = some e → E.Newer u b
  /-- no reader has seen an object that is freed -/
  safe : ∀ t e, E.reader t = some e → ∀ x ∈ E.seen t, x ∉ E.freed

/-! ## The steps -/

/-- The clock goes on. -/
def tick (E : Epochs τ α) : Epochs τ α := { E with clock := E.clock + 1 }

/-- A participant stops reading. -/
def leave [DecidableEq τ] (E : Epochs τ α) (t : τ) : Epochs τ α :=
  { E with reader := Function.update E.reader t none }

/-- A participant starts reading. -/
def enter [DecidableEq τ] (E : Epochs τ α) (t : τ) (e : ℕ) : Epochs τ α :=
  { E with
    reader := Function.update E.reader t (some e)
    seen := Function.update E.seen t ∅ }

/-- A reader gets a pointer to an object. -/
def see [DecidableEq τ] (E : Epochs τ α) (t : τ) (x : α) : Epochs τ α :=
  { E with seen := Function.update E.seen t (insert x (E.seen t)) }

/-- An object is taken out of the structure. -/
def retire (E : Epochs τ α) (x : α) : Epochs τ α := { E with out := insert x E.out }

/-- An object is stamped with the clock. -/
def stamp [DecidableEq α] (E : Epochs τ α) (x : α) : Epochs τ α :=
  { E with stamps := Function.update E.stamps x (insert E.clock (E.stamps x)) }

/-- A collector starts a pass with the bound `b`. -/
def beginPass [DecidableEq τ] (E : Epochs τ α) (t : τ) (b : ℕ) : Epochs τ α :=
  { E with pass := Function.update E.pass t (some b) }

/-- An object is freed. -/
def free (E : Epochs τ α) (x : α) : Epochs τ α := { E with freed := insert x E.freed }

/-- The memory of an object becomes that of a new one, which nobody has seen. -/
def allocate [DecidableEq α] (E : Epochs τ α) (x : α) : Epochs τ α :=
  { E with
    seen := fun t => E.seen t \ {x}
    out := E.out \ {x}
    stamps := Function.update E.stamps x ∅
    freed := E.freed \ {x} }

/-! ## Each step keeps the invariant -/

namespace Sound

lemma tick (h : E.Sound) : E.tick.Sound where
  out := h.out
  freed := h.freed
  reader t e he := ⟨Nat.lt_succ_of_lt (h.reader t e he).1, (h.reader t e he).2⟩
  pass t b hb := Nat.le_succ_of_le (h.pass t b hb)
  bound := h.bound
  safe := h.safe

lemma leave [DecidableEq τ] (h : E.Sound) (t : τ) : (E.leave t).Sound := by
  have hr : ∀ u e, (E.leave t).reader u = some e → E.reader u = some e := by
    intro u e he
    simp only [Epochs.leave, Function.update_apply] at he
    split_ifs at he
    exact he
  exact ⟨h.out, h.freed, fun u e he => h.reader u e (hr u e he), h.pass,
    fun c b hb u e he => h.bound c b hb u e (hr u e he), fun u e he => h.safe u e (hr u e he)⟩

/-- A reader that enters has seen nothing, so it has nothing to fear. -/
lemma enter [DecidableEq τ] (h : E.Sound) (t : τ) (he : e < E.clock) : (E.enter t e).Sound := by
  have hcases : ∀ u e', (E.enter t e).reader u = some e' →
      (u = t ∧ e' = e ∧ (E.enter t e).seen u = ∅) ∨
        (E.reader u = some e' ∧ (E.enter t e).seen u = E.seen u) := by
    intro u e' hu
    by_cases hut : u = t
    · subst hut
      simp only [Epochs.enter, Function.update_self, Option.some.injEq] at hu
      exact Or.inl ⟨rfl, hu.symm, Function.update_self ..⟩
    · simp only [Epochs.enter, Function.update_of_ne hut] at hu
      exact Or.inr ⟨hu, Function.update_of_ne hut ..⟩
  refine ⟨h.out, h.freed, fun u e' hu => ?_, h.pass, fun c b hb u e' hu => ?_,
    fun u e' hu => ?_⟩
  · rcases hcases u e' hu with ⟨rfl, rfl, hs⟩ | ⟨hr, hs⟩
    · refine ⟨he, fun x hx => ?_⟩
      simp [hs] at hx
    · refine ⟨(h.reader u e' hr).1, fun x hx => ?_⟩
      rw [hs] at hx
      exact (h.reader u e' hr).2 x hx
  · rcases hcases u e' hu with ⟨rfl, rfl, hs⟩ | ⟨hr, hs⟩
    · intro x hx
      simp [hs] at hx
    · intro x hx
      rw [hs] at hx
      exact h.bound c b hb u e' hr x hx
  · rcases hcases u e' hu with ⟨rfl, rfl, hs⟩ | ⟨hr, hs⟩ <;> rw [hs]
    · exact fun x hx => absurd hx (Set.notMem_empty x)
    · exact h.safe u e' hr

/-- An object that is not out has no stamps yet, and is not freed. -/
lemma see [DecidableEq τ] (h : E.Sound) (t : τ) (hx : x ∉ E.out) : (E.see t x).Sound := by
  have hseen : ∀ u, ∀ y ∈ (E.see t x).seen u, y = x ∨ y ∈ E.seen u := by
    intro u y hy
    by_cases hut : u = t
    · subst hut
      simpa only [Epochs.see, Function.update_self, Set.mem_insert_iff] using hy
    · exact Or.inr (by simpa only [Epochs.see, Function.update_of_ne hut] using hy)
  have hnew : ∀ u b, E.Newer u b → (E.see t x).Newer u b := by
    intro u b hn y hy v hv
    rcases hseen u y hy with rfl | hy
    · exact absurd (h.out y v hv) hx
    · exact hn y hy v hv
  refine ⟨h.out, h.freed, fun u e he => ⟨(h.reader u e he).1, hnew u _ (h.reader u e he).2⟩,
    h.pass, fun c b hb u e he => hnew u b (h.bound c b hb u e he), fun u e he y hy => ?_⟩
  rcases hseen u y hy with rfl | hy
  · exact fun hf => hx (h.freed hf)
  · exact h.safe u e he y hy

lemma retire (h : E.Sound) (x : α) : (E.retire x).Sound :=
  ⟨fun y v hv => Set.mem_insert_of_mem x (h.out y v hv),
    h.freed.trans (Set.subset_insert x E.out), h.reader, h.pass, h.bound, h.safe⟩

/-- A stamp is later than all epochs, and not below a bound. -/
lemma stamp [DecidableEq α] (h : E.Sound) (hx : x ∈ E.out) : (E.stamp x).Sound := by
  have hmem : ∀ y v, v ∈ (E.stamp x).stamps y → v ∈ E.stamps y ∨ (y = x ∧ v = E.clock) := by
    intro y v hv
    by_cases hyx : y = x
    · subst hyx
      simp only [Epochs.stamp, Function.update_self, Set.mem_insert_iff] at hv
      exact hv.symm.imp_right fun hv => ⟨rfl, hv⟩
    · exact Or.inl (by simpa only [Epochs.stamp, Function.update_of_ne hyx] using hv)
  have hnew : ∀ u b, b ≤ E.clock → E.Newer u b → (E.stamp x).Newer u b := by
    intro u b hb hn y hy v hv
    rcases hmem y v hv with hv | ⟨-, rfl⟩
    · exact hn y hy v hv
    · exact hb
  refine ⟨fun y v hv => ?_, h.freed, fun u e he => ?_, h.pass,
    fun c b hb u e he => hnew u b (h.pass c b hb) (h.bound c b hb u e he), h.safe⟩
  · rcases hmem y v hv with hv | ⟨rfl, -⟩
    · exact h.out y v hv
    · exact hx
  · exact ⟨(h.reader u e he).1, hnew u _ (h.reader u e he).1 (h.reader u e he).2⟩

/-- A bound that is not above the clock, nor above the epoch of a reader. -/
lemma beginPass [DecidableEq τ] (h : E.Sound) (t : τ) (hb : b ≤ E.clock)
    (hr : ∀ u e, E.reader u = some e → b ≤ e) : (E.beginPass t b).Sound := by
  have hcases : ∀ c b', (E.beginPass t b).pass c = some b' → b' = b ∨ E.pass c = some b' := by
    intro c b' hc
    simp only [Epochs.beginPass, Function.update_apply] at hc
    split_ifs at hc
    · exact Or.inl (Option.some.inj hc).symm
    · exact Or.inr hc
  refine ⟨h.out, h.freed, h.reader, fun c b' hc => ?_, fun c b' hc u e he => ?_, h.safe⟩
  · rcases hcases c b' hc with rfl | hc
    · exact hb
    · exact h.pass c b' hc
  · rcases hcases c b' hc with rfl | hc
    · intro x hx v hv
      have hev : e + 1 ≤ v := (h.reader u e he).2 x hx v hv
      exact (hr u e he).trans ((Nat.le_succ e).trans hev)
    · exact h.bound c b' hc u e he

/-- **What has a stamp below the bound may be freed.** -/
lemma free (h : E.Sound) (hb : E.pass t = some b) {v : ℕ} (hv : v ∈ E.stamps x) (hlt : v < b) :
    (E.free x).Sound := by
  refine ⟨h.out, Set.insert_subset (h.out x v hv) h.freed, h.reader, h.pass, h.bound,
    fun u e he y hy hfreed => ?_⟩
  rcases Set.mem_insert_iff.1 hfreed with rfl | hfreed
  · exact absurd (h.bound t b hb u e he y hy v hv) (not_le.2 hlt)
  · exact h.safe u e he y hy hfreed

lemma allocate [DecidableEq α] (h : E.Sound) (x : α) : (E.allocate x).Sound := by
  have hmem : ∀ y v, v ∈ (E.allocate x).stamps y → y ≠ x ∧ v ∈ E.stamps y := by
    intro y v hv
    by_cases hyx : y = x
    · subst hyx
      simp [Epochs.allocate] at hv
    · exact ⟨hyx, by simpa only [Epochs.allocate, Function.update_of_ne hyx] using hv⟩
  have hnew : ∀ u b, E.Newer u b → (E.allocate x).Newer u b :=
    fun u b hn y hy v hv => hn y hy.1 v (hmem y v hv).2
  exact ⟨fun y v hv => ⟨h.out y v (hmem y v hv).2, (hmem y v hv).1⟩,
    Set.sdiff_subset_sdiff_left h.freed,
    fun u e he => ⟨(h.reader u e he).1, hnew u _ (h.reader u e he).2⟩, h.pass,
    fun c b hb u e he => hnew u b (h.bound c b hb u e he),
    fun u e he y hy hf => h.safe u e he y hy.1 hf.1⟩

end Sound

end Epochs

end Multicore
