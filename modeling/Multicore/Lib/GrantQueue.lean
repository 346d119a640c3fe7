import Mathlib.Data.List.Basic
import Mathlib.Data.List.TakeWhile

/-!
# Requests in a queue

Requests stand in a queue, some of them waiting.  `waitsFor a b` says that `a` has to wait for `b`
if `b` is ahead of it, whether `b` itself waits or not.  When a request leaves, a *grant pass* goes
once through the queue, from the front, and grants what no longer has to wait.

* `grantPass` — the pass; it may look at some of the requests only.
* `Justified` — every waiting request has somebody ahead of it for whom it has to wait.
  **`grantPass_justified`**: after a pass the queue is justified, one round is enough.
* **`grantPass_pairwise`** — if of two requests that exclude each other the later one waits, this
  is so after a pass.
* `updateFirst` — a change of the first request of some kind.
* `dropWhile_eq_cons`, `dropWhile_append_cons` — looking for a request from the front.
-/

namespace Multicore

variable {α : Type*}

/-- How requests wait. -/
structure Requests (α : Type*) where
  waiting : α → Bool
  grant : α → α
  waitsFor : α → α → Bool
  waiting_grant : ∀ a, waiting (grant a) = false
  waitsFor_grant_left : ∀ a b, waitsFor (grant a) b = waitsFor a b
  waitsFor_grant_right : ∀ a b, waitsFor a (grant b) = waitsFor a b

namespace Requests

variable (R : Requests α) {visit : α → Bool} {ahead q : List α} {a : α}

/-- There is somebody ahead for whom `a` has to wait. -/
def blocked (ahead : List α) (a : α) : Bool := ahead.any (R.waitsFor a)

/-- One pass over the requests that meet `visit`, behind those `ahead`. -/
def grantPass (visit : α → Bool) : List α → List α → List α
  | _, [] => []
  | ahead, a :: rest =>
      let a' := if visit a && R.waiting a && !R.blocked ahead a then R.grant a else a
      a' :: grantPass visit (ahead ++ [a']) rest

/-- The waiting requests that meet `p` have to wait. -/
def JustifiedOn (p : α → Bool) : List α → List α → Prop
  | _, [] => True
  | ahead, a :: rest =>
      (p a = true → R.waiting a = true → R.blocked ahead a = true) ∧
        JustifiedOn p (ahead ++ [a]) rest

/-- Everybody who waits has to. -/
def Justified (q : List α) : Prop := R.JustifiedOn (fun _ => true) [] q

variable {R} {p : α → Bool} {ahead' : List α}

/-- The reasons to wait are kept when those ahead are exchanged for others that block as much. -/
lemma JustifiedOn.exchange (h : R.JustifiedOn p ahead q)
    (hblocked : ∀ b, p b = true → R.waiting b = true → R.blocked ahead b = true →
      R.blocked ahead' b = true) : R.JustifiedOn p ahead' q := by
  induction q generalizing ahead ahead' with
  | nil => trivial
  | cons a rest ih =>
      refine ⟨fun ha hw => hblocked a ha hw (h.1 ha hw), ih h.2 fun b hb hw hbl => ?_⟩
      simp only [blocked, List.any_append, Bool.or_eq_true] at hbl hblocked ⊢
      exact hbl.imp_left (hblocked b hb hw)

lemma JustifiedOn.mono {p' : α → Bool} (hp : ∀ a, p' a = true → p a = true)
    (h : R.JustifiedOn p ahead q) : R.JustifiedOn p' ahead q := by
  induction q generalizing ahead with
  | nil => trivial
  | cons a rest ih => exact ⟨fun ha => h.1 (hp a ha), ih h.2⟩

lemma justifiedOn_false : R.JustifiedOn (fun _ => false) ahead q := by
  induction q generalizing ahead with
  | nil => trivial
  | cons a rest ih => exact ⟨fun ha => absurd ha Bool.false_ne_true, ih⟩

/-- Requests that come behind. -/
lemma justifiedOn_append {more : List α} : R.JustifiedOn p ahead (q ++ more) ↔
    R.JustifiedOn p ahead q ∧ R.JustifiedOn p (ahead ++ q) more := by
  induction q generalizing ahead with
  | nil => simp [JustifiedOn]
  | cons a rest ih => simp [JustifiedOn, ih, and_assoc]

/-- One request changes and blocks as much as before. -/
lemma JustifiedOn.replace {q₁ q₂ : List α} {a a' : α} (h : R.JustifiedOn p ahead (q₁ ++ a :: q₂))
    (ha : R.waiting a' = false)
    (hblocked : ∀ b, p b = true → R.waiting b = true → R.waitsFor b a = true →
      R.waitsFor b a' = true) : R.JustifiedOn p ahead (q₁ ++ a' :: q₂) := by
  obtain ⟨h₁, -, h₂⟩ := justifiedOn_append.mp h
  refine justifiedOn_append.mpr ⟨h₁, fun _ hw => absurd hw (by simp [ha]), ?_⟩
  refine h₂.exchange fun b hb hw hbl => ?_
  simp only [blocked, List.any_append, List.any_cons, List.any_nil, Bool.or_false,
    Bool.or_eq_true] at hbl ⊢
  exact hbl.imp_right (hblocked b hb hw)

/-- Who waits has somebody ahead for whom it waits. -/
lemma Justified.exists_ahead {q₁ q₂ : List α} {a : α} (h : R.Justified (q₁ ++ a :: q₂))
    (ha : R.waiting a = true) : ∃ b ∈ q₁, R.waitsFor a b = true := by
  have hblocked := (justifiedOn_append.mp h).2.1 rfl ha
  simpa [blocked] using hblocked

/-! ## The pass -/

/-- **One pass is enough.** -/
theorem grantPass_justified (h : R.JustifiedOn (fun a => !visit a) ahead q) :
    R.JustifiedOn (fun _ => true) ahead (R.grantPass visit ahead q) := by
  induction q generalizing ahead with
  | nil => trivial
  | cons a rest ih =>
      -- a granted request blocks as much as before
      have hsame : ∀ b, R.blocked (ahead ++ [R.grant a]) b = R.blocked (ahead ++ [a]) b :=
        fun b => by simp [blocked, R.waitsFor_grant_right]
      simp only [grantPass]
      split_ifs with hgrant
      · refine ⟨fun _ hw => absurd hw (by simp [R.waiting_grant]), ih ?_⟩
        exact h.2.exchange fun b _ _ hb => (hsame b).trans hb
      · refine ⟨fun _ hw => ?_, ih h.2⟩
        by_contra hfree
        cases hv : visit a with
        | false => exact hfree (h.1 (by simp [hv]) hw)
        | true => exact hgrant (by simp [hv, hw, hfree])

/-- **The later of two requests that exclude each other waits**, also after the pass. -/
theorem grantPass_pairwise (ahead : List α) {E : α → α → Prop} {P : α → Prop}
    (hleft : ∀ a b, E (R.grant a) b → E a b) (hright : ∀ a b, E a (R.grant b) → E a b)
    (hwaits : ∀ a b, P b → R.waiting b = true → E a b → R.waitsFor b a = true)
    (hP : ∀ a ∈ q, P a) (h : (ahead ++ q).Pairwise fun a b => E a b → R.waiting b = true) :
    (ahead ++ R.grantPass visit ahead q).Pairwise fun a b => E a b → R.waiting b = true := by
  induction q generalizing ahead with
  | nil => exact h
  | cons a rest ih =>
      have hrest := fun b hb => hP b (List.mem_cons_of_mem a hb)
      simp only [grantPass]
      split_ifs with hgrant
      · rw [List.append_cons]
        refine ih _ hrest ?_
        obtain ⟨hahead, hcons, hbetween⟩ := List.pairwise_append.mp h
        obtain ⟨ha, htail⟩ := List.pairwise_cons.mp hcons
        rw [List.append_assoc, List.singleton_append]
        refine List.pairwise_append.mpr ⟨hahead, List.pairwise_cons.mpr ⟨?_, htail⟩, ?_⟩
        · exact fun b hb hE => ha b hb (hleft a b hE)
        · intro x hx y hy
          rcases List.mem_cons.mp hy with rfl | hy
          · -- nothing ahead of the granted request excludes it
            intro hE
            simp only [Bool.and_eq_true, Bool.not_eq_true'] at hgrant
            obtain ⟨⟨-, hw⟩, hfree⟩ := hgrant
            have hwait := hwaits x a (hP a List.mem_cons_self) hw (hright x a hE)
            simp only [blocked, List.any_eq_false] at hfree
            exact absurd hwait (hfree x hx)
          · exact hbetween x hx y (List.mem_cons_of_mem a hy)
      · rw [List.append_cons]
        exact ih _ hrest (by rwa [List.append_assoc, List.singleton_append])

/-- What a grant keeps, the pass keeps. -/
lemma forall_mem_grantPass {P : α → Prop} (hgrant : ∀ a, P a → P (R.grant a))
    (h : ∀ a ∈ q, P a) : ∀ a ∈ R.grantPass visit ahead q, P a := by
  induction q generalizing ahead with
  | nil => exact h
  | cons a rest ih =>
      simp only [grantPass]
      refine List.forall_mem_cons.mpr ⟨?_, ih fun b hb => h b (List.mem_cons_of_mem a hb)⟩
      have ha := h a List.mem_cons_self
      split_ifs
      · exact hgrant a ha
      · exact ha

/-- What a grant does not change, the pass does not change. -/
lemma map_grantPass {β : Type*} {f : α → β} (hgrant : ∀ a, f (R.grant a) = f a) :
    (R.grantPass visit ahead q).map f = q.map f := by
  induction q generalizing ahead with
  | nil => rfl
  | cons a rest ih =>
      simp only [grantPass, List.map_cons, ih]
      split_ifs
      · rw [hgrant]
      · rfl

/-- The pass grants requests and leaves everything else as it is. -/
lemma grantPass_forall₂ :
    List.Forall₂ (fun a' a => a' = a ∨ a' = R.grant a) (R.grantPass visit ahead q) q := by
  induction q generalizing ahead with
  | nil => exact .nil
  | cons a rest ih =>
      refine .cons ?_ ih
      split_ifs
      · exact .inr rfl
      · exact .inl rfl

/-- What does not wait stays in the queue. -/
lemma mem_grantPass (hmem : a ∈ q) (ha : R.waiting a = false) :
    a ∈ R.grantPass visit ahead q := by
  induction q generalizing ahead with
  | nil => exact absurd hmem List.not_mem_nil
  | cons b rest ih =>
      simp only [grantPass]
      rcases List.mem_cons.mp hmem with rfl | hmem
      · rw [if_neg (by simp [ha])]
        exact List.mem_cons_self
      · exact List.mem_cons_of_mem _ (ih hmem)

/-- The pass over the last request. -/
lemma grantPass_append_singleton :
    R.grantPass visit ahead (q ++ [a]) = R.grantPass visit ahead q ++
      [if visit a && R.waiting a && !R.blocked (ahead ++ R.grantPass visit ahead q) a
        then R.grant a else a] := by
  induction q generalizing ahead with
  | nil => simp [grantPass]
  | cons b rest ih =>
      simp only [List.cons_append, grantPass, ih, List.append_assoc]
      rfl

end Requests

/-! ## The first request of some kind -/

/-- The first request that meets `p` becomes `f` of it. -/
def updateFirst (p : α → Bool) (f : α → α) : List α → Option (List α)
  | [] => none
  | a :: q => if p a then some (f a :: q) else (updateFirst p f q).map (a :: ·)

lemma updateFirst_some {p : α → Bool} {f : α → α} {q q' : List α}
    (h : updateFirst p f q = some q') :
    ∃ q₁ a q₂, q = q₁ ++ a :: q₂ ∧ q.find? p = some a ∧ q' = q₁ ++ f a :: q₂ := by
  induction q generalizing q' with
  | nil => cases h
  | cons a q ih =>
      simp only [updateFirst] at h
      split_ifs at h with ha
      · exact ⟨[], a, q, rfl, List.find?_cons_of_pos ha, (Option.some.inj h).symm⟩
      · obtain ⟨r, hr, rfl⟩ := Option.map_eq_some_iff.mp h
        obtain ⟨q₁, b, q₂, rfl, hb, rfl⟩ := ih hr
        exact ⟨a :: q₁, b, q₂, rfl, (List.find?_cons_of_neg ha).trans hb, rfl⟩

lemma updateFirst_eq_none {p : α → Bool} {f : α → α} {q : List α}
    (h : updateFirst p f q = none) : ∀ a ∈ q, p a = false := by
  induction q with
  | nil => exact fun _ ha => absurd ha List.not_mem_nil
  | cons a q ih =>
      simp only [updateFirst] at h
      split_ifs at h with ha
      have hrest := ih (Option.map_eq_none_iff.mp h)
      exact List.forall_mem_cons.mpr ⟨Bool.eq_false_iff.mpr ha, hrest⟩

/-- One request changes, and those ahead and behind are related to it as before. -/
lemma pairwise_replace {E : α → α → Prop} {q₁ q₂ : List α} {a a' : α}
    (h : (q₁ ++ a :: q₂).Pairwise E) (hleft : ∀ b ∈ q₁, E b a → E b a')
    (hright : ∀ b ∈ q₂, E a b → E a' b) : (q₁ ++ a' :: q₂).Pairwise E := by
  obtain ⟨hahead, hcons, hbetween⟩ := List.pairwise_append.mp h
  obtain ⟨hbehind, hrest⟩ := List.pairwise_cons.mp hcons
  refine List.pairwise_append.mpr ⟨hahead, List.pairwise_cons.mpr
    ⟨fun b hb => hright b hb (hbehind b hb), hrest⟩, fun b hb c hc => ?_⟩
  rcases List.mem_cons.mp hc with rfl | hc
  · exact hleft b hb (hbetween b hb a List.mem_cons_self)
  · exact hbetween b hb c (List.mem_cons_of_mem a hc)

/-! ## Looking for a request -/

/-- The search for a request that does not meet `p` finds one, and has skipped those before it. -/
lemma dropWhile_eq_cons {p : α → Bool} {q rest : List α} {a : α}
    (h : q.dropWhile p = a :: rest) :
    p a = false ∧ ∃ skipped, q = skipped ++ a :: rest ∧ ∀ b ∈ skipped, p b = true := by
  have hstop := List.head?_dropWhile_not p q
  rw [h] at hstop
  refine ⟨hstop, q.takeWhile p, ?_, fun b => List.mem_takeWhile_imp⟩
  rw [← h, List.takeWhile_append_dropWhile]

/-- The search does not get past a request that does not meet `p`. -/
lemma dropWhile_append_cons {p : α → Bool} {a : α} (ha : p a = false) (q rest : List α) :
    (q ++ a :: rest).dropWhile p = q.dropWhile p ++ a :: rest := by
  rw [List.dropWhile_append, List.dropWhile_cons_of_neg (by simp [ha])]
  split_ifs with hempty
  · rw [List.isEmpty_iff.mp hempty, List.nil_append]
  · rfl

end Multicore
