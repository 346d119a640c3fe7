import Multicore.Lib.Machine

/-!
# What a machine can still do, and what it can no longer do

Rules about the parts of runs that begin in a given state.

* `Machine.Leads ok s P` — from `s` some run whose steps all meet `ok` ends in a state with `P`.
  **`Machine.leads_of_rank`** is the way to prove it: as long as `P` is not reached there is a step
  that keeps an invariant and lowers a rank.
* **`Machine.Run.stays`** — a set of states that no step leaves: a run that begins there never
  gets out of it.
* **`Machine.Trace.count_add_le`** — a potential that pays for the actions of one kind bounds how
  many of them follow.
* `sum_lt_of_thread`, `sum_le_add_of_thread`, `sum_lt_of_reserve` — what a step of one thread does
  to a sum over all.
* **`exists_not_blocked`** — threads that take their locks in increasing order do not all wait for
  each other.
-/

namespace Multicore.Machine

variable {σ α : Type*} {M : Machine σ α} {ok : σ → α → Prop} {s s₁ s₂ : σ} {P Q I : σ → Prop}

/-! ## Parts of runs -/

/-- A part of a run can be continued by another one. -/
lemma Run.startAt_trans (h₁ : (M.startAt s).Run ok s₁) (h₂ : (M.startAt s₁).Run ok s₂) :
    (M.startAt s).Run ok s₂ := by
  induction h₂ with
  | init h0 => exact h0 ▸ h₁
  | step _ hok hstep ih => exact .step ih hok hstep

/-- **A set of states that no step leaves.** -/
theorem Run.stays (hstep : ∀ s a s', I s → M.step s a = some s' → I s') (hs : I s)
    (h : (M.startAt s).Run ok s₁) : I s₁ := by
  induction h with
  | init h0 => exact h0 ▸ hs
  | step _ _ hs' ih => exact hstep _ _ _ ih hs'

/-! ## Reaching a goal -/

/-- Some run from `s`, all of whose steps meet `ok`, ends in a state with `P`. -/
def Leads (M : Machine σ α) (ok : σ → α → Prop) (s : σ) (P : σ → Prop) : Prop :=
  ∃ s', (M.startAt s).Run ok s' ∧ P s'

lemma Leads.refl (h : P s) : M.Leads ok s P := ⟨s, .init rfl, h⟩

lemma Leads.trans (h : M.Leads ok s P) (hPQ : ∀ s', P s' → M.Leads ok s' Q) :
    M.Leads ok s Q := by
  obtain ⟨s₁, hrun, hP⟩ := h
  obtain ⟨s₂, hrun', hQ⟩ := hPQ s₁ hP
  exact ⟨s₂, hrun.startAt_trans hrun', hQ⟩

lemma Leads.step {a : α} (hok : ok s a) (hs : M.step s a = some s₁) (h : M.Leads ok s₁ P) :
    M.Leads ok s P := by
  obtain ⟨s₂, hrun, hP⟩ := h
  have hfirst : (M.startAt s).Run ok s₁ := .step (.init rfl) hok hs
  exact ⟨s₂, hfirst.startAt_trans hrun, hP⟩

lemma Leads.mono (h : M.Leads ok s P) (hPQ : ∀ s', P s' → Q s') : M.Leads ok s Q := by
  obtain ⟨s₁, hrun, hP⟩ := h
  exact ⟨s₁, hrun, hPQ s₁ hP⟩

/-- **The rank rule.**  As long as the goal is not reached, some step keeps the invariant and
lowers the rank. -/
theorem leads_of_rank (rank : σ → ℕ)
    (hprogress : ∀ s, I s → ¬ P s →
      ∃ a s', ok s a ∧ M.step s a = some s' ∧ I s' ∧ rank s' < rank s) :
    ∀ s, I s → M.Leads ok s fun s' => I s' ∧ P s' := by
  intro s
  induction hn : rank s using Nat.strong_induction_on generalizing s with
  | _ n ih =>
      intro hI
      by_cases hP : P s
      · exact .refl ⟨hI, hP⟩
      · obtain ⟨a, s', hok, hs, hI', hlt⟩ := hprogress s hI hP
        exact .step hok hs (ih (rank s') (hn ▸ hlt) s' rfl hI')

/-! ## Paying for actions -/

lemma Trace.count_succ (e : M.Trace ok) (p : σ → α → Bool) {k : ℕ} {a : α}
    (hact : e.acts[k]? = some a) :
    e.count p (k + 1) = e.count p k + if p (e.state k) a then 1 else 0 := by
  simp only [Trace.count, hact, Option.any_some]

/-- **The potential rule.**  If from action `start` on no action raises the potential, and those
that meet `p` lower it, then it pays for all of them. -/
theorem Trace.count_add_le (e : M.Trace ok) (p : σ → α → Bool) (potential : σ → ℕ)
    {start stop : ℕ} (hle : start ≤ stop) (hlen : stop ≤ e.acts.length)
    (hpaid : ∀ k a, start ≤ k → e.acts[k]? = some a →
      potential (e.state (k + 1)) + (if p (e.state k) a then 1 else 0) ≤ potential (e.state k)) :
    e.count p stop + potential (e.state stop) ≤ e.count p start + potential (e.state start) := by
  induction stop, hle using Nat.le_induction with
  | base => exact le_rfl
  | succ k hk ih =>
      have hprev := ih (Nat.le_of_succ_le hlen)
      have hact := List.getElem?_eq_getElem (l := e.acts) hlen
      have hstep := hpaid k _ hk hact
      rw [e.count_succ p hact]
      omega

/-- Counting all actions counts the steps. -/
lemma Trace.count_true (e : M.Trace ok) {k : ℕ} (hk : k ≤ e.acts.length) :
    e.count (fun _ _ => true) k = k := by
  induction k with
  | zero => rfl
  | succ k ih =>
      rw [e.count_succ _ (List.getElem?_eq_getElem hk), ih (Nat.le_of_succ_le hk), if_pos rfl]

end Multicore.Machine

/-! ## One thread moves -/

section Sum

variable {τ : Type*} [Fintype τ] {cost cost' : τ → ℕ} {t : τ}

/-- The cost of one thread goes down, and that of no other thread goes up. -/
lemma Multicore.sum_lt_of_thread (hself : cost' t < cost t)
    (hothers : ∀ u, u ≠ t → cost' u ≤ cost u) : ∑ u, cost' u < ∑ u, cost u := by
  refine Finset.sum_lt_sum (fun u _ => ?_) ⟨t, Finset.mem_univ t, hself⟩
  by_cases hut : u = t
  · exact hut ▸ hself.le
  · exact hothers u hut

/-- The cost of one thread goes up by at most `c`. -/
lemma Multicore.sum_le_add_of_thread {c : ℕ} (hself : cost' t ≤ cost t + c)
    (hothers : ∀ u, u ≠ t → cost' u ≤ cost u) : ∑ u, cost' u ≤ ∑ u, cost u + c := by
  classical
  rw [← Finset.add_sum_erase _ cost' (Finset.mem_univ t),
    ← Finset.add_sum_erase _ cost (Finset.mem_univ t)]
  have hrest : ∑ u ∈ Finset.univ.erase t, cost' u ≤ ∑ u ∈ Finset.univ.erase t, cost u :=
    Finset.sum_le_sum fun u hu => hothers u (Finset.ne_of_mem_erase hu)
  omega

/-- The cost of one thread goes down by so much that it pays for what the others are charged. -/
lemma Multicore.sum_lt_of_reserve {c : ℕ} (hself : cost' t + Fintype.card τ * c < cost t)
    (hothers : ∀ u, u ≠ t → cost' u ≤ cost u + c) : ∑ u, cost' u < ∑ u, cost u := by
  classical
  rw [← Finset.add_sum_erase _ cost' (Finset.mem_univ t),
    ← Finset.add_sum_erase _ cost (Finset.mem_univ t)]
  have hrest : ∑ u ∈ Finset.univ.erase t, cost' u
      ≤ ∑ u ∈ Finset.univ.erase t, cost u + (Finset.univ.erase t).card * c := by
    calc ∑ u ∈ Finset.univ.erase t, cost' u
        ≤ ∑ u ∈ Finset.univ.erase t, (cost u + c) :=
          Finset.sum_le_sum fun u hu => hothers u (Finset.ne_of_mem_erase hu)
      _ = ∑ u ∈ Finset.univ.erase t, cost u + (Finset.univ.erase t).card * c := by
          rw [Finset.sum_add_distrib, Finset.sum_const, smul_eq_mul]
  have hcard : (Finset.univ.erase t).card * c ≤ Fintype.card τ * c :=
    Nat.mul_le_mul_right c (Finset.card_le_univ _)
  omega

end Sum

/-! ## Waiting for locks -/

/-- **Locks in increasing order.**  If whoever waits holds only locks of smaller rank than the one
it waits for, then in every set of threads that wait for nobody else one does not wait. -/
theorem Multicore.exists_not_blocked {τ ι κ : Type*} [LinearOrder κ] {S : Set τ} (hfin : S.Finite)
    (hne : S.Nonempty) (awaits : τ → Option ι) (Holds : τ → ι → Prop) (Locked : ι → Prop)
    (rank : ι → κ) (hheld : ∀ t ∈ S, ∀ a, awaits t = some a → Locked a → ∃ u ∈ S, Holds u a)
    (horder : ∀ t ∈ S, ∀ a b, Holds t a → awaits t = some b → rank a < rank b) :
    ∃ t ∈ S, ∀ a, awaits t = some a → ¬ Locked a := by
  by_contra hno
  push Not at hno
  obtain ⟨t₀, ht₀⟩ := hne
  obtain ⟨a₀, -, -⟩ := hno t₀ ht₀
  -- the thread that waits for the lock of highest rank
  obtain ⟨t, ht, hmax⟩ := S.exists_max_image (fun t => rank ((awaits t).getD a₀)) hfin ⟨t₀, ht₀⟩
  obtain ⟨a, ha, hlocked⟩ := hno t ht
  obtain ⟨u, hu, hua⟩ := hheld t ht a ha hlocked
  obtain ⟨b, hb, -⟩ := hno u hu
  have hle := hmax u hu
  simp only [ha, hb, Option.getD_some] at hle
  exact absurd (horder u hu a b hua hb) hle.not_gt
