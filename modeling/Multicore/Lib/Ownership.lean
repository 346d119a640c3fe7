import Mathlib.Data.Set.Basic
import Mathlib.Logic.Function.Basic
import Mathlib.Tactic

/-!
# Who holds which node

Threads that work on the nodes of one heap, each node with a mutex.  What a program counter has to
do with a node is one of three things:

* it `Holds` the node: it has locked the node's mutex;
* it `Knows` the node: it has the node's address in a variable;
* it `Owns` the node: nobody else can get at the address, for example because the node has just been
  allocated.

`Ownership` says how these go together for two threads, and **`Ownership.update`** what one thread
has to see to when it moves.  `Manned` is the converse of its first part: a locked mutex is held by
somebody.
-/

namespace Multicore

variable {τ π α : Type*}

/-- Mutexes are held by one thread at a time, and owned nodes are known to nobody. -/
structure Ownership (Holds Knows Owns : π → α → Prop) (mutex : α → Bool) (thread : τ → π) :
    Prop where
  locked : ∀ t a, Holds (thread t) a → mutex a = true
  excl : ∀ t u a, t ≠ u → Holds (thread t) a → ¬ Holds (thread u) a
  apart : ∀ t u a, Owns (thread t) a → ¬ Knows (thread u) a
  distinct : ∀ t u a, Owns (thread t) a → Owns (thread u) a → t = u

variable [DecidableEq τ] {Holds Knows Owns : π → α → Prop} {mutex mutex' : α → Bool}
  {thread : τ → π} {t : τ} {pc : π}

/-- **Thread `t` moves.**  It holds what it has locked and nobody else holds; it owns what it owned
or what is new to everybody; and what it knows it knew before or nobody owns. -/
theorem Ownership.update (h : Ownership Holds Knows Owns mutex thread)
    (hlocked : ∀ a, Holds pc a → mutex' a = true)
    (hfree : ∀ a, Holds pc a → ∀ u, u ≠ t → ¬ Holds (thread u) a)
    (hkeep : ∀ u, u ≠ t → ∀ a, Holds (thread u) a → mutex' a = true)
    (hown : ∀ a, Owns pc a → ¬ Knows pc a ∧ (Owns (thread t) a ∨
      ∀ u, u ≠ t → ¬ Knows (thread u) a ∧ ¬ Owns (thread u) a))
    (hknows : ∀ a, Knows pc a → Knows (thread t) a ∨ ∀ u, u ≠ t → ¬ Owns (thread u) a) :
    Ownership Holds Knows Owns mutex' (Function.update thread t pc) := by
  have hupd : ∀ u, u ≠ t → Function.update thread t pc u = thread u :=
    fun u hu => Function.update_of_ne hu _ _
  have hself : Function.update thread t pc t = pc := Function.update_self _ _ _
  have clash : ∀ {w a}, w ≠ t → Owns pc a → ¬ Owns (thread w) a := by
    intro w a hw hpc ho
    rcases (hown a hpc).2 with hpc | hno
    · exact hw (h.distinct w t a ho hpc)
    · exact (hno w hw).2 ho
  refine ⟨fun u a => ?_, fun u v a huv => ?_, fun u v a ho => ?_, fun u v a ho ho' => ?_⟩
  · by_cases hu : u = t
    · rw [hu, hself]
      exact hlocked a
    · rw [hupd u hu]
      exact hkeep u hu a
  · by_cases hu : u = t
    · subst hu
      rw [hself, hupd v huv.symm]
      exact fun ha => hfree a ha v huv.symm
    · rw [hupd u hu]
      by_cases hv : v = t
      · rw [hv, hself]
        exact fun ha ha' => hfree a ha' u hu ha
      · rw [hupd v hv]
        exact h.excl u v a huv
  · by_cases hu : u = t
    · rw [hu, hself] at ho
      by_cases hv : v = t
      · rw [hv, hself]
        exact (hown a ho).1
      · rw [hupd v hv]
        rcases (hown a ho).2 with ho | hno
        · exact h.apart t v a ho
        · exact (hno v hv).1
    · rw [hupd u hu] at ho
      by_cases hv : v = t
      · rw [hv, hself]
        intro hk
        rcases hknows a hk with hk | hno
        · exact h.apart u t a ho hk
        · exact hno u hu ho
      · rw [hupd v hv]
        exact h.apart u v a ho
  · by_cases hu : u = t
    · rw [hu, hself] at ho
      by_cases hv : v = t
      · rw [hu, hv]
      · rw [hupd v hv] at ho'
        exact (clash hv ho ho').elim
    · rw [hupd u hu] at ho
      by_cases hv : v = t
      · rw [hv, hself] at ho'
        exact (clash hu ho' ho).elim
      · rw [hupd v hv] at ho'
        exact h.distinct u v a ho ho'

/-- The common case: no mutex changes, and the thread neither holds nor owns anything new. -/
lemma Ownership.keep (h : Ownership Holds Knows Owns mutex thread)
    (hholds : ∀ a, Holds pc a → Holds (thread t) a)
    (hown : ∀ a, Owns pc a → ¬ Knows pc a ∧ Owns (thread t) a)
    (hknows : ∀ a, Knows pc a → Knows (thread t) a ∨ ∀ u, u ≠ t → ¬ Owns (thread u) a) :
    Ownership Holds Knows Owns mutex (Function.update thread t pc) :=
  h.update (fun a ha => h.locked t a (hholds a ha))
    (fun a ha u hu => h.excl t u a hu.symm (hholds a ha)) (fun u _ => h.locked u)
    (fun a ha => (hown a ha).imp_right .inl) hknows

section Lock

variable [DecidableEq α] {x : α}

/-- The thread locks the mutex of `x`. -/
lemma Ownership.lock (h : Ownership Holds Knows Owns mutex thread) (hm : mutex x = false)
    (hholds : ∀ a, Holds pc a → a = x ∨ Holds (thread t) a)
    (hown : ∀ a, Owns pc a → ¬ Knows pc a ∧ Owns (thread t) a)
    (hknows : ∀ a, Knows pc a → Knows (thread t) a ∨ ∀ u, u ≠ t → ¬ Owns (thread u) a) :
    Ownership Holds Knows Owns (Function.update mutex x true) (Function.update thread t pc) := by
  have hnot : ∀ u, ¬ Holds (thread u) x := fun u hu => by simp [h.locked u x hu] at hm
  have hset : ∀ a, mutex a = true → Function.update mutex x true a = true := fun a ha => by
    rw [Function.update_apply]
    split_ifs
    · rfl
    · exact ha
  refine h.update (fun a ha => ?_) (fun a ha u hu => ?_) (fun u _ a ha => hset a (h.locked u a ha))
    (fun a ha => (hown a ha).imp_right .inl) hknows
  · rcases hholds a ha with rfl | ha
    · exact Function.update_self _ _ _
    · exact hset a (h.locked t a ha)
  · rcases hholds a ha with rfl | ha
    · exact hnot u
    · exact h.excl t u a hu.symm ha

/-- The thread unlocks the mutex of `x`. -/
lemma Ownership.unlock (h : Ownership Holds Knows Owns mutex thread) (hx : Holds (thread t) x)
    (hholds : ∀ a, Holds pc a → a ≠ x ∧ Holds (thread t) a)
    (hown : ∀ a, Owns pc a → ¬ Knows pc a ∧ Owns (thread t) a)
    (hknows : ∀ a, Knows pc a → Knows (thread t) a ∨ ∀ u, u ≠ t → ¬ Owns (thread u) a) :
    Ownership Holds Knows Owns (Function.update mutex x false) (Function.update thread t pc) := by
  refine h.update (fun a ha => ?_) (fun a ha u hu => ?_) (fun u hu a ha => ?_)
    (fun a ha => (hown a ha).imp_right .inl) hknows
  · rw [Function.update_of_ne (hholds a ha).1]
    exact h.locked t a (hholds a ha).2
  · exact h.excl t u a hu.symm (hholds a ha).2
  · rw [Function.update_of_ne]
    · exact h.locked u a ha
    · rintro rfl
      exact h.excl t u _ hu.symm hx ha

end Lock

/-! ## Locked mutexes are held -/

/-- Somebody holds every mutex that is locked. -/
def Manned (Holds : π → α → Prop) (mutex : α → Bool) (thread : τ → π) : Prop :=
  ∀ a, mutex a = true → ∃ t, Holds (thread t) a

namespace Manned

variable (h : Manned Holds mutex thread)

include h

/-- **Thread `t` moves**: what is locked then it holds, or another thread has held it before. -/
theorem update (hlocked : ∀ a, mutex' a = true →
      Holds pc a ∨ mutex a = true ∧ ¬ Holds (thread t) a) :
    Manned Holds mutex' (Function.update thread t pc) := by
  intro a ha
  rcases hlocked a ha with hself | ⟨hold, hnot⟩
  · exact ⟨t, by rwa [Function.update_self]⟩
  · obtain ⟨u, hu⟩ := h a hold
    have hut : u ≠ t := by
      rintro rfl
      exact hnot hu
    exact ⟨u, by rwa [Function.update_of_ne hut]⟩

/-- It keeps its mutexes. -/
lemma keep (hheld : ∀ a, Holds (thread t) a → Holds pc a) :
    Manned Holds mutex (Function.update thread t pc) :=
  h.update fun a ha => by
    by_cases hin : Holds (thread t) a
    · exact .inl (hheld a hin)
    · exact .inr ⟨ha, hin⟩

variable [DecidableEq α] {b : α}

/-- It locks the mutex `b`. -/
lemma lock (hb : Holds pc b) (hheld : ∀ a, Holds (thread t) a → Holds pc a) :
    Manned Holds (Function.update mutex b true) (Function.update thread t pc) :=
  h.update fun a ha => by
    by_cases hab : a = b
    · exact .inl (hab ▸ hb)
    · rw [Function.update_of_ne hab] at ha
      by_cases hin : Holds (thread t) a
      · exact .inl (hheld a hin)
      · exact .inr ⟨ha, hin⟩

/-- It unlocks the mutex `b`. -/
lemma unlock (hheld : ∀ a, Holds (thread t) a → a ≠ b → Holds pc a) :
    Manned Holds (Function.update mutex b false) (Function.update thread t pc) :=
  h.update fun a ha => by
    have hab : a ≠ b := by
      rintro rfl
      simp at ha
    rw [Function.update_of_ne hab] at ha
    by_cases hin : Holds (thread t) a
    · exact .inl (hheld a hin hab)
    · exact .inr ⟨ha, hin⟩

end Manned

end Multicore
