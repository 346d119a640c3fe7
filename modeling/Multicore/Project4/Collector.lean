import Multicore.Project4.Locks

/-!
# The garbage collector

After `lock_release`, one transaction at a time goes through `lock_sys->gclist` and frees the locks
whose timestamp is below `min_timestamp` (`lock_trx_release_locks`).  It keeps a pointer
`prev_gclist_lock` to take locks out of the middle of the list; the lock that was the last one when
it started stays.

* `Gc`, `gcStep` — the program counter of the loop, with its local variables, and its steps, one
  load, store or call of `ut_free` a step.
* `GStep` — the same as a relation, one case per outcome (`gstep_of_gcStep`).
-/

namespace Multicore.Project4

/-- `ulint min_timestamp = std::numeric_limits<ulint>::max();` -/
def ulintMax : ℕ := 2 ^ 64 - 1

namespace Mem

variable {ι : Type*}

/-- `lock_sys->gclist->head = v` -/
def setGcHead (m : Mem ι) (v : Option ℕ) : Mem ι := { m with gcHead := v }

/-- `lock->gc_hash = v` -/
def setGcHash (m : Mem ι) (x : ℕ) (v : Option ℕ) : Mem ι :=
  { m with gcHash := Function.update m.gcHash x v }

/-- `ut_free(lock)`.  The memory keeps its contents until it is allocated again. -/
def utFree (m : Mem ι) (x : ℕ) : Mem ι := { m with freed := Function.update m.freed x true }

end Mem

/-- Where the collector stands; `old`, `prev` and `cur` are `old_gclist_tail`, `prev_gclist_lock`
and `cur_gclist_lock`. -/
inductive Gc
  /-- `old_gclist_tail = gclist->tail;` -/
  | tail
  /-- `cur_gclist_lock = gclist->head;` -/
  | head (old : Option ℕ)
  /-- `while (cur != NULL && cur != old)`, and the load of `gclist->head` in the first `if` -/
  | loop (old prev cur : Option ℕ)
  /-- `cur->timestamp < min_timestamp` in the first `if` -/
  | headTime (old prev : Option ℕ) (cur : ℕ)
  /-- the load of `cur->gc_hash` -/
  | headHash (old prev : Option ℕ) (cur : ℕ)
  /-- `gclist->head = v;` -/
  | headStore (old prev : Option ℕ) (cur : ℕ) (v : Option ℕ)
  | headFree (old prev : Option ℕ) (cur : ℕ)
  /-- `cur = gclist->head; continue;` -/
  | headNext (old prev : Option ℕ)
  /-- `cur->timestamp < min_timestamp` in the second `if` -/
  | time (old prev : Option ℕ) (cur : ℕ)
  /-- the load of `cur->gc_hash` -/
  | hash (old prev : Option ℕ) (cur : ℕ)
  /-- `prev->gc_hash = v;` -/
  | store (old prev : Option ℕ) (cur : ℕ) (v : Option ℕ)
  | free (old : Option ℕ) (prev cur : ℕ)
  /-- `cur = prev->gc_hash;` -/
  | next (old : Option ℕ) (prev : ℕ)
  /-- `prev = cur; cur = cur->gc_hash;` -/
  | advance (old : Option ℕ) (cur : ℕ)
  | done
  /-- a null pointer has been used -/
  | failed
  deriving DecidableEq

/-- The lock that a walk is appending to the garbage list. -/
def Walk.appends : Walk → List ℕ
  | .append x _ _ => [x]
  | .clock x _ _ _ => [x]
  | .stamp x _ _ _ _ => [x]
  | .gcLink x _ _ _ => [x]
  | _ => []

variable {ι : Type*}

/-- One step of the collector. -/
def gcStep (min : ℕ) (m : Mem ι) : Gc → Option (Mem ι × Gc)
  | .tail => some (m, .head m.gcTail)
  | .head old => some (m, .loop old none m.gcHead)
  | .loop old prev cur =>
      match cur with
      | none => some (m, .done)
      | some x =>
          if old = some x then some (m, .done)
          else if m.gcHead = some x then some (m, .headTime old prev x)
          else some (m, .time old prev x)
  | .headTime old prev x =>
      if m.timestamp x < min then some (m, .headHash old prev x) else some (m, .time old prev x)
  | .headHash old prev x => some (m, .headStore old prev x (m.gcHash x))
  | .headStore old prev x v => some (m.setGcHead v, .headFree old prev x)
  | .headFree old prev x => some (m.utFree x, .headNext old prev)
  | .headNext old prev => some (m, .loop old prev m.gcHead)
  | .time old prev x =>
      if m.timestamp x < min then some (m, .hash old prev x) else some (m, .advance old x)
  | .hash old prev x => some (m, .store old prev x (m.gcHash x))
  | .store old prev x v =>
      match prev with
      | none => some (m, .failed)
      | some p => some (m.setGcHash p v, .free old p x)
  | .free old p x => some (m.utFree x, .next old p)
  | .next old p => some (m, .loop old (some p) (m.gcHash p))
  | .advance old x => some (m, .loop old (some x) (m.gcHash x))
  | .done => none
  | .failed => none

/-- What one step of the collector can do, one case per outcome. -/
inductive GStep (min : ℕ) (m : Mem ι) : Gc → Mem ι → Gc → Prop
  | tail : GStep min m .tail m (.head m.gcTail)
  | head (old : Option ℕ) : GStep min m (.head old) m (.loop old none m.gcHead)
  | loopNull (old prev : Option ℕ) : GStep min m (.loop old prev none) m .done
  | loopEnd (prev : Option ℕ) (x : ℕ) : GStep min m (.loop (some x) prev (some x)) m .done
  | loopHead (old prev : Option ℕ) (x : ℕ) (hold : old ≠ some x) (h : m.gcHead = some x) :
      GStep min m (.loop old prev (some x)) m (.headTime old prev x)
  | loop (old prev : Option ℕ) (x : ℕ) (hold : old ≠ some x) (h : m.gcHead ≠ some x) :
      GStep min m (.loop old prev (some x)) m (.time old prev x)
  | headOld (old prev : Option ℕ) (x : ℕ) (h : m.timestamp x < min) :
      GStep min m (.headTime old prev x) m (.headHash old prev x)
  | headKeep (old prev : Option ℕ) (x : ℕ) (h : min ≤ m.timestamp x) :
      GStep min m (.headTime old prev x) m (.time old prev x)
  | headHash (old prev : Option ℕ) (x : ℕ) :
      GStep min m (.headHash old prev x) m (.headStore old prev x (m.gcHash x))
  | headStore (old prev : Option ℕ) (x : ℕ) (v : Option ℕ) :
      GStep min m (.headStore old prev x v) (m.setGcHead v) (.headFree old prev x)
  | headFree (old prev : Option ℕ) (x : ℕ) :
      GStep min m (.headFree old prev x) (m.utFree x) (.headNext old prev)
  | headNext (old prev : Option ℕ) :
      GStep min m (.headNext old prev) m (.loop old prev m.gcHead)
  | old (old prev : Option ℕ) (x : ℕ) (h : m.timestamp x < min) :
      GStep min m (.time old prev x) m (.hash old prev x)
  | keep (old prev : Option ℕ) (x : ℕ) (h : min ≤ m.timestamp x) :
      GStep min m (.time old prev x) m (.advance old x)
  | hash (old prev : Option ℕ) (x : ℕ) :
      GStep min m (.hash old prev x) m (.store old prev x (m.gcHash x))
  | storeNull (old : Option ℕ) (x : ℕ) (v : Option ℕ) :
      GStep min m (.store old none x v) m .failed
  | store (old : Option ℕ) (p x : ℕ) (v : Option ℕ) :
      GStep min m (.store old (some p) x v) (m.setGcHash p v) (.free old p x)
  | free (old : Option ℕ) (p x : ℕ) : GStep min m (.free old p x) (m.utFree x) (.next old p)
  | next (old : Option ℕ) (p : ℕ) :
      GStep min m (.next old p) m (.loop old (some p) (m.gcHash p))
  | advance (old : Option ℕ) (x : ℕ) :
      GStep min m (.advance old x) m (.loop old (some x) (m.gcHash x))

/-- Every step of the collector is one of these. -/
theorem gstep_of_gcStep {min : ℕ} {m m' : Mem ι} {g g' : Gc}
    (h : gcStep min m g = some (m', g')) : GStep min m g m' g' := by
  cases g with
  | loop old prev cur =>
      cases cur with
      | none =>
          simp only [gcStep, Option.some.injEq, Prod.mk.injEq] at h
          obtain ⟨rfl, rfl⟩ := h
          exact .loopNull old prev
      | some x =>
          simp only [gcStep] at h
          split_ifs at h with hold hhead <;> simp only [Option.some.injEq, Prod.mk.injEq] at h <;>
            obtain ⟨rfl, rfl⟩ := h
          · subst hold
            exact .loopEnd prev x
          · exact .loopHead old prev x hold hhead
          · exact .loop old prev x hold hhead
  | headTime old prev x =>
      simp only [gcStep] at h
      split_ifs at h with ht <;> simp only [Option.some.injEq, Prod.mk.injEq] at h <;>
        obtain ⟨rfl, rfl⟩ := h
      · exact .headOld old prev x ht
      · exact .headKeep old prev x (Nat.le_of_not_lt ht)
  | time old prev x =>
      simp only [gcStep] at h
      split_ifs at h with ht <;> simp only [Option.some.injEq, Prod.mk.injEq] at h <;>
        obtain ⟨rfl, rfl⟩ := h
      · exact .old old prev x ht
      · exact .keep old prev x (Nat.le_of_not_lt ht)
  | store old prev x v =>
      cases prev <;> simp only [gcStep, Option.some.injEq, Prod.mk.injEq] at h <;>
        obtain ⟨rfl, rfl⟩ := h
      · exact .storeNull old x v
      · exact .store old _ x v
  | done => simp [gcStep] at h
  | failed => simp [gcStep] at h
  | _ =>
      simp only [gcStep, Option.some.injEq, Prod.mk.injEq] at h
      obtain ⟨rfl, rfl⟩ := h
      constructor

end Multicore.Project4
