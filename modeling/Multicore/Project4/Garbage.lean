import Multicore.Project4.Collector

/-!
# The garbage list

Any number of threads append locks to `lock_sys->gclist` while one collector goes through it.  An
append swaps `gclist->tail`, sets the lock's timestamp and then stores the link to the lock, in
`gclist->head` or in the lock that was the last one.  In between it is *half done*, and the list
ends early.  A lock that is freed just then takes the rest of the list with it.

* `State.step` — the system; the appends are the steps of the walk from its compare-and-swap on.
  Locks are numbered in the order in which they are appended first, and a lock may be appended
  again, as it is when two walks unlink it.
* `Intact` — the property: a lock whose append is complete can be reached or is freed, no lock is
  freed twice, no append stores into a lock that is freed.
* `InOrder` — the condition: a lock is appended once, appends are completed in the order of their
  swaps, and the collector starts with a minimum below the clock and does not free a lock while the
  append behind it is half done.
* `Listed`, `Collecting` — the invariant, for the list and for the collector.
* **`garbage_intact`** and, without the condition, **`garbage_lost`**.
-/

namespace Multicore.Project4.Garbage

variable {τ : Type*}

/-! ## The system -/

/-- The appends, and the pass of the collector with its `min_timestamp`, if there is one. -/
structure State (τ : Type*) where
  mem : Mem Unit
  app : τ → Option Walk
  gc : Option (ℕ × Gc)

/-- What happens next. -/
inductive Act (τ : Type*)
  /-- a thread swaps `gclist->tail` for the lock `x`, in the first or second loop of a walk -/
  | append (t : τ) (x : ℕ) (mid : Bool)
  /-- the next step of its append -/
  | go (t : τ)
  /-- some transaction takes a timestamp -/
  | tick
  /-- a pass of the collector starts -/
  | collect (min : ℕ)
  /-- the next step of the collector -/
  | gc

/-- The system at the start. -/
def State.start : State τ := ⟨Mem.start, fun _ => none, none⟩

section Step

variable [DecidableEq τ]

/-- One step.  An append is of a lock that has been appended before, or of the next one.  The
collector starts with any number for `min_timestamp`. -/
def State.step (s : State τ) : Act τ → Option (State τ)
  | .append t x mid =>
      match s.app t with
      | none =>
          if x ≤ s.mem.fresh then
            (walkStep () x s.mem (.append x x mid)).map fun (m, w) =>
              { s with
                mem := { m with fresh := max m.fresh (x + 1) }
                app := Function.update s.app t (some w) }
          else none
      | some _ => none
  | .go t =>
      match s.app t with
      | none => none
      | some w =>
          (walkStep () 0 s.mem w).map fun (m, w') =>
            { s with
              mem := m
              app := Function.update s.app t (if w'.appends = [] then none else some w') }
  | .tick => some { s with mem := { s.mem with sysTimestamp := s.mem.sysTimestamp + 1 } }
  | .collect min =>
      if s.gc = none then some { s with gc := some (min, .tail) } else none
  | .gc =>
      match s.gc with
      | none => none
      | some (_, .done) => some { s with gc := none }
      | some (min, g) =>
          (gcStep min s.mem g).map fun (m, g') => { s with mem := m, gc := some (min, g') }

/-- The garbage list with the threads `τ`. -/
def gcList (τ : Type*) [DecidableEq τ] : Machine (State τ) (Act τ) where
  init s := s = State.start
  step s a := s.step a

end Step

/-! ## The property and the condition -/

/-- The lock that the collector has taken out of the list and frees next. -/
def frees : Gc → Option ℕ
  | .headFree _ _ x => some x
  | .free _ _ x => some x
  | _ => none

/-- The lock into which the next step of an append stores. -/
def target : Walk → Option ℕ
  | .stamp x _ _ _ _ => some x
  | .gcLink _ oldTail _ _ => oldTail
  | _ => none

namespace State

variable (s : State τ)

/-- The append of `x` is half done. -/
def HalfDone (x : ℕ) : Prop := ∃ t, ∃ w ∈ s.app t, x ∈ w.appends

/-- `x` is freed, or is the lock that the collector frees next. -/
def Gone (x : ℕ) : Prop := s.mem.freed x = true ∨ ∃ p ∈ s.gc, frees p.2 = some x

/-- `x` can be reached from `gclist->head`. -/
def Reach (x : ℕ) : Prop :=
  ∃ h, s.mem.gcHead = some h ∧ Relation.ReflTransGen (fun a b => s.mem.gcHash a = some b) h x

end State

/-- The garbage list is intact. -/
structure Intact (s : State τ) : Prop where
  /-- a lock whose append is complete is in the list or is freed -/
  reach : ∀ x < s.mem.fresh, ¬ s.HalfDone x → s.Reach x ∨ s.Gone x
  /-- no lock is freed twice -/
  once : ∀ p ∈ s.gc, ∀ x ∈ frees p.2, s.mem.freed x = false
  /-- no append stores into a lock that is freed -/
  stores : ∀ t, ∀ w ∈ s.app t, ∀ x ∈ target w, s.mem.freed x = false

/-- The lock whose link the collector loads in order to free it. -/
def takes : Gc → Option ℕ
  | .headHash _ _ x => some x
  | .hash _ _ x => some x
  | _ => none

/-- The lock that the next step of an append links. -/
def links : Walk → Option ℕ
  | .gcLink x _ _ _ => some x
  | _ => none

/-- No lock is appended a second time, appends are completed in the order of their swaps, and the
collector does not take out a lock while the append behind it is half done.  Its `min_timestamp` is
below the clock, as it is when it has met a transaction that has taken a timestamp. -/
def InOrder (s : State τ) : Act τ → Prop
  | .append _ x _ => s.mem.fresh ≤ x
  | .go t => ∀ w ∈ s.app t, ∀ x ∈ links w, ∀ u, ∀ w' ∈ s.app u, ∀ y ∈ w'.appends, x ≤ y
  | .gc => ∀ p ∈ s.gc, ∀ x ∈ takes p.2, ∀ u, ∀ w ∈ s.app u, x + 1 ∉ w.appends
  | .collect min => min < s.mem.sysTimestamp
  | _ => True

instance [Fintype τ] (s : State τ) (a : Act τ) : Decidable (InOrder s a) :=
  match a with
  | .go t => inferInstanceAs (Decidable
      (∀ w ∈ s.app t, ∀ x ∈ links w, ∀ u, ∀ w' ∈ s.app u, ∀ y ∈ w'.appends, x ≤ y))
  | .gc => inferInstanceAs (Decidable
      (∀ p ∈ s.gc, ∀ x ∈ takes p.2, ∀ u, ∀ w ∈ s.app u, x + 1 ∉ w.appends))
  | .append _ x _ => inferInstanceAs (Decidable (s.mem.fresh ≤ x))
  | .tick => isTrue trivial
  | .collect min => inferInstanceAs (Decidable (min < s.mem.sysTimestamp))

/-! ## The list -/

/-- The list, where the appends of `half` are half done and the locks in `gone` are taken out. -/
structure Listed (m : Mem Unit) (half gone : ℕ → Prop) : Prop where
  lt : ∀ x, half x → x < m.fresh
  /-- what is half done is at the end -/
  suffix : ∀ x y, half x → x ≤ y → y < m.fresh → half y
  tail : ∀ x, m.gcTail = some x ↔ x + 1 = m.fresh
  /-- a link leads over what is gone -/
  hash : ∀ a b, m.gcHash a = some b → a < b ∧ b < m.fresh ∧ ¬ half b ∧
    (∀ c, a < c → c < b → gone c) ∧ (¬ gone a → ¬ gone b)
  missing : ∀ a, m.gcHash a = none → a + 1 < m.fresh → half (a + 1)
  head : ∀ x, m.gcHead = some x → x < m.fresh ∧ ¬ half x ∧ ¬ gone x ∧ ∀ c < x, gone c
  headless : m.gcHead = none → 0 < m.fresh → half 0
  /-- the last lock stays, and so does the one before an append that is half done -/
  behind : ∀ x, gone x → x + 1 < m.fresh ∧ ¬ half (x + 1)

section Listed

variable {m : Mem Unit} {half gone : ℕ → Prop} {x p b : ℕ}

/-- A lock that is being appended is not gone. -/
lemma Listed.not_gone_of_half (h : Listed m half gone) (hx : half x) : ¬ gone x := by
  intro hgone
  obtain ⟨hlt, hnext⟩ := h.behind x hgone
  exact hnext (h.suffix x (x + 1) hx (Nat.le_succ x) hlt)

/-- The lock before one that is being appended has no link. -/
lemma Listed.hash_of_half (h : Listed m half gone) (hx : half (x + 1)) : m.gcHash x = none := by
  cases hhash : m.gcHash x with
  | none => rfl
  | some b =>
      obtain ⟨hlt, hb, hhalf, -⟩ := h.hash x b hhash
      exact absurd (h.suffix (x + 1) b hx hlt hb) hhalf

/-- From a lock in the list up to one that is not gone there are links all the way. -/
lemma Listed.links (h : Listed m half gone) {a : ℕ} (hax : a ≤ x) (hx : x < m.fresh)
    (hhalf : ¬ half x) (hgone : ¬ gone x) (ha : ¬ gone a) :
    Relation.ReflTransGen (fun a b => m.gcHash a = some b) a x := by
  induction hd : x - a using Nat.strong_induction_on generalizing a with
  | _ d ih =>
      rcases hax.eq_or_lt with rfl | hlt
      · exact .refl
      · cases hhash : m.gcHash a with
        | none =>
            have hnext := h.missing a hhash (by omega)
            exact absurd (h.suffix (a + 1) x hnext hlt hx) hhalf
        | some b =>
            obtain ⟨hab, -, -, hskip, hb⟩ := h.hash a b hhash
            have hbx : b ≤ x := by
              by_contra hbx
              exact hgone (hskip x hlt (by omega))
            exact .head hhash (ih (x - b) (by omega) hbx (hb ha) rfl)

/-- A lock whose append is complete, and that is not gone, can be reached. -/
lemma Listed.reach (h : Listed m half gone) (hx : x < m.fresh) (hhalf : ¬ half x)
    (hgone : ¬ gone x) :
    ∃ y, m.gcHead = some y ∧ Relation.ReflTransGen (fun a b => m.gcHash a = some b) y x := by
  cases hhead : m.gcHead with
  | none =>
      have h0 := h.headless hhead (by omega)
      exact absurd (h.suffix 0 x h0 (Nat.zero_le x) hx) hhalf
  | some y =>
      obtain ⟨-, -, hy, hbefore⟩ := h.head y hhead
      have hyx : y ≤ x := by
        by_contra hyx
        exact hgone (hbefore x (by omega))
      exact ⟨y, rfl, h.links hyx hx hhalf hgone hy⟩

/-- A swap of the tail. -/
lemma Listed.append (h : Listed m half gone) :
    Listed { m.gcAppend m.fresh with fresh := m.fresh + 1 } (fun x => half x ∨ x = m.fresh)
      gone where
  lt x hx := by
    rcases hx with hx | rfl
    · exact Nat.lt_succ_of_lt (h.lt x hx)
    · exact Nat.lt_succ_self _
  suffix x y hx hxy hy := by
    have hy' : y < m.fresh + 1 := hy
    rcases hx with hx | rfl
    · by_cases hlast : y = m.fresh
      · exact Or.inr hlast
      · exact Or.inl (h.suffix x y hx hxy (by omega))
    · exact Or.inr (by omega)
  tail x := by
    simp only [Mem.gcAppend, Option.some.injEq]
    omega
  hash a b hab := by
    obtain ⟨hlt, hb, hhalf, hskip⟩ := h.hash a b hab
    refine ⟨hlt, Nat.lt_succ_of_lt hb, ?_, hskip⟩
    rintro (hb' | hb')
    · exact hhalf hb'
    · omega
  missing a ha hlt := by
    have hlt' : a + 1 < m.fresh + 1 := hlt
    by_cases hlast : a + 1 = m.fresh
    · exact Or.inr hlast
    · exact Or.inl (h.missing a ha (by omega))
  head x hx := by
    obtain ⟨hlt, hhalf, hrest⟩ := h.head x hx
    refine ⟨Nat.lt_succ_of_lt hlt, ?_, hrest⟩
    rintro (hx' | hx')
    · exact hhalf hx'
    · omega
  headless hnone _ := by
    by_cases h0 : m.fresh = 0
    · exact Or.inr h0.symm
    · exact Or.inl (h.headless hnone (by omega))
  behind x hx := by
    obtain ⟨hlt, hhalf⟩ := h.behind x hx
    refine ⟨Nat.lt_succ_of_lt hlt, ?_⟩
    rintro (hx' | hx')
    · exact hhalf hx'
    · omega

/-- The first lock that was ever appended found an empty list. -/
lemma eq_zero_of_none (hold : ∀ o, (none : Option ℕ) = some o ↔ o + 1 = x) : x = 0 := by
  by_contra h0
  have := (hold (x - 1)).2 (by omega)
  simp at this

/-- The link to a lock is stored, when it is the first one whose append is half done. -/
lemma Listed.link (h : Listed m half gone) (hx : half x) (hfirst : ∀ y, half y → x ≤ y)
    {oldTail : Option ℕ} (hold : ∀ o, oldTail = some o ↔ o + 1 = x) :
    Listed (m.gcLink x oldTail) (fun y => half y ∧ y ≠ x) gone := by
  have hfresh : (m.gcLink x oldTail).fresh = m.fresh := by cases oldTail <;> rfl
  have hlt := h.lt x hx
  have hbase : (∀ y, half y ∧ y ≠ x → y < m.fresh) ∧
      (∀ y z, half y ∧ y ≠ x → y ≤ z → z < m.fresh → half z ∧ z ≠ x) ∧
      ∀ y, gone y → y + 1 < m.fresh ∧ ¬(half (y + 1) ∧ y + 1 ≠ x) := by
    refine ⟨fun y hy => h.lt y hy.1, fun y z hy hyz hz => ⟨h.suffix y z hy.1 hyz hz, ?_⟩,
      fun y hy => ⟨(h.behind y hy).1, fun hn => (h.behind y hy).2 hn.1⟩⟩
    have := hfirst y hy.1
    have := hy.2
    omega
  cases oldTail with
  | none =>
      obtain rfl := eq_zero_of_none hold
      refine ⟨hbase.1, hbase.2.1, h.tail, fun a b hab => ?_, fun a ha hlt' => ?_,
        fun y hy => ?_, fun hnone => ?_, hbase.2.2⟩
      · obtain ⟨h1, h2, h3, h4⟩ := h.hash a b hab
        exact ⟨h1, h2, fun hn => h3 hn.1, h4⟩
      · exact ⟨h.missing a ha hlt', Nat.succ_ne_zero a⟩
      · obtain rfl : 0 = y := Option.some.inj hy
        exact ⟨hlt, fun hn => hn.2 rfl, h.not_gone_of_half hx, fun c hc => absurd hc (by omega)⟩
      · simp [Mem.gcLink] at hnone
  | some o =>
      have hox : o + 1 = x := (hold o).1 rfl
      refine ⟨hbase.1, hbase.2.1, h.tail, fun a b hab => ?_, fun a ha hlt' => ?_,
        fun y hy => ?_, fun hnone hpos => ?_, hbase.2.2⟩
      · simp only [Mem.gcLink, Function.update_apply] at hab
        split_ifs at hab with hao
        · obtain rfl := Option.some.inj hab
          subst hao
          exact ⟨by omega, hlt, fun hn => hn.2 rfl, fun c h1 h2 => absurd h1 (by omega),
            fun _ => h.not_gone_of_half hx⟩
        · obtain ⟨h1, h2, h3, h4⟩ := h.hash a b hab
          exact ⟨h1, h2, fun hn => h3 hn.1, h4⟩
      · simp only [Mem.gcLink, Function.update_apply] at ha
        split_ifs at ha with hao
        exact ⟨h.missing a ha hlt', by omega⟩
      · obtain ⟨h1, h2, h3⟩ := h.head y hy
        exact ⟨h1, fun hn => h2 hn.1, h3⟩
      · exact ⟨h.headless hnone hpos, by omega⟩

/-- The store of the head finds it empty. -/
lemma Listed.gcHead_link (h : Listed m half gone) (hx : half x) {oldTail : Option ℕ}
    (hold : ∀ o, oldTail = some o ↔ o + 1 = x) {y : ℕ} (hy : m.gcHead = some y) :
    (m.gcLink x oldTail).gcHead = some y := by
  cases oldTail with
  | some o => exact hy
  | none =>
      obtain ⟨hlt, hdone, -⟩ := h.head y hy
      obtain rfl := eq_zero_of_none hold
      exact absurd (h.suffix 0 y hx (Nat.zero_le y) hlt) hdone

/-- The store of a link finds it empty. -/
lemma Listed.gcHash_link (h : Listed m half gone) (hx : half x) {oldTail : Option ℕ}
    (hold : ∀ o, oldTail = some o ↔ o + 1 = x) {a c : ℕ} (hac : m.gcHash a = some c) :
    (m.gcLink x oldTail).gcHash a = some c := by
  cases oldTail with
  | none => exact hac
  | some o =>
      refine (Function.update_of_ne ?_ _ _).trans hac
      rintro rfl
      rw [← (hold a).1 rfl] at hx
      simp [h.hash_of_half hx] at hac

section Take

variable (h : Listed m half gone) (hhash : m.gcHash x = some b)

include h hhash

/-- A lock with a link is not the last one. -/
lemma Listed.behind_take : ∀ y, gone y ∨ y = x → y + 1 < m.fresh ∧ ¬ half (y + 1) := by
  rintro y (hy | rfl)
  · exact h.behind y hy
  · obtain ⟨hyb, hb, -⟩ := h.hash y b hhash
    refine ⟨by omega, fun hn => ?_⟩
    simp [h.hash_of_half hn] at hhash

/-- The lock to which the link leads stays. -/
lemma Listed.kept_take (hx : ¬ gone x) : ¬ (gone b ∨ b = x) := by
  obtain ⟨hxb, -, -, -, hb⟩ := h.hash x b hhash
  rintro (hb' | rfl)
  · exact hb hx hb'
  · exact lt_irrefl b hxb

/-- What is behind `x`, up to where its link leads, is gone with it. -/
lemma Listed.gone_take {c : ℕ} (hcx : c < x → gone c) (hcb : c < b) : gone c ∨ c = x := by
  rcases lt_trichotomy c x with hlt | rfl | hlt
  · exact Or.inl (hcx hlt)
  · exact Or.inr rfl
  · exact Or.inl ((h.hash x b hhash).2.2.2.1 c hlt hcb)

end Take

/-- The head of the list is taken out. -/
lemma Listed.takeHead (h : Listed m half gone) (hhead : m.gcHead = some x)
    (hhash : m.gcHash x = some b) :
    Listed (m.setGcHead (some b)) half (fun y => gone y ∨ y = x) := by
  obtain ⟨hlt, -, hgone, hbefore⟩ := h.head x hhead
  obtain ⟨hxb, hb, hbhalf, -⟩ := h.hash x b hhash
  refine ⟨h.lt, h.suffix, h.tail, fun a c hac => ?_, h.missing, fun y hy => ?_, ?_,
    h.behind_take hhash⟩
  · obtain ⟨h1, h2, h3, h4, h5⟩ := h.hash a c hac
    refine ⟨h1, h2, h3, fun d hd hd' => Or.inl (h4 d hd hd'), fun ha => ?_⟩
    rintro (hc | rfl)
    · exact h5 (fun ha' => ha (Or.inl ha')) hc
    · exact ha (Or.inl (hbefore a h1))
  · obtain rfl : b = y := Option.some.inj hy
    exact ⟨hb, hbhalf, h.kept_take hhash hgone, fun c hc => h.gone_take hhash (hbefore c) hc⟩
  · simp [Mem.setGcHead]

/-- A lock in the middle of the list is taken out. -/
lemma Listed.takeNext (h : Listed m half gone) (hp : ¬ gone p) (hpx : m.gcHash p = some x)
    (hhash : m.gcHash x = some b) :
    Listed (m.setGcHash p (some b)) half (fun y => gone y ∨ y = x) := by
  obtain ⟨hltp, hlt, -, hskipp, hgonep⟩ := h.hash p x hpx
  obtain ⟨hxb, hb, hbhalf, -⟩ := h.hash x b hhash
  refine ⟨h.lt, h.suffix, h.tail, fun a c hac => ?_, fun a ha hlt' => ?_, fun y hy => ?_,
    h.headless, h.behind_take hhash⟩
  · simp only [Mem.setGcHash, Function.update_apply] at hac
    split_ifs at hac with hap
    · obtain rfl := Option.some.inj hac
      subst hap
      exact ⟨by omega, hb, hbhalf, fun d hd hd' => h.gone_take hhash (hskipp d hd) hd',
        fun _ => h.kept_take hhash (hgonep hp)⟩
    · obtain ⟨h1, h2, h3, h4, h5⟩ := h.hash a c hac
      refine ⟨h1, h2, h3, fun d hd hd' => Or.inl (h4 d hd hd'), fun ha => ?_⟩
      -- only one lock that is not gone has its link to `x`
      rintro (hc | rfl)
      · exact h5 (fun ha' => ha (Or.inl ha')) hc
      · rcases lt_trichotomy a p with hlt' | rfl | hlt'
        · exact hp (h4 p hlt' hltp)
        · exact hap rfl
        · exact ha (Or.inl (hskipp a hlt' h1))
  · simp only [Mem.setGcHash, Function.update_apply] at ha
    split_ifs at ha with hap
    exact h.missing a ha hlt'
  · obtain ⟨h1, h2, h3, h4⟩ := h.head y hy
    refine ⟨h1, h2, ?_, fun c hc => Or.inl (h4 c hc)⟩
    rintro (hy' | rfl)
    · exact h3 hy'
    · exact hp (h4 p hltp)

end Listed

/-! ## The collector -/

/-- What the collector knows about the locks at which it stands. -/
structure InList (m : Mem Unit) (half gone : ℕ → Prop) (old : Option ℕ) (x : ℕ) : Prop where
  lt : x < m.fresh
  done : ¬ half x
  kept : ¬ gone x
  /-- it has not passed the lock that was the last one -/
  le : ∀ o ∈ old, x ≤ o

/-- `x` comes after `prev`, or is the head of the list. -/
def After (m : Mem Unit) (gone : ℕ → Prop) (prev : Option ℕ) (x : ℕ) : Prop :=
  match prev with
  | none => m.gcHead = some x
  | some p => ¬ gone p ∧ m.gcHash p = some x

/-- What the collector knows, from where it stands. -/
def Collecting (m : Mem Unit) (half gone : ℕ → Prop) (min : ℕ) : Gc → Prop
  | .loop old prev cur => ∀ x ∈ cur, InList m half gone old x ∧ After m gone prev x
  | .headTime old prev x => InList m half gone old x ∧ old ≠ some x ∧ prev = none ∧
      m.gcHead = some x
  | .headHash old prev x => InList m half gone old x ∧ old ≠ some x ∧ prev = none ∧
      m.gcHead = some x ∧ m.timestamp x < min
  | .headStore old prev x v => old ≠ some x ∧ prev = none ∧ m.gcHead = some x ∧
      ∃ b, v = some b ∧ m.gcHash x = some b
  | .headFree _ prev x => prev = none ∧ m.freed x = false
  | .headNext _ prev => prev = none
  | .time old prev x => InList m half gone old x ∧ old ≠ some x ∧ After m gone prev x ∧
      (prev = none → min ≤ m.timestamp x)
  | .hash old prev x => InList m half gone old x ∧ old ≠ some x ∧ After m gone prev x ∧
      prev ≠ none ∧ m.timestamp x < min
  | .store old prev x v => InList m half gone old x ∧ old ≠ some x ∧ After m gone prev x ∧
      prev ≠ none ∧ ∃ b, v = some b ∧ m.gcHash x = some b
  | .free old p x => InList m half gone old p ∧ old ≠ some p ∧ m.freed x = false
  | .next old p => InList m half gone old p ∧ old ≠ some p
  | .advance old x => InList m half gone old x ∧ old ≠ some x
  | .failed => False
  | _ => True

/-- The value of `old_gclist_tail`, once it is loaded. -/
def oldTail : Gc → Option (Option ℕ)
  | .head old => some old
  | .loop old _ _ => some old
  | .headTime old _ _ => some old
  | .headHash old _ _ => some old
  | .headStore old _ _ _ => some old
  | .headFree old _ _ => some old
  | .headNext old _ => some old
  | .time old _ _ => some old
  | .hash old _ _ => some old
  | .store old _ _ _ => some old
  | .free old _ _ => some old
  | .next old _ => some old
  | .advance old _ => some old
  | _ => none

/-- The timestamp of an append, once it is loaded, is above `min`. -/
def Late (m : Mem Unit) (min : ℕ) : Walk → Prop
  | .stamp _ _ _ _ ts => min < ts
  | .gcLink x _ _ _ => min < m.timestamp x
  | _ => True

/-- Every lock appended so far has, or will have, a timestamp above `min`. -/
structure AllLate (s : State τ) (min : ℕ) : Prop where
  done : ∀ x < s.mem.fresh, ¬ s.HalfDone x → min < s.mem.timestamp x
  app : ∀ t, ∀ w ∈ s.app t, Late s.mem min w

/-- An append is past its swap, and knows which lock was the last one. -/
def Appending : Walk → Prop
  | .clock x old _ _ => ∀ o, old = some o ↔ o + 1 = x
  | .stamp x old _ _ _ => ∀ o, old = some o ↔ o + 1 = x
  | .gcLink x old _ _ => ∀ o, old = some o ↔ o + 1 = x
  | _ => False

/-- The invariant. -/
structure Inv (s : State τ) : Prop where
  listed : Listed s.mem s.HalfDone s.Gone
  app : ∀ t, ∀ w ∈ s.app t, Appending w
  unique : ∀ t u, ∀ w ∈ s.app t, ∀ w' ∈ s.app u, ∀ x ∈ w.appends, x ∈ w'.appends → t = u
  min : ∀ p ∈ s.gc, p.1 < s.mem.sysTimestamp
  collecting : ∀ p ∈ s.gc, Collecting s.mem s.HalfDone s.Gone p.1 p.2
  /-- the lock that was the last one stays; if there was none, all are late -/
  last : ∀ p ∈ s.gc, ∀ o, oldTail p.2 = some (some o) → o < s.mem.fresh ∧ ¬ s.Gone o
  late : ∀ p ∈ s.gc, oldTail p.2 = some none → AllLate s p.1

variable {s s' : State τ} {t : τ}

/-- What is not gone is not freed. -/
lemma State.not_freed {x : ℕ} (hx : ¬ s.Gone x) : s.mem.freed x = false := by
  by_contra hn
  exact hx (Or.inl (by simpa using hn))

/-- The lock that an append is about. -/
lemma Appending.appends {w : Walk} (h : Appending w) : ∃ x, w.appends = [x] := by
  cases w <;> first | exact ⟨_, rfl⟩ | exact h.elim

/-- **The invariant gives the property.** -/
lemma Inv.intact (h : Inv s) : Intact s where
  reach x hx hhalf := by
    by_cases hgone : s.Gone x
    · exact Or.inr hgone
    · exact Or.inl (h.listed.reach hx hhalf hgone)
  once p hp x hx := by
    have hc := h.collecting p hp
    obtain ⟨min, g⟩ := p
    cases g <;> simp only [frees, Option.mem_def, Option.some.injEq, reduceCtorEq] at hx <;>
      subst hx
    · exact hc.2
    · exact hc.2.2
  stores t w hw x hx := by
    have hnot : ¬ s.Gone x := by
      have happ := h.app t w hw
      cases w <;> simp only [target, Option.mem_def, Option.some.injEq, reduceCtorEq] at hx
      · subst hx
        exact h.listed.not_gone_of_half ⟨t, _, hw, by simp [Walk.appends]⟩
      · -- the lock before one that is being appended is not gone
        rename_i y old cur mid
        intro hgone
        have hnext := (h.listed.behind x hgone).2
        rw [(happ x).1 hx] at hnext
        exact hnext ⟨t, _, hw, by simp [Walk.appends]⟩
    exact State.not_freed hnot

/-! ## The steps of an append -/

/-- The timestamp of an append depends on its own lock only. -/
lemma Late.congr {m m' : Mem Unit} {min : ℕ} {w : Walk} (h : Late m min w)
    (hts : ∀ x ∈ w.appends, m'.timestamp x = m.timestamp x) : Late m' min w := by
  cases w with
  | gcLink x old cur mid =>
      rw [Late, hts x (by simp [Walk.appends])]
      exact h
  | _ => exact h

/-- What the collector knows does not depend on what appends do. -/
lemma Collecting.mono {m m' : Mem Unit} {half half' gone : ℕ → Prop} {min : ℕ} {g : Gc}
    (h : Collecting m half gone min g) (hfresh : m.fresh ≤ m'.fresh)
    (hdone : ∀ x < m.fresh, ¬ half x → ¬ half' x)
    (hts : ∀ x < m.fresh, ¬ half x → m'.timestamp x = m.timestamp x)
    (hhead : ∀ x, m.gcHead = some x → m'.gcHead = some x)
    (hhash : ∀ a b, m.gcHash a = some b → m'.gcHash a = some b) (hfreed : m'.freed = m.freed) :
    Collecting m' half' gone min g := by
  have hin : ∀ {old x}, InList m half gone old x → InList m' half' gone old x :=
    fun hx => ⟨hx.lt.trans_le hfresh, hdone _ hx.lt hx.done, hx.kept, hx.le⟩
  have hafter : ∀ {prev x}, After m gone prev x → After m' gone prev x := by
    intro prev x hx
    cases prev with
    | none => exact hhead x hx
    | some p => exact ⟨hx.1, hhash p x hx.2⟩
  cases g with
  | loop old prev cur => exact fun x hx => ⟨hin (h x hx).1, hafter (h x hx).2⟩
  | headTime old prev x => exact ⟨hin h.1, h.2.1, h.2.2.1, hhead x h.2.2.2⟩
  | headHash old prev x =>
      exact ⟨hin h.1, h.2.1, h.2.2.1, hhead x h.2.2.2.1,
        by rw [hts x h.1.lt h.1.done]; exact h.2.2.2.2⟩
  | headStore old prev x v =>
      obtain ⟨hold, hprev, hx, b, hv, hb⟩ := h
      exact ⟨hold, hprev, hhead x hx, b, hv, hhash x b hb⟩
  | headFree old prev x => exact ⟨h.1, by rw [hfreed]; exact h.2⟩
  | time old prev x =>
      exact ⟨hin h.1, h.2.1, hafter h.2.2.1, by rw [hts x h.1.lt h.1.done]; exact h.2.2.2⟩
  | hash old prev x =>
      exact ⟨hin h.1, h.2.1, hafter h.2.2.1, h.2.2.2.1,
        by rw [hts x h.1.lt h.1.done]; exact h.2.2.2.2⟩
  | store old prev x v =>
      obtain ⟨hx, hold, hprev, hne, b, hv, hb⟩ := h
      exact ⟨hin hx, hold, hafter hprev, hne, b, hv, hhash x b hb⟩
  | free old p x => exact ⟨hin h.1, h.2.1, by rw [hfreed]; exact h.2.2⟩
  | next old p => exact ⟨hin h.1, h.2⟩
  | advance old x => exact ⟨hin h.1, h.2⟩
  | _ => exact h

section Append

variable [DecidableEq τ] {m : Mem Unit} {o : Option Walk}

/-- Which appends are half done, after a step of the append of `t`. -/
lemma halfDone_update {x : ℕ} :
    State.HalfDone { s with mem := m, app := Function.update s.app t o } x ↔
      (∃ w ∈ o, x ∈ w.appends) ∨ ∃ u, u ≠ t ∧ ∃ w ∈ s.app u, x ∈ w.appends := by
  constructor
  · rintro ⟨u, w, hw, hx⟩
    by_cases hu : u = t
    · subst hu
      simp only [Function.update_self] at hw
      exact Or.inl ⟨w, hw, hx⟩
    · simp only [Function.update_of_ne hu] at hw
      exact Or.inr ⟨u, hu, w, hw, hx⟩
  · rintro (⟨w, hw, hx⟩ | ⟨u, hu, w, hw, hx⟩)
    · exact ⟨t, w, by simpa using hw, hx⟩
    · exact ⟨u, w, by simpa [hu] using hw, hx⟩

/-- A step of an append that stays half done. -/
lemma halfDone_same {w w' : Walk} (hw : s.app t = some w) (happ : w'.appends = w.appends) :
    State.HalfDone { s with mem := m, app := Function.update s.app t (some w') } = s.HalfDone := by
  funext x
  refine propext (halfDone_update.trans ⟨?_, ?_⟩)
  · rintro (⟨v, hv, hx⟩ | ⟨u, -, hu⟩)
    · obtain rfl : w' = v := Option.some.inj hv
      exact ⟨t, w, hw, by rwa [← happ]⟩
    · exact ⟨u, hu⟩
  · rintro ⟨u, v, hv, hx⟩
    by_cases hu : u = t
    · subst hu
      obtain rfl : w = v := Option.some.inj (hw.symm.trans hv)
      exact Or.inl ⟨w', rfl, by rwa [happ]⟩
    · exact Or.inr ⟨u, hu, v, hv, hx⟩

/-- What holds of all appends, after a step of `t`. -/
lemma forall_update {P : Walk → Prop} (ho : ∀ w ∈ o, P w)
    (h : ∀ u, u ≠ t → ∀ w ∈ s.app u, P w) : ∀ u, ∀ w ∈ Function.update s.app t o u, P w := by
  intro u w hw
  by_cases hu : u = t
  · subst hu
    simp only [Function.update_self] at hw
    exact ho w hw
  · simp only [Function.update_of_ne hu] at hw
    exact h u hu w hw

/-- No two appends are about one lock, after a step of `t`. -/
lemma Inv.unique_update (h : Inv s)
    (ho : ∀ w ∈ o, ∀ u, u ≠ t → ∀ w' ∈ s.app u, ∀ x ∈ w.appends, x ∉ w'.appends) :
    ∀ u v, ∀ w ∈ Function.update s.app t o u, ∀ w' ∈ Function.update s.app t o v,
      ∀ x ∈ w.appends, x ∈ w'.appends → u = v := by
  intro u v w hw w' hw' x hx hx'
  by_cases hu : u = t <;> by_cases hv : v = t
  · rw [hu, hv]
  · subst hu
    simp only [Function.update_self, Function.update_of_ne hv] at hw hw'
    exact absurd hx' (ho w hw v hv w' hw' x hx)
  · subst hv
    simp only [Function.update_self, Function.update_of_ne hu] at hw hw'
    exact absurd hx (ho w' hw' u hu w hw x hx')
  · simp only [Function.update_of_ne hu, Function.update_of_ne hv] at hw hw'
    exact h.unique u v w hw w' hw' x hx hx'

/-- The swap of the tail. -/
lemma Inv.append (h : Inv s) (mid : Bool) (happ : s.app t = none) :
    Inv { s with
      mem := { s.mem.gcAppend s.mem.fresh with fresh := s.mem.fresh + 1 }
      app := Function.update s.app t
        (some (.clock s.mem.fresh s.mem.gcTail s.mem.fresh mid)) } := by
  have hhalf : State.HalfDone { s with
      mem := { s.mem.gcAppend s.mem.fresh with fresh := s.mem.fresh + 1 }
      app := Function.update s.app t
        (some (.clock s.mem.fresh s.mem.gcTail s.mem.fresh mid)) } =
      fun x => s.HalfDone x ∨ x = s.mem.fresh := by
    funext x
    refine propext (halfDone_update.trans ⟨?_, ?_⟩)
    · rintro (⟨v, hv, hx⟩ | ⟨u, -, hu⟩)
      · obtain rfl := Option.some.inj hv
        exact Or.inr (by simpa [Walk.appends] using hx)
      · exact Or.inl ⟨u, hu⟩
    · rintro (⟨u, w, hw, hx⟩ | rfl)
      · refine Or.inr ⟨u, ?_, w, hw, hx⟩
        rintro rfl
        simp [happ] at hw
      · exact Or.inl ⟨_, rfl, by simp [Walk.appends]⟩
  have hdone : ∀ x < s.mem.fresh, ¬ s.HalfDone x → ¬(s.HalfDone x ∨ x = s.mem.fresh) := by
    rintro x hx hx' (hx'' | rfl)
    · exact hx' hx''
    · exact lt_irrefl _ hx
  refine ⟨?_, forall_update ?_ fun u _ => h.app u, h.unique_update ?_, h.min, fun p hp => ?_,
    fun p hp o ho => ?_, fun p hp hlate => ?_⟩
  · rw [hhalf]
    exact h.listed.append
  · rintro _ ⟨⟩
    exact h.listed.tail
  · rintro _ ⟨⟩ u - w' hw' x hx hx'
    obtain rfl : x = s.mem.fresh := by simpa [Walk.appends] using hx
    exact lt_irrefl _ (h.listed.lt _ ⟨u, w', hw', hx'⟩)
  · rw [hhalf]
    exact (h.collecting p hp).mono (Nat.le_succ _) hdone (fun _ _ _ => rfl) (fun _ hx => hx)
      (fun _ _ hab => hab) rfl
  · exact ⟨Nat.lt_succ_of_lt (h.last p hp o ho).1, (h.last p hp o ho).2⟩
  · have hall := h.late p hp hlate
    refine ⟨fun x hx hx' => ?_, forall_update ?_ fun u _ => hall.app u⟩
    · rw [hhalf] at hx'
      have hx : x < s.mem.fresh + 1 := hx
      have hne : x ≠ s.mem.fresh := fun hx'' => hx' (Or.inr hx'')
      exact hall.done x (by omega) fun hx'' => hx' (Or.inl hx'')
    · rintro _ ⟨⟩
      trivial

/-- The load of `trx_sys->timestamp`. -/
lemma Inv.clock (h : Inv s) {x cur : ℕ} {old : Option ℕ} {mid : Bool}
    (hw : s.app t = some (.clock x old cur mid)) :
    Inv { s with
      app := Function.update s.app t (some (.stamp x old cur mid s.mem.sysTimestamp)) } := by
  have hhalf := halfDone_same (m := s.mem) hw
    (show (Walk.stamp x old cur mid s.mem.sysTimestamp).appends = _ from rfl)
  have happ : Appending (.clock x old cur mid) := h.app t _ hw
  refine ⟨?_, forall_update ?_ fun u _ => h.app u, h.unique_update ?_, h.min, fun p hp => ?_,
    h.last, fun p hp hlate => ?_⟩
  · rw [hhalf]
    exact h.listed
  · rintro _ ⟨⟩
    exact happ
  · rintro _ ⟨⟩ u hu w' hw' y hy hy'
    exact hu (h.unique u t w' hw' _ hw y hy' hy)
  · rw [hhalf]
    exact h.collecting p hp
  · have hall := h.late p hp hlate
    refine ⟨by rw [hhalf]; exact hall.done, forall_update ?_ fun u _ => hall.app u⟩
    rintro _ ⟨⟩
    exact h.min p hp

/-- The store of the timestamp. -/
lemma Inv.stamp (h : Inv s) {x cur ts : ℕ} {old : Option ℕ} {mid : Bool}
    (hw : s.app t = some (.stamp x old cur mid ts)) :
    Inv { s with
      mem := s.mem.setTimestamp x ts
      app := Function.update s.app t (some (.gcLink x old cur mid)) } := by
  have hhalf := halfDone_same (m := s.mem.setTimestamp x ts) hw
    (show (Walk.gcLink x old cur mid).appends = _ from rfl)
  have hx : s.HalfDone x := ⟨t, _, hw, by simp [Walk.appends]⟩
  have hts : ∀ y, ¬ s.HalfDone y → (s.mem.setTimestamp x ts).timestamp y = s.mem.timestamp y := by
    intro y hy
    refine Function.update_of_ne ?_ _ _
    rintro rfl
    exact hy hx
  have happ : Appending (.stamp x old cur mid ts) := h.app t _ hw
  refine ⟨?_, forall_update ?_ fun u _ => h.app u, h.unique_update ?_, h.min, fun p hp => ?_,
    h.last, fun p hp hlate => ?_⟩
  · rw [hhalf]
    obtain ⟨h1, h2, h3, h4, h5, h6, h7, h8⟩ := h.listed
    exact ⟨h1, h2, h3, h4, h5, h6, h7, h8⟩
  · rintro _ ⟨⟩
    exact happ
  · rintro _ ⟨⟩ u hu w' hw' y hy hy'
    exact hu (h.unique u t w' hw' _ hw y hy' hy)
  · rw [hhalf]
    exact (h.collecting p hp).mono le_rfl (fun _ _ hy => hy) (fun y _ => hts y) (fun _ hy => hy)
      (fun _ _ hab => hab) rfl
  · have hall := h.late p hp hlate
    have hlt : p.1 < ts := hall.app t _ hw
    refine ⟨fun y hy hy' => ?_, forall_update ?_ fun u hu w hwu => ?_⟩
    · rw [hhalf] at hy'
      rw [hts y hy']
      exact hall.done y hy hy'
    · rintro _ ⟨⟩
      simpa [Late, Mem.setTimestamp] using hlt
    · refine (hall.app u w hwu).congr fun y hy => Function.update_of_ne ?_ _ _
      rintro rfl
      exact hu (h.unique u t w hwu _ hw y hy (by simp [Walk.appends]))

/-- The store of the link. -/
lemma Inv.link (h : Inv s) {x cur : ℕ} {old : Option ℕ} {mid : Bool}
    (hw : s.app t = some (.gcLink x old cur mid))
    (hok : ∀ u, ∀ w' ∈ s.app u, ∀ y ∈ w'.appends, x ≤ y) :
    Inv { s with
      mem := s.mem.gcLink x old
      app := Function.update s.app t none } := by
  have hx : s.HalfDone x := ⟨t, _, hw, by simp [Walk.appends]⟩
  have hold : ∀ o, old = some o ↔ o + 1 = x := h.app t _ hw
  have hhalf : State.HalfDone { s with
      mem := s.mem.gcLink x old, app := Function.update s.app t none } =
      fun y => s.HalfDone y ∧ y ≠ x := by
    funext y
    refine propext (halfDone_update.trans ⟨?_, ?_⟩)
    · rintro (⟨v, hv, -⟩ | ⟨u, hu, w', hw', hy⟩)
      · simp at hv
      · refine ⟨⟨u, w', hw', hy⟩, ?_⟩
        rintro rfl
        exact hu (h.unique u t w' hw' _ hw y hy (by simp [Walk.appends]))
    · rintro ⟨⟨u, w', hw', hy⟩, hne⟩
      refine Or.inr ⟨u, ?_, w', hw', hy⟩
      rintro rfl
      obtain rfl := Option.some.inj (hw.symm.trans hw')
      exact hne (by simpa [Walk.appends] using hy)
  have hsame : (s.mem.gcLink x old).fresh = s.mem.fresh ∧
      (s.mem.gcLink x old).timestamp = s.mem.timestamp ∧
      (s.mem.gcLink x old).freed = s.mem.freed ∧
      (s.mem.gcLink x old).sysTimestamp = s.mem.sysTimestamp := by
    cases old <;> exact ⟨rfl, rfl, rfl, rfl⟩
  obtain ⟨hfresh, hts, hfreed, hclock⟩ := hsame
  have hgone : State.Gone { s with
      mem := s.mem.gcLink x old, app := Function.update s.app t none } = s.Gone := by
    funext y
    simp only [State.Gone, hfreed]
  refine ⟨?_, forall_update (by simp) fun u _ => h.app u, h.unique_update (by simp), ?_,
    fun p hp => ?_, ?_, fun p hp hlate => ?_⟩
  · rw [hhalf, hgone]
    exact h.listed.link hx (fun y ⟨u, w', hw', hy⟩ => hok u w' hw' y hy) hold
  · rw [hclock]
    exact h.min
  · rw [hhalf, hgone]
    exact (h.collecting p hp).mono hfresh.ge (fun y _ hy hn => hy hn.1)
      (fun y _ _ => by rw [hts]) (fun _ => h.listed.gcHead_link hx hold)
      (fun _ _ => h.listed.gcHash_link hx hold) hfreed
  · rw [hgone, hfresh]
    exact h.last
  · have hall := h.late p hp hlate
    have hlt : p.1 < s.mem.timestamp x := hall.app t _ hw
    refine ⟨fun y hy hy' => ?_, forall_update (by simp) fun u _ w hwu => ?_⟩
    · rw [hhalf] at hy'
      rw [hfresh] at hy
      rw [hts]
      by_cases hyx : y = x
      · rwa [hyx]
      · exact hall.done y hy fun hn => hy' ⟨hn, hyx⟩
    · exact (hall.app u w hwu).congr fun y _ => by rw [hts]

end Append

/-! ## The steps of the collector -/

section Gc

variable {min : ℕ} {g g' : Gc} {m : Mem Unit}

/-- A step of the collector keeps what is late. -/
lemma AllLate.setGc (h : AllLate s min) (hfresh : m.fresh = s.mem.fresh)
    (hts : m.timestamp = s.mem.timestamp) {c : Option (ℕ × Gc)} :
    AllLate { s with mem := m, gc := c } min where
  done x hx hhalf := by
    rw [hts]
    exact h.done x (hfresh ▸ hx) hhalf
  app t w hw := (h.app t w hw).congr fun x _ => by rw [hts]

/-- The invariant after a step of the collector, in terms of what is then gone. -/
lemma Inv.setGc (h : Inv s) {gone : ℕ → Prop}
    (hgone : State.Gone { s with mem := m, gc := some (min, g') } = gone)
    (hlist : Listed m s.HalfDone gone) (hmin : min < m.sysTimestamp)
    (hc : Collecting m s.HalfDone gone min g')
    (hlast : ∀ o, oldTail g' = some (some o) → o < m.fresh ∧ ¬ gone o)
    (hlate : oldTail g' = some none → AllLate { s with mem := m, gc := some (min, g') } min) :
    Inv { s with mem := m, gc := some (min, g') } := by
  subst hgone
  refine ⟨hlist, h.app, h.unique, ?_, ?_, ?_, ?_⟩
  · rintro _ ⟨⟩
    exact hmin
  · rintro _ ⟨⟩
    exact hc
  · rintro _ ⟨⟩
    exact hlast
  · rintro _ ⟨⟩
    exact hlate

/-- A step of the collector that frees nothing and takes out nothing leaves the list as it is. -/
lemma Inv.gc_quiet (h : Inv s) (hgc : s.gc = some (min, g)) (hfrees : frees g = none)
    (hfrees' : frees g' = none) (hold : ∀ o, oldTail g' = some o → oldTail g = some o)
    (hc : Collecting s.mem s.HalfDone s.Gone min g') : Inv { s with gc := some (min, g') } := by
  have hgone : State.Gone { s with gc := some (min, g') } = s.Gone := by
    funext x
    simp [State.Gone, hgc, hfrees, hfrees']
  exact h.setGc hgone h.listed (h.min _ hgc) hc (fun o ho => h.last _ hgc o (hold (some o) ho))
    fun ho => (h.late _ hgc (hold none ho)).setGc rfl rfl

/-- A lock is taken out of the list, and is freed next. -/
lemma Inv.gc_take (h : Inv s) (hgc : s.gc = some (min, g)) (hfrees : frees g = none) {x : ℕ}
    (hfrees' : frees g' = some x) (hold : oldTail g' = oldTail g)
    (hlist : Listed m s.HalfDone fun y => s.Gone y ∨ y = x)
    (hfields : m.fresh = s.mem.fresh ∧ m.timestamp = s.mem.timestamp ∧ m.freed = s.mem.freed ∧
      m.sysTimestamp = s.mem.sysTimestamp)
    (hlast : ∀ o, oldTail g = some (some o) → o ≠ x)
    (hc : Collecting m s.HalfDone (fun y => s.Gone y ∨ y = x) min g') :
    Inv { s with mem := m, gc := some (min, g') } := by
  obtain ⟨hfresh, hts, hfreed, hclock⟩ := hfields
  have hgone : State.Gone { s with mem := m, gc := some (min, g') } =
      fun y => s.Gone y ∨ y = x := by
    funext y
    simp only [State.Gone, hgc, hfreed, Option.mem_def, Option.some.injEq, exists_eq_left', hfrees,
      hfrees', reduceCtorEq, or_false, eq_iff_iff]
    exact or_congr_right eq_comm
  refine h.setGc hgone hlist (by rw [hclock]; exact h.min _ hgc) hc (fun o ho => ?_)
    fun ho => (h.late _ hgc (hold ▸ ho)).setGc hfresh hts
  rw [hold] at ho
  obtain ⟨hlt, hnot⟩ := h.last _ hgc o ho
  exact ⟨hfresh ▸ hlt, fun hn => hn.elim hnot (hlast o ho)⟩

/-- The call of `ut_free`. -/
lemma Inv.gc_free (h : Inv s) (hgc : s.gc = some (min, g)) {x : ℕ} (hfrees : frees g = some x)
    (hfrees' : frees g' = none) (hold : oldTail g' = oldTail g)
    (hc : Collecting (s.mem.utFree x) s.HalfDone s.Gone min g') :
    Inv { s with mem := s.mem.utFree x, gc := some (min, g') } := by
  have hgone : State.Gone { s with mem := s.mem.utFree x, gc := some (min, g') } = s.Gone := by
    funext y
    simp only [State.Gone, Mem.utFree, Function.update_apply, hgc, Option.mem_def,
      Option.some.injEq, exists_eq_left', hfrees, hfrees', eq_iff_iff]
    split_ifs with hy
    · simp [hy]
    · simp [Ne.symm hy]
  obtain ⟨h1, h2, h3, h4, h5, h6, h7, h8⟩ := h.listed
  exact h.setGc hgone ⟨h1, h2, h3, h4, h5, h6, h7, h8⟩ (h.min _ hgc) hc
    (fun o ho => h.last _ hgc o (hold ▸ ho))
    fun ho => (h.late _ hgc (hold ▸ ho)).setGc (m := s.mem.utFree x) rfl rfl

/-- The collector frees only what was appended before the last lock it knows of. -/
lemma Inv.lt_old (h : Inv s) (hgc : s.gc = some (min, g)) {old : Option ℕ} {x : ℕ}
    (hold : oldTail g = some old) (hin : InList s.mem s.HalfDone s.Gone old x)
    (hne : old ≠ some x) (hlt : s.mem.timestamp x < min) : x + 1 < s.mem.fresh := by
  cases old with
  | none =>
      have := (h.late (min, g) hgc hold).done x hin.lt hin.done
      omega
  | some o =>
      have hle := hin.le o rfl
      have hlast := (h.last (min, g) hgc o hold).1
      have hxo : x ≠ o := fun hxo => hne (by rw [hxo])
      omega

/-- The first lock of the list. -/
lemma Inv.head_inList (h : Inv s) (hgc : s.gc = some (min, g)) {old : Option ℕ} {x : ℕ}
    (hold : oldTail g = some old) (hx : s.mem.gcHead = some x) :
    InList s.mem s.HalfDone s.Gone old x := by
  obtain ⟨hlt, hdone, hkept, hbefore⟩ := h.listed.head x hx
  refine ⟨hlt, hdone, hkept, ?_⟩
  rintro o rfl
  by_contra hxo
  exact (h.last (min, g) hgc o hold).2 (hbefore o (by omega))

/-- The lock that comes after one in the list. -/
lemma Inv.next_inList (h : Inv s) (hgc : s.gc = some (min, g)) {old : Option ℕ} {p x : ℕ}
    (hold : oldTail g = some old) (hin : InList s.mem s.HalfDone s.Gone old p)
    (hne : old ≠ some p) (hx : s.mem.gcHash p = some x) :
    InList s.mem s.HalfDone s.Gone old x := by
  obtain ⟨hlt, hfresh, hdone, hskip, hkept⟩ := h.listed.hash p x hx
  refine ⟨hfresh, hdone, hkept hin.kept, ?_⟩
  rintro o rfl
  have hpo := hin.le o rfl
  have hpo' : p ≠ o := fun hpo' => hne (by rw [hpo'])
  by_contra hxo
  exact (h.last (min, g) hgc o hold).2 (hskip o (by omega) (by omega))

/-- The link of a lock that is to be freed is there, if the append behind it is not half done. -/
lemma Inv.hash_of_take (h : Inv s) {x : ℕ} (hlt : x + 1 < s.mem.fresh)
    (hnext : ¬ s.HalfDone (x + 1)) : ∃ b, s.mem.gcHash x = some b := by
  cases hhash : s.mem.gcHash x with
  | none => exact absurd (h.listed.missing x hhash hlt) hnext
  | some b => exact ⟨b, rfl⟩

/-- The load of `gclist->tail`. -/
lemma Inv.gc_tail (h : Inv s) (hgc : s.gc = some (min, .tail)) :
    Inv { s with gc := some (min, .head s.mem.gcTail) } := by
  have hgone : State.Gone { s with gc := some (min, .head s.mem.gcTail) } = s.Gone := by
    funext x
    simp [State.Gone, hgc, frees]
  refine h.setGc hgone h.listed (h.min _ hgc) trivial (fun o ho => ?_) fun ho => ?_
  · have hlast := (h.listed.tail o).1 (Option.some.inj ho)
    refine ⟨hlast ▸ Nat.lt_succ_self o, fun hn => ?_⟩
    have := (h.listed.behind o hn).1
    omega
  · have hempty : s.mem.fresh = 0 := by
      by_contra h0
      have := (h.listed.tail (s.mem.fresh - 1)).2 (by omega)
      rw [Option.some.inj ho] at this
      simp at this
    refine ⟨fun x hx => ?_, fun t w hw => ?_⟩
    · have hx : x < s.mem.fresh := hx
      omega
    · obtain ⟨x, hx⟩ := (h.app t w hw).appends
      have := h.listed.lt x ⟨t, w, hw, by simp [hx]⟩
      omega

/-- Every step of the collector. -/
lemma Inv.gc (h : Inv s) (hgc : s.gc = some (min, g)) (hg : GStep min s.mem g m g')
    (hok : ∀ x ∈ takes g, ¬ s.HalfDone (x + 1)) :
    Inv { s with mem := m, gc := some (min, g') } := by
  have hc : Collecting s.mem s.HalfDone s.Gone min g := h.collecting (min, g) hgc
  cases hg with
  | tail => exact h.gc_tail hgc
  | head old =>
      exact h.gc_quiet hgc rfl rfl (fun _ ho => ho) fun x hx => ⟨h.head_inList hgc rfl hx, hx⟩
  | loopNull old prev => exact h.gc_quiet hgc rfl rfl (by simp [oldTail]) trivial
  | loopEnd prev x => exact h.gc_quiet hgc rfl rfl (by simp [oldTail]) trivial
  | loopHead old prev x hold hhead =>
      obtain ⟨hin, hafter⟩ := hc x rfl
      refine h.gc_quiet hgc rfl rfl (fun _ ho => ho) ⟨hin, hold, ?_, hhead⟩
      -- after a lock that is kept there is no head
      cases prev with
      | none => rfl
      | some p =>
          obtain ⟨hp, hhash⟩ := hafter
          exact absurd ((h.listed.head x hhead).2.2.2 p (h.listed.hash p x hhash).1) hp
  | loop old prev x hold hhead =>
      obtain ⟨hin, hafter⟩ := hc x rfl
      refine h.gc_quiet hgc rfl rfl (fun _ ho => ho) ⟨hin, hold, hafter, ?_⟩
      rintro rfl
      exact absurd hafter hhead
  | headOld old prev x hlt =>
      obtain ⟨hin, hne, hprev, hhead⟩ := hc
      exact h.gc_quiet hgc rfl rfl (fun _ ho => ho) ⟨hin, hne, hprev, hhead, hlt⟩
  | headKeep old prev x hle =>
      obtain ⟨hin, hne, rfl, hhead⟩ := hc
      exact h.gc_quiet hgc rfl rfl (fun _ ho => ho) ⟨hin, hne, hhead, fun _ => hle⟩
  | headHash old prev x =>
      obtain ⟨hin, hne, hprev, hhead, hlt⟩ := hc
      obtain ⟨b, hb⟩ := h.hash_of_take (h.lt_old hgc rfl hin hne hlt) (hok x rfl)
      exact h.gc_quiet hgc rfl rfl (fun _ ho => ho) ⟨hne, hprev, hhead, b, hb, hb⟩
  | headStore old prev x v =>
      obtain ⟨hne, hprev, hhead, b, rfl, hb⟩ := hc
      refine h.gc_take hgc rfl rfl rfl (h.listed.takeHead hhead hb) ⟨rfl, rfl, rfl, rfl⟩ ?_
        ⟨hprev, State.not_freed (h.listed.head x hhead).2.2.1⟩
      rintro o ho rfl
      exact hne (Option.some.inj ho)
  | headFree old prev x =>
      exact h.gc_free hgc rfl rfl rfl hc.1
  | headNext old prev =>
      obtain rfl : prev = none := hc
      exact h.gc_quiet hgc rfl rfl (fun _ ho => ho) fun x hx => ⟨h.head_inList hgc rfl hx, hx⟩
  | old old prev x hlt =>
      obtain ⟨hin, hne, hafter, hkeep⟩ := hc
      refine h.gc_quiet hgc rfl rfl (fun _ ho => ho) ⟨hin, hne, hafter, fun hprev => ?_, hlt⟩
      have := hkeep hprev
      omega
  | keep old prev x hle =>
      obtain ⟨hin, hne, -⟩ := hc
      exact h.gc_quiet hgc rfl rfl (fun _ ho => ho) ⟨hin, hne⟩
  | hash old prev x =>
      obtain ⟨hin, hne, hafter, hprev, hlt⟩ := hc
      obtain ⟨b, hb⟩ := h.hash_of_take (h.lt_old hgc rfl hin hne hlt) (hok x rfl)
      exact h.gc_quiet hgc rfl rfl (fun _ ho => ho) ⟨hin, hne, hafter, hprev, b, hb, hb⟩
  | storeNull old x v => exact absurd rfl hc.2.2.2.1
  | store old p x v =>
      obtain ⟨hin, hne, ⟨hp, hpx⟩, -, b, rfl, hb⟩ := hc
      obtain ⟨hlt, hfresh, hdone, -⟩ := h.listed.hash p x hpx
      have hpdone : ¬ s.HalfDone p :=
        fun hn => hdone (h.listed.suffix p x hn hlt.le hfresh)
      refine h.gc_take hgc rfl rfl rfl (h.listed.takeNext hp hpx hb) ⟨rfl, rfl, rfl, rfl⟩ ?_
        ⟨⟨hlt.trans hfresh, hpdone, ?_, fun o ho => hlt.le.trans (hin.le o ho)⟩, ?_,
          State.not_freed hin.kept⟩
      · rintro o ho rfl
        exact hne (Option.some.inj ho)
      · rintro (hn | rfl)
        · exact hp hn
        · exact lt_irrefl p hlt
      · rintro rfl
        have := hin.le p rfl
        omega
  | free old p x =>
      obtain ⟨hin, hne, -⟩ := hc
      exact h.gc_free hgc rfl rfl rfl ⟨⟨hin.lt, hin.done, hin.kept, hin.le⟩, hne⟩
  | next old p =>
      exact h.gc_quiet hgc rfl rfl (fun _ ho => ho) fun x hx =>
        ⟨h.next_inList hgc rfl hc.1 hc.2 hx, hc.1.kept, hx⟩
  | advance old x =>
      exact h.gc_quiet hgc rfl rfl (fun _ ho => ho) fun y hy =>
        ⟨h.next_inList hgc rfl hc.1 hc.2 hy, hc.1.kept, hy⟩

end Gc

/-! ## Every step -/

/-- Every step keeps the invariant. -/
lemma Inv.step [DecidableEq τ] (h : Inv s) {a : Act τ} (hok : InOrder s a)
    (hs : s.step a = some s') : Inv s' := by
  cases a with
  | append t x mid =>
      cases happ : s.app t <;>
        simp only [State.step, happ, walkStep, Option.map_some, Option.ite_none_right_eq_some,
          Option.some.injEq, reduceCtorEq] at hs
      obtain ⟨hle, rfl⟩ := hs
      obtain rfl : x = s.mem.fresh := le_antisymm hle hok
      have hmax : max (s.mem.gcAppend s.mem.fresh).fresh (s.mem.fresh + 1) = s.mem.fresh + 1 :=
        max_eq_right (Nat.le_succ _)
      rw [hmax]
      exact h.append mid happ
  | go t =>
      cases happ : s.app t with
      | none => simp [State.step, happ] at hs
      | some w =>
          simp only [State.step, happ, Option.map_eq_some_iff, Prod.exists] at hs
          obtain ⟨m, w', hw, rfl⟩ := hs
          have hshape := h.app t w happ
          have hw := wstep_of_walkStep hw
          cases hw <;> first | exact hshape.elim | skip
          · exact h.clock happ
          · exact h.stamp happ
          · exact h.link happ fun u w' => hok _ happ _ rfl u w'
          · exact h.link happ fun u w' => hok _ happ _ rfl u w'
  | tick =>
      simp only [State.step, Option.some.injEq] at hs
      subst hs
      obtain ⟨⟨h1, h2, h3, h4, h5, h6, h7, h8⟩, happ, huniq, hmin, hcoll, hlast, hlate⟩ := h
      exact ⟨⟨h1, h2, h3, h4, h5, h6, h7, h8⟩, happ, huniq,
        fun p hp => Nat.lt_succ_of_lt (hmin p hp),
        fun p hp => (hcoll p hp).mono le_rfl (fun _ _ hx => hx) (fun _ _ _ => rfl) (fun _ hx => hx)
          (fun _ _ hx => hx) rfl, hlast, fun p hp hl => ⟨(hlate p hp hl).done, (hlate p hp hl).app⟩⟩
  | collect min =>
      simp only [State.step, Option.ite_none_right_eq_some, Option.some.injEq] at hs
      obtain ⟨hgc, rfl⟩ := hs
      have hgone : State.Gone { s with gc := some (min, .tail) } = s.Gone := by
        funext x
        simp [State.Gone, hgc, frees]
      refine ⟨by rw [hgone]; exact h.listed, h.app, h.unique, ?_, ?_, ?_, ?_⟩
      · rintro _ ⟨⟩
        exact hok
      · rintro _ ⟨⟩
        trivial
      · rintro _ ⟨⟩ o ho
        simp [oldTail] at ho
      · rintro _ ⟨⟩ ho
        simp [oldTail] at ho
  | gc =>
      cases hgc : s.gc with
      | none => simp [State.step, hgc] at hs
      | some p =>
          obtain ⟨min, g⟩ := p
          by_cases hdone : g = .done
          · subst hdone
            simp only [State.step, hgc, Option.some.injEq] at hs
            subst hs
            have hgone : State.Gone { s with gc := none } = s.Gone := by
              funext x
              simp [State.Gone, hgc, frees]
            exact ⟨by rw [hgone]; exact h.listed, h.app, h.unique, by simp, by simp, by simp,
              by simp⟩
          · have hs' : (gcStep min s.mem g).map
                (fun p => { s with mem := p.1, gc := some (min, p.2) }) = some s' := by
              cases g <;> simp_all [State.step]
            simp only [Option.map_eq_some_iff, Prod.exists] at hs'
            obtain ⟨m, g', hg, rfl⟩ := hs'
            refine h.gc hgc (gstep_of_gcStep hg) fun x hx => ?_
            rintro ⟨u, w, hw, hx'⟩
            exact hok _ hgc x hx u w hw hx'

/-- **The garbage list stays intact** in every run in which no lock is appended twice, appends are
completed in the order of their swaps and no lock is taken out while the append behind it is half
done. -/
theorem garbage_intact [DecidableEq τ] : ∀ s, (gcList τ).Run InOrder s → Intact s := by
  intro s hs
  refine Inv.intact (Machine.Run.invariant (I := Inv) ?_ ?_ s hs)
  · rintro s rfl
    refine ⟨?_, ?_, ?_, ?_, ?_, ?_, ?_⟩
    · constructor <;> simp [State.start, Mem.start, State.HalfDone, State.Gone]
    all_goals simp [State.start]
  · intro s a s' _ h hok hstep
    exact h.step hok hstep

/-- Thread `t` appends the lock `x` completely. -/
def Act.appends (t : τ) (x : ℕ) : List (Act τ) := [.append t x false, .go t, .go t, .go t]

/-- The collector makes `n` steps. -/
def Act.steps (n : ℕ) : List (Act τ) := List.replicate n .gc

/-- Two locks are appended, and then the first one is freed. -/
theorem garbage_intact_after_free :
    ∃ s : State (Fin 2), (gcList (Fin 2)).Run InOrder s ∧ s.mem.freed 0 = true ∧
      s.mem.gcHead = some 1 ∧ Intact s := by
  obtain ⟨s, hs, hp⟩ := Machine.exists_run_of_exec (M := gcList (Fin 2)) InOrder
    (s := State.start) rfl
    (List.flatten [Act.appends 0 0, [.tick, .tick], Act.appends 1 1, .collect 2 :: Act.steps 10])
    (fun s => s.mem.freed 0 = true ∧ s.mem.gcHead = some 1) (by decide +kernel)
  obtain ⟨hfreed, hhead⟩ := of_decide_eq_true hp
  exact ⟨s, hs, hfreed, hhead, garbage_intact s hs⟩

/-- **The rest of the list is lost.**  Lock `0` is appended.  Thread `0` swaps the tail for lock `1`
and stops before it links it; thread `1` does the same with lock `2`.  The collector frees lock `0`
and makes its null link the head.  Then thread `0` stores the link to lock `1` into the freed lock,
and thread `1` stores the link to lock `2`: both appends are complete, and neither lock can be
reached any more. -/
theorem garbage_lost :
    ∃ s : State (Fin 2), (gcList (Fin 2)).Reachable s ∧ s.mem.freed 0 = true ∧
      s.mem.gcHash 0 = some 1 ∧ s.mem.gcHead = none ∧ ¬ Intact s := by
  obtain ⟨s, hs, hp⟩ := Machine.exists_reachable_of_exec (M := gcList (Fin 2))
    (s := State.start) rfl
    (List.flatten [Act.appends 0 0, [.tick, .tick], [.append 0 1 false, .go 0, .go 0],
      [.append 1 2 false, .go 1, .go 1], .collect 2 :: Act.steps 10, [.go 0, .go 1]])
    (fun s => s.mem.freed 0 = true ∧ s.mem.gcHash 0 = some 1 ∧ s.mem.gcHead = none ∧
      s.mem.fresh = 3 ∧ s.mem.freed 2 = false ∧ s.gc = none ∧ ∀ t, s.app t = none)
    (by decide +kernel)
  obtain ⟨hfreed, hhash, hhead, hfresh, hkept, hgc, happ⟩ := of_decide_eq_true hp
  refine ⟨s, hs, hfreed, hhash, hhead, fun h => ?_⟩
  have hhalf : ¬ s.HalfDone 2 := by simp [State.HalfDone, happ]
  rcases h.reach 2 (by omega) hhalf with ⟨y, hy, -⟩ | hgone
  · simp [hhead] at hy
  · simp [State.Gone, hkept, hgc] at hgone

/-- **A lock that is appended twice takes others with it**, even if every append is complete before
the next one starts: the second append of lock `0` makes lock `0` the one after lock `1`, and the
link that it had to lock `1` is overwritten by the next append. -/
theorem garbage_lost_twice :
    ∃ s : State (Fin 1), (gcList (Fin 1)).Reachable s ∧ s.mem.gcHead = some 0 ∧
      s.mem.gcHash 0 = some 2 ∧ s.mem.gcHash 2 = none ∧ ¬ Intact s := by
  obtain ⟨s, hs, hp⟩ := Machine.exists_reachable_of_exec (M := gcList (Fin 1))
    (s := State.start) rfl
    (List.flatten [Act.appends 0 0, Act.appends 0 1, Act.appends 0 0, Act.appends 0 2])
    (fun s => s.mem.gcHead = some 0 ∧ s.mem.gcHash 0 = some 2 ∧ s.mem.gcHash 2 = none ∧
      s.mem.fresh = 3 ∧ s.mem.freed 1 = false ∧ s.gc = none ∧ ∀ t, s.app t = none)
    (by decide +kernel)
  obtain ⟨hhead, hhash, hlast, hfresh, hkept, hgc, happ⟩ := of_decide_eq_true hp
  refine ⟨s, hs, hhead, hhash, hlast, fun h => ?_⟩
  have hhalf : ¬ s.HalfDone 1 := by simp [State.HalfDone, happ]
  rcases h.reach 1 (by omega) hhalf with ⟨y, hy, hlinks⟩ | hgone
  · -- from the head the links lead to lock `2` and no further
    obtain rfl : 0 = y := Option.some.inj (hhead.symm.trans hy)
    have hends : ∀ z, Relation.ReflTransGen (fun a b => s.mem.gcHash a = some b) 0 z →
        z = 0 ∨ z = 2 := by
      intro z hz
      induction hz with
      | refl => exact Or.inl rfl
      | tail _ hab ih =>
          rcases ih with rfl | rfl
          · exact Or.inr (Option.some.inj (hhash.symm.trans hab)).symm
          · simp [hlast] at hab
    have := hends 1 hlinks
    omega
  · simp [State.Gone, hkept, hgc] at hgone

end Multicore.Project4.Garbage
