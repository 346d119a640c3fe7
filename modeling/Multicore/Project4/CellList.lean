import Multicore.Project4.Locks

/-!
# The list of one cell

Any number of transactions insert locks into one hash cell and dequeue locks of their own, one
after the other; the steps of different transactions interleave in any way.

* `State`, `cellList` — the system; `Move` — what its steps can do.
* `Base` — what holds in every state, whatever the schedule.  Links lead forward, in the order in
  which the inserts swapped the tail, and pass over marked locks only; a link that is missing will
  be stored by an insert that is half done; a walk is never beyond the lock it looks for.
* **`base_of_run`** — `Base` in every run.
-/

namespace Multicore.Project4

variable {τ : Type*}

/-! ## The system -/

/-- Where a transaction stands. -/
inductive Pc
  | idle
  /-- in `project4_lock_rec_insert_to_tail`, about to store the link to `l` -/
  | link (l : ℕ) (oldTail : Option ℕ)
  /-- in `project4_lock_rec_dequeue_from_page` -/
  | dequeue (l : ℕ) (w : Walk)
  deriving DecidableEq

/-- The memory, and for each transaction where it stands and the locks it holds. -/
structure State (τ : Type*) where
  mem : Mem Unit
  pc : τ → Pc
  trxLocks : τ → List ℕ

/-- A transaction inserts a new lock, dequeues one of its locks, or takes its next step. -/
inductive Act (τ : Type*)
  | insert (t : τ)
  | dequeue (t : τ) (l : ℕ)
  | go (t : τ)

/-- One step of the system. -/
def State.step [DecidableEq τ] (s : State τ) : Act τ → Option (State τ)
  | .insert t =>
      match s.pc t with
      | .idle =>
          some { s with
            mem := s.mem.insertTas () 0
            pc := Function.update s.pc t (.link s.mem.fresh (s.mem.tail ())) }
      | _ => none
  | .dequeue t l =>
      match s.pc t with
      | .idle =>
          if l ∈ s.trxLocks t then
            some { s with pc := Function.update s.pc t (.dequeue l .start) }
          else none
      | _ => none
  | .go t =>
      match s.pc t with
      | .idle => none
      | .link l oldTail =>
          some { mem := s.mem.insertLink () l oldTail
                 pc := Function.update s.pc t .idle
                 trxLocks := Function.update s.trxLocks t (s.trxLocks t ++ [l]) }
      | .dequeue l w =>
          match walkStep () l s.mem w with
          | none => none
          | some (mem, .done) =>
              some { mem := mem
                     pc := Function.update s.pc t .idle
                     trxLocks := Function.update s.trxLocks t ((s.trxLocks t).erase l) }
          | some (mem, w) =>
              some { s with mem := mem, pc := Function.update s.pc t (.dequeue l w) }

/-- Nothing has happened yet. -/
def State.start : State τ := ⟨Mem.start, fun _ => .idle, fun _ => []⟩

/-- The list of one cell. -/
def cellList (τ : Type*) [DecidableEq τ] : Machine (State τ) (Act τ) where
  init s := s = State.start
  step := State.step

/-- What transaction `t` can do in one step. -/
inductive Move [DecidableEq τ] (s : State τ) (t : τ) : Act τ → State τ → Prop
  | insert (hpc : s.pc t = .idle) :
      Move s t (.insert t) { s with
        mem := s.mem.insertTas () 0
        pc := Function.update s.pc t (.link s.mem.fresh (s.mem.tail ())) }
  | dequeue (l : ℕ) (hpc : s.pc t = .idle) (hl : l ∈ s.trxLocks t) :
      Move s t (.dequeue t l) { s with pc := Function.update s.pc t (.dequeue l .start) }
  | link {l : ℕ} {oldTail : Option ℕ} (hpc : s.pc t = .link l oldTail) :
      Move s t (.go t)
        { mem := s.mem.insertLink () l oldTail
          pc := Function.update s.pc t .idle
          trxLocks := Function.update s.trxLocks t (s.trxLocks t ++ [l]) }
  | walk {l : ℕ} {w w' : Walk} {mem : Mem Unit} (hpc : s.pc t = .dequeue l w)
      (hw : WStep () l s.mem w mem w') (hne : w' ≠ .done) :
      Move s t (.go t) { s with mem := mem, pc := Function.update s.pc t (.dequeue l w') }
  | mark {l : ℕ} (hpc : s.pc t = .dequeue l (.next l)) :
      Move s t (.go t)
        { mem := s.mem.mark l
          pc := Function.update s.pc t .idle
          trxLocks := Function.update s.trxLocks t ((s.trxLocks t).erase l) }

/-- The transaction that acts. -/
def Act.trx : Act τ → τ
  | .insert t => t
  | .dequeue t _ => t
  | .go t => t

/-- Every step is one of these. -/
theorem move_of_step [DecidableEq τ] {s s' : State τ} {a : Act τ}
    (h : (cellList τ).step s a = some s') :
    Move s a.trx a s' := by
  simp only [cellList] at h
  cases a with
  | insert t =>
      cases hpc : s.pc t <;> simp only [State.step, hpc, Option.some.injEq, reduceCtorEq] at h
      subst h
      exact .insert hpc
  | dequeue t l =>
      cases hpc : s.pc t <;> simp only [State.step, hpc, reduceCtorEq] at h
      split_ifs at h with hl
      obtain rfl := Option.some.inj h
      exact .dequeue l hpc hl
  | go t =>
      cases hpc : s.pc t with
      | idle => simp [State.step, hpc] at h
      | link l oldTail =>
          simp only [State.step, hpc, Option.some.injEq] at h
          subst h
          exact .link hpc
      | dequeue l w =>
          cases hw : walkStep () l s.mem w with
          | none => simp [State.step, hpc, hw] at h
          | some r =>
              obtain ⟨mem, w'⟩ := r
              have hstep := wstep_of_walkStep hw
              by_cases hdone : w' = .done
              · subst hdone
                simp only [State.step, hpc, hw, Option.some.injEq] at h
                subst h
                cases hstep with
                | mark => exact .mark hpc
              · have hs' : s' = { s with
                    mem := mem, pc := Function.update s.pc t (.dequeue l w') } := by
                  cases w' <;> simp_all [State.step]
                rw [hs']
                exact .walk hpc hstep hdone

/-! ## What holds in every state -/

/-- `a` comes before `b`, and the locks in between are marked. -/
def Skips (m : Mem Unit) (a b : ℕ) : Prop := a < b ∧ ∀ c, a < c → c < b → m.state c = false

/-- The walk has loaded `next` from the link of `cur`, which may have moved on since. -/
def Follows (m : Mem Unit) (cur next : ℕ) : Prop :=
  Skips m cur next ∧ ∃ b, m.hash cur = some b ∧ next ≤ b

/-- The number before `l`: its predecessor in the order of the swaps. -/
def before (l : ℕ) : Option ℕ := if l = 0 then none else some (l - 1)

/-- What a walk knows: it has not passed the lock `l` that it looks for. -/
def Ahead (m : Mem Unit) (l : ℕ) : Walk → Prop
  | .start => True
  | .test cur => cur ≤ l
  | .headHash cur => cur < l ∧ m.state cur = false
  | .headCas cur v => cur < l ∧ m.state cur = false ∧ ∀ b, v = some b → Skips m cur b ∧ b ≤ l
  | .append _ cur _ => cur < l
  | .clock _ _ cur _ => cur < l
  | .stamp _ _ cur _ _ => cur < l
  | .gcLink _ _ cur _ => cur < l
  | .reload cur => cur < l
  | .next cur => cur ≤ l
  | .curState cur next => Follows m cur next ∧ next ≤ l
  | .nextState cur next => Follows m cur next ∧ next ≤ l
  | .waitHash cur next => Follows m cur next ∧ next < l ∧ m.state next = false
  | .waitTail cur next => Follows m cur next ∧ next < l ∧ m.state next = false
  | .midHash cur next =>
      Follows m cur next ∧ next < l ∧ m.state next = false ∧ m.hash next ≠ none
  | .midCas cur next v =>
      Follows m cur next ∧ next < l ∧ m.state next = false ∧
        ∃ b, v = some b ∧ Skips m next b ∧ b ≤ l
  | .done => True
  | .failed => True

/-- What holds in every state. -/
structure Base (s : State τ) : Prop where
  tail : s.mem.tail () = before s.mem.fresh
  unborn : ∀ a, s.mem.fresh ≤ a → s.mem.state a = true
  order : ∀ a b, s.mem.hash a = some b → Skips s.mem a b ∧ b < s.mem.fresh
  head : ∀ h, s.mem.head () = some h → h < s.mem.fresh ∧ ∀ c < h, s.mem.state c = false
  /-- a link that is missing is about to be stored -/
  missing : ∀ a, s.mem.hash a = none → a + 1 < s.mem.fresh → ∃ t, s.pc t = .link (a + 1) (some a)
  pending : ∀ t l oldTail, s.pc t = .link l oldTail →
    l < s.mem.fresh ∧ s.mem.state l = true ∧ oldTail = before l ∧
      (∀ a, oldTail = some a → s.mem.hash a = none) ∧ (oldTail = none → s.mem.head () = none)
  unique : ∀ t u l x y, s.pc t = .link l x → s.pc u = .link l y → t = u
  /-- the locks that a transaction holds are linked and not marked -/
  owned : ∀ t l, l ∈ s.trxLocks t →
    l < s.mem.fresh ∧ s.mem.state l = true ∧ ∀ u x, s.pc u ≠ .link l x
  disjoint : ∀ t u l, l ∈ s.trxLocks t → l ∈ s.trxLocks u → t = u
  nodup : ∀ t, (s.trxLocks t).Nodup
  walks : ∀ t l w, s.pc t = .dequeue l w → l ∈ s.trxLocks t ∧ Ahead s.mem l w

section Memory

variable {m m' : Mem Unit} {a b l : ℕ} {w w' : Walk}

/-- A step of a walk touches neither the marks, except at its end, nor the tail. -/
lemma WStep.frame {ι : Type*} [DecidableEq ι] {i : ι} {m m' : Mem ι} (h : WStep i l m w m' w')
    (hne : w' ≠ .done) : m'.state = m.state ∧ m'.tail = m.tail ∧ m'.fresh = m.fresh := by
  cases h with
  | gcLinkHead x oldTail cur => cases oldTail <;> exact ⟨rfl, rfl, rfl⟩
  | gcLinkMid x oldTail cur => cases oldTail <;> exact ⟨rfl, rfl, rfl⟩
  | mark => exact absurd rfl hne
  | _ => exact ⟨rfl, rfl, rfl⟩

/-- A lock that is not marked is not skipped. -/
lemma Skips.le_of_alive (h : Skips m a b) (hal : a < l) (hl : m.state l = true) : b ≤ l := by
  by_contra! hlt
  rw [h.2 l hal hlt] at hl
  exact Bool.false_ne_true hl

/-- Skipping over a marked lock. -/
lemma Skips.trans {c : ℕ} (h : Skips m a b) (hb : m.state b = false) (h' : Skips m b c) :
    Skips m a c := by
  refine ⟨h.1.trans h'.1, fun d had hdc => ?_⟩
  rcases lt_trichotomy d b with hlt | rfl | hgt
  · exact h.2 d had hlt
  · exact hb
  · exact h'.2 d hgt hdc

/-- How the memory changes in time: marks stay, and links move forward. -/
structure Later (m m' : Mem Unit) : Prop where
  marks : ∀ c, m.state c = false → m'.state c = false
  links : ∀ a b, m.hash a = some b → ∃ b', m'.hash a = some b' ∧ b ≤ b'

lemma Later.refl (m : Mem Unit) : Later m m :=
  ⟨fun _ h => h, fun _ b h => ⟨b, h, le_rfl⟩⟩

lemma Later.skips (h : Later m m') (hs : Skips m a b) : Skips m' a b :=
  ⟨hs.1, fun c hac hcb => h.marks c (hs.2 c hac hcb)⟩

lemma Later.follows (h : Later m m') (hf : Follows m a b) : Follows m' a b := by
  obtain ⟨hs, c, hc, hle⟩ := hf
  obtain ⟨c', hc', hle'⟩ := h.links a c hc
  exact ⟨h.skips hs, c', hc', hle.trans hle'⟩

lemma Later.ne_none (h : Later m m') (ha : m.hash a ≠ none) : m'.hash a ≠ none := by
  obtain ⟨b, hb⟩ := Option.ne_none_iff_exists'.1 ha
  obtain ⟨b', hb', _⟩ := h.links a b hb
  rw [hb']
  exact Option.some_ne_none b'

/-- What a walk knows stays true. -/
lemma Ahead.later (hw : Ahead m l w) (h : Later m m') : Ahead m' l w := by
  cases w with
  | headHash cur => exact ⟨hw.1, h.marks _ hw.2⟩
  | headCas cur v =>
      exact ⟨hw.1, h.marks _ hw.2.1, fun b hb => ⟨h.skips (hw.2.2 b hb).1, (hw.2.2 b hb).2⟩⟩
  | curState cur next => exact ⟨h.follows hw.1, hw.2⟩
  | nextState cur next => exact ⟨h.follows hw.1, hw.2⟩
  | waitHash cur next => exact ⟨h.follows hw.1, hw.2.1, h.marks _ hw.2.2⟩
  | waitTail cur next => exact ⟨h.follows hw.1, hw.2.1, h.marks _ hw.2.2⟩
  | midHash cur next =>
      exact ⟨h.follows hw.1, hw.2.1, h.marks _ hw.2.2.1, h.ne_none hw.2.2.2⟩
  | midCas cur next v =>
      obtain ⟨hs, hlt, hm, b, hb, hsb, hle⟩ := hw
      exact ⟨h.follows hs, hlt, h.marks _ hm, b, hb, h.skips hsb, hle⟩
  | _ => exact hw

/-- The memory after a step of a walk is later. -/
lemma WStep.later (h : WStep () l m w m' w') (hw : Ahead m l w) (hne : w' ≠ .done) :
    Later m m' := by
  have hstate := (h.frame hne).1
  refine ⟨fun c hc => by rwa [hstate], fun a b hab => ?_⟩
  cases h with
  | midCas cur next v hcas =>
      obtain ⟨_, _, _, b', rfl, hs, _⟩ := hw
      by_cases ha : a = cur
      · subst ha
        obtain rfl : next = b := Option.some.inj (hcas.symm.trans hab)
        exact ⟨b', by simp [Mem.unlinkNext], hs.1.le⟩
      · exact ⟨b, by simpa [Mem.unlinkNext, ha] using hab, le_rfl⟩
  | gcLinkHead x oldTail cur => cases oldTail <;> exact ⟨b, hab, le_rfl⟩
  | gcLinkMid x oldTail cur => cases oldTail <;> exact ⟨b, hab, le_rfl⟩
  | mark => exact absurd rfl hne
  | _ => exact ⟨b, hab, le_rfl⟩

/-- Marking a lock. -/
lemma later_mark (m : Mem Unit) (l : ℕ) : Later m (m.mark l) := by
  refine ⟨fun c hc => ?_, fun a b hab => ⟨b, hab, le_rfl⟩⟩
  by_cases hcl : c = l
  · simp [Mem.mark, hcl]
  · simpa [Mem.mark, hcl] using hc

end Memory

variable {s s' : State τ} {t u : τ}

lemma before_eq_none {l : ℕ} : before l = none ↔ l = 0 := by simp [before]

lemma before_eq_some {l a : ℕ} : before l = some a ↔ a + 1 = l := by
  cases l with
  | zero => simp [before]
  | succ l => simp [before, eq_comm]

/-- An insert that is half done stays so while another transaction moves. -/
lemma update_link [DecidableEq τ] {q : Pc} {l : ℕ} {x : Option ℕ} (hpc : ∀ l x, s.pc t ≠ .link l x)
    (hu : s.pc u = .link l x) : Function.update s.pc t q u = .link l x := by
  rw [Function.update_of_ne _ _ _, hu]
  rintro rfl
  exact hpc l x hu

/-- Whoever is in a dequeue, while another transaction moves elsewhere, was in it before. -/
lemma dequeue_of_update [DecidableEq τ] {q : Pc} {l : ℕ} {w : Walk} (hq : ∀ l w, q ≠ .dequeue l w)
    (hu : Function.update s.pc t q u = .dequeue l w) : u ≠ t ∧ s.pc u = .dequeue l w := by
  have hut : u ≠ t := by
    rintro rfl
    rw [Function.update_self] at hu
    exact hq l w hu
  rw [Function.update_of_ne hut] at hu
  exact ⟨hut, hu⟩

/-- A transaction that is not idle, while another one becomes idle, was there before. -/
lemma update_idle_iff [DecidableEq τ] {q : Pc} (hq : q ≠ .idle) :
    Function.update s.pc t .idle u = q ↔ u ≠ t ∧ s.pc u = q := by
  by_cases hut : u = t
  · subst hut
    simp [hq.symm]
  · simp [hut]

lemma mem_update_append [DecidableEq τ] {f : τ → List ℕ} {l l' : ℕ} :
    l' ∈ Function.update f t (f t ++ [l]) u ↔ l' ∈ f u ∨ u = t ∧ l' = l := by
  by_cases hut : u = t
  · subst hut
    simp
  · simp [hut]

/-! ## It is kept by every step -/

namespace Base

/-- The lock that a walk looks for lies in the list, and it is not marked. -/
lemma alive (h : Base s) {l : ℕ} {w : Walk} (hpc : s.pc t = .dequeue l w) :
    l < s.mem.fresh ∧ s.mem.state l = true :=
  ⟨(h.owned t l (h.walks t l w hpc).1).1, (h.owned t l (h.walks t l w hpc).1).2.1⟩

/-- Storing a link: it was missing before. -/
lemma later_link (h : Base s) {l : ℕ} {oldTail : Option ℕ} (hpc : s.pc t = .link l oldTail) :
    Later s.mem (s.mem.insertLink () l oldTail) := by
  cases oldTail with
  | none => exact ⟨fun _ hc => hc, fun _ b hb => ⟨b, hb, le_rfl⟩⟩
  | some a =>
      refine ⟨fun _ hc => hc, fun b x hb => ⟨x, ?_, le_rfl⟩⟩
      have hba : b ≠ a := by
        rintro rfl
        rw [(h.pending t l _ hpc).2.2.2.1 b rfl] at hb
        cases hb
      simpa [Mem.insertLink, hba] using hb

/-- A step of a walk: it does not pass the lock. -/
lemma ahead_step (h : Base s) {l : ℕ} {w w' : Walk} {m' : Mem Unit}
    (hpc : s.pc t = .dequeue l w) (hw : WStep () l s.mem w m' w') (hne : w' ≠ .done) :
    Ahead m' l w' := by
  obtain ⟨hlt, hl⟩ := h.alive hpc
  have hah := (h.walks t l w hpc).2
  -- the head and the links do not lead beyond a lock that is not marked
  have hhead : ∀ cur, s.mem.head () = some cur → cur ≤ l := by
    intro cur hcur
    by_contra! hgt
    rw [(h.head cur hcur).2 l hgt] at hl
    exact Bool.false_ne_true hl
  have hmarked : ∀ {cur}, cur ≤ l → s.mem.state cur = false → cur < l := by
    intro cur hle hm
    refine lt_of_le_of_ne hle ?_
    rintro rfl
    rw [hm] at hl
    exact Bool.false_ne_true hl
  cases hw with
  | startNull hh => trivial
  | start cur hh => exact hhead cur hh
  | testAlive cur hs => exact hah
  | testMarked cur hs => exact ⟨hmarked hah hs, hs⟩
  | headHash cur =>
      refine ⟨hah.1, hah.2, fun b hb => ?_⟩
      have hs := (h.order cur b hb).1
      exact ⟨hs, hs.le_of_alive hah.1 hl⟩
  | headCas cur v hh => exact hah.1
  | headCasFails cur v hh => exact hah.1
  | append x cur mid => exact hah
  | clock x oldTail cur mid => exact hah
  | stamp x oldTail cur mid ts => exact hah
  | gcLinkHead x oldTail cur => exact hah
  | gcLinkMid x oldTail cur => exact le_of_lt hah
  | reloadNull cur hh => trivial
  | reload cur cur' hh => exact hhead cur' hh
  | mark => exact absurd rfl hne
  | nextNull cur hcl hh => trivial
  | next cur next hcl hh =>
      have hs := (h.order cur next hh).1
      exact ⟨⟨hs, next, hh, le_rfl⟩, hs.le_of_alive (lt_of_le_of_ne hah hcl) hl⟩
  | curAlive cur next hs => exact hah
  | curMarked cur next hs => exact hah.2
  | nextAlive cur next hs => exact hah.2
  | nextMarked cur next hs => exact ⟨hah.1, hmarked hah.2 hs, hs⟩
  | waitNull cur next hh => exact hah
  | waitHash cur next v hh => exact ⟨hah.1, hah.2.1, hah.2.2, by simp [hh]⟩
  | waitTail cur next hh =>
      -- `next` is not the last lock, since `l` comes after it
      rw [h.tail, before_eq_some] at hh
      have := hah.2.1
      omega
  | waitAgain cur next hh => exact hah
  | midHash cur next =>
      obtain ⟨hs, hlt', hm, hne'⟩ := hah
      obtain ⟨b, hb⟩ := Option.ne_none_iff_exists'.1 hne'
      have hsb := (h.order next b hb).1
      exact ⟨hs, hlt', hm, b, hb, hsb, hsb.le_of_alive hlt' hl⟩
  | midCas cur next v hh =>
      exact hah.1.1.1.trans hah.2.1
  | midCasFails cur next v hh => exact (hah.1.1.1.trans hah.2.1).le

end Base

lemma base_start : Base (State.start : State τ) := by
  refine ⟨rfl, fun _ _ => rfl, ?_, ?_, ?_, ?_, ?_, ?_, ?_, fun _ => List.nodup_nil, ?_⟩ <;>
    simp [State.start, Mem.start]

section Steps

variable [DecidableEq τ]

namespace Base

/-- A lock is swapped into the tail. -/
lemma insert (h : Base s) (hpc : s.pc t = .idle) :
    Base { s with
      mem := s.mem.insertTas () 0
      pc := Function.update s.pc t (.link s.mem.fresh (s.mem.tail ())) } := by
  have hlink : ∀ {u : τ} {l : ℕ} {x : Option ℕ},
      Function.update s.pc t (.link s.mem.fresh (s.mem.tail ())) u = .link l x →
      (u = t ∧ l = s.mem.fresh ∧ x = s.mem.tail ()) ∨ s.pc u = .link l x := by
    intro u l x hu
    by_cases hut : u = t
    · rw [hut, Function.update_self] at hu
      cases hu
      exact Or.inl ⟨hut, rfl, rfl⟩
    · rw [Function.update_of_ne hut] at hu
      exact Or.inr hu
  have hlast : ∀ a, s.mem.tail () = some a → a + 1 = s.mem.fresh := by
    intro a ha
    rwa [h.tail, before_eq_some] at ha
  refine ⟨?_, fun a ha => h.unborn a (by simp only [Mem.insertTas] at ha; omega), ?_, ?_, ?_, ?_,
    ?_, ?_, h.disjoint, h.nodup, ?_⟩
  · simp [Mem.insertTas, before]
  · intro a b hab
    exact ⟨(h.order a b hab).1, (h.order a b hab).2.trans (Nat.lt_succ_self _)⟩
  · intro x hx
    exact ⟨(h.head x hx).1.trans (Nat.lt_succ_self _), (h.head x hx).2⟩
  · intro a ha hlt
    rcases Nat.lt_succ_iff_lt_or_eq.1 hlt with hlt | heq
    · obtain ⟨u, hu⟩ := h.missing a ha hlt
      exact ⟨u, update_link (by simp [hpc]) hu⟩
    · refine ⟨t, ?_⟩
      simp only [Function.update_self]
      rw [h.tail, before_eq_some.mpr heq, ← heq]
  · intro u l x hu
    rcases hlink hu with ⟨_, rfl, rfl⟩ | hu
    · refine ⟨Nat.lt_succ_self _, h.unborn _ le_rfl, h.tail, fun a ha => ?_, fun hnone => ?_⟩
      · show s.mem.hash a = none
        by_contra hsome
        obtain ⟨b, hb⟩ := Option.ne_none_iff_exists'.1 hsome
        have hab := h.order a b hb
        have := hab.1.1
        have := hlast a ha
        omega
      · show s.mem.head () = none
        by_contra hsome
        obtain ⟨x, hx⟩ := Option.ne_none_iff_exists'.1 hsome
        have hlt := (h.head x hx).1
        rw [h.tail, before_eq_none] at hnone
        omega
    · obtain ⟨h1, h2, h3, h4, h5⟩ := h.pending u l x hu
      exact ⟨h1.trans (Nat.lt_succ_self _), h2, h3, h4, h5⟩
  · intro u v l x y hu hv
    rcases hlink hu with ⟨hut, hl, _⟩ | hu' <;> rcases hlink hv with ⟨hvt, hl', _⟩ | hv'
    · exact hut.trans hvt.symm
    · exact absurd (hl ▸ (h.pending v _ y hv').1) (lt_irrefl _)
    · exact absurd (hl' ▸ (h.pending u _ x hu').1) (lt_irrefl _)
    · exact h.unique u v l x y hu' hv'
  · intro u l hl
    obtain ⟨h1, h2, h3⟩ := h.owned u l hl
    refine ⟨h1.trans (Nat.lt_succ_self _), h2, fun v x hv => ?_⟩
    rcases hlink hv with ⟨_, rfl, _⟩ | hv
    · exact lt_irrefl _ h1
    · exact h3 v x hv
  · intro u l w hu
    exact h.walks u l w (dequeue_of_update (by simp) hu).2

omit [DecidableEq τ] in
/-- A lock whose insert is half done belongs to nobody. -/
lemma not_owned (h : Base s) {l : ℕ} {oldTail : Option ℕ} (hpc : s.pc t = .link l oldTail)
    (u : τ) : l ∉ s.trxLocks u := fun hl => (h.owned u l hl).2.2 t oldTail hpc

lemma nodup_append (h : Base s) {l : ℕ} (hl : l ∉ s.trxLocks t) (u : τ) :
    (Function.update s.trxLocks t (s.trxLocks t ++ [l]) u).Nodup := by
  by_cases hut : u = t
  · rw [hut, Function.update_self]
    exact List.nodup_append.2 ⟨h.nodup t, List.nodup_singleton l, fun a ha b hb hab =>
      hl (List.mem_singleton.1 hb ▸ hab ▸ ha)⟩
  · rw [Function.update_of_ne hut]
    exact h.nodup u

/-- The insert of `l` is complete: the one link, or the head, that was missing is there. -/
lemma finish (h : Base s) {l : ℕ} {oldTail : Option ℕ} {m' : Mem Unit}
    (hpc : s.pc t = .link l oldTail)
    (hframe : m'.state = s.mem.state ∧ m'.tail = s.mem.tail ∧ m'.fresh = s.mem.fresh)
    (hlater : Later s.mem m')
    (horder : ∀ a b, m'.hash a = some b → Skips s.mem a b ∧ b < s.mem.fresh)
    (hnone : ∀ a, m'.hash a = none ↔ s.mem.hash a = none ∧ a + 1 ≠ l)
    (hhead : ∀ x, m'.head () = some x → x < s.mem.fresh ∧ ∀ c < x, s.mem.state c = false)
    (hheadNone : l ≠ 0 → s.mem.head () = none → m'.head () = none) :
    Base { mem := m'
           pc := Function.update s.pc t .idle
           trxLocks := Function.update s.trxLocks t (s.trxLocks t ++ [l]) } := by
  obtain ⟨hstate, htail, hfresh⟩ := hframe
  obtain ⟨hlt, halive, hbefore, -, -⟩ := h.pending t l oldTail hpc
  have hlink : ∀ {u : τ} {l' : ℕ} {x : Option ℕ}, Function.update s.pc t .idle u = .link l' x →
      s.pc u = .link l' x ∧ l' ≠ l := by
    intro u l' x hu
    obtain ⟨hut, hu⟩ := (update_idle_iff (by simp)).mp hu
    refine ⟨hu, ?_⟩
    rintro rfl
    exact hut (h.unique u t l' x oldTail hu hpc)
  refine ⟨?_, ?_, fun a b hab => ?_, ?_, fun a ha hlt' => ?_, fun u l' x hu => ?_,
    fun u v l' x y hu hv => h.unique u v l' x y (hlink hu).1 (hlink hv).1, fun u l' hl' => ?_,
    fun u v l' hu hv => ?_, h.nodup_append (h.not_owned hpc t), fun u l' w hu => ?_⟩
  · show m'.tail () = before m'.fresh
    rw [htail, hfresh, h.tail]
  · show ∀ a, m'.fresh ≤ a → m'.state a = true
    rw [hstate, hfresh]
    exact h.unborn
  · obtain ⟨hs, hb⟩ := horder a b hab
    exact ⟨hlater.skips hs, hfresh ▸ hb⟩
  · show ∀ x, m'.head () = some x → x < m'.fresh ∧ ∀ c < x, m'.state c = false
    rw [hstate, hfresh]
    exact hhead
  · obtain ⟨ha, hal⟩ := (hnone a).mp ha
    obtain ⟨u, hu⟩ := h.missing a ha (hfresh ▸ hlt')
    refine ⟨u, (update_idle_iff (by simp)).mpr ⟨?_, hu⟩⟩
    rintro rfl
    rw [hpc] at hu
    cases hu
    exact hal rfl
  · obtain ⟨hu, hne⟩ := hlink hu
    obtain ⟨h1, h2, h3, h4, h5⟩ := h.pending u l' x hu
    refine ⟨hfresh ▸ h1, hstate ▸ h2, h3, fun a ha => (hnone a).mpr ⟨h4 a ha, ?_⟩, fun hx => ?_⟩
    · rw [before_eq_some.mp (h3.symm.trans ha)]
      exact hne
    · have hl' : l' = 0 := before_eq_none.mp (h3.symm.trans hx)
      exact hheadNone (fun hl => hne (hl'.trans hl.symm)) (h5 hx)
  · rcases mem_update_append.mp hl' with hl' | ⟨-, rfl⟩
    · obtain ⟨h1, h2, h3⟩ := h.owned u l' hl'
      exact ⟨hfresh ▸ h1, hstate ▸ h2, fun v x hv => h3 v x (hlink hv).1⟩
    · exact ⟨hfresh ▸ hlt, hstate ▸ halive, fun v x hv => (hlink hv).2 rfl⟩
  · rcases mem_update_append.mp hu with hu' | ⟨hut, hl⟩ <;>
      rcases mem_update_append.mp hv with hv' | ⟨hvt, hl'⟩
    · exact h.disjoint u v l' hu' hv'
    · exact absurd (hl' ▸ hu') (h.not_owned hpc u)
    · exact absurd (hl ▸ hv') (h.not_owned hpc v)
    · exact hut.trans hvt.symm
  · obtain ⟨hut, hu⟩ := dequeue_of_update (by simp) hu
    simp only [Function.update_of_ne hut]
    exact ⟨(h.walks u l' w hu).1, (h.walks u l' w hu).2.later hlater⟩

/-- The link is stored: the insert is complete. -/
lemma link (h : Base s) {l : ℕ} {oldTail : Option ℕ} (hpc : s.pc t = .link l oldTail) :
    Base { mem := s.mem.insertLink () l oldTail
           pc := Function.update s.pc t .idle
           trxLocks := Function.update s.trxLocks t (s.trxLocks t ++ [l]) } := by
  obtain ⟨hlt, -, hbefore, -, -⟩ := h.pending t l oldTail hpc
  have hlater := h.later_link hpc
  cases oldTail with
  | none =>
      -- the first lock of all
      obtain rfl : l = 0 := before_eq_none.mp hbefore.symm
      refine h.finish hpc ⟨rfl, rfl, rfl⟩ hlater h.order (fun a => ?_) (fun x hx => ?_)
        fun hne => absurd rfl hne
      · exact (and_iff_left (Nat.succ_ne_zero a)).symm
      · simp only [Mem.insertLink, Function.update_self, Option.some.injEq] at hx
        subst hx
        exact ⟨hlt, fun c hc => absurd hc (Nat.not_lt_zero c)⟩
  | some a =>
      obtain rfl : a + 1 = l := before_eq_some.mp hbefore.symm
      have hget : ∀ b, b ≠ a → (s.mem.insertLink () (a + 1) (some a)).hash b = s.mem.hash b :=
        fun b hb => Function.update_of_ne hb _ _
      have hset : (s.mem.insertLink () (a + 1) (some a)).hash a = some (a + 1) :=
        Function.update_self _ _ _
      refine h.finish hpc ⟨rfl, rfl, rfl⟩ hlater (fun b x hb => ?_) (fun b => ?_) h.head
        fun _ => id
      · by_cases hba : b = a
        · subst hba
          obtain rfl := Option.some.inj (hset.symm.trans hb)
          exact ⟨⟨Nat.lt_succ_self b, fun c h1 h2 => by omega⟩, hlt⟩
        · exact h.order b x ((hget b hba).symm.trans hb)
      · by_cases hba : b = a
        · subst hba
          simp [hset]
        · rw [hget b hba]
          exact (and_iff_left (by omega)).symm

/-- A transaction goes on in its dequeue, or starts one; only links and the head may change. -/
lemma setWalk (h : Base s) {l : ℕ} {w' : Walk} {m' : Mem Unit}
    (hpc : ∀ l x, s.pc t ≠ .link l x) (hl : l ∈ s.trxLocks t)
    (hframe : m'.state = s.mem.state ∧ m'.tail = s.mem.tail ∧ m'.fresh = s.mem.fresh)
    (hlater : Later s.mem m') (hahead : Ahead m' l w')
    (horder : ∀ a b, m'.hash a = some b → Skips s.mem a b ∧ b < s.mem.fresh)
    (hnone : ∀ a, m'.hash a = none ↔ s.mem.hash a = none)
    (hhead : ∀ x, m'.head () = some x → x < s.mem.fresh ∧ ∀ c < x, s.mem.state c = false)
    (hheadNone : s.mem.head () = none → m'.head () = none) :
    Base { s with mem := m', pc := Function.update s.pc t (.dequeue l w') } := by
  obtain ⟨hstate, htail, hfresh⟩ := hframe
  have hlink : ∀ {u : τ} {l' : ℕ} {x : Option ℕ},
      Function.update s.pc t (.dequeue l w') u = .link l' x ↔ s.pc u = .link l' x := by
    intro u l' x
    by_cases hut : u = t
    · subst hut
      rw [Function.update_self]
      constructor
      · exact fun hu => absurd hu (by simp)
      · exact fun hu => absurd hu (hpc l' x)
    · rw [Function.update_of_ne hut]
  refine ⟨?_, ?_, ?_, ?_, ?_, ?_, ?_, ?_, h.disjoint, h.nodup, ?_⟩
  · show m'.tail () = before m'.fresh
    rw [htail, hfresh, h.tail]
  · show ∀ a, m'.fresh ≤ a → m'.state a = true
    rw [hstate, hfresh]
    exact h.unborn
  · intro a b hab
    obtain ⟨hs, hb⟩ := horder a b hab
    exact ⟨hlater.skips hs, hfresh ▸ hb⟩
  · show ∀ x, m'.head () = some x → x < m'.fresh ∧ ∀ c < x, m'.state c = false
    rw [hstate, hfresh]
    exact hhead
  · intro a ha hlt
    obtain ⟨u, hu⟩ := h.missing a ((hnone a).1 ha) (hfresh ▸ hlt)
    exact ⟨u, hlink.2 hu⟩
  · intro u l' x hu
    obtain ⟨h1, h2, h3, h4, h5⟩ := h.pending u l' x (hlink.1 hu)
    exact ⟨hfresh ▸ h1, hstate ▸ h2, h3, fun a ha => (hnone a).2 (h4 a ha),
      fun hx => hheadNone (h5 hx)⟩
  · exact fun u v l' x y hu hv => h.unique u v l' x y (hlink.1 hu) (hlink.1 hv)
  · intro u l' hl'
    obtain ⟨h1, h2, h3⟩ := h.owned u l' hl'
    exact ⟨hfresh ▸ h1, hstate ▸ h2, fun v x hv => h3 v x (hlink.1 hv)⟩
  · intro u l' w hu
    by_cases hut : u = t
    · subst hut
      simp only [Function.update_self, Pc.dequeue.injEq] at hu
      obtain ⟨rfl, rfl⟩ := hu
      exact ⟨hl, hahead⟩
    · simp only [Function.update_of_ne hut] at hu
      exact ⟨(h.walks u l' w hu).1, (h.walks u l' w hu).2.later hlater⟩

/-- A step of a walk. -/
lemma walk (h : Base s) {l : ℕ} {w w' : Walk} {m' : Mem Unit} (hpc : s.pc t = .dequeue l w)
    (hw : WStep () l s.mem w m' w') (hne : w' ≠ .done) :
    Base { s with mem := m', pc := Function.update s.pc t (.dequeue l w') } := by
  obtain ⟨hl, hah⟩ := h.walks t l w hpc
  have hlater := hw.later hah hne
  have hstep := h.ahead_step hpc hw hne
  refine h.setWalk (by simp [hpc]) hl (hw.frame hne) hlater hstep ?_ ?_ ?_ ?_
  · cases hw with
    | midCas cur next v hcas =>
        obtain ⟨hs, hlt, hm, b', rfl, hs', hle⟩ := hah
        intro a b hab
        by_cases ha : a = cur
        · subst ha
          simp only [Mem.unlinkNext, Function.update_self, Option.some.injEq] at hab
          subst hab
          exact ⟨hs.1.trans hm hs', hle.trans_lt (h.alive hpc).1⟩
        · simp only [Mem.unlinkNext, Function.update_of_ne ha] at hab
          exact h.order a b hab
    | gcLinkHead x oldTail cur => cases oldTail <;> exact h.order
    | gcLinkMid x oldTail cur => cases oldTail <;> exact h.order
    | mark => exact absurd rfl hne
    | _ => exact h.order
  · cases hw with
    | midCas cur next v hcas =>
        obtain ⟨hs, hlt, hm, b', rfl, hs', hle⟩ := hah
        intro a
        by_cases ha : a = cur
        · subst ha
          simp [Mem.unlinkNext, hcas]
        · simp [Mem.unlinkNext, ha]
    | gcLinkHead x oldTail cur => cases oldTail <;> exact fun _ => Iff.rfl
    | gcLinkMid x oldTail cur => cases oldTail <;> exact fun _ => Iff.rfl
    | mark => exact absurd rfl hne
    | _ => exact fun _ => Iff.rfl
  · cases hw with
    | headCas cur v hcas =>
        obtain ⟨hlt, hm, hv⟩ := hah
        intro x hx
        simp only [Mem.unlinkHead, Function.update_self] at hx
        obtain ⟨hs, hle⟩ := hv x hx
        refine ⟨hle.trans_lt (h.alive hpc).1, fun c hc => ?_⟩
        rcases lt_trichotomy c cur with hcc | rfl | hcc
        · exact (h.head cur hcas).2 c hcc
        · exact hm
        · exact hs.2 c hcc hc
    | gcLinkHead x oldTail cur => cases oldTail <;> exact h.head
    | gcLinkMid x oldTail cur => cases oldTail <;> exact h.head
    | mark => exact absurd rfl hne
    | _ => exact h.head
  · cases hw with
    | headCas cur v hcas => exact fun hnone => absurd (hcas.symm.trans hnone) (by simp)
    | gcLinkHead x oldTail cur => cases oldTail <;> exact id
    | gcLinkMid x oldTail cur => cases oldTail <;> exact id
    | mark => exact absurd rfl hne
    | _ => exact id

/-- A transaction finds its lock and marks it. -/
lemma mark (h : Base s) {l : ℕ} (hpc : s.pc t = .dequeue l (.next l)) :
    Base { mem := s.mem.mark l
           pc := Function.update s.pc t .idle
           trxLocks := Function.update s.trxLocks t ((s.trxLocks t).erase l) } := by
  have hl := (h.walks t l _ hpc).1
  have hlater := later_mark s.mem l
  have hstate : ∀ c, c ≠ l → (s.mem.mark l).state c = s.mem.state c :=
    fun c hc => Function.update_of_ne hc _ _
  have hlink : ∀ {u : τ} {l' : ℕ} {x : Option ℕ},
      Function.update s.pc t .idle u = .link l' x ↔ s.pc u = .link l' x := by
    intro u l' x
    by_cases hut : u = t
    · subst hut
      simp [hpc]
    · rw [Function.update_of_ne hut]
  -- whoever else holds a lock holds another one
  have hmem : ∀ {u : τ} {l' : ℕ},
      l' ∈ Function.update s.trxLocks t ((s.trxLocks t).erase l) u →
      l' ∈ s.trxLocks u ∧ l' ≠ l := by
    intro u l' hl'
    by_cases hut : u = t
    · subst hut
      rw [Function.update_self, (h.nodup u).mem_erase_iff] at hl'
      exact ⟨hl'.2, hl'.1⟩
    · rw [Function.update_of_ne hut] at hl'
      refine ⟨hl', ?_⟩
      rintro rfl
      exact hut (h.disjoint u t l' hl' hl)
  refine ⟨h.tail, fun a ha => ?_, fun a b hab => ?_, fun x hx => ?_, fun a ha hlt => ?_,
    fun u l' x hu => ?_, fun u v l' x y hu hv => h.unique u v l' x y (hlink.1 hu) (hlink.1 hv),
    fun u l' hl' => ?_, fun u v l' hu hv => h.disjoint u v l' (hmem hu).1 (hmem hv).1, fun u => ?_,
    fun u l' w hu => ?_⟩
  · rw [hstate a (by rintro rfl; exact absurd (h.alive hpc).1 (not_lt.2 ha))]
    exact h.unborn a ha
  · exact ⟨hlater.skips (h.order a b hab).1, (h.order a b hab).2⟩
  · exact ⟨(h.head x hx).1, fun c hc => hlater.marks c ((h.head x hx).2 c hc)⟩
  · obtain ⟨u, hu⟩ := h.missing a ha hlt
    exact ⟨u, hlink.2 hu⟩
  · obtain ⟨h1, h2, h3, h4, h5⟩ := h.pending u l' x (hlink.1 hu)
    refine ⟨h1, ?_, h3, h4, h5⟩
    rw [hstate l' (by rintro rfl; exact (h.owned t l' hl).2.2 u x (hlink.1 hu)), h2]
  · obtain ⟨hl', hne⟩ := hmem hl'
    obtain ⟨h1, h2, h3⟩ := h.owned u l' hl'
    exact ⟨h1, by rw [hstate l' hne, h2], fun v x hv => h3 v x (hlink.1 hv)⟩
  · by_cases hut : u = t
    · subst hut
      simp only [Function.update_self]
      exact (h.nodup u).erase l
    · simp only [Function.update_of_ne hut]
      exact h.nodup u
  · obtain ⟨hut, hu⟩ := dequeue_of_update (by simp) hu
    simp only [Function.update_of_ne hut]
    exact ⟨(h.walks u l' w hu).1, (h.walks u l' w hu).2.later hlater⟩

lemma move (h : Base s) {a : Act τ} (hm : Move s t a s') : Base s' := by
  cases hm with
  | insert hpc => exact h.insert hpc
  | dequeue l hpc hl =>
      exact h.setWalk (by simp [hpc]) hl ⟨rfl, rfl, rfl⟩ (Later.refl _) trivial h.order
        (fun _ => Iff.rfl) h.head id
  | link hpc => exact h.link hpc
  | walk hpc hw hne => exact h.walk hpc hw hne
  | mark hpc => exact h.mark hpc

end Base

/-- **What holds in every state**, whatever the schedule. -/
theorem base_of_run {ok : State τ → Act τ → Prop} (hs : (cellList τ).Run ok s) : Base s := by
  refine Machine.Run.invariant (I := Base) ?_ ?_ s hs
  · rintro s rfl
    exact base_start
  · intro s a s' _ h _ hstep
    exact h.move (move_of_step hstep)

end Steps

end Multicore.Project4
