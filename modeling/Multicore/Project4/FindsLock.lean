import Multicore.Project4.CellList

/-!
# Does a dequeue find its lock?

A walk follows links, and a link may be missing: an insert swaps the tail first and stores the link
later.  The walk waits for the link only where it is about to unlink the next lock.  Everywhere
else it takes a null pointer for the end of the list, and there it must not be: it fails
`ut_a(cur_lock)` or `ut_a(next_lock)`, or it stores the null pointer into `cell->head`.

`NoMissingLink` excludes the schedules in which a walk loads a link that an insert is about to
store.  In all others:

* `Linked` — what is kept besides `Base`: the head is not null once the first insert is complete;
* `FindsLocks` — no walk fails, and from wherever it stands its lock can be reached;
* `rank` — how far a walk has to go.  Steps of others do not make it longer, and each step of its
  own makes it shorter, unless it waits for a link that is missing.
* **`dequeue_finds_lock`** — the lock is found; **`dequeue_fails`** — without the condition it need
  not be.
-/

namespace Multicore.Project4

variable {τ : Type*} {s s' : State τ} {t u : τ}

/-! ## The condition -/

/-- The link that the next step loads without being ready for a null pointer: `none` is
`cell->head`, `some cur` is `cur_lock->hash`. -/
def Pc.loads : Pc → Option (Option ℕ)
  | .dequeue _ .start => some none
  | .dequeue _ (.headHash cur) => some (some cur)
  | .dequeue l (.next cur) => if cur = l then none else some (some cur)
  | _ => none

/-- The link that the next step stores. -/
def Pc.stores : Pc → Option (Option ℕ)
  | .link _ oldTail => some oldTail
  | _ => none

/-- A walk does not load a link that an insert is about to store. -/
def NoMissingLink (s : State τ) : Act τ → Prop
  | .go t => (s.pc t).loads ≠ none → ∀ u, (s.pc u).stores ≠ (s.pc t).loads
  | _ => True

instance [Fintype τ] (s : State τ) (a : Act τ) : Decidable (NoMissingLink s a) :=
  match a with
  | .insert _ => isTrue trivial
  | .dequeue _ _ => isTrue trivial
  | .go t => inferInstanceAs (Decidable ((s.pc t).loads ≠ none →
      ∀ u, (s.pc u).stores ≠ (s.pc t).loads))

/-! ## The property -/

/-- The lock that a walk stands at. -/
def Walk.cur : Walk → Option ℕ
  | .test cur => some cur
  | .headHash cur => some cur
  | .headCas cur _ => some cur
  | .append _ cur _ => some cur
  | .clock _ _ cur _ => some cur
  | .stamp _ _ cur _ _ => some cur
  | .gcLink _ _ cur _ => some cur
  | .reload cur => some cur
  | .next cur => some cur
  | .curState cur _ => some cur
  | .nextState cur _ => some cur
  | .waitHash cur _ => some cur
  | .waitTail cur _ => some cur
  | .midHash cur _ => some cur
  | .midCas cur _ _ => some cur
  | _ => none

/-- `a` is linked to `b`, or an insert is about to link them. -/
def State.Link (s : State τ) (a b : ℕ) : Prop :=
  s.mem.hash a = some b ∨ (s.mem.hash a = none ∧ ∃ t, s.pc t = .link b (some a))

/-- Every dequeue can find its lock. -/
structure FindsLocks (s : State τ) : Prop where
  /-- no assertion fails and no null pointer is used -/
  noFail : ∀ t l, s.pc t ≠ .dequeue l .failed
  /-- the head is not null once the first insert has linked it -/
  head : 0 < s.mem.fresh → (∀ t x, s.pc t ≠ .link 0 x) → s.mem.head () ≠ none
  /-- the lock can be reached from where the walk stands -/
  reach : ∀ t l w cur, s.pc t = .dequeue l w → w.cur = some cur →
    Relation.ReflTransGen s.Link cur l
  /-- a walk that waits waits for an insert that is half done -/
  waiting : ∀ t l cur next, s.pc t = .dequeue l (.waitHash cur next) → s.mem.hash next = none →
    ∃ u, s.pc u = .link (next + 1) (some next)

/-- From a lock up to one that is not marked there are links all the way. -/
lemma Base.reach (h : Base s) {a l : ℕ} (hal : a ≤ l) (hl : l < s.mem.fresh)
    (halive : s.mem.state l = true) : Relation.ReflTransGen s.Link a l := by
  induction hd : l - a using Nat.strong_induction_on generalizing a with
  | _ d ih =>
      rcases hal.eq_or_lt with rfl | hlt
      · exact .refl
      · cases hhash : s.mem.hash a with
        | some b =>
            have hs := (h.order a b hhash).1
            have hb : b ≤ l := hs.le_of_alive hlt halive
            exact .head (Or.inl hhash) (ih (l - b) (by have := hs.1; omega) hb rfl)
        | none =>
            obtain ⟨t, ht⟩ := h.missing a hhash (by omega)
            exact .head (Or.inr ⟨hhash, t, ht⟩) (ih (l - (a + 1)) (by omega) hlt rfl)

/-- A walk has not passed its lock. -/
lemma Ahead.cur_le {m : Mem Unit} {l cur : ℕ} {w : Walk} (h : Ahead m l w)
    (hcur : w.cur = some cur) : cur ≤ l := by
  cases w <;> simp only [Walk.cur, Option.some.injEq, reduceCtorEq] at hcur <;> subst hcur
  case test => exact h
  case headHash => exact h.1.le
  case headCas => exact h.1.le
  case append => exact le_of_lt h
  case clock => exact le_of_lt h
  case stamp => exact le_of_lt h
  case gcLink => exact le_of_lt h
  case reload => exact le_of_lt h
  case next => exact h
  case curState => exact h.1.1.1.le.trans h.2
  case nextState => exact h.1.1.1.le.trans h.2
  case waitHash => exact (h.1.1.1.trans h.2.1).le
  case waitTail => exact (h.1.1.1.trans h.2.1).le
  case midHash => exact (h.1.1.1.trans h.2.1).le
  case midCas => exact (h.1.1.1.trans h.2.1).le

/-! ## The head -/

/-- A walk in the first loop stands at the head, or the head has moved on. -/
def Passed (m : Mem Unit) : Walk → Prop
  | .test cur => ∃ h, m.head () = some h ∧ cur ≤ h
  | .headHash cur => ∃ h, m.head () = some h ∧ cur ≤ h
  | .headCas cur v => v ≠ none ∧ ∃ h, m.head () = some h ∧ cur ≤ h
  | .append _ cur false => ∃ h, m.head () = some h ∧ cur < h
  | .clock _ _ cur false => ∃ h, m.head () = some h ∧ cur < h
  | .stamp _ _ cur false _ => ∃ h, m.head () = some h ∧ cur < h
  | .gcLink _ _ cur false => ∃ h, m.head () = some h ∧ cur < h
  | .reload cur => ∃ h, m.head () = some h ∧ cur < h
  | .failed => False
  | _ => True

/-- What is kept without missing links. -/
structure Linked (s : State τ) : Prop where
  head : s.mem.head () = none → s.mem.fresh = 0 ∨ ∃ t, s.pc t = .link 0 none
  passed : ∀ t l w, s.pc t = .dequeue l w → Passed s.mem w

/-- The head moves forward. -/
lemma Passed.mono {m m' : Mem Unit} {w : Walk} (h : Passed m w)
    (hhead : ∀ x, m.head () = some x → ∃ y, m'.head () = some y ∧ x ≤ y) : Passed m' w := by
  have hle : ∀ {cur : ℕ}, (∃ x, m.head () = some x ∧ cur ≤ x) →
      ∃ y, m'.head () = some y ∧ cur ≤ y := by
    rintro cur ⟨x, hx, hcx⟩
    obtain ⟨y, hy, hxy⟩ := hhead x hx
    exact ⟨y, hy, hcx.trans hxy⟩
  have hlt : ∀ {cur : ℕ}, (∃ x, m.head () = some x ∧ cur < x) →
      ∃ y, m'.head () = some y ∧ cur < y := by
    rintro cur ⟨x, hx, hcx⟩
    obtain ⟨y, hy, hxy⟩ := hhead x hx
    exact ⟨y, hy, hcx.trans_le hxy⟩
  cases w with
  | test cur => exact hle h
  | headHash cur => exact hle h
  | headCas cur v => exact ⟨h.1, hle h.2⟩
  | append x cur mid => cases mid with
      | false => exact hlt h
      | true => trivial
  | clock x oldTail cur mid => cases mid with
      | false => exact hlt h
      | true => trivial
  | stamp x oldTail cur mid ts => cases mid with
      | false => exact hlt h
      | true => trivial
  | gcLink x oldTail cur mid => cases mid with
      | false => exact hlt h
      | true => trivial
  | reload cur => exact hlt h
  | failed => exact h
  | _ => trivial

namespace Linked

/-- A compare-and-swap moves the head forward, and not to a null pointer. -/
lemma head_mono {m m' : Mem Unit} {l : ℕ} {w w' : Walk} (hp : Passed m w) (hah : Ahead m l w)
    (hw : WStep () l m w m' w') (x : ℕ) (hx : m.head () = some x) :
    ∃ y, m'.head () = some y ∧ x ≤ y := by
  cases hw with
  | headCas cur v hcas =>
      obtain ⟨b, rfl⟩ := Option.ne_none_iff_exists'.1 hp.1
      obtain rfl : cur = x := Option.some.inj (hcas.symm.trans hx)
      exact ⟨b, by simp [Mem.unlinkHead], ((hah.2.2 b rfl).1.1).le⟩
  | gcLinkHead y oldTail cur => cases oldTail <;> exact ⟨x, hx, le_rfl⟩
  | gcLinkMid y oldTail cur => cases oldTail <;> exact ⟨x, hx, le_rfl⟩
  | _ => exact ⟨x, hx, le_rfl⟩

/-- A link that a walk may load is not missing. -/
lemma hash_ne_none (hB : Base s) {l cur : ℕ} {w : Walk} (hpc : s.pc t = .dequeue l w)
    (hcur : cur < l) (hload : (s.pc t).loads = some (some cur))
    (hok : NoMissingLink s (.go t)) : s.mem.hash cur ≠ none := by
  intro hnone
  obtain ⟨u, hu⟩ := hB.missing cur hnone (by have := (hB.alive hpc).1; omega)
  exact hok (by simp [hload]) u (by simp [hu, hload, Pc.stores])

/-- A step of a walk: it does not fail. -/
lemma passed_step (h : Linked s) (hB : Base s) {l : ℕ} {w w' : Walk} {m' : Mem Unit}
    (hpc : s.pc t = .dequeue l w) (hw : WStep () l s.mem w m' w')
    (hok : NoMissingLink s (.go t)) : Passed m' w' := by
  have hp := h.passed t l w hpc
  have hah := (hB.walks t l w hpc).2
  cases hw with
  | startNull hh =>
      rcases h.head hh with h0 | ⟨u, hu⟩
      · have := (hB.alive hpc).1
        omega
      · exact hok (by simp [hpc, Pc.loads]) u (by simp [hu, hpc, Pc.stores, Pc.loads])
  | start cur hh => exact ⟨cur, hh, le_rfl⟩
  | testAlive cur hs => trivial
  | testMarked cur hs => exact hp
  | headHash cur => exact ⟨hash_ne_none hB hpc hah.1 (by simp [hpc, Pc.loads]) hok, hp⟩
  | headCas cur v hcas =>
      obtain ⟨b, rfl⟩ := Option.ne_none_iff_exists'.1 hp.1
      exact ⟨b, by simp [Mem.unlinkHead], (hah.2.2 b rfl).1.1⟩
  | headCasFails cur v hcas =>
      obtain ⟨x, hx, hle⟩ := hp.2
      refine ⟨x, hx, lt_of_le_of_ne hle ?_⟩
      rintro rfl
      exact hcas hx
  | append x cur mid => cases mid with
      | false => exact hp
      | true => trivial
  | clock x oldTail cur mid => cases mid with
      | false => exact hp
      | true => trivial
  | stamp x oldTail cur mid ts => cases mid with
      | false => exact hp
      | true => trivial
  | gcLinkHead x oldTail cur => cases oldTail <;> exact hp
  | gcLinkMid x oldTail cur => trivial
  | reloadNull cur hh =>
      obtain ⟨x, hx, _⟩ := hp
      exact absurd (hh.symm.trans hx) (by simp)
  | reload cur cur' hh => exact ⟨cur', hh, le_rfl⟩
  | nextNull cur hne hh =>
      exact hash_ne_none hB hpc (lt_of_le_of_ne hah hne) (by simp [hpc, Pc.loads, hne]) hok hh
  | _ => trivial

/-- As long as the head is null, the first insert is not complete. -/
lemma head_update [DecidableEq τ] (h : Linked s) (hpc : ∀ l x, s.pc t ≠ .link l x) (q : Pc)
    (hnone : s.mem.head () = none) :
    s.mem.fresh = 0 ∨ ∃ u, Function.update s.pc t q u = .link 0 none :=
  (h.head hnone).imp_right fun ⟨u, hu⟩ => ⟨u, update_link hpc hu⟩

/-- The walks of the others. -/
lemma passed_update [DecidableEq τ] (h : Linked s) {m' : Mem Unit} {q : Pc}
    (hmono : ∀ x, s.mem.head () = some x → ∃ y, m'.head () = some y ∧ x ≤ y)
    (hq : ∀ l w, q = .dequeue l w → Passed m' w) :
    ∀ u l w, Function.update s.pc t q u = .dequeue l w → Passed m' w := by
  intro u l w hu
  by_cases hut : u = t
  · rw [hut, Function.update_self] at hu
    exact hq l w hu
  · rw [Function.update_of_ne hut] at hu
    exact (h.passed u l w hu).mono hmono

lemma move [DecidableEq τ] (h : Linked s) (hB : Base s) {a : Act τ} (hok : NoMissingLink s a)
    (hm : Move s t a s') : Linked s' := by
  have hsame : ∀ x, s.mem.head () = some x → ∃ y, s.mem.head () = some y ∧ x ≤ y :=
    fun x hx => ⟨x, hx, le_rfl⟩
  cases hm with
  | insert hpc =>
      refine ⟨fun hnone => Or.inr ?_, h.passed_update hsame (by simp)⟩
      rcases h.head_update (t := t) (by simp [hpc]) (.link s.mem.fresh (s.mem.tail ())) hnone
        with h0 | hu
      · exact ⟨t, by simp [h0, hB.tail, before]⟩
      · exact hu
  | dequeue l hpc hl =>
      refine ⟨h.head_update (by simp [hpc]) _, h.passed_update hsame fun l' w hw => ?_⟩
      cases hw
      trivial
  | @link l oldTail hpc =>
      cases oldTail with
      | none =>
          refine ⟨fun hnone => ?_, h.passed_update (fun x hx => ?_) (by simp)⟩
          · simp [Mem.insertLink] at hnone
          · rw [(hB.pending t l none hpc).2.2.2.2 rfl] at hx
            cases hx
      | some a =>
          refine ⟨fun hnone => ?_, h.passed_update hsame (by simp)⟩
          rcases h.head hnone with h0 | ⟨u, hu⟩
          · exact Or.inl h0
          · have hut : u ≠ t := by
              rintro rfl
              rw [hpc] at hu
              cases hu
            exact Or.inr ⟨u, by simp only [Function.update_of_ne hut, hu]⟩
  | @walk l w w' mem hpc hw hne =>
      have hmono := head_mono (h.passed t l w hpc) (hB.walks t l w hpc).2 hw
      refine ⟨fun hnone => ?_, h.passed_update hmono fun l' v hv => ?_⟩
      · have hnone' : s.mem.head () = none := by
          by_contra hsome
          obtain ⟨x, hx⟩ := Option.ne_none_iff_exists'.1 hsome
          obtain ⟨y, hy, _⟩ := hmono x hx
          exact absurd (hnone.symm.trans hy) (by simp)
        exact (h.head_update (by simp [hpc]) _ hnone').imp_left (hw.frame hne).2.2.trans
      · cases hv
        exact h.passed_step hB hpc hw hok
  | mark hpc => exact ⟨h.head_update (by simp [hpc]) _, h.passed_update hsame (by simp)⟩

end Linked

/-! ## How far a walk has to go -/

/-- Where `lock->hash` leads; a link that is missing leads nowhere. -/
def Mem.nextOf (m : Mem Unit) (cur : ℕ) : ℕ := (m.hash cur).getD cur

/-- How far a walk has to go.  In the first loop the head moves forward in each round, in the
second one either the walk itself or the link of the lock it stands at. -/
def rank (m : Mem Unit) (l : ℕ) : Walk → ℕ
  | .start => 64 * l + 21
  | .test cur => 64 * (l - cur) + 20
  | .headHash cur => 64 * (l - cur) + 19
  | .headCas cur _ => 64 * (l - cur) + 18
  | .append _ cur false => 64 * (l - cur) + 17
  | .clock _ _ cur false => 64 * (l - cur) + 16
  | .stamp _ _ cur false _ => 64 * (l - cur) + 15
  | .gcLink _ _ cur false => 64 * (l - cur) + 14
  | .reload cur => 64 * (l - cur) + 13
  | .append _ cur true => 32 * (l - cur) + 16 * (l - m.nextOf cur) + 11
  | .clock _ _ cur true => 32 * (l - cur) + 16 * (l - m.nextOf cur) + 10
  | .stamp _ _ cur true _ => 32 * (l - cur) + 16 * (l - m.nextOf cur) + 9
  | .gcLink _ _ cur true => 32 * (l - cur) + 16 * (l - m.nextOf cur) + 8
  | .next cur => 32 * (l - cur) + 16 * (l - m.nextOf cur) + 7
  | .curState cur next => 32 * (l - cur) + 16 * (l - next) + 6
  | .nextState cur next => 32 * (l - cur) + 16 * (l - next) + 5
  | .waitHash cur next => 32 * (l - cur) + 16 * (l - next) + 4
  | .waitTail cur next => 32 * (l - cur) + 16 * (l - next) + 4
  | .midHash cur next => 32 * (l - cur) + 16 * (l - next) + 3
  | .midCas cur next _ => 32 * (l - cur) + 16 * (l - next) + 2
  | .done => 0
  | .failed => 0

/-- A round of the loop that waits for a missing link. -/
def Walk.waits (m : Mem Unit) : Walk → Bool
  | .waitHash _ n => (m.hash n).isNone
  | .waitTail _ _ => true
  | _ => false

section Rank

variable {m m' : Mem Unit} {l : ℕ} {w w' : Walk}

/-- Later, the links lead further. -/
lemma Later.nextOf_le (h : Later m m') (hord : ∀ a b, m'.hash a = some b → a < b) (a : ℕ) :
    m.nextOf a ≤ m'.nextOf a := by
  cases ha : m.hash a with
  | some b =>
      obtain ⟨b', hb', hle⟩ := h.links a b ha
      simpa [Mem.nextOf, ha, hb'] using hle
  | none =>
      cases ha' : m'.hash a with
      | none => simp [Mem.nextOf, ha, ha']
      | some b => simpa [Mem.nextOf, ha, ha'] using (hord a b ha').le

/-- The steps of others do not make the way longer. -/
lemma rank_later (h : Later m m') (hord : ∀ a b, m'.hash a = some b → a < b) :
    rank m' l w ≤ rank m l w := by
  have hle : ∀ cur, l - m'.nextOf cur ≤ l - m.nextOf cur := fun cur =>
    Nat.sub_le_sub_left (h.nextOf_le hord cur) l
  cases w with
  | append x cur mid => cases mid <;> simp [rank, hle]
  | clock x oldTail cur mid => cases mid <;> simp [rank, hle]
  | stamp x oldTail cur mid ts => cases mid <;> simp [rank, hle]
  | gcLink x oldTail cur mid => cases mid <;> simp [rank, hle]
  | next cur => simp [rank, hle]
  | _ => exact le_rfl

end Rank

lemma Base.le_nextOf (h : Base s) (a : ℕ) : a ≤ s.mem.nextOf a := by
  cases ha : s.mem.hash a with
  | none => simp [Mem.nextOf, ha]
  | some b => simpa [Mem.nextOf, ha] using (h.order a b ha).1.1.le

/-- A step of its own brings a walk nearer to its lock, unless it waits. -/
lemma rank_step (hB : Base s) (hL : Linked s) {l : ℕ} {w w' : Walk} {m' : Mem Unit}
    (hpc : s.pc t = .dequeue l w) (hw : WStep () l s.mem w m' w') (hne : w' ≠ .done)
    (hwait : w.waits s.mem = false) : rank m' l w' < rank s.mem l w := by
  have hah := (hB.walks t l w hpc).2
  have hah' := hB.ahead_step hpc hw hne
  have hp := hL.passed t l w hpc
  cases hw with
  | startNull hh => simp [rank]
  | start cur hh =>
      have := Nat.sub_le l cur
      simp only [rank]
      omega
  | testAlive cur hs =>
      have := hB.le_nextOf cur
      simp only [rank]
      omega
  | testMarked cur hs => simp [rank]
  | headHash cur => simp [rank]
  | headCas cur v hcas => simp [rank]
  | headCasFails cur v hcas => simp [rank]
  | append x cur mid => cases mid <;> simp [rank, Mem.nextOf, Mem.gcAppend]
  | clock x oldTail cur mid => cases mid <;> simp [rank]
  | stamp x oldTail cur mid ts => cases mid <;> simp [rank, Mem.nextOf, Mem.setTimestamp]
  | gcLinkHead x oldTail cur => simp [rank]
  | gcLinkMid x oldTail cur => cases oldTail <;> simp [rank, Mem.nextOf, Mem.gcLink]
  | reloadNull cur hh => simp [rank]
  | reload cur cur' hh =>
      obtain ⟨x, hx, hlt⟩ := hp
      obtain rfl : cur' = x := Option.some.inj (hh.symm.trans hx)
      have hle : cur' ≤ l := hah'
      simp only [rank]
      omega
  | mark => exact absurd rfl hne
  | nextNull cur hcl hh => simp [rank]
  | next cur next hcl hh =>
      have hn : s.mem.nextOf cur = next := by simp [Mem.nextOf, hh]
      simp [rank, hn]
  | curAlive cur next hs => simp [rank]
  | curMarked cur next hs =>
      have := hah.1.1.1
      have := hah.2
      have := hB.le_nextOf next
      simp only [rank]
      omega
  | nextAlive cur next hs =>
      have := hah.1.1.1
      have := hah.2
      have := hB.le_nextOf next
      simp only [rank]
      omega
  | nextMarked cur next hs => simp [rank]
  | waitNull cur next hh => simp [Walk.waits, hh] at hwait
  | waitHash cur next v hh => simp [rank]
  | waitTail cur next hh => simp [Walk.waits] at hwait
  | waitAgain cur next hh => simp [Walk.waits] at hwait
  | midHash cur next => simp [rank]
  | midCas cur next v hcas =>
      obtain ⟨_, hlt, _, b, rfl, hs, hle⟩ := hah
      have hn : (s.mem.unlinkNext cur next (some b)).nextOf cur = b := by
        simp [Mem.nextOf, Mem.unlinkNext]
      have := hs.1
      simp only [rank, hn]
      omega
  | midCasFails cur next v hcas =>
      -- the link has moved on since it was loaded
      obtain ⟨⟨_, b, hb, hle⟩, hlt, _⟩ := hah
      have hn : s.mem.nextOf cur = b := by simp [Mem.nextOf, hb]
      have hne' : next ≠ b := by
        rintro rfl
        exact hcas hb
      simp only [rank, hn]
      omega

/-! ## The lock is found -/

section Run

variable [DecidableEq τ]

lemma linked_of_run (hs : (cellList τ).Run NoMissingLink s) : Linked s := by
  refine Machine.Run.invariant (I := Linked) ?_ ?_ s hs
  · rintro s rfl
    exact ⟨fun _ => Or.inl rfl, fun t l w h => by simp [State.start] at h⟩
  · intro s a s' hr h hok hstep
    exact h.move (base_of_run hr) hok (move_of_step hstep)

/-- The step of a walk that goes on, seen from outside. -/
lemma rank_move (hB : Base s) (hL : Linked s) {a : Act τ} (hm : Move s u a s') {l : ℕ}
    {w w' : Walk} (hpc : s.pc t = .dequeue l w) (hpc' : s'.pc t = .dequeue l w') :
    rank s'.mem l w' ≤ rank s.mem l w ∧
      (a = .go t → w.waits s.mem = false → rank s'.mem l w' < rank s.mem l w) := by
  have hord : ∀ {v : State τ}, Base v → ∀ a b, v.mem.hash a = some b → a < b :=
    fun hv a b hab => (hv.order a b hab).1.1
  have hB' := hB.move hm
  by_cases htu : t = u
  · subst htu
    cases hm with
    | insert hidle => simp [hidle] at hpc
    | dequeue l hidle hl => simp [hidle] at hpc
    | link hlink => simp [hlink] at hpc
    | @walk l' v v' mem hdeq hw hne =>
        rw [hpc] at hdeq
        simp only [Function.update_self] at hpc'
        cases hdeq
        cases hpc'
        refine ⟨?_, fun _ hwait => rank_step hB hL hpc hw hne hwait⟩
        by_cases hwait : w.waits s.mem = true
        · cases hw <;> simp_all [Walk.waits, rank]
        · exact (rank_step hB hL hpc hw hne (by simpa using hwait)).le
    | mark hnext => simp at hpc'
  · have hother : ∀ {b : Act τ}, Move s u b s' → b ≠ .go t := by
      intro b hb
      cases hb <;> simp [Ne.symm htu]
    refine ⟨?_, fun ha => absurd ha (hother hm)⟩
    have hsame : w' = w ∧ Later s.mem s'.mem := by
      cases hm with
      | insert hidle =>
          simp only [Function.update_of_ne htu, hpc, Pc.dequeue.injEq, true_and] at hpc'
          exact ⟨hpc'.symm, fun _ h => h, fun _ b h => ⟨b, h, le_rfl⟩⟩
      | dequeue l hidle hl =>
          simp only [Function.update_of_ne htu, hpc, Pc.dequeue.injEq, true_and] at hpc'
          exact ⟨hpc'.symm, Later.refl _⟩
      | @link l' oldTail hlink =>
          simp only [Function.update_of_ne htu, hpc, Pc.dequeue.injEq, true_and] at hpc'
          refine ⟨hpc'.symm, hB.later_link hlink⟩
      | @walk l' v v' mem hdeq hw hne =>
          simp only [Function.update_of_ne htu, hpc, Pc.dequeue.injEq, true_and] at hpc'
          exact ⟨hpc'.symm, hw.later (hB.walks u l' v hdeq).2 hne⟩
      | @mark l' hnext =>
          simp only [Function.update_of_ne htu, hpc, Pc.dequeue.injEq, true_and] at hpc'
          exact ⟨hpc'.symm, later_mark _ _⟩
    rw [hsame.1]
    exact rank_later hsame.2 (hord hB')

/-- **Every dequeue finds its lock**, in every run in which no walk loads a link that an insert is
about to store: no walk fails, the head does not become null again, and from where a walk stands
there is a way to its lock.  The way does not get longer, and each step of the walk that does not
wait for a missing link makes it shorter. -/
theorem dequeue_finds_lock :
    (∀ s, (cellList τ).Run NoMissingLink s → FindsLocks s) ∧
    ∀ s a s', (cellList τ).Run NoMissingLink s → NoMissingLink s a →
      (cellList τ).step s a = some s' → ∀ t l w w', s.pc t = .dequeue l w →
      s'.pc t = .dequeue l w' →
      rank s'.mem l w' ≤ rank s.mem l w ∧
        (a = .go t → w.waits s.mem = false → rank s'.mem l w' < rank s.mem l w) := by
  refine ⟨fun s hs => ?_, fun s a s' hs _ hstep t l w w' hpc hpc' => ?_⟩
  · have hB := base_of_run hs
    have hL := linked_of_run hs
    refine ⟨fun t l hpc => hL.passed t l _ hpc, fun hpos hno hnone => ?_,
      fun t l w cur hpc hcur => ?_, fun t l cur next hpc hnone => ?_⟩
    · rcases hL.head hnone with h0 | ⟨t, ht⟩
      · omega
      · exact hno t none ht
    · obtain ⟨hl, halive⟩ := hB.alive hpc
      exact hB.reach ((hB.walks t l w hpc).2.cur_le hcur) hl halive
    · have hl := (hB.alive hpc).1
      have hlt := (hB.walks t l _ hpc).2.2.1
      exact hB.missing next hnone (by omega)
  · exact rank_move (base_of_run hs) (linked_of_run hs) (move_of_step hstep) hpc hpc'

end Run

/-- `n` steps of a transaction. -/
def Act.steps (t : τ) (n : ℕ) : List (Act τ) := List.replicate n (.go t)

/-- Three transactions insert a lock each, the first one marks its lock, and the third one, on the
way to its own, unlinks it. -/
theorem dequeue_finds_lock_behind_marked :
    ∃ s : State (Fin 3), (cellList (Fin 3)).Run NoMissingLink s ∧
      s.pc 2 = .dequeue 2 (.append 0 0 false) ∧ FindsLocks s := by
  obtain ⟨s, hs, hp⟩ := Machine.exists_run_of_exec (M := cellList (Fin 3)) NoMissingLink
    (s := State.start) rfl
    (List.flatten [[.insert 0, .go 0, .insert 1, .go 1, .insert 2, .go 2], .dequeue 0 0 ::
      Act.steps 0 3, .dequeue 2 2 :: Act.steps 2 4])
    (fun s => s.pc 2 = .dequeue 2 (.append 0 0 false)) (by decide +kernel)
  exact ⟨s, hs, of_decide_eq_true hp, dequeue_finds_lock.1 s hs⟩

/-- **A dequeue need not find its lock.**  Transaction `0` holds lock `0`; transaction `1` has
swapped lock `1` into the tail and has not linked it; transaction `2` has inserted lock `2` and
dequeues it: the link of lock `0` is null, and `ut_a(next_lock)` fails. -/
theorem dequeue_fails :
    ∃ s : State (Fin 3), (cellList (Fin 3)).Reachable s ∧ s.pc 2 = .dequeue 2 .failed ∧
      ¬ FindsLocks s := by
  obtain ⟨s, hs, hp⟩ := Machine.exists_reachable_of_exec (M := cellList (Fin 3))
    (s := State.start) rfl
    (List.flatten [[.insert 0, .go 0, .insert 1, .insert 2, .go 2], .dequeue 2 2 :: Act.steps 2 3])
    (fun s => s.pc 2 = .dequeue 2 .failed) (by decide +kernel)
  have hpc := of_decide_eq_true hp
  exact ⟨s, hs, hpc, fun h => h.noFail 2 2 hpc⟩

end Multicore.Project4
