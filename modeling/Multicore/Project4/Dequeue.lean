import Mathlib.Data.List.TakeWhile
import Multicore.Project4.CollectPass

/-!
# Inserts and dequeues one at a time

What `project4_lock_rec_insert_to_tail` and `project4_lock_rec_dequeue_from_page` do if no two
operations overlap: a new lock goes to the end of the chain of its cell, and a dequeue walks from
the head to its lock, takes all marked locks on the way out of the chain, and marks its own.

The dequeue is the walk of `Locks`, run alone to its end.  Between the operations the clock
`trx_sys->timestamp` may be set, and the collector may pass over the garbage list.

* `IsCell`, `IsGcList` — the chain of a cell and the garbage list, read off the memory.
* `headRound`, `midRound`, `skipRound` — the rounds of the two loops of the walk.
* `Cleaned` — what the rounds do besides changing the chain; it composes (`Cleaned.trans`).
* **`dequeue_spec`** — a dequeue filters what stands before its lock.
* `Tidy` — the invariant of a sequence of operations: **chains do not overlap, their locks are on no
  list and have never been on one**, and the live ones stand in the order of their insertion.
* **`dequeue_after_any_history`** — both together.
-/

namespace Multicore.Project4

open Relation StateTransition

variable {ι : Type*} [DecidableEq ι]

/-! ## The operations -/

/-- `project4_lock_rec_insert_to_tail` of a new lock, run alone. -/
def Mem.insertToTail (m : Mem ι) (i : ι) (trxTimestamp : ℕ) : Mem ι :=
  (m.insertTas i trxTimestamp).insertLink i m.fresh (m.tail i)

/-- `project4_lock_rec_dequeue_from_page` of the lock `l` of cell `i`, run alone. -/
def dequeuer (i : ι) (l : ℕ) (s : Mem ι × Walk) : Option (Mem ι × Walk) := walkStep i l s.1 s.2

/-- The chain of cell `i` is `c`. -/
structure IsCell (m : Mem ι) (i : ι) (c : List ℕ) : Prop where
  seg : Segment m.hash (m.head i) c none
  tail : m.tail i = c.getLast?

/-- The operations; `insert` names the lock that is inserted. -/
inductive Op (ι : Type*)
  | insert (i : ι) (l : ℕ) (trxTimestamp : ℕ)
  | dequeue (i : ι) (l : ℕ)
  | collect (min : ℕ)
  | clock (ts : ℕ)

/-- What an operation does.  Live locks of the cell can be dequeued. -/
inductive Effect (m : Mem ι) : Op ι → Mem ι → Prop
  | insert (i : ι) (ts : ℕ) : Effect m (.insert i m.fresh ts) (m.insertToTail i ts)
  | dequeue (i : ι) (l : ℕ) (c : List ℕ) (m' : Mem ι) (hc : IsCell m i c) (hl : l ∈ c)
      (hlive : m.state l = true) (h : (m', Walk.done) ∈ eval (dequeuer i l) (m, .start)) :
      Effect m (.dequeue i l) m'
  | collect (min : ℕ) (m' : Mem ι) (h : (m', Gc.done) ∈ eval (collector min) (m, .tail)) :
      Effect m (.collect min) m'
  | clock (ts : ℕ) : Effect m (.clock ts) { m with sysTimestamp := ts }

/-- The memory after a sequence of operations. -/
inductive After : List (Op ι) → Mem ι → Prop
  | nil : After [] Mem.start
  | snoc {ops : List (Op ι)} {op : Op ι} {m m' : Mem ι} (h : After ops m) (hop : Effect m op m') :
      After (ops ++ [op]) m'

/-- The locks that have been inserted into cell `i`, in this order. -/
def inserted (ops : List (Op ι)) (i : ι) : List ℕ :=
  ops.filterMap fun
    | .insert j l _ => if j = i then some l else none
    | _ => none

variable {i j : ι} {l x y cur next : ℕ} {m m' m₁ : Mem ι} {g dead pre rest post : List ℕ}

/-! ## Appending to the garbage list -/

namespace Mem

/-- The lock `x` is appended to the garbage list. -/
def retire (m : Mem ι) (x : ℕ) : Mem ι :=
  { m with
    gcHead := match m.gcTail with
      | none => some x
      | some _ => m.gcHead
    gcHash := match m.gcTail with
      | none => m.gcHash
      | some t => Function.update m.gcHash t (some x)
    gcTail := some x
    timestamp := Function.update m.timestamp x m.sysTimestamp
    appended := m.appended ++ [x] }

omit [DecidableEq ι] in
/-- The four steps of the source. -/
lemma retire_eq (m : Mem ι) (x : ℕ) :
    ((m.gcAppend x).setTimestamp x m.sysTimestamp).gcLink x m.gcTail = m.retire x := by
  cases h : m.gcTail <;> simp [retire, h, Mem.gcLink, setTimestamp, gcAppend]

/-- The two steps of an insert. -/
lemma insertToTail_eq (m : Mem ι) (i : ι) (trxTimestamp : ℕ) : m.insertToTail i trxTimestamp =
    { m with
      head := match m.tail i with
        | none => Function.update m.head i (some m.fresh)
        | some _ => m.head
      hash := match m.tail i with
        | none => m.hash
        | some t => Function.update m.hash t (some m.fresh)
      tail := Function.update m.tail i (some m.fresh)
      timestamp := Function.update m.timestamp m.fresh trxTimestamp
      fresh := m.fresh + 1 } := by
  cases h : m.tail i <;> simp [insertToTail, h, insertLink, insertTas]

end Mem

/-- The lock can be appended to the garbage list `g`. -/
structure Unlisted (m : Mem ι) (g : List ℕ) (x : ℕ) : Prop where
  notMem : x ∉ g
  gcHash : m.gcHash x = none
  live : m.freed x = false

omit [DecidableEq ι] in
/-- Only the link of the last lock of the list changes. -/
lemma IsGcList.gcHash_retire (h : IsGcList m g) (hy : y ∉ g) :
    (m.retire x).gcHash y = m.gcHash y := by
  cases htail : m.gcTail with
  | none => simp [Mem.retire, htail]
  | some t =>
      have hyt : y ≠ t := by
        rintro rfl
        exact hy (List.mem_of_getLast? (h.tail.symm.trans htail))
      simp [Mem.retire, htail, hyt]

omit [DecidableEq ι] in
/-- **An append.** -/
lemma IsGcList.retire (h : IsGcList m g) (hx : Unlisted m g x) :
    IsGcList (m.retire x) (g ++ [x]) where
  seg := by
    rcases List.eq_nil_or_concat' g with rfl | ⟨g, t, rfl⟩
    · have htail : m.gcTail = none := h.tail
      simp [Mem.retire, htail, hx.gcHash]
    · have htail : m.gcTail = some t := by rw [h.tail, List.getLast?_concat]
      have hxt : x ≠ t := by
        rintro rfl
        exact hx.notMem (by simp)
      simp only [Mem.retire, htail]
      exact h.seg.concat hx.gcHash hxt
  tail := List.getLast?_concat.symm
  live z hz := by
    rcases List.mem_append.1 hz with hz | hz
    · exact h.live z hz
    · exact List.mem_singleton.1 hz ▸ hx.live

/-! ## What the walk does besides changing the chain -/

/-- The locks `dead` have been unlinked from cell `i` and appended to the garbage list `g`. -/
structure Cleaned (i : ι) (m : Mem ι) (g dead : List ℕ) (m' : Mem ι) : Prop where
  gclist : IsGcList m' (g ++ dead)
  gcHash : ∀ x ∉ g ++ dead, m'.gcHash x = m.gcHash x
  timestamp : ∀ x, m'.timestamp x = if x ∈ dead then m.sysTimestamp else m.timestamp x
  appended : m'.appended = m.appended ++ dead
  unlinked : ∀ x, m'.unlinked x = true ↔ m.unlinked x = true ∨ x ∈ dead
  head : ∀ j ≠ i, m'.head j = m.head j
  tail : m'.tail = m.tail
  state : m'.state = m.state
  sysTimestamp : m'.sysTimestamp = m.sysTimestamp
  fresh : m'.fresh = m.fresh
  freed : m'.freed = m.freed

namespace Cleaned

omit [DecidableEq ι]

lemma refl (h : IsGcList m g) : Cleaned i m g [] m where
  gclist := by rwa [List.append_nil]
  gcHash _ _ := rfl
  timestamp _ := by simp
  appended := by simp
  unlinked _ := by simp
  head _ _ := rfl
  tail := rfl
  state := rfl
  sysTimestamp := rfl
  fresh := rfl
  freed := rfl

lemma trans {dead' : List ℕ} (h : Cleaned i m g dead m₁) (h' : Cleaned i m₁ (g ++ dead) dead' m') :
    Cleaned i m g (dead ++ dead') m' where
  gclist := by
    rw [← List.append_assoc]
    exact h'.gclist
  gcHash z hz := by
    rw [← List.append_assoc] at hz
    rw [h'.gcHash z hz, h.gcHash z fun hmem => hz (List.mem_append_left _ hmem)]
  timestamp z := by
    rw [h'.timestamp, h.timestamp, h.sysTimestamp]
    simp only [List.mem_append]
    split_ifs <;> tauto
  appended := by rw [h'.appended, h.appended, List.append_assoc]
  unlinked z := by rw [h'.unlinked, h.unlinked, List.mem_append, or_assoc]
  head j hj := (h'.head j hj).trans (h.head j hj)
  tail := h'.tail.trans h.tail
  state := h'.state.trans h.state
  sysTimestamp := h'.sysTimestamp.trans h.sysTimestamp
  fresh := h'.fresh.trans h.fresh
  freed := h'.freed.trans h.freed

/-- The locks that remain can still be appended. -/
lemma unlisted (h : Cleaned i m g dead m') (hy : Unlisted m g y) (hne : y ∉ dead) :
    Unlisted m' (g ++ dead) y := by
  have hmem : y ∉ g ++ dead := by
    rw [List.mem_append]
    exact fun hmem => hmem.elim hy.notMem hne
  exact ⟨hmem, (h.gcHash y hmem).trans hy.gcHash, by rw [h.freed, hy.live]⟩

/-- The first of some locks has been appended: the others can still be. -/
lemma unlisted_tail (h : Cleaned i m g [x] m') (hall : ∀ z ∈ x :: rest, Unlisted m g z)
    (hx : x ∉ rest) : ∀ z ∈ rest, Unlisted m' (g ++ [x]) z := by
  intro z hz
  refine h.unlisted (hall z (List.mem_cons_of_mem x hz)) fun hzx => hx ?_
  rwa [← List.mem_singleton.1 hzx]

/-- A lock is unlinked, by a store to some `hash` or `head`, and appended. -/
lemma retire (h : IsGcList m g) (hx : Unlisted m g x) (hash : ℕ → Option ℕ) {head : ι → Option ℕ}
    (hhead : ∀ j ≠ i, head j = m.head j) :
    Cleaned i m g [x] (Mem.retire { m with
      hash := hash, head := head, unlinked := Function.update m.unlinked x true } x) where
  gclist := IsGcList.retire ⟨h.seg, h.tail, h.live⟩ ⟨hx.notMem, hx.gcHash, hx.live⟩
  gcHash z hz := by
    refine IsGcList.gcHash_retire (g := g) ⟨h.seg, h.tail, h.live⟩ ?_
    exact fun hmem => hz (List.mem_append_left _ hmem)
  timestamp z := by simp only [Mem.retire, Function.update_apply, List.mem_singleton]
  appended := rfl
  unlinked z := by
    simp only [Mem.retire, Function.update_apply, List.mem_singleton]
    split_ifs with hzx <;> simp [hzx]
  head := hhead
  tail := rfl
  state := rfl
  sysTimestamp := rfl
  fresh := rfl
  freed := rfl

end Cleaned

/-! ## The rounds of the walk -/

/-- The steps that append a lock. -/
lemma reaches_retire (i : ι) (l x cur : ℕ) (mid : Bool) (m : Mem ι) :
    Reaches (dequeuer i l) (m, .append x cur mid)
      (m.retire x, if mid then .next cur else .reload cur) := by
  rw [← Mem.retire_eq]
  exact .head rfl (.head rfl (.head rfl (.single rfl)))

/-- The first loop: a marked lock at the head of the chain is taken off. -/
lemma headRound (hg : IsGcList m g) (hx : Unlisted m g x) (hhead : m.head i = some x)
    (hdead : m.state x = false) (hnext : m.hash x = some y) :
    ∃ m₁, Reaches (dequeuer i l) (m, .test x) (m₁, .test y) ∧ Cleaned i m g [x] m₁ ∧
      m₁.hash = m.hash ∧ m₁.head i = some y := by
  have hreload : ((m.unlinkHead i x (some y)).retire x).head i = some y :=
    Function.update_self i _ _
  have hcas : Reaches (dequeuer i l) (m, .test x)
      (m.unlinkHead i x (some y), .append x x false) := by
    refine .head (b := (m, .headHash x)) ?_ (.head (b := (m, .headCas x (some y))) ?_ (.single ?_))
    · simp [dequeuer, walkStep, hdead]
    · simp [dequeuer, walkStep, hnext]
    · simp [dequeuer, walkStep, hhead]
  refine ⟨(m.unlinkHead i x (some y)).retire x,
    (hcas.trans (reaches_retire i l x x false _)).tail ?_,
    .retire hg hx m.hash fun j hj => Function.update_of_ne hj _ _, rfl, hreload⟩
  simp [dequeuer, walkStep, hreload]

/-- The second loop: a marked lock behind `cur` is taken out.  It is not the last one, so there is
nothing to wait for. -/
lemma midRound (hg : IsGcList m g) (hx : Unlisted m g x) (hl : cur ≠ l)
    (hcur : m.state cur = true) (hnext : m.hash cur = some x) (hdead : m.state x = false)
    (hy : m.hash x = some y) :
    ∃ m₁, Reaches (dequeuer i l) (m, .next cur) (m₁, .next cur) ∧ Cleaned i m g [x] m₁ ∧
      m₁.hash = Function.update m.hash cur (some y) ∧ m₁.head = m.head := by
  have hcas : Reaches (dequeuer i l) (m, .next cur)
      (m.unlinkNext cur x (some y), .append x cur true) := by
    refine .head (b := (m, .curState cur x)) ?_ (.head (b := (m, .nextState cur x)) ?_
      (.head (b := (m, .waitHash cur x)) ?_ (.head (b := (m, .midHash cur x)) ?_
        (.head (b := (m, .midCas cur x (some y))) ?_ (.single ?_)))))
    · simp [dequeuer, walkStep, hl, hnext]
    · simp [dequeuer, walkStep, hcur]
    · simp [dequeuer, walkStep, hdead]
    · simp [dequeuer, walkStep, hy]
    · simp [dequeuer, walkStep, hy]
    · simp [dequeuer, walkStep, hnext]
  exact ⟨_, hcas.trans (reaches_retire i l x cur true _), .retire hg hx _ fun _ _ => rfl,
    rfl, rfl⟩

/-- The second loop: the walk goes on to a live lock. -/
lemma skipRound (hl : cur ≠ l) (hcur : m.state cur = true) (hnext : m.hash cur = some x)
    (hx : m.state x = true) : Reaches (dequeuer i l) (m, .next cur) (m, .next x) := by
  refine .head (b := (m, .curState cur x)) ?_ (.head (b := (m, .nextState cur x)) ?_ (.single ?_))
  · simp [dequeuer, walkStep, hl, hnext]
  · simp [dequeuer, walkStep, hcur]
  · simp [dequeuer, walkStep, hx]

/-! ## The loops of the walk -/

omit [DecidableEq ι] in
/-- Before the lock that the walk looks for, every lock has a successor. -/
lemma exists_next (h : Segment m.hash (m.hash x) (rest ++ l :: post) none) :
    ∃ y, m.hash x = some y := by
  cases rest with
  | nil => exact ⟨l, h.1⟩
  | cons y rest => exact ⟨y, h.1⟩

/-- **The first loop** takes off the marked locks with which the chain begins. -/
lemma headLoop (hseg : Segment m.hash (m.head i) (pre ++ l :: post) none) (hl : m.state l = true)
    (hg : IsGcList m g) (hpre : ∀ z ∈ pre, Unlisted m g z) (hx : m.head i = some x) :
    ∃ m₁ c tl, pre.dropWhile (fun z => !m.state z) ++ l :: post = c :: tl ∧ m.state c = true ∧
      Reaches (dequeuer i l) (m, .test x) (m₁, .next c) ∧
      Cleaned i m g (pre.takeWhile fun z => !m.state z) m₁ ∧ m₁.hash = m.hash ∧
      Segment m.hash (m₁.head i) (pre.dropWhile (fun z => !m.state z) ++ l :: post) none := by
  induction pre generalizing m g x with
  | nil =>
      obtain rfl : x = l := Option.some.inj (hx.symm.trans hseg.1)
      exact ⟨m, x, post, rfl, hl, .single (by simp [dequeuer, walkStep, hl]), .refl hg, rfl, hseg⟩
  | cons z pre ih =>
      obtain rfl : x = z := Option.some.inj (hx.symm.trans hseg.1)
      cases hz : m.state x with
      | true =>
          rw [List.dropWhile_cons_of_neg (by simp [hz]), List.takeWhile_cons_of_neg (by simp [hz])]
          exact ⟨m, x, _, rfl, hz, .single (by simp [dequeuer, walkStep, hz]), .refl hg, rfl, hseg⟩
      | false =>
          rw [List.dropWhile_cons_of_pos (by simp [hz]), List.takeWhile_cons_of_pos (by simp [hz])]
          obtain ⟨y, hy⟩ := exists_next hseg.2
          obtain ⟨m₁, hround, hclean, hhash, hhead⟩ :=
            headRound (l := l) hg (hpre x List.mem_cons_self) hx hz hy
          have hrest : Segment m₁.hash (m₁.head i) (pre ++ l :: post) none := by
            rw [hhash, hhead, ← hy]
            exact hseg.2
          have hxpre : x ∉ pre := fun hmem =>
            (List.nodup_cons.1 hseg.nodup).1 (List.mem_append_left _ hmem)
          have hih := ih hrest (by rw [hclean.state, hl]) hclean.gclist
            (hclean.unlisted_tail hpre hxpre) hhead
          rw [hclean.state, hhash] at hih
          obtain ⟨m₂, c, tl, hc, hlive, hpath, hclean', hhash', hseg'⟩ := hih
          exact ⟨m₂, c, tl, hc, hlive, hround.trans hpath, hclean.trans hclean', hhash', hseg'⟩

/-- **The second loop**, from the live lock `cur` on, takes out the marked locks before `l`. -/
lemma midLoop {done : List ℕ}
    (hseg : Segment m.hash (m.head i) (done ++ cur :: (rest ++ l :: post)) none)
    (hcur : m.state cur = true) (hl : m.state l = true) (hg : IsGcList m g)
    (hrest : ∀ z ∈ rest, Unlisted m g z) :
    ∃ m', Reaches (dequeuer i l) (m, .next cur) (m', .next l) ∧
      Cleaned i m g (rest.filter fun z => !m.state z) m' ∧
      Segment m'.hash (m'.head i) (done ++ cur :: (rest.filter m.state ++ l :: post)) none ∧
      ∀ z ∉ cur :: rest, m'.hash z = m.hash z := by
  have hne : cur ≠ l := by
    rintro rfl
    exact hseg.notMem (by simp)
  have hbehind := (segment_middle.1 hseg).2
  induction rest generalizing m g cur done with
  | nil => exact ⟨m, skipRound hne hcur hbehind.1 hl, .refl hg, hseg, fun _ _ => rfl⟩
  | cons x rest ih =>
      cases hx : m.state x with
      | true =>
          rw [List.filter_cons_of_pos hx, List.filter_cons_of_neg (by simp [hx])]
          have hseg' : Segment m.hash (m.head i)
              ((done ++ [cur]) ++ x :: (rest ++ l :: post)) none := by
            rw [List.append_assoc]
            exact hseg
          have hxl : x ≠ l := by
            rintro rfl
            exact hseg'.notMem (by simp)
          obtain ⟨m', hpath, hclean, hchain, hhash⟩ :=
            ih hseg' hx hl hg (fun z hz => hrest z (List.mem_cons_of_mem x hz)) hxl
              (segment_middle.1 hseg').2
          refine ⟨m', (skipRound hne hcur hbehind.1 hx).trans hpath, hclean, ?_,
            fun z hz => hhash z fun hmem => hz (List.mem_cons_of_mem cur hmem)⟩
          rw [List.append_assoc] at hchain
          exact hchain
      | false =>
          rw [List.filter_cons_of_pos (p := fun z => !m.state z) (by simp [hx]),
            List.filter_cons_of_neg (p := m.state) (by simp [hx])]
          obtain ⟨y, hy⟩ := exists_next hbehind.2
          obtain ⟨m₁, hround, hclean, hhash, hhead⟩ :=
            midRound (i := i) hg (hrest x List.mem_cons_self) hne hcur hbehind.1 hx hy
          have hseg' : Segment m₁.hash (m₁.head i) (done ++ cur :: (rest ++ l :: post)) none := by
            rw [hhead, hhash, ← hy]
            exact hseg.unlink
          have hxrest : x ∉ rest := fun hmem =>
            (List.nodup_cons.1 hbehind.nodup).1 (List.mem_append_left _ hmem)
          have hih := ih hseg' (by rw [hclean.state, hcur]) (by rw [hclean.state, hl])
            hclean.gclist (hclean.unlisted_tail hrest hxrest) hne (segment_middle.1 hseg').2
          rw [hclean.state] at hih
          obtain ⟨m', hpath, hclean', hchain, hhash'⟩ := hih
          refine ⟨m', hround.trans hpath, hclean.trans hclean', hchain, fun z hz => ?_⟩
          rw [hhash' z, hhash, Function.update_of_ne]
          · exact fun hzc => hz (hzc ▸ List.mem_cons_self)
          · simp only [List.mem_cons, not_or] at hz ⊢
            exact ⟨hz.1, hz.2.2⟩

/-- Both loops: the walk comes to its lock, and has taken out the marked locks before it. -/
lemma walk_to (hseg : Segment m.hash (m.head i) (pre ++ l :: post) none) (hl : m.state l = true)
    (hg : IsGcList m g) (hpre : ∀ z ∈ pre, Unlisted m g z) :
    ∃ m', Reaches (dequeuer i l) (m, .start) (m', .next l) ∧
      Cleaned i m g (pre.filter fun z => !m.state z) m' ∧
      Segment m'.hash (m'.head i) (pre.filter m.state ++ l :: post) none ∧
      ∀ z ∉ pre, m'.hash z = m.hash z := by
  obtain ⟨x, hx⟩ : ∃ x, m.head i = some x := by
    cases pre with
    | nil => exact ⟨l, hseg.1⟩
    | cons x pre => exact ⟨x, hseg.1⟩
  have hstart : Reaches (dequeuer i l) (m, .start) (m, .test x) :=
    .single (by simp [dequeuer, walkStep, hx])
  obtain ⟨m₁, c, tl, hc, hlive, hpath, hclean, hhash, hseg₁⟩ := headLoop hseg hl hg hpre hx
  have hsplit := pre.takeWhile_append_dropWhile (p := fun z => !m.state z)
  have hdead : ∀ z ∈ pre.takeWhile fun z => !m.state z, m.state z = false := by
    intro z hz
    simpa using List.mem_takeWhile_imp hz
  generalize pre.takeWhile (fun z => !m.state z) = dead at hclean hsplit hdead
  generalize pre.dropWhile (fun z => !m.state z) = rest at hc hseg₁ hsplit
  subst hsplit
  have hfilter : (dead ++ rest).filter m.state = rest.filter m.state := by
    rw [List.filter_append, List.filter_eq_nil_iff.2 fun z hz => by simp [hdead z hz],
      List.nil_append]
  have hfilter' : (dead ++ rest).filter (fun z => !m.state z) =
      dead ++ rest.filter fun z => !m.state z := by
    rw [List.filter_append, List.filter_eq_self.2 fun z hz => by simp [hdead z hz]]
  rw [hfilter, hfilter']
  cases rest with
  | nil =>
      -- all locks before `l` were marked: the first loop has come to `l`
      obtain ⟨rfl, rfl⟩ := List.cons.inj hc
      refine ⟨m₁, hstart.trans hpath, by simpa using hclean, ?_, fun z _ => by rw [hhash]⟩
      rw [hhash]
      exact hseg₁
  | cons cur rest =>
      obtain ⟨rfl, rfl⟩ := List.cons.inj hc
      have hnodup := (List.nodup_append'.1 hseg.nodup).1
      have hrest : ∀ z ∈ rest, Unlisted m₁ (g ++ dead) z := by
        intro z hz
        have hz' : z ∈ cur :: rest := List.mem_cons_of_mem cur hz
        refine hclean.unlisted (hpre z (List.mem_append_right _ hz')) fun hzd => ?_
        exact (List.nodup_append'.1 hnodup).2.2 hzd hz'
      have hseg₂ : Segment m₁.hash (m₁.head i) ([] ++ cur :: (rest ++ l :: post)) none := by
        rw [hhash]
        exact hseg₁
      have hmid := midLoop hseg₂ (by rw [hclean.state, hlive]) (by rw [hclean.state, hl])
        hclean.gclist hrest
      rw [hclean.state, hhash] at hmid
      obtain ⟨m', hpath', hclean', hseg', hhash'⟩ := hmid
      refine ⟨m', hstart.trans (hpath.trans hpath'), hclean.trans ?_, ?_, fun z hz => ?_⟩
      · rwa [List.filter_cons_of_neg (by simp [hlive])]
      · rwa [List.filter_cons_of_pos hlive]
      · exact hhash' z fun hmem => hz (List.mem_append_right _ hmem)

/-- What a dequeue of the lock `l` does, where `pre` and `post` stand before and behind it in its
cell, and `g` is the garbage list. -/
structure Dequeued (i : ι) (l : ℕ) (m : Mem ι) (pre post g : List ℕ) (m' : Mem ι) : Prop where
  cell : IsCell m' i (pre.filter m.state ++ l :: post)
  gclist : IsGcList m' (g ++ pre.filter fun x => !m.state x)
  timestamp : ∀ x, m'.timestamp x =
    if x ∈ pre.filter fun x => !m.state x then m.sysTimestamp else m.timestamp x
  state : m'.state = Function.update m.state l false
  hash : ∀ x ∉ pre, m'.hash x = m.hash x
  head : ∀ j ≠ i, m'.head j = m.head j
  tail : m'.tail = m.tail
  gcHash : ∀ x ∉ g ++ pre.filter fun x => !m.state x, m'.gcHash x = m.gcHash x
  appended : m'.appended = m.appended ++ pre.filter fun x => !m.state x
  unlinked : ∀ x, m'.unlinked x = true ↔
    m.unlinked x = true ∨ x ∈ pre.filter fun x => !m.state x
  sysTimestamp : m'.sysTimestamp = m.sysTimestamp
  fresh : m'.fresh = m.fresh
  freed : m'.freed = m.freed

/-- **A dequeue** comes to its end, and filters what stands before its lock. -/
theorem dequeue_spec (hc : IsCell m i (pre ++ l :: post)) (hl : m.state l = true)
    (hg : IsGcList m g) (hpre : ∀ z ∈ pre, Unlisted m g z) :
    ∃ m', (m', Walk.done) ∈ eval (dequeuer i l) (m, .start) ∧ Dequeued i l m pre post g m' := by
  obtain ⟨m₁, hpath, hclean, hseg, hhash⟩ := walk_to hc.seg hl hg hpre
  have hmark : dequeuer i l (m₁, .next l) = some (m₁.mark l, .done) := by
    simp [dequeuer, walkStep]
  refine ⟨m₁.mark l, mem_eval.2 ⟨hpath.tail hmark, rfl⟩, ⟨hseg, ?_⟩, ?_, hclean.timestamp, ?_,
    hhash, hclean.head, hclean.tail, hclean.gcHash, hclean.appended, hclean.unlinked,
    hclean.sysTimestamp, hclean.fresh, hclean.freed⟩
  · show m₁.tail i = _
    rw [hclean.tail, hc.tail, List.getLast?_append_cons, List.getLast?_append_cons]
  · exact ⟨hclean.gclist.seg, hclean.gclist.tail, hclean.gclist.live⟩
  · show Function.update m₁.state l false = _
    rw [hclean.state]

/-! ## Sequences of operations -/

/-- What a sequence of operations keeps: `chain` are the chains of the cells, `g` is the garbage
list. -/
structure Tidy (ops : List (Op ι)) (m : Mem ι) (chain : ι → List ℕ) (g : List ℕ) : Prop where
  cell : ∀ i, IsCell m i (chain i)
  gclist : IsGcList m g
  order : ∀ i, (chain i).filter m.state = (inserted ops i).filter m.state
  disjoint : ∀ i j x, x ∈ chain i → x ∈ chain j → i = j
  chain_lt : ∀ i, ∀ x ∈ chain i, x < m.fresh
  chain_appended : ∀ i, ∀ x ∈ chain i, x ∉ m.appended
  nodup : m.appended.Nodup
  appended_lt : ∀ x ∈ m.appended, x < m.fresh
  listed : ∀ x ∈ g, x ∈ m.appended
  unlinked : ∀ x, m.unlinked x = true ↔ x ∈ m.appended
  freed : ∀ x, m.freed x = true → x ∈ m.appended
  gcHash : ∀ x ∉ m.appended, m.gcHash x = none
  unused : ∀ x, m.fresh ≤ x → m.hash x = none

lemma inserted_append (ops : List (Op ι)) (op : Op ι) (i : ι) :
    inserted (ops ++ [op]) i = inserted ops i ++ inserted [op] i := List.filterMap_append

/-- An operation that inserts nothing. -/
lemma inserted_snoc {ops : List (Op ι)} {op : Op ι} (h : inserted [op] i = []) :
    inserted (ops ++ [op]) i = inserted ops i := by
  rw [inserted_append, h, List.append_nil]

namespace Tidy

variable {ops : List (Op ι)} {chain : ι → List ℕ}

lemma start : Tidy [] (Mem.start : Mem ι) (fun _ => []) [] where
  cell _ := ⟨rfl, rfl⟩
  gclist := ⟨rfl, rfl, by simp⟩
  order _ := rfl
  disjoint := by simp
  chain_lt := by simp
  chain_appended := by simp
  nodup := List.nodup_nil
  appended_lt x hx := absurd hx List.not_mem_nil
  listed := by simp
  unlinked x := by simp [Mem.start]
  freed x hx := absurd hx (by simp [Mem.start])
  gcHash _ _ := rfl
  unused _ _ := rfl

/-- Locks in a chain can be appended to the garbage list. -/
lemma unlisted (h : Tidy ops m chain g) (hx : x ∈ chain i) : Unlisted m g x := by
  have hnot := h.chain_appended i x hx
  refine ⟨fun hmem => hnot (h.listed x hmem), h.gcHash x hnot, ?_⟩
  cases hfreed : m.freed x with
  | false => rfl
  | true => exact absurd (h.freed x hfreed) hnot

/-- The chain of the cell into which a lock is inserted. -/
lemma isCell_insertToTail (h : Tidy ops m chain g) (i : ι) (ts : ℕ) :
    IsCell (m.insertToTail i ts) i (chain i ++ [m.fresh]) := by
  rw [Mem.insertToTail_eq]
  refine ⟨?_, (Function.update_self i _ _).trans List.getLast?_concat.symm⟩
  have hseg := (h.cell i).seg
  have htail := (h.cell i).tail
  have hfresh : m.hash m.fresh = none := h.unused m.fresh le_rfl
  rcases List.eq_nil_or_concat' (chain i) with hnil | ⟨c, t, hc⟩
  · rw [hnil, List.getLast?_nil] at htail
    simp [hnil, htail, hfresh]
  · rw [hc] at hseg htail ⊢
    rw [List.getLast?_concat] at htail
    have htf : m.fresh ≠ t := (h.chain_lt i t (by simp [hc])).ne'
    simp only [htail]
    exact hseg.concat hfresh htf

/-- The chain of another cell. -/
lemma isCell_insertToTail_of_ne (h : Tidy ops m chain g) (ts : ℕ) (hji : j ≠ i) :
    IsCell (m.insertToTail i ts) j (chain j) := by
  have hcell := h.cell j
  rw [Mem.insertToTail_eq]
  refine ⟨?_, (Function.update_of_ne hji _ _).trans hcell.tail⟩
  cases htail : m.tail i with
  | none =>
      show Segment m.hash (Function.update m.head i _ j) _ _
      rw [Function.update_of_ne hji]
      exact hcell.seg
  | some t =>
      refine hcell.seg.congr fun z hz => Function.update_of_ne ?_ _ _
      rintro rfl
      have hz' : z ∈ chain i := List.mem_of_getLast? ((h.cell i).tail.symm.trans htail)
      exact hji (h.disjoint j i z hz hz')

/-- **An insert** puts the new lock at the end of its chain. -/
lemma insert (h : Tidy ops m chain g) (i : ι) (ts : ℕ) :
    Tidy (ops ++ [.insert i m.fresh ts]) (m.insertToTail i ts)
      (Function.update chain i (chain i ++ [m.fresh])) g := by
  have hmem : ∀ j x, x ∈ Function.update chain i (chain i ++ [m.fresh]) j →
      x ∈ chain j ∨ j = i ∧ x = m.fresh := by
    intro j x hx
    rcases eq_or_ne j i with rfl | hji
    · rw [Function.update_self, List.mem_append, List.mem_singleton] at hx
      exact hx.imp_right fun hx => ⟨rfl, hx⟩
    · rw [Function.update_of_ne hji] at hx
      exact Or.inl hx
  have hcell : ∀ j, IsCell (m.insertToTail i ts) j
      (Function.update chain i (chain i ++ [m.fresh]) j) := by
    intro j
    rcases eq_or_ne j i with rfl | hji
    · rw [Function.update_self]
      exact h.isCell_insertToTail j ts
    · rw [Function.update_of_ne hji]
      exact h.isCell_insertToTail_of_ne ts hji
  have hnew : ∀ j, m.fresh ∉ chain j := fun j hmem => (h.chain_lt j _ hmem).false
  have hnewAppended : m.fresh ∉ m.appended := fun hmem => (h.appended_lt _ hmem).false
  rw [Mem.insertToTail_eq] at hcell ⊢
  refine ⟨hcell, ⟨h.gclist.seg, h.gclist.tail, h.gclist.live⟩, fun j => ?_, fun j k x hj hk => ?_,
    fun j x hx => ?_, fun j x hx => ?_, h.nodup, fun x hx => Nat.lt_succ_of_lt (h.appended_lt x hx),
    h.listed, h.unlinked, h.freed, h.gcHash, fun x hx => ?_⟩
  · rw [inserted_append]
    rcases eq_or_ne j i with rfl | hji
    · rw [Function.update_self, List.filter_append, List.filter_append, h.order]
      simp [inserted]
    · rw [Function.update_of_ne hji, h.order]
      simp [inserted, hji.symm]
  · rcases hmem j x hj with hj' | ⟨rfl, rfl⟩
    · rcases hmem k x hk with hk' | ⟨rfl, rfl⟩
      · exact h.disjoint j k x hj' hk'
      · exact absurd hj' (hnew j)
    · rcases hmem k _ hk with hk' | ⟨rfl, -⟩
      · exact absurd hk' (hnew k)
      · rfl
  · rcases hmem j x hx with hx | ⟨-, rfl⟩
    · exact Nat.lt_succ_of_lt (h.chain_lt j x hx)
    · exact Nat.lt_succ_self _
  · rcases hmem j x hx with hx | ⟨-, rfl⟩
    · exact h.chain_appended j x hx
    · exact hnewAppended
  · have hx' : m.fresh < x := hx
    cases htail : m.tail i with
    | none => exact h.unused x hx'.le
    | some t =>
        have ht : t ∈ chain i := List.mem_of_getLast? ((h.cell i).tail.symm.trans htail)
        show Function.update m.hash t _ x = none
        rw [Function.update_of_ne ((h.chain_lt i t ht).trans hx').ne', h.unused x hx'.le]

/-- **A dequeue** filters what stands before its lock. -/
lemma dequeue (h : Tidy ops m chain g) (hc : chain i = pre ++ l :: post)
    (hd : Dequeued i l m pre post g m') :
    Tidy (ops ++ [.dequeue i l]) m' (Function.update chain i (pre.filter m.state ++ l :: post))
      (g ++ pre.filter fun x => !m.state x) := by
  have hpre : ∀ x ∈ pre.filter (fun x => !m.state x), x ∈ chain i := by
    intro x hx
    rw [hc]
    exact List.mem_append_left _ (List.mem_of_mem_filter hx)
  have hmem : ∀ j x, x ∈ Function.update chain i (pre.filter m.state ++ l :: post) j →
      x ∈ chain j ∧ x ∉ pre.filter fun x => !m.state x := by
    intro j x hx
    rcases eq_or_ne j i with rfl | hji
    · rw [Function.update_self, List.mem_append, List.mem_filter] at hx
      have hnodup := (h.cell j).seg.nodup
      rw [hc, List.nodup_append'] at hnodup
      rw [hc, List.mem_append, List.mem_filter]
      refine ⟨hx.imp_left And.left, ?_⟩
      rintro ⟨hxp, hdead⟩
      rcases hx with hx | hx
      · simp [hx.2] at hdead
      · exact hnodup.2.2 hxp hx
    · rw [Function.update_of_ne hji] at hx
      exact ⟨hx, fun hxp => hji (h.disjoint j i x hx (hpre x hxp))⟩
  -- a lock that is live afterwards was live before
  have hfilter : ∀ c : List ℕ, c.filter m'.state = (c.filter m.state).filter m'.state := by
    intro c
    rw [hd.state, List.filter_filter]
    refine List.filter_congr fun x _ => ?_
    rw [Function.update_apply]
    split_ifs <;> simp
  refine ⟨fun j => ?_, hd.gclist, fun j => ?_, fun j k x hj hk => ?_, fun j x hx => ?_,
    fun j x hx => ?_, ?_, fun x hx => ?_, fun x hx => ?_, fun x => ?_, fun x hx => ?_,
    fun x hx => ?_, fun x hx => ?_⟩
  · rcases eq_or_ne j i with rfl | hji
    · rw [Function.update_self]
      exact hd.cell
    · rw [Function.update_of_ne hji]
      have hcell := h.cell j
      refine ⟨?_, by rw [hd.tail, hcell.tail]⟩
      rw [hd.head j hji]
      refine hcell.seg.congr fun z hz => hd.hash z fun hzp => hji ?_
      exact h.disjoint j i z hz (hc ▸ List.mem_append_left _ hzp)
  · rw [inserted_snoc rfl, hfilter (inserted ops j), ← h.order, hfilter]
    rcases eq_or_ne j i with rfl | hji
    · rw [Function.update_self, hc]
      simp only [List.filter_append, List.filter_filter, Bool.and_self]
    · rw [Function.update_of_ne hji]
  · exact h.disjoint j k x (hmem j x hj).1 (hmem k x hk).1
  · rw [hd.fresh]
    exact h.chain_lt j x (hmem j x hx).1
  · rw [hd.appended, List.mem_append, not_or]
    exact ⟨h.chain_appended j x (hmem j x hx).1, (hmem j x hx).2⟩
  · rw [hd.appended, List.nodup_append']
    refine ⟨h.nodup, ?_, fun x hx hxp => h.chain_appended i x (hpre x hxp) hx⟩
    exact (List.nodup_append'.1 (hc ▸ (h.cell i).seg.nodup)).1.filter _
  · rw [hd.appended] at hx
    rw [hd.fresh]
    rcases List.mem_append.1 hx with hx | hx
    · exact h.appended_lt x hx
    · exact h.chain_lt i x (hpre x hx)
  · rw [hd.appended]
    exact List.mem_append.2 ((List.mem_append.1 hx).imp_left (h.listed x))
  · rw [hd.unlinked, hd.appended, List.mem_append, h.unlinked]
  · rw [hd.freed] at hx
    rw [hd.appended]
    exact List.mem_append_left _ (h.freed x hx)
  · rw [hd.appended, List.mem_append, not_or] at hx
    rw [hd.gcHash x, h.gcHash x hx.1]
    rw [List.mem_append, not_or]
    exact ⟨fun hmem => hx.1 (h.listed x hmem), hx.2⟩
  · rw [hd.fresh] at hx
    rw [hd.hash x, h.unused x hx]
    intro hxp
    exact absurd (h.chain_lt i x (hc ▸ List.mem_append_left _ hxp)) (not_lt.2 hx)

/-- A pass of the collector touches no chain. -/
lemma collect (h : Tidy ops m chain g) {min : ℕ} (hcol : Collected min m [] g m') :
    Tidy (ops ++ [.collect min]) m' chain
      (survivors (fun x => decide (min ≤ m.timestamp x)) g) := by
  have hsub : ∀ x ∈ survivors (fun x => decide (min ≤ m.timestamp x)) g, x ∈ g := by
    intro x hx
    rcases List.mem_append.1 hx with hx | hx
    · exact List.mem_of_mem_dropLast (List.mem_of_mem_filter hx)
    · exact List.mem_of_getLast? (Option.mem_toList.1 hx)
  have hgcHash : ∀ x ∉ m.appended, m'.gcHash x = none := by
    intro x hx
    rw [hcol.outside x fun hmem => hx (h.listed x hmem), h.gcHash x hx]
  have hfreed : ∀ x, m'.freed x = true → x ∈ m.appended := by
    intro x hx
    rcases (hcol.freed x).1 hx with hx | ⟨hx, -⟩
    · exact h.freed x hx
    · exact h.listed x (List.mem_of_mem_dropLast hx)
  have hlist : IsGcList m' _ := hcol.list
  obtain ⟨hash, state, gcHash, timestamp, head, tail, gcHead, gcTail, clock, fresh, unlinked,
    appended, freed⟩ := m'
  obtain ⟨rfl, rfl, -, rfl, rfl, rfl, -, rfl, rfl, rfl, rfl, rfl, -⟩ := Mem.mk.inj hcol.frame
  refine ⟨fun i => ⟨(h.cell i).seg, (h.cell i).tail⟩, hlist, fun i => ?_, h.disjoint, h.chain_lt,
    h.chain_appended, h.nodup, h.appended_lt, fun x hx => h.listed x (hsub x hx), h.unlinked,
    hfreed, hgcHash, h.unused⟩
  rw [inserted_snoc rfl, ← h.order]

/-- The clock is set. -/
lemma clock (h : Tidy ops m chain g) (ts : ℕ) :
    Tidy (ops ++ [.clock ts]) { m with sysTimestamp := ts } chain g := by
  refine ⟨fun i => ⟨(h.cell i).seg, (h.cell i).tail⟩,
    ⟨h.gclist.seg, h.gclist.tail, h.gclist.live⟩, fun i => ?_, h.disjoint, h.chain_lt,
    h.chain_appended, h.nodup, h.appended_lt, h.listed, h.unlinked, h.freed, h.gcHash, h.unused⟩
  rw [inserted_snoc rfl]
  exact h.order i

/-- The chain of a cell is determined. -/
lemma chain_eq (h : Tidy ops m chain g) {c : List ℕ} (hc : IsCell m i c) : chain i = c :=
  (h.cell i).seg.unique hc.seg

/-- **One operation.** -/
lemma effect (h : Tidy ops m chain g) {op : Op ι} (hop : Effect m op m') :
    ∃ chain' g', Tidy (ops ++ [op]) m' chain' g' := by
  cases hop with
  | insert i ts => exact ⟨_, g, h.insert i ts⟩
  | dequeue i l c m' hc hl hlive heval =>
      obtain ⟨pre, post, rfl⟩ := List.append_of_mem hl
      have hchain := h.chain_eq hc
      have hpre : ∀ z ∈ pre, Unlisted m g z := by
        intro z hz
        exact h.unlisted (hchain ▸ List.mem_append_left _ hz)
      obtain ⟨m₁, heval₁, hd⟩ := dequeue_spec hc hlive h.gclist hpre
      obtain rfl := congrArg Prod.fst (Part.mem_unique heval heval₁)
      exact ⟨_, _, h.dequeue hchain hd⟩
  | collect min m' heval =>
      obtain ⟨m₁, hpath, hcol⟩ := collect_spec min h.gclist
      obtain rfl := congrArg Prod.fst (Part.mem_unique heval (hpath.mem_eval rfl))
      exact ⟨chain, _, h.collect hcol⟩
  | clock ts => exact ⟨chain, g, h.clock ts⟩

/-- **Any sequence of operations.** -/
lemma of_after (h : After ops m) : ∃ chain g, Tidy ops m chain g := by
  induction h with
  | nil => exact ⟨_, _, start⟩
  | snoc _ hop ih =>
      obtain ⟨chain, g, htidy⟩ := ih
      exact htidy.effect hop

end Tidy

/-- **What one dequeue does, after any history.**  The operations run one at a time.  Then the tail
of each cell is the last lock of its chain and has not been unlinked, the live locks of the chain
are those that were inserted, in the order of insertion, and no lock has been appended to the
garbage list twice.  A dequeue of any live lock of a cell comes to its end; it takes the marked
locks that stand before the lock out of the chain and appends them to the garbage list, in the order
of the chain and with the current timestamp; it marks the lock, and changes nothing else
(`Dequeued`). -/
theorem dequeue_after_any_history {ops : List (Op ι)} {m : Mem ι} (h : After ops m) :
    (∀ i, ∃ c, IsCell m i c ∧ c.filter m.state = (inserted ops i).filter m.state ∧
      ∀ x, m.tail i = some x → m.unlinked x = false) ∧
    m.appended.Nodup ∧
    ∃ g, IsGcList m g ∧ ∀ i pre l post, IsCell m i (pre ++ l :: post) → m.state l = true →
      ∃ m', (m', Walk.done) ∈ eval (dequeuer i l) (m, .start) ∧ Dequeued i l m pre post g m' := by
  obtain ⟨chain, g, htidy⟩ := Tidy.of_after h
  refine ⟨fun i => ⟨chain i, htidy.cell i, htidy.order i, fun x hx => ?_⟩, htidy.nodup, g,
    htidy.gclist, fun i pre l post hc hlive => ?_⟩
  · have hmem : x ∈ chain i := List.mem_of_getLast? ((htidy.cell i).tail.symm.trans hx)
    rw [← Bool.not_eq_true, htidy.unlinked]
    exact htidy.chain_appended i x hmem
  · refine dequeue_spec hc hlive htidy.gclist fun z hz => htidy.unlisted (i := i) ?_
    rw [htidy.chain_eq hc]
    exact List.mem_append_left _ hz

/-- Three locks in a cell, of which the first is marked: the dequeue of the third takes it out. -/
theorem dequeue_after_three_inserts :
    ∃ m m' : Mem Unit,
      After [.insert () 0 1, .insert () 1 1, .insert () 2 1, .dequeue () 0] m ∧
      (m', Walk.done) ∈ eval (dequeuer () 2) (m, .start) ∧ IsCell m' () [1, 2] ∧
      m'.appended = [0] ∧ m'.state = Function.update m.state 2 false := by
  have hthree := ((After.nil (ι := Unit)).snoc (.insert () 1)).snoc (.insert () 1) |>.snoc
    (.insert () 1)
  have hafter := hthree.snoc (.dequeue () 0 [0, 1, 2] _ ⟨⟨rfl, rfl, rfl, rfl⟩, rfl⟩ (by decide) rfl
    (mem_eval.2 ⟨.head rfl (.head rfl (.single rfl)), rfl⟩))
  obtain ⟨-, -, g, -, hdequeue⟩ := dequeue_after_any_history hafter
  obtain ⟨m', heval, hd⟩ := hdequeue () [0, 1] 2 [] ⟨⟨rfl, rfl, rfl, rfl⟩, rfl⟩ rfl
  exact ⟨_, m', hafter, heval, hd.cell, hd.appended, hd.state⟩

end Multicore.Project4
