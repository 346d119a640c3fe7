import Multicore.Lib.Segment
import Multicore.Lib.Solo
import Multicore.Project4.Collector

/-!
# One pass of the collector

The collection loop of `lock_trx_release_locks`, as long as no other thread touches the garbage
list: it starts on a list without half-finished appends, and none comes while it runs.  What follows
is about this one pass; `Garbage` has the pass among concurrent appends.

The locks before the one that the loop looks at are kept for good; the locks from there on are as
they were.  A round takes the first of them off the list, or moves on behind it:

* `dropHeadRound`, `keepRound`, `dropMiddleRound` — the three kinds of rounds, **each a path through
  states in which no freed lock is touched**.
* `Collected` — what the rounds from some point on do to the memory.
* **`collect_pass_exact`** — the pass ends, and has filtered the list.
-/

namespace Multicore.Project4

open StateTransition

variable {ι : Type*}

/-! ## The pass -/

/-- The collector, run alone. -/
def collector (min : ℕ) (s : Mem ι × Gc) : Option (Mem ι × Gc) := gcStep min s.1 s.2

/-- The locks that the next step of the collector reads, writes or frees. -/
def Gc.touches : Gc → List ℕ
  | .headTime _ _ x => [x]
  | .headHash _ _ x => [x]
  | .headFree _ _ x => [x]
  | .time _ _ x => [x]
  | .hash _ _ x => [x]
  | .store _ prev _ _ => prev.toList
  | .free _ _ x => [x]
  | .next _ p => [p]
  | .advance _ x => [x]
  | _ => []

/-- No null pointer has been used, and the next step touches no lock that has been freed. -/
def Careful (s : Mem ι × Gc) : Prop := s.2 ≠ .failed ∧ ∀ x ∈ s.2.touches, s.1.freed x = false

/-- The garbage list is `g`: no append is half done, and none of its locks has been freed. -/
structure IsGcList (m : Mem ι) (g : List ℕ) : Prop where
  seg : Segment m.gcHash m.gcHead g none
  tail : m.gcTail = g.getLast?
  live : ∀ x ∈ g, m.freed x = false

/-- What is left of a list: the last element, and those before it that are to be kept. -/
def survivors (keep : ℕ → Bool) (g : List ℕ) : List ℕ := g.dropLast.filter keep ++ g.getLast?.toList

lemma survivors_cons (keep : ℕ → Bool) (x y : ℕ) (r : List ℕ) :
    survivors keep (x :: y :: r) =
      if keep x then x :: survivors keep (y :: r) else survivors keep (y :: r) := by
  rw [survivors, List.dropLast_cons_cons, List.filter_cons, List.getLast?_cons_cons, survivors]
  split_ifs <;> rfl

/-- What the rounds from the locks `r` on do, where `k` are the locks kept before them. -/
structure Collected (min : ℕ) (m : Mem ι) (k r : List ℕ) (m' : Mem ι) : Prop where
  list : IsGcList m' (k ++ survivors (fun x => decide (min ≤ m.timestamp x)) r)
  freed : ∀ x, m'.freed x = true ↔ m.freed x = true ∨ x ∈ r.dropLast ∧ m.timestamp x < min
  outside : ∀ x ∉ k ++ r, m'.gcHash x = m.gcHash x
  frame : m' = { m with gcHead := m'.gcHead, gcHash := m'.gcHash, freed := m'.freed }

variable {min x y p : ℕ} {m m' : Mem ι} {k r : List ℕ} {old prev v : Option ℕ}

/-! ## The rounds -/

/-- The first lock of the list is old: it is taken off. -/
lemma dropHeadRound (hx : m.freed x = false) (hold : old ≠ some x) (hhead : m.gcHead = some x)
    (hnext : m.gcHash x = v) (htime : m.timestamp x < min) :
    GoodPath (collector min) Careful (m, .loop old prev (some x))
      ((m.setGcHead (m.gcHash x)).utFree x, .loop old prev v) := by
  subst hnext
  refine .head (b := (m, .headTime old prev x)) ⟨by simp, by simp [Gc.touches]⟩ ?_ ?_
  · simp [collector, gcStep, hold, hhead]
  refine .head (b := (m, .headHash old prev x)) ⟨by simp, by simp [Gc.touches, hx]⟩ ?_ ?_
  · simp [collector, gcStep, htime]
  refine .head ⟨by simp, by simp [Gc.touches, hx]⟩ rfl ?_
  refine .head ⟨by simp, by simp [Gc.touches]⟩ rfl ?_
  refine .head ⟨by simp, by simp [Gc.touches, Mem.setGcHead, hx]⟩ rfl ?_
  exact .head ⟨by simp, by simp [Gc.touches]⟩ rfl (.refl _)

/-- The lock is not old: the loop moves on. -/
lemma keepRound (hx : m.freed x = false) (hold : old ≠ some x) (hnext : m.gcHash x = v)
    (htime : min ≤ m.timestamp x) :
    GoodPath (collector min) Careful (m, .loop old prev (some x))
      (m, .loop old (some x) v) := by
  subst hnext
  have hstay : ¬ m.timestamp x < min := not_lt.2 htime
  have hrest : GoodPath (collector min) Careful (m, .time old prev x)
      (m, .loop old (some x) (m.gcHash x)) := by
    refine .head (b := (m, .advance old x)) ⟨by simp, by simp [Gc.touches, hx]⟩ ?_ ?_
    · simp [collector, gcStep, hstay]
    exact .head ⟨by simp, by simp [Gc.touches, hx]⟩ rfl (.refl _)
  by_cases hhead : m.gcHead = some x
  · refine .head (b := (m, .headTime old prev x)) ⟨by simp, by simp [Gc.touches]⟩ ?_ ?_
    · simp [collector, gcStep, hold, hhead]
    refine .head (b := (m, .time old prev x)) ⟨by simp, by simp [Gc.touches, hx]⟩ ?_ hrest
    simp [collector, gcStep, hstay]
  · refine .head (b := (m, .time old prev x)) ⟨by simp, by simp [Gc.touches]⟩ ?_ hrest
    simp [collector, gcStep, hold, hhead]

/-- The lock behind `p` is old: it is taken off. -/
lemma dropMiddleRound (hx : m.freed x = false) (hp : m.freed p = false) (hpx : p ≠ x)
    (hold : old ≠ some x) (hhead : m.gcHead ≠ some x) (hnext : m.gcHash x = v)
    (htime : m.timestamp x < min) :
    GoodPath (collector min) Careful (m, .loop old (some p) (some x))
      ((m.setGcHash p (m.gcHash x)).utFree x, .loop old (some p) v) := by
  subst hnext
  have hlast : ((m.setGcHash p (m.gcHash x)).utFree x).gcHash p = m.gcHash x := by
    simp [Mem.setGcHash, Mem.utFree]
  refine .head (b := (m, .time old (some p) x)) ⟨by simp, by simp [Gc.touches]⟩ ?_ ?_
  · simp [collector, gcStep, hold, hhead]
  refine .head (b := (m, .hash old (some p) x)) ⟨by simp, by simp [Gc.touches, hx]⟩ ?_ ?_
  · simp [collector, gcStep, htime]
  refine .head ⟨by simp, by simp [Gc.touches, hx]⟩ rfl ?_
  refine .head ⟨by simp, by simp [Gc.touches, hp]⟩ rfl ?_
  refine .head ⟨by simp, by simp [Gc.touches, Mem.setGcHash, hx]⟩ rfl ?_
  refine .head ⟨by simp, by simp [Gc.touches, Mem.setGcHash, Mem.utFree, hpx, hp]⟩ rfl ?_
  rw [hlast]
  exact .refl _

/-! ## What a round does to the list -/

/-- The loop does not stop at a lock that has another one behind it. -/
lemma IsGcList.getLast?_ne (h : IsGcList m (k ++ x :: y :: r)) :
    (k ++ x :: y :: r).getLast? ≠ some x := by
  intro hlast
  rw [List.getLast?_append_cons, List.getLast?_cons_cons] at hlast
  exact h.seg.notMem (List.mem_append_right k (List.mem_of_getLast? hlast))

lemma IsGcList.dropHead (h : IsGcList m (x :: y :: r)) :
    IsGcList ((m.setGcHead (m.gcHash x)).utFree x) (y :: r) where
  seg := h.seg.2
  tail := h.tail.trans List.getLast?_cons_cons
  live z hz := by
    have hzx : z ≠ x := by
      rintro rfl
      exact (List.nodup_cons.1 h.seg.nodup).1 hz
    show Function.update m.freed x true z = false
    rw [Function.update_of_ne hzx, h.live z (List.mem_cons_of_mem x hz)]

lemma IsGcList.dropMiddle (h : IsGcList m (k ++ p :: x :: y :: r)) :
    IsGcList ((m.setGcHash p (m.gcHash x)).utFree x) (k ++ p :: y :: r) where
  seg := h.seg.unlink
  tail := by
    refine h.tail.trans ?_
    rw [List.getLast?_append_cons, List.getLast?_append_cons, List.getLast?_cons_cons,
      List.getLast?_cons_cons, List.getLast?_cons_cons]
  live z hz := by
    show Function.update m.freed x true z = false
    rw [Function.update_of_ne (ne_of_mem_of_not_mem hz h.seg.next_notMem)]
    refine h.live z ?_
    simp only [List.mem_append, List.mem_cons] at hz ⊢
    tauto

namespace Collected

/-- The round that keeps a lock, and what comes after it. -/
lemma keep (h : Collected min m (k ++ [x]) (y :: r) m') (htime : min ≤ m.timestamp x) :
    Collected min m k (x :: y :: r) m' where
  list := by
    have hlist := h.list
    rw [List.append_assoc] at hlist
    rw [survivors_cons, if_pos (decide_eq_true htime)]
    exact hlist
  freed z := by
    rw [h.freed, List.dropLast_cons_cons, List.mem_cons]
    refine or_congr_right (and_congr_left fun hz => ?_)
    refine ⟨Or.inr, fun hmem => hmem.resolve_left ?_⟩
    rintro rfl
    omega
  outside z hz := h.outside z (by simpa using hz)
  frame := h.frame

/-- The round that frees a lock, and what comes after it. -/
lemma drop {m₁ : Mem ι} (h : Collected min m₁ k (y :: r) m') (htime : m.timestamp x < min)
    (hout : ∀ z ∉ k ++ x :: y :: r, m₁.gcHash z = m.gcHash z)
    (hframe : m₁ = { m with
      gcHead := m₁.gcHead, gcHash := m₁.gcHash, freed := Function.update m.freed x true }) :
    Collected min m k (x :: y :: r) m' := by
  have htimes : m₁.timestamp = m.timestamp := by rw [hframe]
  have hfreed : m₁.freed = Function.update m.freed x true := by rw [hframe]
  refine ⟨?_, fun z => ?_, fun z hz => ?_, ?_⟩
  · have hlist := h.list
    rw [htimes] at hlist
    rw [survivors_cons, if_neg (by simpa using htime)]
    exact hlist
  · rw [h.freed, htimes, hfreed, List.dropLast_cons_cons, List.mem_cons]
    rcases eq_or_ne z x with rfl | hzx
    · simp [htime]
    · rw [Function.update_of_ne hzx]
      simp [hzx]
  · rw [h.outside z, hout z hz]
    simp only [List.mem_append, List.mem_cons] at hz ⊢
    tauto
  · rw [h.frame, hframe]

end Collected

/-! ## The loop -/

/-- **The loop**, from the lock `x` on: it ends, and has filtered the rest of the list. -/
lemma collect_from (min : ℕ) (h : IsGcList m (k ++ x :: r)) :
    ∃ m', GoodPath (collector min) Careful
        (m, .loop (k ++ x :: r).getLast? k.getLast? (some x)) (m', .done) ∧
      Collected min m k (x :: r) m' := by
  induction r generalizing m k x with
  | nil =>
      -- the lock that was the last one when the pass began
      refine ⟨m, .head ⟨by simp, by simp [Gc.touches]⟩ ?_ (.refl _), h, by simp, by simp, rfl⟩
      simp [collector, gcStep]
  | cons y r ih =>
      have hx : m.freed x = false := h.live x (by simp)
      have hnext : m.gcHash x = some y := (segment_middle.1 h.seg).2.1
      have hlast : (k ++ x :: y :: r).getLast? = (k ++ y :: r).getLast? := by
        rw [List.getLast?_append_cons, List.getLast?_cons_cons, List.getLast?_append_cons]
      have hold := h.getLast?_ne
      rw [hlast] at hold ⊢
      rcases le_or_gt min (m.timestamp x) with htime | htime
      · have h' : IsGcList m ((k ++ [x]) ++ y :: r) := by rwa [List.append_assoc]
        obtain ⟨m', hpath, hcol⟩ := ih h'
        rw [List.append_assoc, List.singleton_append, hlast, List.getLast?_concat] at hpath
        exact ⟨m', .trans (keepRound hx hold hnext htime) hpath, hcol.keep htime⟩
      · rcases List.eq_nil_or_concat' k with rfl | ⟨k, p, rfl⟩
        · obtain ⟨m', hpath, hcol⟩ := ih (k := []) (IsGcList.dropHead h)
          exact ⟨m', .trans (dropHeadRound hx hold h.seg.1 hnext htime) hpath,
            hcol.drop htime (fun z _ => rfl) rfl⟩
        · have hpx : p ≠ x := by
            rintro rfl
            exact h.seg.notMem (by simp)
          have hhead : m.gcHead ≠ some x := by
            intro hstart
            have hseg := h.seg
            rw [hstart] at hseg
            exact List.cons_ne_nil p [] (List.append_eq_nil_iff.1 hseg.eq_nil_of_start).2
          have h' : IsGcList ((m.setGcHash p (m.gcHash x)).utFree x) ((k ++ [p]) ++ y :: r) := by
            rw [List.append_assoc] at h ⊢
            exact h.dropMiddle
          obtain ⟨m', hpath, hcol⟩ := ih h'
          rw [List.getLast?_concat] at hpath ⊢
          have hround := dropMiddleRound hx (h.live p (by simp)) hpx hold hhead hnext htime
          refine ⟨m', hround.trans hpath,
            hcol.drop htime (fun z hz => Function.update_of_ne ?_ _ _) rfl⟩
          rintro rfl
          exact hz (by simp)

/-! ## The whole pass -/

/-- The pass, from its first step on. -/
lemma collect_spec (min : ℕ) {g : List ℕ} (h : IsGcList m g) :
    ∃ m', GoodPath (collector min) Careful (m, .tail) (m', .done) ∧ Collected min m [] g m' := by
  have hloop : ∃ m', GoodPath (collector min) Careful (m, .loop m.gcTail none m.gcHead)
      (m', .done) ∧ Collected min m [] g m' := by
    rw [h.tail]
    cases g with
    | nil =>
        rw [segment_nil.1 h.seg]
        exact ⟨m, .head ⟨by simp, by simp [Gc.touches]⟩ rfl (.refl _), h, by simp, by simp, rfl⟩
    | cons x r =>
        rw [h.seg.1]
        exact collect_from min (k := []) h
  obtain ⟨m', hpath, hcol⟩ := hloop
  exact ⟨m', .head ⟨by simp, by simp [Gc.touches]⟩ rfl
    (.head ⟨by simp, by simp [Gc.touches]⟩ rfl hpath), hcol⟩

/-- **One pass is an exact filter.**  On a garbage list `g` without half-finished appends the pass
comes to its end.  On the way it uses no null pointer and touches no lock that has been freed, so in
particular it frees no lock twice.  It frees the locks before the last one whose timestamp is below
`min_timestamp`, leaves the others in their order, and changes nothing else. -/
theorem collect_pass_exact (min : ℕ) (m : Mem ι) (g : List ℕ) (h : IsGcList m g) :
    ∃ m', (m', Gc.done) ∈ eval (collector min) (m, .tail) ∧
      (∀ s, Reaches (collector min) (m, .tail) s → Careful s) ∧
      (∀ x, m'.freed x = true ↔ m.freed x = true ∨ x ∈ g.dropLast ∧ m.timestamp x < min) ∧
      IsGcList m' (g.dropLast.filter (fun x => decide (min ≤ m.timestamp x)) ++ g.getLast?.toList) ∧
      (∀ x ∉ g, m'.gcHash x = m.gcHash x) ∧
      m' = { m with gcHead := m'.gcHead, gcHash := m'.gcHash, freed := m'.freed } := by
  obtain ⟨m', hpath, hcol⟩ := collect_spec min h
  have hdone : Careful (m', Gc.done) := ⟨by simp, by simp [Gc.touches]⟩
  exact ⟨m', hpath.mem_eval rfl, fun s => hpath.good_of_reaches hdone rfl, hcol.freed, hcol.list,
    hcol.outside, hcol.frame⟩

/-- Three locks in the garbage list, the first and the last of them old. -/
def threeGarbage : Mem Unit :=
  { Mem.start with
    gcHead := some 0
    gcTail := some 2
    gcHash := fun x => if x < 2 then some (x + 1) else none
    timestamp := fun x => if x = 1 then 5 else 1 }

/-- The first lock is freed; the last one, as old as it is, stays. -/
theorem collect_pass_exact_three :
    ∃ m', (m', Gc.done) ∈ eval (collector 3) (threeGarbage, .tail) ∧ IsGcList m' [1, 2] ∧
      m'.freed 0 = true ∧ m'.freed 1 = false ∧ m'.freed 2 = false := by
  have h : IsGcList threeGarbage [0, 1, 2] := ⟨⟨rfl, rfl, rfl, rfl⟩, rfl, fun _ _ => rfl⟩
  obtain ⟨m', hdone, -, hfreed, hlist, -⟩ := collect_pass_exact 3 threeGarbage [0, 1, 2] h
  exact ⟨m', hdone, hlist, (hfreed 0).2 (by decide), hlist.live 1 (by decide),
    hlist.live 2 (by decide)⟩

end Multicore.Project4
