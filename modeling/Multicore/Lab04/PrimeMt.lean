import Mathlib.Data.Int.Interval
import Mathlib.Data.Nat.Prime.Basic
import Mathlib.Order.Interval.Set.Union
import Mathlib.Order.SuccPred.IntervalSucc
import Mathlib.Tactic
import Multicore.Lab04.Ranges
import Multicore.Lib.Int32

/-!
# Counting primes with ten workers

`lab04/prime_mt.cpp`: for each line of the input, main creates ten workers, joins them, and prints
the sum of the numbers that they have stored.  A worker writes its own entry of `thread_ret` only,
and main reads the entries after it has joined all workers, so it does not matter in which order
they run.

Other than in `Ranges`, the width of an `int` counts here: an `int` expression that overflows is
`none`, and a `long` stored in an `int` is reduced.

* `threadFunc`, `main` — the program.
* **`isPrime_iff`** — trial division up to the square root is exact.
* `bound`, `existsUnique_worker` — the sub-ranges of the workers are the gaps between growing
  bounds, so **each number belongs to one worker**.  If the range is reversed, the bounds go down
  and all sub-ranges are empty.
* **`prime_mt_counts_primes`** — the printed number is the number of primes of the range.
-/

namespace Multicore.Lab04

/-! ## Trial division -/

/-- The loop of `IsPrime` finds a divisor if there is one from `i` up to the square root. -/
lemma noDivisorFrom_iff {n i : ℤ} {fuel : ℕ} (hi : 2 ≤ i) (hfuel : n < i + fuel) :
    noDivisorFrom n fuel i = true ↔ ∀ d, i ≤ d → d * d ≤ n → ¬ d ∣ n := by
  induction fuel generalizing i with
  | zero =>
      simp only [noDivisorFrom, true_iff]
      intro d hd hdd
      have hle : d * 1 ≤ d * d := by gcongr <;> omega
      omega
  | succ fuel ih =>
      simp only [noDivisorFrom]
      split_ifs with hroot hmod
      · simp only [false_iff, not_forall, not_not]
        exact ⟨i, le_rfl, hroot, Int.dvd_of_tmod_eq_zero hmod⟩
      · rw [ih (by omega) (by push_cast at hfuel; omega)]
        constructor
        · intro h d hd hdd hdvd
          rcases eq_or_lt_of_le hd with rfl | hlt
          · exact hmod (Int.tmod_eq_zero_of_dvd hdvd)
          · exact h d hlt hdd hdvd
        · intro h d hd
          exact h d (by omega)
      · simp only [true_iff]
        intro d hd hdd
        have hle : i * i ≤ d * d := mul_self_le_mul_self (by omega) hd
        omega

/-- **`IsPrime` is exact.** -/
theorem isPrime_iff (n : ℤ) : isPrime n = true ↔ n.toNat.Prime := by
  rw [isPrime]
  split_ifs with hn
  · simp only [false_iff]
    intro hp
    have := hp.two_le
    omega
  · rw [noDivisorFrom_iff le_rfl (by omega), Nat.prime_def_le_sqrt]
    lift n to ℕ using by omega
    rw [Int.toNat_natCast]
    constructor
    · intro h
      refine ⟨by omega, fun d hd hsqrt hdvd => ?_⟩
      exact h d (by omega) (by exact_mod_cast Nat.le_sqrt.1 hsqrt) (by exact_mod_cast hdvd)
    · rintro ⟨-, h⟩ d hd hdd hdvd
      lift d to ℕ using by omega
      exact h d (by omega) (Nat.le_sqrt.2 (by exact_mod_cast hdd)) (by exact_mod_cast hdvd)

/-! ## Counting -/

/-- The number of primes from `a` on and below `b`. -/
noncomputable def primesIn (a b : ℤ) : ℕ := ((Finset.Ico a b).filter fun p => p.toNat.Prime).card

lemma primesIn_of_le {a b : ℤ} (h : b ≤ a) : primesIn a b = 0 := by
  rw [primesIn, Finset.Ico_eq_empty (not_lt.2 h), Finset.filter_empty, Finset.card_empty]

lemma primesIn_add {a b c : ℤ} (hab : a ≤ b) (hbc : b ≤ c) :
    primesIn a b + primesIn b c = primesIn a c := by
  rw [primesIn, primesIn, primesIn, ← Finset.Ico_union_Ico_eq_Ico hab hbc, Finset.filter_union,
    Finset.card_union_of_disjoint]
  exact (Finset.Ico_disjoint_Ico_consecutive a b c).mono (Finset.filter_subset _ _)
    (Finset.filter_subset _ _)

lemma primesIn_succ (a : ℤ) : primesIn a (a + 1) = if a.toNat.Prime then 1 else 0 := by
  have hone : Finset.Ico a (a + 1) = {a} := by
    ext x
    simp only [Finset.mem_Ico, Finset.mem_singleton]
    omega
  rw [primesIn, hone, Finset.filter_singleton]
  split_ifs <;> rfl

/-- Fewer than there are numbers from `2` on. -/
lemma primesIn_le (a b : ℤ) : primesIn a b ≤ (b - 2).toNat := by
  rw [← Int.card_Ico]
  refine Finset.card_le_card fun p hp => ?_
  rw [Finset.mem_filter, Finset.mem_Ico] at hp
  have := hp.2.two_le
  rw [Finset.mem_Ico]
  omega

/-- The loop of a worker counts the primes of its sub-range. -/
lemma countFrom_eq (a b : ℤ) : countFrom a (b - a).toNat = primesIn a b := by
  have hlen : ∀ (n : ℕ) (i : ℤ), countFrom i n = primesIn i (i + n) := by
    intro n
    induction n with
    | zero =>
        intro i
        rw [countFrom, primesIn_of_le (by simp), Nat.cast_zero]
    | succ n ih =>
        intro i
        have hadd := primesIn_add (show i ≤ i + 1 by omega) (show i + 1 ≤ i + 1 + n by omega)
        rw [countFrom, ih (i + 1), show i + ((n + 1 : ℕ) : ℤ) = i + 1 + n by push_cast; ring,
          ← hadd, primesIn_succ, Nat.cast_add]
        simp only [isPrime_iff, Nat.cast_ite, Nat.cast_one, Nat.cast_zero]
  rw [hlen]
  rcases le_total a b with hab | hba
  · rw [Int.toNat_of_nonneg (by omega), add_sub_cancel]
  · rw [Int.toNat_of_nonpos (by omega), primesIn_of_le hba, primesIn_of_le (by simp)]

/-! ## The sub-ranges -/

section Bounds

variable {N : ℕ} {s e : ℤ} {tid : ℕ}

/-- Where the sub-range of worker `t` begins; that of the last one ends at `bound N`. -/
def bound (N : ℕ) (s e : ℤ) (t : ℕ) : ℤ := if t = N then e + 1 else subStart N s e t

lemma bound_of_lt (h : tid < N) : bound N s e tid = subStart N s e tid := if_neg h.ne

lemma bound_succ (h : tid < N) : bound N s e (tid + 1) = subEnd N s e tid := by
  rw [bound, subEnd, subStart]
  push_cast
  exact if_congr (by omega) rfl rfl

/-- What the workers but the last get is at most the range. -/
lemma tdiv_mul_le (hN : 0 < N) (hse : s ≤ e) :
    0 ≤ (e - s).tdiv N ∧ (e - s).tdiv N * N ≤ e - s := by
  rw [Int.tdiv_eq_ediv_of_nonneg (by omega)]
  exact ⟨Int.ediv_nonneg (by omega) (by omega), Int.ediv_mul_le _ (by omega)⟩

/-- The same for a range that is reversed. -/
lemma le_tdiv_mul (hN : 0 < N) (hse : e ≤ s) :
    (e - s).tdiv N ≤ 0 ∧ e - s ≤ (e - s).tdiv N * N := by
  obtain ⟨hpos, hle⟩ := tdiv_mul_le hN hse
  have hneg : (e - s).tdiv N = -(s - e).tdiv N := by
    rw [← Int.neg_tdiv]
    congr 1
    omega
  rw [hneg, neg_mul]
  omega

/-- The bounds between the two ends of the range. -/
lemma subStart_mem (hN : 0 < N) {t : ℕ} (ht : t ≤ N) :
    (s ≤ e → s ≤ subStart N s e t ∧ subStart N s e t ≤ e) ∧
      (e ≤ s → e ≤ subStart N s e t ∧ subStart N s e t ≤ s) := by
  have htN : (t : ℤ) ≤ N := by exact_mod_cast ht
  rw [subStart]
  constructor
  · intro hse
    obtain ⟨hpos, hle⟩ := tdiv_mul_le hN hse
    have h0 : 0 ≤ (e - s).tdiv N * t := by positivity
    have h1 : (e - s).tdiv N * t ≤ (e - s).tdiv N * N := by gcongr
    omega
  · intro hse
    obtain ⟨hneg, hle⟩ := le_tdiv_mul hN hse
    have h0 : (e - s).tdiv N * t ≤ 0 := mul_nonpos_of_nonpos_of_nonneg hneg (by omega)
    have h1 : (e - s).tdiv N * N ≤ (e - s).tdiv N * t := mul_le_mul_of_nonpos_left htN hneg
    omega

/-- In a range that is not reversed the bounds go up. -/
lemma bound_le_succ (hN : 0 < N) (hse : s ≤ e) {t : ℕ} (ht : t < N) :
    bound N s e t ≤ bound N s e (t + 1) := by
  rw [bound_of_lt ht, bound]
  split_ifs with hlast
  · have := ((subStart_mem hN ht.le).1 hse).2
    omega
  · have := (tdiv_mul_le hN hse).1
    rw [subStart, subStart]
    push_cast
    linarith

/-- In a reversed range they go down: all sub-ranges are empty. -/
lemma subEnd_le_subStart (hN : 0 < N) (hes : e < s) (ht : tid < N) :
    subEnd N s e tid ≤ subStart N s e tid := by
  obtain ⟨hneg, hle⟩ := le_tdiv_mul hN hes.le
  rw [subEnd, subStart]
  split_ifs with hlast
  · -- one share less than the whole: at least one number is missing, or the shares are zero
    have hN' : (N : ℤ) = tid + 1 := by omega
    have hsplit : (e - s).tdiv N * N = (e - s).tdiv N * tid + (e - s).tdiv N := by
      nth_rewrite 2 [hN']
      ring
    rcases hneg.lt_or_eq with hlt | hzero
    · omega
    · rw [hzero, zero_mul]
      omega
  · linarith

/-- **The sub-ranges lie in the range.** -/
lemma mem_range_of_worker (hN : 0 < N) (ht : tid < N) {x : ℤ} (hstart : subStart N s e tid ≤ x)
    (hend : x < subEnd N s e tid) : s ≤ x ∧ x ≤ e := by
  rcases le_or_gt s e with hse | hes
  · have h0 := (subStart_mem hN ht.le).1 hse
    have h1 := (subStart_mem hN (Nat.succ_le_of_lt ht)).1 hse
    rw [subEnd] at hend
    split_ifs at hend
    · omega
    · rw [subStart] at h1
      push_cast at h1
      omega
  · have := subEnd_le_subStart hN hes ht
    omega

/-- **Each number of the range belongs to exactly one worker.** -/
lemma existsUnique_worker (hN : 0 < N) {x : ℤ} (hs : s ≤ x) (he : x ≤ e) :
    ∃! tid, tid < N ∧ subStart N s e tid ≤ x ∧ x < subEnd N s e tid := by
  -- the bounds are made monotone beyond `N`, where they stay
  have hmono : Monotone fun t => bound N s e (min t N) := by
    refine monotone_nat_of_le_succ fun t => ?_
    rcases Nat.lt_or_ge t N with ht | ht
    · rw [Nat.min_eq_left ht.le, Nat.min_eq_left ht]
      exact bound_le_succ hN (hs.trans he) ht
    · rw [Nat.min_eq_right ht, Nat.min_eq_right (ht.trans (Nat.le_succ t))]
  have hmem : x ∈ Set.Ico (bound N s e (min 0 N)) (bound N s e (min N N)) := by
    rw [Nat.zero_min, bound_of_lt hN, Nat.min_self, bound, if_pos rfl, subStart]
    simp only [Nat.cast_zero, mul_zero, add_zero, Set.mem_Ico]
    omega
  have hworker : ∀ t < N, x ∈ Set.Ico (bound N s e (min t N)) (bound N s e (min (t + 1) N)) ↔
      subStart N s e t ≤ x ∧ x < subEnd N s e t := by
    intro t ht
    rw [Nat.min_eq_left ht.le, Nat.min_eq_left (Nat.succ_le_of_lt ht), bound_of_lt ht,
      bound_succ ht, Set.mem_Ico]
  have hunion := Ico_subset_biUnion_Ico N (fun t => bound N s e (min t N)) hmem
  simp only [Set.mem_iUnion, Finset.mem_range] at hunion
  obtain ⟨t, ht, hx⟩ := hunion
  refine ⟨t, ⟨ht, (hworker t ht).1 hx⟩, ?_⟩
  rintro u ⟨hu, hxu⟩
  by_contra hne
  exact Set.disjoint_left.1 (hmono.pairwise_disjoint_on_Ico_succ hne) ((hworker u hu).2 hxu) hx

/-- What the first `n` workers count together. -/
lemma sum_primesIn (hN : 0 < N) {n : ℕ} (hn : n ≤ N) :
    ∑ t ∈ Finset.range n, primesIn (subStart N s e t) (subEnd N s e t) =
      primesIn s (if s ≤ e then bound N s e n else s) := by
  have hzero : bound N s e 0 = s := by
    rw [bound_of_lt hN, subStart]
    simp
  induction n with
  | zero =>
      rw [Finset.sum_range_zero, hzero, ite_self, primesIn_of_le le_rfl]
  | succ n ih =>
      rw [Finset.sum_range_succ, ih (by omega)]
      split_ifs with hse
      · rw [← bound_of_lt hn, ← bound_succ hn]
        refine primesIn_add ?_ (bound_le_succ hN hse hn)
        rw [bound_of_lt hn]
        exact ((subStart_mem hN (by omega)).1 hse).1
      · rw [primesIn_of_le (subEnd_le_subStart hN (not_le.1 hse) hn), add_zero]

end Bounds

/-! ## The program -/

namespace PrimeMt

/-- The value of an `int` expression; an overflow is `none`. -/
def int (z : ℤ) : Option ℤ := if IsInt z then some z else none

/-- `NUM_THREAD` -/
def numThread : ℕ := 10

/-- `ThreadFunc`: what worker `tid` stores in `thread_ret[tid]`.  As `tid` is a `long`, so are the
sums in which it occurs; `start` and `end` are `int`s again. -/
def threadFunc (rangeStart rangeEnd : ℤ) (tid : ℕ) : Option ℤ := do
  let width ← int (rangeEnd - rangeStart)
  let start := toInt (rangeStart + width.tdiv numThread * tid)
  let stop ← (if tid = numThread - 1 then int (rangeEnd + 1)
    else some (toInt (rangeStart + width.tdiv numThread * (tid + 1))))
  some (toInt (countFrom start (stop - start).toNat))

/-- The sum of the first `n` entries of `thread_ret`. -/
def collect (rangeStart rangeEnd : ℤ) : ℕ → Option ℤ
  | 0 => some 0
  | n + 1 => do
      let cntPrime ← collect rangeStart rangeEnd n
      let ret ← threadFunc rangeStart rangeEnd n
      int (cntPrime + ret)

/-- `main`: the numbers that are printed for an input.  The stop marker is `-1`. -/
def main : List ℤ → Option (List ℤ)
  | rangeStart :: rangeEnd :: input =>
      if rangeStart = -1 then some []
      else do
        let cntPrime ← collect rangeStart rangeEnd numThread
        let printed ← main input
        some (cntPrime :: printed)
  | _ => some []

variable {s e z : ℤ} {n tid : ℕ}

lemma int_of_isInt (h : IsInt z) : int z = some z := if_pos h

/-- A count fits into an `int`. -/
lemma isInt_primesIn {a b : ℤ} (hb : IsInt b) : IsInt (primesIn a b) := by
  have hle := primesIn_le a b
  obtain ⟨-, hhigh⟩ := hb
  constructor <;> omega

/-- An input line on which no `int` expression of the source overflows. -/
structure NoOverflow (s e : ℤ) : Prop where
  start : IsInt s
  stop : IsInt e
  width : IsInt (e - s)
  last : IsInt (e + 1)

/-- The bounds of the sub-ranges fit into an `int`. -/
lemma NoOverflow.isInt_subStart (h : NoOverflow s e) {t : ℕ} (ht : t ≤ numThread) :
    IsInt (subStart numThread s e t) := by
  obtain ⟨hup, hdown⟩ := subStart_mem (s := s) (e := e) (by decide : 0 < numThread) ht
  obtain ⟨hs0, hs1⟩ := h.start
  obtain ⟨he0, he1⟩ := h.stop
  rcases le_total s e with hse | hes
  · exact ⟨hs0.trans (hup hse).1, (hup hse).2.trans_lt he1⟩
  · exact ⟨he0.trans (hdown hes).1, (hdown hes).2.trans_lt hs1⟩

lemma NoOverflow.isInt_subEnd (h : NoOverflow s e) (ht : tid < numThread) :
    IsInt (subEnd numThread s e tid) := by
  have hnext := h.isInt_subStart (Nat.succ_le_of_lt ht)
  rw [subStart] at hnext
  push_cast at hnext
  rw [subEnd]
  split_ifs
  · exact h.last
  · exact hnext

/-- **A worker** stores the number of primes of its sub-range. -/
lemma NoOverflow.threadFunc_eq (h : NoOverflow s e) (ht : tid < numThread) :
    threadFunc s e tid =
      some (primesIn (subStart numThread s e tid) (subEnd numThread s e tid) : ℤ) := by
  have hstart : toInt (s + (e - s).tdiv numThread * tid) = subStart numThread s e tid :=
    toInt_of_isInt (h.isInt_subStart ht.le)
  have hstop : (if tid = numThread - 1 then int (e + 1)
      else some (toInt (s + (e - s).tdiv numThread * (tid + 1)))) =
      some (subEnd numThread s e tid) := by
    have hend := h.isInt_subEnd ht
    rw [subEnd] at hend ⊢
    split_ifs at hend ⊢
    · exact int_of_isInt hend
    · rw [toInt_of_isInt hend]
  simp only [threadFunc, int_of_isInt h.width, Option.bind_eq_bind, Option.bind_some, hstart, hstop,
    countFrom_eq, toInt_of_isInt (isInt_primesIn (h.isInt_subEnd ht))]

lemma collect_succ {cntPrime ret : ℤ} (hcnt : collect s e n = some cntPrime)
    (hret : threadFunc s e n = some ret) (hint : IsInt (cntPrime + ret)) :
    collect s e (n + 1) = some (cntPrime + ret) := by
  simp only [collect, hcnt, hret, Option.bind_eq_bind, Option.bind_some, int_of_isInt hint]

/-- **The sum** of the entries is the number of primes up to the bound reached. -/
lemma NoOverflow.collect_eq (h : NoOverflow s e) (hn : n ≤ numThread) :
    collect s e n = some (primesIn s (if s ≤ e then bound numThread s e n else s) : ℤ) := by
  have hN : 0 < numThread := by decide
  induction n with
  | zero =>
      have hsum := sum_primesIn (s := s) (e := e) hN (Nat.zero_le _)
      rw [Finset.sum_range_zero] at hsum
      rw [collect, ← hsum, Nat.cast_zero]
  | succ n ih =>
      have hsum := sum_primesIn (s := s) (e := e) hN hn
      have hint : IsInt (if s ≤ e then bound numThread s e (n + 1) else s) := by
        split_ifs
        · rw [bound_succ hn]
          exact h.isInt_subEnd hn
        · exact h.start
      rw [Finset.sum_range_succ, sum_primesIn hN (by omega)] at hsum
      rw [← hsum, Nat.cast_add]
      refine collect_succ (ih (by omega)) (h.threadFunc_eq hn) ?_
      rw [← Nat.cast_add, hsum]
      exact isInt_primesIn hint

/-- All workers together count the primes of the range. -/
lemma NoOverflow.collect_numThread (h : NoOverflow s e) :
    collect s e numThread = some (primesIn s (e + 1) : ℤ) := by
  rw [h.collect_eq le_rfl, bound, if_pos rfl]
  split_ifs with hse
  · rfl
  · rw [primesIn_of_le le_rfl, primesIn_of_le (by omega)]

/-- **The printed number is the number of primes of the range.**  On a line of the input that is
not the stop marker and does not overflow, main prints the number of primes `p` with
`rangeStart ≤ p ≤ rangeEnd`, whatever the rest of the input is.  Each number of the range belongs to
the sub-range of exactly one worker, no other number belongs to one, and the test for primes is
exact. -/
theorem prime_mt_counts_primes (rangeStart rangeEnd : ℤ) (hstop : rangeStart ≠ -1)
    (h : NoOverflow rangeStart rangeEnd) (input : List ℤ) :
    main (rangeStart :: rangeEnd :: input) = (main input).map
        ((((Finset.Icc rangeStart rangeEnd).filter fun p => p.toNat.Prime).card : ℤ) :: ·) ∧
      (∀ x, rangeStart ≤ x → x ≤ rangeEnd → ∃! tid, tid < numThread ∧
        subStart numThread rangeStart rangeEnd tid ≤ x ∧
        x < subEnd numThread rangeStart rangeEnd tid) ∧
      (∀ tid < numThread, ∀ x, subStart numThread rangeStart rangeEnd tid ≤ x →
        x < subEnd numThread rangeStart rangeEnd tid → rangeStart ≤ x ∧ x ≤ rangeEnd) ∧
      ∀ n, isPrime n = true ↔ n.toNat.Prime := by
  have hN : 0 < numThread := by decide
  have hicc : Finset.Ico rangeStart (rangeEnd + 1) = Finset.Icc rangeStart rangeEnd := by
    ext x
    simp only [Finset.mem_Ico, Finset.mem_Icc]
    omega
  refine ⟨?_, fun x hs he => existsUnique_worker hN hs he,
    fun tid ht x hs he => mem_range_of_worker hN ht hs he, isPrime_iff⟩
  rw [main, if_neg hstop, h.collect_numThread, primesIn, hicc]
  cases main input <;> rfl

/-- From `-5` to `11`, and from `11` back to `-5`. -/
theorem prime_mt_counts_primes_eleven :
    main [-5, 11, 11, -5, -1] =
      some [(((Finset.Icc (-5) 11).filter fun p : ℤ => p.toNat.Prime).card : ℤ),
        (((Finset.Icc 11 (-5)).filter fun p : ℤ => p.toNat.Prime).card : ℤ)] := by
  have hup := (prime_mt_counts_primes (-5) 11 (by decide) (by constructor <;> decide)
    [11, -5, -1]).1
  have hdown := (prime_mt_counts_primes 11 (-5) (by decide) (by constructor <;> decide) [-1]).1
  rw [hup, hdown]
  rfl

example : main [-5, 11, 11, -5, -1] = some [5, 0] := by decide +kernel

end PrimeMt

end Multicore.Lab04
