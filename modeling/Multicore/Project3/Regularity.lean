import Multicore.Project3.Stamps
import Multicore.Project3.WaitFree

/-!
# What a snapshot still promises

A call of `scan` need not return what the slots held at one moment.  This file states what it does
return, in every run and without any condition on the schedule.

The last collect reads the slots one after the other, and the array that is returned is what it has
read: it is never one borrowed from another thread.  So each entry has been in its slot at some
moment of the call, and the moments follow the order of the slots.  The stamps, which do not tell
one update of a slot from the next, still tell whether there was one at all, and on this question
the last two collects agree: **which threads have written** is right for the moment between them.

* `Reads` — a collect, with the moments at which it reads the slots;
* `Collects` — what is kept during a call: the collects that it remembers are such;
* **`scan_regular`** — the promise.
-/

namespace Multicore.Project3

variable {n : ℕ} {V : Type*} [Zero V] {ok : State n V → Act n V → Prop}
  {e : (snapshot n V).Trace ok}

/-! ## A collect and its moments -/

/-- A collect has read `i` slots into `copies`, slot `j` in state `time j`, all of them in the
states from `lo` on and before `hi`. -/
structure Reads (e : (snapshot n V).Trace ok) (lo hi i : ℕ) (copies : Copies n V)
    (time : Fin n → ℕ) : Prop where
  window : ∀ j : Fin n, j.val < i → lo ≤ time j ∧ time j < hi
  read : ∀ j : Fin n, j.val < i → copies j = (e.state (time j)).snaps j
  inOrder : ∀ j l : Fin n, j < l → l.val < i → time j < time l

section Reads

variable {lo hi i : ℕ} {copies : Copies n V} {time : Fin n → ℕ}

lemma reads_zero (e : (snapshot n V).Trace ok) (lo hi : ℕ) (copies : Copies n V) :
    Reads e lo hi 0 copies fun _ => 0 :=
  ⟨fun _ hj => absurd hj (Nat.not_lt_zero _), fun _ hj => absurd hj (Nat.not_lt_zero _),
    fun _ _ _ hl => absurd hl (Nat.not_lt_zero _)⟩

lemma Reads.mono (h : Reads e lo hi i copies time) {lo' hi' : ℕ} (hlo : lo' ≤ lo)
    (hhi : hi ≤ hi') : Reads e lo' hi' i copies time :=
  ⟨fun j hj => ⟨hlo.trans (h.window j hj).1, (h.window j hj).2.trans_le hhi⟩, h.read, h.inOrder⟩

/-- What has been read to the end has been read for every bound. -/
lemma Reads.all (h : Reads e lo hi i copies time) (hi' : n ≤ i) :
    Reads e lo hi n copies time :=
  ⟨fun j _ => h.window j (j.2.trans_le hi'), fun j _ => h.read j (j.2.trans_le hi'),
    fun j l hjl _ => h.inOrder j l hjl (l.2.trans_le hi')⟩

/-- **The next slot is read**, in the state in which the thread stands. -/
lemma Reads.next {i : Fin n} (h : Reads e lo hi i copies time) (hlo : lo ≤ hi) :
    Reads e lo (hi + 1) (i + 1) (Function.update copies i ((e.state hi).snaps i))
      (Function.update time i hi) := by
  have hbelow : ∀ j : Fin n, j.val < i.val + 1 → j ≠ i → j.val < i.val := by
    intro j hj hji
    have : j.val ≠ i.val := fun heq => hji (Fin.ext heq)
    omega
  refine ⟨fun j hj => ?_, fun j hj => ?_, fun j l hjl hl => ?_⟩
  · by_cases hji : j = i
    · rw [hji, Function.update_self]
      exact ⟨hlo, Nat.lt_succ_self hi⟩
    · rw [Function.update_of_ne hji]
      have := h.window j (hbelow j hj hji)
      omega
  · by_cases hji : j = i
    · rw [hji, Function.update_self, Function.update_self]
    · rw [Function.update_of_ne hji, Function.update_of_ne hji]
      exact h.read j (hbelow j hj hji)
  · have hj : j.val < i.val := lt_of_lt_of_le hjl (Nat.lt_succ_iff.1 hl)
    rw [Function.update_of_ne (ne_of_lt (show j < i from hj))]
    by_cases hli : l = i
    · rw [hli, Function.update_self]
      exact (h.window j hj).2
    · rw [Function.update_of_ne hli]
      exact h.inOrder j l hjl (hbelow l hl hli)

end Reads

/-! ## During a call -/

/-- What a thread remembers in state `k` of a call that began with action `start`.  In the loop it
has two collects, the older of which ended before the moment `mid` and the newer of which began
after it. -/
def Collects (e : (snapshot n V).Trace ok) (start k : ℕ) : Pc n V → Prop
  | .first _ i oldCopy => ∃ time, Reads e (start + 1) k i oldCopy time
  | .again _ _ oldCopy i newCopy =>
      ∃ mid old new, start < mid ∧ mid ≤ k ∧ Reads e (start + 1) mid n oldCopy old ∧
        Reads e mid k i newCopy new
  | _ => True

section Collects

variable {start k : ℕ} {t : Fin n}

/-- Time passes. -/
lemma Collects.wait {pc : Pc n V} (h : Collects e start k pc) : Collects e start (k + 1) pc := by
  cases pc with
  | first value i oldCopy =>
      obtain ⟨time, hr⟩ := h
      exact ⟨time, hr.mono le_rfl (Nat.le_succ k)⟩
  | again value moved oldCopy i newCopy =>
      obtain ⟨mid, old, new, hmid, hle, hold, hnew⟩ := h
      exact ⟨mid, old, new, hmid, hle.trans (Nat.le_succ k), hold,
        hnew.mono le_rfl (Nat.le_succ k)⟩
  | idle => trivial
  | scanned value snap => trivial
  | write newValue => trivial

/-- **A step of the thread itself.**  Where a collect is complete, this is the moment from which
the next one counts. -/
lemma Collects.own {a : Act n V} (hk : start < k)
    (hm : Move (e.state k) t a (e.state (k + 1))) (h : Collects e start k ((e.state k).pc t)) :
    Collects e start (k + 1) ((e.state (k + 1)).pc t) := by
  have hk' : start < k + 1 := hk.trans (Nat.lt_succ_self k)
  generalize e.state (k + 1) = s' at hm
  cases hm with
  | update value hpc =>
      rw [setPc_self]
      exact ⟨_, reads_zero e _ _ _⟩
  | first i hpc =>
      rw [hpc] at h
      obtain ⟨time, hr⟩ := h
      rw [setPc_self]
      exact ⟨_, hr.next hk⟩
  | turn hpc hi =>
      rw [hpc] at h
      obtain ⟨time, hr⟩ := h
      rw [setPc_self]
      exact ⟨k + 1, time, _, hk', le_rfl, (hr.all hi).mono le_rfl (Nat.le_succ k),
        reads_zero e _ _ _⟩
  | again i hpc =>
      rw [hpc] at h
      obtain ⟨mid, old, new, hmid, hle, hold, hnew⟩ := h
      rw [setPc_self]
      exact ⟨mid, old, _, hmid, hle.trans (Nat.le_succ k), hold, hnew.next hle⟩
  | @compare value moved oldCopy newCopy i hpc hi =>
      rw [hpc] at h
      obtain ⟨mid, old, new, hmid, hle, hold, hnew⟩ := h
      rw [setPc_self, compare]
      cases changed oldCopy newCopy with
      | none => trivial
      | some j =>
          simp only
          split_ifs
          · trivial
          · exact ⟨k + 1, new, _, hk', le_rfl, (hnew.all hi).mono hmid (Nat.le_succ k),
              reads_zero e _ _ _⟩
  | scanned hpc =>
      rw [setPc_self]
      trivial
  | write hpc =>
      simp only [Function.update_self]
      trivial

/-- Every step keeps what is remembered. -/
lemma Collects.step {a : Act n V} (hk : start < k) (hact : e.acts[k]? = some a)
    (h : Collects e start k ((e.state k).pc t)) :
    Collects e start (k + 1) ((e.state (k + 1)).pc t) := by
  have hm := move_of_step (e.step k a hact).2
  by_cases hta : t = a.tid
  · rw [← hta] at hm
    exact h.own hk hm
  · rw [hm.pc_of_ne hta]
    exact h.wait

variable {stop : ℕ} {result : Option (Fin n → V)}

/-- During the whole call the collects are what has been read. -/
lemma Scan.collects (h : Scan e t start stop result) :
    ∀ k, start < k → k ≤ stop → Collects e start k ((e.state k).pc t) := by
  intro k hk
  induction k, hk using Nat.le_induction with
  | base =>
      intro _
      obtain ⟨value, hcall⟩ := h.called
      have hm : Move (e.state start) t (.update t value) _ :=
        move_of_step (e.step start _ hcall).2
      generalize e.state (start + 1) = s' at hm
      cases hm with
      | update value hpc =>
          rw [setPc_self]
          exact ⟨_, reads_zero e _ _ _⟩
  | succ k hk ih =>
      intro hle
      have hlen : k < e.acts.length := by
        have := h.le
        omega
      exact (ih (Nat.le_of_succ_le hle)).step hk (List.getElem?_eq_getElem hlen)

/-- The slot of a thread in `scan` does not change: only its owner writes it. -/
lemma Scan.own_slot (h : Scan e t start stop result) :
    ∀ k, start ≤ k → k ≤ stop → (e.state k).snaps t = (e.state start).snaps t := by
  intro k hk
  induction k, hk using Nat.le_induction with
  | base => exact fun _ => rfl
  | succ k hk ih =>
      intro hle
      have hlen : k < e.acts.length := by
        have := h.le
        omega
      have hm := move_of_step (e.step k _ (List.getElem?_eq_getElem hlen)).2
      rw [← ih (Nat.le_of_succ_le hle)]
      have hrun := h.running (k + 1) (Nat.lt_succ_of_le hk) hle
      generalize e.acts[k] = a at hm
      generalize a.tid = u at hm
      generalize e.state (k + 1) = s' at hm hrun
      cases hm with
      | write hpc =>
          have hne : t ≠ u := by
            rintro rfl
            simp [Pc.inScan] at hrun
          exact Function.update_of_ne hne _ _
      | _ => rfl

end Collects

/-! ## The promise -/

/-- Stamps do not go down. -/
lemma stamp_mono (e : (snapshot n V).Trace ok) (j : Fin n) {k l : ℕ} (hkl : k ≤ l)
    (hl : l ≤ e.acts.length) : ((e.state k).snaps j).stamp ≤ ((e.state l).snaps j).stamp := by
  have hcount : completed e j k ≤ completed e j l := e.count_mono _ hkl
  rw [stamp_eq_min e j (hkl.trans hl), stamp_eq_min e j hl]
  omega

/-- **What every call of `scan` returns.**  The array is a new one, and its entries have been read
one slot after the other during the call, from the moment `mid` on.  The threads that had written
their slot by the time it was read are those that had written it at the moment `mid`; and the entry
of the calling thread is what its slot held when it called. -/
theorem scan_regular (e : (snapshot n V).Trace ok) {t : Fin n} {start stop : ℕ}
    {result : Option (Fin n → V)} (h : Scan e t start stop result) :
    ∃ (mid : ℕ) (time : Fin n → ℕ),
      result = (some fun j => ((e.state (time j)).snaps j).value) ∧
      StrictMono time ∧ start < mid ∧ (∀ j, mid ≤ time j ∧ time j < stop) ∧
      (∀ j, completed e j (time j) = 0 ↔ completed e j mid = 0) ∧
      (e.state (time t)).snaps t = (e.state start).snaps t := by
  obtain ⟨value, moved, oldCopy, i, newCopy, hpc, hi, hsame, rfl⟩ := h.last
  have hcollects := h.collects stop h.lt le_rfl
  rw [hpc] at hcollects
  obtain ⟨mid, old, new, hmid, hle, hold, hnew⟩ := hcollects
  have hnew' := hnew.all hi
  have hlen : stop ≤ e.acts.length := h.le.le
  refine ⟨mid, new, ?_, fun j l hjl => hnew'.inOrder j l hjl l.2, hmid,
    fun j => hnew'.window j j.2, fun j => ?_, ?_⟩
  · congr 1
    funext j
    rw [hnew'.read j j.2]
  · -- the stamp of slot `j` is the same at both reads, and so in between
    have hwold := hold.window j j.2
    have hwnew := hnew'.window j j.2
    have hstamp := hsame j
    rw [hold.read j j.2, hnew'.read j j.2] at hstamp
    have hlow := stamp_mono e j hwold.2.le (hle.trans hlen)
    have hhigh := stamp_mono e j hwnew.1 (hwnew.2.le.trans hlen)
    have hmid' := stamp_eq_min e j (hle.trans hlen)
    have hnew'' := stamp_eq_min e j (hwnew.2.le.trans hlen)
    omega
  · have hw := hnew'.window t t.2
    exact h.own_slot (new t) (by omega) hw.2.le

/-- Thread `1` updates while thread `0` is in its first collect, which then has to collect once
more; between the last two collects thread `1` writes for the second time. -/
theorem scan_regular_two_updates : ∃ e : (snapshot 2 ℕ).Trace fun _ _ => True,
    Scan e 0 0 27 (some ![0, 21]) ∧
    ∃ (mid : ℕ) (time : Fin 2 → ℕ),
      some ![0, 21] = (some fun j => ((e.state (time j)).snaps j).value) ∧
      StrictMono time ∧ 0 < mid ∧ (∀ j, mid ≤ time j ∧ time j < 27) ∧
      (∀ j, completed e j (time j) = 0 ↔ completed e j mid = 0) ∧
      (e.state (time 0)).snaps 0 = (e.state 0).snaps 0 := by
  let e : (snapshot 2 ℕ).Trace fun _ _ => True :=
    Machine.Trace.ofExec (M := snapshot 2 ℕ) (s := State.start 2 ℕ) rfl
      (.update 0 10 :: Act.steps 0 2 ++ .update 1 20 :: Act.steps 1 8 ++ Act.steps 0 4 ++
        .update 1 21 :: Act.steps 1 8 ++ Act.steps 0 3) (by decide +kernel)
  have hlen : e.acts.length = 28 := by decide +kernel
  have hrunning : ∀ k ≤ 27, 0 < k → ((e.state k).pc 0).inScan = true := by decide +kernel
  have hscan : Scan e 0 0 27 (some ![0, 21]) :=
    ⟨⟨10, rfl⟩, by decide, by omega, fun k hlo hhi => hrunning k hhi hlo, by decide +kernel⟩
  exact ⟨e, hscan, scan_regular e hscan⟩

end Multicore.Project3
