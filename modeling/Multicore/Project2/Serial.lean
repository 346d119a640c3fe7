import Multicore.Project2.Transaction

/-!
# Transactions without their locks

What the engine does to the record values, seen apart from how the locks are implemented: a
thread comes to *own* a record, *saves* its value in a local, *writes* the record, and in the end
commits or puts the old values back.  The one thing asked of the locks is the guard of `acquire`:
nobody else owns the record in a conflicting way.

* `serial` — the specification: the logged transactions executed one after the other on records
  that all start at `100`, in the `int` arithmetic of the program;
* `Data.Step` — one step of a thread on the data;
* **`Data.Inv.step`** — the invariant: saved values are the serial ones, a record somebody has
  written holds the new value, every other record holds the serial one, and every line of the log
  shows the values after its own transaction.
-/

namespace Multicore.Project2

variable {N R : ℕ}

/-! ## The specification -/

/-- One transaction: `j := j + i + 1`, then `k := k - i`. -/
def serialStep (v : Fin R → Int32) (l : LogLine R) : Fin R → Int32 :=
  let v := Function.update v l.j (v l.j + v l.i + 1)
  Function.update v l.k (v l.k - v l.i)

/-- The record values after executing the logged transactions serially. -/
def serial (log : List (LogLine R)) : Fin R → Int32 := log.foldl serialStep fun _ => 100

lemma serial_append (log : List (LogLine R)) (l : LogLine R) :
    serial (log ++ [l]) = serialStep (serial log) l := by
  simp [serial]

/-- The line shows the values of its three records. -/
def LogLine.Shows (l : LogLine R) (v : Fin R → Int32) : Prop :=
  l.iValue = v l.i ∧ l.jValue = v l.j ∧ l.kValue = v l.k

/-! ## The data of an attempt -/

/-- What a thread has done with its three records, and what it has saved of them. -/
@[ext]
structure Txn (R : ℕ) where
  index : LockType → Fin R
  value : LockType → Int32
  owns : LockType → Bool
  saved : LockType → Bool
  wrote : LockType → Bool

namespace Txn

/-- The value an attempt writes. -/
def newValue (x : Txn R) : LockType → Int32
  | .R => x.value .R
  | .W1 => x.value .W1 + x.value .R + 1
  | .W2 => x.value .W2 - x.value .R

/-- The attempt is over: nothing is owned any more. -/
def done (x : Txn R) : Txn R :=
  { x with owns := fun _ => false, saved := fun _ => false, wrote := fun _ => false }

end Txn

/-- The data of the engine. -/
structure Data (N R : ℕ) where
  txn : Fin N → Txn R
  mem : Fin R → Int32
  log : List (LogLine R)

namespace Data

variable {d d' : Data N R} {t u : Fin N}

/-- Replace the attempt of one thread. -/
def set (d : Data N R) (t : Fin N) (x : Txn R) : Data N R :=
  { d with txn := Function.update d.txn t x }

/-- One step of thread `t` on the data. -/
inductive Step (d : Data N R) (t : Fin N) : Data N R → Prop
  | restart (index : LockType → Fin R) (h : ∀ ty, (d.txn t).wrote ty = false) :
      Step d t (d.set t { (d.txn t).done with index := index })
  | acquire (ty : LockType) (hi : Function.Injective (d.txn t).index)
      (hfree : ∀ u, u ≠ t → ∀ ty', (d.txn u).owns ty' = true →
        (d.txn u).index ty' = (d.txn t).index ty → ty = .R ∧ ty' = .R) :
      Step d t (d.set t { d.txn t with owns := Function.update (d.txn t).owns ty true })
  | save (ty : LockType) (ho : (d.txn t).owns ty = true) (hs : (d.txn t).saved ty = false) :
      Step d t (d.set t { d.txn t with
        saved := Function.update (d.txn t).saved ty true
        value := Function.update (d.txn t).value ty (d.mem ((d.txn t).index ty)) })
  | write (ty : LockType) (hty : ty ≠ .R) (hs : (d.txn t).saved ty = true)
      (hr : (d.txn t).saved .R = true) :
      Step d t { d.set t { d.txn t with wrote := Function.update (d.txn t).wrote ty true } with
        mem := Function.update d.mem ((d.txn t).index ty) ((d.txn t).newValue ty) }
  | undo (mem : Fin R → Int32)
      (hw : ∀ ty, (d.txn t).wrote ty = true → mem ((d.txn t).index ty) = (d.txn t).value ty)
      (hm : ∀ x, mem x = d.mem x ∨
        ∃ ty, (d.txn t).saved ty = true ∧ (d.txn t).index ty = x ∧ mem x = (d.txn t).value ty) :
      Step d t { d.set t (d.txn t).done with mem := mem }
  | commit (cid : ℤ) (h1 : (d.txn t).wrote .W1 = true) (h2 : (d.txn t).wrote .W2 = true) :
      Step d t { d.set t (d.txn t).done with
        log := d.log ++ [⟨cid, (d.txn t).index .R, (d.txn t).index .W1, (d.txn t).index .W2,
          d.mem ((d.txn t).index .R), d.mem ((d.txn t).index .W1), d.mem ((d.txn t).index .W2)⟩] }

end Data

/-! ## The invariant -/

/-- What holds of one attempt, when `v` are the serial values and `mem` the records. -/
structure Txn.Good (v mem : Fin R → Int32) (x : Txn R) : Prop where
  injective : ∀ ty, x.owns ty = true → Function.Injective x.index
  saved : ∀ ty, x.saved ty = true → x.owns ty = true ∧ x.value ty = v (x.index ty)
  wrote : ∀ ty, x.wrote ty = true →
    ty ≠ .R ∧ x.saved ty = true ∧ x.saved .R = true ∧ mem (x.index ty) = x.newValue ty

namespace Txn

variable {x x' : Txn R} {v v' mem mem' : Fin R → Int32}

/-- Changes elsewhere do not concern an attempt. -/
lemma Good.congr (h : x.Good v mem) (hv : ∀ ty, x.owns ty = true → v' (x.index ty) = v (x.index ty))
    (hm : ∀ ty, x.wrote ty = true → mem' (x.index ty) = mem (x.index ty)) : x.Good v' mem' where
  injective := h.injective
  saved ty hs := by
    obtain ⟨ho, hval⟩ := h.saved ty hs
    exact ⟨ho, by rw [hval, hv ty ho]⟩
  wrote ty hw := by
    obtain ⟨hty, hs, hr, hmem⟩ := h.wrote ty hw
    exact ⟨hty, hs, hr, by rw [hm ty hw, hmem]⟩

/-- A record that was written is owned. -/
lemma Good.owns_of_wrote (h : x.Good v mem) {ty : LockType} (hw : x.wrote ty = true) :
    x.owns ty = true := (h.saved ty (h.wrote ty hw).2.1).1

lemma good_done (x : Txn R) (index : LockType → Fin R) :
    ({ x.done with index := index } : Txn R).Good v mem := by
  constructor <;> simp [done]

end Txn

namespace Data

variable {d d' : Data N R} {t u : Fin N}

/-- No two threads own one record, unless both only read it. -/
def Exclusive (txn : Fin N → Txn R) : Prop :=
  ∀ t u ty ty', t ≠ u → (txn t).owns ty = true → (txn u).owns ty' = true →
    (txn t).index ty = (txn u).index ty' → ty = .R ∧ ty' = .R

/-- A thread gets another record, or gives some back. -/
lemma Exclusive.update {txn : Fin N → Txn R} (h : Exclusive txn) {x : Txn R}
    (hx : ∀ u, u ≠ t → ∀ ty ty', x.owns ty = true → (txn u).owns ty' = true →
      x.index ty = (txn u).index ty' → ty = .R ∧ ty' = .R) :
    Exclusive (Function.update txn t x) := by
  intro a b ty ty' hab ha hb hi
  by_cases hat : a = t
  · subst hat
    rw [Function.update_of_ne hab.symm] at hb hi
    rw [Function.update_self] at ha hi
    exact hx b hab.symm ty ty' ha hb hi
  · rw [Function.update_of_ne hat] at ha hi
    by_cases hbt : b = t
    · subst hbt
      rw [Function.update_self] at hb hi
      exact (hx a hab ty' ty hb ha hi.symm).symm
    · rw [Function.update_of_ne hbt] at hb hi
      exact h a b ty ty' hab ha hb hi

/-- A thread keeps its records. -/
lemma Exclusive.update_of_owns {txn : Fin N → Txn R} (h : Exclusive txn) {x : Txn R}
    (hx : ∀ ty, x.owns ty = true → (txn t).owns ty = true ∧ x.index ty = (txn t).index ty) :
    Exclusive (Function.update txn t x) :=
  h.update fun u hu ty ty' ho hou hi =>
    h t u ty ty' hu.symm (hx ty ho).1 hou ((hx ty ho).2 ▸ hi)

/-- The invariant of the data. -/
structure Inv (d : Data N R) : Prop where
  good : ∀ t, (d.txn t).Good (serial d.log) d.mem
  exclusive : Exclusive d.txn
  clean : ∀ x, (∀ t ty, (d.txn t).wrote ty = true → (d.txn t).index ty ≠ x) →
    d.mem x = serial d.log x
  shows : ∀ c (l : LogLine R), d.log[c]? = some l → l.Shows (serial (d.log.take (c + 1)))

/-- A record that a thread owns and has not written holds the serial value. -/
lemma Inv.mem_of_owns (h : Inv d) {ty : LockType} (ho : (d.txn t).owns ty = true)
    (hw : (d.txn t).wrote ty = false) :
    d.mem ((d.txn t).index ty) = serial d.log ((d.txn t).index ty) := by
  refine h.clean _ fun u ty' hw' hx => ?_
  by_cases hut : u = t
  · subst hut
    rw [(h.good u).injective ty ho hx, hw] at hw'
    simp at hw'
  · exact ((h.good u).wrote ty' hw').1
      (h.exclusive u t ty' ty hut ((h.good u).owns_of_wrote hw') ho hx).1

/-- Nobody else owns a record that a thread has written. -/
lemma Inv.index_ne_of_wrote (h : Inv d) (htu : t ≠ u) {ty ty' : LockType}
    (hw : (d.txn t).wrote ty = true) (ho : (d.txn u).owns ty' = true) :
    (d.txn u).index ty' ≠ (d.txn t).index ty := fun hx =>
  ((h.good t).wrote ty hw).1
    (h.exclusive t u ty ty' htu ((h.good t).owns_of_wrote hw) ho hx.symm).1

/-- Steps that change one attempt and nothing else. -/
lemma Inv.set (h : Inv d) {x : Txn R} (hx : x.Good (serial d.log) d.mem)
    (hex : Exclusive (Function.update d.txn t x)) (hw : x.wrote = (d.txn t).wrote)
    (hi : x.index = (d.txn t).index ∨ ∀ ty, (d.txn t).wrote ty = false) : Inv (d.set t x) where
  good u := by
    simp only [Data.set, Function.update_apply]
    split_ifs
    · exact hx
    · exact h.good u
  exclusive := hex
  clean y hy := by
    refine h.clean y fun u ty hu => ?_
    by_cases hut : u = t
    · subst hut
      have := hy u ty
      simp only [Data.set, Function.update_self, hw] at this
      rcases hi with hi | hi
      · rw [← hi]
        exact this hu
      · rw [hi] at hu
        simp at hu
    · have := hy u ty
      simp only [Data.set, Function.update_of_ne hut] at this
      exact this hu
  shows := h.shows

lemma Inv.restart (h : Inv d) (index : LockType → Fin R) (hw : ∀ ty, (d.txn t).wrote ty = false) :
    Inv (d.set t { (d.txn t).done with index := index }) :=
  h.set (Txn.good_done _ index)
    (h.exclusive.update fun u _ ty ty' ho => by simp [Txn.done] at ho)
    (funext fun ty => (hw ty).symm) (Or.inr hw)

lemma Inv.acquire (h : Inv d) {ty : LockType} (hi : Function.Injective (d.txn t).index)
    (hfree : ∀ u, u ≠ t → ∀ ty', (d.txn u).owns ty' = true →
      (d.txn u).index ty' = (d.txn t).index ty → ty = .R ∧ ty' = .R) :
    Inv (d.set t { d.txn t with owns := Function.update (d.txn t).owns ty true }) := by
  refine h.set ⟨fun _ _ => hi, fun ty' hs => ?_, (h.good t).wrote⟩
    (h.exclusive.update fun u hu ty₁ ty' ho hou hx => ?_) rfl (Or.inl rfl)
  · obtain ⟨ho, hv⟩ := (h.good t).saved ty' hs
    refine ⟨?_, hv⟩
    simp only [Function.update_apply, ho, ite_self]
  · by_cases hty : ty₁ = ty
    · subst hty
      exact hfree u hu ty' hou hx.symm
    · simp only [Function.update_of_ne hty] at ho
      exact h.exclusive t u ty₁ ty' hu.symm ho hou hx

lemma Inv.save (h : Inv d) {ty : LockType} (ho : (d.txn t).owns ty = true)
    (hs : (d.txn t).saved ty = false) :
    Inv (d.set t { d.txn t with
      saved := Function.update (d.txn t).saved ty true
      value := Function.update (d.txn t).value ty (d.mem ((d.txn t).index ty)) }) := by
  have hw : (d.txn t).wrote ty = false := by
    by_contra hw
    have := ((h.good t).wrote ty (by simpa using hw)).2.1
    rw [hs] at this
    simp at this
  refine h.set ⟨(h.good t).injective, fun ty' hs' => ?_, fun ty' hw' => ?_⟩
    (h.exclusive.update_of_owns fun _ ho => ⟨ho, rfl⟩) rfl (Or.inl rfl)
  · by_cases hty : ty' = ty
    · subst hty
      simp only [Function.update_self]
      exact ⟨ho, h.mem_of_owns ho hw⟩
    · simp only [Function.update_of_ne hty] at hs' ⊢
      exact (h.good t).saved ty' hs'
  · -- the new value was written from locals saved before
    obtain ⟨hR, hs', hr, hm⟩ := (h.good t).wrote ty' hw'
    have hty : ty' ≠ ty := by
      rintro rfl
      rw [hs] at hs'
      simp at hs'
    have hRty : LockType.R ≠ ty := by
      rintro rfl
      rw [hs] at hr
      simp at hr
    refine ⟨hR, by simpa [Function.update_of_ne hty] using hs',
      by simpa [Function.update_of_ne hRty] using hr, ?_⟩
    rw [hm]
    cases ty' with
    | R => exact absurd rfl hR
    | W1 => simp only [Txn.newValue, Function.update_of_ne hty, Function.update_of_ne hRty]
    | W2 => simp only [Txn.newValue, Function.update_of_ne hty, Function.update_of_ne hRty]

lemma Inv.write (h : Inv d) {ty : LockType} (hty : ty ≠ .R) (hs : (d.txn t).saved ty = true)
    (hr : (d.txn t).saved .R = true) :
    Inv { d.set t { d.txn t with wrote := Function.update (d.txn t).wrote ty true } with
      mem := Function.update d.mem ((d.txn t).index ty) ((d.txn t).newValue ty) } := by
  have ho := ((h.good t).saved ty hs).1
  refine ⟨fun u => ?_, h.exclusive.update_of_owns fun _ ho => ⟨ho, rfl⟩, fun x hx => ?_, h.shows⟩
  · by_cases hut : u = t
    · subst hut
      simp only [Data.set, Function.update_self]
      refine ⟨(h.good u).injective, (h.good u).saved, fun ty' hw' => ?_⟩
      by_cases hty' : ty' = ty
      · subst hty'
        exact ⟨hty, hs, hr, Function.update_self _ _ _⟩
      · simp only [Function.update_of_ne hty'] at hw'
        obtain ⟨h1, h2, h3, h4⟩ := (h.good u).wrote ty' hw'
        have hne : (d.txn u).index ty' ≠ (d.txn u).index ty :=
          fun he => hty' ((h.good u).injective ty ho he)
        exact ⟨h1, h2, h3, (Function.update_of_ne hne _ _).trans h4⟩
    · simp only [Data.set, Function.update_of_ne hut]
      exact (h.good u).congr (fun _ _ => rfl) fun ty' hw' =>
        Function.update_of_ne (h.index_ne_of_wrote hut hw' ho).symm _ _
  · have hne : x ≠ (d.txn t).index ty := by
      have := hx t ty
      simp only [Data.set, Function.update_self, forall_const] at this
      exact this.symm
    simp only [Function.update_of_ne hne]
    refine h.clean x fun u ty' hw' => ?_
    have := hx u ty'
    by_cases hut : u = t
    · subst hut
      simp only [Data.set, Function.update_self, Function.update_apply] at this
      exact this (by split_ifs <;> simp [hw'])
    · simp only [Data.set, Function.update_of_ne hut] at this
      exact this hw'

lemma Inv.undo (h : Inv d) {mem : Fin R → Int32}
    (hw : ∀ ty, (d.txn t).wrote ty = true → mem ((d.txn t).index ty) = (d.txn t).value ty)
    (hm : ∀ x, mem x = d.mem x ∨
      ∃ ty, (d.txn t).saved ty = true ∧ (d.txn t).index ty = x ∧ mem x = (d.txn t).value ty) :
    Inv { d.set t (d.txn t).done with mem := mem } := by
  refine ⟨fun u => ?_, h.exclusive.update_of_owns fun ty ho => by simp [Txn.done] at ho,
    fun x hx => ?_, h.shows⟩
  · by_cases hut : u = t
    · subst hut
      simp only [Data.set, Function.update_self]
      exact Txn.good_done _ _
    · simp only [Data.set, Function.update_of_ne hut]
      refine (h.good u).congr (fun _ _ => rfl) fun ty' hw' => ?_
      rcases hm ((d.txn u).index ty') with he | ⟨ty, hs, hx, -⟩
      · exact he
      · exact absurd hx (h.index_ne_of_wrote hut hw' ((h.good t).saved ty hs).1)
  · by_cases hex : ∃ ty, (d.txn t).saved ty = true ∧ (d.txn t).index ty = x ∧
        mem x = (d.txn t).value ty
    · obtain ⟨ty, hs, rfl, hv⟩ := hex
      exact hv.trans ((h.good t).saved ty hs).2
    · have hmem : mem x = d.mem x := (hm x).resolve_right hex
      refine hmem.trans (h.clean x fun u ty hu => ?_)
      by_cases hut : u = t
      · subst hut
        rintro rfl
        exact hex ⟨ty, ((h.good u).wrote ty hu).2.1, rfl, hw ty hu⟩
      · have := hx u ty
        simp only [Data.set, Function.update_of_ne hut] at this
        exact this hu

/-- One transaction on distinct records. -/
lemma serialStep_apply {v : Fin R → Int32} {l : LogLine R} (hij : l.i ≠ l.j) (hjk : l.j ≠ l.k)
    (x : Fin R) :
    serialStep v l x = if x = l.k then v l.k - v l.i else if x = l.j then v l.j + v l.i + 1
      else v x := by
  simp only [serialStep, Function.update_apply, if_neg hjk.symm, if_neg hij]

lemma Inv.commit (h : Inv d) (cid : ℤ) (h1 : (d.txn t).wrote .W1 = true)
    (h2 : (d.txn t).wrote .W2 = true) :
    Inv { d.set t (d.txn t).done with
      log := d.log ++ [⟨cid, (d.txn t).index .R, (d.txn t).index .W1, (d.txn t).index .W2,
        d.mem ((d.txn t).index .R), d.mem ((d.txn t).index .W1),
        d.mem ((d.txn t).index .W2)⟩] } := by
  obtain ⟨-, hs1, hsR, hm1⟩ := (h.good t).wrote .W1 h1
  obtain ⟨-, hs2, -, hm2⟩ := (h.good t).wrote .W2 h2
  obtain ⟨hoR, hvR⟩ := (h.good t).saved .R hsR
  have hv1 := ((h.good t).saved .W1 hs1).2
  have hv2 := ((h.good t).saved .W2 hs2).2
  have hinj := (h.good t).injective .R hoR
  have hij : (d.txn t).index .R ≠ (d.txn t).index .W1 := hinj.ne (by decide)
  have hik : (d.txn t).index .R ≠ (d.txn t).index .W2 := hinj.ne (by decide)
  have hjk : (d.txn t).index .W1 ≠ (d.txn t).index .W2 := hinj.ne (by decide)
  have hwR : (d.txn t).wrote .R = false := by
    by_contra hw
    exact ((h.good t).wrote .R (by simpa using hw)).1 rfl
  have hmR := h.mem_of_owns hoR hwR
  -- the records after the attempt are the serial values after its line
  have hnew : ∀ x, serial (d.log ++ [⟨cid, (d.txn t).index .R, (d.txn t).index .W1,
      (d.txn t).index .W2, d.mem ((d.txn t).index .R), d.mem ((d.txn t).index .W1),
      d.mem ((d.txn t).index .W2)⟩]) x
      = if x = (d.txn t).index .W2 ∨ x = (d.txn t).index .W1 then d.mem x else serial d.log x := by
    intro x
    rw [serial_append, serialStep_apply hij hjk]
    dsimp only
    by_cases hx2 : x = (d.txn t).index .W2
    · rw [if_pos hx2, if_pos (Or.inl hx2), hx2, hm2, Txn.newValue, hv2, hvR]
    · by_cases hx1 : x = (d.txn t).index .W1
      · rw [if_neg hx2, if_pos hx1, if_pos (Or.inr hx1), hx1, hm1, Txn.newValue, hv1, hvR]
      · rw [if_neg hx2, if_neg hx1, if_neg (not_or.mpr ⟨hx2, hx1⟩)]
  refine ⟨fun u => ?_, h.exclusive.update_of_owns fun ty ho => by simp [Txn.done] at ho,
    fun x hx => ?_, fun c l hl => ?_⟩
  · by_cases hut : u = t
    · subst hut
      simp only [Data.set, Function.update_self]
      exact Txn.good_done _ _
    · simp only [Data.set, Function.update_of_ne hut]
      refine (h.good u).congr (fun ty' ho' => ?_) fun _ _ => rfl
      rw [hnew, if_neg (not_or.mpr ⟨h.index_ne_of_wrote (Ne.symm hut) h2 ho',
        h.index_ne_of_wrote (Ne.symm hut) h1 ho'⟩)]
  · rw [hnew]
    split_ifs with hx'
    · rfl
    · refine h.clean x fun u ty hu => ?_
      by_cases hut : u = t
      · subst hut
        rintro rfl
        cases ty with
        | R => rw [hwR] at hu; simp at hu
        | W1 => exact hx' (Or.inr rfl)
        | W2 => exact hx' (Or.inl rfl)
      · have := hx u ty
        simp only [Data.set, Function.update_of_ne hut] at this
        exact this hu
  · simp only at hl
    rw [List.getElem?_append] at hl
    split_ifs at hl with hc
    · rw [List.take_append_of_le_length (by omega)]
      exact h.shows c l hl
    · have hc' : c = d.log.length := by
        by_contra hne
        rw [List.getElem?_eq_none (by simp; omega)] at hl
        simp at hl
      subst hc'
      simp only [Nat.sub_self, List.getElem?_cons_zero, Option.some.injEq] at hl
      rw [List.take_of_length_le (by simp), ← hl]
      refine ⟨?_, ?_, ?_⟩ <;> rw [hnew]
      · rw [if_neg (not_or.mpr ⟨hik, hij⟩), ← hmR]
      · rw [if_pos (Or.inr rfl)]
      · rw [if_pos (Or.inl rfl)]

/-- **Every step keeps the data serial.** -/
theorem Inv.step (h : Inv d) (hs : Step d t d') : Inv d' := by
  cases hs with
  | restart index hw => exact h.restart index hw
  | acquire ty hi hfree => exact h.acquire hi hfree
  | save ty ho hs => exact h.save ho hs
  | write ty hty hs hr => exact h.write hty hs hr
  | undo mem hw hm => exact h.undo hw hm
  | commit cid h1 h2 => exact h.commit cid h1 h2

end Data

end Multicore.Project2
