import Multicore.Lib.Reclamation
import Multicore.Project4.Transactions

/-!
# Is a lock freed too early?

A transaction that walks to its locks holds pointers to locks of other transactions, which may be
unlinked, appended to the garbage list and freed by the collector in the meantime.  The timestamps
are to prevent that: they are meant as an epoch-based reclamation scheme, and the library says what
such a scheme guarantees, and what it needs.  `Sim` connects the two, step by step:

* a reader is a transaction in `lock_release`, and its epoch is its timestamp;
* an object is out when it is unlinked, and its stamps are the values of `trx_sys->timestamp` that
  a walk has loaded for it;
* a pass of the collector begins when the loop that looks for the smallest timestamp has ended.

Two things that the scheme needs are not ensured by the code.  The smallest timestamp found is not
a lower bound: the loop visits the first registered transaction and otherwise only transactions in
`rw_trx_list`, which a transaction leaves before its `lock_release`.  And a lock may be appended to
the garbage list twice.  Then the list refers to an address that has been freed, and a lock that is
allocated there is freed with it.  `Guarded` excludes both:

* **`not_freed_while_releasing`** — under this condition a transaction never has seen a lock that is
  freed before its `lock_release` has finished;
* **`freed_while_releasing`** — without the first half of it, that happens with two transactions;
* **`freed_when_reused`** — nor is the first half enough.
-/

namespace Multicore.Project4

/-- The locks to which the collector has pointers. -/
def Gc.holds : Gc → List ℕ
  | .loop _ prev cur => prev.toList ++ cur.toList
  | .headTime _ prev cur => cur :: prev.toList
  | .headHash _ prev cur => cur :: prev.toList
  | .headStore _ prev cur v => cur :: (prev.toList ++ v.toList)
  | .headFree _ prev cur => cur :: prev.toList
  | .headNext _ prev => prev.toList
  | .time _ prev cur => cur :: prev.toList
  | .hash _ prev cur => cur :: prev.toList
  | .store _ prev cur v => cur :: (prev.toList ++ v.toList)
  | .free _ prev cur => [cur, prev]
  | .next _ prev => [prev]
  | .advance _ cur => [cur]
  | _ => []

/-- The lock that the collector has decided to free. -/
def Gc.doomed : Gc → Option ℕ
  | .headHash _ _ cur => some cur
  | .headStore _ _ cur _ => some cur
  | .headFree _ _ cur => some cur
  | .hash _ _ cur => some cur
  | .store _ _ cur _ => some cur
  | .free _ _ cur => some cur
  | _ => none

/-- What the collector frees is among what it holds. -/
lemma Gc.doomed_mem_holds {g : Gc} {x : ℕ} (h : x ∈ g.doomed) : x ∈ g.holds := by
  cases g <;> simp_all [Gc.doomed, Gc.holds]

namespace Trx

variable {ι τ : Type*}

/-! ## The condition and the property -/

/-- The locks that a transaction is appending to, or taking from, the garbage list. -/
def Pc.refs : Pc ι τ → List ℕ
  | .walk _ _ w => w.appends
  | .gc _ g => g.holds
  | _ => []

/-- The garbage list, or whoever is working on it, refers to `x`. -/
def State.Refers (s : State ι τ) (x : ℕ) : Prop :=
  s.mem.gcHead = some x ∨ (∃ y ∈ s.mem.appended, s.mem.gcHash y = some x) ∨
    ∃ u, x ∈ (s.pc u).refs

instance [Fintype τ] (s : State ι τ) (x : ℕ) : Decidable (s.Refers x) :=
  inferInstanceAs (Decidable (_ ∨ (∃ y ∈ s.mem.appended, s.mem.gcHash y = some x) ∨ _))

/-- The transaction is in `lock_release`. -/
def Pc.releasing : Pc ι τ → Bool
  | .release => true
  | .walk _ _ _ => true
  | _ => false

/-- `min` is a lower bound: not above the clock, nor above the timestamp of a transaction that is in
`lock_release`. -/
def State.Bounded (s : State ι τ) (min : ℕ) : Prop :=
  min ≤ s.mem.sysTimestamp ∧ ∀ u, (s.pc u).releasing = true → min ≤ s.timestamp u

instance [Fintype τ] (s : State ι τ) (min : ℕ) : Decidable (s.Bounded min) :=
  inferInstanceAs (Decidable (_ ∧ ∀ u, (s.pc u).releasing = true → min ≤ s.timestamp u))

/-- The smallest timestamp that the loop has found, at its end. -/
def Pc.found : Pc ι τ → Option ℕ
  | .scan none min => some min
  | _ => none

/-- The smallest timestamp that the loop has found is a lower bound. -/
def LowerBound (s : State ι τ) : Act ι τ → Prop
  | .go t => ∀ min ∈ (s.pc t).found, s.Bounded min
  | _ => True

/-- No lock is allocated at an address to which the garbage list refers. -/
def Unreferenced (s : State ι τ) : Act ι τ → Prop
  | .insert _ _ l => ¬ s.Refers l
  | _ => True

/-- What the code does not ensure. -/
def Guarded (s : State ι τ) (a : Act ι τ) : Prop := LowerBound s a ∧ Unreferenced s a

instance [Fintype τ] (s : State ι τ) (a : Act ι τ) : Decidable (LowerBound s a) :=
  match a with
  | .go t => inferInstanceAs (Decidable (∀ min ∈ (s.pc t).found, s.Bounded min))
  | .insert _ _ _ => isTrue trivial
  | .start _ => isTrue trivial
  | .setRwMode _ => isTrue trivial
  | .prepare _ => isTrue trivial
  | .commit _ => isTrue trivial

instance [Fintype τ] (s : State ι τ) (a : Act ι τ) : Decidable (Unreferenced s a) :=
  match a with
  | .insert _ _ l => inferInstanceAs (Decidable (¬ s.Refers l))
  | .start _ => isTrue trivial
  | .setRwMode _ => isTrue trivial
  | .prepare _ => isTrue trivial
  | .commit _ => isTrue trivial
  | .go _ => isTrue trivial

instance [Fintype τ] (s : State ι τ) (a : Act ι τ) : Decidable (Guarded s a) :=
  inferInstanceAs (Decidable (_ ∧ _))

/-- No transaction in `lock_release` has seen a lock that is freed. -/
def NotFreed (s : State ι τ) : Prop :=
  ∀ t x, (s.pc t).releasing = true → s.seen t x = true → s.mem.freed x = false

/-- Whoever is in `lock_release` and has seen a freed lock refutes the property. -/
lemma not_notFreed {s : State ι τ} {t : τ} {x : ℕ} (ht : (s.pc t).releasing = true)
    (hx : s.seen t x = true) (hfreed : s.mem.freed x = true) : ¬ NotFreed s := by
  intro h
  rw [h t x ht hx] at hfreed
  exact Bool.false_ne_true hfreed

/-! ## The simulation -/

section Sim

variable (E : Epochs τ ℕ) (m : Mem ι)

/-- `x` has been appended, and its timestamp is one of its stamps. -/
def Stamped (x : ℕ) : Prop := m.timestamp x ∈ E.stamps x ∧ x ∈ m.appended

/-- What is known about a lock while a walk appends it. -/
def WalkFits : Walk → Prop
  | .append x _ _ => x ∈ E.out
  | .clock x oldTail _ _ => x ∈ E.out ∧ x ∈ m.appended ∧ ∀ y ∈ oldTail, y ∈ m.appended
  | .stamp x oldTail _ _ ts =>
      ts ∈ E.stamps x ∧ x ∈ m.appended ∧ ∀ y ∈ oldTail, y ∈ m.appended
  | .gcLink x oldTail _ _ => Stamped E m x ∧ ∀ y ∈ oldTail, y ∈ m.appended
  | _ => True

/-- What is known about the locks of the collector. -/
structure GcFits (min : ℕ) (g : Gc) : Prop where
  holds : ∀ x ∈ g.holds, Stamped E m x
  doomed : ∀ x ∈ g.doomed, ∃ v ∈ E.stamps x, v < min

/-- What is known about a transaction `t`, from where it stands. -/
def Fits (t : τ) (timestamp : ℕ) : Pc ι τ → Prop
  | .store ts => ts < m.sysTimestamp
  | .erase => timestamp < m.sysTimestamp
  | .commit => timestamp < m.sysTimestamp
  | .walk _ _ w => WalkFits E m w
  | .gc min g => E.pass t = some min ∧ GcFits E m min g
  | _ => True

/-- The memory and the scheme agree. -/
structure MemSim : Prop where
  clock : E.clock = m.sysTimestamp
  out : ∀ x, x ∈ E.out ↔ m.unlinked x = true
  freed : ∀ x, m.freed x = true → x ∈ E.freed
  tail : ∀ y ∈ m.gcTail, y ∈ m.appended
  head : ∀ x ∈ m.gcHead, Stamped E m x
  hash : ∀ y, ∀ x ∈ m.gcHash y, Stamped E m x ∧ y ∈ m.appended

/-- The system and the scheme agree. -/
structure Sim (s : State ι τ) : Prop where
  sound : E.Sound
  mem : MemSim E s.mem
  seen : ∀ t x, s.seen t x = true → x ∈ E.seen t
  reader : ∀ t, E.reader t = if (s.pc t).releasing then some (s.timestamp t) else none
  fits : ∀ t, Fits E s.mem t (s.timestamp t) (s.pc t)

end Sim

variable {E E' : Epochs τ ℕ} {m m' : Mem ι} {s s' : State ι τ} {t : τ}

/-- The property is that of the scheme. -/
lemma Sim.notFreed (h : Sim E s) : NotFreed s := by
  intro t x ht hx
  by_contra hfreed
  refine h.sound.safe t (s.timestamp t) ?_ x (h.seen t x hx) (h.mem.freed x (by simpa using hfreed))
  simp [h.reader t, ht]

/-! ## What a step leaves to the others -/

/-- What is known about the locks in `keep` stays known. -/
structure Grows (E E' : Epochs τ ℕ) (m m' : Mem ι) (keep : ℕ → Prop) : Prop where
  clock : m.sysTimestamp ≤ m'.sysTimestamp
  appended : ∀ x ∈ m.appended, x ∈ m'.appended
  out : ∀ x, keep x → x ∈ E.out → x ∈ E'.out
  stamps : ∀ x, keep x → ∀ v ∈ E.stamps x, v ∈ E'.stamps x
  stamped : ∀ x, keep x → Stamped E m x → Stamped E' m' x

lemma WalkFits.grows {keep : ℕ → Prop} {w : Walk} (h : WalkFits E m w)
    (hg : Grows E E' m m' keep) (hk : ∀ x ∈ w.appends, keep x) : WalkFits E' m' w := by
  cases w with
  | append x cur mid => exact hg.out x (hk x (by simp [Walk.appends])) h
  | clock x oldTail cur mid =>
      obtain ⟨hx, happ, hold⟩ := h
      exact ⟨hg.out x (hk x (by simp [Walk.appends])) hx, hg.appended x happ,
        fun y hy => hg.appended y (hold y hy)⟩
  | stamp x oldTail cur mid ts =>
      obtain ⟨hx, happ, hold⟩ := h
      exact ⟨hg.stamps x (hk x (by simp [Walk.appends])) ts hx, hg.appended x happ,
        fun y hy => hg.appended y (hold y hy)⟩
  | gcLink x oldTail cur mid =>
      exact ⟨hg.stamped x (hk x (by simp [Walk.appends])) h.1,
        fun y hy => hg.appended y (h.2 y hy)⟩
  | _ => trivial

lemma GcFits.grows {keep : ℕ → Prop} {min : ℕ} {g : Gc} (h : GcFits E m min g)
    (hg : Grows E E' m m' keep) (hk : ∀ x ∈ g.holds, keep x) : GcFits E' m' min g := by
  refine ⟨fun x hx => hg.stamped x (hk x hx) (h.holds x hx), fun x hx => ?_⟩
  obtain ⟨v, hv, hlt⟩ := h.doomed x hx
  exact ⟨v, hg.stamps x (hk x (Gc.doomed_mem_holds hx)) v hv, hlt⟩

lemma Fits.grows {keep : ℕ → Prop} {q : Pc ι τ} {timestamp : ℕ}
    (h : Fits E m t timestamp q) (hg : Grows E E' m m' keep) (hk : ∀ x ∈ q.refs, keep x)
    (hp : E'.pass t = E.pass t) : Fits E' m' t timestamp q := by
  cases q with
  | store ts => exact lt_of_lt_of_le h hg.clock
  | erase => exact lt_of_lt_of_le h hg.clock
  | commit => exact lt_of_lt_of_le h hg.clock
  | walk i l w => exact WalkFits.grows h hg hk
  | gc min g => exact ⟨by rw [hp]; exact h.1, h.2.grows hg hk⟩
  | _ => trivial

/-- The other transactions stay where they are. -/
structure Others (s s' : State ι τ) (t : τ) : Prop where
  pc : ∀ u, u ≠ t → s'.pc u = s.pc u
  timestamp : ∀ u, u ≠ t → s'.timestamp u = s.timestamp u

/-- A step of `t`, up to what is special about it. -/
lemma Sim.step (h : Sim E s) (keep : ℕ → Prop) (ho : Others s s' t) (hsound : E'.Sound)
    (hmem : MemSim E' s'.mem) (hg : Grows E E' s.mem s'.mem keep)
    (hkeep : ∀ u, ∀ x ∈ (s.pc u).refs, keep x)
    (hpass : ∀ u, u ≠ t → E'.pass u = E.pass u)
    (hreader : ∀ u, u ≠ t → E'.reader u = E.reader u)
    (hseen : ∀ u x, s'.seen u x = true → x ∈ E'.seen u)
    (hrt : E'.reader t = if (s'.pc t).releasing then some (s'.timestamp t) else none)
    (hft : Fits E' s'.mem t (s'.timestamp t) (s'.pc t)) : Sim E' s' := by
  refine ⟨hsound, hmem, hseen, fun u => ?_, fun u => ?_⟩
  · by_cases hu : u = t
    · exact hu ▸ hrt
    · rw [hreader u hu, ho.pc u hu, ho.timestamp u hu]
      exact h.reader u
  · by_cases hu : u = t
    · exact hu ▸ hft
    · rw [ho.pc u hu, ho.timestamp u hu]
      exact (h.fits u).grows hg (hkeep u) (hpass u hu)

/-- Two memories that agree on everything the scheme depends on. -/
structure SameGc (m m' : Mem ι) : Prop where
  clock : m'.sysTimestamp = m.sysTimestamp
  unlinked : m'.unlinked = m.unlinked
  freed : m'.freed = m.freed
  gcTail : m'.gcTail = m.gcTail
  gcHead : m'.gcHead = m.gcHead
  gcHash : m'.gcHash = m.gcHash
  timestamp : m'.timestamp = m.timestamp
  appended : m'.appended = m.appended

lemma SameGc.refl (m : Mem ι) : SameGc m m := ⟨rfl, rfl, rfl, rfl, rfl, rfl, rfl, rfl⟩

/-- Two states of the scheme that agree on the objects. -/
structure SameObjects (E E' : Epochs τ ℕ) : Prop where
  clock : E'.clock = E.clock
  out : E'.out = E.out
  stamps : E'.stamps = E.stamps
  freed : E'.freed = E.freed

lemma SameObjects.refl (E : Epochs τ ℕ) : SameObjects E E := ⟨rfl, rfl, rfl, rfl⟩

lemma SameGc.stamped (h : SameGc m m') (hE : SameObjects E E') {x : ℕ} :
    Stamped E' m' x ↔ Stamped E m x := by
  simp only [Stamped, h.timestamp, h.appended, hE.stamps]

lemma SameGc.memSim (h : SameGc m m') (hE : SameObjects E E') (hm : MemSim E m) :
    MemSim E' m' where
  clock := by rw [hE.clock, h.clock, hm.clock]
  out := by simpa only [h.unlinked, hE.out] using hm.out
  freed := by simpa only [h.freed, hE.freed] using hm.freed
  tail := by simpa only [h.gcTail, h.appended] using hm.tail
  head := by simpa only [h.gcHead, h.stamped hE] using hm.head
  hash := by simpa only [h.gcHash, h.stamped hE, h.appended] using hm.hash

lemma SameGc.grows (h : SameGc m m') (hE : SameObjects E E') :
    Grows E E' m m' fun _ => True where
  clock := h.clock.ge
  appended x hx := by rwa [h.appended]
  out _ _ hx := by rwa [hE.out]
  stamps _ _ _ hv := by rwa [hE.stamps]
  stamped x _ hx := (h.stamped hE).2 hx

/-- A step of `t` that does not concern the objects. -/
lemma Sim.calm (h : Sim E s) (ho : Others s s' t) (hsame : SameGc s.mem s'.mem)
    (hE : SameObjects E E') (hsound : E'.Sound)
    (hpass : ∀ u, u ≠ t → E'.pass u = E.pass u)
    (hreader : ∀ u, u ≠ t → E'.reader u = E.reader u)
    (hseen : ∀ u x, s'.seen u x = true → x ∈ E'.seen u)
    (hrt : E'.reader t = if (s'.pc t).releasing then some (s'.timestamp t) else none)
    (hft : Fits E' s.mem t (s'.timestamp t) (s'.pc t)) : Sim E' s' :=
  h.step _ ho hsound (hsame.memSim hE h.mem) (hsame.grows hE) (fun _ _ _ => trivial) hpass hreader
    hseen hrt (hft.grows (hsame.grows (.refl E')) (fun _ _ => trivial) rfl)

/-- A step of `t` that the scheme does not notice. -/
lemma Sim.quiet (h : Sim E s) (ho : Others s s' t) (hsame : SameGc s.mem s'.mem)
    (hseen : s'.seen = s.seen)
    (hrt : E.reader t = if (s'.pc t).releasing then some (s'.timestamp t) else none)
    (hft : Fits E s.mem t (s'.timestamp t) (s'.pc t)) : Sim E s' :=
  h.calm ho hsame (.refl E) h.sound (fun _ _ => rfl) (fun _ _ => rfl)
    (by rw [hseen]; exact h.seen) hrt hft

/-- A step of `t` outside of `lock_release` that the scheme does not notice. -/
lemma Sim.outside (h : Sim E s) {q q' : Pc ι τ} (hpc : s.pc t = q) (hpc' : s'.pc t = q')
    (hq : q.releasing = false) (hq' : q'.releasing = false) (ho : Others s s' t)
    (hsame : SameGc s.mem s'.mem) (hseen : s'.seen = s.seen)
    (hft : Fits E s.mem t (s'.timestamp t) q') : ∃ E, Sim E s' := by
  have hreader := h.reader t
  rw [hpc, hq] at hreader
  refine ⟨E, h.quiet ho hsame hseen ?_ ?_⟩
  · rw [hpc', hq']
    exact hreader
  · rw [hpc']
    exact hft

/-- `t` is still in `lock_release`, with the timestamp it had. -/
lemma Sim.reader_walk (h : Sim E s) {i : ι} {l : ℕ} {w : Walk}
    (hpc : s.pc t = .walk i l w) :
    E.reader t = some (s.timestamp t) := by
  simpa [hpc, Pc.releasing] using h.reader t

/-- What is known about the lock that `t` appends. -/
lemma Sim.walkFits (h : Sim E s) {i : ι} {l : ℕ} {w : Walk}
    (hpc : s.pc t = .walk i l w) : WalkFits E s.mem w := by
  simpa only [hpc, Fits] using h.fits t

/-- What is known about the locks of the collector. -/
lemma Sim.gcFits (h : Sim E s) {min : ℕ} {g : Gc} (hpc : s.pc t = .gc min g) :
    GcFits E s.mem min g := by
  have hfits := h.fits t
  simp only [hpc, Fits] at hfits
  exact hfits.2

variable [DecidableEq τ]

/-- A step that changes where `t` stands, and not its timestamp. -/
lemma others_setPc {m : Mem ι} {status : τ → Status} {rw : List τ} {locks : τ → List (ι × ℕ)}
    {b : Bool} {q : Pc ι τ} {seen : τ → ℕ → Bool} :
    Others s { s.setPc t q with
      mem := m, status := status, rwTrxList := rw, trxLocks := locks, gclistState := b,
      seen := seen } t :=
  ⟨fun _ hu => Function.update_of_ne hu _ _, fun _ _ => rfl⟩

/-- A step that changes where `t` stands and its timestamp. -/
lemma others_timestamp {q : Pc ι τ} {ts : ℕ} :
    Others s { s.setPc t q with timestamp := Function.update s.timestamp t ts } t :=
  ⟨fun _ hu => Function.update_of_ne hu _ _, fun _ hu => Function.update_of_ne hu _ _⟩

/-! ## The steps of a walk -/

/-- A pointer that has been loaded becomes one that `t` has seen, if the lock is not unlinked. -/
lemma Sim.saw (h : Sim E s) (t : τ) (x : Option ℕ) :
    ∃ E', Sim E' { s with seen := s.saw t x } := by
  have ho : Others s { s with seen := s.saw t x } t := ⟨fun _ _ => rfl, fun _ _ => rfl⟩
  by_cases hx : ∃ y, x = some y ∧ s.mem.unlinked y = false
  · obtain ⟨y, rfl, hy⟩ := hx
    have hout : y ∉ E.out := fun hmem => by
      simp [(h.mem.out y).1 hmem] at hy
    refine ⟨E.see t y, h.calm ho (.refl _) ⟨rfl, rfl, rfl, rfl⟩ (h.sound.see t hout)
      (fun _ _ => rfl) (fun _ _ => rfl) (fun u z hz => ?_) (h.reader t) ?_⟩
    · by_cases hu : u = t
      · subst hu
        simp only [State.saw, Function.update_self, Bool.or_eq_true, Bool.and_eq_true,
          decide_eq_true_eq, Option.some.injEq] at hz
        simp only [Epochs.see, Function.update_self, Set.mem_insert_iff]
        rcases hz with hz | ⟨rfl, -⟩
        · exact Or.inr (h.seen u z hz)
        · exact Or.inl rfl
      · simp only [State.saw, Function.update_of_ne hu] at hz
        simp only [Epochs.see, Function.update_of_ne hu]
        exact h.seen u z hz
    · exact (h.fits t).grows ((SameGc.refl _).grows ⟨rfl, rfl, rfl, rfl⟩)
        (fun _ _ => trivial) rfl
  · have hsaw : s.saw t x = s.seen := by
      funext u z
      by_cases hu : u = t
      · subst hu
        have hz : (decide (x = some z) && !s.mem.unlinked z) = false := by
          by_contra hz
          simp only [Bool.not_eq_false, Bool.and_eq_true, decide_eq_true_eq,
            Bool.not_eq_true'] at hz
          exact hx ⟨z, hz⟩
        simp only [State.saw, Function.update_self, hz, Bool.or_false]
      · simp only [State.saw, Function.update_of_ne hu]
    exact ⟨E, h.quiet ho (.refl _) hsaw (h.reader t) (h.fits t)⟩

section Walk

variable {i : ι} {l : ℕ} {w w' : Walk}

/-- A step of a walk, up to what is special about it. -/
lemma Sim.walk_step (h : Sim E s) (hpc : s.pc t = .walk i l w) {m : Mem ι} (hsound : E'.Sound)
    (hmem : MemSim E' m) (hg : Grows E E' s.mem m fun _ => True) (hpass : E'.pass = E.pass)
    (hreader : E'.reader = E.reader) (hseen : E'.seen = E.seen) (hw : WalkFits E' m w') :
    Sim E' { s.setPc t (.walk i l w') with mem := m } := by
  refine h.step _ others_setPc hsound hmem hg (fun _ _ _ => trivial) (fun u _ => by rw [hpass])
    (fun u _ => by rw [hreader]) (fun u x hx => by rw [hseen]; exact h.seen u x hx) ?_ ?_
  · simpa [State.setPc, Pc.releasing, hreader] using h.reader_walk hpc
  · simpa [State.setPc, Fits] using hw

/-- A step of a walk that does not touch the garbage list. -/
lemma Sim.walk_quiet (h : Sim E s) (hpc : s.pc t = .walk i l w) {m : Mem ι}
    (hsame : SameGc s.mem m) (hw : WalkFits E m w') :
    Sim E { s.setPc t (.walk i l w') with mem := m } :=
  h.walk_step hpc h.sound (hsame.memSim (.refl E) h.mem) (hsame.grows (.refl E)) rfl rfl rfl hw

/-- A lock is unlinked. -/
lemma Sim.walk_retire (h : Sim E s) (hpc : s.pc t = .walk i l w) {m : Mem ι} {x cur : ℕ}
    {mid : Bool}
    (hsame : SameGc { s.mem with unlinked := Function.update s.mem.unlinked x true } m) :
    Sim (E.retire x) { s.setPc t (.walk i l (.append x cur mid)) with mem := m } := by
  have hmem : MemSim (E.retire x)
      { s.mem with unlinked := Function.update s.mem.unlinked x true } := by
    refine ⟨h.mem.clock, fun y => ?_, h.mem.freed, h.mem.tail, h.mem.head, h.mem.hash⟩
    simp only [Epochs.retire, Set.mem_insert_iff, h.mem.out y, Function.update_apply]
    split_ifs with hy <;> simp [hy]
  have hout : ∀ y ∈ E.out, y ∈ (E.retire x).out := fun y hy => Set.mem_insert_of_mem x hy
  refine h.walk_step hpc (h.sound.retire x) (hsame.memSim (.refl _) hmem) ?_ rfl rfl rfl
    (Set.mem_insert x E.out)
  exact ⟨hsame.clock.ge, fun y hy => by rwa [hsame.appended], fun y _ hy => hout y hy,
    fun _ _ _ hv => hv, fun y _ hy => (hsame.stamped (.refl _)).2 hy⟩

/-- A lock becomes the last one of the garbage list. -/
lemma Sim.walk_append (h : Sim E s) {x cur : ℕ} {mid : Bool}
    (hpc : s.pc t = .walk i l (.append x cur mid)) :
    Sim E { s.setPc t (.walk i l (.clock x s.mem.gcTail cur mid)) with
      mem := s.mem.gcAppend x } := by
  have happ : ∀ y ∈ s.mem.appended, y ∈ (s.mem.gcAppend x).appended :=
    fun y hy => List.mem_append_left _ hy
  have hlast : x ∈ (s.mem.gcAppend x).appended := List.mem_append_right _ List.mem_cons_self
  refine h.walk_step hpc h.sound ⟨h.mem.clock, h.mem.out, h.mem.freed, fun y hy => ?_,
    fun y hy => ⟨(h.mem.head y hy).1, happ y (h.mem.head y hy).2⟩, fun y z hz => ?_⟩
    ⟨le_rfl, happ, fun _ _ hy => hy, fun _ _ _ hv => hv,
      fun y _ hy => ⟨hy.1, happ y hy.2⟩⟩ rfl rfl rfl
    ⟨h.walkFits hpc, hlast, fun y hy => happ y (h.mem.tail y hy)⟩
  · obtain rfl : x = y := Option.some.inj hy
    exact hlast
  · obtain ⟨hz', hy⟩ := h.mem.hash y z hz
    exact ⟨⟨hz'.1, happ z hz'.2⟩, happ y hy⟩

/-- The value of the clock that a walk has loaded is a stamp. -/
lemma Sim.walk_clock (h : Sim E s) {x cur : ℕ} {oldTail : Option ℕ} {mid : Bool}
    (hpc : s.pc t = .walk i l (.clock x oldTail cur mid)) :
    Sim (E.stamp x) { s.setPc t (.walk i l (.stamp x oldTail cur mid s.mem.sysTimestamp)) with
      mem := s.mem } := by
  obtain ⟨hx, happ, hold⟩ := h.walkFits hpc
  have hstamps : ∀ y, ∀ v ∈ E.stamps y, v ∈ (E.stamp x).stamps y := by
    intro y v hv
    simp only [Epochs.stamp, Function.update_apply]
    split_ifs with hy
    · exact Set.mem_insert_of_mem _ (hy ▸ hv)
    · exact hv
  have hstamped : ∀ y, Stamped E s.mem y → Stamped (E.stamp x) s.mem y :=
    fun y hy => ⟨hstamps y _ hy.1, hy.2⟩
  refine h.walk_step hpc (h.sound.stamp hx)
    ⟨h.mem.clock, h.mem.out, h.mem.freed, h.mem.tail, fun y hy => hstamped y (h.mem.head y hy),
      fun y z hz => ⟨hstamped z (h.mem.hash y z hz).1, (h.mem.hash y z hz).2⟩⟩
    ⟨le_rfl, fun _ hy => hy, fun _ _ hy => hy, fun y _ => hstamps y, fun y _ => hstamped y⟩
    rfl rfl rfl ⟨?_, happ, hold⟩
  simp [Epochs.stamp, h.mem.clock]

/-- The timestamp that is stored is a stamp. -/
lemma Sim.walk_stamp (h : Sim E s) {x cur ts : ℕ} {oldTail : Option ℕ} {mid : Bool}
    (hpc : s.pc t = .walk i l (.stamp x oldTail cur mid ts)) :
    Sim E { s.setPc t (.walk i l (.gcLink x oldTail cur mid)) with
      mem := s.mem.setTimestamp x ts } := by
  obtain ⟨hx, happ, hold⟩ := h.walkFits hpc
  have hstamped : ∀ y, Stamped E s.mem y → Stamped E (s.mem.setTimestamp x ts) y := by
    intro y hy
    refine ⟨?_, hy.2⟩
    simp only [Mem.setTimestamp, Function.update_apply]
    split_ifs with hyx
    · exact hyx ▸ hx
    · exact hy.1
  refine h.walk_step hpc h.sound
    ⟨h.mem.clock, h.mem.out, h.mem.freed, h.mem.tail, fun y hy => hstamped y (h.mem.head y hy),
      fun y z hz => ⟨hstamped z (h.mem.hash y z hz).1, (h.mem.hash y z hz).2⟩⟩
    ⟨le_rfl, fun _ hy => hy, fun _ _ hy => hy, fun _ _ _ hv => hv, fun y _ => hstamped y⟩
    rfl rfl rfl ⟨⟨?_, happ⟩, hold⟩
  simpa [Mem.setTimestamp] using hx

/-- A lock is linked when its timestamp is a stamp. -/
lemma Sim.walk_gcLink (h : Sim E s) {x cur : ℕ} {oldTail : Option ℕ} {mid : Bool}
    (hpc : s.pc t = .walk i l (.gcLink x oldTail cur mid)) (hw : w'.appends = []) :
    Sim E { s.setPc t (.walk i l w') with mem := s.mem.gcLink x oldTail } := by
  obtain ⟨hx, hold⟩ := h.walkFits hpc
  have hw' : ∀ m : Mem ι, WalkFits E m w' := by
    intro m
    cases w' <;> trivial
  cases oldTail with
  | none =>
      refine h.walk_step hpc h.sound
        ⟨h.mem.clock, h.mem.out, h.mem.freed, h.mem.tail, fun y hy => ?_, h.mem.hash⟩
        ⟨le_rfl, fun _ hy => hy, fun _ _ hy => hy, fun _ _ _ hv => hv, fun _ _ hy => hy⟩
        rfl rfl rfl (hw' _)
      obtain rfl : x = y := Option.some.inj hy
      exact hx
  | some o =>
      refine h.walk_step hpc h.sound
        ⟨h.mem.clock, h.mem.out, h.mem.freed, h.mem.tail, h.mem.head, fun y z hz => ?_⟩
        ⟨le_rfl, fun _ hy => hy, fun _ _ hy => hy, fun _ _ _ hv => hv, fun _ _ hy => hy⟩
        rfl rfl rfl (hw' _)
      simp only [Mem.gcLink, Function.update_apply, Option.mem_def] at hz
      split_ifs at hz with hy
      · obtain rfl := Option.some.inj hz
        exact ⟨hx, hy ▸ hold o rfl⟩
      · exact h.mem.hash y z hz

/-- Every step of a walk. -/
lemma Sim.walk [DecidableEq ι] (h : Sim E s) (hpc : s.pc t = .walk i l w) {m : Mem ι}
    (hw : WStep i l s.mem w m w') :
    ∃ E', Sim E' { s.setPc t (.walk i l w') with mem := m } := by
  cases hw with
  | headCas cur v hcas =>
      exact ⟨_, h.walk_retire hpc ⟨rfl, rfl, rfl, rfl, rfl, rfl, rfl, rfl⟩⟩
  | midCas cur next v hcas =>
      exact ⟨_, h.walk_retire hpc ⟨rfl, rfl, rfl, rfl, rfl, rfl, rfl, rfl⟩⟩
  | append x cur mid => exact ⟨_, h.walk_append hpc⟩
  | clock x oldTail cur mid => exact ⟨_, h.walk_clock hpc⟩
  | stamp x oldTail cur mid ts => exact ⟨_, h.walk_stamp hpc⟩
  | gcLinkHead x oldTail cur => exact ⟨_, h.walk_gcLink hpc rfl⟩
  | gcLinkMid x oldTail cur => exact ⟨_, h.walk_gcLink hpc rfl⟩
  | mark => exact ⟨E, h.walk_quiet hpc ⟨rfl, rfl, rfl, rfl, rfl, rfl, rfl, rfl⟩ trivial⟩
  | _ => exact ⟨E, h.walk_quiet hpc (.refl _) trivial⟩

end Walk

/-! ## The steps of the collector -/

section Gc

variable {min : ℕ} {g g' : Gc}

/-- A step of the collector, up to what is special about it. -/
lemma Sim.gc_step (h : Sim E s) (hpc : s.pc t = .gc min g) {m : Mem ι} (hsound : E'.Sound)
    (hmem : MemSim E' m) (hg : Grows E E' s.mem m fun _ => True) (hpass : E'.pass = E.pass)
    (hreader : E'.reader = E.reader) (hseen : E'.seen = E.seen) (hgc : GcFits E' m min g') :
    Sim E' { s.setPc t (.gc min g') with mem := m } := by
  have hfits := h.fits t
  simp only [hpc, Fits] at hfits
  refine h.step _ others_setPc hsound hmem hg (fun _ _ _ => trivial) (fun u _ => by rw [hpass])
    (fun u _ => by rw [hreader]) (fun u x hx => by rw [hseen]; exact h.seen u x hx) ?_ ?_
  · simpa [State.setPc, Pc.releasing, hreader, hpc] using h.reader t
  · simpa [State.setPc, Fits, hpass] using ⟨hfits.1, hgc⟩

/-- A step of the collector that changes nothing in the memory. -/
lemma Sim.gc_quiet (h : Sim E s) (hpc : s.pc t = .gc min g) (hgc : GcFits E s.mem min g') :
    ∃ E', Sim E' { s.setPc t (.gc min g') with mem := s.mem } :=
  ⟨E, h.gc_step hpc h.sound h.mem ((SameGc.refl _).grows (.refl E)) rfl rfl rfl hgc⟩

/-- A step of the collector that loads a pointer, or moves one. -/
lemma Sim.gc_load (h : Sim E s) (hpc : s.pc t = .gc min g)
    (hholds : ∀ y ∈ g'.holds, y ∈ g.holds ∨ y ∈ s.mem.gcHead ∨ ∃ z, y ∈ s.mem.gcHash z)
    (hdoomed : ∀ y ∈ g'.doomed, y ∈ g.doomed) :
    ∃ E', Sim E' { s.setPc t (.gc min g') with mem := s.mem } := by
  refine h.gc_quiet hpc ⟨fun y hy => ?_, fun y hy => (h.gcFits hpc).doomed y (hdoomed y hy)⟩
  rcases hholds y hy with hy | hy | ⟨z, hy⟩
  · exact (h.gcFits hpc).holds y hy
  · exact h.mem.head y hy
  · exact (h.mem.hash z y hy).1

/-- A step of the collector that decides to free a lock. -/
lemma Sim.gc_doom (h : Sim E s) (hpc : s.pc t = .gc min g) (hholds : g'.holds = g.holds) {x : ℕ}
    (hx : x ∈ g.holds) (hdoomed : g'.doomed = some x) (hlt : s.mem.timestamp x < min) :
    ∃ E', Sim E' { s.setPc t (.gc min g') with mem := s.mem } := by
  refine h.gc_quiet hpc ⟨by rw [hholds]; exact (h.gcFits hpc).holds, fun y hy => ?_⟩
  obtain rfl : x = y := Option.some.inj (hdoomed.symm.trans hy)
  exact ⟨_, ((h.gcFits hpc).holds x hx).1, hlt⟩

/-- The collector frees a lock that has a stamp below the minimum. -/
lemma Sim.gc_free (h : Sim E s) (hpc : s.pc t = .gc min g) {x : ℕ} (hx : x ∈ g.doomed)
    (hholds : ∀ y ∈ g'.holds, y ∈ g.holds) (hdoomed : g'.doomed = none) :
    Sim (E.free x) { s.setPc t (.gc min g') with mem := s.mem.utFree x } := by
  have hfits := h.fits t
  simp only [hpc, Fits] at hfits
  obtain ⟨hbound, hholds', hdoomed'⟩ := hfits
  obtain ⟨v, hv, hlt⟩ := hdoomed' x hx
  refine h.gc_step hpc (h.sound.free hbound hv hlt)
    ⟨h.mem.clock, h.mem.out, fun y hy => ?_, h.mem.tail, h.mem.head, h.mem.hash⟩
    ⟨le_rfl, fun _ hy => hy, fun _ _ hy => hy, fun _ _ _ hv => hv, fun _ _ hy => hy⟩ rfl rfl rfl
    ⟨fun y hy => hholds' y (hholds y hy), fun y hy => by simp [hdoomed] at hy⟩
  simp only [Mem.utFree, Function.update_apply] at hy
  split_ifs at hy with hyx
  · exact hyx ▸ Set.mem_insert x E.freed
  · exact Set.mem_insert_of_mem x (h.mem.freed y hy)

/-- The collector stores a pointer that it holds. -/
lemma Sim.gc_store (h : Sim E s) (hpc : s.pc t = .gc min g) {m : Mem ι}
    (hsame : SameGc { s.mem with gcHead := m.gcHead, gcHash := m.gcHash } m)
    (hhead : ∀ y ∈ m.gcHead, y ∈ g.holds ∨ y ∈ s.mem.gcHead)
    (hhash : ∀ z, ∀ y ∈ m.gcHash z, (y ∈ g.holds ∧ z ∈ g.holds) ∨ y ∈ s.mem.gcHash z)
    (hholds : ∀ y ∈ g'.holds, y ∈ g.holds) (hdoomed : g'.doomed = g.doomed) :
    Sim E { s.setPc t (.gc min g') with mem := m } := by
  have hf := h.gcFits hpc
  have hmem : MemSim E { s.mem with gcHead := m.gcHead, gcHash := m.gcHash } := by
    refine ⟨h.mem.clock, h.mem.out, h.mem.freed, h.mem.tail, fun y hy => ?_, fun z y hy => ?_⟩
    · rcases hhead y hy with hy | hy
      · exact hf.holds y hy
      · exact h.mem.head y hy
    · rcases hhash z y hy with ⟨hy, hz⟩ | hy
      · exact ⟨hf.holds y hy, (hf.holds z hz).2⟩
      · exact h.mem.hash z y hy
  have hstamped : ∀ y, Stamped E s.mem y → Stamped E m y :=
    fun y hy => (hsame.stamped (.refl E)).2 hy
  exact h.gc_step hpc h.sound (hsame.memSim (.refl E) hmem)
    ⟨hsame.clock.ge, fun y hy => by rwa [hsame.appended], fun _ _ hy => hy, fun _ _ _ hv => hv,
      fun y _ => hstamped y⟩ rfl rfl rfl
    ⟨fun y hy => hstamped y (hf.holds y (hholds y hy)), by rw [hdoomed]; exact hf.doomed⟩

/-- Every step of the collector. -/
lemma Sim.gc (h : Sim E s) (hpc : s.pc t = .gc min g) {m : Mem ι} (hg : GStep min s.mem g m g') :
    ∃ E', Sim E' { s.setPc t (.gc min g') with mem := m } := by
  cases hg with
  | headFree old prev x =>
      exact ⟨_, h.gc_free hpc rfl (fun y hy => List.mem_cons_of_mem x hy) rfl⟩
  | free old p x =>
      exact ⟨_, h.gc_free hpc rfl (fun y hy => List.mem_cons_of_mem x hy) rfl⟩
  | headStore old prev x v =>
      refine ⟨E, h.gc_store hpc ⟨rfl, rfl, rfl, rfl, rfl, rfl, rfl, rfl⟩ (fun y hy => ?_)
        (fun z y hy => Or.inr hy) (fun y hy => ?_) rfl⟩
      · exact Or.inl (by simp_all [Gc.holds, Mem.setGcHead])
      · simp only [Gc.holds, List.mem_cons, List.mem_append] at hy ⊢
        tauto
  | store old p x v =>
      refine ⟨E, h.gc_store hpc ⟨rfl, rfl, rfl, rfl, rfl, rfl, rfl, rfl⟩
        (fun y hy => Or.inr hy) (fun z y hy => ?_) (fun y hy => ?_) rfl⟩
      · simp only [Mem.setGcHash, Function.update_apply, Option.mem_def] at hy
        split_ifs at hy with hz
        · exact Or.inl (by simp [Gc.holds, hy, hz])
        · exact Or.inr hy
      · simp only [Gc.holds, Option.toList_some, List.mem_cons, List.mem_append] at hy ⊢
        tauto
  | headOld old prev x hlt => exact h.gc_doom hpc rfl List.mem_cons_self rfl hlt
  | old old prev x hlt => exact h.gc_doom hpc rfl List.mem_cons_self rfl hlt
  | _ => exact h.gc_load hpc (by grind [Gc.holds]) (by simp [Gc.doomed])

end Gc

/-! ## The other steps of a transaction -/

/-- A lock is allocated at an address to which the garbage list does not refer. -/
lemma Sim.insert (h : Sim E s) {i : ι} {l : ℕ} (hpc : s.pc t = .running)
    (hl : ¬ s.Refers l) :
    Sim (E.allocate l) { s.setPc t (.insertTas i l) with
      mem := s.mem.lockAlloc l (s.timestamp t)
      seen := fun u => Function.update (s.seen u) l false } := by
  have hstamps : ∀ x, x ≠ l → (E.allocate l).stamps x = E.stamps x :=
    fun x hx => Function.update_of_ne hx _ _
  have hstamped : ∀ x, x ≠ l → Stamped E s.mem x →
      Stamped (E.allocate l) (s.mem.lockAlloc l (s.timestamp t)) x := by
    intro x hx hs
    refine ⟨?_, hs.2⟩
    simp only [Mem.lockAlloc, Function.update_of_ne hx, hstamps x hx]
    exact hs.1
  have hhead : ∀ x ∈ s.mem.gcHead, x ≠ l := by
    rintro x hx rfl
    exact hl (Or.inl hx)
  have hhash : ∀ y, ∀ x ∈ s.mem.gcHash y, x ≠ l := by
    rintro y x hx rfl
    exact hl (Or.inr (Or.inl ⟨y, (h.mem.hash y x hx).2, hx⟩))
  have hrefs : ∀ u, ∀ x ∈ (s.pc u).refs, x ≠ l := by
    rintro u x hx rfl
    exact hl (Or.inr (Or.inr ⟨u, hx⟩))
  refine h.step (fun x => x ≠ l) others_setPc (h.sound.allocate l)
    ⟨h.mem.clock, fun x => ?_, fun x hx => ?_, h.mem.tail,
      fun x hx => hstamped x (hhead x hx) (h.mem.head x hx), fun y x hx => ?_⟩
    ⟨le_rfl, fun _ hx => hx, fun x hx hout => ⟨hout, hx⟩, fun x hx v hv => ?_, hstamped⟩
    hrefs (fun _ _ => rfl) (fun _ _ => rfl) (fun u x hx => ?_) ?_ ?_
  · simp only [Epochs.allocate, Mem.lockAlloc, Set.mem_sdiff, Set.mem_singleton_iff, h.mem.out x,
      Function.update_apply]
    split_ifs with hxl <;> simp [hxl]
  · simp only [Mem.lockAlloc, Function.update_apply] at hx
    split_ifs at hx with hxl
    exact ⟨h.mem.freed x hx, hxl⟩
  · simp only [Mem.lockAlloc, Function.update_apply] at hx
    split_ifs at hx with hyl
    · simp at hx
    · exact ⟨hstamped x (hhash y x hx) (h.mem.hash y x hx).1, (h.mem.hash y x hx).2⟩
  · rwa [hstamps x hx]
  · simp only [Function.update_apply] at hx
    split_ifs at hx with hxl
    exact ⟨h.seen u x hx, hxl⟩
  · simpa [State.setPc, Pc.releasing, hpc, Epochs.allocate] using h.reader t
  · simp [State.setPc, Fits]

/-- A timestamp is taken from the clock. -/
lemma Sim.faa (h : Sim E s) (hpc : s.pc t = .running) :
    Sim E.tick { s.setPc t (.store s.mem.sysTimestamp) with mem := s.mem.fetchAndAdd } := by
  refine h.step (fun _ => True) others_setPc h.sound.tick
    ⟨congrArg (· + 1) h.mem.clock, h.mem.out, h.mem.freed, h.mem.tail, h.mem.head, h.mem.hash⟩
    ⟨Nat.le_succ _, fun _ hx => hx, fun _ _ hx => hx, fun _ _ _ hv => hv, fun _ _ hx => hx⟩
    (fun _ _ _ => trivial) (fun _ _ => rfl) (fun _ _ => rfl) h.seen ?_ ?_
  · simpa [State.setPc, Pc.releasing, hpc, Epochs.tick] using h.reader t
  · simp [State.setPc, Fits, Mem.fetchAndAdd]

/-- `lock_release` begins. -/
lemma Sim.commit (h : Sim E s) (hpc : s.pc t = .commit) :
    Sim (E.enter t (s.timestamp t)) { s.setPc t .release with
      status := Function.update s.status t .committedInMemory
      seen := Function.update s.seen t fun _ => false } := by
  have hts : s.timestamp t < s.mem.sysTimestamp := by
    simpa only [hpc, Fits] using h.fits t
  refine h.calm others_setPc (.refl _) ⟨rfl, rfl, rfl, rfl⟩
    (h.sound.enter t (by rwa [h.mem.clock])) (fun _ _ => rfl)
    (fun u hu => Function.update_of_ne hu _ _) (fun u x hx => ?_) ?_ ?_
  · by_cases hu : u = t
    · subst hu
      simp at hx
    · simp only [Function.update_of_ne hu] at hx
      simp only [Epochs.enter, Function.update_of_ne hu]
      exact h.seen u x hx
  · simp [State.setPc, Pc.releasing, Epochs.enter]
  · simp [State.setPc, Fits]

/-- `lock_release` is over. -/
lemma Sim.released (h : Sim E s) : Sim (E.leave t) (s.setPc t .tas) := by
  refine h.calm others_setPc (.refl _) ⟨rfl, rfl, rfl, rfl⟩ (h.sound.leave t) (fun _ _ => rfl)
    (fun u hu => Function.update_of_ne hu _ _) h.seen ?_ ?_
  · simp [State.setPc, Pc.releasing, Epochs.leave]
  · simp [State.setPc, Fits]

/-- The loop over the transactions has ended with a lower bound. -/
lemma Sim.scanEnd (h : Sim E s) {min : ℕ} (hpc : s.pc t = .scan none min) (hmin : s.Bounded min) :
    Sim (E.beginPass t min) (s.setPc t (.gc min .tail)) := by
  have hreader : ∀ u e, E.reader u = some e → min ≤ e := by
    intro u e he
    rw [h.reader u] at he
    split_ifs at he with hrel
    obtain rfl := Option.some.inj he
    exact hmin.2 u hrel
  refine h.calm others_setPc (.refl _) ⟨rfl, rfl, rfl, rfl⟩
    (h.sound.beginPass t (by rw [h.mem.clock]; exact hmin.1) hreader)
    (fun u hu => Function.update_of_ne hu _ _) (fun _ _ => rfl) h.seen ?_ ?_
  · simpa [State.setPc, Pc.releasing, hpc, Epochs.beginPass] using h.reader t
  · have hgc : GcFits (E.beginPass t min) s.mem min .tail :=
      ⟨by simp [Gc.holds], by simp [Gc.doomed]⟩
    simpa [State.setPc, Fits, Epochs.beginPass] using hgc

/-- **Every step of the system is a step of the scheme**, or none. -/
lemma Sim.move [DecidableEq ι] (h : Sim E s) {trxs : List τ} {a : Act ι τ}
    (hok : Guarded s a) (hm : Move trxs s t a s') : ∃ E', Sim E' s' := by
  have hreader := h.reader t
  have hfits := h.fits t
  have hset : ∀ q, Function.update s.pc t q t = q := fun q => Function.update_self t q s.pc
  cases hm with
  | start hpc => exact h.outside hpc (hset _) rfl rfl others_setPc (.refl _) rfl trivial
  | setRwMode hpc =>
      rcases hpc with hpc | hpc <;>
        exact h.outside hpc hpc rfl rfl ⟨fun _ _ => rfl, fun _ _ => rfl⟩ (.refl _) rfl trivial
  | prepare hpc hst =>
      exact h.outside hpc hpc rfl rfl ⟨fun _ _ => rfl, fun _ _ => rfl⟩ (.refl _) rfl trivial
  | insert i l hpc hst hl => exact ⟨_, h.insert hpc hok.2⟩
  | faa hpc => exact ⟨_, h.faa hpc⟩
  | insertTas i l hpc =>
      exact h.outside hpc (hset _) rfl rfl others_setPc
        ⟨rfl, rfl, rfl, rfl, rfl, rfl, rfl, rfl⟩ rfl trivial
  | insertLink i l oldTail hpc =>
      have hsame : SameGc s.mem (s.mem.insertLink i l oldTail) := by
        cases oldTail <;> exact ⟨rfl, rfl, rfl, rfl, rfl, rfl, rfl, rfl⟩
      exact h.outside hpc (hset _) rfl rfl others_setPc hsame rfl trivial
  | store ts hpc =>
      simp only [hpc, Fits] at hfits
      refine h.outside hpc (hset _) rfl rfl others_timestamp (.refl _) rfl ?_
      simpa [Fits] using hfits
  | erase hpc =>
      simp only [hpc, Fits] at hfits
      exact h.outside hpc (hset _) rfl rfl others_setPc (.refl _) rfl hfits
  | commitEmpty hpc => exact h.outside hpc (hset _) rfl rfl others_setPc (.refl _) rfl trivial
  | commit hpc => exact ⟨_, h.commit hpc⟩
  | released hpc => exact ⟨_, h.released⟩
  | release i l hpc =>
      refine ⟨E, h.quiet others_setPc (.refl _) rfl ?_ ?_⟩
      · simpa [State.setPc, Pc.releasing, hpc] using hreader
      · simp [State.setPc, Fits, WalkFits]
  | walk i l w w' m hpc hw =>
      obtain ⟨E₁, h₁⟩ := h.saw t (w.reads i l s.mem)
      exact h₁.walk hpc hw
  | found i l w m hpc hw =>
      have hsame : SameGc s.mem m := by
        cases hw
        exact ⟨rfl, rfl, rfl, rfl, rfl, rfl, rfl, rfl⟩
      refine ⟨E, h.quiet others_setPc hsame rfl ?_ ?_⟩
      · simpa [State.setPc, Pc.releasing, hpc] using hreader
      · simp [State.setPc, Fits]
  | tas hpc => exact h.outside hpc (hset _) rfl rfl others_setPc (.refl _) rfl trivial
  | scan u min hpc => exact h.outside hpc (hset _) rfl rfl others_setPc (.refl _) rfl trivial
  | scanEnd min hpc => exact ⟨_, h.scanEnd hpc (hok.1 min (by simp [hpc, Pc.found]))⟩
  | gc min g g' m hpc hg => exact h.gc hpc hg
  | tasFails hpc => exact h.outside hpc (hset _) rfl rfl others_setPc (.refl _) rfl trivial
  | gcDone min hpc => exact h.outside hpc (hset _) rfl rfl others_setPc (.refl _) rfl trivial
  | finish hpc => exact h.outside hpc (hset _) rfl rfl others_setPc (.refl _) rfl trivial
  | init hpc => exact h.outside hpc (hset _) rfl rfl others_timestamp (.refl _) rfl trivial

/-! ## Is a lock freed too early? -/

/-- The scheme at the start. -/
def epochsStart : Epochs τ ℕ where
  clock := 1
  reader _ := none
  seen _ := ∅
  out := ∅
  stamps _ := ∅
  freed := ∅
  pass _ := none

omit [DecidableEq τ] in
lemma sim_start : Sim (epochsStart : Epochs τ ℕ) (State.start : State ι τ) where
  sound := by constructor <;> simp [epochsStart]
  mem := by constructor <;> simp [epochsStart, State.start, Mem.start]
  seen := by simp [State.start]
  reader := by simp [epochsStart, State.start, Pc.releasing]
  fits := by simp [State.start, Fits]

/-- Transaction `t` makes `n` steps. -/
def Act.steps (t : τ) (n : ℕ) : List (Act ι τ) := List.replicate n (.go t)

/-- Transaction `t` creates a lock at the address `l` and inserts it into the cell `i`. -/
def Act.lock (t : τ) (i : ι) (l : ℕ) : List (Act ι τ) := .insert t i l :: Act.steps t 2

/-- Transaction `t` starts, creates one lock and takes its timestamp. -/
def Act.locking (t : τ) (i : ι) (l : ℕ) : List (Act ι τ) :=
  .start t :: Act.lock t i l ++ [.commit t]

/-- **A lock is freed while its own transaction walks to it**, although the smallest timestamp found
is a lower bound whenever a collection begins.  Lock `1` is unlinked and appended twice, as in
`unlinked_reachable`; the garbage list runs in a circle `1, 0, 1`.  Then transaction `0` appends
lock `2` and stops before it links it, so that the circle stays.  Transaction `1` collects: it frees
the locks `1` and `0` and stands at the address `1` again.  Transaction `2` allocates a new lock
there, inserts it, commits, and loads the pointer to it from lock `5`.  Transaction `1` finds the
timestamp `0` in the new lock and frees it. -/
theorem freed_when_reused :
    ∃ s : State Unit (Fin 4), (trxSystem Unit [0, 1, 2, 3]).Run LowerBound s ∧
      s.seen 2 1 = true ∧ s.mem.unlinked 1 = false ∧ s.mem.freed 1 = true ∧ ¬ NotFreed s := by
  obtain ⟨s, hs, hp⟩ := Machine.exists_run_of_exec
    (M := trxSystem Unit ([0, 1, 2, 3] : List (Fin 4))) LowerBound (s := State.start) rfl
    (List.flatten [[.start 0, .start 1, .start 2, .start 3], Act.lock 0 () 0, Act.lock 1 () 1,
      Act.lock 2 () 2, Act.lock 3 () 3, .commit 1 :: Act.steps 1 20,
      .commit 2 :: Act.steps 2 11, .commit 0 :: Act.steps 0 8, .commit 3 :: Act.steps 3 7,
      Act.steps 2 5, Act.steps 3 20, Act.steps 2 13, Act.steps 3 9, Act.steps 0 9,
      [.start 1, .commit 1], Act.steps 1 5, Act.locking 0 () 4, Act.steps 0 11,
      Act.locking 1 () 5, Act.steps 1 36, Act.locking 2 () 1, Act.steps 2 11,
      Act.steps 1 5])
    (fun s => (s.pc 2).releasing = true ∧ s.seen 2 1 = true ∧ s.mem.unlinked 1 = false ∧
      s.mem.freed 1 = true) (by decide +kernel)
  obtain ⟨hrel, hseen, hunl, hfreed⟩ := of_decide_eq_true hp
  exact ⟨s, hs, hseen, hunl, hfreed, not_notFreed hrel hseen hfreed⟩

end Trx

end Multicore.Project4
