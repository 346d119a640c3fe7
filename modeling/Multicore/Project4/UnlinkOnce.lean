import Multicore.Project4.FindsLock

/-!
# Is a lock unlinked once?

A lock is taken out of its cell by a compare-and-swap of the link to it, which is replaced by the
link that the lock had when the walk loaded it.  The mark is not part of the link.  So the lock
`cur_lock` whose link a walk replaces may have been marked in the meantime, and

* it may have been unlinked: the compare-and-swap then changes a link that is no longer part of the
  list, and `next_lock` stays in;
* another walk may be about to unlink it, with the old link in hand: that walk then links
  `next_lock` again, which is in the garbage list by now.

`SoundCas` excludes these two cases.  In all other runs the locks that have not been unlinked form
the list from the head (`Chain`), and the garbage list has each lock once:

* **`unlinked_once`** — in every run that meets the condition; **`unlinked_reachable`** — without
  it, an appended lock may be reached from the head again.
-/

namespace Multicore.Project4

variable {τ : Type*} {s s' : State τ} {t u : τ}

/-! ## The condition and the property -/

/-- The lock that the next step would unlink, with the link that was loaded before. -/
def Pc.unlinks : Pc → Option ℕ
  | .dequeue _ (.headCas cur _) => some cur
  | .dequeue _ (.midCas _ next _) => some next
  | _ => none

/-- The locks `cur_lock` and `next_lock` of the compare-and-swap in the second loop. -/
def Pc.midCas : Pc → Option (ℕ × ℕ)
  | .dequeue _ (.midCas cur next _) => some (cur, next)
  | _ => none

/-- When the link of `cur_lock` is replaced, `cur_lock` has not been unlinked, and no walk is about
to unlink it. -/
def SoundCas (s : State τ) : Act τ → Prop
  | .go t => ∀ p ∈ (s.pc t).midCas, s.mem.hash p.1 = some p.2 →
      s.mem.unlinked p.1 = false ∧ ∀ u, (s.pc u).unlinks ≠ some p.1
  | _ => True

instance [Fintype τ] (s : State τ) (a : Act τ) : Decidable (SoundCas s a) :=
  match a with
  | .insert _ => isTrue trivial
  | .dequeue _ _ => isTrue trivial
  | .go t => inferInstanceAs (Decidable (∀ p ∈ (s.pc t).midCas, s.mem.hash p.1 = some p.2 →
      s.mem.unlinked p.1 = false ∧ ∀ u, (s.pc u).unlinks ≠ some p.1))

/-- A lock that can be reached from `cell->head` along the links. -/
def Mem.Reach (m : Mem Unit) (x : ℕ) : Prop :=
  ∃ h, m.head () = some h ∧ Relation.ReflTransGen (fun a b => m.hash a = some b) h x

/-- Each lock is in the garbage list at most once, and those that are cannot be reached. -/
structure UnlinkedOnce (s : State τ) : Prop where
  once : s.mem.appended.Nodup
  gone : ∀ x ∈ s.mem.appended, ¬ s.mem.Reach x

/-! ## The chain of the locks that are in the list -/

/-- The link that a walk has loaded to unlink a lock is still the link of that lock, and a lock
that it is about to append has been unlinked. -/
def Current (m : Mem Unit) : Walk → Prop
  | .headCas cur v => v = none ∨ m.hash cur = v
  | .midCas _ next v => v = none ∨ m.hash next = v
  | .append x _ _ => m.unlinked x = true ∧ x ∉ m.appended
  | _ => True

/-- Nothing but unlinked locks between `a` and `b`. -/
def Gap (m : Mem Unit) (a b : ℕ) : Prop := ∀ c, a < c → c < b → m.unlinked c = true

/-- The locks that have not been unlinked form a chain from the head. -/
structure Chain (s : State τ) : Prop where
  head : ∀ h, s.mem.head () = some h →
    s.mem.unlinked h = false ∧ ∀ c < h, s.mem.unlinked c = true
  hash : ∀ a b, s.mem.unlinked a = false → s.mem.hash a = some b →
    s.mem.unlinked b = false ∧ Gap s.mem a b
  marked : ∀ c, s.mem.unlinked c = true → s.mem.state c = false
  appended : ∀ x ∈ s.mem.appended, s.mem.unlinked x = true
  once : s.mem.appended.Nodup
  current : ∀ t l w, s.pc t = .dequeue l w → Current s.mem w
  /-- a lock is appended by whoever has unlinked it -/
  holder : ∀ t u l l' x cur cur' mid mid', s.pc t = .dequeue l (.append x cur mid) →
    s.pc u = .dequeue l' (.append x cur' mid') → t = u

/-- Up to where the link of `x` leads, everything but `x` is unlinked. -/
lemma Gap.pass {m : Mem Unit} {x b c : ℕ} (h : Gap m x b) (hcx : c < x → m.unlinked c = true)
    (hcb : c < b) : c = x ∨ m.unlinked c = true := by
  rcases lt_trichotomy c x with hlt | rfl | hlt
  · exact Or.inr (hcx hlt)
  · exact Or.inl rfl
  · exact Or.inr (h c hlt hcb)

lemma unlinked_update {unlinked : ℕ → Bool} {x c : ℕ} :
    Function.update unlinked x true c = true ↔ c = x ∨ unlinked c = true := by
  rw [Function.update_apply]
  split_ifs with hc <;> simp [hc]

/-- What can be reached has not been unlinked. -/
lemma Chain.reach_in (h : Chain s) {x : ℕ} (hx : s.mem.Reach x) : s.mem.unlinked x = false := by
  obtain ⟨a, ha, hpath⟩ := hx
  induction hpath with
  | refl => exact (h.head a ha).1
  | tail _ hbc ih => exact (h.hash _ _ ih hbc).1

lemma Chain.unlinkedOnce (h : Chain s) : UnlinkedOnce s := by
  refine ⟨h.once, fun x hx hreach => ?_⟩
  have hin := h.reach_in hreach
  rw [h.appended x hx] at hin
  exact Bool.false_ne_true hin.symm

namespace Chain

/-- The lock that is being inserted has not been unlinked. -/
lemma pending_in (h : Chain s) (hB : Base s) {l : ℕ} {x : Option ℕ} (hpc : s.pc t = .link l x) :
    s.mem.unlinked l = false := by
  rw [← Bool.not_eq_true]
  intro hu
  have := (hB.pending t l x hpc).2.1
  rw [h.marked l hu] at this
  exact Bool.false_ne_true this

section Update

variable [DecidableEq τ]

/-- The conditions on the transactions, when `t` moves and the memory becomes `m'`. -/
lemma current_update (h : Chain s) {m' : Mem Unit} {q : Pc}
    (hmono : ∀ u l w, u ≠ t → s.pc u = .dequeue l w → Current s.mem w → Current m' w)
    (hq : ∀ l w, q = .dequeue l w → Current m' w) :
    ∀ u l w, Function.update s.pc t q u = .dequeue l w → Current m' w := by
  intro u l w hu
  by_cases hut : u = t
  · rw [hut, Function.update_self] at hu
    exact hq l w hu
  · rw [Function.update_of_ne hut] at hu
    exact hmono u l w hut hu (h.current u l w hu)

/-- Nobody else has the lock that `t` is going to append. -/
lemma holder_update (h : Chain s) {q : Pc}
    (hq : ∀ l x cur mid, q = .dequeue l (.append x cur mid) → s.mem.unlinked x = false) :
    ∀ u v l l' x cur cur' mid mid',
      Function.update s.pc t q u = .dequeue l (.append x cur mid) →
      Function.update s.pc t q v = .dequeue l' (.append x cur' mid') → u = v := by
  intro u v l l' x cur cur' mid mid' hu hv
  have hnot : ∀ {y l x cur mid}, s.pc y = .dequeue l (.append x cur mid) →
      s.mem.unlinked x = false → False := by
    intro y l x cur mid hy hx
    have := (h.current y _ _ hy).1
    rw [this] at hx
    exact Bool.false_ne_true hx.symm
  by_cases hut : u = t <;> by_cases hvt : v = t
  · exact hut.trans hvt.symm
  · rw [hut, Function.update_self] at hu
    rw [Function.update_of_ne hvt] at hv
    exact (hnot hv (hq _ _ _ _ hu)).elim
  · rw [hvt, Function.update_self] at hv
    rw [Function.update_of_ne hut] at hu
    exact (hnot hu (hq _ _ _ _ hv)).elim
  · rw [Function.update_of_ne hut] at hu
    rw [Function.update_of_ne hvt] at hv
    exact h.holder u v l l' x cur cur' mid mid' hu hv

/-- A link is stored that was missing. -/
lemma link (h : Chain s) (hB : Base s) {l : ℕ} {oldTail : Option ℕ}
    (hpc : s.pc t = .link l oldTail) (locks : τ → List ℕ) :
    Chain { mem := s.mem.insertLink () l oldTail
            pc := Function.update s.pc t .idle
            trxLocks := locks } := by
  obtain ⟨_, _, hbefore, hhash, _⟩ := hB.pending t l oldTail hpc
  have hin := h.pending_in hB hpc
  cases oldTail with
  | none =>
      have hl0 : l = 0 := by
        by_contra h0
        rw [before, if_neg h0] at hbefore
        exact absurd hbefore (by simp)
      refine ⟨fun x hx => ?_, h.hash, h.marked, h.appended, h.once,
        h.current_update (fun _ _ _ _ _ hc => hc) (by simp), h.holder_update (by simp)⟩
      simp only [Mem.insertLink, Function.update_self, Option.some.injEq] at hx
      subst hx
      exact ⟨hin, fun c hc => by omega⟩
  | some a =>
      have hal : a + 1 = l := by
        rw [before] at hbefore
        split_ifs at hbefore with h0
        have := Option.some.inj hbefore
        omega
      have ha : s.mem.hash a = none := hhash a rfl
      -- a walk that has loaded the missing link has a null pointer
      have hcur : ∀ c v, v = none ∨ s.mem.hash c = v →
          v = none ∨ (s.mem.insertLink () l (some a)).hash c = v := by
        rintro c v (hv | hv)
        · exact Or.inl hv
        · by_cases hca : c = a
          · rw [hca, ha] at hv
            exact Or.inl hv.symm
          · exact Or.inr (by simpa [Mem.insertLink, hca] using hv)
      refine ⟨h.head, fun b x hb hx => ?_, h.marked, h.appended, h.once,
        h.current_update (fun u l' w _ _ hc => ?_) (by simp), h.holder_update (by simp)⟩
      · by_cases hba : b = a
        · subst hba
          simp only [Mem.insertLink, Function.update_self, Option.some.injEq] at hx
          subst hx
          exact ⟨hin, fun c h1 h2 => by omega⟩
        · simp only [Mem.insertLink, Function.update_of_ne hba] at hx
          exact h.hash b x hb hx
      · cases w with
        | headCas cur v => exact hcur cur v hc
        | midCas cur next v => exact hcur next v hc
        | append x cur mid => exact hc
        | _ => trivial

/-- The lock `x` is taken out of the chain, and is appended next. -/
lemma unlink (h : Chain s) {m' : Mem Unit} {l x cur : ℕ} {mid : Bool}
    (hin : s.mem.unlinked x = false) (hmark : s.mem.state x = false)
    (hunl : ∀ c, m'.unlinked c = true ↔ c = x ∨ s.mem.unlinked c = true)
    (hstate : m'.state = s.mem.state) (happ : m'.appended = s.mem.appended)
    (hlinks : ∀ u c, (s.pc u).unlinks = some c → m'.hash c = s.mem.hash c)
    (hhead : ∀ a, m'.head () = some a → (a ≠ x ∧ s.mem.unlinked a = false) ∧
      ∀ c < a, c = x ∨ s.mem.unlinked c = true)
    (hhash : ∀ a b, a ≠ x → s.mem.unlinked a = false → m'.hash a = some b →
      (b ≠ x ∧ s.mem.unlinked b = false) ∧
        ∀ c, a < c → c < b → c = x ∨ s.mem.unlinked c = true) :
    Chain { s with
      mem := m', pc := Function.update s.pc t (.dequeue l (.append x cur mid)) } := by
  have hout : ∀ c, m'.unlinked c = false ↔ c ≠ x ∧ s.mem.unlinked c = false := by
    intro c
    rw [← Bool.not_eq_true, hunl, not_or, Bool.not_eq_true]
  refine ⟨fun a ha => ?_, fun a b ha hab => ?_, fun c hc => ?_, fun y hy => ?_, ?_,
    h.current_update (fun u l' w _ hu hc => ?_) ?_, h.holder_update ?_⟩
  · obtain ⟨ha', hbefore⟩ := hhead a ha
    exact ⟨(hout a).2 ha', fun c hc => (hunl c).2 (hbefore c hc)⟩
  · obtain ⟨hax, ha'⟩ := (hout a).1 ha
    obtain ⟨hb, hgap⟩ := hhash a b hax ha' hab
    exact ⟨(hout b).2 hb, fun c h1 h2 => (hunl c).2 (hgap c h1 h2)⟩
  · rw [hstate]
    rcases (hunl c).1 hc with rfl | hc
    · exact hmark
    · exact h.marked c hc
  · rw [happ] at hy
    exact (hunl y).2 (Or.inr (h.appended y hy))
  · rw [happ]
    exact h.once
  · cases w with
    | append y cur' mid' =>
        rw [Current, happ]
        exact ⟨(hunl y).2 (Or.inr hc.1), hc.2⟩
    | headCas cur' v' =>
        rw [Current, hlinks u cur' (by simp [hu, Pc.unlinks])]
        exact hc
    | midCas cur' next v' =>
        rw [Current, hlinks u next (by simp [hu, Pc.unlinks])]
        exact hc
    | _ => trivial
  · rintro l' w ⟨⟩
    rw [Current, happ]
    refine ⟨(hunl x).2 (Or.inl rfl), fun hx => ?_⟩
    rw [h.appended x hx] at hin
    exact Bool.false_ne_true hin.symm
  · rintro l' y cur' mid' ⟨⟩
    exact hin

/-- The compare-and-swap of the head takes the first lock out. -/
lemma unlinkHead (h : Chain s) (hB : Base s) {l cur : ℕ} {v : Option ℕ}
    (hpc : s.pc t = .dequeue l (.headCas cur v)) (hcas : s.mem.head () = some cur) :
    Chain { s with
      mem := s.mem.unlinkHead () cur v
      pc := Function.update s.pc t (.dequeue l (.append cur cur false)) } := by
  obtain ⟨hin, hbefore⟩ := h.head cur hcas
  refine h.unlink hin (hB.walks t l _ hpc).2.2.1 (fun c => unlinked_update) rfl rfl
    (fun _ _ _ => rfl) (fun b hb => ?_) fun a b hac ha hab => ?_
  · simp only [Mem.unlinkHead, Function.update_self] at hb
    subst hb
    have hhash : s.mem.hash cur = some b := (h.current t l _ hpc).resolve_left (by simp)
    obtain ⟨hb, hgap⟩ := h.hash cur b hin hhash
    have hlt := (hB.order cur b hhash).1.1
    exact ⟨⟨by omega, hb⟩, fun c hc => hgap.pass (hbefore c) hc⟩
  · obtain ⟨hb, hgap⟩ := h.hash a b ha hab
    refine ⟨⟨?_, hb⟩, fun c h1 h2 => Or.inr (hgap c h1 h2)⟩
    rintro rfl
    rw [hbefore a (hB.order a b hab).1.1] at ha
    exact Bool.false_ne_true ha.symm

/-- The compare-and-swap of a link takes the next lock out, if the link is that of a lock which is
in the list and which nobody is about to unlink. -/
lemma unlinkNext (h : Chain s) (hB : Base s) {l cur next : ℕ} {v : Option ℕ}
    (hpc : s.pc t = .dequeue l (.midCas cur next v)) (hcas : s.mem.hash cur = some next)
    (hin : s.mem.unlinked cur = false) (hfree : ∀ u, (s.pc u).unlinks ≠ some cur) :
    Chain { s with
      mem := s.mem.unlinkNext cur next v
      pc := Function.update s.pc t (.dequeue l (.append next cur true)) } := by
  obtain ⟨hnext, hgap⟩ := h.hash cur next hin hcas
  have hlt : cur < next := (hB.order cur next hcas).1.1
  have hother : ∀ a, a ≠ cur → (s.mem.unlinkNext cur next v).hash a = s.mem.hash a :=
    fun a ha => Function.update_of_ne ha _ _
  refine h.unlink hnext (hB.walks t l _ hpc).2.2.2.1 (fun c => unlinked_update) rfl rfl
    (fun u c hc => hother c ?_) (fun x hx => ?_) fun a b han ha hab => ?_
  · rintro rfl
    exact hfree u hc
  · obtain ⟨hx', hbefore⟩ := h.head x hx
    refine ⟨⟨?_, hx'⟩, fun c hc => Or.inr (hbefore c hc)⟩
    rintro rfl
    rw [hbefore cur hlt] at hin
    exact Bool.false_ne_true hin.symm
  · by_cases hac : a = cur
    · subst hac
      simp only [Mem.unlinkNext, Function.update_self] at hab
      subst hab
      have hhash : s.mem.hash next = some b := (h.current t l _ hpc).resolve_left (by simp)
      obtain ⟨hb, hgap'⟩ := h.hash next b hnext hhash
      have hnb := (hB.order next b hhash).1.1
      exact ⟨⟨by omega, hb⟩, fun c h1 h2 => hgap'.pass (hgap c h1) h2⟩
    · rw [hother a hac] at hab
      obtain ⟨hb, hgap'⟩ := h.hash a b ha hab
      refine ⟨⟨?_, hb⟩, fun c h1 h2 => Or.inr (hgap' c h1 h2)⟩
      -- two locks of the chain would lead to `next`
      rintro rfl
      rcases lt_or_gt_of_ne hac with hlt' | hgt
      · rw [hgap' cur hlt' hlt] at hin
        exact Bool.false_ne_true hin.symm
      · rw [hgap a hgt (hB.order a b hab).1.1] at ha
        exact Bool.false_ne_true ha.symm

/-- The swap of `gclist->tail` appends a lock. -/
lemma append (h : Chain s) {l x cur : ℕ} {mid : Bool}
    (hpc : s.pc t = .dequeue l (.append x cur mid)) :
    Chain { s with
      mem := s.mem.gcAppend x
      pc := Function.update s.pc t (.dequeue l (.clock x s.mem.gcTail cur mid)) } := by
  obtain ⟨hx, hnew⟩ := h.current t l _ hpc
  refine ⟨h.head, h.hash, h.marked, fun y hy => ?_, ?_,
    h.current_update (fun u l' w hut hu hc => ?_) ?_, h.holder_update (by simp)⟩
  · rcases List.mem_append.1 hy with hy | hy
    · exact h.appended y hy
    · rw [List.mem_singleton.1 hy]
      exact hx
  · exact List.nodup_append.2 ⟨h.once, List.nodup_singleton x, fun a ha b hb hab =>
      hnew (List.mem_singleton.1 hb ▸ hab ▸ ha)⟩
  · cases w with
    | append y cur' mid' =>
        refine ⟨hc.1, fun hy => ?_⟩
        rcases List.mem_append.1 hy with hy | hy
        · exact hc.2 hy
        · rw [List.mem_singleton.1 hy] at hu
          exact hut (h.holder u t l' l x cur' cur mid' mid hu hpc)
    | headCas cur' v' => exact hc
    | midCas cur' next v' => exact hc
    | _ => trivial
  · intro l' w hw
    cases hw
    trivial

/-- A step that touches neither the links nor the garbage list's order. -/
lemma still (h : Chain s) {m' : Mem Unit} {q : Pc} (locks : τ → List ℕ)
    (hhash : m'.hash = s.mem.hash) (hhead : m'.head = s.mem.head)
    (hunl : m'.unlinked = s.mem.unlinked) (happ : m'.appended = s.mem.appended)
    (hmark : ∀ c, s.mem.state c = false → m'.state c = false)
    (hq : ∀ l w, q = .dequeue l w → Current s.mem w ∧ ∀ x cur mid, w ≠ .append x cur mid) :
    Chain { mem := m', pc := Function.update s.pc t q, trxLocks := locks } := by
  have hcur : ∀ w, Current s.mem w → Current m' w := by
    intro w hw
    cases w with
    | append x cur mid => simpa only [Current, hunl, happ] using hw
    | headCas cur v => simpa only [Current, hhash] using hw
    | midCas cur next v => simpa only [Current, hhash] using hw
    | _ => trivial
  refine ⟨?_, ?_, ?_, ?_, ?_, h.current_update (fun _ _ w _ _ hc => hcur w hc)
    (fun l w hw => hcur w (hq l w hw).1), h.holder_update fun l x cur mid hw =>
      absurd rfl ((hq l _ hw).2 x cur mid)⟩
  · simpa only [hhead, hunl] using h.head
  · simpa only [hhash, hunl, Gap] using h.hash
  · intro c hc
    exact hmark c (h.marked c (by rwa [← hunl]))
  · simpa only [happ, hunl] using h.appended
  · simpa only [happ] using h.once

/-- A step of a walk. -/
lemma walk (h : Chain s) (hB : Base s) {l : ℕ} {w w' : Walk} {m' : Mem Unit}
    (hpc : s.pc t = .dequeue l w) (hw : WStep () l s.mem w m' w') (hne : w' ≠ .done)
    (hok : SoundCas s (.go t)) :
    Chain { s with mem := m', pc := Function.update s.pc t (.dequeue l w') } := by
  have hsame : ∀ v, Current s.mem v → (∀ x cur mid, v ≠ .append x cur mid) →
      ∀ l' w, Pc.dequeue l v = .dequeue l' w →
        Current s.mem w ∧ ∀ x cur mid, w ≠ .append x cur mid := by
    intro v hv hno l' w hvw
    cases hvw
    exact ⟨hv, hno⟩
  cases hw with
  | headCas cur v hcas => exact h.unlinkHead hB hpc hcas
  | midCas cur next v hcas =>
      obtain ⟨hin, hfree⟩ := hok (cur, next) (by simp [hpc, Pc.midCas]) hcas
      exact h.unlinkNext hB hpc hcas hin hfree
  | append x cur mid => exact h.append hpc
  | gcLinkHead x oldTail cur =>
      cases oldTail <;>
        exact h.still _ rfl rfl rfl rfl (fun _ hc => hc) (hsame _ trivial (by simp))
  | gcLinkMid x oldTail cur =>
      cases oldTail <;>
        exact h.still _ rfl rfl rfl rfl (fun _ hc => hc) (hsame _ trivial (by simp))
  | headHash cur =>
      exact h.still _ rfl rfl rfl rfl (fun _ hc => hc) (hsame _ (Or.inr rfl) (by simp))
  | midHash cur next =>
      exact h.still _ rfl rfl rfl rfl (fun _ hc => hc) (hsame _ (Or.inr rfl) (by simp))
  | mark => exact absurd rfl hne
  | _ => exact h.still _ rfl rfl rfl rfl (fun _ hc => hc) (hsame _ trivial (by simp))

lemma move (h : Chain s) (hB : Base s) {a : Act τ} (hok : SoundCas s a) (hm : Move s t a s') :
    Chain s' := by
  cases hm with
  | insert hpc => exact h.still _ rfl rfl rfl rfl (fun _ hc => hc) (by simp)
  | dequeue l hpc hl =>
      refine h.still _ rfl rfl rfl rfl (fun _ hc => hc) fun l' w hw => ?_
      cases hw
      exact ⟨trivial, by simp⟩
  | link hpc => exact h.link hB hpc _
  | walk hpc hw hne => exact h.walk hB hpc hw hne hok
  | mark hpc => exact h.still _ rfl rfl rfl rfl (later_mark _ _).marks (by simp)

end Update

end Chain

/-! ## Unlinked once -/

/-- **Each lock is unlinked and appended once**, in every run in which `cur_lock` is in the list,
and nobody is about to unlink it, whenever its link is replaced: the garbage list has no lock twice,
and none that can be reached from the head. -/
theorem unlinked_once [DecidableEq τ] :
    ∀ s, (cellList τ).Run SoundCas s → UnlinkedOnce s := by
  intro s hs
  refine Chain.unlinkedOnce (Machine.Run.invariant (I := Chain) ?_ ?_ s hs)
  · rintro s rfl
    refine ⟨?_, ?_, ?_, ?_, List.nodup_nil, ?_, ?_⟩ <;> simp [State.start, Mem.start]
  · intro s a s' hr h hok hstep
    exact h.move (base_of_run hr) hok (move_of_step hstep)

/-- Both ways to unlink: transaction `1` marks lock `1`, and transaction `2` replaces the link of
lock `0` to it.  Then transaction `0` marks lock `0`, and transaction `3` replaces the head. -/
theorem unlinked_once_two_locks :
    ∃ s : State (Fin 4), (cellList (Fin 4)).Run SoundCas s ∧ s.mem.appended = [1, 0] ∧
      s.mem.hash 0 = some 2 ∧ UnlinkedOnce s := by
  obtain ⟨s, hs, hp⟩ := Machine.exists_run_of_exec (M := cellList (Fin 4)) SoundCas
    (s := State.start) rfl
    (List.flatten [[.insert 0, .go 0, .insert 1, .go 1, .insert 2, .go 2, .insert 3, .go 3],
      .dequeue 1 1 :: Act.steps 1 6, .dequeue 2 2 :: Act.steps 2 9, .dequeue 0 0 :: Act.steps 0 3,
      .dequeue 3 3 :: Act.steps 3 5])
    (fun s => s.mem.appended = [1, 0] ∧ s.mem.hash 0 = some 2) (by decide +kernel)
  obtain ⟨happ, hhash⟩ := of_decide_eq_true hp
  exact ⟨s, hs, happ, hhash, unlinked_once s hs⟩

/-- **An appended lock may be reached again.**  Transaction `1` marks lock `1`.  Transaction `2`
walks to lock `2` and is about to replace the link of lock `0` by that of lock `1`.  Transaction
`0` marks lock `0`; transaction `3` finds it marked and loads its link.  Transaction `2` unlinks
and appends lock `1`; transaction `3` makes it the head. -/
theorem unlinked_reachable :
    ∃ s : State (Fin 4), (cellList (Fin 4)).Reachable s ∧ s.mem.appended = [1] ∧
      s.mem.head () = some 1 ∧ ¬ UnlinkedOnce s := by
  obtain ⟨s, hs, hp⟩ := Machine.exists_reachable_of_exec (M := cellList (Fin 4))
    (s := State.start) rfl
    (List.flatten [[.insert 0, .go 0, .insert 1, .go 1, .insert 2, .go 2, .insert 3, .go 3],
      .dequeue 1 1 :: Act.steps 1 6, .dequeue 2 2 :: Act.steps 2 7, .dequeue 0 0 :: Act.steps 0 3,
      .dequeue 3 3 :: Act.steps 3 3, Act.steps 2 2, Act.steps 3 1])
    (fun s => s.mem.appended = [1] ∧ s.mem.head () = some 1) (by decide +kernel)
  obtain ⟨happ, hhead⟩ := of_decide_eq_true hp
  refine ⟨s, hs, happ, hhead, fun h => h.gone 1 ?_ ⟨1, hhead, .refl⟩⟩
  rw [happ]
  exact List.mem_singleton_self 1

end Multicore.Project4
