import Lockless.Epoch

/-!
# How far the global epoch can run

A critical section holds the global epoch back: from the store that opens it
the epoch can go up once more and not again before the store that closes it.
The published epoch may be an old one, and scans that have already passed the
slot are still under way, so the argument is about every scan at every stage.
A scan past the slot carries an epoch that the global one had already left or
reached when the section was opened, so that it can still win once, and a
scan that has the slot ahead of it stops there unless it carries the
published epoch itself.

The callers promise what the class asks of them: each slot belongs to one
thread, which has registered, and has at most one section open. The epoch
counter does not reach `UINT64_MAX`, the mark of an inactive slot.
-/

namespace Lockless

namespace Epoch

variable {ι X : Type*}

/-! ## What the callers promise -/

/-- Whether a section of `tid` is open after an event. -/
def sectionAfter (tid : Fin maxThreads) (isOpen : Bool) : Event X → Bool
  | .entered t => t = tid || isOpen
  | .left t => t ≠ tid && isOpen
  | _ => isOpen

/-- Whether a section of `tid` is open after a history. -/
def inSection (tid : Fin maxThreads) (H : List (ι × Event X)) : Bool :=
  H.foldl (fun isOpen e => sectionAfter tid isOpen e.2) false

/-- The calls thread `p` may make after a history, when the threads of
`owner` have the slots of `inUse`. -/
def LegalCall (owner : Fin maxThreads → ι) (inUse : Fin maxThreads → Bool)
    (H : List (ι × Event X)) (p : ι) : Op X → Prop
  | .registerThread => False
  | .unregisterThread _ => False
  | .enterCritical tid =>
      inUse tid = true ∧ p = owner tid ∧ inSection tid H = false
  | .leaveCritical tid => inUse tid = true ∧ p = owner tid
  | .retire _ => True

instance [DecidableEq ι] (owner : Fin maxThreads → ι) (inUse : Fin maxThreads → Bool)
    (H : List (ι × Event X)) (p : ι) : DecidablePred (LegalCall owner inUse H p)
  | .registerThread => inferInstanceAs (Decidable False)
  | .unregisterThread _ => inferInstanceAs (Decidable False)
  | .enterCritical _ => inferInstanceAs (Decidable (_ ∧ _))
  | .leaveCritical _ => inferInstanceAs (Decidable (_ ∧ _))
  | .retire _ => inferInstanceAs (Decidable True)

/-- What is asked of a thread, if it is a call, is legal. -/
def LegalChoice (owner : Fin maxThreads → ι) (inUse : Fin maxThreads → Bool)
    (H : List (ι × Event X)) (p : ι) : Choice (Op X) → Prop
  | .call op => LegalCall owner inUse H p op
  | _ => True

instance [DecidableEq ι] (owner : Fin maxThreads → ι) (inUse : Fin maxThreads → Bool)
    (H : List (ι × Event X)) (p : ι) : DecidablePred (LegalChoice owner inUse H p)
  | .call op => inferInstanceAs (Decidable (LegalCall owner inUse H p op))
  | .go => inferInstanceAs (Decidable True)
  | .fault => inferInstanceAs (Decidable True)

/-- A step as the callers promise it: a call made by an idle thread is legal,
and the epoch counter has not run out. -/
def Lawful (owner : Fin maxThreads → ι) (inUse : Fin maxThreads → Bool)
    (c : Config ι (Mem X) (PC X)) (H : List (ι × Event X)) (a : ι × Choice (Op X)) :
    Prop :=
  c.mem.globalEpoch < inactive ∧ (c.pc a.1 = .idle → LegalChoice owner inUse H a.1 a.2)

instance [DecidableEq ι] [DecidableEq X] (owner : Fin maxThreads → ι)
    (inUse : Fin maxThreads → Bool) (c : Config ι (Mem X) (PC X))
    (H : List (ι × Event X)) (a : ι × Choice (Op X)) :
    Decidable (Lawful owner inUse c H a) :=
  inferInstanceAs (Decidable (_ ∧ _))

theorem inSection_append (tid : Fin maxThreads) (H : List (ι × Event X)) (p : ι)
    (ev : Option (Event X)) :
    inSection tid (H ++ (ev.map (Prod.mk p)).toList)
      = ev.elim (inSection tid H) (sectionAfter tid (inSection tid H)) := by
  cases ev <;> simp [inSection]

/-! ## The invariant -/

/-- What the program point of thread `p` says about the memory: which slot
the thread works on, and that the epochs it has read are not ahead. -/
def Sound (owner : Fin maxThreads → ι) (inUse : Fin maxThreads → Bool) (m : Mem X)
    (p : ι) : PC X → Prop
  | .regTest _ | .regClaim _ | .regStore _ | .unregStore _ | .unregClear _ => False
  | .enterLoad tid => inUse tid = true ∧ p = owner tid ∧ m.localEpoch tid = inactive
  | .enterStore tid epoch =>
      (inUse tid = true ∧ p = owner tid ∧ m.localEpoch tid = inactive)
        ∧ epoch ≤ m.globalEpoch
  | .leaveStore tid => p = owner tid
  | .retireAppend _ epoch => epoch ≤ m.globalEpoch
  | .scanUse current _ => current ≤ m.globalEpoch
  | .scanEpoch current _ => current ≤ m.globalEpoch
  | .cas current => current ≤ m.globalEpoch
  | .swap newEpoch => newEpoch ≤ m.globalEpoch
  | _ => True

structure Inv (owner : Fin maxThreads → ι) (inUse : Fin maxThreads → Bool)
    (c : Config ι (Mem X) (PC X)) (H : List (ι × Event X)) : Prop where
  used : c.mem.inUse = inUse
  active : ∀ tid, c.mem.localEpoch tid ≠ inactive → inSection tid H = true
  sound : ∀ p, Sound owner inUse c.mem p (c.pc p)

section Step

variable {owner : Fin maxThreads → ι} {inUse : Fin maxThreads → Bool} {m m' : Mem X}
  {p : ι} {pc pc' : PC X} {ev : Option (Event X)}

theorem wrap_epoch {epoch : ℕ} (h : epoch < inactive) : wrap 64 (epoch + 1) = epoch + 1 :=
  Nat.mod_eq_of_lt (by simp only [inactive] at h; omega)

/-- No step takes the global epoch back. -/
theorem Effect.globalEpoch_le (h : Effect m pc m' pc' ev) (hG : m.globalEpoch < inactive) :
    m.globalEpoch ≤ m'.globalEpoch := by
  cases h with
  | casWin =>
      rw [wrap_epoch hG]
      exact Nat.le_succ _
  | _ => exact Nat.le_refl _

/-- A legal step leaves the registrations alone. -/
theorem Effect.inUse_eq (h : Effect m pc m' pc' ev) (hs : Sound owner inUse m p pc) :
    m'.inUse = m.inUse := by
  cases h with
  | regClaim i => exact hs.elim
  | unregClear tid => exact hs.elim
  | _ => rfl

/-- A legal step touches the slots of its own thread only. -/
theorem Effect.localEpoch_off (h : Effect m pc m' pc' ev) (hs : Sound owner inUse m p pc)
    {tid : Fin maxThreads} (htid : owner tid ≠ p) : m'.localEpoch tid = m.localEpoch tid := by
  have hoff : ∀ {t epoch}, p = owner t →
      (m.setEpoch t epoch).localEpoch tid = m.localEpoch tid := by
    intro t epoch ht
    refine Mem.setEpoch_of_ne m ?_ epoch
    rintro rfl
    exact htid ht.symm
  cases h with
  | regStore i => exact hs.elim
  | unregStore t => exact hs.elim
  | enterStore t epoch => exact hoff hs.1.2.1
  | leaveStore t => exact hoff hs
  | _ => rfl

/-- Program points stay sound while the memory moves on. -/
theorem Sound.frame (h : Sound owner inUse m p pc)
    (hG : m.globalEpoch ≤ m'.globalEpoch)
    (hslot : ∀ tid, owner tid = p → m'.localEpoch tid = m.localEpoch tid) :
    Sound owner inUse m' p pc := by
  cases pc with
  | enterLoad tid =>
      obtain ⟨huse, hp, hin⟩ := h
      exact ⟨huse, hp, (hslot tid hp.symm).trans hin⟩
  | enterStore tid epoch =>
      obtain ⟨⟨huse, hp, hin⟩, hepoch⟩ := h
      exact ⟨⟨huse, hp, (hslot tid hp.symm).trans hin⟩, hepoch.trans hG⟩
  | retireAppend x epoch => exact Nat.le_trans h hG
  | scanUse current i => exact Nat.le_trans h hG
  | scanEpoch current i => exact Nat.le_trans h hG
  | cas current => exact Nat.le_trans h hG
  | swap newEpoch => exact Nat.le_trans h hG
  | _ => exact h

theorem sound_scanNext {current : ℕ} (h : current ≤ m.globalEpoch) (i : Fin maxThreads) :
    Sound owner inUse m p (scanNext current i) := by
  unfold scanNext
  split_ifs
  · exact h
  · exact h

/-- A legal call starts soundly. -/
theorem sound_start {H : List (ι × Event X)} {op : Op X}
    (hlegal : LegalCall owner inUse H p op)
    (hactive : ∀ tid, m.localEpoch tid ≠ inactive → inSection tid H = true) :
    Sound owner inUse m p (start op) := by
  cases op with
  | registerThread => exact hlegal.elim
  | unregisterThread tid => exact hlegal.elim
  | enterCritical tid =>
      obtain ⟨huse, hp, hclosed⟩ := hlegal
      refine ⟨huse, hp, ?_⟩
      by_contra hne
      rw [hactive tid hne] at hclosed
      cases hclosed
  | leaveCritical tid => exact hlegal.2
  | retire x => trivial

/-- The thread that moves ends at a sound program point. -/
theorem Effect.sound (h : Effect m pc m' pc' ev) (hs : Sound owner inUse m p pc)
    (hstart : pc = .idle → Sound owner inUse m p pc') :
    Sound owner inUse m' p pc' := by
  cases h with
  | stay => exact hs
  | start op => exact hstart rfl
  | regNext i => exact hs.elim
  | regFound i => exact hs.elim
  | regClaim i => exact hs.elim
  | unregStore tid => exact hs.elim
  | enterLoad tid => exact ⟨hs, Nat.le_refl _⟩
  | retireLoad x => exact Nat.le_refl m.globalEpoch
  | advLoad => exact Nat.le_refl m.globalEpoch
  | scanUsed current i => exact hs
  | scanUnused current i => exact sound_scanNext hs i
  | scanPass current i => exact sound_scanNext hs i
  | casWin => exact Nat.le_refl (wrap 64 (m.globalEpoch + 1))
  | _ => trivial

/-- A slot is active only between the stores that open and close a section. -/
theorem Effect.active (h : Effect m pc m' pc' ev) {H : List (ι × Event X)}
    (hactive : ∀ tid, m.localEpoch tid ≠ inactive → inSection tid H = true)
    {tid : Fin maxThreads} (htid : m'.localEpoch tid ≠ inactive) :
    inSection tid (H ++ (ev.map (Prod.mk p)).toList) = true := by
  have hkeep : ∀ {t epoch}, (m.setEpoch t epoch).localEpoch tid ≠ inactive →
      tid ≠ t → inSection tid H = true := by
    intro t epoch hne ht
    rw [Mem.setEpoch_of_ne m ht] at hne
    exact hactive tid hne
  have hgone : ∀ {t}, (m.setEpoch t inactive).localEpoch tid ≠ inactive → tid ≠ t := by
    rintro t hne rfl
    exact hne (Mem.setEpoch_self m tid inactive)
  rw [inSection_append]
  cases h with
  | start op => cases op <;> exact hactive tid htid
  | regStore t => exact hkeep htid (hgone htid)
  | unregStore t => exact hkeep htid (hgone htid)
  | enterStore t epoch =>
      by_cases ht : tid = t
      · simp [sectionAfter, ht]
      · simp [sectionAfter, hkeep htid ht]
  | leaveStore t =>
      simp [sectionAfter, (hgone htid).symm, hkeep htid (hgone htid)]
  | _ => exact hactive tid htid

theorem Inv.step {c : Config ι (Mem X) (PC X)} {H : List (ι × Event X)}
    [DecidableEq ι] (h : Inv owner inUse c H) (hG : c.mem.globalEpoch < inactive)
    (he : Effect c.mem (c.pc p) m' pc' ev)
    (hstart : c.pc p = .idle → Sound owner inUse c.mem p pc') :
    Inv owner inUse ⟨m', Function.update c.pc p pc'⟩
      (H ++ (ev.map (Prod.mk p)).toList) := by
  refine ⟨(he.inUse_eq (h.sound p)).trans h.used, fun tid => he.active h.active,
    fun q => ?_⟩
  by_cases hqp : q = p
  · subst hqp
    show Sound owner inUse m' q (Function.update c.pc q pc' q)
    rw [Function.update_self]
    exact he.sound (h.sound q) hstart
  · show Sound owner inUse m' q (Function.update c.pc p pc' q)
    rw [Function.update_of_ne hqp]
    refine (h.sound q).frame (he.globalEpoch_le hG) fun tid htid => ?_
    exact he.localEpoch_off (h.sound p) (htid.trans_ne hqp)

end Step

/-! ## Scans -/

/-- The epoch that a scan past slot `tid` carries. -/
def passed (tid : Fin maxThreads) : PC X → Option ℕ
  | .scanUse current i => if tid < i then some current else none
  | .scanEpoch current i => if tid < i then some current else none
  | .cas current => some current
  | _ => none

theorem passed_scanNext (tid : Fin maxThreads) (current : ℕ) (i : Fin maxThreads) :
    passed tid (scanNext current i : PC X) = if tid ≤ i then some current else none := by
  unfold scanNext
  by_cases hi : i.val + 1 < maxThreads
  · have hlt : tid < ⟨i.val + 1, hi⟩ ↔ tid ≤ i := Nat.lt_succ_iff
    simp [hi, passed, hlt]
  · have hle : tid ≤ i := by
      have := tid.isLt
      exact Fin.le_def.mpr (by omega)
    simp [hi, passed, hle]

theorem passed_start (tid : Fin maxThreads) (op : Op X) : passed tid (start op) = none := by
  cases op with
  | unregisterThread t =>
      obtain h | ⟨t', h⟩ := start_unregister (X := X) t <;> rw [h] <;> rfl
  | _ => rfl

/-- A section of `tid`, opened when the global epoch was `g`, holds it back:
the epoch published is no newer, and neither is the one a scan past the slot
carries. -/
structure Pinned (tid : Fin maxThreads) (g : ℕ) (c : Config ι (Mem X) (PC X)) : Prop where
  active : c.mem.localEpoch tid ≠ inactive
  published : c.mem.localEpoch tid ≤ g
  global : c.mem.globalEpoch ≤ g + 1
  scans : ∀ q current, passed tid (c.pc q) = some current → current ≤ g

section Pinned

variable {owner : Fin maxThreads → ι} {inUse : Fin maxThreads → Bool} {m m' : Mem X}
  {p : ι} {pc pc' : PC X} {ev : Option (Event X)} {tid : Fin maxThreads} {g : ℕ}

/-- The epochs of the scans are not ahead. -/
theorem Sound.passed_le (h : Sound owner inUse m p pc) {current : ℕ}
    (hpc : passed tid pc = some current) : current ≤ m.globalEpoch := by
  cases pc with
  | scanUse k i =>
      simp only [passed, Option.ite_none_right_eq_some, Option.some.injEq] at hpc
      exact hpc.2 ▸ h
  | scanEpoch k i =>
      simp only [passed, Option.ite_none_right_eq_some, Option.some.injEq] at hpc
      exact hpc.2 ▸ h
  | cas k =>
      cases hpc
      exact h
  | _ => cases hpc

/-- Only the store that closes the section changes the slot. -/
theorem Effect.localEpoch_eq (h : Effect m pc m' pc' ev) (hs : Sound owner inUse m p pc)
    (hactive : m.localEpoch tid ≠ inactive) (hev : ev ≠ some (.left tid)) :
    m'.localEpoch tid = m.localEpoch tid := by
  cases h with
  | regStore i => exact hs.elim
  | unregStore t => exact hs.elim
  | enterStore t epoch =>
      refine Mem.setEpoch_of_ne m ?_ epoch
      rintro rfl
      exact hactive hs.1.2.2
  | leaveStore t =>
      refine Mem.setEpoch_of_ne m ?_ inactive
      rintro rfl
      exact hev rfl
  | _ => rfl

/-- A scan gets past the slot only with the epoch published there. -/
theorem Effect.passed_le (h : Effect m pc m' pc' ev) (huse : m.inUse tid = true)
    (hactive : m.localEpoch tid ≠ inactive) (hpub : m.localEpoch tid ≤ g)
    (hscan : ∀ current, passed tid pc = some current → current ≤ g) {current : ℕ}
    (hpc' : passed tid pc' = some current) : current ≤ g := by
  -- past slot `i`, what matters is whether `i` was the slot or came later
  have hnext : ∀ {k i}, (tid < i → k ≤ g) → (tid = i → k ≤ g) →
      passed tid (scanNext k i : PC X) = some current → current ≤ g := by
    intro k i hlt heq hsome
    rw [passed_scanNext, Option.ite_none_right_eq_some, Option.some.injEq] at hsome
    obtain ⟨hle, rfl⟩ := hsome
    exact hle.lt_or_eq.elim hlt heq
  cases h with
  | stay => exact hscan current hpc'
  | start op =>
      rw [passed_start] at hpc'
      cases hpc'
  | scanUsed k i => exact hscan current hpc'
  | scanUnused k i hunused =>
      refine hnext (fun hlt => hscan k (by simp [passed, hlt])) ?_ hpc'
      rintro rfl
      rw [huse] at hunused
      cases hunused
  | scanPass k i hpass =>
      refine hnext (fun hlt => hscan k (by simp [passed, hlt])) ?_ hpc'
      rintro rfl
      exact (hpass.resolve_left hactive) ▸ hpub
  | advLoad => simp [passed] at hpc'
  | _ => cases hpc'

/-- The store that opens a section pins the global epoch. -/
theorem Inv.pinned {c : Config ι (Mem X) (PC X)} {H : List (ι × Event X)} [DecidableEq ι]
    (h : Inv owner inUse c H) (hG : c.mem.globalEpoch < inactive)
    (he : Effect c.mem (c.pc p) m' pc' (some (.entered tid))) :
    Pinned tid c.mem.globalEpoch ⟨m', Function.update c.pc p pc'⟩ := by
  obtain ⟨epoch, hpc, rfl, rfl⟩ := he.of_entered
  have hepoch : epoch ≤ c.mem.globalEpoch := by
    have hs := h.sound p
    rw [hpc] at hs
    exact hs.2
  refine ⟨?_, ?_, Nat.le_succ _, fun q current hq => ?_⟩
  · show (c.mem.setEpoch tid epoch).localEpoch tid ≠ inactive
    rw [Mem.setEpoch_self]
    exact (Nat.lt_of_le_of_lt hepoch hG).ne
  · show (c.mem.setEpoch tid epoch).localEpoch tid ≤ _
    rw [Mem.setEpoch_self]
    exact hepoch
  · change passed tid (Function.update c.pc p .idle q) = some current at hq
    by_cases hqp : q = p
    · subst hqp
      simp [passed] at hq
    · rw [Function.update_of_ne hqp] at hq
      exact (h.sound q).passed_le hq

/-- Until the section is closed the epoch stays pinned. -/
theorem Pinned.step {c : Config ι (Mem X) (PC X)} {H : List (ι × Event X)} [DecidableEq ι]
    (h : Pinned tid g c) (hinv : Inv owner inUse c H) (huse : inUse tid = true)
    (hG : c.mem.globalEpoch < inactive) (he : Effect c.mem (c.pc p) m' pc' ev)
    (hev : ev ≠ some (.left tid)) : Pinned tid g ⟨m', Function.update c.pc p pc'⟩ := by
  have hlocal := he.localEpoch_eq (hinv.sound p) h.active hev
  refine ⟨hlocal.trans_ne h.active, hlocal.trans_le h.published, ?_, fun q current hq => ?_⟩
  · show m'.globalEpoch ≤ g + 1
    generalize hpc : c.pc p = pc at he
    cases he with
    | casWin =>
        rw [wrap_epoch hG]
        exact Nat.succ_le_succ (h.scans p _ (by rw [hpc]; rfl))
    | _ => exact h.global
  · change passed tid (Function.update c.pc p pc' q) = some current at hq
    by_cases hqp : q = p
    · subst hqp
      rw [Function.update_self] at hq
      exact he.passed_le (hinv.used ▸ huse) h.active h.published (h.scans q) hq
    · rw [Function.update_of_ne hqp] at hq
      exact h.scans q current hq

end Pinned

/-! ## Runs -/

section Run

variable [DecidableEq ι] {owner : Fin maxThreads → ι} {inUse : Fin maxThreads → Bool}
  {sched : ℕ → ι × Choice (Op X)} {n : ℕ}

omit [DecidableEq ι] in
theorem Inv.sound_of_lawful {c : Config ι (Mem X) (PC X)} {H : List (ι × Event X)}
    {a : ι × Choice (Op X)} (h : Inv owner inUse c H) (hlaw : Lawful owner inUse c H a)
    (hidle : c.pc a.1 = .idle) :
    Sound owner inUse c.mem a.1 (prog c.mem (c.pc a.1) a.2).pc := by
  have hlegal := hlaw.2 hidle
  rw [hidle]
  cases hch : a.2 with
  | call op =>
      rw [hch] at hlegal
      exact sound_start hlegal h.active
  | go => trivial
  | fault => trivial

variable (hlaw : ∀ i, i < n → Lawful owner inUse ((system ι inUse).run sched i)
  ((system ι inUse).history sched i) (sched i))

include hlaw

theorem inv_run {i : ℕ} (hi : i ≤ n) :
    Inv owner inUse ((system ι inUse).run sched i) ((system ι inUse).history sched i) := by
  refine (system ι inUse).invariant_of_guard ?_ (fun c H a hg h => ?_)
    fun j hj => hlaw j (Nat.lt_of_lt_of_le hj hi)
  · exact ⟨rfl, fun tid htid => absurd rfl htid, fun _ => trivial⟩
  · exact h.step hg.1 (prog_effect c.mem (c.pc a.1) a.2) (h.sound_of_lawful hg)

theorem globalEpoch_mono {i j : ℕ} (hij : i ≤ j) (hj : j ≤ n) :
    ((system ι inUse).run sched i).mem.globalEpoch
      ≤ ((system ι inUse).run sched j).mem.globalEpoch := by
  refine (system ι inUse).run_mono (f := fun c => c.mem.globalEpoch) (fun k hk => ?_) hij hj
  exact (prog_effect _ _ (sched k).2).globalEpoch_le (hlaw k hk).1

/-- The events of a section are those of the thread that owns its slot. -/
theorem owner_of_entered {e : ℕ} (he : e ≤ n) {T : ι} {tid : Fin maxThreads}
    (henter : (system ι inUse).Fires sched e T (.entered tid)) :
    inUse tid = true ∧ T = owner tid := by
  obtain ⟨epoch, hpc, -⟩ := ((system ι inUse).effect_of_fires prog_effect henter).of_entered
  have hs := (inv_run hlaw he).sound T
  rw [hpc] at hs
  exact ⟨hs.1.1, hs.1.2.1⟩

theorem owner_of_left {l : ℕ} (hl : l ≤ n) {q : ι} {tid : Fin maxThreads}
    (hleft : (system ι inUse).Fires sched l q (.left tid)) : q = owner tid := by
  have hpc := ((system ι inUse).effect_of_fires prog_effect hleft).of_left
  have hs := (inv_run hlaw hl).sound q
  rw [hpc] at hs
  exact hs

/-- An open section keeps the global epoch pinned as long as it is open. -/
theorem pinned_run {e k : ℕ} {T : ι} {tid : Fin maxThreads}
    (henter : (system ι inUse).Fires sched e T (.entered tid)) (hek : e < k) (hk : k ≤ n)
    (hopen : ∀ l, e < l → l < k → ¬ (system ι inUse).Fires sched l T (.left tid)) :
    Pinned tid ((system ι inUse).run sched e).mem.globalEpoch
      ((system ι inUse).run sched k) := by
  obtain ⟨huse, hT⟩ := owner_of_entered hlaw (by omega) henter
  induction k, Nat.succ_le_of_lt hek using Nat.le_induction with
  | base =>
      obtain ⟨rfl, hev⟩ := henter
      refine (inv_run hlaw (by omega)).pinned (hlaw e (by omega)).1 ?_
      rw [← hev]
      exact prog_effect _ _ (sched e).2
  | succ k hek' ih =>
      have hpin := ih hek' (by omega) fun l hel hlk => hopen l hel (by omega)
      refine hpin.step (inv_run hlaw (by omega)) huse (hlaw k (by omega)).1
        (prog_effect _ _ (sched k).2) fun hleft => ?_
      have hfires : (system ι inUse).Fires sched k (sched k).1 (.left tid) := ⟨rfl, hleft⟩
      refine hopen k hek' (Nat.lt_succ_self k) ?_
      rwa [owner_of_left hlaw (by omega) hfires, ← hT] at hfires

end Run

/-- **The epoch advance bound.** In every run of threads that keep to their
own slots the global epoch never decreases; and if a section is opened, with
whatever epoch its thread has read, when the global epoch is `g`, then as
long as the section is open the global epoch is at most `g + 1`. -/
theorem epoch_advance_bound [DecidableEq ι] (owner : Fin maxThreads → ι)
    (inUse : Fin maxThreads → Bool) (sched : ℕ → ι × Choice (Op X)) (n : ℕ)
    (hlaw : ∀ i, i < n → Lawful owner inUse ((system ι inUse).run sched i)
      ((system ι inUse).history sched i) (sched i)) :
    (∀ i j, i ≤ j → j ≤ n → ((system ι inUse).run sched i).mem.globalEpoch
        ≤ ((system ι inUse).run sched j).mem.globalEpoch)
      ∧ ∀ e T tid k, (system ι inUse).Fires sched e T (.entered tid) → e < k → k ≤ n →
        (∀ l, e < l → l < k → ¬ (system ι inUse).Fires sched l T (.left tid)) →
        ((system ι inUse).run sched k).mem.globalEpoch
          ≤ ((system ι inUse).run sched e).mem.globalEpoch + 1 :=
  ⟨fun _ _ hij hj => globalEpoch_mono hlaw hij hj,
    fun _ _ _ _ henter hek hk hopen => (pinned_run hlaw henter hek hk hopen).global⟩

/-- The slot registered in the runs below. -/
def slotZero : Fin maxThreads → Bool := fun tid => tid = 0

/-- A section is opened behind a scan that has passed its slot. The scan
still advances the epoch; the next one stops at the slot. -/
def enterBehindScan : ℕ → Bool × Choice (Op ℕ) := fun i =>
  if i = 0 then (false, .call (.enterCritical 0))
  else if i = 1 ∨ i = 8 then (false, .go)
  else if i = 2 then (true, .call (.retire 7))
  else if i = 75 then (true, .call (.retire 8))
  else (true, .go)

theorem epoch_advance_bound_enterBehindScan :
    ((system Bool slotZero).Fires enterBehindScan 8 false (.entered 0)
      ∧ (system Bool slotZero).Fires enterBehindScan 72 true (.advanced 1)
      ∧ ((system Bool slotZero).run enterBehindScan 80).pc true = .scanEpoch 1 0
      ∧ ((system Bool slotZero).run enterBehindScan 81).pc true = .idle)
      ∧ ((system Bool slotZero).run enterBehindScan 81).mem.globalEpoch
        ≤ ((system Bool slotZero).run enterBehindScan 8).mem.globalEpoch + 1 := by
  have hopen : ∀ l, l < 81 →
      ¬ (system Bool slotZero).Fires enterBehindScan l false (.left 0) := by
    decide +kernel
  have h := epoch_advance_bound (fun _ => false) slotZero enterBehindScan 81
    (by decide +kernel)
  exact ⟨by decide +kernel, h.2 8 false 0 81 (by decide +kernel) (by decide) (by decide)
    fun l _ hl => hopen l hl⟩

end Epoch

end Lockless
