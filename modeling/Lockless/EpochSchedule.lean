import Lockless.EpochCalls

/-!
# The schedule of reclamation

With the calls executed one after another, the three retire lists hold the
objects retired in the current epoch and in the two before it, each list those of
one epoch. An advance to the epoch `g + 1` empties the list of its index, which
holds what was retired in epoch `g - 2`. So an object retired in epoch `r` is
deleted in the call that moves the epoch from `r + 2` to `r + 3`.

An open section is at most one epoch behind, and keeps the epoch from moving on
twice. Without one every `retire` advances the epoch.
-/

namespace Lockless

namespace Epoch

variable {X : Type*}

/-! ## What the log says -/

abbrev Log (X : Type*) := List (Call (Mem X) (Op X) (Event X))

/-- The global epoch when the call is made. -/
def epochOf (k : Call (Mem X) (Op X) (Event X)) : ℕ := k.before.globalEpoch

/-- The object a call of `retire` is made for. -/
def Op.object : Op X → Option X
  | .retire x => some x
  | _ => none

def Event.asDeleted : Event X → Option X
  | .deleted x => some x
  | _ => none

/-- The objects retired in the epochs that satisfy `P`, oldest first. -/
def retiredWhen (P : ℕ → Prop) [DecidablePred P] (L : Log X) : List X :=
  L.filterMap fun k => if P (epochOf k) then k.op.object else none

/-- The objects retired while the global epoch was `r`. -/
def retiredAt (r : ℤ) (L : Log X) : List X := retiredWhen (fun epoch => (epoch : ℤ) = r) L

def retiredIn (L : Log X) : List X := L.filterMap fun k => k.op.object

/-- The objects whose deleters a call runs. -/
def deletedBy (k : Call (Mem X) (Op X) (Event X)) : List X :=
  k.events.filterMap Event.asDeleted

def deletedIn (L : Log X) : List X := L.flatMap deletedBy

/-- The section of a slot after a call: the epoch in which it was entered, if it
is open. -/
def sectionEpochAfter (tid : Fin maxThreads) (s : Option ℕ)
    (k : Call (Mem X) (Op X) (Event X)) : Option ℕ :=
  match k.op with
  | .enterCritical t => if t = tid then some (epochOf k) else s
  | .leaveCritical t => if t = tid then none else s
  | _ => s

def sectionEpoch (L : Log X) (tid : Fin maxThreads) : Option ℕ :=
  L.foldl (sectionEpochAfter tid) none

def Event.asRegistered : Event X → Option (Fin maxThreads)
  | .registered tid => some tid
  | _ => none

/-- Whether the id is registered after a call. -/
def registeredAfter (tid : Fin maxThreads) (b : Bool)
    (k : Call (Mem X) (Op X) (Event X)) : Bool :=
  match k.op with
  | .registerThread => if tid ∈ k.events.filterMap Event.asRegistered then true else b
  | .unregisterThread t => if t = tid.val then false else b
  | _ => b

def isRegistered (L : Log X) (tid : Fin maxThreads) : Bool :=
  L.foldl (registeredAfter tid) false

/-- The calls that may be made next: sections are entered with a registered id
that has none open, and closed before the id is given back. -/
def Permitted (L : Log X) : Op X → Prop
  | .unregisterThread t => ∀ tid : Fin maxThreads, t = tid.val → sectionEpoch L tid = none
  | .enterCritical tid => isRegistered L tid = true ∧ sectionEpoch L tid = none
  | _ => True

/-- The reclaimer as it is constructed. -/
def initMem : Mem X := ⟨0, fun _ => inactive, fun _ => false, fun _ => []⟩

/-- After the calls of `L`, executed one after another, the memory is `m`. The epoch
counter has not run out before any of them. -/
def Sequence (m : Mem X) (L : Log X) : Prop :=
  Serial prog .idle start (fun m L op => m.globalEpoch < inactive ∧ Permitted L op) initMem
    m L

section Concat

variable (L : Log X) (k : Call (Mem X) (Op X) (Event X))

theorem sectionEpoch_concat (tid : Fin maxThreads) :
    sectionEpoch (L ++ [k]) tid = sectionEpochAfter tid (sectionEpoch L tid) k := by
  simp [sectionEpoch]

theorem isRegistered_concat (tid : Fin maxThreads) :
    isRegistered (L ++ [k]) tid = registeredAfter tid (isRegistered L tid) k := by
  simp [isRegistered]

theorem retiredWhen_concat (P : ℕ → Prop) [DecidablePred P] :
    retiredWhen P (L ++ [k])
      = retiredWhen P L ++ (if P (epochOf k) then k.op.object else none).toList := by
  cases h : (if P (epochOf k) then k.op.object else none) <;>
    simp [retiredWhen, List.filterMap_append, h]

theorem deletedIn_concat : deletedIn (L ++ [k]) = deletedIn L ++ deletedBy k := by
  simp [deletedIn]

end Concat

/-! ## Slots and sections -/

structure Slots (m : Mem X) (L : Log X) : Prop where
  registered : ∀ tid, isRegistered L tid = m.inUse tid
  closed : ∀ {tid}, sectionEpoch L tid = none → m.localEpoch tid = inactive
  opened : ∀ {tid epoch}, sectionEpoch L tid = some epoch → m.localEpoch tid = epoch
    ∧ m.inUse tid = true ∧ epoch ≤ m.globalEpoch ∧ m.globalEpoch ≤ epoch + 1

section Slots

variable {m m' : Mem X} {L : Log X} {op : Op X} {evs : List (Event X)}

/-- The slots are the same, and so is what the log says of them. -/
theorem Slots.quiet (h : Slots m L) {k : Call (Mem X) (Op X) (Event X)}
    (huse : m'.inUse = m.inUse) (hlocal : m'.localEpoch = m.localEpoch)
    (hepoch : m'.globalEpoch = m.globalEpoch)
    (hreg : ∀ tid b, registeredAfter tid b k = b)
    (hsec : ∀ tid s, sectionEpochAfter tid s k = s) : Slots m' (L ++ [k]) := by
  refine ⟨fun tid => ?_, fun {tid} hs => ?_, fun {tid epoch} hs => ?_⟩
  · rw [isRegistered_concat, hreg, huse]
    exact h.registered tid
  · rw [sectionEpoch_concat, hsec] at hs
    rw [hlocal]
    exact h.closed hs
  · rw [sectionEpoch_concat, hsec] at hs
    rw [hlocal, huse, hepoch]
    exact h.opened hs

/-- A call that is about one slot only. -/
theorem Slots.of_slot (h : Slots m L) {k : Call (Mem X) (Op X) (Event X)}
    (tid : Fin maxThreads) (hepoch : m'.globalEpoch = m.globalEpoch)
    (huse : ∀ t, t ≠ tid → m'.inUse t = m.inUse t)
    (hlocal : ∀ t, t ≠ tid → m'.localEpoch t = m.localEpoch t)
    (hreg : ∀ t, t ≠ tid → ∀ b, registeredAfter t b k = b)
    (hsec : ∀ t, t ≠ tid → ∀ s, sectionEpochAfter t s k = s)
    (hreg' : registeredAfter tid (m.inUse tid) k = m'.inUse tid)
    (hsec' : (sectionEpochAfter tid (sectionEpoch L tid) k = none
        ∧ m'.localEpoch tid = inactive)
      ∨ (sectionEpochAfter tid (sectionEpoch L tid) k = some m.globalEpoch
        ∧ m'.localEpoch tid = m.globalEpoch ∧ m'.inUse tid = true)) :
    Slots m' (L ++ [k]) := by
  refine ⟨fun t => ?_, fun {t} hs => ?_, fun {t epoch} hs => ?_⟩
  · rw [isRegistered_concat, h.registered t]
    by_cases ht : t = tid
    · rw [ht, hreg']
    · rw [hreg t ht, huse t ht]
  · rw [sectionEpoch_concat] at hs
    by_cases ht : t = tid
    · subst ht
      rcases hsec' with ⟨-, hinactive⟩ | ⟨hsome, -⟩
      · exact hinactive
      · rw [hsome] at hs
        cases hs
    · rw [hsec t ht] at hs
      exact (hlocal t ht).trans (h.closed hs)
  · rw [sectionEpoch_concat] at hs
    by_cases ht : t = tid
    · subst ht
      rcases hsec' with ⟨hnone, -⟩ | ⟨hsome, hlocal', huse'⟩
      · rw [hnone] at hs
        cases hs
      · rw [hsome] at hs
        cases hs
        exact ⟨hlocal', huse', hepoch.ge, by omega⟩
    · rw [hsec t ht] at hs
      rw [hlocal t ht, huse t ht, hepoch]
      exact h.opened hs

theorem Slots.register (h : Slots m L) {i : Fin maxThreads} (hi : m.inUse i = false) :
    Slots ((m.setUse i true).setEpoch i inactive)
      (L ++ [⟨.registerThread, m, m', [.registered i]⟩]) := by
  have hfree : sectionEpoch L i = none := by
    by_contra hs
    obtain ⟨epoch, hs⟩ := Option.ne_none_iff_exists'.mp hs
    rw [(h.opened hs).2.1] at hi
    cases hi
  refine h.of_slot i rfl (fun _ ht => Function.update_of_ne ht _ _)
    (fun _ ht => Function.update_of_ne ht _ _) (fun t ht b => ?_) (fun _ _ _ => rfl) ?_
    (Or.inl ⟨hfree, Function.update_self _ _ _⟩)
  · simp [registeredAfter, Event.asRegistered, ht]
  · simp [registeredAfter, Event.asRegistered, Mem.setUse, Mem.setEpoch]

theorem Slots.unregister (h : Slots m L) {t : ℤ} {tid : Fin maxThreads} (ht : t = tid.val)
    (hclosed : sectionEpoch L tid = none) :
    Slots ((m.setEpoch tid inactive).setUse tid false)
      (L ++ [⟨.unregisterThread t, m, m', evs⟩]) := by
  refine h.of_slot tid rfl (fun _ ht => Function.update_of_ne ht _ _)
    (fun _ ht => Function.update_of_ne ht _ _) (fun t' ht' b => if_neg ?_) (fun _ _ _ => rfl)
    ?_ (Or.inl ⟨hclosed, Function.update_self _ _ _⟩)
  · rw [ht]
    exact fun he => ht' (Fin.ext (by exact_mod_cast he.symm))
  · simp [registeredAfter, ht, Mem.setUse]

theorem Slots.enter (h : Slots m L) {tid : Fin maxThreads}
    (hreg : isRegistered L tid = true) : Slots (m.setEpoch tid m.globalEpoch)
      (L ++ [⟨.enterCritical tid, m, m', evs⟩]) := by
  refine h.of_slot tid rfl (fun _ _ => rfl) (fun _ ht => Function.update_of_ne ht _ _)
    (fun _ _ _ => rfl) (fun _ ht _ => if_neg fun e => ht e.symm) rfl
    (Or.inr ⟨if_pos rfl, Function.update_self _ _ _, ?_⟩)
  rw [h.registered tid] at hreg
  exact hreg

theorem Slots.leave (h : Slots m L) {tid : Fin maxThreads} :
    Slots (m.setEpoch tid inactive) (L ++ [⟨.leaveCritical tid, m, m', evs⟩]) :=
  h.of_slot tid rfl (fun _ _ => rfl) (fun _ ht => Function.update_of_ne ht _ _)
    (fun _ _ _ => rfl) (fun _ ht _ => if_neg fun e => ht e.symm) rfl
    (Or.inl ⟨if_pos rfl, Function.update_self _ _ _⟩)

/-- The epoch advances only past sections of the current epoch. -/
theorem Slots.advance (h : Slots m L) {x : X} (hepoch : m.globalEpoch < inactive)
    (hobs : ∀ i, Observed m m.globalEpoch i) :
    Slots (m.append x).advance (L ++ [⟨.retire x, m, m', evs⟩]) := by
  refine ⟨fun tid => ?_, fun {tid} hs => ?_, fun {tid epoch} hs => ?_⟩
  · rw [isRegistered_concat]
    exact h.registered tid
  · rw [sectionEpoch_concat] at hs
    exact h.closed hs
  · rw [sectionEpoch_concat] at hs
    obtain ⟨hlocal, huse, hle, -⟩ := h.opened hs
    have hcur : epoch = m.globalEpoch := by
      rcases hobs tid huse with hinactive | hcur
      · rw [hlocal] at hinactive
        omega
      · exact hlocal.symm.trans hcur
    refine ⟨hlocal, huse, Nat.le_succ_of_le hle, ?_⟩
    rw [hcur]
    exact Nat.le_refl _

theorem Slots.step (h : Slots m L) (hepoch : m.globalEpoch < inactive)
    (hop : Permitted L op) (he : CallEffect m op m' evs) :
    Slots m' (L ++ [⟨op, m, m', evs⟩]) := by
  cases he with
  | registered i hi => exact h.register hi
  | noSlot =>
      refine h.quiet rfl rfl rfl (fun tid b => ?_) fun _ _ => rfl
      simp [registeredAfter, Event.asRegistered]
  | unregistered t tid ht => exact h.unregister ht (hop tid ht)
  | unregisterNone t ht => exact h.quiet rfl rfl rfl (fun tid b => if_neg (ht tid)) fun _ _ => rfl
  | entered tid => exact h.enter hop.1
  | left tid => exact h.leave
  | retired x i hi => exact h.quiet rfl rfl rfl (fun _ _ => rfl) fun _ _ => rfl
  | advanced x hobs => exact h.advance hepoch hobs

end Slots

/-! ## The retire lists -/

/-- The lists of the last three epochs, and the objects `D` deleted so far. -/
structure Lists (m : Mem X) (L : Log X) (D : List X) : Prop where
  epochs : ∀ k ∈ L, epochOf k ≤ m.globalEpoch
  lists : ∀ {i : Fin 3} {r : ℤ}, m.globalEpoch - 2 ≤ r → r ≤ m.globalEpoch → r % 3 = i.val →
    m.retireLists i = retiredAt r L
  freed : D.Perm (retiredWhen (fun epoch => epoch + 3 ≤ m.globalEpoch) L)

section Lists

variable {m m' : Mem X} {L : Log X} {D : List X} {k : Call (Mem X) (Op X) (Event X)}

theorem retiredWhen_perm (L : Log X) {P Q R : ℕ → Prop} [DecidablePred P] [DecidablePred Q]
    [DecidablePred R] (hR : ∀ e, R e ↔ P e ∨ Q e) (hdisj : ∀ e, P e → ¬ Q e) :
    (retiredWhen R L).Perm (retiredWhen P L ++ retiredWhen Q L) := by
  induction L using List.reverseRecOn with
  | nil => exact List.Perm.refl _
  | append_singleton L k ih =>
      simp only [retiredWhen_concat]
      by_cases hP : P (epochOf k)
      · have hQ := hdisj _ hP
        simp only [hR, hP, hQ, true_or, if_true, if_false, Option.toList_none, List.append_nil]
        exact (ih.append_right _).trans (by
          rw [List.append_assoc, List.append_assoc]
          exact List.perm_append_comm.append_left _)
      · simp only [hR, hP, false_or, if_false, Option.toList_none, List.append_nil]
        rw [← List.append_assoc]
        exact ih.append_right _

theorem retiredWhen_eq_nil {P : ℕ → Prop} [DecidablePred P]
    (h : ∀ k ∈ L, ¬ P (epochOf k)) : retiredWhen P L = [] := by
  rw [retiredWhen, List.filterMap_eq_nil_iff]
  exact fun k hk => if_neg (h k hk)

/-- A call that retires nothing. -/
theorem Lists.quiet (h : Lists m L D) (hk : k.before = m) (hobj : k.op.object = none)
    (hepoch : m'.globalEpoch = m.globalEpoch) (hlists : m'.retireLists = m.retireLists) :
    Lists m' (L ++ [k]) D := by
  have hsame : ∀ (P : ℕ → Prop) [DecidablePred P], retiredWhen P (L ++ [k]) = retiredWhen P L := by
    intro P _
    rw [retiredWhen_concat, hobj, ite_self, Option.toList_none, List.append_nil]
  refine ⟨fun l hl => ?_, fun {i r} hlo hhi hr => ?_, ?_⟩
  · rw [hepoch]
    rcases List.mem_append.mp hl with hl | hl
    · exact h.epochs l hl
    · rw [List.mem_singleton] at hl
      rw [hl, epochOf, hk]
  · rw [hepoch] at hlo hhi
    rw [hlists, retiredAt, hsame]
    exact h.lists hlo hhi hr
  · simp only [hsame, hepoch]
    exact h.freed

theorem listIndex_val (epoch : ℕ) : (listIndex epoch).val = epoch % 3 := rfl

/-- An object is retired. -/
theorem Lists.append (h : Lists m L D) {x : X} (hk : k.before = m) (hop : k.op = .retire x) :
    Lists (m.append x) (L ++ [k]) D := by
  have hobj : k.op.object = some x := by
    rw [hop]
    rfl
  have hepoch : epochOf k = m.globalEpoch := congrArg Mem.globalEpoch hk
  refine ⟨fun l hl => ?_, fun {i r} hlo hhi hr => ?_, ?_⟩
  · rcases List.mem_append.mp hl with hl | hl
    · exact h.epochs l hl
    · rw [List.mem_singleton] at hl
      exact (hl ▸ hepoch).le
  · rw [retiredAt, retiredWhen_concat, hepoch, hobj]
    by_cases hri : (m.globalEpoch : ℤ) = r
    · have hi : i = listIndex m.globalEpoch := by
        apply Fin.ext
        rw [listIndex_val]
        omega
      subst hi
      rw [if_pos hri]
      exact (Mem.setList_self _ _ _).trans (congrArg (· ++ [x]) (h.lists hlo hhi hr))
    · have hi : i ≠ listIndex m.globalEpoch := by
        rintro rfl
        rw [listIndex_val] at hr
        have hhi' : r ≤ m.globalEpoch := hhi
        have hlo' : (m.globalEpoch : ℤ) - 2 ≤ r := hlo
        omega
      rw [if_neg hri, Option.toList_none, List.append_nil]
      exact (Mem.setList_of_ne _ hi _).trans (h.lists hlo hhi hr)
  · have hnot : ¬ epochOf k + 3 ≤ (m.append x).globalEpoch := by
      rw [hepoch]
      exact Nat.not_le.mpr (Nat.lt_add_of_pos_right (by decide))
    rw [retiredWhen_concat, if_neg hnot, Option.toList_none, List.append_nil]
    exact h.freed

/-- The epoch advances, and the list of the new epoch's index is emptied. -/
theorem Lists.advance (h : Lists m L D) :
    Lists m.advance L (D ++ m.retireLists (listIndex (m.globalEpoch + 1))) := by
  have hepoch : m.advance.globalEpoch = m.globalEpoch + 1 := rfl
  refine ⟨fun l hl => Nat.le_succ_of_le (h.epochs l hl), fun {i r} hlo hhi hr => ?_, ?_⟩
  · rw [hepoch] at hlo hhi
    push_cast at hlo hhi
    by_cases hri : (m.globalEpoch : ℤ) + 1 = r
    · have hi : i = listIndex (m.globalEpoch + 1) := by
        apply Fin.ext
        rw [listIndex_val]
        omega
      subst hi
      refine (Mem.setList_self _ _ _).trans (retiredWhen_eq_nil fun l hl hlr => ?_).symm
      have hle := h.epochs l hl
      omega
    · have hi : i ≠ listIndex (m.globalEpoch + 1) := by
        rintro rfl
        rw [listIndex_val] at hr
        omega
      exact (Mem.setList_of_ne _ hi _).trans (h.lists (by omega) (by omega) hr)
  · have hold : m.retireLists (listIndex (m.globalEpoch + 1))
        = retiredAt (m.globalEpoch - 2) L := by
      refine h.lists (Int.le_refl _) (by omega) ?_
      rw [listIndex_val]
      omega
    rw [hold]
    refine (h.freed.append_right _).trans (retiredWhen_perm L (fun e => ?_) fun e he => ?_).symm
    · rw [hepoch]
      omega
    · omega

theorem deletedBy_retire {x : X} {epoch : ℕ} {evs : List (Event X)} {op : Op X} :
    deletedBy ⟨op, m, m', .appended x epoch :: evs⟩ = evs.filterMap Event.asDeleted := rfl

theorem filterMap_deleted (l : List X) :
    (l.map Event.deleted).filterMap Event.asDeleted = l := by
  induction l with
  | nil => rfl
  | cons x l ih => exact congrArg (x :: ·) ih

/-- What a call does to the lists and the epoch, and whose deleters it runs. -/
theorem Lists.step (h : Lists m L D) {op : Op X} {evs : List (Event X)}
    (he : CallEffect m op m' evs) :
    Lists m' (L ++ [⟨op, m, m', evs⟩]) (D ++ deletedBy ⟨op, m, m', evs⟩)
      ∧ ((m'.globalEpoch = m.globalEpoch ∧ deletedBy ⟨op, m, m', evs⟩ = [])
        ∨ (m'.globalEpoch = m.globalEpoch + 1
          ∧ deletedBy ⟨op, m, m', evs⟩ = retiredAt (m.globalEpoch - 2) L)) := by
  cases he with
  | retired x i hi =>
      rw [deletedBy_retire]
      simp only [List.filterMap_nil, List.append_nil, and_true]
      exact ⟨h.append rfl rfl, Or.inl rfl⟩
  | advanced x hobs =>
      have hold : m.retireLists (listIndex (m.globalEpoch + 1))
          = retiredAt (m.globalEpoch - 2) L := by
        refine h.lists (Int.le_refl _) (by omega) ?_
        rw [listIndex_val]
        omega
      have hlist : (m.append x).retireLists (listIndex (m.globalEpoch + 1))
          = m.retireLists (listIndex (m.globalEpoch + 1)) :=
        Mem.setList_of_ne m (listIndex_succ_ne _) _
      have hdel : deletedBy ⟨.retire x, m, (m.append x).advance,
          .appended x m.globalEpoch :: .advanced (m.globalEpoch + 1)
            :: (m.retireLists (listIndex (m.globalEpoch + 1))).map .deleted⟩
          = m.retireLists (listIndex (m.globalEpoch + 1)) :=
        filterMap_deleted _
      rw [hdel]
      refine ⟨?_, Or.inr ⟨rfl, hold⟩⟩
      rw [← hlist]
      exact (h.append rfl rfl).advance
  | _ =>
      refine ⟨?_, Or.inl ⟨rfl, rfl⟩⟩
      rw [show deletedBy _ = ([] : List X) from rfl, List.append_nil]
      exact h.quiet rfl rfl rfl rfl

end Lists

/-! ## Sequences of calls -/

section Sequence

variable {m : Mem X} {L L₁ L₂ : Log X} {k : Call (Mem X) (Op X) (Event X)}

theorem Sequence.scheduled (h : Sequence m L) : Slots m L ∧ Lists m L (deletedIn L) := by
  unfold Sequence at h
  induction h with
  | init =>
      refine ⟨⟨fun _ => rfl, fun _ => rfl, fun hs => by cases hs⟩, ?_, ?_, List.Perm.refl _⟩
      · intro k hk
        cases hk
      · intro i r _ _ _
        rfl
  | call _ hop hrun ih =>
      have he := callEffect_of_completes hop.1 hrun
      refine ⟨ih.1.step hop.1 hop.2 he, ?_⟩
      rw [deletedIn_concat]
      exact (ih.2.step he).1

/-- The calls of a sequence are made in a run of the system. -/
theorem Sequence.exists_run {ι : Type*} [DecidableEq ι] (h : Sequence m L) (p : ι) :
    ∃ sched n, (system ι fun _ => false).run sched n = ⟨m, fun _ => .idle⟩ :=
  System.exists_run_of_serial rfl (fun _ _ => ⟨rfl, rfl⟩) h p

/-- The sequence up to one of its calls, and what the call does. -/
theorem Sequence.of_call (h : Sequence m (L₁ ++ k :: L₂)) :
    Sequence k.before L₁ ∧ k.before.globalEpoch < inactive ∧ Permitted L₁ k.op
      ∧ CallEffect k.before k.op k.after k.events ∧ Sequence k.after (L₁ ++ [k]) := by
  have hk : Sequence k.after (L₁ ++ [k]) := Serial.of_append h
  obtain ⟨hbefore, hop, hrun, -⟩ := Serial.of_concat hk
  exact ⟨hbefore, hop.1, hop.2, callEffect_of_completes hop.1 hrun, hk⟩

theorem Sequence.moves (h : Sequence m (L₁ ++ k :: L₂)) :
    (k.after.globalEpoch = k.before.globalEpoch ∧ deletedBy k = [])
      ∨ (k.after.globalEpoch = k.before.globalEpoch + 1
        ∧ deletedBy k = retiredAt (k.before.globalEpoch - 2) L₁) := by
  obtain ⟨hbefore, -, -, he, -⟩ := h.of_call
  exact (hbefore.scheduled.2.step he).2

theorem Sequence.after_le (h : Sequence m L) :
    ∀ k ∈ L, k.after.globalEpoch ≤ m.globalEpoch := by
  intro k hk
  obtain ⟨L₁, L₂, rfl⟩ := List.append_of_mem hk
  clear hk
  induction L₂ using List.reverseRecOn generalizing m with
  | nil =>
      obtain ⟨-, -, -, hm⟩ := Serial.of_concat h
      rw [hm]
  | append_singleton L₂ l ih =>
      have hsplit : L₁ ++ k :: (L₂ ++ [l]) = (L₁ ++ k :: L₂) ++ [l] := by simp
      rw [hsplit] at h
      obtain ⟨hbefore, -, -, hm⟩ := Serial.of_concat h
      have hle := ih hbefore
      rw [← hm]
      rcases h.moves with ⟨heq, -⟩ | ⟨heq, -⟩ <;> omega

/-- A section stays open, with its epoch, until it is left. -/
theorem Sequence.section_kept {K : Log X} {tid : Fin maxThreads} {epoch : ℕ}
    (h : Sequence m (L₁ ++ K)) (hs : sectionEpoch L₁ tid = some epoch)
    (hK : ∀ l ∈ K, l.op ≠ .leaveCritical tid) :
    sectionEpoch (L₁ ++ K) tid = some epoch := by
  induction K using List.reverseRecOn generalizing m with
  | nil => rwa [List.append_nil]
  | append_singleton K l ih =>
      rw [← List.append_assoc] at h ⊢
      obtain ⟨hbefore, -, hop, -⟩ := h.of_call
      have hopen := ih hbefore fun l' hl' => hK l' (List.mem_append_left _ hl')
      have hl : l.op ≠ .leaveCritical tid := hK l (by simp)
      rw [sectionEpoch_concat, hopen, sectionEpochAfter]
      split
      · next t ht =>
          refine if_neg fun htid => ?_
          rw [ht, htid] at hop
          have hnone := hop.2
          rw [hopen] at hnone
          cases hnone
      · next t ht =>
          refine if_neg fun htid => hl ?_
          rw [ht, htid]
      · rfl

/-- A call of `retire` made while no section is open. -/
def RetiresFreely (L : Log X) (k : Call (Mem X) (Op X) (Event X)) : Prop :=
  (∃ x, k.op = .retire x) ∧ ∀ tid, sectionEpoch L tid = none

/-- It advances the epoch. -/
theorem Sequence.advances (h : Sequence m (L₁ ++ k :: L₂)) (hk : RetiresFreely L₁ k) :
    k.after.globalEpoch = k.before.globalEpoch + 1 := by
  obtain ⟨hbefore, -, -, he, -⟩ := h.of_call
  obtain ⟨⟨x, hop⟩, hnone⟩ := hk
  rw [hop] at he
  generalize k.after = m', k.events = evs at he ⊢
  cases he with
  | retired _ i hi => exact absurd (fun _ => Or.inl (hbefore.scheduled.1.closed (hnone i))) hi
  | advanced => rfl

theorem Sequence.lists_eq (h : Sequence m L) (i : Fin 3) :
    ∃ r : ℤ, (∀ s : ℤ, m.globalEpoch - 2 ≤ s ∧ s ≤ m.globalEpoch ∧ s % 3 = i.val ↔ s = r)
      ∧ m.retireLists i = retiredAt r L := by
  have hi := i.isLt
  refine ⟨m.globalEpoch - (m.globalEpoch - i.val) % 3, fun s => ?_, ?_⟩
  · constructor
    · rintro ⟨hlo, hhi, hs⟩
      omega
    · rintro rfl
      omega
  · exact h.scheduled.2.lists (by omega) (by omega) (by omega)

/-- A section that is open when an object is retired has been left when the epoch
has moved on by two. -/
theorem Sequence.exists_leave {L₃ : Log X} {k' : Call (Mem X) (Op X) (Event X)}
    {tid : Fin maxThreads} {epoch : ℕ} (h : Sequence m (L₁ ++ k :: L₂ ++ k' :: L₃))
    (hk : ∀ tid, k.op ≠ .leaveCritical tid) (hs : sectionEpoch L₁ tid = some epoch)
    (hk' : k'.before.globalEpoch = k.before.globalEpoch + 2) :
    ∃ l ∈ L₂, l.op = .leaveCritical tid := by
  by_contra hnone
  have hbefore' := h.of_call.1
  have hbefore := hbefore'.of_call.1
  have hopen := hbefore'.section_kept hs (by
    intro l hl hop
    rcases List.mem_cons.mp hl with rfl | hl
    · exact hk tid hop
    · exact hnone ⟨l, hl, hop⟩)
  have h1 := (hbefore.scheduled.1.opened hs).2.2.1
  have h2 := (hbefore'.scheduled.1.opened hopen).2.2.2
  omega

/-- Three calls of `retire` with no section open free what was retired before. -/
theorem Sequence.freed {k₁ k₂ k₃ : Call (Mem X) (Op X) (Event X)} {K₁ K₂ : Log X}
    (h : Sequence m (L₁ ++ k₁ :: K₁ ++ k₂ :: K₂ ++ k₃ :: L₂)) (h₁ : RetiresFreely L₁ k₁)
    (h₂ : RetiresFreely (L₁ ++ k₁ :: K₁) k₂)
    (h₃ : RetiresFreely (L₁ ++ k₁ :: K₁ ++ k₂ :: K₂) k₃) :
    (retiredIn L₁).Subperm (deletedIn (L₁ ++ k₁ :: K₁ ++ k₂ :: K₂ ++ [k₃])) := by
  obtain ⟨hseq₃, -, -, -, hafter⟩ := h.of_call
  obtain ⟨hseq₂, -⟩ := hseq₃.of_call
  obtain ⟨hseq₁, -⟩ := hseq₂.of_call
  have ha₁ := hseq₂.advances h₁
  have ha₂ := hseq₃.advances h₂
  have ha₃ := h.advances h₃
  have hle₂ := hseq₂.after_le k₁ (by simp)
  have hle₃ := hseq₃.after_le k₂ (by simp)
  have hold : ∀ l ∈ L₁, epochOf l + 3 ≤ k₃.after.globalEpoch := by
    intro l hl
    have hle := hseq₁.scheduled.2.epochs l hl
    omega
  have hsub : (retiredIn L₁).Sublist
      (retiredWhen (fun epoch => epoch + 3 ≤ k₃.after.globalEpoch)
        (L₁ ++ k₁ :: K₁ ++ k₂ :: K₂ ++ [k₃])) := by
    have hall : retiredWhen (fun epoch => epoch + 3 ≤ k₃.after.globalEpoch) L₁
        = retiredIn L₁ :=
      List.filterMap_congr fun l hl => if_pos (hold l hl)
    rw [← hall]
    simp only [List.append_assoc]
    exact (List.sublist_append_left _ _).filterMap _
  exact hsub.subperm.trans hafter.scheduled.2.freed.symm.subperm

end Sequence

/-- For every sequence of complete calls, executed one after another from the
constructor's state on:

1. the retire list `i` holds the objects retired while the global epoch was `r`,
   the one of the current epoch and the two before it with `r % 3 = i`;
2. a call that does not move the epoch runs no deleter, and one that moves it
   from `r + 2` to `r + 3` runs those of the objects retired in epoch `r`;
3. a section that was open when an object was retired in epoch `r` is left before
   the call that moves the epoch from `r + 2` to `r + 3`;
4. after three calls of `retire` made while no section was open, all objects
   retired before them have been deleted;
5. a further call returns. -/
theorem epoch_schedule {m : Mem X} {L : Log X} (h : Sequence m L) :
    (∀ i : Fin 3, ∃ r : ℤ,
      (∀ s : ℤ, m.globalEpoch - 2 ≤ s ∧ s ≤ m.globalEpoch ∧ s % 3 = i.val ↔ s = r)
        ∧ m.retireLists i = retiredAt r L)
    ∧ (∀ L₁ k L₂, L = L₁ ++ k :: L₂ →
      (k.after.globalEpoch = k.before.globalEpoch ∧ deletedBy k = [])
        ∨ (k.after.globalEpoch = k.before.globalEpoch + 1
          ∧ deletedBy k = retiredAt (k.before.globalEpoch - 2) L₁))
    ∧ (∀ L₁ k L₂ k' L₃ x tid epoch, L = L₁ ++ k :: L₂ ++ k' :: L₃ → k.op = .retire x →
      sectionEpoch L₁ tid = some epoch →
      k'.before.globalEpoch = k.before.globalEpoch + 2 →
      k'.after.globalEpoch = k.before.globalEpoch + 3 →
      ∃ l ∈ L₂, l.op = .leaveCritical tid)
    ∧ (∀ L₁ k₁ K₁ k₂ K₂ k₃ L₂, L = L₁ ++ k₁ :: K₁ ++ k₂ :: K₂ ++ k₃ :: L₂ →
      RetiresFreely L₁ k₁ → RetiresFreely (L₁ ++ k₁ :: K₁) k₂ →
      RetiresFreely (L₁ ++ k₁ :: K₁ ++ k₂ :: K₂) k₃ →
      (retiredIn L₁).Subperm (deletedIn (L₁ ++ k₁ :: K₁ ++ k₂ :: K₂ ++ [k₃])))
    ∧ ∀ op, m.globalEpoch < inactive → Permitted L op →
      ∃ m' evs, Completes prog .idle m (start op) m' evs
        ∧ Sequence m' (L ++ [⟨op, m, m', evs⟩]) := by
  refine ⟨h.lists_eq, ?_, ?_, ?_, ?_⟩
  · rintro L₁ k L₂ rfl
    exact h.moves
  · rintro L₁ k L₂ k' L₃ x tid epoch rfl hop hs hk' -
    refine h.exists_leave (fun t ht => ?_) hs hk'
    cases hop.symm.trans ht
  · rintro L₁ k₁ K₁ k₂ K₂ k₃ L₂ rfl h₁ h₂ h₃
    exact h.freed h₁ h₂ h₃
  · intro op hepoch hop
    obtain ⟨m', evs, hrun, -⟩ := exists_completes m op hepoch
    exact ⟨m', evs, hrun, .call h ⟨hepoch, hop⟩ hrun⟩

/-- An object is retired, and then three more. -/
theorem epoch_schedule_fourRetires : ∃ (m : Mem ℕ) (L : Log ℕ), Sequence m L
    ∧ L.map Call.op = [.retire 1, .retire 2, .retire 3, .retire 4]
    ∧ [1].Subperm (deletedIn L) := by
  obtain ⟨m₁, e₁, -, h₁⟩ := (epoch_schedule (X := ℕ) .init).2.2.2.2 (.retire 1)
    (by decide) trivial
  have hg₁ := (epoch_schedule h₁).2.1 [] _ [] rfl
  dsimp only at hg₁
  have hg₀ : (initMem : Mem ℕ).globalEpoch = 0 := rfl
  have hmax : inactive = 2 ^ 64 - 1 := rfl
  obtain ⟨m₂, e₂, -, h₂⟩ := (epoch_schedule h₁).2.2.2.2 (.retire 2) (by omega) trivial
  have hg₂ := (epoch_schedule h₂).2.1 _ _ [] rfl
  dsimp only at hg₂
  obtain ⟨m₃, e₃, -, h₃⟩ := (epoch_schedule h₂).2.2.2.2 (.retire 3) (by omega) trivial
  have hg₃ := (epoch_schedule h₃).2.1 _ _ [] rfl
  dsimp only at hg₃
  obtain ⟨m₄, e₄, -, h₄⟩ := (epoch_schedule h₃).2.2.2.2 (.retire 4) (by omega) trivial
  refine ⟨m₄, _, h₄, rfl, ?_⟩
  exact (epoch_schedule h₄).2.2.2.1 [⟨.retire 1, initMem, m₁, e₁⟩] ⟨.retire 2, m₁, m₂, e₂⟩ []
    ⟨.retire 3, m₂, m₃, e₃⟩ [] ⟨.retire 4, m₃, m₄, e₄⟩ [] rfl ⟨⟨2, rfl⟩, fun _ => rfl⟩
    ⟨⟨3, rfl⟩, fun _ => rfl⟩ ⟨⟨4, rfl⟩, fun _ => rfl⟩

end Epoch

end Lockless
