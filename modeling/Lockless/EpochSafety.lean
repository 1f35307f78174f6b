import Lockless.EpochBound
import Lockless.EpochObjects

/-!
# Critical sections and the deletion of objects

An object retired while a section is open must not be deleted before the
section's thread leaves. The thread that has advanced the global epoch
empties, some steps later, the list of the new epoch's index. It means to
delete what was retired three epochs earlier, which by the bound on the
epoch no open section can have seen. But the list is also the one that
objects retired in the new epoch go into, and an object appended between the
advance and the swap is deleted at once.

In a run in which no object is appended to such a list the argument goes
through: every object is in a list for an epoch that the swaps still to come
have left behind by a full turn.
-/

namespace Lockless

namespace Epoch

variable {ι X : Type*}

/-! ## Stating it -/

/-- At tick `i` thread `T` calls `leave_critical(tid)`. -/
def Leaves [DecidableEq ι] (S : System ι (Mem X) (PC X) (Choice (Op X)) (Event X))
    (sched : ℕ → ι × Choice (Op X)) (i : ℕ) (T : ι) (tid : Fin maxThreads) : Prop :=
  sched i = (T, .call (.leaveCritical tid)) ∧ (S.run sched i).pc T = .idle

/-- An object whose retirement begins while a section is open is not deleted
before the section's thread calls `leave_critical`. -/
def SectionsRespected [DecidableEq ι]
    (S : System ι (Mem X) (PC X) (Choice (Op X)) (Event X))
    (sched : ℕ → ι × Choice (Op X)) (n : ℕ) : Prop :=
  ∀ e T tid s r x d q, S.Fires sched e T (.entered tid) → e < s →
    (∀ l, e < l → l < s → ¬ Leaves S sched l T tid) → S.Fires sched s r (.retiring x) →
    S.Fires sched d q (.deleted x) → s < d → d < n →
    ∃ l, s < l ∧ l < d ∧ Leaves S sched l T tid

/-- The epoch whose list a thread that has advanced to it is about to
empty. -/
def PC.swapping : PC X → Option ℕ
  | .swap newEpoch => some newEpoch
  | _ => none

/-- The epoch under which a step appends an object. -/
def appending : PC X → Choice (Op X) → Option ℕ
  | .retireAppend _ epoch, .go => some epoch
  | _, _ => none

/-- The threads that have still to empty the list of `epoch` have advanced
past it, and so by a full turn at least. -/
def Clear (c : Config ι (Mem X) (PC X)) (epoch : ℕ) : Prop :=
  ∀ q, ∀ newEpoch ∈ (c.pc q).swapping, listIndex newEpoch = listIndex epoch →
    epoch < newEpoch

instance [Fintype ι] (c : Config ι (Mem X) (PC X)) (epoch : ℕ) :
    Decidable (Clear c epoch) :=
  inferInstanceAs (Decidable (∀ q, ∀ newEpoch ∈ (c.pc q).swapping, _))

/-- If the step appends an object, it does so to a list that is clear. -/
def Unclaimed (c : Config ι (Mem X) (PC X)) (a : ι × Choice (Op X)) : Prop :=
  ∀ epoch ∈ appending (c.pc a.1) a.2, Clear c epoch

instance [Fintype ι] (c : Config ι (Mem X) (PC X)) (a : ι × Choice (Op X)) :
    Decidable (Unclaimed c a) :=
  inferInstanceAs (Decidable (∀ epoch ∈ appending (c.pc a.1) a.2, _))

/-! ## The age of an object -/

/-- Object `x` was retired when the global epoch was `g`: it is appended
under an epoch from `g` on, waits in a list that is clear, and is handed to
a thread for deletion three epochs later. -/
structure Aged (x : X) (g : ℕ) (c : Config ι (Mem X) (PC X)) : Prop where
  reached : g ≤ c.mem.globalEpoch
  caller : ∀ p epoch, c.pc p = .retireAppend x epoch → g ≤ epoch
  list : ∀ i, x ∈ c.mem.retireLists i → ∃ epoch, listIndex epoch = i ∧ g ≤ epoch
    ∧ epoch ≤ c.mem.globalEpoch ∧ Clear c epoch
  free : ∀ p, x ∈ (c.pc p).toFree → g + 3 ≤ c.mem.globalEpoch

theorem add_three_le {epoch newEpoch : ℕ} (h : listIndex newEpoch = listIndex epoch)
    (hlt : epoch < newEpoch) : epoch + 3 ≤ newEpoch := by
  have hmod : newEpoch % 3 = epoch % 3 := congrArg Fin.val h
  omega

section Effect

variable {m m' : Mem X} {pc pc' : PC X} {ev : Option (Event X)} {x : X}

theorem Effect.swapping (h : Effect m pc m' pc' ev) {newEpoch : ℕ}
    (hpc' : newEpoch ∈ pc'.swapping) :
    newEpoch ∈ pc.swapping ∨ newEpoch = wrap 64 (m.globalEpoch + 1) := by
  have hnext : ∀ {k i}, newEpoch ∉ (scanNext k i : PC X).swapping := by
    intro k i
    unfold scanNext
    split_ifs <;> nofun
  cases h with
  | stay => exact Or.inl hpc'
  | start op =>
      cases op with
      | unregisterThread tid =>
          obtain h | ⟨t, h⟩ := start_unregister (X := X) tid <;> rw [h] at hpc' <;>
            cases hpc'
      | _ => cases hpc'
  | scanUnused k i => exact absurd hpc' hnext
  | scanPass k i => exact absurd hpc' hnext
  | casWin => exact Or.inr (Option.some.inj hpc').symm
  | _ => cases hpc'

theorem Effect.loaded (h : Effect m pc m' pc' ev) {epoch : ℕ}
    (hpc' : pc' = .retireAppend x epoch) :
    pc = .retireAppend x epoch ∨ epoch = m.globalEpoch := by
  have hnext : ∀ {k i}, (scanNext k i : PC X) ≠ .retireAppend x epoch := by
    intro k i
    unfold scanNext
    split_ifs <;> nofun
  cases h with
  | stay => exact Or.inl hpc'
  | start op =>
      cases op with
      | unregisterThread tid =>
          obtain h | ⟨t, h⟩ := start_unregister (X := X) tid <;> rw [h] at hpc' <;>
            cases hpc'
      | _ => cases hpc'
  | retireLoad y =>
      cases hpc'
      exact Or.inr rfl
  | scanUnused k i => exact absurd hpc' hnext
  | scanPass k i => exact absurd hpc' hnext
  | _ => cases hpc'

/-- An object gets into a list by being appended. -/
theorem Effect.mem_list (h : Effect m pc m' pc' ev) {i : Fin 3}
    (hx : x ∈ m'.retireLists i) :
    x ∈ m.retireLists i ∨ ∃ epoch, listIndex epoch = i ∧ pc = .retireAppend x epoch
      ∧ ev = some (.appended x epoch) := by
  cases h with
  | retireAppend y epoch =>
      by_cases hi : i = listIndex epoch
      · subst hi
        rw [Mem.setList_self, List.mem_append, List.mem_singleton] at hx
        rcases hx with hx | rfl
        · exact Or.inl hx
        · exact Or.inr ⟨epoch, rfl, rfl, rfl⟩
      · rw [Mem.setList_of_ne m hi] at hx
        exact Or.inl hx
  | swap newEpoch =>
      by_cases hi : i = listIndex newEpoch
      · subst hi
        rw [Mem.setList_self] at hx
        cases hx
      · rw [Mem.setList_of_ne m hi] at hx
        exact Or.inl hx
  | _ => exact Or.inl hx

/-- An object gets into a thread's vector by a swap. -/
theorem Effect.mem_toFree (h : Effect m pc m' pc' ev) (hx : x ∈ pc'.toFree) :
    x ∈ pc.toFree ∨ ∃ newEpoch, pc = .swap newEpoch
      ∧ x ∈ m.retireLists (listIndex newEpoch) := by
  cases h with
  | stay => exact Or.inl hx
  | start op =>
      cases op with
      | unregisterThread tid =>
          rw [toFree_unregister] at hx
          cases hx
      | _ => cases hx
  | scanUnused k i =>
      rw [toFree_scanNext] at hx
      cases hx
  | scanPass k i =>
      rw [toFree_scanNext] at hx
      cases hx
  | swap newEpoch => exact Or.inr ⟨newEpoch, rfl, hx⟩
  | free y rest => exact Or.inl (List.mem_cons_of_mem y hx)
  | _ => cases hx

end Effect

section Step

variable [DecidableEq ι] {owner : Fin maxThreads → ι} {inUse : Fin maxThreads → Bool}
  {c : Config ι (Mem X) (PC X)} {H : List (ι × Event X)} {p : ι} {m' : Mem X} {pc' : PC X}
  {ev : Option (Event X)} {x : X} {g : ℕ}

/-- A list that is clear stays so: whoever advances now advances further. -/
theorem Clear.step {epoch : ℕ} (h : Clear c epoch) (hG : c.mem.globalEpoch < inactive)
    (hle : epoch ≤ c.mem.globalEpoch) (he : Effect c.mem (c.pc p) m' pc' ev) :
    Clear ⟨m', Function.update c.pc p pc'⟩ epoch := by
  intro q newEpoch hq hi
  change newEpoch ∈ (Function.update c.pc p pc' q).swapping at hq
  by_cases hqp : q = p
  · subst hqp
    rw [Function.update_self] at hq
    rcases he.swapping hq with hold | rfl
    · exact h q newEpoch hold hi
    · rw [wrap_epoch hG]
      exact Nat.lt_succ_of_le hle
  · rw [Function.update_of_ne hqp] at hq
    exact h q newEpoch hq hi

theorem Aged.step (h : Aged x g c) (hinv : Inv owner inUse c H)
    (hG : c.mem.globalEpoch < inactive) (he : Effect c.mem (c.pc p) m' pc' ev)
    (hclear : ∀ epoch, ev = some (.appended x epoch) → Clear c epoch) :
    Aged x g ⟨m', Function.update c.pc p pc'⟩ := by
  have hmono := he.globalEpoch_le hG
  refine ⟨h.reached.trans hmono, fun q epoch hq => ?_, fun i hx => ?_, fun q hx => ?_⟩
  · change Function.update c.pc p pc' q = .retireAppend x epoch at hq
    by_cases hqp : q = p
    · subst hqp
      rw [Function.update_self] at hq
      rcases he.loaded hq with hold | rfl
      · exact h.caller q epoch hold
      · exact h.reached
    · rw [Function.update_of_ne hqp] at hq
      exact h.caller q epoch hq
  · rcases he.mem_list hx with hold | ⟨epoch, hi, hpc, hev⟩
    · obtain ⟨epoch, hi, hg, hle, hcl⟩ := h.list i hold
      exact ⟨epoch, hi, hg, hle.trans hmono, hcl.step hG hle he⟩
    · have hle : epoch ≤ c.mem.globalEpoch := by
        have hs := hinv.sound p
        rw [hpc] at hs
        exact hs
      exact ⟨epoch, hi, h.caller p epoch hpc, hle.trans hmono,
        (hclear epoch hev).step hG hle he⟩
  · change x ∈ (Function.update c.pc p pc' q).toFree at hx
    refine Nat.le_trans ?_ hmono
    by_cases hqp : q = p
    · subst hqp
      rw [Function.update_self] at hx
      rcases he.mem_toFree hx with hold | ⟨newEpoch, hpc, hlist⟩
      · exact h.free q hold
      · obtain ⟨epoch, hi, hg, -, hcl⟩ := h.list _ hlist
        have hlt := hcl q newEpoch (by rw [hpc]; rfl) hi.symm
        have hthree := add_three_le hi.symm hlt
        have hs := hinv.sound q
        rw [hpc] at hs
        exact (Nat.add_le_add_right hg 3).trans (hthree.trans hs)
    · rw [Function.update_of_ne hqp] at hx
      exact h.free q hx

/-- The call of `retire` starts the object's age, if it is nowhere yet. -/
theorem Accounted.aged (h : Accounted c H) (hx : x ∉ retired H)
    (he : Effect c.mem (c.pc p) m' pc' (some (.retiring x))) :
    Aged x c.mem.globalEpoch ⟨m', Function.update c.pc p pc'⟩ := by
  obtain ⟨-, rfl, rfl⟩ := he.of_retiring
  have hnone : ∀ k, x ∉ objects H c k := fun k hk => hx (h.custody.token hk)
  refine ⟨Nat.le_refl _, fun q epoch hq => ?_, fun i hi => ?_, fun q hq => ?_⟩
  · change Function.update c.pc p (.retireLoad x) q = .retireAppend x epoch at hq
    by_cases hqp : q = p
    · subst hqp
      rw [Function.update_self] at hq
      cases hq
    · rw [Function.update_of_ne hqp] at hq
      refine absurd ?_ (hnone (.caller q))
      simp [objects, hq, PC.retiring]
  · exact absurd hi (hnone (.list i))
  · change x ∈ (Function.update c.pc p (.retireLoad x) q).toFree at hq
    by_cases hqp : q = p
    · subst hqp
      rw [Function.update_self] at hq
      cases hq
    · rw [Function.update_of_ne hqp] at hq
      exact absurd hq (hnone (.toFree q))

end Step

/-! ## Runs -/

theorem appending_of_event {m : Mem X} {pc : PC X} {ch : Choice (Op X)} {x : X} {epoch : ℕ}
    (h : (prog m pc ch).event = some (.appended x epoch)) : epoch ∈ appending pc ch := by
  have he := prog_effect m pc ch
  rw [h] at he
  obtain rfl := he.of_appended
  cases ch with
  | go => rfl
  | call op => cases h
  | fault => cases h

section Run

variable [DecidableEq ι] {owner : Fin maxThreads → ι} {inUse : Fin maxThreads → Bool}
  {sched : ℕ → ι × Choice (Op X)} {n : ℕ}

/-- An idle thread that is at the store of `leave_critical` later has called
it in between. -/
theorem exists_leaves {a l : ℕ} (hal : a ≤ l) {T : ι} {tid : Fin maxThreads}
    (hidle : ((system ι inUse).run sched a).pc T = .idle)
    (hstore : ((system ι inUse).run sched l).pc T = .leaveStore tid) :
    ∃ j, a ≤ j ∧ j < l ∧ Leaves (system ι inUse) sched j T tid := by
  induction l, hal using Nat.le_induction with
  | base =>
      rw [hidle] at hstore
      cases hstore
  | succ l hal ih =>
      by_cases hT : T = (sched l).1
      · subst hT
        rw [System.run_succ, System.next_pc_self] at hstore
        rcases of_leaveStore hstore with hold | ⟨hpc, hch⟩
        · obtain ⟨j, haj, hjl, hj⟩ := ih hold
          exact ⟨j, haj, by omega, hj⟩
        · exact ⟨l, hal, Nat.lt_succ_self l, Prod.ext rfl hch, hpc⟩
      · rw [System.run_succ, System.next_pc_ne _ _ hT] at hstore
        obtain ⟨j, haj, hjl, hj⟩ := ih hstore
        exact ⟨j, haj, by omega, hj⟩

/-- From its retirement on an object ages with the global epoch. -/
theorem aged_run
    (hlaw : ∀ i, i < n → Lawful owner inUse ((system ι inUse).run sched i)
      ((system ι inUse).history sched i) (sched i))
    (honce : (retired ((system ι inUse).history sched n)).Nodup)
    (hun : ∀ i, i < n → Unclaimed ((system ι inUse).run sched i) (sched i))
    {s k : ℕ} {r : ι} {x : X} (hretire : (system ι inUse).Fires sched s r (.retiring x))
    (hsk : s < k) (hk : k ≤ n) :
    Aged x ((system ι inUse).run sched s).mem.globalEpoch
      ((system ι inUse).run sched k) := by
  induction k, Nat.succ_le_of_lt hsk using Nat.le_induction with
  | base =>
      have hmono : ∀ i, i ≤ n → (retired ((system ι inUse).history sched i)).Nodup :=
        fun i hi => honce.sublist (retired_mono ((system ι inUse).history_mono sched hi))
      have hnew : x ∉ retired ((system ι inUse).history sched s) := by
        have hnd := hmono (s + 1) hk
        rw [System.history_succ, System.emitted_of_fires _ hretire, retired,
          List.filterMap_append] at hnd
        exact fun hx => List.disjoint_of_nodup_append hnd hx List.mem_cons_self
      obtain ⟨rfl, hev⟩ := hretire
      refine (accounted_run (hmono s (by omega))).aged hnew ?_
      rw [← hev]
      exact prog_effect _ _ (sched s).2
  | succ k hsk' ih =>
      refine (ih hsk' (by omega)).step (inv_run hlaw (by omega))
        (hlaw k (by omega)).1 (prog_effect _ _ (sched k).2) fun epoch hev => ?_
      exact hun k (by omega) epoch (appending_of_event hev)

end Run

/-- In every run in which no object is appended to a list that is about to be
emptied for its own epoch or an earlier one, critical sections are
respected. -/
theorem sectionsRespected_of_unclaimed [DecidableEq ι] (owner : Fin maxThreads → ι)
    (inUse : Fin maxThreads → Bool) (sched : ℕ → ι × Choice (Op X)) (n : ℕ)
    (hlaw : ∀ i, i < n → Lawful owner inUse ((system ι inUse).run sched i)
      ((system ι inUse).history sched i) (sched i))
    (honce : (retired ((system ι inUse).history sched n)).Nodup)
    (hun : ∀ i, i < n → Unclaimed ((system ι inUse).run sched i) (sched i)) :
    SectionsRespected (system ι inUse) sched n := by
  intro e T tid s r x d q henter hes hstay hretire hdelete hsd hdn
  by_contra hnone
  -- no call of `leave_critical`, hence no store of one, since the section was opened
  have hopen : ∀ l, e < l → l < d → ¬ (system ι inUse).Fires sched l T (.left tid) := by
    intro l hel hld hleft
    obtain ⟨-, -, hidle, -⟩ := ((system ι inUse).effect_of_fires prog_effect henter).of_entered
    have hstore := ((system ι inUse).effect_of_fires prog_effect hleft).of_left
    obtain ⟨j, hej, hjl, hj⟩ := exists_leaves hel hidle hstore
    rcases Nat.lt_trichotomy j s with hlt | rfl | hgt
    · exact hstay j hej hlt hj
    · have hev := hretire.2
      rw [System.outcome, hj.1, hj.2] at hev
      cases hev
    · exact hnone ⟨j, hgt, by omega, hj⟩
  have hpinned := pinned_run hlaw henter (by omega : e < d) (by omega) hopen
  have haged := aged_run hlaw honce hun hretire hsd (by omega)
  obtain ⟨rest, hpc⟩ := ((system ι inUse).effect_of_fires prog_effect hdelete).of_deleted
  have hthree := haged.free q (by rw [hpc]; exact List.mem_cons_self)
  have hone := hpinned.global
  have hreached := globalEpoch_mono hlaw (Nat.le_of_lt hes) (by omega)
  omega

/-- A thread retires three objects, the first while a section is open, and
deletes it during the third call, when the section has been left. -/
def leaveBetween : ℕ → Bool × Choice (Op ℕ) := fun i =>
  if i = 0 then (false, .call (.enterCritical 0))
  else if i < 3 then (false, .go)
  else if i = 3 then (true, .call (.retire 7))
  else if i = 75 then (false, .call (.leaveCritical 0))
  else if i = 76 then (false, .go)
  else if i = 77 then (true, .call (.retire 8))
  else if i = 149 then (true, .call (.retire 9))
  else (true, .go)

theorem sectionsRespected_of_unclaimed_leaveBetween :
    ((system Bool slotZero).Fires leaveBetween 2 false (.entered 0)
      ∧ (system Bool slotZero).Fires leaveBetween 3 true (.retiring 7)
      ∧ (system Bool slotZero).Fires leaveBetween 76 false (.left 0)
      ∧ (system Bool slotZero).Fires leaveBetween 220 true (.deleted 7))
      ∧ SectionsRespected (system Bool slotZero) leaveBetween 222 :=
  ⟨by decide +kernel, sectionsRespected_of_unclaimed (fun _ => false) slotZero leaveBetween
    222 (by decide +kernel) (by decide +kernel) (by decide +kernel)⟩

/-- The threads of the run below. -/
inductive Party where
  | reader
  | advancer
  | retirer
deriving DecidableEq

/-- The reader opens a section in epoch 0. The advancer retires an object,
advances to epoch 1 and stalls before its swap; the retirer retires another
object in epoch 1, into the list that the advancer then empties. -/
def retireBeforeSwap : ℕ → Party × Choice (Op ℕ) := fun i =>
  if i = 0 then (.reader, .call (.enterCritical 0))
  else if i < 3 then (.reader, .go)
  else if i = 3 then (.advancer, .call (.retire 7))
  else if i < 73 then (.advancer, .go)
  else if i = 73 then (.retirer, .call (.retire 8))
  else if i < 76 then (.retirer, .go)
  else (.advancer, .go)

/-- The second object is deleted with the section still open: the reader
takes no step after it has entered. -/
theorem not_sectionsRespected_retireBeforeSwap :
    ((∀ i, i < 78 → Lawful (fun _ => .reader) slotZero
        ((system Party slotZero).run retireBeforeSwap i)
        ((system Party slotZero).history retireBeforeSwap i) (retireBeforeSwap i))
      ∧ (retired ((system Party slotZero).history retireBeforeSwap 78)).Nodup)
      ∧ (system Party slotZero).Fires retireBeforeSwap 2 .reader (.entered 0)
      ∧ (∀ i, i < 78 → 2 < i → (retireBeforeSwap i).1 ≠ .reader)
      ∧ (system Party slotZero).Fires retireBeforeSwap 73 .retirer (.retiring 8)
      ∧ (system Party slotZero).Fires retireBeforeSwap 77 .advancer (.deleted 8)
      ∧ ¬ SectionsRespected (system Party slotZero) retireBeforeSwap 78 := by
  have hstay : ∀ i, i < 78 → 2 < i → (retireBeforeSwap i).1 ≠ .reader := by
    decide +kernel
  have henter : (system Party slotZero).Fires retireBeforeSwap 2 .reader (.entered 0) := by
    decide +kernel
  have hretire : (system Party slotZero).Fires retireBeforeSwap 73 .retirer
      (.retiring 8) := by
    decide +kernel
  have hdelete : (system Party slotZero).Fires retireBeforeSwap 77 .advancer
      (.deleted 8) := by
    decide +kernel
  have hnot : ∀ l, 2 < l → l < 78 →
      ¬ Leaves (system Party slotZero) retireBeforeSwap l .reader 0 := by
    intro l hl hl' hleave
    exact hstay l hl' hl (congrArg Prod.fst hleave.1)
  refine ⟨by decide +kernel, henter, hstay, hretire, hdelete, fun h => ?_⟩
  obtain ⟨l, hl, hl', hleave⟩ := h 2 .reader 0 73 .retirer 8 77 .advancer henter (by decide)
    (fun l hl hl' => hnot l hl (by omega)) hretire hdelete (by decide) (by decide)
  exact hnot l (by omega) (by omega) hleave

end Epoch

end Lockless
