import Lockless.Epoch
import Lockless.EpochBound
import Lockless.Serial

/-!
# The calls of the epoch reclaimer, each run alone

What a call does when no other thread moves before it returns. Every call
returns: the scans of `register_thread` and `try_advance` end after the last
slot, and `try_advance` runs as many deleters as there are objects in the list
it has taken over.
-/

namespace Lockless

namespace Epoch

variable {X : Type*}

/-- Every slot in use that is active is in the epoch. -/
def Observed (m : Mem X) (epoch : ℕ) (i : Fin maxThreads) : Prop :=
  m.inUse i = true → m.localEpoch i = inactive ∨ m.localEpoch i = epoch

instance (m : Mem X) (epoch : ℕ) (i : Fin maxThreads) : Decidable (Observed m epoch i) :=
  inferInstanceAs (Decidable (_ → _))

/-- The memory after the append of `retire`. -/
def Mem.append (m : Mem X) (x : X) : Mem X :=
  m.setList (listIndex m.globalEpoch) (m.retireLists (listIndex m.globalEpoch) ++ [x])

/-- The memory after an advance and the swap that follows it. -/
def Mem.advance (m : Mem X) : Mem X :=
  ({ m with globalEpoch := m.globalEpoch + 1 } : Mem X).setList
    (listIndex (m.globalEpoch + 1)) []

/-- The calls, one constructor per outcome. -/
inductive CallEffect (m : Mem X) : Op X → Mem X → List (Event X) → Prop
  | registered (i) (h : m.inUse i = false) :
      CallEffect m .registerThread ((m.setUse i true).setEpoch i inactive) [.registered i]
  | noSlot : CallEffect m .registerThread m [.noSlot]
  | unregistered (t : ℤ) (tid : Fin maxThreads) (h : t = tid.val) :
      CallEffect m (.unregisterThread t) ((m.setEpoch tid inactive).setUse tid false) []
  | unregisterNone (t : ℤ) (h : ∀ tid : Fin maxThreads, t ≠ tid.val) :
      CallEffect m (.unregisterThread t) m []
  | entered (tid) :
      CallEffect m (.enterCritical tid) (m.setEpoch tid m.globalEpoch) [.entered tid]
  | left (tid) : CallEffect m (.leaveCritical tid) (m.setEpoch tid inactive) [.left tid]
  | retired (x) (i) (h : ¬ Observed m m.globalEpoch i) :
      CallEffect m (.retire x) (m.append x) [.appended x m.globalEpoch]
  | advanced (x) (h : ∀ i, Observed m m.globalEpoch i) :
      CallEffect m (.retire x) (m.append x).advance
        (.appended x m.globalEpoch :: .advanced (m.globalEpoch + 1)
          :: (m.retireLists (listIndex (m.globalEpoch + 1))).map .deleted)

/-! ## Registration -/

theorem completes_regTest (m : Mem X) (i : Fin maxThreads) :
    (∃ j, m.inUse j = false ∧ Completes prog .idle m (.regTest i)
        ((m.setUse j true).setEpoch j inactive) [.registered j])
      ∨ Completes prog .idle m (.regTest i) m [.noSlot] := by
  induction hk : maxThreads - i.val generalizing i with
  | zero =>
      have hlt := i.isLt
      omega
  | succ k ih =>
      have hne : (PC.regTest i : PC X) ≠ .idle := by simp
      cases huse : m.inUse i with
      | false =>
          have htest : prog m (.regTest i) .go = ⟨m, .regClaim i, none⟩ := by
            simp [prog, access, huse]
          refine Or.inl ⟨i, huse, .quiet hne htest ?_⟩
          exact .quiet (by simp) rfl (.emits (by simp) rfl (.done _))
      | true =>
          by_cases hi : i.val + 1 < maxThreads
          · have htest : prog m (.regTest i) .go
                = ⟨m, .regTest ⟨i.val + 1, hi⟩, none⟩ := by
              simp [prog, access, huse, hi]
            rcases ih ⟨i.val + 1, hi⟩ (by simp only; omega) with ⟨j, hj, hrun⟩ | hrun
            · exact Or.inl ⟨j, hj, .quiet hne htest hrun⟩
            · exact Or.inr (.quiet hne htest hrun)
          · have htest : prog m (.regTest i) .go = ⟨m, .idle, some .noSlot⟩ := by
              simp [prog, access, huse, hi]
            exact Or.inr (.emits hne htest (.done m))

/-! ## The advance -/

theorem completes_free (m : Mem X) (toFree : List X) :
    Completes prog .idle m (.free toFree) m (toFree.map .deleted) := by
  induction toFree with
  | nil => exact .quiet (by simp) rfl (.done m)
  | cons x rest ih => exact .emits (by simp) rfl ih

/-- From a slot that stops it nowhere, the scan goes on to the next one. -/
theorem completes_observed (m : Mem X) {current : ℕ} {i : Fin maxThreads} {m' : Mem X}
    {evs : List (Event X)} (h : Observed m current i)
    (hnext : Completes prog .idle m (scanNext current i) m' evs) :
    Completes prog .idle m (.scanUse current i) m' evs := by
  cases huse : m.inUse i with
  | false =>
      refine .quiet (by simp) ?_ hnext
      simp [prog, access, huse]
  | true =>
      have hread : prog m (.scanUse current i) .go = ⟨m, .scanEpoch current i, none⟩ := by
        simp [prog, access, huse]
      refine .quiet (by simp) hread (.quiet (by simp) ?_ hnext)
      have hpass : ¬ (m.localEpoch i ≠ inactive ∧ m.localEpoch i ≠ current) := by
        have := h huse
        tauto
      simp only [prog, access, if_neg hpass]

theorem completes_not_observed (m : Mem X) {current : ℕ} {i : Fin maxThreads}
    (h : ¬ Observed m current i) : Completes prog .idle m (.scanUse current i) m [] := by
  unfold Observed at h
  rw [Classical.not_imp, not_or] at h
  have hread : prog m (.scanUse current i) .go = ⟨m, .scanEpoch current i, none⟩ := by
    simp [prog, access, h.1]
  refine .quiet (by simp) hread (.quiet (by simp) ?_ (.done m))
  simp only [prog, access]
  exact if_pos h.2

/-- The scan ends with the compare-exchange if no slot stops it. -/
theorem completes_scan (m : Mem X) {current : ℕ} {m' : Mem X} {evs : List (Event X)}
    (hcas : Completes prog .idle m (.cas current) m' evs) (i : Fin maxThreads)
    (h : ∀ j, i ≤ j → Observed m current j) :
    Completes prog .idle m (.scanUse current i) m' evs := by
  induction hk : maxThreads - i.val generalizing i with
  | zero =>
      have hlt := i.isLt
      omega
  | succ k ih =>
      refine completes_observed m (h i (Nat.le_refl _)) ?_
      unfold scanNext
      split_ifs with hi
      · refine ih ⟨i.val + 1, hi⟩ (fun j hj => h j ?_) (by simp only; omega)
        have hle : i.val + 1 ≤ j.val := hj
        exact Nat.le_of_succ_le hle
      · exact hcas

theorem completes_scan_stopped (m : Mem X) {current : ℕ} (i : Fin maxThreads)
    (h : ∃ j, i ≤ j ∧ ¬ Observed m current j) :
    Completes prog .idle m (.scanUse current i) m [] := by
  induction hk : maxThreads - i.val generalizing i with
  | zero =>
      have hlt := i.isLt
      omega
  | succ k ih =>
      by_cases hobs : Observed m current i
      · obtain ⟨j, hij, hj⟩ := h
        have hne : i.val ≠ j.val := by
          intro he
          rw [Fin.ext he] at hobs
          exact hj hobs
        have hlt : i.val + 1 ≤ j.val := Nat.lt_of_le_of_ne hij hne
        refine completes_observed m hobs ?_
        unfold scanNext
        rw [dif_pos (Nat.lt_of_le_of_lt hlt j.isLt)]
        exact ih _ ⟨j, hlt, hj⟩ (by simp only; omega)
      · exact completes_not_observed m hobs

theorem completes_cas (m : Mem X) (hepoch : m.globalEpoch < inactive) :
    Completes prog .idle m (.cas m.globalEpoch) m.advance
      (.advanced (m.globalEpoch + 1)
        :: (m.retireLists (listIndex (m.globalEpoch + 1))).map .deleted) := by
  have hcas : prog m (.cas m.globalEpoch) .go
      = ⟨{ m with globalEpoch := m.globalEpoch + 1 }, .swap (m.globalEpoch + 1),
        some (.advanced (m.globalEpoch + 1))⟩ := by
    simp only [prog, access, if_true, wrap_epoch hepoch]
  refine .emits (by simp) hcas (.quiet (by simp) rfl ?_)
  exact completes_free _ _

/-! ## The calls -/

theorem listIndex_succ_ne (epoch : ℕ) : listIndex (epoch + 1) ≠ listIndex epoch := by
  intro h
  have hmod : (epoch + 1) % 3 = epoch % 3 := congrArg Fin.val h
  omega

theorem start_unregister_of_eq {t : ℤ} {tid : Fin maxThreads} (h : t = tid.val) :
    start (.unregisterThread t) = (.unregStore tid : PC X) := by
  have hlt := tid.isLt
  have hrange : 0 ≤ t ∧ t.toNat < maxThreads := by omega
  simp only [start, dif_pos hrange, PC.unregStore.injEq]
  exact Fin.ext (by simp [h])

theorem start_unregister_of_ne {t : ℤ} (h : ∀ tid : Fin maxThreads, t ≠ tid.val) :
    start (.unregisterThread t) = (.idle : PC X) := by
  simp only [start]
  split_ifs with hrange
  · exact absurd (Int.toNat_of_nonneg hrange.1).symm (h ⟨t.toNat, hrange.2⟩)
  · rfl

theorem exists_completes_unregister (m : Mem X) (t : ℤ) :
    ∃ m' evs, Completes prog .idle m (start (.unregisterThread t)) m' evs
      ∧ CallEffect m (.unregisterThread t) m' evs := by
  by_cases ht : ∃ tid : Fin maxThreads, t = tid.val
  · obtain ⟨tid, htid⟩ := ht
    refine ⟨_, _, ?_, .unregistered t tid htid⟩
    rw [start_unregister_of_eq htid]
    exact .quiet (by simp) rfl (.quiet (by simp) rfl (.done _))
  · rw [not_exists] at ht
    refine ⟨_, _, ?_, .unregisterNone t ht⟩
    rw [start_unregister_of_ne ht]
    exact .done m

theorem exists_completes_retire (m : Mem X) (x : X) (hepoch : m.globalEpoch < inactive) :
    ∃ m' evs, Completes prog .idle m (start (.retire x)) m' evs
      ∧ CallEffect m (.retire x) m' evs := by
  by_cases h : ∀ i, Observed m m.globalEpoch i
  · refine ⟨_, _, ?_, .advanced x h⟩
    refine .quiet (by simp [start]) rfl (.emits (by simp) rfl (.quiet (by simp) rfl ?_))
    have hlist : (m.append x).retireLists (listIndex (m.globalEpoch + 1))
        = m.retireLists (listIndex (m.globalEpoch + 1)) :=
      Mem.setList_of_ne m (listIndex_succ_ne _) _
    rw [← hlist]
    exact completes_scan (m.append x) (completes_cas (m.append x) hepoch) 0 fun j _ => h j
  · rw [not_forall] at h
    obtain ⟨i, hi⟩ := h
    refine ⟨_, _, ?_, .retired x i hi⟩
    refine .quiet (by simp [start]) rfl (.emits (by simp) rfl (.quiet (by simp) rfl ?_))
    exact completes_scan_stopped (m.append x) 0 ⟨i, Fin.zero_le i, hi⟩

/-- Every call returns. -/
theorem exists_completes (m : Mem X) (op : Op X) (hepoch : m.globalEpoch < inactive) :
    ∃ m' evs, Completes prog .idle m (start op) m' evs ∧ CallEffect m op m' evs := by
  cases op with
  | registerThread =>
      rcases completes_regTest m 0 with ⟨j, hj, hrun⟩ | hrun
      · exact ⟨_, _, hrun, .registered j hj⟩
      · exact ⟨_, _, hrun, .noSlot⟩
  | unregisterThread t => exact exists_completes_unregister m t
  | enterCritical tid =>
      exact ⟨_, _, .quiet (by simp [start]) rfl (.emits (by simp) rfl (.done _)),
        .entered tid⟩
  | leaveCritical tid =>
      exact ⟨_, _, .emits (by simp [start]) rfl (.done _), .left tid⟩
  | retire x => exact exists_completes_retire m x hepoch

theorem callEffect_of_completes {m m' : Mem X} {op : Op X} {evs : List (Event X)}
    (hepoch : m.globalEpoch < inactive) (h : Completes prog .idle m (start op) m' evs) :
    CallEffect m op m' evs := by
  obtain ⟨m'', evs', hrun, heff⟩ := exists_completes m op hepoch
  obtain ⟨rfl, rfl⟩ := h.unique hrun
  exact heff

end Epoch

end Lockless
