import Lockless.EpochObjects
import Lockless.EpochSchedule

/-!
# The epoch reclaimer at rest

Threads register, enter and leave sections and retire objects at once, and then every call
has returned and every section is left. Some of the objects are still in the retire lists, by
then in lists that need not agree with the epochs they were retired in: a `retire` may have
read the epoch long before it appends, and a list may be appended to between an advance and
the swap that follows it.

None of this matters for what comes next. With no section open every `retire` advances the
epoch and empties the list of the new one, so the three lists are a pipeline: an object is
deleted by the third of the calls made from the one that retires it on, and whatever was in the
lists before is deleted by the first three.
-/

namespace Lockless

namespace Epoch

variable {ι X : Type*}

/-! ## The pipeline -/

/-- What is deleted by the next call, by the one after it, and by the one after that. -/
structure Generations (X : Type*) where
  oldest : List X
  previous : List X
  current : List X
deriving DecidableEq

/-- All objects, in the order in which they are deleted. -/
def Generations.all (g : Generations X) : List X := g.oldest ++ g.previous ++ g.current

/-- A call of `retire`, and the objects whose deleters it runs. -/
def pipeline (g : Generations X) (x : X) : Generations X × List X :=
  (⟨g.previous, g.current ++ [x], []⟩, g.oldest)

/-- What goes in comes out in order, or is still there. -/
theorem flatten_answers_pipeline (g : Generations X) (xs : List X) :
    (answers pipeline g xs).flatten ++ (stateAfter pipeline g xs).all = g.all ++ xs := by
  induction xs using List.reverseRecOn with
  | nil => exact (List.append_nil _).symm
  | append_singleton xs x ih =>
      have hcall : ∀ s : Generations X, (pipeline s x).2 ++ (pipeline s x).1.all
          = s.all ++ [x] := fun s => by simp [pipeline, Generations.all]
      calc (answers pipeline g (xs ++ [x])).flatten ++ (stateAfter pipeline g (xs ++ [x])).all
          = (answers pipeline g xs).flatten ++ ((pipeline (stateAfter pipeline g xs) x).2
              ++ (pipeline (stateAfter pipeline g xs) x).1.all) := by
            rw [answers_concat, stateAfter_concat, List.flatten_append, List.flatten_singleton,
              List.append_assoc]
        _ = (answers pipeline g xs).flatten ++ ((stateAfter pipeline g xs).all ++ [x]) := by
            rw [hcall]
        _ = g.all ++ (xs ++ [x]) := by
            rw [← List.append_assoc, ih, List.append_assoc]

/-- After three calls only the objects of the last two are there. -/
theorem stateAfter_pipeline (g : Generations X) {ys : List X} (hys : ys ≠ []) (x y : X) :
    stateAfter pipeline g (ys ++ [x, y]) = ⟨[x], [y], []⟩ := by
  obtain ⟨zs, z, rfl⟩ := List.eq_nil_or_concat ys |>.resolve_left hys
  have hsplit : zs.concat z ++ [x, y] = zs ++ [z] ++ [x] ++ [y] := by simp
  rw [hsplit]
  simp only [stateAfter_concat, pipeline, List.nil_append]

/-! ## The lists as a pipeline -/

/-- The retire lists, by the calls that empty them. -/
def generations (m : Mem X) : Generations X where
  oldest := m.retireLists (listIndex (m.globalEpoch + 1))
  previous := m.retireLists (listIndex (m.globalEpoch + 2))
  current := m.retireLists (listIndex m.globalEpoch)

/-- No section is open. -/
def Unentered (m : Mem X) : Prop := ∀ i, m.inUse i = true → m.localEpoch i = inactive

instance (m : Mem X) : Decidable (Unentered m) :=
  inferInstanceAs (Decidable (∀ _, _ → _))

/-- A call made alone while the epoch counter has not run out. -/
def Alone (m : Mem X) (pc : PC X) (m' : Mem X) (evs : List (Event X)) : Prop :=
  m.globalEpoch < inactive ∧ Completes prog .idle m pc m' evs

/-- The start of a call of `retire`. -/
def retireCall (x : X) : PC X := start (.retire x)

section Lists

variable {m m' : Mem X} {x : X} {evs : List (Event X)}

/-- What the destructor finds is what the pipeline has. -/
theorem destroy_perm (m : Mem X) : (destroy m).Perm (generations m).all := by
  have hdestroy : destroy m = m.retireLists 0 ++ m.retireLists 1 ++ m.retireLists 2 := by
    simp [destroy, List.finRange_succ]
  rw [hdestroy, Generations.all, generations]
  have hmod := Nat.mod_lt m.globalEpoch (Nat.succ_pos 2)
  have hindex : ∀ {epoch : ℕ} {i : Fin 3}, epoch % 3 = i.val → listIndex epoch = i :=
    fun h => Fin.ext h
  rcases (by omega : m.globalEpoch % 3 = 0 ∨ m.globalEpoch % 3 = 1 ∨ m.globalEpoch % 3 = 2)
    with h | h | h
  · rw [hindex (i := 0) h, hindex (i := 1) (by simp; omega), hindex (i := 2) (by simp; omega),
      List.append_assoc]
    exact List.perm_append_comm
  · rw [hindex (i := 1) h, hindex (i := 2) (by simp; omega), hindex (i := 0) (by simp; omega)]
    exact List.perm_append_comm.trans (by rw [List.append_assoc])
  · rw [hindex (i := 2) h, hindex (i := 0) (by simp; omega), hindex (i := 1) (by simp; omega)]

theorem Unentered.observed (h : Unentered m) (i : Fin maxThreads) :
    Observed m m.globalEpoch i :=
  fun huse => Or.inl (h i huse)

/-- With no section open a call of `retire` is one of the pipeline. -/
theorem Alone.retire (hrun : Alone m (retireCall x) m' evs) (h : Unentered m) :
    Unentered m' ∧ m'.globalEpoch = m.globalEpoch + 1
      ∧ generations m' = (pipeline (generations m) x).1
      ∧ evs.filterMap Event.asDeleted = (pipeline (generations m) x).2 := by
  obtain ⟨hepoch, hrun⟩ := hrun
  have heff := callEffect_of_completes hepoch hrun
  cases heff with
  | retired _ i hi => exact absurd (h.observed i) hi
  | advanced _ _ =>
      have hnew : (m.append x).advance.globalEpoch = m.globalEpoch + 1 := rfl
      have hsecond : listIndex (m.globalEpoch + 2) ≠ listIndex m.globalEpoch := by
        intro heq
        have hmod : (m.globalEpoch + 2) % 3 = m.globalEpoch % 3 := congrArg Fin.val heq
        omega
      have hthird : listIndex (m.globalEpoch + 1 + 2) = listIndex m.globalEpoch :=
        Fin.ext (by simp only [listIndex_val]; omega)
      refine ⟨h, hnew, ?_, filterMap_deleted _⟩
      simp only [generations, pipeline, Generations.mk.injEq, hnew]
      refine ⟨?_, ?_, Mem.setList_self _ _ _⟩
      · refine (Mem.setList_of_ne _ (listIndex_succ_ne _) _).trans ?_
        exact Mem.setList_of_ne m hsecond _
      · rw [hthird]
        refine (Mem.setList_of_ne _ (listIndex_succ_ne _).symm _).trans ?_
        exact Mem.setList_self m _ _

/-- Every call in the log has advanced the epoch. -/
theorem globalEpoch_of_log {L : List (Call (Mem X) X (Event X))} (h : Unentered m)
    (hlog : CallLog Alone retireCall m m' L) :
    Unentered m' ∧ m'.globalEpoch = m.globalEpoch + L.length := by
  induction hlog with
  | init => exact ⟨h, rfl⟩
  | call _ hrun ih =>
      obtain ⟨hleft, hepoch, -, -⟩ := hrun.retire ih.1
      refine ⟨hleft, ?_⟩
      rw [hepoch, ih.2, List.length_append]
      rfl

end Lists

/-! ## Calls after a run -/

/-- **Reclamation after any interleaving.** If no object has been retired twice, no call is
in flight and no section is open, then the objects not deleted yet are those of the pipeline;
and calls of `retire` made one after another by one thread return, as long as the epoch counter
does not run out, and run the deleters the pipeline gives. In particular, after three of them
all objects but the last two have been deleted, in the order of the pipeline, and these two are
what the destructor deletes. -/
theorem retires_at_rest [DecidableEq ι] (inUse : Fin maxThreads → Bool)
    (sched : ℕ → ι × Choice (Op X)) (n : ℕ)
    (honce : (retired ((system ι inUse).history sched n)).Nodup)
    (hidle : ∀ p, ((system ι inUse).run sched n).pc p = .idle)
    (hleft : Unentered ((system ι inUse).run sched n).mem) :
    let c := (system ι inUse).run sched n
    let H := (system ι inUse).history sched n
    (deleted H ++ (generations c.mem).all).Perm (retired H)
      ∧ ∀ m L, CallLog Alone retireCall c.mem m L →
        (c.mem.globalEpoch + L.length < inactive →
            ∀ x, ∃ m' evs, Alone m (retireCall x) m' evs)
          ∧ L.map (fun k => k.events.filterMap Event.asDeleted)
            = answers pipeline (generations c.mem) (L.map (·.op))
          ∧ ∀ ys x y, ys ≠ [] → L.map (·.op) = ys ++ [x, y] →
            (L.map fun k => k.events.filterMap Event.asDeleted).flatten
                = (generations c.mem).all ++ ys
              ∧ (destroy m).Perm [x, y] := by
  intro c H
  have haccounted : Accounted c H := accounted_run honce
  refine ⟨((destroy_perm c.mem).symm.append_left _).trans (haccounted.perm_of_idle honce hidle),
    fun m L hlog => ?_⟩
  obtain ⟨⟨-, hgen⟩, hdeleted⟩ := hlog.refines pipeline
    (fun m g => Unentered m ∧ generations m = g) (List.filterMap Event.asDeleted) id
    (fun {m g x m' evs} h hrun => by
      obtain ⟨hleft, rfl⟩ := h
      obtain ⟨hleft', -, hgen, hevs⟩ := hrun.retire hleft
      exact ⟨⟨hleft', hgen⟩, hevs⟩)
    ⟨hleft, rfl⟩
  rw [List.map_id] at hdeleted
  refine ⟨fun hepoch x => ?_, hdeleted, fun ys x y hys hops => ?_⟩
  · rw [← (globalEpoch_of_log hleft hlog).2] at hepoch
    obtain ⟨m', evs, hrun, -⟩ := exists_completes m (.retire x) hepoch
    exact ⟨m', evs, hepoch, hrun⟩
  · have hlast := stateAfter_pipeline (generations c.mem) hys x y
    have hflow := flatten_answers_pipeline (generations c.mem) (ys ++ [x, y])
    rw [hlast] at hflow
    rw [hops] at hgen hdeleted
    rw [hlast] at hgen
    refine ⟨?_, (destroy_perm m).trans (by rw [hgen]; rfl)⟩
    rw [hdeleted]
    exact List.append_cancel_right (hflow.trans (List.append_assoc _ _ _).symm)

/-- After the three objects retired by one thread, two of which wait in their lists, three
more are retired: the two and the first of these are deleted. -/
theorem retires_at_rest_retireThrice :
    ∃ m L, CallLog Alone retireCall
        ((system Unit fun _ => false).run retireThrice 214).mem m L
      ∧ L.map (·.op) = [10, 11, 12]
      ∧ (L.map fun k => k.events.filterMap Event.asDeleted) = [[8], [9], [10]]
      ∧ (destroy m).Perm [11, 12] := by
  obtain ⟨-, hcalls⟩ := retires_at_rest (fun _ => false) retireThrice 214 (by decide +kernel)
    (by decide +kernel) (by decide +kernel)
  have hepoch : ((system Unit fun _ => false).run retireThrice 214).mem.globalEpoch = 3 := by
    decide +kernel
  have hgen : generations ((system Unit fun _ => false).run retireThrice 214).mem
      = ⟨[8], [9], []⟩ := by
    decide +kernel
  have hmax : inactive = 2 ^ 64 - 1 := rfl
  rw [hepoch, hgen] at hcalls
  obtain ⟨m₁, e₁, h₁⟩ := (hcalls _ [] .init).1 (by rw [List.length_nil]; omega) 10
  have hlog₁ := CallLog.call .init h₁
  obtain ⟨m₂, e₂, h₂⟩ := (hcalls _ _ hlog₁).1 (by simp; omega) 11
  have hlog₂ := CallLog.call hlog₁ h₂
  obtain ⟨m₃, e₃, h₃⟩ := (hcalls _ _ hlog₂).1 (by simp; omega) 12
  have hlog₃ := CallLog.call hlog₂ h₃
  obtain ⟨-, hdeleted, hlast⟩ := hcalls _ _ hlog₃
  exact ⟨m₃, _, hlog₃, rfl, hdeleted, (hlast [10] 11 12 (by simp) rfl).2⟩

end Epoch

end Lockless
