import Lockless.PoolObjects
import Lockless.PoolCalls
import Lockless.StackQuiet

/-!
# The object pool at rest

Clients acquire and release at once, and then every call has returned. The stack of free
indices then has exactly the objects that nobody holds, so whoever calls `acquire` next is
handed these, one after another, and then null.

That the stack inside is at rest too is the result about the stack, since a run of the pool
is one of its stack; which indices are on it is the custody of the objects.
-/

namespace Lockless

namespace Pool

/-- Calls of `acquire` alone hand out the list from its front. -/
theorem answers_acquire (capacity : ℕ) (s : List ℕ) :
    answers (freeList capacity) s (List.replicate (s.length + 1) .acquire)
      = s.map (fun x => some (some x)) ++ [some none] := by
  induction s with
  | nil => rfl
  | cons x s ih =>
      rw [List.length_cons, List.replicate_succ, answers, List.map_cons, List.cons_append]
      exact congrArg (some (some x) :: ·) ih

section Run

variable {ι : Type*} [DecidableEq ι] {C : Stack.Capacity} {main : ι} {data : ℕ → ℕ}
  {sched : ℕ → ι × Choice Op} {n : ℕ}

/-- With no call in flight the stack inside represents the list of its values. -/
theorem represents_of_idle
    (htags : Stack.TagsDistinct (Stack.system id ι C.val data)
      (stackSched main data sched C.val) n)
    (hidle : ∀ p, (((system C.val main data).run sched n).pc p).stk = .idle) :
    Stack.Represents C.val ((system C.val main data).run sched n).mem.freeIndices
      (Stack.stack (stackHistory C main data sched n)) := by
  have hrun : stackOf ((system C.val main data).run sched n)
      = (Stack.system id ι C.val data).run (stackSched main data sched C.val) n :=
    run_stack main data sched n
  have hmem : ((system C.val main data).run sched n).mem.freeIndices
      = ((Stack.system id ι C.val data).run (stackSched main data sched C.val) n).mem :=
    congrArg Config.mem hrun
  have hpc : ∀ p, ((Stack.system id ι C.val data).run
      (stackSched main data sched C.val) n).pc p = .idle :=
    fun p => (congrFun (congrArg Config.pc hrun) p).symm.trans (hidle p)
  rw [hmem]
  exact Stack.represents_of_idle htags hpc

end Run

/-- **The pool after any interleaving.** In every run whose tags stay distinct and whose
clients release only what they hold, when the constructor has returned and no call is in
flight, there is a list of the objects that nobody holds, each once, such that calls made one
after another by one thread return and answer as those of a list of free indices that starts
with it; in particular `acquire` hands out these objects, in turn, before it returns null. -/
theorem free_at_rest {ι : Type*} [DecidableEq ι] (C : Stack.Capacity) (main : ι)
    (data : ℕ → ℕ) (sched : ℕ → ι × Choice Op) (n : ℕ)
    (htags : Stack.TagsDistinct (Stack.system id ι C.val data)
      (stackSched main data sched C.val) n)
    (hlegal : ReleasesHeld (system C.val main data) sched n)
    (hbuilt : ((system C.val main data).run sched n).mem.built = true)
    (hidle : ∀ p, (((system C.val main data).run sched n).pc p).stk = .idle) :
    let c := (system C.val main data).run sched n
    ∃ s : List ℕ, s.Nodup ∧ (∀ x, x ∈ s ↔ x < C.val ∧ ∀ p, x ∉ (c.pc p).held)
      ∧ ∀ m L, CallLog (Ends (Stack.prog id) .idle) (Api.start C.val) c.mem.freeIndices m L →
        (∀ op, Returns (Stack.prog id) .idle m (Api.start C.val op))
          ∧ L.map (fun k => k.events.filterMap acquiredAt)
            = (answers (freeList C.val) s (L.map (·.op))).map Option.toList
          ∧ (L.map (·.op) = List.replicate (s.length + 1) .acquire →
            L.map (fun k => k.events.filterMap acquiredAt)
              = s.map (fun x => [some x]) ++ [[none]]) := by
  intro c
  have hcustody := (inv_run htags hlegal).custody_quiescent hbuilt hidle
  refine ⟨_, hcustody.nodup none, fun x => ⟨fun hx => ?_, fun ⟨hlt, hnone⟩ => ?_⟩,
    fun m L hlog => ?_⟩
  · exact ⟨hcustody.token (a := none) hx,
      fun p => hcustody.not_mem (a := none) (b := some p) hx nofun⟩
  · obtain ⟨a, ha⟩ := hcustody.mem_iff.mp hlt
    cases a with
    | none => exact ha
    | some p => exact absurd ha (hnone p)
  · obtain ⟨hrep, hacquired⟩ := hlog.refines (freeList C.val) (Stack.Represents C.val)
      (List.filterMap acquiredAt) Option.toList (fun h hrun => represents_call h hrun)
      (represents_of_idle htags hidle)
    refine ⟨returns_call hrep, hacquired, fun hops => ?_⟩
    rw [hacquired, hops, answers_acquire]
    simp

/-- Over a pool of one object: once it has been released, an `acquire` hands it out, and the
next one returns null. -/
theorem free_at_rest_released :
    ∃ m L, CallLog (Ends (Stack.prog id) .idle) (Api.start 1)
        ((system 1 true fun _ => 0).run acquireNullRelease 27).mem.freeIndices m L
      ∧ L.map (fun k => k.events.filterMap acquiredAt) = [[some 0], [none]] := by
  have hheld : ∀ p, (((system Stack.oneNode.val true fun _ => 0).run acquireNullRelease 27).pc
      p).held = [] := by decide +kernel
  obtain ⟨s, hnodup, hmem, hcalls⟩ := free_at_rest Stack.oneNode true (fun _ => 0)
    acquireNullRelease 27 (Stack.tagsDistinct_of_lt _ _ (by decide)) (by decide +kernel)
    (by decide +kernel) (by decide +kernel)
  have hs : s = [0] := by
    refine List.perm_singleton.mp ((List.perm_ext_iff_of_nodup hnodup (by simp)).mpr fun x => ?_)
    rw [hmem, List.mem_singleton]
    refine ⟨fun h => Nat.lt_one_iff.mp h.1, fun h => ⟨Nat.lt_one_iff.mpr h, fun p => ?_⟩⟩
    rw [hheld p]
    exact List.not_mem_nil
  obtain ⟨m, L, hlog, hops⟩ := exists_callLog
    (fun m L h op => ((hcalls m L h).1 op).ends) [.acquire, .acquire]
  refine ⟨m, L, hlog, ?_⟩
  rw [(hcalls m L hlog).2.2 (by rw [hops, hs]; rfl), hs]
  rfl

end Pool

end Lockless
