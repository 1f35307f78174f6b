import Lockless.Linearize
import Lockless.StackCalls
import Lockless.StackLifo

/-!
# The array stack is linearizable, refused pushes apart

In every run whose tags stay distinct the calls of `try_push` that return true and all calls of
`try_pop` can be put in one order, in which each stands between its start and its return, such
that they answer as those of a stack of bounded height.

A push commits with the compare-exchange on `head_`, which is its last step; a pop commits with
its own compare-exchange on `head_`, long before it returns, and owes the value that was on top
from then on; and a pop that is refused commits with the read that shows it an empty stack. A
push is refused for want of a free node, though others may be in the hands of calls in flight,
so the refused pushes are left out.
-/

namespace Lockless

namespace Stack

variable {ι T : Type*}

/-! ## What the calls answer -/

/-- What a call returns, but for a push that returns false. -/
def Event.accepted : Event T → Option (Answer T)
  | .link _ _ => some (.push true)
  | .give _ item => some (.pop (some item))
  | .refuse .pop => some (.pop none)
  | _ => none

/-- What a step commits, on the abstract stack `s`. -/
def Event.commits (s : List T) : Event T → Option (Answer T)
  | .link _ _ => some (.push true)
  | .unlink _ => some (.pop s.head?)
  | .refuse .pop => some (.pop none)
  | _ => none

def Rest.call : Rest T → Call T
  | .push value => .push value
  | .pop _ => .pop

/-- The call a thread is in. -/
def PC.op : PC T → Option (Call T)
  | .idle => none
  | .popLoad call => some call
  | .popNext call _ => some call
  | .popCas call _ _ => some call
  | .write value _ => some (.push value)
  | .read _ => some .pop
  | .pushLoad rest _ => some rest.call
  | .pushNext rest _ _ => some rest.call
  | .pushCas rest _ _ => some rest.call

/-- What a pop that has unlinked its node has left to do is to return the value. -/
def Rest.owes : Rest T → Option (Answer T)
  | .push _ => none
  | .pop item => some (.pop (some item))

/-- What a thread that has committed is going to return. -/
def PC.owes (data : ℕ → T) : PC T → Option (Answer T)
  | .read node => some (.pop (some (data node)))
  | .pushLoad rest _ => rest.owes
  | .pushNext rest _ _ => rest.owes
  | .pushCas rest _ _ => rest.owes
  | _ => none

section Step

variable {moved : T → T} {m m' : Mem T} {pc pc' : PC T} {ev : Option (Event T)} {s : List T}

theorem PC.op_eq_none : pc.op = none ↔ pc = .idle := by
  cases pc <;> simp [PC.op]

theorem PC.of_popping {call : Call T} (h : pc.popping = some call) (data : ℕ → T) :
    pc.op = some call ∧ pc.owes data = none := by
  cases pc <;> cases h <;> exact ⟨rfl, rfl⟩

theorem PC.of_pushing {rest : Rest T} {node : ℕ} (h : pc.pushing = some (rest, node))
    (data : ℕ → T) : pc.op = some rest.call ∧ pc.owes data = rest.owes := by
  cases pc <;> cases h <;> exact ⟨rfl, rfl⟩

theorem Effect.op (he : Effect moved m pc m' pc' ev) {op : Call T} (h : pc'.op = some op) :
    pc.op = some op ∨ pc = .idle := by
  cases he with
  | start call => exact Or.inr rfl
  | refuse | pushWin => cases h
  | popObserve pc call hpc hnull => exact Or.inl ((PC.of_popping hpc m.data).1.trans h)
  | popWin call next => cases call <;> exact Or.inl h
  | pushObserve pc rest node hpc => exact Or.inl ((PC.of_pushing hpc m.data).1.trans h)
  | _ => exact Or.inl h

theorem makesCalls (moved : T → T) (ι : Type*) (capacity : ℕ) (data : ℕ → T) :
    (system moved ι capacity data).MakesCalls PC.op where
  init := fun _ => rfl
  step := fun {m pc ch op} h => by
    have he : Effect moved m pc _ _ _ := prog_effect m pc ch
    rcases he.op h with hold | rfl
    · exact Or.inl hold
    · cases ch with
      | call op' =>
          cases h
          exact Or.inr ⟨rfl, rfl⟩
      | go => cases h
      | fault => cases h

/-- What the thread owes after a step that does not return. -/
theorem Effect.owes (he : Effect moved m pc m' pc' ev)
    (htop : ∀ node, ev = some (.unlink node) → s.head? = some (m.data node))
    (hpc' : pc' ≠ .idle) :
    pc'.owes m'.data = (ev.bind (Event.commits s)).or (pc.owes m.data) := by
  cases he with
  | refuse | pushWin => exact absurd rfl hpc'
  | popObserve pc call hpc hnull => exact (PC.of_popping hpc m.data).2.symm
  | popWin call next =>
      cases call with
      | push value => rfl
      | pop =>
          rw [Option.or_eq_left_of_isSome rfl]
          exact congrArg (fun v => some (Answer.pop v)) (htop _ rfl).symm
  | pushObserve pc rest node hpc => exact (PC.of_pushing hpc m.data).2.symm
  | _ => rfl

/-- A call that returns answers what it owes. -/
theorem Effect.accepted {e : Event T} (he : Effect moved m pc m' pc' (some e))
    (hpc' : pc' = .idle) : e.accepted = (e.commits s).or (pc.owes m.data) := by
  generalize hev : some e = ev at he
  cases he with
  | refuse pc call hpc hnull =>
      cases hev
      rw [(PC.of_popping hpc m.data).2, Option.or_none]
      cases call <;> rfl
  | popObserve => cases hpc'
  | popWin call next => cases call <;> cases hpc'
  | pushObserve => cases hpc'
  | pushWin rest node => cases rest <;> cases hev <;> rfl
  | _ => cases hev

end Step

/-! ## The commit points -/

section Commit

variable {C : Capacity} {c : Config ι (Mem T) (PC T)} {H : List (ι × Event T)} {moved : T → T}
  {p q : ι} {m : Mem T} {pc : PC T} {ev : Option (Event T)}

namespace Inv

/-- There is a node for every value on the abstract stack. -/
theorem length_stack_le (h : Inv C c H) : (stack H).length ≤ C.val := by
  rw [← h.values, List.length_map]
  have hsub : members C H .data ⊆ List.range C.val :=
    fun x hx => List.mem_range.mpr (h.mem_lt hx)
  have hle := ((h.custody.nodup (.list .data)).subperm hsub).length_le
  rwa [List.length_range] at hle

/-- The node a pop unlinks has the data of the value on top. -/
theorem head?_of_unlink (h : Inv C c H) (he : Effect moved c.mem (c.pc p) m pc ev) {node : ℕ}
    (hev : ev = some (.unlink node)) : (stack H).head? = some (c.mem.data node) := by
  have hloc := h.threads p
  generalize c.pc p = pc₀ at he hloc
  cases he with
  | popWin call next =>
      cases call with
      | push value => cases hev
      | pop =>
          cases hev
          have hlt : (unpack (c.mem.heads .data)).index < C.val := hloc.1
          have hC := C.le
          obtain ⟨L, hL, -⟩ := h.members_eq_cons (w := .data) (by
            rw [nullIndex]
            omega)
          rw [← h.values, hL]
          rfl
  | pushWin rest node => cases rest <;> cases hev
  | _ => cases hev

/-- A step that commits makes the operation of its call. -/
theorem commits (h : Inv C c H) (he : Effect moved c.mem (c.pc p) m pc ev)
    (hroom : (stack (H ++ (ev.map (Prod.mk p)).toList)).length ≤ C.val) {r : Answer T}
    (hr : ev.bind (Event.commits (stack H)) = some r) :
    (c.pc p).owes c.mem.data = none ∧ ∃ op, (c.pc p).op = some op
      ∧ boundedStack C.val (stack H) op
        = (stack (H ++ (ev.map (Prod.mk p)).toList), r) := by
  generalize c.pc p = pc₀ at he
  cases he with
  | refuse pc call hpc hnull =>
      cases call with
      | push value => cases hr
      | pop =>
          obtain ⟨hop, howes⟩ := PC.of_popping hpc c.mem.data
          have hnil : members C H .data = [] := h.members_eq_nil hnull
          have hstack : stack H = [] := by rw [← h.values, hnil, List.map_nil]
          cases hr
          refine ⟨howes, _, hop, ?_⟩
          simp only [Option.map_some, Option.toList_some, stack_concat, Event.apply, hstack]
          rfl
  | popWin call next =>
      cases call with
      | push value => cases hr
      | pop =>
          cases hr
          refine ⟨rfl, _, rfl, ?_⟩
          simp only [Option.map_some, Option.toList_some, stack_concat, Event.apply, Call.won]
          rfl
  | pushWin rest node =>
      cases rest with
      | push value =>
          cases hr
          simp only [Option.map_some, Option.toList_some, stack_concat, Event.apply, Rest.won,
            List.length_cons] at hroom ⊢
          exact ⟨rfl, _, rfl, if_pos hroom⟩
      | pop item => cases hr
  | _ => cases hr

/-- The step of another thread leaves what a thread owes alone. -/
theorem owes_frame (h : Inv C c H) (hqp : q ≠ p) (hf : Frame c.mem m (c.pc p) ev) :
    (c.pc q).owes m.data = (c.pc q).owes c.mem.data := by
  generalize hpc : c.pc q = pc
  cases pc with
  | read node =>
      have hq : (c.pc q).holding = some node := by rw [hpc]; rfl
      have hdata := hf.data node fun hp => h.holding_ne hp hq hqp rfl
      simp only [PC.owes, hdata]
  | _ => rfl

end Inv

/-- A step that commits nothing leaves the abstract stack as it is. -/
theorem stack_quiet (hnone : ev.bind (Event.commits (stack H)) = none) :
    stack (H ++ (ev.map (Prod.mk p)).toList) = stack H := by
  cases ev with
  | none => exact congrArg stack (List.append_nil H)
  | some e =>
      refine (stack_concat H p e).trans ?_
      cases e with
      | link | unlink => cases hnone
      | _ => rfl

end Commit

/-- The commit points of a run. -/
theorem commitPoints [DecidableEq ι] {C : Capacity} {moved : T → T} {data : ℕ → T}
    {sched : ℕ → ι × Choice (Call T)} {n : ℕ}
    (hn : TagsDistinct (system moved ι C.val data) sched n) :
    let S := system moved ι C.val data
    S.CommitPoints PC.op Event.accepted (boundedStack C.val) [] sched n
      (fun t => (S.outcome (S.run sched t) (sched t)).event.bind
        (Event.commits (stack (S.history sched t))))
      (fun t p => ((S.run sched t).pc p).owes (S.run sched t).mem.data)
      (fun t => stack (S.history sched t)) := by
  intro S
  have hinv : ∀ t, t ≤ n → Inv C (S.run sched t) (S.history sched t) :=
    fun t ht => inv_run (hn.mono ht)
  have he : ∀ t, Effect moved (S.run sched t).mem ((S.run sched t).pc (sched t).1)
      (S.run sched (t + 1)).mem ((S.run sched (t + 1)).pc (sched t).1)
      (S.outcome (S.run sched t) (sched t)).event := by
    intro t
    rw [System.run_succ, System.next_pc_self]
    exact prog_effect _ _ _
  refine ⟨fun p => rfl, rfl, fun t ht q hq => ?_, fun t ht hfree => ?_, fun t ht hbusy => ?_,
    fun t ht hnone => ?_, fun t ht r hr => ?_, fun t ht e hfires hbusy hfree => ?_⟩
  · have hpc : (S.run sched (t + 1)).pc q = (S.run sched t).pc q := by
      rw [System.run_succ, System.next_pc_ne _ _ hq]
    simp only [hpc]
    exact (hinv t ht.le).owes_frame hq (he t).frame
  · rw [PC.op_eq_none] at hfree
    simp only [hfree]
    rfl
  · refine (he t).owes (fun node hev => ?_) fun hidle => hbusy (by rw [hidle]; rfl)
    exact (hinv t ht.le).head?_of_unlink (he t) hev
  · exact stack_quiet hnone
  · exact (hinv t ht.le).commits (he t) (hinv (t + 1) ht).length_stack_le hr
  · have hret := he t
    rw [hfires.2] at hret ⊢
    exact hret.accepted (PC.op_eq_none.mp hfree)

/-- **The array stack is linearizable, refused pushes apart.** In every run whose tags stay
distinct the calls of `try_push` that return true and all calls of `try_pop` that have
returned, and perhaps some of those in flight, can be put in an order in which they answer as
those of a stack as high as the capacity, and in which no call stands before one that had
returned when it was made. -/
theorem stack_linearizable [DecidableEq ι] (C : Capacity) (moved : T → T) (data : ℕ → T)
    (sched : ℕ → ι × Choice (Call T)) (n : ℕ)
    (hn : TagsDistinct (system moved ι C.val data) sched n) :
    (system moved ι C.val data).Linearizable PC.op Event.accepted (boundedStack C.val) []
      sched n :=
  (commitPoints hn).linearizable (makesCalls _ _ _ _)

theorem stack_linearizable_pushFullPopEmpty :
    (system id Bool oneNode.val fun _ => 0).Linearizable PC.op Event.accepted
      (boundedStack oneNode.val) [] pushFullPopEmpty 20 :=
  stack_linearizable oneNode id (fun _ => 0) pushFullPopEmpty 20
    (tagsDistinct_of_lt _ _ (by decide))

end Stack

end Lockless
