import Lockless.StackLifo
import Lockless.StackCalls

/-!
# The array stack at rest

Many threads push and pop at once, and then every call has returned. What memory holds is
now the abstract stack of the history, on a chain of its own beside the free nodes, and
nothing has been lost on the way: the values accepted are those delivered and those of
that stack. Whoever calls next finds a stack of bounded height.

A value on its way out is with the thread that has unlinked its node, and threads return
their values in another order than they have unlinked them. So the values popped are kept
in a list of their own, labelled with the threads, and it is compared with the history one
thread at a time.
-/

namespace Lockless

namespace Stack

variable {ι T : Type*}

/-! ## Values in and out -/

/-- The value of a push that returns true. -/
def Event.asLinked : Event T → Option T
  | .link _ value => some value
  | _ => none

/-- The value of a pop that returns true. -/
def Event.asGiven : Event T → Option T
  | .give _ item => some item
  | _ => none

def accepted (H : List (ι × Event T)) : List T := H.filterMap fun e => e.2.asLinked

def delivered (H : List (ι × Event T)) : List T := H.filterMap fun e => e.2.asGiven

theorem accepted_concat (H : List (ι × Event T)) (p : ι) (e : Event T) :
    accepted (H ++ [(p, e)]) = accepted H ++ e.asLinked.toList := by
  rw [accepted, List.filterMap_append]
  cases he : e.asLinked <;> simp [accepted, he]

def Rest.item : Rest T → Option T
  | .push _ => none
  | .pop item => some item

/-- The value a call has taken off the stack and not returned yet. -/
def PC.carried (data : ℕ → T) : PC T → Option T
  | .read node => some (data node)
  | .pushLoad rest _ => rest.item
  | .pushNext rest _ _ => rest.item
  | .pushCas rest _ _ => rest.item
  | _ => none

theorem PC.carried_of_popping {pc : PC T} {call : Call T} (h : pc.popping = some call)
    (data : ℕ → T) : pc.carried data = none := by
  cases pc <;> first | rfl | cases h

theorem PC.carried_of_pushing {pc : PC T} {rest : Rest T} {node : ℕ}
    (h : pc.pushing = some (rest, node)) (data : ℕ → T) : pc.carried data = rest.item := by
  cases pc <;> cases h <;> rfl

/-- The step of another thread leaves the value carried alone. -/
theorem Inv.carried_frame {C : Capacity} {c : Config ι (Mem T) (PC T)}
    {H : List (ι × Event T)} (h : Inv C c H) {p q : ι} (hqp : q ≠ p) {m : Mem T}
    {ev : Option (Event T)} (hf : Frame c.mem m (c.pc p) ev) :
    (c.pc q).carried m.data = (c.pc q).carried c.mem.data := by
  generalize hpc : c.pc q = pc
  cases pc with
  | read node =>
      have hq : (c.pc q).holding = some node := by rw [hpc]; rfl
      exact congrArg some (hf.data node fun hp => h.holding_ne hp hq hqp rfl)
  | _ => rfl

/-! ## The values popped -/

variable [DecidableEq ι]

/-- The values `P` have been popped, each by the thread it is labelled with. -/
structure Popped (c : Config ι (Mem T) (PC T)) (H : List (ι × Event T)) (P : List (ι × T)) :
    Prop where
  linked : (accepted H).Perm (P.map Prod.snd ++ stack H)
  given : ∀ p, (ofThread p P).map Prod.snd
    = (ofThread p H).filterMap (fun e => e.2.asGiven) ++ ((c.pc p).carried c.mem.data).toList

namespace Popped

variable {C : Capacity} {c : Config ι (Mem T) (PC T)} {H : List (ι × Event T)}
  {P P' : List (ι × T)} {p : ι} {m : Mem T} {pc : PC T} {ev : Option (Event T)}

/-- A step concerns the values of its own thread. -/
theorem update (h : Popped c H P) (hinv : Inv C c H) (hf : Frame c.mem m (c.pc p) ev)
    (hlinked : (accepted (H ++ (ev.map (Prod.mk p)).toList)).Perm
      (P'.map Prod.snd ++ stack (H ++ (ev.map (Prod.mk p)).toList)))
    (hother : ∀ q, q ≠ p → ofThread q P' = ofThread q P)
    (hown : (ofThread p P').map Prod.snd
      = (ofThread p H).filterMap (fun e => e.2.asGiven) ++ (ev.bind Event.asGiven).toList
        ++ (pc.carried m.data).toList) :
    Popped ⟨m, Function.update c.pc p pc⟩ (H ++ (ev.map (Prod.mk p)).toList) P' := by
  refine ⟨hlinked, fun q => ?_⟩
  show _ = _ ++ ((Function.update c.pc p pc q).carried m.data).toList
  rw [ofThread_append, List.filterMap_append, filterMap_ofThread_step Event.asGiven q p ev]
  by_cases hqp : q = p
  · subst hqp
    rw [if_pos rfl, Function.update_self]
    exact hown
  · rw [if_neg fun e => hqp e.symm, Function.update_of_ne hqp, List.append_nil,
      hinv.carried_frame hqp hf, hother q hqp]
    exact h.given q

/-- Nothing is pushed, popped or returned. -/
theorem keep (h : Popped c H P) (hinv : Inv C c H) (hf : Frame c.mem m (c.pc p) ev)
    (hev : ∀ e ∈ ev, e.asLinked = none ∧ e.asGiven = none ∧ ∀ s, e.apply s = s)
    (hcarried : pc.carried m.data = (c.pc p).carried c.mem.data) :
    Popped ⟨m, Function.update c.pc p pc⟩ (H ++ (ev.map (Prod.mk p)).toList) P := by
  refine h.update hinv hf ?_ (fun _ _ => rfl) ?_
  · cases ev with
    | none => simpa using h.linked
    | some e =>
        obtain ⟨hlink, -, hstack⟩ := hev e rfl
        show (accepted (H ++ [(p, e)])).Perm (P.map Prod.snd ++ stack (H ++ [(p, e)]))
        rw [stack_concat, hstack, accepted_concat, hlink, Option.toList_none, List.append_nil]
        exact h.linked
  · have hnone : ev.bind Event.asGiven = none := by
      cases ev with
      | none => rfl
      | some e => exact (hev e rfl).2.1
    rw [hnone, hcarried, Option.toList_none, List.append_nil]
    exact h.given p

theorem step {moved : T → T} (h : Popped c H P) (hinv : Inv C c H)
    (he : Effect moved c.mem (c.pc p) m pc ev) :
    ∃ P', Popped ⟨m, Function.update c.pc p pc⟩ (H ++ (ev.map (Prod.mk p)).toList) P' := by
  have hf := he.frame
  have hgiven := h.given p
  have hloc := hinv.threads p
  generalize hpc : c.pc p = pc₀ at he hgiven hloc
  cases he with
  | stay pc => exact ⟨P, h.keep hinv hf nofun (by rw [hpc])⟩
  | start call => exact ⟨P, h.keep hinv hf nofun (by rw [hpc]; rfl)⟩
  | refuse pc₀ call hpop hnull =>
      refine ⟨P, h.keep hinv hf ?_ ?_⟩
      · rintro e ⟨⟩
        exact ⟨rfl, rfl, fun s => rfl⟩
      · rw [hpc, PC.carried_of_popping hpop]
        rfl
  | popObserve pc₀ call hpop hnull =>
      refine ⟨P, h.keep hinv hf ?_ ?_⟩
      · rintro e ⟨⟩
        exact ⟨rfl, rfl, fun s => rfl⟩
      · rw [hpc, PC.carried_of_popping hpop]
        rfl
  | popNext call raw => exact ⟨P, h.keep hinv hf nofun (by rw [hpc]; rfl)⟩
  | popWin call next =>
      cases call with
      | push value =>
          refine ⟨P, h.keep hinv hf ?_ ?_⟩
          · rintro e ⟨⟩
            exact ⟨rfl, rfl, fun s => rfl⟩
          · rw [hpc]
            rfl
      | pop =>
          -- the value on top of the abstract stack is the data of the node on top
          have hlt : (unpack (c.mem.heads .data)).index < C.val := hloc.1
          have hC := C.le
          obtain ⟨L, hL, -⟩ := hinv.members_eq_cons (w := .data) (by
            rw [nullIndex]
            omega)
          have hstack := hinv.values
          rw [hL, List.map_cons] at hstack
          refine ⟨P ++ [(p, c.mem.data (unpack (c.mem.heads .data)).index)],
            h.update hinv hf ?_ (fun q hq => ?_) ?_⟩
          · show (accepted (H ++ [(p, Event.unlink _)])).Perm
              (_ ++ stack (H ++ [(p, Event.unlink _)]))
            have hlinked := h.linked
            rw [← hstack] at hlinked
            rw [stack_concat, ← hstack, accepted_concat, List.map_append, List.append_assoc]
            exact (List.append_nil _).symm ▸ hlinked
          · rw [ofThread_append]
            simp [ofThread, hq.symm]
          · rw [ofThread_append, List.map_append, hgiven]
            simp [ofThread, PC.carried, Event.asGiven, Call.won, Call.resume, Mem.setHead,
              Call.source]
  | write value node =>
      exact ⟨P, h.keep hinv hf nofun (by rw [hpc]; rfl)⟩
  | read node => exact ⟨P, h.keep hinv hf nofun (by rw [hpc]; rfl)⟩
  | pushObserve pc₀ rest node hpush =>
      refine ⟨P, h.keep hinv hf ?_ ?_⟩
      · rintro e ⟨⟩
        exact ⟨rfl, rfl, fun s => rfl⟩
      · rw [hpc, PC.carried_of_pushing hpush]
        rfl
  | pushNext rest node raw => exact ⟨P, h.keep hinv hf nofun (by rw [hpc]; rfl)⟩
  | pushWin rest node =>
      cases rest with
      | push value =>
          refine ⟨P, h.update hinv hf ?_ (fun _ _ => rfl) ?_⟩
          · show (accepted (H ++ [(p, Event.link _ _)])).Perm
              (_ ++ stack (H ++ [(p, Event.link _ _)]))
            rw [stack_concat, accepted_concat]
            exact (h.linked.append_right [value]).trans
              ((List.perm_append_singleton _ _).trans List.perm_middle.symm)
          · rw [hgiven]
            simp [PC.carried, Rest.item, Event.asGiven, Rest.won]
      | pop item =>
          refine ⟨P, h.update hinv hf ?_ (fun _ _ => rfl) ?_⟩
          · show (accepted (H ++ [(p, Event.give _ _)])).Perm
              (_ ++ stack (H ++ [(p, Event.give _ _)]))
            rw [stack_concat, accepted_concat]
            exact (List.append_nil _).symm ▸ h.linked
          · rw [hgiven]
            simp [PC.carried, Rest.item, Event.asGiven, Rest.won]

end Popped

/-! ## At rest -/

section Run

variable {C : Capacity} {moved : T → T} {data : ℕ → T} {sched : ℕ → ι × Choice (Call T)} {n : ℕ}

theorem popped_run (hn : TagsDistinct (system moved ι C.val data) sched n) :
    ∃ P, Popped ((system moved ι C.val data).run sched n)
      ((system moved ι C.val data).history sched n) P := by
  induction n with
  | zero => exact ⟨[], List.Perm.refl _, fun p => rfl⟩
  | succ n ih =>
      have hn' := hn.mono (Nat.le_succ n)
      obtain ⟨P, hP⟩ := ih hn'
      exact hP.step (inv_run hn') (prog_effect _ _ _)

variable (hn : TagsDistinct (system moved ι C.val data) sched n)
  (hidle : ∀ p, ((system moved ι C.val data).run sched n).pc p = .idle)
include hn hidle

theorem accepted_perm :
    (accepted ((system moved ι C.val data).history sched n)).Perm
      (delivered ((system moved ι C.val data).history sched n)
        ++ stack ((system moved ι C.val data).history sched n)) := by
  obtain ⟨P, hlinked, hgiven⟩ := popped_run hn
  refine hlinked.trans (List.Perm.append_right _ ?_)
  rw [← List.filterMap_eq_map]
  refine perm_of_ofThread fun p => ?_
  have hp := hgiven p
  rw [hidle p, ← List.filterMap_eq_map] at hp
  exact hp.trans (List.append_nil _)

/-- The nodes are those of the two lists. -/
theorem represents_of_idle :
    Represents C.val ((system moved ι C.val data).run sched n).mem
      (stack ((system moved ι C.val data).history sched n)) := by
  have hinv := inv_run hn
  have hC := C.le
  refine ⟨members C ((system moved ι C.val data).history sched n),
    ⟨fun w => ?_, fun w => hinv.custody.nodup (.list w), fun hd => ?_, fun hx => ?_⟩,
    hinv.values, ?_⟩
  · rw [hinv.unpack_word]
    exact hinv.chain w
  · exact hinv.custody.not_mem (a := .list .data) (b := .list .free) hd nofun
  · have hlt := hinv.mem_lt hx
    rw [nullIndex]
    omega
  · have hperm := hinv.custody.perm_flatMap (l := [.list .data, .list .free]) (by simp)
      (fun a ha => ?_) (List.nodup_range (n := C.val)) fun x => List.mem_range
    · have hlen := hperm.length_eq
      rw [List.length_range] at hlen
      simpa [holdings] using hlen
    · cases a with
      | list w => cases w <;> simp at ha
      | thread p => rw [holdings, hidle p]; rfl

end Run

/-- **The stack after any interleaving.** In every run whose tags stay distinct and at the
end of which no call is in flight:

1. the values that pushes have returned true for are the values that pops have delivered and
   those of the abstract stack, each as often;
2. from there on, calls made one after another by one thread answer as those of a stack at
   most as high as the capacity, starting with the abstract stack, and every call returns. -/
theorem lifo_at_rest (C : Capacity) (moved : T → T) (data : ℕ → T)
    (sched : ℕ → ι × Choice (Call T)) (n : ℕ)
    (hn : TagsDistinct (system moved ι C.val data) sched n)
    (hidle : ∀ p, ((system moved ι C.val data).run sched n).pc p = .idle) :
    let H := (system moved ι C.val data).history sched n
    (accepted H).Perm (delivered H ++ stack H)
      ∧ ∀ m L, CallLog (Ends (prog moved) .idle) .popLoad
          ((system moved ι C.val data).run sched n).mem m L →
        L.map (fun k => k.events.filterMap Event.answer)
            = (answers (boundedStack C.val) (stack H) (L.map (·.op))).map (fun a => [a])
          ∧ ∀ call, Returns (prog moved) .idle m (.popLoad call) := by
  intro H
  refine ⟨accepted_perm hn hidle, fun m L hlog => ?_⟩
  obtain ⟨hrep, hanswers⟩ := (represents_of_idle hn hidle).calls hlog
  exact ⟨hanswers, hrep.returns moved⟩

/-- Two threads push a value each, and the one that is first to take a node is last to link
it; the value on top is then popped. -/
def pushPushPopSteps : List (Bool × Choice (Call ℕ)) :=
  [(true, .call (.push 7)), (false, .call (.push 8)), (true, .go), (false, .go), (true, .go),
    (false, .go), (true, .go), (false, .go), (false, .go), (false, .go), (true, .go),
    (true, .go), (true, .go), (false, .go), (false, .go), (false, .go), (false, .go),
    (true, .go), (true, .go), (true, .go), (false, .call .pop)]

def pushPushPop : ℕ → Bool × Choice (Call ℕ) := fun i => pushPushPopSteps.getD i (false, .go)

theorem lifo_at_rest_pushPushPop :
    ∃ m L, CallLog (Ends (prog id) .idle) .popLoad
        ((system id Bool twoNodes.val fun _ => 0).run pushPushPop 28).mem m L
      ∧ L.map (·.op) = [.push 9, .push 6, .pop, .pop, .pop]
      ∧ L.map (fun k => k.events.filterMap Event.answer)
        = [[.push true], [.push false], [.pop (some 9)], [.pop (some 8)], [.pop none]] := by
  have h := (lifo_at_rest twoNodes id (fun _ => 0) pushPushPop 28
    (tagsDistinct_of_lt _ _ (by decide)) (by decide +kernel)).2
  obtain ⟨m, L, hlog, hops⟩ := exists_callLog (fun m L hlog op => ((h m L hlog).2 op).ends)
    [.push 9, .push 6, .pop, .pop, .pop]
  refine ⟨m, L, hlog, hops, ?_⟩
  have hstack : stack ((system id Bool twoNodes.val fun _ => 0).history pushPushPop 28) = [8] := by
    decide +kernel
  rw [(h m L hlog).1, hops, hstack]
  rfl

end Stack

end Lockless
