import Lockless.StackNodes

/-!
# The array stack is a stack

With the successful compare-exchange on `head_` as its commit point, every
operation acts on the abstract stack `stack`, a function of the history. A
pop reads the data of its node only after the commit; by then others may
have pushed and popped, but the node is its own, and `Carries` keeps the
value it will read tied to the top at the commit.

The reads that make a call return false see an empty list. For `head_` the
abstract stack is then empty; for `free_head_` every node is on the data
stack or in the hands of an operation, which is a count over the custody of
the nodes.
-/

namespace Lockless

namespace Stack

variable {ι T : Type*}

/-! ## Refusals -/

theorem Effect.of_refuse {moved : T → T} {m m' : Mem T} {pc pc' : PC T} {call : Call T}
    (h : Effect moved m pc m' pc' (some (.refuse call))) :
    m' = m ∧ pc' = .idle ∧ pc.popping = some call
      ∧ (unpack (m.heads call.source)).index = nullIndex := by
  generalize hev : some (Event.refuse call) = ev at h
  cases h with
  | refuse pc call' hpc hnull =>
      cases hev
      exact ⟨rfl, rfl, hpc, hnull⟩
  | popWin call' next => cases call' <;> cases hev
  | pushWin rest node => cases rest <;> cases hev
  | _ => cases hev

theorem Effect.of_unlink {moved : T → T} {m m' : Mem T} {pc pc' : PC T} {node : ℕ}
    (h : Effect moved m pc m' pc' (some (.unlink node))) :
    ∃ next, pc = .popCas .pop (m.heads .data) next := by
  generalize hev : some (Event.unlink node) = ev at h
  cases h with
  | popWin call next =>
      cases call with
      | push value => cases hev
      | pop => exact ⟨next, rfl⟩
  | pushWin rest node => cases rest <;> cases hev
  | _ => cases hev

theorem Effect.of_link {moved : T → T} {m m' : Mem T} {pc pc' : PC T} {node : ℕ} {value : T}
    (h : Effect moved m pc m' pc' (some (.link node value))) :
    pc = .pushCas (.push value) node (m.heads .data) ∧ pc' = .idle := by
  generalize hev : some (Event.link node value) = ev at h
  cases h with
  | popWin call next => cases call <;> cases hev
  | pushWin rest node' =>
      cases rest <;> cases hev
      exact ⟨rfl, rfl⟩
  | _ => cases hev

theorem Effect.of_give {moved : T → T} {m m' : Mem T} {pc pc' : PC T} {node : ℕ} {item : T}
    (h : Effect moved m pc m' pc' (some (.give node item))) :
    pc = .pushCas (.pop item) node (m.heads .free) := by
  generalize hev : some (Event.give node item) = ev at h
  cases h with
  | popWin call next => cases call <;> cases hev
  | pushWin rest node' =>
      cases rest <;> cases hev
      rfl
  | _ => cases hev

theorem Event.eq_observe {e : Event T} (h : ¬ e.decisive) : ∃ w, e = .observe w := by
  cases e with
  | observe w => exact ⟨w, rfl⟩
  | _ => exact absurd trivial h

namespace Inv

variable {C : Capacity} {c : Config ι (Mem T) (PC T)} {H : List (ι × Event T)}

theorem members_eq_nil (h : Inv C c H) {w : Target}
    (hnull : (unpack (c.mem.heads w)).index = nullIndex) : members C H w = [] := by
  have hchain := h.chain w
  have hhead : (members C H w).headD nullIndex = nullIndex := by
    rwa [h.unpack_word] at hnull
  rw [hhead] at hchain
  exact hchain.eq_nil

/-- With no node free, each is on the data stack or held. -/
theorem length_add_ncard (h : Inv C c H) (hfree : members C H .free = []) :
    (stack H).length + {q | (c.pc q).holding ≠ none}.ncard = C.val := by
  have hheld : {x | ∃ q, (c.pc q).holding = some x}
      = ((Finset.range C.val \ (members C H .data).toFinset : Finset ℕ) : Set ℕ) := by
    ext x
    simp only [Set.mem_ofPred_eq, Finset.coe_sdiff, Finset.coe_range, List.coe_toFinset,
      Set.mem_sdiff, Set.mem_Iio]
    constructor
    · rintro ⟨q, hq⟩
      exact ⟨h.holding_lt hq, h.not_mem_of_holding hq .data⟩
    · rintro ⟨hlt, hdata⟩
      obtain ⟨a, ha⟩ := h.custody.mem_iff.mp hlt
      cases a with
      | list w =>
          cases w with
          | data => exact absurd ha hdata
          | free => simp [holdings, hfree] at ha
      | thread q => exact ⟨q, by simpa [holdings] using ha⟩
  have hsub : (members C H .data).toFinset ⊆ Finset.range C.val := by
    intro x hx
    exact Finset.mem_range.mpr (h.mem_lt (List.mem_toFinset.mp hx))
  have hnodup : (members C H .data).Nodup := h.custody.nodup (.list .data)
  have hcard : (members C H .data).toFinset.card = (stack H).length := by
    rw [List.toFinset_card_of_nodup hnodup, ← h.values, List.length_map]
  have hle := Finset.card_le_card hsub
  rw [ncard_holders fun ha hb => ?_, hheld, Set.ncard_coe_finset,
    Finset.card_sdiff_of_subset hsub, hcard, Finset.card_range]
  · rw [hcard, Finset.card_range] at hle
    omega
  · by_contra hne
    exact h.holding_ne ha hb (Ne.symm hne) rfl

end Inv

/-! ## Values in hand -/

def Call.value : Call T → Option T
  | .push value => some value
  | .pop => none

def Rest.value : Rest T → T
  | .push value => value
  | .pop item => item

/-- The value a call in flight accounts for: the one it is to push and has
not linked yet, or the one it has unlinked and not returned yet. -/
def PC.inHand (data : ℕ → T) : PC T → Option T
  | .idle => none
  | .popLoad call => call.value
  | .popNext call _ => call.value
  | .popCas call _ _ => call.value
  | .write value _ => some value
  | .read node => some (data node)
  | .pushLoad rest _ => some rest.value
  | .pushNext rest _ _ => some rest.value
  | .pushCas rest _ _ => some rest.value

theorem PC.inHand_of_holding {pc : PC T} (h : pc.holding ≠ none) (data : ℕ → T) :
    pc.inHand data ≠ none := by
  cases pc <;> first | exact absurd rfl h | exact Option.some_ne_none _

theorem PC.inHand_of_popping {pc : PC T} {call : Call T} (h : pc.popping = some call)
    (data : ℕ → T) : pc.inHand data = call.value := by
  cases pc <;> cases h <;> rfl

theorem PC.inHand_of_pushing {pc : PC T} {rest : Rest T} {node : ℕ}
    (h : pc.pushing = some (rest, node)) (data : ℕ → T) :
    pc.inHand data = some rest.value := by
  cases pc <;> cases h <;> rfl

/-- The step of another thread leaves the value in hand alone. -/
theorem Inv.inHand_frame {C : Capacity} {c : Config ι (Mem T) (PC T)}
    {H : List (ι × Event T)} (h : Inv C c H) {p q : ι} (hqp : q ≠ p) {m : Mem T}
    {ev : Option (Event T)} (hf : Frame c.mem m (c.pc p) ev) :
    (c.pc q).inHand m.data = (c.pc q).inHand c.mem.data := by
  generalize hpc : c.pc q = pc
  cases pc with
  | read node =>
      have hq : (c.pc q).holding = some node := by rw [hpc]; rfl
      exact congrArg some (hf.data node fun hp => h.holding_ne hp hq hqp rfl)
  | _ => rfl

/-- How a step passes values between the abstract stack and the thread that
takes it. -/
inductive Flow (s : List T) (hand : Option T) :
    Option (Event T) → List T → Option T → Prop
  | keep (ev) (hgive : ∀ node item, ev ≠ some (.give node item))
      (hlink : ∀ node value, ev ≠ some (.link node value))
      (hrefuse : ∀ call, ev ≠ some (.refuse call)) : Flow s hand ev s hand
  | unlink (node value s') (hs : s = value :: s') (hhand : hand = none) :
      Flow s hand (some (.unlink node)) s' (some value)
  | link (node value) (hhand : hand = some value) :
      Flow s hand (some (.link node value)) (value :: s) none
  | give (node item) (hhand : hand = some item) :
      Flow s hand (some (.give node item)) s none
  | refuse (call) (hhand : hand = call.value) :
      Flow s hand (some (.refuse call)) s none

theorem Flow.silent (s : List T) (hand : Option T) : Flow s hand none s hand :=
  Flow.keep none (by simp) (by simp) (by simp)

/-- Every access of a call in progress is such a flow. -/
theorem Inv.flow {C : Capacity} {c : Config ι (Mem T) (PC T)} {H : List (ι × Event T)}
    {moved : T → T} (h : Inv C c H) {p : ι} {m : Mem T} {pc : PC T}
    {ev : Option (Event T)} (he : Effect moved c.mem (c.pc p) m pc ev)
    (hbusy : c.pc p = .idle → pc = .idle) :
    Flow (stack H) ((c.pc p).inHand c.mem.data) ev
      (stack (H ++ (ev.map (Prod.mk p)).toList)) (pc.inHand m.data) := by
  have hloc := h.threads p
  generalize hpc : c.pc p = pc₀ at he hloc hbusy
  cases he <;>
    simp only [Option.map_none, Option.toList_none, List.append_nil, Option.map_some,
      Option.toList_some, stack_concat]
  case stay => exact Flow.silent _ _
  case start call => cases hbusy rfl
  case refuse call hnull hpop =>
      rw [PC.inHand_of_popping hpop]
      exact Flow.refuse call rfl
  case popObserve call hnull hpop =>
      rw [PC.inHand_of_popping hpop]
      exact Flow.keep _ (by simp) (by simp) (by simp)
  case popNext call raw => exact Flow.silent _ _
  case popWin call next =>
      cases call with
      | push value => exact Flow.keep (some (.take _)) (by simp) (by simp) (by simp)
      | pop =>
          have hlt : (unpack (c.mem.heads .data)).index < C.val := hloc.1
          have hC := C.le
          obtain ⟨L, hL, -⟩ := h.members_eq_cons (w := .data) (by
            rw [nullIndex]
            omega)
          rw [← h.values, hL]
          exact Flow.unlink _ _ _ rfl rfl
  case write value node => exact Flow.silent _ _
  case read node => exact Flow.silent _ _
  case pushObserve rest node hpush =>
      rw [PC.inHand_of_pushing hpush]
      exact Flow.keep _ (by simp) (by simp) (by simp)
  case pushNext rest node raw => exact Flow.silent _ _
  case pushWin rest node =>
      cases rest with
      | push value => exact Flow.link node value rfl
      | pop item => exact Flow.give node item rfl

/-- The thread is inside a `try_push`. -/
def PC.inPush : PC T → Prop
  | .popLoad call => call.value ≠ none
  | .popNext call _ => call.value ≠ none
  | .popCas call _ _ => call.value ≠ none
  | .write _ _ => True
  | .pushLoad rest _ => rest.target = .data
  | .pushNext rest _ _ => rest.target = .data
  | .pushCas rest _ _ => rest.target = .data
  | _ => False

theorem PC.inPush_of_popping {pc : PC T} {call : Call T} (h : pc.inPush)
    (hpop : pc.popping = some call) : ∃ value, call = .push value := by
  have hvalue : call.value ≠ none := by
    cases pc <;> cases hpop <;> exact h
  cases call with
  | push value => exact ⟨value, rfl⟩
  | pop => exact absurd rfl hvalue

/-- A `try_push` goes on, or links its node, or is refused. -/
theorem Effect.inPush {moved : T → T} {m m' : Mem T} {pc pc' : PC T}
    {ev : Option (Event T)} (he : Effect moved m pc m' pc' ev) (h : pc.inPush) :
    (pc'.inPush ∧ (∀ node item, ev ≠ some (.give node item))
        ∧ ∀ call, ev ≠ some (.refuse call))
      ∨ (pc' = .idle ∧ ∃ node value, ev = some (.link node value))
      ∨ ∃ value, ev = some (.refuse (.push value)) := by
  cases he with
  | stay => exact Or.inl ⟨h, nofun, nofun⟩
  | start call => exact h.elim
  | refuse pc call hpop hnull =>
      obtain ⟨value, rfl⟩ := PC.inPush_of_popping h hpop
      exact Or.inr (Or.inr ⟨value, rfl⟩)
  | popObserve pc call hpop hnull =>
      obtain ⟨value, rfl⟩ := PC.inPush_of_popping h hpop
      exact Or.inl ⟨Option.some_ne_none _, nofun, nofun⟩
  | popNext call raw => exact Or.inl ⟨h, nofun, nofun⟩
  | popWin call next =>
      cases call with
      | push value => exact Or.inl ⟨trivial, nofun, nofun⟩
      | pop => exact absurd rfl h
  | write value node => exact Or.inl ⟨rfl, nofun, nofun⟩
  | read node => exact h.elim
  | pushObserve pc rest node hpush =>
      refine Or.inl ⟨?_, nofun, nofun⟩
      cases pc <;> cases hpush <;> exact h
  | pushNext rest node raw => exact Or.inl ⟨h, nofun, nofun⟩
  | pushWin rest node =>
      cases rest with
      | push value => exact Or.inr (Or.inl ⟨rfl, node, value, rfl⟩)
      | pop item => cases h

/-! ## The refinement -/

theorem TagsDistinct.mono [DecidableEq ι]
    {S : System ι (Mem T) (PC T) (Choice (Call T)) (Event T)}
    {sched : ℕ → ι × Choice (Call T)} {m n : ℕ} (h : TagsDistinct S sched n)
    (hmn : m ≤ n) : TagsDistinct S sched m :=
  fun i hi => h i (by omega)

/-- **The committed operations form a legal history of a stack.** In every
run whose tags stay distinct:

1. a pop commits only when the abstract stack is not empty;
2. a pop that returns true delivers the value that was on top when it
   committed, with nothing but reads of a head in its thread since;
3. a pop returns false only if its last read of `head_` saw the abstract
   stack empty;
4. a push returns false only if at its last read of `free_head_` the size
   of the abstract stack and the number of operations that hold a node add
   up to the capacity. -/
theorem lifo_refinement [DecidableEq ι] (C : Capacity) (moved : T → T) (data : ℕ → T)
    (sched : ℕ → ι × Choice (Call T)) (n : ℕ)
    (hn : TagsDistinct (system moved ι C.val data) sched n) :
    let S := system moved ι C.val data
    (∀ j, j < n → ∀ p node, S.Fires sched j p (.unlink node) →
        stack (S.history sched j) ≠ [])
      ∧ (∀ k, k < n → ∀ p node item, S.Fires sched k p (.give node item) →
        ∃ j, j < k ∧ S.Fires sched j p (.unlink node)
          ∧ (stack (S.history sched j)).head? = some item
          ∧ ∀ m, j < m → m < k → ∀ e, S.Fires sched m p e → ∃ w, e = .observe w)
      ∧ (∀ j, j < n → ∀ p, S.Fires sched j p (.refuse .pop) →
        stack (S.history sched j) = [])
      ∧ (∀ j, j < n → ∀ p value, S.Fires sched j p (.refuse (.push value)) →
        (stack (S.history sched j)).length
          + {q | ((S.run sched j).pc q).holding ≠ none}.ncard = C.val) := by
  intro S
  have hinv : ∀ j, j < n → Inv C (S.run sched j) (S.history sched j) :=
    fun j hj => inv_run (hn.mono (Nat.le_of_lt hj))
  refine ⟨?_, ?_, ?_, ?_⟩
  · intro j hj p node hf
    have h := hinv j hj
    obtain ⟨next, hpc⟩ := (S.effect_of_fires prog_effect hf).of_unlink
    have hloc := h.threads p
    rw [hpc] at hloc
    have hlt : (unpack ((S.run sched j).mem.heads .data)).index < C.val := hloc.1
    have hC := C.le
    obtain ⟨L, hL, -⟩ := h.members_eq_cons (w := .data) (by
      rw [nullIndex]
      omega)
    rw [← h.values, hL]
    exact List.cons_ne_nil _ _
  · intro k hk p node item hf
    have hpc := (S.effect_of_fires prog_effect hf).of_give
    have hloc := (hinv k hk).threads p
    rw [hpc] at hloc
    obtain ⟨⟨H₁, hl, htop⟩, -⟩ := hloc
    obtain ⟨j, hj, rfl, hfj, hquiet⟩ := S.exists_fires_of_latest hl
    refine ⟨j, hj, hfj, htop, fun m hm hmk e he => ?_⟩
    exact Event.eq_observe (hquiet m hm hmk e he)
  · intro j hj p hf
    have h := hinv j hj
    have hnil := h.members_eq_nil (S.effect_of_fires prog_effect hf).of_refuse.2.2.2
    have hdata : members C (S.history sched j) .data = [] := hnil
    rw [← h.values, hdata, List.map_nil]
  · intro j hj p value hf
    have h := hinv j hj
    exact h.length_add_ncard
      (h.members_eq_nil (S.effect_of_fires prog_effect hf).of_refuse.2.2.2)

/-- A run with every outcome: on a stack of one node, a thread pushes 7 and
stalls before the commit of a pop of it, a second push finds no node, the
pop commits and returns, and another finds the stack empty. -/
def pushFullPopEmpty : ℕ → Bool × Choice (Call ℕ) := fun i =>
  [(true, .call (.push 7)), (true, .go), (true, .go), (true, .go), (true, .go),
    (true, .go), (true, .go), (true, .go),
    (true, .call .pop), (true, .go), (true, .go),
    (false, .call (.push 8)), (false, .go),
    (true, .go), (false, .call .pop), (false, .go)].getD i (true, .go)

/-- A stack of one node. -/
def oneNode : Capacity := ⟨1, Nat.one_pos, by decide⟩

theorem lifo_refinement_pushFullPopEmpty :
    ((system id Bool oneNode.val fun _ => 0).Fires pushFullPopEmpty 12 false
        (.refuse (.push 8))
      ∧ (system id Bool oneNode.val fun _ => 0).Fires pushFullPopEmpty 13 true (.unlink 0)
      ∧ (system id Bool oneNode.val fun _ => 0).Fires pushFullPopEmpty 15 false
        (.refuse .pop)
      ∧ (system id Bool oneNode.val fun _ => 0).Fires pushFullPopEmpty 19 true (.give 0 7))
      ∧ ∃ j, j < 19
        ∧ (system id Bool oneNode.val fun _ => 0).Fires pushFullPopEmpty j true (.unlink 0)
        ∧ (stack ((system id Bool oneNode.val fun _ => 0).history
          pushFullPopEmpty j)).head? = some 7 := by
  have hgive : (system id Bool oneNode.val fun _ => 0).Fires pushFullPopEmpty 19 true
      (.give 0 7) := by decide +kernel
  obtain ⟨j, hj, hf, htop, -⟩ := (lifo_refinement oneNode id (fun _ => 0) pushFullPopEmpty
    20 (tagsDistinct_of_lt _ _ (by decide))).2.1 19 (by decide) true 0 7 hgive
  exact ⟨by decide +kernel, j, hj, hf, htop⟩

end Stack

end Lockless
