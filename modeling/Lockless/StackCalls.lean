import Lockless.StackConstructor

/-!
# Calls of the array stack, one after another

With no other thread about, the array stack is a stack of bounded height:
`try_push` returns false when it is as high as the capacity and only then, `try_pop`
returns the value on top and false when there is none, and every call returns, also if
some of its compare-exchanges fail spuriously.

A call takes the top node off one list and puts it on top of the other, so what it does
is the same for both functions: only the two lists and what is done with the data of the
node in between differ.
-/

namespace Lockless

namespace Stack

variable {T : Type*}

/-! ## The two lists between calls -/

/-- The nodes on the two lists, top first. -/
structure Lists (m : Mem T) (L : Target → List ℕ) : Prop where
  chain : ∀ w, Chain m.next nullIndex (unpack (m.heads w)).index (L w)
  nodup : ∀ w, (L w).Nodup
  apart : ∀ {x}, x ∈ L .data → x ∉ L .free
  bound : ∀ {w x}, x ∈ L w → x < nullIndex

/-- A node that is on neither list. -/
structure Aside (L : Target → List ℕ) (x : ℕ) : Prop where
  off : ∀ w, x ∉ L w
  bound : x < nullIndex

namespace Lists

variable {m : Mem T} {L : Target → List ℕ} {L' : List ℕ} {w : Target} {x : ℕ}

theorem index_of_nil (h : Lists m L) (hw : L w = []) : (unpack (m.heads w)).index = nullIndex := by
  have hchain := h.chain w
  rw [hw] at hchain
  exact hchain

theorem index_of_cons (h : Lists m L) (hw : L w = x :: L') : (unpack (m.heads w)).index = x := by
  have hchain := h.chain w
  rw [hw] at hchain
  exact hchain.1

theorem bound_of_cons (h : Lists m L) (hw : L w = x :: L') : x < nullIndex :=
  h.bound (w := w) (by simp [hw])

/-- The node on top of one list is not on the other. -/
theorem not_mem_of_ne (h : Lists m L) {w' : Target} (hne : w' ≠ w) (hx : x ∈ L w) : x ∉ L w' := by
  cases w <;> cases w'
  · exact absurd rfl hne
  · exact h.apart hx
  · exact fun hx' => h.apart hx' hx
  · exact absurd rfl hne

/-- What a successful `pop_index` leaves. -/
theorem take (h : Lists m L) (hw : L w = x :: L') :
    Lists (m.setHead w (pack (m.next x) (wrap 32 ((unpack (m.heads w)).tag + 1))))
        (Function.update L w L')
      ∧ Aside (Function.update L w L') x := by
  have hchain := h.chain w
  have hnodup := h.nodup w
  rw [hw] at hchain hnodup
  obtain ⟨-, -, hrest⟩ := hchain
  obtain ⟨hx, hnodup'⟩ := List.nodup_cons.mp hnodup
  have hsub : ∀ {w' y}, y ∈ Function.update L w L' w' → y ∈ L w' := by
    intro w' y hy
    by_cases hne : w' = w
    · subst hne
      rw [Function.update_self] at hy
      rw [hw]
      exact List.mem_cons_of_mem x hy
    · rwa [Function.update_of_ne hne] at hy
  have hnext : m.next x < 2 ^ 32 := by
    rw [hrest.start_eq]
    cases L' with
    | nil => exact nullIndex_lt
    | cons y L' => exact (h.bound (w := w) (by simp [hw])).trans nullIndex_lt
  refine ⟨⟨fun w' => ?_, fun w' => ?_, fun hd hf => h.apart (hsub hd) (hsub hf),
    fun hy => h.bound (hsub hy)⟩, fun w' => ?_, h.bound_of_cons hw⟩
  · by_cases hne : w' = w
    · subst hne
      simp only [Mem.setHead, Function.update_self, unpack_pack hnext (wrap_lt _ _)]
      exact hrest
    · simp only [Mem.setHead, Function.update_of_ne hne]
      exact h.chain w'
  · by_cases hne : w' = w
    · subst hne
      rw [Function.update_self]
      exact hnodup'
    · rw [Function.update_of_ne hne]
      exact h.nodup w'
  · by_cases hne : w' = w
    · subst hne
      rw [Function.update_self]
      exact hx
    · rw [Function.update_of_ne hne]
      exact h.not_mem_of_ne hne (by simp [hw])

/-- A node that is on neither list is linked to another one. -/
theorem relink (h : Lists m L) (hx : Aside L x) (y : ℕ) :
    Lists { m with next := Function.update m.next x y } L := by
  refine ⟨fun w => (h.chain w).congr fun z hz => ?_, h.nodup, h.apart, h.bound⟩
  have hzx : z ≠ x := by
    rintro rfl
    exact hx.off w hz
  exact Function.update_of_ne hzx _ _

/-- What a successful `push_index` of the node leaves. -/
theorem give (h : Lists m L) (hx : Aside L x) (hnext : m.next x = (unpack (m.heads w)).index)
    (tag : ℕ) :
    Lists (m.setHead w (pack x (wrap 32 (tag + 1)))) (Function.update L w (x :: L w)) := by
  have hmem : ∀ {w' y}, y ∈ Function.update L w (x :: L w) w' →
      (y = x ∧ w' = w) ∨ y ∈ L w' := by
    intro w' y hy
    by_cases hne : w' = w
    · subst hne
      rw [Function.update_self, List.mem_cons] at hy
      exact hy.imp_left fun h => ⟨h, rfl⟩
    · rw [Function.update_of_ne hne] at hy
      exact Or.inr hy
  refine ⟨fun w' => ?_, fun w' => ?_, fun hd hf => ?_, fun hy => ?_⟩
  · by_cases hne : w' = w
    · subst hne
      simp only [Mem.setHead, Function.update_self,
        unpack_pack (hx.bound.trans nullIndex_lt) (wrap_lt _ _)]
      refine ⟨rfl, hx.bound.ne, ?_⟩
      rw [hnext]
      exact h.chain w'
    · simp only [Mem.setHead, Function.update_of_ne hne]
      exact h.chain w'
  · by_cases hne : w' = w
    · subst hne
      rw [Function.update_self]
      exact List.nodup_cons.mpr ⟨hx.off w', h.nodup w'⟩
    · rw [Function.update_of_ne hne]
      exact h.nodup w'
  · rcases hmem hd with ⟨rfl, rfl⟩ | hd <;> rcases hmem hf with ⟨hy, hw⟩ | hf
    · cases hw
    · exact hx.off _ hf
    · exact hx.off _ (hy ▸ hd)
    · exact h.apart hd hf
  · rcases hmem hy with ⟨rfl, -⟩ | hy
    · exact hx.bound
    · exact h.bound hy

/-- The data of the nodes is of no importance to the lists. -/
theorem setData (h : Lists m L) (data : ℕ → T) : Lists { m with data := data } L :=
  ⟨h.chain, h.nodup, h.apart, h.bound⟩

theorem initial (C : Capacity) (data : ℕ → T) :
    Lists (initMem C.val data) fun
      | .data => []
      | .free => List.range C.val := by
  have hfree := FreeList.initial C data
  refine ⟨fun w => ?_, fun w => ?_, fun h => absurd h List.not_mem_nil, fun {w x} hx => ?_⟩
  · cases w with
    | data =>
        show (unpack (pack nullIndex 0)).index = nullIndex
        decide
    | free => exact hfree.chain
  · cases w with
    | data => exact List.nodup_nil
    | free => exact hfree.nodup
  · cases w with
    | data => exact absurd hx List.not_mem_nil
    | free => exact hfree.bound hx

end Lists

/-! ## Inside a call -/

/-- What the call does with a node that has the data `item`. -/
def Call.rest : Call T → T → Rest T
  | .push value, _ => .push value
  | .pop, item => .pop item

/-- A call, made with the lists `L` and the data `data`, has the node `x` in hand, which was
on top of the list it takes from. -/
structure InHand (call : Call T) (L : Target → List ℕ) (x : ℕ) (m : Mem T)
    (rest : List ℕ) : Prop where
  top : L call.source = x :: rest
  lists : Lists m (Function.update L call.source rest)
  aside : Aside (Function.update L call.source rest) x

/-- The data are those before the call, and that of the node is what the call leaves. -/
def Written (call : Call T) (data : ℕ → T) (x : ℕ) (m : Mem T) : Prop :=
  (∀ y, y ≠ x → m.data y = data y) ∧ ∀ value, call = .push value → m.data x = value

/-- Inside a call that was made with the lists `L` and the data `data`. -/
def InCall (call : Call T) (L : Target → List ℕ) (data : ℕ → T) (m : Mem T) : PC T → Prop
  | .popLoad c => c = call ∧ Lists m L ∧ m.data = data
  | .popNext c raw =>
      c = call ∧ Lists m L ∧ m.data = data ∧ raw = m.heads call.source ∧ L call.source ≠ []
  | .popCas c raw next =>
      c = call ∧ Lists m L ∧ m.data = data ∧ raw = m.heads call.source
        ∧ ∃ x L', L call.source = x :: L' ∧ next = m.next x
  | .write v x => call = .push v ∧ m.data = data ∧ ∃ L', InHand call L x m L'
  | .read x => call = .pop ∧ m.data = data ∧ ∃ L', InHand call L x m L'
  | .pushLoad rest x =>
      rest = call.rest (data x) ∧ Written call data x m ∧ ∃ L', InHand call L x m L'
  | .pushNext rest x raw =>
      rest = call.rest (data x) ∧ Written call data x m ∧ raw = m.heads rest.target
        ∧ ∃ L', InHand call L x m L'
  | .pushCas rest x raw =>
      rest = call.rest (data x) ∧ Written call data x m ∧ raw = m.heads rest.target
        ∧ m.next x = (unpack raw).index ∧ ∃ L', InHand call L x m L'
  | .idle => False

/-- The call has returned: it has found no node, or it has moved the top one over. -/
def Moved (call : Call T) (L : Target → List ℕ) (data : ℕ → T) (m : Mem T) (e : Event T) : Prop :=
  (e = .refuse call ∧ L call.source = [] ∧ Lists m L ∧ m.data = data)
    ∨ ∃ x L', L call.source = x :: L' ∧ e = (call.rest (data x)).won x ∧ Written call data x m
      ∧ Lists m (Function.update (Function.update L call.source L') (call.rest (data x)).target
        (x :: L (call.rest (data x)).target))

/-- What a call answers: whether `try_push` has succeeded, or what `try_pop` delivers. -/
inductive Answer (T : Type*) where
  | push (ok : Bool)
  | pop (item : Option T)
deriving DecidableEq

/-- The answer at the last event of a call. -/
def Event.answer : Event T → Option (Answer T)
  | .link _ _ => some (.push true)
  | .refuse (.push _) => some (.push false)
  | .give _ item => some (.pop (some item))
  | .refuse .pop => some (.pop none)
  | _ => none

theorem Call.source_ne_target (call : Call T) (item : T) :
    (call.rest item).target ≠ call.source := by
  cases call <;> nofun

theorem answer_none : ∀ e ∈ (none : Option (Event T)), e.answer = none := by
  intro e he
  cases he

section Step

variable {call : Call T} {L : Target → List ℕ} {data : ℕ → T} {m : Mem T}

/-- The call goes on, nearer to its end unless a compare-exchange has failed, or it is over. -/
def Onward (call : Call T) (L : Target → List ℕ) (data : ℕ → T) (k : ℕ) (adverse : Prop)
    (o : Outcome (Mem T) (PC T) (Event T)) : Prop :=
  Proceeds (InCall call L data) (fun e => e.answer = none) (Moved call L data) PC.left .idle k
    adverse o

theorem Onward.popTest (h : Lists m L) (hdata : m.data = data) {k : ℕ} {adverse : Prop}
    (hk : 6 < k ∨ adverse) :
    Onward call L data k adverse (popTest m call (m.heads call.source)) := by
  unfold Stack.popTest
  cases hL : L call.source with
  | nil =>
      rw [if_pos (h.index_of_nil hL)]
      exact Or.inr ⟨rfl, _, rfl, Or.inl ⟨rfl, hL, h, hdata⟩⟩
  | cons x L' =>
      have hne : (unpack (m.heads call.source)).index ≠ nullIndex := by
        rw [h.index_of_cons hL]
        exact (h.bound_of_cons hL).ne
      rw [if_neg hne]
      exact Or.inl ⟨⟨rfl, h, hdata, rfl, by simp [hL]⟩, by simp [Event.answer], hk⟩

theorem InCall.access (moved : T → T) {pc : PC T} (h : InCall call L data m pc)
    (spurious : Bool) :
    Onward call L data pc.left (spurious = true) (access moved m spurious pc) := by
  cases pc with
  | idle => exact h.elim
  | popLoad c =>
      obtain ⟨rfl, hlists, hdata⟩ := h
      exact .popTest hlists hdata (Or.inl (Nat.lt_succ_self _))
  | popNext c raw =>
      obtain ⟨rfl, hlists, hdata, rfl, hne⟩ := h
      obtain ⟨x, L', hL⟩ := List.exists_cons_of_ne_nil hne
      refine Or.inl ⟨⟨rfl, hlists, hdata, rfl, x, L', hL, ?_⟩, answer_none,
        Or.inl (Nat.lt_succ_self _)⟩
      exact congrArg m.next (hlists.index_of_cons hL)
  | popCas c raw next =>
      obtain ⟨rfl, hlists, hdata, rfl, x, L', hL, rfl⟩ := h
      simp only [Stack.access, true_and]
      split_ifs with hspurious
      · simp only [hlists.index_of_cons hL]
        obtain ⟨htaken, haside⟩ := hlists.take hL
        have hin : InHand c L x _ L' := ⟨hL, htaken, haside⟩
        cases c with
        | push value =>
            exact Or.inl ⟨⟨rfl, hdata, L', hin⟩, by simp [Call.won, Event.answer],
              Or.inl (Nat.lt_succ_self _)⟩
        | pop =>
            exact Or.inl ⟨⟨rfl, hdata, L', hin⟩, by simp [Call.won, Event.answer],
              Or.inl (Nat.lt_succ_self _)⟩
      · exact .popTest hlists hdata (Or.inr (Bool.not_eq_false _ ▸ hspurious))
  | write v x =>
      obtain ⟨rfl, rfl, L', hin⟩ := h
      refine Or.inl ⟨⟨rfl, ⟨fun y hy => Function.update_of_ne hy _ _, ?_⟩, L', hin.top,
        hin.lists.setData _, hin.aside⟩, answer_none, Or.inl (Nat.lt_succ_self _)⟩
      rintro value heq
      cases heq
      exact Function.update_self _ _ _
  | read x =>
      obtain ⟨rfl, rfl, L', hin⟩ := h
      refine Or.inl ⟨⟨rfl, ⟨fun y hy => Function.update_of_ne hy _ _, ?_⟩, L', hin.top,
        hin.lists.setData _, hin.aside⟩, answer_none, Or.inl (Nat.lt_succ_self _)⟩
      rintro value heq
      cases heq
  | pushLoad rest x =>
      obtain ⟨rfl, hwritten, L', hin⟩ := h
      exact Or.inl ⟨⟨rfl, hwritten, rfl, L', hin⟩, by simp [Stack.access, Event.answer],
        Or.inl (Nat.lt_succ_self _)⟩
  | pushNext rest x raw =>
      obtain ⟨rfl, hwritten, rfl, L', hin⟩ := h
      exact Or.inl ⟨⟨rfl, hwritten, rfl, Function.update_self _ _ _, L', hin.top,
        hin.lists.relink hin.aside _, hin.aside⟩, answer_none, Or.inl (Nat.lt_succ_self _)⟩
  | pushCas rest x raw =>
      obtain ⟨rfl, hwritten, rfl, hnext, L', hin⟩ := h
      simp only [Stack.access, true_and]
      split_ifs with hspurious
      · have hgiven := hin.lists.give hin.aside hnext
          (unpack (m.heads (call.rest (data x)).target)).tag
        rw [Function.update_of_ne (call.source_ne_target (data x))] at hgiven
        exact Or.inr ⟨rfl, _, rfl, Or.inr ⟨x, L', hin.top, rfl, hwritten, hgiven⟩⟩
      · exact Or.inl ⟨⟨rfl, hwritten, rfl, L', hin⟩, by simp [Event.answer],
          Or.inr (Bool.not_eq_false _ ▸ hspurious)⟩

theorem InCall.step (moved : T → T) {pc : PC T} {ch : Choice (Call T)}
    (h : InCall call L data m pc) (hch : ∀ op, ch ≠ .call op) :
    Onward call L data pc.left (ch ≠ .go) (prog moved m pc ch) := by
  obtain ⟨spurious, heq, hadverse⟩ := prog_access moved m pc hch
  rw [heq]
  exact (h.access moved spurious).weaken hadverse

end Step

/-! ## A stack of bounded height -/

/-- What the array stack is for: a stack, top first, that is at most as high as the
capacity. -/
def boundedStack (capacity : ℕ) (s : List T) : Call T → List T × Answer T
  | .push value =>
      if s.length < capacity then (value :: s, .push true) else (s, .push false)
  | .pop => (s.tail, .pop s.head?)

/-- The memory represents a stack, between calls. -/
def Represents (capacity : ℕ) (m : Mem T) (s : List T) : Prop :=
  ∃ L, Lists m L ∧ (L .data).map m.data = s ∧ (L .data).length + (L .free).length = capacity

theorem Represents.initial (C : Capacity) (data : ℕ → T) :
    Represents C.val (initMem C.val data) [] :=
  ⟨_, Lists.initial C data, rfl, by simp⟩

/-- A call does to the stack represented what it is for. -/
theorem Moved.represents {call : Call T} {L : Target → List ℕ} {m₀ m : Mem T} {e : Event T}
    {capacity : ℕ} (hlists : Lists m₀ L)
    (hlen : (L .data).length + (L .free).length = capacity)
    (h : Moved call L m₀.data m e) :
    Represents capacity m (boundedStack capacity ((L .data).map m₀.data) call).1
      ∧ e.answer = some (boundedStack capacity ((L .data).map m₀.data) call).2 := by
  cases call with
  | push value =>
      rcases h with ⟨rfl, hnil, hlists', hdata⟩ | ⟨x, L', hL, rfl, hwritten, hlists'⟩
      · have hnil : L .free = [] := hnil
        rw [hnil] at hlen
        have hfull : ¬ ((L .data).map m₀.data).length < capacity := by
          rw [List.length_map, ← hlen]
          exact Nat.lt_irrefl _
        rw [boundedStack, if_neg hfull]
        exact ⟨⟨L, hlists', by rw [hdata], by rw [hnil]; exact hlen⟩, rfl⟩
      · have hL : L .free = x :: L' := hL
        rw [hL, List.length_cons] at hlen
        have hroom : ((L .data).map m₀.data).length < capacity := by
          rw [List.length_map]
          omega
        have hx : x ∉ L .data := hlists.not_mem_of_ne (w := .free) (by decide) (by simp [hL])
        have hkept : (L .data).map m.data = (L .data).map m₀.data :=
          List.map_congr_left fun y hy => hwritten.1 y fun h => hx (h ▸ hy)
        rw [boundedStack, if_pos hroom]
        refine ⟨⟨_, hlists', ?_, ?_⟩, rfl⟩
        · show m.data x :: (L .data).map m.data = _
          rw [hwritten.2 value rfl, hkept]
        · show (x :: L .data).length + L'.length = _
          rw [List.length_cons]
          omega
  | pop =>
      rcases h with ⟨rfl, hnil, hlists', hdata⟩ | ⟨x, L', hL, rfl, hwritten, hlists'⟩
      · have hnil : L .data = [] := hnil
        rw [boundedStack, hnil]
        exact ⟨⟨L, hlists', by rw [hnil]; rfl, hlen⟩, rfl⟩
      · have hL : L .data = x :: L' := hL
        have hnodup := hlists.nodup .data
        rw [hL] at hnodup hlen
        have hx := (List.nodup_cons.mp hnodup).1
        have hkept : L'.map m.data = L'.map m₀.data :=
          List.map_congr_left fun y hy => hwritten.1 y fun h => hx (h ▸ hy)
        rw [boundedStack, hL]
        refine ⟨⟨_, hlists', hkept, ?_⟩, rfl⟩
        show L'.length + (x :: L .free).length = _
        rw [List.length_cons] at hlen ⊢
        omega

theorem Represents.ends {moved : T → T} {capacity : ℕ} {m₀ m : Mem T} {s : List T}
    (h : Represents capacity m₀ s) {call : Call T} {evs : List (Event T)}
    (hrun : Ends (prog moved) .idle m₀ (.popLoad call) m evs) :
    Represents capacity m (boundedStack capacity s call).1
      ∧ evs.filterMap Event.answer = [(boundedStack capacity s call).2] := by
  obtain ⟨L, hlists, rfl, hlen⟩ := h
  obtain ⟨evs', e, rfl, hquiet, hmoved⟩ := Ends.of_proceeds PC.left
    (fun m pc ch (h : InCall call L m₀.data m pc) hch => h.step moved hch) (fun _ => id) hrun
    ⟨rfl, hlists, rfl⟩
  obtain ⟨hrep, hanswer⟩ := hmoved.represents hlists hlen
  refine ⟨hrep, ?_⟩
  rw [List.filterMap_append, List.filterMap_eq_nil_iff.mpr hquiet, List.nil_append,
    List.filterMap_cons, hanswer, List.filterMap_nil]

theorem Represents.returns (moved : T → T) {capacity : ℕ} {m₀ : Mem T} {s : List T}
    (h : Represents capacity m₀ s) (call : Call T) :
    Returns (prog moved) .idle m₀ (.popLoad call) := by
  obtain ⟨L, hlists, -, -⟩ := h
  refine Returns.of_proceeds PC.left
    (fun m pc ch (h : InCall call L m₀.data m pc) hch => h.step moved hch) (fun m ch hch => ?_)
    ⟨rfl, hlists, rfl⟩
  rcases Choice.go_or_fault hch with rfl | rfl <;> rfl

/-- Calls one after another take the stack represented through what they are for. -/
theorem Represents.calls {moved : T → T} {capacity : ℕ} {m₀ m : Mem T} {s : List T}
    (h : Represents capacity m₀ s) {L : List (Lockless.Call (Mem T) (Call T) (Event T))}
    (hlog : CallLog (Ends (prog moved) .idle) .popLoad m₀ m L) :
    Represents capacity m (stateAfter (boundedStack capacity) s (L.map (·.op)))
      ∧ L.map (fun c => c.events.filterMap Event.answer)
        = (answers (boundedStack capacity) s (L.map (·.op))).map (fun a => [a]) :=
  hlog.refines (boundedStack capacity) (Represents capacity) (List.filterMap Event.answer)
    (fun a => [a]) (fun h hrun => h.ends hrun) h

/-- Calls one after another on a new stack, whichever of their compare-exchanges fail
spuriously, answer what those of a stack of bounded height do, and every call returns. -/
theorem refines_boundedStack (moved : T → T) (C : Capacity) (data : ℕ → T) {m : Mem T}
    {L : List (Lockless.Call (Mem T) (Call T) (Event T))}
    (hlog : CallLog (Ends (prog moved) .idle) .popLoad (initMem C.val data) m L) :
    L.map (fun c => c.events.filterMap Event.answer)
        = (answers (boundedStack C.val) [] (L.map (·.op))).map (fun a => [a])
      ∧ ∀ call, Returns (prog moved) .idle m (.popLoad call) := by
  obtain ⟨hrep, hanswers⟩ := (Represents.initial C data).calls hlog
  exact ⟨hanswers, hrep.returns moved⟩

/-- Of three pushes on a stack of two nodes the third fails, and the pops deliver the others. -/
theorem refines_boundedStack_two :
    ∃ m L, CallLog (Ends (prog id) .idle) .popLoad (initMem 2 fun _ => 0) m L
      ∧ L.map (·.op) = [.push 7, .push 8, .push 9, .pop, .pop, .pop]
      ∧ L.map (fun c => c.events.filterMap Event.answer)
        = [[.push true], [.push true], [.push false], [.pop (some 8)], [.pop (some 7)],
          [.pop none]] := by
  have hlog := fun {m L} => refines_boundedStack id ⟨2, by decide, by decide⟩ (fun _ => 0)
    (m := m) (L := L)
  obtain ⟨m, L, h, hops⟩ := exists_callLog (fun m L h op => ((hlog h).2 op).ends)
    [.push 7, .push 8, .push 9, .pop, .pop, .pop]
  refine ⟨m, L, h, hops, ?_⟩
  rw [(hlog h).1, hops]
  decide

end Stack

end Lockless
