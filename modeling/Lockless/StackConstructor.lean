import Lockless.Serial
import Lockless.StackNodes

/-!
# The constructor of the array stack

The constructor chains all nodes into the free list: each of them is linked to the
next one, and the last one to `NULL_INDEX`. The loop bound `capacity - 1` is a
`size_t`, so for the capacity 0 it is `2 ^ 64 - 1`; and the links are 32-bit values,
the greatest of which is `NULL_INDEX`, so no node from `2 ^ 32 - 1` on can be linked.
For every capacity between the two the chain is as it should be.

`try_push` called by one thread takes the first node off the free list if there is
one, so a new stack takes as many values as its chain has nodes.
-/

namespace Lockless

namespace Stack

variable {T : Type*}

/-! ## The free list of a stack that one thread uses -/

/-- The nodes on the free list, first to last. -/
structure FreeList (m : Mem T) (L : List ℕ) : Prop where
  chain : Chain m.next nullIndex (unpack (m.heads .free)).index L
  nodup : L.Nodup
  bound : ∀ {x}, x ∈ L → x < nullIndex

/-- Inside a `try_push` of the value, which found the nodes `L` on the free list. -/
def InPush (value : T) (L : List ℕ) (m : Mem T) : PC T → Prop
  | .popLoad call => call = .push value ∧ FreeList m L
  | .popNext call raw => call = .push value ∧ FreeList m L ∧ raw = m.heads .free ∧ L ≠ []
  | .popCas call raw next =>
      call = .push value ∧ FreeList m L ∧ raw = m.heads .free
        ∧ ∃ x L', L = x :: L' ∧ next = m.next x
  | .write v x => v = value ∧ ∃ L', L = x :: L' ∧ FreeList m L' ∧ x ∉ L'
  | .pushLoad rest x => rest = .push value ∧ ∃ L', L = x :: L' ∧ FreeList m L' ∧ x ∉ L'
  | .pushNext rest x raw =>
      rest = .push value ∧ raw = m.heads .data ∧ ∃ L', L = x :: L' ∧ FreeList m L' ∧ x ∉ L'
  | .pushCas rest x raw =>
      rest = .push value ∧ raw = m.heads .data ∧ ∃ L', L = x :: L' ∧ FreeList m L' ∧ x ∉ L'
  | _ => False

/-- The return of the `try_push`: false if there is no free node, else the first one
is off the list. -/
def Pushed (value : T) (L : List ℕ) (m : Mem T) (e : Event T) : Prop :=
  FreeList m L.tail
    ∧ ((L = [] ∧ e = .refuse (.push value)) ∨ ∃ x L', L = x :: L' ∧ e = .link x value)

/-- How many accesses there are until a call returns, if none fails. -/
def PC.left : PC T → ℕ
  | .idle => 0
  | .popLoad _ => 7
  | .popNext _ _ => 6
  | .popCas _ _ _ => 5
  | .write _ _ => 4
  | .read _ => 4
  | .pushLoad _ _ => 3
  | .pushNext _ _ _ => 2
  | .pushCas _ _ _ => 1

/-- The return value of `try_push`, at its last event. -/
def Event.returned : Event T → Option Bool
  | .link _ _ => some true
  | .refuse _ => some false
  | _ => none

theorem nullIndex_lt : nullIndex < 2 ^ 32 := by decide

namespace FreeList

variable {m : Mem T} {L : List ℕ} {x : ℕ}

theorem index_of_nil (h : FreeList m []) : (unpack (m.heads .free)).index = nullIndex :=
  h.chain

theorem index_of_cons (h : FreeList m (x :: L)) : (unpack (m.heads .free)).index = x :=
  h.chain.1

theorem not_mem (h : FreeList m (x :: L)) : x ∉ L := (List.nodup_cons.mp h.nodup).1

/-- The first node comes off. -/
theorem take (h : FreeList m (x :: L)) :
    FreeList (m.setHead .free (pack (m.next x)
      (wrap 32 ((unpack (m.heads .free)).tag + 1)))) L := by
  obtain ⟨-, -, hchain⟩ := h.chain
  have hnext : m.next x < 2 ^ 32 := by
    rw [hchain.start_eq]
    cases L with
    | nil => exact nullIndex_lt
    | cons y L => exact (h.bound (by simp)).trans nullIndex_lt
  refine ⟨?_, (List.nodup_cons.mp h.nodup).2, fun hy => h.bound (List.mem_cons_of_mem x hy)⟩
  simp only [Mem.setHead, Function.update_self, unpack_pack hnext (wrap_lt _ _)]
  exact hchain

/-- A node that is not on the list is linked elsewhere. -/
theorem relink (h : FreeList m L) (hx : x ∉ L) (y : ℕ) :
    FreeList { m with next := Function.update m.next x y } L := by
  refine ⟨h.chain.congr fun z hz => ?_, h.nodup, h.bound⟩
  have hzx : z ≠ x := by
    rintro rfl
    exact hx hz
  exact Function.update_of_ne hzx _ _

end FreeList

section Step

variable {value : T} {L : List ℕ} {m : Mem T}

/-- The call goes on, nearer to its end unless a compare-exchange has failed, or it is
over. -/
def Goes (value : T) (L : List ℕ) (k : ℕ) (adverse : Prop)
    (o : Outcome (Mem T) (PC T) (Event T)) : Prop :=
  Proceeds (InPush value L) (fun e => e.returned = none) (Pushed value L) PC.left .idle k adverse o

/-- The head of the loop of `pop_index`. -/
theorem Goes.popTest (h : FreeList m L) {k : ℕ} {adverse : Prop} (hk : 6 < k ∨ adverse) :
    Goes value L k adverse (popTest m (.push value) (m.heads .free)) := by
  unfold Stack.popTest
  cases L with
  | nil =>
      rw [if_pos h.index_of_nil]
      exact Or.inr ⟨rfl, _, rfl, h, Or.inl ⟨rfl, rfl⟩⟩
  | cons x L =>
      have hne : (unpack (m.heads .free)).index ≠ nullIndex := by
        rw [h.index_of_cons]
        exact (h.bound List.mem_cons_self).ne
      rw [if_neg hne]
      exact Or.inl ⟨⟨rfl, h, rfl, by simp⟩, by simp [Event.returned], hk⟩

theorem returned_none : ∀ e ∈ (none : Option (Event T)), e.returned = none := by
  intro e he
  cases he

theorem InPush.access (moved : T → T) {pc : PC T} (h : InPush value L m pc)
    (spurious : Bool) :
    Goes value L pc.left (spurious = true) (access moved m spurious pc) := by
  cases pc with
  | idle => exact h.elim
  | read node => exact h.elim
  | popLoad call =>
      obtain ⟨rfl, hfree⟩ := h
      exact .popTest hfree (Or.inl (Nat.lt_succ_self _))
  | popNext call raw =>
      obtain ⟨rfl, hfree, rfl, hne⟩ := h
      obtain ⟨x, L', rfl⟩ := List.exists_cons_of_ne_nil hne
      refine Or.inl ⟨⟨rfl, hfree, rfl, x, L', rfl, ?_⟩, returned_none,
        Or.inl (Nat.lt_succ_self _)⟩
      exact congrArg m.next hfree.index_of_cons
  | popCas call raw next =>
      obtain ⟨rfl, hfree, rfl, x, L', rfl, rfl⟩ := h
      simp only [Stack.access, Call.source, true_and]
      split_ifs with hspurious
      · simp only [hfree.index_of_cons]
        exact Or.inl ⟨⟨rfl, L', rfl, hfree.take, hfree.not_mem⟩, by simp [Call.won, Event.returned],
          Or.inl (Nat.lt_succ_self _)⟩
      · exact .popTest hfree (Or.inr (Bool.not_eq_false _ ▸ hspurious))
  | write v x =>
      obtain ⟨rfl, L', rfl, hfree, hx⟩ := h
      exact Or.inl ⟨⟨rfl, L', rfl, ⟨hfree.chain, hfree.nodup, hfree.bound⟩, hx⟩, returned_none,
        Or.inl (Nat.lt_succ_self _)⟩
  | pushLoad rest x =>
      obtain ⟨rfl, L', rfl, hfree, hx⟩ := h
      exact Or.inl ⟨⟨rfl, rfl, L', rfl, hfree, hx⟩, by simp [Stack.access, Event.returned],
        Or.inl (Nat.lt_succ_self _)⟩
  | pushNext rest x raw =>
      obtain ⟨rfl, rfl, L', rfl, hfree, hx⟩ := h
      exact Or.inl ⟨⟨rfl, rfl, L', rfl, hfree.relink hx _, hx⟩, returned_none,
        Or.inl (Nat.lt_succ_self _)⟩
  | pushCas rest x raw =>
      obtain ⟨rfl, rfl, L', rfl, hfree, hx⟩ := h
      simp only [Stack.access, Rest.target, true_and]
      split_ifs with hspurious
      · exact Or.inr ⟨rfl, _, rfl, ⟨hfree.chain, hfree.nodup, hfree.bound⟩,
          Or.inr ⟨x, L', rfl, rfl⟩⟩
      · exact Or.inl ⟨⟨rfl, rfl, L', rfl, hfree, hx⟩, by simp [Event.returned],
          Or.inr (Bool.not_eq_false _ ▸ hspurious)⟩

theorem prog_access (moved : T → T) (m : Mem T) (pc : PC T) {ch : Choice (Call T)}
    (hch : ∀ op, ch ≠ .call op) : ∃ spurious, prog moved m pc ch = access moved m spurious pc
      ∧ (spurious = true → ch ≠ .go) := by
  rcases Choice.go_or_fault hch with rfl | rfl
  · exact ⟨false, by cases pc <;> rfl, nofun⟩
  · exact ⟨true, by cases pc <;> rfl, nofun⟩

theorem InPush.step (moved : T → T) {pc : PC T} {ch : Choice (Call T)}
    (h : InPush value L m pc) (hch : ∀ op, ch ≠ .call op) :
    Goes value L pc.left (ch ≠ .go) (prog moved m pc ch) := by
  obtain ⟨spurious, heq, hadverse⟩ := prog_access moved m pc hch
  rw [heq]
  exact (h.access moved spurious).weaken hadverse

/-- What a `try_push` of a thread alone does. -/
theorem FreeList.push {moved : T → T} {m' : Mem T} {evs : List (Event T)} (h : FreeList m L)
    (hrun : Ends (prog moved) .idle m (.popLoad (.push value)) m' evs) :
    FreeList m' L.tail ∧ evs.filterMap Event.returned = [decide (L ≠ [])] := by
  obtain ⟨evs', e, rfl, hquiet, hfree, hlast⟩ := Ends.of_proceeds PC.left
    (fun m pc ch (h : InPush value L m pc) hch => h.step moved hch) (fun _ => id) hrun ⟨rfl, h⟩
  refine ⟨hfree, ?_⟩
  rw [List.filterMap_append, List.filterMap_eq_nil_iff.mpr hquiet, List.nil_append]
  rcases hlast with ⟨rfl, rfl⟩ | ⟨x, L', rfl, rfl⟩
  · rfl
  · rfl

theorem FreeList.returns (moved : T → T) (h : FreeList m L) (value : T) :
    Returns (prog moved) .idle m (.popLoad (.push value)) := by
  refine Returns.of_proceeds PC.left
    (fun m pc ch (h : InPush value L m pc) hch => h.step moved hch) (fun m ch hch => ?_) ⟨rfl, h⟩
  rcases Choice.go_or_fault hch with rfl | rfl <;> rfl

end Step

/-- Calls of `try_push` one after another take the nodes off the free list, and fail when
there are none left. -/
theorem FreeList.pushes {moved : T → T} {m₀ m : Mem T} {L₀ : List ℕ}
    {L : List (Lockless.Call (Mem T) (Call T) (Event T))} (h : FreeList m₀ L₀)
    (hlog : CallLog (Ends (prog moved) .idle) .popLoad m₀ m L)
    (hops : ∀ k ∈ L, ∃ value, k.op = .push value) :
    FreeList m (L₀.drop L.length)
      ∧ L.flatMap (fun k => k.events.filterMap Event.returned)
        = (List.range L.length).map fun i => decide (i < L₀.length) := by
  induction hlog with
  | init => exact ⟨h, rfl⟩
  | @call m L op m' evs _ hrun ih =>
      obtain ⟨hfree, hresults⟩ := ih fun k hk => hops k (List.mem_append_left _ hk)
      obtain ⟨value, rfl⟩ := hops ⟨op, m, m', evs⟩ (by simp)
      obtain ⟨hfree', hresult⟩ := hfree.push hrun
      rw [List.tail_drop] at hfree'
      refine ⟨by simpa using hfree', ?_⟩
      have hne : (L₀.drop L.length ≠ []) ↔ L.length < L₀.length := by
        rw [ne_eq, List.drop_eq_nil_iff, Nat.not_le]
      simp only [List.flatMap_append, hresults, List.flatMap_cons, List.flatMap_nil,
        List.append_nil, hresult, hne, List.length_append, List.length_singleton,
        List.range_succ, List.map_append, List.map_cons, List.map_nil]

/-! ## Capacities -/

/-- What the constructor is for. Every store is to a node of the array; the chain from
`free_head_` visits every node once; and calls of `try_push` one after another on the
new stack return, `capacity` of them true and the next one false. -/
structure Constructs (moved : T → T) (data : ℕ → T) (capacity : ℕ) : Prop where
  bound : ∀ store ∈ constructorStores capacity, store.1 < capacity
  chain : ∃ L : List ℕ, L.Nodup ∧ (∀ i, i ∈ L ↔ i < capacity)
    ∧ Chain (initMem capacity data).next nullIndex
      (unpack ((initMem capacity data).heads .free)).index L
  returns : ∀ m L value, CallLog (Ends (prog moved) .idle) .popLoad (initMem capacity data) m L →
    (∀ k ∈ L, ∃ value, k.op = .push value) →
    Returns (prog moved) .idle m (.popLoad (.push value))
  fills : ∀ m L, CallLog (Ends (prog moved) .idle) .popLoad (initMem capacity data) m L →
    (∀ k ∈ L, ∃ value, k.op = .push value) → L.length = capacity + 1 →
    L.flatMap (fun k => k.events.filterMap Event.returned)
      = List.replicate capacity true ++ [false]

theorem FreeList.initial (C : Capacity) (data : ℕ → T) :
    FreeList (initMem C.val data) (List.range C.val) := by
  have hpos := C.pos
  have hle := C.le
  have hchain := initMem_chain C data C.val 0 (by omega)
  rw [← List.range_eq_range'] at hchain
  refine ⟨?_, List.nodup_range, fun hx => ?_⟩
  · have hzero : (unpack ((initMem C.val data).heads .free)).index
        = (List.range C.val).headD nullIndex := by
      rw [List.range_eq_range', show C.val = C.val - 1 + 1 by omega, List.range'_succ]
      show (unpack (pack 0 0)).index = 0
      decide
    rw [hzero]
    exact hchain
  · have hlt := List.mem_range.mp hx
    unfold nullIndex
    omega

theorem constructorStores_lt (C : Capacity) {store : ℕ × ℕ}
    (h : store ∈ constructorStores C.val) : store.1 < C.val := by
  have hpos := C.pos
  have hle := C.le
  have hlast : wrap 64 (C.val + (2 ^ 64 - 1)) = C.val - 1 := by
    unfold wrap
    omega
  rw [constructorStores, hlast, List.mem_append, List.mem_map, List.mem_singleton] at h
  rcases h with ⟨i, hi, rfl⟩ | rfl
  · have hlt := List.mem_range.mp hi
    simp only
    omega
  · simp only
    omega

theorem constructs_of_capacity (moved : T → T) (data : ℕ → T) (C : Capacity) :
    Constructs moved data C.val := by
  have hfree := FreeList.initial C data
  refine ⟨fun store h => constructorStores_lt C h, ?_, fun m L value hlog hops => ?_,
    fun m L hlog hops hlen => ?_⟩
  · exact ⟨List.range C.val, List.nodup_range, fun i => List.mem_range, hfree.chain⟩
  · exact (hfree.pushes hlog hops).1.returns moved value
  · rw [(hfree.pushes hlog hops).2, hlen, List.range_succ, List.map_append, List.length_range]
    congr 1
    · rw [List.eq_replicate_iff]
      refine ⟨by simp, fun b hb => ?_⟩
      obtain ⟨i, hi, rfl⟩ := List.mem_map.mp hb
      exact decide_eq_true (List.mem_range.mp hi)
    · simp

/-- The nodes a chain visits are not the null index. -/
theorem ne_null_of_chain {next : ℕ → ℕ} {i x : ℕ} {L : List ℕ} (h : Chain next nullIndex i L)
    (hx : x ∈ L) : x ≠ nullIndex := by
  induction L generalizing i with
  | nil => cases hx
  | cons y L ih =>
      obtain ⟨-, hy, hL⟩ := h
      rcases List.mem_cons.mp hx with rfl | hx
      · exact hy
      · exact ih hL hx

/-- For every `size_t` the constructor does what it is for if and only if it is between
1 and `2 ^ 32 - 1`. -/
theorem constructs_iff (moved : T → T) (data : ℕ → T) (capacity : ℕ)
    (hcapacity : capacity < 2 ^ 64) :
    Constructs moved data capacity ↔ 1 ≤ capacity ∧ capacity ≤ 2 ^ 32 - 1 := by
  constructor
  · intro h
    have hlast : (wrap 64 (capacity + (2 ^ 64 - 1)), nullIndex) ∈ constructorStores capacity :=
      List.mem_append_right _ (List.mem_singleton_self _)
    have hlt := h.bound _ hlast
    obtain ⟨L, -, hmem, hchain⟩ := h.chain
    refine ⟨by omega, ?_⟩
    -- the null index would have to be one of the nodes
    by_contra hgt
    exact ne_null_of_chain hchain ((hmem nullIndex).mpr (by unfold nullIndex; omega)) rfl
  · rintro ⟨hpos, hle⟩
    exact constructs_of_capacity moved data ⟨capacity, hpos, hle⟩

theorem constructs_iff_three :
    Constructs id (fun _ => 0) 3 ∧ (1 ≤ 3 ∧ 3 ≤ 2 ^ 32 - 1) :=
  ⟨(constructs_iff id (fun _ => 0) 3 (by decide)).mpr (by decide), by decide⟩

/-- The constructor of a stack of capacity 0 goes through `2 ^ 64 - 1` nodes, of which
there are none. -/
theorem constructor_overruns :
    ((0, 1) ∈ constructorStores 0 ∧ (2 ^ 64 - 1, nullIndex) ∈ constructorStores 0)
      ∧ ¬ Constructs id (fun _ => 0) 0 := by
  have hfirst : (0, 1) ∈ constructorStores 0 := by
    refine List.mem_append_left _ (List.mem_map.mpr ⟨0, List.mem_range.mpr ?_, rfl⟩)
    decide
  have hlast : (2 ^ 64 - 1, nullIndex) ∈ constructorStores 0 :=
    List.mem_append_right _ (List.mem_singleton.mpr rfl)
  exact ⟨⟨hfirst, hlast⟩, fun h => absurd (h.bound _ hfirst) (by decide)⟩

end Stack

end Lockless
