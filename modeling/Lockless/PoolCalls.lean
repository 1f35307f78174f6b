import Lockless.StackCalls
import Lockless.Pool

/-!
# Calls of the object pool, one after another

With no other thread about, the pool is a list of free indices, the one released last
first: `acquire` hands out its first, and `release` puts the index of its argument in
front, whatever the argument is. A null pointer and one from outside the array are
ignored, and so is a release while all indices are on the list; but the pool does not
know what its clients hold, and an object released twice is on the list twice.

The calls of the pool are those of the stack inside, with the checks in front of them.
`get_index` and `get_by_index` are the two directions between the objects and their
indices.
-/

namespace Lockless

namespace Pool

/-! ## Objects and their indices -/

/-- `ptr - pool_storage_.get()` as a `uint32_t`, of a pointer that is an offset. -/
def getIndex (ptr : ℤ) : ℕ := (ptr % 2 ^ 32).toNat

def getByIndex (capacity idx : ℕ) : Option ℤ :=
  if capacity ≤ idx then none else some idx

/-- The pointers to objects are those of which the index leads back to them, and the index
of these is what `release` pushes. -/
theorem getByIndex_getIndex {capacity : ℕ} (hcap : capacity ≤ 2 ^ 32 - 1) (ptr : ℤ) :
    (getByIndex capacity (getIndex ptr) = some ptr ↔ 0 ≤ ptr ∧ ptr < capacity)
      ∧ (0 ≤ ptr ∧ ptr < capacity → releaseIndex capacity (some ptr) = some (getIndex ptr)) := by
  refine ⟨?_, fun ⟨h0, hlt⟩ => ?_⟩
  · unfold getByIndex getIndex
    split_ifs with h
    · refine iff_of_false (fun hnone => by cases hnone) fun ⟨h0, hlt⟩ => ?_
      omega
    · rw [Option.some_inj]
      omega
  · have hin : ¬ (ptr < 0 ∨ capacity ≤ ptr.toNat) := by omega
    have hindex : wrap 32 ptr.toNat = (ptr % 2 ^ 32).toNat := by
      unfold wrap
      omega
    simp only [releaseIndex, if_neg hin, getIndex, hindex]

/-! ## The calls -/

/-- Where a call gets to before its first access: to the stack, or to its end. -/
def Api.start (capacity : ℕ) : Op → Stack.PC ℕ
  | .acquire => .popLoad .pop
  | .release ptr =>
      match releaseIndex capacity ptr with
      | none => .idle
      | some index => .popLoad (.push index)

/-- So does a client of the pool that makes the call. -/
theorem Api.start_eq (capacity : ℕ) {m : Mem} (hbuilt : m.built = true) (held : List ℕ)
    (op : Op) :
    (prog capacity m (.client held .idle) (.call op)).mem.freeIndices = m.freeIndices
      ∧ (prog capacity m (.client held .idle) (.call op)).pc.stk = Api.start capacity op := by
  rw [prog_freeIndices, prog_stk]
  cases op with
  | acquire =>
      simp only [request, hbuilt, if_true]
      exact ⟨rfl, rfl⟩
  | release ptr =>
      cases hptr : releaseIndex capacity ptr <;>
        simp only [request, hbuilt, if_true, hptr, Api.start] <;> exact ⟨rfl, rfl⟩

/-- What the pool is for: a list of free indices, the one released last first. It answers an
`acquire` by the index it hands out, or null, and does not answer a `release`. -/
def freeList (capacity : ℕ) (s : List ℕ) : Op → List ℕ × Option (Option ℕ)
  | .acquire => (s.tail, some s.head?)
  | .release ptr =>
      match releaseIndex capacity ptr with
      | none => (s, none)
      | some index => (if s.length < capacity then index :: s else s, none)

/-- What `acquire` returns, at the last event of a call. -/
def acquiredAt : Stack.Event ℕ → Option (Option ℕ)
  | .give _ index => some (some index)
  | .refuse .pop => some none
  | _ => none

/-- What a call of the pool has returned, by the answer of the call of the stack inside. -/
def ofAnswer : Stack.Answer ℕ → Option (Option ℕ)
  | .push _ => none
  | .pop item => some item

theorem acquiredAt_eq (e : Stack.Event ℕ) : acquiredAt e = e.answer.bind ofAnswer := by
  cases e with
  | refuse call => cases call <;> rfl
  | _ => rfl

theorem filterMap_acquiredAt (evs : List (Stack.Event ℕ)) :
    evs.filterMap acquiredAt = (evs.filterMap Stack.Event.answer).filterMap ofAnswer := by
  rw [List.filterMap_filterMap]
  exact congrArg (fun f => evs.filterMap f) (funext acquiredAt_eq)

section Calls

variable {capacity : ℕ} {m m' : Stack.Mem ℕ} {s : List ℕ}

theorem represents_call (h : Stack.Represents capacity m s) {op : Op}
    {evs : List (Stack.Event ℕ)}
    (hrun : Ends (Stack.prog id) .idle m (Api.start capacity op) m' evs) :
    Stack.Represents capacity m' (freeList capacity s op).1
      ∧ evs.filterMap acquiredAt = (freeList capacity s op).2.toList := by
  cases op with
  | acquire =>
      obtain ⟨hrep, hanswer⟩ := h.ends hrun
      refine ⟨hrep, ?_⟩
      rw [filterMap_acquiredAt, hanswer]
      rfl
  | release ptr =>
      cases hptr : releaseIndex capacity ptr with
      | none =>
          simp only [Api.start, freeList, hptr] at hrun ⊢
          cases hrun with
          | done => exact ⟨h, rfl⟩
          | step hpc => exact absurd rfl hpc
      | some index =>
          simp only [Api.start, freeList, hptr] at hrun ⊢
          obtain ⟨hrep, hanswer⟩ := h.ends hrun
          rw [filterMap_acquiredAt, hanswer]
          by_cases hroom : s.length < capacity
          · rw [Stack.boundedStack, if_pos hroom] at hrep ⊢
            rw [if_pos hroom]
            exact ⟨hrep, rfl⟩
          · rw [Stack.boundedStack, if_neg hroom] at hrep ⊢
            rw [if_neg hroom]
            exact ⟨hrep, rfl⟩

theorem returns_call (h : Stack.Represents capacity m s) (op : Op) :
    Returns (Stack.prog id) .idle m (Api.start capacity op) := by
  cases op with
  | acquire => exact h.returns id .pop
  | release ptr =>
      cases hptr : releaseIndex capacity ptr with
      | none =>
          simp only [Api.start, hptr]
          refine Returns.rule (J := fun _ _ => False) (f := fun _ _ => 0) (fun m ch hch => ?_)
            (fun m pc ch h => h.elim) (fun m pc h => h.elim) (Or.inr rfl)
          rcases Choice.go_or_fault hch with rfl | rfl <;> rfl
      | some index =>
          simp only [Api.start, hptr]
          exact h.returns id (.push index)

end Calls

/-! ## The constructor -/

/-- The loop of the constructor pushes every index, and does not throw. -/
theorem stateAfter_build (C : Stack.Capacity) {n : ℕ} (hn : n ≤ C.val) :
    stateAfter (Stack.boundedStack C.val) [] ((List.range n).map .push) = (List.range n).reverse
      ∧ answers (Stack.boundedStack C.val) [] ((List.range n).map .push)
        = List.replicate n (.push true) := by
  induction n with
  | zero => exact ⟨rfl, rfl⟩
  | succ n ih =>
      obtain ⟨hstate, hanswers⟩ := ih (Nat.le_of_succ_le hn)
      have hroom : (List.range n).reverse.length < C.val := by
        rw [List.length_reverse, List.length_range]
        omega
      rw [List.range_succ, List.map_append, List.map_singleton, stateAfter_concat,
        answers_concat, hstate, hanswers, Stack.boundedStack, if_pos hroom,
        List.reverse_append, List.replicate_succ']
      exact ⟨rfl, rfl⟩

/-! ## The objects handed out -/

theorem releaseIndex_lt {capacity index : ℕ} {ptr : Option ℤ}
    (h : releaseIndex capacity ptr = some index) : index < capacity := by
  cases ptr with
  | none => cases h
  | some offset =>
      simp only [releaseIndex] at h
      split_ifs at h with hout
      rw [← Option.some_inj.mp h]
      have hle := Nat.mod_le offset.toNat (2 ^ 32)
      unfold wrap
      omega

theorem freeList_lt {capacity : ℕ} {s : List ℕ} (hs : ∀ i ∈ s, i < capacity) (op : Op) :
    ∀ i ∈ (freeList capacity s op).1, i < capacity := by
  cases op with
  | acquire => exact fun i hi => hs i (List.mem_of_mem_tail hi)
  | release ptr =>
      cases hptr : releaseIndex capacity ptr with
      | none => simpa only [freeList, hptr] using hs
      | some index =>
          simp only [freeList, hptr]
          split_ifs
          · exact List.forall_mem_cons.mpr ⟨releaseIndex_lt hptr, hs⟩
          · exact hs

/-- Whatever is released, the list hands out indices of the array only. -/
theorem acquired_lt {capacity : ℕ} {s : List ℕ} (hs : ∀ i ∈ s, i < capacity) {ops : List Op}
    {i : ℕ} (hi : some (some i) ∈ answers (freeList capacity) s ops) : i < capacity := by
  induction ops generalizing s with
  | nil => cases hi
  | cons op ops ih =>
      rw [answers, List.mem_cons] at hi
      rcases hi with hi | hi
      · cases op with
        | acquire => exact hs i (List.mem_of_mem_head? (Option.some_inj.mp hi).symm)
        | release ptr =>
            cases hptr : releaseIndex capacity ptr <;> simp [freeList, hptr] at hi
      · exact ih (freeList_lt hs op) hi

/-- The constructor does not throw. Calls of `acquire` and `release` made on the new pool one
after another return, whatever pointers are passed to `release` and whichever compare-exchanges
fail spuriously, and `acquire` returns what the list of free indices hands out, at first
`capacity - 1` down to 0. Each of these is an object that its index leads back to. -/
theorem refines_freeList (C : Stack.Capacity) (data : ℕ → ℕ) {m₀ m : Stack.Mem ℕ}
    {L₀ : List (Call (Stack.Mem ℕ) (Stack.Call ℕ) (Stack.Event ℕ))}
    {L : List (Call (Stack.Mem ℕ) Op (Stack.Event ℕ))}
    (hbuild : CallLog (Ends (Stack.prog id) .idle) .popLoad (Stack.initMem C.val data) m₀ L₀)
    (hloop : L₀.map (·.op) = (List.range C.val).map .push)
    (hlog : CallLog (Ends (Stack.prog id) .idle) (Api.start C.val) m₀ m L) :
    L₀.map (fun k => k.events.filterMap Stack.Event.answer)
        = List.replicate C.val [.push true]
      ∧ L.map (fun k => k.events.filterMap acquiredAt)
        = (answers (freeList C.val) (List.range C.val).reverse (L.map (·.op))).map Option.toList
      ∧ (∀ i : ℕ, some (some i)
          ∈ answers (freeList C.val) (List.range C.val).reverse (L.map (·.op)) →
        getByIndex C.val (getIndex i) = some (i : ℤ))
      ∧ ∀ op, Returns (Stack.prog id) .idle m (Api.start C.val op) := by
  obtain ⟨hrep, hbuilt⟩ := (Stack.Represents.initial C data).calls hbuild
  obtain ⟨hstate, hanswers⟩ := stateAfter_build C (Nat.le_refl C.val)
  rw [hloop, hstate] at hrep
  rw [hloop, hanswers, List.map_replicate] at hbuilt
  obtain ⟨hrep', hacquired⟩ := hlog.refines (freeList C.val) (Stack.Represents C.val)
    (List.filterMap acquiredAt) Option.toList (fun h hrun => represents_call h hrun) hrep
  refine ⟨hbuilt, hacquired, fun i hi => ?_, returns_call hrep'⟩
  have hlt : i < C.val :=
    acquired_lt (fun j hj => List.mem_range.mp (List.mem_reverse.mp hj)) hi
  exact (getByIndex_getIndex C.le i).1.mpr ⟨by omega, by omega⟩

/-- A pool of two objects. The one released last is handed out first, and an object released
twice is handed out twice. -/
theorem refines_freeList_doubleRelease :
    ∃ m₀ m L, CallLog (Ends (Stack.prog id) .idle) (Api.start 2) m₀ m L
      ∧ L.map (·.op) = [.acquire, .acquire, .release (some 1), .release (some 1), .acquire,
        .acquire, .release none, .acquire]
      ∧ L.map (fun k => k.events.filterMap acquiredAt)
        = [[some 1], [some 0], [], [], [some 1], [some 1], [], [none]] := by
  let C : Stack.Capacity := ⟨2, by decide, by decide⟩
  have hnew := Stack.Represents.initial C fun _ => 0
  obtain ⟨m₀, L₀, hbuild, hloop⟩ := exists_callLog
    (fun m L h op => ((hnew.calls h).1.returns id op).ends) ((List.range C.val).map .push)
  obtain ⟨m, L, hlog, hops⟩ := exists_callLog
    (fun m L h op => ((refines_freeList C _ hbuild hloop h).2.2.2 op).ends)
    [.acquire, .acquire, .release (some 1), .release (some 1), .acquire, .acquire,
      .release none, .acquire]
  refine ⟨m₀, m, L, hlog, hops, ?_⟩
  rw [(refines_freeList C _ hbuild hloop hlog).2.1, hops]
  decide

end Pool

end Lockless
