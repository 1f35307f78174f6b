import Lockless.RingBatch

/-!
# The sizes a ring buffer works for

The `static_assert` of `RingBuffer` admits every power of two, 1 included. With a
single slot the number that says that the item of a lap is published is the ticket
of the next lap: `try_push` takes the slot for free and writes over the item, and
`try_pop` finds a number ahead of the one it waits for, reads `tail_` again and
never comes out of its loop. (`SPSCQueue` asserts `Size >= 2`.)

`Works` says of a size that no call of `try_push` or `try_pop` runs forever and that
no item is written over. It is the case for all admitted sizes but 1.
-/

namespace Lockless

namespace Ring

namespace Batch

variable {T : Type*}

def Op.IsSingle : Op T → Prop
  | .tryPush _ => True
  | .tryPop => True
  | _ => False

/-- Every item accepted by a `try_push` is still in the slot of its ticket, unless a
later `try_pop` has delivered it from there. -/
def Kept (Z : AdmittedSize) (m : Mem T) (L : List (Call (Mem T) (Op T) (Result T))) : Prop :=
  ∀ L₁ (k : Call (Mem T) (Op T) (Result T)) L₂ x, L = L₁ ++ k :: L₂ → k.op = .tryPush x →
    k.events = [.pushed true] →
    (∃ d ∈ L₂, d.op = .tryPop ∧ d.events = [.popped (some x)]
        ∧ Z.index d.before.tail = Z.index k.before.head)
      ∨ m.buffer (Z.index k.before.head) = x

/-- After any calls of `try_push` and `try_pop` from the constructor's state on, every
such call returns and every item is kept. -/
def Works (Z : AdmittedSize) (moved : T → T) (buffer : ℕ → T) : Prop :=
  ∀ m L, CallLog (Ends (prog Z moved) .idle) start (initMem buffer) m L →
    (∀ k ∈ L, k.op.IsSingle) →
    (∀ op : Op T, op.IsSingle → Returns (prog Z moved) .idle m (start op)) ∧ Kept Z m L

/-! ## At least two slots -/

/-- The item is in the ring, in slot `i`. -/
def Holding (Z : AdmittedSize) (m : Mem T) (i : ℕ) (x : T) : Prop :=
  ∃ b q j, Stored Z m b q ∧ q[j]? = some x ∧ Z.index (b + j) = i

theorem Holding.buffer_eq {Z : AdmittedSize} {m : Mem T} {i : ℕ} {x : T}
    (h : Holding Z m i x) : m.buffer i = x := by
  obtain ⟨b, q, j, hstored, hj, rfl⟩ := h
  exact (hstored.items hj).2

section Steps

variable {Z : PowSize} {moved : T → T} {b : ℕ} {q : List T} {m m' : Mem T} {op : Op T}
  {evs : List (Result T)} {i : ℕ} {x : T}

/-- An accepted item is in the slot of its ticket. -/
theorem Holding.of_pushed (h : Stored Z m b q)
    (hrun : Ends (prog Z moved) .idle m (start (.tryPush x)) m' [.pushed true]) :
    Holding Z m' (Z.index m.head) x := by
  obtain ⟨hstored, hevs⟩ := answers_of_ends h hrun
  have hlt : q.length < Z.size := by
    by_contra hfull
    simp only [fifo, if_neg hfull] at hevs
    cases hevs
  simp only [fifo, if_pos hlt] at hstored
  exact ⟨b, _, q.length, hstored, List.getElem?_concat_length, h.index_head.symm⟩

/-- Each call leaves an item where it is, but for the `try_pop` that delivers it. -/
theorem Holding.step (h : Holding Z m i x) (hop : op.IsSingle)
    (hrun : Ends (prog Z moved) .idle m (start op) m' evs) :
    (op = .tryPop ∧ evs = [.popped (some x)] ∧ Z.index m.tail = i) ∨ Holding Z m' i x := by
  obtain ⟨b, q, j, hstored, hj, rfl⟩ := h
  obtain ⟨hstored', rfl⟩ := answers_of_ends hstored hrun
  cases op with
  | tryPush y =>
      have hj' : (fifo Z.size q (.tryPush y)).1[j]? = some x := by
        simp only [fifo]
        split_ifs
        · rw [List.getElem?_append_left (List.getElem?_eq_some_iff.mp hj).1]
          exact hj
        · exact hj
      exact Or.inr ⟨b, _, j, hstored', hj', rfl⟩
  | tryPop =>
      cases q with
      | nil => cases hj
      | cons y q =>
          cases j with
          | zero =>
              cases hj
              exact Or.inl ⟨rfl, rfl, hstored.index_tail⟩
          | succ j =>
              refine Or.inr ⟨b + 1, q, j, hstored', hj, ?_⟩
              rw [Nat.add_assoc, Nat.add_comm 1 j]
  | _ => exact hop.elim

end Steps

/-- The items of a log, and where each accepted one is. -/
theorem holding_of_callLog {Z : PowSize} {moved : T → T} {buffer : ℕ → T} {m : Mem T}
    {L : List (Call (Mem T) (Op T) (Result T))}
    (hlog : CallLog (Ends (prog Z moved) .idle) start (initMem buffer) m L)
    (hops : ∀ k ∈ L, k.op.IsSingle) :
    (∃ b q, Stored Z m b q)
      ∧ ∀ L₁ (k : Call (Mem T) (Op T) (Result T)) L₂ x, L = L₁ ++ k :: L₂ → k.op = .tryPush x →
      k.events = [.pushed true] →
      (∃ d ∈ L₂, d.op = .tryPop ∧ d.events = [.popped (some x)]
          ∧ Z.index d.before.tail = Z.index k.before.head)
        ∨ Holding Z m (Z.index k.before.head) x := by
  induction hlog with
  | init =>
      refine ⟨⟨0, [], Stored.init Z buffer⟩, fun L₁ k L₂ x hL => ?_⟩
      simp at hL
  | @call m L op m' evs _ hrun ih =>
      obtain ⟨⟨b, q, hstored⟩, hold⟩ := ih fun k hk => hops k (List.mem_append_left _ hk)
      refine ⟨⟨_, _, (answers_of_ends hstored hrun).1⟩, fun L₁ k L₂ x hL hk hevs => ?_⟩
      rcases List.eq_nil_or_concat L₂ with rfl | ⟨L₂, c, rfl⟩
      · obtain ⟨rfl, hc⟩ := List.append_inj' hL rfl
        rw [List.singleton_inj] at hc
        subst hc
        cases hk
        cases hevs
        exact Or.inr (.of_pushed hstored hrun)
      · rw [List.concat_eq_append, ← List.cons_append, ← List.append_assoc] at hL
        obtain ⟨rfl, hc⟩ := List.append_inj' hL rfl
        rw [List.singleton_inj] at hc
        subst hc
        rcases hold L₁ k L₂ x rfl hk hevs with ⟨d, hd, hpop⟩ | hholding
        · exact Or.inl ⟨d, by simp [hd], hpop⟩
        · have hop := hops ⟨op, m, m', evs⟩ (List.mem_append_right _ (List.mem_singleton_self _))
          refine (hholding.step hop hrun).imp_left fun hpop => ?_
          exact ⟨⟨op, m, m', evs⟩, by simp, hpop⟩

theorem works_of_two_le (Z : PowSize) (moved : T → T) (buffer : ℕ → T) :
    Works Z moved buffer := by
  intro m L hlog hops
  obtain ⟨⟨b, q, hstored⟩, hold⟩ := holding_of_callLog hlog hops
  refine ⟨fun op _ => returns moved hstored op, fun L₁ k L₂ x hL hk hevs => ?_⟩
  exact (hold L₁ k L₂ x hL hk hevs).imp_right Holding.buffer_eq

/-! ## A single slot -/

/-- A `try_push` that finds its ticket in the slot. -/
theorem completes_push {Z : AdmittedSize} (moved : T → T) {m : Mem T}
    (h : signedDiff 64 (m.sequences (Z.index m.head)) m.head = 0) (x : T) :
    Completes (prog Z moved) .idle m (start (.tryPush x)) (m.push Z x) [.pushed true] := by
  have hload : prog Z moved m (.push (.push x .loadHead)) .go
      = ⟨m, .push (.push x (.loadSeq m.head)), none⟩ := rfl
  have hready : prog Z moved m (.push (.push x (.loadSeq m.head))) .go
      = ⟨m, .push (.push x (.cas m.head)), none⟩ := by
    simp only [prog, Choice.access, Ring.prog, Ring.tryPush, h, if_true, tryPush, pushReturn]
  have hwin : prog Z moved m (.push (.push x (.cas m.head))) .go
      = ⟨{ m with head := wrap 64 (m.head + 1) }, .push (.push x (.copy m.head)), none⟩ := by
    simp only [prog, Choice.access, Ring.prog, Ring.tryPush, true_and, if_true, tryPush,
      pushReturn]
  refine .quiet (by simp [start]) hload (.quiet (by simp) hready (.quiet (by simp) hwin ?_))
  exact .quiet (by simp) rfl (.emits (by simp) rfl (.done _))

/-- A `try_pop` that finds a number ahead of the one it waits for stays in its loop. -/
theorem not_completes_pop {Z : AdmittedSize} (moved : T → T) {m : Mem T}
    (h : 0 < signedDiff 64 (m.sequences (Z.index m.tail)) (wrap 64 (m.tail + 1))) :
    ¬ ∃ m' evs, Completes (prog Z moved) .idle m (start .tryPop) m' evs := by
  refine not_completes (J := fun m' pc => m' = m
    ∧ (pc = .pop (.pop .loadTail) ∨ pc = .pop (.pop (.loadSeq m.tail)))) ?_ ?_ ⟨rfl, Or.inl rfl⟩
  · rintro m' ⟨-, hpc | hpc⟩ <;> cases hpc
  · rintro m' pc ⟨rfl, rfl | rfl⟩
    · exact ⟨rfl, Or.inr rfl⟩
    · have hreload : prog Z moved m' (.pop (.pop (.loadSeq m'.tail))) .go
          = ⟨m', .pop (.pop .loadTail), none⟩ := by
        simp only [prog, Choice.access, Ring.prog, Ring.tryPop, h.ne', h.not_gt, if_false, tryPop,
          popReturn]
      rw [hreload]
      exact ⟨rfl, Or.inl rfl⟩

section SingleSlot

variable {Z : AdmittedSize} (hZ : Z.size = 1) (moved : T → T) (buffer : ℕ → T) (x y : T)

include hZ

/-- Two items are accepted one after another. -/
theorem callLog_two_pushes :
    CallLog (Ends (prog Z moved) .idle) start (initMem buffer)
      (((initMem buffer).push Z x).push Z y)
      [⟨.tryPush x, initMem buffer, (initMem buffer).push Z x, [.pushed true]⟩,
        ⟨.tryPush y, (initMem buffer).push Z x, ((initMem buffer).push Z x).push Z y,
          [.pushed true]⟩] := by
  have hfirst := completes_push moved (Z := Z) (m := initMem buffer)
    (by simp [Z.index_of_size_one hZ, initMem, signedDiff]) x
  have hsecond := completes_push moved (Z := Z) (m := (initMem buffer).push Z x)
    (by simp [Mem.push, Z.index_of_size_one hZ, signedDiff]) y
  exact .call (.call .init hfirst.ends) hsecond.ends

theorem not_completes_after_two_pushes :
    ¬ ∃ m' evs, Completes (prog Z moved) .idle (((initMem buffer).push Z x).push Z y)
      (start .tryPop) m' evs := by
  apply not_completes_pop
  simp only [Mem.push, Z.index_of_size_one hZ, Function.update_self, initMem]
  decide

end SingleSlot

/-- The ring buffer works for exactly the admitted sizes other than 1. -/
theorem works_iff_size_ne_one (Z : AdmittedSize) (moved : T → T) (buffer : ℕ → T) :
    Works Z moved buffer ↔ Z.size ≠ 1 := by
  constructor
  · intro hworks hZ
    have hlog := callLog_two_pushes hZ moved buffer (buffer 0) (buffer 0)
    have hreturns := (hworks _ _ hlog (by simp [Op.IsSingle])).1 .tryPop trivial
    exact not_completes_after_two_pushes hZ moved buffer (buffer 0) (buffer 0)
      hreturns.completes
  · intro hZ
    obtain ⟨Y, rfl⟩ := Z.one_or_pow.resolve_left hZ
    exact works_of_two_le Y moved buffer

def singleCell : AdmittedSize := ⟨0, by decide⟩

/-- With a single slot 5 is accepted and written over by 6, and the next `try_pop` does
not return. -/
theorem singleCell_fails :
    ∃ m L, CallLog (Ends (prog singleCell id) .idle) start (initMem fun _ => 0) m L
      ∧ L.map (·.op) = [.tryPush 5, .tryPush 6]
      ∧ L.map (·.events) = [[.pushed true], [.pushed true]]
      ∧ ¬ Kept singleCell m L
      ∧ ¬ Returns (prog singleCell id) .idle m (start .tryPop) := by
  refine ⟨_, _, callLog_two_pushes rfl id (fun _ => 0) 5 6, rfl, rfl, fun hkept => ?_,
    fun hreturns => not_completes_after_two_pushes rfl id _ 5 6 hreturns.completes⟩
  rcases hkept [] _ _ 5 rfl rfl rfl with ⟨d, hd, hop, -⟩ | hbuffer
  · rw [List.mem_singleton] at hd
    subst hd
    cases hop
  · revert hbuffer
    decide

end Batch

end Ring

end Lockless
