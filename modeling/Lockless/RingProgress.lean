import Lockless.RingRefusals

/-!
# Progress of the ring buffer

The loops of `try_push` and `try_pop` have no counter: a failed compare-exchange
and a sequence number ahead of the ticket both lead to another iteration. A
thread that is left alone, whatever the others have been stopped in, goes round
at most twice: the first iteration may use up a stale ticket, the second has the
current one, and the slot of a current ticket never shows a number ahead of it.
-/

namespace Lockless

namespace Ring

variable {ι T : Type*}

/-- A thread is at the sequence load, the first access of an iteration. -/
def PC.AtLoop : PC T → Prop
  | .push _ (.loadSeq _) => True
  | .pop (.loadSeq _) => True
  | _ => False

instance : DecidablePred (PC.AtLoop (T := T))
  | .idle => .isFalse id
  | .push _ .loadHead => .isFalse id
  | .push _ (.loadSeq _) => .isTrue trivial
  | .push _ (.cas _) => .isFalse id
  | .push _ (.copy _) => .isFalse id
  | .push _ (.publish _) => .isFalse id
  | .pop .loadTail => .isFalse id
  | .pop (.loadSeq _) => .isTrue trivial
  | .pop (.cas _) => .isFalse id
  | .pop (.move _) => .isFalse id
  | .pop (.publish _ _) => .isFalse id

theorem push_ne_idle (item : T) (pc : PushPC) : PC.push item pc ≠ .idle := by
  intro h
  cases h

theorem pop_ne_idle (pc : PopPC T) : PC.pop pc ≠ .idle := by
  intro h
  cases h

section Alone

variable {Z : AdmittedSize} {moved : T → T} {m : Mem T}

/-! ## A push left alone -/

theorem within_copy (item : T) (head : ℕ) :
    CompletesWithin (prog Z moved) .idle PC.AtLoop 0 m (.push item (.copy head)) :=
  .step (push_ne_idle _ _) id (.step (push_ne_idle _ _) id (.done 0 _))

/-- The current ticket is claimed at once. -/
theorem within_casHead (item : T) :
    CompletesWithin (prog Z moved) .idle PC.AtLoop 0 m (.push item (.cas m.head)) := by
  refine .step (push_ne_idle _ _) id ?_
  simp only [prog, tryPush, true_and, if_true]
  exact within_copy item m.head

/-- An iteration with the current ticket is the last one. -/
theorem within_loadSeqHead (hseq : signedDiff 64 (m.sequences (Z.index m.head)) m.head ≤ 0)
    (item : T) :
    CompletesWithin (prog Z moved) .idle PC.AtLoop 1 m (.push item (.loadSeq m.head)) := by
  refine .iterate (push_ne_idle _ _) ?_
  simp only [prog, tryPush]
  split_ifs with hz hneg
  · exact within_casHead item
  · exact .done 0 m
  · exact absurd (lt_of_le_of_ne hseq hz) hneg

theorem within_push (hseq : signedDiff 64 (m.sequences (Z.index m.head)) m.head ≤ 0)
    (item : T) (pc : PushPC) :
    CompletesWithin (prog Z moved) .idle PC.AtLoop 2 m (.push item pc) := by
  have hload : CompletesWithin (prog Z moved) .idle PC.AtLoop 1 m (.push item .loadHead) :=
    .step (push_ne_idle _ _) id (within_loadSeqHead hseq item)
  have hcas : ∀ head, CompletesWithin (prog Z moved) .idle PC.AtLoop 1 m
      (.push item (.cas head)) := by
    intro head
    by_cases hcur : m.head = head
    · rw [← hcur]
      exact (within_casHead item).mono (Nat.zero_le 1)
    · refine .step (push_ne_idle _ _) id ?_
      simp only [prog, tryPush, hcur, false_and, if_false]
      exact within_loadSeqHead hseq item
  cases pc with
  | loadHead => exact hload.mono (by decide)
  | loadSeq head =>
      refine .iterate (push_ne_idle _ _) ?_
      simp only [prog, tryPush]
      split_ifs
      · exact hcas head
      · exact .done 1 m
      · exact hload
  | cas head => exact (hcas head).mono (by decide)
  | copy head => exact (within_copy item head).mono (by decide)
  | publish head => exact .step (push_ne_idle _ _) id (.done 2 _)

/-! ## A pop left alone -/

theorem within_move (tail : ℕ) :
    CompletesWithin (prog Z moved) .idle PC.AtLoop 0 m (.pop (.move tail)) :=
  .step (pop_ne_idle _) id (.step (pop_ne_idle _) id (.done 0 _))

theorem within_casTail :
    CompletesWithin (prog Z moved) .idle PC.AtLoop 0 m (.pop (.cas m.tail)) := by
  refine .step (pop_ne_idle _) id ?_
  simp only [prog, tryPop, true_and, if_true]
  exact within_move m.tail

theorem within_loadSeqTail
    (hseq : signedDiff 64 (m.sequences (Z.index m.tail)) (wrap 64 (m.tail + 1)) ≤ 0) :
    CompletesWithin (prog Z moved) .idle PC.AtLoop 1 m (.pop (.loadSeq m.tail)) := by
  refine .iterate (pop_ne_idle _) ?_
  simp only [prog, tryPop]
  split_ifs with hz hneg
  · exact within_casTail
  · exact .done 0 m
  · exact absurd (lt_of_le_of_ne hseq hz) hneg

theorem within_pop
    (hseq : signedDiff 64 (m.sequences (Z.index m.tail)) (wrap 64 (m.tail + 1)) ≤ 0)
    (pc : PopPC T) : CompletesWithin (prog Z moved) .idle PC.AtLoop 2 m (.pop pc) := by
  have hload : CompletesWithin (prog Z moved) .idle PC.AtLoop 1 m (.pop .loadTail) :=
    .step (pop_ne_idle _) id (within_loadSeqTail hseq)
  have hcas : ∀ tail, CompletesWithin (prog Z moved) .idle PC.AtLoop 1 m
      (.pop (.cas tail)) := by
    intro tail
    by_cases hcur : m.tail = tail
    · rw [← hcur]
      exact within_casTail.mono (Nat.zero_le 1)
    · refine .step (pop_ne_idle _) id ?_
      simp only [prog, tryPop, hcur, false_and, if_false]
      exact within_loadSeqTail hseq
  cases pc with
  | loadTail => exact hload.mono (by decide)
  | loadSeq tail =>
      refine .iterate (pop_ne_idle _) ?_
      simp only [prog, tryPop]
      split_ifs
      · exact hcas tail
      · exact .done 1 m
      · exact hload
  | cas tail => exact (hcas tail).mono (by decide)
  | move tail => exact (within_move tail).mono (by decide)
  | publish tail item => exact .step (pop_ne_idle _) id (.done 2 _)

end Alone

/-! ## Reachable states -/

namespace Inv

variable {Z : PowSize} {c : Config ι (Mem T) (PC T)} {H : List (ι × Event T)}

/-- The slot of the current head is never ahead of it. -/
theorem signedDiff_head (h : Inv Z c H) :
    signedDiff 64 (c.mem.sequences (Z.index c.mem.head)) c.mem.head ≤ 0 := by
  have hsize := Z.size_le
  rcases h.tickets.seq_head with ⟨hseq, -⟩ | ⟨hseq, hlap, -⟩
  · rw [hseq, signedDiff_eq (by omega) (by omega)]
    omega
  · rw [signedDiff_eq (by omega) (by omega)]
    omega

theorem signedDiff_tail (h : Inv Z c H) (hhead : c.mem.head < 2 ^ 63) :
    signedDiff 64 (c.mem.sequences (Z.index c.mem.tail)) (wrap 64 (c.mem.tail + 1)) ≤ 0 := by
  have hsize := Z.size_le
  have htl := h.tickets.tail_le
  rw [wrap_of_lt (by omega : c.mem.tail + 1 < 2 ^ 64)]
  rcases h.tickets.seq_tail with ⟨hseq, -⟩ | ⟨hseq, hlap, -⟩
  · rw [hseq, signedDiff_eq (by omega) (by omega)]
    omega
  · rw [signedDiff_eq (by omega) (by omega)]
    omega

/-- A call in progress, left alone, needs two more iterations at most. -/
theorem within (h : Inv Z c H) (hhead : c.mem.head < 2 ^ 63) (moved : T → T) (pc : PC T) :
    CompletesWithin (prog Z moved) .idle PC.AtLoop 2 c.mem pc := by
  cases pc with
  | idle => exact .done 2 c.mem
  | push item pc => exact within_push h.signedDiff_head item pc
  | pop pc => exact within_pop (h.signedDiff_tail hhead) pc

end Inv

/-- From every state reached with fewer than `2 ^ 63` pushes, with the other
threads stopped anywhere, a thread that is inside a call, or has just started
one, and from then on runs alone without spurious failures returns, and performs
at most three sequence loads, the first accesses of an iteration, until then. -/
theorem solo_completion [DecidableEq ι] (Z : PowSize) (moved : T → T) (buffer : ℕ → T)
    (sched : ℕ → ι × Choice (Op T)) (n : ℕ) (p : ι)
    (hn : (pushed ((system Z moved ι buffer).history sched n)).length < 2 ^ 63)
    (hbusy : ((system Z moved ι buffer).run sched n).pc p ≠ .idle)
    (halone : ∀ i, n ≤ i → sched i = (p, .go)) :
    ∃ d, 0 < d ∧ ((system Z moved ι buffer).run sched (n + d)).pc p = .idle
      ∧ (∀ j, j < d → ((system Z moved ι buffer).run sched (n + j)).pc p ≠ .idle)
      ∧ Nat.count (fun j => (((system Z moved ι buffer).run sched (n + j)).pc p).AtLoop) d
        ≤ 3 := by
  have h := inv_run hn
  have hwithin := h.within (h.pushes ▸ hn) moved
    (((system Z moved ι buffer).run sched n).pc p)
  obtain ⟨d, hend, hbefore, hcount⟩ :=
    System.exists_run_of_completesWithin (S := system Z moved ι buffer) hwithin rfl rfl halone
  refine ⟨d, Nat.pos_of_ne_zero ?_, hend, hbefore, Nat.le_succ_of_le hcount⟩
  rintro rfl
  exact hbusy hend

/-- Both producers have seen the slot of ticket 0 free, one of them claims it and
stops, and the other is left alone with its stale ticket. -/
def leftAlone : ℕ → Bool × Choice (Op ℕ) := fun i =>
  [(false, Choice.call (Op.tryPush 7)), (false, .go), (false, .go),
    (true, .call (.tryPush 8)), (true, .go), (true, .go), (true, .go)].getD i (false, .go)

theorem solo_completion_leftAlone :
    (((smallRing Bool).run leftAlone 7).pc false = .push 7 (.cas 0)
        ∧ ((smallRing Bool).run leftAlone 7).pc true = .push 8 (.copy 0))
      ∧ ∃ d, 0 < d ∧ ((smallRing Bool).run leftAlone (7 + d)).pc false = .idle
        ∧ (∀ j, j < d → ((smallRing Bool).run leftAlone (7 + j)).pc false ≠ .idle)
        ∧ Nat.count (fun j => (((smallRing Bool).run leftAlone (7 + j)).pc false).AtLoop) d
          ≤ 3 :=
  ⟨by decide, solo_completion twoCells id (fun _ => 0) leftAlone 7 false (by decide) (by decide)
    fun _ hi => List.getD_eq_default _ _ hi⟩

end Ring

end Lockless
