import Lockless.Arena
import Lockless.Linearize

/-!
# The arena is linearizable

All calls of `allocate`, those that throw included, can be put in one order, in which each
stands between its start and its end, such that they answer as those of one thread that cuts
blocks off a memory of `size_` bytes.

A call that returns a block commits with its compare-exchange, and one that throws with the
read behind which its request does not fit. Both are its last step. The check and the commit of
a call that returns are apart, and other calls may commit between them; but then the
compare-exchange fails, so it cannot succeed on an offset that has not been checked.
-/

namespace Lockless

namespace Arena

variable {ι : Type*}

/-- What a call does to the offset, and the block it returns, if it does not throw. -/
def bump (size offset : ℕ) : Op → ℕ × Option ℕ
  | .allocate bytes =>
      if offset + bytes ≤ size then (offset + bytes, some offset) else (offset, none)

/-- What a call ends with. -/
def Event.block : Event → Option ℕ
  | .allocated offset _ => some offset
  | .arenaFull _ => none

/-- The call a thread is in. -/
def PC.op (pc : PC) : Option Op := pc.requested.map .allocate

theorem makesCalls (size : ℕ) (ι : Type*) : (system size ι).MakesCalls PC.op where
  init := fun _ => rfl
  step := fun {m pc ch op} h => by
    rcases prog_op m pc ch op h with hold | ⟨rfl, hch⟩
    · exact Or.inl hold
    · exact Or.inr ⟨rfl, hch⟩

section Run

variable [DecidableEq ι] {size : ℕ} {sched : ℕ → ι × Choice Op} {n : ℕ}

theorem idle_of_arenaFull {t : ℕ} {p : ι} {b : ℕ}
    (h : (system size ι).Fires sched t p (.arenaFull b)) :
    ((system size ι).run sched (t + 1)).pc p = .idle := by
  have he := effect_run size sched t
  rw [h.1, h.2] at he
  generalize ((system size ι).run sched (t + 1)).mem = m,
    ((system size ι).run sched t).pc p = pc,
    ((system size ι).run sched (t + 1)).pc p = pc' at he ⊢
  cases he with
  | full pc bytes hpc hlt => rfl

/-- A call that ends has made its operation in the step that ends it. -/
theorem bump_of_fires (hs : ∀ i, i < n → Small size (sched i).2) {t : ℕ} {p : ι} {e : Event}
    (ht : t < n) (h : (system size ι).Fires sched t p e) :
    ((system size ι).run sched (t + 1)).pc p = .idle
      ∧ ∃ op, (((system size ι).run sched t).pc p).op = some op
        ∧ bump size ((system size ι).run sched t).mem.writeOffset op
          = (((system size ι).run sched (t + 1)).mem.writeOffset, e.block) := by
  cases e with
  | allocated offset bytes =>
      obtain ⟨hbefore, hafter, hidle, hreq⟩ := offset_of_allocated hs ht h
      have hle := block_le_size hs ht h
      refine ⟨hidle, .allocate bytes, by rw [PC.op, hreq]; rfl, ?_⟩
      rw [hbefore, hafter, bump, if_pos hle]
      rfl
  | arenaFull bytes =>
      obtain ⟨hlt, hreq⟩ := offset_of_arenaFull hs ht h
      have hkeep : ((system size ι).run sched (t + 1)).mem.writeOffset
          = ((system size ι).run sched t).mem.writeOffset := by
        refine offset_eq_of_event fun o b hev => ?_
        have hother := h.2.symm.trans hev
        cases hother
      refine ⟨idle_of_arenaFull h, .allocate bytes, by rw [PC.op, hreq]; rfl, ?_⟩
      rw [hkeep, bump, if_neg (Nat.not_le.mpr hlt)]
      rfl

end Run

/-- **The arena is linearizable.** In every run whose requests do not wrap around with the size
of the arena, the calls that have returned or thrown can be put in an order in which each that
returns gets the bytes behind those of the calls before it, and each that throws does so for
want of room behind them; and in which no call stands before one that had ended when it was
made. -/
theorem arena_linearizable [DecidableEq ι] (size : ℕ) (sched : ℕ → ι × Choice Op) (n : ℕ)
    (hs : ∀ i, i < n → Small size (sched i).2) :
    (system size ι).Linearizable PC.op (fun e => some e.block) (bump size) 0 sched n := by
  refine System.linearizable_of_returns (makesCalls size ι)
    (fun t => ((system size ι).run sched t).mem.writeOffset) rfl (fun t ht hnone => ?_)
    fun t ht r hr => ?_
  · refine offset_eq_of_event fun o b hev => ?_
    rw [hev] at hnone
    cases hnone
  · obtain ⟨e, he, hre⟩ := Option.bind_eq_some_iff.mp hr
    obtain ⟨hidle, op, hop, hspec⟩ := bump_of_fires hs ht ⟨rfl, he⟩
    cases hre
    refine ⟨?_, op, hop, hspec⟩
    rw [hidle]
    rfl

theorem arena_linearizable_racingCalls :
    (system 10 Bool).Linearizable PC.op (fun e => some e.block) (bump 10) 0 racingCalls 10 :=
  arena_linearizable 10 racingCalls 10 (by decide)

end Arena

end Lockless
