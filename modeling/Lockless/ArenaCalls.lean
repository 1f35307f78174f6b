import Lockless.Arena
import Lockless.Serial

/-!
# Calls of the arena, one after another

`allocate` adds the request to `write_offset_` before it compares the sum with the
size. The sum is a 64-bit word. A request that takes it past the end of the 64 bits
leaves a small word, passes the check and moves `write_offset_` back, to where blocks
have been handed out before.

`Rejects` is what a call should do. In a log it is the case for every call if and only
if none of the sums wraps around.
-/

namespace Lockless

namespace Arena

/-! ## A call, access by access -/

/-- What holds during a call left alone at the offset `o`. -/
def Allocating (size o bytes : ℕ) (m : Mem) : PC → Prop
  | .idle => False
  | .load b => b = bytes ∧ m = ⟨o⟩
  | .cas b current => b = bytes ∧ current = o ∧ m = ⟨o⟩ ∧ wrap 64 (o + bytes) ≤ size

/-- How many accesses are still to come, if none fails. -/
def PC.left : PC → ℕ
  | .idle => 0
  | .load _ => 2
  | .cas _ _ => 1

/-- A call that is over has moved the offset on, or has found that the sum is more
than the size. -/
def Decides (size o bytes : ℕ) (m : Mem) (e : Event) : Prop :=
  (wrap 64 (o + bytes) ≤ size ∧ m = ⟨wrap 64 (o + bytes)⟩ ∧ e = .allocated o bytes)
    ∨ (size < wrap 64 (o + bytes) ∧ m = ⟨o⟩ ∧ e = .arenaFull bytes)

section Steps

variable {size o bytes : ℕ}

theorem advances_check {k : ℕ} {adverse : Prop} (hk : 1 < k ∨ adverse) :
    Advances (Allocating size o bytes) (Decides size o bytes) PC.left .idle k adverse
      (check size ⟨o⟩ bytes o) := by
  unfold check
  split_ifs with hfull
  · exact Or.inr ⟨rfl, _, rfl, Or.inr ⟨hfull, rfl, rfl⟩⟩
  · exact Or.inl ⟨⟨rfl, rfl, rfl, by omega⟩, rfl, hk⟩

theorem Allocating.step {m : Mem} {pc : PC} (h : Allocating size o bytes m pc)
    (spurious : Bool) :
    Advances (Allocating size o bytes) (Decides size o bytes) PC.left .idle pc.left
      (spurious = true) (allocate size m spurious pc) := by
  cases pc with
  | idle => exact h.elim
  | load b =>
      obtain ⟨rfl, rfl⟩ := h
      exact advances_check (Or.inl (Nat.lt_succ_self 1))
  | cas b current =>
      obtain ⟨rfl, rfl, rfl, hfits⟩ := h
      cases spurious with
      | false =>
          have ho : allocate size ⟨current⟩ false (.cas b current)
              = ⟨⟨wrap 64 (current + b)⟩, .idle, some (.allocated current b)⟩ := by
            simp only [allocate, true_and, if_true]
          rw [ho]
          exact Or.inr ⟨rfl, _, rfl, Or.inl ⟨hfits, rfl, rfl⟩⟩
      | true =>
          have ho : allocate size ⟨current⟩ true (.cas b current)
              = check size ⟨current⟩ b current := by
            simp only [allocate, Bool.true_eq_false, and_false, if_false]
          rw [ho]
          exact advances_check (Or.inr rfl)

/-- A step of the arena inside a call of its own or of another class. -/
theorem Allocating.access {κ : Type*} {m : Mem} {pc : PC} (h : Allocating size o bytes m pc)
    (ch : Choice κ) :
    Advances (Allocating size o bytes) (Decides size o bytes) PC.left .idle pc.left
      (ch ≠ .go) (prog size m pc ch.access) := by
  have hstep : ∃ spurious, prog size m pc ch.access = allocate size m spurious pc
      ∧ (spurious = true → ch ≠ .go) := by
    cases ch with
    | fault => exact ⟨true, by cases pc <;> rfl, fun _ h => by cases h⟩
    | _ => exact ⟨false, by cases pc <;> rfl, fun h => by cases h⟩
  obtain ⟨spurious, ho, hgo⟩ := hstep
  rw [ho]
  exact (h.step spurious).weaken hgo

end Steps

/-! ## A call -/

theorem decides_of_ends {size : ℕ} {m m' : Mem} {bytes : ℕ} {evs : List Event}
    (hrun : Ends (prog size) .idle m (start (.allocate bytes)) m' evs) :
    ∃ e, evs = [e] ∧ Decides size m.writeOffset bytes m' e := by
  have hidle : ∀ m', ¬ Allocating size m.writeOffset bytes m' .idle := fun _ h => h
  refine Ends.of_advances PC.left (fun m' pc ch h hch => ?_) hidle hrun ⟨rfl, rfl⟩
  have hstep := h.access ch
  rcases Choice.go_or_fault hch with rfl | rfl <;> exact hstep

/-! ## Logs -/

/-- The argument of `allocate`. -/
def Op.bytes : Op → ℕ
  | .allocate bytes => bytes

/-- The call throws. -/
def Throws (k : Call Mem Op Event) : Prop := .arenaFull k.op.bytes ∈ k.events

/-- A call does not move the offset back or past the size, throws if and only if the
request is larger than the rest of the arena, and then leaves the offset as it is. -/
structure Rejects (size : ℕ) (k : Call Mem Op Event) : Prop where
  mono : k.before.writeOffset ≤ k.after.writeOffset
  le : k.after.writeOffset ≤ size
  throws_iff : Throws k ↔ size - k.before.writeOffset < k.op.bytes
  unchanged : Throws k → k.after = k.before

/-- The sum that a call compares is not more than a 64-bit word. -/
def NoWrap (k : Call Mem Op Event) : Prop := k.before.writeOffset + k.op.bytes < 2 ^ 64

/-- One call at an offset in the arena. -/
theorem rejects_iff_noWrap {size : ℕ} (hsize : size < 2 ^ 64) {k : Call Mem Op Event}
    (hbytes : k.op.bytes < 2 ^ 64) (hle : k.before.writeOffset ≤ size)
    (hrun : Ends (prog size) .idle k.before (start k.op) k.after k.events) :
    Rejects size k ↔ NoWrap k := by
  obtain ⟨⟨bytes⟩, ⟨o⟩, after, events⟩ := k
  obtain ⟨e, rfl, h⟩ := decides_of_ends hrun
  simp only [Op.bytes] at hbytes hle h
  constructor
  · intro hrejects
    -- a sum that wraps around is small, so the call does not throw
    by_contra hwrap
    simp only [NoWrap, Op.bytes, Nat.not_lt] at hwrap
    have hsum : wrap 64 (o + bytes) = o + bytes - 2 ^ 64 := by
      rw [wrap, Nat.mod_eq_sub_mod hwrap, Nat.mod_eq_of_lt (by omega)]
    rcases h with ⟨-, rfl, rfl⟩ | ⟨hfull, -, -⟩
    · have hmono := hrejects.mono
      simp only [hsum] at hmono
      omega
    · omega
  · intro hwrap
    simp only [NoWrap, Op.bytes] at hwrap
    rw [Decides, wrap_of_lt hwrap] at h
    rcases h with ⟨hfits, rfl, rfl⟩ | ⟨hfull, rfl, rfl⟩
    · have hnot : ¬ Throws ⟨.allocate bytes, ⟨o⟩, ⟨o + bytes⟩, [.allocated o bytes]⟩ := by
        simp [Throws]
      refine ⟨Nat.le_add_right o bytes, hfits, ?_, fun h => absurd h hnot⟩
      refine iff_of_false hnot ?_
      simp only [Op.bytes]
      omega
    · refine ⟨Nat.le_refl o, hle, ?_, fun _ => rfl⟩
      refine iff_of_true (by simp [Throws, Op.bytes]) ?_
      simp only [Op.bytes]
      omega

/-- From an empty arena on, every call of a log does as it should if and only if no
sum wraps around. -/
theorem all_rejects_iff_noWrap {size : ℕ} (hsize : size < 2 ^ 64) {m : Mem}
    {L : List (Call Mem Op Event)} (hbytes : ∀ k ∈ L, k.op.bytes < 2 ^ 64)
    (hlog : CallLog (Ends (prog size) .idle) start ⟨0⟩ m L) :
    (∀ k ∈ L, Rejects size k) ↔ ∀ k ∈ L, NoWrap k := by
  suffices h : ((∀ k ∈ L, Rejects size k) ↔ ∀ k ∈ L, NoWrap k)
      ∧ ((∀ k ∈ L, Rejects size k) → m.writeOffset ≤ size) from h.1
  induction hlog with
  | init => exact ⟨by simp, fun _ => Nat.zero_le size⟩
  | @call m L op m' evs _ hrun ih =>
      obtain ⟨hiff, hle⟩ := ih fun k hk => hbytes k (List.mem_append_left _ hk)
      have hlast := hbytes ⟨op, m, m', evs⟩ (List.mem_append_right _ (List.mem_singleton_self _))
      simp only [List.forall_mem_append, List.forall_mem_singleton]
      refine ⟨?_, fun h => h.2.le⟩
      constructor
      · intro ⟨hold, hnew⟩
        exact ⟨hiff.mp hold, (rejects_iff_noWrap hsize hlast (hle hold) hrun).mp hnew⟩
      · intro ⟨hold, hnew⟩
        have hold := hiff.mpr hold
        exact ⟨hold, (rejects_iff_noWrap hsize hlast (hle hold) hrun).mpr hnew⟩

/-- Of 8 bytes, a request for 3 is met and one for 9 refused. -/
theorem all_rejects_iff_noWrap_refused :
    ∃ m L, CallLog (Ends (prog 8) .idle) start ⟨0⟩ m L
      ∧ L.map (·.op) = [.allocate 3, .allocate 9]
      ∧ L.map (·.events) = [[.allocated 0 3], [.arenaFull 9]] ∧ ∀ k ∈ L, Rejects 8 k := by
  have hfirst : Ends (prog 8) .idle ⟨0⟩ (start (.allocate 3)) ⟨3⟩ [.allocated 0 3] :=
    .quiet .go (by decide) (by simp) rfl (.emits .go (by decide) (by simp) rfl (.done _))
  have hsecond : Ends (prog 8) .idle ⟨3⟩ (start (.allocate 9)) ⟨3⟩ [.arenaFull 9] :=
    .emits .go (by decide) (by simp) rfl (.done _)
  refine ⟨_, _, .call (.call .init hfirst) hsecond, rfl, rfl, ?_⟩
  rw [all_rejects_iff_noWrap (by decide) (by simp [Op.bytes]) (.call (.call .init hfirst) hsecond)]
  simp [NoWrap, Op.bytes]

/-- Of 8 bytes, after a request for 1 byte, one for 2^64 - 1 bytes does not throw and
moves the offset back to 0. -/
theorem oversized_request_accepted :
    ∃ m L, CallLog (Ends (prog 8) .idle) start ⟨0⟩ m L
      ∧ L.map (·.op) = [.allocate 1, .allocate (2 ^ 64 - 1)]
      ∧ L.map (·.events) = [[.allocated 0 1], [.allocated 1 (2 ^ 64 - 1)]]
      ∧ m.writeOffset = 0 ∧ ¬ ∀ k ∈ L, Rejects 8 k := by
  have hfirst : Ends (prog 8) .idle ⟨0⟩ (start (.allocate 1)) ⟨1⟩ [.allocated 0 1] :=
    .quiet .go (by decide) (by simp) rfl (.emits .go (by decide) (by simp) rfl (.done _))
  have hsecond : Ends (prog 8) .idle ⟨1⟩ (start (.allocate (2 ^ 64 - 1))) ⟨0⟩
      [.allocated 1 (2 ^ 64 - 1)] :=
    .quiet .go (by decide) (by simp) rfl (.emits .go (by decide) (by simp) rfl (.done _))
  refine ⟨_, _, .call (.call .init hfirst) hsecond, rfl, rfl, rfl, fun h => ?_⟩
  have hmono := (h _ (List.mem_append_right _ (List.mem_singleton_self _))).mono
  exact absurd hmono (by decide)

end Arena

end Lockless
