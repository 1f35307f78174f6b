import Mathlib.Order.Interval.Set.Basic
import Mathlib.Algebra.BigOperators.Group.List.Basic
import Lockless.Interleave
import Lockless.Word

/-!
# The shared memory arena

`SharedMemoryArena` of `message_queue.hpp`: a bump allocator. `allocate` loads
`write_offset_`, throws if the request does not fit behind it, and otherwise
tries to move it on by a compare-exchange; the value a failed one brings back
is checked again. The check is arithmetic on local variables and belongs to
the step that reads, and with it the exception.

Each block starts where `write_offset_` was when it was committed and ends
where the commit leaves it, so blocks committed at different times are apart.
-/

namespace Lockless

namespace Arena

/-- The block of memory of `buffer_`: a `std::vector<uint8_t>` with `size_`
elements, of which the first is at address `data`. It has no more than
`max_size()` elements. -/
structure Buffer where
  size : ℕ
  data : ℕ
  lt_63 : size < 2 ^ 63
  fits : data + size < 2 ^ 64

structure Mem where
  writeOffset : ℕ

/-- The access `allocate` performs next, with its argument and its local
`current`. -/
inductive PC where
  | idle
  | load (bytes : ℕ)
  | cas (bytes current : ℕ)
deriving DecidableEq

inductive Op where
  | allocate (bytes : ℕ)
deriving DecidableEq

/-- `allocated` is the compare-exchange after which the call returns
`&buffer_[offset]`, `arenaFull` the read after which it throws. -/
inductive Event where
  | allocated (offset bytes : ℕ)
  | arenaFull (bytes : ℕ)
deriving DecidableEq

section Program

variable (size : ℕ)

/-- The check at the top of the loop, on the value just read. -/
def check (m : Mem) (bytes current : ℕ) : Outcome Mem PC Event :=
  if size < wrap 64 (current + bytes) then ⟨m, .idle, some (.arenaFull bytes)⟩
  else ⟨m, .cas bytes current, none⟩

def allocate (m : Mem) (spurious : Bool) : PC → Outcome Mem PC Event
  | .load bytes => check size m bytes m.writeOffset
  | .cas bytes current =>
      if m.writeOffset = current ∧ spurious = false then
        ⟨⟨wrap 64 (current + bytes)⟩, .idle, some (.allocated current bytes)⟩
      else check size m bytes m.writeOffset
  | .idle => ⟨m, .idle, none⟩

def start : Op → PC
  | .allocate bytes => .load bytes

/-- One step of one thread. A call starts only in a thread that is not
inside another call. -/
def prog (m : Mem) : PC → Choice Op → Outcome Mem PC Event
  | .idle, .call op => ⟨m, start op, none⟩
  | pc, .call _ => ⟨m, pc, none⟩
  | pc, .go => allocate size m false pc
  | pc, .fault => allocate size m true pc

/-- A choice at which a thread does nothing. -/
def rest : PC → Choice Op
  | .idle => .go
  | _ => .call (.allocate 0)

theorem prog_rest (m : Mem) (pc : PC) : prog size m pc (rest pc) = ⟨m, pc, none⟩ := by
  cases pc <;> rfl

def system (ι : Type*) : System ι Mem PC (Choice Op) Event where
  init := ⟨⟨0⟩, fun _ => .idle⟩
  prog := prog size

end Program

/-! ## Pointers into the arena -/

namespace Buffer

variable (A : Buffer)

/-- The value of `SIZE_MAX`. -/
def sizeMax : ℕ := 2 ^ 64 - 1

/-- `get`: the address of an element, or null. -/
def get (offset : ℕ) : Option ℕ :=
  if A.size ≤ offset then none else some (A.data + offset)

def getOffset (ptr : ℕ) : ℕ :=
  if ptr < A.data ∨ A.data + A.size ≤ ptr then sizeMax else ptr - A.data

theorem get_of_lt {offset : ℕ} (h : offset < A.size) : A.get offset = some (A.data + offset) :=
  if_neg (by omega)

theorem getOffset_of_lt {offset : ℕ} (h : offset < A.size) :
    A.getOffset (A.data + offset) = offset := by
  rw [getOffset, if_neg (by omega)]
  omega

end Buffer

/-! ## What one step can do -/

/-- The number of bytes a call in progress has been asked for. -/
def PC.requested : PC → Option ℕ
  | .idle => none
  | .load bytes => some bytes
  | .cas bytes _ => some bytes

/-- The steps of a thread: it starts, reads a value behind which the request
fits or does not, or commits. -/
inductive Effect (size : ℕ) (m : Mem) (ch : Choice Op) :
    PC → Mem → PC → Option Event → Prop
  | stay (pc) : Effect size m ch pc m pc none
  | start (op) (hch : ch = .call op) : Effect size m ch .idle m (start op) none
  | fits (pc bytes) (hpc : pc.requested = some bytes)
      (h : wrap 64 (m.writeOffset + bytes) ≤ size) :
      Effect size m ch pc m (.cas bytes m.writeOffset) none
  | full (pc bytes) (hpc : pc.requested = some bytes)
      (h : size < wrap 64 (m.writeOffset + bytes)) :
      Effect size m ch pc m .idle (some (.arenaFull bytes))
  | commit (bytes) :
      Effect size m ch (.cas bytes m.writeOffset) ⟨wrap 64 (m.writeOffset + bytes)⟩ .idle
        (some (.allocated m.writeOffset bytes))

section Inversion

variable {size : ℕ} {ch : Choice Op}

theorem check_effect (m : Mem) {pc : PC} {bytes : ℕ} (hpc : pc.requested = some bytes) :
    Effect size m ch pc (check size m bytes m.writeOffset).mem
      (check size m bytes m.writeOffset).pc (check size m bytes m.writeOffset).event := by
  unfold check
  split_ifs with h
  · exact .full pc bytes hpc h
  · exact .fits pc bytes hpc (by omega)

theorem allocate_effect (m : Mem) (spurious : Bool) (pc : PC) :
    Effect size m ch pc (allocate size m spurious pc).mem (allocate size m spurious pc).pc
      (allocate size m spurious pc).event := by
  cases pc with
  | idle => exact .stay _
  | load bytes => exact check_effect m rfl
  | cas bytes current =>
      simp only [allocate]
      split_ifs with hwin
      · obtain ⟨rfl, -⟩ := hwin
        exact .commit bytes
      · exact check_effect m rfl

theorem prog_effect (m : Mem) (pc : PC) (ch : Choice Op) :
    Effect size m ch pc (prog size m pc ch).mem (prog size m pc ch).pc
      (prog size m pc ch).event := by
  cases ch with
  | call op =>
      cases pc with
      | idle => exact .start op rfl
      | load bytes => exact .stay _
      | cas bytes current => exact .stay _
  | go => cases pc <;> exact allocate_effect m false _
  | fault => cases pc <;> exact allocate_effect m true _

end Inversion

/-! ## The invariant -/

variable {ι : Type*} {size : ℕ}

/-- The sizes of the committed blocks, in the order of their commits. -/
def committed (H : List (ι × Event)) : List ℕ :=
  H.filterMap fun e => match e.2 with
    | .allocated _ bytes => some bytes
    | _ => none

structure Inv (size : ℕ) (c : Config ι Mem PC) (H : List (ι × Event)) : Prop where
  le : c.mem.writeOffset ≤ size
  sum : c.mem.writeOffset = (committed H).sum
  small : ∀ {p bytes}, (c.pc p).requested = some bytes → size + bytes < 2 ^ 64
  checked : ∀ {p bytes current}, c.pc p = .cas bytes current → current + bytes ≤ size

/-- The call that a step starts asks for a number of bytes that does not wrap
around. -/
def Small (size : ℕ) : Choice Op → Prop
  | .call (.allocate bytes) => size + bytes < 2 ^ 64
  | _ => True

instance (size : ℕ) : (ch : Choice Op) → Decidable (Small size ch)
  | .call (.allocate bytes) => inferInstanceAs (Decidable (size + bytes < 2 ^ 64))
  | .go => .isTrue trivial
  | .fault => .isTrue trivial

section Step

variable {c : Config ι Mem PC} {H : List (ι × Event)} {p : ι} {m : Mem} {pc : PC}
  {ch : Choice Op} {ev : Option Event}

theorem Inv.wrap_eq (h : Inv size c H) {bytes : ℕ} (hp : (c.pc p).requested = some bytes) :
    wrap 64 (c.mem.writeOffset + bytes) = c.mem.writeOffset + bytes :=
  wrap_of_lt (by have := h.le; have := h.small hp; omega)

theorem Inv.own (h : Inv size c H) (hs : Small size ch)
    (he : Effect size c.mem ch (c.pc p) m pc ev) {bytes : ℕ}
    (hpc : pc.requested = some bytes) :
    size + bytes < 2 ^ 64 ∧ ∀ current, pc = .cas bytes current → current + bytes ≤ size := by
  generalize hp : c.pc p = pc₀ at he
  cases he with
  | stay => exact ⟨h.small (hp ▸ hpc), fun current hcas => h.checked (hp.trans hcas)⟩
  | start op hch =>
      cases op
      cases hpc
      subst hch
      exact ⟨hs, fun current hcas => by cases hcas⟩
  | fits pc bytes' hreq hle =>
      cases hpc
      have hreq' : (c.pc p).requested = some bytes := hp ▸ hreq
      rw [h.wrap_eq hreq'] at hle
      refine ⟨h.small hreq', fun current hcas => ?_⟩
      cases hcas
      exact hle
  | full => cases hpc
  | commit => cases hpc

/-- A commit moves the offset on by the size of the block. -/
theorem Inv.offset_step (h : Inv size c H) (he : Effect size c.mem ch (c.pc p) m pc ev) :
    m.writeOffset ≤ size
      ∧ m.writeOffset = (committed (H ++ (ev.map (Prod.mk p)).toList)).sum := by
  have hle := h.le
  have hsum := h.sum
  generalize hp : c.pc p = pc₀ at he
  cases he with
  | commit bytes =>
      have hfit := h.checked hp
      have hreq : (c.pc p).requested = some bytes := by
        rw [hp]
        rfl
      simp only [h.wrap_eq hreq]
      refine ⟨hfit, ?_⟩
      simp [committed, hsum]
  | _ => simpa [committed] using ⟨hle, hsum⟩

theorem Inv.step [DecidableEq ι] (h : Inv size c H) (hs : Small size ch)
    (he : Effect size c.mem ch (c.pc p) m pc ev) :
    Inv size ⟨m, Function.update c.pc p pc⟩ (H ++ (ev.map (Prod.mk p)).toList) where
  le := (h.offset_step he).1
  sum := (h.offset_step he).2
  small := fun {q bytes} hq => by
    rcases of_update (P := fun x => PC.requested x = some bytes) hq with ⟨-, hq⟩ | ⟨-, hq⟩
    · exact (h.own hs he hq).1
    · exact h.small hq
  checked := fun {q bytes current} hq => by
    rcases of_update (P := fun x => x = PC.cas bytes current) hq with ⟨-, hq⟩ | ⟨-, hq⟩
    · have hreq : pc.requested = some bytes := by
        rw [hq]
        rfl
      exact (h.own hs he hreq).2 current hq
    · exact h.checked hq

end Step

/-! ## Runs -/

theorem prog_op (m : Mem) (pc : PC) (ch : Choice Op) (op : Op)
    (h : (prog size m pc ch).pc.requested.map Op.allocate = some op) :
    pc.requested.map Op.allocate = some op ∨ pc = .idle ∧ ch = .call op := by
  have he : Effect size m ch pc _ _ _ := prog_effect m pc ch
  generalize (prog size m pc ch).mem = m', (prog size m pc ch).pc = pc',
    (prog size m pc ch).event = ev at he h
  cases he with
  | stay => exact Or.inl h
  | start op' hch =>
      cases op'
      cases h
      exact Or.inr ⟨rfl, hch⟩
  | fits pc bytes hpc _ =>
      rw [hpc]
      exact Or.inl h
  | full => cases h
  | commit => cases h

section Run

variable [DecidableEq ι] {sched : ℕ → ι × Choice Op} {n : ℕ}

theorem inv_run (hs : ∀ i, i < n → Small size (sched i).2) :
    Inv size ((system size ι).run sched n) ((system size ι).history sched n) := by
  refine (system size ι).invariant_of_guard (G := fun _ _ a => Small size a.2) ?_
    (fun c H a hg h => h.step hg (prog_effect c.mem (c.pc a.1) a.2)) hs
  refine ⟨Nat.zero_le _, rfl, ?_, ?_⟩
  · intro p bytes h
    cases h
  · intro p bytes current h
    cases h

variable (size sched) in
theorem effect_run (i : ℕ) :
    Effect size ((system size ι).run sched i).mem (sched i).2
      (((system size ι).run sched i).pc (sched i).1)
      ((system size ι).run sched (i + 1)).mem
      (((system size ι).run sched (i + 1)).pc (sched i).1)
      ((system size ι).outcome ((system size ι).run sched i) (sched i)).event := by
  rw [System.run_succ, System.next_pc_self]
  exact prog_effect _ _ _

/-- Only a commit moves the offset. -/
theorem offset_eq_of_event {i : ℕ}
    (h : ∀ o b, ((system size ι).outcome ((system size ι).run sched i) (sched i)).event
      ≠ some (.allocated o b)) :
    ((system size ι).run sched (i + 1)).mem.writeOffset
      = ((system size ι).run sched i).mem.writeOffset := by
  have he := effect_run size sched i
  generalize ((system size ι).run sched (i + 1)).mem = m,
    ((system size ι).run sched i).pc (sched i).1 = pc,
    ((system size ι).run sched (i + 1)).pc (sched i).1 = pc',
    ((system size ι).outcome ((system size ι).run sched i) (sched i)).event = ev at he h ⊢
  cases he with
  | commit bytes => exact absurd rfl (h _ _)
  | _ => rfl

/-- A block is what a commit moves the offset over. -/
theorem offset_of_allocated (hs : ∀ i, i < n → Small size (sched i).2) {i : ℕ} {p : ι}
    {o b : ℕ} (hi : i < n) (h : (system size ι).Fires sched i p (.allocated o b)) :
    ((system size ι).run sched i).mem.writeOffset = o
      ∧ ((system size ι).run sched (i + 1)).mem.writeOffset = o + b
      ∧ ((system size ι).run sched (i + 1)).pc p = .idle
      ∧ (((system size ι).run sched i).pc p).requested = some b := by
  have hinv := inv_run fun j hj => hs j (Nat.lt_trans hj hi)
  have he := effect_run size sched i
  rw [h.1, h.2] at he
  have hw : (((system size ι).run sched i).pc p).requested = some b → _ := hinv.wrap_eq
  generalize ((system size ι).run sched (i + 1)).mem = m,
    ((system size ι).run sched i).pc p = pc,
    ((system size ι).run sched (i + 1)).pc p = pc' at he hw ⊢
  cases he with
  | commit bytes => exact ⟨rfl, hw rfl, rfl, rfl⟩

theorem offset_mono (hs : ∀ i, i < n → Small size (sched i).2) {i j : ℕ} (hij : i ≤ j)
    (hj : j ≤ n) : ((system size ι).run sched i).mem.writeOffset
      ≤ ((system size ι).run sched j).mem.writeOffset := by
  refine (system size ι).run_mono (f := fun c => c.mem.writeOffset) (n := n)
    (fun i hi => ?_) hij hj
  by_cases hev : ∃ o b, ((system size ι).outcome ((system size ι).run sched i)
      (sched i)).event = some (.allocated o b)
  · obtain ⟨o, b, hev⟩ := hev
    obtain ⟨h1, h2, -⟩ := offset_of_allocated hs hi ⟨rfl, hev⟩
    omega
  · simp only [not_exists] at hev
    exact (offset_eq_of_event hev).ge

/-- Blocks committed one after the other lie in this order. -/
theorem block_le_block (hs : ∀ i, i < n → Small size (sched i).2) {i j : ℕ} {p q : ι}
    {o b o' b' : ℕ} (hij : i < j) (hj : j < n)
    (hi : (system size ι).Fires sched i p (.allocated o b))
    (hj' : (system size ι).Fires sched j q (.allocated o' b')) : o + b ≤ o' := by
  obtain ⟨-, h2, -⟩ := offset_of_allocated hs (by omega) hi
  obtain ⟨h1, -⟩ := offset_of_allocated hs hj hj'
  calc o + b = ((system size ι).run sched (i + 1)).mem.writeOffset := h2.symm
    _ ≤ ((system size ι).run sched j).mem.writeOffset := offset_mono hs hij hj.le
    _ = o' := h1

theorem block_le_size (hs : ∀ i, i < n → Small size (sched i).2) {i : ℕ} {p : ι} {o b : ℕ}
    (hi : i < n) (h : (system size ι).Fires sched i p (.allocated o b)) : o + b ≤ size := by
  obtain ⟨-, h2, -⟩ := offset_of_allocated hs hi h
  have hinv := inv_run (n := i + 1) fun j hj => hs j (by omega)
  exact h2 ▸ hinv.le

/-- A call that throws has read an offset behind which its request does not
fit. -/
theorem offset_of_arenaFull (hs : ∀ i, i < n → Small size (sched i).2) {i : ℕ} {p : ι}
    {b : ℕ} (hi : i < n) (h : (system size ι).Fires sched i p (.arenaFull b)) :
    size < ((system size ι).run sched i).mem.writeOffset + b
      ∧ (((system size ι).run sched i).pc p).requested = some b := by
  have hinv := inv_run fun j hj => hs j (Nat.lt_trans hj hi)
  have he := effect_run size sched i
  rw [h.1, h.2] at he
  have hw : (((system size ι).run sched i).pc p).requested = some b → _ := hinv.wrap_eq
  generalize ((system size ι).run sched (i + 1)).mem = m,
    ((system size ι).run sched i).pc p = pc,
    ((system size ι).run sched (i + 1)).pc p = pc' at he hw ⊢
  cases he with
  | full pc bytes hpc hlt => exact ⟨hw hpc ▸ hlt, hpc⟩

/-- A call that throws has not moved the offset. -/
theorem offset_eq_of_within (hs : ∀ i, i < n → Small size (sched i).2) {i j t : ℕ} {p : ι}
    {b : ℕ} {op : Op} (hj : j < n) (hin : (system size ι).Within .idle sched i j p op)
    (h : (system size ι).Fires sched j p (.arenaFull b)) (hit : i ≤ t) (htj : t ≤ j)
    (ht : (sched t).1 = p) :
    ((system size ι).run sched (t + 1)).mem.writeOffset
      = ((system size ι).run sched t).mem.writeOffset := by
  refine offset_eq_of_event fun o b' hev => ?_
  rcases Nat.lt_or_eq_of_le htj with hlt | rfl
  · obtain ⟨-, -, hidle, -⟩ := offset_of_allocated hs (by omega) ⟨ht, hev⟩
    exact hin.2 (t + 1) (by omega) hlt hidle
  · rw [h.2] at hev
    cases hev

theorem exists_within_of_requested {j : ℕ} {p : ι} {b : ℕ}
    (h : (((system size ι).run sched j).pc p).requested = some b) :
    ∃ i, i < j ∧ (system size ι).Within .idle sched i j p (.allocate b) :=
  System.exists_within (f := fun pc => pc.requested.map Op.allocate) rfl (fun _ => rfl)
    prog_op (by rw [h]; rfl)

end Run

/-- In every run whose requests do not wrap around with the size of the arena:

1. a call that returns has been asked for the bytes of its block, and the
   block lies in the arena;
2. the blocks of two calls are disjoint;
3. `write_offset_` is the sum of the sizes of the blocks;
4. a call that throws has not moved it, and its request did not fit in the
   space remaining at its last read. -/
theorem arena_under_contention [DecidableEq ι] (size : ℕ) (sched : ℕ → ι × Choice Op) (n : ℕ)
    (hs : ∀ i, i < n → Small size (sched i).2) :
    let S := system size ι
    (∀ j p o b, j < n → S.Fires sched j p (.allocated o b) →
      (∃ i, i < j ∧ S.Within .idle sched i j p (.allocate b))
        ∧ Set.Ico o (o + b) ⊆ Set.Ico 0 size)
    ∧ (∀ i j p q o b o' b', i < n → j < n → i ≠ j → S.Fires sched i p (.allocated o b) →
      S.Fires sched j q (.allocated o' b') →
      Set.Ico o (o + b) ∩ Set.Ico o' (o' + b') = ∅)
    ∧ (S.run sched n).mem.writeOffset = (committed (S.history sched n)).sum
    ∧ ∀ j p b, j < n → S.Fires sched j p (.arenaFull b) →
      ∃ i, i < j ∧ S.Within .idle sched i j p (.allocate b)
        ∧ size - (S.run sched j).mem.writeOffset < b
        ∧ ∀ t, i ≤ t → t ≤ j → (sched t).1 = p →
          (S.run sched (t + 1)).mem.writeOffset = (S.run sched t).mem.writeOffset := by
  intro S
  refine ⟨fun j p o b hj h => ⟨?_, ?_⟩, fun i j p q o b o' b' hi hj hne h h' => ?_,
    (inv_run hs).sum, fun j p b hj h => ?_⟩
  · exact exists_within_of_requested (offset_of_allocated hs hj h).2.2.2
  · exact Set.Ico_subset_Ico (Nat.zero_le o) (block_le_size hs hj h)
  · rw [← Set.disjoint_iff_inter_eq_empty, Set.Ico_disjoint_Ico]
    rcases Nat.lt_or_gt_of_ne hne with hlt | hgt
    · have := block_le_block hs hlt hj h h'
      omega
    · have := block_le_block hs hgt hi h' h
      omega
  · obtain ⟨hfull, hreq⟩ := offset_of_arenaFull hs hj h
    obtain ⟨i, hi, hin⟩ := exists_within_of_requested hreq
    have hle := (inv_run fun t ht => hs t (Nat.lt_trans ht hj)).le
    refine ⟨i, hi, hin, ?_, fun t => offset_eq_of_within hs hj hin h⟩
    exact (Nat.sub_lt_iff_lt_add' hle).mpr hfull

/-- Two calls for 6 bytes of 10: both load offset 0, the first commits after a
spurious failure, and the compare-exchange of the second brings back 6. -/
def racingCalls : ℕ → Bool × Choice Op := fun i =>
  [(false, .call (.allocate 6)), (true, .call (.allocate 6)), (false, .go), (true, .go),
    (false, .fault), (false, .go), (true, .go), (true, .call (.allocate 4)), (true, .go),
    (true, .go)].getD i (true, .go)

theorem arena_under_contention_racingCalls :
    ((system 10 Bool).Fires racingCalls 5 false (.allocated 0 6)
      ∧ (system 10 Bool).Fires racingCalls 6 true (.arenaFull 6)
      ∧ (system 10 Bool).Fires racingCalls 9 true (.allocated 6 4))
      ∧ (Set.Ico 0 6 ∩ Set.Ico 6 10 : Set ℕ) = ∅
      ∧ 10 - ((system 10 Bool).run racingCalls 6).mem.writeOffset < 6 := by
  obtain ⟨-, hdisj, -, hfull⟩ := arena_under_contention 10 racingCalls 10 (by decide)
  obtain ⟨_, _, _, hspace, _⟩ := hfull 6 true 6 (by decide) (by decide +kernel)
  exact ⟨by decide +kernel, hdisj 5 9 false true 0 6 6 4 (by decide) (by decide) (by decide)
    (by decide +kernel) (by decide +kernel), hspace⟩

end Arena

end Lockless
