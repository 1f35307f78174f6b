import Lockless.Validator

/-!
# Records and their ids

`record_operation_end` takes the id of an operation for the position of its
record. The id comes from the counter and the position from the order in which
the records are appended under the mutex, and a thread that has taken a greater
id can append its record first: `overtakingStarts` is a run in which a result
ends up in the record of another operation.

If records are appended in the order of their ids, the two agree. The ids that
have been taken and not appended yet are then those from the size of the vector
to the counter, each with one thread.
-/

namespace Lockless

namespace Validator

variable {ι : Type*}

/-! ## Stating it -/

/-- Each `record_operation_end` of an id updates exactly the record that was
appended by the `record_operation_start` that returned this id. The position of
that record is the size of the vector when it was appended. -/
def Attributed [DecidableEq ι] (S : System ι Mem PC (Choice Op) Event)
    (sched : ℕ → ι × Choice Op) (n : ℕ) : Prop :=
  ∀ i j p q opId success resultValue now, i < j → j < n →
    S.Fires sched i p (.started opId) →
    S.Fires sched j q (.ended opId success resultValue now) →
    (S.run sched i).mem.operations.length < (S.run sched j).mem.operations.length
      ∧ (S.run sched (j + 1)).mem.operations
        = (S.run sched j).mem.operations.modify (S.run sched i).mem.operations.length
          (.finish success resultValue now)

/-- A step inside a session: nobody calls `start_recording` or
`stop_recording`. -/
def InSession : Choice Op → Prop
  | .call .startRecording => False
  | .call .stopRecording => False
  | _ => True

instance : DecidablePred InSession
  | .call .startRecording => .isFalse id
  | .call .stopRecording => .isFalse id
  | .call (.recordOperationStart _ _ _ _) => .isTrue trivial
  | .call (.recordOperationEnd _ _ _ _) => .isTrue trivial
  | .go => .isTrue trivial
  | .fault => .isTrue trivial

/-- The id a thread has taken and whose record it has not appended yet. -/
def PC.pending : PC → Option ℕ
  | .startAppend opId _ => some opId
  | _ => none

/-- The id whose record the step appends. -/
def appending : PC → Choice Op → Option ℕ
  | .startAppend opId _, .go => some opId
  | _, _ => none

/-- A record is appended only while no smaller id is pending, and the counter has
not run out. -/
def InOrder (c : Config ι Mem PC) (a : ι × Choice Op) : Prop :=
  c.mem.operationCounter < uint64Max
    ∧ ∀ opId ∈ appending (c.pc a.1) a.2, ∀ q, ∀ opId' ∈ (c.pc q).pending, opId ≤ opId'

instance [Fintype ι] (c : Config ι Mem PC) (a : ι × Choice Op) : Decidable (InOrder c a) :=
  inferInstanceAs (Decidable (_ ∧ ∀ opId ∈ appending (c.pc a.1) a.2, ∀ q,
    ∀ opId' ∈ (c.pc q).pending, opId ≤ opId'))

/-! ## Ids in flight -/

/-- The thread is in no call that opens or closes a session. -/
def PC.Recording : PC → Prop
  | .startStore => False
  | .startClear => False
  | .startReset => False
  | .stopStore => False
  | _ => True

structure Inv (c : Config ι Mem PC) : Prop where
  recording : c.mem.recording = true
  inside : ∀ p, (c.pc p).Recording
  exclusive : Exclusive fun p => (c.pc p).pending
  range : ∀ {p opId}, (c.pc p).pending = some opId →
    c.mem.operations.length ≤ opId ∧ opId < c.mem.operationCounter
  taken : ∀ {opId}, c.mem.operations.length ≤ opId → opId < c.mem.operationCounter →
    ∃ p, (c.pc p).pending = some opId
  le : c.mem.operations.length ≤ c.mem.operationCounter
  counter : c.mem.operationCounter ≤ uint64Max

/-- What a step of a session does to the ids: nothing, or one is taken, or its
record is appended. -/
theorem Effect.ids {m m' : Mem} {pc pc' : PC} {ev : Option Event}
    (he : Effect m pc m' pc' ev) (hpc : pc.Recording) :
    (m'.operations.length = m.operations.length ∧ m'.operationCounter = m.operationCounter
        ∧ m'.recording = m.recording ∧ pc'.pending = pc.pending)
      ∨ (m'.operations = m.operations ∧ m'.recording = m.recording
        ∧ m'.operationCounter = wrap 64 (m.operationCounter + 1) ∧ pc.pending = none
        ∧ pc'.pending = some m.operationCounter)
      ∨ ∃ opId op, pc = .startAppend opId op ∧ pc' = .idle ∧ ev = some (.started opId)
        ∧ m' = { m with operations := m.operations ++ [op] } := by
  cases he with
  | startStore | startClear | startReset | stopStore => exact hpc.elim
  | start op => cases op <;> exact Or.inl ⟨rfl, rfl, rfl, rfl⟩
  | startFetch => exact Or.inr (Or.inl ⟨rfl, rfl, rfl, rfl, rfl⟩)
  | startAppend opId op => exact Or.inr (Or.inr ⟨opId, op, rfl, rfl, rfl, rfl⟩)
  | endUpdate => exact Or.inl ⟨List.length_modify .., rfl, rfl, rfl⟩
  | _ => exact Or.inl ⟨rfl, rfl, rfl, rfl⟩

theorem prog_recording {m : Mem} {pc : PC} {ch : Choice Op} (hs : InSession ch)
    (hpc : pc.Recording) : (prog m pc ch).pc.Recording := by
  cases ch with
  | call op =>
      cases pc with
      | idle =>
          cases op with
          | startRecording => exact hs.elim
          | stopRecording => exact hs.elim
          | recordOperationStart => trivial
          | recordOperationEnd => trivial
      | _ => exact hpc
  | fault => cases pc <;> exact hpc
  | go =>
      cases pc with
      | startLoad =>
          simp only [prog, access]
          split_ifs <;> trivial
      | endLoad =>
          simp only [prog, access]
          split_ifs <;> trivial
      | endUpdate =>
          simp only [prog, access]
          split_ifs <;> trivial
      | idle => trivial
      | startFetch => trivial
      | startAppend => trivial
      | _ => exact hpc.elim

section Inversion

variable {m m' : Mem} {pc pc' : PC} {ev : Option Event}

theorem Effect.length_le (he : Effect m pc m' pc' ev) (hpc : pc.Recording) :
    m.operations.length ≤ m'.operations.length := by
  rcases he.ids hpc with ⟨hlen, -⟩ | ⟨hops, -⟩ | ⟨opId, op, -, -, -, rfl⟩
  · exact hlen.ge
  · rw [hops]
  · simp

theorem Effect.of_started {opId : ℕ} (h : Effect m pc m' pc' (some (.started opId))) :
    ∃ op, pc = .startAppend opId op ∧ pc' = .idle
      ∧ m' = { m with operations := m.operations ++ [op] } := by
  cases h with
  | startAppend opId op => exact ⟨op, rfl, rfl, rfl⟩

/-- A call of `record_operation_end` returns without an update, or updates the
record at the position of its id, if there is one. -/
theorem Effect.of_ended {opId now : ℕ} {success : Bool} {resultValue : ℤ}
    (h : Effect m pc m' pc' (some (.ended opId success resultValue now))) :
    (opId = uint64Max ∨ m.recording = false)
      ∨ m'.operations = m.operations.modify opId (.finish success resultValue now)
      ∨ m.operations.length ≤ opId := by
  cases h with
  | endIgnored _ _ _ _ h => exact Or.inl h
  | endUpdate => exact Or.inr (Or.inl rfl)
  | endMissing _ _ _ _ h => exact Or.inr (Or.inr h)

end Inversion

section Step

variable [DecidableEq ι] {c : Config ι Mem PC} {p : ι} {m : Mem} {pc : PC}
  {ev : Option Event}

omit [DecidableEq ι] in
/-- With no smaller id pending, the id of a record is its position. -/
theorem Inv.eq_length (h : Inv c) {opId : ℕ} (hp : (c.pc p).pending = some opId)
    (hmin : ∀ q, ∀ opId' ∈ (c.pc q).pending, opId ≤ opId') :
    opId = c.mem.operations.length := by
  obtain ⟨hle, hlt⟩ := h.range hp
  obtain ⟨q, hq⟩ := h.taken (Nat.le_refl _) (Nat.lt_of_le_of_lt hle hlt)
  exact Nat.le_antisymm (hmin q _ hq) hle

theorem pending_update {q : ι} {opId : ℕ}
    (h : (Function.update c.pc p pc q).pending = some opId) :
    (q = p ∧ pc.pending = some opId) ∨ (q ≠ p ∧ (c.pc q).pending = some opId) :=
  of_update (P := fun x => PC.pending x = some opId) h

/-- An id that another thread, or this one still, has pending stays so. -/
theorem pending_of_ne {q : ι} {opId : ℕ} (hq : (c.pc q).pending = some opId)
    (hp : (c.pc p).pending ≠ some opId) :
    (Function.update c.pc p pc q).pending = some opId := by
  have hqp : q ≠ p := fun e => hp (e ▸ hq)
  rwa [Function.update_of_ne hqp]

theorem Inv.recording_update (h : Inv c) (hpc : pc.Recording) (q : ι) :
    (Function.update c.pc p pc q).Recording := by
  by_cases hqp : q = p
  · rw [hqp, Function.update_self]
    exact hpc
  · rw [Function.update_of_ne hqp]
    exact h.inside q

/-- A step that takes no id and appends no record. -/
theorem Inv.quiet (h : Inv c) (hpc : pc.Recording)
    (hlen : m.operations.length = c.mem.operations.length)
    (hcount : m.operationCounter = c.mem.operationCounter)
    (hrec : m.recording = c.mem.recording) (hpend : pc.pending = (c.pc p).pending) :
    Inv ⟨m, Function.update c.pc p pc⟩ := by
  have hall : ∀ q, (Function.update c.pc p pc q).pending = (c.pc q).pending := by
    intro q
    by_cases hqp : q = p
    · rw [hqp, Function.update_self, hpend]
    · rw [Function.update_of_ne hqp]
  refine ⟨hrec.trans h.recording, h.recording_update hpc, ?_, ?_, ?_, ?_, ?_⟩
  · simp only [hall]
    exact h.exclusive
  · simp only [hall, hlen, hcount]
    exact h.range
  · simp only [hall, hlen, hcount]
    exact h.taken
  · simp only [hlen, hcount]
    exact h.le
  · simp only [hcount]
    exact h.counter

/-- The next id is taken. -/
theorem Inv.takes (h : Inv c) (hpc : pc.Recording) (hops : m.operations = c.mem.operations)
    (hcount : m.operationCounter = c.mem.operationCounter + 1)
    (hrec : m.recording = c.mem.recording) (hmax : c.mem.operationCounter < uint64Max)
    (hnone : (c.pc p).pending = none) (hpend : pc.pending = some c.mem.operationCounter) :
    Inv ⟨m, Function.update c.pc p pc⟩ := by
  have hle := h.le
  refine ⟨hrec.trans h.recording, h.recording_update hpc, ?_, ?_, ?_, ?_, ?_⟩
  · simp only [map_update PC.pending, hpend]
    refine h.exclusive.claim fun q hq => ?_
    exact Nat.lt_irrefl _ (h.range hq).2
  · intro q opId hq
    simp only [hops, hcount]
    rcases pending_update hq with ⟨-, hnew⟩ | ⟨-, hold⟩
    · rw [hpend] at hnew
      cases hnew
      exact ⟨hle, Nat.lt_succ_self _⟩
    · have hrange := h.range hold
      omega
  · intro opId hge hlt
    simp only [hops, hcount] at hge hlt
    rcases Nat.lt_succ_iff_lt_or_eq.mp hlt with hlt | rfl
    · obtain ⟨q, hq⟩ := h.taken hge hlt
      exact ⟨q, pending_of_ne hq (by rw [hnone]; simp)⟩
    · exact ⟨p, by simp only [Function.update_self, hpend]⟩
  · simp only [hops, hcount]
    omega
  · simp only [hcount]
    omega

/-- The record of the smallest pending id is appended. -/
theorem Inv.appends (h : Inv c) {opId : ℕ} {op : Operation}
    (hold : c.pc p = .startAppend opId op) (hpc : pc = .idle)
    (hm : m = { c.mem with operations := c.mem.operations ++ [op] })
    (hid : opId = c.mem.operations.length) : Inv ⟨m, Function.update c.pc p pc⟩ := by
  subst hpc hm
  have hp : (c.pc p).pending = some opId := by
    rw [hold]
    rfl
  have hlt := (h.range hp).2
  refine ⟨h.recording, h.recording_update trivial, ?_, ?_, ?_, ?_, h.counter⟩
  · simp only [map_update PC.pending]
    exact h.exclusive.release p
  · intro q opId' hq
    simp only [List.length_append, List.length_singleton]
    rcases pending_update hq with ⟨-, ⟨⟩⟩ | ⟨hqp, hq'⟩
    have hrange := h.range hq'
    have hne : opId' ≠ opId := by
      rintro rfl
      exact hqp (h.exclusive hq' hp)
    omega
  · intro opId' hge hlt'
    simp only [List.length_append, List.length_singleton] at hge
    obtain ⟨q, hq⟩ := h.taken (Nat.le_of_succ_le hge) hlt'
    refine ⟨q, pending_of_ne hq ?_⟩
    rw [hp]
    rintro ⟨⟩
    omega
  · simp only [List.length_append, List.length_singleton]
    omega

omit [DecidableEq ι] in
theorem appending_of_prog {m : Mem} {pc : PC} {ch : Choice Op} {opId : ℕ} {op : Operation}
    (hpc : pc = .startAppend opId op) (hnext : (prog m pc ch).pc = .idle) :
    appending pc ch = some opId := by
  subst hpc
  cases ch with
  | call op' => cases hnext
  | go => rfl
  | fault => cases hnext

theorem Inv.step {m₀ : Mem} {a : ι × Choice Op} (h : Inv c) (hs : InSession a.2)
    (hg : InOrder c a) : Inv ((system ι m₀).next c a) := by
  have hpc := prog_recording (m := c.mem) hs (h.inside a.1)
  have hcounter := hg.1
  rcases (prog_effect c.mem (c.pc a.1) a.2).ids (h.inside a.1) with
    ⟨hlen, hcount, hrec, hpend⟩ | ⟨hops, hrec, hcount, hnone, hpend⟩
    | ⟨opId, op, hold, hnext, -, hm⟩
  · exact h.quiet hpc hlen hcount hrec hpend
  · refine h.takes hpc hops ?_ hrec hcounter hnone hpend
    unfold uint64Max at hcounter
    exact hcount.trans (wrap_of_lt (by omega))
  · refine h.appends hold hnext hm (h.eq_length (p := a.1) (by rw [hold]; rfl) ?_)
    exact hg.2 opId (appending_of_prog hold hnext)

end Step

/-! ## Runs -/

section Run

variable [DecidableEq ι] {sched : ℕ → ι × Choice Op} {n : ℕ}

theorem inv_run (hs : ∀ i, i < n → InSession (sched i).2)
    (hn : ∀ i, i < n → InOrder ((system ι sessionMem).run sched i) (sched i)) :
    Inv ((system ι sessionMem).run sched n) := by
  refine (system ι sessionMem).invariant_of_guard (I := fun c _ => Inv c)
    (G := fun c _ a => InSession a.2 ∧ InOrder c a) ?_
    (fun c _ a hg h => h.step hg.1 hg.2) fun i hi => ⟨hs i hi, hn i hi⟩
  refine ⟨rfl, fun _ => trivial, ?_, ?_, ?_, Nat.le_refl 0, Nat.zero_le _⟩
  · intro p q opId hp
    cases hp
  · intro p opId hp
    cases hp
  · intro opId _ hlt
    exact absurd hlt (Nat.not_lt_zero opId)

/-- The vector does not shrink in a session. -/
theorem length_mono (hs : ∀ i, i < n → InSession (sched i).2)
    (hn : ∀ i, i < n → InOrder ((system ι sessionMem).run sched i) (sched i)) {i j : ℕ}
    (hij : i ≤ j) (hj : j ≤ n) : ((system ι sessionMem).run sched i).mem.operations.length
      ≤ ((system ι sessionMem).run sched j).mem.operations.length := by
  refine (system ι sessionMem).run_mono (f := fun c => c.mem.operations.length) (n := n)
    (fun i hi => ?_) hij hj
  have hinv := inv_run (fun l hl => hs l (Nat.lt_trans hl hi))
    fun l hl => hn l (Nat.lt_trans hl hi)
  have he := prog_effect ((system ι sessionMem).run sched i).mem
    (((system ι sessionMem).run sched i).pc (sched i).1) (sched i).2
  exact he.length_le (hinv.inside _)

/-- The id a call of `record_operation_start` returns is the position of the record
it has appended. -/
theorem eq_length_of_started (hs : ∀ i, i < n → InSession (sched i).2)
    (hn : ∀ i, i < n → InOrder ((system ι sessionMem).run sched i) (sched i)) {i : ℕ}
    (hi : i < n) {p : ι} {opId : ℕ}
    (h : (system ι sessionMem).Fires sched i p (.started opId)) :
    opId = ((system ι sessionMem).run sched i).mem.operations.length
      ∧ opId < ((system ι sessionMem).run sched (i + 1)).mem.operations.length
      ∧ opId ≠ uint64Max := by
  have hinv := inv_run (fun l hl => hs l (Nat.lt_trans hl hi))
    fun l hl => hn l (Nat.lt_trans hl hi)
  obtain ⟨op, hpc, hnext, hm⟩ := (System.effect_of_fires _ prog_effect h).of_started
  have hpend : (((system ι sessionMem).run sched i).pc p).pending = some opId := by
    rw [hpc]
    rfl
  obtain ⟨rfl, -⟩ := h
  rw [System.run_succ, System.next_pc_self] at hnext
  have hid := hinv.eq_length hpend ((hn i hi).2 opId (appending_of_prog hpc hnext))
  refine ⟨hid, ?_, ?_⟩
  · rw [hm, hid]
    simp
  · exact Nat.ne_of_lt (Nat.lt_of_lt_of_le (hinv.range hpend).2 hinv.counter)

end Run

/-- In every session in which records are appended in the order of their ids, and
in which fewer than `2 ^ 64 - 1` ids are taken, each result is attributed to the
operation it belongs to. -/
theorem attributed_of_inOrder [DecidableEq ι] (sched : ℕ → ι × Choice Op) (n : ℕ)
    (hs : ∀ i, i < n → InSession (sched i).2)
    (hn : ∀ i, i < n → InOrder ((system ι sessionMem).run sched i) (sched i)) :
    Attributed (system ι sessionMem) sched n := by
  intro i j p q opId success resultValue now hij hj hi hend
  obtain ⟨hid, hlt, hmax⟩ := eq_length_of_started hs hn (Nat.lt_trans hij hj) hi
  have hlen := Nat.lt_of_lt_of_le hlt (length_mono hs hn hij (Nat.le_of_lt hj))
  have hinv := inv_run (fun l hl => hs l (Nat.lt_trans hl hj))
    fun l hl => hn l (Nat.lt_trans hl hj)
  rw [← hid]
  refine ⟨hlen, ?_⟩
  rcases (System.effect_of_fires _ prog_effect hend).of_ended with hload | hops | hmiss
  · rw [hinv.recording] at hload
    simp [hmax] at hload
  · exact hops
  · exact absurd hlen (Nat.not_lt_of_le hmiss)

/-- Two operations are started, the second thread takes its id before the first
has appended its record, and the second operation ends. -/
def interleavedStarts : ℕ → Bool × Choice Op := fun i =>
  [(false, .call (.recordOperationStart .push 0 7 1)), (false, .go), (false, .go),
    (true, .call (.recordOperationStart .pop 1 0 2)), (true, .go), (true, .go), (false, .go),
    (true, .go), (true, .call (.recordOperationEnd 1 true 7 3))].getD i (true, .go)

theorem attributed_of_inOrder_interleavedStarts :
    ((system Bool sessionMem).Fires interleavedStarts 7 true (.started 1)
      ∧ (system Bool sessionMem).Fires interleavedStarts 10 true (.ended 1 true 7 3)
      ∧ ((system Bool sessionMem).run interleavedStarts 11).mem.operations
        = [⟨.push, 0, 1, 0, 7, false⟩, ⟨.pop, 1, 2, 3, 7, true⟩])
      ∧ Attributed (system Bool sessionMem) interleavedStarts 11 :=
  ⟨by decide +kernel, attributed_of_inOrder interleavedStarts 11 (by decide +kernel)
    (by decide +kernel)⟩

/-- As above, but the second thread appends its record first. -/
def overtakingStarts : ℕ → Bool × Choice Op := fun i =>
  [(false, .call (.recordOperationStart .push 0 7 1)), (false, .go), (false, .go),
    (true, .call (.recordOperationStart .pop 1 0 2)), (true, .go), (true, .go), (true, .go),
    (false, .go), (true, .call (.recordOperationEnd 1 true 7 3))].getD i (true, .go)

/-- The result of the second thread's `pop` ends up in the record of the first
thread's `push`, and its own record is left open. -/
theorem not_attributed_overtakingStarts :
    ((∀ i, i < 11 → InSession (overtakingStarts i).2)
      ∧ (system Bool sessionMem).Fires overtakingStarts 6 true (.started 1)
      ∧ (system Bool sessionMem).Fires overtakingStarts 10 true (.ended 1 true 7 3)
      ∧ ((system Bool sessionMem).run overtakingStarts 11).mem.operations
        = [⟨.pop, 1, 2, 0, 0, false⟩, ⟨.push, 0, 1, 3, 7, true⟩])
      ∧ ¬ Attributed (system Bool sessionMem) overtakingStarts 11 := by
  refine ⟨by decide +kernel, fun h => ?_⟩
  obtain ⟨-, hops⟩ := h 6 10 true true 1 true 7 3 (by decide) (by decide) (by decide +kernel)
    (by decide +kernel)
  revert hops
  decide +kernel

end Validator

end Lockless
