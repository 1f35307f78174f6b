import Lockless.Custody
import Lockless.Ring
import Lockless.ValidatorRecords
import Lockless.ValidatorVerdict

/-!
# Scoped operations

`ScopedOperation` of `ordering_validator.hpp` records one call of a container. Its
constructor calls `record_operation_start`, its destructor `record_operation_end` with
what `set_success` and `set_result` have been given in between, and neither does
anything if the pointer to the validator is null. The threads of
`test_concurrent_operations` make each of their calls in the scope of one.

Here this is done for any container whose calls a thread makes one after another. A run
is then a run of the container and a run of the validator at once, and what the
validator does is known from there: as long as records are appended in the order of
their ids, the record of a call is at the position of its id. Every position belongs to
one call, which is in flight or has closed its record, so the records are those of the
calls that have closed and those of the calls that have not, and once all calls have
returned, they are the records of the calls.
-/

namespace Lockless

namespace Validator

theorem prog_fault (m : Mem) (pc : PC) : prog m pc .fault = ⟨m, pc, none⟩ := by
  cases pc <;> rfl

namespace Scoped

variable {ι μ π κ ε : Type*}

/-! ## The calls -/

/-- A container whose calls are recorded. A call is recorded under a type and with an
argument, and `result` reads off an event of its program that the call returns, what the
thread passes to `set_success` and to `set_result` then, or 0 if it does not. -/
structure Container (μ π κ ε : Type*) where
  prog : μ → π → Choice κ → Outcome μ π ε
  idle : π
  type : κ → OperationType
  argument : κ → ℤ
  result : κ → ε → Option (Bool × ℤ)
  /-- The states inside a call. -/
  Within : κ → π → Prop
  prog_idle : ∀ m, prog m idle .go = ⟨m, idle, none⟩
  prog_call : ∀ m op, (prog m idle (.call op)).event = none
    ∧ Within op (prog m idle (.call op)).pc
  returns : ∀ {m pc ch op r}, (prog m pc ch).event.bind (result op) = some r →
    (prog m pc ch).pc = idle
  within : ∀ {m pc ch op}, Within op pc → (prog m pc ch).event.bind (result op) = none →
    Within op (prog m pc ch).pc

/-- A call and the `ScopedOperation` it is made in, which is attached to the validator
or has a null pointer for it, with what `get_timestamp_ns` returns. -/
structure Call (κ : Type*) where
  op : κ
  attached : Bool
  threadId : ℕ
  startTime : ℕ
  endTime : ℕ
deriving DecidableEq

/-- A step that opens an operation opens an attached one. -/
def Attached : Choice (Call κ) → Prop
  | .call s => s.attached = true
  | _ => True

instance : DecidablePred (Attached : Choice (Call κ) → Prop)
  | .call s => inferInstanceAs (Decidable (s.attached = true))
  | .go => .isTrue trivial
  | .fault => .isTrue trivial

structure Mem (μ : Type*) where
  container : μ
  validator : Validator.Mem

/-- Where a thread is: in the constructor of a `ScopedOperation`, in the call, or in the
destructor, with `op_id_`, `success_` and `result_` as far as they are set. -/
inductive PC (π κ : Type*) where
  | idle
  | construct (s : Call κ) (v : Validator.PC)
  | enter (s : Call κ) (opId : ℕ)
  | body (s : Call κ) (opId : ℕ) (pc : π)
  | leave (s : Call κ) (opId : ℕ) (success : Bool) (result : ℤ)
  | destruct (s : Call κ) (opId : ℕ) (success : Bool) (result : ℤ) (v : Validator.PC)
deriving DecidableEq

/-- The return of the container's call, and that of the destructor of an attached
operation. -/
inductive Event (κ : Type*) where
  | returned (s : Call κ) (success : Bool) (result : ℤ)
  | closed (opId : ℕ) (s : Call κ) (success : Bool) (result : ℤ)
deriving DecidableEq

/-- The call of `record_operation_end` of the destructor. -/
def Call.endOp (s : Call κ) (opId : ℕ) (success : Bool) (result : ℤ) : Op :=
  .recordOperationEnd opId success result s.endTime

namespace Container

variable (K : Container μ π κ ε)

/-- The call of `record_operation_start` of the constructor. -/
def startOp (s : Call κ) : Op :=
  .recordOperationStart (K.type s.op) s.threadId (K.argument s.op) s.startTime


def constructed (s : Call κ) (m : Mem μ)
    (o : Outcome Validator.Mem Validator.PC Validator.Event) :
    Outcome (Mem μ) (PC π κ) (Event κ) :=
  match o.event with
  | some (.started opId) => ⟨{ m with validator := o.mem }, .enter s opId, none⟩
  | some .notRecording => ⟨{ m with validator := o.mem }, .enter s uint64Max, none⟩
  | _ => ⟨{ m with validator := o.mem }, .construct s o.pc, none⟩

def called (s : Call κ) (opId : ℕ) (m : Mem μ) (o : Outcome μ π ε) :
    Outcome (Mem μ) (PC π κ) (Event κ) :=
  match o.event.bind (K.result s.op) with
  | some (success, result) =>
      ⟨{ m with container := o.mem }, .leave s opId success result,
        some (.returned s success result)⟩
  | none => ⟨{ m with container := o.mem }, .body s opId o.pc, none⟩

def destructed (s : Call κ) (opId : ℕ) (success : Bool) (result : ℤ) (m : Mem μ)
    (o : Outcome Validator.Mem Validator.PC Validator.Event) :
    Outcome (Mem μ) (PC π κ) (Event κ) :=
  match o.event with
  | some _ => ⟨{ m with validator := o.mem }, .idle, some (.closed opId s success result)⟩
  | none => ⟨{ m with validator := o.mem }, .destruct s opId success result o.pc, none⟩

/-- One step of one thread. -/
def step (m : Mem μ) : PC π κ → Choice (Call κ) → Outcome (Mem μ) (PC π κ) (Event κ)
  | .idle, .call s =>
      if s.attached then ⟨m, .construct s (start (K.startOp s)), none⟩
      else ⟨m, .enter s uint64Max, none⟩
  | .idle, _ => ⟨m, .idle, none⟩
  | .construct s v, ch => constructed s m (Validator.prog m.validator v ch.access)
  | .enter s opId, _ => K.called s opId m (K.prog m.container K.idle (.call s.op))
  | .body s opId pc, ch => K.called s opId m (K.prog m.container pc ch.access)
  | .leave s opId success result, _ =>
      if s.attached ∧ opId ≠ uint64Max then
        ⟨m, .destruct s opId success result (start (s.endOp opId success result)), none⟩
      else ⟨m, .idle, none⟩
  | .destruct s opId success result v, ch =>
      destructed s opId success result m (Validator.prog m.validator v ch.access)

/-- Threads that make recorded calls in a session of the validator. -/
def system (ι : Type*) (m : μ) : System ι (Mem μ) (PC π κ) (Choice (Call κ)) (Event κ) where
  init := ⟨⟨m, sessionMem⟩, fun _ => .idle⟩
  prog := K.step

end Container

/-! ## The ring buffer in the scope of operations -/

section Ring

variable {T : Type*} (Z : AdmittedSize) (moved : T → T) (value : T → ℤ)

/-- What the worker of `test_concurrent_operations` sets once a call has returned. -/
def ringResult : Ring.Op T → Ring.Event T → Option (Bool × ℤ)
  | .tryPush item, .pushDone _ => some (true, value item)
  | .tryPush _, .pushFull => some (false, 0)
  | .tryPop, .popDone _ item => some (true, value item)
  | .tryPop, .popEmpty => some (false, 0)
  | _, _ => none

def ringWithin : Ring.Op T → Ring.PC T → Prop
  | .tryPush item, pc => ∃ ppc, pc = .push item ppc
  | .tryPop, pc => ∃ ppc, pc = .pop ppc

/-- `RingBuffer` with `try_push` recorded as `PUSH` and `try_pop` as `POP`. -/
def ring : Container (Ring.Mem T) (Ring.PC T) (Ring.Op T) (Ring.Event T) where
  prog := Ring.prog Z moved
  idle := .idle
  type
    | .tryPush _ => .push
    | .tryPop => .pop
  argument
    | .tryPush item => value item
    | .tryPop => 0
  result := ringResult value
  Within := ringWithin
  prog_idle _ := rfl
  prog_call _ op := by
    cases op with
    | tryPush item => exact ⟨rfl, _, rfl⟩
    | tryPop => exact ⟨rfl, _, rfl⟩
  returns {m pc ch op r} h := by
    have he : Ring.Effect Z moved m pc _ _ _ := Ring.prog_effect m pc ch
    generalize Ring.prog Z moved m pc ch = o at he h ⊢
    obtain ⟨m', pc', ev⟩ := o
    dsimp only at he
    cases he with
    | pushFull | pushDone | popEmpty | popDone => rfl
    | _ => cases op <;> cases h
  within {m pc ch op} hin h := by
    have he : Ring.Effect Z moved m pc _ _ _ := Ring.prog_effect m pc ch
    generalize Ring.prog Z moved m pc ch = o at he h ⊢
    obtain ⟨m', pc', ev⟩ := o
    dsimp only at he
    cases op with
    | tryPush item =>
        obtain ⟨ppc, rfl⟩ := hin
        cases he <;> first | exact ⟨_, rfl⟩ | cases h
    | tryPop =>
        obtain ⟨ppc, rfl⟩ := hin
        cases he <;> first | exact ⟨_, rfl⟩ | cases h

end Ring

namespace Container

variable (K : Container μ π κ ε)

/-! ## The two components -/

section Components

/-- Where a thread is in a call of the validator. -/
def validating : PC π κ → Validator.PC
  | .construct _ v => v
  | .destruct _ _ _ _ v => v
  | _ => .idle

/-- What a step asks of the validator. -/
def validatorChoice : PC π κ → Choice (Call κ) → Choice Op
  | .idle, .call s => if s.attached then .call (K.startOp s) else .go
  | .construct _ _, ch => ch.access
  | .leave s opId success result, _ =>
      if s.attached ∧ opId ≠ uint64Max then .call (s.endOp opId success result) else .go
  | .destruct _ _ _ _ _, ch => ch.access
  | _, _ => .go

/-- Where it is in a call of the container. -/
def calling : PC π κ → π
  | .body _ _ pc => pc
  | _ => K.idle

/-- What a step asks of the container. -/
def containerChoice : PC π κ → Choice (Call κ) → Choice κ
  | .enter s _, _ => .call s.op
  | .body _ _ _, ch => ch.access
  | _, _ => .go

variable (m : Mem μ)

theorem constructed_validator (s : Call κ) {v : Validator.PC}
    {o : Outcome Validator.Mem Validator.PC Validator.Event}
    (ho : Validator.Effect m.validator v o.mem o.pc o.event) :
    (constructed (π := π) s m o).mem.validator = o.mem
      ∧ validating (constructed (π := π) s m o).pc = o.pc := by
  obtain ⟨m', pc', ev⟩ := o
  cases ho <;> exact ⟨rfl, rfl⟩

theorem destructed_validator (s : Call κ) (opId : ℕ) (success : Bool) (result : ℤ)
    {v : Validator.PC} {o : Outcome Validator.Mem Validator.PC Validator.Event}
    (ho : Validator.Effect m.validator v o.mem o.pc o.event) :
    (destructed (π := π) s opId success result m o).mem.validator = o.mem
      ∧ validating (destructed (π := π) s opId success result m o).pc = o.pc := by
  obtain ⟨m', pc', ev⟩ := o
  cases ho <;> exact ⟨rfl, rfl⟩

theorem called_validator (s : Call κ) (opId : ℕ) (o : Outcome μ π ε) :
    (K.called s opId m o).mem.validator = m.validator
      ∧ validating (K.called s opId m o).pc = .idle := by
  unfold called
  split <;> exact ⟨rfl, rfl⟩

/-- A step is a step of the validator. -/
theorem step_validator (pc : PC π κ) (ch : Choice (Call κ)) :
    (K.step m pc ch).mem.validator
        = (Validator.prog m.validator (validating pc) (K.validatorChoice pc ch)).mem
      ∧ validating (K.step m pc ch).pc
        = (Validator.prog m.validator (validating pc) (K.validatorChoice pc ch)).pc := by
  cases pc with
  | idle =>
      cases ch with
      | call s =>
          simp only [step, validatorChoice, validating]
          split_ifs <;> exact ⟨rfl, rfl⟩
      | _ => exact ⟨rfl, rfl⟩
  | construct s v => exact constructed_validator m s (Validator.prog_effect _ _ _)
  | enter s opId => exact K.called_validator m s opId _
  | body s opId pc => exact K.called_validator m s opId _
  | leave s opId success result =>
      simp only [step, validatorChoice, validating]
      split_ifs <;> exact ⟨rfl, rfl⟩
  | destruct s opId success result v =>
      exact destructed_validator m s opId success result (Validator.prog_effect _ _ _)

theorem called_container (s : Call κ) (opId : ℕ) (pc : π) (ch : Choice κ) :
    (K.called s opId m (K.prog m.container pc ch)).mem.container = (K.prog m.container pc ch).mem
      ∧ K.calling (K.called s opId m (K.prog m.container pc ch)).pc
        = (K.prog m.container pc ch).pc := by
  unfold called
  split
  · next hr => exact ⟨rfl, (K.returns hr).symm⟩
  · exact ⟨rfl, rfl⟩

/-- A step is a step of the container. -/
theorem step_container (pc : PC π κ) (ch : Choice (Call κ)) :
    (K.step m pc ch).mem.container
        = (K.prog m.container (K.calling pc) (containerChoice pc ch)).mem
      ∧ K.calling (K.step m pc ch).pc
        = (K.prog m.container (K.calling pc) (containerChoice pc ch)).pc := by
  cases pc with
  | idle =>
      cases ch with
      | call s =>
          simp only [step, calling, containerChoice, K.prog_idle]
          split_ifs <;> exact ⟨rfl, rfl⟩
      | _ =>
          simp only [calling, containerChoice, K.prog_idle]
          exact ⟨rfl, rfl⟩
  | construct s v =>
      simp only [step, constructed, calling, containerChoice, K.prog_idle]
      split <;> exact ⟨rfl, rfl⟩
  | enter s opId => exact K.called_container m s opId _ _
  | body s opId pc => exact K.called_container m s opId _ _
  | leave s opId success result =>
      simp only [step, calling, containerChoice, K.prog_idle]
      split_ifs <;> exact ⟨rfl, rfl⟩
  | destruct s opId success result v =>
      simp only [step, destructed, calling, containerChoice, K.prog_idle]
      split <;> exact ⟨rfl, rfl⟩

end Components

section Run

variable [DecidableEq ι] (m₀ : μ) (sched : ℕ → ι × Choice (Call κ))

/-- The container with no validator about. -/
def bare (ι : Type*) (m : μ) : System ι μ π (Choice κ) ε where
  init := ⟨m, fun _ => K.idle⟩
  prog := K.prog

/-- The schedule a run drives the container with. -/
def containerSched : ℕ → ι × Choice κ :=
  (K.system ι m₀).projectSched (fun _ => containerChoice) sched

/-- The schedule a run drives the validator with. -/
def validatorSched : ℕ → ι × Choice Op :=
  (K.system ι m₀).projectSched (fun _ => K.validatorChoice) sched

theorem run_container (n : ℕ) :
    System.project Mem.container K.calling ((K.system ι m₀).run sched n)
      = (K.bare ι m₀).run (K.containerSched m₀ sched) n :=
  System.run_project _ rfl (fun m pc ch => (K.step_container m pc ch).1)
    (fun m pc ch => (K.step_container m pc ch).2) sched n

theorem run_validator (n : ℕ) :
    System.project Mem.validator validating ((K.system ι m₀).run sched n)
      = (Validator.system ι sessionMem).run (K.validatorSched m₀ sched) n :=
  System.run_project _ rfl (fun m pc ch => (K.step_validator m pc ch).1)
    (fun m pc ch => (K.step_validator m pc ch).2) sched n

end Run

/-! ## The record of a call -/

/-- The record `record_operation_start` appends for a call. -/
def opened (s : Call κ) : Operation :=
  .start (K.type s.op) s.threadId (K.argument s.op) s.startTime

/-- The record of a call that has returned. -/
def record (s : Call κ) (success : Bool) (result : ℤ) : Operation :=
  .finish success result s.endTime (K.opened s)

/-- The record of the call that returns, if it is made in an attached operation. -/
def asRecord : Event κ → Option Operation
  | .returned s success result => if s.attached then some (K.record s success result) else none
  | _ => none

/-- The id and the record of the operation that is closed. -/
def asClosed : Event κ → Option (ℕ × Operation)
  | .closed opId s success result => some (opId, K.record s success result)
  | _ => none

/-- The records of the calls that have returned. -/
def records (H : List (ι × Event κ)) : List Operation := H.filterMap fun e => K.asRecord e.2

/-- The ids and the records of the operations that have been closed. -/
def closings (H : List (ι × Event κ)) : List (ℕ × Operation) :=
  H.filterMap fun e => K.asClosed e.2

/-- The id of an attached operation that has got one and has not been closed. -/
def held : PC π κ → Option (ℕ × Call κ)
  | .enter s opId => if s.attached then some (opId, s) else none
  | .body s opId _ => if s.attached then some (opId, s) else none
  | .leave s opId _ _ => if s.attached then some (opId, s) else none
  | .destruct s opId _ _ _ => some (opId, s)
  | _ => none

/-- The record of a call that has returned while its operation is still to be closed. -/
def pending : PC π κ → Option Operation
  | .leave s _ success result => if s.attached then some (K.record s success result) else none
  | .destruct s _ success result _ => some (K.record s success result)
  | _ => none

/-- An attached operation has got an id in the session. -/
def Recorded (s : Call κ) (opId : ℕ) : Prop := s.attached = true → opId ≠ uint64Max

/-- The locals of a thread are those of the call it is in. -/
def Local : PC π κ → Prop
  | .idle => True
  | .construct s v =>
      s.attached = true ∧ (v = start (K.startOp s)
        ∨ v = .startFetch (K.type s.op) s.threadId (K.argument s.op) s.startTime
        ∨ ∃ opId, v = .startAppend opId (K.opened s))
  | .enter s opId => Recorded s opId
  | .body s opId pc => Recorded s opId ∧ K.Within s.op pc
  | .leave s opId _ _ => Recorded s opId
  | .destruct s opId success result v =>
      s.attached = true ∧ opId ≠ uint64Max ∧ (v = start (s.endOp opId success result)
        ∨ v = .endUpdate opId success result s.endTime)

/-- The operation a thread is in the scope of. -/
def scope : PC π κ → Option (Call κ)
  | .idle => none
  | .construct s _ => some s
  | .enter s _ => some s
  | .body s _ _ => some s
  | .leave s _ _ _ => some s
  | .destruct s _ _ _ _ => some s

/-! ## What one step does to the records -/

/-- The records stay, or one is appended for a call, or the record of a call is filled
in and its operation closed. -/
inductive RecordStep (ops : List Operation) (pc : PC π κ) :
    List Operation → PC π κ → Option (Event κ) → Prop
  | keep {pc' ev} (hheld : held pc' = held pc) (hev : ev.bind K.asClosed = none) :
      RecordStep ops pc ops pc' ev
  | append {pc'} (s) (hheld : held pc = none) (hheld' : held pc' = some (ops.length, s)) :
      RecordStep ops pc (ops ++ [K.opened s]) pc' none
  | close {pc'} (opId s success result) (hheld : held pc = some (opId, s))
      (hheld' : held pc' = none) :
      RecordStep ops pc (ops.modify opId (.finish success result s.endTime)) pc'
        (some (.closed opId s success result))

section Step

variable {K} {m : Mem μ}

theorem called_records {s : Call κ} {opId : ℕ} {pc : PC π κ} {ipc : π} {ch : Choice κ}
    (hid : Recorded s opId) (hheld : held pc = if s.attached then some (opId, s) else none)
    (hin : (K.prog m.container ipc ch).event.bind (K.result s.op) = none →
      K.Within s.op (K.prog m.container ipc ch).pc) :
    let o := K.called s opId m (K.prog m.container ipc ch)
    K.Local o.pc ∧ K.RecordStep m.validator.operations pc o.mem.validator.operations o.pc o.event
      := by
  intro o
  simp only [o, called]
  split
  · exact ⟨hid, .keep hheld.symm rfl⟩
  · next hr => exact ⟨⟨hid, hin hr⟩, .keep hheld.symm rfl⟩

/-- In a session and with records appended in the order of their ids, this is what a step
can do. -/
theorem step_records {pc : PC π κ} (ch : Choice (Call κ)) (hlocal : K.Local pc)
    (hrec : m.validator.recording = true)
    (hheld : ∀ opId s, held pc = some (opId, s) → opId < m.validator.operations.length)
    (happend : ∀ opId, appending (validating pc) (K.validatorChoice pc ch) = some opId →
      opId = m.validator.operations.length ∧ opId ≠ uint64Max) :
    K.Local (K.step m pc ch).pc
      ∧ K.RecordStep m.validator.operations pc (K.step m pc ch).mem.validator.operations
        (K.step m pc ch).pc (K.step m pc ch).event := by
  -- the validator takes the step, or there is no adverse outcome for it and it stays
  have hch : ch.access = (.go : Choice Op) ∨ ch.access = (.fault : Choice Op) := by
    cases ch with
    | fault => exact Or.inr rfl
    | _ => exact Or.inl rfl
  cases pc with
  | idle =>
      cases ch with
      | call s =>
          simp only [step]
          split_ifs with hs
          · exact ⟨⟨hs, Or.inl rfl⟩, .keep rfl rfl⟩
          · exact ⟨fun h => absurd h hs, .keep (by simp [held, hs]) rfl⟩
      | _ => exact ⟨trivial, .keep rfl rfl⟩
  | construct s v =>
      obtain ⟨hs, hv⟩ := hlocal
      simp only [validatorChoice, validating] at happend
      simp only [step]
      rcases hch with hgo | hfault
      · rw [hgo] at happend ⊢
        rcases hv with rfl | rfl | ⟨opId, rfl⟩
        · simp only [startOp, start, Validator.prog, access, hrec, if_true, constructed]
          exact ⟨⟨hs, Or.inr (Or.inl rfl)⟩, .keep rfl rfl⟩
        · exact ⟨⟨hs, Or.inr (Or.inr ⟨_, rfl⟩)⟩, .keep rfl rfl⟩
        · obtain ⟨rfl, hmax⟩ := happend opId rfl
          have hnew : held (PC.enter (π := π) s m.validator.operations.length)
              = some (m.validator.operations.length, s) := if_pos hs
          exact ⟨fun _ => hmax, .append s rfl hnew⟩
      · rw [hfault, prog_fault]
        exact ⟨⟨hs, hv⟩, .keep rfl rfl⟩
  | enter s opId => exact called_records hlocal rfl fun _ => (K.prog_call _ _).2
  | body s opId pc => exact called_records hlocal.1 rfl (K.within hlocal.2)
  | leave s opId success result =>
      simp only [step]
      split_ifs with hs
      · exact ⟨⟨hs.1, hs.2, Or.inl rfl⟩, .keep (by simp [held, hs.1]) rfl⟩
      · have hnot : ¬ s.attached = true := fun h => hs ⟨h, hlocal h⟩
        exact ⟨trivial, .keep (by simp [held, hnot]) rfl⟩
  | destruct s opId success result v =>
      obtain ⟨hs, hmax, hv⟩ := hlocal
      simp only [step]
      rcases hch with hgo | hfault
      · rw [hgo]
        rcases hv with rfl | rfl
        · have hopen : ¬ (opId = uint64Max ∨ m.validator.recording = false) := by
            rw [hrec]
            simp [hmax]
          simp only [Call.endOp, start, Validator.prog, access, if_neg hopen, destructed]
          exact ⟨⟨hs, hmax, Or.inr rfl⟩, .keep rfl rfl⟩
        · have hlt := hheld opId s rfl
          simp only [Validator.prog, access, if_pos hlt, destructed]
          exact ⟨trivial, .close opId s success result rfl rfl⟩
      · rw [hfault, prog_fault]
        exact ⟨⟨hs, hmax, hv⟩, .keep rfl rfl⟩

/-- A call that returns has its record pending until its operation is closed. -/
theorem step_pending {pc : PC π κ} (ch : Choice (Call κ)) (hlocal : K.Local pc) :
    (K.pending pc).toList ++ ((K.step m pc ch).event.bind K.asRecord).toList
      = ((K.step m pc ch).event.bind fun e => (K.asClosed e).map Prod.snd).toList
        ++ (K.pending (K.step m pc ch).pc).toList := by
  cases pc with
  | idle =>
      cases ch with
      | call s =>
          simp only [step]
          split_ifs <;> rfl
      | _ => rfl
  | construct s v =>
      simp only [step, constructed]
      split <;> rfl
  | enter s opId =>
      simp only [step, called, (K.prog_call _ _).1]
      rfl
  | body s opId pc =>
      simp only [step, called]
      split <;> rfl
  | leave s opId success result =>
      simp only [step]
      split_ifs with hs
      · simp [pending, hs.1]
      · have hnot : ¬ s.attached = true := fun h => hs ⟨h, hlocal h⟩
        simp [pending, hnot]
  | destruct s opId success result v =>
      simp only [step, destructed]
      split <;> rfl

theorem scope_step {pc : PC π κ} {ch : Choice (Call κ)} {s : Call κ}
    (h : scope (K.step m pc ch).pc = some s) : scope pc = some s ∨ ch = .call s := by
  cases pc with
  | idle =>
      cases ch with
      | call t =>
          simp only [step] at h
          split_ifs at h <;> cases h <;> exact Or.inr rfl
      | _ => cases h
  | construct t v =>
      simp only [step, constructed] at h
      split at h <;> exact Or.inl h
  | enter t opId =>
      simp only [step, called] at h
      split at h <;> exact Or.inl h
  | body t opId pc =>
      simp only [step, called] at h
      split at h <;> exact Or.inl h
  | leave t opId success result =>
      simp only [step] at h
      split_ifs at h
      · exact Or.inl h
      · cases h
  | destruct t opId success result v =>
      simp only [step, destructed] at h
      split at h
      · cases h
      · exact Or.inl h

end Step

/-! ## The position of a record -/

/-- The positions of the records: those of the closed operations, and that of the operation
each thread has open. -/
def holdings (pc : ι → PC π κ) (H : List (ι × Event κ)) : Option ι → List ℕ
  | none => (K.closings H).map Prod.fst
  | some p => ((held (pc p)).map Prod.fst).toList

/-- Each record is that of one call, at the position of its id. -/
structure Kept (c : Config ι (Mem μ) (PC π κ)) (H : List (ι × Event κ)) : Prop where
  custody : Custody (· < c.mem.validator.operations.length) (K.holdings c.pc H)
  opened : ∀ {p opId s}, held (c.pc p) = some (opId, s) →
    c.mem.validator.operations[opId]? = some (K.opened s)
  closed : ∀ {opId op}, (opId, op) ∈ K.closings H →
    c.mem.validator.operations[opId]? = some op
  inCall : ∀ p, K.Local (c.pc p)

section Kept

variable {K} {c : Config ι (Mem μ) (PC π κ)} {H : List (ι × Event κ)} {p : ι}

theorem closings_append (ev : Option (Event κ)) :
    K.closings (H ++ (ev.map (Prod.mk p)).toList)
      = K.closings H ++ (ev.bind K.asClosed).toList := by
  rw [closings, List.filterMap_append, ← closings]
  cases ev with
  | none => rfl
  | some e => cases h : K.asClosed e <;> simp [h]

theorem Kept.length_lt (h : K.Kept c H) {opId : ℕ} {s : Call κ}
    (hp : held (c.pc p) = some (opId, s)) : opId < c.mem.validator.operations.length :=
  h.custody.token (a := some p) (by simp [holdings, hp])

section Step

variable [DecidableEq ι] {m : Mem μ} {pc : PC π κ} {ev : Option (Event κ)}

theorem Kept.local_update (h : K.Kept c H) (hlocal : K.Local pc) (q : ι) :
    K.Local (Function.update c.pc p pc q) := by
  by_cases hqp : q = p
  · rwa [hqp, Function.update_self]
  · rw [Function.update_of_ne hqp]
    exact h.inCall q

/-- What the other threads hold stays with them. -/
theorem holdings_update {H' : List (ι × Event κ)} {k : Option ι} (hkp : k ≠ some p)
    (hk : k ≠ none) :
    K.holdings (Function.update c.pc p pc) H' k = K.holdings c.pc H k := by
  obtain ⟨q, rfl⟩ := Option.ne_none_iff_exists'.mp hk
  have hqp : q ≠ p := fun e => hkp (congrArg some e)
  simp only [holdings, Function.update_of_ne hqp]

/-- The records stay. -/
theorem Kept.keep (h : K.Kept c H) (hlocal : K.Local pc)
    (hops : m.validator.operations = c.mem.validator.operations)
    (hheld : held pc = held (c.pc p)) (hev : ev.bind K.asClosed = none) :
    K.Kept ⟨m, Function.update c.pc p pc⟩ (H ++ (ev.map (Prod.mk p)).toList) := by
  have hclosings : K.closings (H ++ (ev.map (Prod.mk p)).toList) = K.closings H := by
    rw [closings_append, hev]
    exact List.append_nil _
  have hall : ∀ q, held (Function.update c.pc p pc q) = held (c.pc q) := by
    intro q
    by_cases hqp : q = p
    · rw [hqp, Function.update_self, hheld]
    · rw [Function.update_of_ne hqp]
  have hsame : K.holdings (Function.update c.pc p pc) (H ++ (ev.map (Prod.mk p)).toList)
      = K.holdings c.pc H := by
    funext k
    cases k with
    | none => simp only [holdings, hclosings]
    | some q => simp only [holdings, hall]
  refine ⟨?_, fun {q opId s} hq => ?_, fun {opId op} hm => ?_, h.local_update hlocal⟩
  · rw [hsame, hops]
    exact h.custody
  · rw [hall] at hq
    simp only [hops]
    exact h.opened hq
  · rw [hclosings] at hm
    simp only [hops]
    exact h.closed hm

/-- A record is appended for the call a thread is in. -/
theorem Kept.append (h : K.Kept c H) (hlocal : K.Local pc) {s : Call κ}
    (hops : m.validator.operations = c.mem.validator.operations ++ [K.opened s])
    (hheld : held (c.pc p) = none)
    (hheld' : held pc = some (c.mem.validator.operations.length, s)) :
    K.Kept ⟨m, Function.update c.pc p pc⟩ H := by
  have hold : ∀ {i : ℕ} {op}, c.mem.validator.operations[i]? = some op →
      (c.mem.validator.operations ++ [K.opened s])[i]? = some op := by
    intro i op hi
    rw [List.getElem?_append_left (List.getElem?_eq_some_iff.mp hi).1, hi]
  refine ⟨?_, fun {q opId t} hq => ?_, fun {opId op} hm => ?_, h.local_update hlocal⟩
  · refine h.custody.add (a := some p) (x := c.mem.validator.operations.length)
      (Nat.lt_irrefl _) (fun y => ?_) (fun k hk => ?_) ?_
    · simp only [hops, List.length_append, List.length_singleton]
      omega
    · cases k with
      | none => rfl
      | some q => exact holdings_update hk (by simp)
    · simp [holdings, hheld, hheld']
  · simp only [hops]
    by_cases hqp : q = p
    · subst hqp
      simp only [Function.update_self, hheld', Option.some.injEq, Prod.mk.injEq] at hq
      obtain ⟨rfl, rfl⟩ := hq
      exact List.getElem?_concat_length
    · simp only [Function.update_of_ne hqp] at hq
      exact hold (h.opened hq)
  · simp only [hops]
    exact hold (h.closed hm)

/-- The record of a call that has returned is filled in, and its operation closed. -/
theorem Kept.close (h : K.Kept c H) (hlocal : K.Local pc) {opId : ℕ} {s : Call κ}
    {success : Bool} {result : ℤ}
    (hops : m.validator.operations
      = c.mem.validator.operations.modify opId (.finish success result s.endTime))
    (hheld : held (c.pc p) = some (opId, s)) (hheld' : held pc = none) :
    K.Kept ⟨m, Function.update c.pc p pc⟩ (H ++ [(p, .closed opId s success result)]) := by
  have hclosings : K.closings (H ++ [(p, .closed opId s success result)])
      = K.closings H ++ [(opId, K.record s success result)] := closings_append (some _)
  have hmine : opId ∈ K.holdings c.pc H (some p) := by simp [holdings, hheld]
  -- the other records are at other positions
  have hold : ∀ {k i op}, i ∈ K.holdings c.pc H k → k ≠ some p →
      c.mem.validator.operations[i]? = some op → (c.mem.validator.operations.modify opId
        (.finish success result s.endTime))[i]? = some op := by
    intro k i op hik hk hi
    have hne : opId ≠ i := by
      rintro rfl
      exact h.custody.not_mem hmine hk hik
    simp only [List.getElem?_modify, if_neg hne, hi]
    rfl
  refine ⟨?_, fun {q i t} hq => ?_, fun {i op} hm => ?_, h.local_update hlocal⟩
  · simp only [hops, List.length_modify]
    refine h.custody.move (a := some p) (b := none) (by simp)
      (fun k hkp hk => holdings_update hkp hk) ?_
    simp only [holdings, hclosings, Function.update_self, hheld, hheld']
    simp
  · simp only [hops]
    by_cases hqp : q = p
    · subst hqp
      simp only [Function.update_self, hheld'] at hq
      cases hq
    · simp only [Function.update_of_ne hqp] at hq
      exact hold (k := some q) (by simp [holdings, hq]) (fun e => hqp (Option.some.inj e))
        (h.opened hq)
  · rw [hclosings, List.mem_append, List.mem_singleton] at hm
    simp only [hops]
    rcases hm with hm | hm
    · exact hold (k := none) (List.mem_map.mpr ⟨_, hm, rfl⟩) (by simp) (h.closed hm)
    · obtain ⟨rfl, rfl⟩ := Prod.mk.inj hm
      simp only [List.getElem?_modify, if_true, h.opened hheld]
      rfl

theorem Kept.step (h : K.Kept c H) (hlocal : K.Local pc)
    (hs : K.RecordStep c.mem.validator.operations (c.pc p) m.validator.operations pc ev) :
    K.Kept ⟨m, Function.update c.pc p pc⟩ (H ++ (ev.map (Prod.mk p)).toList) := by
  generalize hops : m.validator.operations = ops at hs
  cases hs with
  | keep hheld hev => exact h.keep hlocal hops hheld hev
  | append s hheld hheld' =>
      rw [Option.map_none, Option.toList_none, List.append_nil]
      exact h.append hlocal hops hheld hheld'
  | close opId s success result hheld hheld' => exact h.close hlocal hops hheld hheld'

end Step

/-- The records are those of the closed operations and of the open ones. -/
theorem Kept.operations_perm (h : K.Kept c H) {l : List ι} (hl : l.Nodup)
    (hrest : ∀ q, q ∉ l → held (c.pc q) = none) :
    c.mem.validator.operations.Perm ((K.closings H).map Prod.snd
      ++ l.filterMap fun q => (held (c.pc q)).map fun x => K.opened x.2) := by
  -- the positions, each looked up in the vector
  have hids := h.custody.perm_flatMap (l := none :: l.map some)
    (List.nodup_cons.mpr ⟨by simp, hl.map (Option.some_injective _)⟩) (fun k hk => ?_)
    (List.nodup_range (n := c.mem.validator.operations.length)) fun x => List.mem_range
  · have hlook := hids.filterMap (c.mem.validator.operations[·]?)
    rw [filterMap_getElem?_range, List.take_length, List.flatMap_cons, List.filterMap_append]
      at hlook
    refine hlook.symm.trans (List.Perm.of_eq (congrArg₂ _ ?_ ?_))
    · rw [holdings, List.filterMap_map, ← List.filterMap_eq_map]
      exact List.filterMap_congr fun x hx => h.closed hx
    · rw [List.flatMap_map, List.filterMap_flatMap, List.filterMap_eq_flatMap_toList]
      refine List.flatMap_congr fun q _ => ?_
      cases hq : held (c.pc q) with
      | none => simp [holdings, hq]
      | some x =>
          obtain ⟨opId, s⟩ := x
          simp [holdings, hq, h.opened hq]
  · cases k with
    | none => simp at hk
    | some q =>
        have hq : q ∉ l := fun hq => hk (by simp [hq])
        simp [holdings, hrest q hq]

end Kept

/-! ## Runs -/

section Session

variable [DecidableEq ι]

/-- A step appends a record only while no smaller id is pending, and the counter has not
run out. -/
def RecordsInOrder (c : Config ι (Mem μ) (PC π κ)) (a : ι × Choice (Call κ)) : Prop :=
  InOrder (System.project Mem.validator validating c) (a.1, K.validatorChoice (c.pc a.1) a.2)

instance [Fintype ι] (c : Config ι (Mem μ) (PC π κ)) (a : ι × Choice (Call κ)) :
    Decidable (K.RecordsInOrder c a) :=
  inferInstanceAs (Decidable (InOrder _ _))

variable {K} {m₀ : μ} {sched : ℕ → ι × Choice (Call κ)} {n : ℕ}

/-- If all operations are attached, a thread is in the scope of an attached one. -/
theorem attached_run (h : ∀ i, i < n → Attached (sched i).2) (p : ι) (s : Call κ)
    (hp : scope (((K.system ι m₀).run sched n).pc p) = some s) :
    s.attached = true := by
  induction n generalizing p with
  | zero => cases hp
  | succ n ih =>
      rw [System.run_succ] at hp
      rcases of_update (P := fun pc => scope pc = some s) hp with ⟨-, hnew⟩ | ⟨-, hold⟩
      · rcases scope_step hnew with hold | hcall
        · exact ih (fun i hi => h i (Nat.lt_succ_of_lt hi)) _ hold
        · have hs := h n (Nat.lt_succ_self n)
          rwa [hcall] at hs
      · exact ih (fun i hi => h i (Nat.lt_succ_of_lt hi)) _ hold

/-- No call inside an operation opens or closes the session. -/
theorem inSession_validatorSched (i : ℕ) : InSession (K.validatorSched m₀ sched i).2 := by
  simp only [validatorSched, System.projectSched]
  unfold validatorChoice
  split
  · split_ifs <;> trivial
  · cases (sched i).2 <;> trivial
  · split_ifs <;> trivial
  · cases (sched i).2 <;> trivial
  · trivial

variable (hn : ∀ i, i < n → K.RecordsInOrder ((K.system ι m₀).run sched i) (sched i))
include hn

theorem validator_inv :
    Validator.Inv (System.project Mem.validator validating ((K.system ι m₀).run sched n)) := by
  rw [run_validator]
  refine Validator.inv_run (fun i _ => inSession_validatorSched i) fun i hi => ?_
  rw [← run_validator]
  exact hn i hi

theorem kept_run :
    K.Kept ((K.system ι m₀).run sched n) ((K.system ι m₀).history sched n) := by
  induction n with
  | zero =>
      refine ⟨Custody.empty (fun x => Nat.not_lt_zero x) (fun k => ?_), nofun, nofun,
        fun _ => trivial⟩
      cases k <;> rfl
  | succ n ih =>
      have hn' := fun i hi => hn i (Nat.lt_succ_of_lt hi)
      have hkept := ih hn'
      have hinv := validator_inv hn'
      have horder := (hn n (Nat.lt_succ_self n)).2
      have hstep := step_records (sched n).2 (hkept.inCall (sched n).1) hinv.recording
        (fun opId s hp => hkept.length_lt hp) fun opId happ => ?_
      · exact hkept.step hstep.1 hstep.2
      · have hpend : (validating (((K.system ι m₀).run sched n).pc (sched n).1)).pending
            = some opId := by
          generalize validating (((K.system ι m₀).run sched n).pc (sched n).1) = v at happ ⊢
          generalize K.validatorChoice _ _ = ch at happ
          cases v <;> cases ch <;> first | exact happ | cases happ
        refine ⟨hinv.eq_length hpend (horder opId happ), ?_⟩
        exact Nat.ne_of_lt (Nat.lt_of_lt_of_le (hinv.range hpend).2 hinv.counter)

/-- The operations a thread has closed are those of the calls it has returned from, but for
one it is still to close. -/
theorem returned_eq (p : ι) :
    (ofThread p ((K.system ι m₀).history sched n)).filterMap (fun e => K.asRecord e.2)
      = (ofThread p ((K.system ι m₀).history sched n)).filterMap
          (fun e => (K.asClosed e.2).map Prod.snd)
        ++ (K.pending (((K.system ι m₀).run sched n).pc p)).toList := by
  induction n with
  | zero => rfl
  | succ n ih =>
      have hn' := fun i hi => hn i (Nat.lt_succ_of_lt hi)
      have hlocal := (kept_run hn').inCall p
      rw [System.run_succ, System.history_succ, ofThread_append, List.filterMap_append,
        List.filterMap_append, System.emitted, filterMap_ofThread_step K.asRecord,
        filterMap_ofThread_step fun e => (K.asClosed e).map Prod.snd, ih hn']
      by_cases hp : p = (sched n).1
      · subst hp
        rw [if_pos rfl, if_pos rfl, System.next_pc_self, List.append_assoc, List.append_assoc]
        exact congrArg _ (step_pending _ hlocal)
      · rw [if_neg (Ne.symm hp), if_neg (Ne.symm hp), System.next_pc_ne _ _ hp,
          List.append_nil, List.append_nil]

theorem operations_perm_records (hidle : ∀ p, ((K.system ι m₀).run sched n).pc p = .idle) :
    ((K.system ι m₀).run sched n).mem.validator.operations.Perm
      (K.records ((K.system ι m₀).history sched n)) := by
  have hops := (kept_run hn).operations_perm List.nodup_nil fun p _ => by rw [hidle p]; rfl
  rw [List.filterMap_nil, List.append_nil] at hops
  refine hops.trans ?_
  rw [closings, List.map_filterMap]
  refine (perm_of_ofThread fun p => ?_).symm
  have hp := returned_eq hn p
  rw [hidle p] at hp
  exact hp.trans (List.append_nil _)

end Session

/-- **The records of a session.** In every interleaving of recorded calls in which records are
appended in the order of their ids, and in which fewer than `2 ^ 64 - 1` ids are taken:

1. at any time the records are those of the operations that have been closed, each with the
   result of its own call, and those of the operations of the other threads, each as it has
   been appended;
2. when no call is in flight, they are the records of the calls that have returned. -/
theorem records_of_calls [DecidableEq ι] (m₀ : μ) (sched : ℕ → ι × Choice (Call κ)) (n : ℕ)
    (hn : ∀ i, i < n → K.RecordsInOrder ((K.system ι m₀).run sched i) (sched i)) :
    let c := (K.system ι m₀).run sched n
    let H := (K.system ι m₀).history sched n
    (∀ l : List ι, l.Nodup → (∀ p, p ∉ l → held (c.pc p) = none) →
        c.mem.validator.operations.Perm ((K.closings H).map Prod.snd
          ++ l.filterMap fun p => (held (c.pc p)).map fun x => K.opened x.2))
      ∧ ((∀ p, c.pc p = .idle) → c.mem.validator.operations.Perm (K.records H)) := by
  intro c H
  refine ⟨fun l hl hrest => ?_, fun hidle => operations_perm_records hn hidle⟩
  exact (kept_run hn).operations_perm hl hrest

/-- A push and a pop at once. The pop gets its id second and closes its record first. -/
def recordedCallsSteps : List (Bool × Choice (Call (Ring.Op ℕ))) :=
  List.flatten [[(false, .call ⟨.tryPush 7, true, 0, 1, 9⟩), (false, .go), (false, .go),
      (true, .call ⟨.tryPop, true, 1, 2, 8⟩), (true, .go), (true, .go)],
    List.replicate 9 (false, .go), List.replicate 10 (true, .go), List.replicate 3 (false, .go)]

def recordedCalls : ℕ → Bool × Choice (Call (Ring.Op ℕ)) :=
  fun i => recordedCallsSteps.getD i (false, .go)

theorem records_of_calls_recordedCalls :
    let K := ring Ring.twoCells.toAdmittedSize id (fun x : ℕ => (x : ℤ))
    ((K.system Bool (Ring.initMem fun _ => 0)).run recordedCalls 27).mem.validator.operations.Perm
      [⟨.pop, 1, 2, 8, 7, true⟩, ⟨.push, 0, 1, 9, 7, true⟩] := by
  intro K
  have h := (records_of_calls K (Ring.initMem fun _ => 0) recordedCalls 27
    (by decide +kernel)).2 (by decide +kernel)
  have hrecords : K.records ((K.system Bool (Ring.initMem fun _ => 0)).history recordedCalls 27)
      = [⟨.push, 0, 1, 9, 7, true⟩, ⟨.pop, 1, 2, 8, 7, true⟩] := by decide +kernel
  rw [hrecords] at h
  exact h.trans (List.Perm.swap _ _ _)

end Container

end Scoped

end Validator

end Lockless
