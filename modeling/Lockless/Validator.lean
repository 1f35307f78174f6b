import Lockless.Interleave
import Lockless.Word

/-!
# The ordering validator

`OrderingValidator` of `ordering_validator.hpp` records the operations of a
test. `record_operation_start` takes an id from an atomic counter, appends a
record to a vector under a mutex and returns the id; `record_operation_end` uses
the id as an index into the vector, and fills in the rest of the record there,
under the mutex too. `start_recording` and `stop_recording` open and close a
session, the former without taking the mutex.

Each atomic access and each critical section of the mutex is one step, and so is
the clearing of the vector. What `get_timestamp_ns` returns in a call is chosen
with the call. The description of a record is never written and left out, and so
is an allocation that fails.
-/

namespace Lockless

namespace Validator

inductive OperationType where
  | push
  | pop
  | insert
  | find
  | custom
deriving DecidableEq

structure Operation where
  type : OperationType
  threadId : ℕ
  startTime : ℕ
  endTime : ℕ
  value : ℤ
  success : Bool
deriving DecidableEq

/-- The record `record_operation_start` appends. -/
def Operation.start (type : OperationType) (threadId : ℕ) (value : ℤ) (now : ℕ) :
    Operation :=
  ⟨type, threadId, now, 0, value, false⟩

/-- What `record_operation_end` writes. -/
def Operation.finish (success : Bool) (resultValue : ℤ) (now : ℕ) (op : Operation) :
    Operation :=
  { op with endTime := now, success := success, value := resultValue }

structure Mem where
  operations : List Operation
  recording : Bool
  operationCounter : ℕ

/-- The access a thread performs next, with its locals. The cases are those of
`start_recording`, `stop_recording`, `record_operation_start` and
`record_operation_end`. -/
inductive PC where
  | idle
  | startStore
  | startClear
  | startReset
  | stopStore
  | startLoad (type : OperationType) (threadId : ℕ) (value : ℤ) (now : ℕ)
  | startFetch (type : OperationType) (threadId : ℕ) (value : ℤ) (now : ℕ)
  | startAppend (opId : ℕ) (op : Operation)
  | endLoad (opId : ℕ) (success : Bool) (resultValue : ℤ) (now : ℕ)
  | endUpdate (opId : ℕ) (success : Bool) (resultValue : ℤ) (now : ℕ)
deriving DecidableEq

inductive Op where
  | startRecording
  | stopRecording
  | recordOperationStart (type : OperationType) (threadId : ℕ) (value : ℤ) (now : ℕ)
  | recordOperationEnd (opId : ℕ) (success : Bool) (resultValue : ℤ) (now : ℕ)
deriving DecidableEq

/-- The returns of `record_operation_start` and `record_operation_end`. -/
inductive Event where
  | started (opId : ℕ)
  | notRecording
  | ended (opId : ℕ) (success : Bool) (resultValue : ℤ) (now : ℕ)
deriving DecidableEq

section Program

def access (m : Mem) : PC → Outcome Mem PC Event
  | .idle => ⟨m, .idle, none⟩
  | .startStore => ⟨{ m with recording := true }, .startClear, none⟩
  | .startClear => ⟨{ m with operations := [] }, .startReset, none⟩
  | .startReset => ⟨{ m with operationCounter := 0 }, .idle, none⟩
  | .stopStore => ⟨{ m with recording := false }, .idle, none⟩
  | .startLoad type threadId value now =>
      if m.recording then ⟨m, .startFetch type threadId value now, none⟩
      else ⟨m, .idle, some .notRecording⟩
  | .startFetch type threadId value now =>
      ⟨{ m with operationCounter := wrap 64 (m.operationCounter + 1) },
        .startAppend m.operationCounter (.start type threadId value now), none⟩
  | .startAppend opId op =>
      ⟨{ m with operations := m.operations ++ [op] }, .idle, some (.started opId)⟩
  | .endLoad opId success resultValue now =>
      if opId = uint64Max ∨ m.recording = false then
        ⟨m, .idle, some (.ended opId success resultValue now)⟩
      else ⟨m, .endUpdate opId success resultValue now, none⟩
  | .endUpdate opId success resultValue now =>
      if opId < m.operations.length then
        ⟨{ m with
            operations := m.operations.modify opId (.finish success resultValue now) },
          .idle, some (.ended opId success resultValue now)⟩
      else ⟨m, .idle, some (.ended opId success resultValue now)⟩

def start : Op → PC
  | .startRecording => .startStore
  | .stopRecording => .stopStore
  | .recordOperationStart type threadId value now => .startLoad type threadId value now
  | .recordOperationEnd opId success resultValue now =>
      .endLoad opId success resultValue now

/-- One step of one thread. There is no adverse outcome here. -/
def prog (m : Mem) : PC → Choice Op → Outcome Mem PC Event
  | .idle, .call op => ⟨m, start op, none⟩
  | pc, .go => access m pc
  | pc, _ => ⟨m, pc, none⟩

/-- The validator as `start_recording` leaves it. -/
def sessionMem : Mem := ⟨[], true, 0⟩

theorem startRecording_sessionMem (m : Mem) :
    (access (access (access m .startStore).mem .startClear).mem .startReset).mem
      = sessionMem := rfl

def system (ι : Type*) (m : Mem) : System ι Mem PC (Choice Op) Event where
  init := ⟨m, fun _ => .idle⟩
  prog := prog

end Program

/-! ## What one step can do -/

/-- The steps of a thread, one constructor per access and branch outcome. -/
inductive Effect (m : Mem) : PC → Mem → PC → Option Event → Prop
  | stay (pc) : Effect m pc m pc none
  | start (op) : Effect m .idle m (start op) none
  | startStore : Effect m .startStore { m with recording := true } .startClear none
  | startClear : Effect m .startClear { m with operations := [] } .startReset none
  | startReset : Effect m .startReset { m with operationCounter := 0 } .idle none
  | stopStore : Effect m .stopStore { m with recording := false } .idle none
  | startLoad (type threadId value now) (h : m.recording = true) :
      Effect m (.startLoad type threadId value now) m
        (.startFetch type threadId value now) none
  | notRecording (type threadId value now) (h : m.recording = false) :
      Effect m (.startLoad type threadId value now) m .idle (some .notRecording)
  | startFetch (type threadId value now) :
      Effect m (.startFetch type threadId value now)
        { m with operationCounter := wrap 64 (m.operationCounter + 1) }
        (.startAppend m.operationCounter (.start type threadId value now)) none
  | startAppend (opId op) :
      Effect m (.startAppend opId op) { m with operations := m.operations ++ [op] } .idle
        (some (.started opId))
  | endLoad (opId success resultValue now) (h : opId ≠ uint64Max) (hrec : m.recording = true) :
      Effect m (.endLoad opId success resultValue now) m
        (.endUpdate opId success resultValue now) none
  | endIgnored (opId success resultValue now)
      (h : opId = uint64Max ∨ m.recording = false) :
      Effect m (.endLoad opId success resultValue now) m .idle
        (some (.ended opId success resultValue now))
  | endUpdate (opId success resultValue now) (h : opId < m.operations.length) :
      Effect m (.endUpdate opId success resultValue now)
        { m with operations := m.operations.modify opId (.finish success resultValue now) }
        .idle (some (.ended opId success resultValue now))
  | endMissing (opId success resultValue now) (h : m.operations.length ≤ opId) :
      Effect m (.endUpdate opId success resultValue now) m .idle
        (some (.ended opId success resultValue now))

theorem access_effect (m : Mem) (pc : PC) :
    Effect m pc (access m pc).mem (access m pc).pc (access m pc).event := by
  cases pc with
  | idle => exact .stay _
  | startStore => exact .startStore
  | startClear => exact .startClear
  | startReset => exact .startReset
  | stopStore => exact .stopStore
  | startLoad type threadId value now =>
      simp only [access]
      split_ifs with h
      · exact .startLoad type threadId value now h
      · exact .notRecording type threadId value now (Bool.not_eq_true _ ▸ h)
  | startFetch type threadId value now => exact .startFetch type threadId value now
  | startAppend opId op => exact .startAppend opId op
  | endLoad opId success resultValue now =>
      simp only [access]
      split_ifs with h
      · exact .endIgnored opId success resultValue now h
      · rw [not_or, Bool.not_eq_false] at h
        exact .endLoad opId success resultValue now h.1 h.2
  | endUpdate opId success resultValue now =>
      simp only [access]
      split_ifs with h
      · exact .endUpdate opId success resultValue now h
      · exact .endMissing opId success resultValue now (Nat.le_of_not_lt h)

theorem prog_effect (m : Mem) (pc : PC) (ch : Choice Op) :
    Effect m pc (prog m pc ch).mem (prog m pc ch).pc (prog m pc ch).event := by
  cases ch with
  | call op =>
      cases pc with
      | idle => exact .start op
      | _ => exact .stay _
  | go =>
      have h := access_effect m pc
      cases pc <;> exact h
  | fault => cases pc <;> exact .stay _

end Validator

end Lockless
