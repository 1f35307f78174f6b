import Lockless.Arena
import Lockless.RingFifo

/-!
# The zero-copy message queue

`ZeroCopyQueue<QueueSize, ArenaSize>` of `message_queue.hpp`: messages lie in
an arena, and a ring buffer passes their handles on. A producer calls
`prepare_message`, writes its bytes one by one through the pointer it gets,
and calls `push_message` until that returns true. A consumer calls
`pop_message`; `get_message_data` then gives it a pointer to the message.

A thread runs the program of the arena inside `prepare_message` and that of
the ring inside `push_message` and `pop_message`. So a run of the queue is,
step by step, a run of its arena (`run_arena`) and a run of its ring
(`run_ring`).

The bytes are those of the whole memory, by address.
-/

namespace Lockless

namespace MessageQueue

/-- `MessageHandle`. -/
structure Handle where
  offset : ℕ
  size : ℕ
deriving DecidableEq

structure Mem where
  arena : Arena.Mem
  queue : Ring.Mem Handle
  bytes : ℕ → UInt8

/-- A thread in `prepare_message`, about to write byte `i` of its message to
the memory at `ptr`, in its loop around `push_message` or in `pop_message`,
with its position in the program of the arena or of the ring. In the loop an
idle position is the call of `push_message` that comes next. -/
inductive PC where
  | idle
  | prepare (payload : List UInt8) (apc : Arena.PC)
  | write (payload : List UInt8) (ptr i : ℕ)
  | push (payload : List UInt8) (ptr : ℕ) (rpc : Ring.PC Handle)
  | pop (rpc : Ring.PC Handle)
deriving DecidableEq

inductive Op where
  | send (payload : List UInt8)
  | receive
deriving DecidableEq

/-- `prepared` is the return of `prepare_message` and `arenaFull` its
exception, `pushed` the step in which `push_message` adds the handle to the
queue, `received` and `empty` the return of `pop_message`. -/
inductive Event where
  | prepared (offset : ℕ) (payload : List UInt8)
  | arenaFull (payload : List UInt8)
  | pushed (handle : Handle) (payload : List UInt8)
  | received (handle : Handle)
  | empty
deriving DecidableEq

section Program

variable (A : Arena.Buffer) (Z : AdmittedSize)

/-- `prepare_message` goes on from a step of `allocate`. -/
def prepareMessage (m : Mem) (payload : List UInt8)
    (o : Outcome Arena.Mem Arena.PC Arena.Event) : Outcome Mem PC Event :=
  match o.event with
  | some (.allocated offset _) =>
      ⟨{ m with arena := o.mem }, .write payload (A.data + offset) 0,
        some (.prepared offset payload)⟩
  | some (.arenaFull _) => ⟨{ m with arena := o.mem }, .idle, some (.arenaFull payload)⟩
  | none => ⟨{ m with arena := o.mem }, .prepare payload o.pc, none⟩

/-- A producer writes the next byte of its message. -/
def writeByte (m : Mem) (payload : List UInt8) (ptr i : ℕ) : Outcome Mem PC Event :=
  match payload[i]? with
  | some byte =>
      ⟨{ m with bytes := Function.update m.bytes (ptr + i) byte },
        .write payload ptr (i + 1), none⟩
  | none => ⟨m, .push payload ptr .idle, none⟩

/-- The head of `push_message`: it returns false for a pointer that is not
into the arena. -/
def callPush (m : Mem) (payload : List UInt8) (ptr : ℕ) : Outcome Mem PC Event :=
  if A.getOffset ptr = Arena.Buffer.sizeMax then ⟨m, .push payload ptr .idle, none⟩
  else ⟨m, .push payload ptr (Ring.start (.tryPush ⟨A.getOffset ptr, payload.length⟩)), none⟩

/-- `push_message` goes on from a step of `try_push`. -/
def pushMessage (m : Mem) (payload : List UInt8) (ptr : ℕ)
    (o : Outcome (Ring.Mem Handle) (Ring.PC Handle) (Ring.Event Handle)) :
    Outcome Mem PC Event :=
  match o.event with
  | some (.pushWin _ handle) =>
      ⟨{ m with queue := o.mem }, .push payload ptr o.pc, some (.pushed handle payload)⟩
  | some (.pushDone _) => ⟨{ m with queue := o.mem }, .idle, none⟩
  | _ => ⟨{ m with queue := o.mem }, .push payload ptr o.pc, none⟩

/-- `pop_message` goes on from a step of `try_pop`. -/
def popMessage (m : Mem)
    (o : Outcome (Ring.Mem Handle) (Ring.PC Handle) (Ring.Event Handle)) :
    Outcome Mem PC Event :=
  match o.event with
  | some (.popDone _ handle) => ⟨{ m with queue := o.mem }, .idle, some (.received handle)⟩
  | some .popEmpty => ⟨{ m with queue := o.mem }, .idle, some .empty⟩
  | _ => ⟨{ m with queue := o.mem }, .pop o.pc, none⟩

def start : Op → PC
  | .send payload => .prepare payload (Arena.start (.allocate payload.length))
  | .receive => .pop (Ring.start .tryPop)

/-- One step of one thread. A call starts only in a thread that is not
inside another call. -/
def prog (m : Mem) : PC → Choice Op → Outcome Mem PC Event
  | .idle, .call op => ⟨m, start op, none⟩
  | pc, .call _ => ⟨m, pc, none⟩
  | .idle, _ => ⟨m, .idle, none⟩
  | .prepare payload apc, ch =>
      prepareMessage A m payload (Arena.prog A.size m.arena apc ch.access)
  | .write payload ptr i, _ => writeByte m payload ptr i
  | .push payload ptr rpc, ch =>
      if rpc = .idle then callPush A m payload ptr
      else pushMessage m payload ptr (Ring.prog Z id m.queue rpc ch.access)
  | .pop rpc, ch => popMessage m (Ring.prog Z id m.queue rpc ch.access)

def system (ι : Type*) (buffer : ℕ → Handle) (bytes : ℕ → UInt8) :
    System ι Mem PC (Choice Op) Event where
  init := ⟨⟨⟨0⟩, Ring.initMem buffer, bytes⟩, fun _ => .idle⟩
  prog := prog A Z

/-- `get_message_data`. -/
def getMessageData (handle : Handle) : Option ℕ := A.get handle.offset

end Program

/-- Eight bytes from address 100 on. -/
def eightBytes : Arena.Buffer := ⟨8, 100, by decide, by decide⟩

/-- The `n` bytes at an address. -/
def bytesAt (bytes : ℕ → UInt8) (ptr n : ℕ) : List UInt8 :=
  (List.range n).map fun i => bytes (ptr + i)

/-! ## The arena and the ring inside -/

/-- The position of a thread in the program of the arena. -/
def PC.arena : PC → Arena.PC
  | .prepare _ apc => apc
  | _ => .idle

/-- The position of a thread in the program of the ring. -/
def PC.queue : PC → Ring.PC Handle
  | .push _ _ rpc => rpc
  | .pop rpc => rpc
  | _ => .idle

/-- What a step asks of the arena. -/
def arenaChoice : PC → Choice Op → Choice Arena.Op
  | .idle, .call (.send payload) => .call (.allocate payload.length)
  | .prepare _ apc, .call _ => Arena.rest apc
  | .prepare _ _, ch => ch.access
  | _, _ => .go

/-- What a step asks of the ring. -/
def queueChoice (A : Arena.Buffer) : PC → Choice Op → Choice (Ring.Op Handle)
  | .idle, .call .receive => .call .tryPop
  | .push _ _ rpc, .call _ => Ring.rest rpc
  | .push payload ptr rpc, ch =>
      if rpc = .idle then
        if A.getOffset ptr = Arena.Buffer.sizeMax then .go
        else .call (.tryPush ⟨A.getOffset ptr, payload.length⟩)
      else ch.access
  | .pop rpc, .call _ => Ring.rest rpc
  | .pop _, ch => ch.access
  | _, _ => .go

/-! ## What one step can do -/

/-- The steps of a thread, with the event of the ring inside: those of the
queue's own code and of its clients, and the accesses to the arena and to the
ring. -/
inductive Effect (A : Arena.Buffer) (Z : AdmittedSize) (m : Mem) (ch : Choice Op) :
    PC → Mem → PC → Option (Ring.Event Handle) → Option Event → Prop
  | stay (pc) : Effect A Z m ch pc m pc none none
  | start (op) (hch : ch = .call op) : Effect A Z m ch .idle m (start op) none none
  | allocate (payload apc m' apc') (ach : Choice Arena.Op)
      (he : Arena.Effect A.size m.arena ach apc m' apc' none) :
      Effect A Z m ch (.prepare payload apc) { m with arena := m' }
        (.prepare payload apc') none none
  | prepared (payload apc m' offset bytes) (ach : Choice Arena.Op)
      (he : Arena.Effect A.size m.arena ach apc m' .idle (some (.allocated offset bytes))) :
      Effect A Z m ch (.prepare payload apc) { m with arena := m' }
        (.write payload (A.data + offset) 0) none (some (.prepared offset payload))
  | arenaFull (payload apc m' bytes) (ach : Choice Arena.Op)
      (he : Arena.Effect A.size m.arena ach apc m' .idle (some (.arenaFull bytes))) :
      Effect A Z m ch (.prepare payload apc) { m with arena := m' } .idle none
        (some (.arenaFull payload))
  | writeByte (payload ptr i byte) (h : payload[i]? = some byte) :
      Effect A Z m ch (.write payload ptr i)
        { m with bytes := Function.update m.bytes (ptr + i) byte }
        (.write payload ptr (i + 1)) none none
  | written (payload ptr i) (h : payload[i]? = none) :
      Effect A Z m ch (.write payload ptr i) m (.push payload ptr .idle) none none
  | callPush (payload ptr) :
      Effect A Z m ch (.push payload ptr .idle) m
        (.push payload ptr (.push ⟨A.getOffset ptr, payload.length⟩ .loadHead)) none none
  | pushAccess (payload ptr rpc m' rpc' ev) (hbusy : rpc ≠ .idle)
      (he : Ring.Effect Z id m.queue rpc m' rpc' ev)
      (hwin : ∀ t handle, ev ≠ some (.pushWin t handle)) (hdone : ∀ t, ev ≠ some (.pushDone t)) :
      Effect A Z m ch (.push payload ptr rpc) { m with queue := m' }
        (.push payload ptr rpc') ev none
  | pushWin (payload ptr rpc m' rpc' t handle) (hbusy : rpc ≠ .idle)
      (he : Ring.Effect Z id m.queue rpc m' rpc' (some (.pushWin t handle))) :
      Effect A Z m ch (.push payload ptr rpc) { m with queue := m' }
        (.push payload ptr rpc') (some (.pushWin t handle)) (some (.pushed handle payload))
  | pushDone (payload ptr rpc m' t) (hbusy : rpc ≠ .idle)
      (he : Ring.Effect Z id m.queue rpc m' .idle (some (.pushDone t))) :
      Effect A Z m ch (.push payload ptr rpc) { m with queue := m' } .idle
        (some (.pushDone t)) none
  | popAccess (rpc m' rpc' ev) (he : Ring.Effect Z id m.queue rpc m' rpc' ev)
      (hdone : ∀ t handle, ev ≠ some (.popDone t handle)) (hempty : ev ≠ some .popEmpty) :
      Effect A Z m ch (.pop rpc) { m with queue := m' } (.pop rpc') ev none
  | received (rpc m' t handle)
      (he : Ring.Effect Z id m.queue rpc m' .idle (some (.popDone t handle))) :
      Effect A Z m ch (.pop rpc) { m with queue := m' } .idle (some (.popDone t handle))
        (some (.received handle))
  | empty (rpc m') (he : Ring.Effect Z id m.queue rpc m' .idle (some .popEmpty)) :
      Effect A Z m ch (.pop rpc) { m with queue := m' } .idle (some .popEmpty) (some .empty)

section Inversion

variable {A : Arena.Buffer} {Z : AdmittedSize} {ch : Choice Op}

theorem prepareMessage_effect {m : Mem} {ach : Choice Arena.Op} (payload : List UInt8)
    {apc : Arena.PC} {o : Outcome Arena.Mem Arena.PC Arena.Event}
    (he : Arena.Effect A.size m.arena ach apc o.mem o.pc o.event) :
    Effect A Z m ch (.prepare payload apc) (prepareMessage A m payload o).mem
      (prepareMessage A m payload o).pc none (prepareMessage A m payload o).event := by
  obtain ⟨m', apc', ev⟩ := o
  dsimp only at he
  cases ev with
  | none => exact .allocate payload apc m' apc' ach he
  | some e =>
      cases e with
      | allocated offset bytes =>
          obtain rfl : apc' = .idle := by cases he; rfl
          exact .prepared payload apc m' offset bytes ach he
      | arenaFull bytes =>
          obtain rfl : apc' = .idle := by cases he; rfl
          exact .arenaFull payload apc m' bytes ach he

theorem pushMessage_effect {m : Mem} (payload : List UInt8) (ptr : ℕ) {rpc : Ring.PC Handle}
    {o : Outcome (Ring.Mem Handle) (Ring.PC Handle) (Ring.Event Handle)}
    (hbusy : rpc ≠ .idle) (he : Ring.Effect Z id m.queue rpc o.mem o.pc o.event) :
    Effect A Z m ch (.push payload ptr rpc) (pushMessage m payload ptr o).mem
      (pushMessage m payload ptr o).pc o.event (pushMessage m payload ptr o).event := by
  obtain ⟨m', rpc', ev⟩ := o
  dsimp only [pushMessage] at he ⊢
  split
  · exact .pushWin payload ptr rpc m' rpc' _ _ hbusy he
  · obtain rfl : rpc' = .idle := by cases he; rfl
    exact .pushDone payload ptr rpc m' _ hbusy he
  · next hwin hdone => exact .pushAccess payload ptr rpc m' rpc' ev hbusy he hwin hdone

theorem popMessage_effect {m : Mem} {rpc : Ring.PC Handle}
    {o : Outcome (Ring.Mem Handle) (Ring.PC Handle) (Ring.Event Handle)}
    (he : Ring.Effect Z id m.queue rpc o.mem o.pc o.event) :
    Effect A Z m ch (.pop rpc) (popMessage m o).mem (popMessage m o).pc o.event
      (popMessage m o).event := by
  obtain ⟨m', rpc', ev⟩ := o
  dsimp only [popMessage] at he ⊢
  split
  · obtain rfl : rpc' = .idle := by cases he; rfl
    exact .received rpc m' _ _ he
  · obtain rfl : rpc' = .idle := by cases he; rfl
    exact .empty rpc m' he
  · next hdone hempty => exact .popAccess rpc m' rpc' ev he hdone hempty

theorem writeByte_effect (m : Mem) (payload : List UInt8) (ptr i : ℕ) :
    Effect A Z m ch (.write payload ptr i) (writeByte m payload ptr i).mem
      (writeByte m payload ptr i).pc none (writeByte m payload ptr i).event := by
  unfold writeByte
  split
  · next byte h => exact .writeByte payload ptr i byte h
  · next h => exact .written payload ptr i h

/-- A step that is not the start of a call. -/
theorem access_effect (m : Mem) (pc : PC) (hch : ∀ op, ch ≠ .call op) :
    Effect A Z m ch pc (prog A Z m pc ch).mem (prog A Z m pc ch).pc
      (Ring.prog Z id m.queue pc.queue (queueChoice A pc ch)).event
      (prog A Z m pc ch).event := by
  have hring : ∀ rpc, Ring.Effect Z id m.queue rpc (Ring.prog Z id m.queue rpc ch.access).mem
      (Ring.prog Z id m.queue rpc ch.access).pc
      (Ring.prog Z id m.queue rpc ch.access).event := fun rpc => Ring.prog_effect _ _ _
  have hpush : ∀ payload ptr rpc,
      prog A Z m (.push payload ptr rpc) ch = (if rpc = .idle then callPush A m payload ptr
        else pushMessage m payload ptr (Ring.prog Z id m.queue rpc ch.access))
      ∧ queueChoice A (.push payload ptr rpc) ch = (if rpc = .idle then
        if A.getOffset ptr = Arena.Buffer.sizeMax then .go
        else .call (.tryPush ⟨A.getOffset ptr, payload.length⟩) else ch.access) := by
    intro payload ptr rpc
    cases ch with
    | call op => exact absurd rfl (hch op)
    | go => exact ⟨rfl, rfl⟩
    | fault => exact ⟨rfl, rfl⟩
  cases pc with
  | idle =>
      cases ch with
      | call op => exact absurd rfl (hch op)
      | go => exact .stay _
      | fault => exact .stay _
  | prepare payload apc =>
      cases ch with
      | call op => exact absurd rfl (hch op)
      | go => exact prepareMessage_effect payload (Arena.prog_effect _ _ _)
      | fault => exact prepareMessage_effect payload (Arena.prog_effect _ _ _)
  | write payload ptr i =>
      cases ch with
      | call op => exact absurd rfl (hch op)
      | go => exact writeByte_effect m payload ptr i
      | fault => exact writeByte_effect m payload ptr i
  | push payload ptr rpc =>
      obtain ⟨hprog, hchoice⟩ := hpush payload ptr rpc
      rw [hprog, hchoice]
      by_cases hidle : rpc = .idle
      · subst hidle
        simp only [if_true, callPush]
        split_ifs with hmax
        · exact .stay _
        · exact .callPush payload ptr
      · simp only [if_neg hidle]
        exact pushMessage_effect payload ptr hidle (hring rpc)
  | pop rpc =>
      cases ch with
      | call op => exact absurd rfl (hch op)
      | go => exact popMessage_effect (hring rpc)
      | fault => exact popMessage_effect (hring rpc)

theorem prog_effect (m : Mem) (pc : PC) (ch : Choice Op) :
    Effect A Z m ch pc (prog A Z m pc ch).mem (prog A Z m pc ch).pc
      (Ring.prog Z id m.queue pc.queue (queueChoice A pc ch)).event
      (prog A Z m pc ch).event := by
  cases ch with
  | call op =>
      cases pc with
      | idle => cases op <;> exact .start _ rfl
      | prepare payload apc => exact .stay _
      | write payload ptr i => exact .stay _
      | push payload ptr rpc =>
          simp only [PC.queue, queueChoice, Ring.prog_rest]
          exact .stay _
      | pop rpc =>
          simp only [PC.queue, queueChoice, Ring.prog_rest]
          exact .stay _
  | go => exact access_effect m pc fun op h => by cases h
  | fault => exact access_effect m pc fun op h => by cases h

end Inversion

/-! ## Runs of the arena and of the ring -/

section Projection

variable {A : Arena.Buffer} {Z : AdmittedSize}

theorem prepareMessage_arena (m : Mem) (payload : List UInt8) (apc : Arena.PC)
    (ach : Choice Arena.Op) :
    (prepareMessage A m payload (Arena.prog A.size m.arena apc ach)).mem.arena
        = (Arena.prog A.size m.arena apc ach).mem
      ∧ (prepareMessage A m payload (Arena.prog A.size m.arena apc ach)).pc.arena
        = (Arena.prog A.size m.arena apc ach).pc := by
  have he : Arena.Effect A.size _ _ _ _ _ _ := Arena.prog_effect m.arena apc ach
  generalize Arena.prog A.size m.arena apc ach = o at he ⊢
  obtain ⟨m', apc', ev⟩ := o
  dsimp only at he ⊢
  cases ev with
  | none => exact ⟨rfl, rfl⟩
  | some e => cases e <;> cases he <;> exact ⟨rfl, rfl⟩

theorem writeByte_component (m : Mem) (payload : List UInt8) (ptr i : ℕ) :
    (writeByte m payload ptr i).mem.arena = m.arena
      ∧ (writeByte m payload ptr i).mem.queue = m.queue
      ∧ (writeByte m payload ptr i).pc.arena = .idle
      ∧ (writeByte m payload ptr i).pc.queue = .idle := by
  unfold writeByte
  split <;> exact ⟨rfl, rfl, rfl, rfl⟩

theorem pushMessage_arena (m : Mem) (payload : List UInt8) (ptr : ℕ)
    (o : Outcome (Ring.Mem Handle) (Ring.PC Handle) (Ring.Event Handle)) :
    (pushMessage m payload ptr o).mem.arena = m.arena
      ∧ (pushMessage m payload ptr o).pc.arena = .idle := by
  unfold pushMessage
  split <;> exact ⟨rfl, rfl⟩

theorem popMessage_arena (m : Mem)
    (o : Outcome (Ring.Mem Handle) (Ring.PC Handle) (Ring.Event Handle)) :
    (popMessage m o).mem.arena = m.arena ∧ (popMessage m o).pc.arena = .idle := by
  unfold popMessage
  split <;> exact ⟨rfl, rfl⟩

theorem prog_arena (m : Mem) (pc : PC) (ch : Choice Op) :
    (prog A Z m pc ch).mem.arena
        = (Arena.prog A.size m.arena pc.arena (arenaChoice pc ch)).mem
      ∧ (prog A Z m pc ch).pc.arena
        = (Arena.prog A.size m.arena pc.arena (arenaChoice pc ch)).pc := by
  cases pc with
  | idle =>
      cases ch with
      | call op => cases op <;> exact ⟨rfl, rfl⟩
      | go => exact ⟨rfl, rfl⟩
      | fault => exact ⟨rfl, rfl⟩
  | prepare payload apc =>
      cases ch with
      | call op =>
          simp only [PC.arena, arenaChoice, Arena.prog_rest]
          exact ⟨rfl, rfl⟩
      | go => exact prepareMessage_arena m payload apc _
      | fault => exact prepareMessage_arena m payload apc _
  | write payload ptr i =>
      obtain ⟨hmem, -, hpc, -⟩ := writeByte_component m payload ptr i
      cases ch with
      | call op => exact ⟨rfl, rfl⟩
      | go => exact ⟨hmem, hpc⟩
      | fault => exact ⟨hmem, hpc⟩
  | push payload ptr rpc =>
      have hcall : (callPush A m payload ptr).mem.arena = m.arena
          ∧ (callPush A m payload ptr).pc.arena = .idle := by
        unfold callPush
        split <;> exact ⟨rfl, rfl⟩
      cases ch with
      | call op => exact ⟨rfl, rfl⟩
      | go =>
          simp only [prog]
          split_ifs
          · exact hcall
          · exact pushMessage_arena m payload ptr _
      | fault =>
          simp only [prog]
          split_ifs
          · exact hcall
          · exact pushMessage_arena m payload ptr _
  | pop rpc =>
      cases ch with
      | call op => exact ⟨rfl, rfl⟩
      | go => exact popMessage_arena m _
      | fault => exact popMessage_arena m _

theorem prepareMessage_queue (m : Mem) (payload : List UInt8)
    (o : Outcome Arena.Mem Arena.PC Arena.Event) :
    (prepareMessage A m payload o).mem.queue = m.queue
      ∧ (prepareMessage A m payload o).pc.queue = .idle := by
  unfold prepareMessage
  split <;> exact ⟨rfl, rfl⟩

theorem pushMessage_queue (m : Mem) (payload : List UInt8) (ptr : ℕ) (rpc : Ring.PC Handle)
    (rch : Choice (Ring.Op Handle)) :
    (pushMessage m payload ptr (Ring.prog Z id m.queue rpc rch)).mem.queue
        = (Ring.prog Z id m.queue rpc rch).mem
      ∧ (pushMessage m payload ptr (Ring.prog Z id m.queue rpc rch)).pc.queue
        = (Ring.prog Z id m.queue rpc rch).pc := by
  have he : Ring.Effect Z id _ _ _ _ _ := Ring.prog_effect m.queue rpc rch
  generalize Ring.prog Z id m.queue rpc rch = o at he ⊢
  obtain ⟨m', rpc', ev⟩ := o
  dsimp only [pushMessage] at he ⊢
  split
  · exact ⟨rfl, rfl⟩
  · cases he
    exact ⟨rfl, rfl⟩
  · exact ⟨rfl, rfl⟩

theorem popMessage_queue (m : Mem) (rpc : Ring.PC Handle) (rch : Choice (Ring.Op Handle)) :
    (popMessage m (Ring.prog Z id m.queue rpc rch)).mem.queue
        = (Ring.prog Z id m.queue rpc rch).mem
      ∧ (popMessage m (Ring.prog Z id m.queue rpc rch)).pc.queue
        = (Ring.prog Z id m.queue rpc rch).pc := by
  have he : Ring.Effect Z id _ _ _ _ _ := Ring.prog_effect m.queue rpc rch
  generalize Ring.prog Z id m.queue rpc rch = o at he ⊢
  obtain ⟨m', rpc', ev⟩ := o
  dsimp only [popMessage] at he ⊢
  split
  · cases he
    exact ⟨rfl, rfl⟩
  · cases he
    exact ⟨rfl, rfl⟩
  · exact ⟨rfl, rfl⟩

theorem push_queue (m : Mem) (payload : List UInt8) (ptr : ℕ) (rpc : Ring.PC Handle)
    {ch : Choice Op} (hch : ∀ op, ch ≠ .call op) :
    (prog A Z m (.push payload ptr rpc) ch).mem.queue
        = (Ring.prog Z id m.queue rpc (queueChoice A (.push payload ptr rpc) ch)).mem
      ∧ (prog A Z m (.push payload ptr rpc) ch).pc.queue
        = (Ring.prog Z id m.queue rpc (queueChoice A (.push payload ptr rpc) ch)).pc := by
  by_cases hidle : rpc = .idle
  · subst hidle
    cases ch with
    | call op => exact absurd rfl (hch op)
    | go | fault =>
        simp only [prog, queueChoice, if_true, callPush]
        split_ifs <;> exact ⟨rfl, rfl⟩
  · cases ch with
    | call op => exact absurd rfl (hch op)
    | go | fault =>
        simp only [prog, queueChoice, if_neg hidle]
        exact pushMessage_queue m payload ptr rpc _

theorem prog_queue (m : Mem) (pc : PC) (ch : Choice Op) :
    (prog A Z m pc ch).mem.queue
        = (Ring.prog Z id m.queue pc.queue (queueChoice A pc ch)).mem
      ∧ (prog A Z m pc ch).pc.queue
        = (Ring.prog Z id m.queue pc.queue (queueChoice A pc ch)).pc := by
  cases pc with
  | idle =>
      cases ch with
      | call op => cases op <;> exact ⟨rfl, rfl⟩
      | go => exact ⟨rfl, rfl⟩
      | fault => exact ⟨rfl, rfl⟩
  | prepare payload apc =>
      cases ch with
      | call op => exact ⟨rfl, rfl⟩
      | go => exact prepareMessage_queue m payload _
      | fault => exact prepareMessage_queue m payload _
  | write payload ptr i =>
      obtain ⟨-, hmem, -, hpc⟩ := writeByte_component m payload ptr i
      cases ch with
      | call op => exact ⟨rfl, rfl⟩
      | go => exact ⟨hmem, hpc⟩
      | fault => exact ⟨hmem, hpc⟩
  | push payload ptr rpc =>
      cases ch with
      | call op =>
          simp only [PC.queue, queueChoice, Ring.prog_rest]
          exact ⟨rfl, rfl⟩
      | go => exact push_queue m payload ptr rpc fun op h => by cases h
      | fault => exact push_queue m payload ptr rpc fun op h => by cases h
  | pop rpc =>
      cases ch with
      | call op =>
          simp only [PC.queue, queueChoice, Ring.prog_rest]
          exact ⟨rfl, rfl⟩
      | go => exact popMessage_queue m rpc _
      | fault => exact popMessage_queue m rpc _

variable {ι : Type*} [DecidableEq ι] {buffer : ℕ → Handle} {bytes : ℕ → UInt8}

/-- The schedule a run of the queue drives its ring with. -/
def queueSched (A : Arena.Buffer) (Z : AdmittedSize) (buffer : ℕ → Handle) (bytes : ℕ → UInt8)
    (sched : ℕ → ι × Choice Op) : ℕ → ι × Choice (Ring.Op Handle) :=
  (system A Z ι buffer bytes).projectSched (fun _ => queueChoice A) sched

/-- A run of the queue is a run of its arena. -/
theorem run_arena (sched : ℕ → ι × Choice Op) (n : ℕ) :
    System.project Mem.arena PC.arena ((system A Z ι buffer bytes).run sched n)
      = (Arena.system A.size ι).run
        ((system A Z ι buffer bytes).projectSched (fun _ => arenaChoice) sched) n :=
  (system A Z ι buffer bytes).run_project rfl (fun m pc ch => (prog_arena m pc ch).1)
    (fun m pc ch => (prog_arena m pc ch).2) sched n

/-- A run of the queue is a run of its ring. -/
theorem run_ring (sched : ℕ → ι × Choice Op) (n : ℕ) :
    System.project Mem.queue PC.queue ((system A Z ι buffer bytes).run sched n)
      = (Ring.system Z id ι buffer).run (queueSched A Z buffer bytes sched) n :=
  (system A Z ι buffer bytes).run_project rfl (fun m pc ch => (prog_queue m pc ch).1)
    (fun m pc ch => (prog_queue m pc ch).2) sched n

end Projection

end MessageQueue

end Lockless
