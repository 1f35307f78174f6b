import Lockless.ArenaCalls
import Lockless.MessageQueue
import Lockless.RingCalls

/-!
# Calls of the message queue, one after another

The public functions of `ZeroCopyQueue` on their own: `prepare_message`,
`push_message` with any pointer and any size, and `pop_message`. `messages` is what
they do to the offset of the arena and to the list of the handles in the ring, if it has
two or more slots.
-/

namespace Lockless

namespace MessageQueue

namespace Api

/-- The fields of the class. -/
structure Mem where
  arena : Arena.Mem
  queue : Ring.Mem Handle

inductive Op where
  | prepareMessage (size : ℕ)
  | pushMessage (ptr size : ℕ)
  | popMessage
deriving DecidableEq

/-- What a call returns; `threw` is the exception of `prepare_message`. -/
inductive Result where
  | prepared (ptr : ℕ)
  | threw
  | pushed (ok : Bool)
  | popped (handle : Option Handle)
deriving DecidableEq

/-- The position in the program of the arena or of the ring. `callPush` is the head
of `push_message`. -/
inductive PC where
  | idle
  | prepare (apc : Arena.PC)
  | callPush (ptr size : ℕ)
  | push (rpc : Ring.PC Handle)
  | pop (rpc : Ring.PC Handle)
deriving DecidableEq

section Program

variable (A : Arena.Buffer) (Z : AdmittedSize)

def prepareMessage (m : Mem) (o : Outcome Arena.Mem Arena.PC Arena.Event) :
    Outcome Mem PC Result :=
  match o.event with
  | some (.allocated offset _) =>
      ⟨{ m with arena := o.mem }, .idle, some (.prepared (A.data + offset))⟩
  | some (.arenaFull _) => ⟨{ m with arena := o.mem }, .idle, some .threw⟩
  | none => ⟨{ m with arena := o.mem }, .prepare o.pc, none⟩

def callPush (m : Mem) (ptr size : ℕ) : Outcome Mem PC Result :=
  if A.getOffset ptr = Arena.Buffer.sizeMax then ⟨m, .idle, some (.pushed false)⟩
  else ⟨m, .push (Ring.start (.tryPush ⟨A.getOffset ptr, size⟩)), none⟩

def pushMessage (m : Mem)
    (o : Outcome (Ring.Mem Handle) (Ring.PC Handle) (Ring.Event Handle)) :
    Outcome Mem PC Result :=
  match Ring.pushReturn o.event with
  | some ok => ⟨{ m with queue := o.mem }, .idle, some (.pushed ok)⟩
  | none => ⟨{ m with queue := o.mem }, .push o.pc, none⟩

def popMessage (m : Mem)
    (o : Outcome (Ring.Mem Handle) (Ring.PC Handle) (Ring.Event Handle)) :
    Outcome Mem PC Result :=
  match Ring.popReturn o.event with
  | some handle => ⟨{ m with queue := o.mem }, .idle, some (.popped handle)⟩
  | none => ⟨{ m with queue := o.mem }, .pop o.pc, none⟩

def start : Op → PC
  | .prepareMessage size => .prepare (Arena.start (.allocate size))
  | .pushMessage ptr size => .callPush ptr size
  | .popMessage => .pop (Ring.start .tryPop)

/-- One step of the thread. A call starts only when it is not inside another. -/
def prog (m : Mem) : PC → Choice Op → Outcome Mem PC Result
  | .idle, .call op => ⟨m, start op, none⟩
  | pc, .call _ => ⟨m, pc, none⟩
  | .idle, _ => ⟨m, .idle, none⟩
  | .prepare apc, ch => prepareMessage A m (Arena.prog A.size m.arena apc ch.access)
  | .callPush ptr size, _ => callPush A m ptr size
  | .push rpc, ch => pushMessage m (Ring.prog Z id m.queue rpc ch.access)
  | .pop rpc, ch => popMessage m (Ring.prog Z id m.queue rpc ch.access)

/-- The state the constructor leaves. -/
def initMem (buffer : ℕ → Handle) : Mem := ⟨⟨0⟩, Ring.initMem buffer⟩

end Program

/-! ## What the calls do -/

/-- What a call does to the offset of the arena and to the handles in the ring, of
which there is room for `n`, and what it returns. -/
def messages (A : Arena.Buffer) (n : ℕ) (s : ℕ × List Handle) :
    Op → (ℕ × List Handle) × Result
  | .prepareMessage size =>
      if wrap 64 (s.1 + size) ≤ A.size then
        ((wrap 64 (s.1 + size), s.2), .prepared (A.data + s.1))
      else (s, .threw)
  | .pushMessage ptr size =>
      if A.getOffset ptr ≠ Arena.Buffer.sizeMax ∧ s.2.length < n then
        ((s.1, s.2 ++ [⟨A.getOffset ptr, size⟩]), .pushed true)
      else (s, .pushed false)
  | .popMessage => ((s.1, s.2.tail), .popped s.2.head?)

structure Represents (Z : PowSize) (m : Mem) (s : ℕ × List Handle) : Prop where
  arena : m.arena = ⟨s.1⟩
  queue : ∃ b, Ring.Stored Z m.queue b s.2

/-- What holds during a call. -/
def InCall (A : Arena.Buffer) (Z : PowSize) (s : ℕ × List Handle) (m : Mem) :
    Op → PC → Prop
  | .prepareMessage size, .prepare apc =>
      Arena.Allocating A.size s.1 size m.arena apc ∧ ∃ b, Ring.Stored Z m.queue b s.2
  | .pushMessage ptr size, .callPush ptr' size' =>
      ptr' = ptr ∧ size' = size ∧ Represents Z m s
  | .pushMessage ptr size, .push rpc =>
      A.getOffset ptr ≠ Arena.Buffer.sizeMax ∧ m.arena = ⟨s.1⟩
        ∧ ∃ b pc, rpc = .push ⟨A.getOffset ptr, size⟩ pc
          ∧ Ring.Pushing Z b s.2 ⟨A.getOffset ptr, size⟩ m.queue pc
  | .popMessage, .pop rpc =>
      m.arena = ⟨s.1⟩ ∧ ∃ b pc, rpc = .pop pc ∧ Ring.Popping Z id b s.2 m.queue pc
  | _, _ => False

/-- How many steps a call has still to make, if none fails. -/
def PC.left : PC → ℕ
  | .idle => 0
  | .prepare apc => apc.left
  | .callPush _ _ => 6
  | .push rpc => rpc.left
  | .pop rpc => rpc.left

/-- What a call leaves and returns. -/
def Answers (A : Arena.Buffer) (Z : PowSize) (s : ℕ × List Handle) (op : Op) (m : Mem)
    (e : Result) : Prop :=
  e = (messages A Z.size s op).2 ∧ Represents Z m (messages A Z.size s op).1

def Goes (A : Arena.Buffer) (Z : PowSize) (s : ℕ × List Handle) (op : Op) (k : ℕ)
    (spurious : Prop) (o : Outcome Mem PC Result) : Prop :=
  Advances (fun m pc => InCall A Z s m op pc) (Answers A Z s op) PC.left .idle k spurious o

section Steps

variable {A : Arena.Buffer} {Z : PowSize} {s : ℕ × List Handle} {m : Mem}

theorem InCall.start (h : Represents Z m s) (op : Op) : InCall A Z s m op (start op) := by
  cases op with
  | prepareMessage size => exact ⟨⟨rfl, h.arena⟩, h.queue⟩
  | pushMessage ptr size => exact ⟨rfl, rfl, h⟩
  | popMessage =>
      obtain ⟨b, hstored⟩ := h.queue
      exact ⟨h.arena, b, _, rfl, hstored⟩

theorem Goes.prepare {size : ℕ} {apc : Arena.PC} {b : ℕ}
    (h : Arena.Allocating A.size s.1 size m.arena apc) (hstored : Ring.Stored Z m.queue b s.2)
    (ch : Choice Op) :
    Goes A Z s (.prepareMessage size) apc.left (ch ≠ .go)
      (prepareMessage A m (Arena.prog A.size m.arena apc ch.access)) := by
  rcases h.access ch with ⟨hall, hev, hleft⟩ | ⟨-, e, hev, hdec⟩
  · simp only [prepareMessage, hev]
    exact Or.inl ⟨⟨hall, b, hstored⟩, rfl, hleft⟩
  · rcases hdec with ⟨hfits, hmem, rfl⟩ | ⟨hfull, hmem, rfl⟩
    · simp only [prepareMessage, hev, hmem]
      refine Or.inr ⟨rfl, _, rfl, ?_⟩
      simp only [Answers, messages, if_pos hfits]
      exact ⟨trivial, rfl, b, hstored⟩
    · simp only [prepareMessage, hev, hmem]
      refine Or.inr ⟨rfl, _, rfl, ?_⟩
      simp only [Answers, messages, if_neg (Nat.not_le.mpr hfull)]
      exact ⟨trivial, rfl, b, hstored⟩

theorem Goes.callPush (h : Represents Z m s) (ptr size : ℕ) (spurious : Prop) :
    Goes A Z s (.pushMessage ptr size) 6 spurious (callPush A m ptr size) := by
  unfold Api.callPush
  split_ifs with hptr
  · refine Or.inr ⟨rfl, _, rfl, ?_⟩
    have hspec : messages A Z.size s (.pushMessage ptr size) = (s, .pushed false) :=
      if_neg fun h => h.1 hptr
    rw [Answers, hspec]
    exact ⟨rfl, h⟩
  · obtain ⟨b, hstored⟩ := h.queue
    refine Or.inl ⟨⟨hptr, h.arena, b, _, rfl, hstored⟩, rfl, Or.inl ?_⟩
    simp [PC.left, Ring.PC.left, Ring.start, Ring.PushPC.left]

theorem Goes.push {ptr size b : ℕ} {pc : Ring.PushPC}
    (hptr : A.getOffset ptr ≠ Arena.Buffer.sizeMax) (harena : m.arena = ⟨s.1⟩)
    (h : Ring.Pushing Z b s.2 ⟨A.getOffset ptr, size⟩ m.queue pc) (ch : Choice Op) :
    Goes A Z s (.pushMessage ptr size) pc.left (ch ≠ .go) (pushMessage m
      (Ring.prog Z id m.queue (.push ⟨A.getOffset ptr, size⟩ pc) ch.access)) := by
  obtain ⟨spurious, ho, hgo⟩ := Ring.prog_push_access (↑Z) id m.queue
    ⟨A.getOffset ptr, size⟩ pc ch
  rw [ho]
  rcases h.step spurious with ⟨pc', hpc, hret, hpush, hleft⟩ | ⟨-, ⟨hlt, hret, hstored⟩ |
    ⟨hfull, hret, hstored⟩⟩
  · simp only [pushMessage, hret, hpc]
    refine Or.inl ⟨⟨hptr, harena, b, pc', rfl, hpush⟩, rfl, ?_⟩
    exact hgo.imp_left hleft
  · simp only [pushMessage, hret]
    refine Or.inr ⟨rfl, _, rfl, ?_⟩
    simp only [Answers, messages, if_pos (And.intro hptr hlt)]
    exact ⟨trivial, harena, b, hstored⟩
  · simp only [pushMessage, hret]
    refine Or.inr ⟨rfl, _, rfl, ?_⟩
    have hspec : messages A Z.size s (.pushMessage ptr size) = (s, .pushed false) :=
      if_neg fun h => absurd h.2 (Nat.not_lt.mpr hfull.ge)
    rw [Answers, hspec]
    exact ⟨rfl, harena, b, hstored⟩

theorem Goes.pop {b : ℕ} {pc : Ring.PopPC Handle} (harena : m.arena = ⟨s.1⟩)
    (h : Ring.Popping Z id b s.2 m.queue pc) (ch : Choice Op) :
    Goes A Z s .popMessage pc.left (ch ≠ .go)
      (popMessage m (Ring.prog Z id m.queue (.pop pc) ch.access)) := by
  obtain ⟨spurious, ho, hgo⟩ := Ring.prog_pop_access (↑Z) id m.queue pc ch
  rw [ho]
  rcases h.step spurious with ⟨pc', hpc, hret, hpop, hleft⟩ | ⟨-, ⟨x, q', hq, hret, hstored⟩ |
    ⟨hq, hret, hstored⟩⟩
  · simp only [popMessage, hret, hpc]
    refine Or.inl ⟨⟨harena, b, pc', rfl, hpop⟩, rfl, ?_⟩
    exact hgo.imp_left hleft
  · simp only [popMessage, hret]
    refine Or.inr ⟨rfl, _, rfl, ?_⟩
    simp only [Answers, messages, hq]
    exact ⟨rfl, harena, b + 1, hstored⟩
  · simp only [popMessage, hret]
    refine Or.inr ⟨rfl, _, rfl, ?_⟩
    simp only [Answers, messages, hq]
    exact ⟨rfl, harena, b, hstored⟩

/-- One step of a call. -/
theorem InCall.step {op : Op} {pc : PC} (h : InCall A Z s m op pc) {ch : Choice Op}
    (hch : ∀ op, ch ≠ .call op) : Goes A Z s op pc.left (ch ≠ .go) (prog A Z m pc ch) := by
  have hch := Choice.go_or_fault hch
  cases op with
  | prepareMessage size =>
      cases pc with
      | prepare apc =>
          obtain ⟨h, b, hstored⟩ := h
          have hgoes := Goes.prepare h hstored ch
          rcases hch with rfl | rfl <;> exact hgoes
      | _ => exact h.elim
  | pushMessage ptr size =>
      cases pc with
      | callPush ptr' size' =>
          obtain ⟨rfl, rfl, h⟩ := h
          have hgoes := Goes.callPush (A := A) h ptr' size' (ch ≠ .go)
          rcases hch with rfl | rfl <;> exact hgoes
      | push rpc =>
          obtain ⟨hptr, harena, b, pc, rfl, h⟩ := h
          have hgoes := Goes.push hptr harena h ch
          rcases hch with rfl | rfl <;> exact hgoes
      | _ => exact h.elim
  | popMessage =>
      cases pc with
      | pop rpc =>
          obtain ⟨harena, b, pc, rfl, h⟩ := h
          have hgoes := Goes.pop (A := A) harena h ch
          rcases hch with rfl | rfl <;> exact hgoes
      | _ => exact h.elim

/-- A call that has ended has done what it does to the messages. -/
theorem answers_of_ends {op : Op} {m' : Mem} {evs : List Result} (h : Represents Z m s)
    (hrun : Ends (prog A Z) .idle m (Api.start op) m' evs) :
    Represents Z m' (messages A Z.size s op).1 ∧ evs = [(messages A Z.size s op).2] := by
  have hidle : ∀ m, ¬ InCall A Z s m op .idle := by
    intro m hcall
    cases op <;> exact hcall
  obtain ⟨e, rfl, rfl, hrep⟩ := Ends.of_advances PC.left
    (fun m pc ch (hcall : InCall A Z s m op pc) hch => hcall.step hch) hidle hrun (.start h op)
  exact ⟨hrep, rfl⟩

theorem returns (h : Represents Z m s) (op : Op) :
    Returns (prog A Z) .idle m (Api.start op) := by
  refine Returns.of_advances PC.left
    (fun m pc ch (hcall : InCall A Z s m op pc) hch => hcall.step hch) (fun m ch hch => ?_)
    (.start h op)
  rcases Choice.go_or_fault hch with rfl | rfl <;> rfl

end Steps

theorem Represents.init (Z : PowSize) (buffer : ℕ → Handle) :
    Represents Z (initMem buffer) (0, []) :=
  ⟨rfl, 0, Ring.Stored.init Z buffer⟩

/-! ## Delivered handles -/

/-- The pointer and the size of a `push_message` that has returned true. -/
def Op.accepted : Op → List Result → Option (ℕ × ℕ)
  | .pushMessage ptr size, [.pushed true] => some (ptr, size)
  | _, _ => none

/-- The handle that a `pop_message` has delivered. -/
def handleOf : List Result → Option Handle
  | [.popped handle] => handle
  | _ => none

def accepted (L : List (Call Mem Op Result)) : List (ℕ × ℕ) :=
  L.filterMap fun k => k.op.accepted k.events

def delivered (L : List (Call Mem Op Result)) : List Handle :=
  L.filterMap fun k => handleOf k.events

theorem accepted_concat (L : List (Call Mem Op Result)) (k : Call Mem Op Result) :
    accepted (L ++ [k]) = accepted L ++ (k.op.accepted k.events).toList := by
  rw [accepted, List.filterMap_append, List.filterMap_cons, List.filterMap_nil]
  cases k.op.accepted k.events <;> rfl

theorem delivered_concat (L : List (Call Mem Op Result)) (k : Call Mem Op Result) :
    delivered (L ++ [k]) = delivered L ++ (handleOf k.events).toList := by
  rw [delivered, List.filterMap_append, List.filterMap_cons, List.filterMap_nil]
  cases handleOf k.events <;> rfl

theorem delivered_eq (L : List (Call Mem Op Result)) :
    delivered L = (L.map (·.events)).filterMap handleOf := by
  rw [List.filterMap_map]
  rfl

section Deliveries

variable {A : Arena.Buffer} {Z : PowSize}

theorem getOffset_of_ne {ptr : ℕ} (h : A.getOffset ptr ≠ Arena.Buffer.sizeMax) :
    A.data + A.getOffset ptr = ptr ∧ A.getOffset ptr < A.size := by
  unfold Arena.Buffer.getOffset at h ⊢
  split_ifs at h ⊢ with hptr
  · exact absurd rfl h
  · omega

/-- The handles delivered and those in the ring are the accepted ones, in order. -/
theorem accepted_eq {buffer : ℕ → Handle} {m : Mem} {L : List (Call Mem Op Result)}
    (hlog : CallLog (Ends (prog A Z) .idle) start (initMem buffer) m L) :
    ∃ s, Represents Z m s
      ∧ (accepted L).map (fun x => ⟨A.getOffset x.1, x.2⟩) = delivered L ++ s.2
      ∧ ∀ x ∈ accepted L, A.getOffset x.1 ≠ Arena.Buffer.sizeMax := by
  induction hlog with
  | init => exact ⟨(0, []), .init Z buffer, rfl, by simp [accepted]⟩
  | @call m L op m' evs _ hrun ih =>
      obtain ⟨⟨o, q⟩, hrep, heq, hptr⟩ := ih
      obtain ⟨hrep', rfl⟩ := answers_of_ends hrep hrun
      refine ⟨_, hrep', ?_⟩
      rw [accepted_concat, delivered_concat]
      cases op with
      | prepareMessage size =>
          simp only [messages]
          split_ifs <;> simp only [Op.accepted, handleOf, Option.toList_none, List.append_nil] <;>
            exact ⟨heq, hptr⟩
      | pushMessage ptr size =>
          simp only [messages]
          split_ifs with hroom
          · simp only [Op.accepted, handleOf, Option.toList_some, Option.toList_none,
              List.append_nil, List.map_append, heq, List.map_cons, List.map_nil,
              List.append_assoc, List.forall_mem_append, List.forall_mem_singleton]
            exact ⟨trivial, hptr, hroom.1⟩
          · simp only [Op.accepted, handleOf, Option.toList_none, List.append_nil]
            exact ⟨heq, hptr⟩
      | popMessage =>
          cases q with
          | nil =>
              simp only [messages, Op.accepted, handleOf, List.head?_nil, List.tail_nil,
                Option.toList_none, List.append_nil] at heq ⊢
              exact ⟨heq, hptr⟩
          | cons handle q =>
              simp only [messages, Op.accepted, handleOf, List.head?_cons, List.tail_cons,
                Option.toList_none, Option.toList_some, List.append_nil, List.append_assoc,
                List.singleton_append]
              exact ⟨heq, hptr⟩

/-- The push that a delivered handle comes from. -/
theorem exists_accepted {buffer : ℕ → Handle} {m : Mem} {L : List (Call Mem Op Result)}
    (hlog : CallLog (Ends (prog A Z) .idle) start (initMem buffer) m L) {i : ℕ}
    {handle : Handle} (hi : (delivered L)[i]? = some handle) :
    ∃ ptr size, (accepted L)[i]? = some (ptr, size)
      ∧ A.getOffset ptr ≠ Arena.Buffer.sizeMax ∧ handle = ⟨A.getOffset ptr, size⟩ := by
  obtain ⟨s, -, heq, hptr⟩ := accepted_eq hlog
  have hmap : ((accepted L).map fun x => (⟨A.getOffset x.1, x.2⟩ : Handle))[i]?
      = some handle := by
    rw [heq, List.getElem?_append_left (List.getElem?_eq_some_iff.mp hi).1]
    exact hi
  rw [List.getElem?_map, Option.map_eq_some_iff] at hmap
  obtain ⟨⟨ptr, size⟩, hacc, rfl⟩ := hmap
  exact ⟨ptr, size, hacc, hptr _ (List.mem_of_getElem? hacc), rfl⟩

variable (A Z) in
/-- There is a log of any calls, with the results they have. -/
theorem exists_log (buffer : ℕ → Handle) (ops : List Op) :
    ∃ m L, CallLog (Ends (prog A Z) .idle) start (initMem buffer) m L ∧ L.map (·.op) = ops
      ∧ L.map (·.events) = (answers (messages A Z.size) (0, []) ops).map (fun r => [r]) := by
  have hrefines := fun m L h => CallLog.refines (m := m) (L := L) (messages A Z.size)
    (Represents Z) id (fun r => [r]) (answers_of_ends (A := A)) (.init Z buffer) h
  obtain ⟨m, L, hlog, rfl⟩ := exists_callLog
    (fun m L h op => (returns (hrefines m L h).1 op).ends) ops
  exact ⟨m, L, hlog, rfl, (hrefines m L hlog).2⟩

end Deliveries

/-! ## Refused handles -/

/-- The ring has as many items as slots: its counters are one lap apart. -/
def Full (Z : AdmittedSize) (queue : Ring.Mem Handle) : Prop :=
  queue.head = wrap 64 (queue.tail + Z.size)

section Refusals

variable {A : Arena.Buffer} {Z : PowSize}

theorem Represents.full_iff {m : Mem} {s : ℕ × List Handle} (h : Represents Z m s) :
    Full Z m.queue ↔ s.2.length = Z.size := by
  obtain ⟨b, hstored⟩ := h.queue
  have hlen := hstored.length_le
  have hsize := Z.size_le
  rw [Full, hstored.head_eq, hstored.tail_eq, wrap_wrap_add]
  constructor
  · intro heq
    have := wrap_inj heq (by omega) (by omega)
    omega
  · intro heq
    rw [heq]

/-- A pointer into the arena is refused only by a full ring. -/
theorem Represents.full_of_refused {m m' : Mem} {s : ℕ × List Handle} (h : Represents Z m s)
    {ptr size : ℕ} (hptr : A.getOffset ptr ≠ Arena.Buffer.sizeMax)
    (hrun : Ends (prog A Z) .idle m (start (.pushMessage ptr size)) m' [.pushed false]) :
    Full Z m.queue := by
  obtain ⟨-, hevs⟩ := answers_of_ends h hrun
  refine h.full_iff.mpr ?_
  have hle : s.2.length ≤ Z.size := h.queue.elim fun b hstored => hstored.length_le
  by_contra hne
  have hspec : messages A Z.size s (.pushMessage ptr size)
      = ((s.1, s.2 ++ [⟨A.getOffset ptr, size⟩]), .pushed true) :=
    if_pos ⟨hptr, by omega⟩
  rw [hspec] at hevs
  cases hevs

end Refusals

end Api

end MessageQueue

end Lockless
