import Lockless.MessageCalls

/-!
# The message queue with any number of slots

`QueueSize` may be 1, and a ring with a single slot is no queue: a handle is written over by
the next one that is pushed, and what has been written over can make `pop_message` run
forever. Still, no push is refused for want of room, and a handle that is delivered has been
accepted. And `prepare_message` has nothing to do with the ring. So of handles and pointers
the same can be said as with more slots, but that it is the order of the pushes in which
handles are delivered.

`push_message` asks whether the pointer is into the arena, and not whether the block
is. So a handle is delivered with the pointer it was pushed with, but its block ends
in the arena only if that of the caller did.

`allocate` returns a pointer for a request of no bytes when the arena is exactly
full. It is one past the end, which `get_offset` takes for a pointer from elsewhere.
For all other pointers it gives back the offset.
-/

namespace Lockless

namespace MessageQueue

namespace Api

/-! ## What a call does, whatever the size -/

/-- A queue between calls, and all handles it may deliver satisfy `P`. -/
def Keeps (Z : AdmittedSize) (P : Handle → Prop) (m : Mem) : Prop :=
  (∃ Y : PowSize, Z = Y ∧ ∃ s, Represents Y m s ∧ ∀ handle ∈ s.2, P handle)
    ∨ Z.size = 1 ∧ Ring.Alone P m.queue

/-- The calls that have ended, one constructor per result. -/
inductive Does (A : Arena.Buffer) (Z : AdmittedSize) (P : Handle → Prop) (m m' : Mem) :
    Op → List Result → Prop
  | prepared (size) (hle : m'.arena.writeOffset ≤ A.size) (hkeeps : Keeps Z P m') :
      Does A Z P m m' (.prepareMessage size) [.prepared (A.data + m.arena.writeOffset)]
  | threw (size) (harena : m'.arena = m.arena) (hkeeps : Keeps Z P m') :
      Does A Z P m m' (.prepareMessage size) [.threw]
  | accepted (ptr size) (hptr : A.getOffset ptr ≠ Arena.Buffer.sizeMax)
      (harena : m'.arena = m.arena)
      (hkeeps : Keeps Z (fun handle => P handle ∨ handle = ⟨A.getOffset ptr, size⟩) m') :
      Does A Z P m m' (.pushMessage ptr size) [.pushed true]
  | refused (ptr size) (hfull : A.getOffset ptr ≠ Arena.Buffer.sizeMax → Full Z m.queue)
      (harena : m'.arena = m.arena) (hkeeps : Keeps Z P m') :
      Does A Z P m m' (.pushMessage ptr size) [.pushed false]
  | popped (handle : Option Handle) (hP : ∀ h ∈ handle, P h) (harena : m'.arena = m.arena)
      (hkeeps : Keeps Z P m') : Does A Z P m m' .popMessage [.popped handle]

section Calls

variable {A : Arena.Buffer} {Z : AdmittedSize} {P : Handle → Prop} {m m' : Mem} {op : Op}
  {evs : List Result}

theorem Keeps.mono {P' : Handle → Prop} (h : Keeps Z P m) (hP : ∀ x, P x → P' x) :
    Keeps Z P' m := by
  rcases h with ⟨Y, rfl, s, hrep, hs⟩ | ⟨hZ, halone⟩
  · exact Or.inl ⟨Y, rfl, s, hrep, fun handle hmem => hP _ (hs handle hmem)⟩
  · exact Or.inr ⟨hZ, halone.mono hP⟩

theorem Keeps.init (Z : AdmittedSize) (P : Handle → Prop) (buffer : ℕ → Handle) :
    Keeps Z P (initMem buffer) := by
  rcases Z.one_or_pow with hZ | ⟨Y, rfl⟩
  · exact Or.inr ⟨hZ, .init P buffer⟩
  · exact Or.inl ⟨Y, rfl, _, .init Y buffer, nofun⟩

theorem Represents.does {Y : PowSize} {s : ℕ × List Handle} (h : Represents Y m s)
    (hP : ∀ handle ∈ s.2, P handle) (hrun : Ends (prog A Y) .idle m (start op) m' evs) :
    Does A Y P m m' op evs := by
  obtain ⟨hrep, hevs⟩ := answers_of_ends h hrun
  have hoffset : m.arena.writeOffset = s.1 := by rw [h.arena]
  cases op with
  | prepareMessage size =>
      simp only [messages] at hrep hevs
      split_ifs at hrep hevs with hfits
      · rw [hevs, ← hoffset]
        refine .prepared size ?_ (Or.inl ⟨Y, rfl, _, hrep, hP⟩)
        rw [hrep.arena]
        exact hfits
      · rw [hevs]
        exact .threw size (hrep.arena.trans h.arena.symm) (Or.inl ⟨Y, rfl, _, hrep, hP⟩)
  | pushMessage ptr size =>
      have hfull : evs = [.pushed false] → A.getOffset ptr ≠ Arena.Buffer.sizeMax →
          Full Y m.queue := by
        rintro rfl hptr
        exact h.full_of_refused hptr hrun
      simp only [messages] at hrep hevs
      split_ifs at hrep hevs with hroom
      · rw [hevs]
        refine .accepted ptr size hroom.1 (hrep.arena.trans h.arena.symm)
          (Or.inl ⟨Y, rfl, _, hrep, fun handle hmem => ?_⟩)
        rcases List.mem_append.mp hmem with hmem | hmem
        · exact Or.inl (hP handle hmem)
        · exact Or.inr (List.mem_singleton.mp hmem)
      · rw [hevs]
        exact .refused ptr size (hfull hevs) (hrep.arena.trans h.arena.symm)
          (Or.inl ⟨Y, rfl, _, hrep, hP⟩)
  | popMessage =>
      rw [hevs]
      refine .popped _ (fun handle hmem => hP handle (List.mem_of_mem_head? hmem))
        (hrep.arena.trans h.arena.symm) (Or.inl ⟨Y, rfl, _, hrep, ?_⟩)
      exact fun handle hmem => hP handle (List.mem_of_mem_tail hmem)

/-- What holds during a call that started with the memory `m₀`, if there is a single
slot. -/
def InCallAlone (A : Arena.Buffer) (P : Handle → Prop) (m₀ : Mem) : Op → Mem → PC → Prop
  | .prepareMessage size, m, .prepare apc =>
      Arena.Allocating A.size m₀.arena.writeOffset size m.arena apc ∧ m.queue = m₀.queue
  | .pushMessage ptr size, m, .callPush ptr' size' => ptr' = ptr ∧ size' = size ∧ m = m₀
  | .pushMessage ptr size, m, .push rpc =>
      A.getOffset ptr ≠ Arena.Buffer.sizeMax ∧ m.arena = m₀.arena
        ∧ ∃ pc, rpc = .push ⟨A.getOffset ptr, size⟩ pc
          ∧ Ring.PushingAlone P ⟨A.getOffset ptr, size⟩ m.queue pc
  | .popMessage, m, .pop rpc =>
      m.arena = m₀.arena ∧ ∃ pc, rpc = .pop pc ∧ Ring.PoppingAlone P m.queue pc
  | _, _, _ => False

/-- A step after which the call goes on, or has ended. -/
def StepsAlone (A : Arena.Buffer) (Z : AdmittedSize) (P : Handle → Prop) (m₀ : Mem) (op : Op)
    (o : Outcome Mem PC Result) : Prop :=
  (InCallAlone A P m₀ op o.mem o.pc ∧ o.event = none)
    ∨ (o.pc = .idle ∧ ∃ e, o.event = some e ∧ Does A Z P m₀ o.mem op [e])

theorem prepareMessage_alone {m₀ : Mem} (hZ : Z.size = 1) (h₀ : Ring.Alone P m₀.queue)
    {size : ℕ} {apc : Arena.PC}
    (h : InCallAlone A P m₀ (.prepareMessage size) m (.prepare apc)) (ch : Choice Op) :
    StepsAlone A Z P m₀ (.prepareMessage size)
      (prepareMessage A m (Arena.prog A.size m.arena apc ch.access)) := by
  obtain ⟨hall, hqueue⟩ := h
  rcases hall.access ch with ⟨hall, hev, -⟩ | ⟨-, e, hev, hdec⟩
  · simp only [prepareMessage, hev]
    exact Or.inl ⟨⟨hall, hqueue⟩, rfl⟩
  · rcases hdec with ⟨hfits, hmem, rfl⟩ | ⟨-, hmem, rfl⟩
    · simp only [prepareMessage, hev]
      refine Or.inr ⟨rfl, _, rfl, .prepared size ?_ (Or.inr ⟨hZ, hqueue ▸ h₀⟩)⟩
      rw [hmem]
      exact hfits
    · simp only [prepareMessage, hev]
      exact Or.inr ⟨rfl, _, rfl, .threw size hmem (Or.inr ⟨hZ, hqueue ▸ h₀⟩)⟩

theorem pushMessage_alone {m₀ : Mem} (hZ : Z.size = 1) {ptr size : ℕ} {rpc : Ring.PC Handle}
    (h : InCallAlone A P m₀ (.pushMessage ptr size) m (.push rpc)) (ch : Choice Op) :
    StepsAlone A Z P m₀ (.pushMessage ptr size)
      (pushMessage m (Ring.prog Z id m.queue rpc ch.access)) := by
  obtain ⟨hptr, harena, pc, rfl, hpush⟩ := h
  obtain ⟨spurious, ho, -⟩ := Ring.prog_push_access Z id m.queue ⟨A.getOffset ptr, size⟩ pc ch
  rw [ho]
  rcases hpush.step hZ spurious with ⟨pc', hpc, hret, hpush⟩ | ⟨-, hret, halone⟩
  · simp only [pushMessage, hret, hpc]
    exact Or.inl ⟨⟨hptr, harena, pc', rfl, hpush⟩, rfl⟩
  · simp only [pushMessage, hret]
    refine Or.inr ⟨rfl, _, rfl, .accepted ptr size hptr harena (Or.inr ⟨hZ, ?_⟩)⟩
    exact halone.mono fun _ => Or.inr

theorem popMessage_alone {m₀ : Mem} (hZ : Z.size = 1) {rpc : Ring.PC Handle}
    (h : InCallAlone A P m₀ .popMessage m (.pop rpc)) (ch : Choice Op) :
    StepsAlone A Z P m₀ .popMessage
      (popMessage m (Ring.prog Z id m.queue rpc ch.access)) := by
  obtain ⟨harena, pc, rfl, hpop⟩ := h
  obtain ⟨spurious, ho, -⟩ := Ring.prog_pop_access Z id m.queue pc ch
  rw [ho]
  rcases hpop.step hZ spurious with ⟨pc', hpc, hret, hpop⟩ | ⟨-, handle, hret, halone, hP⟩
  · simp only [popMessage, hret, hpc]
    exact Or.inl ⟨⟨harena, pc', rfl, hpop⟩, rfl⟩
  · simp only [popMessage, hret]
    exact Or.inr ⟨rfl, _, rfl, .popped handle hP harena (Or.inr ⟨hZ, halone⟩)⟩

theorem callPush_alone {m₀ : Mem} (hZ : Z.size = 1) (h₀ : Ring.Alone P m₀.queue) (ptr size : ℕ) :
    StepsAlone A Z P m₀ (.pushMessage ptr size) (callPush A m₀ ptr size) := by
  unfold callPush
  split_ifs with hptr
  · exact Or.inr ⟨rfl, _, rfl, .refused ptr size (absurd hptr) rfl (Or.inr ⟨hZ, h₀⟩)⟩
  · exact Or.inl ⟨⟨hptr, rfl, _, rfl, h₀⟩, rfl⟩

/-- One step of a call. -/
theorem InCallAlone.step {m₀ : Mem} (hZ : Z.size = 1) (h₀ : Ring.Alone P m₀.queue) {pc : PC}
    (h : InCallAlone A P m₀ op m pc) {ch : Choice Op} (hch : ∀ op, ch ≠ .call op) :
    StepsAlone A Z P m₀ op (prog A Z m pc ch) := by
  have hch := Choice.go_or_fault hch
  cases op with
  | prepareMessage size =>
      cases pc with
      | prepare apc =>
          have hstep := prepareMessage_alone hZ h₀ h ch
          rcases hch with rfl | rfl <;> exact hstep
      | _ => exact h.elim
  | pushMessage ptr size =>
      cases pc with
      | callPush ptr' size' =>
          obtain ⟨rfl, rfl, rfl⟩ := h
          have hstep := callPush_alone (A := A) hZ h₀ ptr' size'
          rcases hch with rfl | rfl <;> exact hstep
      | push rpc =>
          have hstep := pushMessage_alone hZ h ch
          rcases hch with rfl | rfl <;> exact hstep
      | _ => exact h.elim
  | popMessage =>
      cases pc with
      | pop rpc =>
          have hstep := popMessage_alone hZ h ch
          rcases hch with rfl | rfl <;> exact hstep
      | _ => exact h.elim

theorem Alone.does (hZ : Z.size = 1) (h : Ring.Alone P m.queue)
    (hrun : Ends (prog A Z) .idle m (start op) m' evs) : Does A Z P m m' op evs := by
  have hidle : ∀ m₁, ¬ InCallAlone A P m op m₁ .idle := by
    intro m₁ hcall
    cases op <;> exact hcall
  have hstart : InCallAlone A P m op m (start op) := by
    cases op with
    | prepareMessage size => exact ⟨⟨rfl, rfl⟩, rfl⟩
    | pushMessage ptr size => exact ⟨rfl, rfl, rfl⟩
    | popMessage => exact ⟨rfl, _, rfl, h⟩
  obtain ⟨e, rfl, he⟩ := Ends.rule (J := InCallAlone A P m op)
    (Q := fun m' e => Does A Z P m m' op [e]) (fun m₁ pc ch hcall hch => hcall.step hZ h hch)
    hidle hrun hstart
  exact he

/-- What a call does to a queue of any size. -/
theorem Keeps.does (h : Keeps Z P m) (hrun : Ends (prog A Z) .idle m (start op) m' evs) :
    Does A Z P m m' op evs := by
  rcases h with ⟨Y, rfl, s, hrep, hP⟩ | ⟨hZ, halone⟩
  · exact hrep.does hP hrun
  · exact Alone.does hZ halone hrun

end Calls

/-! ## Logs -/

section Logs

variable {A : Arena.Buffer} {Z : AdmittedSize} {buffer : ℕ → Handle} {m : Mem}
  {L : List (Call Mem Op Result)}

/-- The handle of a `push_message` that has returned true. -/
def AcceptedHandle (A : Arena.Buffer) (L : List (Call Mem Op Result)) (handle : Handle) : Prop :=
  ∃ x ∈ accepted L, A.getOffset x.1 ≠ Arena.Buffer.sizeMax ∧ handle = ⟨A.getOffset x.1, x.2⟩

theorem AcceptedHandle.concat {handle : Handle} (h : AcceptedHandle A L handle)
    (k : Call Mem Op Result) : AcceptedHandle A (L ++ [k]) handle := by
  obtain ⟨x, hx, hhandle⟩ := h
  refine ⟨x, ?_, hhandle⟩
  rw [accepted_concat]
  exact List.mem_append_left _ hx

/-- Between the calls of a log the handles are accepted ones, and the offset has not passed
the end of the arena. -/
structure Logged (A : Arena.Buffer) (Z : AdmittedSize) (L : List (Call Mem Op Result)) (m : Mem) :
    Prop where
  keeps : Keeps Z (AcceptedHandle A L) m
  offset_le : m.arena.writeOffset ≤ A.size
  delivered : ∀ handle ∈ delivered L, AcceptedHandle A L handle

theorem Logged.call {op : Op} {m' : Mem} {evs : List Result} (h : Logged A Z L m)
    (hdoes : Does A Z (AcceptedHandle A L) m m' op evs) :
    Logged A Z (L ++ [⟨op, m, m', evs⟩]) m' := by
  have hold : ∀ handle ∈ Api.delivered L, AcceptedHandle A (L ++ [⟨op, m, m', evs⟩]) handle :=
    fun handle hmem => (h.delivered handle hmem).concat _
  have hkeep : Keeps Z (AcceptedHandle A L) m' →
      Keeps Z (AcceptedHandle A (L ++ [⟨op, m, m', evs⟩])) m' :=
    fun hkeeps => hkeeps.mono fun _ hhandle => hhandle.concat _
  cases hdoes with
  | prepared size hle hkeeps =>
      refine ⟨hkeep hkeeps, hle, ?_⟩
      simpa only [delivered_concat, handleOf, Option.toList_none, List.append_nil] using hold
  | threw size harena hkeeps =>
      refine ⟨hkeep hkeeps, harena ▸ h.offset_le, ?_⟩
      simpa only [delivered_concat, handleOf, Option.toList_none, List.append_nil] using hold
  | refused ptr size hfull harena hkeeps =>
      refine ⟨hkeep hkeeps, harena ▸ h.offset_le, ?_⟩
      simpa only [delivered_concat, handleOf, Option.toList_none, List.append_nil] using hold
  | accepted ptr size hptr harena hkeeps =>
      refine ⟨hkeeps.mono fun handle hhandle => ?_, harena ▸ h.offset_le, ?_⟩
      · rcases hhandle with hhandle | rfl
        · exact hhandle.concat _
        · refine ⟨(ptr, size), ?_, hptr, rfl⟩
          rw [accepted_concat]
          exact List.mem_append_right _ (List.mem_singleton_self _)
      · simpa only [delivered_concat, handleOf, Option.toList_none, List.append_nil] using hold
  | popped handle hP harena hkeeps =>
      refine ⟨hkeep hkeeps, harena ▸ h.offset_le, fun x hx => ?_⟩
      rw [delivered_concat] at hx
      rcases List.mem_append.mp hx with hx | hx
      · exact hold x hx
      · exact (hP x (Option.mem_toList.mp hx)).concat _

theorem logged (hlog : CallLog (Ends (prog A Z) .idle) start (initMem buffer) m L) :
    Logged A Z L m
      ∧ ∀ k ∈ L, ∃ L', Logged A Z L' k.before
        ∧ Ends (prog A Z) .idle k.before (start k.op) k.after k.events := by
  induction hlog with
  | init => exact ⟨⟨.init Z _ buffer, Nat.zero_le _, nofun⟩, nofun⟩
  | @call m L op m' evs _ hrun ih =>
      obtain ⟨h, hcalls⟩ := ih
      refine ⟨h.call (h.keeps.does hrun), ?_⟩
      rw [List.forall_mem_append, List.forall_mem_singleton]
      exact ⟨hcalls, L, h, hrun⟩

/-- The push that a delivered handle comes from, which with two or more slots is the push in
its place. -/
theorem exists_push (hlog : CallLog (Ends (prog A Z) .idle) start (initMem buffer) m L) {i : ℕ}
    {handle : Handle} (hi : (delivered L)[i]? = some handle) :
    ∃ j ptr size, (accepted L)[j]? = some (ptr, size) ∧ (2 ≤ Z.size → j = i)
      ∧ A.getOffset ptr ≠ Arena.Buffer.sizeMax ∧ handle = ⟨A.getOffset ptr, size⟩ := by
  rcases Z.one_or_pow with hZ | ⟨Y, rfl⟩
  · obtain ⟨x, hx, hptr, rfl⟩ := (logged hlog).1.delivered handle (List.mem_of_getElem? hi)
    obtain ⟨j, hj⟩ := List.mem_iff_getElem?.mp hx
    exact ⟨j, x.1, x.2, hj, fun htwo => by omega, hptr, rfl⟩
  · obtain ⟨ptr, size, hacc, hptr, hhandle⟩ := exists_accepted hlog hi
    exact ⟨i, ptr, size, hacc, fun _ => rfl, hptr, hhandle⟩

theorem exists_call_of_accepted {L : List (Call Mem Op Result)} {i ptr size : ℕ}
    (h : (accepted L)[i]? = some (ptr, size)) : ∃ k ∈ L, k.op = .pushMessage ptr size := by
  obtain ⟨k, hk, hop⟩ := List.mem_filterMap.mp (List.mem_of_getElem? h)
  refine ⟨k, hk, ?_⟩
  unfold Op.accepted at hop
  split at hop
  · next hpush _ =>
      cases hop
      exact hpush
  · cases hop

end Logs

/-- Each handle is delivered with the pointer it was pushed with, and its block ends in
the arena if and only if that of the caller did. So they all do if the callers push
blocks of the arena only. With two or more slots the handles are delivered in the order of
the pushes. -/
theorem delivered_with_pointer (A : Arena.Buffer) (Z : AdmittedSize) (buffer : ℕ → Handle)
    {m : Mem} {L : List (Call Mem Op Result)}
    (hlog : CallLog (Ends (prog A Z) .idle) start (initMem buffer) m L) :
    (∀ (i : ℕ) (handle : Handle), (delivered L)[i]? = some handle →
      ∃ j ptr size, (accepted L)[j]? = some (ptr, size) ∧ (2 ≤ Z.size → j = i)
        ∧ getMessageData A handle = some ptr ∧ handle.size = size
        ∧ (handle.offset + handle.size ≤ A.size ↔ ptr + size ≤ A.data + A.size))
      ∧ ((∀ k ∈ L, ∀ ptr size, k.op = .pushMessage ptr size →
          A.getOffset ptr ≠ Arena.Buffer.sizeMax → ptr + size ≤ A.data + A.size) →
        ∀ handle ∈ delivered L, handle.offset + handle.size ≤ A.size) := by
  refine ⟨fun i handle hi => ?_, fun hblocks handle hmem => ?_⟩
  · obtain ⟨j, ptr, size, hacc, hj, hptr, rfl⟩ := exists_push hlog hi
    obtain ⟨hdata, hoff⟩ := getOffset_of_ne hptr
    refine ⟨j, ptr, size, hacc, hj, ?_, rfl, ?_⟩
    · rw [getMessageData, A.get_of_lt hoff, hdata]
    · dsimp only
      omega
  · obtain ⟨i, hi⟩ := List.mem_iff_getElem?.mp hmem
    obtain ⟨j, ptr, size, hacc, -, hptr, rfl⟩ := exists_push hlog hi
    obtain ⟨hdata, hoff⟩ := getOffset_of_ne hptr
    obtain ⟨k, hk, hop⟩ := exists_call_of_accepted hacc
    have hblock := hblocks k hk ptr size hop hptr
    dsimp only
    omega

/-- A block of 3 bytes in an arena of 8 at address 100 is pushed and delivered. -/
theorem delivered_with_pointer_block :
    ∃ m L, CallLog (Ends (prog eightBytes Ring.twoCells) .idle) start (initMem fun _ => ⟨0, 0⟩) m L
      ∧ L.map (·.op) = [.prepareMessage 3, .pushMessage 100 3, .popMessage]
      ∧ delivered L = [⟨0, 3⟩] ∧ ∀ handle ∈ delivered L, handle.offset + handle.size ≤ 8 := by
  obtain ⟨m, L, hlog, hops, hevents⟩ := exists_log eightBytes Ring.twoCells (fun _ => ⟨0, 0⟩)
    [.prepareMessage 3, .pushMessage 100 3, .popMessage]
  have hdelivered : delivered L = [⟨0, 3⟩] := by
    rw [delivered_eq, hevents]
    decide
  refine ⟨m, L, hlog, hops, hdelivered, ?_⟩
  refine (delivered_with_pointer eightBytes Ring.twoCells _ hlog).2 fun k hk ptr size hop _ => ?_
  have hmem : k.op ∈ L.map (·.op) := List.mem_map_of_mem hk
  rw [hops, hop] at hmem
  obtain ⟨rfl, rfl⟩ : ptr = 100 ∧ size = 3 := by simpa using hmem
  decide

/-- In an arena of 8 bytes at address 100 a block of 9 bytes is pushed, and delivered. -/
theorem oversized_block_delivered :
    ∃ m L, CallLog (Ends (prog eightBytes Ring.twoCells) .idle) start (initMem fun _ => ⟨0, 0⟩) m L
      ∧ L.map (·.op) = [.pushMessage 100 9, .popMessage]
      ∧ ∃ handle ∈ delivered L, ¬ handle.offset + handle.size ≤ eightBytes.size := by
  obtain ⟨m, L, hlog, hops, hevents⟩ := exists_log eightBytes Ring.twoCells (fun _ => ⟨0, 0⟩)
    [.pushMessage 100 9, .popMessage]
  refine ⟨m, L, hlog, hops, ⟨0, 9⟩, ?_, by decide⟩
  rw [delivered_eq, hevents]
  decide

/-! ## Pointers and offsets -/

/-- The pointer that a `prepare_message` has returned goes to the offset before it and
back, and from the state `m` on `push_message` takes it unless the ring is full. -/
structure RoundTrip (A : Arena.Buffer) (Z : AdmittedSize) (before : ℕ) (ptr size : ℕ) (m : Mem) :
    Prop where
  getOffset_eq : A.getOffset ptr = before
  get_eq : A.get (A.getOffset ptr) = some ptr
  full : ∀ m', Ends (prog A Z) .idle m (start (.pushMessage ptr size)) m' [.pushed false] →
    Full Z m.queue

/-- The pointer of a `prepare_message` makes the round trip if and only if the arena was
not exactly full before the call. -/
theorem roundTrip_iff (A : Arena.Buffer) (Z : AdmittedSize) (buffer : ℕ → Handle) {m : Mem}
    {L : List (Call Mem Op Result)}
    (hlog : CallLog (Ends (prog A Z) .idle) start (initMem buffer) m L)
    {k : Call Mem Op Result} (hk : k ∈ L) {size ptr : ℕ} (hop : k.op = .prepareMessage size)
    (hret : k.events = [.prepared ptr]) :
    RoundTrip A Z k.before.arena.writeOffset ptr size m
      ↔ k.before.arena.writeOffset < A.size := by
  obtain ⟨hafter, hcalls⟩ := logged hlog
  obtain ⟨L', hbefore, hrun⟩ := hcalls k hk
  have hptr : ptr = A.data + k.before.arena.writeOffset := by
    have hdoes := hbefore.keeps.does hrun
    rw [hop, hret] at hdoes
    cases hdoes
    rfl
  have hsize := A.lt_63
  have hle := hbefore.offset_le
  constructor
  · intro htrip
    by_contra hnot
    have hpast : A.getOffset ptr = Arena.Buffer.sizeMax := if_pos (by omega)
    have hoffset := htrip.getOffset_eq
    rw [hpast, Arena.Buffer.sizeMax] at hoffset
    omega
  · intro hlt
    have hoffset : A.getOffset ptr = k.before.arena.writeOffset := hptr ▸ A.getOffset_of_lt hlt
    refine ⟨hoffset, ?_, fun m' hrefused => ?_⟩
    · rw [hoffset, A.get_of_lt hlt, hptr]
    · cases hafter.keeps.does hrefused with
      | refused _ _ hfull =>
          refine hfull ?_
          rw [hoffset, Arena.Buffer.sizeMax]
          omega

/-- Of an arena of 8 bytes at address 100 the first block of 3 is at 100. -/
theorem roundTrip_iff_firstBlock :
    ∃ m L k, CallLog (Ends (prog eightBytes Ring.twoCells) .idle) start
        (initMem fun _ => ⟨0, 0⟩) m L
      ∧ k ∈ L ∧ k.op = .prepareMessage 3 ∧ k.events = [.prepared 100]
      ∧ RoundTrip eightBytes Ring.twoCells k.before.arena.writeOffset 100 3 m := by
  have hrep := Represents.init Ring.twoCells fun _ => ⟨0, 0⟩
  obtain ⟨m, evs, hrun⟩ := (returns (A := eightBytes) hrep (.prepareMessage 3)).ends
  obtain ⟨-, rfl⟩ := answers_of_ends hrep hrun
  have hlog : CallLog (Ends (prog eightBytes Ring.twoCells) .idle) start
      (initMem fun _ => ⟨0, 0⟩) m ([] ++ [_]) := .call .init hrun
  exact ⟨m, _, _, hlog, List.mem_singleton_self _, rfl, rfl,
    (roundTrip_iff eightBytes Ring.twoCells _ hlog (List.mem_singleton_self _) rfl rfl).mpr
      (show 0 < 8 by decide)⟩

/-- When all 8 bytes are taken a request for none returns the address past the end, which
`push_message` does not take although the ring is empty. -/
theorem past_end_refused :
    ∃ m L k, CallLog (Ends (prog eightBytes Ring.twoCells) .idle) start
        (initMem fun _ => ⟨0, 0⟩) m L
      ∧ L.map (·.op) = [.prepareMessage 8, .prepareMessage 0]
      ∧ k ∈ L ∧ k.op = .prepareMessage 0 ∧ k.events = [.prepared 108]
      ∧ ¬ RoundTrip eightBytes Ring.twoCells k.before.arena.writeOffset 108 0 m
      ∧ ¬ Full Ring.twoCells m.queue
      ∧ ∃ m', Ends (prog eightBytes Ring.twoCells) .idle m (start (.pushMessage 108 0)) m'
        [.pushed false] := by
  have hrep := Represents.init Ring.twoCells fun _ => ⟨0, 0⟩
  obtain ⟨m₁, evs₁, hrun₁⟩ := (returns (A := eightBytes) hrep (.prepareMessage 8)).ends
  obtain ⟨hrep₁, rfl⟩ := answers_of_ends hrep hrun₁
  obtain ⟨m₂, evs₂, hrun₂⟩ := (returns (A := eightBytes) hrep₁ (.prepareMessage 0)).ends
  obtain ⟨hrep₂, rfl⟩ := answers_of_ends hrep₁ hrun₂
  obtain ⟨m₃, evs₃, hrun₃⟩ := (returns (A := eightBytes) hrep₂ (.pushMessage 108 0)).ends
  obtain ⟨-, rfl⟩ := answers_of_ends hrep₂ hrun₃
  have hfull : ¬ Full Ring.twoCells m₂.queue := by
    rw [hrep₂.full_iff]
    decide
  refine ⟨m₂, _, _, .call (.call .init hrun₁) hrun₂, rfl,
    List.mem_append_right _ (List.mem_singleton_self _), rfl, rfl, fun htrip => ?_, hfull,
    m₃, hrun₃⟩
  exact hfull (htrip.full m₃ hrun₃)

end Api

end MessageQueue

end Lockless
