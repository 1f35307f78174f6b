import Lockless.MessageQuiet

/-!
# Producers and consumers as clients of the message queue

The producers and consumers of `MessageQueue` and the public functions of `ZeroCopyQueue`
are two programs, and both embed these functions. They agree: a producer calls
`prepare_message` and then `push_message` until it returns true, a consumer calls
`pop_message`, and a run of them is, but for the bytes written between the calls, a run of
threads that call the public functions.

The head of a producer's loop is one step of the producer. There the thread is between two
calls, and the step makes the next one and is its first step.
-/

namespace Lockless

namespace MessageQueue

variable {ι : Type*}

/-- The fields of the class. -/
def Mem.queues (m : Mem) : Api.Mem := ⟨m.arena, m.queue⟩

/-- The call of the queue a thread is in. -/
def PC.call : PC → Api.PC
  | .idle => .idle
  | .prepare _ apc => .prepare apc
  | .write _ _ _ => .idle
  | .push _ _ rpc => if rpc = .idle then .idle else .push rpc
  | .pop rpc => .pop rpc

/-- The steps of the queue a step of its client is made of. -/
def clientChoices : PC → Choice Op → List (Choice Api.Op)
  | .idle, .call (.send payload) => [.call (.prepareMessage payload.length)]
  | .idle, .call .receive => [.call .popMessage]
  | .idle, _ => []
  | .write _ _ _, _ => []
  | _, .call _ => []
  | .push payload ptr rpc, ch =>
      if rpc = .idle then [.call (.pushMessage ptr payload.length), .go] else [ch.access]
  | _, ch => [ch.access]

/-- What a client gets from `prepare_message` and `pop_message`. -/
def Event.result (A : Arena.Buffer) : Event → Option Api.Result
  | .prepared offset _ => some (.prepared (A.data + offset))
  | .arenaFull _ => some .threw
  | .pushed _ _ => none
  | .received handle => some (.popped (some handle))
  | .empty => some (.popped none)

/-- The same, of a call of the queue. -/
def Api.Result.unlessPushed : Api.Result → Option Api.Result
  | .pushed _ => none
  | r => some r

/-- In its loop around `push_message` a thread is in `try_push`, and in `pop_message` in
`try_pop`. -/
def PC.Shaped : PC → Prop
  | .push _ _ rpc => rpc = .idle ∨ ∃ handle ppc, rpc = .push handle ppc
  | .pop rpc => ∃ ppc, rpc = .pop ppc
  | _ => True

section Step

variable {A : Arena.Buffer} {Z : AdmittedSize} {m : Mem}

/-- What the steps of the queue leave is what the step of the client leaves. -/
structure Follows (A : Arena.Buffer) (r : Api.Mem × Api.PC × List Api.Result)
    (o : Outcome Mem PC Event) : Prop where
  mem : r.1 = o.mem.queues
  pc : r.2.1 = o.pc.call
  events : r.2.2.filterMap Api.Result.unlessPushed = (o.event.bind (Event.result A)).toList
  shaped : o.pc.Shaped

/-- A single step of the queue. -/
theorem Follows.of_step {apc : Api.PC} {ch : Choice Api.Op} {o' : Outcome Api.Mem Api.PC Api.Result}
    {o : Outcome Mem PC Event} (hstep : Api.prog A Z m.queues apc ch = o')
    (h : Follows A (o'.mem, o'.pc, o'.event.toList) o) :
    Follows A (solo (Api.prog A Z) [ch] m.queues apc) o := by
  obtain ⟨hmem, hpc, hevents, hshaped⟩ := h
  subst hstep
  refine ⟨hmem, hpc, ?_, hshaped⟩
  simpa only [solo, List.append_nil] using hevents

theorem prepareMessage_follows (payload : List UInt8) (apc : Arena.PC) (ch : Choice Op)
    (hch : ∀ op, ch ≠ .call op) :
    Follows A (solo (Api.prog A Z) [ch.access] m.queues (.prepare apc))
      (prepareMessage A m payload (Arena.prog A.size m.arena apc ch.access)) := by
  have hstep : Api.prog A Z m.queues (.prepare apc) ch.access
      = Api.prepareMessage A m.queues (Arena.prog A.size m.arena apc ch.access) := by
    rcases Choice.go_or_fault hch with rfl | rfl <;> rfl
  generalize Arena.prog A.size m.arena apc ch.access = o at hstep ⊢
  obtain ⟨m', apc', ev⟩ := o
  refine .of_step hstep ?_
  rcases ev with _ | (_ | _) <;> exact ⟨rfl, rfl, rfl, trivial⟩

theorem callPush_follows (payload : List UInt8) (ptr : ℕ) :
    Follows A (solo (Api.prog A Z) [.call (.pushMessage ptr payload.length), .go] m.queues .idle)
      (callPush A m payload ptr) := by
  have hsolo : solo (Api.prog A Z) [.call (.pushMessage ptr payload.length), .go] m.queues .idle
      = ((Api.callPush A m.queues ptr payload.length).mem,
        (Api.callPush A m.queues ptr payload.length).pc,
        (Api.callPush A m.queues ptr payload.length).event.toList ++ []) := rfl
  rw [hsolo]
  unfold Api.callPush callPush
  split_ifs
  · exact ⟨rfl, rfl, rfl, Or.inl rfl⟩
  · exact ⟨rfl, rfl, rfl, Or.inr ⟨_, _, rfl⟩⟩

theorem pushMessage_follows (payload : List UInt8) (ptr : ℕ) (handle : Handle)
    (ppc : Ring.PushPC) (ch : Choice Op) (hch : ∀ op, ch ≠ .call op) :
    Follows A (solo (Api.prog A Z) [ch.access] m.queues (.push (.push handle ppc)))
      (pushMessage m payload ptr (Ring.prog Z id m.queue (.push handle ppc) ch.access)) := by
  have hstep : Api.prog A Z m.queues (.push (.push handle ppc)) ch.access
      = Api.pushMessage m.queues (Ring.prog Z id m.queue (.push handle ppc) ch.access) := by
    rcases Choice.go_or_fault hch with rfl | rfl <;> rfl
  have he : Ring.Effect Z id m.queue _ _ _ _ :=
    Ring.prog_effect m.queue (.push handle ppc) (ch.access : Choice (Ring.Op Handle))
  generalize Ring.prog Z id m.queue (.push handle ppc) ch.access = o at hstep he ⊢
  obtain ⟨m', rpc, ev⟩ := o
  dsimp only at he
  refine .of_step hstep ?_
  -- the thread is at the head of its loop again, has returned, or is in the ring still
  cases he with
  | pushFull => exact ⟨rfl, rfl, rfl, Or.inl rfl⟩
  | pushDone => exact ⟨rfl, rfl, rfl, trivial⟩
  | _ => exact ⟨rfl, rfl, rfl, Or.inr ⟨_, _, rfl⟩⟩

theorem popMessage_follows (ppc : Ring.PopPC Handle) (ch : Choice Op)
    (hch : ∀ op, ch ≠ .call op) :
    Follows A (solo (Api.prog A Z) [ch.access] m.queues (.pop (.pop ppc)))
      (popMessage m (Ring.prog Z id m.queue (.pop ppc) ch.access)) := by
  have hstep : Api.prog A Z m.queues (.pop (.pop ppc)) ch.access
      = Api.popMessage m.queues (Ring.prog Z id m.queue (.pop ppc) ch.access) := by
    rcases Choice.go_or_fault hch with rfl | rfl <;> rfl
  have he : Ring.Effect Z id m.queue _ _ _ _ :=
    Ring.prog_effect m.queue (.pop ppc) (ch.access : Choice (Ring.Op Handle))
  generalize Ring.prog Z id m.queue (.pop ppc) ch.access = o at hstep he ⊢
  obtain ⟨m', rpc, ev⟩ := o
  dsimp only at he
  refine .of_step hstep ?_
  cases he with
  | popEmpty | popDone => exact ⟨rfl, rfl, rfl, trivial⟩
  | _ => exact ⟨rfl, rfl, rfl, _, rfl⟩

theorem writeByte_follows (payload : List UInt8) (ptr i : ℕ) :
    Follows A (m.queues, .idle, []) (writeByte m payload ptr i) := by
  unfold writeByte
  split
  · exact ⟨rfl, rfl, rfl, trivial⟩
  · exact ⟨rfl, rfl, rfl, Or.inl rfl⟩

/-- A step of a client is made of steps of the queue. -/
theorem prog_follows (pc : PC) (ch : Choice Op) (h : pc.Shaped) :
    Follows A (solo (Api.prog A Z) (clientChoices pc ch) m.queues pc.call) (prog A Z m pc ch) := by
  cases pc with
  | idle =>
      cases ch with
      | call op =>
          cases op with
          | send payload => exact ⟨rfl, rfl, rfl, trivial⟩
          | receive => exact ⟨rfl, rfl, rfl, _, rfl⟩
      | _ => exact ⟨rfl, rfl, rfl, trivial⟩
  | prepare payload apc =>
      cases ch with
      | call op => exact ⟨rfl, rfl, rfl, trivial⟩
      | go => exact prepareMessage_follows payload apc .go nofun
      | fault => exact prepareMessage_follows payload apc .fault nofun
  | write payload ptr i =>
      cases ch with
      | call op => exact ⟨rfl, rfl, rfl, trivial⟩
      | _ => exact writeByte_follows payload ptr i
  | push payload ptr rpc =>
      cases ch with
      | call op => exact ⟨rfl, rfl, rfl, h⟩
      | go =>
          rcases h with rfl | ⟨handle, ppc, rfl⟩
          · exact callPush_follows payload ptr
          · exact pushMessage_follows payload ptr handle ppc .go nofun
      | fault =>
          rcases h with rfl | ⟨handle, ppc, rfl⟩
          · exact callPush_follows payload ptr
          · exact pushMessage_follows payload ptr handle ppc .fault nofun
  | pop rpc =>
      obtain ⟨ppc, rfl⟩ := h
      cases ch with
      | call op => exact ⟨rfl, rfl, rfl, _, rfl⟩
      | go => exact popMessage_follows ppc .go nofun
      | fault => exact popMessage_follows ppc .fault nofun

end Step

theorem shaped_run [DecidableEq ι] (A : Arena.Buffer) (Z : AdmittedSize) (buffer : ℕ → Handle)
    (bytes : ℕ → UInt8) (sched : ℕ → ι × Choice Op) (n : ℕ) (p : ι) :
    (((system A Z ι buffer bytes).run sched n).pc p).Shaped := by
  induction n generalizing p with
  | zero => trivial
  | succ n ih =>
      rw [System.run_succ]
      by_cases hp : p = (sched n).1
      · rw [hp, System.next_pc_self]
        exact (prog_follows _ _ (ih _)).shaped
      · rw [System.next_pc_ne _ _ hp]
        exact ih p

/-- **A run of producers and consumers is one of the public functions.** There is a run of
threads that call `prepare_message`, `push_message` and `pop_message` at the end of which the
arena, the ring and the calls in progress are those of the producers and consumers, and in
which `prepare_message` and `pop_message` have returned to each thread, in the same order, what
they have returned to the producers and consumers. -/
theorem exists_api_run [DecidableEq ι] (A : Arena.Buffer) (Z : AdmittedSize)
    (buffer : ℕ → Handle) (bytes : ℕ → UInt8) (sched : ℕ → ι × Choice Op) (n : ℕ) :
    ∃ sched' n', (Api.system A Z ι buffer).run sched' n'
        = System.project Mem.queues PC.call ((system A Z ι buffer bytes).run sched n)
      ∧ ((Api.system A Z ι buffer).history sched' n').filterMap
          (fun e => e.2.unlessPushed.map (Prod.mk e.1))
        = ((system A Z ι buffer bytes).history sched n).filterMap
          fun e => (e.2.result A).map (Prod.mk e.1) :=
  System.exists_run_of_simulates (S := system A Z ι buffer bytes) (I := PC.Shaped) rfl
    (fun _ pc ch hshaped =>
      have hfollows := prog_follows pc ch hshaped
      ⟨clientChoices pc ch, hfollows.mem, hfollows.pc, hfollows.events⟩)
    (shaped_run A Z buffer bytes sched) n

end MessageQueue

end Lockless
