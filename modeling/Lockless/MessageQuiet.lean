import Lockless.MessageCalls
import Lockless.RingQuiet

/-!
# The message queue at rest

Any number of threads call the public functions of `ZeroCopyQueue` at once, with any sizes
and any pointers. A run is then a run of the ring, so what is known of the ring at rest
holds of the queue: once every call has returned, as many calls of `push_message` have
returned true as handles have got a ticket, and these are the handles delivered and those
in the ring. All of them are of pointers into the arena.

From there on the queue answers a single thread as `messages` does, whatever the threads
have left in the arena and in the ring.
-/

namespace Lockless

namespace MessageQueue

namespace Api

variable {ι : Type*}

/-- Threads that call the functions of a new queue. -/
def system (A : Arena.Buffer) (Z : AdmittedSize) (ι : Type*) (buffer : ℕ → Handle) :
    System ι Mem PC (Choice Op) Result where
  init := ⟨initMem buffer, fun _ => .idle⟩
  prog := prog A Z

/-! ## The ring -/

/-- Where a thread is in a call of the ring. -/
def PC.ring : PC → Ring.PC Handle
  | .push rpc => rpc
  | .pop rpc => rpc
  | _ => .idle

/-- What a step asks of the ring. -/
def ringChoice (A : Arena.Buffer) : PC → Choice Op → Choice (Ring.Op Handle)
  | .idle, .call .popMessage => .call .tryPop
  | .callPush _ _, .call _ => .go
  | .callPush ptr size, _ =>
      if A.getOffset ptr = Arena.Buffer.sizeMax then .go
      else .call (.tryPush ⟨A.getOffset ptr, size⟩)
  | .push rpc, .call _ => Ring.rest rpc
  | .push _, ch => ch.access
  | .pop rpc, .call _ => Ring.rest rpc
  | .pop _, ch => ch.access
  | _, _ => .go

/-- The handle a call of `pop_message` returns. -/
def Result.asDelivered : Result → Option Handle
  | .popped handle => handle
  | _ => none

/-- A call of `push_message` that returns true. -/
def Result.asAccepted : Result → Option Unit
  | .pushed true => some ()
  | _ => none

section Step

variable {A : Arena.Buffer} {Z : AdmittedSize} {m : Mem}

theorem pushMessage_ring {rpc : Ring.PC Handle}
    {o : Outcome (Ring.Mem Handle) (Ring.PC Handle) (Ring.Event Handle)}
    (he : Ring.Effect Z id m.queue rpc o.mem o.pc o.event) :
    (pushMessage m o).mem.queue = o.mem ∧ (pushMessage m o).pc.ring = o.pc := by
  obtain ⟨m', pc', ev⟩ := o
  dsimp only at he
  cases he <;> exact ⟨rfl, rfl⟩

theorem popMessage_ring {rpc : Ring.PC Handle}
    {o : Outcome (Ring.Mem Handle) (Ring.PC Handle) (Ring.Event Handle)}
    (he : Ring.Effect Z id m.queue rpc o.mem o.pc o.event) :
    (popMessage m o).mem.queue = o.mem ∧ (popMessage m o).pc.ring = o.pc := by
  obtain ⟨m', pc', ev⟩ := o
  dsimp only at he
  cases he <;> exact ⟨rfl, rfl⟩

/-- A step is a step of the ring. -/
theorem prog_ring (pc : PC) (ch : Choice Op) :
    (prog A Z m pc ch).mem.queue = (Ring.prog Z id m.queue pc.ring (ringChoice A pc ch)).mem
      ∧ (prog A Z m pc ch).pc.ring
        = (Ring.prog Z id m.queue pc.ring (ringChoice A pc ch)).pc := by
  cases pc with
  | idle =>
      cases ch with
      | call op => cases op <;> exact ⟨rfl, rfl⟩
      | _ => exact ⟨rfl, rfl⟩
  | prepare apc =>
      cases ch with
      | call op => exact ⟨rfl, rfl⟩
      | _ =>
          simp only [prog, prepareMessage]
          split <;> exact ⟨rfl, rfl⟩
  | callPush ptr size =>
      cases ch with
      | call op => exact ⟨rfl, rfl⟩
      | _ =>
          simp only [prog, callPush, ringChoice]
          split_ifs <;> exact ⟨rfl, rfl⟩
  | push rpc =>
      cases ch with
      | call op =>
          simp only [PC.ring, ringChoice, Ring.prog_rest]
          exact ⟨rfl, rfl⟩
      | _ => exact pushMessage_ring (Ring.prog_effect _ _ _)
  | pop rpc =>
      cases ch with
      | call op =>
          simp only [PC.ring, ringChoice, Ring.prog_rest]
          exact ⟨rfl, rfl⟩
      | _ => exact popMessage_ring (Ring.prog_effect _ _ _)

/-- A thread in `push_message` is in `try_push` with a handle of the arena, and one in
`pop_message` in `try_pop`. -/
def PC.Local (A : Arena.Buffer) : PC → Prop
  | .push rpc => ∃ handle ppc, rpc = .push handle ppc ∧ handle.offset < A.size
  | .pop rpc => ∃ ppc, rpc = .pop ppc
  | _ => True

/-- What a step of a thread in a call of the ring returns is what the ring returns, and a
ticket is taken for a handle of the arena only. -/
structure Tells (A : Arena.Buffer) (ev : Option (Ring.Event Handle)) (o : Outcome Mem PC Result) :
    Prop where
  inCall : o.pc.Local A
  delivered : o.event.bind Result.asDelivered
    = ev.bind fun e => e.asPopDone.map Prod.snd
  accepted : o.event.bind Result.asAccepted = ev.bind fun e => e.asPushDone.map fun _ => ()
  offset : ∀ t handle, ev = some (.pushWin t handle) → handle.offset < A.size

theorem Tells.quiet {o : Outcome Mem PC Result} (hlocal : o.pc.Local A)
    (hdelivered : o.event.bind Result.asDelivered = none)
    (haccepted : o.event.bind Result.asAccepted = none) : Tells A none o :=
  ⟨hlocal, hdelivered, haccepted, nofun⟩

theorem pushMessage_tells {handle : Handle} {ppc : Ring.PushPC}
    {o : Outcome (Ring.Mem Handle) (Ring.PC Handle) (Ring.Event Handle)}
    (hoffset : handle.offset < A.size)
    (he : Ring.Effect Z id m.queue (.push handle ppc) o.mem o.pc o.event) :
    Tells A o.event (pushMessage m o) := by
  obtain ⟨m', pc', ev⟩ := o
  dsimp only at he
  cases he with
  | pushFull | pushDone => exact ⟨trivial, rfl, rfl, nofun⟩
  | pushWin =>
      refine ⟨⟨_, _, rfl, hoffset⟩, rfl, rfl, ?_⟩
      rintro t _ ⟨⟩
      exact hoffset
  | _ => exact .quiet ⟨_, _, rfl, hoffset⟩ rfl rfl

theorem popMessage_tells {ppc : Ring.PopPC Handle}
    {o : Outcome (Ring.Mem Handle) (Ring.PC Handle) (Ring.Event Handle)}
    (he : Ring.Effect Z id m.queue (.pop ppc) o.mem o.pc o.event) :
    Tells A o.event (popMessage m o) := by
  obtain ⟨m', pc', ev⟩ := o
  dsimp only at he
  cases he with
  | popEmpty | popDone => exact ⟨trivial, rfl, rfl, nofun⟩
  | popWin => exact ⟨⟨_, rfl⟩, rfl, rfl, nofun⟩
  | _ => exact .quiet ⟨_, rfl⟩ rfl rfl

theorem prog_tells {pc : PC} (ch : Choice Op) (hlocal : pc.Local A) :
    Tells A (Ring.prog Z id m.queue pc.ring (ringChoice A pc ch)).event (prog A Z m pc ch) := by
  cases pc with
  | idle =>
      cases ch with
      | call op =>
          cases op with
          | popMessage => exact .quiet ⟨_, rfl⟩ rfl rfl
          | _ => exact .quiet trivial rfl rfl
      | _ => exact .quiet trivial rfl rfl
  | prepare apc =>
      cases ch with
      | call op => exact .quiet trivial rfl rfl
      | _ =>
          simp only [prog, prepareMessage]
          split <;> exact .quiet trivial rfl rfl
  | callPush ptr size =>
      cases ch with
      | call op => exact .quiet trivial rfl rfl
      | _ =>
          simp only [prog, callPush, ringChoice]
          split_ifs with hptr
          · exact .quiet trivial rfl rfl
          · exact .quiet ⟨_, _, rfl, (getOffset_of_ne hptr).2⟩ rfl rfl
  | push rpc =>
      obtain ⟨handle, ppc, rfl, hoffset⟩ := hlocal
      cases ch with
      | call op => exact .quiet ⟨_, _, rfl, hoffset⟩ rfl rfl
      | _ => exact pushMessage_tells hoffset (Ring.prog_effect _ _ _)
  | pop rpc =>
      obtain ⟨ppc, rfl⟩ := hlocal
      cases ch with
      | call op => exact .quiet ⟨_, rfl⟩ rfl rfl
      | _ => exact popMessage_tells (Ring.prog_effect _ _ _)

end Step

/-! ## Runs -/

section Run

variable [DecidableEq ι] (A : Arena.Buffer) (Z : PowSize) (buffer : ℕ → Handle)
  (sched : ℕ → ι × Choice Op)

/-- The schedule a run drives the ring with. -/
def ringSched : ℕ → ι × Choice (Ring.Op Handle) :=
  (system A Z ι buffer).projectSched (fun _ => ringChoice A) sched

/-- The history of the ring in a run. -/
def ringHistory (n : ℕ) : List (ι × Ring.Event Handle) :=
  (Ring.system Z id ι buffer).history (ringSched A Z buffer sched) n

/-- The handles that have got a ticket, in the order of the tickets. -/
def ticketed (n : ℕ) : List Handle := Ring.pushed (ringHistory A Z buffer sched n)

/-- The handles delivered. -/
def handed (H : List (ι × Result)) : List Handle := H.filterMap fun e => e.2.asDelivered

/-- The calls of `push_message` that have returned true. -/
def sent (H : List (ι × Result)) : List Unit := H.filterMap fun e => e.2.asAccepted

theorem run_ring (n : ℕ) :
    System.project Mem.queue PC.ring ((system A Z ι buffer).run sched n)
      = (Ring.system Z id ι buffer).run (ringSched A Z buffer sched) n :=
  System.run_project _ rfl (fun _ pc ch => (prog_ring pc ch).1)
    (fun _ pc ch => (prog_ring pc ch).2) sched n

theorem local_run (n : ℕ) (p : ι) : (((system A Z ι buffer).run sched n).pc p).Local A := by
  induction n generalizing p with
  | zero => trivial
  | succ n ih =>
      rw [System.run_succ]
      by_cases hp : p = (sched n).1
      · rw [hp, System.next_pc_self]
        exact (prog_tells _ (ih _)).inCall
      · rw [System.next_pc_ne _ _ hp]
        exact ih p

theorem tells_run (i : ℕ) :
    Tells A ((Ring.system Z id ι buffer).outcome
        ((Ring.system Z id ι buffer).run (ringSched A Z buffer sched) i)
        (ringSched A Z buffer sched i)).event
      ((system A Z ι buffer).outcome ((system A Z ι buffer).run sched i) (sched i)) := by
  rw [← run_ring]
  exact prog_tells _ (local_run A Z buffer sched i _)

/-- No pointer into the arena, no handle in the ring. -/
theorem offset_lt (n : ℕ) : ∀ handle ∈ ticketed A Z buffer sched n, handle.offset < A.size := by
  induction n with
  | zero => exact fun _ h => by cases h
  | succ n ih =>
      intro handle hm
      rw [ticketed, ringHistory, System.history_succ, Ring.pushed_append, List.mem_append] at hm
      rcases hm with hm | hm
      · exact ih handle hm
      · obtain ⟨⟨q, e⟩, hmem, he⟩ := List.mem_filterMap.mp hm
        obtain ⟨-, hev⟩ := (System.mem_emitted _).mp hmem
        cases e with
        | pushWin t x =>
            cases he
            exact (tells_run A Z buffer sched n).offset t _ hev
        | _ => cases he

theorem handed_perm (n : ℕ) :
    (handed ((system A Z ι buffer).history sched n)).Perm
      ((Ring.delivered (ringHistory A Z buffer sched n)).map Prod.snd) := by
  rw [handed, ringHistory, Ring.delivered, List.map_filterMap]
  exact System.filterMap_history_perm (system A Z ι buffer) (f := Result.asDelivered)
    (g := fun e => (Ring.Event.asPopDone e).map Prod.snd) (fun _ _ => rfl)
    fun i _ => (tells_run A Z buffer sched i).delivered

theorem length_sent (n : ℕ) :
    (sent ((system A Z ι buffer).history sched n)).length
      = (Ring.published (ringHistory A Z buffer sched n)).length := by
  have hperm : (sent ((system A Z ι buffer).history sched n)).Perm
      ((Ring.published (ringHistory A Z buffer sched n)).map fun _ => ()) := by
    rw [sent, ringHistory, Ring.published, List.map_filterMap]
    exact System.filterMap_history_perm (system A Z ι buffer) (f := Result.asAccepted)
      (g := fun e => (Ring.Event.asPushDone e).map fun _ => ()) (fun _ _ => rfl)
      fun i _ => (tells_run A Z buffer sched i).accepted
  rw [hperm.length_eq, List.length_map]

variable {A Z buffer sched} {n : ℕ}

theorem ring_idle (hidle : ∀ p, ((system A Z ι buffer).run sched n).pc p = .idle) (p : ι) :
    ((Ring.system Z id ι buffer).run (ringSched A Z buffer sched) n).pc p = .idle := by
  rw [← run_ring]
  exact congrArg PC.ring (hidle p)

end Run

/-- **The queue of messages after any interleaving.** Any number of threads call
`prepare_message`, `push_message` and `pop_message`, with any sizes and any pointers. When no
call is in flight, and fewer than `2 ^ 63` handles have got a ticket, with `q` these handles
in the order of their tickets without as many of the first as have been delivered:

1. as many calls of `push_message` have returned true as there are handles with a ticket;
2. those are the handles delivered and those of `q`, each as often, and all of them have
   offsets in the arena;
3. from there on, calls made one after another by one thread answer as those of a queue that
   holds `q`, and blocks are taken from the arena after those the threads have taken, and every
   call returns. -/
theorem messages_at_rest [DecidableEq ι] (A : Arena.Buffer) (Z : PowSize) (buffer : ℕ → Handle)
    (sched : ℕ → ι × Choice Op) (n : ℕ)
    (hn : (ticketed A Z buffer sched n).length < 2 ^ 63)
    (hidle : ∀ p, ((system A Z ι buffer).run sched n).pc p = .idle) :
    let c := (system A Z ι buffer).run sched n
    let H := (system A Z ι buffer).history sched n
    let q := (ticketed A Z buffer sched n).drop (handed H).length
    (sent H).length = (ticketed A Z buffer sched n).length
      ∧ (ticketed A Z buffer sched n).Perm (handed H ++ q)
      ∧ (∀ handle ∈ ticketed A Z buffer sched n, handle.offset < A.size)
      ∧ ∀ m L, CallLog (Ends (prog A Z) .idle) start c.mem m L →
        L.map (·.events) = (answers (messages A Z.size) (c.mem.arena.writeOffset, q)
            (L.map (·.op))).map (fun r => [r])
          ∧ ∀ op, Returns (prog A Z) .idle m (start op) := by
  intro c H q
  have hring := ring_idle hidle
  have hlen := (handed_perm A Z buffer sched n).length_eq
  rw [List.length_map] at hlen
  refine ⟨?_, ?_, offset_lt A Z buffer sched n, fun m L hlog => ?_⟩
  · rw [length_sent]
    exact (Ring.published_perm hn hring).length_eq.trans List.length_range
  · simp only [q, H, hlen]
    exact (Ring.pushed_perm hn hring).trans ((handed_perm A Z buffer sched n).symm.append_right _)
  · have hstored : ∃ b, Ring.Stored Z c.mem.queue b q := by
      have h := Ring.stored_of_idle hn hring
      rw [← Ring.length_delivered hn hring, ← run_ring] at h
      simp only [q, H, hlen]
      exact ⟨_, h⟩
    have hrep : Represents Z c.mem (c.mem.arena.writeOffset, q) := ⟨rfl, hstored⟩
    obtain ⟨hrep', hevents⟩ := hlog.refines (messages A Z.size) (Represents Z) id (fun r => [r])
      (fun hrep hrun => answers_of_ends hrep hrun) hrep
    exact ⟨hevents, returns hrep'⟩

/-- Two threads take a block each and push it, one of them with a pointer from elsewhere at
first, and a message is popped. -/
def twoMessagesSteps : List (Bool × Choice Op) :=
  List.flatten [[(true, .call (.prepareMessage 2)), (false, .call (.prepareMessage 3)),
      (true, .go), (true, .go), (false, .go), (false, .go), (false, .call (.pushMessage 0 3)),
      (false, .go), (true, .call (.pushMessage eightBytes.data 2)), (true, .go),
      (false, .call (.pushMessage (eightBytes.data + 2) 3))],
    List.replicate 6 (false, .go), List.replicate 7 (true, .go),
    [(false, .call .popMessage)], List.replicate 5 (false, .go)]

def twoMessages : ℕ → Bool × Choice Op := fun i => twoMessagesSteps.getD i (true, .go)

theorem messages_at_rest_twoMessages :
    ∃ m L, CallLog (Ends (prog eightBytes Ring.twoCells) .idle) start
        ((system eightBytes Ring.twoCells Bool fun _ => ⟨0, 0⟩).run twoMessages 30).mem m L
      ∧ L.map (·.op) = [.popMessage, .prepareMessage 4, .prepareMessage 3, .pushMessage 105 3]
      ∧ L.map (·.events)
        = [[.popped (some ⟨0, 2⟩)], [.threw], [.prepared 105], [.pushed true]] := by
  have h := (messages_at_rest eightBytes Ring.twoCells (fun _ => ⟨0, 0⟩) twoMessages 30
    (by decide +kernel) (by decide +kernel)).2.2.2
  obtain ⟨m, L, hlog, hops⟩ := exists_callLog (fun m L hlog op => ((h m L hlog).2 op).ends)
    [.popMessage, .prepareMessage 4, .prepareMessage 3, .pushMessage 105 3]
  refine ⟨m, L, hlog, hops, ?_⟩
  have hleft : (ticketed eightBytes Ring.twoCells (fun _ => ⟨0, 0⟩) twoMessages 30).drop
      (handed ((system eightBytes Ring.twoCells Bool fun _ => ⟨0, 0⟩).history
        twoMessages 30)).length = [⟨0, 2⟩] := by decide +kernel
  have hoffset : ((system eightBytes Ring.twoCells Bool fun _ => ⟨0, 0⟩).run
      twoMessages 30).mem.arena.writeOffset = 5 := by decide +kernel
  rw [(h m L hlog).1, hops, hleft, hoffset]
  rfl

end Api

end MessageQueue

end Lockless
