import Lockless.OrderBookDecisions
import Lockless.OrderBookDrain
import Lockless.RingQuiet

/-!
# The queue of the order book

`submit_order` and the batch loop of `process_orders` are calls of the ring buffer, so
a run of the order book is, step by step, a run of its ring (`run_ring`). An order is
accepted in the step in which its push returns true, and popped in the step in which a
pop returns true with it.

What holds of the items of the ring therefore holds of orders. Listed in the order of
their tickets, the accepted orders are those that have been popped, followed by those
still in the queue; the orders of one thread are in the list in the order in which the
thread has submitted them, and every thread deals with the orders it has popped in the
order of the list. So whenever no call is in flight, every accepted order has been
matched, or has rested, or is in the queue, and it is in one of the three places as often
as it was accepted.

From there on a single thread that processes orders until there are none left brings the
book to where the orders in the queue, placed one by one in the order of their tickets,
bring it.
-/

namespace Lockless

namespace OrderBook

/-! ## Runs of the ring -/

/-- The position of a thread in the program of the ring. -/
def PC.queue : PC → Ring.PC Order
  | .submit _ rpc => rpc
  | .popBatch _ _ rpc => rpc
  | _ => .idle

/-- What a step asks of the ring. -/
def queueChoice : PC → Choice Op → Choice (Ring.Op Order)
  | .idle, .call (.submit order) => .call (.tryPush order)
  | .submit _ rpc, .call _ => Ring.rest rpc
  | .submit _ _, ch => ch.access
  | .popBatch _ _ rpc, .call _ => Ring.rest rpc
  | .popBatch limit orders rpc, ch =>
      if rpc = .idle then
        if orders.length < limit then .call .tryPop else .go
      else ch.access
  | _, _ => .go

@[simp] theorem nextOrder_queue (count : ℕ) (rest : List Order) :
    (nextOrder count rest).queue = .idle := by
  cases rest <;> rfl

section Projection

variable {Z : PowSize}

theorem submitOrder_queue (m : Mem) (order : Order) (rpc : Ring.PC Order)
    (rch : Choice (Ring.Op Order)) :
    (submitOrder m order (Ring.prog Z id m.queue rpc rch)).mem.queue
        = (Ring.prog Z id m.queue rpc rch).mem
      ∧ (submitOrder m order (Ring.prog Z id m.queue rpc rch)).pc.queue
        = (Ring.prog Z id m.queue rpc rch).pc := by
  have he : Ring.Effect Z id _ _ _ _ _ := Ring.prog_effect m.queue rpc rch
  generalize Ring.prog Z id m.queue rpc rch = o at he ⊢
  obtain ⟨m', rpc', ev⟩ := o
  dsimp only [submitOrder] at he ⊢
  split
  · cases he
    exact ⟨rfl, rfl⟩
  · cases he
    exact ⟨rfl, rfl⟩
  · exact ⟨rfl, rfl⟩

theorem tryPopBatch_queue (m : Mem) (limit : ℕ) (orders : List Order) (rpc : Ring.PC Order)
    (rch : Choice (Ring.Op Order)) :
    (tryPopBatch m limit orders (Ring.prog Z id m.queue rpc rch)).mem.queue
        = (Ring.prog Z id m.queue rpc rch).mem
      ∧ (tryPopBatch m limit orders (Ring.prog Z id m.queue rpc rch)).pc.queue
        = (Ring.prog Z id m.queue rpc rch).pc := by
  have he : Ring.Effect Z id _ _ _ _ _ := Ring.prog_effect m.queue rpc rch
  generalize Ring.prog Z id m.queue rpc rch = o at he ⊢
  obtain ⟨m', rpc', ev⟩ := o
  dsimp only [tryPopBatch] at he ⊢
  split
  · exact ⟨rfl, rfl⟩
  · cases he
    exact ⟨rfl, nextOrder_queue _ _⟩
  · exact ⟨rfl, rfl⟩

theorem popBatch_queue (m : Mem) (limit : ℕ) (orders : List Order) (rpc : Ring.PC Order)
    {ch : Choice Op} (hch : ∀ op, ch ≠ .call op) :
    (prog Z m (.popBatch limit orders rpc) ch).mem.queue
        = (Ring.prog Z id m.queue rpc (queueChoice (.popBatch limit orders rpc) ch)).mem
      ∧ (prog Z m (.popBatch limit orders rpc) ch).pc.queue
        = (Ring.prog Z id m.queue rpc (queueChoice (.popBatch limit orders rpc) ch)).pc := by
  by_cases hidle : rpc = .idle
  · subst hidle
    cases ch with
    | call op => exact absurd rfl (hch op)
    | go | fault =>
        simp only [prog, queueChoice, if_true, callPop]
        split_ifs
        · exact ⟨rfl, rfl⟩
        · exact ⟨rfl, nextOrder_queue _ _⟩
  · cases ch with
    | call op => exact absurd rfl (hch op)
    | go | fault =>
        simp only [prog, queueChoice, if_neg hidle]
        exact tryPopBatch_queue m limit orders rpc _

theorem processSingleOrder_queue (m : Mem) (spurious : Bool) (count : ℕ) (order : Order)
    (rest : List Order) (opc : OrderPC) :
    (processSingleOrder m spurious count order rest opc).mem.queue = m.queue
      ∧ (processSingleOrder m spurious count order rest opc).pc.queue = .idle := by
  have he := processSingleOrder_effect m spurious count order rest opc
  generalize processSingleOrder m spurious count order rest opc = o at he ⊢
  obtain ⟨m', pc', ev⟩ := o
  dsimp only at he ⊢
  cases he with
  | stay | cross | noCross | matched | loadTotal | rested | improve => exact ⟨rfl, rfl⟩
  | subTotal | settle | raise => exact ⟨rfl, nextOrder_queue _ _⟩

theorem prog_queue (m : Mem) (pc : PC) (ch : Choice Op) :
    (prog Z m pc ch).mem.queue = (Ring.prog Z id m.queue pc.queue (queueChoice pc ch)).mem
      ∧ (prog Z m pc ch).pc.queue
        = (Ring.prog Z id m.queue pc.queue (queueChoice pc ch)).pc := by
  cases pc with
  | idle =>
      cases ch with
      | call op => cases op <;> exact ⟨rfl, rfl⟩
      | go | fault => exact ⟨rfl, rfl⟩
  | submit order rpc =>
      cases ch with
      | call op =>
          simp only [PC.queue, queueChoice, Ring.prog_rest]
          exact ⟨rfl, rfl⟩
      | go | fault => exact submitOrder_queue m order rpc _
  | popBatch limit orders rpc =>
      cases ch with
      | call op =>
          simp only [PC.queue, queueChoice, Ring.prog_rest]
          exact ⟨rfl, rfl⟩
      | go | fault => exact popBatch_queue m limit orders rpc fun op h => by cases h
  | process count order rest opc =>
      cases ch with
      | call op => exact ⟨rfl, rfl⟩
      | go => exact processSingleOrder_queue m false count order rest opc
      | fault => exact processSingleOrder_queue m true count order rest opc

variable {ι : Type*} [DecidableEq ι] (Z) (buffer : ℕ → Order)

/-- The schedule a run of the order book drives its ring with. -/
def queueSched (sched : ℕ → ι × Choice Op) : ℕ → ι × Choice (Ring.Op Order) :=
  (system Z ι buffer).projectSched (fun _ => queueChoice) sched

/-- The history of the ring inside a run of the order book. -/
def ringHistory (sched : ℕ → ι × Choice Op) (n : ℕ) : List (ι × Ring.Event Order) :=
  (Ring.system Z id ι buffer).history (queueSched Z buffer sched) n

/-- The orders that have been given a ticket, in the order of the tickets. -/
def ticketed (sched : ℕ → ι × Choice Op) (n : ℕ) : List Order :=
  Ring.pushed (ringHistory Z buffer sched n)

/-- A run of the order book is a run of its ring. -/
theorem run_ring (sched : ℕ → ι × Choice Op) (n : ℕ) :
    System.project Mem.queue PC.queue ((system Z ι buffer).run sched n)
      = (Ring.system Z id ι buffer).run (queueSched Z buffer sched) n :=
  (system Z ι buffer).run_project rfl (fun m pc ch => (prog_queue m pc ch).1)
    (fun m pc ch => (prog_queue m pc ch).2) sched n

end Projection

/-! ## Orders and items -/

/-- The call of the ring a thread is in is one that its own position asks for. -/
def PC.Local : PC → Prop
  | .submit order rpc => ∃ pc, rpc = .push order pc
  | .popBatch _ _ rpc => rpc = .idle ∨ ∃ pc, rpc = .pop pc
  | _ => True

theorem nextOrder_local (count : ℕ) (rest : List Order) : (nextOrder count rest).Local := by
  cases rest <;> exact trivial

/-- The events of a step read alike: an order is accepted as the ring publishes its ticket,
and popped as the ring delivers it. -/
structure Reads (L : List Order) (ev : Option Event) (rev : Option (Ring.Event Order)) :
    Prop where
  accepted : ev.bind Event.asAccepted
    = rev.bind fun e => e.asPushDone.bind (L[·]?)
  popped : ev.bind Event.asPopped = rev.bind fun e => e.asPopDone.map Prod.snd

section Readings

variable {Z : PowSize} {L : List Order}

/-- A step that is none of the ring. -/
theorem Reads.aside {m m' : Mem} {pc pc' : PC} {ev : Option Event}
    (he : Effect m pc m' pc' ev) (h : ∀ limit orders rpc, pc ≠ .popBatch limit orders rpc)
    (h' : ∀ order rpc, pc ≠ .submit order rpc) : Reads L ev none := by
  have haccepted := returned_bind (f := Event.asAccepted) fun _ => rfl
  have hpopped := returned_bind (f := Event.asPopped) fun _ => rfl
  cases he with
  | submitAccess order rpc | accepted order rpc | refused order rpc =>
      exact absurd rfl (h' order rpc)
  | popAccess limit orders rpc | popped limit orders rpc | batchEnd limit orders rpc =>
      exact absurd rfl (h limit orders rpc)
  | subTotal | settle | raise => exact ⟨haccepted _ _, hpopped _ _⟩
  | _ => exact ⟨rfl, rfl⟩

theorem finish_reads (m : Mem) (count : ℕ) (rest : List Order) :
    Reads L (finish m count rest).event none :=
  ⟨returned_bind (fun _ => rfl) _ _, returned_bind (fun _ => rfl) _ _⟩

theorem submitOrder_reads (m : Mem) {order : Order} {pc : Ring.PushPC}
    {o : Outcome (Ring.Mem Order) (Ring.PC Order) (Ring.Event Order)}
    (he : Ring.Effect Z id m.queue (.push order pc) o.mem o.pc o.event)
    (hL : ∀ t x, (Ring.PC.push order pc).publishing = some (t, x) → L[t]? = some x) :
    Reads L (submitOrder m order o).event o.event ∧ (submitOrder m order o).pc.Local := by
  obtain ⟨m', rpc', ev⟩ := o
  dsimp only [submitOrder] at he ⊢
  cases he with
  | pushDone item head => exact ⟨⟨(hL head order rfl).symm, rfl⟩, trivial⟩
  | pushFull => exact ⟨⟨rfl, rfl⟩, trivial⟩
  | _ => exact ⟨⟨rfl, rfl⟩, _, rfl⟩

theorem tryPopBatch_reads (m : Mem) (limit : ℕ) (orders : List Order) {pc : Ring.PopPC Order}
    {o : Outcome (Ring.Mem Order) (Ring.PC Order) (Ring.Event Order)}
    (he : Ring.Effect Z id m.queue (.pop pc) o.mem o.pc o.event) :
    Reads L (tryPopBatch m limit orders o).event o.event
      ∧ (tryPopBatch m limit orders o).pc.Local := by
  obtain ⟨m', rpc', ev⟩ := o
  dsimp only [tryPopBatch] at he ⊢
  cases he with
  | popDone tail item => exact ⟨⟨rfl, rfl⟩, Or.inl rfl⟩
  | popEmpty =>
      obtain ⟨haccepted, hpopped⟩ := finish_reads (L := L) { m with queue := m.queue }
        orders.length orders
      exact ⟨⟨haccepted, hpopped⟩, nextOrder_local _ _⟩
  | _ => exact ⟨⟨rfl, rfl⟩, Or.inr ⟨_, rfl⟩⟩

theorem popBatch_reads (m : Mem) (limit : ℕ) (orders : List Order) {rpc : Ring.PC Order}
    (hlocal : (PC.popBatch limit orders rpc).Local) {ch : Choice Op}
    (hch : ∀ op, ch ≠ .call op) :
    Reads L (prog Z m (.popBatch limit orders rpc) ch).event
        (Ring.prog Z id m.queue rpc (queueChoice (.popBatch limit orders rpc) ch)).event
      ∧ (prog Z m (.popBatch limit orders rpc) ch).pc.Local := by
  rcases hlocal with rfl | ⟨pc, rfl⟩
  · have hcall : Reads L (callPop m limit orders).event none
        ∧ (callPop m limit orders).pc.Local := by
      unfold callPop
      split_ifs
      · exact ⟨⟨rfl, rfl⟩, Or.inr ⟨_, rfl⟩⟩
      · exact ⟨finish_reads m _ _, nextOrder_local _ _⟩
    cases ch with
    | call op => exact absurd rfl (hch op)
    | go | fault =>
        simp only [queueChoice, if_true]
        split_ifs <;> exact hcall
  · cases ch with
    | call op => exact absurd rfl (hch op)
    | go | fault => exact tryPopBatch_reads m limit orders (Ring.prog_effect _ _ _)

theorem prog_reads (m : Mem) {pc : PC} (hlocal : pc.Local)
    (hL : ∀ t x, pc.queue.publishing = some (t, x) → L[t]? = some x) (ch : Choice Op) :
    Reads L (prog Z m pc ch).event
        (Ring.prog Z id m.queue pc.queue (queueChoice pc ch)).event
      ∧ (prog Z m pc ch).pc.Local := by
  cases pc with
  | idle =>
      cases ch with
      | call op =>
          cases op with
          | submit order => exact ⟨⟨rfl, rfl⟩, _, rfl⟩
          | process batchSize => exact ⟨⟨rfl, rfl⟩, Or.inl rfl⟩
      | go | fault => exact ⟨⟨rfl, rfl⟩, trivial⟩
  | submit order rpc =>
      obtain ⟨pc, rfl⟩ := hlocal
      cases ch with
      | call op => exact ⟨⟨rfl, rfl⟩, pc, rfl⟩
      | go | fault => exact submitOrder_reads m (Ring.prog_effect _ _ _) hL
  | popBatch limit orders rpc =>
      cases ch with
      | call op =>
          simp only [PC.queue, queueChoice, Ring.prog_rest]
          exact ⟨⟨rfl, rfl⟩, hlocal⟩
      | go | fault => exact popBatch_reads m limit orders hlocal fun op h => by cases h
  | process count order rest opc =>
      have hreads : ∀ spurious,
          Reads L (processSingleOrder m spurious count order rest opc).event none
            ∧ (processSingleOrder m spurious count order rest opc).pc.Local := by
        intro spurious
        have he := processSingleOrder_effect m spurious count order rest opc
        refine ⟨.aside he (fun _ _ _ h => by cases h) (fun _ _ h => by cases h), ?_⟩
        generalize processSingleOrder m spurious count order rest opc = o at he ⊢
        obtain ⟨m', pc', ev⟩ := o
        dsimp only at he ⊢
        cases he with
        | subTotal | settle | raise => exact nextOrder_local _ _
        | _ => exact trivial
      cases ch with
      | call op => exact ⟨⟨rfl, rfl⟩, trivial⟩
      | go => exact hreads false
      | fault => exact hreads true

end Readings

/-! ## Every thread deals with what it has popped -/

section Threads

variable {ι : Type*} [DecidableEq ι] {Z : PowSize} {buffer : ℕ → Order}
  {sched : ℕ → ι × Choice Op} {n : ℕ}

theorem popped_of_thread (p : ι) :
    orders Event.asPopped (ofThread p ((system Z ι buffer).history sched n))
      = orders Event.asHandled (ofThread p ((system Z ι buffer).history sched n))
        ++ (((system Z ι buffer).run sched n).pc p).pending := by
  induction n with
  | zero => rfl
  | succ n ih =>
      have he : Effect _ _ _ _ ((system Z ι buffer).outcome ((system Z ι buffer).run sched n)
        (sched n)).event := prog_effect _ _ (sched n).2
      simp only [orders] at ih ⊢
      rw [System.history_succ, ofThread_append, List.filterMap_append, List.filterMap_append,
        System.emitted, filterMap_ofThread_step, filterMap_ofThread_step, ih, System.run_succ]
      by_cases hp : p = (sched n).1
      · rw [if_pos hp.symm, if_pos hp.symm, hp, System.next_pc_self, List.append_assoc,
          List.append_assoc]
        exact congrArg _ he.pending
      · rw [if_neg (Ne.symm hp), if_neg (Ne.symm hp), System.next_pc_ne _ _ hp,
          List.append_nil, List.append_nil]

omit [DecidableEq ι] in
theorem handled_perm (H : List (ι × Event)) :
    (handled H).Perm (orders Event.asMatched H ++ rested H) := by
  induction H with
  | nil => exact List.Perm.refl _
  | cons e H ih =>
      obtain ⟨p, e⟩ := e
      cases e with
      | matched o => exact ih.cons o
      | rested o => exact (ih.cons o).trans List.perm_middle.symm
      | _ => exact ih

/-- With no order in hand, the orders popped are those that have been matched or have
rested. -/
theorem popped_perm (hidle : ∀ p, ((system Z ι buffer).run sched n).pc p = .idle) :
    (popped ((system Z ι buffer).history sched n)).Perm
      (orders Event.asMatched ((system Z ι buffer).history sched n)
        ++ rested ((system Z ι buffer).history sched n)) := by
  refine List.Perm.trans (perm_of_ofThread fun p => ?_)
    (handled_perm ((system Z ι buffer).history sched n))
  refine (popped_of_thread p).trans ?_
  rw [hidle p]
  exact List.append_nil _

end Threads

/-! ## The queue in a run -/

section Run

variable {ι : Type*} [DecidableEq ι] {Z : PowSize} {buffer : ℕ → Order}
  {sched : ℕ → ι × Choice Op} {n : ℕ}

theorem queueSched_fst (i : ℕ) : (queueSched Z buffer sched i).1 = (sched i).1 := rfl

theorem queue_pc (i : ℕ) (p : ι) :
    (((system Z ι buffer).run sched i).pc p).queue
      = ((Ring.system Z id ι buffer).run (queueSched Z buffer sched) i).pc p :=
  congrFun (congrArg Config.pc (run_ring Z buffer sched i)) p

theorem queue_mem (i : ℕ) : ((system Z ι buffer).run sched i).mem.queue
    = ((Ring.system Z id ι buffer).run (queueSched Z buffer sched) i).mem :=
  congrArg Config.mem (run_ring Z buffer sched i)

theorem ticketed_mono {i : ℕ} (hi : i ≤ n) :
    ticketed Z buffer sched i <+: ticketed Z buffer sched n := by
  obtain ⟨K, hK⟩ := (Ring.system Z id ι buffer).history_mono (queueSched Z buffer sched) hi
  exact ⟨Ring.pushed K, by rw [ticketed, ticketed, ringHistory, ringHistory, ← hK,
    Ring.pushed_append]⟩

section Bounded

variable (hn : (ticketed Z buffer sched n).length < 2 ^ 63)
include hn

/-- A producer with a ticket is submitting the order of the ticket. -/
theorem ticketed_of_publishing {i : ℕ} (hi : i ≤ n) {p : ι} {t : ℕ} {o : Order}
    (h : (((system Z ι buffer).run sched i).pc p).queue.publishing = some (t, o)) :
    (ticketed Z buffer sched n)[t]? = some o := by
  rw [queue_pc] at h
  obtain ⟨K, hK⟩ := @ticketed_mono ι _ Z buffer sched n i hi
  have hitem : (ticketed Z buffer sched i)[t]? = some o :=
    (Ring.pushes_run (Ring.pushes_lt hi hn)).item h
  rw [← hK, List.getElem?_append_left (List.getElem?_eq_some_iff.mp hitem).1, hitem]

theorem local_run {i : ℕ} (hi : i ≤ n) (p : ι) :
    (((system Z ι buffer).run sched i).pc p).Local := by
  induction i generalizing p with
  | zero => exact trivial
  | succ i ih =>
      by_cases hp : p = (sched i).1
      · rw [hp, System.run_succ, System.next_pc_self]
        exact (prog_reads _ (ih (by omega) _)
          (fun t o => ticketed_of_publishing hn (by omega)) _).2
      · rw [System.run_succ, System.next_pc_ne _ _ hp]
        exact ih (by omega) p

theorem reads_run {i : ℕ} (hi : i < n) :
    Reads (ticketed Z buffer sched n)
      ((system Z ι buffer).outcome ((system Z ι buffer).run sched i) (sched i)).event
      ((Ring.system Z id ι buffer).outcome
        ((Ring.system Z id ι buffer).run (queueSched Z buffer sched) i)
        (queueSched Z buffer sched i)).event := by
  rw [← run_ring]
  exact (prog_reads _ (local_run hn (by omega) _)
    (fun t o => ticketed_of_publishing hn (by omega)) _).1

/-- The orders of a thread that have been accepted are those of the tickets it has
published. -/
theorem accepted_of_thread (p : ι) :
    orders Event.asAccepted (ofThread p ((system Z ι buffer).history sched n))
      = (Ring.published (ofThread p (ringHistory Z buffer sched n))).filterMap
        ((ticketed Z buffer sched n)[·]?) := by
  rw [Ring.published, List.filterMap_filterMap]
  exact System.filterMap_ofThread_congr _ (fun _ _ => queueSched_fst _)
    (fun i hi => (reads_run hn hi).accepted) p

/-- The orders a thread has popped are those the ring has delivered to it. -/
theorem popped_of_delivered (p : ι) :
    orders Event.asPopped (ofThread p ((system Z ι buffer).history sched n))
      = (Ring.delivered (ofThread p (ringHistory Z buffer sched n))).map Prod.snd := by
  rw [Ring.delivered, List.map_filterMap]
  exact System.filterMap_ofThread_congr _ (fun _ _ => queueSched_fst _)
    (fun i hi => (reads_run hn hi).popped) p

theorem popped_sublist (p : ι) :
    (orders Event.asPopped (ofThread p ((system Z ι buffer).history sched n))).Sublist
      (ticketed Z buffer sched n) := by
  rw [popped_of_delivered hn]
  exact (Ring.delivered_sublist p hn).trans (List.take_sublist _ _)

theorem accepted_sublist (p : ι) :
    (orders Event.asAccepted (ofThread p ((system Z ι buffer).history sched n))).Sublist
      (ticketed Z buffer sched n) := by
  rw [accepted_of_thread hn]
  exact Ring.published_sublist p hn

section Idle

variable (hidle : ∀ p, ((system Z ι buffer).run sched n).pc p = .idle)
include hidle

omit hn in
theorem queue_idle (p : ι) :
    ((Ring.system Z id ι buffer).run (queueSched Z buffer sched) n).pc p = .idle := by
  rw [← queue_pc, hidle p]
  rfl

/-- The accepted orders are those that have been given a ticket. -/
theorem accepted_perm :
    (orders Event.asAccepted ((system Z ι buffer).history sched n)).Perm
      (ticketed Z buffer sched n) := by
  have hperm : (orders Event.asAccepted ((system Z ι buffer).history sched n)).Perm
      ((ringHistory Z buffer sched n).filterMap fun e =>
        e.2.asPushDone.bind ((ticketed Z buffer sched n)[·]?)) := by
    refine perm_of_ofThread fun p => ?_
    have h := accepted_of_thread (Z := Z) hn p
    rwa [Ring.published, List.filterMap_filterMap] at h
  rw [← List.filterMap_filterMap] at hperm
  refine hperm.trans ?_
  have hpub : (Ring.published (ringHistory Z buffer sched n)).Perm
      (List.range (ticketed Z buffer sched n).length) :=
    Ring.published_perm hn (queue_idle hidle)
  have hitems := hpub.filterMap ((ticketed Z buffer sched n)[·]?)
  rwa [filterMap_getElem?_range, List.take_length] at hitems

omit hidle in
theorem popped_delivered_perm :
    (popped ((system Z ι buffer).history sched n)).Perm
      ((Ring.delivered (ringHistory Z buffer sched n)).map Prod.snd) := by
  rw [Ring.delivered, List.map_filterMap]
  refine perm_of_ofThread fun p => ?_
  have h := popped_of_delivered (Z := Z) hn p
  rwa [Ring.delivered, List.map_filterMap] at h

theorem length_popped : (popped ((system Z ι buffer).history sched n)).length
    = ((system Z ι buffer).run sched n).mem.queue.tail := by
  rw [(popped_delivered_perm hn).length_eq, List.length_map, queue_mem]
  exact Ring.length_delivered hn (queue_idle hidle)

/-- The ring holds the orders that have a ticket and have not been popped. -/
theorem represents_of_idle :
    Represents Z ((system Z ι buffer).run sched n).mem
      ((ticketed Z buffer sched n).drop (popped ((system Z ι buffer).history sched n)).length,
        ((system Z ι buffer).run sched n).mem.book) := by
  refine ⟨⟨((system Z ι buffer).run sched n).mem.queue.tail, ?_⟩, rfl⟩
  rw [length_popped hn hidle, queue_mem]
  exact Ring.stored_of_idle hn (queue_idle hidle)

theorem ticketed_perm : (ticketed Z buffer sched n).Perm
    (popped ((system Z ι buffer).history sched n) ++ (ticketed Z buffer sched n).drop
      (popped ((system Z ι buffer).history sched n)).length) := by
  have hdelivered : ((Ring.delivered (ringHistory Z buffer sched n)).map Prod.snd).Perm
      ((ticketed Z buffer sched n).take ((system Z ι buffer).run sched n).mem.queue.tail) := by
    rw [queue_mem]
    exact Ring.delivered_perm hn (queue_idle hidle)
  rw [← length_popped hn hidle] at hdelivered
  have hperm := ((popped_delivered_perm hn).trans hdelivered).append_right
    ((ticketed Z buffer sched n).drop (popped ((system Z ι buffer).history sched n)).length)
  rw [List.take_append_drop] at hperm
  exact hperm.symm

end Idle

end Bounded

end Run

/-- **No order is lost or processed twice.** In every run in which fewer than `2 ^ 63` orders
are given a ticket, with `A` these orders in the order of their tickets:

1. every thread has matched or let rest the orders it has popped, in the order in which it
   popped them, but for those in its hands; they come in the order of `A`, and so do the
   orders that `submit_order` has accepted from it;
2. whenever no call is in flight, the accepted orders are those of `A`, and with `q` what is
   left of `A` without as many of the first as have been popped, they are the orders that have
   been matched, those that have rested and those of `q`, each as often; and the queue holds
   `q`. -/
theorem orders_conserved [DecidableEq ι] (Z : PowSize) (buffer : ℕ → Order)
    (sched : ℕ → ι × Choice Op) (n : ℕ) (hn : (ticketed Z buffer sched n).length < 2 ^ 63) :
    let c := (system Z ι buffer).run sched n
    let H := (system Z ι buffer).history sched n
    let A := ticketed Z buffer sched n
    (∀ p, orders Event.asPopped (ofThread p H)
          = orders Event.asHandled (ofThread p H) ++ (c.pc p).pending
        ∧ (orders Event.asPopped (ofThread p H)).Sublist A
        ∧ (orders Event.asAccepted (ofThread p H)).Sublist A)
      ∧ ((∀ p, c.pc p = .idle) → let q := A.drop (popped H).length
        (orders Event.asAccepted H).Perm A
          ∧ A.Perm (orders Event.asMatched H ++ rested H ++ q)
          ∧ Represents Z c.mem (q, c.mem.book)) := by
  intro c H A
  refine ⟨fun p => ⟨popped_of_thread p, popped_sublist hn p, accepted_sublist hn p⟩,
    fun hidle => ⟨accepted_perm hn hidle, ?_, represents_of_idle hn hidle⟩⟩
  exact (ticketed_perm hn hidle).trans ((popped_perm hidle).append_right _)

/-- Two threads submit an order each, and the one that is first to read the head of the queue
is second to take a ticket; the first order is then processed, and rests. -/
def submitTogetherSteps : List (Bool × Choice Op) :=
  [(false, .call (.submit ⟨.sell, 10, 5⟩)), (true, .call (.submit ⟨.buy, 10, 3⟩)),
      (false, .go), (true, .go), (false, .go), (true, .go), (true, .go)]
    ++ List.replicate 5 (false, .go) ++ List.replicate 2 (true, .go)
    ++ (false, .call (.process 1)) :: List.replicate 11 (false, .go)

def submitTogether : ℕ → Bool × Choice Op := fun i => submitTogetherSteps.getD i (true, .go)

theorem ticketed_submitTogether :
    ticketed Ring.twoCells (fun _ => ⟨.buy, 0, 0⟩) submitTogether 26
      = [⟨.buy, 10, 3⟩, ⟨.sell, 10, 5⟩] := by
  decide +kernel

theorem ticketed_submitTogether_lt :
    (ticketed Ring.twoCells (fun _ => ⟨.buy, 0, 0⟩) submitTogether 26).length < 2 ^ 63 := by
  rw [ticketed_submitTogether]
  decide

theorem length_popped_submitTogether :
    (popped ((smallBook Bool).history submitTogether 26)).length = 1 := by
  decide +kernel

theorem orders_conserved_submitTogether :
    let H := (smallBook Bool).history submitTogether 26
    (orders Event.asAccepted H).Perm [⟨.buy, 10, 3⟩, ⟨.sell, 10, 5⟩]
      ∧ Represents Ring.twoCells ((smallBook Bool).run submitTogether 26).mem
        ([⟨.sell, 10, 5⟩], ((smallBook Bool).run submitTogether 26).mem.book) := by
  have h := (orders_conserved Ring.twoCells (fun _ => ⟨.buy, 0, 0⟩) submitTogether 26
    ticketed_submitTogether_lt).2 (by decide +kernel)
  rw [ticketed_submitTogether] at h
  obtain ⟨haccepted, -, hrep⟩ := h
  rw [show (popped _).length = 1 from length_popped_submitTogether] at hrep
  exact ⟨haccepted, hrep⟩

/-- **Draining after any interleaving.** After a run of any threads in which fewer than
`2 ^ 63` orders are given a ticket and at the end of which no call is in flight, let one
thread make any calls, one after another. Every call returns; of more calls of
`process_orders` with room for an order than orders are in the queue or have been accepted
since, one returns 0; and when one has, the book is that of the run with the orders of its
queue, in the order of their tickets, and then those accepted since placed in it one by
one. -/
theorem drain_after_run [DecidableEq ι] (Z : PowSize) (buffer : ℕ → Order)
    (sched : ℕ → ι × Choice Op) (n : ℕ) (hn : (ticketed Z buffer sched n).length < 2 ^ 63)
    (hidle : ∀ p, ((system Z ι buffer).run sched n).pc p = .idle) {m : Mem}
    {L : List (Call Mem Op Event)}
    (hlog : CallLog (Ends (prog Z) .idle) start ((system Z ι buffer).run sched n).mem m L) :
    let q := (ticketed Z buffer sched n).drop
      (popped ((system Z ι buffer).history sched n)).length
    (∀ op, Returns (prog Z) .idle m (start op))
      ∧ (∀ L₁ D, L = L₁ ++ D →
        (∀ k ∈ D, ∃ batchSize, 1 ≤ batchSize ∧ k.op = .process batchSize) →
        (q ++ accepted L₁).length < D.length → ∃ k ∈ D, returnOf k = some (.processed 0))
      ∧ (Drained L → (processed L).sum = (q ++ accepted L).length
        ∧ m.book = (q ++ accepted L).foldl Book.place
          ((system Z ι buffer).run sched n).mem.book) := by
  intro q
  have h₀ := represents_of_idle hn hidle
  obtain ⟨done, q', hrep, -⟩ := h₀.placed hlog
  refine ⟨returns hrep, fun L₁ D hL hD hlt => ?_, fun hdrained => h₀.drained hdrained hlog⟩
  subst hL
  exact h₀.exists_zero hlog hD hlt

/-- The order left in that run is matched in the first of two more calls. -/
theorem drain_after_run_submitTogether :
    ∃ m L, CallLog (Ends (prog Ring.twoCells) .idle) start
        ((smallBook Bool).run submitTogether 26).mem m L
      ∧ L.map (·.op) = [.process 5, .process 5] ∧ m.book.matched = 1 := by
  have h := fun {m L} => drain_after_run Ring.twoCells (fun _ => ⟨.buy, 0, 0⟩) submitTogether 26
    ticketed_submitTogether_lt (by decide +kernel) (m := m) (L := L)
  obtain ⟨m, L, hlog, hops⟩ := exists_callLog (fun m L hlog op => ((h hlog).1 op).ends)
    [.process 5, .process 5]
  have hrep : Represents Ring.twoCells ((smallBook Bool).run submitTogether 26).mem
      ([⟨.sell, 10, 5⟩], ((smallBook Bool).run submitTogether 26).mem.book) := by
    have hrep := represents_of_idle ticketed_submitTogether_lt (by decide +kernel)
    rwa [ticketed_submitTogether, length_popped_submitTogether] at hrep
  have hreturns : L.map returnOf = _ :=
    (hlog.refines (exchange Ring.twoCells.size) (Represents Ring.twoCells) List.getLast? some
      answers_of_ends hrep).2
  have hdrained : Drained L := by
    refine drained_of_last (Nat.le_of_ble_eq_true rfl) (by rw [hops]; rfl) ?_
    rw [hreturns, hops]
    rfl
  have haccepted : accepted L = [] := by
    rw [accepted_eq, hreturns, hops]
    rfl
  have hbook : m.book.matched = _ := congrArg Book.matched ((h hlog).2.2 hdrained).2
  refine ⟨m, L, hlog, hops, hbook.trans ?_⟩
  rw [ticketed_submitTogether, haccepted, show (popped _).length = 1 from
    length_popped_submitTogether]
  decide +kernel

end OrderBook

end Lockless
