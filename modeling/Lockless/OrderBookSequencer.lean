import Lockless.OrderBookQueue
import Lockless.RingConsumer

/-!
# One processor, any number of submitters

When one thread makes all the calls of `process_orders`, the ring is a sequencer: it has a
single consumer, so the orders come out in the order of their tickets, and the book is what
`process_single_order` makes of them one by one, while other threads go on submitting.
Neither the batches nor the interleaving has a part in it; all that the submitters decide
among themselves is who is given the next ticket.
-/

namespace Lockless

namespace OrderBook

/-! ## The book of the processor -/

/-- Of the orders popped, those that are not in the hands of the processor have been placed
in the book, one by one. -/
def Sequenced (P : List Order) (B : Book) : PC → Prop
  | .popBatch _ orders _ => ∃ done, P = done ++ orders ∧ B = done.foldl Book.place Book.init
  | .process _ order rest opc =>
      ∃ done, P = done ++ order :: rest ∧ Midway (done.foldl Book.place Book.init) order B opc
  | _ => B = P.foldl Book.place Book.init

theorem Sequenced.next {done rest : List Order} {B : Book}
    (hB : B = done.foldl Book.place Book.init) (count : ℕ) :
    Sequenced (done ++ rest) B (nextOrder count rest) := by
  cases rest with
  | nil =>
      rw [List.append_nil]
      exact hB
  | cons order rest => exact ⟨done, rfl, hB⟩

/-- A thread that is not at an order leaves the book alone. -/
theorem Effect.sequenced {m m' : Mem} {pc pc' : PC} {ev : Option Event}
    (he : Effect m pc m' pc' ev) {P : List Order} (h : Sequenced P m.book pc)
    (hpc : ∀ count order rest opc, pc ≠ .process count order rest opc) :
    Sequenced (P ++ (ev.bind Event.asPopped).toList) m'.book pc' := by
  cases he with
  | stay | submitAccess | accepted | refused | popAccess =>
      show Sequenced (P ++ []) _ _
      rw [List.append_nil]
      exact h
  | start op =>
      show Sequenced (P ++ []) _ _
      rw [List.append_nil]
      cases op with
      | submit order => exact h
      | process batchSize => exact ⟨P, (List.append_nil P).symm, h⟩
  | popped limit orders rpc queue rpc' order =>
      obtain ⟨done, rfl, hB⟩ := h
      exact ⟨done, List.append_assoc _ _ _, hB⟩
  | batchEnd limit orders rpc queue =>
      obtain ⟨done, rfl, hB⟩ := h
      rw [returned_bind fun _ => rfl, Option.toList_none, List.append_nil]
      exact .next hB orders.length
  | _ => exact absurd rfl (hpc _ _ _ _)

/-- A thread that is not processing orders moves nothing but the queue. -/
theorem Effect.book_of_not_processing {m m' : Mem} {pc pc' : PC} {ev : Option Event}
    (he : Effect m pc m' pc' ev) (h : ¬ pc.Processing) : m'.book = m.book := by
  cases he with
  | stay | start | submitAccess | accepted | refused => rfl
  | _ => exact absurd trivial h

theorem Effect.popped_of_process {m m' : Mem} {count : ℕ} {order : Order} {rest : List Order}
    {opc : OrderPC} {pc' : PC} {ev : Option Event}
    (he : Effect m (.process count order rest opc) m' pc' ev) :
    ev.bind Event.asPopped = none := by
  cases he with
  | subTotal | settle | raise => exact returned_bind (fun _ => rfl) _ _
  | _ => rfl

theorem Sequenced.step {Z : PowSize} {m : Mem} {pc : PC} {P : List Order}
    (h : Sequenced P m.book pc) (ch : Choice Op) :
    Sequenced (P ++ ((prog Z m pc ch).event.bind Event.asPopped).toList)
      (prog Z m pc ch).mem.book (prog Z m pc ch).pc := by
  have he := prog_effect (Z := Z) m pc ch
  cases pc with
  | process count order rest opc =>
      obtain ⟨done, rfl, hmid⟩ := h
      have hplace : ∀ spurious, Sequenced (done ++ order :: rest)
          (processSingleOrder m spurious count order rest opc).mem.book
          (processSingleOrder m spurious count order rest opc).pc := by
        intro spurious
        have hstep : Places _ count order rest _ _ _
            (processSingleOrder m spurious count order rest opc) := hmid.step spurious
        rcases hstep with ⟨opc', hpc, hmid', -⟩ | ⟨m', ho, hbook, -⟩
        · rw [hpc]
          exact ⟨done, rfl, hmid'⟩
        · rw [ho, List.append_cons]
          refine .next ?_ count
          show m'.book = _
          rw [hbook, List.foldl_append]
          rfl
      rw [he.popped_of_process, Option.toList_none, List.append_nil]
      cases ch with
      | call op => exact ⟨done, rfl, hmid⟩
      | go => exact hplace false
      | fault => exact hplace true
  | _ => exact he.sequenced h fun _ _ _ _ hpc => by cases hpc

/-- Between two orders it has placed all those that are not pending. -/
theorem Sequenced.book_eq {P done : List Order} {B : Book} {pc : PC} (h : Sequenced P B pc)
    (hbetween : pc.Between) (hP : P = done ++ pc.pending) :
    B = done.foldl Book.place Book.init := by
  cases pc with
  | idle | submit =>
      have hP : P = done ++ [] := hP
      rw [List.append_nil] at hP
      exact hP ▸ h
  | popBatch limit orders rpc =>
      obtain ⟨done', hP', hB⟩ := h
      rwa [List.append_cancel_right (hP.symm.trans hP')]
  | process count order rest opc =>
      obtain rfl : opc = .loadOpposite := hbetween
      obtain ⟨done', hP', hB⟩ := h
      rwa [List.append_cancel_right (hP.symm.trans hP')]

/-! ## Runs -/

section Run

variable {ι : Type*} [DecidableEq ι] {Z : PowSize} {buffer : ℕ → Order}
  {sched : ℕ → ι × Choice Op} {p : ι}

theorem sequenced_run (hone : SingleProcessor p sched) (n : ℕ) :
    Sequenced (popped ((system Z ι buffer).history sched n))
      ((system Z ι buffer).run sched n).mem.book (((system Z ι buffer).run sched n).pc p) := by
  induction n with
  | zero => rfl
  | succ n ih =>
      rw [popped, System.history_succ, System.emitted, orders_append, orders_step,
        System.run_succ]
      by_cases hp : p = (sched n).1
      · rw [hp] at ih ⊢
        rw [System.next_pc_self]
        exact ih.step (sched n).2
      · have he : Effect _ _ ((system Z ι buffer).outcome ((system Z ι buffer).run sched n)
          (sched n)).mem _ ((system Z ι buffer).outcome ((system Z ι buffer).run sched n)
            (sched n)).event := prog_effect _ _ (sched n).2
        have haside : ¬ (((system Z ι buffer).run sched n).pc (sched n).1).Processing :=
          not_processing_of_ne hone n (Ne.symm hp)
        obtain ⟨-, hpopped, -⟩ := he.aside haside
        rw [System.next_pc_ne _ _ hp, hpopped, Option.toList_none, List.append_nil]
        show Sequenced _ ((system Z ι buffer).outcome _ (sched n)).mem.book _
        rw [he.book_of_not_processing haside]
        exact ih

/-- The processor is the only consumer of the ring. -/
theorem singleConsumer_queue (hone : SingleProcessor p sched) :
    Ring.SingleConsumer (Ring.system Z id ι buffer) p (queueSched Z buffer sched) := by
  rintro i q ⟨hcall, hidle⟩
  obtain rfl : (sched i).1 = q := congrArg Prod.fst hcall
  have hchoice : queueChoice (((system Z ι buffer).run sched i).pc (sched i).1) (sched i).2
      = .call .tryPop := congrArg Prod.snd hcall
  rw [← queue_pc] at hidle
  suffices h : (((system Z ι buffer).run sched i).pc (sched i).1).Processing from
    eq_of_processing hone h
  generalize ((system Z ι buffer).run sched i).pc (sched i).1 = pc at hchoice hidle ⊢
  cases pc with
  | idle =>
      cases hch : (sched i).2 with
      | call op => cases op <;> simp [hch, queueChoice] at hchoice
      | go | fault => simp [hch, queueChoice] at hchoice
  | submit order rpc =>
      obtain rfl : rpc = .idle := hidle
      cases hch : (sched i).2 <;> simp [hch, queueChoice, Ring.rest, Choice.access] at hchoice
  | popBatch => exact trivial
  | process => exact trivial

/-- The orders are popped in the order of their tickets. -/
theorem popped_eq_take (hone : SingleProcessor p sched) {n : ℕ}
    (hn : (ticketed Z buffer sched n).length < 2 ^ 63) :
    popped ((system Z ι buffer).history sched n)
      = (ticketed Z buffer sched n).take
        (popped ((system Z ι buffer).history sched n)).length := by
  have hqueue : Ring.SingleConsumer (Ring.system Z id ι buffer) p (queueSched Z buffer sched) :=
    singleConsumer_queue hone
  have hpopped : popped ((system Z ι buffer).history sched n)
      = (Ring.delivered (ringHistory Z buffer sched n)).map Prod.snd := by
    have hthread := popped_of_delivered hn p
    rw [orders, filterMap_ofThread_of_others, Ring.delivered, filterMap_ofThread_of_others]
      at hthread
    · exact hthread
    · rintro ⟨q, e⟩ he hq
      obtain ⟨i, -, hf⟩ := (System.mem_history _).mp he
      have hnot := Ring.not_popping_of_ne hqueue i hq
      cases e with
      | popDone t o =>
          rw [((Ring.system Z id ι buffer).effect_of_fires Ring.prog_effect hf).of_popDone] at hnot
          exact absurd trivial hnot
      | _ => rfl
    · rintro ⟨q, e⟩ he hq
      obtain ⟨i, -, hf⟩ := (System.mem_history _).mp he
      exact (((system Z ι buffer).effect_of_fires prog_effect hf).aside
        (not_processing_of_ne hone i hq)).2.1
  rw [hpopped, List.length_map]
  exact Ring.delivered_eq_take hqueue hn

end Run

/-- **A single processor places the orders in the order of their tickets.** In every run with
fewer than `2 ^ 63` orders given a ticket in which only thread `p` calls `process_orders`,
with `A` these orders in the order of their tickets, `p` has popped the first ones of `A`, and
of these it has dealt with all but those in its hands, in the same order. Whenever it is not
inside an order, the book is the empty one with the orders it has dealt with placed in it one
by one. -/
theorem single_processor_sequenced [DecidableEq ι] (Z : PowSize) (buffer : ℕ → Order)
    (sched : ℕ → ι × Choice Op) (n : ℕ) (p : ι) (hone : SingleProcessor p sched)
    (hn : (ticketed Z buffer sched n).length < 2 ^ 63) :
    let c := (system Z ι buffer).run sched n
    let H := (system Z ι buffer).history sched n
    popped H = (ticketed Z buffer sched n).take (popped H).length
      ∧ popped H = handled H ++ (c.pc p).pending
      ∧ ((c.pc p).Between → c.mem.book = (handled H).foldl Book.place Book.init) := by
  intro c H
  have hhandled : popped H = handled H ++ (c.pc p).pending := popped_eq_handled_append hone n
  exact ⟨popped_eq_take hone hn, hhandled, fun hbetween =>
    (sequenced_run hone n).book_eq hbetween hhandled⟩

theorem singleProcessor_submitTogether : SingleProcessor false submitTogether := by
  intro i q batchSize h
  have hsteps : ∀ a ∈ submitTogetherSteps,
      a.1 = true → a.2 = .go ∨ a.2 = .call (.submit ⟨.buy, 10, 3⟩) := by decide
  have hthread : (submitTogether i).1 = true →
      (submitTogether i).2 = .go ∨ (submitTogether i).2 = .call (.submit ⟨.buy, 10, 3⟩) :=
    of_getD hsteps (fun _ => Or.inl rfl) i
  cases q with
  | false => rfl
  | true =>
      rw [h] at hthread
      rcases hthread rfl with hgo | hsubmit
      · cases hgo
      · cases hsubmit

theorem single_processor_sequenced_submitTogether :
    handled ((smallBook Bool).history submitTogether 26) = [⟨.buy, 10, 3⟩]
      ∧ ((smallBook Bool).run submitTogether 26).mem.book
        = Book.place Book.init ⟨.buy, 10, 3⟩ := by
  obtain ⟨hpopped, hhandled, hbook⟩ := single_processor_sequenced Ring.twoCells
    (fun _ => ⟨.buy, 0, 0⟩) submitTogether 26 false singleProcessor_submitTogether
    ticketed_submitTogether_lt
  have hidle : ((smallBook Bool).run submitTogether 26).pc false = .idle := by decide +kernel
  rw [show (popped _).length = 1 from length_popped_submitTogether, ticketed_submitTogether]
    at hpopped
  have hhandled : handled ((smallBook Bool).history submitTogether 26) = [⟨.buy, 10, 3⟩] := by
    have hall := hhandled.symm.trans hpopped
    rw [show ((system Ring.twoCells Bool fun _ => ⟨.buy, 0, 0⟩).run submitTogether 26).pc false
      = .idle from hidle] at hall
    exact (List.append_nil _).symm.trans hall
  refine ⟨hhandled, ?_⟩
  have hplaced := hbook (by
    show PC.Between (((smallBook Bool).run submitTogether 26).pc false)
    rw [hidle]
    exact trivial)
  exact hplaced.trans (congrArg _ hhandled)

end OrderBook

end Lockless
