import Mathlib.Order.Bounds.Basic
import Lockless.OrderBook
import Lockless.RingTickets

/-!
# Best prices of the order book

A thread whose order rests raises the best price of its side until it is at
least as good as the price of the order: the value a failed compare-exchange
brings back is compared again. So the price of every order that has rested is
reached by the best price, or a thread is still on its way to raise it, and
the best price is always that of such an order or the initial one.

Every order popped is matched or rests. The counter of the matched ones has 64
bits: `countedOrders` is a run in which it wraps around.
-/

namespace Lockless

namespace OrderBook

variable {ι : Type*}

namespace Side

variable {side : Side} {a b c : ℕ}

theorem Improves.trans (h : side.Improves a b) (h' : side.Improves b c) :
    side.Improves a c := by
  cases side with
  | buy => exact Nat.lt_trans h' h
  | sell => exact Nat.lt_trans h h'

theorem not_improves_self (side : Side) (a : ℕ) : ¬ side.Improves a a := by
  cases side <;> exact Nat.lt_irrefl a

end Side

/-! ## Orders on their way to the best price -/

/-- The order that has rested and whose price a thread compares with the best
one. -/
def PC.settling : PC → Option Order
  | .process _ order _ .loadBest => some order
  | .process _ order _ (.casBest _) => some order
  | _ => none

@[simp] theorem nextOrder_settling (count : ℕ) (rest : List Order) :
    (nextOrder count rest).settling = none := by
  cases rest <;> rfl

theorem settling_of_opc {count : ℕ} {order : Order} {rest : List Order} {opc : OrderPC}
    (h : opc = .loadBest ∨ ∃ current, opc = .casBest current) :
    (PC.process count order rest opc).settling = some order := by
  rcases h with rfl | ⟨current, rfl⟩ <;> rfl

structure Prices (c : Config ι Mem PC) (H : List (ι × Event)) : Prop where
  attained : ∀ s, c.mem.best s = s.noBest
    ∨ ∃ o ∈ rested H, o.side = s ∧ o.price = c.mem.best s
  reached : ∀ {o}, o ∈ rested H → ¬ o.side.Improves o.price (c.mem.best o.side)
    ∨ ∃ p o', (c.pc p).settling = some o' ∧ o'.side = o.side ∧ o'.price = o.price
  pending : ∀ {p o}, (c.pc p).settling = some o → o ∈ rested H
  checked : ∀ {p count o rest current},
    c.pc p = .process count o rest (.casBest current) → o.side.Improves o.price current

/-- What a step does to the prices: nothing, or an order rests, or is found no
better than the best price, or becomes the best price. -/
theorem Effect.prices {m m' : Mem} {pc pc' : PC} {ev : Option Event}
    (he : Effect m pc m' pc' ev) :
    (m'.best = m.best ∧ pc'.settling = pc.settling ∧ ev.bind Event.asRested = none)
      ∨ (∃ o, m'.best = m.best ∧ pc.settling = none ∧ pc'.settling = some o
        ∧ ev.bind Event.asRested = some o)
      ∨ (∃ o, m'.best = m.best ∧ pc.settling = some o ∧ pc'.settling = none
        ∧ ¬ o.side.Improves o.price (m.best o.side) ∧ ev.bind Event.asRested = none)
      ∨ ∃ count o rest, pc = .process count o rest (.casBest (m.best o.side))
        ∧ m'.best = Function.update m.best o.side o.price ∧ pc'.settling = none
        ∧ ev.bind Event.asRested = none := by
  have hret := returned_bind (f := Event.asRested) fun _ => rfl
  cases he with
  | start op => cases op <;> exact Or.inl ⟨rfl, rfl, rfl⟩
  | batchEnd => exact Or.inl ⟨rfl, nextOrder_settling _ _, hret _ _⟩
  | subTotal => exact Or.inl ⟨rfl, nextOrder_settling _ _, hret _ _⟩
  | rested count order rest => exact Or.inr (Or.inl ⟨order, rfl, rfl, rfl, rfl⟩)
  | improve count order rest opc hopc h =>
      exact Or.inl ⟨rfl, (settling_of_opc hopc).symm, rfl⟩
  | settle count order rest opc hopc h =>
      exact Or.inr (Or.inr (Or.inl ⟨order, rfl, settling_of_opc hopc, nextOrder_settling _ _,
        h, hret _ _⟩))
  | raise count order rest =>
      exact Or.inr (Or.inr (Or.inr ⟨count, order, rest, rfl, rfl, nextOrder_settling _ _,
        hret _ _⟩))
  | _ => exact Or.inl ⟨rfl, rfl, rfl⟩

theorem Effect.casBest {m m' : Mem} {pc pc' : PC} {ev : Option Event}
    (he : Effect m pc m' pc' ev) {count : ℕ} {o : Order} {rest : List Order} {current : ℕ}
    (hpc : pc' = .process count o rest (.casBest current)) :
    pc = pc' ∨ o.side.Improves o.price current := by
  cases he with
  | stay => exact Or.inl rfl
  | start op => cases op <;> cases hpc
  | improve count order rest opc hopc h =>
      cases hpc
      exact Or.inr h
  | batchEnd | subTotal | settle | raise =>
      unfold nextOrder at hpc
      split at hpc <;> cases hpc
  | _ => cases hpc

section Step

variable [DecidableEq ι] {c : Config ι Mem PC} {H : List (ι × Event)} {p : ι} {m : Mem}
  {pc : PC} {ev : Option Event}

omit [DecidableEq ι] in
theorem mem_rested_step {o : Order} :
    o ∈ rested (H ++ (ev.map (Prod.mk p)).toList)
      ↔ o ∈ rested H ∨ ev.bind Event.asRested = some o := by
  rw [rested, orders_append, orders_step, List.mem_append, Option.mem_toList]
  rfl

/-- A thread that is on its way to the best price stays so in a step of
another. -/
theorem settling_ne {q : ι} {o : Order} (hqp : q ≠ p) (h : (c.pc q).settling = some o) :
    (Function.update c.pc p pc q).settling = some o := by
  rwa [Function.update_of_ne hqp]

theorem settling_update {q : ι} {o : Order}
    (h : (Function.update c.pc p pc q).settling = some o) :
    (q = p ∧ pc.settling = some o) ∨ (q ≠ p ∧ (c.pc q).settling = some o) :=
  of_update (P := fun x => PC.settling x = some o) h

theorem Prices.checked_step (h : Prices c H) (he : Effect c.mem (c.pc p) m pc ev) {q : ι}
    {count : ℕ} {o : Order} {rest : List Order} {current : ℕ}
    (hq : Function.update c.pc p pc q = .process count o rest (.casBest current)) :
    o.side.Improves o.price current := by
  rcases of_update (P := fun x => x = PC.process count o rest (.casBest current)) hq
    with ⟨rfl, hnew⟩ | ⟨-, hold⟩
  · rcases he.casBest hnew with hsame | himp
    · exact h.checked (hsame.trans hnew)
    · exact himp
  · exact h.checked hold

/-- A step that leaves the prices as they are. -/
theorem Prices.quiet (h : Prices c H) (he : Effect c.mem (c.pc p) m pc ev)
    (hbest : m.best = c.mem.best) (hset : pc.settling = (c.pc p).settling)
    (hev : ev.bind Event.asRested = none) :
    Prices ⟨m, Function.update c.pc p pc⟩ (H ++ (ev.map (Prod.mk p)).toList) := by
  have hmem : ∀ {o}, o ∈ rested (H ++ (ev.map (Prod.mk p)).toList) ↔ o ∈ rested H := by
    intro o
    rw [mem_rested_step, hev]
    simp
  have hall : ∀ q, (Function.update c.pc p pc q).settling = (c.pc q).settling := by
    intro q
    by_cases hqp : q = p
    · rw [hqp, Function.update_self, hset]
    · rw [Function.update_of_ne hqp]
  refine ⟨fun s => ?_, fun ho => ?_, fun hq => ?_, h.checked_step he⟩
  · simp only [hmem, hbest]
    exact h.attained s
  · simp only [hall, hbest]
    exact h.reached (hmem.mp ho)
  · rw [hall] at hq
    exact hmem.mpr (h.pending hq)

/-- An order rests. -/
theorem Prices.rests (h : Prices c H) (he : Effect c.mem (c.pc p) m pc ev) {o : Order}
    (hbest : m.best = c.mem.best) (hold : (c.pc p).settling = none)
    (hset : pc.settling = some o) (hev : ev.bind Event.asRested = some o) :
    Prices ⟨m, Function.update c.pc p pc⟩ (H ++ (ev.map (Prod.mk p)).toList) := by
  refine ⟨fun s => ?_, fun {x} hx => ?_, fun {q x} hq => ?_, h.checked_step he⟩
  · simp only [hbest]
    rcases h.attained s with hs | ⟨x, hx, hxs⟩
    · exact Or.inl hs
    · exact Or.inr ⟨x, mem_rested_step.mpr (Or.inl hx), hxs⟩
  · simp only [hbest]
    rcases mem_rested_step.mp hx with hx | hx
    · rcases h.reached hx with hle | ⟨q, o', hq, ho'⟩
      · exact Or.inl hle
      · have hqp : q ≠ p := by
          rintro rfl
          rw [hold] at hq
          cases hq
        exact Or.inr ⟨q, o', settling_ne hqp hq, ho'⟩
    · obtain rfl : o = x := Option.some.inj (hev.symm.trans hx)
      exact Or.inr ⟨p, o, by rw [Function.update_self, hset], rfl, rfl⟩
  · rw [mem_rested_step]
    rcases settling_update hq with ⟨-, hnew⟩ | ⟨-, hold'⟩
    · exact Or.inr (hev.trans (hset.symm.trans hnew))
    · exact Or.inl (h.pending hold')

/-- A thread is done with an order: the best price is now as good as that of
the order, and no worse than before. -/
theorem Prices.settled (h : Prices c H) (he : Effect c.mem (c.pc p) m pc ev) {o : Order}
    (hold : (c.pc p).settling = some o) (hset : pc.settling = none)
    (hev : ev.bind Event.asRested = none)
    (hreach : ¬ o.side.Improves o.price (m.best o.side))
    (hbest : ∀ s, m.best s = c.mem.best s
      ∨ (o.side = s ∧ m.best s = o.price ∧ s.Improves (m.best s) (c.mem.best s))) :
    Prices ⟨m, Function.update c.pc p pc⟩ (H ++ (ev.map (Prod.mk p)).toList) := by
  have hmem : ∀ {o}, o ∈ rested (H ++ (ev.map (Prod.mk p)).toList) ↔ o ∈ rested H := by
    intro o
    rw [mem_rested_step, hev]
    simp
  refine ⟨fun s => ?_, fun {x} hx => ?_, fun {q x} hq => ?_, h.checked_step he⟩
  · simp only [hmem]
    rcases hbest s with hs | ⟨hs, hprice, -⟩
    · rw [hs]
      exact h.attained s
    · exact Or.inr ⟨o, h.pending hold, hs, hprice.symm⟩
  · rcases h.reached (hmem.mp hx) with hle | ⟨q, o', hq, hside, hprice⟩
    · left
      rcases hbest x.side with hs | ⟨-, -, himp⟩
      · rwa [hs]
      · exact fun himp' => hle (himp'.trans himp)
    · by_cases hqp : q = p
      · subst hqp
        obtain rfl : o = o' := Option.some.inj (hold.symm.trans hq)
        rw [hside, hprice] at hreach
        exact Or.inl hreach
      · exact Or.inr ⟨q, o', settling_ne hqp hq, hside, hprice⟩
  · rcases settling_update hq with ⟨-, hnew⟩ | ⟨-, hold'⟩
    · rw [hset] at hnew
      cases hnew
    · exact hmem.mpr (h.pending hold')

theorem Prices.step (h : Prices c H) (he : Effect c.mem (c.pc p) m pc ev) :
    Prices ⟨m, Function.update c.pc p pc⟩ (H ++ (ev.map (Prod.mk p)).toList) := by
  rcases he.prices with ⟨hbest, hset, hev⟩ | ⟨o, hbest, hold, hset, hev⟩
    | ⟨o, hbest, hold, hset, hle, hev⟩ | ⟨count, o, rest, hpc, hbest, hset, hev⟩
  · exact h.quiet he hbest hset hev
  · exact h.rests he hbest hold hset hev
  · exact h.settled he hold hset hev (hbest ▸ hle) fun s => Or.inl (congrFun hbest s)
  · refine h.settled he (by rw [hpc]; rfl) hset hev ?_ fun s => ?_
    · rw [hbest, Function.update_self]
      exact Side.not_improves_self _ _
    · by_cases hs : s = o.side
      · subst hs
        rw [hbest, Function.update_self]
        exact Or.inr ⟨rfl, rfl, h.checked hpc⟩
      · rw [hbest, Function.update_of_ne hs]
        exact Or.inl rfl

omit [DecidableEq ι] in
/-- The best price of a side only ever gets better. -/
theorem Prices.best_step (h : Prices c H) (he : Effect c.mem (c.pc p) m pc ev) (s : Side) :
    m.best s = c.mem.best s ∨ s.Improves (m.best s) (c.mem.best s) := by
  rcases he.prices with ⟨hbest, -⟩ | ⟨o, hbest, -⟩ | ⟨o, hbest, -⟩
    | ⟨count, o, rest, hpc, hbest, -⟩
  · exact Or.inl (congrFun hbest s)
  · exact Or.inl (congrFun hbest s)
  · exact Or.inl (congrFun hbest s)
  · rw [hbest]
    by_cases hs : s = o.side
    · subst hs
      rw [Function.update_self]
      exact Or.inr (h.checked hpc)
    · exact Or.inl (Function.update_of_ne hs _ _)

end Step

/-! ## Counting the orders

Every thread processes the orders it has popped itself. -/

/-- How many of the orders a thread has popped it has neither matched nor
rested yet. -/
def PC.inHand : PC → ℕ
  | .popBatch _ orders _ => orders.length
  | .process _ _ rest .loadOpposite => rest.length + 1
  | .process _ _ rest .addMatched => rest.length + 1
  | .process _ _ rest .addTotal => rest.length + 1
  | .process _ _ rest _ => rest.length
  | _ => 0

@[simp] theorem nextOrder_inHand (count : ℕ) (rest : List Order) :
    (nextOrder count rest).inHand = rest.length := by
  cases rest <;> rfl

/-- The threads of the events of one kind. -/
def threads (f : Event → Option Order) (H : List (ι × Event)) : List ι :=
  H.filterMap fun e => (f e.2).map fun _ => e.1

@[simp] theorem threads_append (f : Event → Option Order) (H K : List (ι × Event)) :
    threads f (H ++ K) = threads f H ++ threads f K := by
  simp [threads]

theorem length_threads (f : Event → Option Order) (H : List (ι × Event)) :
    (threads f H).length = (orders f H).length := by
  induction H with
  | nil => rfl
  | cons e H ih =>
      unfold threads orders at ih ⊢
      cases h : f e.2 <;> simp [h, ih]

theorem count_threads_step [DecidableEq ι] (f : Event → Option Order) (H : List (ι × Event))
    (p : ι) (ev : Option Event) (q : ι) :
    (threads f (H ++ (ev.map (Prod.mk p)).toList)).count q
      = (threads f H).count q + if q = p then (ev.bind f).toList.length else 0 := by
  rw [threads_append, List.count_append]
  congr 1
  cases ev with
  | none => simp [threads]
  | some e =>
      by_cases hqp : q = p
      · subst hqp
        cases h : f e <;> simp [threads, h]
      · have hpq : p ≠ q := fun h => hqp h.symm
        cases h : f e <;> simp [threads, h, hqp, hpq]

/-- A step keeps the balance of its thread. -/
theorem Effect.inHand {m m' : Mem} {pc pc' : PC} {ev : Option Event}
    (he : Effect m pc m' pc' ev) :
    (ev.bind Event.asPopped).toList.length + pc.inHand
      = (ev.bind Event.asMatched).toList.length + (ev.bind Event.asRested).toList.length
        + pc'.inHand := by
  have hpopped := returned_bind (f := Event.asPopped) fun _ => rfl
  have hmatched := returned_bind (f := Event.asMatched) fun _ => rfl
  have hrested := returned_bind (f := Event.asRested) fun _ => rfl
  cases he with
  | start op => cases op <;> rfl
  | popped limit orders rpc queue rpc' order =>
      simp [Event.asPopped, Event.asMatched, Event.asRested, PC.inHand, Nat.add_comm]
  | batchEnd | subTotal =>
      rw [hpopped, hmatched, hrested, nextOrder_inHand]
      rfl
  | matched | rested =>
      simp [Event.asPopped, Event.asMatched, Event.asRested, PC.inHand, Nat.add_comm]
  | improve count order rest opc hopc h =>
      rcases hopc with rfl | ⟨current, rfl⟩ <;> rfl
  | settle count order rest opc hopc h =>
      rw [hpopped, hmatched, hrested, nextOrder_inHand]
      rcases hopc with rfl | ⟨current, rfl⟩ <;> rfl
  | raise =>
      rw [hpopped, hmatched, hrested, nextOrder_inHand]
      rfl
  | _ => rfl

structure Tally [DecidableEq ι] (c : Config ι Mem PC) (H : List (ι × Event)) : Prop where
  balance : ∀ q, (threads Event.asPopped H).count q
    = (threads Event.asMatched H).count q + (threads Event.asRested H).count q
      + (c.pc q).inHand
  counter : c.mem.matched = wrap 64 (orders Event.asMatched H).length

theorem Effect.counter {m m' : Mem} {pc pc' : PC} {ev : Option Event}
    (he : Effect m pc m' pc' ev) :
    (m'.matched = m.matched ∧ ev.bind Event.asMatched = none)
      ∨ ∃ o, m'.matched = wrap 64 (m.matched + 1) ∧ ev.bind Event.asMatched = some o := by
  have hret := returned_bind (f := Event.asMatched) fun _ => rfl
  cases he with
  | matched count order rest => exact Or.inr ⟨order, rfl, rfl⟩
  | batchEnd | subTotal | settle | raise => exact Or.inl ⟨rfl, hret _ _⟩
  | _ => exact Or.inl ⟨rfl, rfl⟩

section Count

variable [DecidableEq ι] {c : Config ι Mem PC} {H : List (ι × Event)} {p : ι} {m : Mem}
  {pc : PC} {ev : Option Event}

theorem Tally.step (h : Tally c H) (he : Effect c.mem (c.pc p) m pc ev) :
    Tally ⟨m, Function.update c.pc p pc⟩ (H ++ (ev.map (Prod.mk p)).toList) where
  balance := fun q => by
    have hq := h.balance q
    have hstep := he.inHand
    simp only [count_threads_step]
    by_cases hqp : q = p
    · subst hqp
      simp only [if_true, Function.update_self]
      omega
    · simp only [if_neg hqp, Function.update_of_ne hqp]
      omega
  counter := by
    rw [orders_append, orders_step]
    rcases he.counter with ⟨hm, hev⟩ | ⟨o, hm, hev⟩
    · simp only [hm, hev, Option.toList_none, List.append_nil]
      exact h.counter
    · simp only [hm, hev, Option.toList_some, List.length_append, List.length_singleton]
      rw [h.counter, wrap_wrap_add]

/-- When no thread has an order in hand, all the orders popped have been
matched or have rested. -/
theorem Tally.length_popped (h : Tally c H) (hidle : ∀ q, (c.pc q).inHand = 0) :
    (popped H).length = (orders Event.asMatched H).length + (rested H).length := by
  have hperm : (threads Event.asPopped H).Perm
      (threads Event.asMatched H ++ threads Event.asRested H) := by
    refine List.perm_iff_count.mpr fun q => ?_
    rw [List.count_append, h.balance q, hidle q]
    rfl
  have hlen := hperm.length_eq
  rwa [List.length_append, length_threads, length_threads, length_threads] at hlen

end Count

/-! ## Runs -/

theorem inHand_of_not_processing {pc : PC} (h : ¬ pc.Processing) : pc.inHand = 0 :=
  of_not_processing (P := fun x => PC.inHand x = 0) h rfl fun _ _ => rfl

theorem settling_of_not_processing {pc : PC} (h : ¬ pc.Processing) : pc.settling = none :=
  of_not_processing (P := fun x => PC.settling x = none) h rfl fun _ _ => rfl

section Run

variable [DecidableEq ι] {Z : AdmittedSize} {buffer : ℕ → Order} {sched : ℕ → ι × Choice Op}

theorem prices_run (n : ℕ) : Prices ((system Z ι buffer).run sched n)
    ((system Z ι buffer).history sched n) := by
  refine (system Z ι buffer).invariant ⟨fun s => Or.inl rfl, ?_, ?_, ?_⟩
    (fun c H a h => h.step (prog_effect c.mem (c.pc a.1) a.2)) sched n
  · intro o ho
    cases ho
  · intro p o hp
    cases hp
  · intro p count o rest current hp
    cases hp

theorem tally_run (n : ℕ) : Tally ((system Z ι buffer).run sched n)
    ((system Z ι buffer).history sched n) :=
  (system Z ι buffer).invariant ⟨fun _ => rfl, rfl⟩
    (fun c _ a h => h.step (prog_effect c.mem (c.pc a.1) a.2)) sched n

variable (Z buffer sched) in
theorem best_mono {i j : ℕ} (hij : i ≤ j) (s : Side) :
    ((system Z ι buffer).run sched j).mem.best s = ((system Z ι buffer).run sched i).mem.best s
      ∨ s.Improves (((system Z ι buffer).run sched j).mem.best s)
        (((system Z ι buffer).run sched i).mem.best s) := by
  induction j, hij using Nat.le_induction with
  | base => exact Or.inl rfl
  | succ j _ ih =>
      have hstep : ((system Z ι buffer).run sched (j + 1)).mem.best s
          = ((system Z ι buffer).run sched j).mem.best s ∨ s.Improves _ _ :=
        (prices_run j).best_step (p := (sched j).1) (prog_effect _ _ (sched j).2) s
      rcases hstep with heq | himp
      · rw [heq]
        exact ih
      · rcases ih with heq' | himp'
        · exact Or.inr (heq' ▸ himp)
        · exact Or.inr (himp.trans himp')

variable (Z buffer sched) in
theorem best_sell_le (n : ℕ) :
    ((system Z ι buffer).run sched n).mem.best .sell ≤ uint64Max := by
  rcases best_mono Z buffer sched (Nat.zero_le n) .sell with heq | himp
  · exact heq.le
  · exact Nat.le_of_lt himp

/-- With no order on its way, the best price of a side is the best of those of
the orders that have rested there. -/
theorem not_improves_of_settled {n : ℕ}
    (hset : ∀ p, (((system Z ι buffer).run sched n).pc p).settling = none) {o : Order}
    (ho : o ∈ rested ((system Z ι buffer).history sched n)) :
    ¬ o.side.Improves o.price (((system Z ι buffer).run sched n).mem.best o.side) := by
  rcases (prices_run n).reached ho with hle | ⟨p, o', hp, -⟩
  · exact hle
  · rw [hset p] at hp
    cases hp

theorem not_improves_of_idle {n : ℕ}
    (hidle : ∀ p, ¬ (((system Z ι buffer).run sched n).pc p).Processing)
    {o : Order} (ho : o ∈ rested ((system Z ι buffer).history sched n)) :
    ¬ o.side.Improves o.price (((system Z ι buffer).run sched n).mem.best o.side) :=
  not_improves_of_settled (fun p => settling_of_not_processing (hidle p)) ho

end Run

/-- In every run `best_bid_` never decreases and `best_ask_` never increases.
When no call of `process_orders` is in flight, `best_bid_` is the maximum of 0
and the prices of the BUY orders that have rested, `best_ask_` the minimum of
`UINT64_MAX` and those of the SELL orders, and `matched_orders_`, a 64-bit
counter, and the number of orders that have rested add up to the number of
orders popped, modulo `2 ^ 64`. -/
theorem best_prices_lose_no_update [DecidableEq ι] (Z : AdmittedSize) (buffer : ℕ → Order)
    (sched : ℕ → ι × Choice Op) (n : ℕ) :
    let S := system Z ι buffer
    let c := S.run sched n
    let H := S.history sched n
    (∀ i j, i ≤ j → (S.run sched i).mem.best .buy ≤ (S.run sched j).mem.best .buy
        ∧ (S.run sched j).mem.best .sell ≤ (S.run sched i).mem.best .sell)
      ∧ ((∀ p, ¬ (c.pc p).Processing) →
        IsGreatest (insert 0 {x | ∃ o ∈ rested H, o.side = .buy ∧ o.price = x})
            (c.mem.best .buy)
          ∧ IsLeast (insert uint64Max {x | ∃ o ∈ rested H, o.side = .sell ∧ o.price = x})
            (c.mem.best .sell)
          ∧ c.mem.matched + (rested H).length ≡ (popped H).length [MOD 2 ^ 64]
          ∧ ((popped H).length < 2 ^ 64 →
            c.mem.matched + (rested H).length = (popped H).length)) := by
  intro S c H
  have htally : Tally c H := tally_run n
  refine ⟨fun i j hij => ⟨?_, ?_⟩, fun hidle => ⟨⟨?_, ?_⟩, ⟨?_, ?_⟩, ?_, fun hlt => ?_⟩⟩
  · rcases best_mono Z buffer sched hij .buy with heq | himp
    · exact heq.ge
    · exact Nat.le_of_lt himp
  · rcases best_mono Z buffer sched hij .sell with heq | himp
    · exact heq.le
    · exact Nat.le_of_lt himp
  · exact (prices_run n).attained .buy
  · rintro x (rfl | ⟨o, ho, hside, rfl⟩)
    · exact Nat.zero_le _
    · have := not_improves_of_idle hidle ho
      rw [hside] at this
      exact Nat.le_of_not_lt this
  · exact (prices_run n).attained .sell
  · rintro x (rfl | ⟨o, ho, hside, rfl⟩)
    · exact best_sell_le Z buffer sched n
    · have := not_improves_of_idle hidle ho
      rw [hside] at this
      exact Nat.le_of_not_lt this
  · have hcount := htally.length_popped fun q => inHand_of_not_processing (hidle q)
    rw [hcount, htally.counter]
    exact (Nat.mod_modEq _ _).add_right _
  · have hcount := htally.length_popped fun q => inHand_of_not_processing (hidle q)
    rw [hcount] at hlt ⊢
    rw [htally.counter, wrap_of_lt (by omega)]

/-! ### A run in which the counter wraps around

One thread submits a SELL order and processes it, and then does the same with
one BUY order after the other, each of which is matched. -/

/-- What a list of steps of one thread alone leaves behind. -/
def exec (Z : AdmittedSize) : List (Choice Op) → Mem × PC → Mem × PC
  | [], s => s
  | ch :: l, s => exec Z l ((prog Z s.1 s.2 ch).mem, (prog Z s.1 s.2 ch).pc)

theorem exec_append (Z : AdmittedSize) (l l' : List (Choice Op)) (s : Mem × PC) :
    exec Z (l ++ l') s = exec Z l' (exec Z l s) := by
  induction l generalizing s with
  | nil => rfl
  | cons ch l ih => exact ih _

theorem run_exec (Z : AdmittedSize) (buffer : ℕ → Order) {sched : ℕ → Unit × Choice Op}
    {l : List (Choice Op)} {n : ℕ} (h : ∀ i ch, l[i]? = some ch → (sched (n + i)).2 = ch) :
    (((system Z Unit buffer).run sched (n + l.length)).mem,
        ((system Z Unit buffer).run sched (n + l.length)).pc ())
      = exec Z l (((system Z Unit buffer).run sched n).mem,
        ((system Z Unit buffer).run sched n).pc ()) := by
  induction l generalizing n with
  | nil => rfl
  | cons ch l ih =>
      have hch : (sched n).2 = ch := h 0 ch rfl
      have htail : ∀ i ch', l[i]? = some ch' → (sched (n + 1 + i)).2 = ch' := by
        intro i ch' hi
        rw [Nat.add_assoc, Nat.add_comm 1 i]
        exact h (i + 1) ch' hi
      have hpc : ((system Z Unit buffer).run sched (n + 1)).pc ()
          = (prog Z ((system Z Unit buffer).run sched n).mem
            (((system Z Unit buffer).run sched n).pc ()) ch).pc := by
        rw [← hch]
        exact System.next_pc_self _ _ _
      have hmem : ((system Z Unit buffer).run sched (n + 1)).mem
          = (prog Z ((system Z Unit buffer).run sched n).mem
            (((system Z Unit buffer).run sched n).pc ()) ch).mem := by
        rw [← hch]
        rfl
      have hrest := ih htail
      rw [hmem, hpc] at hrest
      rw [List.length_cons, Nat.add_comm l.length 1, ← Nat.add_assoc]
      exact hrest

theorem signedDiff_self (w a : ℕ) : signedDiff w a a = 0 := by
  simp [signedDiff]

/-- The queue after a push by a thread alone. -/
def afterPush (Z : AdmittedSize) (q : Ring.Mem Order) (o : Order) : Ring.Mem Order where
  sequences := Function.update q.sequences (Z.index q.head) (wrap 64 (q.head + 1))
  buffer := Function.update q.buffer (Z.index q.head) o
  head := wrap 64 (q.head + 1)
  tail := q.tail

/-- The queue after a pop by a thread alone. -/
def afterPop (Z : AdmittedSize) (q : Ring.Mem Order) : Ring.Mem Order where
  sequences := Function.update q.sequences (Z.index q.tail) (wrap 64 (q.tail + Z.mask + 1))
  buffer := q.buffer
  head := q.head
  tail := wrap 64 (q.tail + 1)

theorem exec_submit {Z : AdmittedSize} {m : Mem} (o : Order)
    (hseq : m.queue.sequences (Z.index m.queue.head) = m.queue.head) :
    exec Z (.call (.submit o) :: List.replicate 5 .go) (m, .idle)
      = ({ m with queue := afterPush Z m.queue o }, .idle) := by
  simp [exec, List.replicate, prog, start, submitOrder, Ring.start, Ring.prog, Ring.tryPush,
    Choice.access, hseq, signedDiff_self, afterPush]

theorem exec_pop {Z : AdmittedSize} {m : Mem}
    (hseq : m.queue.sequences (Z.index m.queue.tail) = wrap 64 (m.queue.tail + 1)) :
    exec Z (.call (.process 1) :: List.replicate 7 .go) (m, .idle)
      = ({ m with queue := afterPop Z m.queue },
        .process 1 (m.queue.buffer (Z.index m.queue.tail)) [] .loadOpposite) := by
  simp [exec, List.replicate, prog, start, callPop, tryPopBatch, finish, nextOrder, Ring.start,
    Ring.prog, Ring.tryPop, Choice.access, hseq, signedDiff_self, afterPop]

theorem exec_match {Z : AdmittedSize} {m : Mem} {o : Order}
    (hcross : o.side.Crosses o.price (m.best o.side.opposite)) :
    exec Z (List.replicate 4 .go) (m, .process 1 o [] .loadOpposite)
      = (({ m with matched := wrap 64 (m.matched + 1) } : Mem).setTotal o.side.opposite
        (m.total o.side.opposite + 2 ^ 64 - min o.quantity (m.total o.side.opposite)),
        .idle) := by
  simp [exec, List.replicate, prog, processSingleOrder, finish, nextOrder, hcross,
    Mem.setTotal]

/-- A round: submit an order, and process it. -/
def round (o : Order) : List (Choice Op) :=
  (.call (.submit o) :: List.replicate 5 .go)
    ++ (.call (.process 1) :: List.replicate 7 .go) ++ List.replicate 4 .go

def countedOrders : ℕ → Unit × Choice Op := fun i =>
  ((), (round (if i < 18 then ⟨.sell, 5, 0⟩ else ⟨.buy, 10, 0⟩)).getD (i % 18) .go)

/-- The book after `r` rounds: the queue is empty with both counters at `r`,
and a SELL order rests. -/
structure Ready (r : ℕ) (m : Mem) : Prop where
  head : m.queue.head = wrap 64 r
  tail : m.queue.tail = wrap 64 r
  sequence : m.queue.sequences (Ring.twoCells.index r) = wrap 64 r
  next : m.queue.sequences (Ring.twoCells.index (r + 1)) = wrap 64 (r + 1)
  ask : m.best .sell = 5

/-- A BUY order at 10 is matched in one round. -/
theorem exec_round {r : ℕ} {m : Mem} (h : Ready r m) :
    ∃ m', exec Ring.twoCells (round ⟨.buy, 10, 0⟩) (m, .idle) = (m', .idle)
      ∧ Ready (r + 1) m' ∧ m'.matched = wrap 64 (m.matched + 1) := by
  have hindex : Ring.twoCells.index m.queue.head = Ring.twoCells.index r := by
    rw [h.head, AdmittedSize.index_wrap]
  have hindex' : Ring.twoCells.index m.queue.tail = Ring.twoCells.index r := by
    rw [h.tail, AdmittedSize.index_wrap]
  have hpush := exec_submit (Z := Ring.twoCells) (m := m) ⟨.buy, 10, 0⟩
    (by rw [hindex, h.sequence, h.head])
  have hpop := exec_pop (Z := Ring.twoCells)
    (m := { m with queue := afterPush Ring.twoCells m.queue ⟨.buy, 10, 0⟩ })
    (by simp [afterPush, h.head, h.tail])
  have hitem : (afterPush Ring.twoCells m.queue ⟨.buy, 10, 0⟩).buffer
      (Ring.twoCells.index m.queue.tail) = ⟨.buy, 10, 0⟩ := by
    simp [afterPush, hindex, hindex']
  rw [round, exec_append, exec_append, hpush, hpop]
  simp only [show (afterPush Ring.twoCells m.queue ⟨.buy, 10, 0⟩).tail = m.queue.tail from rfl,
    hitem]
  rw [exec_match (by simp [Side.Crosses, Side.opposite, h.ask, uint64Max])]
  refine ⟨_, rfl, ⟨?_, ?_, ?_, ?_, h.ask⟩, rfl⟩
  · simp only [Mem.setTotal, afterPop, afterPush, h.head, wrap_wrap_add]
  · simp only [Mem.setTotal, afterPop, afterPush, h.tail, wrap_wrap_add]
  · have hne := Ring.twoCells.index_succ_ne r
    simp only [Mem.setTotal, afterPop, afterPush, hindex, hindex']
    rw [Function.update_of_ne hne, Function.update_of_ne hne, h.next]
  · have heq : Ring.twoCells.index (r + 1 + 1) = Ring.twoCells.index r :=
      Ring.twoCells.index_add_size r
    simp only [Mem.setTotal, afterPop, afterPush, hindex', heq]
    rw [Function.update_self, h.tail]
    exact wrap_wrap_add 64 r 2

/-- A book with a queue of two cells. -/
abbrev smallBook (ι : Type*) : System ι Mem PC (Choice Op) Event :=
  system Ring.twoCells ι fun _ => ⟨.buy, 0, 0⟩

theorem ready_run (r : ℕ) :
    let c := (smallBook Unit).run countedOrders (18 * (r + 1))
    Ready (r + 1) c.mem ∧ c.pc () = .idle ∧ c.mem.matched = wrap 64 r := by
  induction r with
  | zero =>
      refine ⟨⟨?_, ?_, ?_, ?_, ?_⟩, ?_, ?_⟩ <;> decide +kernel
  | succ r ih =>
      obtain ⟨hready, hidle, hmatched⟩ := ih
      obtain ⟨m', hexec, hready', hmatched'⟩ := exec_round hready
      have hsched : ∀ i ch, (round ⟨.buy, 10, 0⟩)[i]? = some ch →
          (countedOrders (18 * (r + 1) + i)).2 = ch := by
        intro i ch hi
        have hlt : i < 18 := (List.getElem?_eq_some_iff.mp hi).1
        have hmod : (18 * (r + 1) + i) % 18 = i := by omega
        have hnot : ¬ 18 * (r + 1) + i < 18 := by omega
        simp only [countedOrders, hmod, if_neg hnot, List.getD_eq_getElem?_getD, hi,
          Option.getD_some]
      have hrun := run_exec Ring.twoCells (fun _ => ⟨.buy, 0, 0⟩) hsched
      rw [hidle, hexec] at hrun
      obtain ⟨hmem, hpc⟩ := Prod.mk.inj hrun
      have hlen : 18 * (r + 1) + (round ⟨.buy, 10, 0⟩).length = 18 * (r + 1 + 1) := rfl
      rw [hlen] at hmem hpc
      refine ⟨hmem ▸ hready', hpc, ?_⟩
      rw [hmem, hmatched', hmatched, wrap_wrap_add]

/-- Each round matches one order. -/
theorem le_length_matched (r : ℕ) :
    r ≤ (orders Event.asMatched
      ((smallBook Unit).history countedOrders (18 * (r + 1)))).length := by
  induction r with
  | zero => exact Nat.zero_le _
  | succ r ih =>
      have hmono := (smallBook Unit).history_mono countedOrders
        (show 18 * (r + 1) ≤ 18 * (r + 1 + 1) by omega)
      have hle := (hmono.filterMap fun e => Event.asMatched e.2).length_le
      refine Nat.succ_le_of_lt (Nat.lt_of_le_of_ne (ih.trans hle) fun heq => ?_)
      have hnext := (ready_run (r + 1)).2.2
      rw [(tally_run _).counter] at hnext
      have hmod : wrap 64 r = wrap 64 (r + 1) := by
        rw [← hnext]
        exact congrArg (wrap 64) heq
      unfold wrap at hmod
      omega

theorem miscounted {r : ℕ} (hr : 2 ^ 64 ≤ r) :
    let c := (smallBook Unit).run countedOrders (18 * (r + 1))
    let H := (smallBook Unit).history countedOrders (18 * (r + 1))
    (∀ p, ¬ (c.pc p).Processing) ∧ c.mem.matched + (rested H).length ≠ (popped H).length := by
  intro c H
  have hidle : ∀ p, ¬ (c.pc p).Processing := by
    intro p
    rw [show c.pc p = .idle from (ready_run r).2.1]
    exact id
  refine ⟨hidle, ?_⟩
  have htally : Tally c H := tally_run _
  have hle : r ≤ (orders Event.asMatched H).length := le_length_matched r
  rw [htally.length_popped fun q => inHand_of_not_processing (hidle q), htally.counter]
  have hlt : wrap 64 (orders Event.asMatched H).length < 2 ^ 64 := wrap_lt _ _
  omega

/-- After `2 ^ 64` orders have been matched, the counter and the orders that
have rested no longer add up to the orders popped. -/
theorem countedOrders_miscounted :
    let c := (smallBook Unit).run countedOrders (18 * (2 ^ 64 + 1))
    let H := (smallBook Unit).history countedOrders (18 * (2 ^ 64 + 1))
    (∀ p, ¬ (c.pc p).Processing) ∧ c.mem.matched + (rested H).length ≠ (popped H).length :=
  miscounted (Nat.le_refl _)

end OrderBook

end Lockless
