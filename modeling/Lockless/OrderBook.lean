import Lockless.Ring

/-!
# The order book

`OrderBook<QueueSize>` of `order_book.hpp`. `submit_order` pushes an order
onto a ring buffer. `process_orders` pops a batch of orders and processes them
one after the other: an order whose price crosses the best price of the other
side is counted as matched and takes its quantity off the total of that side;
any other order rests, which adds its quantity to the total of its own side
and raises the best price of that side to its own by a compare-exchange loop.

The two sides are treated alike but for the direction of the comparisons, so
the best prices and the totals are indexed by the side. Each atomic access is
one step, with the comparison that follows it. The identifier and the time
stamp of an order are not read by the class and left out.
-/

namespace Lockless

namespace OrderBook

inductive Side where
  | buy
  | sell
deriving DecidableEq

def Side.opposite : Side → Side
  | .buy => .sell
  | .sell => .buy

structure Order where
  side : Side
  price : ℕ
  quantity : ℕ
deriving DecidableEq

/-- The best price of a side at which no order rests. -/
def Side.noBest : Side → ℕ
  | .buy => 0
  | .sell => uint64Max

/-- An order of the side and price crosses the best price of the other side. -/
def Side.Crosses : Side → ℕ → ℕ → Prop
  | .buy, price, currentAsk => currentAsk ≠ uint64Max ∧ currentAsk ≤ price
  | .sell, price, currentBid => currentBid ≠ 0 ∧ price ≤ currentBid

/-- The price is better for its side than the current one. -/
def Side.Improves : Side → ℕ → ℕ → Prop
  | .buy, price, currentBid => currentBid < price
  | .sell, price, currentAsk => price < currentAsk

instance (price current : ℕ) : (side : Side) → Decidable (side.Crosses price current)
  | .buy => inferInstanceAs (Decidable (current ≠ uint64Max ∧ current ≤ price))
  | .sell => inferInstanceAs (Decidable (current ≠ 0 ∧ price ≤ current))

instance (price current : ℕ) : (side : Side) → Decidable (side.Improves price current)
  | .buy => inferInstanceAs (Decidable (current < price))
  | .sell => inferInstanceAs (Decidable (price < current))

/-- The fields of the class: `best` is `best_bid_` and `best_ask_`, `total` is
`total_buy_quantity_` and `total_sell_quantity_`. -/
structure Mem where
  queue : Ring.Mem Order
  best : Side → ℕ
  total : Side → ℕ
  matched : ℕ

def Mem.setBest (m : Mem) (side : Side) (price : ℕ) : Mem :=
  { m with best := Function.update m.best side price }

def Mem.setTotal (m : Mem) (side : Side) (quantity : ℕ) : Mem :=
  { m with total := Function.update m.total side (wrap 64 quantity) }

def getBestBid (m : Mem) : ℕ := m.best .buy

def getBestAsk (m : Mem) : ℕ := if m.best .sell = uint64Max then 0 else m.best .sell

def getSpread (m : Mem) : ℕ :=
  if getBestBid m = 0 ∨ getBestAsk m = 0 then 0
  else if getBestBid m < getBestAsk m then getBestAsk m - getBestBid m
  else 0

/-- The access `process_single_order` performs next. -/
inductive OrderPC where
  | loadOpposite
  | addMatched
  | loadTotal
  | subTotal (amount : ℕ)
  | addTotal
  | loadBest
  | casBest (current : ℕ)
deriving DecidableEq

/-- A thread in `submit_order`, in the loop of `try_pop_batch` with the orders
it has popped, or processing one of the `count` orders of a batch with the
`rest` still to come. In the batch loop an idle position in the ring is the
call of `try_pop` that comes next. -/
inductive PC where
  | idle
  | submit (order : Order) (rpc : Ring.PC Order)
  | popBatch (limit : ℕ) (orders : List Order) (rpc : Ring.PC Order)
  | process (count : ℕ) (order : Order) (rest : List Order) (opc : OrderPC)
deriving DecidableEq

inductive Op where
  | submit (order : Order)
  | process (batchSize : ℕ)
deriving DecidableEq

/-- `accepted` and `refused` are the return of `submit_order`, `processed` is
the return of `process_orders`, `popped` that of a `try_pop` inside it;
`matched` and `rested` are the first accesses of the two branches. -/
inductive Event where
  | accepted (order : Order)
  | refused (order : Order)
  | popped (order : Order)
  | matched (order : Order)
  | rested (order : Order)
  | processed (count : ℕ)
deriving DecidableEq

section Program

variable (Z : AdmittedSize)

/-- Where `process_orders` goes on after an order. -/
def nextOrder (count : ℕ) : List Order → PC
  | [] => .idle
  | order :: rest => .process count order rest .loadOpposite

/-- It returns after the last one. -/
def returned (count : ℕ) : List Order → Option Event
  | [] => some (.processed count)
  | _ :: _ => none

def finish (m : Mem) (count : ℕ) (rest : List Order) : Outcome Mem PC Event :=
  ⟨m, nextOrder count rest, returned count rest⟩

/-- The head of the loop that raises the best price, on the value just read. -/
def improveBest (m : Mem) (count : ℕ) (order : Order) (rest : List Order) (current : ℕ) :
    Outcome Mem PC Event :=
  if order.side.Improves order.price current then
    ⟨m, .process count order rest (.casBest current), none⟩
  else finish m count rest

def processSingleOrder (m : Mem) (spurious : Bool) (count : ℕ) (order : Order)
    (rest : List Order) : OrderPC → Outcome Mem PC Event
  | .loadOpposite =>
      if order.side.Crosses order.price (m.best order.side.opposite) then
        ⟨m, .process count order rest .addMatched, none⟩
      else ⟨m, .process count order rest .addTotal, none⟩
  | .addMatched =>
      ⟨{ m with matched := wrap 64 (m.matched + 1) }, .process count order rest .loadTotal,
        some (.matched order)⟩
  | .loadTotal =>
      ⟨m, .process count order rest
        (.subTotal (min order.quantity (m.total order.side.opposite))), none⟩
  | .subTotal amount =>
      finish (m.setTotal order.side.opposite
        (m.total order.side.opposite + 2 ^ 64 - amount)) count rest
  | .addTotal =>
      ⟨m.setTotal order.side (m.total order.side + order.quantity),
        .process count order rest .loadBest, some (.rested order)⟩
  | .loadBest => improveBest m count order rest (m.best order.side)
  | .casBest current =>
      if m.best order.side = current ∧ spurious = false then
        finish (m.setBest order.side order.price) count rest
      else improveBest m count order rest (m.best order.side)

/-- `submit_order` goes on from a step of `try_push`. -/
def submitOrder (m : Mem) (order : Order)
    (o : Outcome (Ring.Mem Order) (Ring.PC Order) (Ring.Event Order)) :
    Outcome Mem PC Event :=
  match o.event with
  | some (.pushDone _) => ⟨{ m with queue := o.mem }, .idle, some (.accepted order)⟩
  | some .pushFull => ⟨{ m with queue := o.mem }, .idle, some (.refused order)⟩
  | _ => ⟨{ m with queue := o.mem }, .submit order o.pc, none⟩

/-- The head of the loop of `try_pop_batch`. -/
def callPop (m : Mem) (limit : ℕ) (orders : List Order) : Outcome Mem PC Event :=
  if orders.length < limit then
    ⟨m, .popBatch limit orders (Ring.start .tryPop), none⟩
  else finish m orders.length orders

/-- `try_pop_batch` goes on from a step of `try_pop`. -/
def tryPopBatch (m : Mem) (limit : ℕ) (orders : List Order)
    (o : Outcome (Ring.Mem Order) (Ring.PC Order) (Ring.Event Order)) :
    Outcome Mem PC Event :=
  match o.event with
  | some (.popDone _ order) =>
      ⟨{ m with queue := o.mem }, .popBatch limit (orders ++ [order]) o.pc,
        some (.popped order)⟩
  | some .popEmpty => finish { m with queue := o.mem } orders.length orders
  | _ => ⟨{ m with queue := o.mem }, .popBatch limit orders o.pc, none⟩

def start : Op → PC
  | .submit order => .submit order (Ring.start (.tryPush order))
  | .process batchSize => .popBatch (min batchSize 100) [] .idle

/-- One step of one thread. A call starts only in a thread that is not
inside another call. -/
def prog (m : Mem) : PC → Choice Op → Outcome Mem PC Event
  | .idle, .call op => ⟨m, start op, none⟩
  | pc, .call _ => ⟨m, pc, none⟩
  | .idle, _ => ⟨m, .idle, none⟩
  | .submit order rpc, ch => submitOrder m order (Ring.prog Z id m.queue rpc ch.access)
  | .popBatch limit orders rpc, ch =>
      if rpc = .idle then callPop m limit orders
      else tryPopBatch m limit orders (Ring.prog Z id m.queue rpc ch.access)
  | .process count order rest opc, .fault => processSingleOrder m true count order rest opc
  | .process count order rest opc, _ => processSingleOrder m false count order rest opc

def system (ι : Type*) (buffer : ℕ → Order) : System ι Mem PC (Choice Op) Event where
  init := ⟨⟨Ring.initMem buffer, Side.noBest, fun _ => 0, 0⟩, fun _ => .idle⟩
  prog := prog Z

end Program

/-! ## What one step can do -/

/-- The steps of a thread. An access to the queue changes nothing else, and
what it does to the queue is left open. -/
inductive Effect (m : Mem) : PC → Mem → PC → Option Event → Prop
  | stay (pc) : Effect m pc m pc none
  | start (op) : Effect m .idle m (start op) none
  | submitAccess (order rpc queue rpc') :
      Effect m (.submit order rpc) { m with queue := queue } (.submit order rpc') none
  | accepted (order rpc queue) :
      Effect m (.submit order rpc) { m with queue := queue } .idle (some (.accepted order))
  | refused (order rpc queue) :
      Effect m (.submit order rpc) { m with queue := queue } .idle (some (.refused order))
  | popAccess (limit orders rpc queue rpc') :
      Effect m (.popBatch limit orders rpc) { m with queue := queue }
        (.popBatch limit orders rpc') none
  | popped (limit orders rpc queue rpc' order) :
      Effect m (.popBatch limit orders rpc) { m with queue := queue }
        (.popBatch limit (orders ++ [order]) rpc') (some (.popped order))
  | batchEnd (limit orders rpc queue) :
      Effect m (.popBatch limit orders rpc) { m with queue := queue }
        (nextOrder orders.length orders) (returned orders.length orders)
  | cross (count order rest)
      (h : order.side.Crosses order.price (m.best order.side.opposite)) :
      Effect m (.process count order rest .loadOpposite) m
        (.process count order rest .addMatched) none
  | noCross (count order rest)
      (h : ¬ order.side.Crosses order.price (m.best order.side.opposite)) :
      Effect m (.process count order rest .loadOpposite) m
        (.process count order rest .addTotal) none
  | matched (count order rest) :
      Effect m (.process count order rest .addMatched)
        { m with matched := wrap 64 (m.matched + 1) }
        (.process count order rest .loadTotal) (some (.matched order))
  | loadTotal (count order rest) :
      Effect m (.process count order rest .loadTotal) m (.process count order rest
        (.subTotal (min order.quantity (m.total order.side.opposite)))) none
  | subTotal (count order rest amount) :
      Effect m (.process count order rest (.subTotal amount))
        (m.setTotal order.side.opposite (m.total order.side.opposite + 2 ^ 64 - amount))
        (nextOrder count rest) (returned count rest)
  | rested (count order rest) :
      Effect m (.process count order rest .addTotal)
        (m.setTotal order.side (m.total order.side + order.quantity))
        (.process count order rest .loadBest) (some (.rested order))
  | improve (count order rest opc)
      (hopc : opc = .loadBest ∨ ∃ current, opc = .casBest current)
      (h : order.side.Improves order.price (m.best order.side)) :
      Effect m (.process count order rest opc) m
        (.process count order rest (.casBest (m.best order.side))) none
  | settle (count order rest opc)
      (hopc : opc = .loadBest ∨ ∃ current, opc = .casBest current)
      (h : ¬ order.side.Improves order.price (m.best order.side)) :
      Effect m (.process count order rest opc) m (nextOrder count rest) (returned count rest)
  | raise (count order rest) :
      Effect m (.process count order rest (.casBest (m.best order.side)))
        (m.setBest order.side order.price) (nextOrder count rest) (returned count rest)

section Inversion

variable {Z : AdmittedSize}

theorem improveBest_effect (m : Mem) (count : ℕ) (order : Order) (rest : List Order)
    {opc : OrderPC} (hopc : opc = .loadBest ∨ ∃ current, opc = .casBest current) :
    Effect m (.process count order rest opc)
      (improveBest m count order rest (m.best order.side)).mem
      (improveBest m count order rest (m.best order.side)).pc
      (improveBest m count order rest (m.best order.side)).event := by
  unfold improveBest
  split_ifs with h
  · exact .improve count order rest opc hopc h
  · exact .settle count order rest opc hopc h

theorem processSingleOrder_effect (m : Mem) (spurious : Bool) (count : ℕ) (order : Order)
    (rest : List Order) (opc : OrderPC) :
    Effect m (.process count order rest opc)
      (processSingleOrder m spurious count order rest opc).mem
      (processSingleOrder m spurious count order rest opc).pc
      (processSingleOrder m spurious count order rest opc).event := by
  cases opc with
  | loadOpposite =>
      simp only [processSingleOrder]
      split_ifs with h
      · exact .cross count order rest h
      · exact .noCross count order rest h
  | addMatched => exact .matched count order rest
  | loadTotal => exact .loadTotal count order rest
  | subTotal amount => exact .subTotal count order rest amount
  | addTotal => exact .rested count order rest
  | loadBest => exact improveBest_effect m count order rest (Or.inl rfl)
  | casBest current =>
      simp only [processSingleOrder]
      split_ifs with hwin
      · obtain ⟨rfl, -⟩ := hwin
        exact .raise count order rest
      · exact improveBest_effect m count order rest (Or.inr ⟨current, rfl⟩)

theorem submitOrder_effect (m : Mem) (order : Order) (rpc : Ring.PC Order)
    (o : Outcome (Ring.Mem Order) (Ring.PC Order) (Ring.Event Order)) :
    Effect m (.submit order rpc) (submitOrder m order o).mem (submitOrder m order o).pc
      (submitOrder m order o).event := by
  unfold submitOrder
  split
  · exact .accepted order rpc o.mem
  · exact .refused order rpc o.mem
  · exact .submitAccess order rpc o.mem o.pc

theorem tryPopBatch_effect (m : Mem) (limit : ℕ) (orders : List Order) (rpc : Ring.PC Order)
    (o : Outcome (Ring.Mem Order) (Ring.PC Order) (Ring.Event Order)) :
    Effect m (.popBatch limit orders rpc) (tryPopBatch m limit orders o).mem
      (tryPopBatch m limit orders o).pc (tryPopBatch m limit orders o).event := by
  unfold tryPopBatch
  split
  · next order _ => exact .popped limit orders rpc o.mem o.pc order
  · exact .batchEnd limit orders rpc o.mem
  · exact .popAccess limit orders rpc o.mem o.pc

theorem popBatch_effect (m : Mem) (limit : ℕ) (orders : List Order) (rpc : Ring.PC Order)
    (o : Outcome (Ring.Mem Order) (Ring.PC Order) (Ring.Event Order)) :
    Effect m (.popBatch limit orders rpc)
      (if rpc = .idle then callPop m limit orders else tryPopBatch m limit orders o).mem
      (if rpc = .idle then callPop m limit orders else tryPopBatch m limit orders o).pc
      (if rpc = .idle then callPop m limit orders else tryPopBatch m limit orders o).event := by
  split_ifs with hidle
  · unfold callPop
    split_ifs
    · exact .popAccess limit orders rpc m.queue _
    · exact .batchEnd limit orders rpc m.queue
  · exact tryPopBatch_effect m limit orders rpc o

theorem prog_effect (m : Mem) (pc : PC) (ch : Choice Op) :
    Effect m pc (prog Z m pc ch).mem (prog Z m pc ch).pc (prog Z m pc ch).event := by
  cases pc with
  | idle =>
      cases ch with
      | call op => exact .start op
      | go => exact .stay _
      | fault => exact .stay _
  | submit order rpc =>
      cases ch with
      | call op => exact .stay _
      | go => exact submitOrder_effect m order rpc _
      | fault => exact submitOrder_effect m order rpc _
  | popBatch limit orders rpc =>
      cases ch with
      | call op => exact .stay _
      | go => exact popBatch_effect m limit orders rpc _
      | fault => exact popBatch_effect m limit orders rpc _
  | process count order rest opc =>
      cases ch with
      | call op => exact .stay _
      | go => exact processSingleOrder_effect m false count order rest opc
      | fault => exact processSingleOrder_effect m true count order rest opc

end Inversion

/-- The call of `process_orders` a thread is in has not returned. -/
def PC.Processing : PC → Prop
  | .popBatch _ _ _ => True
  | .process _ _ _ _ => True
  | _ => False

instance : (pc : PC) → Decidable pc.Processing
  | .idle => .isFalse id
  | .submit _ _ => .isFalse id
  | .popBatch _ _ _ => .isTrue trivial
  | .process _ _ _ _ => .isTrue trivial

theorem of_not_processing {P : PC → Prop} {pc : PC} (h : ¬ pc.Processing) (hidle : P .idle)
    (hsubmit : ∀ order rpc, P (.submit order rpc)) : P pc := by
  cases pc with
  | idle => exact hidle
  | submit order rpc => exact hsubmit order rpc
  | popBatch => exact absurd trivial h
  | process => exact absurd trivial h

/-! ## Logs -/

section Logs

variable {ι : Type*}

def Event.asPopped : Event → Option Order
  | .popped order => some order
  | _ => none

def Event.asMatched : Event → Option Order
  | .matched order => some order
  | _ => none

def Event.asRested : Event → Option Order
  | .rested order => some order
  | _ => none

/-- The orders of the events of one kind, oldest first. -/
def orders (f : Event → Option Order) (H : List (ι × Event)) : List Order :=
  H.filterMap fun e => f e.2

/-- The orders that `process_orders` has popped. -/
def popped (H : List (ι × Event)) : List Order := orders Event.asPopped H

/-- The orders that have rested. -/
def rested (H : List (ι × Event)) : List Order := orders Event.asRested H

@[simp] theorem orders_append (f : Event → Option Order) (H K : List (ι × Event)) :
    orders f (H ++ K) = orders f H ++ orders f K := by
  simp [orders]

theorem orders_step (f : Event → Option Order) (p : ι) (ev : Option Event) :
    orders f (ev.map (Prod.mk p)).toList = (ev.bind f).toList := by
  cases ev with
  | none => rfl
  | some e => cases h : f e <;> simp [orders, h]

theorem returned_bind {f : Event → Option Order} (h : ∀ count, f (.processed count) = none)
    (count : ℕ) (rest : List Order) : (returned count rest).bind f = none := by
  cases rest with
  | nil => exact h count
  | cons order rest => rfl

end Logs

end OrderBook

end Lockless
