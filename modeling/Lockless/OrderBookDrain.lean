import Lockless.OrderBook
import Lockless.RingCalls

/-!
# Draining the order book

One thread submits orders and processes them, one call after another. `exchange` is
what the calls do to the list of the orders in the queue and to the book: the best
prices, the totals and the number of matched orders. A call of `process_orders` takes
up to 100 orders from the front of the queue and places them in the book one by one.

Where one batch ends and the next begins makes no difference to what is placed in the
book and in which order. So after a call with room for an order has returned 0, the book
is that of all the accepted orders placed one by one, whatever the sizes of the batches
were.
-/

namespace Lockless

namespace OrderBook

/-! ## The book -/

structure Book where
  best : Side → ℕ
  total : Side → ℕ
  matched : ℕ

def Mem.book (m : Mem) : Book := ⟨m.best, m.total, m.matched⟩

namespace Book

/-- The state the constructor leaves. -/
def init : Book := ⟨Side.noBest, fun _ => 0, 0⟩

/-- The book after an order has been counted as matched. -/
def count (B : Book) : Book := { B with matched := wrap 64 (B.matched + 1) }

/-- The book after an order has taken what there is for it off the other side. -/
def take (B : Book) (o : Order) : Book :=
  { B with
    total := Function.update B.total o.side.opposite
      (wrap 64 (B.total o.side.opposite + 2 ^ 64 - min o.quantity (B.total o.side.opposite))) }

/-- The book after an order has been added to the total of its side. -/
def add (B : Book) (o : Order) : Book :=
  { B with total := Function.update B.total o.side (wrap 64 (B.total o.side + o.quantity)) }

/-- The book after the best price of the side of an order has been compared with its
own. -/
def improve (B : Book) (o : Order) : Book :=
  if o.side.Improves o.price (B.best o.side) then
    { B with best := Function.update B.best o.side o.price }
  else B

/-- `process_single_order` with no other thread about. -/
def place (B : Book) (o : Order) : Book :=
  if o.side.Crosses o.price (B.best o.side.opposite) then B.count.take o
  else (B.add o).improve o

end Book

/-- What holds at the positions of `process_single_order` that places an order in the
book `B`, of the book `B'` at the position. -/
def Midway (B : Book) (o : Order) (B' : Book) : OrderPC → Prop
  | .loadOpposite => B' = B
  | .addMatched => o.side.Crosses o.price (B.best o.side.opposite) ∧ B' = B
  | .loadTotal => o.side.Crosses o.price (B.best o.side.opposite) ∧ B' = B.count
  | .subTotal amount => o.side.Crosses o.price (B.best o.side.opposite) ∧ B' = B.count
      ∧ amount = min o.quantity (B.total o.side.opposite)
  | .addTotal => ¬ o.side.Crosses o.price (B.best o.side.opposite) ∧ B' = B
  | .loadBest => ¬ o.side.Crosses o.price (B.best o.side.opposite) ∧ B' = B.add o
  | .casBest current => ¬ o.side.Crosses o.price (B.best o.side.opposite) ∧ B' = B.add o
      ∧ current = B.best o.side ∧ o.side.Improves o.price current

/-- How many accesses are still to come, if none fails. -/
def OrderPC.left : OrderPC → ℕ
  | .loadOpposite => 4
  | .addMatched => 3
  | .loadTotal => 2
  | .subTotal _ => 1
  | .addTotal => 3
  | .loadBest => 2
  | .casBest _ => 1

/-- A step of `process_single_order` goes on with the same order, or is the last one. -/
def Places (B : Book) (count : ℕ) (o : Order) (rest : List Order) (queue : Ring.Mem Order)
    (k : ℕ) (adverse : Prop) (out : Outcome Mem PC Event) : Prop :=
  (∃ opc, out.pc = .process count o rest opc ∧ Midway B o out.mem.book opc
      ∧ out.mem.queue = queue ∧ (opc.left < k ∨ adverse))
    ∨ ∃ m, out = finish m count rest ∧ m.book = B.place o ∧ m.queue = queue

theorem Places.improve {B : Book} {m : Mem} {count : ℕ} {o : Order} {rest : List Order}
    {k : ℕ} {adverse : Prop} (hcross : ¬ o.side.Crosses o.price (B.best o.side.opposite))
    (hbook : m.book = B.add o) (hk : 1 < k ∨ adverse) :
    Places B count o rest m.queue k adverse
      (improveBest m count o rest (m.best o.side)) := by
  have hbest : m.best o.side = B.best o.side := congrFun (congrArg Book.best hbook) o.side
  unfold improveBest
  rw [hbest]
  split_ifs with himp
  · exact Or.inl ⟨_, rfl, ⟨hcross, hbook, rfl, himp⟩, rfl, hk⟩
  · refine Or.inr ⟨m, rfl, ?_, rfl⟩
    rw [hbook, Book.place, if_neg hcross]
    exact (if_neg himp).symm

theorem Midway.step {B : Book} {m : Mem} {count : ℕ} {o : Order} {rest : List Order}
    {opc : OrderPC} (h : Midway B o m.book opc) (spurious : Bool) :
    Places B count o rest m.queue opc.left (spurious = true)
      (processSingleOrder m spurious count o rest opc) := by
  cases opc with
  | loadOpposite =>
      have hbest : m.best = B.best := congrArg Book.best h
      simp only [processSingleOrder, hbest]
      split_ifs with hcross
      · exact Or.inl ⟨_, rfl, ⟨hcross, h⟩, rfl, Or.inl (Nat.lt_succ_self _)⟩
      · exact Or.inl ⟨_, rfl, ⟨hcross, h⟩, rfl, Or.inl (Nat.lt_succ_self _)⟩
  | addMatched =>
      obtain ⟨hcross, rfl⟩ := h
      exact Or.inl ⟨_, rfl, ⟨hcross, rfl⟩, rfl, Or.inl (Nat.lt_succ_self _)⟩
  | loadTotal =>
      obtain ⟨hcross, hbook⟩ := h
      have htotal : m.total = B.total := congrArg Book.total hbook
      refine Or.inl ⟨_, rfl, ⟨hcross, hbook, ?_⟩, rfl, Or.inl (Nat.lt_succ_self _)⟩
      rw [htotal]
  | subTotal amount =>
      obtain ⟨hcross, hbook, rfl⟩ := h
      refine Or.inr ⟨_, rfl, ?_, rfl⟩
      have htotal : m.total = B.total := congrArg Book.total hbook
      rw [Book.place, if_pos hcross, ← hbook]
      simp only [Book.take, Mem.setTotal, Mem.book, htotal]
  | addTotal =>
      obtain ⟨hcross, rfl⟩ := h
      exact Or.inl ⟨_, rfl, ⟨hcross, rfl⟩, rfl, Or.inl (Nat.lt_succ_self _)⟩
  | loadBest => exact .improve h.1 h.2 (Or.inl (Nat.lt_succ_self _))
  | casBest current =>
      obtain ⟨hcross, hbook, rfl, himp⟩ := h
      have hbest : m.best = B.best := congrArg Book.best hbook
      simp only [processSingleOrder]
      split_ifs with hwin
      · refine Or.inr ⟨_, rfl, ?_, rfl⟩
        rw [Book.place, if_neg hcross, ← hbook]
        rw [← hbest] at himp
        exact (if_pos himp).symm
      · refine .improve hcross hbook (Or.inr ?_)
        rw [hbest] at hwin
        simpa using hwin

/-! ## What the calls do -/

/-- What a call does to the orders in the queue, which has room for `n`, and to the
book, and what it returns. -/
def exchange (n : ℕ) (s : List Order × Book) : Op → (List Order × Book) × Event
  | .submit order =>
      if s.1.length < n then ((s.1 ++ [order], s.2), .accepted order) else (s, .refused order)
  | .process batchSize =>
      ((s.1.drop (min batchSize 100), (s.1.take (min batchSize 100)).foldl Book.place s.2),
        .processed (s.1.take (min batchSize 100)).length)

structure Represents (Z : PowSize) (m : Mem) (s : List Order × Book) : Prop where
  queue : ∃ b, Ring.Stored Z m.queue b s.1
  book : m.book = s.2

/-- What holds during a call. While orders are popped the book is as before, and while they
are placed in the book the queue is as after. -/
def InCall (Z : PowSize) (s : List Order × Book) (m : Mem) : Op → PC → Prop
  | .submit order, .submit order' rpc =>
      order' = order ∧ m.book = s.2
        ∧ ∃ b pc, rpc = .push order pc ∧ Ring.Pushing Z b s.1 order m.queue pc
  | .process batchSize, .popBatch limit done rpc =>
      limit = min batchSize 100 ∧ m.book = s.2 ∧ ∃ b q, s.1 = done ++ q
        ∧ ((rpc = .idle ∧ done.length ≤ limit ∧ Ring.Stored Z m.queue b q)
          ∨ ∃ pc, done.length < limit ∧ rpc = .pop pc ∧ Ring.Popping Z id b q m.queue pc)
  | .process batchSize, .process count order rest opc =>
      (∃ b, Ring.Stored Z m.queue b (s.1.drop (min batchSize 100)))
        ∧ count = (s.1.take (min batchSize 100)).length
        ∧ ∃ done, s.1.take (min batchSize 100) = done ++ order :: rest
          ∧ Midway (done.foldl Book.place s.2) order m.book opc
  | _, _ => False

/-- How many steps a call has still to make, if none fails. -/
def PC.left : PC → ℕ
  | .idle => 0
  | .submit _ rpc => rpc.left
  | .popBatch limit orders rpc => 12 * (limit - orders.length) + 5 * orders.length + rpc.left
  | .process _ _ rest opc => 5 * rest.length + opc.left

/-- What a call leaves and returns. -/
def Answers (Z : PowSize) (s : List Order × Book) (op : Op) (m : Mem) (e : Event) : Prop :=
  e = (exchange Z.size s op).2 ∧ Represents Z m (exchange Z.size s op).1

def Goes (Z : PowSize) (s : List Order × Book) (op : Op) (k : ℕ) (spurious : Prop)
    (o : Outcome Mem PC Event) : Prop :=
  Proceeds (fun m pc => InCall Z s m op pc) (fun _ => True) (Answers Z s op) PC.left .idle k
    spurious o

/-- `submit_order` by what `try_push` returns. -/
theorem submitOrder_eq (m : Mem) (order : Order)
    (o : Outcome (Ring.Mem Order) (Ring.PC Order) (Ring.Event Order)) :
    submitOrder m order o = match Ring.pushReturn o.event with
      | some true => ⟨{ m with queue := o.mem }, .idle, some (.accepted order)⟩
      | some false => ⟨{ m with queue := o.mem }, .idle, some (.refused order)⟩
      | none => ⟨{ m with queue := o.mem }, .submit order o.pc, none⟩ := by
  unfold submitOrder
  cases o.event with
  | none => rfl
  | some e => cases e <;> rfl

/-- `try_pop_batch` by what `try_pop` returns. -/
theorem tryPopBatch_eq (m : Mem) (limit : ℕ) (orders : List Order)
    (o : Outcome (Ring.Mem Order) (Ring.PC Order) (Ring.Event Order)) :
    tryPopBatch m limit orders o = match Ring.popReturn o.event with
      | some (some order) =>
          ⟨{ m with queue := o.mem }, .popBatch limit (orders ++ [order]) o.pc,
            some (.popped order)⟩
      | some none => finish { m with queue := o.mem } orders.length orders
      | none => ⟨{ m with queue := o.mem }, .popBatch limit orders o.pc, none⟩ := by
  unfold tryPopBatch
  cases o.event with
  | none => rfl
  | some e => cases e <;> rfl

section Steps

variable {Z : PowSize} {s : List Order × Book} {m : Mem}

theorem InCall.start (h : Represents Z m s) (op : Op) : InCall Z s m op (start op) := by
  obtain ⟨b, hstored⟩ := h.queue
  cases op with
  | submit order => exact ⟨rfl, h.book, b, _, rfl, hstored⟩
  | process batchSize => exact ⟨rfl, h.book, b, s.1, rfl, Or.inl ⟨rfl, Nat.zero_le _, hstored⟩⟩

theorem Goes.submit {order : Order} {b : ℕ} {pc : Ring.PushPC} (hbook : m.book = s.2)
    (h : Ring.Pushing Z b s.1 order m.queue pc) (ch : Choice Op) :
    Goes Z s (.submit order) pc.left (ch ≠ .go)
      (submitOrder m order (Ring.prog Z id m.queue (.push order pc) ch.access)) := by
  obtain ⟨spurious, ho, hgo⟩ := Ring.prog_push_access (↑Z) id m.queue order pc ch
  rw [ho, submitOrder_eq]
  rcases h.step spurious with ⟨pc', hpc, hret, hpush, hleft⟩ | ⟨-, ⟨hlt, hret, hstored⟩ |
    ⟨hfull, hret, hstored⟩⟩
  · simp only [hret, hpc]
    refine Or.inl ⟨⟨rfl, hbook, b, pc', rfl, hpush⟩, fun _ _ => trivial, ?_⟩
    exact hgo.imp_left hleft
  · simp only [hret]
    refine Or.inr ⟨rfl, _, rfl, ?_⟩
    simp only [Answers, exchange, if_pos hlt]
    exact ⟨trivial, ⟨b, hstored⟩, hbook⟩
  · simp only [hret]
    refine Or.inr ⟨rfl, _, rfl, ?_⟩
    simp only [Answers, exchange, if_neg (Nat.not_lt.mpr hfull.ge)]
    exact ⟨trivial, ⟨b, hstored⟩, hbook⟩

/-- The batch goes on with the next order, or returns after the last one. -/
theorem Goes.finish {batchSize b k : ℕ} {done rest : List Order} {spurious : Prop}
    (hstored : Ring.Stored Z m.queue b (s.1.drop (min batchSize 100)))
    (hbatch : s.1.take (min batchSize 100) = done ++ rest)
    (hbook : m.book = done.foldl Book.place s.2) (hk : 5 * rest.length ≤ k) :
    Goes Z s (.process batchSize) k spurious
      (finish m (s.1.take (min batchSize 100)).length rest) := by
  cases rest with
  | nil =>
      rw [List.append_nil] at hbatch
      rw [← hbatch] at hbook
      exact Or.inr ⟨rfl, _, rfl, rfl, ⟨b, hstored⟩, hbook⟩
  | cons order rest =>
      refine Or.inl ⟨⟨⟨b, hstored⟩, rfl, done, hbatch, hbook⟩, fun _ _ => trivial, Or.inl ?_⟩
      simp only [OrderBook.finish, nextOrder, PC.left, OrderPC.left, List.length_cons] at hk ⊢
      omega

/-- All the orders of the batch are popped. -/
theorem Goes.batchEnd {batchSize b k : ℕ} {done q : List Order} {spurious : Prop}
    (hbook : m.book = s.2) (htake : s.1.take (min batchSize 100) = done)
    (hdrop : s.1.drop (min batchSize 100) = q) (hstored : Ring.Stored Z m.queue b q)
    (hk : 5 * done.length ≤ k) :
    Goes Z s (.process batchSize) k spurious (OrderBook.finish m done.length done) := by
  subst htake hdrop
  have hnone : s.1.take (min batchSize 100) = [] ++ s.1.take (min batchSize 100) := rfl
  exact .finish hstored hnone hbook hk

theorem Goes.callPop {batchSize b : ℕ} {done q : List Order} (spurious : Prop)
    (hbook : m.book = s.2) (hs : s.1 = done ++ q) (hle : done.length ≤ min batchSize 100)
    (hstored : Ring.Stored Z m.queue b q) :
    Goes Z s (.process batchSize)
      (12 * (min batchSize 100 - done.length) + 5 * done.length + 6) spurious
      (callPop m (min batchSize 100) done) := by
  unfold OrderBook.callPop
  split_ifs with hlt
  · refine Or.inl ⟨⟨rfl, hbook, b, q, hs, Or.inr ⟨_, hlt, rfl, hstored⟩⟩, fun _ _ => trivial,
      Or.inl ?_⟩
    simp [PC.left, Ring.PC.left, Ring.start, Ring.PopPC.left]
  · have hlen : done.length = min batchSize 100 := by omega
    refine .batchEnd hbook ?_ ?_ hstored (by omega)
    · rw [hs, List.take_left' hlen]
    · rw [hs, List.drop_left' hlen]

theorem Goes.popBatch {batchSize b : ℕ} {done q : List Order} {pc : Ring.PopPC Order}
    (hbook : m.book = s.2) (hs : s.1 = done ++ q) (hlt : done.length < min batchSize 100)
    (h : Ring.Popping Z id b q m.queue pc) (ch : Choice Op) :
    Goes Z s (.process batchSize)
      (12 * (min batchSize 100 - done.length) + 5 * done.length + pc.left) (ch ≠ .go)
      (tryPopBatch m (min batchSize 100) done
        (Ring.prog Z id m.queue (.pop pc) ch.access)) := by
  obtain ⟨spurious, ho, hgo⟩ := Ring.prog_pop_access (↑Z) id m.queue pc ch
  rw [ho, tryPopBatch_eq]
  rcases h.step spurious with ⟨pc', hpc, hret, hpop, hleft⟩ | ⟨hpc, ⟨x, q', rfl, hret, hstored⟩ |
    ⟨rfl, hret, hstored⟩⟩
  · simp only [hret, hpc]
    refine Or.inl ⟨⟨rfl, hbook, b, q, hs, Or.inr ⟨pc', hlt, rfl, hpop⟩⟩, fun _ _ => trivial, ?_⟩
    exact hgo.imp_left fun hgo => Nat.add_lt_add_left (hleft hgo) _
  · simp only [hret, hpc]
    have hlen : (done ++ [x]).length = done.length + 1 := by simp
    refine Or.inl ⟨⟨rfl, hbook, b + 1, q', by simp [hs], Or.inl ⟨rfl, ?_, hstored⟩⟩,
      fun _ _ => trivial, Or.inl ?_⟩
    · rw [hlen]
      exact hlt
    · simp only [PC.left, Ring.PC.left, hlen]
      omega
  · simp only [hret]
    rw [List.append_nil] at hs
    refine .batchEnd hbook ?_ ?_ hstored (by omega)
    · rw [hs, List.take_of_length_le hlt.le]
    · rw [hs, List.drop_of_length_le hlt.le]

theorem Goes.place {batchSize b : ℕ} {done rest : List Order} {order : Order} {opc : OrderPC}
    (hstored : Ring.Stored Z m.queue b (s.1.drop (min batchSize 100)))
    (hbatch : s.1.take (min batchSize 100) = done ++ order :: rest)
    (h : Midway (done.foldl Book.place s.2) order m.book opc) (spurious : Bool) :
    Goes Z s (.process batchSize) (5 * rest.length + opc.left) (spurious = true)
      (processSingleOrder m spurious (s.1.take (min batchSize 100)).length order rest opc) := by
  rcases h.step spurious with ⟨opc', hpc, hmid, hqueue, hleft⟩ | ⟨m', ho, hbook, hqueue⟩
  · refine Or.inl ⟨?_, fun _ _ => trivial, ?_⟩
    · rw [hpc]
      exact ⟨⟨b, hqueue ▸ hstored⟩, rfl, done, hbatch, hmid⟩
    · rw [hpc]
      exact hleft.imp_left fun hlt => Nat.add_lt_add_left hlt _
  · rw [List.append_cons] at hbatch
    rw [ho]
    refine .finish (hqueue ▸ hstored) hbatch ?_ (Nat.le_add_right _ _)
    rw [hbook, List.foldl_append]
    rfl

/-- One step of a call. -/
theorem InCall.step {op : Op} {pc : PC} (h : InCall Z s m op pc) {ch : Choice Op}
    (hch : ∀ op, ch ≠ .call op) : Goes Z s op pc.left (ch ≠ .go) (prog Z m pc ch) := by
  have hch := Choice.go_or_fault hch
  cases op with
  | submit order =>
      cases pc with
      | submit order' rpc =>
          obtain ⟨rfl, hbook, b, pc, rfl, h⟩ := h
          have hgoes := Goes.submit hbook h ch
          rcases hch with rfl | rfl <;> exact hgoes
      | _ => exact h.elim
  | process batchSize =>
      cases pc with
      | popBatch limit done rpc =>
          obtain ⟨rfl, hbook, b, q, hs, ⟨rfl, hle, h⟩ | ⟨pc, hlt, rfl, h⟩⟩ := h
          · have hgoes := Goes.callPop (ch ≠ .go) hbook hs hle h
            rcases hch with rfl | rfl <;> exact hgoes
          · have hgoes := Goes.popBatch hbook hs hlt h ch
            rcases hch with rfl | rfl <;> exact hgoes
      | process count order rest opc =>
          obtain ⟨⟨b, hstored⟩, rfl, done, hbatch, hmid⟩ := h
          rcases hch with rfl | rfl
          · exact (Goes.place hstored hbatch hmid false).weaken fun h => by cases h
          · exact (Goes.place hstored hbatch hmid true).weaken fun _ h => by cases h
      | _ => exact h.elim

/-- A call that has ended has done what it does to the queue and the book. -/
theorem answers_of_ends {op : Op} {m' : Mem} {evs : List Event} (h : Represents Z m s)
    (hrun : Ends (prog Z) .idle m (OrderBook.start op) m' evs) :
    Represents Z m' (exchange Z.size s op).1
      ∧ evs.getLast? = some (exchange Z.size s op).2 := by
  have hidle : ∀ m, ¬ InCall Z s m op .idle := by
    intro m hcall
    cases op <;> exact hcall
  obtain ⟨evs', e, rfl, -, rfl, hrep⟩ := Ends.of_proceeds PC.left
    (fun m pc ch (hcall : InCall Z s m op pc) hch => hcall.step hch) hidle hrun (.start h op)
  exact ⟨hrep, List.getLast?_concat⟩

theorem returns (h : Represents Z m s) (op : Op) :
    Returns (prog Z) .idle m (OrderBook.start op) := by
  refine Returns.of_proceeds PC.left
    (fun m pc ch (hcall : InCall Z s m op pc) hch => hcall.step hch) (fun m ch hch => ?_)
    (.start h op)
  rcases Choice.go_or_fault hch with rfl | rfl <;> rfl

end Steps

/-! ## Logs of calls -/

/-- The state the constructor leaves. -/
def initMem (buffer : ℕ → Order) : Mem := ⟨Ring.initMem buffer, Side.noBest, fun _ => 0, 0⟩

example (Z : PowSize) (ι : Type*) (buffer : ℕ → Order) :
    (system Z ι buffer).init.mem = initMem buffer := rfl

theorem Represents.init (Z : PowSize) (buffer : ℕ → Order) :
    Represents Z (initMem buffer) ([], Book.init) :=
  ⟨⟨0, Ring.Stored.init Z buffer⟩, rfl⟩

def Event.asAccepted : Event → Option Order
  | .accepted order => some order
  | _ => none

def Event.asProcessed : Event → Option ℕ
  | .processed count => some count
  | _ => none

/-- The return of a call is its last event. -/
def returnOf (k : Call Mem Op Event) : Option Event := k.events.getLast?

/-- The orders for which `submit_order` has returned true. -/
def accepted (L : List (Call Mem Op Event)) : List Order :=
  L.filterMap fun k => (returnOf k).bind Event.asAccepted

/-- What the calls of `process_orders` have returned. -/
def processed (L : List (Call Mem Op Event)) : List ℕ :=
  L.filterMap fun k => (returnOf k).bind Event.asProcessed

/-- The last call is one of `process_orders` with room for an order, and returns 0. -/
def Drained (L : List (Call Mem Op Event)) : Prop :=
  ∃ L' k batchSize, L = L' ++ [k] ∧ 1 ≤ batchSize ∧ k.op = .process batchSize
    ∧ returnOf k = some (.processed 0)

theorem accepted_append (L L' : List (Call Mem Op Event)) :
    accepted (L ++ L') = accepted L ++ accepted L' :=
  List.filterMap_append

theorem processed_append (L L' : List (Call Mem Op Event)) :
    processed (L ++ L') = processed L ++ processed L' :=
  List.filterMap_append

theorem accepted_singleton {k : Call Mem Op Event} {e : Event} (h : returnOf k = some e) :
    accepted [k] = e.asAccepted.toList := by
  simp only [accepted, List.filterMap_cons, List.filterMap_nil, h, Option.bind_some]
  cases e.asAccepted <;> rfl

theorem processed_singleton {k : Call Mem Op Event} {e : Event} (h : returnOf k = some e) :
    processed [k] = e.asProcessed.toList := by
  simp only [processed, List.filterMap_cons, List.filterMap_nil, h, Option.bind_some]
  cases e.asProcessed <;> rfl

section Represented

variable {Z : PowSize} {m₀ m : Mem} {q₀ : List Order} {B₀ : Book}
  {L : List (Call Mem Op Event)}

/-- The orders there were and those accepted are those that have been placed in the book,
one by one, and those still in the queue. -/
theorem Represents.placed (h₀ : Represents Z m₀ (q₀, B₀))
    (hlog : CallLog (Ends (prog Z) .idle) start m₀ m L) :
    ∃ done q, Represents Z m (q, done.foldl Book.place B₀)
      ∧ q₀ ++ accepted L = done ++ q ∧ (processed L).sum = done.length := by
  induction hlog with
  | init => exact ⟨[], q₀, h₀, List.append_nil q₀, rfl⟩
  | @call m L op m' evs _ hrun ih =>
      obtain ⟨done, q, hrep, haccepted, hprocessed⟩ := ih
      obtain ⟨hrep', hlast⟩ := answers_of_ends hrep hrun
      have hreturn : returnOf ⟨op, m, m', evs⟩ = some _ := hlast
      rw [accepted_append, processed_append, accepted_singleton hreturn,
        processed_singleton hreturn, ← List.append_assoc, haccepted, List.sum_append, hprocessed]
      cases op with
      | submit order =>
          simp only [exchange] at hrep' ⊢
          split_ifs at hrep' ⊢ with hroom
          · refine ⟨done, q ++ [order], hrep', ?_, rfl⟩
            exact List.append_assoc done q [order]
          · exact ⟨done, q, hrep', List.append_nil _, rfl⟩
      | process batchSize =>
          refine ⟨done ++ q.take (min batchSize 100), q.drop (min batchSize 100), ?_, ?_, ?_⟩
          · rw [List.foldl_append]
            exact hrep'
          · show done ++ q ++ [] = _
            rw [List.append_nil, List.append_assoc, List.take_append_drop]
          · rw [List.length_append]
            rfl

/-- Once a call with room for an order has returned 0, all the orders there were and all the
accepted ones are in the book. -/
theorem Represents.drained (h₀ : Represents Z m₀ (q₀, B₀)) (hdrained : Drained L)
    (hlog : CallLog (Ends (prog Z) .idle) start m₀ m L) :
    (processed L).sum = (q₀ ++ accepted L).length
      ∧ m.book = (q₀ ++ accepted L).foldl Book.place B₀ := by
  obtain ⟨L', k, batchSize, rfl, hsize, hop, hreturn⟩ := hdrained
  obtain ⟨hlog', hrun⟩ := hlog.of_concat
  obtain ⟨done, q, hrep, haccepted, hprocessed⟩ := h₀.placed hlog'
  rw [hop] at hrun
  obtain ⟨hrep', hlast⟩ := answers_of_ends hrep hrun
  have hzero : Event.processed 0 = .processed (q.take (min batchSize 100)).length :=
    Option.some.inj (hreturn.symm.trans hlast)
  have hempty : q = [] := by
    injection hzero with hlen
    rw [List.length_take] at hlen
    exact List.length_eq_zero_iff.mp (by omega)
  subst hempty
  rw [List.append_nil] at haccepted
  rw [accepted_append, processed_append, accepted_singleton hreturn,
    processed_singleton hreturn, ← List.append_assoc, haccepted, List.sum_append, hprocessed,
    hrep'.book]
  simp [Event.asAccepted, Event.asProcessed, exchange]

theorem Represents.exists_processed (h₀ : Represents Z m₀ (q₀, B₀)) {k : Call Mem Op Event}
    {batchSize : ℕ} (hlog : CallLog (Ends (prog Z) .idle) start m₀ m L) (hk : k ∈ L)
    (hop : k.op = .process batchSize) : ∃ n, returnOf k = some (.processed n) := by
  induction hlog with
  | init => cases hk
  | @call m L op m' evs hlog hrun ih =>
      rcases List.mem_append.mp hk with hk | hk
      · exact ih hk
      · obtain ⟨done, q, hrep, -⟩ := h₀.placed hlog
        rw [List.mem_singleton] at hk
        subst hk
        obtain rfl : op = .process batchSize := hop
        exact ⟨_, (answers_of_ends hrep hrun).2⟩

end Represented

/-- Once a call with room for an order has returned 0, all the accepted orders are in the
book. -/
theorem Drained.placed {Z : PowSize} {buffer : ℕ → Order} {m : Mem} {L : List (Call Mem Op Event)}
    (hdrained : Drained L) (hlog : CallLog (Ends (prog Z) .idle) start (initMem buffer) m L) :
    (processed L).sum = (accepted L).length
      ∧ m.book = (accepted L).foldl Book.place Book.init :=
  (Represents.init Z buffer).drained hdrained hlog

/-- Calls of which none returns 0. -/
theorem length_le_processed {D : List (Call Mem Op Event)}
    (h : ∀ k ∈ D, ∃ n, returnOf k = some (.processed n) ∧ n ≠ 0) :
    accepted D = [] ∧ D.length ≤ (processed D).sum := by
  induction D with
  | nil => exact ⟨rfl, Nat.le_refl 0⟩
  | cons k D ih =>
      obtain ⟨n, hreturn, hn⟩ := h k List.mem_cons_self
      obtain ⟨haccepted, hle⟩ := ih fun k' hk' => h k' (List.mem_cons_of_mem k hk')
      rw [← List.singleton_append, accepted_append, processed_append,
        accepted_singleton hreturn, processed_singleton hreturn, haccepted, List.sum_append]
      refine ⟨rfl, ?_⟩
      simp only [List.length_append, List.length_singleton, Event.asProcessed,
        Option.toList_some, List.sum_singleton]
      omega

/-- Of more calls with room for an order than orders there are to process, one returns 0. -/
theorem Represents.exists_zero {Z : PowSize} {m₀ m : Mem} {q₀ : List Order} {B₀ : Book}
    {L₁ D : List (Call Mem Op Event)} (h₀ : Represents Z m₀ (q₀, B₀))
    (hlog : CallLog (Ends (prog Z) .idle) start m₀ m (L₁ ++ D))
    (hD : ∀ k ∈ D, ∃ batchSize, 1 ≤ batchSize ∧ k.op = .process batchSize)
    (hlt : (q₀ ++ accepted L₁).length < D.length) :
    ∃ k ∈ D, returnOf k = some (.processed 0) := by
  by_contra hnone
  obtain ⟨hnil, hle⟩ := length_le_processed (D := D) fun k hk => by
    obtain ⟨batchSize, -, hop⟩ := hD k hk
    obtain ⟨n, hreturn⟩ := h₀.exists_processed hlog (List.mem_append_right L₁ hk) hop
    refine ⟨n, hreturn, fun hn => hnone ⟨k, hk, ?_⟩⟩
    rw [hreturn, hn]
  obtain ⟨done, q, -, haccepted, hprocessed⟩ := h₀.placed hlog
  rw [accepted_append, hnil, List.append_nil] at haccepted
  rw [processed_append, List.sum_append] at hprocessed
  rw [haccepted, List.length_append] at hlt
  omega

/-- One thread submits orders and processes them. Every call returns; of more calls of
`process_orders` with room for an order than orders have been accepted, one returns 0; and
when one has, as many orders have been processed as have been accepted, and the book is that
of the accepted orders placed one by one. So it is the same in any two such runs in which
the same orders were accepted. -/
theorem drain_independent_of_batches (Z : PowSize) (buffer : ℕ → Order) {m : Mem}
    {L : List (Call Mem Op Event)}
    (hlog : CallLog (Ends (prog Z) .idle) start (initMem buffer) m L) :
    (∀ op, Returns (prog Z) .idle m (start op))
      ∧ (∀ L₁ D, L = L₁ ++ D →
        (∀ k ∈ D, ∃ batchSize, 1 ≤ batchSize ∧ k.op = .process batchSize) →
        (accepted L₁).length < D.length → ∃ k ∈ D, returnOf k = some (.processed 0))
      ∧ (Drained L → (processed L).sum = (accepted L).length
        ∧ m.book = (accepted L).foldl Book.place Book.init
        ∧ ∀ buffer' m' L', CallLog (Ends (prog Z) .idle) start (initMem buffer') m' L' →
          Drained L' → accepted L' = accepted L →
          (processed L').sum = (processed L).sum ∧ m'.book = m.book) := by
  have h₀ := Represents.init Z buffer
  obtain ⟨done, q, hrep, -⟩ := h₀.placed hlog
  refine ⟨returns hrep, fun L₁ D hL hD hlt => ?_, fun hdrained => ?_⟩
  · subst hL
    exact h₀.exists_zero hlog hD hlt
  · obtain ⟨hsum, hbook⟩ := hdrained.placed hlog
    refine ⟨hsum, hbook, fun buffer' m' L' hlog' hdrained' hsame => ?_⟩
    obtain ⟨hsum', hbook'⟩ := hdrained'.placed hlog'
    rw [hsum', hbook', hsame]
    exact ⟨hsum.symm, hbook.symm⟩

/-- There is a log of any calls, with the returns they have. -/
theorem exists_log (Z : PowSize) (buffer : ℕ → Order) (ops : List Op) :
    ∃ m L, CallLog (Ends (prog Z) .idle) start (initMem buffer) m L ∧ L.map (·.op) = ops
      ∧ L.map returnOf = (answers (exchange Z.size) ([], Book.init) ops).map some := by
  have hrefines := fun m L h => CallLog.refines (m := m) (L := L) (exchange Z.size)
    (Represents Z) List.getLast? some answers_of_ends (.init Z buffer) h
  obtain ⟨m, L, hlog, rfl⟩ := exists_callLog
    (fun m L h op => (returns (hrefines m L h).1 op).ends) ops
  exact ⟨m, L, hlog, rfl, (hrefines m L hlog).2⟩

theorem accepted_eq (L : List (Call Mem Op Event)) :
    accepted L = (L.map returnOf).filterMap fun e => e.bind Event.asAccepted := by
  rw [List.filterMap_map]
  rfl

theorem drained_of_last {L : List (Call Mem Op Event)} {batchSize : ℕ} (hsize : 1 ≤ batchSize)
    (hop : (L.map (·.op)).getLast? = some (.process batchSize))
    (hreturn : (L.map returnOf).getLast? = some (some (.processed 0))) : Drained L := by
  rw [List.getLast?_map] at hop hreturn
  obtain ⟨k, hk, hopk⟩ := Option.map_eq_some_iff.mp hop
  rw [hk] at hreturn
  obtain ⟨L', rfl⟩ := List.getLast?_eq_some_iff.mp hk
  exact ⟨L', k, batchSize, rfl, hsize, hopk, Option.some.inj hreturn⟩

/-- Two orders are submitted and processed in batches of 1, 200 and 1. -/
theorem drain_independent_of_batches_two :
    ∃ m L, CallLog (Ends (prog Ring.twoCells) .idle) start (initMem fun _ => ⟨.buy, 0, 0⟩) m L
      ∧ L.map (·.op) = [.submit ⟨.sell, 10, 5⟩, .submit ⟨.buy, 10, 3⟩, .process 1, .process 200,
        .process 1]
      ∧ Drained L ∧ (processed L).sum = 2
      ∧ m.book = [⟨.sell, 10, 5⟩, ⟨.buy, 10, 3⟩].foldl Book.place Book.init := by
  obtain ⟨m, L, hlog, hops, hreturns⟩ := exists_log Ring.twoCells (fun _ => ⟨.buy, 0, 0⟩)
    [.submit ⟨.sell, 10, 5⟩, .submit ⟨.buy, 10, 3⟩, .process 1, .process 200, .process 1]
  have haccepted : accepted L = [⟨.sell, 10, 5⟩, ⟨.buy, 10, 3⟩] := by
    rw [accepted_eq, hreturns]
    rfl
  have hdrained : Drained L := by
    refine drained_of_last (Nat.le_refl 1) ?_ ?_
    · rw [hops]
      rfl
    · rw [hreturns]
      rfl
  obtain ⟨hsum, hbook, -⟩ := (drain_independent_of_batches _ _ hlog).2.2 hdrained
  rw [haccepted] at hsum hbook
  exact ⟨m, L, hlog, hops, hdrained, hsum, hbook⟩

end OrderBook

end Lockless
