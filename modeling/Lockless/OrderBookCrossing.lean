import Lockless.OrderBookPrices

/-!
# Crossed books

Whether an order rests is decided on one load of the best price of the other
side. An order of that side which has itself been decided to rest, but has not
raised its best price yet, is not seen: `crossingOrders` is a run that leaves
the book crossed because of that.

These orders are the only ones missed. If every order that is decided to rest
is compatible with those on their way to rest on the other side, the best
prices of the two sides are compatible with each other and with every order on
its way; and if one is not, the book is crossed when both have rested.
-/

namespace Lockless

namespace OrderBook

variable {ι : Type*}

/-- A BUY order at `bid` and a SELL order at `ask` do not cross. -/
def Compatible (bid ask : ℕ) : Prop := bid = 0 ∨ uint64Max ≤ ask ∨ bid < ask

instance (bid ask : ℕ) : Decidable (Compatible bid ask) :=
  inferInstanceAs (Decidable (_ ∨ _ ∨ _))

/-- A price of one side is compatible with a price of the other. -/
def Side.Compatible : Side → ℕ → ℕ → Prop
  | .buy, price, ask => OrderBook.Compatible price ask
  | .sell, price, bid => OrderBook.Compatible bid price

instance (price other : ℕ) : (side : Side) → Decidable (side.Compatible price other)
  | .buy => inferInstanceAs (Decidable (OrderBook.Compatible price other))
  | .sell => inferInstanceAs (Decidable (OrderBook.Compatible other price))

/-- The order a thread has decided to rest, until its price has been compared
with the best one. -/
def PC.resting : PC → Option Order
  | .process _ order _ .addTotal => some order
  | .process _ order _ .loadBest => some order
  | .process _ order _ (.casBest _) => some order
  | _ => none

/-- The order the next step decides to rest. -/
def decided (m : Mem) : PC → Choice Op → Option Order
  | .process _ _ _ .loadOpposite, .call _ => none
  | .process _ order _ .loadOpposite, _ =>
      if order.side.Crosses order.price (m.best order.side.opposite) then none
      else some order
  | _, _ => none

/-- An order is decided to rest only while no order of the other side is on
its way to rest with a price that crosses its own. -/
def Clear (c : Config ι Mem PC) (a : ι × Choice Op) : Prop :=
  ∀ o ∈ decided c.mem (c.pc a.1) a.2, ∀ q, ∀ o' ∈ (c.pc q).resting,
    o'.side = o.side.opposite → o.side.Compatible o.price o'.price

instance [Fintype ι] (c : Config ι Mem PC) (a : ι × Choice Op) : Decidable (Clear c a) :=
  inferInstanceAs (Decidable (∀ o ∈ decided c.mem (c.pc a.1) a.2, ∀ q,
    ∀ o' ∈ (c.pc q).resting, o'.side = o.side.opposite → o.side.Compatible o.price o'.price))

namespace Side

@[simp] theorem opposite_opposite (side : Side) : side.opposite.opposite = side := by
  cases side <;> rfl

theorem opposite_ne (side : Side) : side.opposite ≠ side := by
  cases side <;> decide

theorem Compatible.symm {side : Side} {a b : ℕ} (h : side.Compatible a b) :
    side.opposite.Compatible b a := by
  cases side <;> exact h

theorem compatible_of_not_crosses {side : Side} {price current : ℕ}
    (h : ¬ side.Crosses price current) : side.Compatible price current := by
  cases side <;> simp only [Crosses, Side.Compatible, OrderBook.Compatible] at h ⊢ <;> omega

/-- Prices that are no better are compatible too. -/
theorem Compatible.of_not_improves {side : Side} {a a' b b' : ℕ} (h : side.Compatible a b)
    (ha : ¬ side.Improves a' a) (hb : ¬ side.opposite.Improves b' b) :
    side.Compatible a' b' := by
  cases side <;>
    simp only [Improves, opposite, Side.Compatible, OrderBook.Compatible] at h ha hb ⊢ <;>
    omega

end Side

/-! ## Prices on offer -/

/-- The price is the best one of the side or that of an order on its way. -/
def Offered (c : Config ι Mem PC) (s : Side) (price : ℕ) : Prop :=
  price = c.mem.best s ∨ ∃ p o, (c.pc p).resting = some o ∧ o.side = s ∧ o.price = price

def Uncrossed (c : Config ι Mem PC) : Prop :=
  ∀ {s price price'}, Offered c s price → Offered c s.opposite price' →
    s.Compatible price price'

@[simp] theorem nextOrder_resting (count : ℕ) (rest : List Order) :
    (nextOrder count rest).resting = none := by
  cases rest <;> rfl

theorem resting_of_opc {count : ℕ} {order : Order} {rest : List Order} {opc : OrderPC}
    (h : opc = .loadBest ∨ ∃ current, opc = .casBest current) :
    (PC.process count order rest opc).resting = some order := by
  rcases h with rfl | ⟨current, rfl⟩ <;> rfl

/-- What a step does to the orders on their way: nothing, or an order is
decided to rest, or its thread is done with it, having raised the best price
or not. -/
theorem Effect.resting {m m' : Mem} {pc pc' : PC} {ev : Option Event}
    (he : Effect m pc m' pc' ev) :
    (m'.best = m.best ∧ pc'.resting = pc.resting)
      ∨ (∃ count o rest, pc = .process count o rest .loadOpposite ∧ m'.best = m.best
        ∧ ¬ o.side.Crosses o.price (m.best o.side.opposite)
        ∧ pc' = .process count o rest .addTotal)
      ∨ ∃ o, pc.resting = some o ∧ pc.settling = some o ∧ pc'.resting = none
        ∧ ∀ s, m'.best s = m.best s ∨ (o.side = s ∧ m'.best s = o.price) := by
  cases he with
  | start op => cases op <;> exact Or.inl ⟨rfl, rfl⟩
  | batchEnd => exact Or.inl ⟨rfl, nextOrder_resting _ _⟩
  | subTotal => exact Or.inl ⟨rfl, nextOrder_resting _ _⟩
  | noCross count order rest h => exact Or.inr (Or.inl ⟨count, order, rest, rfl, rfl, h, rfl⟩)
  | improve count order rest opc hopc h => exact Or.inl ⟨rfl, (resting_of_opc hopc).symm⟩
  | settle count order rest opc hopc h =>
      exact Or.inr (Or.inr ⟨order, resting_of_opc hopc, settling_of_opc hopc,
        nextOrder_resting _ _, fun s => Or.inl rfl⟩)
  | raise count order rest =>
      refine Or.inr (Or.inr ⟨order, rfl, rfl, nextOrder_resting _ _, fun s => ?_⟩)
      by_cases hs : s = order.side
      · subst hs
        exact Or.inr ⟨rfl, Function.update_self _ _ _⟩
      · exact Or.inl (Function.update_of_ne hs _ _)
  | _ => exact Or.inl ⟨rfl, rfl⟩

section Step

variable [DecidableEq ι] {c : Config ι Mem PC} {p : ι} {m : Mem} {pc : PC}
  {ev : Option Event}

/-- A price on offer after a step was on offer before, or is that of the order
the step decides to rest. -/
theorem Offered.of_step (he : Effect c.mem (c.pc p) m pc ev) {s : Side} {price : ℕ}
    (h : Offered ⟨m, Function.update c.pc p pc⟩ s price) :
    Offered c s price ∨ ∃ count o rest, c.pc p = .process count o rest .loadOpposite
      ∧ ¬ o.side.Crosses o.price (c.mem.best o.side.opposite)
      ∧ pc = .process count o rest .addTotal ∧ o.side = s ∧ o.price = price := by
  rcases h with rfl | ⟨q, o, hq, ho⟩
  · left
    rcases he.resting with ⟨hbest, -⟩ | ⟨-, -, -, -, hbest, -⟩ | ⟨o, hold, -, -, hbest⟩
    · exact Or.inl (congrFun hbest s)
    · exact Or.inl (congrFun hbest s)
    · rcases hbest s with hs | ⟨hside, hs⟩
      · exact Or.inl hs
      · exact Or.inr ⟨p, o, hold, hside, hs.symm⟩
  · rcases of_update (P := fun x => PC.resting x = some o) hq with ⟨rfl, hrest⟩ | ⟨-, hrest⟩
    · rcases he.resting with ⟨-, hsame⟩ | ⟨count, o', rest, hpc, -, hnot, hnew⟩
        | ⟨o', -, -, hnew, -⟩
      · exact Or.inl (Or.inr ⟨q, o, hsame ▸ hrest, ho⟩)
      · subst hnew
        obtain rfl : o' = o := Option.some.inj hrest
        exact Or.inr ⟨count, o', rest, hpc, hnot, rfl, ho⟩
      · rw [hnew] at hrest
        cases hrest
    · exact Or.inl (Or.inr ⟨q, o, hrest, ho⟩)

theorem resting_of_decided {Z : AdmittedSize} {m : Mem} {pc : PC} {ch : Choice Op} {o : Order}
    (h : decided m pc ch = some o) : (prog Z m pc ch).pc.resting = some o := by
  unfold decided at h
  split at h
  · cases h
  · next hcall =>
      split_ifs at h with hcross
      cases h
      cases ch with
      | call op => exact absurd rfl (hcall op)
      | go => simp [prog, processSingleOrder, hcross, PC.resting]
      | fault => simp [prog, processSingleOrder, hcross, PC.resting]
  · cases h

theorem decided_of_prog {Z : AdmittedSize} {m : Mem} {pc : PC} {ch : Choice Op} {count : ℕ}
    {o : Order} {rest : List Order} (hpc : pc = .process count o rest .loadOpposite)
    (hnot : ¬ o.side.Crosses o.price (m.best o.side.opposite))
    (hnext : (prog Z m pc ch).pc = .process count o rest .addTotal) :
    decided m pc ch = some o := by
  subst hpc
  cases ch with
  | call op => cases hnext
  | go => exact if_neg hnot
  | fault => exact if_neg hnot

omit [DecidableEq ι] in
/-- A price on offer on the other side is compatible with the order the step
decides to rest. -/
theorem Clear.compatible {a : ι × Choice Op} (hg : Clear c a) {o : Order}
    (ho : decided c.mem (c.pc a.1) a.2 = some o)
    (hnot : ¬ o.side.Crosses o.price (c.mem.best o.side.opposite)) {price : ℕ}
    (h : Offered c o.side.opposite price) : o.side.Compatible o.price price := by
  rcases h with rfl | ⟨q, o', hq, hside, rfl⟩
  · exact Side.compatible_of_not_crosses hnot
  · exact hg o ho q o' hq hside

theorem Uncrossed.step {Z : AdmittedSize} {buffer : ℕ → Order} (h : Uncrossed c)
    {a : ι × Choice Op} (hg : Clear c a) : Uncrossed ((system Z ι buffer).next c a) := by
  intro s price price' hs hs'
  have he := prog_effect (Z := Z) c.mem (c.pc a.1) a.2
  rcases Offered.of_step he hs with hold | ⟨count, o, rest, hpc, hnot, hnext, hside, rfl⟩
  · rcases Offered.of_step he hs' with hold' | ⟨count, o, rest, hpc, hnot, hnext, hside, rfl⟩
    · exact h hold hold'
    · have hopp : o.side.opposite = s := by
        rw [hside, Side.opposite_opposite]
      have hcomp := hg.compatible (decided_of_prog hpc hnot hnext) hnot (hopp.symm ▸ hold)
      exact hopp ▸ hcomp.symm
  · subst hside
    rcases Offered.of_step he hs' with hold' | ⟨_, o', _, hpc', -, -, hside', -⟩
    · exact hg.compatible (decided_of_prog hpc hnot hnext) hnot hold'
    · -- the step decides about one order only
      cases hpc.symm.trans hpc'
      exact absurd hside'.symm (Side.opposite_ne _)

end Step

theorem resting_of_not_processing {pc : PC} (h : ¬ pc.Processing) : pc.resting = none :=
  of_not_processing (P := fun x => PC.resting x = none) h rfl fun _ _ => rfl

section Run

variable [DecidableEq ι] {Z : AdmittedSize} {buffer : ℕ → Order} {sched : ℕ → ι × Choice Op}

theorem uncrossed_run {n : ℕ}
    (hn : ∀ i, i < n → Clear ((system Z ι buffer).run sched i) (sched i)) :
    Uncrossed ((system Z ι buffer).run sched n) := by
  refine (system Z ι buffer).invariant_of_guard (I := fun c _ => Uncrossed c)
    (G := fun c _ a => Clear c a) ?_ (fun c _ a hg h => h.step hg) hn
  rintro s price price' (rfl | ⟨p, o, hp, -⟩) (rfl | ⟨p', o', hp', -⟩)
  · cases s with
    | buy => exact Or.inl rfl
    | sell => exact Or.inl rfl
  · cases hp'
  · cases hp
  · cases hp

/-- An order that is decided to rest has rested when no thread processes
orders any more. -/
theorem mem_rested_of_resting {i n : ℕ} (hin : i ≤ n) {p : ι} {o : Order}
    (ho : (((system Z ι buffer).run sched i).pc p).resting = some o) :
    (((system Z ι buffer).run sched n).pc p).resting = some o
      ∨ o ∈ rested ((system Z ι buffer).history sched n) := by
  induction n, hin using Nat.le_induction with
  | base => exact Or.inl ho
  | succ n _ ih =>
      have hmono := (system Z ι buffer).history_mono sched (Nat.le_succ n)
      rcases ih with hrest | hmem
      · by_cases hp : p = (sched n).1
        · subst hp
          have he := prog_effect (Z := Z) ((system Z ι buffer).run sched n).mem
            (((system Z ι buffer).run sched n).pc (sched n).1) (sched n).2
          rw [System.run_succ, System.next_pc_self]
          rcases he.resting with ⟨-, hsame⟩ | ⟨_, _, _, hpc, -⟩ | ⟨o', hold, hset, -⟩
          · exact Or.inl (hsame.trans hrest)
          · rw [hpc] at hrest
            cases hrest
          · obtain rfl : o' = o := Option.some.inj (hold.symm.trans hrest)
            exact Or.inr ((hmono.filterMap _).subset ((prices_run n).pending hset))
        · rw [System.run_succ, System.next_pc_ne _ _ hp]
          exact Or.inl hrest
      · exact Or.inr ((hmono.filterMap _).subset hmem)

theorem not_improves_of_resting {i n : ℕ} (hin : i ≤ n) {p : ι} {o : Order}
    (hidle : ∀ q, ¬ (((system Z ι buffer).run sched n).pc q).Processing)
    (ho : (((system Z ι buffer).run sched i).pc p).resting = some o) :
    ¬ o.side.Improves o.price (((system Z ι buffer).run sched n).mem.best o.side) := by
  rcases mem_rested_of_resting hin ho with hrest | hmem
  · rw [resting_of_not_processing (hidle p)] at hrest
    cases hrest
  · exact not_improves_of_idle hidle hmem

end Run

/-- In every run and at every tick at which no call of `process_orders` is in
flight, the book is not crossed if and only if so far orders have been decided
to rest only while no order of the other side was on its way to rest with a
price that crosses theirs. -/
theorem neverCrosses_iff_clear [DecidableEq ι] (Z : AdmittedSize) (buffer : ℕ → Order)
    (sched : ℕ → ι × Choice Op) (n : ℕ)
    (hidle : ∀ p, ¬ (((system Z ι buffer).run sched n).pc p).Processing) :
    (((system Z ι buffer).run sched n).mem.best .buy = 0
        ∨ ((system Z ι buffer).run sched n).mem.best .sell = uint64Max
        ∨ ((system Z ι buffer).run sched n).mem.best .buy
          < ((system Z ι buffer).run sched n).mem.best .sell)
      ↔ ∀ i, i < n → Clear ((system Z ι buffer).run sched i) (sched i) := by
  constructor
  · intro hbest i hi o ho q o' hq hside
    have hcomp : Side.buy.Compatible (((system Z ι buffer).run sched n).mem.best .buy)
        (((system Z ι buffer).run sched n).mem.best .sell) := by
      rcases hbest with hbid | hask | hlt
      · exact Or.inl hbid
      · exact Or.inr (Or.inl hask.ge)
      · exact Or.inr (Or.inr hlt)
    -- the prices of both orders are reached by tick n
    have ho' : (((system Z ι buffer).run sched (i + 1)).pc (sched i).1).resting = some o := by
      rw [System.run_succ, System.next_pc_self]
      exact resting_of_decided ho
    have hreach := not_improves_of_resting (Z := Z) (Nat.succ_le_of_lt hi) hidle ho'
    have hreach' := not_improves_of_resting (Z := Z) (Nat.le_of_lt hi) hidle hq
    rw [hside] at hreach'
    cases hs : o.side with
    | buy =>
        rw [hs] at hreach hreach'
        exact hcomp.of_not_improves hreach hreach'
    | sell =>
        rw [hs] at hreach hreach'
        exact hcomp.symm.of_not_improves hreach hreach'
  · intro hclear
    have hcomp : Side.buy.Compatible _ _ := uncrossed_run hclear (Or.inl rfl) (Or.inl rfl)
    rcases hcomp with hbid | hask | hlt
    · exact Or.inl hbid
    · exact Or.inr (Or.inl (Nat.le_antisymm (best_sell_le Z buffer sched n) hask))
    · exact Or.inr (Or.inr hlt)

/-- One thread submits both orders, each thread pops one, both decide to rest
it, and one after the other adds it to the book. -/
def restBothSteps (o o' : Order) : List (Bool × Choice Op) :=
  (false, Choice.call (Op.submit o)) :: List.replicate 5 (false, Choice.go)
    ++ (false, Choice.call (Op.submit o')) :: List.replicate 5 (false, Choice.go)
    ++ (false, Choice.call (Op.process 1)) :: List.replicate 7 (false, Choice.go)
    ++ (true, Choice.call (Op.process 1)) :: List.replicate 7 (true, Choice.go)
    ++ [(false, Choice.go), (true, Choice.go)] ++ List.replicate 3 (false, Choice.go)

def restBoth (o o' : Order) : ℕ → Bool × Choice Op := fun i =>
  (restBothSteps o o').getD i (true, .go)

/-- The two orders do not cross. -/
def spreadOrders : ℕ → Bool × Choice Op := restBoth ⟨.buy, 10, 1⟩ ⟨.sell, 20, 1⟩

theorem neverCrosses_iff_clear_spreadOrders :
    (((smallBook Bool).run spreadOrders 36).mem.best .buy = 10
        ∧ ((smallBook Bool).run spreadOrders 36).mem.best .sell = 20)
      ∧ ∀ i, i < 36 → Clear ((smallBook Bool).run spreadOrders i) (spreadOrders i) :=
  ⟨by decide +kernel, (neverCrosses_iff_clear Ring.twoCells (fun _ => ⟨.buy, 0, 0⟩)
    spreadOrders 36 (by decide +kernel)).mp (by decide +kernel)⟩

/-- The two orders cross. -/
def crossingOrders : ℕ → Bool × Choice Op := restBoth ⟨.buy, 10, 1⟩ ⟨.sell, 5, 1⟩

/-- Both orders rest, and the book is left with a best bid of 10 and a best ask
of 5. -/
theorem crossed_crossingOrders :
    (∀ p, ¬ (((smallBook Bool).run crossingOrders 36).pc p).Processing)
      ∧ ((smallBook Bool).run crossingOrders 36).mem.best .buy = 10
      ∧ ((smallBook Bool).run crossingOrders 36).mem.best .sell = 5
      ∧ ¬ (((smallBook Bool).run crossingOrders 36).mem.best .buy = 0
        ∨ ((smallBook Bool).run crossingOrders 36).mem.best .sell = uint64Max
        ∨ ((smallBook Bool).run crossingOrders 36).mem.best .buy
          < ((smallBook Bool).run crossingOrders 36).mem.best .sell) := by
  decide +kernel

end OrderBook

end Lockless
