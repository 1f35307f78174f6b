import Lockless.Custody
import Lockless.OrderBookPrices

/-!
# Totals of the order book

A matched order takes its quantity off the total of the other side, but no more
than that total. The total is read in one access and reduced in another, so two
threads can both find the same quantity there and both take it off:
`racingMatches` is a run in which the total wraps around because of that.

Between the two accesses a thread is owed what it will take off. The totals stay
exact as long as each of these amounts is still there besides those the other
threads are owed when it is read.
-/

namespace Lockless

namespace OrderBook

variable {ι : Type*}

/-- The amount a thread has decided to take off the total of a side. -/
def PC.owed (s : Side) : PC → ℕ
  | .process _ order _ (.subTotal amount) => if order.side.opposite = s then amount else 0
  | _ => 0

/-- The side and the amount the next step decides to take off. -/
def taking (m : Mem) : PC → Choice Op → Option (Side × ℕ)
  | .process _ _ _ .loadTotal, .call _ => none
  | .process _ order _ .loadTotal, _ =>
      some (order.side.opposite, min order.quantity (m.total order.side.opposite))
  | _, _ => none

/-- What a thread decides to take off is in the total besides what the other
threads have decided to take off. -/
def Solvent (c : Config ι Mem PC) (a : ι × Choice Op) : Prop :=
  ∀ x ∈ taking c.mem (c.pc a.1) a.2, ∀ F : Finset ι, a.1 ∉ F →
    ∑ q ∈ F, (c.pc q).owed x.1 + x.2 ≤ c.mem.total x.1

instance [Fintype ι] [DecidableEq ι] (c : Config ι Mem PC) (a : ι × Choice Op) :
    Decidable (Solvent c a) :=
  inferInstanceAs (Decidable (∀ x ∈ taking c.mem (c.pc a.1) a.2, ∀ F : Finset ι,
    a.1 ∉ F → ∑ q ∈ F, (c.pc q).owed x.1 + x.2 ≤ c.mem.total x.1))

/-- The sum of the quantities of the orders of a side that have rested. -/
def restedQuantity (s : Side) (H : List (ι × Event)) : ℕ :=
  (((rested H).filter fun o => o.side = s).map Order.quantity).sum

structure Totals (c : Config ι Mem PC) (H : List (ι × Event)) : Prop where
  covered : ∀ s, Covered (c.mem.total s) fun p => (c.pc p).owed s
  bounded : ∀ s, c.mem.total s ≤ restedQuantity s H

@[simp] theorem nextOrder_owed (s : Side) (count : ℕ) (rest : List Order) :
    (nextOrder count rest).owed s = 0 := by
  cases rest <;> rfl

theorem owed_of_opc {count : ℕ} {order : Order} {rest : List Order} {opc : OrderPC}
    (h : opc = .loadBest ∨ ∃ current, opc = .casBest current) (s : Side) :
    (PC.process count order rest opc).owed s = 0 := by
  rcases h with rfl | ⟨current, rfl⟩ <;> rfl

/-- What a step does to the totals: nothing, or an amount is read, is taken
off, or an order rests. -/
theorem Effect.totals {m m' : Mem} {pc pc' : PC} {ev : Option Event}
    (he : Effect m pc m' pc' ev) :
    (m'.total = m.total ∧ (∀ s, pc'.owed s = pc.owed s) ∧ ev.bind Event.asRested = none)
      ∨ (∃ count o rest, pc = .process count o rest .loadTotal ∧ m'.total = m.total
        ∧ pc' = .process count o rest
          (.subTotal (min o.quantity (m.total o.side.opposite)))
        ∧ ev.bind Event.asRested = none)
      ∨ (∃ count o rest amount, pc = .process count o rest (.subTotal amount)
        ∧ m' = m.setTotal o.side.opposite (m.total o.side.opposite + 2 ^ 64 - amount)
        ∧ (∀ s, pc'.owed s = 0) ∧ ev.bind Event.asRested = none)
      ∨ ∃ o, m' = m.setTotal o.side (m.total o.side + o.quantity)
        ∧ (∀ s, pc'.owed s = pc.owed s) ∧ ev.bind Event.asRested = some o := by
  have hret := returned_bind (f := Event.asRested) fun _ => rfl
  cases he with
  | start op => cases op <;> exact Or.inl ⟨rfl, fun _ => rfl, rfl⟩
  | batchEnd => exact Or.inl ⟨rfl, fun s => nextOrder_owed s _ _, hret _ _⟩
  | loadTotal count order rest =>
      exact Or.inr (Or.inl ⟨count, order, rest, rfl, rfl, rfl, rfl⟩)
  | subTotal count order rest amount =>
      exact Or.inr (Or.inr (Or.inl ⟨count, order, rest, amount, rfl, rfl,
        fun s => nextOrder_owed s _ _, hret _ _⟩))
  | rested count order rest =>
      exact Or.inr (Or.inr (Or.inr ⟨order, rfl, fun _ => rfl, rfl⟩))
  | improve count order rest opc hopc h =>
      exact Or.inl ⟨rfl, fun s => (owed_of_opc hopc s).symm, rfl⟩
  | settle count order rest opc hopc h =>
      refine Or.inl ⟨rfl, fun s => ?_, hret _ _⟩
      rw [nextOrder_owed, owed_of_opc hopc]
  | raise => exact Or.inl ⟨rfl, fun s => nextOrder_owed s _ _, hret _ _⟩
  | _ => exact Or.inl ⟨rfl, fun _ => rfl, rfl⟩

theorem setTotal_sub {m : Mem} {s : Side} {amount : ℕ} (hle : amount ≤ m.total s)
    (hlt : m.total s < 2 ^ 64) :
    (m.setTotal s (m.total s + 2 ^ 64 - amount)).total s = m.total s - amount := by
  simp only [Mem.setTotal, Function.update_self, wrap]
  omega

theorem setTotal_add {m : Mem} {s : Side} {quantity : ℕ} (hlt : m.total s + quantity < 2 ^ 64) :
    (m.setTotal s (m.total s + quantity)).total s = m.total s + quantity := by
  simp only [Mem.setTotal, Function.update_self, wrap]
  omega

theorem taking_of_prog {Z : AdmittedSize} {m : Mem} {pc : PC} {ch : Choice Op} {count : ℕ}
    {o : Order} {rest : List Order} {amount : ℕ}
    (hpc : pc = .process count o rest .loadTotal)
    (hnext : (prog Z m pc ch).pc = .process count o rest (.subTotal amount)) :
    taking m pc ch = some (o.side.opposite, amount) := by
  subst hpc
  cases ch with
  | call op => cases hnext
  | go =>
      cases hnext
      rfl
  | fault =>
      cases hnext
      rfl

section Step

variable [DecidableEq ι] {c : Config ι Mem PC} {H : List (ι × Event)} {p : ι} {m : Mem}
  {pc : PC} {ev : Option Event}

omit [DecidableEq ι] in
theorem restedQuantity_step (s : Side) :
    restedQuantity s (H ++ (ev.map (Prod.mk p)).toList) = restedQuantity s H
      + (((ev.bind Event.asRested).toList.filter fun o => o.side = s).map
        Order.quantity).sum := by
  rw [restedQuantity, rested, orders_append, orders_step, List.filter_append, List.map_append,
    List.sum_append]
  rfl

/-- What the threads are owed after a step of one of them. -/
theorem owed_update (s : Side) : (fun q => (Function.update c.pc p pc q).owed s)
    = Function.update (fun q => (c.pc q).owed s) p (pc.owed s) :=
  map_update (PC.owed s) c.pc p pc

/-- A step after which the total of a side is not smaller and the thread is
owed no more of it. -/
theorem Totals.covered_of_le (h : Totals c H) {s : Side} (htotal : c.mem.total s ≤ m.total s)
    (howed : pc.owed s ≤ (c.pc p).owed s) :
    Covered (m.total s) fun q => (Function.update c.pc p pc q).owed s := by
  rw [owed_update]
  refine Covered.update fun F hp => ?_
  have hle := (h.covered s).add_le hp
  omega

omit [DecidableEq ι] in
theorem restedQuantity_of_none (hev : ev.bind Event.asRested = none) (s : Side) :
    restedQuantity s (H ++ (ev.map (Prod.mk p)).toList) = restedQuantity s H := by
  rw [restedQuantity_step, hev]
  rfl

/-- A thread reads an amount that the total covers. -/
theorem Totals.reads (h : Totals c H) {count : ℕ} {o : Order} {rest : List Order}
    {amount : ℕ} (hpc' : pc = .process count o rest (.subTotal amount))
    (htotal : m.total = c.mem.total) (hev : ev.bind Event.asRested = none)
    (hsol : ∀ F : Finset ι, p ∉ F →
      ∑ q ∈ F, (c.pc q).owed o.side.opposite + amount ≤ c.mem.total o.side.opposite) :
    Totals ⟨m, Function.update c.pc p pc⟩ (H ++ (ev.map (Prod.mk p)).toList) := by
  subst hpc'
  refine ⟨fun s => ?_, fun s => ?_⟩
  · by_cases hs : o.side.opposite = s
    · subst hs
      rw [owed_update, htotal]
      simp only [PC.owed, if_true]
      exact Covered.update hsol
    · refine h.covered_of_le (htotal ▸ Nat.le_refl _) ?_
      simp only [PC.owed, if_neg hs]
      exact Nat.zero_le _
  · rw [restedQuantity_of_none hev, htotal]
    exact h.bounded s

/-- A thread takes off what it is owed. -/
theorem Totals.takes (h : Totals c H) {count : ℕ} {o : Order} {rest : List Order}
    {amount : ℕ} (hpc : c.pc p = .process count o rest (.subTotal amount))
    (hm : m = c.mem.setTotal o.side.opposite (c.mem.total o.side.opposite + 2 ^ 64 - amount))
    (howed : ∀ s, pc.owed s = 0) (hev : ev.bind Event.asRested = none)
    (hlt : ∀ s, restedQuantity s H < 2 ^ 64) :
    Totals ⟨m, Function.update c.pc p pc⟩ (H ++ (ev.map (Prod.mk p)).toList) := by
  subst hm
  have hold : (c.pc p).owed o.side.opposite = amount := by
    rw [hpc]
    exact if_pos rfl
  have hle := hold ▸ (h.covered o.side.opposite).le p
  have hbound := h.bounded o.side.opposite
  have hsmall := hlt o.side.opposite
  have hnew : (c.mem.setTotal o.side.opposite
      (c.mem.total o.side.opposite + 2 ^ 64 - amount)).total o.side.opposite
        = c.mem.total o.side.opposite - amount :=
    setTotal_sub hle (by omega)
  refine ⟨fun s => ?_, fun s => ?_⟩
  · by_cases hs : s = o.side.opposite
    · subst hs
      rw [owed_update, hnew, howed]
      refine Covered.update fun F hp => ?_
      have hadd := (h.covered o.side.opposite).add_le hp
      rw [hold] at hadd
      omega
    · refine h.covered_of_le ?_ ?_
      · simp only [Mem.setTotal, Function.update_of_ne hs]
        exact Nat.le_refl _
      · rw [howed]
        exact Nat.zero_le _
  · rw [restedQuantity_of_none hev]
    by_cases hs : s = o.side.opposite
    · subst hs
      simp only [hnew]
      omega
    · simp only [Mem.setTotal, Function.update_of_ne hs]
      exact h.bounded s

/-- An order rests. -/
theorem Totals.rests (h : Totals c H) {o : Order}
    (hm : m = c.mem.setTotal o.side (c.mem.total o.side + o.quantity))
    (howed : ∀ s, pc.owed s = (c.pc p).owed s) (hev : ev.bind Event.asRested = some o)
    (hlt : ∀ s, restedQuantity s (H ++ (ev.map (Prod.mk p)).toList) < 2 ^ 64) :
    Totals ⟨m, Function.update c.pc p pc⟩ (H ++ (ev.map (Prod.mk p)).toList) := by
  subst hm
  have hquantity : restedQuantity o.side (H ++ (ev.map (Prod.mk p)).toList)
      = restedQuantity o.side H + o.quantity := by
    rw [restedQuantity_step, hev]
    simp
  have hbound := h.bounded o.side
  have hsmall := hlt o.side
  have hnew : (c.mem.setTotal o.side (c.mem.total o.side + o.quantity)).total o.side
      = c.mem.total o.side + o.quantity :=
    setTotal_add (by omega)
  refine ⟨fun s => ?_, fun s => ?_⟩
  · refine h.covered_of_le ?_ (howed s).le
    by_cases hs : s = o.side
    · subst hs
      rw [hnew]
      exact Nat.le_add_right _ _
    · simp only [Mem.setTotal, Function.update_of_ne hs]
      exact Nat.le_refl _
  · by_cases hs : s = o.side
    · subst hs
      simp only [hnew, hquantity]
      omega
    · simp only [Mem.setTotal, Function.update_of_ne hs]
      rw [restedQuantity_step]
      exact Nat.le_add_right_of_le (h.bounded s)

theorem Totals.step (h : Totals c H) (he : Effect c.mem (c.pc p) m pc ev)
    (hsol : ∀ count o rest amount, c.pc p = .process count o rest .loadTotal →
      pc = .process count o rest (.subTotal amount) → ∀ F : Finset ι, p ∉ F →
        ∑ q ∈ F, (c.pc q).owed o.side.opposite + amount ≤ c.mem.total o.side.opposite)
    (hlt : ∀ s, restedQuantity s (H ++ (ev.map (Prod.mk p)).toList) < 2 ^ 64) :
    Totals ⟨m, Function.update c.pc p pc⟩ (H ++ (ev.map (Prod.mk p)).toList) := by
  rcases he.totals with ⟨htotal, howed, hev⟩ | ⟨count, o, rest, hpc, htotal, hpc', hev⟩
    | ⟨count, o, rest, amount, hpc, hm, howed, hev⟩ | ⟨o, hm, howed, hev⟩
  · refine ⟨fun s => ?_, fun s => ?_⟩
    · exact h.covered_of_le (congrFun htotal s).ge (howed s).le
    · rw [restedQuantity_of_none hev]
      exact (congrFun htotal s).le.trans (h.bounded s)
  · exact h.reads hpc' htotal hev (hsol count o rest _ hpc hpc')
  · refine h.takes hpc hm howed hev fun s => ?_
    rw [← restedQuantity_of_none hev]
    exact hlt s
  · exact h.rests hm howed hev hlt

end Step

/-- What a thread is about to take off is there. -/
theorem Totals.amount_le [DecidableEq ι] {c : Config ι Mem PC} {H : List (ι × Event)}
    (h : Totals c H) {p : ι} {count : ℕ} {o : Order} {rest : List Order} {amount : ℕ}
    (hpc : c.pc p = .process count o rest (.subTotal amount)) :
    amount ≤ c.mem.total o.side.opposite := by
  have hle := (h.covered o.side.opposite).le p
  simp only [hpc, PC.owed, if_true] at hle
  exact hle

section Run

variable [DecidableEq ι] {Z : AdmittedSize} {buffer : ℕ → Order} {sched : ℕ → ι × Choice Op}

theorem restedQuantity_mono {i n : ℕ} (hin : i ≤ n) (s : Side) :
    restedQuantity s ((system Z ι buffer).history sched i)
      ≤ restedQuantity s ((system Z ι buffer).history sched n) := by
  induction n, hin using Nat.le_induction with
  | base => exact Nat.le_refl _
  | succ n _ ih =>
      rw [System.history_succ, System.emitted, restedQuantity_step]
      exact Nat.le_add_right_of_le ih

theorem totals_run {n : ℕ}
    (hlt : ∀ s, restedQuantity s ((system Z ι buffer).history sched n) < 2 ^ 64)
    (hn : ∀ i, i < n → Solvent ((system Z ι buffer).run sched i) (sched i)) :
    Totals ((system Z ι buffer).run sched n) ((system Z ι buffer).history sched n) := by
  refine (system Z ι buffer).invariant_of_guard (G := fun c H a => Solvent c a
    ∧ ∀ s, restedQuantity s (H ++ (system Z ι buffer).emitted c a) < 2 ^ 64) ?_ ?_
    fun i hi => ⟨hn i hi, fun s => ?_⟩
  · refine ⟨fun s F => ?_, fun s => Nat.le_refl 0⟩
    exact (Finset.sum_eq_zero fun p _ => rfl).le
  · intro c H a hg h
    refine h.step (prog_effect c.mem (c.pc a.1) a.2) ?_ hg.2
    intro count o rest amount hpc hpc'
    have hsol := hg.1 _ (taking_of_prog hpc hpc')
    exact hsol
  · rw [← System.history_succ]
    exact Nat.lt_of_le_of_lt (restedQuantity_mono (Nat.succ_le_of_lt hi) s) (hlt s)

end Run

/-- In every run in which the quantities of the orders that rest on a side sum to
less than `2 ^ 64`, and in which what a thread reads to take off a total is there
besides what the other threads have read and not yet taken off, no total exceeds
the sum of the quantities of the orders that have rested on its side, and no
thread is about to take off more than there is. -/
theorem quantities_never_wrap [DecidableEq ι] (Z : AdmittedSize) (buffer : ℕ → Order)
    (sched : ℕ → ι × Choice Op) (n : ℕ)
    (hlt : ∀ s, restedQuantity s ((system Z ι buffer).history sched n) < 2 ^ 64)
    (hn : ∀ i, i < n → Solvent ((system Z ι buffer).run sched i) (sched i)) :
    (∀ s, ((system Z ι buffer).run sched n).mem.total s
        ≤ restedQuantity s ((system Z ι buffer).history sched n))
      ∧ ∀ p count o rest amount, ((system Z ι buffer).run sched n).pc p
          = .process count o rest (.subTotal amount) →
        amount ≤ ((system Z ι buffer).run sched n).mem.total o.side.opposite := by
  have h := totals_run hlt hn
  exact ⟨h.bounded, fun p count o rest amount hpc => h.amount_le hpc⟩

/-- A SELL order of quantity 5 rests; then each thread pops one of the two orders
and matches it, and both read the total before either takes its amount off. -/
def matchBothSteps (o o' : Order) : List (Bool × Choice Op) :=
  (round ⟨.sell, 5, 5⟩).map (Prod.mk false)
    ++ (false, Choice.call (Op.submit o)) :: List.replicate 5 (false, Choice.go)
    ++ (false, Choice.call (Op.submit o')) :: List.replicate 5 (false, Choice.go)
    ++ (false, Choice.call (Op.process 1)) :: List.replicate 7 (false, Choice.go)
    ++ (true, Choice.call (Op.process 1)) :: List.replicate 7 (true, Choice.go)
    ++ List.replicate 3 (false, Choice.go) ++ List.replicate 3 (true, Choice.go)

def matchBoth (o o' : Order) : ℕ → Bool × Choice Op := fun i =>
  (matchBothSteps o o').getD i (i % 2 = 0, .go)

/-- There is enough for both. -/
def sharedMatches : ℕ → Bool × Choice Op := matchBoth ⟨.buy, 10, 2⟩ ⟨.buy, 10, 2⟩

theorem quantities_never_wrap_sharedMatches :
    ((smallBook Bool).run sharedMatches 54).mem.total .sell = 1
      ∧ ∀ s, ((smallBook Bool).run sharedMatches 54).mem.total s
        ≤ restedQuantity s ((smallBook Bool).history sharedMatches 54) :=
  ⟨by decide +kernel, (quantities_never_wrap Ring.twoCells (fun _ => ⟨.buy, 0, 0⟩)
    sharedMatches 54 (by rintro (_ | _) <;> decide +kernel) (by decide +kernel)).1⟩

/-- Each of the two takes all there is. -/
def racingMatches : ℕ → Bool × Choice Op := matchBoth ⟨.buy, 10, 5⟩ ⟨.buy, 10, 5⟩

/-- The quantities sum to 15; the total is taken below zero by the second
thread. -/
theorem wrapped_racingMatches :
    ((popped ((smallBook Bool).history racingMatches 54)).map Order.quantity).sum = 15
      ∧ restedQuantity .sell ((smallBook Bool).history racingMatches 54) = 5
      ∧ ((smallBook Bool).run racingMatches 54).mem.total .sell = 2 ^ 64 - 5
      ∧ ¬ ((smallBook Bool).run racingMatches 54).mem.total .sell
        ≤ restedQuantity .sell ((smallBook Bool).history racingMatches 54) := by
  decide +kernel

end OrderBook

end Lockless
