import Lockless.OrderBookSpread

/-!
# Which orders are matched

With a single processor an order is decided about when all the orders before it have
been dealt with. The best price it is compared with is then that of the orders that
have rested on the other side, so the comparison is a search among these orders: the
order is matched if one of them meets its price, and it rests otherwise.

There are two exceptions, one for each side: 0 and `UINT64_MAX` stand for a side without
a best price, so a BUY order that rests at 0 and a SELL order that rests at `UINT64_MAX`
meet nobody.

A match lowers the total of the other side and leaves its best price where it is. An
order can thus be matched after all that rested on the other side has been taken
off. What the totals tell and what the best prices tell differ in just this: a side has
a best price once an order has rested there, and a total once an order has rested there
since a match last took all that was left.
-/

namespace Lockless

namespace OrderBook

variable {ι : Type*}

/-- An order of the side and price can trade with one that rests at the other price. -/
def Side.Meets : Side → ℕ → ℕ → Prop
  | .buy, price, resting => resting < uint64Max ∧ resting ≤ price
  | .sell, price, resting => 0 < resting ∧ price ≤ resting

instance (price resting : ℕ) : (side : Side) → Decidable (side.Meets price resting)
  | .buy => inferInstanceAs (Decidable (resting < uint64Max ∧ resting ≤ price))
  | .sell => inferInstanceAs (Decidable (0 < resting ∧ price ≤ resting))

/-- An order with a quantity, and with a price that is not read as none. -/
def Order.Proper (o : Order) : Prop :=
  0 < o.quantity ∧ 1 ≤ o.price ∧ o.price ≤ 2 ^ 64 - 2

instance (o : Order) : Decidable o.Proper :=
  inferInstanceAs (Decidable (0 < o.quantity ∧ 1 ≤ o.price ∧ o.price ≤ 2 ^ 64 - 2))

/-! ## Every order is matched or rests -/

def Event.asHandled : Event → Option Order
  | .matched order => some order
  | .rested order => some order
  | _ => none

/-- The orders that have been matched or have rested. -/
def handled (H : List (ι × Event)) : List Order := orders Event.asHandled H

/-- The orders that a thread has popped and neither matched nor rested yet. -/
def PC.pending : PC → List Order
  | .popBatch _ orders _ => orders
  | .process _ order rest .loadOpposite => order :: rest
  | .process _ order rest .addMatched => order :: rest
  | .process _ order rest .addTotal => order :: rest
  | .process _ _ rest _ => rest
  | _ => []

@[simp] theorem nextOrder_pending (count : ℕ) (rest : List Order) :
    (nextOrder count rest).pending = rest := by
  cases rest <;> rfl

/-- Orders are popped at the end of what is pending and dealt with at its front. -/
theorem Effect.pending {m m' : Mem} {pc pc' : PC} {ev : Option Event}
    (he : Effect m pc m' pc' ev) :
    pc.pending ++ (ev.bind Event.asPopped).toList
      = (ev.bind Event.asHandled).toList ++ pc'.pending := by
  have hpopped := returned_bind (f := Event.asPopped) fun _ => rfl
  have hhandled := returned_bind (f := Event.asHandled) fun _ => rfl
  cases he with
  | start op => cases op <;> rfl
  | popped => rfl
  | batchEnd | subTotal | raise =>
      rw [hpopped, hhandled, nextOrder_pending]
      exact List.append_nil _
  | improve count order rest opc hopc h =>
      rcases hopc with rfl | ⟨current, rfl⟩ <;> exact List.append_nil _
  | settle count order rest opc hopc h =>
      rw [hpopped, hhandled, nextOrder_pending]
      rcases hopc with rfl | ⟨current, rfl⟩ <;> exact List.append_nil _
  | _ => exact List.append_nil _

/-- A thread that does not process orders moves nothing but the queue. -/
theorem Effect.aside {m m' : Mem} {pc pc' : PC} {ev : Option Event}
    (he : Effect m pc m' pc' ev) (h : ¬ pc.Processing) :
    m'.best = m.best ∧ ev.bind Event.asPopped = none ∧ ev.bind Event.asHandled = none := by
  cases he with
  | stay | start | submitAccess | accepted | refused => exact ⟨rfl, rfl, rfl⟩
  | _ => exact absurd trivial h

/-- What a thread has found out about the order it is about to count. -/
def PC.Decided (m : Mem) : PC → Prop
  | .process _ order _ .addMatched =>
      order.side.Crosses order.price (m.best order.side.opposite)
  | .process _ order _ .addTotal =>
      ¬ order.side.Crosses order.price (m.best order.side.opposite)
  | _ => True

theorem nextOrder_decided (m : Mem) (count : ℕ) (rest : List Order) :
    (nextOrder count rest).Decided m := by
  cases rest <;> exact trivial

theorem PC.Decided.of_best {m m' : Mem} {pc : PC} (h : pc.Decided m)
    (hbest : m'.best = m.best) : pc.Decided m' := by
  unfold PC.Decided at h ⊢
  rw [hbest]
  exact h

theorem Effect.decided {m m' : Mem} {pc pc' : PC} {ev : Option Event}
    (he : Effect m pc m' pc' ev) (h : pc.Decided m) : pc'.Decided m' := by
  cases he with
  | stay => exact h
  | start op => cases op <;> exact trivial
  | batchEnd | subTotal | settle | raise => exact nextOrder_decided _ _ _
  | cross count order rest hcross => exact hcross
  | noCross count order rest hcross => exact hcross
  | _ => exact trivial

theorem Effect.handled {m m' : Mem} {pc pc' : PC} {ev : Option Event}
    (he : Effect m pc m' pc' ev) {o : Order} (h : ev.bind Event.asHandled = some o) :
    (ev = some (.matched o) ∧ ∃ count rest, pc = .process count o rest .addMatched)
      ∨ ev = some (.rested o) ∧ ∃ count rest, pc = .process count o rest .addTotal := by
  cases he with
  | matched count order rest =>
      cases h
      exact Or.inl ⟨rfl, count, rest, rfl⟩
  | rested count order rest =>
      cases h
      exact Or.inr ⟨rfl, count, rest, rfl⟩
  | batchEnd | subTotal | settle | raise =>
      rw [returned_bind fun _ => rfl] at h
      cases h
  | _ => cases h

section Single

variable [DecidableEq ι] {Z : AdmittedSize} {buffer : ℕ → Order} {sched : ℕ → ι × Choice Op}
  {p : ι}

/-- The single processor deals with the orders in the order in which it has popped
them. -/
theorem popped_eq_handled_append (hone : SingleProcessor p sched) (n : ℕ) :
    popped ((system Z ι buffer).history sched n)
      = handled ((system Z ι buffer).history sched n)
        ++ (((system Z ι buffer).run sched n).pc p).pending := by
  induction n with
  | zero => rfl
  | succ n ih =>
      have he : Effect _ _ _ _ ((system Z ι buffer).outcome ((system Z ι buffer).run sched n)
        (sched n)).event := prog_effect _ _ (sched n).2
      simp only [popped, handled, System.history_succ, System.emitted, orders_append,
        orders_step, System.run_succ] at ih ⊢
      by_cases hp : p = (sched n).1
      · rw [ih, hp, System.next_pc_self, List.append_assoc, List.append_assoc]
        exact congrArg _ he.pending
      · obtain ⟨-, hpopped, hhandled⟩ := he.aside (not_processing_of_ne hone n (Ne.symm hp))
        rw [System.next_pc_ne _ _ hp, hpopped, hhandled, Option.toList_none, List.append_nil,
          List.append_nil]
        exact ih

theorem mem_popped_of_rested (hone : SingleProcessor p sched) {n : ℕ} {o : Order}
    (ho : o ∈ rested ((system Z ι buffer).history sched n)) :
    o ∈ popped ((system Z ι buffer).history sched n) := by
  rw [popped_eq_handled_append hone]
  refine List.mem_append_left _ ?_
  obtain ⟨e, he, hrested⟩ := List.mem_filterMap.mp ho
  refine List.mem_filterMap.mpr ⟨e, he, ?_⟩
  cases hev : e.2 with
  | rested order =>
      rw [hev] at hrested
      exact hrested
  | _ =>
      rw [hev] at hrested
      cases hrested

/-- What it has found out is still so: no other thread moves a best price. -/
theorem decided_run (hone : SingleProcessor p sched) (n : ℕ) :
    (((system Z ι buffer).run sched n).pc p).Decided ((system Z ι buffer).run sched n).mem := by
  induction n with
  | zero => exact trivial
  | succ n ih =>
      have he : Effect _ _ ((system Z ι buffer).run sched (n + 1)).mem _ _ :=
        prog_effect _ (((system Z ι buffer).run sched n).pc (sched n).1) (sched n).2
      by_cases hp : p = (sched n).1
      · rw [hp] at ih
        rw [hp, System.run_succ, System.next_pc_self]
        exact he.decided ih
      · have hbest := (he.aside (not_processing_of_ne hone n (Ne.symm hp))).1
        rw [System.run_succ, System.next_pc_ne _ _ hp]
        exact ih.of_best hbest

/-- With no order on its way, the comparison with the best price is a search among the
orders that have rested. -/
theorem crosses_iff_exists_rested {n : ℕ}
    (hset : ∀ q, (((system Z ι buffer).run sched n).pc q).settling = none)
    (s : Side) (price : ℕ) :
    s.Crosses price (((system Z ι buffer).run sched n).mem.best s.opposite)
      ↔ ∃ o ∈ rested ((system Z ι buffer).history sched n),
        o.side = s.opposite ∧ s.Meets price o.price := by
  have hreach : ∀ o ∈ rested ((system Z ι buffer).history sched n), o.side = s.opposite →
      ¬ s.opposite.Improves o.price
        (((system Z ι buffer).run sched n).mem.best s.opposite) := by
    intro o ho hside
    have hnot := not_improves_of_settled hset ho
    rw [hside] at hnot
    exact hnot
  have hprices : Prices ((system Z ι buffer).run sched n) _ := prices_run n
  constructor
  · intro hcross
    rcases hprices.attained s.opposite with hnone | ⟨o, ho, hside, hprice⟩
    · rw [hnone] at hcross
      cases s with
      | buy => exact absurd rfl hcross.1
      | sell => exact absurd rfl hcross.1
    · refine ⟨o, ho, hside, ?_⟩
      rw [hprice]
      cases s with
      | buy => exact ⟨Nat.lt_of_le_of_ne (best_sell_le Z buffer sched n) hcross.1, hcross.2⟩
      | sell => exact ⟨Nat.pos_of_ne_zero hcross.1, hcross.2⟩
  · rintro ⟨o, ho, hside, hmeets⟩
    have hbest := hreach o ho hside
    cases s with
    | buy =>
        have hle := Nat.le_of_not_lt hbest
        exact ⟨(Nat.lt_of_le_of_lt hle hmeets.1).ne, Nat.le_trans hle hmeets.2⟩
    | sell =>
        have hle := Nat.le_of_not_lt hbest
        exact ⟨(Nat.lt_of_lt_of_le hmeets.1 hle).ne', Nat.le_trans hmeets.2 hle⟩

theorem exists_meets_of_addMatched (hone : SingleProcessor p sched) {n : ℕ} {q : ι} {count : ℕ}
    {o : Order} {rest : List Order}
    (hpc : ((system Z ι buffer).run sched n).pc q = .process count o rest .addMatched) :
    ∃ o' ∈ rested ((system Z ι buffer).history sched n),
      o'.side = o.side.opposite ∧ o.side.Meets o.price o'.price := by
  obtain rfl : q = p := eq_of_processing hone (by rw [hpc]; exact trivial)
  have hset := settling_of_single hone (by rw [hpc]; rfl)
  have hdecided : PC.Decided _ (((system Z ι buffer).run sched n).pc q) := decided_run hone n
  rw [hpc] at hdecided
  exact (crosses_iff_exists_rested hset _ _).mp hdecided

theorem not_exists_meets_of_addTotal (hone : SingleProcessor p sched) {n : ℕ} {q : ι}
    {count : ℕ} {o : Order} {rest : List Order}
    (hpc : ((system Z ι buffer).run sched n).pc q = .process count o rest .addTotal) :
    ¬ ∃ o' ∈ rested ((system Z ι buffer).history sched n),
      o'.side = o.side.opposite ∧ o.side.Meets o.price o'.price := by
  obtain rfl : q = p := eq_of_processing hone (by rw [hpc]; exact trivial)
  have hset := settling_of_single hone (by rw [hpc]; rfl)
  have hdecided : PC.Decided _ (((system Z ι buffer).run sched n).pc q) := decided_run hone n
  rw [hpc] at hdecided
  exact fun hmeets => hdecided ((crosses_iff_exists_rested hset _ _).mpr hmeets)

end Single

/-- In every run in which one thread makes all the calls of `process_orders`: a BUY order is
matched if and only if some SELL order has rested at its price or below and below
`UINT64_MAX`, and a SELL order if and only if some BUY order has rested at its price or
above and above 0. The orders popped are those that have been matched or have rested,
one by one, and those still in hand. -/
theorem matched_iff_met [DecidableEq ι] (Z : AdmittedSize) (buffer : ℕ → Order)
    (sched : ℕ → ι × Choice Op) (p : ι) (n : ℕ) (hone : SingleProcessor p sched) :
    let S := system Z ι buffer
    (∀ i q e o, S.Fires sched i q e → e.asHandled = some o →
        (e = .matched o ↔ ∃ o' ∈ rested (S.history sched i),
          o'.side = o.side.opposite ∧ o.side.Meets o.price o'.price))
      ∧ popped (S.history sched n)
        = handled (S.history sched n) ++ ((S.run sched n).pc p).pending := by
  intro S
  refine ⟨fun i q e o hf hhandled => ?_, popped_eq_handled_append hone n⟩
  have he := S.effect_of_fires prog_effect hf
  rcases he.handled hhandled with ⟨hev, count, rest, hpc⟩ | ⟨hev, count, rest, hpc⟩
  · exact iff_of_true (Option.some.inj hev) (exists_meets_of_addMatched hone hpc)
  · refine iff_of_false ?_ (not_exists_meets_of_addTotal hone hpc)
    rw [Option.some.inj hev]
    exact nofun

/-- A SELL order rests at 10, a BUY order at 9 rests and one at 11 is matched. -/
def oneMeets : ℕ → Unit × Choice Op := fun i =>
  ((), ([⟨.sell, 10, 5⟩, ⟨.buy, 9, 5⟩, ⟨.buy, 11, 5⟩].flatMap round).getD i .go)

theorem matched_iff_met_oneMeets :
    let S := smallBook Unit
    S.Fires oneMeets 51 () (.matched ⟨.buy, 11, 5⟩)
      ∧ (∃ o' ∈ rested (S.history oneMeets 51),
        o'.side = .sell ∧ Side.buy.Meets 11 o'.price)
      ∧ popped (S.history oneMeets 54) = handled (S.history oneMeets 54) := by
  have h := matched_iff_met Ring.twoCells (fun _ => ⟨.buy, 0, 0⟩) oneMeets () 54
    fun _ _ _ _ => rfl
  have hf : (smallBook Unit).Fires oneMeets 51 () (.matched ⟨.buy, 11, 5⟩) := by decide +kernel
  refine ⟨hf, (h.1 51 () _ ⟨.buy, 11, 5⟩ hf rfl).mp rfl, h.2.trans ?_⟩
  have hidle : ((smallBook Unit).run oneMeets 54).pc () = .idle := by decide +kernel
  rw [hidle]
  exact List.append_nil _

/-- A SELL order at `UINT64_MAX` rests, and then a BUY order at that price. -/
def dearOrders : ℕ → Unit × Choice Op := fun i =>
  ((), ([⟨.sell, uint64Max, 5⟩, ⟨.buy, uint64Max, 5⟩].flatMap round).getD i .go)

/-- A BUY order at 0 rests, and then a SELL order at that price. -/
def freeOrders : ℕ → Unit × Choice Op := fun i =>
  ((), ([⟨.buy, 0, 5⟩, ⟨.sell, 0, 5⟩].flatMap round).getD i .go)

/-- Prices that stand for none are not met. -/
theorem rested_at_noBest :
    let S := smallBook Unit
    (SingleProcessor () dearOrders
        ∧ (∃ o ∈ rested (S.history dearOrders 33), o.side = .sell ∧ o.price ≤ uint64Max)
        ∧ S.Fires dearOrders 33 () (.rested ⟨.buy, uint64Max, 5⟩))
      ∧ SingleProcessor () freeOrders
        ∧ (∃ o ∈ rested (S.history freeOrders 33), o.side = .buy ∧ 0 ≤ o.price)
        ∧ S.Fires freeOrders 33 () (.rested ⟨.sell, 0, 5⟩) := by
  refine ⟨⟨fun _ _ _ _ => rfl, ?_, ?_⟩, fun _ _ _ _ => rfl, ?_, ?_⟩ <;> decide +kernel

/-! ## Best prices and totals -/

/-- Tick `j` takes off all that is left of the total of a side. -/
def Empties [DecidableEq ι] (S : System ι Mem PC (Choice Op) Event)
    (sched : ℕ → ι × Choice Op) (s : Side) (j : ℕ) : Prop :=
  0 < (S.run sched j).mem.total s
    ∧ removal s ((S.run sched j).pc (sched j).1) (sched j).2 = (S.run sched j).mem.total s

/-- An order has rested on the side before tick `n`, and what was left has not been
taken off since. -/
def Stocked [DecidableEq ι] (S : System ι Mem PC (Choice Op) Event)
    (sched : ℕ → ι × Choice Op) (s : Side) (n : ℕ) : Prop :=
  ∃ i < n, (∃ q o, S.Fires sched i q (.rested o) ∧ o.side = s)
    ∧ ∀ j, i < j → j < n → ¬ Empties S sched s j

/-- The total of a side on which no order has rested is 0, and nobody takes anything off it. -/
def Untouched (c : Config ι Mem PC) (H : List (ι × Event)) (s : Side) : Prop :=
  (∀ o ∈ rested H, o.side ≠ s) → c.mem.total s = 0 ∧ ∀ q, (c.pc q).owed s = 0

section Step

variable [DecidableEq ι] {c : Config ι Mem PC} {H : List (ι × Event)} {p : ι} {m : Mem}
  {pc : PC} {ev : Option Event}

theorem Untouched.step {s : Side} (h : Untouched c H s) (he : Effect c.mem (c.pc p) m pc ev) :
    Untouched ⟨m, Function.update c.pc p pc⟩ (H ++ (ev.map (Prod.mk p)).toList) s := by
  intro hnone
  obtain ⟨htotal, howed⟩ := h fun o ho => hnone o (mem_rested_step.mpr (Or.inl ho))
  have hnew : m.total s = 0 ∧ pc.owed s = 0 := by
    rcases he.totals with ⟨hm, hpc, -⟩ | ⟨count, o, rest, -, hm, hpc, -⟩
      | ⟨count, o, rest, amount, hpc, hm, hpc', -⟩ | ⟨o, hm, hpc, hev⟩
    · exact ⟨hm ▸ htotal, (hpc s).trans (howed p)⟩
    · refine ⟨hm ▸ htotal, ?_⟩
      rw [hpc, PC.owed]
      split_ifs with hs
      · rw [hs, htotal, Nat.min_zero]
      · rfl
    · refine ⟨?_, hpc' s⟩
      have hzero := howed p
      rw [hpc, PC.owed] at hzero
      rw [hm, Mem.setTotal]
      by_cases hs : o.side.opposite = s
      · rw [if_pos hs] at hzero
        rw [hs, htotal, hzero]
        exact Function.update_self _ _ _
      · exact (Function.update_of_ne (Ne.symm hs) _ _).trans htotal
    · have hs : s ≠ o.side := (hnone o (mem_rested_step.mpr (Or.inr hev))).symm
      refine ⟨?_, (hpc s).trans (howed p)⟩
      rw [hm, Mem.setTotal]
      exact (Function.update_of_ne hs _ _).trans htotal
  refine ⟨hnew.1, fun q => ?_⟩
  by_cases hq : q = p
  · rw [hq]
    exact (congrArg (PC.owed s) (Function.update_self _ _ _)).trans hnew.2
  · exact (congrArg (PC.owed s) (Function.update_of_ne hq _ _)).trans (howed q)

end Step

theorem addition_eq_zero {s : Side} {ev : Option Event}
    (h : ∀ o, ev = some (.rested o) → o.side ≠ s) : addition s ev = 0 := by
  cases ev with
  | none => rfl
  | some e =>
      cases e with
      | rested o => simp [addition, Event.asRested, h o rfl]
      | _ => rfl

theorem addition_rested (o : Order) : addition o.side (some (.rested o)) = o.quantity := by
  simp [addition, Event.asRested]

/-- A step that rests an order takes nothing off. -/
theorem Effect.removal_of_rested {m m' : Mem} {pc pc' : PC} {o : Order}
    (he : Effect m pc m' pc' (some (.rested o))) (s : Side) (ch : Choice Op) :
    removal s pc ch = 0 := by
  rcases he.handled rfl with ⟨hev, -⟩ | ⟨-, count, rest, rfl⟩
  · cases hev
  · cases ch <;> rfl

section Totals

variable [DecidableEq ι] {Z : AdmittedSize} {buffer : ℕ → Order} {sched : ℕ → ι × Choice Op}
  {p : ι}

theorem stocked_succ (s : Side) (n : ℕ) :
    Stocked (system Z ι buffer) sched s (n + 1)
      ↔ (∃ q o, (system Z ι buffer).Fires sched n q (.rested o) ∧ o.side = s)
        ∨ Stocked (system Z ι buffer) sched s n ∧ ¬ Empties (system Z ι buffer) sched s n := by
  constructor
  · rintro ⟨i, hi, hrests, hkept⟩
    rcases Nat.lt_succ_iff_lt_or_eq.mp hi with hlt | rfl
    · exact Or.inr ⟨⟨i, hlt, hrests, fun j hij hjn => hkept j hij (by omega)⟩,
        hkept n hlt (Nat.lt_succ_self n)⟩
    · exact Or.inl hrests
  · rintro (hrests | ⟨⟨i, hi, hrests, hkept⟩, hnot⟩)
    · exact ⟨n, Nat.lt_succ_self n, hrests, fun j hnj hjn => by omega⟩
    · refine ⟨i, by omega, hrests, fun j hij hjn => ?_⟩
      rcases Nat.lt_succ_iff_lt_or_eq.mp hjn with hlt | rfl
      · exact hkept j hij hlt
      · exact hnot

theorem exists_rested_of_total_pos {n : ℕ} {s : Side}
    (h : 0 < ((system Z ι buffer).run sched n).mem.total s) :
    ∃ o ∈ rested ((system Z ι buffer).history sched n), o.side = s := by
  have huntouched : Untouched ((system Z ι buffer).run sched n)
      ((system Z ι buffer).history sched n) s :=
    (system Z ι buffer).invariant (I := fun c H => Untouched c H s)
      (fun _ => ⟨rfl, fun _ => rfl⟩)
      (fun c _ a h => h.step (prog_effect c.mem (c.pc a.1) a.2)) sched n
  by_contra hnone
  have hzero := (huntouched fun o ho hside => hnone ⟨o, ho, hside⟩).1
  omega

theorem getBestAsk_ne_zero_iff {m : Mem} (h : m.best .sell ≠ 0) :
    getBestAsk m ≠ 0 ↔ m.best .sell ≠ uint64Max := by
  unfold getBestAsk
  split_ifs with hmax
  · exact iff_of_false (fun hne => hne rfl) fun hne => hne hmax
  · exact iff_of_true h hmax

/-- Between two orders a side has a best price once an order has rested there. -/
theorem best_ne_noBest_iff {n : ℕ}
    (hset : ∀ q, (((system Z ι buffer).run sched n).pc q).settling = none)
    (hproper : ∀ o ∈ rested ((system Z ι buffer).history sched n), o.Proper) (s : Side) :
    ((system Z ι buffer).run sched n).mem.best s ≠ s.noBest
      ↔ ∃ o ∈ rested ((system Z ι buffer).history sched n), o.side = s := by
  have hprices : Prices ((system Z ι buffer).run sched n) _ := prices_run n
  constructor
  · intro hbest
    obtain ⟨o, ho, hside, -⟩ := (hprices.attained s).resolve_left hbest
    exact ⟨o, ho, hside⟩
  · rintro ⟨o, ho, rfl⟩ hnone
    obtain ⟨-, hlow, hhigh⟩ := hproper o ho
    refine not_improves_of_settled hset ho ?_
    rw [hnone]
    cases hside : o.side with
    | buy => exact hlow
    | sell =>
        show o.price < uint64Max
        unfold uint64Max
        omega

/-- As long as the total of a side does not wrap around, it is positive while what has
rested there last has not been taken off. -/
theorem total_pos_iff_stocked (hone : SingleProcessor p sched) {n : ℕ}
    (hlt : ∀ s, restedQuantity s ((system Z ι buffer).history sched n) < 2 ^ 64)
    (hpos : ∀ o ∈ rested ((system Z ι buffer).history sched n), 0 < o.quantity) (s : Side) :
    0 < ((system Z ι buffer).run sched n).mem.total s
      ↔ Stocked (system Z ι buffer) sched s n := by
  induction n with
  | zero =>
      refine iff_of_false (Nat.lt_irrefl 0) ?_
      rintro ⟨i, hi, -⟩
      exact Nat.not_lt_zero i hi
  | succ n ih =>
      have hlt' : ∀ s, restedQuantity s ((system Z ι buffer).history sched n) < 2 ^ 64 :=
        fun s => Nat.lt_of_le_of_lt (restedQuantity_mono (Nat.le_succ n) s) (hlt s)
      have hold := ih hlt' fun o ho => hpos o (by
        rw [System.history_succ, System.emitted]
        exact mem_rested_step.mpr (Or.inl ho))
      obtain ⟨hle, hstep⟩ := total_succ hone hlt s
      rw [stocked_succ, ← hold]
      by_cases hrests : ∃ q o, (system Z ι buffer).Fires sched n q (.rested o) ∧ o.side = s
      · refine iff_of_true ?_ (Or.inl hrests)
        obtain ⟨q, o, hf, rfl⟩ := hrests
        have hzero := ((system Z ι buffer).effect_of_fires prog_effect hf).removal_of_rested
          o.side (sched n).2
        rw [← hf.1] at hzero
        have hquantity : 0 < o.quantity := by
          refine hpos o ?_
          rw [System.history_succ, System.emitted, hf.2]
          exact mem_rested_step.mpr (Or.inr rfl)
        rw [hf.2, addition_rested] at hstep
        omega
      · have hzero : addition s ((system Z ι buffer).outcome ((system Z ι buffer).run sched n)
            (sched n)).event = 0 :=
          addition_eq_zero fun o hev hside => hrests ⟨(sched n).1, o, ⟨rfl, hev⟩, hside⟩
        rw [or_iff_right hrests, Empties]
        omega

end Totals

/-- In every run in which one thread makes all the calls of `process_orders` and the orders
it pops have a quantity and a price from 1 to `2 ^ 64 - 2`: an order is matched only after an
order of the other side has rested. Whenever the thread is not in the middle of an order,
`get_best_bid` is not 0 if and only if a BUY order has rested, `get_best_ask` is not 0 if and
only if a SELL order has rested, and a side with a total has a best price. As long as the
quantities that rest on a side sum to less than `2 ^ 64`, the total of a side is positive if
and only if an order has rested there since a match last took off all that was left. -/
theorem best_and_total [DecidableEq ι] (Z : AdmittedSize) (buffer : ℕ → Order)
    (sched : ℕ → ι × Choice Op) (p : ι) (n : ℕ) (hone : SingleProcessor p sched)
    (hproper : ∀ o ∈ popped ((system Z ι buffer).history sched n), o.Proper) :
    let S := system Z ι buffer
    let c := S.run sched n
    let H := S.history sched n
    (∀ i q o, S.Fires sched i q (.matched o) →
        ∃ o' ∈ rested (S.history sched i), o'.side = o.side.opposite)
      ∧ ((c.pc p).Between →
        (getBestBid c.mem ≠ 0 ↔ ∃ o ∈ rested H, o.side = .buy)
          ∧ (getBestAsk c.mem ≠ 0 ↔ ∃ o ∈ rested H, o.side = .sell)
          ∧ (0 < c.mem.total .buy → getBestBid c.mem ≠ 0)
          ∧ (0 < c.mem.total .sell → getBestAsk c.mem ≠ 0))
      ∧ ((∀ s, restedQuantity s H < 2 ^ 64) → ∀ i ≤ n, ∀ s,
        (0 < (S.run sched i).mem.total s ↔ Stocked S sched s i)) := by
  intro S c H
  have hrested : ∀ o ∈ rested H, o.Proper := fun o ho => hproper o (mem_popped_of_rested hone ho)
  refine ⟨fun i q o hf => ?_, fun hbetween => ?_, fun hlt i hi s => ?_⟩
  · rcases (S.effect_of_fires prog_effect hf).handled rfl with ⟨-, count, rest, hpc⟩ | ⟨hev, -⟩
    · obtain ⟨o', ho', hside, -⟩ := exists_meets_of_addMatched hone hpc
      exact ⟨o', ho', hside⟩
    · cases hev
  · have hset := settling_of_single (Z := Z) hone hbetween.settling
    have hbid : getBestBid c.mem ≠ 0 ↔ _ := best_ne_noBest_iff hset hrested .buy
    have hne : c.mem.best .sell ≠ 0 := by
      have hprices : Prices c H := prices_run n
      rcases hprices.attained .sell with hnone | ⟨o, ho, -, hprice⟩
      · rw [hnone]
        nofun
      · have := (hrested o ho).2.1
        omega
    have hask : getBestAsk c.mem ≠ 0 ↔ _ :=
      (getBestAsk_ne_zero_iff hne).trans (best_ne_noBest_iff hset hrested .sell)
    exact ⟨hbid, hask, fun h => hbid.mpr (exists_rested_of_total_pos h),
      fun h => hask.mpr (exists_rested_of_total_pos h)⟩
  · have hearlier : S.history sched i <+: H := S.history_mono sched hi
    refine total_pos_iff_stocked hone (fun s => ?_) (fun o ho => ?_) s
    · exact Nat.lt_of_le_of_lt (restedQuantity_mono hi s) (hlt s)
    · exact (hrested o ((hearlier.sublist.filterMap _).subset ho)).1

/-- A SELL order of quantity 5 rests, a BUY order takes all of it, and another BUY order
follows. -/
def soldOut : ℕ → Unit × Choice Op := fun i =>
  ((), ([⟨.sell, 10, 5⟩, ⟨.buy, 10, 5⟩, ⟨.buy, 10, 1⟩].flatMap round).getD i .go)

theorem best_and_total_soldOut :
    (∃ o ∈ rested ((smallBook Unit).history soldOut 54), o.side = .sell)
      ∧ ¬ Stocked (smallBook Unit) soldOut .sell 54 := by
  have h := best_and_total Ring.twoCells (fun _ => ⟨.buy, 0, 0⟩) soldOut () 54
    (fun _ _ _ _ => rfl) (by decide +kernel)
  have hbest := (h.2.1 (by decide +kernel)).2.1
  have hstocked := h.2.2 (by rintro (_ | _) <;> decide +kernel) 54 (Nat.le_refl 54) .sell
  refine ⟨hbest.mp (by decide +kernel), fun hs => ?_⟩
  exact absurd (hstocked.mpr hs) (by decide +kernel)

/-- The last order is matched although nothing is left to match, and `get_best_ask` still
gives the price at which something was. -/
theorem matched_soldOut :
    let S := smallBook Unit
    SingleProcessor () soldOut
      ∧ (∀ o ∈ popped (S.history soldOut 54), o.Proper)
      ∧ S.Fires soldOut 51 () (.matched ⟨.buy, 10, 1⟩)
      ∧ (S.run soldOut 50).mem.total .sell = 0 ∧ (S.run soldOut 51).mem.total .sell = 0
      ∧ (S.run soldOut 54).pc () = .idle ∧ getBestAsk (S.run soldOut 54).mem ≠ 0
      ∧ (S.run soldOut 54).mem.total .sell = 0 := by
  refine ⟨fun _ _ _ _ => rfl, ?_, ?_, ?_, ?_, ?_, ?_, ?_⟩ <;> decide +kernel

end OrderBook

end Lockless
