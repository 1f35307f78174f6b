import Lockless.OrderBookCrossing
import Lockless.OrderBookTotals

/-!
# A single processor

The book can be crossed and its totals can wrap around only because two threads
process orders at the same time. Here one thread makes all the calls of
`process_orders`, while any number of threads submit. Then no other thread is
ever on its way to rest an order, so every order is decided to rest in the
clear; and no other thread is ever owed anything, so what is read off a total is
there.

Between two orders the spread is then the distance of the best prices that have
rested, and each total is what has rested on its side less what the matches have
taken off.
-/

namespace Lockless

namespace OrderBook

variable {ι : Type*}

/-- The thread is not in the middle of processing an order. -/
def PC.Between : PC → Prop
  | .process _ _ _ opc => opc = .loadOpposite
  | _ => True

instance : (pc : PC) → Decidable pc.Between
  | .process _ _ _ opc => inferInstanceAs (Decidable (opc = .loadOpposite))
  | .idle => .isTrue trivial
  | .submit _ _ => .isTrue trivial
  | .popBatch _ _ _ => .isTrue trivial

/-- The amount a step takes off the total of a side. -/
def removal (s : Side) (pc : PC) : Choice Op → ℕ
  | .call _ => 0
  | _ => pc.owed s

/-- The sum of the amounts taken off the total of a side before tick `n`. -/
def removedQuantity [DecidableEq ι] (S : System ι Mem PC (Choice Op) Event)
    (sched : ℕ → ι × Choice Op) (s : Side) (n : ℕ) : ℕ :=
  ∑ i ∈ Finset.range n, removal s ((S.run sched i).pc (sched i).1) (sched i).2

/-- No thread but `p` calls `process_orders`. -/
def SingleProcessor (p : ι) (sched : ℕ → ι × Choice Op) : Prop :=
  ∀ i q batchSize, sched i = (q, .call (.process batchSize)) → q = p

/-! ## The other threads -/

/-- A thread starts to process orders only in a call of `process_orders`. -/
theorem processing_prog {Z : AdmittedSize} {m : Mem} {pc : PC} {ch : Choice Op}
    (h : (prog Z m pc ch).pc.Processing) :
    pc.Processing ∨ ∃ batchSize, ch = .call (.process batchSize) := by
  cases pc with
  | idle =>
      cases ch with
      | call op =>
          cases op with
          | submit order => exact absurd h id
          | process batchSize => exact Or.inr ⟨batchSize, rfl⟩
      | go => exact absurd h id
      | fault => exact absurd h id
  | submit order rpc =>
      have hsubmit : ∀ o, ¬ (submitOrder m order o).pc.Processing := by
        intro o
        unfold submitOrder
        split <;> exact id
      cases ch with
      | call op => exact absurd h id
      | go => exact absurd h (hsubmit _)
      | fault => exact absurd h (hsubmit _)
  | popBatch limit orders rpc => exact Or.inl trivial
  | process count order rest opc => exact Or.inl trivial

theorem owed_of_not_processing {pc : PC} (h : ¬ pc.Processing) (s : Side) :
    pc.owed s = 0 :=
  of_not_processing (P := fun x => PC.owed s x = 0) h rfl fun _ _ => rfl

theorem loadOpposite_of_decided {m : Mem} {pc : PC} {ch : Choice Op} {o : Order}
    (h : decided m pc ch = some o) :
    ∃ count rest, pc = .process count o rest .loadOpposite := by
  unfold decided at h
  split at h
  · cases h
  · split_ifs at h
    cases h
    exact ⟨_, _, rfl⟩
  · cases h

theorem loadTotal_of_taking {m : Mem} {pc : PC} {ch : Choice Op} {x : Side × ℕ}
    (h : taking m pc ch = some x) :
    ∃ count o rest, pc = .process count o rest .loadTotal
      ∧ x = (o.side.opposite, min o.quantity (m.total o.side.opposite)) := by
  unfold taking at h
  split at h
  · cases h
  · exact ⟨_, _, _, rfl, (Option.some.inj h).symm⟩
  · cases h

section Single

variable [DecidableEq ι] {Z : AdmittedSize} {buffer : ℕ → Order} {sched : ℕ → ι × Choice Op}
  {p : ι}

theorem not_processing_of_ne (hone : SingleProcessor p sched) (n : ℕ) {q : ι} (hq : q ≠ p) :
    ¬ (((system Z ι buffer).run sched n).pc q).Processing := by
  induction n with
  | zero => exact id
  | succ n ih =>
      rw [System.run_succ]
      by_cases hqn : q = (sched n).1
      · subst hqn
        rw [System.next_pc_self]
        intro h
        rcases processing_prog h with hold | ⟨batchSize, hch⟩
        · exact ih hold
        · exact hq (hone n _ batchSize (Prod.ext rfl hch))
      · rw [System.next_pc_ne _ _ hqn]
        exact ih

theorem eq_of_processing (hone : SingleProcessor p sched) {n : ℕ} {q : ι}
    (h : (((system Z ι buffer).run sched n).pc q).Processing) : q = p :=
  by_contra fun hne => not_processing_of_ne hone n hne h

/-- The thread that is about to decide about an order is the only one that
processes orders, and has none on its way. -/
theorem clear_of_single (hone : SingleProcessor p sched) (n : ℕ) :
    Clear ((system Z ι buffer).run sched n) (sched n) := by
  intro o ho q o' hq
  obtain ⟨count, rest, hpc⟩ := loadOpposite_of_decided ho
  have hp : (sched n).1 = p := eq_of_processing hone (by rw [hpc]; exact trivial)
  have hqp : q = p := by
    refine by_contra fun hne => ?_
    rw [resting_of_not_processing (not_processing_of_ne hone n hne)] at hq
    cases hq
  rw [hqp, ← hp, hpc] at hq
  cases hq

/-- What a thread reads to take off a total is at most that total, and the
others are owed nothing. -/
theorem solvent_of_single (hone : SingleProcessor p sched) (n : ℕ) :
    Solvent ((system Z ι buffer).run sched n) (sched n) := by
  intro x hx F hF
  obtain ⟨count, o, rest, hpc, rfl⟩ := loadTotal_of_taking hx
  have hp : (sched n).1 = p := eq_of_processing hone (by rw [hpc]; exact trivial)
  have hzero : ∀ q ∈ F, (((system Z ι buffer).run sched n).pc q).owed o.side.opposite
      = 0 := by
    intro q hq
    refine owed_of_not_processing (not_processing_of_ne hone n ?_) _
    rintro rfl
    exact hF (hp ▸ hq)
  rw [Finset.sum_eq_zero hzero, Nat.zero_add]
  exact Nat.min_le_right _ _

end Single

/-! ## What the matches take off -/

theorem Effect.amount {m m' : Mem} {pc pc' : PC} {ev : Option Event}
    (he : Effect m pc m' pc' ev) {count : ℕ} {o : Order} {rest : List Order} {amount : ℕ}
    (hpc : pc' = .process count o rest (.subTotal amount)) :
    pc = pc' ∨ amount ≤ o.quantity := by
  cases he with
  | stay => exact Or.inl rfl
  | start op => cases op <;> cases hpc
  | loadTotal count order rest =>
      cases hpc
      exact Or.inr (Nat.min_le_left _ _)
  | batchEnd | subTotal | settle | raise =>
      unfold nextOrder at hpc
      split at hpc <;> cases hpc
  | _ => cases hpc

theorem amount_le_quantity [DecidableEq ι] {Z : AdmittedSize} {buffer : ℕ → Order}
    (sched : ℕ → ι × Choice Op) (n : ℕ) {p : ι} {count : ℕ} {o : Order} {rest : List Order}
    {amount : ℕ} (hpc : ((system Z ι buffer).run sched n).pc p
      = .process count o rest (.subTotal amount)) : amount ≤ o.quantity := by
  revert p count o rest amount
  refine (system Z ι buffer).invariant (I := fun c _ => ∀ {p count o rest amount},
    c.pc p = .process count o rest (.subTotal amount) → amount ≤ o.quantity) ?_ ?_ sched n
  · intro p count o rest amount hpc
    cases hpc
  · intro c H a h q count o rest amount hpc
    rcases of_update (P := fun x => x = PC.process count o rest (.subTotal amount)) hpc
      with ⟨rfl, hnew⟩ | ⟨-, hold⟩
    · rcases (prog_effect c.mem (c.pc a.1) a.2).amount hnew with hsame | hle
      · exact h (hsame.trans hnew)
      · exact hle
    · exact h hold

theorem owed_of_not_subTotal {pc : PC}
    (h : ¬ ∃ count o rest amount, pc = .process count o rest (.subTotal amount)) (s : Side) :
    pc.owed s = 0 := by
  unfold PC.owed
  split
  · exact absurd ⟨_, _, _, _, rfl⟩ h
  · rfl

theorem removal_le_owed (s : Side) (pc : PC) (ch : Choice Op) : removal s pc ch ≤ pc.owed s := by
  cases ch with
  | call op => exact Nat.zero_le _
  | go => exact Nat.le_refl _
  | fault => exact Nat.le_refl _

/-- The quantity a step adds to the total of a side. -/
def addition (s : Side) (ev : Option Event) : ℕ :=
  (((ev.bind Event.asRested).toList.filter fun o => o.side = s).map Order.quantity).sum

/-- What a step does to the total of a side, as long as it does not wrap around. -/
theorem total_prog {Z : AdmittedSize} {m : Mem} {pc : PC} (ch : Choice Op) {s : Side}
    (hle : pc.owed s ≤ m.total s)
    (hlt : m.total s + addition s (prog Z m pc ch).event < 2 ^ 64) :
    (prog Z m pc ch).mem.total s + removal s pc ch
      = m.total s + addition s (prog Z m pc ch).event := by
  by_cases hsub : ∃ count o rest amount, pc = .process count o rest (.subTotal amount)
  · obtain ⟨count, o, rest, amount, rfl⟩ := hsub
    have htakes : (m.setTotal o.side.opposite (m.total o.side.opposite + 2 ^ 64 - amount)).total s
        + (PC.process count o rest (.subTotal amount)).owed s = m.total s := by
      by_cases hs : s = o.side.opposite
      · subst hs
        simp only [PC.owed, if_true] at hle ⊢
        rw [setTotal_sub hle (by omega)]
        omega
      · simp only [Mem.setTotal, Function.update_of_ne hs, PC.owed, if_neg (Ne.symm hs)]
        rfl
    have hret : addition s (returned count rest) = 0 := by
      rw [addition, returned_bind fun _ => rfl]
      rfl
    cases ch with
    | call op => rfl
    | go => exact htakes.trans (congrArg (m.total s + ·) hret.symm)
    | fault => exact htakes.trans (congrArg (m.total s + ·) hret.symm)
  · have hzero : removal s pc ch = 0 := by
      cases ch with
      | call op => rfl
      | go => exact owed_of_not_subTotal hsub s
      | fault => exact owed_of_not_subTotal hsub s
    rw [hzero, Nat.add_zero]
    rcases (prog_effect (Z := Z) m pc ch).totals with ⟨htotal, -, hev⟩
      | ⟨_, _, _, -, htotal, -, hev⟩ | ⟨count, o, rest, amount, hpc, -⟩ | ⟨o, hm, -, hev⟩
    · rw [htotal, addition, hev]
      rfl
    · rw [htotal, addition, hev]
      rfl
    · exact absurd ⟨count, o, rest, amount, hpc⟩ hsub
    · rw [addition, hev] at hlt ⊢
      rw [hm]
      by_cases hs : s = o.side
      · subst hs
        simp only [Option.toList_some, List.filter_cons, decide_true, if_true, List.filter_nil,
          List.map_cons, List.map_nil, List.sum_singleton] at hlt ⊢
        exact setTotal_add hlt
      · simp [Mem.setTotal, Function.update_of_ne hs, Ne.symm hs]

/-! ## Between two orders -/

theorem PC.Between.settling {pc : PC} (h : pc.Between) : pc.settling = none := by
  cases pc with
  | process count order rest opc =>
      cases h
      rfl
  | _ => rfl

/-- The spread of a book that is not crossed. -/
theorem getSpread_of_lt {m : Mem} (hbid : m.best .buy ≠ 0) (hask : m.best .sell ≠ uint64Max)
    (hlt : m.best .buy < m.best .sell) : getSpread m = m.best .sell - m.best .buy := by
  have hne : m.best .sell ≠ 0 := by omega
  simp only [getSpread, getBestBid, getBestAsk, if_neg hask, hbid, hne, or_self, if_false,
    if_pos hlt]

theorem getSpread_of_noBest {m : Mem} (h : ¬ (m.best .buy ≠ 0 ∧ m.best .sell ≠ uint64Max)) :
    getSpread m = 0 := by
  unfold getSpread getBestBid getBestAsk
  by_cases hbid : m.best .buy = 0
  · exact if_pos (Or.inl hbid)
  · have hask : m.best .sell = uint64Max := by_contra fun hask => h ⟨hbid, hask⟩
    exact if_pos (Or.inr (if_pos hask))

section Run

variable [DecidableEq ι] {Z : AdmittedSize} {buffer : ℕ → Order} {sched : ℕ → ι × Choice Op}
  {p : ι} {n : ℕ}

theorem restedQuantity_succ (s : Side) :
    restedQuantity s ((system Z ι buffer).history sched (n + 1))
      = restedQuantity s ((system Z ι buffer).history sched n)
        + addition s ((system Z ι buffer).outcome ((system Z ι buffer).run sched n)
          (sched n)).event := by
  rw [System.history_succ, System.emitted, restedQuantity_step]
  rfl

/-- What a tick takes off a total is there, and the total changes by what rests and what is
taken off. -/
theorem total_succ (hone : SingleProcessor p sched)
    (hlt : ∀ s, restedQuantity s ((system Z ι buffer).history sched (n + 1)) < 2 ^ 64)
    (s : Side) :
    removal s (((system Z ι buffer).run sched n).pc (sched n).1) (sched n).2
        ≤ ((system Z ι buffer).run sched n).mem.total s
      ∧ ((system Z ι buffer).run sched (n + 1)).mem.total s
          + removal s (((system Z ι buffer).run sched n).pc (sched n).1) (sched n).2
        = ((system Z ι buffer).run sched n).mem.total s
          + addition s ((system Z ι buffer).outcome ((system Z ι buffer).run sched n)
            (sched n)).event := by
  have hlt' : ∀ s, restedQuantity s ((system Z ι buffer).history sched n) < 2 ^ 64 :=
    fun s => Nat.lt_of_le_of_lt (restedQuantity_mono (Nat.le_succ n) s) (hlt s)
  have htotals := totals_run hlt' fun i _ => solvent_of_single hone i
  have howed := (htotals.covered s).le (sched n).1
  have hsmall := hlt s
  rw [restedQuantity_succ] at hsmall
  have hbound := htotals.bounded s
  refine ⟨Nat.le_trans (removal_le_owed s _ _) howed, ?_⟩
  exact total_prog (sched n).2 howed (Nat.lt_of_le_of_lt (Nat.add_le_add_right hbound _) hsmall)

theorem total_add_removed (hone : SingleProcessor p sched)
    (hlt : ∀ s, restedQuantity s ((system Z ι buffer).history sched n) < 2 ^ 64) (s : Side) :
    ((system Z ι buffer).run sched n).mem.total s
        + removedQuantity (system Z ι buffer) sched s n
      = restedQuantity s ((system Z ι buffer).history sched n) := by
  induction n with
  | zero => rfl
  | succ n ih =>
      have hlt' : ∀ s, restedQuantity s ((system Z ι buffer).history sched n) < 2 ^ 64 :=
        fun s => Nat.lt_of_le_of_lt (restedQuantity_mono (Nat.le_succ n) s) (hlt s)
      have hold := ih hlt'
      obtain ⟨-, hstep⟩ := total_succ hone hlt s
      have hsum : removedQuantity (system Z ι buffer) sched s (n + 1)
          = removedQuantity (system Z ι buffer) sched s n
            + removal s (((system Z ι buffer).run sched n).pc (sched n).1) (sched n).2 :=
        Finset.sum_range_succ _ _
      rw [restedQuantity_succ]
      omega

theorem settling_of_single (hone : SingleProcessor p sched)
    (h : (((system Z ι buffer).run sched n).pc p).settling = none) (q : ι) :
    (((system Z ι buffer).run sched n).pc q).settling = none := by
  by_cases hq : q = p
  · exact hq ▸ h
  · exact settling_of_not_processing (not_processing_of_ne hone n hq)

/-- Between two orders the prices that have rested are no better than the best
ones, which do not cross. -/
theorem best_of_single (hone : SingleProcessor p sched)
    (hbetween : (((system Z ι buffer).run sched n).pc p).Between)
    (hbid : ((system Z ι buffer).run sched n).mem.best .buy ≠ 0)
    (hask : ((system Z ι buffer).run sched n).mem.best .sell ≠ uint64Max) :
    IsGreatest {x | ∃ o ∈ rested ((system Z ι buffer).history sched n),
        o.side = .buy ∧ o.price = x} (((system Z ι buffer).run sched n).mem.best .buy)
      ∧ IsLeast {x | ∃ o ∈ rested ((system Z ι buffer).history sched n),
        o.side = .sell ∧ o.price = x} (((system Z ι buffer).run sched n).mem.best .sell)
      ∧ ((system Z ι buffer).run sched n).mem.best .buy
        < ((system Z ι buffer).run sched n).mem.best .sell := by
  have hset := settling_of_single (Z := Z) hone hbetween.settling
  refine ⟨⟨?_, ?_⟩, ⟨?_, ?_⟩, ?_⟩
  · exact ((prices_run n).attained .buy).resolve_left hbid
  · rintro x ⟨o, ho, hside, rfl⟩
    have hreach := not_improves_of_settled hset ho
    rw [hside] at hreach
    exact Nat.le_of_not_lt hreach
  · exact ((prices_run n).attained .sell).resolve_left hask
  · rintro x ⟨o, ho, hside, rfl⟩
    have hreach := not_improves_of_settled hset ho
    rw [hside] at hreach
    exact Nat.le_of_not_lt hreach
  · have huncrossed : Uncrossed ((system Z ι buffer).run sched n) :=
      uncrossed_run fun i _ => clear_of_single hone i
    have hcomp : Side.buy.Compatible _ _ := huncrossed (Or.inl rfl) (Or.inl rfl)
    rcases hcomp with hzero | hmax | hlt
    · exact absurd hzero hbid
    · exact absurd (Nat.le_antisymm (best_sell_le Z buffer sched n) hmax) hask
    · exact hlt

end Run

/-- In every run in which one thread makes all the calls of `process_orders`, and
in which the quantities that rest on a side sum to less than `2 ^ 64`: when that
thread is not in the middle of an order and both sides have a best price,
`get_spread` is positive, and it is the least price of the SELL orders that have
rested minus the greatest of the BUY orders; when a side has none it is 0. The
total of a side and what the matches have taken off it add up to what has rested
there, and no match takes off more than the quantity of its order or than the
total it finds. -/
theorem single_processor_spread [DecidableEq ι] (Z : AdmittedSize) (buffer : ℕ → Order)
    (sched : ℕ → ι × Choice Op) (p : ι) (n : ℕ) (hone : SingleProcessor p sched)
    (hlt : ∀ s, restedQuantity s ((system Z ι buffer).history sched n) < 2 ^ 64) :
    let S := system Z ι buffer
    let c := S.run sched n
    let H := S.history sched n
    ((c.pc p).Between →
        (c.mem.best .buy ≠ 0 ∧ c.mem.best .sell ≠ uint64Max →
          ∃ bid ask, IsGreatest {x | ∃ o ∈ rested H, o.side = .buy ∧ o.price = x} bid
            ∧ IsLeast {x | ∃ o ∈ rested H, o.side = .sell ∧ o.price = x} ask
            ∧ 0 < getSpread c.mem ∧ getSpread c.mem = ask - bid)
          ∧ (¬ (c.mem.best .buy ≠ 0 ∧ c.mem.best .sell ≠ uint64Max) →
            getSpread c.mem = 0))
      ∧ (∀ s, c.mem.total s + removedQuantity S sched s n = restedQuantity s H)
      ∧ ∀ i, i ≤ n → ∀ q count o rest amount,
        (S.run sched i).pc q = .process count o rest (.subTotal amount) →
          amount ≤ o.quantity ∧ amount ≤ (S.run sched i).mem.total o.side.opposite := by
  intro S c H
  refine ⟨fun hbetween => ⟨fun hbest => ?_, getSpread_of_noBest⟩,
    total_add_removed hone hlt, fun i hi q count o rest amount hpc => ⟨?_, ?_⟩⟩
  · obtain ⟨hbid, hask, hcross⟩ := best_of_single (Z := Z) hone hbetween hbest.1 hbest.2
    have hspread : getSpread c.mem = c.mem.best .sell - c.mem.best .buy :=
      getSpread_of_lt hbest.1 hbest.2 hcross
    exact ⟨c.mem.best .buy, c.mem.best .sell, hbid, hask, hspread ▸ Nat.sub_pos_of_lt hcross,
      hspread⟩
  · exact amount_le_quantity sched i hpc
  · have hlt' : ∀ s, restedQuantity s (S.history sched i) < 2 ^ 64 :=
      fun s => Nat.lt_of_le_of_lt (restedQuantity_mono hi s) (hlt s)
    exact (totals_run hlt' fun j _ => solvent_of_single hone j).amount_le hpc

/-- One thread submits and processes a BUY order at 10000 and a SELL order at 10050,
which rest, and a SELL order at 9000, which is matched. -/
def oneAfterTheOther : ℕ → Unit × Choice Op := fun i =>
  ((), ([⟨.buy, 10000, 100⟩, ⟨.sell, 10050, 100⟩, ⟨.sell, 9000, 30⟩].flatMap round).getD i .go)

theorem single_processor_spread_fifty :
    let c := (smallBook Unit).run oneAfterTheOther 54
    let H := (smallBook Unit).history oneAfterTheOther 54
    getSpread c.mem = 50 ∧ c.mem.total .buy = 70
      ∧ removedQuantity (smallBook Unit) oneAfterTheOther .buy 54 = 30
      ∧ ∃ bid ask, IsGreatest {x | ∃ o ∈ rested H, o.side = .buy ∧ o.price = x} bid
        ∧ IsLeast {x | ∃ o ∈ rested H, o.side = .sell ∧ o.price = x} ask
        ∧ 0 < getSpread c.mem ∧ getSpread c.mem = ask - bid := by
  have h := single_processor_spread Ring.twoCells (fun _ => ⟨.buy, 0, 0⟩) oneAfterTheOther () 54
    (fun _ _ _ _ => rfl) (by rintro (_ | _) <;> decide +kernel)
  exact ⟨by decide +kernel, by decide +kernel, by decide +kernel,
    (h.1 (by decide +kernel)).1 (by decide +kernel)⟩

end OrderBook

end Lockless
