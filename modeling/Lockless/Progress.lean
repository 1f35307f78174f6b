import Mathlib.Algebra.BigOperators.Group.Finset.Basic
import Mathlib.Algebra.Order.BigOperators.Group.Finset
import Lockless.Interleave

/-!
# Progress

How many steps a thread can take without getting to the end of its call. Each
argument here is one of accounts: a potential pays for the steps, and what puts
it up again is counted beside them.

A call without a retry loop is `Bounded`: it has a certain number of steps,
whatever the other threads do, apart from those in which it waits. A call that
retries after a failed compare-exchange has no bound of its own. But a
compare-exchange fails, spurious failures apart, only if another one has been
successful since the word was read, and a call has few successful ones. So of
the potential of all threads together, in which a success still to come is worth
what it can cost all the others, every step takes something away until some
call returns.
-/

namespace Lockless

variable {ι μ π κ ε : Type*}

/-! ## Counting ticks -/

/-- How many of the `d` ticks from tick `n` on are among those counted. -/
def ticks (P : ℕ → Bool) (n d : ℕ) : ℕ := (List.range' n d).countP P

@[simp] theorem ticks_zero (P : ℕ → Bool) (n : ℕ) : ticks P n 0 = 0 := rfl

theorem ticks_succ (P : ℕ → Bool) (n d : ℕ) :
    ticks P n (d + 1) = ticks P n d + (P (n + d)).toNat := by
  rw [ticks, List.range'_1_concat, List.countP_append, List.countP_singleton]
  cases P (n + d) <;> rfl

/-- A potential pays for the ticks counted, but for what others put it up by. -/
theorem ticks_add_le (own hit : ℕ → Bool) (f : ℕ → ℕ) {c n d : ℕ}
    (h : ∀ t, n ≤ t → t < n + d → f (t + 1) + (own t).toNat ≤ f t + c * (hit t).toNat) :
    ticks own n d + f (n + d) ≤ f n + c * ticks hit n d := by
  induction d with
  | zero => simp
  | succ d ih =>
      have hprev := ih fun t hn ht => h t hn (by omega)
      have hlast := h (n + d) (by omega) (by omega)
      rw [ticks_succ, ticks_succ, Nat.mul_add, ← Nat.add_assoc n d 1]
      omega

theorem ticks_or_le (P Q : ℕ → Bool) (n d : ℕ) :
    ticks (fun t => P t || Q t) n d ≤ ticks P n d + ticks Q n d := by
  induction d with
  | zero => exact Nat.le_refl _
  | succ d ih =>
      have hlast : (P (n + d) || Q (n + d)).toNat ≤ (P (n + d)).toNat + (Q (n + d)).toNat := by
        cases P (n + d) <;> cases Q (n + d) <;> decide
      rw [ticks_succ, ticks_succ, ticks_succ]
      omega

theorem ticks_eq_zero {P : ℕ → Bool} {n d : ℕ} (h : ∀ t, n ≤ t → P t = false) :
    ticks P n d = 0 := by
  induction d with
  | zero => rfl
  | succ d ih => rw [ticks_succ, ih, h _ (Nat.le_add_right n d), Bool.toNat_false]

theorem ticks_mono (P : ℕ → Bool) (n : ℕ) {d d' : ℕ} (h : d ≤ d') :
    ticks P n d ≤ ticks P n d' := by
  induction d', h using Nat.le_induction with
  | base => exact Nat.le_refl _
  | succ d' _ ih =>
      rw [ticks_succ]
      exact Nat.le_trans ih (Nat.le_add_right _ _)

/-- Of what happens again and again there is as much as one likes. -/
theorem exists_le_ticks {P : ℕ → Bool} (h : ∀ m, ∃ t, m ≤ t ∧ P t = true) (n k : ℕ) :
    ∃ d, k ≤ ticks P n d := by
  induction k with
  | zero => exact ⟨0, Nat.zero_le _⟩
  | succ k ih =>
      obtain ⟨d, hd⟩ := ih
      obtain ⟨t, ht, hP⟩ := h (n + d)
      refine ⟨t - n + 1, ?_⟩
      have hmono := ticks_mono P n (show d ≤ t - n by omega)
      rw [ticks_succ, show n + (t - n) = t by omega, hP, Bool.toNat_true]
      omega

/-- What only grows, and not beyond a bound, stops growing. -/
theorem exists_stable {f : ℕ → ℕ} {B : ℕ} (hmono : ∀ n, f n ≤ f (n + 1)) (hB : ∀ n, f n ≤ B) :
    ∃ N, ∀ n, N ≤ n → f n = f N := by
  have hchain := monotone_nat_of_le_succ hmono
  obtain ⟨N, hN⟩ : ∃ N, ∀ n, f n ≤ f N := by
    by_contra hnone
    simp only [not_exists, not_forall, not_le] at hnone
    have hgrow : ∀ k, ∃ n, k ≤ f n := by
      intro k
      induction k with
      | zero => exact ⟨0, Nat.zero_le _⟩
      | succ k ih =>
          obtain ⟨n, hn⟩ := ih
          obtain ⟨n', hn'⟩ := hnone n
          exact ⟨n', by omega⟩
    obtain ⟨n, hn⟩ := hgrow (B + 1)
    have hle := hB n
    omega
  exact ⟨N, fun n hn => Nat.le_antisymm (hN n) (hchain hn)⟩

/-- What is read off the events of all threads, one after another. -/
theorem sum_ofThread [Fintype ι] [DecidableEq ι] {α : Type*} (f : ι × ε → Option α)
    (H : List (ι × ε)) :
    ∑ p, (((ofThread p H).filterMap f : List α) : Multiset α) = (H.filterMap f : List α) := by
  induction H with
  | nil => exact Finset.sum_const_zero
  | cons e H ih =>
      have hcons : ∀ p, (((ofThread p (e :: H)).filterMap f : List α) : Multiset α)
          = (if e.1 = p then ((f e).toList : Multiset α) else 0)
            + ((ofThread p H).filterMap f : List α) := by
        intro p
        by_cases hp : e.1 = p
        · cases hf : f e <;> simp [ofThread, hp, hf]
        · simp [ofThread, hp]
      rw [Finset.sum_congr rfl fun p _ => hcons p, Finset.sum_add_distrib, ih,
        Finset.sum_ite_eq, if_pos (Finset.mem_univ _)]
      cases hf : f e <;> simp [hf]

/-- A tick at which a call starts, or makes one of its steps. -/
def Choice.moves (busy : π → Bool) (pc : π) : Choice κ → Bool
  | .call _ => !busy pc
  | _ => busy pc

/-- The adverse outcome. -/
def Choice.isFault : Choice κ → Bool
  | .fault => true
  | _ => false

namespace System

variable [DecidableEq ι] (S : System ι μ π (Choice κ) ε) (busy : π → Bool) (won : ε → Bool)
  (sched : ℕ → ι × Choice κ)

/-- Some thread starts a call at the tick, or makes a step of one. -/
def movesAt (t : ℕ) : Bool :=
  (sched t).2.moves busy ((S.run sched t).pc (sched t).1)

/-- A call returns at the tick. -/
def returnsAt (t : ℕ) : Bool :=
  busy ((S.run sched t).pc (sched t).1) && !busy ((S.run sched (t + 1)).pc (sched t).1)

/-- The step at the tick is a success. -/
def wonAt (t : ℕ) : Bool :=
  (S.outcome (S.run sched t) (sched t)).event.any won

/-- The step at the tick has the adverse outcome. -/
def faultAt (t : ℕ) : Bool := (sched t).2.isFault

/-- What may throw thread `p` back: another's success, or an adverse outcome of its own. -/
def hindersAt (p : ι) (t : ℕ) : Bool :=
  if (sched t).1 = p then faultAt sched t else S.wonAt won sched t

/-- Lock-freedom during the `d` ticks from tick `n` on. A thread that does not return makes at
most `A` steps, and `cost` more each time it is hindered. And if no call returns, then all
threads together, if there are finitely many, make at most so many steps. -/
structure LockFree (A B cost n d : ℕ) : Prop where
  thread : ∀ p, (∀ t, n ≤ t → t < n + d → (sched t).1 = p → S.returnsAt busy sched t = false) →
    ticks (fun t => decide ((sched t).1 = p) && S.movesAt busy sched t) n d
      ≤ A + cost * ticks (S.hindersAt won sched p) n d
  all : ∀ _ : Fintype ι, (∀ t, n ≤ t → t < n + d → S.returnsAt busy sched t = false) →
    ticks (S.movesAt busy sched) n d
      ≤ Fintype.card ι * (A + cost * Fintype.card ι * B)
        + cost * ticks (faultAt sched) n d

end System

/-! ## Calls with a bound -/

/-- A program whose calls have a certain number of steps, `left`, but for those at which
they wait. `active` are the choices at which a thread does something. -/
structure Bounded (prog : μ → π → Choice κ → Outcome μ π ε) (busy : π → Bool)
    (active : π → Choice κ → Bool) (waits : μ → π → Bool) (left : π → ℕ) : Prop where
  stays : ∀ m pc ch, active pc ch = false → (prog m pc ch).pc = pc
  own : ∀ m pc ch, active pc ch = true →
    (busy pc = true ∧ busy (prog m pc ch).pc = false)
      ∨ left (prog m pc ch).pc + 1 ≤ left pc + (waits m pc).toNat

namespace System

variable [DecidableEq ι] (S : System ι μ π (Choice κ) ε) (active : π → Choice κ → Bool)
  (waits : μ → π → Bool) (sched : ℕ → ι × Choice κ) (p : ι)

/-- Thread `p` makes a step. -/
def stepsAt (t : ℕ) : Bool :=
  decide ((sched t).1 = p) && active ((S.run sched t).pc p) (sched t).2

/-- It makes one at which it waits. -/
def waitsAt (t : ℕ) : Bool :=
  S.stepsAt active sched p t && waits (S.run sched t).mem ((S.run sched t).pc p)

end System

/-- From any tick on, until it returns, a thread makes only so many steps, and those at
which it waits. -/
theorem Bounded.ticks_le [DecidableEq ι] {S : System ι μ π (Choice κ) ε} {busy : π → Bool}
    {active : π → Choice κ → Bool} {waits : μ → π → Bool} {left : π → ℕ}
    (h : Bounded S.prog busy active waits left) {sched : ℕ → ι × Choice κ} {n d : ℕ} {p : ι}
    (hin : ∀ t, n ≤ t → t < n + d → (sched t).1 = p → S.returnsAt busy sched t = false) :
    ticks (S.stepsAt active sched p) n d
      ≤ left ((S.run sched n).pc p) + ticks (S.waitsAt active waits sched p) n d := by
  have hpaid := ticks_add_le (S.stepsAt active sched p) (S.waitsAt active waits sched p)
    (fun t => left ((S.run sched t).pc p)) (n := n) (d := d) (c := 1) fun t hn ht => ?_
  · omega
  by_cases hp : (sched t).1 = p
  · subst hp
    have hnot := hin t hn ht rfl
    simp only [System.returnsAt, System.run_succ, System.next_pc_self, System.outcome] at hnot
    simp only [System.run_succ, System.next_pc_self, System.outcome, System.waitsAt,
      System.stepsAt, decide_true, Bool.true_and]
    cases hact : active ((S.run sched t).pc (sched t).1) (sched t).2 with
    | false =>
        rw [h.stays _ _ _ hact]
        simp
    | true =>
        rcases h.own (S.run sched t).mem _ _ hact with ⟨hbusy, hidle⟩ | hleft
        · simp [hbusy, hidle] at hnot
        · rw [Nat.one_mul]
          exact hleft
  · have hpc : (S.run sched (t + 1)).pc p = (S.run sched t).pc p :=
      S.next_pc_ne _ fun e => hp e.symm
    simp [hpc, hp, System.stepsAt, System.waitsAt]

/-! ## Calls that contend -/

/-- A step with which a call has returned, or that `k` pays for: what is left after it and the
step itself, with the successes. -/
def Paid (busy : π → Bool) (won : ε → Bool) (left : μ → π → ℕ) (wins : π → ℕ) (pc : π) (k : ℕ)
    (o : Outcome μ π ε) : Prop :=
  (busy pc = true ∧ busy o.pc = false)
    ∨ (left o.mem o.pc + 1 ≤ k ∧ wins o.pc + (o.event.any won).toNat ≤ wins pc)

/-- A program whose calls throw each other back by their successes only. `left` is how
many steps a call has left if it is not thrown back, at an idle thread one more than a
whole call has; `wins` how many successes it still has; and `cost` what a success, or an
adverse outcome, may cost a thread. `J` is what holds of the memory meanwhile. -/
structure Contended (prog : μ → π → Choice κ → Outcome μ π ε) (busy : π → Bool)
    (won : ε → Bool) (J : μ → Prop) (left : μ → π → ℕ) (wins : π → ℕ) (cost : ℕ) : Prop where
  stays : ∀ m pc ch, Choice.moves busy pc ch = false → prog m pc ch = ⟨m, pc, none⟩
  own : ∀ m pc ch, J m → Choice.moves busy pc ch = true →
    Paid busy won left wins pc (left m pc + cost * ch.isFault.toNat) (prog m pc ch)
  others : ∀ m pc ch pc', left (prog m pc ch).mem pc'
    ≤ left m pc' + cost * ((prog m pc ch).event.any won).toNat

namespace Contended

variable [DecidableEq ι] {S : System ι μ π (Choice κ) ε} {busy : π → Bool} {won : ε → Bool}
  {J : μ → Prop} {left : μ → π → ℕ} {wins : π → ℕ} {cost : ℕ} {sched : ℕ → ι × Choice κ}
  {n d : ℕ}

/-- A thread's steps inside a call are paid for by what it has left and by what it is
thrown back by. -/
theorem ticks_le_of_thread (h : Contended S.prog busy won J left wins cost) (p : ι)
    (hJ : ∀ t, n ≤ t → t < n + d → J (S.run sched t).mem)
    (hin : ∀ t, n ≤ t → t < n + d → (sched t).1 = p → S.returnsAt busy sched t = false) :
    ticks (fun t => decide ((sched t).1 = p) && S.movesAt busy sched t) n d
      ≤ left (S.run sched n).mem ((S.run sched n).pc p)
        + cost * ticks (S.hindersAt won sched p) n d := by
  refine Nat.le_trans (Nat.le_add_right _ _) (ticks_add_le _ (S.hindersAt won sched p)
    (fun t => left (S.run sched t).mem ((S.run sched t).pc p)) fun t hn ht => ?_)
  by_cases hp : (sched t).1 = p
  · subst hp
    simp only [System.run_succ, System.next_pc_self, System.hindersAt, if_true, decide_true,
      Bool.true_and, System.movesAt, System.faultAt]
    have hnot := hin t hn ht rfl
    simp only [System.returnsAt, System.run_succ, System.next_pc_self, System.outcome] at hnot
    simp only [System.next, System.outcome]
    cases hmoves : Choice.moves busy ((S.run sched t).pc (sched t).1) (sched t).2 with
    | false =>
        rw [h.stays _ _ _ hmoves]
        simp
    | true =>
        rcases h.own _ _ _ (hJ t hn ht) hmoves with ⟨hbusy, hidle⟩ | ⟨hleft, -⟩
        · simp [hbusy, hidle] at hnot
        · exact hleft
  · have hpc : (S.run sched (t + 1)).pc p = (S.run sched t).pc p :=
      S.next_pc_ne _ fun e => hp e.symm
    simp only [hpc, hp, decide_false, Bool.false_and, Bool.toNat_false, Nat.add_zero,
      System.hindersAt, if_false, System.wonAt]
    exact h.others _ _ _ _

/-! ## All threads together -/

variable [Fintype ι]

/-- The potential of all threads together. -/
def total (left : μ → π → ℕ) (wins : π → ℕ) (cost : ℕ) (c : Config ι μ π) : ℕ :=
  ∑ p, (left c.mem (c.pc p) + cost * Fintype.card ι * wins (c.pc p))

omit [DecidableEq ι] in
theorem total_le (cost : ℕ) {A B : ℕ} (hleft : ∀ m pc, left m pc ≤ A) (hwins : ∀ pc, wins pc ≤ B)
    (c : Config ι μ π) :
    total left wins cost c ≤ Fintype.card ι * (A + cost * Fintype.card ι * B) := by
  rw [← smul_eq_mul, ← Finset.card_univ]
  exact Finset.sum_le_card_nsmul _ _ _ fun p _ =>
    Nat.add_le_add (hleft _ _) (Nat.mul_le_mul_left _ (hwins _))

/-- What the other threads have to pay for a step of thread `p`. -/
theorem total_others_le (h : Contended S.prog busy won J left wins cost) (c : Config ι μ π)
    (a : ι × Choice κ) :
    ∑ q ∈ Finset.univ.erase a.1, (left (S.next c a).mem ((S.next c a).pc q)
        + cost * Fintype.card ι * wins ((S.next c a).pc q))
      ≤ ∑ q ∈ Finset.univ.erase a.1, (left c.mem (c.pc q)
          + cost * Fintype.card ι * wins (c.pc q))
        + cost * Fintype.card ι * ((S.outcome c a).event.any won).toNat := by
  have hcard : (Finset.univ.erase a.1).card ≤ Fintype.card ι := Finset.card_le_univ _
  calc _ ≤ ∑ q ∈ Finset.univ.erase a.1, (left c.mem (c.pc q)
            + cost * Fintype.card ι * wins (c.pc q)
            + cost * ((S.outcome c a).event.any won).toNat) := by
        refine Finset.sum_le_sum fun q hq => ?_
        rw [S.next_pc_ne c (Finset.ne_of_mem_erase hq)]
        have hq := h.others c.mem (c.pc a.1) a.2 (c.pc q)
        simp only [System.next, System.outcome]
        omega
    _ ≤ _ := by
        rw [Finset.sum_add_distrib, Finset.sum_const, smul_eq_mul]
        refine Nat.add_le_add_left ?_ _
        rw [Nat.mul_comm cost (Fintype.card ι), Nat.mul_assoc]
        exact Nat.mul_le_mul_right _ hcard

/-- Every step that returns from no call takes something away from the total. -/
theorem total_step (h : Contended S.prog busy won J left wins cost) {c : Config ι μ π}
    (hJ : J c.mem) {a : ι × Choice κ}
    (hin : (busy (c.pc a.1) && !busy ((S.next c a).pc a.1)) = false) :
    total left wins cost (S.next c a) + (a.2.moves busy (c.pc a.1)).toNat
      ≤ total left wins cost c + cost * a.2.isFault.toNat := by
  cases hmoves : a.2.moves busy (c.pc a.1) with
  | false =>
      have hsame : S.next c a = c := by
        refine Config.ext ?_ ?_ <;> simp only [System.next, System.outcome, h.stays _ _ _ hmoves]
        exact Function.update_eq_self _ _
      rw [hsame]
      exact Nat.le_add_right _ _
  | true =>
      rw [System.next_pc_self, System.outcome] at hin
      have hothers := h.total_others_le c a
      rcases h.own _ _ _ hJ hmoves with ⟨hbusy, hidle⟩ | ⟨hleft, hwins⟩
      · simp [hbusy, hidle] at hin
      · have hpaid := Nat.mul_le_mul_left (cost * Fintype.card ι) hwins
        rw [Nat.mul_add] at hpaid
        rw [total, total, ← Finset.add_sum_erase _ _ (Finset.mem_univ a.1),
          ← Finset.add_sum_erase _ (fun p => left c.mem (c.pc p) + _) (Finset.mem_univ a.1),
          System.next_pc_self]
        simp only [System.outcome] at hothers ⊢
        have hmem : (S.next c a).mem = (S.prog c.mem (c.pc a.1) a.2).mem := rfl
        rw [hmem] at hothers ⊢
        simp only [Bool.toNat_true]
        omega

omit [Fintype ι] in
/-- Of a program whose calls contend, every run is lock-free. -/
theorem lockFree (h : Contended S.prog busy won J left wins cost) {A B : ℕ}
    (hleft : ∀ m pc, left m pc ≤ A) (hwins : ∀ pc, wins pc ≤ B)
    (hJ : ∀ t, n ≤ t → t < n + d → J (S.run sched t).mem) :
    S.LockFree busy won sched A B cost n d where
  thread p hin :=
    (h.ticks_le_of_thread p hJ hin).trans (Nat.add_le_add_right (hleft _ _) _)
  all _ hin := by
    have hpaid := ticks_add_le (S.movesAt busy sched) (System.faultAt sched)
      (fun t => total left wins cost (S.run sched t))
      fun t hn ht => h.total_step (hJ t hn ht) (hin t hn ht)
    have hstart := total_le cost hleft hwins (S.run sched n)
    omega

omit [Fintype ι] in
/-- A thread that keeps moving, and that nothing throws back any more, returns. -/
theorem exists_return (h : Contended S.prog busy won J left wins cost) {p : ι}
    (hJ : ∀ t, n ≤ t → J (S.run sched t).mem)
    (hquiet : ∀ t, n ≤ t → S.hindersAt won sched p t = false)
    (hmoves : ∀ m, ∃ t, m ≤ t ∧ (sched t).1 = p ∧ S.movesAt busy sched t = true) :
    ∃ t, n ≤ t ∧ (sched t).1 = p ∧ S.returnsAt busy sched t = true := by
  by_contra hnone
  obtain ⟨d, hd⟩ := exists_le_ticks
    (P := fun t => decide ((sched t).1 = p) && S.movesAt busy sched t)
    (fun m => by
      obtain ⟨t, ht, hp, hmove⟩ := hmoves m
      exact ⟨t, ht, by rw [hmove, Bool.and_true, decide_eq_true hp]⟩)
    n (left (S.run sched n).mem ((S.run sched n).pc p) + 1)
  have hle := h.ticks_le_of_thread p (d := d) (fun t ht _ => hJ t ht) fun t ht _ hp => by
    by_contra hreturn
    exact hnone ⟨t, ht, hp, Bool.of_not_eq_false hreturn⟩
  rw [ticks_eq_zero hquiet] at hle
  omega

end Contended

/-! ## Fair schedules -/

/-- Every thread is scheduled again and again, and the adverse outcomes come to an end. -/
structure Fair (sched : ℕ → ι × Choice κ) : Prop where
  often : ∀ p n, ∃ t, n ≤ t ∧ (sched t).1 = p
  clean : ∃ n, ∀ t, n ≤ t → System.faultAt sched t = false

end Lockless
