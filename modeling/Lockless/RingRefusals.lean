import Lockless.RingTickets
import Lockless.Serial

/-!
# Refusals of the ring buffer

A call returns false if the sequence number it loads is behind its ticket. The
ticket may have been taken long before: between the load of the counter and the
load of the sequence number other threads can claim any number of tickets. The
number a slot shows is never behind a ticket that has been claimed, so such a
stale ticket does not lead to a refusal, and a current one does only if the ring
is empty or full or a peer has claimed the slot and not yet published it.

The difference is read as a signed number, and here this matters: a slot can
show a number exactly half a cycle ahead of a stale ticket, which counts as
behind. It takes a call of `try_push` that sleeps while all but less than one
lap of the `2 ^ 63` tickets are claimed and served. `sleepingPush` is that run.
-/

namespace Lockless

namespace Ring

variable {ι T : Type*}

/-! ## Sequence numbers seen late -/

namespace Tickets

variable {Z : PowSize} {seq : ℕ → ℕ} {head tail : ℕ} {prod cons : ι → Option ℕ}

/-- What a slot of the current lap shows. -/
theorem seq_cases (h : Tickets Z seq head tail prod cons) {u : ℕ} (hu : tail ≤ u)
    (hlap : u < tail + Z.size) :
    (u < head ∧ seq (Z.index u) = u + 1)
      ∨ (u < head ∧ seq (Z.index u) = u ∧ ∃ p, prod p = some u)
      ∨ (head ≤ u ∧ seq (Z.index u) = u)
      ∨ (head ≤ u ∧ ∃ p w, cons p = some w ∧ w + Z.size = u
        ∧ seq (Z.index u) = w + 1) := by
  rcases Nat.lt_or_ge u head with hlt | hge
  · rcases h.stored hu hlt with hseq | ⟨p, hp⟩
    · exact Or.inl ⟨hlt, hseq⟩
    · exact Or.inr (Or.inl ⟨hlt, (h.prod_claim hp).2.2, p, hp⟩)
  · rcases h.vacant hge hlap with hseq | ⟨p, w, hp, rfl⟩
    · exact Or.inr (Or.inr (Or.inl ⟨hge, hseq⟩))
    · refine Or.inr (Or.inr (Or.inr ⟨hge, p, w, hp, rfl, ?_⟩))
      rw [Z.index_add_size]
      exact (h.cons_claim hp).2.2

/-- The slot of a ticket that has been served shows a later number. It is at most
half a cycle later, and less as long as no ticket of the current lap is. -/
theorem seq_of_lt_tail (h : Tickets Z seq head tail prod cons) {t : ℕ} (ht : t < tail)
    (hhead : head < 2 ^ 63) :
    t + 1 ≤ seq (Z.index t) ∧ seq (Z.index t) ≤ t + 2 ^ 63
      ∧ (head + Z.size ≤ 2 ^ 63 → seq (Z.index t) < t + 2 ^ 63) := by
  obtain ⟨u, hu, hlap, hindex⟩ := Z.exists_index t tail
  have htail := h.tail_le
  have hfar : t + Z.size ≤ u := by
    by_contra hnear
    have := Z.index_inj hindex (by omega) (by omega)
    omega
  -- the distance is a multiple of the size, and so is half a cycle
  have hhalf : u ≤ t + 2 ^ 63 := by
    by_contra hgt
    have hdvd := Nat.dvd_sub (Z.dvd_sub_of_index hindex.symm (by omega)) Z.size_dvd
    have := Nat.le_of_dvd (by omega) hdvd
    omega
  have h2 := Z.two_le_size
  rw [← hindex]
  rcases h.seq_cases hu hlap with ⟨hlt, hseq⟩ | ⟨hlt, hseq, -⟩ | ⟨hge, hseq⟩
    | ⟨hge, p, w, hp, hw, hseq⟩
  · exact ⟨by omega, by omega, fun _ => by omega⟩
  · exact ⟨by omega, by omega, fun _ => by omega⟩
  · exact ⟨by omega, by omega, fun _ => by omega⟩
  · have := (h.cons_claim hp).1
    exact ⟨by omega, by omega, fun _ => by omega⟩

/-- The slot of a ticket that is still held shows it or the next number. -/
theorem seq_of_lt_head (h : Tickets Z seq head tail prod cons) {t : ℕ} (ht : tail ≤ t)
    (hlt : t < head) : seq (Z.index t) = t ∨ seq (Z.index t) = t + 1 := by
  have := h.head_le
  rcases h.seq_cases ht (by omega) with ⟨-, hseq⟩ | ⟨-, hseq, -⟩ | ⟨hge, -⟩ | ⟨hge, -⟩
  · exact Or.inr hseq
  · exact Or.inl hseq
  · omega
  · omega

/-- `try_pop` with the current tail sees its number, or the ring is empty or the
item is not yet published. -/
theorem seq_tail (h : Tickets Z seq head tail prod cons) :
    (seq (Z.index tail) = tail + 1 ∧ tail < head)
      ∨ (seq (Z.index tail) ≤ tail ∧ tail ≤ seq (Z.index tail) + Z.size
        ∧ (head = tail ∨ ∃ p, prod p = some tail)) := by
  have h2 := Z.two_le_size
  have htl := h.tail_le
  rcases h.seq_cases (Nat.le_refl tail) (by omega) with ⟨hlt, hseq⟩ | ⟨hlt, hseq, hp⟩
    | ⟨hge, hseq⟩ | ⟨hge, p, w, -, hw, hseq⟩
  · exact Or.inl ⟨hseq, hlt⟩
  · exact Or.inr ⟨hseq.le, by omega, Or.inr hp⟩
  · exact Or.inr ⟨hseq.le, by omega, Or.inl (by omega)⟩
  · exact Or.inr ⟨by omega, by omega, Or.inl (by omega)⟩

/-- `try_push` with the current head sees its number, or the ring is full or the
slot is not yet given back. -/
theorem seq_head (h : Tickets Z seq head tail prod cons) :
    (seq (Z.index head) = head ∧ head < tail + Z.size)
      ∨ (seq (Z.index head) < head ∧ head ≤ seq (Z.index head) + Z.size
        ∧ (head = tail + Z.size ∨ ∃ p w, cons p = some w ∧ w + Z.size = head)) := by
  have h2 := Z.two_le_size
  have htl := h.tail_le
  rcases Nat.lt_or_eq_of_le h.head_le with hlap | hfull
  · rcases h.seq_cases htl hlap with ⟨hlt, -⟩ | ⟨hlt, -⟩ | ⟨-, hseq⟩ | ⟨-, p, w, hp, hw, hseq⟩
    · omega
    · omega
    · exact Or.inl ⟨hseq, hlap⟩
    · exact Or.inr ⟨by omega, by omega, Or.inr ⟨p, w, hp, hw⟩⟩
  · have hindex : Z.index head = Z.index tail := by
      rw [hfull, Z.index_add_size]
    rw [hindex]
    rcases h.seq_of_lt_head (Nat.le_refl tail) (by omega) with hseq | hseq
    · exact Or.inr ⟨by omega, by omega, Or.inl hfull⟩
    · exact Or.inr ⟨by omega, by omega, Or.inl hfull⟩

end Tickets

/-! ## The branch taken -/

namespace Inv

variable {Z : PowSize} {c : Config ι (Mem T) (PC T)} {H : List (ι × Event T)}

/-- `try_pop` returns false exactly if its tail is current and there is nothing it
could take. -/
theorem popEmpty_iff (h : Inv Z c H) (hhead : c.mem.head < 2 ^ 63) {p : ι} {tail : ℕ}
    (hpc : c.pc p = .pop (.loadSeq tail)) :
    signedDiff 64 (c.mem.sequences (Z.index tail)) (wrap 64 (tail + 1)) < 0
      ↔ c.mem.tail = tail
        ∧ (c.mem.head = tail ∨ ∃ q, (c.pc q).producing = some tail) := by
  have hle : tail ≤ c.mem.tail := by
    have hfresh := h.fresh p
    rwa [hpc] at hfresh
  have htl := h.tickets.tail_le
  have hsize := Z.size_le
  rw [wrap_of_lt (by omega : tail + 1 < 2 ^ 64)]
  rcases Nat.lt_or_eq_of_le hle with hlt | rfl
  · obtain ⟨hge, hhalf, -⟩ := h.tickets.seq_of_lt_tail hlt hhead
    rw [signedDiff_eq (by omega) (by omega)]
    constructor
    · intro hneg
      omega
    · rintro ⟨rfl, -⟩
      omega
  · rcases h.tickets.seq_tail with ⟨hseq, hlt⟩ | ⟨hseq, hlap, hwhy⟩
    · rw [signedDiff_eq (by omega) (by omega)]
      constructor
      · intro hneg
        omega
      · rintro ⟨-, hempty | ⟨q, hq⟩⟩
        · omega
        · have := (h.tickets.prod_claim hq).2.2
          omega
    · rw [signedDiff_eq (by omega) (by omega)]
      exact ⟨fun _ => ⟨rfl, hwhy⟩, fun _ => by omega⟩

/-- `try_push` returns false exactly if its head is current and there is no room
for its item, unless the ticket is half a cycle old. -/
theorem pushFull_iff (h : Inv Z c H) (hhead : c.mem.head + Z.size ≤ 2 ^ 63) {p : ι}
    {item : T} {head : ℕ} (hpc : c.pc p = .push item (.loadSeq head)) :
    signedDiff 64 (c.mem.sequences (Z.index head)) head < 0
      ↔ c.mem.head = head ∧ (head = c.mem.tail + Z.size
        ∨ ∃ q w, (c.pc q).consuming = some w ∧ w + Z.size = head) := by
  have hle : head ≤ c.mem.head := by
    have hfresh := h.fresh p
    rwa [hpc] at hfresh
  have htl := h.tickets.tail_le
  have h2 := Z.two_le_size
  rcases Nat.lt_or_eq_of_le hle with hlt | rfl
  · have hseq : head ≤ c.mem.sequences (Z.index head)
        ∧ c.mem.sequences (Z.index head) < head + 2 ^ 63 := by
      rcases Nat.lt_or_ge head c.mem.tail with hold | hnew
      · obtain ⟨hge, -, hhalf⟩ := h.tickets.seq_of_lt_tail hold (by omega)
        exact ⟨by omega, hhalf hhead⟩
      · rcases h.tickets.seq_of_lt_head hnew hlt with hseq | hseq <;>
          exact ⟨by omega, by omega⟩
    rw [signedDiff_eq (by omega) (by omega)]
    constructor
    · intro hneg
      omega
    · rintro ⟨rfl, -⟩
      omega
  · rcases h.tickets.seq_head with ⟨hseq, hlt⟩ | ⟨hseq, hlap, hwhy⟩
    · rw [hseq, signedDiff_eq (by omega) (by omega)]
      constructor
      · intro hneg
        omega
      · rintro ⟨-, hfull | ⟨q, w, hq, hw⟩⟩
        · omega
        · have := (h.tickets.cons_claim hq).2.2
          rw [← Z.index_add_size, hw] at this
          omega
    · rw [signedDiff_eq (by omega) (by omega)]
      exact ⟨fun _ => ⟨rfl, hwhy⟩, fun _ => by omega⟩

end Inv

/-- What holds of a thread in no call holds of every thread but the one in one. -/
theorem forall_of_alone {c : Config ι (Mem T) (PC T)} {p : ι}
    (hidle : ∀ q, q ≠ p → c.pc q = .idle) {P : PC T → Prop} (h₀ : P .idle) (hp : P (c.pc p))
    (q : ι) : P (c.pc q) := by
  by_cases hqp : q = p
  · rwa [hqp]
  · rwa [hidle q hqp]

section Fires

variable [DecidableEq ι] {Z : AdmittedSize} {moved : T → T} {buffer : ℕ → T}
  {sched : ℕ → ι × Choice (Op T)} {i : ℕ} {p : ι}

theorem fires_popEmpty_iff {tail : ℕ} (hp : (sched i).1 = p) (hch : ∀ op, (sched i).2 ≠ .call op)
    (hpc : ((system Z moved ι buffer).run sched i).pc p = .pop (.loadSeq tail)) :
    (system Z moved ι buffer).Fires sched i p .popEmpty
      ↔ signedDiff 64 (((system Z moved ι buffer).run sched i).mem.sequences (Z.index tail))
        (wrap 64 (tail + 1)) < 0 := by
  subst hp
  simp only [System.Fires, System.outcome, hpc, true_and]
  generalize (sched i).2 = ch at hch
  cases ch with
  | call op => exact absurd rfl (hch op)
  | go | fault =>
      simp only [system, prog, tryPop]
      split_ifs with hz hneg
      · simp [hz]
      · simp [hneg]
      · simp [hneg]

theorem fires_pushFull_iff {item : T} {head : ℕ} (hp : (sched i).1 = p)
    (hch : ∀ op, (sched i).2 ≠ .call op)
    (hpc : ((system Z moved ι buffer).run sched i).pc p = .push item (.loadSeq head)) :
    (system Z moved ι buffer).Fires sched i p .pushFull
      ↔ signedDiff 64 (((system Z moved ι buffer).run sched i).mem.sequences (Z.index head))
        head < 0 := by
  subst hp
  simp only [System.Fires, System.outcome, hpc, true_and]
  generalize (sched i).2 = ch at hch
  cases ch with
  | call op => exact absurd rfl (hch op)
  | go | fault =>
      simp only [system, prog, tryPush]
      split_ifs with hz hneg
      · simp [hz]
      · simp [hneg]
      · simp [hneg]

end Fires

/-- In every run with fewer than `2 ^ 63` pushes a `try_pop` that returns false has
used the current tail, and the ring is empty or the producer of that ticket has
not published it. A `try_push` that returns false has used the current head, and
the ring is full or the consumer that is to give the slot back has not done so;
here a whole lap of tickets has to be left of the `2 ^ 63`. With no other call in
flight the current ticket is refused exactly if the ring is empty or full. -/
theorem refusals_justified [DecidableEq ι] (Z : PowSize) (moved : T → T) (buffer : ℕ → T)
    (sched : ℕ → ι × Choice (Op T)) (n : ℕ)
    (hn : (pushed ((system Z moved ι buffer).history sched n)).length < 2 ^ 63) :
    let S := system Z moved ι buffer
    (∀ i p, i < n → S.Fires sched i p .popEmpty →
      ∃ tail, (S.run sched i).pc p = .pop (.loadSeq tail) ∧ (S.run sched i).mem.tail = tail
        ∧ ((S.run sched i).mem.head = tail
          ∨ ∃ q, ((S.run sched i).pc q).producing = some tail))
    ∧ ((pushed (S.history sched n)).length + Z.size ≤ 2 ^ 63 →
      ∀ i p, i < n → S.Fires sched i p .pushFull →
        ∃ item head, (S.run sched i).pc p = .push item (.loadSeq head)
          ∧ (S.run sched i).mem.head = head
          ∧ (head = (S.run sched i).mem.tail + Z.size
            ∨ ∃ q w, ((S.run sched i).pc q).consuming = some w ∧ w + Z.size = head))
    ∧ ∀ i p, i < n → (∀ q, q ≠ p → (S.run sched i).pc q = .idle) → (sched i).1 = p →
      (∀ op, (sched i).2 ≠ .call op) →
      (∀ tail, (S.run sched i).pc p = .pop (.loadSeq tail) →
        (S.Fires sched i p .popEmpty ↔ (S.run sched i).mem.tail = tail
          ∧ (S.run sched i).mem.head = (S.run sched i).mem.tail))
      ∧ ((pushed (S.history sched n)).length + Z.size ≤ 2 ^ 63 →
        ∀ item head, (S.run sched i).pc p = .push item (.loadSeq head) →
          (S.Fires sched i p .pushFull ↔ (S.run sched i).mem.head = head
            ∧ (S.run sched i).mem.head = (S.run sched i).mem.tail + Z.size)) := by
  intro S
  have hle : ∀ i, i < n → (pushed (S.history sched i)).length
      ≤ (pushed (S.history sched n)).length :=
    fun i hi => pushed_length_le (S.history_mono sched (Nat.le_of_lt hi))
  have hinv : ∀ i, i < n → Inv Z (S.run sched i) (S.history sched i) :=
    fun i hi => inv_run (Nat.lt_of_le_of_lt (hle i hi) hn)
  have hhead : ∀ i, i < n → (S.run sched i).mem.head ≤ (pushed (S.history sched n)).length :=
    fun i hi => (hinv i hi).pushes ▸ hle i hi
  refine ⟨fun i p hi h => ?_, fun hlap i p hi h => ?_, fun i p hi hidle hp hch =>
    ⟨fun tail hpc => ?_, fun hlap item head hpc => ?_⟩⟩
  · obtain ⟨tail, hpc, hneg⟩ := (S.effect_of_fires prog_effect h).of_popEmpty
    have hlt := Nat.lt_of_le_of_lt (hhead i hi) hn
    exact ⟨tail, hpc, ((hinv i hi).popEmpty_iff hlt hpc).mp hneg⟩
  · obtain ⟨item, head, hpc, hneg⟩ := (S.effect_of_fires prog_effect h).of_pushFull
    have hlt := (Nat.add_le_add_right (hhead i hi) _).trans hlap
    exact ⟨item, head, hpc, ((hinv i hi).pushFull_iff hlt hpc).mp hneg⟩
  · have hnone : ∀ q, ((S.run sched i).pc q).producing = none :=
      forall_of_alone hidle (P := fun pc => PC.producing pc = none) rfl (by rw [hpc]; rfl)
    have hlt := Nat.lt_of_le_of_lt (hhead i hi) hn
    rw [fires_popEmpty_iff hp hch hpc, (hinv i hi).popEmpty_iff hlt hpc]
    simp only [hnone, reduceCtorEq, exists_false, or_false]
    exact and_congr_right fun htail => by rw [htail]
  · have hnone : ∀ q, ((S.run sched i).pc q).consuming = none :=
      forall_of_alone hidle (P := fun pc => PC.consuming pc = none) rfl (by rw [hpc]; rfl)
    have hlt := (Nat.add_le_add_right (hhead i hi) _).trans hlap
    rw [fires_pushFull_iff hp hch hpc, (hinv i hi).pushFull_iff hlt hpc]
    simp only [hnone, reduceCtorEq, false_and, exists_false, or_false]
    exact and_congr_right fun hhead => by rw [hhead]

/-- A ring of two cells. -/
abbrev smallRing (ι : Type*) : System ι (Mem ℕ) (PC ℕ) (Choice (Op ℕ)) (Event ℕ) :=
  system twoCells id ι fun _ => 0

/-- A producer stops after it has claimed ticket 0, and a consumer finds nothing. -/
def stalledPush : ℕ → Bool × Choice (Op ℕ) := fun i =>
  [(false, Choice.call (Op.tryPush 7)), (false, .go), (false, .go), (false, .go),
    (true, .call .tryPop), (true, .go), (true, .go)].getD i (false, .call .tryPop)

theorem refusals_justified_stalledPush :
    (smallRing Bool).Fires stalledPush 6 true .popEmpty
      ∧ ∃ tail, ((smallRing Bool).run stalledPush 6).pc true = .pop (.loadSeq tail)
        ∧ ((smallRing Bool).run stalledPush 6).mem.tail = tail
        ∧ (((smallRing Bool).run stalledPush 6).mem.head = tail
          ∨ ∃ q, (((smallRing Bool).run stalledPush 6).pc q).producing = some tail) :=
  ⟨by decide, (refusals_justified twoCells id (fun _ => 0) stalledPush 7 (by decide)).1 6 true
    (by decide) (by decide)⟩

/-! ### A push that sleeps for half a cycle

One thread loads the head, and before it goes on another pushes and pops an item
`2 ^ 63 - 1` times. -/

/-- An item is pushed and popped. -/
def pushPop : List (Choice (Op ℕ)) :=
  Choice.call (Op.tryPush 0) :: List.replicate 5 Choice.go
    ++ Choice.call Op.tryPop :: List.replicate 5 Choice.go

def sleepingPush : ℕ → Bool × Choice (Op ℕ) := fun i =>
  if i = 0 then (false, .call (.tryPush 0))
  else if i = 1 then (false, .go)
  else if i < 2 + 12 * (2 ^ 63 - 1) then (true, pushPop.getD ((i - 2) % 12) .go)
  else (false, .go)

/-- The ring of two cells is empty, with both counters at `r`. -/
structure Emptied (r : ℕ) (m : Mem ℕ) : Prop where
  head : m.head = r
  tail : m.tail = r
  sequence : m.sequences (twoCells.index r) = r
  next : m.sequences (twoCells.index (r + 1)) = r + 1

theorem solo_pushPop {r : ℕ} (hr : r + 2 < 2 ^ 64) {m : Mem ℕ} (h : Emptied r m) :
    ∃ m', solo (prog twoCells id) pushPop m .idle
        = (m', .idle, [.pushWin r 0, .pushDone r, .popWin r, .popDone r 0])
      ∧ Emptied (r + 1) m' := by
  have hnext : wrap 64 (r + 1) = r + 1 := wrap_of_lt (by omega)
  have hlap : wrap 64 (r + twoCells.mask + 1) = r + 2 :=
    wrap_of_lt (by rw [Nat.add_assoc, twoCells.mask_add_one]; exact hr)
  refine ⟨⟨Function.update m.sequences (twoCells.index r) (r + 2),
    Function.update m.buffer (twoCells.index r) 0, r + 1, r + 1⟩, ?_, ⟨rfl, rfl, ?_, ?_⟩⟩
  · simp [pushPop, solo, List.replicate, prog, start, tryPush, tryPop, h.head, h.tail,
      h.sequence, signedDiff, hnext, hlap]
  · have hne := twoCells.index_succ_ne r
    simp only
    rw [Function.update_of_ne hne, h.next]
  · have heq : twoCells.index (r + 1 + 1) = twoCells.index r := twoCells.index_add_size r
    simp only
    rw [heq, Function.update_self]

/-- The ring after `r` rounds. -/
theorem sleepingPush_run {r : ℕ} (hr : r ≤ 2 ^ 63 - 1) :
    let c := (smallRing Bool).run sleepingPush (2 + 12 * r)
    Emptied r c.mem ∧ c.pc true = .idle ∧ c.pc false = .push 0 (.loadSeq 0)
      ∧ (pushed ((smallRing Bool).history sleepingPush (2 + 12 * r))).length = r := by
  induction r with
  | zero => refine ⟨⟨?_, ?_, ?_, ?_⟩, ?_, ?_, ?_⟩ <;> decide +kernel
  | succ r ih =>
      obtain ⟨hempty, hidle, hsleeps, hpushed⟩ := ih (by omega)
      obtain ⟨m', hsolo, hempty'⟩ := solo_pushPop (by omega) hempty
      have hsched : ∀ i ch, pushPop[i]? = some ch → sleepingPush (2 + 12 * r + i) = (true, ch) := by
        intro i ch hi
        have hlt : i < 12 := (List.getElem?_eq_some_iff.mp hi).1
        have hmod : (2 + 12 * r + i - 2) % 12 = i := by omega
        have h0 : ¬ 2 + 12 * r + i = 0 := by omega
        have h1 : ¬ 2 + 12 * r + i = 1 := by omega
        have hend : 2 + 12 * r + i < 2 + 12 * (2 ^ 63 - 1) := by omega
        simp only [sleepingPush, if_neg h0, if_neg h1, if_pos hend, hmod,
          List.getD_eq_getElem?_getD, hi, Option.getD_some]
      obtain ⟨hrun, hhist⟩ := (smallRing Bool).run_solo hsched
      have hprog : (smallRing Bool).prog = prog twoCells id := rfl
      rw [hidle, hprog, hsolo] at hrun hhist
      have hlen : 2 + 12 * r + pushPop.length = 2 + 12 * (r + 1) := rfl
      rw [hlen] at hrun hhist
      dsimp only
      rw [hrun, hhist]
      dsimp only
      refine ⟨hempty', Function.update_self _ _ _, ?_, ?_⟩
      · exact (Function.update_of_ne (by decide) _ _).trans hsleeps
      · rw [pushed_append, List.length_append, hpushed]
        rfl

/-- Fewer than `2 ^ 63` items have been pushed, and the sleeping thread is told
that the ring is full, with a head that is no longer the current one, while the
ring is empty. -/
theorem sleepingPush_refused : ∃ n,
    (pushed ((smallRing Bool).history sleepingPush (n + 1))).length < 2 ^ 63
      ∧ (smallRing Bool).Fires sleepingPush n false .pushFull
      ∧ ((smallRing Bool).run sleepingPush n).pc false = .push 0 (.loadSeq 0)
      ∧ ((smallRing Bool).run sleepingPush n).mem.head = 2 ^ 63 - 1
      ∧ ((smallRing Bool).run sleepingPush n).mem.tail = 2 ^ 63 - 1
      ∧ ¬ ∃ item head, ((smallRing Bool).run sleepingPush n).pc false
          = .push item (.loadSeq head)
        ∧ ((smallRing Bool).run sleepingPush n).mem.head = head := by
  obtain ⟨r, hr⟩ : ∃ r, r = 2 ^ 63 - 1 := ⟨_, rfl⟩
  obtain ⟨hempty, -, hsleeps, hpushed⟩ := sleepingPush_run hr.le
  have hn : sleepingPush (2 + 12 * r) = (false, .go) := by
    rw [hr]
    decide +kernel
  have hindex : twoCells.index (r + 1) = twoCells.index 0 := by
    rw [hr]
    decide +kernel
  have hfires : (smallRing Bool).Fires sleepingPush (2 + 12 * r) false .pushFull := by
    rw [fires_pushFull_iff (by rw [hn]) (fun op => by rw [hn]; simp) hsleeps, ← hindex,
      hempty.next, hr]
    decide +kernel
  refine ⟨2 + 12 * r, ?_, hfires, hsleeps, hempty.head.trans hr, hempty.tail.trans hr, ?_⟩
  · rw [System.history_succ, System.emitted_of_fires _ hfires, pushed_append,
      List.length_append, hpushed, hr]
    simp [pushed]
  · rintro ⟨item, head, hpc, hhead⟩
    rw [hsleeps] at hpc
    cases hpc
    rw [hempty.head] at hhead
    omega

end Ring

end Lockless
