import Lockless.Ring

/-!
# The ticket discipline of the ring buffer

`Tickets` relates the sequence numbers, the two counters and the tickets
claimed but not yet published, in exact arithmetic and without items. It is
stated over arbitrary claim maps, and has one lemma per event that changes
it: claiming a ticket on either side and publishing it.

A thread that has read a sequence number but not yet exchanged a counter
holds values that may be stale. `Fresh` says what they are still good for:
a local counter never exceeds the shared one, and if they are still equal,
the sequence number the thread saw is still there.

The invariant `Inv` combines both with the number of pushes so far, and
holds as long as fewer than `2 ^ 63` pushes have claimed a ticket.
-/

namespace Lockless

namespace Ring

variable {ι T : Type*}

/-! ## Claimed tickets -/

/-- The ticket a producer has claimed and not yet published. -/
def PC.producing : PC T → Option ℕ
  | .push _ (.copy head) => some head
  | .push _ (.publish head) => some head
  | _ => none

/-- The ticket a consumer has claimed and not yet published. -/
def PC.consuming : PC T → Option ℕ
  | .pop (.move tail) => some tail
  | .pop (.publish tail _) => some tail
  | _ => none

structure Tickets (Z : PowSize) (seq : ℕ → ℕ) (head tail : ℕ)
    (prod cons : ι → Option ℕ) : Prop where
  tail_le : tail ≤ head
  head_le : head ≤ tail + Z.size
  prod_claim : ∀ {p t}, prod p = some t →
    tail ≤ t ∧ t < head ∧ seq (Z.index t) = t
  cons_claim : ∀ {p t}, cons p = some t →
    t < tail ∧ head ≤ t + Z.size ∧ seq (Z.index t) = t + 1
  prod_inj : Exclusive prod
  cons_inj : Exclusive cons
  stored : ∀ {t}, tail ≤ t → t < head →
    seq (Z.index t) = t + 1 ∨ ∃ p, prod p = some t
  vacant : ∀ {t}, head ≤ t → t < tail + Z.size →
    seq (Z.index t) = t ∨ ∃ p u, cons p = some u ∧ u + Z.size = t

namespace Tickets

variable {Z : PowSize} {seq : ℕ → ℕ} {head tail : ℕ} {prod cons : ι → Option ℕ}

/-- A slot showing the ticket `head_` has room for it. -/
theorem head_lt (h : Tickets Z seq head tail prod cons)
    (hseq : seq (Z.index head) = head) : head < tail + Z.size := by
  have h2 := Z.two_le_size
  rcases Nat.lt_or_eq_of_le h.head_le with hlt | heq
  · exact hlt
  · rw [heq, Z.index_add_size] at hseq
    rcases h.stored (Nat.le_refl tail) (by omega) with hs | ⟨p, hp⟩
    · omega
    · have := (h.prod_claim hp).2.2
      omega

/-- A slot showing `tail_ + 1` holds an item. -/
theorem tail_lt (h : Tickets Z seq head tail prod cons)
    (hseq : seq (Z.index tail) = tail + 1) : tail < head := by
  have h2 := Z.two_le_size
  rcases Nat.lt_or_eq_of_le h.tail_le with hlt | heq
  · exact hlt
  · rcases h.vacant (t := tail) (by omega) (by omega) with hs | ⟨p, u, hp, hu⟩
    · omega
    · have hcl := h.cons_claim hp
      rw [← hu, Z.index_add_size] at hseq
      omega

/-- Producers never share a slot. -/
theorem prod_index_ne (h : Tickets Z seq head tail prod cons) {p q : ι} {t u : ℕ}
    (hp : prod p = some t) (hq : prod q = some u) (hpq : p ≠ q) :
    Z.index t ≠ Z.index u := by
  intro hi
  have h1 := h.prod_claim hp
  have h2 := h.prod_claim hq
  have := h.head_le
  obtain rfl := Z.index_inj hi (by omega) (by omega)
  exact hpq (h.prod_inj hp hq)

/-- Consumers never share a slot. -/
theorem cons_index_ne (h : Tickets Z seq head tail prod cons) {p q : ι} {t u : ℕ}
    (hp : cons p = some t) (hq : cons q = some u) (hpq : p ≠ q) :
    Z.index t ≠ Z.index u := by
  intro hi
  have h1 := (h.cons_claim hp).2.2
  have h2 := (h.cons_claim hq).2.2
  rw [hi, h2] at h1
  obtain rfl : t = u := by omega
  exact hpq (h.cons_inj hp hq)

/-- A producer and a consumer never share a slot. -/
theorem prod_cons_index_ne (h : Tickets Z seq head tail prod cons) {p q : ι}
    {t u : ℕ} (hp : prod p = some t) (hq : cons q = some u) :
    Z.index t ≠ Z.index u := by
  intro hi
  have h1 := (h.prod_claim hp).2.2
  have h2 := (h.cons_claim hq).2.2
  rw [hi, h2] at h1
  rw [← h1] at hi
  exact Z.index_succ_ne u hi

/-! ### One lemma per event -/

theorem claimPush [DecidableEq ι] (h : Tickets Z seq head tail prod cons) {p : ι}
    (hp : prod p = none) (hseq : seq (Z.index head) = head) :
    Tickets Z seq (head + 1) tail (Function.update prod p (some head)) cons := by
  have h2 := Z.two_le_size
  have hlt := h.head_lt hseq
  have htl := h.tail_le
  refine ⟨by omega, by omega, ?_, ?_, ?_, h.cons_inj, ?_, ?_⟩
  · intro q t hq
    by_cases hqp : q = p
    · subst hqp
      rw [Function.update_self] at hq
      obtain rfl := Option.some.inj hq
      exact ⟨htl, by omega, hseq⟩
    · rw [Function.update_of_ne hqp] at hq
      have := h.prod_claim hq
      exact ⟨this.1, by omega, this.2.2⟩
  · intro q t hq
    obtain ⟨h1, h3, h4⟩ := h.cons_claim hq
    refine ⟨h1, ?_, h4⟩
    rcases Nat.lt_or_eq_of_le h3 with hlt' | heq
    · omega
    · rw [heq, Z.index_add_size] at hseq
      omega
  · refine h.prod_inj.claim fun q hq => ?_
    have := h.prod_claim hq
    omega
  · intro t h1 h3
    rcases Nat.lt_or_eq_of_le (Nat.le_of_lt_succ h3) with hlt' | rfl
    · refine (h.stored h1 hlt').imp_right fun ⟨q, hq⟩ => ⟨q, ?_⟩
      exact update_of_claimed (by rw [hp]; nofun) hq
    · exact Or.inr ⟨p, by simp⟩
  · intro t h1 h3
    exact h.vacant (by omega) h3

theorem publishPush [DecidableEq ι] (h : Tickets Z seq head tail prod cons) {p : ι} {t : ℕ}
    (hp : prod p = some t) :
    Tickets Z (Function.update seq (Z.index t) (t + 1)) head tail
      (Function.update prod p none) cons := by
  have hhl := h.head_le
  obtain ⟨ht1, ht2, ht3⟩ := h.prod_claim hp
  refine ⟨h.tail_le, hhl, ?_, ?_, h.prod_inj.release p, h.cons_inj, ?_, ?_⟩
  · intro q u hq
    obtain ⟨hqp, hq⟩ := update_none_eq_some hq
    rw [Function.update_of_ne (h.prod_index_ne hq hp hqp)]
    exact h.prod_claim hq
  · intro q u hq
    rw [Function.update_of_ne (h.prod_cons_index_ne hp hq).symm]
    exact h.cons_claim hq
  · intro u h1 h3
    by_cases hi : Z.index u = Z.index t
    · obtain rfl := Z.index_inj hi (by omega) (by omega)
      exact Or.inl (by simp)
    · rw [Function.update_of_ne hi]
      refine (h.stored h1 h3).imp_right fun ⟨q, hq⟩ => ⟨q, ?_⟩
      refine update_of_claimed (fun e => hi ?_) hq
      rw [Option.some.inj (hp.symm.trans e)]
  · intro u h1 h3
    have hi : Z.index u ≠ Z.index t := fun hi => by
      have := Z.index_inj hi (by omega) (by omega)
      omega
    rw [Function.update_of_ne hi]
    exact h.vacant h1 h3

theorem claimPop [DecidableEq ι] (h : Tickets Z seq head tail prod cons) {p : ι}
    (hp : cons p = none) (hseq : seq (Z.index tail) = tail + 1) :
    Tickets Z seq head (tail + 1) prod (Function.update cons p (some tail)) := by
  have hlt := h.tail_lt hseq
  have hhl := h.head_le
  refine ⟨by omega, by omega, ?_, ?_, h.prod_inj, ?_, ?_, ?_⟩
  · intro q t hq
    obtain ⟨h1, h3, h4⟩ := h.prod_claim hq
    refine ⟨?_, h3, h4⟩
    rcases Nat.lt_or_eq_of_le h1 with hlt' | rfl
    · exact hlt'
    · omega
  · intro q t hq
    by_cases hqp : q = p
    · subst hqp
      rw [Function.update_self] at hq
      obtain rfl := Option.some.inj hq
      exact ⟨by omega, hhl, hseq⟩
    · rw [Function.update_of_ne hqp] at hq
      have := h.cons_claim hq
      exact ⟨by omega, this.2⟩
  · refine h.cons_inj.claim fun q hq => ?_
    have := h.cons_claim hq
    omega
  · intro t h1 h3
    exact h.stored (by omega) h3
  · intro t h1 h3
    by_cases hlap : t < tail + Z.size
    · refine (h.vacant h1 hlap).imp_right fun ⟨q, u, hq, hu⟩ => ⟨q, u, ?_, hu⟩
      exact update_of_claimed (by rw [hp]; nofun) hq
    · exact Or.inr ⟨p, tail, by simp, by omega⟩

theorem publishPop [DecidableEq ι] (h : Tickets Z seq head tail prod cons) {p : ι} {t : ℕ}
    (hp : cons p = some t) :
    Tickets Z (Function.update seq (Z.index t) (t + Z.size)) head tail prod
      (Function.update cons p none) := by
  have hhl := h.head_le
  have htl := h.tail_le
  obtain ⟨ht1, ht2, ht3⟩ := h.cons_claim hp
  refine ⟨htl, hhl, ?_, ?_, h.prod_inj, h.cons_inj.release p, ?_, ?_⟩
  · intro q u hq
    rw [Function.update_of_ne (h.prod_cons_index_ne hq hp)]
    exact h.prod_claim hq
  · intro q u hq
    obtain ⟨hqp, hq⟩ := update_none_eq_some hq
    rw [Function.update_of_ne (h.cons_index_ne hq hp hqp)]
    exact h.cons_claim hq
  · intro u h1 h3
    have hi : Z.index u ≠ Z.index t := fun hi => by
      have := Z.index_inj hi (by omega) (by omega)
      omega
    rw [Function.update_of_ne hi]
    exact h.stored h1 h3
  · intro u h1 h3
    by_cases hi : Z.index u = Z.index t
    · rw [← Z.index_add_size t] at hi
      obtain rfl := Z.index_inj hi (by omega) (by omega)
      exact Or.inl (by simp)
    · rw [Function.update_of_ne hi]
      refine (h.vacant h1 h3).imp_right fun ⟨q, w, hq, hw⟩ => ⟨q, w, ?_, hw⟩
      refine update_of_claimed (fun e => hi ?_) hq
      rw [← hw, ← Option.some.inj (hp.symm.trans e), Z.index_add_size]

end Tickets

/-! ## Stale local values -/

/-- What the local counter of a thread says about the shared state. -/
def Fresh (Z : PowSize) (seq : ℕ → ℕ) (head tail : ℕ) : PC T → Prop
  | .push _ (.loadSeq h) => h ≤ head
  | .push _ (.cas h) => h ≤ head ∧ (h = head → seq (Z.index h) = h)
  | .pop (.loadSeq t) => t ≤ tail
  | .pop (.cas t) => t ≤ tail ∧ (t = tail → seq (Z.index t) = t + 1)
  | _ => True

section Fresh

variable {Z : PowSize} {seq : ℕ → ℕ} {head tail : ℕ} {prod cons : ι → Option ℕ}

theorem Fresh.claimPush {pc : PC T} (h : Fresh Z seq head tail pc) :
    Fresh Z seq (head + 1) tail pc := by
  rcases pc with _ | ⟨item, _ | h' | h' | _ | _⟩ | (_ | t | t | _ | _) <;>
    simp only [Fresh] at h ⊢ <;> first | exact h | omega

theorem Fresh.claimPop {pc : PC T} (h : Fresh Z seq head tail pc) :
    Fresh Z seq head (tail + 1) pc := by
  rcases pc with _ | ⟨item, _ | h' | h' | _ | _⟩ | (_ | t | t | _ | _) <;>
    simp only [Fresh] at h ⊢ <;> first | exact h | omega

/-- Writing a slot that shows neither `head_` as its own ticket nor
`tail_ + 1` spoils nobody's reading. -/
theorem Fresh.write {pc : PC T} (h : Fresh Z seq head tail pc) {i v : ℕ}
    (hhead : seq (Z.index head) = head → Z.index head ≠ i)
    (htail : seq (Z.index tail) = tail + 1 → Z.index tail ≠ i) :
    Fresh Z (Function.update seq i v) head tail pc := by
  rcases pc with _ | ⟨item, _ | h' | h' | _ | _⟩ | (_ | t | t | _ | _) <;>
    simp only [Fresh] at h ⊢ <;> try exact h
  · refine ⟨h.1, fun he => ?_⟩
    subst he
    rw [Function.update_of_ne (hhead (h.2 rfl))]
    exact h.2 rfl
  · refine ⟨h.1, fun he => ?_⟩
    subst he
    rw [Function.update_of_ne (htail (h.2 rfl))]
    exact h.2 rfl

theorem Fresh.publishPush {pc : PC T} (h : Fresh Z seq head tail pc)
    (ht : Tickets Z seq head tail prod cons) {p : ι} {t v : ℕ}
    (hp : prod p = some t) : Fresh Z (Function.update seq (Z.index t) v) head tail pc := by
  obtain ⟨h1, h2, h3⟩ := ht.prod_claim hp
  refine h.write (fun hseq hi => ?_) (fun hseq hi => ?_)
  · rw [hi, h3] at hseq
    omega
  · rw [hi, h3] at hseq
    rw [hseq] at hi
    exact Z.index_succ_ne tail hi.symm

theorem Fresh.publishPop {pc : PC T} (h : Fresh Z seq head tail pc)
    (ht : Tickets Z seq head tail prod cons) {p : ι} {t v : ℕ}
    (hp : cons p = some t) : Fresh Z (Function.update seq (Z.index t) v) head tail pc := by
  obtain ⟨h1, h2, h3⟩ := ht.cons_claim hp
  refine h.write (fun hseq hi => ?_) (fun hseq hi => ?_)
  · rw [hi, h3] at hseq
    rw [← hseq] at hi
    exact Z.index_succ_ne t hi
  · rw [hi, h3] at hseq
    omega

end Fresh

/-! ## The invariant -/

/-- The items of the pushes that claimed a ticket, in claiming order. -/
def pushed (H : List (ι × Event T)) : List T :=
  H.filterMap fun e => match e.2 with
    | .pushWin _ item => some item
    | _ => none

@[simp] theorem pushed_append (H K : List (ι × Event T)) :
    pushed (H ++ K) = pushed H ++ pushed K := by
  simp [pushed]

structure Inv (Z : PowSize) (c : Config ι (Mem T) (PC T))
    (H : List (ι × Event T)) : Prop where
  tickets : Tickets Z c.mem.sequences c.mem.head c.mem.tail
    (fun p => (c.pc p).producing) (fun p => (c.pc p).consuming)
  fresh : ∀ p, Fresh Z c.mem.sequences c.mem.head c.mem.tail (c.pc p)
  seq_lt : ∀ t, c.mem.sequences (Z.index t) < 2 ^ 64
  pushes : (pushed H).length = c.mem.head

section Invariant

variable {Z : PowSize} {moved : T → T} {c : Config ι (Mem T) (PC T)}
  {H : List (ι × Event T)}

/-- Writing a wrapped value keeps every sequence number a word. -/
theorem Inv.seq_write_lt (h : Inv Z c H) (i n t : ℕ) :
    Function.update c.mem.sequences i (wrap 64 n) (Z.index t) < 2 ^ 64 := by
  by_cases hi : Z.index t = i
  · rw [hi, Function.update_self]
    exact wrap_lt 64 n
  · rw [Function.update_of_ne hi]
    exact h.seq_lt t

variable [DecidableEq ι]

/-- Assembling the invariant after a step of thread `p`: its own part, and
that the step spoils no other thread's reading. -/
theorem Inv.update {p : ι} {m : Mem T} {pc : PC T} {K : List (ι × Event T)}
    (h : Inv Z c H)
    (ht : Tickets Z m.sequences m.head m.tail
      (Function.update (fun q => (c.pc q).producing) p pc.producing)
      (Function.update (fun q => (c.pc q).consuming) p pc.consuming))
    (hpc : Fresh Z m.sequences m.head m.tail pc)
    (hothers : ∀ q, Fresh Z c.mem.sequences c.mem.head c.mem.tail (c.pc q) →
      Fresh Z m.sequences m.head m.tail (c.pc q))
    (hlt : ∀ t, m.sequences (Z.index t) < 2 ^ 64)
    (hlen : (pushed (H ++ K)).length = m.head) :
    Inv Z ⟨m, Function.update c.pc p pc⟩ (H ++ K) where
  tickets := by simpa only [map_update] using ht
  fresh := (Function.forall_update_iff c.pc
    (fun _ pc => Fresh Z m.sequences m.head m.tail pc)).mpr
      ⟨hpc, fun q _ => hothers q (h.fresh q)⟩
  seq_lt := hlt
  pushes := hlen

/-- Steps that leave the counters and sequence numbers alone and claim
nothing. -/
theorem Inv.quiet {p : ι} {m : Mem T} {pc : PC T} {K : List (ι × Event T)}
    (h : Inv Z c H) (hseq : m.sequences = c.mem.sequences)
    (hhead : m.head = c.mem.head) (htail : m.tail = c.mem.tail)
    (hprod : pc.producing = (c.pc p).producing)
    (hcons : pc.consuming = (c.pc p).consuming)
    (hpc : Fresh Z c.mem.sequences c.mem.head c.mem.tail pc)
    (hK : pushed K = []) :
    Inv Z ⟨m, Function.update c.pc p pc⟩ (H ++ K) := by
  refine h.update ?_ ?_ ?_ ?_ ?_ <;> simp only [hseq, hhead, htail]
  · rw [hprod, hcons, Function.update_eq_self, Function.update_eq_self]
    exact h.tickets
  · exact hpc
  · exact fun _ hq => hq
  · exact h.seq_lt
  · simp [hK, h.pushes]

theorem Inv.step {p : ι} {m : Mem T} {pc : PC T} {ev : Option (Event T)}
    (h : Inv Z c H) (he : Effect Z moved c.mem (c.pc p) m pc ev)
    (hn : (pushed (H ++ (ev.map (Prod.mk p)).toList)).length < 2 ^ 63) :
    Inv Z ⟨m, Function.update c.pc p pc⟩ (H ++ (ev.map (Prod.mk p)).toList) := by
  have hfresh := h.fresh p
  have hsize := Z.size_le
  have htl := h.tickets.tail_le
  have hpu := h.pushes
  have hold : (pushed H).length < 2 ^ 63 := by
    rw [pushed_append, List.length_append] at hn
    omega
  generalize hpc : c.pc p = pc₀ at he hfresh
  cases he with
  | stay => exact h.quiet rfl rfl rfl (by rw [hpc]) (by rw [hpc]) hfresh rfl
  | start op =>
      cases op <;> exact h.quiet rfl rfl rfl (by rw [hpc]; rfl) (by rw [hpc]; rfl)
        trivial rfl
  | pushLoad item =>
      exact h.quiet rfl rfl rfl (by rw [hpc]; rfl) (by rw [hpc]; rfl)
        (Nat.le_refl _) rfl
  | pushReady item head hseq =>
      have hle : head ≤ c.mem.head := hfresh
      rw [signedDiff_eq_zero_iff (h.seq_lt head) (by omega)] at hseq
      exact h.quiet rfl rfl rfl (by rw [hpc]; rfl) (by rw [hpc]; rfl)
        ⟨hle, fun _ => hseq⟩ rfl
  | pushFull item head hseq =>
      exact h.quiet rfl rfl rfl (by rw [hpc]; rfl) (by rw [hpc]; rfl) trivial rfl
  | pushReload item head =>
      exact h.quiet rfl rfl rfl (by rw [hpc]; rfl) (by rw [hpc]; rfl) trivial rfl
  | pushWin item =>
      have hwrap : wrap 64 (c.mem.head + 1) = c.mem.head + 1 :=
        wrap_of_lt (by omega)
      refine h.update ?_ trivial ?_ h.seq_lt ?_ <;> simp only [hwrap]
      · have hcons : (PC.push item (.copy c.mem.head)).consuming
            = (c.pc p).consuming := by rw [hpc]; rfl
        rw [hcons, Function.update_eq_self]
        exact h.tickets.claimPush (by rw [hpc]; rfl) (hfresh.2 rfl)
      · exact fun q hq => hq.claimPush
      · simp [pushed, ← hpu]
  | pushLose item head =>
      exact h.quiet rfl rfl rfl (by rw [hpc]; rfl) (by rw [hpc]; rfl)
        (Nat.le_refl _) rfl
  | pushCopy item head =>
      exact h.quiet rfl rfl rfl (by rw [hpc]; rfl) (by rw [hpc]; rfl) trivial rfl
  | pushDone item head =>
      have hprod : (c.pc p).producing = some head := by rw [hpc]; rfl
      have hclaim := h.tickets.prod_claim hprod
      have hwrap : wrap 64 (head + 1) = head + 1 := wrap_of_lt (by omega)
      refine h.update ?_ trivial ?_ (h.seq_write_lt _ _) ?_ <;> simp only [hwrap]
      · have hcons : (PC.idle : PC T).consuming = (c.pc p).consuming := by
          rw [hpc]; rfl
        rw [hcons, Function.update_eq_self]
        exact h.tickets.publishPush hprod
      · exact fun q hq => hq.publishPush h.tickets hprod
      · simp [pushed, ← hpu]
  | popLoad =>
      exact h.quiet rfl rfl rfl (by rw [hpc]; rfl) (by rw [hpc]; rfl)
        (Nat.le_refl _) rfl
  | popReady tail hseq =>
      have hle : tail ≤ c.mem.tail := hfresh
      rw [wrap_of_lt (by omega : tail + 1 < 2 ^ 64),
        signedDiff_eq_zero_iff (h.seq_lt tail) (by omega)] at hseq
      exact h.quiet rfl rfl rfl (by rw [hpc]; rfl) (by rw [hpc]; rfl)
        ⟨hle, fun _ => hseq⟩ rfl
  | popEmpty tail hseq =>
      exact h.quiet rfl rfl rfl (by rw [hpc]; rfl) (by rw [hpc]; rfl) trivial rfl
  | popReload tail =>
      exact h.quiet rfl rfl rfl (by rw [hpc]; rfl) (by rw [hpc]; rfl) trivial rfl
  | popWin =>
      have hwrap : wrap 64 (c.mem.tail + 1) = c.mem.tail + 1 :=
        wrap_of_lt (by omega)
      refine h.update ?_ trivial ?_ h.seq_lt ?_ <;> simp only [hwrap]
      · have hprod : (PC.pop (.move c.mem.tail) : PC T).producing
            = (c.pc p).producing := by rw [hpc]; rfl
        rw [hprod, Function.update_eq_self]
        exact h.tickets.claimPop (by rw [hpc]; rfl) (hfresh.2 rfl)
      · exact fun q hq => hq.claimPop
      · simp [pushed, ← hpu]
  | popLose tail =>
      exact h.quiet rfl rfl rfl (by rw [hpc]; rfl) (by rw [hpc]; rfl)
        (Nat.le_refl _) rfl
  | popMove tail =>
      exact h.quiet rfl rfl rfl (by rw [hpc]; rfl) (by rw [hpc]; rfl) trivial rfl
  | popDone tail item =>
      have hcons : (c.pc p).consuming = some tail := by rw [hpc]; rfl
      have hclaim := h.tickets.cons_claim hcons
      have hwrap : wrap 64 (tail + Z.mask + 1) = tail + Z.size := by
        rw [Nat.add_assoc, Z.mask_add_one]
        exact wrap_of_lt (by omega)
      refine h.update ?_ trivial ?_ (h.seq_write_lt _ _) ?_ <;> simp only [hwrap]
      · have hprod : (PC.idle : PC T).producing = (c.pc p).producing := by
          rw [hpc]; rfl
        rw [hprod, Function.update_eq_self]
        exact h.tickets.publishPop hcons
      · exact fun q hq => hq.publishPop h.tickets hcons
      · simp [pushed, ← hpu]

omit [DecidableEq ι] in
theorem Inv.initial (buffer : ℕ → T) :
    Inv Z (⟨initMem buffer, fun _ => .idle⟩ : Config ι (Mem T) (PC T)) [] := by
  have h2 := Z.two_le_size
  refine ⟨⟨Nat.le_refl _, Nat.zero_le _, nofun, nofun, nofun, nofun, ?_, ?_⟩,
    fun _ => trivial, fun t => ?_, rfl⟩
  · intro t _ ht
    exact absurd ht (Nat.not_lt_zero t)
  · intro t _ ht
    have ht' : t < Z.size := by simpa [initMem] using ht
    exact Or.inl (by simp [initMem, Z.index_eq_mod, Nat.mod_eq_of_lt ht'])
  · have h1 := Z.index_lt t
    have h3 := Z.size_le
    simp only [initMem]
    omega

omit [DecidableEq ι] in
theorem pushed_length_le {H K : List (ι × Event T)} (h : H <+: K) :
    (pushed H).length ≤ (pushed K).length := by
  obtain ⟨L, rfl⟩ := h
  simp

/-- The invariant holds after every run with fewer than `2 ^ 63` pushes. -/
theorem inv_run {buffer : ℕ → T} {sched : ℕ → ι × Choice (Op T)} {n : ℕ}
    (hn : (pushed ((system Z moved ι buffer).history sched n)).length < 2 ^ 63) :
    Inv Z ((system Z moved ι buffer).run sched n)
      ((system Z moved ι buffer).history sched n) := by
  refine (system Z moved ι buffer).invariant_of_guard
    (G := fun c H a =>
      (pushed (H ++ (system Z moved ι buffer).emitted c a)).length < 2 ^ 63)
    (Inv.initial buffer) (fun c H a hg h => h.step (prog_effect _ _ _) hg) ?_
  intro i hi
  have hle := pushed_length_le
    ((system Z moved ι buffer).history_mono sched (Nat.succ_le_of_lt hi))
  rw [System.history_succ] at hle
  omega

end Invariant

/-! ## Slot exclusion -/

/-- The cell of `buffer_` a thread owns between its winning compare-exchange
and its sequence store. -/
def PC.accessing (Z : PowSize) : PC T → Option ℕ
  | .push _ (.copy head) => some (Z.index head)
  | .push _ (.publish head) => some (Z.index head)
  | .pop (.move tail) => some (Z.index tail)
  | .pop (.publish tail _) => some (Z.index tail)
  | _ => none

theorem PC.accessing_eq_some {Z : PowSize} {pc : PC T} {i : ℕ}
    (h : pc.accessing Z = some i) :
    (∃ t, pc.producing = some t ∧ Z.index t = i)
      ∨ ∃ t, pc.consuming = some t ∧ Z.index t = i := by
  rcases pc with _ | ⟨item, _ | _ | _ | t | t⟩ | (_ | _ | _ | t | ⟨t, x⟩) <;>
    simp_all [accessing, producing, consuming]

/-- In every run with fewer than `2 ^ 63` pushes the counters stay within one
lap of each other, and no two threads are inside the same cell. -/
theorem slot_exclusion [DecidableEq ι] (Z : PowSize) (moved : T → T)
    (buffer : ℕ → T) (sched : ℕ → ι × Choice (Op T)) (n : ℕ)
    (hn : (pushed ((system Z moved ι buffer).history sched n)).length < 2 ^ 63) :
    let c := (system Z moved ι buffer).run sched n
    c.mem.tail ≤ c.mem.head ∧ c.mem.head ≤ c.mem.tail + Z.size
      ∧ ∀ p q i, p ≠ q → (c.pc p).accessing Z = some i →
          (c.pc q).accessing Z ≠ some i := by
  intro c
  have h : Inv Z c _ := inv_run hn
  refine ⟨h.tickets.tail_le, h.tickets.head_le, ?_⟩
  intro p q i hpq hp hq
  rcases PC.accessing_eq_some hp with ⟨t, ht, hti⟩ | ⟨t, ht, hti⟩ <;>
    rcases PC.accessing_eq_some hq with ⟨u, hu, hui⟩ | ⟨u, hu, hui⟩
  · exact h.tickets.prod_index_ne ht hu hpq (hti.trans hui.symm)
  · exact h.tickets.prod_cons_index_ne ht hu (hti.trans hui.symm)
  · exact h.tickets.prod_cons_index_ne hu ht (hui.trans hti.symm)
  · exact h.tickets.cons_index_ne ht hu hpq (hti.trans hui.symm)

/-- Two producers stalled inside the two cells. -/
def stalledProducers : ℕ → Bool × Choice (Op ℕ) := fun i =>
  [(false, .call (.tryPush 7)), (false, .go), (true, .call (.tryPush 8)),
    (false, .go), (false, .go), (true, .go), (true, .go), (true, .go)].getD i
    (false, .call .tryPop)

theorem slot_exclusion_stalledProducers :
    let c := (system twoCells id Bool fun _ => 0).run stalledProducers 8
    ((c.pc false).accessing twoCells = some 0
        ∧ (c.pc true).accessing twoCells = some 1)
      ∧ c.mem.tail ≤ c.mem.head ∧ c.mem.head ≤ c.mem.tail + twoCells.size
      ∧ ∀ p q i, p ≠ q → (c.pc p).accessing twoCells = some i →
          (c.pc q).accessing twoCells ≠ some i :=
  ⟨by decide, slot_exclusion twoCells id (fun _ => 0) stalledProducers 8
    (by decide)⟩

end Ring

end Lockless
