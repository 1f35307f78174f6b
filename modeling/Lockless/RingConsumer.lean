import Lockless.RingQuiet
import Lockless.RingRefusals

/-!
# A single consumer

With several consumers a ticket can be delivered before one that was claimed earlier.
With a single one it cannot: the consumer holds the only claimed ticket there is, the next
one in turn, so the items come out exactly in the order of their tickets, whatever the
producers do. And what it is refused for is always the same ticket: the ring is empty, or
the push that has this ticket has not returned.
-/

namespace Lockless

namespace Ring

variable {ι T : Type*}

/-- No thread but `p` calls `try_pop`. -/
def SingleConsumer [DecidableEq ι] (S : System ι (Mem T) (PC T) (Choice (Op T)) (Event T))
    (p : ι) (sched : ℕ → ι × Choice (Op T)) : Prop :=
  ∀ i q, S.Calls .idle sched i q .tryPop → q = p

/-- The thread is inside a `try_pop`. -/
def PC.Popping : PC T → Prop
  | .pop _ => True
  | _ => False

/-- A thread starts to pop only in a call of `try_pop`. -/
theorem popping_prog {Z : AdmittedSize} {moved : T → T} {m : Mem T} {pc : PC T}
    {ch : Choice (Op T)} (h : (prog Z moved m pc ch).pc.Popping) :
    pc.Popping ∨ (ch = .call .tryPop ∧ pc = .idle) := by
  have he : Effect Z moved m pc _ _ _ := prog_effect m pc ch
  cases pc with
  | idle =>
      cases ch with
      | call op =>
          cases op with
          | tryPush item => exact h.elim
          | tryPop => exact Or.inr ⟨rfl, rfl⟩
      | go | fault => exact h.elim
  | push item pc =>
      generalize prog Z moved m (.push item pc) ch = o at he h
      obtain ⟨m', pc', ev⟩ := o
      dsimp only at he h
      cases he <;> exact h.elim
  | pop pc => exact Or.inl trivial

/-- The consumer `p` has taken the tickets in turn. -/
structure Consumed (p : ι) (c : Config ι (Mem T) (PC T)) (H : List (ι × Event T)) : Prop where
  tickets : (delivered H).map Prod.fst = List.range (delivered H).length
  tail : c.mem.tail = (delivered H).length + (c.pc p).consuming.toList.length
  ticket : ∀ {t}, (c.pc p).consuming = some t → t = (delivered H).length

section Step

variable [DecidableEq ι] {Z : PowSize} {moved : T → T} {c : Config ι (Mem T) (PC T)}
  {H : List (ι × Event T)} {p q : ι} {m : Mem T} {pc : PC T} {ev : Option (Event T)}

theorem Consumed.quiet (h : Consumed p c H) (htail : m.tail = c.mem.tail)
    (hcons : (Function.update c.pc q pc p).consuming = (c.pc p).consuming)
    (hev : ∀ e ∈ ev, e.asPopDone = none) :
    Consumed p ⟨m, Function.update c.pc q pc⟩ (H ++ (ev.map (Prod.mk q)).toList) := by
  have hsame : delivered (H ++ (ev.map (Prod.mk q)).toList) = delivered H := by
    cases ev with
    | none => rw [Option.map_none, Option.toList_none, List.append_nil]
    | some e =>
        have he : delivered [(q, e)] = [] := by simp [delivered, hev e rfl]
        show (H ++ [(q, e)]).filterMap _ = _
        rw [List.filterMap_append]
        exact (congrArg _ he).trans (List.append_nil _)
  refine ⟨?_, ?_, fun {t} ht => ?_⟩
  · rw [hsame]
    exact h.tickets
  · rw [hsame]
    show m.tail = _
    rw [hcons, htail]
    exact h.tail
  · rw [hsame]
    exact h.ticket (hcons.symm.trans ht)

/-- The steps of the other threads, which are no consumers. -/
theorem Consumed.step_of_ne (h : Consumed p c H) (hqp : q ≠ p) (hpop : ¬ (c.pc q).Popping)
    (he : Effect Z moved c.mem (c.pc q) m pc ev) :
    Consumed p ⟨m, Function.update c.pc q pc⟩ (H ++ (ev.map (Prod.mk q)).toList) := by
  have hcons : (Function.update c.pc q pc p).consuming = (c.pc p).consuming := by
    rw [Function.update_of_ne hqp.symm]
  generalize c.pc q = pc₀ at he hpop
  cases he with
  | popLoad | popReady | popEmpty | popReload | popWin | popLose | popMove | popDone =>
      exact absurd trivial hpop
  | pushFull | pushWin | pushDone =>
      refine h.quiet rfl hcons ?_
      rintro e ⟨⟩
      rfl
  | _ => exact h.quiet rfl hcons fun e he => by cases he

theorem Consumed.step (h : Consumed p c H) (hlt : c.mem.tail + 1 < 2 ^ 64)
    (he : Effect Z moved c.mem (c.pc p) m pc ev) :
    Consumed p ⟨m, Function.update c.pc p pc⟩ (H ++ (ev.map (Prod.mk p)).toList) := by
  have htail := h.tail
  have hticket := @h.ticket
  have hself : Function.update c.pc p pc p = pc := Function.update_self _ _ _
  generalize hpc : c.pc p = pc₀ at he htail hticket
  cases he with
  | popWin =>
      have htail : c.mem.tail = (delivered H).length := htail
      have hsame : delivered (H ++ [(p, Event.popWin c.mem.tail)]) = delivered H := by
        simp [delivered, Event.asPopDone]
      refine ⟨?_, ?_, fun {t} ht => ?_⟩
      · rw [Option.map_some, Option.toList_some, hsame]
        exact h.tickets
      · rw [Option.map_some, Option.toList_some, hsame]
        show wrap 64 (c.mem.tail + 1) = _ + (Function.update c.pc p _ p).consuming.toList.length
        rw [hself, wrap_of_lt hlt, htail]
        rfl
      · rw [Option.map_some, Option.toList_some, hsame, ← htail]
        exact (Option.some.inj ((congrArg PC.consuming hself).symm.trans ht)).symm
  | popDone tail item =>
      obtain rfl : tail = _ := hticket rfl
      have hadd : delivered (H ++ [(p, Event.popDone (delivered H).length item)])
          = delivered H ++ [((delivered H).length, item)] := by
        simp [delivered, Event.asPopDone]
      refine ⟨?_, ?_, fun {t} ht => ?_⟩
      · rw [Option.map_some, Option.toList_some, hadd, List.map_append, h.tickets,
          List.length_append, List.length_singleton, List.range_succ]
        rfl
      · rw [Option.map_some, Option.toList_some, hadd, List.length_append]
        show c.mem.tail = _ + (Function.update c.pc p _ p).consuming.toList.length
        rw [hself]
        exact htail
      · cases (congrArg PC.consuming hself).symm.trans ht
  | pushFull | pushWin | pushDone | popEmpty =>
      refine h.quiet rfl (by rw [hself, hpc]; rfl) ?_
      rintro e ⟨⟩
      rfl
  | start op =>
      refine h.quiet rfl ?_ fun e he => by cases he
      rw [hself, hpc]
      cases op <;> rfl
  | stay => exact h.quiet rfl (by rw [hself, hpc]) fun e he => by cases he
  | _ => exact h.quiet rfl (by rw [hself, hpc]; rfl) fun e he => by cases he

end Step

section Run

variable [DecidableEq ι] {Z : PowSize} {moved : T → T} {buffer : ℕ → T}
  {sched : ℕ → ι × Choice (Op T)} {p : ι}

theorem not_popping_of_ne {Z : AdmittedSize}
    (hone : SingleConsumer (system Z moved ι buffer) p sched) (n : ℕ) {q : ι} (hq : q ≠ p) :
    ¬ (((system Z moved ι buffer).run sched n).pc q).Popping := by
  induction n with
  | zero => exact id
  | succ n ih =>
      rw [System.run_succ]
      by_cases hqn : q = (sched n).1
      · subst hqn
        rw [System.next_pc_self]
        intro h
        rcases popping_prog h with hold | ⟨hch, hidle⟩
        · exact ih hold
        · exact hq (hone n _ ⟨Prod.ext rfl hch, hidle⟩)
      · rw [System.next_pc_ne _ _ hqn]
        exact ih

theorem consumed_run (hone : SingleConsumer (system Z moved ι buffer) p sched) {n : ℕ}
    (hn : (pushed ((system Z moved ι buffer).history sched n)).length < 2 ^ 63) :
    Consumed p ((system Z moved ι buffer).run sched n)
      ((system Z moved ι buffer).history sched n) := by
  induction n with
  | zero => exact ⟨rfl, rfl, fun ht => by cases ht⟩
  | succ n ih =>
      have hlt := pushes_lt (Nat.le_succ n) hn
      have hinv := inv_run hlt
      have htl := hinv.tickets.tail_le
      have hpushes := hinv.pushes
      have he : Effect Z.toAdmittedSize moved _ _ _ _ _ := prog_effect
        ((system Z moved ι buffer).run sched n).mem
        (((system Z moved ι buffer).run sched n).pc (sched n).1) (sched n).2
      by_cases hp : (sched n).1 = p
      · subst hp
        exact (ih hlt).step (by omega) he
      · exact (ih hlt).step_of_ne hp (not_popping_of_ne hone n hp) he

/-- The items come out in the order of their tickets. -/
theorem delivered_eq_take (hone : SingleConsumer (system Z moved ι buffer) p sched) {n : ℕ}
    (hn : (pushed ((system Z moved ι buffer).history sched n)).length < 2 ^ 63) :
    (delivered ((system Z moved ι buffer).history sched n)).map Prod.snd
      = (pushed ((system Z moved ι buffer).history sched n)).take
        (delivered ((system Z moved ι buffer).history sched n)).length := by
  rw [← items_of_delivered hn (List.Subset.refl _), (consumed_run hone hn).tickets,
    filterMap_getElem?_range]

end Run

/-- **First in, first out, with a single consumer.** In every run with fewer than `2 ^ 63`
pushes in which only thread `p` calls `try_pop`, with `A` the items pushed, in the order of
their tickets:

1. the items delivered so far, in the order of delivery, are the first of `A`;
2. those that a producer has returned true for come in the order of `A`;
3. a `try_pop` returns false only if at its last sequence load all of `A` has been
   delivered, or the push of the next item has not returned. -/
theorem single_consumer_fifo [DecidableEq ι] (Z : PowSize) (moved : T → T) (buffer : ℕ → T)
    (sched : ℕ → ι × Choice (Op T)) (n : ℕ) (p : ι)
    (hone : SingleConsumer (system Z moved ι buffer) p sched)
    (hn : (pushed ((system Z moved ι buffer).history sched n)).length < 2 ^ 63) :
    let S := system Z moved ι buffer
    let A := pushed (S.history sched n)
    (delivered (S.history sched n)).map Prod.snd = A.take (delivered (S.history sched n)).length
      ∧ (∀ q, ((published (ofThread q (S.history sched n))).filterMap (A[·]?)).Sublist A)
      ∧ ∀ j, j < n → S.Fires sched j p .popEmpty →
        (delivered (S.history sched j)).length = (pushed (S.history sched j)).length
          ∨ ∃ q, ((S.run sched j).pc q).producing
            = some (delivered (S.history sched j)).length := by
  intro S A
  refine ⟨delivered_eq_take hone hn, fun q => published_sublist q hn, fun j hj hf => ?_⟩
  have hlt := pushes_lt (Nat.le_of_lt hj) hn
  have hinv := inv_run hlt
  obtain ⟨tail, hpc, hseq⟩ := (S.effect_of_fires prog_effect hf).of_popEmpty
  obtain ⟨htail, hempty⟩ := (hinv.popEmpty_iff (hinv.pushes ▸ hlt) hpc).mp hseq
  have hlength := (consumed_run hone hlt).tail
  rw [hpc, htail] at hlength
  obtain rfl : tail = (delivered (S.history sched j)).length := hlength
  rcases hempty with hhead | hproducing
  · exact Or.inl (hhead.symm.trans hinv.pushes.symm)
  · exact Or.inr hproducing

/-- A producer stalls with the first ticket and another one returns with the second. The
consumer is refused, and pops the first item once it has been published. -/
def stalledTicketSteps : List (ℕ × Choice (Op ℕ)) :=
  [(1, .call (.tryPush 7)), (1, .go), (1, .go), (1, .go), (2, .call (.tryPush 8)), (2, .go),
    (2, .go), (2, .go), (2, .go), (2, .go), (0, .call .tryPop), (0, .go), (0, .go), (1, .go),
    (1, .go), (0, .call .tryPop), (0, .go), (0, .go), (0, .go), (0, .go), (0, .go)]

def stalledTicket : ℕ → ℕ × Choice (Op ℕ) := fun i => stalledTicketSteps.getD i (0, .go)

theorem singleConsumer_stalledTicket : SingleConsumer (smallRing ℕ) 0 stalledTicket := by
  rintro i q ⟨h, -⟩
  have hsteps : ∀ a ∈ stalledTicketSteps, a.2 = .call .tryPop → a.1 = 0 := by decide
  have hthread : (stalledTicket i).2 = .call .tryPop → (stalledTicket i).1 = 0 :=
    of_getD hsteps (fun _ => rfl) i
  rw [h] at hthread
  exact hthread rfl

theorem single_consumer_fifo_stalledTicket :
    published ((smallRing ℕ).history stalledTicket 12) = [1]
      ∧ (smallRing ℕ).Fires stalledTicket 12 0 .popEmpty
      ∧ (∃ q, (((smallRing ℕ).run stalledTicket 12).pc q).producing = some 0)
      ∧ (delivered ((smallRing ℕ).history stalledTicket 21)).map Prod.snd = [7] := by
  have hpushed : pushed ((smallRing ℕ).history stalledTicket 21) = [7, 8] := by decide +kernel
  have hdelivered : (delivered ((smallRing ℕ).history stalledTicket 21)).length = 1 := by
    decide +kernel
  have hlt : (pushed ((smallRing ℕ).history stalledTicket 21)).length < 2 ^ 63 := by
    rw [hpushed]
    decide
  have hf : (smallRing ℕ).Fires stalledTicket 12 0 .popEmpty := by decide +kernel
  obtain ⟨hfirst, -, hrefused⟩ := single_consumer_fifo twoCells id (fun _ => 0) stalledTicket 21 0
    singleConsumer_stalledTicket hlt
  refine ⟨by decide +kernel, hf, ?_, ?_⟩
  · have hnone : (delivered ((smallRing ℕ).history stalledTicket 12)).length = 0 := by
      decide +kernel
    rcases hrefused 12 (by decide) hf with hall | hnext
    · exact absurd hall (by decide +kernel)
    · exact hnone ▸ hnext
  · exact hfirst.trans (by rw [show (delivered _).length = 1 from hdelivered, hpushed]; rfl)

end Ring

end Lockless
