import Lockless.RingBatch
import Lockless.RingFifo

/-!
# The ring buffer at rest

While calls are in flight the ring buffer is described by its tickets; with no
other thread about it is a list of items. Here the two meet: once no call is in
flight, what the ring holds is the list of the items of the tickets from `tail_`
up to `head_`, in that order. The items of the pushes that have returned true are
those of the tickets below `head_`, the items delivered are those of the tickets
below `tail_`, so that the items pushed are the items delivered and the items in
the ring, each once.

So a program may run its producers and consumers in any interleaving, join them,
and go on with a single thread: from there on the four public functions behave as
those of a bounded queue that starts with the undelivered items, oldest first.
-/

namespace Lockless

namespace Ring

variable {ι T : Type*}

/-! ## What has been returned -/

/-- The ticket of a push that returns true. -/
def Event.asPushDone : Event T → Option ℕ
  | .pushDone ticket => some ticket
  | _ => none

/-- The ticket and the item of a pop that returns true. -/
def Event.asPopDone : Event T → Option (ℕ × T)
  | .popDone ticket item => some (ticket, item)
  | _ => none

/-- The tickets of the pushes that have returned true. -/
def published (H : List (ι × Event T)) : List ℕ := H.filterMap fun e => e.2.asPushDone

/-- The tickets and the items of the pops that have returned true. -/
def delivered (H : List (ι × Event T)) : List (ℕ × T) := H.filterMap fun e => e.2.asPopDone

theorem Event.of_asPushDone {e : Event T} {t : ℕ} (h : e.asPushDone = some t) :
    e = .pushDone t := by
  cases e with
  | pushDone u => rw [Option.some.inj h]
  | _ => cases h

theorem Event.of_asPopDone {e : Event T} {t : ℕ} {x : T} (h : e.asPopDone = some (t, x)) :
    e = .popDone t x := by
  cases e with
  | popDone u y =>
      obtain ⟨rfl, rfl⟩ := Prod.mk.inj (Option.some.inj h)
      rfl
  | _ => cases h

theorem mem_published {H : List (ι × Event T)} {t : ℕ} :
    t ∈ published H ↔ ∃ p, (p, Event.pushDone t) ∈ H := by
  simp only [published, List.mem_filterMap]
  constructor
  · rintro ⟨⟨p, e⟩, hm, he⟩
    obtain rfl : e = .pushDone t := Event.of_asPushDone he
    exact ⟨p, hm⟩
  · rintro ⟨p, hp⟩
    exact ⟨_, hp, rfl⟩

theorem mem_delivered {H : List (ι × Event T)} {t : ℕ} {x : T} :
    (t, x) ∈ delivered H ↔ ∃ q, (q, Event.popDone t x) ∈ H := by
  simp only [delivered, List.mem_filterMap]
  constructor
  · rintro ⟨⟨q, e⟩, hm, he⟩
    obtain rfl : e = .popDone t x := Event.of_asPopDone he
    exact ⟨q, hm⟩
  · rintro ⟨q, hq⟩
    exact ⟨_, hq, rfl⟩

/-! ## Producers on their way -/

/-- The item a producer has a ticket for, with the ticket. -/
def PC.publishing : PC T → Option (ℕ × T)
  | .push item (.copy head) => some (head, item)
  | .push item (.publish head) => some (head, item)
  | _ => none

/-- A producer with a ticket is the one that pushed the item of the ticket, and a ticket
without a producer has been published. -/
structure Pushes (c : Config ι (Mem T) (PC T)) (H : List (ι × Event T)) : Prop where
  item : ∀ {p t x}, (c.pc p).publishing = some (t, x) → (pushed H)[t]? = some x
  done : ∀ {t}, t < (pushed H).length →
    (∃ p, (c.pc p).producing = some t) ∨ t ∈ published H

section Step

variable {Z : PowSize} {moved : T → T} {c : Config ι (Mem T) (PC T)} {H : List (ι × Event T)}
  {p : ι} {m : Mem T} {pc : PC T} {ev : Option (Event T)}

/-- What a step does to the ticket of a producer. -/
theorem Effect.producing (he : Effect Z moved c.mem (c.pc p) m pc ev) :
    (∃ x, ev = some (.pushWin c.mem.head x) ∧ (c.pc p).producing = none
        ∧ pc.publishing = some (c.mem.head, x) ∧ pc.producing = some c.mem.head)
      ∨ (∃ t, ev = some (.pushDone t) ∧ (c.pc p).producing = some t
        ∧ pc.publishing = none)
      ∨ (pushed (ev.map (Prod.mk p)).toList = [] ∧ pc.producing = (c.pc p).producing
        ∧ pc.publishing = (c.pc p).publishing) := by
  generalize c.pc p = pc₀ at he
  cases he with
  | pushWin item => exact Or.inl ⟨item, rfl, rfl, rfl, rfl⟩
  | pushDone item head => exact Or.inr (Or.inl ⟨head, rfl, rfl, rfl⟩)
  | start op => cases op <;> exact Or.inr (Or.inr ⟨rfl, rfl, rfl⟩)
  | _ => exact Or.inr (Or.inr ⟨rfl, rfl, rfl⟩)

theorem published_mono {K : List (ι × Event T)} {t : ℕ} (h : t ∈ published H) :
    t ∈ published (H ++ K) := by
  obtain ⟨p, hp⟩ := mem_published.mp h
  exact mem_published.mpr ⟨p, List.mem_append_left _ hp⟩

theorem pushed_mono {K : List (ι × Event T)} {t : ℕ} {x : T} (h : (pushed H)[t]? = some x) :
    (pushed (H ++ K))[t]? = some x := by
  rw [pushed_append, List.getElem?_append_left (List.getElem?_eq_some_iff.mp h).1, h]

theorem Pushes.step [DecidableEq ι] (h : Pushes c H) (hlen : (pushed H).length = c.mem.head)
    (he : Effect Z moved c.mem (c.pc p) m pc ev) :
    Pushes ⟨m, Function.update c.pc p pc⟩ (H ++ (ev.map (Prod.mk p)).toList) := by
  have hother : ∀ {q t x}, q ≠ p → (Function.update c.pc p pc q).publishing = some (t, x) →
      (pushed (H ++ (ev.map (Prod.mk p)).toList))[t]? = some x := by
    intro q t x hqp hq
    rw [Function.update_of_ne hqp] at hq
    exact pushed_mono (h.item hq)
  rcases he.producing with ⟨x, rfl, hnone, hpub, hprod⟩ | ⟨t, rfl, hprod, hpub⟩ |
    ⟨hpushed, hprod, hpub⟩
  · have hpushed : pushed (H ++ ((some (Event.pushWin c.mem.head x)).map (Prod.mk p)).toList)
        = pushed H ++ [x] := pushed_append _ _
    refine ⟨fun {q t y} hq => ?_, fun {t} ht => ?_⟩
    · by_cases hqp : q = p
      · subst hqp
        simp only [Function.update_self, hpub] at hq
        obtain ⟨rfl, rfl⟩ := Prod.mk.inj (Option.some.inj hq)
        rw [hpushed, ← hlen, List.getElem?_concat_length]
      · exact hother hqp hq
    · rw [hpushed, List.length_append, List.length_singleton] at ht
      rcases Nat.lt_or_eq_of_le (Nat.le_of_lt_succ ht) with hlt | rfl
      · refine (h.done hlt).imp (fun ⟨q, hq⟩ => ⟨q, ?_⟩) published_mono
        have hqp : q ≠ p := by
          rintro rfl
          rw [hnone] at hq
          cases hq
        show (Function.update c.pc p pc q).producing = some t
        rwa [Function.update_of_ne hqp]
      · refine Or.inl ⟨p, ?_⟩
        show (Function.update c.pc p pc p).producing = some (pushed H).length
        rw [Function.update_self, hprod, hlen]
  · have hpushed : pushed (H ++ ((some (Event.pushDone t : Event T)).map (Prod.mk p)).toList)
        = pushed H := by
      rw [pushed_append]
      exact List.append_nil _
    refine ⟨fun {q u y} hq => ?_, fun {u} hu => ?_⟩
    · by_cases hqp : q = p
      · subst hqp
        simp only [Function.update_self, hpub] at hq
        cases hq
      · exact hother hqp hq
    · rw [hpushed] at hu
      rcases h.done hu with ⟨q, hq⟩ | hdone
      · by_cases hqp : q = p
        · subst hqp
          obtain rfl := Option.some.inj (hprod.symm.trans hq)
          exact Or.inr (mem_published.mpr ⟨q, by simp⟩)
        · exact Or.inl ⟨q, by simpa only [Function.update_of_ne hqp] using hq⟩
      · exact Or.inr (published_mono hdone)
  · refine ⟨fun {q t y} hq => ?_, fun {t} ht => ?_⟩
    · by_cases hqp : q = p
      · subst hqp
        simp only [Function.update_self, hpub] at hq
        exact pushed_mono (h.item hq)
      · exact hother hqp hq
    · rw [pushed_append, hpushed, List.append_nil] at ht
      refine (h.done ht).imp (fun ⟨q, hq⟩ => ⟨q, ?_⟩) published_mono
      show (Function.update c.pc p pc q).producing = some t
      by_cases hqp : q = p
      · subst hqp
        rwa [Function.update_self, hprod]
      · rwa [Function.update_of_ne hqp]

end Step

/-! ## Runs -/

/-- Increasing tickets pick items in their order. -/
theorem filterMap_getElem?_sublist {L : List T} {ts : List ℕ} {k : ℕ}
    (hlt : ts.Pairwise (· < ·)) (hk : ∀ t ∈ ts, t < k) :
    (ts.filterMap (L[·]?)).Sublist (L.take k) := by
  have hsub : ts.Sublist (List.range k) :=
    List.sublist_of_subperm_of_pairwise
      (List.subperm_of_subset (hlt.imp Nat.ne_of_lt) fun t ht => List.mem_range.mpr (hk t ht))
      hlt List.pairwise_lt_range
  rw [← filterMap_getElem?_range]
  exact hsub.filterMap _

section Run

variable [DecidableEq ι] {Z : PowSize} {moved : T → T} {buffer : ℕ → T}
  {sched : ℕ → ι × Choice (Op T)} {n : ℕ}

theorem pushes_run
    (hn : (pushed ((system Z moved ι buffer).history sched n)).length < 2 ^ 63) :
    Pushes ((system Z moved ι buffer).run sched n)
      ((system Z moved ι buffer).history sched n) := by
  induction n with
  | zero => exact ⟨(fun hp => by cases hp), fun ht => absurd ht (Nat.not_lt_zero _)⟩
  | succ n ih =>
      have hlt := pushes_lt (Nat.le_succ n) hn
      exact (ih hlt).step (inv_run hlt).pushes (prog_effect _ _ _)

/-- A ticket is published at most once. -/
theorem pushDone_unique {k k' : ℕ} {p p' : ι} {t : ℕ}
    (hn : (pushed ((system Z moved ι buffer).history sched n)).length < 2 ^ 63)
    (hk : k < n) (hk' : k' < n)
    (h : (system Z moved ι buffer).Fires sched k p (.pushDone t))
    (h' : (system Z moved ι buffer).Fires sched k' p' (.pushDone t)) : k = k' := by
  obtain ⟨i, x, hi, hfi, hquiet⟩ := pushDone_origin hn hk h
  obtain ⟨i', x', hi', hfi', hquiet'⟩ := pushDone_origin hn hk' h'
  obtain rfl := pushWin_unique hn (by omega) (by omega) hfi hfi'
  obtain rfl : p = p' := hfi.1.symm.trans hfi'.1
  rcases Nat.lt_trichotomy k k' with hlt | heq | hgt
  · exact absurd h (hquiet' k (by omega) hlt _)
  · exact heq
  · exact absurd h' (hquiet k' (by omega) hgt _)

theorem nodup_published
    (hn : (pushed ((system Z moved ι buffer).history sched n)).length < 2 ^ 63) :
    (published ((system Z moved ι buffer).history sched n)).Nodup := by
  refine System.pairwise_filterMap_history _
    fun i j p q e e' t u hij hj hf hf' he he' htu => hij.ne ?_
  obtain rfl := htu
  obtain rfl : e = .pushDone t := Event.of_asPushDone he
  obtain rfl : e' = .pushDone t := Event.of_asPushDone he'
  exact pushDone_unique hn (by omega) hj hf hf'

theorem nodup_delivered
    (hn : (pushed ((system Z moved ι buffer).history sched n)).length < 2 ^ 63) :
    (delivered ((system Z moved ι buffer).history sched n)).Nodup := by
  refine System.pairwise_filterMap_history _
    fun i j p q e e' ⟨t, x⟩ b hij hj hf hf' he he' htu => hij.ne ?_
  obtain rfl := htu
  obtain rfl : e = .popDone t x := Event.of_asPopDone he
  obtain rfl : e' = .popDone t x := Event.of_asPopDone he'
  exact popDone_unique hn (by omega) hj hf hf'

/-- The calls of one producer return in the order of their tickets. -/
theorem published_lt (p : ι)
    (hn : (pushed ((system Z moved ι buffer).history sched n)).length < 2 ^ 63) :
    (published (ofThread p ((system Z moved ι buffer).history sched n))).Pairwise (· < ·) := by
  refine System.pairwise_filterMap_ofThread _ p fun k k' e e' t u hkk hk' hf hf' he he' => ?_
  obtain rfl : e = .pushDone t := Event.of_asPushDone he
  obtain rfl : e' = .pushDone u := Event.of_asPushDone he'
  obtain ⟨i, x, hi, hfi, -⟩ := pushDone_origin hn (by omega) hf
  obtain ⟨i', x', hi', hfi', hquiet'⟩ := pushDone_origin hn hk' hf'
  -- the first call has returned before the second one takes its ticket
  have hki : k < i' := by
    rcases Nat.lt_trichotomy k i' with hlt | rfl | hgt
    · exact hlt
    · cases hf.2.symm.trans hfi'.2
    · exact absurd hf (hquiet' k hgt hkk _)
  exact pushWin_lt hn hfi hfi' (by omega) (by omega)

/-- The calls of one consumer return in the order of their tickets. -/
theorem delivered_lt (q : ι)
    (hn : (pushed ((system Z moved ι buffer).history sched n)).length < 2 ^ 63) :
    (delivered (ofThread q ((system Z moved ι buffer).history sched n))).Pairwise
      fun a b => a.1 < b.1 := by
  refine System.pairwise_filterMap_ofThread _ q
    fun k k' e e' ⟨t, x⟩ ⟨u, y⟩ hkk hk' hf hf' he he' => ?_
  obtain rfl : e = .popDone t x := Event.of_asPopDone he
  obtain rfl : e' = .popDone u y := Event.of_asPopDone he'
  obtain ⟨j, hj, hfj, -⟩ := popDone_origin hn (by omega) hf
  obtain ⟨j', hj', hfj', hquiet', -⟩ := popDone_origin hn hk' hf'
  have hkj : k < j' := by
    rcases Nat.lt_trichotomy k j' with hlt | rfl | hgt
    · exact hlt
    · cases hf.2.symm.trans hfj'.2
    · exact absurd hf (hquiet' k hgt hkk _)
  exact popWin_lt hn hfj hfj' (by omega) (by omega)

/-- A delivery is that of a ticket below `tail_`, with the item pushed with it. -/
theorem of_mem_delivered
    (hn : (pushed ((system Z moved ι buffer).history sched n)).length < 2 ^ 63) {t : ℕ} {x : T}
    (h : (t, x) ∈ delivered ((system Z moved ι buffer).history sched n)) :
    t < ((system Z moved ι buffer).run sched n).mem.tail
      ∧ (pushed ((system Z moved ι buffer).history sched n))[t]? = some x := by
  obtain ⟨q, hq⟩ := mem_delivered.mp h
  obtain ⟨k, hk, hfk⟩ := (System.mem_history _).mp hq
  obtain ⟨j, hj, hfj, -, i, p, hi, hfi⟩ := popDone_origin hn hk hfk
  have hmem : t ∈ taken ((system Z moved ι buffer).history sched n) :=
    mem_taken.mpr ⟨q, (System.mem_history _).mpr ⟨j, by omega, hfj⟩⟩
  rw [(fifo_run hn).2.taken_eq, List.mem_range] at hmem
  exact ⟨hmem, pushed_of_pushWin hn (by omega) hfi⟩

/-- A published ticket has been claimed. -/
theorem lt_of_mem_published {t : ℕ}
    (hn : (pushed ((system Z moved ι buffer).history sched n)).length < 2 ^ 63)
    (h : t ∈ published ((system Z moved ι buffer).history sched n)) :
    t < (pushed ((system Z moved ι buffer).history sched n)).length := by
  obtain ⟨p, hp⟩ := mem_published.mp h
  obtain ⟨k, hk, hfk⟩ := (System.mem_history _).mp hp
  obtain ⟨i, x, hi, hfi, -⟩ := pushDone_origin hn hk hfk
  exact (List.getElem?_eq_some_iff.mp (pushed_of_pushWin hn (by omega) hfi)).1

/-- The items of a producer that have been accepted come in the order of their tickets. -/
theorem published_sublist (p : ι)
    (hn : (pushed ((system Z moved ι buffer).history sched n)).length < 2 ^ 63) :
    ((published (ofThread p ((system Z moved ι buffer).history sched n))).filterMap
      ((pushed ((system Z moved ι buffer).history sched n))[·]?)).Sublist
        (pushed ((system Z moved ι buffer).history sched n)) := by
  have hsub := filterMap_getElem?_sublist
    (L := pushed ((system Z moved ι buffer).history sched n)) (published_lt p hn)
    fun t ht => lt_of_mem_published hn ((List.filter_sublist.filterMap _).subset ht)
  rwa [List.take_length] at hsub

theorem items_of_delivered {D : List (ℕ × T)}
    (hn : (pushed ((system Z moved ι buffer).history sched n)).length < 2 ^ 63)
    (hD : D ⊆ delivered ((system Z moved ι buffer).history sched n)) :
    (D.map Prod.fst).filterMap ((pushed ((system Z moved ι buffer).history sched n))[·]?)
      = D.map Prod.snd := by
  rw [List.filterMap_map, ← List.filterMap_eq_map]
  exact List.filterMap_congr fun a ha => (of_mem_delivered hn (hD ha)).2

/-- The items a consumer has been given come in the order of their tickets. -/
theorem delivered_sublist (q : ι)
    (hn : (pushed ((system Z moved ι buffer).history sched n)).length < 2 ^ 63) :
    ((delivered (ofThread q ((system Z moved ι buffer).history sched n))).map Prod.snd).Sublist
      ((pushed ((system Z moved ι buffer).history sched n)).take
        ((system Z moved ι buffer).run sched n).mem.tail) := by
  have hsub : delivered (ofThread q ((system Z moved ι buffer).history sched n))
      ⊆ delivered ((system Z moved ι buffer).history sched n) :=
    (List.filter_sublist.filterMap _).subset
  rw [← items_of_delivered hn hsub]
  refine filterMap_getElem?_sublist (List.pairwise_map.mpr (delivered_lt q hn)) fun t ht => ?_
  obtain ⟨a, ha, rfl⟩ := List.mem_map.mp ht
  exact (of_mem_delivered hn (hsub ha)).1

section Idle

variable (hn : (pushed ((system Z moved ι buffer).history sched n)).length < 2 ^ 63)
  (hidle : ∀ p, ((system Z moved ι buffer).run sched n).pc p = .idle)
include hn hidle

/-- Every ticket below `head_` has been published, and exactly those. -/
theorem published_perm :
    (published ((system Z moved ι buffer).history sched n)).Perm
      (List.range (pushed ((system Z moved ι buffer).history sched n)).length) := by
  rw [List.perm_ext_iff_of_nodup (nodup_published hn) List.nodup_range]
  intro t
  rw [List.mem_range]
  constructor
  · exact lt_of_mem_published hn
  · intro ht
    rcases (pushes_run hn).done ht with ⟨p, hp⟩ | hdone
    · rw [hidle p] at hp
      cases hp
    · exact hdone

/-- Every ticket below `tail_` has been delivered, and exactly those. -/
theorem tickets_delivered_perm :
    ((delivered ((system Z moved ι buffer).history sched n)).map Prod.fst).Perm
      (List.range ((system Z moved ι buffer).run sched n).mem.tail) := by
  have hinj : ∀ a ∈ delivered ((system Z moved ι buffer).history sched n),
      ∀ b ∈ delivered ((system Z moved ι buffer).history sched n), a.1 = b.1 → a = b := by
    rintro ⟨t, x⟩ ha ⟨u, y⟩ hb hab
    obtain rfl : t = u := hab
    have hx := (of_mem_delivered hn ha).2.symm.trans (of_mem_delivered hn hb).2
    rw [Option.some.inj hx]
  rw [List.perm_ext_iff_of_nodup ((nodup_delivered hn).map_on hinj) List.nodup_range]
  intro t
  rw [List.mem_map, List.mem_range]
  constructor
  · rintro ⟨⟨u, x⟩, hmem, rfl⟩
    exact (of_mem_delivered hn hmem).1
  · intro ht
    obtain ⟨j, q, hj, hfj⟩ := exists_popWin hn ht
    rcases (fifo_run hn).2.delivered ((System.mem_history _).mpr ⟨j, hj, hfj⟩) with hc | ⟨y, hy⟩
    · rw [hidle q] at hc
      cases hc
    · exact ⟨(t, y), mem_delivered.mpr ⟨q, hy⟩, rfl⟩

/-- The items delivered are those of the tickets below `tail_`. -/
theorem delivered_perm :
    ((delivered ((system Z moved ι buffer).history sched n)).map Prod.snd).Perm
      ((pushed ((system Z moved ι buffer).history sched n)).take
        ((system Z moved ι buffer).run sched n).mem.tail) := by
  rw [← items_of_delivered hn (List.Subset.refl _), ← filterMap_getElem?_range]
  exact (tickets_delivered_perm hn hidle).filterMap _

/-- The ring holds the items of the tickets from `tail_` up to `head_`. -/
theorem stored_of_idle :
    Stored Z ((system Z moved ι buffer).run sched n).mem
      ((system Z moved ι buffer).run sched n).mem.tail
      ((pushed ((system Z moved ι buffer).history sched n)).drop
        ((system Z moved ι buffer).run sched n).mem.tail) := by
  have hinv := inv_run hn
  have hlen := hinv.pushes
  have htl := hinv.tickets.tail_le
  have hhl := hinv.tickets.head_le
  have hsize := Z.size_le
  have hprod : ∀ q, (((system Z moved ι buffer).run sched n).pc q).producing = none :=
    fun q => by rw [hidle q]; rfl
  have hcons : ∀ q, (((system Z moved ι buffer).run sched n).pc q).consuming = none :=
    fun q => by rw [hidle q]; rfl
  refine ⟨?_, ?_, ?_, fun {j x} hj => ?_, fun {j} hle hj => ?_⟩
  · rw [wrap_of_lt (by omega)]
  · rw [List.length_drop, wrap_of_lt (by omega)]
    omega
  · rw [List.length_drop]
    omega
  · rw [List.getElem?_drop] at hj
    have hjlt := (List.getElem?_eq_some_iff.mp hj).1
    refine ⟨?_, ?_⟩
    · rw [wrap_of_lt (by omega)]
      rcases hinv.tickets.stored (Nat.le_add_right _ j) (by omega) with hs | ⟨q, hq⟩
      · exact hs
      · simp only [hprod q] at hq
        cases hq
    · rcases (fifo_run hn).1.cell (Nat.le_add_right _ j) hj with hb | ⟨q, hq⟩
      · exact hb
      · simp only [hidle q] at hq
        cases hq
  · rw [List.length_drop] at hle
    rw [wrap_of_lt (by omega)]
    rcases hinv.tickets.vacant (t := ((system Z moved ι buffer).run sched n).mem.tail + j)
      (by omega) (by omega) with hs | ⟨q, u, hq, -⟩
    · exact hs
    · simp only [hcons q] at hq
      cases hq

theorem length_delivered :
    (delivered ((system Z moved ι buffer).history sched n)).length
      = ((system Z moved ι buffer).run sched n).mem.tail := by
  rw [← List.length_map Prod.fst, (tickets_delivered_perm hn hidle).length_eq,
    List.length_range]

/-- The items pushed are those delivered and those of the ring. -/
theorem pushed_perm :
    (pushed ((system Z moved ι buffer).history sched n)).Perm
      ((delivered ((system Z moved ι buffer).history sched n)).map Prod.snd
        ++ (pushed ((system Z moved ι buffer).history sched n)).drop
          (delivered ((system Z moved ι buffer).history sched n)).length) := by
  rw [length_delivered hn hidle]
  have hperm := (delivered_perm hn hidle).append_right
    ((pushed ((system Z moved ι buffer).history sched n)).drop
      ((system Z moved ι buffer).run sched n).mem.tail)
  rw [List.take_append_drop] at hperm
  exact hperm.symm

end Idle

end Run

/-- From a ring that holds the items `q` on, calls made one after another answer as those of
a queue that holds them, and every call returns. -/
theorem Stored.answers {Z : PowSize} {moved : T → T} {m₀ m : Mem T} {b : ℕ} {q : List T}
    {L : List (Call (Mem T) (Batch.Op T) (Batch.Result T))} (h : Stored Z m₀ b q)
    (hlog : CallLog (Ends (Batch.prog Z moved) .idle) Batch.start m₀ m L) :
    L.map (·.events) = (Lockless.answers (Batch.fifo Z.size) q (L.map (·.op))).map (fun r => [r])
      ∧ ∀ op, Returns (Batch.prog Z moved) .idle m (Batch.start op) := by
  obtain ⟨⟨b', hstored⟩, hevents⟩ := hlog.refines (Batch.fifo Z.size)
    (fun m q => ∃ b, Stored Z m b q) id (fun r => [r])
    (fun ⟨_, h⟩ hrun =>
      ⟨⟨_, (Batch.answers_of_ends h hrun).1⟩, (Batch.answers_of_ends h hrun).2⟩)
    ⟨b, h⟩
  exact ⟨hevents, Batch.returns moved hstored⟩

/-- **The queue after any interleaving.** In every run with fewer than `2 ^ 63` pushes at the
end of which no call is in flight, with `q` the items pushed, in the order of their tickets,
without as many of the first as have been delivered:

1. every ticket taken by a push has been returned true for, once;
2. the items pushed are the items delivered and those of `q`, each as often;
3. from there on, calls made one after another by one thread answer as those of a queue of
   capacity `Size` that holds `q`, and every call returns. -/
theorem fifo_at_rest [DecidableEq ι] (Z : PowSize) (moved : T → T) (buffer : ℕ → T)
    (sched : ℕ → ι × Choice (Op T)) (n : ℕ)
    (hn : (pushed ((system Z moved ι buffer).history sched n)).length < 2 ^ 63)
    (hidle : ∀ p, ((system Z moved ι buffer).run sched n).pc p = .idle) :
    let c := (system Z moved ι buffer).run sched n
    let H := (system Z moved ι buffer).history sched n
    let q := (pushed H).drop (delivered H).length
    (published H).Perm (List.range (pushed H).length)
      ∧ (pushed H).Perm ((delivered H).map Prod.snd ++ q)
      ∧ ∀ m L, CallLog (Ends (Batch.prog Z moved) .idle) Batch.start c.mem m L →
        L.map (·.events)
            = (answers (Batch.fifo Z.size) q (L.map (·.op))).map (fun r => [r])
          ∧ ∀ op, Returns (Batch.prog Z moved) .idle m (Batch.start op) := by
  intro c H q
  refine ⟨published_perm hn hidle, pushed_perm hn hidle, fun m L hlog => ?_⟩
  have hstored : Stored Z c.mem c.mem.tail q := by
    simp only [q, H, length_delivered hn hidle]
    exact stored_of_idle hn hidle
  exact hstored.answers hlog

/-- After two threads have pushed two items and popped one, a single thread pops the
other and then none. -/
theorem fifo_at_rest_pushPushPop :
    ∃ m L, CallLog (Ends (Batch.prog twoCells id) .idle) Batch.start
        ((system twoCells id Bool fun _ => (0 : ℕ)).run pushPushPop 20).mem m L
      ∧ L.map (·.op) = [.tryPop, .tryPopBatch 2, .tryPush 9]
      ∧ L.map (·.events) = [[.popped (some 8)], [.poppedBatch []], [.pushed true]] := by
  have h := (fifo_at_rest twoCells id (fun _ => (0 : ℕ)) pushPushPop 20
    (by decide +kernel) (by decide +kernel)).2.2
  obtain ⟨m, L, hlog, hops⟩ := exists_callLog (fun m L hlog op => ((h m L hlog).2 op).ends)
    [.tryPop, .tryPopBatch 2, .tryPush 9]
  refine ⟨m, L, hlog, hops, ?_⟩
  have hitems : (pushed ((system twoCells id Bool fun _ => (0 : ℕ)).history pushPushPop 20)).drop
      (delivered ((system twoCells id Bool fun _ => (0 : ℕ)).history pushPushPop 20)).length
        = [8] := by decide +kernel
  rw [(h m L hlog).1, hops, hitems]
  rfl

end Ring

end Lockless
