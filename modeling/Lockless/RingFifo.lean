import Lockless.RingTickets

/-!
# Delivery by ticket

The ring buffer hands the item of ticket `t` to the consumer that claims
ticket `t`, and to nobody else. Two invariants carry this, on top of the
ticket discipline:

- `Cells` follows the items. With `L` the items in claiming order, cell
  `t mod Size` holds `L[t]` from the producer's copy to the consumer's move,
  and the threads in between carry `L[t]` themselves.
- `Log` ties the claims to the events: a thread inside a cell has the claim
  as its latest event, tickets are taken in the order `0, 1, 2, ...`, and a
  claimed ticket is delivered or still in the hands of its consumer.

`delivery_by_ticket` reads the results off both.
-/

namespace Lockless

namespace Ring

variable {ι T : Type*}

/-! ## Items on their way -/

/-- The item a producer is about to copy, with its ticket. -/
def PC.copying : PC T → Option (ℕ × T)
  | .push item (.copy head) => some (head, item)
  | _ => none

/-- The ticket whose item a consumer is about to move out. -/
def PC.moving : PC T → Option ℕ
  | .pop (.move tail) => some tail
  | _ => none

/-- The item a consumer has moved out, with its ticket. -/
def PC.carrying : PC T → Option (ℕ × T)
  | .pop (.publish tail item) => some (tail, item)
  | _ => none

theorem PC.producing_of_copying {pc : PC T} {t : ℕ} {x : T}
    (h : pc.copying = some (t, x)) : pc.producing = some t := by
  rcases pc with _ | ⟨item, _ | _ | _ | u | u⟩ | _ <;>
    simp_all [copying, producing]

theorem PC.consuming_of_moving {pc : PC T} {t : ℕ} (h : pc.moving = some t) :
    pc.consuming = some t := by
  rcases pc with _ | _ | (_ | _ | _ | u | ⟨u, x⟩) <;>
    simp_all [moving, consuming]

structure Cells (Z : PowSize) (buf : ℕ → T) (tail : ℕ) (L : List T)
    (copying : ι → Option (ℕ × T)) (moving : ι → Option ℕ)
    (carrying : ι → Option (ℕ × T)) : Prop where
  cell : ∀ {t x}, tail ≤ t → L[t]? = some x →
    buf (Z.index t) = x ∨ ∃ p, copying p = some (t, x)
  copy : ∀ {p t x}, copying p = some (t, x) → L[t]? = some x
  move : ∀ {p t}, moving p = some t → L[t]? = some (buf (Z.index t))
  carry : ∀ {p t x}, carrying p = some (t, x) → L[t]? = some x

namespace Cells

variable [DecidableEq ι] {Z : PowSize} {buf : ℕ → T} {tail : ℕ} {L : List T}
  {copying : ι → Option (ℕ × T)} {moving : ι → Option ℕ}
  {carrying : ι → Option (ℕ × T)}

theorem claimPush (h : Cells Z buf tail L copying moving carrying) {p : ι} (x : T)
    (hp : copying p = none) :
    Cells Z buf tail (L ++ [x]) (Function.update copying p (some (L.length, x)))
      moving carrying := by
  have hmono : ∀ {t : ℕ} {y : T}, L[t]? = some y → (L ++ [x])[t]? = some y := by
    intro t y ht
    rw [List.getElem?_append_left (List.getElem?_eq_some_iff.mp ht).1, ht]
  refine ⟨?_, ?_, fun hq => hmono (h.move hq), fun hq => hmono (h.carry hq)⟩
  · intro t y htail ht
    rcases Nat.lt_or_ge t L.length with hlt | hge
    · rw [List.getElem?_append_left hlt] at ht
      refine (h.cell htail ht).imp_right fun ⟨q, hq⟩ => ⟨q, ?_⟩
      exact update_of_claimed (by rw [hp]; nofun) hq
    · have hlen := (List.getElem?_eq_some_iff.mp ht).1
      rw [List.length_append, List.length_singleton] at hlen
      obtain rfl : t = L.length := by omega
      rw [List.getElem?_concat_length] at ht
      exact Or.inr ⟨p, by rw [Function.update_self, Option.some.inj ht]⟩
  · intro q t y hq
    by_cases hqp : q = p
    · rw [hqp, Function.update_self] at hq
      obtain ⟨rfl, rfl⟩ := Prod.mk.inj (Option.some.inj hq)
      exact List.getElem?_concat_length
    · rw [Function.update_of_ne hqp] at hq
      exact hmono (h.copy hq)

/-- The copy lands in a cell no other undelivered item and no consumer
uses. -/
theorem copied (h : Cells Z buf tail L copying moving carrying) {p : ι} {t : ℕ}
    {x : T} (hp : copying p = some (t, x))
    (hcell : ∀ u, tail ≤ u → u < L.length → Z.index u = Z.index t → u = t)
    (hmove : ∀ q u, moving q = some u → Z.index u ≠ Z.index t) :
    Cells Z (Function.update buf (Z.index t) x) tail L
      (Function.update copying p none) moving carrying := by
  refine ⟨?_, fun hq => h.copy (update_none_eq_some hq).2, ?_, h.carry⟩
  · intro u y htail hu
    by_cases hi : Z.index u = Z.index t
    · obtain rfl := hcell u htail (List.getElem?_eq_some_iff.mp hu).1 hi
      refine Or.inl ?_
      rw [Function.update_self]
      exact Option.some.inj ((h.copy hp).symm.trans hu)
    · rw [Function.update_of_ne hi]
      refine (h.cell htail hu).imp_right fun ⟨q, hq⟩ => ⟨q, ?_⟩
      refine update_of_claimed (fun e => hi ?_) hq
      rw [(Prod.mk.inj (Option.some.inj (hp.symm.trans e))).1]
  · intro q u hq
    rw [Function.update_of_ne (hmove q u hq)]
    exact h.move hq

/-- A consumer claims a ticket whose item lies in its cell. -/
theorem claimPop (h : Cells Z buf tail L copying moving carrying) {p : ι}
    (hlt : tail < L.length) (hcopied : ∀ q x, copying q ≠ some (tail, x)) :
    Cells Z buf (tail + 1) L copying (Function.update moving p (some tail))
      carrying := by
  refine ⟨fun ht hx => h.cell (by omega) hx, h.copy, ?_, h.carry⟩
  intro q t hq
  by_cases hqp : q = p
  · rw [hqp, Function.update_self] at hq
    obtain rfl := Option.some.inj hq
    have hx := List.getElem?_eq_getElem hlt
    rcases h.cell (Nat.le_refl tail) hx with hb | ⟨r, hr⟩
    · rw [hb]
      exact hx
    · exact absurd hr (hcopied r _)
  · rw [Function.update_of_ne hqp] at hq
    exact h.move hq

/-- The consumer takes the item along, and leaves a cell nobody else reads. -/
theorem movedOut (h : Cells Z buf tail L copying moving carrying) {p : ι} {t : ℕ}
    (v : T) (hp : moving p = some t)
    (hcell : ∀ u, tail ≤ u → u < L.length → Z.index u ≠ Z.index t)
    (hmove : ∀ q u, q ≠ p → moving q = some u → Z.index u ≠ Z.index t) :
    Cells Z (Function.update buf (Z.index t) v) tail L copying
      (Function.update moving p none)
      (Function.update carrying p (some (t, buf (Z.index t)))) := by
  refine ⟨?_, h.copy, ?_, ?_⟩
  · intro u y htail hu
    rw [Function.update_of_ne
      (hcell u htail (List.getElem?_eq_some_iff.mp hu).1)]
    exact h.cell htail hu
  · intro q u hq
    obtain ⟨hqp, hq⟩ := update_none_eq_some hq
    rw [Function.update_of_ne (hmove q u hqp hq)]
    exact h.move hq
  · intro q u y hq
    by_cases hqp : q = p
    · rw [hqp, Function.update_self] at hq
      obtain ⟨rfl, rfl⟩ := Prod.mk.inj (Option.some.inj hq)
      exact h.move hp
    · rw [Function.update_of_ne hqp] at hq
      exact h.carry hq

theorem returned (h : Cells Z buf tail L copying moving carrying) (p : ι) :
    Cells Z buf tail L copying moving (Function.update carrying p none) :=
  ⟨h.cell, h.copy, h.move, fun hq => h.carry (update_none_eq_some hq).2⟩

end Cells

/-- `Cells` at a configuration and its history. -/
abbrev CellsAt (Z : PowSize) (c : Config ι (Mem T) (PC T))
    (H : List (ι × Event T)) : Prop :=
  Cells Z c.mem.buffer c.mem.tail (pushed H) (fun p => (c.pc p).copying)
    (fun p => (c.pc p).moving) (fun p => (c.pc p).carrying)

section CellsStep

variable [DecidableEq ι] {Z : PowSize} {moved : T → T}
  {c : Config ι (Mem T) (PC T)} {H : List (ι × Event T)}

theorem CellsAt.quiet {p : ι} {m : Mem T} {pc : PC T} {K : List (ι × Event T)}
    (h : CellsAt Z c H) (hbuf : m.buffer = c.mem.buffer)
    (htail : m.tail = c.mem.tail) (hcopy : pc.copying = (c.pc p).copying)
    (hmove : pc.moving = (c.pc p).moving)
    (hcarry : pc.carrying = (c.pc p).carrying) (hK : pushed K = []) :
    CellsAt Z ⟨m, Function.update c.pc p pc⟩ (H ++ K) := by
  simp only [CellsAt, map_update, hbuf, htail, hcopy, hmove, hcarry,
    Function.update_eq_self, pushed_append, hK, List.append_nil]
  exact h

theorem CellsAt.step {p : ι} {m : Mem T} {pc : PC T} {ev : Option (Event T)}
    (h : CellsAt Z c H) (hinv : Inv Z c H)
    (hn : (pushed H).length < 2 ^ 63)
    (he : Effect Z moved c.mem (c.pc p) m pc ev) :
    CellsAt Z ⟨m, Function.update c.pc p pc⟩ (H ++ (ev.map (Prod.mk p)).toList) := by
  have hlen := hinv.pushes
  have hfresh := hinv.fresh p
  have htick := hinv.tickets
  have hhl := htick.head_le
  have htl := htick.tail_le
  generalize hpc : c.pc p = pc₀ at he hfresh
  cases he with
  | stay => exact h.quiet rfl rfl (by rw [hpc]) (by rw [hpc]) (by rw [hpc]) rfl
  | start op =>
      cases op <;> exact h.quiet rfl rfl (by rw [hpc]; rfl) (by rw [hpc]; rfl)
        (by rw [hpc]; rfl) rfl
  | pushLoad | pushReady | pushFull | pushReload | pushLose | pushDone
  | popLoad | popReady | popEmpty | popReload | popLose =>
      exact h.quiet rfl rfl (by rw [hpc]; rfl) (by rw [hpc]; rfl)
        (by rw [hpc]; rfl) rfl
  | pushWin item =>
      have hmove : (PC.push item (.copy c.mem.head)).moving = (c.pc p).moving := by
        rw [hpc]; rfl
      have hcarry : (PC.push item (.copy c.mem.head)).carrying
          = (c.pc p).carrying := by rw [hpc]; rfl
      simp only [CellsAt, map_update, hmove, hcarry, Function.update_eq_self,
        pushed_append]
      rw [show (PC.push item (.copy c.mem.head)).copying
        = some ((pushed H).length, item) by rw [hlen]; rfl]
      exact h.claimPush item (by rw [hpc]; rfl)
  | pushCopy item head =>
      have hcopy : (c.pc p).copying = some (head, item) := by rw [hpc]; rfl
      have hprod := PC.producing_of_copying hcopy
      have hclaim := htick.prod_claim hprod
      have hmove : (PC.push item (.publish head)).moving = (c.pc p).moving := by
        rw [hpc]; rfl
      have hcarry : (PC.push item (.publish head)).carrying
          = (c.pc p).carrying := by rw [hpc]; rfl
      simp only [CellsAt, map_update, hmove, hcarry, Function.update_eq_self,
        Option.map_none, Option.toList_none, List.append_nil]
      refine h.copied hcopy (fun u h1 h2 hi => ?_) fun q u hq => ?_
      · exact Z.index_inj hi (by omega) (by omega)
      · exact (htick.prod_cons_index_ne hprod (PC.consuming_of_moving hq)).symm
  | popWin =>
      have hcopy : (PC.pop (.move c.mem.tail) : PC T).copying
          = (c.pc p).copying := by rw [hpc]; rfl
      have hcarry : (PC.pop (.move c.mem.tail) : PC T).carrying
          = (c.pc p).carrying := by rw [hpc]; rfl
      have hseq := hfresh.2 rfl
      have hlt := htick.tail_lt hseq
      have hwrap : wrap 64 (c.mem.tail + 1) = c.mem.tail + 1 :=
        wrap_of_lt (by omega)
      simp only [CellsAt, map_update, hcopy, hcarry, Function.update_eq_self,
        hwrap, pushed_append]
      rw [show pushed ((some (Event.popWin c.mem.tail : Event T)).map
        (Prod.mk p)).toList = [] from rfl, List.append_nil]
      refine h.claimPop (by omega) fun q x hq => ?_
      have := (htick.prod_claim (PC.producing_of_copying hq)).2.2
      omega
  | popMove tail =>
      have hmove : (c.pc p).moving = some tail := by rw [hpc]; rfl
      have hcons := PC.consuming_of_moving hmove
      have hclaim := htick.cons_claim hcons
      have hcopy : (PC.pop (.publish tail (c.mem.buffer (Z.index tail)))).copying
          = (c.pc p).copying := by rw [hpc]; rfl
      simp only [CellsAt, map_update, hcopy, Function.update_eq_self,
        Option.map_none, Option.toList_none, List.append_nil]
      refine h.movedOut _ hmove (fun u h1 h2 hi => ?_) fun q u hqp hq => ?_
      · have := Z.index_inj hi (by omega) (by omega)
        omega
      · exact htick.cons_index_ne (PC.consuming_of_moving hq) hcons hqp
  | popDone tail item =>
      have hcopy : (PC.idle : PC T).copying = (c.pc p).copying := by rw [hpc]; rfl
      have hmove : (PC.idle : PC T).moving = (c.pc p).moving := by rw [hpc]; rfl
      simp only [CellsAt, map_update, hcopy, hmove, Function.update_eq_self,
        pushed_append]
      rw [show pushed ((some (Event.popDone tail item)).map (Prod.mk p)).toList
        = [] from rfl, List.append_nil]
      exact h.returned p

end CellsStep

/-! ## Claims in the history -/

/-- The tickets claimed by consumers, in claiming order. -/
def taken (H : List (ι × Event T)) : List ℕ :=
  H.filterMap fun e => match e.2 with
    | .popWin ticket => some ticket
    | _ => none

@[simp] theorem taken_append (H K : List (ι × Event T)) :
    taken (H ++ K) = taken H ++ taken K := by
  simp [taken]

theorem mem_taken {H : List (ι × Event T)} {t : ℕ} :
    t ∈ taken H ↔ ∃ q, (q, Event.popWin t) ∈ H := by
  simp only [taken, List.mem_filterMap]
  constructor
  · rintro ⟨⟨q, e⟩, hm, he⟩
    cases e with
    | popWin u => exact ⟨q, by rwa [Option.some.inj he] at hm⟩
    | _ => cases he
  · rintro ⟨q, hq⟩
    exact ⟨_, hq, rfl⟩

structure Log (c : Config ι (Mem T) (PC T))
    (H : List (ι × Event T)) : Prop where
  prodLast : ∀ {p t}, (c.pc p).producing = some t →
    ∃ x H₁, Latest (fun _ => True) p (.pushWin t x) H₁ H
  consLast : ∀ {p t}, (c.pc p).consuming = some t →
    ∃ H₁, Latest (fun _ => True) p (.popWin t) H₁ H
  origin : ∀ {t x}, (pushed H)[t]? = some x → ∃ p, (p, Event.pushWin t x) ∈ H
  taken_eq : taken H = List.range c.mem.tail
  delivered : ∀ {q t}, (q, Event.popWin t) ∈ H →
    (c.pc q).consuming = some t ∨ ∃ y, (q, Event.popDone t y) ∈ H

section LogStep

variable [DecidableEq ι] {Z : PowSize} {moved : T → T}
  {c : Config ι (Mem T) (PC T)} {H : List (ι × Event T)}

theorem Log.silent {p : ι} {m : Mem T} {pc : PC T} (h : Log c H)
    (htail : m.tail = c.mem.tail) (hprod : pc.producing = (c.pc p).producing)
    (hcons : pc.consuming = (c.pc p).consuming) :
    Log ⟨m, Function.update c.pc p pc⟩ (H ++ []) := by
  have hprod' : ∀ q, (Function.update c.pc p pc q).producing
      = (c.pc q).producing := fun q => by
    by_cases hqp : q = p
    · rw [hqp, Function.update_self, hprod]
    · rw [Function.update_of_ne hqp]
  have hcons' : ∀ q, (Function.update c.pc p pc q).consuming
      = (c.pc q).consuming := fun q => by
    by_cases hqp : q = p
    · rw [hqp, Function.update_self, hcons]
    · rw [Function.update_of_ne hqp]
  rw [List.append_nil]
  refine ⟨fun hq => h.prodLast ?_, fun hq => h.consLast ?_, h.origin, ?_, ?_⟩
  · rwa [← hprod']
  · rwa [← hcons']
  · simp only [htail, h.taken_eq]
  · intro q t hq
    simp only [hcons']
    exact h.delivered hq

/-- A step with an event: what has to be shown of the thread that moved. -/
theorem Log.event {p : ι} {m : Mem T} {pc : PC T} {e : Event T} (h : Log c H)
    (hprod : ∀ t, pc.producing = some t → ∃ x, e = .pushWin t x)
    (hcons : ∀ t, pc.consuming = some t → e = .popWin t)
    (horigin : ∀ t x, (pushed (H ++ [(p, e)]))[t]? = some x →
      (pushed H)[t]? = some x ∨ e = .pushWin t x)
    (htaken : taken (H ++ [(p, e)]) = List.range m.tail)
    (hclaim : ∀ t, (p, Event.popWin t) ∈ H → (c.pc p).consuming = some t →
      ∃ y, e = .popDone t y)
    (hwin : ∀ t, e = .popWin t → pc.consuming = some t) :
    Log ⟨m, Function.update c.pc p pc⟩ (H ++ [(p, e)]) := by
  refine ⟨?_, ?_, ?_, htaken, ?_⟩
  · intro q t hq
    by_cases hqp : q = p
    · subst hqp
      simp only [Function.update_self] at hq
      obtain ⟨x, rfl⟩ := hprod t hq
      exact ⟨x, H, Latest.self _ q _ H⟩
    · simp only [Function.update_of_ne hqp] at hq
      obtain ⟨x, H₁, hl⟩ := h.prodLast hq
      exact ⟨x, H₁, hl.append_ne hqp (some e)⟩
  · intro q t hq
    by_cases hqp : q = p
    · subst hqp
      simp only [Function.update_self] at hq
      rw [hcons t hq]
      exact ⟨H, Latest.self _ q _ H⟩
    · simp only [Function.update_of_ne hqp] at hq
      obtain ⟨H₁, hl⟩ := h.consLast hq
      exact ⟨H₁, hl.append_ne hqp (some e)⟩
  · intro t x ht
    rcases horigin t x ht with hold | rfl
    · obtain ⟨q, hq⟩ := h.origin hold
      exact ⟨q, List.mem_append_left _ hq⟩
    · exact ⟨p, List.mem_append_right _ (List.mem_singleton_self _)⟩
  · intro q t hq
    rcases List.mem_append.mp hq with hold | hnew
    · rcases h.delivered hold with hc | ⟨y, hy⟩
      · by_cases hqp : q = p
        · subst hqp
          obtain ⟨y, rfl⟩ := hclaim t hold hc
          exact Or.inr ⟨y, by simp⟩
        · exact Or.inl (by simpa only [Function.update_of_ne hqp] using hc)
      · exact Or.inr ⟨y, List.mem_append_left _ hy⟩
    · obtain ⟨rfl, rfl⟩ := Prod.mk.inj (List.mem_singleton.mp hnew)
      exact Or.inl (by simpa using hwin t rfl)

/-- A step that answers a call leaves its thread without a ticket. -/
theorem Log.answer {p : ι} {m : Mem T} {pc : PC T} {e : Event T} (h : Log c H)
    (hprod : pc.producing = none) (hcons : pc.consuming = none)
    (hpush : pushed [(p, e)] = []) (htake : taken [(p, e)] = [])
    (htail : m.tail = c.mem.tail)
    (hclaim : ∀ t, (c.pc p).consuming = some t → ∃ y, e = .popDone t y) :
    Log ⟨m, Function.update c.pc p pc⟩ (H ++ [(p, e)]) := by
  refine h.event ?_ ?_ (fun t x ht => Or.inl ?_) ?_ (fun t _ => hclaim t) ?_
  · intro t ht
    rw [hprod] at ht
    cases ht
  · intro t ht
    rw [hcons] at ht
    cases ht
  · rwa [pushed_append, hpush, List.append_nil] at ht
  · rw [taken_append, htake, List.append_nil, htail]
    exact h.taken_eq
  · rintro t rfl
    cases htake

theorem Log.step {p : ι} {m : Mem T} {pc : PC T} {ev : Option (Event T)}
    (h : Log c H) (hinv : Inv Z c H) (hn : (pushed H).length < 2 ^ 63)
    (he : Effect Z moved c.mem (c.pc p) m pc ev) :
    Log ⟨m, Function.update c.pc p pc⟩ (H ++ (ev.map (Prod.mk p)).toList) := by
  have hlen := hinv.pushes
  have htl := hinv.tickets.tail_le
  generalize hpc : c.pc p = pc₀ at he
  have hnone : ∀ {q : PC T}, c.pc p = q → q.consuming = none → ∀ t,
      (c.pc p).consuming ≠ some t := by
    intro q hq hnone t ht
    rw [hq, hnone] at ht
    cases ht
  cases he with
  | stay => exact h.silent rfl (by rw [hpc]) (by rw [hpc])
  | start op =>
      cases op <;> exact h.silent rfl (by rw [hpc]; rfl) (by rw [hpc]; rfl)
  | pushLoad | pushReady | pushReload | pushLose | pushCopy
  | popLoad | popReady | popReload | popLose | popMove =>
      exact h.silent rfl (by rw [hpc]; rfl) (by rw [hpc]; rfl)
  | pushFull item head =>
      exact h.answer rfl rfl rfl rfl rfl fun t hc => absurd hc (hnone hpc rfl t)
  | pushWin item =>
      refine h.event ?_ (fun t ht => by cases ht) ?_ ?_ ?_ (fun t ht => by cases ht)
      · intro t ht
        exact ⟨item, by rw [← Option.some.inj ht]⟩
      · intro t x ht
        rw [pushed_append] at ht
        rcases Nat.lt_or_ge t (pushed H).length with hlt | hge
        · rw [List.getElem?_append_left hlt] at ht
          exact Or.inl ht
        · rw [List.getElem?_append_right hge] at ht
          obtain ⟨h1, h2⟩ := List.getElem?_eq_some_iff.mp ht
          rw [show pushed [(p, Event.pushWin c.mem.head item)] = [item] from rfl,
            List.length_singleton] at h1
          obtain rfl : t = c.mem.head := by omega
          rw [hlen, Nat.sub_self] at ht
          exact Or.inr (by rw [Option.some.inj ht])
      · simpa [taken] using h.taken_eq
      · exact fun t _ hc => absurd hc (hnone hpc rfl t)
  | pushDone item head =>
      exact h.answer rfl rfl rfl rfl rfl fun t hc => absurd hc (hnone hpc rfl t)
  | popEmpty tail =>
      exact h.answer rfl rfl rfl rfl rfl fun t hc => absurd hc (hnone hpc rfl t)
  | popWin =>
      have hwrap : wrap 64 (c.mem.tail + 1) = c.mem.tail + 1 :=
        wrap_of_lt (by omega)
      refine h.event (fun t ht => by cases ht) ?_ (fun t x ht => Or.inl ?_) ?_ ?_ ?_
      · intro t ht
        rw [← Option.some.inj ht]
      · simpa [pushed] using ht
      · rw [taken_append, h.taken_eq, hwrap, List.range_succ]
        rfl
      · exact fun t _ hc => absurd hc (hnone hpc rfl t)
      · intro t ht
        rw [Event.popWin.injEq] at ht
        rw [← ht]
        rfl
  | popDone tail item =>
      refine h.answer rfl rfl rfl rfl rfl fun t hc => ?_
      rw [hpc] at hc
      exact ⟨item, by rw [← Option.some.inj hc]⟩

end LogStep

/-! ## Runs -/

section Run

variable [DecidableEq ι] {Z : PowSize} {moved : T → T} {buffer : ℕ → T}
  {sched : ℕ → ι × Choice (Op T)}

/-- The bound on the pushes of a run bounds those of its prefixes. -/
theorem pushes_lt {m n : ℕ} (h : m ≤ n)
    (hn : (pushed ((system Z moved ι buffer).history sched n)).length < 2 ^ 63) :
    (pushed ((system Z moved ι buffer).history sched m)).length < 2 ^ 63 :=
  Nat.lt_of_le_of_lt (pushed_length_le (System.history_mono _ _ h)) hn

/-- Both invariants, after every run with fewer than `2 ^ 63` pushes. -/
theorem fifo_run {n : ℕ}
    (hn : (pushed ((system Z moved ι buffer).history sched n)).length < 2 ^ 63) :
    CellsAt Z ((system Z moved ι buffer).run sched n)
        ((system Z moved ι buffer).history sched n)
      ∧ Log ((system Z moved ι buffer).run sched n)
        ((system Z moved ι buffer).history sched n) := by
  induction n with
  | zero =>
      exact ⟨⟨nofun, nofun, nofun, nofun⟩, ⟨nofun, nofun, nofun, rfl, nofun⟩⟩
  | succ n ih =>
      have hlt := pushes_lt (Nat.le_succ n) hn
      obtain ⟨hcells, hlog⟩ := ih hlt
      exact ⟨hcells.step (inv_run hlt) hlt (prog_effect _ _ _),
        hlog.step (inv_run hlt) hlt (prog_effect _ _ _)⟩

theorem head_of_pushWin {i : ℕ} {p : ι} {t : ℕ} {x : T}
    (h : (system Z moved ι buffer).Fires sched i p (.pushWin t x)) :
    ((system Z moved ι buffer).run sched i).mem.head = t := by
  exact (System.effect_of_fires _ prog_effect h).of_pushWin

theorem tail_of_popWin {i : ℕ} {p : ι} {t : ℕ}
    (h : (system Z moved ι buffer).Fires sched i p (.popWin t)) :
    ((system Z moved ι buffer).run sched i).mem.tail = t := by
  exact (System.effect_of_fires _ prog_effect h).of_popWin

/-- A later push has a later ticket. -/
theorem pushWin_lt {n i i' : ℕ} {p p' : ι} {t t' : ℕ} {x x' : T}
    (hn : (pushed ((system Z moved ι buffer).history sched n)).length < 2 ^ 63)
    (h : (system Z moved ι buffer).Fires sched i p (.pushWin t x))
    (h' : (system Z moved ι buffer).Fires sched i' p' (.pushWin t' x'))
    (hlt : i < i') (hi' : i' < n) : t < t' := by
  have h1 := (inv_run (pushes_lt (by omega : i ≤ n) hn)).pushes
  have h2 := (inv_run (pushes_lt (by omega : i' ≤ n) hn)).pushes
  rw [head_of_pushWin h] at h1
  rw [head_of_pushWin h'] at h2
  have hle := pushed_length_le
    ((system Z moved ι buffer).history_mono sched
      (Nat.succ_le_of_lt hlt))
  rw [System.history_succ, System.emitted_of_fires _ h, pushed_append, h2,
    List.length_append, h1] at hle
  exact hle

/-- A later pop has a later ticket. -/
theorem popWin_lt {n j j' : ℕ} {q q' : ι} {t t' : ℕ}
    (hn : (pushed ((system Z moved ι buffer).history sched n)).length < 2 ^ 63)
    (h : (system Z moved ι buffer).Fires sched j q (.popWin t))
    (h' : (system Z moved ι buffer).Fires sched j' q' (.popWin t'))
    (hlt : j < j') (hj' : j' < n) : t < t' := by
  have hlog := (fifo_run (pushes_lt (Nat.le_of_lt hj') hn)).2
  have hmem : t ∈ taken ((system Z moved ι buffer).history sched j') :=
    mem_taken.mpr ⟨q, (System.mem_history _).mpr ⟨j, hlt, h⟩⟩
  rw [hlog.taken_eq, List.mem_range, tail_of_popWin h'] at hmem
  exact hmem

/-- A delivered item was claimed by the same call, and is the item of the
push with that ticket. -/
theorem popDone_origin {n k : ℕ} {q : ι} {t : ℕ} {y : T}
    (hn : (pushed ((system Z moved ι buffer).history sched n)).length < 2 ^ 63)
    (hk : k < n) (h : (system Z moved ι buffer).Fires sched k q (.popDone t y)) :
    ∃ j, j < k ∧ (system Z moved ι buffer).Fires sched j q (.popWin t)
      ∧ (∀ m, j < m → m < k → ∀ e, ¬ (system Z moved ι buffer).Fires sched m q e)
      ∧ ∃ i p, i < j ∧ (system Z moved ι buffer).Fires sched i p (.pushWin t y) := by
  obtain ⟨hcells, hlog⟩ := fifo_run (pushes_lt (Nat.le_of_lt hk) hn)
  have hpc := (System.effect_of_fires _ prog_effect h).of_popDone
  obtain ⟨H₁, hlast⟩ := hlog.consLast (p := q) (t := t) (by rw [hpc]; rfl)
  obtain ⟨j, hj, -, hfj, hquiet⟩ := System.exists_fires_of_latest _ hlast
  refine ⟨j, hj, hfj, fun m hm hmk e hf => hquiet m hm hmk e hf trivial, ?_⟩
  have hy := hcells.carry (p := q) (t := t) (x := y) (by simp only [hpc]; rfl)
  -- the ticket was claimed by its producer before the consumer's claim
  have hlt : t < (pushed ((system Z moved ι buffer).history sched j)).length := by
    have hinv' := inv_run (pushes_lt (by omega : j + 1 ≤ n) hn)
    have htail : t ∈ taken ((system Z moved ι buffer).history sched (j + 1)) :=
      mem_taken.mpr ⟨q, (System.mem_history _).mpr ⟨j, Nat.lt_succ_self j, hfj⟩⟩
    rw [(fifo_run (pushes_lt (by omega : j + 1 ≤ n) hn)).2.taken_eq, List.mem_range] at htail
    have hlen := hinv'.pushes
    rw [System.history_succ, System.emitted_of_fires _ hfj, pushed_append,
      List.length_append] at hlen
    have := hinv'.tickets.tail_le
    simp only [pushed, List.filterMap_cons, List.filterMap_nil, List.length_nil]
      at hlen
    simp only [pushed]
    omega
  obtain ⟨L, hL⟩ := (system Z moved ι buffer).history_mono sched
    (Nat.le_of_lt hj)
  rw [← hL, pushed_append, List.getElem?_append_left hlt] at hy
  obtain ⟨p, hp⟩ := (fifo_run (pushes_lt (by omega : j ≤ n) hn)).2.origin hy
  obtain ⟨i, hi, hfi⟩ := (System.mem_history _).mp hp
  exact ⟨i, p, hi, hfi⟩

theorem pushDone_origin {n k : ℕ} {p : ι} {t : ℕ}
    (hn : (pushed ((system Z moved ι buffer).history sched n)).length < 2 ^ 63)
    (hk : k < n) (h : (system Z moved ι buffer).Fires sched k p (.pushDone t)) :
    ∃ i x, i < k ∧ (system Z moved ι buffer).Fires sched i p (.pushWin t x)
      ∧ ∀ m, i < m → m < k → ∀ e, ¬ (system Z moved ι buffer).Fires sched m p e := by
  obtain ⟨item, hpc⟩ := (System.effect_of_fires _ prog_effect h).of_pushDone
  obtain ⟨x, H₁, hx⟩ := (fifo_run (pushes_lt (Nat.le_of_lt hk) hn)).2.prodLast
    (p := p) (t := t) (by rw [hpc]; rfl)
  obtain ⟨i, hi, -, hfi, hquiet⟩ := System.exists_fires_of_latest _ hx
  exact ⟨i, x, hi, hfi, fun m hm hmk e hf => hquiet m hm hmk e hf trivial⟩

theorem pushWin_unique {n i i' : ℕ} {p p' : ι} {t : ℕ} {x x' : T}
    (hn : (pushed ((system Z moved ι buffer).history sched n)).length < 2 ^ 63)
    (hi : i < n) (hi' : i' < n)
    (h : (system Z moved ι buffer).Fires sched i p (.pushWin t x))
    (h' : (system Z moved ι buffer).Fires sched i' p' (.pushWin t x')) : i = i' := by
  rcases Nat.lt_trichotomy i i' with hlt | heq | hgt
  · exact absurd (pushWin_lt hn h h' hlt hi') (Nat.lt_irrefl t)
  · exact heq
  · exact absurd (pushWin_lt hn h' h hgt hi) (Nat.lt_irrefl t)

theorem popWin_unique {n j j' : ℕ} {q q' : ι} {t : ℕ}
    (hn : (pushed ((system Z moved ι buffer).history sched n)).length < 2 ^ 63)
    (hj : j < n) (hj' : j' < n)
    (h : (system Z moved ι buffer).Fires sched j q (.popWin t))
    (h' : (system Z moved ι buffer).Fires sched j' q' (.popWin t)) : j = j' := by
  rcases Nat.lt_trichotomy j j' with hlt | heq | hgt
  · exact absurd (popWin_lt hn h h' hlt hj') (Nat.lt_irrefl t)
  · exact heq
  · exact absurd (popWin_lt hn h' h hgt hj) (Nat.lt_irrefl t)

/-- A ticket is delivered at most once: both deliveries follow the one claim
in one thread, which is silent between the claim and the delivery. -/
theorem popDone_unique {n k k' : ℕ} {q q' : ι} {t : ℕ} {y y' : T}
    (hn : (pushed ((system Z moved ι buffer).history sched n)).length < 2 ^ 63)
    (hk : k < n) (hk' : k' < n)
    (h : (system Z moved ι buffer).Fires sched k q (.popDone t y))
    (h' : (system Z moved ι buffer).Fires sched k' q' (.popDone t y')) : k = k' := by
  obtain ⟨j, hj, hfj, hquiet, -⟩ := popDone_origin hn hk h
  obtain ⟨j', hj', hfj', hquiet', -⟩ := popDone_origin hn hk' h'
  obtain rfl := popWin_unique hn (by omega) (by omega) hfj hfj'
  obtain rfl : q = q' := hfj.1.symm.trans hfj'.1
  rcases Nat.lt_trichotomy k k' with hlt | heq | hgt
  · exact absurd h (hquiet' k (by omega) hlt _)
  · exact heq
  · exact absurd h' (hquiet k' (by omega) hgt _)

/-- Tickets below `tail_` have been claimed by consumers. -/
theorem exists_popWin {n t : ℕ}
    (hn : (pushed ((system Z moved ι buffer).history sched n)).length < 2 ^ 63)
    (ht : t < ((system Z moved ι buffer).run sched n).mem.tail) :
    ∃ j q, j < n ∧ (system Z moved ι buffer).Fires sched j q (.popWin t) := by
  have hmem : t ∈ taken ((system Z moved ι buffer).history sched n) := by
    rw [(fifo_run hn).2.taken_eq]
    exact List.mem_range.mpr ht
  obtain ⟨q, hq⟩ := mem_taken.mp hmem
  obtain ⟨j, hj, hfj⟩ := (System.mem_history _).mp hq
  exact ⟨j, q, hj, hfj⟩

/-- Tickets below `head_` have been claimed by producers, and exactly those. -/
theorem exists_pushWin {n t : ℕ}
    (hn : (pushed ((system Z moved ι buffer).history sched n)).length < 2 ^ 63)
    (ht : t < ((system Z moved ι buffer).run sched n).mem.head) :
    ∃ i p x, i < n ∧ (system Z moved ι buffer).Fires sched i p (.pushWin t x) := by
  rw [← (inv_run hn).pushes] at ht
  obtain ⟨p, hp⟩ := (fifo_run hn).2.origin (List.getElem?_eq_getElem ht)
  obtain ⟨i, hi, hfi⟩ := (System.mem_history _).mp hp
  exact ⟨i, p, _, hi, hfi⟩

theorem pushed_of_pushWin {n i : ℕ} {p : ι} {t : ℕ} {x : T}
    (hn : (pushed ((system Z moved ι buffer).history sched n)).length < 2 ^ 63)
    (hi : i < n) (h : (system Z moved ι buffer).Fires sched i p (.pushWin t x)) :
    (pushed ((system Z moved ι buffer).history sched n))[t]? = some x := by
  have hlen := (inv_run (pushes_lt (Nat.le_of_lt hi) hn)).pushes
  rw [head_of_pushWin h] at hlen
  obtain ⟨L, hL⟩ := (system Z moved ι buffer).history_mono sched
    (Nat.succ_le_of_lt hi)
  rw [System.history_succ, System.emitted_of_fires _ h] at hL
  rw [← hL, pushed_append, pushed_append,
    show pushed [(p, Event.pushWin t x)] = [x] from rfl, ← hlen,
    List.getElem?_append_left (by simp), List.getElem?_concat_length]

/-- Once nobody is inside a call, a pushed item is delivered exactly if its
ticket lies below `tail_`, and otherwise it is still in its cell. -/
theorem delivered_iff_of_idle {n i : ℕ} {p : ι} {t : ℕ} {x : T}
    (hn : (pushed ((system Z moved ι buffer).history sched n)).length < 2 ^ 63)
    (hidle : ∀ q, ((system Z moved ι buffer).run sched n).pc q = .idle)
    (hi : i < n) (h : (system Z moved ι buffer).Fires sched i p (.pushWin t x)) :
    ((∃ k q, k < n ∧ (system Z moved ι buffer).Fires sched k q (.popDone t x))
        ↔ t < ((system Z moved ι buffer).run sched n).mem.tail)
      ∧ (((system Z moved ι buffer).run sched n).mem.tail ≤ t →
        ((system Z moved ι buffer).run sched n).mem.buffer (Z.index t) = x) := by
  obtain ⟨hcells, hlog⟩ := fifo_run hn
  have hx := pushed_of_pushWin hn hi h
  refine ⟨⟨?_, ?_⟩, fun htail => ?_⟩
  · rintro ⟨k, q, hk, hf⟩
    obtain ⟨j, hj, hfj, -⟩ := popDone_origin hn hk hf
    have hmem : t ∈ taken ((system Z moved ι buffer).history sched n) :=
      mem_taken.mpr ⟨q, (System.mem_history _).mpr ⟨j, by omega, hfj⟩⟩
    rwa [hlog.taken_eq, List.mem_range] at hmem
  · intro ht
    obtain ⟨j, q, hj, hfj⟩ := exists_popWin hn ht
    rcases hlog.delivered ((System.mem_history _).mpr ⟨j, hj, hfj⟩) with hc | ⟨y, hy⟩
    · rw [hidle q] at hc
      cases hc
    · obtain ⟨k, hk, hfk⟩ := (System.mem_history _).mp hy
      obtain ⟨_, _, _, _, i', p', hi', hfi'⟩ := popDone_origin hn hk hfk
      obtain rfl := pushWin_unique hn hi (by omega) h hfi'
      obtain ⟨-, rfl⟩ := Event.pushWin.inj (Option.some.inj (h.2.symm.trans hfi'.2))
      exact ⟨k, q, hk, hfk⟩
  · rcases hcells.cell htail hx with hb | ⟨q, hq⟩
    · exact hb
    · simp only [hidle q] at hq
      cases hq

end Run

/-- **No loss, no duplication, first in first out, by ticket.** In every run
with fewer than `2 ^ 63` pushes:

1. a delivery is made by the call whose compare-exchange claimed the ticket
   on `tail_`, and brings the item of the push whose compare-exchange claimed
   the same ticket on `head_`, earlier;
2. a push that returns true has claimed a ticket in that call;
3. on each side a ticket is claimed once, and it is delivered at most once;
4. if a producer pushes `x` before `x'`, the ticket of `x` is taken before
   that of `x'`;
5. with no call in flight, the pushed items not delivered are those of the
   tickets from `tail_` up to `head_`, each stored in its cell. -/
theorem delivery_by_ticket [DecidableEq ι] (Z : PowSize) (moved : T → T)
    (buffer : ℕ → T) (sched : ℕ → ι × Choice (Op T)) (n : ℕ)
    (hn : (pushed ((system Z moved ι buffer).history sched n)).length < 2 ^ 63) :
    let S := system Z moved ι buffer
    let c := S.run sched n
    (∀ k q t y, k < n → S.Fires sched k q (.popDone t y) →
      ∃ j, j < k ∧ S.Fires sched j q (.popWin t)
        ∧ (∀ m, j < m → m < k → ∀ e, ¬ S.Fires sched m q e)
        ∧ ∃ i p, i < j ∧ S.Fires sched i p (.pushWin t y))
    ∧ (∀ k p t, k < n → S.Fires sched k p (.pushDone t) →
      ∃ i x, i < k ∧ S.Fires sched i p (.pushWin t x)
        ∧ ∀ m, i < m → m < k → ∀ e, ¬ S.Fires sched m p e)
    ∧ (∀ i i' p p' t x x', i < n → i' < n → S.Fires sched i p (.pushWin t x) →
      S.Fires sched i' p' (.pushWin t x') → i = i')
    ∧ (∀ j j' q q' t, j < n → j' < n → S.Fires sched j q (.popWin t) →
      S.Fires sched j' q' (.popWin t) → j = j')
    ∧ (∀ k k' q q' t y y', k < n → k' < n → S.Fires sched k q (.popDone t y) →
      S.Fires sched k' q' (.popDone t y') → k = k')
    ∧ (∀ i i' j' p q' t t' x x', i < i' → i' < n → j' < n →
      S.Fires sched i p (.pushWin t x) → S.Fires sched i' p (.pushWin t' x') →
      S.Fires sched j' q' (.popWin t') →
      ∃ j q, j < j' ∧ S.Fires sched j q (.popWin t))
    ∧ ((∀ p, c.pc p = .idle) →
      (∀ t, t < c.mem.head ↔ ∃ i p x, i < n ∧ S.Fires sched i p (.pushWin t x))
      ∧ ∀ i p t x, i < n → S.Fires sched i p (.pushWin t x) →
        ((¬ ∃ k q, k < n ∧ S.Fires sched k q (.popDone t x)) ↔ c.mem.tail ≤ t)
        ∧ (c.mem.tail ≤ t → c.mem.buffer (Z.index t) = x)) := by
  intro S c
  refine ⟨fun k q t y hk h => popDone_origin hn hk h,
    fun k p t hk h => pushDone_origin hn hk h,
    fun i i' p p' t x x' hi hi' h h' => pushWin_unique hn hi hi' h h',
    fun j j' q q' t hj hj' h h' => popWin_unique hn hj hj' h h',
    fun k k' q q' t y y' hk hk' h h' => popDone_unique hn hk hk' h h', ?_, ?_⟩
  · intro i i' j' p q' t t' x x' hlt hi' hj' h h' hpop
    have htt := pushWin_lt hn h h' hlt hi'
    rw [← tail_of_popWin hpop] at htt
    exact exists_popWin (pushes_lt (Nat.le_of_lt hj') hn) htt
  · intro hidle
    refine ⟨fun t => ⟨exists_pushWin hn, ?_⟩, fun i p t x hi h => ?_⟩
    · rintro ⟨i, p, x, hi, h⟩
      have := (List.getElem?_eq_some_iff.mp (pushed_of_pushWin hn hi h)).1
      rwa [(inv_run hn).pushes] at this
    · obtain ⟨hiff, hcell⟩ := delivered_iff_of_idle hn hidle hi h
      exact ⟨by rw [hiff, Nat.not_lt], hcell⟩

/-- A producer pushes twice, a consumer pops once, everybody returns. -/
def pushPushPop : ℕ → Bool × Choice (Op ℕ) := fun i =>
  [(false, .call (.tryPush 7)), (false, .go), (false, .go), (false, .go),
    (true, .call .tryPop), (false, .go), (false, .go),
    (false, .call (.tryPush 8)), (true, .go), (true, .go), (false, .go),
    (true, .fault), (false, .go), (false, .go), (true, .go), (true, .go),
    (true, .go), (true, .go), (false, .go), (false, .go)].getD i
    (false, .call .tryPop)

/-- In that run the first item is delivered and the second left in its cell. -/
theorem delivery_by_ticket_pushPushPop :
    ((system twoCells id Bool fun _ => (0 : ℕ)).run pushPushPop 20).mem.buffer
        (twoCells.index 1) = 8
      ∧ ¬ ∃ k q, k < 20 ∧ (system twoCells id Bool fun _ => (0 : ℕ)).Fires
        pushPushPop k q (.popDone 1 8) := by
  have h := (delivery_by_ticket twoCells id (fun _ => (0 : ℕ)) pushPushPop 20
    (by decide +kernel)).2.2.2.2.2.2 (by decide +kernel)
  have hpush := h.2 13 false 1 8 (by decide) (by decide +kernel)
  exact ⟨hpush.2 (by decide +kernel), hpush.1.mpr (by decide +kernel)⟩

end Ring

end Lockless
