import Lockless.Spsc

/-!
# The queue is a bounded first-in first-out buffer

The stored indices are wrapped, so the invariant speaks about the unbounded
positions behind them: with `P` the items pushed and `Q` the items popped so
far, `head_` is `P.length` and `tail_` is `Q.length` modulo the size, `Q` is
a prefix of `P` less than one lap behind, and the cells from `tail_` up to
`head_` hold the rest of `P`. Each side's stale view of the other's index
only errs on the safe side: room and items found once do not go away.
-/

namespace Lockless

namespace Spsc

variable {κ T : Type*}

/-! ## The items pushed and popped -/

/-- The items whose `try_push` has stored to `head_`, in order. -/
def pushedItems (H : List (Role κ × Event T)) : List T :=
  H.filterMap fun e => match e.2 with
    | .pushed item => some item
    | _ => none

/-- The items whose `try_pop` has stored to `tail_`, in order. -/
def poppedItems (H : List (Role κ × Event T)) : List T :=
  H.filterMap fun e => match e.2 with
    | .popped item => some item
    | _ => none

theorem pushedItems_append (H K : List (Role κ × Event T)) :
    pushedItems (H ++ K) = pushedItems H ++ pushedItems K := by
  simp [pushedItems]

theorem poppedItems_append (H K : List (Role κ × Event T)) :
    poppedItems (H ++ K) = poppedItems H ++ poppedItems K := by
  simp [poppedItems]

/-! ## The invariant -/

/-- A thread's control state fits its role. -/
def Fits : Role κ → PC T → Prop
  | .producer, .producer _ => True
  | .consumer, .consumer _ => True
  | .observer _, .observer _ => True
  | _, _ => False

/-- What the producer knows: its copy of `head_` is current, room it has
found is still there, and the item it has written is in place. -/
def PushOK (Z : PowSize) (m : Mem T) (P Q : List T) : PC T → Prop
  | .producer (.loadTail _ head next) => head = m.head ∧ next = advance Z m.head
  | .producer (.write _ head next) =>
      head = m.head ∧ next = advance Z m.head ∧ P.length + 1 < Q.length + Z.size
  | .producer (.store item head next) =>
      head = m.head ∧ next = advance Z m.head ∧ P.length + 1 < Q.length + Z.size
        ∧ m.buffer head = item
  | _ => True

/-- What the consumer knows, likewise. -/
def PopOK (m : Mem T) (P Q : List T) : PC T → Prop
  | .consumer (.loadHead tail) => tail = m.tail
  | .consumer (.read tail) => tail = m.tail ∧ Q.length < P.length
  | .consumer (.store tail item) => tail = m.tail ∧ P[Q.length]? = some item
  | _ => True

/-- The consumer has moved the oldest item out but not yet stored `tail_`. -/
def PC.holding : PC T → Bool
  | .consumer (.store _ _) => true
  | _ => false

/-- The shared state, over the item lists. -/
structure Positions (Z : PowSize) (m : Mem T) (P Q : List T) (held : Bool) :
    Prop where
  head_eq : m.head = Z.index P.length
  tail_eq : m.tail = Z.index Q.length
  popped : Q <+: P
  room : P.length < Q.length + Z.size
  cells : ∀ {j x}, Q.length ≤ j → P[j]? = some x →
    (j = Q.length ∧ held = true) ∨ m.buffer (Z.index j) = x

structure Inv (Z : PowSize) (c : Config (Role κ) (Mem T) (PC T))
    (H : List (Role κ × Event T)) : Prop where
  fits : ∀ r, Fits r (c.pc r)
  positions : Positions Z c.mem (pushedItems H) (poppedItems H)
    (c.pc .consumer).holding
  push : PushOK Z c.mem (pushedItems H) (poppedItems H) (c.pc .producer)
  pop : PopOK c.mem (pushedItems H) (poppedItems H) (c.pc .consumer)

section Steps

variable {Z : PowSize} {m : Mem T} {P Q : List T} {held : Bool}

theorem advance_index (Z : PowSize) (n : ℕ) :
    advance Z (Z.index n) = Z.index (n + 1) := by
  rw [advance, Z.index_wrap, Z.index_index_add]

theorem Positions.length_le (h : Positions Z m P Q held) : Q.length ≤ P.length :=
  h.popped.length_le

/-- `next == tail_` exactly if all but one cell are taken. -/
theorem Positions.full_iff (h : Positions Z m P Q held) :
    advance Z m.head = m.tail ↔ P.length + 1 = Q.length + Z.size := by
  have hle := h.length_le
  have hroom := h.room
  rw [h.head_eq, h.tail_eq, advance_index]
  constructor
  · intro hi
    by_contra hne
    have := Z.index_inj hi (by omega) (by omega)
    omega
  · intro he
    rw [he, Z.index_add_size]

/-- `tail == head_` exactly if nothing is left to pop. -/
theorem Positions.empty_iff (h : Positions Z m P Q held) :
    m.tail = m.head ↔ P.length = Q.length := by
  have hle := h.length_le
  have hroom := h.room
  rw [h.head_eq, h.tail_eq]
  constructor
  · intro hi
    exact (Z.index_inj hi (by omega) (by omega)).symm
  · intro he
    rw [he]

/-- Two positions in use, less than a lap apart, have different cells. -/
theorem Positions.cell_ne (h : Positions Z m P Q held) {j k : ℕ}
    (hj : Q.length ≤ j) (hjk : j < k) (hk : k ≤ P.length) :
    Z.index j ≠ Z.index k := by
  have hroom := h.room
  intro hi
  have := Z.index_inj hi (by omega) (by omega)
  omega

/-- Writing the cell at `head_` disturbs no stored item. -/
theorem Positions.write (h : Positions Z m P Q held) (x : T) :
    Positions Z { m with buffer := Function.update m.buffer m.head x } P Q held := by
  refine ⟨h.head_eq, h.tail_eq, h.popped, h.room, fun {j y} hj hy => ?_⟩
  have hlt := (List.getElem?_eq_some_iff.mp hy).1
  simp only [h.head_eq]
  rw [Function.update_of_ne (h.cell_ne hj hlt (Nat.le_refl _))]
  exact h.cells hj hy

theorem Positions.push (h : Positions Z m P Q held)
    (hroom : P.length + 1 < Q.length + Z.size) (x : T)
    (hx : m.buffer m.head = x) :
    Positions Z { m with head := advance Z m.head } (P ++ [x]) Q held := by
  refine ⟨?_, h.tail_eq, h.popped.trans (List.prefix_append _ _), ?_, ?_⟩
  · simp only [h.head_eq, advance_index, List.length_append, List.length_singleton]
  · rw [List.length_append, List.length_singleton]
    exact hroom
  · intro j y hj hy
    rcases Nat.lt_or_ge j P.length with hlt | hge
    · rw [List.getElem?_append_left hlt] at hy
      exact h.cells hj hy
    · have hlen := (List.getElem?_eq_some_iff.mp hy).1
      rw [List.length_append, List.length_singleton] at hlen
      obtain rfl : j = P.length := by omega
      rw [List.getElem?_concat_length] at hy
      refine Or.inr ?_
      rw [← h.head_eq, ← Option.some.inj hy]
      exact hx

/-- Moving the oldest item out spoils its own cell only. -/
theorem Positions.read (h : Positions Z m P Q held) (x : T) :
    Positions Z { m with buffer := Function.update m.buffer m.tail x } P Q true := by
  refine ⟨h.head_eq, h.tail_eq, h.popped, h.room, fun {j y} hj hy => ?_⟩
  have hlt := (List.getElem?_eq_some_iff.mp hy).1
  rcases Nat.lt_or_eq_of_le hj with hlt' | rfl
  · refine Or.inr ?_
    simp only [h.tail_eq]
    rw [Function.update_of_ne
      (h.cell_ne (Nat.le_refl _) hlt' (Nat.le_of_lt hlt)).symm]
    exact (h.cells hj hy).resolve_left fun hne => by omega
  · exact Or.inl ⟨rfl, rfl⟩

theorem Positions.pop (h : Positions Z m P Q held) {x : T}
    (hx : P[Q.length]? = some x) :
    Positions Z { m with tail := advance Z m.tail } P (Q ++ [x]) false := by
  have hroom := h.room
  refine ⟨h.head_eq, ?_, ?_, ?_, ?_⟩
  · simp only [h.tail_eq, advance_index, List.length_append, List.length_singleton]
  · obtain ⟨R, rfl⟩ := h.popped
    rw [List.getElem?_append_right (Nat.le_refl _), Nat.sub_self] at hx
    cases R with
    | nil => cases hx
    | cons y R =>
        rw [← Option.some.inj hx]
        exact ⟨R, by simp⟩
  · rw [List.length_append, List.length_singleton]
    omega
  · intro j y hj hy
    rw [List.length_append, List.length_singleton] at hj
    exact Or.inr ((h.cells (by omega) hy).resolve_left fun hne => by omega)

/-- A push leaves what the consumer knows true. -/
theorem PopOK.push {m' : Mem T} {pc : PC T} (h : PopOK m P Q pc) (R : List T)
    (htail : m'.tail = m.tail) : PopOK m' (P ++ R) Q pc := by
  rcases pc with _ | (_ | _ | t | t | ⟨t, x⟩) | _ <;> simp only [PopOK] at h ⊢
  · rw [h, htail]
  · rw [List.length_append]
    exact ⟨h.1.trans htail.symm, by omega⟩
  · have hlt := (List.getElem?_eq_some_iff.mp h.2).1
    exact ⟨h.1.trans htail.symm, by rw [List.getElem?_append_left hlt, h.2]⟩

/-- A pop leaves what the producer knows true. -/
theorem PushOK.pop {m' : Mem T} {pc : PC T} (h : PushOK Z m P Q pc) (R : List T)
    (hhead : m'.head = m.head) (hbuf : m'.buffer m.head = m.buffer m.head) :
    PushOK Z m' P (Q ++ R) pc := by
  rcases pc with (_ | x | ⟨x, i, j⟩ | ⟨x, i, j⟩ | ⟨x, i, j⟩) | _ | _ <;>
    simp only [PushOK] at h ⊢ <;>
    simp only [hhead, List.length_append]
  · exact h
  · exact ⟨h.1, h.2.1, by omega⟩
  · obtain ⟨rfl, h1, h2, h3⟩ := h
    exact ⟨rfl, h1, by omega, by rw [hbuf, h3]⟩

end Steps

section Invariant

variable [DecidableEq κ] {Z : PowSize} {moved : T → T}
  {c : Config (Role κ) (Mem T) (PC T)} {H : List (Role κ × Event T)}

omit [DecidableEq κ] in
theorem Fits.eq_producer {r : Role κ} {pc : PushPC T} (h : Fits r (.producer pc)) :
    r = .producer := by
  cases r with
  | producer => rfl
  | consumer => exact h.elim
  | observer k => exact h.elim

omit [DecidableEq κ] in
theorem Fits.eq_consumer {r : Role κ} {pc : PopPC T} (h : Fits r (.consumer pc)) :
    r = .consumer := by
  cases r with
  | producer => exact h.elim
  | consumer => rfl
  | observer k => exact h.elim

omit [DecidableEq κ] in
theorem Fits.eq_observer {r : Role κ} {pc : EmptyPC}
    (h : Fits r (.observer pc : PC T)) : ∃ k, r = .observer k := by
  cases r with
  | producer => exact h.elim
  | consumer => exact h.elim
  | observer k => exact ⟨k, rfl⟩

theorem Inv.producer {m : Mem T} {pc : PushPC T} {K : List (Role κ × Event T)}
    (h : Inv Z c H)
    (hpos : Positions Z m (pushedItems (H ++ K)) (poppedItems (H ++ K))
      (c.pc .consumer).holding)
    (hpush : PushOK Z m (pushedItems (H ++ K)) (poppedItems (H ++ K)) (.producer pc))
    (hpop : PopOK m (pushedItems (H ++ K)) (poppedItems (H ++ K)) (c.pc .consumer)) :
    Inv Z ⟨m, Function.update c.pc .producer (.producer pc)⟩ (H ++ K) where
  fits := (Function.forall_update_iff c.pc fun r pc => Fits r pc).mpr
    ⟨trivial, fun r _ => h.fits r⟩
  positions := by simpa using hpos
  push := by simpa using hpush
  pop := by simpa using hpop

theorem Inv.consumer {m : Mem T} {pc : PopPC T} {K : List (Role κ × Event T)}
    (h : Inv Z c H)
    (hpos : Positions Z m (pushedItems (H ++ K)) (poppedItems (H ++ K))
      (PC.consumer pc).holding)
    (hpush : PushOK Z m (pushedItems (H ++ K)) (poppedItems (H ++ K))
      (c.pc .producer))
    (hpop : PopOK m (pushedItems (H ++ K)) (poppedItems (H ++ K)) (.consumer pc)) :
    Inv Z ⟨m, Function.update c.pc .consumer (.consumer pc)⟩ (H ++ K) where
  fits := (Function.forall_update_iff c.pc fun r pc => Fits r pc).mpr
    ⟨trivial, fun r _ => h.fits r⟩
  positions := by simpa using hpos
  push := by simpa using hpush
  pop := by simpa using hpop

/-- The producer only reads. -/
theorem Inv.producer_quiet {pc : PushPC T} {K : List (Role κ × Event T)} (h : Inv Z c H)
    (hpushed : pushedItems K = []) (hpopped : poppedItems K = [])
    (hpush : PushOK Z c.mem (pushedItems H) (poppedItems H) (.producer pc)) :
    Inv Z ⟨c.mem, Function.update c.pc .producer (.producer pc)⟩ (H ++ K) := by
  refine h.producer ?_ ?_ ?_ <;>
    simp only [pushedItems_append, poppedItems_append, hpushed, hpopped, List.append_nil]
  · exact h.positions
  · exact hpush
  · exact h.pop

/-- The consumer only reads, with no item in hand. -/
theorem Inv.consumer_quiet {pc : PopPC T} {K : List (Role κ × Event T)} (h : Inv Z c H)
    (hpushed : pushedItems K = []) (hpopped : poppedItems K = [])
    (hheld : (PC.consumer pc).holding = (c.pc .consumer).holding)
    (hpop : PopOK c.mem (pushedItems H) (poppedItems H) (.consumer pc)) :
    Inv Z ⟨c.mem, Function.update c.pc .consumer (.consumer pc)⟩ (H ++ K) := by
  refine h.consumer ?_ ?_ ?_ <;>
    simp only [pushedItems_append, poppedItems_append, hpushed, hpopped, List.append_nil]
  · rw [hheld]
    exact h.positions
  · exact h.push
  · exact hpop

/-- Steps that touch neither side: `empty` calls and no step at all. -/
theorem Inv.aside {r : Role κ} {pc : PC T} {K : List (Role κ × Event T)}
    (h : Inv Z c H) (hfits : Fits r pc) (hp : r = .producer → pc = c.pc r)
    (hc : r = .consumer → pc = c.pc r) (hpushed : pushedItems K = [])
    (hpopped : poppedItems K = []) :
    Inv Z ⟨c.mem, Function.update c.pc r pc⟩ (H ++ K) := by
  have hprod : Function.update c.pc r pc .producer = c.pc .producer := by
    by_cases hr : Role.producer = r
    · subst hr
      rw [Function.update_self, hp rfl]
    · rw [Function.update_of_ne hr]
  have hcons : Function.update c.pc r pc .consumer = c.pc .consumer := by
    by_cases hr : Role.consumer = r
    · subst hr
      rw [Function.update_self, hc rfl]
    · rw [Function.update_of_ne hr]
  refine ⟨(Function.forall_update_iff c.pc fun r pc => Fits r pc).mpr
    ⟨hfits, fun q _ => h.fits q⟩, ?_, ?_, ?_⟩ <;>
    simp only [pushedItems_append, poppedItems_append, hpushed, hpopped,
      List.append_nil, hprod, hcons]
  · exact h.positions
  · exact h.push
  · exact h.pop

omit [DecidableEq κ] in
theorem pushedItems_concat_pushed (r : Role κ) (item : T) :
    pushedItems (H ++ [(r, .pushed item)]) = pushedItems H ++ [item]
      ∧ poppedItems (H ++ [(r, .pushed item)]) = poppedItems H := by
  rw [pushedItems_append, poppedItems_append]
  exact ⟨rfl, List.append_nil _⟩

omit [DecidableEq κ] in
theorem poppedItems_concat_popped (r : Role κ) (item : T) :
    pushedItems (H ++ [(r, .popped item)]) = pushedItems H
      ∧ poppedItems (H ++ [(r, .popped item)]) = poppedItems H ++ [item] := by
  rw [pushedItems_append, poppedItems_append]
  exact ⟨List.append_nil _, rfl⟩

theorem Inv.pushWrite (h : Inv Z c H) {item : T} {head next : ℕ}
    (hpc : c.pc .producer = .producer (.write item head next)) :
    Inv Z ⟨{ c.mem with buffer := Function.update c.mem.buffer head item },
      Function.update c.pc .producer (.producer (.store item head next))⟩ (H ++ []) := by
  have hpush := h.push
  rw [hpc] at hpush
  obtain ⟨rfl, hnext, hroom⟩ := hpush
  refine h.producer ?_ ?_ ?_ <;> rw [List.append_nil]
  · exact h.positions.write item
  · exact ⟨rfl, hnext, hroom, by simp⟩
  · rw [← List.append_nil (pushedItems H)]
    exact h.pop.push [] rfl

theorem Inv.pushStore (h : Inv Z c H) {item : T} {head next : ℕ}
    (hpc : c.pc .producer = .producer (.store item head next)) :
    Inv Z ⟨{ c.mem with head := next }, Function.update c.pc .producer (.producer .idle)⟩
      (H ++ [(.producer, .pushed item)]) := by
  have hpush := h.push
  rw [hpc] at hpush
  obtain ⟨rfl, rfl, hroom, hcell⟩ := hpush
  obtain ⟨hpushed, hpopped⟩ := pushedItems_concat_pushed (H := H) Role.producer item
  refine h.producer ?_ trivial ?_ <;> rw [hpushed, hpopped]
  · exact h.positions.push hroom item hcell
  · exact h.pop.push [item] rfl

theorem Inv.popRead (h : Inv Z c H) {tail : ℕ}
    (hpc : c.pc .consumer = .consumer (.read tail)) :
    Inv Z ⟨{ c.mem with
        buffer := Function.update c.mem.buffer tail (moved (c.mem.buffer tail)) },
      Function.update c.pc .consumer (.consumer (.store tail (c.mem.buffer tail)))⟩
      (H ++ []) := by
  have hpos := h.positions
  have hpop := h.pop
  rw [hpc] at hpop
  obtain ⟨rfl, hlt⟩ := hpop
  have hcell := (hpos.cells (Nat.le_refl _) (List.getElem?_eq_getElem hlt)).resolve_left
    (by simp [hpc, PC.holding])
  refine h.consumer ?_ ?_ ?_ <;> rw [List.append_nil]
  · exact hpos.read _
  · have hne : c.mem.head ≠ c.mem.tail := by
      rw [hpos.head_eq, hpos.tail_eq]
      exact (hpos.cell_ne (Nat.le_refl _) hlt (Nat.le_refl _)).symm
    rw [← List.append_nil (poppedItems H)]
    exact h.push.pop [] rfl (Function.update_of_ne hne _ _)
  · exact ⟨rfl, by rw [hpos.tail_eq, hcell]; exact List.getElem?_eq_getElem hlt⟩

theorem Inv.popStore (h : Inv Z c H) {tail : ℕ} {item : T}
    (hpc : c.pc .consumer = .consumer (.store tail item)) :
    Inv Z ⟨{ c.mem with tail := advance Z tail },
      Function.update c.pc .consumer (.consumer .idle)⟩
      (H ++ [(.consumer, .popped item)]) := by
  have hpop := h.pop
  rw [hpc] at hpop
  obtain ⟨rfl, hitem⟩ := hpop
  obtain ⟨hpushed, hpopped⟩ := poppedItems_concat_popped (H := H) Role.consumer item
  refine h.consumer ?_ ?_ trivial <;> rw [hpushed, hpopped]
  · exact h.positions.pop hitem
  · exact h.push.pop [item] rfl rfl

theorem Inv.step {r : Role κ} {m : Mem T} {pc : PC T} {ev : Option (Event T)}
    (h : Inv Z c H) (he : Effect Z moved c.mem (c.pc r) m pc ev) :
    Inv Z ⟨m, Function.update c.pc r pc⟩ (H ++ (ev.map (Prod.mk r)).toList) := by
  have hfits := h.fits r
  have hpush := h.push
  have hpop := h.pop
  have hpos := h.positions
  generalize hpc : c.pc r = pc₀ at he hfits
  cases he with
  | stay => exact h.aside hfits (fun _ => hpc.symm) (fun _ => hpc.symm) rfl rfl
  | pushStart item =>
      obtain rfl := hfits.eq_producer
      exact h.producer_quiet rfl rfl trivial
  | pushHead item =>
      obtain rfl := hfits.eq_producer
      exact h.producer_quiet rfl rfl ⟨rfl, rfl⟩
  | pushFull item head =>
      obtain rfl := hfits.eq_producer
      exact h.producer_quiet rfl rfl trivial
  | pushRoom item head next hne =>
      obtain rfl := hfits.eq_producer
      rw [hpc] at hpush
      obtain ⟨h1, h2⟩ := hpush
      have hroom := hpos.room
      have hfull : ¬ (pushedItems H).length + 1 = (poppedItems H).length + Z.size :=
        fun he => hne (h2.trans (hpos.full_iff.mpr he))
      exact h.producer_quiet rfl rfl ⟨h1, h2, by omega⟩
  | pushWrite item head next =>
      obtain rfl := hfits.eq_producer
      exact h.pushWrite hpc
  | pushStore item head next =>
      obtain rfl := hfits.eq_producer
      exact h.pushStore hpc
  | popStart =>
      obtain rfl := hfits.eq_consumer
      exact h.consumer_quiet rfl rfl (by rw [hpc]; rfl) trivial
  | popTail =>
      obtain rfl := hfits.eq_consumer
      exact h.consumer_quiet rfl rfl (by rw [hpc]; rfl) rfl
  | popEmpty =>
      obtain rfl := hfits.eq_consumer
      exact h.consumer_quiet rfl rfl (by rw [hpc]; rfl) trivial
  | popSome tail hne =>
      obtain rfl := hfits.eq_consumer
      rw [hpc] at hpop
      have htail : tail = c.mem.tail := hpop
      have hle := hpos.length_le
      have hempty : ¬ (pushedItems H).length = (poppedItems H).length :=
        fun he => hne (htail.trans (hpos.empty_iff.mpr he))
      exact h.consumer_quiet rfl rfl (by rw [hpc]; rfl) ⟨htail, by omega⟩
  | popRead tail =>
      obtain rfl := hfits.eq_consumer
      exact h.popRead hpc
  | popStore tail item =>
      obtain rfl := hfits.eq_consumer
      exact h.popStore hpc
  | emptyStart | emptyFirst | emptySecond =>
      obtain ⟨k, rfl⟩ := hfits.eq_observer
      exact h.aside trivial nofun nofun rfl rfl

theorem inv_run (buffer : ℕ → T) (sched : ℕ → Role κ × Choice (Op T)) (n : ℕ) :
    Inv Z ((system Z moved κ buffer).run sched n)
      ((system Z moved κ buffer).history sched n) := by
  refine (system Z moved κ buffer).invariant ?_
    (fun c H a h => h.step (prog_effect _ _ _)) sched n
  have h2 := Z.two_le_size
  refine ⟨fun r => by cases r <;> exact trivial, ⟨?_, ?_, ?_, ?_, ?_⟩, trivial, trivial⟩
  · simp [system, pushedItems, Z.index_eq_mod]
  · simp [system, poppedItems, Z.index_eq_mod]
  · exact List.prefix_rfl
  · simp only [pushedItems, poppedItems, List.filterMap_nil, List.length_nil]
    omega
  · nofun

end Invariant

/-- **A bounded first-in first-out queue of capacity `Size - 1`.** After any
number of steps of any schedule:

1. the items popped so far are a prefix of the items pushed so far;
2. at most `Size - 1` items are outstanding;
3. the producer does not write the cell the consumer is reading;
4. if the next step is the load of `tail_` after which `try_push` returns
   false, exactly `Size - 1` items are outstanding;
5. if it is the load of `head_` after which `try_pop` returns false, none
   are. -/
theorem bounded_fifo [DecidableEq κ] (Z : PowSize) (moved : T → T)
    (buffer : ℕ → T) (sched : ℕ → Role κ × Choice (Op T)) (n : ℕ) :
    let S := system Z moved κ buffer
    let c := S.run sched n
    let P := pushedItems (S.history sched n)
    let Q := poppedItems (S.history sched n)
    Q <+: P ∧ P.length - Q.length ≤ Z.size - 1
      ∧ (∀ item head next tail, c.pc .producer = .producer (.write item head next) →
        c.pc .consumer = .consumer (.read tail) → head ≠ tail)
      ∧ (∀ r, S.Fires sched n r .pushFull → P.length - Q.length = Z.size - 1)
      ∧ (∀ r, S.Fires sched n r .popEmpty → P = Q) := by
  intro S c P Q
  have h : Inv Z c (S.history sched n) := inv_run buffer sched n
  have hpos := h.positions
  have hroom : P.length < Q.length + Z.size := hpos.room
  have hle : Q.length ≤ P.length := hpos.length_le
  refine ⟨hpos.popped, by omega, ?_, ?_, ?_⟩
  · intro item head next tail hp hc
    have hpush := h.push
    have hpop := h.pop
    rw [hp] at hpush
    rw [hc] at hpop
    rw [hpush.1, hpop.1, hpos.head_eq, hpos.tail_eq]
    exact (hpos.cell_ne (Nat.le_refl _) hpop.2 (Nat.le_refl _)).symm
  · intro r hf
    obtain ⟨m, pc, he⟩ : ∃ m pc, Effect Z moved c.mem (c.pc r) m pc _ :=
      ⟨_, _, S.effect_of_fires prog_effect hf⟩
    have hfits := h.fits r
    have hpush := h.push
    generalize hpc : c.pc r = pc₀ at he
    cases he with
    | pushFull item head =>
        rw [hpc] at hfits
        obtain rfl := hfits.eq_producer
        rw [hpc] at hpush
        have hfull : P.length + 1 = Q.length + Z.size := hpos.full_iff.mp hpush.2.symm
        omega
  · intro r hf
    obtain ⟨m, pc, he⟩ : ∃ m pc, Effect Z moved c.mem (c.pc r) m pc _ :=
      ⟨_, _, S.effect_of_fires prog_effect hf⟩
    have hfits := h.fits r
    have hpop := h.pop
    generalize hpc : c.pc r = pc₀ at he
    cases he with
    | popEmpty =>
        rw [hpc] at hfits
        obtain rfl := hfits.eq_consumer
        rw [hpc] at hpop
        have hlen := hpos.empty_iff.mp hpop.symm
        exact (hpos.popped.eq_of_length hlen.symm).symm

end Spsc

end Lockless
