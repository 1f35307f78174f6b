import Lockless.HashMap

/-!
# Keys in the hash map

A bucket belongs to a key while an insert of that key fills it and once it
is ready with that key. Two inserts of one key follow the same probe
sequence, so the second would meet the first's bucket, were it not that
`insert` passes over a bucket it cannot compare: one that is claimed but not
ready, or one whose compare-exchange it has just lost. `racingInserts` is a
run in which two inserts of one key both return true because of that.

In a run in which no insert passes over a bucket that belongs to its own key
(`Watchful`), keys are unique. The invariant behind it: what an insert has
passed is occupied and does not belong to its key, and neither does anything
in front of a bucket that does.
-/

namespace Lockless

namespace HashMap

variable {ι K V : Type*}

/-! ## Whose bucket it is -/

/-- The key and the bucket an insert is filling: claimed, not yet ready. -/
def PC.filling (B : Table K) : PC K V → Option (K × ℕ)
  | .insert key _ i .writeKey => some (key, B.bucket key i)
  | .insert key _ i .writeValue => some (key, B.bucket key i)
  | .insert key _ i .publish => some (key, B.bucket key i)
  | _ => none

def Belongs (B : Table K) (c : Config ι (Mem K V) (PC K V)) (b : ℕ) (k : K) : Prop :=
  (c.mem.ready b = true ∧ c.mem.key b = k) ∨ ∃ p, (c.pc p).filling B = some (k, b)

/-- All buckets before the `i`th probe for `k` are occupied, and not by `k`. -/
def Passed (B : Table K) (c : Config ι (Mem K V) (PC K V)) (k : K) (i : ℕ) : Prop :=
  ∀ j, j < i → c.mem.occupied (B.bucket k j) = true ∧ ¬ Belongs B c (B.bucket k j) k

/-- What a thread knows about the bucket it is at. -/
def Local (B : Table K) (m : Mem K V) : PC K V → Prop
  | .insert key _ i .loadReady => m.occupied (B.bucket key i) = true
  | .insert key _ i .compareKey => m.occupied (B.bucket key i) = true
      ∧ m.ready (B.bucket key i) = true
  | .insert key _ i .writeKey => m.occupied (B.bucket key i) = true
      ∧ m.ready (B.bucket key i) = false
  | .insert key _ i .writeValue => m.occupied (B.bucket key i) = true
      ∧ m.ready (B.bucket key i) = false ∧ m.key (B.bucket key i) = key
  | .insert key _ i .publish => m.occupied (B.bucket key i) = true
      ∧ m.ready (B.bucket key i) = false ∧ m.key (B.bucket key i) = key
  | _ => True

/-! ## The invariant -/

/-- What holds of the buckets whatever the calls are. -/
structure Buckets (B : Table K) (c : Config ι (Mem K V) (PC K V)) : Prop where
  locals : ∀ p, Local B c.mem (c.pc p)
  fillers : Exclusive fun p => ((c.pc p).filling B).map Prod.snd
  occupied : ∀ {b}, c.mem.ready b = true → c.mem.occupied b = true

structure Inv (B : Table K) (c : Config ι (Mem K V) (PC K V))
    (H : List (ι × Event K V)) : Prop where
  locals : ∀ p, Local B c.mem (c.pc p)
  fillers : Exclusive fun p => ((c.pc p).filling B).map Prod.snd
  occupied : ∀ {b}, c.mem.ready b = true → c.mem.occupied b = true
  probes : ∀ {p key value i pc}, c.pc p = .insert key value i pc → Passed B c key i
  home : ∀ {b}, c.mem.ready b = true →
    ∃ i, B.bucket (c.mem.key b) i = b ∧ Passed B c (c.mem.key b) i
  log : ∀ {p key value}, (p, Event.inserted key value) ∈ H →
    ∃ b, c.mem.ready b = true ∧ c.mem.key b = key

theorem PC.filling_eq_some {B : Table K} {pc : PC K V} {k : K} {b : ℕ}
    (h : pc.filling B = some (k, b)) :
    ∃ value i ipc, pc = .insert k value i ipc ∧ B.bucket k i = b
      ∧ (ipc = .writeKey ∨ ipc = .writeValue ∨ ipc = .publish) := by
  rcases pc with _ | ⟨key, value, i, _ | _ | _ | _ | _ | _ | _⟩ | _ <;> cases h <;>
    exact ⟨_, _, _, rfl, rfl, by simp⟩

namespace Buckets

variable {B : Table K} {c : Config ι (Mem K V) (PC K V)}

theorem of_filling (h : Buckets B c) {p : ι} {k : K} {b : ℕ}
    (hp : (c.pc p).filling B = some (k, b)) :
    c.mem.occupied b = true ∧ c.mem.ready b = false := by
  obtain ⟨value, i, ipc, hpc, rfl, hipc⟩ := PC.filling_eq_some hp
  have hloc := h.locals p
  rw [hpc] at hloc
  rcases hipc with rfl | rfl | rfl
  · exact hloc
  · exact ⟨hloc.1, hloc.2.1⟩
  · exact ⟨hloc.1, hloc.2.1⟩

theorem filling_inj (h : Buckets B c) {p q : ι} {k k' : K} {b : ℕ}
    (hp : (c.pc p).filling B = some (k, b)) (hq : (c.pc q).filling B = some (k', b)) :
    p = q :=
  h.fillers (t := b) (by simp [hp]) (by simp [hq])

end Buckets

namespace Inv

variable {B : Table K} {c : Config ι (Mem K V) (PC K V)} {H : List (ι × Event K V)}

theorem buckets (h : Inv B c H) : Buckets B c := ⟨h.locals, h.fillers, h.occupied⟩

theorem of_filling (h : Inv B c H) {p : ι} {k : K} {b : ℕ}
    (hp : (c.pc p).filling B = some (k, b)) : ∃ i, B.bucket k i = b ∧ Passed B c k i := by
  obtain ⟨value, i, ipc, hpc, rfl, -⟩ := PC.filling_eq_some hp
  exact ⟨i, rfl, h.probes hpc⟩

/-- A bucket that belongs to a key lies on its probe sequence, behind buckets
that do not. -/
theorem home_of_belongs (h : Inv B c H) {b : ℕ} {k : K} (hb : Belongs B c b k) :
    ∃ i, B.bucket k i = b ∧ Passed B c k i := by
  rcases hb with ⟨hready, rfl⟩ | ⟨p, hp⟩
  · exact h.home hready
  · exact h.of_filling hp

/-- **At most one bucket belongs to a key.** -/
theorem belongs_unique (h : Inv B c H) {b b' : ℕ} {k : K} (hb : Belongs B c b k)
    (hb' : Belongs B c b' k) : b = b' := by
  obtain ⟨i, rfl, hi⟩ := h.home_of_belongs hb
  obtain ⟨j, rfl, hj⟩ := h.home_of_belongs hb'
  rcases Nat.lt_trichotomy i j with hlt | rfl | hgt
  · exact absurd hb (hj i hlt).2
  · rfl
  · exact absurd hb' (hi j hgt).2

end Inv

/-! ## What a step leaves alone -/

/-- Flags are only ever set, and keys and `ready` flags change only in the
bucket a thread is filling. -/
structure Frame (B : Table K) (m m' : Mem K V) (pc : PC K V) : Prop where
  occupied : ∀ {b}, m.occupied b = true → m'.occupied b = true
  ready : ∀ {b}, m.ready b = true → m'.ready b = true
  outside : ∀ {b}, (∀ k, pc.filling B ≠ some (k, b)) →
    m'.ready b = m.ready b ∧ m'.key b = m.key b

theorem update_true {f : ℕ → Bool} {i j : ℕ} (h : f j = true) :
    Function.update f i true j = true := by
  by_cases hj : j = i
  · rw [hj, Function.update_self]
  · rwa [Function.update_of_ne hj]

theorem Effect.frame {B : Table K} {m m' : Mem K V} {pc pc' : PC K V}
    {ev : Option (Event K V)} (he : Effect B m pc m' pc' ev) : Frame B m m' pc := by
  cases he with
  | claim key value i h => exact ⟨update_true, id, fun _ => ⟨rfl, rfl⟩⟩
  | writeKey key value i =>
      refine ⟨id, id, fun {b} hb => ⟨rfl, Function.update_of_ne ?_ _ _⟩⟩
      rintro rfl
      exact hb key rfl
  | writeValue key value i => exact ⟨id, id, fun _ => ⟨rfl, rfl⟩⟩
  | publish key value i =>
      refine ⟨id, update_true, fun {b} hb => ⟨Function.update_of_ne ?_ _ _, rfl⟩⟩
      rintro rfl
      exact hb key rfl
  | _ => exact ⟨id, id, fun _ => ⟨rfl, rfl⟩⟩

/-- A step keeps the bucket a thread fills, gives it up, or claims one that
was not occupied. -/
theorem Effect.filling {B : Table K} {m m' : Mem K V} {pc pc' : PC K V}
    {ev : Option (Event K V)} (he : Effect B m pc m' pc' ev) :
    pc'.filling B = pc.filling B ∨ pc'.filling B = none
      ∨ ∃ k b, pc'.filling B = some (k, b) ∧ m.occupied b = false := by
  cases he with
  | claim key value i h => exact Or.inr (Or.inr ⟨_, _, rfl, h⟩)
  | start op => cases op <;> exact Or.inr (Or.inl rfl)
  | stay | writeKey | writeValue => exact Or.inl rfl
  | _ => exact Or.inr (Or.inl rfl)

/-- A bucket becomes ready with the key of its filler. -/
theorem Effect.key_of_ready {B : Table K} {m m' : Mem K V} {pc pc' : PC K V}
    {ev : Option (Event K V)} (he : Effect B m pc m' pc' ev) (hloc : Local B m pc)
    {k : K} {b : ℕ} (hfill : pc.filling B = some (k, b)) (hold : m.ready b = false)
    (hnew : m'.ready b = true) : m'.key b = k := by
  cases he with
  | publish key value i =>
      cases hfill
      exact hloc.2.2
  | _ => exact absurd (hold.symm.trans hnew) Bool.false_ne_true

/-- An insert returns true by setting `ready` in its bucket. -/
theorem Effect.of_inserted {B : Table K} {m m' : Mem K V} {pc pc' : PC K V} {key : K}
    {value : V} (he : Effect B m pc m' pc' (some (.inserted key value))) :
    ∃ i, pc = .insert key value i .publish ∧ m'.ready (B.bucket key i) = true
      ∧ m'.key (B.bucket key i) = m.key (B.bucket key i) := by
  cases he with
  | publish key value i => exact ⟨i, rfl, Function.update_self _ _ _, rfl⟩

/-- Where an insert is in its loop after a step. -/
theorem Effect.probe {B : Table K} {m m' : Mem K V} {pc pc' : PC K V}
    {ev : Option (Event K V)} (he : Effect B m pc m' pc' ev) {key : K} {value : V} {i : ℕ}
    {ipc : InsertPC} (hpc' : pc' = .insert key value i ipc) :
    i = 0 ∨ (∃ ipc', pc = .insert key value i ipc')
      ∨ ∃ j ipc', i = j + 1 ∧ pc = .insert key value j ipc'
        ∧ Rejects m key (B.bucket key j) ipc' := by
  subst hpc'
  generalize hpc : PC.insert key value i ipc = pc' at he
  cases he with
  | stay => exact Or.inr (Or.inl ⟨ipc, hpc.symm⟩)
  | start op =>
      cases op <;> cases hpc
      exact Or.inl rfl
  | next key value j ipc' h hi =>
      cases hpc
      exact Or.inr (Or.inr ⟨j, ipc', rfl, rfl, h⟩)
  | occupied | vacant | ready | claim | writeKey | writeValue =>
      cases hpc
      exact Or.inr (Or.inl ⟨_, rfl⟩)
  | _ => cases hpc

/-- Buckets only ever come to belong to a key by being claimed. -/
structure Grows (B : Table K) (c c' : Config ι (Mem K V) (PC K V)) : Prop where
  occupied : ∀ {b}, c.mem.occupied b = true → c'.mem.occupied b = true
  belongs : ∀ {b k}, c.mem.occupied b = true → Belongs B c' b k → Belongs B c b k

theorem Passed.mono {B : Table K} {c c' : Config ι (Mem K V) (PC K V)} {k : K} {i : ℕ}
    (h : Passed B c k i) (hg : Grows B c c') : Passed B c' k i := by
  intro j hj
  obtain ⟨hocc, hnot⟩ := h j hj
  exact ⟨hg.occupied hocc, fun hb => hnot (hg.belongs hocc hb)⟩

section Step

variable {B : Table K} {c : Config ι (Mem K V) (PC K V)}
  {H : List (ι × Event K V)} {p : ι} {m : Mem K V} {pc : PC K V}
  {ev : Option (Event K V)}

/-- A bucket ready after the step was so before with the same key, or has
been published by the thread that filled it. -/
theorem Buckets.ready_cases (h : Buckets B c) (he : Effect B c.mem (c.pc p) m pc ev) {b : ℕ}
    (hb : m.ready b = true) :
    (c.mem.ready b = true ∧ m.key b = c.mem.key b)
      ∨ (c.pc p).filling B = some (m.key b, b) := by
  by_cases hout : ∀ k, (c.pc p).filling B ≠ some (k, b)
  · obtain ⟨hready, hkey⟩ := he.frame.outside hout
    exact Or.inl ⟨hready ▸ hb, hkey⟩
  · simp only [ne_eq, not_forall, not_not] at hout
    obtain ⟨k, hk⟩ := hout
    have hkey := he.key_of_ready (h.locals p) hk (h.of_filling hk).2 hb
    exact Or.inr (hkey ▸ hk)

/-- What is ready stays so, with its key. -/
theorem Buckets.ready_keep (h : Buckets B c) (he : Effect B c.mem (c.pc p) m pc ev) {b : ℕ}
    (hb : c.mem.ready b = true) : m.ready b = true ∧ m.key b = c.mem.key b := by
  refine ⟨he.frame.ready hb, (he.frame.outside fun k hk => ?_).2⟩
  have := (h.of_filling hk).2
  exact absurd (this.symm.trans hb) Bool.false_ne_true

variable [DecidableEq ι]

theorem Buckets.grows (h : Buckets B c) (he : Effect B c.mem (c.pc p) m pc ev) :
    Grows B c ⟨m, Function.update c.pc p pc⟩ := by
  refine ⟨he.frame.occupied, fun {b k} hocc hb => ?_⟩
  rcases hb with ⟨hready, rfl⟩ | ⟨q, hq⟩
  · rcases h.ready_cases he hready with ⟨hold, hkey⟩ | hfill
    · exact Or.inl ⟨hold, hkey.symm⟩
    · exact Or.inr ⟨p, hfill⟩
  · by_cases hqp : q = p
    · subst hqp
      simp only [Function.update_self] at hq
      rcases he.filling with heq | hnone | ⟨k', b', hsome, hvac⟩
      · exact Or.inr ⟨q, heq ▸ hq⟩
      · rw [hnone] at hq
        cases hq
      · rw [hsome] at hq
        cases hq
        exact absurd (hvac.symm.trans hocc) Bool.false_ne_true
    · simp only [Function.update_of_ne hqp] at hq
      exact Or.inr ⟨q, hq⟩

omit [DecidableEq ι] in
/-- What other threads know survives the step. -/
theorem Buckets.others (h : Buckets B c) (he : Effect B c.mem (c.pc p) m pc ev) {q : ι}
    (hqp : q ≠ p) : Local B m (c.pc q) := by
  have hf := he.frame
  have hloc := h.locals q
  have hown : ∀ {k b}, (c.pc q).filling B = some (k, b) →
      m.ready b = c.mem.ready b ∧ m.key b = c.mem.key b :=
    fun hq => hf.outside fun k hp => hqp (h.filling_inj hq hp)
  generalize hpc : c.pc q = pc' at hloc hown
  rcases pc' with _ | ⟨key, value, i, _ | _ | _ | _ | _ | _ | _⟩ | _ <;> try trivial
  · exact hf.occupied hloc
  · exact ⟨hf.occupied hloc.1, hf.ready hloc.2⟩
  · obtain ⟨hready, -⟩ := hown rfl
    exact ⟨hf.occupied hloc.1, hready.trans hloc.2⟩
  · obtain ⟨hready, hkey⟩ := hown rfl
    exact ⟨hf.occupied hloc.1, hready.trans hloc.2.1, hkey.trans hloc.2.2⟩
  · obtain ⟨hready, hkey⟩ := hown rfl
    exact ⟨hf.occupied hloc.1, hready.trans hloc.2.1, hkey.trans hloc.2.2⟩

omit [DecidableEq ι] in
/-- What the thread itself knows after the step. -/
theorem Buckets.own (h : Buckets B c) (he : Effect B c.mem (c.pc p) m pc ev) : Local B m pc := by
  have hloc := h.locals p
  generalize hpc : c.pc p = pc₀ at he hloc
  cases he with
  | stay => exact hloc
  | start op => cases op <;> trivial
  | occupied key value i h => exact h
  | ready key value i h => exact ⟨hloc, h⟩
  | claim key value i hvac =>
      refine ⟨Function.update_self _ _ _, ?_⟩
      by_contra hready
      have := h.occupied (by simpa using hready)
      exact absurd (hvac.symm.trans this) Bool.false_ne_true
  | writeKey key value i => exact ⟨hloc.1, hloc.2, Function.update_self _ _ _⟩
  | writeValue key value i => exact hloc
  | _ => trivial

omit [DecidableEq ι] in
/-- An insert moves on from a bucket that is not its key's. -/
theorem Inv.passed_next (h : Inv B c H) {key : K} {value : V} {i : ℕ} {ipc : InsertPC}
    (hpc : c.pc p = .insert key value i ipc)
    (hrej : Rejects c.mem key (B.bucket key i) ipc)
    (hnot : ¬ Belongs B c (B.bucket key i) key) : Passed B c key (i + 1) := by
  have hocc : c.mem.occupied (B.bucket key i) = true := by
    have hloc := h.locals p
    rw [hpc] at hloc
    cases ipc with
    | loadReady => exact hloc
    | compareKey => exact hloc.1
    | cas => exact hrej
    | _ => exact hrej.elim
  intro j hj
  rcases Nat.lt_succ_iff_lt_or_eq.mp hj with hlt | rfl
  · exact h.probes hpc j hlt
  · exact ⟨hocc, hnot⟩

theorem Buckets.step (h : Buckets B c) (he : Effect B c.mem (c.pc p) m pc ev) :
    Buckets B ⟨m, Function.update c.pc p pc⟩ where
  locals := (Function.forall_update_iff c.pc fun _ pc => Local B m pc).mpr
    ⟨h.own he, fun _ hqp => h.others he hqp⟩
  fillers := by
    simp only [map_update (fun pc => ((PC.filling B pc).map Prod.snd))]
    rcases he.filling with heq | hnone | ⟨k, b, hsome, hvac⟩
    · rw [heq, Function.update_eq_self]
      exact h.fillers
    · rw [hnone]
      exact h.fillers.release p
    · rw [hsome]
      refine h.fillers.claim fun q hq => ?_
      obtain ⟨⟨k', b'⟩, hfill, hb⟩ := Option.map_eq_some_iff.mp hq
      obtain rfl : b' = b := hb
      exact absurd (hvac.symm.trans (h.of_filling hfill).1) Bool.false_ne_true
  occupied := fun {b} hb => by
    rcases h.ready_cases he hb with ⟨hold, -⟩ | hfill
    · exact he.frame.occupied (h.occupied hold)
    · exact he.frame.occupied (h.of_filling hfill).1

theorem Inv.step (h : Inv B c H) (he : Effect B c.mem (c.pc p) m pc ev)
    (hnot : pc ≠ c.pc p → ∀ key value i ipc, c.pc p = .insert key value i ipc →
      Rejects c.mem key (B.bucket key i) ipc → ¬ Belongs B c (B.bucket key i) key) :
    Inv B ⟨m, Function.update c.pc p pc⟩ (H ++ (ev.map (Prod.mk p)).toList) where
  locals := (h.buckets.step he).locals
  fillers := (h.buckets.step he).fillers
  occupied := (h.buckets.step he).occupied
  probes := fun {q key value i ipc} hq => by
    have hgrow := h.buckets.grows he
    by_cases hqp : q = p
    · subst hqp
      simp only [Function.update_self] at hq
      rcases he.probe hq with rfl | ⟨ipc', hpc⟩ | ⟨j, ipc', rfl, hpc, hrej⟩
      · exact fun j hj => absurd hj (Nat.not_lt_zero j)
      · exact (h.probes hpc).mono hgrow
      · have hmoved : pc ≠ c.pc q := by
          rw [hq, hpc]
          simp
        exact (h.passed_next hpc hrej (hnot hmoved key value j ipc' hpc hrej)).mono hgrow
    · simp only [Function.update_of_ne hqp] at hq
      exact (h.probes hq).mono hgrow
  home := fun {b} hb => by
    have hgrow := h.buckets.grows he
    rcases h.buckets.ready_cases he hb with ⟨hold, hkey⟩ | hfill
    · obtain ⟨i, hi, hpassed⟩ := h.home hold
      rw [← hkey] at hi hpassed
      exact ⟨i, hi, hpassed.mono hgrow⟩
    · obtain ⟨i, hi, hpassed⟩ := h.of_filling hfill
      exact ⟨i, hi, hpassed.mono hgrow⟩
  log := fun {q key value} hq => by
    rcases List.mem_append.mp hq with hold | hnew
    · obtain ⟨b, hb, rfl⟩ := h.log hold
      obtain ⟨hready, hkey⟩ := h.buckets.ready_keep he hb
      exact ⟨b, hready, hkey⟩
    · obtain ⟨e, rfl, he'⟩ : ∃ e, ev = some e ∧ (q, Event.inserted key value) = (p, e) := by
        cases ev with
        | none => simp at hnew
        | some e => exact ⟨e, rfl, by simpa using hnew⟩
      obtain ⟨rfl, rfl⟩ := Prod.mk.inj he'
      obtain ⟨i, hpc, hready, hkey⟩ := he.of_inserted
      have hloc := h.locals q
      rw [hpc] at hloc
      exact ⟨_, hready, hkey.trans hloc.2.2⟩

end Step

/-! ## Runs -/

/-- The key and the bucket of an insert that the step makes pass over the
bucket without comparing it: the bucket is not ready, or its compare-exchange
is lost. -/
def passing (B : Table K) (m : Mem K V) : PC K V → Choice (Op K V) → Option (K × ℕ)
  | _, .call _ => none
  | .insert key _ i .loadReady, _ =>
      if m.ready (B.bucket key i) then none else some (key, B.bucket key i)
  | .insert key _ i .cas, _ =>
      if m.occupied (B.bucket key i) then some (key, B.bucket key i) else none
  | _, _ => none

/-- The bucket a step passes over uncompared does not belong to the key of
the insert. -/
def Watchful (B : Table K) (c : Config ι (Mem K V) (PC K V)) (a : ι × Choice (Op K V)) :
    Prop :=
  ∀ x ∈ passing B c.mem (c.pc a.1) a.2, ¬ Belongs B c x.2 x.1

instance [Fintype ι] [DecidableEq K] (B : Table K) (c : Config ι (Mem K V) (PC K V))
    (b : ℕ) (k : K) : Decidable (Belongs B c b k) :=
  inferInstanceAs (Decidable (_ ∨ ∃ _, _))

instance [Fintype ι] [DecidableEq K] (B : Table K) (c : Config ι (Mem K V) (PC K V))
    (a : ι × Choice (Op K V)) : Decidable (Watchful B c a) :=
  inferInstanceAs (Decidable (∀ x ∈ passing B c.mem (c.pc a.1) a.2, _))

/-- At most one insert of a key has returned true, and no two buckets that
are ready hold the same key. -/
def KeysUnique [DecidableEq ι] (B : Table K)
    (S : System ι (Mem K V) (PC K V) (Choice (Op K V)) (Event K V))
    (sched : ℕ → ι × Choice (Op K V)) (n : ℕ) : Prop :=
  (∀ i j p q key value value', i < n → j < n → S.Fires sched i p (.inserted key value) →
      S.Fires sched j q (.inserted key value') → i = j)
    ∧ ∀ b b', b < B.size → b' < B.size → (S.run sched n).mem.ready b = true →
      (S.run sched n).mem.ready b' = true →
      (S.run sched n).mem.key b = (S.run sched n).mem.key b' → b = b'

section Run

variable [DecidableEq ι] [DecidableEq K] {B : Table K} {key₀ : ℕ → K} {value₀ : ℕ → V}
  {sched : ℕ → ι × Choice (Op K V)}

omit [DecidableEq ι] in
/-- A watchful step moves on only from buckets that are not its key's: those
it does compare are ready with another key. -/
theorem Inv.not_belongs_of_watchful {c : Config ι (Mem K V) (PC K V)}
    {H : List (ι × Event K V)} {a : ι × Choice (Op K V)} (h : Inv B c H)
    (hmoved : (prog B c.mem (c.pc a.1) a.2).pc ≠ c.pc a.1) (hg : Watchful B c a)
    (key : K) (value : V) (i : ℕ) (ipc : InsertPC)
    (hpc : c.pc a.1 = .insert key value i ipc)
    (hrej : Rejects c.mem key (B.bucket key i) ipc) :
    ¬ Belongs B c (B.bucket key i) key := by
  have hcall : ∀ op, a.2 ≠ .call op := by
    intro op hop
    rw [hop, hpc] at hmoved
    exact hmoved rfl
  have hloc := h.locals a.1
  rw [hpc] at hloc
  cases ipc with
  | loadReady =>
      refine hg (key, B.bucket key i) ?_
      have hready : c.mem.ready (B.bucket key i) = false := hrej
      rw [hpc]
      cases hch : a.2 with
      | call op => exact absurd hch (hcall op)
      | go => simp [passing, hready]
      | fault => simp [passing, hready]
  | cas =>
      refine hg (key, B.bucket key i) ?_
      have hocc : c.mem.occupied (B.bucket key i) = true := hrej
      rw [hpc]
      cases hch : a.2 with
      | call op => exact absurd hch (hcall op)
      | go => simp [passing, hocc]
      | fault => simp [passing, hocc]
  | compareKey =>
      rintro (⟨-, hkey⟩ | ⟨q, hq⟩)
      · exact hrej hkey
      · have hnot := (h.buckets.of_filling hq).2
        exact absurd (hnot.symm.trans hloc.2) Bool.false_ne_true
  | _ => exact hrej.elim

theorem inv_run {n : ℕ}
    (hn : ∀ i, i < n → Watchful B ((system B ι key₀ value₀).run sched i) (sched i)) :
    Inv B ((system B ι key₀ value₀).run sched n)
      ((system B ι key₀ value₀).history sched n) := by
  refine (system B ι key₀ value₀).invariant_of_guard (G := fun c _ a => Watchful B c a)
    ?_ (fun c H a hg h => ?_) hn
  · refine ⟨fun _ => trivial, nofun, nofun, nofun, nofun, nofun⟩
  · refine h.step (prog_effect c.mem (c.pc a.1) a.2) fun hmoved => ?_
    exact h.not_belongs_of_watchful hmoved hg

/-- An insert that returns true is the first of its key to do so. -/
theorem not_inserted_before {i j : ℕ} {p q : ι} {key : K} {value value' : V}
    (hn : ∀ l, l < j → Watchful B ((system B ι key₀ value₀).run sched l) (sched l))
    (hi : (system B ι key₀ value₀).Fires sched i p (.inserted key value))
    (hj : (system B ι key₀ value₀).Fires sched j q (.inserted key value')) : ¬ i < j := by
  intro hij
  have h := inv_run hn
  obtain ⟨b, hready, hkey⟩ := h.log (System.mem_history _ |>.mpr ⟨i, hij, hi⟩)
  obtain ⟨l, hpc, -, -⟩ := (System.effect_of_fires _ prog_effect hj).of_inserted
  have hfill : (((system B ι key₀ value₀).run sched j).pc q).filling B
      = some (key, B.bucket key l) := by
    rw [hpc]
    rfl
  -- the bucket that is ready and the one about to be are the same
  have hb := h.belongs_unique (Or.inl ⟨hready, hkey⟩) (Or.inr ⟨q, hfill⟩)
  have hnot := (h.buckets.of_filling hfill).2
  rw [← hb, hready] at hnot
  cases hnot

end Run

/-- In every run in which no insert passes over a bucket of its own key, keys
are unique. -/
theorem keysUnique_of_watchful [DecidableEq ι] [DecidableEq K] (B : Table K)
    (key₀ : ℕ → K) (value₀ : ℕ → V) (sched : ℕ → ι × Choice (Op K V)) (n : ℕ)
    (hn : ∀ i, i < n → Watchful B ((system B ι key₀ value₀).run sched i) (sched i)) :
    KeysUnique B (system B ι key₀ value₀) sched n := by
  refine ⟨?_, ?_⟩
  · intro i j p q key value value' hi hj hfi hfj
    rcases Nat.lt_trichotomy i j with hlt | heq | hgt
    · exact absurd hlt (not_inserted_before (fun l hl => hn l (by omega)) hfi hfj)
    · exact heq
    · exact absurd hgt (not_inserted_before (fun l hl => hn l (by omega)) hfj hfi)
  · intro b b' _ _ hb hb' hkey
    exact (inv_run hn).belongs_unique (Or.inl ⟨hb, hkey⟩) (Or.inl ⟨hb', rfl⟩)

/-- Two buckets, and a hash that sends every key to the first. -/
def twoBuckets : Table ℕ := ⟨2, by decide, by decide, fun _ => 0⟩

/-- An insert of 7 passes over the bucket that an insert of 5 has claimed but
not filled, and both end up in buckets of their own; a second insert of 5 is
then refused. -/
def distinctInserts : ℕ → Bool × Choice (Op ℕ ℕ) := fun i =>
  [(false, .call (.insert 5 1)), (false, .go), (false, .go),
    (true, .call (.insert 7 2)), (true, .go), (true, .go), (true, .go), (true, .go),
    (true, .go), (true, .go), (true, .go), (false, .go), (false, .go), (false, .go),
    (true, .call (.insert 5 3))].getD i (true, .go)

theorem keysUnique_of_watchful_distinctInserts :
    ((system twoBuckets Bool (fun _ => 0) fun _ => 0).Fires distinctInserts 10 true
        (.inserted 7 2)
      ∧ (system twoBuckets Bool (fun _ => 0) fun _ => 0).Fires distinctInserts 13 false
        (.inserted 5 1)
      ∧ (system twoBuckets Bool (fun _ => 0) fun _ => 0).Fires distinctInserts 17 true
        (.duplicate 5))
      ∧ KeysUnique twoBuckets (system twoBuckets Bool (fun _ => 0) fun _ => 0)
        distinctInserts 18 :=
  ⟨by decide +kernel, keysUnique_of_watchful twoBuckets (fun _ => 0) (fun _ => 0)
    distinctInserts 18 (by decide +kernel)⟩

/-- As above, but both inserts are of 5. -/
def racingInserts : ℕ → Bool × Choice (Op ℕ ℕ) := fun i =>
  [(false, .call (.insert 5 1)), (false, .go), (false, .go),
    (true, .call (.insert 5 2)), (true, .go), (true, .go), (true, .go), (true, .go),
    (true, .go), (true, .go), (true, .go)].getD i (false, .go)

/-- Both inserts return true, and both buckets are ready with key 5. -/
theorem not_keysUnique_racingInserts :
    ((system twoBuckets Bool (fun _ => 0) fun _ => 0).Fires racingInserts 10 true
        (.inserted 5 2)
      ∧ (system twoBuckets Bool (fun _ => 0) fun _ => 0).Fires racingInserts 13 false
        (.inserted 5 1)
      ∧ ∀ b, b < 2 →
        ((system twoBuckets Bool (fun _ => 0) fun _ => 0).run racingInserts 14).mem.ready b
            = true
          ∧ ((system twoBuckets Bool (fun _ => 0) fun _ => 0).run racingInserts 14).mem.key b
            = 5)
      ∧ ¬ KeysUnique twoBuckets (system twoBuckets Bool (fun _ => 0) fun _ => 0)
        racingInserts 14 := by
  refine ⟨by decide +kernel, fun h => ?_⟩
  have heq := h.1 10 13 true false 5 2 1 (by decide) (by decide) (by decide +kernel)
    (by decide +kernel)
  cases heq

end HashMap

end Lockless
