import Lockless.HashMapKeys

/-!
# Reads of the hash map

A find of a key leaves behind it only buckets that are ready with another
key, since it waits at a bucket that is claimed and not ready. What is ready
stays as it is. So the first bucket of a key that a find has returned is the
one every find of that key comes to, even where several inserts of the key
have filled buckets of their own.
-/

namespace Lockless

namespace HashMap

variable {ι K V : Type*}

/-! ## What a find has seen -/

/-- The buckets before the `i`th probe for `k` are ready with other keys. -/
def Scanned (B : Table K) (m : Mem K V) (k : K) (i : ℕ) : Prop :=
  ∀ j, j < i → m.ready (B.bucket k j) = true ∧ m.key (B.bucket k j) ≠ k

/-- What a find knows about the bucket it is at. -/
def Sees (m : Mem K V) (k : K) (b : ℕ) : FindPC → Prop
  | .loadOccupied => True
  | .loadReady => m.occupied b = true
  | .spin => m.occupied b = true
  | .compareKey => m.ready b = true
  | .readValue => m.ready b = true ∧ m.key b = k

/-- The bucket that finds of `k` come to holds `v`. -/
def Home (B : Table K) (m : Mem K V) (k : K) (v : V) : Prop :=
  ∃ i, i < B.size ∧ Scanned B m k i ∧ m.ready (B.bucket k i) = true
    ∧ m.key (B.bucket k i) = k ∧ m.value (B.bucket k i) = v

/-- Buckets stay occupied, and ready ones as they are. -/
structure Kept (m m' : Mem K V) : Prop where
  occupied : ∀ {b}, m.occupied b = true → m'.occupied b = true
  ready : ∀ {b}, m.ready b = true →
    m'.ready b = true ∧ m'.key b = m.key b ∧ m'.value b = m.value b

section Memory

variable {B : Table K} {m m' : Mem K V} {k : K} {v w : V} {i : ℕ}

theorem Scanned.mono (h : Scanned B m k i) (hk : Kept m m') : Scanned B m' k i := by
  intro j hj
  obtain ⟨hready, hkey⟩ := h j hj
  obtain ⟨hready', hkey', -⟩ := hk.ready hready
  exact ⟨hready', hkey' ▸ hkey⟩

theorem Scanned.succ (h : Scanned B m k i) (hready : m.ready (B.bucket k i) = true)
    (hkey : m.key (B.bucket k i) ≠ k) : Scanned B m k (i + 1) := by
  intro j hj
  rcases Nat.lt_succ_iff_lt_or_eq.mp hj with hlt | rfl
  · exact h j hlt
  · exact ⟨hready, hkey⟩

theorem Sees.mono {b : ℕ} {pc : FindPC} (h : Sees m k b pc) (hk : Kept m m') :
    Sees m' k b pc := by
  cases pc with
  | loadOccupied => trivial
  | loadReady => exact hk.occupied h
  | spin => exact hk.occupied h
  | compareKey => exact (hk.ready h).1
  | readValue =>
      obtain ⟨hready, hkey⟩ := h
      obtain ⟨hready', hkey', -⟩ := hk.ready hready
      exact ⟨hready', hkey'.trans hkey⟩

theorem Home.mono (h : Home B m k v) (hk : Kept m m') : Home B m' k v := by
  obtain ⟨i, hi, hscan, hready, hkey, hvalue⟩ := h
  obtain ⟨hready', hkey', hvalue'⟩ := hk.ready hready
  exact ⟨i, hi, hscan.mono hk, hready', hkey'.trans hkey, hvalue'.trans hvalue⟩

/-- Finds of a key do not disagree. -/
theorem Home.unique (h : Home B m k v) (h' : Home B m k w) : v = w := by
  obtain ⟨i, -, hscan, -, hkey, hvalue⟩ := h
  obtain ⟨j, -, hscan', -, hkey', hvalue'⟩ := h'
  rcases Nat.lt_trichotomy i j with hlt | rfl | hgt
  · exact absurd hkey (hscan' i hlt).2
  · exact hvalue.symm.trans hvalue'
  · exact absurd hkey' (hscan j hgt).2

end Memory

/-! ## The invariant -/

structure Reads (B : Table K) (c : Config ι (Mem K V) (PC K V))
    (H : List (ι × Event K V)) : Prop where
  buckets : Buckets B c
  finds : ∀ {p k i pc}, c.pc p = .find k i pc →
    i < B.size ∧ Scanned B c.mem k i ∧ Sees c.mem k (B.bucket k i) pc
  written : ∀ {p key value i}, c.pc p = .insert key value i .publish →
    c.mem.value (B.bucket key i) = value
  logged : ∀ {b}, c.mem.ready b = true →
    ∃ p, (p, Event.inserted (c.mem.key b) (c.mem.value b)) ∈ H

section Step

variable {B : Table K} {c : Config ι (Mem K V) (PC K V)} {H : List (ι × Event K V)} {p : ι}
  {m : Mem K V} {pc : PC K V} {ev : Option (Event K V)}

/-- Values change only in the bucket a thread is filling. -/
theorem Effect.value_off {m m' : Mem K V} {pc pc' : PC K V}
    (he : Effect B m pc m' pc' ev) {b : ℕ} (hb : ∀ k, pc.filling B ≠ some (k, b)) :
    m'.value b = m.value b := by
  cases he with
  | writeValue key value i =>
      refine Function.update_of_ne ?_ _ _
      rintro rfl
      exact hb key rfl
  | _ => rfl

theorem Buckets.kept (h : Buckets B c) (he : Effect B c.mem (c.pc p) m pc ev) :
    Kept c.mem m := by
  refine ⟨he.frame.occupied, fun {b} hb => ?_⟩
  obtain ⟨hready, hkey⟩ := h.ready_keep he hb
  refine ⟨hready, hkey, he.value_off fun k hk => ?_⟩
  exact absurd ((h.of_filling hk).2.symm.trans hb) Bool.false_ne_true

/-- Where a find is after a step. -/
theorem Effect.find {m m' : Mem K V} {pc pc' : PC K V} (he : Effect B m pc m' pc' ev)
    {k : K} {i : ℕ} {fpc : FindPC} (hpc' : pc' = .find k i fpc) :
    pc = .find k i fpc ∨ (i = 0 ∧ fpc = .loadOccupied)
      ∨ (∃ fpc', pc = .find k i fpc' ∧ (Sees m k (B.bucket k i) fpc' →
        Sees m k (B.bucket k i) fpc))
      ∨ ∃ j, i = j + 1 ∧ i < B.size ∧ fpc = .loadOccupied ∧ pc = .find k j .compareKey
        ∧ m.key (B.bucket k j) ≠ k := by
  subst hpc'
  generalize hpc : PC.find k i fpc = pc' at he
  cases he with
  | stay => exact Or.inl rfl
  | start op =>
      cases op <;> cases hpc
      exact Or.inr (Or.inl ⟨rfl, rfl⟩)
  | findOccupied key i h =>
      cases hpc
      exact Or.inr (Or.inr (Or.inl ⟨_, rfl, fun _ => h⟩))
  | findReady key i pc hpc' h =>
      cases hpc
      exact Or.inr (Or.inr (Or.inl ⟨_, rfl, fun _ => h⟩))
  | findSpin key i pc hpc' h =>
      cases hpc
      refine Or.inr (Or.inr (Or.inl ⟨_, rfl, fun hsee => ?_⟩))
      rcases hpc' with rfl | rfl
      · exact hsee
      · exact hsee
  | findMatch key i h =>
      cases hpc
      exact Or.inr (Or.inr (Or.inl ⟨_, rfl, fun hsee => ⟨hsee, h⟩⟩))
  | findNext key j h hi =>
      cases hpc
      exact Or.inr (Or.inr (Or.inr ⟨j, rfl, hi, rfl, rfl, h⟩))
  | _ => cases hpc

/-- A bucket becomes ready with the key and the value of an insert that
returns true in the step. -/
theorem Reads.logged_step (h : Reads B c H) (he : Effect B c.mem (c.pc p) m pc ev) {b : ℕ}
    (hb : m.ready b = true) :
    ∃ q, (q, Event.inserted (m.key b) (m.value b)) ∈ H ++ (ev.map (Prod.mk p)).toList := by
  by_cases hold : c.mem.ready b = true
  · obtain ⟨q, hq⟩ := h.logged hold
    obtain ⟨-, hkey, hvalue⟩ := (h.buckets.kept he).ready hold
    exact ⟨q, List.mem_append_left _ (by rwa [hkey, hvalue])⟩
  · have hloc := h.buckets.locals p
    generalize hpc : c.pc p = pc₀ at he hloc
    cases he with
    | publish key value i =>
        have hbi : b = B.bucket key i := by
          by_contra hne
          refine hold (Eq.trans ?_ hb)
          exact (Function.update_of_ne hne _ _).symm
        subst hbi
        refine ⟨p, List.mem_append_right _ ?_⟩
        simp [hloc.2.2, h.written hpc]
    | _ => exact absurd hb hold

theorem Reads.step [DecidableEq ι] (h : Reads B c H)
    (he : Effect B c.mem (c.pc p) m pc ev) :
    Reads B ⟨m, Function.update c.pc p pc⟩ (H ++ (ev.map (Prod.mk p)).toList) where
  buckets := h.buckets.step he
  finds := fun {q k i fpc} hq => by
    have hkept := h.buckets.kept he
    have hold : ∀ {fpc'}, c.pc q = .find k i fpc' →
        (Sees c.mem k (B.bucket k i) fpc' → Sees c.mem k (B.bucket k i) fpc) →
        i < B.size ∧ Scanned B m k i ∧ Sees m k (B.bucket k i) fpc := by
      intro fpc' hpc hsee
      obtain ⟨hi, hscan, hsees⟩ := h.finds hpc
      exact ⟨hi, hscan.mono hkept, (hsee hsees).mono hkept⟩
    by_cases hqp : q = p
    · subst hqp
      simp only [Function.update_self] at hq
      rcases he.find hq with hpc | ⟨rfl, rfl⟩ | ⟨fpc', hpc, hsee⟩ | ⟨j, rfl, hi, rfl, hpc, hkey⟩
      · exact hold hpc id
      · exact ⟨B.pos, fun j hj => absurd hj (Nat.not_lt_zero j), trivial⟩
      · exact hold hpc hsee
      · obtain ⟨-, hscan, hready⟩ := h.finds hpc
        exact ⟨hi, (hscan.succ hready hkey).mono hkept, trivial⟩
    · simp only [Function.update_of_ne hqp] at hq
      exact hold hq id
  written := fun {q key value i} hq => by
    by_cases hqp : q = p
    · subst hqp
      simp only [Function.update_self] at hq
      generalize hpc : c.pc q = pc₀ at he
      cases he with
      | stay => exact h.written (hpc.trans hq)
      | start op => cases op <;> cases hq
      | writeValue key value i =>
          cases hq
          exact Function.update_self _ _ _
      | _ => cases hq
    · simp only [Function.update_of_ne hqp] at hq
      have hfill : (c.pc q).filling B = some (key, B.bucket key i) := by rw [hq]; rfl
      have hoff : ∀ k, (c.pc p).filling B ≠ some (k, B.bucket key i) :=
        fun k hk => hqp (h.buckets.filling_inj hfill hk)
      exact (he.value_off hoff).trans (h.written hq)
  logged := h.logged_step he

end Step

/-! ## What a find returns -/

section Returns

variable {B : Table K} {c : Config ι (Mem K V) (PC K V)} {H : List (ι × Event K V)} {p : ι}
  {m : Mem K V} {pc : PC K V} {k : K} {v : V}

theorem Reads.home_of_found (h : Reads B c H)
    (he : Effect B c.mem (c.pc p) m pc (some (.found k v))) : Home B c.mem k v := by
  generalize hpc : c.pc p = pc₀ at he
  cases he with
  | findRead key i =>
      obtain ⟨hi, hscan, hready, hkey⟩ := h.finds hpc
      exact ⟨i, hi, hscan, hready, hkey, rfl⟩

/-- A find that returns false has seen a bucket of its probe sequence not
occupied, or all of them ready with other keys. -/
theorem Reads.of_absent (h : Reads B c H)
    (he : Effect B c.mem (c.pc p) m pc (some (.absent k))) :
    (∃ i, Scanned B c.mem k i ∧ c.mem.occupied (B.bucket k i) = false)
      ∨ Scanned B c.mem k B.size := by
  generalize hpc : c.pc p = pc₀ at he
  cases he with
  | findVacant key i hvac => exact Or.inl ⟨i, (h.finds hpc).2.1, hvac⟩
  | findEnd key i hkey hi =>
      obtain ⟨hlt, hscan, hready⟩ := h.finds hpc
      have hsize : i + 1 = B.size := by omega
      exact Or.inr (hsize ▸ hscan.succ hready hkey)

/-- If the buckets up to one that is ready with the key are occupied, a find
does not return false. -/
theorem Reads.not_absent (h : Reads B c H) {i : ℕ} (hi : i < B.size)
    (hocc : ∀ j, j < i → c.mem.occupied (B.bucket k j) = true)
    (hready : c.mem.ready (B.bucket k i) = true) (hkey : c.mem.key (B.bucket k i) = k) :
    ¬ Effect B c.mem (c.pc p) m pc (some (.absent k)) := by
  intro he
  rcases h.of_absent he with ⟨j, hscan, hvac⟩ | hscan
  · rcases Nat.lt_trichotomy j i with hlt | rfl | hgt
    · exact absurd (hvac.symm.trans (hocc j hlt)) Bool.false_ne_true
    · exact absurd (hvac.symm.trans (h.buckets.occupied hready)) Bool.false_ne_true
    · exact (hscan i hgt).2 hkey
  · exact (hscan i hi).2 hkey

theorem Reads.not_absent_of_home (h : Reads B c H) (hhome : Home B c.mem k v) :
    ¬ Effect B c.mem (c.pc p) m pc (some (.absent k)) := by
  obtain ⟨i, hi, hscan, hready, hkey, -⟩ := hhome
  exact h.not_absent hi (fun j hj => h.buckets.occupied (hscan j hj).1) hready hkey

end Returns

/-! ## Runs -/

/-- The call a thread is in. -/
def PC.op : PC K V → Option (Op K V)
  | .idle => none
  | .insert key value _ _ => some (.insert key value)
  | .find key _ _ => some (.find key)

theorem Effect.op {B : Table K} {m m' : Mem K V} {pc pc' : PC K V}
    {ev : Option (Event K V)} (he : Effect B m pc m' pc' ev) {op : Op K V}
    (hop : pc'.op = some op) : pc.op = some op ∨ pc = .idle := by
  cases he with
  | stay => exact Or.inl hop
  | start op => exact Or.inr rfl
  | tableFull | duplicate | throwKey | throwValue | publish => cases hop
  | findVacant | findEnd | findRead => cases hop
  | _ => exact Or.inl hop

theorem prog_op [DecidableEq K] {B : Table K} (m : Mem K V) (pc : PC K V)
    (ch : Choice (Op K V)) (op : Op K V) (h : (prog B m pc ch).pc.op = some op) :
    pc.op = some op ∨ pc = .idle ∧ ch = .call op := by
  rcases (prog_effect m pc ch).op h with hold | rfl
  · exact Or.inl hold
  · cases ch with
    | call op' =>
        cases op' <;> cases h <;> exact Or.inr ⟨rfl, rfl⟩
    | go => cases h
    | fault => cases h

section Run

variable [DecidableEq ι] [DecidableEq K] {B : Table K} {key₀ : ℕ → K} {value₀ : ℕ → V}
  {sched : ℕ → ι × Choice (Op K V)}

theorem reads_run (n : ℕ) : Reads B ((system B ι key₀ value₀).run sched n)
    ((system B ι key₀ value₀).history sched n) := by
  refine (system B ι key₀ value₀).invariant ⟨⟨fun _ => trivial, ?_, ?_⟩, ?_, ?_, ?_⟩
    (fun c H a h => h.step (prog_effect c.mem (c.pc a.1) a.2)) sched n
  · intro p q b hp
    cases hp
  · intro b hb
    cases hb
  · intro p k i pc hpc
    cases hpc
  · intro p key value i hpc
    cases hpc
  · intro b hb
    cases hb

theorem kept_run {i j : ℕ} (hij : i ≤ j) : Kept ((system B ι key₀ value₀).run sched i).mem
    ((system B ι key₀ value₀).run sched j).mem := by
  induction j, hij using Nat.le_induction with
  | base => exact ⟨id, fun hb => ⟨hb, rfl, rfl⟩⟩
  | succ j _ ih =>
      have hstep : Kept ((system B ι key₀ value₀).run sched j).mem
          ((system B ι key₀ value₀).run sched (j + 1)).mem :=
        (reads_run j).buckets.kept (p := (sched j).1) (prog_effect _ _ (sched j).2)
      refine ⟨fun hb => hstep.occupied (ih.occupied hb), fun hb => ?_⟩
      obtain ⟨h1, h2, h3⟩ := ih.ready hb
      obtain ⟨h1', h2', h3'⟩ := hstep.ready h1
      exact ⟨h1', h2'.trans h2, h3'.trans h3⟩

theorem home_of_fires {i : ℕ} {p : ι} {k : K} {v : V}
    (h : (system B ι key₀ value₀).Fires sched i p (.found k v)) :
    Home B ((system B ι key₀ value₀).run sched i).mem k v :=
  (reads_run i).home_of_found ((system B ι key₀ value₀).effect_of_fires prog_effect h)

theorem exists_inserted_of_home {n : ℕ} {k : K} {v : V}
    (h : Home B ((system B ι key₀ value₀).run sched n).mem k v) :
    ∃ j q, j < n ∧ (system B ι key₀ value₀).Fires sched j q (.inserted k v) := by
  obtain ⟨i, -, -, hready, hkey, hvalue⟩ := h
  obtain ⟨q, hq⟩ := (reads_run n).logged hready
  rw [hkey, hvalue] at hq
  obtain ⟨j, hj, hfires⟩ := (System.mem_history _).mp hq
  exact ⟨j, q, hj, hfires⟩

/-- What finds of a key come to was the argument of an insert. -/
theorem exists_calls_of_home {n : ℕ} {k : K} {v : V}
    (h : Home B ((system B ι key₀ value₀).run sched n).mem k v) :
    ∃ j q, j < n ∧ (system B ι key₀ value₀).Calls .idle sched j q (.insert k v) := by
  obtain ⟨l, q, hl, hfires⟩ := exists_inserted_of_home h
  obtain ⟨_, hpc, -, -⟩ := (System.effect_of_fires _ prog_effect hfires).of_inserted
  have hop : (((system B ι key₀ value₀).run sched l).pc q).op = some (.insert k v) := by
    rw [hpc]
    rfl
  obtain ⟨j, hj, hcall, -⟩ := System.exists_within rfl (fun _ => rfl) prog_op hop
  exact ⟨j, q, by omega, hcall⟩

end Run

/-- Any two finds of a key that return true return the same value, the value
was the argument of an insert of the key called before, and once a find of
the key has returned true none returns false any more. -/
theorem read_stability [DecidableEq ι] [DecidableEq K] (B : Table K) (key₀ : ℕ → K)
    (value₀ : ℕ → V) (sched : ℕ → ι × Choice (Op K V)) :
    (∀ i j p q k v w, (system B ι key₀ value₀).Fires sched i p (.found k v) →
        (system B ι key₀ value₀).Fires sched j q (.found k w) → v = w)
      ∧ (∀ i p k v, (system B ι key₀ value₀).Fires sched i p (.found k v) →
        ∃ j q, j < i ∧ (system B ι key₀ value₀).Calls .idle sched j q (.insert k v))
      ∧ ∀ i j p q k v, i < j → (system B ι key₀ value₀).Fires sched i p (.found k v) →
        ¬ (system B ι key₀ value₀).Fires sched j q (.absent k) := by
  refine ⟨fun i j p q k v w hi hj => ?_, fun i p k v hi => ?_,
    fun i j p q k v hij hi hj => ?_⟩
  · have hv := (home_of_fires hi).mono (kept_run (le_max_left i j))
    have hw := (home_of_fires hj).mono (kept_run (le_max_right i j))
    exact hv.unique hw
  · exact exists_calls_of_home (home_of_fires hi)
  · have hhome := (home_of_fires hi).mono (kept_run hij.le)
    exact (reads_run j).not_absent_of_home hhome (System.effect_of_fires _ prog_effect hj)

end HashMap

end Lockless
