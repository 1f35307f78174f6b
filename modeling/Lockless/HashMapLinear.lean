import Lockless.HashMapQuiet
import Lockless.Linearize

/-!
# The hash map is linearizable where its keys are unique

In a run in which no copy throws and no insert passes over a bucket of its own key, all calls
can be put in one order, in which each stands between its start and its return, such that they
answer as those of a list of at most `Size` bindings with different keys.

An insert that returns true commits with the compare-exchange that claims its bucket, before
it has written anything: from then on its key is taken, and a find of the key waits for it. The
calls that return false, and the finds that return true, commit with the step that returns.
A find that returns false at a free bucket is right at that instant, since no bucket of its key
can lie behind a free one.
-/

namespace Lockless

namespace HashMap

variable {ι K V : Type*}

/-! ## Claims -/

/-- The key, the value and the bucket of an insert that is filling one. -/
def PC.storing (B : Table K) : PC K V → Option (K × V × ℕ)
  | .insert key value i .writeKey => some (key, value, B.bucket key i)
  | .insert key value i .writeValue => some (key, value, B.bucket key i)
  | .insert key value i .publish => some (key, value, B.bucket key i)
  | _ => none

/-- The binding for which a step from the one control state to the other claims a bucket. -/
def PC.claims : PC K V → PC K V → Option (K × V)
  | .insert key value _ .cas, .insert _ _ _ .writeKey => some (key, value)
  | _, _ => none

/-- What a thread that has committed is going to return. -/
def PC.owes (B : Table K) (r : V) (pc : PC K V) : Option (Bool × V) :=
  (pc.storing B).map fun _ => (true, r)

/-- What a step that returns commits, but for an insert that has claimed a bucket. -/
def Event.commits (r : V) : Event K V → Option (Bool × V)
  | .inserted _ _ => none
  | e => e.returned r

/-- What a step commits. -/
def commits (r : V) (pc pc' : PC K V) (ev : Option (Event K V)) : Option (Bool × V) :=
  ((pc.claims pc').map fun _ => (true, r)).or (ev.bind (Event.commits r))

/-- Bucket `b` is to have `v` for `k`: it is ready with them, or claimed for them. -/
def Stores (B : Table K) (c : Config ι (Mem K V) (PC K V)) (b : ℕ) (k : K) (v : V) : Prop :=
  (c.mem.ready b = true ∧ c.mem.key b = k ∧ c.mem.value b = v)
    ∨ ∃ p, (c.pc p).storing B = some (k, v, b)

section Claims

variable {B : Table K} {m m' : Mem K V} {pc pc' : PC K V} {ev : Option (Event K V)} {k : K}
  {v : V} {b : ℕ}

theorem PC.claims_idle (pc : PC K V) : pc.claims .idle = none := by
  rcases pc with _ | ⟨_, _, _, _ | _ | _ | _ | _ | _ | _⟩ | _ <;> rfl

theorem PC.filling_of_storing (h : pc.storing B = some (k, v, b)) :
    pc.filling B = some (k, b) := by
  rcases pc with _ | ⟨key, value, i, _ | _ | _ | _ | _ | _ | _⟩ | _ <;> cases h <;> rfl

theorem Stores.belongs {c : Config ι (Mem K V) (PC K V)} (h : Stores B c b k v) :
    Belongs B c b k := by
  rcases h with ⟨hready, hkey, -⟩ | ⟨p, hp⟩
  · exact Or.inl ⟨hready, hkey⟩
  · exact Or.inr ⟨p, PC.filling_of_storing hp⟩

/-- A claim takes a bucket that was not occupied. -/
theorem Effect.of_claims (he : Effect B m pc m' pc' ev) (h : pc.claims pc' = some (k, v)) :
    ∃ i, pc = .insert k v i .cas ∧ pc'.storing B = some (k, v, B.bucket k i)
      ∧ m.occupied (B.bucket k i) = false
      ∧ m'.occupied = Function.update m.occupied (B.bucket k i) true := by
  cases he with
  | claim key value i hvac =>
      cases h
      exact ⟨i, rfl, rfl, hvac, rfl⟩
  | stay => rcases pc with _ | ⟨_, _, _, _ | _ | _ | _ | _ | _ | _⟩ | _ <;> cases h
  | next key value i ipc => cases ipc <;> cases h
  | tableFull => rw [PC.claims_idle] at h; cases h
  | _ => cases h

theorem Effect.occupied_eq (he : Effect B m pc m' pc' ev) (h : pc.claims pc' = none) :
    m'.occupied = m.occupied := by
  cases he with
  | claim key value i hvac => cases h
  | _ => rfl

/-- A thread goes on filling its bucket, or has just claimed one. -/
theorem Effect.storing (he : Effect B m pc m' pc' ev) (h : pc'.storing B = some (k, v, b)) :
    pc.storing B = some (k, v, b) ∨ pc.claims pc' = some (k, v) := by
  cases he with
  | claim key value i hvac =>
      cases h
      exact Or.inr rfl
  | start op => cases op <;> cases h
  | stay | writeKey | writeValue => exact Or.inl h
  | _ => cases h

end Claims

/-! ## What a step stores -/

section Step

variable {B : Table K} {c : Config ι (Mem K V) (PC K V)} {H : List (ι × Event K V)} {p : ι}
  {m : Mem K V} {pc : PC K V} {ev : Option (Event K V)} {k : K} {v : V} {b i : ℕ}

/-- A bucket that is ready now is one that has been published with the value of its insert. -/
theorem Reads.stores_of_ready (h : Reads B c H) (he : Effect B c.mem (c.pc p) m pc ev)
    (hready : m.ready b = true) : Stores B c b (m.key b) (m.value b) := by
  by_cases hold : c.mem.ready b = true
  · obtain ⟨-, hkey, hvalue⟩ := (h.buckets.kept he).ready hold
    exact Or.inl ⟨hold, hkey.symm, hvalue.symm⟩
  · have hloc := h.buckets.locals p
    refine Or.inr ⟨p, ?_⟩
    generalize hpc : c.pc p = pc₀ at he hloc
    cases he with
    | publish key value i =>
        have hbi : b = B.bucket key i := by
          by_contra hne
          refine hold (Eq.trans ?_ hready)
          exact (Function.update_of_ne hne _ _).symm
        subst hbi
        simp only [PC.storing, hloc.2.2, h.written hpc]
    | _ => exact absurd hready hold

/-- An insert that does not throw goes on filling its bucket until it is ready. -/
theorem Reads.storing_keep (h : Reads B c H) (he : Effect B c.mem (c.pc p) m pc ev)
    (hthrow : ∀ k, ev ≠ some (.threw k)) (hs : (c.pc p).storing B = some (k, v, b)) :
    pc.storing B = some (k, v, b) ∨ m.ready b = true ∧ m.key b = k ∧ m.value b = v := by
  have hloc := h.buckets.locals p
  generalize hpc : c.pc p = pc₀ at he hloc hs
  cases he with
  | stay | writeKey | writeValue => exact Or.inl hs
  | throwKey key | throwValue key => exact absurd rfl (hthrow key)
  | publish key value i =>
      cases hs
      exact Or.inr ⟨Function.update_self _ _ _, hloc.2.2, h.written hpc⟩
  | next key value i ipc hrej | tableFull key value i ipc hrej =>
      cases ipc with
      | loadReady | compareKey | cas => cases hs
      | _ => exact hrej.elim
  | _ => cases hs

variable [DecidableEq ι]

/-- What is stored after a step was so before, but for the binding it claims a bucket for. -/
theorem Reads.stores_step (h : Reads B c H) (he : Effect B c.mem (c.pc p) m pc ev)
    (hthrow : ∀ k, ev ≠ some (.threw k)) :
    (∃ b, Stores B ⟨m, Function.update c.pc p pc⟩ b k v)
      ↔ (∃ b, Stores B c b k v) ∨ (c.pc p).claims pc = some (k, v) := by
  constructor
  · rintro ⟨b, ⟨hready, rfl, rfl⟩ | ⟨q, hq⟩⟩
    · exact Or.inl ⟨b, h.stores_of_ready he hready⟩
    · by_cases hqp : q = p
      · subst hqp
        simp only [Function.update_self] at hq
        exact (he.storing hq).imp_left fun hold => ⟨b, Or.inr ⟨q, hold⟩⟩
      · simp only [Function.update_of_ne hqp] at hq
        exact Or.inl ⟨b, Or.inr ⟨q, hq⟩⟩
  · rintro (⟨b, ⟨hready, rfl, rfl⟩ | ⟨q, hq⟩⟩ | hclaim)
    · obtain ⟨hready', hkey, hvalue⟩ := (h.buckets.kept he).ready hready
      exact ⟨b, Or.inl ⟨hready', hkey, hvalue⟩⟩
    · by_cases hqp : q = p
      · subst hqp
        refine ⟨b, (h.storing_keep he hthrow hq).symm.imp_right fun hnew => ⟨q, ?_⟩⟩
        simpa only [Function.update_self] using hnew
      · refine ⟨b, Or.inr ⟨q, ?_⟩⟩
        simpa only [Function.update_of_ne hqp] using hq
    · obtain ⟨i, -, hs, -⟩ := he.of_claims hclaim
      refine ⟨B.bucket k i, Or.inr ⟨p, ?_⟩⟩
      simpa only [Function.update_self] using hs

end Step

/-! ## The bindings -/

/-- The map has the bindings `s`, of which some may be in buckets that are not ready. -/
structure Binds [DecidableEq K] (B : Table K) (c : Config ι (Mem K V) (PC K V))
    (s : List (K × V)) : Prop where
  lookup_iff : ∀ {k v}, s.lookup k = some v ↔ ∃ b, Stores B c b k v
  length_eq : s.length = (marked B c.mem.occupied).card

section Bindings

variable {B : Table K} {c : Config ι (Mem K V) (PC K V)} {H : List (ι × Event K V)} {p : ι}
  {m : Mem K V} {pc : PC K V} {ev : Option (Event K V)} {s : List (K × V)} {k : K} {v : V}
  {i : ℕ}

theorem Buckets.occupied_of_belongs (h : Buckets B c) {b : ℕ} (hb : Belongs B c b k) :
    c.mem.occupied b = true := by
  rcases hb with ⟨hready, -⟩ | ⟨p, hp⟩
  · exact h.occupied hready
  · exact (h.of_filling hp).1

theorem Buckets.not_belongs_of_scanned (h : Buckets B c) (hscan : Scanned B c.mem k i) {j : ℕ}
    (hj : j < i) : ¬ Belongs B c (B.bucket k j) k := by
  obtain ⟨hready, hkey⟩ := hscan j hj
  rintro (⟨-, heq⟩ | ⟨p, hp⟩)
  · exact hkey heq
  · exact Bool.false_ne_true ((h.of_filling hp).2.symm.trans hready)

/-- No bucket of a key lies behind a free one. -/
theorem Inv.not_belongs_of_vacant (h : Inv B c H)
    (hvac : c.mem.occupied (B.bucket k i) = false)
    (hbefore : ∀ j, j < i → ¬ Belongs B c (B.bucket k j) k) (b : ℕ) : ¬ Belongs B c b k := by
  intro hb
  obtain ⟨j, rfl, hpassed⟩ := h.home_of_belongs hb
  rcases Nat.lt_trichotomy j i with hlt | rfl | hgt
  · exact hbefore j hlt hb
  · exact Bool.false_ne_true (hvac.symm.trans (h.buckets.occupied_of_belongs hb))
  · exact Bool.false_ne_true (hvac.symm.trans (hpassed i hgt).1)

theorem Inv.not_belongs_of_full (h : Inv B c H) (hscan : Scanned B c.mem k B.size) (b : ℕ) :
    ¬ Belongs B c b k := by
  intro hb
  obtain ⟨i, hi, rfl, -⟩ := h.exists_probe hb
  exact h.buckets.not_belongs_of_scanned hscan hi hb

variable [DecidableEq K]

theorem Binds.lookup_eq_none (h : Binds B c s) (hnot : ∀ b, ¬ Belongs B c b k) :
    s.lookup k = none := by
  rw [Option.eq_none_iff_forall_ne_some]
  intro v hv
  obtain ⟨b, hb⟩ := h.lookup_iff.mp hv
  exact hnot b hb.belongs

/-- An insert that claims a bucket is the first of its key. -/
theorem Binds.lookup_of_claim (h : Binds B c s) (hinv : Inv B c H)
    (hpc : c.pc p = .insert k v i .cas) (hvac : c.mem.occupied (B.bucket k i) = false) :
    s.lookup k = none :=
  h.lookup_eq_none (hinv.not_belongs_of_vacant hvac fun j hj => (hinv.probes hpc j hj).2)

theorem Binds.length_lt (h : Binds B c s) (hvac : c.mem.occupied (B.bucket k i) = false) :
    s.length < B.size :=
  h.length_eq ▸ card_marked_lt (B.bucket_lt k i) hvac

theorem Binds.length_of_full (h : Binds B c s) (hfull : Crossed B c.mem k B.size) :
    s.length = B.size :=
  h.length_eq.trans (card_marked_of_probes k hfull)

/-- The bindings after a step are those before it and the one it claims a bucket for. -/
theorem Binds.step [DecidableEq ι] (h : Binds B c s) (hinv : Inv B c H) (hr : Reads B c H)
    (he : Effect B c.mem (c.pc p) m pc ev) (hthrow : ∀ k, ev ≠ some (.threw k)) :
    Binds B ⟨m, Function.update c.pc p pc⟩ (s ++ ((c.pc p).claims pc).toList) := by
  cases hclaim : (c.pc p).claims pc with
  | none =>
      rw [Option.toList_none, List.append_nil]
      refine ⟨fun {k v} => ?_, ?_⟩
      · rw [h.lookup_iff, hr.stores_step he hthrow, hclaim]
        simp
      · rw [h.length_eq, he.occupied_eq hclaim]
  | some x =>
      obtain ⟨k, v⟩ := x
      obtain ⟨i, hpc, -, hvac, hocc⟩ := he.of_claims hclaim
      have hnone := h.lookup_of_claim hinv hpc hvac
      refine ⟨fun {k' v'} => ?_, ?_⟩
      · rw [hr.stores_step he hthrow, hclaim, ← h.lookup_iff, Option.toList_some,
          List.lookup_append]
        by_cases hk' : k' = k
        · subst hk'
          simp [hnone]
        · have hlast : List.lookup k' [(k, v)] = none := by
            rw [List.lookup_eq_none_iff]
            simpa using hk'
          rw [hlast, Option.or_none]
          simp [Ne.symm hk']
      · rw [hocc, card_marked_update (B.bucket_lt k i) hvac, ← h.length_eq, List.length_append,
          Option.toList_some, List.length_singleton]

end Bindings

/-! ## The commit points -/

section Commit

variable [DecidableEq K] {B : Table K} {c : Config ι (Mem K V) (PC K V)}
  {H : List (ι × Event K V)} {p : ι} {m m' : Mem K V} {pc pc' : PC K V}
  {ev : Option (Event K V)} {s : List (K × V)} {r : V}

omit [DecidableEq K] in
theorem PC.op_eq_none {pc : PC K V} : pc.op = none ↔ pc = .idle := by
  cases pc <;> simp [PC.op]

theorem makesCalls (B : Table K) (ι : Type*) (key₀ : ℕ → K) (value₀ : ℕ → V) :
    (system B ι key₀ value₀).MakesCalls PC.op where
  init := fun _ => rfl
  step := fun {m pc ch op} h => by
    rcases prog_op m pc ch op h with hold | ⟨rfl, hch⟩
    · exact Or.inl hold
    · exact Or.inr ⟨rfl, hch⟩

omit [DecidableEq K] in
/-- What the thread owes after a step that does not return. -/
theorem Effect.owes (he : Effect B m pc m' pc' ev) (hpc' : pc' ≠ .idle) :
    pc'.owes B r = (commits r pc pc' ev).or (pc.owes B r) := by
  cases he with
  | stay =>
      rcases pc with _ | ⟨_, _, _, _ | _ | _ | _ | _ | _ | _⟩ | _ <;> rfl
  | start op => cases op <;> rfl
  | next key value i ipc hrej =>
      cases ipc with
      | loadReady | compareKey | cas => rfl
      | _ => exact hrej.elim
  | tableFull | duplicate | throwKey | throwValue | publish => exact absurd rfl hpc'
  | findVacant | findEnd | findRead => exact absurd rfl hpc'
  | _ => rfl

omit [DecidableEq K] in
/-- A call that returns answers what it owes. -/
theorem Effect.returned {e : Event K V} (he : Effect B m pc m' pc' (some e))
    (hthrow : ∀ k, e ≠ .threw k) (hpc' : pc' = .idle) :
    e.returned r = (commits r pc pc' (some e)).or (pc.owes B r) := by
  cases he with
  | tableFull key value i ipc => cases ipc <;> rfl
  | throwKey key | throwValue key => exact absurd rfl (hthrow key)
  | _ => rfl

/-- A step that commits makes the operation of its call. -/
theorem Binds.commits (h : Binds B c s) (hinv : Inv B c H) (hr : Reads B c H)
    (he : Effect B c.mem (c.pc p) m pc ev) {a : Bool × V}
    (ha : HashMap.commits r (c.pc p) pc ev = some a) :
    (c.pc p).owes B r = none ∧ ∃ op, (c.pc p).op = some op
      ∧ boundedMap B.size r s op = (s ++ ((c.pc p).claims pc).toList, a) := by
  have hready := hr.buckets.locals p
  generalize hpc : c.pc p = pc₀ at he hready ha
  cases he with
  | claim key value i hvac =>
      cases ha
      exact ⟨rfl, _, rfl, if_pos ⟨h.lookup_of_claim hinv hpc hvac, h.length_lt hvac⟩⟩
  | tableFull key value i ipc hrej hi =>
      have hfull : Crossed B c.mem key B.size := by
        intro j hj
        rcases Nat.lt_or_ge j i with hlt | hge
        · exact (hinv.probes hpc j hlt).1
        · obtain rfl : j = i := by omega
          exact hr.buckets.occupied_of_rejects hpc hrej
      have hspec : boundedMap B.size r s (.insert key value) = (s, (false, r)) :=
        if_neg fun hroom => absurd hroom.2 (h.length_of_full hfull).not_lt
      cases ipc with
      | loadReady | compareKey | cas =>
          cases ha
          exact ⟨rfl, _, rfl, hspec.trans (by simp [PC.claims])⟩
      | _ => exact hrej.elim
  | duplicate key value i hkey =>
      have hlookup : s.lookup key = some _ :=
        h.lookup_iff.mpr ⟨_, Or.inl ⟨hready.2, hkey, rfl⟩⟩
      have hspec : boundedMap B.size r s (.insert key value) = (s, (false, r)) := by
        simp [boundedMap, hlookup]
      cases ha
      exact ⟨rfl, _, rfl, hspec.trans (by simp [PC.claims])⟩
  | findVacant key i hvac =>
      have hlookup : s.lookup key = none :=
        h.lookup_eq_none (hinv.not_belongs_of_vacant hvac fun j hj =>
          hr.buckets.not_belongs_of_scanned (hr.finds hpc).2.1 hj)
      cases ha
      exact ⟨rfl, _, rfl, by simp [boundedMap, hlookup, PC.claims]⟩
  | findEnd key i hkey hi =>
      obtain ⟨hlt, hscan, hready⟩ := hr.finds hpc
      have hsize : i + 1 = B.size := by omega
      have hlookup : s.lookup key = none :=
        h.lookup_eq_none (hinv.not_belongs_of_full (hsize ▸ hscan.succ hready hkey))
      cases ha
      exact ⟨rfl, _, rfl, by simp [boundedMap, hlookup, PC.claims]⟩
  | findRead key i =>
      obtain ⟨-, -, hready, hkey⟩ := hr.finds hpc
      have hlookup : s.lookup key = some _ :=
        h.lookup_iff.mpr ⟨_, Or.inl ⟨hready, hkey, rfl⟩⟩
      cases ha
      exact ⟨rfl, _, rfl, by simp [boundedMap, hlookup, PC.claims]⟩
  | throwKey | throwValue | publish => cases ha
  | next key value i ipc => cases ipc <;> cases ha
  | start op => cases op <;> cases ha
  | stay => rcases pc with _ | ⟨_, _, _, _ | _ | _ | _ | _ | _ | _⟩ | _ <;> cases ha
  | _ => cases ha

end Commit

/-! ## Runs -/

section Run

variable [DecidableEq ι]

/-- The bindings in the order in which buckets have been claimed for them. -/
def bindings (S : System ι (Mem K V) (PC K V) (Choice (Op K V)) (Event K V))
    (sched : ℕ → ι × Choice (Op K V)) : ℕ → List (K × V)
  | 0 => []
  | t + 1 => bindings S sched t ++ (((S.run sched t).pc (sched t).1).claims
      ((S.run sched (t + 1)).pc (sched t).1)).toList

variable [DecidableEq K] {B : Table K} {key₀ : ℕ → K} {value₀ : ℕ → V}
  {sched : ℕ → ι × Choice (Op K V)} {n : ℕ}

theorem event_ne_threw {t : ℕ} (hthrow : (sched t).2 ≠ .fault) (k : K) :
    ((system B ι key₀ value₀).outcome ((system B ι key₀ value₀).run sched t) (sched t)).event
      ≠ some (.threw k) :=
  fun hk => hthrow (fault_of_threw hk)

theorem binds_run
    (hn : ∀ i, i < n → Watchful B ((system B ι key₀ value₀).run sched i) (sched i))
    (hthrow : ∀ i, i < n → (sched i).2 ≠ .fault) :
    Binds B ((system B ι key₀ value₀).run sched n)
      (bindings (system B ι key₀ value₀) sched n) := by
  induction n with
  | zero =>
      refine ⟨fun {k v} => ⟨nofun, ?_⟩, ?_⟩
      · rintro ⟨b, ⟨hready, -⟩ | ⟨p, hp⟩⟩
        · cases hready
        · cases hp
      · show 0 = (marked B fun _ => false).card
        simp [marked]
  | succ n ih =>
      have hinv := inv_run fun i hi => hn i (Nat.lt_succ_of_lt hi)
      have hstep := (ih (fun i hi => hn i (Nat.lt_succ_of_lt hi))
        fun i hi => hthrow i (Nat.lt_succ_of_lt hi)).step hinv (reads_run n)
        (prog_effect _ _ (sched n).2) (event_ne_threw (hthrow n (Nat.lt_succ_self n)))
      rw [bindings, System.run_succ, System.next_pc_self]
      exact hstep

end Run

/-- **The hash map is linearizable where its keys are unique.** In every run in which no copy
throws and no insert passes over a bucket of its own key, the calls that have returned, and
perhaps some of those in flight, can be put in an order in which they answer, true or false, as
those of a list of at most `Size` bindings, and in which no call stands before one that had
returned when it was made. -/
theorem hashMap_linearizable [DecidableEq ι] [DecidableEq K] (B : Table K) (key₀ : ℕ → K)
    (value₀ : ℕ → V) (r : V) (sched : ℕ → ι × Choice (Op K V)) (n : ℕ)
    (hn : ∀ i, i < n → Watchful B ((system B ι key₀ value₀).run sched i) (sched i))
    (hthrow : ∀ i, i < n → (sched i).2 ≠ .fault) :
    (system B ι key₀ value₀).Linearizable PC.op (Event.returned r) (boundedMap B.size r) []
      sched n := by
  let S := system B ι key₀ value₀
  have he : ∀ t, Effect B (S.run sched t).mem ((S.run sched t).pc (sched t).1)
      (S.run sched (t + 1)).mem ((S.run sched (t + 1)).pc (sched t).1)
      (S.outcome (S.run sched t) (sched t)).event := by
    intro t
    rw [System.run_succ, System.next_pc_self]
    exact prog_effect _ _ _
  have hpoints : S.CommitPoints PC.op (Event.returned r) (boundedMap B.size r) [] sched n
      (fun t => commits r ((S.run sched t).pc (sched t).1)
        ((S.run sched (t + 1)).pc (sched t).1) (S.outcome (S.run sched t) (sched t)).event)
      (fun t p => ((S.run sched t).pc p).owes B r) (bindings S sched) := by
    refine ⟨fun p => rfl, rfl, fun t ht q hq => ?_, fun t ht hfree => ?_, fun t ht hbusy => ?_,
      fun t ht hnone => ?_, fun t ht a ha => ?_, fun t ht e hfires hbusy hfree => ?_⟩
    · simp only [System.run_succ, System.next_pc_ne _ _ hq]
    · rw [PC.op_eq_none] at hfree
      simp only [hfree]
      rfl
    · exact (he t).owes fun hidle => hbusy (by rw [hidle]; rfl)
    · have hclaim : ((S.run sched t).pc (sched t).1).claims
          ((S.run sched (t + 1)).pc (sched t).1) = none := by
        rw [commits, Option.or_eq_none_iff, Option.map_eq_none_iff] at hnone
        exact hnone.1
      rw [bindings, hclaim, Option.toList_none, List.append_nil]
    · have hlt : ∀ {i}, i < t → i < n := fun hi => hi.trans ht
      exact (binds_run (fun i hi => hn i (hlt hi)) fun i hi => hthrow i (hlt hi)).commits
        (inv_run fun i hi => hn i (hlt hi)) (reads_run t) (he t) ha
    · have hret := he t
      have hnot : ∀ k, (S.outcome (S.run sched t) (sched t)).event ≠ some (.threw k) :=
        event_ne_threw (hthrow t ht)
      rw [hfires.2] at hret hnot ⊢
      exact hret.returned (fun k hk => hnot k (congrArg some hk)) (PC.op_eq_none.mp hfree)
  exact hpoints.linearizable (makesCalls B ι key₀ value₀)

theorem hashMap_linearizable_distinctInserts :
    (system twoBuckets Bool (fun _ => 0) fun _ => 0).Linearizable PC.op (Event.returned 9)
      (boundedMap twoBuckets.size 9) [] distinctInserts 18 :=
  hashMap_linearizable twoBuckets (fun _ => 0) (fun _ => 0) 9 distinctInserts 18
    (by decide +kernel) (by decide)

end HashMap

end Lockless
