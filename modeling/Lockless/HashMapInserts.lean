import Lockless.Custody
import Lockless.HashMapReads

/-!
# Inserts of distinct keys

Where no two inserts are of the same key and no copy throws, every key is
with the thread that inserts it, or its insert has returned true, or it has
returned false, and only one of these. So no insert meets a bucket of its own
key, the runs are watchful, and each key has at most one bucket. An insert
returns false only after it has found every bucket occupied, and then all of
them are filled once the inserts in progress have returned.
-/

namespace Lockless

namespace HashMap

variable {ι K V : Type*}

/-! ## The keys of the inserts -/

/-- The key of the insert that a step starts. -/
def PC.insertCall : PC K V → Choice (Op K V) → Option K
  | .idle, .call (.insert key _) => some key
  | _, _ => none

/-- The key of the insert a thread is in. -/
def PC.inserting : PC K V → Option K
  | .insert key _ _ _ => some key
  | _ => none

/-- The key of an insert that returns true, or of one that does not. -/
def Event.result (b : Bool) : Event K V → Option K
  | .inserted key _ => if b then some key else none
  | .duplicate key => if b then none else some key
  | .tableFull key => if b then none else some key
  | .threw key => if b then none else some key
  | .found _ _ => none
  | .absent _ => none

/-- The keys of the inserts called in the first `n` ticks. -/
def insertsCalled [DecidableEq ι]
    (S : System ι (Mem K V) (PC K V) (Choice (Op K V)) (Event K V))
    (sched : ℕ → ι × Choice (Op K V)) (n : ℕ) : List K :=
  (List.range n).filterMap fun i => ((S.run sched i).pc (sched i).1).insertCall (sched i).2

/-- The keys of the inserts that have returned true, or of those that have
ended without. -/
def results (b : Bool) (H : List (ι × Event K V)) : List K :=
  H.filterMap fun x => x.2.result b

inductive KeyHolder (ι : Type*) where
  | caller (p : ι)
  | result (b : Bool)

/-- Where the keys of the inserts are. -/
def keysWith (c : Config ι (Mem K V) (PC K V)) (H : List (ι × Event K V)) :
    KeyHolder ι → List K
  | .caller p => (c.pc p).inserting.toList
  | .result b => results b H

theorem insertsCalled_succ [DecidableEq ι]
    (S : System ι (Mem K V) (PC K V) (Choice (Op K V)) (Event K V))
    (sched : ℕ → ι × Choice (Op K V)) (n : ℕ) :
    insertsCalled S sched (n + 1) = insertsCalled S sched n
      ++ (((S.run sched n).pc (sched n).1).insertCall (sched n).2).toList := by
  rw [insertsCalled, List.range_succ, List.filterMap_append]
  cases h : ((S.run sched n).pc (sched n).1).insertCall (sched n).2 <;>
    simp [insertsCalled, h]

theorem insertsCalled_mono [DecidableEq ι]
    (S : System ι (Mem K V) (PC K V) (Choice (Op K V)) (Event K V))
    (sched : ℕ → ι × Choice (Op K V)) {m n : ℕ} (h : m ≤ n) :
    insertsCalled S sched m <+: insertsCalled S sched n := by
  induction n, h using Nat.le_induction with
  | base => exact List.prefix_rfl
  | succ n _ ih =>
      rw [insertsCalled_succ]
      exact ih.trans (List.prefix_append _ _)

theorem results_append (b : Bool) (H : List (ι × Event K V)) (p : ι)
    (ev : Option (Event K V)) :
    results b (H ++ (ev.map (Prod.mk p)).toList)
      = results b H ++ (ev.bind (Event.result b)).toList := by
  rw [results, List.filterMap_append]
  cases ev with
  | none => simp [results]
  | some e => cases h : e.result b <;> simp [results, h]

theorem mem_results {b : Bool} {H : List (ι × Event K V)} {k : K} :
    k ∈ results b H ↔ ∃ p e, (p, e) ∈ H ∧ e.result b = some k := by
  simp [results]

/-- A step inside a call ends an insert or leaves the keys where they are. -/
theorem Effect.keys {B : Table K} {m m' : Mem K V} {pc pc' : PC K V}
    {ev : Option (Event K V)} (he : Effect B m pc m' pc' ev) (hpc : pc ≠ .idle) :
    (∃ k b e, pc.inserting = some k ∧ pc'.inserting = none ∧ ev = some e
        ∧ e.result b = some k ∧ e.result (!b) = none)
      ∨ (pc'.inserting = pc.inserting ∧ ∀ b, ev.bind (Event.result b) = none) := by
  cases he with
  | start op => exact absurd rfl hpc
  | tableFull key value i ipc h hi =>
      exact Or.inl ⟨key, false, _, rfl, rfl, rfl, rfl, rfl⟩
  | duplicate key value i h => exact Or.inl ⟨key, false, _, rfl, rfl, rfl, rfl, rfl⟩
  | throwKey key value i => exact Or.inl ⟨key, false, _, rfl, rfl, rfl, rfl, rfl⟩
  | throwValue key value i => exact Or.inl ⟨key, false, _, rfl, rfl, rfl, rfl, rfl⟩
  | publish key value i => exact Or.inl ⟨key, true, _, rfl, rfl, rfl, rfl, rfl⟩
  | _ => exact Or.inr ⟨rfl, fun _ => rfl⟩

theorem PC.insertCall_eq_some {pc : PC K V} {ch : Choice (Op K V)} {k : K}
    (h : pc.insertCall ch = some k) : pc = .idle ∧ ∃ v, ch = .call (.insert k v) := by
  rcases pc with _ | _ | _ <;> rcases ch with ⟨_ | _⟩ | _ | _ <;> cases h
  exact ⟨rfl, _, rfl⟩

/-! ## Custody of the keys -/

section Step

variable [DecidableEq ι] {c : Config ι (Mem K V) (PC K V)} {H : List (ι × Event K V)}
  {L : List K} {p : ι} {m : Mem K V} {pc : PC K V} {ev : Option (Event K V)}

theorem keysWith_caller_ne {q : ι} (hq : q ≠ p) :
    keysWith ⟨m, Function.update c.pc p pc⟩ (H ++ (ev.map (Prod.mk p)).toList) (.caller q)
      = keysWith c H (.caller q) := by
  simp only [keysWith, Function.update_of_ne hq]

/-- A step that starts and ends no insert. -/
theorem keysWith_congr (hpc : pc.inserting = (c.pc p).inserting)
    (hev : ∀ b, ev.bind (Event.result b) = none) :
    keysWith ⟨m, Function.update c.pc p pc⟩ (H ++ (ev.map (Prod.mk p)).toList)
      = keysWith c H := by
  funext h
  cases h with
  | caller q =>
      by_cases hq : q = p
      · subst hq
        simp only [keysWith, Function.update_self, hpc]
      · exact keysWith_caller_ne hq
  | result b =>
      simp only [keysWith]
      rw [results_append, hev, Option.toList_none, List.append_nil]

/-- A step that starts an insert. -/
theorem custody_call (h : Custody (· ∈ L) (keysWith c H)) {k : K} (hk : k ∉ L)
    (hold : (c.pc p).inserting = none) (hpc : pc.inserting = some k) :
    Custody (· ∈ L ++ [k]) (keysWith ⟨m, Function.update c.pc p pc⟩ H) := by
  refine h.add (a := .caller p) (x := k) hk (fun y => ?_) (fun j hj => ?_) ?_
  · rw [List.mem_append, List.mem_singleton, or_comm]
  · cases j with
    | caller q =>
        have hq : q ≠ p := fun e => hj (congrArg _ e)
        simp only [keysWith, Function.update_of_ne hq]
    | result b => rfl
  · simp [keysWith, hold, hpc]

/-- A step that ends an insert. -/
theorem custody_return (h : Custody (· ∈ L) (keysWith c H)) {k : K} {b : Bool}
    {e : Event K V} (hold : (c.pc p).inserting = some k) (hpc : pc.inserting = none)
    (hb : e.result b = some k) (hnb : e.result (!b) = none) :
    Custody (· ∈ L) (keysWith ⟨m, Function.update c.pc p pc⟩
      (H ++ ((some e).map (Prod.mk p)).toList)) := by
  refine h.move (a := .caller p) (b := .result b) (by simp) (fun j hj hj' => ?_) ?_
  · cases j with
    | caller q => exact keysWith_caller_ne fun e => hj (congrArg _ e)
    | result b' =>
        have hb' : b' = !b := by
          cases b <;> cases b' <;> simp_all
        simp only [keysWith]
        rw [results_append, hb', Option.bind_some, hnb, Option.toList_none, List.append_nil]
  · simp only [keysWith, Function.update_self, hold, hpc, results_append, Option.bind_some, hb,
      Option.toList_some, Option.toList_none, List.nil_append]
    exact List.perm_append_comm

end Step

section Run

variable [DecidableEq ι] [DecidableEq K] {B : Table K} {key₀ : ℕ → K} {value₀ : ℕ → V}
  {sched : ℕ → ι × Choice (Op K V)}

theorem custody_step {c : Config ι (Mem K V) (PC K V)} {H : List (ι × Event K V)} {L : List K}
    {a : ι × Choice (Op K V)} (h : Custody (· ∈ L) (keysWith c H))
    (hnew : ∀ k ∈ (c.pc a.1).insertCall a.2, k ∉ L) :
    Custody (· ∈ L ++ ((c.pc a.1).insertCall a.2).toList)
      (keysWith ((system B ι key₀ value₀).next c a)
        (H ++ (system B ι key₀ value₀).emitted c a)) := by
  have hsame : (prog B c.mem (c.pc a.1) a.2).pc.inserting = (c.pc a.1).inserting →
      (∀ b, (prog B c.mem (c.pc a.1) a.2).event.bind (Event.result b) = none) →
      Custody (· ∈ L) (keysWith ((system B ι key₀ value₀).next c a)
        (H ++ (system B ι key₀ value₀).emitted c a)) := by
    intro hpc hev
    have := keysWith_congr (m := (prog B c.mem (c.pc a.1) a.2).mem) (H := H) hpc hev
    exact this ▸ h
  cases hcall : (c.pc a.1).insertCall a.2 with
  | some k =>
      obtain ⟨hidle, v, hch⟩ := PC.insertCall_eq_some hcall
      have hpc : (prog B c.mem (c.pc a.1) a.2).pc.inserting = some k := by
        rw [hidle, hch]
        rfl
      have hev : (system B ι key₀ value₀).emitted c a = [] := by
        simp only [System.emitted, System.outcome, hidle, hch]
        rfl
      rw [hev, List.append_nil]
      exact custody_call h (hnew k hcall) (by rw [hidle]; rfl) hpc
  | none =>
      rw [Option.toList_none, List.append_nil]
      by_cases hidle : c.pc a.1 = .idle
      · rw [hidle] at hcall hsame
        generalize a.2 = ch at hcall hsame
        rcases ch with ⟨_ | _⟩ | _ | _
        · cases hcall
        all_goals exact hsame rfl fun _ => rfl
      · rcases (prog_effect c.mem (c.pc a.1) a.2).keys hidle with
          ⟨k, b, e, hold, hpc, hev, hb, hnb⟩ | ⟨hpc, hev⟩
        · have := custody_return (m := (prog B c.mem (c.pc a.1) a.2).mem) h hold hpc hb hnb
          rwa [← hev] at this
        · exact hsame hpc hev

/-- **Every key whose insert has been called is in one place.** -/
theorem custody_run {n : ℕ} (hkeys : (insertsCalled (system B ι key₀ value₀) sched n).Nodup) :
    Custody (· ∈ insertsCalled (system B ι key₀ value₀) sched n)
      (keysWith ((system B ι key₀ value₀).run sched n)
        ((system B ι key₀ value₀).history sched n)) := by
  induction n with
  | zero =>
      refine Custody.empty (fun x hx => ?_) fun a => ?_
      · cases hx
      · cases a <;> rfl
  | succ n ih =>
      have hcust := ih (hkeys.sublist (insertsCalled_mono _ sched n.le_succ).sublist)
      rw [insertsCalled_succ] at hkeys ⊢
      refine custody_step hcust fun k hk hmem => ?_
      have hdisj := (List.nodup_append.mp hkeys).2.2
      exact hdisj k hmem k (by simpa using hk) rfl

end Run

/-! ## Such runs are watchful -/

theorem inserting_of_passing {B : Table K} {m : Mem K V} {pc : PC K V} {ch : Choice (Op K V)}
    {x : K × ℕ} (h : passing B m pc ch = some x) :
    pc.inserting = some x.1 ∧ pc.filling B = none := by
  unfold passing at h
  split at h
  · cases h
  · split_ifs at h
    cases h
    exact ⟨rfl, rfl⟩
  · split_ifs at h
    cases h
    exact ⟨rfl, rfl⟩
  · cases h

theorem PC.inserting_of_filling {B : Table K} {pc : PC K V} {k : K} {b : ℕ}
    (h : pc.filling B = some (k, b)) : pc.inserting = some k := by
  obtain ⟨value, i, ipc, rfl, -, -⟩ := PC.filling_eq_some h
  rfl

section Distinct

variable {B : Table K} {c : Config ι (Mem K V) (PC K V)} {H : List (ι × Event K V)}
  {L : List K} {p : ι} {k : K}

theorem eq_of_inserting (hc : Custody (· ∈ L) (keysWith c H)) {q : ι}
    (hp : (c.pc p).inserting = some k) (hq : (c.pc q).inserting = some k) : p = q := by
  have hpk : k ∈ keysWith c H (.caller p) := by simp [keysWith, hp]
  have hqk : k ∈ keysWith c H (.caller q) := by simp [keysWith, hq]
  exact KeyHolder.caller.inj (hc.unique hpk hqk)

theorem not_mem_results (hc : Custody (· ∈ L) (keysWith c H))
    (hp : (c.pc p).inserting = some k) (b : Bool) : k ∉ results b H := by
  intro hk
  have hpk : k ∈ keysWith c H (.caller p) := by simp [keysWith, hp]
  cases hc.unique (k := .result b) hpk hk

theorem not_ready_of_inserting (h : Reads B c H) (hc : Custody (· ∈ L) (keysWith c H))
    (hp : (c.pc p).inserting = some k) {b : ℕ} (hready : c.mem.ready b = true) :
    c.mem.key b ≠ k := by
  rintro rfl
  obtain ⟨q, hq⟩ := h.logged hready
  exact not_mem_results hc hp true (mem_results.mpr ⟨q, _, hq, rfl⟩)

/-- No bucket belongs to the key of an insert that has claimed none. -/
theorem not_belongs_of_inserting (h : Reads B c H) (hc : Custody (· ∈ L) (keysWith c H))
    (hp : (c.pc p).inserting = some k) (hnone : (c.pc p).filling B = none) {b : ℕ} :
    ¬ Belongs B c b k := by
  rintro (⟨hready, hkey⟩ | ⟨q, hq⟩)
  · exact not_ready_of_inserting h hc hp hready hkey
  · obtain rfl := eq_of_inserting hc hp (PC.inserting_of_filling hq)
    rw [hnone] at hq
    cases hq

theorem watchful_of_custody (h : Reads B c H) (hc : Custody (· ∈ L) (keysWith c H))
    (a : ι × Choice (Op K V)) : Watchful B c a := by
  intro x hx
  obtain ⟨hp, hnone⟩ := inserting_of_passing hx
  exact not_belongs_of_inserting h hc hp hnone

end Distinct

/-! ## Which buckets are filled -/

theorem Table.bucket_lt (B : Table K) (key : K) (i : ℕ) : B.bucket key i < B.size :=
  Nat.mod_lt _ B.pos

/-- The probes of a key come to every bucket. -/
theorem Table.exists_bucket (B : Table K) (key : K) {b : ℕ} (hb : b < B.size) :
    ∃ i, i < B.size ∧ B.bucket key i = b := by
  have hfits := B.fits
  have hh : B.hash key % B.size < B.size := Nat.mod_lt _ B.pos
  refine ⟨(b + B.size - B.hash key % B.size) % B.size, Nat.mod_lt _ B.pos, ?_⟩
  have hi : (b + B.size - B.hash key % B.size) % B.size < B.size := Nat.mod_lt _ B.pos
  rw [Table.bucket, wrap_of_lt (by omega), Nat.add_mod_mod]
  have hsum : B.hash key % B.size + (b + B.size - B.hash key % B.size) = b + B.size := by
    omega
  rw [hsum, Nat.add_mod_right, Nat.mod_eq_of_lt hb]

/-- An occupied bucket is ready or being filled. -/
def Covered (B : Table K) (c : Config ι (Mem K V) (PC K V)) : Prop :=
  ∀ b, c.mem.occupied b = true →
    c.mem.ready b = true ∨ ∃ p k, (c.pc p).filling B = some (k, b)

theorem insert_event_ne_threw [DecidableEq K] {B : Table K} {m : Mem K V} {key k : K}
    {value : V} {i : ℕ} {ipc : InsertPC} :
    (insert B m false key value i ipc).event ≠ some (.threw k) := by
  cases ipc with
  | loadReady | compareKey | cas =>
      simp only [insert, insertNext]
      split_ifs <;> simp
  | loadOccupied =>
      simp only [insert]
      split_ifs <;> simp
  | _ => simp [insert]

/-- Only an adverse outcome throws. -/
theorem fault_of_threw [DecidableEq K] {B : Table K} {m : Mem K V} {pc : PC K V}
    {ch : Choice (Op K V)} {k : K} (h : (prog B m pc ch).event = some (.threw k)) :
    ch = .fault := by
  have he := prog_effect (B := B) m pc ch
  rw [h] at he
  generalize (prog B m pc ch).mem = m', (prog B m pc ch).pc = pc' at he
  cases he with
  | throwKey | throwValue =>
      cases ch with
      | call op => cases h
      | go => exact absurd h insert_event_ne_threw
      | fault => rfl

/-- A thread gives up the bucket it fills when it is ready, or by throwing. -/
theorem Effect.filled {B : Table K} {m m' : Mem K V} {pc pc' : PC K V}
    {ev : Option (Event K V)} (he : Effect B m pc m' pc' ev) {b : ℕ} {k : K}
    (hb : pc.filling B = some (k, b)) (hthrow : ∀ k, ev ≠ some (.threw k)) :
    m'.ready b = true ∨ pc'.filling B = some (k, b) := by
  cases he with
  | stay | writeKey | writeValue => exact Or.inr hb
  | throwKey key value i => exact absurd rfl (hthrow key)
  | throwValue key value i => exact absurd rfl (hthrow key)
  | publish key value i =>
      cases hb
      exact Or.inl (Function.update_self _ _ _)
  | next key value i pc h hi =>
      obtain ⟨_, _, _, hpc, -, hipc⟩ := PC.filling_eq_some hb
      cases hpc
      rcases hipc with rfl | rfl | rfl <;> exact h.elim
  | tableFull key value i pc h hi =>
      obtain ⟨_, _, _, hpc, -, hipc⟩ := PC.filling_eq_some hb
      cases hpc
      rcases hipc with rfl | rfl | rfl <;> exact h.elim
  | _ => cases hb

theorem Covered.step [DecidableEq ι] {B : Table K} {c : Config ι (Mem K V) (PC K V)} {p : ι}
    {m : Mem K V} {pc : PC K V} {ev : Option (Event K V)} (h : Covered B c)
    (he : Effect B c.mem (c.pc p) m pc ev) (hthrow : ∀ k, ev ≠ some (.threw k)) :
    Covered B ⟨m, Function.update c.pc p pc⟩ := by
  intro b hb
  by_cases hold : c.mem.occupied b = true
  · rcases h b hold with hready | ⟨q, k, hq⟩
    · exact Or.inl (he.frame.ready hready)
    · by_cases hqp : q = p
      · subst hqp
        rcases he.filled hq hthrow with hready | hfill
        · exact Or.inl hready
        · exact Or.inr ⟨q, k, by simpa using hfill⟩
      · exact Or.inr ⟨q, k, by simpa [hqp] using hq⟩
  · generalize hpc : c.pc p = pc₀ at he
    cases he with
    | claim key value i hvac =>
        have hbi : b = B.bucket key i := by
          by_contra hne
          refine hold (Eq.trans ?_ hb)
          exact (Function.update_of_ne hne _ _).symm
        subst hbi
        exact Or.inr ⟨p, key, by simp [PC.filling]⟩
    | _ => exact absurd hb hold

section Full

variable {B : Table K} {c : Config ι (Mem K V) (PC K V)} {H : List (ι × Event K V)}
  {L : List K} {p : ι} {k : K} {m : Mem K V} {pc : PC K V}

/-- A bucket that belongs to a key is one of its first `size` probes. -/
theorem Inv.exists_probe (h : Inv B c H) {b : ℕ} (hb : Belongs B c b k) :
    ∃ i, i < B.size ∧ B.bucket k i = b ∧ Passed B c k i := by
  obtain ⟨i, rfl, hi⟩ := h.home_of_belongs hb
  refine ⟨i, ?_, rfl, hi⟩
  by_contra hge
  obtain ⟨j, hj, hji⟩ := B.exists_bucket k (B.bucket_lt k i)
  exact (hi j (by omega)).2 (hji ▸ hb)

/-- An insert that gives up has found every bucket occupied. -/
theorem occupied_of_tableFull (h : Inv B c H) (hr : Reads B c H)
    (hc : Custody (· ∈ L) (keysWith c H))
    (he : Effect B c.mem (c.pc p) m pc (some (.tableFull k))) {b : ℕ} (hb : b < B.size) :
    c.mem.occupied b = true := by
  generalize hpc : c.pc p = pc₀ at he
  cases he with
  | tableFull key value i ipc hrej hi =>
      have hnone : (c.pc p).filling B = none := by
        rw [hpc]
        cases ipc with
        | loadReady | compareKey | cas => rfl
        | _ => exact hrej.elim
      have hins : (c.pc p).inserting = some k := by rw [hpc]; rfl
      have hpassed := h.passed_next hpc hrej (not_belongs_of_inserting hr hc hins hnone)
      obtain ⟨j, hj, rfl⟩ := B.exists_bucket k hb
      exact (hpassed j (by omega)).1

/-- An insert returns true with its key and value in a bucket that is ready. -/
theorem Reads.of_inserted {v : V} (h : Reads B c H)
    (he : Effect B c.mem (c.pc p) m pc (some (.inserted k v))) :
    ∃ b, m.ready b = true ∧ m.key b = k ∧ m.value b = v := by
  generalize hpc : c.pc p = pc₀ at he
  cases he with
  | publish key value i =>
      have hloc := h.buckets.locals p
      rw [hpc] at hloc
      exact ⟨_, Function.update_self _ _ _, hloc.2.2, h.written hpc⟩

/-- An insert of a key that no other inserts does not find it. -/
theorem not_duplicate (hr : Reads B c H) (hc : Custody (· ∈ L) (keysWith c H)) :
    ¬ Effect B c.mem (c.pc p) m pc (some (.duplicate k)) := by
  intro he
  generalize hpc : c.pc p = pc₀ at he
  cases he with
  | duplicate key value i hkey =>
      have hloc := hr.buckets.locals p
      rw [hpc] at hloc
      exact not_ready_of_inserting hr hc (by rw [hpc]; rfl) hloc.2 hkey

/-- **The keys that have been inserted are those of the buckets that are
ready.** -/
theorem perm_ready (h : Inv B c H) (hr : Reads B c H) (hc : Custody (· ∈ L) (keysWith c H)) :
    (results true H).Perm (((List.range B.size).filter c.mem.ready).map c.mem.key) := by
  have hnodup : (((List.range B.size).filter c.mem.ready).map c.mem.key).Nodup := by
    refine List.Nodup.map_on (fun b hb b' hb' hkey => ?_) (List.nodup_range.filter _)
    have hready := (List.mem_filter.mp hb).2
    have hready' := (List.mem_filter.mp hb').2
    exact h.belongs_unique (Or.inl ⟨hready, hkey⟩) (Or.inl ⟨hready', rfl⟩)
  refine (List.perm_ext_iff_of_nodup (hc.nodup (.result true)) hnodup).mpr fun k => ?_
  simp only [List.mem_map, List.mem_filter, List.mem_range]
  constructor
  · intro hk
    obtain ⟨p, e, hmem, he⟩ := mem_results.mp hk
    obtain ⟨value, rfl⟩ : ∃ value, e = .inserted k value := by
      cases e <;> cases he
      exact ⟨_, rfl⟩
    obtain ⟨b, hready, rfl⟩ := h.log hmem
    obtain ⟨i, hi, -⟩ := h.home hready
    exact ⟨b, ⟨hi ▸ B.bucket_lt _ i, hready⟩, rfl⟩
  · rintro ⟨b, ⟨-, hready⟩, rfl⟩
    obtain ⟨q, hq⟩ := hr.logged hready
    exact mem_results.mpr ⟨q, _, hq, rfl⟩

/-- When no insert is in progress, every one of them has returned. -/
theorem perm_results (hL : L.Nodup) (hc : Custody (· ∈ L) (keysWith c H))
    (hidle : ∀ p, (c.pc p).inserting = none) :
    (results true H ++ results false H).Perm L := by
  have hperm := hc.perm_flatMap (l := [.result true, .result false]) (by simp)
    (fun h hh => ?_) hL fun _ => Iff.rfl
  · simpa [keysWith] using hperm
  · cases h with
    | caller p => simp [keysWith, hidle p]
    | result b => cases b <;> simp at hh

end Full

section Counting

variable [DecidableEq ι] [DecidableEq K] {B : Table K} {key₀ : ℕ → K} {value₀ : ℕ → V}
  {sched : ℕ → ι × Choice (Op K V)} {n : ℕ}

theorem covered_run (hthrow : ∀ i, i < n → (sched i).2 ≠ .fault) :
    Covered B ((system B ι key₀ value₀).run sched n) := by
  refine (system B ι key₀ value₀).invariant_of_guard (I := fun c _ => Covered B c)
    (G := fun _ _ a => a.2 ≠ .fault) ?_ (fun c _ a hg h => ?_) hthrow
  · intro b hb
    cases hb
  · exact h.step (prog_effect c.mem (c.pc a.1) a.2) fun k hk => hg (fault_of_threw hk)

theorem inv_of_distinct (hkeys : (insertsCalled (system B ι key₀ value₀) sched n).Nodup) :
    Inv B ((system B ι key₀ value₀).run sched n)
      ((system B ι key₀ value₀).history sched n) := by
  refine inv_run fun i hi => watchful_of_custody (reads_run i) (custody_run ?_) (sched i)
  exact hkeys.sublist (insertsCalled_mono _ sched hi.le).sublist

theorem mem_results_of_fires {i : ℕ} {p : ι} {e : Event K V} {b : Bool} {k : K} (hi : i < n)
    (h : (system B ι key₀ value₀).Fires sched i p e) (he : e.result b = some k) :
    k ∈ results b ((system B ι key₀ value₀).history sched n) :=
  mem_results.mpr ⟨p, e, (System.mem_history _).mpr ⟨i, hi, h⟩, he⟩

/-- **Once an insert of distinct keys has failed, the table is full.** -/
theorem ready_of_failed (hkeys : (insertsCalled (system B ι key₀ value₀) sched n).Nodup)
    (hthrow : ∀ i, i < n → (sched i).2 ≠ .fault)
    (hidle : ∀ p, (((system B ι key₀ value₀).run sched n).pc p).inserting = none) {k : K}
    (hk : k ∈ results false ((system B ι key₀ value₀).history sched n)) {b : ℕ}
    (hb : b < B.size) : ((system B ι key₀ value₀).run sched n).mem.ready b = true := by
  obtain ⟨p, e, hmem, he⟩ := mem_results.mp hk
  obtain ⟨i, hi, hfires⟩ := (System.mem_history _).mp hmem
  have hkeys' := hkeys.sublist (insertsCalled_mono _ sched hi.le).sublist
  have hstep := System.effect_of_fires _ prog_effect hfires
  have hocc : ((system B ι key₀ value₀).run sched i).mem.occupied b = true := by
    cases e with
    | tableFull key =>
        exact occupied_of_tableFull (inv_of_distinct hkeys') (reads_run i)
          (custody_run hkeys') hstep hb
    | duplicate key => exact absurd hstep (not_duplicate (reads_run i) (custody_run hkeys'))
    | threw key => exact absurd (fault_of_threw hfires.2) (hthrow i hi)
    | _ => cases he
  rcases covered_run hthrow b ((kept_run hi.le).occupied hocc) with hready | ⟨q, k', hq⟩
  · exact hready
  · have := PC.inserting_of_filling hq
    rw [hidle q] at this
    cases this

theorem length_succeeded (hkeys : (insertsCalled (system B ι key₀ value₀) sched n).Nodup)
    (hthrow : ∀ i, i < n → (sched i).2 ≠ .fault)
    (hidle : ∀ p, (((system B ι key₀ value₀).run sched n).pc p).inserting = none) :
    (results true ((system B ι key₀ value₀).history sched n)).length
      = min (insertsCalled (system B ι key₀ value₀) sched n).length B.size := by
  have hc := custody_run hkeys
  have hsum := (perm_results hkeys hc hidle).length_eq
  have hready := (perm_ready (inv_of_distinct hkeys) (reads_run n) hc).length_eq
  rw [List.length_append] at hsum
  rw [List.length_map] at hready
  have hle := List.length_filter_le ((system B ι key₀ value₀).run sched n).mem.ready
    (List.range B.size)
  rw [List.length_range] at hle
  rcases List.eq_nil_or_concat
    (results false ((system B ι key₀ value₀).history sched n)) with hnil | ⟨l, k, hl⟩
  · rw [hnil, List.length_nil] at hsum
    omega
  · have hk : k ∈ results false ((system B ι key₀ value₀).history sched n) := by simp [hl]
    have hall : (List.range B.size).filter ((system B ι key₀ value₀).run sched n).mem.ready
        = List.range B.size :=
      List.filter_eq_self.mpr fun b hb =>
        ready_of_failed hkeys hthrow hidle hk (List.mem_range.mp hb)
    rw [hall, List.length_range] at hready
    omega

/-- An insert that has returned true has left its value in a bucket of its
key. -/
theorem exists_ready_of_inserted {i : ℕ} {p : ι} {k : K} {v : V} (hi : i < n)
    (h : (system B ι key₀ value₀).Fires sched i p (.inserted k v)) :
    ∃ b, ((system B ι key₀ value₀).run sched n).mem.ready b = true
      ∧ ((system B ι key₀ value₀).run sched n).mem.key b = k
      ∧ ((system B ι key₀ value₀).run sched n).mem.value b = v := by
  obtain ⟨b, hready, hkey, hvalue⟩ :=
    (reads_run i).of_inserted (System.effect_of_fires _ prog_effect h)
  obtain ⟨hready', hkey', hvalue'⟩ := (kept_run (i := i + 1) (j := n) hi).ready hready
  exact ⟨b, hready', hkey'.trans hkey, hvalue'.trans hvalue⟩

end Counting

/-- Inserts of distinct keys whose copies do not throw: when all have returned,
as many have returned true as there are inserts or buckets, whichever is less;
after an insert has returned true a find of its key neither returns false nor
another value; and a find returns true only for a key whose insert was called
and, in the whole run, does not return false. -/
theorem distinct_inserts [DecidableEq ι] [DecidableEq K] (B : Table K) (key₀ : ℕ → K)
    (value₀ : ℕ → V) (sched : ℕ → ι × Choice (Op K V)) (n : ℕ)
    (hkeys : (insertsCalled (system B ι key₀ value₀) sched n).Nodup)
    (hthrow : ∀ i, i < n → (sched i).2 ≠ .fault) :
    ((∀ p, (((system B ι key₀ value₀).run sched n).pc p).inserting = none) →
        (results true ((system B ι key₀ value₀).history sched n)).length
          = min (insertsCalled (system B ι key₀ value₀) sched n).length B.size)
      ∧ (∀ i j p q k v, i < j → j < n →
        (system B ι key₀ value₀).Fires sched i p (.inserted k v) →
        ¬ (system B ι key₀ value₀).Fires sched j q (.absent k)
          ∧ ∀ w, (system B ι key₀ value₀).Fires sched j q (.found k w) → w = v)
      ∧ ∀ i p k v, i < n → (system B ι key₀ value₀).Fires sched i p (.found k v) →
        (∃ j q, j < i ∧ (system B ι key₀ value₀).Calls .idle sched j q (.insert k v))
          ∧ ∀ j q, j < n → ¬ (system B ι key₀ value₀).Fires sched j q (.duplicate k)
            ∧ ¬ (system B ι key₀ value₀).Fires sched j q (.tableFull k) := by
  refine ⟨length_succeeded hkeys hthrow, fun i j p q k v hij hjn hi => ?_,
    fun i p k v hin hi => ⟨exists_calls_of_home (home_of_fires hi), fun j q hjn => ?_⟩⟩
  · have hinv := inv_of_distinct (hkeys.sublist (insertsCalled_mono _ sched hjn.le).sublist)
    obtain ⟨b, hready, hkey, hvalue⟩ := exists_ready_of_inserted hij hi
    have hb : Belongs B ((system B ι key₀ value₀).run sched j) b k := Or.inl ⟨hready, hkey⟩
    refine ⟨fun hj => ?_, fun w hj => ?_⟩
    · obtain ⟨l, hl, rfl, hpassed⟩ := hinv.exists_probe hb
      exact (reads_run j).not_absent hl (fun l' hl' => (hpassed l' hl').1) hready hkey
        (System.effect_of_fires _ prog_effect hj)
    · obtain ⟨l, -, -, hready', hkey', rfl⟩ := home_of_fires hj
      rw [← hvalue, hinv.belongs_unique hb (Or.inl ⟨hready', hkey'⟩)]
  · obtain ⟨l, q', hl, hsucc⟩ := exists_inserted_of_home (home_of_fires hi)
    have hsome : k ∈ results true ((system B ι key₀ value₀).history sched n) :=
      mem_results_of_fires (hl.trans hin) hsucc rfl
    have hnot : k ∉ results false ((system B ι key₀ value₀).history sched n) := by
      intro hk
      cases (custody_run hkeys).unique (h := .result true) (k := .result false) hsome hk
    exact ⟨fun hj => hnot (mem_results_of_fires hjn hj rfl),
      fun hj => hnot (mem_results_of_fires hjn hj rfl)⟩

/-- Three inserts meet in two buckets: an insert of 7 loses the first bucket
to an insert of 5 and takes the second, an insert of 9 finds both taken and
returns false, and finds of 5 and 9 follow. -/
def threeInserts : ℕ → Bool × Choice (Op ℕ ℕ) := fun i =>
  [(false, .call (.insert 5 1)), (false, .go), (true, .call (.insert 7 2)), (true, .go),
    (false, .go), (true, .go), (true, .go), (true, .go), (true, .go), (true, .go),
    (true, .go), (true, .call (.insert 9 3)), (true, .go), (true, .go), (true, .go),
    (true, .go), (true, .go), (false, .go), (false, .go), (false, .go),
    (true, .call (.find 5)), (true, .go), (true, .go), (true, .go), (true, .go),
    (false, .call (.find 9))].getD i (false, .go)

theorem distinct_inserts_threeInserts :
    ((system twoBuckets Bool (fun _ => 0) fun _ => 0).Fires threeInserts 16 true
        (.tableFull 9)
      ∧ (system twoBuckets Bool (fun _ => 0) fun _ => 0).Fires threeInserts 19 false
        (.inserted 5 1)
      ∧ (system twoBuckets Bool (fun _ => 0) fun _ => 0).Fires threeInserts 24 true
        (.found 5 1))
      ∧ (results true
          ((system twoBuckets Bool (fun _ => 0) fun _ => 0).history threeInserts 32)).length
        = min 3 2
      ∧ ∀ w, (system twoBuckets Bool (fun _ => 0) fun _ => 0).Fires threeInserts 24 true
        (.found 5 w) → w = 1 := by
  have h := distinct_inserts twoBuckets (fun _ => 0) (fun _ => 0) threeInserts 32
    (by decide +kernel) (by decide +kernel)
  have hcalled : insertsCalled (system twoBuckets Bool (fun _ => 0) fun _ => 0)
      threeInserts 32 = [5, 7, 9] := by decide +kernel
  have hcount := h.1 (by decide +kernel)
  rw [hcalled] at hcount
  exact ⟨by decide +kernel, hcount, (h.2.1 19 24 false true 5 1 (by decide) (by decide)
    (by decide +kernel)).2⟩

end HashMap

end Lockless
