import Lockless.HashMapInserts
import Lockless.Serial

/-!
# Calls of the hash map, one after another

With no other thread about, and if no copy throws, the hash map is a list of
bindings with different keys, of which it takes as many as it has buckets.
`boundedMap` is what `insert` and `find` do to such a list.

A call probes the buckets of its key in turn and stops at the first that is free or
has the key. The buckets before it are occupied by other keys, which is what
`Scanned` says, so the run of a call is a walk over these and one of three ends.
A stored key is at the first stop of its probes and stays there, since buckets are
never given back.
-/

namespace Lockless

namespace HashMap

variable {K V : Type*}

/-! ## Where the probes of a key stop -/

/-- Between calls that do not throw the two flags of a bucket are equal. -/
def Settled (m : Mem K V) : Prop := ∀ b, m.occupied b = m.ready b

/-- The probes of a key stop at a bucket that has the key, at a free bucket, or
nowhere. -/
theorem exists_stop (B : Table K) (m : Mem K V) (k : K) :
    (∃ j, j < B.size ∧ Scanned B m k j ∧ m.ready (B.bucket k j) = true
        ∧ m.key (B.bucket k j) = k)
      ∨ (∃ j, j < B.size ∧ Scanned B m k j ∧ m.ready (B.bucket k j) = false)
      ∨ Scanned B m k B.size := by
  by_cases hstop : ∃ j, j < B.size ∧ ¬ (m.ready (B.bucket k j) = true ∧ m.key (B.bucket k j) ≠ k)
  · classical
    obtain ⟨hj, hnot⟩ := Nat.find_spec hstop
    have hscan : Scanned B m k (Nat.find hstop) := by
      intro j hlt
      by_contra hcon
      exact Nat.find_min hstop hlt ⟨by omega, hcon⟩
    generalize Nat.find hstop = j at *
    cases hready : m.ready (B.bucket k j) with
    | false => exact Or.inr (Or.inl ⟨j, hj, hscan, hready⟩)
    | true =>
        refine Or.inl ⟨j, hj, hscan, hready, ?_⟩
        by_contra hkey
        exact hnot ⟨hready, hkey⟩
  · refine Or.inr (Or.inr fun j hj => ?_)
    by_contra hcon
    exact hstop ⟨j, hj, hcon⟩

/-- A key whose probes stop at a free bucket is not found. -/
theorem not_home_of_free {B : Table K} {m : Mem K V} {k : K} {i : ℕ} (hscan : Scanned B m k i)
    (hfree : m.ready (B.bucket k i) = false) (v : V) : ¬ Home B m k v := by
  rintro ⟨j, -, hscan', hready, hkey, -⟩
  rcases Nat.lt_trichotomy i j with hlt | rfl | hgt
  · exact Bool.false_ne_true (hfree.symm.trans (hscan' i hlt).1)
  · exact Bool.false_ne_true (hfree.symm.trans hready)
  · exact (hscan j hgt).2 hkey

theorem not_home_of_full {B : Table K} {m : Mem K V} {k : K} (hscan : Scanned B m k B.size)
    (v : V) : ¬ Home B m k v :=
  fun ⟨j, hj, _, _, hkey, _⟩ => (hscan j hj).2 hkey

/-! ## How many buckets are marked -/

/-- The buckets that have the flag. -/
def marked (B : Table K) (flag : ℕ → Bool) : Finset ℕ :=
  (Finset.range B.size).filter fun b => flag b = true

section Marked

variable {B : Table K} {flag : ℕ → Bool} {b : ℕ}

theorem mem_marked : b ∈ marked B flag ↔ b < B.size ∧ flag b = true := by
  rw [marked, Finset.mem_filter, Finset.mem_range]

theorem card_marked_update (hb : b < B.size) (hfree : flag b = false) :
    (marked B (Function.update flag b true)).card = (marked B flag).card + 1 := by
  have hinsert : marked B (Function.update flag b true) = Insert.insert b (marked B flag) := by
    ext c
    rw [Finset.mem_insert, mem_marked, mem_marked]
    by_cases hc : c = b
    · subst hc
      simp [hb]
    · simp [hc]
  have hnotin : b ∉ marked B flag := by simp [mem_marked, hfree]
  rw [hinsert, Finset.card_insert_of_notMem hnotin]

theorem card_marked_lt (hb : b < B.size) (hfree : flag b = false) :
    (marked B flag).card < B.size := by
  rw [← Finset.card_range B.size]
  refine Finset.card_lt_card (Finset.filter_ssubset.mpr ⟨b, Finset.mem_range.mpr hb, ?_⟩)
  rw [hfree]
  exact Bool.false_ne_true

/-- The probes of one key come to all the buckets. -/
theorem card_marked_of_probes (k : K) (h : ∀ i, i < B.size → flag (B.bucket k i) = true) :
    (marked B flag).card = B.size := by
  rw [marked, Finset.filter_true_of_mem, Finset.card_range]
  intro b hb
  obtain ⟨i, hi, rfl⟩ := B.exists_bucket k (Finset.mem_range.mp hb)
  exact h i hi

end Marked

/-! ## The run of a call -/

/-- A bucket after the insert that has claimed it. -/
def Mem.put (m : Mem K V) (b : ℕ) (k : K) (v : V) : Mem K V where
  key := Function.update m.key b k
  value := Function.update m.value b v
  occupied := Function.update m.occupied b true
  ready := Function.update m.ready b true

section Runs

variable [DecidableEq K] {B : Table K} {m m' : Mem K V} {k : K} {i : ℕ}
  {evs : List (Event K V)}

/-- An insert passes a bucket of another key. -/
theorem completes_insert_pass (v : V) (hocc : m.occupied (B.bucket k i) = true)
    (hready : m.ready (B.bucket k i) = true) (hkey : m.key (B.bucket k i) ≠ k)
    (h : Completes (prog B) .idle (insertNext B m k v i).mem (insertNext B m k v i).pc m' evs) :
    Completes (prog B) .idle m (.insert k v i .loadOccupied) m'
      ((insertNext B m k v i).event.toList ++ evs) := by
  have hload : prog B m (.insert k v i .loadOccupied) .go
      = ⟨m, .insert k v i .loadReady, none⟩ := by
    simp only [prog, insert, hocc, if_true]
  have hcompare : prog B m (.insert k v i .loadReady) .go
      = ⟨m, .insert k v i .compareKey, none⟩ := by
    simp only [prog, insert, hready, if_true]
  have hnext : prog B m (.insert k v i .compareKey) .go = insertNext B m k v i := by
    simp only [prog, insert, hkey, if_false]
  refine .quiet (by simp) hload (.quiet (by simp) hcompare ?_)
  rw [← hnext] at h ⊢
  exact .step (by simp) h

/-- An insert gets to the bucket up to which its probes have other keys. -/
theorem completes_insert_walk (hset : Settled m) (v : V) (hi : i < B.size)
    (hscan : Scanned B m k i)
    (h : Completes (prog B) .idle m (.insert k v i .loadOccupied) m' evs) :
    Completes (prog B) .idle m (.insert k v 0 .loadOccupied) m' evs := by
  induction i with
  | zero => exact h
  | succ i ih =>
      obtain ⟨hready, hkey⟩ := hscan i (Nat.lt_succ_self i)
      have hnext : insertNext B m k v i = ⟨m, .insert k v (i + 1) .loadOccupied, none⟩ := by
        rw [insertNext, if_pos hi]
      have hrest : Completes (prog B) .idle (insertNext B m k v i).mem
          (insertNext B m k v i).pc m' evs := by
        rw [hnext]
        exact h
      have hpass := completes_insert_pass v ((hset _).trans hready) hready hkey hrest
      rw [hnext] at hpass
      exact ih (by omega) (fun j hj => hscan j (by omega)) hpass

/-- An insert that gets to a bucket with its key. -/
theorem completes_insert_duplicate (hset : Settled m) (v : V) (hi : i < B.size)
    (hscan : Scanned B m k i) (hready : m.ready (B.bucket k i) = true)
    (hkey : m.key (B.bucket k i) = k) :
    Completes (prog B) .idle m (start (.insert k v)) m [.duplicate k] := by
  have hload : prog B m (.insert k v i .loadOccupied) .go
      = ⟨m, .insert k v i .loadReady, none⟩ := by
    simp only [prog, insert, hset (B.bucket k i), hready, if_true]
  have hcompare : prog B m (.insert k v i .loadReady) .go
      = ⟨m, .insert k v i .compareKey, none⟩ := by
    simp only [prog, insert, hready, if_true]
  have hend : prog B m (.insert k v i .compareKey) .go = ⟨m, .idle, some (.duplicate k)⟩ := by
    simp only [prog, insert, hkey, if_true]
  exact completes_insert_walk hset v hi hscan
    (.quiet (by simp) hload (.quiet (by simp) hcompare (.emits (by simp) hend (.done m))))

/-- An insert that gets to a free bucket. -/
theorem completes_insert_free (hset : Settled m) (v : V) (hi : i < B.size)
    (hscan : Scanned B m k i) (hfree : m.ready (B.bucket k i) = false) :
    Completes (prog B) .idle m (start (.insert k v)) (m.put (B.bucket k i) k v)
      [.inserted k v] := by
  have hload : prog B m (.insert k v i .loadOccupied) .go = ⟨m, .insert k v i .cas, none⟩ := by
    simp only [prog, insert, hset (B.bucket k i), hfree, Bool.false_eq_true, if_false]
  have hclaim : prog B m (.insert k v i .cas) .go
      = ⟨{ m with occupied := Function.update m.occupied (B.bucket k i) true },
        .insert k v i .writeKey, none⟩ := by
    simp only [prog, insert, hset (B.bucket k i), hfree, Bool.false_eq_true, if_false]
  refine completes_insert_walk hset v hi hscan (.quiet (by simp) hload
    (.quiet (by simp) hclaim (.quiet (by simp) rfl (.quiet (by simp) rfl ?_))))
  exact .emits (by simp) rfl (.done _)

/-- An insert that comes to no such bucket. -/
theorem completes_insert_full (hset : Settled m) (v : V) (hscan : Scanned B m k B.size) :
    Completes (prog B) .idle m (start (.insert k v)) m [.tableFull k] := by
  have hpos := B.pos
  obtain ⟨hready, hkey⟩ := hscan (B.size - 1) (by omega)
  have hnext : insertNext B m k v (B.size - 1) = ⟨m, .idle, some (.tableFull k)⟩ := by
    rw [insertNext, if_neg (by omega)]
  have hdone : Completes (prog B) .idle (insertNext B m k v (B.size - 1)).mem
      (insertNext B m k v (B.size - 1)).pc m [] := by
    rw [hnext]
    exact .done m
  have hpass := completes_insert_pass v ((hset _).trans hready) hready hkey hdone
  rw [hnext] at hpass
  exact completes_insert_walk hset v (by omega) (fun j hj => hscan j (by omega)) hpass

/-- A find compares the key of a ready bucket. -/
theorem prog_find_ready (hset : Settled m) (hready : m.ready (B.bucket k i) = true) :
    prog B m (.find k i .loadOccupied) .go = ⟨m, .find k i .loadReady, none⟩
      ∧ prog B m (.find k i .loadReady) .go = ⟨m, .find k i .compareKey, none⟩ := by
  simp only [prog, find, hset (B.bucket k i), hready, if_true, and_self]

/-- A find gets to the bucket up to which its probes have other keys. -/
theorem completes_find_walk (hset : Settled m) (hi : i < B.size) (hscan : Scanned B m k i)
    (h : Completes (prog B) .idle m (.find k i .loadOccupied) m' evs) :
    Completes (prog B) .idle m (.find k 0 .loadOccupied) m' evs := by
  induction i with
  | zero => exact h
  | succ i ih =>
      obtain ⟨hready, hkey⟩ := hscan i (Nat.lt_succ_self i)
      obtain ⟨hload, hcompare⟩ := prog_find_ready hset hready
      have hnext : prog B m (.find k i .compareKey) .go
          = ⟨m, .find k (i + 1) .loadOccupied, none⟩ := by
        simp only [prog, find, hkey, if_false, if_pos hi]
      exact ih (by omega) (fun j hj => hscan j (by omega))
        (.quiet (by simp) hload (.quiet (by simp) hcompare (.quiet (by simp) hnext h)))

/-- A find that gets to a bucket with its key. -/
theorem completes_find_found (hset : Settled m) (hi : i < B.size) (hscan : Scanned B m k i)
    (hready : m.ready (B.bucket k i) = true) (hkey : m.key (B.bucket k i) = k) :
    Completes (prog B) .idle m (start (.find k)) m [.found k (m.value (B.bucket k i))] := by
  obtain ⟨hload, hcompare⟩ := prog_find_ready hset hready
  have hmatch : prog B m (.find k i .compareKey) .go = ⟨m, .find k i .readValue, none⟩ := by
    simp only [prog, find, hkey, if_true]
  exact completes_find_walk hset hi hscan (.quiet (by simp) hload (.quiet (by simp) hcompare
    (.quiet (by simp) hmatch (.emits (by simp) rfl (.done m)))))

/-- A find that gets to a free bucket. -/
theorem completes_find_free (hset : Settled m) (hi : i < B.size) (hscan : Scanned B m k i)
    (hfree : m.ready (B.bucket k i) = false) :
    Completes (prog B) .idle m (start (.find k)) m [.absent k] := by
  have hend : prog B m (.find k i .loadOccupied) .go = ⟨m, .idle, some (.absent k)⟩ := by
    simp only [prog, find, hset (B.bucket k i), hfree, Bool.false_eq_true, if_false]
  exact completes_find_walk hset hi hscan (.emits (by simp) hend (.done m))

/-- A find that comes to no such bucket. -/
theorem completes_find_full (hset : Settled m) (hscan : Scanned B m k B.size) :
    Completes (prog B) .idle m (start (.find k)) m [.absent k] := by
  have hpos := B.pos
  obtain ⟨hready, hkey⟩ := hscan (B.size - 1) (by omega)
  obtain ⟨hload, hcompare⟩ := prog_find_ready hset hready
  have hend : prog B m (.find k (B.size - 1) .compareKey) .go = ⟨m, .idle, some (.absent k)⟩ := by
    have hlast : ¬ B.size - 1 + 1 < B.size := by omega
    simp only [prog, find, hkey, hlast, if_false]
  exact completes_find_walk hset (by omega) (fun j hj => hscan j (by omega))
    (.quiet (by simp) hload (.quiet (by simp) hcompare (.emits (by simp) hend (.done m))))

end Runs

/-! ## The bindings in the map -/

/-- What a call returns, with the caller's variable. -/
def Event.returned (r : V) : Event K V → Option (Bool × V)
  | .inserted _ _ => some (true, r)
  | .duplicate _ => some (false, r)
  | .tableFull _ => some (false, r)
  | .threw _ => none
  | .found _ v => some (true, v)
  | .absent _ => some (false, r)

theorem kept_put {m : Mem K V} (k : K) (v : V) {b : ℕ} (hfree : m.ready b = false) :
    Kept m (m.put b k v) := by
  have hne : ∀ {c}, m.ready c = true → c ≠ b := by
    rintro c hc rfl
    exact Bool.false_ne_true (hfree.symm.trans hc)
  refine ⟨update_true, fun {c} hc => ⟨update_true hc, ?_, ?_⟩⟩
  · exact Function.update_of_ne (hne hc) _ _
  · exact Function.update_of_ne (hne hc) _ _

section Bindings

variable [DecidableEq K]

/-- What a call does to a list of at most `n` bindings, what it returns, and what it
leaves in the variable the caller has passed to `find`, which is `r` before. -/
def boundedMap (n : ℕ) (r : V) (s : List (K × V)) : Op K V → List (K × V) × (Bool × V)
  | .insert k v =>
      if s.lookup k = none ∧ s.length < n then (s ++ [(k, v)], (true, r)) else (s, (false, r))
  | .find k =>
      match s.lookup k with
      | some v => (s, (true, v))
      | none => (s, (false, r))

/-- The map has the bindings `s`, and `d` filled buckets that no call comes to any more. There
are none of these after calls one after another. -/
structure Serves (B : Table K) (m : Mem K V) (d : ℕ) (s : List (K × V)) : Prop where
  settled : Settled m
  lookup_iff : ∀ {k v}, s.lookup k = some v ↔ Home B m k v
  home : ∀ {b}, b < B.size → m.ready b = true → ∃ v, Home B m (m.key b) v
  length_add : s.length + d = (marked B m.ready).card

section Lemmas

variable {B : Table K} {m : Mem K V} {d : ℕ} {s : List (K × V)} {k : K} {i : ℕ}

theorem Serves.lookup_eq_none (h : Serves B m d s) (hnone : ∀ v, ¬ Home B m k v) :
    s.lookup k = none := by
  rw [Option.eq_none_iff_forall_ne_some]
  exact fun v hv => hnone v (h.lookup_iff.mp hv)

theorem Serves.length_lt (h : Serves B m d s) (hfree : m.ready (B.bucket k i) = false) :
    s.length < B.size - d := by
  have hlt := card_marked_lt (B.bucket_lt k i) hfree
  have hadd := h.length_add
  omega

/-- If the probes of one key stop nowhere, all buckets are filled. -/
theorem Serves.length_of_full (h : Serves B m d s) (hscan : Scanned B m k B.size) :
    s.length = B.size - d := by
  have hfull := card_marked_of_probes k fun i hi => (hscan i hi).1
  have hadd := h.length_add
  omega

/-- The map has no bindings at first. -/
theorem Serves.init (B : Table K) (key : ℕ → K) (value : ℕ → V) :
    Serves B ⟨key, value, fun _ => false, fun _ => false⟩ 0 [] := by
  refine ⟨fun _ => rfl, fun {k v} => ?_, fun _ hready => absurd hready Bool.false_ne_true, ?_⟩
  · constructor
    · intro h
      cases h
    · rintro ⟨i, -, -, hready, -⟩
      exact absurd hready Bool.false_ne_true
  · simp [marked]

/-- The map after an insert into the free bucket at which the probes stop. -/
theorem Serves.put (h : Serves B m d s) (v : V) (hi : i < B.size) (hscan : Scanned B m k i)
    (hfree : m.ready (B.bucket k i) = false) :
    Serves B (m.put (B.bucket k i) k v) d (s ++ [(k, v)]) := by
  have hkept := kept_put k v hfree
  have hnew : Home B (m.put (B.bucket k i) k v) k v :=
    ⟨i, hi, hscan.mono hkept, Function.update_self _ _ _, Function.update_self _ _ _,
      Function.update_self _ _ _⟩
  -- a key that is found in another bucket was stored before, and is found where it was
  have hold : ∀ {k' w}, k' ≠ k → Home B (m.put (B.bucket k i) k v) k' w → Home B m k' w := by
    intro k' w hk' hw
    have hfound := hw
    obtain ⟨j, -, -, hready, hkey, -⟩ := hfound
    have hne : B.bucket k' j ≠ B.bucket k i := by
      intro heq
      rw [heq] at hkey
      exact hk' (hkey.symm.trans (Function.update_self _ _ _))
    simp only [Mem.put, Function.update_of_ne hne] at hready hkey
    obtain ⟨w', hw'⟩ := h.home (B.bucket_lt k' j) hready
    rw [hkey] at hw'
    rwa [hw.unique (hw'.mono hkept)]
  refine ⟨fun b => ?_, fun {k' w} => ?_, fun {b} hb hready => ?_, ?_⟩
  · simp only [Mem.put, Function.update_apply, h.settled b]
  · rw [List.lookup_append]
    by_cases hk' : k' = k
    · subst hk'
      rw [h.lookup_eq_none (not_home_of_free hscan hfree), List.lookup_cons_self,
        Option.none_or, Option.some_inj]
      constructor
      · rintro rfl
        exact hnew
      · exact hnew.unique
    · have hnone : List.lookup k' [(k, v)] = none := by
        rw [List.lookup_eq_none_iff]
        simpa using hk'
      rw [hnone, Option.or_none, h.lookup_iff]
      exact ⟨fun hhome => hhome.mono hkept, hold hk'⟩
  · by_cases hbi : b = B.bucket k i
    · subst hbi
      simp only [Mem.put, Function.update_self]
      exact ⟨v, hnew⟩
    · simp only [Mem.put, Function.update_of_ne hbi] at hready ⊢
      obtain ⟨w, hw⟩ := h.home hb hready
      exact ⟨w, hw.mono hkept⟩
  · have hcard := card_marked_update (B.bucket_lt k i) hfree
    have hadd := h.length_add
    show (s ++ [(k, v)]).length + d = (marked B (Function.update m.ready _ true)).card
    rw [List.length_append, List.length_singleton]
    omega

/-- Every call returns what a list of bindings does for which the buckets out of reach leave
room. -/
theorem Serves.completes (h : Serves B m d s) (r : V) (op : Op K V) :
    ∃ m' evs, Completes (prog B) .idle m (start op) m' evs
      ∧ Serves B m' d (boundedMap (B.size - d) r s op).1
      ∧ evs.map (Event.returned r) = [some (boundedMap (B.size - d) r s op).2] := by
  cases op with
  | insert k v =>
      rcases exists_stop B m k with ⟨i, hi, hscan, hready, hkey⟩ | ⟨i, hi, hscan, hfree⟩ | hscan
      · have hlookup : s.lookup k = some (m.value (B.bucket k i)) :=
          h.lookup_iff.mpr ⟨i, hi, hscan, hready, hkey, rfl⟩
        have hspec : boundedMap (B.size - d) r s (.insert k v) = (s, (false, r)) := by
          simp [boundedMap, hlookup]
        rw [hspec]
        exact ⟨m, _, completes_insert_duplicate h.settled v hi hscan hready hkey, h, rfl⟩
      · have hspec : boundedMap (B.size - d) r s (.insert k v) = (s ++ [(k, v)], (true, r)) :=
          if_pos ⟨h.lookup_eq_none (not_home_of_free hscan hfree), h.length_lt hfree⟩
        rw [hspec]
        exact ⟨_, _, completes_insert_free h.settled v hi hscan hfree,
          h.put v hi hscan hfree, rfl⟩
      · have hfull : ¬ s.length < B.size - d := by
          rw [h.length_of_full hscan]
          exact Nat.lt_irrefl _
        have hspec : boundedMap (B.size - d) r s (.insert k v) = (s, (false, r)) :=
          if_neg fun hroom => hfull hroom.2
        rw [hspec]
        exact ⟨m, _, completes_insert_full h.settled v hscan, h, rfl⟩
  | find k =>
      rcases exists_stop B m k with ⟨i, hi, hscan, hready, hkey⟩ | ⟨i, hi, hscan, hfree⟩ | hscan
      · have hlookup : s.lookup k = some (m.value (B.bucket k i)) :=
          h.lookup_iff.mpr ⟨i, hi, hscan, hready, hkey, rfl⟩
        simp only [boundedMap, hlookup]
        exact ⟨m, _, completes_find_found h.settled hi hscan hready hkey, h, rfl⟩
      · simp only [boundedMap, h.lookup_eq_none (not_home_of_free hscan hfree)]
        exact ⟨m, _, completes_find_free h.settled hi hscan hfree, h, rfl⟩
      · simp only [boundedMap, h.lookup_eq_none (not_home_of_full hscan)]
        exact ⟨m, _, completes_find_full h.settled hscan, h, rfl⟩

/-- So do the calls of a log. -/
theorem Serves.answers (h : Serves B m d s) (r : V) {m' : Mem K V}
    {L : List (Call (Mem K V) (Op K V) (Event K V))}
    (hlog : CallLog (Completes (prog B) .idle) start m m' L) :
    L.map (fun c => c.events.map (Event.returned r))
        = (answers (boundedMap (B.size - d) r) s (L.map (·.op))).map (fun a => [some a])
      ∧ ∀ op, ∃ m'' evs, Completes (prog B) .idle m' (start op) m'' evs := by
  obtain ⟨hserves, hreturned⟩ := hlog.refines (boundedMap (B.size - d) r) (Serves B · d)
    (List.map (Event.returned r)) (fun a => [some a])
    (fun {m s op m' evs} h hrun => by
      obtain ⟨m'', evs', hrun', hserves, hreturned⟩ := h.completes r op
      obtain ⟨rfl, rfl⟩ := hrun.unique hrun'
      exact ⟨hserves, hreturned⟩)
    h
  refine ⟨hreturned, fun op => ?_⟩
  obtain ⟨m'', evs, hrun, -⟩ := hserves.completes r op
  exact ⟨m'', evs, hrun⟩

end Lemmas

/-- Calls one after another, of which no copy throws, return what those of a list of
at most `Size` bindings do, and every call returns. -/
theorem refines_boundedMap (B : Table K) (key₀ : ℕ → K) (value₀ : ℕ → V) (r : V)
    {m : Mem K V} {L : List (Call (Mem K V) (Op K V) (Event K V))}
    (hlog : CallLog (Completes (prog B) .idle) start
      ⟨key₀, value₀, fun _ => false, fun _ => false⟩ m L) :
    L.map (fun c => c.events.map (Event.returned r))
        = (answers (boundedMap B.size r) [] (L.map (·.op))).map (fun a => [some a])
      ∧ ∀ op, ∃ m' evs, Completes (prog B) .idle m (start op) m' evs :=
  (Serves.init B key₀ value₀).answers r hlog

/-- Two buckets that every key starts at the first of: 5 and 7 are stored, a second
value for 5 and a third key are not. -/
theorem refines_boundedMap_collisions :
    ∃ m L, CallLog (Completes (prog twoBuckets) .idle) start
        ⟨fun _ => 0, fun _ => 0, fun _ => false, fun _ => false⟩ m L
      ∧ L.map (·.op) = [.insert 5 1, .insert 7 2, .insert 5 3, .insert 9 4, .find 5, .find 9]
      ∧ L.map (fun c => c.events.map (Event.returned 8)) = [[some (true, 8)], [some (true, 8)],
        [some (false, 8)], [some (false, 8)], [some (true, 1)], [some (false, 8)]] := by
  have hlog := fun {m L} => refines_boundedMap twoBuckets (fun _ => 0) (fun _ => 0) 8
    (m := m) (L := L)
  obtain ⟨m, L, h, hops⟩ := exists_callLog (fun m L h op => (hlog h).2 op)
    [.insert 5 1, .insert 7 2, .insert 5 3, .insert 9 4, .find 5, .find 9]
  refine ⟨m, L, h, hops, ?_⟩
  rw [(hlog h).1, hops]
  decide

end Bindings

end HashMap

end Lockless
