import Lockless.HashMapCalls

/-!
# The hash map at rest

Inserts and finds are made at once, and then every call has returned. Two inserts of one key
may then both have stored it, since an insert passes over a bucket that it cannot compare.
But every find comes to the first of the buckets of its key, and so does every later insert:
what is in the others is out of reach for good, and the map is one of fewer buckets.

Nothing else is lost. Inserts pass over occupied buckets only, and at rest, if no copy has
thrown, an occupied bucket is ready; so the probes for a key that is stored come to a bucket
that has it before they come to one that is free.
-/

namespace Lockless

namespace HashMap

variable {ι K V : Type*}

/-! ## What inserts have passed -/

/-- The buckets before the `i`th probe for `k` are occupied. -/
def Crossed (B : Table K) (m : Mem K V) (k : K) (i : ℕ) : Prop :=
  ∀ j, j < i → m.occupied (B.bucket k j) = true

/-- The buckets an insert has passed are occupied, and so are those in front of a bucket
that is ready. -/
structure Probes (B : Table K) (c : Config ι (Mem K V) (PC K V)) : Prop where
  inserts : ∀ {p key value i pc}, c.pc p = .insert key value i pc → Crossed B c.mem key i
  ready : ∀ {b}, c.mem.ready b = true →
    ∃ i, B.bucket (c.mem.key b) i = b ∧ Crossed B c.mem (c.mem.key b) i

theorem Crossed.mono {B : Table K} {m m' : Mem K V} {k : K} {i : ℕ} (h : Crossed B m k i)
    (hk : Kept m m') : Crossed B m' k i :=
  fun j hj => hk.occupied (h j hj)

section Step

variable {B : Table K} {c : Config ι (Mem K V) (PC K V)} {p : ι} {m : Mem K V}
  {pc : PC K V} {ev : Option (Event K V)}

/-- A bucket that is of no use to an insert is occupied. -/
theorem Buckets.occupied_of_rejects (h : Buckets B c) {key : K} {value : V} {i : ℕ}
    {ipc : InsertPC} (hpc : c.pc p = .insert key value i ipc)
    (hrej : Rejects c.mem key (B.bucket key i) ipc) :
    c.mem.occupied (B.bucket key i) = true := by
  have hloc := h.locals p
  rw [hpc] at hloc
  cases ipc with
  | loadReady => exact hloc
  | compareKey => exact hloc.1
  | cas => exact hrej
  | _ => exact hrej.elim

theorem Probes.step [DecidableEq ι] (h : Probes B c) (hb : Buckets B c)
    (he : Effect B c.mem (c.pc p) m pc ev) : Probes B ⟨m, Function.update c.pc p pc⟩ where
  inserts := fun {q key value i ipc} hq => by
    have hkept := hb.kept he
    by_cases hqp : q = p
    · subst hqp
      simp only [Function.update_self] at hq
      rcases he.probe hq with rfl | ⟨ipc', hpc⟩ | ⟨j, ipc', rfl, hpc, hrej⟩
      · exact fun j hj => absurd hj (Nat.not_lt_zero j)
      · exact (h.inserts hpc).mono hkept
      · intro l hl
        rcases Nat.lt_succ_iff_lt_or_eq.mp hl with hlt | rfl
        · exact hkept.occupied (h.inserts hpc l hlt)
        · exact hkept.occupied (hb.occupied_of_rejects hpc hrej)
    · simp only [Function.update_of_ne hqp] at hq
      exact (h.inserts hq).mono hkept
  ready := fun {b} hready => by
    have hkept := hb.kept he
    rcases hb.ready_cases he hready with ⟨hold, hkey⟩ | hfill
    · obtain ⟨i, hi, hcross⟩ := h.ready hold
      simp only [hkey]
      exact ⟨i, hi, hcross.mono hkept⟩
    · obtain ⟨value, i, ipc, hpc, hi, -⟩ := PC.filling_eq_some hfill
      exact ⟨i, hi, (h.inserts hpc).mono hkept⟩

end Step

/-! ## How many buckets are filled -/

/-- One more bucket is filled by an insert that returns true, and by no other step. -/
theorem Buckets.card_ready_step {B : Table K} {c : Config ι (Mem K V) (PC K V)} {p : ι}
    {m : Mem K V} {pc : PC K V} {ev : Option (Event K V)} (h : Buckets B c)
    (he : Effect B c.mem (c.pc p) m pc ev) :
    (marked B m.ready).card
      = (marked B c.mem.ready).card + (ev.bind (Event.result true)).toList.length := by
  have hloc := h.locals p
  generalize c.pc p = pc₀ at he hloc
  cases he with
  | publish key value i => exact card_marked_update (B.bucket_lt key i) hloc.2.1
  | _ => rfl

/-! ## Runs -/

section Run

variable [DecidableEq ι] [DecidableEq K] {B : Table K} {key₀ : ℕ → K} {value₀ : ℕ → V}
  {sched : ℕ → ι × Choice (Op K V)} {n : ℕ}

theorem probes_run (n : ℕ) : Probes B ((system B ι key₀ value₀).run sched n) := by
  have hinit : Reads B ((system B ι key₀ value₀).run sched 0) _ := reads_run 0
  refine And.right ((system B ι key₀ value₀).invariant
    (I := fun c _ => Buckets B c ∧ Probes B c) ⟨hinit.buckets, ?_⟩
    (fun c H a h => ?_) sched n)
  · refine ⟨fun hpc => ?_, fun hb => ?_⟩
    · cases hpc
    · cases hb
  · have he := prog_effect (B := B) c.mem (c.pc a.1) a.2
    exact ⟨h.1.step he, h.2.step h.1 he⟩

/-- As many inserts have returned true as buckets are filled. -/
theorem length_results_true (n : ℕ) :
    (results true ((system B ι key₀ value₀).history sched n)).length
      = (marked B ((system B ι key₀ value₀).run sched n).mem.ready).card := by
  induction n with
  | zero => simp [System.history, results, marked, System.run, system]
  | succ n ih =>
      have hreads : Reads B ((system B ι key₀ value₀).run sched n) _ := reads_run n
      have hstep := hreads.buckets.card_ready_step (p := (sched n).1)
        (prog_effect _ _ (sched n).2)
      rw [System.history_succ, System.emitted, results_append, List.length_append, ih]
      exact hstep.symm

theorem settled_of_idle (hthrow : ∀ i, i < n → (sched i).2 ≠ .fault)
    (hidle : ∀ p, ((system B ι key₀ value₀).run sched n).pc p = .idle) :
    Settled ((system B ι key₀ value₀).run sched n).mem := by
  intro b
  rw [Bool.eq_iff_iff]
  refine ⟨fun hocc => ?_, fun hready => (reads_run n).buckets.occupied hready⟩
  rcases covered_run hthrow b hocc with hready | ⟨p, k, hp⟩
  · exact hready
  · rw [hidle p] at hp
    cases hp

end Run

/-! ## Bindings within reach -/

/-- A stored key whose bucket has only occupied ones in front of it is found. -/
theorem Settled.exists_home {B : Table K} {m : Mem K V} (h : Settled m) {b i : ℕ}
    (hready : m.ready b = true) (hi : B.bucket (m.key b) i = b)
    (hcross : Crossed B m (m.key b) i) : ∃ v, Home B m (m.key b) v := by
  have hb : b < B.size := hi ▸ B.bucket_lt (m.key b) i
  rcases exists_stop B m (m.key b) with ⟨j, hj, hscan, hready', hkey⟩ | ⟨j, -, hscan, hfree⟩
      | hscan
  · exact ⟨_, j, hj, hscan, hready', hkey, rfl⟩
  · rcases Nat.lt_trichotomy j i with hlt | rfl | hgt
    · have hocc := hcross j hlt
      rw [h, hfree] at hocc
      cases hocc
    · rw [hi, hready] at hfree
      cases hfree
    · exact absurd (by rw [hi]) (hscan i hgt).2
  · obtain ⟨j, hj, hjb⟩ := B.exists_bucket (m.key b) hb
    exact absurd (by rw [hjb]) (hscan j hj).2

/-! ## Calls after a run -/

theorem exists_bindings {P : K → V → Prop} (l : List K) (h : ∀ k, k ∈ l → ∃ v, P k v) :
    ∃ s : List (K × V), s.map Prod.fst = l ∧ ∀ x, x ∈ s → P x.1 x.2 := by
  induction l with
  | nil => exact ⟨[], rfl, nofun⟩
  | cons k l ih =>
      obtain ⟨s, hkeys, hs⟩ := ih fun k' hk' => h k' (List.mem_cons_of_mem k hk')
      obtain ⟨v, hv⟩ := h k List.mem_cons_self
      refine ⟨(k, v) :: s, by rw [List.map_cons, hkeys], fun x hx => ?_⟩
      rcases List.mem_cons.mp hx with rfl | hx
      · exact hv
      · exact hs x hx

/-- A settled map in which every stored key is found has bindings of different keys. -/
theorem Settled.exists_serves [DecidableEq K] {B : Table K} {m : Mem K V} (h : Settled m)
    (hhome : ∀ {b}, b < B.size → m.ready b = true → ∃ v, Home B m (m.key b) v) :
    ∃ d s, Serves B m d s ∧ (s.map Prod.fst).Nodup ∧ ∀ x, x ∈ s → Home B m x.1 x.2 := by
  have hkey : ∀ k, k ∈ ((marked B m.ready).image m.key).toList → ∃ v, Home B m k v := by
    intro k hk
    obtain ⟨b, hb, rfl⟩ := Finset.mem_image.mp (Finset.mem_toList.mp hk)
    rw [mem_marked] at hb
    exact hhome hb.1 hb.2
  obtain ⟨s, hkeys, hs⟩ := exists_bindings _ hkey
  have hle : s.length ≤ (marked B m.ready).card := by
    rw [← List.length_map Prod.fst, hkeys, Finset.length_toList]
    exact Finset.card_image_le
  refine ⟨(marked B m.ready).card - s.length, s, ⟨h, fun {k v} => ⟨fun hv => ?_, fun hhome' => ?_⟩,
    hhome, by omega⟩, hkeys ▸ Finset.nodup_toList _, hs⟩
  · obtain ⟨l, l', rfl, -⟩ := List.lookup_eq_some_iff.mp hv
    exact hs (k, v) (by simp)
  · have hfound := hhome'
    obtain ⟨i, -, -, hready, hk, -⟩ := hfound
    have hmem : k ∈ s.map Prod.fst := by
      rw [hkeys, Finset.mem_toList, Finset.mem_image]
      exact ⟨B.bucket k i, mem_marked.mpr ⟨B.bucket_lt k i, hready⟩, hk⟩
    cases hlookup : s.lookup k with
    | none =>
        obtain ⟨x, hx, rfl⟩ := List.mem_map.mp hmem
        have := List.lookup_eq_none_iff.mp hlookup x hx
        simp at this
    | some w =>
        obtain ⟨l, l', rfl, -⟩ := List.lookup_eq_some_iff.mp hlookup
        have hw : Home B m k w := hs (k, w) (by simp)
        rw [hw.unique hhome']

/-- **The map after any interleaving.** In every run in which no copy throws, when no call is
in flight, there are bindings of different keys, those for which an insert has returned true,
each with the value of such an insert and the value that every find of it has returned, such
that calls made one after another by one thread return, and answer as those of a bounded list
of bindings that starts with these. What it holds is the number of buckets less `d`, where `d`
is how many inserts more have returned true than there are keys. -/
theorem map_at_rest [DecidableEq ι] [DecidableEq K] (B : Table K) (key₀ : ℕ → K)
    (value₀ : ℕ → V) (sched : ℕ → ι × Choice (Op K V)) (n : ℕ)
    (hthrow : ∀ i, i < n → (sched i).2 ≠ .fault)
    (hidle : ∀ p, ((system B ι key₀ value₀).run sched n).pc p = .idle) :
    let c := (system B ι key₀ value₀).run sched n
    let H := (system B ι key₀ value₀).history sched n
    ∃ d s, (s.map Prod.fst).Nodup ∧ (∀ k, k ∈ s.map Prod.fst ↔ k ∈ results true H)
      ∧ (∀ x, x ∈ s → ∃ p, (p, .inserted x.1 x.2) ∈ H)
      ∧ (∀ p k v, (p, .found k v) ∈ H → (k, v) ∈ s)
      ∧ s.length + d = (results true H).length
      ∧ ∀ r m L, CallLog (Completes (prog B) .idle) start c.mem m L →
        L.map (fun x => x.events.map (Event.returned r))
            = (answers (boundedMap (B.size - d) r) s (L.map (·.op))).map (fun a => [some a])
          ∧ ∀ op, ∃ m' evs, Completes (prog B) .idle m (start op) m' evs := by
  intro c H
  have hset : Settled c.mem := settled_of_idle hthrow hidle
  obtain ⟨d, s, hserves, hnodup, hs⟩ := hset.exists_serves (B := B) fun {b} _ hready => by
    obtain ⟨i, hi, hcross⟩ := (probes_run n).ready hready
    exact hset.exists_home hready hi hcross
  have hmem : ∀ {k v}, Home B c.mem k v → (k, v) ∈ s := by
    intro k v hhome
    obtain ⟨l, l', rfl, -⟩ := List.lookup_eq_some_iff.mp (hserves.lookup_iff.mpr hhome)
    simp
  have hinserted : ∀ x, x ∈ s → ∃ p, (p, Event.inserted x.1 x.2) ∈ H := by
    intro x hx
    obtain ⟨j, q, hj, hfires⟩ := exists_inserted_of_home (hs x hx)
    exact ⟨q, (System.mem_history _).mpr ⟨j, hj, hfires⟩⟩
  refine ⟨d, s, hnodup, fun k => ⟨fun hk => ?_, fun hk => ?_⟩, hinserted, fun p k v hfound => ?_,
    ?_, fun r m L hlog => ?_⟩
  · obtain ⟨x, hx, rfl⟩ := List.mem_map.mp hk
    obtain ⟨p, hp⟩ := hinserted x hx
    exact mem_results.mpr ⟨p, _, hp, rfl⟩
  · obtain ⟨p, e, he, hresult⟩ := mem_results.mp hk
    obtain ⟨i, hi, hfires⟩ := (System.mem_history _).mp he
    cases e with
    | inserted k' v =>
        cases hresult
        obtain ⟨b, hready, rfl, -⟩ := exists_ready_of_inserted hi hfires
        obtain ⟨j, hj, hcross⟩ := (probes_run n).ready hready
        obtain ⟨w, hw⟩ := hset.exists_home hready hj hcross
        exact List.mem_map_of_mem (hmem hw)
    | _ => cases hresult
  · obtain ⟨i, hi, hfires⟩ := (System.mem_history _).mp hfound
    exact hmem ((home_of_fires hfires).mono (kept_run hi.le))
  · rw [length_results_true]
    exact hserves.length_add
  · exact hserves.answers r hlog

/-- After the two inserts of 5 one thread looks for it. -/
def racingThenFind : ℕ → Bool × Choice (Op ℕ ℕ) := fun i =>
  if i < 14 then racingInserts i else if i = 14 then (true, .call (.find 5)) else (true, .go)

/-- Of the two buckets that have 5 one is out of reach, and there is no room for 7. -/
theorem map_at_rest_racingThenFind :
    ∃ m L, CallLog (Completes (prog twoBuckets) .idle) start
        ((system twoBuckets Bool (fun _ => 0) fun _ => 0).run racingThenFind 19).mem m L
      ∧ L.map (·.op) = [.insert 5 3, .insert 7 2, .find 7, .find 5]
      ∧ L.map (fun x => x.events.map (Event.returned 8))
        = [[some (false, 8)], [some (false, 8)], [some (false, 8)], [some (true, 1)]] := by
  obtain ⟨d, s, hnodup, hkeys, -, hfound, hlen, hcalls⟩ := map_at_rest twoBuckets (fun _ => 0)
    (fun _ => 0) racingThenFind 19 (by decide +kernel) (by decide +kernel)
  have hresults : results true ((system twoBuckets Bool (fun _ => 0) fun _ => 0).history
      racingThenFind 19) = [5, 5] := by decide +kernel
  rw [hresults] at hlen
  have hkeys' : s.map Prod.fst = [5] := by
    refine List.perm_singleton.mp ((List.perm_ext_iff_of_nodup hnodup (by simp)).mpr fun k => ?_)
    rw [hkeys, hresults]
    simp
  obtain ⟨x, rfl⟩ : ∃ x, s = [x] := by
    rw [← List.length_eq_one_iff, ← List.length_map Prod.fst, hkeys']
    rfl
  obtain rfl : x = (5, 1) := (List.mem_singleton.mp (hfound true 5 1 (by decide +kernel))).symm
  obtain rfl : d = 1 := Nat.add_left_cancel (n := 1) hlen
  obtain ⟨m, L, hlog, hops⟩ := exists_callLog (fun m L h op => (hcalls 8 m L h).2 op)
    [.insert 5 3, .insert 7 2, .find 7, .find 5]
  refine ⟨m, L, hlog, hops, ?_⟩
  rw [(hcalls 8 m L hlog).1, hops]
  rfl

end HashMap

end Lockless
