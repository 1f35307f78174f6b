import Lockless.HashMapCalls

/-!
# Inserts that throw

Copying or moving the key or the value may throw out of `insert`, after it has
claimed its bucket and before it has set `ready`. Nothing undoes the claim. The
bucket stays occupied and is never ready, and it is on the way of the probes of the
key: a later `find` of the key comes to it, or to one that an earlier insert has left
so, and waits forever.

So there is no state and no point at which an insert can throw and leave a map that
behaves as if it had not been called.
-/

namespace Lockless

namespace HashMap

variable {K V : Type*}

/-- The buckets before the `i`th probe for `k` are occupied, and none of them shows
the key. -/
def Skipped (B : Table K) (m : Mem K V) (k : K) (i : ℕ) : Prop :=
  ∀ j, j < i → m.occupied (B.bucket k j) = true
    ∧ ¬ (m.ready (B.bucket k j) = true ∧ m.key (B.bucket k j) = k)

theorem Skipped.succ {B : Table K} {m : Mem K V} {k : K} {i : ℕ} (h : Skipped B m k i)
    (hocc : m.occupied (B.bucket k i) = true)
    (hnot : ¬ (m.ready (B.bucket k i) = true ∧ m.key (B.bucket k i) = k)) :
    Skipped B m k (i + 1) := by
  intro j hj
  rcases Nat.lt_succ_iff_lt_or_eq.mp hj with hlt | rfl
  · exact h j hlt
  · exact ⟨hocc, hnot⟩

/-! ## A find that does not return -/

/-- The probes of a key come to a bucket that is claimed but not ready. -/
def Stuck (B : Table K) (m : Mem K V) (k : K) : Prop :=
  ∃ i, i < B.size ∧ Skipped B m k i ∧ m.occupied (B.bucket k i) = true
    ∧ m.ready (B.bucket k i) = false

/-- Where a find is before it has got past the `i`th probe. -/
def Before (B : Table K) (m : Mem K V) (k : K) (i : ℕ) : PC K V → Prop
  | .find key j .loadOccupied => key = k ∧ j ≤ i
  | .find key j .loadReady => key = k ∧ j ≤ i
  | .find key j .spin => key = k ∧ j ≤ i
  | .find key j .compareKey => key = k ∧ j ≤ i ∧ m.ready (B.bucket k j) = true
  | _ => False

variable [DecidableEq K] {B : Table K} {m m' : Mem K V} {k : K} {i : ℕ}

theorem Before.step (hi : i < B.size) (hskip : Skipped B m k i)
    (hocc : m.occupied (B.bucket k i) = true) (hready : m.ready (B.bucket k i) = false)
    {pc : PC K V} (h : Before B m k i pc) :
    (prog B m pc .go).mem = m ∧ Before B m k i (prog B m pc .go).pc := by
  cases pc with
  | find key j pc =>
      cases pc with
      | loadOccupied =>
          obtain ⟨rfl, hj⟩ := h
          have hocc' : m.occupied (B.bucket key j) = true := by
            rcases Nat.lt_or_eq_of_le hj with hlt | rfl
            · exact (hskip j hlt).1
            · exact hocc
          simp only [prog, find, hocc', if_true]
          exact ⟨trivial, rfl, hj⟩
      | loadReady | spin =>
          obtain ⟨rfl, hj⟩ := h
          simp only [prog, find]
          split_ifs with hr
          · exact ⟨rfl, rfl, hj, hr⟩
          · exact ⟨rfl, rfl, hj⟩
      | compareKey =>
          obtain ⟨rfl, hj, hr⟩ := h
          have hlt : j < i := by
            refine Nat.lt_of_le_of_ne hj ?_
            rintro rfl
            exact Bool.false_ne_true (hready.symm.trans hr)
          have hkey : m.key (B.bucket key j) ≠ key := fun hkey => (hskip j hlt).2 ⟨hr, hkey⟩
          have hnext : j + 1 < B.size := by omega
          simp only [prog, find, hkey, hnext, if_false, if_true]
          exact ⟨trivial, rfl, hlt⟩
      | readValue => exact h.elim
  | _ => exact h.elim

theorem Stuck.not_completes (h : Stuck B m k) :
    ¬ ∃ m' evs, Completes (prog B) .idle m (start (.find k)) m' evs := by
  obtain ⟨i, hi, hskip, hocc, hready⟩ := h
  refine Lockless.not_completes (J := fun m' pc => m' = m ∧ Before B m k i pc) ?_ ?_
    ⟨rfl, rfl, Nat.zero_le i⟩
  · rintro m' ⟨-, h⟩
    exact h
  · rintro m' pc ⟨rfl, h⟩
    exact Before.step hi hskip hocc hready h

/-! ## What a throwing insert leaves -/

/-- What holds during an insert of `k` left alone, from the memory `m` on. -/
def Inserting (B : Table K) (m : Mem K V) (k : K) (v : V) (m' : Mem K V) : PC K V → Prop
  | .insert key value i pc => key = k ∧ value = v ∧ i < B.size ∧ Skipped B m k i ∧
      match pc with
      | .loadOccupied => m' = m
      | .loadReady => m' = m ∧ m.occupied (B.bucket k i) = true
      | .compareKey => m' = m ∧ m.occupied (B.bucket k i) = true
      | .cas => m' = m ∧ m.occupied (B.bucket k i) = false
      | .writeKey | .writeValue | .publish => m.occupied (B.bucket k i) = false
          ∧ m'.occupied = Function.update m.occupied (B.bucket k i) true
          ∧ m'.ready = m.ready ∧ ∀ b, b ≠ B.bucket k i → m'.key b = m.key b
  | _ => False

/-- The insert has claimed the bucket at which the probes of the key stop, and left it
as it was. -/
def Abandoned (B : Table K) (m : Mem K V) (k : K) (m' : Mem K V) : Prop :=
  ∃ i, i < B.size ∧ Skipped B m k i ∧ m.occupied (B.bucket k i) = false
    ∧ m'.occupied = Function.update m.occupied (B.bucket k i) true
    ∧ m'.ready = m.ready ∧ ∀ b, b ≠ B.bucket k i → m'.key b = m.key b

omit [DecidableEq K] in
theorem Inserting.next {v : V} (hskip : Skipped B m k (i + 1)) :
    (Inserting B m k v (insertNext B m k v i).mem (insertNext B m k v i).pc
        ∧ (insertNext B m k v i).event = none)
      ∨ ((insertNext B m k v i).pc = .idle ∧ ∃ e, (insertNext B m k v i).event = some e
        ∧ (∀ k', e = .threw k' → Abandoned B m k (insertNext B m k v i).mem)) := by
  unfold insertNext
  split_ifs with hi
  · exact Or.inl ⟨⟨rfl, rfl, hi, hskip, rfl⟩, rfl⟩
  · exact Or.inr ⟨rfl, _, rfl, fun k' h => by cases h⟩

theorem Inserting.step {v : V} {pc : PC K V} (h : Inserting B m k v m' pc) (throws : Bool)
    {o : Outcome (Mem K V) (PC K V) (Event K V)}
    (ho : ∀ i ipc, pc = .insert k v i ipc → o = insert B m' throws k v i ipc) :
    (Inserting B m k v o.mem o.pc ∧ o.event = none)
      ∨ (o.pc = .idle ∧ ∃ e, o.event = some e
        ∧ (∀ k', e = .threw k' → Abandoned B m k o.mem)) := by
  cases pc with
  | insert key value i ipc =>
      obtain ⟨rfl, rfl, hi, hskip, h⟩ := h
      rw [ho i ipc rfl]
      cases ipc with
      | loadOccupied =>
          obtain rfl := h
          simp only [insert]
          split_ifs with hocc
          · exact Or.inl ⟨⟨rfl, rfl, hi, hskip, rfl, hocc⟩, rfl⟩
          · exact Or.inl ⟨⟨rfl, rfl, hi, hskip, rfl, by simpa using hocc⟩, rfl⟩
      | loadReady =>
          obtain ⟨rfl, hocc⟩ := h
          simp only [insert]
          split_ifs with hready
          · exact Or.inl ⟨⟨rfl, rfl, hi, hskip, rfl, hocc⟩, rfl⟩
          · exact Inserting.next (hskip.succ hocc fun h => hready h.1)
      | compareKey =>
          obtain ⟨rfl, hocc⟩ := h
          simp only [insert]
          split_ifs with hkey
          · exact Or.inr ⟨rfl, _, rfl, fun k' h => by cases h⟩
          · exact Inserting.next (hskip.succ hocc fun h => hkey h.2)
      | cas =>
          obtain ⟨rfl, hfree⟩ := h
          simp only [insert, hfree, Bool.false_eq_true, if_false]
          exact Or.inl ⟨⟨rfl, rfl, hi, hskip, hfree, rfl, rfl, fun _ _ => rfl⟩, trivial⟩
      | writeKey =>
          simp only [insert]
          split_ifs
          · exact Or.inr ⟨rfl, _, rfl, fun _ _ => ⟨i, hi, hskip, h⟩⟩
          · obtain ⟨hfree, hocc, hready, hkey⟩ := h
            refine Or.inl ⟨⟨rfl, rfl, hi, hskip, hfree, hocc, hready, fun b hb => ?_⟩, rfl⟩
            rw [← hkey b hb]
            exact Function.update_of_ne hb _ _
      | writeValue =>
          simp only [insert]
          split_ifs
          · exact Or.inr ⟨rfl, _, rfl, fun _ _ => ⟨i, hi, hskip, h⟩⟩
          · exact Or.inl ⟨⟨rfl, rfl, hi, hskip, h⟩, rfl⟩
      | publish => exact Or.inr ⟨rfl, _, rfl, fun k' h => by cases h⟩
  | _ => exact h.elim

/-- An insert that has thrown has abandoned its bucket. -/
theorem abandoned_of_threw {v : V} {evs : List (Event K V)}
    (hrun : Ends (prog B) .idle m (start (.insert k v)) m' evs) (hthrew : .threw k ∈ evs) :
    Abandoned B m k m' := by
  have hidle : ∀ m', ¬ Inserting B m k v m' .idle := fun _ h => h
  obtain ⟨e, rfl, he⟩ := Ends.rule (J := Inserting B m k v)
    (Q := fun m' e => ∀ k', e = .threw k' → Abandoned B m k m') (fun m' pc ch h hch => by
      rcases Choice.go_or_fault hch with rfl | rfl
      · exact h.step false fun i ipc hpc => by rw [hpc]; rfl
      · exact h.step true fun i ipc hpc => by rw [hpc]; rfl)
    hidle hrun ⟨rfl, rfl, B.pos, fun j hj => absurd hj (Nat.not_lt_zero j), rfl⟩
  exact he k (List.mem_singleton.mp hthrew).symm

omit [DecidableEq K] in
theorem Abandoned.stuck (h : Abandoned B m k m')
    (hready : ∀ {b}, m.ready b = true → m.occupied b = true) : Stuck B m' k := by
  obtain ⟨i, hi, hskip, hfree, hocc, hflags, hkeys⟩ := h
  have hne : ∀ {j}, j < i → B.bucket k j ≠ B.bucket k i := by
    intro j hj heq
    have := (hskip j hj).1
    rw [heq, hfree] at this
    exact Bool.false_ne_true this
  refine ⟨i, hi, fun j hj => ?_, ?_, ?_⟩
  · rw [hocc, hflags, Function.update_of_ne (hne hj), hkeys _ (hne hj)]
    exact hskip j hj
  · rw [hocc, Function.update_self]
  · rw [hflags, Bool.eq_false_iff]
    intro hcon
    rw [hready hcon] at hfree
    cases hfree

/-- Without the insert a find of the key would have returned. -/
theorem Abandoned.completes_find (h : Abandoned B m k m') (hset : Settled m) :
    Completes (prog B) .idle m (start (.find k)) m [.absent k] := by
  obtain ⟨i, hi, hskip, hfree, -⟩ := h
  refine completes_find_free hset hi (fun j hj => ?_) ((hset _).symm.trans hfree)
  obtain ⟨hocc, hnot⟩ := hskip j hj
  have hready := (hset _).symm.trans hocc
  exact ⟨hready, fun hkey => hnot ⟨hready, hkey⟩⟩

/-! ## Later calls -/

/-- From `m'` on, all calls return, with the results they have from `m` on. -/
def SameCalls (B : Table K) (m m' : Mem K V) : Prop :=
  ∀ ops : List (Op K V), ∃ m₁ L₁ m₂ L₂,
    CallLog (Completes (prog B) .idle) start m m₁ L₁
      ∧ CallLog (Completes (prog B) .idle) start m' m₂ L₂
      ∧ L₁.map (·.op) = ops ∧ L₂.map (·.op) = ops
      ∧ L₁.map (·.events) = L₂.map (·.events)

theorem not_sameCalls (h : Stuck B m' k) : ¬ SameCalls B m m' := by
  intro hsame
  obtain ⟨-, -, m₂, L₂, -, hlog, -, hops, -⟩ := hsame [.find k]
  exact h.not_completes ⟨m₂, hlog.of_single hops⟩

/-- In every reachable state, an insert that throws leaves a map that does not behave
as if it had not been called: a find of its key does not return. If no insert has
thrown before, the find would have returned without it. -/
theorem throwing_insert_spoils {ι : Type*} [DecidableEq ι] (B : Table K) (key₀ : ℕ → K)
    (value₀ : ℕ → V) (sched : ℕ → ι × Choice (Op K V)) (n : ℕ) (k : K) (v : V) {m' : Mem K V}
    {evs : List (Event K V)}
    (hrun : Ends (prog B) .idle ((system B ι key₀ value₀).run sched n).mem
      (start (.insert k v)) m' evs) (hthrew : .threw k ∈ evs) :
    ¬ SameCalls B ((system B ι key₀ value₀).run sched n).mem m'
      ∧ (¬ ∃ m'' evs', Completes (prog B) .idle m' (start (.find k)) m'' evs')
      ∧ (Settled ((system B ι key₀ value₀).run sched n).mem →
        Completes (prog B) .idle ((system B ι key₀ value₀).run sched n).mem
          (start (.find k)) ((system B ι key₀ value₀).run sched n).mem [.absent k]) := by
  have habandoned := abandoned_of_threw hrun hthrew
  have hstuck := habandoned.stuck (reads_run n).buckets.occupied
  exact ⟨not_sameCalls hstuck, hstuck.not_completes, habandoned.completes_find⟩

/-- The map of two buckets as constructed. -/
def emptyMap : Mem ℕ ℕ := ⟨fun _ => 0, fun _ => 0, fun _ => false, fun _ => false⟩

/-- An insert of 5 throws out of the assignment of the value. -/
theorem throwing_insert_spoils_value :
    ∃ m' evs, Ends (prog twoBuckets) .idle emptyMap (start (.insert 5 1)) m' evs
      ∧ .threw 5 ∈ evs ∧ ¬ SameCalls twoBuckets emptyMap m' := by
  have hrun : Ends (prog twoBuckets) .idle emptyMap (start (.insert 5 1))
      { emptyMap with occupied := Function.update (fun _ => false) 0 true
                      key := Function.update (fun _ => 0) 0 5 } [.threw 5] :=
    .quiet .go (by simp [start]) (by simp) rfl (.quiet .go (by simp) (by simp) rfl
      (.quiet .go (by simp) (by simp) rfl (.emits .fault (by simp) (by simp) rfl (.done _))))
  exact ⟨_, _, hrun, by simp, (throwing_insert_spoils twoBuckets (fun _ => 0) (fun _ => 0)
    (fun _ => (true, .go)) 0 5 1 hrun (by simp)).1⟩

/-- An insert of 5 into an empty map throws out of the assignment of the key. Before it
a find of 5 returns that 5 is absent, and after it a find of 5 does not return. -/
theorem find_hangs_after_throw :
    ∃ m', Ends (prog twoBuckets) .idle emptyMap (start (.insert 5 1)) m' [.threw 5]
      ∧ Completes (prog twoBuckets) .idle emptyMap (start (.find 5)) emptyMap [.absent 5]
      ∧ (¬ ∃ m'' evs, Completes (prog twoBuckets) .idle m' (start (.find 5)) m'' evs)
      ∧ ¬ SameCalls twoBuckets emptyMap m' := by
  have hrun : Ends (prog twoBuckets) .idle emptyMap (start (.insert 5 1))
      { emptyMap with occupied := Function.update (fun _ => false) 0 true } [.threw 5] :=
    .quiet .go (by simp [start]) (by simp) rfl (.quiet .go (by simp) (by simp) rfl
      (.emits .fault (by simp) (by simp) rfl (.done _)))
  have habandoned := abandoned_of_threw hrun (List.mem_singleton_self _)
  have hstuck := habandoned.stuck fun h => absurd h Bool.false_ne_true
  exact ⟨_, hrun, habandoned.completes_find fun _ => rfl, hstuck.not_completes,
    not_sameCalls hstuck⟩

end HashMap

end Lockless
