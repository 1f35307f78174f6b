import Lockless.Epoch

/-!
# Thread ids of the epoch reclaimer

`register_thread` tests the flag of one slot after the other and sets the first
one it finds clear, in a step of its own. Two threads can both find the same
flag clear: `racingRegistrations` is a run in which both return the id 0.

A flag that is still clear when it is set belongs to nobody, so as long as
every flag is set in that way an id has one holder: from the store that sets
its flag to the store that clears it, the slot belongs to the thread that set
it.
-/

namespace Lockless

namespace Epoch

variable {ι X : Type*}

section Statement

variable [DecidableEq ι] (S : System ι (Mem X) (PC X) (Choice (Op X)) (Event X))
  (sched : ℕ → ι × Choice (Op X))

/-- At tick `i` thread `p` returns from `unregister_thread(tid)`. -/
def Releases (i : ℕ) (p : ι) (tid : Fin maxThreads) : Prop :=
  (S.run sched i).pc p = .unregClear tid ∧ (S.run sched (i + 1)).pc p = .idle

/-- After `n` ticks thread `p` is registered with the id `tid`: `register_thread`
has returned it, and `unregister_thread` has not returned since. -/
def Holds (n : ℕ) (p : ι) (tid : Fin maxThreads) : Prop :=
  ∃ i, i < n ∧ S.Fires sched i p (.registered tid)
    ∧ ∀ j, j < n → i < j → ¬ Releases S sched j p tid

/-- At tick `i` thread `p` reads the flag of the slot `tid` in
`register_thread`, and finds it set. -/
def FindsUsed (i : ℕ) (p : ι) (tid : Fin maxThreads) : Prop :=
  sched i = (p, .go) ∧ (S.run sched i).pc p = .regTest tid
    ∧ (S.run sched i).mem.inUse tid = true

instance [DecidableEq X] (i : ℕ) (p : ι) (tid : Fin maxThreads) :
    Decidable (Releases S sched i p tid) :=
  inferInstanceAs (Decidable (_ ∧ _))

instance [DecidableEq X] (n : ℕ) (p : ι) (tid : Fin maxThreads) :
    Decidable (Holds S sched n p tid) :=
  inferInstanceAs (Decidable (∃ i, i < n ∧ S.Fires sched i p (.registered tid)
    ∧ ∀ j, j < n → i < j → ¬ Releases S sched j p tid))

theorem holds_succ {n : ℕ} {p : ι} {tid : Fin maxThreads} :
    Holds S sched (n + 1) p tid ↔ S.Fires sched n p (.registered tid)
      ∨ (Holds S sched n p tid ∧ ¬ Releases S sched n p tid) := by
  constructor
  · rintro ⟨i, hi, hf, hkeep⟩
    rcases Nat.lt_succ_iff_lt_or_eq.mp hi with hlt | rfl
    · refine Or.inr ⟨⟨i, hlt, hf, fun j hj hij => ?_⟩, hkeep n (Nat.lt_succ_self n) hlt⟩
      exact hkeep j (Nat.lt_succ_of_lt hj) hij
    · exact Or.inl hf
  · rintro (hf | ⟨⟨i, hi, hf, hkeep⟩, hnot⟩)
    · exact ⟨n, Nat.lt_succ_self n, hf, fun j hj hnj => by omega⟩
    · refine ⟨i, Nat.lt_succ_of_lt hi, hf, fun j hj hij => ?_⟩
      rcases Nat.lt_succ_iff_lt_or_eq.mp hj with hlt | rfl
      · exact hkeep j hlt hij
      · exact hnot

end Statement

/-- The slot a thread is giving back. -/
def PC.giving : PC X → Option (Fin maxThreads)
  | .unregStore tid => some tid
  | .unregClear tid => some tid
  | _ => none

/-- The slot a call of `unregister_thread` is to give back. -/
def unregistering : PC X → Choice (Op X) → Option (Fin maxThreads)
  | .idle, .call op => (start op).giving
  | _, _ => none

/-- The slot whose flag the step sets. -/
def claiming : PC X → Choice (Op X) → Option (Fin maxThreads)
  | .regClaim i, .go => some i
  | _, _ => none

/-- A flag is set only while it is still clear. -/
def StillFree (c : Config ι (Mem X) (PC X)) (a : ι × Choice (Op X)) : Prop :=
  ∀ i ∈ claiming (c.pc a.1) a.2, c.mem.inUse i = false

instance (c : Config ι (Mem X) (PC X)) (a : ι × Choice (Op X)) :
    Decidable (StillFree c a) :=
  inferInstanceAs (Decidable (∀ i ∈ claiming (c.pc a.1) a.2, _))

/-! ## Slots and their owners -/

/-- The slot a thread has claimed and will return. -/
def PC.claim : PC X → Option (Fin maxThreads)
  | .regStore i => some i
  | _ => none

/-- The slot belongs to the thread, which is registered with it or has claimed
it. -/
def Owns (c : Config ι (Mem X) (PC X)) (K : ι → Fin maxThreads → Prop) (p : ι)
    (tid : Fin maxThreads) : Prop :=
  K p tid ∨ (c.pc p).claim = some tid

/-- `K` says who is registered with which id. -/
structure Ids (c : Config ι (Mem X) (PC X)) (K : ι → Fin maxThreads → Prop) : Prop where
  used : ∀ {p tid}, Owns c K p tid → c.mem.inUse tid = true
  unique : ∀ {p q tid}, Owns c K p tid → Owns c K q tid → p = q
  giving : ∀ {p tid}, (c.pc p).giving = some tid → K p tid

/-- The step has nothing to do with who has which slot. -/
structure Unrelated (m : Mem X) (pc : PC X) (m' : Mem X) (pc' : PC X)
    (ev : Option (Event X)) : Prop where
  inUse : m'.inUse = m.inUse
  claim : pc'.claim = pc.claim
  giving : ∀ tid, pc'.giving = some tid → pc.giving = some tid
  registered : ∀ tid, ev ≠ some (.registered tid)
  released : ∀ tid, pc = .unregClear tid → pc' ≠ .idle

theorem scanNext_claim (current : ℕ) (i : Fin maxThreads) :
    (scanNext current i : PC X).claim = none := by
  unfold scanNext
  split_ifs <;> rfl

theorem scanNext_giving (current : ℕ) (i : Fin maxThreads) :
    (scanNext current i : PC X).giving = none := by
  unfold scanNext
  split_ifs <;> rfl

/-- A step of `try_advance` that reads a slot. -/
theorem unrelated_scanNext {m : Mem X} {pc : PC X} (current : ℕ) (i : Fin maxThreads)
    (hclaim : pc.claim = none) (hpc : ∀ tid, pc ≠ .unregClear tid) :
    Unrelated m pc m (scanNext current i) none where
  inUse := rfl
  claim := by rw [scanNext_claim, hclaim]
  giving := fun tid h => by
    rw [scanNext_giving] at h
    cases h
  registered := fun tid h => by cases h
  released := fun tid h => absurd h (hpc tid)

/-- What a step does to the slots: nothing, or it begins `unregister_thread`,
claims a slot, returns its id or gives it back. -/
theorem Effect.ids {m m' : Mem X} {pc pc' : PC X} {ev : Option (Event X)}
    (he : Effect m pc m' pc' ev) :
    Unrelated m pc m' pc' ev
      ∨ (∃ tid, pc = .idle ∧ pc' = .unregStore tid ∧ m' = m ∧ ev = none)
      ∨ (∃ i, pc = .regClaim i ∧ pc' = .regStore i ∧ m' = m.setUse i true ∧ ev = none)
      ∨ (∃ i, pc = .regStore i ∧ pc' = .idle ∧ m'.inUse = m.inUse
        ∧ ev = some (.registered i))
      ∨ ∃ tid, pc = .unregClear tid ∧ pc' = .idle ∧ m' = m.setUse tid false
        ∧ ev = none := by
  cases he with
  | stay =>
      refine Or.inl ⟨rfl, rfl, fun _ h => h, ?_, ?_⟩
      · rintro tid ⟨⟩
      · rintro tid rfl h
        cases h
  | start op =>
      cases op with
      | unregisterThread tid =>
          rcases start_unregister (X := X) tid with h | ⟨t, h⟩
          · rw [h]
            refine Or.inl ⟨rfl, rfl, fun _ h => h, ?_, ?_⟩ <;> rintro tid ⟨⟩
          · exact Or.inr (Or.inl ⟨t, rfl, h, rfl, rfl⟩)
      | _ => refine Or.inl ⟨rfl, rfl, ?_, ?_, ?_⟩ <;> rintro tid ⟨⟩
  | regClaim i => exact Or.inr (Or.inr (Or.inl ⟨i, rfl, rfl, rfl, rfl⟩))
  | regStore i => exact Or.inr (Or.inr (Or.inr (Or.inl ⟨i, rfl, rfl, rfl, rfl⟩)))
  | unregClear tid => exact Or.inr (Or.inr (Or.inr (Or.inr ⟨tid, rfl, rfl, rfl, rfl⟩)))
  | unregStore tid =>
      refine Or.inl ⟨rfl, rfl, fun _ h => h, ?_, ?_⟩ <;> rintro tid ⟨⟩
  | scanUnused current i =>
      refine Or.inl (unrelated_scanNext current i rfl ?_)
      rintro tid ⟨⟩
  | scanPass current i =>
      refine Or.inl (unrelated_scanNext current i rfl ?_)
      rintro tid ⟨⟩
  | _ => refine Or.inl ⟨rfl, rfl, ?_, ?_, ?_⟩ <;> rintro tid ⟨⟩

section Step

variable [DecidableEq ι] {c : Config ι (Mem X) (PC X)} {K K' : ι → Fin maxThreads → Prop}
  {p : ι} {m : Mem X} {pc : PC X} {ev : Option (Event X)}

theorem claim_update {q : ι} {tid : Fin maxThreads}
    (h : (Function.update c.pc p pc q).claim = some tid) :
    (q = p ∧ pc.claim = some tid) ∨ (q ≠ p ∧ (c.pc q).claim = some tid) :=
  of_update (P := fun x => PC.claim x = some tid) h

theorem giving_update {q : ι} {tid : Fin maxThreads}
    (h : (Function.update c.pc p pc q).giving = some tid) :
    (q = p ∧ pc.giving = some tid) ∨ (q ≠ p ∧ (c.pc q).giving = some tid) :=
  of_update (P := fun x => PC.giving x = some tid) h

/-- A step after which every slot belongs to whom it belonged before. -/
theorem Ids.of_owns (h : Ids c K) (huse : m.inUse = c.mem.inUse)
    (howns : ∀ q tid, Owns ⟨m, Function.update c.pc p pc⟩ K' q tid → Owns c K q tid)
    (hgiving : ∀ q tid, (Function.update c.pc p pc q).giving = some tid → K' q tid) :
    Ids ⟨m, Function.update c.pc p pc⟩ K' where
  used := fun {q tid} hq => by
    simp only [huse]
    exact h.used (howns q tid hq)
  unique := fun {q r tid} hq hr => h.unique (howns q tid hq) (howns r tid hr)
  giving := fun {q tid} => hgiving q tid

theorem Ids.quiet (h : Ids c K) (hstep : Unrelated c.mem (c.pc p) m pc ev)
    (hK : ∀ q tid, K' q tid ↔ K q tid) : Ids ⟨m, Function.update c.pc p pc⟩ K' := by
  refine h.of_owns hstep.inUse (fun q tid hq => ?_) fun q tid hq => (hK q tid).mpr ?_
  · rcases hq with hK' | hclaim
    · exact Or.inl ((hK q tid).mp hK')
    · rcases claim_update hclaim with ⟨rfl, hnew⟩ | ⟨-, hold⟩
      · exact Or.inr (hstep.claim ▸ hnew)
      · exact Or.inr hold
  · rcases giving_update hq with ⟨rfl, hnew⟩ | ⟨-, hold⟩
    · exact h.giving (hstep.giving tid hnew)
    · exact h.giving hold

/-- A call of `unregister_thread` begins. -/
theorem Ids.begins (h : Ids c K) {tid : Fin maxThreads} (hpc : pc = .unregStore tid)
    (hheld : K p tid) (hm : m.inUse = c.mem.inUse) (hK : ∀ q tid, K' q tid ↔ K q tid) :
    Ids ⟨m, Function.update c.pc p pc⟩ K' := by
  subst hpc
  refine h.of_owns hm (fun q t hq => ?_) fun q t hq => (hK q t).mpr ?_
  · rcases hq with hK' | hclaim
    · exact Or.inl ((hK q t).mp hK')
    · rcases claim_update hclaim with ⟨-, ⟨⟩⟩ | ⟨-, hold⟩
      exact Or.inr hold
  · rcases giving_update hq with ⟨rfl, ⟨⟩⟩ | ⟨-, hold⟩
    · exact hheld
    · exact h.giving hold

/-- `register_thread` returns the slot it has claimed. -/
theorem Ids.returns (h : Ids c K) {i : Fin maxThreads} (hclaimed : c.pc p = .regStore i)
    (hpc : pc = .idle) (hm : m.inUse = c.mem.inUse)
    (hK : ∀ q tid, K' q tid ↔ (q = p ∧ tid = i) ∨ K q tid) :
    Ids ⟨m, Function.update c.pc p pc⟩ K' := by
  subst hpc
  refine h.of_owns hm (fun q t hq => ?_) fun q t hq => (hK q t).mpr (Or.inr ?_)
  · rcases hq with hK' | hclaim
    · rcases (hK q t).mp hK' with ⟨rfl, rfl⟩ | hheld
      · exact Or.inr (by rw [hclaimed]; rfl)
      · exact Or.inl hheld
    · rcases claim_update hclaim with ⟨-, ⟨⟩⟩ | ⟨-, hold⟩
      exact Or.inr hold
  · rcases giving_update hq with ⟨-, ⟨⟩⟩ | ⟨-, hold⟩
    exact h.giving hold

/-- A slot whose flag is clear is claimed: it belongs to nobody else. -/
theorem Ids.claims (h : Ids c K) {i : Fin maxThreads} (hfree : c.mem.inUse i = false)
    (hpc : pc = .regStore i) (hm : m = c.mem.setUse i true)
    (hK : ∀ q tid, K' q tid ↔ K q tid) : Ids ⟨m, Function.update c.pc p pc⟩ K' := by
  subst hpc hm
  have hnew : ∀ {q tid}, Owns ⟨c.mem.setUse i true, Function.update c.pc p (.regStore i)⟩ K'
      q tid → Owns c K q tid ∨ (q = p ∧ tid = i) := by
    rintro q tid (hK' | hclaim)
    · exact Or.inl (Or.inl ((hK q tid).mp hK'))
    · rcases claim_update hclaim with ⟨rfl, ⟨⟩⟩ | ⟨-, hold⟩
      · exact Or.inr ⟨rfl, rfl⟩
      · exact Or.inl (Or.inr hold)
  have hnobody : ∀ {q}, ¬ Owns c K q i := by
    intro q hq
    rw [h.used hq] at hfree
    cases hfree
  refine ⟨fun {q tid} hq => ?_, fun {q r tid} hq hr => ?_, fun {q tid} hq => ?_⟩
  · rcases hnew hq with hold | ⟨-, rfl⟩
    · have hne : tid ≠ i := by
        rintro rfl
        exact hnobody hold
      simp only [Mem.setUse, Function.update_of_ne hne]
      exact h.used hold
    · simp only [Mem.setUse, Function.update_self]
  · rcases hnew hq with hold | ⟨rfl, rfl⟩
    · rcases hnew hr with hold' | ⟨rfl, rfl⟩
      · exact h.unique hold hold'
      · exact absurd hold hnobody
    · rcases hnew hr with hold' | ⟨rfl, -⟩
      · exact absurd hold' hnobody
      · rfl
  · rcases giving_update hq with ⟨-, ⟨⟩⟩ | ⟨-, hold⟩
    exact (hK q tid).mpr (h.giving hold)

/-- A slot is given back. -/
theorem Ids.releases (h : Ids c K) {tid : Fin maxThreads}
    (hgiving : c.pc p = .unregClear tid) (hpc : pc = .idle) (hm : m = c.mem.setUse tid false)
    (hK : ∀ q t, K' q t ↔ K q t ∧ ¬ (q = p ∧ t = tid)) :
    Ids ⟨m, Function.update c.pc p pc⟩ K' := by
  subst hpc hm
  have hp : Owns c K p tid := Or.inl (h.giving (by rw [hgiving]; rfl))
  have hnew : ∀ {q t}, Owns ⟨c.mem.setUse tid false, Function.update c.pc p .idle⟩ K' q t →
      Owns c K q t ∧ t ≠ tid := by
    rintro q t (hK' | hclaim)
    · obtain ⟨hkeep, hnot⟩ := (hK q t).mp hK'
      refine ⟨Or.inl hkeep, ?_⟩
      rintro rfl
      exact hnot ⟨h.unique (Or.inl hkeep) hp, rfl⟩
    · rcases claim_update hclaim with ⟨-, ⟨⟩⟩ | ⟨hqp, hold⟩
      refine ⟨Or.inr hold, ?_⟩
      rintro rfl
      exact hqp (h.unique (Or.inr hold) hp)
  refine ⟨fun {q t} hq => ?_, fun {q r t} hq hr => h.unique (hnew hq).1 (hnew hr).1,
    fun {q t} hq => (hK q t).mpr ?_⟩
  · obtain ⟨howns, hne⟩ := hnew hq
    simp only [Mem.setUse, Function.update_of_ne hne]
    exact h.used howns
  · rcases giving_update hq with ⟨-, ⟨⟩⟩ | ⟨hqp, hold⟩
    exact ⟨h.giving hold, fun he => hqp he.1⟩

/-- A step of thread `p`, with who is registered after it. -/
theorem Ids.step (h : Ids c K) (he : Effect c.mem (c.pc p) m pc ev)
    (hgive : ∀ tid, c.pc p = .idle → pc = .unregStore tid → K p tid)
    (hfree : ∀ i, c.pc p = .regClaim i → pc = .regStore i → c.mem.inUse i = false)
    (hK : ∀ q tid, K' q tid ↔ (q = p ∧ ev = some (.registered tid))
      ∨ (K q tid ∧ ¬ (q = p ∧ c.pc p = .unregClear tid ∧ pc = .idle))) :
    Ids ⟨m, Function.update c.pc p pc⟩ K' := by
  rcases he.ids with hquiet | ⟨tid, hold, hpc, rfl, rfl⟩ | ⟨i, hold, hpc, rfl, rfl⟩
    | ⟨i, hold, hpc, hm, rfl⟩ | ⟨tid, hold, hpc, rfl, rfl⟩
  · refine h.quiet hquiet fun q tid => ?_
    rw [hK]
    have hreg := hquiet.registered tid
    have hrel := hquiet.released tid
    tauto
  · refine h.begins hpc (hgive tid hold hpc) rfl fun q tid => ?_
    rw [hK]
    simp [hold]
  · refine h.claims (hfree i hold hpc) hpc rfl fun q tid => ?_
    rw [hK]
    simp [hold]
  · refine h.returns hold hpc hm fun q tid => ?_
    rw [hK]
    simp [hold, eq_comm]
  · refine h.releases hold hpc rfl fun q t => ?_
    rw [hK]
    simp [hold, hpc, eq_comm]

end Step

theorem unregistering_of_prog {m : Mem X} {pc : PC X} {ch : Choice (Op X)}
    {tid : Fin maxThreads} (hpc : pc = .idle) (h : (prog m pc ch).pc = .unregStore tid) :
    unregistering pc ch = some tid := by
  subst hpc
  cases ch with
  | call op =>
      have hstart : start op = .unregStore tid := h
      simp only [unregistering, hstart, PC.giving]
  | go => cases h
  | fault => cases h

theorem claiming_of_prog {m : Mem X} {pc : PC X} {ch : Choice (Op X)} {i : Fin maxThreads}
    (hpc : pc = .regClaim i) (h : (prog m pc ch).pc = .regStore i) :
    claiming pc ch = some i := by
  subst hpc
  cases ch with
  | call op => cases h
  | go => rfl
  | fault => cases h

/-! ## The scan of `register_thread` -/

/-- The call of `register_thread` a thread is in. -/
def PC.registering : PC X → Option (Op X)
  | .regTest _ => some .registerThread
  | .regClaim _ => some .registerThread
  | .regStore _ => some .registerThread
  | _ => none

theorem scanNext_registering (current : ℕ) (i : Fin maxThreads) :
    (scanNext current i : PC X).registering = none := by
  unfold scanNext
  split_ifs <;> rfl

theorem prog_registering (m : Mem X) (pc : PC X) (ch : Choice (Op X)) (op : Op X)
    (h : (prog m pc ch).pc.registering = some op) :
    pc.registering = some op ∨ pc = .idle ∧ ch = .call op := by
  cases ch with
  | call op' =>
      cases pc with
      | idle =>
          cases op' with
          | registerThread =>
              cases h
              exact Or.inr ⟨rfl, rfl⟩
          | unregisterThread t =>
              have hstart : (start (.unregisterThread t) : PC X).registering = some op := h
              rcases start_unregister (X := X) t with hst | ⟨t', hst⟩
              · rw [hst] at hstart
                cases hstart
              · rw [hst] at hstart
                cases hstart
          | _ => cases h
      | _ => exact Or.inl h
  | fault => cases pc <;> exact Or.inl h
  | go =>
      refine Or.inl ?_
      cases pc with
      | regTest i =>
          simp only [prog, access] at h
          split_ifs at h
          · exact h
          · cases h
          · exact h
      | regClaim i => exact h
      | regStore i => cases h
      | scanUse current i =>
          simp only [prog, access] at h
          split_ifs at h
          · cases h
          · rw [scanNext_registering] at h
            cases h
      | scanEpoch current i =>
          simp only [prog, access] at h
          split_ifs at h
          · cases h
          · rw [scanNext_registering] at h
            cases h
      | cas current =>
          simp only [prog, access] at h
          split_ifs at h <;> cases h
      | free toFree => cases toFree <;> cases h
      | _ => cases h

/-- A thread gets to the test of a slot by its call or by finding the slot
before it in use. -/
theorem of_regTest {m : Mem X} {pc : PC X} {ch : Choice (Op X)} {i : Fin maxThreads}
    (h : (prog m pc ch).pc = .regTest i) :
    pc = .regTest i ∨ (pc = .idle ∧ i = 0)
      ∨ ∃ j : Fin maxThreads, j.val + 1 = i.val ∧ pc = .regTest j ∧ ch = .go
        ∧ m.inUse j = true := by
  have hreg : (prog m pc ch).pc.registering = some .registerThread := by
    rw [h]
    rfl
  rcases prog_registering m pc ch _ hreg with hold | ⟨rfl, rfl⟩
  · cases ch with
    | call op =>
        cases pc with
        | idle => cases hold
        | _ => exact Or.inl h
    | fault => cases pc <;> exact Or.inl h
    | go =>
        cases pc with
        | regTest j =>
            simp only [prog, access] at h
            split_ifs at h with huse hj
            · cases h
              exact Or.inr (Or.inr ⟨j, rfl, rfl, rfl, huse⟩)
        | regClaim j => cases h
        | regStore j => cases h
        | _ => cases hold
  · cases h
    exact Or.inr (Or.inl ⟨rfl, rfl⟩)

theorem Effect.of_noSlot {m m' : Mem X} {pc pc' : PC X}
    (h : Effect m pc m' pc' (some .noSlot)) : ∃ j, pc = .regTest j := by
  generalize hev : some (Event.noSlot : Event X) = ev at h
  cases h with
  | regFull j => exact ⟨j, rfl⟩
  | start op => cases op <;> cases hev
  | _ => cases hev

theorem of_noSlot {m : Mem X} {pc : PC X} {ch : Choice (Op X)}
    (h : (prog m pc ch).event = some .noSlot) :
    ∃ j : Fin maxThreads, j.val + 1 = maxThreads ∧ pc = .regTest j ∧ ch = .go
      ∧ m.inUse j = true := by
  obtain ⟨j, rfl⟩ := Effect.of_noSlot (h ▸ prog_effect m pc ch)
  cases ch with
  | call op => cases h
  | fault => cases h
  | go =>
      simp only [prog, access] at h
      split_ifs at h with huse hj
      · exact ⟨j, by omega, rfl, rfl, huse⟩

section Run

variable [DecidableEq ι] {sched : ℕ → ι × Choice (Op X)}

theorem holds_step {inUse : Fin maxThreads → Bool} {n : ℕ} {q : ι} {tid : Fin maxThreads} :
    Holds (system ι inUse) sched (n + 1) q tid ↔
      (q = (sched n).1 ∧ ((system ι inUse).outcome ((system ι inUse).run sched n)
          (sched n)).event = some (.registered tid))
        ∨ (Holds (system ι inUse) sched n q tid ∧ ¬ (q = (sched n).1
          ∧ ((system ι inUse).run sched n).pc (sched n).1 = .unregClear tid
          ∧ ((system ι inUse).outcome ((system ι inUse).run sched n) (sched n)).pc
            = .idle)) := by
  have hrel : Releases (system ι inUse) sched n q tid ↔ q = (sched n).1
      ∧ ((system ι inUse).run sched n).pc (sched n).1 = .unregClear tid
      ∧ ((system ι inUse).outcome ((system ι inUse).run sched n) (sched n)).pc = .idle := by
    unfold Releases
    by_cases hq : q = (sched n).1
    · subst hq
      rw [System.run_succ, System.next_pc_self]
      simp
    · rw [System.run_succ, System.next_pc_ne _ _ hq]
      refine ⟨fun h => ?_, fun h => absurd h.1 hq⟩
      cases h.1.symm.trans h.2
  rw [holds_succ, hrel, System.Fires, eq_comm]

theorem ids_run {inUse : Fin maxThreads → Bool} {n : ℕ}
    (hown : ∀ i, i < n → ∀ tid ∈ unregistering
      (((system ι inUse).run sched i).pc (sched i).1) (sched i).2,
      Holds (system ι inUse) sched i (sched i).1 tid)
    (hfree : ∀ i, i < n → StillFree ((system ι inUse).run sched i) (sched i)) :
    Ids ((system ι inUse).run sched n) (Holds (system ι inUse) sched n) := by
  induction n with
  | zero =>
      have hnone : ∀ {p tid}, ¬ Holds (system ι inUse) sched 0 p tid := by
        rintro p tid ⟨i, hi, -⟩
        exact Nat.not_lt_zero i hi
      refine ⟨?_, ?_, ?_⟩
      · rintro p tid (h | h)
        · exact absurd h hnone
        · cases h
      · rintro p q tid (h | h)
        · exact absurd h hnone
        · cases h
      · intro p tid h
        cases h
  | succ n ih =>
      have hids := ih (fun i hi => hown i (Nat.lt_succ_of_lt hi))
        fun i hi => hfree i (Nat.lt_succ_of_lt hi)
      refine hids.step (prog_effect _ _ (sched n).2) (fun tid hidle hpc => ?_)
        (fun i hold hpc => ?_) fun q tid => holds_step
      · exact hown n (Nat.lt_succ_self n) tid (unregistering_of_prog hidle hpc)
      · exact hfree n (Nat.lt_succ_self n) i (claiming_of_prog hold hpc)

/-- A thread at the test of a slot has found those before it in use, since its
call of `register_thread`. -/
theorem findsUsed_of_regTest {inUse : Fin maxThreads → Bool} {s n : ℕ} {p : ι}
    (hin : (system ι inUse).Within .idle sched s n p .registerThread) (hsn : s < n)
    {i : Fin maxThreads} (hpc : ((system ι inUse).run sched n).pc p = .regTest i)
    {tid : Fin maxThreads} (htid : tid < i) :
    ∃ j, s < j ∧ j < n ∧ FindsUsed (system ι inUse) sched j p tid := by
  induction n, hsn using Nat.le_induction generalizing i with
  | base =>
      have hstart : ((system ι inUse).run sched (s + 1)).pc p = .regTest 0 := by
        obtain ⟨⟨hcall, hidle⟩, -⟩ := hin
        rw [System.run_succ, hcall]
        rw [show p = (p, Choice.call (Op.registerThread (X := X))).1 from rfl,
          System.next_pc_self]
        simp only [System.outcome, hidle]
        rfl
      cases hstart.symm.trans hpc
      exact absurd htid (Nat.not_lt_zero _)
  | succ n hsn ih =>
      have hin' : (system ι inUse).Within .idle sched s n p .registerThread :=
        ⟨hin.1, fun t hst htn => hin.2 t hst (Nat.le_succ_of_le htn)⟩
      have hext : ∀ {k}, ((system ι inUse).run sched n).pc p = .regTest k → tid < k →
          ∃ j, s < j ∧ j < n + 1 ∧ FindsUsed (system ι inUse) sched j p tid := by
        intro k hk htk
        obtain ⟨j, hsj, hjn, hfind⟩ := ih hin' hk htk
        exact ⟨j, hsj, Nat.lt_succ_of_lt hjn, hfind⟩
      by_cases hp : p = (sched n).1
      · subst hp
        rw [System.run_succ, System.next_pc_self] at hpc
        rcases of_regTest hpc with hold | ⟨hidle, -⟩ | ⟨k, hki, hold, hgo, huse⟩
        · exact hext hold htid
        · exact absurd hidle (hin.2 n hsn (Nat.le_succ n))
        · rcases Nat.lt_or_ge tid.val k.val with hlt | hge
          · exact hext hold hlt
          · have hlt : tid.val < i.val := htid
            obtain rfl : tid = k := Fin.ext (by omega)
            exact ⟨n, hsn, Nat.lt_succ_self n, Prod.ext rfl hgo, hold, huse⟩
      · rw [System.run_succ, System.next_pc_ne _ _ hp] at hpc
        exact hext hpc htid

/-- `register_thread` returns -1 only after it has found every slot in use. -/
theorem findsUsed_of_noSlot {inUse : Fin maxThreads → Bool} {n : ℕ} {p : ι}
    (h : (system ι inUse).Fires sched n p .noSlot) :
    ∃ s, s < n ∧ (system ι inUse).Within .idle sched s n p .registerThread
      ∧ ∀ tid, ∃ j, s < j ∧ j ≤ n ∧ FindsUsed (system ι inUse) sched j p tid := by
  obtain ⟨rfl, hev⟩ := h
  obtain ⟨i, hi, hpc, hgo, huse⟩ := of_noSlot hev
  have hreg : (((system ι inUse).run sched n).pc (sched n).1).registering
      = some .registerThread := by
    rw [hpc]
    rfl
  obtain ⟨s, hsn, hin⟩ := System.exists_within rfl (fun _ => rfl) prog_registering hreg
  refine ⟨s, hsn, hin, fun tid => ?_⟩
  by_cases htid : tid = i
  · subst htid
    exact ⟨n, hsn, Nat.le_refl n, Prod.ext rfl hgo, hpc, huse⟩
  · have hlt : tid < i := by
      have hne : tid.val ≠ i.val := fun he => htid (Fin.ext he)
      have hmax := tid.isLt
      exact Fin.lt_def.mpr (by omega)
    obtain ⟨j, hsj, hjn, hfind⟩ := findsUsed_of_regTest hin hsn hpc hlt
    exact ⟨j, hsj, Nat.le_of_lt hjn, hfind⟩

end Run

/-- In every run in which threads give back only ids they are registered with, and
in which every flag is still clear when `register_thread` sets it, no two threads
are registered with the same id. In every run `register_thread` returns -1 only
after it has found each of the 64 slots in use. -/
theorem ids_exclusive_of_stillFree [DecidableEq ι] (sched : ℕ → ι × Choice (Op X)) (n : ℕ) :
    ((∀ i, i < n → ∀ tid ∈ unregistering
          (((system ι fun _ => false).run sched i).pc (sched i).1) (sched i).2,
        Holds (system ι fun _ => false) sched i (sched i).1 tid) →
      (∀ i, i < n → StillFree ((system ι fun _ => false).run sched i) (sched i)) →
      ∀ p q tid, Holds (system ι fun _ => false) sched n p tid →
        Holds (system ι fun _ => false) sched n q tid → p = q)
      ∧ ∀ p, (system ι fun _ => false).Fires sched n p .noSlot →
        ∃ s, s < n ∧ (system ι fun _ => false).Within .idle sched s n p .registerThread
          ∧ ∀ tid, ∃ j, s < j ∧ j ≤ n
            ∧ FindsUsed (system ι fun _ => false) sched j p tid := by
  refine ⟨fun hown hfree p q tid hp hq => ?_, fun p hp => findsUsed_of_noSlot hp⟩
  exact (ids_run hown hfree).unique (Or.inl hp) (Or.inl hq)

/-- Both threads register, one passing over the slot of the other; then the first
gives its id back, and the other registers once more and gets it. -/
def reusedId : ℕ → Bool × Choice (Op ℕ) := fun i =>
  [(false, .call .registerThread), (false, .go), (false, .go), (true, .call .registerThread),
    (true, .go), (false, .go), (true, .go), (true, .go), (true, .go),
    (false, .call (.unregisterThread 0)), (false, .go), (false, .go),
    (true, .call .registerThread)].getD i (true, .go)

theorem ids_exclusive_of_stillFree_reusedId :
    (Holds (system Bool fun _ => false) reusedId 9 false 0
        ∧ Holds (system Bool fun _ => false) reusedId 9 true 1
        ∧ Holds (system Bool fun _ => false) reusedId 16 true 0)
      ∧ ∀ p q tid, Holds (system Bool fun _ => false) reusedId 16 p tid →
        Holds (system Bool fun _ => false) reusedId 16 q tid → p = q :=
  ⟨by decide +kernel,
    (ids_exclusive_of_stillFree reusedId 16).1 (by decide +kernel) (by decide +kernel)⟩

/-- Both threads find the first flag clear before either sets it. -/
def racingRegistrations : ℕ → Bool × Choice (Op ℕ) := fun i =>
  [(false, .call .registerThread), (false, .go), (true, .call .registerThread), (true, .go),
    (false, .go), (false, .go)].getD i (true, .go)

/-- Nobody calls `unregister_thread`, and both threads are registered with the
id 0. -/
theorem racingRegistrations_share_id :
    (∀ i, i < 8 → unregistering
        (((system Bool fun _ => false).run racingRegistrations i).pc
          (racingRegistrations i).1) (racingRegistrations i).2 = none)
      ∧ Holds (system Bool fun _ => false) racingRegistrations 8 false 0
      ∧ Holds (system Bool fun _ => false) racingRegistrations 8 true 0 := by
  decide +kernel

end Epoch

end Lockless
