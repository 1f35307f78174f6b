import Lockless.Mutex
import Lockless.Ring
import Lockless.SpscFifo
import Lockless.HashMapInserts
import Lockless.EpochObjects

/-!
# Wait-freedom

The functions of the single-producer single-consumer queue have no loop, and those of
the hash map and of the reclaimer loop over the buckets and the slots, once each. So a
call has a number of steps that no other thread can put up, and the queue is wait-free.
The other two are not. A `find` waits at a bucket that has been claimed and is not ready, as
long as it is not. A `retire` waits for the mutex of a retire list, as long as another thread
has it, and so does one that has advanced the epoch and takes out the list. This one then
runs the deleters of the objects it has found, of which there may be any number. The steps
at which a thread waits, and those in which it runs a deleter, are counted beside the others.
-/

namespace Lockless

variable {ι T : Type*}

/-! ## The single-producer single-consumer queue -/

namespace Spsc

def PC.busy : PC T → Bool
  | .producer .idle => false
  | .consumer .idle => false
  | .observer .idle => false
  | _ => true

/-- The choices at which a thread does something. -/
def PC.active : PC T → Choice (Op T) → Bool
  | .producer .idle, .call (.tryPush _) => true
  | .consumer .idle, .call .tryPop => true
  | .observer .idle, .call (.empty _) => true
  | pc, .go => pc.busy
  | _, _ => false

/-- The accesses of a call that are left, and one for its start at an idle thread. -/
def PC.left : PC T → ℕ
  | .producer .idle => 5
  | .producer (.loadHead _) => 4
  | .producer (.loadTail _ _ _) => 3
  | .producer (.write _ _ _) => 2
  | .producer (.store _ _ _) => 1
  | .consumer .idle => 5
  | .consumer .loadTail => 4
  | .consumer (.loadHead _) => 3
  | .consumer (.read _) => 2
  | .consumer (.store _ _) => 1
  | .observer .idle => 3
  | .observer (.first _) => 2
  | .observer (.second _ _) => 1

theorem bounded (Z : PowSize) (moved : T → T) :
    Bounded (prog Z moved) PC.busy PC.active (fun _ _ => false) PC.left where
  stays m pc ch hact := by
    rcases pc with (_ | _) | (_ | _) | (_ | _) <;> rcases ch with (_ | _ | _) | _ | _ <;>
      first | rfl | exact absurd hact.symm Bool.false_ne_true
  own m pc ch hact := by
    -- an access is followed by the next one, or it is the last one of the call
    rcases pc with (_ | item | ⟨item, head, next⟩ | _ | _) | (_ | _ | tail | _ | _)
        | (_ | b | ⟨b, seen⟩) <;>
      rcases ch with (x | _ | b') | _ | _ <;>
      first
        | exact absurd hact Bool.false_ne_true
        | exact Or.inr (Nat.le_refl _)
        | exact Or.inl ⟨rfl, rfl⟩
        | skip
    · simp only [prog, tryPush]
      split_ifs
      · exact Or.inl ⟨rfl, rfl⟩
      · exact Or.inr (Nat.le_refl _)
    · simp only [prog, tryPop]
      split_ifs
      · exact Or.inl ⟨rfl, rfl⟩
      · exact Or.inr (Nat.le_refl _)
    · cases b <;> exact Or.inr (Nat.le_refl _)
    · cases b <;> exact Or.inl ⟨rfl, rfl⟩

/-- The steps of a call, its start included. -/
def Role.steps {κ : Type*} : Role κ → ℕ
  | .producer => 5
  | .consumer => 5
  | .observer _ => 3

theorem left_le_steps {κ : Type*} {r : Role κ} {pc : PC T} (h : Fits r pc) :
    pc.left ≤ r.steps := by
  cases r with
  | producer =>
      obtain ⟨pc⟩ | _ | _ := pc
      · cases pc <;> simp [PC.left, Role.steps]
      · exact h.elim
      · exact h.elim
  | consumer =>
      obtain _ | ⟨pc⟩ | _ := pc
      · exact h.elim
      · cases pc <;> simp [PC.left, Role.steps]
      · exact h.elim
  | observer k =>
      obtain _ | _ | ⟨pc⟩ := pc
      · exact h.elim
      · exact h.elim
      · cases pc <;> simp [PC.left, Role.steps]

/-- From every reachable state on and whatever the other threads do, the producer and the
consumer make at most 5 steps until they return, the start of the call included, and a
thread that calls `empty` at most 3. -/
theorem spsc_wait_free {κ : Type*} [DecidableEq κ] (Z : PowSize) (moved : T → T) (buffer : ℕ → T)
    (sched : ℕ → Role κ × Choice (Op T)) (n d : ℕ) (p : Role κ)
    (hin : ∀ t, n ≤ t → t < n + d → (sched t).1 = p →
      (system Z moved κ buffer).returnsAt PC.busy sched t = false) :
    ticks ((system Z moved κ buffer).stepsAt PC.active sched p) n d ≤ p.steps := by
  have hle := Bounded.ticks_le (S := system Z moved κ buffer) (bounded Z moved) hin
  have hfits : Fits p (((system Z moved κ buffer).run sched n).pc p) :=
    (inv_run buffer sched n).fits p
  have hnever : ∀ k, ticks ((system Z moved κ buffer).waitsAt PC.active (fun _ _ => false)
      sched p) n k = 0 := by
    intro k
    simp [ticks, System.waitsAt]
  rw [hnever] at hle
  exact hle.trans (left_le_steps hfits)

/-- The consumer finds an item and is stopped before it moves it out, and the producer makes
its next call meanwhile. -/
def popAside : ℕ → Role Unit × Choice (Op ℕ) := fun i =>
  [(.producer, .call (.tryPush 7)), (.producer, .go), (.producer, .go), (.producer, .go),
    (.producer, .go), (.consumer, .call .tryPop), (.consumer, .go), (.consumer, .go),
    (.producer, .call (.tryPush 8)), (.producer, .go)].getD i (.producer, .go)

theorem spsc_wait_free_popAside :
    ((system Ring.twoCells id Unit fun _ => 0).run popAside 10).pc .consumer
        = .consumer (.read 0)
      ∧ ticks ((system Ring.twoCells id Unit fun _ => 0).stepsAt PC.active popAside .producer) 5 5
        ≤ 5 :=
  ⟨by decide, spsc_wait_free Ring.twoCells id (fun _ => 0) popAside 5 5 .producer
    fun t _ ht => (by decide : ∀ t, t < 10 → 5 ≤ t → (popAside t).1 = .producer →
      (system Ring.twoCells id Unit fun _ => 0).returnsAt PC.busy popAside t = false) t ht ‹_›⟩

end Spsc

/-! ## The hash map -/

namespace HashMap

variable {K V : Type*}

def PC.busy : PC K V → Bool
  | .idle => false
  | _ => true

def PC.active : PC K V → Choice (Op K V) → Bool
  | .idle, .call _ => true
  | .insert _ _ _ _, .go => true
  | .insert _ _ _ _, .fault => true
  | .find _ _ _, .go => true
  | _, _ => false

/-- A `find` reads the flag `ready` of a bucket that is not ready. -/
def waiting (B : Table K) (m : Mem K V) : PC K V → Bool
  | .find key i .loadReady => !m.ready (B.bucket key i)
  | .find key i .spin => !m.ready (B.bucket key i)
  | _ => false

/-- The accesses of a call that are left if it does not wait, three to a bucket that is
passed over, and one for its start at an idle thread. -/
def PC.left (B : Table K) : PC K V → ℕ
  | .idle => 3 * (B.size - 1) + 6
  | .insert _ _ i .loadOccupied => 3 * (B.size - 1 - i) + 5
  | .insert _ _ i .loadReady => 3 * (B.size - 1 - i) + 4
  | .insert _ _ i .compareKey => 3 * (B.size - 1 - i) + 3
  | .insert _ _ i .cas => 3 * (B.size - 1 - i) + 4
  | .insert _ _ _ .writeKey => 3
  | .insert _ _ _ .writeValue => 2
  | .insert _ _ _ .publish => 1
  | .find _ i .loadOccupied => 3 * (B.size - 1 - i) + 4
  | .find _ i .loadReady => 3 * (B.size - 1 - i) + 3
  | .find _ i .spin => 3 * (B.size - 1 - i) + 3
  | .find _ i .compareKey => 3 * (B.size - 1 - i) + 2
  | .find _ _ .readValue => 1

theorem left_le (B : Table K) (pc : PC K V) : pc.left B ≤ 3 * B.size + 3 := by
  have hpos := B.pos
  rcases pc with _ | ⟨key, value, i, _ | _ | _ | _ | _ | _ | _⟩ | ⟨key, i, _ | _ | _ | _ | _⟩ <;>
    simp only [PC.left] <;> omega

section Bound

variable [DecidableEq K] {B : Table K} {m : Mem K V}

omit [DecidableEq K] in
theorem insertNext_left {key : K} {value : V} {i k : ℕ} (hk : 3 * (B.size - 1 - i) + 3 ≤ k) :
    (insertNext B m key value i).pc = .idle
      ∨ (insertNext B m key value i).pc.left B + 1 ≤ k := by
  unfold insertNext
  split_ifs
  · refine Or.inr ?_
    simp only [PC.left]
    omega
  · exact Or.inl rfl

theorem insert_left (throws : Bool) (key : K) (value : V) (i : ℕ) (pc : InsertPC) :
    (insert B m throws key value i pc).pc = .idle
      ∨ (insert B m throws key value i pc).pc.left B + 1
        ≤ (PC.insert key value i pc).left B := by
  cases pc with
  | loadOccupied =>
      simp only [insert]
      split_ifs <;> exact Or.inr (Nat.le_refl _)
  | loadReady =>
      simp only [insert]
      split_ifs
      · exact Or.inr (Nat.le_refl _)
      · exact insertNext_left (Nat.le_succ _)
  | compareKey =>
      simp only [insert]
      split_ifs
      · exact Or.inl rfl
      · exact insertNext_left (Nat.le_refl _)
  | cas =>
      simp only [insert]
      split_ifs
      · exact insertNext_left (Nat.le_succ _)
      · exact Or.inr (Nat.le_add_left _ _)
  | writeKey =>
      cases throws
      · exact Or.inr (Nat.le_refl _)
      · exact Or.inl rfl
  | writeValue =>
      cases throws
      · exact Or.inr (Nat.le_refl _)
      · exact Or.inl rfl
  | publish => exact Or.inl rfl

theorem find_left (key : K) (i : ℕ) (pc : FindPC) :
    (find B m key i pc).pc = .idle
      ∨ (find B m key i pc).pc.left B + 1
        ≤ (PC.find (V := V) key i pc).left B + (waiting B m (.find key i pc)).toNat := by
  cases pc with
  | loadOccupied =>
      simp only [find]
      split_ifs
      · exact Or.inr (Nat.le_refl _)
      · exact Or.inl rfl
  | loadReady =>
      cases hready : m.ready (B.bucket key i) <;> simp only [find, waiting, hready] <;>
        exact Or.inr (Nat.le_refl _)
  | spin =>
      cases hready : m.ready (B.bucket key i) <;> simp only [find, waiting, hready] <;>
        exact Or.inr (Nat.le_refl _)
  | compareKey =>
      simp only [find]
      split_ifs
      · exact Or.inr (Nat.le_add_left _ _)
      · refine Or.inr ?_
        simp only [PC.left, waiting, Bool.toNat_false]
        omega
      · exact Or.inl rfl
  | readValue => exact Or.inl rfl

theorem bounded (B : Table K) :
    Bounded (prog B (V := V)) PC.busy PC.active (waiting B) (PC.left B) where
  stays m pc ch hact := by
    cases pc <;> cases ch <;> first | rfl | exact absurd hact.symm Bool.false_ne_true
  own m pc ch hact := by
    cases pc with
    | idle =>
        cases ch with
        | call op =>
            refine Or.inr ?_
            cases op <;> simp only [prog, start, PC.left, waiting] <;> omega
        | _ => exact absurd hact Bool.false_ne_true
    | insert key value i pc =>
        have hstep : ∀ throws, _ := fun throws =>
          insert_left (B := B) (m := m) throws key value i pc
        cases ch with
        | call op => exact absurd hact Bool.false_ne_true
        | go => exact (hstep false).imp (fun h => ⟨rfl, by simp only [prog, h]; rfl⟩) id
        | fault => exact (hstep true).imp (fun h => ⟨rfl, by simp only [prog, h]; rfl⟩) id
    | find key i pc =>
        cases ch with
        | go =>
            have hstep := find_left (V := V) (B := B) (m := m) key i pc
            exact hstep.imp (fun h => ⟨rfl, by simp only [prog, h]; rfl⟩) id
        | _ => exact absurd hact Bool.false_ne_true

end Bound

/-- A find that waits is at a bucket that is claimed and not ready. -/
theorem find_of_waiting {B : Table K} {m : Mem K V} {pc : PC K V} (h : waiting B m pc = true) :
    ∃ key i pc', pc = .find key i pc' ∧ (pc' = .loadReady ∨ pc' = .spin)
      ∧ m.ready (B.bucket key i) = false := by
  cases pc with
  | find key i pc' =>
      cases pc' with
      | loadReady => exact ⟨key, i, _, rfl, Or.inl rfl, by simpa [waiting] using h⟩
      | spin => exact ⟨key, i, _, rfl, Or.inr rfl, by simpa [waiting] using h⟩
      | _ => exact absurd h Bool.false_ne_true
  | _ => exact absurd h Bool.false_ne_true

/-- From every reachable state on, whatever the other threads do: until it returns, a thread
makes at most `3 * Size + 3` steps, the start of its call included, apart from those in which
a `find` reads that a bucket is not ready. If no copy has thrown, then at each of these some
thread is in an `insert` that has claimed this bucket and has not returned. -/
theorem hash_map_steps_le [DecidableEq ι] [DecidableEq K] (B : Table K) (key₀ : ℕ → K)
    (value₀ : ℕ → V) (sched : ℕ → ι × Choice (Op K V)) (n d : ℕ) (p : ι)
    (hin : ∀ t, n ≤ t → t < n + d → (sched t).1 = p →
      (system B ι key₀ value₀).returnsAt PC.busy sched t = false) :
    ticks ((system B ι key₀ value₀).stepsAt PC.active sched p) n d
        ≤ 3 * B.size + 3
          + ticks ((system B ι key₀ value₀).waitsAt PC.active (waiting B) sched p) n d
      ∧ ∀ t, (∀ i, i < t → (sched i).2 ≠ .fault) →
        (system B ι key₀ value₀).waitsAt PC.active (waiting B) sched p t = true →
        ∃ key i pc, ((system B ι key₀ value₀).run sched t).pc p = .find key i pc
          ∧ ∃ q k, (((system B ι key₀ value₀).run sched t).pc q).filling B
            = some (k, B.bucket key i) := by
  refine ⟨?_, fun t hthrow hwait => ?_⟩
  · exact (Bounded.ticks_le (S := system B ι key₀ value₀) (bounded B) hin).trans
      (Nat.add_le_add_right (left_le B _) _)
  · rw [System.waitsAt, Bool.and_eq_true] at hwait
    obtain ⟨key, i, pc, hpc, hat, hready⟩ := find_of_waiting hwait.2
    refine ⟨key, i, pc, hpc, ?_⟩
    have hocc : ((system B ι key₀ value₀).run sched t).mem.occupied (B.bucket key i) = true := by
      have hsees := ((reads_run t).finds hpc).2.2
      rcases hat with rfl | rfl <;> exact hsees
    rcases covered_run hthrow _ hocc with hset | hfill
    · rw [hready] at hset
      exact absurd hset Bool.false_ne_true
    · exact hfill

/-- An insert has claimed the bucket of its key and is stopped, and a find of the key waits. -/
def findBehindInsert : ℕ → Bool × Choice (Op ℕ ℕ) := fun i =>
  [(false, .call (.insert 5 1)), (false, .go), (false, .go)].getD i
    (true, if i = 3 then .call (.find 5) else .go)

theorem hash_map_steps_le_findBehindInsert :
    ticks ((system twoBuckets Bool (fun _ => 0) fun _ => 0).waitsAt PC.active
        (waiting twoBuckets) findBehindInsert true) 3 7 = 5
      ∧ ticks ((system twoBuckets Bool (fun _ => 0) fun _ => 0).stepsAt PC.active
        findBehindInsert true) 3 7 ≤ 3 * 2 + 3 + 5 := by
  have hwaits : ticks ((system twoBuckets Bool (fun _ => 0) fun _ => 0).waitsAt PC.active
      (waiting twoBuckets) findBehindInsert true) 3 7 = 5 := by decide +kernel
  have h := (hash_map_steps_le twoBuckets (fun _ => 0) (fun _ => 0) findBehindInsert 3 7 true
    fun t _ ht => (by decide +kernel : ∀ t, t < 10 → 3 ≤ t → (findBehindInsert t).1 = true →
      (system twoBuckets Bool (fun _ => 0) fun _ => 0).returnsAt PC.busy findBehindInsert t
        = false) t ht ‹_›).1
  rw [hwaits] at h
  exact ⟨hwaits, h⟩

end HashMap

/-! ## The reclaimer -/

namespace Epoch

variable {X : Type*}

def PC.busy : PC X → Bool
  | .idle => false
  | _ => true

def PC.active : PC X → Choice (Op X) → Bool
  | .idle, .call (.unregisterThread tid) => decide (0 ≤ tid ∧ tid.toNat < maxThreads)
  | .idle, .call _ => true
  | pc, .go => pc.busy
  | _, _ => false

/-- The step is the call of a deleter. -/
def deleting (_ : Mem X) : PC X → Bool
  | .free (_ :: _) => true
  | _ => false

/-- The accesses of a call that are left, deleters apart, and one for its start at an idle
thread. -/
def PC.left : PC X → ℕ
  | .idle => 135
  | .regTest i => 66 - i
  | .regClaim _ => 2
  | .regStore _ => 1
  | .unregStore _ => 2
  | .unregClear _ => 1
  | .enterLoad _ => 2
  | .enterStore _ _ => 1
  | .leaveStore _ => 1
  | .retireLoad _ => 134
  | .retireAppend _ _ => 133
  | .advLoad => 132
  | .scanUse _ i => 2 * (64 - i) + 3
  | .scanEpoch _ i => 2 * (64 - i) + 2
  | .cas _ => 3
  | .swap _ => 2
  | .free _ => 1

theorem left_le (pc : PC X) : pc.left ≤ 135 := by
  have hmax : maxThreads = 64 := rfl
  cases pc <;> simp only [PC.left] <;> omega

theorem scanNext_left (current : ℕ) (i : Fin maxThreads) :
    (scanNext current i : PC X).left + 1 ≤ 2 * (64 - i) + 2 := by
  have hmax : maxThreads = 64 := rfl
  have hi := i.isLt
  unfold scanNext
  split_ifs with h <;> simp only [PC.left] <;> omega

theorem access_left (m : Mem X) {pc : PC X} (hbusy : pc.busy = true) :
    (access m pc).pc = .idle
      ∨ (access m pc).pc.left + 1 ≤ pc.left + (deleting m pc).toNat := by
  cases pc with
  | idle => exact absurd hbusy Bool.false_ne_true
  | regTest i =>
      have hmax : maxThreads = 64 := rfl
      have hi := i.isLt
      simp only [access]
      split_ifs with huse h
      · refine Or.inr ?_
        simp only [PC.left]
        omega
      · exact Or.inl rfl
      · refine Or.inr ?_
        simp only [PC.left]
        omega
  | scanUse current i =>
      simp only [access]
      split_ifs
      · exact Or.inr (Nat.le_refl _)
      · exact Or.inr ((scanNext_left current i).trans (Nat.le_succ _))
  | scanEpoch current i =>
      simp only [access]
      split_ifs
      · exact Or.inl rfl
      · exact Or.inr (scanNext_left current i)
  | cas current =>
      simp only [access]
      split_ifs
      · exact Or.inr (Nat.le_refl _)
      · exact Or.inl rfl
  | free toFree =>
      cases toFree with
      | nil => exact Or.inl rfl
      | cons x rest => exact Or.inr (Nat.le_refl _)
  | regStore i => exact Or.inl rfl
  | unregClear tid => exact Or.inl rfl
  | enterStore tid epoch => exact Or.inl rfl
  | leaveStore tid => exact Or.inl rfl
  | _ => exact Or.inr (Nat.le_refl _)

theorem prog_go (m : Mem X) (pc : PC X) : prog m pc .go = access m pc := by
  cases pc <;> rfl

/-- A thread starts a call, or goes on with one. -/
theorem PC.active_cases {pc : PC X} {ch : Choice (Op X)} (h : pc.active ch = true) :
    (pc = .idle ∧ ∃ op, ch = .call op ∧ start op ≠ .idle) ∨ (pc.busy = true ∧ ch = .go) := by
  cases ch with
  | call op =>
      cases pc with
      | idle =>
          refine Or.inl ⟨rfl, op, rfl, ?_⟩
          cases op with
          | unregisterThread tid =>
              rw [start, dif_pos (of_decide_eq_true h)]
              intro hidle
              cases hidle
          | _ => simp [start]
      | _ => exact absurd h Bool.false_ne_true
  | go =>
      refine Or.inr ⟨?_, rfl⟩
      cases pc <;> exact h
  | fault => cases pc <;> exact absurd h Bool.false_ne_true

theorem start_left {op : Op X} (h : start op ≠ .idle) : (start op).left ≤ 134 := by
  cases op with
  | unregisterThread tid =>
      rcases start_unregister (X := X) tid with hidle | ⟨t, ht⟩
      · exact absurd hidle h
      · simp [ht, PC.left]
  | _ => simp [start, PC.left]

theorem bounded : Bounded (prog (X := X)) PC.busy PC.active deleting PC.left where
  stays m pc ch hact := by
    cases ch with
    | call op =>
        cases pc with
        | idle =>
            cases op with
            | unregisterThread tid =>
                show (start (.unregisterThread tid) : PC X) = .idle
                rw [start, dif_neg (of_decide_eq_false hact)]
            | _ => exact absurd hact.symm Bool.false_ne_true
        | _ => rfl
    | go =>
        cases pc with
        | idle => rfl
        | _ => exact absurd hact.symm Bool.false_ne_true
    | fault => cases pc <;> rfl
  own m pc ch hact := by
    rcases PC.active_cases hact with ⟨rfl, op, rfl, hstart⟩ | ⟨hbusy, rfl⟩
    · exact Or.inr (Nat.succ_le_succ (start_left hstart))
    · rw [prog_go]
      refine (access_left m hbusy).imp (fun h => ⟨hbusy, ?_⟩) id
      rw [h]
      rfl

/-! ### The mutexes of the retire lists -/

/-- `retire_lists_[i].mtx`, under which `retire` appends to the list and `try_advance` takes
out what is in it. -/
def PC.mutex : PC X → Option (Fin 3)
  | .retireAppend _ epoch => some (listIndex epoch)
  | .swap newEpoch => some (listIndex newEpoch)
  | _ => none

/-- The reclaimer in which a thread locks the mutex of a retire list, accesses the list and
unlocks, in one step each. -/
def lockingSystem (ι : Type*) (inUse : Fin maxThreads → Bool) :
    System ι (Mutex.Mem (Mem X) (Fin 3)) (Mutex.PC (PC.mutex (X := X))) (Choice (Op X)) (Event X) :=
  Mutex.system (system ι inUse) PC.mutex

/-- Its runs are those of `system`, where each access to a retire list is one step, with
steps in between that do nothing there. -/
theorem lockingSystem_refines [DecidableEq ι] (inUse : Fin maxThreads → Bool)
    (sched : ℕ → ι × Choice (Op X)) :
    ∃ sched' : ℕ → ι × Choice (Op X), ∀ n,
      System.project Mutex.Mem.base Mutex.PC.base ((lockingSystem ι inUse).run sched n)
          = (system ι inUse).run sched' n
        ∧ (lockingSystem ι inUse).history sched n = (system ι inUse).history sched' n := by
  have hstay : ∀ (m : Mem X) pc, (system ι inUse).prog m pc .fault = ⟨m, pc, none⟩ := by
    intro m pc
    cases pc <;> rfl
  exact ⟨_, fun n => ⟨Mutex.run_base hstay PC.mutex sched n,
    Mutex.history_base hstay PC.mutex sched n⟩⟩

/-- The critical sections of a call that are left, and those of a whole call at an idle
thread. -/
def PC.sections : PC X → ℕ
  | .idle => 2
  | .retireLoad _ => 2
  | .retireAppend _ _ => 2
  | .advLoad => 1
  | .scanUse _ _ => 1
  | .scanEpoch _ _ => 1
  | .cas _ => 1
  | .swap _ => 1
  | _ => 0

theorem scanNext_sections (current : ℕ) (i : Fin maxThreads) :
    (scanNext current i : PC X).sections = 1 := by
  unfold scanNext
  split_ifs <;> rfl

theorem access_sections (m : Mem X) {pc : PC X} (hbusy : pc.busy = true) :
    (access m pc).pc = .idle
      ∨ (access m pc).pc.sections + pc.mutex.isSome.toNat ≤ pc.sections := by
  cases pc with
  | idle => exact absurd hbusy Bool.false_ne_true
  | regTest i =>
      simp only [access]
      split_ifs
      · exact Or.inr (Nat.le_refl _)
      · exact Or.inl rfl
      · exact Or.inr (Nat.le_refl _)
  | scanUse current i =>
      refine Or.inr ?_
      simp only [access]
      split_ifs
      · exact Nat.le_refl _
      · exact Nat.le_of_eq (scanNext_sections current i)
  | scanEpoch current i =>
      simp only [access]
      split_ifs
      · exact Or.inl rfl
      · exact Or.inr (Nat.le_of_eq (scanNext_sections current i))
  | cas current =>
      simp only [access]
      split_ifs
      · exact Or.inr (Nat.le_refl _)
      · exact Or.inl rfl
  | free toFree =>
      cases toFree with
      | nil => exact Or.inl rfl
      | cons x rest => exact Or.inr (Nat.le_refl _)
  | regStore i => exact Or.inl rfl
  | unregClear tid => exact Or.inl rfl
  | enterStore tid epoch => exact Or.inl rfl
  | leaveStore tid => exact Or.inl rfl
  | _ => exact Or.inr (Nat.le_refl _)

theorem start_sections (op : Op X) : (start op).sections ≤ 2 := by
  cases op with
  | unregisterThread tid =>
      rcases start_unregister (X := X) tid with hidle | ⟨t, ht⟩
      · simp [hidle, PC.sections]
      · simp [ht, PC.sections]
  | _ => simp [start, PC.sections]

theorem mutexSections :
    Mutex.Sections (prog (X := X)) PC.busy PC.active PC.left PC.mutex PC.sections where
  inside pc i hi := by
    cases pc with
    | retireAppend x epoch => exact ⟨rfl, rfl, by simp [PC.left], by simp [PC.sections]⟩
    | swap newEpoch => exact ⟨rfl, rfl, by simp [PC.left], by simp [PC.sections]⟩
    | _ => cases hi
  own m pc ch hact := by
    rcases PC.active_cases hact with ⟨rfl, op, rfl, hstart⟩ | ⟨hbusy, rfl⟩
    · exact Or.inr (start_sections op)
    · rw [prog_go]
      refine (access_sections m hbusy).imp (fun h => ⟨hbusy, ?_⟩) id
      rw [h]
      rfl

/-- A call of `retire` makes 135 steps and two more for each of its critical sections. -/
theorem mutexLeft_le (pc : Mutex.PC (PC.mutex (X := X))) :
    pc.left PC.busy PC.left PC.sections ≤ 139 := by
  have hbase : ∀ pc : PC X, pc.left ≤ 135 ∧ (pc.busy = true → pc.left ≤ 134) ∧ pc.sections ≤ 2 := by
    intro pc
    refine ⟨left_le pc, fun hbusy => ?_, ?_⟩
    · have hmax : maxThreads = 64 := rfl
      cases pc with
      | idle => exact absurd hbusy Bool.false_ne_true
      | _ => simp only [PC.left]; omega
    · cases pc <;> simp [PC.sections]
  cases pc with
  | outside pc =>
      obtain ⟨hleft, -, hsections⟩ := hbase pc
      simp only [Mutex.PC.left]
      omega
  | inside pc i hi =>
      obtain ⟨hleft, -, hsections⟩ := hbase pc
      simp only [Mutex.PC.left]
      omega
  | leaving pc i =>
      obtain ⟨-, hleft, hsections⟩ := hbase pc
      simp only [Mutex.PC.left]
      split_ifs with hbusy
      · have hleft := hleft hbusy
        omega
      · omega

/-- From every reachable state on, whatever the other threads do: until it returns from its
call, a thread makes at most 139 steps, the start of the call included, apart from those in
which it runs a deleter and those in which it finds the mutex of a retire list locked. At
each of the latter another thread is in its critical section of this mutex, which it has
left as soon as it has made two steps. -/
theorem reclaimer_steps_le [DecidableEq ι] (inUse : Fin maxThreads → Bool)
    (sched : ℕ → ι × Choice (Op X)) (n d : ℕ) (p : ι)
    (hin : ∀ t, n ≤ t → t < n + d → (sched t).1 = p →
      (lockingSystem ι inUse).returnsAt (Mutex.PC.busy PC.busy) sched t = false) :
    ticks ((lockingSystem ι inUse).stepsAt (Mutex.PC.active PC.active) sched p) n d
        ≤ 139
          + ticks ((lockingSystem ι inUse).waitsAt (Mutex.PC.active PC.active) Mutex.blocked
            sched p) n d
          + ticks ((lockingSystem ι inUse).waitsAt (Mutex.PC.active PC.active)
            (Mutex.baseWaits deleting) sched p) n d
      ∧ (∀ t, (lockingSystem ι inUse).waitsAt (Mutex.PC.active PC.active) Mutex.blocked sched p t
          = true →
        ∃ pc i q, ((lockingSystem ι inUse).run sched t).pc p = .outside pc ∧ pc.mutex = some i
          ∧ q ≠ p ∧ (((lockingSystem ι inUse).run sched t).pc q).holds = some i)
      ∧ ∀ t k q i, (((lockingSystem ι inUse).run sched t).pc q).holds = some i →
        2 ≤ ticks ((lockingSystem ι inUse).stepsAt (Mutex.PC.active PC.active) sched q) t k →
        ∃ j, j ≤ k ∧ (((lockingSystem ι inUse).run sched (t + j)).pc q).holds = none := by
  refine ⟨?_, fun t => Mutex.exists_holder, fun t k q i => Mutex.releases⟩
  refine (Mutex.ticks_le (S := system ι inUse) bounded mutexSections hin).trans ?_
  have hleft := mutexLeft_le (((lockingSystem ι inUse).run sched n).pc p)
  exact Nat.add_le_add_right (Nat.add_le_add_right hleft _) _

/-- A thread has locked the mutex of a retire list and is stopped, and another one wants to
append to the list. -/
def retireBehindRetire : ℕ → Bool × Choice (Op ℕ) := fun i =>
  [(false, .call (.retire 7)), (false, .go), (false, .go)].getD i
    (true, if i = 3 then .call (.retire 8) else .go)

theorem reclaimer_steps_le_retireBehindRetire :
    (((lockingSystem Bool fun _ => false).run retireBehindRetire 3).pc false).holds = some 0
      ∧ ticks ((lockingSystem Bool fun _ => false).waitsAt (Mutex.PC.active PC.active)
        Mutex.blocked retireBehindRetire true) 3 7 = 5
      ∧ ticks ((lockingSystem Bool fun _ => false).stepsAt (Mutex.PC.active PC.active)
        retireBehindRetire true) 3 7 ≤ 139 + 5 + 0 := by
  have hblocked : ticks ((lockingSystem Bool fun _ => false).waitsAt (Mutex.PC.active PC.active)
      Mutex.blocked retireBehindRetire true) 3 7 = 5 := by decide +kernel
  have hdeleting : ticks ((lockingSystem Bool fun _ => false).waitsAt (Mutex.PC.active PC.active)
      (Mutex.baseWaits deleting) retireBehindRetire true) 3 7 = 0 := by decide +kernel
  have h := (reclaimer_steps_le (fun _ => false) retireBehindRetire 3 7 true
    fun t _ ht => (by decide +kernel : ∀ t, t < 10 → 3 ≤ t → (retireBehindRetire t).1 = true →
      (lockingSystem Bool fun _ => false).returnsAt (Mutex.PC.busy PC.busy) retireBehindRetire t
        = false) t ht ‹_›).1
  rw [hblocked, hdeleting] at h
  exact ⟨by decide +kernel, hblocked, h⟩

end Epoch

end Lockless
