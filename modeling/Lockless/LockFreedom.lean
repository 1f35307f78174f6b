import Lockless.Progress
import Lockless.RingProgress
import Lockless.RingFifo
import Lockless.StackConstructor
import Lockless.Arena

/-!
# Lock-freedom

The loops of the ring buffer, of the array stack and of the arena have no bound: a
compare-exchange that fails leads to another iteration. But each failure that is not
spurious is owed to a success of another thread. So whatever is scheduled, and wherever
other threads are stopped, only so many steps are made until some call returns; and a
single call makes few more than it would alone, but for those the successes of others
cost it.

In each of the three a call has left what the rest of its code amounts to, and a word it
expects that is not current any more costs it one more iteration.
-/

namespace Lockless

variable {ι T : Type*}

/-! ## The array stack -/

namespace Stack

def PC.busy : PC T → Bool
  | .idle => false
  | _ => true

/-- The successful compare-exchanges. -/
def Event.won : Event T → Bool
  | .take _ => true
  | .link _ _ => true
  | .unlink _ => true
  | .give _ _ => true
  | _ => false

/-- The head word a call expects, if it has read one. -/
def PC.expects : PC T → Option (Target × ℕ)
  | .popNext call raw => some (call.source, raw)
  | .popCas call raw _ => some (call.source, raw)
  | .pushNext rest _ raw => some (rest.target, raw)
  | .pushCas rest _ raw => some (rest.target, raw)
  | _ => none

/-- What an iteration more costs a call: nothing if the word it expects is current. -/
def Mem.stale (m : Mem T) : Option (Target × ℕ) → ℕ
  | some (target, raw) => if m.heads target = raw then 0 else 2
  | none => 0

/-- The accesses of a call that are left, and one for its start at an idle thread. -/
def PC.ahead : PC T → ℕ
  | .idle => 8
  | pc => pc.left

/-- The successful compare-exchanges a call has left. -/
def PC.wins : PC T → ℕ
  | .write _ _ => 1
  | .read _ => 1
  | .pushLoad _ _ => 1
  | .pushNext _ _ _ => 1
  | .pushCas _ _ _ => 1
  | _ => 2

theorem PC.wins_le (pc : PC T) : pc.wins ≤ 2 := by
  cases pc <;> simp [PC.wins]

def ahead (m : Mem T) (pc : PC T) : ℕ := pc.ahead + m.stale pc.expects

theorem Mem.stale_le (m : Mem T) (e : Option (Target × ℕ)) : m.stale e ≤ 2 := by
  unfold Mem.stale
  split
  · split_ifs <;> omega
  · omega

theorem Mem.stale_current (m : Mem T) (target : Target) :
    m.stale (some (target, m.heads target)) = 0 := by
  simp [Mem.stale]

theorem ahead_le (m : Mem T) (pc : PC T) : ahead m pc ≤ 8 := by
  have hstale := m.stale_le pc.expects
  cases pc <;> simp only [ahead, PC.ahead, PC.left, PC.expects, Mem.stale] at * <;> omega

theorem ahead_resume (m : Mem T) (call : Call T) (node : ℕ) : ahead m (call.resume node) = 4 := by
  cases call <;> rfl

theorem popTest_paid {m : Mem T} {pc : PC T} {call : Call T} (hpc : pc.popping = some call)
    {k : ℕ} (hk : 7 ≤ k) :
    Paid PC.busy Event.won ahead PC.wins pc k (popTest m call (m.heads call.source)) := by
  have hbusy : pc.busy = true ∧ pc.wins = 2 := by
    cases pc <;> first | exact ⟨rfl, rfl⟩ | cases hpc
  unfold popTest
  split_ifs
  · exact Or.inl ⟨hbusy.1, rfl⟩
  · refine Or.inr ⟨?_, ?_⟩
    · simp only [ahead, PC.ahead, PC.left, PC.expects, m.stale_current]
      exact hk
    · rw [hbusy.2]
      exact Nat.le_refl _

theorem pushTest_paid {m : Mem T} {pc : PC T} {rest : Rest T} {node : ℕ}
    (hpc : pc.pushing = some (rest, node)) {k : ℕ} (hk : 3 ≤ k) :
    Paid PC.busy Event.won ahead PC.wins pc k
      ⟨m, .pushNext rest node (m.heads rest.target),
        some (Event.observe (T := T) rest.target)⟩ := by
  have hwins : pc.wins = 1 := by
    cases pc <;> first | rfl | cases hpc
  refine Or.inr ⟨?_, ?_⟩
  · simp only [ahead, PC.ahead, PC.left, PC.expects, m.stale_current]
    exact hk
  · rw [hwins]
    exact Nat.le_refl _

theorem access_paid (moved : T → T) (m : Mem T) (spurious : Bool) {pc : PC T}
    (hbusy : pc.busy = true) :
    Paid PC.busy Event.won ahead PC.wins pc (ahead m pc + 2 * spurious.toNat)
      (access moved m spurious pc) := by
  cases pc with
  | idle => cases hbusy
  | popLoad call => exact popTest_paid rfl (Nat.le_add_right _ _)
  | popNext call raw =>
      refine Or.inr ⟨?_, Nat.le_refl _⟩
      simp only [access, ahead, PC.ahead, PC.left, PC.expects]
      omega
  | popCas call raw next =>
      simp only [access]
      split_ifs with hwin
      · refine Or.inr ⟨?_, ?_⟩
        · rw [ahead_resume]
          simp only [ahead, PC.ahead, PC.left]
          omega
        · cases call <;> simp [PC.wins, Call.resume, Call.won, Event.won]
      · refine popTest_paid rfl ?_
        -- the word is not current, or the failure is spurious
        rw [not_and_or, Bool.not_eq_false] at hwin
        rcases hwin with hstale | rfl
        · simp [ahead, PC.ahead, PC.left, PC.expects, Mem.stale, hstale]
        · simp only [ahead, PC.ahead, PC.left, Bool.toNat_true]
          omega
  | write value node => exact Or.inr ⟨Nat.le_add_right _ _, Nat.le_refl _⟩
  | read node => exact Or.inr ⟨Nat.le_add_right _ _, Nat.le_refl _⟩
  | pushLoad rest node => exact pushTest_paid rfl (Nat.le_add_right _ _)
  | pushNext rest node raw =>
      refine Or.inr ⟨?_, Nat.le_refl _⟩
      have hsame : (access moved m spurious (.pushNext rest node raw)).mem.stale
          (some (rest.target, raw)) = m.stale (some (rest.target, raw)) := rfl
      simp only [access] at hsame
      simp only [access, ahead, PC.ahead, PC.left, PC.expects, hsame]
      omega
  | pushCas rest node raw =>
      simp only [access]
      split_ifs with hwin
      · exact Or.inl ⟨rfl, rfl⟩
      · refine pushTest_paid rfl ?_
        rw [not_and_or, Bool.not_eq_false] at hwin
        rcases hwin with hstale | rfl
        · simp [ahead, PC.ahead, PC.left, PC.expects, Mem.stale, hstale]
        · simp only [ahead, PC.ahead, PC.left, Bool.toNat_true]
          omega

/-- A step that is no success leaves the heads as they are. -/
theorem Effect.heads {moved : T → T} {m m' : Mem T} {pc pc' : PC T} {ev : Option (Event T)}
    (h : Effect moved m pc m' pc' ev) (hev : ev.any Event.won = false) : m'.heads = m.heads := by
  cases h with
  | popWin call next => cases call <;> cases hev
  | pushWin rest node => cases rest <;> cases hev
  | _ => rfl

theorem contended (moved : T → T) :
    Contended (prog moved) PC.busy Event.won (fun _ => True) ahead PC.wins 2 where
  stays m pc ch hch := by
    cases ch with
    | call op =>
        cases pc with
        | idle => cases hch
        | _ => rfl
    | go =>
        cases pc with
        | idle => rfl
        | _ => cases hch
    | fault =>
        cases pc with
        | idle => rfl
        | _ => cases hch
  own m pc ch _ hch := by
    cases ch with
    | call op =>
        cases pc with
        | idle => exact Or.inr ⟨Nat.le_refl _, Nat.le_refl _⟩
        | _ => cases hch
    | go =>
        have hpaid := access_paid moved m false hch
        cases pc with
        | idle => cases hch
        | _ => exact hpaid
    | fault =>
        have hpaid := access_paid moved m true hch
        cases pc with
        | idle => cases hch
        | _ => exact hpaid
  others m pc ch pc' := by
    have he : Effect moved _ _ _ _ _ := prog_effect m pc ch
    cases hev : (prog moved m pc ch).event.any Event.won with
    | false =>
        have hheads := he.heads hev
        simp only [ahead, Mem.stale, hheads]
        exact Nat.le_add_right _ _
    | true =>
        have hstale := (prog moved m pc ch).mem.stale_le pc'.expects
        simp only [ahead, Bool.toNat_true]
        omega

/-- In every run, from every tick on: a call has 8 steps, its start included, and two more for
each successful compare-exchange of another thread and each spurious failure of its own. And
among `N` threads some call returns after at most `N * (8 + 2 * N * 2)` steps, and two more
for each spurious failure, whichever threads make them. -/
theorem stack_lock_free [DecidableEq ι] (moved : T → T) (capacity : ℕ) (data : ℕ → T)
    (sched : ℕ → ι × Choice (Call T)) (n d : ℕ) :
    (system moved ι capacity data).LockFree PC.busy Event.won sched 8 2 2 n d :=
  Contended.lockFree (contended moved) ahead_le PC.wins_le fun _ _ _ => trivial

end Stack

/-! ## The ring buffer -/

namespace Ring

def PC.busy : PC T → Bool
  | .idle => false
  | _ => true

/-- The compare-exchanges that claim a ticket. -/
def Event.won : Event T → Bool
  | .pushWin _ _ => true
  | .popWin _ => true
  | _ => false

/-- The accesses of a call that are left if its ticket is current and its slot free, and one
for its start at an idle thread. -/
def PC.stepsLeft : PC T → ℕ
  | .idle => 6
  | .push _ .loadHead => 5
  | .push _ (.loadSeq _) => 4
  | .push _ (.cas _) => 3
  | .push _ (.copy _) => 2
  | .push _ (.publish _) => 1
  | .pop .loadTail => 5
  | .pop (.loadSeq _) => 4
  | .pop (.cas _) => 3
  | .pop (.move _) => 2
  | .pop (.publish _ _) => 1

/-- What an iteration more costs a call: nothing if its ticket is current. -/
def Mem.stale (m : Mem T) : PC T → ℕ
  | .push _ (.loadSeq head) => if m.head = head then 0 else 2
  | .push _ (.cas head) => if m.head = head then 0 else 2
  | .pop (.loadSeq tail) => if m.tail = tail then 0 else 2
  | .pop (.cas tail) => if m.tail = tail then 0 else 2
  | _ => 0

/-- A call claims one ticket. -/
def PC.wins : PC T → ℕ
  | .push _ (.copy _) => 0
  | .push _ (.publish _) => 0
  | .pop (.move _) => 0
  | .pop (.publish _ _) => 0
  | _ => 1

def ahead (m : Mem T) (pc : PC T) : ℕ := pc.stepsLeft + m.stale pc

theorem PC.wins_le (pc : PC T) : pc.wins ≤ 1 := by
  unfold PC.wins
  split <;> omega

theorem Mem.stale_le (m : Mem T) (pc : PC T) : m.stale pc ≤ 2 := by
  unfold Mem.stale
  split <;> first | omega | (split_ifs <;> omega)

theorem ahead_le (m : Mem T) (pc : PC T) : ahead m pc ≤ 6 := by
  have hstale := m.stale_le pc
  unfold ahead PC.stepsLeft
  split <;> first | omega | (simp only [Mem.stale]; omega)

/-- The slots of the current tickets show no number ahead of them. -/
structure Behind (Z : AdmittedSize) (m : Mem T) : Prop where
  head : signedDiff 64 (m.sequences (Z.index m.head)) m.head ≤ 0
  tail : signedDiff 64 (m.sequences (Z.index m.tail)) (wrap 64 (m.tail + 1)) ≤ 0

theorem tryPush_paid {Z : AdmittedSize} {m : Mem T} (h : Behind Z m) (spurious : Bool) (item : T)
    (pc : PushPC) :
    Paid PC.busy Event.won ahead PC.wins (.push item pc)
      (ahead m (.push item pc) + 2 * spurious.toNat) (tryPush Z m spurious item pc) := by
  cases pc with
  | loadHead =>
      refine Or.inr ⟨?_, Nat.le_refl _⟩
      simp [tryPush, ahead, PC.stepsLeft, Mem.stale]
  | loadSeq head =>
      simp only [tryPush]
      split_ifs with hz hneg
      · refine Or.inr ⟨?_, Nat.le_refl _⟩
        simp only [ahead, PC.stepsLeft, Mem.stale]
        omega
      · exact Or.inl ⟨rfl, rfl⟩
      · -- the number is ahead of the ticket, so the ticket is not current
        have hstale : m.head ≠ head := by
          rintro rfl
          exact hneg (lt_of_le_of_ne h.head hz)
        refine Or.inr ⟨?_, Nat.le_refl _⟩
        simp [ahead, PC.stepsLeft, Mem.stale, hstale]
  | cas head =>
      simp only [tryPush]
      split_ifs with hwin
      · refine Or.inr ⟨?_, Nat.le_refl _⟩
        simp only [ahead, PC.stepsLeft, Mem.stale]
        omega
      · refine Or.inr ⟨?_, Nat.le_refl _⟩
        rw [not_and_or, Bool.not_eq_false] at hwin
        rcases hwin with hstale | rfl
        · simp [ahead, PC.stepsLeft, Mem.stale, hstale]
        · simp only [ahead, PC.stepsLeft, Mem.stale, if_true, Bool.toNat_true]
          omega
  | copy head => exact Or.inr ⟨Nat.le_add_right _ _, Nat.le_refl _⟩
  | publish head => exact Or.inl ⟨rfl, rfl⟩

theorem tryPop_paid {Z : AdmittedSize} (moved : T → T) {m : Mem T} (h : Behind Z m)
    (spurious : Bool) (pc : PopPC T) :
    Paid PC.busy Event.won ahead PC.wins (.pop pc) (ahead m (.pop pc) + 2 * spurious.toNat)
      (tryPop Z moved m spurious pc) := by
  cases pc with
  | loadTail =>
      refine Or.inr ⟨?_, Nat.le_refl _⟩
      simp [tryPop, ahead, PC.stepsLeft, Mem.stale]
  | loadSeq tail =>
      simp only [tryPop]
      split_ifs with hz hneg
      · refine Or.inr ⟨?_, Nat.le_refl _⟩
        simp only [ahead, PC.stepsLeft, Mem.stale]
        omega
      · exact Or.inl ⟨rfl, rfl⟩
      · have hstale : m.tail ≠ tail := by
          rintro rfl
          exact hneg (lt_of_le_of_ne h.tail hz)
        refine Or.inr ⟨?_, Nat.le_refl _⟩
        simp [ahead, PC.stepsLeft, Mem.stale, hstale]
  | cas tail =>
      simp only [tryPop]
      split_ifs with hwin
      · refine Or.inr ⟨?_, Nat.le_refl _⟩
        simp only [ahead, PC.stepsLeft, Mem.stale]
        omega
      · refine Or.inr ⟨?_, Nat.le_refl _⟩
        rw [not_and_or, Bool.not_eq_false] at hwin
        rcases hwin with hstale | rfl
        · simp [ahead, PC.stepsLeft, Mem.stale, hstale]
        · simp only [ahead, PC.stepsLeft, Mem.stale, if_true, Bool.toNat_true]
          omega
  | move tail => exact Or.inr ⟨Nat.le_add_right _ _, Nat.le_refl _⟩
  | publish tail item => exact Or.inl ⟨rfl, rfl⟩

/-- A step that is no success leaves the tickets as they are. -/
theorem Effect.tickets_eq {Z : AdmittedSize} {moved : T → T} {m m' : Mem T} {pc pc' : PC T}
    {ev : Option (Event T)} (h : Effect Z moved m pc m' pc' ev)
    (hev : ev.any Event.won = false) : m'.head = m.head ∧ m'.tail = m.tail := by
  cases h with
  | pushWin item => cases hev
  | popWin => cases hev
  | _ => exact ⟨rfl, rfl⟩

theorem contended (Z : AdmittedSize) (moved : T → T) :
    Contended (prog Z moved) PC.busy Event.won (Behind Z) ahead PC.wins 2 where
  stays m pc ch hch := by
    cases pc with
    | idle =>
        cases ch with
        | call op => cases hch
        | _ => rfl
    | push item pc =>
        cases ch with
        | call op => rfl
        | _ => cases hch
    | pop pc =>
        cases ch with
        | call op => rfl
        | _ => cases hch
  own m pc ch hJ hch := by
    cases pc with
    | idle =>
        cases ch with
        | call op => cases op <;> exact Or.inr ⟨Nat.le_refl _, Nat.le_refl _⟩
        | _ => cases hch
    | push item pc =>
        cases ch with
        | call op => cases hch
        | go => exact tryPush_paid hJ false item pc
        | fault => exact tryPush_paid hJ true item pc
    | pop pc =>
        cases ch with
        | call op => cases hch
        | go => exact tryPop_paid moved hJ false pc
        | fault => exact tryPop_paid moved hJ true pc
  others m pc ch pc' := by
    have he : Effect Z moved _ _ _ _ _ := prog_effect m pc ch
    cases hev : (prog Z moved m pc ch).event.any Event.won with
    | false =>
        obtain ⟨hhead, htail⟩ := he.tickets_eq hev
        have hsame : (prog Z moved m pc ch).mem.stale pc' = m.stale pc' := by
          unfold Mem.stale
          rw [hhead, htail]
        rw [ahead, ahead, hsame]
        exact Nat.le_add_right _ _
    | true =>
        have hstale := (prog Z moved m pc ch).mem.stale_le pc'
        simp only [ahead, Bool.toNat_true]
        omega

theorem behind_run [DecidableEq ι] {Z : PowSize} {moved : T → T} {buffer : ℕ → T}
    {sched : ℕ → ι × Choice (Op T)} {n : ℕ}
    (hn : (pushed ((system Z moved ι buffer).history sched n)).length < 2 ^ 63) :
    Behind Z ((system Z moved ι buffer).run sched n).mem :=
  ⟨(inv_run hn).signedDiff_head, (inv_run hn).signedDiff_tail ((inv_run hn).pushes ▸ hn)⟩

/-- In every run with fewer than `2 ^ 63` pushes, from every tick on: a call has 6 steps, its
start included, and two more for each ticket another thread claims and each spurious failure
of its own. And among `N` threads some call returns after at most `N * (6 + 2 * N * 1)` steps,
and two more for each spurious failure, whichever threads make them. -/
theorem ring_lock_free [DecidableEq ι] (Z : PowSize) (moved : T → T) (buffer : ℕ → T)
    (sched : ℕ → ι × Choice (Op T)) (n d : ℕ)
    (hn : (pushed ((system Z moved ι buffer).history sched (n + d))).length < 2 ^ 63) :
    (system Z moved ι buffer).LockFree PC.busy Event.won sched 6 1 2 n d := by
  refine Contended.lockFree (contended Z.toAdmittedSize moved) ahead_le PC.wins_le
    fun t _ ht => ?_
  exact behind_run (pushes_lt (Nat.le_of_lt ht) hn)

theorem ring_lock_free_leftAlone :
    ticks ((smallRing Bool).movesAt PC.busy leftAlone) 0 12 = 12
      ∧ (smallRing Bool).LockFree PC.busy Event.won leftAlone 6 1 2 0 12 :=
  ⟨by decide, ring_lock_free twoCells id (fun _ => 0) leftAlone 0 12 (by decide)⟩

end Ring

/-! ## The arena -/

namespace Arena

def PC.busy : PC → Bool
  | .idle => false
  | _ => true

def Event.won : Event → Bool
  | .allocated _ _ => true
  | .arenaFull _ => false

def PC.stepsLeft : PC → ℕ
  | .idle => 3
  | .load _ => 2
  | .cas _ _ => 1

def Mem.stale (m : Mem) : PC → ℕ
  | .cas _ current => if m.writeOffset = current then 0 else 1
  | _ => 0

def PC.wins : PC → ℕ := fun _ => 1

def ahead (m : Mem) (pc : PC) : ℕ := pc.stepsLeft + m.stale pc

theorem Mem.stale_le (m : Mem) (pc : PC) : m.stale pc ≤ 1 := by
  unfold Mem.stale
  split
  · split_ifs <;> omega
  · omega

theorem ahead_le (m : Mem) (pc : PC) : ahead m pc ≤ 3 := by
  have hstale := m.stale_le pc
  cases pc <;> simp only [ahead, PC.stepsLeft, Mem.stale] at * <;> omega

theorem check_paid {size : ℕ} {m : Mem} {pc : PC} {bytes k : ℕ} (hbusy : pc.busy = true)
    (hk : 2 ≤ k) :
    Paid PC.busy Event.won ahead PC.wins pc k (check size m bytes m.writeOffset) := by
  unfold check
  split_ifs
  · exact Or.inl ⟨hbusy, rfl⟩
  · refine Or.inr ⟨?_, Nat.le_refl _⟩
    simpa [ahead, PC.stepsLeft, Mem.stale] using hk

theorem allocate_paid (size : ℕ) (m : Mem) (spurious : Bool) {pc : PC} (hbusy : pc.busy = true) :
    Paid PC.busy Event.won ahead PC.wins pc (ahead m pc + 1 * spurious.toNat)
      (allocate size m spurious pc) := by
  cases pc with
  | idle => cases hbusy
  | load bytes => exact check_paid rfl (Nat.le_add_right _ _)
  | cas bytes current =>
      simp only [allocate]
      split_ifs with hwin
      · exact Or.inl ⟨rfl, rfl⟩
      · refine check_paid rfl ?_
        rw [not_and_or, Bool.not_eq_false] at hwin
        rcases hwin with hstale | rfl
        · simp [ahead, PC.stepsLeft, Mem.stale, hstale]
        · simp only [ahead, PC.stepsLeft, Bool.toNat_true]
          omega

/-- A step that is no success leaves the offset as it is. -/
theorem Effect.mem_eq {size : ℕ} {ch : Choice Op} {m m' : Mem} {pc pc' : PC} {ev : Option Event}
    (h : Effect size m ch pc m' pc' ev) (hev : ev.any Event.won = false) : m' = m := by
  cases h with
  | commit bytes => cases hev
  | _ => rfl

theorem contended (size : ℕ) :
    Contended (prog size) PC.busy Event.won (fun _ => True) ahead PC.wins 1 where
  stays m pc ch hch := by
    cases ch with
    | call op =>
        cases pc with
        | idle => cases hch
        | _ => rfl
    | _ =>
        cases pc with
        | idle => rfl
        | _ => cases hch
  own m pc ch _ hch := by
    cases ch with
    | call op =>
        cases pc with
        | idle => exact Or.inr ⟨Nat.le_refl _, Nat.le_refl _⟩
        | _ => cases hch
    | go =>
        have hpaid := allocate_paid size m false hch
        cases pc <;> exact hpaid
    | fault =>
        have hpaid := allocate_paid size m true hch
        cases pc <;> exact hpaid
  others m pc ch pc' := by
    have he : Effect size m ch _ _ _ _ := prog_effect m pc ch
    cases hev : (prog size m pc ch).event.any Event.won with
    | false =>
        rw [he.mem_eq hev]
        exact Nat.le_add_right _ _
    | true =>
        have hstale := (prog size m pc ch).mem.stale_le pc'
        simp only [ahead, Bool.toNat_true]
        omega

/-- In every run, from every tick on: a call of `allocate` has 3 steps, its start included, and
one more for each block another thread commits and each spurious failure of its own. And among
`N` threads some call returns or throws after at most `N * (3 + 1 * N * 1)` steps, and one more
for each spurious failure, whichever threads make them. -/
theorem allocate_lock_free [DecidableEq ι] (size : ℕ) (sched : ℕ → ι × Choice Op) (n d : ℕ) :
    (system size ι).LockFree PC.busy Event.won sched 3 1 1 n d :=
  Contended.lockFree (contended size) ahead_le (fun _ => Nat.le_refl 1) fun _ _ _ => trivial

end Arena

end Lockless
