import Lockless.Validator

/-!
# The verdict on a history

`check_sequential_consistency` of `ordering_validator.hpp` makes three passes over
the recorded operations. It looks for one that ended before it started; it counts
the pushed values in a map of `int`s and takes the popped ones off again; and it
replays the completed operations in the order of their end times on a stack. Only
the first two can make it return false: the replay pops whatever is on top, and
compares it with nothing.

So the verdict is a matter of how often each value is pushed and popped, and a
history that takes values out in the wrong order passes: `queueHistory` is one.
-/

namespace Lockless

namespace Validator

/-- The local record of the replay. -/
structure CompletedOp where
  type : OperationType
  value : ℤ
  endNs : ℕ
deriving DecidableEq

/-- What `std::sort` by end time may do: the order of records with the same end
time is left open. -/
structure SortByEnd where
  sort : List CompletedOp → List CompletedOp
  perm : ∀ l, (sort l).Perm l
  sorted : ∀ l, (sort l).Pairwise fun a b => a.endNs ≤ b.endNs

/-- The values of the successful operations of a type, in the order of the records. -/
def values (type : OperationType) (ops : List Operation) : List ℤ :=
  ops.filterMap fun op => if op.success = true ∧ op.type = type then some op.value else none

def pushed (ops : List Operation) : List ℤ := values .push ops

def popped (ops : List Operation) : List ℤ := values .pop ops

/-- `push_counts[v]++`, on a map of 32-bit `int`s. -/
def countPush (counts : ℤ → Option ℤ) (v : ℤ) : ℤ → Option ℤ :=
  Function.update counts v (some (signed 32 ((counts v).getD 0 + 1)))

def pushCounts (pushed : List ℤ) : ℤ → Option ℤ :=
  pushed.foldl countPush fun _ => none

/-- The popped value at which the second pass stops, if it does. -/
def neverPushed : (ℤ → Option ℤ) → List ℤ → Option ℤ
  | _, [] => none
  | counts, v :: popped =>
      match counts v with
      | none => some v
      | some n =>
          if n ≤ 0 then some v
          else neverPushed (Function.update counts v (some (signed 32 (n - 1)))) popped

/-- The operations that are replayed: the successful ones that push or pop. -/
def Operation.Completed (op : Operation) : Prop :=
  op.success = true ∧ (op.type = .push ∨ op.type = .pop)

instance (op : Operation) : Decidable op.Completed :=
  inferInstanceAs (Decidable (op.success = true ∧ (op.type = .push ∨ op.type = .pop)))

def sequential (ops : List Operation) : List CompletedOp :=
  (ops.filter fun op => op.Completed).map fun op => ⟨op.type, op.value, op.endTime⟩

/-- One step of the replay; an empty stack is left alone. -/
def simulate (sim : List ℤ) (cop : CompletedOp) : List ℤ :=
  if cop.type = .push then cop.value :: sim else sim.tail

/-- What `check_sequential_consistency` returns, and what it writes to the error
stream. -/
def checkSequentialConsistency (std : SortByEnd) (ops : List Operation) : Bool × List String :=
  if ops.any fun op => op.endTime < op.startTime then
    (false, ["Violation: operation ended before it started"])
  else
    match neverPushed (pushCounts (pushed ops)) (popped ops) with
    | some v => (false, [s!"Violation: popped value {v} was never pushed"])
    | none =>
        let _sim := (std.sort (sequential ops)).foldl simulate []
        (true, [])

/-! ## The counters -/

theorem pushCounts_concat (l : List ℤ) (v : ℤ) :
    pushCounts (l ++ [v]) = countPush (pushCounts l) v := by
  simp only [pushCounts, List.foldl_append, List.foldl_cons, List.foldl_nil]

/-- The counter of a value, which is 0 if it has none. -/
theorem pushCounts_getD (l : List ℤ) (v : ℤ) :
    (pushCounts l v).getD 0 = signed 32 (l.count v) := by
  induction l using List.reverseRecOn with
  | nil => simp [pushCounts, signed]
  | append_singleton l w ih =>
      rw [pushCounts_concat, countPush]
      by_cases hvw : v = w
      · subst hvw
        rw [Function.update_self, Option.getD_some, ih, signed_signed_add, List.count_append,
          List.count_singleton_self]
        push_cast
        rfl
      · rw [Function.update_of_ne hvw, ih, List.count_append,
          List.count_singleton, beq_eq_false_iff_ne.mpr (Ne.symm hvw)]
        simp

/-- Every counter is an `int`. -/
theorem pushCounts_lt (l : List ℤ) (v n : ℤ) (h : pushCounts l v = some n) : n < 2 ^ 31 := by
  have hvalue := pushCounts_getD l v
  rw [h, Option.getD_some] at hvalue
  have hlt := two_mul_signed_lt 32 (l.count v)
  omega

theorem neverPushed_eq_none_iff {counts : ℤ → Option ℤ} {l : List ℤ}
    (h : ∀ v n, counts v = some n → n < 2 ^ 31) :
    neverPushed counts l = none ↔ ∀ v, l.count v = 0 ∨ (l.count v : ℤ) ≤ (counts v).getD 0 := by
  induction l generalizing counts with
  | nil => simp [neverPushed]
  | cons v l ih =>
      -- a value whose counter is used up
      have hstop : (counts v).getD 0 ≤ 0 →
          ¬ ∀ w, (v :: l).count w = 0 ∨ ((v :: l).count w : ℤ) ≤ (counts w).getD 0 := by
        intro hle hall
        have hv := hall v
        rw [List.count_cons_self] at hv
        omega
      cases hn : counts v with
      | none =>
          rw [hn] at hstop
          simp only [neverPushed, hn]
          exact iff_of_false (by simp) (hstop (by simp))
      | some n =>
          rw [hn] at hstop
          simp only [neverPushed, hn]
          split_ifs with hle
          · exact iff_of_false (by simp) (hstop (by simpa using hle))
          · have hlt := h v n hn
            have hsigned : signed 32 (n - 1) = n - 1 := signed_of_lt (by omega) (by omega)
            rw [hsigned, ih]
            · refine forall_congr' fun w => ?_
              by_cases hwv : w = v
              · subst hwv
                rw [Function.update_self, Option.getD_some, hn, Option.getD_some,
                  List.count_cons_self]
                omega
              · rw [Function.update_of_ne hwv, List.count_cons_of_ne (Ne.symm hwv)]
            · intro w k hk
              by_cases hwv : w = v
              · subst hwv
                rw [Function.update_self, Option.some.injEq] at hk
                omega
              · rw [Function.update_of_ne hwv] at hk
                exact h w k hk

/-! ## The verdict -/

/-- How often a value is the result of a successful operation of a type. -/
def successes (type : OperationType) (v : ℤ) (ops : List Operation) : ℕ :=
  ops.countP fun op => op.success = true ∧ op.type = type ∧ op.value = v

theorem count_values (type : OperationType) (v : ℤ) (ops : List Operation) :
    (values type ops).count v = successes type v ops := by
  induction ops with
  | nil => rfl
  | cons op ops ih =>
      rw [values] at ih ⊢
      rw [successes, List.countP_cons, ← successes, ← ih, List.filterMap_cons]
      by_cases hop : op.success = true ∧ op.type = type
      · by_cases hv : op.value = v
        · simp [hop, hv]
        · simp [hop, hv, List.count_cons_of_ne]
      · have hnot : ¬ (op.success = true ∧ op.type = type ∧ op.value = v) :=
          fun h => hop ⟨h.1, h.2.1⟩
        simp [hop, hnot]

/-- The verdict, for histories of any length: a counter that has gone past the
greatest `int` counts as what it has become. -/
theorem check_iff (std : SortByEnd) (ops : List Operation) :
    (checkSequentialConsistency std ops).1 = true
      ↔ (∀ op ∈ ops, op.startTime ≤ op.endTime)
        ∧ ∀ v, successes .pop v ops = 0
          ∨ (successes .pop v ops : ℤ) ≤ signed 32 (successes .push v ops) := by
  have hcounts := neverPushed_eq_none_iff (l := popped ops) (pushCounts_lt (pushed ops))
  simp only [pushCounts_getD, pushed, popped, count_values] at hcounts
  unfold checkSequentialConsistency
  split_ifs with htime
  · rw [List.any_eq_true] at htime
    obtain ⟨op, hop, hlt⟩ := htime
    refine iff_of_false (by simp) fun h => ?_
    have hle := h.1 op hop
    have hlt := of_decide_eq_true hlt
    omega
  · have hall : ∀ op ∈ ops, op.startTime ≤ op.endTime := by
      intro op hop
      by_contra hlt
      exact htime (List.any_eq_true.mpr ⟨op, hop, decide_eq_true (Nat.lt_of_not_le hlt)⟩)
    rw [← hcounts]
    cases hstop : neverPushed (pushCounts (pushed ops)) (popped ops) with
    | none => exact iff_of_true rfl ⟨hall, hstop⟩
    | some v => exact iff_of_false (by simp) fun h => by simp [pushed, popped, h.2] at hstop

/-- Short histories leave no counter past the greatest `int`. -/
theorem signed_successes {type : OperationType} {v : ℤ} {ops : List Operation}
    (h : ops.length < 2 ^ 31) : signed 32 (successes type v ops) = successes type v ops := by
  have hle : successes type v ops ≤ ops.length := List.countP_le_length
  exact signed_of_lt (by omega) (by omega)

theorem successes_perm {type : OperationType} {v : ℤ} {ops ops' : List Operation}
    (h : ops.Perm ops') : successes type v ops = successes type v ops' :=
  h.countP_eq _

/-- Records of failed operations and of other types are not counted. -/
theorem successes_append_extra {type : OperationType} (htype : type = .push ∨ type = .pop)
    (v : ℤ) (ops : List Operation) {extra : List Operation}
    (h : ∀ op ∈ extra, ¬ op.Completed) :
    successes type v (ops ++ extra) = successes type v ops := by
  have hnone : successes type v extra = 0 := by
    refine List.countP_eq_zero.mpr fun op hop hcounted => h op hop ?_
    obtain ⟨hsuccess, rfl, -⟩ := of_decide_eq_true hcounted
    exact ⟨hsuccess, htype⟩
  rw [successes, List.countP_append, ← successes, ← successes, hnone, Nat.add_zero]

/-- Neither the order of the records nor records of failed operations and of other types
with proper times have a part in the verdict. -/
theorem check_eq_of_perm_append (std std' : SortByEnd) {ops ops' extra : List Operation}
    (hperm : ops'.Perm (ops ++ extra))
    (hextra : ∀ op ∈ extra, op.startTime ≤ op.endTime ∧ ¬ op.Completed) :
    (checkSequentialConsistency std' ops').1 = (checkSequentialConsistency std ops).1 := by
  have hsame : ∀ type, type = .push ∨ type = .pop → ∀ v,
      successes type v ops' = successes type v ops := by
    intro type htype v
    rw [successes_perm hperm, successes_append_extra htype v ops fun op hop => (hextra op hop).2]
  have htimes : (∀ op ∈ ops', op.startTime ≤ op.endTime)
      ↔ ∀ op ∈ ops, op.startTime ≤ op.endTime := by
    constructor
    · exact fun h op hop => h op (hperm.mem_iff.mpr (List.mem_append_left extra hop))
    · intro h op hop
      rcases List.mem_append.mp (hperm.mem_iff.mp hop) with hop | hop
      · exact h op hop
      · exact (hextra op hop).1
  rw [Bool.eq_iff_iff, check_iff, check_iff, htimes]
  simp only [hsame .push (Or.inl rfl), hsame .pop (Or.inr rfl)]

/-- With fewer than `2 ^ 31` operations `check_sequential_consistency` returns true if
and only if every operation ends no earlier than it starts and every value is
popped at most as often as it is pushed. Neither the order of the records nor records of
failed operations and of other types with proper times have a part in it. -/
theorem verdict_exact (std : SortByEnd) (ops : List Operation) (hlen : ops.length < 2 ^ 31) :
    ((checkSequentialConsistency std ops).1 = true
        ↔ (∀ op ∈ ops, op.startTime ≤ op.endTime)
          ∧ ∀ v, successes .pop v ops ≤ successes .push v ops)
      ∧ (∀ std' ops', ops'.Perm ops →
        (checkSequentialConsistency std' ops').1 = (checkSequentialConsistency std ops).1)
      ∧ ∀ std' ops' extra, ops'.Perm (ops ++ extra) →
        (∀ op ∈ extra, op.startTime ≤ op.endTime ∧ ¬ op.Completed) →
        (checkSequentialConsistency std' ops').1 = (checkSequentialConsistency std ops).1 := by
  refine ⟨?_, fun std' ops' hperm => ?_, fun std' ops' extra => check_eq_of_perm_append std std'⟩
  · rw [check_iff]
    refine and_congr_right fun _ => forall_congr' fun v => ?_
    rw [signed_successes hlen]
    omega
  · rw [← List.append_nil ops] at hperm
    exact check_eq_of_perm_append std std' hperm (by simp)

/-- A sort that keeps the order of records with the same end time. -/
def SortByEnd.stable : SortByEnd where
  sort l := l.mergeSort fun a b => a.endNs ≤ b.endNs
  perm l := List.mergeSort_perm l _
  sorted l := by
    refine (List.pairwise_mergeSort ?_ ?_ l).imp of_decide_eq_true
    · intro a b c hab hbc
      exact decide_eq_true (Nat.le_trans (of_decide_eq_true hab) (of_decide_eq_true hbc))
    · intro a b
      rw [Bool.or_eq_true, decide_eq_true_eq, decide_eq_true_eq]
      exact Nat.le_total _ _

/-- Two pushes of 1 that overlap two pops of it, with a failed pop of 3 between. -/
def overlappingHistory : List Operation :=
  [⟨.pop, 1, 4, 9, 1, true⟩, ⟨.push, 0, 1, 5, 1, true⟩, ⟨.pop, 1, 2, 3, 3, false⟩,
    ⟨.push, 0, 6, 8, 1, true⟩, ⟨.pop, 2, 7, 7, 1, true⟩]

theorem verdict_exact_overlappingHistory :
    (checkSequentialConsistency .stable overlappingHistory).1 = true
      ∧ (checkSequentialConsistency .stable overlappingHistory.reverse).1
        = (checkSequentialConsistency .stable overlappingHistory).1 :=
  ⟨by decide, (verdict_exact .stable overlappingHistory (by decide)).2.1 _ _
    (List.reverse_perm _)⟩

/-! ## Histories without overlaps -/

/-- The completed operations of a history in the order of time: each ends before
the next one starts. -/
structure InTime (ops l : List Operation) : Prop where
  perm : l.Perm (ops.filter fun op => op.Completed)
  apart : l.Pairwise fun a b => a.endTime < b.startTime

/-- Replayed on a stack with the values `sim`, every pop returns the value on top. -/
def replays : List ℤ → List Operation → Bool
  | _, [] => true
  | sim, op :: l =>
      if op.type = .push then replays (op.value :: sim) l
      else decide (sim.head? = some op.value) && replays sim.tail l

/-- A value is popped more often than the `int` counts its pushes, which is as often as
it is pushed as long as these are fewer than `2 ^ 31`. -/
def Overdrawn (v : ℤ) (ops : List Operation) : Prop :=
  0 < successes .pop v ops ∧ signed 32 (successes .push v ops) < successes .pop v ops

/-- The histories that are rejected. -/
theorem check_ne_true_iff (std : SortByEnd) (ops : List Operation) :
    ¬ (checkSequentialConsistency std ops).1 = true
      ↔ (∃ op ∈ ops, op.endTime < op.startTime) ∨ ∃ v, Overdrawn v ops := by
  rw [check_iff]
  constructor
  · intro h
    by_cases htime : ∀ op ∈ ops, op.startTime ≤ op.endTime
    · obtain ⟨v, hv⟩ := not_forall.mp fun hall => h ⟨htime, hall⟩
      exact Or.inr ⟨v, by unfold Overdrawn; omega⟩
    · push Not at htime
      exact Or.inl htime
  · rintro (⟨op, hop, hlt⟩ | ⟨v, hpos, hlt⟩) ⟨htime, hcounts⟩
    · have hle := htime op hop
      omega
    · rcases hcounts v with hzero | hle <;> omega

/-! ## The replay of the source -/

/-- The local record of an operation. -/
def Operation.completed (op : Operation) : CompletedOp := ⟨op.type, op.value, op.endTime⟩

/-- Operations that do not overlap are sorted by end time in one way only. -/
theorem sort_sequential (std : SortByEnd) {ops l : List Operation} (h : InTime ops l)
    (htime : ∀ op ∈ ops, op.startTime ≤ op.endTime) :
    std.sort (sequential ops) = l.map Operation.completed := by
  have hends : (l.map Operation.completed).Pairwise fun a b => a.endNs < b.endNs := by
    rw [List.pairwise_map]
    refine h.apart.imp_of_mem fun {a b} _ hb hab => ?_
    have hb := htime b (List.mem_of_mem_filter (h.perm.mem_iff.mp hb))
    exact Nat.lt_of_lt_of_le hab hb
  have hperm : (std.sort (sequential ops)).Perm (l.map Operation.completed) :=
    (std.perm _).trans (h.perm.map _).symm
  -- records with the same end time are the same record
  have hnodup : ((l.map Operation.completed).map CompletedOp.endNs).Nodup :=
    List.pairwise_map.mpr (hends.imp Nat.ne_of_lt)
  refine hperm.eq_of_pairwise ?_ (std.sorted _) (hends.imp Nat.le_of_lt)
  intro a b ha hb hab hba
  exact List.inj_on_of_nodup_map hnodup (hperm.mem_iff.mp ha) hb (Nat.le_antisymm hab hba)

/-- A replay in which every pop returns the value on top is one of `simulate` in which it
takes that value off. -/
theorem replays_iff (sim : List ℤ) (l : List Operation) :
    replays sim l = true ↔ ∀ k op, l[k]? = some op → op.type ≠ .push →
      (((l.take k).map Operation.completed).foldl simulate sim).head? = some op.value := by
  induction l generalizing sim with
  | nil => simp [replays]
  | cons op l ih =>
      have hsplit : (∀ k op', (op :: l)[k]? = some op' → op'.type ≠ .push →
            ((((op :: l).take k).map Operation.completed).foldl simulate sim).head?
              = some op'.value)
          ↔ (op.type ≠ .push → sim.head? = some op.value)
            ∧ replays (simulate sim op.completed) l = true := by
        rw [ih]
        constructor
        · intro h
          exact ⟨fun hop => h 0 op rfl hop, fun k op' hk => h (k + 1) op' hk⟩
        · rintro ⟨hop, hl⟩ k op' hk
          cases k with
          | zero =>
              cases hk
              exact hop
          | succ k => exact hl k op' hk
      rw [hsplit]
      by_cases hop : op.type = .push
      · simp [replays, simulate, Operation.completed, hop]
      · simp [replays, simulate, Operation.completed, hop]

/-- For a history that has passed the first check, to replay its completed operations in
time order is to run the loop at the end of `check_sequential_consistency`, and the pops
return what is on top if and only if they return what the loop takes off. -/
theorem replays_iff_simulate (std : SortByEnd) {ops l : List Operation} (h : InTime ops l)
    (htime : ∀ op ∈ ops, op.startTime ≤ op.endTime) :
    replays [] l = true
      ↔ ∀ k cop, (std.sort (sequential ops))[k]? = some cop → cop.type ≠ .push →
        (((std.sort (sequential ops)).take k).foldl simulate []).head? = some cop.value := by
  rw [replays_iff, sort_sequential std h htime]
  simp only [← List.map_take, List.getElem?_map, Option.map_eq_some_iff]
  constructor
  · rintro hl k cop ⟨op, hk, rfl⟩ hop
    exact hl k op hk hop
  · intro hl k op hk hop
    exact hl k _ ⟨op, hk, rfl⟩ hop

/-- The loop gets to the branch that takes a value off if some pop was successful. -/
theorem exists_pop_iff (std : SortByEnd) (ops : List Operation) :
    (∃ cop ∈ std.sort (sequential ops), cop.type ≠ .push)
      ↔ ∃ op ∈ ops, op.success = true ∧ op.type = .pop := by
  constructor
  · rintro ⟨cop, hcop, htype⟩
    obtain ⟨op, hop, rfl⟩ := List.mem_map.mp ((std.perm _).mem_iff.mp hcop)
    obtain ⟨hop, hcompleted⟩ := List.mem_filter.mp hop
    obtain ⟨hsuccess, hpush | hpop⟩ := of_decide_eq_true hcompleted
    · exact absurd hpush htype
    · exact ⟨op, hop, hsuccess, hpop⟩
  · rintro ⟨op, hop, hsuccess, hpop⟩
    refine ⟨op.completed, (std.perm _).mem_iff.mpr (List.mem_map.mpr ⟨op, ?_, rfl⟩), ?_⟩
    · exact List.mem_filter.mpr ⟨hop, decide_eq_true ⟨hsuccess, Or.inr hpop⟩⟩
    · exact fun hpush => by cases hpop.symm.trans hpush

/-! ## What the order has to do with the verdict -/

/-- The history is rejected, or none of its pops was successful. -/
def SkipsPops (ops : List Operation) : Prop :=
  (∃ op ∈ ops, op.endTime < op.startTime) ∨ (∃ v, Overdrawn v ops)
    ∨ ∀ op ∈ ops, op.success = true → op.type ≠ .pop

theorem not_skipsPops_iff (std : SortByEnd) (ops : List Operation) :
    ¬ SkipsPops ops ↔ (checkSequentialConsistency std ops).1 = true
      ∧ ∃ cop ∈ std.sort (sequential ops), cop.type ≠ .push := by
  have hrejected := check_ne_true_iff std ops
  rw [exists_pop_iff, SkipsPops, ← or_assoc, not_or, ← hrejected, not_not]
  refine and_congr_right fun _ => ?_
  push Not
  rfl

/-- If the loop does not get to a pop, there is nothing in the replay to go wrong. -/
theorem replays_of_skipsPops (std : SortByEnd) {ops l : List Operation} (h : InTime ops l)
    (hskip : SkipsPops ops) (htrue : (checkSequentialConsistency std ops).1 = true) :
    replays [] l = true := by
  refine (replays_iff_simulate std h ((check_iff std ops).mp htrue).1).mpr ?_
  intro k cop hk hcop
  refine absurd hskip ((not_skipsPops_iff std ops).mpr ⟨htrue, cop, ?_, hcop⟩)
  exact List.mem_of_getElem? hk

/-- The operation as one that takes no time. -/
def Operation.retime (t : ℕ) (op : Operation) : Operation :=
  { op with startTime := t, endTime := t }

/-- The records of the same operations, at other times. -/
def Retimed (ops ops' : List Operation) : Prop :=
  ops'.map (Operation.retime 0) = ops.map (Operation.retime 0)

theorem Retimed.successes_eq {ops ops' : List Operation} (h : Retimed ops ops')
    (type : OperationType) (v : ℤ) : successes type v ops' = successes type v ops := by
  have hmap : ∀ l, successes type v (l.map (Operation.retime 0)) = successes type v l :=
    fun l => List.countP_map
  rw [← hmap ops', h, hmap ops]

theorem Retimed.overdrawn_iff {ops ops' : List Operation} (h : Retimed ops ops') (v : ℤ) :
    Overdrawn v ops' ↔ Overdrawn v ops := by
  rw [Overdrawn, Overdrawn, h.successes_eq, h.successes_eq]

theorem Retimed.forall_iff {ops ops' : List Operation} (h : Retimed ops ops') :
    (∀ op ∈ ops', op.success = true → op.type ≠ .pop)
      ↔ ∀ op ∈ ops, op.success = true → op.type ≠ .pop := by
  have hmap : ∀ l : List Operation, (∀ op ∈ l, op.success = true → op.type ≠ .pop)
      ↔ ∀ op ∈ l.map (Operation.retime 0), op.success = true → op.type ≠ .pop :=
    fun l => (List.forall_mem_map (l := l) (f := Operation.retime 0)
      (P := fun op => op.success = true → op.type ≠ .pop)).symm
  rw [hmap ops', h, ← hmap ops]

/-- The operations one after another, from time `t` on. -/
def spread : ℕ → List Operation → List Operation
  | _, [] => []
  | t, op :: l => op.retime t :: spread (t + 1) l

theorem map_retime_spread (t : ℕ) (l : List Operation) :
    (spread t l).map (Operation.retime 0) = l.map (Operation.retime 0) := by
  induction l generalizing t with
  | nil => rfl
  | cons op l ih => simp [spread, ih, Operation.retime]

theorem spread_append (t : ℕ) (l l' : List Operation) :
    spread t (l ++ l') = spread t l ++ spread (t + l.length) l' := by
  induction l generalizing t with
  | nil => rfl
  | cons op l ih => simp [spread, ih, Nat.add_assoc, Nat.add_comm 1]

theorem of_mem_spread {t : ℕ} {l : List Operation} {op : Operation} (h : op ∈ spread t l) :
    t ≤ op.startTime ∧ op.startTime = op.endTime := by
  induction l generalizing t with
  | nil => cases h
  | cons op' l ih =>
      rcases List.mem_cons.mp h with rfl | h
      · exact ⟨Nat.le_refl _, rfl⟩
      · exact ⟨Nat.le_of_succ_le (ih h).1, (ih h).2⟩

theorem pairwise_spread (t : ℕ) (l : List Operation) :
    (spread t l).Pairwise fun a b => a.endTime < b.startTime := by
  induction l generalizing t with
  | nil => exact List.Pairwise.nil
  | cons op l ih => exact List.pairwise_cons.mpr ⟨fun b hb => (of_mem_spread hb).1, ih _⟩

/-- The operations at such times that a successful pop comes first. -/
theorem exists_retimed_pop {ops : List Operation} {op : Operation} (hop : op ∈ ops)
    (hsuccess : op.success = true) (hpop : op.type = .pop) :
    ∃ ops' l, Retimed ops ops' ∧ InTime ops' l ∧ (∀ op' ∈ ops', op'.startTime ≤ op'.endTime)
      ∧ replays [] l = false := by
  obtain ⟨pre, post, rfl⟩ := List.mem_iff_append.mp hop
  have hcompleted : (op.retime 0).Completed := ⟨hsuccess, Or.inr hpop⟩
  refine ⟨spread 1 pre ++ op.retime 0 :: spread (1 + pre.length) post,
    op.retime 0 :: (spread 1 (pre ++ post)).filter fun op => op.Completed, ?_, ⟨?_, ?_⟩, ?_, ?_⟩
  · simp [Retimed, map_retime_spread, Operation.retime]
  · rw [spread_append]
    simp only [List.filter_append, List.filter_cons, hcompleted, decide_true, if_true]
    exact List.perm_middle.symm
  · refine List.pairwise_cons.mpr ⟨fun b hb => ?_, (pairwise_spread 1 _).filter _⟩
    exact (of_mem_spread (List.mem_of_mem_filter hb)).1
  · intro op' hop'
    rcases List.mem_append.mp hop' with h | h
    · exact Nat.le_of_eq (of_mem_spread h).2
    · rcases List.mem_cons.mp h with rfl | h
      · exact Nat.le_refl _
      · exact Nat.le_of_eq (of_mem_spread h).2
  · have hnot : ¬ (op.retime 0).type = .push := fun hpush => by cases hpop.symm.trans hpush
    simp [replays, hnot]

/-- A history whose completed operations do not overlap, and that is rejected or has no
successful pop, is accepted only if it is one of a stack; any other history is accepted, and
with a pop that is compared with nothing. What the times are has no part in the latter: the
histories with given operations, at whatever times that do not overlap, are accepted only if
they are those of a stack if and only if a value is popped more often than it is pushed, or
there is no successful pop. -/
theorem rejects_nonLifo_exact (std : SortByEnd) (ops : List Operation) :
    (∀ l, InTime ops l → SkipsPops ops →
        (checkSequentialConsistency std ops).1 = true → replays [] l = true)
      ∧ (¬ SkipsPops ops ↔ (checkSequentialConsistency std ops).1 = true
        ∧ ∃ cop ∈ std.sort (sequential ops), cop.type ≠ .push)
      ∧ ((∀ ops' l, Retimed ops ops' → InTime ops' l →
          (checkSequentialConsistency std ops').1 = true → replays [] l = true)
        ↔ (∃ v, Overdrawn v ops) ∨ ∀ op ∈ ops, op.success = true → op.type ≠ .pop) := by
  refine ⟨fun l h => replays_of_skipsPops std h, not_skipsPops_iff std ops, ?_, ?_⟩
  · intro hall
    by_contra hnone
    rw [not_or] at hnone
    obtain ⟨hdrawn, hpops⟩ := hnone
    push Not at hpops
    obtain ⟨op, hop, hsuccess, hpop⟩ := hpops
    obtain ⟨ops', l, hretimed, hl, htime, hreplay⟩ := exists_retimed_pop hop hsuccess hpop
    have haccepted : (checkSequentialConsistency std ops').1 = true := by
      by_contra hrejected
      rcases (check_ne_true_iff std ops').mp hrejected with ⟨op', hop', hlt⟩ | ⟨v, hv⟩
      · exact Nat.not_lt.mpr (htime op' hop') hlt
      · exact hdrawn ⟨v, (hretimed.overdrawn_iff v).mp hv⟩
    rw [hall ops' l hretimed hl haccepted] at hreplay
    cases hreplay
  · intro hcond ops' l hretimed hl
    refine replays_of_skipsPops std hl (Or.inr (hcond.imp ?_ hretimed.forall_iff.mpr))
    rintro ⟨v, hv⟩
    exact ⟨v, (hretimed.overdrawn_iff v).mpr hv⟩

/-- Two pushes, and a pop that finds nothing. -/
def pushHistory : List Operation :=
  [⟨.push, 0, 0, 1, 1, true⟩, ⟨.push, 0, 2, 3, 2, true⟩, ⟨.pop, 0, 4, 5, 0, false⟩]

theorem rejects_nonLifo_exact_pushHistory :
    (checkSequentialConsistency .stable pushHistory).1 = true
      ∧ replays [] (pushHistory.take 2) = true :=
  ⟨by decide, (rejects_nonLifo_exact .stable pushHistory).1 _ ⟨by decide, by decide⟩
    (Or.inr (Or.inr (by decide))) (by decide)⟩

/-- 1 and 2 are pushed, and popped in the same order. -/
def queueHistory : List Operation :=
  [⟨.push, 0, 0, 1, 1, true⟩, ⟨.push, 0, 2, 3, 2, true⟩, ⟨.pop, 0, 4, 5, 1, true⟩,
    ⟨.pop, 0, 6, 7, 2, true⟩]

theorem queueHistory_accepted :
    InTime queueHistory queueHistory
      ∧ (checkSequentialConsistency .stable queueHistory).1 = true
      ∧ ¬ replays [] queueHistory = true :=
  ⟨⟨by decide, by decide⟩, by decide, by decide⟩

end Validator

end Lockless
