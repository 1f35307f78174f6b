import Lockless.Linearize
import Lockless.RingBatch
import Lockless.RingFifo

/-!
# The ring buffer is linearizable, refusals apart

The calls of `try_push` and `try_pop` that return true can be put in one order, in which each
stands between its start and its return, such that they answer as those of a queue of `Size`
items. The commit points are the compare-exchanges that claim a ticket: they are made in the
order of the tickets, and the item a pop will return is known by then, although it is read out
of the cell later.

The calls that return false are left out, since they are not those of a queue: a pop is refused
for a push that has claimed its ticket and is yet to publish it, and the queue is not empty
then.
-/

namespace Lockless

namespace Ring

variable {ι T : Type*}

/-! ## What the calls answer -/

/-- What a call of the ring does to a list of at most `n` items, and what it returns. -/
def queue (n : ℕ) (q : List T) : Op T → List T × Batch.Result T
  | .tryPush item => Batch.fifo n q (.tryPush item)
  | .tryPop => Batch.fifo n q .tryPop

/-- What a call returns that returns true. -/
def Event.accepted : Event T → Option (Batch.Result T)
  | .pushDone _ => some (.pushed true)
  | .popDone _ item => some (.popped (some item))
  | _ => none

/-- The call a thread is in. -/
def PC.op : PC T → Option (Op T)
  | .idle => none
  | .push item _ => some (.tryPush item)
  | .pop _ => some .tryPop

/-- What a step commits, where `Q` are the items by their tickets. -/
def Event.commits (Q : List T) : Event T → Option (Batch.Result T)
  | .pushWin _ _ => some (.pushed true)
  | .popWin ticket => Q[ticket]?.map fun item => .popped (some item)
  | _ => none

/-- What a thread that has committed is going to return. -/
def PC.owes (Q : List T) : PC T → Option (Batch.Result T)
  | .push _ (.copy _) => some (.pushed true)
  | .push _ (.publish _) => some (.pushed true)
  | .pop (.move ticket) => Q[ticket]?.map fun item => .popped (some item)
  | .pop (.publish _ item) => some (.popped (some item))
  | _ => none

/-- The items between two counters. -/
def between (Q : List T) (tail head : ℕ) : List T := (Q.take head).drop tail

section Between

variable {Q : List T} {tail head n : ℕ} {x : T}

theorem length_between (h : head ≤ Q.length) : (between Q tail head).length = head - tail := by
  rw [between, List.length_drop, List.length_take, Nat.min_eq_left h]

theorem between_push (h : tail ≤ head) (hx : Q[head]? = some x) :
    between Q tail (head + 1) = between Q tail head ++ [x] := by
  obtain ⟨hlt, rfl⟩ := List.getElem?_eq_some_iff.mp hx
  rw [between, List.take_succ_eq_append_getElem hlt, List.drop_append_of_le_length, between]
  rw [List.length_take]
  omega

theorem between_pop (h : tail < head) (hx : Q[tail]? = some x) :
    between Q tail head = x :: between Q (tail + 1) head := by
  have hget : (Q.take head)[tail]? = some x := by
    rw [List.getElem?_take_of_lt h]
    exact hx
  obtain ⟨hlt, rfl⟩ := List.getElem?_eq_some_iff.mp hget
  exact List.drop_eq_getElem_cons hlt

theorem queue_push (h : tail ≤ head) (hlt : head < tail + n) (hx : Q[head]? = some x) :
    queue n (between Q tail head) (.tryPush x)
      = (between Q tail (head + 1), .pushed true) := by
  have hlen : (between Q tail head).length < n := by
    rw [length_between (Nat.le_of_lt (List.getElem?_eq_some_iff.mp hx).1)]
    omega
  rw [between_push h hx]
  exact if_pos hlen

theorem queue_pop (h : tail < head) (hx : Q[tail]? = some x) :
    queue n (between Q tail head) .tryPop
      = (between Q (tail + 1) head, .popped (some x)) := by
  rw [between_pop h hx]
  rfl

end Between

/-! ## The commit points -/

section Step

variable {Z : AdmittedSize} {moved : T → T} {m m' : Mem T} {pc pc' : PC T}
  {ev : Option (Event T)} {Q : List T}

theorem PC.op_eq_none {pc : PC T} : pc.op = none ↔ pc = .idle := by
  cases pc <;> simp [PC.op]

theorem Effect.op (he : Effect Z moved m pc m' pc' ev) {op : Op T} (h : pc'.op = some op) :
    pc.op = some op ∨ pc = .idle := by
  cases he with
  | start op' => exact Or.inr rfl
  | pushFull | pushDone | popEmpty | popDone => cases h
  | _ => exact Or.inl h

theorem makesCalls (Z : AdmittedSize) (moved : T → T) (ι : Type*) (buffer : ℕ → T) :
    (system Z moved ι buffer).MakesCalls PC.op where
  init := fun _ => rfl
  step := fun {m pc ch op} h => by
    have he : Effect Z moved m pc _ _ _ := prog_effect m pc ch
    rcases he.op h with hold | rfl
    · exact Or.inl hold
    · cases ch with
      | call op' =>
          cases op' <;> cases h <;> exact Or.inr ⟨rfl, rfl⟩
      | go => cases h
      | fault => cases h

/-- What the thread owes after a step that does not return. -/
theorem Effect.owes (he : Effect Z moved m pc m' pc' ev)
    (hmove : ∀ t, pc.moving = some t → Q[t]? = some (m.buffer (Z.index t)))
    (hpc' : pc' ≠ .idle) :
    pc'.owes Q = (ev.bind (Event.commits Q)).or (pc.owes Q) := by
  cases he with
  | stay => exact (Option.none_or).symm
  | start op => cases op <;> rfl
  | pushFull | pushDone | popEmpty | popDone => exact absurd rfl hpc'
  | popWin => exact (Option.or_none).symm
  | popMove tail => simp [PC.owes, hmove tail rfl]
  | _ => rfl

/-- A call that returns answers what it owes. -/
theorem Effect.accepted {e : Event T} (he : Effect Z moved m pc m' pc' (some e))
    (hpc' : pc' = .idle) : e.accepted = (e.commits Q).or (pc.owes Q) := by
  cases he with
  | pushWin | popWin => cases hpc'
  | _ => rfl

/-- A step that commits makes the operation of its call. -/
theorem Effect.commits {n : ℕ} {r : Batch.Result T} (he : Effect Z moved m pc m' pc' ev)
    (hle : m.tail ≤ m.head) (hle' : m'.tail ≤ m'.head ∧ m'.head ≤ m'.tail + n)
    (hsmall : m.head < 2 ^ 63)
    (hpush : ∀ t x, ev = some (.pushWin t x) → Q[t]? = some x)
    (hr : ev.bind (Event.commits Q) = some r) :
    pc.owes Q = none ∧ ∃ op, pc.op = some op
      ∧ queue n (between Q m.tail m.head) op = (between Q m'.tail m'.head, r) := by
  cases he with
  | pushWin item =>
      have hwrap : wrap 64 (m.head + 1) = m.head + 1 := wrap_of_lt (by omega)
      simp only [hwrap] at hle' ⊢
      cases hr
      exact ⟨rfl, _, rfl, queue_push hle (by omega) (hpush _ _ rfl)⟩
  | popWin =>
      have hwrap : wrap 64 (m.tail + 1) = m.tail + 1 := wrap_of_lt (by omega)
      simp only [hwrap] at hle' ⊢
      obtain ⟨x, hx, rfl⟩ := Option.map_eq_some_iff.mp hr
      exact ⟨rfl, _, rfl, queue_pop (by omega) hx⟩
  | start op => cases hr
  | _ => cases hr

/-- A step that commits nothing leaves the counters as they are. -/
theorem Effect.silent (he : Effect Z moved m pc m' pc' ev) (hle : m.tail ≤ m.head)
    (hle' : m'.tail ≤ m'.head) (hsmall : m.head < 2 ^ 63) (hlen : m.head ≤ Q.length)
    (hnone : ev.bind (Event.commits Q) = none) : m'.head = m.head ∧ m'.tail = m.tail := by
  cases he with
  | pushWin item => cases hnone
  | popWin =>
      have hwrap : wrap 64 (m.tail + 1) = m.tail + 1 := wrap_of_lt (by omega)
      simp only [hwrap] at hle'
      have hlt : m.tail < Q.length := by omega
      rw [Option.bind_some, Event.commits, List.getElem?_eq_getElem hlt] at hnone
      cases hnone
  | _ => exact ⟨rfl, rfl⟩

end Step

/-! ## Runs -/

section Run

variable [DecidableEq ι] {Z : PowSize} {moved : T → T} {buffer : ℕ → T}
  {sched : ℕ → ι × Choice (Op T)} {n t : ℕ}

/-- The items that have a ticket by then are the first of those that get one. -/
theorem prefix_pushed (ht : t ≤ n) : pushed ((system Z moved ι buffer).history sched t)
    <+: pushed ((system Z moved ι buffer).history sched n) := by
  obtain ⟨L, hL⟩ := (system Z moved ι buffer).history_mono sched ht
  rw [← hL, pushed_append]
  exact List.prefix_append _ _

/-- The commit points of a run. -/
theorem commitPoints
    (hn : (pushed ((system Z moved ι buffer).history sched n)).length < 2 ^ 63) :
    let S := system Z.toAdmittedSize moved ι buffer
    let Q := pushed (S.history sched n)
    S.CommitPoints PC.op Event.accepted (queue Z.size) [] sched n
      (fun t => (S.outcome (S.run sched t) (sched t)).event.bind (Event.commits Q))
      (fun t p => ((S.run sched t).pc p).owes Q)
      (fun t => between Q (S.run sched t).mem.tail (S.run sched t).mem.head) := by
  intro S Q
  have hinv : ∀ t, t ≤ n → Inv Z (S.run sched t) (S.history sched t) :=
    fun t ht => inv_run (pushes_lt ht hn)
  have hhead : ∀ t, t ≤ n → (S.run sched t).mem.head ≤ Q.length := by
    intro t ht
    rw [← (hinv t ht).pushes]
    exact (prefix_pushed ht).length_le
  have he : ∀ t, Effect Z.toAdmittedSize moved (S.run sched t).mem
      ((S.run sched t).pc (sched t).1) (S.run sched (t + 1)).mem
      ((S.run sched (t + 1)).pc (sched t).1) (S.outcome (S.run sched t) (sched t)).event := by
    intro t
    rw [System.run_succ, System.next_pc_self]
    exact prog_effect _ _ _
  refine ⟨fun p => rfl, rfl, fun t ht q hq => ?_, fun t ht hfree => ?_, fun t ht hbusy => ?_,
    fun t ht hnone => ?_, fun t ht r hr => ?_, fun t ht e hfires hbusy hfree => ?_⟩
  · simp only [System.run_succ, System.next_pc_ne _ _ hq]
  · rw [PC.op_eq_none] at hfree
    simp only [hfree]
    rfl
  · refine (he t).owes (fun u hu => ?_) fun hidle => hbusy (by rw [hidle]; rfl)
    have hget := (fifo_run (pushes_lt ht.le hn)).1.move hu
    obtain ⟨L, hL⟩ : pushed (S.history sched t) <+: Q := prefix_pushed ht.le
    rw [← hL, List.getElem?_append_left (List.getElem?_eq_some_iff.mp hget).1]
    exact hget
  · obtain ⟨hh, htl⟩ := (he t).silent (hinv t ht.le).tickets.tail_le
      (hinv (t + 1) ht).tickets.tail_le (Nat.lt_of_le_of_lt (hhead t ht.le) hn) (hhead t ht.le)
      hnone
    simp only [hh, htl]
  · refine (he t).commits (hinv t ht.le).tickets.tail_le
      ⟨(hinv (t + 1) ht).tickets.tail_le, (hinv (t + 1) ht).tickets.head_le⟩
      (Nat.lt_of_le_of_lt (hhead t ht.le) hn) (fun u x hu => ?_) hr
    exact pushed_of_pushWin hn ht ⟨rfl, hu⟩
  · have hret := he t
    rw [hfires.2] at hret ⊢
    exact hret.accepted (PC.op_eq_none.mp hfree)

end Run

/-- **The ring buffer is linearizable, refusals apart.** In every run with fewer than `2 ^ 63`
pushes the calls that return true, and perhaps some of those in flight, can be put in an order
in which they answer as those of a queue of `Size` items, and in which no call stands before
one that had returned when it was made. -/
theorem ring_linearizable [DecidableEq ι] (Z : PowSize) (moved : T → T) (buffer : ℕ → T)
    (sched : ℕ → ι × Choice (Op T)) (n : ℕ)
    (hn : (pushed ((system Z moved ι buffer).history sched n)).length < 2 ^ 63) :
    (system Z.toAdmittedSize moved ι buffer).Linearizable PC.op Event.accepted (queue Z.size) []
      sched n :=
  (commitPoints hn).linearizable (makesCalls _ _ _ _)

theorem ring_linearizable_pushPushPop :
    (system twoCells.toAdmittedSize id Bool fun _ => (0 : ℕ)).Linearizable PC.op Event.accepted
      (queue twoCells.size) [] pushPushPop 20 :=
  ring_linearizable twoCells id (fun _ => 0) pushPushPop 20 (by decide +kernel)

end Ring

end Lockless
