import Lockless.RingQuiet
import Lockless.ValidatorScoped

/-!
# The verdict on the ring buffer

`test_concurrent_operations` records the calls several threads make of a ring buffer,
joins the threads, and asks `check_sequential_consistency` for its verdict. Nothing
depends on it: the test notes that it may fail.

If records are appended in the order of their ids, it can fail for the clock only. The
records are then those of the calls, the values pushed and popped in them are those of the
ring's own history, and what has been popped there has been pushed. A run has no more
pushes than records, so that a history short enough for the counters of the validator is
short enough for the tickets of the ring.

If they are not, a right run of the ring may be rejected: `swappedRecords` is one.
-/

namespace Lockless

namespace Ring

variable {ι T : Type*} [DecidableEq ι]

/-! ## Tickets taken and returned -/

/-- The call takes a ticket. -/
def Event.asTaken : Event T → Option Unit
  | .pushWin _ _ => some ()
  | _ => none

/-- The call returns true for its ticket. -/
def Event.asReturned : Event T → Option Unit
  | .pushDone _ => some ()
  | _ => none

theorem Effect.taken {Z : AdmittedSize} {moved : T → T} {m m' : Mem T} {pc pc' : PC T}
    {ev : Option (Event T)} (he : Effect Z moved m pc m' pc' ev) :
    (pc.producing.map fun _ => ()).toList ++ (ev.bind Event.asTaken).toList
      = (ev.bind Event.asReturned).toList ++ (pc'.producing.map fun _ => ()).toList := by
  cases he with
  | start op => cases op <;> rfl
  | stay => exact List.append_nil _
  | _ => rfl

/-- A thread has returned from the pushes it has taken tickets for, but for one. -/
theorem taken_eq (Z : AdmittedSize) (moved : T → T) (buffer : ℕ → T)
    (sched : ℕ → ι × Choice (Op T)) (n : ℕ) (p : ι) :
    (ofThread p ((system Z moved ι buffer).history sched n)).filterMap (fun e => e.2.asTaken)
      = (ofThread p ((system Z moved ι buffer).history sched n)).filterMap
          (fun e => e.2.asReturned)
        ++ ((((system Z moved ι buffer).run sched n).pc p).producing.map fun _ => ()).toList := by
  induction n with
  | zero => rfl
  | succ n ih =>
      rw [System.run_succ, System.history_succ, ofThread_append, List.filterMap_append,
        List.filterMap_append, System.emitted, filterMap_ofThread_step Event.asTaken,
        filterMap_ofThread_step Event.asReturned, ih]
      by_cases hp : p = (sched n).1
      · subst hp
        rw [if_pos rfl, if_pos rfl, System.next_pc_self, List.append_assoc, List.append_assoc]
        exact congrArg _ (prog_effect _ _ _).taken
      · rw [if_neg (Ne.symm hp), if_neg (Ne.symm hp), System.next_pc_ne _ _ hp,
          List.append_nil, List.append_nil]

/-- When no call is in flight, as many pushes have returned true as have taken a ticket. -/
theorem length_pushed_of_idle {Z : AdmittedSize} {moved : T → T} {buffer : ℕ → T}
    {sched : ℕ → ι × Choice (Op T)} {n : ℕ}
    (hidle : ∀ p, ((system Z moved ι buffer).run sched n).pc p = .idle) :
    (pushed ((system Z moved ι buffer).history sched n)).length
      = (((system Z moved ι buffer).history sched n).filterMap fun e => e.2.asReturned).length := by
  have hperm : (((system Z moved ι buffer).history sched n).filterMap fun e => e.2.asTaken).Perm
      (((system Z moved ι buffer).history sched n).filterMap fun e => e.2.asReturned) := by
    refine perm_of_ofThread fun p => ?_
    have hp := taken_eq Z moved buffer sched n p
    rw [hidle p] at hp
    exact hp.trans (List.append_nil _)
  rw [← hperm.length_eq, ← List.length_map fun _ => (), pushed, List.map_filterMap]
  refine congrArg List.length (List.filterMap_congr fun e _ => ?_)
  obtain ⟨p, e⟩ := e
  cases e <;> rfl

end Ring

namespace Validator

namespace Scoped

variable {ι T : Type*}

/-! ## What a step of the ring is recorded as -/

/-- The result of a successful call of a type, as `set_result` gets it. -/
def Container.valueOf {μ π κ ε : Type*} (K : Container μ π κ ε) (type : OperationType)
    (e : Event κ) : Option ℤ :=
  (K.asRecord e).bind fun op => if op.success = true ∧ op.type = type then some op.value else none

theorem Container.values_records {μ π κ ε : Type*} (K : Container μ π κ ε)
    (type : OperationType) (H : List (ι × Event κ)) :
    values type (K.records H) = H.filterMap fun e => K.valueOf type e.2 := by
  rw [values, Container.records, List.filterMap_filterMap]
  rfl

section Ring

variable {Z : AdmittedSize} {moved : T → T} {value : T → ℤ}

/-- How a step of the ring is recorded: as a push when it publishes the item of the call, as
a pop when it delivers one, and otherwise as neither. -/
inductive Reads (moved : T → T) (value : T → ℤ) (Z : AdmittedSize) (pc : Ring.PC T)
    (ev : Option (Ring.Event T)) (e : Option (Event (Ring.Op T))) : Prop
  | pushed (t item) (hpc : pc.publishing = some (t, item)) (hev : ev = some (.pushDone t))
      (hpush : e.bind ((ring Z moved value).valueOf .push) = some (value item))
      (hpop : e.bind ((ring Z moved value).valueOf .pop) = none)
  | popped (t item) (hev : ev = some (.popDone t item))
      (hpush : e.bind ((ring Z moved value).valueOf .push) = none)
      (hpop : e.bind ((ring Z moved value).valueOf .pop) = some (value item))
  | neither (hpushed : ev.bind Ring.Event.asPushDone = none)
      (hpopped : ev.bind Ring.Event.asPopDone = none)
      (hpush : e.bind ((ring Z moved value).valueOf .push) = none)
      (hpop : e.bind ((ring Z moved value).valueOf .pop) = none)

namespace Reads

variable {pc : Ring.PC T} {ev : Option (Ring.Event T)} {e : Option (Event (Ring.Op T))}

theorem push_eq (h : Reads moved value Z pc ev e) {f : ℕ → Option ℤ}
    (hf : ∀ t item, pc.publishing = some (t, item) → f t = some (value item)) :
    e.bind ((ring Z moved value).valueOf .push) = ev.bind fun x => x.asPushDone.bind f := by
  cases h with
  | pushed t item hpc hev hpush hpop =>
      rw [hpush, hev]
      exact (hf t item hpc).symm
  | popped t item hev hpush hpop =>
      rw [hpush, hev]
      rfl
  | neither hpushed hpopped hpush hpop =>
      rw [hpush]
      cases ev with
      | none => rfl
      | some x => exact (congrArg (Option.bind · f) hpushed).symm

theorem pop_eq (h : Reads moved value Z pc ev e) :
    e.bind ((ring Z moved value).valueOf .pop)
      = ev.bind fun x => x.asPopDone.map fun y => value y.2 := by
  cases h with
  | pushed t item hpc hev hpush hpop =>
      rw [hpop, hev]
      rfl
  | popped t item hev hpush hpop =>
      rw [hpop, hev]
      rfl
  | neither hpushed hpopped hpush hpop =>
      rw [hpop]
      cases ev with
      | none => rfl
      | some x => exact (congrArg (Option.map fun y => value y.2) hpopped).symm

theorem returned_eq (h : Reads moved value Z pc ev e) :
    (e.bind fun x => ((ring Z moved value).valueOf .push x).map fun _ => ())
      = ev.bind Ring.Event.asReturned := by
  have hmap : (e.bind fun x => ((ring Z moved value).valueOf .push x).map fun _ => ())
      = (e.bind ((ring Z moved value).valueOf .push)).map fun _ => () := by
    cases e <;> rfl
  rw [hmap]
  cases h with
  | pushed t item hpc hev hpush hpop =>
      rw [hpush, hev]
      rfl
  | popped t item hev hpush hpop =>
      rw [hpush, hev]
      rfl
  | neither hpushed hpopped hpush hpop =>
      rw [hpush]
      cases ev with
      | none => rfl
      | some x => cases x <;> first | rfl | cases hpushed

end Reads

theorem reads_called {s : Call (Ring.Op T)} {opId : ℕ} {m : Mem (Ring.Mem T)}
    {pc : Ring.PC T} {o : Outcome (Ring.Mem T) (Ring.PC T) (Ring.Event T)}
    (hs : s.attached = true) (hin : ringWithin s.op pc)
    (he : Ring.Effect Z moved m.container pc o.mem o.pc o.event) :
    Reads moved value Z pc o.event ((ring Z moved value).called s opId m o).event := by
  obtain ⟨op, attached, threadId, startTime, endTime⟩ := s
  obtain ⟨m', pc', ev⟩ := o
  obtain rfl : attached = true := hs
  dsimp only at he
  cases op with
  | tryPush item =>
      obtain ⟨ppc, rfl⟩ := hin
      cases he with
      | pushDone item head => exact .pushed head item rfl rfl rfl rfl
      | _ => exact .neither rfl rfl rfl rfl
  | tryPop =>
      obtain ⟨ppc, rfl⟩ := hin
      cases he with
      | popDone t item => exact .popped t item rfl rfl rfl
      | _ => exact .neither rfl rfl rfl rfl

theorem reads_step {m : Mem (Ring.Mem T)} {pc : PC (Ring.PC T) (Ring.Op T)}
    (ch : Choice (Call (Ring.Op T))) (hlocal : (ring Z moved value).Local pc)
    (hattached : ∀ s, Container.scope pc = some s → s.attached = true) :
    Reads moved value Z ((ring Z moved value).calling pc)
      (Ring.prog Z moved m.container ((ring Z moved value).calling pc)
        (Container.containerChoice pc ch)).event
      ((ring Z moved value).step m pc ch).event := by
  cases pc with
  | idle =>
      cases ch with
      | call s =>
          simp only [Container.step]
          split_ifs <;> exact .neither rfl rfl rfl rfl
      | _ => exact .neither rfl rfl rfl rfl
  | construct s v =>
      simp only [Container.step, Container.constructed]
      split <;> exact .neither rfl rfl rfl rfl
  | enter s opId => exact .neither rfl rfl rfl rfl
  | body s opId pc =>
      exact reads_called (hattached s rfl) hlocal.2 (Ring.prog_effect _ _ _)
  | leave s opId success result =>
      simp only [Container.step]
      split_ifs <;> exact .neither rfl rfl rfl rfl
  | destruct s opId success result v =>
      simp only [Container.step, Container.destructed]
      split <;> exact .neither rfl rfl rfl rfl

end Ring

/-! ## Runs -/

section Run

variable [DecidableEq ι] (Z : PowSize) (moved : T → T) (value : T → ℤ) (buffer : ℕ → T)
  (sched : ℕ → ι × Choice (Call (Ring.Op T)))

/-- Threads that make recorded calls of a new ring buffer. -/
abbrev recordedRing (ι : Type*) :
    System ι (Mem (Ring.Mem T)) (PC (Ring.PC T) (Ring.Op T)) (Choice (Call (Ring.Op T)))
      (Event (Ring.Op T)) :=
  (ring Z.toAdmittedSize moved value).system ι (Ring.initMem buffer)

/-- The schedule a run drives the ring with. -/
abbrev ringSched : ℕ → ι × Choice (Ring.Op T) :=
  (ring Z.toAdmittedSize moved value).containerSched (Ring.initMem buffer) sched

/-- The history of the ring in a run of recorded calls. -/
abbrev ringHistory (n : ℕ) : List (ι × Ring.Event T) :=
  (Ring.system Z moved ι buffer).history (ringSched Z moved value buffer sched) n

theorem run_ring (n : ℕ) :
    System.project Mem.container (ring Z.toAdmittedSize moved value).calling
        ((recordedRing Z moved value buffer ι).run sched n)
      = (Ring.system Z moved ι buffer).run (ringSched Z moved value buffer sched) n :=
  Container.run_container _ _ _ n

/-- What is read alike at every step of the ring and of its recorded calls is the same but
for the order of the threads. -/
theorem filterMap_perm {α : Type*} {n : ℕ} (f : Event (Ring.Op T) → Option α)
    (g : Ring.Event T → Option α)
    (h : ∀ i, i < n → ((recordedRing Z moved value buffer ι).outcome
        ((recordedRing Z moved value buffer ι).run sched i) (sched i)).event.bind f
      = ((Ring.system Z moved ι buffer).outcome ((Ring.system Z moved ι buffer).run
        (ringSched Z moved value buffer sched) i)
        (ringSched Z moved value buffer sched i)).event.bind g) :
    (((recordedRing Z moved value buffer ι).history sched n).filterMap fun e => f e.2).Perm
      ((ringHistory Z moved value buffer sched n).filterMap fun e => g e.2) := by
  apply System.filterMap_history_perm
  · exact fun _ _ => rfl
  · exact h

variable {Z moved value buffer sched} {n : ℕ}

theorem ring_idle (hidle : ∀ p, ((recordedRing Z moved value buffer ι).run sched n).pc p = .idle)
    (p : ι) :
    ((Ring.system Z moved ι buffer).run (ringSched Z moved value buffer sched) n).pc p
      = .idle := by
  rw [← run_ring]
  exact congrArg (ring Z.toAdmittedSize moved value).calling (hidle p)

section Session

variable (hn : ∀ i, i < n → (ring Z.toAdmittedSize moved value).RecordsInOrder
    ((recordedRing Z moved value buffer ι).run sched i) (sched i))
  (hattached : ∀ i, i < n → Attached (sched i).2)
include hn hattached

theorem reads_run {i : ℕ} (hi : i < n) :
    Reads moved value Z.toAdmittedSize
      (((Ring.system Z moved ι buffer).run (ringSched Z moved value buffer sched) i).pc
        (sched i).1)
      ((Ring.system Z moved ι buffer).outcome ((Ring.system Z moved ι buffer).run
        (ringSched Z moved value buffer sched) i)
        (ringSched Z moved value buffer sched i)).event
      ((recordedRing Z moved value buffer ι).outcome
        ((recordedRing Z moved value buffer ι).run sched i) (sched i)).event := by
  rw [← run_ring]
  have hkept := Container.kept_run fun j hj => hn j (Nat.lt_trans hj hi)
  exact reads_step (sched i).2 (hkept.inCall _)
    (Container.attached_run (fun j hj => hattached j (Nat.lt_trans hj hi)) _)

/-- When no call is in flight, every ticket a push has taken is recorded. -/
theorem pushes_le
    (hidle : ∀ p, ((recordedRing Z moved value buffer ι).run sched n).pc p = .idle) :
    (Ring.pushed (ringHistory Z moved value buffer sched n)).length
      ≤ ((ring Z.toAdmittedSize moved value).records
        ((recordedRing Z moved value buffer ι).history sched n)).length := by
  have hperm := filterMap_perm Z moved value buffer sched (n := n)
    (fun e => ((ring Z.toAdmittedSize moved value).valueOf .push e).map fun _ => ())
    Ring.Event.asReturned fun i hi => ?_
  · rw [Ring.length_pushed_of_idle (ring_idle hidle), ← hperm.length_eq, ← List.map_filterMap,
      List.length_map, ← Container.values_records, values]
    exact List.length_filterMap_le _ _
  · exact (reads_run hn hattached hi).returned_eq

section Idle

variable (hidle : ∀ p, ((recordedRing Z moved value buffer ι).run sched n).pc p = .idle)
  (hlen : (Ring.pushed (ringHistory Z moved value buffer sched n)).length < 2 ^ 63)
include hidle hlen

/-- The values recorded as pushed are the items of the tickets. -/
theorem pushed_records_perm :
    (pushed ((ring Z.toAdmittedSize moved value).records
        ((recordedRing Z moved value buffer ι).history sched n))).Perm
      ((Ring.pushed (ringHistory Z moved value buffer sched n)).map value) := by
  have hperm := filterMap_perm Z moved value buffer sched (n := n)
    ((ring Z.toAdmittedSize moved value).valueOf .push) (fun e => e.asPushDone.bind fun t =>
      ((Ring.pushed (ringHistory Z moved value buffer sched n))[t]?).map value) fun i hi => ?_
  · rw [pushed, Container.values_records]
    refine hperm.trans ?_
    have hpublished := ((Ring.published_perm hlen (ring_idle hidle)).filterMap
      ((Ring.pushed (ringHistory Z moved value buffer sched n))[·]?)).map value
    rw [filterMap_getElem?_range, List.take_length, List.map_filterMap, Ring.published,
      List.filterMap_filterMap] at hpublished
    exact hpublished
  · refine (reads_run hn hattached hi).push_eq fun t item hpc => ?_
    -- the item of the ticket is among those pushed up to then, and stays there
    have hlt := Ring.pushes_lt (Nat.le_of_lt hi) hlen
    obtain ⟨L, hL⟩ := System.history_mono _ (ringSched Z moved value buffer sched)
      (Nat.le_of_lt hi)
    have hitem := Ring.pushed_mono (K := L) ((Ring.pushes_run hlt).item hpc)
    rw [hL] at hitem
    rw [hitem, Option.map_some]

/-- Those recorded as popped are the items delivered. -/
theorem popped_records_perm :
    (popped ((ring Z.toAdmittedSize moved value).records
        ((recordedRing Z moved value buffer ι).history sched n))).Perm
      (((Ring.pushed (ringHistory Z moved value buffer sched n)).take
        ((Ring.system Z moved ι buffer).run (ringSched Z moved value buffer sched) n).mem.tail).map
          value) := by
  have hperm := filterMap_perm Z moved value buffer sched (n := n)
    ((ring Z.toAdmittedSize moved value).valueOf .pop)
    (fun e => e.asPopDone.map fun x => value x.2) fun i hi => ?_
  · rw [popped, Container.values_records]
    refine hperm.trans ?_
    have hdelivered := (Ring.delivered_perm hlen (ring_idle hidle)).map value
    rw [Ring.delivered, List.map_filterMap, List.map_filterMap] at hdelivered
    refine (List.Perm.of_eq (List.filterMap_congr fun e _ => ?_)).trans hdelivered
    cases e.2.asPopDone <;> rfl
  · exact (reads_run hn hattached hi).pop_eq

end Idle

end Session

end Run

/-- If what is popped has been pushed, a short history is rejected for the clock only. -/
theorem check_iff_of_subperm (std : SortByEnd) {ops : List Operation}
    (h : (popped ops).Subperm (pushed ops)) (hlen : ops.length < 2 ^ 31) :
    (checkSequentialConsistency std ops).1 = true ↔ ∀ op ∈ ops, op.startTime ≤ op.endTime := by
  rw [check_iff]
  refine and_iff_left fun v => Or.inr ?_
  have hle := h.count_le v
  rw [pushed, popped, count_values, count_values] at hle
  rw [signed_successes hlen]
  exact Int.ofNat_le.mpr hle

/-- **The verdict on the ring buffer.** Any number of threads call `try_push` and `try_pop`, each
call in a `ScopedOperation` attached to the validator. When no call is in flight,
`check_sequential_consistency` returns true if and only if no operation has ended before it
has started, provided that records have been appended in the order of their ids and that
there are fewer than `2 ^ 31`. -/
theorem ring_verdict [DecidableEq ι] (Z : PowSize) (moved : T → T) (value : T → ℤ)
    (buffer : ℕ → T) (std : SortByEnd) (sched : ℕ → ι × Choice (Call (Ring.Op T))) (n : ℕ)
    (hn : ∀ i, i < n → (ring Z.toAdmittedSize moved value).RecordsInOrder
      ((recordedRing Z moved value buffer ι).run sched i) (sched i))
    (hattached : ∀ i, i < n → Attached (sched i).2)
    (hidle : ∀ p, ((recordedRing Z moved value buffer ι).run sched n).pc p = .idle)
    (hlen : ((recordedRing Z moved value buffer ι).run sched n).mem.validator.operations.length
      < 2 ^ 31) :
    (checkSequentialConsistency std
        ((recordedRing Z moved value buffer ι).run sched n).mem.validator.operations).1 = true
      ↔ ∀ op ∈ ((recordedRing Z moved value buffer ι).run sched n).mem.validator.operations,
        op.startTime ≤ op.endTime := by
  have hops := Container.operations_perm_records hn hidle
  refine check_iff_of_subperm std ?_ hlen
  have hpushes := pushes_le hn hattached hidle
  rw [← hops.length_eq] at hpushes
  have hlt : (Ring.pushed (ringHistory Z moved value buffer sched n)).length < 2 ^ 63 :=
    Nat.lt_trans (Nat.lt_of_le_of_lt hpushes hlen) (by norm_num)
  have hpopped := (hops.filterMap _).trans (popped_records_perm hn hattached hidle hlt)
  have hpushed := (hops.filterMap _).trans (pushed_records_perm hn hattached hidle hlt)
  have htake := ((List.take_sublist ((Ring.system Z moved ι buffer).run
    (ringSched Z moved value buffer sched) n).mem.tail (Ring.pushed
      (ringHistory Z moved value buffer sched n))).map value).subperm
  exact hpopped.subperm.trans (htake.trans hpushed.symm.subperm)

theorem ring_verdict_recordedCalls :
    (checkSequentialConsistency .stable
      ((recordedRing Ring.twoCells id (fun x : ℕ => (x : ℤ)) (fun _ => 0) Bool).run
        Container.recordedCalls 27).mem.validator.operations).1 = true :=
  (ring_verdict Ring.twoCells id (fun x : ℕ => (x : ℤ)) (fun _ => 0) .stable
    Container.recordedCalls 27 (by decide +kernel) (by decide +kernel) (by decide +kernel)
    (by decide +kernel)).mpr (by decide +kernel)

/-- A pop gets the first id and a push the second one, whose record is appended first. Then
the pop finds the ring empty, and after it the push is made. -/
def swappedRecordsSteps : List (Bool × Choice (Call (Ring.Op ℕ))) :=
  List.flatten [[(false, .call ⟨.tryPop, true, 0, 1, 3⟩), (false, .go), (false, .go),
      (true, .call ⟨.tryPush 7, true, 1, 2, 4⟩)],
    List.replicate 3 (true, .go), List.replicate 7 (false, .go), List.replicate 9 (true, .go)]

def swappedRecords : ℕ → Bool × Choice (Call (Ring.Op ℕ)) :=
  fun i => swappedRecordsSteps.getD i (false, .go)

/-- The result of the push ends up in the record of the pop, and the run is rejected. -/
example :
    let c := (recordedRing Ring.twoCells id (fun x : ℕ => (x : ℤ)) (fun _ => 0) Bool).run
      swappedRecords 23
    (∀ p, c.pc p = .idle) ∧ (∀ i, i < 23 → Attached (swappedRecords i).2)
      ∧ c.mem.validator.operations
        = [⟨.push, 1, 2, 3, 0, false⟩, ⟨.pop, 0, 1, 4, 7, true⟩]
      ∧ checkSequentialConsistency .stable c.mem.validator.operations
        = (false, ["Violation: popped value 7 was never pushed"]) := by
  decide +kernel

end Scoped

end Validator

end Lockless
