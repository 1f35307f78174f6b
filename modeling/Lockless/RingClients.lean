import Lockless.LockFreedom
import Lockless.RingQuiet

/-!
# Clients of the ring buffer

The tests, the examples and the benchmarks call the ring buffer in loops:
`while (!buffer.try_push(value)) std::this_thread::yield();` and likewise for `try_pop`. A
thread then has a list of calls to make, and makes each of them again until it returns
true.

Such a loop may go on for ever: a call is made in vain if the ring is full or empty, and it
may be thrown back by other threads again and again. The second does not happen in a fair
run. A call is thrown back only by the tickets others claim, and each ticket that is claimed
brings a thread nearer to the end of its list, so from some tick on no ticket is claimed any
more. From there on every thread that has not got to the end of its list is refused, and a
refusal without a ticket in flight means that the ring is full or empty. So either all
threads come to their ends, or the rest of them wait together, all to push into a full ring
or all to pop from an empty one.

This does not happen to producers and consumers whose numbers of items agree, and not to
workers each of which pops after it has pushed.
-/

namespace Lockless

namespace Ring

namespace Clients

variable {ι T : Type*}

/-! ## The loops -/

/-- A thread with the calls it is to make until they return true, the present one first, and
its position in that one. -/
structure PC (T : Type*) where
  tasks : List (Op T)
  queue : Ring.PC T

/-- The calls that return true. -/
def succeeded : Event T → Bool
  | .pushDone _ => true
  | .popDone _ _ => true
  | _ => false

section Program

variable (Z : AdmittedSize) (moved : T → T)

/-- The loop around a call goes on from a step of it. -/
def retry (op : Op T) (rest : List (Op T)) (o : Outcome (Mem T) (Ring.PC T) (Event T)) :
    Outcome (Mem T) (PC T) (Event T) :=
  ⟨o.mem, ⟨if o.event.any succeeded then rest else op :: rest, o.pc⟩, o.event⟩

/-- One step of one thread: it starts the call that is next, or makes a step of it. -/
def prog (m : Mem T) : PC T → Choice Empty → Outcome (Mem T) (PC T) (Event T)
  | ⟨[], rpc⟩, _ => ⟨m, ⟨[], rpc⟩, none⟩
  | ⟨op :: rest, .idle⟩, _ => ⟨m, ⟨op :: rest, start op⟩, none⟩
  | ⟨op :: rest, rpc⟩, ch => retry op rest (Ring.prog Z moved m rpc ch.access)

def system (scripts : ι → List (Op T)) (buffer : ℕ → T) :
    System ι (Mem T) (PC T) (Choice Empty) (Event T) where
  init := ⟨initMem buffer, fun p => ⟨scripts p, .idle⟩⟩
  prog := prog Z moved

/-- What a step asks of the ring. -/
def queueChoice : PC T → Choice Empty → Choice (Op T)
  | ⟨[], rpc⟩, _ => Ring.rest rpc
  | ⟨op :: _, .idle⟩, _ => .call op
  | _, ch => ch.access

theorem prog_queue (m : Mem T) (pc : PC T) (ch : Choice Empty) :
    Ring.prog Z moved m pc.queue (queueChoice pc ch)
      = ⟨(prog Z moved m pc ch).mem, (prog Z moved m pc ch).pc.queue,
        (prog Z moved m pc ch).event⟩ := by
  obtain ⟨tasks, rpc⟩ := pc
  cases tasks with
  | nil => exact Ring.prog_rest Z moved m rpc
  | cons op rest => cases rpc <;> rfl

end Program

/-! ## Lists of calls -/

def item : Op T → Option T
  | .tryPush item => some item
  | .tryPop => none

def isPop : Op T → Bool
  | .tryPush _ => false
  | .tryPop => true

/-- The items a list of calls puts into the ring. -/
def items (tasks : List (Op T)) : List T := tasks.filterMap item

/-- The number of items it takes out of it. -/
def pops (tasks : List (Op T)) : ℕ := tasks.countP isPop

@[simp] theorem items_append (l l' : List (Op T)) : items (l ++ l') = items l ++ items l' :=
  List.filterMap_append

@[simp] theorem pops_append (l l' : List (Op T)) : pops (l ++ l') = pops l + pops l' :=
  List.countP_append

@[simp] theorem items_push (x : T) (l : List (Op T)) : items (.tryPush x :: l) = x :: items l :=
  rfl

@[simp] theorem items_pop (l : List (Op T)) : items (.tryPop :: l) = items l := rfl

@[simp] theorem pops_push (x : T) (l : List (Op T)) : pops (.tryPush x :: l) = pops l :=
  List.countP_cons_of_neg Bool.false_ne_true

@[simp] theorem pops_pop (l : List (Op T)) : pops (.tryPop :: l) = pops l + 1 :=
  List.countP_cons_of_pos rfl

/-! ## What one step does to the list -/

/-- The thread has no ticket. -/
def Unticketed (pc : Ring.PC T) : Prop := pc.producing = none ∧ pc.consuming = none

/-- The calls a thread has not yet got a ticket for. -/
def PC.unclaimed : PC T → List (Op T)
  | ⟨tasks, .push _ (.copy _)⟩ => tasks.tail
  | ⟨tasks, .push _ (.publish _)⟩ => tasks.tail
  | ⟨tasks, .pop (.move _)⟩ => tasks.tail
  | ⟨tasks, .pop (.publish _ _)⟩ => tasks.tail
  | ⟨tasks, _⟩ => tasks

/-- The call that gets its ticket. -/
def asClaimed : Event T → Option (Op T)
  | .pushWin _ item => some (.tryPush item)
  | .popWin _ => some .tryPop
  | _ => none

/-- The calls that have got a ticket. -/
def claimed (H : List (ι × Event T)) : List (Op T) := H.filterMap fun e => asClaimed e.2

/-- A thread is in the call that is first in its list. -/
def PC.Local : PC T → Prop
  | ⟨_, .idle⟩ => True
  | ⟨tasks, .push item _⟩ => ∃ rest, tasks = .tryPush item :: rest
  | ⟨tasks, .pop _⟩ => ∃ rest, tasks = .tryPop :: rest

/-- What a step does to the list of calls: they get their tickets in turn, and are done in
turn. -/
structure Works (pc : PC T) (ev : Option (Event T)) (pc' : PC T) : Prop where
  inFirst : pc'.Local
  claims : pc.unclaimed = (ev.bind asClaimed).toList ++ pc'.unclaimed
  gets : pops pc.tasks = (ev.bind Event.asPopDone).toList.length + pops pc'.tasks

section Step

variable {Z : AdmittedSize} {moved : T → T} {m : Mem T}

theorem retry_works {op : Op T} {rest : List (Op T)} {rpc : Ring.PC T}
    {o : Outcome (Mem T) (Ring.PC T) (Event T)} (hlocal : PC.Local ⟨op :: rest, rpc⟩)
    (hbusy : rpc ≠ .idle) (he : Effect Z moved m rpc o.mem o.pc o.event) :
    Works ⟨op :: rest, rpc⟩ (retry op rest o).event (retry op rest o).pc := by
  obtain ⟨m', rpc', ev⟩ := o
  dsimp only at he
  cases he with
  | stay => exact ⟨hlocal, rfl, by simp [retry]⟩
  | start => exact absurd rfl hbusy
  | popDone =>
      obtain ⟨rest', h⟩ := hlocal
      cases h
      refine ⟨trivial, rfl, ?_⟩
      show pops (.tryPop :: rest) = 1 + pops rest
      rw [pops_pop, Nat.add_comm]
  | pushDone =>
      obtain ⟨rest', h⟩ := hlocal
      cases h
      refine ⟨trivial, rfl, ?_⟩
      show pops (.tryPush _ :: rest) = 0 + pops rest
      rw [pops_push, Nat.zero_add]
  | _ =>
      obtain ⟨rest', h⟩ := hlocal
      cases h
      exact ⟨by first | exact trivial | exact ⟨_, rfl⟩, rfl, (Nat.zero_add _).symm⟩

theorem prog_works {pc : PC T} (hlocal : pc.Local) (ch : Choice Empty) :
    Works pc (prog Z moved m pc ch).event (prog Z moved m pc ch).pc := by
  obtain ⟨tasks, rpc⟩ := pc
  cases tasks with
  | nil => exact ⟨hlocal, rfl, (Nat.zero_add _).symm⟩
  | cons op rest =>
      cases rpc with
      | idle =>
          cases op with
          | tryPush item => exact ⟨⟨rest, rfl⟩, rfl, (Nat.zero_add _).symm⟩
          | tryPop => exact ⟨⟨rest, rfl⟩, rfl, (Nat.zero_add _).symm⟩
      | push => exact retry_works hlocal (fun h => by cases h) (prog_effect _ _ _)
      | pop => exact retry_works hlocal (fun h => by cases h) (prog_effect _ _ _)

/-- Without a ticket no call returns true, and only a claim gives one. -/
theorem unticketed_step {rpc rpc' : Ring.PC T} {m' : Mem T} {ev : Option (Event T)}
    (he : Effect Z moved m rpc m' rpc' ev) (h : Unticketed rpc) :
    ev.any succeeded = false ∧ (ev.any Event.won = false → Unticketed rpc') := by
  cases he with
  | start op => cases op <;> exact ⟨rfl, fun _ => ⟨rfl, rfl⟩⟩
  | stay => exact ⟨rfl, fun _ => h⟩
  | pushWin | popWin => exact ⟨rfl, fun hwon => by cases hwon⟩
  | pushCopy | pushDone => cases h.1
  | popMove | popDone => cases h.2
  | _ => exact ⟨rfl, fun _ => ⟨rfl, rfl⟩⟩

theorem asClaimed_eq_none_iff {ev : Option (Event T)} :
    ev.bind asClaimed = none ↔ ev.any Event.won = false := by
  cases ev with
  | none => exact iff_of_true rfl rfl
  | some e =>
      cases e with
      | pushWin | popWin => exact iff_of_false (fun h => by cases h) fun h => by cases h
      | _ => exact iff_of_true rfl rfl

/-- A thread that does not return from a call goes on with the same list. -/
theorem prog_tasks (pc : PC T) (ch : Choice Empty)
    (h : (prog Z moved m pc ch).event.any succeeded = false) :
    (prog Z moved m pc ch).pc.tasks = pc.tasks := by
  obtain ⟨tasks, rpc⟩ := pc
  cases tasks with
  | nil => rfl
  | cons op rest =>
      cases rpc with
      | idle => rfl
      | _ =>
          simp only [prog, retry] at h ⊢
          rw [h]
          rfl

end Step

/-! ## Runs -/

section Run

variable [DecidableEq ι] (Z : PowSize) (moved : T → T) (scripts : ι → List (Op T))
  (buffer : ℕ → T) (sched : ℕ → ι × Choice Empty)

/-- The schedule a run drives the ring with. -/
def queueSched : ℕ → ι × Choice (Op T) :=
  (system Z moved scripts buffer).projectSched (fun _ => queueChoice) sched

/-- A run of the clients is a run of the ring. -/
theorem run_ring (n : ℕ) :
    System.project id PC.queue ((system Z moved scripts buffer).run sched n)
      = (Ring.system Z moved ι buffer).run (queueSched Z moved scripts buffer sched) n := by
  refine System.run_project _ rfl (fun m pc ch => ?_) (fun m pc ch => ?_) sched n
  · exact (congrArg Outcome.mem (prog_queue Z.toAdmittedSize moved m pc ch)).symm
  · exact (congrArg Outcome.pc (prog_queue Z.toAdmittedSize moved m pc ch)).symm

theorem outcome_ring (n : ℕ) :
    ((Ring.system Z moved ι buffer).outcome
        ((Ring.system Z moved ι buffer).run (queueSched Z moved scripts buffer sched) n)
        (queueSched Z moved scripts buffer sched n)).event
      = ((system Z moved scripts buffer).outcome
        ((system Z moved scripts buffer).run sched n) (sched n)).event := by
  rw [← run_ring]
  exact congrArg Outcome.event (prog_queue Z.toAdmittedSize moved _ _ _)

theorem history_ring (n : ℕ) :
    (system Z moved scripts buffer).history sched n
      = (Ring.system Z moved ι buffer).history (queueSched Z moved scripts buffer sched) n := by
  induction n with
  | zero => rfl
  | succ n ih =>
      rw [System.history_succ, System.history_succ, ih, System.emitted, System.emitted,
        outcome_ring]
      rfl

/-- Each thread gets the tickets for its calls one after another, and takes out as many items
as it is done with pops. -/
theorem accounts_run (n : ℕ) (p : ι) :
    (((system Z moved scripts buffer).run sched n).pc p).Local
      ∧ claimed (ofThread p ((system Z moved scripts buffer).history sched n))
          ++ (((system Z moved scripts buffer).run sched n).pc p).unclaimed = scripts p
      ∧ (delivered (ofThread p ((system Z moved scripts buffer).history sched n))).length
          + pops (((system Z moved scripts buffer).run sched n).pc p).tasks
        = pops (scripts p) := by
  induction n with
  | zero => exact ⟨trivial, rfl, Nat.zero_add _⟩
  | succ n ih =>
      obtain ⟨hlocal, hclaimed, hgot⟩ := ih
      rw [System.run_succ, System.history_succ, ofThread_append, claimed, delivered,
        List.filterMap_append, List.filterMap_append, System.emitted, filterMap_ofThread_step,
        filterMap_ofThread_step]
      by_cases hp : p = (sched n).1
      · subst hp
        have hworks : Works _ _ ((system Z moved scripts buffer).outcome
          ((system Z moved scripts buffer).run sched n) (sched n)).pc :=
            prog_works hlocal (sched n).2
        rw [if_pos rfl, if_pos rfl, System.next_pc_self]
        refine ⟨hworks.inFirst, ?_, ?_⟩
        · rw [List.append_assoc]
          exact (congrArg _ hworks.claims).symm.trans hclaimed
        · rw [List.length_append, Nat.add_assoc]
          exact (congrArg _ hworks.gets).symm.trans hgot
      · rw [if_neg (Ne.symm hp), if_neg (Ne.symm hp), System.next_pc_ne _ _ hp,
          List.append_nil, List.append_nil]
        exact ⟨hlocal, hclaimed, hgot⟩

omit [DecidableEq ι] in
theorem items_claimed (H : List (ι × Event T)) : items (claimed H) = pushed H := by
  rw [items, claimed, List.filterMap_filterMap]
  refine List.filterMap_congr fun e _ => ?_
  obtain ⟨p, e⟩ := e
  cases e <;> rfl

omit [DecidableEq ι] in
theorem pops_claimed (H : List (ι × Event T)) : pops (claimed H) = (taken H).length := by
  induction H with
  | nil => rfl
  | cons e H ih =>
      obtain ⟨p, e⟩ := e
      cases e with
      | popWin t => exact (pops_pop _).trans (congrArg _ ih)
      | pushWin t x => exact (pops_push x _).trans ih
      | _ => exact ih

section Sums

variable [Fintype ι]

/-- Of all the calls, some have got a ticket and the others have not. -/
theorem sum_claimed {α : Type*} (f : Op T → Option α) (n : ℕ) :
    (((claimed ((system Z moved scripts buffer).history sched n)).filterMap f : List α) :
        Multiset α)
      + ∑ p, (((((system Z moved scripts buffer).run sched n).pc p).unclaimed.filterMap f :
        List α) : Multiset α)
      = ∑ p, (((scripts p).filterMap f : List α) : Multiset α) := by
  rw [claimed, List.filterMap_filterMap, ← sum_ofThread, ← Finset.sum_add_distrib]
  refine Finset.sum_congr rfl fun p _ => ?_
  have hclaimed := (accounts_run Z moved scripts buffer sched n p).2.1
  rw [← hclaimed, Multiset.coe_add, List.filterMap_append, claimed, List.filterMap_filterMap]

theorem sum_length_claimed {α : Type*} (f : Op T → Option α) (n : ℕ) :
    ((claimed ((system Z moved scripts buffer).history sched n)).filterMap f).length
      + ∑ p, ((((system Z moved scripts buffer).run sched n).pc p).unclaimed.filterMap f).length
      = ∑ p, ((scripts p).filterMap f).length := by
  have hcard := congrArg Multiset.card (sum_claimed Z moved scripts buffer sched f n)
  simpa only [Multiset.card_add, Multiset.card_sum, Multiset.coe_card] using hcard

theorem sum_items (n : ℕ) :
    (pushed ((system Z moved scripts buffer).history sched n)).length
      + ∑ p, (items (((system Z moved scripts buffer).run sched n).pc p).unclaimed).length
      = ∑ p, (items (scripts p)).length := by
  rw [← items_claimed]
  exact sum_length_claimed Z moved scripts buffer sched item n

theorem sum_pops (n : ℕ) :
    (taken ((system Z moved scripts buffer).history sched n)).length
      + ∑ p, pops (((system Z moved scripts buffer).run sched n).pc p).unclaimed
      = ∑ p, pops (scripts p) := by
  have hsum := sum_length_claimed Z moved scripts buffer sched (Option.guard isPop) n
  simp only [List.filterMap_eq_filter, ← List.countP_eq_length_filter] at hsum
  rw [← pops_claimed]
  exact hsum

section Bounded

variable (hsize : ∑ p, (items (scripts p)).length + Z.size ≤ 2 ^ 63)
include hsize

theorem pushed_le (n : ℕ) :
    (pushed ((system Z moved scripts buffer).history sched n)).length + Z.size ≤ 2 ^ 63 := by
  have hsum := sum_items Z moved scripts buffer sched n
  omega

theorem pushed_lt (n : ℕ) : (pushed ((Ring.system Z moved ι buffer).history
    (queueSched Z moved scripts buffer sched) n)).length < 2 ^ 63 := by
  have hle := pushed_le Z moved scripts buffer sched hsize n
  have hpos := Z.size_pos
  rw [← history_ring]
  omega

theorem head_eq (n : ℕ) : ((system Z moved scripts buffer).run sched n).mem.head
    + ∑ p, (items (((system Z moved scripts buffer).run sched n).pc p).unclaimed).length
      = ∑ p, (items (scripts p)).length := by
  have hpushes := (inv_run (pushed_lt Z moved scripts buffer sched hsize n)).pushes
  rw [← run_ring, ← history_ring] at hpushes
  rw [← sum_items Z moved scripts buffer sched n, hpushes]
  rfl

theorem tail_eq (n : ℕ) : ((system Z moved scripts buffer).run sched n).mem.tail
    + ∑ p, pops (((system Z moved scripts buffer).run sched n).pc p).unclaimed
      = ∑ p, pops (scripts p) := by
  have htaken := (fifo_run (pushed_lt Z moved scripts buffer sched hsize n)).2.taken_eq
  rw [← run_ring, ← history_ring] at htaken
  rw [← sum_pops Z moved scripts buffer sched n, htaken, List.length_range]
  rfl

end Bounded

end Sums

/-! ## When no ticket is claimed any more -/

/-- No thread has a ticket, and those that have not come to the end of their lists wait for the
same thing. -/
structure Settled (Z : PowSize) (c : Config ι (Mem T) (PC T)) : Prop where
  unclaimed : ∀ p, (c.pc p).unclaimed = (c.pc p).tasks
  waits : (∀ p, (c.pc p).tasks = [])
    ∨ (c.mem.head = c.mem.tail + Z.size
      ∧ ∀ p, (c.pc p).tasks ≠ [] → ∃ x rest, (c.pc p).tasks = .tryPush x :: rest)
    ∨ (c.mem.head = c.mem.tail
      ∧ ∀ p, (c.pc p).tasks ≠ [] → ∃ rest, (c.pc p).tasks = .tryPop :: rest)

/-- From tick `n` on no ticket is claimed and no compare-exchange fails spuriously. -/
structure Quiet (n : ℕ) : Prop where
  claims : ∀ t, n ≤ t → ((system Z moved scripts buffer).outcome
    ((system Z moved scripts buffer).run sched t) (sched t)).event.any Event.won = false
  faults : ∀ t, n ≤ t → System.faultAt sched t = false

theorem exists_quiet [Fintype ι] (hfair : Fair sched) :
    ∃ n, Quiet Z moved scripts buffer sched n := by
  have hlength : ∀ n, (claimed ((system Z moved scripts buffer).history sched (n + 1))).length
      = (claimed ((system Z moved scripts buffer).history sched n)).length
        + (((system Z moved scripts buffer).outcome ((system Z moved scripts buffer).run sched n)
          (sched n)).event.bind asClaimed).toList.length := by
    intro n
    rw [System.history_succ, claimed, List.filterMap_append, List.length_append, System.emitted]
    refine congrArg _ ?_
    cases ((system Z moved scripts buffer).outcome ((system Z moved scripts buffer).run sched n)
        (sched n)).event with
    | none => rfl
    | some e => cases h : asClaimed e <;> simp [h]
  obtain ⟨N, hN⟩ := exists_stable
    (f := fun n => (claimed ((system Z moved scripts buffer).history sched n)).length)
    (B := ∑ p, (scripts p).length) (fun n => by rw [hlength]; exact Nat.le_add_right _ _)
    fun n => by
      have hsum := sum_length_claimed Z moved scripts buffer sched some n
      simp only [List.filterMap_some] at hsum
      omega
  obtain ⟨N', hN'⟩ := hfair.clean
  refine ⟨max N N', fun t ht => ?_, fun t ht => hN' t (by omega)⟩
  have hstable := (hN (t + 1) (by omega)).trans (hN t (by omega)).symm
  rw [hlength] at hstable
  refine asClaimed_eq_none_iff.mp ?_
  rw [← Option.toList_eq_nil_iff, ← List.length_eq_zero_iff]
  omega

/-- The step of the ring at a tick. -/
theorem effect_ring (n : ℕ) :
    Effect Z moved ((system Z moved scripts buffer).run sched n).mem
      (((system Z moved scripts buffer).run sched n).pc (sched n).1).queue
      ((system Z moved scripts buffer).run sched (n + 1)).mem
      (((system Z moved scripts buffer).run sched (n + 1)).pc (sched n).1).queue
      ((system Z moved scripts buffer).outcome ((system Z moved scripts buffer).run sched n)
        (sched n)).event := by
  have he : Effect Z.toAdmittedSize moved _ _ _ _ _ := prog_effect
    ((system Z moved scripts buffer).run sched n).mem
    (((system Z moved scripts buffer).run sched n).pc (sched n).1).queue
    (queueChoice (((system Z moved scripts buffer).run sched n).pc (sched n).1) (sched n).2)
  rw [prog_queue] at he
  rw [System.run_succ, System.next_pc_self]
  exact he

variable {Z moved scripts buffer sched}

theorem queueChoice_moves {pc : PC T} (h : pc.tasks ≠ []) (ch : Choice Empty) :
    (queueChoice pc ch).moves Ring.PC.busy pc.queue = true := by
  obtain ⟨tasks, rpc⟩ := pc
  cases tasks with
  | nil => exact absurd rfl h
  | cons op rest => cases rpc <;> cases ch <;> rfl

theorem queueChoice_isFault (pc : PC T) {ch : Choice Empty} (h : ch.isFault = false) :
    (queueChoice pc ch).isFault = false := by
  obtain ⟨tasks, rpc⟩ := pc
  cases tasks with
  | nil => cases rpc <;> rfl
  | cons op rest => cases rpc <;> cases ch <;> first | rfl | cases h

theorem PC.Local.idle {pc : PC T} (h : pc.Local) (hnil : pc.tasks = []) :
    pc = ⟨[], .idle⟩ := by
  obtain ⟨tasks, rpc⟩ := pc
  obtain rfl : tasks = [] := hnil
  cases rpc with
  | idle => rfl
  | _ =>
      obtain ⟨rest, h⟩ := h
      cases h

theorem PC.Local.push {pc : PC T} (h : pc.Local) {x : T} {ppc : PushPC}
    (hpc : pc.queue = .push x ppc) : ∃ rest, pc.tasks = .tryPush x :: rest := by
  obtain ⟨tasks, rpc⟩ := pc
  obtain rfl : rpc = _ := hpc
  exact h

theorem PC.Local.pop {pc : PC T} (h : pc.Local) {ppc : PopPC T} (hpc : pc.queue = .pop ppc) :
    ∃ rest, pc.tasks = .tryPop :: rest := by
  obtain ⟨tasks, rpc⟩ := pc
  obtain rfl : rpc = _ := hpc
  exact h

theorem PC.unclaimed_of_unticketed {pc : PC T} (h : Unticketed pc.queue) :
    pc.unclaimed = pc.tasks := by
  obtain ⟨tasks, rpc⟩ := pc
  obtain ⟨hprod, hcons⟩ := h
  rcases rpc with _ | ⟨x, _ | _ | _ | _ | _⟩ | (_ | _ | _ | _ | _) <;>
    first | rfl | exact absurd hprod (Option.some_ne_none _) | cases hcons

/-- Without a ticket a call returns only when it is refused. -/
theorem refused_of_returns {Z : AdmittedSize} {m m' : Mem T} {rpc rpc' : Ring.PC T}
    {ev : Option (Event T)} (he : Effect Z moved m rpc m' rpc' ev) (h : Unticketed rpc)
    (hbusy : rpc.busy = true) (hidle : rpc'.busy = false) :
    (∃ x head, rpc = .push x (.loadSeq head)
        ∧ signedDiff 64 (m.sequences (Z.index head)) head < 0)
      ∨ ∃ tail, rpc = .pop (.loadSeq tail)
        ∧ signedDiff 64 (m.sequences (Z.index tail)) (wrap 64 (tail + 1)) < 0 := by
  cases he with
  | pushFull x head hneg => exact Or.inl ⟨x, head, rfl, hneg⟩
  | popEmpty tail hneg => exact Or.inr ⟨tail, rfl, hneg⟩
  | stay => cases hbusy.symm.trans hidle
  | start => cases hbusy
  | pushDone => cases h.1
  | popDone => cases h.2
  | _ => cases hidle

/-- A call that returns true is over. -/
theorem returns_of_succeeded {Z : AdmittedSize} {m m' : Mem T} {rpc rpc' : Ring.PC T}
    {ev : Option (Event T)} (he : Effect Z moved m rpc m' rpc' ev)
    (h : ev.any succeeded = true) : rpc.busy = true ∧ rpc'.busy = false := by
  cases he with
  | pushDone | popDone => exact ⟨rfl, rfl⟩
  | _ => cases h

section Quiet

variable {n : ℕ} (hquiet : Quiet Z moved scripts buffer sched n)
include hquiet

theorem Quiet.mono {n' : ℕ} (h : n ≤ n') : Quiet Z moved scripts buffer sched n' :=
  ⟨fun t ht => hquiet.claims t (by omega), fun t ht => hquiet.faults t (by omega)⟩

/-- The tickets stay as they are. -/
theorem Quiet.tickets {t : ℕ} (ht : n ≤ t) :
    ((system Z moved scripts buffer).run sched t).mem.head
        = ((system Z moved scripts buffer).run sched n).mem.head
      ∧ ((system Z moved scripts buffer).run sched t).mem.tail
        = ((system Z moved scripts buffer).run sched n).mem.tail := by
  induction t, ht using Nat.le_induction with
  | base => exact ⟨rfl, rfl⟩
  | succ t ht ih =>
      have he : Effect Z.toAdmittedSize moved _ _ _ _ _ :=
        effect_ring Z moved scripts buffer sched t
      obtain ⟨hhead, htail⟩ := he.tickets_eq (hquiet.claims t ht)
      exact ⟨hhead.trans ih.1, htail.trans ih.2⟩

/-- Who has no ticket does not get one, and does not get on with its list. -/
theorem Quiet.unticketed {t : ℕ} (ht : n ≤ t) {p : ι}
    (h : Unticketed (((system Z moved scripts buffer).run sched n).pc p).queue) :
    Unticketed (((system Z moved scripts buffer).run sched t).pc p).queue
      ∧ (((system Z moved scripts buffer).run sched t).pc p).tasks
        = (((system Z moved scripts buffer).run sched n).pc p).tasks := by
  induction t, ht using Nat.le_induction with
  | base => exact ⟨h, rfl⟩
  | succ t ht ih =>
      by_cases hp : p = (sched t).1
      · subst hp
        have he : Effect Z.toAdmittedSize moved _ _ _ _ _ :=
          effect_ring Z moved scripts buffer sched t
        obtain ⟨hnot, hunticketed⟩ := unticketed_step he ih.1
        refine ⟨hunticketed (hquiet.claims t ht), Eq.trans ?_ ih.2⟩
        rw [System.run_succ, System.next_pc_self]
        exact prog_tasks _ _ hnot
      · rw [System.run_succ, System.next_pc_ne _ _ hp]
        exact ih

/-- A thread with calls to make gets to the end of one. -/
theorem Quiet.exists_return (hfair : Fair sched)
    (hJ : ∀ t, Behind Z ((system Z moved scripts buffer).run sched t).mem) {p : ι}
    (h : (((system Z moved scripts buffer).run sched n).pc p).tasks ≠ []) :
    ∃ t, n ≤ t ∧ (sched t).1 = p
      ∧ (((system Z moved scripts buffer).run sched t).pc p).queue.busy = true
      ∧ (((system Z moved scripts buffer).run sched (t + 1)).pc p).queue.busy = false := by
  by_contra hnone
  have hstays : ∀ t, n ≤ t → (((system Z moved scripts buffer).run sched t).pc p).tasks
      = (((system Z moved scripts buffer).run sched n).pc p).tasks := by
    intro t ht
    induction t, ht using Nat.le_induction with
    | base => rfl
    | succ t ht ih =>
        by_cases hp : p = (sched t).1
        · subst hp
          refine Eq.trans ?_ ih
          have he : Effect Z.toAdmittedSize moved _ _ _ _ _ :=
            effect_ring Z moved scripts buffer sched t
          rw [System.run_succ, System.next_pc_self]
          refine prog_tasks _ _ (Bool.eq_false_iff.mpr fun hdone => ?_)
          exact hnone ⟨t, ht, rfl, returns_of_succeeded he hdone⟩
        · rw [System.run_succ, System.next_pc_ne _ _ hp]
          exact ih
  have hpc : ∀ t, ((Ring.system Z moved ι buffer).run (queueSched Z moved scripts buffer sched)
      t).pc p = (((system Z moved scripts buffer).run sched t).pc p).queue :=
    fun t => (congrFun (congrArg Config.pc (run_ring Z moved scripts buffer sched t)) p).symm
  have hhinders : ∀ t, n ≤ t → (Ring.system Z moved ι buffer).hindersAt Event.won
      (queueSched Z moved scripts buffer sched) p t = false := by
    intro t ht
    rw [System.hindersAt]
    split_ifs
    · exact queueChoice_isFault _ (hquiet.faults t ht)
    · rw [System.wonAt, outcome_ring]
      exact hquiet.claims t ht
  have hmoves : ∀ m, ∃ t, m ≤ t ∧ (queueSched Z moved scripts buffer sched t).1 = p
      ∧ (Ring.system Z moved ι buffer).movesAt Ring.PC.busy
        (queueSched Z moved scripts buffer sched) t = true := by
    intro m
    obtain ⟨t, ht, rfl⟩ := hfair.often p (max n m)
    refine ⟨t, by omega, rfl, ?_⟩
    rw [System.movesAt]
    show Choice.moves Ring.PC.busy (((Ring.system Z moved ι buffer).run _ t).pc (sched t).1) _
      = true
    rw [hpc]
    refine queueChoice_moves ?_ _
    rw [hstays t (by omega)]
    exact h
  have hcontended : Contended (Ring.system Z moved ι buffer).prog Ring.PC.busy Event.won
    (Behind Z) ahead Ring.PC.wins 2 := contended Z.toAdmittedSize moved
  obtain ⟨t, ht, hp, hreturns⟩ := hcontended.exists_return
    (fun t _ => run_ring Z moved scripts buffer sched t ▸ hJ t) hhinders hmoves
  rw [System.returnsAt, hp, hpc, hpc, Bool.and_eq_true, Bool.not_eq_true'] at hreturns
  exact hnone ⟨t, ht, hp, hreturns⟩

end Quiet

section Rest

variable [Fintype ι] (hsize : ∑ p, (items (scripts p)).length + Z.size ≤ 2 ^ 63)
include hsize

theorem behind_mem (n : ℕ) : Behind Z ((system Z moved scripts buffer).run sched n).mem := by
  have hbehind := behind_run (pushed_lt Z moved scripts buffer sched hsize n)
  rwa [← run_ring] at hbehind

/-- From some tick on no thread has a ticket. -/
theorem exists_unticketed (hfair : Fair sched) : ∃ n, Quiet Z moved scripts buffer sched n
    ∧ ∀ p, Unticketed (((system Z moved scripts buffer).run sched n).pc p).queue := by
  obtain ⟨n, hquiet⟩ := exists_quiet Z moved scripts buffer sched hfair
  have hlater : ∀ p, ∃ t, n ≤ t
      ∧ Unticketed (((system Z moved scripts buffer).run sched t).pc p).queue := by
    intro p
    by_cases hnil : (((system Z moved scripts buffer).run sched n).pc p).tasks = []
    · refine ⟨n, Nat.le_refl n, ?_⟩
      rw [(accounts_run Z moved scripts buffer sched n p).1.idle hnil]
      exact ⟨rfl, rfl⟩
    · obtain ⟨t, ht, -, -, hidle⟩ := hquiet.exists_return hfair (behind_mem hsize) hnil
      refine ⟨t + 1, by omega, ?_⟩
      generalize (((system Z moved scripts buffer).run sched (t + 1)).pc p).queue = rpc at hidle ⊢
      cases rpc with
      | idle => exact ⟨rfl, rfl⟩
      | _ => cases hidle
  choose t ht hunticketed using hlater
  obtain ⟨N, hN⟩ := Finite.exists_le t
  refine ⟨max n N, hquiet.mono (Nat.le_max_left _ _), fun p => ?_⟩
  exact ((hquiet.mono (ht p)).unticketed (Nat.le_trans (hN p) (Nat.le_max_right _ _))
    (hunticketed p)).1

/-- A thread that is not done then is refused, and this for the reason the ring has. -/
theorem blocked (hfair : Fair sched) {n : ℕ} (hquiet : Quiet Z moved scripts buffer sched n)
    (hunticketed : ∀ p, Unticketed (((system Z moved scripts buffer).run sched n).pc p).queue)
    {p : ι} (h : (((system Z moved scripts buffer).run sched n).pc p).tasks ≠ []) :
    (∃ x rest, (((system Z moved scripts buffer).run sched n).pc p).tasks = .tryPush x :: rest
        ∧ ((system Z moved scripts buffer).run sched n).mem.head
          = ((system Z moved scripts buffer).run sched n).mem.tail + Z.size)
      ∨ ∃ rest, (((system Z moved scripts buffer).run sched n).pc p).tasks = .tryPop :: rest
        ∧ ((system Z moved scripts buffer).run sched n).mem.head
          = ((system Z moved scripts buffer).run sched n).mem.tail := by
  obtain ⟨t, ht, rfl, hbusy, hidle⟩ := hquiet.exists_return hfair (behind_mem hsize) h
  obtain ⟨hhead, htail⟩ := hquiet.tickets ht
  have hnone := fun q => (hquiet.unticketed ht (hunticketed q)).1
  have htasks := (hquiet.unticketed ht (hunticketed (sched t).1)).2
  have hlocal := (accounts_run Z moved scripts buffer sched t (sched t).1).1
  have hinv := inv_run (pushed_lt Z moved scripts buffer sched hsize t)
  rw [← run_ring] at hinv
  have hle : ((system Z moved scripts buffer).run sched t).mem.head + Z.size ≤ 2 ^ 63 := by
    have hsum := head_eq Z moved scripts buffer sched hsize t
    omega
  have he : Effect Z.toAdmittedSize moved _ _ _ _ _ := effect_ring Z moved scripts buffer sched t
  rw [← htasks, ← hhead, ← htail]
  rcases refused_of_returns he (hnone _) hbusy hidle with ⟨x, head, hpc, hneg⟩ | ⟨tail, hpc, hneg⟩
  · left
    obtain ⟨rfl, hfull⟩ := (hinv.pushFull_iff hle hpc).mp hneg
    obtain ⟨rest, hrest⟩ := hlocal.push hpc
    rcases hfull with hfull | ⟨q, w, hq, -⟩
    · exact ⟨x, rest, hrest, hfull⟩
    · cases (hnone q).2.symm.trans hq
  · right
    have hlt : ((system Z moved scripts buffer).run sched t).mem.head < 2 ^ 63 := by
      have hpos := Z.size_pos
      omega
    obtain ⟨rfl, hempty⟩ := (hinv.popEmpty_iff hlt hpc).mp hneg
    obtain ⟨rest, hrest⟩ := hlocal.pop hpc
    rcases hempty with hempty | ⟨q, hq⟩
    · exact ⟨rest, hrest, hempty⟩
    · cases (hnone q).1.symm.trans hq

/-- Either all threads have come to their ends, or those that have not wait together, to push
into a full ring or to pop from an empty one. -/
theorem exists_settled (hfair : Fair sched) :
    ∃ N, ∀ n, N ≤ n → Settled Z ((system Z moved scripts buffer).run sched n) := by
  obtain ⟨N, hquiet, hunticketed⟩ : ∃ N, Quiet Z moved scripts buffer sched N ∧ _ :=
    exists_unticketed hsize hfair
  refine ⟨N, fun n hn => ?_⟩
  have hnone := fun p => (hquiet.unticketed hn (hunticketed p)).1
  have hblocked := fun p => @blocked _ _ _ Z moved scripts buffer sched _ hsize hfair n
    (hquiet.mono hn) hnone p
  have hpos := Z.size_pos
  refine ⟨fun p => PC.unclaimed_of_unticketed (hnone p), ?_⟩
  by_cases hdone : ∀ p, (((system Z moved scripts buffer).run sched n).pc p).tasks = []
  · exact Or.inl hdone
  · obtain ⟨p, hp⟩ := not_forall.mp hdone
    right
    rcases hblocked p hp with ⟨x, rest, -, hfull⟩ | ⟨rest, -, hempty⟩
    · refine Or.inl ⟨hfull, fun q hq => ?_⟩
      rcases hblocked q hq with ⟨x, rest, hrest, -⟩ | ⟨rest, -, hempty⟩
      · exact ⟨x, rest, hrest⟩
      · omega
    · refine Or.inr ⟨hempty, fun q hq => ?_⟩
      rcases hblocked q hq with ⟨x, rest, -, hfull⟩ | ⟨rest, hrest, -⟩
      · omega
      · exact ⟨rest, hrest⟩

/-- When all threads have come to their ends, every item has been delivered that was pushed, and
to each thread as many as it asked for. -/
theorem delivered_of_done {n : ℕ}
    (h : ∀ p, (((system Z moved scripts buffer).run sched n).pc p).tasks = [])
    (hbalance : ∑ p, (items (scripts p)).length = ∑ p, pops (scripts p)) :
    (∀ p, ((system Z moved scripts buffer).run sched n).pc p = ⟨[], .idle⟩)
      ∧ (((delivered ((system Z moved scripts buffer).history sched n)).map Prod.snd : List T) :
          Multiset T) = ∑ p, ((items (scripts p) : List T) : Multiset T)
      ∧ ∀ p, (delivered (ofThread p ((system Z moved scripts buffer).history sched n))).length
          = pops (scripts p) := by
  have hpc : ∀ p, ((system Z moved scripts buffer).run sched n).pc p = ⟨[], .idle⟩ :=
    fun p => (accounts_run Z moved scripts buffer sched n p).1.idle (h p)
  refine ⟨hpc, ?_, fun p => ?_⟩
  · have hlt := pushed_lt Z moved scripts buffer sched hsize n
    have hidle : ∀ p, ((Ring.system Z moved ι buffer).run
        (queueSched Z moved scripts buffer sched) n).pc p = .idle := by
      intro p
      rw [← run_ring]
      exact congrArg PC.queue (hpc p)
    have hitems := sum_claimed Z moved scripts buffer sched item n
    rw [Finset.sum_eq_zero fun p _ => by rw [hpc p]; rfl, add_zero] at hitems
    have htail := tail_eq Z moved scripts buffer sched hsize n
    rw [Finset.sum_eq_zero fun p _ => by rw [hpc p]; rfl, Nat.add_zero, ← hbalance,
      ← sum_items Z moved scripts buffer sched n,
      Finset.sum_eq_zero fun p _ => by rw [hpc p]; rfl, Nat.add_zero] at htail
    have hperm : ((delivered ((system Z moved scripts buffer).history sched n)).map Prod.snd).Perm
        ((pushed ((system Z moved scripts buffer).history sched n)).take
          ((system Z moved scripts buffer).run sched n).mem.tail) := by
      have hring := delivered_perm hlt hidle
      rwa [← run_ring, ← history_ring] at hring
    rw [htail, List.take_length, ← items_claimed] at hperm
    exact (Multiset.coe_eq_coe.mpr hperm).trans hitems
  · have hgot := (accounts_run Z moved scripts buffer sched n p).2.2
    rw [hpc p] at hgot
    exact hgot

end Rest

end Run

/-! ## Producers and consumers -/

section Mpmc

variable {P C : Type*}

/-- Each producer pushes its items, and each consumer pops as many as it is to consume. -/
def mpmc (produced : P → List T) (consumed : C → ℕ) : P ⊕ C → List (Op T)
  | .inl p => (produced p).map .tryPush
  | .inr c => List.replicate (consumed c) .tryPop

@[simp] theorem items_map_push (xs : List T) : items (xs.map .tryPush) = xs := by
  induction xs with
  | nil => rfl
  | cons x xs ih => exact congrArg (x :: ·) ih

@[simp] theorem pops_map_push (xs : List T) : pops (xs.map .tryPush) = 0 := by
  induction xs with
  | nil => rfl
  | cons x xs ih => exact (pops_push x _).trans ih

@[simp] theorem items_replicate_pop (k : ℕ) :
    items (List.replicate k (.tryPop : Op T)) = [] := by
  induction k with
  | zero => rfl
  | succ k ih => exact ih

@[simp] theorem pops_replicate_pop (k : ℕ) : pops (List.replicate k (.tryPop : Op T)) = k := by
  induction k with
  | zero => rfl
  | succ k ih => exact (pops_pop _).trans (congrArg _ ih)

theorem mpmc_settled [Fintype P] [Fintype C] {Z : PowSize} {c : Config (P ⊕ C) (Mem T) (PC T)}
    {produced : P → List T} {consumed : C → ℕ}
    (hbalance : ∑ p, (produced p).length = ∑ q, consumed q) (h : Settled Z c)
    (hhead : c.mem.head + ∑ i, (items (c.pc i).unclaimed).length
      = ∑ i, (items (mpmc produced consumed i)).length)
    (htail : c.mem.tail + ∑ i, pops (c.pc i).unclaimed = ∑ i, pops (mpmc produced consumed i))
    (hproducer : ∀ p, pops (c.pc (.inl p)).tasks = 0)
    (hconsumer : ∀ q, items (c.pc (.inr q)).tasks = []) (i : P ⊕ C) : (c.pc i).tasks = [] := by
  simp only [h.unclaimed, Fintype.sum_sum_type, mpmc, items_map_push, items_replicate_pop,
    pops_map_push, pops_replicate_pop, hproducer, hconsumer, List.length_nil,
    Finset.sum_const_zero, Nat.add_zero, Nat.zero_add] at hhead htail
  rcases h.waits with hdone | ⟨hfull, hpush⟩ | ⟨hempty, hpop⟩
  · exact hdone i
  · -- the consumers are done, so no more than all has been pushed and popped
    have hnone : ∀ q, pops (c.pc (.inr q)).tasks = 0 := by
      intro q
      by_cases hq : (c.pc (.inr q)).tasks = []
      · rw [hq]
        rfl
      · obtain ⟨x, rest, hrest⟩ := hpush _ hq
        have hitems := hconsumer q
        rw [hrest] at hitems
        cases hitems
    have hpos := Z.size_pos
    simp only [hnone, Finset.sum_const_zero] at htail
    omega
  · -- the producers are done, so what is missing has not been pushed
    have hnone : ∀ p, (c.pc (.inl p)).tasks = [] := by
      intro p
      by_contra hp
      obtain ⟨rest, hrest⟩ := hpop _ hp
      have hpops := hproducer p
      rw [hrest, pops_pop] at hpops
      omega
    have hzero : ∑ p, (items (c.pc (.inl p)).tasks).length = 0 :=
      Finset.sum_eq_zero fun p _ => by rw [hnone p]; rfl
    cases i with
    | inl p => exact hnone p
    | inr q =>
        have hall : ∑ q, pops (c.pc (.inr q)).tasks = 0 := by omega
        have hq := Finset.sum_eq_zero_iff.mp hall q (Finset.mem_univ q)
        by_contra hne
        obtain ⟨rest, hrest⟩ := hpop _ hne
        rw [hrest, pops_pop] at hq
        omega

end Mpmc

/-! ## Workers -/

/-- A worker pops after each push. -/
def worker (xs : List T) : List (Op T) := xs.flatMap fun x => [.tryPush x, .tryPop]

@[simp] theorem items_worker (xs : List T) : items (worker xs) = xs := by
  induction xs with
  | nil => rfl
  | cons x xs ih => exact congrArg (x :: ·) ih

@[simp] theorem pops_worker (xs : List T) : pops (worker xs) = xs.length := by
  induction xs with
  | nil => rfl
  | cons x xs ih => exact (pops_pop _).trans (congrArg _ ih)

/-- What is left of the list of a worker begins with a push, or with the pop after one. -/
theorem suffix_worker {xs : List T} {l : List (Op T)} (h : l <:+ worker xs) :
    (∃ ys, l = worker ys) ∨ ∃ ys, l = .tryPop :: worker ys := by
  induction xs with
  | nil => exact Or.inl ⟨[], List.suffix_nil.mp h⟩
  | cons x xs ih =>
      rcases List.suffix_cons_iff.mp h with rfl | h
      · exact Or.inl ⟨x :: xs, rfl⟩
      · rcases List.suffix_cons_iff.mp h with rfl | h
        · exact Or.inr ⟨xs, rfl⟩
        · exact ih h

theorem workers_settled [Fintype ι] {Z : PowSize} {c : Config ι (Mem T) (PC T)}
    {xs : ι → List T} (h : Settled Z c)
    (hhead : c.mem.head + ∑ p, (items (c.pc p).unclaimed).length
      = ∑ p, (items (worker (xs p))).length)
    (htail : c.mem.tail + ∑ p, pops (c.pc p).unclaimed = ∑ p, pops (worker (xs p)))
    (hsuffix : ∀ p, (c.pc p).tasks <:+ worker (xs p)) (p : ι) : (c.pc p).tasks = [] := by
  simp only [h.unclaimed, items_worker, pops_worker] at hhead htail
  rcases h.waits with hdone | ⟨hfull, hpush⟩ | ⟨hempty, hpop⟩
  · exact hdone p
  · -- each of them has popped as many items as it has pushed
    have heven : ∀ p, (items (c.pc p).tasks).length = pops (c.pc p).tasks := by
      intro p
      rcases suffix_worker (hsuffix p) with ⟨ys, hys⟩ | ⟨ys, hys⟩
      · rw [hys, items_worker, pops_worker]
      · obtain ⟨x, rest, hrest⟩ := hpush p (by rw [hys]; exact List.cons_ne_nil _ _)
        rw [hys] at hrest
        cases hrest
    have hpos := Z.size_pos
    simp only [heven] at hhead
    omega
  · -- and each of those that wait has pushed one item more
    have hle : ∀ p ∈ Finset.univ, (items (c.pc p).tasks).length ≤ pops (c.pc p).tasks := by
      intro p _
      rcases suffix_worker (hsuffix p) with ⟨ys, hys⟩ | ⟨ys, hys⟩
      · rw [hys, items_worker, pops_worker]
      · rw [hys, items_pop, pops_pop, items_worker, pops_worker]
        exact Nat.le_succ _
    have heq := (Finset.sum_eq_sum_iff_of_le hle).mp (by omega) p (Finset.mem_univ p)
    by_contra hne
    obtain ⟨rest, hrest⟩ := hpop p hne
    rcases suffix_worker (hsuffix p) with ⟨ys, hys⟩ | ⟨ys, hys⟩
    · rw [hys] at hrest
      cases ys with
      | nil => cases hrest
      | cons x ys => cases hrest
    · rw [hys, items_pop, pops_pop, items_worker, pops_worker] at heq
      omega

/-- Two threads take turns. -/
def turns (p q : ι) : ℕ → ι × Choice Empty := fun t => (if t % 2 = 0 then p else q, .go)

theorem fair_turns {p q : ι} (h : ∀ r, r = p ∨ r = q) : Fair (turns p q) := by
  refine ⟨fun r n => ?_, 0, fun t _ => rfl⟩
  rcases h r with rfl | rfl
  · exact ⟨2 * n, by omega, if_pos (by omega)⟩
  · exact ⟨2 * n + 1, by omega, if_neg (by omega)⟩

/-- **Producers and consumers come to their ends.** Let any number of producers push their
items in loops, and any number of consumers pop in loops, as many items altogether. In
every fair run all of them get to their ends, if with a lap more than the items the tickets
are below `2 ^ 63`; and then each consumer has got the number of items it asked for, and
altogether they have got the items of the producers, each as often as it was pushed. -/
theorem producers_consumers_finish {P C : Type*} [Fintype P] [DecidableEq P] [Fintype C]
    [DecidableEq C] (Z : PowSize) (moved : T → T) (produced : P → List T) (consumed : C → ℕ)
    (buffer : ℕ → T) (sched : ℕ → (P ⊕ C) × Choice Empty) (hfair : Fair sched)
    (hbalance : ∑ p, (produced p).length = ∑ q, consumed q)
    (hsize : ∑ p, (produced p).length + Z.size ≤ 2 ^ 63) :
    let S := system Z.toAdmittedSize moved (mpmc produced consumed) buffer
    ∃ N, ∀ n, N ≤ n → (∀ i, (S.run sched n).pc i = ⟨[], .idle⟩)
      ∧ (((delivered (S.history sched n)).map Prod.snd : List T) : Multiset T)
        = ∑ p, (produced p : Multiset T)
      ∧ ∀ q, (delivered (ofThread (.inr q) (S.history sched n))).length = consumed q := by
  intro S
  have hitems : ∑ i, (items (mpmc produced consumed i)).length = ∑ p, (produced p).length := by
    simp [Fintype.sum_sum_type, mpmc]
  have hpops : ∑ i, pops (mpmc produced consumed i) = ∑ q, consumed q := by
    simp [Fintype.sum_sum_type, mpmc]
  rw [← hitems] at hsize
  obtain ⟨N, hN⟩ : ∃ N, ∀ n, N ≤ n → Settled Z (S.run sched n) := exists_settled hsize hfair
  refine ⟨N, fun n hn => ?_⟩
  have hdone : ∀ i, ((S.run sched n).pc i).tasks = [] := by
    have haccounts := accounts_run Z moved (mpmc produced consumed) buffer sched n
    refine mpmc_settled hbalance (hN n hn) (head_eq Z moved _ buffer sched hsize n)
      (tail_eq Z moved _ buffer sched hsize n) (fun p => ?_) fun q => ?_
    · have hclaimed := congrArg pops (haccounts (.inl p)).2.1
      rw [pops_append, mpmc, pops_map_push, (hN n hn).unclaimed] at hclaimed
      omega
    · have hclaimed := congrArg items (haccounts (.inr q)).2.1
      rw [items_append, mpmc, items_replicate_pop, (hN n hn).unclaimed] at hclaimed
      exact (List.append_eq_nil_iff.mp hclaimed).2
  obtain ⟨hpc, hdelivered, hgot⟩ := delivered_of_done hsize hdone (by rw [hitems, hpops, hbalance])
  refine ⟨hpc, ?_, fun q => (hgot (.inr q)).trans (pops_replicate_pop _)⟩
  rw [hdelivered, Fintype.sum_sum_type]
  simp [mpmc]

theorem producers_consumers_finish_two :
    ∃ N, ∀ n, N ≤ n → (((delivered ((system twoCells.toAdmittedSize id
        (mpmc (fun _ : Unit => [7, 8]) fun _ : Unit => 2) fun _ => 0).history
          (turns (.inl ()) (.inr ())) n)).map Prod.snd : List ℕ) : Multiset ℕ) = {7, 8} := by
  obtain ⟨N, hN⟩ := producers_consumers_finish twoCells id (fun _ : Unit => [7, 8])
    (fun _ : Unit => 2) (fun _ => 0) (turns (.inl ()) (.inr ()))
    (fair_turns fun r => by rcases r with ⟨⟩ | ⟨⟩ <;> simp) rfl (by decide)
  exact ⟨N, fun n hn => (hN n hn).2.1⟩

/-- **Workers come to their ends.** Let any number of threads push an item and pop one, in
loops, again and again. In every fair run all of them get to their ends, if with a lap more
than the items the tickets are below `2 ^ 63`; and then each of them has got as many items as
it has pushed, and altogether they have got the items they have pushed. -/
theorem workers_finish [Fintype ι] [DecidableEq ι] (Z : PowSize) (moved : T → T)
    (xs : ι → List T) (buffer : ℕ → T) (sched : ℕ → ι × Choice Empty) (hfair : Fair sched)
    (hsize : ∑ p, (xs p).length + Z.size ≤ 2 ^ 63) :
    let S := system Z.toAdmittedSize moved (fun p => worker (xs p)) buffer
    ∃ N, ∀ n, N ≤ n → (∀ p, (S.run sched n).pc p = ⟨[], .idle⟩)
      ∧ (((delivered (S.history sched n)).map Prod.snd : List T) : Multiset T)
        = ∑ p, (xs p : Multiset T)
      ∧ ∀ p, (delivered (ofThread p (S.history sched n))).length = (xs p).length := by
  intro S
  have hitems : ∀ p, (items (worker (xs p))).length = (xs p).length :=
    fun p => congrArg List.length (items_worker _)
  have hsize' : ∑ p, (items (worker (xs p))).length + Z.size ≤ 2 ^ 63 := by
    simpa only [hitems] using hsize
  obtain ⟨N, hN⟩ : ∃ N, ∀ n, N ≤ n → Settled Z (S.run sched n) := exists_settled hsize' hfair
  refine ⟨N, fun n hn => ?_⟩
  have hdone : ∀ p, ((S.run sched n).pc p).tasks = [] := by
    refine workers_settled (hN n hn) (head_eq Z moved _ buffer sched hsize' n)
      (tail_eq Z moved _ buffer sched hsize' n) fun p => ?_
    rw [← (hN n hn).unclaimed]
    exact ⟨_, (accounts_run Z moved (fun p => worker (xs p)) buffer sched n p).2.1⟩
  obtain ⟨hpc, hdelivered, hgot⟩ := delivered_of_done hsize' hdone (by simp)
  refine ⟨hpc, ?_, fun p => (hgot p).trans (pops_worker _)⟩
  simpa only [items_worker] using hdelivered

theorem workers_finish_two :
    ∃ N, ∀ n, N ≤ n → ∀ p, ((system twoCells.toAdmittedSize id
      (fun p => worker (bif p then [7] else [8, 9])) fun _ => 0).run
        (turns true false) n).pc p = ⟨[], .idle⟩ := by
  obtain ⟨N, hN⟩ := workers_finish twoCells id (fun p => bif p then [7] else [8, 9])
    (fun _ => 0) (turns true false) (fair_turns fun r => by cases r <;> simp) (by decide)
  exact ⟨N, fun n hn => (hN n hn).1⟩

end Clients

end Ring

end Lockless
