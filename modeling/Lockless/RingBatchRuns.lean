import Lockless.RingQuiet

/-!
# Batches of any threads

`try_push_batch` and `try_pop_batch` are loops around `try_push` and `try_pop`, and
each of those may be interleaved with the calls of other threads: a batch is not one
step. What it is can still be said exactly. A run of the four public functions is, step
by step, a run of the two (`run_ring`). A batch of pushes gets tickets for a prefix of its
items, in their order and as many as it returns, and a batch of pops delivers what it
returns, in the order of the tickets. Neither stops short unless the last `try_push` or
`try_pop` in it was refused.

`InCall` says of a thread in the middle of a call what it has put into the ring and taken
out of it since the call began. The items of other threads may lie between those of a
batch, but never out of the order of the batch.
-/

namespace Lockless

namespace Ring

namespace Batch

variable {ι T : Type*}

/-- The state the constructor leaves, with the four functions called by any threads. -/
def system (Z : AdmittedSize) (moved : T → T) (ι : Type*) (buffer : ℕ → T) :
    System ι (Mem T) (PC T) (Choice (Op T)) (Result T) where
  init := ⟨initMem buffer, fun _ => .idle⟩
  prog := prog Z moved

/-! ## Runs of single pushes and pops -/

/-- The position of a thread in `try_push` or `try_pop`. -/
def PC.queue : PC T → Ring.PC T
  | .idle => .idle
  | .push rpc => rpc
  | .pop rpc => rpc
  | .pushBatch _ _ rpc => rpc
  | .popBatch _ _ rpc => rpc

/-- What a step asks of them. -/
def queueChoice : PC T → Choice (Op T) → Choice (Ring.Op T)
  | .idle, .call (.tryPush item) => .call (.tryPush item)
  | .idle, .call .tryPop => .call .tryPop
  | .idle, _ => .go
  | pc, .call _ => Ring.rest pc.queue
  | .pushBatch _ (item :: _) .idle, _ => .call (.tryPush item)
  | .popBatch maxCount items .idle, _ =>
      if items.length < maxCount then .call .tryPop else .go
  | _, ch => ch.access

theorem pushReturn_idle {Z : AdmittedSize} {moved : T → T} {m m' : Mem T} {pc pc' : Ring.PC T}
    {ev : Option (Event T)} (he : Effect Z moved m pc m' pc' ev) {ok : Bool}
    (h : pushReturn ev = some ok) : pc' = .idle := by
  cases he with
  | pushDone | pushFull => rfl
  | _ => cases h

theorem popReturn_idle {Z : AdmittedSize} {moved : T → T} {m m' : Mem T} {pc pc' : Ring.PC T}
    {ev : Option (Event T)} (he : Effect Z moved m pc m' pc' ev) {item : Option T}
    (h : popReturn ev = some item) : pc' = .idle := by
  cases he with
  | popDone | popEmpty => rfl
  | _ => cases h

section Projection

variable {Z : AdmittedSize} {moved : T → T}

/-- An outcome of the batch functions that goes on from one of the ring. -/
def Follows (o : Outcome (Mem T) (PC T) (Result T))
    (ro : Outcome (Mem T) (Ring.PC T) (Event T)) : Prop :=
  o.mem = ro.mem ∧ o.pc.queue = ro.pc

variable {m : Mem T} {rpc : Ring.PC T} {o : Outcome (Mem T) (Ring.PC T) (Event T)}
  (he : Effect Z moved m rpc o.mem o.pc o.event)
include he

theorem tryPush_follows : Follows (tryPush o) o := by
  unfold tryPush
  split
  · next ok hret => exact ⟨rfl, (pushReturn_idle he hret).symm⟩
  · exact ⟨rfl, rfl⟩

theorem tryPop_follows : Follows (tryPop o) o := by
  unfold tryPop
  split
  · next item hret => exact ⟨rfl, (popReturn_idle he hret).symm⟩
  · exact ⟨rfl, rfl⟩

theorem tryPushBatch_follows (pushed : ℕ) (items : List T) :
    Follows (tryPushBatch pushed items o) o := by
  unfold tryPushBatch
  split
  · next hret => exact ⟨rfl, (pushReturn_idle he hret).symm⟩
  · next hret => exact ⟨rfl, (pushReturn_idle he hret).symm⟩
  · exact ⟨rfl, rfl⟩

theorem tryPopBatch_follows (maxCount : ℕ) (items : List T) :
    Follows (tryPopBatch maxCount items o) o := by
  unfold tryPopBatch
  split
  · next hret => exact ⟨rfl, (popReturn_idle he hret).symm⟩
  · next hret => exact ⟨rfl, (popReturn_idle he hret).symm⟩
  · exact ⟨rfl, rfl⟩

end Projection

theorem prog_follows (Z : AdmittedSize) (moved : T → T) (m : Mem T) (pc : PC T)
    (ch : Choice (Op T)) :
    Follows (prog Z moved m pc ch) (Ring.prog Z moved m pc.queue (queueChoice pc ch)) := by
  cases pc with
  | idle =>
      cases ch with
      | call op => cases op <;> exact ⟨rfl, rfl⟩
      | go | fault => exact ⟨rfl, rfl⟩
  | push rpc =>
      cases ch with
      | call op =>
          simp only [queueChoice, PC.queue, Ring.prog_rest]
          exact ⟨rfl, rfl⟩
      | go | fault => exact tryPush_follows (Ring.prog_effect _ _ _)
  | pop rpc =>
      cases ch with
      | call op =>
          simp only [queueChoice, PC.queue, Ring.prog_rest]
          exact ⟨rfl, rfl⟩
      | go | fault => exact tryPop_follows (Ring.prog_effect _ _ _)
  | pushBatch pushed items rpc =>
      cases ch with
      | call op =>
          simp only [queueChoice, PC.queue, Ring.prog_rest]
          exact ⟨rfl, rfl⟩
      | go | fault =>
          cases rpc with
          | idle => cases items <;> exact ⟨rfl, rfl⟩
          | push item pc | pop pc =>
              cases items <;> exact tryPushBatch_follows (Ring.prog_effect _ _ _) _ _
  | popBatch maxCount items rpc =>
      cases ch with
      | call op =>
          simp only [queueChoice, PC.queue, Ring.prog_rest]
          exact ⟨rfl, rfl⟩
      | go | fault =>
          cases rpc with
          | idle =>
              simp only [queueChoice, prog, callPop]
              split_ifs <;> exact ⟨rfl, rfl⟩
          | push item pc | pop pc => exact tryPopBatch_follows (Ring.prog_effect _ _ _) _ _

/-! ## During a call

`A` lists the items that are given a ticket in the whole run, in the order of the
tickets. -/

/-- The items a step of the ring accepts. -/
def entered (A : List T) (ev : Option (Event T)) : List T :=
  (ev.bind fun e => e.asPushDone.bind (A[·]?)).toList

/-- The items a step of the ring delivers. -/
def left (ev : Option (Event T)) : List T :=
  (ev.bind fun e => e.asPopDone.map Prod.snd).toList

/-- The items a call that has returned has put into the ring. -/
def Op.put : Op T → Result T → List T
  | .tryPush item, .pushed true => [item]
  | .tryPushBatch items, .pushedBatch pushed => items.take pushed
  | _, _ => []

/-- The items it has taken out of the ring. -/
def Result.got : Result T → List T
  | .popped item => item.toList
  | .poppedBatch items => items
  | _ => []

/-- The result is one of the call, and if the call has stopped short, the event of the
ring is a refusal. -/
def Fits (ev : Option (Event T)) : Op T → Result T → Prop
  | .tryPush _, .pushed ok => ok = false → ev = some .pushFull
  | .tryPop, .popped item => item = none → ev = some .popEmpty
  | .tryPushBatch items, .pushedBatch pushed =>
      pushed ≤ items.length ∧ (pushed < items.length → ev = some .pushFull)
  | .tryPopBatch maxCount, .poppedBatch items =>
      items.length ≤ maxCount ∧ (items.length < maxCount → ev = some .popEmpty)
  | _, _ => False

/-- What holds in the middle of a call that has put and got items so far. -/
def During : Op T → PC T → List T → List T → Prop
  | .tryPush item, .push rpc, put, got => put = [] ∧ got = [] ∧ ∃ pc, rpc = .push item pc
  | .tryPop, .pop rpc, put, got => put = [] ∧ got = [] ∧ ∃ pc, rpc = .pop pc
  | .tryPushBatch items, .pushBatch pushed rest rpc, put, got =>
      items = put ++ rest ∧ put.length = pushed ∧ got = []
        ∧ (rpc = .idle ∨ ∃ item rest' pc, rest = item :: rest' ∧ rpc = .push item pc)
  | .tryPopBatch maxCount, .popBatch maxCount' done rpc, put, got =>
      maxCount' = maxCount ∧ put = [] ∧ got = done ∧ done.length ≤ maxCount
        ∧ (rpc = .idle ∨ done.length < maxCount ∧ ∃ pc, rpc = .pop pc)
  | _, _, _, _ => False

/-- The call goes on with what a step of the ring has added, or returns with it. -/
def Continues (A : List T) (op : Op T) (put got : List T) (ev : Option (Event T))
    (o : Outcome (Mem T) (PC T) (Result T)) : Prop :=
  (o.event = none ∧ During op o.pc (put ++ entered A ev) (got ++ left ev))
    ∨ ∃ r, o.event = some r ∧ o.pc = .idle ∧ put ++ entered A ev = op.put r
      ∧ got ++ left ev = r.got ∧ Fits ev op r

theorem During.start (op : Op T) : During op (start op) [] [] := by
  cases op with
  | tryPush item => exact ⟨rfl, rfl, _, rfl⟩
  | tryPop => exact ⟨rfl, rfl, _, rfl⟩
  | tryPushBatch items => exact ⟨rfl, rfl, rfl, Or.inl rfl⟩
  | tryPopBatch maxCount => exact ⟨rfl, rfl, rfl, Nat.zero_le _, Or.inl rfl⟩

theorem During.not_idle {op : Op T} {put got : List T} (h : During op .idle put got) : False := by
  cases op <;> exact h

section Steps

variable {Z : AdmittedSize} {moved : T → T} {A : List T} {m : Mem T} {put got : List T}
  {o : Outcome (Mem T) (Ring.PC T) (Event T)}

theorem Continues.tryPush {item : T} {pc : PushPC}
    (he : Effect Z moved m (.push item pc) o.mem o.pc o.event)
    (hA : ∀ t x, (Ring.PC.push item pc).publishing = some (t, x) → A[t]? = some x) :
    Continues A (.tryPush item) [] [] o.event (tryPush o) := by
  obtain ⟨m', rpc', ev⟩ := o
  dsimp only [Batch.tryPush] at he ⊢
  cases he with
  | pushDone item head =>
      have hitem := hA head item rfl
      exact Or.inr ⟨_, rfl, rfl, by simp [entered, Event.asPushDone, hitem, Op.put], rfl,
        fun h => by cases h⟩
  | pushFull => exact Or.inr ⟨_, rfl, rfl, rfl, rfl, fun _ => rfl⟩
  | _ => exact Or.inl ⟨rfl, rfl, rfl, _, rfl⟩

theorem Continues.tryPop {pc : PopPC T} (he : Effect Z moved m (.pop pc) o.mem o.pc o.event) :
    Continues A .tryPop [] [] o.event (tryPop o) := by
  obtain ⟨m', rpc', ev⟩ := o
  dsimp only [Batch.tryPop] at he ⊢
  cases he with
  | popDone tail item => exact Or.inr ⟨_, rfl, rfl, rfl, rfl, fun h => by cases h⟩
  | popEmpty => exact Or.inr ⟨_, rfl, rfl, rfl, rfl, fun _ => rfl⟩
  | _ => exact Or.inl ⟨rfl, rfl, rfl, _, rfl⟩

theorem Continues.tryPushBatch {item : T} {rest : List T} {pc : PushPC}
    (he : Effect Z moved m (.push item pc) o.mem o.pc o.event)
    (hA : ∀ t x, (Ring.PC.push item pc).publishing = some (t, x) → A[t]? = some x) :
    Continues A (.tryPushBatch (put ++ item :: rest)) put [] o.event
      (tryPushBatch put.length (item :: rest) o) := by
  obtain ⟨m', rpc', ev⟩ := o
  dsimp only [Batch.tryPushBatch] at he ⊢
  cases he with
  | pushDone item head =>
      have hentered : entered A (some (Event.pushDone head)) = [item] := by
        simp [entered, Event.asPushDone, hA head item rfl]
      rw [Continues, hentered]
      exact Or.inl ⟨rfl, by simp, by simp, rfl, Or.inl rfl⟩
  | pushFull =>
      refine Or.inr ⟨_, rfl, rfl, ?_, rfl, ?_, fun _ => rfl⟩
      · simp [entered, Event.asPushDone, Op.put]
      · simp
  | _ =>
      refine Or.inl ⟨rfl, ?_⟩
      show During _ _ (put ++ []) []
      rw [List.append_nil]
      exact ⟨rfl, rfl, rfl, Or.inr ⟨item, rest, _, rfl, rfl⟩⟩

theorem Continues.tryPopBatch {maxCount : ℕ} {pc : PopPC T} (hlt : got.length < maxCount)
    (he : Effect Z moved m (.pop pc) o.mem o.pc o.event) :
    Continues A (.tryPopBatch maxCount) [] got o.event (tryPopBatch maxCount got o) := by
  obtain ⟨m', rpc', ev⟩ := o
  dsimp only [Batch.tryPopBatch] at he ⊢
  cases he with
  | popDone tail item =>
      refine Or.inl ⟨rfl, rfl, rfl, rfl, ?_, Or.inl rfl⟩
      rw [List.length_append]
      exact hlt
  | popEmpty =>
      refine Or.inr ⟨_, rfl, rfl, rfl, ?_, hlt.le, fun _ => rfl⟩
      exact List.append_nil got
  | _ =>
      refine Or.inl ⟨rfl, rfl, rfl, ?_, hlt.le, Or.inr ⟨hlt, _, rfl⟩⟩
      exact List.append_nil got

theorem Continues.callPush {rest : List T} :
    Continues A (.tryPushBatch (put ++ rest)) put [] none (callPush m put.length rest) := by
  cases rest with
  | nil =>
      refine Or.inr ⟨_, rfl, rfl, ?_, rfl, ?_, fun h => ?_⟩
      · simp [entered, Op.put]
      · simp
      · simp at h
  | cons item rest =>
      refine Or.inl ⟨rfl, ?_⟩
      show During _ _ (put ++ []) []
      rw [List.append_nil]
      exact ⟨rfl, rfl, rfl, Or.inr ⟨item, rest, _, rfl, rfl⟩⟩

theorem Continues.callPop {maxCount : ℕ} (hle : got.length ≤ maxCount) :
    Continues A (.tryPopBatch maxCount) [] got none (callPop m maxCount got) := by
  unfold Batch.callPop
  split_ifs with hlt
  · exact Or.inl ⟨rfl, rfl, rfl, List.append_nil got, hle, Or.inr ⟨hlt, _, rfl⟩⟩
  · exact Or.inr ⟨_, rfl, rfl, rfl, List.append_nil got, hle, fun h => absurd h hlt⟩

theorem During.access {op : Op T} {pc : PC T} (h : During op pc put got)
    (hA : ∀ t x, pc.queue.publishing = some (t, x) → A[t]? = some x) {ch : Choice (Op T)}
    (hch : ∀ op, ch ≠ .call op) :
    Continues A op put got (Ring.prog Z moved m pc.queue (queueChoice pc ch)).event
      (prog Z moved m pc ch) := by
  have hch := Choice.go_or_fault hch
  cases op with
  | tryPush item =>
      cases pc with
      | push rpc =>
          obtain ⟨rfl, rfl, pc, rfl⟩ := h
          rcases hch with rfl | rfl <;> exact .tryPush (Ring.prog_effect _ _ _) hA
      | _ => exact h.elim
  | tryPop =>
      cases pc with
      | pop rpc =>
          obtain ⟨rfl, rfl, pc, rfl⟩ := h
          rcases hch with rfl | rfl <;> exact .tryPop (Ring.prog_effect _ _ _)
      | _ => exact h.elim
  | tryPushBatch items =>
      cases pc with
      | pushBatch pushed rest rpc =>
          obtain ⟨rfl, rfl, rfl, rfl | ⟨item, rest, pc, rfl, rfl⟩⟩ := h
          · have hcall := @Continues.callPush T A m put rest
            rcases hch with rfl | rfl <;> cases rest <;> exact hcall
          · rcases hch with rfl | rfl <;>
              exact .tryPushBatch (Ring.prog_effect _ _ _) hA
      | _ => exact h.elim
  | tryPopBatch maxCount =>
      cases pc with
      | popBatch maxCount' done rpc =>
          obtain ⟨rfl, rfl, rfl, hle, rfl | ⟨hlt, pc, rfl⟩⟩ := h
          · have hcall := Continues.callPop (A := A) (m := m) hle
            have hnone : ∀ ch : Choice (Op T), ch = .go ∨ ch = .fault →
                (Ring.prog Z moved m .idle (queueChoice (.popBatch maxCount' got .idle) ch)).event
                  = none := by
              rintro ch (rfl | rfl) <;> simp only [queueChoice] <;> split_ifs <;> rfl
            show Continues A _ _ _ (Ring.prog Z moved m .idle _).event _
            rw [hnone ch hch]
            rcases hch with rfl | rfl <;> exact hcall
          · rcases hch with rfl | rfl <;> exact .tryPopBatch hlt (Ring.prog_effect _ _ _)
      | _ => exact h.elim

/-- One step of a call. -/
theorem During.step {op : Op T} {pc : PC T} (h : During op pc put got)
    (hA : ∀ t x, pc.queue.publishing = some (t, x) → A[t]? = some x) (ch : Choice (Op T)) :
    Continues A op put got (Ring.prog Z moved m pc.queue (queueChoice pc ch)).event
      (prog Z moved m pc ch) := by
  cases ch with
  | call op' =>
      -- no call starts inside another one
      have hstay : prog Z moved m pc (.call op') = ⟨m, pc, none⟩
          ∧ queueChoice pc (.call op') = Ring.rest pc.queue := by
        cases pc with
        | idle => exact h.not_idle.elim
        | _ => exact ⟨rfl, rfl⟩
      rw [hstay.1, hstay.2, Ring.prog_rest]
      refine Or.inl ⟨rfl, ?_⟩
      show During op pc (put ++ []) (got ++ [])
      rwa [List.append_nil, List.append_nil]
  | go => exact h.access hA fun op' h => by cases h
  | fault => exact h.access hA fun op' h => by cases h

end Steps

/-! ## Runs -/

section Run

variable [DecidableEq ι] (Z : PowSize) (moved : T → T) (buffer : ℕ → T)
  (sched : ℕ → ι × Choice (Op T))

/-- The schedule a run drives `try_push` and `try_pop` with. -/
def queueSched : ℕ → ι × Choice (Ring.Op T) :=
  (system Z moved ι buffer).projectSched (fun _ => queueChoice) sched

def ringHistory (n : ℕ) : List (ι × Event T) :=
  (Ring.system Z moved ι buffer).history (queueSched Z moved buffer sched) n

/-- What the ring does at a tick. -/
def ringEvent (i : ℕ) : Option (Event T) :=
  ((Ring.system Z moved ι buffer).outcome
    ((Ring.system Z moved ι buffer).run (queueSched Z moved buffer sched) i)
    (queueSched Z moved buffer sched i)).event

/-- The items that have been given a ticket, in the order of the tickets. -/
def ticketed (n : ℕ) : List T := pushed (ringHistory Z moved buffer sched n)

/-- The items a thread has put into the ring by tick `i`, one by one, of those that have a
ticket by tick `n`. -/
def putBy (n : ℕ) (p : ι) (i : ℕ) : List T :=
  (published (ofThread p (ringHistory Z moved buffer sched i))).filterMap
    ((ticketed Z moved buffer sched n)[·]?)

/-- The items a thread has taken out of the ring by tick `i`. -/
def gotBy (p : ι) (i : ℕ) : List T :=
  (delivered (ofThread p (ringHistory Z moved buffer sched i))).map Prod.snd

/-- A run of the four functions is a run of the two. -/
theorem run_ring (n : ℕ) :
    System.project id PC.queue ((system Z moved ι buffer).run sched n)
      = (Ring.system Z moved ι buffer).run (queueSched Z moved buffer sched) n :=
  (system Z moved ι buffer).run_project rfl (fun m pc ch => (prog_follows Z moved m pc ch).1)
    (fun m pc ch => (prog_follows Z moved m pc ch).2) sched n

variable {Z moved buffer sched}

theorem ringEvent_eq (i : ℕ) : ringEvent Z moved buffer sched i
    = (Ring.prog Z moved ((system Z moved ι buffer).run sched i).mem
      (((system Z moved ι buffer).run sched i).pc (sched i).1).queue
      (queueChoice (((system Z moved ι buffer).run sched i).pc (sched i).1)
        (sched i).2)).event := by
  rw [ringEvent, ← run_ring]
  rfl

theorem putBy_succ (n : ℕ) (p : ι) (i : ℕ) : putBy Z moved buffer sched n p (i + 1)
    = putBy Z moved buffer sched n p i ++ (if (sched i).1 = p then
      entered (ticketed Z moved buffer sched n) (ringEvent Z moved buffer sched i) else []) := by
  simp only [putBy, published, List.filterMap_filterMap, ringHistory]
  rw [System.history_succ, ofThread_append, List.filterMap_append, System.emitted]
  exact congrArg _ (filterMap_ofThread_step
    (fun e : Event T => e.asPushDone.bind ((ticketed Z moved buffer sched n)[·]?)) p (sched i).1
    (ringEvent Z moved buffer sched i))

theorem gotBy_succ (p : ι) (i : ℕ) : gotBy Z moved buffer sched p (i + 1)
    = gotBy Z moved buffer sched p i
      ++ (if (sched i).1 = p then left (ringEvent Z moved buffer sched i) else []) := by
  simp only [gotBy, delivered, List.map_filterMap, ringHistory]
  rw [System.history_succ, ofThread_append, List.filterMap_append, System.emitted]
  exact congrArg _ (filterMap_ofThread_step (fun e : Event T => e.asPopDone.map Prod.snd) p
    (sched i).1 (ringEvent Z moved buffer sched i))

section Bounded

variable {n : ℕ} (hn : (ticketed Z moved buffer sched n).length < 2 ^ 63)
include hn

/-- A producer with a ticket is pushing the item of the ticket. -/
theorem ticketed_of_publishing {i : ℕ} (hi : i ≤ n) {p : ι} {t : ℕ} {x : T}
    (h : (((system Z moved ι buffer).run sched i).pc p).queue.publishing = some (t, x)) :
    (ticketed Z moved buffer sched n)[t]? = some x := by
  have hpc : (((system Z moved ι buffer).run sched i).pc p).queue = _ :=
    congrFun (congrArg Config.pc (run_ring Z moved buffer sched i)) p
  rw [hpc] at h
  obtain ⟨K, hK⟩ := (Ring.system Z moved ι buffer).history_mono
    (queueSched Z moved buffer sched) hi
  rw [ticketed, ringHistory, ← hK]
  exact pushed_mono ((pushes_run (pushes_lt hi hn)).item h)

theorem continues_run {i : ℕ} (hi : i ≤ n) {op : Op T} {put got : List T}
    (h : During op (((system Z moved ι buffer).run sched i).pc (sched i).1) put got) :
    Continues (ticketed Z moved buffer sched n) op put got (ringEvent Z moved buffer sched i)
      ((system Z moved ι buffer).outcome ((system Z moved ι buffer).run sched i) (sched i)) := by
  rw [ringEvent_eq]
  exact h.step (fun t x => ticketed_of_publishing hn hi) _

/-- What holds in the middle of a call, of what its thread has put and got since. -/
theorem during_run {i j : ℕ} (hij : i < j) (hj : j ≤ n) {p : ι} {op : Op T}
    (h : (system Z moved ι buffer).Within .idle sched i j p op) :
    ∃ put got, During op (((system Z moved ι buffer).run sched j).pc p) put got
      ∧ putBy Z moved buffer sched n p j = putBy Z moved buffer sched n p i ++ put
      ∧ gotBy Z moved buffer sched p j = gotBy Z moved buffer sched p i ++ got := by
  obtain ⟨⟨hcall, hidle⟩, hbusy⟩ := h
  induction j, hij using Nat.le_induction with
  | base =>
      have hev : ringEvent Z moved buffer sched i = none := by
        rw [ringEvent_eq, hcall, hidle]
        cases op <;> rfl
      refine ⟨[], [], ?_, ?_, ?_⟩
      · have hpc : ((system Z moved ι buffer).run sched (i + 1)).pc (sched i).1 = start op := by
          rw [System.run_succ, System.next_pc_self, System.outcome, hcall, hidle]
          rfl
        rw [hcall] at hpc
        rw [show i.succ = i + 1 from rfl, hpc]
        exact During.start op
      · rw [putBy_succ, hev]
        split_ifs <;> rfl
      · rw [gotBy_succ, hev]
        split_ifs <;> rfl
  | succ j hij ih =>
      obtain ⟨put, got, hduring, hput, hgot⟩ := ih (by omega) fun t ht htj =>
        hbusy t ht (by omega)
      by_cases hp : (sched j).1 = p
      · subst hp
        rw [putBy_succ, gotBy_succ, if_pos rfl, if_pos rfl, hput, hgot, List.append_assoc,
          List.append_assoc]
        refine ⟨_, _, ?_, rfl, rfl⟩
        rw [System.run_succ, System.next_pc_self]
        have hnot := hbusy (j + 1) (by omega) (Nat.le_refl _)
        rw [System.run_succ, System.next_pc_self] at hnot
        rcases continues_run hn (by omega) hduring with ⟨-, hduring'⟩ | ⟨r, -, hend, -⟩
        · exact hduring'
        · exact absurd hend hnot
      · rw [putBy_succ, gotBy_succ, if_neg hp, if_neg hp, List.append_nil, List.append_nil,
          System.run_succ, System.next_pc_ne _ _ fun e => hp e.symm]
        exact ⟨put, got, hduring, hput, hgot⟩

theorem gotBy_sublist (p : ι) :
    (gotBy Z moved buffer sched p n).Sublist (ticketed Z moved buffer sched n) :=
  (delivered_sublist p hn).trans (List.take_sublist _ _)

theorem putBy_sublist (p : ι) :
    (putBy Z moved buffer sched n p n).Sublist (ticketed Z moved buffer sched n) :=
  published_sublist p hn

end Bounded

end Run

/-- **The four functions under any interleaving.** In every run in which fewer than `2 ^ 63`
items are given a ticket, with `A` these items in the order of their tickets:

1. from its start to its return a call puts into the ring the item it has been given, or as
   many of the first of its items as it returns, one after another, and takes out of it what
   it returns; and it returns less than it has been asked for only if its last push or pop
   was refused;
2. the items a thread has put in, and those it has taken out, come in the order of `A`;
3. whenever no call is in flight, the items of `A` are those taken out and, with as many of
   the first of `A` left out, those the ring holds. -/
theorem calls_in_order [DecidableEq ι] (Z : PowSize) (moved : T → T) (buffer : ℕ → T)
    (sched : ℕ → ι × Choice (Op T)) (n : ℕ)
    (hn : (ticketed Z moved buffer sched n).length < 2 ^ 63) :
    let S := system Z moved ι buffer
    let A := ticketed Z moved buffer sched n
    let D := (delivered (ringHistory Z moved buffer sched n)).map Prod.snd
    (∀ i j p op r, i < j → j < n → S.Within .idle sched i j p op → S.Fires sched j p r →
        putBy Z moved buffer sched n p (j + 1) = putBy Z moved buffer sched n p i ++ op.put r
          ∧ gotBy Z moved buffer sched p (j + 1) = gotBy Z moved buffer sched p i ++ r.got
          ∧ Fits (ringEvent Z moved buffer sched j) op r)
      ∧ (∀ p, (putBy Z moved buffer sched n p n).Sublist A
        ∧ (gotBy Z moved buffer sched p n).Sublist A)
      ∧ ((∀ p, (S.run sched n).pc p = .idle) →
        A.Perm (D ++ A.drop D.length)
          ∧ ∃ b, Stored Z (S.run sched n).mem b (A.drop D.length)) := by
  intro S A D
  refine ⟨fun i j p op r hij hj hwithin hf => ?_,
    fun p => ⟨putBy_sublist hn p, gotBy_sublist hn p⟩, fun hidle => ?_⟩
  · obtain ⟨put, got, hduring, hput, hgot⟩ := during_run hn hij (by omega) hwithin
    obtain ⟨rfl, hr⟩ := hf
    rw [putBy_succ, gotBy_succ, if_pos rfl, if_pos rfl, hput, hgot, List.append_assoc,
      List.append_assoc]
    rcases continues_run hn (by omega) hduring with ⟨hnone, -⟩ | ⟨r', hr', -, hput', hgot', hfits⟩
    · cases hr.symm.trans hnone
    · obtain rfl := Option.some.inj (hr.symm.trans hr')
      rw [hput', hgot']
      exact ⟨rfl, rfl, hfits⟩
  · have hrun := run_ring Z moved buffer sched n
    have hring : ∀ p, ((Ring.system Z moved ι buffer).run
        (queueSched Z moved buffer sched) n).pc p = .idle :=
      fun p => (congrFun (congrArg Config.pc hrun) p).symm.trans (congrArg PC.queue (hidle p))
    have hmem : (S.run sched n).mem
        = ((Ring.system Z moved ι buffer).run (queueSched Z moved buffer sched) n).mem :=
      congrArg Config.mem hrun
    have hlength : D.length = (delivered (ringHistory Z moved buffer sched n)).length :=
      List.length_map _
    have hstored := stored_of_idle hn hring
    rw [← length_delivered hn hring, ← hmem] at hstored
    rw [hlength]
    exact ⟨pushed_perm hn hring, _, hstored⟩

/-- Between the two pushes of a batch another thread fills the ring. -/
def batchAround : ℕ → Bool × Choice (Op ℕ) := fun i =>
  ((false, Choice.call (Op.tryPushBatch [5, 6])) :: List.replicate 6 (false, Choice.go)
    ++ (true, Choice.call (Op.tryPush 7)) :: List.replicate 5 (true, Choice.go)).getD i
    (false, .go)

theorem calls_in_order_batchAround :
    putBy twoCells id (fun _ => 0) batchAround 16 false 16 = [5]
      ∧ (system twoCells id Bool fun _ => 0).Fires batchAround 15 false (.pushedBatch 1)
      ∧ ringEvent twoCells id (fun _ => 0) batchAround 15 = some .pushFull := by
  have hwithin : (system twoCells id Bool fun _ => 0).Within .idle batchAround 0 15 false
      (.tryPushBatch [5, 6]) := by
    refine ⟨⟨rfl, rfl⟩, fun t ht htj => ?_⟩
    interval_cases t <;> decide +kernel
  have hf : (system twoCells id Bool fun _ => 0).Fires batchAround 15 false
      (.pushedBatch 1) := by decide +kernel
  obtain ⟨hput, -, -, hrefused⟩ := (calls_in_order twoCells id (fun _ => 0) batchAround 16
    (by decide +kernel)).1 0 15 false _ _ (by decide) (by decide) hwithin hf
  exact ⟨hput, hf, hrefused (by decide)⟩

end Batch

end Ring

end Lockless
