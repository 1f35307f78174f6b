import Lockless.RingCalls

/-!
# The ring buffer as a bounded queue

The four public functions of `RingBuffer`, called one after another by one thread.
`try_push_batch` and `try_pop_batch` are loops around `try_push` and `try_pop` that
stop at the first failure.

`fifo` is what each function does to a list of at most `Size` items, and what it
returns. From a state with both counters at any base, however close to the end of
the 64 bits, every log of calls returns what `fifo` does, and every call returns.
-/

namespace Lockless

namespace Ring

namespace Batch

/-- `try_push_batch` is called with `count` items, `try_pop_batch` with room for
`maxCount` of them. -/
inductive Op (T : Type*) where
  | tryPush (item : T)
  | tryPop
  | tryPushBatch (items : List T)
  | tryPopBatch (maxCount : ℕ)
deriving DecidableEq

/-- What a call returns, with the items it has popped. -/
inductive Result (T : Type*) where
  | pushed (ok : Bool)
  | popped (item : Option T)
  | pushedBatch (pushed : ℕ)
  | poppedBatch (items : List T)
deriving DecidableEq

/-- The position in the call of `try_push` or `try_pop`. In the loops an idle
position is the head of the loop; `pushBatch` has the items still to be pushed,
`popBatch` those popped so far. -/
inductive PC (T : Type*) where
  | idle
  | push (rpc : Ring.PC T)
  | pop (rpc : Ring.PC T)
  | pushBatch (pushed : ℕ) (items : List T) (rpc : Ring.PC T)
  | popBatch (maxCount : ℕ) (items : List T) (rpc : Ring.PC T)
deriving DecidableEq

section Program

variable {T : Type*} (Z : AdmittedSize) (moved : T → T)

def tryPush (o : Outcome (Mem T) (Ring.PC T) (Event T)) : Outcome (Mem T) (PC T) (Result T) :=
  match pushReturn o.event with
  | some ok => ⟨o.mem, .idle, some (.pushed ok)⟩
  | none => ⟨o.mem, .push o.pc, none⟩

def tryPop (o : Outcome (Mem T) (Ring.PC T) (Event T)) : Outcome (Mem T) (PC T) (Result T) :=
  match popReturn o.event with
  | some item => ⟨o.mem, .idle, some (.popped item)⟩
  | none => ⟨o.mem, .pop o.pc, none⟩

/-- The head of the loop of `try_push_batch`. -/
def callPush (m : Mem T) (pushed : ℕ) : List T → Outcome (Mem T) (PC T) (Result T)
  | [] => ⟨m, .idle, some (.pushedBatch pushed)⟩
  | item :: items =>
      ⟨m, .pushBatch pushed (item :: items) (Ring.start (.tryPush item)), none⟩

/-- `try_push_batch` goes on from a step of `try_push`. -/
def tryPushBatch (pushed : ℕ) (items : List T)
    (o : Outcome (Mem T) (Ring.PC T) (Event T)) : Outcome (Mem T) (PC T) (Result T) :=
  match pushReturn o.event with
  | some true => ⟨o.mem, .pushBatch (pushed + 1) items.tail .idle, none⟩
  | some false => ⟨o.mem, .idle, some (.pushedBatch pushed)⟩
  | none => ⟨o.mem, .pushBatch pushed items o.pc, none⟩

/-- The head of the loop of `try_pop_batch`. -/
def callPop (m : Mem T) (maxCount : ℕ) (items : List T) : Outcome (Mem T) (PC T) (Result T) :=
  if items.length < maxCount then
    ⟨m, .popBatch maxCount items (Ring.start .tryPop), none⟩
  else ⟨m, .idle, some (.poppedBatch items)⟩

/-- `try_pop_batch` goes on from a step of `try_pop`. -/
def tryPopBatch (maxCount : ℕ) (items : List T)
    (o : Outcome (Mem T) (Ring.PC T) (Event T)) : Outcome (Mem T) (PC T) (Result T) :=
  match popReturn o.event with
  | some (some item) => ⟨o.mem, .popBatch maxCount (items ++ [item]) .idle, none⟩
  | some none => ⟨o.mem, .idle, some (.poppedBatch items)⟩
  | none => ⟨o.mem, .popBatch maxCount items o.pc, none⟩

def start : Op T → PC T
  | .tryPush item => .push (Ring.start (.tryPush item))
  | .tryPop => .pop (Ring.start .tryPop)
  | .tryPushBatch items => .pushBatch 0 items .idle
  | .tryPopBatch maxCount => .popBatch maxCount [] .idle

/-- One step of the thread. A call starts only when it is not inside another. -/
def prog (m : Mem T) : PC T → Choice (Op T) → Outcome (Mem T) (PC T) (Result T)
  | .idle, .call op => ⟨m, start op, none⟩
  | pc, .call _ => ⟨m, pc, none⟩
  | .idle, _ => ⟨m, .idle, none⟩
  | .push rpc, ch => tryPush (Ring.prog Z moved m rpc ch.access)
  | .pop rpc, ch => tryPop (Ring.prog Z moved m rpc ch.access)
  | .pushBatch pushed items .idle, _ => callPush m pushed items
  | .pushBatch pushed items rpc, ch =>
      tryPushBatch pushed items (Ring.prog Z moved m rpc ch.access)
  | .popBatch maxCount items .idle, _ => callPop m maxCount items
  | .popBatch maxCount items rpc, ch =>
      tryPopBatch maxCount items (Ring.prog Z moved m rpc ch.access)

end Program

/-! ## The bounded queue -/

section Fifo

variable {T : Type*}

/-- What a call does to a list of at most `n` items, and what it returns. -/
def fifo (n : ℕ) (q : List T) : Op T → List T × Result T
  | .tryPush item =>
      if q.length < n then (q ++ [item], .pushed true) else (q, .pushed false)
  | .tryPop => (q.tail, .popped q.head?)
  | .tryPushBatch items =>
      (q ++ items.take (n - q.length), .pushedBatch (items.take (n - q.length)).length)
  | .tryPopBatch maxCount => (q.drop maxCount, .poppedBatch (q.take maxCount))

/-- How many items a call takes out. -/
def taken (q : List T) : Op T → ℕ
  | .tryPop => (q.take 1).length
  | .tryPopBatch maxCount => (q.take maxCount).length
  | _ => 0

end Fifo

/-! ## During a call -/

section Calls

variable {T : Type*}

/-- What holds during a call made with the items `q` in the ring, the oldest of which
has the number `b`. -/
def InCall (Z : AdmittedSize) (moved : T → T) (b : ℕ) (q : List T) (m : Mem T) :
    Op T → PC T → Prop
  | .tryPush item, .push rpc => ∃ pc, rpc = .push item pc ∧ Pushing Z b q item m pc
  | .tryPop, .pop rpc => ∃ pc, rpc = .pop pc ∧ Popping Z moved b q m pc
  | .tryPushBatch items, .pushBatch pushed rest rpc =>
      ∃ done, items = done ++ rest ∧ done.length = pushed
        ∧ ((rpc = .idle ∧ Stored Z m b (q ++ done))
          ∨ ∃ item rest' pc, rest = item :: rest' ∧ rpc = .push item pc
            ∧ Pushing Z b (q ++ done) item m pc)
  | .tryPopBatch maxCount, .popBatch maxCount' done rpc =>
      maxCount' = maxCount ∧ ∃ q', q = done ++ q'
        ∧ ((rpc = .idle ∧ done.length ≤ maxCount ∧ Stored Z m (b + done.length) q')
          ∨ ∃ pc, done.length < maxCount ∧ rpc = .pop pc
            ∧ Popping Z moved (b + done.length) q' m pc)
  | _, _ => False

/-- The items and the value a call leaves. -/
def Answers (Z : AdmittedSize) (b : ℕ) (q : List T) (op : Op T) (m : Mem T) (e : Result T) :
    Prop :=
  e = (fifo Z.size q op).2 ∧ Stored Z m (b + taken q op) (fifo Z.size q op).1

/-- How many steps a call has still to make, if none fails. -/
def PC.left : PC T → ℕ
  | .idle => 0
  | .push rpc => rpc.left
  | .pop rpc => rpc.left
  | .pushBatch _ items rpc => 7 * items.length + rpc.left
  | .popBatch maxCount items rpc => 7 * (maxCount - items.length) + rpc.left

theorem InCall.start {Z : AdmittedSize} {moved : T → T} {q : List T} {m : Mem T} {b : ℕ}
    (h : Stored Z m b q) (op : Op T) : InCall Z moved b q m op (start op) := by
  cases op with
  | tryPush item => exact ⟨_, rfl, h⟩
  | tryPop => exact ⟨_, rfl, h⟩
  | tryPushBatch items => exact ⟨[], rfl, rfl, Or.inl ⟨rfl, by rwa [List.append_nil]⟩⟩
  | tryPopBatch maxCount => exact ⟨rfl, q, rfl, Or.inl ⟨rfl, Nat.zero_le _, h⟩⟩

/-- The call goes on, a step nearer to its end unless a compare-exchange has failed,
or returns what the queue does. -/
def Goes (Z : AdmittedSize) (moved : T → T) (b : ℕ) (q : List T) (op : Op T) (k : ℕ)
    (spurious : Prop) (o : Outcome (Mem T) (PC T) (Result T)) : Prop :=
  Advances (fun m pc => InCall Z moved b q m op pc) (Answers Z b q op) PC.left .idle k spurious o

section Steps

variable {Z : PowSize} {moved : T → T} {q : List T} {m : Mem T} {b : ℕ}

theorem Goes.push {item : T} {pc : PushPC} (moved : T → T) (h : Pushing Z b q item m pc)
    (ch : Choice (Op T)) :
    Goes Z moved b q (.tryPush item) pc.left (ch ≠ .go)
      (tryPush (Ring.prog Z moved m (.push item pc) ch.access)) := by
  obtain ⟨spurious, ho, hgo⟩ := prog_push_access (↑Z) moved m item pc ch
  rw [ho]
  rcases h.step spurious with ⟨pc', hpc, hret, hpush, hleft⟩ | ⟨-, ⟨hlt, hret, hstored⟩ |
    ⟨hfull, hret, hstored⟩⟩
  · simp only [tryPush, hret, hpc]
    refine Or.inl ⟨⟨pc', rfl, hpush⟩, rfl, ?_⟩
    exact hgo.imp_left hleft
  · simp only [tryPush, hret]
    refine Or.inr ⟨rfl, _, rfl, ?_⟩
    simp only [Answers, fifo, if_pos hlt]
    exact ⟨trivial, hstored⟩
  · simp only [tryPush, hret]
    refine Or.inr ⟨rfl, _, rfl, ?_⟩
    simp only [Answers, fifo, if_neg (Nat.not_lt.mpr hfull.ge)]
    exact ⟨trivial, hstored⟩

theorem Goes.pop {pc : PopPC T} (h : Popping Z moved b q m pc) (ch : Choice (Op T)) :
    Goes Z moved b q .tryPop pc.left (ch ≠ .go)
      (tryPop (Ring.prog Z moved m (.pop pc) ch.access)) := by
  obtain ⟨spurious, ho, hgo⟩ := prog_pop_access (↑Z) moved m pc ch
  rw [ho]
  rcases h.step spurious with ⟨pc', hpc, hret, hpop, hleft⟩ | ⟨-, ⟨x, q', rfl, hret, hstored⟩ |
    ⟨rfl, hret, hstored⟩⟩
  · simp only [tryPop, hret, hpc]
    refine Or.inl ⟨⟨pc', rfl, hpop⟩, rfl, ?_⟩
    exact hgo.imp_left hleft
  · simp only [tryPop, hret]
    exact Or.inr ⟨rfl, _, rfl, rfl, hstored⟩
  · simp only [tryPop, hret]
    exact Or.inr ⟨rfl, _, rfl, rfl, hstored⟩

theorem Goes.callPush {done : List T} (moved : T → T) (rest : List T) (spurious : Prop)
    (h : Stored Z m b (q ++ done)) :
    Goes Z moved b q (.tryPushBatch (done ++ rest)) (7 * rest.length + 6) spurious
      (callPush m done.length rest) := by
  cases rest with
  | nil =>
      have hlen := h.length_le
      rw [List.length_append] at hlen
      refine Or.inr ⟨rfl, _, rfl, ?_⟩
      simp only [Answers, fifo, List.append_nil, List.take_of_length_le (show done.length ≤
        Z.size - q.length by omega)]
      exact ⟨trivial, h⟩
  | cons item rest =>
      refine Or.inl ⟨⟨done, rfl, rfl, Or.inr ⟨item, rest, _, rfl, rfl, h⟩⟩, rfl, Or.inl ?_⟩
      simp [Batch.callPush, PC.left, Ring.PC.left, Ring.start, PushPC.left]

theorem Goes.pushBatch {done : List T} {item : T} {pc : PushPC} (moved : T → T)
    (rest : List T) (h : Pushing Z b (q ++ done) item m pc) (ch : Choice (Op T)) :
    Goes Z moved b q (.tryPushBatch (done ++ item :: rest)) (7 * (rest.length + 1) + pc.left)
      (ch ≠ .go) (tryPushBatch done.length (item :: rest)
        (Ring.prog Z moved m (.push item pc) ch.access)) := by
  obtain ⟨spurious, ho, hgo⟩ := prog_push_access (↑Z) moved m item pc ch
  rw [ho]
  rcases h.step spurious with ⟨pc', hpc, hret, hpush, hleft⟩ | ⟨-, ⟨hlt, hret, hstored⟩ |
    ⟨hfull, hret, hstored⟩⟩
  · simp only [tryPushBatch, hret, hpc]
    refine Or.inl ⟨⟨done, rfl, rfl, Or.inr ⟨item, rest, pc', rfl, rfl, hpush⟩⟩, rfl, ?_⟩
    exact hgo.imp_left fun hgo => Nat.add_lt_add_left (hleft hgo) _
  · simp only [tryPushBatch, hret, List.tail_cons]
    refine Or.inl ⟨⟨done ++ [item], by simp, by simp, Or.inl ⟨rfl, ?_⟩⟩, rfl, Or.inl ?_⟩
    · rwa [← List.append_assoc]
    · simp only [PC.left, Ring.PC.left]
      omega
  · simp only [tryPushBatch, hret]
    refine Or.inr ⟨rfl, _, rfl, ?_⟩
    rw [List.length_append] at hfull
    simp only [Answers, fifo, List.take_left' (show done.length = Z.size - q.length by omega)]
    exact ⟨trivial, hstored⟩

theorem Goes.callPop {done q' : List T} {maxCount : ℕ} (moved : T → T) (spurious : Prop)
    (hle : done.length ≤ maxCount) (h : Stored Z m (b + done.length) q') :
    Goes Z moved b (done ++ q') (.tryPopBatch maxCount) (7 * (maxCount - done.length) + 6)
      spurious (callPop m maxCount done) := by
  unfold Batch.callPop
  split_ifs with hlt
  · refine Or.inl ⟨⟨rfl, q', rfl, Or.inr ⟨_, hlt, rfl, h⟩⟩, rfl, Or.inl ?_⟩
    simp [PC.left, Ring.PC.left, Ring.start, PopPC.left]
  · refine Or.inr ⟨rfl, _, rfl, ?_⟩
    have hlen : done.length = maxCount := by omega
    simp only [Answers, fifo, taken, List.take_left' hlen, List.drop_left' hlen]
    exact ⟨trivial, h⟩

theorem Goes.popBatch {done q' : List T} {maxCount : ℕ} {pc : PopPC T}
    (hlt : done.length < maxCount) (h : Popping Z moved (b + done.length) q' m pc)
    (ch : Choice (Op T)) :
    Goes Z moved b (done ++ q') (.tryPopBatch maxCount) (7 * (maxCount - done.length) + pc.left)
      (ch ≠ .go) (tryPopBatch maxCount done (Ring.prog Z moved m (.pop pc) ch.access)) := by
  obtain ⟨spurious, ho, hgo⟩ := prog_pop_access (↑Z) moved m pc ch
  rw [ho]
  rcases h.step spurious with ⟨pc', hpc, hret, hpop, hleft⟩ | ⟨-, ⟨x, q', rfl, hret, hstored⟩ |
    ⟨rfl, hret, hstored⟩⟩
  · simp only [tryPopBatch, hret, hpc]
    refine Or.inl ⟨⟨rfl, q', rfl, Or.inr ⟨pc', hlt, rfl, hpop⟩⟩, rfl, ?_⟩
    exact hgo.imp_left fun hgo => Nat.add_lt_add_left (hleft hgo) _
  · simp only [tryPopBatch, hret]
    have hlen : (done ++ [x]).length = done.length + 1 := by simp
    refine Or.inl ⟨⟨rfl, q', by simp, Or.inl ⟨rfl, ?_, ?_⟩⟩, rfl, Or.inl ?_⟩
    · rw [hlen]
      exact hlt
    · rw [hlen]
      exact hstored
    · simp only [PC.left, Ring.PC.left, hlen]
      omega
  · simp only [tryPopBatch, hret]
    refine Or.inr ⟨rfl, _, rfl, ?_⟩
    simp only [Answers, fifo, taken, List.append_nil, List.take_of_length_le hlt.le,
      List.drop_of_length_le hlt.le]
    exact ⟨trivial, hstored⟩

/-- One step of a call. -/
theorem InCall.step {op : Op T} {pc : PC T} (h : InCall Z moved b q m op pc)
    {ch : Choice (Op T)} (hch : ∀ op, ch ≠ .call op) :
    Goes Z moved b q op pc.left (ch ≠ .go) (prog Z moved m pc ch) := by
  have hch := Choice.go_or_fault hch
  cases op with
  | tryPush item =>
      cases pc with
      | push rpc =>
          obtain ⟨pc, rfl, h⟩ := h
          have hgoes := Goes.push moved h ch
          rcases hch with rfl | rfl <;> exact hgoes
      | _ => exact h.elim
  | tryPop =>
      cases pc with
      | pop rpc =>
          obtain ⟨pc, rfl, h⟩ := h
          have hgoes := Goes.pop h ch
          rcases hch with rfl | rfl <;> exact hgoes
      | _ => exact h.elim
  | tryPushBatch items =>
      cases pc with
      | pushBatch pushed rest rpc =>
          obtain ⟨done, rfl, rfl, ⟨rfl, h⟩ | ⟨item, rest, pc, rfl, rfl, h⟩⟩ := h
          · have hgoes := Goes.callPush moved rest (ch ≠ .go) h
            rcases hch with rfl | rfl <;> exact hgoes
          · have hgoes := Goes.pushBatch moved rest h ch
            rcases hch with rfl | rfl <;> exact hgoes
      | _ => exact h.elim
  | tryPopBatch maxCount =>
      cases pc with
      | popBatch maxCount' done rpc =>
          obtain ⟨rfl, q', rfl, ⟨rfl, hle, h⟩ | ⟨pc, hlt, rfl, h⟩⟩ := h
          · have hgoes := Goes.callPop moved (ch ≠ .go) hle h
            rcases hch with rfl | rfl <;> exact hgoes
          · have hgoes := Goes.popBatch hlt h ch
            rcases hch with rfl | rfl <;> exact hgoes
      | _ => exact h.elim

end Steps

/-- A call that has ended has done what the queue does. -/
theorem answers_of_ends {Z : PowSize} {moved : T → T} {b : ℕ} {q : List T} {m m' : Mem T}
    {op : Op T} {evs : List (Result T)} (h : Stored Z m b q)
    (hrun : Ends (prog Z moved) .idle m (start op) m' evs) :
    Stored Z m' (b + taken q op) (fifo Z.size q op).1 ∧ evs = [(fifo Z.size q op).2] := by
  have hidle : ∀ m, ¬ InCall Z moved b q m op .idle := by
    intro m hcall
    cases op <;> exact hcall
  obtain ⟨e, rfl, rfl, hstored⟩ := Ends.of_advances PC.left
    (fun m pc ch (hcall : InCall Z moved b q m op pc) hch => hcall.step hch) hidle hrun
    (.start h op)
  exact ⟨hstored, rfl⟩

theorem returns {Z : PowSize} (moved : T → T) {q : List T} {m : Mem T} {b : ℕ}
    (h : Stored Z m b q) (op : Op T) : Returns (prog Z moved) .idle m (start op) := by
  refine Returns.of_advances PC.left
    (fun m pc ch (hcall : InCall Z moved b q m op pc) hch => hcall.step hch) (fun m ch hch => ?_)
    (.start h op)
  rcases Choice.go_or_fault hch with rfl | rfl <;> rfl

/-- No item is stored, and both counters are at the base `b`. -/
structure EmptyAt (Z : AdmittedSize) (b : ℕ) (m : Mem T) : Prop where
  head_eq : m.head = b
  tail_eq : m.tail = b
  sequences_eq : ∀ j, j < Z.size → m.sequences ((b + j) % Z.size) = wrap 64 (b + j)

theorem EmptyAt.stored {Z : AdmittedSize} {b : ℕ} {m : Mem T} (h : EmptyAt Z b m)
    (hb : b < 2 ^ 64) : Stored Z m b [] where
  tail_eq := by rw [h.tail_eq, wrap_of_lt hb]
  head_eq := by rw [h.head_eq, List.length_nil, Nat.add_zero, wrap_of_lt hb]
  length_le := Nat.zero_le _
  items := fun hj => by cases hj
  vacant := fun _ hj => by
    rw [Z.index_eq_mod]
    exact h.sequences_eq _ hj

/-- Whatever the base, calls one after another return what those of a queue of
capacity `Size` do, and every call returns. -/
theorem wraparound_invisible (Z : PowSize) (moved : T → T) {b : ℕ} (hb : b < 2 ^ 64)
    {m₀ : Mem T} (h₀ : EmptyAt Z b m₀) {m : Mem T} {L : List (Call (Mem T) (Op T) (Result T))}
    (hlog : CallLog (Ends (prog Z moved) .idle) start m₀ m L) :
    L.map (·.events) = (answers (fifo Z.size) [] (L.map (·.op))).map (fun r => [r])
      ∧ ∀ op, Returns (prog Z moved) .idle m (start op) := by
  obtain ⟨⟨b', hstored⟩, hevents⟩ := hlog.refines (fifo Z.size)
    (fun m q => ∃ b, Stored Z m b q) id (fun r => [r])
    (fun ⟨_, h⟩ hrun => ⟨⟨_, (answers_of_ends h hrun).1⟩, (answers_of_ends h hrun).2⟩)
    ⟨b, h₀.stored hb⟩
  exact ⟨hevents, returns moved hstored⟩

/-- Two cells, with the counters at the last 64-bit value. -/
def lastWord : Mem ℕ where
  sequences := fun i => if i = 1 then uint64Max else 0
  buffer := fun _ => 0
  head := uint64Max
  tail := uint64Max

theorem wraparound_invisible_lastWord :
    ∃ m L, CallLog (Ends (prog twoCells id) .idle) start lastWord m L
      ∧ L.map (·.op) = [.tryPushBatch [5, 6, 7], .tryPush 8, .tryPop, .tryPopBatch 9]
      ∧ L.map (·.events) = [[.pushedBatch 2], [.pushed false], [.popped (some 5)],
        [.poppedBatch [6]]] := by
  have hempty : EmptyAt twoCells uint64Max lastWord := by
    refine ⟨rfl, rfl, fun j hj => ?_⟩
    change j < 2 at hj
    interval_cases j <;> decide
  have hlog := fun {m L} => wraparound_invisible twoCells id (by decide) hempty (m := m) (L := L)
  obtain ⟨m, L, h, hops⟩ := exists_callLog (fun m L h op => ((hlog h).2 op).ends)
    [.tryPushBatch [5, 6, 7], .tryPush 8, .tryPop, .tryPopBatch 9]
  refine ⟨m, L, h, hops, ?_⟩
  rw [(hlog h).1, hops]
  rfl

end Calls

end Batch

end Ring

end Lockless
