import Lockless.StackLifo

/-!
# The object pool

`LockFreeObjectPool<T>` of `object_pool.hpp`: objects are the cells of an
array, and the indices of the free ones lie on an array stack of the same
capacity. `acquire` pops an index, `release` pushes one and ignores whether
that succeeded.

Between its own checks and the bookkeeping of its client, a thread of the
pool runs the program of the stack. `request` is what it asks of the stack
at a step, the code of the pool in front of the call to the stack included,
and `prog` continues from the answer. Hence a run of the pool is, step by
step, a run of the stack (`run_stack`).

The constructor pushes the indices `0 .. capacity - 1` in the thread `main`,
and the pool is available to clients once it has returned. A pointer is the
offset of the object in the array, null apart. Each client keeps the list of
objects it holds: those `acquire` has returned to it and it has not passed to
`release`.
-/

namespace Lockless

namespace Pool

structure Mem where
  freeIndices : Stack.Mem ℕ
  built : Bool

/-- A thread in iteration `i` of the constructor's loop, or a client with the
objects it holds, each with its position in the stack's program; or `main`
after the constructor has thrown. -/
inductive PC where
  | build (i : ℕ) (stk : Stack.PC ℕ)
  | client (held : List ℕ) (stk : Stack.PC ℕ)
  | threw
deriving DecidableEq

def PC.stk : PC → Stack.PC ℕ
  | .build _ stk => stk
  | .client _ stk => stk
  | .threw => .idle

inductive Op where
  | acquire
  | release (ptr : Option ℤ)
deriving DecidableEq

/-- What a call of the pool ends with. `dropped` is a `release` whose push
onto the stack has failed. -/
inductive Event where
  | acquired (index : ℕ)
  | acquireNull
  | released (index : ℕ)
  | dropped (index : ℕ)
  | threw
deriving DecidableEq

section Program

variable (capacity : ℕ)

/-- The checks of `release`: the index it pushes, if it gets that far. -/
def releaseIndex : Option ℤ → Option ℕ
  | none => none
  | some offset =>
      if offset < 0 ∨ capacity ≤ offset.toNat then none else some (wrap 32 offset.toNat)

/-- What a thread asks of the stack. `go` at an idle thread asks for nothing,
and neither does a call at a busy one. -/
def request (built : Bool) : PC → Choice Op → Choice (Stack.Call ℕ)
  | .build i .idle, _ => if i < capacity then .call (.push i) else .go
  | .client _ .idle, .call .acquire => if built then .call .pop else .go
  | .client _ .idle, .call (.release ptr) =>
      if built then
        match releaseIndex capacity ptr with
        | none => .go
        | some index => .call (.push index)
      else .go
  | .client _ .idle, _ => .go
  | .threw, _ => .go
  | _, .call _ => .call .pop
  | _, .go => .go
  | _, .fault => .fault

/-- What the stack's answer means to a client. -/
def answer : Stack.Event ℕ → Option Event
  | .give _ index => some (.acquired index)
  | .refuse .pop => some .acquireNull
  | .link _ index => some (.released index)
  | .refuse (.push index) => some (.dropped index)
  | _ => none

/-- A client gives up an object when it passes it to `release`. -/
def giveUp (held : List ℕ) : Choice (Stack.Call ℕ) → List ℕ
  | .call (.push index) => held.erase index
  | _ => held

/-- It holds one more when `acquire` returns it. -/
def settle (held : List ℕ) : Option (Stack.Event ℕ) → List ℕ
  | some (.give _ index) => index :: held
  | _ => held

def prog (m : Mem) (pc : PC) (ch : Choice Op) : Outcome Mem PC Event :=
  let asked := request capacity m.built pc ch
  let o := Stack.prog id m.freeIndices pc.stk asked
  match pc with
  | .build i stk =>
      if stk = .idle ∧ ¬ i < capacity then ⟨⟨o.mem, true⟩, .client [] o.pc, none⟩
      else match o.event with
        | some (.link _ _) => ⟨⟨o.mem, m.built⟩, .build (wrap 32 (i + 1)) o.pc, none⟩
        | some (.refuse _) => ⟨⟨o.mem, m.built⟩, .threw, some .threw⟩
        | _ => ⟨⟨o.mem, m.built⟩, .build i o.pc, none⟩
  | .client held _ =>
      ⟨⟨o.mem, m.built⟩, .client (settle (giveUp held asked) o.event) o.pc,
        o.event.bind answer⟩
  | .threw => ⟨⟨o.mem, m.built⟩, .threw, none⟩

def system {ι : Type*} [DecidableEq ι] (main : ι) (data : ℕ → ℕ) :
    System ι Mem PC (Choice Op) Event where
  init := ⟨⟨Stack.initMem capacity data, false⟩,
    fun p => if p = main then .build 0 .idle else .client [] .idle⟩
  prog := prog capacity

end Program

/-! ## What one step can do -/

/-- The steps of a thread, with the event of the stack inside: those of the
pool's own code, and the accesses of a call to the stack in progress. -/
inductive Effect (capacity : ℕ) (m : Mem) (ch : Choice Op) :
    PC → Mem → PC → Option (Stack.Event ℕ) → Option Event → Prop
  | next (i) (hi : i < capacity) :
      Effect capacity m ch (.build i .idle) m (.build i (.popLoad (.push i))) none none
  | finish (i) (hi : ¬ i < capacity) :
      Effect capacity m ch (.build i .idle) ⟨m.freeIndices, true⟩ (.client [] .idle)
        none none
  | buildAccess (i stk m' stk' ev) (hbusy : stk ≠ .idle)
      (he : Stack.Effect id m.freeIndices stk m' stk' ev)
      (hlink : ∀ node value, ev ≠ some (.link node value))
      (hrefuse : ∀ call, ev ≠ some (.refuse call)) :
      Effect capacity m ch (.build i stk) ⟨m', m.built⟩ (.build i stk') ev none
  | buildLink (i stk m' stk' node value) (hbusy : stk ≠ .idle)
      (he : Stack.Effect id m.freeIndices stk m' stk' (some (.link node value))) :
      Effect capacity m ch (.build i stk) ⟨m', m.built⟩ (.build (wrap 32 (i + 1)) stk')
        (some (.link node value)) none
  | buildRefuse (i stk m' stk' call) (hbusy : stk ≠ .idle)
      (he : Stack.Effect id m.freeIndices stk m' stk' (some (.refuse call))) :
      Effect capacity m ch (.build i stk) ⟨m', m.built⟩ .threw
        (some (.refuse call)) (some .threw)
  | rest (held) :
      Effect capacity m ch (.client held .idle) m (.client held .idle) none none
  | acquire (held) (hbuilt : m.built = true) :
      Effect capacity m ch (.client held .idle) m (.client held (.popLoad .pop)) none none
  | release (held ptr index) (hbuilt : m.built = true) (hch : ch = .call (.release ptr))
      (hptr : releaseIndex capacity ptr = some index) :
      Effect capacity m ch (.client held .idle) m
        (.client (held.erase index) (.popLoad (.push index))) none none
  | access (held stk m' stk' ev) (hbusy : stk ≠ .idle)
      (he : Stack.Effect id m.freeIndices stk m' stk' ev) :
      Effect capacity m ch (.client held stk) ⟨m', m.built⟩
        (.client (settle held ev) stk') ev (ev.bind answer)
  | threw : Effect capacity m ch .threw m .threw none none

section Inversion

variable {capacity : ℕ}

theorem giveUp_request {built : Bool} {held held' : List ℕ} {stk : Stack.PC ℕ}
    {ch : Choice Op} (hbusy : stk ≠ .idle) :
    giveUp held (request capacity built (.client held' stk) ch) = held := by
  cases stk <;> first | exact absurd rfl hbusy | (cases ch <;> rfl)

/-- What an idle client asks of the stack. -/
theorem request_idle (capacity : ℕ) (built : Bool) (held : List ℕ) (ch : Choice Op) :
    request capacity built (.client held .idle) ch = .go
      ∨ (built = true ∧ request capacity built (.client held .idle) ch = .call .pop)
      ∨ ∃ ptr index, built = true ∧ ch = .call (.release ptr)
        ∧ releaseIndex capacity ptr = some index
        ∧ request capacity built (.client held .idle) ch = .call (.push index) := by
  cases ch with
  | go => exact Or.inl rfl
  | fault => exact Or.inl rfl
  | call op =>
      cases built with
      | false => cases op <;> exact Or.inl rfl
      | true =>
          cases op with
          | acquire => exact Or.inr (Or.inl ⟨rfl, rfl⟩)
          | release ptr =>
              cases hptr : releaseIndex capacity ptr with
              | none => exact Or.inl (by simp [request, hptr])
              | some index =>
                  exact Or.inr (Or.inr ⟨ptr, index, rfl, rfl, hptr, by simp [request, hptr]⟩)

theorem build_effect (m : Mem) (i : ℕ) (stk : Stack.PC ℕ) (ch : Choice Op) :
    Effect capacity m ch (.build i stk) (prog capacity m (.build i stk) ch).mem
      (prog capacity m (.build i stk) ch).pc
      (Stack.prog id m.freeIndices stk
        (request capacity m.built (.build i stk) ch)).event
      (prog capacity m (.build i stk) ch).event := by
  by_cases hidle : stk = .idle
  · subst hidle
    by_cases hi : i < capacity
    · have he : Effect capacity m ch _ _ _ _ _ := .next i hi
      simpa [prog, request, hi, PC.stk, Stack.prog] using he
    · have he : Effect capacity m ch _ _ _ _ _ := .finish i hi
      simpa [prog, request, hi, PC.stk, Stack.prog, Stack.access] using he
  · have he : Stack.Effect id _ _ _ _ _ := Stack.prog_effect m.freeIndices stk
      (request capacity m.built (.build i stk) ch)
    simp only [prog, hidle, false_and, if_false, PC.stk]
    generalize Stack.prog id m.freeIndices stk
      (request capacity m.built (.build i stk) ch) = o at he
    obtain ⟨m', stk', ev⟩ := o
    dsimp only at he ⊢
    split
    · exact .buildLink i stk m' stk' _ _ hidle he
    · exact .buildRefuse i stk m' stk' _ hidle he
    · next hlink hrefuse => exact .buildAccess i stk m' stk' ev hidle he hlink hrefuse

theorem client_effect (m : Mem) (held : List ℕ) (stk : Stack.PC ℕ) (ch : Choice Op) :
    Effect capacity m ch (.client held stk) (prog capacity m (.client held stk) ch).mem
      (prog capacity m (.client held stk) ch).pc
      (Stack.prog id m.freeIndices stk
        (request capacity m.built (.client held stk) ch)).event
      (prog capacity m (.client held stk) ch).event := by
  by_cases hidle : stk = .idle
  · subst hidle
    rcases request_idle capacity m.built held ch with
      hreq | ⟨hbuilt, hreq⟩ | ⟨ptr, index, hbuilt, hch, hptr, hreq⟩ <;>
      simp only [prog, hreq, PC.stk]
    · exact .rest held
    · exact .acquire held hbuilt
    · exact .release held ptr index hbuilt hch hptr
  · have he : Stack.Effect id _ _ _ _ _ := Stack.prog_effect m.freeIndices stk
      (request capacity m.built (.client held stk) ch)
    simp only [prog, giveUp_request hidle, PC.stk]
    exact .access held stk _ _ _ hidle he

theorem prog_effect (m : Mem) (pc : PC) (ch : Choice Op) :
    Effect capacity m ch pc (prog capacity m pc ch).mem (prog capacity m pc ch).pc
      (Stack.prog id m.freeIndices pc.stk (request capacity m.built pc ch)).event
      (prog capacity m pc ch).event := by
  cases pc with
  | build i stk => exact build_effect m i stk ch
  | client held stk => exact client_effect m held stk ch
  | threw => exact .threw

end Inversion

/-! ## Runs of the stack -/

section Projection

variable {ι : Type*} {capacity : ℕ}

/-- The stack inside a configuration of the pool. -/
def stackOf (c : Config ι Mem PC) : Config ι (Stack.Mem ℕ) (Stack.PC ℕ) :=
  ⟨c.mem.freeIndices, fun p => (c.pc p).stk⟩

theorem prog_freeIndices (m : Mem) (pc : PC) (ch : Choice Op) :
    (prog capacity m pc ch).mem.freeIndices
      = (Stack.prog id m.freeIndices pc.stk (request capacity m.built pc ch)).mem := by
  cases pc with
  | build i stk =>
      simp only [prog]
      split_ifs
      · rfl
      · split <;> rfl
  | client held stk => rfl
  | threw => rfl

theorem prog_stk (m : Mem) (pc : PC) (ch : Choice Op) :
    (prog capacity m pc ch).pc.stk
      = (Stack.prog id m.freeIndices pc.stk (request capacity m.built pc ch)).pc := by
  cases pc with
  | build i stk =>
      simp only [prog]
      split_ifs
      · rfl
      · split
        · rfl
        · next e heq =>
            have he : Stack.Effect id _ _ _ _ _ := Stack.prog_effect m.freeIndices stk
              (request capacity m.built (.build i stk) ch)
            exact (heq ▸ he).of_refuse.2.1.symm
        · rfl
  | client held stk => rfl
  | threw => rfl

/-- The step of the stack inside a step of the pool. -/
def stackChoice (capacity : ℕ) (c : Config ι Mem PC) (a : ι × Choice Op) :
    ι × Choice (Stack.Call ℕ) :=
  (a.1, request capacity c.mem.built (c.pc a.1) a.2)

variable [DecidableEq ι] (main : ι) (data : ℕ → ℕ) (sched : ℕ → ι × Choice Op)

/-- The schedule a run of the pool drives its stack with. -/
def stackSched (capacity : ℕ) (i : ℕ) : ι × Choice (Stack.Call ℕ) :=
  stackChoice capacity ((system capacity main data).run sched i) (sched i)

/-- A run of the pool is a run of its stack. -/
theorem run_stack (n : ℕ) :
    stackOf ((system capacity main data).run sched n)
      = (Stack.system id ι capacity data).run (stackSched main data sched capacity) n := by
  refine (system capacity main data).run_project (ψ := Mem.freeIndices) (φ := PC.stk)
    (g := fun m pc ch => request capacity m.built pc ch) ?_ ?_ ?_ sched n
  · refine Config.ext rfl (funext fun p => ?_)
    simp only [System.project, system]
    split_ifs <;> rfl
  · exact prog_freeIndices
  · exact prog_stk

end Projection

end Pool

end Lockless
