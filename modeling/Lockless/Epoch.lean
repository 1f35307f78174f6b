import Lockless.Interleave
import Lockless.Word

/-!
# The epoch reclaimer

`EpochReclaimer` of `epoch_reclaimer.hpp`: a thread inside a critical section
publishes the global epoch it has read in a slot of its own, retired objects
go into the retire list of the epoch read by `retire`, modulo three, and
every `retire` tries to advance the global epoch. An advance needs all
published epochs to equal the current one; the thread that performs it then
empties the retire list of the new epoch's index and runs the deleters.

Each atomic access, each access to an `in_use` flag, each access to a retire
list under its mutex and each call of a deleter is one step. So nobody waits
for a mutex here, which makes no difference to what the calls do; `lockingSystem`
has the locks and the unlocks as steps of their own. The two overloads of
`retire` differ in the deleter only, so a retired object stands here for the
pointer together with its deleter. Slots are addressed by `Fin`:
`enter_critical` and `leave_critical` do not check their argument, and with
one out of range the source has no meaning.
-/

namespace Lockless

namespace Epoch

/-- `MAX_THREADS`. -/
abbrev maxThreads : ℕ := 64

instance : NeZero maxThreads := ⟨by decide⟩

/-- `UINT64_MAX`, the epoch of a slot that is not active. -/
def inactive : ℕ := 2 ^ 64 - 1

/-- The fields of the class; a slot by its two members, and `NUM_EPOCHS = 3`
retire lists. -/
structure Mem (X : Type*) where
  globalEpoch : ℕ
  localEpoch : Fin maxThreads → ℕ
  inUse : Fin maxThreads → Bool
  retireLists : Fin 3 → List X

def Mem.setEpoch {X : Type*} (m : Mem X) (tid : Fin maxThreads) (epoch : ℕ) : Mem X :=
  { m with localEpoch := Function.update m.localEpoch tid epoch }

def Mem.setUse {X : Type*} (m : Mem X) (tid : Fin maxThreads) (b : Bool) : Mem X :=
  { m with inUse := Function.update m.inUse tid b }

def Mem.setList {X : Type*} (m : Mem X) (i : Fin 3) (L : List X) : Mem X :=
  { m with retireLists := Function.update m.retireLists i L }

theorem Mem.setEpoch_self {X : Type*} (m : Mem X) (tid : Fin maxThreads) (epoch : ℕ) :
    (m.setEpoch tid epoch).localEpoch tid = epoch := by
  simp [setEpoch]

theorem Mem.setEpoch_of_ne {X : Type*} (m : Mem X) {tid t : Fin maxThreads} (h : t ≠ tid)
    (epoch : ℕ) : (m.setEpoch tid epoch).localEpoch t = m.localEpoch t := by
  simp [setEpoch, Function.update_of_ne h]

theorem Mem.setList_self {X : Type*} (m : Mem X) (i : Fin 3) (L : List X) :
    (m.setList i L).retireLists i = L := by
  simp [setList]

theorem Mem.setList_of_ne {X : Type*} (m : Mem X) {i j : Fin 3} (h : j ≠ i) (L : List X) :
    (m.setList i L).retireLists j = m.retireLists j := by
  simp [setList, Function.update_of_ne h]

/-- `epoch % NUM_EPOCHS`. -/
def listIndex (epoch : ℕ) : Fin 3 := Fin.ofNat 3 epoch

/-- The access a thread performs next, with its locals. The cases are those
of `register_thread`, `unregister_thread`, `enter_critical`,
`leave_critical`, `retire` and, from `advLoad` on, `try_advance`. -/
inductive PC (X : Type*) where
  | idle
  | regTest (i : Fin maxThreads)
  | regClaim (i : Fin maxThreads)
  | regStore (i : Fin maxThreads)
  | unregStore (tid : Fin maxThreads)
  | unregClear (tid : Fin maxThreads)
  | enterLoad (tid : Fin maxThreads)
  | enterStore (tid : Fin maxThreads) (epoch : ℕ)
  | leaveStore (tid : Fin maxThreads)
  | retireLoad (x : X)
  | retireAppend (x : X) (epoch : ℕ)
  | advLoad
  | scanUse (current : ℕ) (i : Fin maxThreads)
  | scanEpoch (current : ℕ) (i : Fin maxThreads)
  | cas (current : ℕ)
  | swap (newEpoch : ℕ)
  | free (toFree : List X)
deriving DecidableEq

inductive Op (X : Type*) where
  | registerThread
  | unregisterThread (tid : ℤ)
  | enterCritical (tid : Fin maxThreads)
  | leaveCritical (tid : Fin maxThreads)
  | retire (x : X)
deriving DecidableEq

/-- The observable steps: what `register_thread` returns, the stores that
open and close a critical section, the call of `retire` and its append, the
advance of the global epoch, and the call of a deleter. -/
inductive Event (X : Type*) where
  | registered (tid : Fin maxThreads)
  | noSlot
  | entered (tid : Fin maxThreads)
  | left (tid : Fin maxThreads)
  | retiring (x : X)
  | appended (x : X) (epoch : ℕ)
  | advanced (newEpoch : ℕ)
  | deleted (x : X)
deriving DecidableEq

section Program

variable {X : Type*}

/-- The next iteration of the loop of `try_advance`, or what follows it. -/
def scanNext (current : ℕ) (i : Fin maxThreads) : PC X :=
  if h : i.val + 1 < maxThreads then .scanUse current ⟨i.val + 1, h⟩ else .cas current

def access (m : Mem X) : PC X → Outcome (Mem X) (PC X) (Event X)
  | .idle => ⟨m, .idle, none⟩
  | .regTest i =>
      if m.inUse i then
        if h : i.val + 1 < maxThreads then ⟨m, .regTest ⟨i.val + 1, h⟩, none⟩
        else ⟨m, .idle, some .noSlot⟩
      else ⟨m, .regClaim i, none⟩
  | .regClaim i => ⟨m.setUse i true, .regStore i, none⟩
  | .regStore i => ⟨m.setEpoch i inactive, .idle, some (.registered i)⟩
  | .unregStore tid => ⟨m.setEpoch tid inactive, .unregClear tid, none⟩
  | .unregClear tid => ⟨m.setUse tid false, .idle, none⟩
  | .enterLoad tid => ⟨m, .enterStore tid m.globalEpoch, none⟩
  | .enterStore tid epoch => ⟨m.setEpoch tid epoch, .idle, some (.entered tid)⟩
  | .leaveStore tid => ⟨m.setEpoch tid inactive, .idle, some (.left tid)⟩
  | .retireLoad x => ⟨m, .retireAppend x m.globalEpoch, none⟩
  | .retireAppend x epoch =>
      ⟨m.setList (listIndex epoch) (m.retireLists (listIndex epoch) ++ [x]), .advLoad,
        some (.appended x epoch)⟩
  | .advLoad => ⟨m, .scanUse m.globalEpoch 0, none⟩
  | .scanUse current i =>
      if m.inUse i then ⟨m, .scanEpoch current i, none⟩
      else ⟨m, scanNext current i, none⟩
  | .scanEpoch current i =>
      if m.localEpoch i ≠ inactive ∧ m.localEpoch i ≠ current then ⟨m, .idle, none⟩
      else ⟨m, scanNext current i, none⟩
  | .cas current =>
      if m.globalEpoch = current then
        ⟨{ m with globalEpoch := wrap 64 (current + 1) }, .swap (wrap 64 (current + 1)),
          some (.advanced (wrap 64 (current + 1)))⟩
      else ⟨m, .idle, none⟩
  | .swap newEpoch =>
      ⟨m.setList (listIndex newEpoch) [], .free (m.retireLists (listIndex newEpoch)), none⟩
  | .free [] => ⟨m, .idle, none⟩
  | .free (x :: rest) => ⟨m, .free rest, some (.deleted x)⟩

/-- The start of a call; `unregister_thread` returns at once if its argument
is out of range. -/
def start : Op X → PC X
  | .registerThread => .regTest 0
  | .unregisterThread tid =>
      if h : 0 ≤ tid ∧ tid.toNat < maxThreads then .unregStore ⟨tid.toNat, h.2⟩ else .idle
  | .enterCritical tid => .enterLoad tid
  | .leaveCritical tid => .leaveStore tid
  | .retire x => .retireLoad x

def began : Op X → Option (Event X)
  | .retire x => some (.retiring x)
  | _ => none

theorem start_unregister (tid : ℤ) : start (.unregisterThread tid) = (.idle : PC X)
    ∨ ∃ t, start (.unregisterThread tid) = (.unregStore t : PC X) := by
  simp only [start]
  split_ifs with h
  · exact Or.inr ⟨_, rfl⟩
  · exact Or.inl rfl

/-- One step of one thread. There is no adverse outcome here. -/
def prog (m : Mem X) : PC X → Choice (Op X) → Outcome (Mem X) (PC X) (Event X)
  | .idle, .call op => ⟨m, start op, began op⟩
  | pc, .go => access m pc
  | pc, _ => ⟨m, pc, none⟩

/-- The calls of the destructor, in order. -/
def destroy (m : Mem X) : List X := (List.finRange 3).flatMap m.retireLists

/-- A reclaimer in which the threads that use slots have registered: the
slots in `inUse` are taken, and none is active. With `inUse` false everywhere
it is the constructor's state. -/
def system (ι : Type*) (inUse : Fin maxThreads → Bool) :
    System ι (Mem X) (PC X) (Choice (Op X)) (Event X) where
  init := ⟨⟨0, fun _ => inactive, inUse, fun _ => []⟩, fun _ => .idle⟩
  prog := prog

end Program

/-! ## What one step can do -/

/-- The steps of a thread, one constructor per access and branch outcome. -/
inductive Effect {X : Type*} (m : Mem X) :
    PC X → Mem X → PC X → Option (Event X) → Prop
  | stay (pc) : Effect m pc m pc none
  | start (op) : Effect m .idle m (start op) (began op)
  | regNext (i) (h : i.val + 1 < maxThreads) :
      Effect m (.regTest i) m (.regTest ⟨i.val + 1, h⟩) none
  | regFull (i) : Effect m (.regTest i) m .idle (some .noSlot)
  | regFound (i) (h : m.inUse i = false) : Effect m (.regTest i) m (.regClaim i) none
  | regClaim (i) : Effect m (.regClaim i) (m.setUse i true) (.regStore i) none
  | regStore (i) :
      Effect m (.regStore i) (m.setEpoch i inactive) .idle (some (.registered i))
  | unregStore (tid) :
      Effect m (.unregStore tid) (m.setEpoch tid inactive) (.unregClear tid) none
  | unregClear (tid) : Effect m (.unregClear tid) (m.setUse tid false) .idle none
  | enterLoad (tid) :
      Effect m (.enterLoad tid) m (.enterStore tid m.globalEpoch) none
  | enterStore (tid epoch) :
      Effect m (.enterStore tid epoch) (m.setEpoch tid epoch) .idle (some (.entered tid))
  | leaveStore (tid) :
      Effect m (.leaveStore tid) (m.setEpoch tid inactive) .idle (some (.left tid))
  | retireLoad (x) : Effect m (.retireLoad x) m (.retireAppend x m.globalEpoch) none
  | retireAppend (x epoch) :
      Effect m (.retireAppend x epoch)
        (m.setList (listIndex epoch) (m.retireLists (listIndex epoch) ++ [x])) .advLoad
        (some (.appended x epoch))
  | advLoad : Effect m .advLoad m (.scanUse m.globalEpoch 0) none
  | scanUsed (current i) (h : m.inUse i = true) :
      Effect m (.scanUse current i) m (.scanEpoch current i) none
  | scanUnused (current i) (h : m.inUse i = false) :
      Effect m (.scanUse current i) m (scanNext current i) none
  | scanOld (current i) (h : m.localEpoch i ≠ inactive ∧ m.localEpoch i ≠ current) :
      Effect m (.scanEpoch current i) m .idle none
  | scanPass (current i) (h : m.localEpoch i = inactive ∨ m.localEpoch i = current) :
      Effect m (.scanEpoch current i) m (scanNext current i) none
  | casWin :
      Effect m (.cas m.globalEpoch) { m with globalEpoch := wrap 64 (m.globalEpoch + 1) }
        (.swap (wrap 64 (m.globalEpoch + 1)))
        (some (.advanced (wrap 64 (m.globalEpoch + 1))))
  | casLose (current) : Effect m (.cas current) m .idle none
  | swap (newEpoch) :
      Effect m (.swap newEpoch) (m.setList (listIndex newEpoch) [])
        (.free (m.retireLists (listIndex newEpoch))) none
  | freeDone : Effect m (.free []) m .idle none
  | free (x rest) : Effect m (.free (x :: rest)) m (.free rest) (some (.deleted x))

section Inversion

variable {X : Type*}

theorem access_effect (m : Mem X) (pc : PC X) :
    Effect m pc (access m pc).mem (access m pc).pc (access m pc).event := by
  cases pc <;> simp only [access]
  case idle => exact .stay _
  case regTest i =>
      split_ifs with huse hi
      · exact .regNext i hi
      · exact .regFull i
      · exact .regFound i (by simpa using huse)
  case regClaim i => exact .regClaim i
  case regStore i => exact .regStore i
  case unregStore tid => exact .unregStore tid
  case unregClear tid => exact .unregClear tid
  case enterLoad tid => exact .enterLoad tid
  case enterStore tid epoch => exact .enterStore tid epoch
  case leaveStore tid => exact .leaveStore tid
  case retireLoad x => exact .retireLoad x
  case retireAppend x epoch => exact .retireAppend x epoch
  case advLoad => exact .advLoad
  case scanUse current i =>
      split_ifs with huse
      · exact .scanUsed current i huse
      · exact .scanUnused current i (by simpa using huse)
  case scanEpoch current i =>
      split_ifs with hold
      · exact .scanOld current i hold
      · exact .scanPass current i (by tauto)
  case cas current =>
      split_ifs with hwin
      · subst hwin
        exact .casWin
      · exact .casLose current
  case swap newEpoch => exact .swap newEpoch
  case free toFree =>
      cases toFree with
      | nil => exact .freeDone
      | cons x rest => exact .free x rest

theorem prog_effect (m : Mem X) (pc : PC X) (ch : Choice (Op X)) :
    Effect m pc (prog m pc ch).mem (prog m pc ch).pc (prog m pc ch).event := by
  cases ch with
  | call op =>
      cases pc with
      | idle => exact .start op
      | _ => exact .stay _
  | go =>
      have h := access_effect m pc
      cases pc <;> exact h
  | fault => cases pc <;> exact .stay _

variable {m m' : Mem X} {pc pc' : PC X}

theorem Effect.of_entered {tid : Fin maxThreads}
    (h : Effect m pc m' pc' (some (.entered tid))) :
    ∃ epoch, pc = .enterStore tid epoch ∧ pc' = .idle ∧ m' = m.setEpoch tid epoch := by
  generalize hev : some (Event.entered tid) = ev at h
  cases h with
  | enterStore t epoch =>
      cases hev
      exact ⟨epoch, rfl, rfl, rfl⟩
  | start op => cases op <;> cases hev
  | _ => cases hev

theorem Effect.of_left {tid : Fin maxThreads}
    (h : Effect m pc m' pc' (some (.left tid))) : pc = .leaveStore tid := by
  generalize hev : some (Event.left tid) = ev at h
  cases h with
  | leaveStore t =>
      cases hev
      rfl
  | start op => cases op <;> cases hev
  | _ => cases hev

theorem Effect.of_retiring {x : X} (h : Effect m pc m' pc' (some (.retiring x))) :
    pc = .idle ∧ pc' = .retireLoad x ∧ m' = m := by
  generalize hev : some (Event.retiring x) = ev at h
  cases h with
  | start op =>
      cases op <;> cases hev
      exact ⟨rfl, rfl, rfl⟩
  | _ => cases hev

theorem Effect.of_appended {x : X} {epoch : ℕ}
    (h : Effect m pc m' pc' (some (.appended x epoch))) : pc = .retireAppend x epoch := by
  generalize hev : some (Event.appended x epoch) = ev at h
  cases h with
  | retireAppend y k =>
      cases hev
      rfl
  | start op => cases op <;> cases hev
  | _ => cases hev

theorem Effect.of_deleted {x : X} (h : Effect m pc m' pc' (some (.deleted x))) :
    ∃ rest, pc = .free (x :: rest) := by
  generalize hev : some (Event.deleted x) = ev at h
  cases h with
  | free y rest =>
      cases hev
      exact ⟨rest, rfl⟩
  | start op => cases op <;> cases hev
  | _ => cases hev

/-- A thread gets to the store of `leave_critical` by the call. -/
theorem of_leaveStore {ch : Choice (Op X)} {tid : Fin maxThreads}
    (h : (prog m pc ch).pc = .leaveStore tid) :
    pc = .leaveStore tid ∨ pc = .idle ∧ ch = .call (.leaveCritical tid) := by
  have hnext : ∀ {k i}, (scanNext k i : PC X) ≠ .leaveStore tid := by
    intro k i
    unfold scanNext
    split_ifs <;> nofun
  have he := prog_effect m pc ch
  generalize hpc' : (prog m pc ch).pc = pc' at he h
  generalize (prog m pc ch).mem = m' at he
  generalize (prog m pc ch).event = ev at he
  cases he with
  | stay => exact Or.inl h
  | start op =>
      cases ch with
      | call op' =>
          refine Or.inr ⟨rfl, ?_⟩
          have hop : start op' = .leaveStore tid := hpc'.trans h
          cases op' with
          | leaveCritical t =>
              cases hop
              rfl
          | unregisterThread t =>
              obtain hst | ⟨t', hst⟩ := start_unregister (X := X) t <;> rw [hst] at hop <;>
                cases hop
          | _ => cases hop
      | go => cases hpc'.trans h
      | fault => cases hpc'.trans h
  | scanUnused k i => exact absurd h hnext
  | scanPass k i => exact absurd h hnext
  | _ => cases h

end Inversion

end Epoch

end Lockless
