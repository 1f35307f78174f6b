import Lockless.Interleave
import Lockless.Word

/-!
# The ring buffer

`RingBuffer<T, Size>` of `ring_buffer.hpp`: a bounded queue whose slots carry
a sequence number. A producer that sees the number of its ticket claims the
ticket by a compare-exchange on `head_`, copies the item and publishes
`ticket + 1`; a consumer that sees `ticket + 1` claims the ticket on `tail_`,
moves the item out and publishes `ticket + Size`, the number the producer of
the next lap waits for.

Each atomic access, and each copy into or out of a cell, is one step. The
arithmetic on the local variables that follows an access belongs to the same
step. The two overloads of `try_push` perform the same accesses in the same
order and store the same value, so they are one program here. Counters are
64-bit words: sums are wrapped, and the difference that selects the branch
is read as a signed number.

`moved` is what moving from an item leaves in the cell. The initial contents
of the cells are arbitrary.
-/

namespace Lockless

namespace Ring

/-- The fields of the class. -/
structure Mem (T : Type*) where
  sequences : ℕ → ℕ
  buffer : ℕ → T
  head : ℕ
  tail : ℕ

/-- The access `try_push` performs next, with its local `head`. -/
inductive PushPC where
  | loadHead
  | loadSeq (head : ℕ)
  | cas (head : ℕ)
  | copy (head : ℕ)
  | publish (head : ℕ)
deriving DecidableEq

/-- The access `try_pop` performs next, with its local `tail`, and the item
once it has been moved out. -/
inductive PopPC (T : Type*) where
  | loadTail
  | loadSeq (tail : ℕ)
  | cas (tail : ℕ)
  | move (tail : ℕ)
  | publish (tail : ℕ) (item : T)
deriving DecidableEq

inductive PC (T : Type*) where
  | idle
  | push (item : T) (pc : PushPC)
  | pop (pc : PopPC T)
deriving DecidableEq

inductive Op (T : Type*) where
  | tryPush (item : T)
  | tryPop
deriving DecidableEq

/-- The observable steps. `pushWin`/`popWin` are the compare-exchanges that
move `head_`/`tail_` on from their ticket, `pushDone`/`popDone` the sequence
stores after which the call returns true, `pushFull`/`popEmpty` the sequence
loads after which it returns false. -/
inductive Event (T : Type*) where
  | pushWin (ticket : ℕ) (item : T)
  | pushDone (ticket : ℕ)
  | pushFull
  | popWin (ticket : ℕ)
  | popDone (ticket : ℕ) (item : T)
  | popEmpty
deriving DecidableEq

section Program

variable {T : Type*} (Z : AdmittedSize) (moved : T → T)

def tryPush (m : Mem T) (spurious : Bool) (item : T) :
    PushPC → Outcome (Mem T) (PC T) (Event T)
  | .loadHead => ⟨m, .push item (.loadSeq m.head), none⟩
  | .loadSeq head =>
      let diff := signedDiff 64 (m.sequences (Z.index head)) head
      if diff = 0 then ⟨m, .push item (.cas head), none⟩
      else if diff < 0 then ⟨m, .idle, some .pushFull⟩
      else ⟨m, .push item .loadHead, none⟩
  | .cas head =>
      if m.head = head ∧ spurious = false then
        ⟨{ m with head := wrap 64 (head + 1) }, .push item (.copy head),
          some (.pushWin head item)⟩
      else ⟨m, .push item (.loadSeq m.head), none⟩
  | .copy head =>
      ⟨{ m with buffer := Function.update m.buffer (Z.index head) item },
        .push item (.publish head), none⟩
  | .publish head =>
      ⟨{ m with sequences :=
          Function.update m.sequences (Z.index head) (wrap 64 (head + 1)) },
        .idle, some (.pushDone head)⟩

def tryPop (m : Mem T) (spurious : Bool) :
    PopPC T → Outcome (Mem T) (PC T) (Event T)
  | .loadTail => ⟨m, .pop (.loadSeq m.tail), none⟩
  | .loadSeq tail =>
      let diff := signedDiff 64 (m.sequences (Z.index tail)) (wrap 64 (tail + 1))
      if diff = 0 then ⟨m, .pop (.cas tail), none⟩
      else if diff < 0 then ⟨m, .idle, some .popEmpty⟩
      else ⟨m, .pop .loadTail, none⟩
  | .cas tail =>
      if m.tail = tail ∧ spurious = false then
        ⟨{ m with tail := wrap 64 (tail + 1) }, .pop (.move tail),
          some (.popWin tail)⟩
      else ⟨m, .pop (.loadSeq m.tail), none⟩
  | .move tail =>
      let item := m.buffer (Z.index tail)
      ⟨{ m with buffer := Function.update m.buffer (Z.index tail) (moved item) },
        .pop (.publish tail item), none⟩
  | .publish tail item =>
      ⟨{ m with sequences :=
          Function.update m.sequences (Z.index tail) (wrap 64 (tail + Z.mask + 1)) },
        .idle, some (.popDone tail item)⟩

def start : Op T → PC T
  | .tryPush item => .push item .loadHead
  | .tryPop => .pop .loadTail

/-- One step of one thread. A call starts only in a thread that is not
inside another call. -/
def prog (m : Mem T) : PC T → Choice (Op T) → Outcome (Mem T) (PC T) (Event T)
  | .idle, .call op => ⟨m, start op, none⟩
  | .push item pc, .go => tryPush Z m false item pc
  | .push item pc, .fault => tryPush Z m true item pc
  | .pop pc, .go => tryPop Z moved m false pc
  | .pop pc, .fault => tryPop Z moved m true pc
  | pc, _ => ⟨m, pc, none⟩

/-- A choice at which a thread does nothing. -/
def rest : PC T → Choice (Op T)
  | .idle => .go
  | _ => .call .tryPop

theorem prog_rest (m : Mem T) (pc : PC T) : prog Z moved m pc (rest pc) = ⟨m, pc, none⟩ := by
  cases pc <;> rfl

/-- The state the constructor leaves. -/
def initMem (buffer : ℕ → T) : Mem T where
  sequences := fun i => i
  buffer := buffer
  head := 0
  tail := 0

def system (ι : Type*) (buffer : ℕ → T) :
    System ι (Mem T) (PC T) (Choice (Op T)) (Event T) where
  init := ⟨initMem buffer, fun _ => .idle⟩
  prog := prog Z moved

end Program

/-- The smallest ring, of two cells. -/
def twoCells : PowSize := ⟨⟨1, by decide⟩, by decide⟩

/-! ## What one step can do -/

/-- The steps of a thread, one constructor per access and branch outcome.
The branch on the sequence number is kept only as far as the equality it
tests. -/
inductive Effect {T : Type*} (Z : AdmittedSize) (moved : T → T) (m : Mem T) :
    PC T → Mem T → PC T → Option (Event T) → Prop
  | stay (pc) : Effect Z moved m pc m pc none
  | start (op) : Effect Z moved m .idle m (start op) none
  | pushLoad (item) :
      Effect Z moved m (.push item .loadHead) m (.push item (.loadSeq m.head)) none
  | pushReady (item head)
      (hseq : signedDiff 64 (m.sequences (Z.index head)) head = 0) :
      Effect Z moved m (.push item (.loadSeq head)) m (.push item (.cas head)) none
  | pushFull (item head)
      (hseq : signedDiff 64 (m.sequences (Z.index head)) head < 0) :
      Effect Z moved m (.push item (.loadSeq head)) m .idle (some .pushFull)
  | pushReload (item head) :
      Effect Z moved m (.push item (.loadSeq head)) m (.push item .loadHead) none
  | pushWin (item) :
      Effect Z moved m (.push item (.cas m.head))
        { m with head := wrap 64 (m.head + 1) } (.push item (.copy m.head))
        (some (.pushWin m.head item))
  | pushLose (item head) :
      Effect Z moved m (.push item (.cas head)) m (.push item (.loadSeq m.head)) none
  | pushCopy (item head) :
      Effect Z moved m (.push item (.copy head))
        { m with buffer := Function.update m.buffer (Z.index head) item }
        (.push item (.publish head)) none
  | pushDone (item head) :
      Effect Z moved m (.push item (.publish head))
        { m with sequences :=
            Function.update m.sequences (Z.index head) (wrap 64 (head + 1)) }
        .idle (some (.pushDone head))
  | popLoad : Effect Z moved m (.pop .loadTail) m (.pop (.loadSeq m.tail)) none
  | popReady (tail)
      (hseq : signedDiff 64 (m.sequences (Z.index tail)) (wrap 64 (tail + 1)) = 0) :
      Effect Z moved m (.pop (.loadSeq tail)) m (.pop (.cas tail)) none
  | popEmpty (tail)
      (hseq : signedDiff 64 (m.sequences (Z.index tail)) (wrap 64 (tail + 1)) < 0) :
      Effect Z moved m (.pop (.loadSeq tail)) m .idle (some .popEmpty)
  | popReload (tail) :
      Effect Z moved m (.pop (.loadSeq tail)) m (.pop .loadTail) none
  | popWin :
      Effect Z moved m (.pop (.cas m.tail)) { m with tail := wrap 64 (m.tail + 1) }
        (.pop (.move m.tail)) (some (.popWin m.tail))
  | popLose (tail) :
      Effect Z moved m (.pop (.cas tail)) m (.pop (.loadSeq m.tail)) none
  | popMove (tail) :
      Effect Z moved m (.pop (.move tail))
        { m with buffer :=
            Function.update m.buffer (Z.index tail) (moved (m.buffer (Z.index tail))) }
        (.pop (.publish tail (m.buffer (Z.index tail)))) none
  | popDone (tail item) :
      Effect Z moved m (.pop (.publish tail item))
        { m with sequences :=
            Function.update m.sequences (Z.index tail) (wrap 64 (tail + Z.mask + 1)) }
        .idle (some (.popDone tail item))

section Inversion

variable {T : Type*} {Z : AdmittedSize} {moved : T → T} {m m' : Mem T} {pc pc' : PC T}

theorem Effect.of_pushWin {t : ℕ} {x : T}
    (h : Effect Z moved m pc m' pc' (some (.pushWin t x))) : m.head = t := by
  cases h
  rfl

theorem Effect.of_popWin {t : ℕ}
    (h : Effect Z moved m pc m' pc' (some (.popWin t))) : m.tail = t := by
  cases h
  rfl

theorem Effect.of_pushDone {t : ℕ}
    (h : Effect Z moved m pc m' pc' (some (.pushDone t))) :
    ∃ item, pc = .push item (.publish t) := by
  cases h
  exact ⟨_, rfl⟩

theorem Effect.of_popDone {t : ℕ} {x : T}
    (h : Effect Z moved m pc m' pc' (some (.popDone t x))) :
    pc = .pop (.publish t x) := by
  cases h
  rfl

theorem Effect.of_pushFull (h : Effect Z moved m pc m' pc' (some .pushFull)) :
    ∃ item head, pc = .push item (.loadSeq head)
      ∧ signedDiff 64 (m.sequences (Z.index head)) head < 0 := by
  cases h with
  | pushFull item head hseq => exact ⟨item, head, rfl, hseq⟩

theorem Effect.of_popEmpty (h : Effect Z moved m pc m' pc' (some .popEmpty)) :
    ∃ tail, pc = .pop (.loadSeq tail)
      ∧ signedDiff 64 (m.sequences (Z.index tail)) (wrap 64 (tail + 1)) < 0 := by
  cases h with
  | popEmpty tail hseq => exact ⟨tail, rfl, hseq⟩

theorem tryPush_effect (m : Mem T) (spurious : Bool) (item : T) (pc : PushPC) :
    Effect Z moved m (.push item pc) (tryPush Z m spurious item pc).mem
      (tryPush Z m spurious item pc).pc (tryPush Z m spurious item pc).event := by
  cases pc with
  | loadHead => exact .pushLoad item
  | loadSeq head =>
      simp only [tryPush]
      split_ifs with hz hneg
      · exact .pushReady item head hz
      · exact .pushFull item head hneg
      · exact .pushReload item head
  | cas head =>
      simp only [tryPush]
      split_ifs with hwin
      · obtain ⟨rfl, -⟩ := hwin
        exact .pushWin item
      · exact .pushLose item head
  | copy head => exact .pushCopy item head
  | publish head => exact .pushDone item head

theorem tryPop_effect (m : Mem T) (spurious : Bool) (pc : PopPC T) :
    Effect Z moved m (.pop pc) (tryPop Z moved m spurious pc).mem
      (tryPop Z moved m spurious pc).pc (tryPop Z moved m spurious pc).event := by
  cases pc with
  | loadTail => exact .popLoad
  | loadSeq tail =>
      simp only [tryPop]
      split_ifs with hz hneg
      · exact .popReady tail hz
      · exact .popEmpty tail hneg
      · exact .popReload tail
  | cas tail =>
      simp only [tryPop]
      split_ifs with hwin
      · obtain ⟨rfl, -⟩ := hwin
        exact .popWin
      · exact .popLose tail
  | move tail => exact .popMove tail
  | publish tail item => exact .popDone tail item

theorem prog_effect (m : Mem T) (pc : PC T) (ch : Choice (Op T)) :
    Effect Z moved m pc (prog Z moved m pc ch).mem (prog Z moved m pc ch).pc
      (prog Z moved m pc ch).event := by
  cases pc with
  | idle => cases ch with
    | call op => exact .start op
    | go => exact .stay _
    | fault => exact .stay _
  | push item pc => cases ch with
    | call op => exact .stay _
    | go => exact tryPush_effect m false item pc
    | fault => exact tryPush_effect m true item pc
  | pop pc => cases ch with
    | call op => exact .stay _
    | go => exact tryPop_effect m false pc
    | fault => exact tryPop_effect m true pc

end Inversion

end Ring

end Lockless
