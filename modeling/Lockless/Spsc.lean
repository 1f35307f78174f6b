import Lockless.Interleave
import Lockless.Word

/-!
# The single-producer single-consumer queue

`SPSCQueue<T, Size>` of `spsc_queue.hpp`: the producer alone writes `head_`,
the consumer alone writes `tail_`, both stored already reduced modulo the
size, and one cell always stays empty so that `head_ = tail_` means empty.

A thread's control state carries its role: the producer accepts `try_push`
calls only, the consumer `try_pop` calls only, and any number of further
threads may call `empty`. The two loads of `empty` are operands of one
comparison, whose evaluation order the language leaves open; the call says
which comes first. As for the ring buffer, both overloads of `try_push` are
one program, and `moved` is what moving from a cell leaves in it.
-/

namespace Lockless

namespace Spsc

structure Mem (T : Type*) where
  head : ℕ
  tail : ℕ
  buffer : ℕ → T

/-- The threads that use the queue. -/
inductive Role (κ : Type*) where
  | producer
  | consumer
  | observer (k : κ)
deriving DecidableEq

/-- The access `try_push` performs next, with its locals. -/
inductive PushPC (T : Type*) where
  | idle
  | loadHead (item : T)
  | loadTail (item : T) (head next : ℕ)
  | write (item : T) (head next : ℕ)
  | store (item : T) (head next : ℕ)
deriving DecidableEq

/-- The access `try_pop` performs next, with its locals. -/
inductive PopPC (T : Type*) where
  | idle
  | loadTail
  | loadHead (tail : ℕ)
  | read (tail : ℕ)
  | store (tail : ℕ) (item : T)
deriving DecidableEq

/-- The load `empty` performs next, and the value of the first one. -/
inductive EmptyPC where
  | idle
  | first (headFirst : Bool)
  | second (headFirst : Bool) (seen : ℕ)
deriving DecidableEq

inductive PC (T : Type*) where
  | producer (pc : PushPC T)
  | consumer (pc : PopPC T)
  | observer (pc : EmptyPC)
deriving DecidableEq

inductive Op (T : Type*) where
  | tryPush (item : T)
  | tryPop
  | empty (headFirst : Bool)
deriving DecidableEq

/-- The observable steps: the index stores after which a call returns true,
the index loads after which it returns false, and the loads of `empty`. -/
inductive Event (T : Type*) where
  | pushed (item : T)
  | pushFull
  | popped (item : T)
  | popEmpty
  | emptyFirst
  | emptyResult (result : Bool)
deriving DecidableEq

section Program

variable {T : Type*} (Z : PowSize) (moved : T → T)

/-- `(i + 1) & mask_`. -/
def advance (i : ℕ) : ℕ := Z.index (wrap 64 (i + 1))

def tryPush (m : Mem T) : PushPC T → Outcome (Mem T) (PushPC T) (Event T)
  | .idle => ⟨m, .idle, none⟩
  | .loadHead item => ⟨m, .loadTail item m.head (advance Z m.head), none⟩
  | .loadTail item head next =>
      if next = m.tail then ⟨m, .idle, some .pushFull⟩
      else ⟨m, .write item head next, none⟩
  | .write item head next =>
      ⟨{ m with buffer := Function.update m.buffer head item },
        .store item head next, none⟩
  | .store item _ next => ⟨{ m with head := next }, .idle, some (.pushed item)⟩

def tryPop (m : Mem T) : PopPC T → Outcome (Mem T) (PopPC T) (Event T)
  | .idle => ⟨m, .idle, none⟩
  | .loadTail => ⟨m, .loadHead m.tail, none⟩
  | .loadHead tail =>
      if tail = m.head then ⟨m, .idle, some .popEmpty⟩
      else ⟨m, .read tail, none⟩
  | .read tail =>
      ⟨{ m with buffer := Function.update m.buffer tail (moved (m.buffer tail)) },
        .store tail (m.buffer tail), none⟩
  | .store tail item =>
      ⟨{ m with tail := advance Z tail }, .idle, some (.popped item)⟩

def empty (m : Mem T) : EmptyPC → Outcome (Mem T) EmptyPC (Event T)
  | .idle => ⟨m, .idle, none⟩
  | .first true => ⟨m, .second true m.head, some .emptyFirst⟩
  | .first false => ⟨m, .second false m.tail, some .emptyFirst⟩
  | .second true seen =>
      ⟨m, .idle, some (.emptyResult (decide (seen = m.tail)))⟩
  | .second false seen =>
      ⟨m, .idle, some (.emptyResult (decide (m.head = seen)))⟩

/-- One step of one thread. There is no adverse outcome here: nothing in
these functions can fail. -/
def prog (m : Mem T) : PC T → Choice (Op T) → Outcome (Mem T) (PC T) (Event T)
  | .producer .idle, .call (.tryPush item) => ⟨m, .producer (.loadHead item), none⟩
  | .consumer .idle, .call .tryPop => ⟨m, .consumer .loadTail, none⟩
  | .observer .idle, .call (.empty b) => ⟨m, .observer (.first b), none⟩
  | .producer pc, .go =>
      let o := tryPush Z m pc
      ⟨o.mem, .producer o.pc, o.event⟩
  | .consumer pc, .go =>
      let o := tryPop Z moved m pc
      ⟨o.mem, .consumer o.pc, o.event⟩
  | .observer pc, .go =>
      let o := empty m pc
      ⟨o.mem, .observer o.pc, o.event⟩
  | pc, _ => ⟨m, pc, none⟩

/-- Every thread starts idle, in its role. -/
def initPC {κ : Type*} : Role κ → PC T
  | .producer => .producer .idle
  | .consumer => .consumer .idle
  | .observer _ => .observer .idle

def system (κ : Type*) (buffer : ℕ → T) :
    System (Role κ) (Mem T) (PC T) (Choice (Op T)) (Event T) where
  init := ⟨⟨0, 0, buffer⟩, initPC⟩
  prog := prog Z moved

end Program

/-! ## What one step can do -/

/-- The steps of a thread, one constructor per access and branch outcome. -/
inductive Effect {T : Type*} (Z : PowSize) (moved : T → T) (m : Mem T) :
    PC T → Mem T → PC T → Option (Event T) → Prop
  | stay (pc) : Effect Z moved m pc m pc none
  | pushStart (item) :
      Effect Z moved m (.producer .idle) m (.producer (.loadHead item)) none
  | pushHead (item) :
      Effect Z moved m (.producer (.loadHead item)) m
        (.producer (.loadTail item m.head (advance Z m.head))) none
  | pushFull (item head) :
      Effect Z moved m (.producer (.loadTail item head m.tail)) m
        (.producer .idle) (some .pushFull)
  | pushRoom (item head next) (h : next ≠ m.tail) :
      Effect Z moved m (.producer (.loadTail item head next)) m
        (.producer (.write item head next)) none
  | pushWrite (item head next) :
      Effect Z moved m (.producer (.write item head next))
        { m with buffer := Function.update m.buffer head item }
        (.producer (.store item head next)) none
  | pushStore (item head next) :
      Effect Z moved m (.producer (.store item head next)) { m with head := next }
        (.producer .idle) (some (.pushed item))
  | popStart : Effect Z moved m (.consumer .idle) m (.consumer .loadTail) none
  | popTail :
      Effect Z moved m (.consumer .loadTail) m (.consumer (.loadHead m.tail)) none
  | popEmpty :
      Effect Z moved m (.consumer (.loadHead m.head)) m (.consumer .idle)
        (some .popEmpty)
  | popSome (tail) (h : tail ≠ m.head) :
      Effect Z moved m (.consumer (.loadHead tail)) m (.consumer (.read tail)) none
  | popRead (tail) :
      Effect Z moved m (.consumer (.read tail))
        { m with buffer := Function.update m.buffer tail (moved (m.buffer tail)) }
        (.consumer (.store tail (m.buffer tail))) none
  | popStore (tail item) :
      Effect Z moved m (.consumer (.store tail item))
        { m with tail := advance Z tail } (.consumer .idle) (some (.popped item))
  | emptyStart (b) :
      Effect Z moved m (.observer .idle) m (.observer (.first b)) none
  | emptyFirst (b) :
      Effect Z moved m (.observer (.first b)) m
        (.observer (.second b (if b then m.head else m.tail))) (some .emptyFirst)
  | emptySecond (b seen) :
      Effect Z moved m (.observer (.second b seen)) m (.observer .idle)
        (some (.emptyResult (decide (seen = if b then m.tail else m.head))))

section Inversion

variable {T : Type*} {Z : PowSize} {moved : T → T}

theorem prog_effect (m : Mem T) (pc : PC T) (ch : Choice (Op T)) :
    Effect Z moved m pc (prog Z moved m pc ch).mem (prog Z moved m pc ch).pc
      (prog Z moved m pc ch).event := by
  rcases pc with (_ | item | ⟨item, head, next⟩ | ⟨item, head, next⟩ | ⟨item, head, next⟩)
    | (_ | _ | tail | tail | ⟨tail, item⟩) | (_ | b | ⟨b, seen⟩) <;>
    rcases ch with (x | _ | b') | _ | _ <;> try exact .stay _
  · exact .pushStart x
  · exact .pushHead item
  · simp only [prog, tryPush]
    split_ifs with h
    · subst h
      exact .pushFull item head
    · exact .pushRoom item head next h
  · exact .pushWrite item head next
  · exact .pushStore item head next
  · exact .popStart
  · exact .popTail
  · simp only [prog, tryPop]
    split_ifs with h
    · subst h
      exact .popEmpty
    · exact .popSome tail h
  · exact .popRead tail
  · exact .popStore tail item
  · exact .emptyStart b'
  · cases b
    · exact .emptyFirst false
    · exact .emptyFirst true
  · cases b
    · simp only [prog, empty, eq_comm (a := m.head)]
      exact .emptySecond false seen
    · exact .emptySecond true seen

end Inversion

end Spsc

end Lockless
