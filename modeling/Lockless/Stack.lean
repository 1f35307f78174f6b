import Lockless.Interleave
import Lockless.Word

/-!
# The array stack

`ArrayLockFreeStack<T>` of `array_stack.hpp`: the nodes of a preallocated
array lie on two linked lists that share their `next` fields, the data stack
under `head_` and the free nodes under `free_head_`. `try_push` takes a node
off the free list, fills it and links it into the data stack, `try_pop` does
the converse. Both heads pack a 32-bit index with a 32-bit tag that every
successful compare-exchange increments.

Each atomic access and each access to a node's data is one step. What
follows a read of a head, the test for `NULL_INDEX` included, is arithmetic
on locals and belongs to the step of the read. The two overloads of
`try_push` perform the same accesses and are one program here, and `moved`
is what moving from a node's data leaves behind.
-/

namespace Lockless

namespace Stack

/-- `NULL_INDEX`, the largest 32-bit value. -/
def nullIndex : ℕ := 2 ^ 32 - 1

/-- A head word unpacked. -/
structure Head where
  index : ℕ
  tag : ℕ
deriving DecidableEq

def pack (index tag : ℕ) : ℕ := wrap 64 (tag <<< 32) ||| index

def unpack (val : ℕ) : Head := ⟨wrap 32 val, wrap 32 (val >>> 32)⟩

theorem pack_eq {index tag : ℕ} (hi : index < 2 ^ 32) (ht : tag < 2 ^ 32) :
    pack index tag = tag * 2 ^ 32 + index := by
  have hlt : tag <<< 32 < 2 ^ 64 := by
    rw [Nat.shiftLeft_eq]
    omega
  rw [pack, wrap_of_lt hlt, ← Nat.shiftLeft_add_eq_or_of_lt hi, Nat.shiftLeft_eq]

theorem unpack_pack {index tag : ℕ} (hi : index < 2 ^ 32) (ht : tag < 2 ^ 32) :
    unpack (pack index tag) = ⟨index, tag⟩ := by
  rw [pack_eq hi ht, unpack, Head.mk.injEq, wrap, wrap, Nat.shiftRight_eq_div_pow]
  omega

/-- The two head words: `head_` and `free_head_`. -/
inductive Target where
  | data
  | free
deriving DecidableEq

/-- The fields of the class, with the nodes split into their two members. -/
structure Mem (T : Type*) where
  next : ℕ → ℕ
  data : ℕ → T
  heads : Target → ℕ

def Mem.setHead {T : Type*} (m : Mem T) (target : Target) (raw : ℕ) : Mem T :=
  { m with heads := Function.update m.heads target raw }

/-- What a call needs a node for: `try_push` takes one off the free list,
`try_pop` off the data stack. -/
inductive Call (T : Type*) where
  | push (value : T)
  | pop
deriving DecidableEq

def Call.source {T : Type*} : Call T → Target
  | .push _ => .free
  | .pop => .data

/-- What a call does with the node it has taken: `try_push` links it into
the data stack, `try_pop` returns it to the free list. -/
inductive Rest (T : Type*) where
  | push (value : T)
  | pop (item : T)
deriving DecidableEq

def Rest.target {T : Type*} : Rest T → Target
  | .push _ => .data
  | .pop _ => .free

/-- The access a thread performs next: in `pop_index` the load of the head,
the load of the node's `next` and the compare-exchange, then the access to
the node's data, and in `push_index` the load of the head, the store to the
node's `next` and the compare-exchange. -/
inductive PC (T : Type*) where
  | idle
  | popLoad (call : Call T)
  | popNext (call : Call T) (raw : ℕ)
  | popCas (call : Call T) (raw next : ℕ)
  | write (value : T) (node : ℕ)
  | read (node : ℕ)
  | pushLoad (rest : Rest T) (node : ℕ)
  | pushNext (rest : Rest T) (node raw : ℕ)
  | pushCas (rest : Rest T) (node raw : ℕ)
deriving DecidableEq

/-- The observable steps. `observe` is a load or failed compare-exchange
that gives a thread the word it expects next; `refuse` is one that shows an
empty list, after which the call returns false. The others are the
successful compare-exchanges: `take` and `give` on `free_head_`, `link` and
`unlink` on `head_`. `try_push` returns true with `link`, `try_pop` with
`give`. -/
inductive Event (T : Type*) where
  | observe (target : Target)
  | refuse (call : Call T)
  | take (node : ℕ)
  | link (node : ℕ) (value : T)
  | unlink (node : ℕ)
  | give (node : ℕ) (item : T)
deriving DecidableEq

section Program

variable {T : Type*} (moved : T → T)

/-- Where a call continues once `pop_index` has returned its node. -/
def Call.resume : Call T → ℕ → PC T
  | .push value, node => .write value node
  | .pop, node => .read node

def Call.won : Call T → ℕ → Event T
  | .push _, node => .take node
  | .pop, node => .unlink node

def Rest.won : Rest T → ℕ → Event T
  | .push value, node => .link node value
  | .pop item, node => .give node item

/-- The head of the loop of `pop_index`, on the word just read. -/
def popTest (m : Mem T) (call : Call T) (raw : ℕ) : Outcome (Mem T) (PC T) (Event T) :=
  if (unpack raw).index = nullIndex then ⟨m, .idle, some (.refuse call)⟩
  else ⟨m, .popNext call raw, some (.observe call.source)⟩

/-- One access of a call in progress. -/
def access (m : Mem T) (spurious : Bool) : PC T → Outcome (Mem T) (PC T) (Event T)
  | .idle => ⟨m, .idle, none⟩
  | .popLoad call => popTest m call (m.heads call.source)
  | .popNext call raw => ⟨m, .popCas call raw (m.next (unpack raw).index), none⟩
  | .popCas call raw next =>
      let old := unpack raw
      if m.heads call.source = raw ∧ spurious = false then
        ⟨m.setHead call.source (pack next (wrap 32 (old.tag + 1))),
          call.resume old.index, some (call.won old.index)⟩
      else popTest m call (m.heads call.source)
  | .write value node =>
      ⟨{ m with data := Function.update m.data node value },
        .pushLoad (.push value) node, none⟩
  | .read node =>
      ⟨{ m with data := Function.update m.data node (moved (m.data node)) },
        .pushLoad (.pop (m.data node)) node, none⟩
  | .pushLoad rest node =>
      ⟨m, .pushNext rest node (m.heads rest.target), some (.observe rest.target)⟩
  | .pushNext rest node raw =>
      ⟨{ m with next := Function.update m.next node (unpack raw).index },
        .pushCas rest node raw, none⟩
  | .pushCas rest node raw =>
      if m.heads rest.target = raw ∧ spurious = false then
        ⟨m.setHead rest.target (pack node (wrap 32 ((unpack raw).tag + 1))),
          .idle, some (rest.won node)⟩
      else ⟨m, .pushNext rest node (m.heads rest.target), some (.observe rest.target)⟩

/-- One step of one thread. A call starts only in a thread that is not
inside another call. -/
def prog (m : Mem T) : PC T → Choice (Call T) → Outcome (Mem T) (PC T) (Event T)
  | .idle, .call op => ⟨m, .popLoad op, none⟩
  | pc, .go => access moved m false pc
  | pc, .fault => access moved m true pc
  | pc, .call _ => ⟨m, pc, none⟩

/-- The stores to `next` the constructor performs, in order, as node index
and value. The loop bound `capacity - 1` is a 64-bit difference. -/
def constructorStores (capacity : ℕ) : List (ℕ × ℕ) :=
  (List.range (wrap 64 (capacity + (2 ^ 64 - 1)))).map (fun i => (i, wrap 32 (i + 1)))
    ++ [(wrap 64 (capacity + (2 ^ 64 - 1)), nullIndex)]

/-- The state the constructor leaves; a fresh node's `next` is null. -/
def initMem (capacity : ℕ) (data : ℕ → T) : Mem T where
  next := (constructorStores capacity).foldl
    (fun next store => Function.update next store.1 store.2) fun _ => nullIndex
  data := data
  heads
    | .data => pack nullIndex 0
    | .free => pack 0 0

def system (ι : Type*) (capacity : ℕ) (data : ℕ → T) :
    System ι (Mem T) (PC T) (Choice (Call T)) (Event T) where
  init := ⟨initMem capacity data, fun _ => .idle⟩
  prog := prog moved

end Program

/-! ## What one step can do -/

/-- The node an operation holds: off one list and not yet on the other. -/
def PC.holding {T : Type*} : PC T → Option ℕ
  | .write _ node => some node
  | .read node => some node
  | .pushLoad _ node => some node
  | .pushNext _ node _ => some node
  | .pushCas _ node _ => some node
  | _ => none

/-- The call whose `pop_index` reads its head next, if any: at its load, or
at a compare-exchange that fails. -/
def PC.popping {T : Type*} : PC T → Option (Call T)
  | .popLoad call => some call
  | .popCas call _ _ => some call
  | _ => none

/-- The same for `push_index`, with the node. -/
def PC.pushing {T : Type*} : PC T → Option (Rest T × ℕ)
  | .pushLoad rest node => some (rest, node)
  | .pushCas rest node _ => some (rest, node)
  | _ => none

/-- The steps of a thread, one constructor per access and branch outcome. -/
inductive Effect {T : Type*} (moved : T → T) (m : Mem T) :
    PC T → Mem T → PC T → Option (Event T) → Prop
  | stay (pc) : Effect moved m pc m pc none
  | start (call) : Effect moved m .idle m (.popLoad call) none
  | refuse (pc call) (hpc : pc.popping = some call)
      (hnull : (unpack (m.heads call.source)).index = nullIndex) :
      Effect moved m pc m .idle (some (.refuse call))
  | popObserve (pc call) (hpc : pc.popping = some call)
      (hnull : (unpack (m.heads call.source)).index ≠ nullIndex) :
      Effect moved m pc m (.popNext call (m.heads call.source))
        (some (.observe call.source))
  | popNext (call raw) :
      Effect moved m (.popNext call raw) m
        (.popCas call raw (m.next (unpack raw).index)) none
  | popWin (call next) :
      Effect moved m (.popCas call (m.heads call.source) next)
        (m.setHead call.source
          (pack next (wrap 32 ((unpack (m.heads call.source)).tag + 1))))
        (call.resume (unpack (m.heads call.source)).index)
        (some (call.won (unpack (m.heads call.source)).index))
  | write (value node) :
      Effect moved m (.write value node)
        { m with data := Function.update m.data node value }
        (.pushLoad (.push value) node) none
  | read (node) :
      Effect moved m (.read node)
        { m with data := Function.update m.data node (moved (m.data node)) }
        (.pushLoad (.pop (m.data node)) node) none
  | pushObserve (pc rest node) (hpc : pc.pushing = some (rest, node)) :
      Effect moved m pc m (.pushNext rest node (m.heads rest.target))
        (some (.observe rest.target))
  | pushNext (rest node raw) :
      Effect moved m (.pushNext rest node raw)
        { m with next := Function.update m.next node (unpack raw).index }
        (.pushCas rest node raw) none
  | pushWin (rest node) :
      Effect moved m (.pushCas rest node (m.heads rest.target))
        (m.setHead rest.target
          (pack node (wrap 32 ((unpack (m.heads rest.target)).tag + 1))))
        .idle (some (rest.won node))

section Inversion

variable {T : Type*} {moved : T → T}

theorem popTest_effect {m : Mem T} {pc : PC T} {call : Call T}
    (hpc : pc.popping = some call) :
    Effect moved m pc (popTest m call (m.heads call.source)).mem
      (popTest m call (m.heads call.source)).pc
      (popTest m call (m.heads call.source)).event := by
  unfold popTest
  split_ifs with hnull
  · exact .refuse pc call hpc hnull
  · exact .popObserve pc call hpc hnull

theorem access_effect (m : Mem T) (spurious : Bool) (pc : PC T) :
    Effect moved m pc (access moved m spurious pc).mem
      (access moved m spurious pc).pc (access moved m spurious pc).event := by
  cases pc with
  | idle => exact .stay _
  | popLoad call => exact popTest_effect rfl
  | popNext call raw => exact .popNext call raw
  | popCas call raw next =>
      simp only [access]
      split_ifs with hwin
      · obtain ⟨rfl, -⟩ := hwin
        exact .popWin call next
      · exact popTest_effect rfl
  | write value node => exact .write value node
  | read node => exact .read node
  | pushLoad rest node => exact .pushObserve _ rest node rfl
  | pushNext rest node raw => exact .pushNext rest node raw
  | pushCas rest node raw =>
      simp only [access]
      split_ifs with hwin
      · obtain ⟨rfl, -⟩ := hwin
        exact .pushWin rest node
      · exact .pushObserve _ rest node rfl

theorem prog_effect (m : Mem T) (pc : PC T) (ch : Choice (Call T)) :
    Effect moved m pc (prog moved m pc ch).mem (prog moved m pc ch).pc
      (prog moved m pc ch).event := by
  cases ch with
  | call op =>
      cases pc with
      | idle => exact .start op
      | _ => exact .stay _
  | go =>
      have h : Effect moved m pc _ _ _ := access_effect m false pc
      cases pc <;> exact h
  | fault =>
      have h : Effect moved m pc _ _ _ := access_effect m true pc
      cases pc <;> exact h

end Inversion

end Stack

end Lockless
