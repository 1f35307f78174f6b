import Lockless.Interleave
import Lockless.Word

/-!
# The hash map

`LockFreeHashMap<K, V, Size>` of `hash_map.hpp`: open addressing with linear
probing and two flags per bucket. `insert` claims a bucket by a
compare-exchange on `occupied`, writes the key and the value, and then sets
`ready`. An occupied bucket is compared only if it is ready; one that is not
is passed over, and so is one whose compare-exchange is lost. `find` stops at
the first bucket that is not occupied and waits at one that is not ready.

Each atomic access, each comparison of a key and each copy of a key or value
is one step. Both overloads of `insert` perform the same accesses in the same
order and are one program here. Copying or moving a key or value may throw
out of `insert`, which is the adverse outcome of these two steps.
-/

namespace Lockless

namespace HashMap

/-- The template parameters: `Size`, which is positive, and the hash. The
constructor has allocated an array of `Size` nodes, each with two flags at
least, so `Size` is at most half of the address space. -/
structure Table (K : Type*) where
  size : ℕ
  pos : 1 ≤ size
  fits : 2 * size ≤ 2 ^ 64
  hash : K → ℕ

/-- The bucket of the `i`th probe for a key. -/
def Table.bucket {K : Type*} (B : Table K) (key : K) (i : ℕ) : ℕ :=
  wrap 64 (B.hash key % B.size + i) % B.size

/-- The buckets, by the members of a node. -/
structure Mem (K V : Type*) where
  key : ℕ → K
  value : ℕ → V
  occupied : ℕ → Bool
  ready : ℕ → Bool

/-- The access `insert` performs next on the bucket it probes. -/
inductive InsertPC where
  | loadOccupied
  | loadReady
  | compareKey
  | cas
  | writeKey
  | writeValue
  | publish
deriving DecidableEq

inductive FindPC where
  | loadOccupied
  | loadReady
  | spin
  | compareKey
  | readValue
deriving DecidableEq

/-- A call in progress is in the `i`th iteration of its loop. -/
inductive PC (K V : Type*) where
  | idle
  | insert (key : K) (value : V) (i : ℕ) (pc : InsertPC)
  | find (key : K) (i : ℕ) (pc : FindPC)
deriving DecidableEq

inductive Op (K V : Type*) where
  | insert (key : K) (value : V)
  | find (key : K)
deriving DecidableEq

/-- What a call ends with: `inserted` is an insert that returns true,
`duplicate` and `tableFull` are ones that return false. -/
inductive Event (K V : Type*) where
  | inserted (key : K) (value : V)
  | duplicate (key : K)
  | tableFull (key : K)
  | threw (key : K)
  | found (key : K) (value : V)
  | absent (key : K)
deriving DecidableEq

section Program

variable {K V : Type*} [DecidableEq K] (B : Table K)

/-- The next iteration of the loop of `insert`, or its end. -/
def insertNext (m : Mem K V) (key : K) (value : V) (i : ℕ) :
    Outcome (Mem K V) (PC K V) (Event K V) :=
  if i + 1 < B.size then ⟨m, .insert key value (i + 1) .loadOccupied, none⟩
  else ⟨m, .idle, some (.tableFull key)⟩

def insert (m : Mem K V) (throws : Bool) (key : K) (value : V) (i : ℕ) :
    InsertPC → Outcome (Mem K V) (PC K V) (Event K V)
  | .loadOccupied =>
      if m.occupied (B.bucket key i) then ⟨m, .insert key value i .loadReady, none⟩
      else ⟨m, .insert key value i .cas, none⟩
  | .loadReady =>
      if m.ready (B.bucket key i) then ⟨m, .insert key value i .compareKey, none⟩
      else insertNext B m key value i
  | .compareKey =>
      if m.key (B.bucket key i) = key then ⟨m, .idle, some (.duplicate key)⟩
      else insertNext B m key value i
  | .cas =>
      if m.occupied (B.bucket key i) then insertNext B m key value i
      else ⟨{ m with occupied := Function.update m.occupied (B.bucket key i) true },
        .insert key value i .writeKey, none⟩
  | .writeKey =>
      if throws then ⟨m, .idle, some (.threw key)⟩
      else ⟨{ m with key := Function.update m.key (B.bucket key i) key },
        .insert key value i .writeValue, none⟩
  | .writeValue =>
      if throws then ⟨m, .idle, some (.threw key)⟩
      else ⟨{ m with value := Function.update m.value (B.bucket key i) value },
        .insert key value i .publish, none⟩
  | .publish =>
      ⟨{ m with ready := Function.update m.ready (B.bucket key i) true },
        .idle, some (.inserted key value)⟩

def find (m : Mem K V) (key : K) (i : ℕ) :
    FindPC → Outcome (Mem K V) (PC K V) (Event K V)
  | .loadOccupied =>
      if m.occupied (B.bucket key i) then ⟨m, .find key i .loadReady, none⟩
      else ⟨m, .idle, some (.absent key)⟩
  | .loadReady =>
      if m.ready (B.bucket key i) then ⟨m, .find key i .compareKey, none⟩
      else ⟨m, .find key i .spin, none⟩
  | .spin =>
      if m.ready (B.bucket key i) then ⟨m, .find key i .compareKey, none⟩
      else ⟨m, .find key i .spin, none⟩
  | .compareKey =>
      if m.key (B.bucket key i) = key then ⟨m, .find key i .readValue, none⟩
      else if i + 1 < B.size then ⟨m, .find key (i + 1) .loadOccupied, none⟩
      else ⟨m, .idle, some (.absent key)⟩
  | .readValue => ⟨m, .idle, some (.found key (m.value (B.bucket key i)))⟩

def start : Op K V → PC K V
  | .insert key value => .insert key value 0 .loadOccupied
  | .find key => .find key 0 .loadOccupied

/-- One step of one thread. A call starts only in a thread that is not
inside another call. -/
def prog (m : Mem K V) :
    PC K V → Choice (Op K V) → Outcome (Mem K V) (PC K V) (Event K V)
  | .idle, .call op => ⟨m, start op, none⟩
  | .insert key value i pc, .go => insert B m false key value i pc
  | .insert key value i pc, .fault => insert B m true key value i pc
  | .find key i pc, .go => find B m key i pc
  | pc, _ => ⟨m, pc, none⟩

/-- The constructor leaves keys and values as their own constructors do. -/
def system (ι : Type*) (key : ℕ → K) (value : ℕ → V) :
    System ι (Mem K V) (PC K V) (Choice (Op K V)) (Event K V) where
  init := ⟨⟨key, value, fun _ => false, fun _ => false⟩, fun _ => .idle⟩
  prog := prog B

end Program

/-! ## What one step can do -/

/-- The bucket is of no use to an insert at this access: not ready, of
another key, or lost to another claim. -/
def Rejects {K V : Type*} (m : Mem K V) (key : K) (b : ℕ) : InsertPC → Prop
  | .loadReady => m.ready b = false
  | .compareKey => m.key b ≠ key
  | .cas => m.occupied b = true
  | _ => False

/-- The steps of a thread, one constructor per access and branch outcome. -/
inductive Effect {K V : Type*} (B : Table K) (m : Mem K V) :
    PC K V → Mem K V → PC K V → Option (Event K V) → Prop
  | stay (pc) : Effect B m pc m pc none
  | start (op) : Effect B m .idle m (start op) none
  | occupied (key value i) (h : m.occupied (B.bucket key i) = true) :
      Effect B m (.insert key value i .loadOccupied) m (.insert key value i .loadReady) none
  | vacant (key value i) :
      Effect B m (.insert key value i .loadOccupied) m (.insert key value i .cas) none
  | ready (key value i) (h : m.ready (B.bucket key i) = true) :
      Effect B m (.insert key value i .loadReady) m (.insert key value i .compareKey) none
  | next (key value i pc) (h : Rejects m key (B.bucket key i) pc) (hi : i + 1 < B.size) :
      Effect B m (.insert key value i pc) m
        (.insert key value (i + 1) .loadOccupied) none
  | tableFull (key value i pc) (h : Rejects m key (B.bucket key i) pc)
      (hi : ¬ i + 1 < B.size) :
      Effect B m (.insert key value i pc) m .idle (some (.tableFull key))
  | duplicate (key value i) (h : m.key (B.bucket key i) = key) :
      Effect B m (.insert key value i .compareKey) m .idle (some (.duplicate key))
  | claim (key value i) (h : m.occupied (B.bucket key i) = false) :
      Effect B m (.insert key value i .cas)
        { m with occupied := Function.update m.occupied (B.bucket key i) true }
        (.insert key value i .writeKey) none
  | throwKey (key value i) :
      Effect B m (.insert key value i .writeKey) m .idle (some (.threw key))
  | writeKey (key value i) :
      Effect B m (.insert key value i .writeKey)
        { m with key := Function.update m.key (B.bucket key i) key }
        (.insert key value i .writeValue) none
  | throwValue (key value i) :
      Effect B m (.insert key value i .writeValue) m .idle (some (.threw key))
  | writeValue (key value i) :
      Effect B m (.insert key value i .writeValue)
        { m with value := Function.update m.value (B.bucket key i) value }
        (.insert key value i .publish) none
  | publish (key value i) :
      Effect B m (.insert key value i .publish)
        { m with ready := Function.update m.ready (B.bucket key i) true }
        .idle (some (.inserted key value))
  | findOccupied (key i) (h : m.occupied (B.bucket key i) = true) :
      Effect B m (.find key i .loadOccupied) m (.find key i .loadReady) none
  | findVacant (key i) (h : m.occupied (B.bucket key i) = false) :
      Effect B m (.find key i .loadOccupied) m .idle (some (.absent key))
  | findReady (key i pc) (hpc : pc = .loadReady ∨ pc = .spin)
      (h : m.ready (B.bucket key i) = true) :
      Effect B m (.find key i pc) m (.find key i .compareKey) none
  | findSpin (key i pc) (hpc : pc = .loadReady ∨ pc = .spin)
      (h : m.ready (B.bucket key i) = false) :
      Effect B m (.find key i pc) m (.find key i .spin) none
  | findMatch (key i) (h : m.key (B.bucket key i) = key) :
      Effect B m (.find key i .compareKey) m (.find key i .readValue) none
  | findNext (key i) (h : m.key (B.bucket key i) ≠ key) (hi : i + 1 < B.size) :
      Effect B m (.find key i .compareKey) m (.find key (i + 1) .loadOccupied) none
  | findEnd (key i) (h : m.key (B.bucket key i) ≠ key) (hi : ¬ i + 1 < B.size) :
      Effect B m (.find key i .compareKey) m .idle (some (.absent key))
  | findRead (key i) :
      Effect B m (.find key i .readValue) m .idle
        (some (.found key (m.value (B.bucket key i))))

section Inversion

variable {K V : Type*} [DecidableEq K] {B : Table K}

omit [DecidableEq K] in
theorem insertNext_effect {m : Mem K V} {key : K} (value : V) {i : ℕ} {pc : InsertPC}
    (h : Rejects m key (B.bucket key i) pc) :
    Effect B m (.insert key value i pc) (insertNext B m key value i).mem
      (insertNext B m key value i).pc (insertNext B m key value i).event := by
  unfold insertNext
  split_ifs with hi
  · exact .next key value i pc h hi
  · exact .tableFull key value i pc h hi

theorem insert_effect (m : Mem K V) (throws : Bool) (key : K) (value : V) (i : ℕ)
    (pc : InsertPC) :
    Effect B m (.insert key value i pc) (insert B m throws key value i pc).mem
      (insert B m throws key value i pc).pc (insert B m throws key value i pc).event := by
  cases pc <;> simp only [insert]
  case loadOccupied =>
      split_ifs with h
      · exact .occupied key value i h
      · exact .vacant key value i
  case loadReady =>
      split_ifs with h
      · exact .ready key value i h
      · exact insertNext_effect value (by simpa [Rejects] using h)
  case compareKey =>
      split_ifs with h
      · exact .duplicate key value i h
      · exact insertNext_effect value h
  case cas =>
      split_ifs with h
      · exact insertNext_effect value h
      · exact .claim key value i (by simpa using h)
  case writeKey =>
      split_ifs
      · exact .throwKey key value i
      · exact .writeKey key value i
  case writeValue =>
      split_ifs
      · exact .throwValue key value i
      · exact .writeValue key value i
  case publish => exact .publish key value i

theorem find_effect (m : Mem K V) (key : K) (i : ℕ) (pc : FindPC) :
    Effect B m (.find key i pc) (find B m key i pc).mem (find B m key i pc).pc
      (find B m key i pc).event := by
  cases pc <;> simp only [find]
  case loadOccupied =>
      split_ifs with h
      · exact .findOccupied key i h
      · exact .findVacant key i (by simpa using h)
  case loadReady =>
      split_ifs with h
      · exact .findReady key i _ (Or.inl rfl) h
      · exact .findSpin key i _ (Or.inl rfl) (by simpa using h)
  case spin =>
      split_ifs with h
      · exact .findReady key i _ (Or.inr rfl) h
      · exact .findSpin key i _ (Or.inr rfl) (by simpa using h)
  case compareKey =>
      split_ifs with h hi
      · exact .findMatch key i h
      · exact .findNext key i h hi
      · exact .findEnd key i h hi
  case readValue => exact .findRead key i

theorem prog_effect (m : Mem K V) (pc : PC K V) (ch : Choice (Op K V)) :
    Effect B m pc (prog B m pc ch).mem (prog B m pc ch).pc (prog B m pc ch).event := by
  cases pc with
  | idle => cases ch with
    | call op => exact .start op
    | go => exact .stay _
    | fault => exact .stay _
  | insert key value i pc => cases ch with
    | call op => exact .stay _
    | go => exact insert_effect m false key value i pc
    | fault => exact insert_effect m true key value i pc
  | find key i pc => cases ch with
    | call op => exact .stay _
    | go => exact find_effect m key i pc
    | fault => exact .stay _

end Inversion

end HashMap

end Lockless
