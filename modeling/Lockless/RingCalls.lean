import Lockless.Ring
import Lockless.Serial

/-!
# Calls of the ring buffer, one after another

With no other thread about, a ring buffer is a queue: `Stored` lists the items in
it, oldest first. The counters are words and wrap around, so it refers to the
exact number `b` of the oldest item, of which `tail_` is the word. Nothing else in
it depends on how large `b` is: the sequence numbers differ from the tickets they
are compared with by less than half a cycle, and the index of a slot is that of
the exact number.

`Pushing` and `Popping` follow a call through its accesses, and there is one lemma
for a step of each. A compare-exchange that fails spuriously starts another
iteration with the same values.
-/

namespace Lockless

namespace Ring

variable {T : Type*}

/-! ## The items in the ring -/

structure Stored (Z : AdmittedSize) (m : Mem T) (b : ℕ) (q : List T) : Prop where
  tail_eq : m.tail = wrap 64 b
  head_eq : m.head = wrap 64 (b + q.length)
  length_le : q.length ≤ Z.size
  items : ∀ {j x}, q[j]? = some x → m.sequences (Z.index (b + j)) = wrap 64 (b + j + 1)
    ∧ m.buffer (Z.index (b + j)) = x
  vacant : ∀ {j}, q.length ≤ j → j < Z.size →
    m.sequences (Z.index (b + j)) = wrap 64 (b + j)

/-- The ring after a push. -/
def Mem.push (Z : AdmittedSize) (m : Mem T) (item : T) : Mem T where
  sequences := Function.update m.sequences (Z.index m.head) (wrap 64 (m.head + 1))
  buffer := Function.update m.buffer (Z.index m.head) item
  head := wrap 64 (m.head + 1)
  tail := m.tail

/-- The ring after a pop. -/
def Mem.pop (Z : AdmittedSize) (moved : T → T) (m : Mem T) : Mem T where
  sequences := Function.update m.sequences (Z.index m.tail) (wrap 64 (m.tail + Z.mask + 1))
  buffer := Function.update m.buffer (Z.index m.tail) (moved (m.buffer (Z.index m.tail)))
  head := m.head
  tail := wrap 64 (m.tail + 1)

namespace Stored

theorem init (Z : AdmittedSize) (buffer : ℕ → T) : Stored Z (initMem buffer) 0 [] := by
  refine ⟨rfl, rfl, Nat.zero_le _, (fun hj => by cases hj), fun {j} _ hj => ?_⟩
  have hsize := Z.size_le
  rw [Nat.zero_add, Z.index_eq_mod, Nat.mod_eq_of_lt hj, wrap_of_lt (by omega)]
  rfl

section Words

variable {Z : AdmittedSize} {m : Mem T} {b : ℕ} {q : List T}

theorem index_head (h : Stored Z m b q) : Z.index m.head = Z.index (b + q.length) := by
  rw [h.head_eq, Z.index_wrap]

theorem index_tail (h : Stored Z m b q) : Z.index m.tail = Z.index b := by
  rw [h.tail_eq, Z.index_wrap]

/-- Two positions of one lap have different slots. -/
theorem index_ne {j k : ℕ} (hjk : j ≠ k) (hj : j < Z.size) (hk : k < Z.size) :
    Z.index (b + j) ≠ Z.index (b + k) := by
  intro hi
  have := Z.index_inj hi (by omega) (by omega)
  omega

/-- With room in the ring the slot of the head shows its ticket. -/
theorem diff_head_of_lt (h : Stored Z m b q) (hlt : q.length < Z.size) :
    signedDiff 64 (m.sequences (Z.index m.head)) m.head = 0 := by
  rw [h.index_head, h.vacant (Nat.le_refl _) hlt, h.head_eq, signedDiff_wrap,
    signedDiff_eq (by omega) (by omega)]
  omega

/-- With an item in the ring the slot of the tail shows its number. -/
theorem diff_tail_of_cons {x : T} (h : Stored Z m b (x :: q)) :
    signedDiff 64 (m.sequences (Z.index m.tail)) (wrap 64 (m.tail + 1)) = 0 := by
  have hseq : m.sequences (Z.index (b + 0)) = wrap 64 (b + 0 + 1) := (h.items (j := 0) rfl).1
  rw [Nat.add_zero] at hseq
  rw [h.index_tail, hseq, h.tail_eq, wrap_wrap_add, signedDiff_wrap,
    signedDiff_eq (by omega) (by omega)]
  omega

theorem diff_tail_of_nil (h : Stored Z m b []) :
    signedDiff 64 (m.sequences (Z.index m.tail)) (wrap 64 (m.tail + 1)) < 0 := by
  have hseq : m.sequences (Z.index (b + 0)) = wrap 64 (b + 0) :=
    h.vacant (Nat.le_refl 0) Z.size_pos
  rw [Nat.add_zero] at hseq
  rw [h.index_tail, hseq, h.tail_eq, wrap_wrap_add, signedDiff_wrap,
    signedDiff_eq (by omega) (by omega)]
  omega

theorem buffer_tail {x : T} (h : Stored Z m b (x :: q)) : m.buffer (Z.index m.tail) = x := by
  rw [h.index_tail]
  exact (h.items (j := 0) rfl).2

theorem push (h : Stored Z m b q) (hlt : q.length < Z.size) (item : T) :
    Stored Z (m.push Z item) b (q ++ [item]) := by
  have hindex := h.index_head
  have hne : ∀ {j}, j < Z.size → j ≠ q.length → Z.index (b + j) ≠ Z.index m.head := by
    intro j hj hjq
    rw [hindex]
    exact index_ne hjq hj hlt
  refine ⟨h.tail_eq, ?_, ?_, fun {j x} hj => ?_, fun {j} hle hj => ?_⟩
  · simp only [Mem.push, h.head_eq, wrap_wrap_add, List.length_append, List.length_singleton,
      Nat.add_assoc]
  · rw [List.length_append, List.length_singleton]
    exact hlt
  · have hlen := (List.getElem?_eq_some_iff.mp hj).1
    rw [List.length_append, List.length_singleton] at hlen
    simp only [Mem.push]
    rcases Nat.lt_or_eq_of_le (Nat.le_of_lt_succ hlen) with hold | rfl
    · rw [List.getElem?_append_left hold] at hj
      rw [Function.update_of_ne (hne (by omega) (by omega)),
        Function.update_of_ne (hne (by omega) (by omega))]
      exact h.items hj
    · rw [List.getElem?_concat_length] at hj
      rw [← hindex, Function.update_self, Function.update_self, h.head_eq, wrap_wrap_add]
      exact ⟨rfl, Option.some.inj hj⟩
  · rw [List.length_append, List.length_singleton] at hle
    simp only [Mem.push]
    rw [Function.update_of_ne (hne hj (by omega))]
    exact h.vacant (by omega) hj

theorem pop {x : T} (h : Stored Z m b (x :: q)) (moved : T → T) :
    Stored Z (m.pop Z moved) (b + 1) q := by
  have hindex := h.index_tail
  have hlen : q.length + 1 ≤ Z.size := h.length_le
  have hne : ∀ {j}, j + 1 < Z.size → Z.index (b + 1 + j) ≠ Z.index m.tail := by
    intro j hj
    rw [hindex, Nat.add_assoc]
    exact index_ne (k := 0) (by omega) (by omega) Z.size_pos
  refine ⟨?_, ?_, by omega, fun {j y} hj => ?_, fun {j} hle hj => ?_⟩
  · simp only [Mem.pop, h.tail_eq, wrap_wrap_add]
  · simp only [Mem.pop, h.head_eq, List.length_cons]
    congr 1
    omega
  · have hjlen := (List.getElem?_eq_some_iff.mp hj).1
    simp only [Mem.pop]
    rw [Function.update_of_ne (hne (by omega)), Function.update_of_ne (hne (by omega))]
    have hitems := h.items (j := j + 1) (x := y) (by simpa using hj)
    rwa [Nat.add_comm j 1, ← Nat.add_assoc] at hitems
  · simp only [Mem.pop]
    by_cases hlast : j + 1 < Z.size
    · rw [Function.update_of_ne (hne hlast)]
      have hvacant := h.vacant (j := j + 1) (by simpa using hle) hlast
      rwa [Nat.add_comm j 1, ← Nat.add_assoc] at hvacant
    · -- the slot just given back is the one of the next lap
      have hj' : b + 1 + j = b + Z.size := by omega
      rw [hj', Z.index_add_size, ← hindex, Function.update_self, h.tail_eq, Nat.add_assoc,
        Z.mask_add_one, wrap_wrap_add]

end Words

/-- A full ring of at least two slots shows the number of its oldest item. -/
theorem diff_head_of_full {Z : PowSize} {m : Mem T} {b : ℕ} {q : List T} (h : Stored Z m b q)
    (hfull : q.length = Z.size) :
    signedDiff 64 (m.sequences (Z.index m.head)) m.head < 0 := by
  have h2 := Z.two_le_size
  have hsize := Z.size_le
  obtain ⟨x, hx⟩ : ∃ x, q[0]? = some x := ⟨q[0], List.getElem?_eq_getElem (by omega)⟩
  have hseq : m.sequences (Z.index (b + 0)) = wrap 64 (b + 0 + 1) := (h.items hx).1
  rw [Nat.add_zero] at hseq
  rw [h.index_head, hfull, Z.index_add_size, hseq, h.head_eq, signedDiff_wrap, hfull,
    signedDiff_eq (by omega) (by omega)]
  omega

end Stored

/-! ## A push, access by access -/

/-- What holds during a `try_push` of `item` into a ring with the items `q`. From
the winning compare-exchange on it refers to the ring before. -/
def Pushing (Z : AdmittedSize) (b : ℕ) (q : List T) (item : T) (m : Mem T) : PushPC → Prop
  | .loadHead => Stored Z m b q
  | .loadSeq head => Stored Z m b q ∧ head = m.head
  | .cas head => Stored Z m b q ∧ head = m.head ∧ q.length < Z.size
  | .copy head => q.length < Z.size ∧ ∃ m₀, Stored Z m₀ b q ∧ head = m₀.head
      ∧ m = { m₀ with head := wrap 64 (head + 1) }
  | .publish head => q.length < Z.size ∧ ∃ m₀, Stored Z m₀ b q ∧ head = m₀.head
      ∧ m = { m₀ with head := wrap 64 (head + 1)
                      buffer := Function.update m₀.buffer (Z.index head) item }

/-- How many accesses are still to come, if none fails. -/
def PushPC.left : PushPC → ℕ
  | .loadHead => 5
  | .loadSeq _ => 4
  | .cas _ => 3
  | .copy _ => 2
  | .publish _ => 1

/-- What a step of `try_push` returns, if it does. -/
def pushReturn : Option (Event T) → Option Bool
  | some (.pushDone _) => some true
  | some .pushFull => some false
  | _ => none

/-- A `try_push` goes on, or returns true with the item in the ring, or false if
there is no room. -/
theorem Pushing.step {Z : PowSize} {b : ℕ} {q : List T} {item : T} {m : Mem T} {pc : PushPC}
    (h : Pushing Z b q item m pc) (spurious : Bool) :
    (∃ pc', (tryPush Z m spurious item pc).pc = .push item pc'
        ∧ pushReturn (tryPush Z m spurious item pc).event = none
        ∧ Pushing Z b q item (tryPush Z m spurious item pc).mem pc'
        ∧ (spurious = false → pc'.left < pc.left))
      ∨ ((tryPush Z m spurious item pc).pc = .idle
        ∧ ((q.length < Z.size ∧ pushReturn (tryPush Z m spurious item pc).event = some true
            ∧ Stored Z (tryPush Z m spurious item pc).mem b (q ++ [item]))
          ∨ (q.length = Z.size ∧ pushReturn (tryPush Z m spurious item pc).event = some false
            ∧ Stored Z (tryPush Z m spurious item pc).mem b q))) := by
  cases pc with
  | loadHead => exact Or.inl ⟨_, rfl, rfl, ⟨h, rfl⟩, fun _ => by simp [PushPC.left]⟩
  | loadSeq head =>
      obtain ⟨hstored, rfl⟩ := h
      rcases Nat.lt_or_eq_of_le hstored.length_le with hlt | hfull
      · have ho : tryPush Z m spurious item (.loadSeq m.head)
            = ⟨m, .push item (.cas m.head), none⟩ := by
          simp only [tryPush, hstored.diff_head_of_lt hlt, if_true]
        rw [ho]
        exact Or.inl ⟨_, rfl, rfl, ⟨hstored, rfl, hlt⟩, fun _ => by simp [PushPC.left]⟩
      · have hdiff := hstored.diff_head_of_full hfull
        have ho : tryPush Z m spurious item (.loadSeq m.head) = ⟨m, .idle, some .pushFull⟩ := by
          simp only [tryPush, hdiff.ne, hdiff, if_false, if_true]
        rw [ho]
        exact Or.inr ⟨rfl, Or.inr ⟨hfull, rfl, hstored⟩⟩
  | cas head =>
      obtain ⟨hstored, rfl, hlt⟩ := h
      cases spurious with
      | false =>
          simp only [tryPush, true_and, if_true]
          exact Or.inl ⟨_, rfl, rfl, ⟨hlt, m, hstored, rfl, rfl⟩,
            fun _ => by simp [PushPC.left]⟩
      | true =>
          simp only [tryPush, Bool.true_eq_false, and_false, if_false]
          exact Or.inl ⟨_, rfl, rfl, ⟨hstored, rfl⟩, fun hf => by cases hf⟩
  | copy head =>
      obtain ⟨hlt, m₀, hstored, rfl, rfl⟩ := h
      exact Or.inl ⟨_, rfl, rfl, ⟨hlt, m₀, hstored, rfl, rfl⟩, fun _ => by simp [PushPC.left]⟩
  | publish head =>
      obtain ⟨hlt, m₀, hstored, rfl, rfl⟩ := h
      exact Or.inr ⟨rfl, Or.inl ⟨hlt, rfl, hstored.push hlt item⟩⟩

/-! ## A pop, access by access -/

/-- What holds during a `try_pop` from a ring with the items `q`. -/
def Popping (Z : AdmittedSize) (moved : T → T) (b : ℕ) (q : List T) (m : Mem T) :
    PopPC T → Prop
  | .loadTail => Stored Z m b q
  | .loadSeq tail => Stored Z m b q ∧ tail = m.tail
  | .cas tail => Stored Z m b q ∧ tail = m.tail ∧ q ≠ []
  | .move tail => q ≠ [] ∧ ∃ m₀, Stored Z m₀ b q ∧ tail = m₀.tail
      ∧ m = { m₀ with tail := wrap 64 (tail + 1) }
  | .publish tail item => ∃ q', q = item :: q' ∧ ∃ m₀, Stored Z m₀ b q ∧ tail = m₀.tail
      ∧ m = { m₀ with tail := wrap 64 (tail + 1)
                      buffer := Function.update m₀.buffer (Z.index tail)
                        (moved (m₀.buffer (Z.index tail))) }

def PopPC.left : PopPC T → ℕ
  | .loadTail => 5
  | .loadSeq _ => 4
  | .cas _ => 3
  | .move _ => 2
  | .publish _ _ => 1

/-- What a step of `try_pop` returns, if it does: the item, or none of them. -/
def popReturn : Option (Event T) → Option (Option T)
  | some (.popDone _ item) => some (some item)
  | some .popEmpty => some none
  | _ => none

/-- A `try_pop` goes on, or returns true with the oldest item, or false if there is
none. -/
theorem Popping.step {Z : AdmittedSize} {moved : T → T} {b : ℕ} {q : List T} {m : Mem T}
    {pc : PopPC T} (h : Popping Z moved b q m pc) (spurious : Bool) :
    (∃ pc', (tryPop Z moved m spurious pc).pc = .pop pc'
        ∧ popReturn (tryPop Z moved m spurious pc).event = none
        ∧ Popping Z moved b q (tryPop Z moved m spurious pc).mem pc'
        ∧ (spurious = false → pc'.left < pc.left))
      ∨ ((tryPop Z moved m spurious pc).pc = .idle
        ∧ ((∃ x q', q = x :: q'
            ∧ popReturn (tryPop Z moved m spurious pc).event = some (some x)
            ∧ Stored Z (tryPop Z moved m spurious pc).mem (b + 1) q')
          ∨ (q = [] ∧ popReturn (tryPop Z moved m spurious pc).event = some none
            ∧ Stored Z (tryPop Z moved m spurious pc).mem b []))) := by
  cases pc with
  | loadTail => exact Or.inl ⟨_, rfl, rfl, ⟨h, rfl⟩, fun _ => by simp [PopPC.left]⟩
  | loadSeq tail =>
      obtain ⟨hstored, rfl⟩ := h
      cases q with
      | cons x q =>
          have ho : tryPop Z moved m spurious (.loadSeq m.tail)
              = ⟨m, .pop (.cas m.tail), none⟩ := by
            simp only [tryPop, hstored.diff_tail_of_cons, if_true]
          rw [ho]
          exact Or.inl ⟨_, rfl, rfl, ⟨hstored, rfl, by simp⟩, fun _ => by simp [PopPC.left]⟩
      | nil =>
          have hdiff := hstored.diff_tail_of_nil
          have ho : tryPop Z moved m spurious (.loadSeq m.tail) = ⟨m, .idle, some .popEmpty⟩ := by
            simp only [tryPop, hdiff.ne, hdiff, if_false, if_true]
          rw [ho]
          exact Or.inr ⟨rfl, Or.inr ⟨rfl, rfl, hstored⟩⟩
  | cas tail =>
      obtain ⟨hstored, rfl, hne⟩ := h
      cases spurious with
      | false =>
          simp only [tryPop, true_and, if_true]
          exact Or.inl ⟨_, rfl, rfl, ⟨hne, m, hstored, rfl, rfl⟩, fun _ => by simp [PopPC.left]⟩
      | true =>
          simp only [tryPop, Bool.true_eq_false, and_false, if_false]
          exact Or.inl ⟨_, rfl, rfl, ⟨hstored, rfl⟩, fun hf => by cases hf⟩
  | move tail =>
      obtain ⟨hne, m₀, hstored, rfl, rfl⟩ := h
      obtain ⟨x, q, rfl⟩ := List.exists_cons_of_ne_nil hne
      refine Or.inl ⟨_, rfl, rfl, ⟨q, ?_, m₀, hstored, rfl, rfl⟩, fun _ => by simp [PopPC.left]⟩
      rw [hstored.buffer_tail]
  | publish tail item =>
      obtain ⟨q', rfl, m₀, hstored, rfl, rfl⟩ := h
      exact Or.inr ⟨rfl, Or.inl ⟨item, q', rfl, rfl, hstored.pop moved⟩⟩

/-! ## A single slot

With a single slot the number in it is always `head_`. So a push is not refused, and writes
over what is in the slot, and what a pop returns has been pushed. -/

/-- A ring with a single slot between calls, in which whatever can be popped satisfies `P`. -/
structure Alone (P : T → Prop) (m : Mem T) : Prop where
  sequence : m.sequences 0 = m.head
  head_lt : m.head < 2 ^ 64
  tail_lt : m.tail < 2 ^ 64
  item : m.head = m.tail ∨ P (m.buffer 0)

/-- What holds during a `try_push` of `item`. -/
def PushingAlone (P : T → Prop) (item : T) (m : Mem T) : PushPC → Prop
  | .loadHead => Alone P m
  | .loadSeq head => Alone P m ∧ head = m.head
  | .cas head => Alone P m ∧ head = m.head
  | .copy head => m.tail < 2 ^ 64 ∧ m.head = wrap 64 (head + 1)
  | .publish head => m.tail < 2 ^ 64 ∧ m.head = wrap 64 (head + 1) ∧ m.buffer 0 = item

/-- What holds during a `try_pop`. -/
def PoppingAlone (P : T → Prop) (m : Mem T) : PopPC T → Prop
  | .loadTail => Alone P m
  | .loadSeq tail => Alone P m ∧ tail = m.tail
  | .cas tail => Alone P m ∧ tail = m.tail ∧ m.head = wrap 64 (tail + 1)
  | .move tail => m.head = wrap 64 (tail + 1) ∧ m.tail = m.head ∧ P (m.buffer 0)
  | .publish tail item => m.head = wrap 64 (tail + 1) ∧ m.tail = m.head ∧ P item

section SingleSlot

variable {Z : AdmittedSize} {P : T → Prop} {item : T} {m : Mem T}

theorem Alone.init (P : T → Prop) (buffer : ℕ → T) : Alone P (initMem buffer) :=
  ⟨rfl, Nat.two_pow_pos 64, Nat.two_pow_pos 64, Or.inl rfl⟩

theorem Alone.mono {P' : T → Prop} (h : Alone P m) (hP : ∀ x, P x → P' x) : Alone P' m :=
  ⟨h.sequence, h.head_lt, h.tail_lt, h.item.imp_right (hP _)⟩

theorem PushingAlone.step (hZ : Z.size = 1) {pc : PushPC} (h : PushingAlone P item m pc)
    (spurious : Bool) :
    (∃ pc', (tryPush Z m spurious item pc).pc = .push item pc'
        ∧ pushReturn (tryPush Z m spurious item pc).event = none
        ∧ PushingAlone P item (tryPush Z m spurious item pc).mem pc')
      ∨ ((tryPush Z m spurious item pc).pc = .idle
        ∧ pushReturn (tryPush Z m spurious item pc).event = some true
        ∧ Alone (· = item) (tryPush Z m spurious item pc).mem) := by
  have hindex := Z.index_of_size_one hZ
  cases pc with
  | loadHead => exact Or.inl ⟨_, rfl, rfl, h, rfl⟩
  | loadSeq head =>
      obtain ⟨halone, rfl⟩ := h
      have ho : tryPush Z m spurious item (.loadSeq m.head)
          = ⟨m, .push item (.cas m.head), none⟩ := by
        simp only [tryPush, hindex, halone.sequence, signedDiff_self, if_true]
      rw [ho]
      exact Or.inl ⟨_, rfl, rfl, halone, rfl⟩
  | cas head =>
      obtain ⟨halone, rfl⟩ := h
      cases spurious with
      | false =>
          simp only [tryPush, true_and, if_true]
          exact Or.inl ⟨_, rfl, rfl, halone.tail_lt, rfl⟩
      | true =>
          simp only [tryPush, Bool.true_eq_false, and_false, if_false]
          exact Or.inl ⟨_, rfl, rfl, halone, rfl⟩
  | copy head =>
      obtain ⟨htail, hhead⟩ := h
      refine Or.inl ⟨_, rfl, rfl, htail, hhead, ?_⟩
      simp [tryPush, hindex]
  | publish head =>
      obtain ⟨htail, hhead, hitem⟩ := h
      refine Or.inr ⟨rfl, rfl, ?_, ?_, htail, Or.inr hitem⟩
      · simp [tryPush, hindex, hhead]
      · simp only [tryPush, hhead, wrap_lt]

theorem PoppingAlone.step (hZ : Z.size = 1) {pc : PopPC T} (h : PoppingAlone P m pc)
    (spurious : Bool) :
    (∃ pc', (tryPop Z id m spurious pc).pc = .pop pc'
        ∧ popReturn (tryPop Z id m spurious pc).event = none
        ∧ PoppingAlone P (tryPop Z id m spurious pc).mem pc')
      ∨ ((tryPop Z id m spurious pc).pc = .idle
        ∧ ∃ r, popReturn (tryPop Z id m spurious pc).event = some r
          ∧ Alone P (tryPop Z id m spurious pc).mem ∧ ∀ x ∈ r, P x) := by
  have hindex := Z.index_of_size_one hZ
  have hmask : Z.mask = 0 := by
    have := Z.mask_add_one
    omega
  cases pc with
  | loadTail => exact Or.inl ⟨_, rfl, rfl, h, rfl⟩
  | loadSeq tail =>
      obtain ⟨halone, rfl⟩ := h
      simp only [tryPop, hindex, halone.sequence]
      split_ifs with heq hlt
      · refine Or.inl ⟨_, rfl, rfl, halone, rfl, ?_⟩
        exact (signedDiff_eq_zero_iff halone.head_lt (wrap_lt 64 _)).mp heq
      · refine Or.inr ⟨rfl, none, rfl, halone, ?_⟩
        intro x hx
        cases hx
      · exact Or.inl ⟨_, rfl, rfl, halone⟩
  | cas tail =>
      obtain ⟨halone, rfl, hhead⟩ := h
      cases spurious with
      | false =>
          have hne : m.head ≠ m.tail := by
            have hlt := halone.tail_lt
            rw [hhead, wrap]
            omega
          simp only [tryPop, true_and, if_true]
          exact Or.inl ⟨_, rfl, rfl, hhead, hhead.symm, halone.item.resolve_left hne⟩
      | true =>
          simp only [tryPop, Bool.true_eq_false, and_false, if_false]
          exact Or.inl ⟨_, rfl, rfl, halone, rfl⟩
  | move tail =>
      obtain ⟨hhead, htail, hitem⟩ := h
      refine Or.inl ⟨_, rfl, rfl, hhead, htail, ?_⟩
      simpa [hindex] using hitem
  | publish tail item =>
      obtain ⟨hhead, htail, hitem⟩ := h
      refine Or.inr ⟨rfl, _, rfl, ⟨?_, ?_, ?_, Or.inl htail.symm⟩, ?_⟩
      · simp [tryPop, hindex, hmask, hhead]
      · simp only [tryPop, hhead, wrap_lt]
      · simp only [tryPop, htail, hhead, wrap_lt]
      · rintro x ⟨⟩
        exact hitem

end SingleSlot

/-! ## Steps of a caller

A function that calls `try_push` or `try_pop` performs the accesses of these. -/

theorem prog_push_access {κ : Type*} (Z : AdmittedSize) (moved : T → T) (m : Mem T) (item : T)
    (pc : PushPC) (ch : Choice κ) :
    ∃ spurious, prog Z moved m (.push item pc) ch.access = tryPush Z m spurious item pc
      ∧ (spurious = false ∨ ch ≠ .go) := by
  cases ch with
  | fault => exact ⟨true, rfl, Or.inr nofun⟩
  | _ => exact ⟨false, rfl, Or.inl rfl⟩

theorem prog_pop_access {κ : Type*} (Z : AdmittedSize) (moved : T → T) (m : Mem T)
    (pc : PopPC T) (ch : Choice κ) :
    ∃ spurious, prog Z moved m (.pop pc) ch.access = tryPop Z moved m spurious pc
      ∧ (spurious = false ∨ ch ≠ .go) := by
  cases ch with
  | fault => exact ⟨true, rfl, Or.inr nofun⟩
  | _ => exact ⟨false, rfl, Or.inl rfl⟩

/-- How many accesses there are until a call returns, if none fails. A caller that is
not inside one has one to start. -/
def PC.left : PC T → ℕ
  | .idle => 6
  | .push _ pc => pc.left
  | .pop pc => pc.left

end Ring

end Lockless
