import Lockless.SpscFifo

/-!
# What `empty` tells

`empty` compares two indices that it loads one after the other. Between the loads
both ends of the queue can move, and then the indices it compares belong to
different moments: `staleHead` is a run in which it returns true although the queue
holds an item all the time.

This takes a push and a pop between the two loads. If one of the ends stays where it
is, equal indices mean that the queue was empty at the first or the second load. And
indices that differ always mean that there was an item: a queue that is empty all the
time does not move.
-/

namespace Lockless

namespace Spsc

variable {κ T : Type*}

/-- The number of items pushed and not yet popped when tick `t` begins. -/
def outstanding [DecidableEq κ] (S : System (Role κ) (Mem T) (PC T) (Choice (Op T)) (Event T))
    (sched : ℕ → Role κ × Choice (Op T)) (t : ℕ) : ℕ :=
  (pushedItems (S.history sched t)).length - (poppedItems (S.history sched t)).length

/-- A call of `empty` by the observer `k` loads the two indices at the ticks `i` and
`j` and returns `result`. -/
structure Loads [DecidableEq κ] (S : System (Role κ) (Mem T) (PC T) (Choice (Op T)) (Event T))
    (sched : ℕ → Role κ × Choice (Op T)) (k : κ) (i j : ℕ) (result : Bool) : Prop where
  first : S.Fires sched i (.observer k) .emptyFirst
  second : S.Fires sched j (.observer k) (.emptyResult result)
  lt : i < j
  between : ∀ t e, i < t → t < j → ¬ S.Fires sched t (.observer k) e

section Run

variable [DecidableEq κ] {Z : PowSize} {moved : T → T} {buffer : ℕ → T}
  {sched : ℕ → Role κ × Choice (Op T)}

theorem exists_effect {t : ℕ} {r : Role κ} {e : Event T}
    (h : (system Z moved κ buffer).Fires sched t r e) :
    ∃ m pc m' pc', Effect Z moved m pc m' pc' (some e) ∧ Fits r pc := by
  have hinv : Inv Z ((system Z moved κ buffer).run sched t) _ := inv_run buffer sched t
  exact ⟨_, _, _, _, (system Z moved κ buffer).effect_of_fires prog_effect h, hinv.fits r⟩

theorem producer_of_fires {t : ℕ} {r : Role κ} {item : T}
    (h : (system Z moved κ buffer).Fires sched t r (.pushed item)) : r = .producer := by
  obtain ⟨m, pc, m', pc', he, hfits⟩ := exists_effect h
  cases he with
  | pushStore item head next => exact hfits.eq_producer

theorem consumer_of_fires {t : ℕ} {r : Role κ} {item : T}
    (h : (system Z moved κ buffer).Fires sched t r (.popped item)) : r = .consumer := by
  obtain ⟨m, pc, m', pc', he, hfits⟩ := exists_effect h
  cases he with
  | popStore tail item => exact hfits.eq_consumer

variable (Z moved buffer sched) in
/-- A tick is a push, a pop or neither. -/
theorem items_succ (t : ℕ) :
    let S := system Z moved κ buffer
    (pushedItems (S.history sched (t + 1)) = pushedItems (S.history sched t)
        ∧ poppedItems (S.history sched (t + 1)) = poppedItems (S.history sched t))
      ∨ (∃ item, S.Fires sched t .producer (.pushed item)
        ∧ pushedItems (S.history sched (t + 1)) = pushedItems (S.history sched t) ++ [item]
        ∧ poppedItems (S.history sched (t + 1)) = poppedItems (S.history sched t))
      ∨ ∃ item, S.Fires sched t .consumer (.popped item)
        ∧ pushedItems (S.history sched (t + 1)) = pushedItems (S.history sched t)
        ∧ poppedItems (S.history sched (t + 1)) = poppedItems (S.history sched t) ++ [item] := by
  intro S
  simp only [System.history_succ, pushedItems_append, poppedItems_append, System.emitted]
  cases hev : (S.outcome (S.run sched t) (sched t)).event with
  | none => exact Or.inl ⟨List.append_nil _, List.append_nil _⟩
  | some e =>
      have hfires : S.Fires sched t (sched t).1 e := ⟨rfl, hev⟩
      cases e with
      | pushed item =>
          have hr := producer_of_fires hfires
          exact Or.inr (Or.inl ⟨item, hr ▸ hfires, rfl, List.append_nil _⟩)
      | popped item =>
          have hr := consumer_of_fires hfires
          exact Or.inr (Or.inr ⟨item, hr ▸ hfires, List.append_nil _, rfl⟩)
      | _ => exact Or.inl ⟨List.append_nil _, List.append_nil _⟩

/-- Something that changes only in some ticks is the same at two moments, or there is
such a tick between them. -/
theorem eq_or_exists_between {α : Type*} {X : ℕ → α} {F : ℕ → Prop}
    (h : ∀ t, X (t + 1) = X t ∨ F t) {i j : ℕ} (hij : i ≤ j) :
    X j = X i ∨ ∃ t, i ≤ t ∧ t < j ∧ F t := by
  induction j, hij using Nat.le_induction with
  | base => exact Or.inl rfl
  | succ j hij ih =>
      rcases ih with hsame | ⟨t, hit, htj, hF⟩
      · rcases h j with heq | hF
        · exact Or.inl (heq.trans hsame)
        · exact Or.inr ⟨j, hij, Nat.lt_succ_self j, hF⟩
      · exact Or.inr ⟨t, hit, Nat.lt_succ_of_lt htj, hF⟩

variable (Z moved buffer sched) in
theorem pushes_between {i j : ℕ} (hij : i ≤ j) :
    let S := system Z moved κ buffer
    pushedItems (S.history sched j) = pushedItems (S.history sched i)
      ∨ ∃ t, i ≤ t ∧ t < j ∧ ∃ item, S.Fires sched t .producer (.pushed item) := by
  intro S
  refine eq_or_exists_between (X := fun t => pushedItems (S.history sched t)) (fun t => ?_) hij
  rcases items_succ Z moved buffer sched t with ⟨hp, -⟩ | ⟨item, hf, -⟩ | ⟨-, -, hp, -⟩
  · exact Or.inl hp
  · exact Or.inr ⟨item, hf⟩
  · exact Or.inl hp

variable (Z moved buffer sched) in
theorem pops_between {i j : ℕ} (hij : i ≤ j) :
    let S := system Z moved κ buffer
    poppedItems (S.history sched j) = poppedItems (S.history sched i)
      ∨ ∃ t, i ≤ t ∧ t < j ∧ ∃ item, S.Fires sched t .consumer (.popped item) := by
  intro S
  refine eq_or_exists_between (X := fun t => poppedItems (S.history sched t)) (fun t => ?_) hij
  rcases items_succ Z moved buffer sched t with ⟨-, hq⟩ | ⟨-, -, -, hq⟩ | ⟨item, hf, -⟩
  · exact Or.inl hq
  · exact Or.inl hq
  · exact Or.inr ⟨item, hf⟩

/-- A queue that is empty all the time does not move. -/
theorem eq_of_empty {i j : ℕ} (hij : i ≤ j)
    (h : ∀ t, i ≤ t → t ≤ j → outstanding (system Z moved κ buffer) sched t = 0) :
    pushedItems ((system Z moved κ buffer).history sched j)
      = pushedItems ((system Z moved κ buffer).history sched i) := by
  have hstay : ∀ t, i ≤ t → t < j →
      pushedItems ((system Z moved κ buffer).history sched (t + 1))
        = pushedItems ((system Z moved κ buffer).history sched t) := by
    intro t hit htj
    rcases items_succ Z moved buffer sched t with ⟨hp, -⟩ | ⟨item, -, hp, hq⟩ | ⟨-, -, hp, -⟩
    · exact hp
    · have hinv : Inv Z ((system Z moved κ buffer).run sched t) _ := inv_run buffer sched t
      have hle := hinv.positions.length_le
      have hzero := h (t + 1) (by omega) (by omega)
      rw [outstanding, hp, hq, List.length_append, List.length_singleton] at hzero
      omega
    · exact hp
  induction j, hij using Nat.le_induction with
  | base => rfl
  | succ j hij ih =>
      rw [hstay j hij (Nat.lt_succ_self j)]
      exact ih (fun t hit htj => h t hit (by omega)) fun t hit htj => hstay t hit (by omega)

end Run

/-! ## The two loads -/

section Loads

variable {Z : PowSize} {moved : T → T} {m m' : Mem T} {pc pc' : PC T}

theorem Effect.of_emptyFirst (he : Effect Z moved m pc m' pc' (some .emptyFirst)) :
    ∃ b, pc' = .observer (.second b (if b then m.head else m.tail)) := by
  cases he with
  | emptyFirst b => exact ⟨b, rfl⟩

theorem Effect.of_emptyResult {result : Bool}
    (he : Effect Z moved m pc m' pc' (some (.emptyResult result))) :
    ∃ b seen, pc = .observer (.second b seen)
      ∧ result = decide (seen = if b then m.tail else m.head) := by
  cases he with
  | emptySecond b seen => exact ⟨b, seen, rfl, rfl⟩

theorem Effect.of_second {b : Bool} {seen : ℕ}
    (he : Effect Z moved m (.observer (.second b seen)) m' pc' none) :
    pc' = .observer (.second b seen) := by
  cases he with
  | stay => rfl

/-- Between its two loads the observer keeps what it has seen. -/
theorem Loads.keeps [DecidableEq κ] {buffer : ℕ → T} {sched : ℕ → Role κ × Choice (Op T)}
    {k : κ} {i j : ℕ} {result b : Bool} {seen : ℕ}
    (h : Loads (system Z moved κ buffer) sched k i j result)
    (hfirst : ((system Z moved κ buffer).run sched (i + 1)).pc (.observer k)
      = .observer (.second b seen)) {t : ℕ} (hit : i + 1 ≤ t) (htj : t ≤ j) :
    ((system Z moved κ buffer).run sched t).pc (.observer k)
      = .observer (.second b seen) := by
  let S := system Z moved κ buffer
  induction t, hit using Nat.le_induction with
  | base => exact hfirst
  | succ t hit ih =>
      have hpc := ih (by omega)
      by_cases hk : .observer k = (sched t).1
      · have hnone : (S.outcome (S.run sched t) (sched t)).event = none := by
          cases hev : (S.outcome (S.run sched t) (sched t)).event with
          | none => rfl
          | some e => exact absurd ⟨hk.symm, hev⟩ (h.between t e (by omega) (by omega))
        have he : Effect Z moved (S.run sched t).mem ((S.run sched t).pc (.observer k))
            (S.run sched (t + 1)).mem ((S.run sched (t + 1)).pc (.observer k)) none := by
          rw [System.run_succ, hk, System.next_pc_self, ← hnone]
          exact prog_effect _ _ _
        rw [hpc] at he
        exact he.of_second
      · rw [System.run_succ, System.next_pc_ne _ _ hk]
        exact hpc

/-- What `empty` compares. -/
theorem Loads.result_eq [DecidableEq κ] {buffer : ℕ → T} {sched : ℕ → Role κ × Choice (Op T)}
    {k : κ} {i j : ℕ} {result : Bool}
    (h : Loads (system Z moved κ buffer) sched k i j result) :
    let S := system Z moved κ buffer
    (result = decide ((S.run sched i).mem.head = (S.run sched j).mem.tail))
      ∨ (result = decide ((S.run sched i).mem.tail = (S.run sched j).mem.head)) := by
  intro S
  obtain ⟨b, hfirst⟩ := (S.effect_of_fires prog_effect h.first).of_emptyFirst
  obtain ⟨b', seen, hpc, hresult⟩ := (S.effect_of_fires prog_effect h.second).of_emptyResult
  rw [h.keeps hfirst h.lt (Nat.le_refl j)] at hpc
  cases hpc
  cases b with
  | true => exact Or.inl hresult
  | false => exact Or.inr hresult

end Loads

section Accuracy

variable [DecidableEq κ] {Z : PowSize} {moved : T → T} {buffer : ℕ → T}
  {sched : ℕ → Role κ × Choice (Op T)}

/-- The same, by the numbers of items pushed and popped. -/
theorem Loads.result_index {k : κ} {i j : ℕ} {result : Bool}
    (h : Loads (system Z moved κ buffer) sched k i j result) :
    let S := system Z moved κ buffer
    (result = decide (Z.index (pushedItems (S.history sched i)).length
        = Z.index (poppedItems (S.history sched j)).length))
      ∨ (result = decide (Z.index (pushedItems (S.history sched j)).length
        = Z.index (poppedItems (S.history sched i)).length)) := by
  intro S
  have hi : Inv Z (S.run sched i) (S.history sched i) := inv_run buffer sched i
  have hj : Inv Z (S.run sched j) (S.history sched j) := inv_run buffer sched j
  rw [← hi.positions.head_eq, ← hi.positions.tail_eq, ← hj.positions.head_eq,
    ← hj.positions.tail_eq]
  rcases h.result_eq with hresult | hresult
  · exact Or.inl hresult
  · exact Or.inr (hresult.trans (decide_eq_decide.mpr eq_comm))

/-- If the index of one end is that of the other, no item is in the queue. -/
theorem outstanding_eq_zero {t : ℕ}
    (h : Z.index (pushedItems ((system Z moved κ buffer).history sched t)).length
      = Z.index (poppedItems ((system Z moved κ buffer).history sched t)).length) :
    outstanding (system Z moved κ buffer) sched t = 0 := by
  have hinv : Inv Z ((system Z moved κ buffer).run sched t) _ := inv_run buffer sched t
  have hle := hinv.positions.length_le
  have hroom := hinv.positions.room
  have heq := Z.index_inj h (by omega) (by omega)
  unfold outstanding
  omega

theorem length_eq_of_outstanding {t : ℕ}
    (h : outstanding (system Z moved κ buffer) sched t = 0) :
    (pushedItems ((system Z moved κ buffer).history sched t)).length
      = (poppedItems ((system Z moved κ buffer).history sched t)).length := by
  have hinv : Inv Z ((system Z moved κ buffer).run sched t) _ := inv_run buffer sched t
  have hle := hinv.positions.length_le
  unfold outstanding at h
  omega

/-- Indices that differ mean that there was an item at some moment. -/
theorem Loads.exists_outstanding {k : κ} {i j : ℕ}
    (h : Loads (system Z moved κ buffer) sched k i j false) :
    ∃ t, i ≤ t ∧ t ≤ j ∧ 0 < outstanding (system Z moved κ buffer) sched t := by
  have hij := Nat.le_of_lt h.lt
  by_contra hnone
  have hzero : ∀ t, i ≤ t → t ≤ j → outstanding (system Z moved κ buffer) sched t = 0 := by
    intro t hit htj
    by_contra hpos
    exact hnone ⟨t, hit, htj, Nat.pos_of_ne_zero hpos⟩
  -- both ends are where they were
  have hpushed := eq_of_empty hij hzero
  have hlen := length_eq_of_outstanding (hzero i (Nat.le_refl i) hij)
  have hlen' := length_eq_of_outstanding (hzero j hij (Nat.le_refl j))
  rcases h.result_index with hresult | hresult
  · rw [← hpushed, hlen'] at hresult
    simp at hresult
  · rw [hpushed, hlen] at hresult
    simp at hresult

/-- If one of the ends has not moved, equal indices mean that the queue was empty at one
of the loads. -/
theorem Loads.exists_empty {k : κ} {i j : ℕ}
    (h : Loads (system Z moved κ buffer) sched k i j true)
    (hsame : pushedItems ((system Z moved κ buffer).history sched j)
        = pushedItems ((system Z moved κ buffer).history sched i)
      ∨ poppedItems ((system Z moved κ buffer).history sched j)
        = poppedItems ((system Z moved κ buffer).history sched i)) :
    ∃ t, i ≤ t ∧ t ≤ j ∧ outstanding (system Z moved κ buffer) sched t = 0 := by
  have hij := Nat.le_of_lt h.lt
  have hfirst : Z.index (pushedItems ((system Z moved κ buffer).history sched i)).length
        = Z.index (poppedItems ((system Z moved κ buffer).history sched i)).length →
      ∃ t, i ≤ t ∧ t ≤ j ∧ outstanding (system Z moved κ buffer) sched t = 0 :=
    fun hindex => ⟨i, Nat.le_refl i, hij, outstanding_eq_zero hindex⟩
  have hsecond : Z.index (pushedItems ((system Z moved κ buffer).history sched j)).length
        = Z.index (poppedItems ((system Z moved κ buffer).history sched j)).length →
      ∃ t, i ≤ t ∧ t ≤ j ∧ outstanding (system Z moved κ buffer) sched t = 0 :=
    fun hindex => ⟨j, hij, Nat.le_refl j, outstanding_eq_zero hindex⟩
  rcases h.result_index with hresult | hresult
  · have hindex := of_decide_eq_true hresult.symm
    rcases hsame with hpushed | hpopped
    · exact hsecond (hpushed ▸ hindex)
    · exact hfirst (hpopped ▸ hindex)
  · have hindex := of_decide_eq_true hresult.symm
    rcases hsame with hpushed | hpopped
    · exact hfirst (hpushed ▸ hindex)
    · exact hsecond (hpopped ▸ hindex)

end Accuracy

/-- Whatever the producer and the consumer do in between, if a call of `empty` returns
false then there was an item in the queue when it loaded the first index, when it loaded the
second, or in between. If it returns true then the queue was empty at one of these
moments, or both a push and a pop were completed between the two loads. -/
theorem empty_accurate [DecidableEq κ] (Z : PowSize) (moved : T → T) (buffer : ℕ → T)
    (sched : ℕ → Role κ × Choice (Op T)) (k : κ) (i j : ℕ) (result : Bool)
    (h : Loads (system Z moved κ buffer) sched k i j result) :
    let S := system Z moved κ buffer
    (result = false → ∃ t, i ≤ t ∧ t ≤ j ∧ 0 < outstanding S sched t)
      ∧ (result = true → (∃ t, i ≤ t ∧ t ≤ j ∧ outstanding S sched t = 0)
        ∨ ((∃ t, i ≤ t ∧ t < j ∧ ∃ item, S.Fires sched t .producer (.pushed item))
          ∧ ∃ t, i ≤ t ∧ t < j ∧ ∃ item, S.Fires sched t .consumer (.popped item))) := by
  intro S
  have hij := Nat.le_of_lt h.lt
  refine ⟨?_, ?_⟩
  · rintro rfl
    exact h.exists_outstanding
  · rintro rfl
    rcases pushes_between Z moved buffer sched hij with hpushed | hpush
    · exact Or.inl (h.exists_empty (Or.inl hpushed))
    · rcases pops_between Z moved buffer sched hij with hpopped | hpop
      · exact Or.inl (h.exists_empty (Or.inr hpopped))
      · exact Or.inr ⟨hpush, hpop⟩

/-! ## An index that is out of date -/

def fourCells : PowSize := ⟨⟨2, by decide⟩, by decide⟩

/-- The queue holds one item when `empty` loads `head_`. A second item is pushed and the
first is popped before it loads `tail_`. -/
def staleHead (i : ℕ) : Role Unit × Choice (Op ℕ) :=
  ([(.producer, .call (.tryPush 7)), (.producer, .go), (.producer, .go), (.producer, .go),
    (.producer, .go), (.observer (), .call (.empty true)), (.observer (), .go),
    (.producer, .call (.tryPush 8)), (.producer, .go), (.producer, .go), (.producer, .go),
    (.producer, .go), (.consumer, .call .tryPop), (.consumer, .go), (.consumer, .go),
    (.consumer, .go), (.consumer, .go)] : List (Role Unit × Choice (Op ℕ))).getD i
    (.observer (), .go)

theorem staleHead_loads :
    Loads (system fourCells id Unit fun _ => 0) staleHead () 6 17 true := by
  refine ⟨by decide, by decide, by decide, ?_⟩
  intro t e h6 h17 hf
  -- the observer takes no step in between
  have hother : (staleHead t).1 ≠ .observer () := by
    interval_cases t <;> decide
  exact hother hf.1

theorem empty_accurate_staleHead :
    let S := system fourCells id Unit fun _ => 0
    (∃ t, 6 ≤ t ∧ t ≤ 17 ∧ outstanding S staleHead t = 0)
      ∨ ((∃ t, 6 ≤ t ∧ t < 17 ∧ ∃ item, S.Fires staleHead t .producer (.pushed item))
        ∧ ∃ t, 6 ≤ t ∧ t < 17 ∧ ∃ item, S.Fires staleHead t .consumer (.popped item)) :=
  (empty_accurate fourCells id (fun _ => 0) staleHead () 6 17 true staleHead_loads).2 rfl

/-- `empty` returns true, and at no moment from its first load to its second is the queue
empty. -/
theorem empty_true_never_empty :
    let S := system fourCells id Unit fun _ => 0
    Loads S staleHead () 6 17 true
      ∧ ∀ t, 6 ≤ t → t ≤ 17 → 0 < outstanding S staleHead t := by
  refine ⟨staleHead_loads, fun t h6 h17 => ?_⟩
  interval_cases t <;> decide

end Spsc

end Lockless
