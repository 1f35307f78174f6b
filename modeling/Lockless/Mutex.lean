import Lockless.Progress

/-!
# Critical sections

A program may perform some of its accesses under a mutex. As long as the memory is all that
is asked about, such an access can be taken as one step, since no other thread gets at what
the mutex protects meanwhile. How many steps a call makes is another matter: a thread that
finds the mutex locked waits, for as long as the other thread is in its section.

Here such a program is given its mutexes back. `prog` locks, performs the access and
unlocks, in one step each. Its runs are those of the program it is made of, with steps in
between that do nothing there (`run_base`, `history_base`). A locked mutex is held by one
thread (`inv_run`), which gives it back within two steps of its own (`releases`). And calls
with a bound still have one, but for the steps at which they find a mutex locked
(`bounded`).
-/

namespace Lockless

namespace Mutex

variable {ι μ π α κ ε : Type*}

/-- The memory of the program and which mutexes are locked. -/
structure Mem (μ α : Type*) where
  base : μ
  locked : α → Bool

def Mem.set [DecidableEq α] (m : Mem μ α) (i : α) (b : Bool) : Mem μ α :=
  { m with locked := Function.update m.locked i b }

/-- A thread that holds no mutex; one that has locked the mutex of its next access; and one
that has performed the access and unlocks the mutex next. -/
inductive PC (mutex : π → Option α) where
  | outside (pc : π)
  | inside (pc : π) (i : α) (h : mutex pc = some i)
  | leaving (pc : π) (i : α)
deriving DecidableEq

variable {mutex : π → Option α}

/-- Where the thread is in the program. -/
def PC.base : PC mutex → π
  | .outside pc => pc
  | .inside pc _ _ => pc
  | .leaving pc _ => pc

/-- The mutex the thread has locked. -/
def PC.holds : PC mutex → Option α
  | .outside _ => none
  | .inside _ i _ => some i
  | .leaving _ i => some i

/-- What a step asks of the program. A lock, an unlock and a wait ask nothing of it. -/
def PC.asks : PC mutex → Choice κ → Choice κ
  | .outside pc, ch => if (mutex pc).isSome then .fault else ch
  | .inside _ _ _, .go => .go
  | _, _ => .fault

section Program

variable [DecidableEq α]

/-- A step of the program, within a critical section or outside of one. -/
def access (base : μ → π → Choice κ → Outcome μ π ε) (m : Mem μ α) (pc : π) (ch : Choice κ)
    (next : π → PC mutex) : Outcome (Mem μ α) (PC mutex) ε :=
  ⟨{ m with base := (base m.base pc ch).mem }, next (base m.base pc ch).pc,
    (base m.base pc ch).event⟩

/-- The next step of a thread that holds no mutex. A `lock` that finds the mutex locked
leaves it where it is. -/
def enter (base : μ → π → Choice κ → Outcome μ π ε) (m : Mem μ α) (pc : π) (ch : Choice κ) :
    Outcome (Mem μ α) (PC mutex) ε :=
  match h : mutex pc, ch with
  | none, ch => access base m pc ch .outside
  | some i, .go =>
      if m.locked i then ⟨m, .outside pc, none⟩ else ⟨m.set i true, .inside pc i h, none⟩
  | some _, _ => ⟨m, .outside pc, none⟩

def prog (base : μ → π → Choice κ → Outcome μ π ε) (mutex : π → Option α) (m : Mem μ α) :
    PC mutex → Choice κ → Outcome (Mem μ α) (PC mutex) ε
  | .outside pc, ch => enter base m pc ch
  | .inside pc i _, .go => access base m pc .go fun pc => .leaving pc i
  | .leaving pc i, .go => ⟨m.set i false, .outside pc, none⟩
  | pc, _ => ⟨m, pc, none⟩

/-- All mutexes are unlocked at first. -/
def system (S : System ι μ π (Choice κ) ε) (mutex : π → Option α) :
    System ι (Mem μ α) (PC mutex) (Choice κ) ε where
  init := ⟨⟨S.init.mem, fun _ => false⟩, fun p => .outside (S.init.pc p)⟩
  prog := prog S.prog mutex

/-- The steps of a thread. -/
inductive Effect (base : μ → π → Choice κ → Outcome μ π ε) (m : Mem μ α) :
    PC mutex → Choice κ → Outcome (Mem μ α) (PC mutex) ε → Prop
  | atLock (pc i ch) (h : mutex pc = some i) (hch : ch ≠ .go) :
      Effect base m (.outside pc) ch ⟨m, .outside pc, none⟩
  | atAccess (pc i h ch) (hch : ch ≠ .go) :
      Effect base m (.inside pc i h) ch ⟨m, .inside pc i h, none⟩
  | atUnlock (pc i ch) (hch : ch ≠ .go) :
      Effect base m (.leaving pc i) ch ⟨m, .leaving pc i, none⟩
  | plain (pc ch) (h : mutex pc = none) :
      Effect base m (.outside pc) ch (access base m pc ch .outside)
  | wait (pc i) (h : mutex pc = some i) (hlocked : m.locked i = true) :
      Effect base m (.outside pc) .go ⟨m, .outside pc, none⟩
  | lock (pc i) (h : mutex pc = some i) (hfree : m.locked i = false) :
      Effect base m (.outside pc) .go ⟨m.set i true, .inside pc i h, none⟩
  | access (pc i h) :
      Effect base m (.inside pc i h) .go (access base m pc .go fun pc => .leaving pc i)
  | unlock (pc i) : Effect base m (.leaving pc i) .go ⟨m.set i false, .outside pc, none⟩

theorem prog_effect (base : μ → π → Choice κ → Outcome μ π ε) (m : Mem μ α) (pc : PC mutex)
    (ch : Choice κ) : Effect base m pc ch (prog base mutex m pc ch) := by
  cases pc with
  | outside pc =>
      show Effect base m (.outside pc) ch (enter base m pc ch)
      unfold enter
      split
      · next h => exact .plain pc _ h
      · next i h =>
          split_ifs with hlocked
          · exact .wait pc i h hlocked
          · exact .lock pc i h (Bool.not_eq_true _ ▸ hlocked)
      · next i h hch => exact .atLock pc i _ h hch
  | inside pc i h =>
      cases ch with
      | go => exact .access pc i h
      | call op => exact .atAccess pc i h _ nofun
      | fault => exact .atAccess pc i h _ nofun
  | leaving pc i =>
      cases ch with
      | go => exact .unlock pc i
      | call op => exact .atUnlock pc i _ nofun
      | fault => exact .atUnlock pc i _ nofun

end Program

/-! ## The program without its mutexes -/

section Base

variable [DecidableEq α] {S : System ι μ π (Choice κ) ε}

omit [DecidableEq α] in
theorem asks_outside {pc : π} {i : α} (h : mutex pc = some i) (ch : Choice κ) :
    (PC.outside pc : PC mutex).asks ch = .fault := by
  simp [PC.asks, h]

/-- A step is one of the program, or does nothing there. -/
theorem prog_base {base : μ → π → Choice κ → Outcome μ π ε}
    (hstay : ∀ m pc, base m pc .fault = ⟨m, pc, none⟩) (m : Mem μ α) (pc : PC mutex)
    (ch : Choice κ) :
    (prog base mutex m pc ch).mem.base = (base m.base pc.base (pc.asks ch)).mem
      ∧ (prog base mutex m pc ch).pc.base = (base m.base pc.base (pc.asks ch)).pc
      ∧ (prog base mutex m pc ch).event = (base m.base pc.base (pc.asks ch)).event := by
  have he := prog_effect base m pc ch
  generalize prog base mutex m pc ch = o at he
  -- a step of the program, or the adverse outcome, which stays
  cases he with
  | plain pc ch h =>
      have hasks : (PC.outside pc : PC mutex).asks ch = ch := by simp [PC.asks, h]
      rw [hasks]
      exact ⟨rfl, rfl, rfl⟩
  | access pc i h => exact ⟨rfl, rfl, rfl⟩
  | atLock pc i ch h hch =>
      rw [asks_outside h, hstay]
      exact ⟨rfl, rfl, rfl⟩
  | wait pc i h hlocked =>
      rw [asks_outside h, hstay]
      exact ⟨rfl, rfl, rfl⟩
  | lock pc i h hfree =>
      rw [asks_outside h, hstay]
      exact ⟨rfl, rfl, rfl⟩
  | atAccess pc i h ch hch =>
      have hasks : (PC.inside pc i h).asks ch = .fault := by
        cases ch <;> first | rfl | exact absurd rfl hch
      rw [hasks, hstay]
      exact ⟨rfl, rfl, rfl⟩
  | atUnlock pc i ch hch =>
      have hasks : (PC.leaving pc i : PC mutex).asks ch = .fault := rfl
      rw [hasks, hstay]
      exact ⟨rfl, rfl, rfl⟩
  | unlock pc i =>
      have hasks : (PC.leaving pc i : PC mutex).asks (.go : Choice κ) = .fault := rfl
      rw [hasks, hstay]
      exact ⟨rfl, rfl, rfl⟩

variable [DecidableEq ι] (hstay : ∀ m pc, S.prog m pc .fault = ⟨m, pc, none⟩)

include hstay

theorem run_base (mutex : π → Option α) (sched : ℕ → ι × Choice κ) (n : ℕ) :
    System.project Mem.base PC.base ((system S mutex).run sched n)
      = S.run ((system S mutex).projectSched (fun _ => PC.asks) sched) n :=
  System.run_project _ rfl (fun m pc ch => (prog_base hstay m pc ch).1)
    (fun m pc ch => (prog_base hstay m pc ch).2.1) sched n

theorem history_base (mutex : π → Option α) (sched : ℕ → ι × Choice κ) (n : ℕ) :
    (system S mutex).history sched n
      = S.history ((system S mutex).projectSched (fun _ => PC.asks) sched) n :=
  System.history_project _ rfl (fun m pc ch => (prog_base hstay m pc ch).1)
    (fun m pc ch => (prog_base hstay m pc ch).2.1)
    (fun m pc ch => (prog_base hstay m pc ch).2.2) sched n

end Base

/-! ## Who holds a mutex -/

/-- The mutexes that are locked are those held by a thread, each by one. -/
structure Held (locked : α → Bool) (holds : ι → Option α) : Prop where
  locked_iff : ∀ i, locked i = true ↔ ∃ p, holds p = some i
  exclusive : Exclusive holds

namespace Held

variable [DecidableEq ι] [DecidableEq α] {locked : α → Bool} {holds : ι → Option α} {p : ι} {i : α}

theorem lock (h : Held locked holds) (hp : holds p = none) (hi : locked i = false) :
    Held (Function.update locked i true) (Function.update holds p (some i)) := by
  have hfree : ∀ q, holds q ≠ some i := by
    intro q hq
    rw [(h.locked_iff i).mpr ⟨q, hq⟩] at hi
    cases hi
  refine ⟨fun j => ?_, h.exclusive.claim hfree⟩
  by_cases hj : j = i
  · subst hj
    exact iff_of_true (Function.update_self ..) ⟨p, Function.update_self ..⟩
  · rw [Function.update_of_ne hj, h.locked_iff]
    constructor
    · rintro ⟨q, hq⟩
      exact ⟨q, update_of_claimed (by simp [hp]) hq⟩
    · rintro ⟨q, hq⟩
      rcases of_update (P := (· = some j)) hq with ⟨-, he⟩ | ⟨-, hq⟩
      · exact absurd (Option.some.inj he).symm hj
      · exact ⟨q, hq⟩

theorem unlock (h : Held locked holds) (hp : holds p = some i) :
    Held (Function.update locked i false) (Function.update holds p none) := by
  refine ⟨fun j => ?_, h.exclusive.release p⟩
  by_cases hj : j = i
  · subst hj
    refine iff_of_false (by simp) ?_
    rintro ⟨q, hq⟩
    obtain ⟨hne, hq⟩ := update_none_eq_some hq
    exact hne (h.exclusive hq hp)
  · rw [Function.update_of_ne hj, h.locked_iff]
    constructor
    · rintro ⟨q, hq⟩
      refine ⟨q, update_of_claimed ?_ hq⟩
      rw [hp]
      exact fun e => hj (Option.some.inj e).symm
    · rintro ⟨q, hq⟩
      exact ⟨q, (update_none_eq_some hq).2⟩

end Held

section Holders

variable [DecidableEq ι] [DecidableEq α] {S : System ι μ π (Choice κ) ε}

theorem held_next {c : Config ι (Mem μ α) (PC mutex)}
    (h : Held c.mem.locked fun p => (c.pc p).holds) (a : ι × Choice κ) :
    Held ((system S mutex).next c a).mem.locked
      fun p => (((system S mutex).next c a).pc p).holds := by
  have he := prog_effect S.prog c.mem (c.pc a.1) a.2
  have hkeep : ∀ v : PC mutex, v.holds = (c.pc a.1).holds →
      (fun p => (Function.update c.pc a.1 v p).holds) = fun p => (c.pc p).holds := by
    intro v hv
    rw [map_update, hv]
    exact Function.update_eq_self _ _
  simp only [System.next, System.outcome, system]
  generalize hpc : c.pc a.1 = pc at he hkeep ⊢
  generalize a.2 = ch at he ⊢
  generalize prog S.prog mutex c.mem pc ch = o at he ⊢
  cases he with
  | atLock => exact (hkeep _ rfl).symm ▸ h
  | atAccess => exact (hkeep _ rfl).symm ▸ h
  | atUnlock => exact (hkeep _ rfl).symm ▸ h
  | plain pc ch =>
      have hsame := hkeep (.outside (S.prog c.mem.base pc ch).pc) rfl
      exact hsame.symm ▸ h
  | wait pc i => exact (hkeep _ rfl).symm ▸ h
  | lock pc i hi hfree =>
      rw [map_update]
      exact h.lock (congrArg PC.holds hpc) hfree
  | access pc i hi =>
      have hsame := hkeep (.leaving (S.prog c.mem.base pc .go).pc i) rfl
      exact hsame.symm ▸ h
  | unlock pc i =>
      rw [map_update]
      exact h.unlock (congrArg PC.holds hpc)

theorem held_run (mutex : π → Option α) (sched : ℕ → ι × Choice κ) (n : ℕ) :
    Held ((system S mutex).run sched n).mem.locked
      fun p => (((system S mutex).run sched n).pc p).holds :=
  (system S mutex).invariant (I := fun c _ => Held c.mem.locked fun p => (c.pc p).holds)
    ⟨fun _ => iff_of_false Bool.false_ne_true nofun, nofun⟩ (fun _ _ a h => held_next h a) sched n

end Holders

/-! ## Calls with a bound -/

def PC.busy (busy : π → Bool) : PC mutex → Bool
  | .outside pc => busy pc
  | _ => true

def PC.active (active : π → Choice κ → Bool) : PC mutex → Choice κ → Bool
  | .outside pc, ch =>
      match mutex pc, ch with
      | none, ch => active pc ch
      | some _, .go => true
      | some _, _ => false
  | .inside _ _ _, .go => true
  | .leaving _ _, .go => true
  | _, _ => false

/-- The thread is about to lock a mutex that is locked. -/
def blocked (m : Mem μ α) : PC mutex → Bool
  | .outside pc => (mutex pc).any m.locked
  | _ => false

/-- The thread is about to make a step at which the program waits. -/
def baseWaits (waits : μ → π → Bool) (m : Mem μ α) : PC mutex → Bool
  | .outside pc => (mutex pc).isNone && waits m.base pc
  | .inside pc _ _ => waits m.base pc
  | .leaving _ _ => false

/-- What is left of a call with `left` steps of the program and `sections` critical
sections: two steps more for each section. -/
def PC.left (busy : π → Bool) (left sections : π → ℕ) : PC mutex → ℕ
  | .outside pc => left pc + 2 * sections pc
  | .inside pc _ _ => left pc + 2 * sections pc - 1
  | .leaving pc _ => if busy pc then left pc + 2 * sections pc + 1 else 1

/-- A call has `sections` critical sections left. -/
structure Sections (base : μ → π → Choice κ → Outcome μ π ε) (busy : π → Bool)
    (active : π → Choice κ → Bool) (left : π → ℕ) (mutex : π → Option α) (sections : π → ℕ) :
    Prop where
  inside : ∀ pc i, mutex pc = some i →
    active pc .go = true ∧ busy pc = true ∧ 0 < left pc ∧ 0 < sections pc
  own : ∀ m pc ch, active pc ch = true →
    (busy pc = true ∧ busy (base m pc ch).pc = false)
      ∨ sections (base m pc ch).pc + (mutex pc).isSome.toNat ≤ sections pc

section Bound

variable [DecidableEq α] {base : μ → π → Choice κ → Outcome μ π ε} {busy : π → Bool}
  {active : π → Choice κ → Bool} {waits : μ → π → Bool} {left sections : π → ℕ}

/-- Where a mutex is locked, another step is paid for by what is counted beside. -/
theorem bounded (h : Bounded base busy active waits left)
    (hs : Sections base busy active left mutex sections) :
    Bounded (prog base mutex) (PC.busy busy) (PC.active active)
      (fun m pc => blocked m pc || baseWaits waits m pc) (PC.left busy left sections) where
  stays m pc ch hact := by
    have he := prog_effect base m pc ch
    generalize prog base mutex m pc ch = o at he ⊢
    cases he with
    | plain pc ch hpc =>
        simp only [PC.active, hpc] at hact
        exact congrArg PC.outside (h.stays _ _ _ hact)
    | lock pc i hi => simp [PC.active, hi] at hact
    | access => exact absurd hact.symm Bool.false_ne_true
    | unlock => exact absurd hact.symm Bool.false_ne_true
    | _ => rfl
  own m pc ch hact := by
    have he := prog_effect base m pc ch
    generalize prog base mutex m pc ch = o at he ⊢
    cases he with
    | atLock pc i ch hi hch => cases ch <;> simp_all [PC.active]
    | atAccess pc i hi ch hch => cases ch <;> simp_all [PC.active]
    | atUnlock pc i ch hch => cases ch <;> simp_all [PC.active]
    | plain pc ch hpc =>
        simp only [PC.active, hpc] at hact
        rcases hs.own m.base pc ch hact with hreturn | hsections
        · exact Or.inl hreturn
        rcases h.own m.base pc ch hact with hreturn | hleft
        · exact Or.inl hreturn
        refine Or.inr ?_
        simp only [access, PC.left, blocked, baseWaits, hpc, Option.any_none, Option.isNone_none,
          Option.isSome_none, Bool.true_and, Bool.false_or, Bool.toNat_false] at hsections ⊢
        omega
    | wait pc i hi hlocked =>
        refine Or.inr ?_
        simp [blocked, hi, hlocked]
    | lock pc i hi hfree =>
        obtain ⟨-, -, hleft, -⟩ := hs.inside pc i hi
        refine Or.inr ?_
        simp only [PC.left]
        omega
    | access pc i hi =>
        obtain ⟨hgo, hbusy, hpos, hsec⟩ := hs.inside pc i hi
        refine Or.inr ?_
        simp only [access, PC.left, blocked, baseWaits, Bool.false_or]
        split_ifs with hnext
        · rcases hs.own m.base pc .go hgo with ⟨-, hreturn⟩ | hsections
          · exact absurd hnext (Bool.eq_false_iff.mp hreturn)
          rcases h.own m.base pc .go hgo with ⟨-, hreturn⟩ | hleft
          · exact absurd hnext (Bool.eq_false_iff.mp hreturn)
          rw [hi, Option.isSome_some, Bool.toNat_true] at hsections
          omega
        · omega
    | unlock pc i =>
        simp only [PC.left, blocked, baseWaits, Bool.false_or, Bool.toNat_false]
        split_ifs with hbusy
        · exact Or.inr (Nat.le_refl _)
        · exact Or.inl ⟨rfl, Bool.eq_false_iff.mpr hbusy⟩

variable [DecidableEq ι] {S : System ι μ π (Choice κ) ε} {sched : ℕ → ι × Choice κ} {n d : ℕ}
  {p : ι}

/-- Until it returns, a thread makes so many steps, those at which the program waits, and
those at which it finds a mutex locked. -/
theorem ticks_le (h : Bounded S.prog busy active waits left)
    (hs : Sections S.prog busy active left mutex sections)
    (hin : ∀ t, n ≤ t → t < n + d → (sched t).1 = p →
      (system S mutex).returnsAt (PC.busy busy) sched t = false) :
    ticks ((system S mutex).stepsAt (PC.active active) sched p) n d
      ≤ (((system S mutex).run sched n).pc p).left busy left sections
        + ticks ((system S mutex).waitsAt (PC.active active) blocked sched p) n d
        + ticks ((system S mutex).waitsAt (PC.active active) (baseWaits waits) sched p) n d := by
  have hbounded : Bounded (system S mutex).prog _ _ _ _ := bounded h hs
  have hle := hbounded.ticks_le hin
  have hor : (system S mutex).waitsAt (PC.active active)
        (fun m pc => blocked m pc || baseWaits waits m pc) sched p
      = fun t => (system S mutex).waitsAt (PC.active active) blocked sched p t
        || (system S mutex).waitsAt (PC.active active) (baseWaits waits) sched p t :=
    funext fun t => Bool.and_or_distrib_left _ _ _
  have hsplit := ticks_or_le ((system S mutex).waitsAt (PC.active active) blocked sched p)
    ((system S mutex).waitsAt (PC.active active) (baseWaits waits) sched p) n d
  rw [hor] at hle
  omega

/-- Who finds a mutex locked waits for another thread, which holds it. -/
theorem exists_holder {t : ℕ}
    (h : (system S mutex).waitsAt (PC.active active) blocked sched p t = true) :
    ∃ pc i q, ((system S mutex).run sched t).pc p = .outside pc ∧ mutex pc = some i ∧ q ≠ p
      ∧ (((system S mutex).run sched t).pc q).holds = some i := by
  rw [System.waitsAt, Bool.and_eq_true] at h
  have hblocked := h.2
  cases hpc : ((system S mutex).run sched t).pc p with
  | outside pc =>
      rw [hpc, blocked, Option.any_eq_true] at hblocked
      obtain ⟨i, hi, hlocked⟩ := hblocked
      obtain ⟨q, hq⟩ := ((held_run mutex sched t).locked_iff i).mp hlocked
      refine ⟨pc, i, q, rfl, hi, ?_, hq⟩
      rintro rfl
      rw [hpc] at hq
      cases hq
  | inside => rw [hpc] at hblocked; cases hblocked
  | leaving => rw [hpc] at hblocked; cases hblocked

/-- The steps until the mutex is unlocked. -/
def PC.owes : PC mutex → ℕ
  | .outside _ => 0
  | .inside _ _ _ => 2
  | .leaving _ _ => 1

theorem owes_step (base : μ → π → Choice κ → Outcome μ π ε) (active : π → Choice κ → Bool)
    (m : Mem μ α) {pc : PC mutex} {i : α} (h : pc.holds = some i) (ch : Choice κ) :
    (prog base mutex m pc ch).pc.owes + (pc.active active ch).toNat ≤ pc.owes := by
  cases pc with
  | outside pc => cases h
  | inside pc j hj => cases ch <;> exact Nat.le_refl _
  | leaving pc j => cases ch <;> exact Nat.le_refl _

/-- With two steps of its own the holder of a mutex has given it back. -/
theorem releases {q : ι} {t : ℕ} {i : α} (hq : (((system S mutex).run sched t).pc q).holds = some i)
    (hsteps : 2 ≤ ticks ((system S mutex).stepsAt (PC.active active) sched q) t d) :
    ∃ k, k ≤ d ∧ (((system S mutex).run sched (t + k)).pc q).holds = none := by
  by_contra hnone
  have hholds : ∀ k, k ≤ d → ∃ j, (((system S mutex).run sched (t + k)).pc q).holds = some j :=
    fun k hk => Option.ne_none_iff_exists'.mp fun hk' => hnone ⟨k, hk, hk'⟩
  have hpaid := ticks_add_le ((system S mutex).stepsAt (PC.active active) sched q)
    (fun _ => false) (fun s => (((system S mutex).run sched s).pc q).owes) (n := t) (d := d)
    (c := 0) fun s hs hlt => ?_
  · have hfirst : ∀ pc : PC mutex, pc.owes ≤ 2 := by
      intro pc
      cases pc <;> simp [PC.owes]
    have hlast : 0 < (((system S mutex).run sched (t + d)).pc q).owes := by
      obtain ⟨j, hj⟩ := hholds d (Nat.le_refl d)
      cases hpc : ((system S mutex).run sched (t + d)).pc q with
      | outside pc =>
          rw [hpc] at hj
          cases hj
      | _ => exact Nat.succ_pos _
    have hle := hfirst (((system S mutex).run sched t).pc q)
    omega
  · obtain ⟨j, hj⟩ := hholds (s - t) (by omega)
    rw [Nat.add_sub_cancel' hs] at hj
    by_cases hp : (sched s).1 = q
    · subst hp
      simp only [System.run_succ, System.next_pc_self, System.stepsAt, decide_true,
        Bool.true_and, Nat.zero_mul, Nat.add_zero]
      exact owes_step S.prog active _ hj _
    · have hpc : ((system S mutex).run sched (s + 1)).pc q = ((system S mutex).run sched s).pc q :=
        System.next_pc_ne _ _ fun e => hp e.symm
      simp [hpc, hp, System.stepsAt]

end Bound

end Mutex

end Lockless
