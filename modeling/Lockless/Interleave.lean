import Mathlib.Tactic
import Mathlib.Logic.Function.Basic

/-!
# Interleavings of atomic steps

A thread program maps the shared memory, the thread's own control state and
the scheduler's choice to the memory and control state its next atomic step
leaves behind, together with at most one observable event. A `System` runs
one such program in every thread of an arbitrary index type, and a run is
driven by an arbitrary schedule `ℕ → ι × ω`: at each tick one thread takes
one step, so quantifying over schedules quantifies over interleavings.

A step that is not enabled leaves the configuration as it is, hence finite
and stuttering runs need no separate treatment: the state after `n` ticks
of some schedule is exactly a reachable state.

What happened is read off the run itself, never off extra state: `Fires`
says that an event happens at a tick, `history` lists the events so far and
`Latest` is the latest event of one thread, or of one kind. The induction rules below come
in two forms, over the configuration alone and over the configuration with
its history.
-/

namespace Lockless

/-- What the scheduler asks of a thread: start a call, take the next atomic
step, or take it with the adverse outcome the language allows there (a weak
compare-exchange fails spuriously, a copy throws). -/
inductive Choice (κ : Type*) where
  | call (op : κ)
  | go
  | fault
deriving DecidableEq

/-- The same step of a component: with the adverse outcome or without. -/
def Choice.access {κ κ' : Type*} : Choice κ → Choice κ'
  | .fault => .fault
  | _ => .go

theorem Choice.go_or_fault {κ : Type*} {ch : Choice κ} (h : ∀ op, ch ≠ .call op) :
    ch = .go ∨ ch = .fault := by
  cases ch with
  | call op => exact absurd rfl (h op)
  | go => exact Or.inl rfl
  | fault => exact Or.inr rfl

/-- What holds of every step of a list and of the one after them holds at every tick. -/
theorem of_getD {α : Type*} {P : α → Prop} {l : List α} {d : α} (hl : ∀ a ∈ l, P a) (hd : P d)
    (i : ℕ) : P (l.getD i d) := by
  rw [List.getD_eq_getElem?_getD]
  cases h : l[i]? with
  | none => exact hd
  | some a => exact hl a (List.mem_of_getElem? h)

theorem filterMap_getElem?_range {α : Type*} (L : List α) (k : ℕ) :
    (List.range k).filterMap (L[·]?) = L.take k := by
  induction k with
  | zero => rfl
  | succ k ih =>
      rw [List.range_succ, List.filterMap_append, ih, List.take_add_one]
      cases h : L[k]? <;> simp [h]

/-- What one atomic step leaves behind. -/
structure Outcome (μ π ε : Type*) where
  mem : μ
  pc : π
  event : Option ε

/-- Shared memory and one control state per thread. -/
@[ext]
structure Config (ι μ π : Type*) where
  mem : μ
  pc : ι → π

/-- A program run by every thread, and the configuration it starts in. -/
structure System (ι μ π ω ε : Type*) where
  init : Config ι μ π
  prog : μ → π → ω → Outcome μ π ε

/-! ## Exclusive claims

A claim map records what each thread has claimed, if anything. -/

/-- No two threads claim the same thing. -/
def Exclusive {ι κ : Type*} (f : ι → Option κ) : Prop :=
  ∀ ⦃p q t⦄, f p = some t → f q = some t → p = q

theorem update_none_eq_some {ι κ : Type*} [DecidableEq ι] {f : ι → Option κ}
    {p q : ι} {t : κ} (h : Function.update f p none q = some t) :
    q ≠ p ∧ f q = some t := by
  by_cases hqp : q = p
  · subst hqp
    simp at h
  · exact ⟨hqp, by rwa [Function.update_of_ne hqp] at h⟩

theorem update_of_claimed {ι κ : Type*} [DecidableEq ι] {f : ι → Option κ}
    {p q : ι} {t : κ} {v : Option κ} (hp : f p ≠ some t) (h : f q = some t) :
    Function.update f p v q = some t := by
  have hqp : q ≠ p := fun e => hp (e ▸ h)
  rwa [Function.update_of_ne hqp]

/-- What holds of the control state of a thread after a step holds of the new
one, or of that of another thread. -/
theorem of_update {ι π : Type*} [DecidableEq ι] {P : π → Prop} {f : ι → π} {p q : ι}
    {v : π} (h : P (Function.update f p v q)) : (q = p ∧ P v) ∨ (q ≠ p ∧ P (f q)) := by
  by_cases hqp : q = p
  · subst hqp
    rw [Function.update_self] at h
    exact Or.inl ⟨rfl, h⟩
  · rw [Function.update_of_ne hqp] at h
    exact Or.inr ⟨hqp, h⟩

theorem map_update {ι π β : Type*} [DecidableEq ι] (f : π → β) (g : ι → π) (p : ι)
    (v : π) : (fun q => f (Function.update g p v q))
      = Function.update (fun q => f (g q)) p (f v) :=
  Function.comp_update f g p v

theorem Exclusive.release {ι κ : Type*} [DecidableEq ι] {f : ι → Option κ}
    (h : Exclusive f) (p : ι) : Exclusive (Function.update f p none) :=
  fun _ _ _ hq hr => h (update_none_eq_some hq).2 (update_none_eq_some hr).2

theorem Exclusive.claim {ι κ : Type*} [DecidableEq ι] {f : ι → Option κ}
    (h : Exclusive f) {p : ι} {v : κ} (hv : ∀ q, f q ≠ some v) :
    Exclusive (Function.update f p (some v)) := by
  intro q r t hq hr
  by_cases hqp : q = p <;> by_cases hrp : r = p
  · rw [hqp, hrp]
  · rw [hqp, Function.update_self] at hq
    rw [Function.update_of_ne hrp, ← hq] at hr
    exact absurd hr (hv r)
  · rw [hrp, Function.update_self] at hr
    rw [Function.update_of_ne hqp, ← hr] at hq
    exact absurd hq (hv q)
  · rw [Function.update_of_ne hqp] at hq
    rw [Function.update_of_ne hrp] at hr
    exact h hq hr

/-! ## The latest event of a thread -/

/-- Among the events of thread `p` that satisfy `φ`, the latest is `e`, and
`H₁` is the history before it. -/
def Latest {ι ε : Type*} (φ : ε → Prop) (p : ι) (e : ε) (H₁ H : List (ι × ε)) : Prop :=
  ∃ H₂, H = H₁ ++ (p, e) :: H₂ ∧ ∀ e', (p, e') ∈ H₂ → ¬ φ e'

namespace Latest

variable {ι ε : Type*} {φ : ε → Prop} {p : ι} {e : ε} {H₁ H : List (ι × ε)}

theorem self (φ : ε → Prop) (p : ι) (e : ε) (H : List (ι × ε)) :
    Latest φ p e H (H ++ [(p, e)]) :=
  ⟨[], rfl, nofun⟩

theorem append (h : Latest φ p e H₁ H) {K : List (ι × ε)}
    (hK : ∀ e', (p, e') ∈ K → ¬ φ e') : Latest φ p e H₁ (H ++ K) := by
  obtain ⟨H₂, rfl, hquiet⟩ := h
  refine ⟨H₂ ++ K, by simp, fun e' he' => ?_⟩
  rcases List.mem_append.mp he' with hm | hm
  · exact hquiet e' hm
  · exact hK e' hm

/-- A step of another thread. -/
theorem append_ne (h : Latest φ p e H₁ H) {q : ι} (hpq : p ≠ q) (ev : Option ε) :
    Latest φ p e H₁ (H ++ (ev.map (Prod.mk q)).toList) := by
  refine h.append fun e' he' => ?_
  cases ev with
  | none => simp at he'
  | some x => simp [hpq] at he'

/-- The event appended last is the latest, or is none of those counted. -/
theorem of_concat {q : ι} {x : ε} (h : Latest φ p e H₁ (H ++ [(q, x)])) :
    (H = H₁ ∧ q = p ∧ x = e) ∨ (Latest φ p e H₁ H ∧ (q = p → ¬ φ x)) := by
  obtain ⟨H₂, hH, hquiet⟩ := h
  rcases List.eq_nil_or_concat H₂ with rfl | ⟨K, y, rfl⟩
  · obtain ⟨hH, hqx⟩ := List.append_inj' hH rfl
    rw [List.singleton_inj, Prod.mk.injEq] at hqx
    exact Or.inl ⟨hH, hqx⟩
  · rw [List.concat_eq_append] at hH hquiet
    have hH' : H ++ [(q, x)] = (H₁ ++ (p, e) :: K) ++ [y] := by simp [hH]
    obtain ⟨rfl, hqx⟩ := List.append_inj' hH' rfl
    rw [List.singleton_inj] at hqx
    subst hqx
    refine Or.inr ⟨⟨K, rfl, fun e' he' => hquiet e' (by simp [he'])⟩, ?_⟩
    rintro rfl
    exact hquiet x (by simp)

theorem prefix_of (h : Latest φ p e H₁ H) : H₁ <+: H := by
  obtain ⟨H₂, rfl, -⟩ := h
  exact List.prefix_append _ _

end Latest

/-! ## The events of a thread -/

section OfThread

variable {ι ε α : Type*} [DecidableEq ι]

def ofThread (p : ι) (H : List (ι × ε)) : List (ι × ε) := H.filter fun e => e.1 = p

theorem ofThread_append (p : ι) (H K : List (ι × ε)) :
    ofThread p (H ++ K) = ofThread p H ++ ofThread p K :=
  List.filter_append H K

/-- What is read off the event of one step. -/
theorem filterMap_ofThread_step (f : ε → Option α) (p q : ι) (ev : Option ε) :
    (ofThread p (ev.map (Prod.mk q)).toList).filterMap (fun e => f e.2)
      = if q = p then (ev.bind f).toList else [] := by
  cases ev with
  | none => split_ifs <;> rfl
  | some e =>
      by_cases hq : q = p
      · cases he : f e <;> simp [ofThread, hq, he]
      · simp [ofThread, hq]

/-- What is read off the events of a thread, among all that is, labelled with its thread. -/
theorem filter_labelled (f : ι × ε → Option α) (p : ι) (H : List (ι × ε)) :
    (H.filterMap fun e => (f e).map (Prod.mk e.1)).filter (fun x => x.1 = p)
      = ((ofThread p H).filterMap f).map (Prod.mk p) := by
  induction H with
  | nil => rfl
  | cons e H ih =>
      rw [ofThread] at ih ⊢
      by_cases hp : e.1 = p
      · cases hf : f e <;> simp [hf, hp, ih]
      · cases hf : f e <;> simp [hf, hp, ih]

/-- The other threads have no part in what is read. -/
theorem filterMap_ofThread_of_others {f : ι × ε → Option α} {p : ι}
    {H : List (ι × ε)} (h : ∀ e ∈ H, e.1 ≠ p → f e = none) :
    (ofThread p H).filterMap f = H.filterMap f := by
  rw [ofThread, List.filterMap_filter]
  refine List.filterMap_congr fun e he => ?_
  by_cases hp : e.1 = p
  · simp [hp]
  · simp [hp, h e he hp]

omit [DecidableEq ι] in
theorem map_snd_labelled (f : ι × ε → Option α) (H : List (ι × ε)) :
    (H.filterMap fun e => (f e).map (Prod.mk e.1)).map Prod.snd = H.filterMap f := by
  rw [List.map_filterMap]
  refine List.filterMap_congr fun e _ => ?_
  cases f e <;> rfl

/-- Two readings that agree on the events of every thread are the same but for the order
of the threads. -/
theorem perm_of_ofThread {ε' : Type*} {f : ι × ε → Option α} {g : ι × ε' → Option α}
    {H : List (ι × ε)} {H' : List (ι × ε')}
    (h : ∀ p, (ofThread p H).filterMap f = (ofThread p H').filterMap g) :
    (H.filterMap f).Perm (H'.filterMap g) := by
  classical
  rw [← map_snd_labelled f H, ← map_snd_labelled g H']
  refine List.Perm.map _ (List.perm_iff_count.mpr fun x => ?_)
  have hx := congrArg (fun l => (l.map (Prod.mk x.1)).count x) (h x.1)
  rw [← filter_labelled, ← filter_labelled] at hx
  simpa using hx

end OfThread

namespace System

variable {ι μ π ω ε : Type*} (S : System ι μ π ω ε)

/-! ## Steps and runs -/

def outcome (c : Config ι μ π) (a : ι × ω) : Outcome μ π ε :=
  S.prog c.mem (c.pc a.1) a.2

def next [DecidableEq ι] (c : Config ι μ π) (a : ι × ω) : Config ι μ π where
  mem := (S.outcome c a).mem
  pc := Function.update c.pc a.1 (S.outcome c a).pc

/-- The configuration after `n` ticks of a schedule. -/
def run [DecidableEq ι] (sched : ℕ → ι × ω) : ℕ → Config ι μ π
  | 0 => S.init
  | n + 1 => S.next (run sched n) (sched n)

/-- The event of one step, labelled with its thread. -/
def emitted (c : Config ι μ π) (a : ι × ω) : List (ι × ε) :=
  ((S.outcome c a).event.map (Prod.mk a.1)).toList

/-- The events of the first `n` ticks, oldest first. -/
def history [DecidableEq ι] (sched : ℕ → ι × ω) : ℕ → List (ι × ε)
  | 0 => []
  | n + 1 => history sched n ++ S.emitted (S.run sched n) (sched n)

/-- At tick `i` thread `p` performs the event `e`. -/
def Fires [DecidableEq ι] (sched : ℕ → ι × ω) (i : ℕ) (p : ι) (e : ε) : Prop :=
  (sched i).1 = p ∧ (S.outcome (S.run sched i) (sched i)).event = some e

/-- At tick `i` thread `p`, which is idle, starts the call `op`. -/
def Calls {κ : Type*} [DecidableEq ι] (S : System ι μ π (Choice κ) ε) (idle : π)
    (sched : ℕ → ι × Choice κ) (i : ℕ) (p : ι) (op : κ) : Prop :=
  sched i = (p, .call op) ∧ (S.run sched i).pc p = idle

/-- From tick `i`, when it started the call `op`, up to tick `j` thread `p` has
not returned from it. -/
def Within {κ : Type*} [DecidableEq ι] (S : System ι μ π (Choice κ) ε) (idle : π)
    (sched : ℕ → ι × Choice κ) (i j : ℕ) (p : ι) (op : κ) : Prop :=
  S.Calls idle sched i p op ∧ ∀ t, i < t → t ≤ j → (S.run sched t).pc p ≠ idle

instance [DecidableEq ι] [DecidableEq ε] (sched : ℕ → ι × ω) (i : ℕ) (p : ι)
    (e : ε) : Decidable (S.Fires sched i p e) :=
  inferInstanceAs (Decidable (_ ∧ _))

theorem mem_emitted {c : Config ι μ π} {a : ι × ω} {p : ι} {e : ε} :
    (p, e) ∈ S.emitted c a ↔ a.1 = p ∧ (S.outcome c a).event = some e := by
  cases h : (S.outcome c a).event <;> simp [emitted, h]
  exact ⟨fun hp => ⟨hp.1.symm, hp.2.symm⟩, fun hp => ⟨hp.1.symm, hp.2.symm⟩⟩

variable [DecidableEq ι]

@[simp] theorem run_zero (sched : ℕ → ι × ω) : S.run sched 0 = S.init := rfl

theorem run_succ (sched : ℕ → ι × ω) (n : ℕ) :
    S.run sched (n + 1) = S.next (S.run sched n) (sched n) := rfl

@[simp] theorem history_zero (sched : ℕ → ι × ω) : S.history sched 0 = [] := rfl

theorem history_succ (sched : ℕ → ι × ω) (n : ℕ) :
    S.history sched (n + 1)
      = S.history sched n ++ S.emitted (S.run sched n) (sched n) := rfl

@[simp] theorem next_pc_self (c : Config ι μ π) (a : ι × ω) :
    (S.next c a).pc a.1 = (S.outcome c a).pc := by
  simp [next]

theorem next_pc_ne (c : Config ι μ π) {a : ι × ω} {q : ι} (h : q ≠ a.1) :
    (S.next c a).pc q = c.pc q := by
  simp [next, Function.update_of_ne h]

/-! ## Events and the history -/

theorem emitted_of_fires {sched : ℕ → ι × ω} {i : ℕ} {p : ι} {e : ε}
    (h : S.Fires sched i p e) :
    S.emitted (S.run sched i) (sched i) = [(p, e)] := by
  simp [emitted, h.2, h.1]

theorem length_history_le (sched : ℕ → ι × ω) (n : ℕ) :
    (S.history sched n).length ≤ n := by
  induction n with
  | zero => exact Nat.le_refl 0
  | succ n ih =>
      have h1 : (S.emitted (S.run sched n) (sched n)).length ≤ 1 := by
        unfold emitted
        cases (S.outcome (S.run sched n) (sched n)).event <;> simp
      rw [history_succ, List.length_append]
      omega

/-- What every step of the program satisfies, the step of an event does. -/
theorem effect_of_fires {E : μ → π → μ → π → Option ε → Prop}
    (hE : ∀ m pc a, E m pc (S.prog m pc a).mem (S.prog m pc a).pc (S.prog m pc a).event)
    {sched : ℕ → ι × ω} {i : ℕ} {p : ι} {e : ε} (h : S.Fires sched i p e) :
    E (S.run sched i).mem ((S.run sched i).pc p) (S.run sched (i + 1)).mem
      ((S.run sched (i + 1)).pc p) (some e) := by
  obtain ⟨rfl, he⟩ := h
  rw [run_succ, next_pc_self, ← he]
  exact hE _ _ _

theorem mem_history {sched : ℕ → ι × ω} {n : ℕ} {p : ι} {e : ε} :
    (p, e) ∈ S.history sched n ↔ ∃ i, i < n ∧ S.Fires sched i p e := by
  induction n with
  | zero => simp
  | succ n ih =>
      rw [history_succ, List.mem_append, ih, mem_emitted]
      constructor
      · rintro (⟨i, hi, hf⟩ | hf)
        · exact ⟨i, by omega, hf⟩
        · exact ⟨n, by omega, hf⟩
      · rintro ⟨i, hi, hf⟩
        rcases Nat.lt_succ_iff_lt_or_eq.mp hi with hlt | rfl
        · exact Or.inl ⟨i, hlt, hf⟩
        · exact Or.inr hf

/-- What is read off the events of a run is ordered as the events are. -/
theorem pairwise_filterMap_history {α : Type*} {R : α → α → Prop} {f : ι × ε → Option α}
    {sched : ℕ → ι × ω} {n : ℕ}
    (h : ∀ i j p q e e' a b, i < j → j < n → S.Fires sched i p e → S.Fires sched j q e' →
      f (p, e) = some a → f (q, e') = some b → R a b) :
    ((S.history sched n).filterMap f).Pairwise R := by
  induction n with
  | zero => exact List.Pairwise.nil
  | succ n ih =>
      have hold := ih fun i j p q e e' a b hij hj => h i j p q e e' a b hij (by omega)
      rw [history_succ, List.filterMap_append]
      cases hev : (S.outcome (S.run sched n) (sched n)).event with
      | none =>
          rw [emitted, hev]
          simpa using hold
      | some e =>
          have hf : S.Fires sched n (sched n).1 e := ⟨rfl, hev⟩
          rw [S.emitted_of_fires hf, List.filterMap_cons, List.filterMap_nil]
          split
          · rwa [List.append_nil]
          · next b hb =>
              refine List.pairwise_append.mpr ⟨hold, List.pairwise_singleton _ _, ?_⟩
              intro a ha b' hb'
              rw [List.mem_singleton] at hb'
              subst hb'
              obtain ⟨⟨q, e'⟩, hmem, ha⟩ := List.mem_filterMap.mp ha
              obtain ⟨i, hi, hfi⟩ := S.mem_history.mp hmem
              exact h i n q _ e' e a b' hi (Nat.lt_succ_self n) hfi hf ha hb

/-- What is read off the events of one thread is ordered as they are. -/
theorem pairwise_filterMap_ofThread {α : Type*} {R : α → α → Prop} {f : ι × ε → Option α}
    {sched : ℕ → ι × ω} {n : ℕ} (p : ι)
    (h : ∀ i j e e' a b, i < j → j < n → S.Fires sched i p e → S.Fires sched j p e' →
      f (p, e) = some a → f (p, e') = some b → R a b) :
    ((ofThread p (S.history sched n)).filterMap f).Pairwise R := by
  rw [ofThread, List.filterMap_filter]
  refine S.pairwise_filterMap_history fun i j q r e e' a b hij hj hf hf' ha hb => ?_
  simp only [Option.ite_none_right_eq_some] at ha hb
  obtain ⟨hq, ha⟩ := ha
  obtain ⟨hr, hb⟩ := hb
  obtain rfl : q = p := of_decide_eq_true hq
  obtain rfl : r = q := of_decide_eq_true hr
  exact h i j e e' a b hij hj hf hf' ha hb

theorem history_mono (sched : ℕ → ι × ω) {m n : ℕ} (h : m ≤ n) :
    S.history sched m <+: S.history sched n := by
  induction n, h using Nat.le_induction with
  | base => exact List.prefix_rfl
  | succ n _ ih => exact ih.trans (List.prefix_append _ _)

/-- The latest event happened at some tick, and none of its kind since. -/
theorem exists_fires_of_latest {sched : ℕ → ι × ω} {φ : ε → Prop} {p : ι} {e : ε}
    {H₁ : List (ι × ε)} {n : ℕ} (h : Latest φ p e H₁ (S.history sched n)) :
    ∃ j, j < n ∧ S.history sched j = H₁ ∧ S.Fires sched j p e
      ∧ ∀ m, j < m → m < n → ∀ e', S.Fires sched m p e' → ¬ φ e' := by
  induction n with
  | zero =>
      obtain ⟨H₂, hH, -⟩ := h
      simp at hH
  | succ n ih =>
      rw [history_succ] at h
      cases hev : (S.outcome (S.run sched n) (sched n)).event with
      | none =>
          rw [emitted, hev, Option.map_none, Option.toList_none, List.append_nil] at h
          obtain ⟨j, hj, hH, hf, hquiet⟩ := ih h
          refine ⟨j, by omega, hH, hf, fun m hm hmn e' hfm => ?_⟩
          rcases Nat.lt_succ_iff_lt_or_eq.mp hmn with hlt | rfl
          · exact hquiet m hm hlt e' hfm
          · rw [hfm.2] at hev
            cases hev
      | some x =>
          rw [S.emitted_of_fires (p := (sched n).1) ⟨rfl, hev⟩] at h
          rcases h.of_concat with ⟨hH, hp, rfl⟩ | ⟨h, hx⟩
          · exact ⟨n, by omega, hH, ⟨hp, hev⟩, fun m hm hmn => by omega⟩
          · obtain ⟨j, hj, hH, hf, hquiet⟩ := ih h
            refine ⟨j, by omega, hH, hf, fun m hm hmn e' hfm => ?_⟩
            rcases Nat.lt_succ_iff_lt_or_eq.mp hmn with hlt | rfl
            · exact hquiet m hm hlt e' hfm
            · rw [hfm.2] at hev
              rw [Option.some.inj hev]
              exact hx hfm.1

/-! ## Induction rules -/

/-- Whatever holds at the start and is kept by every step that meets its
guard holds after every run whose steps all meet their guards. -/
theorem invariant_of_guard {I : Config ι μ π → List (ι × ε) → Prop}
    {G : Config ι μ π → List (ι × ε) → ι × ω → Prop} (hinit : I S.init [])
    (hstep : ∀ c H a, G c H a → I c H → I (S.next c a) (H ++ S.emitted c a))
    {sched : ℕ → ι × ω} {n : ℕ}
    (hguard : ∀ i, i < n → G (S.run sched i) (S.history sched i) (sched i)) :
    I (S.run sched n) (S.history sched n) := by
  induction n with
  | zero => exact hinit
  | succ n ih =>
      exact hstep _ _ _ (hguard n (Nat.lt_succ_self n))
        (ih fun i hi => hguard i (Nat.lt_succ_of_lt hi))

/-- The unguarded rule. -/
theorem invariant {I : Config ι μ π → List (ι × ε) → Prop} (hinit : I S.init [])
    (hstep : ∀ c H a, I c H → I (S.next c a) (H ++ S.emitted c a))
    (sched : ℕ → ι × ω) (n : ℕ) : I (S.run sched n) (S.history sched n) :=
  S.invariant_of_guard (G := fun _ _ _ => True) hinit
    (fun c H a _ => hstep c H a) fun _ _ => trivial

/-- A quantity no step decreases is monotone along the run. -/
theorem run_mono {f : Config ι μ π → ℕ} {sched : ℕ → ι × ω} {n : ℕ}
    (hstep : ∀ i, i < n → f (S.run sched i) ≤ f (S.run sched (i + 1))) :
    ∀ {i j : ℕ}, i ≤ j → j ≤ n → f (S.run sched i) ≤ f (S.run sched j) := by
  intro i j hij hjn
  induction j, hij using Nat.le_induction with
  | base => exact Nat.le_refl _
  | succ j _ ih => exact Nat.le_trans (ih (by omega)) (hstep j (by omega))

/-- A step-by-step map of configurations maps runs to runs. -/
theorem run_map {μ' π' ω' ε' : Type*} {S' : System ι μ' π' ω' ε'}
    {f : Config ι μ π → Config ι μ' π'} {g : Config ι μ π → ι × ω → ι × ω'}
    (hinit : f S.init = S'.init)
    (hstep : ∀ c a, f (S.next c a) = S'.next (f c) (g c a))
    (sched : ℕ → ι × ω) (n : ℕ) :
    f (S.run sched n)
      = S'.run (fun i => g (S.run sched i) (sched i)) n := by
  induction n with
  | zero => exact hinit
  | succ n ih => rw [run_succ, hstep, ih, run_succ]

/-- A thread that leaves a set of control states does so in a step of its own. -/
theorem exists_leave {f : π → Prop} {sched : ℕ → ι × ω} {p : ι} {i n : ℕ} (hin : i ≤ n)
    (hi : f ((S.run sched i).pc p)) (hn : ¬ f ((S.run sched n).pc p)) :
    ∃ j, i ≤ j ∧ j < n ∧ (sched j).1 = p ∧ f ((S.run sched j).pc p)
      ∧ ¬ f ((S.run sched (j + 1)).pc p) := by
  induction n, hin using Nat.le_induction with
  | base => exact absurd hi hn
  | succ n hin ih =>
      by_cases hf : f ((S.run sched n).pc p)
      · refine ⟨n, hin, Nat.lt_succ_self n, ?_, hf, hn⟩
        by_contra hp
        rw [run_succ, next_pc_ne _ _ fun e => hp e.symm] at hn
        exact hn hf
      · obtain ⟨j, hij, hjn, hj⟩ := ih hf
        exact ⟨j, hij, Nat.lt_succ_of_lt hjn, hj⟩

/-! ## Components -/

/-- The component of a configuration with its part of the memory and of the
control states. -/
def project {μ' π' : Type*} (ψ : μ → μ') (φ : π → π') (c : Config ι μ π) :
    Config ι μ' π' :=
  ⟨ψ c.mem, fun p => φ (c.pc p)⟩

/-- The schedule a run drives a component with, given what a step asks of it. -/
def projectSched {ω' : Type*} (g : μ → π → ω → ω') (sched : ℕ → ι × ω) (i : ℕ) : ι × ω' :=
  ((sched i).1, g (S.run sched i).mem ((S.run sched i).pc (sched i).1) (sched i).2)

/-- If every step is a step of the component, a run is a run of the component. -/
theorem run_project {μ' π' ω' ε' : Type*} {S' : System ι μ' π' ω' ε'} {ψ : μ → μ'}
    {φ : π → π'} {g : μ → π → ω → ω'} (hinit : project ψ φ S.init = S'.init)
    (hmem : ∀ m pc a, ψ (S.prog m pc a).mem = (S'.prog (ψ m) (φ pc) (g m pc a)).mem)
    (hpc : ∀ m pc a, φ (S.prog m pc a).pc = (S'.prog (ψ m) (φ pc) (g m pc a)).pc)
    (sched : ℕ → ι × ω) (n : ℕ) :
    project ψ φ (S.run sched n) = S'.run (S.projectSched g sched) n := by
  refine S.run_map (g := fun c a => (a.1, g c.mem (c.pc a.1) a.2)) hinit
    (fun c a => Config.ext (hmem _ _ _) ?_) sched n
  exact (map_update φ c.pc a.1 _).trans (congrArg _ (hpc _ _ _))

/-- If the steps perform the same events too, the histories are the same. -/
theorem history_project {μ' π' ω' : Type*} {S' : System ι μ' π' ω' ε} {ψ : μ → μ'}
    {φ : π → π'} {g : μ → π → ω → ω'} (hinit : project ψ φ S.init = S'.init)
    (hmem : ∀ m pc a, ψ (S.prog m pc a).mem = (S'.prog (ψ m) (φ pc) (g m pc a)).mem)
    (hpc : ∀ m pc a, φ (S.prog m pc a).pc = (S'.prog (ψ m) (φ pc) (g m pc a)).pc)
    (hevent : ∀ m pc a, (S.prog m pc a).event = (S'.prog (ψ m) (φ pc) (g m pc a)).event)
    (sched : ℕ → ι × ω) (n : ℕ) :
    S.history sched n = S'.history (S.projectSched g sched) n := by
  induction n with
  | zero => rfl
  | succ n ih =>
      have hrun := S.run_project hinit hmem hpc sched n
      rw [history_succ, history_succ, ih, emitted, emitted, outcome, outcome, ← hrun, hevent]
      rfl

/-- If the steps of two runs are taken by the same threads and read alike, so are the
histories of every thread. -/
theorem filterMap_ofThread_congr {μ' π' ω' ε' α : Type*} {S' : System ι μ' π' ω' ε'}
    {f : ε → Option α} {g : ε' → Option α} {sched : ℕ → ι × ω} {sched' : ℕ → ι × ω'} {n : ℕ}
    (hthread : ∀ i, i < n → (sched' i).1 = (sched i).1)
    (h : ∀ i, i < n → (S.outcome (S.run sched i) (sched i)).event.bind f
      = (S'.outcome (S'.run sched' i) (sched' i)).event.bind g) (p : ι) :
    (ofThread p (S.history sched n)).filterMap (fun e => f e.2)
      = (ofThread p (S'.history sched' n)).filterMap fun e => g e.2 := by
  induction n with
  | zero => rfl
  | succ n ih =>
      rw [history_succ, history_succ, ofThread_append, ofThread_append, List.filterMap_append,
        List.filterMap_append, ih (fun i hi => hthread i (by omega)) fun i hi => h i (by omega)]
      rw [emitted, emitted, filterMap_ofThread_step, filterMap_ofThread_step,
        hthread n (Nat.lt_succ_self n), h n (Nat.lt_succ_self n)]

/-- The whole histories then read alike, but for the order of the threads. -/
theorem filterMap_history_perm {μ' π' ω' ε' α : Type*} {S' : System ι μ' π' ω' ε'}
    {f : ε → Option α} {g : ε' → Option α} {sched : ℕ → ι × ω} {sched' : ℕ → ι × ω'} {n : ℕ}
    (hthread : ∀ i, i < n → (sched' i).1 = (sched i).1)
    (h : ∀ i, i < n → (S.outcome (S.run sched i) (sched i)).event.bind f
      = (S'.outcome (S'.run sched' i) (sched' i)).event.bind g) :
    ((S.history sched n).filterMap fun e => f e.2).Perm
      ((S'.history sched' n).filterMap fun e => g e.2) :=
  perm_of_ofThread fun p => S.filterMap_ofThread_congr hthread h p

/-! ## Calls in progress -/

/-- A call in progress, known by its operation, has been started and has not
returned since. -/
theorem exists_within {κ : Type*} {S : System ι μ π (Choice κ) ε} {idle : π}
    {f : π → Option κ} (hidle : f idle = none) (hinit : ∀ p, f (S.init.pc p) = none)
    (hstep : ∀ m pc ch op, f (S.prog m pc ch).pc = some op →
      f pc = some op ∨ pc = idle ∧ ch = .call op)
    {sched : ℕ → ι × Choice κ} {n : ℕ} {p : ι} {op : κ}
    (h : f ((S.run sched n).pc p) = some op) :
    ∃ i, i < n ∧ S.Within idle sched i n p op := by
  induction n with
  | zero =>
      rw [run_zero, hinit p] at h
      cases h
  | succ n ih =>
      have hbusy : (S.run sched (n + 1)).pc p ≠ idle := by
        intro hpc
        rw [hpc, hidle] at h
        cases h
      have hcont : f ((S.run sched n).pc p) = some op →
          ∃ i, i < n + 1 ∧ S.Within idle sched i (n + 1) p op := by
        intro hold
        obtain ⟨i, hi, hcall, hin⟩ := ih hold
        refine ⟨i, by omega, hcall, fun t hit htn => ?_⟩
        rcases Nat.lt_succ_iff_lt_or_eq.mp (Nat.lt_succ_of_le htn) with hlt | rfl
        · exact hin t hit (by omega)
        · exact hbusy
      by_cases hp : p = (sched n).1
      · subst hp
        rw [run_succ, next_pc_self] at h
        rcases hstep _ _ _ op h with hold | ⟨hpc, hch⟩
        · exact hcont hold
        · refine ⟨n, Nat.lt_succ_self n, ⟨Prod.ext rfl hch, hpc⟩, fun t hit htn => ?_⟩
          obtain rfl : t = n + 1 := by omega
          exact hbusy
      · rw [run_succ, next_pc_ne _ _ hp] at h
        exact hcont h

end System

end Lockless
