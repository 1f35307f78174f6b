import Lockless.Interleave

/-!
# Calls executed one after another

A thread that is left alone in the middle of a call gets to the end of it, or
runs forever. `Completes` says that it does get to the end, and with which memory
and events. What it gets to is determined by where it starts, so to know what a
call does it is enough to run it once.

A `Serial` log lists calls each of which is complete before the next is made,
with the memory before and after it. The log is that of a run of the system: one
in which a single thread moves at a time.
-/

namespace Lockless

variable {ι μ π κ ε : Type*}

/-! ## A call run alone -/

/-- Left alone from control state `pc` on, a thread gets to `idle`, with the
memory `m'` and after the events `evs`. -/
inductive Completes (prog : μ → π → Choice κ → Outcome μ π ε) (idle : π) :
    μ → π → μ → List ε → Prop
  | done (m : μ) : Completes prog idle m idle m []
  | step {m : μ} {pc : π} {m' : μ} {evs : List ε} (hpc : pc ≠ idle)
      (h : Completes prog idle (prog m pc .go).mem (prog m pc .go).pc m' evs) :
      Completes prog idle m pc m' ((prog m pc .go).event.toList ++ evs)

namespace Completes

variable {prog : μ → π → Choice κ → Outcome μ π ε} {idle pc pc' : π} {m m' m₁ : μ}
  {evs : List ε}

/-- A step with no event. -/
theorem quiet (hpc : pc ≠ idle) (ho : prog m pc .go = ⟨m₁, pc', none⟩)
    (h : Completes prog idle m₁ pc' m' evs) : Completes prog idle m pc m' evs := by
  have hstep : Completes prog idle m pc m' ((prog m pc .go).event.toList ++ evs) :=
    .step hpc (by rw [ho]; exact h)
  rwa [ho] at hstep

/-- A step with an event. -/
theorem emits {e : ε} (hpc : pc ≠ idle) (ho : prog m pc .go = ⟨m₁, pc', some e⟩)
    (h : Completes prog idle m₁ pc' m' evs) : Completes prog idle m pc m' (e :: evs) := by
  have hstep : Completes prog idle m pc m' ((prog m pc .go).event.toList ++ evs) :=
    .step hpc (by rw [ho]; exact h)
  rwa [ho] at hstep

theorem unique {m'' : μ} {evs' : List ε} (h : Completes prog idle m pc m' evs)
    (h' : Completes prog idle m pc m'' evs') : m' = m'' ∧ evs = evs' := by
  induction h generalizing m'' evs' with
  | done m =>
      cases h' with
      | done => exact ⟨rfl, rfl⟩
      | step hpc => exact absurd rfl hpc
  | step hpc _ ih =>
      cases h' with
      | done => exact absurd rfl hpc
      | step _ h' =>
          obtain ⟨rfl, rfl⟩ := ih h'
          exact ⟨rfl, rfl⟩

end Completes

/-- Left alone, a thread gets to `idle`, and is at the head of a loop at most `k`
times until then. -/
inductive CompletesWithin (prog : μ → π → Choice κ → Outcome μ π ε) (idle : π)
    (loop : π → Prop) : ℕ → μ → π → Prop
  | done (k : ℕ) (m : μ) : CompletesWithin prog idle loop k m idle
  | step {k : ℕ} {m : μ} {pc : π} (hpc : pc ≠ idle) (hloop : ¬ loop pc)
      (h : CompletesWithin prog idle loop k (prog m pc .go).mem (prog m pc .go).pc) :
      CompletesWithin prog idle loop k m pc
  | iterate {k : ℕ} {m : μ} {pc : π} (hpc : pc ≠ idle)
      (h : CompletesWithin prog idle loop k (prog m pc .go).mem (prog m pc .go).pc) :
      CompletesWithin prog idle loop (k + 1) m pc

theorem CompletesWithin.mono {prog : μ → π → Choice κ → Outcome μ π ε} {idle : π}
    {loop : π → Prop} {k : ℕ} {m : μ} {pc : π} (h : CompletesWithin prog idle loop k m pc)
    {k' : ℕ} (hk : k ≤ k') : CompletesWithin prog idle loop k' m pc := by
  induction h generalizing k' with
  | done k m => exact .done k' m
  | step hpc hloop _ ih => exact .step hpc hloop (ih hk)
  | iterate hpc _ ih =>
      cases k' with
      | zero => omega
      | succ k' => exact .iterate hpc (ih (by omega))

/-- What a list of choices leaves behind in a thread left alone: the memory, the
control state and the events. -/
def solo {ω : Type*} (prog : μ → π → ω → Outcome μ π ε) :
    List ω → μ → π → μ × π × List ε
  | [], m, pc => (m, pc, [])
  | a :: l, m, pc =>
      ((solo prog l (prog m pc a).mem (prog m pc a).pc).1,
        (solo prog l (prog m pc a).mem (prog m pc a).pc).2.1,
        (prog m pc a).event.toList ++ (solo prog l (prog m pc a).mem (prog m pc a).pc).2.2)

/-- A thread that stays among control states that are not `idle` does not return. -/
theorem not_completes {prog : μ → π → Choice κ → Outcome μ π ε} {idle : π}
    {J : μ → π → Prop} (hidle : ∀ m, ¬ J m idle)
    (hstep : ∀ m pc, J m pc → J (prog m pc .go).mem (prog m pc .go).pc) {m : μ} {pc : π}
    (h : J m pc) : ¬ ∃ m' evs, Completes prog idle m pc m' evs := by
  rintro ⟨m', evs, hrun⟩
  induction hrun with
  | done m => exact hidle m h
  | step _ _ ih => exact ih (hstep _ _ h)

/-! ## Adverse outcomes

A call may have them and still return. -/

/-- Left alone from control state `pc` on, with or without the adverse outcome in
each of its steps, a thread has got to `idle`. -/
inductive Ends (prog : μ → π → Choice κ → Outcome μ π ε) (idle : π) :
    μ → π → μ → List ε → Prop
  | done (m : μ) : Ends prog idle m idle m []
  | step {m : μ} {pc : π} {ch : Choice κ} {m' : μ} {evs : List ε} (hpc : pc ≠ idle)
      (hch : ∀ op, ch ≠ .call op)
      (h : Ends prog idle (prog m pc ch).mem (prog m pc ch).pc m' evs) :
      Ends prog idle m pc m' ((prog m pc ch).event.toList ++ evs)

/-- A step with the choice `ch` and no event. -/
theorem Ends.quiet {prog : μ → π → Choice κ → Outcome μ π ε} {idle pc pc' : π} {m m₁ m' : μ}
    {evs : List ε} (ch : Choice κ) (hpc : pc ≠ idle) (hch : ∀ op, ch ≠ .call op)
    (ho : prog m pc ch = ⟨m₁, pc', none⟩) (h : Ends prog idle m₁ pc' m' evs) :
    Ends prog idle m pc m' evs := by
  have hstep : Ends prog idle m pc m' ((prog m pc ch).event.toList ++ evs) :=
    .step hpc hch (by rw [ho]; exact h)
  rwa [ho] at hstep

/-- A step with the choice `ch` and an event. -/
theorem Ends.emits {prog : μ → π → Choice κ → Outcome μ π ε} {idle pc pc' : π} {m m₁ m' : μ}
    {evs : List ε} {e : ε} (ch : Choice κ) (hpc : pc ≠ idle) (hch : ∀ op, ch ≠ .call op)
    (ho : prog m pc ch = ⟨m₁, pc', some e⟩) (h : Ends prog idle m₁ pc' m' evs) :
    Ends prog idle m pc m' (e :: evs) := by
  have hstep : Ends prog idle m pc m' ((prog m pc ch).event.toList ++ evs) :=
    .step hpc hch (by rw [ho]; exact h)
  rwa [ho] at hstep

theorem Completes.ends {prog : μ → π → Choice κ → Outcome μ π ε} {idle pc : π} {m m' : μ}
    {evs : List ε} (h : Completes prog idle m pc m' evs) : Ends prog idle m pc m' evs := by
  induction h with
  | done m => exact .done m
  | step hpc _ ih => exact .step hpc (fun op h => by cases h) ih

/-- However many adverse outcomes a call has had, it returns if there are no more
of them. -/
def Returns (prog : μ → π → Choice κ → Outcome μ π ε) (idle : π) (m : μ) (pc : π) : Prop :=
  ∀ l : List (Choice κ), (∀ ch ∈ l, ∀ op, ch ≠ .call op) →
    ∃ m' evs, Completes prog idle (solo prog l m pc).1 (solo prog l m pc).2.1 m' evs

section Rules

variable {prog : μ → π → Choice κ → Outcome μ π ε} {idle : π} {J : μ → π → Prop}

/-- A call that ends with the event of its return and has only events of another
kind before it, by what holds during it. -/
theorem Ends.rule_last {Q : μ → ε → Prop} {R : ε → Prop}
    (hstep : ∀ m pc ch, J m pc → (∀ op, ch ≠ .call op) →
      (J (prog m pc ch).mem (prog m pc ch).pc ∧ ∀ e ∈ (prog m pc ch).event, R e)
        ∨ ((prog m pc ch).pc = idle ∧ ∃ e, (prog m pc ch).event = some e
          ∧ Q (prog m pc ch).mem e))
    (hidle : ∀ m, ¬ J m idle) {m m' : μ} {pc : π} {evs : List ε}
    (h : Ends prog idle m pc m' evs) (hJ : J m pc) :
    ∃ evs' e, evs = evs' ++ [e] ∧ (∀ x ∈ evs', R x) ∧ Q m' e := by
  induction h with
  | done m => exact absurd hJ (hidle m)
  | @step m pc ch m' evs _ hch h ih =>
      rcases hstep m pc ch hJ hch with ⟨hJ', hev⟩ | ⟨hpc', e, hev, hQ⟩
      · obtain ⟨evs', e, rfl, hquiet, hQ⟩ := ih hJ'
        refine ⟨(prog m pc ch).event.toList ++ evs', e, by simp, fun x hx => ?_, hQ⟩
        rcases List.mem_append.mp hx with hx | hx
        · exact hev x (Option.mem_toList.mp hx)
        · exact hquiet x hx
      · rw [hpc'] at h
        cases h with
        | done => exact ⟨[], e, by rw [hev]; rfl, by simp, hQ⟩
        | step hpc => exact absurd rfl hpc

/-- A call whose only event is that of its return. -/
theorem Ends.rule {Q : μ → ε → Prop}
    (hstep : ∀ m pc ch, J m pc → (∀ op, ch ≠ .call op) →
      (J (prog m pc ch).mem (prog m pc ch).pc ∧ (prog m pc ch).event = none)
        ∨ ((prog m pc ch).pc = idle ∧ ∃ e, (prog m pc ch).event = some e
          ∧ Q (prog m pc ch).mem e))
    (hidle : ∀ m, ¬ J m idle) {m m' : μ} {pc : π} {evs : List ε}
    (h : Ends prog idle m pc m' evs) (hJ : J m pc) : ∃ e, evs = [e] ∧ Q m' e := by
  obtain ⟨evs', e, rfl, hquiet, hQ⟩ := Ends.rule_last (R := fun _ => False)
    (fun m pc ch hJ hch => (hstep m pc ch hJ hch).imp_left fun h => ⟨h.1, by simp [h.2]⟩)
    hidle h hJ
  rw [List.eq_nil_iff_forall_not_mem.mpr hquiet]
  exact ⟨e, rfl, hQ⟩

/-- A call returns if what holds during it is kept by every step, and a measure
goes down in each step that has no adverse outcome. -/
theorem Returns.rule {f : μ → π → ℕ}
    (hstay : ∀ m ch, (∀ op, ch ≠ .call op) → (prog m idle ch).pc = idle)
    (hstep : ∀ m pc ch, J m pc → (∀ op, ch ≠ .call op) →
      J (prog m pc ch).mem (prog m pc ch).pc ∨ (prog m pc ch).pc = idle)
    (hdown : ∀ m pc, J m pc → pc ≠ idle →
      f (prog m pc .go).mem (prog m pc .go).pc < f m pc ∨ (prog m pc .go).pc = idle)
    {m : μ} {pc : π} (hJ : J m pc ∨ pc = idle) : Returns prog idle m pc := by
  have halone : ∀ n m pc, f m pc < n → (J m pc ∨ pc = idle) →
      ∃ m' evs, Completes prog idle m pc m' evs := by
    intro n
    induction n with
    | zero => exact fun m pc hlt => absurd hlt (Nat.not_lt_zero _)
    | succ n ih =>
        intro m pc hlt hJ
        by_cases hpc : pc = idle
        · subst hpc
          exact ⟨m, [], .done m⟩
        · have hJ := hJ.resolve_right hpc
          have hnext : ∃ m' evs, Completes prog idle (prog m pc .go).mem (prog m pc .go).pc
              m' evs := by
            rcases hdown m pc hJ hpc with hless | hidle
            · exact ih _ _ (by omega) (hstep m pc .go hJ fun op h => by cases h)
            · rw [hidle]
              exact ⟨_, [], .done _⟩
          obtain ⟨m', evs, h⟩ := hnext
          exact ⟨m', _, .step hpc h⟩
  intro l hl
  induction l generalizing m pc with
  | nil => exact halone _ m pc (Nat.lt_succ_self _) hJ
  | cons ch l ih =>
      have hch := hl ch (List.mem_cons_self)
      refine ih ?_ fun ch' hch' => hl ch' (List.mem_cons_of_mem ch hch')
      rcases hJ with hJ | rfl
      · exact hstep m pc ch hJ hch
      · exact Or.inr (hstay m ch hch)

/-- A step after which a call goes on, nearer to its end unless the outcome was
adverse, or is over. The events before the last are of the kind `R`. -/
def Proceeds (J : μ → π → Prop) (R : ε → Prop) (Q : μ → ε → Prop) (left : π → ℕ) (idle : π)
    (k : ℕ) (adverse : Prop) (o : Outcome μ π ε) : Prop :=
  (J o.mem o.pc ∧ (∀ e ∈ o.event, R e) ∧ (left o.pc < k ∨ adverse))
    ∨ (o.pc = idle ∧ ∃ e, o.event = some e ∧ Q o.mem e)

/-- A step after which a call goes on, nearer to its end unless the outcome was
adverse, or is over with a single event. -/
def Advances (J : μ → π → Prop) (Q : μ → ε → Prop) (left : π → ℕ) (idle : π) (k : ℕ)
    (adverse : Prop) (o : Outcome μ π ε) : Prop :=
  (J o.mem o.pc ∧ o.event = none ∧ (left o.pc < k ∨ adverse))
    ∨ (o.pc = idle ∧ ∃ e, o.event = some e ∧ Q o.mem e)

variable {R : ε → Prop} {Q : μ → ε → Prop} {left : π → ℕ}

theorem Proceeds.weaken {k : ℕ} {adverse adverse' : Prop} {o : Outcome μ π ε}
    (h : Proceeds J R Q left idle k adverse o) (himp : adverse → adverse') :
    Proceeds J R Q left idle k adverse' o :=
  Or.imp_left (fun h => ⟨h.1, h.2.1, h.2.2.imp_right himp⟩) h

theorem Advances.weaken {k : ℕ} {adverse adverse' : Prop} {o : Outcome μ π ε}
    (h : Advances J Q left idle k adverse o) (himp : adverse → adverse') :
    Advances J Q left idle k adverse' o :=
  Or.imp_left (fun h => ⟨h.1, h.2.1, h.2.2.imp_right himp⟩) h

theorem Advances.proceeds {k : ℕ} {adverse : Prop} {o : Outcome μ π ε}
    (h : Advances J Q left idle k adverse o) :
    Proceeds J (fun _ => False) Q left idle k adverse o :=
  Or.imp_left (fun h => ⟨h.1, by simp [h.2.1], h.2.2⟩) h

theorem Ends.of_proceeds (left : π → ℕ)
    (hstep : ∀ m pc ch, J m pc → (∀ op, ch ≠ .call op) →
      Proceeds J R Q left idle (left pc) (ch ≠ .go) (prog m pc ch))
    (hidle : ∀ m, ¬ J m idle) {m m' : μ} {pc : π} {evs : List ε}
    (h : Ends prog idle m pc m' evs) (hJ : J m pc) :
    ∃ evs' e, evs = evs' ++ [e] ∧ (∀ x ∈ evs', R x) ∧ Q m' e :=
  Ends.rule_last (fun m pc ch hJ hch => (hstep m pc ch hJ hch).imp_left fun h => ⟨h.1, h.2.1⟩)
    hidle h hJ

theorem Returns.of_proceeds (left : π → ℕ)
    (hstep : ∀ m pc ch, J m pc → (∀ op, ch ≠ .call op) →
      Proceeds J R Q left idle (left pc) (ch ≠ .go) (prog m pc ch))
    (hstay : ∀ m ch, (∀ op, ch ≠ .call op) → (prog m idle ch).pc = idle)
    {m : μ} {pc : π} (hJ : J m pc) : Returns prog idle m pc := by
  refine Returns.rule (J := J) (f := fun _ pc => left pc) hstay
    (fun m pc ch hJ hch => (hstep m pc ch hJ hch).imp (·.1) (·.1)) (fun m pc hJ _ => ?_)
    (Or.inl hJ)
  have hgo : ∀ op, (.go : Choice κ) ≠ .call op := fun op h => by cases h
  exact (hstep m pc .go hJ hgo).imp (fun h => h.2.2.resolve_right fun hne => hne rfl) (·.1)

theorem Ends.of_advances (left : π → ℕ)
    (hstep : ∀ m pc ch, J m pc → (∀ op, ch ≠ .call op) →
      Advances J Q left idle (left pc) (ch ≠ .go) (prog m pc ch))
    (hidle : ∀ m, ¬ J m idle) {m m' : μ} {pc : π} {evs : List ε}
    (h : Ends prog idle m pc m' evs) (hJ : J m pc) : ∃ e, evs = [e] ∧ Q m' e :=
  Ends.rule (fun m pc ch hJ hch => (hstep m pc ch hJ hch).imp_left fun h => ⟨h.1, h.2.1⟩)
    hidle h hJ

theorem Returns.of_advances (left : π → ℕ)
    (hstep : ∀ m pc ch, J m pc → (∀ op, ch ≠ .call op) →
      Advances J Q left idle (left pc) (ch ≠ .go) (prog m pc ch))
    (hstay : ∀ m ch, (∀ op, ch ≠ .call op) → (prog m idle ch).pc = idle)
    {m : μ} {pc : π} (hJ : J m pc) : Returns prog idle m pc :=
  Returns.of_proceeds left (fun m pc ch hJ hch => (hstep m pc ch hJ hch).proceeds) hstay hJ

end Rules

/-! ## Logs of calls -/

/-- A completed call, with the memory before and after it. -/
structure Call (μ κ ε : Type*) where
  op : κ
  before : μ
  after : μ
  events : List ε

/-- Calls made one after another from the memory `m₀` on. -/
inductive Serial (prog : μ → π → Choice κ → Outcome μ π ε) (idle : π) (start : κ → π)
    (legal : μ → List (Call μ κ ε) → κ → Prop) (m₀ : μ) :
    μ → List (Call μ κ ε) → Prop
  | init : Serial prog idle start legal m₀ m₀ []
  | call {m : μ} {L : List (Call μ κ ε)} {op : κ} {m' : μ} {evs : List ε}
      (h : Serial prog idle start legal m₀ m L) (hlegal : legal m L op)
      (hrun : Completes prog idle m (start op) m' evs) :
      Serial prog idle start legal m₀ m' (L ++ [⟨op, m, m', evs⟩])

/-- Calls made one after another from the memory `m₀` on. `run` is what a call does:
`Completes` if there are no adverse outcomes, `Ends` if there may be. -/
inductive CallLog (run : μ → π → μ → List ε → Prop) (start : κ → π) (m₀ : μ) :
    μ → List (Call μ κ ε) → Prop
  | init : CallLog run start m₀ m₀ []
  | call {m : μ} {L : List (Call μ κ ε)} {op : κ} {m' : μ} {evs : List ε}
      (h : CallLog run start m₀ m L) (hrun : run m (start op) m' evs) :
      CallLog run start m₀ m' (L ++ [⟨op, m, m', evs⟩])

theorem Returns.completes {prog : μ → π → Choice κ → Outcome μ π ε} {idle : π} {m : μ} {pc : π}
    (h : Returns prog idle m pc) : ∃ m' evs, Completes prog idle m pc m' evs :=
  h [] fun _ hch => absurd hch List.not_mem_nil

theorem Returns.ends {prog : μ → π → Choice κ → Outcome μ π ε} {idle : π} {m : μ} {pc : π}
    (h : Returns prog idle m pc) : ∃ m' evs, Ends prog idle m pc m' evs := by
  obtain ⟨m', evs, hrun⟩ := h.completes
  exact ⟨m', evs, hrun.ends⟩

/-- If every call returns, there is a log of any calls. -/
theorem exists_callLog {run : μ → π → μ → List ε → Prop} {start : κ → π} {m₀ : μ}
    (h : ∀ m L, CallLog run start m₀ m L → ∀ op, ∃ m' evs, run m (start op) m' evs)
    (ops : List κ) : ∃ m L, CallLog run start m₀ m L ∧ L.map (·.op) = ops := by
  induction ops using List.reverseRecOn with
  | nil => exact ⟨m₀, [], .init, rfl⟩
  | append_singleton ops op ih =>
      obtain ⟨m, L, hlog, rfl⟩ := ih
      obtain ⟨m', evs, hrun⟩ := h m L hlog op
      exact ⟨m', _, .call hlog hrun, by simp⟩

/-- The last call of a log. -/
theorem CallLog.of_concat {run : μ → π → μ → List ε → Prop} {start : κ → π} {m₀ m : μ}
    {L : List (Call μ κ ε)} {k : Call μ κ ε} (h : CallLog run start m₀ m (L ++ [k])) :
    CallLog run start m₀ k.before L ∧ run k.before (start k.op) m k.events := by
  generalize hK : L ++ [k] = K at h
  cases h with
  | init => simp at hK
  | call h hrun =>
      obtain ⟨rfl, hk⟩ := List.append_inj' hK rfl
      rw [List.singleton_inj] at hk
      subst hk
      exact ⟨h, hrun⟩

/-- The log of a single call. -/
theorem CallLog.of_single {run : μ → π → μ → List ε → Prop} {start : κ → π} {m₀ m : μ}
    {L : List (Call μ κ ε)} {op : κ} (h : CallLog run start m₀ m L) (hops : L.map (·.op) = [op]) :
    ∃ evs, run m₀ (start op) m evs := by
  cases h with
  | init => cases hops
  | @call m' L op' _ evs hlog hrun =>
      rw [List.map_append, List.map_singleton, List.append_eq_singleton_iff] at hops
      obtain ⟨hnil, hop⟩ | ⟨-, hop⟩ := hops
      · rw [List.map_eq_nil_iff] at hnil
        rw [List.singleton_inj] at hop
        subst hnil hop
        generalize hL : ([] : List (Call μ κ ε)) = L at hlog
        cases hlog with
        | init => exact ⟨evs, hrun⟩
        | call => simp at hL
      · cases hop

/-! ## Refinement of an abstract machine -/

section Refinement

variable {σ ρ : Type*} (spec : σ → κ → σ × ρ)

/-- The state of the machine after a list of operations. -/
def stateAfter : σ → List κ → σ :=
  List.foldl fun s op => (spec s op).1

/-- What it answers to them. -/
def answers : σ → List κ → List ρ
  | _, [] => []
  | s, op :: ops => (spec s op).2 :: answers (spec s op).1 ops

theorem stateAfter_concat (s : σ) (ops : List κ) (op : κ) :
    stateAfter spec s (ops ++ [op]) = (spec (stateAfter spec s ops) op).1 := by
  simp only [stateAfter, List.foldl_append, List.foldl_cons, List.foldl_nil]

theorem answers_concat (s : σ) (ops : List κ) (op : κ) :
    answers spec s (ops ++ [op])
      = answers spec s ops ++ [(spec (stateAfter spec s ops) op).2] := by
  induction ops generalizing s with
  | nil => rfl
  | cons op' ops ih =>
      simp only [List.cons_append, answers, ih]
      rfl

/-- If each call takes memories that represent a state of the machine to such
memories and is seen to give its answer, so does every log. -/
theorem CallLog.refines {χ : Type*} {run : μ → π → μ → List ε → Prop} {start : κ → π} {m₀ m : μ}
    {L : List (Call μ κ ε)} (R : μ → σ → Prop) (view : List ε → χ) (shown : ρ → χ)
    (hcall : ∀ {m s op m' evs}, R m s → run m (start op) m' evs →
      R m' (spec s op).1 ∧ view evs = shown (spec s op).2)
    {s : σ} (hinit : R m₀ s) (h : CallLog run start m₀ m L) :
    R m (stateAfter spec s (L.map (·.op)))
      ∧ L.map (fun k => view k.events) = (answers spec s (L.map (·.op))).map shown := by
  induction h with
  | init => exact ⟨hinit, rfl⟩
  | call _ hrun ih =>
      obtain ⟨hR, hevs⟩ := hcall ih.1 hrun
      simp only [List.map_append, List.map_cons, List.map_nil, stateAfter_concat,
        answers_concat, ih.2]
      exact ⟨hR, by rw [hevs]⟩

end Refinement

namespace Serial

variable {prog : μ → π → Choice κ → Outcome μ π ε} {idle : π} {start : κ → π}
  {legal : μ → List (Call μ κ ε) → κ → Prop} {m₀ m m' : μ} {L L₁ L₂ : List (Call μ κ ε)}
  {k : Call μ κ ε}

/-- The last call of a log. -/
theorem of_concat (h : Serial prog idle start legal m₀ m (L ++ [k])) :
    Serial prog idle start legal m₀ k.before L ∧ legal k.before L k.op
      ∧ Completes prog idle k.before (start k.op) k.after k.events ∧ k.after = m := by
  generalize hK : L ++ [k] = K at h
  cases h with
  | init => simp at hK
  | call h hlegal hrun =>
      obtain ⟨rfl, hk⟩ := List.append_inj' hK rfl
      rw [List.singleton_inj] at hk
      subst hk
      exact ⟨h, hlegal, hrun, rfl⟩

/-- A log up to one of its calls. -/
theorem of_append (h : Serial prog idle start legal m₀ m (L₁ ++ k :: L₂)) :
    Serial prog idle start legal m₀ k.after (L₁ ++ [k]) := by
  induction L₂ using List.reverseRecOn generalizing m with
  | nil =>
      obtain ⟨-, -, -, rfl⟩ := h.of_concat
      exact h
  | append_singleton L₂ l ih =>
      have hsplit : L₁ ++ k :: (L₂ ++ [l]) = (L₁ ++ k :: L₂) ++ [l] := by simp
      rw [hsplit] at h
      exact ih h.of_concat.1

end Serial

/-! ## Runs -/

namespace System

variable [DecidableEq ι] {S : System ι μ π (Choice κ) ε} {idle : π}

/-- A run depends on the part of the schedule before its last tick only. -/
theorem run_congr {sched sched' : ℕ → ι × Choice κ} {n : ℕ}
    (h : ∀ i, i < n → sched i = sched' i) : S.run sched n = S.run sched' n := by
  induction n with
  | zero => rfl
  | succ n ih =>
      rw [run_succ, run_succ, ih fun i hi => h i (Nat.lt_succ_of_lt hi),
        h n (Nat.lt_succ_self n)]

theorem history_congr {sched sched' : ℕ → ι × Choice κ} {n : ℕ}
    (h : ∀ i, i < n → sched i = sched' i) : S.history sched n = S.history sched' n := by
  induction n with
  | zero => rfl
  | succ n ih =>
      rw [history_succ, history_succ, ih fun i hi => h i (Nat.lt_succ_of_lt hi),
        run_congr fun i hi => h i (Nat.lt_succ_of_lt hi), h n (Nat.lt_succ_self n)]

/-- A thread left alone for the length of a list of choices. -/
theorem run_solo {ω : Type*} {S : System ι μ π ω ε} {sched : ℕ → ι × ω} {p : ι} {l : List ω}
    {n : ℕ} (h : ∀ i a, l[i]? = some a → sched (n + i) = (p, a)) :
    let r := solo S.prog l (S.run sched n).mem ((S.run sched n).pc p)
    S.run sched (n + l.length) = ⟨r.1, Function.update (S.run sched n).pc p r.2.1⟩
      ∧ S.history sched (n + l.length) = S.history sched n ++ r.2.2.map (Prod.mk p) := by
  induction l generalizing n with
  | nil => simp [solo]
  | cons a l ih =>
      have hn : sched n = (p, a) := h 0 a rfl
      have hstep : S.run sched (n + 1) = ⟨(S.prog (S.run sched n).mem ((S.run sched n).pc p) a).mem,
          Function.update (S.run sched n).pc p
            (S.prog (S.run sched n).mem ((S.run sched n).pc p) a).pc⟩ := by
        rw [run_succ, hn]
        rfl
      have htail : ∀ i a', l[i]? = some a' → sched (n + 1 + i) = (p, a') := by
        intro i a' hi
        rw [Nat.add_assoc, Nat.add_comm 1 i]
        exact h (i + 1) a' hi
      obtain ⟨hrun, hhist⟩ := ih htail
      rw [hstep] at hrun hhist
      simp only [Function.update_self, Function.update_idem] at hrun hhist
      rw [List.length_cons, Nat.add_comm l.length 1, ← Nat.add_assoc, hrun, hhist,
        history_succ, hn, emitted, outcome, List.append_assoc]
      refine ⟨rfl, congrArg _ ?_⟩
      simp only [solo, List.map_append]
      cases (S.prog (S.run sched n).mem ((S.run sched n).pc p) a).event <;> rfl

/-- A run can go on with any choices of one thread. -/
theorem exists_run_solo (S : System ι μ π (Choice κ) ε) (sched : ℕ → ι × Choice κ) (n : ℕ) (p : ι)
    (l : List (Choice κ)) :
    let r := solo S.prog l (S.run sched n).mem ((S.run sched n).pc p)
    ∃ sched', S.run sched' (n + l.length) = ⟨r.1, Function.update (S.run sched n).pc p r.2.1⟩
      ∧ S.history sched' (n + l.length) = S.history sched n ++ r.2.2.map (Prod.mk p) := by
  let sched' : ℕ → ι × Choice κ := fun i =>
    if i < n then sched i else (p, l.getD (i - n) .go)
  have hsame : ∀ i, i < n → sched' i = sched i := fun i hi => if_pos hi
  have hrest : ∀ i a, l[i]? = some a → sched' (n + i) = (p, a) := by
    intro i a hi
    have hlt : ¬ n + i < n := by omega
    simp only [sched', if_neg hlt, Nat.add_sub_cancel_left, List.getD_eq_getElem?_getD, hi,
      Option.getD_some]
  have hsolo := run_solo (S := S) hrest
  rw [run_congr hsame, history_congr hsame] at hsolo
  exact ⟨sched', hsolo⟩

/-- If each step of a thread is what some steps of the same thread are in another system, up to
the events that are read, then every run is one of that system. `I` is what is known of the
control states of the run. -/
theorem exists_run_of_simulates {ω μ' π' κ' ε' α : Type*} {S : System ι μ π ω ε}
    {S' : System ι μ' π' (Choice κ') ε'} {ψ : μ → μ'} {φ : π → π'} {f : ε → Option α}
    {g : ε' → Option α} {I : π → Prop} (hinit : project ψ φ S.init = S'.init)
    (hstep : ∀ m pc a, I pc → ∃ l, let r := solo S'.prog l (ψ m) (φ pc)
      r.1 = ψ (S.prog m pc a).mem ∧ r.2.1 = φ (S.prog m pc a).pc
        ∧ r.2.2.filterMap g = ((S.prog m pc a).event.bind f).toList)
    {sched : ℕ → ι × ω} (hI : ∀ n p, I ((S.run sched n).pc p)) (n : ℕ) :
    ∃ sched' n', S'.run sched' n' = project ψ φ (S.run sched n)
      ∧ (S'.history sched' n').filterMap (fun e => (g e.2).map (Prod.mk e.1))
        = (S.history sched n).filterMap fun e => (f e.2).map (Prod.mk e.1) := by
  induction n with
  | zero => exact ⟨fun _ => ((sched 0).1, .go), 0, hinit.symm, rfl⟩
  | succ n ih =>
      obtain ⟨sched', n', hrun, hhist⟩ := ih
      obtain ⟨l, hmem, hpc, hevs⟩ := hstep (S.run sched n).mem ((S.run sched n).pc (sched n).1)
        (sched n).2 (hI n _)
      obtain ⟨sched'', hrun', hhist'⟩ := S'.exists_run_solo sched' n' (sched n).1 l
      have hmap : ∀ evs : List ε', (evs.map (Prod.mk (sched n).1)).filterMap
            (fun e => (g e.2).map (Prod.mk e.1))
          = (evs.filterMap g).map (Prod.mk (sched n).1) := by
        intro evs
        rw [List.filterMap_map, List.map_filterMap]
        rfl
      rw [hrun] at hrun' hhist'
      refine ⟨sched'', n' + l.length, ?_, ?_⟩
      · rw [hrun', run_succ]
        refine Config.ext hmem ?_
        exact (congrArg _ hpc).trans (map_update φ (S.run sched n).pc (sched n).1 _).symm
      · rw [hhist', history_succ, List.filterMap_append, List.filterMap_append, hhist, hmap]
        refine congrArg _ ?_
        rw [project, hevs, emitted, outcome]
        cases (S.prog (S.run sched n).mem ((S.run sched n).pc (sched n).1) (sched n).2).event with
        | none => rfl
        | some e => cases hf : f e <;> simp [hf]

/-- A call that completes does so in a run in which its thread is left alone. -/
theorem exists_run_of_completes {m m' : μ} {pc : π} {evs : List ε}
    (h : Completes S.prog idle m pc m' evs) :
    ∃ k, ∀ sched n p, (S.run sched n).mem = m → (S.run sched n).pc p = pc →
      (∀ i, i < k → sched (n + i) = (p, .go)) →
      S.run sched (n + k) = ⟨m', Function.update (S.run sched n).pc p idle⟩ := by
  induction h with
  | done m =>
      refine ⟨0, fun sched n p hm hpc _ => ?_⟩
      rw [← hpc, Function.update_eq_self, ← hm]
      rfl
  | @step m pc m' evs hpc h ih =>
      obtain ⟨k, hk⟩ := ih
      refine ⟨k + 1, fun sched n p hm hp hgo => ?_⟩
      have hn : sched n = (p, .go) := hgo 0 (Nat.succ_pos k)
      have hstep : S.run sched (n + 1) = ⟨(S.prog m pc .go).mem,
          Function.update (S.run sched n).pc p (S.prog m pc .go).pc⟩ := by
        rw [run_succ, hn, next, outcome]
        simp only [hm, hp]
      have hrun := hk sched (n + 1) p (by rw [hstep]) (by simp only [hstep, Function.update_self])
        fun i hi => by
          rw [Nat.add_assoc, Nat.add_comm 1 i]
          exact hgo (i + 1) (Nat.succ_lt_succ hi)
      rw [← Nat.add_assoc, Nat.add_right_comm, hrun, hstep, Function.update_idem]

theorem next_alone {sched : ℕ → ι × Choice κ} {n : ℕ} {p : ι} {m : μ} {pc : π}
    (hn : sched n = (p, .go)) (hm : (S.run sched n).mem = m) (hp : (S.run sched n).pc p = pc) :
    (S.run sched (n + 1)).mem = (S.prog m pc .go).mem
      ∧ (S.run sched (n + 1)).pc p = (S.prog m pc .go).pc := by
  subst hm hp
  rw [run_succ, hn]
  exact ⟨rfl, next_pc_self _ _ _⟩

/-- One more tick in front of those until a thread is idle. -/
theorem busy_succ (loop : π → Prop) [DecidablePred loop] {sched : ℕ → ι × Choice κ} {n d : ℕ}
    {p : ι} (hn : (S.run sched n).pc p ≠ idle) (hend : (S.run sched (n + 1 + d)).pc p = idle)
    (hbusy : ∀ j, j < d → (S.run sched (n + 1 + j)).pc p ≠ idle) :
    (S.run sched (n + (d + 1))).pc p = idle
      ∧ (∀ j, j < d + 1 → (S.run sched (n + j)).pc p ≠ idle)
      ∧ Nat.count (fun j => loop ((S.run sched (n + j)).pc p)) (d + 1)
        = Nat.count (fun j => loop ((S.run sched (n + 1 + j)).pc p)) d
          + if loop ((S.run sched n).pc p) then 1 else 0 := by
  have hadd : ∀ j, n + (j + 1) = n + 1 + j := fun j => by omega
  refine ⟨by rwa [hadd], fun j hj => ?_, ?_⟩
  · cases j with
    | zero => exact hn
    | succ j =>
        rw [hadd]
        exact hbusy j (by omega)
  · have hcongr : (fun j => loop ((S.run sched (n + (j + 1))).pc p))
        = fun j => loop ((S.run sched (n + 1 + j)).pc p) := by
      funext j
      rw [hadd]
    rw [Nat.count_succ']
    simp only [hcongr]
    rfl

/-- In a run in which a thread is left alone from some tick on it gets to `idle`,
after at most as many iterations. -/
theorem exists_run_of_completesWithin {loop : π → Prop} [DecidablePred loop] {k : ℕ} {m : μ}
    {pc : π} (h : CompletesWithin S.prog idle loop k m pc) {sched : ℕ → ι × Choice κ} {n : ℕ}
    {p : ι} (hm : (S.run sched n).mem = m) (hp : (S.run sched n).pc p = pc)
    (hgo : ∀ i, n ≤ i → sched i = (p, .go)) :
    ∃ d, (S.run sched (n + d)).pc p = idle
      ∧ (∀ j, j < d → (S.run sched (n + j)).pc p ≠ idle)
      ∧ Nat.count (fun j => loop ((S.run sched (n + j)).pc p)) d ≤ k := by
  induction h generalizing n with
  | done k m => exact ⟨0, hp, fun j hj => absurd hj (Nat.not_lt_zero j), Nat.zero_le k⟩
  | step hpc hloop _ ih =>
      obtain ⟨hm', hp'⟩ := next_alone (hgo n (Nat.le_refl n)) hm hp
      obtain ⟨d, hend, hbusy, hcount⟩ := ih hm' hp' fun i hi => hgo i (by omega)
      obtain ⟨hend', hbusy', hcount'⟩ := busy_succ loop (by rwa [hp]) hend hbusy
      refine ⟨d + 1, hend', hbusy', ?_⟩
      rw [hcount', hp, if_neg hloop]
      exact hcount
  | iterate hpc _ ih =>
      obtain ⟨hm', hp'⟩ := next_alone (hgo n (Nat.le_refl n)) hm hp
      obtain ⟨d, hend, hbusy, hcount⟩ := ih hm' hp' fun i hi => hgo i (by omega)
      obtain ⟨hend', hbusy', hcount'⟩ := busy_succ loop (by rwa [hp]) hend hbusy
      refine ⟨d + 1, hend', hbusy', ?_⟩
      rw [hcount']
      split_ifs <;> omega

/-- A log is that of a run of the system, at the end of which no call is in
progress. -/
theorem exists_run_of_serial {start : κ → π} {legal : μ → List (Call μ κ ε) → κ → Prop}
    {m₀ m : μ} {L : List (Call μ κ ε)} (hinit : S.init = ⟨m₀, fun _ => idle⟩)
    (hcall : ∀ m op, (S.prog m idle (.call op)).mem = m
      ∧ (S.prog m idle (.call op)).pc = start op)
    (h : Serial S.prog idle start legal m₀ m L) (p : ι) :
    ∃ sched n, S.run sched n = ⟨m, fun _ => idle⟩ := by
  induction h with
  | init => exact ⟨fun _ => (p, .go), 0, hinit⟩
  | @call m L op m' evs _ _ hrun ih =>
      obtain ⟨sched, n, hn⟩ := ih
      obtain ⟨k, hk⟩ := exists_run_of_completes hrun
      let sched' : ℕ → ι × Choice κ := fun i =>
        if i < n then sched i else if i = n then (p, .call op) else (p, .go)
      have hsame : S.run sched' n = ⟨m, fun _ => idle⟩ := by
        rw [← hn]
        exact run_congr fun i hi => if_pos hi
      have hat : sched' n = (p, .call op) := by
        simp only [sched', Nat.lt_irrefl, if_false, if_true]
      have hstep : S.run sched' (n + 1)
          = ⟨m, Function.update (fun _ => idle) p (start op)⟩ := by
        rw [run_succ, hat, next, outcome, hsame]
        simp only [hcall]
      refine ⟨sched', n + 1 + k, ?_⟩
      rw [hk sched' (n + 1) p (by rw [hstep]) (by simp only [hstep, Function.update_self])
        fun i _ => ?_, hstep, Function.update_idem]
      · simp only [Function.update_eq_self]
      · have hlt : ¬ n + 1 + i < n := by omega
        have hne : n + 1 + i ≠ n := by omega
        simp only [sched', if_neg hlt, if_neg hne]

end System

end Lockless
