import Lockless.Serial

/-!
# Linearizability

A run is linearizable if its calls can be put in one order such that a machine that is given
them one by one answers each as it has returned, and no call stands before one that had
returned when it was made. A call in flight may stand in the order, with the answer it is yet
to return, or be left out. Calls whose return is no answer are left out.

The rule for it are commit points: in each call that stands in the order there is one step of
its own at which the machine makes the operation, and the call then owes the answer until it
returns. The order is that of these steps. Since each lies between the start and the return of
its call, the order cannot contradict that of the calls in time.

A thread's control state tells which operation it is in, if any (`opOf`).
-/

namespace Lockless

namespace System

variable {ι μ π ε κ σ ρ : Type*} [DecidableEq ι]

/-! ## Calls in time -/

section Calls

variable (S : System ι μ π (Choice κ) ε) (opOf : π → Option κ) (sched : ℕ → ι × Choice κ)

/-- The call of `op` that thread `p` has made at tick `i` is under way at tick `j`. -/
structure Underway (i j : ℕ) (p : ι) (op : κ) : Prop where
  lt : i < j
  made : sched i = (p, .call op)
  free : opOf ((S.run sched i).pc p) = none
  busy : ∀ t, i < t → t ≤ j → opOf ((S.run sched t).pc p) = some op

/-- That call returns at tick `j`, with the event `e`. -/
structure Returned (i j : ℕ) (p : ι) (op : κ) (e : ε) : Prop where
  underway : S.Underway opOf sched i j p op
  fires : S.Fires sched j p e
  free : opOf ((S.run sched (j + 1)).pc p) = none

end Calls

/-- A thread that is in no call gets into one by making it, and changes it by returning
only. -/
structure MakesCalls (S : System ι μ π (Choice κ) ε) (opOf : π → Option κ) : Prop where
  init : ∀ p, opOf (S.init.pc p) = none
  step : ∀ {m pc ch op}, opOf (S.prog m pc ch).pc = some op →
    opOf pc = some op ∨ opOf pc = none ∧ ch = .call op

section Underway

variable {S : System ι μ π (Choice κ) ε} {opOf : π → Option κ} {sched : ℕ → ι × Choice κ}
  {i i' j : ℕ} {p q : ι} {op op' : κ}

theorem Underway.mono (h : S.Underway opOf sched i j p op) {t : ℕ} (hit : i < t)
    (htj : t ≤ j) : S.Underway opOf sched i t p op :=
  ⟨hit, h.made, h.free, fun u hiu hut => h.busy u hiu (hut.trans htj)⟩

/-- At any time a thread is in one call at most. -/
theorem Underway.unique (h : S.Underway opOf sched i j p op)
    (h' : S.Underway opOf sched i' j p op') : i = i' ∧ op = op' := by
  have hnot : ∀ {a b : ℕ} {x y : κ}, S.Underway opOf sched a j p x →
      S.Underway opOf sched b j p y → ¬ a < b := by
    intro a b x y ha hb hab
    have hbusy := ha.busy b hab hb.lt.le
    rw [hb.free] at hbusy
    cases hbusy
  have hi : i = i' := by
    rcases Nat.lt_trichotomy i i' with hlt | heq | hgt
    · exact absurd hlt (hnot h h')
    · exact heq
    · exact absurd hgt (hnot h' h)
  have hop := h.busy j h.lt (Nat.le_refl j)
  rw [h'.busy j h'.lt (Nat.le_refl j)] at hop
  exact ⟨hi, (Option.some.inj hop).symm⟩

/-- A call was made by one thread, with one operation. -/
theorem Underway.eq_of_made {j' : ℕ} (h : S.Underway opOf sched i j p op)
    (h' : S.Underway opOf sched i j' q op') : p = q ∧ op = op' := by
  have hmade := h.made.symm.trans h'.made
  exact ⟨congrArg Prod.fst hmade, Choice.call.inj (congrArg Prod.snd hmade)⟩

theorem MakesCalls.exists_underway (h : S.MakesCalls opOf) {n : ℕ}
    (hop : opOf ((S.run sched n).pc p) = some op) : ∃ i, S.Underway opOf sched i n p op := by
  induction n with
  | zero =>
      rw [run_zero, h.init p] at hop
      cases hop
  | succ n ih =>
      have hcont : opOf ((S.run sched n).pc p) = some op →
          ∃ i, S.Underway opOf sched i (n + 1) p op := by
        intro hold
        obtain ⟨i, hi⟩ := ih hold
        refine ⟨i, Nat.lt_succ_of_lt hi.lt, hi.made, hi.free, fun t hit htn => ?_⟩
        rcases Nat.lt_succ_iff_lt_or_eq.mp (Nat.lt_succ_of_le htn) with hlt | rfl
        · exact hi.busy t hit (by omega)
        · exact hop
      by_cases hp : p = (sched n).1
      · subst hp
        have hpc := hop
        rw [run_succ, next_pc_self] at hpc
        rcases h.step hpc with hold | ⟨hfree, hch⟩
        · exact hcont hold
        · refine ⟨n, Nat.lt_succ_self n, Prod.ext rfl hch, hfree, fun t hit htn => ?_⟩
          obtain rfl : t = n + 1 := by omega
          exact hop
      · have hpc := hop
        rw [run_succ, next_pc_ne _ _ hp] at hpc
        exact hcont hpc

end Underway

/-! ## The order of the calls -/

/-- A call in the order: the tick it was made at, the operation, and the answer. -/
structure Entry (κ ρ : Type*) where
  made : ℕ
  op : κ
  answer : ρ

section Definition

variable (S : System ι μ π (Choice κ) ε) (opOf : π → Option κ) (result : ε → Option ρ)
  (spec : σ → κ → σ × ρ) (s : σ) (sched : ℕ → ι × Choice κ)

/-- The first `n` ticks are linearizable with the calls in the order `L`. -/
structure Linearizes (n : ℕ) (L : List (Entry κ ρ)) : Prop where
  made : ∀ x, x ∈ L → ∃ j p, j < n ∧ S.Underway opOf sched x.made j p x.op
  once : (L.map Entry.made).Nodup
  returned : ∀ {i j p op e}, j < n → S.Returned opOf sched i j p op e →
    ∀ r, ⟨i, op, r⟩ ∈ L ↔ result e = some r
  legal : answers spec s (L.map Entry.op) = L.map Entry.answer
  realTime : L.Pairwise fun x y =>
    ∀ j p op e, S.Returned opOf sched y.made j p op e → ¬ j < x.made

/-- There is an order of the calls in which the machine gives the answers they have
returned. -/
def Linearizable (n : ℕ) : Prop :=
  ∃ L, S.Linearizes opOf result spec s sched n L

/-- What the steps commit, what the threads owe, and the states of the machine. The step at
tick `t` is one of the thread `(sched t).1`. -/
structure CommitPoints (n : ℕ) (commit : ℕ → Option ρ) (owed : ℕ → ι → Option ρ)
    (state : ℕ → σ) : Prop where
  init : ∀ p, owed 0 p = none
  state_init : state 0 = s
  others : ∀ t, t < n → ∀ q, q ≠ (sched t).1 → owed (t + 1) q = owed t q
  rests : ∀ t, t < n → opOf ((S.run sched (t + 1)).pc (sched t).1) = none →
    owed (t + 1) (sched t).1 = none
  goes : ∀ t, t < n → opOf ((S.run sched (t + 1)).pc (sched t).1) ≠ none →
    owed (t + 1) (sched t).1 = (commit t).or (owed t (sched t).1)
  silent : ∀ t, t < n → commit t = none → state (t + 1) = state t
  commits : ∀ t, t < n → ∀ r, commit t = some r → owed t (sched t).1 = none
    ∧ ∃ op, opOf ((S.run sched t).pc (sched t).1) = some op
      ∧ spec (state t) op = (state (t + 1), r)
  returns : ∀ t, t < n → ∀ e, S.Fires sched t (sched t).1 e →
    opOf ((S.run sched t).pc (sched t).1) ≠ none →
    opOf ((S.run sched (t + 1)).pc (sched t).1) = none →
    result e = (commit t).or (owed t (sched t).1)

end Definition

/-- Thread `p` has committed the answer `r` after tick `i` and before tick `t`. -/
def Committed (sched : ℕ → ι × Choice κ) (commit : ℕ → Option ρ) (i t : ℕ) (p : ι) (r : ρ) :
    Prop :=
  ∃ c, i < c ∧ c < t ∧ (sched c).1 = p ∧ commit c = some r

/-! ## From commit points to the order -/

section Rule

variable {S : System ι μ π (Choice κ) ε} {opOf : π → Option κ} {result : ε → Option ρ}
  {spec : σ → κ → σ × ρ} {s : σ} {sched : ℕ → ι × Choice κ} {n : ℕ} {commit : ℕ → Option ρ}
  {owed : ℕ → ι → Option ρ} {state : ℕ → σ}

namespace CommitPoints

/-- A thread that is in no call owes nothing. -/
theorem owed_of_free (h : S.CommitPoints opOf result spec s sched n commit owed state) {t : ℕ}
    (ht : t ≤ n) {p : ι} (hfree : opOf ((S.run sched t).pc p) = none) : owed t p = none := by
  induction t with
  | zero => exact h.init p
  | succ t ih =>
      by_cases hp : p = (sched t).1
      · subst hp
        exact h.rests t ht hfree
      · rw [run_succ, next_pc_ne _ _ hp] at hfree
        rw [h.others t ht p hp]
        exact ih (by omega) hfree

theorem commit_of_free (h : S.CommitPoints opOf result spec s sched n commit owed state) {t : ℕ}
    (ht : t < n) (hfree : opOf ((S.run sched t).pc (sched t).1) = none) : commit t = none := by
  rw [Option.eq_none_iff_forall_ne_some]
  intro r hr
  obtain ⟨-, op, hop, -⟩ := h.commits t ht r hr
  rw [hfree] at hop
  cases hop

omit [DecidableEq ι] in
theorem committed_succ_iff {i t : ℕ} {p : ι} {r : ρ} (hit : i < t)
    (h : (sched t).1 = p → commit t = none) :
    Committed sched commit i (t + 1) p r ↔ Committed sched commit i t p r := by
  refine exists_congr fun c => ⟨?_, fun ⟨h1, h2, h3, h4⟩ => ⟨h1, by omega, h3, h4⟩⟩
  rintro ⟨h1, h2, h3, h4⟩
  refine ⟨h1, Nat.lt_of_le_of_ne (Nat.le_of_lt_succ h2) ?_, h3, h4⟩
  rintro rfl
  rw [h h3] at h4
  cases h4

omit [DecidableEq ι] in
theorem committed_succ_self_iff {i t : ℕ} {r r' : ρ} (hit : i < t) (h : commit t = some r')
    (hnone : ¬ Committed sched commit i t (sched t).1 r) :
    Committed sched commit i (t + 1) (sched t).1 r ↔ r' = r := by
  constructor
  · rintro ⟨c, h1, h2, h3, h4⟩
    rcases Nat.lt_succ_iff_lt_or_eq.mp h2 with hlt | rfl
    · exact absurd ⟨c, h1, hlt, h3, h4⟩ hnone
    · exact Option.some.inj (h.symm.trans h4)
  · rintro rfl
    exact ⟨t, hit, Nat.lt_succ_self t, rfl, h⟩

/-- What a call owes is what it has committed. -/
theorem owed_iff (h : S.CommitPoints opOf result spec s sched n commit owed state) {i t : ℕ}
    {p : ι} {op : κ} (hcall : S.Underway opOf sched i t p op) (ht : t ≤ n) (r : ρ) :
    owed t p = some r ↔ Committed sched commit i t p r := by
  have hit := hcall.lt
  induction t, Nat.succ_le_of_lt hit using Nat.le_induction with
  | base =>
      have hp : (sched i).1 = p := congrArg Prod.fst hcall.made
      have hfree := hcall.free
      have hbusy := hcall.busy (i + 1) (Nat.lt_succ_self i) (Nat.le_refl _)
      subst hp
      rw [h.goes i ht (by rw [hbusy]; simp), h.commit_of_free ht hfree,
        h.owed_of_free (Nat.le_of_lt ht) hfree]
      refine ⟨nofun, ?_⟩
      rintro ⟨c, hic, hci, -⟩
      omega
  | succ t hit' ih =>
      have hprev := hcall.mono (t := t) (by omega) (Nat.le_succ t)
      have howed : owed t p = some r ↔ Committed sched commit i t p r :=
        ih hprev (by omega) hprev.lt
      by_cases hp : (sched t).1 = p
      · subst hp
        have hbusy := hcall.busy (t + 1) hit (Nat.le_refl _)
        rw [h.goes t ht (by rw [hbusy]; simp)]
        cases hcommit : commit t with
        | none => rw [Option.none_or, howed, committed_succ_iff hprev.lt fun _ => hcommit]
        | some r' =>
            rw [(h.commits t ht r' hcommit).1] at howed
            rw [Option.some_or, Option.some_inj,
              committed_succ_self_iff hprev.lt hcommit fun hc => nomatch howed.mpr hc]
      · rw [h.others t ht p (Ne.symm hp), howed,
          committed_succ_iff hprev.lt fun heq => absurd heq hp]

/-- A call commits once. -/
theorem not_committed (h : S.CommitPoints opOf result spec s sched n commit owed state)
    {i c : ℕ} {op : κ} {r : ρ} (hcall : S.Underway opOf sched i c (sched c).1 op) (hc : c < n)
    (hr : commit c = some r) (r' : ρ) : ¬ Committed sched commit i c (sched c).1 r' := by
  rw [← h.owed_iff hcall hc.le, (h.commits c hc r hr).1]
  nofun

/-- A call that has returned answers what it has committed. -/
theorem result_iff (h : S.CommitPoints opOf result spec s sched n commit owed state) {i j : ℕ}
    {p : ι} {op : κ} {e : ε} (hj : j < n) (hret : S.Returned opOf sched i j p op e) (r : ρ) :
    result e = some r ↔ Committed sched commit i (j + 1) p r := by
  obtain ⟨hcall, hfires, hfree⟩ := hret
  obtain rfl : (sched j).1 = p := hfires.1
  have hbusy := hcall.busy j hcall.lt (Nat.le_refl j)
  rw [h.returns j hj e hfires (by rw [hbusy]; simp) hfree]
  cases hcommit : commit j with
  | none =>
      rw [Option.none_or, h.owed_iff hcall hj.le r, committed_succ_iff hcall.lt fun _ => hcommit]
  | some r' =>
      rw [Option.some_or, Option.some_inj,
        committed_succ_self_iff hcall.lt hcommit (h.not_committed hcall hj hcommit r)]

/-- The entry of the call that commits at tick `x.1`. -/
structure Commits (S : System ι μ π (Choice κ) ε) (opOf : π → Option κ)
    (sched : ℕ → ι × Choice κ) (commit : ℕ → Option ρ) (t : ℕ) (x : ℕ × Entry κ ρ) : Prop where
  lt : x.1 < t
  answer : commit x.1 = some x.2.answer
  underway : S.Underway opOf sched x.2.made x.1 (sched x.1).1 x.2.op

/-- The calls in the order in which they commit. -/
theorem exists_order (h : S.CommitPoints opOf result spec s sched n commit owed state)
    (hcalls : S.MakesCalls opOf) {t : ℕ} (ht : t ≤ n) :
    ∃ L : List (ℕ × Entry κ ρ), (∀ x, x ∈ L → Commits S opOf sched commit t x)
      ∧ (∀ c r, c < t → commit c = some r → ∃ x, x ∈ L ∧ x.1 = c)
      ∧ L.Pairwise (fun x y => x.1 < y.1)
      ∧ stateAfter spec s (L.map fun x => x.2.op) = state t
      ∧ answers spec s (L.map fun x => x.2.op) = L.map fun x => x.2.answer := by
  induction t with
  | zero => exact ⟨[], nofun, nofun, .nil, h.state_init.symm, rfl⟩
  | succ t ih =>
      obtain ⟨L, hL, hall, hord, hstate, hanswers⟩ := ih (by omega)
      have hmem : ∀ x, x ∈ L → Commits S opOf sched commit (t + 1) x :=
        fun x hx => ⟨Nat.lt_succ_of_lt (hL x hx).lt, (hL x hx).answer, (hL x hx).underway⟩
      cases hcommit : commit t with
      | none =>
          refine ⟨L, hmem, fun c r hc hr => ?_, hord, ?_, hanswers⟩
          · rcases Nat.lt_succ_iff_lt_or_eq.mp hc with hlt | rfl
            · exact hall c r hlt hr
            · rw [hcommit] at hr
              cases hr
          · rw [h.silent t ht hcommit, hstate]
      | some r =>
          obtain ⟨-, op, hop, hspec⟩ := h.commits t ht r hcommit
          obtain ⟨i, hi⟩ := hcalls.exists_underway hop
          refine ⟨L ++ [(t, ⟨i, op, r⟩)], fun x hx => ?_, fun c r' hc hr' => ?_, ?_, ?_, ?_⟩
          · rcases List.mem_append.mp hx with hold | hnew
            · exact hmem x hold
            · obtain rfl := List.mem_singleton.mp hnew
              exact ⟨Nat.lt_succ_self t, hcommit, hi⟩
          · rcases Nat.lt_succ_iff_lt_or_eq.mp hc with hlt | rfl
            · obtain ⟨x, hx, hxc⟩ := hall c r' hlt hr'
              exact ⟨x, List.mem_append_left _ hx, hxc⟩
            · exact ⟨_, List.mem_append_right _ (List.mem_singleton.mpr rfl), rfl⟩
          · refine List.pairwise_append.mpr ⟨hord, List.pairwise_singleton _ _, ?_⟩
            intro x hx y hy
            obtain rfl := List.mem_singleton.mp hy
            exact (hL x hx).lt
          · rw [List.map_append, List.map_singleton, stateAfter_concat, hstate, hspec]
          · rw [List.map_append, List.map_append, List.map_singleton, List.map_singleton,
              answers_concat, hanswers, hstate, hspec]

/-- A call has committed when it returns. -/
theorem Commits.le_of_returned {x : ℕ × Entry κ ρ} {t j : ℕ} {p : ι} {op : κ} {e : ε}
    (h : Commits S opOf sched commit t x) (hret : S.Returned opOf sched x.2.made j p op e) :
    x.1 ≤ j := by
  obtain ⟨rfl, -⟩ := h.underway.eq_of_made hret.underway
  by_contra hlt
  have hij := hret.underway.lt
  have hbusy := h.underway.busy (j + 1) (by omega) (by omega)
  rw [hret.free] at hbusy
  cases hbusy

/-- **Commit points make a run linearizable.** -/
theorem linearizable (h : S.CommitPoints opOf result spec s sched n commit owed state)
    (hcalls : S.MakesCalls opOf) : S.Linearizable opOf result spec s sched n := by
  obtain ⟨L, hL, hall, hord, -, hanswers⟩ := h.exists_order hcalls (Nat.le_refl n)
  refine ⟨L.map Prod.snd, fun x hx => ?_, ?_, fun {i j p op e} hj hret r => ?_, ?_, ?_⟩
  · obtain ⟨y, hy, rfl⟩ := List.mem_map.mp hx
    exact ⟨y.1, _, (hL y hy).lt, (hL y hy).underway⟩
  · -- of two entries of one call the later one commits again
    rw [List.map_map, List.Nodup, List.pairwise_map]
    refine hord.imp_of_mem fun {x y} hx hy hlt heq => ?_
    have hmade : x.2.made = y.2.made := heq
    have hunder := (hL y hy).underway
    rw [← hmade] at hunder
    obtain ⟨hp, -⟩ := (hL x hx).underway.eq_of_made hunder
    exact h.not_committed hunder (hL y hy).lt (hL y hy).answer x.2.answer
      ⟨x.1, (hL x hx).underway.lt, hlt, hp, (hL x hx).answer⟩
  · rw [h.result_iff hj hret]
    constructor
    · intro hx
      obtain ⟨y, hy, hyx⟩ := List.mem_map.mp hx
      have hc := hL y hy
      have hle := hc.le_of_returned (by rw [hyx]; exact hret)
      have hunder := hc.underway
      rw [hyx] at hunder
      obtain ⟨hp, -⟩ := hunder.eq_of_made hret.underway
      refine ⟨y.1, hunder.lt, by omega, hp, ?_⟩
      rw [hc.answer, hyx]
    · rintro ⟨c, hic, hcj, rfl, hr⟩
      obtain ⟨y, hy, rfl⟩ := hall c r (by omega) hr
      have hc := hL y hy
      obtain ⟨hmade, hop⟩ := hc.underway.unique (hret.underway.mono hic (by omega))
      refine List.mem_map.mpr ⟨y, hy, ?_⟩
      rw [← hmade, ← hop, ← Option.some.inj (hc.answer.symm.trans hr)]
  · rw [List.map_map, List.map_map]
    exact hanswers
  · rw [List.pairwise_map]
    refine hord.imp_of_mem fun {x y} hx hy hlt j p op e hret => ?_
    have hle := (hL y hy).le_of_returned hret
    have hmade := (hL x hx).underway.lt
    omega

end CommitPoints

/-- The rule for calls that commit when they return: no thread ever owes anything. -/
theorem linearizable_of_returns (hcalls : S.MakesCalls opOf) (state : ℕ → σ)
    (hinit : state 0 = s)
    (hsilent : ∀ t, t < n → (S.outcome (S.run sched t) (sched t)).event.bind result = none →
      state (t + 1) = state t)
    (hreturns : ∀ t, t < n → ∀ r,
      (S.outcome (S.run sched t) (sched t)).event.bind result = some r →
      opOf ((S.run sched (t + 1)).pc (sched t).1) = none
        ∧ ∃ op, opOf ((S.run sched t).pc (sched t).1) = some op
          ∧ spec (state t) op = (state (t + 1), r)) :
    S.Linearizable opOf result spec s sched n := by
  have hpoints : S.CommitPoints opOf result spec s sched n
      (fun t => (S.outcome (S.run sched t) (sched t)).event.bind result) (fun _ _ => none)
      state := by
    refine ⟨fun _ => rfl, hinit, fun _ _ _ _ => rfl, fun _ _ _ => rfl, fun t ht hbusy => ?_,
      hsilent, fun t ht r hr => ⟨rfl, (hreturns t ht r hr).2⟩, fun t ht e hfires _ _ => ?_⟩
    · cases hcommit : (S.outcome (S.run sched t) (sched t)).event.bind result with
      | none => rfl
      | some r => exact absurd (hreturns t ht r hcommit).1 hbusy
    · rw [hfires.2, Option.or_none]
      rfl
  exact hpoints.linearizable hcalls

end Rule

end System

end Lockless
