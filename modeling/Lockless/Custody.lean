import Mathlib.Tactic
import Mathlib.Data.List.Perm.Basic
import Mathlib.Data.Set.Card
import Mathlib.Algebra.BigOperators.Group.Finset.Basic
import Mathlib.Algebra.Order.BigOperators.Group.Finset

/-!
# Custody of tokens, amounts owed and linked chains

A custody spreads a set of tokens over holders so that every token is with
exactly one of them, once. Holders carry lists, since some of them are
linked lists whose order matters. A step of a concurrent program moves
tokens between two holders or brings in a new one, and each of these has a
rule here.

Amounts that holders are owed out of one total are covered if no finite set
of holders is owed more than the total together.

A chain is the list of nodes reached by following `next` from an index up
to the null index. It is determined by its start, and writing the `next` of
a node outside the chain leaves it alone.
-/

namespace Lockless

/-! ## Custody -/

/-- Every token of `U` is with exactly one holder, once, and the holders
have nothing else. -/
structure Custody {X η : Type*} (U : X → Prop) (has : η → List X) : Prop where
  nodup : ∀ h, (has h).Nodup
  unique : ∀ {h k x}, x ∈ has h → x ∈ has k → h = k
  mem_iff : ∀ {x}, U x ↔ ∃ h, x ∈ has h

namespace Custody

variable {X η : Type*} {U : X → Prop} {has has' : η → List X}

theorem token (h : Custody U has) {a : η} {x : X} (hx : x ∈ has a) : U x :=
  h.mem_iff.mpr ⟨a, hx⟩

theorem existsUnique (h : Custody U has) {x : X} (hx : U x) : ∃! a, x ∈ has a := by
  obtain ⟨a, ha⟩ := h.mem_iff.mp hx
  exact ⟨a, ha, fun b hb => h.unique hb ha⟩

theorem not_mem (h : Custody U has) {a b : η} {x : X} (hx : x ∈ has a) (hab : b ≠ a) :
    x ∉ has b :=
  fun hb => hab (h.unique hb hx)

/-- No tokens, and nobody has any. -/
theorem empty (hU : ∀ x, ¬ U x) (hhas : ∀ a, has a = []) : Custody U has := by
  refine ⟨fun a => ?_, fun {a b x} hx _ => ?_, fun {x} => ⟨fun hx => absurd hx (hU x), ?_⟩⟩
  · rw [hhas a]
    exact List.nodup_nil
  · rw [hhas a] at hx
    cases hx
  · rintro ⟨a, hx⟩
    rw [hhas a] at hx
    cases hx

/-- Tokens change hands between two holders. -/
theorem move (h : Custody U has) {a b : η} (hab : a ≠ b)
    (hoff : ∀ k, k ≠ a → k ≠ b → has' k = has k)
    (hperm : (has' a ++ has' b).Perm (has a ++ has b)) : Custody U has' := by
  have hmem : ∀ {x}, x ∈ has' a ∨ x ∈ has' b ↔ x ∈ has a ∨ x ∈ has b := by
    intro x
    simpa only [List.mem_append] using hperm.mem_iff (a := x)
  have hnd : (has' a ++ has' b).Nodup := by
    rw [hperm.nodup_iff, List.nodup_append]
    exact ⟨h.nodup a, h.nodup b, fun x hx y hy hxy => hab (h.unique hx (hxy ▸ hy))⟩
  obtain ⟨hnda, hndb, hdisj⟩ := List.nodup_append.mp hnd
  -- a token outside `a` and `b` afterwards was there before, and conversely
  have hout : ∀ {k x}, x ∈ has' k → k ≠ a → k ≠ b → ¬ (x ∈ has' a ∨ x ∈ has' b) := by
    intro k x hx hka hkb hor
    rw [hoff k hka hkb] at hx
    rcases hmem.mp hor with ha | hb
    · exact hka (h.unique hx ha)
    · exact hkb (h.unique hx hb)
  refine ⟨fun k => ?_, fun {k l x} hk hl => ?_, fun {x} => h.mem_iff.trans ?_⟩
  · by_cases hka : k = a
    · rwa [hka]
    · by_cases hkb : k = b
      · rwa [hkb]
      · rw [hoff k hka hkb]
        exact h.nodup k
  · by_cases hor : x ∈ has' a ∨ x ∈ has' b
    · have hside : ∀ {j}, x ∈ has' j → j = a ∨ j = b := by
        intro j hj
        by_contra hne
        rw [not_or] at hne
        exact hout hj hne.1 hne.2 hor
      rcases hside hk with rfl | rfl <;> rcases hside hl with rfl | rfl
      · rfl
      · exact absurd rfl (hdisj x hk x hl)
      · exact absurd rfl (hdisj x hl x hk)
      · rfl
    · have hold : ∀ {j}, x ∈ has' j → x ∈ has j := by
        intro j hj
        rwa [hoff j (fun e => hor (Or.inl (e ▸ hj))) fun e => hor (Or.inr (e ▸ hj))]
          at hj
      exact h.unique (hold hk) (hold hl)
  · constructor
    · rintro ⟨k, hk⟩
      by_cases hor : x ∈ has' a ∨ x ∈ has' b
      · exact hor.elim (fun hx => ⟨a, hx⟩) fun hx => ⟨b, hx⟩
      · rw [hmem, not_or] at hor
        refine ⟨k, ?_⟩
        rwa [hoff k (fun e => hor.1 (e ▸ hk)) (fun e => hor.2 (e ▸ hk))]
    · rintro ⟨k, hk⟩
      by_cases hor : x ∈ has a ∨ x ∈ has b
      · exact hor.elim (fun hx => ⟨a, hx⟩) fun hx => ⟨b, hx⟩
      · rw [← hmem, not_or] at hor
        refine ⟨k, ?_⟩
        rwa [hoff k (fun e => hor.1 (e ▸ hk)) (fun e => hor.2 (e ▸ hk))] at hk

/-- A new token comes into the hands of one holder. -/
theorem add {U' : X → Prop} (h : Custody U has) {a : η} {x : X} (hnew : ¬ U x)
    (hU : ∀ y, U' y ↔ y = x ∨ U y) (hoff : ∀ k, k ≠ a → has' k = has k)
    (hperm : (has' a).Perm (x :: has a)) : Custody U' has' := by
  have hx : ∀ k, x ∉ has k := fun k hk => hnew (h.token hk)
  have hmem : ∀ {k y}, y ∈ has' k ↔ k = a ∧ y = x ∨ y ∈ has k := by
    intro k y
    by_cases hk : k = a
    · subst hk
      simp [hperm.mem_iff]
    · simp [hoff k hk, hk]
  refine ⟨fun k => ?_, fun {k l y} hk hl => ?_, fun {y} => ?_⟩
  · by_cases hk : k = a
    · rw [hk, hperm.nodup_iff, List.nodup_cons]
      exact ⟨hx a, h.nodup a⟩
    · rw [hoff k hk]
      exact h.nodup k
  · rw [hmem] at hk hl
    rcases hk with ⟨hka, hy⟩ | hk <;> rcases hl with ⟨hla, hy'⟩ | hl
    · rw [hka, hla]
    · exact absurd (hy ▸ hl) (hx l)
    · exact absurd (hy' ▸ hk) (hx k)
    · exact h.unique hk hl
  · simp only [hU, hmem, h.mem_iff]
    constructor
    · rintro (rfl | ⟨k, hk⟩)
      · exact ⟨a, Or.inl ⟨rfl, rfl⟩⟩
      · exact ⟨k, Or.inr hk⟩
    · rintro ⟨k, ⟨-, rfl⟩ | hk⟩
      · exact Or.inl rfl
      · exact Or.inr ⟨k, hk⟩

/-- The tokens of some of the holders. -/
theorem restrict {η' : Type*} {U' : X → Prop} (h : Custody U has) {e : η' → η}
    (he : Function.Injective e) (hU : ∀ {x}, U' x ↔ ∃ a, x ∈ has (e a)) :
    Custody U' fun a => has (e a) :=
  ⟨fun a => h.nodup (e a), fun ha hb => he (h.unique ha hb), hU⟩

/-- Holders that have nothing can be left out. -/
theorem comap {η' : Type*} (h : Custody U has) {e : η' → η} (he : Function.Injective e)
    (hrest : ∀ k, (∀ a, e a ≠ k) → has k = []) : Custody U fun a => has (e a) := by
  refine h.restrict he fun {x} => ?_
  refine h.mem_iff.trans ⟨fun ⟨k, hk⟩ => ?_, fun ⟨a, ha⟩ => ⟨e a, ha⟩⟩
  by_cases hrange : ∃ a, e a = k
  · obtain ⟨a, rfl⟩ := hrange
    exact ⟨a, hk⟩
  · rw [hrest k fun a ha => hrange ⟨a, ha⟩] at hk
    simp at hk

/-- If finitely many holders have all the tokens, these are the tokens. -/
theorem perm_flatMap (h : Custody U has) {l : List η} (hl : l.Nodup)
    (hrest : ∀ k, k ∉ l → has k = []) {L : List X} (hL : L.Nodup)
    (hU : ∀ x, x ∈ L ↔ U x) : (l.flatMap has).Perm L := by
  have hnd : (l.flatMap has).Nodup := by
    refine List.nodup_flatMap.mpr ⟨fun a _ => h.nodup a, hl.imp fun hab x ha hb => ?_⟩
    exact hab (h.unique ha hb)
  refine (List.perm_ext_iff_of_nodup hnd hL).mpr fun x => ?_
  rw [hU, h.mem_iff, List.mem_flatMap]
  refine ⟨fun ⟨a, _, ha⟩ => ⟨a, ha⟩, fun ⟨a, ha⟩ => ⟨a, ?_, ha⟩⟩
  by_contra hal
  rw [hrest a hal] at ha
  cases ha

end Custody

/-- Holders that have at most one token each are as many as the tokens they
have. -/
theorem ncard_holders {X η : Type*} {f : η → Option X}
    (hf : ∀ {a b x}, f a = some x → f b = some x → a = b) :
    {a | f a ≠ none}.ncard = {x | ∃ a, f a = some x}.ncard := by
  refine Set.ncard_congr (fun a ha => (f a).get (Option.isSome_iff_ne_none.mpr ha)) ?_ ?_ ?_
  · exact fun a ha => ⟨a, (Option.some_get _).symm⟩
  · intro a b ha hb hab
    refine hf (Option.some_get (Option.isSome_iff_ne_none.mpr ha)).symm ?_
    rw [hab, Option.some_get]
  · rintro x ⟨a, ha⟩
    refine ⟨a, by simp [ha], ?_⟩
    simp [ha]

theorem finite_holders {X η : Type*} {f : η → Option X}
    (hf : ∀ {a b x}, f a = some x → f b = some x → a = b)
    (hfin : {x | ∃ a, f a = some x}.Finite) : {a | f a ≠ none}.Finite := by
  refine Set.Finite.of_finite_image (f := f) ((hfin.image some).subset ?_) ?_
  · rintro y ⟨a, ha, rfl⟩
    obtain ⟨x, hx⟩ := Option.ne_none_iff_exists'.mp ha
    exact ⟨x, ⟨a, hx⟩, hx.symm⟩
  · intro a ha b hb hab
    obtain ⟨x, hx⟩ := Option.ne_none_iff_exists'.mp ha
    exact hf hx (hab ▸ hx)

/-! ## Amounts -/

/-- Any finite set of holders is owed no more than the total. -/
def Covered {η : Type*} (total : ℕ) (owed : η → ℕ) : Prop :=
  ∀ F : Finset η, ∑ h ∈ F, owed h ≤ total

namespace Covered

variable {η : Type*} [DecidableEq η] {total : ℕ} {owed : η → ℕ} {a : η}

theorem add_le (h : Covered total owed) {F : Finset η} (ha : a ∉ F) :
    ∑ x ∈ F, owed x + owed a ≤ total := by
  have hins := h (insert a F)
  rwa [Finset.sum_insert ha, Nat.add_comm] at hins

omit [DecidableEq η] in
theorem le (h : Covered total owed) (a : η) : owed a ≤ total := by
  have hone := h {a}
  rwa [Finset.sum_singleton] at hone

/-- One holder is owed another amount, which the total covers besides what the
others are owed. -/
theorem update {v : ℕ} (h : ∀ F : Finset η, a ∉ F → ∑ x ∈ F, owed x + v ≤ total) :
    Covered total (Function.update owed a v) := by
  intro F
  by_cases ha : a ∈ F
  · rw [Finset.sum_update_of_mem ha, Nat.add_comm]
    exact h _ (by simp)
  · rw [Finset.sum_update_of_notMem ha]
    exact Nat.le_of_add_right_le (h F ha)

end Covered

/-! ## Chains -/

/-- Following `next` from `i` visits exactly the nodes of the list, in order,
and then meets `null`. -/
def Chain {α : Type*} (next : α → α) (null : α) : α → List α → Prop
  | i, [] => i = null
  | i, x :: L => i = x ∧ x ≠ null ∧ Chain next null (next x) L

namespace Chain

variable {α : Type*} {next next' : α → α} {null i : α} {L : List α}

theorem start_eq (h : Chain next null i L) : i = L.headD null := by
  cases L with
  | nil => exact h
  | cons x L => exact h.1

/-- A chain that does not start at the null index has a first node. -/
theorem exists_cons (h : Chain next null i L) (hi : i ≠ null) :
    ∃ L', L = i :: L' ∧ Chain next null (next i) L' := by
  cases L with
  | nil => exact absurd h hi
  | cons x L =>
      obtain ⟨rfl, -, hL⟩ := h
      exact ⟨L, rfl, hL⟩

theorem eq_nil (h : Chain next null null L) : L = [] := by
  cases L with
  | nil => rfl
  | cons x L => exact absurd h.1.symm h.2.1

theorem congr (h : Chain next null i L) (hnext : ∀ x ∈ L, next' x = next x) :
    Chain next' null i L := by
  induction L generalizing i with
  | nil => exact h
  | cons x L ih =>
      obtain ⟨hi, hx, hL⟩ := h
      refine ⟨hi, hx, ?_⟩
      rw [hnext x List.mem_cons_self]
      exact ih hL fun y hy => hnext y (List.mem_cons_of_mem x hy)

end Chain

end Lockless
