import Lockless.Pool

/-!
# Custody of the objects

Every object of the pool is free, with its index on the stack, or held by
one client, or in the hands of one operation in flight: a `release` that has
not linked its node yet or an `acquire` that has not returned yet. While the
constructor runs, it owns the indices it has not pushed.

That the push inside `release` cannot fail is a count. It fails on an empty
list of free nodes, when every node is on the stack or with an operation
that has taken it; each of these has an object of its own, and so has the
`release` that failed, which makes one object too many.
-/

namespace Lockless

namespace Pool

variable {ι : Type*}

/-! ## Places -/

/-- Where an object can be. -/
inductive Place (ι : Type*) where
  | free
  | flight (p : ι)
  | client (p : ι)

/-- The objects a thread owns outright: those its client holds, or those the
constructor has still to push. -/
def PC.owned (capacity : ℕ) : PC → List ℕ
  | .build i .idle => List.range' i (capacity - i)
  | .build i _ => List.range' (i + 1) (capacity - (i + 1))
  | .client held _ => held
  | .threw => []

def objects (capacity : ℕ) (s : List ℕ) (c : Config ι Mem PC) : Place ι → List ℕ
  | .free => s
  | .flight p => ((c.pc p).stk.inHand c.mem.freeIndices.data).toList
  | .client p => (c.pc p).owned capacity

theorem PC.owned_build {capacity i : ℕ} {stk : Stack.PC ℕ} (h : stk ≠ .idle) :
    (PC.build i stk).owned capacity = List.range' (i + 1) (capacity - (i + 1)) := by
  cases stk <;> first | exact absurd rfl h | rfl

theorem settle_of_ne {held : List ℕ} {ev : Option (Stack.Event ℕ)}
    (h : ∀ node item, ev ≠ some (.give node item)) : settle held ev = held := by
  unfold settle
  split
  · next node index => exact absurd rfl (h node index)
  · rfl

/-- The objects a client holds. -/
def PC.held : PC → List ℕ
  | .client held _ => held
  | _ => []

theorem PC.owned_of_held {pc : PC} {capacity x : ℕ} (h : x ∈ pc.held) :
    x ∈ pc.owned capacity := by
  cases pc with
  | client held stk => exact h
  | _ => cases h

/-- A `release` an idle client is about to call, with what it holds. -/
def releasing : PC → Choice Op → Option (List ℕ × Option ℤ)
  | .client held .idle, .call (.release ptr) => some (held, ptr)
  | _, _ => none

section Objects

variable [DecidableEq ι] {capacity : ℕ} {s s' : List ℕ} {c : Config ι Mem PC} {p : ι}
  {m : Mem} {pc : PC}

/-- A step touches its thread's places and the free ones only. -/
theorem objects_off
    (hhand : ∀ q, q ≠ p → (c.pc q).stk.inHand m.freeIndices.data
      = (c.pc q).stk.inHand c.mem.freeIndices.data)
    {a : Place ι} (hfree : a = .free → s' = s) (hflight : a ≠ .flight p)
    (hclient : a ≠ .client p) :
    objects capacity s' ⟨m, Function.update c.pc p pc⟩ a = objects capacity s c a := by
  cases a with
  | free => exact hfree rfl
  | flight q =>
      have hqp : q ≠ p := fun e => hflight (e ▸ rfl)
      simp [objects, Function.update_of_ne hqp, hhand q hqp]
  | client q =>
      have hqp : q ≠ p := fun e => hclient (e ▸ rfl)
      simp [objects, Function.update_of_ne hqp]

theorem objects_flight :
    objects capacity s' ⟨m, Function.update c.pc p pc⟩ (.flight p)
      = (pc.stk.inHand m.freeIndices.data).toList := by
  simp [objects]

theorem objects_client :
    objects capacity s' ⟨m, Function.update c.pc p pc⟩ (.client p) = pc.owned capacity := by
  simp [objects]

/-- Only what is in the thread's own hands and on the stack has changed. -/
theorem custody_stack {U : ℕ → Prop} (h : Custody U (objects capacity s c))
    (hhand : ∀ q, q ≠ p → (c.pc q).stk.inHand m.freeIndices.data
      = (c.pc q).stk.inHand c.mem.freeIndices.data)
    (howned : pc.owned capacity = (c.pc p).owned capacity)
    (hperm : (s' ++ (pc.stk.inHand m.freeIndices.data).toList).Perm
      (s ++ ((c.pc p).stk.inHand c.mem.freeIndices.data).toList)) :
    Custody U (objects capacity s' ⟨m, Function.update c.pc p pc⟩) := by
  refine h.move (a := .free) (b := .flight p) nofun (fun k hfree hflight => ?_) ?_
  · by_cases hclient : k = .client p
    · rw [hclient, objects_client, howned]
      rfl
    · exact objects_off hhand (fun e => absurd e hfree) hflight hclient
  · rw [objects_flight]
    exact hperm

/-- Only what the thread owns and has in its hands has changed. -/
theorem custody_client {U : ℕ → Prop} (h : Custody U (objects capacity s c))
    (hhand : ∀ q, q ≠ p → (c.pc q).stk.inHand m.freeIndices.data
      = (c.pc q).stk.inHand c.mem.freeIndices.data)
    (hperm : (pc.owned capacity ++ (pc.stk.inHand m.freeIndices.data).toList).Perm
      ((c.pc p).owned capacity ++ ((c.pc p).stk.inHand c.mem.freeIndices.data).toList)) :
    Custody U (objects capacity s ⟨m, Function.update c.pc p pc⟩) := by
  refine h.move (a := .client p) (b := .flight p) nofun (fun k hclient hflight => ?_) ?_
  · exact objects_off hhand (fun _ => rfl) hflight hclient
  · rw [objects_flight, objects_client]
    exact hperm

end Objects

/-! ## The invariant -/

/-- Before the constructor has returned, `main` runs it and nobody else does
anything. -/
def Constructing (main p : ι) (pc : PC) : Prop :=
  (p = main → ∃ i stk, pc = .build i stk) ∧ (p ≠ main → pc = .client [] .idle)

/-- The state of the pool, with the history of its stack. -/
structure Inv (C : Stack.Capacity) (main : ι) (c : Config ι Mem PC)
    (H : List (ι × Stack.Event ℕ)) : Prop where
  custody : Custody (· < C.val) (objects C.val (Stack.stack H) c)
  clients : c.mem.built = true → ∀ p, ∃ held stk, c.pc p = .client held stk
  waiting : c.mem.built = false → ∀ p, Constructing main p (c.pc p)
  building : ∀ {p i stk}, c.pc p = .build i stk →
    i ≤ C.val ∧ (stk ≠ .idle → i < C.val ∧ stk.inPush)

namespace Inv

variable {C : Stack.Capacity} {main : ι} {c : Config ι Mem PC}
  {H : List (ι × Stack.Event ℕ)}

theorem inHand_inj (h : Inv C main c H) {p q : ι} {x : ℕ}
    (hp : (c.pc p).stk.inHand c.mem.freeIndices.data = some x)
    (hq : (c.pc q).stk.inHand c.mem.freeIndices.data = some x) : p = q := by
  have := h.custody.unique (h := .flight p) (k := .flight q) (x := x)
    (by simp [objects, hp]) (by simp [objects, hq])
  exact Place.flight.inj this

/-- The push of an index that is not on the stack finds a free node. -/
theorem not_refuse (h : Inv C main c H) (hs : Stack.Inv C (stackOf c) H) {p : ι}
    {m : Stack.Mem ℕ} {stk : Stack.PC ℕ} {index : ℕ}
    (he : Stack.Effect id c.mem.freeIndices (c.pc p).stk m stk
      (some (.refuse (.push index)))) : False := by
  obtain ⟨-, -, hpop, hnull⟩ := he.of_refuse
  have hcount := hs.length_add_ncard (hs.members_eq_nil hnull)
  -- the objects in flight are not on the stack
  have hsub : {x | ∃ q, (c.pc q).stk.inHand c.mem.freeIndices.data = some x}
      ⊆ ((Finset.range C.val \ (Stack.stack H).toFinset : Finset ℕ) : Set ℕ) := by
    rintro x ⟨q, hq⟩
    have hmem : x ∈ objects C.val (Stack.stack H) c (.flight q) := by simp [objects, hq]
    simp only [Finset.coe_sdiff, Finset.coe_range, List.coe_toFinset, Set.mem_sdiff,
      Set.mem_Iio]
    exact ⟨h.custody.token hmem, h.custody.not_mem (b := .free) hmem nofun⟩
  have hle := Set.ncard_le_ncard hsub (Finset.finite_toSet _)
  have hstack : (Stack.stack H).toFinset ⊆ Finset.range C.val := fun x hx =>
    Finset.mem_range.mpr (h.custody.token (a := .free) (List.mem_toFinset.mp hx))
  have hnodup : (Stack.stack H).Nodup := h.custody.nodup .free
  rw [Set.ncard_coe_finset, Finset.card_sdiff_of_subset hstack, Finset.card_range,
    List.toFinset_card_of_nodup hnodup, ← ncard_holders h.inHand_inj] at hle
  -- all that hold a node have an object, and so has the one refused
  have hlt : {q | (c.pc q).stk.holding ≠ none}.ncard
      < {q | (c.pc q).stk.inHand c.mem.freeIndices.data ≠ none}.ncard := by
    refine Set.ncard_lt_ncard ⟨fun q hq => Stack.PC.inHand_of_holding hq _, fun hle => ?_⟩
      (finite_holders h.inHand_inj ((Finset.finite_toSet _).subset hsub))
    have hmem : p ∈ {q | (c.pc q).stk.inHand c.mem.freeIndices.data ≠ none} := by
      have := Stack.PC.inHand_of_popping hpop c.mem.freeIndices.data
      exact fun hnone => Option.some_ne_none index (this.symm.trans hnone)
    exact hle hmem (Stack.PC.holding_of_popping hpop)
  have hcount' : (Stack.stack H).length + {q | (c.pc q).stk.holding ≠ none}.ncard
      = C.val := hcount
  omega

/-- The constructor's pushes succeed. -/
theorem not_refuse_build (h : Inv C main c H) (hs : Stack.Inv C (stackOf c) H) {p : ι}
    {i : ℕ} {stk stk' : Stack.PC ℕ} {m : Stack.Mem ℕ} {call : Stack.Call ℕ}
    (hpc : c.pc p = .build i stk) (hbusy : stk ≠ .idle)
    (he : Stack.Effect id c.mem.freeIndices stk m stk' (some (.refuse call))) : False := by
  obtain ⟨-, hpush⟩ := (h.building hpc).2 hbusy
  obtain ⟨value, rfl⟩ := Stack.PC.inPush_of_popping hpush he.of_refuse.2.2.1
  exact h.not_refuse hs (p := p) (by rwa [hpc])

variable [DecidableEq ι]

/-- An access of a call to the stack keeps the custody, if the thread ends up
owning what the access returns to it. -/
theorem custody_access (h : Inv C main c H) (hs : Stack.Inv C (stackOf c) H) {p : ι}
    {m : Stack.Mem ℕ} {built : Bool} (pc : PC) {ev : Option (Stack.Event ℕ)}
    (he : Stack.Effect id c.mem.freeIndices (c.pc p).stk m pc.stk ev)
    (hbusy : (c.pc p).stk ≠ .idle)
    (howned : pc.owned C.val = settle ((c.pc p).owned C.val) ev) :
    Custody (· < C.val) (objects C.val (Stack.stack (H ++ (ev.map (Prod.mk p)).toList))
      ⟨⟨m, built⟩, Function.update c.pc p pc⟩) := by
  have hhand : ∀ q, q ≠ p → (c.pc q).stk.inHand m.data
      = (c.pc q).stk.inHand c.mem.freeIndices.data :=
    fun q hqp => hs.inHand_frame hqp he.frame
  have hflow := hs.flow (p := p) he fun hidle => absurd hidle hbusy
  change Stack.Flow _ ((c.pc p).stk.inHand c.mem.freeIndices.data) _ _ _ at hflow
  generalize hs' : Stack.stack (H ++ (ev.map (Prod.mk p)).toList) = s' at hflow ⊢
  generalize hs₀ : Stack.stack H = s₀ at hflow
  have hcustody := h.custody
  rw [hs₀] at hcustody
  generalize hhand' : pc.stk.inHand m.data = hand' at hflow
  cases hflow with
  | keep _ hgive hlink hrefuse =>
      refine custody_stack hcustody hhand ?_ (by rw [hhand'])
      rw [howned, settle_of_ne hgive]
  | unlink node value s' hs hnone =>
      refine custody_stack hcustody hhand howned ?_
      rw [hhand', hs, hnone]
      simp
  | link node value hsome =>
      refine custody_stack hcustody hhand howned ?_
      rw [hhand', hsome]
      simpa using (List.perm_append_singleton value s₀).symm
  | give node item hsome =>
      refine custody_client hcustody hhand ?_
      rw [howned, hhand', hsome]
      simpa [settle] using (List.perm_append_singleton item _).symm
  | refuse call hval =>
      cases call with
      | push value => exact absurd he (h.not_refuse hs)
      | pop =>
          refine custody_stack hcustody hhand howned ?_
          rw [hhand', hval]
          rfl

/-- Assembling the invariant after a step of thread `p`. -/
theorem update (h : Inv C main c H) {p : ι} {m : Mem} {pc : PC}
    {K : List (ι × Stack.Event ℕ)} (hbuilt : m.built = c.mem.built)
    (hcustody : Custody (· < C.val) (objects C.val (Stack.stack (H ++ K))
      ⟨m, Function.update c.pc p pc⟩))
    (hclient : c.mem.built = true → ∃ held stk, pc = .client held stk)
    (hwaiting : c.mem.built = false → Constructing main p pc)
    (hbuilding : ∀ i stk, pc = .build i stk →
      i ≤ C.val ∧ (stk ≠ .idle → i < C.val ∧ stk.inPush)) :
    Inv C main ⟨m, Function.update c.pc p pc⟩ (H ++ K) where
  custody := hcustody
  clients := fun hb => (Function.forall_update_iff c.pc
    (fun _ pc => ∃ held stk, pc = .client held stk)).mpr
      ⟨hclient (hbuilt ▸ hb), fun q _ => h.clients (hbuilt ▸ hb) q⟩
  waiting := fun hb => (Function.forall_update_iff c.pc
    (fun q pc => Constructing main q pc)).mpr
      ⟨hwaiting (hbuilt ▸ hb), fun q _ => h.waiting (hbuilt ▸ hb) q⟩
  building := fun {q i stk} hq => (Function.forall_update_iff c.pc
    (fun _ pc => ∀ i stk, pc = .build i stk →
      i ≤ C.val ∧ (stk ≠ .idle → i < C.val ∧ stk.inPush))).mpr
      ⟨hbuilding, fun _ _ _ _ hr => h.building hr⟩ q i stk hq

/-- The constructor goes on. -/
theorem updateBuild {p : ι} (h : Inv C p c H) {m : Mem} {i : ℕ} {stk : Stack.PC ℕ}
    {K : List (ι × Stack.Event ℕ)} (hb : c.mem.built = false)
    (hbuilt : m.built = c.mem.built)
    (hcustody : Custody (· < C.val) (objects C.val (Stack.stack (H ++ K))
      ⟨m, Function.update c.pc p (.build i stk)⟩))
    (hbuilding : i ≤ C.val ∧ (stk ≠ .idle → i < C.val ∧ stk.inPush)) :
    Inv C p ⟨m, Function.update c.pc p (.build i stk)⟩ (H ++ K) := by
  refine h.update hbuilt hcustody (fun e => by simp [hb] at e)
    (fun _ => ⟨fun _ => ⟨_, _, rfl⟩, fun hne => absurd rfl hne⟩) ?_
  rintro i' stk' hbuild
  cases hbuild
  exact hbuilding

/-- A client goes on. -/
theorem updateClient (h : Inv C main c H) {p : ι} {m : Mem} {held : List ℕ}
    {stk : Stack.PC ℕ} {K : List (ι × Stack.Event ℕ)} (hb : c.mem.built = true)
    (hbuilt : m.built = c.mem.built)
    (hcustody : Custody (· < C.val) (objects C.val (Stack.stack (H ++ K))
      ⟨m, Function.update c.pc p (.client held stk)⟩)) :
    Inv C main ⟨m, Function.update c.pc p (.client held stk)⟩ (H ++ K) := by
  refine h.update hbuilt hcustody (fun _ => ⟨_, _, rfl⟩) (fun e => by simp [hb] at e) ?_
  intro i stk' hbuild
  cases hbuild

/-- The constructor runs in `main`, before the pool is available. -/
theorem of_build (h : Inv C main c H) {p : ι} {i : ℕ} {stk : Stack.PC ℕ}
    (hpc : c.pc p = .build i stk) : c.mem.built = false ∧ p = main := by
  have hb : c.mem.built = false := by
    by_contra hb
    obtain ⟨held, stk', hc⟩ := h.clients (by simpa using hb) p
    rw [hpc] at hc
    cases hc
  refine ⟨hb, ?_⟩
  by_contra hne
  have := (h.waiting hb p).2 hne
  rw [hpc] at this
  cases this

/-- A client has a call in flight only once the pool is available. -/
theorem built_of_busy (h : Inv C main c H) {p : ι} {held : List ℕ} {stk : Stack.PC ℕ}
    (hpc : c.pc p = .client held stk) (hbusy : stk ≠ .idle) : c.mem.built = true := by
  by_contra hb
  obtain ⟨hmain, hother⟩ := h.waiting (by simpa using hb) p
  by_cases hp : p = main
  · obtain ⟨i, stk', hb'⟩ := hmain hp
    rw [hpc] at hb'
    cases hb'
  · have hidle := hother hp
    rw [hpc] at hidle
    cases hidle
    exact hbusy rfl

theorem step (h : Inv C main c H) (hs : Stack.Inv C (stackOf c) H) {p : ι}
    {ch : Choice Op} {m : Mem} {pc : PC} {sev : Option (Stack.Event ℕ)} {ev : Option Event}
    (he : Effect C.val c.mem ch (c.pc p) m pc sev ev)
    (hlegal : c.mem.built = true → ∀ r ∈ releasing (c.pc p) ch,
      ∃ x ∈ r.1, r.2 = some (x : ℤ)) :
    Inv C main ⟨m, Function.update c.pc p pc⟩ (H ++ (sev.map (Prod.mk p)).toList) := by
  have hC := C.le
  have hcustody := h.custody
  generalize hpc : c.pc p = pc₀ at he hlegal
  cases he with
  | next i hi =>
      obtain ⟨hb, rfl⟩ := h.of_build hpc
      refine h.updateBuild hb rfl ?_ ⟨Nat.le_of_lt hi, fun _ => ⟨hi, Option.some_ne_none _⟩⟩
      rw [Option.map_none, Option.toList_none, List.append_nil]
      refine custody_client hcustody (fun _ _ => rfl) ?_
      rw [hpc]
      simp only [PC.owned, PC.stk, Stack.PC.inHand, Stack.Call.value]
      rw [show C.val - i = C.val - (i + 1) + 1 by omega, List.range'_succ]
      simp
  | finish i hi =>
      obtain ⟨hb, rfl⟩ := h.of_build hpc
      have hclients : ∀ q, ∃ held stk,
          Function.update c.pc p (.client [] .idle) q = .client held stk := by
        refine (Function.forall_update_iff c.pc
          (fun _ pc => ∃ held stk, pc = .client held stk)).mpr ⟨⟨_, _, rfl⟩, fun q hqp => ?_⟩
        exact ⟨_, _, (h.waiting hb q).2 hqp⟩
      refine ⟨?_, fun _ => hclients, (fun hb => by cases hb), ?_⟩
      · rw [Option.map_none, Option.toList_none, List.append_nil]
        refine custody_client hcustody (fun _ _ => rfl) ?_
        rw [hpc]
        simp [PC.owned, PC.stk, Stack.PC.inHand, show C.val - i = 0 by omega]
      · intro q i stk hq
        obtain ⟨held, stk', hq'⟩ := hclients q
        cases hq'.symm.trans hq
  | buildAccess i stk m' stk' sev hbusy he hlink hrefuse =>
      obtain ⟨hb, rfl⟩ := h.of_build hpc
      obtain ⟨hi, hpush⟩ := (h.building hpc).2 hbusy
      rcases he.inPush hpush with ⟨hpush', hgive, -⟩ | ⟨-, node, value, hev⟩ | ⟨value, hev⟩
      · have hbusy' : stk' ≠ .idle := by
          rintro rfl
          exact hpush'
        refine h.updateBuild hb rfl ?_ ⟨Nat.le_of_lt hi, fun _ => ⟨hi, hpush'⟩⟩
        refine h.custody_access hs (.build i stk') ?_ ?_ ?_
        · rwa [hpc]
        · rwa [hpc]
        · rw [hpc, PC.owned_build hbusy', PC.owned_build hbusy, settle_of_ne hgive]
      · exact absurd hev (hlink node value)
      · exact absurd hev (hrefuse _)
  | buildLink i stk m' stk' node value hbusy he =>
      obtain ⟨hb, rfl⟩ := h.of_build hpc
      obtain ⟨hi, hpush⟩ := (h.building hpc).2 hbusy
      have hidle : stk' = .idle := he.of_link.2
      have hwrap : wrap 32 (i + 1) = i + 1 := wrap_of_lt (by omega)
      subst hidle
      rw [hwrap]
      refine h.updateBuild hb rfl ?_ ⟨hi, fun hne => absurd rfl hne⟩
      refine h.custody_access hs (.build (i + 1) .idle) ?_ ?_ ?_
      · rwa [hpc]
      · rwa [hpc]
      · rw [hpc, PC.owned_build hbusy]
        rfl
  | buildRefuse i stk m' stk' call hbusy he =>
      exact (h.not_refuse_build hs hpc hbusy he).elim
  | rest held =>
      rw [← hpc, Function.update_eq_self]
      simpa using h
  | acquire held hbuilt =>
      refine h.updateClient hbuilt rfl ?_
      rw [Option.map_none, Option.toList_none, List.append_nil]
      refine custody_client hcustody (fun _ _ => rfl) ?_
      rw [hpc]
      exact List.Perm.refl _
  | release held ptr index hbuilt hch hptr =>
      obtain ⟨x, hx, rfl⟩ := hlegal hbuilt (held, ptr) (by rw [hch]; rfl)
      have hlt : x < C.val :=
        hcustody.token (a := .client p) (by simpa [objects, hpc, PC.owned] using hx)
      have hindex : index = x := by
        rw [releaseIndex, if_neg (by omega), Int.toNat_natCast, wrap_of_lt (by omega)] at hptr
        exact (Option.some.inj hptr).symm
      subst hindex
      refine h.updateClient hbuilt rfl ?_
      rw [Option.map_none, Option.toList_none, List.append_nil]
      refine custody_client hcustody (fun _ _ => rfl) ?_
      rw [hpc]
      simp only [PC.owned, PC.stk, Stack.PC.inHand, Stack.Call.value, Option.toList_some,
        Option.toList_none, List.append_nil]
      exact (List.perm_append_singleton index _).trans (List.perm_cons_erase hx).symm
  | access held stk m' stk' sev hbusy he =>
      refine h.updateClient (h.built_of_busy hpc hbusy) rfl ?_
      refine h.custody_access hs (.client (settle held sev) stk') ?_ ?_ ?_
      · rwa [hpc]
      · rwa [hpc]
      · rw [hpc]
        rfl
  | threw =>
      rw [← hpc, Function.update_eq_self]
      simpa using h

section Read

omit [DecidableEq ι]

theorem held_nodup (h : Inv C main c H) (p : ι) : (c.pc p).held.Nodup := by
  have hnodup : ((c.pc p).owned C.val).Nodup := h.custody.nodup (.client p)
  generalize c.pc p = pc at hnodup
  cases pc with
  | client held stk => exact hnodup
  | _ => exact List.nodup_nil

theorem held_inj (h : Inv C main c H) {p q : ι} {x : ℕ} (hp : x ∈ (c.pc p).held)
    (hq : x ∈ (c.pc q).held) : p = q :=
  Place.client.inj (h.custody.unique (h := .client p) (k := .client q)
    (PC.owned_of_held hp) (PC.owned_of_held hq))

/-- With no call in flight, every object is on the stack or with a client. -/
theorem custody_quiescent (h : Inv C main c H) (hbuilt : c.mem.built = true)
    (hidle : ∀ p, (c.pc p).stk = .idle) :
    Custody (· < C.val) fun a : Option ι =>
      match a with
      | none => Stack.stack H
      | some p => (c.pc p).held := by
  have hcustody := h.custody.comap (e := fun a : Option ι =>
    match a with
    | none => .free
    | some p => .client p) ?_ ?_
  · convert hcustody using 1
    funext a
    cases a with
    | none => rfl
    | some p =>
        obtain ⟨held, stk, hp⟩ := h.clients hbuilt p
        simp [objects, hp, PC.held, PC.owned]
  · rintro (_ | p) (_ | q) hpq <;> cases hpq <;> rfl
  · intro k hk
    cases k with
    | free => exact absurd rfl (hk none)
    | client p => exact absurd rfl (hk (some p))
    | flight p => simp [objects, hidle, Stack.PC.inHand]

/-- With nothing on the stack, every object is with a client or in flight. -/
theorem held_or_inHand (h : Inv C main c H) (hbuilt : c.mem.built = true)
    (hempty : Stack.stack H = []) {x : ℕ} (hx : x < C.val) :
    ∃ q, x ∈ (c.pc q).held ∨ (c.pc q).stk.inHand c.mem.freeIndices.data = some x := by
  obtain ⟨a, ha⟩ := h.custody.mem_iff.mp hx
  cases a with
  | free => simp [objects, hempty] at ha
  | flight q => exact ⟨q, Or.inr (by simpa [objects] using ha)⟩
  | client q =>
      obtain ⟨held, stk, hq⟩ := h.clients hbuilt q
      exact ⟨q, Or.inl (by simpa [objects, hq, PC.owned, PC.held] using ha)⟩

end Read

end Inv

theorem Inv.initial [DecidableEq ι] (C : Stack.Capacity) (main : ι) (data : ℕ → ℕ) :
    Inv C main (system C.val main data).init [] := by
  have howned : ∀ p, ((system C.val main data).init.pc p).owned C.val
      = if p = main then List.range' 0 C.val else [] := by
    intro p
    by_cases hp : p = main <;> simp [system, hp, PC.owned]
  have hhand : ∀ p, ((system C.val main data).init.pc p).stk.inHand
      (system C.val main data).init.mem.freeIndices.data = none := by
    intro p
    by_cases hp : p = main <;> simp [system, hp, PC.stk, Stack.PC.inHand]
  have hmem : ∀ {a x}, x ∈ objects C.val [] (system C.val main data).init a ↔
      a = .client main ∧ x < C.val := by
    intro a x
    cases a with
    | free => simp [objects]
    | flight p => simp [objects, hhand]
    | client p =>
        by_cases hp : p = main
        · simp [objects, howned, hp]
        · simp [objects, howned, hp]
  refine ⟨⟨?_, ?_, ?_⟩, (fun hb => by cases hb), ?_, ?_⟩
  · intro a
    cases a with
    | free => exact List.nodup_nil
    | flight p => simp [objects, hhand]
    | client p =>
        simp only [objects, howned]
        split_ifs
        · exact List.nodup_range'
        · exact List.nodup_nil
  · intro a b x ha hb
    rw [(hmem.mp ha).1, (hmem.mp hb).1]
  · intro x
    constructor
    · exact fun hx => ⟨.client main, hmem.mpr ⟨rfl, hx⟩⟩
    · rintro ⟨a, ha⟩
      exact (hmem.mp ha).2
  · intro _ p
    refine ⟨fun hp => ⟨0, .idle, ?_⟩, fun hp => ?_⟩ <;> simp [system, hp]
  · intro p i stk hpc
    by_cases hp : p = main
    · simp only [system, hp, if_true] at hpc
      cases hpc
      exact ⟨Nat.zero_le _, fun hne => absurd rfl hne⟩
    · simp only [system, hp, if_false] at hpc
      cases hpc

/-! ## Runs -/

/-- Every accepted `release` is of an object its caller holds. -/
def ReleasesHeld [DecidableEq ι] (S : System ι Mem PC (Choice Op) Event)
    (sched : ℕ → ι × Choice Op) (n : ℕ) : Prop :=
  ∀ i, i < n → (S.run sched i).mem.built = true →
    ∀ r ∈ releasing ((S.run sched i).pc (sched i).1) (sched i).2,
      ∃ x ∈ r.1, r.2 = some (x : ℤ)

instance [DecidableEq ι] (S : System ι Mem PC (Choice Op) Event)
    (sched : ℕ → ι × Choice Op) (n : ℕ) : Decidable (ReleasesHeld S sched n) :=
  inferInstanceAs (Decidable (∀ i, i < n → _))

section Run

variable [DecidableEq ι] {C : Stack.Capacity} {main : ι} {data : ℕ → ℕ}
  {sched : ℕ → ι × Choice Op} {n : ℕ}

/-- The history of the stack inside a run of the pool. -/
def stackHistory (C : Stack.Capacity) (main : ι) (data : ℕ → ℕ)
    (sched : ℕ → ι × Choice Op) (n : ℕ) : List (ι × Stack.Event ℕ) :=
  (Stack.system id ι C.val data).history (stackSched main data sched C.val) n

theorem stack_inv_run
    (htags : Stack.TagsDistinct (Stack.system id ι C.val data)
      (stackSched main data sched C.val) n) :
    Stack.Inv C (stackOf ((system C.val main data).run sched n))
      (stackHistory C main data sched n) := by
  rw [run_stack]
  exact Stack.inv_run htags

theorem inv_run
    (htags : Stack.TagsDistinct (Stack.system id ι C.val data)
      (stackSched main data sched C.val) n)
    (hlegal : ReleasesHeld (system C.val main data) sched n) :
    Inv C main ((system C.val main data).run sched n)
      (stackHistory C main data sched n) := by
  induction n with
  | zero => exact Inv.initial C main data
  | succ n ih =>
      have htags' := htags.mono (Nat.le_succ n)
      have h := ih htags' fun i hi => hlegal i (Nat.lt_succ_of_lt hi)
      have hemit : stackHistory C main data sched (n + 1)
          = stackHistory C main data sched n ++ ((Stack.prog id
            ((system C.val main data).run sched n).mem.freeIndices
            (((system C.val main data).run sched n).pc (sched n).1).stk
            (request C.val ((system C.val main data).run sched n).mem.built
              (((system C.val main data).run sched n).pc (sched n).1)
              (sched n).2)).event.map (Prod.mk (sched n).1)).toList := by
        rw [stackHistory, System.history_succ, ← run_stack]
        rfl
      rw [hemit]
      exact h.step (stack_inv_run htags') (prog_effect _ _ _)
        (hlegal n (Nat.lt_succ_self n))

end Run

/-! ## Events -/

theorem answer_eq_acquireNull {ev : Option (Stack.Event ℕ)}
    (h : ev.bind answer = some .acquireNull) : ev = some (.refuse .pop) := by
  rcases ev with _ | (_ | (_ | _) | _ | _ | _ | _) <;> simp_all [answer]

theorem answer_eq_dropped {ev : Option (Stack.Event ℕ)} {index : ℕ}
    (h : ev.bind answer = some (.dropped index)) : ev = some (.refuse (.push index)) := by
  rcases ev with _ | (_ | (_ | _) | _ | _ | _ | _) <;> simp_all [answer]

theorem answer_ne_threw {ev : Option (Stack.Event ℕ)} : ev.bind answer ≠ some .threw := by
  rcases ev with _ | (_ | (_ | _) | _ | _ | _ | _) <;> simp [answer]

section Events

variable {capacity : ℕ} {m m' : Mem} {ch : Choice Op} {pc pc' : PC}
  {sev : Option (Stack.Event ℕ)}

theorem Effect.of_acquireNull (h : Effect capacity m ch pc m' pc' sev (some .acquireNull)) :
    ∃ held stk stk' m'', pc = .client held stk ∧ stk ≠ .idle
      ∧ Stack.Effect id m.freeIndices stk m'' stk' (some (.refuse .pop)) := by
  generalize hev : some Event.acquireNull = ev at h
  cases h with
  | access held stk m'' stk' sev hbusy he =>
      exact ⟨held, stk, stk', m'', rfl, hbusy, answer_eq_acquireNull hev.symm ▸ he⟩
  | _ => cases hev

theorem Effect.of_dropped {index : ℕ}
    (h : Effect capacity m ch pc m' pc' sev (some (.dropped index))) :
    ∃ stk m'', Stack.Effect id m.freeIndices pc.stk m'' stk
      (some (.refuse (.push index))) := by
  generalize hev : some (Event.dropped index) = ev at h
  cases h with
  | access held stk m'' stk' sev hbusy he =>
      exact ⟨stk', m'', answer_eq_dropped hev.symm ▸ he⟩
  | _ => cases hev

theorem Effect.of_threw (h : Effect capacity m ch pc m' pc' sev (some .threw)) :
    ∃ i stk stk' m'' call, pc = .build i stk ∧ stk ≠ .idle
      ∧ Stack.Effect id m.freeIndices stk m'' stk' (some (.refuse call)) := by
  generalize hev : some Event.threw = ev at h
  cases h with
  | buildRefuse i stk m'' stk' call hbusy he =>
      exact ⟨i, stk, stk', m'', call, rfl, hbusy, he⟩
  | access => exact absurd hev.symm answer_ne_threw
  | _ => cases hev

end Events

section Issued

variable {C : Stack.Capacity} {main : ι} {c : Config ι Mem PC}
  {H : List (ι × Stack.Event ℕ)}

/-- With no call in flight, the nodes of the stack and the clients have every object. -/
theorem Inv.exists_chain [DecidableEq ι] (h : Inv C main c H) (hs : Stack.Inv C (stackOf c) H)
    (hbuilt : c.mem.built = true) (hidle : ∀ p, (c.pc p).stk = .idle) :
    ∃ L, Chain c.mem.freeIndices.next Stack.nullIndex
        (Stack.unpack (c.mem.freeIndices.heads .data)).index L
      ∧ Custody (· < C.val) fun a : Option ι =>
        match a with
        | none => L.map c.mem.freeIndices.data
        | some p => (c.pc p).held := by
  refine ⟨Stack.members C H .data, ?_, ?_⟩
  · have hword : Stack.unpack (c.mem.freeIndices.heads .data) = _ := hs.unpack_word .data
    rw [hword]
    exact hs.chain .data
  · have hvalues : (Stack.members C H .data).map c.mem.freeIndices.data = _ := hs.values
    simp only [hvalues]
    exact h.custody_quiescent hbuilt hidle

/-- An `acquire` that is about to return null finds every object with a client or in the
hands of another thread. -/
theorem Inv.of_acquireNull [DecidableEq ι] (h : Inv C main c H)
    (hs : Stack.Inv C (stackOf c) H) {p : ι} {ch : Choice Op} {m : Mem} {pc : PC}
    {sev : Option (Stack.Event ℕ)}
    (he : Effect C.val c.mem ch (c.pc p) m pc sev (some .acquireNull)) {x : ℕ}
    (hx : x < C.val) :
    ∃ q, x ∈ (c.pc q).held
      ∨ (q ≠ p ∧ (c.pc q).stk.inHand c.mem.freeIndices.data = some x) := by
  obtain ⟨held, stk, stk', m', hpc, hbusy, he⟩ := he.of_acquireNull
  obtain ⟨-, -, hpop, hnull⟩ := he.of_refuse
  have hempty : Stack.stack H = [] := by
    rw [← hs.values, hs.members_eq_nil (w := .data) hnull, List.map_nil]
  obtain ⟨q, hq | hq⟩ := h.held_or_inHand (h.built_of_busy hpc hbusy) hempty hx
  · exact ⟨q, Or.inl hq⟩
  · refine ⟨q, Or.inr ⟨?_, hq⟩⟩
    rintro rfl
    rw [hpc] at hq
    have hnone := Stack.PC.inHand_of_popping hpop c.mem.freeIndices.data
    exact Option.some_ne_none x (hq.symm.trans hnone)

end Issued

/-! ## No object is lost or issued twice -/

/-- **The pool never loses or double-issues an object.** In every run whose
tags stay distinct and whose clients release only what they hold:

1. no object is held twice, by two clients or by one;
2. the push inside `release` never fails, nor one inside the constructor;
3. when the constructor has returned and no call is in flight, the indices
   on the stack and the objects held are `0 .. capacity - 1`, each once;
4. `acquire` returns null only if at its last read of the stack's head every
   object was held or in the hands of another operation in flight. -/
theorem objects_accounted_for [DecidableEq ι] (C : Stack.Capacity) (main : ι)
    (data : ℕ → ℕ) (sched : ℕ → ι × Choice Op) (n : ℕ)
    (htags : Stack.TagsDistinct (Stack.system id ι C.val data)
      (stackSched main data sched C.val) n)
    (hlegal : ReleasesHeld (system C.val main data) sched n) :
    let S := system C.val main data
    let c := S.run sched n
    ((∀ p, (c.pc p).held.Nodup)
        ∧ ∀ p q x, x ∈ (c.pc p).held → x ∈ (c.pc q).held → p = q)
      ∧ (∀ i, i < n → ∀ p, ¬ S.Fires sched i p .threw
        ∧ ∀ index, ¬ S.Fires sched i p (.dropped index))
      ∧ (c.mem.built = true → (∀ p, (c.pc p).stk = .idle) →
        ∃ L, Chain c.mem.freeIndices.next Stack.nullIndex
            (Stack.unpack (c.mem.freeIndices.heads .data)).index L
          ∧ Custody (· < C.val) fun a : Option ι =>
            match a with
            | none => L.map c.mem.freeIndices.data
            | some p => (c.pc p).held)
      ∧ ∀ i, i < n → ∀ p, S.Fires sched i p .acquireNull → ∀ x, x < C.val →
        ∃ q, x ∈ ((S.run sched i).pc q).held
          ∨ (q ≠ p ∧ ((S.run sched i).pc q).stk.inHand
            (S.run sched i).mem.freeIndices.data = some x) := by
  intro S c
  have hstack : ∀ i, i ≤ n → Stack.Inv C (stackOf (S.run sched i)) _ :=
    fun i hi => stack_inv_run (htags.mono hi)
  have hinv : ∀ i, i ≤ n → Inv C main (S.run sched i) (stackHistory C main data sched i) :=
    fun i hi => inv_run (htags.mono hi) fun j hj => hlegal j (by omega)
  have heffect : ∀ {i p e}, S.Fires sched i p e → ∃ ch sev, Effect C.val
      (S.run sched i).mem ch ((S.run sched i).pc p) (S.run sched (i + 1)).mem
      ((S.run sched (i + 1)).pc p) sev (some e) :=
    fun hf => S.effect_of_fires (E := fun m pc m' pc' ev => ∃ ch sev,
      Effect C.val m ch pc m' pc' sev ev) (fun m pc ch => ⟨ch, _, prog_effect m pc ch⟩) hf
  have h := hinv n (Nat.le_refl n)
  have hs := hstack n (Nat.le_refl n)
  refine ⟨⟨h.held_nodup, fun p q x => h.held_inj⟩, ?_, ?_, ?_⟩
  · intro i hi p
    have hi' := Nat.le_of_lt hi
    refine ⟨fun hf => ?_, fun index hf => ?_⟩
    · obtain ⟨ch, sev, he⟩ := heffect hf
      obtain ⟨j, stk, stk', m, call, hpc, hbusy, he⟩ := he.of_threw
      exact (hinv i hi').not_refuse_build (hstack i hi') hpc hbusy he
    · obtain ⟨ch, sev, he⟩ := heffect hf
      obtain ⟨stk, m, he⟩ := he.of_dropped
      exact (hinv i hi').not_refuse (hstack i hi') he
  · exact fun hbuilt hidle => h.exists_chain hs hbuilt hidle
  · intro i hi p hf x hx
    have hi' := Nat.le_of_lt hi
    obtain ⟨ch, sev, he⟩ := heffect hf
    exact (hinv i hi').of_acquireNull (hstack i hi') he hx

/-- Over a pool of one object: the constructor runs, a client acquires the
object, another finds none, and the first releases it. -/
def acquireNullRelease : ℕ → Bool × Choice Op := fun i =>
  if i < 9 then (true, .go)
  else if i = 9 then (true, .call .acquire)
  else if i < 17 then (true, .go)
  else if i = 17 then (false, .call .acquire)
  else if i = 18 then (false, .go)
  else if i = 19 then (true, .call (.release (some 0)))
  else (true, .go)

theorem objects_accounted_for_acquireNullRelease :
    (((system 1 true fun _ => 0).run acquireNullRelease 17).pc true = .client [0] .idle
      ∧ (system 1 true fun _ => 0).Fires acquireNullRelease 18 false .acquireNull
      ∧ (system 1 true fun _ => 0).Fires acquireNullRelease 26 true (.released 0))
      ∧ (∀ x, x < 1 → ∃ q,
        x ∈ (((system 1 true fun _ => 0).run acquireNullRelease 18).pc q).held
          ∨ (q ≠ false ∧ (((system 1 true fun _ => 0).run acquireNullRelease 18).pc q).stk.inHand
            ((system 1 true fun _ => 0).run acquireNullRelease 18).mem.freeIndices.data
              = some x))
      ∧ ∀ i, i < 27 → ∀ p,
        ¬ (system 1 true fun _ => 0).Fires acquireNullRelease i p .threw
          ∧ ∀ index, ¬ (system 1 true fun _ => 0).Fires acquireNullRelease i p
            (.dropped index) := by
  have hnull : (system 1 true fun _ => 0).Fires acquireNullRelease 18 false .acquireNull := by
    decide +kernel
  have h := objects_accounted_for Stack.oneNode true (fun _ => 0) acquireNullRelease 27
    (Stack.tagsDistinct_of_lt _ _ (by decide)) (by decide +kernel)
  exact ⟨by decide +kernel, h.2.2.2 18 (by decide) false hnull, h.2.1⟩

end Pool

end Lockless
