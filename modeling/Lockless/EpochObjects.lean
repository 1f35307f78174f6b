import Lockless.Custody
import Lockless.Epoch

/-!
# Where a retired object is

From the call of `retire` to the call of its deleter an object is in one
place: with the thread that retires it, in one of the retire lists, in the
vector `to_free` of the thread that has emptied that list, or with those
deleted. Appending, swapping and deleting move objects between two of these
places, whatever epochs the threads have read and whichever slots they use,
so no object is lost and none deleted twice. What is still in the lists when
all calls have returned is what the destructor deletes.
-/

namespace Lockless

namespace Epoch

variable {ι X : Type*}

/-! ## Logs -/

/-- The objects `retire` has been called with, in order. -/
def retired (H : List (ι × Event X)) : List X :=
  H.filterMap fun e => match e.2 with
    | .retiring x => some x
    | _ => none

/-- The objects that have been appended to a retire list, in order. -/
def appended (H : List (ι × Event X)) : List X :=
  H.filterMap fun e => match e.2 with
    | .appended x _ => some x
    | _ => none

/-- The objects passed to their deleters, in order. -/
def deleted (H : List (ι × Event X)) : List X :=
  H.filterMap fun e => match e.2 with
    | .deleted x => some x
    | _ => none

/-! ## Places -/

/-- Where an object can be. -/
inductive Place (ι : Type*) where
  | caller (p : ι)
  | list (i : Fin 3)
  | toFree (p : ι)
  | deleted

/-- The object of a `retire` that has not appended it yet. -/
def PC.retiring : PC X → List X
  | .retireLoad x => [x]
  | .retireAppend x _ => [x]
  | _ => []

/-- The local vector of `try_advance`. -/
def PC.toFree : PC X → List X
  | .free toFree => toFree
  | _ => []

def objects (H : List (ι × Event X)) (c : Config ι (Mem X) (PC X)) : Place ι → List X
  | .caller p => (c.pc p).retiring
  | .list i => c.mem.retireLists i
  | .toFree p => (c.pc p).toFree
  | .deleted => deleted H

theorem retiring_scanNext (current : ℕ) (i : Fin maxThreads) :
    (scanNext current i : PC X).retiring = [] := by
  unfold scanNext
  split_ifs <;> rfl

theorem toFree_scanNext (current : ℕ) (i : Fin maxThreads) :
    (scanNext current i : PC X).toFree = [] := by
  unfold scanNext
  split_ifs <;> rfl

theorem retiring_unregister (tid : ℤ) :
    (start (.unregisterThread tid) : PC X).retiring = [] := by
  obtain h | ⟨t, h⟩ := start_unregister (X := X) tid <;> rw [h] <;> rfl

theorem toFree_unregister (tid : ℤ) :
    (start (.unregisterThread tid) : PC X).toFree = [] := by
  obtain h | ⟨t, h⟩ := start_unregister (X := X) tid <;> rw [h] <;> rfl

section Objects

variable [DecidableEq ι] {H H' : List (ι × Event X)} {c : Config ι (Mem X) (PC X)} {p : ι}
  {m : Mem X} {pc : PC X}

/-- A step touches the places of its thread, the lists it changes and, if it
calls a deleter, those deleted. -/
theorem objects_off {k : Place ι} (hcaller : k ≠ .caller p) (hfree : k ≠ .toFree p)
    (hlists : ∀ i, k = .list i → m.retireLists i = c.mem.retireLists i)
    (hdel : k = .deleted → deleted H' = deleted H) :
    objects H' ⟨m, Function.update c.pc p pc⟩ k = objects H c k := by
  cases k with
  | caller q =>
      have hqp : q ≠ p := fun e => hcaller (e ▸ rfl)
      simp [objects, Function.update_of_ne hqp]
  | list i => exact hlists i rfl
  | toFree q =>
      have hqp : q ≠ p := fun e => hfree (e ▸ rfl)
      simp [objects, Function.update_of_ne hqp]
  | deleted => exact hdel rfl

theorem objects_caller :
    objects H' ⟨m, Function.update c.pc p pc⟩ (.caller p) = pc.retiring := by
  simp [objects]

theorem objects_toFree :
    objects H' ⟨m, Function.update c.pc p pc⟩ (.toFree p) = pc.toFree := by
  simp [objects]

/-- Nothing has changed hands. -/
theorem objects_eq (hcaller : pc.retiring = (c.pc p).retiring)
    (hfree : pc.toFree = (c.pc p).toFree) (hlists : m.retireLists = c.mem.retireLists)
    (hdel : deleted H' = deleted H) :
    objects H' ⟨m, Function.update c.pc p pc⟩ = objects H c := by
  funext k
  by_cases h1 : k = .caller p
  · rw [h1, objects_caller, hcaller]
    rfl
  · by_cases h2 : k = .toFree p
    · rw [h2, objects_toFree, hfree]
      rfl
    · exact objects_off h1 h2 (fun i _ => by rw [hlists]) fun _ => hdel

end Objects

/-! ## The invariant -/

structure Accounted (c : Config ι (Mem X) (PC X)) (H : List (ι × Event X)) : Prop where
  custody : Custody (· ∈ retired H) (objects H c)
  appended_iff : ∀ x, x ∈ appended H ↔ x ∈ retired H ∧ ∀ p, x ∉ (c.pc p).retiring

section Step

variable [DecidableEq ι] {H H' : List (ι × Event X)} {c : Config ι (Mem X) (PC X)} {p : ι}
  {m : Mem X} {pc : PC X} {x : X} {epoch : ℕ}

omit [DecidableEq ι] in
theorem not_retiring_iff (p : ι) : (∀ q, x ∉ (c.pc q).retiring)
    ↔ x ∉ (c.pc p).retiring ∧ ∀ q, q ≠ p → x ∉ (c.pc q).retiring := by
  refine ⟨fun h => ⟨h p, fun q _ => h q⟩, fun h q => ?_⟩
  by_cases hqp : q = p
  · exact hqp ▸ h.1
  · exact h.2 q hqp

theorem not_retiring_update :
    (∀ q, x ∉ ((⟨m, Function.update c.pc p pc⟩ : Config ι (Mem X) (PC X)).pc q).retiring)
      ↔ x ∉ pc.retiring ∧ ∀ q, q ≠ p → x ∉ (c.pc q).retiring :=
  Function.forall_update_iff c.pc fun _ pc => x ∉ pc.retiring

/-- A step that moves no object. -/
theorem Accounted.quiet (h : Accounted c H) (hcaller : pc.retiring = (c.pc p).retiring)
    (hfree : pc.toFree = (c.pc p).toFree) (hlists : m.retireLists = c.mem.retireLists)
    (hret : retired H' = retired H) (happ : appended H' = appended H)
    (hdel : deleted H' = deleted H) :
    Accounted ⟨m, Function.update c.pc p pc⟩ H' := by
  refine ⟨?_, fun y => ?_⟩
  · rw [objects_eq hcaller hfree hlists hdel, hret]
    exact h.custody
  · rw [not_retiring_update, hcaller, ← not_retiring_iff, happ, hret]
    exact h.appended_iff y

/-- The call of `retire` brings a new object in. -/
theorem Accounted.call (h : Accounted c H) (hpc : c.pc p = .idle) (hx : x ∉ retired H) :
    Accounted ⟨c.mem, Function.update c.pc p (.retireLoad x)⟩
      (H ++ [(p, .retiring x)]) := by
  have hret : ∀ y, y ∈ retired (H ++ [(p, .retiring x)]) ↔ y = x ∨ y ∈ retired H := by
    intro y
    simp [retired, or_comm]
  have happ : appended (H ++ [(p, .retiring x)]) = appended H := by simp [appended]
  have hdel : deleted (H ++ [(p, .retiring x)]) = deleted H := by simp [deleted]
  refine ⟨?_, fun y => ?_⟩
  · refine h.custody.add (a := .caller p) hx hret (fun k hk => ?_) ?_
    · by_cases hk' : k = .toFree p
      · simp [hk', objects, hpc, PC.toFree]
      · exact objects_off hk hk' (fun _ _ => rfl) fun _ => hdel
    · rw [objects_caller]
      simp [objects, hpc, PC.retiring]
  · rw [not_retiring_update, happ, h.appended_iff, not_retiring_iff p, hpc, hret]
    simp only [PC.retiring, List.mem_singleton]
    constructor
    · rintro ⟨hy, -, hcall⟩
      exact ⟨Or.inr hy, fun e => hx (e ▸ hy), hcall⟩
    · rintro ⟨hy, hyx, hcall⟩
      exact ⟨hy.resolve_left hyx, List.not_mem_nil, hcall⟩

/-- The object goes from its caller into the list of the epoch. -/
theorem Accounted.append (h : Accounted c H) (hpc : c.pc p = .retireAppend x epoch) :
    Accounted ⟨c.mem.setList (listIndex epoch) (c.mem.retireLists (listIndex epoch) ++ [x]),
      Function.update c.pc p .advLoad⟩ (H ++ [(p, .appended x epoch)]) := by
  have hret : retired (H ++ [(p, .appended x epoch)]) = retired H := by simp [retired]
  have happ : ∀ y, y ∈ appended (H ++ [(p, .appended x epoch)])
      ↔ y ∈ appended H ∨ y = x := by
    intro y
    simp [appended]
  have hdel : deleted (H ++ [(p, .appended x epoch)]) = deleted H := by simp [deleted]
  have hx : x ∈ objects H c (.caller p) := by simp [objects, hpc, PC.retiring]
  refine ⟨?_, fun y => ?_⟩
  · rw [hret]
    refine h.custody.move (a := .caller p) (b := .list (listIndex epoch)) nofun
      (fun k hk hk' => ?_) ?_
    · by_cases hfree : k = .toFree p
      · simp [hfree, objects, hpc, PC.toFree]
      · refine objects_off hk hfree (fun i hi => ?_) fun _ => hdel
        exact Mem.setList_of_ne _ (fun e => hk' (by rw [hi, e])) _
    · rw [objects_caller]
      simp only [objects, hpc, PC.retiring, Mem.setList_self, List.nil_append]
      exact List.perm_append_comm
  · rw [not_retiring_update, happ, hret, h.appended_iff, not_retiring_iff p, hpc]
    simp only [PC.retiring, List.mem_singleton]
    constructor
    · rintro (⟨hy, -, hcall⟩ | rfl)
      · exact ⟨hy, List.not_mem_nil, hcall⟩
      · refine ⟨h.custody.token hx, List.not_mem_nil, fun q hqp => ?_⟩
        exact h.custody.not_mem (b := .caller q) hx fun e => hqp (Place.caller.inj e)
    · rintro ⟨hy, -, hcall⟩
      by_cases hyx : y = x
      · exact Or.inr hyx
      · exact Or.inl ⟨hy, hyx, hcall⟩

/-- The whole list goes into the vector of the thread that empties it. -/
theorem Accounted.swap (h : Accounted c H) (hpc : c.pc p = .swap epoch) :
    Accounted ⟨c.mem.setList (listIndex epoch) [],
      Function.update c.pc p (.free (c.mem.retireLists (listIndex epoch)))⟩ H := by
  refine ⟨?_, fun y => ?_⟩
  · refine h.custody.move (a := .list (listIndex epoch)) (b := .toFree p) nofun
      (fun k hk hk' => ?_) ?_
    · by_cases hcaller : k = .caller p
      · simp [hcaller, objects, hpc, PC.retiring]
      · refine objects_off hcaller hk' (fun i hi => ?_) fun _ => rfl
        exact Mem.setList_of_ne _ (fun e => hk (by rw [hi, e])) _
    · rw [objects_toFree]
      simp [objects, hpc, PC.toFree, Mem.setList_self]
  · rw [not_retiring_update, h.appended_iff, not_retiring_iff p, hpc]
    simp only [PC.retiring]

/-- One object goes from the vector to those deleted. -/
theorem Accounted.delete (h : Accounted c H) {rest : List X}
    (hpc : c.pc p = .free (x :: rest)) :
    Accounted ⟨c.mem, Function.update c.pc p (.free rest)⟩ (H ++ [(p, .deleted x)]) := by
  have hret : retired (H ++ [(p, .deleted x)]) = retired H := by simp [retired]
  have happ : appended (H ++ [(p, .deleted x)]) = appended H := by simp [appended]
  have hdel : deleted (H ++ [(p, .deleted x)]) = deleted H ++ [x] := by simp [deleted]
  refine ⟨?_, fun y => ?_⟩
  · rw [hret]
    refine h.custody.move (a := .toFree p) (b := .deleted) nofun (fun k hk hk' => ?_) ?_
    · by_cases hcaller : k = .caller p
      · simp [hcaller, objects, hpc, PC.retiring]
      · exact objects_off hcaller hk (fun _ _ => rfl) fun e => absurd e hk'
    · rw [objects_toFree]
      simp only [objects, hpc, PC.toFree, hdel]
      rw [List.cons_append, ← List.append_assoc]
      exact List.perm_append_singleton x _
  · rw [not_retiring_update, happ, hret, h.appended_iff, not_retiring_iff p, hpc]
    simp only [PC.retiring]

theorem Accounted.step (h : Accounted c H) {m' : Mem X} {pc' : PC X}
    {ev : Option (Event X)} (he : Effect c.mem (c.pc p) m' pc' ev)
    (honce : (retired (H ++ (ev.map (Prod.mk p)).toList)).Nodup) :
    Accounted ⟨m', Function.update c.pc p pc'⟩ (H ++ (ev.map (Prod.mk p)).toList) := by
  generalize hpc : c.pc p = pc at he
  have hquiet : ∀ {m' pc'} {ev : Option (Event X)}, pc'.retiring = pc.retiring →
      pc'.toFree = pc.toFree → m'.retireLists = c.mem.retireLists →
      retired (ev.map (Prod.mk p)).toList = [] → appended (ev.map (Prod.mk p)).toList = [] →
      deleted (ev.map (Prod.mk p)).toList = [] →
      Accounted ⟨m', Function.update c.pc p pc'⟩ (H ++ (ev.map (Prod.mk p)).toList) := by
    intro m' pc' ev hcaller hfree hlists hret happ hdel
    rw [← hpc] at hcaller hfree
    refine h.quiet hcaller hfree hlists ?_ ?_ ?_
    · rw [retired, List.filterMap_append, ← retired, ← retired, hret, List.append_nil]
    · rw [appended, List.filterMap_append, ← appended, ← appended, happ, List.append_nil]
    · rw [deleted, List.filterMap_append, ← deleted, ← deleted, hdel, List.append_nil]
  cases he with
  | start op =>
      cases op with
      | retire x =>
          have happend : (retired H ++ [x]).Nodup := by
            simpa [retired, began] using honce
          refine h.call hpc fun hx => ?_
          exact List.disjoint_of_nodup_append happend hx List.mem_cons_self
      | unregisterThread tid =>
          exact hquiet (retiring_unregister tid) (toFree_unregister tid) rfl rfl rfl rfl
      | _ => exact hquiet rfl rfl rfl rfl rfl rfl
  | retireAppend x epoch => exact h.append hpc
  | scanUnused current i =>
      exact hquiet (retiring_scanNext current i) (toFree_scanNext current i) rfl rfl rfl rfl
  | scanPass current i =>
      exact hquiet (retiring_scanNext current i) (toFree_scanNext current i) rfl rfl rfl rfl
  | swap epoch => simpa using h.swap hpc
  | free x rest => exact h.delete hpc
  | _ => exact hquiet rfl rfl rfl rfl rfl rfl

end Step

/-! ## Runs -/

/-- The objects that wait for their deleters, by the list or the thread's
vector they wait in. -/
def waiting (c : Config ι (Mem X) (PC X)) : Fin 3 ⊕ ι → List X
  | .inl i => c.mem.retireLists i
  | .inr p => (c.pc p).toFree

/-- The place of those that wait. -/
def Place.ofWaiting : Fin 3 ⊕ ι → Place ι
  | .inl i => .list i
  | .inr p => .toFree p

theorem ofWaiting_injective : Function.Injective (Place.ofWaiting (ι := ι)) := by
  rintro (i | p) (j | q) h
  · exact congrArg Sum.inl (Place.list.inj h)
  · cases h
  · cases h
  · exact congrArg Sum.inr (Place.toFree.inj h)

theorem objects_ofWaiting (H : List (ι × Event X)) (c : Config ι (Mem X) (PC X))
    (a : Fin 3 ⊕ ι) : objects H c (.ofWaiting a) = waiting c a := by
  cases a <;> rfl

section Waiting

variable {c : Config ι (Mem X) (PC X)} {H : List (ι × Event X)}

theorem Accounted.waits_iff (h : Accounted c H) {x : X} :
    (x ∈ appended H ∧ x ∉ deleted H) ↔ ∃ a, x ∈ objects H c (.ofWaiting a) := by
  rw [h.appended_iff]
  constructor
  · rintro ⟨⟨hx, hcall⟩, hdel⟩
    obtain ⟨k, hk⟩ := h.custody.mem_iff.mp hx
    cases k with
    | caller p => exact absurd hk (hcall p)
    | list i => exact ⟨.inl i, hk⟩
    | toFree p => exact ⟨.inr p, hk⟩
    | deleted => exact absurd hk hdel
  · rintro ⟨a, ha⟩
    refine ⟨⟨h.custody.token ha, fun p hp => ?_⟩, fun hdel => ?_⟩
    · refine h.custody.not_mem (b := .caller p) ha ?_ hp
      cases a <;> nofun
    · refine h.custody.not_mem (b := .deleted) ha ?_ hdel
      cases a <;> nofun

/-- An object that has been appended and not deleted waits in one place. -/
theorem Accounted.custody_waiting (h : Accounted c H) :
    Custody (fun x => x ∈ appended H ∧ x ∉ deleted H) (waiting c) := by
  have hcustody := h.custody.restrict ofWaiting_injective h.waits_iff
  simpa only [objects_ofWaiting] using hcustody

/-- When no call is under way, what has been deleted and what the destructor
deletes is what has been retired. -/
theorem Accounted.perm_of_idle (h : Accounted c H) (honce : (retired H).Nodup)
    (hidle : ∀ p, c.pc p = .idle) : (deleted H ++ destroy c.mem).Perm (retired H) := by
  have hlists : deleted H ++ destroy c.mem
      = (Place.deleted :: (List.finRange 3).map Place.list).flatMap (objects H c) := by
    rw [List.flatMap_cons, List.flatMap_map]
    rfl
  have hl : (Place.deleted :: (List.finRange 3).map (Place.list (ι := ι))).Nodup := by
    refine List.nodup_cons.mpr ⟨by simp, ?_⟩
    exact (List.nodup_finRange 3).map fun i j hij => Place.list.inj hij
  rw [hlists]
  refine h.custody.perm_flatMap hl (fun k hk => ?_) honce fun x => Iff.rfl
  cases k with
  | caller p => simp [objects, hidle p, PC.retiring]
  | list i => simp at hk
  | toFree p => simp [objects, hidle p, PC.toFree]
  | deleted => simp at hk

end Waiting

theorem retired_mono {H H' : List (ι × Event X)} (h : H <+: H') :
    (retired H).Sublist (retired H') :=
  h.sublist.filterMap _

theorem accounted_run [DecidableEq ι] {inUse : Fin maxThreads → Bool}
    {sched : ℕ → ι × Choice (Op X)} {n : ℕ}
    (honce : (retired ((system ι inUse).history sched n)).Nodup) :
    Accounted ((system ι inUse).run sched n) ((system ι inUse).history sched n) := by
  let S : System ι (Mem X) (PC X) (Choice (Op X)) (Event X) := system ι inUse
  refine S.invariant_of_guard (I := Accounted)
    (G := fun c H a => (retired (H ++ S.emitted c a)).Nodup) ?_ (fun c H a hg h => ?_)
    fun i hi => ?_
  · refine ⟨⟨fun k => ?_, fun {k l x} hk => ?_, fun {x} => ?_⟩, fun x => ?_⟩
    · cases k <;> exact List.nodup_nil
    · cases k <;> cases hk
    · refine ⟨nofun, fun ⟨k, hk⟩ => ?_⟩
      cases k <;> cases hk
    · exact ⟨nofun, nofun⟩
  · exact h.step (prog_effect c.mem (c.pc a.1) a.2) hg
  · exact honce.sublist (retired_mono (S.history_mono sched (Nat.succ_le_of_lt hi)))

/-- **Exactly-once reclamation.** If no object is retired twice, then in
every run no object is deleted twice; each object that has been appended and
not deleted yet is once in one retire list, or in the vector of one thread;
and once all calls have returned, the objects deleted so far and those the
destructor deletes are, each once, the objects retired. -/
theorem exactly_once_reclamation [DecidableEq ι] (inUse : Fin maxThreads → Bool)
    (sched : ℕ → ι × Choice (Op X)) (n : ℕ)
    (honce : (retired ((system ι inUse).history sched n)).Nodup) :
    (deleted ((system ι inUse).history sched n)).Nodup
      ∧ Custody (fun x => x ∈ appended ((system ι inUse).history sched n)
          ∧ x ∉ deleted ((system ι inUse).history sched n))
        (waiting ((system ι inUse).run sched n))
      ∧ ((∀ p, ((system ι inUse).run sched n).pc p = .idle) →
        (deleted ((system ι inUse).history sched n)
            ++ destroy ((system ι inUse).run sched n).mem).Perm
          (retired ((system ι inUse).history sched n))) :=
  have h := accounted_run honce
  ⟨h.custody.nodup .deleted, h.custody_waiting, h.perm_of_idle honce⟩

/-- One thread retires three objects, no slot is registered, and the third
call deletes the first object. -/
def retireThrice : ℕ → Unit × Choice (Op ℕ) := fun i =>
  if i = 0 then ((), .call (.retire 7))
  else if i = 71 then ((), .call (.retire 8))
  else if i = 142 then ((), .call (.retire 9))
  else ((), .go)

theorem exactly_once_reclamation_retireThrice :
    ((system Unit fun _ => false).Fires retireThrice 212 () (.deleted 7)
      ∧ destroy ((system Unit fun _ => false).run retireThrice 214).mem = [8, 9])
      ∧ (deleted ((system Unit fun _ => false).history retireThrice 214)
          ++ destroy ((system Unit fun _ => false).run retireThrice 214).mem).Perm
        (retired ((system Unit fun _ => false).history retireThrice 214)) :=
  ⟨by decide +kernel, (exactly_once_reclamation (fun _ => false) retireThrice 214
    (by decide +kernel)).2.2 (by decide +kernel)⟩

end Epoch

end Lockless
