import Lockless.Linearize
import Lockless.SpscFifo

/-!
# The single-producer single-consumer queue is linearizable

All calls of the producer and of the consumer, refused ones included, can be put in one order,
in which each stands between its start and its return, such that they answer as those of a
queue of one item less than `Size`.

Every call commits when it returns: a push that returns true with the store of `head_`, a pop
that does with the store of `tail_`. A refused push has just loaded a `tail_` that the consumer
has not moved on since, so at that instant the queue is full; likewise for a refused pop. The
calls of `empty` are left out, of which the two loads do not happen at one instant.
-/

namespace Lockless

namespace Spsc

variable {κ T : Type*}

/-! ## What the calls answer -/

inductive Answer (T : Type*) where
  | push (ok : Bool)
  | pop (item : Option T)
  | empty (result : Bool)
deriving DecidableEq

/-- What a call does to a list of at most `n` items, and what it returns. -/
def queue (n : ℕ) (q : List T) : Op T → List T × Answer T
  | .tryPush item => if q.length < n then (q ++ [item], .push true) else (q, .push false)
  | .tryPop => (q.tail, .pop q.head?)
  | .empty _ => (q, .empty q.isEmpty)

/-- What a call of `try_push` or `try_pop` returns. -/
def Event.answer : Event T → Option (Answer T)
  | .pushed _ => some (.push true)
  | .pushFull => some (.push false)
  | .popped item => some (.pop (some item))
  | .popEmpty => some (.pop none)
  | .emptyFirst => none
  | .emptyResult _ => none

/-- The call a thread is in. -/
def PC.op : PC T → Option (Op T)
  | .producer .idle => none
  | .producer (.loadHead item) => some (.tryPush item)
  | .producer (.loadTail item _ _) => some (.tryPush item)
  | .producer (.write item _ _) => some (.tryPush item)
  | .producer (.store item _ _) => some (.tryPush item)
  | .consumer .idle => none
  | .consumer _ => some .tryPop
  | .observer .idle => none
  | .observer (.first headFirst) => some (.empty headFirst)
  | .observer (.second headFirst _) => some (.empty headFirst)

section Step

variable {Z : PowSize} {moved : T → T} {m m' : Mem T} {pc pc' : PC T} {ev : Option (Event T)}

theorem Effect.op (he : Effect Z moved m pc m' pc' ev) {op : Op T} (h : pc'.op = some op) :
    pc.op = some op ∨ pc.op = none := by
  cases he with
  | pushStart | popStart | emptyStart => exact Or.inr rfl
  | pushFull | pushStore | popEmpty | popStore | emptySecond => cases h
  | _ => exact Or.inl h

theorem PC.idle_of_op (h : pc.op = none) :
    pc = .producer .idle ∨ pc = .consumer .idle ∨ pc = .observer .idle := by
  rcases pc with (_ | _ | _ | _ | _) | (_ | _ | _ | _ | _) | (_ | _ | _) <;> simp_all [PC.op]

theorem makesCalls (Z : PowSize) (moved : T → T) (κ : Type*) (buffer : ℕ → T) :
    (system Z moved κ buffer).MakesCalls PC.op where
  init := fun r => by cases r <;> rfl
  step := fun {m pc ch op} h => by
    have he : Effect Z moved m pc _ _ _ := prog_effect m pc ch
    rcases he.op h with hold | hfree
    · exact Or.inl hold
    · refine Or.inr ⟨hfree, ?_⟩
      rcases PC.idle_of_op hfree with rfl | rfl | rfl <;>
        rcases ch with (_ | _ | _) | _ | _ <;> cases h <;> rfl

end Step

/-! ## Commits -/

section Commit

variable [DecidableEq κ] {Z : PowSize} {moved : T → T} {c : Config (Role κ) (Mem T) (PC T)}
  {H : List (Role κ × Event T)} {r : Role κ} {m : Mem T} {pc : PC T} {ev : Option (Event T)}

/-- The items in the queue. -/
def queued (H : List (Role κ × Event T)) : List T :=
  (pushedItems H).drop (poppedItems H).length

omit [DecidableEq κ] in
/-- A step that neither takes an item nor gives one leaves them as they are. -/
theorem queued_quiet (ev : Option (Event T)) (hpush : ∀ x, ev ≠ some (.pushed x))
    (hpop : ∀ x, ev ≠ some (.popped x)) :
    queued (H ++ (ev.map (Prod.mk r)).toList) = queued H := by
  have hquiet : pushedItems (ev.map (Prod.mk r)).toList = []
      ∧ poppedItems (ev.map (Prod.mk r)).toList = [] := by
    cases ev with
    | none => exact ⟨rfl, rfl⟩
    | some e =>
        cases e with
        | pushed x => exact absurd rfl (hpush x)
        | popped x => exact absurd rfl (hpop x)
        | _ => exact ⟨rfl, rfl⟩
  rw [queued, pushedItems_append, poppedItems_append, hquiet.1, hquiet.2,
    List.append_nil, List.append_nil, queued]

omit [DecidableEq κ] in
/-- A call returns what the queue answers at that instant. -/
theorem Inv.answers (h : Inv Z c H) (he : Effect Z moved c.mem (c.pc r) m pc ev) {a : Answer T}
    (ha : ev.bind Event.answer = some a) :
    pc.op = none ∧ ∃ op, (c.pc r).op = some op
      ∧ queue (Z.size - 1) (queued H) op
        = (queued (H ++ (ev.map (Prod.mk r)).toList), a) := by
  have hfits := h.fits r
  have hpush := h.push
  have hpop := h.pop
  have hpos := h.positions
  have hlen : (queued H).length = (pushedItems H).length - (poppedItems H).length :=
    List.length_drop
  have hle := hpos.length_le
  have hroom := hpos.room
  generalize hpc : c.pc r = pc₀ at he hfits
  cases he with
  | pushFull item head =>
      obtain rfl := hfits.eq_producer
      rw [hpc] at hpush
      have hfull := hpos.full_iff.mp hpush.2.symm
      cases ha
      refine ⟨rfl, _, rfl, (if_neg ?_).trans (congrArg (Prod.mk · _) ?_)⟩
      · rw [hlen]
        omega
      · exact (queued_quiet (some .pushFull) nofun nofun).symm
  | pushStore item head next =>
      obtain rfl := hfits.eq_producer
      rw [hpc] at hpush
      obtain ⟨-, -, hlt, -⟩ := hpush
      obtain ⟨hpushed, hpopped⟩ := pushedItems_concat_pushed (H := H) Role.producer item
      cases ha
      refine ⟨rfl, _, rfl, (if_pos ?_).trans (congrArg (Prod.mk · _) ?_)⟩
      · rw [hlen]
        omega
      · simp only [queued, Option.map_some, Option.toList_some, hpushed, hpopped]
        exact (List.drop_append_of_le_length hle).symm
  | popEmpty =>
      obtain rfl := hfits.eq_consumer
      rw [hpc] at hpop
      have hempty : queued H = [] := by
        rw [queued, ← hpos.empty_iff.mp hpop.symm, List.drop_length]
      cases ha
      refine ⟨rfl, _, rfl, ?_⟩
      rw [show queued (H ++ _) = queued H from queued_quiet (some .popEmpty) nofun nofun, hempty]
      rfl
  | popStore tail item =>
      obtain rfl := hfits.eq_consumer
      rw [hpc] at hpop
      obtain ⟨hlt, hitem⟩ := List.getElem?_eq_some_iff.mp hpop.2
      obtain ⟨hpushed, hpopped⟩ := poppedItems_concat_popped (H := H) Role.consumer item
      have hcons : queued H = item :: (pushedItems H).drop ((poppedItems H).length + 1) := by
        rw [← hitem]
        exact List.drop_eq_getElem_cons hlt
      cases ha
      refine ⟨rfl, _, rfl, ?_⟩
      simp only [queued, Option.map_some, Option.toList_some, hpushed, hpopped,
        List.length_append, List.length_singleton]
      rw [← queued, hcons]
      rfl
  | _ => cases ha

end Commit

/-- **The queue is linearizable.** In every run the calls of `try_push` and `try_pop` that have
returned, and perhaps some of those in flight, can be put in an order in which they answer, true
or false, as those of a queue of one item less than `Size`, and in which no call stands before
one that had returned when it was made. -/
theorem spsc_linearizable [DecidableEq κ] (Z : PowSize) (moved : T → T) (buffer : ℕ → T)
    (sched : ℕ → Role κ × Choice (Op T)) (n : ℕ) :
    (system Z moved κ buffer).Linearizable PC.op Event.answer (queue (Z.size - 1)) [] sched n := by
  let S := system Z moved κ buffer
  have he : ∀ t, Effect Z moved (S.run sched t).mem ((S.run sched t).pc (sched t).1)
      (S.run sched (t + 1)).mem ((S.run sched (t + 1)).pc (sched t).1)
      (S.outcome (S.run sched t) (sched t)).event := by
    intro t
    rw [System.run_succ, System.next_pc_self]
    exact prog_effect _ _ _
  refine System.linearizable_of_returns (makesCalls Z moved κ buffer)
    (fun t => queued (S.history sched t)) rfl (fun t _ hnone => ?_) fun t _ a ha => ?_
  · rw [System.history_succ]
    refine queued_quiet _ (fun x hx => ?_) fun x hx => ?_
    · rw [hx] at hnone
      cases hnone
    · rw [hx] at hnone
      cases hnone
  · rw [System.history_succ]
    exact (inv_run buffer sched t).answers (he t) ha

end Spsc

end Lockless
