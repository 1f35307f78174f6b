import Lockless.Custody
import Lockless.MessageQueue

/-!
# Delivery of messages

A message is what `prepare_message` has returned a block of the arena for.
Its handle is with its producer until the compare-exchange in `push_message`
that adds it to the queue, and in the queue from then on. The blocks of the
messages are apart and a producer writes to its own block only, so the bytes
of a message stay as its producer has written them.
-/

namespace Lockless

namespace MessageQueue

variable {ι : Type*}

/-! ## Messages -/

/-- Where a message lies in the arena, and the bytes its producer writes. -/
structure Message where
  offset : ℕ
  payload : List UInt8

def Message.handle (x : Message) : Handle := ⟨x.offset, x.payload.length⟩

def Message.Apart (x y : Message) : Prop :=
  x.offset + x.payload.length ≤ y.offset ∨ y.offset + y.payload.length ≤ x.offset

instance : Std.Symm Message.Apart := ⟨fun _ _ => Or.symm⟩

/-- The messages `prepare_message` has returned a block for. -/
def prepared (H : List (ι × Event)) : List Message :=
  H.filterMap fun e => match e.2 with
    | .prepared offset payload => some ⟨offset, payload⟩
    | _ => none

/-- The handles that have been added to the queue. -/
def queued (H : List (ι × Event)) : List Handle :=
  H.filterMap fun e => match e.2 with
    | .pushed handle _ => some handle
    | _ => none

@[simp] theorem prepared_append (H K : List (ι × Event)) :
    prepared (H ++ K) = prepared H ++ prepared K := by
  simp [prepared]

@[simp] theorem queued_append (H K : List (ι × Event)) :
    queued (H ++ K) = queued H ++ queued K := by
  simp [queued]

/-- The message a thread is writing, or has still to add to the queue. -/
def PC.unsent (A : Arena.Buffer) : PC → Option Message
  | .write payload ptr _ => some ⟨ptr - A.data, payload⟩
  | .push payload ptr rpc =>
      if rpc.producing = none then some ⟨ptr - A.data, payload⟩ else none
  | _ => none

/-- How many bytes of its message a thread has written. -/
def PC.progress : PC → ℕ
  | .write _ _ i => i
  | .push payload _ _ => payload.length
  | _ => 0

inductive Holder (ι : Type*) where
  | producer (p : ι)
  | queue

/-- Where the handles of the messages are. -/
def handlesWith (A : Arena.Buffer) (c : Config ι Mem PC) (H : List (ι × Event)) :
    Holder ι → List Handle
  | .producer p => (((c.pc p).unsent A).map Message.handle).toList
  | .queue => queued H

/-- What a thread knows about its message, and where it is in the ring. -/
def Local (A : Arena.Buffer) (H : List (ι × Event)) (p : ι) : PC → Prop
  | .idle => True
  | .prepare payload apc => 0 < payload.length ∧ apc.requested = some payload.length
  | .write payload ptr i => A.data ≤ ptr ∧ (p, Event.prepared (ptr - A.data) payload) ∈ H
      ∧ i ≤ payload.length
  | .push payload ptr rpc => A.data ≤ ptr ∧ (p, Event.prepared (ptr - A.data) payload) ∈ H
      ∧ (rpc = .idle ∨ ∃ ppc, rpc = .push ⟨ptr - A.data, payload.length⟩ ppc)
  | .pop rpc => ∃ ppc, rpc = .pop ppc

theorem Local.append {A : Arena.Buffer} {H : List (ι × Event)} {p : ι} {pc : PC}
    (h : Local A H p pc) (K : List (ι × Event)) : Local A (H ++ K) p pc := by
  cases pc with
  | write payload ptr i => exact ⟨h.1, List.mem_append_left _ h.2.1, h.2.2⟩
  | push payload ptr rpc => exact ⟨h.1, List.mem_append_left _ h.2.1, h.2.2⟩
  | _ => exact h

theorem mem_prepared {H : List (ι × Event)} {p : ι} {offset : ℕ} {payload : List UInt8}
    (h : (p, Event.prepared offset payload) ∈ H) : ⟨offset, payload⟩ ∈ prepared H :=
  List.mem_filterMap.mpr ⟨_, h, rfl⟩

theorem Local.mem {A : Arena.Buffer} {H : List (ι × Event)} {p : ι} {pc : PC}
    (h : Local A H p pc) {x : Message} (hx : pc.unsent A = some x) : x ∈ prepared H := by
  cases pc with
  | write payload ptr i =>
      cases hx
      exact mem_prepared h.2.1
  | push payload ptr rpc =>
      simp only [PC.unsent] at hx
      split_ifs at hx
      cases hx
      exact mem_prepared h.2.1
  | _ => cases hx

/-! ## Bytes in memory -/

theorem bytesAt_congr {f g : ℕ → UInt8} {ptr n : ℕ}
    (h : ∀ a, ptr ≤ a → a < ptr + n → f a = g a) : bytesAt f ptr n = bytesAt g ptr n := by
  refine List.map_congr_left fun i hi => ?_
  have := List.mem_range.mp hi
  exact h _ (by omega) (by omega)

/-- Writing the next byte of a list. -/
theorem bytesAt_update {f : ℕ → UInt8} {ptr i : ℕ} {l : List UInt8} {byte : UInt8}
    (h : bytesAt f ptr i = l.take i) (hi : l[i]? = some byte) :
    bytesAt (Function.update f (ptr + i) byte) ptr (i + 1) = l.take (i + 1) := by
  have hold : bytesAt (Function.update f (ptr + i) byte) ptr i = bytesAt f ptr i :=
    bytesAt_congr fun a _ ha => Function.update_of_ne (by omega) _ _
  have hsucc : bytesAt (Function.update f (ptr + i) byte) ptr (i + 1)
      = bytesAt (Function.update f (ptr + i) byte) ptr i ++ [byte] := by
    simp [bytesAt, List.range_succ]
  rw [hsucc, hold, h, List.take_add_one, hi, Option.toList_some]

/-! ## The invariant -/

structure Inv (A : Arena.Buffer) (c : Config ι Mem PC) (H : List (ι × Event)) : Prop where
  apart : (prepared H).Pairwise Message.Apart
  below : ∀ {x}, x ∈ prepared H →
    0 < x.payload.length ∧ x.offset + x.payload.length ≤ c.mem.arena.writeOffset
  count : (prepared H).length ≤ c.mem.arena.writeOffset
  locals : ∀ p, Local A H p (c.pc p)
  custody : Custody (· ∈ (prepared H).map Message.handle) (handlesWith A c H)
  contents : ∀ {p x}, (c.pc p).unsent A = some x →
    bytesAt c.mem.bytes (A.data + x.offset) (c.pc p).progress
      = x.payload.take (c.pc p).progress
  complete : ∀ {x}, x ∈ prepared H → x.handle ∈ queued H →
    bytesAt c.mem.bytes (A.data + x.offset) x.payload.length = x.payload

/-- Memory changes only in the block of a thread's own message. -/
def OwnBytes (A : Arena.Buffer) (pc : PC) (f g : ℕ → UInt8) : Prop :=
  ∀ a, (∀ x, pc.unsent A = some x →
    a < A.data + x.offset ∨ A.data + x.offset + x.payload.length ≤ a) → g a = f a

section Step

variable {A : Arena.Buffer} {Z : PowSize} {c : Config ι Mem PC} {H K : List (ι × Event)}
  {p : ι} {m : Mem} {pc : PC}

theorem Inv.apart_of_ne (h : Inv A c H) {x y : Message} (hx : x ∈ prepared H)
    (hy : y ∈ prepared H) (hne : x ≠ y) : x.Apart y :=
  h.apart.forall hx hy hne

/-- A message is known by its handle. -/
theorem Inv.eq_of_handle (h : Inv A c H) {x y : Message} (hx : x ∈ prepared H)
    (hy : y ∈ prepared H) (hxy : x.handle = y.handle) : x = y := by
  by_contra hne
  have hoff : x.offset = y.offset := congrArg Handle.offset hxy
  have hpos := (h.below hx).1
  have hpos' := (h.below hy).1
  rcases h.apart_of_ne hx hy hne with hle | hle <;> omega

theorem mem_producer {x : Message} (hp : (c.pc p).unsent A = some x) :
    x.handle ∈ handlesWith A c H (.producer p) := by
  simp [handlesWith, hp]

theorem Inv.progress_le (h : Inv A c H) {x : Message} (hp : (c.pc p).unsent A = some x) :
    (c.pc p).progress ≤ x.payload.length := by
  have hloc := h.locals p
  generalize c.pc p = pc at hp hloc
  cases pc with
  | write payload ptr i =>
      cases hp
      exact hloc.2.2
  | push payload ptr rpc =>
      simp only [PC.unsent] at hp
      split_ifs at hp
      cases hp
      exact Nat.le_refl _
  | _ => cases hp

/-- A thread leaves the messages of others alone. -/
theorem Inv.bytes_frame (h : Inv A c H) {f : ℕ → UInt8}
    (hf : OwnBytes A (c.pc p) c.mem.bytes f) {y : Message} (hy : y ∈ prepared H)
    (hne : ∀ x, (c.pc p).unsent A = some x → x.handle ≠ y.handle) {n : ℕ}
    (hn : n ≤ y.payload.length) :
    bytesAt f (A.data + y.offset) n = bytesAt c.mem.bytes (A.data + y.offset) n := by
  refine bytesAt_congr fun a ha ha' => hf a fun x hx => ?_
  rcases h.apart_of_ne ((h.locals p).mem hx) hy fun e => hne x hx (e ▸ rfl) with hle | hle
  · right
    omega
  · left
    omega

theorem Inv.contents_frame (h : Inv A c H) {f : ℕ → UInt8}
    (hf : OwnBytes A (c.pc p) c.mem.bytes f) {q : ι} {y : Message} (hqp : q ≠ p)
    (hq : (c.pc q).unsent A = some y) :
    bytesAt f (A.data + y.offset) (c.pc q).progress = y.payload.take (c.pc q).progress := by
  rw [h.bytes_frame hf ((h.locals q).mem hq) (fun x hx hxy => ?_) (h.progress_le hq)]
  · exact h.contents hq
  · have hp : y.handle ∈ handlesWith A c H (.producer p) := hxy ▸ mem_producer hx
    exact hqp (Holder.producer.inj (h.custody.unique (mem_producer hq) hp))

theorem Inv.complete_frame (h : Inv A c H) {f : ℕ → UInt8}
    (hf : OwnBytes A (c.pc p) c.mem.bytes f) {y : Message} (hy : y ∈ prepared H)
    (hq : y.handle ∈ queued H) :
    bytesAt f (A.data + y.offset) y.payload.length = y.payload := by
  rw [h.bytes_frame hf hy (fun x hx hxy => ?_) (Nat.le_refl _)]
  · exact h.complete hy hq
  · have hp : y.handle ∈ handlesWith A c H (.producer p) := hxy ▸ mem_producer hx
    cases h.custody.unique (k := .queue) hp hq

/-- A step that neither prepares a message nor adds one to the queue. -/
theorem Inv.steady [DecidableEq ι] (h : Inv A c H)
    (hunsent : pc.unsent A = (c.pc p).unsent A) (hlocal : Local A H p pc)
    (harena : m.arena.writeOffset = c.mem.arena.writeOffset)
    (hbytes : OwnBytes A (c.pc p) c.mem.bytes m.bytes)
    (hown : ∀ x, pc.unsent A = some x →
      bytesAt m.bytes (A.data + x.offset) pc.progress = x.payload.take pc.progress)
    (hprep : prepared K = []) (hqueue : queued K = []) :
    Inv A ⟨m, Function.update c.pc p pc⟩ (H ++ K) := by
  have hprep' : prepared (H ++ K) = prepared H := by rw [prepared_append, hprep, List.append_nil]
  have hqueue' : queued (H ++ K) = queued H := by rw [queued_append, hqueue, List.append_nil]
  have hwith : handlesWith A ⟨m, Function.update c.pc p pc⟩ (H ++ K) = handlesWith A c H := by
    funext a
    cases a with
    | producer q =>
        by_cases hqp : q = p
        · subst hqp
          simp only [handlesWith, Function.update_self, hunsent]
        · simp only [handlesWith, Function.update_of_ne hqp]
    | queue => exact hqueue'
  refine ⟨hprep' ▸ h.apart, fun hx => ?_, ?_, fun q => ?_, ?_, fun {q x} hq => ?_,
    fun hx hq => ?_⟩
  · rw [hprep'] at hx
    exact harena ▸ h.below hx
  · rw [hprep']
    exact harena ▸ h.count
  · exact (Function.forall_update_iff c.pc fun q pc => Local A (H ++ K) q pc).mpr
      ⟨hlocal.append K, fun q _ => (h.locals q).append K⟩ q
  · rw [hprep', hwith]
    exact h.custody
  · by_cases hqp : q = p
    · subst hqp
      simp only [Function.update_self] at hq ⊢
      exact hown x hq
    · simp only [Function.update_of_ne hqp] at hq ⊢
      exact h.contents_frame hbytes hqp hq
  · rw [hprep'] at hx
    rw [hqueue'] at hq
    exact h.complete_frame hbytes hx hq

/-- `prepare_message` returns. -/
theorem Inv.prepare [DecidableEq ι] (h : Inv A c H) {payload : List UInt8}
    (hold : (c.pc p).unsent A = none) (hpos : 0 < payload.length)
    (harena : m.arena.writeOffset = c.mem.arena.writeOffset + payload.length)
    (hbytes : m.bytes = c.mem.bytes) :
    Inv A ⟨m, Function.update c.pc p (.write payload (A.data + c.mem.arena.writeOffset) 0)⟩
      (H ++ [(p, .prepared c.mem.arena.writeOffset payload)]) := by
  have hprep : prepared (H ++ [(p, Event.prepared c.mem.arena.writeOffset payload)])
      = prepared H ++ [⟨c.mem.arena.writeOffset, payload⟩] := by
    rw [prepared_append]
    rfl
  have hqueue : queued (H ++ [(p, Event.prepared c.mem.arena.writeOffset payload)])
      = queued H := by
    rw [queued_append]
    exact List.append_nil _
  have hunsent : (PC.write payload (A.data + c.mem.arena.writeOffset) 0).unsent A
      = some ⟨c.mem.arena.writeOffset, payload⟩ := by
    simp [PC.unsent]
  have hlt : ∀ {x}, x ∈ prepared H → x.offset < c.mem.arena.writeOffset := by
    intro x hx
    have := h.below hx
    omega
  refine ⟨?_, fun {x} hx => ?_, ?_, fun q => ?_, ?_, fun {q x} hq => ?_, fun {x} hx hq => ?_⟩
  · rw [hprep, List.pairwise_append]
    refine ⟨h.apart, List.pairwise_singleton _ _, fun x hx y hy => ?_⟩
    obtain rfl := List.mem_singleton.mp hy
    exact Or.inl (h.below hx).2
  · rw [hprep, List.mem_append, List.mem_singleton] at hx
    rcases hx with hx | rfl
    · have := h.below hx
      exact ⟨this.1, by simp only [harena]; omega⟩
    · exact ⟨hpos, harena.ge⟩
  · have := h.count
    rw [hprep, List.length_append, List.length_singleton]
    simp only [harena]
    omega
  · refine (Function.forall_update_iff c.pc fun q pc => Local A
      (H ++ [(p, .prepared c.mem.arena.writeOffset payload)]) q pc).mpr ⟨?_, fun q _ => ?_⟩ q
    · exact ⟨Nat.le_add_right _ _, by simp, Nat.zero_le _⟩
    · exact (h.locals q).append _
  · refine h.custody.add (a := .producer p) (x := ⟨c.mem.arena.writeOffset, payload.length⟩)
      (fun hmem => ?_) (fun y => ?_) (fun a ha => ?_) ?_
    · obtain ⟨x, hx, hxe⟩ := List.mem_map.mp hmem
      have hoff : x.offset = c.mem.arena.writeOffset := congrArg Handle.offset hxe
      have := hlt hx
      omega
    · rw [hprep, List.map_append, List.mem_append, or_comm]
      simp [Message.handle]
    · cases a with
      | producer q =>
          have hqp : q ≠ p := fun e => ha (congrArg _ e)
          simp only [handlesWith, Function.update_of_ne hqp]
      | queue => exact hqueue
    · simp [handlesWith, hold, hunsent, Message.handle]
  · by_cases hqp : q = p
    · subst hqp
      simp only [Function.update_self, PC.progress, List.take_zero] at hq ⊢
      rfl
    · simp only [Function.update_of_ne hqp, hbytes] at hq ⊢
      exact h.contents hq
  · rw [hqueue] at hq
    rw [hprep, List.mem_append, List.mem_singleton] at hx
    simp only [hbytes]
    rcases hx with hx | rfl
    · exact h.complete hx hq
    · -- the handle is new, so it is not in the queue
      obtain ⟨y, hy, hye⟩ := List.mem_map.mp (h.custody.token (a := .queue) hq)
      have hoff : y.offset = c.mem.arena.writeOffset := congrArg Handle.offset hye
      have := hlt hy
      omega

/-- The handle of a message is added to the queue. -/
theorem Inv.send [DecidableEq ι] (h : Inv A c H) {x : Message} {payload : List UInt8}
    (hold : (c.pc p).unsent A = some x) (hdone : (c.pc p).progress = x.payload.length)
    (hpc : pc.unsent A = none) (hlocal : Local A H p pc)
    (harena : m.arena.writeOffset = c.mem.arena.writeOffset)
    (hbytes : m.bytes = c.mem.bytes) :
    Inv A ⟨m, Function.update c.pc p pc⟩ (H ++ [(p, .pushed x.handle payload)]) := by
  have hprep : prepared (H ++ [(p, Event.pushed x.handle payload)]) = prepared H := by
    rw [prepared_append]
    exact List.append_nil _
  have hqueue : queued (H ++ [(p, Event.pushed x.handle payload)])
      = queued H ++ [x.handle] := by
    rw [queued_append]
    rfl
  refine ⟨hprep ▸ h.apart, fun hy => ?_, ?_, fun q => ?_, ?_, fun {q y} hq => ?_,
    fun {y} hy hq => ?_⟩
  · rw [hprep] at hy
    exact harena ▸ h.below hy
  · rw [hprep]
    exact harena ▸ h.count
  · exact (Function.forall_update_iff c.pc fun q pc => Local A
      (H ++ [(p, .pushed x.handle payload)]) q pc).mpr
      ⟨hlocal.append _, fun q _ => (h.locals q).append _⟩ q
  · rw [hprep]
    refine h.custody.move (a := .producer p) (b := .queue) (by simp) (fun a ha hb => ?_) ?_
    · cases a with
      | producer q =>
          have hqp : q ≠ p := fun e => ha (congrArg _ e)
          simp only [handlesWith, Function.update_of_ne hqp]
      | queue => exact absurd rfl hb
    · simp only [handlesWith, hqueue, Function.update_self, hold, hpc, Option.map_none,
        Option.map_some, Option.toList_none, Option.toList_some, List.nil_append]
      exact List.perm_append_comm
  · by_cases hqp : q = p
    · subst hqp
      simp only [Function.update_self] at hq
      rw [hpc] at hq
      cases hq
    · simp only [Function.update_of_ne hqp, hbytes] at hq ⊢
      exact h.contents hq
  · rw [hprep] at hy
    simp only [hbytes]
    rw [hqueue, List.mem_append, List.mem_singleton] at hq
    rcases hq with hq | hq
    · exact h.complete hy hq
    · obtain rfl := h.eq_of_handle hy ((h.locals p).mem hold) hq
      have := h.contents hold
      rwa [hdone, List.take_length] at this

/-- The same, with the memory as it was. -/
theorem Inv.still [DecidableEq ι] (h : Inv A c H)
    (hunsent : pc.unsent A = (c.pc p).unsent A) (hlocal : Local A H p pc)
    (hprog : pc.unsent A ≠ none → pc.progress = (c.pc p).progress)
    (harena : m.arena.writeOffset = c.mem.arena.writeOffset)
    (hbytes : m.bytes = c.mem.bytes) (hprep : prepared K = []) (hqueue : queued K = []) :
    Inv A ⟨m, Function.update c.pc p pc⟩ (H ++ K) := by
  refine h.steady hunsent hlocal harena (fun a _ => by rw [hbytes]) (fun x hx => ?_) hprep hqueue
  rw [hprog (by rw [hx]; exact Option.some_ne_none x), hbytes]
  exact h.contents (hunsent ▸ hx)

/-- The same, for a thread with no message to send before and after. -/
theorem Inv.emptyHanded [DecidableEq ι] (h : Inv A c H) (hold : (c.pc p).unsent A = none)
    (hnew : pc.unsent A = none) (hlocal : Local A H p pc)
    (harena : m.arena.writeOffset = c.mem.arena.writeOffset)
    (hbytes : m.bytes = c.mem.bytes) (hprep : prepared K = []) (hqueue : queued K = []) :
    Inv A ⟨m, Function.update c.pc p pc⟩ (H ++ K) :=
  h.still (hnew.trans hold.symm) hlocal (fun hne => absurd hnew hne) harena hbytes hprep hqueue

/-- One byte of the payload is stored in the thread's own block. -/
theorem Inv.writeByte [DecidableEq ι] (h : Inv A c H) {payload : List UInt8} {ptr i : ℕ}
    {byte : UInt8} (hpc : c.pc p = .write payload ptr i) (hbyte : payload[i]? = some byte)
    (hprep : prepared K = []) (hqueue : queued K = []) :
    Inv A ⟨{ c.mem with bytes := Function.update c.mem.bytes (ptr + i) byte },
      Function.update c.pc p (.write payload ptr (i + 1))⟩ (H ++ K) := by
  have hloc := h.locals p
  rw [hpc] at hloc
  obtain ⟨hdata, hmem, -⟩ := hloc
  have hlt : i < payload.length := (List.getElem?_eq_some_iff.mp hbyte).1
  have hptr : A.data + (ptr - A.data) = ptr := by omega
  refine h.steady (by rw [hpc]; rfl) ⟨hdata, hmem, hlt⟩ rfl (fun a ha => ?_)
    (fun x hx => ?_) hprep hqueue
  · rw [hpc] at ha
    have := ha _ rfl
    simp only [hptr] at this
    exact Function.update_of_ne (by omega) _ _
  · cases hx
    have hold := h.contents (p := p) (x := ⟨ptr - A.data, payload⟩) (by rw [hpc]; rfl)
    rw [hpc] at hold
    simp only [hptr, PC.progress] at hold ⊢
    exact bytesAt_update hold hbyte

/-- `get_offset` finds the offset of a block back from its pointer. -/
theorem Inv.getOffset_eq (h : Inv A c H) (hle : c.mem.arena.writeOffset ≤ A.size) {ptr : ℕ}
    {payload : List UInt8} (hdata : A.data ≤ ptr)
    (hmem : ⟨ptr - A.data, payload⟩ ∈ prepared H) : A.getOffset ptr = ptr - A.data := by
  obtain ⟨hpos, hbelow⟩ := h.below hmem
  have hlt : ptr - A.data < A.size := by
    dsimp only at hpos hbelow
    omega
  have := A.getOffset_of_lt hlt
  rwa [show A.data + (ptr - A.data) = ptr by omega] at this

end Step

/-- The message that a step starts to send is not empty, and its size does not
wrap around with that of the arena. -/
def Sendable (A : Arena.Buffer) : Choice Op → Prop
  | .call (.send payload) => 0 < payload.length ∧ A.size + payload.length < 2 ^ 64
  | _ => True

instance (A : Arena.Buffer) : (ch : Choice Op) → Decidable (Sendable A ch)
  | .call (.send payload) => inferInstanceAs
      (Decidable (0 < payload.length ∧ A.size + payload.length < 2 ^ 64))
  | .call .receive => .isTrue trivial
  | .go => .isTrue trivial
  | .fault => .isTrue trivial

/-- An access inside `try_push` that neither wins its ticket nor publishes. -/
theorem push_access {Z : PowSize} {m m' : Ring.Mem Handle} {item : Handle} {ppc : Ring.PushPC}
    {rpc' : Ring.PC Handle} {ev : Option (Ring.Event Handle)}
    (he : Ring.Effect Z id m (.push item ppc) m' rpc' ev)
    (hwin : ∀ t handle, ev ≠ some (.pushWin t handle)) (hdone : ∀ t, ev ≠ some (.pushDone t)) :
    (rpc' = .idle ∨ ∃ ppc', rpc' = .push item ppc')
      ∧ rpc'.producing = (Ring.PC.push item ppc).producing := by
  cases he with
  | stay => exact ⟨Or.inr ⟨_, rfl⟩, rfl⟩
  | pushFull => exact ⟨Or.inl rfl, rfl⟩
  | pushWin => exact absurd rfl (hwin _ _)
  | pushDone => exact absurd rfl (hdone _)
  | _ => exact ⟨Or.inr ⟨_, rfl⟩, rfl⟩

/-- An access inside `try_pop` after which it does not return. -/
theorem pop_access {Z : PowSize} {m m' : Ring.Mem Handle} {ppc : Ring.PopPC Handle}
    {rpc' : Ring.PC Handle} {ev : Option (Ring.Event Handle)}
    (he : Ring.Effect Z id m (.pop ppc) m' rpc' ev)
    (hdone : ∀ t handle, ev ≠ some (.popDone t handle)) (hempty : ev ≠ some .popEmpty) :
    (∃ ppc', rpc' = .pop ppc') ∧ ∀ t handle, ev ≠ some (.pushWin t handle) := by
  cases he with
  | popEmpty => exact absurd rfl hempty
  | popDone => exact absurd rfl (hdone _ _)
  | _ => exact ⟨⟨_, rfl⟩, fun t handle h => by cases h⟩

section Step

variable [DecidableEq ι] {A : Arena.Buffer} {Z : PowSize} {c : Config ι Mem PC}
  {H : List (ι × Event)} {H' : List (ι × Arena.Event)} {p : ι} {m : Mem} {pc : PC}
  {ch : Choice Op} {rev : Option (Ring.Event Handle)} {ev : Option Event}

theorem Inv.step (h : Inv A c H)
    (harena : Arena.Inv A.size (System.project Mem.arena PC.arena c) H')
    (hs : Sendable A ch) (he : Effect A Z c.mem ch (c.pc p) m pc rev ev) :
    Inv A ⟨m, Function.update c.pc p pc⟩ (H ++ (ev.map (Prod.mk p)).toList) := by
  have hloc := h.locals p
  generalize hpc : c.pc p = pc₀ at he hloc
  cases he with
  | stay => exact h.still (by rw [hpc]) hloc (fun _ => by rw [hpc]) rfl rfl rfl rfl
  | start op hch =>
      subst hch
      cases op with
      | send payload =>
          exact h.emptyHanded (by rw [hpc]; rfl) rfl ⟨hs.1, rfl⟩ rfl rfl rfl rfl
      | receive =>
          exact h.emptyHanded (by rw [hpc]; rfl) rfl ⟨_, rfl⟩ rfl rfl rfl rfl
  | allocate payload apc m' apc' ach he =>
      have hreq : apc'.requested = some payload.length ∧ m' = c.mem.arena := by
        cases he with
        | stay => exact ⟨hloc.2, rfl⟩
        | start op _ => cases hloc.2
        | fits _ bytes hbytes _ => exact ⟨hbytes.symm.trans hloc.2, rfl⟩
      refine h.emptyHanded (by rw [hpc]; rfl) rfl ⟨hloc.1, hreq.1⟩ ?_ rfl rfl rfl
      rw [hreq.2]
  | prepared payload apc m' offset bytes ach he =>
      cases he with
      | commit =>
          obtain rfl : bytes = payload.length := Option.some.inj hloc.2
          refine h.prepare (by rw [hpc]; rfl) hloc.1 (harena.wrap_eq (p := p) ?_) rfl
          simp only [System.project, hpc]
          rfl
  | arenaFull payload apc m' bytes ach he =>
      cases he
      exact h.emptyHanded (by rw [hpc]; rfl) rfl trivial rfl rfl rfl rfl
  | writeByte payload ptr i byte hbyte => exact h.writeByte hpc hbyte rfl rfl
  | written payload ptr i hnone =>
      obtain ⟨hdata, hmem, hi⟩ := hloc
      have hlen : i = payload.length := by
        have := List.getElem?_eq_none_iff.mp hnone
        omega
      exact h.still (by rw [hpc]; rfl) ⟨hdata, hmem, Or.inl rfl⟩
        (fun _ => by rw [hpc, hlen]; rfl) rfl rfl rfl rfl
  | callPush payload ptr =>
      obtain ⟨hdata, hmem, -⟩ := hloc
      rw [h.getOffset_eq harena.le hdata (mem_prepared hmem)]
      exact h.still (by rw [hpc]; rfl) ⟨hdata, hmem, Or.inr ⟨_, rfl⟩⟩
        (fun _ => by rw [hpc]; rfl) rfl rfl rfl rfl
  | pushAccess payload ptr rpc m' rpc' ev' hbusy he hwin hdone =>
      obtain ⟨hdata, hmem, hidle | ⟨ppc, rfl⟩⟩ := hloc
      · exact absurd hidle hbusy
      · obtain ⟨hrpc, hprod⟩ := push_access he hwin hdone
        exact h.still (by rw [hpc]; simp only [PC.unsent, hprod]) ⟨hdata, hmem, hrpc⟩
          (fun _ => by rw [hpc]; rfl) rfl rfl rfl rfl
  | pushWin payload ptr rpc m' rpc' t handle hbusy he =>
      obtain ⟨hdata, hmem, hidle | ⟨ppc, rfl⟩⟩ := hloc
      · exact absurd hidle hbusy
      · cases he with
        | pushWin =>
            refine h.send (x := ⟨ptr - A.data, payload⟩) ?_ (by rw [hpc]; rfl) rfl
              ⟨hdata, hmem, Or.inr ⟨_, rfl⟩⟩ rfl rfl
            rw [hpc]
            rfl
  | pushDone payload ptr rpc m' t hbusy he =>
      obtain ⟨item, rfl⟩ := he.of_pushDone
      exact h.emptyHanded (by rw [hpc]; rfl) rfl trivial rfl rfl rfl rfl
  | popAccess rpc m' rpc' ev' he hdone hempty =>
      obtain ⟨ppc, rfl⟩ := hloc
      exact h.emptyHanded (by rw [hpc]; rfl) rfl (pop_access he hdone hempty).1 rfl rfl rfl rfl
  | received | empty =>
      exact h.emptyHanded (by rw [hpc]; rfl) rfl trivial rfl rfl rfl rfl

end Step

/-! ## Events of the queue and of the ring -/

section Events

variable {A : Arena.Buffer} {Z : PowSize} {m m' : Mem} {ch : Choice Op} {pc pc' : PC}
  {rev : Option (Ring.Event Handle)} {ev : Option Event} {H : List (ι × Event)} {p : ι}

theorem Effect.of_received {handle : Handle}
    (he : Effect A Z m ch pc m' pc' rev (some (.received handle))) :
    ∃ t, rev = some (.popDone t handle) := by
  cases he with
  | received rpc m' t handle he => exact ⟨t, rfl⟩

theorem Effect.of_popDone {t : ℕ} {handle : Handle}
    (he : Effect A Z m ch pc m' pc' (some (.popDone t handle)) ev) (hloc : Local A H p pc) :
    ev = some (.received handle) := by
  cases he with
  | pushAccess payload ptr rpc m' rpc' ev hbusy he hwin hdone =>
      obtain ⟨-, -, hidle | ⟨ppc, rfl⟩⟩ := hloc
      · exact absurd hidle hbusy
      · cases he
  | popAccess rpc m' rpc' ev he hdone hempty => exact absurd rfl (hdone t handle)
  | received => rfl

/-- A handle is added to the queue by the thread that has prepared the message
of that handle. -/
theorem Effect.of_pushed {handle : Handle} {payload : List UInt8}
    (he : Effect A Z m ch pc m' pc' rev (some (.pushed handle payload)))
    (hloc : Local A H p pc) :
    (∃ t, rev = some (.pushWin t handle)) ∧ handle.size = payload.length
      ∧ (p, Event.prepared handle.offset payload) ∈ H
      ∧ ∃ ptr rpc, pc = .push payload ptr rpc := by
  cases he with
  | pushWin payload ptr rpc m' rpc' t handle hbusy he =>
      obtain ⟨-, hmem, hidle | ⟨ppc, rfl⟩⟩ := hloc
      · exact absurd hidle hbusy
      · cases he with
        | pushWin => exact ⟨⟨_, rfl⟩, rfl, hmem, ptr, _, rfl⟩

theorem Effect.of_pushWin {t : ℕ} {handle : Handle}
    (he : Effect A Z m ch pc m' pc' (some (.pushWin t handle)) ev) (hloc : Local A H p pc) :
    ∃ payload, ev = some (.pushed handle payload) := by
  cases he with
  | pushAccess payload ptr rpc m' rpc' ev hbusy he hwin hdone => exact absurd rfl (hwin t handle)
  | pushWin payload => exact ⟨payload, rfl⟩
  | popAccess rpc m' rpc' ev he hdone hempty =>
      obtain ⟨ppc, rfl⟩ := hloc
      exact absurd rfl ((pop_access he hdone hempty).2 t handle)

/-- The ring and the queue keep the same log of handles. -/
theorem Effect.pushed_eq_queued (he : Effect A Z m ch pc m' pc' rev ev)
    (hloc : Local A H p pc) (q : ι) :
    Ring.pushed (rev.map (Prod.mk q)).toList = queued (ev.map (Prod.mk q)).toList := by
  have hnone : (∀ t handle, rev ≠ some (.pushWin t handle)) →
      Ring.pushed (rev.map (Prod.mk q)).toList = [] := by
    intro hwin
    rcases rev with _ | (_ | _ | _ | _ | _ | _)
    · rfl
    · exact absurd rfl (hwin _ _)
    all_goals rfl
  cases he with
  | pushAccess payload ptr rpc m' rpc' ev hbusy he hwin hdone => exact hnone hwin
  | popAccess rpc m' rpc' ev he hdone hempty =>
      obtain ⟨ppc, rfl⟩ := hloc
      exact hnone (pop_access he hdone hempty).2
  | _ => rfl

/-- The call a thread is in. -/
def PC.op : PC → Option Op
  | .idle => none
  | .prepare payload _ => some (.send payload)
  | .write payload _ _ => some (.send payload)
  | .push payload _ _ => some (.send payload)
  | .pop _ => some .receive

theorem prog_op (m : Mem) (pc : PC) (ch : Choice Op) (op : Op)
    (h : (prog A Z m pc ch).pc.op = some op) :
    pc.op = some op ∨ pc = .idle ∧ ch = .call op := by
  have he := prog_effect (A := A) (Z := Z) m pc ch
  generalize (prog A Z m pc ch).mem = m', (prog A Z m pc ch).pc = pc',
    (prog A Z m pc ch).event = ev,
    (Ring.prog Z id m.queue pc.queue (queueChoice A pc ch)).event = rev at he h
  cases he with
  | start op' hch => cases op' <;> cases h <;> exact Or.inr ⟨rfl, hch⟩
  | arenaFull | pushDone | received | empty => cases h
  | _ => exact Or.inl h

/-- The message of a thread that has not added it to the queue yet. -/
def PC.sending : PC → Option (List UInt8)
  | .prepare payload _ => some payload
  | .write payload _ _ => some payload
  | .push payload _ rpc => if rpc.producing = none then some payload else none
  | _ => none

/-- A message is on its way until its handle is in the queue, or
`prepare_message` has thrown. -/
theorem Effect.of_sending {payload : List UInt8} (he : Effect A Z m ch pc m' pc' rev ev)
    (hloc : Local A H p pc) (hs : pc.sending = some payload)
    (hs' : pc'.sending ≠ some payload) :
    ev = some (.arenaFull payload) ∨ ∃ handle, ev = some (.pushed handle payload) := by
  cases he with
  | arenaFull payload' =>
      cases hs
      exact Or.inl rfl
  | pushAccess payload' ptr rpc m' rpc' ev hbusy he hwin hdone =>
      obtain ⟨-, -, hidle | ⟨ppc, rfl⟩⟩ := hloc
      · exact absurd hidle hbusy
      · have hprod := (push_access he hwin hdone).2
        refine absurd ?_ hs'
        rw [← hs]
        simp only [PC.sending, hprod]
  | pushWin payload' ptr rpc m' rpc' t handle hbusy he =>
      simp only [PC.sending] at hs
      split_ifs at hs
      cases hs
      exact Or.inr ⟨handle, rfl⟩
  | pushDone payload' ptr rpc m' t hbusy he =>
      obtain ⟨item, rfl⟩ := he.of_pushDone
      cases hs
  | start | popAccess | received | empty => cases hs
  | _ => exact absurd hs hs'

end Events

/-! ## Runs -/

theorem Sendable.small {A : Arena.Buffer} {ch : Choice Op} (h : Sendable A ch) (pc : PC) :
    Arena.Small A.size (arenaChoice pc ch) := by
  unfold arenaChoice
  split
  · exact h.2
  · next apc op =>
      have := A.lt_63
      cases apc with
      | idle => trivial
      | load | cas => exact Nat.lt_trans this (by norm_num)
  · next hch =>
      cases ch with
      | call op => exact absurd rfl (hch op)
      | go => trivial
      | fault => trivial
  · trivial

section Run

variable [DecidableEq ι] {A : Arena.Buffer} {Z : PowSize} {buffer : ℕ → Handle}
  {bytes : ℕ → UInt8} {sched : ℕ → ι × Choice Op} {n : ℕ}

theorem arena_inv_run (hs : ∀ i, i < n → Sendable A (sched i).2) :
    ∃ H', Arena.Inv A.size (System.project Mem.arena PC.arena
      ((system A Z ι buffer bytes).run sched n)) H' := by
  rw [run_arena]
  exact ⟨_, Arena.inv_run fun i hi => (hs i hi).small _⟩

theorem inv_run (hs : ∀ i, i < n → Sendable A (sched i).2) :
    Inv A ((system A Z ι buffer bytes).run sched n)
      ((system A Z ι buffer bytes).history sched n) := by
  refine (system A Z ι buffer bytes).invariant_of_guard (G := fun c _ a => Sendable A a.2
      ∧ ∃ H', Arena.Inv A.size (System.project Mem.arena PC.arena c) H') ?_
    (fun c H a hg h => ?_)
    fun i hi => ⟨hs i hi, arena_inv_run fun j hj => hs j (Nat.lt_trans hj hi)⟩
  · refine ⟨List.Pairwise.nil, ?_, Nat.le_refl 0, fun _ => trivial,
      Custody.empty (fun x hx => ?_) fun a => ?_, ?_, ?_⟩
    · intro x hx
      cases hx
    · cases hx
    · cases a <;> rfl
    · intro p x hx
      cases hx
    · intro x hx
      cases hx
  · obtain ⟨hsend, H', harena⟩ := hg
    exact h.step harena hsend (prog_effect (Z := Z) c.mem (c.pc a.1) a.2)

/-- The history of the ring inside a run of the queue. -/
def ringHistory (A : Arena.Buffer) (Z : PowSize) (buffer : ℕ → Handle) (bytes : ℕ → UInt8)
    (sched : ℕ → ι × Choice Op) (n : ℕ) : List (ι × Ring.Event Handle) :=
  (Ring.system Z id ι buffer).history (queueSched A Z buffer bytes sched) n

theorem pushed_ringHistory (hs : ∀ i, i < n → Sendable A (sched i).2) :
    Ring.pushed (ringHistory A Z buffer bytes sched n)
      = queued ((system A Z ι buffer bytes).history sched n) := by
  induction n with
  | zero => rfl
  | succ n ih =>
      have hs' : ∀ i, i < n → Sendable A (sched i).2 := fun i hi => hs i (by omega)
      rw [ringHistory, System.history_succ, System.history_succ, Ring.pushed_append,
        queued_append, ← ih hs', ← run_ring]
      refine congrArg _ ?_
      exact (prog_effect _ _ _).pushed_eq_queued ((inv_run hs').locals (sched n).1) _

/-- Every message takes up some of the arena, so the tickets of the ring do
not run out. -/
theorem pushed_lt (hs : ∀ i, i < n → Sendable A (sched i).2) :
    (Ring.pushed (ringHistory A Z buffer bytes sched n)).length < 2 ^ 63 := by
  have h : Inv A ((system A Z ι buffer bytes).run sched n) _ := inv_run hs
  obtain ⟨H', harena⟩ : ∃ H', Arena.Inv A.size (System.project Mem.arena PC.arena
    ((system A Z ι buffer bytes).run sched n)) H' := arena_inv_run hs
  rw [pushed_ringHistory hs]
  have hsub := ((h.custody.nodup .queue).subperm fun x hx =>
    h.custody.token (a := .queue) hx).length_le
  calc (queued _).length ≤ ((prepared _).map Message.handle).length := hsub
    _ = (prepared _).length := List.length_map _
    _ ≤ ((system A Z ι buffer bytes).run sched n).mem.arena.writeOffset := h.count
    _ ≤ A.size := harena.le
    _ < 2 ^ 63 := A.lt_63

variable (A Z buffer bytes sched) in
theorem effect_run (i : ℕ) :
    Effect A Z ((system A Z ι buffer bytes).run sched i).mem (sched i).2
      (((system A Z ι buffer bytes).run sched i).pc (sched i).1)
      ((system A Z ι buffer bytes).run sched (i + 1)).mem
      (((system A Z ι buffer bytes).run sched (i + 1)).pc (sched i).1)
      ((Ring.system Z id ι buffer).outcome ((Ring.system Z id ι buffer).run
        (queueSched A Z buffer bytes sched) i) (queueSched A Z buffer bytes sched i)).event
      ((system A Z ι buffer bytes).outcome ((system A Z ι buffer bytes).run sched i)
        (sched i)).event := by
  rw [System.run_succ, System.next_pc_self, ← run_ring]
  exact prog_effect _ _ _

/-- What `pop_message` returns, the ring has delivered. -/
theorem exists_popDone {i : ℕ} {q : ι} {handle : Handle}
    (h : (system A Z ι buffer bytes).Fires sched i q (.received handle)) :
    ∃ t, (Ring.system Z id ι buffer).Fires (queueSched A Z buffer bytes sched) i q
      (.popDone t handle) := by
  have he := effect_run A Z buffer bytes sched i
  rw [h.2] at he
  obtain ⟨t, ht⟩ := he.of_received
  exact ⟨t, h.1, ht⟩

section Sendable

variable (hs : ∀ i, i < n → Sendable A (sched i).2)

include hs

theorem locals_run {i : ℕ} (hi : i < n) :
    Local A ((system A Z ι buffer bytes).history sched i) (sched i).1
      (((system A Z ι buffer bytes).run sched i).pc (sched i).1) :=
  (inv_run fun j hj => hs j (Nat.lt_trans hj hi)).locals _

theorem received_of_popDone {i : ℕ} {q : ι} {t : ℕ} {handle : Handle} (hi : i < n)
    (h : (Ring.system Z id ι buffer).Fires (queueSched A Z buffer bytes sched) i q
      (.popDone t handle)) :
    (system A Z ι buffer bytes).Fires sched i q (.received handle) := by
  have he := effect_run A Z buffer bytes sched i
  rw [h.2] at he
  exact ⟨h.1, he.of_popDone (locals_run hs hi)⟩

theorem pushed_of_pushWin {i : ℕ} {p : ι} {t : ℕ} {handle : Handle} (hi : i < n)
    (h : (Ring.system Z id ι buffer).Fires (queueSched A Z buffer bytes sched) i p
      (.pushWin t handle)) :
    ∃ payload, (system A Z ι buffer bytes).Fires sched i p (.pushed handle payload) := by
  have he := effect_run A Z buffer bytes sched i
  rw [h.2] at he
  obtain ⟨payload, hev⟩ := he.of_pushWin (locals_run hs hi)
  exact ⟨payload, h.1, hev⟩

/-- A handle is added to the queue in the call that sends its message, by the
thread that has prepared it. -/
theorem origin_of_pushed {i : ℕ} {p : ι} {handle : Handle} {payload : List UInt8} (hi : i < n)
    (h : (system A Z ι buffer bytes).Fires sched i p (.pushed handle payload)) :
    (∃ t, (Ring.system Z id ι buffer).Fires (queueSched A Z buffer bytes sched) i p
        (.pushWin t handle))
      ∧ handle.size = payload.length
      ∧ (∃ r, r < i ∧ (system A Z ι buffer bytes).Fires sched r p
        (.prepared handle.offset payload))
      ∧ ∃ s, s < i ∧ (system A Z ι buffer bytes).Within .idle sched s i p (.send payload) := by
  obtain ⟨rfl, hev⟩ := h
  have he := effect_run A Z buffer bytes sched i
  rw [hev] at he
  obtain ⟨⟨t, ht⟩, hsize, hprep, ptr, rpc, hpc⟩ := he.of_pushed (locals_run hs hi)
  have hop : (((system A Z ι buffer bytes).run sched i).pc (sched i).1).op
      = some (.send payload) := by
    rw [hpc]
    rfl
  exact ⟨⟨t, rfl, ht⟩, hsize, (System.mem_history _).mp hprep,
    System.exists_within rfl (fun _ => rfl) prog_op hop⟩

/-- A handle is added to the queue once. -/
theorem pushWin_inj {i i' : ℕ} {p p' : ι} {t t' : ℕ} {handle : Handle} (hi : i < n)
    (hi' : i' < n)
    (h : (Ring.system Z id ι buffer).Fires (queueSched A Z buffer bytes sched) i p
      (.pushWin t handle))
    (h' : (Ring.system Z id ι buffer).Fires (queueSched A Z buffer bytes sched) i' p'
      (.pushWin t' handle)) : t = t' ∧ i = i' := by
  have hlt : (Ring.pushed (ringHistory A Z buffer bytes sched n)).length < 2 ^ 63 :=
    pushed_lt hs
  have hnodup : (Ring.pushed (ringHistory A Z buffer bytes sched n)).Nodup := by
    rw [pushed_ringHistory hs]
    exact (inv_run hs).custody.nodup .queue
  have ht := Ring.pushed_of_pushWin hlt hi h
  have ht' := Ring.pushed_of_pushWin hlt hi' h'
  obtain rfl := (List.getElem?_inj (List.getElem?_eq_some_iff.mp ht).1 hnodup).mp
    (ht.trans ht'.symm)
  exact ⟨rfl, Ring.pushWin_unique hlt hi hi' h h'⟩

/-- The bytes of a message whose handle is in the queue. -/
theorem bytesAt_of_pushed {i k : ℕ} {p : ι} {handle : Handle} {payload : List UInt8}
    (hik : i < k) (hk : k ≤ n)
    (h : (system A Z ι buffer bytes).Fires sched i p (.pushed handle payload)) :
    ∃ ptr, getMessageData A handle = some ptr
      ∧ bytesAt ((system A Z ι buffer bytes).run sched k).mem.bytes ptr handle.size
        = payload := by
  have hs' : ∀ j, j < k → Sendable A (sched j).2 := fun j hj => hs j (by omega)
  obtain ⟨-, hsize, ⟨r, hr, hprep⟩, -⟩ := origin_of_pushed hs (by omega) h
  have hinv : Inv A ((system A Z ι buffer bytes).run sched k) _ := inv_run hs'
  obtain ⟨H', harena⟩ : ∃ H', Arena.Inv A.size (System.project Mem.arena PC.arena
    ((system A Z ι buffer bytes).run sched k)) H' := arena_inv_run hs'
  have hmem := mem_prepared ((System.mem_history _).mpr ⟨r, hr.trans hik, hprep⟩)
  have hqueue : handle ∈ queued ((system A Z ι buffer bytes).history sched k) :=
    List.mem_filterMap.mpr ⟨_, (System.mem_history _).mpr ⟨i, hik, h⟩, rfl⟩
  have hhandle : (⟨handle.offset, payload⟩ : Message).handle = handle := by
    rw [Message.handle, ← hsize]
  have hlt : handle.offset < A.size := by
    obtain ⟨hpos, hle⟩ := hinv.below hmem
    have hsz : ((system A Z ι buffer bytes).run sched k).mem.arena.writeOffset ≤ A.size :=
      harena.le
    dsimp only at hpos hle
    omega
  refine ⟨_, A.get_of_lt hlt, ?_⟩
  rw [hsize]
  exact hinv.complete hmem (hhandle.symm ▸ hqueue)

/-- When nobody is inside a call and the queue is empty, what was added to it
has been received. -/
theorem received_of_drained
    (hidle : ∀ p, ((system A Z ι buffer bytes).run sched n).pc p = .idle)
    (hempty : ((system A Z ι buffer bytes).run sched n).mem.queue.tail
      = ((system A Z ι buffer bytes).run sched n).mem.queue.head)
    {i : ℕ} {p : ι} {t : ℕ} {handle : Handle} (hi : i < n)
    (h : (Ring.system Z id ι buffer).Fires (queueSched A Z buffer bytes sched) i p
      (.pushWin t handle)) :
    ∃ j q, j < n ∧ (system A Z ι buffer bytes).Fires sched j q (.received handle) := by
  have hlt : (Ring.pushed (ringHistory A Z buffer bytes sched n)).length < 2 ^ 63 :=
    pushed_lt hs
  have hring : System.project Mem.queue PC.queue ((system A Z ι buffer bytes).run sched n)
      = (Ring.system Z id ι buffer).run (queueSched A Z buffer bytes sched) n :=
    run_ring sched n
  have hidle' : ∀ q, ((Ring.system Z id ι buffer).run
      (queueSched A Z buffer bytes sched) n).pc q = .idle := by
    intro q
    rw [← hring]
    simp only [System.project, hidle q]
    rfl
  have hpush := (List.getElem?_eq_some_iff.mp (Ring.pushed_of_pushWin hlt hi h)).1
  rw [(Ring.inv_run hlt).pushes, ← hring] at hpush
  have htail : t < ((Ring.system Z id ι buffer).run
      (queueSched A Z buffer bytes sched) n).mem.tail := by
    rw [← hring]
    exact hempty ▸ hpush
  obtain ⟨k, q, hk, hdone⟩ := (Ring.delivered_iff_of_idle hlt hidle' hi h).1.mpr htail
  exact ⟨k, q, hk, received_of_popDone hs hk hdone⟩

theorem exists_end_of_send
    (hidle : ∀ p, ((system A Z ι buffer bytes).run sched n).pc p = .idle) {s : ℕ} {p : ι}
    {payload : List UInt8} (hsn : s < n)
    (h : (system A Z ι buffer bytes).Calls .idle sched s p (.send payload)) :
    ∃ i, s < i ∧ i < n ∧ ((system A Z ι buffer bytes).Fires sched i p (.arenaFull payload)
      ∨ ∃ handle, (system A Z ι buffer bytes).Fires sched i p (.pushed handle payload)) := by
  obtain ⟨hsched, hpc⟩ := h
  have hstart : (((system A Z ι buffer bytes).run sched (s + 1)).pc p).sending
      = some payload := by
    have hp : (sched s).1 = p := congrArg Prod.fst hsched
    rw [System.run_succ, ← hp, System.next_pc_self]
    simp only [System.outcome, hsched, hpc]
    rfl
  obtain ⟨j, hsj, hjn, rfl, hj, hj'⟩ := (system A Z ι buffer bytes).exists_leave
    (f := fun pc => pc.sending = some payload) hsn hstart
    (by rw [hidle]; simp [PC.sending])
  have he := effect_run A Z buffer bytes sched j
  rcases he.of_sending (locals_run hs hjn) hj hj' with hev | ⟨handle, hev⟩
  · exact ⟨j, hsj, hjn, Or.inl ⟨rfl, hev⟩⟩
  · exact ⟨j, hsj, hjn, Or.inr ⟨handle, rfl, hev⟩⟩

end Sendable

end Run

/-- In every run in which producers send messages of at least one byte, of a
size that does not wrap around with that of the arena:

1. a handle that `pop_message` returns has been added to the queue, once, in
   the call that sends a message of that size by the producer to which
   `prepare_message` has returned that offset, and from then on the bytes that
   `get_message_data` points to are those of the message;
2. no handle is returned twice;
3. when all calls have returned and the queue is empty, every call that sends
   a message has thrown or has added its message to the queue, and what was
   added has been returned by `pop_message`. -/
theorem payload_integrity [DecidableEq ι] (A : Arena.Buffer) (Z : PowSize)
    (buffer : ℕ → Handle) (bytes : ℕ → UInt8) (sched : ℕ → ι × Choice Op) (n : ℕ)
    (hs : ∀ i, i < n → Sendable A (sched i).2) :
    let S := system A Z ι buffer bytes
    (∀ j q handle, j < n → S.Fires sched j q (.received handle) →
      ∃ i p payload, i < j ∧ S.Fires sched i p (.pushed handle payload)
        ∧ (∃ s, s < i ∧ S.Within .idle sched s i p (.send payload))
        ∧ (∃ r, r < i ∧ S.Fires sched r p (.prepared handle.offset payload))
        ∧ handle.size = payload.length
        ∧ (∀ i' p' payload', i' < n → S.Fires sched i' p' (.pushed handle payload') → i' = i)
        ∧ ∀ k, j ≤ k → k ≤ n → ∃ ptr, getMessageData A handle = some ptr
          ∧ bytesAt (S.run sched k).mem.bytes ptr handle.size = payload)
    ∧ (∀ j j' q q' handle, j < n → j' < n → S.Fires sched j q (.received handle) →
      S.Fires sched j' q' (.received handle) → j = j')
    ∧ ((∀ p, (S.run sched n).pc p = .idle) →
      (S.run sched n).mem.queue.tail = (S.run sched n).mem.queue.head →
      (∀ s p payload, s < n → S.Calls .idle sched s p (.send payload) →
        ∃ i, s < i ∧ i < n ∧ (S.Fires sched i p (.arenaFull payload)
          ∨ ∃ handle, S.Fires sched i p (.pushed handle payload)))
      ∧ ∀ i p handle payload, i < n → S.Fires sched i p (.pushed handle payload) →
        ∃ j q, j < n ∧ S.Fires sched j q (.received handle)) := by
  intro S
  have hlt : (Ring.pushed (ringHistory A Z buffer bytes sched n)).length < 2 ^ 63 :=
    pushed_lt hs
  refine ⟨fun j q handle hj h => ?_, fun j j' q q' handle hj hj' h h' => ?_,
    fun hidle hempty => ⟨fun s p payload hsn hcall => ?_, fun i p handle payload hi h => ?_⟩⟩
  · obtain ⟨t, ht⟩ := exists_popDone h
    obtain ⟨j', hj', -, -, i, p, hi, hwin⟩ := Ring.popDone_origin hlt hj ht
    have hin : i < n := by omega
    obtain ⟨payload, hpush⟩ := pushed_of_pushWin hs hin hwin
    obtain ⟨-, hsize, hprep, hsend⟩ := origin_of_pushed hs hin hpush
    refine ⟨i, p, payload, by omega, hpush, hsend, hprep, hsize,
      fun i' p' payload' hi' hpush' => ?_, fun k hjk hk => ?_⟩
    · obtain ⟨⟨t', hwin'⟩, -⟩ := origin_of_pushed hs hi' hpush'
      exact (pushWin_inj hs hi' hin hwin' hwin).2
    · exact bytesAt_of_pushed hs (by omega) hk hpush
  · obtain ⟨t, ht⟩ := exists_popDone h
    obtain ⟨t', ht'⟩ := exists_popDone h'
    obtain ⟨l, hl, -, -, i, p, hi, hwin⟩ := Ring.popDone_origin hlt hj ht
    obtain ⟨l', hl', -, -, i', p', hi', hwin'⟩ := Ring.popDone_origin hlt hj' ht'
    obtain ⟨rfl, -⟩ := pushWin_inj hs (by omega) (by omega) hwin hwin'
    exact Ring.popDone_unique hlt hj hj' ht ht'
  · exact exists_end_of_send hs hidle hsn hcall
  · obtain ⟨⟨t, hwin⟩, -⟩ := origin_of_pushed hs hi h
    exact received_of_drained hs hidle hempty hi hwin

/-- Two producers take turns, one sending two bytes and the other one; then one
of them receives both messages. -/
def twoMessages : ℕ → Bool × Choice Op := fun i =>
  if i = 0 then (false, .call (.send [7, 8]))
  else if i = 1 then (true, .call (.send [9]))
  else if i < 28 then (i % 2 == 1, .go)
  else if i = 28 ∨ i = 34 then (true, .call .receive)
  else (true, .go)

theorem payload_integrity_twoMessages :
    (system eightBytes Ring.twoCells Bool (fun _ => ⟨0, 0⟩) fun _ => 0).Fires twoMessages 33
        true (.received ⟨0, 2⟩)
      ∧ (∃ i p payload, i < 33
        ∧ (system eightBytes Ring.twoCells Bool (fun _ => ⟨0, 0⟩) fun _ => 0).Fires
          twoMessages i p (.pushed ⟨0, 2⟩ payload)
        ∧ ∃ ptr, getMessageData eightBytes ⟨0, 2⟩ = some ptr
          ∧ bytesAt ((system eightBytes Ring.twoCells Bool (fun _ => ⟨0, 0⟩) fun _ => 0).run
            twoMessages 40).mem.bytes ptr (Handle.mk 0 2).size = payload)
      ∧ ∃ j q, j < 40 ∧ (system eightBytes Ring.twoCells Bool (fun _ => ⟨0, 0⟩)
        fun _ => 0).Fires twoMessages j q (.received ⟨2, 1⟩) := by
  have hfires : (system eightBytes Ring.twoCells Bool (fun _ => ⟨0, 0⟩) fun _ => 0).Fires
      twoMessages 33 true (.received ⟨0, 2⟩) := by decide +kernel
  obtain ⟨hreceived, -, hdrained⟩ := payload_integrity eightBytes Ring.twoCells
    (fun _ => ⟨0, 0⟩) (fun _ => 0) twoMessages 40 (by decide)
  obtain ⟨i, p, payload, hi, hpush, -, -, -, -, hbytes⟩ :=
    hreceived 33 true ⟨0, 2⟩ (by decide) hfires
  obtain ⟨-, hall⟩ := hdrained (by decide +kernel) (by decide +kernel)
  exact ⟨hfires, ⟨i, p, payload, hi, hpush, hbytes 40 (by decide) (by decide)⟩,
    hall 23 true ⟨2, 1⟩ [9] (by decide) (by decide +kernel)⟩

end MessageQueue

end Lockless
