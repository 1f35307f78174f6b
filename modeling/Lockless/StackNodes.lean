import Lockless.Stack
import Lockless.Custody

/-!
# Node ownership in the array stack

Which nodes lie on which list is a function of the history: every successful
compare-exchange puts a node on top of a list or takes the top off
(`members`). The invariant `Inv` says that memory agrees with it:

- every node is on one of the two lists or held by one operation;
- following `next` from a head visits exactly the members of its list, and
  the tag counts the compare-exchanges on it;
- the data on the data stack are the values of the abstract stack, which is
  a function of the history too (`stack`);
- a word a thread expects is the current one if the head has not been
  exchanged since, and then the `next` it read is still right.

The last point is what the tag has to ensure: a compare-exchange compares
words, and equal words mean that nothing happened in between only if fewer
than `2 ^ 32` exchanges did.
-/

namespace Lockless

namespace Stack

/-- A capacity whose node indices are 32-bit values other than the null
index. -/
structure Capacity where
  val : ℕ
  pos : 1 ≤ val
  le : val ≤ 2 ^ 32 - 1

variable {ι T : Type*}

/-! ## Lists and counts in the history -/

/-- The head a successful compare-exchange has moved. -/
def Event.cas : Event T → Option Target
  | .take _ => some .free
  | .give _ _ => some .free
  | .link _ _ => some .data
  | .unlink _ => some .data
  | _ => none

/-- What an event does to the nodes on a list. -/
def Event.edit : Event T → Target → List ℕ → List ℕ
  | .take _, .free, L => L.tail
  | .give node _, .free, L => node :: L
  | .link node _, .data, L => node :: L
  | .unlink _, .data, L => L.tail
  | _, _, L => L

/-- What an event does to the abstract stack of values. -/
def Event.apply : Event T → List T → List T
  | .link _ value, s => value :: s
  | .unlink _, s => s.tail
  | _, s => s

/-- The successful compare-exchanges on a head. -/
def casCount (w : Target) (H : List (ι × Event T)) : ℕ :=
  H.countP fun e => decide (e.2.cas = some w)

/-- The nodes on a list after the events so far, top first. At the start all
nodes are free. -/
def members (C : Capacity) (H : List (ι × Event T)) (w : Target) : List ℕ :=
  H.foldl (fun L e => e.2.edit w L)
    (match w with
      | .data => []
      | .free => List.range C.val)

/-- The abstract stack after the events so far, top first. -/
def stack (H : List (ι × Event T)) : List T :=
  H.foldl (fun s e => e.2.apply s) []

@[simp] theorem casCount_append (w : Target) (H K : List (ι × Event T)) :
    casCount w (H ++ K) = casCount w H + casCount w K := by
  simp [casCount]

theorem casCount_le {w : Target} {H K : List (ι × Event T)} (h : H <+: K) :
    casCount w H ≤ casCount w K := by
  obtain ⟨L, rfl⟩ := h
  simp

@[simp] theorem members_concat (C : Capacity) (H : List (ι × Event T)) (w : Target)
    (p : ι) (e : Event T) :
    members C (H ++ [(p, e)]) w = e.edit w (members C H w) := by
  simp [members]

@[simp] theorem stack_concat (H : List (ι × Event T)) (p : ι) (e : Event T) :
    stack (H ++ [(p, e)]) = e.apply (stack H) := by
  simp [stack]

@[simp] theorem Call.cas_won (call : Call T) (node : ℕ) :
    (call.won node).cas = some call.source := by
  cases call <;> rfl

@[simp] theorem Rest.cas_won (rest : Rest T) (node : ℕ) :
    (rest.won node).cas = some rest.target := by
  cases rest <;> rfl

@[simp] theorem Call.edit_won (call : Call T) (node : ℕ) (L : List ℕ) :
    (call.won node).edit call.source L = L.tail := by
  cases call <;> rfl

@[simp] theorem Rest.edit_won (rest : Rest T) (node : ℕ) (L : List ℕ) :
    (rest.won node).edit rest.target L = node :: L := by
  cases rest <;> rfl

theorem Event.edit_of_ne {e : Event T} {w : Target} (h : e.cas ≠ some w) (L : List ℕ) :
    e.edit w L = L := by
  cases e <;> cases w <;> first | rfl | exact absurd rfl h

theorem Event.apply_of_cas_none {e : Event T} (h : e.cas = none) (s : List T) :
    e.apply s = s := by
  cases e <;> first | rfl | cases h

/-- Events without an exchange change neither lists, nor counts, nor the
abstract stack. -/
theorem append_quiet {C : Capacity} {H : List (ι × Event T)} {p : ι}
    {ev : Option (Event T)} (hev : ∀ e ∈ ev, e.cas = none) :
    members C (H ++ (ev.map (Prod.mk p)).toList) = members C H
      ∧ (∀ w, casCount w (H ++ (ev.map (Prod.mk p)).toList) = casCount w H)
      ∧ stack (H ++ (ev.map (Prod.mk p)).toList) = stack H := by
  cases ev with
  | none => simp
  | some e =>
      have hcas : e.cas = none := hev e rfl
      refine ⟨funext fun w => ?_, fun w => ?_, ?_⟩
      · exact (members_concat C H w p e).trans (Event.edit_of_ne (by simp [hcas]) _)
      · simp [casCount, hcas]
      · exact (stack_concat H p e).trans (Event.apply_of_cas_none hcas _)

/-! ## Custody of the nodes -/

/-- Who has a node: one of the lists, or an operation in flight. -/
inductive Holder (ι : Type*) where
  | list (w : Target)
  | thread (p : ι)

def holdings (L : Target → List ℕ) (pc : ι → PC T) : Holder ι → List ℕ
  | .list w => L w
  | .thread p => (pc p).holding.toList

section Holdings

variable [DecidableEq ι] {L L' : Target → List ℕ} {pc : ι → PC T} {p : ι} {v : PC T}

theorem holdings_update_self :
    holdings L (Function.update pc p v) (.thread p) = v.holding.toList := by
  simp [holdings]

/-- Only the thread that moved and the list it exchanged have changed. -/
theorem holdings_update_of_ne {w : Target} (hL : ∀ w', w' ≠ w → L' w' = L w')
    {a : Holder ι} (haw : a ≠ .list w) (hap : a ≠ .thread p) :
    holdings L' (Function.update pc p v) a = holdings L pc a := by
  cases a with
  | list w' => exact hL w' fun e => haw (e ▸ rfl)
  | thread q =>
      have hqp : q ≠ p := fun e => hap (e ▸ rfl)
      simp [holdings, Function.update_of_ne hqp]

theorem holdings_update_eq (hv : v.holding = (pc p).holding) :
    holdings L (Function.update pc p v) = holdings L pc := by
  funext a
  cases a with
  | list w => rfl
  | thread q =>
      by_cases hqp : q = p
      · subst hqp
        simp [holdings, hv]
      · simp [holdings, Function.update_of_ne hqp]

end Holdings

/-! ## Local values -/

/-- The events that move a call on, as opposed to reads of a head. -/
def Event.decisive : Event T → Prop
  | .observe _ => False
  | _ => True

/-- What thread `p` knows about the word it expects on head `w`: its index is
a node, its tag is that of the moment it was read, and while the head has
not been exchanged it is current and `still` holds. -/
def Expects (C : Capacity) (m : Mem T) (H : List (ι × Event T)) (p : ι) (w : Target)
    (raw : ℕ) (still : Prop) : Prop :=
  (unpack raw).index < C.val ∧ ∃ H₁, Latest (fun _ => True) p (.observe w) H₁ H
    ∧ (unpack raw).tag = wrap 32 (casCount w H₁)
    ∧ (casCount w H₁ = casCount w H → m.heads w = raw ∧ still)

/-- What a call holding a node has of it: a push has written its value, a
pop has got what was on top of the abstract stack when it took the node. -/
def Carries (m : Mem T) (H : List (ι × Event T)) (p : ι) (node : ℕ) : Rest T → Prop
  | .push value => m.data node = value
  | .pop item => ∃ H₁, Latest Event.decisive p (.unlink node) H₁ H
      ∧ (stack H₁).head? = some item

def Local (C : Capacity) (m : Mem T) (H : List (ι × Event T)) (p : ι) : PC T → Prop
  | .popNext call raw => Expects C m H p call.source raw True
  | .popCas call raw next =>
      Expects C m H p call.source raw (m.next (unpack raw).index = next)
  | .read node => Carries m H p node (.pop (m.data node))
  | .pushLoad rest node => Carries m H p node rest
  | .pushNext rest node _ => Carries m H p node rest
  | .pushCas rest node raw =>
      Carries m H p node rest ∧ m.next node = (unpack raw).index
  | _ => True

/-! ## The invariant -/

structure Inv (C : Capacity) (c : Config ι (Mem T) (PC T))
    (H : List (ι × Event T)) : Prop where
  custody : Custody (· < C.val) (holdings (members C H) c.pc)
  chain : ∀ w, Chain c.mem.next nullIndex ((members C H w).headD nullIndex)
    (members C H w)
  word : ∀ w, c.mem.heads w
    = pack ((members C H w).headD nullIndex) (wrap 32 (casCount w H))
  values : (members C H .data).map c.mem.data = stack H
  threads : ∀ p, Local C c.mem H p (c.pc p)

namespace Inv

variable {C : Capacity} {c : Config ι (Mem T) (PC T)} {H : List (ι × Event T)}

theorem mem_lt (h : Inv C c H) {w : Target} {x : ℕ} (hx : x ∈ members C H w) :
    x < C.val :=
  h.custody.token (a := .list w) hx

theorem holding_lt (h : Inv C c H) {p : ι} {x : ℕ} (hx : (c.pc p).holding = some x) :
    x < C.val :=
  h.custody.token (a := .thread p) (by simp [holdings, hx])

theorem not_mem_of_holding (h : Inv C c H) {p : ι} {x : ℕ}
    (hx : (c.pc p).holding = some x) (w : Target) : x ∉ members C H w :=
  h.custody.not_mem (a := .thread p) (b := .list w) (by simp [holdings, hx]) nofun

theorem holding_ne (h : Inv C c H) {p q : ι} {x y : ℕ} (hp : (c.pc p).holding = some x)
    (hq : (c.pc q).holding = some y) (hqp : q ≠ p) : y ≠ x := by
  rintro rfl
  refine h.custody.not_mem (a := .thread p) (b := .thread q) (x := y) ?_ ?_ ?_
  · simp [holdings, hp]
  · simpa using hqp
  · simp [holdings, hq]

theorem headD_lt (h : Inv C c H) (w : Target) :
    (members C H w).headD nullIndex < 2 ^ 32 := by
  have hC := C.le
  cases hL : members C H w with
  | nil => simp [nullIndex]
  | cons x L =>
      have := h.mem_lt (w := w) (x := x) (by simp [hL])
      simp only [List.headD_cons]
      omega

theorem unpack_word (h : Inv C c H) (w : Target) :
    unpack (c.mem.heads w)
      = ⟨(members C H w).headD nullIndex, wrap 32 (casCount w H)⟩ := by
  rw [h.word w, unpack_pack (h.headD_lt w) (wrap_lt 32 _)]

/-- A head whose index is a node has that node on top. -/
theorem members_eq_cons (h : Inv C c H) {w : Target}
    (hlt : (unpack (c.mem.heads w)).index ≠ nullIndex) :
    ∃ L, members C H w = (unpack (c.mem.heads w)).index :: L
      ∧ Chain c.mem.next nullIndex (c.mem.next (unpack (c.mem.heads w)).index) L := by
  rw [h.unpack_word w] at hlt ⊢
  exact (h.chain w).exists_cons hlt

end Inv

/-! ## What a step leaves alone -/

/-- The shared state outside the node a thread holds and the head its event
exchanges. -/
structure Frame (m m' : Mem T) (pc : PC T) (ev : Option (Event T)) : Prop where
  heads : ∀ w, (∀ e ∈ ev, e.cas ≠ some w) → m'.heads w = m.heads w
  next : ∀ x, pc.holding ≠ some x → m'.next x = m.next x
  data : ∀ x, pc.holding ≠ some x → m'.data x = m.data x

theorem update_of_holding {β : Type*} {f : ℕ → β} {i : ℕ} {v : β} {pc : PC T}
    (hi : pc.holding = some i) (x : ℕ) (hx : pc.holding ≠ some x) :
    Function.update f i v x = f x := by
  have hne : x ≠ i := by
    rintro rfl
    exact hx hi
  exact Function.update_of_ne hne _ _

theorem Frame.setHead (m : Mem T) (pc : PC T) {w : Target} (raw : ℕ) {e : Event T}
    (he : e.cas = some w) : Frame m (m.setHead w raw) pc (some e) := by
  refine ⟨fun w' hw' => ?_, fun _ _ => rfl, fun _ _ => rfl⟩
  have hne : w' ≠ w := by
    rintro rfl
    exact hw' e rfl he
  exact Function.update_of_ne hne _ _

theorem Effect.frame {moved : T → T} {m m' : Mem T} {pc pc' : PC T}
    {ev : Option (Event T)} (he : Effect moved m pc m' pc' ev) : Frame m m' pc ev := by
  cases he with
  | stay | start | refuse | popObserve | popNext | pushObserve =>
      exact ⟨fun _ _ => rfl, fun _ _ => rfl, fun _ _ => rfl⟩
  | popWin call next => exact Frame.setHead m _ _ (call.cas_won _)
  | pushWin rest node => exact Frame.setHead m _ _ (rest.cas_won _)
  | write value node => exact ⟨fun _ _ => rfl, fun _ _ => rfl, update_of_holding rfl⟩
  | read node => exact ⟨fun _ _ => rfl, fun _ _ => rfl, update_of_holding rfl⟩
  | pushNext rest node raw => exact ⟨fun _ _ => rfl, update_of_holding rfl, fun _ _ => rfl⟩

theorem Expects.append {C : Capacity} {m m' : Mem T} {H K : List (ι × Event T)} {p : ι}
    {w : Target} {raw : ℕ} {still still' : Prop} (h : Expects C m H p w raw still)
    (hlatest : ∀ {e H₁}, Latest (fun _ => True) p e H₁ H →
      Latest (fun _ => True) p e H₁ (H ++ K))
    (hheads : casCount w K = 0 → m'.heads w = m.heads w)
    (hstill : m.heads w = raw → still → still') :
    Expects C m' (H ++ K) p w raw still' := by
  obtain ⟨hlt, H₁, hl, htag, hcur⟩ := h
  refine ⟨hlt, H₁, hlatest hl, htag, fun heq => ?_⟩
  have hle := casCount_le (w := w) hl.prefix_of
  rw [casCount_append] at heq
  obtain ⟨hraw, hs⟩ := hcur (by omega)
  exact ⟨(hheads (by omega)).trans hraw, hstill hraw hs⟩

theorem Carries.append_ne {m m' : Mem T} {H : List (ι × Event T)} {p q : ι} {node : ℕ}
    {rest : Rest T} (h : Carries m H q node rest) (hqp : q ≠ p) (ev : Option (Event T))
    (hdata : m'.data node = m.data node) :
    Carries m' (H ++ (ev.map (Prod.mk p)).toList) q node rest := by
  cases rest with
  | push value => exact hdata.trans h
  | pop item =>
      obtain ⟨H₁, hl, htop⟩ := h
      exact ⟨H₁, hl.append_ne hqp ev, htop⟩

namespace Inv

variable {C : Capacity} {c : Config ι (Mem T) (PC T)} {H : List (ι × Event T)}

/-- A step of one thread leaves what the others know intact. -/
theorem others (h : Inv C c H) {p q : ι} (hqp : q ≠ p) {m : Mem T}
    {ev : Option (Event T)} (hf : Frame c.mem m (c.pc p) ev) :
    Local C m (H ++ (ev.map (Prod.mk p)).toList) q (c.pc q) := by
  have hloc := h.threads q
  have hheads : ∀ w, casCount w (ev.map (Prod.mk p)).toList = 0 →
      m.heads w = c.mem.heads w := by
    intro w hw
    refine hf.heads w fun e he hcas => ?_
    rw [Option.mem_def.mp he] at hw
    simp [casCount, hcas] at hw
  have hheld : ∀ {x}, (c.pc q).holding = some x → (c.pc p).holding ≠ some x :=
    fun hx hp => h.holding_ne hp hx hqp rfl
  generalize hpc : c.pc q = pc at hloc hheld
  cases pc with
  | idle => trivial
  | popLoad call => trivial
  | write value node => trivial
  | popNext call raw =>
      exact Expects.append hloc (fun hl => hl.append_ne hqp ev) (hheads _)
        fun _ _ => trivial
  | popCas call raw next =>
      refine Expects.append hloc (fun hl => hl.append_ne hqp ev) (hheads _) ?_
      intro hraw hnext
      rw [← hnext]
      refine hf.next _ fun hp => ?_
      -- the expected word is still current, so its node is on the list
      have hlt : (unpack raw).index < C.val := hloc.1
      have hC := C.le
      obtain ⟨L, hL, -⟩ := h.members_eq_cons (w := call.source) (by
        rw [hraw, nullIndex]
        omega)
      refine h.not_mem_of_holding hp call.source ?_
      rw [hL, hraw]
      exact List.mem_cons_self
  | read node =>
      have hdata := hf.data node (hheld rfl)
      have hcar : Carries c.mem H q node (.pop (c.mem.data node)) := hloc
      rw [← hdata] at hcar
      exact hcar.append_ne hqp ev hdata
  | pushLoad rest node =>
      exact Carries.append_ne hloc hqp ev (hf.data node (hheld rfl))
  | pushNext rest node raw =>
      exact Carries.append_ne hloc hqp ev (hf.data node (hheld rfl))
  | pushCas rest node raw =>
      exact ⟨hloc.1.append_ne hqp ev (hf.data node (hheld rfl)),
        (hf.next node (hheld rfl)).trans hloc.2⟩

theorem chain_frame (h : Inv C c H) {p : ι} {m : Mem T} {ev : Option (Event T)}
    (hf : Frame c.mem m (c.pc p) ev) (w : Target) :
    Chain m.next nullIndex ((members C H w).headD nullIndex) (members C H w) :=
  (h.chain w).congr fun x hx =>
    hf.next x fun hp => h.not_mem_of_holding hp w hx

theorem values_frame (h : Inv C c H) {p : ι} {m : Mem T} {ev : Option (Event T)}
    (hf : Frame c.mem m (c.pc p) ev) : (members C H .data).map m.data = stack H := by
  rw [← h.values]
  refine List.map_congr_left fun x hx => ?_
  exact hf.data x fun hp => h.not_mem_of_holding hp .data hx

/-- Own reads of a head: the word is current, and it is the latest event. -/
theorem expects_self (h : Inv C c H) {w : Target}
    (hnull : (unpack (c.mem.heads w)).index ≠ nullIndex) (p : ι) :
    Expects C c.mem (H ++ [(p, .observe w)]) p w (c.mem.heads w) True := by
  obtain ⟨L, hL, -⟩ := h.members_eq_cons hnull
  refine ⟨h.mem_lt (w := w) ?_, H, Latest.self _ _ _ H, ?_, fun _ => ⟨rfl, trivial⟩⟩
  · rw [hL]
    exact List.mem_cons_self
  · rw [h.unpack_word]

variable [DecidableEq ι]

/-- Assembling the invariant after a step of thread `p`. -/
theorem update (h : Inv C c H) {p : ι} {m : Mem T} {pc : PC T} {ev : Option (Event T)}
    (hf : Frame c.mem m (c.pc p) ev)
    (hcustody : Custody (· < C.val)
      (holdings (members C (H ++ (ev.map (Prod.mk p)).toList)) (Function.update c.pc p pc)))
    (hlists : ∀ w, Chain m.next nullIndex
          ((members C (H ++ (ev.map (Prod.mk p)).toList) w).headD nullIndex)
          (members C (H ++ (ev.map (Prod.mk p)).toList) w)
        ∧ m.heads w = pack
          ((members C (H ++ (ev.map (Prod.mk p)).toList) w).headD nullIndex)
          (wrap 32 (casCount w (H ++ (ev.map (Prod.mk p)).toList))))
    (hvalues : (members C (H ++ (ev.map (Prod.mk p)).toList) .data).map m.data
      = stack (H ++ (ev.map (Prod.mk p)).toList))
    (hloc : Local C m (H ++ (ev.map (Prod.mk p)).toList) p pc) :
    Inv C ⟨m, Function.update c.pc p pc⟩ (H ++ (ev.map (Prod.mk p)).toList) where
  custody := hcustody
  chain := fun w => (hlists w).1
  word := fun w => (hlists w).2
  values := hvalues
  threads := (Function.forall_update_iff c.pc fun q pc => Local C m _ q pc).mpr
    ⟨hloc, fun _ hqp => h.others hqp hf⟩

/-- A step that exchanges no head and takes or gives no node. -/
theorem quiet (h : Inv C c H) {p : ι} {m : Mem T} {pc : PC T} {ev : Option (Event T)}
    (hf : Frame c.mem m (c.pc p) ev) (hev : ∀ e ∈ ev, e.cas = none)
    (hhold : pc.holding = (c.pc p).holding)
    (hloc : Local C m (H ++ (ev.map (Prod.mk p)).toList) p pc) :
    Inv C ⟨m, Function.update c.pc p pc⟩ (H ++ (ev.map (Prod.mk p)).toList) := by
  obtain ⟨hmem, hcount, hstack⟩ := append_quiet (C := C) (H := H) (p := p) hev
  refine h.update hf ?_ (fun w => ?_) ?_ hloc <;> rw [hmem]
  · rw [holdings_update_eq hhold]
    exact h.custody
  · refine ⟨h.chain_frame hf w, ?_⟩
    rw [hcount, hf.heads w fun e he => by simp [hev e he]]
    exact h.word w
  · rw [hstack]
    exact h.values_frame hf

/-- A successful compare-exchange: what has to be shown of the list it
changes and of the thread that performed it. -/
theorem exchange (h : Inv C c H) {p : ι} {w : Target} {e : Event T} {pc : PC T} {i : ℕ}
    (hcas : e.cas = some w)
    (hchain : Chain c.mem.next nullIndex i (e.edit w (members C H w)))
    (hperm : (e.edit w (members C H w) ++ pc.holding.toList).Perm
      (members C H w ++ (c.pc p).holding.toList))
    (hvalues : (e.edit .data (members C H .data)).map c.mem.data = e.apply (stack H))
    (hloc : Local C
      (c.mem.setHead w (pack i (wrap 32 ((unpack (c.mem.heads w)).tag + 1))))
      (H ++ [(p, e)]) p pc) :
    Inv C ⟨c.mem.setHead w (pack i (wrap 32 ((unpack (c.mem.heads w)).tag + 1))),
      Function.update c.pc p pc⟩ (H ++ [(p, e)]) := by
  have hf : Frame c.mem
      (c.mem.setHead w (pack i (wrap 32 ((unpack (c.mem.heads w)).tag + 1))))
      (c.pc p) (some e) := Frame.setHead _ _ _ hcas
  have hmem : members C (H ++ ((some e).map (Prod.mk p)).toList)
      = fun w' => e.edit w' (members C H w') :=
    funext fun w' => members_concat C H w' p e
  have hoff : ∀ w', w' ≠ w → e.edit w' (members C H w') = members C H w' :=
    fun w' hw' => Event.edit_of_ne (by rw [hcas]; simpa using hw'.symm) _
  refine h.update hf ?_ (fun w' => ?_) ?_ hloc <;> rw [hmem]
  · refine h.custody.move (a := .list w) (b := .thread p) nofun
      (fun k hkw hkp => holdings_update_of_ne hoff hkw hkp) ?_
    rw [holdings_update_self]
    exact hperm
  · by_cases hw : w' = w
    · subst hw
      rw [← hchain.start_eq]
      refine ⟨hchain, ?_⟩
      simp [Mem.setHead, h.unpack_word, wrap_wrap_add, casCount, hcas]
    · simp only [hoff w' hw]
      refine ⟨h.chain w', ?_⟩
      rw [hf.heads w' (by simpa [hcas] using Ne.symm hw), h.word w']
      simp [casCount, hcas, Ne.symm hw]
  · exact hvalues.trans (stack_concat H p e).symm

/-- A thread takes the top node off a list. -/
theorem popWin (h : Inv C c H) {p : ι} {call : Call T} {next : ℕ}
    (hpc : c.pc p = .popCas call (c.mem.heads call.source) next)
    (hfresh : ∀ H₁, Latest (fun _ => True) p (.observe call.source) H₁ H →
      casCount call.source H < casCount call.source H₁ + 2 ^ 32) :
    Inv C ⟨c.mem.setHead call.source
        (pack next (wrap 32 ((unpack (c.mem.heads call.source)).tag + 1))),
      Function.update c.pc p (call.resume (unpack (c.mem.heads call.source)).index)⟩
      (H ++ [(p, call.won (unpack (c.mem.heads call.source)).index)]) := by
  have hloc := h.threads p
  rw [hpc] at hloc
  obtain ⟨hlt, H₁, hlatest, htag, hcur⟩ := hloc
  have hC := C.le
  obtain ⟨L, hL, hchain⟩ := h.members_eq_cons (w := call.source) (by
    rw [nullIndex]
    omega)
  -- the tag tells that nothing was exchanged since the word was read
  have hcount : casCount call.source H₁ = casCount call.source H := by
    rw [h.unpack_word] at htag
    exact wrap_inj htag.symm (casCount_le hlatest.prefix_of) (hfresh H₁ hlatest)
  have hnext := (hcur hcount).2
  refine h.exchange (call.cas_won _) ?_ ?_ ?_ ?_
  · rw [Call.edit_won, hL, List.tail_cons, ← hnext]
    exact hchain
  · have hheld : ∀ node, (call.resume node).holding.toList = [node] := by
      cases call <;> exact fun _ => rfl
    rw [Call.edit_won, hL, hheld, hpc]
    simp [PC.holding]
  · cases call with
    | push value => exact h.values
    | pop => exact List.map_tail.trans (congrArg List.tail h.values)
  · cases call with
    | push value => trivial
    | pop =>
        refine ⟨H, Latest.self _ _ _ H, ?_⟩
        have hL' : members C H .data = _ := hL
        rw [← h.values, hL']
        rfl

/-- A thread puts the node it holds on top of a list. -/
theorem pushWin (h : Inv C c H) {p : ι} {rest : Rest T} {node : ℕ}
    (hpc : c.pc p = .pushCas rest node (c.mem.heads rest.target)) :
    Inv C ⟨c.mem.setHead rest.target
        (pack node (wrap 32 ((unpack (c.mem.heads rest.target)).tag + 1))),
      Function.update c.pc p .idle⟩ (H ++ [(p, rest.won node)]) := by
  have hloc := h.threads p
  rw [hpc] at hloc
  obtain ⟨hcarry, hnext⟩ := hloc
  have hC := C.le
  have hlt := h.holding_lt (p := p) (x := node) (by rw [hpc]; rfl)
  refine h.exchange (rest.cas_won _) ?_ ?_ ?_ trivial
  · rw [Rest.edit_won]
    refine ⟨rfl, ?_, ?_⟩
    · rw [nullIndex]
      omega
    · rw [hnext, h.unpack_word]
      exact h.chain rest.target
  · rw [Rest.edit_won, hpc]
    simpa [PC.holding] using (List.perm_append_singleton node _).symm
  · cases rest with
    | push value =>
        have hvalue : c.mem.data node = value := hcarry
        simp [Rest.won, Event.edit, Event.apply, h.values, hvalue]
    | pop item => exact h.values

end Inv

theorem Carries.observe {m : Mem T} {H : List (ι × Event T)} {p : ι} {node : ℕ}
    {rest : Rest T} (h : Carries m H p node rest) (w : Target) :
    Carries m (H ++ [(p, .observe w)]) p node rest := by
  cases rest with
  | push value => exact h
  | pop item =>
      obtain ⟨H₁, hl, htop⟩ := h
      refine ⟨H₁, hl.append fun e he => ?_, htop⟩
      rw [List.mem_singleton, Prod.mk.injEq] at he
      rw [he.2]
      exact id

theorem Local.carries_of_pushing {C : Capacity} {m : Mem T} {H : List (ι × Event T)}
    {p : ι} {pc : PC T} {rest : Rest T} {node : ℕ} (h : Local C m H p pc)
    (hpc : pc.pushing = some (rest, node)) : Carries m H p node rest := by
  cases pc with
  | pushLoad rest' node' =>
      obtain ⟨rfl, rfl⟩ := Prod.mk.inj (Option.some.inj hpc)
      exact h
  | pushCas rest' node' raw =>
      obtain ⟨rfl, rfl⟩ := Prod.mk.inj (Option.some.inj hpc)
      exact h.1
  | _ => cases hpc

theorem PC.holding_of_popping {pc : PC T} {call : Call T} (h : pc.popping = some call) :
    pc.holding = none := by
  cases pc <;> first | rfl | cases h

theorem PC.holding_of_pushing {pc : PC T} {rest : Rest T} {node : ℕ}
    (h : pc.pushing = some (rest, node)) : pc.holding = some node := by
  cases pc <;> cases h <;> rfl

theorem Inv.step [DecidableEq ι] {C : Capacity} {c : Config ι (Mem T) (PC T)}
    {H : List (ι × Event T)} {moved : T → T} {p : ι} {m : Mem T} {pc : PC T}
    {ev : Option (Event T)} (h : Inv C c H) (he : Effect moved c.mem (c.pc p) m pc ev)
    (hfresh : ∀ e ∈ ev, ∀ w H₁, e.cas = some w →
      Latest (fun _ => True) p (.observe w) H₁ H →
        casCount w H < casCount w H₁ + 2 ^ 32) :
    Inv C ⟨m, Function.update c.pc p pc⟩ (H ++ (ev.map (Prod.mk p)).toList) := by
  have hf := he.frame
  have hloc := h.threads p
  generalize hpc : c.pc p = pc₀ at he hloc
  cases he with
  | stay => exact h.quiet hf nofun (by rw [hpc]) (by simpa using hloc)
  | start call => exact h.quiet hf nofun (by rw [hpc]; rfl) trivial
  | refuse pc call hpop hnull =>
      refine h.quiet hf (by simp [Event.cas]) ?_ trivial
      rw [hpc, PC.holding_of_popping hpop]
      rfl
  | popObserve pc call hpop hnull =>
      refine h.quiet hf (by simp [Event.cas]) ?_ (h.expects_self hnull p)
      rw [hpc, PC.holding_of_popping hpop]
      rfl
  | popNext call raw =>
      refine h.quiet hf nofun (by rw [hpc]; rfl) ?_
      exact Expects.append hloc (fun hl => hl.append nofun) (fun _ => rfl) fun _ _ => rfl
  | popWin call next =>
      exact h.popWin hpc fun H₁ => hfresh _ rfl _ H₁ (call.cas_won _)
  | write value node =>
      refine h.quiet hf nofun (by rw [hpc]; rfl) ?_
      exact Function.update_self _ _ _
  | read node =>
      refine h.quiet hf nofun (by rw [hpc]; rfl) ?_
      simp only [Option.map_none, Option.toList_none, List.append_nil]
      exact hloc
  | pushObserve pc rest node hpush =>
      refine h.quiet hf (by simp [Event.cas]) ?_ ?_
      · rw [hpc, PC.holding_of_pushing hpush]
        rfl
      · exact (hloc.carries_of_pushing hpush).observe _
  | pushNext rest node raw =>
      refine h.quiet hf nofun (by rw [hpc]; rfl) ?_
      simp only [Option.map_none, Option.toList_none, List.append_nil]
      refine ⟨?_, Function.update_self _ _ _⟩
      cases rest <;> exact hloc
  | pushWin rest node => exact h.pushWin hpc

/-! ## The constructor -/

theorem foldl_update_range {g f : ℕ → ℕ} (n i : ℕ) :
    (List.range n).foldl (fun f i => Function.update f i (g i)) f i
      = if i < n then g i else f i := by
  induction n with
  | zero => simp
  | succ n ih =>
      rw [List.range_succ, List.foldl_append, List.foldl_cons, List.foldl_nil]
      by_cases hi : i = n
      · simp [hi]
      · rw [Function.update_of_ne hi, ih]
        simp only [show i < n + 1 ↔ i < n by omega]

/-- The loop links each node to the following one, and the store after it
ends the list. -/
theorem initMem_next (C : Capacity) (data : ℕ → T) {i : ℕ} (hi : i < C.val) :
    (initMem C.val data).next i = if i + 1 < C.val then i + 1 else nullIndex := by
  have hpos := C.pos
  have hle := C.le
  have hlast : wrap 64 (C.val + (2 ^ 64 - 1)) = C.val - 1 := by
    unfold wrap
    omega
  simp only [initMem, constructorStores, hlast, List.foldl_append, List.foldl_map,
    List.foldl_cons, List.foldl_nil]
  by_cases hc : i = C.val - 1
  · rw [hc, Function.update_self, if_neg (by omega)]
  · rw [Function.update_of_ne hc, foldl_update_range, if_pos (by omega), if_pos (by omega)]
    exact wrap_of_lt (by omega)

theorem initMem_chain (C : Capacity) (data : ℕ → T) (n k : ℕ) (hk : k + n = C.val) :
    Chain (initMem C.val data).next nullIndex ((List.range' k n).headD nullIndex)
      (List.range' k n) := by
  have hle := C.le
  induction n generalizing k with
  | zero => rfl
  | succ n ih =>
      rw [List.range'_succ, List.headD_cons]
      refine ⟨rfl, by rw [nullIndex]; omega, ?_⟩
      convert ih (k + 1) (by omega) using 1
      rw [initMem_next C data (by omega)]
      cases n with
      | zero => simp [show ¬ (k + 1 < C.val) by omega]
      | succ n => simp [List.range'_succ, show k + 1 < C.val by omega]

theorem Inv.initial (C : Capacity) (data : ℕ → T) :
    Inv C (⟨initMem C.val data, fun _ => .idle⟩ : Config ι (Mem T) (PC T)) [] := by
  have hpos := C.pos
  refine ⟨⟨?_, ?_, ?_⟩, ?_, ?_, rfl, fun _ => trivial⟩
  · rintro ((_ | _) | p)
    · exact List.nodup_nil
    · exact List.nodup_range
    · exact List.nodup_nil
  · rintro ((_ | _) | p) ((_ | _) | q) x hx hy <;>
      simp_all [holdings, members, PC.holding]
  · intro x
    constructor
    · exact fun hx => ⟨.list .free, List.mem_range.mpr hx⟩
    · rintro ⟨(_ | _) | p, hx⟩
      · simp [holdings, members] at hx
      · exact List.mem_range.mp hx
      · simp [holdings, PC.holding] at hx
  · rintro (_ | _)
    · rfl
    · simpa [members, List.range_eq_range'] using initMem_chain C data C.val 0 (by omega)
  · rintro (_ | _)
    · rfl
    · have hhead : (List.range C.val).headD nullIndex = 0 := by
        rw [List.range_eq_range', show C.val = C.val - 1 + 1 by omega, List.range'_succ]
        rfl
      change pack 0 0 = pack ((List.range C.val).headD nullIndex) 0
      rw [hhead]

/-! ## Runs -/

/-- Between a thread's latest read of a head and its successful
compare-exchange with that word, fewer than `2 ^ 32` exchanges succeed. -/
def TagsDistinct [DecidableEq ι] (S : System ι (Mem T) (PC T) (Choice (Call T)) (Event T))
    (sched : ℕ → ι × Choice (Call T)) (n : ℕ) : Prop :=
  ∀ i, i < n → ∀ p e w H₁, S.Fires sched i p e → e.cas = some w →
    Latest (fun _ => True) p (.observe w) H₁ (S.history sched i) →
      casCount w (S.history sched i) < casCount w H₁ + 2 ^ 32

/-- No run shorter than `2 ^ 32` steps can repeat a tag. -/
theorem tagsDistinct_of_lt [DecidableEq ι]
    (S : System ι (Mem T) (PC T) (Choice (Call T)) (Event T))
    (sched : ℕ → ι × Choice (Call T)) {n : ℕ} (hn : n < 2 ^ 32) : TagsDistinct S sched n := by
  intro i hi p e w H₁ _ _ _
  have h1 : casCount w (S.history sched i) ≤ (S.history sched i).length :=
    List.countP_le_length
  have h2 := S.length_history_le sched i
  omega

theorem inv_run [DecidableEq ι] {C : Capacity} {moved : T → T} {data : ℕ → T}
    {sched : ℕ → ι × Choice (Call T)} {n : ℕ}
    (hn : TagsDistinct (system moved ι C.val data) sched n) :
    Inv C ((system moved ι C.val data).run sched n)
      ((system moved ι C.val data).history sched n) := by
  refine (system moved ι C.val data).invariant_of_guard
    (G := fun c H a => ∀ e ∈ ((system moved ι C.val data).outcome c a).event, ∀ w H₁,
      e.cas = some w → Latest (fun _ => True) a.1 (.observe w) H₁ H →
        casCount w H < casCount w H₁ + 2 ^ 32)
    (Inv.initial C data) (fun c H a hg h => h.step (prog_effect _ _ _) hg) ?_
  exact fun i hi e he w H₁ hcas => hn i hi _ e w H₁ ⟨rfl, he⟩ hcas

/-! ## Node ownership -/

/-- The node whose `next` the next step of `pop_index` loads. -/
def PC.dereferencing : PC T → Option ℕ
  | .popNext _ raw => some (unpack raw).index
  | _ => none

/-- In every state of every run whose tags stay distinct, following `next`
from `head_` and from `free_head_` visits two lists without repetition and
disjoint from each other, every node is on exactly one of them or held by
exactly one operation in flight, and `pop_index` dereferences nodes only. -/
theorem node_ownership [DecidableEq ι] (C : Capacity) (moved : T → T) (data : ℕ → T)
    (sched : ℕ → ι × Choice (Call T)) (n : ℕ)
    (hn : TagsDistinct (system moved ι C.val data) sched n) :
    let c := (system moved ι C.val data).run sched n
    (∃ L : Target → List ℕ,
        (∀ w, Chain c.mem.next nullIndex (unpack (c.mem.heads w)).index (L w)
          ∧ (L w).Nodup)
        ∧ (L .data).Disjoint (L .free)
        ∧ (∀ i, i < C.val → ∃! a : Holder ι, i ∈ holdings L c.pc a)
        ∧ ∀ a, ∀ i ∈ holdings L c.pc a, i < C.val)
      ∧ ∀ p i, (c.pc p).dereferencing = some i → i < C.val := by
  intro c
  have h : Inv C c _ := inv_run hn
  refine ⟨⟨_, fun w => ⟨?_, h.custody.nodup (.list w)⟩, ?_,
    fun i => h.custody.existsUnique, fun a i => h.custody.token⟩, ?_⟩
  · rw [h.unpack_word]
    exact h.chain w
  · intro x hD hF
    cases h.custody.unique (h := .list .data) (k := .list .free) hD hF
  · intro p i hi
    have hloc := h.threads p
    generalize c.pc p = pc at hi hloc
    cases pc with
    | popNext call raw =>
        rw [← Option.some.inj hi]
        exact hloc.1
    | _ => cases hi

/-- A stack of two nodes. -/
def twoNodes : Capacity := ⟨2, Nat.two_pos, by decide⟩

/-- One thread stalls in `pop_index(free_head_)` between its load of `next`
and its compare-exchange, while another pushes and pops a value, so that the
same node is on top of the free list again. -/
def stalledPop : ℕ → Bool × Choice (Call ℕ) := fun i =>
  [(true, .call (.push 8)), (true, .go), (true, .go),
    (false, .call (.push 7)), (false, .go), (false, .go), (false, .go), (false, .go),
    (false, .go), (false, .go), (false, .go),
    (false, .call .pop), (false, .go), (false, .go), (false, .go), (false, .go),
    (false, .go), (false, .go), (false, .go)].getD i (true, .go)

/-- The tag makes the stalled exchange fail, and the run ends with the thread
holding the new head word, about to dereference node 0. -/
theorem node_ownership_stalledPop :
    (((system id Bool twoNodes.val fun _ => 0).run stalledPop 19).pc true
        = .popCas (.push 8) (pack 0 0) 1
      ∧ ((system id Bool twoNodes.val fun _ => 0).run stalledPop 20).pc true
        = .popNext (.push 8) (pack 0 2))
      ∧ (∃ L : Target → List ℕ,
        (∀ w, Chain ((system id Bool twoNodes.val fun _ => 0).run stalledPop 20).mem.next
          nullIndex (unpack (((system id Bool twoNodes.val fun _ => 0).run
            stalledPop 20).mem.heads w)).index (L w) ∧ (L w).Nodup)
        ∧ (L .data).Disjoint (L .free)
        ∧ (∀ i, i < twoNodes.val → ∃! a : Holder Bool, i ∈ holdings L
          ((system id Bool twoNodes.val fun _ => 0).run stalledPop 20).pc a)
        ∧ ∀ a, ∀ i ∈ holdings L
          ((system id Bool twoNodes.val fun _ => 0).run stalledPop 20).pc a,
            i < twoNodes.val)
      ∧ ∀ p i, (((system id Bool twoNodes.val fun _ => 0).run
          stalledPop 20).pc p).dereferencing = some i → i < twoNodes.val :=
  ⟨by decide +kernel, node_ownership twoNodes id (fun _ => 0) stalledPop 20
    (tagsDistinct_of_lt _ _ (by decide))⟩

end Stack

end Lockless
