import Velox.Engine.Canonical
import Velox.Ipc.Command

/-!
# The matching thread

Following `runtime/matching_thread.hpp` and `ipc/outbound_event.hpp`: a command is dispatched to
the book, and what happened is published as a list of events. The ring they are published to
never drops one, so here they are returned. The assertions on the buffers are those of a debug
build and are left out.

`OrderBook.apply` is what a command does to the book, whatever buffers the caller hands in; the
thread and the two replay loops each call it with their own.
-/

namespace Velox

/-- A command applied to the book. A kind outside the enumeration is a switch without a case. -/
def OrderBook.apply (b : OrderBook) (kind : UInt8) (cmd : Command) (out : Sinks) :
    Option OrderBook :=
  match CommandKind.ofByte kind with
  | none => some b
  | some k => (b.call (cmd.call k) out).map Prod.snd

inductive UpdateAction where
  | rested
  | cancelled
  | rejected
  | replaced
  deriving DecidableEq, Repr

structure OrderUpdate where
  orderId : Int
  price : Int
  quantity : Int
  remaining : Int
  participant : Int
  seq : Int
  deriving DecidableEq, Repr

inductive OutboundEvent where
  | trade (t : Trade) (globalSeq : Int)
  | status (orderId : Int) (status : SubmitStatus) (globalSeq : Int)
  | orderUpdate (action : UpdateAction) (side : Side) (update : OrderUpdate) (status : SubmitStatus)
      (globalSeq : Int)
  deriving DecidableEq, Repr

def OutboundEvent.globalSeq : OutboundEvent → Int
  | .trade _ seq => seq
  | .status _ _ seq => seq
  | .orderUpdate _ _ _ _ seq => seq

structure MatchingThread where
  book : OrderBook
  dispatchSeq : Int

namespace MatchingThread

def kTradeBufCapacity : Nat := 1024

def publishTrades (out : Sinks) (seq : Int) : List OutboundEvent :=
  out.trades.data.map fun t => .trade t seq

def publishStpVictims (out : Sinks) (seq : Int) : List OutboundEvent :=
  (out.victims.elim [] Buffer.data).map fun v =>
    .orderUpdate .cancelled v.side ⟨v.id, v.price, v.quantity, v.remaining, v.participant, v.seq⟩ .ok
      seq

def resultUpdate (id : Int) (r : OrderResult) : OrderUpdate :=
  ⟨id, r.price, r.quantity, r.remaining, r.participant, r.seq⟩

/-- What became of the order of a new or a replace. -/
def emitOrderUpdate (id : Int) (side : Side) (r : OrderResult) (seq : Int) : OutboundEvent :=
  if r.rested then .orderUpdate .rested r.side (resultUpdate id r) .ok seq
  else .orderUpdate .rejected side (resultUpdate id r) r.status seq

/-- The statuses with which `replace` returns before it has cancelled anything. -/
def rejectedBeforeDispatch (status : SubmitStatus) : Bool :=
  decide (status = .rejectedUnknownOrder ∨ status = .rejectedInvalidQuantity ∨
    status = .rejectedPriceOutOfRange ∨ status = .rejectedDuplicateId)

def dispatch (m : MatchingThread) (cmd : Command) : Option (List OutboundEvent × MatchingThread) :=
  let seq := m.dispatchSeq + 1
  let buffers := Sinks.empty kTradeBufCapacity
  match CommandKind.ofByte cmd.kind with
  | none => some ([], ⟨m.book, seq⟩)
  | some .new => do
    let o := cmd.toNewOrder
    let (r, out, b) ← m.book.submitEx o buffers
    let events := publishTrades out seq ++ publishStpVictims out seq ++
      (if r.status ≠ .ok then [.status cmd.id.toInt r.status seq] else []) ++
      [emitOrderUpdate cmd.id.toInt o.side r seq]
    some (events, ⟨b, seq⟩)
  | some .cancel => do
    let (r, b) ← m.book.cancel cmd.id.toInt
    let events := .status cmd.id.toInt r.status seq ::
      (if r.status = .ok then [.orderUpdate .cancelled r.side (resultUpdate cmd.id.toInt r) .ok seq]
        else [])
    some (events, ⟨b, seq⟩)
  | some .replace => do
    let fresh := { cmd.toNewOrder with id := cmd.newId.toInt }
    let (r, oldResult, out, b) ← m.book.replace cmd.id.toInt fresh buffers
    let old := oldResult.getD {}
    let untouched := rejectedBeforeDispatch r.status
    let events :=
      (if untouched then [] else
        [.orderUpdate .cancelled old.side (resultUpdate cmd.id.toInt old) .ok seq]) ++
      publishTrades out seq ++ publishStpVictims out seq ++
      [.status cmd.newId.toInt r.status seq] ++
      (if untouched then [] else [emitOrderUpdate cmd.newId.toInt fresh.side r seq])
    some (events, ⟨b, seq⟩)

/-- The thread's loop over the commands it finds in the ring. -/
def run (m : MatchingThread) : List Command → Option (List OutboundEvent × MatchingThread)
  | [] => some ([], m)
  | cmd :: cmds => do
    let (events, m) ← m.dispatch cmd
    let (rest, m) ← m.run cmds
    some (events ++ rest, m)

/-- What a dispatch does to the book. -/
theorem dispatch_book (m : MatchingThread) (cmd : Command) :
    (m.dispatch cmd).map (·.2.book) = m.book.apply cmd.kind cmd (Sinks.empty kTradeBufCapacity) := by
  rw [dispatch, OrderBook.apply]
  cases CommandKind.ofByte cmd.kind with
  | none => rfl
  | some k =>
    cases k with
    | new =>
      simp only [Command.call, OrderBook.call]
      cases m.book.submitEx cmd.toNewOrder (Sinks.empty kTradeBufCapacity) <;> rfl
    | cancel =>
      simp only [Command.call, OrderBook.call]
      cases m.book.cancel cmd.id.toInt <;> rfl
    | replace =>
      simp only [Command.call, OrderBook.call]
      cases m.book.replace cmd.id.toInt { cmd.toNewOrder with id := cmd.newId.toInt }
        (Sinks.empty kTradeBufCapacity) <;> rfl

theorem globalSeq_publishTrades {out : Sinks} {seq : Int} :
    ∀ ev ∈ publishTrades out seq, ev.globalSeq = seq := by
  intro ev hev
  obtain ⟨t, -, rfl⟩ := List.mem_map.1 hev
  rfl

theorem globalSeq_publishStpVictims {out : Sinks} {seq : Int} :
    ∀ ev ∈ publishStpVictims out seq, ev.globalSeq = seq := by
  intro ev hev
  obtain ⟨v, -, rfl⟩ := List.mem_map.1 hev
  rfl

theorem globalSeq_emitOrderUpdate (id : Int) (side : Side) (r : OrderResult) (seq : Int) :
    (emitOrderUpdate id side r seq).globalSeq = seq := by
  rw [emitOrderUpdate]
  split <;> rfl

/-- **A dispatch counts by one**, and its events carry the number. -/
theorem dispatch_globalSeq {m m' : MatchingThread} {cmd : Command} {events : List OutboundEvent}
    (h : m.dispatch cmd = some (events, m')) :
    m'.dispatchSeq = m.dispatchSeq + 1 ∧ ∀ ev ∈ events, ev.globalSeq = m.dispatchSeq + 1 := by
  rw [dispatch] at h
  cases hk : CommandKind.ofByte cmd.kind with
  | none =>
    rw [hk] at h
    cases h
    exact ⟨rfl, List.forall_mem_nil _⟩
  | some k =>
    rw [hk] at h
    cases k with
    | new =>
      obtain ⟨⟨r, out, b⟩, -, h⟩ := Option.bind_eq_some_iff.1 h
      cases h
      refine ⟨rfl, ?_⟩
      simp only [List.forall_mem_append, List.forall_mem_singleton]
      refine ⟨⟨⟨globalSeq_publishTrades, globalSeq_publishStpVictims⟩, ?_⟩,
        globalSeq_emitOrderUpdate ..⟩
      split <;> simp [OutboundEvent.globalSeq]
    | cancel =>
      obtain ⟨⟨r, b⟩, -, h⟩ := Option.bind_eq_some_iff.1 h
      cases h
      refine ⟨rfl, List.forall_mem_cons.2 ⟨rfl, ?_⟩⟩
      split <;> simp [OutboundEvent.globalSeq]
    | replace =>
      obtain ⟨⟨r, old, out, b⟩, -, h⟩ := Option.bind_eq_some_iff.1 h
      cases h
      refine ⟨rfl, ?_⟩
      simp only [List.forall_mem_append, List.forall_mem_singleton]
      refine ⟨⟨⟨⟨?_, globalSeq_publishTrades⟩, globalSeq_publishStpVictims⟩, rfl⟩, ?_⟩
      · split <;> simp [OutboundEvent.globalSeq]
      · split <;> simp [globalSeq_emitOrderUpdate]

end MatchingThread

/-- A command with the kind it is submitted under. -/
structure Submission where
  kind : UInt8
  command : Command
  deriving DecidableEq

/-- The command under its own kind, as all callers of the sequencer submit it. -/
def Command.submission (cmd : Command) : Submission := ⟨cmd.kind, cmd⟩

/-- The commands one after the other, each with these buffers. -/
def OrderBook.applyAll (b : OrderBook) (out : Sinks) : List Submission → Option OrderBook
  | [] => some b
  | c :: cs => do
    let b ← b.apply c.kind c.command out
    b.applyAll out cs

theorem MatchingThread.run_book (m : MatchingThread) (cmds : List Command) :
    (m.run cmds).map (·.2.book) =
      m.book.applyAll (Sinks.empty kTradeBufCapacity) (cmds.map Command.submission) := by
  induction cmds generalizing m with
  | nil => rfl
  | cons cmd cmds ih =>
    have hbook := m.dispatch_book cmd
    rw [run, List.map_cons, OrderBook.applyAll, Command.submission, ← hbook]
    cases m.dispatch cmd with
    | none => rfl
    | some step =>
      change ((step.2.run cmds).bind _).map _ = step.2.book.applyAll _ _
      rw [← ih]
      cases step.2.run cmds <;> rfl

namespace OrderBook

section Apply

variable {b b' : OrderBook} {ps : List Ptr}

/-- **A command on a represented book** is defined, whatever the buffers. -/
theorem apply_spec (kind : UInt8) (cmd : Command) (hr : b.Repr ps none) (hw : (b.view ps).Wf) :
    ∃ b₁ ps₁, (∀ out, b.apply kind cmd out = some b₁) ∧ b₁.Repr ps₁ none ∧
      (b.view ps = b₁.view ps₁ ∨ ∃ k ∈ CommandKind.ofByte kind, ∃ e,
        (b.view ps).Step (cmd.call k) e (b₁.view ps₁)) := by
  cases hk : CommandKind.ofByte kind with
  | none => exact ⟨b, ps, fun out => by rw [apply, hk], hr, Or.inl rfl⟩
  | some k =>
    obtain ⟨e, b₁, ps₁, hcall, hr₁, hs⟩ := call_spec (cmd.call k) hr hw
    refine ⟨b₁, ps₁, fun out => ?_, hr₁, Or.inr ⟨k, rfl, e, hs⟩⟩
    rw [apply, hk]
    simp only [hcall, Option.map_some]

/-- The queues decide what a command leaves. -/
theorem SameView.apply (h : b.SameView b') (kind : UInt8) (cmd : Command) :
    ∃ b₁ b₁', (∀ out, b.apply kind cmd out = some b₁) ∧ (∀ out, b'.apply kind cmd out = some b₁') ∧
      b₁.SameView b₁' := by
  cases hk : CommandKind.ofByte kind with
  | none =>
    exact ⟨b, b', fun out => by rw [OrderBook.apply, hk], fun out => by rw [OrderBook.apply, hk], h⟩
  | some k =>
    obtain ⟨e, b₁, b₁', hcall, hcall', h₁⟩ := h.call (cmd.call k)
    refine ⟨b₁, b₁', fun out => ?_, fun out => ?_, h₁⟩
    · rw [OrderBook.apply, hk]
      simp only [hcall, Option.map_some]
    · rw [OrderBook.apply, hk]
      simp only [hcall', Option.map_some]

/-- **Two heaps with the same queues stay so**, with any two buffers. -/
theorem SameView.applyAll (h : b.SameView b') (cs : List Submission) :
    ∃ b₁ b₁', (∀ out, b.applyAll out cs = some b₁) ∧ (∀ out, b'.applyAll out cs = some b₁') ∧
      b₁.SameView b₁' := by
  induction cs generalizing b b' with
  | nil => exact ⟨b, b', fun _ => rfl, fun _ => rfl, h⟩
  | cons c cs ih =>
    obtain ⟨b₁, b₁', hap, hap', h₁⟩ := h.apply c.kind c.command
    obtain ⟨b₂, b₂', hall, hall', h₂⟩ := ih h₁
    refine ⟨b₂, b₂', fun out => ?_, fun out => ?_, h₂⟩
    · rw [OrderBook.applyAll, hap]
      exact hall out
    · rw [OrderBook.applyAll, hap']
      exact hall' out

theorem applyAll_append (b : OrderBook) (out : Sinks) (xs ys : List Submission) :
    b.applyAll out (xs ++ ys) = (b.applyAll out xs).bind (·.applyAll out ys) := by
  induction xs generalizing b with
  | nil => rfl
  | cons x xs ih =>
    rw [List.cons_append, applyAll, applyAll]
    cases b.apply x.kind x.command out with
    | none => rfl
    | some b₁ => exact ih b₁

/-- A book that commands have made out of an empty one, or one with the same queues, as recovery
builds it. -/
def Reachable (b : OrderBook) : Prop :=
  ∃ cfg b₀ cs out b₁, create cfg = some b₀ ∧ b₀.applyAll out cs = some b₁ ∧ b.SameView b₁

/-- The heap of the book is sound. -/
def Represented (b : OrderBook) : Prop := ∃ ps, b.Repr ps none ∧ (b.view ps).Wf

theorem applyAll_spec (cs : List Submission) (hr : b.Repr ps none) (hw : (b.view ps).Wf) :
    ∃ b₁ ps₁, (∀ out, b.applyAll out cs = some b₁) ∧ b₁.Repr ps₁ none ∧ (b₁.view ps₁).Wf := by
  obtain ⟨b₁, -, hall, -, ps₁, -, hr₁, -, hw₁, -⟩ := (SameView.refl hr hw).applyAll cs
  exact ⟨b₁, ps₁, hall, hr₁, hw₁⟩

theorem Reachable.repr (h : b.Reachable) : b.Represented := by
  obtain ⟨cfg, b₀, cs, out, b₁, -, -, ps, ps', hr, -, hw, -⟩ := h
  exact ⟨ps, hr, hw⟩

theorem Reachable.apply (h : b.Reachable) (kind : UInt8) (cmd : Command) :
    ∃ b', (∀ out, b.apply kind cmd out = some b') ∧ b'.Reachable := by
  obtain ⟨cfg, b₀, cs, out, b₁, hcreate, hall, hsame⟩ := h
  obtain ⟨b', b₁', hap, hap', hsame'⟩ := hsame.apply kind cmd
  refine ⟨b', hap, cfg, b₀, cs ++ [⟨kind, cmd⟩], out, b₁', hcreate, ?_, hsame'⟩
  rw [applyAll_append, hall]
  change (b₁.apply kind cmd out).bind _ = _
  rw [hap' out]
  rfl

theorem reachable_applyAll {cfg : BookConfig} (h : create cfg = some b) (cs : List Submission) :
    ∃ b₁, (∀ out, b.applyAll out cs = some b₁) ∧ b₁.Reachable := by
  obtain ⟨hr, hview⟩ := repr_create h
  obtain ⟨b₁, ps₁, hall, hr₁, hw₁⟩ := applyAll_spec cs hr (by rw [hview]; exact emptyView_wf cfg)
  exact ⟨b₁, hall, cfg, b, cs, ⟨.empty 0, none⟩, b₁, h, hall _, .refl hr₁ hw₁⟩

theorem reachable_of_applyAll {cfg : BookConfig} {out : Sinks} {cs : List Submission}
    (h : create cfg = some b) (hall : b.applyAll out cs = some b') : b'.Reachable := by
  obtain ⟨b₁, hall', hreach⟩ := reachable_applyAll h cs
  rw [hall' out] at hall
  exact Option.some.inj hall ▸ hreach

end Apply

end OrderBook

end Velox
