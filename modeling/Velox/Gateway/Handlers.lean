import Velox.Gateway.Router
import Velox.Gateway.Submission

/-!
# What a handler leaves behind

The actions of a session's handlers, read as entries of a history. A handler that has a new order
sequenced queues its acknowledgement before it ends, unless the session is closed, and a session
that is closed stays so (`ClientSession.Acts`).
-/

namespace Velox

def Command.isNew (cmd : Command) : Bool := decide (cmd.kind = CommandKind.new.toByte)

/-- A replace keeps the id, as the requests of a client do. -/
def Command.KeepsId (cmd : Command) : Prop :=
  cmd.kind = CommandKind.replace.toByte → cmd.newId = cmd.id

/-- What the io thread does for a session, in order: the actions of its handlers, and the frames of
shard `shard` that the router had posted. -/
inductive Entry where
  | action (a : Action)
  | report (shard : Nat) (r : Report)
  deriving DecidableEq

/-- The sequencer of `shard` took the command under the number `seq`. -/
def Entry.sequenced (shard : Nat) (n : UInt64) (cmd : Command) (seq : Int) : Entry :=
  .action (.trySubmit shard n cmd (.sequenced seq))

def Entry.newAck (cmd : Command) (seq : Int) : Entry :=
  .action (.sendFrame (.execReport
    ⟨cmd.id, ExecType.newAck.toByte, 0, cmd.quantity, 0, 0, .ofInt seq⟩))

/-- Every new order that was sequenced is acknowledged later. -/
def Acked (es : List Entry) : Prop :=
  ∀ before shard n cmd seq after, es = before ++ .sequenced shard n cmd seq :: after →
    cmd.isNew = true → .newAck cmd seq ∈ after

theorem acked_nil : Acked [] := by
  intro before shard n cmd seq after h
  cases before <;> cases h

theorem Acked.append {es es' : List Entry} (h : Acked es) (h' : Acked es') : Acked (es ++ es') := by
  intro before shard n cmd seq after heq hnew
  rcases List.append_eq_append_iff.1 heq with ⟨mid, rfl, hes'⟩ | ⟨mid, rfl, hafter⟩
  · exact h' mid shard n cmd seq after hes' hnew
  · cases mid with
    | nil => exact h' [] shard n cmd seq after hafter.symm hnew
    | cons e mid =>
      obtain ⟨rfl, rfl⟩ := List.cons.inj hafter
      exact List.mem_append_left _ (h before shard n cmd seq mid rfl hnew)

theorem Acked.cons {e : Entry} {es : List Entry} (h : Acked es)
    (he : ∀ shard n cmd seq, e = .sequenced shard n cmd seq → cmd.isNew = true →
      .newAck cmd seq ∈ es) : Acked (e :: es) := by
  intro before shard n cmd seq after heq hnew
  cases before with
  | nil =>
    obtain ⟨hhead, rfl⟩ := List.cons.inj heq
    exact he shard n cmd seq hhead hnew
  | cons e' before => exact h before shard n cmd seq after (List.cons.inj heq).2 hnew

theorem acked_of_forall {es : List Entry}
    (h : ∀ shard n cmd seq, .sequenced shard n cmd seq ∈ es → cmd.isNew = false) : Acked es := by
  intro before shard n cmd seq after heq hnew
  have hmem : .sequenced shard n cmd seq ∈ es := by
    rw [heq]
    exact List.mem_append_right _ List.mem_cons_self
  rw [h shard n cmd seq hmem] at hnew
  cases hnew

/-! ## The handlers -/

namespace ClientSession

/-- The command that a session keeps is one of its client's. -/
def Kept (s : ClientSession) : Prop := ∀ p ∈ s.pending, p.2.KeepsId

def Action.KeepsId : Action → Prop
  | .trySubmit _ _ cmd _ => cmd.KeepsId
  | _ => True

/-- What a handler does, or a part of it: its actions acknowledge what they get sequenced, unless
the session is closed at the end, and a closed session stays so. -/
structure Acts (h h' : Handled) : Prop where
  actions : ∃ as, h'.2 = h.2 ++ as ∧ (∀ a ∈ as, Action.KeepsId a) ∧
    (h'.1.closed = false → Acked (as.map Entry.action))
  closed : h'.1.closed = false → h.1.closed = false
  kept : Kept h'.1

variable {g : GatewayConfig} {h₀ h : Handled}

namespace Acts

theorem refl (hk : Kept h.1) : Acts h h :=
  ⟨⟨[], (List.append_nil _).symm, List.forall_mem_nil _, fun _ => acked_nil⟩, id, hk⟩

/-- Some more actions, and a change of the session. -/
theorem extend (hs : Acts h₀ h) {t : ClientSession} {as : List Action}
    (hids : ∀ a ∈ as, Action.KeepsId a) (hacked : t.closed = false → Acked (as.map Entry.action))
    (hclosed : t.closed = false → h.1.closed = false) (hk : Kept t) : Acts h₀ (t, h.2 ++ as) := by
  obtain ⟨as₀, has₀, hids₀, hacked₀⟩ := hs.actions
  refine ⟨⟨as₀ ++ as, ?_, ?_, fun hopen => ?_⟩, fun hopen => hs.closed (hclosed hopen), hk⟩
  · rw [has₀, List.append_assoc]
  · exact List.forall_mem_append.2 ⟨hids₀, hids⟩
  · rw [List.map_append]
    exact (hacked₀ (hclosed hopen)).append (hacked hopen)

/-- A change of the session alone. -/
theorem change (hs : Acts h₀ h) {t : ClientSession} (hclosed : t.closed = h.1.closed)
    (hk : Kept t) : Acts h₀ (t, h.2) := by
  have hmore := hs.extend (List.forall_mem_nil _) (fun _ => acked_nil) (fun hopen => hclosed ▸ hopen) hk
  rwa [List.append_nil] at hmore

theorem update (hs : Acts h₀ h) {t : ClientSession} (hclosed : t.closed = h.1.closed)
    (hpending : t.pending = h.1.pending) : Acts h₀ (t, h.2) := by
  refine hs.change hclosed ?_
  rw [Kept, hpending]
  exact hs.kept

/-- One action that neither submits nor closes. -/
theorem act (hs : Acts h₀ h) {a : Action} (ha : Action.plain a = true) : Acts h₀ (act a h) := by
  refine hs.extend ?_ (fun _ => acked_of_forall ?_) id hs.kept
  · cases a <;> simp_all [Action.plain, Action.KeepsId]
  · cases a <;> simp_all [Action.plain, Entry.sequenced]

theorem sendFrame (hs : Acts h₀ h) (m : Message) : Acts h₀ (sendFrame m h) := by
  unfold ClientSession.sendFrame
  split
  · exact hs
  · exact hs.act rfl

theorem closeSession (hs : Acts h₀ h) : Acts h₀ (closeSession h) := by
  unfold ClientSession.closeSession
  split
  · exact hs
  · refine hs.extend ?_ nofun nofun hs.kept
    simp [Action.KeepsId]

/-- A submission that is not sequenced. -/
theorem refused (hs : Acts h₀ h) {cmd : Command} (hid : cmd.KeepsId) (shard : Nat)
    {answer : TrySubmitResult} (hanswer : answer.seq? = none) :
    Acts h₀ (ClientSession.act (.trySubmit shard h.1.lastClientSeq cmd answer) h) := by
  refine hs.extend ?_ (fun _ => acked_of_forall ?_) id hs.kept
  · simpa [Action.KeepsId] using hid
  · intro shard' n cmd' seq hmem
    cases answer with
    | sequenced => cases hanswer
    | ringFull | durabilityFailure => simp [Entry.sequenced] at hmem

/-- A submission that is sequenced is acknowledged at once, if the session is open. -/
theorem sequenced (hs : Acts h₀ h) {cmd : Command} (hid : cmd.KeepsId) (shard : Nat) (seq : Int)
    {t : ClientSession} (hclosed : t.closed = h.1.closed) (hk : Kept t) :
    Acts h₀ (sendNewAckIfApplicable cmd seq
      (t, h.2 ++ [.trySubmit shard h.1.lastClientSeq cmd (.sequenced seq)])) := by
  have hids : ∀ a ∈ [Action.trySubmit shard h.1.lastClientSeq cmd (.sequenced seq)],
      Action.KeepsId a := by
    simpa [Action.KeepsId] using hid
  have hopens : t.closed = false → h.1.closed = false := fun hopen => hclosed ▸ hopen
  unfold sendNewAckIfApplicable ClientSession.sendFrame
  dsimp only
  split
  · next hkind =>
    refine hs.extend hids (fun _ => acked_of_forall fun shard' n cmd' seq' hmem => ?_) hopens hk
    simp only [Entry.sequenced, List.map_cons, List.map_nil, List.mem_singleton, Entry.action.injEq,
      Action.trySubmit.injEq] at hmem
    rw [hmem.2.2.1, Command.isNew, decide_eq_false_iff_not]
    exact hkind
  · split
    · next hdown => exact hs.extend hids (fun hopen => nomatch hdown.symm.trans hopen) hopens hk
    · rw [List.append_assoc]
      refine hs.extend ?_ (fun _ => ?_) hopens hk
      · exact List.forall_mem_append.2 ⟨hids, by simp [Action.KeepsId]⟩
      · refine Acked.cons (acked_of_forall fun _ _ _ _ hmem => ?_) fun _ _ _ _ heq _ => ?_
        · simp [Entry.sequenced] at hmem
        · cases heq
          exact List.mem_cons_self

theorem submitOrPend (hs : Acts h₀ h) {cmd : Command} (hid : cmd.KeepsId) (shard : Nat)
    (answer : TrySubmitResult) : Acts h₀ (submitOrPend cmd shard answer h) := by
  have hroute : Acts h₀ (ClientSession.act (.registerRoute shard cmd.routedId h.1.lastClientSeq) h) :=
    hs.act rfl
  unfold ClientSession.submitOrPend
  cases answer with
  | sequenced seq => exact hroute.sequenced hid shard seq rfl hs.kept
  | ringFull =>
    refine Acts.change ?_ rfl fun p hp => Option.some.inj hp ▸ hid
    exact hroute.refused hid shard rfl
  | durabilityFailure =>
    exact (((hroute.refused hid shard rfl).act rfl).sendFrame _).closeSession

theorem checkClientSeq (hs : Acts h₀ h) (n : UInt64) (orderId : Int64) :
    Acts h₀ (checkClientSeq n orderId h).2 := by
  unfold ClientSession.checkClientSeq
  split
  · exact hs.sendFrame _
  · split
    · exact (hs.sendFrame _).closeSession
    · exact hs.update rfl rfl

theorem handleRequest (hs : Acts h₀ h) {r : Request} (hid : ∀ p, (r.command p).KeepsId)
    (answer : TrySubmitResult) : Acts h₀ (handleRequest g r answer h) := by
  have hcheck := hs.checkClientSeq r.clientSeqNum r.orderId
  unfold ClientSession.handleRequest
  split
  · next h' heq =>
    rw [heq] at hcheck
    exact hcheck
  · next h' heq =>
    rw [heq] at hcheck
    split
    · exact hcheck.sendFrame _
    · exact hcheck.submitOrPend (hid _) _ answer

theorem handleMessage (hs : Acts h₀ h) (a : Answers) (m : Message) :
    Acts h₀ (handleMessage g a m h) := by
  have hclose : ∀ reason, Acts h₀ (ClientSession.closeSession (sendLoginReject reason h)) :=
    fun reason => (hs.sendFrame _).closeSession
  unfold ClientSession.handleMessage
  split
  · cases m with
    | login m =>
      dsimp only
      unfold handleLogin
      split
      · exact hclose _
      · refine Acts.sendFrame ?_ _
        exact hs.update rfl rfl
    | heartbeat => exact hs.update rfl rfl
    | _ => exact hclose _
  · cases m with
    | newOrder m =>
      have hkind : CommandKind.new.toByte ≠ CommandKind.replace.toByte := by decide
      exact hs.handleRequest (fun p hreplace => absurd hreplace hkind) _
    | cancel m =>
      have hkind : CommandKind.cancel.toByte ≠ CommandKind.replace.toByte := by decide
      exact hs.handleRequest (fun p hreplace => absurd hreplace hkind) _
    | cancelReplace m => exact hs.handleRequest (fun p _ => rfl) _
    | heartbeat => exact hs.update rfl rfl
    | login => exact hclose _
    | _ => exact hs.closeSession

end Acts

/-- The loop over the frames in the buffer. -/
theorem acts_processDecoded {h : Handled} (hs : Acts h₀ h) (a : Answers) :
    Acts h₀ (processDecoded g a h) := by
  rw [processDecoded]
  split
  · exact hs.update rfl rfl
  · refine Acts.closeSession ?_
    exact hs.update rfl rfl
  · next m d hnext =>
    obtain ⟨size, hm, hd⟩ := FrameDecoder.next_ok hnext
    have hshorter : d.buf.length < h.1.decoder.buf.length := by
      have := h.1.decoder.gate.framing.size_pos hm
      have := h.1.decoder.gate.framing.size_le hm
      rw [hd, List.length_drop]
      omega
    have hread : Acts h₀ ({ h.1 with decoder := d }, h.2) := hs.update rfl rfl
    have hhandled : Acts h₀ (handleMessage g a m ({ h.1 with decoder := d }, h.2)) :=
      hread.handleMessage a m
    dsimp only
    split
    · exact hhandled.update rfl rfl
    · refine acts_processDecoded ?_ _
      exact hhandled.update rfl rfl
termination_by h.1.decoder.buf.length

namespace Acts

theorem onRead (hs : Acts h₀ h) (data : List UInt8) (a : Answers) :
    Acts h₀ (onRead g data a h) := by
  unfold ClientSession.onRead
  split
  · refine Acts.closeSession ?_
    exact hs.update rfl rfl
  · refine acts_processDecoded ?_ a
    exact hs.update rfl rfl

theorem retryPending (hs : Acts h₀ h) (answer : TrySubmitResult) :
    Acts h₀ (retryPending answer h) := by
  unfold ClientSession.retryPending
  split
  · exact hs
  · next shard cmd hpending =>
    have hid : cmd.KeepsId := hs.kept _ hpending
    have hnone : Kept { h.1 with pending := none } := nofun
    split
    · exact hs
    · cases answer with
      | ringFull => exact hs.refused hid shard rfl
      | sequenced seq =>
        refine Acts.update ?_ rfl rfl
        exact hs.sequenced hid shard seq rfl hnone
      | durabilityFailure =>
        have hfailed : Acts h₀ ({ h.1 with pending := none },
            h.2 ++ [.trySubmit shard h.1.lastClientSeq cmd .durabilityFailure]) :=
          (hs.refused hid shard rfl).change (t := { h.1 with pending := none }) rfl hnone
        exact ((hfailed.act rfl).sendFrame _).closeSession

theorem authTimeout (hs : Acts h₀ h) : Acts h₀ (authTimeout h) := by
  unfold ClientSession.authTimeout
  split
  · exact hs
  · exact hs.closeSession

theorem heartbeatTimeout (hs : Acts h₀ h) : Acts h₀ (heartbeatTimeout h) := by
  unfold ClientSession.heartbeatTimeout
  split
  · exact hs
  · dsimp only
    split
    · refine Acts.closeSession ?_
      exact hs.update rfl rfl
    · refine Acts.sendFrame ?_ _
      exact hs.update rfl rfl

end Acts

end ClientSession

end Velox
