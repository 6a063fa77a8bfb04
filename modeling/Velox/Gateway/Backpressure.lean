import Velox.Gateway.Submission
import Velox.Protocol.Encoder

/-!
# Backpressure

When the ring is full, a session keeps the command and stops reading; a successful retry makes it
read on. What it does not do then is to look at the frames that are already in its buffer: they wait
for the next read, which puts its bytes behind them. So the orders of the last read can be left in
the buffer, and a session that is suspended in three reads in a row has no room left and is closed
(`backpressure_loses_client`).

As long as the ring is found full only by the last complete frame of a read, every read finds room,
the session stays open, and what the client has sent is handed to the sequencer
(`backpressure_spares_client`).
-/

namespace Velox

namespace ClientSession

/-! ## A client and its session -/

/-- What happens to a session once it is authenticated. -/
inductive Step where
  /-- The bytes of a read, and what the sequencer answers to the requests in it. -/
  | read (data : List UInt8) (submits : List TrySubmitResult)
  | retry (answer : TrySubmitResult)
  | heartbeatTimeout

/-- A session that is closed or suspended has no read under way. -/
def step (g : GatewayConfig) (h : Handled) : Step → Option Handled
  | .read data submits =>
    if h.1.closed = true ∨ h.1.readSuspended = true then none
    else some (onRead g data ⟨0, submits⟩ h)
  | .retry answer => some (retryPending answer h)
  | .heartbeatTimeout => some (heartbeatTimeout h)

def run (g : GatewayConfig) (h : Handled) : List Step → Option Handled
  | [] => some h
  | s :: ss => do
    let h ← step g h s
    run g h ss

/-- The bytes that were read. -/
def Step.data : Step → List UInt8
  | .read data _ => data
  | _ => []

/-- A read is of 1 to 128 bytes, and the sequencer answers that it has sequenced a command or that
the ring is full. -/
def Step.Allowed : Step → Prop
  | .read data submits =>
    1 ≤ data.length ∧ data.length ≤ 128 ∧ .durabilityFailure ∉ submits
  | .retry answer => answer ≠ .durabilityFailure
  | .heartbeatTimeout => True

/-- The client sends requests that the decoder accepts, numbered from `n + 1` on, and heartbeats. -/
structure WellBehaved (g : GatewayConfig) (n : UInt64) (ms : List Message) : Prop where
  accepted : ∀ m ∈ ms, g.gate.Accepts m
  kind : ∀ m ∈ ms, m.request?.isSome = true ∨ ∃ beat, m = .heartbeat beat
  numbers : ∀ i r, (requests ms)[i]? = some r → r.clientSeqNum.toNat = n.toNat + 1 + i

/-- An authenticated session that waits for the rest of a frame. -/
structure Ready (g : GatewayConfig) (h : Handled) : Prop where
  state : h.1.state = .authenticated
  isOpen : h.1.closed = false
  reading : h.1.readSuspended = false
  kept : h.1.pending = none
  gate : h.1.decoder.gate = g.gate
  terminal : h.1.decoder.terminal = false
  next : g.gate.framing.next h.1.decoder.buf = .more

/-- If the ring is full for one of these messages, it is the last of them. -/
def FullAtLast : List TrySubmitResult → List Message → Prop
  | _, [] => True
  | submits, m :: ms =>
    if m.request?.isSome then
      if submits.headD .ringFull = .ringFull then ms = [] else FullAtLast submits.tail ms
    else FullAtLast submits ms

/-- In a read the ring is found full only by the last complete frame of the buffer, and the session
is not silent until the third heartbeat timeout in a row. -/
def Calm (g : GatewayConfig) (h : Handled) : Step → Prop
  | .read data submits =>
    FullAtLast submits (g.gate.framing.scan (h.1.decoder.buf ++ data)).1
  | .retry _ => True
  | .heartbeatTimeout => h.1.missedHeartbeats + 1 < kMaxMissedHeartbeats

def CalmRun (g : GatewayConfig) (h : Handled) : List Step → Prop
  | [] => True
  | s :: ss => Calm g h s ∧ ∀ h' ∈ step g h s, CalmRun g h' ss

/-! ## Handling a message -/

section Handle

variable {g : GatewayConfig} {h₀ h : Handled} {done : List Message} {m : Message} {r : Request}

/-- The command of a request, as it is sequenced. -/
def Request.sub (p : Int64) (r : Request) : UInt64 × Command := (r.clientSeqNum, r.command p)

/-- The session has handled `done` since `h₀`: their commands were sequenced in order, but for the
last, which may still be kept. -/
structure Caught (g : GatewayConfig) (h₀ h : Handled) (done : List Message) : Prop where
  state : h.1.state = .authenticated
  isOpen : h.1.closed = false
  participant : h.1.participantId = h₀.1.participantId
  gate : h.1.decoder.gate = g.gate
  terminal : h.1.decoder.terminal = false
  kept : h.1.pending.isSome = h.1.readSuspended
  number : h.1.lastClientSeq.toNat = h₀.1.lastClientSeq.toNat + (requests done).length
  handed : sequenced h.2 ++ h.1.held =
    sequenced h₀.2 ++ (requests done).map (Request.sub h₀.1.participantId)

theorem handleMessage_of_request (a : Answers) (hstate : h.1.state = .authenticated)
    (hm : m.request? = some r) : handleMessage g a m h = handleRequest g r a.submit h := by
  have hno : ¬ h.1.state = .awaitingLogin := by
    rw [hstate]
    decide
  cases m with
  | newOrder m =>
    cases hm
    exact if_neg hno
  | cancel m =>
    cases hm
    exact if_neg hno
  | cancelReplace m =>
    cases hm
    exact if_neg hno
  | login | heartbeat | loginAck | loginReject | execReport | reject => cases hm

theorem sequenced_sendFrame (m : Message) (h : Handled) :
    sequenced (sendFrame m h).2 = sequenced h.2 := by
  unfold sendFrame
  split
  · rfl
  · exact sequenced_snoc rfl

theorem sequenced_sendNewAck (cmd : Command) (seq : Int) (h : Handled) :
    sequenced (sendNewAckIfApplicable cmd seq h).2 = sequenced h.2 := by
  unfold sendNewAckIfApplicable
  split
  · rfl
  · exact sequenced_sendFrame _ h

/-- The number that follows the last one passes the check. -/
theorem checkClientSeq_next {n : UInt64} (orderId : Int64)
    (hn : n.toNat = h.1.lastClientSeq.toNat + 1) :
    checkClientSeq n orderId h = (true, ({ h.1 with lastClientSeq := n }, h.2)) := by
  have hlt : n.toNat < 2 ^ 64 := n.toNat_lt
  have hdup : ¬ n ≤ h.1.lastClientSeq := by
    rw [UInt64.le_iff_toNat_le]
    omega
  have hgap : ¬ h.1.lastClientSeq + 1 < n := by
    rw [UInt64.lt_iff_toNat_lt, UInt64.toNat_add, UInt64.toNat_one, Nat.mod_eq_of_lt (by omega)]
    omega
  rw [checkClientSeq, if_neg hdup, if_neg hgap]

theorem requests_snoc (done : List Message) (hm : m.request? = some r) :
    requests (done ++ [m]) = requests done ++ [r] := by
  rw [requests_append, requests, requests, List.filterMap_cons_some hm, List.filterMap_nil]

theorem Caught.congr {h' : Handled} (hc : Caught g h₀ h done) (hfst : h'.1 = h.1)
    (hseq : sequenced h'.2 = sequenced h.2) : Caught g h₀ h' done := by
  obtain ⟨hstate, hopen, hpart, hgate, hterm, hkept, hnumber, hhanded⟩ := hc
  rw [← hfst] at hstate hopen hpart hgate hterm hkept hnumber hhanded
  rw [← hseq] at hhanded
  exact ⟨hstate, hopen, hpart, hgate, hterm, hkept, hnumber, hhanded⟩

/-- A request with the next number is sequenced, or kept if the ring is full. -/
theorem Caught.handleRequest (hc : Caught g h₀ h done) (hreading : h.1.readSuspended = false)
    (hm : m.request? = some r) (hinst : r.instrumentId ∈ g.shards)
    (hnumber : r.clientSeqNum.toNat = h.1.lastClientSeq.toNat + 1) {answer : TrySubmitResult}
    (hanswer : answer ≠ .durabilityFailure) :
    Caught g h₀ (handleRequest g r answer h) (done ++ [m]) ∧
      (handleRequest g r answer h).1.decoder = h.1.decoder ∧
      ((handleRequest g r answer h).1.readSuspended = true ↔ answer = .ringFull) := by
  obtain ⟨shard, hshard⟩ : ∃ shard, g.shardIndexFor r.instrumentId = some shard :=
    Option.isSome_iff_exists.1 (List.isSome_idxOf?.2 hinst)
  have hpending : h.1.pending = none := by
    have hkept := hc.kept
    rw [hreading] at hkept
    exact Option.isNone_iff_eq_none.1 (by rw [← Option.not_isSome, hkept]; rfl)
  have hhanded : sequenced h.2 ++ [(r.clientSeqNum, r.command h.1.participantId)] =
      sequenced h₀.2 ++ (requests (done ++ [m])).map (Request.sub h₀.1.participantId) := by
    have hold := hc.handed
    rw [held_none hpending, List.append_nil] at hold
    rw [requests_snoc done hm, List.map_append, ← List.append_assoc, ← hold, hc.participant]
    rfl
  have hcount : r.clientSeqNum.toNat =
      h₀.1.lastClientSeq.toNat + (requests (done ++ [m])).length := by
    rw [requests_snoc done hm, List.length_append, List.length_singleton, hnumber, hc.number]
    omega
  have hhandle : ClientSession.handleRequest g r answer h =
      submitOrPend (r.command h.1.participantId) shard answer
        ({ h.1 with lastClientSeq := r.clientSeqNum }, h.2) := by
    rw [ClientSession.handleRequest, checkClientSeq_next r.orderId hnumber, hshard]
  rw [hhandle]
  cases answer with
  | durabilityFailure => exact absurd rfl hanswer
  | ringFull =>
    refine ⟨⟨hc.state, hc.isOpen, hc.participant, hc.gate, hc.terminal, rfl, hcount, ?_⟩, rfl,
      iff_of_true rfl rfl⟩
    rw [← hhanded]
    refine congrArg (· ++ _) ?_
    exact (sequenced_snoc rfl).trans (sequenced_snoc rfl)
  | sequenced seq =>
    obtain ⟨tried, htried⟩ : ∃ tried : Handled, tried =
      ({ h.1 with lastClientSeq := r.clientSeqNum }, h.2 ++ [.registerRoute shard
        (r.command h.1.participantId).routedId r.clientSeqNum] ++ [.trySubmit shard r.clientSeqNum
          (r.command h.1.participantId) (.sequenced seq)]) := ⟨_, rfl⟩
    have hc' : Caught g h₀ tried (done ++ [m]) := by
      rw [htried]
      refine ⟨hc.state, hc.isOpen, hc.participant, hc.gate, hc.terminal, hc.kept, hcount, ?_⟩
      rw [held_none (s := { h.1 with lastClientSeq := r.clientSeqNum }) hpending, List.append_nil,
        sequenced_trySubmit, sequenced_snoc rfl]
      exact hhanded
    have hafter : submitOrPend (r.command h.1.participantId) shard (.sequenced seq)
        ({ h.1 with lastClientSeq := r.clientSeqNum }, h.2) =
        sendNewAckIfApplicable (r.command h.1.participantId) seq tried := by
      rw [htried]
      rfl
    rw [hafter, sendNewAckIfApplicable_fst]
    refine ⟨hc'.congr (sendNewAckIfApplicable_fst _ _ _) (sequenced_sendNewAck _ _ _), ?_, ?_⟩
    · rw [htried]
    · rw [htried]
      refine iff_of_false ?_ nofun
      change ¬ h.1.readSuspended = true
      rw [hreading]
      decide

/-- A message of a well-behaved client. -/
theorem Caught.handleMessage (hc : Caught g h₀ h done) (hreading : h.1.readSuspended = false)
    (hadmits : g.gate.Admits m) (hkind : m.request?.isSome = true ∨ ∃ beat, m = .heartbeat beat)
    (hnumber : ∀ r, m.request? = some r → r.clientSeqNum.toNat = h.1.lastClientSeq.toNat + 1)
    {a : Answers} (ha : a.submit ≠ .durabilityFailure) :
    Caught g h₀ (handleMessage g a m h) (done ++ [m]) ∧
      (handleMessage g a m h).1.decoder = h.1.decoder ∧
      ((handleMessage g a m h).1.readSuspended = true ↔
        m.request?.isSome = true ∧ a.submit = .ringFull) := by
  cases hm : m.request? with
  | some r =>
    have hinst : r.instrumentId ∈ g.shards :=
      InstrumentSet.mem_of_mem_ofShards (g.gate.admits_instrument hadmits hm)
    rw [handleMessage_of_request a hc.state hm]
    obtain ⟨hc', hdecoder, hiff⟩ := hc.handleRequest hreading hm hinst (hnumber r hm) ha
    exact ⟨hc', hdecoder, hiff.trans (and_iff_right rfl).symm⟩
  | none =>
    rw [hm] at hkind
    obtain ⟨beat, rfl⟩ := hkind.resolve_left (by decide)
    have hbeat : ClientSession.handleMessage g a (.heartbeat beat) h = handleHeartbeat h :=
      if_neg (by rw [hc.state]; decide)
    have hrequests : requests (done ++ [.heartbeat beat]) = requests done := by
      rw [requests_append, requests, requests, List.filterMap_cons_none rfl, List.filterMap_nil,
        List.append_nil]
    rw [hbeat]
    refine ⟨⟨hc.state, hc.isOpen, hc.participant, hc.gate, hc.terminal, hc.kept, ?_, ?_⟩, rfl, ?_⟩
    · rw [hrequests]
      exact hc.number
    · rw [hrequests]
      exact hc.handed
    · refine iff_of_false ?_ fun h => Bool.noConfusion h.1
      change ¬ h.1.readSuspended = true
      rw [hreading]
      decide

end Handle

/-! ## A read -/

section Loop

variable {g : GatewayConfig} {h₀ h : Handled} {ms done todo : List Message} {unread : List UInt8}

/-- The session has handled `done`; its buffer and the bytes still to be read are `todo`. -/
structure Midway (g : GatewayConfig) (h₀ : Handled) (ms : List Message) (unread : List UInt8)
    (h : Handled) (done todo : List Message) : Prop where
  split : done ++ todo = ms
  caught : Caught g h₀ h done
  stream : h.1.decoder.buf ++ unread = todo.flatMap Message.bytes

/-- The messages that a session has not handled yet go on where it stopped. -/
theorem Midway.number (hmid : Midway g h₀ ms unread h done todo)
    (hms : WellBehaved g h₀.1.lastClientSeq ms) {m : Message} {todo' : List Message}
    (htodo : todo = m :: todo') {r : Request} (hr : m.request? = some r) :
    r.clientSeqNum.toNat = h.1.lastClientSeq.toNat + 1 := by
  have hget : (requests ms)[(requests done).length]? = some r := by
    rw [← hmid.split, htodo, requests_append, List.getElem?_append_right le_rfl, Nat.sub_self,
      requests, List.filterMap_cons_some hr, List.getElem?_cons_zero]
  rw [hms.numbers _ r hget, hmid.caught.number]
  omega

theorem submit_ne {a : Answers} (ha : .durabilityFailure ∉ a.submits) :
    a.submit ≠ .durabilityFailure := by
  rw [Answers.submit]
  cases hs : a.submits with
  | nil => nofun
  | cons x xs =>
    rintro rfl
    rw [hs] at ha
    exact ha List.mem_cons_self

/-- **The loop over the complete frames**: if the ring is full, then for the last of them, so that
the beginning of a frame is left. -/
theorem processDecoded_midway {h : Handled} {done todo : List Message} {a : Answers}
    (hmid : Midway g h₀ ms unread h done todo)
    (hms : WellBehaved g h₀.1.lastClientSeq ms) (hreading : h.1.readSuspended = false)
    (ha : .durabilityFailure ∉ a.submits)
    (hcalm : FullAtLast a.submits (g.gate.framing.scan h.1.decoder.buf).1) :
    ∃ done' todo', Midway g h₀ ms unread (processDecoded g a h) done' todo' ∧
      g.gate.framing.next (processDecoded g a h).1.decoder.buf = .more := by
  have hc := hmid.caught
  have hterm := hc.terminal
  have haccepted : ∀ m ∈ todo, g.gate.Accepts m := by
    intro m hm
    refine hms.accepted m ?_
    rw [← hmid.split]
    exact List.mem_append_right _ hm
  rcases g.gate.codec.front haccepted hmid.stream with hmore | ⟨m, todo', rfl, hok, hstream⟩
  · -- There is no complete frame.
    have hnext : h.1.decoder.next = (.incomplete, h.1.decoder) := by
      have hframe : h.1.decoder.gate.nextFrame h.1.decoder.buf = .more := by
        rw [hc.gate]
        exact hmore
      rw [FrameDecoder.next, hterm, if_neg Bool.false_ne_true, hframe]
    have hstop : ClientSession.processDecoded g a h = h := by
      rw [ClientSession.processDecoded, hnext]
    rw [hstop]
    exact ⟨done, todo, hmid, hmore⟩
  · have hnext : h.1.decoder.next =
        (.ok m, ⟨h.1.decoder.gate, h.1.decoder.buf.drop m.bytes.length, false⟩) := by
      have hframe : h.1.decoder.gate.nextFrame h.1.decoder.buf = .ok m m.bytes.length := by
        rw [hc.gate]
        exact hok
      rw [FrameDecoder.next, hterm, if_neg Bool.false_ne_true, hframe]
    obtain ⟨d, hd⟩ : ∃ d : FrameDecoder,
      d = ⟨h.1.decoder.gate, h.1.decoder.buf.drop m.bytes.length, false⟩ := ⟨_, rfl⟩
    have hbuf : d.buf = h.1.decoder.buf.drop m.bytes.length := by rw [hd]
    rw [← hd] at hnext
    have hcd : Caught g h₀ ({ h.1 with decoder := d }, h.2) done :=
      ⟨hc.state, hc.isOpen, hc.participant, by rw [hd]; exact hc.gate, by rw [hd],
        hc.kept, hc.number, hc.handed⟩
    obtain ⟨after, hafter⟩ : ∃ after,
      after = handleMessage g a m ({ h.1 with decoder := d }, h.2) := ⟨_, rfl⟩
    obtain ⟨hc', hdecoder, hsuspends⟩ := hcd.handleMessage hreading (g.gate.nextFrame_admits hok)
      (hms.kind m (by rw [← hmid.split]; simp)) (fun r hr => hmid.number hms rfl hr)
      (submit_ne ha)
    rw [← hafter] at hc' hdecoder hsuspends
    change after.1.decoder = d at hdecoder
    rw [Answers.submit] at hsuspends
    have hsame : ({ after.1 with decoder := d }, after.2) = after := by rw [← hdecoder]
    have hloop : ClientSession.processDecoded g a h =
        if after.1.closed = true ∨ h.1.state ≠ .awaitingLogin ∧ after.1.readSuspended = true then
          after
        else ClientSession.processDecoded g
          { a with submits := if m.request?.isSome then a.submits.tail else a.submits } after := by
      conv_lhs => rw [ClientSession.processDecoded, hnext]
      dsimp only
      rw [← hafter, hsame]
    have hmid' : Midway g h₀ ms unread after (done ++ [m]) todo' :=
      ⟨by rw [List.append_assoc]; exact hmid.split, hc', by rw [hdecoder, hbuf]; exact hstream⟩
    rw [Framing.scan_ok hok, FullAtLast] at hcalm
    rw [hloop]
    by_cases hstops : after.1.readSuspended = true
    · -- The ring is full: this was the last complete frame.
      obtain ⟨hrequest, hfull⟩ := hsuspends.1 hstops
      rw [if_pos hrequest, if_pos hfull] at hcalm
      rw [if_pos (Or.inr ⟨by rw [hc.state]; decide, hstops⟩)]
      refine ⟨_, _, hmid', ?_⟩
      rw [hdecoder, hbuf]
      rcases g.gate.codec.front (fun m' hm' => haccepted m' (List.mem_cons_of_mem _ hm'))
        hstream with hmore | ⟨m', todo'', rfl, hok', -⟩
      · exact hmore
      · rw [Framing.scan_ok hok'] at hcalm
        cases hcalm
    · have hgoes : ¬ (after.1.closed = true ∨
          h.1.state ≠ .awaitingLogin ∧ after.1.readSuspended = true) := by
        rw [hc'.isOpen]
        rintro (hno | ⟨-, hno⟩)
        · cases hno
        · exact hstops hno
      rw [if_neg hgoes]
      have hshorter : after.1.decoder.buf.length < h.1.decoder.buf.length := by
        have := g.gate.framing.size_pos hok
        have := g.gate.framing.size_le hok
        rw [hdecoder, hbuf, List.length_drop]
        omega
      refine processDecoded_midway hmid' hms (Bool.not_eq_true _ ▸ hstops) ?_ ?_
      · dsimp only
        split
        · exact fun hmem => ha (List.mem_of_mem_tail hmem)
        · exact ha
      · rw [hdecoder, hbuf]
        dsimp only
        by_cases hrequest : m.request?.isSome = true
        · rw [if_pos hrequest] at hcalm ⊢
          rwa [if_neg fun hfull => hstops (hsuspends.2 ⟨hrequest, hfull⟩)] at hcalm
        · rwa [if_neg hrequest] at hcalm ⊢
  termination_by h.1.decoder.buf.length

end Loop

/-! ## A run -/

section Run

variable {g : GatewayConfig} {h₀ h h' : Handled} {ms done todo : List Message}
  {data unread : List UInt8} {s : Step} {ss : List Step}

/-- The session waits for the rest of a frame, and has handled all before it. -/
def Waits (g : GatewayConfig) (h₀ : Handled) (ms : List Message) (unread : List UInt8)
    (h : Handled) : Prop :=
  ∃ done todo, Midway g h₀ ms unread h done todo ∧
    g.gate.framing.next h.1.decoder.buf = .more

/-- A read finds room behind the beginning of a frame. -/
theorem Waits.read (hw : Waits g h₀ ms (data ++ unread) h)
    (hms : WellBehaved g h₀.1.lastClientSeq ms) (hreading : h.1.readSuspended = false)
    (hdata : data.length ≤ 128) {submits : List TrySubmitResult}
    (hsubmits : .durabilityFailure ∉ submits) (hcalm : Calm g h (.read data submits)) :
    Waits g h₀ ms unread (onRead g data ⟨0, submits⟩ h) := by
  obtain ⟨done, todo, hmid, hmore⟩ := hw
  have hc := hmid.caught
  have hroom := FrameBuffer.room_of_more hmore
  have hfeed : h.1.decoder.feed data =
      some { h.1.decoder with buf := h.1.decoder.buf ++ data } := by
    rw [FrameDecoder.feed, if_neg]
    rintro (hterm | hfull)
    · rw [hc.terminal] at hterm
      cases hterm
    · omega
  have hmid' : Midway g h₀ ms unread ({ h.1 with
      missedHeartbeats := 0
      decoder := { h.1.decoder with buf := h.1.decoder.buf ++ data } }, h.2) done todo :=
    ⟨hmid.split, ⟨hc.state, hc.isOpen, hc.participant, hc.gate, hc.terminal, hc.kept, hc.number,
      hc.handed⟩, by rw [List.append_assoc]; exact hmid.stream⟩
  rw [onRead, hfeed]
  exact processDecoded_midway hmid' hms hreading hsubmits hcalm

/-- A retry hands over what is kept. -/
theorem Waits.retry (hw : Waits g h₀ ms unread h) {answer : TrySubmitResult}
    (hanswer : answer ≠ .durabilityFailure) : Waits g h₀ ms unread (retryPending answer h) := by
  obtain ⟨done, todo, hmid, hmore⟩ := hw
  have hc := hmid.caught
  rw [retryPending]
  cases hkept : h.1.pending with
  | none => exact ⟨done, todo, hmid, hmore⟩
  | some kept =>
    obtain ⟨shard, cmd⟩ := kept
    dsimp only
    rw [if_neg (by rw [hc.isOpen]; exact Bool.false_ne_true)]
    cases answer with
    | durabilityFailure => exact absurd rfl hanswer
    | ringFull =>
      refine ⟨done, todo, ⟨hmid.split, hc.congr rfl ?_, hmid.stream⟩, hmore⟩
      exact sequenced_snoc rfl
    | sequenced seq =>
      dsimp only
      rw [sendNewAckIfApplicable_fst]
      refine ⟨done, todo, ⟨hmid.split, ⟨hc.state, hc.isOpen, hc.participant, hc.gate, hc.terminal,
        rfl, hc.number, ?_⟩, hmid.stream⟩, hmore⟩
      have hhanded := hc.handed
      rw [held_some hkept] at hhanded
      rw [sequenced_sendNewAck, ← hhanded]
      exact (List.append_nil _).trans (sequenced_trySubmit _ _ _ _ _)

theorem Waits.heartbeatTimeout (hw : Waits g h₀ ms unread h)
    (hcalm : Calm g h .heartbeatTimeout) : Waits g h₀ ms unread (heartbeatTimeout h) := by
  obtain ⟨done, todo, hmid, hmore⟩ := hw
  have hc := hmid.caught
  rw [ClientSession.heartbeatTimeout, if_neg (by rw [hc.state]; decide)]
  dsimp only
  rw [if_neg (not_le.2 hcalm)]
  refine ⟨done, todo, ⟨hmid.split, ?_, ?_⟩, ?_⟩
  · exact Caught.congr (h := ({ h.1 with missedHeartbeats := h.1.missedHeartbeats + 1 }, h.2))
      ⟨hc.state, hc.isOpen, hc.participant, hc.gate, hc.terminal, hc.kept, hc.number, hc.handed⟩
      (sendFrame_fst _ _) (sequenced_sendFrame _ _)
  · rw [sendFrame_fst]
    exact hmid.stream
  · rw [sendFrame_fst]
    exact hmore

/-- **One step.** -/
theorem Waits.step (hw : Waits g h₀ ms (s.data ++ unread) h)
    (hms : WellBehaved g h₀.1.lastClientSeq ms) (hallowed : s.Allowed) (hcalm : Calm g h s)
    (hs : step g h s = some h') : Waits g h₀ ms unread h' := by
  cases s with
  | read data submits =>
    rw [ClientSession.step] at hs
    split at hs
    · cases hs
    · next hreads =>
      obtain rfl := Option.some.inj hs
      exact hw.read hms (Bool.not_eq_true _ ▸ (not_or.1 hreads).2) hallowed.2.1 hallowed.2.2 hcalm
  | retry answer =>
    obtain rfl := Option.some.inj hs
    exact hw.retry hallowed
  | heartbeatTimeout =>
    obtain rfl := Option.some.inj hs
    exact hw.heartbeatTimeout hcalm

theorem Waits.run (hw : Waits g h₀ ms (ss.flatMap Step.data ++ unread) h)
    (hms : WellBehaved g h₀.1.lastClientSeq ms) (hallowed : ∀ s ∈ ss, s.Allowed)
    (hcalm : CalmRun g h ss) (hrun : run g h ss = some h') : Waits g h₀ ms unread h' := by
  induction ss generalizing h with
  | nil => exact Option.some.inj hrun ▸ hw
  | cons s ss ih =>
    obtain ⟨h₁, hs, hrest⟩ := Option.bind_eq_some_iff.1 hrun
    rw [List.flatMap_cons, List.append_assoc] at hw
    exact ih (hw.step hms (hallowed s List.mem_cons_self) hcalm.1 hs)
      (fun s' hs' => hallowed s' (List.mem_cons_of_mem _ hs')) (hcalm.2 h₁ hs) hrest

theorem Ready.waits (hr : Ready g h)
    (hstream : h.1.decoder.buf ++ unread = ms.flatMap Message.bytes) :
    Waits g h ms unread h := by
  refine ⟨[], ms, ⟨rfl, ⟨hr.state, hr.isOpen, rfl, hr.gate, hr.terminal, ?_, rfl, ?_⟩, hstream⟩,
    hr.next⟩
  · rw [hr.kept, hr.reading]
    rfl
  · rw [held_none hr.kept]
    rfl

/-- **Backpressure spares the client** in every run whose steps are all calm: the session stays
open, and once the stream has been read and nothing is kept, the sequencer has every request. -/
theorem backpressure_spares_client (hr : Ready g h₀) (hms : WellBehaved g h₀.1.lastClientSeq ms)
    (hallowed : ∀ s ∈ ss, s.Allowed)
    (hstream : h₀.1.decoder.buf ++ (ss.flatMap Step.data ++ unread) = ms.flatMap Message.bytes)
    (hcalm : CalmRun g h₀ ss) (hrun : run g h₀ ss = some h) :
    h.1.closed = false ∧ (unread = [] → h.1.pending = none →
      sequenced h.2 = sequenced h₀.2 ++ (requests ms).map (Request.sub h₀.1.participantId)) := by
  obtain ⟨done, todo, hmid, hmore⟩ := (hr.waits hstream).run hms hallowed hcalm hrun
  refine ⟨hmid.caught.isOpen, fun hall hkept => ?_⟩
  have htodo : todo = [] := by
    cases htodo : todo with
    | nil => rfl
    | cons m todo' =>
      -- A whole message in the buffer is more than the beginning of one.
      have hstream' := hmid.stream
      rw [hall, List.append_nil, htodo, List.flatMap_cons] at hstream'
      have hok := g.gate.codec.next_enc (todo'.flatMap Message.bytes)
        (hms.accepted m (by rw [← hmid.split, htodo]; simp))
      rw [← hstream', hmore] at hok
      cases hok
  have hhanded := hmid.caught.handed
  rw [held_none hkept, List.append_nil] at hhanded
  rw [hhanded, ← hmid.split, htodo, List.append_nil]

/-- Participant 7 is logged in with number 0. -/
def loggedIn : Handled :=
  (⟨⟨smallGateway.gate, [], false⟩, .authenticated, 7, 0, false, false, none, 0⟩, [])

/-- A request to cancel order 3 with this number. -/
def cancelThree (n : Nat) : Message := .cancel ⟨.ofNat n, 3, 1⟩

/-- A cancel finds the ring full, and full again, and is sequenced then. -/
theorem backpressure_spares_client_cancelThree : ∃ h,
    run smallGateway loggedIn [.read (cancelThree 1).bytes [.ringFull], .retry .ringFull,
      .retry (.sequenced 1)] = some h ∧
    (h.1.closed = false ∧ ([] = ([] : List UInt8) → h.1.pending = none →
      sequenced h.2 = sequenced loggedIn.2 ++
        (requests [cancelThree 1]).map (Request.sub loggedIn.1.participantId))) := by
  have hms : WellBehaved smallGateway loggedIn.1.lastClientSeq [cancelThree 1] := by
    refine ⟨fun m hm => ?_, fun m hm => ?_, fun i r hr => ?_⟩
    · obtain rfl := List.mem_singleton.1 hm
      exact List.mem_singleton.2 rfl
    · obtain rfl := List.mem_singleton.1 hm
      exact Or.inl rfl
    · cases i with
      | zero =>
        obtain rfl := Option.some.inj hr
        rfl
      | succ i => cases hr
  have hscan := smallGateway.gate.codec.scan_flatMap hms.accepted
  rw [List.flatMap_cons, List.flatMap_nil, List.append_nil] at hscan
  have hrun : run smallGateway loggedIn [.read (cancelThree 1).bytes [.ringFull], .retry .ringFull,
      .retry (.sequenced 1)] = some _ := rfl
  refine ⟨_, hrun, backpressure_spares_client ⟨rfl, rfl, rfl, rfl, rfl, rfl, rfl⟩ hms ?_ ?_ ?_ hrun⟩
  · intro s hs
    simp only [List.mem_cons, List.not_mem_nil, or_false] at hs
    rcases hs with rfl | rfl | rfl
    · exact ⟨by decide +kernel, by decide +kernel, by decide⟩
    · exact nofun
    · exact nofun
  · exact List.append_nil _
  · refine ⟨?_, fun _ _ => ⟨trivial, fun _ _ => ⟨trivial, fun _ _ => trivial⟩⟩⟩
    change FullAtLast _ (smallGateway.gate.framing.scan (cancelThree 1).bytes).1
    rw [hscan]
    simp [FullAtLast, cancelThree, Message.request?]

/-- Sixteen of them. -/
def sixteenCancels : List UInt8 := (List.range' 1 16).flatMap fun n => (cancelThree n).bytes

/-- Two cancels in one read: the first finds the ring full and is sequenced in a retry, the second
stays in the buffer. And sixteen cancels, read in pieces of 128 bytes: each read finds the ring full
at its first frame, the retries succeed, and there is no room for the third read. -/
theorem backpressure_loses_client :
    (∃ h, run smallGateway loggedIn
        [.read ((cancelThree 1).bytes ++ (cancelThree 2).bytes) [.ringFull],
          .retry (.sequenced 1)] = some h ∧
      h.1.pending = none ∧ sequenced h.2 = [(1, ⟨3, 0, 0, 0, 7, 1, .buy, .limit, 0⟩)] ∧
      h.1.decoder.buf = (cancelThree 2).bytes) ∧
    ∃ h, run smallGateway loggedIn
        [.read (sixteenCancels.take 128) [.ringFull], .retry (.sequenced 1),
          .read ((sixteenCancels.drop 128).take 128) [.ringFull], .retry (.sequenced 2),
          .read ((sixteenCancels.drop 256).take 128) [.ringFull]] = some h ∧
      h.1.closed = true ∧ .closeSocket ∈ h.2 := by
  have hleft : (run smallGateway loggedIn
      [.read ((cancelThree 1).bytes ++ (cancelThree 2).bytes) [.ringFull],
        .retry (.sequenced 1)]).map (fun h => (h.1.pending, sequenced h.2, h.1.decoder.buf)) =
      some (none, [(1, ⟨3, 0, 0, 0, 7, 1, .buy, .limit, 0⟩)], (cancelThree 2).bytes) := by
    decide +kernel
  have hclosed : (run smallGateway loggedIn
      [.read (sixteenCancels.take 128) [.ringFull], .retry (.sequenced 1),
        .read ((sixteenCancels.drop 128).take 128) [.ringFull], .retry (.sequenced 2),
        .read ((sixteenCancels.drop 256).take 128) [.ringFull]]).map
      (fun h => (h.1.closed, decide (.closeSocket ∈ h.2))) = some (true, true) := by
    decide +kernel
  obtain ⟨h, hrun, hsummary⟩ := Option.map_eq_some_iff.1 hleft
  obtain ⟨hpending, hsummary⟩ := Prod.mk.inj hsummary
  obtain ⟨hsequenced, hbuf⟩ := Prod.mk.inj hsummary
  obtain ⟨h', hrun', hsummary'⟩ := Option.map_eq_some_iff.1 hclosed
  obtain ⟨hclosed', hsocket⟩ := Prod.mk.inj hsummary'
  exact ⟨⟨h, hrun, hpending, hsequenced, hbuf⟩, h', hrun', hclosed', of_decide_eq_true hsocket⟩

end Run

end ClientSession

end Velox
