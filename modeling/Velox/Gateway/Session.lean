import Velox.Lib.SortedMap
import Velox.Protocol.Decoder
import Velox.Sequencer.Sequencer

/-!
# A client session

Following `gateway/session.cpp`, `gateway/auth.hpp` and the parts of `gateway/gateway.hpp` that a
session calls. A handler is a function from the session to the session and the list of what it did
to the rest of the server: routes written and erased, commands submitted, frames queued for the
client, the socket closed. What the sequencer answers is handed to the handler as a list, one answer
for each call of `trySubmit`.

The command that a session builds is zero-initialised, and a cancel and a replace leave the fields
they do not mention at zero: the side of both is `Buy`.
-/

namespace Velox

/-! ## What a session asks of the server -/

structure AuthHandler where
  creds : SortedMap Int (Vector UInt8 32)

/-- The bytes are compared to the end, also for a participant that is not known. -/
def AuthHandler.authenticate (a : AuthHandler) (id : Int64) (token : List UInt8) : Bool :=
  let found := a.creds.find id.toInt
  let expected := (found.getD (Vector.replicate 32 0)).toList
  let diff := (List.zipWith (· ^^^ ·) expected token).foldl (· ||| ·) 0
  found.isSome && decide (diff = 0)

namespace InstrumentSet

def kMaxInstruments : Nat := 64

def add (ids : List UInt32) (id : UInt32) : List UInt32 :=
  if id ∈ ids ∨ kMaxInstruments ≤ ids.length then ids else ids ++ [id]

/-- The set of the instruments of these shards. -/
def ofShards (shards : List UInt32) : List UInt32 := shards.foldl add []

theorem mem_foldl_add {shards ids : List UInt32} {id : UInt32} (h : id ∈ shards.foldl add ids) :
    id ∈ ids ∨ id ∈ shards := by
  induction shards generalizing ids with
  | nil => exact Or.inl h
  | cons s shards ih =>
    rcases ih h with hadd | hrest
    · rw [add] at hadd
      split at hadd
      · exact Or.inl hadd
      · rcases List.mem_append.1 hadd with hadd | hadd
        · exact Or.inl hadd
        · exact Or.inr (List.mem_cons.2 (Or.inl (List.mem_singleton.1 hadd)))
    · exact Or.inr (List.mem_cons_of_mem _ hrest)

theorem mem_of_mem_ofShards {shards : List UInt32} {id : UInt32} (h : id ∈ ofShards shards) :
    id ∈ shards :=
  (mem_foldl_add h).resolve_left List.not_mem_nil

end InstrumentSet

/-- The gateway as a session sees it. -/
structure GatewayConfig where
  auth : AuthHandler
  /-- The instrument of each shard. -/
  shards : List UInt32
  minPrice : Int64
  maxPrice : Int64

def GatewayConfig.gate (g : GatewayConfig) : Gate :=
  ⟨InstrumentSet.ofShards g.shards, g.minPrice, g.maxPrice⟩

def GatewayConfig.shardIndexFor (g : GatewayConfig) (id : UInt32) : Option Nat := g.shards.idxOf? id

/-- What a handler does outside the session. -/
inductive Action where
  | registerRoute (shard : Nat) (id : Int64) (clientSeqNum : UInt64)
  | eraseRoute (shard : Nat) (id : Int64)
  /-- A call of the sequencer, with the session's `lastClientSeq_` at that moment. -/
  | trySubmit (shard : Nat) (clientSeqNum : UInt64) (cmd : Command) (answer : TrySubmitResult)
  | sendFrame (m : Message)
  | closeSocket
  deriving DecidableEq

/-! ## From messages to commands -/

def NewOrderMsg.type (m : NewOrderMsg) : OrderType :=
  if m.orderType = .market then .market
  else if m.timeInForce = .ioc then .ioc
  else if m.timeInForce = .fok then .fok
  else .limit

def NewOrderMsg.command (m : NewOrderMsg) (participant : Int64) : Command :=
  ⟨m.orderId, 0, m.price, m.quantity, participant, CommandKind.new.toByte, m.side, m.type, 0⟩

def CancelMsg.command (m : CancelMsg) (participant : Int64) : Command :=
  ⟨m.orderId, 0, 0, 0, participant, CommandKind.cancel.toByte, .buy, .limit, 0⟩

/-- The id stays the same: there is no field for a new one on this wire. -/
def CancelReplaceMsg.command (m : CancelReplaceMsg) (participant : Int64) : Command :=
  ⟨m.orderId, m.orderId, m.newPrice, m.newQuantity, participant, CommandKind.replace.toByte, .buy,
    .limit, 0⟩

/-- A message that asks for a command: its number, order, instrument and, for a participant, the
command. -/
structure Request where
  clientSeqNum : UInt64
  orderId : Int64
  instrumentId : UInt32
  command : Int64 → Command

def Message.request? : Message → Option Request
  | .newOrder m => some ⟨m.clientSeqNum, m.orderId, m.instrumentId, m.command⟩
  | .cancel m => some ⟨m.clientSeqNum, m.orderId, m.instrumentId, m.command⟩
  | .cancelReplace m => some ⟨m.clientSeqNum, m.orderId, m.instrumentId, m.command⟩
  | _ => none

/-- A request that passed the decoder is for an instrument of this process. -/
theorem Gate.admits_instrument (g : Gate) {m : Message} {r : Request} (hm : g.Admits m)
    (hr : m.request? = some r) : r.instrumentId ∈ g.instruments := by
  cases m with
  | newOrder m =>
    cases hr
    exact hm.1
  | cancel m =>
    cases hr
    exact hm
  | cancelReplace m =>
    cases hr
    exact hm.1
  | _ => cases hr

/-- The id under which reports on a command are routed. -/
def Command.routedId (cmd : Command) : Int64 :=
  if cmd.kind = CommandKind.replace.toByte then cmd.newId else cmd.id

/-! ## The session -/

inductive SessionState where
  | awaitingLogin
  | authenticated
  | closing
  deriving DecidableEq, Repr

structure ClientSession where
  decoder : FrameDecoder
  state : SessionState
  participantId : Int64
  lastClientSeq : UInt64
  readSuspended : Bool
  closed : Bool
  /-- The command that found the ring full, and its shard. -/
  pending : Option (Nat × Command)
  missedHeartbeats : Nat

namespace ClientSession

def kMaxMissedHeartbeats : Nat := 3

def create (g : GatewayConfig) : ClientSession :=
  ⟨.create g.gate, .awaitingLogin, 0, 0, false, false, none, 0⟩

/-- A session with all it has done so far. -/
abbrev Handled := ClientSession × List Action

def sendFrame (m : Message) (h : Handled) : Handled :=
  if h.1.closed then h else (h.1, h.2 ++ [.sendFrame m])

def act (a : Action) (h : Handled) : Handled := (h.1, h.2 ++ [a])

def closeSession (h : Handled) : Handled :=
  if h.1.closed then h
  else ({ h.1 with closed := true, state := .closing }, h.2 ++ [.closeSocket])

def sendLoginReject (reason : RejectReason) : Handled → Handled :=
  sendFrame (.loginReject ⟨reason.toByte, 0⟩)

def sendReject (orderId : Int64) (reason : RejectReason) : Handled → Handled :=
  sendFrame (.reject ⟨orderId, reason.toByte, 0⟩)

def sendNewAckIfApplicable (cmd : Command) (seq : Int) (h : Handled) : Handled :=
  if cmd.kind ≠ CommandKind.new.toByte then h
  else sendFrame (.execReport ⟨cmd.id, ExecType.newAck.toByte, 0, cmd.quantity, 0, 0, .ofInt seq⟩) h

def handleLogin (g : GatewayConfig) (ackSeq : Int64) (m : LoginMsg) (h : Handled) : Handled :=
  if g.auth.authenticate m.participantId m.token = false then
    closeSession (sendLoginReject .authFailed h)
  else
    sendFrame (.loginAck ⟨ackSeq, 0⟩)
      ({ h.1 with
          participantId := m.participantId, lastClientSeq := m.clientSeqNum,
          state := .authenticated }, h.2)

def handleHeartbeat (h : Handled) : Handled := ({ h.1 with missedHeartbeats := 0 }, h.2)

/-- Is this the next number of the client? A number seen before is rejected, a gap ends the
session. -/
def checkClientSeq (n : UInt64) (orderId : Int64) (h : Handled) : Bool × Handled :=
  if n ≤ h.1.lastClientSeq then (false, sendReject orderId .duplicateSeq h)
  else if h.1.lastClientSeq + 1 < n then
    (false, closeSession (sendReject orderId .sequenceGap h))
  else (true, ({ h.1 with lastClientSeq := n }, h.2))

/-- The command is routed before the ring is touched. If the ring is full it is kept, and the
session stops reading. -/
def submitOrPend (cmd : Command) (shard : Nat) (answer : TrySubmitResult) (h : Handled) : Handled :=
  let h := act (.registerRoute shard cmd.routedId h.1.lastClientSeq) h
  let h := act (.trySubmit shard h.1.lastClientSeq cmd answer) h
  match answer with
  | .sequenced seq => sendNewAckIfApplicable cmd seq h
  | .ringFull => ({ h.1 with pending := some (shard, cmd), readSuspended := true }, h.2)
  | .durabilityFailure =>
    closeSession (sendReject cmd.routedId .engineReject (act (.eraseRoute shard cmd.routedId) h))

/-- The three handlers of orders differ in the command they build. -/
def handleRequest (g : GatewayConfig) (r : Request) (answer : TrySubmitResult) (h : Handled) :
    Handled :=
  match checkClientSeq r.clientSeqNum r.orderId h with
  | (false, h) => h
  | (true, h) =>
    match g.shardIndexFor r.instrumentId with
    | none => sendReject r.orderId .engineReject h
    | some shard => submitOrPend (r.command h.1.participantId) shard answer h

def handleNewOrder (g : GatewayConfig) (m : NewOrderMsg) : TrySubmitResult → Handled → Handled :=
  handleRequest g ⟨m.clientSeqNum, m.orderId, m.instrumentId, m.command⟩

def handleCancel (g : GatewayConfig) (m : CancelMsg) : TrySubmitResult → Handled → Handled :=
  handleRequest g ⟨m.clientSeqNum, m.orderId, m.instrumentId, m.command⟩

def handleCancelReplace (g : GatewayConfig) (m : CancelReplaceMsg) :
    TrySubmitResult → Handled → Handled :=
  handleRequest g ⟨m.clientSeqNum, m.orderId, m.instrumentId, m.command⟩

/-- What the rest of the server answers to a handler. -/
structure Answers where
  ackSeq : Int64
  submits : List TrySubmitResult

/-- The next answer of the sequencer. -/
def Answers.submit (a : Answers) : TrySubmitResult := a.submits.headD .ringFull

def handleMessage (g : GatewayConfig) (a : Answers) (m : Message) (h : Handled) : Handled :=
  if h.1.state = .awaitingLogin then
    match m with
    | .login m => handleLogin g a.ackSeq m h
    | .heartbeat _ => handleHeartbeat h
    | _ => closeSession (sendLoginReject .notAuthenticated h)
  else
    match m with
    | .newOrder m => handleNewOrder g m a.submit h
    | .cancel m => handleCancel g m a.submit h
    | .cancelReplace m => handleCancelReplace g m a.submit h
    | .heartbeat _ => handleHeartbeat h
    | .login _ => closeSession (sendLoginReject .alreadyAuthenticated h)
    | _ => closeSession h

/-- The loop over the frames that are complete. It ends when the session is closed or, once it is
authenticated, when it has stopped reading. -/
def processDecoded (g : GatewayConfig) (a : Answers) (h : Handled) : Handled :=
  match _h : h.1.decoder.next with
  | (.incomplete, d) => ({ h.1 with decoder := d }, h.2)
  | (.invalid _, d) => closeSession ({ h.1 with decoder := d }, h.2)
  | (.ok m, d) =>
    let after := handleMessage g a m ({ h.1 with decoder := d }, h.2)
    if after.1.closed = true ∨ h.1.state ≠ .awaitingLogin ∧ after.1.readSuspended = true then
      ({ after.1 with decoder := d }, after.2)
    else
      processDecoded g { a with submits := if m.request?.isSome then a.submits.tail else a.submits }
        ({ after.1 with decoder := d }, after.2)
  termination_by h.1.decoder.buf.length
  decreasing_by
    obtain ⟨size, hn, rfl⟩ := FrameDecoder.next_ok _h
    have := h.1.decoder.gate.framing.size_pos hn
    have := h.1.decoder.gate.framing.size_le hn
    rw [List.length_drop]
    omega

def onRead (g : GatewayConfig) (data : List UInt8) (a : Answers) (h : Handled) : Handled :=
  match h.1.decoder.feed data with
  | none => closeSession ({ h.1 with missedHeartbeats := 0 }, h.2)
  | some d => processDecoded g a ({ h.1 with missedHeartbeats := 0, decoder := d }, h.2)

/-- Another attempt to submit the command that is kept. -/
def retryPending (answer : TrySubmitResult) (h : Handled) : Handled :=
  match h.1.pending with
  | none => h
  | some (shard, cmd) =>
    if h.1.closed then h
    else
      let h := act (.trySubmit shard h.1.lastClientSeq cmd answer) h
      match answer with
      | .ringFull => h
      | .sequenced seq =>
        let h := sendNewAckIfApplicable cmd seq ({ h.1 with pending := none }, h.2)
        ({ h.1 with readSuspended := false }, h.2)
      | .durabilityFailure =>
        closeSession (sendReject cmd.routedId .engineReject
          (act (.eraseRoute shard cmd.routedId) ({ h.1 with pending := none }, h.2)))

def authTimeout (h : Handled) : Handled :=
  if h.1.state ≠ .awaitingLogin then h else closeSession h

def heartbeatTimeout (h : Handled) : Handled :=
  if h.1.state = .closing then h
  else
    let h : Handled := ({ h.1 with missedHeartbeats := h.1.missedHeartbeats + 1 }, h.2)
    if kMaxMissedHeartbeats ≤ h.1.missedHeartbeats then closeSession h
    else sendFrame (.heartbeat ⟨0⟩) h

/-- `Serves g bs h`: a session that has read the bytes `bs` can have come to `h`.

A read is started only by a session that is open and has not stopped reading, and `read` is one
that ends on such a session. The handler does not ask again: a read that was over, but not yet
handled, when a timer closed the session is not a step here. -/
inductive Serves (g : GatewayConfig) : List UInt8 → Handled → Prop
  | start : Serves g [] (create g, [])
  | read {bs h} (hs : Serves g bs h) (data : List UInt8) (a : Answers)
      (hopen : h.1.closed = false) (hreads : h.1.readSuspended = false) :
      Serves g (bs ++ data) (onRead g data a h)
  | retry {bs h} (hs : Serves g bs h) (answer : TrySubmitResult) :
      Serves g bs (retryPending answer h)
  | authTimeout {bs h} (hs : Serves g bs h) : Serves g bs (authTimeout h)
  | heartbeatTimeout {bs h} (hs : Serves g bs h) : Serves g bs (heartbeatTimeout h)
  | ioError {bs h} (hs : Serves g bs h) : Serves g bs (closeSession h)

end ClientSession

end Velox
