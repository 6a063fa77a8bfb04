import Velox.Common.Types
import Velox.Lib.Bytes

/-!
# The wire vocabulary

Following `protocol/message_types.hpp` and `protocol/messages.hpp`. The two enumerations that only
the server sends, execution types and reject reasons, are bytes inside a message: the decoder casts
them without a check, so that any byte can stand there.
-/

namespace Velox

inductive MessageType where
  | login
  | newOrder
  | cancel
  | cancelReplace
  | heartbeat
  | loginAck
  | loginReject
  | execReport
  | reject
  | l2Delta
  | l3Order
  | l3Fill
  | tradeTick
  | snapshotStart
  | snapshotEnd
  deriving DecidableEq, Repr

namespace MessageType

def toByte : MessageType → UInt8
  | .login => 1
  | .newOrder => 2
  | .cancel => 3
  | .cancelReplace => 4
  | .heartbeat => 5
  | .loginAck => 6
  | .loginReject => 7
  | .execReport => 8
  | .reject => 9
  | .l2Delta => 10
  | .l3Order => 11
  | .l3Fill => 12
  | .tradeTick => 13
  | .snapshotStart => 14
  | .snapshotEnd => 15

def all : List MessageType :=
  [.login, .newOrder, .cancel, .cancelReplace, .heartbeat, .loginAck, .loginReject, .execReport,
    .reject, .l2Delta, .l3Order, .l3Fill, .tradeTick, .snapshotStart, .snapshotEnd]

/-- The known types, as `isKnownMessageType` has them. -/
def ofByte (b : UInt8) : Option MessageType := all.find? fun t => decide (t.toByte = b)

/-- The size of the payload behind the type byte. -/
def expectedPayloadSize : MessageType → Nat
  | .login => 48
  | .newOrder => 39
  | .cancel => 20
  | .cancelReplace => 36
  | .heartbeat => 8
  | .loginAck => 9
  | .loginReject => 2
  | .execReport => 49
  | .reject => 17
  | .l2Delta => 34
  | .l3Order => 54
  | .l3Fill => 52
  | .tradeTick => 53
  | .snapshotStart => 20
  | .snapshotEnd => 16

end MessageType

inductive WireOrderType where
  | limit
  | market
  deriving DecidableEq, Repr

inductive WireTimeInForce where
  | day
  | ioc
  | fok
  deriving DecidableEq, Repr

inductive ExecType where
  | newAck
  | partialFill
  | fill
  | cancelled
  | replaced
  deriving DecidableEq, Repr

def ExecType.toByte : ExecType → UInt8
  | .newAck => 0
  | .partialFill => 1
  | .fill => 2
  | .cancelled => 3
  | .replaced => 4

inductive RejectReason where
  | malformedFrame
  | unknownMessageType
  | invalidField
  | unknownInstrument
  | notAuthenticated
  | duplicateSeq
  | sequenceGap
  | ringFull
  | engineReject
  | invalidTifCombination
  | authFailed
  | alreadyAuthenticated
  deriving DecidableEq, Repr

def RejectReason.toByte : RejectReason → UInt8
  | .malformedFrame => 0
  | .unknownMessageType => 1
  | .invalidField => 2
  | .unknownInstrument => 3
  | .notAuthenticated => 4
  | .duplicateSeq => 5
  | .sequenceGap => 6
  | .ringFull => 7
  | .engineReject => 8
  | .invalidTifCombination => 9
  | .authFailed => 10
  | .alreadyAuthenticated => 11

def kFrameHeaderSize : Nat := 4

def kMsgTypeSize : Nat := 1

def kMaxFrame : Nat := 64

structure LoginMsg where
  participantId : Int64
  token : List UInt8
  clientSeqNum : UInt64
  deriving DecidableEq

structure NewOrderMsg where
  clientSeqNum : UInt64
  orderId : Int64
  instrumentId : UInt32
  side : Side
  orderType : WireOrderType
  price : Int64
  quantity : Int64
  timeInForce : WireTimeInForce
  deriving DecidableEq

structure CancelMsg where
  clientSeqNum : UInt64
  orderId : Int64
  instrumentId : UInt32
  deriving DecidableEq

structure CancelReplaceMsg where
  clientSeqNum : UInt64
  orderId : Int64
  instrumentId : UInt32
  newPrice : Int64
  newQuantity : Int64
  deriving DecidableEq

structure HeartbeatMsg where
  marker : UInt64
  deriving DecidableEq

structure LoginAckMsg where
  serverSeq : Int64
  status : UInt8
  deriving DecidableEq

structure LoginRejectMsg where
  reason : UInt8
  reserved : UInt8
  deriving DecidableEq

structure ExecReportMsg where
  orderId : Int64
  execType : UInt8
  execQty : Int64
  leavesQty : Int64
  tradePrice : Int64
  tradeId : Int64
  globalSeq : Int64
  deriving DecidableEq

structure RejectMsg where
  orderId : Int64
  reason : UInt8
  globalSeq : Int64
  deriving DecidableEq

/-- A message of the order-entry connection, in either direction. -/
inductive Message where
  | login (m : LoginMsg)
  | newOrder (m : NewOrderMsg)
  | cancel (m : CancelMsg)
  | cancelReplace (m : CancelReplaceMsg)
  | heartbeat (m : HeartbeatMsg)
  | loginAck (m : LoginAckMsg)
  | loginReject (m : LoginRejectMsg)
  | execReport (m : ExecReportMsg)
  | reject (m : RejectMsg)
  deriving DecidableEq

end Velox
