import Velox.Ipc.Command
import Velox.Protocol.FrameBuffer

/-!
# The encoders of the order-entry protocol

Following `protocol/encoder.cpp`. Every field is written at the offset at which the decoder reads
it: a message with fields that the decoder accepts is read as it was written, and a frame that is
accepted is the encoding of the message it is read as (`Gate.codec`).
-/

namespace Velox

open Bytes

def WireOrderType.toByte : WireOrderType → UInt8
  | .limit => 0
  | .market => 1

def WireTimeInForce.toByte : WireTimeInForce → UInt8
  | .day => 0
  | .ioc => 1
  | .fok => 2

def encodeLogin (m : LoginMsg) : FrameStores where
  type := .login
  fields := [(0, putI64 m.participantId), (8, m.token), (8 + 32, putU64 m.clientSeqNum)]

def encodeNewOrder (m : NewOrderMsg) : FrameStores where
  type := .newOrder
  fields :=
    [(0, putU64 m.clientSeqNum), (8, putI64 m.orderId), (16, putU32 m.instrumentId),
      (20, putU8 m.side.toByte), (21, putU8 m.orderType.toByte), (22, putI64 m.price),
      (30, putI64 m.quantity), (38, putU8 m.timeInForce.toByte)]

def encodeCancel (m : CancelMsg) : FrameStores where
  type := .cancel
  fields := [(0, putU64 m.clientSeqNum), (8, putI64 m.orderId), (16, putU32 m.instrumentId)]

def encodeCancelReplace (m : CancelReplaceMsg) : FrameStores where
  type := .cancelReplace
  fields :=
    [(0, putU64 m.clientSeqNum), (8, putI64 m.orderId), (16, putU32 m.instrumentId),
      (20, putI64 m.newPrice), (28, putI64 m.newQuantity)]

def encodeHeartbeat (m : HeartbeatMsg) : FrameStores where
  type := .heartbeat
  fields := [(0, putU64 m.marker)]

def encodeLoginAck (m : LoginAckMsg) : FrameStores where
  type := .loginAck
  fields := [(0, putI64 m.serverSeq), (8, putU8 m.status)]

def encodeLoginReject (m : LoginRejectMsg) : FrameStores where
  type := .loginReject
  fields := [(0, putU8 m.reason), (1, putU8 m.reserved)]

def encodeExecReport (m : ExecReportMsg) : FrameStores where
  type := .execReport
  fields :=
    [(0, putI64 m.orderId), (8, putU8 m.execType), (9, putI64 m.execQty), (17, putI64 m.leavesQty),
      (25, putI64 m.tradePrice), (33, putI64 m.tradeId), (41, putI64 m.globalSeq)]

def encodeReject (m : RejectMsg) : FrameStores where
  type := .reject
  fields := [(0, putI64 m.orderId), (8, putU8 m.reason), (9, putI64 m.globalSeq)]

namespace Message

def encode : Message → FrameStores
  | .login m => encodeLogin m
  | .newOrder m => encodeNewOrder m
  | .cancel m => encodeCancel m
  | .cancelReplace m => encodeCancelReplace m
  | .heartbeat m => encodeHeartbeat m
  | .loginAck m => encodeLoginAck m
  | .loginReject m => encodeLoginReject m
  | .execReport m => encodeExecReport m
  | .reject m => encodeReject m

/-- The message on the wire. -/
def bytes (m : Message) : List UInt8 := frame m.encode.type m.encode.payload

/-- A token is an array of 32 bytes. -/
def WellFormed : Message → Prop
  | .login m => m.token.length = 32
  | _ => True

theorem WellFormed.fills {m : Message} (h : m.WellFormed) : m.encode.Fills := by
  cases m with
  | login m =>
    have htoken : m.token.length = 32 := h
    exact ⟨by simp [encode, encodeLogin, Memory.Adjacent, htoken],
      by simp [encode, encodeLogin, FrameStores.payload, MessageType.expectedPayloadSize, htoken]⟩
  | newOrder | cancel | cancelReplace | heartbeat | loginAck | loginReject | execReport | reject =>
    exact ⟨by simp [encode, encodeNewOrder, encodeCancel, encodeCancelReplace, encodeHeartbeat,
        encodeLoginAck, encodeLoginReject, encodeExecReport, encodeReject, Memory.Adjacent],
      by simp [encode, encodeNewOrder, encodeCancel, encodeCancelReplace, encodeHeartbeat,
        encodeLoginAck, encodeLoginReject, encodeExecReport, encodeReject, FrameStores.payload,
        MessageType.expectedPayloadSize]⟩

end Message

namespace Gate

variable (g : Gate)

/-- The fields are such that the decoder accepts the message. -/
def Accepts : Message → Prop
  | .login m => m.token.length = 32
  | .newOrder m =>
    m.instrumentId ∈ g.instruments ∧ 0 < m.quantity ∧
      ¬ (m.orderType = .market ∧ m.timeInForce = .fok) ∧
      (m.orderType = .limit → g.outOfRange m.price = false) ∧
      (m.orderType = .market → m.price = 0 ∨ g.outOfRange m.price = false)
  | .cancel m => m.instrumentId ∈ g.instruments
  | .cancelReplace m =>
    m.instrumentId ∈ g.instruments ∧ 0 < m.newQuantity ∧ g.outOfRange m.newPrice = false
  | _ => True

theorem wireSide_toByte (s : Side) : wireSide s.toByte = some s := by cases s <;> rfl

theorem wireOrderType_toByte (t : WireOrderType) : wireOrderType t.toByte = some t := by
  cases t <;> rfl

theorem wireTif_toByte (t : WireTimeInForce) : wireTif t.toByte = some t := by cases t <;> rfl

theorem toByte_of_wireSide {raw : UInt8} {s : Side} (h : wireSide raw = some s) :
    s.toByte = raw := by
  unfold wireSide at h
  split_ifs at h with h₀ h₁
  · cases h
    exact h₀.symm
  · cases h
    exact h₁.symm

theorem toByte_of_wireOrderType {raw : UInt8} {t : WireOrderType}
    (h : wireOrderType raw = some t) : t.toByte = raw := by
  unfold wireOrderType at h
  split_ifs at h with h₀ h₁
  · cases h
    exact h₀.symm
  · cases h
    exact h₁.symm

theorem toByte_of_wireTif {raw : UInt8} {t : WireTimeInForce} (h : wireTif raw = some t) :
    t.toByte = raw := by
  unfold wireTif at h
  split_ifs at h with h₀ h₁ h₂
  · cases h
    exact h₀.symm
  · cases h
    exact h₁.symm
  · cases h
    exact h₂.symm

theorem Accepts.wellFormed {m : Message} (h : g.Accepts m) : m.WellFormed := by
  cases m with
  | login => exact h
  | newOrder | cancel | cancelReplace | heartbeat | loginAck | loginReject | execReport | reject =>
    trivial

theorem checkNewOrder_eq_ok {m : NewOrderMsg} (h : g.Accepts (.newOrder m)) :
    g.checkNewOrder m = .ok (.newOrder m) := by
  obtain ⟨hinst, hqty, htif, hlimit, hmarket⟩ := h
  rw [checkNewOrder, if_neg (not_not.2 hinst), if_neg (Int64.not_le.2 hqty), if_neg htif]
  cases htype : m.orderType with
  | limit => rw [if_pos rfl, hlimit htype, if_neg Bool.false_ne_true]
  | market =>
    rw [if_neg (by decide), if_neg]
    rintro ⟨hne, hrange⟩
    rcases hmarket htype with h0 | hin
    · exact hne h0
    · rw [hin] at hrange
      cases hrange

/-- The decoder reads each field where the encoder wrote it. -/
theorem decodePayload_encode {m : Message} (h : g.Accepts m) :
    g.decodePayload m.encode.payload m.encode.type = .ok m := by
  cases m with
  | login m =>
    have htoken : m.token.length = 32 := h
    simp [Message.encode, encodeLogin, FrameStores.payload, decodePayload, decodeLogin, htoken]
  | newOrder m =>
    simp [Message.encode, encodeNewOrder, FrameStores.payload, decodePayload, decodeNewOrder,
      wireSide_toByte, wireOrderType_toByte, wireTif_toByte, g.checkNewOrder_eq_ok h]
  | cancel m =>
    have hinst : m.instrumentId ∈ g.instruments := h
    simp [Message.encode, encodeCancel, FrameStores.payload, decodePayload, decodeCancel, hinst]
  | cancelReplace m =>
    obtain ⟨hinst, hqty, hrange⟩ := h
    simp [Message.encode, encodeCancelReplace, FrameStores.payload, decodePayload,
      decodeCancelReplace, hinst, hqty, hrange]
  | heartbeat => simp [Message.encode, encodeHeartbeat, FrameStores.payload, decodePayload]
  | loginAck => simp [Message.encode, encodeLoginAck, FrameStores.payload, decodePayload]
  | loginReject => simp [Message.encode, encodeLoginReject, FrameStores.payload, decodePayload]
  | execReport => simp [Message.encode, encodeExecReport, FrameStores.payload, decodePayload]
  | reject => simp [Message.encode, encodeReject, FrameStores.payload, decodePayload]

theorem checkNewOrder_ok {m : NewOrderMsg} {r : Message} (h : g.checkNewOrder m = .ok r) :
    r = .newOrder m := by
  unfold checkNewOrder at h
  split_ifs at h <;> cases h <;> rfl

/-- **The encoder writes back what the decoder read.** -/
theorem encode_of_decodePayload {p : List UInt8} {type : MessageType} {m : Message}
    (h : g.decodePayload p type = .ok m) (hlen : p.length = type.expectedPayloadSize) :
    m.encode.type = type ∧ m.encode.payload = p := by
  -- Each field is the slice of the payload that it was read from.
  cases type with
  | login =>
    have hp : p.length = 48 := hlen
    cases h
    have htoken : (Message.login ⟨getI64 0 p, (p.drop 8).take 32, getU64 40 p⟩).WellFormed := by
      change ((p.drop 8).take 32).length = 32
      simp [hp]
    refine ⟨rfl, htoken.fills.payload_eq hlen ?_⟩
    simp [Message.encode, encodeLogin, putI64_getI64, putU64_getU64, hp, slice]
  | newOrder =>
    have hp : p.length = 39 := hlen
    change g.decodeNewOrder p = _ at h
    unfold decodeNewOrder at h
    split at h
    · next side type tif hside htype htif =>
      cases g.checkNewOrder_ok h
      refine ⟨rfl, (Message.WellFormed.fills (m := .newOrder _) trivial).payload_eq hlen ?_⟩
      simp [Message.encode, encodeNewOrder, toByte_of_wireSide hside, toByte_of_wireOrderType htype,
        toByte_of_wireTif htif, putU64_getU64, putI64_getI64, putU32_getU32, putU8_getU8, hp,
        length_slice]
    · cases h
  | cancel =>
    have hp : p.length = 20 := hlen
    change g.decodeCancel p = _ at h
    unfold decodeCancel at h
    dsimp only at h
    split_ifs at h
    cases h
    refine ⟨rfl, (Message.WellFormed.fills (m := .cancel _) trivial).payload_eq hlen ?_⟩
    simp [Message.encode, encodeCancel, putU64_getU64, putI64_getI64, putU32_getU32, hp,
      length_slice]
  | cancelReplace =>
    have hp : p.length = 36 := hlen
    change g.decodeCancelReplace p = _ at h
    unfold decodeCancelReplace at h
    dsimp only at h
    split_ifs at h
    cases h
    refine ⟨rfl, (Message.WellFormed.fills (m := .cancelReplace _) trivial).payload_eq hlen ?_⟩
    simp [Message.encode, encodeCancelReplace, putU64_getU64, putI64_getI64, putU32_getU32, hp,
      length_slice]
  | heartbeat =>
    have hp : p.length = 8 := hlen
    cases h
    refine ⟨rfl, (Message.WellFormed.fills (m := .heartbeat _) trivial).payload_eq hlen ?_⟩
    simp [Message.encode, encodeHeartbeat, putU64_getU64, hp, length_slice]
  | loginAck =>
    have hp : p.length = 9 := hlen
    cases h
    refine ⟨rfl, (Message.WellFormed.fills (m := .loginAck _) trivial).payload_eq hlen ?_⟩
    simp [Message.encode, encodeLoginAck, putI64_getI64, putU8_getU8, hp, length_slice]
  | loginReject =>
    have hp : p.length = 2 := hlen
    cases h
    refine ⟨rfl, (Message.WellFormed.fills (m := .loginReject _) trivial).payload_eq hlen ?_⟩
    simp [Message.encode, encodeLoginReject, putU8_getU8, hp, length_slice]
  | execReport =>
    have hp : p.length = 49 := hlen
    cases h
    refine ⟨rfl, (Message.WellFormed.fills (m := .execReport _) trivial).payload_eq hlen ?_⟩
    simp [Message.encode, encodeExecReport, putI64_getI64, putU8_getU8, hp, length_slice]
  | reject =>
    have hp : p.length = 17 := hlen
    cases h
    refine ⟨rfl, (Message.WellFormed.fills (m := .reject _) trivial).payload_eq hlen ?_⟩
    simp [Message.encode, encodeReject, putI64_getI64, putU8_getU8, hp, length_slice]
  | l2Delta | l3Order | l3Fill | tradeTick | snapshotStart | snapshotEnd => cases h

/-- **Encoder and decoder fit together.** -/
theorem codec : g.framing.Codec Message.bytes g.Accepts where
  next_enc {m} rest h := by
    change g.nextFrame (m.bytes ++ rest) = .ok m m.bytes.length
    rw [nextFrame_eq_parseFrame]
    exact parseFrame_frame (Accepts.wellFormed g h).fills.size rest (g.decodePayload_encode h)
  take_eq {bs m n} h := by
    change g.nextFrame bs = .ok m n at h
    rw [nextFrame_eq_parseFrame] at h
    obtain ⟨type, payload, -, -, hframe, hlen, hdecode⟩ := parseFrame_ok h
    obtain ⟨rfl, rfl⟩ := g.encode_of_decodePayload hdecode hlen
    exact hframe
  nil := rfl

end Gate

end Velox
