import Velox.Protocol.Frames

/-!
# The frame decoder

Following `protocol/decoder.hpp` and `protocol/decoder.cpp`: a fixed buffer of 256 bytes that is
fed from the socket, and `next`, which checks and decodes the frame at its front. The first frame
that fails a check makes the decoder terminal.

The function that looks at the front of the buffer is a `Framing` (`Gate.framing`): a complete
frame is judged by its own bytes, and bytes that follow never change the verdict.
-/

namespace Velox

open Bytes

/-- What the decoder checks fields against: the instruments of the process and the price range of
their books. -/
structure Gate where
  instruments : List UInt32
  minPrice : Int64
  maxPrice : Int64
  deriving DecidableEq

namespace Gate

variable (g : Gate)

/-- Below the lowest or above the highest price. -/
def outOfRange (price : Int64) : Bool := decide (price < g.minPrice ∨ g.maxPrice < price)

def decodeLogin (p : List UInt8) : Except RejectReason Message :=
  .ok (.login ⟨getI64 0 p, (p.drop 8).take 32, getU64 40 p⟩)

def wireSide (raw : UInt8) : Option Side :=
  if raw = 0 then some .buy else if raw = 1 then some .sell else none

def wireOrderType (raw : UInt8) : Option WireOrderType :=
  if raw = 0 then some .limit else if raw = 1 then some .market else none

def wireTif (raw : UInt8) : Option WireTimeInForce :=
  if raw = 0 then some .day else if raw = 1 then some .ioc else if raw = 2 then some .fok else none

/-- The checks on a new order whose enumerations are valid. -/
def checkNewOrder (m : NewOrderMsg) : Except RejectReason Message :=
  if m.instrumentId ∉ g.instruments then .error .unknownInstrument
  else if m.quantity ≤ 0 then .error .invalidField
  else if m.orderType = .market ∧ m.timeInForce = .fok then .error .invalidTifCombination
  else if m.orderType = .limit then
    if g.outOfRange m.price then .error .invalidField else .ok (.newOrder m)
  -- The price of a market order is ignored, but it has to be 0 or in range.
  else if m.price ≠ 0 ∧ g.outOfRange m.price = true then .error .invalidField
  else .ok (.newOrder m)

def decodeNewOrder (p : List UInt8) : Except RejectReason Message :=
  match wireSide (getU8 20 p), wireOrderType (getU8 21 p), wireTif (getU8 38 p) with
  | some side, some type, some tif =>
    g.checkNewOrder ⟨getU64 0 p, getI64 8 p, getU32 16 p, side, type, getI64 22 p, getI64 30 p, tif⟩
  | _, _, _ => .error .invalidField

def decodeCancel (p : List UInt8) : Except RejectReason Message :=
  let m : CancelMsg := ⟨getU64 0 p, getI64 8 p, getU32 16 p⟩
  if m.instrumentId ∉ g.instruments then .error .unknownInstrument else .ok (.cancel m)

def decodeCancelReplace (p : List UInt8) : Except RejectReason Message :=
  let m : CancelReplaceMsg :=
    ⟨getU64 0 p, getI64 8 p, getU32 16 p, getI64 20 p, getI64 28 p⟩
  if m.instrumentId ∉ g.instruments then .error .unknownInstrument
  else if m.newQuantity ≤ 0 ∨ g.outOfRange m.newPrice = true then .error .invalidField
  else .ok (.cancelReplace m)

/-- The payload of a frame of this type. -/
def decodePayload (p : List UInt8) : MessageType → Except RejectReason Message
  | .login => decodeLogin p
  | .newOrder => g.decodeNewOrder p
  | .cancel => g.decodeCancel p
  | .cancelReplace => g.decodeCancelReplace p
  | .heartbeat => .ok (.heartbeat ⟨getU64 0 p⟩)
  | .loginAck => .ok (.loginAck ⟨getI64 0 p, getU8 8 p⟩)
  | .loginReject => .ok (.loginReject ⟨getU8 0 p, getU8 1 p⟩)
  | .execReport =>
    .ok (.execReport ⟨getI64 0 p, getU8 8 p, getI64 9 p, getI64 17 p, getI64 25 p, getI64 33 p,
      getI64 41 p⟩)
  | .reject => .ok (.reject ⟨getI64 0 p, getU8 8 p, getI64 9 p⟩)
  -- Market data has a connection and a decoder of its own.
  | .l2Delta | .l3Order | .l3Fill | .tradeTick | .snapshotStart | .snapshotEnd =>
    .error .unknownMessageType

/-- The frame at the front of the buffer. The length is checked before anything else, and nothing
is decoded before the whole frame is there. -/
def nextFrame (buf : List UInt8) : Next Message RejectReason :=
  if buf.length < kFrameHeaderSize then .more
  else
    let length := (getU32 0 buf).toNat
    if length < 1 ∨ kMaxFrame < length then .bad .malformedFrame
    else
      let total := kFrameHeaderSize + length
      if buf.length < total then .more
      else
        let frame := buf.take total
        match MessageType.ofByte (getU8 kFrameHeaderSize frame) with
        | none => .bad .unknownMessageType
        | some type =>
          if length ≠ kMsgTypeSize + type.expectedPayloadSize then .bad .malformedFrame
          else
            match g.decodePayload (frame.drop (kFrameHeaderSize + kMsgTypeSize)) type with
            | .error e => .bad e
            | .ok m => .ok m total

theorem nextFrame_eq_parseFrame (buf : List UInt8) :
    g.nextFrame buf = parseFrame g.decodePayload .malformedFrame .unknownMessageType buf := by
  unfold nextFrame parseFrame
  dsimp only
  split_ifs <;> try rfl
  cases MessageType.ofByte (getU8 kFrameHeaderSize
      (buf.take (kFrameHeaderSize + (getU32 0 buf).toNat))) with
  | none => rfl
  | some type =>
    dsimp only
    split_ifs <;> try rfl
    cases g.decodePayload ((buf.take (kFrameHeaderSize + (getU32 0 buf).toNat)).drop
      (kFrameHeaderSize + kMsgTypeSize)) type <;> rfl

/-- Once there is a verdict, later bytes do not change it. -/
theorem nextFrame_append {buf : List UInt8} (h : g.nextFrame buf ≠ .more) (cs : List UInt8) :
    g.nextFrame (buf ++ cs) = g.nextFrame buf := by
  rw [nextFrame_eq_parseFrame] at h ⊢
  rw [nextFrame_eq_parseFrame, parseFrame_append h]

/-- A frame that is accepted is complete. -/
theorem nextFrame_size {buf : List UInt8} {m : Message} {n : Nat} (h : g.nextFrame buf = .ok m n) :
    0 < n ∧ n ≤ buf.length := by
  rw [nextFrame_eq_parseFrame] at h
  exact parseFrame_size h

/-- What the checks leave: a request is for a known instrument, its quantity is positive and its
price, where it counts, in range. -/
def Admits : Message → Prop
  | .newOrder m =>
    m.instrumentId ∈ g.instruments ∧ 0 < m.quantity ∧
      ¬ (m.orderType = .market ∧ m.timeInForce = .fok) ∧
      (m.orderType = .limit → g.outOfRange m.price = false)
  | .cancel m => m.instrumentId ∈ g.instruments
  | .cancelReplace m =>
    m.instrumentId ∈ g.instruments ∧ 0 < m.newQuantity ∧ g.outOfRange m.newPrice = false
  | _ => True

theorem checkNewOrder_admits {m : NewOrderMsg} {r : Message} (h : g.checkNewOrder m = .ok r) :
    g.Admits r := by
  unfold checkNewOrder at h
  split at h
  · cases h
  next hinst =>
  split at h
  · cases h
  next hqty =>
  split at h
  · cases h
  next htif =>
  have hq : 0 < m.quantity := Int64.not_le.1 hqty
  split at h
  · split at h
    · cases h
    · next hrange =>
      cases h
      exact ⟨not_not.1 hinst, hq, htif, fun _ => Bool.not_eq_true _ ▸ hrange⟩
  · next hlimit =>
    split at h
    · cases h
    · cases h
      exact ⟨not_not.1 hinst, hq, htif, fun hl => absurd hl hlimit⟩

theorem decodePayload_admits {p : List UInt8} {type : MessageType} {m : Message}
    (h : g.decodePayload p type = .ok m) : g.Admits m := by
  cases type with
  | newOrder =>
    change g.decodeNewOrder p = _ at h
    unfold decodeNewOrder at h
    split at h
    · exact g.checkNewOrder_admits h
    · cases h
  | cancel =>
    change g.decodeCancel p = _ at h
    unfold decodeCancel at h
    dsimp only at h
    split at h
    · cases h
    · next hinst =>
      cases h
      exact not_not.1 hinst
  | cancelReplace =>
    change g.decodeCancelReplace p = _ at h
    unfold decodeCancelReplace at h
    dsimp only at h
    split at h
    · cases h
    next hinst =>
    split at h
    · cases h
    · next hfields =>
      obtain ⟨hqty, hrange⟩ := not_or.1 hfields
      cases h
      exact ⟨not_not.1 hinst, Int64.not_le.1 hqty, Bool.not_eq_true _ ▸ hrange⟩
  | l2Delta | l3Order | l3Fill | tradeTick | snapshotStart | snapshotEnd => cases h
  | login | heartbeat | loginAck | loginReject | execReport | reject =>
    cases h
    trivial

theorem nextFrame_admits {buf : List UInt8} {m : Message} {n : Nat}
    (h : g.nextFrame buf = .ok m n) : g.Admits m := by
  rw [nextFrame_eq_parseFrame] at h
  obtain ⟨type, payload, -, -, -, -, hdecode⟩ := parseFrame_ok h
  exact g.decodePayload_admits hdecode

/-- The decoder's way to cut the stream. -/
def framing : Framing Message RejectReason where
  next := g.nextFrame
  size_pos h := (g.nextFrame_size h).1
  size_le h := (g.nextFrame_size h).2
  ok_append cs h := (g.nextFrame_append (by rw [h]; nofun) cs).trans h
  bad_append cs h := (g.nextFrame_append (by rw [h]; nofun) cs).trans h

end Gate

/-- The reassembly buffer. -/
structure FrameDecoder where
  gate : Gate
  buf : List UInt8
  terminal : Bool
  deriving DecidableEq

namespace FrameDecoder

def kCapacity : Nat := 256

inductive Result where
  | ok (m : Message)
  | incomplete
  | invalid (reason : RejectReason)
  deriving DecidableEq

def create (gate : Gate) : FrameDecoder := ⟨gate, [], false⟩

/-- The bytes of one read; `none` if they do not fit. -/
def feed (d : FrameDecoder) (data : List UInt8) : Option FrameDecoder :=
  if d.terminal = true ∨ kCapacity < d.buf.length + data.length then none
  else some { d with buf := d.buf ++ data }

def next (d : FrameDecoder) : Result × FrameDecoder :=
  if d.terminal then (.invalid .malformedFrame, d)
  else
    match d.gate.nextFrame d.buf with
    | .more => (.incomplete, d)
    | .bad reason => (.invalid reason, { d with terminal := true })
    | .ok m size => (.ok m, { d with buf := d.buf.drop size })

/-- A message that `next` hands out was at the front of the buffer, and is taken off it. -/
theorem next_ok {d d' : FrameDecoder} {m : Message} (h : d.next = (.ok m, d')) :
    ∃ size, d.gate.framing.next d.buf = .ok m size ∧ d' = { d with buf := d.buf.drop size } := by
  unfold next at h
  split at h
  · cases h
  · split at h
    · cases h
    · cases h
    · next m' size hn =>
      cases h
      exact ⟨size, hn, rfl⟩

theorem next_not_ok {d : FrameDecoder} (h : ∀ m, d.next.1 ≠ .ok m) :
    d.next.2.buf = d.buf ∧ d.next.2.gate = d.gate := by
  unfold next at h ⊢
  split
  · exact ⟨rfl, rfl⟩
  · next ht =>
    rw [if_neg ht] at h
    split
    · exact ⟨rfl, rfl⟩
    · exact ⟨rfl, rfl⟩
    · next m size hn =>
      rw [hn] at h
      exact absurd rfl (h m)

theorem feed_some {d d' : FrameDecoder} {data : List UInt8} (h : d.feed data = some d') :
    d'.buf = d.buf ++ data ∧ d'.gate = d.gate := by
  rw [feed] at h
  split at h
  · cases h
  · cases h
    exact ⟨rfl, rfl⟩

end FrameDecoder

end Velox
