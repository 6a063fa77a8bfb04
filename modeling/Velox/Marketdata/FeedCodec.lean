import Velox.Protocol.Encoder

/-!
# The market-data feed on the wire

Following `marketdata/feed_messages.hpp`, `marketdata/feed_encoder.cpp` and
`marketdata/feed_decoder.cpp`. The decoder casts the bytes of the enumerations without a check, so
that any byte can stand there; it accepts every frame of one of the six types.

On both connections a stream that was written is read as it was written, however it is cut, and a
stream that is read was written that way (`wire_formats_exact`).
-/

namespace Velox

open Bytes

namespace Feed

structure L2DeltaMsg where
  instrumentId : UInt32
  feedSeq : UInt64
  side : UInt8
  action : UInt8
  price : Int64
  totalQty : Int64
  orderCount : UInt32
  deriving DecidableEq

structure L3OrderMsg where
  instrumentId : UInt32
  feedSeq : UInt64
  action : UInt8
  orderId : Int64
  side : UInt8
  price : Int64
  quantity : Int64
  remaining : Int64
  participant : Int64
  deriving DecidableEq

structure L3FillMsg where
  instrumentId : UInt32
  feedSeq : UInt64
  orderId : Int64
  tradeId : Int64
  price : Int64
  quantity : Int64
  remaining : Int64
  deriving DecidableEq

structure TradeTickMsg where
  instrumentId : UInt32
  feedSeq : UInt64
  tradeId : Int64
  aggressorId : Int64
  passiveId : Int64
  price : Int64
  quantity : Int64
  aggressorSide : UInt8
  deriving DecidableEq

structure SnapshotStartMsg where
  instrumentId : UInt32
  feedSeq : UInt64
  restingOrders : UInt64
  deriving DecidableEq

structure SnapshotEndMsg where
  instrumentId : UInt32
  feedSeq : UInt64
  crc32 : UInt32
  deriving DecidableEq

/-- A message of the feed. -/
inductive Message where
  | l2Delta (m : L2DeltaMsg)
  | l3Order (m : L3OrderMsg)
  | l3Fill (m : L3FillMsg)
  | tradeTick (m : TradeTickMsg)
  | snapshotStart (m : SnapshotStartMsg)
  | snapshotEnd (m : SnapshotEndMsg)
  deriving DecidableEq

/-! ## The encoders -/

def encodeL2Delta (m : L2DeltaMsg) : FrameStores where
  type := .l2Delta
  fields :=
    [(0, putU32 m.instrumentId), (4, putU64 m.feedSeq), (12, putU8 m.side), (13, putU8 m.action),
      (14, putI64 m.price), (22, putI64 m.totalQty), (30, putU32 m.orderCount)]

def encodeL3Order (m : L3OrderMsg) : FrameStores where
  type := .l3Order
  fields :=
    [(0, putU32 m.instrumentId), (4, putU64 m.feedSeq), (12, putU8 m.action),
      (13, putI64 m.orderId), (21, putU8 m.side), (22, putI64 m.price), (30, putI64 m.quantity),
      (38, putI64 m.remaining), (46, putI64 m.participant)]

def encodeL3Fill (m : L3FillMsg) : FrameStores where
  type := .l3Fill
  fields :=
    [(0, putU32 m.instrumentId), (4, putU64 m.feedSeq), (12, putI64 m.orderId),
      (20, putI64 m.tradeId), (28, putI64 m.price), (36, putI64 m.quantity),
      (44, putI64 m.remaining)]

def encodeTradeTick (m : TradeTickMsg) : FrameStores where
  type := .tradeTick
  fields :=
    [(0, putU32 m.instrumentId), (4, putU64 m.feedSeq), (12, putI64 m.tradeId),
      (20, putI64 m.aggressorId), (28, putI64 m.passiveId), (36, putI64 m.price),
      (44, putI64 m.quantity), (52, putU8 m.aggressorSide)]

def encodeSnapshotStart (m : SnapshotStartMsg) : FrameStores where
  type := .snapshotStart
  fields := [(0, putU32 m.instrumentId), (4, putU64 m.feedSeq), (12, putU64 m.restingOrders)]

def encodeSnapshotEnd (m : SnapshotEndMsg) : FrameStores where
  type := .snapshotEnd
  fields := [(0, putU32 m.instrumentId), (4, putU64 m.feedSeq), (12, putU32 m.crc32)]

namespace Message

def encode : Message → FrameStores
  | .l2Delta m => encodeL2Delta m
  | .l3Order m => encodeL3Order m
  | .l3Fill m => encodeL3Fill m
  | .tradeTick m => encodeTradeTick m
  | .snapshotStart m => encodeSnapshotStart m
  | .snapshotEnd m => encodeSnapshotEnd m

/-- The message on the wire. -/
def bytes (m : Message) : List UInt8 := frame m.encode.type m.encode.payload

theorem fills (m : Message) : m.encode.Fills := by
  cases m with
  | l2Delta | l3Order | l3Fill | tradeTick | snapshotStart | snapshotEnd =>
    exact ⟨by simp [encode, encodeL2Delta, encodeL3Order, encodeL3Fill, encodeTradeTick,
        encodeSnapshotStart, encodeSnapshotEnd, Memory.Adjacent],
      by simp [encode, encodeL2Delta, encodeL3Order, encodeL3Fill, encodeTradeTick,
        encodeSnapshotStart, encodeSnapshotEnd, FrameStores.payload,
        MessageType.expectedPayloadSize]⟩

end Message

/-! ## The decoder -/

/-- The payload of a frame of this type. Order entry has a decoder of its own. -/
def decodePayload (p : List UInt8) : MessageType → Except Unit Message
  | .l2Delta =>
    .ok (.l2Delta ⟨getU32 0 p, getU64 4 p, getU8 12 p, getU8 13 p, getI64 14 p, getI64 22 p,
      getU32 30 p⟩)
  | .l3Order =>
    .ok (.l3Order ⟨getU32 0 p, getU64 4 p, getU8 12 p, getI64 13 p, getU8 21 p, getI64 22 p,
      getI64 30 p, getI64 38 p, getI64 46 p⟩)
  | .l3Fill =>
    .ok (.l3Fill ⟨getU32 0 p, getU64 4 p, getI64 12 p, getI64 20 p, getI64 28 p, getI64 36 p,
      getI64 44 p⟩)
  | .tradeTick =>
    .ok (.tradeTick ⟨getU32 0 p, getU64 4 p, getI64 12 p, getI64 20 p, getI64 28 p, getI64 36 p,
      getI64 44 p, getU8 52 p⟩)
  | .snapshotStart => .ok (.snapshotStart ⟨getU32 0 p, getU64 4 p, getU64 12 p⟩)
  | .snapshotEnd => .ok (.snapshotEnd ⟨getU32 0 p, getU64 4 p, getU32 12 p⟩)
  | _ => .error ()

theorem decodePayload_encode (m : Message) :
    decodePayload m.encode.payload m.encode.type = .ok m := by
  cases m with
  | l2Delta => simp [Message.encode, encodeL2Delta, FrameStores.payload, decodePayload]
  | l3Order => simp [Message.encode, encodeL3Order, FrameStores.payload, decodePayload]
  | l3Fill => simp [Message.encode, encodeL3Fill, FrameStores.payload, decodePayload]
  | tradeTick => simp [Message.encode, encodeTradeTick, FrameStores.payload, decodePayload]
  | snapshotStart => simp [Message.encode, encodeSnapshotStart, FrameStores.payload, decodePayload]
  | snapshotEnd => simp [Message.encode, encodeSnapshotEnd, FrameStores.payload, decodePayload]

/-- The encoder writes back what the decoder read. -/
theorem encode_of_decodePayload {p : List UInt8} {type : MessageType} {m : Message}
    (h : decodePayload p type = .ok m) (hlen : p.length = type.expectedPayloadSize) :
    m.encode.type = type ∧ m.encode.payload = p := by
  cases type with
  | l2Delta =>
    have hp : p.length = 34 := hlen
    cases h
    refine ⟨rfl, (Message.fills _).payload_eq hlen ?_⟩
    simp [Message.encode, encodeL2Delta, putU32_getU32, putU64_getU64, putU8_getU8, putI64_getI64,
      hp, length_slice]
  | l3Order =>
    have hp : p.length = 54 := hlen
    cases h
    refine ⟨rfl, (Message.fills _).payload_eq hlen ?_⟩
    simp [Message.encode, encodeL3Order, putU32_getU32, putU64_getU64, putU8_getU8, putI64_getI64,
      hp, length_slice]
  | l3Fill =>
    have hp : p.length = 52 := hlen
    cases h
    refine ⟨rfl, (Message.fills _).payload_eq hlen ?_⟩
    simp [Message.encode, encodeL3Fill, putU32_getU32, putU64_getU64, putI64_getI64, hp,
      length_slice]
  | tradeTick =>
    have hp : p.length = 53 := hlen
    cases h
    refine ⟨rfl, (Message.fills _).payload_eq hlen ?_⟩
    simp [Message.encode, encodeTradeTick, putU32_getU32, putU64_getU64, putU8_getU8,
      putI64_getI64, hp, length_slice]
  | snapshotStart =>
    have hp : p.length = 20 := hlen
    cases h
    refine ⟨rfl, (Message.fills _).payload_eq hlen ?_⟩
    simp [Message.encode, encodeSnapshotStart, putU32_getU32, putU64_getU64, hp, length_slice]
  | snapshotEnd =>
    have hp : p.length = 16 := hlen
    cases h
    refine ⟨rfl, (Message.fills _).payload_eq hlen ?_⟩
    simp [Message.encode, encodeSnapshotEnd, putU32_getU32, putU64_getU64, hp, length_slice]
  | login | newOrder | cancel | cancelReplace | heartbeat | loginAck | loginReject | execReport
  | reject => cases h

/-- The decoder's way to cut the stream. -/
def framing : Framing Message Unit where
  next := parseFrame decodePayload () ()
  size_pos h := (parseFrame_size h).1
  size_le h := (parseFrame_size h).2
  ok_append cs h := (parseFrame_append (by rw [h]; nofun) cs).trans h
  bad_append cs h := (parseFrame_append (by rw [h]; nofun) cs).trans h

theorem framing_next (bs : List UInt8) : framing.next bs = parseFrame decodePayload () () bs := rfl

theorem codec : framing.Codec Message.bytes fun _ => True where
  next_enc {m} rest _ := by
    rw [framing_next, Message.bytes]
    exact parseFrame_frame m.fills.size rest (decodePayload_encode m)
  take_eq {bs m n} h := by
    rw [framing_next] at h
    obtain ⟨type, payload, -, -, hframe, hlen, hdecode⟩ := parseFrame_ok h
    obtain ⟨rfl, rfl⟩ := encode_of_decodePayload hdecode hlen
    exact hframe
  nil := rfl

end Feed

/-- The reassembly buffer of a subscriber. -/
structure FeedDecoder where
  buf : List UInt8
  terminal : Bool

namespace FeedDecoder

def kCapacity : Nat := 256

inductive Result where
  | ok (m : Feed.Message)
  | incomplete
  | invalid

def create : FeedDecoder := ⟨[], false⟩

/-- The bytes of one read; `none` if they do not fit. -/
def feed (d : FeedDecoder) (data : List UInt8) : Option FeedDecoder :=
  if d.terminal = true ∨ kCapacity < d.buf.length + data.length then none
  else some { d with buf := d.buf ++ data }

def next (d : FeedDecoder) : Result × FeedDecoder :=
  if d.terminal then (.invalid, d)
  else
    match Feed.framing.next d.buf with
    | .more => (.incomplete, d)
    | .bad _ => (.invalid, { d with terminal := true })
    | .ok m size => (.ok m, { d with buf := d.buf.drop size })

/-- `next` until it does not return `Ok`; the fuel bounds the number of messages. -/
def drain : Nat → FeedDecoder → Option (List Feed.Message × Result × FeedDecoder)
  | 0, _ => none
  | fuel + 1, d =>
    match d.next with
    | (.ok m, d) => do
      let (ms, r, d) ← drain fuel d
      some (m :: ms, r, d)
    | (r, d) => some ([], r, d)

/-- The reads of a connection one after the other, with the decoder drained after each, up to the
end or to the first frame that is invalid. -/
def receive (d : FeedDecoder) :
    List (List UInt8) → Option (List Feed.Message × Framing.Ending Unit)
  | [] => some ([], .rest d.buf)
  | c :: cs =>
    match d.feed c with
    | none => some ([], .refused)
    | some d => do
      let (ms, r, d) ← d.drain (d.buf.length + 1)
      match r with
      | .invalid => some (ms, .bad ())
      | _ => do
        let (later, e) ← d.receive cs
        some (ms ++ later, e)

theorem drain_eq {fuel : Nat} {bs : List UInt8} (hfuel : bs.length < fuel) :
    (∃ ms rest, Feed.framing.scan bs = (ms, .rest rest) ∧
        drain fuel ⟨bs, false⟩ = some (ms, .incomplete, ⟨rest, false⟩)) ∨
      ∃ ms d, Feed.framing.scan bs = (ms, .bad ()) ∧
        drain fuel ⟨bs, false⟩ = some (ms, .invalid, d) := by
  induction fuel generalizing bs with
  | zero => omega
  | succ fuel ih =>
    rw [drain, next, if_neg Bool.false_ne_true]
    cases hnext : Feed.framing.next bs with
    | more => exact Or.inl ⟨[], bs, Framing.scan_more hnext, rfl⟩
    | bad e => exact Or.inr ⟨[], _, Framing.scan_bad hnext, rfl⟩
    | ok m size =>
      have hpos := Feed.framing.size_pos hnext
      have hle := Feed.framing.size_le hnext
      have hshort : (bs.drop size).length < fuel := by
        rw [List.length_drop]
        omega
      rw [Framing.scan_ok hnext]
      dsimp only
      rcases ih hshort with ⟨ms, rest, hs, hd⟩ | ⟨ms, d, hs, hd⟩
      · exact Or.inl ⟨m :: ms, rest, by rw [hs], by rw [hd]; rfl⟩
      · exact Or.inr ⟨m :: ms, d, by rw [hs], by rw [hd]; rfl⟩

theorem receive_eq (bs : List UInt8) (cs : List (List UInt8)) :
    receive ⟨bs, false⟩ cs = some (Feed.framing.receive kCapacity bs cs) := by
  induction cs generalizing bs with
  | nil => rfl
  | cons c cs ih =>
    rw [receive, feed, Framing.receive]
    by_cases hfull : kCapacity < bs.length + c.length
    · rw [if_pos (Or.inr hfull), if_pos hfull]
    · rw [if_neg (not_or.2 ⟨Bool.false_ne_true, hfull⟩), if_neg hfull]
      rcases drain_eq (Nat.lt_succ_self (bs ++ c).length) with ⟨ms, rest, hs, hd⟩ | ⟨ms, d, hs, hd⟩
      · simp only [hd, hs, Option.bind_eq_bind, Option.bind_some, ih]
      · simp only [hd, hs, Option.bind_eq_bind, Option.bind_some]

/-- The subscriber sees the whole stream, however it is cut. -/
theorem receive_create {cs : List (List UInt8)} (hcs : ∀ c ∈ cs, c.length ≤ 128) :
    create.receive cs = some (Feed.framing.scan cs.flatten) := by
  have hroom : ∀ {bs : List UInt8}, Feed.framing.next bs = .more → bs.length + 128 ≤ kCapacity := by
    intro bs hmore
    rw [Feed.framing_next] at hmore
    have hlt := length_lt_of_parseFrame hmore
    rw [kFrameHeaderSize, kMaxFrame] at hlt
    rw [kCapacity]
    omega
  rw [create, receive_eq, Framing.receive_eq_scan hroom hcs Feed.codec.nil, List.nil_append]

end FeedDecoder

/-! ## Both formats -/

/-- A decoder reads what was written, however the stream is cut, and what it accepts to the last byte
was written that way. -/
structure ExactInverse {M E : Type} (bytes : M → List UInt8) (ok : M → Prop)
    (receive : List (List UInt8) → Option (List M × Framing.Ending E)) : Prop where
  reads : ∀ (ms : List M) (cs : List (List UInt8)), (∀ m ∈ ms, ok m) → (∀ c ∈ cs, c.length ≤ 128) →
    cs.flatten = ms.flatMap bytes → receive cs = some (ms, .rest [])
  writes : ∀ (ms : List M) (cs : List (List UInt8)), (∀ c ∈ cs, c.length ≤ 128) →
    receive cs = some (ms, .rest []) → ms.flatMap bytes = cs.flatten
  injective : ∀ (ms : List M) (cs cs' : List (List UInt8)), (∀ c ∈ cs, c.length ≤ 128) →
    (∀ c ∈ cs', c.length ≤ 128) → receive cs = some (ms, .rest []) →
    receive cs' = some (ms, .rest []) → cs.flatten = cs'.flatten

theorem Framing.Codec.exactInverse {M E : Type} {F : Framing M E} {bytes : M → List UInt8}
    {ok : M → Prop} (h : F.Codec bytes ok)
    {receive : List (List UInt8) → Option (List M × Framing.Ending E)}
    (hscan : ∀ cs : List (List UInt8), (∀ c ∈ cs, c.length ≤ 128) →
      receive cs = some (F.scan cs.flatten)) : ExactInverse bytes ok receive := by
  have hwrites : ∀ (ms : List M) (cs : List (List UInt8)), (∀ c ∈ cs, c.length ≤ 128) →
      receive cs = some (ms, .rest []) → ms.flatMap bytes = cs.flatten := by
    intro ms cs hcs hr
    rw [hscan cs hcs, Option.some.injEq] at hr
    rw [← h.flatMap_scan hr, List.append_nil]
  refine ⟨fun ms cs hms hcs hbytes => ?_, hwrites, fun ms cs cs' hcs hcs' hr hr' => ?_⟩
  · rw [hscan cs hcs, hbytes, h.scan_flatMap hms]
  · rw [← hwrites ms cs hcs hr, ← hwrites ms cs' hcs' hr']

/-- **The wire formats are exact inverses.** An encoder writes the bytes of its message into any
buffer that has room for them, and decoders invert that on streams. -/
theorem wire_formats_exact (gate : Gate) (buf : Memory FrameDecoder.kCapacity) :
    (∀ m, gate.Accepts m → ∀ (n : Nat) (dst : Memory n), m.bytes.length ≤ n →
      m.encode.sent dst = some m.bytes) ∧
    (∀ (m : Feed.Message) (n : Nat) (dst : Memory n), m.bytes.length ≤ n →
      m.encode.sent dst = some m.bytes) ∧
    ExactInverse Message.bytes gate.Accepts (FrameBuffer.create gate buf).receive ∧
    ExactInverse Feed.Message.bytes (fun _ => True) FeedDecoder.create.receive := by
  refine ⟨fun m hm n dst hn => ?_, fun m n dst hn => ?_,
    gate.codec.exactInverse fun cs => FrameBuffer.receive_create gate buf,
    Feed.codec.exactInverse fun cs => FeedDecoder.receive_create⟩
  · have hfills := (Gate.Accepts.wellFormed gate hm).fills
    rw [Message.bytes, length_frame hfills.size, ← Nat.add_assoc] at hn
    exact hfills.sent_eq dst hn
  · rw [Feed.Message.bytes, length_frame m.fills.size, ← Nat.add_assoc] at hn
    exact m.fills.sent_eq dst hn

end Velox
