import Velox.Protocol.Decoder

/-!
# The reassembly buffer

`FrameDecoder` reads its buffer as a list of bytes. Here it is the array of the source: 256 bytes, of
which the first `len` have arrived, with every load, copy and move of `protocol/decoder.cpp` at its
own offset. An access that leaves the array is `none`.

Each operation does what its counterpart on lists does (`Follows`), so that no access leaves the
array; and since the beginning of a frame is shorter than 68 bytes, there is always room for one
more read of 128. What a stream decodes to does not depend on how it is cut
(`receive_segmentation`).
-/

namespace Velox

/-! ## Loading a frame -/

namespace Gate

variable (g : Gate) {n : Nat} (mem : Memory n) (p : Nat)

def loadLogin : Option (Except RejectReason Message) := do
  let participantId ← mem.getI64 p
  let token ← mem.load (p + 8) 32
  let clientSeqNum ← mem.getU64 (p + 40)
  some (.ok (.login ⟨participantId, token, clientSeqNum⟩))

def loadNewOrder : Option (Except RejectReason Message) := do
  let clientSeqNum ← mem.getU64 p
  let orderId ← mem.getI64 (p + 8)
  let instrumentId ← mem.getU32 (p + 16)
  let sideRaw ← mem.getU8 (p + 20)
  let typeRaw ← mem.getU8 (p + 21)
  let price ← mem.getI64 (p + 22)
  let quantity ← mem.getI64 (p + 30)
  let tifRaw ← mem.getU8 (p + 38)
  match wireSide sideRaw, wireOrderType typeRaw, wireTif tifRaw with
  | some side, some type, some tif =>
    some (g.checkNewOrder ⟨clientSeqNum, orderId, instrumentId, side, type, price, quantity, tif⟩)
  | _, _, _ => some (.error .invalidField)

def loadCancel : Option (Except RejectReason Message) := do
  let clientSeqNum ← mem.getU64 p
  let orderId ← mem.getI64 (p + 8)
  let instrumentId ← mem.getU32 (p + 16)
  some (if instrumentId ∉ g.instruments then .error .unknownInstrument
    else .ok (.cancel ⟨clientSeqNum, orderId, instrumentId⟩))

def loadCancelReplace : Option (Except RejectReason Message) := do
  let clientSeqNum ← mem.getU64 p
  let orderId ← mem.getI64 (p + 8)
  let instrumentId ← mem.getU32 (p + 16)
  let newPrice ← mem.getI64 (p + 20)
  let newQuantity ← mem.getI64 (p + 28)
  some (if instrumentId ∉ g.instruments then .error .unknownInstrument
    else if newQuantity ≤ 0 ∨ g.outOfRange newPrice = true then .error .invalidField
    else .ok (.cancelReplace ⟨clientSeqNum, orderId, instrumentId, newPrice, newQuantity⟩))

def loadExecReport : Option (Except RejectReason Message) := do
  let orderId ← mem.getI64 p
  let execType ← mem.getU8 (p + 8)
  let execQty ← mem.getI64 (p + 9)
  let leavesQty ← mem.getI64 (p + 17)
  let tradePrice ← mem.getI64 (p + 25)
  let tradeId ← mem.getI64 (p + 33)
  let globalSeq ← mem.getI64 (p + 41)
  some (.ok (.execReport ⟨orderId, execType, execQty, leavesQty, tradePrice, tradeId, globalSeq⟩))

/-- The payload of a frame of this type, which begins at `p`. -/
def loadPayload : MessageType → Option (Except RejectReason Message)
  | .login => loadLogin mem p
  | .newOrder => g.loadNewOrder mem p
  | .cancel => g.loadCancel mem p
  | .cancelReplace => g.loadCancelReplace mem p
  | .heartbeat => do
    let marker ← mem.getU64 p
    some (.ok (.heartbeat ⟨marker⟩))
  | .loginAck => do
    let serverSeq ← mem.getI64 p
    let status ← mem.getU8 (p + 8)
    some (.ok (.loginAck ⟨serverSeq, status⟩))
  | .loginReject => do
    let reason ← mem.getU8 p
    let reserved ← mem.getU8 (p + 1)
    some (.ok (.loginReject ⟨reason, reserved⟩))
  | .execReport => loadExecReport mem p
  | .reject => do
    let orderId ← mem.getI64 p
    let reason ← mem.getU8 (p + 8)
    let globalSeq ← mem.getI64 (p + 9)
    some (.ok (.reject ⟨orderId, reason, globalSeq⟩))
  | .l2Delta | .l3Order | .l3Fill | .tradeTick | .snapshotStart | .snapshotEnd =>
    some (.error .unknownMessageType)

/-- **The loads of a payload** stay within it. -/
theorem loadPayload_eq {mem : Memory n} {p : Nat} {payload : List UInt8} {type : MessageType}
    (h : mem.Holds p payload) (hsize : payload.length = type.expectedPayloadSize) :
    g.loadPayload mem p type = some (g.decodePayload payload type) := by
  have hI64 : ∀ off, off + 8 ≤ type.expectedPayloadSize →
      mem.getI64 (p + off) = some (Bytes.getI64 off payload) := hsize ▸ h.getI64_eq
  have hU64 : ∀ off, off + 8 ≤ type.expectedPayloadSize →
      mem.getU64 (p + off) = some (Bytes.getU64 off payload) := hsize ▸ h.getU64_eq
  have hU32 : ∀ off, off + 4 ≤ type.expectedPayloadSize →
      mem.getU32 (p + off) = some (Bytes.getU32 off payload) := hsize ▸ h.getU32_eq
  have hU8 : ∀ off, off + 1 ≤ type.expectedPayloadSize →
      mem.getU8 (p + off) = some (Bytes.getU8 off payload) := hsize ▸ h.getU8_eq
  -- The first field is at `p` itself.
  have hI0 : 8 ≤ type.expectedPayloadSize → mem.getI64 p = some (Bytes.getI64 0 payload) := hI64 0
  have hU0 : 8 ≤ type.expectedPayloadSize → mem.getU64 p = some (Bytes.getU64 0 payload) := hU64 0
  cases type with
  | login =>
    have htoken : mem.load (p + 8) 32 = some ((payload.drop 8).take 32) :=
      h.load_eq (by rw [hsize]; decide)
    simp [loadPayload, loadLogin, decodePayload, decodeLogin, hI0 (by decide), htoken,
      hU64 40 (by decide)]
  | newOrder =>
    simp only [loadPayload, loadNewOrder, decodePayload, decodeNewOrder, hU0 (by decide),
      hI64 8 (by decide), hU32 16 (by decide), hU8 20 (by decide), hU8 21 (by decide),
      hI64 22 (by decide), hI64 30 (by decide), hU8 38 (by decide), Option.bind_eq_bind,
      Option.bind_some]
    cases wireSide (Bytes.getU8 20 payload) <;> cases wireOrderType (Bytes.getU8 21 payload) <;>
      cases wireTif (Bytes.getU8 38 payload) <;> rfl
  | cancel =>
    simp [loadPayload, loadCancel, decodePayload, decodeCancel, hU0 (by decide),
      hI64 8 (by decide), hU32 16 (by decide)]
  | cancelReplace =>
    simp [loadPayload, loadCancelReplace, decodePayload, decodeCancelReplace, hU0 (by decide),
      hI64 8 (by decide), hU32 16 (by decide), hI64 20 (by decide), hI64 28 (by decide)]
  | heartbeat => simp [loadPayload, decodePayload, hU0 (by decide)]
  | loginAck => simp [loadPayload, decodePayload, hI0 (by decide), hU8 8 (by decide)]
  | loginReject =>
    have hB0 : mem.getU8 p = some (Bytes.getU8 0 payload) := hU8 0 (by decide)
    simp [loadPayload, decodePayload, hB0, hU8 1 (by decide)]
  | execReport =>
    simp [loadPayload, loadExecReport, decodePayload, hI0 (by decide), hU8 8 (by decide),
      hI64 9 (by decide), hI64 17 (by decide), hI64 25 (by decide), hI64 33 (by decide),
      hI64 41 (by decide)]
  | reject =>
    simp [loadPayload, decodePayload, hI0 (by decide), hU8 8 (by decide), hI64 9 (by decide)]
  | l2Delta | l3Order | l3Fill | tradeTick | snapshotStart | snapshotEnd => rfl

end Gate

/-! ## The decoder in its buffer -/

/-- `buf_`, `len_` and `terminal_`. -/
structure FrameBuffer where
  gate : Gate
  buf : Memory FrameDecoder.kCapacity
  len : Nat
  terminal : Bool

namespace FrameBuffer

open FrameDecoder (kCapacity)

/-- Whatever the array holds at first. -/
def create (gate : Gate) (buf : Memory kCapacity) : FrameBuffer := ⟨gate, buf, 0, false⟩

/-- Is there room for this read, and the buffer with it. -/
def feed (b : FrameBuffer) (data : List UInt8) : Option (Bool × FrameBuffer) :=
  if b.terminal = true ∨ kCapacity < b.len + data.length then some (false, b)
  else do
    let buf ← b.buf.store b.len data
    some (true, { b with buf := buf, len := b.len + data.length })

def consume (b : FrameBuffer) (n : Nat) : Option FrameBuffer := do
  let rest ← b.buf.load n (b.len - n)
  let buf ← b.buf.store 0 rest
  some { b with buf := buf, len := b.len - n }

def fail (b : FrameBuffer) (reason : RejectReason) : FrameDecoder.Result × FrameBuffer :=
  (.invalid reason, { b with terminal := true })

def next (b : FrameBuffer) : Option (FrameDecoder.Result × FrameBuffer) :=
  if b.terminal then some (b.fail .malformedFrame)
  else if b.len < kFrameHeaderSize then some (.incomplete, b)
  else do
    let length ← b.buf.getU32 0
    if length.toNat < 1 ∨ kMaxFrame < length.toNat then some (b.fail .malformedFrame)
    else
      let total := kFrameHeaderSize + length.toNat
      if b.len < total then some (.incomplete, b)
      else do
        let rawType ← b.buf.getU8 kFrameHeaderSize
        match MessageType.ofByte rawType with
        | none => some (b.fail .unknownMessageType)
        | some type =>
          if length.toNat ≠ kMsgTypeSize + type.expectedPayloadSize then
            some (b.fail .malformedFrame)
          else do
            let r ← b.gate.loadPayload b.buf (kFrameHeaderSize + kMsgTypeSize) type
            match r with
            | .error reason => some (b.fail reason)
            | .ok m =>
              let b ← b.consume total
              some (.ok m, b)

/-- `next` until it does not return `Ok`; the fuel bounds the number of messages. -/
def drain : Nat → FrameBuffer → Option (List Message × FrameDecoder.Result × FrameBuffer)
  | 0, _ => none
  | fuel + 1, b => do
    let (r, b) ← b.next
    match r with
    | .ok m => do
      let (ms, r, b) ← drain fuel b
      some (m :: ms, r, b)
    | r => some ([], r, b)

/-- The reads of a connection one after the other, with the decoder drained after each, up to the
end or to the first frame that is invalid. -/
def receive (b : FrameBuffer) :
    List (List UInt8) → Option (List Message × Framing.Ending RejectReason)
  | [] => do
    let rest ← b.buf.load 0 b.len
    some ([], .rest rest)
  | c :: cs => do
    let (fits, b) ← b.feed c
    if fits = false then some ([], .refused)
    else do
      let (ms, r, b) ← b.drain (b.len + 1)
      match r with
      | .invalid reason => some (ms, .bad reason)
      | _ => do
        let (later, e) ← b.receive cs
        some (ms ++ later, e)

/-! ## The array and the list -/

section Follows

variable {b b' : FrameBuffer} {d : FrameDecoder} {data : List UInt8}

/-- The bytes that have arrived are the list. -/
structure Follows (b : FrameBuffer) (d : FrameDecoder) : Prop where
  gate : b.gate = d.gate
  holds : b.buf.Holds 0 d.buf
  len : b.len = d.buf.length
  terminal : b.terminal = d.terminal

theorem follows_create (gate : Gate) (buf : Memory kCapacity) :
    (create gate buf).Follows (FrameDecoder.create gate) :=
  ⟨rfl, ⟨Nat.zero_le _, rfl⟩, rfl, rfl⟩

/-- A read is refused, or stored behind what is there. -/
theorem Follows.feed (h : b.Follows d) (data : List UInt8) :
    (d.feed data = none ∧ b.feed data = some (false, b)) ∨
      ∃ d' b', d.feed data = some d' ∧ b.feed data = some (true, b') ∧ b'.Follows d' := by
  rw [FrameBuffer.feed, FrameDecoder.feed, h.terminal, h.len]
  by_cases hfull : d.terminal = true ∨ kCapacity < d.buf.length + data.length
  · exact Or.inl ⟨if_pos hfull, if_pos hfull⟩
  · obtain ⟨-, hroom⟩ := not_or.1 hfull
    obtain ⟨buf, hstore, hholds⟩ := h.holds.append (not_lt.1 hroom)
    rw [if_neg hfull, if_neg hfull, hstore]
    exact Or.inr ⟨_, _, rfl, rfl, h.gate, hholds, List.length_append.symm, rfl⟩

theorem Follows.consume (h : b.Follows d) {n : Nat} (hn : n ≤ d.buf.length) :
    ∃ b', b.consume n = some b' ∧ b'.Follows { d with buf := d.buf.drop n } := by
  obtain ⟨hload, buf, hstore, hholds⟩ := h.holds.move hn
  rw [FrameBuffer.consume, h.len, hload]
  simp only [Option.bind_eq_bind, Option.bind_some, hstore]
  exact ⟨_, rfl, h.gate, hholds, List.length_drop.symm, h.terminal⟩

theorem Follows.fail (h : b.Follows d) (reason : RejectReason) :
    (b.fail reason).2.Follows { d with terminal := true } :=
  ⟨h.gate, h.holds, h.len, rfl⟩

/-- **`next` stays within the array**, and does what it does on the list. -/
theorem Follows.next (h : b.Follows d) :
    ∃ b', b.next = some (d.next.1, b') ∧ b'.Follows d.next.2 := by
  rw [FrameBuffer.next, FrameDecoder.next, h.terminal]
  by_cases hterm : d.terminal = true
  · rw [if_pos hterm, if_pos hterm]
    refine ⟨_, rfl, h.gate, h.holds, h.len, hterm.symm⟩
  rw [if_neg hterm, if_neg hterm, h.len, Gate.nextFrame]
  by_cases hheader : d.buf.length < kFrameHeaderSize
  · rw [if_pos hheader, if_pos hheader]
    exact ⟨b, rfl, h⟩
  rw [if_neg hheader, if_neg hheader]
  have hlength : b.buf.getU32 0 = some (Bytes.getU32 0 d.buf) :=
    h.holds.getU32_eq 0 (not_lt.1 hheader)
  simp only [hlength, Option.bind_eq_bind, Option.bind_some]
  by_cases hbound : (Bytes.getU32 0 d.buf).toNat < 1 ∨ kMaxFrame < (Bytes.getU32 0 d.buf).toNat
  · rw [if_pos hbound, if_pos hbound]
    exact ⟨_, rfl, h.fail .malformedFrame⟩
  rw [if_neg hbound, if_neg hbound]
  by_cases htotal : d.buf.length < kFrameHeaderSize + (Bytes.getU32 0 d.buf).toNat
  · rw [if_pos htotal, if_pos htotal]
    exact ⟨b, rfl, h⟩
  rw [if_neg htotal, if_neg htotal]
  -- The frame is complete.
  obtain ⟨hpos, -⟩ := not_or.1 hbound
  obtain ⟨frame, hframe⟩ : ∃ frame,
    frame = d.buf.take (kFrameHeaderSize + (Bytes.getU32 0 d.buf).toNat) := ⟨_, rfl⟩
  have hlen : frame.length = kFrameHeaderSize + (Bytes.getU32 0 d.buf).toNat := by
    rw [hframe, List.length_take, Nat.min_eq_left (not_lt.1 htotal)]
  have hholds : b.buf.Holds 0 frame := hframe ▸ h.holds.take _
  have htype : b.buf.getU8 kFrameHeaderSize = some (Bytes.getU8 kFrameHeaderSize frame) := by
    rw [← Nat.zero_add kFrameHeaderSize]
    exact hholds.getU8_eq _ (by rw [hlen]; omega)
  rw [← hframe]
  simp only [htype, Option.bind_some]
  cases MessageType.ofByte (Bytes.getU8 kFrameHeaderSize frame) with
  | none => exact ⟨_, rfl, h.fail .unknownMessageType⟩
  | some type =>
    by_cases hsize : (Bytes.getU32 0 d.buf).toNat ≠ kMsgTypeSize + type.expectedPayloadSize
    · simp only [if_pos hsize]
      exact ⟨_, rfl, h.fail .malformedFrame⟩
    · simp only [if_neg hsize]
      have hpayload : b.buf.Holds (0 + (kFrameHeaderSize + kMsgTypeSize))
          (frame.drop (kFrameHeaderSize + kMsgTypeSize)) :=
        hholds.drop (by rw [hlen, kMsgTypeSize]; omega)
      rw [Nat.zero_add] at hpayload
      rw [Gate.loadPayload_eq _ hpayload (by rw [List.length_drop, hlen, not_not.1 hsize]; omega),
        h.gate, Option.bind_some]
      cases d.gate.decodePayload (frame.drop (kFrameHeaderSize + kMsgTypeSize)) type with
      | error reason => exact ⟨_, rfl, h.fail reason⟩
      | ok m =>
        obtain ⟨b', hconsume, hb'⟩ := h.consume (not_lt.1 htotal)
        simp only [hconsume, Option.bind_some]
        exact ⟨b', rfl, hb'⟩

end Follows

/-! ## A whole stream -/

section Receive

variable {b : FrameBuffer} {g : Gate} {bs : List UInt8} {cs cs' : List (List UInt8)}

/-- Draining the array finds what there is to find in the list. -/
theorem Follows.drain (h : b.Follows ⟨g, bs, false⟩) {fuel : Nat} (hfuel : bs.length < fuel) :
    (∃ ms rest b', g.framing.scan bs = (ms, .rest rest) ∧
        b.drain fuel = some (ms, .incomplete, b') ∧ b'.Follows ⟨g, rest, false⟩) ∨
      ∃ ms reason b', g.framing.scan bs = (ms, .bad reason) ∧
        b.drain fuel = some (ms, .invalid reason, b') := by
  induction fuel generalizing b bs with
  | zero => omega
  | succ fuel ih =>
    obtain ⟨b₁, hnext, hb₁⟩ := h.next
    rw [FrameDecoder.next] at hnext hb₁
    rw [FrameBuffer.drain]
    cases hframe : g.nextFrame bs with
    | more =>
      simp only [hframe, Bool.false_eq_true, if_false] at hnext hb₁
      exact Or.inl ⟨[], bs, b₁, Framing.scan_more hframe, by rw [hnext]; rfl, hb₁⟩
    | bad reason =>
      simp only [hframe, Bool.false_eq_true, if_false] at hnext
      exact Or.inr ⟨[], reason, b₁, Framing.scan_bad hframe, by rw [hnext]; rfl⟩
    | ok m size =>
      simp only [hframe, Bool.false_eq_true, if_false] at hnext hb₁
      obtain ⟨hpos, hle⟩ := g.nextFrame_size hframe
      have hshort : (bs.drop size).length < fuel := by
        rw [List.length_drop]
        omega
      have hscan : g.framing.scan bs = _ := Framing.scan_ok hframe
      rw [hscan, hnext]
      rcases ih hb₁ hshort with ⟨ms, rest, b₂, hs, hd, hb₂⟩ | ⟨ms, reason, b₂, hs, hd⟩
      · refine Or.inl ⟨m :: ms, rest, b₂, by rw [hs], ?_, hb₂⟩
        simp only [Option.bind_eq_bind, Option.bind_some, hd]
      · refine Or.inr ⟨m :: ms, reason, b₂, by rw [hs], ?_⟩
        simp only [Option.bind_eq_bind, Option.bind_some, hd]

theorem Follows.receive (h : b.Follows ⟨g, bs, false⟩) (cs : List (List UInt8)) :
    b.receive cs = some (g.framing.receive kCapacity bs cs) := by
  induction cs generalizing b bs with
  | nil =>
    have hload : b.buf.load (0 + 0) bs.length = _ := h.holds.load_eq (Nat.zero_add _).le
    rw [List.drop_zero, List.take_length] at hload
    rw [FrameBuffer.receive, h.len, hload]
    rfl
  | cons c cs ih =>
    rw [FrameBuffer.receive, Framing.receive]
    have hfeed := h.feed c
    rw [FrameDecoder.feed] at hfeed
    by_cases hfull : kCapacity < bs.length + c.length
    · rw [if_pos (Or.inr hfull)] at hfeed
      rcases hfeed with ⟨-, hfeed⟩ | ⟨d, b₁, hno, -⟩
      · rw [hfeed, if_pos hfull]
        rfl
      · cases hno
    · rw [if_neg (not_or.2 ⟨Bool.false_ne_true, hfull⟩)] at hfeed
      rcases hfeed with ⟨hno, -⟩ | ⟨d, b₁, hd, hfeed, hb₁⟩
      · cases hno
      obtain rfl := Option.some.inj hd
      rw [hfeed, if_neg hfull]
      simp only [Option.bind_eq_bind, Option.bind_some, Bool.true_eq_false, if_false]
      have hfuel : (bs ++ c).length < b₁.len + 1 := by
        rw [hb₁.len]
        exact Nat.lt_succ_self _
      rcases hb₁.drain hfuel with ⟨ms, rest, b₂, hs, hdrain, hb₂⟩ | ⟨ms, reason, b₂, hs, hdrain⟩
      · rw [hdrain, hs]
        simp only [Option.bind_some, ih hb₂]
      · rw [hdrain, hs]
        rfl

/-- The beginning of a frame leaves room for a read of the session. -/
theorem room_of_more (h : g.framing.next bs = .more) : bs.length + 128 ≤ kCapacity := by
  have hlt := length_lt_of_parseFrame ((g.nextFrame_eq_parseFrame bs).symm.trans h)
  rw [kFrameHeaderSize, kMaxFrame] at hlt
  rw [kCapacity]
  omega

/-- The decoder sees the whole stream, however it is cut. -/
theorem receive_create (gate : Gate) (buf : Memory kCapacity)
    (hcs : ∀ c ∈ cs, c.length ≤ 128) :
    (create gate buf).receive cs = some (gate.framing.scan cs.flatten) := by
  rw [(follows_create gate buf).receive, Framing.receive_eq_scan room_of_more hcs rfl]
  rfl

/-- **Reassembly does not depend on how the stream is cut.** No access leaves the buffer, no read is
refused before a frame is found invalid, and two ways to cut a stream give the same messages and the
same end. -/
theorem receive_segmentation (gate : Gate) (buf buf' : Memory kCapacity)
    (hcs : ∀ c ∈ cs, 1 ≤ c.length ∧ c.length ≤ 128)
    (hcs' : ∀ c ∈ cs', 1 ≤ c.length ∧ c.length ≤ 128) (h : cs.flatten = cs'.flatten) :
    ∃ ms e, (create gate buf).receive cs = some (ms, e) ∧
      (create gate buf').receive cs' = some (ms, e) ∧ e ≠ .refused := by
  refine ⟨_, _, receive_create gate buf fun c hc => (hcs c hc).2, ?_,
    Framing.scan_ne_refused cs.flatten⟩
  rw [receive_create gate buf' fun c hc => (hcs' c hc).2, h]

/-- A heartbeat, whole and cut into two. -/
theorem receive_segmentation_heartbeat : ∃ ms e,
    (create ⟨[1], 10000, 100000000⟩ ⟨List.replicate 256 0, List.length_replicate⟩).receive
        [[9, 0, 0, 0, 5, 1, 2, 3, 4, 5, 6, 7, 8]] = some (ms, e) ∧
      (create ⟨[1], 10000, 100000000⟩ ⟨List.replicate 256 0, List.length_replicate⟩).receive
        [[9, 0], [0, 0, 5, 1, 2, 3, 4, 5, 6, 7, 8]] = some (ms, e) ∧ e ≠ .refused :=
  receive_segmentation _ _ _ (by decide) (by decide) rfl

end Receive

end FrameBuffer

end Velox
