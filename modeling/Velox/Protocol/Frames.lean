import Velox.Lib.Framing
import Velox.Lib.Memory
import Velox.Protocol.Messages

/-!
# Frames

The layout that both protocols share: a length, a type and the payload of that type. `parseFrame`
looks at the front of a buffer, as `FrameDecoder::next` and `FeedDecoder::next` both do, with the
decoder of the payload as a parameter; `FrameStores` is what an encoder writes.
-/

namespace Velox

open Bytes

/-- A frame on the wire. -/
def frame (type : MessageType) (payload : List UInt8) : List UInt8 :=
  putU32 (.ofNat (kMsgTypeSize + type.expectedPayloadSize)) ++ (putU8 type.toByte ++ payload)

theorem MessageType.ofByte_toByte (type : MessageType) : ofByte type.toByte = some type := by
  cases type <;> rfl

theorem MessageType.toByte_of_ofByte {b : UInt8} {type : MessageType} (h : ofByte b = some type) :
    type.toByte = b := by
  rw [ofByte] at h
  simpa using List.find?_some h

/-- The length in the header of a frame. -/
theorem MessageType.toNat_length (type : MessageType) :
    (UInt32.ofNat (kMsgTypeSize + type.expectedPayloadSize)).toNat =
      kMsgTypeSize + type.expectedPayloadSize := by
  cases type <;> rfl

theorem MessageType.length_le_kMaxFrame (type : MessageType) :
    kMsgTypeSize + type.expectedPayloadSize ≤ kMaxFrame := by
  cases type <;> decide

theorem length_frame {type : MessageType} {payload : List UInt8}
    (h : payload.length = type.expectedPayloadSize) :
    (frame type payload).length = kFrameHeaderSize + (kMsgTypeSize + type.expectedPayloadSize) := by
  rw [frame, List.length_append, List.length_append, length_putU32, length_putU8, h]
  rfl

section Parse

variable {M E : Type} {decode : List UInt8 → MessageType → Except E M} {malformed unknown : E}
  {buf payload : List UInt8} {m : M} {n : Nat} {type : MessageType}

/-- The frame at the front of the buffer. The length is checked before anything else, and nothing
is decoded before the whole frame is there. -/
def parseFrame (decode : List UInt8 → MessageType → Except E M) (malformed unknown : E)
    (buf : List UInt8) : Next M E :=
  if buf.length < kFrameHeaderSize then .more
  else
    let length := (getU32 0 buf).toNat
    if length < 1 ∨ kMaxFrame < length then .bad malformed
    else
      let total := kFrameHeaderSize + length
      if buf.length < total then .more
      else
        let frame := buf.take total
        match MessageType.ofByte (getU8 kFrameHeaderSize frame) with
        | none => .bad unknown
        | some type =>
          if length ≠ kMsgTypeSize + type.expectedPayloadSize then .bad malformed
          else
            match decode (frame.drop (kFrameHeaderSize + kMsgTypeSize)) type with
            | .error e => .bad e
            | .ok m => .ok m total

/-- Once there is a verdict, later bytes do not change it. -/
theorem parseFrame_append (h : parseFrame decode malformed unknown buf ≠ .more) (cs : List UInt8) :
    parseFrame decode malformed unknown (buf ++ cs) = parseFrame decode malformed unknown buf := by
  have hheader : kFrameHeaderSize ≤ buf.length := by
    by_contra hlt
    exact h (if_pos (not_le.1 hlt))
  have hlength : getU32 0 (buf ++ cs) = getU32 0 buf := by
    rw [getU32, get_append_left (by rw [Nat.zero_add]; exact hheader), getU32]
  have hlonger : ¬ (buf ++ cs).length < kFrameHeaderSize := by
    rw [List.length_append]
    omega
  unfold parseFrame at h ⊢
  rw [if_neg hlonger, if_neg hheader.not_gt, hlength]
  rw [if_neg hheader.not_gt] at h
  dsimp only at h ⊢
  split
  · rfl
  · next hbound =>
    rw [if_neg hbound] at h
    have htotal : kFrameHeaderSize + (getU32 0 buf).toNat ≤ buf.length := by
      by_contra hlt
      exact h (if_pos (not_le.1 hlt))
    have hmore : ¬ (buf ++ cs).length < kFrameHeaderSize + (getU32 0 buf).toNat := by
      rw [List.length_append]
      omega
    rw [if_neg hmore, if_neg htotal.not_gt, List.take_append_of_le_length htotal]

/-- What a frame that is accepted looks like. -/
theorem parseFrame_ok (h : parseFrame decode malformed unknown buf = .ok m n) :
    ∃ type payload, n = kFrameHeaderSize + kMsgTypeSize + type.expectedPayloadSize ∧
      n ≤ buf.length ∧ buf.take n = frame type payload ∧
      payload.length = type.expectedPayloadSize ∧ decode payload type = .ok m := by
  unfold parseFrame at h
  split at h
  · cases h
  next hheader =>
  dsimp only at h
  split at h
  · cases h
  split at h
  · cases h
  next htotal =>
  split at h
  · cases h
  next type htype =>
  split at h
  · cases h
  next hsize =>
  split at h
  · cases h
  next hdecode =>
  obtain ⟨rfl, rfl⟩ := Next.ok.inj h
  rw [not_lt] at hheader htotal
  rw [not_not] at hsize
  -- The three parts of the frame, and its bytes between the same bounds.
  obtain ⟨fr, hfr⟩ : ∃ fr, fr = buf.take (kFrameHeaderSize + (getU32 0 buf).toNat) := ⟨_, rfl⟩
  have hlen : fr.length = kFrameHeaderSize + (kMsgTypeSize + type.expectedPayloadSize) := by
    rw [hfr, List.length_take, Nat.min_eq_left htotal, hsize]
  rw [← hfr] at htype hdecode
  have hlength : getU32 0 fr = .ofNat (kMsgTypeSize + type.expectedPayloadSize) := by
    rw [← hsize, UInt32.ofNat_toNat, hfr, getU32, get_take (Nat.le_add_right 4 _), getU32]
  refine ⟨type, fr.drop (kFrameHeaderSize + kMsgTypeSize), by rw [hsize, Nat.add_assoc], htotal, ?_,
    by rw [List.length_drop, hlen]; omega, hdecode⟩
  have hheader' : 0 + 4 ≤ fr.length ∧ kFrameHeaderSize + 1 ≤ fr.length := by
    rw [hlen, kFrameHeaderSize, kMsgTypeSize]
    omega
  rw [← hfr, frame, ← hlength, MessageType.toByte_of_ofByte htype, putU32_getU32 hheader'.1,
    putU8_getU8 hheader'.2, ← List.append_assoc]
  have hjoin : slice 0 4 fr ++ slice kFrameHeaderSize 1 fr = fr.take 5 := slice_append_slice 0 4 1 fr
  rw [hjoin]
  exact (List.take_append_drop 5 fr).symm

theorem parseFrame_size (h : parseFrame decode malformed unknown buf = .ok m n) :
    0 < n ∧ n ≤ buf.length := by
  obtain ⟨type, -, hn, hle, -⟩ := parseFrame_ok h
  refine ⟨?_, hle⟩
  rw [hn, kFrameHeaderSize]
  omega

/-- The beginning of a frame is shorter than the longest one. -/
theorem length_lt_of_parseFrame (h : parseFrame decode malformed unknown buf = .more) :
    buf.length < kFrameHeaderSize + kMaxFrame := by
  unfold parseFrame at h
  split at h
  · next hheader => omega
  dsimp only at h
  split at h
  · cases h
  next hbound =>
  split at h
  · next htotal => omega
  split at h
  · cases h
  split at h
  · cases h
  split at h <;> cases h

/-- **A frame that was written is read.** -/
theorem parseFrame_frame (hlen : payload.length = type.expectedPayloadSize) (rest : List UInt8)
    (h : decode payload type = .ok m) :
    parseFrame decode malformed unknown (frame type payload ++ rest) =
      .ok m (frame type payload).length := by
  have hframe := length_frame hlen
  have hlength : getU32 0 (frame type payload ++ rest) =
      .ofNat (kMsgTypeSize + type.expectedPayloadSize) := by
    rw [frame, List.append_assoc, getU32_putU32_append]
  have hbound : ¬ (kMsgTypeSize + type.expectedPayloadSize < 1 ∨
      kMaxFrame < kMsgTypeSize + type.expectedPayloadSize) := by
    have := type.length_le_kMaxFrame
    rw [kMsgTypeSize] at this ⊢
    omega
  have htype : getU8 kFrameHeaderSize (frame type payload) = type.toByte := by
    rw [frame, getU8_append (by rw [length_putU32, kFrameHeaderSize]), length_putU32,
      kFrameHeaderSize, Nat.sub_self, getU8_putU8_append]
  have hdrop : (frame type payload).drop (kFrameHeaderSize + kMsgTypeSize) = payload := by
    rw [frame, ← List.append_assoc, List.drop_left']
    rw [List.length_append, length_putU32, length_putU8, kFrameHeaderSize, kMsgTypeSize]
  unfold parseFrame
  rw [hlength, MessageType.toNat_length]
  dsimp only
  rw [if_neg (by rw [List.length_append, hframe]; omega), if_neg hbound,
    if_neg (by rw [List.length_append, hframe]; omega), List.take_left' hframe, htype, hdrop,
    MessageType.ofByte_toByte]
  dsimp only
  rw [if_neg (not_not.2 rfl), h, hframe]

end Parse

/-! ## Writing a frame -/

/-- What an encoder writes: the header, and the fields of the payload at their offsets. -/
structure FrameStores where
  type : MessageType
  fields : List (Nat × List UInt8)

namespace FrameStores

variable {n : Nat} {s : FrameStores}

/-- All stores, in their order. -/
def stores (s : FrameStores) : List (Nat × List UInt8) :=
  (0, putU32 (.ofNat (kMsgTypeSize + s.type.expectedPayloadSize))) ::
    (kFrameHeaderSize, putU8 s.type.toByte) ::
      s.fields.map fun f => (kFrameHeaderSize + kMsgTypeSize + f.1, f.2)

/-- The destination with the frame in it, and the size of the frame. -/
def write (s : FrameStores) (dst : Memory n) : Option (Memory n × Nat) :=
  (dst.storeAll s.stores).map fun dst =>
    (dst, kFrameHeaderSize + kMsgTypeSize + s.type.expectedPayloadSize)

def payload (s : FrameStores) : List UInt8 := s.fields.flatMap Prod.snd

/-- The fields follow each other and fill the payload. -/
structure Fills (s : FrameStores) : Prop where
  adjacent : Memory.Adjacent 0 s.fields
  size : s.payload.length = s.type.expectedPayloadSize

/-- Fields that are read from a payload make it up. -/
theorem Fills.payload_eq (h : s.Fills) {p : List UInt8}
    (hlen : p.length = s.type.expectedPayloadSize)
    (hf : ∀ f ∈ s.fields, f.2 = slice f.1 f.2.length p) : s.payload = p := by
  have hall : s.payload = slice 0 s.payload.length p := h.adjacent.flatMap_eq hf
  rwa [h.size, ← hlen, slice_zero_length] at hall

theorem adjacent_shift (k : Nat) {off : Nat} {fs : List (Nat × List UInt8)}
    (h : Memory.Adjacent off fs) :
    Memory.Adjacent (k + off) (fs.map fun f => (k + f.1, f.2)) := by
  induction fs generalizing off with
  | nil => trivial
  | cons f fs ih =>
    obtain ⟨rfl, hrest⟩ := h
    exact ⟨rfl, by rw [Nat.add_assoc]; exact ih hrest⟩

/-- **An encoder writes a frame**, within a destination that has room for it. -/
theorem Fills.write_eq (h : s.Fills) (dst : Memory n)
    (hn : kFrameHeaderSize + kMsgTypeSize + s.type.expectedPayloadSize ≤ n) :
    ∃ dst' size, s.write dst = some (dst', size) ∧ dst'.bytes.take size = frame s.type s.payload := by
  have hbytes : s.stores.flatMap Prod.snd = frame s.type s.payload := by
    rw [stores, List.flatMap_cons, List.flatMap_cons, List.flatMap_map, frame, payload]
  have hadj : Memory.Adjacent 0 s.stores :=
    ⟨rfl, rfl, adjacent_shift (kFrameHeaderSize + kMsgTypeSize) h.adjacent⟩
  have hsize : (frame s.type s.payload).length =
      kFrameHeaderSize + kMsgTypeSize + s.type.expectedPayloadSize := by
    rw [length_frame h.size, Nat.add_assoc]
  obtain ⟨dst', hall, hdst'⟩ : ∃ dst', dst.storeAll s.stores = some dst' ∧ _ :=
    Memory.storeAll_adjacent hadj (by rw [hbytes, hsize, Nat.zero_add]; exact hn)
  refine ⟨dst', _, by rw [write, hall]; rfl, ?_⟩
  rw [hdst', hbytes, List.take_zero, List.nil_append, List.take_left' hsize]

/-- What is sent of a buffer into which a frame was written. -/
def sent (s : FrameStores) (dst : Memory n) : Option (List UInt8) :=
  (s.write dst).map fun r => r.1.bytes.take r.2

theorem Fills.sent_eq (h : s.Fills) (dst : Memory n)
    (hn : kFrameHeaderSize + kMsgTypeSize + s.type.expectedPayloadSize ≤ n) :
    s.sent dst = some (frame s.type s.payload) := by
  obtain ⟨dst', size, hwrite, hbytes⟩ := h.write_eq dst hn
  rw [sent, hwrite, Option.map_some, hbytes]

end FrameStores

end Velox
