import Velox.Lib.WebSocket

/-!
# The visualizer's WebSocket sessions

Following `viz/ws_server.cpp`, from the moment the handshake is complete. The session reads the
client's frames in up to four steps (two bytes, the extended length, the mask key, the payload),
and broadcasts and completed writes come in between. It queues a text frame for every broadcast and
a pong for every ping. A text frame has its length in one of the three forms; a pong has the seven
low bits of it. So the client can read what is queued as long as no ping carries more than 125 bytes
(`queued_parses_iff`).
-/

namespace Velox

/-! ## Frames from the server -/

def encodeTextFrame (payload : List UInt8) : List UInt8 :=
  let len := payload.length
  0x81 ::
    (if len ≤ 125 then [UInt8.ofNat len]
    else if len ≤ 0xFFFF then [126, UInt8.ofNat (len >>> 8 &&& 0xFF), UInt8.ofNat (len &&& 0xFF)]
    else 127 :: [7, 6, 5, 4, 3, 2, 1, 0].map fun i => UInt8.ofNat (len >>> (8 * i) &&& 0xFF)) ++
    payload

/-- The pong of `handleFrame`. -/
def pongFrame (payload : List UInt8) : List UInt8 :=
  0x8A :: UInt8.ofNat (payload.length &&& 0x7F) :: payload

/-- What the session has to say. -/
inductive Saying where
  | text (payload : List UInt8)
  | pong (payload : List UInt8)
  deriving DecidableEq, Repr

namespace Saying

/-- As the session queues it. -/
def queued : Saying → List UInt8
  | text payload => encodeTextFrame payload
  | pong payload => pongFrame payload

/-- As RFC 6455 has it. -/
def frame : Saying → WebSocket.Frame
  | text payload => ⟨0x81, payload⟩
  | pong payload => ⟨0x8A, payload⟩

def text? : Saying → Option (List UInt8)
  | text payload => some payload
  | pong _ => none

def pong? : Saying → Option (List UInt8)
  | text _ => none
  | pong payload => some payload

end Saying

/-! ## The session -/

/-- Which read of the socket is under way. -/
inductive Awaiting where
  | header
  | extendedLength (extraBytes : Nat)
  | maskKey
  | payload
  deriving DecidableEq, Repr

/-- Frame-parsing scratch state: the server reads one client frame at a time. -/
structure FrameReader where
  awaiting : Awaiting
  opcode : UInt8
  masked : Bool
  payloadLen : UInt64
  maskKey : List UInt8
  payloadBuf : List UInt8
  deriving DecidableEq, Repr

structure WsSession where
  maxQueueBytes : Nat
  reader : FrameReader
  pending : List (List UInt8)
  queuedBytes : Nat
  writing : Bool
  isWs : Bool
  closed : Bool
  /-- The frames that were written to the socket. -/
  written : List (List UInt8)
  deriving DecidableEq, Repr

namespace WsSession

def kDefaultMaxQueueBytes : Nat := 4 * 1024 * 1024

def kOpClose : UInt8 := 0x8

def kOpPing : UInt8 := 0x9

/-- A session that the server has accepted, after the handshake. -/
def established : WsSession :=
  ⟨kDefaultMaxQueueBytes, ⟨.header, 0, false, 0, [0, 0, 0, 0], []⟩, [], 0, false, true, false, []⟩

/-- Every frame that was queued, in order. -/
def queue (s : WsSession) : List (List UInt8) := s.written ++ s.pending

def close (s : WsSession) : WsSession := { s with closed := true }

def doWrite (s : WsSession) : WsSession := { s with writing := !s.pending.isEmpty }

def enqueueRaw (s : WsSession) (frame : List UInt8) : WsSession :=
  if s.closed then s
  else if s.maxQueueBytes < s.queuedBytes + frame.length then s.close
  else
    let s := { s with
      queuedBytes := s.queuedBytes + frame.length
      pending := s.pending ++ [frame] }
    if s.writing then s else s.doWrite

/-- A write has completed. -/
def onWritten (s : WsSession) : WsSession :=
  match s.pending with
  | [] => s
  | frame :: rest =>
    { s with
      queuedBytes := s.queuedBytes - frame.length
      pending := rest
      written := s.written ++ [frame] }.doWrite

def sendText (s : WsSession) (payload : List UInt8) : WsSession :=
  if ¬ s.isWs ∨ s.closed then s else s.enqueueRaw (encodeTextFrame payload)

/-- What a broadcast does to one session of the server. -/
def broadcastText (s : WsSession) (payload : List UInt8) : WsSession :=
  if s.closed then s else if s.isWs then s.sendText payload else s

/-- The payload and its masked form: each is the other's. -/
def unmask (maskKey payload : List UInt8) : List UInt8 :=
  payload.mapIdx fun i b => b ^^^ maskKey.getD (i % 4) 0

def readFrameHeader (s : WsSession) : WsSession :=
  { s with reader := { s.reader with awaiting := .header } }

def handleFrame (s : WsSession) : WsSession :=
  if s.reader.opcode = kOpClose then s.close
  else
    let s := if s.reader.opcode = kOpPing then s.enqueueRaw (pongFrame s.reader.payloadBuf) else s
    let s := { s with reader := { s.reader with payloadBuf := [] } }
    if s.closed then s else s.readFrameHeader

def readPayload (s : WsSession) : WsSession :=
  if s.reader.payloadLen = 0 then s.handleFrame
  else { s with reader := { s.reader with awaiting := .payload } }

def readMaskKey (s : WsSession) : WsSession :=
  { s with reader := { s.reader with awaiting := .maskKey } }

def readExtendedLength (s : WsSession) (byte1 : UInt8) : WsSession :=
  let len7 := byte1 &&& 0x7F
  if len7 ≤ 125 then
    { s with reader := { s.reader with payloadLen := len7.toUInt64 } }.readMaskKey
  else
    let extraBytes := if len7 = 126 then 2 else 8
    { s with reader := { s.reader with awaiting := .extendedLength extraBytes } }

/-- The loop over the bytes of the extended length. -/
def lengthOf (bs : List UInt8) : UInt64 := bs.foldl (fun len b => len <<< 8 ||| b.toUInt64) 0

/-- A read has completed. -/
def onRead (s : WsSession) (data : List UInt8) : WsSession :=
  match s.reader.awaiting with
  | .header =>
    let b0 := data.getD 0 0
    let b1 := data.getD 1 0
    let s := { s with reader := { s.reader with
      opcode := b0 &&& 0x0F
      masked := b1 &&& 0x80 ≠ 0 } }
    if s.reader.masked then s.readExtendedLength b1 else s.close
  | .extendedLength _ =>
    { s with reader := { s.reader with payloadLen := lengthOf data } }.readMaskKey
  | .maskKey => { s with reader := { s.reader with maskKey := data } }.readPayload
  | .payload =>
    { s with reader := { s.reader with
      payloadBuf := unmask s.reader.maskKey data } }.handleFrame

/-- How many bytes the read that is under way takes. -/
def wants (r : FrameReader) : Nat :=
  match r.awaiting with
  | .header => 2
  | .extendedLength extraBytes => extraBytes
  | .maskKey => 4
  | .payload => r.payloadLen.toNat

inductive Event where
  | read (data : List UInt8)
  | broadcast (payload : List UInt8)
  | written
  | failed
  deriving DecidableEq, Repr

def step (s : WsSession) : Event → Option WsSession
  | .read data =>
    if s.closed = false ∧ data.length = wants s.reader then some (s.onRead data) else none
  | .broadcast payload => some (s.broadcastText payload)
  | .written => if s.closed = false ∧ s.writing then some s.onWritten else none
  | .failed => some s.close

def run (s : WsSession) : List Event → Option WsSession
  | [] => some s
  | e :: es => (s.step e).bind fun s => s.run es

end WsSession

/-! ## Frames from the client -/

/-- The three ways to write a length. -/
inductive LengthForm where
  | seven
  | sixteen
  | sixtyFour
  deriving DecidableEq, Repr

namespace LengthForm

def limit : LengthForm → Nat
  | seven => 125
  | sixteen => 0xFFFF
  | sixtyFour => 2 ^ 64 - 1

def extraBytes : LengthForm → Nat
  | seven => 0
  | sixteen => 2
  | sixtyFour => 8

def code (len : Nat) : LengthForm → UInt8
  | seven => UInt8.ofNat (128 + len)
  | sixteen => 128 + 126
  | sixtyFour => 128 + 127

end LengthForm

/-- A masked frame. The client chooses the form of the length. -/
structure ClientFrame where
  head : UInt8
  form : LengthForm
  maskKey : List UInt8
  payload : List UInt8
  length_maskKey : maskKey.length = 4
  fits : payload.length ≤ form.limit

namespace ClientFrame

open WsSession

def opcode (f : ClientFrame) : UInt8 := f.head &&& 0x0F

def extended (f : ClientFrame) : List UInt8 := WebSocket.be f.form.extraBytes f.payload.length

def wire (f : ClientFrame) : List UInt8 :=
  [f.head, f.form.code f.payload.length] ++
    (f.extended ++ (f.maskKey ++ unmask f.maskKey f.payload))

/-- The payload of a ping. -/
def ping? (f : ClientFrame) : Option (List UInt8) :=
  if f.opcode = kOpPing then some f.payload else none

end ClientFrame

namespace WsSession

theorem unmask_unmask (maskKey payload : List UInt8) :
    unmask maskKey (unmask maskKey payload) = payload := by
  apply List.ext_getElem
  · simp [unmask]
  · intro i h1 h2
    simp [unmask, UInt8.xor_assoc]

@[simp] theorem length_unmask (maskKey payload : List UInt8) :
    (unmask maskKey payload).length = payload.length := by
  simp [unmask]

/-- The loop computes the number, if it fits. -/
theorem toNat_lengthOf {bs : List UInt8} (h : bs.length ≤ 8) :
    (lengthOf bs).toNat = WebSocket.ofBe bs := by
  induction bs using List.reverseRecOn with
  | nil => rfl
  | append_singleton bs b ih =>
    have hlen : bs.length + 1 ≤ 8 := by simpa using h
    have hlt : WebSocket.ofBe bs < 2 ^ 56 :=
      calc WebSocket.ofBe bs < 256 ^ bs.length := WebSocket.ofBe_lt bs
        _ ≤ 256 ^ 7 := Nat.pow_le_pow_right (by decide) (by omega)
    have hshift : (lengthOf bs <<< 8).toNat = 2 ^ 8 * WebSocket.ofBe bs := by
      rw [UInt64.toNat_shiftLeft, ih (by omega), Nat.shiftLeft_eq]
      simp
      omega
    have hb : b.toUInt64.toNat < 2 ^ 8 := by simpa using b.toNat_lt
    rw [lengthOf, List.foldl_concat, ← lengthOf, UInt64.toNat_or, hshift,
      ← Nat.two_pow_add_eq_or_of_lt hb, WebSocket.ofBe_concat, UInt8.toNat_toUInt64]

/-! ## What a session says -/

/-- From `s` to `s'` the session has said `ms`. -/
structure Said (s s' : WsSession) (ms : List Saying) : Prop where
  queue : s'.queue = s.queue ++ ms.map Saying.queued
  isWs : s'.isWs = s.isWs
  maxQueueBytes : s'.maxQueueBytes = s.maxQueueBytes
  fits : ∀ m ∈ ms, m.queued.length ≤ s.maxQueueBytes

section Said

variable {s s' s'' : WsSession} {ms ms' : List Saying}

theorem Said.trans (h : Said s s' ms) (h' : Said s' s'' ms') : Said s s'' (ms ++ ms') where
  queue := by rw [h'.queue, h.queue, List.map_append, List.append_assoc]
  isWs := by rw [h'.isWs, h.isWs]
  maxQueueBytes := by rw [h'.maxQueueBytes, h.maxQueueBytes]
  fits := by
    intro m hm
    rcases List.mem_append.1 hm with hm | hm
    · exact h.fits m hm
    · rw [← h.maxQueueBytes]
      exact h'.fits m hm

/-- Reading says nothing. -/
theorem Said.of_reader (s : WsSession) (r : FrameReader) : Said s { s with reader := r } [] :=
  ⟨by simp [WsSession.queue], rfl, rfl, by simp⟩

theorem enqueueRaw_reader (frame : List UInt8) : (s.enqueueRaw frame).reader = s.reader := by
  simp only [enqueueRaw, close, doWrite]
  split_ifs <;> rfl

theorem said_enqueueRaw {m : Saying} (hopen : (s.enqueueRaw m.queued).closed = false) :
    Said s (s.enqueueRaw m.queued) [m] := by
  unfold enqueueRaw at hopen ⊢
  by_cases hclosed : s.closed
  · simp [hclosed] at hopen
  by_cases hfull : s.maxQueueBytes < s.queuedBytes + m.queued.length
  · simp [hclosed, hfull, close] at hopen
  have hfits : m.queued.length ≤ s.maxQueueBytes := by omega
  rw [if_neg hclosed, if_neg hfull]
  by_cases hwriting : s.writing
  · exact ⟨by simp [WsSession.queue, hwriting], by simp [hwriting], by simp [hwriting], by simpa⟩
  · exact ⟨by simp [WsSession.queue, hwriting, doWrite], by simp [hwriting, doWrite],
      by simp [hwriting, doWrite], by simpa⟩

theorem said_onWritten : Said s s.onWritten [] := by
  unfold onWritten doWrite
  cases hpending : s.pending with
  | nil => exact ⟨by simp, rfl, rfl, by simp⟩
  | cons frame rest => exact ⟨by simp [WsSession.queue, hpending], rfl, rfl, by simp⟩

theorem onWritten_reader : s.onWritten.reader = s.reader := by
  unfold onWritten
  cases s.pending <;> rfl

end Said

/-! ## Reading the client's frames -/

/-- The session is in the middle of a frame, of which these bytes are still to come. -/
inductive Midway (r : FrameReader) (f : ClientFrame) : List UInt8 → Prop
  | extended (hawait : r.awaiting = .extendedLength f.form.extraBytes) (hform : f.form ≠ .seven) :
      Midway r f (f.extended ++ (f.maskKey ++ unmask f.maskKey f.payload))
  | maskKey (hawait : r.awaiting = .maskKey) (hlen : r.payloadLen.toNat = f.payload.length) :
      Midway r f (f.maskKey ++ unmask f.maskKey f.payload)
  | payload (hawait : r.awaiting = .payload) (hlen : r.payloadLen.toNat = f.payload.length)
      (hkey : r.maskKey = f.maskKey) (hne : f.payload ≠ []) :
      Midway r f (unmask f.maskKey f.payload)

/-- The bytes that the session expects, if the frames `fs` are still to be handled. -/
inductive Expects (r : FrameReader) : List ClientFrame → List UInt8 → Prop
  | header {fs} (hbuf : r.payloadBuf = []) (hawait : r.awaiting = .header) :
      Expects r fs (fs.flatMap ClientFrame.wire)
  | midway {f fs todo} (hbuf : r.payloadBuf = []) (hop : r.opcode = f.opcode)
      (h : Midway r f todo) : Expects r (f :: fs) (todo ++ fs.flatMap ClientFrame.wire)

theorem Midway.ne_nil {r : FrameReader} {f : ClientFrame} {todo : List UInt8}
    (h : Midway r f todo) : todo ≠ [] := by
  intro hnil
  have hlen := congrArg List.length hnil
  cases h with
  | extended => simp [f.length_maskKey] at hlen
  | maskKey => simp [f.length_maskKey] at hlen
  | payload _ _ _ hne => simp [hne] at hlen

/-- If nothing is to come, nothing is to be handled. -/
theorem Expects.nil {r : FrameReader} {fs : List ClientFrame} (h : Expects r fs []) : fs = [] := by
  generalize hbs : ([] : List UInt8) = bs at h
  cases h with
  | header =>
    cases fs with
    | nil => rfl
    | cons f fs => simp [ClientFrame.wire] at hbs
  | midway _ _ h => exact absurd (List.append_eq_nil_iff.1 hbs.symm).1 h.ne_nil

theorem code_seven {len : Nat} (h : len ≤ 125) :
    LengthForm.seven.code len &&& 0x80 ≠ 0 ∧ LengthForm.seven.code len &&& 0x7F ≤ 125 ∧
      (LengthForm.seven.code len &&& 0x7F).toUInt64.toNat = len := by
  have hall : ∀ len : Fin 126, LengthForm.seven.code len &&& 0x80 ≠ 0 ∧
      LengthForm.seven.code len &&& 0x7F ≤ 125 ∧
      (LengthForm.seven.code len &&& 0x7F).toUInt64.toNat = len := by decide +kernel
  exact hall ⟨len, by omega⟩

/-- The frame that has been read is handled. -/
theorem handleFrame_spec {s : WsSession} {f : ClientFrame} (hop : s.reader.opcode = f.opcode)
    (hbuf : s.reader.payloadBuf = f.payload) (hopen : s.handleFrame.closed = false) :
    Said s s.handleFrame (f.ping?.toList.map Saying.pong) ∧
      s.handleFrame.reader.payloadBuf = [] ∧ s.handleFrame.reader.awaiting = .header := by
  simp only [handleFrame] at hopen ⊢
  by_cases hclose : s.reader.opcode = kOpClose
  · simp [hclose, close] at hopen
  simp only [if_neg hclose] at hopen ⊢
  by_cases hping : s.reader.opcode = kOpPing
  · simp only [if_pos hping, hbuf] at hopen ⊢
    have hsaying : f.ping?.toList.map Saying.pong = [.pong f.payload] := by
      simp [ClientFrame.ping?, ← hop, hping]
    rw [hsaying]
    by_cases hclosed : (s.enqueueRaw (pongFrame f.payload)).closed
    · simp [hclosed] at hopen
    · have hsaid : Said s (s.enqueueRaw (pongFrame f.payload)) [.pong f.payload] :=
        said_enqueueRaw (m := .pong f.payload) (Bool.eq_false_iff.2 hclosed)
      simp only [if_neg hclosed, readFrameHeader, and_true]
      exact hsaid.trans (.of_reader _ _)
  · simp only [if_neg hping] at hopen ⊢
    have hsaying : f.ping?.toList.map Saying.pong = [] := by
      simp [ClientFrame.ping?, ← hop, hping]
    rw [hsaying]
    by_cases hclosed : s.closed
    · simp [hclosed] at hopen
    · simp only [if_neg hclosed, readFrameHeader, and_true]
      exact .of_reader s _

/-- The first two bytes of a frame. -/
theorem onRead_header {s : WsSession} (f : ClientFrame) (hawait : s.reader.awaiting = .header) :
    ∃ r : FrameReader, s.onRead [f.head, f.form.code f.payload.length] = { s with reader := r } ∧
      r.payloadBuf = s.reader.payloadBuf ∧ r.opcode = f.opcode ∧
      Midway r f (f.extended ++ (f.maskKey ++ unmask f.maskKey f.payload)) := by
  have hfits := f.fits
  simp only [onRead, hawait, List.getD_cons_zero, List.getD_cons_succ, readExtendedLength]
  cases hform : f.form with
  | seven =>
    rw [hform] at hfits
    obtain ⟨hmask, hle, hlen⟩ := code_seven hfits
    simp only [hmask, hle, ne_eq, not_false_eq_true, decide_true, if_true, readMaskKey]
    have hext : f.extended = [] := by rw [ClientFrame.extended, hform]; rfl
    rw [hext]
    exact ⟨_, rfl, rfl, rfl, .maskKey rfl hlen⟩
  | sixteen =>
    have hmask : (128 + 126 : UInt8) &&& 0x80 ≠ 0 := by decide
    have hlong : ¬ (126 : UInt8) ≤ 125 := by decide
    have hcode : (128 + 126 : UInt8) &&& 0x7F = 126 := by decide
    simp only [LengthForm.code, hmask, hlong, hcode, ne_eq, not_false_eq_true, decide_true, if_true,
      if_false]
    exact ⟨_, rfl, rfl, rfl, .extended (by rw [hform]; rfl) (by rw [hform]; simp)⟩
  | sixtyFour =>
    have hmask : (128 + 127 : UInt8) &&& 0x80 ≠ 0 := by decide
    have hlong : ¬ (128 + 127 : UInt8) &&& 0x7F ≤ 125 := by decide
    have hcode : ¬ (128 + 127 : UInt8) &&& 0x7F = 126 := by decide
    simp only [LengthForm.code, hmask, hlong, hcode, ne_eq, not_false_eq_true, decide_true, if_true,
      if_false]
    exact ⟨_, rfl, rfl, rfl, .extended (by rw [hform]; rfl) (by rw [hform]; simp)⟩

/-- The bytes of the length. -/
theorem toNat_lengthOf_extended (f : ClientFrame) (h : f.form ≠ .seven) :
    (lengthOf f.extended).toNat = f.payload.length := by
  have hfits := f.fits
  cases hform : f.form with
  | seven => exact absurd hform h
  | sixteen =>
    rw [hform] at hfits
    rw [ClientFrame.extended, hform, toNat_lengthOf (by simp [LengthForm.extraBytes])]
    exact WebSocket.ofBe_be (Nat.lt_of_le_of_lt hfits (by decide))
  | sixtyFour =>
    rw [hform] at hfits
    rw [ClientFrame.extended, hform, toNat_lengthOf (by simp [LengthForm.extraBytes])]
    exact WebSocket.ofBe_be (Nat.lt_of_le_of_lt hfits (by decide))

/-- One read: the session goes on in its frame, or it handles it. -/
theorem Expects.read {s : WsSession} {fs : List ClientFrame} {data bs : List UInt8}
    (h : Expects s.reader fs (data ++ bs)) (hdata : data.length = wants s.reader)
    (hopen : (s.onRead data).closed = false) :
    ∃ done fs', fs = done ++ fs' ∧ Expects (s.onRead data).reader fs' bs ∧
      Said s (s.onRead data) ((done.filterMap ClientFrame.ping?).map Saying.pong) := by
  generalize hall : data ++ bs = all at h
  cases h with
  | header hbuf hawait =>
    rw [wants, hawait] at hdata
    cases fs with
    | nil =>
      have hlen := congrArg List.length hall
      simp [hdata] at hlen
    | cons f fs =>
      rw [List.flatMap_cons, ClientFrame.wire, List.append_assoc] at hall
      obtain ⟨rfl, rfl⟩ := List.append_inj hall hdata
      obtain ⟨r, hread, hbuf', hop, hmid⟩ := onRead_header f hawait
      rw [hread]
      exact ⟨[], f :: fs, rfl, .midway (hbuf'.trans hbuf) hop hmid, .of_reader s r⟩
  | @midway f fs todo hbuf hop hmid =>
    have hhandle : ∀ r : FrameReader, r.opcode = f.opcode → r.payloadBuf = f.payload →
        ({ s with reader := r } : WsSession).handleFrame = s.onRead data →
        bs = fs.flatMap ClientFrame.wire → ∃ done fs', f :: fs = done ++ fs' ∧
          Expects (s.onRead data).reader fs' bs ∧
          Said s (s.onRead data) ((done.filterMap ClientFrame.ping?).map Saying.pong) := by
      intro r hop hpayload hread hbs
      rw [← hread] at hopen ⊢
      obtain ⟨hsaid, hbuf, hawait⟩ := handleFrame_spec hop hpayload hopen
      rw [hbs]
      refine ⟨[f], fs, rfl, .header hbuf hawait, ?_⟩
      have hpings : [f].filterMap ClientFrame.ping? = f.ping?.toList := by
        cases hping : f.ping? <;> simp [hping]
      rw [hpings]
      exact (Said.of_reader s r).trans hsaid
    cases hmid with
    | extended hawait hform =>
      rw [wants, hawait] at hdata
      rw [List.append_assoc] at hall
      obtain ⟨rfl, rfl⟩ := List.append_inj hall (by rw [hdata, ClientFrame.extended]; simp)
      refine ⟨[], f :: fs, rfl, ?_⟩
      simp only [onRead, hawait, readMaskKey]
      exact ⟨.midway hbuf hop (.maskKey rfl (toNat_lengthOf_extended f hform)), .of_reader s _⟩
    | maskKey hawait hlen =>
      rw [wants, hawait] at hdata
      rw [List.append_assoc] at hall
      obtain ⟨rfl, rfl⟩ := List.append_inj hall (by rw [hdata, f.length_maskKey])
      by_cases hempty : s.reader.payloadLen = 0
      · have hpayload : f.payload = [] := by
          rw [hempty] at hlen
          exact List.length_eq_zero_iff.1 hlen.symm
        refine hhandle { s.reader with maskKey := f.maskKey } hop (by rw [hbuf, hpayload]) ?_ ?_
        · simp only [onRead, hawait, readPayload, hempty, if_true]
        · rw [hpayload]
          rfl
      · have hne : f.payload ≠ [] := by
          intro hnil
          rw [hnil] at hlen
          exact hempty (UInt64.toNat_inj.1 hlen)
        refine ⟨[], f :: fs, rfl, ?_⟩
        simp only [onRead, hawait, readPayload, if_neg hempty]
        exact ⟨.midway hbuf hop (.payload rfl hlen rfl hne), .of_reader s _⟩
    | payload hawait hlen hkey hne =>
      rw [wants, hawait] at hdata
      obtain ⟨rfl, rfl⟩ := List.append_inj hall (by rw [hdata, hlen, length_unmask])
      refine hhandle { s.reader with payloadBuf := f.payload } hop rfl ?_ rfl
      simp only [onRead, hawait, hkey, unmask_unmask]

/-! ## Runs -/

def reads : List Event → List UInt8
  | [] => []
  | .read data :: es => data ++ reads es
  | _ :: es => reads es

def broadcasts : List Event → List (List UInt8)
  | [] => []
  | .broadcast payload :: es => payload :: broadcasts es
  | _ :: es => broadcasts es

/-- A closed session stays closed. -/
theorem broadcastText_of_closed {s : WsSession} (payload : List UInt8) (h : s.closed = true) :
    s.broadcastText payload = s := by
  rw [broadcastText, if_pos h]

theorem step_open {s s' : WsSession} {e : Event} (h : s.step e = some s')
    (hopen : s'.closed = false) : s.closed = false := by
  by_contra hclosed
  have hclosed : s.closed = true := by simpa using hclosed
  cases e with
  | read data => simp [step, hclosed] at h
  | broadcast payload =>
    simp only [step, broadcastText_of_closed payload hclosed, Option.some.injEq] at h
    rw [← h, hclosed] at hopen
    cases hopen
  | written => simp [step, hclosed] at h
  | failed =>
    simp only [step, Option.some.injEq] at h
    rw [← h] at hopen
    cases hopen

theorem run_open {s s' : WsSession} {es : List Event} (h : s.run es = some s')
    (hopen : s'.closed = false) : s.closed = false := by
  induction es generalizing s with
  | nil =>
    cases h
    exact hopen
  | cons e es ih =>
    obtain ⟨s₁, hstep, hrun⟩ := Option.bind_eq_some_iff.1 h
    exact step_open hstep (ih hrun)

/-- **What an open session has said**: a text for each broadcast and a pong for each ping, both in
their own order. -/
theorem run_said {s s' : WsSession} {es : List Event} {fs : List ClientFrame}
    (h : s.run es = some s') (hopen : s'.closed = false) (hws : s.isWs = true)
    (hreads : Expects s.reader fs (reads es)) :
    ∃ ms, Said s s' ms ∧ ms.filterMap Saying.text? = broadcasts es ∧
      ms.filterMap Saying.pong? = fs.filterMap ClientFrame.ping? := by
  induction es generalizing s fs with
  | nil =>
    cases h
    rw [hreads.nil]
    exact ⟨[], .of_reader s' s'.reader, rfl, rfl⟩
  | cons e es ih =>
    obtain ⟨s₁, hstep, hrun⟩ := Option.bind_eq_some_iff.1 h
    have hopen₁ := run_open hrun hopen
    have hopen₀ := step_open hstep hopen₁
    -- What the step says, and what is expected after it.
    have hone : ∃ ms fs', Said s s₁ ms ∧ Expects s₁.reader fs' (reads es) ∧
        ms.filterMap Saying.text? ++ broadcasts es = broadcasts (e :: es) ∧
        ms.filterMap Saying.pong? ++ fs'.filterMap ClientFrame.ping? =
          fs.filterMap ClientFrame.ping? := by
      cases e with
      | read data =>
        simp only [step, Option.ite_none_right_eq_some, Option.some.injEq] at hstep
        obtain ⟨⟨-, hdata⟩, rfl⟩ := hstep
        obtain ⟨done, fs', rfl, hexpects, hsaid⟩ := hreads.read hdata hopen₁
        refine ⟨_, fs', hsaid, hexpects, ?_, ?_⟩
        · simp [List.filterMap_map, Function.comp_def, Saying.text?, broadcasts]
        · simp [List.filterMap_map, Function.comp_def, Saying.pong?]
      | broadcast payload =>
        have hsend : s₁ = s.enqueueRaw (Saying.text payload).queued := by
          simp only [step, broadcastText, sendText, hopen₀, hws, Option.some.injEq] at hstep
          simpa [Saying.queued] using hstep.symm
        rw [hsend] at hopen₁ ⊢
        refine ⟨[.text payload], fs, said_enqueueRaw hopen₁, ?_, rfl, rfl⟩
        rw [enqueueRaw_reader]
        exact hreads
      | written =>
        simp only [step, Option.ite_none_right_eq_some, Option.some.injEq] at hstep
        obtain ⟨-, rfl⟩ := hstep
        refine ⟨[], fs, said_onWritten, ?_, rfl, rfl⟩
        rw [onWritten_reader]
        exact hreads
      | failed =>
        simp only [step, Option.some.injEq] at hstep
        rw [← hstep] at hopen₁
        cases hopen₁
    obtain ⟨ms, fs', hsaid, hexpects, htexts, hpongs⟩ := hone
    obtain ⟨ms', hsaid', htexts', hpongs'⟩ := ih hrun (hsaid.isWs.trans hws) hexpects
    refine ⟨ms ++ ms', hsaid.trans hsaid', ?_, ?_⟩
    · rw [List.filterMap_append, htexts', htexts]
    · rw [List.filterMap_append, hpongs', hpongs]

/-! ## Reading what was said -/

theorem encodeTextFrame_eq (payload : List UInt8) :
    encodeTextFrame payload = (Saying.text payload).frame.wire := by
  have hwire : (Saying.text payload).frame.wire =
      0x81 :: WebSocket.lengthCode payload.length ++ payload := rfl
  have hbyte : ∀ n : Nat, UInt8.ofNat (n &&& 255) = UInt8.ofNat (n % 256) := by
    intro n
    rw [show 255 = 2 ^ 8 - 1 by rfl, Nat.and_two_pow_sub_one_eq_mod]
  rw [hwire, encodeTextFrame, WebSocket.lengthCode]
  by_cases hshort : payload.length ≤ 125
  · simp [hshort]
  by_cases hmid : payload.length ≤ 0xFFFF
  · simp [hshort, hmid, WebSocket.be, Bytes.le, hbyte, Nat.shiftRight_eq_div_pow]
  · simp [hshort, hmid, WebSocket.be, Bytes.le, hbyte, Nat.shiftRight_eq_div_pow,
      Nat.div_div_eq_div_mul]

theorem pongFrame_eq {payload : List UInt8} (h : payload.length ≤ 125) :
    pongFrame payload = (Saying.pong payload).frame.wire := by
  have hwire : (Saying.pong payload).frame.wire =
      0x8A :: WebSocket.lengthCode payload.length ++ payload := rfl
  have hlow : payload.length &&& 0x7F = payload.length := by
    rw [show 0x7F = 2 ^ 7 - 1 by rfl, Nat.and_two_pow_sub_one_eq_mod, Nat.mod_eq_of_lt (by omega)]
  rw [hwire, pongFrame, WebSocket.lengthCode, if_pos h, hlow]
  rfl

/-- A longer pong has too short a header. -/
theorem length_pongFrame_lt {payload : List UInt8} (h : 125 < payload.length) :
    (pongFrame payload).length < (Saying.pong payload).frame.wire.length := by
  have hcode : 3 ≤ (WebSocket.lengthCode payload.length).length := by
    rw [WebSocket.lengthCode, if_neg (by omega)]
    split_ifs <;> simp
  rw [WebSocket.Frame.length_wire, pongFrame]
  simp only [List.length_cons, Saying.frame]
  omega

theorem length_queued_le (m : Saying) : m.queued.length ≤ m.frame.wire.length := by
  cases m with
  | text payload => rw [Saying.queued, encodeTextFrame_eq]
  | pong payload =>
    by_cases h : payload.length ≤ 125
    · rw [Saying.queued, pongFrame_eq h]
    · exact (length_pongFrame_lt (not_le.1 h)).le

/-- Frames that are read as they were meant are long enough. -/
theorem length_le_of_scan {ms : List Saying}
    (h : WebSocket.framing.scan (ms.map Saying.queued).flatten = (ms.map Saying.frame, .rest [])) :
    ∀ payload ∈ ms.filterMap Saying.pong?, payload.length ≤ 125 := by
  intro payload hpayload
  by_contra hlong
  obtain ⟨m, hm, hpong⟩ := List.mem_filterMap.1 hpayload
  obtain rfl : m = .pong payload := by
    cases m with
    | text payload' => cases hpong
    | pong payload' =>
      cases hpong
      rfl
  have hbytes := WebSocket.codec.flatMap_scan h
  have hlt : (ms.map fun m => m.queued.length).sum < (ms.map fun m => m.frame.wire.length).sum :=
    List.sum_lt_sum _ _ (fun m _ => length_queued_le m)
      ⟨.pong payload, hm, length_pongFrame_lt (not_le.1 hlong)⟩
  have hlen := congrArg List.length hbytes
  simp only [List.append_nil, List.length_flatMap, List.length_flatten, List.map_map,
    Function.comp_def] at hlen
  omega

/-- **The client reads what is queued**, a text frame for each broadcast and a pong for each ping,
if and only if no ping carries more than 125 bytes. -/
theorem queued_parses_iff {es : List Event} {fs : List ClientFrame} {s : WsSession}
    (hrun : established.run es = some s) (hopen : s.closed = false)
    (hreads : reads es = fs.flatMap ClientFrame.wire) :
    (∃ ms : List Saying, s.queue = ms.map Saying.queued ∧
      WebSocket.framing.scan s.queue.flatten = (ms.map Saying.frame, .rest []) ∧
      ms.filterMap Saying.text? = broadcasts es ∧
      ms.filterMap Saying.pong? = fs.filterMap ClientFrame.ping?) ↔
    ∀ payload ∈ fs.filterMap ClientFrame.ping?, payload.length ≤ 125 := by
  constructor
  · intro h
    obtain ⟨ms, hqueue, hscan, -, hpongs⟩ := h
    rw [hqueue] at hscan
    rw [← hpongs]
    exact length_le_of_scan hscan
  · intro hshort
    have hexpects : Expects established.reader fs (reads es) := by
      rw [hreads]
      exact .header rfl rfl
    obtain ⟨ms, hsaid, htexts, hpongs⟩ := run_said hrun hopen rfl hexpects
    have hqueue : s.queue = ms.map Saying.queued := hsaid.queue
    have hwire : ∀ m ∈ ms, m.queued = m.frame.wire := by
      intro m hm
      cases m with
      | text payload => exact encodeTextFrame_eq payload
      | pong payload =>
        refine pongFrame_eq (hshort payload ?_)
        rw [← hpongs]
        exact List.mem_filterMap.2 ⟨_, hm, rfl⟩
    have hsize : ∀ f ∈ ms.map Saying.frame, f.payload.length < 2 ^ 63 := by
      intro f hf
      obtain ⟨m, hm, rfl⟩ := List.mem_map.1 hf
      have hfits : m.queued.length ≤ kDefaultMaxQueueBytes := hsaid.fits m hm
      rw [hwire m hm, WebSocket.Frame.length_wire] at hfits
      have hmax : kDefaultMaxQueueBytes < 2 ^ 63 := by decide
      omega
    refine ⟨ms, hqueue, ?_, htexts, hpongs⟩
    rw [hqueue, List.map_congr_left hwire, ← List.flatMap_def, ← WebSocket.codec.scan_flatMap hsize,
      List.flatMap_map]

/-- A broadcast in the middle of a ping. -/
def pingEvents : List Event :=
  [.read [0x89, 0x82], .broadcast [104, 105], .read [1, 2, 3, 4], .read [4, 4], .written]

def pingFrame : ClientFrame := ⟨0x89, .seven, [1, 2, 3, 4], [5, 6], rfl, by decide⟩

theorem queued_parses_iff_pingEvents : ∃ s, established.run pingEvents = some s ∧
    ∃ ms : List Saying, s.queue = ms.map Saying.queued ∧
      WebSocket.framing.scan s.queue.flatten = (ms.map Saying.frame, .rest []) ∧
      ms.filterMap Saying.text? = [[104, 105]] ∧ ms.filterMap Saying.pong? = [[5, 6]] :=
  ⟨_, rfl, (@queued_parses_iff pingEvents [pingFrame] _ rfl rfl (by decide)).2 (by decide)⟩

/-- A ping of 126 bytes: the client takes the length of the pong for the mark of a longer one. -/
theorem long_ping_not_read :
    (established.run [.read [0x89, 0xFE], .read [0, 126], .read [0, 0, 0, 0],
      .read (List.replicate 126 0)]).map (fun s => (s.closed, s.queue.flatten)) =
        some (false, pongFrame (List.replicate 126 0)) ∧
    WebSocket.framing.scan (pongFrame (List.replicate 126 0)) = ([], .bad .notMinimal) :=
  ⟨by decide +kernel, Framing.scan_bad (by decide +kernel)⟩

end WsSession

end Velox
