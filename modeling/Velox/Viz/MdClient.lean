import Velox.Marketdata.FeedCodec

/-!
# The visualizer's feed client

Following `viz/md_client.hpp`: the socket is read into a buffer of 4096 bytes, and what was read is
given to the decoder in one piece. The decoder has room for 256 bytes. The client of the gateway
reads at most 128 bytes at a time; this one does not. A read that does not fit behind the frame that
is still incomplete drops the connection, however healthy the feed is (`reads_all_iff`).
-/

namespace Velox

namespace Feed.Message

def instrumentId : Message → UInt32
  | .l2Delta m => m.instrumentId
  | .l3Order m => m.instrumentId
  | .l3Fill m => m.instrumentId
  | .tradeTick m => m.instrumentId
  | .snapshotStart m => m.instrumentId
  | .snapshotEnd m => m.instrumentId

def feedSeq : Message → UInt64
  | .l2Delta m => m.feedSeq
  | .l3Order m => m.feedSeq
  | .l3Fill m => m.feedSeq
  | .tradeTick m => m.feedSeq
  | .snapshotStart m => m.feedSeq
  | .snapshotEnd m => m.feedSeq

end Feed.Message

/-- The client of one connection. -/
structure MdClient where
  instrumentFilter : UInt32
  decoder : FeedDecoder
  connected : Bool
  lastSeq : UInt64
  /-- The messages that were dispatched, and those of them that pass the filter. -/
  dispatched : List Feed.Message
  shown : List Feed.Message

namespace MdClient

/-- What one read of the socket can bring. -/
def kReadBuf : Nat := 4096

/-- A connection that has just been made. -/
def connect (instrumentFilter : UInt32) (lastSeq : UInt64) : MdClient :=
  ⟨instrumentFilter, .create, true, lastSeq, [], []⟩

def fail (c : MdClient) : MdClient := { c with connected := false }

def dispatch (c : MdClient) (m : Feed.Message) : MdClient :=
  let c := { c with dispatched := c.dispatched ++ [m] }
  if c.instrumentFilter ≠ 0 ∧ m.instrumentId ≠ c.instrumentFilter then c
  else { c with lastSeq := m.feedSeq, shown := c.shown ++ [m] }

/-- The loop over the messages of one read; the fuel bounds their number. -/
def drain : Nat → MdClient → Option MdClient
  | 0, _ => none
  | fuel + 1, c =>
    match c.decoder.next with
    | (.incomplete, d) => some { c with decoder := d }
    | (.invalid, d) => some { c with decoder := d }.fail
    | (.ok m, d) => drain fuel ({ c with decoder := d }.dispatch m)

/-- One read of the socket. -/
def onRead (c : MdClient) (data : List UInt8) : Option MdClient :=
  match c.decoder.feed data with
  | none => some c.fail
  | some d => drain (d.buf.length + 1) { c with decoder := d }

/-- The reads of a connection. After a failure the socket is closed. -/
def reads (c : MdClient) : List (List UInt8) → Option MdClient
  | [] => some c
  | data :: later => if c.connected then (c.onRead data).bind fun c => c.reads later else some c

/-! ## What a connection sees -/

@[simp] theorem dispatch_dispatched (c : MdClient) (m : Feed.Message) :
    (c.dispatch m).dispatched = c.dispatched ++ [m] := by
  rw [dispatch]
  split <;> rfl

@[simp] theorem dispatch_decoder (c : MdClient) (m : Feed.Message) :
    (c.dispatch m).decoder = c.decoder := by
  rw [dispatch]
  split <;> rfl

@[simp] theorem dispatch_connected (c : MdClient) (m : Feed.Message) :
    (c.dispatch m).connected = c.connected := by
  rw [dispatch]
  split <;> rfl

/-- The loop dispatches the complete frames of the buffer. -/
theorem drain_eq {fuel : Nat} {c : MdClient} {bs : List UInt8} (hfuel : bs.length < fuel)
    (hc : c.decoder = ⟨bs, false⟩) : ∃ c', drain fuel c = some c' ∧
      c'.dispatched = c.dispatched ++ (Feed.framing.scan bs).1 ∧
      ((∃ r, (Feed.framing.scan bs).2 = .rest r ∧ c'.decoder = ⟨r, false⟩ ∧
          c'.connected = c.connected) ∨
        (Feed.framing.scan bs).2 = .bad () ∧ c'.connected = false) := by
  induction fuel generalizing c bs with
  | zero => omega
  | succ fuel ih =>
    rw [drain, hc, FeedDecoder.next, if_neg Bool.false_ne_true]
    cases hnext : Feed.framing.next bs with
    | more =>
      rw [Framing.scan_more hnext]
      exact ⟨_, rfl, (List.append_nil _).symm, Or.inl ⟨bs, rfl, rfl, rfl⟩⟩
    | bad e =>
      rw [Framing.scan_bad hnext]
      exact ⟨_, rfl, (List.append_nil _).symm, Or.inr ⟨rfl, rfl⟩⟩
    | ok m size =>
      have hpos := Feed.framing.size_pos hnext
      have hle := Feed.framing.size_le hnext
      have hshort : (bs.drop size).length < fuel := by
        rw [List.length_drop]
        omega
      obtain ⟨c', hdrain, hdispatched, hend⟩ :=
        @ih ({ c with decoder := ⟨bs.drop size, false⟩ }.dispatch m) _ hshort (by simp)
      rw [Framing.scan_ok hnext]
      refine ⟨c', hdrain, ?_, by simpa using hend⟩
      rw [hdispatched, dispatch_dispatched, List.append_assoc]
      rfl

/-- The client sees what a reader with the decoder's buffer sees. -/
theorem reads_eq {c : MdClient} {bs : List UInt8} (hc : c.decoder = ⟨bs, false⟩)
    (hconnected : c.connected = true) (cs : List (List UInt8)) : ∃ c', c.reads cs = some c' ∧
      c'.dispatched = c.dispatched ++ (Feed.framing.receive FeedDecoder.kCapacity bs cs).1 ∧
      (c'.connected = true ↔
        ∃ r, (Feed.framing.receive FeedDecoder.kCapacity bs cs).2 = .rest r) := by
  induction cs generalizing c bs with
  | nil => exact ⟨c, rfl, (List.append_nil _).symm, fun _ => ⟨bs, rfl⟩, fun _ => hconnected⟩
  | cons data cs ih =>
    rw [reads, if_pos hconnected, onRead, hc, FeedDecoder.feed, Framing.receive]
    by_cases hfull : FeedDecoder.kCapacity < bs.length + data.length
    · rw [if_pos (Or.inr hfull), if_pos hfull, Option.bind_some]
      refine ⟨c.fail, ?_, (List.append_nil _).symm, by simp [fail]⟩
      cases cs <;> simp [reads, fail]
    · rw [if_neg (not_or.2 ⟨Bool.false_ne_true, hfull⟩), if_neg hfull]
      obtain ⟨c₁, hdrain, hdispatched, hend⟩ := @drain_eq ((bs ++ data).length + 1)
        { c with decoder := ⟨bs ++ data, false⟩ } _ (Nat.lt_succ_self _) rfl
      simp only [hdrain, Option.bind_some]
      cases hscan : Feed.framing.scan (bs ++ data) with
      | mk ms ending =>
      rw [hscan] at hdispatched hend
      rcases hend with ⟨r, rfl, hdecoder, hstill⟩ | ⟨rfl, hclosed⟩
      · obtain ⟨c', hreads, hall, hiff⟩ := ih hdecoder (hstill.trans hconnected)
        refine ⟨c', hreads, ?_, hiff⟩
        rw [hall, hdispatched, List.append_assoc]
      · refine ⟨c₁, ?_, hdispatched, by simp [hclosed]⟩
        cases cs <;> simp [reads, hclosed]

/-- **A feed is read to its end if and only if every read fits** into the decoder's buffer, behind
what the reads before it have left there of a frame that is not complete. -/
theorem reads_all_iff (instrumentFilter : UInt32) (lastSeq : UInt64) (ms : List Feed.Message)
    (cs : List (List UInt8)) (hsent : cs.flatten = ms.flatMap Feed.Message.bytes) :
    ∃ c, (connect instrumentFilter lastSeq).reads cs = some c ∧
      ((c.connected = true ∧ c.dispatched = ms) ↔ ∀ pre data post, cs = pre ++ data :: post →
        Framing.unread Feed.Message.bytes ms pre.flatten.length + data.length ≤
          FeedDecoder.kCapacity) := by
  have hok : ∀ m ∈ ms, True := fun _ _ => trivial
  obtain ⟨c, hreads, hdispatched, hconnected⟩ :=
    @reads_eq (connect instrumentFilter lastSeq) [] rfl rfl cs
  have hiff : Feed.framing.receive FeedDecoder.kCapacity [] cs = (ms, .rest []) ↔ _ :=
    Feed.codec.receive_iff hok Feed.codec.nil hsent
  simp only [List.length_nil, Nat.zero_add] at hiff
  refine ⟨c, hreads, Iff.trans ?_ hiff⟩
  rw [hconnected, hdispatched]
  constructor
  · rintro ⟨⟨r, hr⟩, hms⟩
    have hpair : Feed.framing.receive FeedDecoder.kCapacity [] cs = (ms, .rest r) := Prod.ext hms hr
    have hall := Feed.codec.flatMap_receive hpair
    rw [List.nil_append, hsent, List.append_right_eq_self] at hall
    rw [hpair, hall]
  · intro hreceive
    rw [hreceive]
    exact ⟨⟨[], rfl⟩, rfl⟩

/-- The burst for a book with `n` orders at rest. -/
def burst (n : Nat) : List Feed.Message :=
  .snapshotStart ⟨1, 1, UInt64.ofNat n⟩ ::
    ((List.range n).map fun i =>
      .l3Order ⟨1, UInt64.ofNat (i + 2), 0, Int64.ofNat (i + 1), 0, 1000000, 5, 5, 1⟩) ++
    [.snapshotEnd ⟨1, UInt64.ofNat (n + 2), 0⟩]

/-- The burst for three orders fits into one read. -/
theorem reads_all_iff_burst : ∃ c,
    (connect 0 0).reads [(burst 3).flatMap Feed.Message.bytes] = some c ∧ c.connected = true ∧
      c.dispatched = burst 3 := by
  obtain ⟨c, hreads, hiff⟩ := reads_all_iff 0 0 (burst 3) [(burst 3).flatMap Feed.Message.bytes]
    (by rw [List.flatten_cons, List.flatten_nil, List.append_nil])
  refine ⟨c, hreads, hiff.2 ?_⟩
  intro pre data post hcs
  obtain ⟨rfl, rfl, rfl⟩ : pre = [] ∧ data = (burst 3).flatMap Feed.Message.bytes ∧ post = [] := by
    cases pre with
    | nil => simp_all
    | cons c pre => simp at hcs
  decide +kernel

/-- The connection is dropped at the burst for four orders, if one read brings it. -/
theorem burst_dropped : ((burst 4).flatMap Feed.Message.bytes).length ≤ kReadBuf ∧
    ((connect 0 0).reads [(burst 4).flatMap Feed.Message.bytes]).map
      (fun c => (c.connected, c.dispatched)) = some (false, []) := by
  decide +kernel

end MdClient

end Velox
