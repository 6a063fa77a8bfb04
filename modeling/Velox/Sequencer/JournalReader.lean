import Velox.Lib.Digits
import Velox.Lib.Storage
import Velox.Sequencer.JournalFormat

/-!
# The journal reader

Following `sequencer/journal_reader.hpp`. The segments of a directory are read in the order of their
names. A file without a valid header is passed over. A segment that ends with a whole record is
closed and the next one is opened; bytes at the end of a segment that are not a record stop the
reader (`truncatedTail`), and so does a record with the wrong number (`corrupt`).

The reader knows the list of segments and the size of the open one as they were when it looked, and
looks again in `rescan`, `refreshFileSize` and `seekTo`. Segments are never removed or renamed, so
here a descriptor is the name of the file.
-/

namespace Velox

open Bytes Storage

abbrev FileName := List Char

/-- `path.extension() == ".jnl"`. -/
def isJnl (n : FileName) : Bool := 4 < n.length && ['.', 'j', 'n', 'l'].isSuffixOf n

inductive ReadResult where
  | ok (e : JournalEntry) (offset : Nat)
  | endOfJournal (offset : Nat)
  | truncatedTail (offset : Nat)
  | corrupt (e : JournalEntry) (offset : Nat)
  deriving DecidableEq

structure JournalReader where
  segments : List FileName
  nextSegmentIdx : Nat
  fd : Option FileName
  currentPath : FileName
  fileSize : Nat
  offset : Nat
  currentFirstSeq : Int
  currentCreatedCounter : UInt64
  lastGoodSeq : Int
  deriving DecidableEq

namespace JournalReader

def create (d : Directory FileName) : JournalReader :=
  ⟨(d.list isJnl).map Prod.fst, 0, none, [], 0, 0, 0, 0, 0⟩

def hasOpenSegment (r : JournalReader) : Bool := r.fd.isSome

def closeCurrent (r : JournalReader) : JournalReader := { r with fd := none }

/-- What `pread` and `fstat` see of the open segment. -/
def contents (d : Directory FileName) (r : JournalReader) : List UInt8 :=
  ((r.fd.bind d.find).map File.bytes).getD []

def openSegmentAtIndex (d : Directory FileName) (r : JournalReader) (idx : Nat) :
    Bool × JournalReader :=
  let path := (r.segments[idx]?).getD []
  match d.find path with
  | none => (false, { r with currentPath := path, fd := none })
  | some f =>
    let r := { r with currentPath := path, fd := some path, fileSize := f.bytes.length }
    if f.bytes.length < SegmentHeader.size then (false, r.closeCurrent)
    else
      match SegmentHeader.decode (f.bytes.take SegmentHeader.size) with
      | none => (false, r.closeCurrent)
      | some h =>
        (true, { r with
          currentFirstSeq := seqOfU64 h.firstSeq
          currentCreatedCounter := h.createdCounter
          offset := SegmentHeader.size })

/-- The loop of `openNextSegment`, with the number of segments that are left. -/
def openNextLoop (d : Directory FileName) : Nat → JournalReader → Bool × JournalReader
  | 0, r => (false, r)
  | n + 1, r =>
    match openSegmentAtIndex d { r with nextSegmentIdx := r.nextSegmentIdx + 1 }
        r.nextSegmentIdx with
    | (true, r) => (true, r)
    | (false, r) => openNextLoop d n r

def openNextSegment (d : Directory FileName) (r : JournalReader) : Bool × JournalReader :=
  openNextLoop d (r.segments.length - r.nextSegmentIdx) r

/-- The reader does not advance past the last good record. -/
def torn (r : JournalReader) (offset : Nat) : ReadResult × JournalReader :=
  (.truncatedTail offset, { r with offset := offset })

def readOneRecord (d : Directory FileName) (r : JournalReader) : ReadResult × JournalReader :=
  let recordStart := r.offset
  if recordStart = r.fileSize then (.endOfJournal recordStart, r)
  else if r.fileSize < recordStart + kRecordFixedSize then r.torn recordStart
  else
    let fixed := slice recordStart kRecordFixedSize (r.contents d)
    if fixed.length ≠ kRecordFixedSize then r.torn recordStart
    else if getU32 0 fixed ≠ .ofNat Command.size then r.torn recordStart
    else if r.fileSize < recordStart + kRecordSize then r.torn recordStart
    else
      let buf := slice recordStart kRecordSize (r.contents d)
      if buf.length ≠ kRecordSize then r.torn recordStart
      else if crc32 (buf.take (kRecordFixedSize + Command.size)) ≠
          getU32 (kRecordFixedSize + Command.size) buf then r.torn recordStart
      else
        let e := JournalEntry.decode buf
        if e.seq ≠ r.lastGoodSeq + 1 then (.corrupt e recordStart, r)
        else (.ok e recordStart, { r with offset := recordStart + kRecordSize, lastGoodSeq := e.seq })

/-- One turn of the loop of `next`: a result, or a segment that was read to its end. -/
def turn (d : Directory FileName) (r : JournalReader) : (ReadResult × JournalReader) ⊕ JournalReader :=
  match if r.hasOpenSegment then (true, r) else r.openNextSegment d with
  | (false, r) => .inl (.endOfJournal r.offset, r)
  | (true, r) =>
    match r.readOneRecord d with
    | (.endOfJournal _, r) => .inr r.closeCurrent
    | res => .inl res

/-- The loop of `next`. Every turn but the first opens a segment, so two turns more than there are
segments left are enough (`next_of_inr`). -/
def nextLoop (d : Directory FileName) : Nat → JournalReader → ReadResult × JournalReader
  | 0, r => (.endOfJournal r.offset, r)
  | n + 1, r =>
    match r.turn d with
    | .inl res => res
    | .inr r => nextLoop d n r

def next (d : Directory FileName) (r : JournalReader) : ReadResult × JournalReader :=
  nextLoop d (r.segments.length - r.nextSegmentIdx + 2) r

/-! ## What a live tailer adds -/

/-- Segments whose header is complete, behind the last known one. -/
def rescan (d : Directory FileName) (r : JournalReader) : JournalReader :=
  let found := ((d.list isJnl).filter fun e => SegmentHeader.size ≤ e.2.bytes.length).map Prod.fst
  { r with segments := r.segments ++ found.filter fun p => r.segments.getLast?.all (· < p) }

def refreshFileSize (d : Directory FileName) (r : JournalReader) : JournalReader :=
  if r.hasOpenSegment then { r with fileSize := (r.contents d).length } else r

/-- The loop of `seekTo`, with the number of segments that are left. -/
def seekLoop (d : Directory FileName) (createdCounter : UInt64) (offset : Nat) :
    Nat → JournalReader → Bool × JournalReader
  | 0, r => (false, { r with nextSegmentIdx := r.segments.length })
  | n + 1, r =>
    let idx := r.segments.length - (n + 1)
    match r.openSegmentAtIndex d idx with
    | (false, r) => seekLoop d createdCounter offset n r
    | (true, r) =>
      if r.currentCreatedCounter = createdCounter then
        (true, { r with nextSegmentIdx := idx + 1, offset := offset })
      else seekLoop d createdCounter offset n r.closeCurrent

def seekTo (d : Directory FileName) (createdCounter : UInt64) (offset : Nat) (lastGoodSeq : Int)
    (r : JournalReader) : Bool × JournalReader :=
  seekLoop d createdCounter offset r.segments.length { r with fd := none, lastGoodSeq := lastGoodSeq }

variable {d : Directory FileName} {r r₁ : JournalReader}

/-! ## One record -/

/-- What the reader makes of what it finds at its offset. -/
def verdict (r : JournalReader) : Parsed → ReadResult × JournalReader
  | .eof => (.endOfJournal r.offset, r)
  | .torn => (.truncatedTail r.offset, r)
  | .record e =>
    if e.seq ≠ r.lastGoodSeq + 1 then (.corrupt e r.offset, r)
    else (.ok e r.offset, { r with offset := r.offset + kRecordSize, lastGoodSeq := e.seq })

/-- With the size of the file up to date, the reader parses the rest of it. -/
theorem readOneRecord_eq (hsize : r.fileSize = (r.contents d).length) (hle : r.offset ≤ r.fileSize) :
    r.readOneRecord d = r.verdict (parse ((r.contents d).drop r.offset)) := by
  obtain ⟨bs, hbs⟩ : ∃ bs, bs = (r.contents d).drop r.offset := ⟨_, rfl⟩
  have hlen : bs.length = r.fileSize - r.offset := by
    rw [hbs, List.length_drop, hsize]
  have hslice : ∀ w, slice r.offset w (r.contents d) = bs.take w := fun w => by rw [slice, hbs]
  have hfixed : kRecordFixedSize = 16 := rfl
  have hrecord : kRecordSize = 68 := rfl
  rw [← hbs, parse]
  simp only [readOneRecord, hslice, List.length_take, torn]
  by_cases heof : r.offset = r.fileSize
  · have hnone : bs.length = 0 := by omega
    rw [if_pos heof, if_pos hnone]
    rfl
  have hsome : ¬ bs.length = 0 := by omega
  rw [if_neg heof, if_neg hsome]
  by_cases hshort : bs.length < kRecordFixedSize
  · have hshort' : r.fileSize < r.offset + kRecordFixedSize := by omega
    rw [if_pos hshort', if_pos hshort]
    rfl
  have hfixed' : ¬ r.fileSize < r.offset + kRecordFixedSize := by omega
  have hread : ¬ min kRecordFixedSize bs.length ≠ kRecordFixedSize := by omega
  rw [if_neg hfixed', if_neg hread, if_neg hshort, getU32_take (by decide)]
  split
  · rfl
  by_cases hpart : bs.length < kRecordSize
  · have hpart' : r.fileSize < r.offset + kRecordSize := by omega
    rw [if_pos hpart', if_pos hpart]
    rfl
  have hwhole : ¬ r.fileSize < r.offset + kRecordSize := by omega
  have hread : ¬ min kRecordSize bs.length ≠ kRecordSize := by omega
  have htake : (bs.take kRecordSize).take (kRecordFixedSize + Command.size) =
      bs.take (kRecordFixedSize + Command.size) := by
    rw [List.take_take]
    rfl
  rw [if_neg hwhole, if_neg hread, if_neg hpart, htake, getU32_take (by decide),
    JournalEntry.decode_take]
  split <;> rfl

/-! ## The loops -/

/-- Opening a segment changes neither the list nor the place in it. -/
theorem openSegmentAtIndex_keeps (d : Directory FileName) (r : JournalReader) (idx : Nat) :
    (r.openSegmentAtIndex d idx).2.segments = r.segments ∧
      (r.openSegmentAtIndex d idx).2.nextSegmentIdx = r.nextSegmentIdx ∧
      (r.openSegmentAtIndex d idx).2.hasOpenSegment = (r.openSegmentAtIndex d idx).1 := by
  simp only [openSegmentAtIndex]
  split
  · exact ⟨rfl, rfl, rfl⟩
  · split
    · exact ⟨rfl, rfl, rfl⟩
    · split <;> exact ⟨rfl, rfl, rfl⟩

theorem openNextLoop_keeps (d : Directory FileName) (n : Nat) (r : JournalReader)
    (hclosed : r.hasOpenSegment = false) :
    (openNextLoop d n r).2.segments = r.segments ∧
      (openNextLoop d n r).2.hasOpenSegment = (openNextLoop d n r).1 ∧
      ((openNextLoop d n r).1 = true → r.nextSegmentIdx < (openNextLoop d n r).2.nextSegmentIdx) := by
  induction n generalizing r with
  | zero => exact ⟨rfl, hclosed, nofun⟩
  | succ n ih =>
    obtain ⟨hsegs, hidx, hopen⟩ := openSegmentAtIndex_keeps d
      { r with nextSegmentIdx := r.nextSegmentIdx + 1 } r.nextSegmentIdx
    rw [openNextLoop]
    split
    · next r₁ heq =>
      rw [heq] at hsegs hidx hopen
      exact ⟨hsegs, hopen, fun _ => by rw [hidx]; exact Nat.lt_succ_self _⟩
    · next r₁ heq =>
      rw [heq] at hsegs hidx hopen
      obtain ⟨ihsegs, ihopen, ihidx⟩ := ih r₁ hopen
      refine ⟨ihsegs.trans hsegs, ihopen, fun htrue => ?_⟩
      have hlt := ihidx htrue
      rw [hidx] at hlt
      exact Nat.lt_of_succ_lt hlt

theorem readOneRecord_keeps (d : Directory FileName) (r : JournalReader) :
    (r.readOneRecord d).2.segments = r.segments ∧
      (r.readOneRecord d).2.nextSegmentIdx = r.nextSegmentIdx := by
  simp only [readOneRecord, torn]
  split_ifs <;> exact ⟨rfl, rfl⟩

/-- How many turns there can be. -/
def turns (r : JournalReader) : Nat :=
  r.segments.length - r.nextSegmentIdx + if r.hasOpenSegment then 2 else 1

/-- A turn without a result has used up one of them. -/
theorem turns_lt (h : r.turn d = .inr r₁) : r₁.turns < r.turns := by
  rw [turn] at h
  split at h
  · cases h
  · next r₂ hopened =>
    split at h
    · next offset r₃ hread =>
      obtain rfl := Sum.inr.inj h
      obtain ⟨hsegs, hidx⟩ := readOneRecord_keeps d r₂
      rw [hread] at hsegs hidx
      have hturns : r₃.closeCurrent.turns = r₂.segments.length - r₂.nextSegmentIdx + 1 := by
        rw [← hsegs, ← hidx]
        rfl
      rw [hturns, turns]
      cases hopen : r.hasOpenSegment with
      | true =>
        rw [hopen, if_pos rfl] at hopened
        obtain ⟨-, rfl⟩ := Prod.mk.inj hopened
        exact Nat.lt_succ_self _
      | false =>
        obtain ⟨hsegs₂, -, hlt⟩ := openNextLoop_keeps d (r.segments.length - r.nextSegmentIdx) r hopen
        have hopened' : openNextLoop d (r.segments.length - r.nextSegmentIdx) r = (true, r₂) := by
          simpa [hopen, openNextSegment] using hopened
        rw [hopened'] at hsegs₂ hlt
        have hlt : r.nextSegmentIdx < r₂.nextSegmentIdx := hlt rfl
        have hpos : 0 < r.segments.length - r.nextSegmentIdx := by
          by_contra hzero
          rw [Nat.eq_zero_of_not_pos hzero] at hopened'
          cases hopened'
        have hlen : r₂.segments.length = r.segments.length := congrArg List.length hsegs₂
        simp only [Bool.false_eq_true, if_false]
        omega
    · cases h

theorem nextLoop_eq (d : Directory FileName) (n m : Nat) (r : JournalReader) (hn : r.turns ≤ n)
    (hm : r.turns ≤ m) : nextLoop d n r = nextLoop d m r := by
  have hpos : 0 < r.turns := by
    rw [turns]
    split <;> omega
  induction n generalizing m r with
  | zero => omega
  | succ n ih =>
    obtain ⟨m, rfl⟩ := Nat.exists_eq_succ_of_ne_zero (by omega : m ≠ 0)
    rw [nextLoop, nextLoop]
    split
    · rfl
    · next r₁ h =>
      have hlt := turns_lt h
      refine ih m r₁ (by omega) (by omega) ?_
      rw [turns]
      split <;> omega

theorem next_of_inl {res : ReadResult × JournalReader} (h : r.turn d = .inl res) :
    r.next d = res := by
  rw [next, nextLoop, h]

theorem next_of_inr (h : r.turn d = .inr r₁) : r.next d = r₁.next d := by
  have hlt := turns_lt h
  have hle : r.turns ≤ r.segments.length - r.nextSegmentIdx + 2 := by
    rw [turns]
    split <;> omega
  rw [next, nextLoop, h]
  apply nextLoop_eq
  · omega
  · rw [turns]
    split <;> omega

theorem next_congr (h : r.turn d = r₁.turn d) : r.next d = r₁.next d := by
  cases hturn : r₁.turn d with
  | inl res => rw [next_of_inl (h.trans hturn), next_of_inl hturn]
  | inr r₂ => rw [next_of_inr (h.trans hturn), next_of_inr hturn]

/-- A closed reader goes on with the segment that it opens. -/
theorem next_of_opened (hclosed : r.fd = none) (h : r.openNextSegment d = (true, r₁)) :
    r.next d = r₁.next d := by
  have hopen : r.hasOpenSegment = false := by rw [hasOpenSegment, hclosed]; rfl
  have hopen₁ : r₁.hasOpenSegment = true := by
    have hkeeps := (openNextLoop_keeps d (r.segments.length - r.nextSegmentIdx) r hopen).2.1
    rw [openNextSegment] at h
    rwa [h] at hkeeps
  apply next_congr
  rw [turn, turn, hopen, hopen₁, h]
  rfl

theorem next_of_exhausted (hclosed : r.fd = none) (h : r.openNextSegment d = (false, r₁)) :
    r.next d = (.endOfJournal r₁.offset, r₁) := by
  have hopen : r.hasOpenSegment = false := by rw [hasOpenSegment, hclosed]; rfl
  apply next_of_inl
  rw [turn, hopen, h]
  rfl

section Open

variable {n : FileName} (hopen : r.fd = some n)

include hopen

/-- An open reader ends with its verdict, unless the segment is read to its end. -/
theorem next_of_result {res : ReadResult} (h : r.readOneRecord d = (res, r₁))
    (hres : ∀ offset, res ≠ .endOfJournal offset) : r.next d = (res, r₁) := by
  have hopen : r.hasOpenSegment = true := by rw [hasOpenSegment, hopen]; rfl
  apply next_of_inl
  rw [turn, hopen, if_pos rfl]
  dsimp only
  rw [h]
  split
  · next heq => exact absurd (Prod.mk.inj heq).1 (hres _)
  · rfl

theorem next_of_end {offset : Nat} (h : r.readOneRecord d = (.endOfJournal offset, r₁)) :
    r.next d = r₁.closeCurrent.next d := by
  have hopen : r.hasOpenSegment = true := by rw [hasOpenSegment, hopen]; rfl
  apply next_of_inr
  rw [turn, hopen, if_pos rfl]
  dsimp only
  rw [h]

end Open

end JournalReader

end Velox
