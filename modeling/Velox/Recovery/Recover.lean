import Velox.Recovery.Restore
import Velox.Sequencer.JournalReader

/-!
# Recovery

Following `recovery/recovery_manager.hpp` and `SnapshotReader::loadNewestValid`: the newest snapshot
that is valid is loaded, and then the records of the journal beyond it are applied.

The loop over the journal ends because every record is read from bytes that were not read before
(`left`, `next_left`).
-/

namespace Velox

open Storage

/-! ## The newest valid snapshot -/

/-- `path.extension() == ".snap"`. -/
def isSnap (n : FileName) : Bool := 5 < n.length && ['.', 's', 'n', 'a', 'p'].isSuffixOf n

namespace SnapshotReader

/-- The first of the files that is valid. An exception ends the search. -/
def firstValid : List (List UInt8) → SnapshotLoad
  | [] => .rejected
  | bytes :: rest =>
    match tryLoad bytes with
    | .rejected => firstValid rest
    | res => res

def loadNewestValid (d : Directory FileName) : SnapshotLoad :=
  firstValid ((d.list isSnap).reverse.map fun e => e.2.bytes)

end SnapshotReader

/-! ## How much of the journal is left -/

/-- The size of a file; nothing for one that is not there. -/
def sizeOnDisk (d : Directory FileName) (n : FileName) : Nat :=
  ((d.find n).map fun f => f.bytes.length).getD 0

/-- The size of all segments together. -/
def journalSize (d : Directory FileName) : Nat := ((d.list isJnl).map fun e => e.2.bytes.length).sum

namespace JournalReader

variable {d : Directory FileName} {r r₁ : JournalReader} {e : JournalEntry} {offset : Nat}

/-- The bytes that have not been read. -/
def left (d : Directory FileName) (r : JournalReader) : Nat :=
  ((r.segments.drop r.nextSegmentIdx).map (sizeOnDisk d)).sum +
    if r.hasOpenSegment then r.fileSize - r.offset else 0

theorem left_create (d : Directory FileName) : (create d).left d = journalSize d := by
  have hsizes : ((d.list isJnl).map Prod.fst).map (sizeOnDisk d) =
      (d.list isJnl).map fun e => e.2.bytes.length := by
    rw [List.map_map]
    refine List.map_congr_left fun e he => ?_
    rw [Function.comp_apply, sizeOnDisk, (SortedMap.mem_list.1 he).2]
    rfl
  rw [left, create, journalSize, ← hsizes]
  rfl

/-- A segment that is opened has at most its size to be read. -/
theorem openSegmentAtIndex_left (h : r.openSegmentAtIndex d idx = (true, r₁)) :
    r₁.fileSize - r₁.offset ≤ sizeOnDisk d ((r.segments[idx]?).getD []) := by
  rw [openSegmentAtIndex] at h
  rw [sizeOnDisk]
  split at h
  · cases h
  · next f hf =>
    rw [hf, Option.map_some, Option.getD_some]
    split at h
    · cases h
    · split at h
      · cases h
      · obtain ⟨-, rfl⟩ := Prod.mk.inj h
        exact Nat.sub_le ..

theorem openNextLoop_left (d : Directory FileName) (n : Nat) (r : JournalReader)
    (hclosed : r.hasOpenSegment = false) (hn : n ≤ r.segments.length - r.nextSegmentIdx) :
    (openNextLoop d n r).2.left d ≤ r.left d := by
  induction n generalizing r with
  | zero => exact le_rfl
  | succ n ih =>
    have hidx : r.nextSegmentIdx < r.segments.length := by omega
    have hdrop : r.left d = sizeOnDisk d ((r.segments[r.nextSegmentIdx]?).getD []) +
        ((r.segments.drop (r.nextSegmentIdx + 1)).map (sizeOnDisk d)).sum := by
      rw [left, hclosed, List.drop_eq_getElem_cons hidx, List.map_cons, List.sum_cons,
        List.getElem?_eq_getElem hidx]
      rfl
    obtain ⟨hsegs, hnext, hopen⟩ := openSegmentAtIndex_keeps d
      { r with nextSegmentIdx := r.nextSegmentIdx + 1 } r.nextSegmentIdx
    rw [openNextLoop]
    split
    · next r₁ heq =>
      have hle := openSegmentAtIndex_left heq
      rw [heq] at hsegs hnext hopen
      rw [left, hsegs, hnext, hopen, if_pos rfl, hdrop]
      dsimp only at hle ⊢
      omega
    · next r₁ heq =>
      rw [heq] at hsegs hnext hopen
      dsimp only at hsegs hnext hopen
      refine (ih r₁ hopen (by rw [hsegs, hnext]; omega)).trans ?_
      rw [left, hsegs, hnext, hopen, hdrop]
      exact Nat.le_add_left ..

theorem readOneRecord_cases {res : ReadResult} (h : r.readOneRecord d = (res, r₁)) :
    (∀ offset, res = .endOfJournal offset → r₁ = r) ∧
    (∀ e offset, res = .ok e offset → r.offset + kRecordSize ≤ r.fileSize ∧
      r₁ = { r with offset := r.offset + kRecordSize, lastGoodSeq := e.seq }) := by
  rw [readOneRecord] at h
  dsimp only at h
  split_ifs at h with h₁ h₂ h₃ h₄ hsize
  all_goals cases h
  all_goals refine ⟨fun offset heq => ?_, fun e offset heq => ?_⟩
  all_goals cases heq
  · rfl
  · exact ⟨Nat.le_of_not_lt hsize, rfl⟩

/-- The first half of a turn: a segment is open, or there is none left. -/
theorem opened_left (h : (if r.hasOpenSegment then (true, r) else r.openNextSegment d) = (ok, r₁)) :
    r₁.left d ≤ r.left d ∧ (ok = true → r₁.hasOpenSegment = true) := by
  cases hopen : r.hasOpenSegment with
  | true =>
    rw [hopen, if_pos rfl] at h
    obtain ⟨-, rfl⟩ := Prod.mk.inj h
    exact ⟨le_rfl, fun _ => hopen⟩
  | false =>
    rw [hopen, if_neg Bool.false_ne_true, openNextSegment] at h
    have hle := openNextLoop_left d _ r hopen le_rfl
    have hkeeps := (openNextLoop_keeps d (r.segments.length - r.nextSegmentIdx) r hopen).2.1
    rw [h] at hle hkeeps
    exact ⟨hle, fun hok => hkeeps.trans hok⟩

theorem turn_left : ∀ {res}, r.turn d = res →
    (∀ r₁, res = .inr r₁ → r₁.left d ≤ r.left d) ∧
    (∀ e offset r₁, res = .inl (.ok e offset, r₁) → r₁.left d < r.left d) := by
  rintro res rfl
  rw [turn]
  split
  · exact ⟨fun _ h => (by cases h), fun _ _ _ h => (by cases h)⟩
  · next r₁ hopened =>
    obtain ⟨hle, hopen⟩ := opened_left hopened
    split
    · next hread =>
      obtain rfl := (readOneRecord_cases hread).1 _ rfl
      refine ⟨fun r₂ h => ?_, fun _ _ _ h => (by cases h)⟩
      obtain rfl := Sum.inr.inj h
      exact (Nat.add_le_add_left (Nat.zero_le _) _).trans hle
    · next hread =>
      refine ⟨fun _ h => (by cases h), fun e offset r₂ h => ?_⟩
      obtain ⟨hsize, rfl⟩ := (readOneRecord_cases (Sum.inl.inj h)).2 e offset rfl
      have hrecord : kRecordSize = 68 := rfl
      refine Nat.lt_of_lt_of_le ?_ hle
      have hopen' : ({ r₁ with offset := r₁.offset + kRecordSize, lastGoodSeq := e.seq } :
          JournalReader).hasOpenSegment = true := hopen rfl
      rw [left, left, hopen', hopen rfl, if_pos rfl, if_pos rfl]
      dsimp only
      omega

theorem nextLoop_left (d : Directory FileName) (n : Nat) (r : JournalReader)
    (h : nextLoop d n r = (.ok e offset, r₁)) : r₁.left d < r.left d := by
  induction n generalizing r with
  | zero => cases h
  | succ n ih =>
    rw [nextLoop] at h
    split at h
    · next res hturn =>
      exact (turn_left hturn).2 e offset r₁ (congrArg Sum.inl h)
    · next r₂ hturn => exact (ih r₂ h).trans_le ((turn_left hturn).1 r₂ rfl)

/-- A record that is read uses up some of the journal. -/
theorem next_left (h : r.next d = (.ok e offset, r₁)) : r₁.left d < r.left d :=
  nextLoop_left d _ r h

end JournalReader

/-! ## Recovery -/

inductive RecoveryStatus where
  | ok
  | tornTail
  | corrupt
  deriving DecidableEq, Repr

structure RecoveryResult where
  status : RecoveryStatus
  lastSeq : Int
  hasJournalSegment : Bool
  resumeSegmentPath : FileName
  resumeOffset : Nat
  resumeSegmentCreatedCounter : UInt64
  deriving DecidableEq

namespace RecoveryManager

variable {d : Directory FileName} {r : JournalReader} {b : OrderBook}

/-- The loop of `recover` over the journal: why it ended, the number of the last record applied,
the reader and the book. -/
def replayLoop (d : Directory FileName) (snapshotSeq : Int) : Nat → JournalReader → OrderBook → Int →
    Option (RecoveryStatus × Int × JournalReader × OrderBook)
  | 0, _, _, _ => none
  | n + 1, r, b, lastApplied =>
    match r.next d with
    | (.endOfJournal _, r) => some (.ok, lastApplied, r, b)
    | (.truncatedTail _, r) => some (.tornTail, lastApplied, r, b)
    | (.corrupt _ _, r) => some (.corrupt, lastApplied, r, b)
    | (.ok e _, r) =>
      if e.seq ≤ snapshotSeq then replayLoop d snapshotSeq n r b lastApplied
      else (b.apply e.kind e.command buffers).bind fun b => replayLoop d snapshotSeq n r b e.seq

/-- The second half of `recover`. -/
def replay (d : Directory FileName) (snapshotSeq : Int) (b : OrderBook) :
    Option (RecoveryResult × OrderBook) := do
  let (status, lastApplied, r, b) ←
    replayLoop d snapshotSeq (journalSize d + 1) (.create d) b snapshotSeq
  let result :=
    if r.hasOpenSegment then
      ⟨status, lastApplied, true, r.currentPath, r.offset, r.currentCreatedCounter⟩
    else ⟨status, lastApplied, false, [], 0, 0⟩
  some (result, b)

/-- `recover`, with the directories of the journal and of the snapshots. It does not return when an
order is written outside the level array or the search for a snapshot throws. -/
def recover (journalDir snapshotDir : Directory FileName) (b : OrderBook) :
    Option (RecoveryResult × OrderBook) :=
  match SnapshotReader.loadNewestValid snapshotDir with
  | .lengthError => none
  | .rejected => replay journalDir 0 b
  | .loaded snap => do
    let (restored, b) ← restore b snap
    if restored then replay journalDir (seqOfU64 snap.header.globalSeq) b
    else some (⟨.corrupt, 0, false, [], 0, 0⟩, b)

end RecoveryManager

end Velox
