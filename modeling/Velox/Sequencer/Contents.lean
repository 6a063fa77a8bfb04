import Velox.Sequencer.JournalLayout

/-!
# What a journal directory contains

While nobody writes, what a reader delivers is a function of the files: `readFiles` goes over them
in the order of their names, passes over those without a valid header and stops at the first bytes
that are not the next record. The reader of `sequencer/journal_reader.hpp`, with its open segment,
its offset and its index into a list of paths, computes just that (`next_spec`), whatever the files
hold.
-/

namespace Velox

open Bytes Storage

/-- Why the reader stops: at the end of the last file, at bytes that are not a record, or at a
record that does not have the next number. -/
inductive Ending where
  | clean
  | torn
  | gap
  deriving DecidableEq

/-- A place in a segment. -/
structure Position where
  path : FileName
  offset : Nat
  createdCounter : UInt64
  deriving DecidableEq

/-- What a reader delivers, why it stops, and where if a segment is still open then. -/
structure Reading where
  records : List JournalEntry
  ending : Ending
  resume : Option Position
  deriving DecidableEq

/-! ## The contents of files -/

/-- The records in the bytes of a segment. -/
def readRecords : Nat → Int → List UInt8 → List JournalEntry × Ending
  | 0, _, _ => ([], .clean)
  | n + 1, last, bs =>
    match parse bs with
    | .eof => ([], .clean)
    | .torn => ([], .torn)
    | .record e =>
      if e.seq = last + 1 then
        let rest := readRecords n e.seq (bs.drop kRecordSize)
        (e :: rest.1, rest.2)
      else ([], .gap)

/-- A segment from this place on, and what comes later if it ends with a whole record. -/
def readOn (p : Position) (last : Int) (bs : List UInt8) (later : Int → Reading) : Reading :=
  match readRecords bs.length last bs with
  | (es, .clean) =>
    let rest := later (last + es.length)
    { rest with records := es ++ rest.records }
  | (es, ending) => ⟨es, ending, some { p with offset := p.offset + kRecordSize * es.length }⟩

/-- The header of a file, if it is complete and valid. -/
def headerOf (bs : List UInt8) : Option SegmentHeader :=
  if bs.length < SegmentHeader.size then none
  else SegmentHeader.decode (bs.take SegmentHeader.size)

def readFiles : List (FileName × List UInt8) → Int → Reading
  | [], _ => ⟨[], .clean, none⟩
  | (n, bs) :: fs, last =>
    match headerOf bs with
    | none => readFiles fs last
    | some h =>
      readOn ⟨n, SegmentHeader.size, h.createdCounter⟩ last (bs.drop SegmentHeader.size)
        (readFiles fs)

/-- What a reader of this directory delivers from the beginning. -/
def contents (d : Directory FileName) : Reading := readFiles (journalFiles d) 0

/-! ## Records -/

theorem parse_record_length {bs : List UInt8} {e : JournalEntry} (h : parse bs = .record e) :
    kRecordSize ≤ bs.length := by
  unfold parse at h
  split_ifs at h with h₁ h₂ h₃ h₄
  exact Nat.le_of_not_lt h₄

/-- More turns than there are bytes make no difference. -/
theorem readRecords_eq {n m : Nat} (last : Int) {bs : List UInt8} (hn : bs.length ≤ n)
    (hm : bs.length ≤ m) : readRecords n last bs = readRecords m last bs := by
  have hnil : ∀ k last, readRecords k last [] = ([], .clean) := by
    intro k last
    cases k <;> simp only [readRecords, parse_nil]
  induction n generalizing m last bs with
  | zero => rw [List.eq_nil_of_length_eq_zero (Nat.le_zero.1 hn), hnil, hnil]
  | succ n ih =>
    cases m with
    | zero => rw [List.eq_nil_of_length_eq_zero (Nat.le_zero.1 hm), hnil, hnil]
    | succ m =>
      rw [readRecords, readRecords]
      cases hparse : parse bs with
      | eof | torn => rfl
      | record e =>
        have hlen := parse_record_length hparse
        have hdrop : (bs.drop kRecordSize).length + 1 ≤ bs.length := by
          rw [List.length_drop]
          exact Nat.sub_lt (lt_of_lt_of_le (Nat.succ_pos _) hlen) (Nat.succ_pos _)
        simp only [ih e.seq (show (bs.drop kRecordSize).length ≤ n by omega)
          (show (bs.drop kRecordSize).length ≤ m by omega)]

theorem readRecords_unfold (last : Int) (bs : List UInt8) : readRecords bs.length last bs =
    match parse bs with
    | .eof => ([], .clean)
    | .torn => ([], .torn)
    | .record e =>
      if e.seq = last + 1 then
        let rest := readRecords (bs.drop kRecordSize).length e.seq (bs.drop kRecordSize)
        (e :: rest.1, rest.2)
      else ([], .gap) := by
  rw [readRecords_eq last le_rfl (Nat.le_succ bs.length), readRecords]
  cases parse bs with
  | eof | torn => rfl
  | record e =>
    have hle : (bs.drop kRecordSize).length ≤ bs.length := by
      rw [List.length_drop]
      omega
    simp only [readRecords_eq e.seq hle le_rfl]

section ReadOn

variable {p : Position} {last : Int} {bs : List UInt8} {later : Int → Reading}

theorem readOn_eof (h : parse bs = .eof) : readOn p last bs later = later last := by
  rw [readOn, readRecords_unfold, h]
  simp

theorem readOn_torn (h : parse bs = .torn) : readOn p last bs later = ⟨[], .torn, some p⟩ := by
  rw [readOn, readRecords_unfold, h]
  simp

theorem readOn_gap {e : JournalEntry} (h : parse bs = .record e) (hseq : e.seq ≠ last + 1) :
    readOn p last bs later = ⟨[], .gap, some p⟩ := by
  rw [readOn, readRecords_unfold, h]
  simp [hseq]

theorem readOn_record {e : JournalEntry} (h : parse bs = .record e) (hseq : e.seq = last + 1) :
    readOn p last bs later =
      let rest := readOn { p with offset := p.offset + kRecordSize } e.seq (bs.drop kRecordSize) later
      { rest with records := e :: rest.records } := by
  rw [readOn, readRecords_unfold, h]
  simp only [hseq, if_true]
  rw [readOn]
  generalize readRecords (bs.drop kRecordSize).length (last + 1) (bs.drop kRecordSize) = x
  obtain ⟨es, ending⟩ := x
  cases ending with
  | clean =>
    have hlast : last + ((e :: es).length : Int) = last + 1 + es.length := by
      rw [List.length_cons]
      push_cast
      ring
    simp only [hlast, List.cons_append]
  | torn | gap =>
    have hoffset : p.offset + kRecordSize * (e :: es).length =
        p.offset + kRecordSize + kRecordSize * es.length := by
      rw [List.length_cons, Nat.mul_succ]
      omega
    simp only [hoffset]

end ReadOn

/-! ## The records of any files are numbered -/

theorem numbered_readRecords (n : Nat) (last : Int) (bs : List UInt8) :
    Table.Numbered JournalEntry.seq (last + 1) (readRecords n last bs).1 := by
  induction n generalizing last bs with
  | zero => exact .nil
  | succ n ih =>
    rw [readRecords]
    split
    · exact .nil
    · exact .nil
    · split_ifs with hseq
      · refine Table.numbered_cons.2 ⟨hseq, ?_⟩
        rw [← hseq]
        exact ih _ _
      · exact .nil

theorem numbered_readFiles (fs : List (FileName × List UInt8)) (last : Int) :
    Table.Numbered JournalEntry.seq (last + 1) (readFiles fs last).records := by
  induction fs generalizing last with
  | nil => exact .nil
  | cons f fs ih =>
    obtain ⟨n, bs⟩ := f
    rw [readFiles]
    split
    · exact ih last
    · rw [readOn]
      have hes := numbered_readRecords (bs.drop SegmentHeader.size).length last
        (bs.drop SegmentHeader.size)
      split
      · next es heq =>
        rw [heq] at hes
        refine hes.append ?_
        rw [add_right_comm]
        exact ih _
      · next es ending _ heq =>
        rw [heq] at hes
        exact hes

theorem numbered_contents (d : Directory FileName) :
    Table.Numbered JournalEntry.seq 1 (contents d).records :=
  numbered_readFiles (journalFiles d) 0

/-! ## The reader -/

namespace JournalReader

variable {d : Directory FileName} {r r₁ : JournalReader}

/-- What is in a file, if it is still there. -/
def bytesOf (d : Directory FileName) (n : FileName) : List UInt8 := ((d.find n).map File.bytes).getD []

/-- The files that have not been opened. -/
def unread (d : Directory FileName) (r : JournalReader) : List (FileName × List UInt8) :=
  (r.segments.drop r.nextSegmentIdx).map fun n => (n, bytesOf d n)

/-- What the reader has still to deliver. -/
def rest (d : Directory FileName) (r : JournalReader) : Reading :=
  match r.fd with
  | none => readFiles (r.unread d) r.lastGoodSeq
  | some n =>
    readOn ⟨n, r.offset, r.currentCreatedCounter⟩ r.lastGoodSeq ((r.contents d).drop r.offset)
      (readFiles (r.unread d))

/-- Where the reader is, if a segment is open. -/
def position (r : JournalReader) : Option Position :=
  r.fd.map fun _ => ⟨r.currentPath, r.offset, r.currentCreatedCounter⟩

/-- What the reader knows of its open segment is up to date. -/
def Steady (d : Directory FileName) (r : JournalReader) : Prop :=
  ∀ n, r.fd = some n →
    r.currentPath = n ∧ r.fileSize = (r.contents d).length ∧ r.offset ≤ r.fileSize

/-- The results of `next` that fit what is left to deliver. -/
inductive Delivers (d : Directory FileName) : Reading → ReadResult × JournalReader → Prop
  | record {e : JournalEntry} {left : Reading} {offset : Nat} {r : JournalReader}
      (steady : r.Steady d) (rest : r.rest d = left) :
      Delivers d { left with records := e :: left.records } (.ok e offset, r)
  | clean {offset : Nat} {r : JournalReader} (closed : r.fd = none) :
      Delivers d ⟨[], .clean, none⟩ (.endOfJournal offset, r)
  | torn {offset : Nat} {r : JournalReader} {p : Position} (stands : r.position = some p) :
      Delivers d ⟨[], .torn, some p⟩ (.truncatedTail offset, r)
  | gap {e : JournalEntry} {offset : Nat} {r : JournalReader} {p : Position}
      (stands : r.position = some p) : Delivers d ⟨[], .gap, some p⟩ (.corrupt e offset, r)

theorem rest_create (d : Directory FileName) : (create d).rest d = Velox.contents d := by
  have hfiles : (create d).unread d = journalFiles d := by
    rw [unread, create, journalFiles, List.drop_zero, List.map_map]
    refine List.map_congr_left fun e he => ?_
    rw [Function.comp_apply, bytesOf, (SortedMap.mem_list.1 he).2]
    rfl
  rw [rest, Velox.contents, ← hfiles]
  rfl

theorem steady_create (d : Directory FileName) : (create d).Steady d := by
  intro n hn
  cases hn

theorem unread_cons {n : FileName} (h : r.segments[r.nextSegmentIdx]? = some n) :
    r.unread d = (n, bytesOf d n) :: unread d { r with nextSegmentIdx := r.nextSegmentIdx + 1 } := by
  obtain ⟨hlt, rfl⟩ := List.getElem?_eq_some_iff.1 h
  rw [unread, List.drop_eq_getElem_cons hlt, List.map_cons]
  rfl

/-- A file whose header is not valid is passed over. -/
theorem openSegmentAtIndex_of_none {idx : Nat} {n : FileName} (hidx : r.segments[idx]? = some n)
    (h : headerOf (bytesOf d n) = none) :
    ∃ path size, r.openSegmentAtIndex d idx =
      (false, { r with currentPath := path, fd := none, fileSize := size }) := by
  rw [openSegmentAtIndex, hidx, Option.getD_some]
  cases hfind : d.find n with
  | none => exact ⟨n, r.fileSize, rfl⟩
  | some f =>
    rw [bytesOf, hfind, Option.map_some, Option.getD_some, headerOf] at h
    refine ⟨n, f.bytes.length, ?_⟩
    dsimp only
    split
    · rfl
    · next hlen =>
      rw [if_neg hlen] at h
      rw [h]
      rfl

theorem openSegmentAtIndex_of_some {idx : Nat} {n : FileName} {h : SegmentHeader}
    (hidx : r.segments[idx]? = some n) (hheader : headerOf (bytesOf d n) = some h) :
    ∃ f, d.find n = some f ∧ SegmentHeader.size ≤ f.bytes.length ∧
      r.openSegmentAtIndex d idx = (true, { r with
        currentPath := n, fd := some n, fileSize := f.bytes.length
        currentFirstSeq := seqOfU64 h.firstSeq, currentCreatedCounter := h.createdCounter
        offset := SegmentHeader.size }) := by
  rw [openSegmentAtIndex, hidx, Option.getD_some]
  cases hfind : d.find n with
  | none =>
    rw [bytesOf, hfind] at hheader
    cases hheader
  | some f =>
    rw [bytesOf, hfind, Option.map_some, Option.getD_some, headerOf] at hheader
    split at hheader
    · cases hheader
    · next hlen =>
      refine ⟨f, rfl, Nat.le_of_not_lt hlen, ?_⟩
      dsimp only
      rw [if_neg hlen, hheader]

/-- Opening the next segment passes over what `readFiles` passes over. -/
theorem openNextSegment_spec (hclosed : r.fd = none) :
    (∃ r₁, r.openNextSegment d = (true, r₁) ∧ r₁.rest d = r.rest d ∧ r₁.Steady d ∧
      r₁.segments.length - r₁.nextSegmentIdx < r.segments.length - r.nextSegmentIdx) ∨
    ∃ r₁, r.openNextSegment d = (false, r₁) ∧ r.rest d = ⟨[], .clean, none⟩ ∧ r₁.fd = none := by
  rw [openNextSegment]
  generalize hleft : r.segments.length - r.nextSegmentIdx = left
  induction left generalizing r with
  | zero =>
    have hnone : r.unread d = [] := by
      rw [unread, List.drop_eq_nil_of_le (Nat.le_of_sub_eq_zero hleft), List.map_nil]
    exact .inr ⟨r, rfl, by rw [rest, hclosed]; simp only [hnone, readFiles], hclosed⟩
  | succ left ih =>
    obtain ⟨n, hn⟩ : ∃ n, r.segments[r.nextSegmentIdx]? = some n :=
      ⟨_, List.getElem?_eq_getElem (show r.nextSegmentIdx < r.segments.length by omega)⟩
    have hrest : r.rest d = readFiles ((n, bytesOf d n) ::
        unread d { r with nextSegmentIdx := r.nextSegmentIdx + 1 }) r.lastGoodSeq := by
      rw [rest, hclosed]
      simp only [unread_cons hn]
      rfl
    rw [openNextLoop, hrest, readFiles]
    cases hheader : headerOf (bytesOf d n) with
    | none =>
      obtain ⟨path, size, hopen⟩ := openSegmentAtIndex_of_none
        (r := { r with nextSegmentIdx := r.nextSegmentIdx + 1 }) hn hheader
      rw [hopen]
      have hnext := ih (r := { r with
        nextSegmentIdx := r.nextSegmentIdx + 1, currentPath := path, fd := none, fileSize := size })
        rfl (by dsimp only; omega)
      rcases hnext with ⟨r₁, ho, hsame, hsteady, hlt⟩ | hnone
      · exact .inl ⟨r₁, ho, hsame, hsteady, Nat.lt_succ_of_lt hlt⟩
      · exact .inr hnone
    | some h =>
      obtain ⟨f, hfind, hlen, hopen⟩ := openSegmentAtIndex_of_some
        (r := { r with nextSegmentIdx := r.nextSegmentIdx + 1 }) hn hheader
      have hbytes : (some n).bind d.find = some f := hfind
      rw [hopen]
      refine .inl ⟨_, rfl, ?_, fun n' hn' => ?_, by dsimp only; omega⟩
      · simp only [rest, contents, bytesOf, hbytes, hfind, Option.map_some, Option.getD_some]
        rfl
      · obtain rfl := Option.some.inj hn'
        refine ⟨rfl, ?_, hlen⟩
        simp only [contents, hbytes, Option.map_some, Option.getD_some]

/-- An open reader, if a closed one behind this segment does what it should. -/
theorem next_of_open {n : FileName} (hopen : r.fd = some n) (hsteady : r.Steady d)
    (hlater : Delivers d (r.closeCurrent.rest d) (r.closeCurrent.next d)) :
    Delivers d (r.rest d) (r.next d) := by
  obtain ⟨hpath, hsize, hle⟩ := hsteady n hopen
  have hread := readOneRecord_eq hsize hle
  have hposition : r.position = some ⟨n, r.offset, r.currentCreatedCounter⟩ := by
    rw [position, hopen, Option.map_some, hpath]
  rw [rest, hopen]
  dsimp only
  cases hparse : parse ((r.contents d).drop r.offset) with
  | eof =>
    rw [hparse] at hread
    rw [readOn_eof hparse, next_of_end hopen hread]
    exact hlater
  | torn =>
    rw [hparse] at hread
    rw [readOn_torn hparse, next_of_result hopen hread (by simp)]
    exact .torn hposition
  | record e =>
    rw [hparse] at hread
    by_cases hseq : e.seq = r.lastGoodSeq + 1
    · have hlen := parse_record_length hparse
      rw [List.length_drop, ← hsize] at hlen
      have hsizes : kRecordSize = 68 := rfl
      have hverdict : r.verdict (.record e) = (.ok e r.offset,
          { r with offset := r.offset + kRecordSize, lastGoodSeq := e.seq }) :=
        if_neg (not_not.2 hseq)
      rw [readOn_record hparse hseq, next_of_result hopen (hread.trans hverdict) (by simp)]
      refine .record (fun n' hn' => ?_) ?_
      · exact ⟨(hsteady n' hn').1, hsize, by dsimp only; omega⟩
      · rw [rest]
        simp only [contents, unread, hopen, List.drop_drop]
    · have hverdict : r.verdict (.record e) = (.corrupt e r.offset, r) := if_pos hseq
      rw [readOn_gap hparse hseq, next_of_result hopen (hread.trans hverdict) (by simp)]
      exact .gap hposition

/-- **`next` delivers what is left.** -/
theorem next_spec (hsteady : r.Steady d) : Delivers d (r.rest d) (r.next d) := by
  -- over the segments that are left; a closed reader either finds none or becomes an open one
  -- with fewer of them
  generalize hleft : r.segments.length - r.nextSegmentIdx = left
  induction left using Nat.strong_induction_on generalizing r with
  | _ left ih =>
    have hclosed : ∀ r₀ : JournalReader, r₀.fd = none →
        r₀.segments.length - r₀.nextSegmentIdx ≤ left → Delivers d (r₀.rest d) (r₀.next d) := by
      intro r₀ hfd hle
      rcases openNextSegment_spec (d := d) hfd with ⟨r₁, ho, hrest, hsteady₁, hlt⟩ | ⟨r₁, ho, hrest, hfd₁⟩
      · rw [← hrest, next_of_opened hfd ho]
        exact ih _ (lt_of_lt_of_le hlt hle) hsteady₁ rfl
      · rw [hrest, next_of_exhausted hfd ho]
        exact .clean hfd₁
    cases hfd : r.fd with
    | none => exact hclosed r hfd hleft.le
    | some n => exact next_of_open hfd hsteady (hclosed r.closeCurrent rfl hleft.le)

end JournalReader

end Velox
