import Velox.Lib.Table
import Velox.Sequencer.JournalWriter

/-!
# What a journal directory stands for

A `Journal` is the meaning of a directory that one writer after the other has written: segments with
their records in the order of their numbers, bytes behind the last record that are not one (a record
that is being written, or was when the writer was stopped), and perhaps a last file whose header is
not complete. `Journal.Grows` is what can happen to it while somebody reads.
-/

namespace Velox

open Bytes Storage

/-- The journal files of a directory, with what stands in them. -/
def journalFiles (d : Directory FileName) : List (FileName × List UInt8) :=
  (d.list isJnl).map fun e => (e.1, e.2.bytes)

structure Segment where
  firstSeq : Int
  createdCounter : UInt64
  entries : List JournalEntry
  /-- What follows the last whole record. -/
  rest : List UInt8

namespace Segment

def name (s : Segment) : FileName := segmentName s.firstSeq

def header (s : Segment) : SegmentHeader :=
  { firstSeq := u64OfSeq s.firstSeq, createdCounter := s.createdCounter }

def bytes (s : Segment) : List UInt8 :=
  s.header.encode ++ (s.entries.flatMap JournalEntry.encode ++ s.rest)

end Segment

structure Journal where
  segments : List Segment
  /-- A last file without a complete header: the first number it is for, and its bytes. -/
  stub : Option (Int × List UInt8)

namespace Journal

def stubFiles (j : Journal) : List (FileName × List UInt8) :=
  j.stub.toList.map fun x => (segmentName x.1, x.2)

def files (j : Journal) : List (FileName × List UInt8) :=
  (j.segments.map fun s => (s.name, s.bytes)) ++ j.stubFiles

def names (j : Journal) : List FileName := j.files.map Prod.fst

def entries (j : Journal) : List JournalEntry := j.segments.flatMap Segment.entries

/-- How many records stand in the segments before the `i`-th. -/
def before (j : Journal) (i : Nat) : Nat := ((j.segments.take i).flatMap Segment.entries).length

structure Wf (j : Journal) : Prop where
  numbered : Table.Numbered JournalEntry.seq 1 j.entries
  firstSeq : ∀ (i : Nat) (s : Segment), j.segments[i]? = some s →
    s.firstSeq = (j.before i : Int) + 1
  /-- A file with another one behind it has whole records only, and at least one. -/
  full : ∀ (i : Nat) (s : Segment), j.segments[i]? = some s → i + 1 < j.files.length →
    s.entries ≠ [] ∧ s.rest = []
  rest : ∀ s ∈ j.segments, s.rest = [] ∨ parse s.rest = .torn
  stub : ∀ x ∈ j.stub, x.1 = (j.entries.length : Int) + 1 ∧ x.2.length < SegmentHeader.size
  counters : (j.segments.map Segment.createdCounter).Nodup
  /-- Sixteen digits are enough for the next number. -/
  small : j.entries.length + 1 < 10 ^ 16

/-- The directory stands for this journal. -/
structure Laid (j : Journal) (d : Directory FileName) : Prop where
  wf : j.Wf
  files : journalFiles d = j.files

/-- What somebody who reads the journal can rely on. -/
structure Grows (j j' : Journal) : Prop where
  names : j.names <+: j'.names
  segment : ∀ (i : Nat) (s : Segment), j.segments[i]? = some s → ∃ s', j'.segments[i]? = some s' ∧
    s'.firstSeq = s.firstSeq ∧ s'.createdCounter = s.createdCounter ∧ s.entries <+: s'.entries ∧
    (i + 1 < j.segments.length → s'.entries = s.entries)

variable {j j' : Journal} {d : Directory FileName} {i m : Nat} {s : Segment} {e : JournalEntry}

/-! ## Records and their places -/

theorem entries_split (h : j.segments[i]? = some s) : j.entries =
    (j.segments.take i).flatMap Segment.entries ++
      (s.entries ++ (j.segments.drop (i + 1)).flatMap Segment.entries) := by
  obtain ⟨hi, rfl⟩ := List.getElem?_eq_some_iff.1 h
  rw [entries, ← List.flatMap_cons, List.cons_getElem_drop_succ, ← List.flatMap_append,
    List.take_append_drop]

theorem before_succ (h : j.segments[i]? = some s) : j.before (i + 1) = j.before i + s.entries.length := by
  obtain ⟨hi, rfl⟩ := List.getElem?_eq_some_iff.1 h
  rw [before, List.take_succ_eq_append_getElem hi, List.flatMap_append, List.length_append, before,
    List.flatMap_singleton]

theorem before_le (h : j.segments[i]? = some s) : j.before i + s.entries.length ≤ j.entries.length := by
  rw [entries_split h, List.length_append, List.length_append, before]
  omega

theorem getElem?_entries (h : j.segments[i]? = some s) (hm : m < s.entries.length) :
    j.entries[j.before i + m]? = s.entries[m]? := by
  have hle : ((j.segments.take i).flatMap Segment.entries).length ≤ j.before i + m :=
    Nat.le_add_right ..
  rw [entries_split h, List.getElem?_append_right hle, before, Nat.add_sub_cancel_left,
    List.getElem?_append_left hm]

theorem Wf.seq (hw : j.Wf) {n : Nat} (h : j.entries[n]? = some e) : e.seq = n + 1 := by
  rw [hw.numbered n e h, add_comm]

theorem Wf.fits (hw : j.Wf) (h : e ∈ j.entries) : Fits64 e.seq := by
  obtain ⟨n, hn⟩ := List.mem_iff_getElem?.1 h
  have hlt := (List.getElem?_eq_some_iff.1 hn).1
  have hsmall := hw.small
  rw [hw.seq hn]
  constructor <;> omega

/-- What stands behind the first `m` records of a segment. -/
theorem drop_bytes (s : Segment) (hm : m ≤ s.entries.length) :
    s.bytes.drop (SegmentHeader.size + kRecordSize * m) =
      (s.entries.drop m).flatMap JournalEntry.encode ++ s.rest := by
  rw [Segment.bytes, ← List.drop_drop, List.drop_left' s.header.length_encode,
    List.drop_append_of_le_length, Nat.mul_comm, drop_flatMap JournalEntry.length_encode]
  rw [length_flatMap JournalEntry.length_encode, Nat.mul_comm]
  exact Nat.mul_le_mul_right _ hm

theorem length_bytes (s : Segment) : s.bytes.length =
    SegmentHeader.size + kRecordSize * s.entries.length + s.rest.length := by
  rw [Segment.bytes, List.length_append, List.length_append, s.header.length_encode,
    length_flatMap JournalEntry.length_encode, Nat.mul_comm, Nat.add_assoc]

theorem before_of_le (h : j.segments.length ≤ i) : j.before i = j.entries.length := by
  rw [before, List.take_of_length_le h, entries]

/-! ## Files -/

theorem names_getElem? (h : j.segments[i]? = some s) : j.names[i]? = some s.name := by
  have hi : i < (j.segments.map fun s => (s.name, s.bytes)).length := by
    rw [List.length_map]
    exact (List.getElem?_eq_some_iff.1 h).1
  rw [names, files, List.getElem?_map, List.getElem?_append_left hi, List.getElem?_map, h]
  rfl

theorem Laid.find_file (hl : j.Laid d) {x : FileName × List UInt8} (hx : x ∈ j.files) :
    ∃ f, d.find x.1 = some f ∧ f.bytes = x.2 := by
  rw [← hl.files] at hx
  obtain ⟨⟨n, f⟩, hmem, rfl⟩ := List.mem_map.1 hx
  exact ⟨f, (SortedMap.mem_list.1 hmem).2, rfl⟩

theorem Laid.find (hl : j.Laid d) (h : j.segments[i]? = some s) :
    ∃ f, d.find s.name = some f ∧ f.bytes = s.bytes :=
  hl.find_file (List.mem_append_left _
    (List.mem_map_of_mem (f := fun s => (s.name, s.bytes)) (List.mem_of_getElem? h)))

theorem length_files (j : Journal) : j.files.length = j.segments.length + j.stub.toList.length := by
  rw [files, stubFiles, List.length_append, List.length_map, List.length_map]

/-- The names are in order. -/
theorem Laid.sorted (hl : j.Laid d) : j.names.Pairwise (· < ·) := by
  rw [names, ← hl.files, journalFiles, List.map_map, List.pairwise_map]
  exact d.sorted_list isJnl

/-! ## Growth -/

theorem Grows.refl (j : Journal) : j.Grows j where
  names := List.prefix_rfl
  segment _ s h := ⟨s, h, rfl, rfl, List.prefix_rfl, fun _ => rfl⟩

theorem Grows.length_le (h : j.Grows j') : j.segments.length ≤ j'.segments.length := by
  by_contra hlt
  rw [not_le] at hlt
  obtain ⟨s', hs', -⟩ := h.segment _ _ (List.getElem?_eq_getElem hlt)
  exact lt_irrefl _ (List.getElem?_eq_some_iff.1 hs').1

theorem Grows.trans {j'' : Journal} (h : j.Grows j') (h' : j'.Grows j'') : j.Grows j'' where
  names := h.names.trans h'.names
  segment := by
    intro i s hs
    obtain ⟨s', hs', hfirst, hcounter, hentries, hsame⟩ := h.segment i s hs
    obtain ⟨s'', hs'', hfirst', hcounter', hentries', hsame'⟩ := h'.segment i s' hs'
    refine ⟨s'', hs'', hfirst'.trans hfirst, hcounter'.trans hcounter, hentries.trans hentries', ?_⟩
    intro hi
    exact (hsame' (hi.trans_le h.length_le)).trans (hsame hi)

/-- The segments before one of the journal do not change. -/
theorem Grows.take_entries (h : j.Grows j') (hi : i < j.segments.length) :
    (j'.segments.take i).flatMap Segment.entries = (j.segments.take i).flatMap Segment.entries := by
  have hle := h.length_le
  rw [List.flatMap_def, List.flatMap_def]
  congr 1
  refine List.ext_getElem? fun k => ?_
  rw [List.getElem?_map, List.getElem?_map, List.getElem?_take, List.getElem?_take]
  split
  · next hk =>
    obtain ⟨s', hs', -, -, -, hsame⟩ := h.segment k _ (List.getElem?_eq_getElem (hk.trans hi))
    rw [hs', List.getElem?_eq_getElem (hk.trans hi), Option.map_some, Option.map_some,
      hsame (by omega)]
  · rfl

theorem Grows.before (h : j.Grows j') (hi : i < j.segments.length) : j'.before i = j.before i :=
  congrArg List.length (h.take_entries hi)

/-- No record is lost or changed. -/
theorem Grows.entries (h : j.Grows j') : j.entries <+: j'.entries := by
  rcases Nat.eq_zero_or_pos j.segments.length with hzero | hpos
  · rw [Journal.entries, List.eq_nil_of_length_eq_zero hzero]
    exact List.nil_prefix
  · have hlast := List.getElem?_eq_getElem (Nat.sub_lt hpos Nat.one_pos)
    obtain ⟨s', hs', -, -, hprefix, -⟩ := h.segment _ _ hlast
    have hnil : j.segments.drop (j.segments.length - 1 + 1) = [] :=
      List.drop_eq_nil_of_le (by omega)
    rw [entries_split hlast, entries_split hs', h.take_entries (Nat.sub_lt hpos Nat.one_pos), hnil,
      List.flatMap_nil, List.append_nil, List.prefix_append_right_inj]
    exact hprefix.trans (List.prefix_append ..)

end Journal

end Velox
