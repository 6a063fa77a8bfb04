import Velox.Sequencer.JournalScan

/-!
# The journal tailer

Following `sequencer/journal_tailer.hpp`: a reader of a journal that is still being written. What is
a torn tail for recovery is here a record that is not complete yet. After such a result, and after
the end of what it knows, the tailer looks at the directory again and seeks its own place.

On a journal that grows, a tailer delivers the records in order, and after two results in a row that
there is nothing new there is nothing new (`TracksIn.next`).
-/

namespace Velox

open Storage

inductive TailResult where
  | ok (e : JournalEntry)
  | notYet
  | corrupt (e : JournalEntry)
  deriving DecidableEq

structure Checkpoint where
  createdCounter : UInt64
  offset : Nat
  lastGoodSeq : Int
  deriving DecidableEq

namespace Checkpoint

/-- The checkpoint of a start from the beginning. -/
def empty : Checkpoint := ⟨0, 0, 0⟩

/-- The checkpoint is the place behind the first `n` records. -/
def Marks (cp : Checkpoint) (j : Journal) (n : Nat) : Prop :=
  ∃ i m s, j.segments[i]? = some s ∧ m ≤ s.entries.length ∧ n = j.before i + m ∧
    cp = ⟨s.createdCounter, SegmentHeader.size + kRecordSize * m, (n : Int)⟩

end Checkpoint

structure JournalTailer where
  reader : JournalReader
  needsReseek : Bool
  deriving DecidableEq

namespace JournalTailer

def create (d : Directory FileName) (resumeFrom : Checkpoint) : JournalTailer :=
  if resumeFrom.lastGoodSeq ≠ 0 then
    ⟨((JournalReader.create d).seekTo d resumeFrom.createdCounter resumeFrom.offset
      resumeFrom.lastGoodSeq).2, false⟩
  else ⟨JournalReader.create d, false⟩

/-- Where the reader looks again before it reads. -/
def lookAgain (d : Directory FileName) (t : JournalTailer) : JournalReader :=
  if t.needsReseek then
    let reader := t.reader.rescan d
    if SegmentHeader.size ≤ reader.offset then
      (reader.seekTo d reader.currentCreatedCounter reader.offset reader.lastGoodSeq).2
    else reader
  else if t.reader.hasOpenSegment then t.reader.refreshFileSize d
  else t.reader

def next (d : Directory FileName) (t : JournalTailer) : TailResult × JournalTailer :=
  match (t.lookAgain d).next d with
  | (.ok e _, reader) => (.ok e, ⟨reader, false⟩)
  | (.corrupt e _, reader) => (.corrupt e, ⟨reader, false⟩)
  | (.truncatedTail _, reader) => (.notYet, ⟨reader, true⟩)
  | (.endOfJournal _, reader) => (.notYet, ⟨reader, true⟩)

def checkpoint (t : JournalTailer) : Checkpoint :=
  ⟨t.reader.currentCreatedCounter, t.reader.offset, t.reader.lastGoodSeq⟩

/-- A tailer that has delivered a record looks on. -/
theorem needsReseek_of_ok {d : Directory FileName} {t : JournalTailer} {e : JournalEntry}
    (h : (t.next d).1 = .ok e) : (t.next d).2.needsReseek = false := by
  rw [next] at h ⊢
  generalize (t.lookAgain d).next d = x at h ⊢
  obtain ⟨res, r⟩ := x
  cases res with
  | ok | corrupt => rfl
  | truncatedTail | endOfJournal => cases h

/-! ## On a journal that grows -/

variable {j j' : Journal} {d : Directory FileName} {t : JournalTailer} {n L : Nat}

/-- The tailer has delivered the first `n` records and knows the first `L` files. -/
def TracksIn (t : JournalTailer) (j : Journal) (L n : Nat) : Prop :=
  (t.reader.Fresh j L ∧ n = 0) ∨
    ∃ i m s, t.reader.Stands j L i m s ∧ n = j.before i + m ∧
      (t.needsReseek = true ∨ t.reader.Open j L i m s)

/-- The tailer has delivered the first `n` records. -/
def Tracks (t : JournalTailer) (j : Journal) (n : Nat) : Prop := ∃ L, t.TracksIn j L n

theorem TracksIn.grow (h : t.TracksIn j L n) (hg : j.Grows j') : t.TracksIn j' L n := by
  rcases h with ⟨hfresh, hn⟩ | ⟨i, m, s, hstands, hn, hopen⟩
  · exact .inl ⟨hfresh.grow hg, hn⟩
  · have hi := (List.getElem?_eq_some_iff.1 hstands.segment).1
    rw [← hg.before hi] at hn
    rcases hopen with hreseek | hopen
    · obtain ⟨s', hs', -⟩ := hstands.grow hg
      exact .inr ⟨i, m, s', hs', hn, .inl hreseek⟩
    · obtain ⟨s', hs'⟩ := hopen.grow hg
      exact .inr ⟨i, m, s', hs'.toStands, hn, .inr hs'⟩

theorem TracksIn.le (h : t.TracksIn j L n) : n ≤ j.entries.length := by
  rcases h with ⟨-, rfl⟩ | ⟨i, m, s, hstands, rfl, -⟩
  · exact Nat.zero_le _
  · exact (Nat.add_le_add_left hstands.le _).trans (Journal.before_le hstands.segment)

/-- A call of `next` that has delivered the next record, or has found that there is none in the first
`L` files. -/
def Delivers (j : Journal) (n L : Nat) (x : TailResult × JournalTailer) : Prop :=
  (∃ e ∈ j.entries[n]?, x.1 = .ok e ∧ x.2.TracksIn j L (n + 1)) ∨
    (x.1 = .notYet ∧ x.2.TracksIn j L n ∧ x.2.needsReseek = true ∧ j.before L ≤ n)

theorem delivers_of_reads (h : JournalReader.Reads j L n ((t.lookAgain d).next d)) :
    Delivers j n L (t.next d) := by
  rw [next]
  generalize (t.lookAgain d).next d = x at h
  cases h with
  | @record e offset r i m s he hopen hn =>
    exact .inl ⟨e, he, rfl, .inr ⟨i, m, s, hopen.toStands, hn.symm, .inr hopen⟩⟩
  | @torn offset r i m s hopen hn hall hrest hlast =>
    exact .inr ⟨rfl, .inr ⟨i, m, s, hopen.toStands, hn.symm, .inl rfl⟩, rfl, hall⟩
  | @done offset r i m s hstands hn hall hclosed hrest =>
    exact .inr ⟨rfl, .inr ⟨i, m, s, hstands, hn.symm, .inl rfl⟩, rfl, hall⟩

/-- A tailer that has opened nothing. -/
theorem delivers_of_fresh (hl : j.Laid d) (h : (t.lookAgain d).Fresh j L) :
    Delivers j 0 L (t.next d) := by
  rcases Nat.eq_zero_or_pos L with rfl | hpos
  · rw [next, h.next_nothing]
    exact .inr ⟨rfl, .inl ⟨h, rfl⟩, rfl, Nat.le_refl 0⟩
  · exact delivers_of_reads (h.next hl hpos)

/-- **One call**: the next record, or nothing. If it is nothing and the call before had nothing
either, all complete records have been delivered. -/
theorem TracksIn.next (hl : j.Laid d) (h : t.TracksIn j L n) : ∃ L', L ≤ L' ∧
    Delivers j n L' (t.next d) ∧ (t.needsReseek = true → j.segments.length ≤ L') := by
  have hnames : j.segments.length ≤ j.names.length := by
    rw [Journal.names, List.length_map, Journal.length_files]
    exact Nat.le_add_right ..
  rcases h with ⟨hfresh, rfl⟩ | ⟨i, m, s, hstands, rfl, hopen⟩
  · cases hreseek : t.needsReseek with
    | false =>
      have hclosed : t.reader.hasOpenSegment = false := by
        rw [JournalReader.hasOpenSegment, hfresh.fd]
        rfl
      have hlook : t.lookAgain d = t.reader := by
        rw [lookAgain, hreseek, hclosed]
        rfl
      exact ⟨L, le_rfl, delivers_of_fresh hl (hlook ▸ hfresh), fun h => absurd h Bool.false_ne_true⟩
    | true =>
      have hsmall : ¬ SegmentHeader.size ≤ (t.reader.rescan d).offset := by
        change ¬ SegmentHeader.size ≤ t.reader.offset
        rw [hfresh.offset]
        decide
      have hlook : t.lookAgain d = t.reader.rescan d := by
        rw [lookAgain, hreseek, if_pos rfl]
        exact if_neg hsmall
      refine ⟨max L j.segments.length, le_max_left .., delivers_of_fresh hl ?_,
        fun _ => le_max_right ..⟩
      rw [hlook]
      exact
        { known := JournalReader.rescan_segments hl hfresh.known hfresh.bound
          bound := max_le hfresh.bound hnames
          start := by
            intro hpos hnil
            rw [hnil, List.length_nil, Nat.max_zero] at hpos
            exact hfresh.start hpos hnil
          fd := hfresh.fd
          idx := hfresh.idx
          offset := hfresh.offset
          last := hfresh.last }
  · cases hreseek : t.needsReseek with
    | false =>
      have hopen : t.reader.Open j L i m s := hopen.resolve_left (by rw [hreseek]; exact Bool.false_ne_true)
      have hopened : t.reader.hasOpenSegment = true := by
        rw [JournalReader.hasOpenSegment, hopen.fd]
        rfl
      have hlook : t.lookAgain d = t.reader.refreshFileSize d := by
        rw [lookAgain, hreseek, hopened]
        rfl
      obtain ⟨hfresh, hsize⟩ := hopen.refresh hl
      refine ⟨L, le_rfl, delivers_of_reads ?_, fun h => absurd h Bool.false_ne_true⟩
      rw [hlook]
      exact hfresh.next hl hsize
    | true =>
      have hlarge : SegmentHeader.size ≤ (t.reader.rescan d).offset := by
        change SegmentHeader.size ≤ t.reader.offset
        rw [hstands.offset]
        exact Nat.le_add_right ..
      have hknown := JournalReader.rescan_segments hl hstands.known hstands.bound
      have hinside : i < max L j.segments.length := hstands.inside.trans_le (le_max_left ..)
      have hlook : t.lookAgain d = (t.reader.rescan d).sought s i t.reader.offset := by
        rw [lookAgain, hreseek, if_pos rfl]
        refine (if_pos hlarge).trans ?_
        have hcounter : (t.reader.rescan d).currentCreatedCounter = s.createdCounter := hstands.counter
        rw [hcounter, JournalReader.seekTo_eq hl hknown (max_le hstands.bound hnames) hstands.segment
          hinside]
        rfl
      refine ⟨max L j.segments.length, le_max_left .., delivers_of_reads ?_,
        fun _ => le_max_right ..⟩
      rw [hlook, hstands.offset]
      exact JournalReader.Open.next hl (JournalReader.open_sought hknown (max_le hstands.bound hnames)
        hinside hstands.segment hstands.le hstands.last) rfl

/-- **On a journal that does not grow**, a tailer that knows all of it delivers the next record if
there is one. -/
theorem TracksIn.next_settled (hl : j.Laid d) (h : t.TracksIn j L n) (hL : j.segments.length ≤ L) :
    ∃ L', j.segments.length ≤ L' ∧
      ((∃ e ∈ j.entries[n]?, (t.next d).1 = .ok e ∧ (t.next d).2.TracksIn j L' (n + 1)) ∨
        (n = j.entries.length ∧ (t.next d).1 = .notYet ∧ (t.next d).2.TracksIn j L' n ∧
          (t.next d).2.needsReseek = true)) := by
  obtain ⟨L', hle, hdelivers, -⟩ := h.next hl
  refine ⟨L', hL.trans hle, hdelivers.imp_right fun ⟨hres, htracks, hreseek, hall⟩ => ?_⟩
  rw [Journal.before_of_le (hL.trans hle)] at hall
  exact ⟨Nat.le_antisymm h.le hall, hres, htracks, hreseek⟩

/-! ## Checkpoints -/

theorem segments_create (hl : j.Laid d) :
    (JournalReader.create d).segments = j.names.take j.names.length := by
  rw [List.take_length, Journal.names, ← hl.files, journalFiles, List.map_map]
  rfl

/-- A tailer that starts at the beginning finds no first file, or one with a complete header. -/
theorem tracks_create (hl : j.Laid d) (hstart : j.segments = [] → j.stub = none) :
    (create d .empty).TracksIn j j.names.length 0 := by
  refine .inl ⟨?_, rfl⟩
  exact
    { known := segments_create hl
      bound := le_rfl
      start := by
        intro hpos hnil
        rw [Journal.names, List.length_map, Journal.length_files, hnil, hstart hnil] at hpos
        exact lt_irrefl _ hpos
      fd := rfl
      idx := rfl
      offset := rfl
      last := rfl }

variable {cp : Checkpoint}

theorem TracksIn.marks (h : t.TracksIn j L n) (hn : 0 < n) : t.checkpoint.Marks j n := by
  rcases h with ⟨-, rfl⟩ | ⟨i, m, s, hstands, rfl, -⟩
  · exact absurd hn (lt_irrefl 0)
  · refine ⟨i, m, s, hstands.segment, hstands.le, rfl, ?_⟩
    rw [checkpoint, hstands.counter, hstands.offset, hstands.last]

/-- **A tailer that resumes** from a checkpoint stands where the checkpoint was taken. -/
theorem tracks_resumed (hl : j.Laid d) (h : cp.Marks j n) (hn : 0 < n) :
    (create d cp).TracksIn j j.names.length n := by
  obtain ⟨i, m, s, hs, hm, rfl, rfl⟩ := h
  have hinside : i < j.names.length := (List.getElem?_eq_some_iff.1 (Journal.names_getElem? hs)).1
  have hreal : ((j.before i + m : Nat) : Int) ≠ 0 := by omega
  have hseek := JournalReader.seekTo_eq (r := JournalReader.create d) hl (segments_create hl) le_rfl hs
    hinside (SegmentHeader.size + kRecordSize * m) ((j.before i + m : Nat) : Int)
  rw [create, if_pos hreal, hseek]
  have hopen := JournalReader.open_sought
    (r := { JournalReader.create d with lastGoodSeq := ((j.before i + m : Nat) : Int) })
    (segments_create hl) le_rfl hinside hs hm rfl
  exact .inr ⟨i, m, s, hopen.toStands, rfl, .inr hopen⟩

end JournalTailer

end Velox
