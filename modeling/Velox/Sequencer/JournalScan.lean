import Velox.Sequencer.JournalLayout

/-!
# Reading a journal

A reader on a directory that stands for a journal delivers its records one after the other. It
stands in some segment behind some of its records (`Stands`), knows the first files of the directory
and delivers what they have (`Open.next`).
-/

namespace Velox

open Storage

namespace JournalReader

variable {j j' : Journal} {d : Directory FileName} {r : JournalReader} {L i m : Nat} {s : Segment}

/-- The reader knows the first `L` files, and the last record that it has delivered is the `m`-th of
segment `i`. -/
structure Stands (r : JournalReader) (j : Journal) (L i m : Nat) (s : Segment) : Prop where
  known : r.segments = j.names.take L
  bound : L ≤ j.names.length
  inside : i < L
  segment : j.segments[i]? = some s
  le : m ≤ s.entries.length
  counter : r.currentCreatedCounter = s.createdCounter
  offset : r.offset = SegmentHeader.size + kRecordSize * m
  last : r.lastGoodSeq = ((j.before i + m : Nat) : Int)

/-- This segment is open. -/
structure Open (r : JournalReader) (j : Journal) (L i m : Nat) (s : Segment) : Prop
    extends r.Stands j L i m s where
  fd : r.fd = some s.name
  path : r.currentPath = s.name
  idx : r.nextSegmentIdx = i + 1

/-- What comes after the first `n` records. -/
inductive Reads (j : Journal) (L n : Nat) : ReadResult × JournalReader → Prop
  | record {e offset r i m s} (he : j.entries[n]? = some e) (h : r.Open j L i m s)
      (hn : j.before i + m = n + 1) : Reads j L n (.ok e offset, r)
  | torn {offset r i m s} (h : r.Open j L i m s) (hn : j.before i + m = n) (hall : j.before L ≤ n)
      (hrest : s.rest ≠ []) (hlast : i + 1 = j.files.length) : Reads j L n (.truncatedTail offset, r)
  | done {offset r i m s} (h : r.Stands j L i m s) (hn : j.before i + m = n) (hall : j.before L ≤ n)
      (hclosed : r.fd = none) (hrest : s.rest = []) : Reads j L n (.endOfJournal offset, r)

/-! ## Opening -/

/-- The reader at the start of this segment. -/
def opened (r : JournalReader) (s : Segment) : JournalReader :=
  { r with
    currentPath := s.name
    fd := some s.name
    fileSize := s.bytes.length
    currentFirstSeq := seqOfU64 (u64OfSeq s.firstSeq)
    currentCreatedCounter := s.createdCounter
    offset := SegmentHeader.size }

theorem openSegmentAtIndex_segment (hl : j.Laid d) (hs : j.segments[i]? = some s)
    (hname : r.segments[i]? = some s.name) : r.openSegmentAtIndex d i = (true, r.opened s) := by
  obtain ⟨f, hfind, hbytes⟩ := hl.find hs
  have hlen : ¬ s.bytes.length < SegmentHeader.size := by
    rw [Journal.length_bytes]
    omega
  have hheader : SegmentHeader.decode (s.bytes.take SegmentHeader.size) = some s.header := by
    rw [Segment.bytes, List.take_left' s.header.length_encode]
    exact SegmentHeader.decode_encode rfl rfl
  simp only [openSegmentAtIndex, hname, Option.getD_some, hfind, hbytes, if_neg hlen, hheader]
  rfl

/-- A file without a complete header is not opened. -/
theorem openSegmentAtIndex_stub (hl : j.Laid d) {x : Int × List UInt8} (hx : j.stub = some x)
    (hname : r.segments[i]? = some (segmentName x.1)) :
    r.openSegmentAtIndex d i = (false, { r with
      currentPath := segmentName x.1, fd := none, fileSize := x.2.length }) := by
  obtain ⟨f, hfind, hbytes⟩ := hl.find_file (x := (segmentName x.1, x.2)) (by
    rw [Journal.files, Journal.stubFiles, hx]
    exact List.mem_append_right _ List.mem_cons_self)
  have hlen := (hl.wf.stub x hx).2
  simp only [openSegmentAtIndex, hname, Option.getD_some, hfind, hbytes, if_pos hlen]
  rfl

theorem openNextSegment_segment (hl : j.Laid d) (hs : j.segments[r.nextSegmentIdx]? = some s)
    (hname : r.segments[r.nextSegmentIdx]? = some s.name) :
    r.openNextSegment d = (true, { r.opened s with nextSegmentIdx := r.nextSegmentIdx + 1 }) := by
  have hlt := (List.getElem?_eq_some_iff.1 hname).1
  obtain ⟨n, hn⟩ : ∃ n, r.segments.length - r.nextSegmentIdx = n + 1 :=
    ⟨r.segments.length - r.nextSegmentIdx - 1, by omega⟩
  rw [openNextSegment, hn, openNextLoop,
    openSegmentAtIndex_segment (r := { r with nextSegmentIdx := r.nextSegmentIdx + 1 }) hl hs hname]
  rfl

/-- The last file that is known has no complete header. -/
theorem openNextSegment_stub (hl : j.Laid d) {x : Int × List UInt8} (hx : j.stub = some x)
    (hname : r.segments[r.nextSegmentIdx]? = some (segmentName x.1))
    (hlast : r.segments.length = r.nextSegmentIdx + 1) :
    r.openNextSegment d = (false, { r with
      nextSegmentIdx := r.nextSegmentIdx + 1
      currentPath := segmentName x.1
      fd := none
      fileSize := x.2.length }) := by
  rw [openNextSegment, hlast, Nat.add_sub_cancel_left, openNextLoop,
    openSegmentAtIndex_stub (r := { r with nextSegmentIdx := r.nextSegmentIdx + 1 }) hl hx hname]
  rfl

/-! ## One record -/

theorem Open.contents (hl : j.Laid d) (h : r.Open j L i m s) : r.contents d = s.bytes := by
  obtain ⟨f, hfind, hbytes⟩ := hl.find h.segment
  rw [JournalReader.contents, h.fd, Option.bind_some, hfind, Option.map_some, hbytes, Option.getD_some]

theorem Open.readOneRecord (hl : j.Laid d) (h : r.Open j L i m s)
    (hsize : r.fileSize = s.bytes.length) : r.readOneRecord d =
      r.verdict (parse ((s.entries.drop m).flatMap JournalEntry.encode ++ s.rest)) := by
  have hcontents := h.contents hl
  rw [readOneRecord_eq, hcontents, h.offset, Journal.drop_bytes s h.le]
  · rw [hcontents, hsize]
  · have hmul := Nat.mul_le_mul_left kRecordSize h.le
    rw [hsize, h.offset, Journal.length_bytes]
    omega

/-- There is another record in the open segment. -/
theorem Open.next_record (hl : j.Laid d) (h : r.Open j L i m s) (hsize : r.fileSize = s.bytes.length)
    (hm : m < s.entries.length) : Reads j L (j.before i + m) (r.next d) := by
  have he : j.entries[j.before i + m]? = some s.entries[m] := by
    rw [Journal.getElem?_entries h.segment hm, List.getElem?_eq_getElem hm]
  have hfits : Fits64 s.entries[m].seq := hl.wf.fits (List.mem_of_getElem? he)
  have hseq : s.entries[m].seq = r.lastGoodSeq + 1 := by
    rw [hl.wf.seq he, h.last]
  have hread := h.readOneRecord hl hsize
  rw [List.drop_eq_getElem_cons hm, List.flatMap_cons, List.append_assoc, parse_encode_append hfits,
    verdict, if_neg (not_not.2 hseq)] at hread
  rw [next_of_result h.fd hread nofun]
  refine .record (i := i) (m := m + 1) (s := s) he ?_ (Nat.add_assoc ..).symm
  exact
    { known := h.known
      bound := h.bound
      inside := h.inside
      segment := h.segment
      le := hm
      counter := h.counter
      offset := by
        change r.offset + kRecordSize = _
        rw [h.offset, Nat.mul_succ, Nat.add_assoc]
      last := by
        change s.entries[m].seq = _
        rw [hl.wf.seq he]
        push_cast
        ring
      fd := h.fd
      path := h.path
      idx := h.idx }

/-! ## From segment to segment -/

theorem Stands.name (h : r.Stands j L i m s) {k : Nat} (hk : k < L) : r.segments[k]? = j.names[k]? := by
  rw [h.known, List.getElem?_take_of_lt hk]

theorem Stands.closeCurrent (h : r.Stands j L i m s) : r.closeCurrent.Stands j L i m s where
  known := h.known
  bound := h.bound
  inside := h.inside
  segment := h.segment
  le := h.le
  counter := h.counter
  offset := h.offset
  last := h.last

/-- No further file is known. -/
theorem Stands.next_unknown (h : r.Stands j L i s.entries.length s) (hclosed : r.fd = none)
    (hrest : s.rest = []) (hend : r.segments.length ≤ r.nextSegmentIdx)
    (hidx : r.nextSegmentIdx = i + 1) : Reads j L (j.before (i + 1)) (r.next d) := by
  have hnone : r.openNextSegment d = (false, r) := by
    rw [openNextSegment, Nat.sub_eq_zero_of_le hend]
    rfl
  rw [next_of_exhausted hclosed hnone]
  refine .done h (Journal.before_succ h.segment).symm ?_ hclosed hrest
  -- either only so many files are known, or there are no more
  rw [h.known, List.length_take, hidx] at hend
  rcases Nat.lt_or_ge (i + 1) L with hlt | hle
  · have hnames : j.segments.length ≤ j.names.length := by
      rw [Journal.names, List.length_map, Journal.length_files]
      exact Nat.le_add_right ..
    rw [Journal.before_of_le (by omega), Journal.before_of_le (by omega)]
  · have hinside := h.inside
    rw [show L = i + 1 by omega]

theorem Stands.next_stub (hl : j.Laid d) (h : r.Stands j L i s.entries.length s)
    (hclosed : r.fd = none) (hrest : s.rest = []) (hidx : r.nextSegmentIdx = i + 1)
    (hlast : j.segments.length = i + 1) (hmore : i + 1 < r.segments.length) :
    Reads j L (j.before (i + 1)) (r.next d) := by
  have hknown := h.known
  have hlen : r.segments.length = min L j.files.length := by
    rw [hknown, List.length_take, Journal.names, List.length_map]
  have hfiles := j.length_files
  obtain ⟨x, hx⟩ : ∃ x, j.stub = some x := by
    cases hstub : j.stub with
    | none =>
      rw [hstub, Option.toList_none, List.length_nil] at hfiles
      omega
    | some x => exact ⟨x, rfl⟩
  rw [hx, Option.toList_some, List.length_singleton] at hfiles
  have hname : r.segments[i + 1]? = some (segmentName x.1) := by
    rw [h.name (by omega), Journal.names, Journal.files, List.getElem?_map,
      List.getElem?_append_right (by rw [List.length_map]; omega), List.length_map, hlast,
      Nat.sub_self, Journal.stubFiles, hx]
    rfl
  rw [← hidx] at hname
  rw [next_of_exhausted hclosed (openNextSegment_stub hl hx hname (by omega))]
  refine .done (i := i) (m := s.entries.length) (s := s) ?_ (Journal.before_succ h.segment).symm ?_ rfl
    hrest
  · exact ⟨h.known, h.bound, h.inside, h.segment, h.le, h.counter, h.offset, h.last⟩
  · rw [Journal.before_of_le (by omega), Journal.before_of_le hlast.le]

/-- **The reader delivers record after record** of the files that it knows. -/
theorem Open.next (hl : j.Laid d) (h : r.Open j L i m s) (hsize : r.fileSize = s.bytes.length) :
    Reads j L (j.before i + m) (r.next d) := by
  -- on the segments that follow: an empty one is passed
  induction hk : j.segments.length - i generalizing r i m s with
  | zero =>
    have hi := (List.getElem?_eq_some_iff.1 h.segment).1
    omega
  | succ k ih =>
    rcases Nat.lt_or_ge m s.entries.length with hm | hm
    · exact h.next_record hl hsize hm
    obtain rfl : m = s.entries.length := Nat.le_antisymm h.le hm
    have hread := h.readOneRecord hl hsize
    rw [List.drop_length, List.flatMap_nil, List.nil_append] at hread
    rcases hl.wf.rest s (List.mem_of_getElem? h.segment) with hrest | htorn
    · rw [hrest, parse_nil] at hread
      rw [next_of_end h.fd hread, ← Journal.before_succ h.segment]
      have hclosed : r.closeCurrent.Stands j L i s.entries.length s := h.toStands.closeCurrent
      have hidx : r.closeCurrent.nextSegmentIdx = i + 1 := h.idx
      rcases Nat.lt_or_ge (i + 1) r.segments.length with hmore | hnone
      · rcases Nat.lt_or_ge (i + 1) j.segments.length with hsegment | hstub
        · -- the next segment is opened
          obtain ⟨s', hs'⟩ : ∃ s', j.segments[i + 1]? = some s' := ⟨_, List.getElem?_eq_getElem hsegment⟩
          have hinside : i + 1 < L := by
            rw [h.known, List.length_take] at hmore
            omega
          have hname : r.segments[i + 1]? = some s'.name := by
            rw [h.name hinside, Journal.names_getElem? hs']
          rw [next_of_opened rfl (openNextSegment_segment (s := s') hl (hidx ▸ hs') (hidx ▸ hname))]
          refine ih (i := i + 1) (m := 0) (s := s') ?_ rfl (by omega)
          exact
            { known := h.known
              bound := h.bound
              inside := hinside
              segment := hs'
              le := Nat.zero_le _
              counter := rfl
              offset := rfl
              last := by
                rw [Journal.before_succ h.segment]
                exact h.last
              fd := rfl
              path := rfl
              idx := congrArg (· + 1) hidx }
        · have hi := (List.getElem?_eq_some_iff.1 h.segment).1
          exact hclosed.next_stub hl rfl hrest hidx (by omega) hmore
      · exact hclosed.next_unknown rfl hrest (hnone.trans_eq hidx.symm) hidx
    · rw [htorn] at hread
      rw [next_of_result h.fd hread nofun]
      have hne : s.rest ≠ [] := fun hnil => by
        rw [hnil, parse_nil] at htorn
        cases htorn
      have hi := (List.getElem?_eq_some_iff.1 h.segment).1
      have hfiles := j.length_files
      have hlast : ¬ i + 1 < j.files.length := fun hlt => hne (hl.wf.full i s h.segment hlt).2
      refine .torn h rfl ?_ hne (by omega)
      rw [← Journal.before_succ h.segment, Journal.before_of_le (i := i + 1) (by omega)]
      rw [Journal.before_of_le]
      have hinside := h.inside
      omega

/-! ## The start -/

/-- Nothing was opened yet, and the first file that is known has a complete header. -/
structure Fresh (r : JournalReader) (j : Journal) (L : Nat) : Prop where
  known : r.segments = j.names.take L
  bound : L ≤ j.names.length
  start : 0 < L → j.segments ≠ []
  fd : r.fd = none
  idx : r.nextSegmentIdx = 0
  offset : r.offset = 0
  last : r.lastGoodSeq = 0

theorem Fresh.next_nothing (h : r.Fresh j 0) : r.next d = (.endOfJournal r.offset, r) := by
  apply next_of_exhausted h.fd
  rw [openNextSegment, h.known, List.take_zero, List.length_nil, Nat.zero_sub]
  rfl

theorem Fresh.next (hl : j.Laid d) (h : r.Fresh j L) (hL : 0 < L) : Reads j L 0 (r.next d) := by
  obtain ⟨s, hs⟩ : ∃ s, j.segments[0]? = some s :=
    ⟨_, List.getElem?_eq_getElem (List.length_pos_of_ne_nil (h.start hL))⟩
  have hname : r.segments[0]? = some s.name := by
    rw [h.known, List.getElem?_take_of_lt hL, Journal.names_getElem? hs]
  rw [next_of_opened h.fd (openNextSegment_segment (s := s) hl (h.idx ▸ hs) (h.idx ▸ hname))]
  refine Open.next (i := 0) (m := 0) (s := s) hl ?_ rfl
  exact
    { known := h.known
      bound := h.bound
      inside := hL
      segment := hs
      le := Nat.zero_le _
      counter := rfl
      offset := rfl
      last := h.last
      fd := rfl
      path := rfl
      idx := congrArg (· + 1) h.idx }

/-! ## Looking again -/

theorem Stands.grow (h : r.Stands j L i m s) (hg : j.Grows j') : ∃ s', r.Stands j' L i m s' ∧
    s'.firstSeq = s.firstSeq := by
  obtain ⟨s', hs', hfirst, hcounter, hentries, -⟩ := hg.segment i s h.segment
  have hi := (List.getElem?_eq_some_iff.1 h.segment).1
  refine ⟨s', ?_, hfirst⟩
  exact
    { known := by
        rw [h.known, List.prefix_iff_eq_take.1 hg.names, List.take_take, Nat.min_eq_left h.bound]
      bound := h.bound.trans hg.names.length_le
      inside := h.inside
      segment := hs'
      le := h.le.trans hentries.length_le
      counter := h.counter.trans hcounter.symm
      offset := h.offset
      last := by rw [hg.before hi]; exact h.last }

theorem Open.grow (h : r.Open j L i m s) (hg : j.Grows j') : ∃ s', r.Open j' L i m s' := by
  obtain ⟨s', h', hfirst⟩ := h.toStands.grow hg
  have hname : s'.name = s.name := congrArg segmentName hfirst
  exact ⟨s', h', h.fd.trans (congrArg some hname.symm), h.path.trans hname.symm, h.idx⟩

theorem Fresh.grow (h : r.Fresh j L) (hg : j.Grows j') : r.Fresh j' L where
  known := by rw [h.known, List.prefix_iff_eq_take.1 hg.names, List.take_take, Nat.min_eq_left h.bound]
  bound := h.bound.trans hg.names.length_le
  start := by
    intro hL hnil
    have hle := hg.length_le
    rw [hnil, List.length_nil] at hle
    exact h.start hL (List.eq_nil_of_length_eq_zero (Nat.eq_zero_of_le_zero hle))
  fd := h.fd
  idx := h.idx
  offset := h.offset
  last := h.last

theorem Open.refresh (hl : j.Laid d) (h : r.Open j L i m s) :
    (r.refreshFileSize d).Open j L i m s ∧ (r.refreshFileSize d).fileSize = s.bytes.length := by
  have hopen : r.hasOpenSegment = true := by rw [hasOpenSegment, h.fd]; rfl
  rw [refreshFileSize, if_pos hopen, h.contents hl]
  refine ⟨?_, rfl⟩
  exact ⟨⟨h.known, h.bound, h.inside, h.segment, h.le, h.counter, h.offset, h.last⟩, h.fd, h.path,
    h.idx⟩

/-- The complete headers are those of the segments. -/
theorem found_eq (hl : j.Laid d) :
    ((d.list isJnl).filter fun e => SegmentHeader.size ≤ e.2.bytes.length).map Prod.fst =
      j.names.take j.segments.length := by
  have hfiles := hl.files
  have hfilter : ((d.list isJnl).filter fun e => SegmentHeader.size ≤ e.2.bytes.length).map Prod.fst =
      ((journalFiles d).filter fun x => SegmentHeader.size ≤ x.2.length).map Prod.fst := by
    rw [journalFiles, List.filter_map, List.map_map]
    rfl
  have hsegments : (j.segments.map fun s => (s.name, s.bytes)).filter
      (fun x => SegmentHeader.size ≤ x.2.length) = j.segments.map fun s => (s.name, s.bytes) := by
    rw [List.filter_eq_self]
    intro x hx
    obtain ⟨s, -, rfl⟩ := List.mem_map.1 hx
    rw [decide_eq_true_eq, Journal.length_bytes]
    omega
  have hstub : j.stubFiles.filter (fun x => SegmentHeader.size ≤ x.2.length) = [] := by
    rw [List.filter_eq_nil_iff]
    intro x hx
    obtain ⟨y, hy, rfl⟩ := List.mem_map.1 hx
    rw [decide_eq_true_eq]
    exact (hl.wf.stub y (Option.mem_toList.1 hy)).2.not_ge
  rw [hfilter, hfiles, Journal.files, List.filter_append, hsegments, hstub, List.append_nil,
    Journal.names, Journal.files, List.map_append, List.take_left' (by simp)]

/-- Of a sorted list, what is behind its `k`-th element. -/
theorem filter_behind {xs : List FileName} (hs : xs.Pairwise (· < ·)) {k : Nat} (hk : k < xs.length)
    (S : Nat) : (xs.take S).filter (fun p => xs[k] < p) = (xs.take S).drop (k + 1) := by
  have hlow : ∀ x ∈ xs.take (k + 1), ¬ xs[k] < x := by
    intro x hx
    obtain ⟨a, ha, rfl⟩ := List.getElem_of_mem hx
    rw [List.getElem_take]
    rw [List.length_take] at ha
    rcases Nat.lt_or_ge a k with hlt | hge
    · exact (List.pairwise_iff_getElem.1 hs a k _ hk hlt).not_gt
    · obtain rfl : a = k := by omega
      exact lt_irrefl _
  have hhigh : ∀ x ∈ xs.drop (k + 1), xs[k] < x := by
    intro x hx
    obtain ⟨a, ha, rfl⟩ := List.getElem_of_mem hx
    rw [List.getElem_drop]
    exact List.pairwise_iff_getElem.1 hs _ _ hk _ (by omega)
  have hfront : ((xs.take S).take (k + 1)).filter (fun p => xs[k] < p) = [] := by
    rw [List.filter_eq_nil_iff]
    intro x hx
    rw [decide_eq_true_eq]
    rw [List.take_take, Nat.min_comm, ← List.take_take] at hx
    exact hlow x (List.mem_of_mem_take hx)
  have hback : ((xs.take S).drop (k + 1)).filter (fun p => xs[k] < p) = (xs.take S).drop (k + 1) := by
    rw [List.filter_eq_self]
    intro x hx
    rw [decide_eq_true_eq]
    rw [List.drop_take] at hx
    exact hhigh x (List.mem_of_mem_take hx)
  calc (xs.take S).filter (fun p => xs[k] < p)
    _ = ((xs.take S).take (k + 1) ++ (xs.take S).drop (k + 1)).filter (fun p => xs[k] < p) := by
      rw [List.take_append_drop]
    _ = (xs.take S).drop (k + 1) := by rw [List.filter_append, hfront, hback, List.nil_append]

/-- After another look at the directory all complete headers are known. -/
theorem rescan_segments (hl : j.Laid d) (hknown : r.segments = j.names.take L)
    (hbound : L ≤ j.names.length) :
    (r.rescan d).segments = j.names.take (max L j.segments.length) := by
  change r.segments ++ List.filter _ _ = _
  rw [found_eq hl]
  cases L with
  | zero =>
    have hnil : r.segments = [] := hknown.trans List.take_zero
    rw [hnil, List.nil_append, Nat.zero_max, List.filter_eq_self]
    exact fun _ _ => rfl
  | succ k =>
    have hk : k < j.names.length := hbound
    have hlast : r.segments.getLast? = some j.names[k] := by
      rw [hknown, List.getLast?_eq_getElem?, List.length_take, Nat.min_eq_left hbound,
        Nat.add_sub_cancel, List.getElem?_take_of_lt (Nat.lt_succ_self k), List.getElem?_eq_getElem hk]
    simp only [hlast, Option.all_some]
    rw [filter_behind hl.sorted hk, hknown]
    rcases Nat.le_total j.segments.length (k + 1) with hle | hge
    · have hnil : (j.names.take j.segments.length).drop (k + 1) = [] := by
        apply List.drop_eq_nil_of_le
        rw [List.length_take]
        omega
      rw [hnil, List.append_nil, Nat.max_eq_left hle]
    · have htake : j.names.take (k + 1) = (j.names.take j.segments.length).take (k + 1) := by
        rw [List.take_take, Nat.min_eq_left hge]
      rw [htake, List.take_append_drop, Nat.max_eq_right hge]

/-! ## Seeking -/

/-- The segment with this counter, at this place. -/
def sought (r : JournalReader) (s : Segment) (i offset : Nat) : JournalReader :=
  { r.opened s with nextSegmentIdx := i + 1, offset := offset }

theorem seekLoop_eq (hl : j.Laid d) (hknown : r.segments = j.names.take L)
    (hbound : L ≤ j.names.length) (hs : j.segments[i]? = some s) (hi : i < L) (offset n : Nat)
    (hn : r.segments.length - n ≤ i) (hle : n ≤ r.segments.length) :
    seekLoop d s.createdCounter offset n r = (true, r.sought s i offset) := by
  have hlen : r.segments.length = L := by rw [hknown, List.length_take, Nat.min_eq_left hbound]
  have hsegment := (List.getElem?_eq_some_iff.1 hs).1
  induction n generalizing r with
  | zero => omega
  | succ n ih =>
    obtain ⟨k, hk⟩ : ∃ k, k = r.segments.length - (n + 1) := ⟨_, rfl⟩
    obtain ⟨s', hs'⟩ : ∃ s', j.segments[k]? = some s' := ⟨_, List.getElem?_eq_getElem (by omega)⟩
    have hname : r.segments[k]? = some s'.name := by
      rw [hknown, List.getElem?_take_of_lt (by omega), Journal.names_getElem? hs']
    rw [seekLoop, ← hk, openSegmentAtIndex_segment hl hs' hname]
    by_cases heq : k = i
    · subst heq
      obtain rfl : s' = s := Option.some.inj (hs'.symm.trans hs)
      exact if_pos rfl
    · -- another segment has another counter
      have hcounter : s'.createdCounter ≠ s.createdCounter := by
        intro hsame
        have hmap : ∀ {a : Nat} {x : Segment}, j.segments[a]? = some x →
            (j.segments.map Segment.createdCounter)[a]? = some x.createdCounter := by
          intro a x hx
          rw [List.getElem?_map, hx, Option.map_some]
        have hlt : k < (j.segments.map Segment.createdCounter).length := by
          rw [List.length_map]
          omega
        exact heq ((List.getElem?_inj hlt hl.wf.counters).1
          ((hmap hs').trans (hsame ▸ (hmap hs).symm)))
      refine (if_neg hcounter).trans ?_
      exact ih (r := (r.opened s').closeCurrent) hknown (by change r.segments.length - n ≤ i; omega)
        (by change n ≤ r.segments.length; omega) hlen

theorem seekTo_eq (hl : j.Laid d) (hknown : r.segments = j.names.take L)
    (hbound : L ≤ j.names.length) (hs : j.segments[i]? = some s) (hi : i < L) (offset : Nat)
    (lastGoodSeq : Int) : r.seekTo d s.createdCounter offset lastGoodSeq =
      (true, ({ r with lastGoodSeq := lastGoodSeq } : JournalReader).sought s i offset) := by
  have hlen : r.segments.length = L := by rw [hknown, List.length_take, Nat.min_eq_left hbound]
  exact seekLoop_eq (r := { r with fd := none, lastGoodSeq := lastGoodSeq }) hl hknown hbound hs hi
    offset r.segments.length (by change r.segments.length - r.segments.length ≤ i; omega) le_rfl

/-- A place in the journal, found again. -/
theorem open_sought (hknown : r.segments = j.names.take L) (hbound : L ≤ j.names.length) (hi : i < L)
    (hs : j.segments[i]? = some s) (hm : m ≤ s.entries.length)
    (hlast : r.lastGoodSeq = ((j.before i + m : Nat) : Int)) :
    (r.sought s i (SegmentHeader.size + kRecordSize * m)).Open j L i m s where
  known := hknown
  bound := hbound
  inside := hi
  segment := hs
  le := hm
  counter := rfl
  offset := rfl
  last := hlast
  fd := rfl
  path := rfl
  idx := rfl

end JournalReader

end Velox
