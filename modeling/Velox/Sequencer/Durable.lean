import Velox.Sequencer.Contents
import Velox.Sequencer.JournalWrites

/-!
# What survives of a journal

A directory that several writers have written one after the other, each until the power failed, is a
`Disk`: complete segments that are flushed as a whole, and a last file that holds a beginning of
what was to be written there, of which again a beginning is flushed. A crash keeps this shape, since
a beginning of a beginning is one (`Stands.crash`), and so does every byte of an `append`
(`append_keeps`). Neither loses a record that is flushed.

The counters in the headers do not matter here: a writer that starts after a clean end begins to
count at zero again.
-/

namespace Velox

open Bytes Storage Prog

/-- Complete segments one behind the other, the first of which begins with this number. -/
def Chained : Int → List Segment → Prop
  | _, [] => True
  | n, s :: ss => s.firstSeq = n ∧ s.rest = [] ∧ s.entries ≠ [] ∧
      Table.Numbered JournalEntry.seq n s.entries ∧ Chained (n + s.entries.length) ss

structure Disk where
  /-- The segments that are complete. -/
  complete : List Segment
  /-- What was to be written to the last file, and what has been. -/
  last : Option (Segment × File)

namespace Disk

def entries (x : Disk) : List JournalEntry :=
  x.complete.flatMap Segment.entries ++ x.last.elim [] (·.1.entries)

def files (x : Disk) : List (FileName × File) :=
  (x.complete.map fun s => (s.name, ⟨s.bytes, []⟩)) ++ x.last.toList.map fun l => (l.1.name, l.2)

/-- How many whole records there are in so many bytes of a segment. -/
def wholeRecords (len : Nat) : Nat := (len - SegmentHeader.size) / kRecordSize

/-- The records that are whole in this part of the last file. -/
def upTo (part : File → List UInt8) (x : Disk) : List JournalEntry :=
  x.complete.flatMap Segment.entries ++
    x.last.elim [] fun l => l.1.entries.take (wholeRecords (part l.2).length)

/-- The records that can be read. -/
def log (x : Disk) : List JournalEntry := x.upTo File.bytes

/-- The records that no crash takes away. -/
def flushed (x : Disk) : List JournalEntry := x.upTo File.durable

/-- Where a record begins that is not whole. -/
def resume (x : Disk) : Option Position :=
  x.last.bind fun l =>
    if (l.2.bytes.length - SegmentHeader.size) % kRecordSize = 0 then none
    else some ⟨l.1.name, SegmentHeader.size + kRecordSize * wholeRecords l.2.bytes.length,
      l.1.createdCounter⟩

/-- The last file is for the records behind the complete segments. -/
structure Follows (ss : List Segment) (s : Segment) (f : File) : Prop where
  firstSeq : s.firstSeq = JournalWriter.nextSeq ss
  numbered : Table.Numbered JournalEntry.seq s.firstSeq s.entries
  rest : s.rest = []
  written : f.bytes <+: s.bytes

structure Stands (x : Disk) (d : Directory FileName) : Prop where
  files : d.list isJnl = x.files
  chained : Chained 1 x.complete
  last : ∀ l ∈ x.last, Follows x.complete l.1 l.2
  small : (x.complete.flatMap Segment.entries).length + (x.last.elim [] (·.1.entries)).length + 1 <
    10 ^ 16

end Disk

/-! ## Reading -/

section Reading

variable {p : Position} {last : Int} {es : List JournalEntry} {later : Int → Reading}

theorem readOn_append (hnum : Table.Numbered JournalEntry.seq (last + 1) es)
    (hfits : ∀ e ∈ es, Fits64 e.seq) (bs : List UInt8) :
    readOn p last (es.flatMap JournalEntry.encode ++ bs) later =
      let rest := readOn { p with offset := p.offset + kRecordSize * es.length } (last + es.length) bs
        later
      { rest with records := es ++ rest.records } := by
  induction es generalizing p last with
  | nil => simp
  | cons e es ih =>
    obtain ⟨hseq, htail⟩ := Table.numbered_cons.1 hnum
    have hparse := parse_encode_append (hfits e List.mem_cons_self)
      (es.flatMap JournalEntry.encode ++ bs)
    have hoffset : p.offset + kRecordSize + kRecordSize * es.length =
        p.offset + kRecordSize * (e :: es).length := by
      rw [List.length_cons, Nat.mul_succ]
      omega
    have hlast : last + 1 + (es.length : Int) = last + (e :: es).length := by
      rw [List.length_cons]
      push_cast
      ring
    rw [List.flatMap_cons, List.append_assoc, readOn_record hparse hseq,
      List.drop_left' e.length_encode, hseq,
      ih htail fun e' he' => hfits e' (List.mem_cons_of_mem _ he')]
    simp only [hoffset, hlast, List.cons_append]

/-- A beginning of some records. -/
theorem readOn_take (hnum : Table.Numbered JournalEntry.seq (last + 1) es)
    (hfits : ∀ e ∈ es, Fits64 e.seq) {m : Nat} (hm : m ≤ kRecordSize * es.length) :
    readOn p last ((es.flatMap JournalEntry.encode).take m) (readFiles []) =
      ⟨es.take (m / kRecordSize), if m % kRecordSize = 0 then .clean else .torn,
        if m % kRecordSize = 0 then none
        else some { p with offset := p.offset + kRecordSize * (m / kRecordSize) }⟩ := by
  have hlen : (es.take (m / kRecordSize)).length = m / kRecordSize := by
    rw [List.length_take, min_eq_left (Nat.div_le_of_le_mul hm)]
  rw [take_flatMap_mod JournalEntry.length_encode,
    readOn_append (hnum.take _) fun e he => hfits e (List.mem_of_mem_take he), hlen]
  rcases Nat.eq_zero_or_pos (m % kRecordSize) with hzero | hpos
  · rw [hzero, List.take_zero, readOn_eof parse_nil]
    simp [readFiles]
  · have hlt : m % kRecordSize < kRecordSize := Nat.mod_lt _ (Nat.succ_pos _)
    cases hdrop : es.drop (m / kRecordSize) with
    | nil =>
      have hall := Nat.mul_le_mul_left kRecordSize (List.drop_eq_nil_iff.1 hdrop)
      have := Nat.div_add_mod m kRecordSize
      omega
    | cons e rest =>
      rw [List.flatMap_cons, List.take_append_of_le_length (by rw [e.length_encode]; exact hlt.le),
        readOn_torn (parse_take_encode e hpos hlt)]
      simp [hpos.ne']

theorem headerOf_encode (s : Segment) (bs : List UInt8) :
    headerOf (s.header.encode ++ bs) = some s.header := by
  have hlen : ¬ (s.header.encode ++ bs).length < SegmentHeader.size := by
    rw [List.length_append, s.header.length_encode]
    omega
  rw [headerOf, if_neg hlen, List.take_left' s.header.length_encode]
  exact SegmentHeader.decode_encode rfl rfl

theorem fits_of_numbered {first : Int} (h : Table.Numbered JournalEntry.seq first es) (h₁ : 1 ≤ first)
    (hsmall : first + es.length ≤ 10 ^ 16) : ∀ e ∈ es, Fits64 e.seq := by
  intro e he
  obtain ⟨hle, hlt⟩ := h.bounds he
  constructor <;> omega

theorem readFiles_chained {ss : List Segment} (h : Chained (last + 1) ss) (hlast : 0 ≤ last)
    (hsmall : last + 1 + (ss.flatMap Segment.entries).length ≤ 10 ^ 16)
    (fs : List (FileName × List UInt8)) :
    readFiles ((ss.map fun s => (s.name, s.bytes)) ++ fs) last =
      let rest := readFiles fs (last + (ss.flatMap Segment.entries).length)
      { rest with records := ss.flatMap Segment.entries ++ rest.records } := by
  induction ss generalizing last with
  | nil => simp
  | cons s ss ih =>
    obtain ⟨-, hrest, -, hnum, hchain⟩ := h
    have hbytes : s.bytes = s.header.encode ++ (s.entries.flatMap JournalEntry.encode ++ []) := by
      rw [Segment.bytes, hrest]
    rw [List.flatMap_cons, List.length_append, Nat.cast_add] at hsmall
    rw [add_right_comm] at hchain
    rw [List.map_cons, List.cons_append, readFiles, hbytes, headerOf_encode]
    dsimp only
    rw [List.drop_left' s.header.length_encode,
      readOn_append hnum (fits_of_numbered hnum (by omega) (by omega)), readOn_eof parse_nil,
      ih hchain (by omega) (by omega)]
    simp only [List.flatMap_cons, List.append_assoc, List.length_append, Nat.cast_add, add_assoc]

end Reading

namespace Disk

variable {x : Disk} {d : Directory FileName}

/-- **What a reader finds**: the whole records, and a torn tail if there is a part of one. -/
theorem Stands.contents_eq (h : x.Stands d) :
    contents d = ⟨x.log, if x.resume = none then .clean else .torn, x.resume⟩ := by
  obtain ⟨ss, last⟩ := x
  have hsmall := h.small
  dsimp only at hsmall
  have hfiles : journalFiles d = (ss.map fun s => (s.name, s.bytes)) ++
      last.toList.map fun l => (l.1.name, l.2.bytes) := by
    rw [journalFiles, h.files, Disk.files, List.map_append, List.map_map, List.map_map]
    congr 1
    refine List.map_congr_left fun s _ => ?_
    rw [Function.comp_apply, File.bytes, List.append_nil]
  rw [contents, hfiles, readFiles_chained h.chained le_rfl (by dsimp only; omega), zero_add]
  cases last with
  | none => simp [readFiles, log, upTo, resume]
  | some l =>
    obtain ⟨s, f⟩ := l
    obtain ⟨hfirst, hnum, hrest, hprefix⟩ := h.last (s, f) rfl
    dsimp only [Option.elim_some] at hfirst hnum hrest hprefix hsmall
    obtain ⟨m, hm⟩ : ∃ m, m = f.bytes.length := ⟨_, rfl⟩
    have hbytes : f.bytes = s.bytes.take m := by rw [hm]; exact List.prefix_iff_eq_take.1 hprefix
    have hle : m ≤ s.bytes.length := by rw [hm]; exact hprefix.length_le
    have hlen : s.header.encode.length = SegmentHeader.size := s.header.length_encode
    rw [Journal.length_bytes, hrest, List.length_nil, Nat.add_zero] at hle
    rw [Segment.bytes, hrest, List.append_nil] at hbytes
    rw [Option.toList_some, List.map_singleton, readFiles]
    simp only [log, upTo, resume, Option.elim_some, Option.bind_some, ← hm]
    rcases Nat.lt_or_ge m SegmentHeader.size with hlt | hge
    · -- the header is not complete, and the file is passed over
      have hno : headerOf f.bytes = none := by rw [headerOf, ← hm, if_pos hlt]
      have hzero : m - SegmentHeader.size = 0 := Nat.sub_eq_zero_of_le hlt.le
      simp [hno, readFiles, wholeRecords, hzero]
    · have hsplit : f.bytes = s.header.encode ++
          (s.entries.flatMap JournalEntry.encode).take (m - SegmentHeader.size) := by
        rw [hbytes, List.take_append, List.take_of_length_le (by omega), hlen]
      rw [hfirst, JournalWriter.nextSeq] at hnum
      rw [hsplit, headerOf_encode]
      dsimp only
      rw [List.drop_left' hlen,
        readOn_take hnum (fits_of_numbered hnum (by omega) (by omega)) (by omega)]
      by_cases hmod : (m - SegmentHeader.size) % kRecordSize = 0
      · simp [hmod, wholeRecords]
      · simp [hmod, wholeRecords, Segment.header]

/-! ## Crashes -/

/-- Everything that was written is flushed. -/
def Settled (x : Disk) : Prop := ∀ l ∈ x.last, l.2.pending = []

/-- There is no whole record in the last file. -/
def Idle (x : Disk) : Prop := ∀ l ∈ x.last, wholeRecords l.2.bytes.length = 0

theorem wholeRecords_mono {m n : Nat} (h : m ≤ n) : wholeRecords m ≤ wholeRecords n :=
  Nat.div_le_div_right (Nat.sub_le_sub_right h _)

theorem length_durable_le (f : File) : f.durable.length ≤ f.bytes.length := by
  rw [File.bytes, List.length_append]
  omega

theorem flushed_eq_log (h : x.Settled) : x.flushed = x.log := by
  obtain ⟨ss, last⟩ := x
  cases last with
  | none => rfl
  | some l => simp only [flushed, log, upTo, Option.elim_some, File.bytes, h l rfl, List.append_nil]

theorem Idle.upTo_eq (h : x.Idle) {part : File → List UInt8}
    (hpart : ∀ f, (part f).length ≤ f.bytes.length) :
    x.upTo part = x.complete.flatMap Segment.entries := by
  obtain ⟨ss, last⟩ := x
  cases last with
  | none => exact List.append_nil _
  | some l =>
    have hzero := (wholeRecords_mono (hpart l.2)).trans_eq (h l rfl)
    simp [upTo, Nat.le_zero.1 hzero]

/-- More is to be written to the last file, and more of it is there. -/
theorem upTo_subset {part part' : File → List UInt8} {ss : List Segment} {s s' : Segment} {f f' : File}
    (hentries : s.entries <+: s'.entries) (hlen : (part f).length ≤ (part' f').length) :
    ∀ e ∈ upTo part ⟨ss, some (s, f)⟩, e ∈ upTo part' ⟨ss, some (s', f')⟩ := by
  intro e he
  refine List.mem_append.2 ((List.mem_append.1 he).imp_right fun h => ?_)
  exact List.take_subset_take_left _ (wholeRecords_mono hlen) ((hentries.take _).subset h)

/-- **A crash** loses no record that was flushed, and leaves nothing that is not. -/
theorem Stands.crash (h : x.Stands d) (keep : FileName → Nat) : ∃ x' : Disk,
    x'.Stands (Directory.crash d keep) ∧ x'.Settled ∧ x'.entries = x.entries ∧
      ∀ e ∈ x.flushed, e ∈ x'.log := by
  obtain ⟨ss, last⟩ := x
  have hlist : (Directory.crash d keep).list isJnl =
      (d.list isJnl).map fun e => (e.1, e.2.crash (keep e.1)) := SortedMap.list_mapValues ..
  have hsealed : (ss.map fun s => (s.name, (⟨s.bytes, []⟩ : File))).map
      (fun e => (e.1, e.2.crash (keep e.1))) = ss.map fun s => (s.name, ⟨s.bytes, []⟩) := by
    rw [List.map_map]
    refine List.map_congr_left fun s _ => ?_
    rw [Function.comp_apply, File.crash_of_synced]
  rw [h.files, Disk.files, List.map_append, hsealed] at hlist
  cases last with
  | none => exact ⟨⟨ss, none⟩, ⟨hlist, h.chained, h.last, h.small⟩, by simp [Settled], rfl, fun e he => he⟩
  | some l =>
    obtain ⟨s, f⟩ := l
    obtain ⟨m, hdurable, hle, hcrash⟩ := f.crash_eq_take (keep s.name)
    have hfollows := h.last (s, f) rfl
    refine ⟨⟨ss, some (s, ⟨f.bytes.take m, []⟩)⟩, ⟨?_, h.chained, ?_, h.small⟩, by simp [Settled], rfl,
      upTo_subset List.prefix_rfl ?_⟩
    · rw [hlist, Disk.files, ← hcrash]
      rfl
    · have hwritten : File.bytes ⟨f.bytes.take m, []⟩ <+: s.bytes := by
        rw [File.bytes, List.append_nil]
        exact (List.take_prefix ..).trans hfollows.written
      simpa using { hfollows with written := hwritten }
    · rw [File.bytes, List.append_nil, List.length_take, min_eq_left hle]
      exact hdurable

/-! ## Steps of a writer -/

theorem chained_concat {n : Int} {ss : List Segment} {s : Segment} (h : Chained n ss)
    (hfirst : s.firstSeq = n + (ss.flatMap Segment.entries).length) (hrest : s.rest = [])
    (hne : s.entries ≠ []) (hnum : Table.Numbered JournalEntry.seq s.firstSeq s.entries) :
    Chained n (ss ++ [s]) := by
  induction ss generalizing n with
  | nil =>
    obtain rfl : s.firstSeq = n := by simpa using hfirst
    exact ⟨rfl, hrest, hne, hnum, trivial⟩
  | cons t ss ih =>
    obtain ⟨hfirst', hrest', hne', hnum', hchain⟩ := h
    refine ⟨hfirst', hrest', hne', hnum', ih hchain ?_⟩
    rw [hfirst, List.flatMap_cons, List.length_append]
    push_cast
    ring

theorem chained_firstSeq {n : Int} {ss : List Segment} (h : Chained n ss) :
    ∀ s ∈ ss, n ≤ s.firstSeq ∧ s.firstSeq < n + (ss.flatMap Segment.entries).length := by
  induction ss generalizing n with
  | nil => simp
  | cons t ss ih =>
    obtain ⟨hfirst, -, hne, -, hchain⟩ := h
    have hpos : 0 < t.entries.length := List.length_pos_of_ne_nil hne
    intro s hs
    rw [List.flatMap_cons, List.length_append]
    push_cast
    rcases List.mem_cons.1 hs with rfl | hs
    · omega
    · have := ih hchain s hs
      omega

theorem log_whole {ss : List Segment} {s : Segment} {f : File} (hbytes : f.bytes = s.bytes)
    (hrest : s.rest = []) : log ⟨ss, some (s, f)⟩ = ss.flatMap Segment.entries ++ s.entries := by
  have hlen : wholeRecords s.bytes.length = s.entries.length := by
    rw [wholeRecords, Journal.length_bytes, hrest, List.length_nil, Nat.add_zero,
      Nat.add_sub_cancel_left, Nat.mul_div_cancel_left _ (show 0 < kRecordSize from Nat.succ_pos _)]
  change _ ++ s.entries.take (wholeRecords f.bytes.length) = _
  rw [hbytes, hlen, List.take_length]

end Disk

/-! ## The writer -/

namespace JournalWriter

open Disk

/-- The directory holds records of the one kind only, and has flushed those in `kept`. -/
structure Holds (P : JournalEntry → Prop) (kept : List JournalEntry) (x : Disk)
    (d : Directory FileName) : Prop where
  stands : x.Stands d
  origin : ∀ e ∈ x.entries, P e
  flushed : ∀ e ∈ kept, e ∈ x.flushed

/-- What is so whenever the power fails. -/
def Keeps (P : JournalEntry → Prop) (kept : List JournalEntry) (_ : Unit) (d : Directory FileName) :
    Prop :=
  ∃ x, Holds P kept x d

/-- The last file is open and has only whole records. -/
structure At (w : JournalWriter) (s : Segment) (f : File) : Prop where
  fd : w.fd = some s.name
  whole : f.bytes = s.bytes
  synced : w.pendingUnsynced = 0 → f.pending = []

/-- The next record goes behind the last one of the log. -/
def Writes (w : JournalWriter) (x : Disk) : Prop :=
  w.fd = none ∧ x.Idle ∨ ∃ ss s f, x = ⟨ss, some (s, f)⟩ ∧ w.At s f

/-- A call has succeeded, and the last file is open behind these records. -/
def Opens (P : JournalEntry → Prop) (kept : List JournalEntry) (policy : FsyncPolicy)
    (log : List JournalEntry) (r : Bool × JournalWriter) (_ : Unit) (d : Directory FileName) : Prop :=
  r.1 = true ∧ r.2.policy = policy ∧ ∃ ss s f, Holds P kept ⟨ss, some (s, f)⟩ d ∧ r.2.At s f ∧
    Disk.log ⟨ss, some (s, f)⟩ = log

variable {P : JournalEntry → Prop} {kept : List JournalEntry} {w : JournalWriter} {x y : Disk}
  {d : Directory FileName} {ss : List Segment} {s : Segment} {f : File} {e : JournalEntry}

/-- Once nothing is pending, all of the log has been flushed. -/
theorem Holds.keep {es : List JournalEntry} (h : Holds P kept x d) (hsettled : x.Settled)
    (hes : ∀ e ∈ es, e ∈ x.log) : Holds P (kept ++ es) x d := by
  refine { h with flushed := fun e he => ?_ }
  rcases List.mem_append.1 he with hold | hnew
  · exact h.flushed e hold
  · rw [flushed_eq_log hsettled]
    exact hes e hnew

/-- A call that happens at once. -/
theorem atomic_keeps {c : Storage.Call FileName} (hsize : c.size = 1) (hzero : c.after 0 d = d)
    (h : Holds P kept x d) (h' : Holds P kept y (c.after 1 d)) : (sys c).Safe (Keeps P kept)
      (fun _ _ => True) (fun ok _ d => ok = true ∧ Holds P kept y d) () d :=
  have hkeeps : Keeps P kept () (c.after 1 d) := ⟨y, h'⟩
  safe_atomic hsize (fun _ => trivial) (by rw [hzero]; exact ⟨x, h⟩) trivial hkeeps ⟨rfl, h'⟩

/-- Something is done to the last file. -/
theorem Holds.modify (h : Holds P kept ⟨ss, some (s, f)⟩ d) (s' : Segment) (g : File → File)
    (hname : s'.name = s.name) (hfollows : Follows ss s' (g f))
    (horigin : ∀ e ∈ s'.entries, P e)
    (hsmall : (ss.flatMap Segment.entries).length + s'.entries.length + 1 < 10 ^ 16)
    (hflushed : ∀ e ∈ Disk.flushed ⟨ss, some (s, f)⟩, e ∈ Disk.flushed ⟨ss, some (s', g f)⟩) :
    Holds P kept ⟨ss, some (s', g f)⟩ (d.modify s.name g) := by
  have hfiles := h.stands.files
  rw [Disk.files, Option.toList_some, List.map_singleton] at hfiles
  refine ⟨⟨?_, h.stands.chained, by simpa using hfollows, hsmall⟩, fun e he => ?_,
    fun e he => hflushed e (h.flushed e he)⟩
  · rw [SortedMap.list_modify_last hfiles, Disk.files, ← hname]
    rfl
  · rcases List.mem_append.1 he with hold | hnew
    · exact h.origin e (List.mem_append_left _ hold)
    · exact horigin e hnew

theorem Holds.grow (h : Holds P kept ⟨ss, some (s, f)⟩ d) (g : File → File)
    (hwritten : (g f).bytes <+: s.bytes) (hdurable : f.durable.length ≤ (g f).durable.length) :
    Holds P kept ⟨ss, some (s, g f)⟩ (d.modify s.name g) :=
  h.modify s g rfl { h.stands.last _ rfl with written := hwritten }
    (fun e he => h.origin e (List.mem_append_right _ he)) h.stands.small
    (upTo_subset List.prefix_rfl hdurable)

theorem Holds.fsync (h : Holds P kept ⟨ss, some (s, f)⟩ d) :
    Holds P kept ⟨ss, some (s, f.fsync)⟩ (d.modify s.name File.fsync) :=
  h.grow File.fsync (by rw [File.bytes_fsync]; exact (h.stands.last _ rfl).written) (length_durable_le f)

/-- A file for the next records: a new one, or one that takes the place of a file without any. -/
theorem Holds.create (h : Holds P kept x d) (hidle : x.Idle) (counter : UInt64) :
    Holds P kept ⟨x.complete, some (⟨nextSeq x.complete, counter, [], []⟩, .empty)⟩
      (d.put (segmentName (nextSeq x.complete)) .empty) := by
  obtain ⟨ss, last⟩ := x
  have hsmall := h.stands.small
  have hfiles := h.stands.files
  dsimp only at hsmall
  refine ⟨⟨?_, h.stands.chained, ?_, ?_⟩, fun e he => h.origin e ?_, fun e he => ?_⟩
  · cases last with
    | none =>
      rw [Disk.files, Option.toList_none, List.map_nil, List.append_nil] at hfiles
      rw [SortedMap.list_put_append (isJnl_segmentName _), hfiles]
      · rfl
      · intro e he
        rw [hfiles] at he
        obtain ⟨t, ht, rfl⟩ := List.mem_map.1 he
        have hlt := chained_firstSeq h.stands.chained t ht
        dsimp only [nextSeq] at hlt ⊢
        exact segmentName_lt (by omega) (by omega) (by omega)
    | some l =>
      have hname : l.1.name = segmentName (nextSeq ss) := by
        rw [Segment.name, (h.stands.last l rfl).firstSeq]
      rw [Disk.files, Option.toList_some, List.map_singleton, hname] at hfiles
      exact SortedMap.list_put_last hfiles
  · simpa using ⟨rfl, .nil, rfl, List.nil_prefix⟩
  · dsimp only [Option.elim_some, List.length_nil]
    omega
  · exact List.mem_append_left _ (by simpa [Disk.entries] using he)
  · have hflushed := h.flushed e he
    rw [Disk.flushed, hidle.upTo_eq length_durable_le] at hflushed
    exact List.mem_append_left _ hflushed

/-- A segment that is flushed makes room for the next one. -/
theorem Holds.roll (h : Holds P kept ⟨ss, some (s, f)⟩ d) (hwhole : f.bytes = s.bytes)
    (hpending : f.pending = []) : ∃ x, Holds P kept x d ∧ x.Idle ∧ x.log = log ⟨ss, some (s, f)⟩ := by
  have hfollows := h.stands.last _ rfl
  have hsmall := h.stands.small
  have hlog : log ⟨ss, some (s, f)⟩ = _ := log_whole hwhole hfollows.rest
  by_cases hne : s.entries = []
  · have hzero : wholeRecords f.bytes.length = 0 := by
      rw [hwhole, wholeRecords, Journal.length_bytes, hfollows.rest, hne]
      rfl
    exact ⟨_, h, by simpa [Idle] using hzero, rfl⟩
  · have hall : (ss ++ [s]).flatMap Segment.entries = ss.flatMap Segment.entries ++ s.entries := by
      rw [List.flatMap_append, List.flatMap_singleton]
    refine ⟨⟨ss ++ [s], none⟩, ⟨⟨?_, ?_, by simp, ?_⟩, fun e he => h.origin e ?_, fun e he => ?_⟩,
      by simp [Idle], ?_⟩
    · have hfile : f = ⟨s.bytes, []⟩ := by
        rw [← hwhole, File.bytes, hpending, List.append_nil]
        cases f
        rw [← hpending]
      rw [h.stands.files, Disk.files, Disk.files, hfile]
      simp
    · refine chained_concat h.stands.chained ?_ hfollows.rest hne hfollows.numbered
      rw [hfollows.firstSeq, nextSeq, add_comm]
    · simpa [hall, Nat.add_assoc] using hsmall
    · simpa [Disk.entries, hall] using he
    · have hflushed := h.flushed e he
      rw [flushed_eq_log (by simpa [Settled] using hpending), hlog] at hflushed
      simpa [Disk.flushed, upTo, hall] using hflushed
    · rw [hlog, log, upTo, Option.elim_none, List.append_nil, hall]

theorem bytes_concat (hrest : s.rest = []) (e : JournalEntry) :
    Segment.bytes { s with entries := s.entries ++ [e] } = s.bytes ++ e.encode := by
  rw [Segment.bytes, Segment.bytes, hrest, List.append_nil, List.append_nil, List.append_assoc,
    List.flatMap_append, List.flatMap_singleton]
  rfl

/-- Part of a record behind the others. -/
theorem Holds.record (h : Holds P kept ⟨ss, some (s, f)⟩ d) (hw : w.At s f) (he : P e)
    (hseq : e.seq = nextSeq ss + s.entries.length)
    (hsmall : (ss.flatMap Segment.entries).length + s.entries.length + 2 < 10 ^ 16) (k : Nat) :
    Holds P kept ⟨ss, some ({ s with entries := s.entries ++ [e] }, f.write (e.encode.take k))⟩
      (d.modify s.name (·.write (e.encode.take k))) := by
  have hfollows := h.stands.last _ rfl
  refine h.modify { s with entries := s.entries ++ [e] } (·.write (e.encode.take k)) rfl
    ⟨hfollows.firstSeq, ?_, hfollows.rest, ?_⟩ (fun e' he' => ?_) ?_
    (upTo_subset (List.prefix_append ..) le_rfl)
  · refine hfollows.numbered.append (Table.numbered_cons.2 ⟨?_, .nil⟩)
    rw [hseq, hfollows.firstSeq]
  · rw [File.bytes_write, hw.whole, bytes_concat hfollows.rest, List.prefix_append_right_inj]
    exact List.take_prefix ..
  · rcases List.mem_append.1 he' with hold | hnew
    · exact h.origin e' (List.mem_append_right _ hold)
    · rwa [List.mem_singleton.1 hnew]
  · rw [List.length_append, List.length_singleton]
    omega

/-- The segment that the whole records of the last file make. -/
def wholePart (s : Segment) (f : File) : Segment :=
  { s with entries := s.entries.take (wholeRecords f.bytes.length) }

theorem bytes_wholePart (h : Follows ss s f) (hlen : SegmentHeader.size ≤ f.bytes.length) :
    f.bytes.take (SegmentHeader.size + kRecordSize * wholeRecords f.bytes.length) =
      (wholePart s f).bytes := by
  have hle : SegmentHeader.size + kRecordSize * wholeRecords f.bytes.length ≤ f.bytes.length := by
    have := Nat.mul_div_le (f.bytes.length - SegmentHeader.size) kRecordSize
    rw [wholeRecords]
    omega
  have htake : s.bytes.take f.bytes.length = f.bytes := (List.prefix_iff_eq_take.1 h.written).symm
  rw [← htake, List.take_take, htake, min_eq_left hle, Segment.bytes, Segment.bytes, h.rest,
    List.append_nil, ← s.header.length_encode, List.take_length_add_append, Nat.mul_comm,
    take_flatMap JournalEntry.length_encode]
  change _ = _ ++ (_ ++ s.rest)
  rw [h.rest, List.append_nil]
  rfl

/-- What is left of the last file without a part of a record. -/
theorem Holds.cut {f' : File} {d' : Directory FileName} (h : Holds P kept ⟨ss, some (s, f)⟩ d)
    (hpending : f.pending = []) (hbytes : f'.bytes = (wholePart s f).bytes) (hpending' : f'.pending = [])
    (hfiles : d'.list isJnl = Disk.files ⟨ss, some (wholePart s f, f')⟩) :
    Holds P kept ⟨ss, some (wholePart s f, f')⟩ d' ∧
      log ⟨ss, some (wholePart s f, f')⟩ = log ⟨ss, some (s, f)⟩ := by
  have hfollows := h.stands.last _ rfl
  have hlog : log ⟨ss, some (wholePart s f, f')⟩ = log ⟨ss, some (s, f)⟩ :=
    log_whole hbytes hfollows.rest
  have hwhole : Follows ss (wholePart s f) f' :=
    ⟨hfollows.firstSeq, hfollows.numbered.take _, hfollows.rest, hbytes ▸ List.prefix_rfl⟩
  have hle : (wholePart s f).entries.length ≤ s.entries.length := List.length_take_le' ..
  refine ⟨⟨⟨hfiles, h.stands.chained, by simpa using hwhole, ?_⟩, fun e he => h.origin e ?_,
    fun e he => ?_⟩, hlog⟩
  · exact lt_of_le_of_lt (Nat.succ_le_succ (Nat.add_le_add_left hle _)) h.stands.small
  · exact List.mem_append.2 ((List.mem_append.1 he).imp_right List.mem_of_mem_take)
  · have hflushed := h.flushed e he
    rw [flushed_eq_log (by simpa [Settled] using hpending)] at hflushed
    rw [flushed_eq_log (by simpa [Settled] using hpending'), hlog]
    exact hflushed

/-- After a clean end a new writer begins a new segment. -/
theorem Holds.restart (h : Holds P kept x d) (hsettled : x.Settled) (hresume : x.resume = none) :
    ∃ y, Holds P kept y d ∧ y.Idle ∧ y.log = x.log := by
  obtain ⟨ss, last⟩ := x
  cases last with
  | none => exact ⟨_, h, by simp [Idle], rfl⟩
  | some l =>
    obtain ⟨s, f⟩ := l
    have hpending : f.pending = [] := hsettled (s, f) rfl
    by_cases hzero : wholeRecords f.bytes.length = 0
    · exact ⟨_, h, by simpa [Idle] using hzero, rfl⟩
    · have hmod : (f.bytes.length - SegmentHeader.size) % kRecordSize = 0 := by
        by_contra hmod
        simp [resume, hmod] at hresume
      have hlen : SegmentHeader.size ≤ f.bytes.length := by
        by_contra hlt
        rw [wholeRecords, Nat.sub_eq_zero_of_le (by omega)] at hzero
        exact hzero rfl
      have hall : SegmentHeader.size + kRecordSize * wholeRecords f.bytes.length = f.bytes.length := by
        rw [wholeRecords, Nat.mul_div_cancel' (Nat.dvd_of_mod_eq_zero hmod)]
        omega
      have hbytes := bytes_wholePart (h.stands.last _ rfl) hlen
      rw [hall, List.take_length] at hbytes
      obtain ⟨hcut, hlog⟩ := h.cut hpending hbytes hpending h.stands.files
      obtain ⟨y, hy, hidle, hlog'⟩ := hcut.roll hbytes hpending
      exact ⟨y, hy, hidle, hlog'.trans hlog⟩

/-- After a torn tail it cuts off what is not whole. -/
theorem resumeFrom_keeps {p : Position} (h : Holds P kept x d) (hsettled : x.Settled)
    (hresume : x.resume = some p) (hfd : w.fd = none) (lastSeq : Int) :
    (w.resumeFrom p.path p.offset p.createdCounter lastSeq).Safe (Keeps P kept) (fun _ _ => True)
      (Opens P kept w.policy x.log) () d := by
  obtain ⟨ss, last⟩ := x
  cases last with
  | none => cases hresume
  | some l =>
    obtain ⟨s, f⟩ := l
    have hpending : f.pending = [] := hsettled (s, f) rfl
    simp only [resume, Option.bind_some] at hresume
    split_ifs at hresume with hmod
    obtain rfl := Option.some.inj hresume
    have hlen : SegmentHeader.size ≤ f.bytes.length := by
      by_contra hlt
      rw [Nat.sub_eq_zero_of_le (by omega)] at hmod
      exact hmod rfl
    obtain ⟨offset, hoffset⟩ : ∃ n, n = SegmentHeader.size + kRecordSize * wholeRecords f.bytes.length :=
      ⟨_, rfl⟩
    have hbytes : (f.truncate offset).bytes = (wholePart s f).bytes := by
      rw [File.bytes_truncate, hoffset, bytes_wholePart (h.stands.last _ rfl) hlen]
    have hpending' : (f.truncate offset).pending = [] := by
      rw [File.truncate, hpending, List.take_nil]
    rw [resumeFrom, close, hfd, ← hoffset]
    refine Safe.bind (Q := fun w' _ d' => w = w' ∧ d = d') ⟨rfl, rfl⟩ ?_
    rintro _ _ _ ⟨rfl, rfl⟩
    refine Safe.bind (atomic_keeps rfl rfl h h) ?_
    rintro _ _ d₁ ⟨rfl, h₁⟩
    have hfiles := h₁.stands.files
    rw [Disk.files, Option.toList_some, List.map_singleton] at hfiles
    obtain ⟨hcut, hlog⟩ := h₁.cut hpending hbytes hpending'
      (SortedMap.list_modify_last hfiles (·.truncate offset))
    refine Safe.bind (atomic_keeps rfl rfl h₁ hcut) ?_
    rintro _ _ d₂ ⟨rfl, h₂⟩
    exact ⟨rfl, rfl, ss, wholePart s f, _, h₂, ⟨rfl, hbytes, fun _ => hpending'⟩, hlog⟩

end JournalWriter

end Velox
