import Velox.Sequencer.JournalLayout

/-!
# Writing a journal

What an `append` does to the journal that the directory stands for, byte by byte (`append_safe`): a
new file without a complete header, a new segment, part of a record, one more record. Whoever reads
in the meantime sees the journal grow.
-/

namespace Velox

open Bytes Storage Prog

/-! ## Names -/

theorem toNat_u64OfSeq {x : Int} (h₀ : 0 ≤ x) (h : x < 2 ^ 63) : ((u64OfSeq x).toNat : Int) = x := by
  change ((BitVec.ofInt 64 x).toNat : Int) = x
  rw [BitVec.toNat_ofInt]
  omega

theorem segmentName_lt {a b : Int} (h₀ : 0 ≤ a) (h : a < b) (hb : b < 10 ^ 16) :
    segmentName a < segmentName b := by
  have ha' := toNat_u64OfSeq h₀ (by omega : a < 2 ^ 63)
  have hb' := toNat_u64OfSeq (by omega : 0 ≤ b) (by omega : b < 2 ^ 63)
  have hlt : Digits.padded (u64OfSeq a).toNat ++ ['.', 'j', 'n', 'l'] <
      Digits.padded (u64OfSeq b).toNat ++ ['.', 'j', 'n', 'l'] :=
    Digits.padded_append_lt (by omega) (by omega) _ _
  rw [segmentName, segmentName]
  simpa [List.cons_lt_cons_iff] using hlt

theorem isJnl_segmentName (q : Int) : isJnl (segmentName q) = true := by
  rw [isJnl, segmentName, Bool.and_eq_true]
  constructor
  · simp
  · rw [List.isSuffixOf_iff_suffix, ← List.append_assoc]
    exact List.suffix_append ..

/-! ## Calls -/

section Calls

variable {d : Directory FileName} {n : FileName} {xs : List (FileName × List UInt8)} {bs : List UInt8}

/-- The last file of a listing. -/
theorem list_of_journalFiles (h : journalFiles d = xs ++ [(n, bs)]) : ∃ es f,
    d.list isJnl = es ++ [(n, f)] ∧ es.map (fun e => (e.1, e.2.bytes)) = xs ∧ f.bytes = bs := by
  obtain ⟨es, last, hlist, hes, hlast⟩ := List.map_eq_append_iff.1 h
  obtain ⟨⟨n', f⟩, rfl, heq⟩ := List.map_eq_singleton_iff.1 hlast
  obtain ⟨rfl, rfl⟩ := Prod.mk.inj heq
  exact ⟨es, f, hlist, hes, rfl⟩

theorem journalFiles_create_new (hn : isJnl n = true) (hlt : ∀ x ∈ journalFiles d, x.1 < n) :
    journalFiles (d.put n .empty) = journalFiles d ++ [(n, [])] := by
  have hlist : ∀ e ∈ d.list isJnl, e.1 < n := fun e he => hlt _ (List.mem_map_of_mem he)
  rw [journalFiles, SortedMap.list_put_append hn hlist, List.map_append]
  rfl

theorem journalFiles_create_last (h : journalFiles d = xs ++ [(n, bs)]) :
    journalFiles (d.put n .empty) = xs ++ [(n, [])] := by
  obtain ⟨es, f, hlist, rfl, -⟩ := list_of_journalFiles h
  rw [journalFiles, SortedMap.list_put_last hlist, List.map_append]
  rfl

theorem journalFiles_modify_last (h : journalFiles d = xs ++ [(n, bs)]) (g : File → File)
    (g' : List UInt8 → List UInt8) (hg : ∀ f, (g f).bytes = g' f.bytes) :
    journalFiles (d.modify n g) = xs ++ [(n, g' bs)] := by
  obtain ⟨es, f, hlist, rfl, rfl⟩ := list_of_journalFiles h
  rw [journalFiles, SortedMap.list_modify_last hlist, List.map_append, ← hg f]
  rfl

end Calls

/-! ## The shapes of a journal -/

namespace Journal

theorem files_none (ss : List Segment) : files ⟨ss, none⟩ = ss.map fun s => (s.name, s.bytes) :=
  List.append_nil _

theorem files_some (ss : List Segment) (x : Int × List UInt8) : files ⟨ss, some x⟩ =
    (ss.map fun s => (s.name, s.bytes)) ++ [(segmentName x.1, x.2)] := rfl

variable {ss : List Segment} {s : Segment} {x : Int × List UInt8} {e : JournalEntry}

/-- Segments that are complete. -/
structure Sealed (ss : List Segment) : Prop where
  numbered : Table.Numbered JournalEntry.seq 1 (ss.flatMap Segment.entries)
  firstSeq : ∀ (i : Nat) (s : Segment), ss[i]? = some s →
    s.firstSeq = (((ss.take i).flatMap Segment.entries).length : Int) + 1
  full : ∀ s ∈ ss, s.entries ≠ [] ∧ s.rest = []
  counters : (ss.map Segment.createdCounter).Nodup

/-- A segment behind others. -/
structure Follows (ss : List Segment) (s : Segment) : Prop where
  firstSeq : s.firstSeq = ((ss.flatMap Segment.entries).length : Int) + 1
  numbered : Table.Numbered JournalEntry.seq s.firstSeq s.entries
  counter : s.createdCounter ∉ ss.map Segment.createdCounter

theorem before_concat {i : Nat} (t : Segment) (stub : Option (Int × List UInt8))
    (hi : i ≤ ss.length) :
    before ⟨ss ++ [t], stub⟩ i = ((ss.take i).flatMap Segment.entries).length := by
  rw [before, List.take_append_of_le_length hi]

theorem wf_open : Wf ⟨ss ++ [s], none⟩ ↔ Sealed ss ∧ Follows ss s ∧
    (s.rest = [] ∨ parse s.rest = .torn) ∧
    (ss.flatMap Segment.entries).length + s.entries.length + 1 < 10 ^ 16 := by
  have hentries : entries ⟨ss ++ [s], none⟩ = ss.flatMap Segment.entries ++ s.entries := by
    rw [entries, List.flatMap_append, List.flatMap_singleton]
  have hfiles : files ⟨ss ++ [s], none⟩ = (ss ++ [s]).map fun s => (s.name, s.bytes) :=
    List.append_nil _
  have hnodup : ((ss ++ [s]).map Segment.createdCounter).Nodup ↔
      (ss.map Segment.createdCounter).Nodup ∧ s.createdCounter ∉ ss.map Segment.createdCounter := by
    rw [List.map_append, List.map_singleton, List.nodup_append_comm, List.singleton_append,
      List.nodup_cons, and_comm]
  constructor
  · intro h
    have hnumbered := h.numbered
    rw [hentries, Table.numbered_append] at hnumbered
    obtain ⟨hfirsts, hfirst⟩ := forall_getElem?_concat.1 h.firstSeq
    rw [before_concat s none le_rfl, List.take_length] at hfirst
    obtain ⟨hcounters, hcounter⟩ := hnodup.1 h.counters
    have hsmall := h.small
    rw [hentries, List.length_append] at hsmall
    refine ⟨⟨hnumbered.1, fun i t ht => ?_, fun t ht => ?_, hcounters⟩,
      ⟨hfirst, ?_, hcounter⟩, h.rest s (List.mem_append_right _ List.mem_cons_self), hsmall⟩
    · rw [hfirsts i t ht, before_concat s none (List.getElem?_eq_some_iff.1 ht).1.le]
    · obtain ⟨i, hi⟩ := List.mem_iff_getElem?.1 ht
      have hlt := (List.getElem?_eq_some_iff.1 hi).1
      refine h.full i t (by rwa [List.getElem?_append_left hlt]) ?_
      rw [hfiles, List.length_map, List.length_append]
      exact Nat.succ_lt_succ hlt
    · rw [hfirst, add_comm]
      exact hnumbered.2
  · rintro ⟨hsealed, hfollows, hrest, hsmall⟩
    refine ⟨?_, forall_getElem?_concat.2 ⟨fun i t ht => ?_, ?_⟩, forall_getElem?_concat.2 ⟨fun i t ht _ =>
      hsealed.full t (List.mem_of_getElem? ht), fun hlt => ?_⟩, ?_, fun x hx => absurd hx (Option.some_ne_none x).symm,
      hnodup.2 ⟨hsealed.counters, hfollows.counter⟩, ?_⟩
    · rw [hentries, Table.numbered_append, add_comm, ← hfollows.firstSeq]
      exact ⟨hsealed.numbered, hfollows.numbered⟩
    · rw [hsealed.firstSeq i t ht, before_concat s none (List.getElem?_eq_some_iff.1 ht).1.le]
    · rw [before_concat s none le_rfl, List.take_length]
      exact hfollows.firstSeq
    · rw [hfiles, List.length_map, List.length_append] at hlt
      exact absurd hlt (lt_irrefl _)
    · intro t ht
      rcases List.mem_append.1 ht with ht | ht
      · exact .inl (hsealed.full t ht).2
      · rw [List.mem_singleton.1 ht]
        exact hrest
    · rw [hentries, List.length_append]
      exact hsmall

theorem wf_stub : Wf ⟨ss, some x⟩ ↔ Sealed ss ∧
    x.1 = ((ss.flatMap Segment.entries).length : Int) + 1 ∧ x.2.length < SegmentHeader.size ∧
    (ss.flatMap Segment.entries).length + 1 < 10 ^ 16 := by
  constructor
  · intro h
    obtain ⟨hfirst, hlen⟩ := h.stub x rfl
    refine ⟨⟨h.numbered, h.firstSeq, fun t ht => ?_, h.counters⟩, hfirst, hlen, h.small⟩
    obtain ⟨i, hi⟩ := List.mem_iff_getElem?.1 ht
    refine h.full i t hi ?_
    rw [length_files]
    exact Nat.succ_lt_succ (List.getElem?_eq_some_iff.1 hi).1
  · rintro ⟨hsealed, hfirst, hlen, hsmall⟩
    refine ⟨hsealed.numbered, hsealed.firstSeq, fun i t ht _ => hsealed.full t (List.mem_of_getElem? ht),
      fun t ht => .inl (hsealed.full t ht).2, ?_, hsealed.counters, hsmall⟩
    intro y hy
    obtain rfl := Option.some.inj hy
    exact ⟨hfirst, hlen⟩

theorem sealed_concat (h : Sealed ss) (hs : Follows ss s) (hne : s.entries ≠ []) (hrest : s.rest = []) :
    Sealed (ss ++ [s]) where
  numbered := by
    rw [List.flatMap_append, List.flatMap_singleton, Table.numbered_append, add_comm, ← hs.firstSeq]
    exact ⟨h.numbered, hs.numbered⟩
  firstSeq := by
    refine forall_getElem?_concat.2 ⟨fun i t ht => ?_, ?_⟩
    · rw [List.take_append_of_le_length (List.getElem?_eq_some_iff.1 ht).1.le]
      exact h.firstSeq i t ht
    · rw [List.take_left]
      exact hs.firstSeq
  full := by
    intro t ht
    rcases List.mem_append.1 ht with ht | ht
    · exact h.full t ht
    · rw [List.mem_singleton.1 ht]
      exact ⟨hne, hrest⟩
  counters := by
    rw [List.map_append, List.map_singleton, List.nodup_append_comm, List.singleton_append,
      List.nodup_cons]
    exact ⟨hs.counter, h.counters⟩

/-! ## Growth -/

theorem grows_last {s' : Segment} (hfirst : s'.firstSeq = s.firstSeq)
    (hcounter : s'.createdCounter = s.createdCounter) (hentries : s.entries <+: s'.entries) :
    Grows ⟨ss ++ [s], none⟩ ⟨ss ++ [s'], none⟩ where
  names := by
    have hnames : names ⟨ss ++ [s], none⟩ = names ⟨ss ++ [s'], none⟩ := by
      simp [names, files, stubFiles, Segment.name, hfirst]
    rw [hnames]
  segment := by
    refine forall_getElem?_concat.2 ⟨fun i t ht => ?_, ?_⟩
    · refine ⟨t, ?_, rfl, rfl, List.prefix_rfl, fun _ => rfl⟩
      rwa [List.getElem?_append_left (List.getElem?_eq_some_iff.1 ht).1]
    · refine ⟨s', List.getElem?_concat_length, hfirst, hcounter, hentries, fun hlt => ?_⟩
      rw [List.length_append] at hlt
      exact absurd hlt (lt_irrefl _)

theorem grows_stub {stub : Option (Int × List UInt8)} (h : ∀ y ∈ stub, y.1 = x.1) :
    Grows ⟨ss, stub⟩ ⟨ss, some x⟩ where
  names := by
    cases stub with
    | none => simp [names, files, stubFiles]
    | some y => simp [names, files, stubFiles, h y rfl]
  segment i t ht := ⟨t, ht, rfl, rfl, List.prefix_rfl, fun _ => rfl⟩

theorem grows_opened (h : s.firstSeq = x.1) : Grows ⟨ss, some x⟩ ⟨ss ++ [s], none⟩ where
  names := by
    have hnames : names ⟨ss, some x⟩ = names ⟨ss ++ [s], none⟩ := by
      simp [names, files, stubFiles, Segment.name, h]
    rw [hnames]
  segment i t ht := by
    refine ⟨t, ?_, rfl, rfl, List.prefix_rfl, fun _ => rfl⟩
    rwa [List.getElem?_append_left (List.getElem?_eq_some_iff.1 ht).1]

end Journal

namespace JournalWriter

open Journal

variable {w : JournalWriter} {d : Directory FileName} {ss : List Segment} {s : Segment}
  {stub : Option (Int × List UInt8)} {e : JournalEntry}

/-! ## A new segment -/

/-- The number of the next record. -/
def nextSeq (ss : List Segment) : Int := ((ss.flatMap Segment.entries).length : Int) + 1

/-- All segments come before the one that begins with the next number. -/
theorem name_lt_nextSeq (h : Sealed ss) (hsmall : nextSeq ss < 10 ^ 16) :
    ∀ t ∈ ss, t.name < segmentName (nextSeq ss) := by
  intro t ht
  obtain ⟨i, hi⟩ := List.mem_iff_getElem?.1 ht
  have hfirst := h.firstSeq i t hi
  have hle : ((ss.take i).flatMap Segment.entries).length + t.entries.length ≤
      (ss.flatMap Segment.entries).length := before_le (j := ⟨ss, none⟩) hi
  have hpos : 0 < t.entries.length := List.length_pos_of_ne_nil (h.full t ht).1
  rw [nextSeq] at hsmall ⊢
  exact segmentName_lt (by omega) (by omega) hsmall

theorem laid_create (hl : Laid ⟨ss, stub⟩ d) (hsealed : Sealed ss) :
    Laid ⟨ss, some (nextSeq ss, [])⟩ (d.put (segmentName (nextSeq ss)) .empty) := by
  have hsmall : nextSeq ss < 10 ^ 16 := by
    have hlt : (ss.flatMap Segment.entries).length + 1 < 10 ^ 16 := hl.wf.small
    rw [nextSeq]
    omega
  have hfiles := hl.files
  refine ⟨wf_stub.2 ⟨hsealed, rfl, Nat.succ_pos 31, hl.wf.small⟩, ?_⟩
  rw [files_some]
  cases stub with
  | none =>
    rw [files_none] at hfiles
    rw [journalFiles_create_new (isJnl_segmentName _), hfiles]
    intro y hy
    rw [hfiles] at hy
    obtain ⟨t, ht, rfl⟩ := List.mem_map.1 hy
    exact name_lt_nextSeq hsealed hsmall t ht
  | some x =>
    have hx : x.1 = nextSeq ss := (hl.wf.stub x rfl).1
    rw [files_some, hx] at hfiles
    exact journalFiles_create_last hfiles

/-- The header of the new segment, as much as there is of it. -/
theorem laid_header {bs cs : List UInt8} (hl : Laid ⟨ss, some (nextSeq ss, bs)⟩ d)
    (hlen : (bs ++ cs).length < SegmentHeader.size) : Laid ⟨ss, some (nextSeq ss, bs ++ cs)⟩
      (d.modify (segmentName (nextSeq ss)) (·.write cs)) := by
  obtain ⟨hsealed, hfirst, -, hsmall⟩ := wf_stub.1 hl.wf
  have hfiles := hl.files
  rw [files_some] at hfiles
  refine ⟨wf_stub.2 ⟨hsealed, hfirst, hlen, hsmall⟩, ?_⟩
  rw [files_some]
  exact journalFiles_modify_last hfiles _ (· ++ cs) fun f => f.bytes_write cs

theorem laid_opened {counter : UInt64} (hl : Laid ⟨ss, some (nextSeq ss, [])⟩ d)
    (hcounter : counter ∉ ss.map Segment.createdCounter) :
    Laid ⟨ss ++ [⟨nextSeq ss, counter, [], []⟩], none⟩ (d.modify (segmentName (nextSeq ss))
      (·.write (Segment.header ⟨nextSeq ss, counter, [], []⟩).encode)) := by
  obtain ⟨hsealed, -, -, hsmall⟩ := wf_stub.1 hl.wf
  have hfiles := hl.files
  rw [files_some] at hfiles
  refine ⟨wf_open.2 ⟨hsealed, ⟨rfl, .nil, hcounter⟩, .inl rfl, hsmall⟩, ?_⟩
  have hbytes : Segment.bytes ⟨nextSeq ss, counter, [], []⟩ =
      [] ++ (Segment.header ⟨nextSeq ss, counter, [], []⟩).encode := by
    rw [Segment.bytes, List.flatMap_nil, List.append_nil, List.append_nil, List.nil_append]
  rw [files_none, List.map_append, List.map_singleton, hbytes, Segment.name]
  exact journalFiles_modify_last hfiles _ (· ++ _) fun f => f.bytes_write _

/-- The header of a new segment is written. -/
theorem header_safe {counter : UInt64} {header : List UInt8}
    (hheader : header = (Segment.header ⟨nextSeq ss, counter, [], []⟩).encode)
    (hl : Laid ⟨ss, some (nextSeq ss, [])⟩ d)
    (hcounter : counter ∉ ss.map Segment.createdCounter) :
    (sys (.write (segmentName (nextSeq ss)) header)).Safe Laid Grows (fun ok j d => ok = true ∧
      j = ⟨ss ++ [⟨nextSeq ss, counter, [], []⟩], none⟩ ∧ j.Laid d)
      ⟨ss, some (nextSeq ss, [])⟩ d := by
  have hlen : header.length = SegmentHeader.size := by
    rw [hheader]
    exact SegmentHeader.length_encode _
  have hopened := laid_opened hl hcounter
  rw [← hheader] at hopened
  refine safe_sys (fun k => if k < SegmentHeader.size then ⟨ss, some (nextSeq ss, header.take k)⟩
    else ⟨ss ++ [⟨nextSeq ss, counter, [], []⟩], none⟩) rfl ?_ ?_ ?_
  · intro k l hkl _
    split_ifs with hk hl
    · exact grows_stub fun y hy => by rw [← Option.some.inj hy]
    · exact grows_opened rfl
    · omega
    · exact Grows.refl _
  · intro k hk
    change k ≤ header.length at hk
    change Laid _ (d.modify (segmentName (nextSeq ss)) (·.write (header.take k)))
    split_ifs with hlt
    · refine laid_header hl ?_
      rw [List.nil_append, List.length_take]
      omega
    · rw [List.take_of_length_le (by omega)]
      exact hopened
  · have hsize : ¬ header.length < SegmentHeader.size := by omega
    refine ⟨rfl, if_neg hsize, ?_⟩
    change Laid (if header.length < SegmentHeader.size then _ else _)
      (d.modify (segmentName (nextSeq ss)) (·.write (header.take header.length)))
    rw [if_neg hsize, List.take_length]
    exact hopened

/-! ## Flushing -/

/-- What is flushed was there before. -/
theorem laid_fsync (hl : Laid ⟨ss ++ [s], none⟩ d) :
    Laid ⟨ss ++ [s], none⟩ (d.modify s.name File.fsync) := by
  have hfiles := hl.files
  rw [files_none, List.map_append, List.map_singleton] at hfiles
  refine ⟨hl.wf, ?_⟩
  rw [files_none, List.map_append, List.map_singleton]
  exact journalFiles_modify_last hfiles _ id fun f => f.bytes_fsync

theorem fsync_safe {n : FileName} (hn : n = s.name) (hl : Laid ⟨ss ++ [s], none⟩ d) :
    (sys (.fsync n)).Safe Laid Grows
      (fun ok j d => ok = true ∧ j = ⟨ss ++ [s], none⟩ ∧ j.Laid d) ⟨ss ++ [s], none⟩ d := by
  rw [hn]
  exact safe_atomic rfl Grows.refl hl (Grows.refl _) (laid_fsync hl) ⟨rfl, rfl, laid_fsync hl⟩

theorem sync_safe (hfd : w.fd = some s.name) (hl : Laid ⟨ss ++ [s], none⟩ d) :
    w.sync.Safe Laid Grows (fun r j d => r = (true, { w with pendingUnsynced := 0 }) ∧
      j = ⟨ss ++ [s], none⟩ ∧ j.Laid d) ⟨ss ++ [s], none⟩ d := by
  rw [sync, hfd]
  refine Safe.bind (fsync_safe rfl hl) ?_
  rintro _ _ d₁ ⟨rfl, rfl, hl₁⟩
  exact ⟨rfl, rfl, hl₁⟩

theorem openSegment_safe (hl : Laid ⟨ss, none⟩ d) (hsealed : Sealed ss)
    (hcounter : w.createdCounter ∉ ss.map Segment.createdCounter) :
    (w.openSegment (nextSeq ss)).Safe Laid Grows (fun r j d =>
      r = (true, { w with
        createdCounter := w.createdCounter + 1
        fd := some (segmentName (nextSeq ss))
        bytesInSegment := SegmentHeader.size }) ∧
      j = ⟨ss ++ [⟨nextSeq ss, w.createdCounter, [], []⟩], none⟩ ∧ j.Laid d) ⟨ss, none⟩ d := by
  have hnew := laid_create hl hsealed
  rw [openSegment]
  refine Safe.bind (Q := fun ok j d => ok = true ∧ j = ⟨ss, some (nextSeq ss, [])⟩ ∧ j.Laid d)
    (safe_atomic rfl Grows.refl hl (grows_stub nofun) hnew ⟨rfl, rfl, hnew⟩) ?_
  rintro _ _ d₁ ⟨rfl, rfl, hl₁⟩
  refine Safe.bind (header_safe rfl hl₁ hcounter) ?_
  rintro _ _ d₂ ⟨rfl, rfl, hl₂⟩
  refine Safe.bind (fsync_safe rfl hl₂) ?_
  rintro _ _ d₃ ⟨rfl, rfl, hl₃⟩
  exact ⟨rfl, rfl, hl₃⟩

/-! ## Records -/

/-- Part of a record behind the others. -/
theorem laid_partial (hl : Laid ⟨ss ++ [s], none⟩ d) (hrest : s.rest = []) (e : JournalEntry)
    {k : Nat} (hk : k < kRecordSize) :
    Laid ⟨ss ++ [{ s with rest := e.encode.take k }], none⟩
      (d.modify s.name (·.write (e.encode.take k))) := by
  obtain ⟨hsealed, hfollows, -, hsmall⟩ := wf_open.1 hl.wf
  have hfiles := hl.files
  rw [files_none, List.map_append, List.map_singleton] at hfiles
  refine ⟨wf_open.2 ⟨hsealed, ⟨hfollows.firstSeq, hfollows.numbered, hfollows.counter⟩, ?_, hsmall⟩, ?_⟩
  · rcases Nat.eq_zero_or_pos k with rfl | hpos
    · exact .inl rfl
    · exact .inr (parse_take_encode e hpos hk)
  · have hbytes : Segment.bytes { s with rest := e.encode.take k } = s.bytes ++ e.encode.take k := by
      rw [Segment.bytes, Segment.bytes, hrest, List.append_nil, List.append_assoc]
      rfl
    rw [files_none, List.map_append, List.map_singleton, hbytes]
    exact journalFiles_modify_last hfiles _ (· ++ _) fun f => f.bytes_write _

theorem laid_record (hl : Laid ⟨ss ++ [s], none⟩ d) (hrest : s.rest = [])
    (hseq : e.seq = nextSeq (ss ++ [s])) (hsmall : nextSeq (ss ++ [s]) + 1 < 10 ^ 16) :
    Laid ⟨ss ++ [{ s with entries := s.entries ++ [e] }], none⟩
      (d.modify s.name (·.write e.encode)) := by
  obtain ⟨hsealed, hfollows, -, -⟩ := wf_open.1 hl.wf
  have hfiles := hl.files
  rw [files_none, List.map_append, List.map_singleton] at hfiles
  have hlen : ((ss ++ [s]).flatMap Segment.entries).length =
      (ss.flatMap Segment.entries).length + s.entries.length := by
    rw [List.flatMap_append, List.flatMap_singleton, List.length_append]
  rw [nextSeq, hlen] at hseq hsmall
  have hfirst := hfollows.firstSeq
  refine ⟨wf_open.2 ⟨hsealed, ⟨hfirst, hfollows.numbered.append ?_, hfollows.counter⟩, .inl hrest, ?_⟩,
    ?_⟩
  · intro i r hr
    obtain ⟨rfl, rfl⟩ : i = 0 ∧ r = e := by
      cases i with
      | zero => exact ⟨rfl, (Option.some.inj hr).symm⟩
      | succ i => cases hr
    omega
  · rw [List.length_append, List.length_singleton]
    omega
  · have hbytes : Segment.bytes { s with entries := s.entries ++ [e] } = s.bytes ++ e.encode := by
      rw [Segment.bytes, Segment.bytes, hrest, List.append_nil, List.append_nil, List.append_assoc,
        List.flatMap_append, List.flatMap_singleton]
      rfl
    rw [files_none, List.map_append, List.map_singleton, hbytes]
    exact journalFiles_modify_last hfiles _ (· ++ _) fun f => f.bytes_write _

/-- A record is written behind the others. -/
theorem record_safe {n : FileName} (hn : n = s.name) (hl : Laid ⟨ss ++ [s], none⟩ d)
    (hrest : s.rest = []) (hseq : e.seq = nextSeq (ss ++ [s]))
    (hsmall : nextSeq (ss ++ [s]) + 1 < 10 ^ 16) :
    (sys (.write n e.encode)).Safe Laid Grows (fun ok j d => ok = true ∧
      j = ⟨ss ++ [{ s with entries := s.entries ++ [e] }], none⟩ ∧ j.Laid d) ⟨ss ++ [s], none⟩ d := by
  obtain rfl := hn
  have hfull := laid_record hl hrest hseq hsmall
  have hlen : e.encode.length = kRecordSize := e.length_encode
  refine safe_sys (fun k => if k < kRecordSize then ⟨ss ++ [{ s with rest := e.encode.take k }], none⟩
    else ⟨ss ++ [{ s with entries := s.entries ++ [e] }], none⟩) ?_ ?_ ?_ ?_
  · rw [if_pos (by decide), List.take_zero, ← hrest]
  · intro k l hkl _
    split_ifs with hk hl
    · exact grows_last rfl rfl List.prefix_rfl
    · exact grows_last rfl rfl (List.prefix_append ..)
    · omega
    · exact Grows.refl _
  · intro k hk
    change k ≤ e.encode.length at hk
    change Laid _ (d.modify s.name (·.write (e.encode.take k)))
    split_ifs with hlt
    · exact laid_partial hl hrest e hlt
    · rw [List.take_of_length_le (by omega)]
      exact hfull
  · have hsize : ¬ e.encode.length < kRecordSize := by omega
    refine ⟨rfl, if_neg hsize, ?_⟩
    change Laid (if e.encode.length < kRecordSize then _ else _)
      (d.modify s.name (·.write (e.encode.take e.encode.length)))
    rw [if_neg hsize, List.take_length]
    exact hfull

/-! ## An append -/

/-- The writer of these segments, which are complete. Nothing is open before the first of them, and
then the last one. They are numbered in the order in which they were created. -/
structure Ready (w : JournalWriter) (ss : List Segment) : Prop where
  sealed : Sealed ss
  fd : w.fd = ss.getLast?.map Segment.name
  counter : w.createdCounter = UInt64.ofNat ss.length
  counters : ∀ (i : Nat) (s : Segment), ss[i]? = some s → s.createdCounter = UInt64.ofNat i

theorem ready_create (rollBytes : Nat) (policy : FsyncPolicy) (groupSize : Nat) :
    (create rollBytes policy groupSize).Ready [] where
  sealed := ⟨.nil, nofun, nofun, .nil⟩
  fd := rfl
  counter := rfl
  counters := nofun

theorem Sealed.length_le (h : Sealed ss) : ss.length ≤ (ss.flatMap Segment.entries).length := by
  have hpos : ∀ s ∈ ss, 1 ≤ s.entries.length := fun s hs =>
    List.length_pos_of_ne_nil (h.full s hs).1
  clear h
  induction ss with
  | nil => exact le_rfl
  | cons s ss ih =>
    rw [List.forall_mem_cons] at hpos
    have hle := ih hpos.2
    rw [List.flatMap_cons, List.length_append, List.length_cons]
    omega

/-- The next counter is a new one. -/
theorem Ready.counter_notMem (hr : w.Ready ss) (hsmall : nextSeq ss + 1 < 10 ^ 16) :
    w.createdCounter ∉ ss.map Segment.createdCounter := by
  intro hmem
  obtain ⟨s, hs, heq⟩ := List.mem_map.1 hmem
  obtain ⟨i, hi⟩ := List.mem_iff_getElem?.1 hs
  have hlt := (List.getElem?_eq_some_iff.1 hi).1
  have hle := Sealed.length_le hr.sealed
  rw [nextSeq] at hsmall
  rw [hr.counters i s hi, hr.counter] at heq
  have hnat := congrArg UInt64.toNat heq
  rw [UInt64.toNat_ofNat', UInt64.toNat_ofNat', Nat.mod_eq_of_lt (by omega),
    Nat.mod_eq_of_lt (by omega)] at hnat
  omega

/-- The segment that the next record goes to is open, and all before it are complete. -/
structure Opened (w : JournalWriter) (ss : List Segment) (s : Segment) : Prop where
  rest : s.rest = []
  fd : w.fd = some s.name
  counter : w.createdCounter = UInt64.ofNat (ss.length + 1)
  counters : ∀ (i : Nat) (t : Segment), (ss ++ [s])[i]? = some t →
    t.createdCounter = UInt64.ofNat i

/-- A record goes to the open segment. -/
theorem writeRecord_safe (ho : w.Opened ss s) (hl : Laid ⟨ss ++ [s], none⟩ d)
    (hseq : e.seq = nextSeq (ss ++ [s])) (hsmall : nextSeq (ss ++ [s]) + 1 < 10 ^ 16) :
    (w.writeRecord e).Safe Laid Grows (fun r j d => r.1 = true ∧
      ∃ s', s'.entries = s.entries ++ [e] ∧ j = ⟨ss ++ [s'], none⟩ ∧ j.Laid d ∧
        r.2.Ready (ss ++ [s'])) ⟨ss ++ [s], none⟩ d := by
  rw [writeRecord, ho.fd]
  refine Safe.bind (record_safe rfl hl ho.rest hseq hsmall) ?_
  rintro _ _ d₁ ⟨rfl, rfl, hl₁⟩
  have hready : ∀ w' : JournalWriter, w'.fd = w.fd → w'.createdCounter = w.createdCounter →
      w'.Ready (ss ++ [{ s with entries := s.entries ++ [e] }]) := by
    intro w' hfd hcounter
    obtain ⟨hsealed, hfollows, -, -⟩ := wf_open.1 hl₁.wf
    refine ⟨sealed_concat hsealed hfollows (by simp) ho.rest, ?_, ?_, ?_⟩
    · rw [List.getLast?_concat, hfd, ho.fd]
      rfl
    · rw [hcounter, ho.counter, List.length_append, List.length_singleton]
    · obtain ⟨hold, hnew⟩ := forall_getElem?_concat.1 ho.counters
      exact forall_getElem?_concat.2 ⟨hold, hnew⟩
  rw [if_pos rfl]
  dsimp only
  split
  · refine (sync_safe (s := { s with entries := s.entries ++ [e] }) rfl hl₁).mono ?_
    rintro _ _ d₂ ⟨rfl, rfl, hl₂⟩
    exact ⟨rfl, _, rfl, rfl, hl₂, hready _ ho.fd.symm rfl⟩
  · exact ⟨rfl, _, rfl, rfl, hl₁, hready _ ho.fd.symm rfl⟩

theorem Ready.opened (hr : w.Ready ss) {n : FileName} (hfd : w.fd = some n) :
    ∃ ss₀ s, ss = ss₀ ++ [s] ∧ w.Opened ss₀ s := by
  have hlast := hr.fd
  rw [hfd] at hlast
  obtain ⟨s, hs, -⟩ := Option.map_eq_some_iff.1 hlast.symm
  obtain ⟨ss₀, rfl⟩ := List.getLast?_eq_some_iff.1 hs
  refine ⟨ss₀, s, rfl, (hr.sealed.full s (by simp)).2, ?_, ?_, hr.counters⟩
  · rw [hr.fd, hs]
    rfl
  · rw [hr.counter, List.length_append, List.length_singleton]

/-- The segment that was begun takes the next record. -/
theorem Ready.begun (hr : w.Ready ss) {w' : JournalWriter}
    (hfd : w'.fd = some (segmentName (nextSeq ss)))
    (hcounter : w'.createdCounter = w.createdCounter + 1) :
    w'.Opened ss ⟨nextSeq ss, w.createdCounter, [], []⟩ where
  rest := rfl
  fd := hfd
  counter := by
    rw [hcounter, hr.counter, UInt64.ofNat_add]
    rfl
  counters :=
    (forall_getElem?_concat (P := fun i (t : Segment) => t.createdCounter = UInt64.ofNat i)).2
      ⟨hr.counters, hr.counter⟩

/-- The first half of `append`: there is an open segment for the record. -/
def segmentFor (w : JournalWriter) (seq : Int) : Prog FileName (Bool × JournalWriter) :=
  if w.fd = none then w.openSegment seq
  else if w.rollBytes < w.bytesInSegment + kRecordSize then w.rollSegment seq
  else pure (true, w)

theorem append_eq (w : JournalWriter) (e : JournalEntry) : w.append e =
    w.segmentFor e.seq >>= fun r => if r.1 then r.2.writeRecord e else pure (false, r.2) := by
  rw [append, segmentFor]
  split_ifs <;> rfl

theorem segmentFor_safe (hr : w.Ready ss) (hl : Laid ⟨ss, none⟩ d)
    (hsmall : nextSeq ss + 1 < 10 ^ 16) :
    (w.segmentFor (nextSeq ss)).Safe Laid Grows (fun r j d => r.1 = true ∧
      ∃ ss₀ s, j = ⟨ss₀ ++ [s], none⟩ ∧ j.Laid d ∧ r.2.Opened ss₀ s ∧
        (ss₀ ++ [s]).flatMap Segment.entries = ss.flatMap Segment.entries) ⟨ss, none⟩ d := by
  have hentries : ∀ counter, (ss ++ [(⟨nextSeq ss, counter, [], []⟩ : Segment)]).flatMap Segment.entries =
      ss.flatMap Segment.entries := fun counter => by
    rw [List.flatMap_append, List.flatMap_singleton, List.append_nil]
  rw [segmentFor]
  split_ifs with hfd hroll
  · refine (openSegment_safe hl hr.sealed (hr.counter_notMem hsmall)).mono ?_
    rintro _ _ d₁ ⟨rfl, rfl, hl₁⟩
    exact ⟨rfl, ss, _, rfl, hl₁, hr.begun rfl rfl, hentries _⟩
  · obtain ⟨n, hn⟩ := Option.ne_none_iff_exists'.1 hfd
    obtain ⟨ss₀, s, rfl, ho⟩ := hr.opened hn
    rw [rollSegment]
    refine Safe.bind (sync_safe ho.fd hl) ?_
    rintro _ _ d₁ ⟨rfl, rfl, hl₁⟩
    refine (openSegment_safe (w := { w with pendingUnsynced := 0, fd := none }) hl₁ hr.sealed
      (hr.counter_notMem hsmall)).mono ?_
    rintro _ _ d₂ ⟨rfl, rfl, hl₂⟩
    exact ⟨rfl, ss₀ ++ [s], _, rfl, hl₂, hr.begun rfl rfl, hentries _⟩
  · obtain ⟨n, hn⟩ := Option.ne_none_iff_exists'.1 hfd
    obtain ⟨ss₀, s, rfl, ho⟩ := hr.opened hn
    exact ⟨rfl, ss₀, s, rfl, hl, ho, rfl⟩

/-- **An append** that nothing goes wrong in: the journal grows by the record, and there never is
anything but a growing journal to see. -/
theorem append_safe (hr : w.Ready ss) (hl : Laid ⟨ss, none⟩ d) (hseq : e.seq = nextSeq ss)
    (hsmall : nextSeq ss + 1 < 10 ^ 16) :
    (w.append e).Safe Laid Grows (fun r j d => r.1 = true ∧ ∃ ss', j = ⟨ss', none⟩ ∧ j.Laid d ∧
      r.2.Ready ss' ∧ j.entries = ss.flatMap Segment.entries ++ [e]) ⟨ss, none⟩ d := by
  rw [append_eq, hseq]
  refine Safe.bind (segmentFor_safe hr hl hsmall) ?_
  rintro ⟨_, w₁⟩ _ d₁ ⟨rfl, ss₀, s, rfl, hl₁, ho, heq⟩
  have hnext : nextSeq (ss₀ ++ [s]) = nextSeq ss := by rw [nextSeq, heq, nextSeq]
  refine (writeRecord_safe ho hl₁ (by rw [hnext]; exact hseq) (by rw [hnext]; exact hsmall)).mono ?_
  rintro r _ d₂ ⟨hok, s', hs', rfl, hl₂, hready⟩
  refine ⟨hok, ss₀ ++ [s'], rfl, hl₂, hready, ?_⟩
  rw [← heq, entries, List.flatMap_append, List.flatMap_append, List.flatMap_singleton,
    List.flatMap_singleton, hs', List.append_assoc]

/-! ## A lifetime -/

/-- The records one after the other. -/
def appendAll (w : JournalWriter) : List JournalEntry → Prog FileName (Bool × JournalWriter)
  | [] => pure (true, w)
  | e :: es => do
    let (ok, w) ← w.append e
    if ok then w.appendAll es else pure (false, w)

theorem appendAll_safe {es : List JournalEntry} (hr : w.Ready ss) (hl : Laid ⟨ss, none⟩ d)
    (hes : Table.Numbered JournalEntry.seq (nextSeq ss) es)
    (hsmall : (ss.flatMap Segment.entries).length + es.length + 1 < 10 ^ 16) :
    (w.appendAll es).Safe Laid Grows (fun r j d => r.1 = true ∧ ∃ ss', j = ⟨ss', none⟩ ∧ j.Laid d ∧
      r.2.Ready ss' ∧ j.entries = ss.flatMap Segment.entries ++ es) ⟨ss, none⟩ d := by
  induction es generalizing w ss d with
  | nil => exact ⟨rfl, ss, rfl, hl, hr, (List.append_nil _).symm⟩
  | cons e es ih =>
    rw [List.length_cons] at hsmall
    have hseq : e.seq = nextSeq ss := (hes 0 e rfl).trans (Int.add_zero _)
    rw [appendAll]
    refine Safe.bind (append_safe hr hl hseq (by rw [nextSeq]; omega)) ?_
    rintro ⟨_, w₁⟩ _ d₁ ⟨rfl, ss₁, rfl, hl₁, hr₁, hentries⟩
    have hlen : (ss₁.flatMap Segment.entries).length = (ss.flatMap Segment.entries).length + 1 := by
      change (entries ⟨ss₁, none⟩).length = _
      rw [hentries, List.length_append, List.length_singleton]
    have hrest : Table.Numbered JournalEntry.seq (nextSeq ss₁) es := by
      have hdrop := hes.drop 1
      rw [nextSeq] at hdrop
      rw [nextSeq, hlen]
      exact_mod_cast hdrop
    refine (ih hr₁ hl₁ hrest (by omega)).mono ?_
    rintro r _ d₂ ⟨hok, ss', rfl, hl₂, hr₂, hall⟩
    refine ⟨hok, ss', rfl, hl₂, hr₂, hall.trans ?_⟩
    change entries ⟨ss₁, none⟩ ++ es = _
    rw [hentries, List.append_assoc, List.singleton_append]

theorem laid_empty : Laid ⟨[], none⟩ .empty :=
  ⟨⟨.nil, nofun, nofun, nofun, nofun, .nil, by decide⟩, rfl⟩

/-- What a writer leaves that has written these records to an empty directory. -/
def written (rollBytes : Nat) (policy : FsyncPolicy) (groupSize : Nat) (es : List JournalEntry) :
    Directory FileName :=
  (((create rollBytes policy groupSize).appendAll es).exec .empty).2

/-- **A lifetime**: the directory stands for a journal with the records. -/
theorem laid_written (rollBytes : Nat) (policy : FsyncPolicy) (groupSize : Nat)
    {es : List JournalEntry} (hes : Table.Numbered JournalEntry.seq 1 es)
    (hsmall : es.length + 1 < 10 ^ 16) :
    ∃ ss, Laid ⟨ss, none⟩ (written rollBytes policy groupSize es) ∧ entries ⟨ss, none⟩ = es := by
  obtain ⟨_, -, ss, rfl, hl, -, hentries⟩ := Safe.exec
    (appendAll_safe (ready_create rollBytes policy groupSize) laid_empty hes (by
      rw [List.flatMap_nil, List.length_nil]
      omega))
  exact ⟨ss, hl, hentries⟩

end JournalWriter

end Velox
