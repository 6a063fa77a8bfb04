import Velox.Lib.Text
import Velox.Recovery.Recover

/-!
# What the admin daemon reads from disk

Following `admin/store.cpp`. The root has a directory `shard-<id>` for every instrument, or, in the
layout before that, the journal of a single one. The number in the name of a directory is converted
by a function that throws and is then cut to 32 bits. The files of a directory are listed by name,
with what their headers say, valid or not.
-/

namespace Velox.Admin

open Storage Text Bytes

/-! ## The directories -/

/-- The files of a directory, and which of them can be opened. -/
structure Folder where
  files : Directory FileName
  readable : FileName → Bool

/-- What of the directory can be opened. -/
def Folder.opened (f : Folder) : Directory FileName :=
  ⟨f.files.entries.filter fun e => f.readable e.1, f.files.sorted.filter _⟩

structure ShardDirs where
  journalDir : Folder
  snapshotDir : Folder

/-- What is below the root: its directories, in the order in which they are listed, and the journal
of the flat layout if there is one. -/
structure Root where
  subdirs : List (List UInt8 × ShardDirs)
  flat : Option ShardDirs
  nodup : (subdirs.map Prod.fst).Nodup

structure InstrumentInfo where
  id : UInt32
  /-- The directory of the instrument; `none` is the root itself. -/
  path : Option (List UInt8)
  dirs : ShardDirs

structure EngineStatus where
  lastGoodSeq : Int
  segmentCount : Nat
  snapshotCount : Nat
  newestSnapshotSeq : Int
  journalBytes : Nat
  openSegment : Bool

structure SegmentInfo where
  fileName : FileName
  firstSeq : Int
  createdCounter : UInt64
  bytes : Nat
  headerValid : Bool

structure SnapshotInfo where
  fileName : FileName
  globalSeq : Int
  bookSeq : Int
  orderCount : UInt64
  bytes : Nat
  crcValid : Bool

/-! ## Instruments -/

def kShardPrefix : List UInt8 := text "shard-"

/-- The digits of a directory of the form `shard-<id>`. -/
def shardDigits (name : List UInt8) : Option (List UInt8) :=
  if kShardPrefix.isPrefixOf name then
    let idStr := name.drop kShardPrefix.length
    if idStr ≠ [] ∧ idStr.all isDigit then some idStr else none
  else none

/-- One turn of the loop over the directories. -/
def instrumentAt (name : List UInt8) (dirs : ShardDirs) :
    Except StoError (Option InstrumentInfo) :=
  match shardDigits name with
  | none => .ok none
  | some idStr => (stoul 10 idStr).map fun n => some ⟨n.toUInt32, some name, dirs⟩

/-- The loop over the directories. -/
def discover : List (List UInt8 × ShardDirs) → Except StoError (List InstrumentInfo)
  | [] => .ok []
  | (name, dirs) :: rest => do
    let found ← instrumentAt name dirs
    let out ← discover rest
    return found.toList ++ out

namespace Root

def listInstruments (root : Root) : Except StoError (List InstrumentInfo) := do
  let out ← discover root.subdirs
  match out, root.flat with
  | [], some dirs => return [⟨1, none, dirs⟩]
  | out, _ => return out.mergeSort fun a b => a.id ≤ b.id

def findInstrument (root : Root) (id : UInt32) : Except StoError (Option InstrumentInfo) := do
  let all ← root.listInstruments
  return all.find? fun inst => inst.id = id

end Root

/-! ## Files -/

/-- A segment. The header is decoded as far as it goes, whether it is valid or not. -/
def segmentInfo (f : Folder) (name : FileName) (file : File) : SegmentInfo :=
  let header := file.bytes.take SegmentHeader.size
  if f.readable name ∧ header.length = SegmentHeader.size then
    ⟨name, seqOfU64 (getU64 8 header), getU64 16 header, file.bytes.length,
      (SegmentHeader.decode header).isSome⟩
  else ⟨name, 0, 0, file.bytes.length, false⟩

def snapshotInfo (f : Folder) (name : FileName) (file : File) : SnapshotInfo :=
  let bytes := file.bytes
  if f.readable name then
    if SnapshotHeader.size + kSnapshotTrailerSize ≤ bytes.length then
      let headerAndBodySize := bytes.length - kSnapshotTrailerSize
      let storedCrc := getU32 headerAndBodySize bytes
      let crc := crc32 (bytes.take headerAndBodySize)
      let h := SnapshotHeader.decode bytes
      ⟨name, seqOfU64 h.globalSeq, seqOfU64 h.bookSeq, h.orderCount, bytes.length,
        crc = storedCrc && h.magic = kSnapshotMagic && h.version = kSnapshotVersion⟩
    else ⟨name, 0, 0, 0, bytes.length, false⟩
  else ⟨name, 0, 0, 0, 0, false⟩

namespace InstrumentInfo

def listSegments (inst : InstrumentInfo) : List SegmentInfo :=
  (inst.dirs.journalDir.files.list isJnl).map fun e => segmentInfo inst.dirs.journalDir e.1 e.2

def listSnapshots (inst : InstrumentInfo) : List SnapshotInfo :=
  (inst.dirs.snapshotDir.files.list isSnap).map fun e => snapshotInfo inst.dirs.snapshotDir e.1 e.2

/-- Read the journal until there is no good record. -/
def drain (d : Directory FileName) : Nat → JournalReader → JournalReader
  | 0, r => r
  | n + 1, r =>
    match r.next d with
    | (.ok _ _, r) => drain d n r
    | (_, r) => r

def engineStatus (inst : InstrumentInfo) : EngineStatus :=
  let journal := inst.dirs.journalDir
  let reader := JournalReader.create journal.files
  let last := drain journal.opened (reader.left journal.opened + 1) reader
  let snaps := inst.listSnapshots
  { lastGoodSeq := last.lastGoodSeq
    segmentCount := reader.segments.length
    snapshotCount := snaps.length
    newestSnapshotSeq := snaps.foldl
      (fun newest s => if s.crcValid ∧ newest < s.globalSeq then s.globalSeq else newest) (-1)
    journalBytes := journalSize journal.files
    openSegment := 0 < reader.segments.length }

/-- The bound on the number of records makes no difference. -/
theorem drain_eq (d : Directory FileName) (n m : Nat) (r : JournalReader) (hn : r.left d < n)
    (hm : r.left d < m) : drain d n r = drain d m r := by
  induction n generalizing m r with
  | zero => omega
  | succ n ih =>
    obtain ⟨m, rfl⟩ := Nat.exists_eq_succ_of_ne_zero (by omega : m ≠ 0)
    rw [drain, drain]
    split
    · next e offset r₁ hnext =>
      have hlt := JournalReader.next_left hnext
      exact ih m r₁ (by omega) (by omega)
    · rfl

end InstrumentInfo

/-! ## Which shard a directory is -/

/-- The number of a shard: that in the name of its directory, and 1 in the flat layout. -/
def InstrumentInfo.number (inst : InstrumentInfo) : Nat :=
  ((inst.path.bind shardDigits).map (ofDigits 10)).getD 1

/-- The instrument of a directory, for a number that can be converted. -/
def shardAt (d : List UInt8 × ShardDirs) : Option InstrumentInfo :=
  (shardDigits d.1).map fun idStr => ⟨.ofNat (ofDigits 10 idStr), some d.1, d.2⟩

namespace Root

/-- The shards in the order in which their directories are listed. -/
def shards (root : Root) : List InstrumentInfo :=
  match root.subdirs.filterMap shardAt, root.flat with
  | [], some dirs => [⟨1, none, dirs⟩]
  | found, _ => found

/-- The numbers in the names of the directories can be converted. -/
def Convertible (root : Root) : Prop :=
  ∀ d ∈ root.subdirs, ∀ idStr, shardDigits d.1 = some idStr → ofDigits 10 idStr < 2 ^ 64

end Root

theorem shardDigits_spec {name idStr : List UInt8} (h : shardDigits name = some idStr) :
    idStr ≠ [] ∧ ∀ c ∈ idStr, isDigit c := by
  simp only [shardDigits, Option.ite_none_right_eq_some] at h
  obtain ⟨-, ⟨hne, hall⟩, heq⟩ := h
  cases heq
  exact ⟨hne, by simpa using hall⟩

theorem instrumentAt_eq (d : List UInt8 × ShardDirs) :
    instrumentAt d.1 d.2 =
      if ∃ idStr, shardDigits d.1 = some idStr ∧ 2 ^ 64 ≤ ofDigits 10 idStr
      then .error .outOfRange else .ok (shardAt d) := by
  rw [instrumentAt, shardAt]
  cases h : shardDigits d.1 with
  | none => simp
  | some idStr =>
    obtain ⟨hne, hdigits⟩ := shardDigits_spec h
    have hex : (∃ s, some idStr = some s ∧ 2 ^ 64 ≤ ofDigits 10 s) ↔
        2 ^ 64 ≤ ofDigits 10 idStr := by
      simp
    simp only [stoul_of_digits hne hdigits, hex]
    by_cases hbig : 2 ^ 64 ≤ ofDigits 10 idStr
    · rw [if_pos hbig, if_pos hbig]
      rfl
    · rw [if_neg hbig, if_neg hbig]
      simp [Except.map]

theorem discover_eq (ds : List (List UInt8 × ShardDirs)) :
    discover ds =
      if ∃ d ∈ ds, ∃ idStr, shardDigits d.1 = some idStr ∧ 2 ^ 64 ≤ ofDigits 10 idStr
      then .error .outOfRange else .ok (ds.filterMap shardAt) := by
  induction ds with
  | nil => simp [discover]
  | cons d ds ih =>
    rw [discover, instrumentAt_eq, ih]
    by_cases hd : ∃ idStr, shardDigits d.1 = some idStr ∧ 2 ^ 64 ≤ ofDigits 10 idStr
    · have hex : ∃ d' ∈ d :: ds, ∃ idStr, shardDigits d'.1 = some idStr ∧
          2 ^ 64 ≤ ofDigits 10 idStr := ⟨d, List.mem_cons_self, hd⟩
      rw [if_pos hd, if_pos hex]
      rfl
    · by_cases hds : ∃ d ∈ ds, ∃ idStr, shardDigits d.1 = some idStr ∧ 2 ^ 64 ≤ ofDigits 10 idStr
      · have hex : ∃ d' ∈ d :: ds, ∃ idStr, shardDigits d'.1 = some idStr ∧
            2 ^ 64 ≤ ofDigits 10 idStr := by
          obtain ⟨d', hd', h⟩ := hds
          exact ⟨d', List.mem_cons_of_mem _ hd', h⟩
        rw [if_neg hd, if_pos hds, if_pos hex]
        rfl
      · have hex : ¬ ∃ d' ∈ d :: ds, ∃ idStr, shardDigits d'.1 = some idStr ∧
            2 ^ 64 ≤ ofDigits 10 idStr := by
          rw [List.exists_mem_cons_iff]
          exact not_or.2 ⟨hd, hds⟩
        rw [if_neg hd, if_neg hds, if_neg hex, List.filterMap_cons]
        cases shardAt d <;> rfl

namespace Root

theorem discover_of_convertible {root : Root} (h : root.Convertible) :
    discover root.subdirs = .ok (root.subdirs.filterMap shardAt) := by
  rw [discover_eq, if_neg]
  intro ⟨d, hd, idStr, hid, hbig⟩
  exact absurd (h d hd idStr hid) (by omega)

theorem discover_of_not_convertible {root : Root} (h : ¬ root.Convertible) :
    discover root.subdirs = .error .outOfRange := by
  rw [discover_eq, if_pos]
  rw [Convertible] at h
  push Not at h
  exact h

/-- Sorting by number puts no directory before another of the same number. -/
theorem find?_mergeSort (out : List InstrumentInfo) (id : UInt32) :
    (out.mergeSort fun a b => a.id ≤ b.id).find? (fun inst => inst.id = id) =
      out.find? fun inst => inst.id = id := by
  have hsame : (out.mergeSort fun a b => a.id ≤ b.id).filter (fun inst => inst.id = id) =
      out.filter fun inst => inst.id = id := by
    refine (List.Sublist.eq_of_length ?_ ?_).symm
    · have hsub : (out.filter fun inst => inst.id = id).Sublist
          (out.mergeSort fun a b => a.id ≤ b.id) := by
        refine List.sublist_mergeSort ?_ ?_ ?_ List.filter_sublist
        · intro a b c hab hbc
          simp only [decide_eq_true_eq] at hab hbc ⊢
          exact UInt32.le_trans hab hbc
        · intro a b
          simpa using UInt32.le_total a.id b.id
        · rw [List.pairwise_filter]
          refine List.pairwise_of_forall fun a b ha hb => ?_
          simp only [decide_eq_true_eq] at ha hb ⊢
          rw [ha, hb]
          exact UInt32.le_refl id
      have := hsub.filter fun inst => decide (inst.id = id)
      simpa only [List.filter_filter, Bool.and_self] using this
    · exact ((List.mergeSort_perm out _).filter _).length_eq.symm
  rw [← List.head?_filter, ← List.head?_filter, hsame]

theorem listInstruments_of_convertible {root : Root} (h : root.Convertible) :
    ∃ all, root.listInstruments = .ok all ∧ all.Perm root.shards ∧
      ∀ id, all.find? (fun inst => inst.id = id) = root.shards.find? fun inst => inst.id = id := by
  rw [listInstruments, discover_of_convertible h, shards]
  cases root.subdirs.filterMap shardAt with
  | nil =>
    cases root.flat with
    | none => exact ⟨_, rfl, List.mergeSort_perm _ _, find?_mergeSort _⟩
    | some dirs => exact ⟨[⟨1, none, dirs⟩], rfl, List.Perm.refl _, fun _ => rfl⟩
  | cons inst out => exact ⟨_, rfl, List.mergeSort_perm _ _, find?_mergeSort _⟩

theorem listInstruments_of_not_convertible {root : Root} (h : ¬ root.Convertible) :
    root.listInstruments = .error .outOfRange := by
  rw [listInstruments, discover_of_not_convertible h]
  rfl

theorem findInstrument_of_convertible {root : Root} (h : root.Convertible) (id : UInt32) :
    root.findInstrument id = .ok (root.shards.find? fun inst => inst.id = id) := by
  obtain ⟨all, hall, -, hfind⟩ := listInstruments_of_convertible h
  rw [findInstrument, hall, ← hfind]
  rfl

theorem findInstrument_of_not_convertible {root : Root} (h : ¬ root.Convertible) (id : UInt32) :
    root.findInstrument id = .error .outOfRange := by
  rw [findInstrument, listInstruments_of_not_convertible h]
  rfl

end Root

end Velox.Admin
