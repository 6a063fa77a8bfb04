import Velox.Sequencer.JournalReader

/-!
# Corruption is noticed

What the CRCs of `sequencer/journal_format.hpp` and `sequencer/snapshot_format.hpp` are worth: a
change of a journal record or of a snapshot file that is confined to four consecutive bytes is never
read as good data, wherever it lies (`corruption_detected`).
-/

namespace Velox

open Bytes Storage ShiftRegister

variable {bs : List UInt8}

/-! ## Journal records -/

theorem JournalEntry.crc_encode (e : JournalEntry) :
    crc32 (e.encode.take 64) = getU32 64 e.encode := by
  rw [encode, List.take_left' e.length_fields, getU32_append e.length_fields.le, e.length_fields,
    Nat.sub_self, getU32_putU32]

theorem JournalEntry.crc_ne {e : JournalEntry} (h : Burst 4 e.encode bs) :
    crc32 (bs.take 64) ≠ getU32 64 bs :=
  crc32_burst h e.length_encode e.crc_encode

/-- A reader that comes to a damaged record does not take it for a good one. -/
theorem JournalReader.readOneRecord_burst {e : JournalEntry} (h : Burst 4 e.encode bs)
    {d : Directory FileName} {r : JournalReader}
    (hbs : slice r.offset kRecordSize (r.contents d) = bs) (e' : JournalEntry) (offset : Nat) :
    (r.readOneRecord d).1 ≠ .ok e' offset := by
  have hcrc : crc32 (bs.take (kRecordFixedSize + Command.size)) ≠
      getU32 (kRecordFixedSize + Command.size) bs := JournalEntry.crc_ne h
  simp only [readOneRecord, hbs]
  rw [if_pos hcrc]
  -- every check that fails on the way gives another result
  split_ifs <;> (intro heq; cases heq)

/-! ## Snapshot files -/

theorem SnapshotWriter.crc_file (h : SnapshotHeader) (records : List OrderRecord) :
    crc32 ((file h records).take ((file h records).length - 4)) =
      getU32 ((file h records).length - 4) (file h records) := by
  obtain ⟨buf, hbuf⟩ : ∃ buf, buf = h.encode ++ records.flatMap OrderRecord.encode := ⟨_, rfl⟩
  have hfile : file h records = buf ++ putU32 (crc32 buf) := by rw [hbuf]; rfl
  have hlen : (buf ++ putU32 (crc32 buf)).length - 4 = buf.length := by
    rw [List.length_append, length_putU32, Nat.add_sub_cancel]
  rw [hfile, hlen, List.take_left, getU32_append le_rfl, Nat.sub_self, getU32_putU32]

theorem SnapshotReader.tryLoad_burst {h : SnapshotHeader} {records : List OrderRecord}
    (hburst : Burst 4 (SnapshotWriter.file h records) bs) : tryLoad bs = .rejected := by
  have hfour : 4 ≤ (SnapshotWriter.file h records).length := by
    simp only [SnapshotWriter.file]
    rw [List.length_append, length_putU32]
    exact Nat.le_add_left ..
  have hcrc := crc32_burst hburst (Nat.sub_add_cancel hfour).symm (SnapshotWriter.crc_file h records)
  rw [hburst.length] at hcrc
  rw [tryLoad_eq, if_neg]
  exact fun hpass => hcrc hpass.2.1

/-! ## Both -/

/-- **Detection.** Four consecutive bytes of a journal record or of a snapshot file may be changed in
any way: the record is not read, the file is not loaded. -/
theorem corruption_detected :
    (∀ (e : JournalEntry) (bs : List UInt8), Burst 4 e.encode bs →
      ∀ (d : Directory FileName) (r : JournalReader),
        slice r.offset kRecordSize (r.contents d) = bs →
          ∀ e' offset, (r.readOneRecord d).1 ≠ .ok e' offset) ∧
    ∀ (book : OrderBook) (globalSeq : Int) (cfg : BookConfig) (bytes bs : List UInt8),
      SnapshotWriter.image book globalSeq cfg = some bytes → Burst 4 bytes bs →
        SnapshotReader.tryLoad bs = .rejected := by
  refine ⟨fun e bs h d r hbs => r.readOneRecord_burst h hbs, fun book globalSeq cfg bytes bs h => ?_⟩
  obtain ⟨orders, -, hfile⟩ := Option.bind_eq_some_iff.1 h
  cases hfile
  exact SnapshotReader.tryLoad_burst

/-- A journal of one record, whose first byte has been changed. -/
def damagedRecord : List UInt8 :=
  (JournalEntry.encode ⟨1, 0, ⟨1, 0, 100, 5, 1, 0, .buy, .limit, 0⟩⟩).set 0 0

def damagedReader : JournalReader := ⟨[['a']], 1, some ['a'], ['a'], 68, 0, 1, 0, 0⟩

def damagedDirectory : Directory FileName := SortedMap.empty.put ['a'] ⟨damagedRecord, []⟩

def blankBook : OrderBook := OrderBook.smallBook

theorem corruption_detected_firstByte :
    (∀ e' offset, (damagedReader.readOneRecord damagedDirectory).1 ≠ .ok e' offset) ∧
      ∃ bytes, SnapshotWriter.image blankBook 0 OrderBook.smallConfig = some bytes ∧
        SnapshotReader.tryLoad (bytes.set 0 0) = .rejected := by
  have hwalk : blankBook.canonicalWalk = some [] := by decide +kernel
  have himage : SnapshotWriter.image blankBook 0 OrderBook.smallConfig =
      some (SnapshotWriter.file (SnapshotWriter.header blankBook 0 OrderBook.smallConfig 0) []) := by
    rw [SnapshotWriter.image, hwalk]
    rfl
  have hrecord : (48 : UInt8) ≠ 0 := by decide
  have hfile : (0x56 : UInt8) ≠ 0 := by decide
  exact ⟨corruption_detected.1 _ damagedRecord (burst_set rfl hrecord (by decide)) _ _ rfl,
    _, himage, corruption_detected.2 _ _ _ _ _ himage (burst_set rfl hfile (by decide))⟩

end Velox
