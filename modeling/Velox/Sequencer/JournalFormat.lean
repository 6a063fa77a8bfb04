import Velox.Common.Crc32
import Velox.Sequencer.Sequencer
import Velox.Sequencer.Snapshot

/-!
# Journal segments

Following `sequencer/journal_format.hpp`: a segment is a header of 32 bytes and records of 68, each
with the CRC of what stands before it. A record is recognised whatever follows it
(`parse_encode_append`), and no part of one is taken for a record (`parse_take_encode`).
-/

namespace Velox

open Bytes

def kJournalMagic : UInt32 := 0x534A5856
def kJournalVersion : UInt32 := 1

/-! ## Segment headers -/

structure SegmentHeader where
  magic : UInt32 := kJournalMagic
  version : UInt32 := kJournalVersion
  firstSeq : UInt64
  createdCounter : UInt64
  deriving DecidableEq

namespace SegmentHeader

def size : Nat := 32

/-- What the CRC is taken of. -/
def fields (h : SegmentHeader) : List UInt8 :=
  putU32 h.magic ++ (putU32 h.version ++ (putU64 h.firstSeq ++ (putU64 h.createdCounter ++ le 4 0)))

def encode (h : SegmentHeader) : List UInt8 := h.fields ++ putU32 (crc32 h.fields)

/-- Fails if magic, version or CRC do not check out. -/
def decode (bs : List UInt8) : Option SegmentHeader :=
  if getU32 0 bs = kJournalMagic ∧ getU32 4 bs = kJournalVersion ∧
      crc32 (bs.take 28) = getU32 28 bs then
    some ⟨getU32 0 bs, getU32 4 bs, getU64 8 bs, getU64 16 bs⟩
  else none

@[simp] theorem length_fields (h : SegmentHeader) : h.fields.length = 28 := by
  simp [fields, Bytes.length_le]

@[simp] theorem length_encode (h : SegmentHeader) : h.encode.length = size := by
  rw [encode, List.length_append, length_fields, length_putU32, size]

theorem decode_encode {h : SegmentHeader} (hmagic : h.magic = kJournalMagic)
    (hversion : h.version = kJournalVersion) : decode h.encode = some h := by
  have htake : h.encode.take 28 = h.fields := List.take_left' h.length_fields
  have hcrc : getU32 28 h.encode = crc32 h.fields := by
    rw [encode, getU32_append h.length_fields.le, h.length_fields, Nat.sub_self, getU32_putU32]
  have hfields : getU32 0 h.encode = h.magic ∧ getU32 4 h.encode = h.version ∧
      getU64 8 h.encode = h.firstSeq ∧ getU64 16 h.encode = h.createdCounter := by
    simp [encode, fields]
  obtain ⟨h₀, h₄, h₈, h₁₆⟩ := hfields
  rw [decode, htake, hcrc, h₀, h₄, h₈, h₁₆, if_pos ⟨hmagic, hversion, rfl⟩]

end SegmentHeader

/-! ## Records -/

def kRecordFixedSize : Nat := 16
def kRecordCrcSize : Nat := 4
def kRecordSize : Nat := kRecordFixedSize + Command.size + kRecordCrcSize

namespace JournalEntry

/-- What the CRC is taken of. -/
def fields (e : JournalEntry) : List UInt8 :=
  putU32 (.ofNat Command.size) ++ (putU64 (u64OfSeq e.seq) ++ (putU8 e.kind ++
    (le 3 0 ++ e.command.encode)))

def encode (e : JournalEntry) : List UInt8 := e.fields ++ putU32 (crc32 e.fields)

/-- The record in these bytes. -/
def decode (bs : List UInt8) : JournalEntry :=
  ⟨seqOfU64 (getU64 4 bs), getU8 12 bs, Command.decode (bs.drop kRecordFixedSize)⟩

@[simp] theorem length_fields (e : JournalEntry) : e.fields.length = 64 := by
  simp [fields, Bytes.length_le, Command.size]

@[simp] theorem length_encode (e : JournalEntry) : e.encode.length = kRecordSize := by
  rw [encode, List.length_append, length_fields, length_putU32]
  rfl

theorem decode_take (bs : List UInt8) : decode (bs.take kRecordSize) = decode bs := by
  have hdrop : (bs.take kRecordSize).drop kRecordFixedSize = (bs.drop kRecordFixedSize).take 52 :=
    List.drop_take ..
  rw [decode, decode, hdrop, Command.decode_take (by decide), getU64_take (by decide),
    getU8_take (by decide)]

theorem decode_encode_append {e : JournalEntry} (hseq : Fits64 e.seq) (bs : List UInt8) :
    decode (e.encode ++ bs) = e := by
  have hfront : getU64 4 (e.encode ++ bs) = u64OfSeq e.seq ∧ getU8 12 (e.encode ++ bs) = e.kind := by
    simp [encode, fields]
  have hcommand : (e.encode ++ bs).drop kRecordFixedSize =
      e.command.encode ++ (putU32 (crc32 e.fields) ++ bs) := by
    have hsplit : e.encode ++ bs = (putU32 (.ofNat Command.size) ++ (putU64 (u64OfSeq e.seq) ++
        (putU8 e.kind ++ le 3 0))) ++ (e.command.encode ++ (putU32 (crc32 e.fields) ++ bs)) := by
      simp [encode, fields]
    rw [hsplit]
    exact List.drop_left' (by simp [Bytes.length_le, kRecordFixedSize])
  rw [decode, hfront.1, hfront.2, hcommand, Command.decode_encode_append, seqOfU64_u64OfSeq hseq]

end JournalEntry

/-- What stands in the rest of a segment. -/
inductive Parsed where
  | eof
  | torn
  | record (e : JournalEntry)
  deriving DecidableEq

/-- The checks of `readOneRecord`, on the bytes from the offset to the end of the file. -/
def parse (bs : List UInt8) : Parsed :=
  if bs.length = 0 then .eof
  else if bs.length < kRecordFixedSize then .torn
  else if getU32 0 bs ≠ .ofNat Command.size then .torn
  else if bs.length < kRecordSize then .torn
  else if crc32 (bs.take (kRecordFixedSize + Command.size)) ≠
      getU32 (kRecordFixedSize + Command.size) bs then .torn
  else .record (.decode bs)

theorem parse_nil : parse [] = .eof := rfl

theorem parse_encode_append {e : JournalEntry} (hseq : Fits64 e.seq) (bs : List UInt8) :
    parse (e.encode ++ bs) = .record e := by
  have hlen : (e.encode ++ bs).length = 68 + bs.length := by
    rw [List.length_append, e.length_encode]
    rfl
  have hpayload : getU32 0 (e.encode ++ bs) = .ofNat Command.size := by
    simp [JournalEntry.encode, JournalEntry.fields]
  have hcrc : crc32 ((e.encode ++ bs).take (kRecordFixedSize + Command.size)) =
      getU32 (kRecordFixedSize + Command.size) (e.encode ++ bs) := by
    have hfields : e.fields.length = kRecordFixedSize + Command.size := e.length_fields
    rw [JournalEntry.encode, List.append_assoc, List.take_left' hfields, getU32_append hfields.le,
      hfields, Nat.sub_self, getU32_putU32_append]
  have hfixed : kRecordFixedSize = 16 := rfl
  have hrecord : kRecordSize = 68 := rfl
  rw [parse, if_neg (by omega), if_neg (by omega), if_neg (by rw [hpayload, not_not]),
    if_neg (by omega), if_neg (by rw [hcrc, not_not]), JournalEntry.decode_encode_append hseq]

/-- Part of a record is not a record, and is not nothing. -/
theorem parse_take_encode (e : JournalEntry) {k : Nat} (hpos : 0 < k) (hlt : k < kRecordSize) :
    parse (e.encode.take k) = .torn := by
  have hlen : (e.encode.take k).length = k := by
    rw [List.length_take, e.length_encode]
    omega
  rw [parse, hlen, if_neg hpos.ne']
  split_ifs <;> rfl

end Velox
