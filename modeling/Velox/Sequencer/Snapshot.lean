import Velox.Common.Crc32
import Velox.Engine.Canonical
import Velox.Ipc.Command

/-!
# Snapshot files

Following `sequencer/snapshot_format.hpp`, the serialisation of `sequencer/snapshot_writer.hpp`
and `tryLoad` of `sequencer/snapshot_reader.hpp`: a header of 80 bytes, one record of 56 bytes for
each order of the canonical walk, and the CRC of it all.

`tryLoad_image` is the round trip: a file that the writer has built is accepted, and its records
are the orders of the walk.
-/

namespace Velox

open Bytes

def kSnapshotMagic : UInt32 := 0x4E535856
def kSnapshotVersion : UInt32 := 1

/-- `static_cast<std::uint64_t>` of a counter. -/
def u64OfSeq (x : Int) : UInt64 := (Int64.ofInt x).toUInt64

/-- `static_cast<Seq>` of an unsigned field. -/
def seqOfU64 (x : UInt64) : Int := x.toInt64.toInt

/-- `x` is the value of a signed 64-bit variable. -/
def Fits64 (x : Int) : Prop := -2 ^ 63 ≤ x ∧ x < 2 ^ 63

theorem toInt_ofInt_of_fits {x : Int} (h : Fits64 x) : (Int64.ofInt x).toInt = x := by
  rw [Int64.toInt_ofInt]
  exact wrap64_of_fits h.1 h.2

theorem fits64_toInt (x : Int64) : Fits64 x.toInt := ⟨x.le_toInt, x.toInt_lt⟩

theorem seqOfU64_u64OfSeq {x : Int} (h : Fits64 x) : seqOfU64 (u64OfSeq x) = x := by
  rw [seqOfU64, u64OfSeq, Int64.toInt64_toUInt64, toInt_ofInt_of_fits h]

def StpPolicy.toByte : StpPolicy → UInt8
  | .cancelAggressor => 0
  | .cancelPassive => 1
  | .cancelBoth => 2

/-! ## The header -/

structure SnapshotHeader where
  magic : UInt32 := kSnapshotMagic
  version : UInt32 := kSnapshotVersion
  globalSeq : UInt64
  bookSeq : UInt64
  nextTradeId : UInt64
  minPrice : Int64
  maxPrice : Int64
  tick : Int64
  maxOrders : UInt64
  stpPolicy : UInt8
  orderCount : UInt64
  deriving DecidableEq

namespace SnapshotHeader

def size : Nat := 80

def encode (h : SnapshotHeader) : List UInt8 :=
  putU32 h.magic ++ (putU32 h.version ++ (putU64 h.globalSeq ++ (putU64 h.bookSeq ++
    (putU64 h.nextTradeId ++ (putI64 h.minPrice ++ (putI64 h.maxPrice ++ (putI64 h.tick ++
      (putU64 h.maxOrders ++ (putU8 h.stpPolicy ++ (le 7 0 ++ putU64 h.orderCount))))))))))

def decode (bs : List UInt8) : SnapshotHeader where
  magic := getU32 0 bs
  version := getU32 4 bs
  globalSeq := getU64 8 bs
  bookSeq := getU64 16 bs
  nextTradeId := getU64 24 bs
  minPrice := getI64 32 bs
  maxPrice := getI64 40 bs
  tick := getI64 48 bs
  maxOrders := getU64 56 bs
  stpPolicy := getU8 64 bs
  orderCount := getU64 72 bs

@[simp] theorem length_encode (h : SnapshotHeader) : h.encode.length = size := by
  simp [encode, size, Bytes.length_le]

theorem decode_encode_append (h : SnapshotHeader) (bs : List UInt8) :
    decode (h.encode ++ bs) = h := by
  simp [decode, encode, Bytes.length_le]

theorem decode_take (bs : List UInt8) : decode (bs.take size) = decode bs := by
  simp only [decode]
  rw [getU32_take (by decide), getU32_take (by decide), getU64_take (by decide),
    getU64_take (by decide), getU64_take (by decide), getI64_take (by decide),
    getI64_take (by decide), getI64_take (by decide), getU64_take (by decide),
    getU8_take (by decide), getU64_take (by decide)]

end SnapshotHeader

/-! ## Order records -/

structure OrderRecord where
  id : Int64
  price : Int64
  quantity : Int64
  remaining : Int64
  participant : Int64
  seq : Int64
  side : UInt8
  deriving DecidableEq

namespace OrderRecord

def size : Nat := 56

def encode (r : OrderRecord) : List UInt8 :=
  putI64 r.id ++ (putI64 r.price ++ (putI64 r.quantity ++ (putI64 r.remaining ++
    (putI64 r.participant ++ (putI64 r.seq ++ (putU8 r.side ++ le 7 0))))))

def decode (bs : List UInt8) : OrderRecord where
  id := getI64 0 bs
  price := getI64 8 bs
  quantity := getI64 16 bs
  remaining := getI64 24 bs
  participant := getI64 32 bs
  seq := getI64 40 bs
  side := getU8 48 bs

@[simp] theorem length_encode (r : OrderRecord) : r.encode.length = size := by
  simp [encode, size, Bytes.length_le]

theorem decode_encode_append (r : OrderRecord) (bs : List UInt8) : decode (r.encode ++ bs) = r := by
  simp [decode, encode]

theorem decode_take (bs : List UInt8) : decode (bs.take size) = decode bs := by
  simp only [decode]
  rw [getI64_take (by decide), getI64_take (by decide), getI64_take (by decide),
    getI64_take (by decide), getI64_take (by decide), getI64_take (by decide),
    getU8_take (by decide)]

/-- The record of a resting order. -/
def ofOrder (x : RestingOrder) : OrderRecord :=
  ⟨.ofInt x.id, .ofInt x.price, .ofInt x.quantity, .ofInt x.remaining, .ofInt x.participant,
    .ofInt x.seq, x.side.toByte⟩

/-- The order that recovery restores from a record: every resting order is a limit order. The cast
of the side is not checked; a byte that is no side is not `Buy`, so it goes where sells go. -/
def toNewOrder (r : OrderRecord) : NewOrder :=
  ⟨r.id.toInt, r.price.toInt, r.quantity.toInt, r.participant.toInt, .ofByte r.side, .limit⟩

/-- The resting order it becomes. -/
def toOrder (r : OrderRecord) : RestingOrder := r.toNewOrder.resting r.seq.toInt r.remaining.toInt

end OrderRecord

/-- All fields are 64-bit values. -/
structure RestingOrder.Fits (x : RestingOrder) : Prop where
  id : Fits64 x.id
  price : Fits64 x.price
  quantity : Fits64 x.quantity
  remaining : Fits64 x.remaining
  participant : Fits64 x.participant
  seq : Fits64 x.seq

theorem OrderRecord.toOrder_ofOrder {x : RestingOrder} (h : x.Fits) : (ofOrder x).toOrder = x := by
  simp only [toOrder, toNewOrder, ofOrder, NewOrder.resting, toInt_ofInt_of_fits, h.id, h.price,
    h.quantity, h.remaining, h.participant, h.seq, Side.ofByte_toByte]

/-! ## Writing and loading -/

def kSnapshotTrailerSize : Nat := 4

namespace SnapshotWriter

def header (book : OrderBook) (globalSeq : Int) (cfg : BookConfig) (orderCount : Nat) :
    SnapshotHeader where
  globalSeq := u64OfSeq globalSeq
  bookSeq := u64OfSeq book.seq
  nextTradeId := u64OfSeq book.nextTradeId
  minPrice := .ofInt cfg.minPrice
  maxPrice := .ofInt cfg.maxPrice
  tick := .ofInt cfg.tick
  maxOrders := .ofNat cfg.maxOrders
  stpPolicy := cfg.stp.toByte
  orderCount := .ofNat orderCount

/-- The bytes of a file: header, records and their CRC. -/
def file (h : SnapshotHeader) (records : List OrderRecord) : List UInt8 :=
  let buf := h.encode ++ records.flatMap OrderRecord.encode
  buf ++ putU32 (crc32 buf)

/-- What `SnapshotWriter::write` puts into the file. -/
def image (book : OrderBook) (globalSeq : Int) (cfg : BookConfig) : Option (List UInt8) := do
  let orders ← book.canonicalWalk
  some (file (header book globalSeq cfg orders.length) (orders.map OrderRecord.ofOrder))

end SnapshotWriter

structure LoadedSnapshot where
  header : SnapshotHeader
  orders : List OrderRecord

/-- What `tryLoad` makes of a file. `lengthError` is the exception of a `resize` beyond the
largest vector there can be: the size of the body is computed modulo `2 ^ 64`, so a count that
wraps around passes the comparison with the size of the file. -/
inductive SnapshotLoad where
  | rejected
  | loaded (snap : LoadedSnapshot)
  | lengthError

namespace SnapshotReader

/-- `max_size()` of a vector of order records. -/
def maxRecords : Nat := (2 ^ 63 - 1) / OrderRecord.size

def tryLoad (bytes : List UInt8) : SnapshotLoad :=
  if bytes.length < SnapshotHeader.size + kSnapshotTrailerSize then .rejected
  else
    let headerAndBodySize := bytes.length - kSnapshotTrailerSize
    if crc32 (bytes.take headerAndBodySize) ≠ getU32 headerAndBodySize bytes then .rejected
    else
      let h := SnapshotHeader.decode bytes
      if h.magic ≠ kSnapshotMagic ∨ h.version ≠ kSnapshotVersion then .rejected
      else
        let expectedBodySize := h.orderCount.toNat * OrderRecord.size % 2 ^ 64
        if headerAndBodySize ≠ (SnapshotHeader.size + expectedBodySize) % 2 ^ 64 then .rejected
        else if maxRecords < h.orderCount.toNat then .lengthError
        else .loaded ⟨h, (List.range h.orderCount.toNat).map fun i =>
          OrderRecord.decode (bytes.drop (SnapshotHeader.size + i * OrderRecord.size))⟩

/-- The four checks of `tryLoad`. -/
def Passes (bytes : List UInt8) : Prop :=
  SnapshotHeader.size + kSnapshotTrailerSize ≤ bytes.length ∧
  crc32 (bytes.take (bytes.length - kSnapshotTrailerSize)) =
    getU32 (bytes.length - kSnapshotTrailerSize) bytes ∧
  ((SnapshotHeader.decode bytes).magic = kSnapshotMagic ∧
    (SnapshotHeader.decode bytes).version = kSnapshotVersion) ∧
  bytes.length - kSnapshotTrailerSize = (SnapshotHeader.size +
    (SnapshotHeader.decode bytes).orderCount.toNat * OrderRecord.size % 2 ^ 64) % 2 ^ 64

instance (bytes : List UInt8) : Decidable (Passes bytes) := inferInstanceAs (Decidable (_ ∧ _))

theorem tryLoad_eq (bytes : List UInt8) : tryLoad bytes =
    if Passes bytes then
      if maxRecords < (SnapshotHeader.decode bytes).orderCount.toNat then .lengthError
      else .loaded ⟨SnapshotHeader.decode bytes,
        (List.range (SnapshotHeader.decode bytes).orderCount.toNat).map fun i =>
          OrderRecord.decode (bytes.drop (SnapshotHeader.size + i * OrderRecord.size))⟩
    else .rejected := by
  by_cases h : Passes bytes
  · have hmagic : ¬ ((SnapshotHeader.decode bytes).magic ≠ kSnapshotMagic ∨
        (SnapshotHeader.decode bytes).version ≠ kSnapshotVersion) := by
      rw [not_or, not_not, not_not]
      exact h.2.2.1
    simp only [tryLoad]
    rw [if_pos h, if_neg h.1.not_gt, if_neg (not_not.2 h.2.1), if_neg hmagic,
      if_neg (not_not.2 h.2.2.2)]
  · simp only [tryLoad]
    rw [if_neg h]
    split_ifs with hsize hcrc hmagic hbody
    all_goals first
      | rfl
      | rw [not_or, not_not, not_not] at hmagic
        exact absurd ⟨Nat.le_of_not_lt hsize, not_not.1 hcrc, hmagic, not_not.1 hbody⟩ h

theorem decode_file (h : SnapshotHeader) (records : List OrderRecord) :
    SnapshotHeader.decode (SnapshotWriter.file h records) = h := by
  simp only [SnapshotWriter.file, List.append_assoc]
  exact h.decode_encode_append _

/-- What the writer builds passes, as long as the count is right modulo `2 ^ 64`. -/
theorem passes_file {h : SnapshotHeader} {records : List OrderRecord}
    (hmagic : h.magic = kSnapshotMagic) (hversion : h.version = kSnapshotVersion)
    (hcount : h.orderCount.toNat * OrderRecord.size % 2 ^ 64 = records.length * OrderRecord.size)
    (hle : records.length ≤ maxRecords) : Passes (SnapshotWriter.file h records) := by
  obtain ⟨buf, hbuf⟩ : ∃ buf, buf = h.encode ++ records.flatMap OrderRecord.encode := ⟨_, rfl⟩
  have hfile : SnapshotWriter.file h records = buf ++ putU32 (crc32 buf) := by rw [hbuf]; rfl
  have hlen : buf.length = 80 + records.length * 56 := by
    rw [hbuf, List.length_append, h.length_encode, length_flatMap OrderRecord.length_encode]
    rfl
  have hsmall : records.length ≤ 164703072086692425 := hle
  have hsize : (buf ++ putU32 (crc32 buf)).length - kSnapshotTrailerSize = buf.length := by
    rw [List.length_append, length_putU32]
    rfl
  have hdecode := decode_file h records
  rw [hfile] at hdecode ⊢
  rw [Passes, hsize, hdecode, hcount, List.take_left]
  refine ⟨?_, ?_, ⟨hmagic, hversion⟩, ?_⟩
  · rw [List.length_append, length_putU32, hlen, SnapshotHeader.size, kSnapshotTrailerSize]
    omega
  · rw [getU32_append le_rfl, Nat.sub_self, getU32_putU32]
  · rw [hlen, SnapshotHeader.size, OrderRecord.size]
    omega

/-- **The round trip.** What the writer has put into a file is loaded from it. -/
theorem tryLoad_file {h : SnapshotHeader} {records : List OrderRecord}
    (hmagic : h.magic = kSnapshotMagic) (hversion : h.version = kSnapshotVersion)
    (hcount : h.orderCount.toNat = records.length) (hle : records.length ≤ maxRecords) :
    tryLoad (SnapshotWriter.file h records) = .loaded ⟨h, records⟩ := by
  have hsmall : records.length ≤ 164703072086692425 := hle
  have hpass : Passes (SnapshotWriter.file h records) := by
    refine passes_file hmagic hversion ?_ hle
    rw [hcount, OrderRecord.size]
    omega
  rw [tryLoad_eq, if_pos hpass, decode_file, hcount, if_neg (Nat.not_lt.2 hle)]
  congr
  have hdrop : ∀ i, (SnapshotWriter.file h records).drop (SnapshotHeader.size + i * OrderRecord.size) =
      (records.flatMap OrderRecord.encode ++
        putU32 (crc32 (h.encode ++ records.flatMap OrderRecord.encode))).drop
          (i * OrderRecord.size) := by
    intro i
    simp only [SnapshotWriter.file]
    rw [← List.drop_drop, List.append_assoc, List.drop_left' h.length_encode]
  simp only [hdrop]
  exact map_range_drop OrderRecord.length_encode OrderRecord.decode_encode_append records _

/-- A snapshot of a book is loaded with its counters and the records of its walk. -/
theorem tryLoad_image {book : OrderBook} {orders : List RestingOrder} (globalSeq : Int)
    (cfg : BookConfig) (hwalk : book.canonicalWalk = some orders)
    (hcount : orders.length ≤ maxRecords) :
    ∃ bytes, SnapshotWriter.image book globalSeq cfg = some bytes ∧
      tryLoad bytes = .loaded ⟨SnapshotWriter.header book globalSeq cfg orders.length,
        orders.map OrderRecord.ofOrder⟩ := by
  refine ⟨_, by rw [SnapshotWriter.image, hwalk]; rfl, tryLoad_file rfl rfl ?_ ?_⟩
  · have hsmall : orders.length ≤ 164703072086692425 := hcount
    rw [List.length_map]
    exact UInt64.toNat_ofNat_of_lt' (hsmall.trans_lt (by decide))
  · rw [List.length_map]
    exact hcount

/-! ## Any file

What is loaded from a file nobody vouches for. -/

/-- The file passes, and its count is beyond what a vector can hold. -/
def Overcounts (bytes : List UInt8) : Prop :=
  Passes bytes ∧ maxRecords < (SnapshotHeader.decode bytes).orderCount.toNat

instance (bytes : List UInt8) : Decidable (Overcounts bytes) := inferInstanceAs (Decidable (_ ∧ _))

theorem tryLoad_overcounts {bytes : List UInt8} (h : Overcounts bytes) :
    tryLoad bytes = .lengthError := by rw [tryLoad_eq, if_pos h.1, if_pos h.2]

/-- As many records as the file has room for, each from its own bytes. -/
structure LoadedSnapshot.Exact (snap : LoadedSnapshot) (bytes : List UInt8) : Prop where
  header : snap.header = SnapshotHeader.decode (bytes.take SnapshotHeader.size)
  count : snap.header.orderCount.toNat = (bytes.length - 84) / 56
  length : snap.orders.length = (bytes.length - 84) / 56
  record : ∀ i (hi : i < snap.orders.length), 80 + (i + 1) * 56 ≤ bytes.length - 4 ∧
    snap.orders.get ⟨i, hi⟩ = OrderRecord.decode (slice (80 + i * 56) 56 bytes)

/-- A count that a vector can hold is not wrapped around. -/
theorem Passes.length_eq {bytes : List UInt8} (h : Passes bytes)
    (hle : (SnapshotHeader.decode bytes).orderCount.toNat ≤ maxRecords) :
    bytes.length = 84 + (SnapshotHeader.decode bytes).orderCount.toNat * 56 := by
  obtain ⟨hsize, -, -, hbody⟩ := h
  have hsmall : (SnapshotHeader.decode bytes).orderCount.toNat ≤ 164703072086692425 := hle
  simp only [SnapshotHeader.size, kSnapshotTrailerSize, OrderRecord.size] at hsize hbody
  omega

/-- **What the loader accepts is what the file holds**, but for a count that wraps around: then
`resize` throws. -/
theorem tryLoad_exact_iff (bytes : List UInt8) : (tryLoad bytes = .rejected ∨
    ∃ snap, tryLoad bytes = .loaded snap ∧ LoadedSnapshot.Exact snap bytes) ↔
      ¬ Overcounts bytes := by
  constructor
  · intro h hover
    rw [tryLoad_overcounts hover] at h
    rcases h with h | ⟨snap, h, -⟩ <;> cases h
  · intro hover
    rw [tryLoad_eq]
    by_cases hpass : Passes bytes
    · have hle : (SnapshotHeader.decode bytes).orderCount.toNat ≤ maxRecords :=
        Nat.le_of_not_lt fun hlt => hover ⟨hpass, hlt⟩
      have hlength := hpass.length_eq hle
      rw [if_pos hpass, if_neg hle.not_gt]
      refine .inr ⟨_, rfl, (SnapshotHeader.decode_take bytes).symm, ?_, ?_, fun i hi => ⟨?_, ?_⟩⟩
      · change (SnapshotHeader.decode bytes).orderCount.toNat = _
        omega
      · rw [List.length_map, List.length_range]
        omega
      · rw [List.length_map, List.length_range] at hi
        omega
      · rw [List.get_eq_getElem, List.getElem_map, List.getElem_range, ← OrderRecord.decode_take]
        rfl
    · exact .inl (if_neg hpass)

/-- A file without any record whose header counts `2 ^ 61` of them. -/
def overcountFile : List UInt8 :=
  SnapshotWriter.file ⟨kSnapshotMagic, kSnapshotVersion, 0, 0, 1, 0, 100, 1, 10, 0, 0x2000000000000000⟩ []

theorem tryLoad_overcountFile : ¬ (tryLoad overcountFile = .rejected ∨
    ∃ snap, tryLoad overcountFile = .loaded snap ∧ LoadedSnapshot.Exact snap overcountFile) := by
  have hover : Overcounts overcountFile := by
    refine ⟨passes_file rfl rfl rfl (Nat.zero_le _), ?_⟩
    rw [overcountFile, decode_file]
    decide
  rw [tryLoad_overcounts hover]
  rintro (h | ⟨snap, h, -⟩) <;> cases h

end SnapshotReader

end Velox
