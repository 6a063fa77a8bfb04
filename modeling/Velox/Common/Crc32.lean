import Velox.Lib.ShiftRegister

/-!
# CRC-32

Following `common/crc32.hpp`: the reflected IEEE polynomial, a byte at a time. The table of the
source is the function `crc32Table` here.
-/

namespace Velox

def kPoly : UInt32 := 0xEDB88320

/-- One bit of the table generator. -/
def crc32Step (c : UInt32) : UInt32 := if c &&& 1 ≠ 0 then kPoly ^^^ (c >>> 1) else c >>> 1

/-- The entry `i` of the table. -/
def crc32Table (i : UInt32) : UInt32 := crc32Step^[8] i

def crc32 (bytes : List UInt8) : UInt32 :=
  bytes.foldl (fun c b => crc32Table ((c ^^^ b.toUInt32) &&& 0xFF) ^^^ (c >>> 8)) 0xFFFFFFFF ^^^
    0xFFFFFFFF

/-- The check value that the source quotes: the digits `1` to `9`. -/
example : crc32 [49, 50, 51, 52, 53, 54, 55, 56, 57] = 0xCBF43926 := by decide +kernel

/-! ## The register behind the table -/

open Bytes ShiftRegister

theorem toBitVec_crc32Step (c : UInt32) :
    (crc32Step c).toBitVec = shift kPoly.toBitVec c.toBitVec := by
  have hlow : (c &&& 1 ≠ 0) ↔ c.toBitVec.getLsbD 0 = true := by
    have hbit : (c &&& 1).toBitVec = BitVec.setWidth 32 (.ofBool (c.toBitVec.getLsbD 0)) :=
      BitVec.and_one_eq_setWidth_ofBool_getLsbD
    rw [ne_eq, ← UInt32.toBitVec_inj, hbit]
    cases c.toBitVec.getLsbD 0 <;> decide
  rw [crc32Step, shift]
  split_ifs with h h' h'
  · rfl
  · exact absurd (hlow.1 h) h'
  · exact absurd (hlow.2 h') h
  · rfl

theorem toBitVec_iterate_crc32Step (n : Nat) (c : UInt32) :
    (crc32Step^[n] c).toBitVec = (shift kPoly.toBitVec)^[n] c.toBitVec :=
  Function.Semiconj.iterate_right toBitVec_crc32Step n c

/-- The loop of `crc32` feeds the bytes to the register. -/
theorem toBitVec_crc32 (bs : List UInt8) : (crc32 bs).toBitVec =
    bs.foldl (absorb kPoly.toBitVec) (BitVec.allOnes 32) ^^^ BitVec.allOnes 32 := by
  have hloop : ∀ c : UInt32, (bs.foldl (fun c b =>
      crc32Table ((c ^^^ b.toUInt32) &&& 0xFF) ^^^ (c >>> 8)) c).toBitVec =
        bs.foldl (absorb kPoly.toBitVec) c.toBitVec := by
    induction bs with
    | nil => exact fun c => rfl
    | cons b bs ih =>
      intro c
      have hbyte : (crc32Table ((c ^^^ b.toUInt32) &&& 0xFF) ^^^ (c >>> 8)).toBitVec =
          absorb kPoly.toBitVec c.toBitVec b := by
        have hb : b.toUInt32.toBitVec = BitVec.ofNat 32 b.toNat := by
          apply BitVec.eq_of_toNat_eq
          simp
        rw [absorb_eq (by decide), UInt32.toBitVec_xor, crc32Table, toBitVec_iterate_crc32Step,
          UInt32.toBitVec_and, UInt32.toBitVec_xor, hb]
        rfl
      rw [List.foldl_cons, ih, hbyte, List.foldl_cons]
  rw [crc32, UInt32.toBitVec_xor, hloop]
  rfl

/-- The four bytes behind `data` are its CRC if and only if all of it together leaves one and the
same register behind. -/
theorem crc32_eq_iff (data : List UInt8) {t : List UInt8} (ht : t.length = 4) :
    crc32 data = .ofNat (ofLe t) ↔ (data ++ t).foldl (absorb kPoly.toBitVec) (BitVec.allOnes 32) =
      (shift kPoly.toBitVec)^[32] (BitVec.allOnes 32) := by
  have hroom : 8 * t.length ≤ 32 := by omega
  have hword : (UInt32.ofNat (ofLe t)).toBitVec = BitVec.ofNat 32 (ofLe t) := rfl
  rw [← UInt32.toBitVec_inj, toBitVec_crc32, List.foldl_append, foldl_absorb hroom, ht, hword,
    ((shift_injective (by decide)).iterate 32).eq_iff]
  have hswap : ∀ c x y : BitVec 32, c ^^^ x = y → c ^^^ y = x := by
    rintro c x y rfl
    rw [← BitVec.xor_assoc, BitVec.xor_self, BitVec.zero_xor]
  exact ⟨hswap _ _ _, hswap _ _ _⟩

/-- **Detection.** A change within four consecutive bytes of data and CRC, or across the two, does
not leave a matching CRC. -/
theorem crc32_burst {n : Nat} {a b : List UInt8} (h : Burst 4 a b) (hlen : a.length = n + 4)
    (ha : crc32 (a.take n) = getU32 n a) : crc32 (b.take n) ≠ getU32 n b := by
  have hregister : ∀ t : List UInt8, t.length = n + 4 → crc32 (t.take n) = getU32 n t →
      t.foldl (absorb kPoly.toBitVec) (BitVec.allOnes 32) =
        (shift kPoly.toBitVec)^[32] (BitVec.allOnes 32) := by
    intro t ht hcrc
    have hfour : (t.drop n).length = 4 := by rw [List.length_drop, ht, Nat.add_sub_cancel_left]
    rw [getU32, Bytes.get, List.take_of_length_le hfour.le, crc32_eq_iff _ hfour,
      List.take_append_drop] at hcrc
    exact hcrc
  intro hb
  refine h.foldl_absorb_ne (by decide) (by decide) (BitVec.allOnes 32)
    ((hregister a hlen ha).trans (hregister b ?_ hb).symm)
  rw [← h.length, hlen]

end Velox
