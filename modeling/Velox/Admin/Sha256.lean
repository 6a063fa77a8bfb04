import Mathlib.Tactic
import Velox.Lib.Bytes
import Velox.Lib.Text

/-!
# SHA-256 and HMAC

Following `admin/sha256.hpp` and `admin/hmac_sha256.hpp`. The message is padded to blocks of 64
bytes (`pad`), and every block is mixed into a state of eight words. The comparison of two digests
looks at all bytes and says whether they are equal (`constantTimeEquals_iff`).
-/

namespace Velox.Sha256

def kSha256K : List UInt32 := [
  0x428a2f98, 0x71374491, 0xb5c0fbcf, 0xe9b5dba5, 0x3956c25b, 0x59f111f1, 0x923f82a4, 0xab1c5ed5,
  0xd807aa98, 0x12835b01, 0x243185be, 0x550c7dc3, 0x72be5d74, 0x80deb1fe, 0x9bdc06a7, 0xc19bf174,
  0xe49b69c1, 0xefbe4786, 0x0fc19dc6, 0x240ca1cc, 0x2de92c6f, 0x4a7484aa, 0x5cb0a9dc, 0x76f988da,
  0x983e5152, 0xa831c66d, 0xb00327c8, 0xbf597fc7, 0xc6e00bf3, 0xd5a79147, 0x06ca6351, 0x14292967,
  0x27b70a85, 0x2e1b2138, 0x4d2c6dfc, 0x53380d13, 0x650a7354, 0x766a0abb, 0x81c2c92e, 0x92722c85,
  0xa2bfe8a1, 0xa81a664b, 0xc24b8b70, 0xc76c51a3, 0xd192e819, 0xd6990624, 0xf40e3585, 0x106aa070,
  0x19a4c116, 0x1e376c08, 0x2748774c, 0x34b0bcb5, 0x391c0cb3, 0x4ed8aa4a, 0x5b9cca4f, 0x682e6ff3,
  0x748f82ee, 0x78a5636f, 0x84c87814, 0x8cc70208, 0x90befffa, 0xa4506ceb, 0xbef9a3f7, 0xc67178f2]

def rotr (v bits : UInt32) : UInt32 := v >>> bits ||| v <<< (32 - bits)

/-! ## Padding -/

def paddedLen (len : Nat) : Nat := ((len + 8) / 64 + 1) * 64

/-- The length in bits, most significant byte first. -/
def lengthBytes (len : Nat) : List UInt8 :=
  let bitLen := UInt64.ofNat len * 8
  let shifts : List UInt64 := [56, 48, 40, 32, 24, 16, 8, 0]
  shifts.map fun shift => (bitLen >>> shift &&& 0xFF).toUInt8

def pad (data : List UInt8) : List UInt8 :=
  data ++ 0x80 :: (List.replicate (paddedLen data.length - data.length - 9) 0 ++
    lengthBytes data.length)

/-! ## One block -/

/-- The first 16 words of the schedule. -/
def words : List UInt8 → List UInt32
  | b₀ :: b₁ :: b₂ :: b₃ :: rest =>
    (b₀.toUInt32 <<< 24 ||| b₁.toUInt32 <<< 16 ||| b₂.toUInt32 <<< 8 ||| b₃.toUInt32) :: words rest
  | _ => []

/-- The rest of the schedule. The words are in reverse, so `w[i - k]` is at place `k - 1`. -/
def extend : Nat → List UInt32 → List UInt32
  | 0, w => w
  | n + 1, w =>
    let w₁₅ := w.getD 14 0
    let w₂ := w.getD 1 0
    let s₀ := rotr w₁₅ 7 ^^^ rotr w₁₅ 18 ^^^ w₁₅ >>> 3
    let s₁ := rotr w₂ 17 ^^^ rotr w₂ 19 ^^^ w₂ >>> 10
    extend n ((w.getD 15 0 + s₀ + w.getD 6 0 + s₁) :: w)

def schedule (block : List UInt8) : List UInt32 := (extend 48 (words block).reverse).reverse

structure State where
  a : UInt32
  b : UInt32
  c : UInt32
  d : UInt32
  e : UInt32
  f : UInt32
  g : UInt32
  hh : UInt32

def State.round (s : State) (k w : UInt32) : State :=
  let s₁ := rotr s.e 6 ^^^ rotr s.e 11 ^^^ rotr s.e 25
  let ch := (s.e &&& s.f) ^^^ (~~~s.e &&& s.g)
  let temp₁ := s.hh + s₁ + ch + k + w
  let s₀ := rotr s.a 2 ^^^ rotr s.a 13 ^^^ rotr s.a 22
  let maj := (s.a &&& s.b) ^^^ (s.a &&& s.c) ^^^ (s.b &&& s.c)
  let temp₂ := s₀ + maj
  ⟨temp₁ + temp₂, s.a, s.b, s.c, s.d + temp₁, s.e, s.f, s.g⟩

def State.add (s t : State) : State :=
  ⟨s.a + t.a, s.b + t.b, s.c + t.c, s.d + t.d, s.e + t.e, s.f + t.f, s.g + t.g, s.hh + t.hh⟩

def State.compress (h : State) (block : List UInt8) : State :=
  h.add ((kSha256K.zip (schedule block)).foldl (fun s kw => s.round kw.1 kw.2) h)

/-! ## The hash -/

def State.initial : State :=
  ⟨0x6a09e667, 0xbb67ae85, 0x3c6ef372, 0xa54ff53a, 0x510e527f, 0x9b05688c, 0x1f83d9ab, 0x5be0cd19⟩

def wordBytes (x : UInt32) : List UInt8 :=
  [(x >>> 24 &&& 0xFF).toUInt8, (x >>> 16 &&& 0xFF).toUInt8, (x >>> 8 &&& 0xFF).toUInt8,
    (x &&& 0xFF).toUInt8]

def State.digest (s : State) : List UInt8 :=
  [s.a, s.b, s.c, s.d, s.e, s.f, s.g, s.hh].flatMap wordBytes

def sha256 (data : List UInt8) : List UInt8 :=
  let msg := pad data
  ((List.range (msg.length / 64)).foldl
    (fun h i => State.compress h ((msg.drop (64 * i)).take 64)) State.initial).digest

/-- The padding fills whole blocks. -/
theorem length_pad (data : List UInt8) : (pad data).length = paddedLen data.length := by
  have hlen : (lengthBytes data.length).length = 8 := rfl
  simp only [pad, List.length_append, List.length_cons, List.length_replicate, hlen, paddedLen]
  omega

@[simp] theorem length_sha256 (data : List UInt8) : (sha256 data).length = 32 := rfl

example : sha256 (text "abc") =
    [0xba, 0x78, 0x16, 0xbf, 0x8f, 0x01, 0xcf, 0xea, 0x41, 0x41, 0x40, 0xde, 0x5d, 0xae, 0x22, 0x23,
      0xb0, 0x03, 0x61, 0xa3, 0x96, 0x17, 0x7a, 0x9c, 0xb4, 0x10, 0xff, 0x61, 0xf2, 0x00, 0x15,
      0xad] := by
  decide +kernel

/-! ## HMAC -/

def kSha256BlockSize : Nat := 64

/-- A key that is longer than a block is hashed; the rest of the block is zero. -/
def keyBlock (key : List UInt8) : List UInt8 :=
  let k := if kSha256BlockSize < key.length then sha256 key else key
  k ++ List.replicate (kSha256BlockSize - k.length) 0

def hmacSha256 (key data : List UInt8) : List UInt8 :=
  let ipad := (keyBlock key).map (· ^^^ 0x36)
  let opad := (keyBlock key).map (· ^^^ 0x5c)
  sha256 (opad ++ sha256 (ipad ++ data))

@[simp] theorem length_hmacSha256 (key data : List UInt8) : (hmacSha256 key data).length = 32 :=
  length_sha256 _

theorem length_keyBlock (key : List UInt8) : (keyBlock key).length = kSha256BlockSize := by
  by_cases h : kSha256BlockSize < key.length
  · simp only [keyBlock, if_pos h, List.length_append, List.length_replicate, length_sha256]
    rfl
  · simp only [keyBlock, if_neg h, List.length_append, List.length_replicate]
    omega

example : hmacSha256 (text "Jefe") (text "what do ya want for nothing?") =
    [0x5b, 0xdc, 0xc1, 0x46, 0xbf, 0x60, 0x75, 0x4e, 0x6a, 0x04, 0x24, 0x26, 0x08, 0x95, 0x75, 0xc7,
      0x5a, 0x00, 0x3f, 0x08, 0x9d, 0x27, 0x39, 0x83, 0x9d, 0xec, 0x58, 0xb9, 0x64, 0xec, 0x38,
      0x43] := by
  decide +kernel

/-! ## Comparing digests -/

/-- The differences of all bytes are collected before one is looked at. -/
def constantTimeEquals (a b : List UInt8) : Bool :=
  (a.zipWith (· ^^^ ·) b).foldl (· ||| ·) 0 = 0

theorem constantTimeEquals_iff {a b : List UInt8} (h : a.length = b.length) :
    constantTimeEquals a b = true ↔ a = b := by
  rw [constantTimeEquals, decide_eq_true_eq, Bytes.differences_eq_zero_iff h]

end Velox.Sha256
