import Mathlib.Data.FinEnum
import Mathlib.Data.List.DropRight
import Velox.Lib.Text

/-!
# Base64

Following `common/base64.hpp`: both alphabets of RFC 4648, with and without padding. Decoding is
the inverse of encoding. It takes off every `=` at the end of its input, however many there are, so
that it accepts more than the texts that its comment describes (`base64_exact`).
-/

namespace Velox.Base64

def kStd : List UInt8 := text "ABCDEFGHIJKLMNOPQRSTUVWXYZabcdefghijklmnopqrstuvwxyz0123456789+/"

def kUrl : List UInt8 := text "ABCDEFGHIJKLMNOPQRSTUVWXYZabcdefghijklmnopqrstuvwxyz0123456789-_"

def table (urlSafe : Bool) : List UInt8 := if urlSafe then kUrl else kStd

def kPad : UInt8 := '='.toUInt8

/-- `table[(n >> shift) & 0x3F]`. -/
def letter (urlSafe : Bool) (n shift : UInt32) : UInt8 :=
  (table urlSafe).getD (n >>> shift &&& 0x3F).toNat 0

def base64Encode (urlSafe pad : Bool) : List UInt8 → List UInt8
  | a :: b :: c :: rest =>
    let n := a.toUInt32 <<< 16 ||| b.toUInt32 <<< 8 ||| c.toUInt32
    letter urlSafe n 18 :: letter urlSafe n 12 :: letter urlSafe n 6 :: letter urlSafe n 0 ::
      base64Encode urlSafe pad rest
  | [a, b] =>
    let n := a.toUInt32 <<< 16 ||| b.toUInt32 <<< 8
    [letter urlSafe n 18, letter urlSafe n 12, letter urlSafe n 6] ++ if pad then [kPad] else []
  | [a] =>
    let n := a.toUInt32 <<< 16
    [letter urlSafe n 18, letter urlSafe n 12] ++ if pad then [kPad, kPad] else []
  | [] => []

/-- The place of a character in the alphabet; `none` where the source has -1. -/
def valueOf (urlSafe : Bool) (c : UInt8) : Option UInt32 :=
  if 'A'.toUInt8 ≤ c ∧ c ≤ 'Z'.toUInt8 then some (c - 'A'.toUInt8).toUInt32
  else if 'a'.toUInt8 ≤ c ∧ c ≤ 'z'.toUInt8 then some ((c - 'a'.toUInt8).toUInt32 + 26)
  else if '0'.toUInt8 ≤ c ∧ c ≤ '9'.toUInt8 then some ((c - '0'.toUInt8).toUInt32 + 52)
  else if urlSafe then
    if c = '-'.toUInt8 then some 62 else if c = '_'.toUInt8 then some 63 else none
  else
    if c = '+'.toUInt8 then some 62 else if c = '/'.toUInt8 then some 63 else none

/-- `(n >> shift) & 0xFF`. -/
def octet (n shift : UInt32) : UInt8 := (n >>> shift &&& 0xFF).toUInt8

/-- The loop over the groups of four characters, and what is left after it. -/
def decodeGroups (urlSafe : Bool) : List UInt8 → Option (List UInt8)
  | c0 :: c1 :: c2 :: c3 :: rest => do
    let v0 ← valueOf urlSafe c0
    let v1 ← valueOf urlSafe c1
    let v2 ← valueOf urlSafe c2
    let v3 ← valueOf urlSafe c3
    let n24 := v0 <<< 18 ||| v1 <<< 12 ||| v2 <<< 6 ||| v3
    let out ← decodeGroups urlSafe rest
    some (octet n24 16 :: octet n24 8 :: octet n24 0 :: out)
  | [c0, c1, c2] => do
    let v0 ← valueOf urlSafe c0
    let v1 ← valueOf urlSafe c1
    let v2 ← valueOf urlSafe c2
    let n18 := v0 <<< 12 ||| v1 <<< 6 ||| v2
    some [octet n18 10, octet n18 2]
  | [c0, c1] => do
    let v0 ← valueOf urlSafe c0
    let v1 ← valueOf urlSafe c1
    let n12 := v0 <<< 6 ||| v1
    some [octet n12 4]
  | _ => some []

def base64Decode (urlSafe : Bool) (input : List UInt8) : Option (List UInt8) :=
  let body := input.rdropWhile (· = kPad)
  if kPad ∈ body then none
  else if body.length % 4 = 1 then none
  else decodeGroups urlSafe body

/-! ## The alphabets -/

theorem valueOf_getD (urlSafe : Bool) (i : Fin 64) :
    valueOf urlSafe ((table urlSafe).getD i 0) = some (UInt32.ofNat i) := by
  revert urlSafe i
  decide +kernel

theorem valueOf_isSome_iff (urlSafe : Bool) (c : UInt8) :
    (valueOf urlSafe c).isSome ↔ c ∈ table urlSafe := by
  revert urlSafe c
  decide +kernel

theorem kPad_notMem_table (urlSafe : Bool) : kPad ∉ table urlSafe := by
  revert urlSafe
  decide +kernel

/-! ## Bits -/

theorem toNat_or_of_lt {x y : UInt32} (k : Nat) (hx : 2 ^ k ∣ x.toNat) (hy : y.toNat < 2 ^ k) :
    (x ||| y).toNat = x.toNat + y.toNat := by
  obtain ⟨a, ha⟩ := hx
  rw [UInt32.toNat_or, ha, Nat.two_pow_add_eq_or_of_lt hy]

theorem toNat_shl {x : UInt32} (k : UInt32) (hk : k.toNat < 32)
    (hx : x.toNat * 2 ^ k.toNat < 2 ^ 32) : (x <<< k).toNat = x.toNat * 2 ^ k.toNat := by
  rw [UInt32.toNat_shiftLeft, Nat.mod_eq_of_lt hk, Nat.shiftLeft_eq, Nat.mod_eq_of_lt hx]

theorem toNat_sextet (n : UInt32) {shift : UInt32} (h : shift.toNat < 32) :
    (n >>> shift &&& 0x3F).toNat = n.toNat / 2 ^ shift.toNat % 64 := by
  rw [UInt32.toNat_and, UInt32.toNat_shiftRight, Nat.mod_eq_of_lt h, Nat.shiftRight_eq_div_pow]
  exact Nat.and_two_pow_sub_one_eq_mod _ 6

theorem toNat_octet (n : UInt32) {shift : UInt32} (h : shift.toNat < 32) :
    (octet n shift).toNat = n.toNat / 2 ^ shift.toNat % 256 := by
  rw [octet, UInt32.toNat_toUInt8, UInt32.toNat_and, UInt32.toNat_shiftRight, Nat.mod_eq_of_lt h,
    Nat.shiftRight_eq_div_pow]
  have hand : ∀ m : Nat, m &&& (255 : UInt32).toNat = m % 256 :=
    fun m => Nat.and_two_pow_sub_one_eq_mod m 8
  rw [hand, Nat.mod_mod]

theorem letter_eq (urlSafe : Bool) (n shift : UInt32) :
    valueOf urlSafe (letter urlSafe n shift) = some (n >>> shift &&& 0x3F) := by
  have hlt : (n >>> shift &&& 0x3F).toNat < 64 := by
    rw [UInt32.toNat_and]
    exact Nat.lt_of_le_of_lt Nat.and_le_right (by decide)
  have h := valueOf_getD urlSafe ⟨_, hlt⟩
  rwa [UInt32.ofNat_toNat] at h

/-! ## One group -/

section Group

variable (a b c : UInt8)

theorem toNat_three : (a.toUInt32 <<< 16 ||| b.toUInt32 <<< 8 ||| c.toUInt32).toNat =
    a.toNat * 65536 + b.toNat * 256 + c.toNat := by
  have ha := a.toNat_lt
  have hb := b.toNat_lt
  have hc := c.toNat_lt
  have hshiftA : (a.toUInt32 <<< 16).toNat = a.toNat * 65536 :=
    toNat_shl 16 (by decide) (by simp; omega)
  have hshiftB : (b.toUInt32 <<< 8).toNat = b.toNat * 256 :=
    toNat_shl 8 (by decide) (by simp; omega)
  have hab : (a.toUInt32 <<< 16 ||| b.toUInt32 <<< 8).toNat = a.toNat * 65536 + b.toNat * 256 := by
    rw [toNat_or_of_lt 16 (by rw [hshiftA]; omega) (by rw [hshiftB]; omega), hshiftA, hshiftB]
  rw [toNat_or_of_lt 8 (by rw [hab]; omega) (by simpa using hc), hab, UInt8.toNat_toUInt32]

theorem toNat_two : (a.toUInt32 <<< 16 ||| b.toUInt32 <<< 8).toNat =
    a.toNat * 65536 + b.toNat * 256 := by
  have h := toNat_three a b 0
  simpa using h

theorem toNat_one : (a.toUInt32 <<< 16).toNat = a.toNat * 65536 := by
  have h := toNat_two a 0
  simpa using h

end Group

section Sextets

variable {v0 v1 v2 v3 : UInt32} (h0 : v0.toNat < 64) (h1 : v1.toNat < 64) (h2 : v2.toNat < 64)

include h0 h1

theorem toNat_sextets2 : (v0 <<< 6 ||| v1).toNat = v0.toNat * 64 + v1.toNat := by
  have hshift : (v0 <<< 6).toNat = v0.toNat * 64 := toNat_shl 6 (by decide) (by simp; omega)
  rw [toNat_or_of_lt 6 (by rw [hshift]; omega) h1, hshift]

include h2

theorem toNat_sextets3 : (v0 <<< 12 ||| v1 <<< 6 ||| v2).toNat =
    v0.toNat * 4096 + v1.toNat * 64 + v2.toNat := by
  have hshift0 : (v0 <<< 12).toNat = v0.toNat * 4096 := toNat_shl 12 (by decide) (by simp; omega)
  have hshift1 : (v1 <<< 6).toNat = v1.toNat * 64 := toNat_shl 6 (by decide) (by simp; omega)
  have h01 : (v0 <<< 12 ||| v1 <<< 6).toNat = v0.toNat * 4096 + v1.toNat * 64 := by
    rw [toNat_or_of_lt 12 (by rw [hshift0]; omega) (by rw [hshift1]; omega), hshift0, hshift1]
  rw [toNat_or_of_lt 6 (by rw [h01]; omega) h2, h01]

theorem toNat_sextets4 (h3 : v3.toNat < 64) : (v0 <<< 18 ||| v1 <<< 12 ||| v2 <<< 6 ||| v3).toNat =
    v0.toNat * 262144 + v1.toNat * 4096 + v2.toNat * 64 + v3.toNat := by
  have hshift0 : (v0 <<< 18).toNat = v0.toNat * 262144 := toNat_shl 18 (by decide) (by simp; omega)
  have hshift1 : (v1 <<< 12).toNat = v1.toNat * 4096 := toNat_shl 12 (by decide) (by simp; omega)
  have hshift2 : (v2 <<< 6).toNat = v2.toNat * 64 := toNat_shl 6 (by decide) (by simp; omega)
  have h01 : (v0 <<< 18 ||| v1 <<< 12).toNat = v0.toNat * 262144 + v1.toNat * 4096 := by
    rw [toNat_or_of_lt 18 (by rw [hshift0]; omega) (by rw [hshift1]; omega), hshift0, hshift1]
  have h012 : (v0 <<< 18 ||| v1 <<< 12 ||| v2 <<< 6).toNat =
      v0.toNat * 262144 + v1.toNat * 4096 + v2.toNat * 64 := by
    rw [toNat_or_of_lt 12 (by rw [h01]; omega) (by rw [hshift2]; omega), h01, hshift2]
  rw [toNat_or_of_lt 6 (by rw [h012]; omega) h3, h012]

end Sextets

/-! ## Decoding what was encoded -/

theorem sextet_lt (n : UInt32) {shift : UInt32} (h : shift.toNat < 32) :
    (n >>> shift &&& 0x3F).toNat < 64 := by
  rw [toNat_sextet n h]
  exact Nat.mod_lt _ (by decide)

section Sextet

variable {n : UInt32} (hn : n.toNat < 2 ^ 24)

include hn

theorem toNat_regroup2 : ((n >>> 18 &&& 0x3F) <<< 6 ||| (n >>> 12 &&& 0x3F)).toNat =
    n.toNat / 4096 := by
  have h18 : _ = n.toNat / 262144 % 64 := @toNat_sextet n 18 (by decide)
  have h12 : _ = n.toNat / 4096 % 64 := @toNat_sextet n 12 (by decide)
  rw [toNat_sextets2 (sextet_lt n (by decide)) (sextet_lt n (by decide)), h18, h12]
  omega

theorem toNat_regroup3 : ((n >>> 18 &&& 0x3F) <<< 12 ||| (n >>> 12 &&& 0x3F) <<< 6 |||
    (n >>> 6 &&& 0x3F)).toNat = n.toNat / 64 := by
  have h18 : _ = n.toNat / 262144 % 64 := @toNat_sextet n 18 (by decide)
  have h12 : _ = n.toNat / 4096 % 64 := @toNat_sextet n 12 (by decide)
  have h6 : _ = n.toNat / 64 % 64 := @toNat_sextet n 6 (by decide)
  rw [toNat_sextets3 (sextet_lt n (by decide)) (sextet_lt n (by decide))
    (sextet_lt n (by decide)), h18, h12, h6]
  omega

theorem toNat_regroup4 : ((n >>> 18 &&& 0x3F) <<< 18 ||| (n >>> 12 &&& 0x3F) <<< 12 |||
    (n >>> 6 &&& 0x3F) <<< 6 ||| (n >>> 0 &&& 0x3F)).toNat = n.toNat := by
  have h18 : _ = n.toNat / 262144 % 64 := @toNat_sextet n 18 (by decide)
  have h12 : _ = n.toNat / 4096 % 64 := @toNat_sextet n 12 (by decide)
  have h6 : _ = n.toNat / 64 % 64 := @toNat_sextet n 6 (by decide)
  have h0 : _ = n.toNat / 1 % 64 := @toNat_sextet n 0 (by decide)
  rw [toNat_sextets4 (sextet_lt n (by decide)) (sextet_lt n (by decide))
    (sextet_lt n (by decide)) (sextet_lt n (by decide)), h18, h12, h6, h0]
  omega

end Sextet

theorem octet_eq {n shift : UInt32} {a : UInt8} (h : shift.toNat < 32)
    (ha : n.toNat / 2 ^ shift.toNat % 256 = a.toNat) : octet n shift = a := by
  rw [← UInt8.toNat_inj, toNat_octet n h, ha]

theorem decodeGroups_encode (urlSafe : Bool) (x : List UInt8) :
    decodeGroups urlSafe (base64Encode urlSafe false x) = some x := by
  -- The cases of `base64Encode`: a whole group, two bytes, one byte, none.
  fun_induction base64Encode urlSafe false x with
  | case1 a b c rest n ih =>
    have ha := a.toNat_lt
    have hb := b.toNat_lt
    have hc := c.toNat_lt
    have hn : n.toNat = a.toNat * 65536 + b.toNat * 256 + c.toNat := toNat_three a b c
    have hgroup := toNat_regroup4 (n := n) (by omega)
    simp only [decodeGroups, letter_eq, ih, Option.bind_eq_bind, Option.bind_some]
    rw [octet_eq (a := a) (by decide) (by rw [hgroup, hn]; simp; omega),
      octet_eq (a := b) (by decide) (by rw [hgroup, hn]; simp; omega),
      octet_eq (a := c) (by decide) (by rw [hgroup, hn]; simp; omega)]
  | case2 a b n =>
    have ha := a.toNat_lt
    have hb := b.toNat_lt
    have hn : n.toNat = a.toNat * 65536 + b.toNat * 256 := toNat_two a b
    have hgroup := toNat_regroup3 (n := n) (by omega)
    simp only [decodeGroups, letter_eq, Option.bind_eq_bind, Option.bind_some, List.cons_append,
      List.nil_append, Bool.false_eq_true, if_false]
    rw [octet_eq (a := a) (by decide) (by rw [hgroup, hn]; simp; omega),
      octet_eq (a := b) (by decide) (by rw [hgroup, hn]; simp; omega)]
  | case3 a n =>
    have ha := a.toNat_lt
    have hn : n.toNat = a.toNat * 65536 := toNat_one a
    have hgroup := toNat_regroup2 (n := n) (by omega)
    simp only [decodeGroups, letter_eq, Option.bind_eq_bind, Option.bind_some, List.cons_append,
      List.nil_append, Bool.false_eq_true, if_false]
    rw [octet_eq (a := a) (by decide) (by rw [hgroup, hn]; simp; omega)]
  | case4 => rfl

theorem encode_pad (urlSafe pad : Bool) (x : List UInt8) :
    base64Encode urlSafe pad x = base64Encode urlSafe false x ++
      List.replicate (if pad then (3 - x.length % 3) % 3 else 0) kPad := by
  fun_induction base64Encode urlSafe pad x with
  | case1 a b c rest n ih =>
    have hlen : (a :: b :: c :: rest).length % 3 = rest.length % 3 := by simp; omega
    rw [hlen, ih]
    rfl
  | case2 a b n => cases pad <;> rfl
  | case3 a n => cases pad <;> rfl
  | case4 => cases pad <;> rfl

theorem length_encode (urlSafe : Bool) (x : List UInt8) :
    (base64Encode urlSafe false x).length % 4 ≠ 1 := by
  fun_induction base64Encode urlSafe false x with
  | case1 a b c rest n ih =>
    simp only [List.length_cons]
    omega
  | case2 a b n => simp
  | case3 a n => simp
  | case4 => simp

theorem decodeGroups_isSome_iff (urlSafe : Bool) {body : List UInt8} (h : body.length % 4 ≠ 1) :
    (decodeGroups urlSafe body).isSome ↔ ∀ c ∈ body, c ∈ table urlSafe := by
  simp only [← valueOf_isSome_iff]
  fun_induction decodeGroups urlSafe body with
  | case1 c0 c1 c2 c3 rest ih =>
    have hrest : rest.length % 4 ≠ 1 := by simp at h; omega
    simp only [Option.isSome_iff_exists] at ih ⊢
    simp [Option.bind_eq_some_iff, ih hrest]
  | case2 c0 c1 c2 => simp [Option.isSome_iff_exists, Option.bind_eq_some_iff]
  | case3 c0 c1 => simp [Option.isSome_iff_exists, Option.bind_eq_some_iff]
  | case4 rest hlong hthree htwo =>
    -- Nothing is left but the empty text: one character was excluded.
    match rest, hlong, hthree, htwo with
    | [], _, _, _ => simp
    | [c], _, _, _ => simp at h
    | [c0, c1], _, _, htwo => exact (htwo c0 c1 rfl).elim
    | [c0, c1, c2], _, hthree, _ => exact (hthree c0 c1 c2 rfl).elim
    | c0 :: c1 :: c2 :: c3 :: rest, hlong, _, _ => exact (hlong c0 c1 c2 c3 rest rfl).elim

/-! ## Padding -/

theorem rdropWhile_pad {body : List UInt8} (h : kPad ∉ body) (k : Nat) :
    (body ++ List.replicate k kPad).rdropWhile (· = kPad) = body := by
  induction k with
  | zero =>
    rw [List.replicate_zero, List.append_nil, List.rdropWhile_eq_self_iff]
    intro hne hlast
    exact h (of_decide_eq_true hlast ▸ List.getLast_mem hne)
  | succ k ih =>
    rw [List.replicate_succ', ← List.append_assoc, List.rdropWhile_concat_pos _ _ _ (by simp), ih]

theorem exists_pad (s : List UInt8) :
    ∃ k, s = s.rdropWhile (· = kPad) ++ List.replicate k kPad := by
  induction s using List.reverseRecOn with
  | nil => exact ⟨0, rfl⟩
  | append_singleton s c ih =>
    by_cases hc : c = kPad
    · obtain ⟨k, hk⟩ := ih
      rw [List.rdropWhile_concat_pos _ _ _ (by simpa using hc)]
      refine ⟨k + 1, ?_⟩
      rw [List.replicate_succ', ← List.append_assoc, ← hk, hc]
    · rw [List.rdropWhile_concat_neg _ _ _ (by simpa using hc)]
      exact ⟨0, by simp⟩

/-- `s` is made of whole bytes' worth of characters, `body`, and then of `k` equals signs. -/
def Grouped (urlSafe : Bool) (s body : List UInt8) (k : Nat) : Prop :=
  s = body ++ List.replicate k kPad ∧ (∀ c ∈ body, c ∈ table urlSafe) ∧ body.length % 4 ≠ 1

/-- The equals signs complete the last group. -/
def Completes (body : List UInt8) (k : Nat) : Prop := k = (4 - body.length % 4) % 4

/-- What the comment of `base64Decode` lets it accept. -/
def Documented (urlSafe : Bool) (s : List UInt8) : Prop :=
  ∃ body k, Grouped urlSafe s body k ∧ (k = 0 ∨ Completes body k)

theorem Grouped.kPad_notMem {urlSafe : Bool} {s body : List UInt8} {k : Nat}
    (h : Grouped urlSafe s body k) : kPad ∉ body :=
  fun hmem => kPad_notMem_table urlSafe (h.2.1 kPad hmem)

/-- A text has one such reading. -/
theorem Grouped.unique {urlSafe : Bool} {s body body' : List UInt8} {k k' : Nat}
    (h : Grouped urlSafe s body k) (h' : Grouped urlSafe s body' k') : body = body' ∧ k = k' := by
  have hbody : body = body' := by
    rw [← rdropWhile_pad h.kPad_notMem k, ← h.1, h'.1, rdropWhile_pad h'.kPad_notMem]
  have hlen : s.length = body.length + k := by rw [h.1]; simp
  have hlen' : s.length = body'.length + k' := by rw [h'.1]; simp
  rw [hbody] at hlen
  exact ⟨hbody, by omega⟩

theorem base64Decode_eq (urlSafe : Bool) {body : List UInt8} (h : kPad ∉ body)
    (hlen : body.length % 4 ≠ 1) (k : Nat) :
    base64Decode urlSafe (body ++ List.replicate k kPad) = decodeGroups urlSafe body := by
  simp only [base64Decode]
  rw [rdropWhile_pad h, if_neg h, if_neg hlen]

theorem base64Decode_isSome_iff (urlSafe : Bool) (s : List UInt8) :
    (base64Decode urlSafe s).isSome ↔ ∃ body k, Grouped urlSafe s body k := by
  constructor
  · intro hsome
    simp only [base64Decode] at hsome
    by_cases hpad : kPad ∈ s.rdropWhile (· = kPad)
    · rw [if_pos hpad] at hsome
      cases hsome
    by_cases hlen : (s.rdropWhile (· = kPad)).length % 4 = 1
    · rw [if_neg hpad, if_pos hlen] at hsome
      cases hsome
    rw [if_neg hpad, if_neg hlen, decodeGroups_isSome_iff urlSafe hlen] at hsome
    obtain ⟨k, hk⟩ := exists_pad s
    exact ⟨_, k, hk, hsome, hlen⟩
  · intro h
    obtain ⟨body, k, hgrouped⟩ := h
    rw [hgrouped.1, base64Decode_eq urlSafe hgrouped.kPad_notMem hgrouped.2.2,
      decodeGroups_isSome_iff urlSafe hgrouped.2.2]
    exact hgrouped.2.1

theorem mem_table_of_mem_encode {urlSafe : Bool} {x : List UInt8} {c : UInt8}
    (h : c ∈ base64Encode urlSafe false x) : c ∈ table urlSafe := by
  have hall : ∀ c ∈ base64Encode urlSafe false x, c ∈ table urlSafe := by
    rw [← decodeGroups_isSome_iff urlSafe (length_encode urlSafe x), decodeGroups_encode]
    rfl
  exact hall c h

theorem base64Decode_encode (urlSafe pad : Bool) (x : List UInt8) :
    base64Decode urlSafe (base64Encode urlSafe pad x) = some x := by
  have hpad : kPad ∉ base64Encode urlSafe false x :=
    fun h => kPad_notMem_table urlSafe (mem_table_of_mem_encode h)
  rw [encode_pad, base64Decode_eq urlSafe hpad (length_encode urlSafe x), decodeGroups_encode]

/-- What was encoded is decoded, and a text is accepted exactly where the comment says so, but for
the texts that end in another number of equals signs than the one that completes the last group:
all of these are accepted too. -/
theorem base64_exact (urlSafe : Bool) :
    (∀ pad x, base64Decode urlSafe (base64Encode urlSafe pad x) = some x) ∧
    ∀ s, (((base64Decode urlSafe s).isSome ↔ Documented urlSafe s) ↔
      ∀ body k, Grouped urlSafe s body k → k = 0 ∨ Completes body k) := by
  constructor
  · exact fun pad x => base64Decode_encode urlSafe pad x
  · intro s
    rw [base64Decode_isSome_iff]
    constructor
    · intro h body k hgrouped
      obtain ⟨body', k', hgrouped', hk'⟩ := h.1 ⟨body, k, hgrouped⟩
      obtain ⟨rfl, rfl⟩ := hgrouped.unique hgrouped'
      exact hk'
    · intro h
      constructor
      · intro hsome
        obtain ⟨body, k, hgrouped⟩ := hsome
        exact ⟨body, k, hgrouped, h body k hgrouped⟩
      · intro hdoc
        obtain ⟨body, k, hgrouped, -⟩ := hdoc
        exact ⟨body, k, hgrouped⟩

/-- One equals sign where the group takes two. -/
theorem stray_pad_accepted :
    base64Decode false (text "Zg=") = some (text "f") ∧ ¬ Documented false (text "Zg=") := by
  refine ⟨by decide +kernel, ?_⟩
  intro h
  obtain ⟨body, k, hgrouped, hk⟩ := h
  have hread : Grouped false (text "Zg=") (text "Zg") 1 := by
    refine ⟨by decide +kernel, by decide +kernel, by decide +kernel⟩
  obtain ⟨rfl, rfl⟩ := hgrouped.unique hread
  revert hk
  unfold Completes
  decide +kernel

end Velox.Base64
