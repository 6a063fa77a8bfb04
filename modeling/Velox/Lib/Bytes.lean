import Mathlib.Tactic

/-!
# Fixed-width little-endian fields

A record format that places machine integers at fixed offsets. `putU8`, `putU32`, `putU64` and
`putI64` are the bytes of a field, `getU8`, `getU32`, `getU64` and `getI64` read one at an
offset. A record is written by concatenating its fields. The simp set here walks over the fields
before the one that is read, so that reading back a record is a `simp` with its layout.
-/

namespace Velox.Bytes

/-- The `w` low bytes of `n`, least significant first. -/
def le : Nat → Nat → List UInt8
  | 0, _ => []
  | w + 1, n => UInt8.ofNat (n % 256) :: le w (n / 256)

/-- The number with these bytes. -/
def ofLe : List UInt8 → Nat
  | [] => 0
  | b :: bs => b.toNat + 256 * ofLe bs

theorem length_le (w n : Nat) : (le w n).length = w := by
  induction w generalizing n with
  | zero => rfl
  | succ w ih => rw [le, List.length_cons, ih]

theorem ofLe_le (w n : Nat) : ofLe (le w n) = n % 256 ^ w := by
  induction w generalizing n with
  | zero => rw [le, ofLe, pow_zero, Nat.mod_one]
  | succ w ih =>
    have hlt : n % 256 < 2 ^ 8 := Nat.mod_lt _ (by norm_num)
    rw [le, ofLe, ih, UInt8.toNat_ofNat', Nat.mod_eq_of_lt hlt, pow_succ', Nat.mod_mul]

theorem le_ofLe (bs : List UInt8) : le bs.length (ofLe bs) = bs := by
  induction bs with
  | nil => rfl
  | cons b bs ih =>
    have hlt : b.toNat < 256 := b.toNat_lt
    have hmod : (b.toNat + 256 * ofLe bs) % 256 = b.toNat := by omega
    have hdiv : (b.toNat + 256 * ofLe bs) / 256 = ofLe bs := by omega
    rw [List.length_cons, ofLe, le, hmod, hdiv, ih, UInt8.ofNat_toNat]

theorem ofLe_lt (bs : List UInt8) : ofLe bs < 256 ^ bs.length := by
  induction bs with
  | nil => exact Nat.one_pos
  | cons b bs ih =>
    have hlt : b.toNat < 256 := b.toNat_lt
    rw [List.length_cons, ofLe, pow_succ']
    omega

/-- The number in the `w` bytes at offset `off`. -/
def get (w off : Nat) (bs : List UInt8) : Nat := ofLe ((bs.drop off).take w)

theorem get_append {a b : List UInt8} {w off : Nat} (h : a.length ≤ off) :
    get w off (a ++ b) = get w (off - a.length) b := by
  rw [get, get, List.drop_append, List.drop_eq_nil_of_le h, List.nil_append]

/-- A field that has arrived does not depend on what follows. -/
theorem get_append_left {a : List UInt8} {w off : Nat} (h : off + w ≤ a.length) (b : List UInt8) :
    get w off (a ++ b) = get w off a := by
  rw [get, get, List.drop_append_of_le_length (by omega),
    List.take_append_of_le_length (by rw [List.length_drop]; omega)]

theorem get_le_append (w n : Nat) (bs : List UInt8) : get w 0 (le w n ++ bs) = n % 256 ^ w := by
  rw [get, List.drop_zero, List.take_left' (length_le w n), ofLe_le]

/-- A field that ends before the cut is still there. -/
theorem get_take {bs : List UInt8} {w off n : Nat} (h : off + w ≤ n) :
    get w off (bs.take n) = get w off bs := by
  rw [get, get, List.drop_take, List.take_take, Nat.min_eq_left (by omega)]

/-! ## Machine integers -/

def putU8 (x : UInt8) : List UInt8 := [x]

def putU32 (x : UInt32) : List UInt8 := le 4 x.toNat

def putU64 (x : UInt64) : List UInt8 := le 8 x.toNat

def putI64 (x : Int64) : List UInt8 := putU64 x.toUInt64

def getU8 (off : Nat) (bs : List UInt8) : UInt8 := UInt8.ofNat (get 1 off bs)

def getU32 (off : Nat) (bs : List UInt8) : UInt32 := UInt32.ofNat (get 4 off bs)

def getU64 (off : Nat) (bs : List UInt8) : UInt64 := UInt64.ofNat (get 8 off bs)

def getI64 (off : Nat) (bs : List UInt8) : Int64 := (getU64 off bs).toInt64

section Fields

variable {a b bs : List UInt8} {off : Nat}

@[simp] theorem length_putU8 (x : UInt8) : (putU8 x).length = 1 := List.length_singleton

@[simp] theorem length_putU32 (x : UInt32) : (putU32 x).length = 4 := length_le ..

@[simp] theorem length_putU64 (x : UInt64) : (putU64 x).length = 8 := length_le ..

@[simp] theorem length_putI64 (x : Int64) : (putI64 x).length = 8 := length_le ..

@[simp] theorem getU8_append (h : a.length ≤ off) :
    getU8 off (a ++ b) = getU8 (off - a.length) b := by rw [getU8, get_append h, getU8]

@[simp] theorem getU32_append (h : a.length ≤ off) :
    getU32 off (a ++ b) = getU32 (off - a.length) b := by rw [getU32, get_append h, getU32]

@[simp] theorem getU64_append (h : a.length ≤ off) :
    getU64 off (a ++ b) = getU64 (off - a.length) b := by rw [getU64, get_append h, getU64]

@[simp] theorem getI64_append (h : a.length ≤ off) :
    getI64 off (a ++ b) = getI64 (off - a.length) b := by rw [getI64, getU64_append h, getI64]

@[simp] theorem getU8_putU8_append (x : UInt8) : getU8 0 (putU8 x ++ bs) = x := by
  rw [getU8, putU8, get, List.drop_zero, List.singleton_append, List.take_succ_cons,
    List.take_zero, ofLe, ofLe, Nat.mul_zero, Nat.add_zero, UInt8.ofNat_toNat]

@[simp] theorem getU32_putU32_append (x : UInt32) : getU32 0 (putU32 x ++ bs) = x := by
  have hlt : x.toNat < 256 ^ 4 := x.toNat_lt
  rw [getU32, putU32, get_le_append, Nat.mod_eq_of_lt hlt, UInt32.ofNat_toNat]

@[simp] theorem getU64_putU64_append (x : UInt64) : getU64 0 (putU64 x ++ bs) = x := by
  have hlt : x.toNat < 256 ^ 8 := x.toNat_lt
  rw [getU64, putU64, get_le_append, Nat.mod_eq_of_lt hlt, UInt64.ofNat_toNat]

@[simp] theorem getI64_putI64_append (x : Int64) : getI64 0 (putI64 x ++ bs) = x := by
  rw [getI64, putI64, getU64_putU64_append, Int64.toInt64_toUInt64]

@[simp] theorem getU8_putU8 (x : UInt8) : getU8 0 (putU8 x) = x := by
  rw [← List.append_nil (putU8 x), getU8_putU8_append]

@[simp] theorem getI64_putI64 (x : Int64) : getI64 0 (putI64 x) = x := by
  rw [← List.append_nil (putI64 x), getI64_putI64_append]

@[simp] theorem getU32_putU32 (x : UInt32) : getU32 0 (putU32 x) = x := by
  rw [← List.append_nil (putU32 x), getU32_putU32_append]

@[simp] theorem getU64_putU64 (x : UInt64) : getU64 0 (putU64 x) = x := by
  rw [← List.append_nil (putU64 x), getU64_putU64_append]

section Take

variable {n : Nat}

theorem getU8_take (h : off + 1 ≤ n) : getU8 off (bs.take n) = getU8 off bs := by
  rw [getU8, get_take h, getU8]

theorem getU32_take (h : off + 4 ≤ n) : getU32 off (bs.take n) = getU32 off bs := by
  rw [getU32, get_take h, getU32]

theorem getU64_take (h : off + 8 ≤ n) : getU64 off (bs.take n) = getU64 off bs := by
  rw [getU64, get_take h, getU64]

theorem getI64_take (h : off + 8 ≤ n) : getI64 off (bs.take n) = getI64 off bs := by
  rw [getI64, getU64_take h, getI64]

end Take

end Fields

/-! ## Reading is injective

A field that is written back as it was read gives the bytes it was read from. -/

section Slices

variable {bs : List UInt8} {off w : Nat}

/-- The `w` bytes at offset `off`. -/
def slice (off w : Nat) (bs : List UInt8) : List UInt8 := (bs.drop off).take w

theorem length_slice (h : off + w ≤ bs.length) : (slice off w bs).length = w := by
  rw [slice, List.length_take, List.length_drop]
  omega

theorem le_get (h : off + w ≤ bs.length) : le w (get w off bs) = slice off w bs := by
  have hall := le_ofLe (slice off w bs)
  rwa [length_slice h] at hall

theorem get_lt (h : off + w ≤ bs.length) : get w off bs < 256 ^ w := by
  have hlt := ofLe_lt (slice off w bs)
  rwa [length_slice h] at hlt

theorem putU8_getU8 (h : off + 1 ≤ bs.length) : putU8 (getU8 off bs) = slice off 1 bs := by
  have hlt : get 1 off bs < 256 := get_lt h
  rw [← le_get h, putU8, getU8, le, le, Nat.mod_eq_of_lt hlt]

theorem putU32_getU32 (h : off + 4 ≤ bs.length) : putU32 (getU32 off bs) = slice off 4 bs := by
  have hlt : get 4 off bs < 2 ^ 32 := get_lt h
  rw [← le_get h, putU32, getU32, UInt32.toNat_ofNat', Nat.mod_eq_of_lt hlt]

theorem putU64_getU64 (h : off + 8 ≤ bs.length) : putU64 (getU64 off bs) = slice off 8 bs := by
  have hlt : get 8 off bs < 2 ^ 64 := get_lt h
  rw [← le_get h, putU64, getU64, UInt64.toNat_ofNat', Nat.mod_eq_of_lt hlt]

theorem putI64_getI64 (h : off + 8 ≤ bs.length) : putI64 (getI64 off bs) = slice off 8 bs := by
  rw [putI64, getI64, UInt64.toUInt64_toInt64, putU64_getU64 h]

theorem slice_append_slice (off w w' : Nat) (bs : List UInt8) :
    slice off w bs ++ slice (off + w) w' bs = slice off (w + w') bs := by
  rw [slice, slice, slice, ← List.drop_drop, ← List.take_add]

theorem slice_zero_length (bs : List UInt8) : slice 0 bs.length bs = bs := by
  rw [slice, List.drop_zero, List.take_length]

end Slices

/-! ## Arrays of records -/

section Records

variable {α : Type} {enc : α → List UInt8} {w : Nat}

theorem length_flatMap (hw : ∀ x, (enc x).length = w) (xs : List α) :
    (xs.flatMap enc).length = xs.length * w := by
  induction xs with
  | nil => rw [List.flatMap_nil, List.length_nil, List.length_nil, Nat.zero_mul]
  | cons x xs ih =>
    rw [List.flatMap_cons, List.length_append, hw, ih, List.length_cons, Nat.succ_mul, Nat.add_comm]

theorem drop_flatMap (hw : ∀ x, (enc x).length = w) (xs : List α) (i : Nat) :
    (xs.flatMap enc).drop (i * w) = (xs.drop i).flatMap enc := by
  induction i generalizing xs with
  | zero => rw [Nat.zero_mul, List.drop_zero, List.drop_zero]
  | succ i ih =>
    cases xs with
    | nil => rw [List.flatMap_nil, List.drop_nil, List.drop_nil, List.flatMap_nil]
    | cons x xs =>
      rw [List.flatMap_cons, List.drop_succ_cons, ← ih, Nat.succ_mul, Nat.add_comm,
        ← List.drop_drop, List.drop_left' (hw x)]

theorem take_flatMap (hw : ∀ x, (enc x).length = w) (xs : List α) (i : Nat) :
    (xs.flatMap enc).take (i * w) = (xs.take i).flatMap enc := by
  induction i generalizing xs with
  | zero => rw [Nat.zero_mul, List.take_zero, List.take_zero, List.flatMap_nil]
  | succ i ih =>
    cases xs with
    | nil => rw [List.flatMap_nil, List.take_nil, List.take_nil, List.flatMap_nil]
    | cons x xs =>
      rw [List.flatMap_cons, List.take_succ_cons, List.flatMap_cons, ← ih, Nat.succ_mul, Nat.add_comm,
        ← hw x, List.take_length_add_append, hw x]

/-- A beginning of some records is whole records and a beginning of the next one. -/
theorem take_flatMap_mod (hw : ∀ x, (enc x).length = w) (xs : List α) (m : Nat) :
    (xs.flatMap enc).take m =
      (xs.take (m / w)).flatMap enc ++ ((xs.drop (m / w)).flatMap enc).take (m % w) := by
  rw [← take_flatMap hw, ← drop_flatMap hw, ← List.take_add, Nat.div_add_mod']

/-- Reading record after record gives back what was written. -/
theorem map_range_drop {dec : List UInt8 → α} (hw : ∀ x, (enc x).length = w)
    (hdec : ∀ x bs, dec (enc x ++ bs) = x) (xs : List α) (bs : List UInt8) :
    (List.range xs.length).map (fun i => dec ((xs.flatMap enc ++ bs).drop (i * w))) = xs := by
  refine List.ext_getElem (by simp) fun i hi hi' => ?_
  rw [List.getElem_map, List.getElem_range, List.drop_append_of_le_length, drop_flatMap hw,
    List.drop_eq_getElem_cons hi', List.flatMap_cons, List.append_assoc, hdec]
  rw [length_flatMap hw]
  exact Nat.mul_le_mul_right w hi'.le

end Records

/-! ## Comparing without stopping at a difference -/

theorem foldl_or_eq_zero {xs : List UInt8} {b : UInt8} :
    xs.foldl (· ||| ·) b = 0 ↔ b = 0 ∧ ∀ x ∈ xs, x = 0 := by
  induction xs generalizing b with
  | nil => simp
  | cons x xs ih => rw [List.foldl_cons, ih, UInt8.or_eq_zero_iff, List.forall_mem_cons, and_assoc]

theorem zipWith_xor_eq_zero {xs ys : List UInt8} (h : xs.length = ys.length) :
    (∀ x ∈ List.zipWith (· ^^^ ·) xs ys, x = 0) ↔ xs = ys := by
  induction xs generalizing ys with
  | nil =>
    cases ys with
    | nil => simp
    | cons y ys => cases h
  | cons x xs ih =>
    cases ys with
    | nil => cases h
    | cons y ys =>
      rw [List.zipWith_cons_cons, List.forall_mem_cons, ih (Nat.succ.inj h), UInt8.xor_eq_zero_iff,
        List.cons.injEq]

/-- All differences together are zero just if there is none. -/
theorem differences_eq_zero_iff {xs ys : List UInt8} (h : xs.length = ys.length) :
    (List.zipWith (· ^^^ ·) xs ys).foldl (· ||| ·) 0 = 0 ↔ xs = ys := by
  rw [foldl_or_eq_zero, zipWith_xor_eq_zero h, eq_self, true_and]

end Velox.Bytes
