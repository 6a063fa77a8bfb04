import Velox.Lib.Bytes

/-!
# Feedback shift registers

Division by a polynomial over two elements, the lowest bit first: `shift` moves the register down by
one place and, if a bit fell out, adds the polynomial. It is linear in exclusive or (`shift_xor`),
and injective if the polynomial has the highest bit (`shift_injective`). So a register that has taken
in a string of bytes determines any part of the string that is no longer than itself, given the
rest (`Burst.foldl_absorb_ne`).
-/

namespace Velox.ShiftRegister

open Bytes

variable {w : Nat} (poly : BitVec w)

def shift (c : BitVec w) : BitVec w := if c.getLsbD 0 then poly ^^^ (c >>> 1) else c >>> 1

theorem shift_xor (a b : BitVec w) : shift poly (a ^^^ b) = shift poly a ^^^ shift poly b := by
  have hself : ∀ x y : BitVec w, poly ^^^ x ^^^ (poly ^^^ y) = x ^^^ y := by
    intro x y
    rw [BitVec.xor_comm poly x, BitVec.xor_assoc, ← BitVec.xor_assoc poly, BitVec.xor_self,
      BitVec.zero_xor]
  simp only [shift, BitVec.getLsbD_xor, BitVec.ushiftRight_xor_distrib]
  cases a.getLsbD 0 <;> cases b.getLsbD 0
  · rfl
  · exact (BitVec.xor_assoc ..).symm.trans ((congrArg (· ^^^ _) (BitVec.xor_comm ..)).trans
      (BitVec.xor_assoc ..))
  · exact (BitVec.xor_assoc ..).symm
  · exact (hself _ _).symm

theorem iterate_shift_xor (n : Nat) (a b : BitVec w) :
    (shift poly)^[n] (a ^^^ b) = (shift poly)^[n] a ^^^ (shift poly)^[n] b :=
  Function.Semiconj₂.iterate (fun a b => shift_xor poly a b) n a b

variable {poly}

/-- Nothing but zero is shifted to zero. -/
theorem eq_zero_of_shift (hpoly : poly.msb = true) {c : BitVec w} (h : shift poly c = 0#w) :
    c = 0#w := by
  rw [shift] at h
  split_ifs at h with hlow
  · have heq : poly = c >>> 1 := BitVec.xor_eq_zero_iff.1 h
    rw [heq] at hpoly
    simp at hpoly
  · ext i hi
    rw [BitVec.getElem_zero]
    cases i with
    | zero => simpa [BitVec.getLsbD_eq_getElem hi] using hlow
    | succ i =>
      have hbit := congrArg (BitVec.getLsbD · i) h
      simpa [BitVec.getLsbD_ushiftRight, Nat.add_comm, BitVec.getLsbD_eq_getElem hi] using hbit

theorem shift_injective (hpoly : poly.msb = true) : Function.Injective (shift poly) := by
  intro a b h
  have hzero : shift poly (a ^^^ b) = 0#w := by rw [shift_xor, h, BitVec.xor_self]
  exact BitVec.xor_eq_zero_iff.1 (eq_zero_of_shift hpoly hzero)

/-- What stands above the lowest `n` bits is only moved. -/
theorem iterate_shift_mul {n x : Nat} (h : x * 2 ^ n < 2 ^ w) :
    (shift poly)^[n] (BitVec.ofNat w (x * 2 ^ n)) = BitVec.ofNat w x := by
  induction n with
  | zero => rw [pow_zero, Nat.mul_one, Function.iterate_zero, id]
  | succ n ih =>
    have hdouble : x * 2 ^ (n + 1) = 2 * (x * 2 ^ n) := by rw [pow_succ]; ring
    rw [hdouble] at h ⊢
    have hlow : (BitVec.ofNat w (2 * (x * 2 ^ n))).getLsbD 0 = false := by
      simp [BitVec.getLsbD_ofNat]
    have hhalf : BitVec.ofNat w (2 * (x * 2 ^ n)) >>> 1 = BitVec.ofNat w (x * 2 ^ n) := by
      apply BitVec.eq_of_toNat_eq
      rw [BitVec.toNat_ushiftRight, BitVec.toNat_ofNat, BitVec.toNat_ofNat, Nat.mod_eq_of_lt h,
        Nat.mod_eq_of_lt (by omega), Nat.shiftRight_eq_div_pow]
      omega
    rw [Function.iterate_succ_apply, shift, hlow, if_neg Bool.false_ne_true, hhalf, ih (by omega)]

/-! ## Bytes -/

theorem ofNat_byte_add {b : Nat} (hb : b < 256) (x : Nat) :
    BitVec.ofNat w (b + 256 * x) = BitVec.ofNat w b ^^^ BitVec.ofNat w (x * 2 ^ 8) := by
  have hsum : b + 256 * x = 2 ^ 8 * x + b := by omega
  rw [hsum, Nat.mul_comm x]
  apply BitVec.eq_of_getLsbD_eq
  intro i hi
  rw [BitVec.getLsbD_xor, BitVec.getLsbD_ofNat, BitVec.getLsbD_ofNat, BitVec.getLsbD_ofNat,
    Nat.testBit_two_pow_mul_add x hb, Nat.testBit_two_pow_mul]
  split_ifs with hlt
  · simp [Nat.not_le.2 hlt]
  · have hzero : b.testBit i = false :=
      Nat.testBit_lt_two_pow (hb.trans_le (Nat.pow_le_pow_right Nat.two_pos (Nat.not_lt.1 hlt)))
    simp [hzero, Nat.not_lt.1 hlt]

variable (poly)

/-- The register takes in a byte. -/
def absorb (c : BitVec w) (b : UInt8) : BitVec w := (shift poly)^[8] (c ^^^ BitVec.ofNat w b.toNat)

variable {poly}

/-- Only the lowest byte of the register and the one that comes in need a table. -/
theorem absorb_eq (hw : 8 ≤ w) (c : BitVec w) (b : UInt8) : absorb poly c b =
    (shift poly)^[8] ((c ^^^ BitVec.ofNat w b.toNat) &&& BitVec.ofNat w 255) ^^^ c >>> 8 := by
  obtain ⟨x, hx⟩ : ∃ x, x = c ^^^ BitVec.ofNat w b.toNat := ⟨_, rfl⟩
  have hpow : 256 ≤ 2 ^ w := Nat.pow_le_pow_right Nat.two_pos hw
  have hlow : x &&& BitVec.ofNat w 255 = BitVec.ofNat w (x.toNat % 256) := by
    apply BitVec.eq_of_toNat_eq
    rw [BitVec.toNat_and, BitVec.toNat_ofNat, BitVec.toNat_ofNat, Nat.mod_eq_of_lt (by omega),
      Nat.mod_eq_of_lt (by omega)]
    exact Nat.and_two_pow_sub_one_eq_mod _ 8
  have hhigh : c >>> 8 = BitVec.ofNat w (x.toNat / 256) := by
    have hb : BitVec.ofNat w b.toNat >>> 8 = 0#w := by
      apply BitVec.eq_of_toNat_eq
      have hlt : b.toNat < 256 := b.toNat_lt
      rw [BitVec.toNat_ushiftRight, BitVec.toNat_ofNat, BitVec.toNat_zero,
        Nat.shiftRight_eq_div_pow, Nat.mod_eq_of_lt (by omega)]
      omega
    have hshift : x >>> 8 = c >>> 8 := by
      rw [hx, BitVec.ushiftRight_xor_distrib, hb, BitVec.xor_zero]
    rw [← hshift]
    apply BitVec.eq_of_toNat_eq
    rw [BitVec.toNat_ushiftRight, BitVec.toNat_ofNat, Nat.shiftRight_eq_div_pow,
      Nat.mod_eq_of_lt ((Nat.div_le_self ..).trans_lt x.isLt)]
  have hsplit : x = BitVec.ofNat w (x.toNat % 256) ^^^ BitVec.ofNat w (x.toNat / 256 * 2 ^ 8) := by
    rw [← ofNat_byte_add (Nat.mod_lt _ (by decide)), Nat.mod_add_div, BitVec.ofNat_toNat,
      BitVec.setWidth_eq]
  have hlt : x.toNat / 256 * 2 ^ 8 < 2 ^ w := (Nat.div_mul_le_self ..).trans_lt x.isLt
  rw [absorb, ← hx, hlow, hhigh]
  conv_lhs => rw [hsplit]
  rw [iterate_shift_xor, iterate_shift_mul hlt]

/-- As many bytes as there is room for are taken in at once. -/
theorem foldl_absorb {bs : List UInt8} (hw : 8 * bs.length ≤ w) (c : BitVec w) :
    bs.foldl (absorb poly) c = (shift poly)^[8 * bs.length] (c ^^^ BitVec.ofNat w (ofLe bs)) := by
  induction bs generalizing c with
  | nil => simp [ofLe]
  | cons b bs ih =>
    rw [List.length_cons] at hw
    have hlt : ofLe bs * 2 ^ 8 < 2 ^ w := by
      calc ofLe bs * 2 ^ 8 < 256 ^ bs.length * 2 ^ 8 :=
            Nat.mul_lt_mul_of_pos_right (ofLe_lt bs) (by decide)
        _ = 2 ^ (8 * (bs.length + 1)) := by
            rw [show (256 : Nat) = 2 ^ 8 by rfl, ← pow_mul, ← pow_add]
            rfl
        _ ≤ 2 ^ w := Nat.pow_le_pow_right (by decide) hw
    rw [List.foldl_cons, ih (by omega), List.length_cons, ofLe, ofNat_byte_add b.toNat_lt, absorb,
      Nat.mul_succ, Function.iterate_add_apply, ← BitVec.xor_assoc,
      iterate_shift_xor poly 8 _ (BitVec.ofNat w (ofLe bs * 2 ^ 8)), iterate_shift_mul hlt]

theorem foldl_absorb_injective (hpoly : poly.msb = true) (bs : List UInt8) :
    Function.Injective fun c => bs.foldl (absorb poly) c := by
  induction bs with
  | nil => exact Function.injective_id
  | cons b bs ih =>
    intro c c' h
    have habsorb : absorb poly c b = absorb poly c' b := ih h
    exact (BitVec.xor_left_inj _).1 ((shift_injective hpoly).iterate 8 habsorb)

theorem ofLe_injective {u v : List UInt8} (hlen : u.length = v.length) (h : ofLe u = ofLe v) :
    u = v := by rw [← le_ofLe u, ← le_ofLe v, hlen, h]

/-- `b` is `a` with a change confined to `n` consecutive places. -/
structure Burst {α : Type} (n : Nat) (a b : List α) : Prop where
  ne : a ≠ b
  length : a.length = b.length
  confined : ∃ k, ∀ i, a[i]? ≠ b[i]? → k ≤ i ∧ i < k + n

theorem Burst.split {α : Type} {n : Nat} {a b : List α} (h : Burst n a b) : ∃ p u v s,
    a = p ++ (u ++ s) ∧ b = p ++ (v ++ s) ∧ u.length = v.length ∧ u.length ≤ n ∧ u ≠ v := by
  obtain ⟨k, hk⟩ := h.confined
  have hfront : b.take k = a.take k := by
    refine List.ext_getElem? fun i => ?_
    rw [List.getElem?_take, List.getElem?_take]
    split_ifs with hi
    · by_contra hne
      exact absurd (hk i (Ne.symm hne)).1 (Nat.not_le.2 hi)
    · rfl
  have hback : b.drop (k + n) = a.drop (k + n) := by
    refine List.ext_getElem? fun i => ?_
    rw [List.getElem?_drop, List.getElem?_drop]
    by_contra hne
    have := (hk _ (Ne.symm hne)).2
    omega
  have hsplit : ∀ t : List α, t = t.take k ++ ((t.drop k).take n ++ t.drop (k + n)) := by
    intro t
    rw [← List.drop_drop, List.take_append_drop, List.take_append_drop]
  refine ⟨a.take k, (a.drop k).take n, (b.drop k).take n, a.drop (k + n), hsplit a, ?_, ?_, ?_, ?_⟩
  · rw [← hfront, ← hback]
    exact hsplit b
  · rw [List.length_take, List.length_take, List.length_drop, List.length_drop, h.length]
  · exact List.length_take_le ..
  · intro heq
    refine h.ne ?_
    rw [hsplit a, hsplit b, hfront, hback, heq]

/-- One element is replaced by another. -/
theorem burst_set {α : Type} {n k : Nat} {a : List α} {x y : α} (hx : a[k]? = some x) (hne : x ≠ y)
    (hn : 0 < n) : Burst n a (a.set k y) where
  ne heq := by
    have hk : k < a.length := (List.getElem?_eq_some_iff.1 hx).1
    rw [heq, List.getElem?_set_self hk] at hx
    exact hne (Option.some.inj hx).symm
  length := (List.length_set ..).symm
  confined := by
    refine ⟨k, fun i hi => ?_⟩
    by_cases hik : k = i
    · omega
    · exact absurd (List.getElem?_set_ne hik).symm hi

/-- **Bursts.** A change no longer than the register shows in it. -/
theorem Burst.foldl_absorb_ne (hpoly : poly.msb = true) {n : Nat} (hn : 8 * n ≤ w)
    {a b : List UInt8} (h : Burst n a b) (c : BitVec w) :
    a.foldl (absorb poly) c ≠ b.foldl (absorb poly) c := by
  obtain ⟨p, u, v, s, rfl, rfl, hlen, hle, hne⟩ := h.split
  intro heq
  rw [List.foldl_append, List.foldl_append, List.foldl_append, List.foldl_append] at heq
  have hmid : u.foldl (absorb poly) _ = v.foldl (absorb poly) _ := foldl_absorb_injective hpoly s heq
  have hu : 8 * u.length ≤ w := by omega
  have hv : 8 * v.length ≤ w := by omega
  rw [foldl_absorb hu, foldl_absorb hv, hlen] at hmid
  have hword := congrArg BitVec.toNat
    ((BitVec.xor_right_inj _).1 ((shift_injective hpoly).iterate _ hmid))
  have hlt : ∀ t : List UInt8, t.length = v.length → ofLe t < 2 ^ w := by
    intro t ht
    refine (ofLe_lt t).trans_le ?_
    rw [show (256 : Nat) = 2 ^ 8 by rfl, ← pow_mul]
    exact Nat.pow_le_pow_right Nat.two_pos (by omega)
  rw [BitVec.toNat_ofNat, BitVec.toNat_ofNat, Nat.mod_eq_of_lt (hlt u hlen),
    Nat.mod_eq_of_lt (hlt v rfl)] at hword
  exact hne (ofLe_injective hlen hword)

end Velox.ShiftRegister
