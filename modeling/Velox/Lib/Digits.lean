import Mathlib.Data.Char
import Mathlib.Data.List.Lex
import Mathlib.Tactic

/-!
# Decimal numbers in file names

`%016llu`: at least sixteen digits. Names that differ in such a number only are in the order of the
numbers, as long as sixteen digits are enough (`padded_append_lt`).
-/

namespace Velox.Digits

/-- The `w` last digits of `n`. -/
def digits : Nat → Nat → List Char
  | 0, _ => []
  | w + 1, n => Char.ofNat (48 + n / 10 ^ w % 10) :: digits w n

/-- `%016llu`. -/
def padded (n : Nat) : List Char := if n < 10 ^ 16 then digits 16 n else Nat.toDigits 10 n

theorem digit_lt {a b : Nat} (h : a < b) (hb : b < 10) : Char.ofNat (48 + a) < Char.ofNat (48 + b) := by
  have hall : ∀ i j : Fin 10, i < j → Char.ofNat (48 + i) < Char.ofNat (48 + j) := by decide
  exact hall ⟨a, h.trans hb⟩ ⟨b, hb⟩ h

/-- Numbers of one width are compared digit by digit. -/
theorem digits_append_lt (w : Nat) {m n : Nat} (h : m % 10 ^ w < n % 10 ^ w) (xs ys : List Char) :
    digits w m ++ xs < digits w n ++ ys := by
  induction w with
  | zero => simp [Nat.mod_one] at h
  | succ w ih =>
    rw [digits, digits, List.cons_append, List.cons_append, List.cons_lt_cons_iff]
    have hm : m % 10 ^ (w + 1) = m % 10 ^ w + 10 ^ w * (m / 10 ^ w % 10) := by
      rw [pow_succ, Nat.mod_mul]
    have hn : n % 10 ^ (w + 1) = n % 10 ^ w + 10 ^ w * (n / 10 ^ w % 10) := by
      rw [pow_succ, Nat.mod_mul]
    have hpos : 0 < 10 ^ w := pow_pos (by decide) w
    rcases Nat.lt_trichotomy (m / 10 ^ w % 10) (n / 10 ^ w % 10) with hlt | heq | hgt
    · exact .inl (digit_lt hlt (Nat.mod_lt _ (by decide)))
    · refine .inr ⟨by rw [heq], ih ?_⟩
      rw [hm, hn, heq] at h
      omega
    · exfalso
      have hmul : 10 ^ w * (n / 10 ^ w % 10) + 10 ^ w ≤ 10 ^ w * (m / 10 ^ w % 10) := by
        rw [← Nat.mul_succ]
        exact Nat.mul_le_mul_left _ hgt
      have hlt : n % 10 ^ w < 10 ^ w := Nat.mod_lt _ hpos
      omega

theorem padded_append_lt {m n : Nat} (h : m < n) (hn : n < 10 ^ 16) (xs ys : List Char) :
    padded m ++ xs < padded n ++ ys := by
  have hm : m < 10 ^ 16 := h.trans hn
  rw [padded, padded, if_pos hm, if_pos hn]
  apply digits_append_lt
  rwa [Nat.mod_eq_of_lt hm, Nat.mod_eq_of_lt hn]

end Velox.Digits
