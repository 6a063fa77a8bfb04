import Mathlib.Tactic

/-!
# The engine's scalar types

Following `common/types.hpp`. Prices, quantities, ids and counters are signed 64-bit integers in
the source. The model computes with `Int`; where a sum can leave the 64-bit range, the value that
is stored is `wrap64` of it.

The empty-side sentinels are ordinary 64-bit values, so a price range may contain them: nothing
in the source forbids a book whose `maxPrice` is `kAskEmpty`.
-/

namespace Velox

inductive Side where
  | buy
  | sell
  deriving DecidableEq, Repr

def Side.opposite : Side → Side
  | .buy => .sell
  | .sell => .buy

/-- Best bid of a side without bids: `INT64_MIN`. -/
def kBidEmpty : Int := -2 ^ 63

/-- Best ask of a side without asks: `INT64_MAX`. -/
def kAskEmpty : Int := 2 ^ 63 - 1

def emptySentinel : Side → Int
  | .buy => kBidEmpty
  | .sell => kAskEmpty

/-- Is price `a` strictly better than price `b` on this side? Higher for bids, lower for asks. -/
def Side.isBetter : Side → Int → Int → Bool
  | .buy, a, b => decide (b < a)
  | .sell, a, b => decide (a < b)

/-- The value a signed 64-bit variable holds after `x` was assigned to it. -/
def wrap64 (x : Int) : Int := x.bmod (2 ^ 64)

theorem wrap64_of_fits {x : Int} (hlo : -2 ^ 63 ≤ x) (hhi : x < 2 ^ 63) : wrap64 x = x := by
  rw [wrap64, Int.bmod_eq_of_le] <;> norm_num <;> omega

theorem wrap64_add_wrap64 (x y : Int) : wrap64 (wrap64 x + y) = wrap64 (x + y) :=
  Int.bmod_add_bmod

theorem wrap64_sub_wrap64 (x y : Int) : wrap64 (wrap64 x - y) = wrap64 (x - y) :=
  Int.bmod_sub_bmod

theorem wrap64_lt (x : Int) : wrap64 x < 2 ^ 63 := by
  have h := Int.bmod_lt (x := x) (m := 2 ^ 64) (by norm_num)
  norm_num at h
  exact h

/-- A change of less than the range of the variable shows. -/
theorem wrap64_add_ne (x : Int) {d : Int} (h0 : d ≠ 0) (hlo : -2 ^ 64 < d) (hhi : d < 2 ^ 64) :
    wrap64 (x + d) ≠ wrap64 x := by
  intro h
  have hzero : wrap64 (x + d - x) = 0 := by
    rw [← wrap64_sub_wrap64, h, wrap64_sub_wrap64, sub_self]
    rfl
  rw [add_sub_cancel_left] at hzero
  have hdvd : ((2 ^ 64 : Nat) : Int) ∣ d := Int.dvd_of_bmod_eq_zero hzero
  obtain ⟨k, rfl⟩ := hdvd
  push_cast at *
  omega

end Velox
