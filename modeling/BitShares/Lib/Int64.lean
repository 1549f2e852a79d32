import Mathlib.Algebra.Order.BigOperators.Group.List
import Mathlib.Data.Int.Basic

/-!
# Signed 64-bit arithmetic

When sums and differences of `Int64` are those of the integers they stand for: inside the range
always, and outside never, which shows as a sum that falls on the wrong side.
-/

namespace BitShares.Int64

theorem toInt_bounds (x : Int64) : -2 ^ 63 ≤ x.toInt ∧ x.toInt < 2 ^ 63 :=
  ⟨x.le_toInt, x.toInt_lt⟩

theorem toInt_add_of_bounds {x y : Int64} (hl : -2 ^ 63 ≤ x.toInt + y.toInt)
    (hu : x.toInt + y.toInt < 2 ^ 63) : (x + y).toInt = x.toInt + y.toInt := by
  rw [Int64.toInt_add, Int.bmod_eq_of_le (by omega) (by omega)]

theorem toInt_sub_of_bounds {x y : Int64} (hl : -2 ^ 63 ≤ x.toInt - y.toInt)
    (hu : x.toInt - y.toInt < 2 ^ 63) : (x - y).toInt = x.toInt - y.toInt := by
  rw [Int64.toInt_sub, Int.bmod_eq_of_le (by omega) (by omega)]

/-- A sum that is not below the range wraps around or is the exact one. -/
theorem toInt_add_wraps {x y : Int64} (hl : -2 ^ 63 ≤ x.toInt + y.toInt) :
    (x + y).toInt = x.toInt + y.toInt ∨ (x + y).toInt = x.toInt + y.toInt - 2 ^ 64 := by
  have hx := toInt_bounds x
  have hy := toInt_bounds y
  by_cases hfit : x.toInt + y.toInt < 2 ^ 63
  · exact .inl (toInt_add_of_bounds hl hfit)
  · rw [Int64.toInt_add, ← Int.sub_bmod_right]
    exact .inr (Int.bmod_eq_of_le (by omega) (by omega))

theorem toInt_add_of_lt {x y : Int64} (hy : 0 < y) (h : x < x + y) :
    (x + y).toInt = x.toInt + y.toInt := by
  have hx := toInt_bounds x
  have hy' := toInt_bounds y
  have hpos : 0 < y.toInt := by simpa [Int64.lt_iff_toInt_lt] using hy
  rw [Int64.lt_iff_toInt_lt] at h
  have hwraps := toInt_add_wraps (x := x) (y := y) (by omega)
  omega

theorem toInt_add_of_nonneg {x y : Int64} (hx : 0 ≤ x) (h : 0 ≤ x + y) :
    (x + y).toInt = x.toInt + y.toInt := by
  have hx' := toInt_bounds x
  have hy' := toInt_bounds y
  have hpos : 0 ≤ x.toInt := by simpa [Int64.le_iff_toInt_le] using hx
  have hsum : 0 ≤ (x + y).toInt := by simpa [Int64.le_iff_toInt_le] using h
  have hwraps := toInt_add_wraps (x := x) (y := y) (by omega)
  omega

theorem toInt_div_bounds {x b : Int64} (hb : 0 < b.toInt) :
    -(2 ^ 63 / b.toInt) ≤ (x / b).toInt ∧ (x / b).toInt ≤ 2 ^ 63 / b.toInt := by
  have hx := toInt_bounds x
  have hquot : (2 : ℤ) ^ 63 / b.toInt ≤ 2 ^ 63 := Int.ediv_le_self _ (by decide)
  have hbelow : ∀ y : ℤ, 0 ≤ y → y ≤ 2 ^ 63 →
      0 ≤ y.tdiv b.toInt ∧ y.tdiv b.toInt ≤ y ∧ y.tdiv b.toInt ≤ 2 ^ 63 / b.toInt := by
    intro y hy hle
    rw [Int.tdiv_eq_ediv_of_nonneg hy]
    exact ⟨Int.ediv_nonneg hy hb.le, Int.ediv_le_self _ hy, Int.ediv_le_ediv hb hle⟩
  rw [Int64.toInt_div]
  rcases Int.le_total 0 x.toInt with hpos | hneg
  · have := hbelow x.toInt hpos hx.2.le
    rw [Int.bmod_eq_of_le (by omega) (by omega)]
    omega
  · have := hbelow (-x.toInt) (by omega) (by omega)
    rw [Int.neg_tdiv] at this
    rw [Int.bmod_eq_of_le (by omega) (by omega)]
    omega

end BitShares.Int64
