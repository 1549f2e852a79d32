import Mathlib.Data.Rat.Floor
import Mathlib.Data.Nat.Log
import Mathlib.Tactic.Linarith
import Mathlib.Tactic.NormNum
import Mathlib.Algebra.Order.Field.Rat
import Mathlib.Algebra.Order.Floor.Semifield

/-!
# Double precision

IEEE 754 binary64 arithmetic on the rationals, for results in the normal range: a value is rounded
to 53 significant bits, to the nearest and ties to even.  `toInt64` is the conversion the
processor makes of a double: truncation, and the "integer indefinite" `-2^63` out of range.

* `nearest_le`, `le_nearest`: the error of a rounding, and that it goes past no whole number.
-/

namespace BitShares.Double

/-- `n / d` rounded to the nearest integer, ties to even. -/
def roundDiv (n d : ℕ) : ℕ :=
  let q := n / d
  let r := n % d
  if 2 * r < d then q
  else if d < 2 * r then q + 1
  else if q % 2 = 0 then q else q + 1

/-- `n / d` (positive) with 53 significant bits: scale into `[2^52, 2^53)`, round, scale back. -/
def roundPos (n d : ℕ) : ℚ :=
  let e : ℤ := (Nat.log 2 n : ℤ) - Nat.log 2 d - 52
  let scaled (e : ℤ) : ℕ × ℕ := (n * 2 ^ (-e).toNat, d * 2 ^ e.toNat)
  let e := if (scaled e).1 < 2 ^ 52 * (scaled e).2 then e - 1 else e
  (roundDiv (scaled e).1 (scaled e).2 : ℚ) * 2 ^ e

def nearest (q : ℚ) : ℚ :=
  if q = 0 then 0
  else if 0 < q then roundPos q.num.toNat q.den
  else -roundPos (-q).num.toNat q.den

def ofInt64 (x : Int64) : ℚ := nearest x.toInt

def mul (x y : ℚ) : ℚ := nearest (x * y)

/-- A quotient, or `none` for an infinity or a NaN. -/
def div (x y : ℚ) : Option ℚ := if y = 0 then none else some (nearest (x / y))

def toInt64 (x : ℚ) : Int64 :=
  let t : ℤ := if 0 ≤ x then ⌊x⌋ else -⌊-x⌋
  if -(2 ^ 63) ≤ t ∧ t < 2 ^ 63 then Int64.ofInt t else Int64.minValue

/-! ## One rounding -/

theorem div_le_roundDiv (n d : ℕ) : n / d ≤ roundDiv n d := by
  unfold roundDiv
  dsimp only
  split_ifs <;> omega

theorem roundDiv_le (n : ℕ) {d : ℕ} (hd : 0 < d) : (roundDiv n d : ℚ) ≤ n / d + 1 / 2 := by
  have hn : d * (n / d) + n % d = n := Nat.div_add_mod n d
  have hle : 2 * (roundDiv n d * d) ≤ 2 * n + d := by
    unfold roundDiv
    dsimp only
    generalize n / d = q at hn
    generalize n % d = r at hn
    split_ifs <;> linarith
  have hd' : (0 : ℚ) < d := Nat.cast_pos.2 hd
  have hle' := (Nat.cast_le (α := ℚ)).2 hle
  push_cast at hle'
  rw [div_add' _ _ _ hd'.ne', le_div_iff₀ hd']
  linarith

theorem two_zpow_log_le {n d : ℕ} (hn : 0 < n) (hd : 0 < d) :
    (2 : ℚ) ^ ((Nat.log 2 n : ℤ) - Nat.log 2 d - 1) ≤ n / d := by
  have hn' : (2 : ℚ) ^ Nat.log 2 n ≤ n := by exact_mod_cast Nat.pow_log_le_self 2 hn.ne'
  have hd' : (d : ℚ) ≤ 2 ^ (Nat.log 2 d + 1) := by
    exact_mod_cast (Nat.lt_pow_succ_log_self one_lt_two d).le
  rw [sub_sub, zpow_sub₀ two_ne_zero, zpow_natCast]
  exact div_le_div₀ (Nat.cast_nonneg n) hn' (Nat.cast_pos.2 hd) (by exact_mod_cast hd')

/-- A number is scaled by a power of two to 53 bits, and rounded there. -/
theorem nearest_spec {q : ℚ} (hq : 0 < q) :
    ∃ (e : ℤ) (k : ℕ), nearest q = k * 2 ^ e ∧ 2 ^ 52 ≤ q / 2 ^ e ∧ ⌊q / 2 ^ e⌋₊ ≤ k ∧
      (k : ℚ) ≤ q / 2 ^ e + 1 / 2 := by
  obtain ⟨n, d, hn, hd, hvalue, hnearest⟩ : ∃ n d : ℕ, 0 < n ∧ 0 < d ∧ q = n / d ∧
      nearest q = roundPos n d := by
    have hnum : 0 < q.num := Rat.num_pos.2 hq
    refine ⟨q.num.toNat, q.den, Int.lt_toNat.2 hnum, q.den_pos, ?_, ?_⟩
    · rw [← Int.cast_natCast, Int.toNat_of_nonneg hnum.le, q.num_div_den]
    · rw [nearest, if_neg hq.ne', if_pos hq]
  have hden : ∀ e : ℤ, (0 : ℚ) < (d * 2 ^ e.toNat : ℕ) := fun e => Nat.cast_pos.2 (by positivity)
  have hscaled : ∀ e : ℤ, q / 2 ^ e = (n * 2 ^ (-e).toNat : ℕ) / (d * 2 ^ e.toNat : ℕ) := by
    intro e
    rw [hvalue]
    rcases le_total 0 e with he | he
    · obtain ⟨k, rfl⟩ := Int.eq_ofNat_of_zero_le he
      simp [div_div]
    · obtain ⟨k, hk⟩ := Int.eq_ofNat_of_zero_le (neg_nonneg.2 he)
      obtain rfl : e = -k := by omega
      simp [div_eq_mul_inv, mul_right_comm]
  refine ⟨_, _, hnearest, ?_, ?_, ?_⟩
  · dsimp only
    split_ifs with hsmall
    · rw [le_div_iff₀ (zpow_pos two_pos _), ← zpow_natCast, ← zpow_add₀ two_ne_zero, hvalue]
      refine le_trans (le_of_eq ?_) (two_zpow_log_le hn hd)
      congr 1
      omega
    · rw [hscaled, le_div_iff₀ (hden _)]
      exact_mod_cast not_lt.1 hsmall
  · rw [hscaled, Nat.floor_div_eq_div]
    exact div_le_roundDiv _ _
  · rw [hscaled]
    exact roundDiv_le _ (by positivity)

/-- **The error** of one rounding upwards. -/
theorem nearest_le {q : ℚ} (hq : 0 ≤ q) : nearest q ≤ q * (1 + 1 / 2 ^ 53) := by
  rcases hq.eq_or_lt with rfl | hq
  · simp [nearest]
  obtain ⟨e, k, hk, hlarge, -, hle⟩ := nearest_spec hq
  have hunit : (0 : ℚ) < 2 ^ e := zpow_pos two_pos e
  rw [le_div_iff₀ hunit] at hlarge
  have hmul := mul_le_mul_of_nonneg_right hle hunit.le
  rw [add_mul, div_mul_cancel₀ _ hunit.ne'] at hmul
  rw [hk]
  linarith

/-- **Whole numbers of 53 bits** are not rounded past. -/
theorem le_nearest {m : ℕ} (hm : m < 2 ^ 53) {q : ℚ} (hq : (m : ℚ) ≤ q) : (m : ℚ) ≤ nearest q := by
  rcases ((Nat.cast_nonneg m).trans hq).eq_or_lt with rfl | hpos
  · simpa [nearest] using hq
  obtain ⟨e, k, hk, hlarge, hge, -⟩ := nearest_spec hpos
  have hunit : (0 : ℚ) < 2 ^ e := zpow_pos two_pos e
  rw [hk]
  rcases le_or_gt e 0 with he | he
  · obtain ⟨i, rfl⟩ : ∃ i : ℕ, e = -i := ⟨(-e).toNat, by omega⟩
    have hfloor : m * 2 ^ i ≤ ⌊q / 2 ^ (-i : ℤ)⌋₊ := by
      refine Nat.le_floor ?_
      rw [le_div_iff₀ hunit]
      simpa using hq
    have hmk := (Nat.cast_le (α := ℚ)).2 (hfloor.trans hge)
    rw [zpow_neg, zpow_natCast, ← div_eq_mul_inv, le_div_iff₀ (by positivity)]
    exact_mod_cast hmk
  · have hk' : ((2 ^ 52 : ℕ) : ℚ) ≤ k :=
      Nat.cast_le.2 ((Nat.le_floor (by exact_mod_cast hlarge)).trans hge)
    have htwo : (2 : ℚ) ≤ 2 ^ e := by
      simpa using zpow_le_zpow_right₀ (one_le_two (α := ℚ)) (Int.add_one_le_iff.2 he)
    calc (m : ℚ) ≤ (2 ^ 52 : ℕ) * 2 := by exact_mod_cast hm.le
      _ ≤ k * 2 ^ e := mul_le_mul hk' htwo zero_le_two (Nat.cast_nonneg k)

theorem nearest_nonneg {q : ℚ} (hq : 0 ≤ q) : 0 ≤ nearest q := by
  simpa using le_nearest (m := 0) (by decide) (by simpa using hq)

end BitShares.Double
