import BitShares.Ledger.Prices
import BitShares.Lib.Decimal
import BitShares.Lib.Int64
import BitShares.Lib.Outcome
import Mathlib.Data.Rat.Floor
import Mathlib.Tactic.Linarith

/-!
# Prices

* `conversion_bounds`: an amount that is converted to the other asset of a price and back loses at
  most what one unit is worth, and never gains; and a price gives the amount it was made of, or one
  less.
* `ofVariant_toVariant_iff`: when a price comes back from its text; `price::infinite` does not.
-/

namespace BitShares

/-! ## Two roundings -/

theorem there_and_back {a m n : ℤ} (hm : 0 < m) (hn : 0 < n) :
    a * m / n * n / m ≤ a ∧ a - a * m / n * n / m ≤ ⌈(n / m : ℚ)⌉ := by
  have hq : a * m / n * n ≤ a * m := Int.ediv_mul_le _ hn.ne'
  have hq' : a * m < a * m / n * n + n := by
    have := Int.lt_ediv_add_one_mul_self (a * m) hn
    linarith
  generalize a * m / n = q at hq hq'
  have hb : q * n / m * m ≤ q * n := Int.ediv_mul_le _ hm.ne'
  have hb' : q * n < q * n / m * m + m := by
    have := Int.lt_ediv_add_one_mul_self (q * n) hm
    linarith
  generalize q * n / m = b at hb hb'
  refine ⟨le_of_mul_le_mul_right (hb.trans hq) hm, Int.le_ceil_iff.2 ?_⟩
  rw [lt_div_iff₀ (by exact_mod_cast hm)]
  have hloss : (a - b - 1) * m < n := by linarith
  exact_mod_cast hloss

/-! ## Conversions -/

theorem log2_lt_of_fits {n : ℤ} (h0 : 0 ≤ n) (h : n < 2 ^ 63) : n.natAbs.log2 < 128 := by
  by_cases hzero : n.natAbs = 0
  · rw [hzero]
    decide
  · exact (Nat.log2_lt hzero).2 (by omega)

theorem toInt_ofInt_of_fits {n : ℤ} (h0 : 0 ≤ n) (h : n < 2 ^ 63) : (Int64.ofInt n).toInt = n :=
  Int64.toInt_ofInt_of_le (by omega) h

namespace Asset

variable {p : Price} {amount : ShareType}

theorem mul_base (hamount : 0 ≤ amount.toInt)
    (hfits : amount.toInt * p.ratio / REAL128_PRECISION < 2 ^ 63) :
    ∃ q : ShareType, (Asset.mk amount p.baseAssetId).mul p = .ok ⟨q, p.quoteAssetId⟩ ∧
      q.toInt = amount.toInt * p.ratio / REAL128_PRECISION := by
  have hprod : 0 ≤ amount.toInt * (p.ratio : ℤ) := mul_nonneg hamount (Int.natCast_nonneg _)
  have h0 : 0 ≤ amount.toInt * (p.ratio : ℤ) / (REAL128_PRECISION : ℤ) :=
    Int.ediv_nonneg hprod (by decide)
  refine ⟨.ofInt (amount.toInt * p.ratio / REAL128_PRECISION), ?_, toInt_ofInt_of_fits h0 hfits⟩
  unfold Asset.mul
  rw [if_pos rfl, Int.tdiv_eq_ediv_of_nonneg hprod]
  simp only [bind_eq_ok, require_eq_ok, pure_eq_ok]
  exact ⟨(), log2_lt_of_fits h0 hfits, trivial⟩

theorem mul_quote (hids : p.quoteAssetId ≠ p.baseAssetId) (hamount : 0 ≤ amount.toInt)
    (hfits : amount.toInt * REAL128_PRECISION / p.ratio < 2 ^ 63) :
    ∃ b : ShareType, (Asset.mk amount p.quoteAssetId).mul p = .ok ⟨b, p.baseAssetId⟩ ∧
      b.toInt = amount.toInt * REAL128_PRECISION / p.ratio := by
  have hprod : 0 ≤ amount.toInt * (REAL128_PRECISION : ℤ) := mul_nonneg hamount (by decide)
  have h0 : 0 ≤ amount.toInt * (REAL128_PRECISION : ℤ) / (p.ratio : ℤ) :=
    Int.ediv_nonneg hprod (Int.natCast_nonneg _)
  refine ⟨.ofInt (amount.toInt * REAL128_PRECISION / p.ratio), ?_, toInt_ofInt_of_fits h0 hfits⟩
  unfold Asset.mul
  rw [if_neg hids, if_pos rfl, Int.tdiv_eq_ediv_of_nonneg hprod]
  simp only [bind_eq_ok, require_eq_ok, pure_eq_ok]
  exact ⟨(), log2_lt_of_fits h0 hfits, trivial⟩

theorem div_comm {a b : Asset} (hids : a.assetId ≠ b.assetId) : a.div b = b.div a := by
  unfold Asset.div
  rcases hids.lt_or_gt with h | h <;> simp [h, h.not_gt, h.ne, h.ne']

theorem div_eq {q b : Asset} (hids : b.assetId < q.assetId) (hq : 0 ≤ q.amount.toInt)
    (hb : 0 < b.amount.toInt) :
    q.div b = .ok ⟨(q.amount.toInt * REAL128_PRECISION / b.amount.toInt).toNat, b.assetId,
      q.assetId⟩ := by
  have hprod : 0 ≤ q.amount.toInt * (REAL128_PRECISION : ℤ) := mul_nonneg hq (by decide)
  have hbase : b.amount ≠ 0 := fun h => by simp [h] at hb
  have hlt : q.amount.toInt * (REAL128_PRECISION : ℤ) / b.amount.toInt < 2 ^ 128 := by
    have hle := Int.ediv_le_self b.amount.toInt hprod
    have hmax := (Int64.toInt_bounds q.amount).2
    have hprecision : (REAL128_PRECISION : ℤ) = 10 ^ 18 := rfl
    rw [hprecision] at hle ⊢
    omega
  simp only [Asset.div, if_neg hids.not_gt, Int.tdiv_eq_ediv_of_nonneg hprod,
    Int.emod_eq_of_lt (Int.ediv_nonneg hprod hb.le) hlt, bind_eq_ok, require_eq_ok, pure_eq_ok]
  exact ⟨(), hids.ne', (), hbase, trivial⟩

theorem base_round_trip (hr : 0 < p.ratio) (hids : p.baseAssetId ≠ p.quoteAssetId)
    (hamount : 0 ≤ amount.toInt) (hfits : amount.toInt * p.ratio / REAL128_PRECISION < 2 ^ 63) :
    ∃ q b : ShareType, (Asset.mk amount p.baseAssetId).mul p = .ok ⟨q, p.quoteAssetId⟩ ∧
      (Asset.mk q p.quoteAssetId).mul p = .ok ⟨b, p.baseAssetId⟩ ∧
      b.toInt ≤ amount.toInt ∧
      amount.toInt - b.toInt ≤ ⌈(REAL128_PRECISION / p.ratio : ℚ)⌉ := by
  obtain ⟨q, hmul, hq⟩ := mul_base hamount hfits
  have hratio : (0 : ℤ) < p.ratio := by exact_mod_cast hr
  have htrip := there_and_back (a := amount.toInt) hratio (n := REAL128_PRECISION) (by decide)
  rw [← hq] at htrip
  have hq0 : 0 ≤ q.toInt := by
    rw [hq]
    exact Int.ediv_nonneg (mul_nonneg hamount hratio.le) (by decide)
  obtain ⟨b, hback, hb⟩ := mul_quote hids.symm hq0
    (htrip.1.trans_lt (Int64.toInt_bounds amount).2)
  rw [← hb] at htrip
  exact ⟨q, b, hmul, hback, htrip⟩

theorem quote_round_trip (hr : 0 < p.ratio) (hids : p.baseAssetId ≠ p.quoteAssetId)
    (hamount : 0 ≤ amount.toInt) (hfits : amount.toInt * REAL128_PRECISION / p.ratio < 2 ^ 63) :
    ∃ b q : ShareType, (Asset.mk amount p.quoteAssetId).mul p = .ok ⟨b, p.baseAssetId⟩ ∧
      (Asset.mk b p.baseAssetId).mul p = .ok ⟨q, p.quoteAssetId⟩ ∧
      q.toInt ≤ amount.toInt ∧
      amount.toInt - q.toInt ≤ ⌈(p.ratio / REAL128_PRECISION : ℚ)⌉ := by
  obtain ⟨b, hmul, hb⟩ := mul_quote hids.symm hamount hfits
  have hratio : (0 : ℤ) < p.ratio := by exact_mod_cast hr
  have htrip := there_and_back (a := amount.toInt) (m := REAL128_PRECISION) (by decide) hratio
  rw [← hb] at htrip
  have hb0 : 0 ≤ b.toInt := by
    rw [hb]
    exact Int.ediv_nonneg (mul_nonneg hamount (by decide)) hratio.le
  obtain ⟨q, hback, hq⟩ := mul_base (p := p) hb0 (htrip.1.trans_lt (Int64.toInt_bounds amount).2)
  rw [← hq] at htrip
  exact ⟨b, q, hmul, hback, htrip⟩

theorem mul_div {q b : Asset} (hids : b.assetId < q.assetId) (hq : 0 ≤ q.amount.toInt)
    (hb : 0 < b.amount.toInt) (hmax : b.amount ≤ MAX_SHARES) :
    ∃ price r, q.div b = .ok price ∧ b.div q = .ok price ∧ b.mul price = .ok r ∧
      r.assetId = q.assetId ∧
      (r.amount.toInt = q.amount.toInt ∨ r.amount.toInt = q.amount.toInt - 1) := by
  have hbound : b.amount.toInt ≤ 10 ^ 15 := Int64.le_iff_toInt_le.1 hmax
  have hprecision : (REAL128_PRECISION : ℤ) = 10 ^ 18 := rfl
  have hprod : 0 ≤ q.amount.toInt * (REAL128_PRECISION : ℤ) := mul_nonneg hq (by decide)
  have hdiv := div_eq hids hq hb
  set price : Price := ⟨(q.amount.toInt * REAL128_PRECISION / b.amount.toInt).toNat, b.assetId,
    q.assetId⟩ with hprice
  have hratio : (price.ratio : ℤ) = q.amount.toInt * REAL128_PRECISION / b.amount.toInt :=
    Int.toNat_of_nonneg (Int.ediv_nonneg hprod hb.le)
  have hle : b.amount.toInt * (price.ratio : ℤ) ≤ q.amount.toInt * REAL128_PRECISION := by
    rw [hratio, mul_comm]
    exact Int.ediv_mul_le _ hb.ne'
  have hlt : q.amount.toInt * REAL128_PRECISION < b.amount.toInt * (price.ratio + 1) := by
    rw [hratio, mul_comm b.amount.toInt]
    exact Int.lt_ediv_add_one_mul_self _ hb
  rw [hprecision] at hle hlt
  have hfits : b.amount.toInt * price.ratio / REAL128_PRECISION < 2 ^ 63 := by
    have := (Int64.toInt_bounds q.amount).2
    rw [hprecision]
    omega
  obtain ⟨r, hmul, hr⟩ := mul_base (p := price) hb.le hfits
  refine ⟨price, ⟨r, q.assetId⟩, hdiv, (div_comm hids.ne).trans hdiv, hmul, rfl, ?_⟩
  rw [hr, hprecision]
  rw [mul_add, mul_one] at hlt
  omega

end Asset

/-- **Converting loses at most a unit.**  A price is that of two different assets: `operator /`
refuses to divide an asset by itself. -/
theorem conversion_bounds (p : Price) (hr : 0 < p.ratio) (hids : p.baseAssetId ≠ p.quoteAssetId) :
    (∀ a : ShareType, 0 ≤ a.toInt → a.toInt * p.ratio / REAL128_PRECISION < 2 ^ 63 →
      ∃ q b : ShareType, (Asset.mk a p.baseAssetId).mul p = .ok ⟨q, p.quoteAssetId⟩ ∧
        (Asset.mk q p.quoteAssetId).mul p = .ok ⟨b, p.baseAssetId⟩ ∧
        b.toInt ≤ a.toInt ∧ a.toInt - b.toInt ≤ ⌈(REAL128_PRECISION / p.ratio : ℚ)⌉) ∧
    (∀ a : ShareType, 0 ≤ a.toInt → a.toInt * REAL128_PRECISION / p.ratio < 2 ^ 63 →
      ∃ b q : ShareType, (Asset.mk a p.quoteAssetId).mul p = .ok ⟨b, p.baseAssetId⟩ ∧
        (Asset.mk b p.baseAssetId).mul p = .ok ⟨q, p.quoteAssetId⟩ ∧
        q.toInt ≤ a.toInt ∧ a.toInt - q.toInt ≤ ⌈(p.ratio / REAL128_PRECISION : ℚ)⌉) ∧
    (∀ q b : Asset, 0 ≤ q.amount.toInt → 0 < b.amount.toInt → b.amount ≤ MAX_SHARES →
      b.assetId < q.assetId →
      ∃ price r, q.div b = .ok price ∧ b.div q = .ok price ∧ b.mul price = .ok r ∧
        r.assetId = q.assetId ∧
        (r.amount.toInt = q.amount.toInt ∨ r.amount.toInt = q.amount.toInt - 1)) :=
  ⟨fun _ ha hfits => Asset.base_round_trip hr hids ha hfits,
    fun _ ha hfits => Asset.quote_round_trip hr hids ha hfits,
    fun _ _ hq hb hmax hlt => Asset.mul_div hlt hq hb hmax⟩

theorem conversion_bounds_third : ∃ q b : ShareType,
    (Asset.mk 10 0).mul ⟨333333333333333333, 0, 1⟩ = .ok ⟨q, 1⟩ ∧
    (Asset.mk q 1).mul ⟨333333333333333333, 0, 1⟩ = .ok ⟨b, 0⟩ ∧
    b.toInt ≤ 10 ∧ 10 - b.toInt ≤ ⌈(REAL128_PRECISION / 333333333333333333 : ℚ)⌉ :=
  (conversion_bounds ⟨333333333333333333, 0, 1⟩ (by decide) (by decide)).1 10 (by decide)
    (by decide)

/-! ## The text of a price -/

namespace Price

theorem intPart_eq (digits : List Char) : intPart digits = .ofNat (Decimal.value digits) := by
  suffices h : ∀ n : ℕ, digits.foldl (fun n c => n * 10 + UInt64.ofNat (digit c)) (.ofNat n) =
      .ofNat (Nat.ofDigitChars 10 digits n) from h 0
  induction digits with
  | nil => exact fun _ => rfl
  | cons c digits ih =>
    intro n
    rw [Nat.ofDigitChars_cons, ← ih, List.foldl_cons]
    congr 1
    rw [UInt64.ofNat_add, UInt64.ofNat_mul, UInt64.mul_comm]
    rfl

theorem fracPart_eq (digits : List Char) :
    fracPart digits = (.ofNat (Decimal.value digits), .ofNat (10 ^ digits.length)) := by
  suffices h : ∀ n m : ℕ, digits.foldl
      (fun n c => (n.1 * 10 + Int64.ofNat (digit c), n.2 * 10)) (Int64.ofNat n, Int64.ofNat m) =
      (.ofNat (Nat.ofDigitChars 10 digits n), .ofNat (m * 10 ^ digits.length)) by
    simpa [fracPart] using h 0 1
  induction digits with
  | nil => simp
  | cons c digits ih =>
    intro n m
    have hscale : m * 10 ^ (c :: digits).length = m * 10 * 10 ^ digits.length := by
      rw [List.length_cons, pow_succ]
      ring
    rw [Nat.ofDigitChars_cons, hscale, ← ih, List.foldl_cons]
    congr 1
    rw [Int64.ofNat_add, Int64.ofNat_mul, Int64.ofNat_mul, Int64.mul_comm (.ofNat 10)]
    rfl

theorem fracRatio_eq {digits : List Char} (hlen : digits.length ≤ 18)
    (hdigits : ∀ c ∈ digits, c.isDigit) :
    fracRatio digits = Decimal.value digits * 10 ^ (18 - digits.length) := by
  have hscale : 10 ^ digits.length ≤ 10 ^ 18 := Nat.pow_le_pow_right (by decide) hlen
  have hvalue := (Decimal.value_lt hdigits).trans_le hscale
  have hfrac : (Int64.ofNat (Decimal.value digits)).toInt = Decimal.value digits :=
    Int64.toInt_ofNat_of_lt (by omega)
  have hmagnitude : (Int64.ofNat (10 ^ digits.length)).toUInt64.toNat = 10 ^ digits.length := by
    have hsame : (Int64.ofNat (10 ^ digits.length)).toUInt64 = .ofNat (10 ^ digits.length) := rfl
    rw [hsame, UInt64.toNat_ofNat_of_lt' (hscale.trans_lt (by decide))]
  simp only [fracRatio, fracPart_eq, hfrac, hmagnitude]
  congr 1
  · omega
  · exact Nat.pow_div hlen (by decide)

theorem ratioFromString_point {whole frac : List Char} (hwhole : ∀ c ∈ whole, c.isDigit)
    (hlen : frac.length ≤ 18) (hfrac : ∀ c ∈ frac, c.isDigit) :
    ratioFromString (whole ++ '.' :: frac) =
      (Decimal.value whole % 2 ^ 64 * REAL128_PRECISION +
        Decimal.value frac * 10 ^ (18 - frac.length)) % 2 ^ 128 := by
  have htake : (whole ++ '.' :: frac).takeWhile Char.isDigit = whole := by
    rw [List.takeWhile_append_of_pos hwhole, List.takeWhile_cons_of_neg (by decide),
      List.append_nil]
  have hdrop : (whole ++ '.' :: frac).dropWhile Char.isDigit = '.' :: frac := by
    rw [List.dropWhile_append_of_pos hwhole, List.dropWhile_cons_of_neg (by decide)]
  have hrest : frac.takeWhile Char.isDigit = frac := List.takeWhile_eq_self_iff.2 hfrac
  simp only [ratioFromString, htake, hdrop, hrest, intPart_eq, fracRatio_eq hlen hfrac,
    UInt64.toNat_ofNat']

theorem ratioFromString_ratioString (p : Price) :
    ratioFromString p.ratioString =
      (p.ratio / REAL128_PRECISION % 2 ^ 64 * REAL128_PRECISION + p.ratio % REAL128_PRECISION) %
        2 ^ 128 := by
  have hprecision : REAL128_PRECISION = 10 ^ 18 := rfl
  obtain ⟨hlen, hvalue⟩ := Decimal.padded (n := p.ratio % 10 ^ 18) (k := 18)
    (Nat.mod_lt _ (by decide))
  have hdigits : ∀ c ∈ (Nat.toDigits 10 (p.ratio % 10 ^ 18 + 10 ^ 18)).drop 1, c.isDigit :=
    fun _ hc => Nat.isDigit_of_mem_toDigits (by decide) (by decide) (List.mem_of_mem_drop hc)
  rw [ratioString, hprecision, Decimal.rdropWhile_append_cons (by decide)]
  generalize (Nat.toDigits 10 (p.ratio % 10 ^ 18 + 10 ^ 18)).drop 1 = frac at hlen hvalue hdigits
  have hshort := (List.rdropWhile_prefix (· = '0') frac).length_le
  have hscaled := Decimal.value_rdropWhile frac
  rw [hlen] at hshort hscaled
  rw [ratioFromString_point
      (fun _ hc => Nat.isDigit_of_mem_toDigits (by decide) (by decide) hc) hshort
      (fun c hc => hdigits c ((List.rdropWhile_prefix _ frac).subset hc)),
    hscaled, hvalue, Decimal.value, Nat.ofDigitChars_ten_toDigits, hprecision]

theorem ratio_div_lt {a b : Asset} {p : Price} (ha : 0 ≤ a.amount.toInt) (hb : 0 ≤ b.amount.toInt)
    (hdiv : a.div b = .ok p) : p.ratio / REAL128_PRECISION < 2 ^ 64 := by
  have hids : a.assetId ≠ b.assetId := by
    simp only [Asset.div, bind_eq_ok, require_eq_ok] at hdiv
    exact hdiv.choose_spec.1
  wlog h : b.assetId < a.assetId generalizing a b
  · exact this hb ha (Asset.div_comm hids ▸ hdiv) hids.symm (lt_of_le_of_ne (not_lt.1 h) hids)
  have hbase : b.amount ≠ 0 := by
    simp only [Asset.div, if_neg h.not_gt, bind_eq_ok, require_eq_ok] at hdiv
    obtain ⟨_, _, _, hbase, _⟩ := hdiv
    exact hbase
  have hpos : 0 < b.amount.toInt := lt_of_le_of_ne hb fun hzero =>
    hbase (Int64.toInt_inj.1 hzero.symm)
  have hp : p.ratio = (a.amount.toInt * REAL128_PRECISION / b.amount.toInt).toNat := by
    rw [Asset.div_eq h ha hpos, Except.ok.injEq] at hdiv
    exact hdiv ▸ rfl
  have hle : a.amount.toInt * REAL128_PRECISION / b.amount.toInt ≤ a.amount.toInt * 10 ^ 18 :=
    Int.ediv_le_self _ (mul_nonneg ha (by decide))
  have hmax := (Int64.toInt_bounds a.amount).2
  have hprecision : REAL128_PRECISION = 10 ^ 18 := rfl
  rw [hp, hprecision]
  rw [hprecision] at hle
  omega

/-- With an integer part that fits, nothing is lost; otherwise the text is read as a lower one. -/
theorem ratioFromString_eq_iff (p : Price) (hp : p.ratio < 2 ^ 128) :
    ratioFromString p.ratioString = p.ratio ↔ p.ratio / REAL128_PRECISION < 2 ^ 64 := by
  have hprecision : REAL128_PRECISION = 10 ^ 18 := rfl
  have hsplit := Nat.div_add_mod' p.ratio REAL128_PRECISION
  rw [ratioFromString_ratioString]
  constructor
  · intro h
    by_contra hbig
    have hle := h ▸ Nat.mod_le _ _
    have hwrapped := Nat.mod_lt (p.ratio / REAL128_PRECISION) (y := 2 ^ 64) (by decide)
    rw [hprecision] at hle hsplit hbig hwrapped
    omega
  · intro hfits
    rw [Nat.mod_eq_of_lt hfits, hsplit, Nat.mod_eq_of_lt hp]

end Price

/-- **Price text.**  A price comes back from its text exactly if its integer part fits 64 bits, as
that of a price of two amounts does. -/
theorem ofVariant_toVariant_iff (p : Price) (hp : p.ratio < 2 ^ 128) :
    (Price.ofVariant p.toVariant = p ↔ p.ratio / REAL128_PRECISION < 2 ^ 64) ∧
      ((∃ a b : Asset, 0 ≤ a.amount.toInt ∧ 0 ≤ b.amount.toInt ∧ a.div b = .ok p) →
        p.ratio / REAL128_PRECISION < 2 ^ 64) := by
  refine ⟨Iff.trans ?_ (p.ratioFromString_eq_iff hp), fun ⟨a, b, ha, hb, hdiv⟩ =>
    Price.ratio_div_lt ha hb hdiv⟩
  cases p
  simp [Price.ofVariant, Price.toVariant]

theorem ofVariant_toVariant_half :
    Price.ofVariant (Price.toVariant ⟨2500000000000000000, 0, 1⟩) =
      ⟨2500000000000000000, 0, 1⟩ :=
  (ofVariant_toVariant_iff ⟨2500000000000000000, 0, 1⟩ (by decide)).1.2 (by decide)

/-- The text of an infinite price is read as a finite one. -/
theorem infinite_lost :
    Price.ofVariant (Price.toVariant ⟨Price.infinite, 0, 1⟩) ≠ ⟨Price.infinite, 0, 1⟩ := by
  rw [Ne, Price.ofVariant, Price.mk.injEq]
  rintro ⟨h, -⟩
  have := ((Price.mk Price.infinite 0 1).ratioFromString_eq_iff (by decide)).1 h
  exact absurd this (by decide)

end BitShares
