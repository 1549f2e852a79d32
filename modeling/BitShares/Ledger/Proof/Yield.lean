import BitShares.Ledger.Proof.Operations
import BitShares.Lib.Int64

/-!
# The yield of market issued assets

`calculate_yield` shares out the collected fees of an asset: a part of them that grows for a year
with the time a balance has been held.  `exactYield` is the same computation without a bound on the
numbers, and `calculateYield_eq` says that 128 bits are enough for it.

At the end the result is cut off where it reaches all of the fees, and becomes 0.  That is the case
exactly for the whole supply after a year.

* `yield_monotone_iff`: up to there the yield grows with time and amount.
* `yield_cut_off`: at that point it falls to 0.
-/

namespace BitShares

/-! ## The curve -/

/-- What a yield comes to after some seconds: four fifths of it grow with the time, the rest with
its square. -/
def yieldAfter (full elapsed : Nat) : Nat :=
  if elapsed < MAX_YIELD_PERIOD_SEC then
    full * 8 / 10 * elapsed / MAX_YIELD_PERIOD_SEC +
      (full - full * 8 / 10) * elapsed / MAX_YIELD_PERIOD_SEC * elapsed / MAX_YIELD_PERIOD_SEC
  else full

def exactYield (elapsed : Int) (amount pool supply : Nat) : Nat :=
  if elapsed ≤ MIN_YIELD_PERIOD_SEC then 0
  else
    let yield := yieldAfter (amount * 1000000 * pool / (supply - pool)) elapsed.toNat / 1000000
    if 0 < yield ∧ yield < pool then yield else 0

theorem mul_div_period_le (x : Nat) {elapsed : Nat} (h : elapsed ≤ MAX_YIELD_PERIOD_SEC) :
    x * elapsed / MAX_YIELD_PERIOD_SEC ≤ x :=
  Nat.div_le_of_le_mul (by rw [Nat.mul_comm]; exact Nat.mul_le_mul_right x h)

theorem yieldAfter_le (full elapsed : Nat) : yieldAfter full elapsed ≤ full := by
  unfold yieldAfter
  split_ifs with h
  · have hsimple := mul_div_period_le (full * 8 / 10) h.le
    have hdelta := mul_div_period_le (full - full * 8 / 10) h.le
    have hdelta' := mul_div_period_le
      ((full - full * 8 / 10) * elapsed / MAX_YIELD_PERIOD_SEC) h.le
    omega
  · exact le_rfl

theorem yieldAfter_mono {full full' elapsed elapsed' : Nat} (hfull : full ≤ full')
    (helapsed : elapsed ≤ elapsed') : yieldAfter full elapsed ≤ yieldAfter full' elapsed' := by
  by_cases h' : elapsed' < MAX_YIELD_PERIOD_SEC
  · have hsimple : full * 8 / 10 ≤ full' * 8 / 10 := by omega
    have hdelta : full - full * 8 / 10 ≤ full' - full' * 8 / 10 := by omega
    unfold yieldAfter
    rw [if_pos h', if_pos (helapsed.trans_lt h')]
    gcongr
  · rw [yieldAfter.eq_def full', if_neg h']
    exact (yieldAfter_le full elapsed).trans hfull

theorem yieldAfter_zero (elapsed : Nat) : yieldAfter 0 elapsed = 0 := by
  simpa using yieldAfter_le 0 elapsed

section Exact

variable {elapsed elapsed' : Int} {amount amount' pool supply : Nat}

theorem full_lt (hpool : 0 < pool) (h : amount < supply - pool) :
    amount * 1000000 * pool / (supply - pool) < 1000000 * pool := by
  rw [Nat.div_lt_iff_lt_mul (by omega), Nat.mul_comm (1000000 * pool), ← Nat.mul_assoc]
  exact Nat.mul_lt_mul_of_pos_right (by omega) hpool

theorem full_le (hpool : pool < supply) (h : amount ≤ supply - pool) :
    amount * 1000000 * pool / (supply - pool) ≤ 1000000 * pool := by
  rw [Nat.div_le_iff_le_mul_add_pred (by omega), ← Nat.mul_assoc]
  exact (Nat.mul_le_mul_right pool (Nat.mul_le_mul_right _ h)).trans (Nat.le_add_right ..)

theorem exactYield_of_lt (hpool : 0 < pool) (h : amount < supply - pool) :
    exactYield elapsed amount pool supply =
      if elapsed ≤ MIN_YIELD_PERIOD_SEC then 0
      else yieldAfter (amount * 1000000 * pool / (supply - pool)) elapsed.toNat / 1000000 := by
  have hfull := full_lt hpool h
  have hle := yieldAfter_le (amount * 1000000 * pool / (supply - pool)) elapsed.toNat
  unfold exactYield
  dsimp only
  split_ifs with hmin hcut
  · rfl
  · rfl
  · omega

theorem exactYield_mono (hpool : 0 < pool) (hamount : amount ≤ amount')
    (h : amount' < supply - pool) (helapsed : elapsed ≤ elapsed') :
    exactYield elapsed amount pool supply ≤ exactYield elapsed' amount' pool supply := by
  rw [exactYield_of_lt hpool (hamount.trans_lt h), exactYield_of_lt hpool h]
  split_ifs with hmin hmin'
  · exact le_rfl
  · exact Nat.zero_le _
  · omega
  · refine Nat.div_le_div_right (yieldAfter_mono ?_ (Int.toNat_le_toNat helapsed))
    gcongr

theorem exactYield_one : exactYield elapsed amount 1 supply = 0 := by
  unfold exactYield
  dsimp only
  split_ifs with hmin hcut
  · rfl
  · omega
  · rfl

theorem exactYield_whole (hpool : 2 ≤ pool) (h : pool < supply) :
    0 < exactYield (MAX_YIELD_PERIOD_SEC - 1 : Nat) (supply - pool) pool supply ∧
      exactYield MAX_YIELD_PERIOD_SEC (supply - pool) pool supply = 0 := by
  have hfull : (supply - pool) * 1000000 * pool / (supply - pool) = 1000000 * pool := by
    rw [Nat.mul_assoc, Nat.mul_div_cancel_left _ (by omega)]
  have hafter : yieldAfter (1000000 * pool) MAX_YIELD_PERIOD_SEC = 1000000 * pool := by
    rw [yieldAfter, if_neg (lt_irrefl _)]
  have hbefore : 1000000 ≤ yieldAfter (1000000 * pool) (MAX_YIELD_PERIOD_SEC - 1) ∧
      yieldAfter (1000000 * pool) (MAX_YIELD_PERIOD_SEC - 1) < 1000000 * pool := by
    have hsimple : 1000000 * pool * 8 / 10 = 800000 * pool := by omega
    have hdelta := mul_div_period_le (1000000 * pool - 800000 * pool)
      (Nat.sub_le MAX_YIELD_PERIOD_SEC 1)
    have hdelta' := mul_div_period_le ((1000000 * pool - 800000 * pool) *
      (MAX_YIELD_PERIOD_SEC - 1) / MAX_YIELD_PERIOD_SEC) (Nat.sub_le MAX_YIELD_PERIOD_SEC 1)
    have hperiod : MAX_YIELD_PERIOD_SEC = 31536000 := by decide
    rw [yieldAfter, if_pos (by decide), hsimple]
    rw [hperiod] at hdelta hdelta' ⊢
    omega
  have hmin : ¬ ((MAX_YIELD_PERIOD_SEC - 1 : Nat) : Int) ≤ MIN_YIELD_PERIOD_SEC := by decide
  have hmin' : ¬ (MAX_YIELD_PERIOD_SEC : Int) ≤ MIN_YIELD_PERIOD_SEC := by decide
  constructor
  · simp only [exactYield, if_neg hmin, hfull, Int.toNat_natCast]
    rw [if_pos (by omega)]
    omega
  · simp only [exactYield, if_neg hmin', hfull, Int.toNat_natCast, hafter]
    rw [if_neg (by omega)]

end Exact

/-! ## 128 bits -/

structure YieldRange (amount pool supply : ShareType) : Prop where
  pool_pos : 0 < pool
  pool_lt : pool < supply
  supply_le : supply ≤ MAX_SHARES
  amount_nonneg : 0 ≤ amount
  amount_le : amount ≤ supply - pool

theorem YieldRange.toNat {amount pool supply : ShareType} (h : YieldRange amount pool supply) :
    ∃ a p s : Nat, amount.toInt = a ∧ pool.toInt = p ∧ supply.toInt = s ∧
      (supply - pool).toInt = (s - p : Nat) ∧ 0 < p ∧ p < s ∧ s ≤ 10 ^ 15 ∧ a ≤ s - p := by
  obtain ⟨hpool, hlt, hmax, hamount, hle⟩ := h
  rw [Int64.lt_iff_toInt_lt, Int64.toInt_zero] at hpool
  rw [Int64.lt_iff_toInt_lt] at hlt
  rw [Int64.le_iff_toInt_le, show MAX_SHARES.toInt = 10 ^ 15 by decide] at hmax
  rw [Int64.le_iff_toInt_le, Int64.toInt_zero] at hamount
  have hsub : (supply - pool).toInt = supply.toInt - pool.toInt :=
    Int64.toInt_sub_of_bounds (by omega) (by omega)
  rw [Int64.le_iff_toInt_le, hsub] at hle
  exact ⟨amount.toInt.toNat, pool.toInt.toNat, supply.toInt.toNat, by omega, by omega, by omega,
    by omega, by omega, by omega, by omega, by omega⟩

theorem mul_elapsed_lt {x elapsed : Nat} (hx : x ≤ 10 ^ 21)
    (helapsed : elapsed < MAX_YIELD_PERIOD_SEC) : x * elapsed < 2 ^ 128 :=
  (Nat.mul_le_mul hx helapsed.le).trans_lt (by decide)

theorem yieldAfter_bits {full elapsed : Nat} (hfull : full ≤ 10 ^ 21)
    (helapsed : elapsed < MAX_YIELD_PERIOD_SEC) :
    (full * 8 % 2 ^ 128 / 10 * elapsed % 2 ^ 128 / MAX_YIELD_PERIOD_SEC +
        (full + 2 ^ 128 - full * 8 % 2 ^ 128 / 10) % 2 ^ 128 * elapsed % 2 ^ 128 /
          MAX_YIELD_PERIOD_SEC * elapsed % 2 ^ 128 / MAX_YIELD_PERIOD_SEC) % 2 ^ 128 =
      yieldAfter full elapsed := by
  have hdelta : (full + 2 ^ 128 - full * 8 / 10) % 2 ^ 128 = full - full * 8 / 10 := by omega
  have hshare := mul_div_period_le (full - full * 8 / 10) helapsed.le
  have hsum := yieldAfter_le full elapsed
  have hsimple := mul_elapsed_lt (by omega : full * 8 / 10 ≤ 10 ^ 21) helapsed
  have hfirst := mul_elapsed_lt (by omega : full - full * 8 / 10 ≤ 10 ^ 21) helapsed
  have hsecond := mul_elapsed_lt (hshare.trans (by omega)) helapsed
  rw [yieldAfter, if_pos helapsed] at hsum ⊢
  rw [Nat.mod_eq_of_lt (by omega : full * 8 < 2 ^ 128), hdelta, Nat.mod_eq_of_lt hsimple,
    Nat.mod_eq_of_lt hfirst, Nat.mod_eq_of_lt hsecond, Nat.mod_eq_of_lt (by omega)]

/-- **128 bits are enough**: the yield is the one computed without a bound. -/
theorem BalanceRecord.calculateYield_eq (r : BalanceRecord) (now : Time)
    {amount pool supply : ShareType} (h : YieldRange amount pool supply) :
    (r.calculateYield now amount pool supply).toInt =
      exactYield ((now : Int) - r.depositDate) amount.toInt.toNat pool.toInt.toNat
        supply.toInt.toNat := by
  obtain ⟨a, p, s, ha, hp, hs, hsub, hpos, hlt, hmax, hle⟩ := h.toNat
  have hsupply : ¬ supply ≤ 0 := by rw [Int64.le_iff_toInt_le, Int64.toInt_zero]; omega
  have hpool : ¬ pool ≤ 0 := by rw [Int64.le_iff_toInt_le, Int64.toInt_zero]; omega
  have hcurrent : (((s - p : Nat) : Int) % (2 ^ 128 : Nat)).toNat = s - p := by omega
  have hwithdrawn : a * 1000000 % 2 ^ 128 = a * 1000000 := Nat.mod_eq_of_lt (by omega)
  have hproduct : a * 1000000 * p % 2 ^ 128 = a * 1000000 * p :=
    Nat.mod_eq_of_lt ((Nat.mul_le_mul (by omega : a * 1000000 ≤ 10 ^ 21)
      (by omega : p ≤ 10 ^ 15)).trans_lt (by decide))
  have hfull := full_le hlt hle
  rw [calculateYield, if_neg hsupply, if_neg hpool]
  simp only [ha, hp, hs, hsub, Int.toNat_natCast, hcurrent, hwithdrawn, hproduct]
  by_cases hzero : amount ≤ 0
  · -- nothing is withdrawn
    rw [Int64.le_iff_toInt_le, Int64.toInt_zero] at hzero
    obtain rfl : a = 0 := by omega
    simp [exactYield, yieldAfter_zero]
  by_cases hmin : (now : Int) - r.depositDate ≤ MIN_YIELD_PERIOD_SEC
  · rw [if_neg hzero, if_pos hmin, exactYield, if_pos hmin]
    rfl
  have hcurve : (if now - r.depositDate < MAX_YIELD_PERIOD_SEC then
      (a * 1000000 * p / (s - p) * 8 % 2 ^ 128 / 10 * (now - r.depositDate) % 2 ^ 128 /
          MAX_YIELD_PERIOD_SEC +
        (a * 1000000 * p / (s - p) + 2 ^ 128 - a * 1000000 * p / (s - p) * 8 % 2 ^ 128 / 10) %
          2 ^ 128 * (now - r.depositDate) % 2 ^ 128 / MAX_YIELD_PERIOD_SEC *
          (now - r.depositDate) % 2 ^ 128 / MAX_YIELD_PERIOD_SEC) % 2 ^ 128
      else a * 1000000 * p / (s - p)) =
      yieldAfter (a * 1000000 * p / (s - p)) ((now : Int) - r.depositDate).toNat := by
    rw [Int.toNat_sub]
    split_ifs with helapsed
    · exact yieldAfter_bits (by omega) helapsed
    · rw [yieldAfter, if_neg helapsed]
  rw [if_neg hzero, if_neg hmin, if_neg (by omega), hcurve, exactYield, if_neg hmin]
  dsimp only
  split_ifs with hcut
  · exact Int64.toInt_ofInt_of_le (by omega) (by omega)
  · rfl

/-! ## Withdrawals -/

section

variable [Crypto]

inductive YieldRun (id : AssetId) (asset : AssetRecord) : AssetRecord → Prop
  | start : YieldRun id asset asset
  | withdraw {before after : AssetRecord} {e e' : EvalState} {op : WithdrawOperation}
    (h : YieldRun id asset before) (hbefore : e.ledger.assets.lookup id = some before)
    (hop : op.evaluate e = .ok e') (hafter : e'.ledger.assets.lookup id = some after) :
    YieldRun id asset after

theorem YieldRun.collectedFees_nonneg {id : AssetId} {asset after : AssetRecord}
    (h : YieldRun id asset after) (hasset : 0 ≤ asset.collectedFees) :
    0 ≤ after.collectedFees := by
  induction h with
  | start => exact hasset
  | @withdraw before after e e' op _ hbefore hop hafter ih =>
    obtain ⟨-, r, spendable, asset', y, r', minFees, deltas, -, -, -, -, hy, hyield, -, -, -, -,
      heffect⟩ := WithdrawOperation.evaluate_effect hop
    rw [heffect.ledger] at hafter
    split_ifs at hafter with hzero
    · rw [show (e.ledger.storeBalance r').assets = e.ledger.assets from rfl, hbefore] at hafter
      exact Option.some.inj hafter ▸ ih
    · rw [Ledger.storeBalance, Ledger.storeAsset, Table.lookup_insert_eq] at hafter
      split_ifs at hafter
      · -- the fees that the yield was taken from are more than the yield
        have hlt := (hyield hzero).2
        rw [Int64.lt_iff_toInt_lt] at hlt
        rw [Int64.le_iff_toInt_le, Int64.toInt_zero] at hy
        have hbound := asset'.collectedFees.toInt_lt
        rw [← Option.some.inj hafter, Int64.le_iff_toInt_le, Int64.toInt_zero,
          Int64.toInt_sub_of_bounds (by omega) (by omega)]
        omega
      · rw [hbefore] at hafter
        exact Option.some.inj hafter ▸ ih

end

/-! ## Main results -/

/-- The yield of `amount` does not fall with time, and is not less than that of a smaller amount. -/
def YieldMonotone (amount pool supply : ShareType) : Prop :=
  (∀ (r r' : BalanceRecord) (now now' : Time),
    (now : Int) - r.depositDate ≤ (now' : Int) - r'.depositDate →
    r.calculateYield now amount pool supply ≤ r'.calculateYield now' amount pool supply) ∧
  ∀ (r : BalanceRecord) (now : Time) (smaller : ShareType), 0 ≤ smaller → smaller ≤ amount →
    r.calculateYield now smaller pool supply ≤ r.calculateYield now amount pool supply

theorem yieldMonotone_iff {amount pool supply : ShareType} (h : YieldRange amount pool supply) :
    YieldMonotone amount pool supply ↔ amount < supply - pool ∨ pool = 1 := by
  obtain ⟨a, p, s, ha, hp, hs, hsub, hpos, hlt, hmax, hle⟩ := h.toNat
  have hbelow : amount < supply - pool ↔ a < s - p := by
    rw [Int64.lt_iff_toInt_lt, ha, hsub]
    omega
  have hone : pool = 1 ↔ p = 1 := by
    rw [← Int64.toInt_inj, hp, show (1 : ShareType).toInt = 1 by decide]
    omega
  rw [hbelow, hone]
  constructor
  · rintro ⟨htime, -⟩
    by_contra hnot
    obtain rfl : a = s - p := by omega
    -- one second before the year is over there is a yield, then it is cut off
    let r : BalanceRecord := { condition := .withSignature 0 0 0, depositDate := 0 }
    have hfall := htime r r (MAX_YIELD_PERIOD_SEC - 1) MAX_YIELD_PERIOD_SEC (by decide)
    obtain ⟨hbefore, hafter⟩ := exactYield_whole (by omega) hlt
    rw [Int64.le_iff_toInt_le, r.calculateYield_eq _ h, r.calculateYield_eq _ h, ha, hp, hs] at hfall
    simp only [Int.toNat_natCast] at hfall
    change ((exactYield ((MAX_YIELD_PERIOD_SEC - 1 : Nat) : Int) (s - p) p s : Nat) : Int) ≤
      (exactYield MAX_YIELD_PERIOD_SEC (s - p) p s : Nat) at hfall
    omega
  · intro hcase
    have hmono : ∀ {elapsed elapsed' : Int} {b : Nat}, b ≤ a → elapsed ≤ elapsed' →
        exactYield elapsed b p s ≤ exactYield elapsed' a p s := by
      intro elapsed elapsed' b hb helapsed
      rcases hcase with hlow | rfl
      · exact exactYield_mono hpos hb hlow helapsed
      · rw [exactYield_one, exactYield_one]
    constructor
    · intro r r' now now' helapsed
      rw [Int64.le_iff_toInt_le, r.calculateYield_eq _ h, r'.calculateYield_eq _ h, ha, hp, hs]
      exact_mod_cast hmono le_rfl helapsed
    · intro r now smaller hnonneg hsmaller
      have hrange : YieldRange smaller pool supply :=
        ⟨h.pool_pos, h.pool_lt, h.supply_le, hnonneg, Int64.le_trans hsmaller h.amount_le⟩
      rw [Int64.le_iff_toInt_le, ha] at hsmaller
      rw [Int64.le_iff_toInt_le, r.calculateYield_eq _ hrange, r.calculateYield_eq _ h, ha, hp, hs]
      exact_mod_cast hmono (by omega) le_rfl

/-- **Yield.**  For the amounts of an asset, `calculate_yield` computes in 128 bits what it would
without a bound, and never more than the fees.  It grows with time and amount exactly if less than
the whole supply is withdrawn, or nothing can be shared out anyway.  Whatever is withdrawn, the fees
of an asset do not become negative. -/
theorem yield_monotone_iff {amount pool supply : ShareType} (h : YieldRange amount pool supply) :
    (∀ (r : BalanceRecord) (now : Time),
      (r.calculateYield now amount pool supply).toInt =
        exactYield ((now : Int) - r.depositDate) amount.toInt.toNat pool.toInt.toNat
          supply.toInt.toNat ∧
      r.calculateYield now amount pool supply ≤ pool) ∧
    (YieldMonotone amount pool supply ↔ amount < supply - pool ∨ pool = 1) ∧
    ∀ [Crypto] (id : AssetId) (asset after : AssetRecord), YieldRun id asset after →
      0 ≤ asset.collectedFees → 0 ≤ after.collectedFees := by
  refine ⟨fun r now => ⟨r.calculateYield_eq now h, ?_⟩, yieldMonotone_iff h,
    fun id asset after hrun hasset => hrun.collectedFees_nonneg hasset⟩
  by_cases hpos : 0 < r.calculateYield now amount pool supply
  · exact Int64.le_of_lt (BalanceRecord.calculateYield_lt hpos)
  · exact Int64.le_trans (Int64.not_lt.1 hpos) (Int64.le_of_lt h.pool_pos)

theorem yield_monotone_half : YieldRange 450 100 1000 ∧ YieldMonotone 450 100 1000 :=
  have h : YieldRange 450 100 1000 := ⟨by decide, by decide, by decide, by decide, by decide⟩
  ⟨h, (yield_monotone_iff h).2.1.2 (.inl (by decide))⟩

/-- **The yield of the whole supply is cut off.**  A second before the year is over it is 99 of 100,
then it is nothing; and a little less than the whole supply gets 99. -/
theorem yield_cut_off :
    let r : BalanceRecord := { condition := .withSignature 7 5 0, depositDate := 0 }
    YieldRange 900 100 1000 ∧
      r.calculateYield (MAX_YIELD_PERIOD_SEC - 1) 900 100 1000 = 99 ∧
      r.calculateYield MAX_YIELD_PERIOD_SEC 900 100 1000 = 0 ∧
      r.calculateYield MAX_YIELD_PERIOD_SEC 899 100 1000 = 99 :=
  ⟨⟨by decide, by decide, by decide, by decide, by decide⟩, by decide +kernel, by decide +kernel,
    by decide +kernel⟩

end BitShares
