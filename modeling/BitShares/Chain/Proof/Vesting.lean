import BitShares.Chain.Genesis
import BitShares.Ledger.Proof.Operations
import BitShares.Lib.Int64

/-!
# Vesting balances

A vesting balance of genesis releases its shares linearly over a time.  `get_spendable_balance`
works out from what is left how much was taken, and asserts that this fits the schedule, which is
`vestedBy`.

* `vesting_schedule`: the assertions never fail, and withdrawals keep to the schedule.
* `vesting_frozen`: they do fail for a negative balance, and for one whose yield was added to it.
-/

namespace BitShares

/-- What has vested at `t`. -/
def vestedBy (start : Time) (duration : Nat) (original : Int) (t : Time) : Int :=
  if start + duration ≤ t then original
  else if start < t then original * (t - start : Nat) / duration
  else 0

section Schedule

variable (start : Time) (duration : Nat) {original : Int}

theorem vestedBy_nonneg (ho : 0 ≤ original) (t : Time) :
    0 ≤ vestedBy start duration original t := by
  unfold vestedBy
  split_ifs
  · exact ho
  · exact Int.ediv_nonneg (Int.mul_nonneg ho (Int.natCast_nonneg _)) (Int.natCast_nonneg _)
  · exact le_rfl

variable {start duration} in
theorem elapsed_lt {t : Time} (hend : ¬ start + duration ≤ t) (hstart : start < t) :
    t - start < duration :=
  (Nat.sub_lt_iff_lt_add' hstart.le).2 (not_le.1 hend)

theorem vestedBy_le (ho : 0 ≤ original) (t : Time) :
    vestedBy start duration original t ≤ original := by
  unfold vestedBy
  split_ifs with hend hstart
  · exact le_rfl
  · have hlt := elapsed_lt hend hstart
    have hpos : (0 : Int) < duration := by exact_mod_cast hlt.pos
    refine Int.ediv_le_of_le_mul hpos (Int.mul_le_mul_of_nonneg_left ?_ ho)
    exact_mod_cast hlt.le
  · exact ho

theorem vestedBy_mono (ho : 0 ≤ original) {t t' : Time} (h : t ≤ t') :
    vestedBy start duration original t ≤ vestedBy start duration original t' := by
  by_cases hend : start + duration ≤ t'
  · rw [vestedBy.eq_def _ _ _ t', if_pos hend]
    exact vestedBy_le start duration ho t
  · by_cases hstart : start < t
    · have hnot : ¬ start + duration ≤ t := fun hle => hend (hle.trans h)
      rw [vestedBy, if_neg hnot, if_pos hstart, vestedBy, if_neg hend, if_pos (hstart.trans_le h)]
      have hpos : (0 : Int) < duration := by
        exact_mod_cast (elapsed_lt hend (hstart.trans_le h)).pos
      refine Int.ediv_le_ediv hpos (Int.mul_le_mul_of_nonneg_left ?_ ho)
      exact_mod_cast Nat.sub_le_sub_right h start
    · rw [vestedBy]
      split_ifs with hdone
      · exact absurd (hdone.trans h) hend
      · exact vestedBy_nonneg start duration ho t'

end Schedule

namespace BalanceRecord

theorem maxClaimable_eq {start : Time} {duration : Nat} {original : ShareType}
    (ho : 0 ≤ original.toInt) (hrange : start + duration < 2 ^ 32) (t : Time) :
    ∃ c, maxClaimable t start duration original = .ok c ∧
      c.toInt = vestedBy start duration original.toInt t := by
  have hlt := original.toInt_lt
  have hnonneg := vestedBy_nonneg start duration ho t
  have hle := vestedBy_le start duration ho t
  unfold maxClaimable
  unfold vestedBy at hnonneg hle ⊢
  split_ifs at hnonneg hle ⊢ with hend hstart
  · exact ⟨original, rfl, rfl⟩
  · have hshort : t - start < 2 ^ 32 :=
      (elapsed_lt hend hstart).trans ((Nat.le_add_left ..).trans_lt hrange)
    have hproduct : original.toInt * (t - start : Nat) < 2 ^ 128 := by
      have hshort' : ((t - start : Nat) : Int) < 2 ^ 32 := by exact_mod_cast hshort
      nlinarith [Int.natCast_nonneg (t - start)]
    have hexact : original.toInt % 2 ^ 128 * (t - start : Nat) % 2 ^ 128 =
        original.toInt * (t - start : Nat) := by
      rw [Int.emod_eq_of_lt ho (by omega)]
      exact Int.emod_eq_of_lt (Int.mul_nonneg ho (Int.natCast_nonneg _)) hproduct
    have hvalue : (Int64.ofInt (original.toInt * (t - start : Nat) / duration)).toInt =
        original.toInt * (t - start : Nat) / duration :=
      Int64.toInt_ofInt_of_le (by omega) (by omega)
    refine ⟨Int64.ofInt (original.toInt * (t - start : Nat) / duration), ?_, hvalue⟩
    dsimp only
    rw [hexact]
    refine bind_eq_ok.2 ⟨(), require_eq_ok.2 ?_, rfl⟩
    rw [Int64.le_iff_toInt_le, Int64.le_iff_toInt_le, hvalue]
    exact ⟨hnonneg, hle⟩
  · exact ⟨0, rfl, rfl⟩

theorem vestedBalance_eq (balance : ShareType) {original : ShareType} {start : Time} {duration : Nat}
    (ho : 0 ≤ original.toInt) (hrange : start + duration < 2 ^ 32) (t : Time)
    (htaken : 0 ≤ original.toInt - balance.toInt)
    (hvested : original.toInt - balance.toInt ≤ vestedBy start duration original.toInt t) :
    ∃ s, vestedBalance balance t start duration original = .ok s ∧
      s.toInt = vestedBy start duration original.toInt t - (original.toInt - balance.toInt) := by
  obtain ⟨c, hc, hvalue⟩ := maxClaimable_eq ho hrange t
  have hle := vestedBy_le start duration ho t
  have hlt := original.toInt_lt
  have hclaimed : (original - balance).toInt = original.toInt - balance.toInt :=
    Int64.toInt_sub_of_bounds (by omega) (by omega)
  have hspendable : (c - (original - balance)).toInt = c.toInt - (original - balance).toInt :=
    Int64.toInt_sub_of_bounds (by omega) (by omega)
  have hsum : c - (original - balance) + (original - balance) = c := by
    refine Int64.toInt_inj.1 ?_
    rw [Int64.toInt_add_of_bounds (by omega) (by omega), hspendable]
    omega
  refine ⟨c - (original - balance), ?_, by omega⟩
  refine bind_eq_ok.2 ⟨c, hc, bind_eq_ok.2 ⟨(), require_eq_ok.2 ?_, bind_eq_ok.2 ⟨(),
    require_eq_ok.2 ?_, bind_eq_ok.2 ⟨(), require_eq_ok.2 hsum, rfl⟩⟩⟩⟩
  · rw [Int64.le_iff_toInt_le, Int64.le_iff_toInt_le, Int64.toInt_zero]
    omega
  · rw [Int64.le_iff_toInt_le, Int64.le_iff_toInt_le, Int64.toInt_zero]
    omega

theorem vestedBalance_frozen {balance original : ShareType} (h : original - balance < 0)
    (t start : Time) (duration : Nat) (s : ShareType) :
    vestedBalance balance t start duration original ≠ .ok s := by
  intro hs
  simp only [vestedBalance, bind_eq_ok, require_eq_ok] at hs
  obtain ⟨c, -, _, ⟨hnonneg, -⟩, -⟩ := hs
  exact absurd h (Int64.not_lt.2 hnonneg)

end BalanceRecord

section

variable [Crypto]

structure BalanceRecord.Vests (r : BalanceRecord) (start : Time) (duration : Nat)
    (original : ShareType) : Prop where
  condition : ∃ owner, r.condition.data = .vesting owner start duration original
  range : start + duration < 2 ^ 32
  full : r.balance = original
  nonneg : 0 ≤ original

/-- The record `r` that accepted withdrawals from `r₀` have left at time `t`, and what they took
together.  Anything else may happen between them that does not touch the balance. -/
inductive Withdrawn (r₀ : BalanceRecord) : BalanceRecord → Time → Int → Prop
  | created (t : Time) : Withdrawn r₀ r₀ t 0
  | withdraw {r r' : BalanceRecord} {t : Time} {total : Int} {e e' : EvalState}
    {op : WithdrawOperation} (h : Withdrawn r₀ r t total) (ht : t ≤ e.ctx.now)
    (hid : op.balanceId = r₀.id) (hr : e.ledger.balances.lookup r₀.id = some r)
    (hplain : ∀ asset, e.ledger.assets.lookup r.assetId = some asset → asset.isMarketIssued = false)
    (hop : op.evaluate e = .ok e') (hr' : e'.ledger.balances.lookup r₀.id = some r') :
    Withdrawn r₀ r' e.ctx.now (total + op.amount.toInt)

structure BalanceRecord.OnSchedule (r₀ r : BalanceRecord) (start : Time) (duration : Nat)
    (original : ShareType) (t : Time) (total : Int) : Prop where
  condition : r.condition = r₀.condition
  balance : r.balance.toInt = original.toInt - total
  nonneg : 0 ≤ total
  vested : total ≤ vestedBy start duration original.toInt t

variable {r₀ r : BalanceRecord} {start : Time} {duration : Nat} {original : ShareType} {t : Time}
  {total : Int}

omit [Crypto] in
theorem BalanceRecord.OnSchedule.spendable (hr₀ : r₀.Vests start duration original)
    (h : r₀.OnSchedule r start duration original t total) {at' : Time} (ht : t ≤ at') :
    ∃ s, r.getSpendableBalance at' = .ok s ∧
      s.toInt = vestedBy start duration original.toInt at' - total := by
  obtain ⟨owner, hdata⟩ := hr₀.condition
  have ho : 0 ≤ original.toInt := by simpa [Int64.le_iff_toInt_le] using hr₀.nonneg
  have hbalance := h.balance
  have hnonneg := h.nonneg
  have hvested := h.vested.trans (vestedBy_mono start duration ho ht)
  obtain ⟨s, hs, hvalue⟩ := BalanceRecord.vestedBalance_eq r.balance ho hr₀.range at' (by omega)
    (by omega)
  refine ⟨s, ?_, by omega⟩
  rw [BalanceRecord.getSpendableBalance, h.condition, hdata]
  exact hs

/-- **Withdrawals keep to the schedule.** -/
theorem Withdrawn.onSchedule (hr₀ : r₀.Vests start duration original)
    (h : Withdrawn r₀ r t total) : r₀.OnSchedule r start duration original t total := by
  have ho : 0 ≤ original.toInt := by simpa [Int64.le_iff_toInt_le] using hr₀.nonneg
  induction h with
  | created t => exact ⟨rfl, by rw [hr₀.full, Int.sub_zero], le_rfl, vestedBy_nonneg start duration ho t⟩
  | @withdraw r r' t total e e' op _ ht hid hr hplain hop hr' ih =>
    obtain ⟨hpos, r₁, spendable, asset, y, r₂, minFees, deltas, hr₁, hspend, hle, hasset, -, hy,
      hcond, hbal, -, -, heffect⟩ := WithdrawOperation.evaluate_effect hop
    rw [hid, hr, Option.some.injEq] at hr₁
    subst hr₁
    -- without a market issuer there is no yield
    have hzero : y = 0 := by
      by_contra hne
      simpa [hplain asset hasset] using (hy hne).1
    subst hzero
    rw [heffect.ledger, if_pos rfl] at hr'
    have hid₂ : r₂.id = r₀.id := by rw [BalanceRecord.id, BalanceRecord.id, hcond, ih.condition]
    obtain rfl : r₂ = r' := by
      simpa [Ledger.storeBalance, hid₂, Table.lookup_insert_eq] using hr'
    obtain ⟨s, hs, hvalue⟩ := ih.spendable hr₀ ht
    obtain rfl : spendable = s := Except.ok.inj (hspend.symm.trans hs)
    rw [Int64.le_iff_toInt_le] at hle
    have hamount : 0 < op.amount.toInt := by simpa [Int64.lt_iff_toInt_lt] using hpos
    have hbalance := ih.balance
    have hnonneg := ih.nonneg
    have hlt := original.toInt_lt
    have hcap := vestedBy_le start duration ho e.ctx.now
    refine ⟨hcond.trans ih.condition, ?_, by omega, by omega⟩
    rw [hbal, Int64.add_zero, Int64.toInt_sub_of_bounds (by omega) (by omega)]
    omega

end

/-! ## Main results -/

/-- **Vesting schedule.**  After any accepted withdrawals from a vesting balance, at every later
time: the spendable amount is there, with what was taken it is what has vested, it does not fall as
time passes, and after the end it is all that is left. -/
theorem vesting_schedule [Crypto] {r₀ r : BalanceRecord} {start : Time} {duration : Nat}
    {original : ShareType} {t : Time} {total : Int} (hr₀ : r₀.Vests start duration original)
    (h : Withdrawn r₀ r t total) :
    (∀ t', t ≤ t' → total ≤ vestedBy start duration original.toInt t' ∧
      ∃ s, r.getSpendableBalance t' = .ok s ∧
        (start + duration ≤ t' → s = r.balance ∧ s.toInt = original.toInt - total) ∧
        ∀ t'', t' ≤ t'' → ∃ s', r.getSpendableBalance t'' = .ok s' ∧ s ≤ s') := by
  have ho : 0 ≤ original.toInt := by simpa [Int64.le_iff_toInt_le] using hr₀.nonneg
  have hon := h.onSchedule hr₀
  intro t' ht'
  obtain ⟨s, hs, hvalue⟩ := hon.spendable hr₀ ht'
  refine ⟨hon.vested.trans (vestedBy_mono start duration ho ht'), s, hs, fun hend => ?_,
    fun t'' ht'' => ?_⟩
  · have hall : s.toInt = original.toInt - total := by rw [hvalue, vestedBy, if_pos hend]
    exact ⟨Int64.toInt_inj.1 (hall.trans hon.balance.symm), hall⟩
  · obtain ⟨s', hs', hvalue'⟩ := hon.spendable hr₀ (ht'.trans ht'')
    refine ⟨s', hs', ?_⟩
    rw [Int64.le_iff_toInt_le, hvalue, hvalue']
    have hmono := vestedBy_mono start duration ho ht''
    omega

def tenDays : GenesisVestingBalances := ⟨1000, 10, []⟩

/-- A ledger with one asset and one balance, in the middle of the ten days, with the signature of
key 7. -/
def vestingState (asset : AssetRecord) (r : BalanceRecord) : EvalState where
  ctx := ⟨433000, 1, fun _ => none, false⟩
  pending := .over
    { assets := Finmap.singleton asset.id asset, balances := Finmap.singleton r.condition.code r }
  trx := { expiration := 500000, operations := [], signatures := [] }
  signedAddresses := [7]

theorem vesting_schedule_half :
    letI := Crypto.transparent
    ∃ r, Withdrawn (GenesisState.vestingRecord tenDays 7 1000 [] ("", 1000)) r 433000 500 ∧
      500 ≤ vestedBy 1000 864000 1000 433000 ∧
      ∃ s, r.getSpendableBalance 865000 = .ok s ∧ s = r.balance := by
  let := Crypto.transparent
  let r₀ := GenesisState.vestingRecord tenDays 7 1000 [] ("", 1000)
  have hvests : r₀.Vests 1000 864000 1000 :=
    ⟨⟨7, by decide⟩, by decide, rfl, by decide⟩
  obtain ⟨e', he', hafter⟩ := exists_ok_of_any
    (x := WithdrawOperation.evaluate ⟨r₀.condition.code, 500⟩
      (vestingState (GenesisState.baseAsset 1 1000) r₀))
    (p := fun e' => (e'.ledger.balances.lookup r₀.condition.code).isSome) (by decide +kernel)
  obtain ⟨r, hr⟩ := Option.isSome_iff_exists.1 hafter
  have hrun : Withdrawn r₀ r 433000 (0 + (500 : ShareType).toInt) :=
    .withdraw (.created 0) (Nat.zero_le _) rfl (by decide +kernel) (by decide +kernel) he' hr
  obtain ⟨hvested, -⟩ := vesting_schedule hvests hrun 433000 le_rfl
  obtain ⟨-, s, hs, hend, -⟩ := vesting_schedule hvests hrun 865000 (by decide)
  exact ⟨r, hrun, hvested, s, hs, (hend (by decide)).1⟩

def feeAsset : AssetRecord where
  id := 5
  symbol := "USD"
  issuerType := marketIssuerId
  name := ""
  description := ""
  publicData := ""
  collectedFees := 500
  currentSupply := 1500
  registrationDate := 1
  lastUpdate := 1

/-- **Frozen balances.**  Genesis takes a negative amount, which throws while it vests.  And a
withdrawal adds the yield of a market issued asset also to a vesting balance: one share taken, with
a yield of five, leaves more than the original, and no withdrawal is accepted any more. -/
theorem vesting_frozen :
    letI := Crypto.transparent
    (∃ s, GenesisState.addVestingBalance ⟨fun _ => some 7, fun _ => .ok 7⟩ tenDays ({}, 0)
        ⟨"", -5⟩ = .ok s ∧
      ∃ r, s.1.balances.lookup (GenesisState.vestingCondition tenDays 7 (-5)).code = some r ∧
        r.condition.data = .vesting 7 1000 864000 (-5) ∧ r.balance = -5 ∧
        (r.getSpendableBalance 433000).toOption = none) ∧
    (∃ r e' r', r.condition.data = .vesting 7 1000 864000 1000 ∧ r.balance = 1000 ∧
      (vestingState feeAsset r).ledger.balances.lookup r.id = some r ∧
      WithdrawOperation.evaluate ⟨r.id, 1⟩ (vestingState feeAsset r) = .ok e' ∧
      e'.ledger.balances.lookup r.id = some r' ∧
      ∀ t s, r'.getSpendableBalance t ≠ .ok s) := by
  let := Crypto.transparent
  constructor
  · obtain ⟨s, hs, hafter⟩ := exists_ok_of_any
      (x := GenesisState.addVestingBalance ⟨fun _ => some 7, fun _ => .ok 7⟩ tenDays ({}, 0)
        ⟨"", -5⟩)
      (p := fun s => (s.1.balances.lookup
        (GenesisState.vestingCondition tenDays 7 (-5)).code).any fun r =>
          r.condition.data = .vesting 7 1000 864000 (-5) ∧ r.balance = -5 ∧
            (r.getSpendableBalance 433000).toOption = none) (by decide +kernel)
    obtain ⟨r, hr, hrest⟩ := exists_some_of_any hafter
    exact ⟨s, hs, r, hr, hrest⟩
  · let r : BalanceRecord :=
      { condition := ⟨5, 0, .vesting 7 1000 864000 1000⟩, balance := 1000 }
    obtain ⟨e', he', hafter⟩ := exists_ok_of_any
      (x := WithdrawOperation.evaluate ⟨r.id, 1⟩ (vestingState feeAsset r))
      (p := fun e' => (e'.ledger.balances.lookup r.id).any fun r' =>
        r'.condition = r.condition ∧ r'.balance = 1004) (by decide +kernel)
    obtain ⟨r', hr', hcondition, hbalance⟩ := exists_some_of_any hafter
    refine ⟨r, e', r', rfl, rfl, by decide +kernel, he', hr', fun t s => ?_⟩
    rw [BalanceRecord.getSpendableBalance, hcondition, hbalance]
    exact BalanceRecord.vestedBalance_frozen (by decide) t 1000 864000 s

end BitShares
