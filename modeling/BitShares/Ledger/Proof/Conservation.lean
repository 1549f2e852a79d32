import BitShares.Ledger.Proof.Fees
import BitShares.Ledger.Proof.Issuance

/-!
# Conservation of shares

`Ledger.holdings L a` is everything that holds shares of `a`: balances, collected fees, the fees
of reward records, unclaimed packet shares, and for the base asset delegate pay and collateral.
`Ledger.excess` compares it with the supply in the code's own arithmetic.  An operation moves
shares between the ledger and the fees of its transaction and nowhere else
(`evaluateOperation_excess`), with one exception: a packet claim in the name of account `-1`
leaves its share marked unclaimed.  `evaluateLedger_excess` is the law for transactions.
-/

namespace BitShares

/-! ## Who holds shares -/

def BalanceRecord.sharesOf (r : BalanceRecord) (a : AssetId) : ℤ :=
  if r.assetId = a then r.balance.toInt else 0

/-- The fees an asset collected, and its collateral in base shares. -/
def AssetRecord.sharesOf (r : AssetRecord) (a : AssetId) : ℤ :=
  (if r.id = a then r.collectedFees.toInt else 0) + if a = 0 then r.currentCollateral.toInt else 0

def AccountRecord.sharesOf (r : AccountRecord) (a : AssetId) : ℤ :=
  if a = 0 then r.payBalance.toInt else 0

/-- What `left_packet_amount` adds up. -/
def PacketRecord.unclaimed (r : PacketRecord) : ℤ :=
  (r.claimStatuses.map fun s => if s.accountId = -1 then s.amount.amount.toInt else 0).sum

def PacketRecord.sharesOf (r : PacketRecord) (a : AssetId) : ℤ :=
  if r.amount.assetId = a then r.unclaimed else 0

def OperationRewardRecord.sharesOf (r : OperationRewardRecord) (a : AssetId) : ℤ :=
  (r.feeOf a).toInt

/-- All shares of `a` that the ledger accounts for. -/
def Ledger.holdings (L : Ledger) (a : AssetId) : ℤ :=
  L.balances.total (fun _ r => r.sharesOf a) + L.assets.total (fun _ r => r.sharesOf a) +
    L.accounts.total (fun _ r => r.sharesOf a) + L.packets.total (fun _ r => r.sharesOf a) +
    L.operationRewards.total (fun _ r => r.sharesOf a)

/-- By how much the holdings exceed the supply, as `share_type`s. -/
def Ledger.excess (L : Ledger) (a : AssetId) : ShareType :=
  Int64.ofInt (L.holdings a) - L.currentSupply a

/-! ## Writing one record -/

theorem ofInt_ite (c : Prop) [Decidable c] (x : Int64) :
    Int64.ofInt (if c then x.toInt else 0) = if c then x else 0 := by
  split <;> simp

theorem AssetRecord.ofInt_sharesOf (r : AssetRecord) (a : AssetId) :
    Int64.ofInt (r.sharesOf a) =
      (if r.id = a then r.collectedFees else 0) + if a = 0 then r.currentCollateral else 0 := by
  rw [sharesOf, Int64.ofInt_add, ofInt_ite, ofInt_ite]

namespace Ledger

variable {L : Ledger}

theorem excess_of_frame {L' : Ledger} (h : L'.balances = L.balances) (h₁ : L'.assets = L.assets)
    (h₂ : L'.accounts = L.accounts) (h₃ : L'.packets = L.packets)
    (h₄ : L'.operationRewards = L.operationRewards) (a : AssetId) : L'.excess a = L.excess a := by
  simp only [excess, holdings, currentSupply, h, h₁, h₂, h₃, h₄]

theorem holdings_storeBalance [Crypto] (L : Ledger) (r : BalanceRecord) (a : AssetId) :
    (L.storeBalance r).holdings a = L.holdings a + (r.sharesOf a -
      Table.weight (fun _ (r : BalanceRecord) => r.sharesOf a) r.id (L.balances.lookup r.id)) := by
  simp only [holdings, storeBalance, Table.total_insert]
  ring

theorem holdings_storeAsset (L : Ledger) (r : AssetRecord) (a : AssetId) :
    (L.storeAsset r).holdings a = L.holdings a + (r.sharesOf a -
      Table.weight (fun _ (r : AssetRecord) => r.sharesOf a) r.id (L.assets.lookup r.id)) := by
  simp only [holdings, storeAsset, Table.total_insert]
  ring

theorem holdings_storeAccount (L : Ledger) (r : AccountRecord) (a : AssetId) :
    (L.storeAccount r).holdings a = L.holdings a + (r.sharesOf a -
      Table.weight (fun _ (r : AccountRecord) => r.sharesOf a) r.id (L.accounts.lookup r.id)) := by
  simp only [holdings, storeAccount, Table.total_insert]
  ring

theorem holdings_storePacket (L : Ledger) (r : PacketRecord) (a : AssetId) :
    (L.storePacket r).holdings a = L.holdings a + (r.sharesOf a -
      Table.weight (fun _ (r : PacketRecord) => r.sharesOf a) r.id (L.packets.lookup r.id)) := by
  simp only [holdings, storePacket, Table.total_insert]
  ring

theorem holdings_storeReward (L : Ledger) (r : OperationRewardRecord) (a : AssetId) :
    (L.storeReward r).holdings a = L.holdings a + (r.sharesOf a -
      Table.weight (fun _ (r : OperationRewardRecord) => r.sharesOf a) r.id
        (L.operationRewards.lookup r.id)) := by
  simp only [holdings, storeReward, Table.total_insert]
  ring

theorem excess_of_holdings {L' : Ledger} {a : AssetId} {x y : ℤ}
    (h : L'.holdings a = L.holdings a + (y - x))
    (hsupply : L'.currentSupply a = L.currentSupply a) :
    L'.excess a = L.excess a + (Int64.ofInt y - Int64.ofInt x) := by
  rw [excess, excess, hsupply, h, Int64.ofInt_add, Int64.ofInt_sub]
  grind

theorem excess_storeBalance [Crypto] {r r' : BalanceRecord} {d : ShareType}
    (hr : L.balances.lookup r'.id = some r ∨ L.balances.lookup r'.id = none ∧ r.balance = 0)
    (hasset : r'.assetId = r.assetId) (hb : r'.balance = r.balance + d) (a : AssetId) :
    (L.storeBalance r').excess a = L.excess a + if r.assetId = a then d else 0 := by
  have hold : Int64.ofInt (Table.weight (fun _ (r : BalanceRecord) => r.sharesOf a) r'.id
      (L.balances.lookup r'.id)) = if r.assetId = a then r.balance else 0 := by
    rcases hr with hr | ⟨hr, h0⟩
    · rw [hr]; exact ofInt_ite _ _
    · simp [hr, h0]
  have hnew : Int64.ofInt (r'.sharesOf a) = if r.assetId = a then r.balance + d else 0 := by
    rw [BalanceRecord.sharesOf, ofInt_ite, hasset, hb]
  rw [excess_of_holdings (holdings_storeBalance L r' a) rfl, hold, hnew]
  split <;> grind

theorem excess_storeAsset_eq (L : Ledger) (r : AssetRecord) (a : AssetId) :
    (L.storeAsset r).excess a = L.excess a +
      (Int64.ofInt (r.sharesOf a) - Int64.ofInt (Table.weight (fun _ (r : AssetRecord) =>
        r.sharesOf a) r.id (L.assets.lookup r.id))) -
      ((L.storeAsset r).currentSupply a - L.currentSupply a) := by
  rw [excess, excess, holdings_storeAsset, Int64.ofInt_add, Int64.ofInt_sub]
  grind

theorem excess_storeAsset {b : AssetId} {r r' : AssetRecord} {f s c : ShareType}
    (hr : L.assets.lookup b = some r) (hb : r.id = b) (hid : r'.id = r.id)
    (hf : r'.collectedFees = r.collectedFees + f) (hs : r'.currentSupply = r.currentSupply + s)
    (hc : r'.currentCollateral = r.currentCollateral + c) (a : AssetId) :
    (L.storeAsset r').excess a =
      L.excess a + (if b = a then f - s else 0) + if a = 0 then c else 0 := by
  rw [excess_storeAsset_eq, currentSupply_update hr hb hid hs, AssetRecord.ofInt_sharesOf, hid, hb,
    hr, Table.weight_some, AssetRecord.ofInt_sharesOf, hb, hf, hc]
  by_cases ha : b = a
  · simp only [ha, if_true]
    split <;> grind
  · simp only [ha, if_false]
    split <;> grind

theorem excess_newAsset {r : AssetRecord} (hr : L.assets.lookup r.id = none) (a : AssetId) :
    (L.storeAsset r).excess a = L.excess a +
      (if r.id = a then r.collectedFees - r.currentSupply else 0) +
      if a = 0 then r.currentCollateral else 0 := by
  rw [excess_storeAsset_eq, hr, Table.weight_none, AssetRecord.ofInt_sharesOf,
    currentSupply_storeAsset]
  have hnone : L.currentSupply r.id = 0 := by simp [currentSupply, hr]
  by_cases ha : a = r.id
  · rw [ha, hnone]
    split <;> grind
  · simp only [ha, Ne.symm ha, if_false]
    split <;> simp

theorem excess_storeAccount (r' : AccountRecord) (pay : ShareType)
    (hpay : ((L.accounts.lookup r'.id).map (·.payBalance)).getD 0 = pay) (a : AssetId) :
    (L.storeAccount r').excess a = L.excess a + if a = 0 then r'.payBalance - pay else 0 := by
  have hold : Int64.ofInt (Table.weight (fun _ (r : AccountRecord) => r.sharesOf a) r'.id
      (L.accounts.lookup r'.id)) = if a = 0 then pay else 0 := by
    rw [← hpay]
    cases L.accounts.lookup r'.id with
    | none => simp
    | some r => exact ofInt_ite _ _
  have hnew : Int64.ofInt (r'.sharesOf a) = if a = 0 then r'.payBalance else 0 := ofInt_ite _ _
  rw [excess_of_holdings (holdings_storeAccount L r' a) rfl, hold, hnew]
  split <;> simp

theorem excess_storePacket (r : PacketRecord) (a : AssetId) :
    (L.storePacket r).excess a = L.excess a + (Int64.ofInt (r.sharesOf a) -
      Int64.ofInt (Table.weight (fun _ (r : PacketRecord) => r.sharesOf a) r.id
        (L.packets.lookup r.id))) :=
  excess_of_holdings (holdings_storePacket L r a) rfl

theorem excess_storeReward {r r' : OperationRewardRecord}
    (hr : L.operationRewards.lookup r'.id = some r) (a : AssetId) :
    (L.storeReward r').excess a = L.excess a + (r'.feeOf a - r.feeOf a) := by
  have hnew : ∀ r : OperationRewardRecord, Int64.ofInt (r.sharesOf a) = r.feeOf a :=
    fun r => Int64.ofInt_toInt _
  rw [excess_of_holdings (holdings_storeReward L r' a) rfl, hr, Table.weight_some, hnew, hnew]

end Ledger

/-! ## Packets -/

theorem PacketRecord.leftAmount_eq_ok {l : List RedPacketStatus} {acc left : Asset}
    (h : leftAmount l acc = .ok left) :
    left.amount = acc.amount + Int64.ofInt
      (l.map fun s => if s.accountId = -1 then s.amount.amount.toInt else 0).sum := by
  induction l generalizing acc with
  | nil => cases h; simp
  | cons s rest ih =>
    rw [leftAmount] at h
    rw [List.map_cons, List.sum_cons, Int64.ofInt_add]
    split at h
    · rename_i hs
      rw [bind_eq_ok] at h
      obtain ⟨sum, hsum, hrest⟩ := h
      simp only [Asset.add, bind_eq_ok, require_eq_ok, pure_eq_ok, exists_and_left,
        exists_const] at hsum
      obtain ⟨-, -, rfl⟩ := hsum
      rw [ih hrest, if_pos hs, Int64.ofInt_toInt, Int64.add_assoc]
    · rename_i hs
      rw [ih h, if_neg hs]
      simp

theorem PacketRecord.leftPacketAmount_eq_ok {r : PacketRecord} {left : Asset}
    (h : r.leftPacketAmount = .ok left) : left.amount = Int64.ofInt r.unclaimed :=
  (leftAmount_eq_ok h).trans (Int64.zero_add _)

theorem PacketRecord.unclaimed_of_next {r : PacketRecord} {s : RedPacketStatus}
    (h : r.claimStatuses[r.nextAvailableClaimIndex]? = some s) : s.accountId = -1 := by
  obtain ⟨hlt, rfl⟩ := List.getElem?_eq_some_iff.1 h
  exact of_decide_eq_true (List.findIdx_getElem (w := hlt))

/-- Giving the next share to an account takes it out of the unclaimed ones, unless the account is
the marker itself. -/
theorem PacketRecord.unclaimed_set {r : PacketRecord} {s : RedPacketStatus} (s' : RedPacketStatus)
    (h : r.claimStatuses[r.nextAvailableClaimIndex]? = some s) (hs : s'.accountId ≠ -1) :
    PacketRecord.unclaimed
        { r with claimStatuses := r.claimStatuses.set r.nextAvailableClaimIndex s' } =
      r.unclaimed - s.amount.amount.toInt := by
  have hmark := unclaimed_of_next h
  obtain ⟨hlt, hget⟩ := List.getElem?_eq_some_iff.1 h
  simp only [unclaimed, List.map_set, if_neg hs]
  rw [List.sum_set', dif_pos (by simpa using hlt), List.getElem_map, hget, if_pos hmark]
  ring

section

variable [Crypto]

/-! ## Paying an owner -/

/-- Addresses are collision free, so the record at the address of an owner's plain balance is
that balance. -/
theorem Ledger.ownerBalance_spec {L : Ledger} (hL : L.WellFormed)
    (haddr : Function.Injective Crypto.getAddress) (owner : Address) (b : AssetId) :
    (L.ownerBalance owner b).condition = .withSignature owner b 0 ∧
      (L.balances.lookup (Crypto.getAddress (.withSignature owner b 0)) =
          some (L.ownerBalance owner b) ∨
        L.balances.lookup (Crypto.getAddress (.withSignature owner b 0)) = none ∧
          (L.ownerBalance owner b).balance = 0) := by
  unfold ownerBalance
  cases h : L.balances.lookup (Crypto.getAddress (.withSignature owner b 0)) with
  | none => exact ⟨rfl, .inr ⟨rfl, rfl⟩⟩
  | some r => exact ⟨haddr (hL.balances _ _ h), .inl rfl⟩

theorem Ledger.excess_pay {L : Ledger} (hL : L.WellFormed)
    (haddr : Function.Injective Crypto.getAddress) (owner : Address) (b : AssetId)
    {r : BalanceRecord} {d : ShareType} (hc : r.condition = (L.ownerBalance owner b).condition)
    (hb : r.balance = (L.ownerBalance owner b).balance + d) (a : AssetId) :
    (L.storeBalance r).excess a = L.excess a + if b = a then d else 0 := by
  obtain ⟨hcond, hlookup⟩ := ownerBalance_spec hL haddr owner b
  have hasset : (L.ownerBalance owner b).assetId = b := by rw [BalanceRecord.assetId, hcond]; rfl
  have hid : r.id = Crypto.getAddress (.withSignature owner b 0) := by
    rw [BalanceRecord.id, hc, hcond]
  rw [← hid] at hlookup
  rw [excess_storeBalance hlookup (congrArg WithdrawCondition.assetId hc) hb, hasset]

theorem Ledger.excess_updateAccount {L : Ledger} (hL : L.WellFormed) {id : AccountId}
    {r r' : AccountRecord} (hr : L.accounts.lookup id = some r) (hid : r'.id = r.id)
    (hpay : r'.payBalance = r.payBalance) (a : AssetId) :
    (L.storeAccount r').excess a = L.excess a := by
  rw [excess_storeAccount _ r.payBalance (by rw [hid, hL.accounts _ _ hr, hr]; rfl), hpay]
  simp

/-! ## Operations -/

theorem DepositOperation.target_lookup (op : DepositOperation) {e : EvalState}
    (hL : e.ledger.WellFormed) :
    e.ledger.balances.lookup (op.target e).id = some (op.target e) ∨
      e.ledger.balances.lookup (op.target e).id = none ∧ (op.target e).balance = 0 := by
  unfold target
  rw [PendingLedger.getBalanceRecord_eq]
  cases h : e.pending.view.balances.lookup (Crypto.getAddress op.condition) with
  | none => exact .inr ⟨h, rfl⟩
  | some r => exact .inl ((hL.balances _ _ h) ▸ h)

def Operation.claimsForMarker (e : EvalState) : Operation → Bool
  | .claimPacket op => op.toAccountId = -1 && (e.ledger.packets.lookup op.randomId).any fun r =>
      !r.isUnclaimedEmpty
  | _ => false

variable {e e' : EvalState}

/-- What the ledger gains over its supplies the transaction has paid in. -/
def EvalState.Conserves (e e' : EvalState) (a : AssetId) : Prop :=
  e'.ledger.excess a + e'.feesPaid.getD a 0 = e.ledger.excess a + e.feesPaid.getD a 0

theorem Ledger.excess_sameShares {L : Ledger} (hL : L.WellFormed) {id : AssetId}
    {r r' : AssetRecord} (hr : L.assets.lookup id = some r) (hs : r.SameShares r') (a : AssetId) :
    (L.storeAsset r').excess a = L.excess a := by
  rw [excess_storeAsset (f := 0) (s := 0) (c := 0) hr (hL.assets _ _ hr) hs.id
    (by rw [hs.collectedFees, Int64.add_zero]) (by rw [hs.currentSupply, Int64.add_zero])
    (by rw [hs.currentCollateral, Int64.add_zero])]
  simp

theorem Ledger.excess_sameStanding {L : Ledger} (hL : L.WellFormed) {id : AccountId}
    {r r' : AccountRecord} (hr : L.accounts.lookup id = some r) (hs : r.SameStanding r')
    (a : AssetId) : (L.storeAccount r').excess a = L.excess a :=
  excess_updateAccount hL hr hs.id hs.payBalance a

theorem WithdrawOperation.conserves {op : WithdrawOperation} (h : op.evaluate e = .ok e')
    (hL : e.ledger.WellFormed) (a : AssetId) : e.Conserves e' a := by
  obtain ⟨-, r, _, asset, y, r', _, _, hr, -, -, hasset, -, -, hcond, hbal, -, -, heff⟩ :=
    op.evaluate_effect h
  have hrid := hL.balances _ _ hr
  have hid : r'.id = op.balanceId := by rw [← hrid, BalanceRecord.id, hcond]; rfl
  have hra : r'.assetId = r.assetId := congrArg WithdrawCondition.assetId hcond
  rw [EvalState.Conserves, heff.ledger, heff.feesPaid, getD_addTo]
  split
  · rename_i hy
    subst hy
    rw [Ledger.excess_storeBalance (d := -op.amount) (.inl (by rw [hid]; exact hr)) hra
      (by rw [hbal]; grind)]
    simp only [eq_comm]
    split <;> grind
  · rw [Ledger.excess_storeBalance (d := y - op.amount) (.inl (by rw [hid]; exact hr)) hra
      (by rw [hbal]; grind),
      Ledger.excess_storeAsset (f := -y) (s := 0) (c := 0) hasset (hL.assets _ _ hasset) (by rfl)
        (by exact Int64.sub_eq_add_neg _ _) (by simp) (by simp)]
    simp only [eq_comm]
    split <;> split <;> grind

theorem DepositOperation.conserves {op : DepositOperation} (h : op.evaluate e = .ok e')
    (hL : e.ledger.WellFormed) (a : AssetId) : e.Conserves e' a := by
  obtain ⟨-, -, date, asset, _, -, -, heff⟩ := op.evaluate_effect h
  rw [EvalState.Conserves, heff.ledger, heff.feesPaid, getD_addTo,
    Ledger.excess_storeBalance (r := op.target e) (d := op.amount) (by exact op.target_lookup hL)
      (by rfl) (by rfl)]
  simp only [eq_comm]
  split <;> grind

theorem RegisterAccountOperation.conserves {op : RegisterAccountOperation}
    (h : op.evaluate e = .ok e') (hL : e.ledger.WellFormed) (a : AssetId) : e.Conserves e' a := by
  obtain ⟨r, _, _, hlast, -, hpay, -, heff⟩ := op.evaluate_effect h
  have hnew := hL.newAccount hlast
  rw [EvalState.Conserves, heff.ledger, heff.feesPaid, Ledger.excess_storeAccount _ 0 (by
    change ((e.ledger.accounts.lookup r.id).map _).getD 0 = 0
    rw [hnew]; rfl), hpay]
  simp only [Int64.sub_self, ite_self, Int64.add_zero]
  exact congrArg (· + _) (Ledger.excess_of_frame rfl rfl rfl rfl rfl a)

theorem WithdrawPayOperation.conserves {op : WithdrawPayOperation} (h : op.evaluate e = .ok e')
    (hL : e.ledger.WellFormed) (a : AssetId) : e.Conserves e' a := by
  obtain ⟨-, r, d, hr, hd, -, heff⟩ := op.evaluate_effect h
  have hid := hL.accounts _ _ hr
  have hpay : r.payBalance = d.payBalance := by simp [AccountRecord.payBalance, hd]
  rw [EvalState.Conserves, heff.ledger, heff.feesPaid, getD_addTo,
    Ledger.excess_storeAccount _ d.payBalance (by
      change ((e.ledger.accounts.lookup r.id).map _).getD 0 = _
      rw [hid, hr]; exact hpay)]
  simp only [AccountRecord.payBalance, Option.map_some, Option.getD_some]
  split <;> grind

theorem CreateAssetOperation.conserves {op : CreateAssetOperation} (h : op.evaluate e = .ok e')
    (a : AssetId) : e.Conserves e' a := by
  obtain ⟨id, authority, L, hgame, -, hnone, -, -, heff⟩ := op.evaluate_effect h
  have hframe : (L.setProperty .lastAssetId (.id id)).excess a = e.ledger.excess a := by
    rcases hgame with rfl | ⟨game, -, rfl⟩ <;> exact Ledger.excess_of_frame rfl rfl rfl rfl rfl a
  have hnone' : (L.setProperty .lastAssetId (.id id)).assets.lookup id = none := by
    rcases hgame with rfl | ⟨game, -, rfl⟩ <;> exact hnone
  rw [EvalState.Conserves, heff.ledger, heff.feesPaid, getD_addTo, getD_addTo,
    Ledger.excess_newAsset (by exact hnone'), hframe]
  simp only [CreateAssetOperation.record]
  by_cases ha : id = a
  · subst ha
    split <;> grind
  · simp only [ha, Ne.symm ha, if_false]
    split <;> grind

theorem IssueAssetOperation.conserves {op : IssueAssetOperation} (h : op.evaluate e = .ok e')
    (hL : e.ledger.WellFormed) (a : AssetId) : e.Conserves e' a := by
  obtain ⟨-, r, r', hr, -, -, hid, -, -, hcoll, hissue, heff⟩ := op.evaluate_effect h
  have hmoved : ∃ f s, r'.collectedFees = r.collectedFees + f ∧
      r'.currentSupply = r.currentSupply + s ∧ f - s = -op.amount.amount := by
    split at hissue
    · exact ⟨0, op.amount.amount, by rw [hissue.2.2, Int64.add_zero], hissue.2.1, by grind⟩
    · exact ⟨-op.amount.amount, 0, by rw [hissue.2.2]; grind,
        by rw [hissue.2.1, Int64.add_zero], by grind⟩
  obtain ⟨f, s, hf, hs, hfs⟩ := hmoved
  rw [EvalState.Conserves, heff.ledger, heff.feesPaid, getD_addTo,
    Ledger.excess_storeAsset (c := 0) hr (hL.assets _ _ hr) hid hf hs
      (by rw [hcoll, Int64.add_zero]), hfs]
  simp only [eq_comm]
  split <;> grind

theorem BurnOperation.conserves {op : BurnOperation} (h : op.evaluate e = .ok e')
    (hL : e.ledger.WellFormed) (a : AssetId) : e.Conserves e' a := by
  obtain ⟨-, asset, hasset, heff⟩ := op.evaluate_effect h
  rw [EvalState.Conserves, heff.ledger, heff.feesPaid, getD_addTo,
    Ledger.excess_storeAsset (f := 0) (s := -op.amount.amount) (c := 0) hasset
      (hL.assets _ _ hasset) (by rfl) (by simp) (by exact Int64.sub_eq_add_neg _ _) (by simp)]
  simp only [eq_comm]
  split <;> grind

theorem AdOperation.conserves {op : AdOperation} (h : op.evaluate e = .ok e')
    (hL : e.ledger.WellFormed) (haddr : Function.Injective Crypto.getAddress) (a : AssetId) :
    e.Conserves e' a := by
  obtain ⟨fee, owner, -, -, -, -, heff⟩ := op.evaluate_effect h
  rw [EvalState.Conserves, heff.ledger, heff.feesPaid, getD_addTo,
    Ledger.excess_pay hL haddr owner.activeAddress 0 (by rfl) (by rfl)]
  simp only [eq_comm]
  split <;> grind

theorem NoteOperation.conserves {op : NoteOperation} (h : op.evaluate e = .ok e')
    (hL : e.ledger.WellFormed) (a : AssetId) : e.Conserves e' a := by
  obtain ⟨reward, -, hreward, heff⟩ := op.evaluate_effect h
  have hid : reward.id = noteOpType := hL.operationRewards _ _ hreward
  rw [EvalState.Conserves, heff.ledger, heff.feesPaid, getD_addTo,
    Ledger.excess_storeReward (r := reward) (by exact hid ▸ hreward)]
  simp only [OperationRewardRecord.feeOf, getD_addTo]
  split <;> grind

theorem RedPacketOperation.conserves {op : RedPacketOperation} (h : op.evaluate e = .ok e')
    (a : AssetId) : e.Conserves e' a := by
  obtain ⟨-, -, -, -, -, hnew, hbase, hleft, heff⟩ := op.evaluate_effect h
  have hused : op.used = Int64.ofInt op.packet.unclaimed :=
    PacketRecord.leftPacketAmount_eq_ok hleft
  have hshares : Int64.ofInt (op.packet.sharesOf a) = if a = 0 then op.used else 0 := by
    rw [PacketRecord.sharesOf, show op.packet.amount.assetId = 0 from hbase, hused]
    simp only [eq_comm]
    split <;> rfl
  rw [EvalState.Conserves, heff.ledger, heff.feesPaid, getD_addTo,
    Ledger.excess_storePacket, hshares, show op.packet.id = op.randomId from rfl, hnew,
    Table.weight_none]
  split <;> grind

theorem ClaimPacketOperation.conserves {op : ClaimPacketOperation} (h : op.evaluate e = .ok e')
    (hL : e.ledger.WellFormed) (haddr : Function.Injective Crypto.getAddress)
    (hop : (Operation.claimPacket op).claimsForMarker e = false) (a : AssetId) :
    e.Conserves e' a := by
  obtain ⟨account, packet, -, hpacket, ⟨-, rfl⟩ | ⟨status, hstatus, -, heff⟩⟩ :=
    op.evaluate_effect h
  · rfl
  have hto : op.toAccountId ≠ -1 := by
    intro hto
    have hleft : packet.isUnclaimedEmpty = false := by
      obtain ⟨hlt, -⟩ := List.getElem?_eq_some_iff.1 hstatus
      simpa [PacketRecord.isUnclaimedEmpty] using hlt
    simp [Operation.claimsForMarker, hto, hpacket, hleft] at hop
  have hold : e.ledger.packets.lookup packet.id = some packet :=
    (hL.packets _ _ hpacket) ▸ hpacket
  have hasset : status.amount.assetId = packet.amount.assetId :=
    hL.packetAsset _ _ hpacket status (List.mem_of_getElem? hstatus)
  rw [EvalState.Conserves, heff.ledger, heff.feesPaid, getD_addTo, getD_addTo,
    Ledger.excess_storePacket,
    Ledger.excess_pay hL haddr account.activeAddress status.amount.assetId
      (by rfl) (by rfl)]
  change _ + (_ - Int64.ofInt (Table.weight _ packet.id (e.ledger.packets.lookup packet.id))) + _
    = _
  rw [hold, Table.weight_some, PacketRecord.sharesOf, PacketRecord.sharesOf,
    PacketRecord.unclaimed_set _ hstatus (by exact hto), hasset]
  simp only [eq_comm (a := a)]
  by_cases ha : packet.amount.assetId = a
  · simp only [ha, if_true, Int64.ofInt_sub, Int64.ofInt_toInt]
    grind
  · simp [ha]

theorem UpdateBalanceVoteOperation.conserves {op : UpdateBalanceVoteOperation}
    (h : op.evaluate e = .ok e') (hL : e.ledger.WellFormed)
    (haddr : Function.Injective Crypto.getAddress) (a : AssetId) :
    e.Conserves e' a := by
  obtain ⟨r, owner, _, target, r', _, _, _, hr, hbase, -, -, -, htarget, hcond, hbal, -, -, heff⟩ :=
    op.evaluate_effect h
  have hrid : r.id = op.balanceId := hL.balances _ _ hr
  have hwf := hL.storeBalance (r.emptied e.ctx.now)
  have hfound : (e.ledger.storeBalance (r.emptied e.ctx.now)).balances.lookup r'.id = some target ∨
      (e.ledger.storeBalance (r.emptied e.ctx.now)).balances.lookup r'.id = none ∧
        target.balance = 0 := by
    rw [htarget]
    cases (e.ledger.storeBalance (r.emptied e.ctx.now)).balances.lookup r'.id with
    | none => exact .inr ⟨rfl, Int64.sub_self _⟩
    | some t => exact .inl rfl
  have htasset : target.assetId = 0 := by
    rcases hfound with hfound | ⟨hnone, -⟩
    · have := haddr (hwf.balances _ _ hfound)
      rw [BalanceRecord.assetId, this, hcond]
      rfl
    · rw [htarget, hnone]
      exact hbase
  have hasset : r'.assetId = target.assetId := by
    rw [htasset, BalanceRecord.assetId, hcond]
    rfl
  rw [EvalState.Conserves, heff.ledger, heff.feesPaid, getD_addTo,
    Ledger.excess_storeBalance hfound hasset hbal,
    Ledger.excess_storeBalance (r := r) (d := -r.balance) (.inl (by exact hrid ▸ hr)) (by rfl)
      (by exact Int64.sub_eq_add_neg _ _), hbase, htasset]
  simp only [eq_comm]
  split <;> grind

theorem BuyChipsOperation.conserves {op : BuyChipsOperation} (h : op.evaluate e = .ok e')
    (hL : e.ledger.WellFormed) (haddr : Function.Injective Crypto.getAddress) (a : AssetId) :
    e.Conserves e' a := by
  obtain ⟨-, r, b, cost, hr, -, hcond, hbal, heff⟩ := op.evaluate_effect h
  rw [EvalState.Conserves, heff.ledger, heff.feesPaid, getD_addTo,
    Ledger.excess_storeAsset (L := e.ledger.storeBalance b) (f := 0) (s := op.amount.amount)
      (c := cost) hr (hL.assets _ _ hr) (by rfl) (by simp) (by rfl) (by rfl),
    Ledger.excess_pay hL haddr _ _ hcond hbal]
  split <;> split <;> grind

/-- **Conservation, one operation.**  What the ledger gains over its supplies the transaction has
paid in, unless the operation claims a packet share for the marker. -/
theorem evaluateOperation_excess {op : Operation}
    (h : e.evaluateOperation op = .ok e') (hL : e.ledger.WellFormed)
    (haddr : Function.Injective Crypto.getAddress) (hop : op.claimsForMarker e = false)
    (a : AssetId) : e.Conserves e' a := by
  cases op with
  | withdraw op => exact WithdrawOperation.conserves h hL a
  | deposit op => exact DepositOperation.conserves h hL a
  | registerAccount op => exact RegisterAccountOperation.conserves h hL a
  | updateAccount op =>
    obtain ⟨r, r', _, hr, hs, -, heff⟩ := op.evaluate_effect h
    rw [EvalState.Conserves, heff.ledger, heff.feesPaid, Ledger.excess_sameStanding hL hr hs]
  | withdrawPay op => exact WithdrawPayOperation.conserves h hL a
  | createAsset op => exact CreateAssetOperation.conserves h a
  | issueAsset op => exact IssueAssetOperation.conserves h hL a
  | assetUpdateProperties op =>
    obtain ⟨r, r', hr, hs, -, heff⟩ := op.evaluate_effect h
    rw [EvalState.Conserves, heff.ledger, heff.feesPaid, Ledger.excess_sameShares hL hr hs]
  | assetUpdatePermissions op =>
    obtain ⟨r, r', hr, hs, -, heff⟩ := op.evaluate_effect h
    rw [EvalState.Conserves, heff.ledger, heff.feesPaid, Ledger.excess_sameShares hL hr hs]
  | assetUpdateWhitelist op =>
    obtain ⟨r, r', hr, hs, heff⟩ := op.evaluate_effect h
    rw [EvalState.Conserves, heff.ledger, heff.feesPaid, Ledger.excess_sameShares hL hr hs]
  | defineSlate op =>
    rcases op.evaluate_effect h with rfl | ⟨record, -, -, heff⟩
    · rfl
    · rw [EvalState.Conserves, heff.ledger, heff.feesPaid]
      exact congrArg (· + _) (Ledger.excess_of_frame rfl rfl rfl rfl rfl a)
  | burn op => exact BurnOperation.conserves h hL a
  | ad op => exact AdOperation.conserves h hL haddr a
  | note op => exact NoteOperation.conserves h hL a
  | redPacket op => exact RedPacketOperation.conserves h a
  | claimPacket op => exact ClaimPacketOperation.conserves h hL haddr hop a
  | updateSigningKey op =>
    obtain ⟨r, r', hr, hs, heff⟩ := op.evaluate_effect h
    rw [EvalState.Conserves, heff.ledger, heff.feesPaid, Ledger.excess_sameStanding hL hr hs]
  | updateBalanceVote op => exact UpdateBalanceVoteOperation.conserves h hL haddr a
  | data op => cases h; rfl
  | buyChips op => exact BuyChipsOperation.conserves h hL haddr a
  | game op => cases h
  | unregistered type => cases h

/-! ## Transactions -/

theorem evaluateOperations_excess {e e' : EvalState} {ops : List Operation}
    (h : e.evaluateOperations ops = .ok e') (hL : e.ledger.WellFormed)
    (haddr : Function.Injective Crypto.getAddress)
    (hops : ∀ step ∈ e.trace ops, step.2.claimsForMarker step.1 = false) (a : AssetId) :
    e'.ledger.excess a + e'.feesPaid.getD a 0 = e.ledger.excess a + e.feesPaid.getD a 0 := by
  induction ops generalizing e with
  | nil => cases h; rfl
  | cons op ops ih =>
    obtain ⟨m, hm, hrest, htrace⟩ := evaluateOperations_cons h
    have hwf : m.ledger.WellFormed := evaluateOperation_wellFormed hm hL
    have hhead : op.claimsForMarker e = false := hops (e, op) (by simp [htrace])
    have htail : ∀ step ∈ m.next.trace ops, step.2.claimsForMarker step.1 = false :=
      fun step hstep => hops step (by simp [htrace, hstep])
    rw [ih hrest hwf htail]
    exact evaluateOperation_excess hm hL haddr hhead a

omit [Crypto] in
theorem EvalState.validateFees_excess {e e' : EvalState} {l : List (AssetId × ShareType)}
    (hid : e.ledger.assets.All fun id r => r.id = id)
    (h : l.foldlM EvalState.validateFee e = .ok e') (a : AssetId) :
    e'.ledger.excess a = e.ledger.excess a + amountAt l a := by
  induction l generalizing e with
  | nil =>
    rw [List.foldlM_nil, pure_eq_ok] at h
    subst h
    simp [amountAt]
  | cons fee l ih =>
    rw [List.foldlM_cons, bind_eq_ok] at h
    obtain ⟨m, hm, hrest⟩ := h
    have hstep : m.ledger.assets.All (fun id r => r.id = id) ∧
        m.ledger.excess a = e.ledger.excess a + if fee.1 = a then fee.2 else 0 := by
      obtain ⟨-, -, -, ⟨h0, rfl⟩ | ⟨asset, hasset, heff⟩⟩ := validateFee_effect hm
      · exact ⟨hid, by simp [h0]⟩
      · rw [heff.ledger, Ledger.excess_storeAsset (f := fee.2) (s := 0) (c := 0) hasset
          (hid _ _ hasset) (by rfl) (by rfl) (by simp) (by simp)]
        exact ⟨hid.insert rfl, by simp⟩
    rw [ih hstep.1 hrest, hstep.2]
    simp [amountAt, Int64.add_assoc]

theorem PendingLedger.adjustVotesFor_excess {p p' : PendingLedger}
    {l : List (AccountId × ShareType)} (h : l.foldlM PendingLedger.adjustVotesFor p = .ok p')
    (hp : p.view.WellFormed) (a : AssetId) : p'.view.excess a = p.view.excess a := by
  have hboth := foldlM_induction
    (P := fun q => q.view.WellFormed ∧ q.view.excess a = p.view.excess a)
    (fun delta _ q q' hq hstep => by
      obtain ⟨r, d, hr, hd, hq'⟩ := adjustVotesFor_effect hstep
      rw [hq']
      refine ⟨hq.1.updateAccount hr rfl, ?_⟩
      rw [Ledger.excess_updateAccount hq.1 hr (by rfl) (by simp [AccountRecord.payBalance, hd])]
      exact hq.2) h ⟨hp, rfl⟩
  exact hboth.2

/-- **Conservation, one transaction.**  An accepted transaction in which no share of a packet is
claimed for the marker moves shares but neither makes nor loses any. -/
theorem evaluateLedger_excess {ctx : EvalContext} {p : PendingLedger} {trx : SignedTransaction}
    {e' : EvalState} (h : evaluateLedger ctx p trx = .ok e') (hp : p.view.WellFormed)
    (haddr : Function.Injective Crypto.getAddress)
    (hops : ∀ step ∈ transactionTrace ctx p trx, step.2.claimsForMarker step.1 = false)
    (a : AssetId) : e'.ledger.excess a = p.view.excess a := by
  obtain ⟨e₁, e₂, p₃, total, h₁, h₂, h₃, h₄⟩ := evaluateLedger_phases h
  obtain ⟨signers, hrun, htrace⟩ := evaluateToFees_eq_ok h₁
  rw [htrace] at hops
  have hwf₁ : e₁.ledger.WellFormed := evaluateOperations_wellFormed hrun hp
  have hwf₂ : e₂.ledger.WellFormed := (EvalState.validateFees_effect hwf₁ h₂).2.1
  have hwf₃ : p₃.view.WellFormed := PendingLedger.adjustVotesFor_wellFormed h₃ hwf₂
  have hrp : e'.ledger.excess a = p₃.view.excess a := by
    rcases EvalState.updateRpValues_effect h₄ with rfl | ⟨id, r, r', hr, hsame, heff⟩
    · rfl
    · rw [heff.ledger]
      exact Ledger.excess_updateAccount hwf₃ hr hsame.id hsame.payBalance a
  calc e'.ledger.excess a = e₂.ledger.excess a :=
        hrp.trans (PendingLedger.adjustVotesFor_excess h₃ hwf₂ a)
    _ = e₁.ledger.excess a + e₁.feesPaid.getD a 0 := by
        rw [EvalState.validateFees_excess hwf₁.assets h₂, amountAt_entries]
    _ = p.view.excess a := by
        rw [evaluateOperations_excess hrun hp haddr hops]
        exact Int64.add_zero _

end

end BitShares
