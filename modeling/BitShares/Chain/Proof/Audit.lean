import BitShares.Chain.Queries
import BitShares.Chain.Proof.Start
import BitShares.Ledger.Proof.Claims
import BitShares.Ledger.Proof.Control

/-!
# What the supply audit finds

The audit adds up every table that holds shares but one: the base shares that secure an asset are
only counted in its record.

* `audited_of_extends`: over runs from genesis the audit finds every supply if and only if there is
  no collateral.
* `collateral_unaudited`: a new asset with the default collateral.
-/

namespace BitShares

/-! ## Adding up -/

variable {totals : OrdMap AssetId ShareType} {a : AssetId}

theorem getD_tally {R : Type} (key : R → AssetId) (amount : R → ShareType) (l : List R) :
    (tally key amount totals l).getD a 0 = totals.getD a 0 +
      Int64.ofInt (l.map fun r => if key r = a then (amount r).toInt else 0).sum := by
  induction l generalizing totals with
  | nil => simp [tally]
  | cons r l ih =>
    have hrest := @ih (addTo totals (key r) (amount r))
    rw [tally, List.foldl_cons, ← tally, hrest, getD_addTo, List.map_cons, List.sum_cons,
      Int64.ofInt_add, ofInt_ite]
    simp only [eq_comm (a := a)]
    split <;> grind

theorem find_tally {R : Type} {key : R → AssetId} {amount : R → ShareType} {l : List R}
    (h : (totals.find a).isSome ∨ ∃ r ∈ l, key r = a) :
    ((tally key amount totals l).find a).isSome := by
  induction l generalizing totals with
  | nil => simpa [tally] using h
  | cons r l ih =>
    refine ih ?_
    rw [find_addTo_isSome]
    rcases h with h | ⟨r', hr', hkey⟩
    · exact .inl (.inr h)
    · rcases List.mem_cons.1 hr' with rfl | hr'
      · exact .inl (.inl hkey.symm)
      · exact .inr ⟨r', hr', hkey⟩

theorem getD_tally_rows {K V : Type} [LinearOrder K] (t : Table K V) (key : K × V → AssetId)
    (amount : K × V → ShareType) :
    (tally key amount totals t.rows).getD a 0 = totals.getD a 0 +
      Int64.ofInt (t.total fun k r => if key (k, r) = a then (amount (k, r)).toInt else 0) := by
  rw [getD_tally, ← Table.sum_rows]

theorem getD_tally_fees (r : OperationRewardRecord) :
    (tally (·.1) (·.2) totals r.fees.entries).getD a 0 =
      totals.getD a 0 + Int64.ofInt (r.sharesOf a) := by
  have hfees : r.sharesOf a = (r.fees.find a).elim 0 Int64.toInt := by
    change ((r.fees.find a).getD 0).toInt = _
    cases r.fees.find a <;> rfl
  rw [getD_tally, OrdMap.sum_at, hfees]

theorem sum_payBalance (l : List (AccountId × AccountRecord)) :
    ((l.filterMap (·.2.delegateInfo)).map fun i => if 0 = a then i.payBalance.toInt else 0).sum =
      (l.map fun row => row.2.sharesOf a).sum := by
  induction l with
  | nil => rfl
  | cons row l ih =>
    rw [List.filterMap_cons, List.map_cons, List.sum_cons, ← ih, AccountRecord.sharesOf,
      AccountRecord.payBalance]
    simp only [eq_comm (a := a)]
    cases row.2.delegateInfo with
    | none => simp
    | some i => simp

theorem getD_tally_rewards (l : List (OperationId × OperationRewardRecord)) :
    (l.foldl (fun totals row => tally (·.1) (·.2) totals row.2.fees.entries) totals).getD a 0 =
      totals.getD a 0 + Int64.ofInt (l.map fun row => row.2.sharesOf a).sum := by
  induction l generalizing totals with
  | nil => simp
  | cons row l ih =>
    rw [List.foldl_cons, ih, getD_tally_fees, List.map_cons, List.sum_cons, Int64.ofInt_add,
      Int64.add_assoc]

theorem find_tally_rewards {l : List (OperationId × OperationRewardRecord)}
    (h : (totals.find a).isSome) :
    ((l.foldl (fun totals row => tally (·.1) (·.2) totals row.2.fees.entries) totals).find
      a).isSome := by
  induction l generalizing totals with
  | nil => exact h
  | cons row l ih => exact ih (find_tally (.inl h))

theorem tallyPackets_eq_ok {totals' : OrdMap AssetId ShareType}
    {l : List (PacketId × PacketRecord)} (h : tallyPackets totals l = .ok totals') :
    totals'.getD a 0 = totals.getD a 0 + Int64.ofInt (l.map fun row => row.2.sharesOf a).sum ∧
      ((totals.find a).isSome → (totals'.find a).isSome) := by
  induction l generalizing totals with
  | nil =>
    cases h
    simp
  | cons row l ih =>
    simp only [tallyPackets, List.foldlM_cons, bind_eq_ok, pure_eq_ok] at h
    obtain ⟨m, ⟨left, hleft, rfl⟩, hrest⟩ := h
    obtain ⟨hget, hfind⟩ := ih hrest
    refine ⟨?_, fun hsome => hfind ((find_addTo_isSome _ _ _ _).2 (.inr hsome))⟩
    rw [hget, getD_addTo, PacketRecord.leftPacketAmount_eq_ok hleft, List.map_cons, List.sum_cons,
      Int64.ofInt_add, PacketRecord.sharesOf]
    simp only [eq_comm (a := a)]
    split
    · rw [Int64.add_assoc]
    · simp

theorem exists_tallyPackets {l : List (PacketId × PacketRecord)}
    (h : ∀ row ∈ l, ∃ left, row.2.leftPacketAmount = .ok left) :
    ∃ totals', tallyPackets totals l = .ok totals' := by
  induction l generalizing totals with
  | nil => exact ⟨totals, rfl⟩
  | cons row l ih =>
    obtain ⟨left, hleft⟩ := h row List.mem_cons_self
    obtain ⟨totals', hrest⟩ := @ih (addTo totals row.2.amount.assetId left.amount)
      fun row' hrow' => h row' (List.mem_cons_of_mem _ hrow')
    refine ⟨totals', ?_⟩
    rw [tallyPackets, List.foldlM_cons, hleft]
    exact hrest

namespace ChainTables

variable {d : ChainTables}

def collateral (d : ChainTables) : ℤ := d.assets.total fun _ r => r.currentCollateral.toInt

theorem total_assets (d : ChainTables) (a : AssetId) :
    d.assets.total (fun _ r => r.sharesOf a) =
      d.assets.total (fun _ r => if r.id = a then r.collectedFees.toInt else 0) +
        if a = 0 then d.collateral else 0 := by
  unfold AssetRecord.sharesOf
  rw [Table.total_add]
  split
  · rfl
  · exact congrArg _ (Table.total_eq_zero fun _ _ _ => rfl)

/-- **What the audit adds up**: all shares but the collateral. -/
theorem calculateSupplies_eq_ok (h : d.calculateSupplies = .ok totals) (a : AssetId) :
    totals.getD a 0 =
      Int64.ofInt (d.totalShares a) - if a = 0 then Int64.ofInt d.collateral else 0 := by
  simp only [calculateSupplies, bind_eq_ok, pure_eq_ok] at h
  obtain ⟨m, hm, rfl⟩ := h
  have haccounts := Table.sum_rows d.accounts fun _ r => r.sharesOf a
  have hrewards := Table.sum_rows d.operationRewards fun _ r => r.sharesOf a
  have hpackets := Table.sum_rows d.packets fun _ r => r.sharesOf a
  rw [getD_tally_rows, getD_tally_rows, getD_tally_rows, (tallyPackets_eq_ok hm).1,
    getD_tally_rewards, getD_tally_rows, getD_tally, sum_payBalance, haccounts, hrewards, hpackets]
  have hshares : d.totalShares a = d.balances.total (fun _ r => r.sharesOf a) +
      d.assets.total (fun _ r => r.sharesOf a) + d.accounts.total (fun _ r => r.sharesOf a) +
      d.packets.total (fun _ r => r.sharesOf a) + d.operationRewards.total (fun _ r => r.sharesOf a) +
      d.orderShares a := rfl
  rw [hshares, total_assets, orderShares]
  simp only [Int64.ofInt_add, BalanceRecord.sharesOf]
  have hempty : (∅ : OrdMap AssetId ShareType).getD a 0 = 0 := rfl
  generalize d.balances.total _ = balances
  generalize d.assets.total _ = assets
  generalize d.accounts.total _ = accounts
  generalize d.packets.total _ = packets
  generalize d.operationRewards.total _ = rewards
  generalize d.asks.total _ = asks
  generalize d.bids.total _ = bids
  rw [hempty]
  split
  · grind
  · rw [show Int64.ofInt 0 = 0 from rfl]
    grind

def Audited (d : ChainTables) : Prop :=
  ∃ totals, d.calculateSupplies = .ok totals ∧
    ∀ a r, d.assets.lookup a = some r → totals.find a = some r.currentSupply

theorem find_calculateSupplies (h : d.calculateSupplies = .ok totals) {r : AssetRecord}
    (hr : d.assets.lookup a = some r) (hid : r.id = a) : (totals.find a).isSome := by
  simp only [calculateSupplies, bind_eq_ok, pure_eq_ok] at h
  obtain ⟨m, hm, rfl⟩ := h
  refine find_tally (.inl (find_tally (.inl (find_tally (.inl ((tallyPackets_eq_ok hm).2
    (find_tally_rewards (find_tally (.inr ⟨(a, r), Table.mem_rows.2 hr, hid⟩)))))))))

theorem exists_calculateSupplies
    (h : ∀ id r, d.packets.lookup id = some r → ∃ left, r.leftPacketAmount = .ok left) :
    ∃ totals, d.calculateSupplies = .ok totals := by
  obtain ⟨m, hm⟩ := exists_tallyPackets (l := d.packets.rows)
    fun row hrow => h _ _ (Table.mem_rows.1 hrow)
  simp only [calculateSupplies, bind_eq_ok, pure_eq_ok]
  exact ⟨_, m, hm, rfl⟩

end ChainTables

/-! ## Packets -/

/-- The shares of a packet can be added up, whichever of them are claimed. -/
structure PacketRecord.Payable (r : PacketRecord) : Prop where
  asset : ∀ s ∈ r.claimStatuses, s.amount.assetId = r.amount.assetId
  nonneg : ∀ s ∈ r.claimStatuses, 0 ≤ s.amount.amount.toInt
  fits : (r.claimStatuses.map (·.amount.amount.toInt)).sum < 2 ^ 63

namespace PacketRecord

theorem sum_nonneg {l : List RedPacketStatus} (h : ∀ s ∈ l, 0 ≤ s.amount.amount.toInt) :
    0 ≤ (l.map (·.amount.amount.toInt)).sum := by
  refine List.sum_nonneg fun x hx => ?_
  obtain ⟨s, hs, rfl⟩ := List.mem_map.1 hx
  exact h s hs

theorem exists_leftAmount {l : List RedPacketStatus} {acc : Asset}
    (hasset : ∀ s ∈ l, s.amount.assetId = acc.assetId) (hnonneg : ∀ s ∈ l, 0 ≤ s.amount.amount.toInt)
    (hacc : 0 ≤ acc.amount.toInt)
    (hfits : acc.amount.toInt + (l.map (·.amount.amount.toInt)).sum < 2 ^ 63) :
    ∃ left, leftAmount l acc = .ok left := by
  induction l generalizing acc with
  | nil => exact ⟨acc, rfl⟩
  | cons s l ih =>
    obtain ⟨hs, hl⟩ := List.forall_mem_cons.1 hasset
    obtain ⟨hs0, hl0⟩ := List.forall_mem_cons.1 hnonneg
    have hrest := sum_nonneg hl0
    rw [List.map_cons, List.sum_cons] at hfits
    rw [leftAmount]
    split
    · have hadd : acc.add s.amount = .ok { acc with amount := acc.amount + s.amount.amount } := by
        simp only [Asset.add, bind_eq_ok, require_eq_ok, pure_eq_ok, exists_and_left, exists_const]
        exact ⟨hs.symm, by omega, trivial⟩
      have hsum : (acc.amount + s.amount.amount).toInt = acc.amount.toInt + s.amount.amount.toInt :=
        Int64.toInt_add_of_bounds (by omega) (by omega)
      rw [hadd]
      refine ih hl hl0 ?_ ?_
      · change 0 ≤ (acc.amount + s.amount.amount).toInt
        omega
      · change (acc.amount + s.amount.amount).toInt + _ < _
        omega
    · exact ih hl hl0 hacc (by omega)

theorem fits_of_leftAmount {l : List RedPacketStatus} {acc left : Asset}
    (h : leftAmount l acc = .ok left) (hmarked : ∀ s ∈ l, s.accountId = -1) :
    acc.amount.toInt + (l.map (·.amount.amount.toInt)).sum < 2 ^ 63 := by
  induction l generalizing acc with
  | nil =>
    have hbounds := Int64.toInt_bounds acc.amount
    simp only [List.map_nil, List.sum_nil]
    omega
  | cons s l ih =>
    obtain ⟨hs, hl⟩ := List.forall_mem_cons.1 hmarked
    rw [leftAmount, if_pos hs, bind_eq_ok] at h
    obtain ⟨m, hm, hrest⟩ := h
    simp only [Asset.add, bind_eq_ok, require_eq_ok, pure_eq_ok, exists_and_left,
      exists_const] at hm
    obtain ⟨-, hbounds, rfl⟩ := hm
    have hsum : (acc.amount + s.amount.amount).toInt = acc.amount.toInt + s.amount.amount.toInt :=
      Int64.toInt_add_of_bounds (by omega) (by omega)
    have hall := ih hrest hl
    change (acc.amount + s.amount.amount).toInt + _ < _ at hall
    rw [List.map_cons, List.sum_cons]
    omega

theorem Payable.exists_left {r : PacketRecord} (h : r.Payable) :
    ∃ left, r.leftPacketAmount = .ok left :=
  exists_leftAmount h.asset h.nonneg (show 0 ≤ Int64.toInt 0 by decide) (by simpa using h.fits)

theorem Payable.claimedBy {r : PacketRecord} (h : r.Payable) {status : RedPacketStatus}
    (hstatus : r.claimStatuses[r.nextAvailableClaimIndex]? = some status) (id : AccountId)
    (trx : TransactionId) : (r.claimedBy status id trx).Payable := by
  have hamounts : (r.claimedBy status id trx).claimStatuses.map (·.amount) =
      r.claimStatuses.map (·.amount) := by
    obtain ⟨hlt, hget⟩ := List.getElem?_eq_some_iff.1 hstatus
    have hlt' : r.nextAvailableClaimIndex < (r.claimStatuses.map (·.amount)).length := by
      simpa using hlt
    have hsame : status.amount = (r.claimStatuses.map (·.amount))[r.nextAvailableClaimIndex] := by
      rw [List.getElem_map, hget]
    rw [PacketRecord.claimedBy, List.map_set, hsame]
    exact List.set_getElem_self _
  have hmem : ∀ s ∈ (r.claimedBy status id trx).claimStatuses, ∃ s' ∈ r.claimStatuses,
      s'.amount = s.amount := by
    intro s hs
    have hmap : s.amount ∈ (r.claimedBy status id trx).claimStatuses.map (·.amount) :=
      List.mem_map_of_mem hs
    rw [hamounts] at hmap
    exact List.mem_map.1 hmap
  have hsum := congrArg (fun l => (l.map fun x : Asset => x.amount.toInt).sum) hamounts
  simp only [List.map_map] at hsum
  refine ⟨fun s hs => ?_, fun s hs => ?_, hsum.trans_lt h.fits⟩
  · obtain ⟨s', hs', heq⟩ := hmem s hs
    exact heq ▸ h.asset s' hs'
  · obtain ⟨s', hs', heq⟩ := hmem s hs
    exact heq ▸ h.nonneg s' hs'

end PacketRecord

section

variable [Crypto]

theorem RedPacketOperation.packet_payable {op : RedPacketOperation} {e e' : EvalState}
    (h : op.evaluate e = .ok e') : op.packet.Payable := by
  obtain ⟨-, hcount, -, -, -, -, -, hleft, -⟩ := evaluate_effect h
  refine ⟨fun s hs => ?_, fun s hs => shares_nonneg hcount hs, ?_⟩
  · obtain ⟨x, -, rfl⟩ := List.mem_map.1 hs
    rfl
  · refine (Int.zero_add _).symm.trans_lt (PacketRecord.fits_of_leftAmount hleft fun s hs => ?_)
    obtain ⟨x, -, rfl⟩ := List.mem_map.1 hs
    rfl

theorem PacketRun.payable {t t' : Table PacketId PacketRecord}
    {steps : List (EvalState × Operation)} (hrun : PacketRun t steps t')
    (h : t.All fun _ r => r.Payable) : t'.All fun _ r => r.Payable := by
  induction hrun with
  | nil => exact h
  | @cons _ _ e e' op _ hstart hstep _ ih =>
    refine ih ?_
    subst hstart
    have hpackets := evaluateOperation_packets hstep
    generalize e'.ledger.packets = t at hpackets
    cases hpackets with
    | frame => exact h
    | create op => exact h.insert (RedPacketOperation.packet_payable hstep)
    | claim op hpacket hstatus => exact h.insert ((h _ _ hpacket).claimedBy hstatus _ _)

theorem Ledger.packets_creditAll (L : Ledger) (now : Time) (l : List (Address × ShareType)) :
    (L.creditAll now l).packets = L.packets := by
  induction l generalizing L with
  | nil => rfl
  | cons e l ih => exact ih (L.storeBalance (L.credited now e.1 ⟨e.2, 0⟩))

theorem extendChain_payable {s s' : ChainState} {cfg : NodeConfig} {b : FullBlock}
    (h : s.extendChain cfg b = .ok s') (hs : s.tables.ledger.WellFormed)
    (hpackets : s.tables.packets.All fun _ r => r.Payable) :
    s'.tables.packets.All fun _ r => r.Payable := by
  refine (extendChain_induction
    (I := fun L => L.WellFormed ∧ L.packets.All fun _ r => r.Payable) h (fun L hL => hL.1.assets)
    (fun L L' hmove hL => ⟨hmove.wellFormed hL.1, ?_⟩)
    (fun L L' hpaid hL => ⟨hpaid.wellFormed hL.1, ?_⟩)
    (fun trx _ q e he hq => ⟨evaluateLedger_wellFormed he hq.1,
      (PacketRun.ofTransaction he).payable hq.2⟩)
    (fun L L' hrewarded hL => ⟨hrewarded.wellFormed hL.1, ?_⟩) ⟨hs, hpackets⟩).2
  · cases hmove <;> exact hL.2
  · cases hpaid
    exact hL.2
  · obtain ⟨now, hr, hl⟩ := hrewarded
    change (L.creditAll now _).packets.All _
    rw [Ledger.packets_creditAll]
    exact hL.2

/-! ## Collateral -/

def Operation.securesAsset : Operation → Bool
  | .createAsset op => op.initialCollateral ≠ 0
  | .buyChips _ => true
  | _ => false

theorem evaluateOperation_unsecured {e e' : EvalState} {op : Operation}
    (h : e.evaluateOperation op = .ok e') (hop : op.securesAsset = false)
    (hassets : e.ledger.assets.All fun _ r => r.currentCollateral = 0) :
    e'.ledger.assets.All fun _ r => r.currentCollateral = 0 := by
  cases op with
  | withdraw op =>
    obtain ⟨-, r, _, asset, y, r', _, _, -, -, -, hasset, -, -, -, -, -, -, heff⟩ :=
      op.evaluate_effect h
    rw [heff.ledger]
    split
    · exact hassets
    · exact hassets.insert (hassets _ asset hasset)
  | createAsset op =>
    obtain ⟨id, authority, L, hgame, -, -, -, -, heff⟩ := op.evaluate_effect h
    have hL : L.assets = e.ledger.assets := by
      rcases hgame with rfl | ⟨game, -, rfl⟩ <;> rfl
    rw [heff.ledger]
    refine Table.All.insert (hL ▸ hassets) ?_
    change op.initialCollateral = 0
    simpa [Operation.securesAsset] using hop
  | issueAsset op =>
    obtain ⟨-, r, r', hr, -, -, -, -, -, hcollateral, -, heff⟩ := op.evaluate_effect h
    exact heff.ledger ▸ hassets.insert (hcollateral.trans (hassets _ r hr))
  | assetUpdateProperties op =>
    obtain ⟨r, r', hr, hsame, -, heff⟩ := op.evaluate_effect h
    exact heff.ledger ▸ hassets.insert (hsame.currentCollateral.trans (hassets _ r hr))
  | assetUpdatePermissions op =>
    obtain ⟨r, r', hr, hsame, -, heff⟩ := op.evaluate_effect h
    exact heff.ledger ▸ hassets.insert (hsame.currentCollateral.trans (hassets _ r hr))
  | assetUpdateWhitelist op =>
    obtain ⟨r, r', hr, hsame, heff⟩ := op.evaluate_effect h
    exact heff.ledger ▸ hassets.insert (hsame.currentCollateral.trans (hassets _ r hr))
  | burn op =>
    obtain ⟨-, asset, hasset, heff⟩ := op.evaluate_effect h
    exact heff.ledger ▸ hassets.insert (hassets _ asset hasset)
  | buyChips op => cases hop
  | _ => exact (evaluateOperation_leaves h).assets rfl ▸ hassets

/-- What the operations and the fees do to the assets, a transaction does. -/
theorem evaluateLedger_assetInduction {P : Table AssetId AssetRecord → Prop} {ctx : EvalContext}
    {p : PendingLedger} {trx : SignedTransaction} {e' : EvalState}
    (h : evaluateLedger ctx p trx = .ok e')
    (hop : ∀ (e : EvalState) op e', op ∈ trx.operations → e.evaluateOperation op = .ok e' →
      P e.ledger.assets → P e'.ledger.assets)
    (hfee : ∀ (t : Table AssetId AssetRecord) id r x, t.lookup id = some r → P t →
      P (t.insert r.id { r with collectedFees := x }))
    (hp : P p.view.assets) : P e'.ledger.assets := by
  obtain ⟨e₁, e₂, p₃, total, h₁, h₂, h₃, h₄⟩ := evaluateLedger_phases h
  have hafter : e'.ledger.assets = e₂.ledger.assets := by rw [afterFees_rest h₃ h₄]
  rw [hafter]
  refine foldlM_induction (P := fun e => P e.ledger.assets) (fun fee _ e e' he hstep => ?_) h₂ ?_
  · obtain ⟨-, -, -, ⟨-, rfl⟩ | ⟨asset, hasset, heff⟩⟩ := EvalState.validateFee_effect hstep
    · exact he
    · rw [heff.ledger]
      exact hfee _ _ asset _ hasset he
  · exact evaluateToFees_induction (P := fun e => P e.ledger.assets) h₁ (fun _ he => he)
      (fun _ => hp) fun e op e' hmem he hstep =>
        hop e op e' (trace_of_mem_transactionTrace hmem) hstep he

theorem evaluateLedger_unsecured {ctx : EvalContext} {p : PendingLedger} {trx : SignedTransaction}
    {e' : EvalState} (h : evaluateLedger ctx p trx = .ok e')
    (hops : ∀ op ∈ trx.operations, op.securesAsset = false)
    (hp : p.view.assets.All fun _ r => r.currentCollateral = 0) :
    e'.ledger.assets.All fun _ r => r.currentCollateral = 0 :=
  evaluateLedger_assetInduction (P := fun t => t.All fun _ r => r.currentCollateral = 0) h
    (fun _ op _ hmem hstep he => evaluateOperation_unsecured hstep (hops op hmem) he)
    (fun _ _ r _ hr ht => ht.insert (ht _ r hr)) hp

def FullBlock.securesNothing (b : FullBlock) : Bool :=
  b.userTransactions.all fun trx => trx.operations.all fun op => !op.securesAsset

theorem Ledger.assets_creditAll (L : Ledger) (now : Time) (l : List (Address × ShareType)) :
    (L.creditAll now l).assets = L.assets := by
  induction l generalizing L with
  | nil => rfl
  | cons e l ih => exact ih (L.storeBalance (L.credited now e.1 ⟨e.2, 0⟩))

theorem extendChain_unsecured {s s' : ChainState} {cfg : NodeConfig} {b : FullBlock}
    (h : s.extendChain cfg b = .ok s') (hs : s.tables.ledger.WellFormed) (hb : b.securesNothing)
    (hassets : s.tables.assets.All fun _ r => r.currentCollateral = 0) :
    s'.tables.assets.All fun _ r => r.currentCollateral = 0 := by
  have hsecures : ∀ trx ∈ b.userTransactions, ∀ op ∈ trx.operations, op.securesAsset = false := by
    simpa [FullBlock.securesNothing] using hb
  refine (extendChain_induction (I := fun L => L.WellFormed ∧ L.assets.All fun _ r =>
      r.currentCollateral = 0) h (fun L hL => hL.1.assets)
    (fun L L' hmove hL => ⟨hmove.wellFormed hL.1, ?_⟩)
    (fun L L' hpaid hL => ⟨hpaid.wellFormed hL.1, ?_⟩)
    (fun trx hmem q e he hq => ⟨evaluateLedger_wellFormed he hq.1,
      evaluateLedger_unsecured he (hsecures trx hmem) hq.2⟩)
    (fun L L' hrewarded hL => ⟨hrewarded.wellFormed hL.1, ?_⟩) ⟨hs, hassets⟩).2
  · cases hmove <;> exact hL.2
  · obtain @⟨base, id, r, d, fees, accepted, hbase, -, -, -, -, -, -⟩ := hpaid
    exact hL.2.insert (hL.2 _ base hbase)
  · obtain ⟨now, hr, hl⟩ := hrewarded
    change (L.creditAll now _).assets.All _
    rw [Ledger.assets_creditAll]
    exact hL.2

/-! ## The base asset -/

omit [Crypto] in
theorem Table.isSome_insert {K V : Type} [DecidableEq K] {t : Table K V} {k : K}
    (h : (t.lookup k).isSome) (k' : K) (v : V) : ((t.insert k' v).lookup k).isSome := by
  rw [Table.lookup_insert_eq]
  split
  · rfl
  · exact h

theorem evaluateLedger_keepsAsset {ctx : EvalContext} {p : PendingLedger} {trx : SignedTransaction}
    {e' : EvalState} (h : evaluateLedger ctx p trx = .ok e')
    (ha : (p.view.assets.lookup a).isSome) : (e'.ledger.assets.lookup a).isSome := by
  refine evaluateLedger_assetInduction (P := fun t => (t.lookup a).isSome) h
    (fun e op e' _ hstep he => ?_) (fun _ _ _ _ _ ht => Table.isSome_insert ht _ _) ha
  have hassets := evaluateOperation_assets hstep
  generalize e'.ledger.assets = t at hassets
  cases hassets with
  | frame => exact he
  | create r => exact Table.isSome_insert he _ _
  | update => exact Table.isSome_insert he _ _
  | whitelist => exact Table.isSome_insert he _ _

theorem extendChain_keepsAsset {s s' : ChainState} {cfg : NodeConfig} {b : FullBlock}
    (h : s.extendChain cfg b = .ok s') (hs : s.tables.ledger.WellFormed)
    (ha : (s.tables.assets.lookup a).isSome) : (s'.tables.assets.lookup a).isSome := by
  refine (extendChain_induction (I := fun L => L.WellFormed ∧ (L.assets.lookup a).isSome) h
    (fun L hL => hL.1.assets)
    (fun L L' hmove hL => ⟨hmove.wellFormed hL.1, by rw [hmove.assets]; exact hL.2⟩)
    (fun L L' hpaid hL => ⟨hpaid.wellFormed hL.1, ?_⟩)
    (fun trx hmem q e he hq => ⟨evaluateLedger_wellFormed he hq.1, ?_⟩)
    (fun L L' hrewarded hL => ⟨hrewarded.wellFormed hL.1, ?_⟩) ⟨hs, ha⟩).2
  · cases hpaid
    exact Table.isSome_insert hL.2 _ _
  · exact evaluateLedger_keepsAsset he hq.2
  · obtain ⟨now, hr, hl⟩ := hrewarded
    change ((L.creditAll now _).assets.lookup a).isSome
    rw [Ledger.assets_creditAll]
    exact hL.2

/-! ## The audit over a run -/

omit [Crypto] in
theorem ChainTables.Conserved.audited_iff {d : ChainTables} (h : d.Conserved)
    (hids : d.assets.All fun id r => r.id = id) (hpackets : d.packets.All fun _ r => r.Payable)
    (hbase : (d.assets.lookup 0).isSome) : d.Audited ↔ Int64.ofInt d.collateral = 0 := by
  obtain ⟨totals, htotals⟩ := exists_calculateSupplies fun id r hr => (hpackets id r hr).exists_left
  have hfind : ∀ a r, d.assets.lookup a = some r → totals.find a =
      some (r.currentSupply - if a = 0 then Int64.ofInt d.collateral else 0) := by
    intro a r hr
    have hsome := find_calculateSupplies htotals hr (hids a r hr)
    obtain ⟨x, hx⟩ := Option.isSome_iff_exists.1 hsome
    have hget := calculateSupplies_eq_ok htotals a
    rw [h a, Ledger.currentSupply_of_lookup hr, OrdMap.getD, hx] at hget
    rw [hx, ← hget]
    rfl
  constructor
  · rintro ⟨totals', htotals', haudit⟩
    obtain rfl : totals = totals' := by simpa [htotals] using htotals'
    obtain ⟨base, hr⟩ := Option.isSome_iff_exists.1 hbase
    have hzero := (hfind 0 base hr).symm.trans (haudit 0 base hr)
    rw [if_pos rfl, Option.some.injEq] at hzero
    grind
  · intro hzero
    refine ⟨totals, htotals, fun a r hr => ?_⟩
    rw [hfind a r hr, hzero, ite_self, Int64.sub_zero]

open GenesisState in
/-- **The supply audit.**  From a genesis whose vesting entries merge apart, in every run without a
packet claim for account `-1` the audit finds the supply of every asset if and only if the collateral
of all assets is zero; so it does if no transaction sets collateral aside. -/
theorem audited_of_extends {f : AddressFormats} {config : GenesisState} {chainId : Digest}
    {statisticsEnabled : Bool} {s s' : ChainState} {l : List (NodeConfig × FullBlock)}
    (haddr : Function.Injective Crypto.getAddress)
    (hgenesis : config.initializeGenesis f chainId statisticsEnabled = .ok s.tables)
    (hmerges : MergesApart ∅ (f.entries config.sharedropBalances.vestingBalances))
    (hrun : Extends s l s') (hclaims : ∀ step ∈ l, step.2.claimsProperly) :
    (s'.tables.Audited ↔ Int64.ofInt s'.tables.collateral = 0) ∧
      ((∀ step ∈ l, step.2.securesNothing) → s'.tables.Audited) := by
  obtain ⟨supply, last, hfounded⟩ := initializeGenesis_founded hgenesis
  have hbase₀ : s.tables.assets.lookup 0 =
      some (GenesisState.baseAsset config.timestamp supply) := by
    rw [hfounded.assets, Finmap.lookup_singleton_eq]
  have hconserved : s.tables.Conserved :=
    hfounded.conserved (supply_of_mergesApart haddr hgenesis hmerges hbase₀)
  have hstate : s'.tables.ledger.WellFormed ∧ (s'.tables.packets.All fun _ r => r.Payable) ∧
      (s'.tables.assets.lookup 0).isSome :=
    hrun.induction (P := fun d => d.ledger.WellFormed ∧ (d.packets.All fun _ r => r.Payable) ∧
        (d.assets.lookup 0).isSome)
      (fun cfg b _ m m' hstep hm => ⟨extendChain_wellFormed hstep hm.1,
        extendChain_payable hstep hm.1 hm.2.1, extendChain_keepsAsset hstep hm.1 hm.2.2⟩)
      ⟨hfounded.wellFormed, .of_empty hfounded.packets, by rw [hbase₀]; rfl⟩
  obtain ⟨hwf, hpackets, hbase⟩ := hstate
  have hiff := (conserved_of_extends hrun hfounded.wellFormed haddr hclaims hconserved).1.audited_iff
    hwf.assets hpackets hbase
  refine ⟨hiff, fun hsecures => hiff.2 ?_⟩
  have hunsecured := (hrun.induction (P := fun d => d.ledger.WellFormed ∧
      d.assets.All fun _ r => r.currentCollateral = 0)
    (fun cfg b hmem m m' hstep hm => ⟨extendChain_wellFormed hstep hm.1,
      extendChain_unsecured hstep hm.1 (hsecures _ hmem) hm.2⟩)
    ⟨hfounded.wellFormed, by rw [hfounded.assets]; exact (Table.All.of_empty rfl).insert rfl⟩).2
  rw [ChainTables.collateral, Table.total_eq_zero fun id r hr => by rw [hunsecured id r hr]; rfl]
  rfl

end

/-! ## A new asset -/

def openingConfig : GenesisState where
  timestamp := 100
  delegates := List.replicate NUM_DELEGATES ⟨"delegate", 5⟩
  initialBalances := [⟨"a", 2000000000⟩]
  sharedropBalances := { startTime := 100, vestingBalances := [] }

def listing (collateral : ShareType) : SignedTransaction where
  expiration := 200
  operations :=
    [.withdraw ⟨(WithdrawCondition.withSignature 1 0 0).code, 600000000⟩,
      .createAsset
        { symbol := "STOCKS"
          name := "Stocks"
          description := ""
          publicData := ""
          issuerType := userIssuerId
          issuerId := 1
          maximumShareSupply := 1000
          precision := 1
          initialCollateral := collateral }]
  signatures := [1]

def listingBlock (collateral : ShareType) : FullBlock := soloBlock 1 nullId 10 [listing collateral]

theorem audited_of_extends_listing :
    letI := Crypto.transparent
    ∃ s s', openingConfig.initializeGenesis lengthFormats 0 false = .ok s.tables ∧
      Extends s [({ clock := 100 }, listingBlock 0)] s' ∧ s'.tables.Audited := by
  let := Crypto.transparent
  obtain ⟨⟨t, s'⟩, h⟩ := exists_ok_of_isOk (x := do
    let t ← openingConfig.initializeGenesis lengthFormats 0 false
    let s' ← ChainState.extendChain { tables := t } { clock := 100 } (listingBlock 0)
    return (t, s')) (by decide +kernel)
  simp only [bind_eq_ok, pure_eq_ok, Prod.mk.injEq] at h
  obtain ⟨_, ht, _, hs', rfl, rfl⟩ := h
  have hrun := Extends.extend hs' (.refl _)
  exact ⟨_, _, ht, hrun, (audited_of_extends WithdrawCondition.code_injective ht
    (by decide +kernel) hrun (by decide +kernel)).2 (by decide +kernel)⟩

/-- **The default collateral of one share** is not found by the audit: of 2000000000 base shares it
counts 1999999999. -/
theorem collateral_unaudited :
    letI := Crypto.transparent
    ∃ s s' totals, openingConfig.initializeGenesis lengthFormats 0 false = .ok s.tables ∧
      Extends s [({ clock := 100 }, listingBlock 1)] s' ∧
      s'.tables.calculateSupplies = .ok totals ∧ totals.find 0 = some 1999999999 ∧
      (s'.tables.assets.lookup 0).map (·.currentSupply) = some 2000000000 := by
  let := Crypto.transparent
  obtain ⟨⟨t, s', totals⟩, h, hfound, hsupply⟩ := exists_ok_of_any (x := do
      let t ← openingConfig.initializeGenesis lengthFormats 0 false
      let s' ← ChainState.extendChain { tables := t } { clock := 100 } (listingBlock 1)
      let totals ← s'.tables.calculateSupplies
      return (t, s', totals))
    (p := fun r => r.2.2.find 0 = some 1999999999 ∧
      (r.2.1.tables.assets.lookup 0).map (·.currentSupply) = some 2000000000) (by decide +kernel)
  simp only [bind_eq_ok, pure_eq_ok, Prod.mk.injEq] at h
  obtain ⟨_, ht, _, hs', _, htotals, rfl, rfl, rfl⟩ := h
  exact ⟨_, _, _, ht, .extend hs' (.refl _), htotals, hfound, hsupply⟩

end BitShares
