import BitShares.Game.Block

/-!
# Where `time_in_future` comes from

`extend_chain` throws `time_in_future` for a block that is more than two intervals ahead of the
clock, and for no other (`extendChainOn_timeInFuture`): nothing after the header is checked throws it,
unless a script does.
-/

namespace BitShares

/-! ## Operations -/

@[simp] theorem Asset.mul_spares (a : Asset) (p : Price) : Spares .timeInFuture (a.mul p) := by
  simp [Asset.mul]

@[simp] theorem WithdrawCondition.owners_spares (c : WithdrawCondition) :
    Spares .timeInFuture c.owners := by
  unfold owners
  split <;> simp

@[simp] theorem BalanceRecord.getSpendableBalance_spares (r : BalanceRecord) (t : Time) :
    Spares .timeInFuture (r.getSpendableBalance t) := by
  unfold getSpendableBalance
  split <;> simp [vestedBalance, maxClaimable]

@[simp] theorem AccountRecord.setActiveKey_spares (r : AccountRecord) (t : Time) (k : PublicKey) :
    Spares .timeInFuture (r.setActiveKey t k) := by
  simp [setActiveKey]

@[simp] theorem PacketRecord.leftAmount_spares (l : List RedPacketStatus) (a : Asset) :
    Spares .timeInFuture (leftAmount l a) := by
  induction l generalizing a with
  | nil => simp [leftAmount]
  | cons s l ih => simp [leftAmount, Asset.add, ih]

@[simp] theorem PendingLedger.counter_spares (p : PendingLedger) (id : PropertyId) :
    Spares .timeInFuture (p.counter id) := by
  unfold counter
  split <;> simp

@[simp] theorem PendingLedger.getDelegateRegistrationFee_spares (p : PendingLedger) (rate : UInt8) :
    Spares .timeInFuture (p.getDelegateRegistrationFee rate) := by
  simp [getDelegateRegistrationFee]

@[simp] theorem scanSymbol_spares (cs : List Char) (position dots dotPosition : Nat) :
    Spares .timeInFuture (scanSymbol cs position dots dotPosition) := by
  induction cs generalizing position dots dotPosition with
  | nil => simp [scanSymbol]
  | cons c cs ih => simp [scanSymbol, ih]

@[simp] theorem isValidSymbolName_spares (symbol : String) :
    Spares .timeInFuture (isValidSymbolName symbol) := by
  simp [isValidSymbolName]

@[simp] theorem averageDate_spares (oldDate now : Time) (oldAmount amount : ShareType) :
    Spares .timeInFuture (averageDate oldDate now oldAmount amount) := by
  simp [averageDate]

@[simp] theorem AssetRecord.update_spares {α : Type} (r : AssetRecord) (field : Option α)
    (check : α → Except Error Unit) (set : α → AssetRecord)
    (h : ∀ a, Spares .timeInFuture (check a)) :
    Spares .timeInFuture (r.update field check set) := by
  unfold update
  split <;> simp [h]

namespace EvalState

@[simp] theorem adjustVote_spares (e : EvalState) (slate : SlateId) (amount : ShareType) :
    Spares .timeInFuture (e.adjustVote slate amount) := by
  simp [adjustVote]

@[simp] theorem adjustBaseVote_spares (e : EvalState) (c : WithdrawCondition) (amount : ShareType) :
    Spares .timeInFuture (e.adjustBaseVote c amount) := by
  simp [adjustBaseVote]

@[simp] theorem slateMembers_spares (e : EvalState) (l : List AccountId) (acc : OrdSet AccountId) :
    Spares .timeInFuture (e.slateMembers l acc) := by
  induction l generalizing acc with
  | nil => simp [slateMembers]
  | cons id l ih => simp [slateMembers, ih]

end EvalState

variable [Crypto]

omit [Crypto] in
@[simp] theorem EvalState.withdrawAllowed_spares (e : EvalState) (asset : AssetRecord)
    (c : WithdrawCondition) : Spares .timeInFuture (e.withdrawAllowed asset c) := by
  have hsigned : Spares .timeInFuture (e.withdrawSigned c) := by
    unfold withdrawSigned
    split <;> simp
  simp [withdrawAllowed, hsigned]

@[simp] theorem signerKey_spares (signer : Option Signature) (digest : Digest) :
    Spares .timeInFuture (signerKey signer digest) := by
  simp [signerKey]

theorem RegisterAccountOperation.evaluate_spares (op : RegisterAccountOperation) (e : EvalState) :
    Spares .timeInFuture (op.evaluate e) := by
  simp [evaluate, delegatePart, PendingLedger.newAccountId, PendingLedger.lastAccountId]

theorem UpdateAccountOperation.evaluate_spares (op : UpdateAccountOperation) (e : EvalState) :
    Spares .timeInFuture (op.evaluate e) := by
  have hkey : ∀ r, Spares .timeInFuture (op.updateActiveKey e r) := by
    intro r
    unfold updateActiveKey
    split <;> simp
  have hdelegate : ∀ r, Spares .timeInFuture (op.updateDelegate e r) := by
    intro r
    unfold updateDelegate
    split
    · simp only [spares_bind]
      refine ⟨by simp, fun _ _ => ?_⟩
      split <;> simp
    · simp
  simp [evaluate, hkey, hdelegate]

theorem DefineSlateOperation.evaluate_spares (op : DefineSlateOperation) (e : EvalState) :
    Spares .timeInFuture (op.evaluate e) := by
  simp only [evaluate, spares_bind]
  refine ⟨by simp, fun _ _ => ⟨by simp, fun _ _ => ⟨by simp, fun members _ => ?_⟩⟩⟩
  split <;> simp

theorem CreateAssetOperation.evaluate_spares (op : CreateAssetOperation) (e : EvalState) :
    Spares .timeInFuture (op.evaluate e) := by
  have hparent : Spares .timeInFuture (op.parentAllows e) := by
    simp [parentAllows]
  have hauthority : ∀ p, Spares .timeInFuture (op.authorityAccount p) := by
    simp [authorityAccount]
  simp [evaluate, hparent, hauthority, PendingLedger.newAssetId, PendingLedger.lastAssetId]

omit [Crypto] in
theorem AssetUpdatePropertiesOperation.evaluate_spares (op : AssetUpdatePropertiesOperation)
    (e : EvalState) : Spares .timeInFuture (op.evaluate e) := by
  simp [evaluate, updateIssuer, updateName, updateDescription, updatePublicData, updatePrecision,
    updateMaxSupply, updateWithdrawalFee, updateMarketFeeRate]

omit [Crypto] in
theorem AssetUpdatePermissionsOperation.evaluate_spares (op : AssetUpdatePermissionsOperation)
    (e : EvalState) : Spares .timeInFuture (op.evaluate e) := by
  simp [evaluate, updateAuthority, updateFlagPermissions, updateActiveFlags]

theorem DepositOperation.evaluate_spares (op : DepositOperation) (e : EvalState) :
    Spares .timeInFuture (op.evaluate e) := by
  have hcondition : Spares .timeInFuture op.checkCondition := by
    unfold checkCondition
    split <;> simp
  simp [evaluate, hcondition]

theorem BurnOperation.evaluate_spares (op : BurnOperation) (e : EvalState) :
    Spares .timeInFuture (op.evaluate e) := by
  simp only [evaluate, spares_bind, spares_require, spares_expect]
  simp

theorem ClaimPacketOperation.evaluate_spares (op : ClaimPacketOperation) (e : EvalState) :
    Spares .timeInFuture (op.evaluate e) := by
  have hcondition : ∀ (r : PacketRecord) a, Spares .timeInFuture (r.conditionMet a) := by
    intro r a
    unfold PacketRecord.conditionMet
    split <;> simp
  simp only [evaluate, spares_bind]
  refine ⟨by simp, fun _ _ => ⟨by simp, fun _ _ => ⟨by simp, fun _ _ => ⟨by simp, fun _ _ =>
    ⟨hcondition _ _, fun _ _ => ?_⟩⟩⟩⟩⟩
  split <;> simp

theorem UpdateBalanceVoteOperation.evaluate_spares (op : UpdateBalanceVoteOperation)
    (e : EvalState) : Spares .timeInFuture (op.evaluate e) := by
  simp [evaluate, authorized]

theorem EvalState.evaluateOperation_spares (e : EvalState) (op : Operation) :
    Spares .timeInFuture (e.evaluateOperation op) := by
  cases op with
  | registerAccount op => exact op.evaluate_spares e
  | updateAccount op => exact op.evaluate_spares e
  | defineSlate op => exact op.evaluate_spares e
  | createAsset op => exact op.evaluate_spares e
  | assetUpdateProperties op => exact op.evaluate_spares e
  | assetUpdatePermissions op => exact op.evaluate_spares e
  | deposit op => exact op.evaluate_spares e
  | burn op => exact op.evaluate_spares e
  | claimPacket op => exact op.evaluate_spares e
  | updateBalanceVote op => exact op.evaluate_spares e
  | withdraw op => simp [evaluateOperation, WithdrawOperation.evaluate]
  | withdrawPay op => simp [evaluateOperation, WithdrawPayOperation.evaluate]
  | issueAsset op => simp [evaluateOperation, IssueAssetOperation.evaluate, IssueAssetOperation.issue]
  | assetUpdateWhitelist op => simp [evaluateOperation, AssetUpdateWhitelistOperation.evaluate]
  | ad op => simp [evaluateOperation, AdOperation.evaluate]
  | note op => simp [evaluateOperation, NoteOperation.evaluate]
  | redPacket op =>
    simp only [evaluateOperation, RedPacketOperation.evaluate, PacketRecord.leftPacketAmount,
      spares_bind, spares_require, spares_expect]
    simp
  | updateSigningKey op => simp [evaluateOperation, UpdateSigningKeyOperation.evaluate]
  | buyChips op => simp [evaluateOperation, BuyChipsOperation.evaluate]
  | data _ => simp [evaluateOperation]
  | game _ => simp [evaluateOperation]
  | unregistered _ => simp [evaluateOperation]

/-! ## Transactions -/

theorem EvalState.evaluateOperations_spares (e : EvalState) (ops : List Operation) :
    Spares .timeInFuture (e.evaluateOperations ops) := by
  induction ops generalizing e with
  | nil => simp [evaluateOperations]
  | cons op ops ih => simp [evaluateOperations, evaluateOperation_spares, ih]

/-- No script throws `time_in_future`. -/
def GameClient.SparesFuture (client : GameClient) : Prop :=
  ∀ e game data, Spares .timeInFuture (client.evaluate e game data)

theorem EvalState.evaluateOperationWith_spares {client : GameClient} (hclient : client.SparesFuture)
    (e : EvalState) (op : Operation) : Spares .timeInFuture (e.evaluateOperationWith client op) := by
  have hpay : ∀ gameId e entry, Spares .timeInFuture (EvalState.payOut gameId e entry) := by
    simp [EvalState.payOut]
  have hdata : ∀ gameId e data, Spares .timeInFuture (EvalState.putData gameId e data) := by
    intro gameId e data
    cases data <;> simp [EvalState.putData]
  cases op with
  | game op =>
    cases op with
    | create op =>
      simp [evaluateOperationWith, CreateGameOperation.evaluate, PendingLedger.newGameId,
        PendingLedger.lastGameId]
    | update op => simp [evaluateOperationWith, GameUpdateOperation.evaluate]
    | play op =>
      simp [evaluateOperationWith, GamePlayOperation.evaluate, PlayResult.apply,
        hclient e _ op.data, fun g => spares_foldlM (hpay g), fun g => spares_foldlM (hdata g)]
  | _ => simp [evaluateOperationWith, evaluateOperation_spares]

theorem ClientConfig.evaluate_spares {cfg : ClientConfig}
    (hgames : ∀ node ∈ cfg.games, node.toGameClient.SparesFuture) (ctx : EvalContext)
    (p : PendingLedger) (trx : SignedTransaction) :
    Spares .timeInFuture (cfg.evaluate ctx p trx) := by
  have hsigners : Spares .timeInFuture (signersOf ctx trx) := by
    simp [signersOf, spares_mapM]
  have hfees : ∀ e : EvalState, Spares .timeInFuture e.validateFees := fun e =>
    spares_foldlM (fun e fee => by simp [EvalState.validateFee]) _ _
  have hbase : ∀ e : EvalState, Spares .timeInFuture e.calculateBaseEquivalentFees := by
    intro e
    have hstep : ∀ total fee, Spares .timeInFuture (e.baseEquivalent total fee) := by
      intro total fee
      simp only [EvalState.baseEquivalent, spares_ite, spares_bind]
      refine ⟨by simp, fun _ => ⟨by simp, fun asset _ => ?_⟩⟩
      split <;> simp
    simp [EvalState.calculateBaseEquivalentFees, spares_foldlM hstep]
  have hvotes : ∀ e : EvalState, Spares .timeInFuture e.updateDelegateVotes := by
    intro e
    have hstep : ∀ p d, Spares .timeInFuture (PendingLedger.adjustVotesFor p d) := by
      simp [PendingLedger.adjustVotesFor]
    simp [EvalState.updateDelegateVotes, spares_foldlM hstep]
  have hrp : ∀ e : EvalState, Spares .timeInFuture e.updateRpValues := by
    intro e
    unfold EvalState.updateRpValues
    split <;> simp
  unfold ClientConfig.evaluate
  cases hnode : cfg.games with
  | none =>
    simp [evaluateLedger, evaluateToFees, hsigners, EvalState.evaluateOperations_spares, hfees, hbase,
      hvotes, hrp]
  | some node =>
    have hstep : ∀ e op, Spares .timeInFuture (EvalState.operationStep node.toGameClient e op) := by
      simp [EvalState.operationStep, EvalState.evaluateOperationWith_spares (hgames node hnode)]
    simp [evaluateLedgerWith, evaluateToFeesWith, hsigners, spares_foldlM hstep, hfees, hbase, hvotes,
      hrp]

theorem PendingState.applyTransactions_spares {run : EvalContext → PendingLedger →
      SignedTransaction → Except Error EvalState}
    (hrun : ∀ ctx p trx, Spares .timeInFuture (run ctx p trx)) (d : ChainTables) (ctx : EvalContext)
    (n : BlockNum) (trxs : List SignedTransaction) (i : Nat) (p : PendingState) :
    Spares .timeInFuture (applyTransactionsBy run d ctx n trxs i p) := by
  induction trxs generalizing i p with
  | nil => simp [applyTransactionsBy]
  | cons trx trxs ih => simp [applyTransactionsBy, evaluateBy, hrun, ih]

/-! ## The block -/

omit [Crypto] in
@[simp] theorem ChainTables.getActiveDelegates_spares (d : ChainTables) :
    Spares .timeInFuture d.getActiveDelegates := by
  unfold getActiveDelegates
  split <;> simp

omit [Crypto] in
@[simp] theorem ChainTables.getSlotSignee_spares (d : ChainTables) (t : Time) (l : List AccountId) :
    Spares .timeInFuture (d.getSlotSignee t l) := by
  simp [getSlotSignee]

namespace PendingState

theorem updateDelegateProductionInfo_spares (p : PendingState) (s : ChainState) (cfg : NodeConfig)
    (b : FullBlock) (signee : PublicKey) :
    Spares .timeInFuture (p.updateDelegateProductionInfo s cfg b signee) := by
  have hstep : ∀ l p t, Spares .timeInFuture (missSlot s cfg l p t) := by
    simp [missSlot]
  simp [updateDelegateProductionInfo, fun l => spares_foldlM (hstep l)]

theorem payDelegate_spares (p : PendingState) (s : ChainState) (signee : PublicKey) :
    Spares .timeInFuture (p.payDelegate s signee) := by
  simp [payDelegate]

omit [Crypto] in
theorem executeMarkets_spares (p : PendingState) (s : ChainState) (cfg : NodeConfig) :
    Spares .timeInFuture (p.executeMarkets s cfg) := by
  simp [executeMarkets, spares_foldlM]

theorem payOperationRewards_spares (p : PendingState) (s : ChainState) (cfg : NodeConfig)
    (n : BlockNum) : Spares .timeInFuture (p.payOperationRewards s cfg n) := by
  have hreward : ∀ now level reward acc i,
      Spares .timeInFuture (payReward now level reward acc i) := by
    simp [payReward, noteSigner]
  have hdraw : ∀ word k notes, Spares .timeInFuture (drawCombination word k notes) := by
    simp [drawCombination, spares_mapM]
  have hnotes : ∀ m, Spares .timeInFuture (notesOfDay s m) := by
    have hget : ∀ i, Spares .timeInFuture (s.getBlock i) := by
      simp [ChainState.getBlock]
    simp [notesOfDay, spares_mapM hget]
  have hday : ∀ p fees, Spares .timeInFuture (payDay p s cfg n fees) := by
    simp [payDay, payNotes, hnotes, hdraw,
      fun now level reward => spares_foldlM (hreward now level reward)]
  unfold payOperationRewards
  split <;> simp [hday]

end PendingState

theorem ChainState.verifyHeader_timeInFuture {s : ChainState} {cfg : NodeConfig} {b : FullBlock}
    {signee : PublicKey} (h : s.verifyHeader cfg b signee = .error .timeInFuture) :
    cfg.clock + BLOCK_INTERVAL_SEC * 2 < b.timestamp := by
  by_contra hle
  revert h
  change Spares Error.timeInFuture _
  simp [verifyHeader, not_lt.1 hle]

/-- **A block rejected with `time_in_future` is from the future**, unless a script says so. -/
theorem extendChainOn_timeInFuture {s : ChainState} {cfg : ClientConfig} {b : FullBlock}
    (hgames : ∀ node ∈ cfg.games, node.toGameClient.SparesFuture)
    (h : s.extendChainOn cfg b = .error .timeInFuture) :
    cfg.clock + BLOCK_INTERVAL_SEC * 2 < b.timestamp := by
  by_contra hle
  revert h
  change Spares Error.timeInFuture _
  have hheader : ∀ signee, Spares .timeInFuture (s.verifyHeader cfg.toNodeConfig b signee) :=
    fun signee h => hle (ChainState.verifyHeader_timeInFuture h)
  have hsignee : Spares .timeInFuture (s.blockSignee cfg.toNodeConfig b) := by
    simp [ChainState.blockSignee]
  have hcommit : ∀ p, Spares .timeInFuture (s.commitBlock cfg.toNodeConfig b p) := by
    simp [ChainState.commitBlock, ChainState.saveUndoState, ChainState.dropOldUndo]
  have hblock : Spares .timeInFuture (s.evaluateBlockBy cfg.evaluate cfg.toNodeConfig b) := by
    simp [ChainState.evaluateBlockBy, hheader, hsignee,
      PendingState.updateDelegateProductionInfo_spares, PendingState.payDelegate_spares,
      PendingState.executeMarkets_spares, PendingState.payOperationRewards_spares,
      PendingState.applyTransactions_spares (ClientConfig.evaluate_spares hgames)]
  -- what the scripts of the games throw after the block is caught
  unfold ClientConfig.evaluate at hblock
  unfold ChainState.extendChainOn
  split at hblock
  · simp [ChainState.extendChain, ChainState.evaluateBlock, hblock, hcommit]
  · simp [ChainState.extendChainWith, ChainState.evaluateBlockWith, hblock, hcommit]

end BitShares
