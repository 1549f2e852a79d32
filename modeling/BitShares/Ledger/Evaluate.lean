import BitShares.Ledger.BalanceOperations
import BitShares.Ledger.AccountOperations
import BitShares.Ledger.AssetOperations

/-!
# Evaluating a transaction

`transaction_evaluation_state::evaluate` over the ledger: the operations in order, then the fee
check, the vote deltas and the reputation of the paying account.  The checks against the table of
known transactions are in `Chain.Extend`, where that table is.
-/

namespace BitShares

variable [Crypto]

/-- `operation_factory::evaluate` with the operations of `operations.cpp`.  The game operations are
only known to a node whose game client is open. -/
def EvalState.evaluateOperation (e : EvalState) : Operation → Except Error EvalState
  | .withdraw op => op.evaluate e
  | .deposit op => op.evaluate e
  | .registerAccount op => op.evaluate e
  | .updateAccount op => op.evaluate e
  | .withdrawPay op => op.evaluate e
  | .createAsset op => op.evaluate e
  | .issueAsset op => op.evaluate e
  | .assetUpdateProperties op => op.evaluate e
  | .assetUpdatePermissions op => op.evaluate e
  | .assetUpdateWhitelist op => op.evaluate e
  | .defineSlate op => op.evaluate e
  | .burn op => op.evaluate e
  | .ad op => op.evaluate e
  | .note op => op.evaluate e
  | .redPacket op => op.evaluate e
  | .claimPacket op => op.evaluate e
  | .updateSigningKey op => op.evaluate e
  | .updateBalanceVote op => op.evaluate e
  | .data _ => .ok e
  | .buyChips op => op.evaluate e
  | .game _ | .unregistered _ => .error .unsupportedChainOperation

def EvalState.evaluateOperations : EvalState → List Operation → Except Error EvalState
  | e, [] => .ok e
  | e, op :: rest => do
    let e ← e.evaluateOperation op
    EvalState.evaluateOperations { e with currentOpIndex := e.currentOpIndex + 1 } rest

/-- One turn of `validate_fees`: check a fee against its bounds and add it to the collected fees
of its asset. -/
def EvalState.validateFee (e : EvalState) (fee : AssetId × ShareType) : Except Error EvalState := do
  require (0 ≤ fee.2) .negativeFee
  require ((e.minFees.find fee.1).all (· ≤ fee.2)) .insufficientFee
  require ((e.maxFees.find fee.1).all (fee.2 ≤ ·)) .feeGreaterThanMax
  if fee.2 ≠ 0 then
    let asset ← expect (e.pending.getAssetRecord fee.1) .unknownAssetId
    return { e with
      pending := e.pending.storeAssetRecord
        { asset with collectedFees := asset.collectedFees + fee.2 } }
  else return e

/-- `validate_fees`, which walks `fees_paid` only. -/
def EvalState.validateFees (e : EvalState) : Except Error EvalState :=
  e.feesPaid.entries.foldlM EvalState.validateFee e

/-- One turn of `calculate_base_equivalent_fees`: fees of market issued assets count at two thirds
of the feed price. -/
def EvalState.baseEquivalent (e : EvalState) (total : ShareType) (fee : AssetId × ShareType) :
    Except Error ShareType :=
  if fee.1 = 0 then .ok (total + fee.2)
  else do
    let asset ← expect (e.pending.getAssetRecord fee.1) (.assertion "")
    match (if asset.isMarketIssued then e.ctx.activeFeedPrice fee.1 else none) with
    | none => return total
    | some price =>
      let worth ← Asset.mul ⟨fee.2 * 2, fee.1⟩ price
      return total + worth.amount / 3

def EvalState.calculateBaseEquivalentFees (e : EvalState) : Except Error EvalState := do
  let total ← e.feesPaid.entries.foldlM e.baseEquivalent 0
  return { e with totalBaseEquivalentFeesPaid := total }

/-- One turn of `update_delegate_votes`. -/
def PendingLedger.adjustVotesFor (p : PendingLedger) (delta : AccountId × ShareType) :
    Except Error PendingLedger := do
  let r ← expect (p.getAccountRecord delta.1) (.assertion "")
  let d ← expect r.delegateInfo (.assertion "")
  return p.storeAccountRecord
    { r with delegateInfo := some { d with votesFor := d.votesFor + delta.2 } }

def EvalState.updateDelegateVotes (e : EvalState) : Except Error EvalState := do
  let pending ← e.delegateVoteDeltas.entries.foldlM PendingLedger.adjustVotesFor e.pending
  return { e with pending := pending }

def EvalState.updateRpValues (e : EvalState) : Except Error EvalState :=
  match e.rpAccountId with
  | none => .ok e
  | some id => do
    let r ← expect (e.pending.getAccountRecord id) (.assertion "")
    return { e with
      pending := e.pending.storeAccountRecord { r with rp := r.rp + e.totalBaseEquivalentFeesPaid } }

def signersOf (ctx : EvalContext) (trx : SignedTransaction) : Except Error (List Address) :=
  if ctx.skipSignatureCheck then .ok []
  else do
    let keys ← trx.signatures.mapM fun sig =>
      expect (Crypto.recover sig (Crypto.transactionDigest trx.toTransaction)) (.assertion "")
    return keys.flatMap fun key => Crypto.address key :: Crypto.ptsAddresses key

def EvalState.start (ctx : EvalContext) (p : PendingLedger) (trx : SignedTransaction)
    (signers : List Address) : EvalState :=
  { ctx := ctx, pending := p, trx := trx, signedAddresses := signers }

/-- `evaluate` up to the end of the operation loop. -/
def evaluateToFees (ctx : EvalContext) (p : PendingLedger) (trx : SignedTransaction) :
    Except Error EvalState := do
  let signers ← signersOf ctx trx
  (EvalState.start ctx p trx signers).evaluateOperations trx.operations

/-- `evaluate` from the signatures on: operations, fees, votes, reputation. -/
def evaluateLedger (ctx : EvalContext) (p : PendingLedger) (trx : SignedTransaction) :
    Except Error EvalState := do
  let e ← evaluateToFees ctx p trx
  let e ← e.validateFees
  let e ← e.calculateBaseEquivalentFees
  let e ← e.updateDelegateVotes
  e.updateRpValues

end BitShares
