import BitShares.Ledger.Evaluation
import BitShares.Lib.Double

/-!
# Asset operations

The evaluators of `asset_operations.cpp` and `buy_chips` of `market_operations.cpp`, which prices
chips in double precision.
-/

namespace BitShares

def isPowerOfTen (n : Nat) : Bool := (List.range 16).any fun i => n = 10 ^ i

def flagBits : List UInt32 := (List.range 32).map fun i => 1 <<< UInt32.ofNat i

variable [Crypto]

/-- The account whose active key becomes the authority of a new asset: the issuing user, or the
owner of the issuing game, whose record is written back. -/
def CreateAssetOperation.authorityAccount (op : CreateAssetOperation) (p : PendingLedger) :
    Except Error (Option AccountRecord × PendingLedger) :=
  if op.issuerType = userIssuerId then do
    let account ← expect (p.getAccountRecord op.issuerId) .unknownAccountId
    return (some account, p)
  else if op.issuerType = gameIssuerId then do
    let game ← expect (p.getGameRecord op.issuerId) .unknownGameId
    let p := p.storeGameRecord game
    let account ← expect (p.getAccountRecord game.ownerAccountId) .unknownAccountId
    return (some account, p)
  else return (none, p)

def CreateAssetOperation.parentAllows (op : CreateAssetOperation) (e : EvalState) :
    Except Error Unit :=
  if '.' ∈ op.symbol.toList then do
    let parent := String.ofList (op.symbol.toList.takeWhile (· ≠ '.'))
    let record ← expect (e.pending.getAssetRecordBySymbol parent) (.assertion "")
    require record.isUserIssued (.assertion "")
    require (e.verifyAuthority record.authority) .missingSignature
  else .ok ()

/-- The record of a new asset; its authority is the address of the issuer, if there is one. -/
def CreateAssetOperation.record (op : CreateAssetOperation) (id : AssetId) (now : Time)
    (authority : Option Address) : AssetRecord where
  id := id
  symbol := op.symbol
  issuerType := op.issuerType
  issuerId := op.issuerId
  authority := match authority with
    | some a => { required := 1, owners := OrdSet.insert ∅ a }
    | none => {}
  name := op.name
  description := op.description
  publicData := op.publicData
  precision := op.precision
  maxSupply := op.maximumShareSupply
  registrationDate := now
  lastUpdate := now
  currentSupply := op.initialSupply
  currentCollateral := op.initialCollateral

def CreateAssetOperation.evaluate (op : CreateAssetOperation) (e : EvalState) :
    Except Error EvalState := do
  let valid ← isValidSymbolName op.symbol
  require valid .invalidAssetSymbol
  op.parentAllows e
  require (e.pending.getAssetRecordBySymbol op.symbol).isNone .assetSymbolInUse
  require (op.name ≠ "") .invalidAssetName
  let assetId := (← e.pending.lastAssetId) + 1
  require (e.pending.getAssetRecord assetId).isNone .assetIdInUse
  let (authority, pending) ← op.authorityAccount e.pending
  require (0 < op.maximumShareSupply ∧ op.maximumShareSupply ≤ MAX_SHARES) .invalidAssetAmount
  require (isPowerOfTen op.precision) .invalidPrecision
  let e := e.addMinFee 0 (getAssetRegistrationFee op.symbol.length)
  let (id, pending) ← pending.newAssetId
  let e := { e with
    pending := pending.storeAssetRecord
      (op.record id e.ctx.now (authority.map AccountRecord.activeAddress)) }
  let e := e.addBalance ⟨op.initialSupply, id⟩
  return e.subBalance ⟨op.initialCollateral, 0⟩

/-- What `issue_asset` does to the record: a positive id issues new shares, another one pays out
collected fees. -/
def IssueAssetOperation.issue (op : IssueAssetOperation) (r : AssetRecord) :
    Except Error AssetRecord :=
  if 0 < op.amount.assetId then do
    require (op.amount.amount ≤ r.maxSupply - r.currentSupply) .overIssue
    return { r with currentSupply := r.currentSupply + op.amount.amount }
  else do
    require (op.amount.amount ≤ r.collectedFees) .amountTooLarge
    return { r with collectedFees := r.collectedFees - op.amount.amount }

def IssueAssetOperation.evaluate (op : IssueAssetOperation) (e : EvalState) :
    Except Error EvalState := do
  let r ← expect (e.pending.getAssetRecord |op.amount.assetId|) .unknownAssetId
  require r.isUserIssued .notUserIssued
  require (e.verifyAuthority r.authority) .missingSignature
  require (0 < op.amount.amount) .negativeIssue
  let r ← op.issue r
  let e := e.addBalance ⟨op.amount.amount, |op.amount.assetId|⟩
  return { e with pending := e.pending.storeAssetRecord { r with lastUpdate := e.ctx.now } }

/-- One optional field of an update: check the new value, if there is one, and set it. -/
def AssetRecord.update {α : Type} (r : AssetRecord) (field : Option α)
    (check : α → Except Error Unit) (set : α → AssetRecord) : Except Error AssetRecord :=
  match field with
  | none => .ok r
  | some a => do
    check a
    return set a

namespace AssetUpdatePropertiesOperation

def updateIssuer (op : AssetUpdatePropertiesOperation) (e : EvalState) (r : AssetRecord) :
    Except Error AssetRecord :=
  r.update op.issuerId
    (fun id => require (e.pending.getAccountRecord id).isSome .unknownAccountId)
    (fun id => { r with issuerId := id })

def updateName (op : AssetUpdatePropertiesOperation) (r : AssetRecord) :
    Except Error AssetRecord :=
  r.update op.name (fun name => require (name ≠ "") .invalidAssetName)
    (fun name => { r with name := name })

def updateDescription (op : AssetUpdatePropertiesOperation) (r : AssetRecord) :
    Except Error AssetRecord :=
  r.update op.description (fun _ => .ok ()) (fun description => { r with description := description })

def updatePublicData (op : AssetUpdatePropertiesOperation) (r : AssetRecord) :
    Except Error AssetRecord :=
  r.update op.publicData (fun _ => .ok ()) (fun data => { r with publicData := data })

def updatePrecision (op : AssetUpdatePropertiesOperation) (r : AssetRecord) :
    Except Error AssetRecord :=
  r.update op.precision
    (fun precision => do
      require (r.currentSupply = 0) .outstandingSharesExist
      require (isPowerOfTen precision) .invalidPrecision)
    (fun precision => { r with precision := precision })

def updateMaxSupply (op : AssetUpdatePropertiesOperation) (r : AssetRecord) :
    Except Error AssetRecord :=
  r.update op.maxSupply
    (fun maxSupply => do
      require (r.currentSupply = 0 ∨ r.flagIsActive dynamicMaxSupply) .outstandingSharesExist
      require (r.currentSupply ≤ maxSupply ∧ maxSupply ≤ MAX_SHARES) .invalidAssetAmount)
    (fun maxSupply => { r with maxSupply := maxSupply })

def updateWithdrawalFee (op : AssetUpdatePropertiesOperation) (r : AssetRecord) :
    Except Error AssetRecord :=
  r.update op.withdrawalFee
    (fun fee => do
      require (r.currentSupply = 0 ∨ r.flagIsActive dynamicFees) .outstandingSharesExist
      require (0 ≤ fee ∧ fee ≤ r.maxSupply) .invalidAssetAmount)
    (fun fee => { r with withdrawalFee := fee })

def updateMarketFeeRate (op : AssetUpdatePropertiesOperation) (r : AssetRecord) :
    Except Error AssetRecord :=
  r.update op.marketFeeRate
    (fun rate => do
      require (r.currentSupply = 0 ∨ r.flagIsActive dynamicFees) .outstandingSharesExist
      require (rate ≤ MAX_UIA_MARKET_FEE_RATE) .invalidFeeRate)
    (fun rate => { r with marketFeeRate := rate })

def evaluate (op : AssetUpdatePropertiesOperation) (e : EvalState) : Except Error EvalState := do
  let r ← expect (e.pending.getAssetRecord op.assetId) .unknownAssetId
  require r.isUserIssued .notUserIssued
  require (e.verifyAuthority r.authority) .missingSignature
  require (op.issuerId.isSome ∨ op.name.isSome ∨ op.description.isSome ∨ op.publicData.isSome ∨
    op.precision.isSome ∨ op.maxSupply.isSome ∨ op.withdrawalFee.isSome ∨
    op.marketFeeRate.isSome) (.assertion "")
  let r ← op.updateIssuer e r
  let r ← op.updateName r
  let r ← op.updateDescription r
  let r ← op.updatePublicData r
  let r ← op.updatePrecision r
  let r ← op.updateMaxSupply r
  let r ← op.updateWithdrawalFee r
  let r ← op.updateMarketFeeRate r
  return { e with pending := e.pending.storeAssetRecord { r with lastUpdate := e.ctx.now } }

end AssetUpdatePropertiesOperation

namespace AssetUpdatePermissionsOperation

def updateAuthority (op : AssetUpdatePermissionsOperation) (r : AssetRecord) :
    Except Error AssetRecord :=
  r.update op.authority
    (fun authority =>
      require (1 ≤ authority.required ∧ authority.owners.entries ≠ []) .invalidAuthority)
    (fun authority => { r with authority := authority })

def updateFlagPermissions (op : AssetUpdatePermissionsOperation) (r : AssetRecord) :
    Except Error AssetRecord :=
  r.update op.authorityFlagPermissions
    (fun permissions => require (r.currentSupply ≠ 0 → flagBits.all fun bit =>
      permissions &&& bit = 0 || r.authorityHasFlagPermission bit) .outstandingSharesExist)
    (fun permissions => { r with authorityFlagPermissions := permissions })

def updateActiveFlags (op : AssetUpdatePermissionsOperation) (r : AssetRecord) :
    Except Error AssetRecord :=
  r.update op.activeFlags
    (fun flags => require (flagBits.all fun bit =>
      flags &&& bit = 0 || r.authorityHasFlagPermission bit) .permissionNotAvailable)
    (fun flags => { r with activeFlags := flags })

def evaluate (op : AssetUpdatePermissionsOperation) (e : EvalState) : Except Error EvalState := do
  let r ← expect (e.pending.getAssetRecord op.assetId) .unknownAssetId
  require r.isUserIssued .notUserIssued
  require (e.verifyAuthority r.authority) .missingSignature
  require (op.authority.isSome ∨ op.authorityFlagPermissions.isSome ∨ op.activeFlags.isSome)
    (.assertion "")
  let r ← op.updateAuthority r
  let r ← op.updateFlagPermissions r
  let r ← op.updateActiveFlags r
  return { e with pending := e.pending.storeAssetRecord { r with lastUpdate := e.ctx.now } }

end AssetUpdatePermissionsOperation

/-- `asset_update_whitelist`: anyone may change the list, no signature is asked for. -/
def AssetUpdateWhitelistOperation.evaluate (op : AssetUpdateWhitelistOperation) (e : EvalState) :
    Except Error EvalState := do
  let r ← expect (e.pending.getAssetRecord |op.assetId|) .unknownAssetId
  require r.isUserIssued .notUserIssued
  require (0 < op.assetId → r.flagIsActive restrictedDeposits) (.assertion "")
  let whitelist := if 0 < op.assetId then r.whitelist.insert op.owner else r.whitelist.erase op.owner
  return { e with pending := e.pending.storeAssetRecord { r with whitelist := whitelist } }

/-! ## Chips -/

/-- `amount * (current_collateral * 1.0 / current_supply)`, computed in doubles and truncated. -/
def chipCost (amount collateral supply : ShareType) : ShareType :=
  match Double.div (Double.ofInt64 collateral) (Double.ofInt64 supply) with
  | some price => Double.toInt64 (Double.mul (Double.ofInt64 amount) price)
  | none => Int64.minValue

/-- `buy_chips`: any asset can be bought, whoever issued it. -/
def BuyChipsOperation.evaluate (op : BuyChipsOperation) (e : EvalState) :
    Except Error EvalState := do
  require (op.amount.amount ≠ 0) .zeroAmount
  require (0 ≤ op.amount.amount) .negativeDeposit
  let r ← expect (e.pending.getAssetRecord op.amount.assetId) (.assertion "")
  let cost := chipCost op.amount.amount r.currentCollateral r.currentSupply
  let e := e.subBalance ⟨cost, 0⟩
  let condition := WithdrawCondition.withSignature op.owner op.amount.assetId 0
  let b := (e.pending.getBalanceRecord (Crypto.getAddress condition)).getD
    (.ofOwner op.owner op.amount.assetId)
  let e := { e with
    pending := e.pending.storeBalanceRecord
      { b with balance := b.balance + op.amount.amount, lastUpdate := e.ctx.now } }
  return { e with
    pending := e.pending.storeAssetRecord
      { r with
        currentCollateral := r.currentCollateral + cost
        currentSupply := r.currentSupply + op.amount.amount
        lastUpdate := e.ctx.now } }

end BitShares
