import BitShares.Lib.OrdMap
import BitShares.Wallet.Database
import Mathlib.Data.Prod.Lex

/-!
# The transaction builder

`transaction_builder`: what the accounts of a transaction owe or are owed, how the fee is paid from
it, and how `finalize` turns it into withdrawals and deposits.  Amounts are in 64 bits.  What the
builder asks of the wallet and of the chain is its context; of the records of the wallet only those
of accounts and keys are read.
-/

namespace BitShares

abbrev OutstandingKey := Address ×ₗ AssetId

abbrev OutstandingBalances := OrdMap OutstandingKey ShareType

structure TransactionBuilder where
  outstandingBalances : OutstandingBalances := ∅
  orderKeys : Table Address PublicKey := ∅
  requiredSignatures : Finset Address := ∅
  operations : List Operation := []
  /-- `transaction_record.fee`. -/
  fee : Asset := ⟨0, 0⟩

structure BuilderContext where
  wallet : WalletDb
  /-- `_balance_records`, in the order of the unordered map. -/
  balanceRecords : List BalanceRecord
  /-- The time of the pending state. -/
  now : Time
  /-- The fee of the wallet's settings. -/
  priorityFee : Asset
  getAssetRecord : AssetId → Option AssetRecord
  getActiveFeedPrice : AssetId → Option Price
  /-- The text of a public key. -/
  keyText : PublicKey → String
  /-- `get_new_public_key`. -/
  getNewPublicKey : String → Except Error PublicKey
  /-- `get_delegate_slate` of the vote strategy; without delegates for `vote_none`. -/
  getDelegateSlate : SlateRecord
  /-- Whether the chain has a slate of this id. -/
  hasSlateRecord : SlateId → Bool

/-! ## Fees and balances -/

namespace BuilderContext

def lookupAccount (ctx : BuilderContext) (a : Address) : Option AccountRecord :=
  ((ctx.wallet.addressToAccountWalletRecordIndex.lookup a).bind ctx.wallet.accounts.lookup).map
    (·.data)

def lookupKey (ctx : BuilderContext) (a : Address) : Option KeyData :=
  ((ctx.wallet.btcToBtsAddress.lookup a).bind ctx.wallet.keys.lookup).map (·.data)

def getTransactionFee (ctx : BuilderContext) (a : AssetId) : Except Error Asset := do
  if a = 0 then return ctx.priorityFee
  let r ← expect (ctx.getAssetRecord a) (.assertion "asset_record.valid()")
  if r.isMarketIssued then
    match ctx.getActiveFeedPrice r.id with
    | none => return ctx.priorityFee
    | some price =>
      let twice ← ctx.priorityFee.add ctx.priorityFee
      let fee ← ctx.priorityFee.add twice
      fee.mul price
  else if r.isUserIssued then return ⟨r.withdrawalFee, r.id⟩
  else return ctx.priorityFee

def assetCanPayNetworkFee (ctx : BuilderContext) (a : AssetId) : Except Error Bool := do
  let r ← expect (ctx.getAssetRecord a) (.assertion "asset_record.valid()")
  if r.isUserIssued then return false
  let fee ← ctx.getTransactionFee r.id
  return fee.assetId = r.id

/-- The name that `get_spendable_account_balance_records` lists a record under. -/
def spendableName (ctx : BuilderContext) (r : BalanceRecord) : Option String :=
  match r.condition.data with
  | .signature owner _ =>
    if r.balance = 0 then none
    else match ctx.lookupKey owner with
      | none => none
      | some key =>
        if key.hasPrivateKey then
          some (match ctx.lookupAccount key.accountAddress with
            | some account => account.name
            | none => ctx.keyText key.publicKey)
        else none
  | _ => none

/-- `get_spendable_account_balance_records`: those of one name. -/
def spendableRecords (ctx : BuilderContext) (name : String) : List BalanceRecord :=
  ctx.balanceRecords.filter fun r => ctx.spendableName r = some name

end BuilderContext

/-- `balances[ a ] += x`. -/
def addAmount (m : OrdMap AssetId ShareType) (a : AssetId) (x : ShareType) :
    OrdMap AssetId ShareType :=
  m.set a (m.getD a 0 + x)

/-- `get_spendable_account_balances`: those of one name. -/
def BuilderContext.spendableBalances (ctx : BuilderContext) (name : String) :
    OrdMap AssetId ShareType :=
  (ctx.spendableRecords name).foldl (fun m r => addAmount m r.assetId r.balance) ∅

namespace TransactionBuilder

/-! ## Low-level balance manipulation -/

def deductBalance (account : Address) (amount : Asset) (b : TransactionBuilder) :
    Except Error TransactionBuilder := do
  require (0 ≤ amount.amount)
    (.assertion "Don't deduct a negative amount. Call credit_balance instead.")
  let k : OutstandingKey := toLex (account, amount.assetId)
  let balance := b.outstandingBalances.getD k 0 - amount.amount
  return { b with outstandingBalances := b.outstandingBalances.set k balance }

/-! ## Paying the fee -/

def allPositiveBalances (b : TransactionBuilder) : OrdMap AssetId ShareType :=
  b.outstandingBalances.entries.foldl
    (fun m e => if 0 < e.2 then addAmount m (ofLex e.1).2 e.2 else m) ∅

def offeredFee (ctx : BuilderContext) (e : AssetId × ShareType) : Except Error (Option Asset) := do
  if ← ctx.assetCanPayNetworkFee e.1 then
    let fee ← ctx.getTransactionFee e.1
    return if fee.amount ≤ e.2 then some fee else none
  else return none

/-- The loop of `pay_fee` over the outstanding balances, or `none` if they end before the fee is
paid. -/
def takeFee (asset : AssetId) : List (OutstandingKey × ShareType) → ShareType →
    OutstandingBalances → Option OutstandingBalances
  | [], _, _ => none
  | (k, x) :: entries, required, m =>
    if (ofLex k).2 ≠ asset then takeFee asset entries required m
    else if x < required then takeFee asset entries (required - x) (m.set k 0)
    else some (m.set k (x - required))

/-- The balances that `withdraw_fee` looks at: those of the accounts of the outstanding balances. -/
def feeCandidates (ctx : BuilderContext) (b : TransactionBuilder) : List (Address × Asset) :=
  b.outstandingBalances.entries.flatMap fun e =>
    match ctx.lookupAccount (ofLex e.1).1 with
    | none => []
    | some account =>
      (ctx.spendableBalances account.name).entries.map fun x => ((ofLex e.1).1, ⟨x.2, x.1⟩)

def chargedFee (ctx : BuilderContext) (c : Address × Asset) :
    Except Error (Option (Address × Asset)) := do
  let fee ← ctx.getTransactionFee c.2.assetId
  return if fee.assetId ≠ c.2.assetId ∨ c.2.amount < fee.amount then none else some (c.1, fee)

def withdrawFee (ctx : BuilderContext) (b : TransactionBuilder) :
    Except Error (Option TransactionBuilder) := do
  match ← (b.feeCandidates ctx).findSomeM? (chargedFee ctx) with
  | none => return none
  | some (bagHolder, fee) =>
    let b ← b.deductBalance bagHolder fee
    return some { b with fee := fee }

def unableToPayFee : Error :=
  .assertion "Unable to pay fee; no remaining balances can cover it and no account can pay it."

def payFee (ctx : BuilderContext) (b : TransactionBuilder) : Except Error TransactionBuilder := do
  let chosen ← b.allPositiveBalances.entries.findSomeM? (offeredFee ctx)
  let requiredFee := chosen.getD ⟨0, -1⟩
  if requiredFee.assetId ≠ -1 then
    let balances ← expect (takeFee requiredFee.assetId b.outstandingBalances.entries
      requiredFee.amount b.outstandingBalances) unableToPayFee
    return { b with outstandingBalances := balances, fee := requiredFee }
  else
    let paid ← b.withdrawFee ctx
    expect paid unableToPayFee

end TransactionBuilder

/-! ## Withdrawals and deposits -/

namespace TransactionBuilder

def orderKeyForAccount (ctx : BuilderContext) (account : Address) (name : String)
    (b : TransactionBuilder) : Except Error (PublicKey × TransactionBuilder) := do
  let key := (b.orderKeys.lookup account).getD nullKey
  if key = nullKey then
    let key ← ctx.getNewPublicKey name
    return (key, { b with orderKeys := b.orderKeys.insert account key })
  else return (key, { b with orderKeys := b.orderKeys.insert account key })

def depositToAddress (amount : Asset) (recipient : Address) (b : TransactionBuilder) :
    TransactionBuilder :=
  { b with operations := b.operations ++
      [.deposit ⟨amount.amount, .withSignature recipient amount.assetId 0⟩] }

/-- `transaction::withdraw`, and the signature it needs. -/
def withdraw (id : BalanceId) (amount : ShareType) (owner : Address) (b : TransactionBuilder) :
    Except Error TransactionBuilder := do
  require (0 < amount) (.assertion "amount > 0")
  return { b with
    operations := b.operations ++ [.withdraw ⟨id, amount⟩]
    requiredSignatures := insert owner b.requiredSignatures }

variable [Crypto]

/-- The loop of `withdraw_to_transaction` over the spendable records of the account. -/
def withdrawFrom (ctx : BuilderContext) (asset : AssetId) : List BalanceRecord → ShareType →
    TransactionBuilder → Except Error TransactionBuilder
  | [], _, _ => .error .insufficientFunds
  | r :: records, remaining, b => do
    let balance ← r.getSpendableBalance ctx.now
    if balance ≤ 0 ∨ r.assetId ≠ asset then withdrawFrom ctx asset records remaining b
    else match r.condition.owner with
      | none => withdrawFrom ctx asset records remaining b
      | some owner =>
        if balance < remaining then
          let b ← b.withdraw r.id balance owner
          withdrawFrom ctx asset records (remaining - balance) b
        else b.withdraw r.id remaining owner

def withdrawToTransaction (ctx : BuilderContext) (amount : Asset) (name : String)
    (b : TransactionBuilder) : Except Error TransactionBuilder := do
  require (name ≠ "") (.assertion "!from_account_name.empty()")
  withdrawFrom ctx amount.assetId (ctx.spendableRecords name) amount.amount b

/-- One outstanding balance in `finalize`. -/
def settle (ctx : BuilderContext) (b : TransactionBuilder) (e : OutstandingKey × ShareType) :
    Except Error TransactionBuilder := do
  let account ← expect (ctx.lookupAccount (ofLex e.1).1) (.assertion "lookup_account")
  if 0 < e.2 then
    let (key, b) ← b.orderKeyForAccount ctx (ofLex e.1).1 account.name
    return b.depositToAddress ⟨e.2, (ofLex e.1).2⟩ (Crypto.address key)
  else if e.2 < 0 then b.withdrawToTransaction ctx ⟨-e.2, (ofLex e.1).2⟩ account.name
  else return b

/-- One operation in `set_slates`. -/
def withSlate (slateId : SlateId) : Operation → Operation
  | .deposit op =>
    if op.condition.assetId = 0 then
      .deposit { op with condition := { op.condition with slateId := slateId } }
    else .deposit op
  | .updateBalanceVote op => .updateBalanceVote { op with newSlate := slateId }
  | op => op

def setDelegateSlate (ctx : BuilderContext) (b : TransactionBuilder) : TransactionBuilder :=
  let slateId := ctx.getDelegateSlate.id
  if slateId = 0 then b
  else
    let defined := if ctx.hasSlateRecord slateId then []
      else [.defineSlate ⟨ctx.getDelegateSlate.slate.toList⟩]
    { b with operations := (b.operations ++ defined).map (withSlate slateId) }

/-- `finalize`, up to the times and the id of the transaction. -/
def finalize (ctx : BuilderContext) (payFee : Bool) (b : TransactionBuilder) :
    Except Error TransactionBuilder := do
  require (b.operations ≠ []) (.assertion "Cannot finalize empty transaction")
  let b ← if payFee then b.payFee ctx else pure b
  let b ← b.outstandingBalances.entries.foldlM (settle ctx) b
  return b.setDelegateSlate ctx

end TransactionBuilder

end BitShares
