import BitShares.Ledger.Evaluation

/-!
# Account and slate operations

The evaluators of `account_operations.cpp` and `slate_operations.cpp`: registering and updating
accounts, drawing delegate pay, signing keys and slates.
-/

namespace BitShares

variable [Crypto]

/-- `get_account_record( public_key )`. -/
def PendingLedger.getAccountRecordByKey (p : PendingLedger) (key : PublicKey) :
    Option AccountRecord :=
  p.getAccountRecordByAddress (Crypto.address key)

def RegisterAccountOperation.isDelegate (op : RegisterAccountOperation) : Bool :=
  op.delegatePayRate ≤ 100

/-- The delegate part of a new account: pay rate and, from now on, the active key as signing
key. -/
def newDelegate (payRate : UInt8) (headBlockNum : BlockNum) (key : PublicKey) : DelegateStats :=
  DelegateStats.setSigningKey { payRate := payRate } headBlockNum key

/-- The record of a new account, before its keys and its delegate part are set. -/
def RegisterAccountOperation.record (op : RegisterAccountOperation) (id : AccountId) (now : Time) :
    AccountRecord where
  id := id
  name := op.name
  publicData := op.publicData
  ownerKey := op.ownerKey
  activeKeyHistory := ∅
  registrationDate := now
  lastUpdate := now
  metaData := some (op.metaData.getD ⟨.titanAccount, []⟩)

def RegisterAccountOperation.delegatePart (op : RegisterAccountOperation) (e : EvalState) :
    Except Error (Option DelegateStats × ShareType) :=
  if op.isDelegate then do
    let regFee ← e.pending.getDelegateRegistrationFee op.delegatePayRate
    return (some (newDelegate op.delegatePayRate e.ctx.headBlockNum op.activeKey), regFee)
  else .ok (none, 0)

def RegisterAccountOperation.evaluate (op : RegisterAccountOperation) (e : EvalState) :
    Except Error EvalState := do
  require (isValidAccountName op.name) .invalidAccountName
  require (e.pending.getAccountRecordByName op.name).isNone .accountAlreadyRegistered
  require (e.pending.getAccountRecordByKey op.ownerKey).isNone .accountKeyInUse
  require (e.pending.getAccountRecordByKey op.activeKey).isNone .accountKeyInUse
  require ((parentName op.name.toList).isSome → e.anyParentHasSigned op.name)
    .missingParentAccountSignature
  let (id, pending) ← e.pending.newAccountId
  let record ← (op.record id e.ctx.now).setActiveKey e.ctx.now op.activeKey
  let (delegateInfo, regFee) ← op.delegatePart e
  let e := e.addMinFee 0 (getAccountRegistrationFee op.name.length)
  let e := e.addMinFee 0 regFee
  return { e with
    pending := pending.storeAccountRecord { record with delegateInfo := delegateInfo } }

def UpdateAccountOperation.isRetracted (op : UpdateAccountOperation) : Bool :=
  op.activeKey = some nullKey

def UpdateAccountOperation.isDelegate (op : UpdateAccountOperation) : Bool :=
  op.delegatePayRate ≤ 100

/-- The active key part of an update: a change needs the owner key (or a parent's), keeps keys
unique and, to retract a delegate, an empty pay balance; no change needs the account's key. -/
def UpdateAccountOperation.updateActiveKey (op : UpdateAccountOperation) (e : EvalState)
    (r : AccountRecord) : Except Error AccountRecord :=
  match op.activeKey with
  | some key =>
    if key ≠ r.activeKey then do
      if op.isRetracted then
        require (r.isDelegate → r.payBalance ≤ 0) .payBalanceRemaining
      else require (e.pending.getAccountRecordByKey key).isNone .accountKeyInUse
      require (e.checkKey r.ownerKey ∨ e.anyParentHasSigned r.name) .missingSignature
      r.setActiveKey e.ctx.now key
    else do
      require (e.accountOrAnyParentHasSigned r) .missingSignature
      return r
  | none => do
    require (e.accountOrAnyParentHasSigned r) .missingSignature
    return r

/-- The delegate part of an update: a delegate stays one and never raises its pay rate; an account
that becomes one starts with empty statistics and owes the registration fee. -/
def UpdateAccountOperation.updateDelegate (op : UpdateAccountOperation) (e : EvalState)
    (r : AccountRecord) : Except Error (AccountRecord × ShareType) := do
  require (r.isDelegate → op.isDelegate) (.assertion "")
  if op.isDelegate then
    match r.delegateInfo with
    | some d =>
      require (op.delegatePayRate ≤ d.payRate) (.assertion "")
      return ({ r with delegateInfo := some { d with payRate := op.delegatePayRate } }, 0)
    | none =>
      let regFee ← e.pending.getDelegateRegistrationFee op.delegatePayRate
      return ({ r with
        delegateInfo := some (newDelegate op.delegatePayRate e.ctx.headBlockNum r.activeKey) },
        regFee)
  else return (r, 0)

def UpdateAccountOperation.evaluate (op : UpdateAccountOperation) (e : EvalState) :
    Except Error EvalState := do
  let r ← expect (e.pending.getAccountRecord op.accountId) .unknownAccountId
  require (!r.isRetracted) .accountRetracted
  let keyed ← op.updateActiveKey e r
  let (updated, regFee) ← op.updateDelegate e
    { keyed with publicData := op.publicData.getD r.publicData }
  return { e with
    minFees := if op.isDelegate && !r.isDelegate then addTo e.minFees 0 regFee else e.minFees
    pending := e.pending.storeAccountRecord { updated with lastUpdate := e.ctx.now } }

def WithdrawPayOperation.evaluate (op : WithdrawPayOperation) (e : EvalState) :
    Except Error EvalState := do
  require (0 < op.amount) .negativeWithdraw
  let r ← expect (e.pending.getAccountRecord |op.accountId|) .unknownAccountId
  let d ← expect r.delegateInfo .notADelegate
  require (op.amount ≤ d.payBalance) .insufficientFunds
  require (e.accountOrAnyParentHasSigned r) .missingSignature
  let e := { e with
    delegateVoteDeltas := addTo e.delegateVoteDeltas |op.accountId| (-op.amount) }
  let e := e.addBalance ⟨op.amount, 0⟩
  return { e with
    pending := e.pending.storeAccountRecord
      { r with delegateInfo := some { d with payBalance := d.payBalance - op.amount } } }

def UpdateSigningKeyOperation.evaluate (op : UpdateSigningKeyOperation) (e : EvalState) :
    Except Error EvalState := do
  let r ← expect (e.pending.getAccountRecord op.accountId) .unknownAccountId
  require (!r.isRetracted) .accountRetracted
  let d ← expect r.delegateInfo .notADelegate
  require (e.pending.getAccountRecordByKey op.signingKey).isNone .accountKeyInUse
  require (e.checkKey d.signingKey ∨ e.accountOrAnyParentHasSigned r) .missingSignature
  return { e with
    pending := e.pending.storeAccountRecord
      { r with
        delegateInfo := some (d.setSigningKey e.ctx.headBlockNum op.signingKey)
        lastUpdate := e.ctx.now } }

/-- The members of a slate, each a delegate unless its id is negative. -/
def EvalState.slateMembers (e : EvalState) : List AccountId → OrdSet AccountId →
    Except Error (OrdSet AccountId)
  | [], acc => .ok acc
  | id :: rest, acc => do
    require (0 ≤ id → (e.pending.getAccountRecord id).any (·.isDelegate)) (.assertion "")
    e.slateMembers rest (acc.insert id)

def DefineSlateOperation.evaluate (op : DefineSlateOperation) (e : EvalState) :
    Except Error EvalState := do
  require (op.slate ≠ []) (.assertion "")
  require (op.slate.length ≤ MAX_SLATE_SIZE) .tooManyDelegatesInSlate
  let members ← e.slateMembers op.slate ∅
  let record : SlateRecord := ⟨members⟩
  match e.pending.getSlateRecord record.id with
  | some current =>
    require (current.slate = record.slate) (.assertion "Slate ID collision!")
    return e
  | none => return { e with pending := e.pending.storeSlateRecord record }

end BitShares
