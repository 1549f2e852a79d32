import BitShares.Ledger.Pending

/-!
# The evaluation state of a transaction

`transaction_evaluation_state`: what is tracked while the operations of one transaction run (fees
paid and required, vote deltas, the signers), the helpers operations call, and the naming rules
of `chain_interface.cpp`.
-/

namespace BitShares

/-- What an evaluation reads of the chain below the pending state: the head's time and number, the
active feed prices, and whether signatures are verified at all. -/
structure EvalContext where
  now : Time
  headBlockNum : BlockNum
  activeFeedPrice : AssetId → Option Price
  skipSignatureCheck : Bool

structure EvalState where
  ctx : EvalContext
  pending : PendingLedger
  trx : SignedTransaction
  signedAddresses : List Address := []
  minFees : OrdMap AssetId ShareType := ∅
  maxFees : OrdMap AssetId ShareType := ∅
  feesPaid : OrdMap AssetId ShareType := ∅
  totalBaseEquivalentFeesPaid : ShareType := 0
  delegateVoteDeltas : OrdMap AccountId ShareType := ∅
  yieldClaimed : OrdMap AssetId ShareType := ∅
  opDeltas : OrdMap Nat (OrdMap AssetId ShareType) := ∅
  rpAccountId : Option AccountId := none
  currentOpIndex : Nat := 0

/-- `m[ k ] += amount` on a map of amounts. -/
def addTo {K : Type} [LinearOrder K] (m : OrdMap K ShareType) (k : K) (amount : ShareType) :
    OrdMap K ShareType :=
  m.set k (m.getD k 0 + amount)

theorem getD_addTo {K : Type} [LinearOrder K] (m : OrdMap K ShareType) (k k' : K)
    (amount : ShareType) :
    (addTo m k amount).getD k' 0 = if k' = k then m.getD k' 0 + amount else m.getD k' 0 := by
  unfold addTo
  rw [OrdMap.getD_set]
  split
  · subst k'; rfl
  · rfl

/-! ## Names and symbols -/

/-- `get_parent_account_name`: what follows the first dot. -/
def parentName : List Char → Option (List Char)
  | [] => none
  | c :: rest => if c = '.' then some rest else parentName rest

def nameEnd (c : Char) : Bool := c.isAlphanum && !c.isUpper

/-- `is_valid_account_name`, one dotted part after the other. -/
def validAccountName : Nat → List Char → Bool
  | 0, _ => false
  | fuel + 1, name =>
    let subname := name.takeWhile (· ≠ '.')
    if name.length < MIN_NAME_SIZE || MAX_NAME_SIZE < name.length then false
    else if !(name.head?.any Char.isAlpha) then false
    else if !(name.getLast?.any nameEnd) then false
    else if !(subname.getLast?.any nameEnd) then false
    else if !(subname.all fun c => nameEnd c || c = '-') then false
    else
      match parentName name with
      | some supername => if supername.isEmpty then true else validAccountName fuel supername
      | none => true

def isValidAccountName (name : String) : Bool := validAccountName (name.length + 1) name.toList

/-- The character loop of `is_valid_symbol_name`: the number of dots and the last dot's place. -/
def scanSymbol : List Char → Nat → Nat → Nat → Except Error (Nat × Nat)
  | [], _, dots, dotPosition => .ok (dots, dotPosition)
  | c :: rest, position, dots, dotPosition =>
    if c = '.' then
      if 1 < dots + 1 then .error (.assertion "Symbol names can have at most one dot")
      else scanSymbol rest (position + 1) (dots + 1) position
    else if dots = 0 && !c.isUpper then
      .error (.assertion "Primary symbol names can only contain uppercase letters")
    else if !c.isUpper && !c.isDigit then
      .error (.assertion "Sub-symbol names can only contain uppercase letters or digits")
    else scanSymbol rest (position + 1) dots dotPosition

def isValidSymbolName (symbol : String) : Except Error Bool := do
  let cs := symbol.toList
  require (MIN_SYMBOL_SIZE ≤ cs.length) (.assertion "Symbol name too small")
  let (dots, dotPosition) ← scanSymbol cs 0 0 0
  if cs.getLast? = some '.' then return false
  if cs.head? = some '.' then return false
  if dots = 0 then
    require (cs.length ≤ MAX_SUB_SYMBOL_SIZE) (.assertion "Symbol name too large")
  else
    require (cs.length - dotPosition - 1 ≤ MAX_SUB_SYMBOL_SIZE)
      (.assertion "Sub-symbol name too large")
    require (cs.length ≤ MAX_SYMBOL_SIZE) (.assertion "Symbol name too large")
  require (cs.take 3 ≠ "BIT".toList) (.assertion "Symbol names cannot be prefixed with BIT")
  return true

/-! ## Registration fees -/

/-- `get_max_delegate_pay_issued_per_block` from the base asset's collected fees. -/
def maxDelegatePayIssuedPerBlock (collectedFees : ShareType) : ShareType :=
  collectedFees / Int64.ofInt (BLOCKS_PER_DAY * 14)

def PendingLedger.getDelegateRegistrationFee (p : PendingLedger) (payRate : UInt8) :
    Except Error ShareType :=
  if payRate = 0 then .ok 0
  else do
    let base ← expect (p.getAssetRecord 0) (.assertion "")
    let maxTotal :=
      Int64.ofInt (14 * BLOCKS_PER_DAY) * maxDelegatePayIssuedPerBlock base.collectedFees
    return maxTotal / Int64.ofInt NUM_DELEGATES * Int64.ofInt payRate.toNat / 100

def getAssetRegistrationFee (symbolLength : Nat) : ShareType :=
  if symbolLength ≤ 5 then 100 * (5000 * PRECISION) else 5000 * PRECISION

def getAccountRegistrationFee (nameLength : Nat) : ShareType :=
  if 6 < nameLength then 1 * PRECISION
  else if 4 < nameLength then 1000 * PRECISION
  else if 1 < nameLength then 10000 * PRECISION
  else 100000 * PRECISION

namespace EvalState

section

variable [Crypto]

/-! ## Signatures -/

def checkSignature (e : EvalState) (a : Address) : Bool :=
  e.ctx.skipSignatureCheck || e.signedAddresses.contains a

def checkKey (e : EvalState) (k : PublicKey) : Bool := e.checkSignature (Crypto.address k)

def signatureCount (e : EvalState) (owners : OrdSet Address) : Nat :=
  (owners.toList.filter fun a => e.checkSignature a).length

def verifyAuthority (e : EvalState) (siginfo : MultisigMetaInfo) : Bool :=
  siginfo.required ≤ e.signatureCount siginfo.owners

/-- The loop of `any_parent_has_signed` over the dotted suffixes of a name. -/
def parentHasSigned (e : EvalState) : Nat → List Char → Bool
  | 0, _ => false
  | fuel + 1, name =>
    match parentName name with
    | none => false
    | some parent =>
      match e.pending.getAccountRecordByName (String.ofList parent) with
      | none => parentHasSigned e fuel parent
      | some r =>
        if r.isRetracted then parentHasSigned e fuel parent
        else if e.checkKey r.activeKey then true
        else if e.checkKey r.ownerKey then true
        else parentHasSigned e fuel parent

def anyParentHasSigned (e : EvalState) (name : String) : Bool :=
  e.parentHasSigned (name.length + 1) name.toList

def accountOrAnyParentHasSigned (e : EvalState) (r : AccountRecord) : Bool :=
  (!r.isRetracted && (e.checkKey r.activeKey || e.checkKey r.ownerKey)) ||
    e.anyParentHasSigned r.name

end

/-! ## Moving shares and votes -/

/-- `op_deltas[ index ][ asset ] += amount`. -/
def addDelta (e : EvalState) (a : AssetId) (amount : ShareType) :
    OrdMap Nat (OrdMap AssetId ShareType) :=
  e.opDeltas.set e.currentOpIndex (addTo (e.opDeltas.getD e.currentOpIndex ∅) a amount)

def subBalance (e : EvalState) (amount : Asset) : EvalState :=
  { e with
    feesPaid := addTo e.feesPaid amount.assetId (-amount.amount)
    opDeltas := e.addDelta amount.assetId amount.amount }

def addBalance (e : EvalState) (amount : Asset) : EvalState :=
  { e with
    feesPaid := addTo e.feesPaid amount.assetId amount.amount
    opDeltas := e.addDelta amount.assetId (-amount.amount) }

@[simp] theorem subBalance_pending (e : EvalState) (a : Asset) :
    (e.subBalance a).pending = e.pending := rfl

@[simp] theorem addBalance_pending (e : EvalState) (a : Asset) :
    (e.addBalance a).pending = e.pending := rfl

@[simp] theorem subBalance_ctx (e : EvalState) (a : Asset) : (e.subBalance a).ctx = e.ctx := rfl

@[simp] theorem addBalance_ctx (e : EvalState) (a : Asset) : (e.addBalance a).ctx = e.ctx := rfl

/-- The loop of `adjust_vote` over the members of a slate. -/
def adjustDeltas (deltas : OrdMap AccountId ShareType) (amount : ShareType) :
    List AccountId → OrdMap AccountId ShareType
  | [] => deltas
  | id :: rest => adjustDeltas (if 0 ≤ id then addTo deltas id amount else deltas) amount rest

def adjustVote (e : EvalState) (slateId : SlateId) (amount : ShareType) :
    Except Error EvalState :=
  if slateId = 0 then .ok e
  else do
    let slate ← expect (e.pending.getSlateRecord slateId) .unknownDelegateSlate
    return { e with
      delegateVoteDeltas := adjustDeltas e.delegateVoteDeltas amount slate.slate.toList }

/-- The vote of a balance moves with its shares, if they are base shares. -/
def adjustBaseVote (e : EvalState) (c : WithdrawCondition) (amount : ShareType) :
    Except Error EvalState :=
  if c.assetId = 0 then e.adjustVote c.slateId amount else .ok e

def addMinFee (e : EvalState) (a : AssetId) (amount : ShareType) : EvalState :=
  { e with minFees := addTo e.minFees a amount }

@[simp] theorem addMinFee_pending (e : EvalState) (a : AssetId) (amount : ShareType) :
    (e.addMinFee a amount).pending = e.pending := rfl

@[simp] theorem addMinFee_ctx (e : EvalState) (a : AssetId) (amount : ShareType) :
    (e.addMinFee a amount).ctx = e.ctx := rfl

end EvalState

end BitShares
