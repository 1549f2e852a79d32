import BitShares.Ledger.Evaluation
import BitShares.Ledger.Combinatorics

/-!
# Balance operations

The evaluators of `balance_operations.cpp` that are registered: deposits, withdrawals, burns, ads,
notes, red packets and their claims, and vote updates.
-/

namespace BitShares

variable [Crypto]

/-- Pay `amount` to the plain balance of `owner`, made now if there is none: how ad income, packet
shares, note rewards and market payouts reach their owner. -/
def PendingLedger.creditOwner (p : PendingLedger) (now : Time) (owner : Address) (amount : Asset) :
    PendingLedger :=
  let id := Crypto.getAddress (.withSignature owner amount.assetId 0)
  let r := (p.getBalanceRecord id).getD (.ofOwner owner amount.assetId)
  p.storeBalanceRecord
    { r with balance := r.balance + amount.amount, lastUpdate := now, depositDate := now }

/-- The deposit date of a balance that holds `oldAmount` since `oldDate` and receives `amount`
now: the amount-weighted average, in 128 bits and truncated to 32. -/
def averageDate (oldDate now : Time) (oldAmount amount : ShareType) : Except Error Time :=
  if oldAmount = 0 then .ok now
  else do
    let w : Nat := 2 ^ 128
    let weight (a : ShareType) : Nat := (a.toInt % w).toNat
    require (oldAmount + amount ≠ 0) .divideByZero
    return (oldDate * weight oldAmount + now * weight amount) % w / weight (oldAmount + amount)
      % 2 ^ 32

/-! ## Deposit -/

def DepositOperation.checkCondition (op : DepositOperation) : Except Error Unit :=
  match op.condition.data with
  | .signature _ _ | .multisig _ _ _ | .escrow _ _ _ _ _ => .ok ()
  | .malformed type _ => require (type ≠ 2) .invalidWithdrawCondition
  | .vesting _ _ _ _ | .unsupported _ _ => .error .invalidWithdrawCondition

def DepositOperation.target (op : DepositOperation) (e : EvalState) : BalanceRecord :=
  (e.pending.getBalanceRecord (Crypto.getAddress op.condition)).getD
    { condition := op.condition
      metaData := match op.condition.data with
        | .escrow _ _ _ _ _ => some (Crypto.transactionId e.trx)
        | _ => none }

def DepositOperation.evaluate (op : DepositOperation) (e : EvalState) :
    Except Error EvalState := do
  require (0 < op.amount) .negativeDeposit
  require (op.amount ≤ 100000000000000) .negativeDeposit
  op.checkCondition
  let r := op.target e
  let depositDate ← averageDate r.depositDate e.ctx.now r.balance op.amount
  let e := e.subBalance ⟨op.amount, r.assetId⟩
  let e ← e.adjustBaseVote r.condition op.amount
  let asset ← expect (e.pending.getAssetRecord r.assetId) (.assertion "")
  require (asset.isMarketIssued → r.slateId = 0) (.assertion "")
  let owners ← r.condition.owners
  require (owners.all asset.addressIsWhitelisted) (.assertion "")
  return { e with
    pending := e.pending.storeBalanceRecord
      { r with
        balance := r.balance + op.amount
        depositDate := depositDate
        lastUpdate := e.ctx.now } }

/-! ## Withdraw -/

/-- The signatures a withdrawal needs under its balance's condition. -/
def EvalState.withdrawSigned (e : EvalState) (c : WithdrawCondition) : Except Error Unit :=
  match c.data with
  | .signature owner _ => require (e.checkSignature owner) .missingSignature
  | .vesting owner _ _ _ => require (e.checkSignature owner) .missingSignature
  | .multisig required owners _ => require (required ≤ e.signatureCount owners) .missingSignature
  | .malformed type _ =>
    if type = 6 then .error .invalidWithdrawCondition else .error (.assertion "unpack")
  | .escrow _ _ _ _ _ | .unsupported _ _ => .error .invalidWithdrawCondition

/-- The checks a withdrawal skips when the asset's authority takes shares back. -/
def EvalState.withdrawAllowed (e : EvalState) (asset : AssetRecord) (c : WithdrawCondition) :
    Except Error Unit :=
  if asset.flagIsActive retractableBalances && e.verifyAuthority asset.authority then .ok ()
  else do
    require (!asset.flagIsActive haltedWithdrawals) (.assertion "")
    e.withdrawSigned c

/-- A withdrawal of a market issued asset first claims the yield of the whole balance. -/
def EvalState.claimYield (e : EvalState) (asset : AssetRecord) (r : BalanceRecord) :
    EvalState × BalanceRecord :=
  let yield := r.calculateYield e.ctx.now r.balance asset.collectedFees asset.currentSupply
  if asset.isMarketIssued ∧ 0 < yield then
    ({ e with
        yieldClaimed := addTo e.yieldClaimed r.assetId yield
        pending := e.pending.storeAssetRecord
          { asset with collectedFees := asset.collectedFees - yield } },
      { r with balance := r.balance + yield, depositDate := e.ctx.now })
  else (e, r)

/-- The withdrawal fee of the asset becomes a minimum fee, unless its authority signed. -/
def EvalState.requireWithdrawalFee (e : EvalState) (asset : AssetRecord) : EvalState :=
  if asset.withdrawalFee ≠ 0 ∧ !e.verifyAuthority asset.authority then
    { e with minFees := e.minFees.set asset.id (max asset.withdrawalFee (e.minFees.getD asset.id 0)) }
  else e

def WithdrawOperation.evaluate (op : WithdrawOperation) (e : EvalState) :
    Except Error EvalState := do
  require (0 < op.amount) .negativeWithdraw
  let r ← expect (e.pending.getBalanceRecord op.balanceId) .unknownBalanceRecord
  let spendable ← r.getSpendableBalance e.ctx.now
  require (op.amount ≤ spendable) .insufficientFunds
  let asset ← expect (e.pending.getAssetRecord r.assetId) (.assertion "")
  e.withdrawAllowed asset r.condition
  let e ← e.adjustBaseVote r.condition (-op.amount)
  let (e, r) := e.claimYield asset r
  let e := { e with
    pending := e.pending.storeBalanceRecord
      { r with balance := r.balance - op.amount, lastUpdate := e.ctx.now } }
  let e := e.requireWithdrawalFee asset
  return e.addBalance ⟨op.amount, r.assetId⟩

/-! ## Burn -/

def BurnOperation.evaluate (op : BurnOperation) (e : EvalState) : Except Error EvalState := do
  require (0 < op.amount.amount) .negativeDeposit
  require (op.message ≠ "" → op.amount.assetId = 0) (.assertion "")
  let messageKb := op.message.utf8ByteSize / 1024 + 1
  require (op.amount.assetId = 0 → Int64.ofInt messageKb * MIN_BURN_FEE ≤ op.amount.amount)
    (.assertion
      "Message of size $\x7bs\x7d KiB requires at least $\x7ba\x7d satoshis to be burned!")
  let asset ← expect (e.pending.getAssetRecord op.amount.assetId) (.assertion "")
  require (!asset.isMarketIssued) (.assertion "")
  let e := e.subBalance op.amount
  let e := { e with
    pending := e.pending.storeAssetRecord
      { asset with currentSupply := asset.currentSupply - op.amount.amount } }
  require (op.accountId ≠ 0 → (e.pending.getAccountRecord |op.accountId|).isSome) (.assertion "")
  let record : BurnRecord :=
    ⟨⟨op.accountId, Crypto.transactionId e.trx⟩, op.amount, op.message, op.messageSignature⟩
  require (e.pending.burns.lookup record.index).isNone (.assertion "")
  return { e with pending := e.pending.storeBurnRecord record }

/-! ## Ads and notes -/

/-- `signer_key()` of a message record: the key recovered from the signature over the digest. -/
def signerKey (signer : Option Signature) (digest : Digest) : Except Error PublicKey := do
  let sig ← expect signer (.assertion "")
  expect (Crypto.recover sig digest) (.assertion "")

def AdOperation.evaluate (op : AdOperation) (e : EvalState) : Except Error EvalState := do
  require (0 < op.amount.amount) .negativeDeposit
  require (op.message ≠ "") (.assertion "")
  require (op.amount.assetId = 0) (.assertion "")
  let messageKb := op.message.utf8ByteSize / 400 + 1
  let requiredFee := Int64.ofInt messageKb * MIN_AD_FEE
  require (requiredFee ≤ op.amount.amount)
    (.assertion "Message of size $\x7bs\x7d KiB requires at least $\x7ba\x7d satoshis to be pay!")
  let e := e.addMinFee op.amount.assetId requiredFee
  require (op.ownerAccountId ≠ 0) (.assertion "")
  let owner ← expect (e.pending.getAccountRecord |op.ownerAccountId|) (.assertion "")
  let adPay := op.amount.amount - requiredFee
  let e := { e with pending := e.pending.creditOwner e.ctx.now owner.activeAddress ⟨adPay, 0⟩ }
  let e := e.subBalance ⟨adPay, op.amount.assetId⟩
  require (op.publisherAccountId ≠ 0) (.assertion "")
  let publisher ← expect (e.pending.getAccountRecord |op.publisherAccountId|) (.assertion "")
  let e := { e with rpAccountId := some |op.publisherAccountId| }
  let record : AdRecord :=
    ⟨⟨op.ownerAccountId, Crypto.transactionId e.trx⟩, op.amount, op.publisherAccountId,
      op.messageSignature, op.message⟩
  let signer ← signerKey record.signer (Crypto.messageDigest op.message)
  require (publisher.activeKey = signer) (.assertion "")
  require (e.pending.ads.lookup record.index).isNone (.assertion "")
  return { e with pending := e.pending.storeAdRecord record }

def NoteOperation.evaluate (op : NoteOperation) (e : EvalState) : Except Error EvalState := do
  require (0 < op.amount.amount) .negativeDeposit
  let message ← expect op.message (.assertion "")
  require (message.data ≠ []) (.assertion "")
  require (op.amount.assetId = 0) (.assertion "")
  let messageKb := message.data.length / 1024 + 1
  require (Int64.ofInt messageKb * MIN_NOTE_FEE ≤ op.amount.amount)
    (.assertion
      "Message of size $\x7bs\x7d KiB requires at least $\x7ba\x7d satoshis to be burned!")
  -- three tenths are a fee, the rest joins the reward pool of the operation
  let e := e.addMinFee op.amount.assetId (op.amount.amount * 3 / 10)
  let reward ← expect (e.pending.operationRewards.lookup noteOpType) (.assertion "")
  let rewardFee := op.amount.amount - op.amount.amount * 3 / 10
  let e := e.subBalance ⟨rewardFee, op.amount.assetId⟩
  let e := { e with
    pending := e.pending.storeOperationRewardRecord
      { reward with fees := addTo reward.fees op.amount.assetId rewardFee } }
  let account ← expect (e.pending.getAccountRecord |op.ownerAccountId|) (.assertion "")
  let e := { e with rpAccountId := some |op.ownerAccountId| }
  let record : NoteRecord :=
    ⟨⟨op.ownerAccountId, Crypto.transactionId e.trx⟩, op.amount, op.messageSignature, op.message⟩
  let signer ← signerKey record.signer (Crypto.noteDigest message.data)
  require (account.activeKey = signer) (.assertion "")
  require (e.pending.notes.lookup record.index).isNone (.assertion "")
  return { e with pending := e.pending.storeNoteRecord record }

/-! ## Red packets -/

/-- Halve the number of units, and double the unit, until the units are few for `count` shares. -/
def splitSpace (count : UInt32) : Nat → UInt32 → ShareType → UInt32 × ShareType
  | 0, total, unit => (total, unit)
  | fuel + 1, total, unit =>
    if (count + 1) * 2 < total then splitSpace count fuel (total / 2) (unit * 2) else (total, unit)

def gaps : List Nat → List Int
  | a :: b :: rest => ((b : Int) - a) :: gaps (b :: rest)
  | _ => []

/-- The amounts of the shares: the cuts `lucky` divide `total` units of `unit` satoshis. -/
def shareAmounts (lucky : List Nat) (total : UInt32) (unit : ShareType) : List ShareType :=
  Int64.ofInt (lucky.head?.getD 0 + 1) * unit ::
    (gaps lucky).map (fun g => Int64.ofInt g * unit) ++
    [Int64.ofInt (total - UInt32.ofNat (lucky.getLast?.getD 0 + 1)).toNat * unit]

/-- The shares of a packet of `count`, drawn by the hash `rand` of its id. -/
def packetShares (rand : UInt64) (count total : UInt32) (unit : ShareType) : List ShareType :=
  if 1 < count then
    let k := (count - 1).toNat
    let n := (total - 1).toUInt16.toNat
    shareAmounts (unranking (rand % cnr n k) k n) total unit
  else [Int64.ofInt total.toNat * unit]

def packetEnds (rand : UInt64) (count total : UInt32) : Bool :=
  count ≤ 1 || drawEnds rand (count - 1).toNat (total - 1).toUInt16.toNat

/-- The units of a packet and their size, halved until they are few. -/
def RedPacketOperation.space (op : RedPacketOperation) : UInt32 × ShareType :=
  splitSpace op.count 32 (UInt32.ofNat (op.amount.amount / MIN_RED_PACKET_UNIT).toInt.toNat)
    MIN_RED_PACKET_UNIT

/-- What the shares take of the amount; the rest is left as a fee. -/
def RedPacketOperation.used (op : RedPacketOperation) : ShareType :=
  Int64.ofInt op.space.1.toNat * op.space.2

def RedPacketOperation.packet (op : RedPacketOperation) : PacketRecord where
  id := op.randomId
  amount := op.amount
  fromAccountId := op.fromAccountId
  claimPublicKey := op.claimPublicKey
  message := op.message
  claimStatuses :=
    (packetShares (Crypto.packetRandom op.randomId) op.count op.space.1 op.space.2).map
      fun a => ⟨⟨a, op.amount.assetId⟩, -1, 0⟩
  claimCondition := op.claimCondition

def RedPacketOperation.evaluate (op : RedPacketOperation) (e : EvalState) :
    Except Error EvalState := do
  require (0 < op.amount.amount) .negativeDeposit
  require (op.message ≠ "") (.assertion "")
  require (op.amount.assetId = 0) (.assertion "")
  require (0 < op.count) (.assertion "")
  require (op.count ≤ 30) (.assertion "")
  require (op.message.utf8ByteSize < 100) (.assertion "")
  let requiredFee := MIN_RED_PACKET_FEE
  require (requiredFee + Int64.ofInt op.count.toNat * MIN_RED_PACKET_UNIT ≤ op.amount.amount)
    (.assertion <| "The paid amount must larger than the sum of required fee and " ++
      "count * BTS_BLOCKCHAIN_MIN_RED_PACKET_UNIT!")
  let e := e.addMinFee op.amount.assetId requiredFee
  let account ← expect (e.pending.getAccountRecord |op.fromAccountId|) (.assertion "")
  let e := { e with rpAccountId := some |op.fromAccountId| }
  require (e.checkKey account.ownerKey) .missingSignature
  let e := e.subBalance ⟨op.used, op.amount.assetId⟩
  require (op.space.1 < 65535) (.assertion "")
  require (packetEnds (Crypto.packetRandom op.randomId) op.count op.space.1) .endlessLoop
  let left ← op.packet.leftPacketAmount
  require (left = ⟨op.used, op.amount.assetId⟩)
    (.assertion "The record is $\x7brecord\x7d, the ammount is $\x7ba\x7d")
  require (e.pending.packets.lookup op.randomId).isNone (.assertion "")
  return { e with pending := e.pending.storePacketRecord op.packet }

/-- The reputation a packet's condition asks of the claiming account. -/
def PacketRecord.conditionMet (r : PacketRecord) (account : AccountRecord) : Except Error Unit :=
  match r.claimCondition with
  | some (.rp rp) => require (rp ≤ account.rp)
      (.assertion "The account to claim the red packet must meet the claim condition.")
  | some (.malformedRp _) => .error (.assertion "unpack")
  | _ => .ok ()

def ClaimPacketOperation.evaluate (op : ClaimPacketOperation) (e : EvalState) :
    Except Error EvalState := do
  let account ← expect (e.pending.getAccountRecord |op.toAccountId|) (.assertion "")
  let packet ← expect (e.pending.packets.lookup op.randomId) (.assertion "")
  require (e.checkKey account.ownerKey) .missingSignature
  require (e.checkKey packet.claimPublicKey) .missingSignature
  packet.conditionMet account
  let index := packet.nextAvailableClaimIndex
  match packet.claimStatuses[index]? with
  | none => return e
  | some status =>
    require ((packet.claimStatuses.take index).all (·.accountId ≠ op.toAccountId))
      (.assertion "This account already claimed this packet!")
    let e := e.addBalance status.amount
    let e := { e with
      pending := e.pending.creditOwner e.ctx.now account.activeAddress status.amount }
    let e := e.subBalance status.amount
    let claimed : RedPacketStatus :=
      { status with accountId := op.toAccountId, transactionId := Crypto.transactionId e.trx }
    return { e with
      pending := e.pending.storePacketRecord
        { packet with claimStatuses := packet.claimStatuses.set index claimed } }

/-! ## Vote updates -/

def WithdrawCondition.basicOwner (c : WithdrawCondition) : Option Address :=
  match c.data with
  | .signature owner _ => some owner
  | _ => none

/-- Who may move the vote of a balance: its owners, or (at most once per period) its voting key. -/
def UpdateBalanceVoteOperation.authorized (op : UpdateBalanceVoteOperation) (e : EvalState)
    (r : BalanceRecord) (lastUpdate : Time) : Except Error (Option Address) := do
  let owners ← r.condition.owners
  if op.newRestrictedOwner.isSome ∧ op.newRestrictedOwner ≠ r.restrictedOwner then
    require (owners.all e.checkSignature) .missingSignature
    return op.newRestrictedOwner
  else
    require ((VOTE_UPDATE_PERIOD_SEC : Int) ≤ ((e.ctx.now : Int) - lastUpdate) % 2 ^ 32)
      (.assertion "You cannot update your vote this frequently with only the voting key!")
    -- `*restricted_owner` of a balance without a voting key throws
    let votingKey ← expect r.restrictedOwner (.assertion "")
    require (e.checkSignature votingKey ∨ owners.all e.checkSignature) .missingSignature
    return r.restrictedOwner

def BalanceRecord.emptied (r : BalanceRecord) (now : Time) : BalanceRecord :=
  { r with balance := r.balance - r.balance, lastUpdate := now }

/-- The owner's balance under the new slate, or the emptied one to become it. -/
def UpdateBalanceVoteOperation.target (op : UpdateBalanceVoteOperation) (p : PendingLedger)
    (owner : Address) (emptied : BalanceRecord) : BalanceRecord :=
  (p.getBalanceRecord (Crypto.getAddress (.withSignature owner 0 op.newSlate))).getD emptied

/-- That balance after it received `amount`. -/
def UpdateBalanceVoteOperation.received (op : UpdateBalanceVoteOperation) (target : BalanceRecord)
    (owner : Address) (restrictedOwner : Option Address) (depositDate now : Time)
    (amount : ShareType) : BalanceRecord :=
  { target with
    condition := .withSignature owner 0 op.newSlate
    depositDate := depositDate
    lastUpdate := now
    balance := target.balance + amount
    restrictedOwner := restrictedOwner }

def UpdateBalanceVoteOperation.evaluate (op : UpdateBalanceVoteOperation) (e : EvalState) :
    Except Error EvalState := do
  let r ← expect (e.pending.getBalanceRecord op.balanceId) (.assertion "No such balance!")
  require (r.condition.assetId = 0)
    (.assertion "Only BTS balances can have restricted owners.")
  let owner ← expect r.condition.basicOwner
    (.assertion "Restricted owners not enabled for anything but basic balances")
  let balance := r.balance
  let fee : ShareType := PRECISION / 2
  require (fee < balance) (.assertion "")
  let asset ← expect (e.pending.getAssetRecord r.condition.assetId) (.assertion "")
  require (asset.isMarketIssued → r.condition.slateId = 0) (.assertion "")
  let e ← e.adjustVote r.condition.slateId (-balance)
  let emptied := r.emptied e.ctx.now
  let e := { e with pending := e.pending.storeBalanceRecord emptied }
  let restrictedOwner ← op.authorized e emptied r.lastUpdate
  let target := op.target e.pending owner emptied
  let depositDate ← averageDate emptied.depositDate e.ctx.now target.balance balance
  let e := e.addBalance ⟨fee, 0⟩
  let e ← e.adjustVote op.newSlate (balance - fee)
  return { e with
    pending := e.pending.storeBalanceRecord
      (op.received target owner restrictedOwner depositDate e.ctx.now (balance - fee)) }

end BitShares
