import BitShares.Ledger.Types
import BitShares.Lib.OrdMap

/-!
# Records

The rows of the chain's tables (`*_record.hpp`), with the small member functions the evaluators
call.  Members that read a hash or an address take it as an argument here and get it from
`Crypto` at the call.
-/

namespace BitShares

/-! ## Withdraw conditions (`withdraw_types.hpp`) -/

/-- The packed `data` of a withdraw condition, by its `type` tag.  `malformed` is a supported tag
whose bytes do not unpack; `unsupported` is any other tag. -/
inductive WithdrawData where
  | signature (owner : Address) (memo : Option Variant)
  | vesting (owner : Address) (startTime : Time) (duration : Nat) (originalBalance : ShareType)
  | multisig (required : Nat) (owners : OrdSet Address) (memo : Option Variant)
  | escrow (sender receiver escrow : Address) (agreementDigest : Digest) (memo : Option Variant)
  | malformed (type : Nat) (data : List Nat)
  | unsupported (type : Nat) (data : List Nat)
  deriving DecidableEq

structure WithdrawCondition where
  assetId : AssetId
  slateId : SlateId
  data : WithdrawData
  deriving DecidableEq

/-- `withdraw_condition( withdraw_with_signature( owner ), asset_id, slate_id )`. -/
def WithdrawCondition.withSignature (owner : Address) (assetId : AssetId) (slateId : SlateId) :
    WithdrawCondition :=
  ⟨assetId, slateId, .signature owner none⟩

/-- `withdraw_condition::owners`; unpacking malformed data throws. -/
def WithdrawCondition.owners (c : WithdrawCondition) : Except Error (List Address) :=
  match c.data with
  | .signature owner _ => .ok [owner]
  | .vesting owner _ _ _ => .ok [owner]
  | .multisig _ owners _ => .ok owners.toList
  | .escrow sender receiver escrow _ _ => .ok [sender, receiver, escrow]
  | .malformed _ _ => .error (.assertion "unpack")
  | .unsupported _ _ => .ok []

def WithdrawCondition.owner (c : WithdrawCondition) : Option Address :=
  match c.data with
  | .signature owner _ => some owner
  | .vesting owner _ _ _ => some owner
  | _ => none

/-! ## Balances (`balance_record.hpp`) -/

structure BalanceRecord where
  condition : WithdrawCondition
  balance : ShareType := 0
  restrictedOwner : Option Address := none
  snapshotInfo : Option (String × ShareType) := none
  multiSnapshotInfos : List (String × ShareType) := []
  depositDate : Time := 0
  lastUpdate : Time := 0
  metaData : Option TransactionId := none
  deriving DecidableEq

namespace BalanceRecord

/-- The record `balance_record( owner, asset( 0, asset_id ), 0 )`. -/
def ofOwner (owner : Address) (assetId : AssetId) : BalanceRecord :=
  { condition := .withSignature owner assetId 0 }

def assetId (r : BalanceRecord) : AssetId := r.condition.assetId

def slateId (r : BalanceRecord) : SlateId := r.condition.slateId

/-- What of a vesting balance can be claimed at `atTime`, ever. -/
def maxClaimable (atTime startTime : Time) (duration : Nat) (original : ShareType) :
    Except Error ShareType :=
  if startTime + duration ≤ atTime then .ok original
  else if startTime < atTime then do
    let elapsed := atTime - startTime
    -- `fc::uint128` of a negative amount is its two's complement
    let claimable := Int64.ofInt ((original.toInt % 2 ^ 128 * elapsed) % 2 ^ 128 / duration)
    require (0 ≤ claimable ∧ claimable ≤ original) (.assertion "")
    return claimable
  else .ok 0

/-- The vesting branch of `get_spendable_balance`: what has vested at `atTime`, less what was
already taken. -/
def vestedBalance (balance : ShareType) (atTime startTime : Time) (duration : Nat)
    (original : ShareType) : Except Error ShareType := do
  let maxClaimable ← maxClaimable atTime startTime duration original
  let claimedSoFar := original - balance
  require (0 ≤ claimedSoFar ∧ claimedSoFar ≤ maxClaimable) (.assertion "")
  let spendable := maxClaimable - claimedSoFar
  require (0 ≤ spendable ∧ spendable ≤ maxClaimable) (.assertion "")
  require (spendable + claimedSoFar = maxClaimable) (.assertion "")
  return spendable

/-- `balance_record::get_spendable_balance`: the amount of it. -/
def getSpendableBalance (r : BalanceRecord) (atTime : Time) : Except Error ShareType :=
  match r.condition.data with
  | .signature _ _ => .ok r.balance
  | .escrow _ _ _ _ _ => .ok r.balance
  | .multisig _ _ _ => .ok r.balance
  | .vesting _ startTime duration original =>
    vestedBalance r.balance atTime startTime duration original
  | .malformed type _ => if type = 2 then .error (.assertion "unpack") else .ok r.balance
  | .unsupported _ _ => .ok 0

/-- `balance_record::calculate_yield`: the amount of it, computed in 128 bits. -/
def calculateYield (r : BalanceRecord) (now : Time) (amount yieldPool shareSupply : ShareType) :
    ShareType :=
  if amount ≤ 0 then 0
  else if shareSupply ≤ 0 then 0
  else if yieldPool ≤ 0 then 0
  else if (now : Int) - r.depositDate ≤ MIN_YIELD_PERIOD_SEC then 0
  else
    let w : Nat := 2 ^ 128
    let elapsed : Nat := now - r.depositDate
    let currentSupply : Nat := ((shareSupply - yieldPool).toInt % w).toNat
    if currentSupply = 0 then 0
    else
      let withdrawn : Nat := amount.toInt.toNat * 1000000 % w
      let pool : Nat := yieldPool.toInt.toNat
      let full : Nat := withdrawn * pool % w / currentSupply
      let yield : Nat :=
        if elapsed < MAX_YIELD_PERIOD_SEC then
          let simple := full * 8 % w / 10
          let delta := (full + w - simple) % w
          let simple := simple * elapsed % w / MAX_YIELD_PERIOD_SEC
          let delta := delta * elapsed % w / MAX_YIELD_PERIOD_SEC
          let delta := delta * elapsed % w / MAX_YIELD_PERIOD_SEC
          (simple + delta) % w
        else full
      let yield := yield / 1000000
      if 0 < yield ∧ yield < pool then Int64.ofInt yield else 0

end BalanceRecord

/-! ## Accounts (`account_record.hpp`) -/

inductive AccountType where
  | titanAccount
  | publicAccount
  | multisigAccount
  deriving DecidableEq

structure AccountMetaInfo where
  type : AccountType
  data : List Nat
  deriving DecidableEq

structure DelegateStats where
  votesFor : ShareType := 0
  payRate : UInt8 := 0
  signingKeyHistory : OrdMap BlockNum PublicKey := ∅
  lastBlockNumProduced : BlockNum := 0
  nextSecretHash : Option SecretHash := none
  payBalance : ShareType := 0
  totalPaid : ShareType := 0
  totalBurned : ShareType := 0
  blocksProduced : Nat := 0
  blocksMissed : Nat := 0
  deriving DecidableEq

structure AccountRecord where
  id : AccountId
  name : String
  publicData : Variant
  ownerKey : PublicKey
  activeKeyHistory : OrdMap Time PublicKey
  registrationDate : Time
  lastUpdate : Time
  /-- `stats_info.rp`. -/
  rp : ShareType := 0
  delegateInfo : Option DelegateStats := none
  metaData : Option AccountMetaInfo := none
  deriving DecidableEq

namespace AccountRecord

def isDelegate (r : AccountRecord) : Bool := r.delegateInfo.isSome

/-- `active_key()`: the newest entry of the history.  Every record is created with one, so the
`FC_ASSERT` on an empty history never fires; an empty one reads as the null key. -/
def activeKey (r : AccountRecord) : PublicKey := r.activeKeyHistory.last?.getD nullKey

def isRetracted (r : AccountRecord) : Bool := r.activeKey = nullKey

def setActiveKey (r : AccountRecord) (now : Time) (key : PublicKey) :
    Except Error AccountRecord := do
  require (now ≠ 0) (.assertion "")
  return { r with activeKeyHistory := r.activeKeyHistory.set now key }

def payBalance (r : AccountRecord) : ShareType := (r.delegateInfo.map (·.payBalance)).getD 0

def netVotes (r : AccountRecord) : ShareType := (r.delegateInfo.map (·.votesFor)).getD 0

end AccountRecord

/-- `delegate_info->signing_key()`: the newest entry of the signing key history. -/
def DelegateStats.signingKey (d : DelegateStats) : PublicKey :=
  d.signingKeyHistory.last?.getD nullKey

def DelegateStats.setSigningKey (d : DelegateStats) (blockNum : BlockNum) (key : PublicKey) :
    DelegateStats :=
  { d with signingKeyHistory := d.signingKeyHistory.set blockNum key }

/-! ## Assets (`asset_record.hpp`) -/

/-- `issuer.type`, a byte: `god_issuer_id = 0` up to `game_issuer_id = 4`. -/
def nullIssuerId : UInt8 := 1
def marketIssuerId : UInt8 := 2
def userIssuerId : UInt8 := 3
def gameIssuerId : UInt8 := 4

/-- The flags an asset's authority can hold or activate, as bits. -/
def dynamicMaxSupply : UInt32 := 1
def dynamicFees : UInt32 := 2
def haltedMarkets : UInt32 := 4
def haltedWithdrawals : UInt32 := 8
def retractableBalances : UInt32 := 16
def restrictedDeposits : UInt32 := 32

structure MultisigMetaInfo where
  required : Nat := 1
  owners : OrdSet Address := ∅
  deriving DecidableEq

structure AssetRecord where
  id : AssetId
  symbol : String
  issuerType : UInt8 := nullIssuerId
  issuerId : Int := 0
  authority : MultisigMetaInfo := {}
  authorityFlagPermissions : UInt32 := 4294967295
  activeFlags : UInt32 := 0
  whitelist : OrdSet Address := ∅
  name : String
  description : String
  publicData : Variant
  precision : Nat := 0
  maxSupply : ShareType := 0
  withdrawalFee : ShareType := 0
  marketFeeRate : Nat := 0
  collectedFees : ShareType := 0
  currentSupply : ShareType := 0
  currentCollateral : ShareType := 0
  registrationDate : Time
  lastUpdate : Time
  deriving DecidableEq

namespace AssetRecord

def isMarketIssued (r : AssetRecord) : Bool := r.issuerType = marketIssuerId

def isUserIssued (r : AssetRecord) : Bool := r.issuerType = userIssuerId

def isGameIssued (r : AssetRecord) : Bool := r.issuerType = gameIssuerId

def authorityHasFlagPermission (r : AssetRecord) (permission : UInt32) : Bool :=
  r.isUserIssued && r.authorityFlagPermissions &&& permission ≠ 0

def flagIsActive (r : AssetRecord) (flag : UInt32) : Bool :=
  r.authorityHasFlagPermission flag && r.activeFlags &&& flag ≠ 0

def addressIsWhitelisted (r : AssetRecord) (addr : Address) : Bool :=
  if !r.flagIsActive restrictedDeposits then true
  else if r.authority.owners.mem addr then true
  else r.whitelist.mem addr

end AssetRecord

/-! ## The smaller records -/

structure SlateRecord where
  slate : OrdSet AccountId
  deriving DecidableEq

/-- `burn_index`, `ad_index` and `note_index`. -/
structure MessageIndex where
  accountId : AccountId
  transactionId : TransactionId
  deriving DecidableEq

structure BurnRecord where
  index : MessageIndex
  amount : Asset
  message : String
  signer : Option Signature
  deriving DecidableEq

structure AdRecord where
  index : MessageIndex
  amount : Asset
  publisherId : AccountId
  signer : Option Signature
  message : String
  deriving DecidableEq

structure NoteMessage where
  type : Nat
  data : List UInt8
  deriving DecidableEq

structure NoteRecord where
  index : MessageIndex
  amount : Asset
  signer : Option Signature
  message : Option NoteMessage
  deriving DecidableEq

structure RedPacketStatus where
  amount : Asset
  accountId : AccountId
  transactionId : TransactionId
  deriving DecidableEq

/-- `packet_claim_condition`: a reputation bound, or a type the code does not look at. -/
inductive PacketClaimCondition where
  | rp (rp : ShareType)
  | malformedRp (data : List Nat)
  | other (type : Nat) (data : List Nat)
  deriving DecidableEq

structure PacketRecord where
  id : PacketId
  amount : Asset
  fromAccountId : AccountId
  claimPublicKey : PublicKey
  message : String
  claimStatuses : List RedPacketStatus
  claimCondition : Option PacketClaimCondition
  deriving DecidableEq

namespace PacketRecord

/-- The index of the first share whose `account_id` is the marker `-1`, or the number of shares. -/
def nextAvailableClaimIndex (r : PacketRecord) : Nat :=
  r.claimStatuses.findIdx (·.accountId = -1)

def isUnclaimedEmpty (r : PacketRecord) : Bool :=
  r.claimStatuses.length ≤ r.nextAvailableClaimIndex

/-- The loop of `left_packet_amount` over the shares that remain. -/
def leftAmount : List RedPacketStatus → Asset → Except Error Asset
  | [], acc => .ok acc
  | s :: rest, acc =>
    if s.accountId = -1 then do leftAmount rest (← acc.add s.amount) else leftAmount rest acc

def leftPacketAmount (r : PacketRecord) : Except Error Asset :=
  leftAmount r.claimStatuses ⟨0, r.amount.assetId⟩

end PacketRecord

structure OperationRewardRecord where
  id : OperationId
  fees : OrdMap AssetId ShareType
  deriving DecidableEq

/-- `fees[ a ]`, zero when absent. -/
def OperationRewardRecord.feeOf (r : OperationRewardRecord) (a : AssetId) : ShareType :=
  r.fees.getD a 0

structure OperationRewardTransaction where
  rewardOwner : Address
  opType : OperationId
  reward : Asset
  info : String
  deriving DecidableEq

structure GameRecord where
  id : GameId
  name : String
  description : String
  publicData : Variant
  ownerAccountId : AccountId
  scriptCode : String
  registrationDate : Time
  lastUpdate : Time
  deriving DecidableEq

structure GameDataRecord where
  gameId : GameId := 0
  data : Variant
  deriving DecidableEq

def GameDataRecord.isNull (r : GameDataRecord) : Bool := r.gameId = 0

def GameDataRecord.makeNull (r : GameDataRecord) : GameDataRecord := { r with gameId := 0 }

structure GameStatus where
  gameId : GameId
  blockNumber : BlockNum := 0
  lastError : Option Error := none
  deriving DecidableEq

def GameStatus.isNull (s : GameStatus) : Bool := s.lastError.isNone

structure GameResultTransaction where
  gameId : GameId
  data : Variant
  deriving DecidableEq

structure SlotIndex where
  delegateId : AccountId
  timestamp : Time
  deriving DecidableEq

structure SlotRecord where
  index : SlotIndex
  blockId : Option BlockId
  deriving DecidableEq

structure FeedIndex where
  quoteId : AssetId
  delegateId : AccountId
  deriving DecidableEq

structure FeedRecord where
  index : FeedIndex
  value : Price
  lastUpdate : Time
  deriving DecidableEq

/-! ## Properties (`property_record.hpp`) -/

inductive PropertyId where
  | databaseVersion
  | chainId
  | lastAssetId
  | lastAccountId
  | activeDelegateListId
  | lastRandomSeedId
  | statisticsEnabled
  | dirtyMarkets
  | lastGameId
  deriving DecidableEq

/-- The `variant` of a property record, by the type `as<T>()` reads it at. -/
inductive PropertyValue where
  | number (n : Nat)
  | id (i : Int)
  | ids (l : List AccountId)
  | hash (h : Nat)
  | bool (b : Bool)
  | markets (m : List (AssetId × AssetId))
  deriving DecidableEq

end BitShares
