import BitShares.Ledger.Records
import Mathlib.Logic.Equiv.List

/-!
# Operations, transactions and blocks

The operations registered in `operations.cpp` with their fields, the transactions they make up,
and the blocks that carry those.  `Crypto` collects what the code takes from the cryptographic
library: hashes, addresses and key recovery are parameters of the model.
-/

namespace BitShares

structure WithdrawOperation where
  balanceId : BalanceId
  amount : ShareType
  deriving DecidableEq

structure DepositOperation where
  amount : ShareType
  condition : WithdrawCondition
  deriving DecidableEq

structure RegisterAccountOperation where
  name : String
  publicData : Variant
  ownerKey : PublicKey
  activeKey : PublicKey
  delegatePayRate : UInt8 := 255
  metaData : Option AccountMetaInfo := none
  deriving DecidableEq

structure UpdateAccountOperation where
  accountId : AccountId
  publicData : Option Variant := none
  activeKey : Option PublicKey := none
  delegatePayRate : UInt8 := 255
  deriving DecidableEq

structure WithdrawPayOperation where
  amount : ShareType
  accountId : AccountId
  deriving DecidableEq

structure CreateAssetOperation where
  symbol : String
  name : String
  description : String
  publicData : Variant
  issuerType : UInt8
  issuerId : Int
  maximumShareSupply : ShareType := 0
  precision : Nat := 0
  initialSupply : ShareType := 1
  initialCollateral : ShareType := 1
  deriving DecidableEq

structure IssueAssetOperation where
  amount : Asset
  deriving DecidableEq

structure AssetUpdatePropertiesOperation where
  assetId : AssetId
  issuerId : Option AccountId := none
  name : Option String := none
  description : Option String := none
  publicData : Option Variant := none
  precision : Option Nat := none
  maxSupply : Option ShareType := none
  withdrawalFee : Option ShareType := none
  marketFeeRate : Option Nat := none
  deriving DecidableEq

structure AssetUpdatePermissionsOperation where
  assetId : AssetId
  authority : Option MultisigMetaInfo := none
  authorityFlagPermissions : Option UInt32 := none
  activeFlags : Option UInt32 := none
  deriving DecidableEq

structure AssetUpdateWhitelistOperation where
  assetId : AssetId
  owner : Address
  deriving DecidableEq

structure DefineSlateOperation where
  slate : List AccountId
  deriving DecidableEq

structure BurnOperation where
  amount : Asset
  accountId : AccountId := 0
  message : String := ""
  messageSignature : Option Signature := none
  deriving DecidableEq

structure AdOperation where
  amount : Asset
  ownerAccountId : AccountId
  publisherAccountId : AccountId
  message : String
  messageSignature : Option Signature
  deriving DecidableEq

structure NoteOperation where
  amount : Asset
  ownerAccountId : AccountId
  message : Option NoteMessage
  messageSignature : Option Signature
  deriving DecidableEq

structure RedPacketOperation where
  randomId : PacketId
  amount : Asset
  fromAccountId : AccountId
  message : String
  claimPublicKey : PublicKey
  count : UInt32
  claimCondition : Option PacketClaimCondition := none
  deriving DecidableEq

structure ClaimPacketOperation where
  randomId : PacketId
  toAccountId : AccountId
  deriving DecidableEq

structure UpdateSigningKeyOperation where
  accountId : AccountId
  signingKey : PublicKey
  deriving DecidableEq

structure UpdateBalanceVoteOperation where
  balanceId : BalanceId
  newRestrictedOwner : Option Address
  newSlate : SlateId
  deriving DecidableEq

structure DataOperation where
  tag : Nat
  data : List UInt8
  deriving DecidableEq

structure BuyChipsOperation where
  amount : Asset
  owner : Address
  deriving DecidableEq

structure CreateGameOperation where
  name : String
  description : String
  publicData : Variant
  ownerAccountId : AccountId
  scriptCode : String
  deriving DecidableEq

structure GameUpdateOperation where
  gameId : GameId
  description : String
  publicData : Variant
  scriptCode : String
  deriving DecidableEq

structure GamePlayOperation where
  gameId : GameId
  data : Variant
  deriving DecidableEq

/-- The operations that the game client registers when it is opened. -/
inductive GameOperation where
  | create (op : CreateGameOperation)
  | update (op : GameUpdateOperation)
  | play (op : GamePlayOperation)
  deriving DecidableEq

/-- An operation of a transaction: one registered in `operations.cpp`, one of the game client, or
a type the factory does not know. -/
inductive Operation where
  | withdraw (op : WithdrawOperation)
  | deposit (op : DepositOperation)
  | registerAccount (op : RegisterAccountOperation)
  | updateAccount (op : UpdateAccountOperation)
  | withdrawPay (op : WithdrawPayOperation)
  | createAsset (op : CreateAssetOperation)
  | issueAsset (op : IssueAssetOperation)
  | assetUpdateProperties (op : AssetUpdatePropertiesOperation)
  | assetUpdatePermissions (op : AssetUpdatePermissionsOperation)
  | assetUpdateWhitelist (op : AssetUpdateWhitelistOperation)
  | defineSlate (op : DefineSlateOperation)
  | burn (op : BurnOperation)
  | ad (op : AdOperation)
  | note (op : NoteOperation)
  | redPacket (op : RedPacketOperation)
  | claimPacket (op : ClaimPacketOperation)
  | updateSigningKey (op : UpdateSigningKeyOperation)
  | updateBalanceVote (op : UpdateBalanceVoteOperation)
  | data (op : DataOperation)
  | buyChips (op : BuyChipsOperation)
  | game (op : GameOperation)
  | unregistered (type : Nat)
  deriving DecidableEq

/-- `note_op_type`, the only operation type that collects rewards. -/
def noteOpType : OperationId := 40

structure Transaction where
  expiration : Time
  reserved : Option Nat := none
  operations : List Operation
  deriving DecidableEq

structure SignedTransaction extends Transaction where
  signatures : List Signature
  deriving DecidableEq

structure BlockHeader where
  previous : BlockId
  blockNum : BlockNum
  timestamp : Time
  transactionDigest : Digest
  nextSecretHash : SecretHash
  previousSecret : SecretHash
  deriving DecidableEq

structure SignedBlockHeader extends BlockHeader where
  delegateSignature : Signature
  deriving DecidableEq

structure FullBlock extends SignedBlockHeader where
  userTransactions : List SignedTransaction
  deriving DecidableEq

/-- What the chain takes from the cryptographic library.  The functions are arbitrary here;
theorems that rely on a property of them (collision freeness, say) name it. -/
class Crypto where
  /-- `address( public_key )`. -/
  address : PublicKey → Address
  /-- The addresses of the older address formats that a key also signs for. -/
  ptsAddresses : PublicKey → List Address
  /-- `withdraw_condition::get_address`. -/
  getAddress : WithdrawCondition → BalanceId
  /-- `slate_record::id` of a non-empty slate. -/
  slateHash : OrdSet AccountId → SlateId
  /-- `signed_transaction::id`. -/
  transactionId : SignedTransaction → TransactionId
  /-- `transaction::digest` under the chain's id. -/
  transactionDigest : Transaction → Digest
  /-- `fc::ecc::public_key( signature, digest )`. -/
  recover : Signature → Digest → Option PublicKey
  /-- `fc::sha256::hash` of a message. -/
  messageDigest : String → Digest
  /-- `fc::sha256::hash` of a note's bytes. -/
  noteDigest : List UInt8 → Digest
  /-- `fc::sha256::hash( random_id )._hash[ 0 ]`. -/
  packetRandom : PacketId → UInt64
  /-- `signed_block_header::id`. -/
  blockId : SignedBlockHeader → BlockId
  /-- `block_header::digest`. -/
  headerDigest : BlockHeader → Digest
  /-- `digest_block::calculate_transaction_digest`. -/
  blockTransactionDigest : List TransactionId → Digest
  /-- `fc::ripemd160::hash` of a revealed secret. -/
  secretHash : SecretHash → SecretHash
  /-- The next random seed from a revealed secret and the current seed. -/
  nextRandomSeed : SecretHash → Nat → Nat
  /-- `fc::sha256::hash( random_seed )` as four words, for the delegate shuffle. -/
  shuffleWords : Nat → Nat → UInt64

/-! ## Transparent stand-ins -/

/-- The parts of withdraw data as numbers: a tag first, and what has no fixed length last or after
its length. -/
def WithdrawData.code : WithdrawData → List Nat
  | .signature owner memo => 1 :: owner :: memoCode memo
  | .vesting owner startTime duration originalBalance =>
    [2, owner, startTime, duration, Encodable.encode originalBalance.toInt]
  | .multisig required owners memo =>
    3 :: required :: owners.toList.length :: (owners.toList ++ memoCode memo)
  | .escrow sender receiver agent agreementDigest memo =>
    4 :: sender :: receiver :: agent :: agreementDigest :: memoCode memo
  | .malformed type data => 5 :: type :: data
  | .unsupported type data => 6 :: type :: data
where
  memoCode : Option Variant → List Nat
    | none => []
    | some memo => 0 :: memo.toList.map Char.toNat

theorem WithdrawData.memoCode_injective : Function.Injective WithdrawData.code.memoCode := by
  intro a b h
  cases a <;> cases b <;> simp only [code.memoCode, List.cons.injEq, reduceCtorEq, true_and] at h
  · rfl
  · have hchars := List.map_injective_iff.2 (fun _ _ h => Char.ext (UInt32.toNat_inj.1 h)) h
    rw [String.toList_inj.1 hchars]

theorem WithdrawData.code_injective : Function.Injective WithdrawData.code := by
  intro a b h
  cases a <;> cases b <;>
    simp only [code, List.cons.injEq, Nat.reduceEqDiff, false_and, true_and, and_true] at h
  case signature.signature => rw [h.1, memoCode_injective h.2]
  case vesting.vesting =>
    obtain ⟨rfl, rfl, rfl, h⟩ := h
    rw [Int64.toInt_inj.1 (Encodable.encode_injective h)]
  case multisig.multisig =>
    obtain ⟨rfl, hlen, h⟩ := h
    obtain ⟨howners, hmemo⟩ := List.append_inj h hlen
    rw [OrdSet.toList_injective howners, memoCode_injective hmemo]
  case escrow.escrow =>
    obtain ⟨rfl, rfl, rfl, rfl, h⟩ := h
    rw [memoCode_injective h]
  case malformed.malformed => rw [h.1, h.2]
  case unsupported.unsupported => rw [h.1, h.2]

/-- An address that tells every two conditions apart. -/
def WithdrawCondition.code (c : WithdrawCondition) : Nat :=
  Encodable.encode (c.assetId, c.slateId, c.data.code)

theorem WithdrawCondition.code_injective : Function.Injective WithdrawCondition.code := by
  rintro ⟨a, s, d⟩ ⟨a', s', d'⟩ h
  obtain ⟨rfl, rfl, hd⟩ : a = a' ∧ s = s' ∧ d.code = d'.code := by
    simpa using Encodable.encode_injective h
  rw [WithdrawData.code_injective hd]

/-- Stand-ins for runs on concrete inputs: a key is its own address, a signature is the key that
made it, and ids are read off the data. -/
@[reducible] def Crypto.transparent : Crypto where
  address key := key
  ptsAddresses _ := []
  getAddress := WithdrawCondition.code
  slateHash s := s.toList.foldl (fun h id => 10 * h + id.natAbs) 0
  transactionId trx := trx.expiration
  transactionDigest trx := trx.expiration
  recover sig _ := some sig
  messageDigest _ := 0
  noteDigest _ := 0
  packetRandom id := UInt64.ofNat id
  blockId b := 10 * b.blockNum + b.delegateSignature
  headerDigest b := b.blockNum
  blockTransactionDigest ids := ids.length
  secretHash s := s
  nextRandomSeed secret seed := secret + seed
  shuffleWords seed i := UInt64.ofNat (seed + i)

/-- The same with block ids that tell the time, for forks. -/
@[reducible] def Crypto.timed : Crypto :=
  { Crypto.transparent with
    blockId := fun b => 1000 * b.timestamp + 10 * b.blockNum + b.delegateSignature }

def SlateRecord.id [Crypto] (r : SlateRecord) : SlateId :=
  if r.slate.entries.isEmpty then 0 else Crypto.slateHash r.slate

def BalanceRecord.id [Crypto] (r : BalanceRecord) : BalanceId := Crypto.getAddress r.condition

def FullBlock.id [Crypto] (b : FullBlock) : BlockId := Crypto.blockId b.toSignedBlockHeader

end BitShares
