import BitShares.Lib.Outcome
import Mathlib.Data.List.AList
import Mathlib.Data.List.Sort
import Mathlib.Algebra.Group.Int.Defs
import Mathlib.Algebra.Group.Nat.Defs

/-!
# Ids, amounts and errors

The scalar types of the chain (`types.hpp`, `asset.hpp`, `config.hpp`) and the exceptions an
evaluator can throw (`exceptions.hpp`).

* `ShareType` is `int64_t` and wraps like it, so it is Lean's `Int64`.
* Ids that the chain hands out (`fc::signed_int`) are `Int`; they come from counters.
* Hashes and keys are numbers.  How they are computed is code outside this repository, and a
  parameter of the model (`Crypto`).
* Block numbers and times (seconds) are natural numbers.
-/

namespace BitShares

abbrev ShareType := Int64
abbrev AssetId := Int
abbrev AccountId := Int
abbrev GameId := Int
abbrev DataId := Int
abbrev OperationId := Nat
abbrev SlateId := Nat
abbrev Address := Nat
abbrev BalanceId := Nat
abbrev PublicKey := Nat
abbrev Signature := Nat
abbrev Digest := Nat
abbrev TransactionId := Nat
abbrev BlockId := Nat
abbrev PacketId := Nat
abbrev SecretHash := Nat
abbrev Time := Nat
abbrev BlockNum := Nat

/-- A dynamically typed value that the chain stores and never looks into. -/
abbrev Variant := String

/-- `public_key_type()`: the key of a retracted account. -/
def nullKey : PublicKey := 0

/-- `fc::ripemd160()`, also the id of the genesis "block". -/
def nullId : BlockId := 0

/-! ## Constants (`config.hpp`) -/

def PRECISION : Int64 := 100000
def BLOCK_INTERVAL_SEC : Nat := 10
def BLOCKS_PER_HOUR : Nat := 60 * 60 / BLOCK_INTERVAL_SEC
def BLOCKS_PER_DAY : Nat := BLOCKS_PER_HOUR * 24
def NUM_DELEGATES : Nat := 101
def MAX_UNDO_HISTORY : Nat := BLOCKS_PER_HOUR * 3
def MAX_SLATE_SIZE : Nat := NUM_DELEGATES + NUM_DELEGATES / 10
def MAX_TRANSACTION_EXPIRATION_SEC : Nat := 60 * 60 * 24 * 2
def MAX_SHARES : Int64 := 1000000000000000
def MIN_NAME_SIZE : Nat := 1
def MAX_NAME_SIZE : Nat := 63
def MAX_SUB_SYMBOL_SIZE : Nat := 8
def MIN_SYMBOL_SIZE : Nat := 3
def MAX_SYMBOL_SIZE : Nat := 12
def MIN_BURN_FEE : Int64 := PRECISION * 1
def MIN_NOTE_FEE : Int64 := PRECISION * 5
def MIN_AD_FEE : Int64 := PRECISION * 1
def MIN_RED_PACKET_FEE : Int64 := PRECISION * 1
def MIN_RED_PACKET_UNIT : Int64 := PRECISION * 1
def VOTE_UPDATE_PERIOD_SEC : Nat := 60 * 60
def MIN_YIELD_PERIOD_SEC : Nat := 60 * 60 * 24
def MAX_YIELD_PERIOD_SEC : Nat := BLOCKS_PER_DAY * 365 * BLOCK_INTERVAL_SEC
def MAX_UIA_MARKET_FEE_RATE : Nat := 10000

/-! ## Errors -/

/-- What an evaluation can throw: the exceptions of `exceptions.hpp` the modelled code uses, and
`FC_ASSERT` with its message.  `require` is `if( !c ) FC_CAPTURE_AND_THROW( e )`, and `expect` a
check `record.valid()` followed by `*record`. -/
inductive Error where
  | assertion (message : String)
  | additionOverflow
  | divideByZero
  | assetTypeMismatch
  | assetDivideBySelf
  | assetDivideByZero
  | unsupportedChainOperation
  | duplicateTransaction
  | zeroAmount
  | blockNumbersNotSequential
  | invalidPreviousBlockId
  | invalidBlockTime
  | timeInPast
  | timeInFuture
  | invalidBlockDigest
  | invalidDelegateSignee
  | failedCheckpointVerification
  | unknownBlock
  | blockOlderThanUndoHistory
  | unlinkableBlock
  | labelAlreadyInUse
  | invalidPtsAddress
  | negativeDeposit
  | notADelegate
  | unknownBalanceRecord
  | insufficientFunds
  | missingSignature
  | invalidWithdrawCondition
  | negativeWithdraw
  | expiredTransaction
  | invalidTransactionExpiration
  | invalidAccountName
  | unknownAccountId
  | missingParentAccountSignature
  | accountAlreadyRegistered
  | accountKeyInUse
  | accountRetracted
  | unknownDelegateSlate
  | tooManyDelegatesInSlate
  | payBalanceRemaining
  | invalidPrecision
  | invalidAssetSymbol
  | unknownAssetId
  | assetSymbolInUse
  | invalidAssetAmount
  | negativeIssue
  | overIssue
  | assetIdInUse
  | notUserIssued
  | invalidAssetName
  | amountTooLarge
  | stdInvalidArgument
  | stdOutOfRange
  | outstandingSharesExist
  | invalidFeeRate
  | invalidAuthority
  | permissionNotAvailable
  | insufficientFee
  | negativeFee
  | feeGreaterThanMax
  | insufficientRelayFee
  | unknownGameId
  | unknownGame
  | gameNameInUse
  | invalidGameName
  | gameIdInUse
  | gameEngineNotFound
  | failedCompileScript
  | failedRunScript
  | insufficientFeeds
  /-- Not an exception: the call does not return. -/
  | endlessLoop
  deriving DecidableEq

/-! ## Amounts -/

structure Asset where
  amount : ShareType
  assetId : AssetId
  deriving DecidableEq

/-- `asset::operator +=`, which refuses another asset and a sum outside `int64_t`. -/
def Asset.add (l o : Asset) : Except Error Asset := do
  require (l.assetId = o.assetId) (.assertion "")
  require (-(2 ^ 63 : Int) ≤ l.amount.toInt + o.amount.toInt ∧
    l.amount.toInt + o.amount.toInt < 2 ^ 63) .additionOverflow
  return { l with amount := l.amount + o.amount }

/-- `FC_REAL128_PRECISION`. -/
def REAL128_PRECISION : Nat := 10 ^ 18

/-- How much of the quote asset one share of the base asset is worth, as a fraction with
denominator `REAL128_PRECISION`. -/
structure Price where
  ratio : Nat
  baseAssetId : AssetId
  quoteAssetId : AssetId
  deriving DecidableEq

/-- `asset operator * ( const asset&, const price& )`: change an amount into the other asset of
the price.  `fc::bigint` is not part of the sources: `to_int64` is taken to keep the low 64 bits. -/
def Asset.mul (a : Asset) (p : Price) : Except Error Asset := do
  if a.assetId = p.baseAssetId then
    let result := (a.amount.toInt * p.ratio).tdiv REAL128_PRECISION
    require (result.natAbs.log2 < 128) .additionOverflow
    return ⟨Int64.ofInt result, p.quoteAssetId⟩
  else if a.assetId = p.quoteAssetId then
    let result := (a.amount.toInt * REAL128_PRECISION).tdiv p.ratio
    require (result.natAbs.log2 < 128) .additionOverflow
    return ⟨Int64.ofInt result, p.baseAssetId⟩
  else
    .error .assetTypeMismatch

end BitShares
