import BitShares.Chain.Extend
import Mathlib.Data.Nat.Log

/-!
# Producing a block

`generate_block` of `chain_database.cpp`: the markets are executed, and then the pending
transactions are evaluated one after the other, the highest fee first, and kept if they stay within
the limits of the delegate's configuration.

What `fc::raw` makes of a transaction is a parameter (`Wire`).  A vector is packed as its length,
seven bits a byte, and its elements.  Each transaction is evaluated in an overlay of its own, which
is dropped if the transaction is not kept.
-/

namespace BitShares

/-- `BTS_BLOCKCHAIN_MAX_PENDING_QUEUE_SIZE`. -/
def MAX_PENDING_QUEUE_SIZE : Nat := 10

/-- `BTS_BLOCKCHAIN_MAX_BLOCK_SIZE`. -/
def MAX_BLOCK_SIZE : UInt32 := UInt32.ofNat (10 * 512 * MAX_PENDING_QUEUE_SIZE)

/-- The members of `delegate_config` that `generate_block` reads.  The production time is in
microseconds. -/
structure DelegateConfig where
  blockMaxTransactionCount : UInt32 := -1
  blockMaxSize : UInt32 := MAX_BLOCK_SIZE
  blockMaxProductionTime : Int := 3000000
  transactionMaxSize : UInt32 := MAX_BLOCK_SIZE
  transactionCanonicalSignaturesRequired : Bool := false
  transactionMinFee : ShareType := PRECISION / 10
  transactionBlacklist : OrdSet TransactionId := ∅
  operationBlacklist : OrdSet OperationId := ∅

/-- What the code takes from the serialisation library and the curve. -/
class Wire where
  /-- `signed_transaction::data_size`. -/
  dataSize : SignedTransaction → Nat
  /-- Whether `fc::ecc::public_key` takes a signature for a canonical one. -/
  isCanonical : Signature → Bool

/-! ## Sizes -/

/-- The bytes of a packed `fc::unsigned_int`. -/
def unsignedIntSize (n : Nat) : Nat := Nat.log 128 n + 1

/-- The bytes of a packed `signed_block_header`, all of whose members have a fixed length. -/
def signedHeaderSize : Nat := 20 + 4 + 4 + 32 + 20 + 20 + 65

def transactionsSize [Wire] (transactions : List SignedTransaction) : Nat :=
  unsignedIntSize transactions.length + (transactions.map Wire.dataSize).sum

def FullBlock.blockSize [Wire] (b : FullBlock) : Nat :=
  signedHeaderSize + transactionsSize b.userTransactions

def Operation.type : Operation → OperationId
  | .withdraw _ => 1
  | .deposit _ => 2
  | .registerAccount _ => 3
  | .updateAccount _ => 4
  | .withdrawPay _ => 5
  | .createAsset _ => 6
  | .issueAsset _ => 8
  | .assetUpdateProperties _ => 9
  | .assetUpdatePermissions _ => 10
  | .assetUpdateWhitelist _ => 11
  | .defineSlate _ => 18
  | .burn _ => 20
  | .updateSigningKey _ => 24
  | .updateBalanceVote _ => 27
  | .data _ => 29
  | .ad _ => 39
  | .note _ => noteOpType
  | .redPacket _ => 41
  | .claimPacket _ => 42
  | .buyChips _ => 46
  | .game (.create _) => 47
  | .game (.update _) => 48
  | .game (.play _) => 49
  | .unregistered type => type

variable [Crypto]

/-! ## Evaluating with the fees -/

namespace PendingState

/-- `transaction_evaluation_state::evaluate`, with `total_base_equivalent_fees_paid`, where `run`
evaluates from the signatures on. -/
def evaluateWithFeesBy
    (run : EvalContext → PendingLedger → SignedTransaction → Except Error EvalState)
    (p : PendingState) (d : ChainTables) (ctx : EvalContext) (trx : SignedTransaction) :
    Except Error (PendingState × ShareType) := do
  require (ctx.now < trx.expiration) .expiredTransaction
  require (trx.expiration ≤ ctx.now + MAX_TRANSACTION_EXPIRATION_SEC) .invalidTransactionExpiration
  require (!p.isKnownTransaction d trx.toTransaction) .duplicateTransaction
  let e ← run ctx p.ledger trx
  let p := { p with ledger := e.pending }.storeTransaction (Crypto.transactionId trx) ⟨trx, (0, 0)⟩
  return (p, e.totalBaseEquivalentFeesPaid)

/-- `transaction_evaluation_state::evaluate` on a node without games. -/
def evaluateWithFees (p : PendingState) (d : ChainTables) (ctx : EvalContext)
    (trx : SignedTransaction) : Except Error (PendingState × ShareType) :=
  p.evaluateWithFeesBy evaluateLedger d ctx trx

end PendingState

variable [Wire]

/-! ## The loop over the pending transactions -/

/-- What the loop has so far: the overlay, the transactions of the block, and the size as it
tracks it. -/
structure Production where
  pending : PendingState
  transactions : List SignedTransaction := []
  blockSize : Nat

namespace DelegateConfig

/-- Evaluate a transaction with `_enforce_canonical_signatures` set as configured. -/
def evaluate (c : DelegateConfig) (d : ChainTables) (ctx : EvalContext) (p : PendingState)
    (trx : SignedTransaction) : Except Error (PendingState × ShareType) := do
  require (!c.transactionCanonicalSignaturesRequired || ctx.skipSignatureCheck ||
    trx.signatures.all Wire.isCanonical) (.assertion "")
  p.evaluateWithFees d ctx trx

/-- One turn of the loop, up to the check of the count: `none` if the transaction is excluded. -/
def consider (c : DelegateConfig) (d : ChainTables) (ctx : EvalContext) (acc : Production)
    (trx : SignedTransaction) : Option Production :=
  if c.transactionMaxSize.toNat < Wire.dataSize trx then none
  else if c.blockMaxSize.toNat < acc.blockSize + Wire.dataSize trx then none
  else if c.transactionBlacklist.mem (Crypto.transactionId trx) then none
  else if trx.operations.any fun op => c.operationBlacklist.mem op.type then none
  else
    match c.evaluate d ctx acc.pending trx with
    | .error _ => none
    | .ok (p, fee) =>
      if fee < c.transactionMinFee then none
      else some {
        pending := p
        transactions := acc.transactions ++ [trx]
        blockSize := acc.blockSize + Wire.dataSize trx }

/-- The loop.  `elapsed i` is the time gone by when it comes to the `i`-th pending transaction. -/
def fill (c : DelegateConfig) (d : ChainTables) (ctx : EvalContext) (elapsed : Nat → Int) :
    List SignedTransaction → Nat → Production → Production
  | [], _, acc => acc
  | trx :: rest, i, acc =>
    if c.blockMaxProductionTime ≤ elapsed i then acc
    else
      match c.consider d ctx acc trx with
      | none => fill c d ctx elapsed rest (i + 1) acc
      | some acc =>
        if c.blockMaxTransactionCount.toNat ≤ acc.transactions.length then acc
        else fill c d ctx elapsed rest (i + 1) acc

/-- The transactions of a new block, from the state in which the markets are executed. -/
def produce (c : DelegateConfig) (d : ChainTables) (ctx : EvalContext) (elapsed : Nat → Int)
    (pool : List SignedTransaction) (p : PendingState) : Production :=
  let start : Production := { pending := p, blockSize := signedHeaderSize + transactionsSize [] }
  if 0 < c.blockMaxTransactionCount.toNat ∧ start.blockSize < c.blockMaxSize.toNat then
    c.fill d ctx elapsed pool 0 start
  else start

end DelegateConfig

/-- What a transaction that is not in a block yet is evaluated against: its signatures are always
checked. -/
def ChainState.pendingContext (s : ChainState) (cfg : NodeConfig) : EvalContext :=
  { s.evalContext cfg with skipSignatureCheck := false }

end BitShares
