import BitShares.Chain.Produce
import BitShares.Game.Block
import BitShares.Lib.Program

/-!
# The pending transactions

The pool of `chain_database.cpp`: the stored transactions (`_pending_transaction_db`), those among
them that have been evaluated with the fees they pay (`_pending_fee_index`), and the overlay they
were evaluated in (`_pending_trx_state`).

The overlay lies over the chain database itself.  It is kept here without what is below it, and laid
over the database whenever it is read (`PendingState.rebase`).  A transaction is evaluated in an
overlay of its own, which is only merged when the fee is found to be sufficient.
-/

namespace BitShares

/-! ## An overlay on another database -/

def PendingLedger.rebase (p : PendingLedger) (t : LedgerTables) : PendingLedger where
  properties := { p.properties with prev := t.properties }
  accounts := { p.accounts with prev := t.accounts }
  accountNames := { p.accountNames with prev := t.accountNames }
  accountAddresses := { p.accountAddresses with prev := t.accountAddresses }
  assets := { p.assets with prev := t.assets }
  assetSymbols := { p.assetSymbols with prev := t.assetSymbols }
  games := { p.games with prev := t.games }
  gameNames := { p.gameNames with prev := t.gameNames }
  slates := { p.slates with prev := t.slates }
  balances := { p.balances with prev := t.balances }
  burns := { p.burns with prev := t.burns }
  ads := { p.ads with prev := t.ads }
  notes := { p.notes with prev := t.notes }
  packets := { p.packets with prev := t.packets }
  operationRewards := { p.operationRewards with prev := t.operationRewards }
  gameData := { p.gameData with prev := t.gameData }

/-- The overlay as it reads over the database `d`. -/
def PendingState.rebase (p : PendingState) (d : ChainTables) : PendingState :=
  { p with
    ledger := p.ledger.rebase d.toLedgerTables
    transactions := { p.transactions with prev := d.transactions }
    feeds := { p.feeds with prev := d.feeds }
    slots := { p.slots with prev := d.slots }
    slotDelegates := { p.slotDelegates with prev := d.slotDelegates }
    bids := { p.bids with prev := d.bids }
    asks := { p.asks with prev := d.asks }
    marketStatuses := { p.marketStatuses with prev := d.marketStatuses }
    marketHistory := { p.marketHistory with prev := d.marketHistory }
    gameStatuses := { p.gameStatuses with prev := d.gameStatuses } }

/-- `transaction_evaluation_state::evaluate` over the head of `s`. -/
def PendingState.evaluateOn [Crypto] (p : PendingState) (s : ChainState) (cfg : ClientConfig)
    (trx : SignedTransaction) : Except Error (PendingState × ShareType) :=
  p.evaluateWithFeesBy cfg.evaluate s.tables (s.pendingContext cfg.toNodeConfig) trx

/-! ## The pool -/

structure FeeIndex where
  fees : ShareType
  trx : TransactionId
  deriving DecidableEq

structure Pool where
  /-- `_pending_trx_state`. -/
  state : PendingState := .over {}
  /-- `_pending_fee_index`, with the transaction of each evaluation state. -/
  feeIndex : Table FeeIndex SignedTransaction := ∅
  /-- `_pending_transaction_db`. -/
  transactions : Table TransactionId SignedTransaction := ∅
  /-- `_relay_fee`. -/
  relayFee : ShareType

abbrev PoolM := Program Error Pool

namespace PoolM

open Program

variable [Crypto]

/-- `evaluate_transaction`, which returns the fees. -/
def evaluateTransaction (s : ChainState) (cfg : ClientConfig) (trx : SignedTransaction)
    (requiredFees : ShareType) : PoolM ShareType := do
  let pool ← get
  match (pool.state.rebase s.tables).evaluateOn s cfg trx with
  | .error e => fail e
  | .ok (state, fees) =>
    if fees < requiredFees then fail .insufficientRelayFee
    else do
      update fun pool => { pool with state := state }
      return fees

def requiredFee (pool : Pool) (overrideLimits : Bool) : ShareType :=
  if !overrideLimits && decide (MAX_PENDING_QUEUE_SIZE < pool.feeIndex.keys.card) then
    let overage := Int64.ofNat (pool.feeIndex.keys.card - MAX_PENDING_QUEUE_SIZE)
    pool.relayFee * overage * overage
  else pool.relayFee

/-- `store_pending_transaction`, which returns no evaluation for a stored transaction. -/
def storePendingTransaction (s : ChainState) (cfg : ClientConfig) (trx : SignedTransaction)
    (overrideLimits : Bool) : PoolM (Option ShareType) := do
  let pool ← get
  match pool.transactions.lookup (Crypto.transactionId trx) with
  | some _ => return none
  | none =>
    let fees ← evaluateTransaction s cfg trx (requiredFee pool overrideLimits)
    update fun pool => { pool with
      feeIndex := pool.feeIndex.insert ⟨fees, Crypto.transactionId trx⟩ trx }
    update fun pool => { pool with
      transactions := pool.transactions.insert (Crypto.transactionId trx) trx }
    return some fees

/-- One turn of the loop of `revalidate_pending`: whether the transaction is to be discarded. -/
def revalidate (s : ChainState) (cfg : ClientConfig) (id : TransactionId) : PoolM Bool := do
  let pool ← get
  match pool.transactions.lookup id with
  | none => return false
  | some trx =>
    attempt (do
      let fees ← evaluateTransaction s cfg trx pool.relayFee
      update fun pool => { pool with feeIndex := pool.feeIndex.insert ⟨fees, id⟩ trx }
      return false) fun _ => return true

/-- The loop of `revalidate_pending`: the transactions to be discarded. -/
def revalidateAll (s : ChainState) (cfg : ClientConfig) :
    List TransactionId → List TransactionId → PoolM (List TransactionId)
  | [], discard => return discard
  | id :: ids, discard => do
    let bad ← revalidate s cfg id
    revalidateAll s cfg ids (if bad then discard ++ [id] else discard)

def revalidatePending (s : ChainState) (cfg : ClientConfig) : PoolM Unit := do
  update fun pool => { pool with feeIndex := ∅ }
  update fun pool => { pool with state := .over {} }
  let pool ← get
  let discard ← revalidateAll s cfg pool.transactions.sortedKeys []
  update fun pool => { pool with
    transactions := discard.foldl (fun t id => t.erase id) pool.transactions }

end PoolM

def Pool.clearPending [Crypto] (pool : Pool) (b : FullBlock) : Pool :=
  { pool with
    transactions := b.userTransactions.foldl (fun t trx => t.erase (Crypto.transactionId trx))
      pool.transactions
    feeIndex := ∅
    state := .over {} }

end BitShares
