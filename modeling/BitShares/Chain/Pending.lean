import BitShares.Chain.Tables

/-!
# The pending state of a block

`PendingState` is the overlay a block is evaluated in: the pending ledger of the operations, the
transactions with their digests, slots, feeds, and the market and game tables.  `ChainState` is
the database it lies over, with the head block and the stored blocks.
-/

namespace BitShares

/-- What the node is configured with: its clock (`blockchain::now`), whether it verifies the
signatures of transactions, whether it keeps statistics, and the checkpoints. -/
structure NodeConfig where
  clock : Time
  verifyTransactionSignatures : Bool := true
  statisticsEnabled : Bool := false
  checkpoints : OrdMap BlockNum BlockId := ∅
  lastCheckpointBlockNum : BlockNum := 0
  /-- `_min_undo_block`, below which a replay keeps no undo states. -/
  minUndoBlock : BlockNum := 0

/-- `signed_block_header()`, the head before the first block. -/
def SignedBlockHeader.null : SignedBlockHeader where
  previous := nullId
  blockNum := 0
  timestamp := 0
  transactionDigest := 0
  nextSecretHash := 0
  previousSecret := 0
  delegateSignature := 0

/-- What a pending state has collected, table by table: the part of `pending_chain_state` that
`apply_changes` reads.  An undo state is one too. -/
structure Batch where
  properties : Overlay PropertyId PropertyValue := .empty
  accounts : Overlay AccountId AccountRecord := .empty
  assets : Overlay AssetId AssetRecord := .empty
  slates : Overlay SlateId SlateRecord := .empty
  balances : Overlay BalanceId BalanceRecord := .empty
  transactions : Overlay TransactionId TransactionRecord := .empty
  burns : Overlay MessageIndex BurnRecord := .empty
  ads : Overlay MessageIndex AdRecord := .empty
  notes : Overlay MessageIndex NoteRecord := .empty
  packets : Overlay PacketId PacketRecord := .empty
  operationRewards : Overlay OperationId OperationRewardRecord := .empty
  slots : Overlay SlotIndex SlotRecord := .empty
  games : Overlay GameId GameRecord := .empty
  marketStatuses : Overlay (AssetId × AssetId) MarketStatus := .empty
  gameStatuses : Overlay GameId GameStatus := .empty
  bids : Overlay MarketIndexKey OrderRecord := .empty
  asks : Overlay MarketIndexKey OrderRecord := .empty
  marketHistory : Overlay MarketHistoryKey MarketHistoryRecord := .empty
  feeds : Overlay FeedIndex FeedRecord := .empty
  marketTransactions : List MarketTransaction := []
  operationRewardTransactions : List OperationRewardTransaction := []
  dirtyMarkets : List (AssetId × AssetId) := []
  gameData : Overlay (GameId × DataId) GameDataRecord := .empty
  gameResultTransactions : List GameResultTransaction := []

structure ChainState where
  tables : ChainTables
  headId : BlockId := nullId
  head : SignedBlockHeader := .null
  /-- `_block_id_to_full_block`. -/
  blocks : Table BlockId FullBlock := ∅
  /-- `_block_num_to_id_db`. -/
  blockNumToId : Table BlockNum BlockId := ∅
  /-- `_block_id_to_undo_state`. -/
  undoStates : Table BlockId Batch := ∅

/-- `chain_database::now`: the time of the head, and before the first block the last full slot of
the clock. -/
def ChainState.now (s : ChainState) (cfg : NodeConfig) : Time :=
  if s.head.blockNum = 0 then (cfg.clock / BLOCK_INTERVAL_SEC - 1) * BLOCK_INTERVAL_SEC
  else s.head.timestamp

def ChainState.getBlock (s : ChainState) (n : BlockNum) : Except Error FullBlock := do
  let id ← expect (s.blockNumToId.lookup n) .unknownBlock
  expect (s.blocks.lookup id) .unknownBlock

namespace ChainTables

def getActiveDelegates (d : ChainTables) : Except Error (List AccountId) :=
  match d.properties.lookup .activeDelegateListId with
  | some (.ids l) => .ok l
  | _ => .error (.assertion "")

def getSlotSignee (d : ChainTables) (timestamp : Time) (delegates : List AccountId) :
    Except Error AccountRecord := do
  let id ← expect delegates[timestamp / BLOCK_INTERVAL_SEC % NUM_DELEGATES]? (.assertion "")
  let r ← expect (d.accounts.lookup id) (.assertion "")
  require r.isDelegate (.assertion "")
  return r

def getDirtyMarkets (d : ChainTables) : List (AssetId × AssetId) :=
  match d.properties.lookup .dirtyMarkets with
  | some (.markets l) => l
  | _ => []

/-- `BTS_BLOCKCHAIN_MIN_FEEDS`. -/
def MIN_FEEDS : Nat := NUM_DELEGATES / 2 + 1

/-- `get_active_feed_price`: the median of the active delegates' feeds of the last day. -/
def getActiveFeedPrice (d : ChainTables) (now : Time) (quoteId : AssetId) : Option Price :=
  match d.getActiveDelegates with
  | .error _ => none
  | .ok delegates =>
    let prices := delegates.filterMap fun id =>
      (d.feeds.lookup ⟨quoteId, id⟩).bind fun feed =>
        if (now : Int) - feed.lastUpdate < 24 * 60 * 60 ∧ feed.value.quoteAssetId = quoteId ∧
          feed.value.baseAssetId = 0 then some feed.value else none
    if MIN_FEEDS ≤ prices.length then
      (prices.insertionSort fun a b => a.ratio ≤ b.ratio)[prices.length / 2]?
    else none

end ChainTables

/-! ## The overlay -/

structure PendingState where
  ledger : PendingLedger
  transactions : Layered TransactionId TransactionRecord
  transactionDigests : List Digest := []
  feeds : Layered FeedIndex FeedRecord
  slots : Layered SlotIndex SlotRecord
  slotDelegates : Index Time
  bids : Layered MarketIndexKey OrderRecord
  asks : Layered MarketIndexKey OrderRecord
  dirtyMarkets : List (AssetId × AssetId) := []
  marketStatuses : Layered (AssetId × AssetId) MarketStatus
  marketHistory : Layered MarketHistoryKey MarketHistoryRecord
  marketTransactions : List MarketTransaction := []
  operationRewardTransactions : List OperationRewardTransaction := []
  gameStatuses : Layered GameId GameStatus
  gameResultTransactions : List GameResultTransaction := []

def PendingState.over (d : ChainTables) : PendingState where
  ledger := .over d.toLedgerTables
  transactions := .over d.transactions
  feeds := .over d.feeds
  slots := .over d.slots
  slotDelegates := ⟨d.slotDelegates, ∅⟩
  bids := .over d.bids
  asks := .over d.asks
  marketStatuses := .over d.marketStatuses
  marketHistory := .over d.marketHistory
  gameStatuses := .over d.gameStatuses

namespace PendingState

/-- `slot_record::store` on the overlay.  The old record under an index has the index's own
timestamp, unless it was stored under another index. -/
def storeSlotRecord (p : PendingState) (r : SlotRecord) : PendingState :=
  let timestamps := match p.slots.lookup r.index with
    | some o => if o.index.timestamp ≠ r.index.timestamp then
        p.slotDelegates.pending.erase o.index.timestamp else p.slotDelegates.pending
    | none => p.slotDelegates.pending
  { p with
    slots := p.slots.insert r.index r
    slotDelegates := { p.slotDelegates with
      pending := timestamps.insert r.index.timestamp r.index.delegateId } }

def storeMarketStatus (p : PendingState) (s : MarketStatus) : PendingState :=
  { p with marketStatuses := p.marketStatuses.insert (s.quoteId, s.baseId) s }

variable [Crypto]

/-- `transaction_record::store` on the overlay. -/
def storeTransaction (p : PendingState) (id : TransactionId) (r : TransactionRecord) :
    PendingState :=
  { p with
    transactions := p.transactions.insert id r
    transactionDigests := List.insert (Crypto.transactionDigest r.trx.toTransaction)
      p.transactionDigests }

/-- `is_known_transaction`: by digest in the overlay, by expiration and digest below. -/
def isKnownTransaction (p : PendingState) (d : ChainTables) (trx : Transaction) : Bool :=
  Crypto.transactionDigest trx ∈ p.transactionDigests || d.isKnownTransaction trx

/-- `transaction_evaluation_state::evaluate`, where `run` is what it does to the ledger: it depends
on the operations that are registered. -/
def evaluateBy (run : EvalContext → PendingLedger → SignedTransaction → Except Error EvalState)
    (p : PendingState) (d : ChainTables) (ctx : EvalContext) (trx : SignedTransaction) :
    Except Error PendingState := do
  require (ctx.now < trx.expiration) .expiredTransaction
  require (trx.expiration ≤ ctx.now + MAX_TRANSACTION_EXPIRATION_SEC) .invalidTransactionExpiration
  require (!p.isKnownTransaction d trx.toTransaction) .duplicateTransaction
  let e ← run ctx p.ledger trx
  return { p with ledger := e.pending }.storeTransaction (Crypto.transactionId trx) ⟨trx, (0, 0)⟩

/-- The loop of `apply_transactions`. -/
def applyTransactionsBy
    (run : EvalContext → PendingLedger → SignedTransaction → Except Error EvalState)
    (d : ChainTables) (ctx : EvalContext) (blockNum : BlockNum) :
    List SignedTransaction → Nat → PendingState → Except Error PendingState
  | [], _, p => .ok p
  | trx :: rest, trxNum, p => do
    let p ← p.evaluateBy run d ctx trx
    let record ← expect (p.transactions.lookup (Crypto.transactionId trx)) (.assertion "")
    applyTransactionsBy run d ctx blockNum rest (trxNum + 1) (p.storeTransaction
      (Crypto.transactionId trx) { record with chainLocation := (blockNum, trxNum) })

end PendingState

end BitShares
