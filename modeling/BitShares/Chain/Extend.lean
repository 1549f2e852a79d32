import BitShares.Chain.Pending

/-!
# Extending the chain and taking a block back

`extend_chain` of `chain_database.cpp`: the header checks, the delegate's production record and
pay, the markets, the transactions, the round change, the note rewards, and then the batch of
writes with its undo batch.  `pop_block` applies the undo batch of the head.

Two parts of the source are not here: the node has no game client (`Game.Block` is about nodes that
have one), and the debug check of the order books writes nothing.
-/

namespace BitShares

variable [Crypto]

/-! ## Checks before anything is written -/

/-- The key a block counts as signed with.  Up to the last checkpoint the signature is not looked
at. -/
def ChainState.blockSignee (s : ChainState) (cfg : NodeConfig) (b : FullBlock) :
    Except Error PublicKey := do
  if cfg.lastCheckpointBlockNum < b.blockNum then
    expect (Crypto.recover b.delegateSignature (Crypto.headerDigest b.toBlockHeader)) (.assertion "")
  else
    require ((cfg.checkpoints.find b.blockNum).all (· = b.id)) .failedCheckpointVerification
    let r ← s.tables.getSlotSignee b.timestamp (← s.tables.getActiveDelegates)
    let d ← expect r.delegateInfo (.assertion "")
    return d.signingKey

/-- `verify_header`.  A block numbered 0 or 1 is not compared with the number and the time of the
head. -/
def ChainState.verifyHeader (s : ChainState) (cfg : NodeConfig) (b : FullBlock)
    (signee : PublicKey) : Except Error Unit := do
  require (b.blockNum ≤ 1 ∨ b.blockNum = s.head.blockNum + 1) .blockNumbersNotSequential
  require (b.previous = s.headId) .invalidPreviousBlockId
  require (b.timestamp % BLOCK_INTERVAL_SEC = 0) .invalidBlockTime
  require (b.blockNum ≤ 1 ∨ s.head.timestamp < b.timestamp) .timeInPast
  require (b.timestamp ≤ cfg.clock + BLOCK_INTERVAL_SEC * 2) .timeInFuture
  let ids := b.userTransactions.map Crypto.transactionId
  require (b.transactionDigest = Crypto.blockTransactionDigest ids) .invalidBlockDigest
  require ids.Nodup (.assertion "")
  let expected ← s.tables.getSlotSignee b.timestamp (← s.tables.getActiveDelegates)
  let d ← expect expected.delegateInfo (.assertion "")
  require (signee = d.signingKey) .invalidDelegateSignee

/-- What the transactions of the next block are evaluated against. -/
def ChainState.evalContext (s : ChainState) (cfg : NodeConfig) : EvalContext where
  now := s.now cfg
  headBlockNum := s.head.blockNum
  activeFeedPrice := s.tables.getActiveFeedPrice (s.now cfg)
  skipSignatureCheck := !cfg.verifyTransactionSignatures

/-- `get_account_record( address( signee ) )` of the database. -/
def ChainTables.accountByAddress (d : ChainTables) (a : Address) : Option AccountRecord :=
  (d.accountAddresses.lookup a).bind d.accounts.lookup

/-! ## Production and pay -/

/-- The slots from `start` that end before `stop`. -/
def slotsBetween (start stop : Time) : List Time :=
  (List.range ((stop - start + (BLOCK_INTERVAL_SEC - 1)) / BLOCK_INTERVAL_SEC)).map fun i =>
    start + i * BLOCK_INTERVAL_SEC

namespace PendingState

def storeAccount (p : PendingState) (r : AccountRecord) : PendingState :=
  { p with ledger := p.ledger.storeAccountRecord r }

def noteSlot (p : PendingState) (cfg : NodeConfig) (r : SlotRecord) : PendingState :=
  if cfg.statisticsEnabled then p.storeSlotRecord r else p

def missSlot (s : ChainState) (cfg : NodeConfig) (delegates : List AccountId) (p : PendingState)
    (slot : Time) : Except Error PendingState := do
  let signee ← s.tables.getSlotSignee slot delegates
  let r ← expect (p.ledger.getAccountRecord signee.id) (.assertion "")
  let d ← expect r.delegateInfo (.assertion "")
  let p := p.storeAccount { r with delegateInfo := some { d with blocksMissed := d.blocksMissed + 1 } }
  return p.noteSlot cfg ⟨⟨signee.id, slot⟩, none⟩

def updateDelegateProductionInfo (p : PendingState) (s : ChainState) (cfg : NodeConfig)
    (b : FullBlock) (signee : PublicKey) : Except Error PendingState := do
  let signer ← expect (s.tables.accountByAddress (Crypto.address signee)) (.assertion "")
  require signer.isDelegate (.assertion "")
  let r ← expect (p.ledger.getAccountRecord signer.id) (.assertion "")
  let d ← expect r.delegateInfo (.assertion "")
  require (d.nextSecretHash.all (Crypto.secretHash b.previousSecret = ·)) (.assertion "")
  let produced := { d with
    blocksProduced := d.blocksProduced + 1
    nextSecretHash := some b.nextSecretHash
    lastBlockNumProduced := b.blockNum }
  let p := p.storeAccount { r with delegateInfo := some produced }
  let p := p.noteSlot cfg ⟨⟨signer.id, b.timestamp⟩, some b.id⟩
  let start := if 0 < s.head.blockNum then s.head.timestamp + BLOCK_INTERVAL_SEC else b.timestamp
  let delegates ← s.tables.getActiveDelegates
  (slotsBetween start b.timestamp).foldlM (missSlot s cfg delegates) p

/-- `pay_delegate`.  What is issued is measured by the fees in the database, what is paid out of
fees by those in the pending state. -/
def payDelegate (p : PendingState) (s : ChainState) (signee : PublicKey) :
    Except Error PendingState := do
  let base ← expect (p.ledger.getAssetRecord 0) (.assertion "")
  let signer ← expect (s.tables.accountByAddress (Crypto.address signee)) (.assertion "")
  let r ← expect (p.ledger.getAccountRecord signer.id) (.assertion "")
  let d ← expect r.delegateInfo (.assertion "")
  require (d.payRate ≤ 100) (.assertion "")
  let rate := Int64.ofInt d.payRate.toNat
  let baseBelow ← expect (s.tables.assets.lookup 0) (.assertion "")
  let maxNewShares := maxDelegatePayIssuedPerBlock baseBelow.collectedFees
  let acceptedNewShares := maxNewShares * rate / 100
  require (0 ≤ maxNewShares ∧ 0 ≤ acceptedNewShares) (.assertion "")
  let maxCollectedFees := base.collectedFees / Int64.ofInt (14 * BLOCKS_PER_DAY)
  let acceptedCollectedFees := maxCollectedFees * rate / 100
  let destroyedCollectedFees := maxCollectedFees - acceptedCollectedFees
  require (0 ≤ maxCollectedFees ∧ 0 ≤ acceptedCollectedFees ∧ 0 ≤ destroyedCollectedFees)
    (.assertion "")
  let acceptedPaycheck := acceptedNewShares + acceptedCollectedFees
  require (0 ≤ acceptedPaycheck) (.assertion "")
  let paid := { d with
    votesFor := d.votesFor + acceptedPaycheck
    payBalance := d.payBalance + acceptedPaycheck
    totalPaid := d.totalPaid + acceptedPaycheck }
  let p := p.storeAccount { r with delegateInfo := some paid }
  return { p with ledger := p.ledger.storeAssetRecord { base with
    collectedFees := base.collectedFees - maxCollectedFees
    currentSupply := base.currentSupply + acceptedNewShares - destroyedCollectedFees } }

/-! ## Markets -/

/-- The last bid below a key, if the iterator is not at the end. -/
def bidBelow (bids : Table MarketIndexKey OrderRecord) (key : MarketIndexKey) : Bool :=
  decide (∃ k ∈ bids.keys, k.lt key)

/-- `get_next_bid` with the iterator at a bid or at the end.  A bid is asked for its price, and
`market_order::get_price` asserts in every branch, so the only bid returned without an exception
is none; the answer is whether the iterator is at a bid afterwards.  Without a feed price it is
decremented from the end to the last bid. -/
def getNextBid (bids : Table MarketIndexKey OrderRecord) (feedPrice : Option Price)
    (atBid : Bool) : Except Error Bool := do
  require (!atBid) (.assertion "Null Order")
  return feedPrice.isNone && decide (bids.keys.Nonempty)

/-- The key `market_engine::execute` looks for its first bid below. -/
def nextPairKey (quoteId baseId : AssetId) : MarketIndexKey :=
  if baseId + 1 = quoteId then ⟨⟨0, 0, quoteId + 1⟩, 0⟩ else ⟨⟨0, baseId + 1, quoteId⟩, 0⟩

/-- The body of `market_engine::execute` up to the writes: the records of the two assets and the
three passes over the order book, each of which ends with the first `get_next_bid`. -/
def matchOrders (p : PendingState) (s : ChainState) (cfg : NodeConfig) (quoteId baseId : AssetId) :
    Except Error (AssetRecord × AssetRecord) := do
  let quote ← expect (p.ledger.getAssetRecord quoteId) (.assertion "")
  let base ← expect (p.ledger.getAssetRecord baseId) (.assertion "")
  require (!quote.flagIsActive haltedMarkets) (.assertion "")
  require (!base.flagIsActive haltedMarkets) (.assertion "")
  let pegged := quote.isMarketIssued && decide (base.id = 0)
  let feedPrice := if pegged then s.tables.getActiveFeedPrice (s.now cfg) quoteId else none
  let status := p.marketStatuses.lookup (quoteId, baseId)
  require (!pegged || (status.bind (·.lastValidFeedPrice)).isSome || feedPrice.isSome)
    .insufficientFeeds
  let atBid := bidBelow s.tables.bids (nextPairKey quoteId baseId)
  let atBid ← getNextBid s.tables.bids feedPrice atBid
  let atBid ← getNextBid s.tables.bids feedPrice atBid
  let _ ← getNextBid s.tables.bids feedPrice atBid
  return (quote, base)

/-- `market_engine::execute`: on success the two asset records are stored again and the inner
pending state is applied to this one; on an exception only the error is noted. -/
def executeMarket (p : PendingState) (s : ChainState) (cfg : NodeConfig)
    (market : AssetId × AssetId) : PendingState :=
  let status := (p.marketStatuses.lookup market).getD
    { quoteId := market.1, baseId := market.2 : MarketStatus }
  match p.matchOrders s cfg market.1 market.2 with
  | .error e => p.storeMarketStatus { status with lastError := some e }
  | .ok (quote, base) =>
    let ledger := ((p.ledger.storeAssetRecord quote).storeAssetRecord base).storePropertyRecord
      .dirtyMarkets (.markets [])
    { p with
      ledger := ledger
      operationRewardTransactions := []
      gameResultTransactions := [] }.storeMarketStatus
      { status with lastError := none }

/-- `execute_markets`.  No order is ever filled, so there are no market transactions to set. -/
def executeMarkets (p : PendingState) (s : ChainState) (cfg : NodeConfig) :
    Except Error PendingState := do
  let markets := s.tables.getDirtyMarkets
  let p ← markets.foldlM (fun p market => do
    require (market.2 < market.1) (.assertion "")
    return executeMarket p s cfg market) p
  return { p with marketTransactions := [] }

/-! ## The round and the random seed -/

/-- `get_current_random_seed`. -/
def currentRandomSeed (properties : PropertyId → Option PropertyValue) : Nat :=
  match properties .lastRandomSeedId with
  | some (.hash h) => h
  | _ => 0

/-- `std::swap( l[ i ], l[ j ] )`. -/
def swapAt (l : List AccountId) (i j : Nat) : List AccountId :=
  match l[i]?, l[j]? with
  | some x, some y => (l.set i y).set j x
  | _, _ => l

/-- The shuffle of `update_active_delegate_list`. -/
def shuffle (seed : Nat) (delegates : List AccountId) : List AccountId :=
  (List.range delegates.length).foldl (fun l i =>
    swapAt l i ((Crypto.shuffleWords seed i).toNat % (delegates.length - i) + i)) delegates

/-- `update_active_delegate_list`: every 101 blocks the delegates with the most votes in the
database become the active ones. -/
def updateActiveDelegateList (p : PendingState) (d : ChainTables) (blockNum : BlockNum) :
    PendingState :=
  if blockNum % NUM_DELEGATES ≠ 0 then p
  else
    let next := (d.delegateVotes.toList.take NUM_DELEGATES).map fun k => (ofLex k).2
    let shuffled := shuffle (currentRandomSeed p.ledger.properties.lookup) next
    { p with ledger := p.ledger.storePropertyRecord .activeDelegateListId (.ids shuffled) }

def updateRandomSeed (p : PendingState) (newSecret : SecretHash) : PendingState :=
  let seed := Crypto.nextRandomSeed newSecret (currentRandomSeed p.ledger.properties.lookup)
  { p with ledger := p.ledger.storePropertyRecord .lastRandomSeedId (.hash seed) }

/-! ## Rewards for notes -/

def noteIndexes (b : FullBlock) : List MessageIndex :=
  b.userTransactions.flatMap fun trx => trx.operations.filterMap fun
    | .note op => some ⟨op.ownerAccountId, Crypto.transactionId trx⟩
    | _ => none

def seedWord (seed i : Nat) : UInt64 := UInt64.ofNat (seed / 2 ^ (32 * i) % 2 ^ 32)

def drawFirst (seed : Nat) (notes : List MessageIndex) : List MessageIndex × List MessageIndex :=
  let i := (seedWord seed 0).toNat % notes.length
  (notes[i]?.toList, notes.eraseIdx i)

/-- The winners of a later level: all notes if there are at most `k`, else the combination of `k`
that the seed ranks.  Sizes are passed as 16-bit numbers. -/
def drawCombination (word : UInt64) (k : Nat) (notes : List MessageIndex) :
    Except Error (List MessageIndex × List MessageIndex) :=
  if notes.length ≤ k then .ok (notes, [])
  else do
    let n := notes.length % 2 ^ 16
    require (drawEnds word k n) .endlessLoop
    require (cnr n k ≠ 0) .divideByZero
    let lucky := unranking (word % cnr n k) k n
    let winners ← lucky.mapM fun i => expect notes[i]? (.assertion "")
    return (winners, lucky.reverse.foldl List.eraseIdx notes)

/-- `note_record::signer_key`. -/
def noteSigner (r : NoteRecord) : Except Error PublicKey := do
  let signer ← expect r.signer (.assertion "")
  let message ← expect r.message (.assertion "")
  let digest := if message.data.isEmpty then 0 else Crypto.noteDigest message.data
  expect (Crypto.recover signer digest) (.assertion "")

/-- Pay one reward into the plain base balance of the note's signer; `acc` carries what was paid
so far. -/
def payReward (now : Time) (level : String) (reward : ShareType) (acc : PendingState × ShareType)
    (index : MessageIndex) : Except Error (PendingState × ShareType) := do
  let (p, rewardFee) := acc
  let note ← expect (p.ledger.notes.lookup index) (.assertion "")
  let owner := Crypto.address (← noteSigner note)
  let trx := ⟨owner, noteOpType, ⟨reward, 0⟩, level ++ toString index.transactionId⟩
  let p := { p with
    ledger := p.ledger.creditOwner now owner ⟨reward, 0⟩
    operationRewardTransactions := p.operationRewardTransactions ++ [trx] }
  return (p, rewardFee + reward)

/-- The payout of a day: one note gets 40 percent of the day's fees, two get 15 each and five get
6 each. -/
def payNotes (p : PendingState) (now : Time) (seed : Nat) (fees : ShareType)
    (notes : List MessageIndex) : Except Error (PendingState × ShareType) := do
  let (first, rest) := drawFirst seed notes
  let acc ← first.foldlM (payReward now "First reward from transaction: " (fees * 40 / 100)) (p, 0)
  let (second, rest) ← drawCombination (seedWord seed 1) 2 rest
  let acc ← second.foldlM (payReward now "Second reward from transaction: " (fees * 15 / 100)) acc
  let (third, _) ← drawCombination (seedWord seed 2) 5 rest
  third.foldlM (payReward now "Third reward from transaction: " (fees * 6 / 100)) acc

/-- The notes of the day that ends with block `blockNum`. -/
def notesOfDay (s : ChainState) (blockNum : BlockNum) : Except Error (List MessageIndex) := do
  let begin := max 1 (blockNum - BLOCKS_PER_DAY)
  let blocks ← (List.range' begin (blockNum - begin)).mapM s.getBlock
  return blocks.flatMap noteIndexes

def payDay (p : PendingState) (s : ChainState) (cfg : NodeConfig) (blockNum : BlockNum)
    (fees : ShareType) : Except Error (PendingState × ShareType) :=
  if blockNum % BLOCKS_PER_DAY = 0 then do
    let notes ← notesOfDay s blockNum
    p.payNotes (s.now cfg) (currentRandomSeed s.tables.properties.lookup) fees notes
  else .ok (p, 0)

def payOperationRewards (p : PendingState) (s : ChainState) (cfg : NodeConfig)
    (blockNum : BlockNum) : Except Error PendingState :=
  match p.ledger.operationRewards.lookup noteOpType with
  | none => .ok p
  | some r => do
    let fees := r.feeOf 0 * Int64.ofInt BLOCKS_PER_DAY / Int64.ofInt (14 * BLOCKS_PER_DAY)
    let (p, rewardFee) ← payDay { p with operationRewardTransactions := [] } s cfg blockNum fees
    return { p with
      ledger := p.ledger.storeOperationRewardRecord
        { r with fees := r.fees.set 0 (r.feeOf 0 - rewardFee) } }

end PendingState

/-! ## Batches and undo batches -/

/-- `apply_changes` over the chain database, where `headNum` is the number of its head.  The dirty
markets come last, after the properties. -/
def Batch.applyChanges (c : Batch) (headNum : BlockNum) (d : ChainTables) : ChainTables :=
  let d := { d with properties := c.properties.applyTo d.properties }
  let d := c.accounts.applyRecords ChainTables.removeAccount ChainTables.storeAccount d
  let d := c.assets.applyRecords ChainTables.removeAsset ChainTables.storeAsset d
  let d := { d with
    slates := c.slates.applyTo d.slates
    balances := c.balances.applyTo d.balances }
  let d := c.transactions.applyRecords ChainTables.removeTransaction
    ChainTables.storeTransaction d
  let d := { d with
    burns := c.burns.applyTo d.burns
    ads := c.ads.applyTo d.ads
    notes := c.notes.applyTo d.notes
    packets := c.packets.applyTo d.packets
    operationRewards := c.operationRewards.applyTo d.operationRewards }
  let d := c.slots.applyRecords ChainTables.removeSlot ChainTables.storeSlot d
  let d := c.games.applyRecords ChainTables.removeGame ChainTables.storeGame d
  let d := c.marketStatuses.stored.entries.foldl (fun d e => d.storeMarketStatus e.2) d
  { d with
    gameStatuses := c.gameStatuses.stored.entries.foldl
      (fun t e => Overlay.putAt GameStatus.isNull t e.2.gameId e.2) d.gameStatuses
    bids := c.bids.putTo OrderRecord.isNull d.bids
    asks := c.asks.putTo OrderRecord.isNull d.asks
    marketHistory := c.marketHistory.putTo MarketHistoryRecord.isNull d.marketHistory
    feeds := c.feeds.applyTo d.feeds
    marketTransactions := setAt d.marketTransactions (headNum + 1) c.marketTransactions
    operationRewardTransactions :=
      setAt d.operationRewardTransactions (headNum + 1) c.operationRewardTransactions
    properties := d.properties.insert .dirtyMarkets (.markets c.dirtyMarkets)
    gameData := c.gameData.putTo GameDataRecord.isNull d.gameData
    gameResultTransactions :=
      setAt d.gameResultTransactions (headNum + 1) c.gameResultTransactions }

def PendingState.batch (p : PendingState) : Batch where
  properties := p.ledger.properties.overlay
  accounts := p.ledger.accounts.overlay
  assets := p.ledger.assets.overlay
  slates := p.ledger.slates.overlay
  balances := p.ledger.balances.overlay
  transactions := p.transactions.overlay
  burns := p.ledger.burns.overlay
  ads := p.ledger.ads.overlay
  notes := p.ledger.notes.overlay
  packets := p.ledger.packets.overlay
  operationRewards := p.ledger.operationRewards.overlay
  slots := p.slots.overlay
  games := p.ledger.games.overlay
  marketStatuses := p.marketStatuses.overlay
  gameStatuses := p.gameStatuses.overlay
  bids := p.bids.overlay
  asks := p.asks.overlay
  marketHistory := p.marketHistory.overlay
  feeds := p.feeds.overlay
  marketTransactions := p.marketTransactions
  operationRewardTransactions := p.operationRewardTransactions
  dirtyMarkets := p.dirtyMarkets
  gameData := p.ledger.gameData.overlay
  gameResultTransactions := p.gameResultTransactions

/-- What `build_undo_state` keeps of a market's status: the one below, or a null status. -/
def undoStatuses (l : Layered (AssetId × AssetId) MarketStatus) :
    Overlay (AssetId × AssetId) MarketStatus :=
  l.overlay.stored.entries.foldl (fun o e =>
    let status := (l.prev.lookup e.1).getD {}
    o.insert (status.quoteId, status.baseId) status) .empty

/-- `order_price.asset_pair()` of the orders a batch stores. -/
def Overlay.assetPairs (o : Overlay MarketIndexKey OrderRecord) : List (AssetId × AssetId) :=
  o.stored.entries.map fun e => (e.1.orderPrice.quoteAssetId, e.1.orderPrice.baseAssetId)

/-- `build_undo_state`.  Ads, operation rewards, the market history and the transactions per block
are not walked over; the orders stored back mark their markets dirty. -/
def PendingState.buildUndoState (p : PendingState) (d : ChainTables) : Batch where
  properties := p.ledger.properties.undo.insert .dirtyMarkets (.markets d.getDirtyMarkets)
  accounts := p.ledger.accounts.undo
  assets := p.ledger.assets.undo
  slates := p.ledger.slates.undo
  balances := p.ledger.balances.undo
  transactions := p.transactions.undo
  burns := p.ledger.burns.undo
  notes := p.ledger.notes.undo
  packets := p.ledger.packets.undo
  slots := p.slots.undo
  games := p.ledger.games.undo
  feeds := p.feeds.undo
  bids := p.bids.undoEntries fun _ _ => ⟨0, none, 0⟩
  asks := p.asks.undoEntries fun _ _ => ⟨0, none, 0⟩
  dirtyMarkets := (p.bids.overlay.assetPairs ++ p.asks.overlay.assetPairs).dedup
  marketStatuses := undoStatuses p.marketStatuses
  gameStatuses := p.gameStatuses.undoEntries fun id _ => { gameId := id }
  gameData := p.ledger.gameData.undoEntries fun _ r => r.makeNull

/-- What `fc::raw` packs of a batch and unpacks again: the members that `FC_REFLECT` names.  The
games and their statuses are not among them. -/
def Batch.reflected (c : Batch) : Batch where
  properties := c.properties
  accounts := c.accounts
  assets := c.assets
  slates := c.slates
  balances := c.balances
  transactions := c.transactions
  burns := c.burns
  ads := c.ads
  notes := c.notes
  packets := c.packets
  operationRewards := c.operationRewards
  feeds := c.feeds
  slots := c.slots
  asks := c.asks
  bids := c.bids
  dirtyMarkets := c.dirtyMarkets
  marketTransactions := c.marketTransactions
  marketStatuses := c.marketStatuses
  marketHistory := c.marketHistory
  gameData := c.gameData
  gameResultTransactions := c.gameResultTransactions
  operationRewardTransactions := c.operationRewardTransactions

/-! ## The chain -/

namespace ChainState

/-- `extend_chain` up to the note rewards, where `run` evaluates the transactions. -/
def evaluateBlockBy
    (run : EvalContext → PendingLedger → SignedTransaction → Except Error EvalState)
    (s : ChainState) (cfg : NodeConfig) (b : FullBlock) : Except Error PendingState := do
  let signee ← s.blockSignee cfg b
  s.verifyHeader cfg b signee
  let p ← (PendingState.over s.tables).updateDelegateProductionInfo s cfg b signee
  let p ← p.payDelegate s signee
  let p ← p.executeMarkets s cfg
  let p ← PendingState.applyTransactionsBy run s.tables (s.evalContext cfg) b.blockNum
    b.userTransactions 0 p
  let p := (p.updateActiveDelegateList s.tables b.blockNum).updateRandomSeed b.previousSecret
  p.payOperationRewards s cfg b.blockNum

/-- `extend_chain` up to the end of the evaluation, on a node without games. -/
def evaluateBlock (s : ChainState) (cfg : NodeConfig) (b : FullBlock) : Except Error PendingState :=
  evaluateBlockBy evaluateLedger s cfg b

/-- The undo states without the one of the block that leaves the window when `n` comes in. -/
def dropOldUndo (s : ChainState) (n : BlockNum) : Except Error (Table BlockId Batch) :=
  if MAX_UNDO_HISTORY < n then do
    let old ← expect (s.blockNumToId.lookup (n - MAX_UNDO_HISTORY)) .unknownBlock
    return s.undoStates.erase old
  else .ok s.undoStates

def saveUndoState (s : ChainState) (cfg : NodeConfig) (b : FullBlock) (p : PendingState) :
    Except Error ChainState :=
  if b.blockNum < cfg.minUndoBlock then .ok s
  else do
    let states ← s.dropOldUndo b.blockNum
    return { s with undoStates := states.insert b.id (p.buildUndoState s.tables) }

def purgeUnique (t : OrdSet (ℕ ×ₗ ℕ)) (now : Time) : OrdSet (ℕ ×ₗ ℕ) :=
  OrdSet.dropWhile t fun k => (ofLex k).1 ≤ now

/-- `extend_chain` after the evaluation; the fork flags are in `Fork`. -/
def commitBlock (s : ChainState) (cfg : NodeConfig) (b : FullBlock) (p : PendingState) :
    Except Error ChainState := do
  let s ← s.saveUndoState cfg b p
  let s := { s with
    tables := p.batch.applyChanges s.head.blockNum s.tables
    head := b.toSignedBlockHeader
    headId := b.id
    blockNumToId := s.blockNumToId.insert b.blockNum b.id }
  return { s with
    tables := { s.tables with
      uniqueTransactions := purgeUnique s.tables.uniqueTransactions (s.now cfg) } }

/-- `extend_chain` on a node without games. -/
def extendChain (s : ChainState) (cfg : NodeConfig) (b : FullBlock) : Except Error ChainState := do
  s.commitBlock cfg b (← s.evaluateBlock cfg b)

def previousHeader (s : ChainState) : Except Error SignedBlockHeader :=
  if s.head.previous = nullId then .ok .null
  else do
    let b ← expect (s.blocks.lookup s.head.previous) .unknownBlock
    return b.toSignedBlockHeader

/-- `pop_block`.  At a head numbered 0 it does nothing. -/
def popBlock (s : ChainState) : Except Error ChainState :=
  if s.head.blockNum = 0 then .ok s
  else do
    let undo ← expect (s.undoStates.lookup s.headId) (.assertion "")
    let head ← s.previousHeader
    return { s with
      tables := undo.applyChanges s.head.blockNum s.tables
      blockNumToId := s.blockNumToId.erase s.head.blockNum
      headId := s.head.previous
      head := head }

end ChainState

end BitShares
