import BitShares.Ledger.Evaluate
import Mathlib.Data.Prod.Lex

/-!
# The tables of the chain database

What `chain_database` keeps between blocks: the ledger tables with their secondary indexes, the
transactions with the set of keys that guards against replays, slots, feeds, and the market and
game tables.  The stores and removes here are the ones `account_record::store` and its siblings
perform on the database; a pending state is made permanent through them.
-/

namespace BitShares

/-! ## Records of the chain level -/

/-- A transaction with its place in the chain (`transaction_record`). -/
structure TransactionRecord where
  trx : SignedTransaction
  chainLocation : BlockNum × Nat := (0, 0)
  deriving DecidableEq

structure MarketStatus where
  quoteId : AssetId := 0
  baseId : AssetId := 0
  currentFeedPrice : Option Price := none
  lastValidFeedPrice : Option Price := none
  lastError : Option Error := none
  deriving DecidableEq

def MarketStatus.isNull (s : MarketStatus) : Bool := s.quoteId = s.baseId

structure MarketIndexKey where
  orderPrice : Price
  owner : Address
  deriving DecidableEq

/-- The order of the order books: by market, then by price, then by owner. -/
def MarketIndexKey.lt (a b : MarketIndexKey) : Bool :=
  let p := a.orderPrice
  let q := b.orderPrice
  p.quoteAssetId < q.quoteAssetId ∨ p.quoteAssetId = q.quoteAssetId ∧
    (p.baseAssetId < q.baseAssetId ∨ p.baseAssetId = q.baseAssetId ∧
      (p.ratio < q.ratio ∨ p.ratio = q.ratio ∧ a.owner < b.owner))

structure OrderRecord where
  balance : ShareType
  limitPrice : Option Price := none
  lastUpdate : Time := 0
  deriving DecidableEq

def OrderRecord.isNull (r : OrderRecord) : Bool := r.balance = 0

inductive TimeGranularity where
  | eachBlock
  | eachHour
  | eachDay
  deriving DecidableEq

structure MarketHistoryKey where
  quoteId : AssetId
  baseId : AssetId
  granularity : TimeGranularity
  timestamp : Time
  deriving DecidableEq

structure MarketHistoryRecord where
  highestBid : Price
  lowestAsk : Price
  openingPrice : Price
  closingPrice : Price
  volume : ShareType
  deriving DecidableEq

def MarketHistoryRecord.isNull (r : MarketHistoryRecord) : Bool := r.volume = 0

structure MarketTransaction where
  bidOwner : Address
  askOwner : Address
  bidPaid : Asset
  askPaid : Asset
  deriving DecidableEq

/-- `vote_del` and `rp_index`, as keys in the order the sets iterate: the larger amount first, the
lower id on ties. -/
def rankKey (amount : ShareType) (id : AccountId) : ℤ ×ₗ ℤ := toLex (-amount.toInt, id)

/-- `unique_transaction_key`. -/
def uniqueKey [Crypto] (trx : Transaction) : ℕ ×ₗ ℕ :=
  toLex (trx.expiration, Crypto.transactionDigest trx)

structure ChainTables extends LedgerTables where
  delegateVotes : OrdSet (ℤ ×ₗ ℤ) := ∅
  accountRps : OrdSet (ℤ ×ₗ ℤ) := ∅
  transactions : Table TransactionId TransactionRecord := ∅
  uniqueTransactions : OrdSet (ℕ ×ₗ ℕ) := ∅
  slots : Table SlotIndex SlotRecord := ∅
  slotDelegates : Table Time AccountId := ∅
  feeds : Table FeedIndex FeedRecord := ∅
  marketStatuses : Table (AssetId × AssetId) MarketStatus := ∅
  bids : Table MarketIndexKey OrderRecord := ∅
  asks : Table MarketIndexKey OrderRecord := ∅
  marketHistory : Table MarketHistoryKey MarketHistoryRecord := ∅
  marketTransactions : Table BlockNum (List MarketTransaction) := ∅
  operationRewardTransactions : Table BlockNum (List OperationRewardTransaction) := ∅
  gameStatuses : Table GameId GameStatus := ∅
  gameResultTransactions : Table BlockNum (List GameResultTransaction) := ∅

namespace AccountRecord

/-- The votes `account_record::store` takes out of the vote set before it stores `r` over `old`. -/
def droppedVotes (old r : AccountRecord) : Option (ℤ ×ₗ ℤ) :=
  if old.isDelegate ∧ !old.isRetracted ∧
      (r.isRetracted ∨ !r.isDelegate ∨ old.netVotes ≠ r.netVotes) then
    some (rankKey old.netVotes old.id)
  else none

def droppedRp (old r : AccountRecord) : Option (ℤ ×ₗ ℤ) :=
  if !old.isRetracted ∧ (r.isRetracted ∨ old.rp ≠ r.rp) then some (rankKey old.rp old.id) else none

end AccountRecord

/-- `set.erase( key )`, if there is a key to erase. -/
def OrdSet.eraseOpt {K : Type} [LinearOrder K] (s : OrdSet K) : Option K → OrdSet K
  | none => s
  | some k => s.erase k

namespace ChainTables

variable [Crypto]

/-! ## Stores and removes -/

/-- `account_record::store` on the database.  The reputation set is only ever taken from. -/
def storeAccount (d : ChainTables) (id : AccountId) (r : AccountRecord) : ChainTables :=
  let old := d.accounts.lookup id
  let names := match old with
    | some o => if o.name ≠ r.name then d.accountNames.erase o.name else d.accountNames
    | none => d.accountNames
  let addresses := match old with
    | some o => eraseAll d.accountAddresses (o.droppedAddresses r)
    | none => d.accountAddresses
  let votes := d.delegateVotes.eraseOpt (old.bind (·.droppedVotes r))
  { d with
    accounts := d.accounts.insert id r
    accountNames := names.insert r.name id
    accountAddresses := insertAll addresses r.enteredAddresses id
    delegateVotes := if r.isDelegate ∧ !r.isRetracted then votes.insert (rankKey r.netVotes id)
      else votes
    accountRps := d.accountRps.eraseOpt (old.bind (·.droppedRp r)) }

/-- `account_record::remove` on the database. -/
def removeAccount (d : ChainTables) (id : AccountId) : ChainTables :=
  match d.accounts.lookup id with
  | none => d
  | some o =>
    let keys := o.ownerAddress :: (o.activeKeyHistory.entries.map fun e => Crypto.address e.2) ++
      match o.delegateInfo with
      | none => []
      | some s => s.signingKeyHistory.entries.map fun e => Crypto.address e.2
    { d with
      accounts := d.accounts.erase id
      accountNames := d.accountNames.erase o.name
      accountAddresses := eraseAll d.accountAddresses keys
      delegateVotes := if o.isDelegate ∧ !o.isRetracted then
        d.delegateVotes.erase (rankKey o.netVotes o.id) else d.delegateVotes
      accountRps := if !o.isRetracted then d.accountRps.erase (rankKey o.rp o.id)
        else d.accountRps }

/-- `asset_record::store` on the database. -/
def storeAsset (d : ChainTables) (id : AssetId) (r : AssetRecord) : ChainTables :=
  let symbols := match d.assets.lookup id with
    | some o => if o.symbol ≠ r.symbol then d.assetSymbols.erase o.symbol else d.assetSymbols
    | none => d.assetSymbols
  { d with assets := d.assets.insert id r, assetSymbols := symbols.insert r.symbol id }

def removeAsset (d : ChainTables) (id : AssetId) : ChainTables :=
  match d.assets.lookup id with
  | none => d
  | some o => { d with assets := d.assets.erase id, assetSymbols := d.assetSymbols.erase o.symbol }

/-- `game_record::store` on the database. -/
def storeGame (d : ChainTables) (id : GameId) (r : GameRecord) : ChainTables :=
  let names := match d.games.lookup id with
    | some o => if o.name ≠ r.name then d.gameNames.erase o.name else d.gameNames
    | none => d.gameNames
  { d with games := d.games.insert id r, gameNames := names.insert r.name id }

def removeGame (d : ChainTables) (id : GameId) : ChainTables :=
  match d.games.lookup id with
  | none => d
  | some o => { d with games := d.games.erase id, gameNames := d.gameNames.erase o.name }

/-- `transaction_record::store` on the database. -/
def storeTransaction (d : ChainTables) (id : TransactionId) (r : TransactionRecord) :
    ChainTables :=
  { d with
    transactions := d.transactions.insert id r
    uniqueTransactions := d.uniqueTransactions.insert (uniqueKey r.trx.toTransaction) }

def removeTransaction (d : ChainTables) (id : TransactionId) : ChainTables :=
  match d.transactions.lookup id with
  | none => d
  | some o => { d with
      transactions := d.transactions.erase id
      uniqueTransactions := d.uniqueTransactions.erase (uniqueKey o.trx.toTransaction) }

/-- `slot_record::store` on the database. -/
def storeSlot (d : ChainTables) (index : SlotIndex) (r : SlotRecord) : ChainTables :=
  let timestamps := match d.slots.lookup index with
    | some o => if o.index.timestamp ≠ index.timestamp then d.slotDelegates.erase o.index.timestamp
      else d.slotDelegates
    | none => d.slotDelegates
  { d with
    slots := d.slots.insert index r
    slotDelegates := timestamps.insert index.timestamp index.delegateId }

def removeSlot (d : ChainTables) (index : SlotIndex) : ChainTables :=
  match d.slots.lookup index with
  | none => d
  | some o => { d with
      slots := d.slots.erase index
      slotDelegates := d.slotDelegates.erase o.index.timestamp }

omit [Crypto] in
/-- `store_market_status`; a null status erases the market it names. -/
def storeMarketStatus (d : ChainTables) (s : MarketStatus) : ChainTables :=
  { d with
    marketStatuses := if s.isNull then d.marketStatuses.erase (s.quoteId, s.baseId)
      else d.marketStatuses.insert (s.quoteId, s.baseId) s }

def isKnownTransaction (d : ChainTables) (trx : Transaction) : Bool :=
  d.uniqueTransactions.mem (uniqueKey trx)

end ChainTables

/-- A table entry per block: an empty list erases it. -/
def setAt {V : Type} (t : Table BlockNum (List V)) (n : BlockNum) (l : List V) :
    Table BlockNum (List V) :=
  if l.isEmpty then t.erase n else t.insert n l

end BitShares
