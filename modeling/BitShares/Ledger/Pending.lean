import BitShares.Ledger.Transaction
import BitShares.Lib.Overlay

/-!
# The ledger under a pending state

The part of `pending_chain_state` that operations read and write: accounts, assets, games and
their data, slates, balances, messages, packets, rewards and the id counters.  Every table is
layered over the chain database, and the record `store` functions keep the name, address and symbol
indexes of the overlay as `account_record::store` and its siblings do.
-/

namespace BitShares

/-- A secondary index under an overlay: the overlay's own map, and the one of the state below. -/
structure Index (A : Type) where
  prev : Table A Int
  pending : Table A Int

/-- `account_lookup_by_name` and its siblings: the overlay's index points into the overlay's own
records; the record found below counts unless its id is removed here. -/
def Index.lookup {A R : Type} [DecidableEq A] (i : Index A) (idOf : R → Int)
    (records : Layered Int R) (key : A) : Option R :=
  match i.pending.lookup key with
  | some id => records.overlay.stored.lookup id
  | none =>
    match (i.prev.lookup key).bind records.prev.lookup with
    | some r => if idOf r ∈ records.overlay.removed then none else some r
    | none => none

structure PendingLedger where
  properties : Layered PropertyId PropertyValue
  accounts : Layered AccountId AccountRecord
  accountNames : Index String
  accountAddresses : Index Address
  assets : Layered AssetId AssetRecord
  assetSymbols : Index String
  games : Layered GameId GameRecord
  gameNames : Index String
  slates : Layered SlateId SlateRecord
  balances : Layered BalanceId BalanceRecord
  burns : Layered MessageIndex BurnRecord
  ads : Layered MessageIndex AdRecord
  notes : Layered MessageIndex NoteRecord
  packets : Layered PacketId PacketRecord
  operationRewards : Layered OperationId OperationRewardRecord
  /-- `game_datas`, where a null record stands until the batch is applied. -/
  gameData : Layered (GameId × DataId) GameDataRecord

/-- The tables of the chain database that a pending ledger is layered over. -/
structure LedgerTables where
  properties : Table PropertyId PropertyValue := ∅
  accounts : Table AccountId AccountRecord := ∅
  accountNames : Table String Int := ∅
  accountAddresses : Table Address Int := ∅
  assets : Table AssetId AssetRecord := ∅
  assetSymbols : Table String Int := ∅
  games : Table GameId GameRecord := ∅
  gameNames : Table String Int := ∅
  slates : Table SlateId SlateRecord := ∅
  balances : Table BalanceId BalanceRecord := ∅
  burns : Table MessageIndex BurnRecord := ∅
  ads : Table MessageIndex AdRecord := ∅
  notes : Table MessageIndex NoteRecord := ∅
  packets : Table PacketId PacketRecord := ∅
  operationRewards : Table OperationId OperationRewardRecord := ∅
  gameData : Table (GameId × DataId) GameDataRecord := ∅

def PendingLedger.over (t : LedgerTables) : PendingLedger where
  properties := .over t.properties
  accounts := .over t.accounts
  accountNames := ⟨t.accountNames, ∅⟩
  accountAddresses := ⟨t.accountAddresses, ∅⟩
  assets := .over t.assets
  assetSymbols := ⟨t.assetSymbols, ∅⟩
  games := .over t.games
  gameNames := ⟨t.gameNames, ∅⟩
  slates := .over t.slates
  balances := .over t.balances
  burns := .over t.burns
  ads := .over t.ads
  notes := .over t.notes
  packets := .over t.packets
  operationRewards := .over t.operationRewards
  gameData := .over t.gameData

def PendingLedger.below (p : PendingLedger) : LedgerTables where
  properties := p.properties.prev
  accounts := p.accounts.prev
  accountNames := p.accountNames.prev
  accountAddresses := p.accountAddresses.prev
  assets := p.assets.prev
  assetSymbols := p.assetSymbols.prev
  games := p.games.prev
  gameNames := p.gameNames.prev
  slates := p.slates.prev
  balances := p.balances.prev
  burns := p.burns.prev
  ads := p.ads.prev
  notes := p.notes.prev
  packets := p.packets.prev
  operationRewards := p.operationRewards.prev
  gameData := p.gameData.prev

namespace AccountRecord

variable [Crypto]

def ownerAddress (r : AccountRecord) : Address := Crypto.address r.ownerKey

def activeAddress (r : AccountRecord) : Address := Crypto.address r.activeKey

/-- The addresses `account_record::store` drops from the address map before it stores `r` over
`old`. -/
def droppedAddresses (old r : AccountRecord) : List Address :=
  (if old.ownerAddress ≠ r.ownerAddress then [old.ownerAddress] else []) ++
  (if old.activeKey ≠ r.activeKey then
    old.activeKeyHistory.entries.map fun e => Crypto.address e.2 else []) ++
  match old.delegateInfo with
  | none => []
  | some d =>
    if r.delegateInfo.all (·.signingKey ≠ d.signingKey) then
      d.signingKeyHistory.entries.map fun e => Crypto.address e.2
    else []

/-- The addresses it enters: owner, then every non-null active and signing key ever used. -/
def enteredAddresses (r : AccountRecord) : List Address :=
  r.ownerAddress ::
  ((r.activeKeyHistory.entries.filter (·.2 ≠ nullKey)).map fun e => Crypto.address e.2) ++
  match r.delegateInfo with
  | none => []
  | some d =>
    (d.signingKeyHistory.entries.filter (·.2 ≠ nullKey)).map fun e => Crypto.address e.2

end AccountRecord

/-- `map.erase( key )` for each key. -/
def eraseAll {A : Type} [DecidableEq A] (t : Table A Int) (keys : List A) : Table A Int :=
  keys.foldl (fun t a => t.erase a) t

/-- `map[ key ] = id` for each key. -/
def insertAll {A : Type} [DecidableEq A] (t : Table A Int) (keys : List A) (id : Int) :
    Table A Int :=
  keys.foldl (fun t a => t.insert a id) t

namespace PendingLedger

variable [Crypto]

/-! ## Lookups -/

def getAccountRecord (p : PendingLedger) (id : AccountId) : Option AccountRecord :=
  p.accounts.lookup id

def getAccountRecordByName (p : PendingLedger) (name : String) : Option AccountRecord :=
  p.accountNames.lookup (·.id) p.accounts name

def getAccountRecordByAddress (p : PendingLedger) (addr : Address) : Option AccountRecord :=
  p.accountAddresses.lookup (·.id) p.accounts addr

def getAssetRecord (p : PendingLedger) (id : AssetId) : Option AssetRecord := p.assets.lookup id

def getAssetRecordBySymbol (p : PendingLedger) (symbol : String) : Option AssetRecord :=
  p.assetSymbols.lookup (·.id) p.assets symbol

def getGameRecord (p : PendingLedger) (id : GameId) : Option GameRecord := p.games.lookup id

def getGameRecordByName (p : PendingLedger) (name : String) : Option GameRecord :=
  p.gameNames.lookup (·.id) p.games name

def getSlateRecord (p : PendingLedger) (id : SlateId) : Option SlateRecord := p.slates.lookup id

def getBalanceRecord (p : PendingLedger) (id : BalanceId) : Option BalanceRecord :=
  p.balances.lookup id

/-! ## Stores -/

/-- `account_record::store` on the overlay. -/
def storeAccountRecord (p : PendingLedger) (r : AccountRecord) : PendingLedger :=
  let old := p.accounts.lookup r.id
  let names := match old with
    | some o => if o.name ≠ r.name then p.accountNames.pending.erase o.name
      else p.accountNames.pending
    | none => p.accountNames.pending
  let addresses := match old with
    | some o => eraseAll p.accountAddresses.pending (o.droppedAddresses r)
    | none => p.accountAddresses.pending
  { p with
    accounts := p.accounts.insert r.id r
    accountNames := { p.accountNames with pending := names.insert r.name r.id }
    accountAddresses :=
      { p.accountAddresses with pending := insertAll addresses r.enteredAddresses r.id } }

/-- `asset_record::store` on the overlay. -/
def storeAssetRecord (p : PendingLedger) (r : AssetRecord) : PendingLedger :=
  let symbols := match p.assets.lookup r.id with
    | some o => if o.symbol ≠ r.symbol then p.assetSymbols.pending.erase o.symbol
      else p.assetSymbols.pending
    | none => p.assetSymbols.pending
  { p with
    assets := p.assets.insert r.id r
    assetSymbols := { p.assetSymbols with pending := symbols.insert r.symbol r.id } }

/-- `game_record::store` on the overlay. -/
def storeGameRecord (p : PendingLedger) (r : GameRecord) : PendingLedger :=
  let names := match p.games.lookup r.id with
    | some o => if o.name ≠ r.name then p.gameNames.pending.erase o.name else p.gameNames.pending
    | none => p.gameNames.pending
  { p with
    games := p.games.insert r.id r
    gameNames := { p.gameNames with pending := names.insert r.name r.id } }

def storeSlateRecord (p : PendingLedger) (r : SlateRecord) : PendingLedger :=
  { p with slates := p.slates.insert r.id r }

def storeBalanceRecord (p : PendingLedger) (r : BalanceRecord) : PendingLedger :=
  { p with balances := p.balances.insert r.id r }

def storeBurnRecord (p : PendingLedger) (r : BurnRecord) : PendingLedger :=
  { p with burns := p.burns.insert r.index r }

def storeAdRecord (p : PendingLedger) (r : AdRecord) : PendingLedger :=
  { p with ads := p.ads.insert r.index r }

def storeNoteRecord (p : PendingLedger) (r : NoteRecord) : PendingLedger :=
  { p with notes := p.notes.insert r.index r }

def storePacketRecord (p : PendingLedger) (r : PacketRecord) : PendingLedger :=
  { p with packets := p.packets.insert r.id r }

def storeOperationRewardRecord (p : PendingLedger) (r : OperationRewardRecord) : PendingLedger :=
  { p with operationRewards := p.operationRewards.insert r.id r }

def storeGameDataRecord (p : PendingLedger) (gameId : GameId) (dataId : DataId)
    (r : GameDataRecord) : PendingLedger :=
  { p with gameData := p.gameData.insert (gameId, dataId) r }

def storePropertyRecord (p : PendingLedger) (id : PropertyId) (value : PropertyValue) :
    PendingLedger :=
  { p with properties := p.properties.insert id value }

/-! ## Id counters (`chain_interface.cpp`) -/

/-- `record->value.as<…>()` of an id counter. -/
def counter (p : PendingLedger) (id : PropertyId) : Except Error Int :=
  match p.properties.lookup id with
  | some (.id i) => .ok i
  | _ => .error (.assertion "")

def lastAssetId (p : PendingLedger) : Except Error AssetId := p.counter .lastAssetId

def newAssetId (p : PendingLedger) : Except Error (AssetId × PendingLedger) := do
  let next := (← p.lastAssetId) + 1
  return (next, p.storePropertyRecord .lastAssetId (.id next))

def lastGameId (p : PendingLedger) : Except Error GameId := p.counter .lastGameId

def newGameId (p : PendingLedger) : Except Error (GameId × PendingLedger) := do
  let next := (← p.lastGameId) + 1
  return (next, p.storePropertyRecord .lastGameId (.id next))

def lastAccountId (p : PendingLedger) : Except Error AccountId := p.counter .lastAccountId

def newAccountId (p : PendingLedger) : Except Error (AccountId × PendingLedger) := do
  let next := (← p.lastAccountId) + 1
  return (next, p.storePropertyRecord .lastAccountId (.id next))

end PendingLedger

end BitShares
