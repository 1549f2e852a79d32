import BitShares.Chain.Tables

/-!
# The genesis state

`initialize_genesis` fills the tables of a new database from a configuration: the first delegates, the
balances of a snapshot, the vesting balances of a sharedrop and the base asset.  Reading the
configuration from a file and the two text formats of addresses are left to the caller.
-/

namespace BitShares

structure GenesisDelegate where
  name : String
  owner : PublicKey

structure GenesisBalance where
  rawAddress : String
  balance : ShareType := 0

structure GenesisVestingBalances where
  startTime : Time
  durationDays : Nat := 0
  vestingBalances : List GenesisBalance

structure GenesisState where
  timestamp : Time
  delegates : List GenesisDelegate
  initialBalances : List GenesisBalance
  sharedropBalances : GenesisVestingBalances

def ADDRESS_PREFIX : String := "PDV"
def BLOCKCHAIN_SYMBOL : String := "PDV"
def BLOCKCHAIN_NAME : String := "PLAY PDV Network"
def BLOCKCHAIN_DESCRIPTION : String := "PLAY PDV Network for long-term and hardfork testing"

def godIssuerId : UInt8 := 0

/-- The constructors of addresses from text, which throw on text of another format. -/
structure AddressFormats where
  /-- `address( pts_address( text ) )`. -/
  pts : String → Option Address
  /-- `address( text )`. -/
  bts : String → Except Error Address

def AddressFormats.convertRawAddress (f : AddressFormats) (raw : String) : Except Error Address :=
  match f.pts raw with
  | some a => .ok a
  | none =>
    match ["BTS", "KEY", "DVS", "XTS"].find? fun p => raw.startsWith p with
    | some p => f.bts (ADDRESS_PREFIX ++ (raw.drop p.length).toString)
    | none => .error .invalidPtsAddress

namespace GenesisState

def delegateRecord (timestamp : Time) (id : AccountId) (d : GenesisDelegate) :
    Except Error AccountRecord :=
  AccountRecord.setActiveKey
    { id := id
      name := d.name
      publicData := ""
      ownerKey := d.owner
      activeKeyHistory := ∅
      registrationDate := timestamp
      lastUpdate := timestamp
      delegateInfo := some (DelegateStats.setSigningKey { payRate := 100 } 0 d.owner)
      metaData := some ⟨.titanAccount, []⟩ } timestamp d.owner

def vestingCondition (v : GenesisVestingBalances) (owner : Address) (original : ShareType) :
    WithdrawCondition :=
  ⟨0, 0, .vesting owner v.startTime (v.durationDays * 86400 % 2 ^ 32) original⟩

def vestingRecord (v : GenesisVestingBalances) (owner : Address) (original : ShareType)
    (infos : List (String × ShareType)) (snapshot : String × ShareType) : BalanceRecord where
  condition := vestingCondition v owner original
  balance := original
  snapshotInfo := some snapshot
  multiSnapshotInfos := infos ++ [snapshot]
  lastUpdate := v.startTime

/-- The record with the condition of an entry and its original balance, if it is a vesting one. -/
def vestingOriginal (old : Option BalanceRecord) : Option (BalanceRecord × ShareType) :=
  old.bind fun r =>
    match r.condition.data with
    | .vesting _ _ _ original => some (r, original)
    | _ => none

def baseAsset (timestamp : Time) (supply : ShareType) : AssetRecord where
  id := 0
  symbol := BLOCKCHAIN_SYMBOL
  issuerType := godIssuerId
  issuerId := -1
  name := BLOCKCHAIN_NAME
  description := BLOCKCHAIN_DESCRIPTION
  publicData := ""
  precision := 100000
  maxSupply := MAX_SHARES
  currentSupply := supply
  authorityFlagPermissions := 0
  registrationDate := timestamp
  lastUpdate := timestamp

variable [Crypto]

def addDelegate (timestamp : Time) (s : ChainTables × AccountId) (d : GenesisDelegate) :
    Except Error (ChainTables × AccountId) := do
  let id := s.2 + 1
  let r ← delegateRecord timestamp id d
  return (s.1.storeAccount id r, id)

def addInitialBalance (f : AddressFormats) (timestamp : Time) (s : ChainTables × ShareType)
    (g : GenesisBalance) : Except Error (ChainTables × ShareType) := do
  let owner ← f.convertRawAddress g.rawAddress
  let condition := WithdrawCondition.withSignature owner 0 0
  let old := s.1.balances.lookup (Crypto.getAddress condition)
  let snapshot := (g.rawAddress, g.balance)
  let r : BalanceRecord :=
    { condition := condition
      balance := g.balance + (old.map (·.balance)).getD 0
      snapshotInfo := some snapshot
      multiSnapshotInfos := (old.map (·.multiSnapshotInfos)).getD [] ++ [snapshot]
      lastUpdate := timestamp }
  return ({ s.1 with balances := s.1.balances.insert r.id r }, s.2 + g.balance)

/-- One step of the loop over the vesting balances.  An entry with the condition of a record that is
there is added to it: the record moves to the address of the new condition. -/
def addVestingBalance (f : AddressFormats) (v : GenesisVestingBalances)
    (s : ChainTables × ShareType) (g : GenesisBalance) : Except Error (ChainTables × ShareType) := do
  let owner ← f.convertRawAddress g.rawAddress
  let snapshot := (g.rawAddress, g.balance)
  let old := s.1.balances.lookup (Crypto.getAddress (vestingCondition v owner g.balance))
  let balances := match vestingOriginal old with
    | some (cur, original) =>
      let r := vestingRecord v owner (g.balance + original) cur.multiSnapshotInfos snapshot
      (s.1.balances.insert r.id r).erase cur.id
    | none =>
      let r := vestingRecord v owner g.balance [] snapshot
      s.1.balances.insert r.id r
  return ({ s.1 with balances := balances }, s.2 + g.balance)

/-- `initialize_genesis` on an empty database, from the configuration on. -/
def initializeGenesis (f : AddressFormats) (config : GenesisState) (chainId : Digest)
    (statisticsEnabled : Bool) : Except Error ChainTables := do
  let d : ChainTables := { properties := Finmap.singleton .chainId (.hash chainId) }
  require (NUM_DELEGATES ≤ config.delegates.length)
    (.assertion "genesis.json does not contain enough initial delegates!")
  let (d, lastAccountId) ← config.delegates.foldlM (addDelegate config.timestamp) (d, 0)
  let s ← config.initialBalances.foldlM (addInitialBalance f config.timestamp) (d, 0)
  let (d, supply) ← config.sharedropBalances.vestingBalances.foldlM
    (addVestingBalance f config.sharedropBalances) s
  let d := d.storeAsset 0 (baseAsset config.timestamp supply)
  let active := (d.delegateVotes.toList.take NUM_DELEGATES).map fun k => (ofLex k).2
  let properties := d.properties
    |>.insert .lastAssetId (.id 0)
    |>.insert .lastAccountId (.id lastAccountId)
    |>.insert .activeDelegateListId (.ids active)
    |>.insert .statisticsEnabled (.bool statisticsEnabled)
    |>.insert .lastGameId (.id 0)
  return { d with
    properties := properties
    operationRewards := d.operationRewards.insert noteOpType ⟨noteOpType, OrdMap.set ∅ 0 0⟩ }

end GenesisState

end BitShares
