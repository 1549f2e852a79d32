import BitShares.Ledger.Evaluate

/-!
# The plain ledger

`Ledger` is what the tables of a pending state say, with the overlays and the secondary indexes
forgotten: one finite map per record type.  `PendingLedger.view` reads it off, every lookup of a
pending state is a lookup in its view (`getBalanceRecord_eq` and its siblings), and every record
`store` writes one row of it (`view_storeBalanceRecord` and its siblings).  Invariants are stated
over `Ledger`.
-/

namespace BitShares

structure Ledger where
  properties : Table PropertyId PropertyValue
  accounts : Table AccountId AccountRecord
  assets : Table AssetId AssetRecord
  games : Table GameId GameRecord
  slates : Table SlateId SlateRecord
  balances : Table BalanceId BalanceRecord
  packets : Table PacketId PacketRecord
  operationRewards : Table OperationId OperationRewardRecord

namespace Ledger

def counter (L : Ledger) (id : PropertyId) : Option Int :=
  match L.properties.lookup id with
  | some (.id i) => some i
  | _ => none

def setProperty (L : Ledger) (id : PropertyId) (v : PropertyValue) : Ledger :=
  { L with properties := L.properties.insert id v }

@[simp] theorem counter_setProperty (L : Ledger) (id : PropertyId) (i : Int) :
    (L.setProperty id (.id i)).counter id = some i := by
  simp [counter, setProperty]

theorem counter_setProperty_ne (L : Ledger) {id id' : PropertyId} (v : PropertyValue)
    (h : id' ≠ id) : (L.setProperty id v).counter id' = L.counter id' := by
  simp [counter, setProperty, Finmap.lookup_insert_of_ne _ h]

def storeAccount (L : Ledger) (r : AccountRecord) : Ledger :=
  { L with accounts := L.accounts.insert r.id r }

def storeAsset (L : Ledger) (r : AssetRecord) : Ledger :=
  { L with assets := L.assets.insert r.id r }

def storeGame (L : Ledger) (r : GameRecord) : Ledger :=
  { L with games := L.games.insert r.id r }

def storePacket (L : Ledger) (r : PacketRecord) : Ledger :=
  { L with packets := L.packets.insert r.id r }

def storeReward (L : Ledger) (r : OperationRewardRecord) : Ledger :=
  { L with operationRewards := L.operationRewards.insert r.id r }

variable [Crypto]

def storeSlate (L : Ledger) (r : SlateRecord) : Ledger :=
  { L with slates := L.slates.insert r.id r }

def storeBalance (L : Ledger) (r : BalanceRecord) : Ledger :=
  { L with balances := L.balances.insert r.id r }

/-- The plain balance of `owner` in an asset, empty if there is none. -/
def ownerBalance (L : Ledger) (owner : Address) (a : AssetId) : BalanceRecord :=
  (L.balances.lookup (Crypto.getAddress (.withSignature owner a 0))).getD (.ofOwner owner a)

end Ledger

def LedgerTables.ledger (t : LedgerTables) : Ledger where
  properties := t.properties
  accounts := t.accounts
  assets := t.assets
  games := t.games
  slates := t.slates
  balances := t.balances
  packets := t.packets
  operationRewards := t.operationRewards

namespace PendingLedger

def view (p : PendingLedger) : Ledger where
  properties := p.properties.view
  accounts := p.accounts.view
  assets := p.assets.view
  games := p.games.view
  slates := p.slates.view
  balances := p.balances.view
  packets := p.packets.view
  operationRewards := p.operationRewards.view

theorem view_over (t : LedgerTables) : (PendingLedger.over t).view = t.ledger := by
  simp [view, PendingLedger.over, LedgerTables.ledger]

/-! ## Lookups -/

@[simp] theorem getAccountRecord_eq (p : PendingLedger) (id : AccountId) :
    p.getAccountRecord id = p.view.accounts.lookup id :=
  Layered.lookup_eq _ _

@[simp] theorem getAssetRecord_eq (p : PendingLedger) (id : AssetId) :
    p.getAssetRecord id = p.view.assets.lookup id :=
  Layered.lookup_eq _ _

@[simp] theorem getGameRecord_eq (p : PendingLedger) (id : GameId) :
    p.getGameRecord id = p.view.games.lookup id :=
  Layered.lookup_eq _ _

@[simp] theorem getSlateRecord_eq (p : PendingLedger) (id : SlateId) :
    p.getSlateRecord id = p.view.slates.lookup id :=
  Layered.lookup_eq _ _

@[simp] theorem getBalanceRecord_eq (p : PendingLedger) (id : BalanceId) :
    p.getBalanceRecord id = p.view.balances.lookup id :=
  Layered.lookup_eq _ _

@[simp] theorem packets_lookup (p : PendingLedger) (id : PacketId) :
    p.packets.lookup id = p.view.packets.lookup id :=
  Layered.lookup_eq _ _

@[simp] theorem operationRewards_lookup (p : PendingLedger) (id : OperationId) :
    p.operationRewards.lookup id = p.view.operationRewards.lookup id :=
  Layered.lookup_eq _ _

theorem counter_eq_ok {p : PendingLedger} {id : PropertyId} {i : Int} :
    p.counter id = .ok i ↔ p.view.counter id = some i := by
  unfold counter Ledger.counter
  rw [Layered.lookup_eq]
  change _ ↔ (match p.properties.view.lookup id with | some (.id i) => some i | _ => none) = some i
  cases h : p.properties.view.lookup id with
  | none => simp
  | some v => cases v <;> simp

/-! ## Stores -/

@[simp] theorem view_storePropertyRecord (p : PendingLedger) (id : PropertyId)
    (v : PropertyValue) : (p.storePropertyRecord id v).view = p.view.setProperty id v := by
  simp [view, storePropertyRecord, Ledger.setProperty]

@[simp] theorem view_storeAssetRecord (p : PendingLedger) (r : AssetRecord) :
    (p.storeAssetRecord r).view = p.view.storeAsset r := by
  simp [view, storeAssetRecord, Ledger.storeAsset]

@[simp] theorem view_storeGameRecord (p : PendingLedger) (r : GameRecord) :
    (p.storeGameRecord r).view = p.view.storeGame r := by
  simp [view, storeGameRecord, Ledger.storeGame]

@[simp] theorem view_storePacketRecord (p : PendingLedger) (r : PacketRecord) :
    (p.storePacketRecord r).view = p.view.storePacket r := by
  simp [view, storePacketRecord, Ledger.storePacket]

@[simp] theorem view_storeOperationRewardRecord (p : PendingLedger) (r : OperationRewardRecord) :
    (p.storeOperationRewardRecord r).view = p.view.storeReward r := by
  simp [view, storeOperationRewardRecord, Ledger.storeReward]

@[simp] theorem view_storeBurnRecord (p : PendingLedger) (r : BurnRecord) :
    (p.storeBurnRecord r).view = p.view := rfl

@[simp] theorem view_storeAdRecord (p : PendingLedger) (r : AdRecord) :
    (p.storeAdRecord r).view = p.view := rfl

@[simp] theorem view_storeNoteRecord (p : PendingLedger) (r : NoteRecord) :
    (p.storeNoteRecord r).view = p.view := rfl

section

variable [Crypto]

@[simp] theorem view_storeAccountRecord (p : PendingLedger) (r : AccountRecord) :
    (p.storeAccountRecord r).view = p.view.storeAccount r := by
  simp [view, storeAccountRecord, Ledger.storeAccount]

@[simp] theorem view_storeSlateRecord (p : PendingLedger) (r : SlateRecord) :
    (p.storeSlateRecord r).view = p.view.storeSlate r := by
  simp [view, storeSlateRecord, Ledger.storeSlate]

@[simp] theorem view_storeBalanceRecord (p : PendingLedger) (r : BalanceRecord) :
    (p.storeBalanceRecord r).view = p.view.storeBalance r := by
  simp [view, storeBalanceRecord, Ledger.storeBalance]

@[simp] theorem view_creditOwner (p : PendingLedger) (now : Time) (owner : Address)
    (amount : Asset) :
    (p.creditOwner now owner amount).view = p.view.storeBalance
      { p.view.ownerBalance owner amount.assetId with
        balance := (p.view.ownerBalance owner amount.assetId).balance + amount.amount
        lastUpdate := now
        depositDate := now } := by
  simp [creditOwner, Ledger.ownerBalance]

end

theorem newAccountId_eq_ok {p p' : PendingLedger} {id : AccountId}
    (h : p.newAccountId = .ok (id, p')) :
    p.view.counter .lastAccountId = some (id - 1) ∧
      p' = p.storePropertyRecord .lastAccountId (.id id) := by
  simp only [newAccountId, lastAccountId, bind_eq_ok, pure_eq_ok, counter_eq_ok, Prod.mk.injEq] at h
  obtain ⟨last, hlast, rfl, rfl⟩ := h
  simpa using hlast

theorem newAssetId_eq_ok {p p' : PendingLedger} {id : AssetId}
    (h : p.newAssetId = .ok (id, p')) :
    p.view.counter .lastAssetId = some (id - 1) ∧
      p' = p.storePropertyRecord .lastAssetId (.id id) := by
  simp only [newAssetId, lastAssetId, bind_eq_ok, pure_eq_ok, counter_eq_ok, Prod.mk.injEq] at h
  obtain ⟨last, hlast, rfl, rfl⟩ := h
  simpa using hlast

end PendingLedger

abbrev EvalState.ledger (e : EvalState) : Ledger := e.pending.view

end BitShares
