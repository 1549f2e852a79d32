import BitShares.Chain.Proof.Genesis
import BitShares.Chain.Proof.Supply

/-!
# The tables at genesis

`initialize_genesis` fills four tables and leaves the others empty (`initializeGenesis_founded`).
They are well formed, and if no vesting entry is lost their shares add up to the supply
(`Founded.wellFormed`, `Founded.conserved`).
-/

namespace BitShares

namespace GenesisState

variable [Crypto]

/-- What the configuration puts into the tables: delegates without votes or pay up to the id `last`,
and base shares without votes.  Most other tables are empty. -/
structure Listed (d : ChainTables) (last : AccountId) : Prop where
  accounts : d.accounts.All fun id r =>
    r.id = id ∧ id ≤ last ∧ r.payBalance = 0 ∧ r.netVotes = 0
  balances : d.balances.All fun id r => r.id = id ∧ r.assetId = 0 ∧ r.condition.slateId = 0
  games : d.games = ∅
  slates : d.slates = ∅
  packets : d.packets = ∅
  bids : d.bids = ∅
  asks : d.asks = ∅

structure Filling (d : ChainTables) (last : AccountId) : Prop extends Listed d last where
  assets : d.assets = ∅
  operationRewards : d.operationRewards = ∅

theorem Filling.addDelegate {timestamp : Time} {s s' : ChainTables × AccountId}
    {g : GenesisDelegate} (h : addDelegate timestamp s g = .ok s') (hs : Filling s.1 s.2) :
    Filling s'.1 s'.2 := by
  simp only [GenesisState.addDelegate, bind_eq_ok, pure_eq_ok] at h
  obtain ⟨r, hr, rfl⟩ := h
  simp only [delegateRecord, AccountRecord.setActiveKey, bind_eq_ok, require_eq_ok, pure_eq_ok,
    exists_and_left, exists_const] at hr
  obtain ⟨-, rfl⟩ := hr
  refine { hs with accounts := Table.All.insert (fun id r hr => ?_) ⟨rfl, le_rfl, rfl, rfl⟩ }
  obtain ⟨hid, hle, hpay, hvotes⟩ := hs.accounts id r hr
  exact ⟨hid, hle.trans (le_add_of_nonneg_right zero_le_one), hpay, hvotes⟩

theorem Filling.addInitialBalance {f : AddressFormats} {timestamp : Time}
    {s s' : ChainTables × ShareType} {g : GenesisBalance} {last : AccountId}
    (h : addInitialBalance f timestamp s g = .ok s') (hs : Filling s.1 last) :
    Filling s'.1 last := by
  simp only [GenesisState.addInitialBalance, bind_eq_ok, pure_eq_ok] at h
  obtain ⟨owner, -, rfl⟩ := h
  exact { hs with balances := hs.balances.insert ⟨rfl, rfl, rfl⟩ }

theorem Filling.addVestingBalance {f : AddressFormats} {v : GenesisVestingBalances}
    {s s' : ChainTables × ShareType} {g : GenesisBalance} {last : AccountId}
    (h : addVestingBalance f v s g = .ok s') (hs : Filling s.1 last) : Filling s'.1 last := by
  simp only [GenesisState.addVestingBalance, bind_eq_ok, pure_eq_ok] at h
  obtain ⟨owner, -, rfl⟩ := h
  refine { hs with balances := ?_ }
  dsimp only
  split
  · exact (hs.balances.insert ⟨rfl, rfl, rfl⟩).erase _
  · exact hs.balances.insert ⟨rfl, rfl, rfl⟩

/-- The tables at genesis: the base asset with its supply, and the rewards of notes. -/
structure Founded (d : ChainTables) (timestamp : Time) (supply : ShareType) (last : AccountId) :
    Prop extends Listed d last where
  assets : d.assets = Finmap.singleton 0 (baseAsset timestamp supply)
  operationRewards : d.operationRewards =
    Finmap.singleton noteOpType ⟨noteOpType, OrdMap.set ∅ 0 0⟩
  lastAccountId : d.ledger.counter .lastAccountId = some last
  lastAssetId : d.ledger.counter .lastAssetId = some 0

theorem initializeGenesis_founded {f : AddressFormats} {config : GenesisState} {chainId : Digest}
    {statisticsEnabled : Bool} {t : ChainTables}
    (h : config.initializeGenesis f chainId statisticsEnabled = .ok t) :
    ∃ supply last, Founded t config.timestamp supply last := by
  simp only [initializeGenesis, bind_eq_ok, require_eq_ok, pure_eq_ok] at h
  obtain ⟨-, -, ⟨d, last⟩, hd, s, hs, s', hs', rfl⟩ := h
  have hdelegates : Filling d last := by
    refine foldlM_induction (fun s => Filling s.1 s.2) (fun g _ s s' hs h => hs.addDelegate h) hd ?_
    exact ⟨⟨.of_empty rfl, .of_empty rfl, rfl, rfl, rfl, rfl, rfl⟩, rfl, rfl⟩
  have hinitial : Filling s.1 last := foldlM_induction (fun s => Filling s.1 last)
    (fun g _ s s' hs h => hs.addInitialBalance h) hs hdelegates
  have hall : Filling s'.1 last := foldlM_induction (fun s => Filling s.1 last)
    (fun g _ s s' hs h => hs.addVestingBalance h) hs' hinitial
  refine ⟨s'.2, last, ⟨hall.accounts, hall.balances, hall.games, hall.slates, hall.packets, hall.bids,
    hall.asks⟩, ?_, ?_, ?_, ?_⟩
  · change s'.1.assets.insert 0 (baseAsset config.timestamp s'.2) = _
    rw [hall.assets]
    rfl
  · change s'.1.operationRewards.insert noteOpType _ = _
    rw [hall.operationRewards]
    rfl
  · simp [Ledger.counter, LedgerTables.ledger]
  · simp [Ledger.counter, LedgerTables.ledger]

variable {t : ChainTables} {timestamp : Time} {supply : ShareType} {last : AccountId}

theorem Founded.wellFormed (h : Founded t timestamp supply last) : t.ledger.WellFormed where
  accounts id r hr := (h.accounts id r hr).1
  assets := by
    change t.assets.All _
    rw [h.assets]
    exact (Table.All.of_empty rfl).insert rfl
  games := .of_empty h.games
  slates := .of_empty h.slates
  balances id r hr := (h.balances id r hr).1
  packets := .of_empty h.packets
  operationRewards := by
    change t.operationRewards.All _
    rw [h.operationRewards]
    exact (Table.All.of_empty rfl).insert rfl
  packetAsset := .of_empty h.packets
  lastAccountId id r hr x hx := by
    rw [h.lastAccountId, Option.mem_some_iff] at hx
    exact hx ▸ (h.accounts id r hr).2.1
  lastAssetId x hx := by
    rw [h.lastAssetId, Option.mem_some_iff] at hx
    exact hx.le

theorem Founded.conserved (h : Founded t timestamp supply last)
    (hsupply : Int64.ofInt (t.balances.total fun _ r => r.balance.toInt) = supply) :
    t.Conserved := by
  have haccounts : ∀ a, t.accounts.total (fun _ r => r.sharesOf a) = 0 := fun a =>
    Table.total_eq_zero fun id r hr => by
      rw [AccountRecord.sharesOf, (h.accounts id r hr).2.2.1]
      exact ite_self _
  have hbalances : ∀ a, t.balances.total (fun _ r => r.sharesOf a) =
      if a = 0 then t.balances.total (fun _ r => r.balance.toInt) else 0 := by
    intro a
    split
    · rename_i ha
      exact Table.total_congr fun id r hr => if_pos ((h.balances id r hr).2.1.trans ha.symm)
    · rename_i ha
      exact Table.total_eq_zero fun id r hr =>
        if_neg fun heq => ha (heq.symm.trans (h.balances id r hr).2.1)
  intro a
  have htotal : t.totalShares a =
      if a = 0 then t.balances.total (fun _ r => r.balance.toInt) else 0 := by
    have hassets : t.assets.total (fun _ r => r.sharesOf a) = 0 := by
      rw [h.assets, Table.total_singleton, AssetRecord.sharesOf, baseAsset]
      simp
    have hrewards : t.operationRewards.total (fun _ r => r.sharesOf a) = 0 := by
      rw [h.operationRewards, Table.total_singleton, OperationRewardRecord.sharesOf,
        OperationRewardRecord.feeOf, OrdMap.getD_set]
      split <;> rfl
    rw [ChainTables.totalShares, Ledger.holdings, ChainTables.orderShares, h.bids, h.asks]
    change t.balances.total _ + t.assets.total _ + t.accounts.total _ + t.packets.total _ +
      t.operationRewards.total _ + _ = _
    rw [hbalances, hassets, haccounts, hrewards, h.packets]
    simp
  rw [htotal, Ledger.currentSupply]
  change _ = ((t.assets.lookup a).map _).getD 0
  rw [h.assets]
  split
  · rename_i ha
    rw [ha, Finmap.lookup_singleton_eq, hsupply]
    rfl
  · rename_i ha
    rw [Table.lookup_singleton_of_ne _ ha]
    rfl

end GenesisState

end BitShares
