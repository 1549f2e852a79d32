import BitShares.Chain.Proof.Block

/-!
# Making a batch permanent

`apply_changes` goes through the record stores, which also keep the secondary indexes.  Here it is
shown what it does to the tables themselves: each one gets its own batch, and nothing else
(`Batch.applyChanges_eq`).  So an accepted block leaves the ledger it was evaluated to in the
database (`extendChain_ledger`).
-/

namespace BitShares

variable [Crypto]

/-! ## One group of tables at a time -/

structure AccountTables where
  accounts : Table AccountId AccountRecord
  names : Table String Int
  addresses : Table Address Int
  delegateVotes : OrdSet (ℤ ×ₗ ℤ)
  rps : OrdSet (ℤ ×ₗ ℤ)

structure NamedTables (R : Type) where
  records : Table Int R
  names : Table String Int

structure TransactionTables where
  transactions : Table TransactionId TransactionRecord
  unique : OrdSet (ℕ ×ₗ ℕ)

structure SlotTables where
  slots : Table SlotIndex SlotRecord
  delegates : Table Time AccountId

namespace ChainTables

open Overlay (Part)

def accountPart : Part ChainTables AccountTables where
  get d := ⟨d.accounts, d.accountNames, d.accountAddresses, d.delegateVotes, d.accountRps⟩
  set d g := { d with
    accounts := g.accounts
    accountNames := g.names
    accountAddresses := g.addresses
    delegateVotes := g.delegateVotes
    accountRps := g.rps }
  set_get _ := rfl
  get_set _ _ := rfl
  set_set _ _ _ := rfl

def assetPart : Part ChainTables (NamedTables AssetRecord) where
  get d := ⟨d.assets, d.assetSymbols⟩
  set d g := { d with
    assets := g.records
    assetSymbols := g.names }
  set_get _ := rfl
  get_set _ _ := rfl
  set_set _ _ _ := rfl

def transactionPart : Part ChainTables TransactionTables where
  get d := ⟨d.transactions, d.uniqueTransactions⟩
  set d g := { d with
    transactions := g.transactions
    uniqueTransactions := g.unique }
  set_get _ := rfl
  get_set _ _ := rfl
  set_set _ _ _ := rfl

def slotPart : Part ChainTables SlotTables where
  get d := ⟨d.slots, d.slotDelegates⟩
  set d g := { d with
    slots := g.slots
    slotDelegates := g.delegates }
  set_get _ := rfl
  get_set _ _ := rfl
  set_set _ _ _ := rfl

def gamePart : Part ChainTables (NamedTables GameRecord) where
  get d := ⟨d.games, d.gameNames⟩
  set d g := { d with
    games := g.records
    gameNames := g.names }
  set_get _ := rfl
  get_set _ _ := rfl
  set_set _ _ _ := rfl

theorem accounts_removeAccount (d : ChainTables) (id : AccountId) :
    (d.removeAccount id).accounts = d.accounts.erase id := by
  unfold removeAccount
  split
  · rename_i h
    exact (Table.erase_of_lookup_none h).symm
  · rfl

omit [Crypto] in
theorem assets_removeAsset (d : ChainTables) (id : AssetId) :
    (d.removeAsset id).assets = d.assets.erase id := by
  unfold removeAsset
  split
  · rename_i h
    exact (Table.erase_of_lookup_none h).symm
  · rfl

omit [Crypto] in
theorem games_removeGame (d : ChainTables) (id : GameId) :
    (d.removeGame id).games = d.games.erase id := by
  unfold removeGame
  split
  · rename_i h
    exact (Table.erase_of_lookup_none h).symm
  · rfl

theorem transactions_removeTransaction (d : ChainTables) (id : TransactionId) :
    (d.removeTransaction id).transactions = d.transactions.erase id := by
  unfold removeTransaction
  split
  · rename_i h
    exact (Table.erase_of_lookup_none h).symm
  · rfl

omit [Crypto] in
theorem slots_removeSlot (d : ChainTables) (index : SlotIndex) :
    (d.removeSlot index).slots = d.slots.erase index := by
  unfold removeSlot
  split
  · rename_i h
    exact (Table.erase_of_lookup_none h).symm
  · rfl

theorem accountBatch_local (o : Overlay AccountId AccountRecord) :
    accountPart.Local (o.applyRecords removeAccount storeAccount) := by
  refine Overlay.applyRecords_local (fun k => .of_rest {} fun d => ?_)
    (fun k v => .of_rest {} fun d => rfl) o
  unfold removeAccount
  dsimp only [accountPart]
  split <;> rfl

omit [Crypto] in
theorem assetBatch_local (o : Overlay AssetId AssetRecord) :
    assetPart.Local (o.applyRecords removeAsset storeAsset) := by
  refine Overlay.applyRecords_local (fun k => .of_rest {} fun d => ?_)
    (fun k v => .of_rest {} fun d => rfl) o
  unfold removeAsset
  dsimp only [assetPart]
  split <;> rfl

theorem transactionBatch_local (o : Overlay TransactionId TransactionRecord) :
    transactionPart.Local (o.applyRecords removeTransaction storeTransaction) := by
  refine Overlay.applyRecords_local (fun k => .of_rest {} fun d => ?_)
    (fun k v => .of_rest {} fun d => rfl) o
  unfold removeTransaction
  dsimp only [transactionPart]
  split <;> rfl

omit [Crypto] in
theorem slotBatch_local (o : Overlay SlotIndex SlotRecord) :
    slotPart.Local (o.applyRecords removeSlot storeSlot) := by
  refine Overlay.applyRecords_local (fun k => .of_rest {} fun d => ?_)
    (fun k v => .of_rest {} fun d => rfl) o
  unfold removeSlot
  dsimp only [slotPart]
  split <;> rfl

omit [Crypto] in
theorem gameBatch_local (o : Overlay GameId GameRecord) :
    gamePart.Local (o.applyRecords removeGame storeGame) := by
  refine Overlay.applyRecords_local (fun k => .of_rest {} fun d => ?_)
    (fun k v => .of_rest {} fun d => rfl) o
  unfold removeGame
  dsimp only [gamePart]
  split <;> rfl

def marketStatusPart : Part ChainTables (Table (AssetId × AssetId) MarketStatus) where
  get d := d.marketStatuses
  set d t := { d with marketStatuses := t }
  set_get _ := rfl
  get_set _ _ := rfl
  set_set _ _ _ := rfl

omit [Crypto] in
theorem foldl_storeMarketStatus_local
    (l : List (Sigma fun _ : AssetId × AssetId => MarketStatus)) :
    marketStatusPart.Local fun d => l.foldl (fun d e => d.storeMarketStatus e.2) d :=
  .foldl (fun _ => .of_rest {} fun _ => rfl) l

end ChainTables

open ChainTables

namespace Batch

def accountTables (c : Batch) (d : ChainTables) : AccountTables :=
  accountPart.get (c.accounts.applyRecords removeAccount storeAccount d)

def transactionTables (c : Batch) (d : ChainTables) : TransactionTables :=
  transactionPart.get (c.transactions.applyRecords removeTransaction storeTransaction d)

def assetTables (c : Batch) (d : ChainTables) : NamedTables AssetRecord :=
  assetPart.get (c.assets.applyRecords removeAsset storeAsset d)

def slotTables (c : Batch) (d : ChainTables) : SlotTables :=
  slotPart.get (c.slots.applyRecords removeSlot storeSlot d)

def gameTables (c : Batch) (d : ChainTables) : NamedTables GameRecord :=
  gamePart.get (c.games.applyRecords removeGame storeGame d)

theorem accountTables_accounts (c : Batch) (d : ChainTables) :
    (c.accountTables d).accounts = c.accounts.applyTo d.accounts :=
  c.accounts.applyRecords_proj (fun d => d.accounts) accounts_removeAccount (fun _ _ _ => by rfl) d

theorem transactionTables_transactions (c : Batch) (d : ChainTables) :
    (c.transactionTables d).transactions = c.transactions.applyTo d.transactions :=
  c.transactions.applyRecords_proj (fun d => d.transactions) transactions_removeTransaction
    (fun _ _ _ => by rfl) d

omit [Crypto] in
theorem assetTables_records (c : Batch) (d : ChainTables) :
    (c.assetTables d).records = c.assets.applyTo d.assets :=
  c.assets.applyRecords_proj (fun d => d.assets) assets_removeAsset (fun _ _ _ => by rfl) d

omit [Crypto] in
theorem slotTables_slots (c : Batch) (d : ChainTables) :
    (c.slotTables d).slots = c.slots.applyTo d.slots :=
  c.slots.applyRecords_proj (fun d => d.slots) slots_removeSlot (fun _ _ _ => by rfl) d

omit [Crypto] in
theorem gameTables_records (c : Batch) (d : ChainTables) :
    (c.gameTables d).records = c.games.applyTo d.games :=
  c.games.applyRecords_proj (fun d => d.games) games_removeGame (fun _ _ _ => by rfl) d

/-- **What `apply_changes` does to the tables**, one group at a time. -/
theorem applyChanges_eq (c : Batch) (n : BlockNum) (d : ChainTables) :
    c.applyChanges n d =
      { properties :=
          (c.properties.applyTo d.properties).insert .dirtyMarkets (.markets c.dirtyMarkets)
        accounts := c.accounts.applyTo d.accounts
        accountNames := (c.accountTables d).names
        accountAddresses := (c.accountTables d).addresses
        delegateVotes := (c.accountTables d).delegateVotes
        accountRps := (c.accountTables d).rps
        assets := c.assets.applyTo d.assets
        assetSymbols := (c.assetTables d).names
        slates := c.slates.applyTo d.slates
        balances := c.balances.applyTo d.balances
        transactions := c.transactions.applyTo d.transactions
        uniqueTransactions := (c.transactionTables d).unique
        burns := c.burns.applyTo d.burns
        ads := c.ads.applyTo d.ads
        notes := c.notes.applyTo d.notes
        packets := c.packets.applyTo d.packets
        operationRewards := c.operationRewards.applyTo d.operationRewards
        feeds := c.feeds.applyTo d.feeds
        slots := c.slots.applyTo d.slots
        slotDelegates := (c.slotTables d).delegates
        games := c.games.applyTo d.games
        gameNames := (c.gameTables d).names
        gameStatuses := c.gameStatuses.stored.entries.foldl
          (fun t e => Overlay.putAt GameStatus.isNull t e.2.gameId e.2) d.gameStatuses
        bids := c.bids.putTo OrderRecord.isNull d.bids
        asks := c.asks.putTo OrderRecord.isNull d.asks
        marketStatuses := (c.marketStatuses.stored.entries.foldl
          (fun d e => d.storeMarketStatus e.2) d).marketStatuses
        marketHistory := c.marketHistory.putTo MarketHistoryRecord.isNull d.marketHistory
        marketTransactions := setAt d.marketTransactions (n + 1) c.marketTransactions
        operationRewardTransactions :=
          setAt d.operationRewardTransactions (n + 1) c.operationRewardTransactions
        gameData := c.gameData.putTo GameDataRecord.isNull d.gameData
        gameResultTransactions :=
          setAt d.gameResultTransactions (n + 1) c.gameResultTransactions } := by
  unfold applyChanges
  extract_lets d₁ d₂ d₃ d₄ d₅ d₆ d₇ d₈ d₉
  -- Each batch finds its own group as the database has it.
  have h₂ : d₂ = accountPart.set d₁ (c.accountTables d) := accountBatch_local c.accounts d d₁ rfl
  have h₃ : d₃ = assetPart.set d₂ (c.assetTables d) :=
    assetBatch_local c.assets d d₂ (by rw [h₂]; rfl)
  have h₅ : d₅ = transactionPart.set d₄ (c.transactionTables d) :=
    transactionBatch_local c.transactions d d₄ (by simp only [d₄, h₃, h₂]; rfl)
  have h₇ : d₇ = slotPart.set d₆ (c.slotTables d) :=
    slotBatch_local c.slots d d₆ (by simp only [d₆, h₅, d₄, h₃, h₂]; rfl)
  have h₈ : d₈ = gamePart.set d₇ (c.gameTables d) :=
    gameBatch_local c.games d d₇ (by simp only [h₇, d₆, h₅, d₄, h₃, h₂]; rfl)
  have h₉ : d₉ = marketStatusPart.set d₈ (c.marketStatuses.stored.entries.foldl
      (fun d e => d.storeMarketStatus e.2) d).marketStatuses :=
    foldl_storeMarketStatus_local _ d d₈ (by simp only [h₈, h₇, d₆, h₅, d₄, h₃, h₂]; rfl)
  clear_value d₉ d₈ d₇ d₅ d₃ d₂
  subst h₂ h₃
  subst h₅
  subst h₇ h₈ h₉
  rw [← accountTables_accounts, ← assetTables_records, ← transactionTables_transactions,
    ← slotTables_slots, ← gameTables_records]
  rfl

end Batch

/-! ## Extending -/

theorem Batch.applyChanges_ledger (c : Batch) (n : BlockNum) (d : ChainTables) :
    (c.applyChanges n d).ledger =
      { properties :=
          (c.properties.applyTo d.properties).insert .dirtyMarkets (.markets c.dirtyMarkets)
        accounts := c.accounts.applyTo d.accounts
        assets := c.assets.applyTo d.assets
        games := c.games.applyTo d.games
        slates := c.slates.applyTo d.slates
        balances := c.balances.applyTo d.balances
        packets := c.packets.applyTo d.packets
        operationRewards := c.operationRewards.applyTo d.operationRewards } := by
  rw [applyChanges_eq]
  rfl

theorem PendingState.Over.applyChanges_ledger {p : PendingState} {d : ChainTables} (h : p.Over d)
    (n : BlockNum) : (p.batch.applyChanges n d).ledger =
      p.ledger.view.setProperty .dirtyMarkets (.markets []) := by
  rw [Batch.applyChanges_ledger, ← h.ledger, ← h.dirtyMarkets]
  rfl

theorem PendingState.Over.applyChanges_orders {p : PendingState} {d : ChainTables} (h : p.Over d)
    (n : BlockNum) : (p.batch.applyChanges n d).bids = d.bids ∧
      (p.batch.applyChanges n d).asks = d.asks := by
  rw [Batch.applyChanges_eq, batch, h.bids, h.asks]
  exact ⟨rfl, rfl⟩

theorem saveUndoState_eq_ok {s s' : ChainState} {cfg : NodeConfig} {b : FullBlock}
    {p : PendingState} (h : s.saveUndoState cfg b p = .ok s') :
    s' = { s with undoStates := s'.undoStates } := by
  unfold ChainState.saveUndoState at h
  split at h
  · cases h
    rfl
  · simp only [bind_eq_ok, pure_eq_ok] at h
    obtain ⟨states, -, rfl⟩ := h
    rfl

theorem saveUndoState_lookup {s s' : ChainState} {cfg : NodeConfig} {b : FullBlock}
    {p : PendingState} (h : s.saveUndoState cfg b p = .ok s') (hsaved : cfg.minUndoBlock ≤ b.blockNum) :
    s'.undoStates.lookup b.id = some (p.buildUndoState s.tables) := by
  rw [ChainState.saveUndoState, if_neg (not_lt.2 hsaved)] at h
  simp only [bind_eq_ok, pure_eq_ok] at h
  obtain ⟨states, -, rfl⟩ := h
  exact Finmap.lookup_insert _

theorem saveUndoState_mem {s s' : ChainState} {cfg : NodeConfig} {b : FullBlock}
    {p : PendingState} (h : s.saveUndoState cfg b p = .ok s') {id : BlockId} {u : Batch}
    (hu : s'.undoStates.lookup id = some u) :
    s.undoStates.lookup id = some u ∨ id = b.id ∧ u = p.buildUndoState s.tables := by
  unfold ChainState.saveUndoState at h
  split at h
  · cases h
    exact .inl hu
  · simp only [bind_eq_ok, pure_eq_ok] at h
    obtain ⟨states, hstates, rfl⟩ := h
    dsimp only at hu
    rw [Table.lookup_insert_eq] at hu
    split at hu
    · rename_i hid
      exact .inr ⟨hid, (Option.some.inj hu).symm⟩
    · refine .inl ?_
      unfold ChainState.dropOldUndo at hstates
      split at hstates
      · simp only [bind_eq_ok, pure_eq_ok] at hstates
        obtain ⟨old, -, rfl⟩ := hstates
        rw [Table.lookup_erase_eq] at hu
        split at hu
        · cases hu
        · exact hu
      · cases hstates
        exact hu

theorem commitBlock_eq_ok {s s' : ChainState} {cfg : NodeConfig} {b : FullBlock} {p : PendingState}
    (h : s.commitBlock cfg b p = .ok s') :
    ∃ m, s.saveUndoState cfg b p = .ok m ∧
      s' = { s with
        tables := { p.batch.applyChanges s.head.blockNum s.tables with
          uniqueTransactions := ChainState.purgeUnique
            (p.batch.applyChanges s.head.blockNum s.tables).uniqueTransactions (s'.now cfg) }
        head := b.toSignedBlockHeader
        headId := b.id
        blockNumToId := s.blockNumToId.insert b.blockNum b.id
        undoStates := m.undoStates } := by
  simp only [ChainState.commitBlock, bind_eq_ok, pure_eq_ok] at h
  obtain ⟨m, hm, rfl⟩ := h
  refine ⟨m, hm, ?_⟩
  rw [saveUndoState_eq_ok hm]
  rfl

theorem extendChain_eq_ok {s s' : ChainState} {cfg : NodeConfig} {b : FullBlock}
    (h : s.extendChain cfg b = .ok s') :
    ∃ p, s.evaluateBlock cfg b = .ok p ∧ s.commitBlock cfg b p = .ok s' := by
  simpa only [ChainState.extendChain, bind_eq_ok] using h

/-- **The database holds the ledger the block was evaluated to.** -/
theorem extendChain_ledger {s s' : ChainState} {cfg : NodeConfig} {b : FullBlock}
    (h : s.extendChain cfg b = .ok s') : ∃ p, s.evaluateBlock cfg b = .ok p ∧
      s'.tables.ledger = p.ledger.view.setProperty .dirtyMarkets (.markets []) := by
  obtain ⟨p, hp, hcommit⟩ := extendChain_eq_ok h
  obtain ⟨m, -, hs'⟩ := commitBlock_eq_ok hcommit
  refine ⟨p, hp, ?_⟩
  rw [hs']
  exact (evaluateBlock_over hp).applyChanges_ledger s.head.blockNum

/-- **One accepted block.**  The rule of `evaluateBlock_payInduction` for the database. -/
theorem extendChain_payInduction {I : Ledger → Prop} {s s' : ChainState} {cfg : NodeConfig}
    {b : FullBlock} (h : s.extendChain cfg b = .ok s')
    (hids : ∀ L, I L → L.assets.All fun id r => r.id = id)
    (hbook : ∀ L L', L.Bookkeeping L' → I L → I L')
    (hpaid : ∀ (signee : PublicKey) (p₁ p₂ : PendingState), s.verifyHeader cfg b signee = .ok () →
      Relation.ReflTransGen Ledger.Bookkeeping s.tables.ledger p₁.ledger.view →
      p₁.payDelegate s signee = .ok p₂ → I p₁.ledger.view → I p₂.ledger.view)
    (htrx : ∀ trx ∈ b.userTransactions, ∀ q e, evaluateLedger (s.evalContext cfg) q trx = .ok e →
      I q.view → I e.ledger)
    (hreward : ∀ L L', L.Rewarded L' → I L → I L')
    (hI : I s.tables.ledger) : I s'.tables.ledger := by
  obtain ⟨p, hp, hledger⟩ := extendChain_ledger h
  rw [hledger]
  exact hbook _ _ (.property _ (by decide) (by decide))
    (evaluateBlock_payInduction hp hids hbook hpaid htrx hreward hI)

/-- **One accepted block.**  The rule of `evaluateBlock_induction` for the database. -/
theorem extendChain_induction {I : Ledger → Prop} {s s' : ChainState} {cfg : NodeConfig}
    {b : FullBlock} (h : s.extendChain cfg b = .ok s')
    (hids : ∀ L, I L → L.assets.All fun id r => r.id = id)
    (hbook : ∀ L L', L.Bookkeeping L' → I L → I L')
    (hpaid : ∀ L L', L.Paid L' → I L → I L')
    (htrx : ∀ trx ∈ b.userTransactions, ∀ q e, evaluateLedger (s.evalContext cfg) q trx = .ok e →
      I q.view → I e.ledger)
    (hreward : ∀ L L', L.Rewarded L' → I L → I L')
    (hI : I s.tables.ledger) : I s'.tables.ledger := by
  obtain ⟨p, hp, hledger⟩ := extendChain_ledger h
  rw [hledger]
  exact hbook _ _ (.property _ (by decide) (by decide))
    (evaluateBlock_induction hp hids hbook hpaid htrx hreward hI)

theorem extendChain_wellFormed {s s' : ChainState} {cfg : NodeConfig} {b : FullBlock}
    (h : s.extendChain cfg b = .ok s') (hs : s.tables.ledger.WellFormed) :
    s'.tables.ledger.WellFormed :=
  extendChain_induction (I := Ledger.WellFormed) h (fun _ h => h.assets)
    (fun _ _ h => h.wellFormed) (fun _ _ h => h.wellFormed)
    (fun _ _ _ _ he hq => evaluateLedger_wellFormed he hq) (fun _ _ h => h.wellFormed) hs

end BitShares
