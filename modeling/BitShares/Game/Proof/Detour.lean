import BitShares.Game.Proof.Undo

/-!
# Coming back from a fork

`switch_to_fork` takes blocks off with their undo states and puts others on.  Whatever is built on a
block and taken back, and however often, the records are again those of that block, also on a node
whose scripts run at the end of each block.

* `ChainTables.records_undo`: the undo state of a block takes its records back.
* `Detour`: blocks go on top of a state and come off again.
* `detour_restores`: what is left after a detour.
-/

namespace BitShares

section

variable [Crypto]

namespace ChainTables

/-- What undo states restore: the records that `populate_undo_state` walks over, and the orders.  A
status comes back as an empty one, the dirty markets are overwritten by `apply_changes`, and the
indexes follow the records only if they were exact. -/
def records (d : ChainTables) : ChainTables where
  properties := d.properties.erase .dirtyMarkets
  accounts := d.accounts
  assets := d.assets
  slates := d.slates
  balances := d.balances
  transactions := d.transactions
  burns := d.burns
  notes := d.notes
  packets := d.packets
  slots := d.slots
  games := d.games
  feeds := d.feeds
  bids := d.bids
  asks := d.asks

omit [Crypto] in
theorem erase_insert_applyTo {o : Overlay PropertyId PropertyValue} {k : PropertyId}
    {v : PropertyValue} {t t' : Table PropertyId PropertyValue}
    (h : ∀ j, j ≠ k → o.read j (t.lookup j) = t'.lookup j) :
    ((o.applyTo t).insert k v).erase k = t'.erase k := by
  refine Finmap.ext_lookup fun j => ?_
  simp only [Table.lookup_erase_eq, Table.lookup_insert_eq, Overlay.lookup_applyTo]
  split_ifs with hj
  · rfl
  · exact h j hj

theorem records_applyChanges {d d' : ChainTables} (h : d'.records = d.records) (c : Batch)
    (n n' : BlockNum) : (c.applyChanges n' d').records = (c.applyChanges n d).records := by
  have hproperties : ∀ j, j ≠ .dirtyMarkets → d'.properties.lookup j = d.properties.lookup j := by
    intro j hj
    have hlookup := congrArg (fun d => d.properties.lookup j) h
    simpa only [records, Table.lookup_erase_eq, if_neg hj] using hlookup
  simp only [records, mk.injEq, LedgerTables.mk.injEq] at h
  simp only [Batch.applyChanges_eq, records, h]
  congr 2
  refine erase_insert_applyTo fun j hj => ?_
  rw [hproperties j hj, Table.lookup_insert_eq, if_neg hj, Overlay.lookup_applyTo]

end ChainTables

/-- A pending state over the records of a database. -/
structure PendingState.OverRecords (p : PendingState) (d : ChainTables) : Prop where
  ledger : p.ledger.below = d.toLedgerTables
  transactions : p.transactions.prev = d.transactions
  feeds : p.feeds = .over d.feeds
  slots : p.slots.prev = d.slots
  bids : p.bids = .over d.bids
  asks : p.asks = .over d.asks

namespace ChainTables

/-- **The undo state of a block** takes back what the block did to the records. -/
theorem records_undo {p : PendingState} {d : ChainTables} (h : p.OverRecords d) (n n' : BlockNum)
    (unique : OrdSet (ℕ ×ₗ ℕ)) :
    ((p.buildUndoState d).applyChanges n
      { p.batch.applyChanges n' d with uniqueTransactions := unique }).records = d.records := by
  have hrestored : ∀ {K V : Type} [DecidableEq K] (l : Layered K V),
      l.undo.applyTo (l.overlay.applyTo l.prev) = l.prev := fun l => l.undo_applyTo
  obtain ⟨hledger, htransactions, hfeeds, hslots, hbids, hasks⟩ := h
  obtain ⟨ledger⟩ := d
  dsimp only at hledger htransactions hfeeds hslots hbids hasks
  subst hledger htransactions hslots
  simp only [Batch.applyChanges_eq, PendingState.buildUndoState, PendingState.batch, records,
    PendingLedger.below, hrestored, hfeeds, hbids, hasks]
  congr 2
  refine erase_insert_applyTo fun j hj => ?_
  rw [Overlay.read_insert, if_neg hj, Table.lookup_insert_eq, if_neg hj, ← Overlay.lookup_applyTo,
    hrestored]

end ChainTables

/-! ## Blocks on a node with games -/

omit [Crypto] in
theorem PendingState.OverRecords.script {p p' : PendingState} {d : ChainTables}
    (h : p.OverRecords d) (hmove : p.ScriptMove p') : p'.OverRecords d := by
  have hbelow := hmove.below.trans h.ledger
  obtain ⟨ledger, results, rfl⟩ := hmove.rest
  exact ⟨hbelow, h.transactions, h.feeds, h.slots, h.bids, h.asks⟩

theorem executeGame_overRecords (node : GameNode) (s : ChainState) (cfg : NodeConfig) (n : BlockNum)
    {p : PendingState} {d : ChainTables} (h : p.OverRecords d) (game : GameRecord) :
    (p.executeGame node s cfg n game).OverRecords d := by
  have hrun := h.script (p.runGame_move node s cfg n game)
  unfold PendingState.executeGame
  split
  · rename_i hq
    rwa [hq] at hrun
  · -- the handler writes a status, and no record
    rename_i hq
    rw [hq] at hrun
    exact ⟨hrun.ledger, hrun.transactions, hrun.feeds, hrun.slots, hrun.bids, hrun.asks⟩

theorem evaluateBlockWith_overRecords {node : GameNode} {s : ChainState} {cfg : NodeConfig}
    {b : FullBlock} {p : PendingState} (h : s.evaluateBlockWith node cfg b = .ok p) :
    p.OverRecords s.tables := by
  simp only [ChainState.evaluateBlockWith, bind_eq_ok, pure_eq_ok] at h
  obtain ⟨q, hq, rfl⟩ := h
  have hover := evaluateBlockBy_over (fun _ _ _ _ => evaluateLedgerWith_below) hq
  refine List.foldlRecOn (motive := fun p => PendingState.OverRecords p s.tables) _ _ ?_
    fun p hp game _ => executeGame_overRecords node s cfg b.blockNum hp game
  exact ⟨hover.ledger, hover.transactions, hover.feeds, hover.slots, hover.bids, hover.asks⟩

theorem previous_of_evaluateBlockWith {node : GameNode} {s : ChainState} {cfg : NodeConfig}
    {b : FullBlock} {p : PendingState} (h : s.evaluateBlockWith node cfg b = .ok p) :
    b.previous = s.headId := by
  simp only [ChainState.evaluateBlockWith, bind_eq_ok, pure_eq_ok] at h
  obtain ⟨q, hq, -⟩ := h
  obtain ⟨signee, -, -, -, -, hheader, -⟩ := evaluateBlock_phases hq
  simp only [ChainState.verifyHeader, bind_eq_ok, require_eq_ok] at hheader
  obtain ⟨-, -, -, hprevious, -⟩ := hheader
  exact hprevious

/-! ## Detours -/

/-- Blocks go on top of a state and come off again, each after those on top of it, while others
arrive in the block store.  The open blocks are those of `ids`; a block goes on with its undo state,
and not on itself. -/
inductive Detour (node : GameNode) : List BlockId → ChainState → ChainState → Prop
  | refl {ids : List BlockId} (s : ChainState) : Detour node ids s s
  | arrive {ids : List BlockId} {s s' : ChainState} (blocks : Table BlockId FullBlock)
      (h : Detour node ids s s')
      (hkept : ∀ x c, s'.blocks.lookup x = some c → blocks.lookup x = some c) :
      Detour node ids s { s' with blocks := blocks }
  | branch {ids : List BlockId} {s m top top' s' : ChainState} {cfg : NodeConfig} {b : FullBlock}
      (h : Detour node ids s m) (hnew : b.id ∉ ids) (hid : b.id ≠ nullId)
      (hstored : m.blocks.lookup b.id = some b) (hnum : 0 < b.blockNum)
      (hundo : cfg.minUndoBlock ≤ b.blockNum) (hext : m.extendChainWith node cfg b = .ok top)
      (hdetour : Detour node (b.id :: ids) top top') (hpop : top'.popBlock = .ok s') :
      Detour node ids s s'

/-- The header of the head is that of its stored block. -/
def ChainState.Seated (s : ChainState) : Prop :=
  s.headId = nullId ∧ s.head = .null ∨
    s.headId ≠ nullId ∧ ∃ c, s.blocks.lookup s.headId = some c ∧ c.toSignedBlockHeader = s.head

/-- What a detour leaves. -/
structure Returned (ids : List BlockId) (s s' : ChainState) : Prop where
  records : s'.tables.records = s.tables.records
  headId : s'.headId = s.headId
  head : s'.head = s.head
  blocks : ∀ x c, s.blocks.lookup x = some c → s'.blocks.lookup x = some c
  undo : ∀ x ∈ ids, ∀ u, s'.undoStates.lookup x = some u → s.undoStates.lookup x = some u

namespace Returned

variable {node : GameNode} {ids : List BlockId} {s m top top' s' : ChainState} {cfg : NodeConfig}
  {b : FullBlock}

omit [Crypto] in
theorem trans (h : Returned ids s m) (h' : Returned ids m s') : Returned ids s s' where
  records := h'.records.trans h.records
  headId := h'.headId.trans h.headId
  head := h'.head.trans h.head
  blocks x c hc := h'.blocks x c (h.blocks x c hc)
  undo x hx u hu := h.undo x hx u (h'.undo x hx u hu)

omit [Crypto] in
theorem seated (h : Returned ids s s') (hs : s.Seated) : s'.Seated := by
  rcases hs with ⟨hid, hhead⟩ | ⟨hid, c, hc, hhead⟩
  · exact .inl ⟨h.headId.trans hid, h.head.trans hhead⟩
  · rw [← h.headId] at hid hc
    exact .inr ⟨hid, c, h.blocks _ c hc, hhead.trans h.head.symm⟩

/-- **One branch**: a block goes on, and comes off after a detour. -/
theorem branch (hm : m.Seated) (hnew : b.id ∉ ids) (hnum : 0 < b.blockNum)
    (hundo : cfg.minUndoBlock ≤ b.blockNum) (hext : m.extendChainWith node cfg b = .ok top)
    (h : Returned (b.id :: ids) top top') (hpop : top'.popBlock = .ok s') : Returned ids m s' := by
  rw [ChainState.extendChainWith, bind_eq_ok] at hext
  obtain ⟨p, hp, hcommit⟩ := hext
  obtain ⟨k, hk, htop⟩ := commitBlock_eq_ok hcommit
  have hprevious : b.previous = m.headId := previous_of_evaluateBlockWith hp
  have hheadId : top'.headId = b.id := by rw [h.headId, htop]
  have hhead : top'.head = b.toSignedBlockHeader := by rw [h.head, htop]
  have hblocks : ∀ x c, m.blocks.lookup x = some c → top'.blocks.lookup x = some c := fun x c hc =>
    h.blocks x c (by rw [htop]; exact hc)
  have hsaved : top.undoStates = k.undoStates := by rw [htop]
  -- the head is not numbered 0, so its undo state is used
  have hzero : top'.head.blockNum ≠ 0 := by rw [hhead]; exact hnum.ne'
  simp only [ChainState.popBlock, if_neg hzero, bind_eq_ok, expect_eq_ok, pure_eq_ok] at hpop
  obtain ⟨u, hu, header, hbelow, rfl⟩ := hpop
  have hu' := h.undo b.id List.mem_cons_self u (hheadId ▸ hu)
  rw [hsaved, saveUndoState_lookup hk hundo] at hu'
  obtain rfl := Option.some.inj hu'
  refine ⟨?_, by rw [hhead]; exact hprevious, ?_, hblocks, fun x hx v hv => ?_⟩
  · refine (ChainTables.records_applyChanges h.records _ 0 _).trans ?_
    rw [htop]
    exact ChainTables.records_undo (evaluateBlockWith_overRecords hp) 0 _ _
  · -- the header below is that of the stored block
    rw [ChainState.previousHeader, hhead, hprevious] at hbelow
    rcases hm with ⟨hid, hnull⟩ | ⟨hid, c, hc, hseated⟩
    · rw [if_pos hid] at hbelow
      cases hbelow
      exact hnull.symm
    · rw [if_neg hid, hblocks _ c hc] at hbelow
      cases hbelow
      exact hseated
  · have hv' := h.undo x (List.mem_cons_of_mem _ hx) v hv
    rw [hsaved] at hv'
    exact (saveUndoState_mem hk hv').resolve_right fun heq => hnew (heq.1 ▸ hx)

end Returned

/-- **A detour leaves no trace in the records**: after any number of blocks were built on a state
and taken back, in any nesting, the records and the head are what they were. -/
theorem detour_restores {node : GameNode} {s s' : ChainState} (h : Detour node [] s s')
    (hs : s.Seated) :
    s'.tables.records = s.tables.records ∧ s'.headId = s.headId ∧ s'.head = s.head := by
  suffices hreturned : ∀ {ids s s'}, Detour node ids s s' → s.Seated → Returned ids s s' by
    have hreturned := hreturned h hs
    exact ⟨hreturned.records, hreturned.headId, hreturned.head⟩
  intro ids s s' h hs
  induction h with
  | refl s => exact ⟨rfl, rfl, rfl, fun _ _ hc => hc, fun _ _ _ hu => hu⟩
  | arrive blocks _ hkept ih =>
    have h := ih hs
    exact ⟨h.records, h.headId, h.head, fun x c hc => hkept x c (h.blocks x c hc), h.undo⟩
  | @branch ids s m top top' s' cfg b _ hnew hid hstored hnum hundo hext _ hpop ih ihtop =>
    have hm := ih hs
    refine hm.trans (.branch (hm.seated hs) hnew hnum hundo hext (ihtop ?_) hpop)
    rw [ChainState.extendChainWith, bind_eq_ok] at hext
    obtain ⟨p, -, hcommit⟩ := hext
    obtain ⟨k, -, htop⟩ := commitBlock_eq_ok hcommit
    rw [htop]
    exact .inr ⟨hid, b, hstored, rfl⟩

end

/-- A block that creates a game goes on, another one on top of it, and both come off again. -/
theorem detour_restores_newGame :
    letI := Crypto.transparent
    let block1 := casinoBlock [newGame]
    let block2 := soloBlock 2 block1.id 20 [dicePlay]
    let s : ChainState := { tables := casinoTables, blocks :=
      (Finmap.singleton block1.id block1).insert block2.id block2 }
    ∃ top top₂ m s', s.extendChainWith diceNode { clock := 100 } block1 = .ok top ∧
      (top.tables.games.lookup 2).isSome ∧
      top.extendChainWith diceNode { clock := 100 } block2 = .ok top₂ ∧
      (top₂.tables.gameData.lookup (2, 8)).isSome ∧
      top₂.popBlock = .ok m ∧ m.popBlock = .ok s' ∧
      s'.tables.records = s.tables.records ∧ s'.headId = nullId := by
  let := Crypto.transparent
  intro block1 block2 s
  obtain ⟨⟨top, top₂, m, s'⟩, hrun, hgame, hdata, hstored⟩ := exists_ok_of_any
    (x := do
      let top ← s.extendChainWith diceNode { clock := 100 } block1
      let top₂ ← top.extendChainWith diceNode { clock := 100 } block2
      let m ← top₂.popBlock
      return (top, top₂, m, ← m.popBlock))
    (p := fun r => (r.1.tables.games.lookup 2).isSome ∧
      (r.2.1.tables.gameData.lookup (2, 8)).isSome ∧ r.1.blocks.lookup block2.id = some block2)
    (by decide +kernel)
  simp only [bind_eq_ok, pure_eq_ok] at hrun
  obtain ⟨_, htop, _, htop₂, _, hm, _, hs', heq⟩ := hrun
  cases heq
  have hdetour : Detour diceNode [] s s' := by
    refine .branch (.refl s) (by simp) (by decide +kernel) (by decide +kernel) (by decide) (by decide)
      htop ?_ hs'
    exact .branch (.refl top) (by decide +kernel) (by decide +kernel) hstored (by decide) (by decide)
      htop₂ (.refl top₂) hm
  obtain ⟨hrecords, hheadId, -⟩ := detour_restores hdetour (.inl ⟨rfl, rfl⟩)
  exact ⟨top, top₂, m, s', htop, hgame, htop₂, hdata, hm, hs', hrecords, hheadId⟩

end BitShares
