import BitShares.Chain.Extend

/-!
# Runs of the chain

`Extends` is a run of `extend_chain` alone: blocks accepted one after the other.  `ChainRun` also
takes blocks back, as a fork switch does.  Both are runs of a node without games: the laws of the
ledger that are proved over them are not laws of game scripts, which may store any balance or asset.
-/

namespace BitShares

variable [Crypto]

/-- The blocks of `l` are accepted one after the other.  Between two of them other blocks may
arrive in the block store. -/
inductive Extends : ChainState → List (NodeConfig × FullBlock) → ChainState → Prop
  | refl (s : ChainState) : Extends s [] s
  | extend {s m s' : ChainState} {cfg : NodeConfig} {b : FullBlock}
      {l : List (NodeConfig × FullBlock)} (h : s.extendChain cfg b = .ok m)
      (hrest : Extends m l s') : Extends s ((cfg, b) :: l) s'
  | arrive {s s' : ChainState} {l : List (NodeConfig × FullBlock)}
      (blocks : Table BlockId FullBlock) (h : Extends { s with blocks := blocks } l s') :
      Extends s l s'

theorem Extends.induction {P : ChainTables → Prop} {s s' : ChainState}
    {l : List (NodeConfig × FullBlock)} (hrun : Extends s l s')
    (hstep : ∀ cfg b, (cfg, b) ∈ l → ∀ s s' : ChainState, s.extendChain cfg b = .ok s' →
      P s.tables → P s'.tables) (hs : P s.tables) : P s'.tables := by
  induction hrun with
  | refl s => exact hs
  | extend h _ ih =>
    exact ih (fun cfg b hmem => hstep cfg b (List.mem_cons_of_mem _ hmem))
      (hstep _ _ List.mem_cons_self _ _ h hs)
  | arrive blocks _ ih => exact ih hstep hs

/-- Blocks are accepted one after the other, each one of those that `C` selects in the state it comes
to. -/
inductive ExtendsWhile (C : ChainState → NodeConfig → FullBlock → Prop) (s : ChainState) :
    ChainState → Prop
  | refl : ExtendsWhile C s s
  | extend {m s' : ChainState} {cfg : NodeConfig} {b : FullBlock} (hrun : ExtendsWhile C s m)
      (hC : C m cfg b) (h : m.extendChain cfg b = .ok s') : ExtendsWhile C s s'
  | arrive {m : ChainState} (blocks : Table BlockId FullBlock) (hrun : ExtendsWhile C s m) :
      ExtendsWhile C s { m with blocks := blocks }

theorem ExtendsWhile.induction {C : ChainState → NodeConfig → FullBlock → Prop}
    {P : ChainTables → Prop} {s s' : ChainState} (hrun : ExtendsWhile C s s')
    (hstep : ∀ (m m' : ChainState) cfg b, C m cfg b → m.extendChain cfg b = .ok m' →
      P m.tables → P m'.tables) (hs : P s.tables) : P s'.tables := by
  induction hrun with
  | refl => exact hs
  | extend _ hC h ih => exact hstep _ _ _ _ hC h ih
  | arrive _ _ ih => exact ih

inductive ChainRun (s : ChainState) : ChainState → Prop
  | refl : ChainRun s s
  | extend {m s' : ChainState} {cfg : NodeConfig} {b : FullBlock} (hrun : ChainRun s m)
      (h : m.extendChain cfg b = .ok s') : ChainRun s s'
  | pop {m s' : ChainState} (hrun : ChainRun s m) (h : m.popBlock = .ok s') : ChainRun s s'
  | arrive {m : ChainState} (blocks : Table BlockId FullBlock) (hrun : ChainRun s m) :
      ChainRun s { m with blocks := blocks }

/-! ## A chain with one delegate -/

def soloDelegate : AccountRecord where
  id := 1
  name := "solo"
  publicData := ""
  ownerKey := 5
  activeKeyHistory := OrdMap.set ∅ 1 5
  registrationDate := 1
  lastUpdate := 1
  delegateInfo := some { payRate := 100, signingKeyHistory := OrdMap.set ∅ 0 5 }

def baseAsset (supply : ShareType) : AssetRecord where
  id := 0
  symbol := "BTS"
  issuerType := 0
  name := "BitShares"
  description := ""
  publicData := ""
  maxSupply := MAX_SHARES
  currentSupply := supply
  registrationDate := 1
  lastUpdate := 1

def soloTables (supply : ShareType) : ChainTables where
  properties := ((Finmap.singleton .activeDelegateListId
    (.ids (List.replicate NUM_DELEGATES 1))).insert .lastAccountId (.id 1)).insert .lastAssetId (.id 0)
  accounts := Finmap.singleton 1 soloDelegate
  accountNames := Finmap.singleton "solo" 1
  accountAddresses := Finmap.singleton 5 1
  assets := Finmap.singleton 0 (baseAsset supply)
  assetSymbols := Finmap.singleton "BTS" 0
  delegateVotes := OrdSet.insert ∅ (rankKey 0 1)

def soloBlock (num : BlockNum) (previous : BlockId) (timestamp : Time)
    (trxs : List SignedTransaction) : FullBlock where
  previous := previous
  blockNum := num
  timestamp := timestamp
  transactionDigest := trxs.length
  nextSecretHash := 0
  previousSecret := 0
  delegateSignature := 5
  userTransactions := trxs

end BitShares
