import BitShares.Chain.Extend
import BitShares.Game.Operations
import Mathlib.Data.String.Basic

/-!
# Blocks on a node with games

`extend_chain` of a node whose game client is open: game operations are registered, and at the end
of a block the scripts of all games of the chain run (`client::execute`,
`v8_game_engine::execute`).  What a script throws is caught and noted in the status of its game;
what was stored until then stays.
-/

namespace BitShares

/-- One thing `PLAY.execute` asks for, in the order the members of its result are gone through:
a result, a record of the game's data, a change of a balance, a change of a supply.  A member that
is no array, or an entry of another shape, is `malformed` where it would be read. -/
inductive ScriptWrite where
  | result (data : Variant)
  | data (entry : ScriptData)
  | diffBalance (owner : Address) (amount : Asset)
  | diffSupply (amount : Asset)
  | malformed

/-- The engines of a node.  `execute` is `PLAY.execute` of a game's script, `none` if the game has no
engine: the setters it calls, and then what it throws or returns. -/
structure GameNode extends GameClient where
  execute : ChainState → BlockNum → PendingState → GameRecord →
    Option (List ScriptCall × Except Error (List ScriptWrite))

namespace PendingState

def storeGameStatus (p : PendingState) (s : GameStatus) : PendingState :=
  { p with gameStatuses := p.gameStatuses.insert s.gameId s }

def attempt {α : Type} (step : PendingState → α → Except Error PendingState) :
    List α → PendingState → Option Error × PendingState
  | [], p => (none, p)
  | a :: l, p =>
    match step p a with
    | .ok p' => attempt step l p'
    | .error e => (some e, p)

/-- The handler of `v8_game_engine::execute`. -/
def noteGameError (p : PendingState) (n : BlockNum) (gameId : GameId) (e : Error) : PendingState :=
  let status := (p.gameStatuses.lookup gameId).getD { gameId := gameId }
  p.storeGameStatus { status with blockNumber := n, lastError := some e }

variable [Crypto]

/-- The date of a balance that the script changes by `amount`. -/
def scriptDate (r : BalanceRecord) (now : Time) (amount : ShareType) : Except Error Time :=
  if r.balance = 0 ∨ amount ≤ 0 then .ok now
  else averageDate r.depositDate now r.balance amount

/-- Carry out one entry of the result.  The asset of a balance is looked up in the database, that
of a supply in the pending state. -/
def scriptWrite (s : ChainState) (cfg : NodeConfig) (gameId : GameId) (p : PendingState) :
    ScriptWrite → Except Error PendingState
  | .result data => .ok { p with
      gameResultTransactions := p.gameResultTransactions ++ [⟨gameId, data⟩] }
  | .data (.number id) => .ok { p with
      ledger := p.ledger.storeGameDataRecord gameId id ⟨0, ""⟩ }
  | .data (.object index data) => do
    let index ← expect index (.assertion "")
    return { p with ledger := p.ledger.storeGameDataRecord gameId index ⟨gameId, data⟩ }
  | .data .other => .error (.assertion "")
  | .diffBalance owner amount => do
    let asset ← expect (s.tables.assets.lookup amount.assetId) (.assertion "")
    require asset.isGameIssued (.assertion "")
    require (asset.issuerId = gameId) (.assertion ("Updating the game asset must get the " ++
      "permission, with the condition that the issuer is this game."))
    let id := Crypto.getAddress (.withSignature owner amount.assetId 0)
    let r := (p.ledger.getBalanceRecord id).getD (.ofOwner owner amount.assetId)
    let depositDate ← scriptDate r (s.now cfg) amount.amount
    require (0 ≤ r.balance + amount.amount) (.assertion "")
    return { p with
      ledger := p.ledger.storeBalanceRecord
        { r with balance := r.balance + amount.amount, depositDate := depositDate } }
  | .diffSupply amount => do
    let asset ← expect (p.ledger.getAssetRecord amount.assetId) (.assertion "")
    require asset.isGameIssued (.assertion "")
    require (asset.issuerId = gameId) (.assertion ("Updating the game asset must get the " ++
      "permission, with the condition that the issuer is this game."))
    return { p with
      ledger := p.ledger.storeAssetRecord
        { asset with currentSupply := asset.currentSupply + amount.amount } }
  | .malformed => .error (.assertion "")

/-- The body of `v8_game_engine::execute`: what is thrown, and what is stored until then. -/
def runGame (node : GameNode) (s : ChainState) (cfg : NodeConfig) (n : BlockNum)
    (p : PendingState) (game : GameRecord) : Option Error × PendingState :=
  match node.execute s n p game with
  | none => (none, p)
  | some (calls, outcome) =>
    let p := { p with ledger := calls.foldl PendingLedger.scriptCall p.ledger }
    match outcome with
    | .error e => (some e, p)
    | .ok writes => attempt (scriptWrite s cfg game.id) writes p

/-- `v8_game_engine::execute`. -/
def executeGame (node : GameNode) (s : ChainState) (cfg : NodeConfig) (n : BlockNum)
    (p : PendingState) (game : GameRecord) : PendingState :=
  match p.runGame node s cfg n game with
  | (none, p) => p
  | (some e, p) => p.noteGameError n game.id e

end PendingState

/-- `get_games`: the games of the chain by name. -/
def ChainTables.getGames (d : ChainTables) : List GameRecord :=
  d.gameNames.sortedKeys.filterMap fun name => (d.gameNames.lookup name).bind d.games.lookup

namespace ChainState

variable [Crypto]

/-- `extend_chain` up to the end of the evaluation, on a node with games. -/
def evaluateBlockWith (node : GameNode) (s : ChainState) (cfg : NodeConfig) (b : FullBlock) :
    Except Error PendingState := do
  let p ← s.evaluateBlockBy (evaluateLedgerWith node.toGameClient) cfg b
  return s.tables.getGames.foldl (PendingState.executeGame node s cfg b.blockNum) p

/-- `extend_chain` on a node with games. -/
def extendChainWith (node : GameNode) (s : ChainState) (cfg : NodeConfig) (b : FullBlock) :
    Except Error ChainState := do
  s.commitBlock cfg b (← s.evaluateBlockWith node cfg b)

end ChainState

/-! ## Clients with and without games -/

/-- The configuration of a client: that of its chain database, and its games if it has any. -/
structure ClientConfig extends NodeConfig where
  games : Option GameNode := none

variable [Crypto]

/-- `evaluate` from the signatures on. -/
def ClientConfig.evaluate (cfg : ClientConfig) :
    EvalContext → PendingLedger → SignedTransaction → Except Error EvalState :=
  match cfg.games with
  | none => evaluateLedger
  | some node => evaluateLedgerWith node.toGameClient

/-- `extend_chain`. -/
def ChainState.extendChainOn (s : ChainState) (cfg : ClientConfig) (b : FullBlock) :
    Except Error ChainState :=
  match cfg.games with
  | none => s.extendChain cfg.toNodeConfig b
  | some node => s.extendChainWith node cfg.toNodeConfig b

end BitShares
