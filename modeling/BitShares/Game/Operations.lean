import BitShares.Ledger.Evaluate

/-!
# Game operations

The evaluators of `game_operations.cpp` and the part of `v8_game_engine::evaluate` that follows the
call of the script, for a node whose game client is open.  The scripts themselves run in an engine
outside this repository: what they return, and which setters of `v8_api.cpp` they call on the way,
is a parameter (`GameClient`).
-/

namespace BitShares

/-! ## Scripts -/

/-- A setter that a script can call on the pending state it is handed. -/
inductive ScriptCall where
  | setBalanceRecord (r : BalanceRecord)
  | setAssetRecord (r : AssetRecord)
  | setGameDataRecord (gameId : GameId) (dataId : DataId) (r : GameDataRecord)

/-- A setter that `PLAY.evaluate` can call. -/
inductive PlayCall where
  | onState (call : ScriptCall)
  | subBalance (amount : Asset)

/-- An entry of `datas`: an object, with its `index` if it has one, a number, or neither. -/
inductive ScriptData where
  | object (index : Option DataId) (data : Variant)
  | number (id : DataId)
  | other

/-- What `PLAY.evaluate` returns. -/
structure PlayResult where
  toBalances : List (Address × Asset)
  datas : List ScriptData

/-- The engines of a node.  A script that throws, or returns something of another shape, is an
error. -/
structure GameClient where
  evaluate : EvalState → GameRecord → Variant → Except Error (List PlayCall × PlayResult)

section

variable [Crypto]

def PendingLedger.scriptCall (p : PendingLedger) : ScriptCall → PendingLedger
  | .setBalanceRecord r => p.storeBalanceRecord r
  | .setAssetRecord r => p.storeAssetRecord r
  | .setGameDataRecord gameId dataId r => p.storeGameDataRecord gameId dataId r

def EvalState.playCall (e : EvalState) : PlayCall → EvalState
  | .onState call => { e with pending := e.pending.scriptCall call }
  | .subBalance amount => e.subBalance amount

/-- One entry of `to_balances`: shares of an asset of the game, out of the transaction. -/
def EvalState.payOut (gameId : GameId) (e : EvalState) (entry : Address × Asset) :
    Except Error EvalState := do
  let (owner, amount) := entry
  let asset ← expect (e.pending.getAssetRecord amount.assetId) (.assertion "")
  require asset.isGameIssued (.assertion "game asset is $\x7bg\x7d")
  require (asset.issuerId = gameId) (.assertion ("Adding the game asset must get the permission, " ++
    "with the condition that the issuer is this game."))
  let id := Crypto.getAddress (.withSignature owner amount.assetId 0)
  let r := (e.pending.getBalanceRecord id).getD (.ofOwner owner amount.assetId)
  let depositDate ← averageDate r.depositDate e.ctx.now r.balance amount.amount
  let e := e.subBalance amount
  return { e with
    pending := e.pending.storeBalanceRecord { r with
      balance := r.balance + amount.amount
      depositDate := depositDate
      lastUpdate := e.ctx.now } }

/-- One entry of `datas`.  A number stores the null record under that id. -/
def EvalState.putData (gameId : GameId) (e : EvalState) : ScriptData → Except Error EvalState
  | .object index data => do
    let index ← expect index (.assertion "")
    return { e with pending := e.pending.storeGameDataRecord gameId index ⟨gameId, data⟩ }
  | .number id =>
    .ok { e with pending := e.pending.storeGameDataRecord gameId id ⟨0, toString id⟩ }
  | .other => .ok e

/-- `v8_game_engine::evaluate` once the script has returned. -/
def PlayResult.apply (result : PlayResult) (gameId : GameId) (e : EvalState) :
    Except Error EvalState := do
  let e ← result.toBalances.foldlM (EvalState.payOut gameId) e
  result.datas.foldlM (EvalState.putData gameId) e

/-! ## The operations -/

/-- The loop of `get_game_registration_fee`. -/
def shortNamePrice : Nat → ShareType
  | 0 => 1 * PRECISION
  | len + 1 => shortNamePrice len * 10

/-- `get_game_registration_fee`; the length is passed as a byte. -/
def getGameRegistrationFee (nameLength : Nat) : ShareType :=
  let length := nameLength % 256
  if 6 < length then 1 * PRECISION else shortNamePrice (7 - length)

def gameOwnerName : String := "play-bitsha256"

def CreateGameOperation.record (op : CreateGameOperation) (id : GameId) (now : Time) :
    GameRecord where
  id := id
  name := op.name
  description := op.description
  publicData := op.publicData
  ownerAccountId := op.ownerAccountId
  scriptCode := op.scriptCode
  registrationDate := now
  lastUpdate := now

/-- The value of `account_or_any_parent_has_signed` is not looked at, and that the engine cannot be
set up for the new game is only logged. -/
def CreateGameOperation.evaluate (op : CreateGameOperation) (e : EvalState) :
    Except Error EvalState := do
  require (e.pending.getGameRecordByName op.name).isNone .gameNameInUse
  require (op.name ≠ "") .invalidGameName
  require (isValidAccountName op.name) .invalidGameName
  let last ← e.pending.lastGameId
  require (e.pending.getGameRecord (last + 1)).isNone .gameIdInUse
  let owner ← expect (e.pending.getAccountRecord op.ownerAccountId) .unknownAccountId
  require (owner.name = gameOwnerName) .invalidAccountName
  let _ := e.accountOrAnyParentHasSigned owner
  let e := e.addMinFee 0 (getGameRegistrationFee op.name.length)
  let (id, pending) ← e.pending.newGameId
  return { e with pending := pending.storeGameRecord (op.record id e.ctx.now) }

def GameUpdateOperation.evaluate (op : GameUpdateOperation) (e : EvalState) :
    Except Error EvalState := do
  let game ← expect (e.pending.getGameRecord op.gameId) .unknownGame
  let owner ← expect (e.pending.getAccountRecord game.ownerAccountId) .unknownAccountId
  let _ := e.accountOrAnyParentHasSigned owner
  let e := e.addMinFee 0 (getGameRegistrationFee game.name.length)
  return { e with
    pending := e.pending.storeGameRecord { game with
      description := op.description
      publicData := op.publicData
      scriptCode := op.scriptCode
      lastUpdate := e.ctx.now } }

def GamePlayOperation.evaluate (op : GamePlayOperation) (client : GameClient) (e : EvalState) :
    Except Error EvalState := do
  let game ← expect (e.pending.getGameRecord op.gameId) .unknownGame
  let (calls, result) ← client.evaluate e game op.data
  result.apply op.gameId (calls.foldl EvalState.playCall e)

/-! ## Transactions with game operations -/

/-- `operation_factory::evaluate` with the operations of the game client. -/
def EvalState.evaluateOperationWith (client : GameClient) (e : EvalState) :
    Operation → Except Error EvalState
  | .game (.create op) => op.evaluate e
  | .game (.update op) => op.evaluate e
  | .game (.play op) => op.evaluate client e
  | op => e.evaluateOperation op

def EvalState.operationStep (client : GameClient) (e : EvalState) (op : Operation) :
    Except Error EvalState := do
  let e ← e.evaluateOperationWith client op
  return { e with currentOpIndex := e.currentOpIndex + 1 }

/-- `evaluate` up to the end of the operation loop. -/
def evaluateToFeesWith (client : GameClient) (ctx : EvalContext) (p : PendingLedger)
    (trx : SignedTransaction) : Except Error EvalState := do
  let signers ← signersOf ctx trx
  trx.operations.foldlM (EvalState.operationStep client) (EvalState.start ctx p trx signers)

/-- `evaluate` from the signatures on. -/
def evaluateLedgerWith (client : GameClient) (ctx : EvalContext) (p : PendingLedger)
    (trx : SignedTransaction) : Except Error EvalState := do
  let e ← evaluateToFeesWith client ctx p trx
  let e ← e.validateFees
  let e ← e.calculateBaseEquivalentFees
  let e ← e.updateDelegateVotes
  e.updateRpValues

end

end BitShares
