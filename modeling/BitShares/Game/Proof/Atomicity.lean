import BitShares.Game.Proof.Containment

/-!
# Atomicity of game execution

`v8_game_engine::execute` writes to the pending state as it goes through the value of the script,
and its handler takes nothing back.

* `PendingState.Grows`: what is pending stays pending while a script runs.
* `execute_atomic`: when a run that ends in the handler leaves the pending state as it was.
-/

namespace BitShares

namespace PendingState

def SameButStatus (gameId : GameId) (p p' : PendingState) : Prop :=
  p' = { p with gameStatuses := p'.gameStatuses } ∧
    ∀ g ≠ gameId, p'.gameStatuses.lookup g = p.gameStatuses.lookup g

theorem noteGameError_same {p : PendingState} {gameId : GameId}
    (hown : ∀ st, p.gameStatuses.lookup gameId = some st → st.gameId = gameId) (n : BlockNum)
    (e : Error) : SameButStatus gameId p (p.noteGameError n gameId e) := by
  refine ⟨rfl, fun g hg => ?_⟩
  have hid : ((p.gameStatuses.lookup gameId).getD { gameId := gameId }).gameId = gameId := by
    cases hst : p.gameStatuses.lookup gameId with
    | none => rfl
    | some st => exact hown st hst
  simp only [noteGameError, storeGameStatus]
  rw [Layered.lookup_eq, Layered.view_insert, Table.lookup_insert_eq, hid, if_neg hg,
    ← Layered.lookup_eq]

/-! ## What stays pending -/

/-- All that is pending in `p` is pending in `p'`. -/
structure Grows (p p' : PendingState) : Prop where
  results : p.gameResultTransactions.length ≤ p'.gameResultTransactions.length
  gameData : ∀ k ∈ p.ledger.gameData.overlay.stored, k ∈ p'.ledger.gameData.overlay.stored
  balances : ∀ id ∈ p.ledger.balances.overlay.stored, id ∈ p'.ledger.balances.overlay.stored
  assets : ∀ id ∈ p.ledger.assets.overlay.stored, id ∈ p'.ledger.assets.overlay.stored

theorem Grows.refl (p : PendingState) : p.Grows p :=
  ⟨le_rfl, fun _ h => h, fun _ h => h, fun _ h => h⟩

theorem Grows.trans {p q r : PendingState} (h : p.Grows q) (h' : q.Grows r) : p.Grows r :=
  ⟨h.results.trans h'.results, fun k hk => h'.gameData k (h.gameData k hk),
    fun k hk => h'.balances k (h.balances k hk), fun k hk => h'.assets k (h.assets k hk)⟩

theorem Grows.of_same {gameId : GameId} {p q r : PendingState} (h : p.Grows q)
    (hsame : SameButStatus gameId q r) : p.Grows r := by
  rw [hsame.1]
  exact ⟨h.results, h.gameData, h.balances, h.assets⟩

variable [Crypto]

theorem grows_storeBalance (p : PendingState) (r : BalanceRecord) :
    p.Grows { p with ledger := p.ledger.storeBalanceRecord r } :=
  { Grows.refl p with balances := fun _ h => (AList.mem_insert _).2 (.inr h) }

omit [Crypto] in
theorem grows_storeAsset (p : PendingState) (r : AssetRecord) :
    p.Grows { p with ledger := p.ledger.storeAssetRecord r } :=
  { Grows.refl p with assets := fun _ h => (AList.mem_insert _).2 (.inr h) }

omit [Crypto] in
theorem grows_storeGameData (p : PendingState) (gameId : GameId) (id : DataId)
    (r : GameDataRecord) :
    p.Grows { p with ledger := p.ledger.storeGameDataRecord gameId id r } :=
  { Grows.refl p with gameData := fun _ h => (AList.mem_insert _).2 (.inr h) }

def PendsCall (p : PendingState) : ScriptCall → Prop
  | .setBalanceRecord r => r.id ∈ p.ledger.balances.overlay.stored
  | .setAssetRecord r => r.id ∈ p.ledger.assets.overlay.stored
  | .setGameDataRecord gameId dataId _ => (gameId, dataId) ∈ p.ledger.gameData.overlay.stored

/-- What an entry of the result writes is pending.  A result is always new. -/
def PendsWrite (p : PendingState) (gameId : GameId) : ScriptWrite → Prop
  | .result _ => False
  | .data (.number id) => (gameId, id) ∈ p.ledger.gameData.overlay.stored
  | .data (.object index _) => ∀ id ∈ index, (gameId, id) ∈ p.ledger.gameData.overlay.stored
  | .diffBalance owner amount =>
    (p.ledger.view.ownerBalance owner amount.assetId).id ∈ p.ledger.balances.overlay.stored
  | .diffSupply amount => ∀ r ∈ p.ledger.getAssetRecord amount.assetId,
      r.id ∈ p.ledger.assets.overlay.stored
  | .data .other | .malformed => True

theorem scriptCall_grows (p : PendingState) (call : ScriptCall) :
    p.Grows { p with ledger := p.ledger.scriptCall call } := by
  cases call with
  | setBalanceRecord r => exact p.grows_storeBalance r
  | setAssetRecord r => exact p.grows_storeAsset r
  | setGameDataRecord gameId dataId r => exact p.grows_storeGameData gameId dataId r

theorem scriptCalls_grow (calls : List ScriptCall) (p : PendingState) :
    p.Grows { p with ledger := calls.foldl PendingLedger.scriptCall p.ledger } := by
  induction calls generalizing p with
  | nil => exact .refl p
  | cons call calls ih => exact (p.scriptCall_grows call).trans (ih _)

theorem scriptCall_pends {p p' : PendingState} {call : ScriptCall}
    (h : Grows { p with ledger := p.ledger.scriptCall call } p') : p'.PendsCall call := by
  cases call with
  | setBalanceRecord r => exact h.balances _ ((AList.mem_insert _).2 (.inl rfl))
  | setAssetRecord r => exact h.assets _ ((AList.mem_insert _).2 (.inl rfl))
  | setGameDataRecord gameId dataId r => exact h.gameData _ ((AList.mem_insert _).2 (.inl rfl))

/-- **One entry** keeps what is pending, and what it writes is pending then: nothing below can
undo it. -/
theorem scriptWrite_grows {s : ChainState} {cfg : NodeConfig} {gameId : GameId}
    {p q : PendingState} {w : ScriptWrite} (h : scriptWrite s cfg gameId p w = .ok q) :
    p.Grows q ∧ ∀ p', q.Grows p' → SameButStatus gameId p p' → p.PendsWrite gameId w := by
  cases w with
  | result data =>
    cases h
    refine ⟨{ Grows.refl p with results := by simp }, fun p' hgrows hsame => ?_⟩
    have hlen := hgrows.results
    rw [hsame.1] at hlen
    simp at hlen
  | data entry =>
    cases entry with
    | object index data =>
      simp only [scriptWrite, bind_eq_ok, expect_eq_ok, pure_eq_ok] at h
      obtain ⟨id, rfl, rfl⟩ := h
      refine ⟨p.grows_storeGameData gameId id _, fun p' hgrows hsame id' hid' => ?_⟩
      cases hid'
      have hmem := hgrows.gameData (gameId, id) ((AList.mem_insert _).2 (.inl rfl))
      rw [hsame.1] at hmem
      exact hmem
    | number id =>
      cases h
      refine ⟨p.grows_storeGameData gameId id _, fun p' hgrows hsame => ?_⟩
      have hmem := hgrows.gameData (gameId, id) ((AList.mem_insert _).2 (.inl rfl))
      rw [hsame.1] at hmem
      exact hmem
    | other => cases h
  | diffBalance owner amount =>
    simp only [scriptWrite, bind_eq_ok, expect_eq_ok, require_eq_ok, pure_eq_ok, exists_and_left,
      exists_const, PendingLedger.getBalanceRecord_eq] at h
    obtain ⟨asset, -, -, -, date, -, -, rfl⟩ := h
    refine ⟨p.grows_storeBalance _, fun p' hgrows hsame => ?_⟩
    have hmem := hgrows.balances _ ((AList.mem_insert _).2 (.inl rfl))
    rw [hsame.1] at hmem
    exact hmem
  | diffSupply amount =>
    simp only [scriptWrite, bind_eq_ok, expect_eq_ok, require_eq_ok, pure_eq_ok, exists_and_left,
      exists_const] at h
    obtain ⟨asset, hasset, -, -, rfl⟩ := h
    refine ⟨p.grows_storeAsset _, fun p' hgrows hsame r hr => ?_⟩
    have hmem := hgrows.assets _ ((AList.mem_insert _).2 (.inl rfl))
    rw [hsame.1] at hmem
    cases hasset.symm.trans hr
    exact hmem
  | malformed => cases h

theorem attempt_grows (s : ChainState) (cfg : NodeConfig) (gameId : GameId)
    (l : List ScriptWrite) (p : PendingState) :
    p.Grows (attempt (scriptWrite s cfg gameId) l p).2 := by
  induction l generalizing p with
  | nil => exact .refl p
  | cons w l ih =>
    rw [attempt]
    cases h : scriptWrite s cfg gameId p w with
    | error e => exact .refl p
    | ok q => exact (scriptWrite_grows h).1.trans (ih q)

theorem runGame_grows {node : GameNode} {s : ChainState} {n : BlockNum} {p : PendingState}
    {game : GameRecord} {calls : List ScriptCall} {outcome : Except Error (List ScriptWrite)}
    (hnode : node.execute s n p game = some (calls, outcome)) (cfg : NodeConfig) :
    Grows { p with ledger := calls.foldl PendingLedger.scriptCall p.ledger }
      (p.runGame node s cfg n game).2 := by
  rw [runGame, hnode]
  cases outcome with
  | error e => exact .refl _
  | ok writes => exact attempt_grows s cfg game.id writes _

/-! ## The handler -/

/-- The script calls no setter, and the first thing it asks for fails. -/
def NothingAccepted (s : ChainState) (cfg : NodeConfig) (gameId : GameId) (p : PendingState)
    (calls : List ScriptCall) (outcome : Except Error (List ScriptWrite)) : Prop :=
  calls = [] ∧ ∀ w rest, outcome = .ok (w :: rest) → (scriptWrite s cfg gameId p w).isOk = false

def FirstPends (p : PendingState) (gameId : GameId) (calls : List ScriptCall)
    (outcome : Except Error (List ScriptWrite)) : Prop :=
  (∃ call rest, calls = call :: rest ∧ p.PendsCall call) ∨
    calls = [] ∧ ∃ w rest, outcome = .ok (w :: rest) ∧ p.PendsWrite gameId w

/-- **When a failed execution is atomic.**  If nothing was accepted before the throw, the pending
state is the one before apart from the status; if something was, it can only be so when the first
write was to something that was pending before. -/
theorem execute_atomic {node : GameNode} {s : ChainState} {cfg : NodeConfig} {n : BlockNum}
    {p : PendingState} {game : GameRecord} {calls : List ScriptCall}
    {outcome : Except Error (List ScriptWrite)} {e : Error}
    (hown : ∀ st, p.gameStatuses.lookup game.id = some st → st.gameId = game.id)
    (hnode : node.execute s n p game = some (calls, outcome))
    (hthrow : (p.runGame node s cfg n game).1 = some e) :
    (NothingAccepted s cfg game.id p calls outcome →
      SameButStatus game.id p (p.executeGame node s cfg n game)) ∧
    (SameButStatus game.id p (p.executeGame node s cfg n game) →
      NothingAccepted s cfg game.id p calls outcome ∨ p.FirstPends game.id calls outcome) := by
  obtain ⟨q, hq⟩ : ∃ q, p.runGame node s cfg n game = (some e, q) :=
    ⟨_, Prod.ext hthrow rfl⟩
  have hexecute : p.executeGame node s cfg n game = q.noteGameError n game.id e := by
    rw [executeGame, hq]
  -- the statuses are those before, so the handler writes under the game's own id
  have hstatus : SameButStatus game.id q (p.executeGame node s cfg n game) := by
    rw [hexecute]
    refine noteGameError_same (fun st hst => hown st ?_) n e
    have hsame := (runGame_move node s cfg n p game).gameStatuses
    rw [hq] at hsame
    exact hsame ▸ hst
  constructor
  · rintro ⟨rfl, hfirst⟩
    rw [runGame, hnode] at hq
    obtain rfl : q = p := by
      cases outcome with
      | error e' => exact (Prod.ext_iff.1 hq).2.symm
      | ok writes =>
        cases writes with
        | nil => exact (Prod.ext_iff.1 hq).2.symm
        | cons w rest =>
          have hfails := hfirst w rest rfl
          change attempt (scriptWrite s cfg game.id) (w :: rest) p = (some e, q) at hq
          rw [attempt] at hq
          cases hw : scriptWrite s cfg game.id p w with
          | ok m => rw [hw] at hfails; cases hfails
          | error e' =>
            rw [hw] at hq
            exact (Prod.ext_iff.1 hq).2.symm
    exact hstatus
  · intro hsame
    cases calls with
    | cons call rest =>
      refine .inr (.inl ⟨call, rest, rfl, ?_⟩)
      have hcalls := scriptCalls_grow rest { p with ledger := p.ledger.scriptCall call }
      have hrun := runGame_grows hnode cfg
      rw [hq] at hrun
      have hpends := scriptCall_pends ((hcalls.trans hrun).of_same hstatus)
      rw [hsame.1] at hpends
      cases call <;> exact hpends
    | nil =>
      by_cases hfirst : ∀ w rest, outcome = .ok (w :: rest) →
          (scriptWrite s cfg game.id p w).isOk = false
      · exact .inl ⟨rfl, hfirst⟩
      · push Not at hfirst
        obtain ⟨w, rest, rfl, hok⟩ := hfirst
        refine .inr (.inr ⟨rfl, w, rest, rfl, ?_⟩)
        rw [runGame, hnode] at hq
        change attempt (scriptWrite s cfg game.id) (w :: rest) p = (some e, q) at hq
        rw [attempt] at hq
        cases hw : scriptWrite s cfg game.id p w with
        | error e' => rw [hw] at hok; exact absurd rfl hok
        | ok m =>
          rw [hw] at hq
          dsimp only at hq
          have hrest := attempt_grows s cfg game.id rest m
          rw [hq] at hrest
          exact (scriptWrite_grows hw).2 _ (hrest.of_same hstatus) hsame

end PendingState

/-! ## A run that is not -/

/-- The casino pays out and then throws: `writes` are followed by a malformed entry. -/
def throwingNode (writes : List ScriptWrite) : GameNode :=
  scriptedNode ⟨[], []⟩ (writes ++ [.malformed])

theorem execute_atomic_chip :
    letI := Crypto.transparent
    let p := PendingState.over chipTable
    let s : ChainState := { tables := chipTable }
    (p.runGame (throwingNode []) s { clock := 100 } 1 diceGame).1.isSome ∧
      PendingState.SameButStatus 1 p (p.executeGame (throwingNode []) s { clock := 100 } 1
        diceGame) := by
  let := Crypto.transparent
  let p := PendingState.over chipTable
  let s : ChainState := { tables := chipTable }
  have hthrow : (p.runGame (throwingNode []) s { clock := 100 } 1 diceGame).1.isSome := by
    decide +kernel
  obtain ⟨e, he⟩ := Option.isSome_iff_exists.1 hthrow
  have hown : ∀ st, p.gameStatuses.lookup diceGame.id = some st → st.gameId = diceGame.id := by
    intro st hst
    cases hst
  exact ⟨hthrow, (PendingState.execute_atomic hown rfl he).1
    ⟨rfl, fun w rest hw => by cases hw; rfl⟩⟩

/-- What a script was paid before it throws stays: after a change of a balance and a malformed
entry, the handler leaves five chips that were not there before. -/
theorem chip_left_behind :
    letI := Crypto.transparent
    let p := PendingState.over chipTable
    let s : ChainState := { tables := chipTable }
    let node := throwingNode [.diffBalance 7 ⟨5, 1⟩]
    (p.runGame node s { clock := 100 } 1 diceGame).1.isSome ∧
      (p.ledger.view.ownerBalance 7 1).balance = 0 ∧
      ((p.executeGame node s { clock := 100 } 1 diceGame).ledger.view.ownerBalance 7 1).balance = 5 ∧
      ¬ PendingState.SameButStatus 1 p (p.executeGame node s { clock := 100 } 1 diceGame) := by
  let := Crypto.transparent
  let p := PendingState.over chipTable
  let s : ChainState := { tables := chipTable }
  let node := throwingNode [.diffBalance 7 ⟨5, 1⟩]
  have hbefore : (p.ledger.view.ownerBalance 7 1).balance = 0 := by decide +kernel
  have hafter : ((p.executeGame node s { clock := 100 } 1 diceGame).ledger.view.ownerBalance 7
      1).balance = 5 := by
    decide +kernel
  refine ⟨by decide +kernel, hbefore, hafter, fun hsame => ?_⟩
  rw [hsame.1] at hafter
  exact absurd (hbefore.symm.trans hafter) (by decide)

end BitShares
