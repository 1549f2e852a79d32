import BitShares.Chain.Proof.Indexes
import BitShares.Chain.Run
import BitShares.Game.Block
import BitShares.Game.Proof.Control

/-!
# Undo states that went through the database

An undo state is kept on disk as the members that `FC_REFLECT` names, and the games and their
statuses are not among them.  The one read back therefore leaves these tables as the block has left
them, and it has the effect of the one in memory exactly if the block has left them alone
(`Batch.reflected_applyChanges_iff`).  `undoPersistence_iff` says which blocks these are:
those without `create_game` and `game_update` at whose end no script throws.
-/

namespace BitShares

open ChainTables

/-! ## What is lost -/

def Batch.statusTable (c : Batch) (t : Table GameId GameStatus) : Table GameId GameStatus :=
  c.gameStatuses.stored.entries.foldl
    (fun t e => Overlay.putAt GameStatus.isNull t e.2.gameId e.2) t

section

variable [Crypto]

theorem Batch.reflected_applyChanges_iff (c : Batch) (n : BlockNum) (d : ChainTables) :
    c.reflected.applyChanges n d = c.applyChanges n d ↔
      c.games.applyTo d.games = d.games ∧ (c.gameTables d).names = d.gameNames ∧
        c.statusTable d.gameStatuses = d.gameStatuses := by
  have hgames : c.reflected.games.applyTo d.games = d.games := rfl
  have hnames : (c.reflected.gameTables d).names = d.gameNames := rfl
  constructor
  · intro h
    rw [applyChanges_eq, applyChanges_eq] at h
    exact ⟨(congrArg (fun d : ChainTables => d.games) h).symm,
      (congrArg (fun d : ChainTables => d.gameNames) h).symm,
      (congrArg (fun d : ChainTables => d.gameStatuses) h).symm⟩
  · rintro ⟨h₁, h₂, h₃⟩
    unfold statusTable at h₃
    rw [applyChanges_eq, applyChanges_eq, hgames, hnames, h₁, h₂, h₃]
    rfl

/-! ## The games of a block -/

end

def Operation.changesGames : Operation → Bool
  | .game (.create _) => true
  | .game (.update _) => true
  | _ => false

def SignedTransaction.changesGames (trx : SignedTransaction) : Bool :=
  trx.operations.any Operation.changesGames

def FullBlock.changesGames (b : FullBlock) : Bool :=
  b.userTransactions.any SignedTransaction.changesGames

def TouchedAt (now : Time) (t : Table GameId GameRecord) : Prop :=
  ∃ id r, t.lookup id = some r ∧ r.lastUpdate = now

/-- What steps do to the games: nothing, unless `changes` says so, and then a game bears the time of
the change ever after. -/
def GamesMove (now : Time) (changes : Bool) (t t' : Table GameId GameRecord) : Prop :=
  (t.All fun id r => r.id = id) → (t'.All fun id r => r.id = id) ∧
    (changes = false → t' = t) ∧ (changes = true ∨ TouchedAt now t → TouchedAt now t')

theorem GamesMove.refl (now : Time) (t : Table GameId GameRecord) : GamesMove now false t t :=
  fun hids => ⟨hids, fun _ => rfl, fun h => h.resolve_left Bool.false_ne_true⟩

theorem GamesMove.trans {now : Time} {c c' : Bool} {t m t' : Table GameId GameRecord}
    (h : GamesMove now c t m) (h' : GamesMove now c' m t') : GamesMove now (c || c') t t' := by
  intro hids
  obtain ⟨hids₁, hsame₁, htouch₁⟩ := h hids
  obtain ⟨hids₂, hsame₂, htouch₂⟩ := h' hids₁
  refine ⟨hids₂, fun hc => ?_, fun hc => htouch₂ ?_⟩
  · obtain ⟨hc₁, hc₂⟩ := Bool.or_eq_false_iff.1 hc
    rw [hsame₂ hc₂, hsame₁ hc₁]
  · rcases hc with hc | hc
    · exact (Bool.or_eq_true_iff.1 hc).symm.imp id fun hc₁ => htouch₁ (.inl hc₁)
    · exact .inr (htouch₁ (.inr hc))

theorem GamesMove.write {now : Time} {t : Table GameId GameRecord} {r : GameRecord}
    (hr : r.lastUpdate = now) : GamesMove now true t (t.insert r.id r) := by
  refine fun hids => ⟨hids.insert rfl, fun h => (by cases h), fun _ => ⟨r.id, r, ?_, hr⟩⟩
  exact Finmap.lookup_insert _

section

variable [Crypto]

theorem evaluateOperationWith_move {client : GameClient} {e e' : EvalState} {op : Operation}
    (h : e.evaluateOperationWith client op = .ok e') :
    e'.ctx = e.ctx ∧ GamesMove e.ctx.now op.changesGames e.ledger.games e'.ledger.games := by
  rcases evaluateOperationWith_cases h with ⟨o, rfl, h⟩ | ⟨o, rfl, h⟩ | ⟨o, rfl, h⟩ | hbase
  · obtain ⟨id, owner, -, -, heff⟩ := o.evaluate_effect h
    rw [heff.ledger]
    exact ⟨heff.ctx, .write (r := o.record id e.ctx.now) rfl⟩
  · obtain ⟨r, owner, -, -, heff⟩ := o.evaluate_effect h
    rw [heff.ledger]
    exact ⟨heff.ctx, .write rfl⟩
  · have hsame := o.evaluate_games h
    rw [hsame.games]
    exact ⟨hsame.ctx, .refl _ _⟩
  · obtain ⟨L, _, _, _, heff, hkeep, -⟩ := evaluateOperation_effect hbase
    have hop : op.changesGames = false := by
      unfold Operation.changesGames
      split
      · cases hbase
      · cases hbase
      · rfl
    refine ⟨heff.ctx, fun hids => ?_⟩
    have hgames : e'.ledger.games = e.ledger.games := by
      rw [heff.ledger]
      rcases hkeep with hsame | ⟨id, game, hgame, hsame⟩
      · exact hsame
      · have hid : game.id = id := hids _ _ hgame
        rw [hsame, hid, Table.insert_of_lookup hgame]
    rw [hgames, hop]
    exact GamesMove.refl _ _ hids

theorem evaluateLedgerWith_move {client : GameClient} {ctx : EvalContext} {p : PendingLedger}
    {trx : SignedTransaction} {e' : EvalState} (h : evaluateLedgerWith client ctx p trx = .ok e') :
    GamesMove ctx.now trx.changesGames p.view.games e'.ledger.games := by
  obtain ⟨e₁, h₁, hgames⟩ := evaluateLedgerWith_games h
  rw [hgames]
  rw [evaluateToFeesWith, bind_eq_ok] at h₁
  obtain ⟨signers, -, hops⟩ := h₁
  have hstep : ∀ (e : EvalState) (op : Operation) (e' : EvalState),
      e.operationStep client op = .ok e' → e'.ctx = e.ctx ∧
        GamesMove e.ctx.now op.changesGames e.ledger.games e'.ledger.games := by
    intro e op e' hstep
    rw [EvalState.operationStep, bind_eq_ok] at hstep
    obtain ⟨m, hm, hstep⟩ := hstep
    rw [pure_eq_ok] at hstep
    subst hstep
    have hmove := evaluateOperationWith_move hm
    exact hmove
  exact (foldlM_any (R := fun (c : Bool) (e e' : EvalState) =>
      e'.ctx = e.ctx ∧ GamesMove e.ctx.now c e.ledger.games e'.ledger.games)
    (fun e => ⟨rfl, .refl _ _⟩)
    (fun c c' e m e' h h' => ⟨h'.1.trans h.1, h.2.trans (h.1 ▸ h'.2)⟩) hstep hops).2

theorem applyTransactions_move {client : GameClient} {d : ChainTables} {ctx : EvalContext}
    {n : BlockNum} {l : List SignedTransaction} {i : Nat} {p p' : PendingState}
    (h : PendingState.applyTransactionsBy (evaluateLedgerWith client) d ctx n l i p = .ok p') :
    GamesMove ctx.now (l.any SignedTransaction.changesGames) p.ledger.view.games
      p'.ledger.view.games := by
  induction l generalizing i p with
  | nil =>
    cases h
    exact .refl _ _
  | cons trx l ih =>
    simp only [PendingState.applyTransactionsBy, bind_eq_ok, expect_eq_ok] at h
    obtain ⟨q, hq, r, -, hrest⟩ := h
    obtain ⟨-, -, e, he, rfl⟩ := PendingState.evaluateBy_eq_ok hq
    rw [List.any_cons]
    exact (evaluateLedgerWith_move he).trans (ih hrest)

theorem evaluateLedgerWith_below {client : GameClient} {ctx : EvalContext} {p : PendingLedger}
    {trx : SignedTransaction} {e' : EvalState} (h : evaluateLedgerWith client ctx p trx = .ok e') :
    e'.pending.below = p.below := by
  obtain ⟨e₁, e₂, p₃, total, h₁, h₂, h₃, h₄⟩ := evaluateLedgerWith_phases h
  rw [afterOperations_below h₂ h₃ h₄]
  rw [evaluateToFeesWith, bind_eq_ok] at h₁
  obtain ⟨signers, -, hops⟩ := h₁
  refine foldlM_induction (P := fun e => e.pending.below = p.below)
    (fun op _ e e' he hstep => ?_) hops rfl
  rw [EvalState.operationStep, bind_eq_ok] at hstep
  obtain ⟨m, hm, hstep⟩ := hstep
  rw [pure_eq_ok] at hstep
  subst hstep
  refine Eq.trans (show m.pending.below = e.pending.below from ?_) he
  rcases evaluateOperationWith_cases hm with ⟨o, -, h⟩ | ⟨o, -, h⟩ | ⟨o, -, h⟩ | h
  · obtain ⟨_, _, -, -, heff⟩ := o.evaluate_effect h
    exact heff.below
  · obtain ⟨_, _, -, -, heff⟩ := o.evaluate_effect h
    exact heff.below
  · exact (o.evaluate_games h).below
  · exact evaluateOperation_below h

theorem evaluateBlockBy_move {client : GameClient} {s : ChainState} {cfg : NodeConfig}
    {b : FullBlock} {p : PendingState}
    (h : s.evaluateBlockBy (evaluateLedgerWith client) cfg b = .ok p) :
    GamesMove (s.now cfg) b.changesGames s.tables.games p.ledger.view.games := by
  obtain ⟨signee, p₁, p₂, p₃, p₄, -, h₁, h₂, h₃, h₄, h₅⟩ := evaluateBlock_phases h
  have hbefore : p₃.ledger.games = .over s.tables.games :=
    (((PendingState.updateDelegateProductionInfo_effect h₁).2.trans
      (PendingState.payDelegate_frame h₂)).trans (PendingState.executeMarkets_frame h₃)).games
  have hafter : p.ledger.games = p₄.ledger.games :=
    ((PendingState.round_bookkeeping _ _ _ _).2.trans
      (PendingState.payOperationRewards_effect h₅).2).games
  have hmove := applyTransactions_move h₄
  change GamesMove _ _ p₃.ledger.games.view p₄.ledger.games.view at hmove
  change GamesMove _ _ _ p.ledger.games.view
  rw [hbefore, Layered.view_over, ← hafter] at hmove
  exact hmove

/-! ## The scripts -/

namespace PendingState

/-- What a script may have done: of the pending state it has changed the ledger and the results, and of
the ledger neither the games nor what is below. -/
structure ScriptMove (p p' : PendingState) : Prop where
  games : p'.ledger.games = p.ledger.games
  below : p'.ledger.below = p.ledger.below
  rest : ∃ ledger results, p' = { p with ledger := ledger, gameResultTransactions := results }

omit [Crypto] in
theorem ScriptMove.refl (p : PendingState) : p.ScriptMove p := ⟨rfl, rfl, _, _, rfl⟩

omit [Crypto] in
theorem ScriptMove.trans {p q r : PendingState} (h : p.ScriptMove q) (h' : q.ScriptMove r) :
    p.ScriptMove r := by
  refine ⟨h'.games.trans h.games, h'.below.trans h.below, ?_⟩
  obtain ⟨ledger, results, rfl⟩ := h.rest
  obtain ⟨ledger', results', rfl⟩ := h'.rest
  exact ⟨ledger', results', rfl⟩

omit [Crypto] in
theorem ScriptMove.gameStatuses {p p' : PendingState} (h : p.ScriptMove p') :
    p'.gameStatuses = p.gameStatuses := by
  obtain ⟨ledger, results, rfl⟩ := h.rest
  rfl

theorem scriptWrite_move {s : ChainState} {cfg : NodeConfig} {gameId : GameId}
    {p p' : PendingState} {w : ScriptWrite} (h : scriptWrite s cfg gameId p w = .ok p') :
    p.ScriptMove p' := by
  cases w with
  | result data => cases h; exact ⟨rfl, rfl, _, _, rfl⟩
  | data entry =>
    cases entry with
    | object index data =>
      simp only [scriptWrite, bind_eq_ok, expect_eq_ok, pure_eq_ok] at h
      obtain ⟨index, -, rfl⟩ := h
      exact ⟨rfl, rfl, _, _, rfl⟩
    | number id => cases h; exact ⟨rfl, rfl, _, _, rfl⟩
    | other => cases h
  | diffBalance owner amount =>
    simp only [scriptWrite, bind_eq_ok, expect_eq_ok, require_eq_ok, pure_eq_ok, exists_and_left,
      exists_const] at h
    obtain ⟨asset, -, -, -, date, -, -, rfl⟩ := h
    exact ⟨rfl, rfl, _, _, rfl⟩
  | diffSupply amount =>
    simp only [scriptWrite, bind_eq_ok, expect_eq_ok, require_eq_ok, pure_eq_ok, exists_and_left,
      exists_const] at h
    obtain ⟨asset, -, -, -, rfl⟩ := h
    exact ⟨rfl, rfl, _, _, rfl⟩
  | malformed => cases h

theorem attempt_move (s : ChainState) (cfg : NodeConfig) (gameId : GameId)
    (l : List ScriptWrite) (p : PendingState) :
    p.ScriptMove (attempt (scriptWrite s cfg gameId) l p).2 := by
  induction l generalizing p with
  | nil => exact .refl p
  | cons w l ih =>
    rw [attempt]
    cases h : scriptWrite s cfg gameId p w with
    | error e => exact .refl p
    | ok q => exact (scriptWrite_move h).trans (ih q)

theorem scriptCalls_move (calls : List ScriptCall) (p : PendingState) :
    p.ScriptMove { p with ledger := calls.foldl PendingLedger.scriptCall p.ledger } := by
  induction calls generalizing p with
  | nil => exact .refl p
  | cons call calls ih =>
    refine ScriptMove.trans (q := { p with ledger := p.ledger.scriptCall call }) ?_ (ih _)
    cases call <;> exact ⟨rfl, rfl, _, _, rfl⟩

theorem runGame_move (node : GameNode) (s : ChainState) (cfg : NodeConfig) (n : BlockNum)
    (p : PendingState) (game : GameRecord) :
    p.ScriptMove (p.runGame node s cfg n game).2 := by
  unfold runGame
  split
  · exact .refl p
  · rename_i calls outcome _
    dsimp only
    split
    · exact scriptCalls_move calls p
    · exact (scriptCalls_move calls p).trans (attempt_move s cfg game.id _ _)

def ScriptsRun (node : GameNode) (s : ChainState) (cfg : NodeConfig) (n : BlockNum) :
    PendingState → List GameRecord → Prop
  | _, [] => True
  | p, game :: games => (p.runGame node s cfg n game).1 = none ∧
      ScriptsRun node s cfg n (p.executeGame node s cfg n game) games

end PendingState

end

def OwnStatuses (l : Layered GameId GameStatus) : Prop :=
  ∀ id st, l.lookup id = some st → st.gameId = id ∧ st.isNull = false

/-- An error of block `n` is noted. -/
def NotedAt (n : BlockNum) (l : Layered GameId GameStatus) : Prop :=
  ∃ id st, l.overlay.stored.lookup id = some st ∧ st.gameId = id ∧ st.isNull = false ∧
    st.blockNumber = n

theorem noteGameError_statuses {p : PendingState} (h : OwnStatuses p.gameStatuses) (n : BlockNum)
    (id : GameId) (e : Error) :
    OwnStatuses (p.noteGameError n id e).gameStatuses ∧
      NotedAt n (p.noteGameError n id e).gameStatuses := by
  set status := (p.gameStatuses.lookup id).getD { gameId := id } with hstatus
  have hid : status.gameId = id := by
    rw [hstatus]
    cases hold : p.gameStatuses.lookup id with
    | none => rfl
    | some st => exact (h id st hold).1
  have hnoted : (p.noteGameError n id e).gameStatuses =
      p.gameStatuses.insert id { status with blockNumber := n, lastError := some e } := by
    rw [PendingState.noteGameError, ← hstatus, PendingState.storeGameStatus]
    dsimp only
    rw [hid]
  rw [hnoted]
  refine ⟨fun k st hst => ?_, id, _, AList.lookup_insert _, hid, rfl, rfl⟩
  rw [Layered.lookup_eq, Layered.view_insert, Table.lookup_insert_eq] at hst
  split at hst
  · rename_i hk
    cases hst
    exact ⟨hid.trans hk.symm, rfl⟩
  · rw [← Layered.lookup_eq] at hst
    exact h k st hst

section

variable [Crypto]

theorem executeGames_statuses (node : GameNode) (s : ChainState) (cfg : NodeConfig)
    (n : BlockNum) (games : List GameRecord) {p : PendingState} (h : OwnStatuses p.gameStatuses) :
    let p' := games.foldl (PendingState.executeGame node s cfg n) p
    p'.ledger.games = p.ledger.games ∧ p'.gameStatuses.prev = p.gameStatuses.prev ∧
      OwnStatuses p'.gameStatuses ∧
      (p.ScriptsRun node s cfg n games → p'.gameStatuses = p.gameStatuses) ∧
      (¬ p.ScriptsRun node s cfg n games ∨ NotedAt n p.gameStatuses →
        NotedAt n p'.gameStatuses) := by
  induction games generalizing p with
  | nil => exact ⟨rfl, rfl, h, fun _ => rfl, fun hn => hn.resolve_left (not_not_intro trivial)⟩
  | cons game games ih =>
    have hmove := p.runGame_move node s cfg n game
    rw [List.foldl_cons, PendingState.ScriptsRun]
    cases hrun : p.runGame node s cfg n game with
    | mk thrown q =>
    rw [hrun] at hmove
    have hgames := hmove.games
    have hstatuses := hmove.gameStatuses
    cases thrown with
    | none =>
      have hq : p.executeGame node s cfg n game = q := by
        rw [PendingState.executeGame, hrun]
      rw [hq]
      obtain ⟨h₁, h₂, h₃, h₄, h₅⟩ := ih (p := q) (by rw [hstatuses]; exact h)
      rw [hstatuses] at h₂ h₄ h₅
      exact ⟨h₁.trans hgames, h₂, h₃, fun hall => h₄ hall.2,
        fun hn => h₅ (hn.imp_left fun hnot hall => hnot ⟨rfl, hall⟩)⟩
    | some e =>
      have hq : p.executeGame node s cfg n game = q.noteGameError n game.id e := by
        rw [PendingState.executeGame, hrun]
      rw [hq]
      have hown : OwnStatuses q.gameStatuses := by
        rw [hstatuses]
        exact h
      obtain ⟨hown', hnoted⟩ := noteGameError_statuses hown n game.id e
      obtain ⟨h₁, h₂, h₃, h₄, h₅⟩ := ih hown'
      refine ⟨h₁.trans hgames, h₂.trans ?_, h₃, fun hall => (by cases hall.1), fun _ => h₅ (.inr hnoted)⟩
      change q.gameStatuses.prev = p.gameStatuses.prev
      exact congrArg Layered.prev hstatuses

/-! ## Statuses there and back -/

end

theorem statusTable_eq {c : Batch} {t : Table GameId GameStatus}
    (hown : ∀ id st, c.gameStatuses.stored.lookup id = some st → st.gameId = id) :
    c.statusTable t = c.gameStatuses.putTo GameStatus.isNull t := by
  have hfold : ∀ (l : List (Sigma fun _ : GameId => GameStatus)), (∀ e ∈ l, e.2.gameId = e.1) →
      ∀ t : Table GameId GameStatus,
      l.foldl (fun t e => Overlay.putAt GameStatus.isNull t e.2.gameId e.2) t =
        l.foldl (fun t e => Overlay.putAt GameStatus.isNull t e.1 e.2) t := by
    intro l
    induction l with
    | nil => exact fun _ _ => rfl
    | cons e l ih =>
      intro hl t
      rw [List.foldl_cons, List.foldl_cons, hl e List.mem_cons_self]
      exact ih (fun e' he' => hl e' (List.mem_cons_of_mem _ he')) _
  exact hfold _ (fun e he => hown _ _ (List.mem_dlookup c.gameStatuses.stored.nodupKeys he)) t

theorem stored_of_own {l : Layered GameId GameStatus} (h : OwnStatuses l) {id : GameId}
    {st : GameStatus} (hst : l.overlay.stored.lookup id = some st) :
    st.gameId = id ∧ st.isNull = false :=
  h id st (Layered.lookup_of_stored hst)

/-- The games and their statuses as blocks leave them. -/
structure ChainTables.GamesTidy (d : ChainTables) : Prop where
  games : d.games.All fun id r => r.id = id
  names : (gamePart.get d).indexed.Named GameRecord.name
  statuses : d.gameStatuses.All fun id st => st.gameId = id ∧ st.isNull = false

/-- The games were written before `now`, and the statuses by blocks before `n`. -/
structure ChainTables.GamesPast (d : ChainTables) (now : Time) (n : BlockNum) : Prop where
  games : d.games.All fun _ r => r.lastUpdate < now
  statuses : d.gameStatuses.All fun _ st => st.blockNumber < n

section

variable [Crypto]

def ChainState.ScriptsRun (node : GameNode) (s : ChainState) (cfg : NodeConfig) (b : FullBlock) :
    Prop :=
  ∀ p, s.evaluateBlockBy (evaluateLedgerWith node.toGameClient) cfg b = .ok p →
    p.ScriptsRun node s cfg b.blockNum s.tables.getGames

theorem evaluateBlockWith_games {node : GameNode} {s : ChainState} {cfg : NodeConfig}
    {b : FullBlock} {p : PendingState} (hs : s.tables.GamesTidy)
    (h : s.evaluateBlockWith node cfg b = .ok p) :
    p.ledger.games.prev = s.tables.games ∧ p.gameStatuses.prev = s.tables.gameStatuses ∧
      OwnStatuses p.gameStatuses ∧
      (b.changesGames = false → p.ledger.games.view = s.tables.games) ∧
      (b.changesGames = true → TouchedAt (s.now cfg) p.ledger.games.view) ∧
      (s.ScriptsRun node cfg b → p.gameStatuses = .over s.tables.gameStatuses) ∧
      (¬ s.ScriptsRun node cfg b → NotedAt b.blockNum p.gameStatuses) := by
  simp only [ChainState.evaluateBlockWith, bind_eq_ok, pure_eq_ok] at h
  obtain ⟨q, hq, rfl⟩ := h
  have hover := evaluateBlockBy_over (fun _ _ _ _ => evaluateLedgerWith_below) hq
  have hown : OwnStatuses q.gameStatuses := by
    intro id st hst
    rw [hover.gameStatuses, Layered.lookup_eq, Layered.view_over] at hst
    exact hs.statuses id st hst
  obtain ⟨hgames, hprev, hown', hquiet, hnoted⟩ :=
    executeGames_statuses node s cfg b.blockNum s.tables.getGames hown
  obtain ⟨-, hsame, htouched⟩ := evaluateBlockBy_move hq hs.games
  have hrun : s.ScriptsRun node cfg b ↔
      q.ScriptsRun node s cfg b.blockNum s.tables.getGames := by
    refine ⟨fun hall => hall q hq, fun hall q' hq' => ?_⟩
    obtain rfl : q = q' := Except.ok.inj (hq.symm.trans hq')
    exact hall
  rw [hgames]
  refine ⟨congrArg LedgerTables.games hover.ledger, hprev.trans ?_, hown', hsame,
    fun hc => htouched (.inl hc), fun hall => (hquiet (hrun.1 hall)).trans hover.gameStatuses,
    fun hnot => hnoted (.inl fun hall => hnot (hrun.2 hall))⟩
  rw [hover.gameStatuses]
  rfl

omit [Crypto] in
theorem buildUndoState_games {p : PendingState} {d : ChainTables}
    (hgames : p.ledger.games.prev = d.games) (hstatuses : p.gameStatuses.prev = d.gameStatuses)
    (hown : OwnStatuses p.gameStatuses)
    (hd : d.gameStatuses.All fun id st => st.gameId = id ∧ st.isNull = false) :
    (p.buildUndoState d).games.applyTo (p.batch.games.applyTo d.games) = d.games ∧
      (p.buildUndoState d).statusTable (p.batch.statusTable d.gameStatuses) = d.gameStatuses := by
  rw [← hgames, ← hstatuses]
  rw [← hstatuses] at hd
  refine ⟨p.ledger.games.undo_applyTo, ?_⟩
  rw [statusTable_eq (c := p.batch) fun id st hst => (stored_of_own hown hst).1,
    statusTable_eq fun id st hst => ?_]
  · exact p.gameStatuses.undoEntries_putTo (fun _ _ => rfl) fun id st hst => (hd id st hst).2
  · change (p.gameStatuses.undoEntries fun id _ => { gameId := id }).stored.lookup id = some st
      at hst
    rw [Layered.lookup_undoEntries] at hst
    obtain ⟨st', -, rfl⟩ := Option.map_eq_some_iff.1 hst
    cases hold : p.gameStatuses.prev.lookup id with
    | none => rfl
    | some old => exact (hd id old hold).1

omit [Crypto] in
theorem buildUndoState_gameNames {p : PendingState} {d d' : ChainTables}
    (hnames : (gamePart.get d).indexed.Named GameRecord.name) (hprev : p.ledger.games.prev = d.games)
    (hview : p.ledger.games.view = d.games) (hd' : gamePart.get d' = p.batch.gameTables d) :
    ((p.buildUndoState d).gameTables d').names = d'.gameNames := by
  have hgames : d'.games = d.games := by
    have hrecords : d'.games = (p.batch.gameTables d).records := congrArg NamedTables.records hd'
    rw [hrecords, Batch.gameTables_records]
    refine Eq.trans ?_ hview
    rw [← hprev]
    rfl
  have hbatch : ∀ k v, p.batch.games.stored.lookup k = some v → d.games.lookup k = some v := by
    intro k v hk
    rw [← hview, ← Layered.lookup_eq]
    exact Layered.lookup_of_stored hk
  have hundo : ∀ k v, (p.buildUndoState d).games.stored.lookup k = some v →
      d'.games.lookup k = some v := by
    intro k v hk
    rw [hgames, ← hprev]
    exact Layered.undo_stored hk
  have hnamed : (gamePart.get d').indexed.Named GameRecord.name := by
    rw [hd', Batch.gameTables_eq]
    exact hnames.apply_same hbatch
  have hnamed' : ((p.buildUndoState d).gameTables d').indexed.Named GameRecord.name := by
    rw [Batch.gameTables_eq]
    exact hnamed.apply_same hundo
  refine NamedTables.names_eq hnamed' hnamed ?_
  rw [Batch.gameTables_records]
  change (p.buildUndoState d).games.applyTo d'.games = d'.games
  rw [hgames, ← hview]
  refine Eq.trans (p.ledger.games.undo_applyTo) ?_
  rw [hprev, hview]

/-- **Undo persistence.**  On a database whose game tables are in order, the undo state of an
accepted block has the same effect after it went through the disk if the block creates and updates no
game and no script throws at its end; where the games are older than the block, only then. -/
theorem undoPersistence_iff {node : GameNode} {s s' : ChainState} {cfg : NodeConfig}
    {b : FullBlock} {u : Batch} (hs : s.tables.GamesTidy)
    (h : s.extendChainWith node cfg b = .ok s') (hsaved : cfg.minUndoBlock ≤ b.blockNum)
    (hu : s'.undoStates.lookup b.id = some u) :
    (b.changesGames = false ∧ s.ScriptsRun node cfg b →
      u.reflected.applyChanges b.blockNum s'.tables = u.applyChanges b.blockNum s'.tables) ∧
      (s.tables.GamesPast (s.now cfg) b.blockNum →
        (u.reflected.applyChanges b.blockNum s'.tables = u.applyChanges b.blockNum s'.tables ↔
          b.changesGames = false ∧ s.ScriptsRun node cfg b)) := by
  rw [ChainState.extendChainWith, bind_eq_ok] at h
  obtain ⟨p, hp, hcommit⟩ := h
  obtain ⟨hprev, hprev', hown, hsame, htouched, hquiet, hnoted⟩ := evaluateBlockWith_games hs hp
  obtain ⟨m, hm, hs'⟩ := commitBlock_eq_ok hcommit
  -- the undo state that is kept is the one of the block
  obtain rfl : u = p.buildUndoState s.tables := by
    have hkept : s'.undoStates.lookup b.id = m.undoStates.lookup b.id := by rw [hs']
    rw [hu, saveUndoState_lookup hm hsaved] at hkept
    exact Option.some.inj hkept
  have hgames : s'.tables.games = p.batch.games.applyTo s.tables.games := by
    rw [hs', Batch.applyChanges_eq]
  have hview : s'.tables.games = p.ledger.games.view := by
    rw [hgames, ← hprev]
    rfl
  have hnames : gamePart.get s'.tables = p.batch.gameTables s.tables := by
    rw [hs', Batch.applyChanges_eq, ← Batch.gameTables_records]
    rfl
  have hstatuses : s'.tables.gameStatuses = p.batch.statusTable s.tables.gameStatuses := by
    rw [hs', Batch.applyChanges_eq]
    rfl
  obtain ⟨hback, hback'⟩ := buildUndoState_games hprev hprev' hown hs.statuses
  rw [← hgames] at hback
  rw [← hstatuses] at hback'
  rw [Batch.reflected_applyChanges_iff, hback, hback']
  suffices hquietBack : b.changesGames = false ∧ s.ScriptsRun node cfg b →
      s.tables.games = s'.tables.games ∧
        ((p.buildUndoState s.tables).gameTables s'.tables).names = s'.tables.gameNames ∧
        s.tables.gameStatuses = s'.tables.gameStatuses by
    refine ⟨hquietBack, fun hpast => ⟨?_, hquietBack⟩⟩
    rintro ⟨hleft, -, hleft'⟩
    refine ⟨?_, ?_⟩
    · by_contra hc
      obtain ⟨id, r, hr, hnow⟩ := htouched (by simpa using hc)
      rw [← hview, ← hleft] at hr
      exact (hpast.games id r hr).ne hnow
    · by_contra hthrown
      obtain ⟨id, st, hst, -, hnull, hn⟩ := hnoted hthrown
      have hlook : s'.tables.gameStatuses.lookup id = some st := by
        have hst' : p.batch.gameStatuses.stored.lookup id = some st := hst
        rw [hstatuses, statusTable_eq fun id st hst => (stored_of_own hown hst).1,
          Overlay.lookup_putTo, hst']
        simp [hnull]
      rw [← hleft'] at hlook
      exact (hpast.statuses id st hlook).ne hn
  rintro ⟨hc, hrun⟩
  refine ⟨by rw [hview, hsame hc], buildUndoState_gameNames hs.names hprev (hsame hc) hnames, ?_⟩
  rw [hstatuses, Batch.statusTable]
  change _ = p.gameStatuses.overlay.stored.entries.foldl _ _
  rw [hquiet hrun]
  rfl

theorem scriptsRun_of_quiet {node : GameNode} {s : ChainState} {cfg : NodeConfig} {n : BlockNum}
    (h : ∀ (p : PendingState) game, (p.runGame node s cfg n game).1 = none) (p : PendingState)
    (games : List GameRecord) : p.ScriptsRun node s cfg n games := by
  induction games generalizing p with
  | nil => trivial
  | cons game games ih => exact ⟨h p game, ih _⟩

end

/-! ## A game that stays after its block -/

def diceGame : GameRecord where
  id := 1
  name := "dice"
  description := ""
  publicData := ""
  ownerAccountId := 2
  scriptCode := "fair"
  registrationDate := 1
  lastUpdate := 1

def casinoTables : ChainTables :=
  { soloTables 100 with
    properties := (soloTables 100).properties.insert .lastGameId (.id 1)
    accounts := (soloTables 100).accounts.insert 2
      { id := 2, name := gameOwnerName, publicData := "", ownerKey := 6,
        activeKeyHistory := OrdMap.set ∅ 1 6, registrationDate := 1, lastUpdate := 1 }
    accountNames := (soloTables 100).accountNames.insert gameOwnerName 2
    games := Finmap.singleton 1 diceGame
    gameNames := Finmap.singleton "dice" 1 }

def idleNode : GameNode where
  toGameClient := idleClient
  execute _ _ _ _ := some ([], .ok [])

def newGame : SignedTransaction where
  expiration := 200
  operations := [.game (.create ⟨"roulette", "", "", 2, ""⟩)]
  signatures := []

def casinoBlock (trxs : List SignedTransaction) : FullBlock := soloBlock 1 nullId 10 trxs

theorem casinoTables_tidy : casinoTables.GamesTidy where
  games := by
    rw [Table.all_iff]
    decide +kernel
  names := NamedTables.named_singleton GameRecord.name 1 diceGame
  statuses := by
    rw [Table.all_iff]
    decide +kernel

/-- A node with one script, which notes a move when it is played and at the end of each block. -/
def diceNode : GameNode where
  evaluate _ _ _ := .ok ([], ⟨[], [.object (some 7) "move"]⟩)
  execute _ _ _ _ := some ([], .ok [.result "rolled", .data (.object (some 8) "roll")])

def dicePlay : SignedTransaction where
  expiration := 300
  operations := [.game (.play ⟨1, "bet"⟩)]
  signatures := []

theorem undoPersistence_dicePlay :
    letI := Crypto.transparent
    ∃ s' u, ChainState.extendChainWith diceNode { tables := casinoTables } { clock := 100 }
        (casinoBlock [dicePlay]) = .ok s' ∧ (s'.tables.gameData.lookup (1, 7)).isSome ∧
      s'.undoStates.lookup (casinoBlock [dicePlay]).id = some u ∧
      u.reflected.applyChanges 1 s'.tables = u.applyChanges 1 s'.tables := by
  let := Crypto.transparent
  obtain ⟨s', h, hplayed, hsome⟩ := exists_ok_of_any (x := ChainState.extendChainWith diceNode
    { tables := casinoTables } { clock := 100 } (casinoBlock [dicePlay]))
    (p := fun s' => (s'.tables.gameData.lookup (1, 7)).isSome = true ∧
      (s'.undoStates.lookup (casinoBlock [dicePlay]).id).isSome = true) (by decide +kernel)
  obtain ⟨u, hu⟩ := Option.isSome_iff_exists.1 hsome
  refine ⟨s', u, h, hplayed, hu, (undoPersistence_iff casinoTables_tidy h (by decide) hu).1
    ⟨by decide, fun p _ => scriptsRun_of_quiet (fun _ _ => rfl) p _⟩⟩

/-- After a block that creates a game, the undo state in memory takes the game away and the one
from the disk leaves it. -/
theorem undo_createGame :
    letI := Crypto.transparent
    ∃ s' u, ChainState.extendChainWith idleNode { tables := casinoTables } { clock := 100 }
        (casinoBlock [newGame]) = .ok s' ∧
      s'.undoStates.lookup (casinoBlock [newGame]).id = some u ∧
      ((u.applyChanges 1 s'.tables).games.lookup 2).isNone ∧
      ((u.reflected.applyChanges 1 s'.tables).games.lookup 2).isSome ∧
      u.reflected.applyChanges 1 s'.tables ≠ u.applyChanges 1 s'.tables := by
  let := Crypto.transparent
  obtain ⟨s', h, hany⟩ := exists_ok_of_any (x := ChainState.extendChainWith idleNode
    { tables := casinoTables } { clock := 100 } (casinoBlock [newGame]))
    (p := fun s' => (s'.undoStates.lookup (casinoBlock [newGame]).id).any fun u =>
      ((u.applyChanges 1 s'.tables).games.lookup 2).isNone ∧
        ((u.reflected.applyChanges 1 s'.tables).games.lookup 2).isSome) (by decide +kernel)
  obtain ⟨u, hu, hgone, hthere⟩ := exists_some_of_any hany
  refine ⟨s', u, h, hu, hgone, hthere, fun hsame => ?_⟩
  rw [hsame] at hthere
  rw [Option.isNone_iff_eq_none] at hgone
  rw [hgone] at hthere
  cases hthere

end BitShares
