import BitShares.Game.Operations
import BitShares.Ledger.Proof.Control

/-!
# Who controls games

What a transaction with game operations does to the game records, and whose signatures it needs for
it.  `evaluateOperationWith_games` says what one operation does to the games: only `create_game`
adds one, and only `game_update` changes one.  Both compute whether the owner of the game or an
ancestor signed (`accountOrAnyParentHasSigned_iff`) and go on in either case, so the games are
controlled by their owners exactly as far as the transaction happens to be signed by them
(`gameControl_iff`).
-/

namespace BitShares

section

variable [Crypto]

/-! ## The signature check -/

namespace EvalState

def ControllerSigned (e : EvalState) (r : AccountRecord) : Prop :=
  r.isRetracted = false ∧ (e.checkKey r.activeKey ∨ e.checkKey r.ownerKey) ∨
    e.AncestorSigned r.name.toList

def SignedFor (e : EvalState) (r : AccountRecord) : Prop :=
  (e.checkKey r.activeKey ∨ e.checkKey r.ownerKey) ∨ e.AncestorSigned r.name.toList

omit [Crypto] in
theorem parentName_of_dot (sub above : List Char) :
    ∃ parent, parentName (sub ++ '.' :: above) = some parent ∧
      parent.length < (sub ++ '.' :: above).length ∧
      (parent = above ∨ ∃ sub', parent = sub' ++ '.' :: above) := by
  induction sub with
  | nil => exact ⟨above, by simp [parentName], by simp, .inl rfl⟩
  | cons c sub ih =>
    rw [List.cons_append, parentName]
    by_cases hc : c = '.'
    · exact ⟨sub ++ '.' :: above, by simp [hc], by simp, .inr ⟨sub, rfl⟩⟩
    · obtain ⟨parent, hparent, hlen, hup⟩ := ih
      exact ⟨parent, by rw [if_neg hc, hparent], by simp only [List.length_cons]; omega, hup⟩

theorem parentHasSigned_complete {e : EvalState} {fuel : Nat} {name : List Char}
    (hfuel : name.length < fuel) (h : e.AncestorSigned name) : e.parentHasSigned fuel name := by
  induction fuel generalizing name with
  | zero => omega
  | succ fuel ih =>
    obtain ⟨above, r, ⟨sub, rfl⟩, hr, hret, hsigned⟩ := h
    obtain ⟨parent, hparent, hlen, hup⟩ := parentName_of_dot sub above
    rw [parentHasSigned, hparent]
    dsimp only
    have hnext : ∀ sub', parent = sub' ++ '.' :: above → e.parentHasSigned fuel parent = true :=
      fun sub' hsub => ih (by omega) ⟨above, r, ⟨sub', hsub⟩, hr, hret, hsigned⟩
    rcases hup with rfl | ⟨sub', hsub⟩
    · rw [hr]
      simp only [hret, Bool.false_eq_true, if_false]
      split_ifs with hactive howner
      · rfl
      · rfl
      · exact absurd hsigned (by simp [hactive, howner])
    · split
      · exact hnext sub' hsub
      · split_ifs
        · exact hnext sub' hsub
        · rfl
        · rfl
        · exact hnext sub' hsub

theorem anyParentHasSigned_iff {e : EvalState} {name : String} :
    e.anyParentHasSigned name = true ↔ e.AncestorSigned name.toList :=
  ⟨parentHasSigned_sound, parentHasSigned_complete (by rw [String.length_toList]; omega)⟩

theorem accountOrAnyParentHasSigned_iff {e : EvalState} {r : AccountRecord} :
    e.accountOrAnyParentHasSigned r = true ↔ e.ControllerSigned r := by
  rw [accountOrAnyParentHasSigned, ControllerSigned, Bool.or_eq_true, anyParentHasSigned_iff]
  simp only [Bool.and_eq_true, Bool.or_eq_true, Bool.not_eq_true']

end EvalState

/-! ## One operation -/

structure GameContent where
  description : String
  publicData : Variant
  scriptCode : String

def GameRecord.content (r : GameRecord) : GameContent := ⟨r.description, r.publicData, r.scriptCode⟩

def GameUpdateOperation.content (op : GameUpdateOperation) : GameContent :=
  ⟨op.description, op.publicData, op.scriptCode⟩

inductive GameStep (e : EvalState) : Operation → Table GameId GameRecord → Prop
  | frame {op : Operation} : GameStep e op e.ledger.games
  | create (op : CreateGameOperation) {r : GameRecord} {owner : AccountRecord}
      (hnew : e.ledger.games.lookup r.id = none) (hr : r.ownerAccountId = op.ownerAccountId)
      (howner : e.pending.getAccountRecord op.ownerAccountId = some owner) :
    GameStep e (.game (.create op)) (e.ledger.games.insert r.id r)
  | update (op : GameUpdateOperation) {r r' : GameRecord} {owner : AccountRecord}
      (hr : e.ledger.games.lookup op.gameId = some r) (hid : r'.id = r.id)
      (hcontent : r'.content = op.content)
      (howner : e.pending.getAccountRecord r.ownerAccountId = some owner) :
    GameStep e (.game (.update op)) (e.ledger.games.insert r'.id r')

theorem CreateGameOperation.evaluate_effect {op : CreateGameOperation} {e e' : EvalState}
    (h : op.evaluate e = .ok e') :
    ∃ id owner, e.ledger.games.lookup id = none ∧
      e.pending.getAccountRecord op.ownerAccountId = some owner ∧
      Effect e e' ((e.ledger.setProperty .lastGameId (.id id)).storeGame (op.record id e.ctx.now))
        e.feesPaid (addTo e.minFees 0 (getGameRegistrationFee op.name.length))
        e.delegateVoteDeltas := by
  simp only [evaluate, bind_eq_ok, require_eq_ok, expect_eq_ok, pure_eq_ok, exists_and_left,
    exists_const, PendingLedger.newGameId, EvalState.addMinFee_pending, Prod.exists, Prod.mk.injEq,
    PendingLedger.getGameRecord_eq, Option.isNone_iff_eq_none] at h
  obtain ⟨-, -, -, last, hlast, hnew, owner, howner, -, _, _, ⟨last', hlast', rfl, rfl⟩, rfl⟩ := h
  obtain rfl : last' = last := by simpa [hlast] using hlast'.symm
  refine ⟨_, owner, hnew, howner, .of_pending rfl rfl ?_⟩
  rw [PendingLedger.view_storeGameRecord, PendingLedger.view_storePropertyRecord]
  rfl

theorem GameUpdateOperation.evaluate_effect {op : GameUpdateOperation} {e e' : EvalState}
    (h : op.evaluate e = .ok e') :
    ∃ r owner, e.ledger.games.lookup op.gameId = some r ∧
      e.pending.getAccountRecord r.ownerAccountId = some owner ∧
      Effect e e'
        (e.ledger.storeGame { r with
          description := op.description
          publicData := op.publicData
          scriptCode := op.scriptCode
          lastUpdate := e.ctx.now })
        e.feesPaid (addTo e.minFees 0 (getGameRegistrationFee r.name.length))
        e.delegateVoteDeltas := by
  simp only [evaluate, bind_eq_ok, expect_eq_ok, pure_eq_ok, PendingLedger.getGameRecord_eq] at h
  obtain ⟨r, hr, owner, howner, rfl⟩ := h
  refine ⟨r, owner, hr, howner, .of_pending rfl rfl ?_⟩
  rw [PendingLedger.view_storeGameRecord]
  rfl

structure EvalState.SameGames (e e' : EvalState) : Prop where
  games : e'.ledger.games = e.ledger.games
  ctx : e'.ctx = e.ctx
  trx : e'.trx = e.trx
  signedAddresses : e'.signedAddresses = e.signedAddresses
  below : e'.pending.below = e.pending.below

omit [Crypto] in
theorem EvalState.SameGames.trans {e m e' : EvalState} (h : e.SameGames m) (h' : m.SameGames e') :
    e.SameGames e' :=
  ⟨h'.games.trans h.games, h'.ctx.trans h.ctx, h'.trx.trans h.trx,
    h'.signedAddresses.trans h.signedAddresses, h'.below.trans h.below⟩

theorem EvalState.playCall_games (e : EvalState) (call : PlayCall) :
    e.SameGames (e.playCall call) := by
  rcases call with (_ | _ | _) | _ <;> exact ⟨rfl, rfl, rfl, rfl, rfl⟩

theorem EvalState.playCalls_games {e s : EvalState} (h : e.SameGames s)
    (calls : List PlayCall) : e.SameGames (calls.foldl EvalState.playCall s) := by
  induction calls generalizing s with
  | nil => exact h
  | cons call calls ih => exact ih (h.trans (s.playCall_games call))

theorem EvalState.payOut_games {gameId : GameId} {e e' : EvalState} {entry : Address × Asset}
    (h : e.payOut gameId entry = .ok e') : e.SameGames e' := by
  simp only [payOut, bind_eq_ok, require_eq_ok, expect_eq_ok, pure_eq_ok, exists_and_left,
    exists_const] at h
  obtain ⟨asset, -, -, -, date, -, rfl⟩ := h
  exact ⟨rfl, rfl, rfl, rfl, rfl⟩

omit [Crypto] in
theorem EvalState.putData_games {gameId : GameId} {e e' : EvalState} {data : ScriptData}
    (h : e.putData gameId data = .ok e') : e.SameGames e' := by
  cases data with
  | object index data =>
    simp only [putData, bind_eq_ok, expect_eq_ok, pure_eq_ok] at h
    obtain ⟨index, -, rfl⟩ := h
    exact ⟨rfl, rfl, rfl, rfl, rfl⟩
  | number id => cases h; exact ⟨rfl, rfl, rfl, rfl, rfl⟩
  | other => cases h; exact ⟨rfl, rfl, rfl, rfl, rfl⟩

theorem GamePlayOperation.evaluate_games {op : GamePlayOperation} {client : GameClient}
    {e e' : EvalState} (h : op.evaluate client e = .ok e') : e.SameGames e' := by
  simp only [evaluate, PlayResult.apply, bind_eq_ok, Prod.exists] at h
  obtain ⟨game, -, calls, result, -, m, hpaid, hdata⟩ := h
  have hm : e.SameGames m :=
    foldlM_induction (P := e.SameGames) (fun entry _ s s' hs hstep =>
      hs.trans (EvalState.payOut_games hstep)) hpaid
      (EvalState.playCalls_games ⟨rfl, rfl, rfl, rfl, rfl⟩ calls)
  exact foldlM_induction (P := e.SameGames) (fun data _ s s' hs hstep =>
    hs.trans (EvalState.putData_games hstep)) hdata hm

theorem evaluateOperationWith_cases {client : GameClient} {e e' : EvalState} {op : Operation}
    (h : e.evaluateOperationWith client op = .ok e') :
    (∃ o, op = .game (.create o) ∧ o.evaluate e = .ok e') ∨
      (∃ o, op = .game (.update o) ∧ o.evaluate e = .ok e') ∨
      (∃ o, op = .game (.play o) ∧ o.evaluate client e = .ok e') ∨
      e.evaluateOperation op = .ok e' := by
  unfold EvalState.evaluateOperationWith at h
  split at h
  · exact .inl ⟨_, rfl, h⟩
  · exact .inr (.inl ⟨_, rfl, h⟩)
  · exact .inr (.inr (.inl ⟨_, rfl, h⟩))
  · exact .inr (.inr (.inr h))

theorem evaluateOperationWith_games {client : GameClient} {e e' : EvalState} {op : Operation}
    (h : e.evaluateOperationWith client op = .ok e')
    (hids : e.ledger.games.All fun id r => r.id = id) : GameStep e op e'.ledger.games := by
  have hframe : ∀ {op : Operation} {t : Table GameId GameRecord}, t = e.ledger.games →
      GameStep e op t := fun ht => ht ▸ .frame
  rcases evaluateOperationWith_cases h with ⟨o, rfl, h⟩ | ⟨o, rfl, h⟩ | ⟨o, rfl, h⟩ | h
  · obtain ⟨id, owner, hnew, howner, heff⟩ := o.evaluate_effect h
    rw [heff.ledger]
    exact .create o (r := o.record id e.ctx.now) hnew rfl howner
  · obtain ⟨r, owner, hr, howner, heff⟩ := o.evaluate_effect h
    rw [heff.ledger]
    refine .update o hr ?_ ?_ howner <;> rfl
  · exact hframe (o.evaluate_games h).games
  · obtain ⟨L, _, _, _, heff, hkeep, -⟩ := evaluateOperation_effect h
    refine hframe ?_
    rw [heff.ledger]
    rcases hkeep with hsame | ⟨id, game, hgame, hsame⟩
    · exact hsame
    · have hid : game.id = id := hids _ _ hgame
      rw [hsame, hid, Table.insert_of_lookup hgame]

/-! ## One transaction -/

theorem operationStep_frame {client : GameClient} {e e' : EvalState} {op : Operation}
    (h : e.operationStep client op = .ok e')
    (hids : e.ledger.games.All fun id r => r.id = id) :
    (e'.ledger.games.All fun id r => r.id = id) ∧
      ∃ m, e.evaluateOperationWith client op = .ok m := by
  rw [EvalState.operationStep, bind_eq_ok] at h
  obtain ⟨m, hm, h⟩ := h
  rw [pure_eq_ok] at h
  subst h
  refine ⟨?_, m, hm⟩
  change m.ledger.games.All fun id r => r.id = id
  have hgames := evaluateOperationWith_games hm hids
  generalize m.ledger.games = t at hgames ⊢
  cases hgames with
  | frame => exact hids
  | create o hnew hr howner => exact hids.insert rfl
  | update o hr hid hcontent howner => exact hids.insert rfl

/-- The states in which the operations of a transaction start, with the operations. -/
def gameTrace (client : GameClient) (ctx : EvalContext) (p : PendingLedger)
    (trx : SignedTransaction) : List (EvalState × Operation) :=
  match signersOf ctx trx with
  | .ok signers =>
    foldTrace (EvalState.operationStep client) (EvalState.start ctx p trx signers) trx.operations
  | .error _ => []

theorem gameTrace_step {client : GameClient} {ctx : EvalContext} {p : PendingLedger}
    {trx : SignedTransaction} {e₁ : EvalState}
    (hp : p.view.games.All fun id r => r.id = id)
    (h : evaluateToFeesWith client ctx p trx = .ok e₁) {e : EvalState} {op : Operation}
    (hmem : (e, op) ∈ gameTrace client ctx p trx) :
    (e.ledger.games.All fun id r => r.id = id) ∧
      ∃ e', e.evaluateOperationWith client op = .ok e' := by
  rw [evaluateToFeesWith, bind_eq_ok] at h
  obtain ⟨signers, hsigners, hops⟩ := h
  rw [gameTrace, hsigners] at hmem
  obtain ⟨hids, m, hm⟩ := foldlM_trace (fun e => e.ledger.games.All fun id r => r.id = id)
    (fun _ _ _ hs hstep => (operationStep_frame hstep hs).1) hops hp hmem
  exact ⟨hids, (operationStep_frame hm hids).2⟩

/-- Every operation that adds a game is signed for the game's owner, and every one that changes
what a game's owner decides on is signed by the owner, who is not retracted, or an ancestor. -/
def GameControlLaw (client : GameClient) (ctx : EvalContext) (p : PendingLedger)
    (trx : SignedTransaction) : Prop :=
  ∀ e op e', (e, op) ∈ gameTrace client ctx p trx → e.evaluateOperationWith client op = .ok e' →
    ∀ id r', e'.ledger.games.lookup id = some r' →
      (e.ledger.games.lookup id = none → ∃ owner,
        e.pending.getAccountRecord r'.ownerAccountId = some owner ∧ e.SignedFor owner) ∧
      ∀ r, e.ledger.games.lookup id = some r → r'.content ≠ r.content → ∃ owner,
        e.pending.getAccountRecord r.ownerAccountId = some owner ∧ e.ControllerSigned owner

theorem evaluateLedgerWith_phases {client : GameClient} {ctx : EvalContext} {p : PendingLedger}
    {trx : SignedTransaction} {e' : EvalState} (h : evaluateLedgerWith client ctx p trx = .ok e') :
    ∃ e₁ e₂ p₃ total, evaluateToFeesWith client ctx p trx = .ok e₁ ∧
      e₁.feesPaid.entries.foldlM EvalState.validateFee e₁ = .ok e₂ ∧
      e₂.delegateVoteDeltas.entries.foldlM PendingLedger.adjustVotesFor e₂.pending = .ok p₃ ∧
      EvalState.updateRpValues
        { e₂ with totalBaseEquivalentFeesPaid := total, pending := p₃ } = .ok e' := by
  simp only [evaluateLedgerWith, bind_eq_ok, EvalState.calculateBaseEquivalentFees,
    EvalState.updateDelegateVotes, pure_eq_ok, exists_exists_and_eq_and] at h
  obtain ⟨e₁, h₁, e₂, h₂, total, -, p₃, h₃, h₄⟩ := h
  exact ⟨e₁, e₂, p₃, total, h₁, h₂, h₃, h₄⟩

theorem evaluateLedgerWith_games {client : GameClient} {ctx : EvalContext} {p : PendingLedger}
    {trx : SignedTransaction} {e' : EvalState} (h : evaluateLedgerWith client ctx p trx = .ok e') :
    ∃ e₁, evaluateToFeesWith client ctx p trx = .ok e₁ ∧ e'.ledger.games = e₁.ledger.games := by
  obtain ⟨e₁, e₂, p₃, total, h₁, h₂, h₃, h₄⟩ := evaluateLedgerWith_phases h
  have hfees : e₂.ledger.games = e₁.ledger.games := by
    refine foldlM_induction (P := fun e => e.ledger.games = e₁.ledger.games)
      (fun fee _ e m he hfee => ?_) h₂ rfl
    obtain ⟨-, -, -, ⟨-, rfl⟩ | ⟨asset, -, heff⟩⟩ := EvalState.validateFee_effect hfee
    · exact he
    · rw [heff.ledger]
      exact he
  refine ⟨e₁, h₁, ?_⟩
  rw [afterFees_rest h₃ h₄]
  exact hfees

/-- **Game control.**  The fee check and what follows leave the games alone, and the operations
create and change games only with the signatures of their owners exactly if every `create_game` is
signed for the owner it names, and every `game_update` that changes something by the owner of the
game.  The code computes both and enforces neither. -/
theorem gameControl_iff {client : GameClient} {ctx : EvalContext} {p : PendingLedger}
    {trx : SignedTransaction} {e' : EvalState} (hp : p.view.games.All fun id r => r.id = id)
    (h : evaluateLedgerWith client ctx p trx = .ok e') :
    (∀ e₁, evaluateToFeesWith client ctx p trx = .ok e₁ → e'.ledger.games = e₁.ledger.games) ∧
    (GameControlLaw client ctx p trx ↔
      (∀ e op, (e, .game (.create op)) ∈ gameTrace client ctx p trx → ∀ owner,
        e.pending.getAccountRecord op.ownerAccountId = some owner →
          e.checkKey owner.activeKey ∨ e.checkKey owner.ownerKey ∨
            e.anyParentHasSigned owner.name) ∧
      ∀ e op, (e, .game (.update op)) ∈ gameTrace client ctx p trx → ∀ r owner,
        e.ledger.games.lookup op.gameId = some r →
        e.pending.getAccountRecord r.ownerAccountId = some owner →
        op.content ≠ r.content → e.accountOrAnyParentHasSigned owner) := by
  obtain ⟨e₁, h₁, hgames⟩ := evaluateLedgerWith_games h
  refine ⟨fun m hm => ?_, fun hlaw => ⟨fun e op hmem owner howner => ?_,
    fun e op hmem r owner hr howner hne => ?_⟩, fun ⟨hcreate, hupdate⟩ e op m hmem hstep id r' hr' =>
      ?_⟩
  · obtain rfl : m = e₁ := by simpa [h₁] using hm.symm
    exact hgames
  · obtain ⟨hids, m, hm⟩ := gameTrace_step hp h₁ hmem
    obtain ⟨id, _, hnew, -, heff⟩ := CreateGameOperation.evaluate_effect hm
    have hr' : m.ledger.games.lookup id = some (op.record id e.ctx.now) := by
      rw [heff.ledger]
      exact Finmap.lookup_insert _
    obtain ⟨owner', howner', hsigned⟩ := (hlaw e _ m hmem hm id _ hr').1 hnew
    obtain rfl : owner' = owner := Option.some.inj (howner'.symm.trans howner)
    rw [EvalState.anyParentHasSigned_iff]
    exact or_assoc.1 hsigned
  · obtain ⟨hids, m, hm⟩ := gameTrace_step hp h₁ hmem
    obtain ⟨s, _, hs, -, heff⟩ := GameUpdateOperation.evaluate_effect hm
    obtain rfl : s = r := Option.some.inj (hs.symm.trans hr)
    have hid : s.id = op.gameId := hids _ _ hr
    have hr' : m.ledger.games.lookup op.gameId = some { s with
        description := op.description
        publicData := op.publicData
        scriptCode := op.scriptCode
        lastUpdate := e.ctx.now } := by
      rw [heff.ledger, ← hid]
      exact Finmap.lookup_insert _
    obtain ⟨owner', howner', hsigned⟩ := (hlaw e _ m hmem hm _ _ hr').2 s hr hne
    obtain rfl : owner' = owner := Option.some.inj (howner'.symm.trans howner)
    exact EvalState.accountOrAnyParentHasSigned_iff.2 hsigned
  · obtain ⟨hids, -⟩ := gameTrace_step hp h₁ hmem
    -- a record that was there before is no new game and has no new content
    have hkept : e.ledger.games.lookup id = some r' →
        (e.ledger.games.lookup id = none → ∃ owner,
          e.pending.getAccountRecord r'.ownerAccountId = some owner ∧ e.SignedFor owner) ∧
        ∀ r, e.ledger.games.lookup id = some r → r'.content ≠ r.content → ∃ owner,
          e.pending.getAccountRecord r.ownerAccountId = some owner ∧ e.ControllerSigned owner := by
      intro hold
      refine ⟨fun hnone => ?_, fun r hr hne => ?_⟩
      · rw [hold] at hnone
        cases hnone
      · rw [hold] at hr
        cases hr
        exact absurd rfl hne
    have hgames := evaluateOperationWith_games hstep hids
    generalize m.ledger.games = t at hgames hr'
    cases hgames with
    | frame => exact hkept hr'
    | @create op g owner hnew hg howner =>
      by_cases hid : id = g.id
      · subst hid
        rw [Finmap.lookup_insert] at hr'
        cases hr'
        refine ⟨fun _ => ⟨owner, by rw [hg, howner], ?_⟩, fun r hr => ?_⟩
        · have hsigned := hcreate e op hmem owner howner
          rw [EvalState.anyParentHasSigned_iff] at hsigned
          exact or_assoc.2 hsigned
        · rw [hnew] at hr
          cases hr
      · rw [Finmap.lookup_insert_of_ne _ hid] at hr'
        exact hkept hr'
    | @update op g g' owner hg hid hcontent howner =>
      by_cases hne : id = g'.id
      · have hkey : g.id = op.gameId := hids _ _ hg
        rw [hne, Finmap.lookup_insert] at hr'
        cases hr'
        rw [hne, hid, hkey]
        refine ⟨fun hnone => ?_, fun r hr hne => ?_⟩
        · rw [hg] at hnone
          cases hnone
        · obtain rfl : g = r := Option.some.inj (hg.symm.trans hr)
          refine ⟨owner, howner, EvalState.accountOrAnyParentHasSigned_iff.1 ?_⟩
          exact hupdate e op hmem g owner hg howner (hcontent ▸ hne)
      · rw [Finmap.lookup_insert_of_ne _ hne] at hr'
        exact hkept hr'

end

/-! ## A game in the hands of a stranger -/

def arcadeTables : LedgerTables where
  properties := Finmap.singleton .lastGameId (.id 1)
  accounts := Finmap.singleton 1
    { id := 1, name := "play-bitsha256", publicData := "", ownerKey := 5,
      activeKeyHistory := OrdMap.set ∅ 1 5, registrationDate := 1, lastUpdate := 1 }
  accountNames := Finmap.singleton "play-bitsha256" 1
  games := Finmap.singleton 1
    { id := 1, name := "dice", description := "", publicData := "", ownerAccountId := 1,
      scriptCode := "fair", registrationDate := 1, lastUpdate := 1 }
  gameNames := Finmap.singleton "dice" 1

def idleClient : GameClient where
  evaluate _ _ _ := .error .gameEngineNotFound

def arcadeChange (signatures : List Signature) : SignedTransaction where
  expiration := 200
  operations :=
    [.game (.update ⟨1, "", "", "loaded"⟩), .game (.create ⟨"roulette", "", "", 1, ""⟩)]
  signatures := signatures

theorem gameControl_arcadeChange :
    letI := Crypto.transparent
    ∃ e', evaluateLedgerWith idleClient shopContext (.over arcadeTables) (arcadeChange [5]) = .ok e' ∧
      GameControlLaw idleClient shopContext (.over arcadeTables) (arcadeChange [5]) := by
  let := Crypto.transparent
  obtain ⟨e', h⟩ := exists_ok_of_isOk
    (x := evaluateLedgerWith idleClient shopContext (.over arcadeTables) (arcadeChange [5]))
    (by decide +kernel)
  have hall : ∀ step ∈ gameTrace idleClient shopContext (.over arcadeTables) (arcadeChange [5]),
      ∀ owner ∈ step.1.pending.getAccountRecord 1,
        step.1.checkKey owner.activeKey ∧ step.1.accountOrAnyParentHasSigned owner := by
    decide +kernel
  have hgames : ∀ step ∈ gameTrace idleClient shopContext (.over arcadeTables) (arcadeChange [5]),
      ∀ r ∈ step.1.ledger.games.lookup 1, r.ownerAccountId = 1 := by
    decide +kernel
  have hops : ∀ step ∈ gameTrace idleClient shopContext (.over arcadeTables) (arcadeChange [5]),
      step.2 ∈ (arcadeChange [5]).operations := by
    decide +kernel
  refine ⟨e', h, (gameControl_iff (by decide +kernel) h).2.2
    ⟨fun e op hmem owner howner => .inl ?_, fun e op hmem r owner hr howner _ => ?_⟩⟩
  · have hop := hops _ hmem
    simp only [arcadeChange, List.mem_cons, List.not_mem_nil, or_false, reduceCtorEq, false_or,
      Operation.game.injEq, GameOperation.create.injEq] at hop
    subst hop
    exact (hall _ hmem owner howner).1
  · have hop := hops _ hmem
    simp only [arcadeChange, List.mem_cons, List.not_mem_nil, or_false, reduceCtorEq,
      Operation.game.injEq, GameOperation.update.injEq] at hop
    subst hop
    rw [hgames _ hmem r hr] at howner
    exact (hall _ hmem owner howner).2

/-- Nobody has to sign for a game: the script of one is replaced and another is created in the
owner's name by a transaction without signatures. -/
theorem arcadeChange_unsigned :
    letI := Crypto.transparent
    ∃ e', evaluateLedgerWith idleClient shopContext (.over arcadeTables) (arcadeChange []) = .ok e' ∧
      (e'.ledger.games.lookup 1).any (·.scriptCode = "loaded") ∧
      (e'.ledger.games.lookup 2).any (·.ownerAccountId = 1) ∧
      ¬ GameControlLaw idleClient shopContext (.over arcadeTables) (arcadeChange []) := by
  let := Crypto.transparent
  obtain ⟨e', h, hloaded, hnew⟩ := exists_ok_of_any
    (x := evaluateLedgerWith idleClient shopContext (.over arcadeTables) (arcadeChange []))
    (p := fun e' => (e'.ledger.games.lookup 1).any (·.scriptCode = "loaded") ∧
      (e'.ledger.games.lookup 2).any (·.ownerAccountId = 1)) (by decide +kernel)
  refine ⟨e', h, hloaded, hnew, fun hlaw => ?_⟩
  let e := EvalState.start shopContext (.over arcadeTables) (arcadeChange []) []
  let op : Operation := .game (.update ⟨1, "", "", "loaded"⟩)
  have hmem : (e, op) ∈ gameTrace idleClient shopContext (.over arcadeTables) (arcadeChange []) :=
    List.mem_cons_self
  obtain ⟨m, hm, hscript⟩ := exists_ok_of_any (x := e.evaluateOperationWith idleClient op)
    (p := fun m => (m.ledger.games.lookup 1).any (·.scriptCode = "loaded")) (by decide +kernel)
  obtain ⟨r', hr', hscript⟩ := (Option.any_eq_true _ _).1 hscript
  obtain ⟨r, hr, hfair, howned⟩ := exists_some_of_any (o := e.ledger.games.lookup 1)
    (p := fun r => r.scriptCode = "fair" ∧ r.ownerAccountId = 1) (by decide +kernel)
  obtain ⟨owner, howner, hsigned⟩ := (hlaw e op m hmem hm 1 r' hr').2 r hr fun hsame => by
    have hcode : r'.scriptCode = "fair" := (congrArg GameContent.scriptCode hsame).trans hfair
    simp [hcode] at hscript
  have hunsigned : ∀ owner ∈ e.pending.getAccountRecord 1,
      e.accountOrAnyParentHasSigned owner = false := by decide +kernel
  rw [howned] at howner
  have hcheck := EvalState.accountOrAnyParentHasSigned_iff.2 hsigned
  rw [hunsigned owner howner] at hcheck
  cases hcheck

end BitShares
