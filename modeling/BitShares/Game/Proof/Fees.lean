import BitShares.Game.Proof.Control
import BitShares.Ledger.Proof.Fees

/-!
# The fee law for transactions with game operations

`create_game` and `game_update` ask for a registration fee in base shares without moving any, as the
registration of an account does; the script of a `game_play` may move shares of any asset, and asks
for no fee (`evaluateOperationWith_feeStep`).  `feeLaw_iff` says for every transaction whether it
pays what its operations require.
-/

namespace BitShares

/-! ## Scripts -/

/-- Fees that stay required while shares are moved. -/
structure FeeMove (e e' : EvalState) (moves : Bool) : Prop where
  maxFees : e'.maxFees = e.maxFees
  minFees : e'.minFees = e.minFees
  paid : (e'.feesPaid.find 0).isSome ↔ (e.feesPaid.find 0).isSome ∨ moves
  mono : ∀ a, (e.feesPaid.find a).isSome → (e'.feesPaid.find a).isSome

namespace FeeMove

variable {e m e' : EvalState} {moves moves' : Bool}

theorem frame (h₁ : e'.maxFees = e.maxFees) (h₂ : e'.minFees = e.minFees)
    (h₃ : e'.feesPaid = e.feesPaid) : FeeMove e e' false :=
  ⟨h₁, h₂, by simp [h₃], fun a ha => by rwa [h₃]⟩

theorem trans (h : FeeMove e m moves) (h' : FeeMove m e' moves') :
    FeeMove e e' (moves || moves') where
  maxFees := h'.maxFees.trans h.maxFees
  minFees := h'.minFees.trans h.minFees
  paid := by rw [h'.paid, h.paid, Bool.or_eq_true, or_assoc]
  mono a ha := h'.mono a (h.mono a ha)

theorem subBalance (e : EvalState) (amount : Asset) :
    FeeMove e (e.subBalance amount) (amount.assetId = 0) where
  maxFees := rfl
  minFees := rfl
  paid := by
    rw [EvalState.subBalance, find_addTo_isSome, decide_eq_true_eq, or_comm]
    exact or_congr_right eq_comm
  mono a ha := by
    rw [EvalState.subBalance, find_addTo_isSome]
    exact .inr ha

theorem feeStep (h : FeeMove e e' moves) : FeeStep e e' moves 0 where
  maxFees := h.maxFees
  paid := h.paid
  mono := h.mono
  other a _ hm := .inl (h.minFees ▸ hm)
  base _ := by rw [h.minFees, Int64.add_zero]

end FeeMove

def PlayCall.movesBase : PlayCall → Bool
  | .onState _ => false
  | .subBalance amount => amount.assetId = 0

section

variable [Crypto]

theorem playCalls_feeMove (calls : List PlayCall) (e : EvalState) :
    FeeMove e (calls.foldl EvalState.playCall e) (calls.any PlayCall.movesBase) := by
  induction calls generalizing e with
  | nil => exact .frame rfl rfl rfl
  | cons call calls ih =>
    rw [List.any_cons]
    refine FeeMove.trans ?_ (ih _)
    cases call with
    | onState call => exact .frame rfl rfl rfl
    | subBalance amount => exact .subBalance e amount

theorem payOut_feeMove {gameId : GameId} {e e' : EvalState} {entry : Address × Asset}
    (h : e.payOut gameId entry = .ok e') : FeeMove e e' (entry.2.assetId = 0) := by
  simp only [EvalState.payOut, bind_eq_ok, require_eq_ok, expect_eq_ok, pure_eq_ok, exists_and_left,
    exists_const] at h
  obtain ⟨asset, -, -, -, date, -, rfl⟩ := h
  rw [← Bool.or_false (decide _)]
  exact (FeeMove.subBalance e entry.2).trans (.frame rfl rfl rfl)

theorem payOuts_feeMove {gameId : GameId} {l : List (Address × Asset)} {e e' : EvalState}
    (h : l.foldlM (EvalState.payOut gameId) e = .ok e') :
    FeeMove e e' (l.any (·.2.assetId = 0)) := by
  induction l generalizing e with
  | nil =>
    cases h
    exact .frame rfl rfl rfl
  | cons entry l ih =>
    rw [List.foldlM_cons, bind_eq_ok] at h
    obtain ⟨m, hm, hrest⟩ := h
    rw [List.any_cons]
    exact (payOut_feeMove hm).trans (ih hrest)

omit [Crypto] in
theorem putDatas_feeMove {gameId : GameId} {l : List ScriptData} {e e' : EvalState}
    (h : l.foldlM (EvalState.putData gameId) e = .ok e') : FeeMove e e' false := by
  refine foldlM_induction (P := fun s => FeeMove e s false) (fun data _ s s' hs hstep => ?_) h
    (.frame rfl rfl rfl)
  have hmove : FeeMove s s' false := by
    cases data with
    | object index data =>
      simp only [EvalState.putData, bind_eq_ok, expect_eq_ok, pure_eq_ok] at hstep
      obtain ⟨index, -, rfl⟩ := hstep
      exact .frame rfl rfl rfl
    | number id => cases hstep; exact .frame rfl rfl rfl
    | other => cases hstep; exact .frame rfl rfl rfl
  exact hs.trans hmove

/-! ## One operation -/

/-- Whether an operation moves base shares through the fee account when it runs in `e`; for a
`game_play`, whether its script does. -/
def Operation.movesBaseWith (client : GameClient) (e : EvalState) : Operation → Bool
  | .game (.play op) => (e.ledger.games.lookup op.gameId).any fun game =>
      match client.evaluate e game op.data with
      | .ok (calls, result) =>
        calls.any PlayCall.movesBase || result.toBalances.any (·.2.assetId = 0)
      | .error _ => false
  | op => op.movesBase e

def Operation.registrationFeeWith (e : EvalState) : Operation → ShareType
  | .game (.create op) => getGameRegistrationFee op.name.length
  | .game (.update op) => ((e.ledger.games.lookup op.gameId).map fun game =>
      getGameRegistrationFee game.name.length).getD 0
  | op => op.registrationFee e

theorem GamePlayOperation.evaluate_feeMove {op : GamePlayOperation} {client : GameClient}
    {e e' : EvalState} (h : op.evaluate client e = .ok e') :
    FeeMove e e' (Operation.movesBaseWith client e (.game (.play op))) := by
  simp only [evaluate, PlayResult.apply, bind_eq_ok, expect_eq_ok, Prod.exists,
    PendingLedger.getGameRecord_eq] at h
  obtain ⟨game, hgame, calls, result, hscript, m, hpaid, hdata⟩ := h
  have hmove := ((playCalls_feeMove calls e).trans (payOuts_feeMove hpaid)).trans
    (putDatas_feeMove hdata)
  rw [Bool.or_false] at hmove
  have hlookup : e.ledger.games.lookup op.gameId = some game := hgame
  simpa only [Operation.movesBaseWith, hlookup, Option.any_some, hscript] using hmove

theorem evaluateOperationWith_feeStep {client : GameClient} {e e' : EvalState} {op : Operation}
    (h : e.evaluateOperationWith client op = .ok e') (hL : e.ledger.WellFormed) :
    FeeStep e e' (op.movesBaseWith client e) (op.registrationFeeWith e) := by
  rcases evaluateOperationWith_cases h with ⟨o, rfl, h⟩ | ⟨o, rfl, h⟩ | ⟨o, rfl, h⟩ | h
  · obtain ⟨_, _, -, -, heff⟩ := o.evaluate_effect h
    exact .ofRegistration heff rfl
  · obtain ⟨r, _, hr, -, heff⟩ := o.evaluate_effect h
    have hfee : Operation.registrationFeeWith e (.game (.update o)) =
        getGameRegistrationFee r.name.length := by
      rw [Operation.registrationFeeWith, hr]
      rfl
    rw [hfee]
    exact .ofRegistration heff rfl
  · exact (o.evaluate_feeMove h).feeStep
  · have hstep := evaluateOperation_feeStep h hL
    cases op with
    | game op => cases h
    | _ => exact hstep

theorem GamePlayOperation.evaluate_wellFormed {op : GamePlayOperation} {client : GameClient}
    {e e' : EvalState} (h : op.evaluate client e = .ok e') (hL : e.ledger.WellFormed) :
    e'.ledger.WellFormed := by
  simp only [evaluate, PlayResult.apply, bind_eq_ok, Prod.exists] at h
  obtain ⟨game, -, calls, result, -, m, hpaid, hdata⟩ := h
  have hcalls : (calls.foldl EvalState.playCall e).ledger.WellFormed := by
    refine List.foldlRecOn (motive := fun s : EvalState => s.ledger.WellFormed) calls
      EvalState.playCall hL fun s hs call _ => ?_
    rcases call with (r | r | _) | _
    · change (s.pending.storeBalanceRecord r).view.WellFormed
      rw [PendingLedger.view_storeBalanceRecord]
      exact hs.storeBalance r
    · change (s.pending.storeAssetRecord r).view.WellFormed
      rw [PendingLedger.view_storeAssetRecord]
      exact hs.storeAsset r
    · exact hs
    · exact hs
  have hm : m.ledger.WellFormed := by
    refine foldlM_induction (P := fun s : EvalState => s.ledger.WellFormed)
      (fun entry _ s s' hs hstep => ?_) hpaid hcalls
    simp only [EvalState.payOut, bind_eq_ok, require_eq_ok, expect_eq_ok, pure_eq_ok,
      exists_and_left, exists_const] at hstep
    obtain ⟨asset, -, -, -, date, -, rfl⟩ := hstep
    change (PendingLedger.view _).WellFormed
    rw [PendingLedger.view_storeBalanceRecord]
    exact hs.storeBalance _
  refine foldlM_induction (P := fun s : EvalState => s.ledger.WellFormed)
    (fun data _ s s' hs hstep => ?_) hdata hm
  cases data with
  | object index data =>
    simp only [EvalState.putData, bind_eq_ok, expect_eq_ok, pure_eq_ok] at hstep
    obtain ⟨index, -, rfl⟩ := hstep
    exact hs
  | number id => cases hstep; exact hs
  | other => cases hstep; exact hs

theorem evaluateOperationWith_wellFormed {client : GameClient} {e e' : EvalState} {op : Operation}
    (h : e.evaluateOperationWith client op = .ok e') (hL : e.ledger.WellFormed) :
    e'.ledger.WellFormed := by
  rcases evaluateOperationWith_cases h with ⟨o, rfl, h⟩ | ⟨o, rfl, h⟩ | ⟨o, rfl, h⟩ | h
  · obtain ⟨_, _, -, -, heff⟩ := o.evaluate_effect h
    rw [heff.ledger]
    refine Ledger.WellFormed.storeGame (L := e.ledger.setProperty ..)
      { hL with lastAccountId := ?_, lastAssetId := ?_ } _
    · rw [Ledger.counter_setProperty_ne _ _ (by decide)]
      exact hL.lastAccountId
    · rw [Ledger.counter_setProperty_ne _ _ (by decide)]
      exact hL.lastAssetId
  · obtain ⟨r, _, hr, -, heff⟩ := o.evaluate_effect h
    rw [heff.ledger]
    exact hL.storeGame _
  · exact o.evaluate_wellFormed h hL
  · exact evaluateOperation_wellFormed h hL

/-! ## The law -/

def registrationFees (trace : List (EvalState × Operation)) : ShareType :=
  (trace.map fun step => step.2.registrationFeeWith step.1).sum

theorem operationSteps_fees {client : GameClient} {e e' : EvalState} {ops : List Operation}
    (h : ops.foldlM (EvalState.operationStep client) e = .ok e') (hL : e.ledger.WellFormed)
    (hother : ∀ a, a ≠ 0 → (e.minFees.find a).isSome → (e.feesPaid.find a).isSome)
    {trace : List (EvalState × Operation)}
    (htrace : trace = foldTrace (EvalState.operationStep client) e ops) :
    e'.ledger.WellFormed ∧ e'.maxFees = e.maxFees ∧
    ((e'.feesPaid.find 0).isSome ↔
      (e.feesPaid.find 0).isSome ∨ ∃ step ∈ trace, step.2.movesBaseWith client step.1) ∧
    (∀ a, a ≠ 0 → (e'.minFees.find a).isSome → (e'.feesPaid.find a).isSome) ∧
    ((¬ ∃ step ∈ trace, step.2.movesBaseWith client step.1) →
      e'.minFees.getD 0 0 = e.minFees.getD 0 0 + registrationFees trace) := by
  induction ops generalizing e trace with
  | nil =>
    cases h
    subst htrace
    exact ⟨hL, rfl, by simp [foldTrace], hother, by simp [foldTrace, registrationFees]⟩
  | cons op ops ih =>
    rw [List.foldlM_cons, bind_eq_ok] at h
    obtain ⟨m', hm', hrest⟩ := h
    rw [foldTrace, hm'] at htrace
    rw [EvalState.operationStep, bind_eq_ok] at hm'
    obtain ⟨m, hm, hm'⟩ := hm'
    rw [pure_eq_ok] at hm'
    subst hm'
    have hstep := evaluateOperationWith_feeStep hm hL
    have hL' : m.ledger.WellFormed := evaluateOperationWith_wellFormed hm hL
    obtain ⟨hwf, hmax, hpaid, hmin, hbase⟩ := ih hrest hL'
      (fun a ha hma => (hstep.other a ha hma).elim (fun h => hstep.mono a (hother a ha h)) id) rfl
    refine ⟨hwf, hmax.trans hstep.maxFees, ?_, hmin, fun hno => ?_⟩
    · rw [hpaid, htrace, List.exists_mem_cons_iff, ← or_assoc]
      exact or_congr_left hstep.paid
    · rw [htrace, List.exists_mem_cons_iff, not_or, Bool.not_eq_true] at hno
      rw [hbase hno.2, htrace]
      change m.minFees.getD 0 0 + _ = _
      rw [hstep.base hno.1]
      simp [registrationFees, Int64.add_assoc]

/-- **The fee law holds exactly** for the transactions that move base shares at all, or owe no
registration fee. -/
theorem feeLaw_iff {client : GameClient} {ctx : EvalContext} {p : PendingLedger}
    {trx : SignedTransaction} {e₁ e' : EvalState} (hp : p.view.WellFormed)
    (h₁ : evaluateToFeesWith client ctx p trx = .ok e₁)
    (h : evaluateLedgerWith client ctx p trx = .ok e') :
    FeeLaw e₁ e' ↔
      (∃ step ∈ gameTrace client ctx p trx, step.2.movesBaseWith client step.1) ∨
        registrationFees (gameTrace client ctx p trx) ≤ 0 := by
  obtain ⟨e, e₂, p₃, total, h₁', h₂, h₃, h₄⟩ := evaluateLedgerWith_phases h
  obtain rfl : e = e₁ := Except.ok.inj (h₁'.symm.trans h₁)
  rw [evaluateToFeesWith, bind_eq_ok] at h₁
  obtain ⟨signers, hsigners, hops⟩ := h₁
  rw [gameTrace, hsigners]
  dsimp only
  generalize htrace : foldTrace (EvalState.operationStep client) (EvalState.start ctx p trx signers)
    trx.operations = trace
  obtain ⟨hwf, hmax, hpaid, hother, hbase⟩ :=
    operationSteps_fees hops hp (by simp [EvalState.start]) htrace.symm
  obtain ⟨hcoll, -, -, hbounds⟩ := EvalState.validateFees_effect hwf h₂
  have hpaid' : (e.feesPaid.find 0).isSome ↔
      ∃ step ∈ trace, step.2.movesBaseWith client step.1 := by
    simpa [EvalState.start] using hpaid
  have hbase' : (¬ ∃ step ∈ trace, step.2.movesBaseWith client step.1) →
      e.minFees.getD 0 0 = registrationFees trace := by
    simpa [EvalState.start, OrdMap.getD] using hbase
  constructor
  · intro hlaw
    by_cases hmoves : ∃ step ∈ trace, step.2.movesBaseWith client step.1
    · exact .inl hmoves
    · have hnone : e.feesPaid.find 0 = none := by
        rw [← Option.not_isSome_iff_eq_none, hpaid']; exact hmoves
      right
      rw [← hbase' hmoves]
      cases hm : e.minFees.find 0 with
      | none => simp [OrdMap.getD, hm]
      | some m => simpa [OrdMap.getD, hnone] using (hlaw 0 (.inl (by simp [hm]))).1
  · intro hcond a _
    refine ⟨?_, fun m hm => ?_, ?_⟩
    · cases hv : e.feesPaid.find a with
      | some v =>
        obtain ⟨h0, hmin, -⟩ := hbounds (a, v) (e.feesPaid.mem_entries_iff.2 hv)
        cases hm : e.minFees.find a with
        | none => simpa [OrdMap.getD, hm, hv] using h0
        | some m => simpa [OrdMap.getD, hm, hv] using hmin m hm
      | none =>
        by_cases ha : a = 0
        · subst ha
          have hmoves : ¬ ∃ step ∈ trace, step.2.movesBaseWith client step.1 := by
            rw [← hpaid', hv]
            simp
          rw [hbase' hmoves]
          simpa [OrdMap.getD, hv] using hcond.resolve_left hmoves
        · have : e.minFees.find a = none := by
            rw [← Option.not_isSome_iff_eq_none]
            intro hm
            have := hother a ha hm
            rw [hv] at this
            cases this
          simp [OrdMap.getD, hv, this]
    · rw [hmax] at hm
      cases hm
    · rw [Ledger.collectedFees, afterFees_rest h₃ h₄]
      exact collectedFees_of_collected hcoll a

end

/-! ## A registration that pays nothing -/

def registryTables : LedgerTables where
  properties := (Finmap.singleton .lastAccountId (.id 1)).insert .lastAssetId (.id 0)
  accounts := Finmap.singleton 1
    { id := 1, name := "owner", publicData := "", ownerKey := 7,
      activeKeyHistory := OrdMap.set ∅ 1 7, registrationDate := 1, lastUpdate := 1 }
  assets := Finmap.singleton 0
    { id := 0, symbol := "BTS", name := "BitShares", description := "", publicData := "",
      registrationDate := 1, lastUpdate := 1, maxSupply := MAX_SHARES, currentSupply := 1000000 }
  balances := Finmap.singleton (WithdrawCondition.code (.withSignature 7 0 0))
    { condition := .withSignature 7 0 0, balance := 1000000 }
  games := Finmap.singleton 1
    { id := 1, name := "roulette", description := "", publicData := "", ownerAccountId := 1,
      scriptCode := "", registrationDate := 1, lastUpdate := 1 }

def registryContext : EvalContext where
  now := 100
  headBlockNum := 1
  activeFeedPrice _ := none
  skipSignatureCheck := false

def bareRegistration : SignedTransaction where
  expiration := 200
  operations :=
    [.registerAccount { name := "alice-long", publicData := "", ownerKey := 8, activeKey := 9 }]
  signatures := [7]

/-- The registration and an update of the game, with the fees of both. -/
def paidRegistration : SignedTransaction :=
  { bareRegistration with
    operations := .withdraw ⟨(WithdrawCondition.withSignature 7 0 0).code, 200000⟩ ::
      .game (.update ⟨1, "", "", "fair"⟩) :: bareRegistration.operations }

theorem feeLaw_paidRegistration :
    letI := Crypto.transparent
    ∃ e₁ e', evaluateToFeesWith idleClient registryContext (.over registryTables)
        paidRegistration = .ok e₁ ∧
      evaluateLedgerWith idleClient registryContext (.over registryTables)
        paidRegistration = .ok e' ∧ FeeLaw e₁ e' := by
  let := Crypto.transparent
  obtain ⟨e', h'⟩ := exists_ok_of_isOk (x := evaluateLedgerWith idleClient registryContext
    (.over registryTables) paidRegistration) (by decide +kernel)
  obtain ⟨e₁, _, _, _, h₁, -⟩ := evaluateLedgerWith_phases h'
  exact ⟨e₁, e', h₁, h', (feeLaw_iff (by decide +kernel) h₁ h').2 (.inl (by decide +kernel))⟩

/-- The registration alone is accepted, and nobody pays its fee of one `PRECISION`. -/
theorem bareRegistration_unpaid :
    letI := Crypto.transparent
    ∃ e₁ e', evaluateToFeesWith idleClient registryContext (.over registryTables)
        bareRegistration = .ok e₁ ∧
      evaluateLedgerWith idleClient registryContext (.over registryTables)
        bareRegistration = .ok e' ∧
      e₁.minFees.getD 0 0 = PRECISION ∧ e₁.feesPaid.getD 0 0 = 0 ∧ ¬ FeeLaw e₁ e' := by
  let := Crypto.transparent
  refine ⟨_, _, rfl, rfl, by decide +kernel, by decide +kernel, fun h => ?_⟩
  exact absurd (h 0 (.inl (by decide +kernel))).1 (by decide +kernel)

end BitShares
