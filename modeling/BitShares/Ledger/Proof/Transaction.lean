import BitShares.Ledger.Proof.Operations

/-!
# What a transaction does

`evaluateLedger` runs the operations, then the fee check, then the vote deltas, then the
reputation.  `evaluateLedger_phases` splits an accepted transaction at these points;
`evaluateOperations_induction` and the `…_effect` lemmas of the later phases carry an invariant
through them.  `evaluateOperation_effect` sums up the operations: the records each stores, and what
it leaves alone (`evaluateOperation_leaves`).
-/

namespace BitShares

open Relation

variable [Crypto]

def EvalState.next (e : EvalState) : EvalState := { e with currentOpIndex := e.currentOpIndex + 1 }

def EvalState.trace : EvalState → List Operation → List (EvalState × Operation)
  | _, [] => []
  | e, op :: rest =>
    (e, op) :: match e.evaluateOperation op with
      | .ok e' => trace e'.next rest
      | .error _ => []

theorem evaluateOperations_cons {e e' : EvalState} {op : Operation} {ops : List Operation}
    (h : e.evaluateOperations (op :: ops) = .ok e') :
    ∃ m, e.evaluateOperation op = .ok m ∧ m.next.evaluateOperations ops = .ok e' ∧
      e.trace (op :: ops) = (e, op) :: m.next.trace ops := by
  rw [EvalState.evaluateOperations, bind_eq_ok] at h
  obtain ⟨m, hm, hrest⟩ := h
  exact ⟨m, hm, hrest, by rw [EvalState.trace, hm]⟩

/-- What every operation of the trace preserves holds after the operations. -/
theorem evaluateOperations_induction {P : EvalState → Prop} {e e' : EvalState}
    {ops : List Operation} (hnext : ∀ e, P e → P e.next)
    (hstep : ∀ s op s', (s, op) ∈ e.trace ops → P s → s.evaluateOperation op = .ok s' → P s')
    (h : e.evaluateOperations ops = .ok e') (he : P e) : P e' := by
  induction ops generalizing e with
  | nil => cases h; exact he
  | cons op ops ih =>
    obtain ⟨m, hm, hrest, htrace⟩ := evaluateOperations_cons h
    rw [htrace] at hstep
    exact ih (fun s o s' hmem => hstep s o s' (List.mem_cons_of_mem _ hmem)) hrest
      (hnext m (hstep e op m List.mem_cons_self he hm))

theorem mem_of_mem_trace {e s : EvalState} {ops : List Operation} {op : Operation}
    (h : (s, op) ∈ e.trace ops) : op ∈ ops := by
  induction ops generalizing e with
  | nil => simp [EvalState.trace] at h
  | cons o ops ih =>
    rw [EvalState.trace] at h
    rcases List.mem_cons.1 h with heq | h
    · cases heq; exact List.mem_cons_self
    · split at h
      · exact List.mem_cons_of_mem _ (ih h)
      · cases h

/-- Every step of the trace of a successful run succeeds, in a state that has what the run
preserves. -/
theorem trace_step {P : EvalState → Prop} {e e' : EvalState} {ops : List Operation}
    (hnext : ∀ e, P e → P e.next)
    (hstep : ∀ s op s', P s → s.evaluateOperation op = .ok s' → P s')
    (h : e.evaluateOperations ops = .ok e') (he : P e) {s : EvalState} {op : Operation}
    (hmem : (s, op) ∈ e.trace ops) : P s ∧ ∃ s', s.evaluateOperation op = .ok s' := by
  induction ops generalizing e with
  | nil => simp [EvalState.trace] at hmem
  | cons o ops ih =>
    obtain ⟨m, hm, hrest, htrace⟩ := evaluateOperations_cons h
    rw [htrace] at hmem
    rcases List.mem_cons.1 hmem with heq | hmem
    · cases heq
      exact ⟨he, m, hm⟩
    · exact ih hrest (hnext m (hstep e o m he hm)) hmem

/-- A value that every step computes from the one before it. -/
theorem trace_foldl {α : Type} {P : EvalState → Prop} {g : EvalState → α}
    {f : α → EvalState × Operation → α} {e e' : EvalState} {ops : List Operation}
    (hnext : ∀ e, P e → P e.next) (hsame : ∀ e, g e.next = g e)
    (hstep : ∀ s op s', (s, op) ∈ e.trace ops → P s → s.evaluateOperation op = .ok s' →
      P s' ∧ g s' = f (g s) (s, op))
    (h : e.evaluateOperations ops = .ok e') (he : P e) :
    P e' ∧ g e' = (e.trace ops).foldl f (g e) := by
  induction ops generalizing e with
  | nil =>
    cases h
    exact ⟨he, rfl⟩
  | cons op ops ih =>
    obtain ⟨m, hm, hrest, htrace⟩ := evaluateOperations_cons h
    rw [htrace] at hstep ⊢
    obtain ⟨hPm, hgm⟩ := hstep e op m List.mem_cons_self he hm
    obtain ⟨hP, hg⟩ := ih (fun s o s' hmem => hstep s o s' (List.mem_cons_of_mem _ hmem)) hrest
      (hnext m hPm)
    refine ⟨hP, ?_⟩
    rw [hg, hsame, hgm, List.foldl_cons]

/-! ## Lists of amounts -/

section

variable {K : Type} [LinearOrder K]

def amountAt (l : List (K × ShareType)) (k : K) : ShareType :=
  (l.map fun entry => if entry.1 = k then entry.2 else 0).sum

omit [Crypto] in
theorem amountAt_of_notMem {l : List (K × ShareType)} {k : K} (h : k ∉ l.map (·.1)) :
    amountAt l k = 0 := by
  induction l with
  | nil => rfl
  | cons entry l ih =>
    rw [List.map_cons, List.mem_cons, not_or] at h
    simpa [amountAt, Ne.symm h.1] using ih h.2

omit [Crypto] in
theorem amountAt_entries (m : OrdMap K ShareType) (k : K) :
    amountAt m.entries k = m.getD k 0 := by
  have hnodup := m.nodup_keys
  unfold OrdMap.getD OrdMap.find
  revert hnodup
  generalize m.entries = l
  intro hnodup
  induction l with
  | nil => rfl
  | cons entry l ih =>
    rw [List.map_cons, List.nodup_cons] at hnodup
    by_cases hk : entry.1 = k
    · subst hk
      simpa [amountAt, OrdMap.findEntries] using amountAt_of_notMem hnodup.1
    · simpa [amountAt, OrdMap.findEntries, hk, Ne.symm hk] using ih hnodup.2

end

/-! ## Fees -/

omit [Crypto] in
theorem EvalState.validateFee_effect {e e' : EvalState} {fee : AssetId × ShareType}
    (h : e.validateFee fee = .ok e') :
    0 ≤ fee.2 ∧ (∀ m, e.minFees.find fee.1 = some m → m ≤ fee.2) ∧
      (∀ m, e.maxFees.find fee.1 = some m → fee.2 ≤ m) ∧
      ((fee.2 = 0 ∧ e' = e) ∨
        ∃ asset, e.ledger.assets.lookup fee.1 = some asset ∧
          Effect e e'
            (e.ledger.storeAsset { asset with collectedFees := asset.collectedFees + fee.2 })
            e.feesPaid e.minFees e.delegateVoteDeltas) := by
  simp only [validateFee, bind_eq_ok, require_eq_ok, exists_and_left, exists_const] at h
  obtain ⟨hnn, hmin, hmax, h⟩ := h
  refine ⟨hnn, fun m hm => by simpa [hm] using hmin, fun m hm => by simpa [hm] using hmax, ?_⟩
  split at h
  · simp only [bind_eq_ok, expect_eq_ok, pure_eq_ok, PendingLedger.getAssetRecord_eq] at h
    obtain ⟨asset, hasset, rfl⟩ := h
    exact .inr ⟨asset, hasset, .of_pending rfl rfl (by simp)⟩
  · rename_i h0
    exact .inl ⟨not_not.1 h0, (pure_eq_ok.1 h).symm⟩

/-! ## Votes and reputation -/

theorem PendingLedger.adjustVotesFor_effect {p p' : PendingLedger} {delta : AccountId × ShareType}
    (h : p.adjustVotesFor delta = .ok p') :
    ∃ r d, p.view.accounts.lookup delta.1 = some r ∧ r.delegateInfo = some d ∧
      p'.view = p.view.storeAccount
        { r with delegateInfo := some { d with votesFor := d.votesFor + delta.2 } } := by
  simp only [adjustVotesFor, bind_eq_ok, expect_eq_ok, pure_eq_ok, getAccountRecord_eq] at h
  obtain ⟨r, hr, d, hd, rfl⟩ := h
  exact ⟨r, d, hr, hd, view_storeAccountRecord _ _⟩

theorem PendingLedger.adjustVotesFor_rest {p p' : PendingLedger} {l : List (AccountId × ShareType)}
    (h : l.foldlM PendingLedger.adjustVotesFor p = .ok p') :
    p'.view = { p.view with accounts := p'.view.accounts } := by
  refine foldlM_induction (P := fun q => q.view = { p.view with accounts := q.view.accounts })
    (fun delta _ q q' hq hstep => ?_) h rfl
  obtain ⟨r, d, -, -, hq'⟩ := adjustVotesFor_effect hstep
  rw [hq', hq]
  rfl

theorem EvalState.updateRpValues_effect {e e' : EvalState} (h : e.updateRpValues = .ok e') :
    e' = e ∨ ∃ id r r', e.ledger.accounts.lookup id = some r ∧ r.SameStanding r' ∧
      Effect e e' (e.ledger.storeAccount r') e.feesPaid e.minFees e.delegateVoteDeltas := by
  unfold updateRpValues at h
  split at h
  · cases h; exact .inl rfl
  · rename_i id _
    simp only [bind_eq_ok, expect_eq_ok, pure_eq_ok, PendingLedger.getAccountRecord_eq] at h
    obtain ⟨r, hr, rfl⟩ := h
    exact .inr ⟨id, r, { r with rp := r.rp + e.totalBaseEquivalentFeesPaid }, hr,
      ⟨rfl, rfl, rfl, fun h => h⟩, .of_pending rfl rfl (by simp)⟩

theorem EvalState.updateRpValues_record {e e' : EvalState} (h : e.updateRpValues = .ok e') :
    e' = e ∨ ∃ id r rp, e.ledger.accounts.lookup id = some r ∧
      e'.ledger.accounts = e.ledger.accounts.insert r.id { r with rp := rp } := by
  unfold updateRpValues at h
  split at h
  · cases h; exact .inl rfl
  · rename_i id _
    simp only [bind_eq_ok, expect_eq_ok, pure_eq_ok, PendingLedger.getAccountRecord_eq] at h
    obtain ⟨r, hr, rfl⟩ := h
    refine .inr ⟨id, r, r.rp + e.totalBaseEquivalentFeesPaid, hr, ?_⟩
    change (PendingLedger.view _).accounts = _
    rw [PendingLedger.view_storeAccountRecord]
    rfl

/-- The states in which the operations of a transaction start, with the operations. -/
def transactionTrace (ctx : EvalContext) (p : PendingLedger) (trx : SignedTransaction) :
    List (EvalState × Operation) :=
  match signersOf ctx trx with
  | .ok signers => (EvalState.start ctx p trx signers).trace trx.operations
  | .error _ => []

theorem evaluateToFees_eq_ok {ctx : EvalContext} {p : PendingLedger} {trx : SignedTransaction}
    {e₁ : EvalState} (h : evaluateToFees ctx p trx = .ok e₁) :
    ∃ signers, (EvalState.start ctx p trx signers).evaluateOperations trx.operations = .ok e₁ ∧
      transactionTrace ctx p trx = (EvalState.start ctx p trx signers).trace trx.operations := by
  rw [evaluateToFees, bind_eq_ok] at h
  obtain ⟨signers, hsigners, h⟩ := h
  exact ⟨signers, h, by rw [transactionTrace, hsigners]⟩

/-- **The phases of an accepted transaction.**  `e₁` is the state after the operations, `e₂` the
one after the fee check, and `p₃` the pending state after the vote deltas. -/
theorem evaluateLedger_phases {ctx : EvalContext} {p : PendingLedger} {trx : SignedTransaction}
    {e' : EvalState} (h : evaluateLedger ctx p trx = .ok e') :
    ∃ e₁ e₂ p₃ total, evaluateToFees ctx p trx = .ok e₁ ∧
      e₁.feesPaid.entries.foldlM EvalState.validateFee e₁ = .ok e₂ ∧
      e₂.delegateVoteDeltas.entries.foldlM PendingLedger.adjustVotesFor e₂.pending = .ok p₃ ∧
      EvalState.updateRpValues
        { e₂ with totalBaseEquivalentFeesPaid := total, pending := p₃ } = .ok e' := by
  simp only [evaluateLedger, bind_eq_ok, EvalState.calculateBaseEquivalentFees,
    EvalState.updateDelegateVotes, pure_eq_ok, exists_exists_and_eq_and] at h
  obtain ⟨e₁, h₁, e₂, h₂, total, -, p₃, h₃, h₄⟩ := h
  exact ⟨e₁, e₂, p₃, total, h₁, h₂, h₃, h₄⟩

theorem afterFees_rest {e₂ e' : EvalState} {p₃ : PendingLedger} {total : ShareType}
    (h₃ : e₂.delegateVoteDeltas.entries.foldlM PendingLedger.adjustVotesFor e₂.pending = .ok p₃)
    (h₄ : EvalState.updateRpValues
      { e₂ with totalBaseEquivalentFeesPaid := total, pending := p₃ } = .ok e') :
    e'.ledger = { e₂.ledger with accounts := e'.ledger.accounts } := by
  have hvotes := PendingLedger.adjustVotesFor_rest h₃
  rcases EvalState.updateRpValues_effect h₄ with rfl | ⟨id, r, r', hr, hsame, heff⟩
  · exact hvotes
  · rw [heff.ledger]
    change p₃.view.storeAccount r' = _
    rw [hvotes]
    rfl

/-! ## What an operation stores -/

inductive LedgerPart where
  | accounts
  | assets
  | games
  | slates
  | balances
  | packets
  | rewards
  | votes
  deriving DecidableEq

def Operation.writes : Operation → List LedgerPart
  | .withdraw _ => [.assets, .balances, .votes]
  | .deposit _ => [.balances, .votes]
  | .registerAccount _ => [.accounts]
  | .updateAccount _ => [.accounts]
  | .withdrawPay _ => [.accounts, .votes]
  | .updateSigningKey _ => [.accounts]
  | .createAsset _ => [.games, .assets]
  | .issueAsset _ => [.assets]
  | .assetUpdateProperties _ => [.assets]
  | .assetUpdatePermissions _ => [.assets]
  | .assetUpdateWhitelist _ => [.assets]
  | .defineSlate _ => [.slates]
  | .burn _ => [.assets]
  | .ad _ => [.balances]
  | .note _ => [.rewards]
  | .redPacket _ => [.packets]
  | .claimPacket _ => [.balances, .packets]
  | .updateBalanceVote _ => [.balances, .votes]
  | .buyChips _ => [.balances, .assets]
  | _ => []

/-- One record is stored, a new one together with the counter that gave it its id. -/
inductive Ledger.Store : LedgerPart → Ledger → Ledger → Prop
  | register {L : Ledger} {r : AccountRecord} (hlast : L.counter .lastAccountId = some (r.id - 1)) :
      Store .accounts L ((L.setProperty .lastAccountId (.id r.id)).storeAccount r)
  | account {L : Ledger} {id : AccountId} {r r' : AccountRecord}
      (hr : L.accounts.lookup id = some r) (hid : r'.id = r.id) :
      Store .accounts L (L.storeAccount r')
  | newAsset {L : Ledger} {id : AssetId} (hlast : L.counter .lastAssetId = some (id - 1))
      (r : AssetRecord) : Store .assets L ((L.setProperty .lastAssetId (.id id)).storeAsset r)
  | asset {L : Ledger} (r : AssetRecord) : Store .assets L (L.storeAsset r)
  | game {L : Ledger} (r : GameRecord) : Store .games L (L.storeGame r)
  | slate {L : Ledger} (r : SlateRecord) : Store .slates L (L.storeSlate r)
  | balance {L : Ledger} (r : BalanceRecord) : Store .balances L (L.storeBalance r)
  | packet {L : Ledger} (r : PacketRecord)
      (hr : (L.packets.All fun _ r => ∀ s ∈ r.claimStatuses, s.amount.assetId = r.amount.assetId) →
        ∀ s ∈ r.claimStatuses, s.amount.assetId = r.amount.assetId) :
      Store .packets L (L.storePacket r)
  | reward {L : Ledger} (r : OperationRewardRecord) : Store .rewards L (L.storeReward r)

abbrev Ledger.Stores (parts : List LedgerPart) : Ledger → Ledger → Prop :=
  ReflTransGen fun L M => ∃ part, parts.contains part ∧ Ledger.Store part L M

/-- The games are those of `L`, one of them perhaps stored again. -/
def Ledger.KeepsGames (L L' : Ledger) : Prop :=
  L'.games = L.games ∨
    ∃ id game, L.games.lookup id = some game ∧ L'.games = L.games.insert game.id game

/-- **What an operation does**, one case for each: it changes the ledger, the fees and the vote
deltas only, stores records of the parts it writes, and changes no game. -/
theorem evaluateOperation_effect {e e' : EvalState} {op : Operation}
    (h : e.evaluateOperation op = .ok e') :
    ∃ L feesPaid minFees deltas, Effect e e' L feesPaid minFees deltas ∧ e.ledger.KeepsGames L ∧
      Ledger.Stores op.writes e.ledger L ∧
      (op.writes.contains .votes = false → deltas = e.delegateVoteDeltas) := by
  cases op with
  | withdraw op =>
    obtain ⟨-, r, _, asset, y, r', _, _, -, -, -, -, -, -, -, -, -, -, heff⟩ := op.evaluate_effect h
    refine ⟨_, _, _, _, heff, .inl (by split <;> rfl), ?_, fun h => nomatch h⟩
    split
    · exact .single ⟨_, rfl, .balance r'⟩
    · exact .tail (.single ⟨_, rfl, .asset _⟩) ⟨_, rfl, .balance r'⟩
  | deposit op =>
    obtain ⟨-, -, _, _, _, -, -, heff⟩ := op.evaluate_effect h
    exact ⟨_, _, _, _, heff, .inl rfl, .single ⟨_, rfl, .balance _⟩, fun h => nomatch h⟩
  | registerAccount op =>
    obtain ⟨_, _, _, hlast, -, -, -, heff⟩ := op.evaluate_effect h
    exact ⟨_, _, _, _, heff, .inl rfl, .single ⟨_, rfl, .register hlast⟩, fun _ => rfl⟩
  | updateAccount op =>
    obtain ⟨_, _, _, hr, hsame, -, heff⟩ := op.evaluate_effect h
    exact ⟨_, _, _, _, heff, .inl rfl, .single ⟨_, rfl, .account hr hsame.id⟩, fun _ => rfl⟩
  | withdrawPay op =>
    obtain ⟨-, _, _, hr, -, -, heff⟩ := op.evaluate_effect h
    exact ⟨_, _, _, _, heff, .inl rfl, .single ⟨_, rfl, .account hr rfl⟩, fun h => nomatch h⟩
  | createAsset op =>
    obtain ⟨id, _, L, hgame, hlast, -, -, -, heff⟩ := op.evaluate_effect h
    rcases hgame with rfl | ⟨game, hgame, rfl⟩
    · exact ⟨_, _, _, _, heff, .inl rfl, .single ⟨_, rfl, .newAsset hlast _⟩, fun _ => rfl⟩
    · have hlast' : (e.ledger.storeGame game).counter .lastAssetId = some (id - 1) := hlast
      exact ⟨_, _, _, _, heff, .inr ⟨op.issuerId, game, hgame, rfl⟩,
        .tail (.single ⟨_, rfl, .game game⟩) ⟨_, rfl, .newAsset hlast' _⟩, fun _ => rfl⟩
  | issueAsset op =>
    obtain ⟨-, _, _, -, -, -, -, -, -, -, -, heff⟩ := op.evaluate_effect h
    exact ⟨_, _, _, _, heff, .inl rfl, .single ⟨_, rfl, .asset _⟩, fun _ => rfl⟩
  | assetUpdateProperties op =>
    obtain ⟨_, _, -, -, -, heff⟩ := op.evaluate_effect h
    exact ⟨_, _, _, _, heff, .inl rfl, .single ⟨_, rfl, .asset _⟩, fun _ => rfl⟩
  | assetUpdatePermissions op =>
    obtain ⟨_, _, -, -, -, heff⟩ := op.evaluate_effect h
    exact ⟨_, _, _, _, heff, .inl rfl, .single ⟨_, rfl, .asset _⟩, fun _ => rfl⟩
  | assetUpdateWhitelist op =>
    obtain ⟨_, _, -, -, heff⟩ := op.evaluate_effect h
    exact ⟨_, _, _, _, heff, .inl rfl, .single ⟨_, rfl, .asset _⟩, fun _ => rfl⟩
  | defineSlate op =>
    rcases op.evaluate_effect h with rfl | ⟨record, -, -, heff⟩
    · exact ⟨_, _, _, _, .refl _, .inl rfl, .refl, fun _ => rfl⟩
    · exact ⟨_, _, _, _, heff, .inl rfl, .single ⟨_, rfl, .slate record⟩, fun _ => rfl⟩
  | burn op =>
    obtain ⟨-, _, -, heff⟩ := op.evaluate_effect h
    exact ⟨_, _, _, _, heff, .inl rfl, .single ⟨_, rfl, .asset _⟩, fun _ => rfl⟩
  | ad op =>
    obtain ⟨_, _, -, -, -, -, heff⟩ := op.evaluate_effect h
    exact ⟨_, _, _, _, heff, .inl rfl, .single ⟨_, rfl, .balance _⟩, fun _ => rfl⟩
  | note op =>
    obtain ⟨_, -, -, heff⟩ := op.evaluate_effect h
    exact ⟨_, _, _, _, heff, .inl rfl, .single ⟨_, rfl, .reward _⟩, fun _ => rfl⟩
  | redPacket op =>
    obtain ⟨-, -, -, -, -, -, -, -, heff⟩ := op.evaluate_effect h
    refine ⟨_, _, _, _, heff, .inl rfl, .single ⟨_, rfl, .packet _ fun _ s hs => ?_⟩, fun _ => rfl⟩
    obtain ⟨a, -, rfl⟩ := List.mem_map.1 hs
    rfl
  | claimPacket op =>
    obtain ⟨_, packet, -, hpacket, ⟨-, rfl⟩ | ⟨status, hstatus, -, heff⟩⟩ := op.evaluate_effect h
    · exact ⟨_, _, _, _, .refl _, .inl rfl, .refl, fun _ => rfl⟩
    · refine ⟨_, _, _, _, heff, .inl rfl, .tail (.single ⟨_, rfl, .balance _⟩)
        ⟨_, rfl, .packet _ fun hold s hs => ?_⟩, fun _ => rfl⟩
      rcases List.mem_or_eq_of_mem_set hs with hs | rfl
      · exact hold _ packet hpacket s hs
      · exact hold _ packet hpacket status (List.mem_of_getElem? hstatus)
  | updateSigningKey op =>
    obtain ⟨_, _, hr, hsame, heff⟩ := op.evaluate_effect h
    exact ⟨_, _, _, _, heff, .inl rfl, .single ⟨_, rfl, .account hr hsame.id⟩, fun _ => rfl⟩
  | updateBalanceVote op =>
    obtain ⟨_, _, _, _, r', _, _, _, -, -, -, -, -, -, -, -, -, -, heff⟩ := op.evaluate_effect h
    exact ⟨_, _, _, _, heff, .inl rfl, .tail (.single ⟨_, rfl, .balance _⟩) ⟨_, rfl, .balance r'⟩,
      fun h => nomatch h⟩
  | data op => cases h; exact ⟨_, _, _, _, .refl _, .inl rfl, .refl, fun _ => rfl⟩
  | buyChips op =>
    obtain ⟨-, _, b, _, -, -, -, -, heff⟩ := op.evaluate_effect h
    exact ⟨_, _, _, _, heff, .inl rfl, .tail (.single ⟨_, rfl, .balance b⟩) ⟨_, rfl, .asset _⟩,
      fun _ => rfl⟩
  | game op => cases h
  | unregistered type => cases h

theorem evaluateOperation_stores {e e' : EvalState} {op : Operation}
    (h : e.evaluateOperation op = .ok e') : Ledger.Stores op.writes e.ledger e'.ledger := by
  obtain ⟨L, _, _, _, heff, -, hstores, -⟩ := evaluateOperation_effect h
  exact heff.ledger ▸ hstores

theorem evaluateOperation_deltas {e e' : EvalState} {op : Operation}
    (h : e.evaluateOperation op = .ok e') (hop : op.writes.contains .votes = false) :
    e'.delegateVoteDeltas = e.delegateVoteDeltas := by
  obtain ⟨L, _, _, _, heff, -, -, hdeltas⟩ := evaluateOperation_effect h
  exact heff.deltas.trans (hdeltas hop)

structure Ledger.Leaves (parts : List LedgerPart) (L M : Ledger) : Prop where
  accounts : parts.contains .accounts = false → M.accounts = L.accounts
  assets : parts.contains .assets = false → M.assets = L.assets
  slates : parts.contains .slates = false → M.slates = L.slates
  balances : parts.contains .balances = false → M.balances = L.balances
  packets : parts.contains .packets = false → M.packets = L.packets

theorem Ledger.Stores.leaves {parts : List LedgerPart} {L M : Ledger}
    (h : Ledger.Stores parts L M) : L.Leaves parts M := by
  induction h with
  | refl => exact ⟨fun _ => rfl, fun _ => rfl, fun _ => rfl, fun _ => rfl, fun _ => rfl⟩
  | tail _ hstep ih =>
    obtain ⟨part, hpart, hstore⟩ := hstep
    have hwritten : ∀ {P : Prop}, parts.contains part = false → P := fun hno =>
      absurd (hpart.symm.trans hno) (by decide)
    cases hstore with
    | register | account => exact { ih with accounts := hwritten }
    | newAsset | asset => exact { ih with assets := hwritten }
    | slate => exact { ih with slates := hwritten }
    | balance => exact { ih with balances := hwritten }
    | packet => exact { ih with packets := hwritten }
    | game | reward => exact { ih with }

theorem evaluateOperation_leaves {e e' : EvalState} {op : Operation}
    (h : e.evaluateOperation op = .ok e') : e.ledger.Leaves op.writes e'.ledger :=
  (evaluateOperation_stores h).leaves

theorem evaluateOperation_storeInduction {I : Ledger → Prop} {e e' : EvalState} {op : Operation}
    (hstore : ∀ {part L M}, Ledger.Store part L M → I L → I M)
    (h : e.evaluateOperation op = .ok e') (hI : I e.ledger) : I e'.ledger := by
  have hstores := evaluateOperation_stores h
  generalize e'.ledger = M at hstores
  induction hstores with
  | refl => exact hI
  | tail _ hstep ih =>
    obtain ⟨part, -, hstep⟩ := hstep
    exact hstore hstep ih

/-- **A transaction** stores records, and does nothing else to the ledger. -/
theorem evaluateLedger_storeInduction {I : Ledger → Prop} {ctx : EvalContext} {p : PendingLedger}
    {trx : SignedTransaction} {e' : EvalState}
    (hstore : ∀ {part L M}, Ledger.Store part L M → I L → I M)
    (h : evaluateLedger ctx p trx = .ok e') (hI : I p.view) : I e'.ledger := by
  obtain ⟨e₁, e₂, p₃, total, h₁, h₂, h₃, h₄⟩ := evaluateLedger_phases h
  obtain ⟨signers, hops, -⟩ := evaluateToFees_eq_ok h₁
  have hs₁ : I e₁.ledger := evaluateOperations_induction (P := fun e => I e.ledger) (fun _ h => h)
    (fun _ _ _ _ hs h => evaluateOperation_storeInduction hstore h hs) hops hI
  have hs₂ : I e₂.ledger := by
    refine foldlM_induction (P := fun e : EvalState => I e.ledger) (fun fee _ e e' he hfee => ?_)
      h₂ hs₁
    obtain ⟨-, -, -, ⟨-, rfl⟩ | ⟨asset, -, heff⟩⟩ := EvalState.validateFee_effect hfee
    · exact he
    · exact heff.ledger ▸ hstore (.asset _) he
  have hs₃ : I p₃.view := by
    refine foldlM_induction (P := fun q : PendingLedger => I q.view)
      (fun delta _ q q' hq hstep => ?_) h₃ hs₂
    obtain ⟨r, d, hr, -, hq'⟩ := PendingLedger.adjustVotesFor_effect hstep
    exact hq' ▸ hstore (.account hr rfl) hq
  rcases EvalState.updateRpValues_effect h₄ with rfl | ⟨id, r, r', hr, hsame, heff⟩
  · exact hs₃
  · exact heff.ledger ▸ hstore (.account hr hsame.id) hs₃

theorem evaluateOperation_below {e e' : EvalState} {op : Operation}
    (h : e.evaluateOperation op = .ok e') : e'.pending.below = e.pending.below := by
  obtain ⟨L, f, m, d, heff, -⟩ := evaluateOperation_effect h
  exact heff.below

theorem afterOperations_below {e₁ e₂ e' : EvalState} {p₃ : PendingLedger} {total : ShareType}
    (h₂ : e₁.feesPaid.entries.foldlM EvalState.validateFee e₁ = .ok e₂)
    (h₃ : e₂.delegateVoteDeltas.entries.foldlM PendingLedger.adjustVotesFor e₂.pending = .ok p₃)
    (h₄ : EvalState.updateRpValues
      { e₂ with totalBaseEquivalentFeesPaid := total, pending := p₃ } = .ok e') :
    e'.pending.below = e₁.pending.below := by
  have hfees : e₂.pending.below = e₁.pending.below := by
    refine foldlM_induction (P := fun e => e.pending.below = e₁.pending.below)
      (fun fee _ e e' he hfee => ?_) h₂ rfl
    obtain ⟨-, -, -, ⟨-, rfl⟩ | ⟨asset, -, heff⟩⟩ := EvalState.validateFee_effect hfee
    · exact he
    · exact heff.below.trans he
  have hvotes : p₃.below = e₂.pending.below := by
    refine foldlM_induction (P := fun q => q.below = e₂.pending.below)
      (fun delta _ q q' hq hstep => ?_) h₃ rfl
    simp only [PendingLedger.adjustVotesFor, bind_eq_ok, expect_eq_ok, pure_eq_ok] at hstep
    obtain ⟨r, -, d, -, rfl⟩ := hstep
    exact hq
  have hrp : e'.pending.below = p₃.below := by
    rcases EvalState.updateRpValues_effect h₄ with rfl | ⟨id, r, r', -, -, heff⟩
    · rfl
    · exact heff.below
  rw [hrp, hvotes, hfees]

theorem evaluateLedger_below {ctx : EvalContext} {p : PendingLedger} {trx : SignedTransaction}
    {e' : EvalState} (h : evaluateLedger ctx p trx = .ok e') : e'.pending.below = p.below := by
  obtain ⟨e₁, e₂, p₃, total, h₁, h₂, h₃, h₄⟩ := evaluateLedger_phases h
  obtain ⟨signers, hops, -⟩ := evaluateToFees_eq_ok h₁
  rw [afterOperations_below h₂ h₃ h₄]
  exact evaluateOperations_induction (P := fun e => e.pending.below = p.below) (fun _ he => he)
    (fun s op s' _ hs hstep => (evaluateOperation_below hstep).trans hs) hops rfl

/-! ## Runs of transactions -/

/-- A sequence of accepted transactions, each evaluated against what the ones before it left, at any
time and head.  Between two of them the pending ledger may be applied to the database, which leaves
what it shows. -/
inductive TransactionRun (p : PendingLedger) : PendingLedger → Prop
  | refl : TransactionRun p p
  | step {q : PendingLedger} {ctx : EvalContext} {trx : SignedTransaction} {e : EvalState}
      (hrun : TransactionRun p q) (h : evaluateLedger ctx q trx = .ok e) :
      TransactionRun p e.pending
  | rebase {q q' : PendingLedger} (hrun : TransactionRun p q) (hview : q'.view = q.view) :
      TransactionRun p q'

theorem TransactionRun.induction {I : Ledger → Prop} {p p' : PendingLedger}
    (hrun : TransactionRun p p')
    (hstep : ∀ ctx q trx e, evaluateLedger ctx q trx = .ok e → I q.view → I e.ledger)
    (hp : I p.view) : I p'.view := by
  induction hrun with
  | refl => exact hp
  | step _ h ih => exact hstep _ _ _ _ h ih
  | rebase _ hview ih => exact hview ▸ ih

end BitShares
