import BitShares.Ledger.View

/-!
# What each operation does

One lemma per registered operation.  `X.evaluate_effect` takes a successful evaluation apart: the
guards that held, the records that were read, and an `Effect`, which says how the plain ledger,
the fee maps and the vote deltas changed and that nothing else did.  Every invariant of the
ledger is derived from these lemmas; no other proof unfolds an evaluator.
-/

namespace BitShares

/-- `e'` is `e` with the given ledger, fees and vote deltas. -/
structure Effect (e e' : EvalState) (L : Ledger) (feesPaid minFees : OrdMap AssetId ShareType)
    (deltas : OrdMap AccountId ShareType) : Prop where
  ctx : e'.ctx = e.ctx
  trx : e'.trx = e.trx
  signedAddresses : e'.signedAddresses = e.signedAddresses
  maxFees : e'.maxFees = e.maxFees
  below : e'.pending.below = e.pending.below
  /-- Notes on record stay there. -/
  notes : ∀ i r, e.pending.notes.lookup i = some r → e'.pending.notes.lookup i = some r
  ledger : e'.ledger = L
  feesPaid : e'.feesPaid = feesPaid
  minFees : e'.minFees = minFees
  deltas : e'.delegateVoteDeltas = deltas

/-- Where an operation writes the ledger, the fees and the votes, only the ledger is to be looked
at. -/
theorem Effect.of_pending {e : EvalState} {p : PendingLedger} {L : Ledger} {base : ShareType}
    {f m y : OrdMap AssetId ShareType} {d : OrdMap AccountId ShareType}
    {o : OrdMap Nat (OrdMap AssetId ShareType)} {rp : Option AccountId} {i : Nat}
    (hbelow : p.below = e.pending.below) (hnotes : p.notes = e.pending.notes)
    (hledger : p.view = L) :
    Effect e ⟨e.ctx, p, e.trx, e.signedAddresses, m, e.maxFees, f, base, d, y, o, rp, i⟩ L f m d :=
  ⟨rfl, rfl, rfl, rfl, hbelow, fun _ _ h => hnotes ▸ h, hledger, rfl, rfl, rfl⟩

theorem Effect.refl (e : EvalState) :
    Effect e e e.ledger e.feesPaid e.minFees e.delegateVoteDeltas :=
  .of_pending rfl rfl rfl

theorem Effect.trans {e e' e'' : EvalState} {L L' : Ledger} {f f' m m' : OrdMap AssetId ShareType}
    {d d' : OrdMap AccountId ShareType} (h : Effect e e' L f m d) (h' : Effect e' e'' L' f' m' d') :
    Effect e e'' L' f' m' d' :=
  ⟨h'.ctx.trans h.ctx, h'.trx.trans h.trx, h'.signedAddresses.trans h.signedAddresses,
    h'.maxFees.trans h.maxFees, h'.below.trans h.below,
    fun i r hi => h'.notes i r (h.notes i r hi), h'.ledger, h'.feesPaid, h'.minFees, h'.deltas⟩

/-! ## Votes -/

/-- The members of a slate that votes count for: account ids are not negative. -/
def Ledger.slateBacks (L : Ledger) (id : SlateId) (d : AccountId) : Bool :=
  id ≠ 0 && 0 ≤ d && (L.slates.lookup id).any (·.slate.mem d)

/-- A balance under `c` votes for `d`. -/
def Ledger.backs (L : Ledger) (c : WithdrawCondition) (d : AccountId) : Bool :=
  c.assetId = 0 && L.slateBacks c.slateId d

/-- `deltas'` is `deltas` after `amount` votes of the slate `id`. -/
structure VoteShift (L : Ledger) (id : SlateId) (amount : ShareType)
    (deltas deltas' : OrdMap AccountId ShareType) : Prop where
  known : id ≠ 0 → (L.slates.lookup id).isSome
  getD : ∀ d, deltas'.getD d 0 = deltas.getD d 0 + if L.slateBacks id d then amount else 0
  keys : ∀ d, (deltas'.find d).isSome → (deltas.find d).isSome ∨ L.slateBacks id d

structure BaseVoteShift (L : Ledger) (c : WithdrawCondition) (amount : ShareType)
    (deltas deltas' : OrdMap AccountId ShareType) : Prop where
  known : c.assetId = 0 → c.slateId ≠ 0 → (L.slates.lookup c.slateId).isSome
  getD : ∀ d, deltas'.getD d 0 = deltas.getD d 0 + if L.backs c d then amount else 0
  keys : ∀ d, (deltas'.find d).isSome → (deltas.find d).isSome ∨ L.backs c d

theorem find_addTo_isSome {K : Type} [LinearOrder K] (m : OrdMap K ShareType) (k k' : K)
    (amount : ShareType) : ((addTo m k amount).find k').isSome ↔ k' = k ∨ (m.find k').isSome := by
  unfold addTo
  rw [OrdMap.find_set]
  split <;> simp_all

theorem getD_adjustDeltas (deltas : OrdMap AccountId ShareType) (amount : ShareType)
    {l : List AccountId} (hl : l.Nodup) (d : AccountId) :
    (EvalState.adjustDeltas deltas amount l).getD d 0 =
      deltas.getD d 0 + if 0 ≤ d ∧ d ∈ l then amount else 0 := by
  induction l generalizing deltas with
  | nil => simp [EvalState.adjustDeltas]
  | cons id l ih =>
    rw [List.nodup_cons] at hl
    rw [EvalState.adjustDeltas, ih _ hl.2]
    by_cases hid : 0 ≤ id
    · rw [if_pos hid, getD_addTo]
      by_cases hd : d = id
      · subst hd; simp [hid, hl.1]
      · simp [hd]
    · rw [if_neg hid]
      by_cases hd : d = id
      · subst hd; simp [hid]
      · simp [hd]

theorem find_adjustDeltas (deltas : OrdMap AccountId ShareType) (amount : ShareType)
    (l : List AccountId) (d : AccountId)
    (h : ((EvalState.adjustDeltas deltas amount l).find d).isSome) :
    (deltas.find d).isSome ∨ (0 ≤ d ∧ d ∈ l) := by
  induction l generalizing deltas with
  | nil => exact .inl h
  | cons id l ih =>
    rw [EvalState.adjustDeltas] at h
    rcases ih _ h with h | ⟨h0, h⟩
    · by_cases hid : 0 ≤ id
      · rw [if_pos hid, find_addTo_isSome] at h
        rcases h with rfl | h
        · exact .inr ⟨hid, List.mem_cons_self⟩
        · exact .inl h
      · rw [if_neg hid] at h; exact .inl h
    · exact .inr ⟨h0, List.mem_cons_of_mem _ h⟩

theorem EvalState.adjustVote_effect {e e' : EvalState} {id : SlateId} {amount : ShareType}
    (h : e.adjustVote id amount = .ok e') :
    ∃ deltas, VoteShift e.ledger id amount e.delegateVoteDeltas deltas ∧
      e' = { e with delegateVoteDeltas := deltas } := by
  unfold adjustVote at h
  split at h
  · rename_i hid
    cases h
    exact ⟨_, ⟨fun h => absurd hid h, fun d => by simp [Ledger.slateBacks, hid],
      fun d hd => .inl hd⟩, rfl⟩
  · rename_i hid
    simp only [bind_eq_ok, expect_eq_ok, pure_eq_ok] at h
    obtain ⟨slate, hslate, rfl⟩ := h
    rw [PendingLedger.getSlateRecord_eq] at hslate
    have hback : ∀ d, e.ledger.slateBacks id d = true ↔ 0 ≤ d ∧ d ∈ slate.slate.toList := by
      intro d
      simp [Ledger.slateBacks, EvalState.ledger, hslate, hid, OrdSet.mem_toList]
    refine ⟨_, ⟨fun _ => by simp [EvalState.ledger, hslate], fun d => ?_, fun d hd => ?_⟩, rfl⟩
    · rw [getD_adjustDeltas _ _ slate.slate.nodup_toList]
      simp only [hback]
    · rw [hback]
      exact find_adjustDeltas _ _ _ _ hd

theorem EvalState.adjustBaseVote_effect {e e' : EvalState} {c : WithdrawCondition}
    {amount : ShareType} (h : e.adjustBaseVote c amount = .ok e') :
    ∃ deltas, BaseVoteShift e.ledger c amount e.delegateVoteDeltas deltas ∧
      e' = { e with delegateVoteDeltas := deltas } := by
  unfold adjustBaseVote at h
  split at h
  · rename_i hc
    obtain ⟨deltas, hs, rfl⟩ := adjustVote_effect h
    refine ⟨deltas, ⟨fun _ => hs.known, fun d => ?_, fun d hd => ?_⟩, rfl⟩
    · rw [hs.getD d]; simp [Ledger.backs, hc]
    · simpa [Ledger.backs, hc] using hs.keys d hd
  · rename_i hc
    cases h
    exact ⟨_, ⟨fun h => absurd h hc, fun d => by simp [Ledger.backs, hc], fun d hd => .inl hd⟩,
      rfl⟩

/-! ## Balances -/

theorem BalanceRecord.calculateYield_lt {r : BalanceRecord} {now : Time}
    {amount pool supply : ShareType} (h : 0 < r.calculateYield now amount pool supply) :
    r.calculateYield now amount pool supply < pool := by
  unfold calculateYield at h ⊢
  dsimp only at h ⊢
  split_ifs at h ⊢ with h1 h2 h3 h4 h5 h6 h7 <;> first | exact absurd h (by decide) | skip
  all_goals
    have hpool : 0 < pool.toInt := by simpa [Int64.lt_iff_toInt_lt] using Int64.not_le.1 h3
    have hlt := pool.toInt_lt
    rw [Int64.lt_iff_toInt_lt, Int64.toInt_ofInt_of_le (by omega) (by omega)]
    omega

theorem EvalState.claimYield_effect (e : EvalState) (asset : AssetRecord) (r : BalanceRecord) :
    ∃ y : ShareType, 0 ≤ y ∧ (y ≠ 0 → asset.isMarketIssued ∧ y < asset.collectedFees) ∧
      (e.claimYield asset r).2.balance = r.balance + y ∧
      (e.claimYield asset r).2.condition = r.condition ∧
      Effect e (e.claimYield asset r).1
        (if y = 0 then e.ledger else
          e.ledger.storeAsset { asset with collectedFees := asset.collectedFees - y })
        e.feesPaid e.minFees e.delegateVoteDeltas := by
  unfold claimYield
  dsimp only
  split
  · rename_i h
    have hne : r.calculateYield e.ctx.now r.balance asset.collectedFees asset.currentSupply ≠ 0 :=
      fun h0 => absurd h.2 (by rw [h0]; decide)
    refine ⟨_, Int64.le_of_lt h.2, fun _ => ⟨h.1, BalanceRecord.calculateYield_lt h.2⟩, rfl, rfl,
      .of_pending rfl rfl ?_⟩
    rw [if_neg hne]
    exact PendingLedger.view_storeAssetRecord _ _
  · exact ⟨0, by decide, fun h => absurd rfl h, by simp, rfl,
      .of_pending rfl rfl (by simp)⟩

theorem EvalState.requireWithdrawalFee_effect (e : EvalState) (asset : AssetRecord) :
    ∃ minFees, (minFees = e.minFees ∨ ∃ fee, minFees = e.minFees.set asset.id fee) ∧
      Effect e (e.requireWithdrawalFee asset) e.ledger e.feesPaid minFees
        e.delegateVoteDeltas := by
  unfold requireWithdrawalFee
  split
  · exact ⟨_, .inr ⟨_, rfl⟩, .of_pending rfl rfl rfl⟩
  · exact ⟨_, .inl rfl, .of_pending rfl rfl rfl⟩

theorem WithdrawCondition.basicOwner_eq_some {c : WithdrawCondition} {owner : Address}
    (h : c.basicOwner = some owner) : ∃ memo, c.data = .signature owner memo := by
  unfold basicOwner at h
  split at h
  · rename_i o memo hd
    cases h
    exact ⟨memo, hd⟩
  · cases h

/-- `r'` is `r` after a change that moves neither pay nor votes and keeps a delegate one. -/
structure AccountRecord.SameStanding (r r' : AccountRecord) : Prop where
  id : r'.id = r.id
  payBalance : r'.payBalance = r.payBalance
  netVotes : r'.netVotes = r.netVotes
  isDelegate : r.isDelegate → r'.isDelegate

theorem RegisterAccountOperation.delegatePart_effect {op : RegisterAccountOperation}
    {e : EvalState} {d : Option DelegateStats} {fee : ShareType}
    (h : op.delegatePart e = .ok (d, fee)) :
    (d.map (·.payBalance)).getD 0 = 0 ∧ (d.map (·.votesFor)).getD 0 = 0 := by
  unfold delegatePart at h
  split at h
  · simp only [bind_eq_ok, pure_eq_ok, Prod.mk.injEq] at h
    obtain ⟨_, -, rfl, -⟩ := h
    exact ⟨rfl, rfl⟩
  · cases h; exact ⟨rfl, rfl⟩

theorem UpdateAccountOperation.updateDelegate_eq_ok {op : UpdateAccountOperation}
    {e : EvalState} {r r' : AccountRecord} {fee : ShareType}
    (h : op.updateDelegate e r = .ok (r', fee)) :
    (¬ op.isDelegate ∧ r.delegateInfo = none ∧ r' = r) ∨
      (∃ d, r.delegateInfo = some d ∧ op.delegatePayRate ≤ d.payRate ∧
        r' = { r with delegateInfo := some { d with payRate := op.delegatePayRate } }) ∨
      r.delegateInfo = none ∧ e.pending.getDelegateRegistrationFee op.delegatePayRate = .ok fee ∧
        r' = { r with
          delegateInfo := some (newDelegate op.delegatePayRate e.ctx.headBlockNum r.activeKey) } := by
  simp only [updateDelegate, bind_eq_ok, require_eq_ok, exists_and_left, exists_const] at h
  obtain ⟨hstays, h⟩ := h
  split at h
  · split at h
    · rename_i d hd
      simp only [bind_eq_ok, require_eq_ok, pure_eq_ok, exists_and_left, exists_const,
        Prod.mk.injEq] at h
      exact .inr (.inl ⟨d, hd, h.1, h.2.1.symm⟩)
    · rename_i hd
      simp only [bind_eq_ok, pure_eq_ok, Prod.mk.injEq] at h
      obtain ⟨_, hfee, rfl, rfl⟩ := h
      exact .inr (.inr ⟨hd, hfee, rfl⟩)
  · rename_i hdel
    rw [pure_eq_ok, Prod.mk.injEq] at h
    have hnone : ¬ r.isDelegate := fun hd => hdel (hstays hd)
    exact .inl ⟨hdel, by simpa [AccountRecord.isDelegate] using hnone, h.1.symm⟩

theorem UpdateAccountOperation.updateDelegate_standing {op : UpdateAccountOperation}
    {e : EvalState} {r r' : AccountRecord} {fee : ShareType}
    (h : op.updateDelegate e r = .ok (r', fee)) :
    r.SameStanding r' ∧ ((op.isDelegate && !r.isDelegate) = true →
      e.pending.getDelegateRegistrationFee op.delegatePayRate = .ok fee) := by
  rcases updateDelegate_eq_ok h with ⟨hdel, -, rfl⟩ | ⟨d, hd, -, rfl⟩ | ⟨hd, hfee, rfl⟩
  · exact ⟨⟨rfl, rfl, rfl, id⟩, fun hc => absurd (Bool.and_elim_left hc) hdel⟩
  · exact ⟨⟨rfl, by simp [AccountRecord.payBalance, hd], by simp [AccountRecord.netVotes, hd],
      fun _ => rfl⟩, by simp [AccountRecord.isDelegate, hd]⟩
  · exact ⟨⟨rfl, by simp [AccountRecord.payBalance, hd, newDelegate, DelegateStats.setSigningKey],
      by simp [AccountRecord.netVotes, hd, newDelegate, DelegateStats.setSigningKey],
      fun _ => rfl⟩, fun _ => hfee⟩

theorem EvalState.slateMembers_delegates {e : EvalState} {l : List AccountId}
    {acc s : OrdSet AccountId} (h : e.slateMembers l acc = .ok s) {d : AccountId} (hd : s.mem d)
    (h0 : 0 ≤ d) : acc.mem d ∨ ∃ r, e.ledger.accounts.lookup d = some r ∧ r.isDelegate := by
  induction l generalizing acc with
  | nil =>
    cases h
    exact .inl hd
  | cons id l ih =>
    simp only [slateMembers, bind_eq_ok, require_eq_ok, exists_and_left, exists_const,
      PendingLedger.getAccountRecord_eq] at h
    obtain ⟨hid, h⟩ := h
    rcases ih h with hacc | hdel
    · rw [OrdSet.mem_insert] at hacc
      rcases hacc with rfl | hacc
      · obtain ⟨r, hr, hr'⟩ := (Option.any_eq_true _ _).1 (hid h0)
        exact .inr ⟨r, hr, hr'⟩
      · exact .inl hacc
    · exact .inr hdel

section

variable [Crypto]

theorem DepositOperation.evaluate_effect {op : DepositOperation} {e e' : EvalState}
    (h : op.evaluate e = .ok e') :
    0 < op.amount ∧ op.amount ≤ 100000000000000 ∧
    ∃ date asset deltas, e.ledger.assets.lookup (op.target e).assetId = some asset ∧
      BaseVoteShift e.ledger (op.target e).condition op.amount e.delegateVoteDeltas deltas ∧
      Effect e e'
        (e.ledger.storeBalance { op.target e with
          balance := (op.target e).balance + op.amount
          depositDate := date
          lastUpdate := e.ctx.now })
        (addTo e.feesPaid (op.target e).assetId (-op.amount)) e.minFees deltas := by
  simp only [evaluate, bind_eq_ok, require_eq_ok, expect_eq_ok, pure_eq_ok, exists_and_left,
    exists_const] at h
  obtain ⟨hpos, hmax, _, -, date, -, moved, hmoved, asset, hasset, -, owners, -, -, rfl⟩ := h
  obtain ⟨deltas, hshift, rfl⟩ := EvalState.adjustBaseVote_effect hmoved
  exact ⟨hpos, hmax, date, asset, deltas, (PendingLedger.getAssetRecord_eq _ _).symm.trans hasset,
    hshift, .of_pending rfl rfl (PendingLedger.view_storeBalanceRecord _ _)⟩

theorem WithdrawOperation.evaluate_effect {op : WithdrawOperation} {e e' : EvalState}
    (h : op.evaluate e = .ok e') :
    0 < op.amount ∧ ∃ r spendable asset y r' minFees deltas,
      e.ledger.balances.lookup op.balanceId = some r ∧
      r.getSpendableBalance e.ctx.now = .ok spendable ∧ op.amount ≤ spendable ∧
      e.ledger.assets.lookup r.assetId = some asset ∧
      0 ≤ y ∧ (y ≠ 0 → asset.isMarketIssued ∧ y < asset.collectedFees) ∧
      r'.condition = r.condition ∧ r'.balance = r.balance + y - op.amount ∧
      (minFees = e.minFees ∨ ∃ fee, minFees = e.minFees.set asset.id fee) ∧
      BaseVoteShift e.ledger r.condition (-op.amount) e.delegateVoteDeltas deltas ∧
      Effect e e'
        ((if y = 0 then e.ledger else
          e.ledger.storeAsset { asset with collectedFees := asset.collectedFees - y }).storeBalance r')
        (addTo e.feesPaid r.assetId op.amount) minFees deltas := by
  simp only [evaluate, bind_eq_ok, require_eq_ok, expect_eq_ok, pure_eq_ok, exists_and_left,
    exists_const, PendingLedger.getBalanceRecord_eq, PendingLedger.getAssetRecord_eq] at h
  obtain ⟨hpos, r, hr, spendable, hspend, hle, asset, hasset, _, -, moved, hmoved, hrest⟩ := h
  obtain ⟨deltas, hshift, hm⟩ := EvalState.adjustBaseVote_effect hmoved
  have hvoted : Effect e moved e.ledger e.feesPaid e.minFees deltas := by
    subst hm; exact .of_pending rfl rfl rfl
  obtain ⟨y, hy0, hy, hbal, hcond, hclaim⟩ := EvalState.claimYield_effect moved asset r
  generalize moved.claimYield asset r = claimed at hrest hbal hcond hclaim
  obtain ⟨m, b⟩ := claimed
  dsimp only at hrest hbal hcond hclaim
  generalize hr' : ({ b with balance := b.balance - op.amount, lastUpdate := m.ctx.now } :
    BalanceRecord) = r' at hrest
  have hcond' : r'.condition = r.condition := by rw [← hr', hcond]
  have hbal' : r'.balance = r.balance + y - op.amount := by rw [← hr', hbal]
  obtain ⟨minFees, hmin, hfee⟩ := EvalState.requireWithdrawalFee_effect
    ({ m with pending := m.pending.storeBalanceRecord r' } : EvalState) asset
  subst hrest
  refine ⟨hpos, r, spendable, asset, y, r', minFees, deltas, hr, hspend, hle, hasset, hy0, hy, hcond',
    hbal', by rwa [hclaim.minFees, hvoted.minFees] at hmin, hshift, ?_⟩
  have hstart := hvoted.trans hclaim
  refine ⟨hfee.ctx.trans hstart.ctx, hfee.trx.trans hstart.trx,
    hfee.signedAddresses.trans hstart.signedAddresses, hfee.maxFees.trans hstart.maxFees,
    hfee.below.trans hstart.below, fun i r hi => hfee.notes i r (hstart.notes i r hi), ?_, ?_,
    hfee.minFees, hfee.deltas.trans (hstart.deltas.trans hvoted.deltas)⟩
  · refine hfee.ledger.trans ((PendingLedger.view_storeBalanceRecord _ _).trans ?_)
    rw [show m.pending.view = _ from hstart.ledger, hvoted.ledger]
  · have hcond2 : b.assetId = r.assetId := congrArg WithdrawCondition.assetId hcond
    change addTo _ b.assetId op.amount = _
    rw [hcond2, hfee.feesPaid, show m.feesPaid = _ from hstart.feesPaid, hvoted.feesPaid]

theorem BurnOperation.evaluate_effect {op : BurnOperation} {e e' : EvalState}
    (h : op.evaluate e = .ok e') :
    0 < op.amount.amount ∧ ∃ asset, e.ledger.assets.lookup op.amount.assetId = some asset ∧
      Effect e e'
        (e.ledger.storeAsset { asset with currentSupply := asset.currentSupply - op.amount.amount })
        (addTo e.feesPaid op.amount.assetId (-op.amount.amount)) e.minFees
        e.delegateVoteDeltas := by
  simp only [evaluate, bind_eq_ok, require_eq_ok, expect_eq_ok, pure_eq_ok, exists_and_left,
    exists_const, PendingLedger.getAssetRecord_eq] at h
  obtain ⟨hpos, -, -, asset, hasset, -, -, -, rfl⟩ := h
  exact ⟨hpos, asset, hasset, .of_pending rfl rfl (by simp)⟩

/-- The plain balance of an owner after `amount` is paid to it. -/
def Ledger.credited (L : Ledger) (now : Time) (owner : Address) (amount : Asset) : BalanceRecord :=
  { L.ownerBalance owner amount.assetId with
    balance := (L.ownerBalance owner amount.assetId).balance + amount.amount
    lastUpdate := now
    depositDate := now }

theorem AdOperation.evaluate_effect {op : AdOperation} {e e' : EvalState}
    (h : op.evaluate e = .ok e') :
    ∃ fee owner, 0 < op.amount.amount ∧ fee ≤ op.amount.amount ∧
      fee = Int64.ofInt (op.message.utf8ByteSize / 400 + 1 : Nat) * MIN_AD_FEE ∧
      e.ledger.accounts.lookup |op.ownerAccountId| = some owner ∧
      Effect e e'
        (e.ledger.storeBalance
          (e.ledger.credited e.ctx.now owner.activeAddress ⟨op.amount.amount - fee, 0⟩))
        (addTo e.feesPaid 0 (-(op.amount.amount - fee))) (addTo e.minFees 0 fee)
        e.delegateVoteDeltas := by
  simp only [evaluate, bind_eq_ok, require_eq_ok, expect_eq_ok, pure_eq_ok, exists_and_left,
    exists_const, PendingLedger.getAccountRecord_eq] at h
  obtain ⟨hpos, -, hbase, hle, -, owner, howner, -, publisher, -, signer, -, -, -, rfl⟩ := h
  rw [EvalState.addMinFee_pending] at howner
  exact ⟨_, owner, hpos, hle, rfl, howner, rfl, rfl, rfl, rfl, rfl, fun _ _ h => h,
    by simp [EvalState.ledger, Ledger.credited],
    by simp [EvalState.subBalance, EvalState.addMinFee, hbase],
    by simp [EvalState.subBalance, EvalState.addMinFee, hbase], rfl⟩

omit [Crypto] in
theorem PendingLedger.notes_storeNoteRecord {p : PendingLedger} {r : NoteRecord}
    (hnew : (p.notes.lookup r.index).isNone) {i : MessageIndex} {note : NoteRecord}
    (h : p.notes.lookup i = some note) : (p.storeNoteRecord r).notes.lookup i = some note := by
  have hne : i ≠ r.index := by
    rintro rfl
    rw [h] at hnew
    cases hnew
  rw [storeNoteRecord, Layered.lookup_eq, Layered.view_insert, Table.lookup_insert_eq, if_neg hne,
    ← Layered.lookup_eq, h]

theorem NoteOperation.evaluate_effect {op : NoteOperation} {e e' : EvalState}
    (h : op.evaluate e = .ok e') :
    ∃ reward, 0 < op.amount.amount ∧
      e.ledger.operationRewards.lookup noteOpType = some reward ∧
      Effect e e'
        (e.ledger.storeReward { reward with
          fees := addTo reward.fees 0 (op.amount.amount - op.amount.amount * 3 / 10) })
        (addTo e.feesPaid 0 (-(op.amount.amount - op.amount.amount * 3 / 10)))
        (addTo e.minFees 0 (op.amount.amount * 3 / 10)) e.delegateVoteDeltas := by
  simp only [evaluate, bind_eq_ok, require_eq_ok, expect_eq_ok, pure_eq_ok, exists_and_left,
    exists_const, PendingLedger.operationRewards_lookup] at h
  obtain ⟨hpos, message, -, -, hbase, -, reward, hreward, account, -, signer, -, -, hnew, rfl⟩ :=
    h
  exact ⟨reward, hpos, hreward, rfl, rfl, rfl, rfl, rfl,
    fun i r hi => PendingLedger.notes_storeNoteRecord hnew hi, by simp [EvalState.ledger, hbase],
    by simp [EvalState.subBalance, EvalState.addMinFee, hbase],
    by simp [EvalState.subBalance, EvalState.addMinFee, hbase], rfl⟩

theorem RedPacketOperation.evaluate_effect {op : RedPacketOperation} {e e' : EvalState}
    (h : op.evaluate e = .ok e') :
    0 < op.count ∧ op.count ≤ 30 ∧ op.space.1 < 65535 ∧ 0 < op.amount.amount ∧
      MIN_RED_PACKET_FEE + Int64.ofInt op.count.toNat * MIN_RED_PACKET_UNIT ≤ op.amount.amount ∧
      e.ledger.packets.lookup op.randomId = none ∧ op.amount.assetId = 0 ∧
      op.packet.leftPacketAmount = .ok ⟨op.used, 0⟩ ∧
      Effect e e' (e.ledger.storePacket op.packet) (addTo e.feesPaid 0 (-op.used))
        (addTo e.minFees 0 MIN_RED_PACKET_FEE) e.delegateVoteDeltas := by
  simp only [evaluate, bind_eq_ok, require_eq_ok, expect_eq_ok, pure_eq_ok, exists_and_left,
    exists_const, PendingLedger.packets_lookup] at h
  obtain ⟨hpos, -, hbase, hcount, hcount', -, hmin, account, -, -, hspace, -, left, hleft, rfl, hnew,
    rfl⟩ := h
  refine ⟨hcount, hcount', hspace, hpos, hmin, by simpa using hnew, hbase, by rw [hleft, hbase],
    rfl, rfl, rfl, rfl, rfl, fun _ _ h => h,
    by simp [EvalState.ledger], ?_, ?_, rfl⟩
  · rw [← hbase]; rfl
  · rw [← hbase]; rfl

theorem ClaimPacketOperation.evaluate_effect {op : ClaimPacketOperation} {e e' : EvalState}
    (h : op.evaluate e = .ok e') :
    ∃ account packet, e.ledger.accounts.lookup |op.toAccountId| = some account ∧
      e.ledger.packets.lookup op.randomId = some packet ∧
      ((packet.claimStatuses[packet.nextAvailableClaimIndex]? = none ∧ e' = e) ∨
        ∃ status, packet.claimStatuses[packet.nextAvailableClaimIndex]? = some status ∧
          (∀ s ∈ packet.claimStatuses.take packet.nextAvailableClaimIndex,
            s.accountId ≠ op.toAccountId) ∧
          Effect e e'
            ((e.ledger.storeBalance
                (e.ledger.credited e.ctx.now account.activeAddress status.amount)).storePacket
              { packet with
                claimStatuses := packet.claimStatuses.set packet.nextAvailableClaimIndex
                  { status with
                    accountId := op.toAccountId
                    transactionId := Crypto.transactionId e.trx } })
            (addTo (addTo e.feesPaid status.amount.assetId status.amount.amount)
              status.amount.assetId (-status.amount.amount))
            e.minFees e.delegateVoteDeltas) := by
  simp only [evaluate, bind_eq_ok, require_eq_ok, expect_eq_ok, exists_and_left,
    exists_const, PendingLedger.packets_lookup, PendingLedger.getAccountRecord_eq] at h
  obtain ⟨account, haccount, packet, hpacket, -, -, _, -, h⟩ := h
  refine ⟨account, packet, haccount, hpacket, ?_⟩
  cases hs : packet.claimStatuses[packet.nextAvailableClaimIndex]? with
  | none =>
    simp only [hs, pure_eq_ok] at h
    exact .inl ⟨rfl, h.symm⟩
  | some status =>
    simp only [hs, bind_eq_ok, require_eq_ok, pure_eq_ok, exists_and_left, exists_const] at h
    obtain ⟨hfresh, rfl⟩ := h
    exact .inr ⟨status, rfl, by simpa using hfresh, 
      .of_pending rfl rfl (by simp [Ledger.credited]; rfl)⟩

theorem UpdateBalanceVoteOperation.evaluate_effect {op : UpdateBalanceVoteOperation}
    {e e' : EvalState} (h : op.evaluate e = .ok e') :
    ∃ r owner memo target r' asset deltas deltas',
      e.ledger.balances.lookup op.balanceId = some r ∧ r.assetId = 0 ∧
      r.condition.data = .signature owner memo ∧ PRECISION / 2 < r.balance ∧
      e.ledger.assets.lookup 0 = some asset ∧
      target = ((e.ledger.storeBalance (r.emptied e.ctx.now)).balances.lookup r'.id).getD
        (r.emptied e.ctx.now) ∧
      r'.condition = .withSignature owner 0 op.newSlate ∧
      r'.balance = target.balance + (r.balance - PRECISION / 2) ∧
      VoteShift e.ledger r.slateId (-r.balance) e.delegateVoteDeltas deltas ∧
      VoteShift e.ledger op.newSlate (r.balance - PRECISION / 2) deltas deltas' ∧
      Effect e e' ((e.ledger.storeBalance (r.emptied e.ctx.now)).storeBalance r')
        (addTo e.feesPaid 0 (PRECISION / 2)) e.minFees deltas' := by
  simp only [evaluate, bind_eq_ok, require_eq_ok, expect_eq_ok, pure_eq_ok, exists_and_left,
    exists_const, PendingLedger.getBalanceRecord_eq, PendingLedger.getAssetRecord_eq] at h
  obtain ⟨r, hr, hbase, owner, howner, hfee, asset, hasset, -, m, hm, restricted, -, date, -, m', hm',
    rfl⟩ := h
  obtain ⟨memo, hdata⟩ := WithdrawCondition.basicOwner_eq_some howner
  obtain ⟨deltas, hshift, rfl⟩ := EvalState.adjustVote_effect hm
  obtain ⟨deltas', hshift', rfl⟩ := EvalState.adjustVote_effect hm'
  refine ⟨r, owner, memo, op.target (e.pending.storeBalanceRecord (r.emptied e.ctx.now)) owner
    (r.emptied e.ctx.now), op.received (op.target (e.pending.storeBalanceRecord
      (r.emptied e.ctx.now)) owner (r.emptied e.ctx.now)) owner restricted date e.ctx.now
      (r.balance - PRECISION / 2), asset, deltas, deltas', hr, hbase, hdata, hfee, hbase ▸ hasset,
    ?_, rfl, rfl, hshift, ?_, .of_pending rfl rfl ?_⟩
  · rw [target, PendingLedger.getBalanceRecord_eq, PendingLedger.view_storeBalanceRecord]
    rfl
  · exact ⟨fun h => hshift'.known h, fun d => hshift'.getD d, fun d h => hshift'.keys d h⟩
  · simp [EvalState.ledger]

/-! ## Accounts and slates -/

theorem RegisterAccountOperation.evaluate_effect {op : RegisterAccountOperation}
    {e e' : EvalState} (h : op.evaluate e = .ok e') :
    ∃ (r : AccountRecord) (d : Option DelegateStats) (regFee : ShareType),
      e.ledger.counter .lastAccountId = some (r.id - 1) ∧
      op.delegatePart e = .ok (d, regFee) ∧ r.payBalance = 0 ∧ r.netVotes = 0 ∧
      Effect e e' ((e.ledger.setProperty .lastAccountId (.id r.id)).storeAccount r) e.feesPaid
        (addTo (addTo e.minFees 0 (getAccountRegistrationFee op.name.length)) 0 regFee)
        e.delegateVoteDeltas := by
  simp only [evaluate, bind_eq_ok, require_eq_ok, pure_eq_ok, exists_and_left, exists_const,
    Prod.exists, AccountRecord.setActiveKey] at h
  obtain ⟨-, -, -, -, -, id, pending, hid, r, ⟨-, rfl⟩, d, regFee, hd, rfl⟩ := h
  obtain ⟨hlast, rfl⟩ := PendingLedger.newAccountId_eq_ok hid
  obtain ⟨hpay, hvotes⟩ := delegatePart_effect hd
  exact ⟨{ op.record id e.ctx.now with
      activeKeyHistory := (op.record id e.ctx.now).activeKeyHistory.set e.ctx.now op.activeKey
      delegateInfo := d },
    d, regFee, hlast, hd, hpay, hvotes,
    .of_pending rfl rfl (by simp [RegisterAccountOperation.record])⟩

theorem UpdateAccountOperation.updateActiveKey_eq_ok {op : UpdateAccountOperation}
    {e : EvalState} {r r' : AccountRecord} (h : op.updateActiveKey e r = .ok r') :
    e.accountOrAnyParentHasSigned r ∧ r' = r ∨
      ∃ key, (key = nullKey → r.isDelegate → r.payBalance ≤ 0) ∧
        (e.checkKey r.ownerKey ∨ e.anyParentHasSigned r.name) ∧
        r' = { r with activeKeyHistory := r.activeKeyHistory.set e.ctx.now key } := by
  unfold updateActiveKey at h
  split at h
  · rename_i key hkey
    split_ifs at h with hne hretract <;>
      simp only [bind_eq_ok, require_eq_ok, pure_eq_ok, exists_and_left, exists_const,
        AccountRecord.setActiveKey] at h
    · obtain ⟨hpay, hsigned, -, rfl⟩ := h
      exact .inr ⟨key, fun _ => hpay, hsigned, rfl⟩
    · obtain ⟨-, hsigned, -, rfl⟩ := h
      exact .inr ⟨key, fun hnull => absurd (by simp [isRetracted, hkey, hnull]) hretract, hsigned, rfl⟩
    · exact .inl ⟨h.1, h.2.symm⟩
  · simp only [bind_eq_ok, require_eq_ok, pure_eq_ok, exists_and_left, exists_const] at h
    exact .inl ⟨h.1, h.2.symm⟩

theorem UpdateAccountOperation.updateActiveKey_standing {op : UpdateAccountOperation}
    {e : EvalState} {r r' : AccountRecord} (h : op.updateActiveKey e r = .ok r') :
    r'.id = r.id ∧ r'.delegateInfo = r.delegateInfo := by
  rcases updateActiveKey_eq_ok h with ⟨-, rfl⟩ | ⟨key, -, -, rfl⟩ <;> exact ⟨rfl, rfl⟩

theorem UpdateAccountOperation.evaluate_effect {op : UpdateAccountOperation} {e e' : EvalState}
    (h : op.evaluate e = .ok e') :
    ∃ r r' regFee, e.ledger.accounts.lookup op.accountId = some r ∧ r.SameStanding r' ∧
      ((op.isDelegate && !r.isDelegate) = true →
        e.pending.getDelegateRegistrationFee op.delegatePayRate = .ok regFee) ∧
      Effect e e' (e.ledger.storeAccount r') e.feesPaid
        (if op.isDelegate && !r.isDelegate then addTo e.minFees 0 regFee else e.minFees)
        e.delegateVoteDeltas := by
  simp only [evaluate, bind_eq_ok, require_eq_ok, expect_eq_ok, pure_eq_ok, exists_and_left,
    exists_const, Prod.exists, PendingLedger.getAccountRecord_eq] at h
  obtain ⟨r, hr, -, k, hk, s, regFee, hs, rfl⟩ := h
  obtain ⟨hid, hinfo⟩ := updateActiveKey_standing hk
  obtain ⟨hstand, hfee⟩ := updateDelegate_standing hs
  simp only [AccountRecord.isDelegate, hinfo] at hfee
  refine ⟨r, { s with lastUpdate := e.ctx.now }, regFee, hr, ?_, hfee,
    .of_pending rfl rfl (by simp)⟩
  exact ⟨hstand.id.trans hid, hstand.payBalance.trans (by simp [AccountRecord.payBalance, hinfo]),
    hstand.netVotes.trans (by simp [AccountRecord.netVotes, hinfo]),
    fun h => hstand.isDelegate (by simpa [AccountRecord.isDelegate, hinfo] using h)⟩

theorem WithdrawPayOperation.evaluate_effect {op : WithdrawPayOperation} {e e' : EvalState}
    (h : op.evaluate e = .ok e') :
    0 < op.amount ∧ ∃ r d, e.ledger.accounts.lookup |op.accountId| = some r ∧
      r.delegateInfo = some d ∧ op.amount ≤ d.payBalance ∧
      Effect e e'
        (e.ledger.storeAccount
          { r with delegateInfo := some { d with payBalance := d.payBalance - op.amount } })
        (addTo e.feesPaid 0 op.amount) e.minFees
        (addTo e.delegateVoteDeltas |op.accountId| (-op.amount)) := by
  simp only [evaluate, bind_eq_ok, require_eq_ok, expect_eq_ok, pure_eq_ok, exists_and_left,
    exists_const, PendingLedger.getAccountRecord_eq] at h
  obtain ⟨hpos, r, hr, d, hd, hle, -, rfl⟩ := h
  exact ⟨hpos, r, d, hr, hd, hle, .of_pending rfl rfl (by simp)⟩

theorem UpdateSigningKeyOperation.evaluate_eq_ok {op : UpdateSigningKeyOperation}
    {e e' : EvalState} (h : op.evaluate e = .ok e') :
    ∃ r d, e.ledger.accounts.lookup op.accountId = some r ∧ r.delegateInfo = some d ∧
      (e.checkKey d.signingKey ∨ e.accountOrAnyParentHasSigned r) ∧
      Effect e e' (e.ledger.storeAccount { r with
        delegateInfo := some (d.setSigningKey e.ctx.headBlockNum op.signingKey)
        lastUpdate := e.ctx.now }) e.feesPaid e.minFees e.delegateVoteDeltas := by
  simp only [evaluate, bind_eq_ok, require_eq_ok, expect_eq_ok, pure_eq_ok, exists_and_left,
    exists_const, PendingLedger.getAccountRecord_eq] at h
  obtain ⟨r, hr, -, d, hd, -, hsigned, rfl⟩ := h
  exact ⟨r, d, hr, hd, hsigned, .of_pending rfl rfl (by simp)⟩

theorem UpdateSigningKeyOperation.evaluate_effect {op : UpdateSigningKeyOperation}
    {e e' : EvalState} (h : op.evaluate e = .ok e') :
    ∃ r r', e.ledger.accounts.lookup op.accountId = some r ∧ r.SameStanding r' ∧
      Effect e e' (e.ledger.storeAccount r') e.feesPaid e.minFees e.delegateVoteDeltas := by
  obtain ⟨r, d, hr, hd, -, heff⟩ := op.evaluate_eq_ok h
  refine ⟨r, _, hr, ?_, heff⟩
  exact ⟨rfl, by simp [AccountRecord.payBalance, hd, DelegateStats.setSigningKey],
    by simp [AccountRecord.netVotes, hd, DelegateStats.setSigningKey], fun _ => rfl⟩

theorem DefineSlateOperation.evaluate_effect {op : DefineSlateOperation} {e e' : EvalState}
    (h : op.evaluate e = .ok e') :
    e' = e ∨ ∃ record : SlateRecord, e.ledger.slates.lookup record.id = none ∧
      (∀ d, record.slate.mem d → 0 ≤ d →
        ∃ r, e.ledger.accounts.lookup d = some r ∧ r.isDelegate) ∧
      Effect e e' (e.ledger.storeSlate record) e.feesPaid e.minFees e.delegateVoteDeltas := by
  simp only [evaluate, bind_eq_ok, require_eq_ok, exists_and_left, exists_const,
    PendingLedger.getSlateRecord_eq] at h
  obtain ⟨-, -, members, hmembers, h⟩ := h
  cases hs : e.pending.view.slates.lookup (SlateRecord.id ⟨members⟩) with
  | some current =>
    simp only [hs, bind_eq_ok, require_eq_ok, pure_eq_ok, exists_and_left, exists_const] at h
    exact .inl h.2.symm
  | none =>
    simp only [hs, pure_eq_ok] at h
    subst h
    refine .inr ⟨⟨members⟩, hs, fun d hd h0 => ?_, .of_pending rfl rfl (by simp)⟩
    rcases EvalState.slateMembers_delegates hmembers hd h0 with hd | hd
    · cases hd
    · exact hd

end

/-! ## Assets -/

/-- `r'` is `r` after a change that moves no shares: the maximum supply alone may change, within
its bounds. -/
structure AssetRecord.SameShares (r r' : AssetRecord) : Prop where
  id : r'.id = r.id
  issuerType : r'.issuerType = r.issuerType
  currentSupply : r'.currentSupply = r.currentSupply
  currentCollateral : r'.currentCollateral = r.currentCollateral
  collectedFees : r'.collectedFees = r.collectedFees
  maxSupply : r'.maxSupply = r.maxSupply ∨
    r.currentSupply ≤ r'.maxSupply ∧ r'.maxSupply ≤ MAX_SHARES

theorem AssetRecord.SameShares.refl (r : AssetRecord) : r.SameShares r :=
  ⟨rfl, rfl, rfl, rfl, rfl, .inl rfl⟩

theorem AssetRecord.SameShares.trans {r s t : AssetRecord} (h : r.SameShares s)
    (h' : s.SameShares t) : r.SameShares t where
  id := h'.id.trans h.id
  issuerType := h'.issuerType.trans h.issuerType
  currentSupply := h'.currentSupply.trans h.currentSupply
  currentCollateral := h'.currentCollateral.trans h.currentCollateral
  collectedFees := h'.collectedFees.trans h.collectedFees
  maxSupply := by
    rcases h'.maxSupply with hm | hm
    · rw [hm]; exact h.maxSupply
    · rw [h.currentSupply] at hm; exact .inr hm

theorem AssetRecord.update_same {α : Type} {r r' : AssetRecord} {field : Option α}
    {check : α → Except Error Unit} {set : α → AssetRecord}
    (h : r.update field check set = .ok r')
    (hset : ∀ a, check a = .ok () → r.SameShares (set a)) : r.SameShares r' := by
  unfold update at h
  split at h
  · cases h; exact .refl r
  · simp only [bind_eq_ok, pure_eq_ok] at h
    obtain ⟨⟨⟩, hcheck, rfl⟩ := h
    exact hset _ hcheck

theorem IssueAssetOperation.evaluate_effect {op : IssueAssetOperation} {e e' : EvalState}
    (h : op.evaluate e = .ok e') :
    0 < op.amount.amount ∧ ∃ r r', e.ledger.assets.lookup |op.amount.assetId| = some r ∧
      r.isUserIssued ∧ e.verifyAuthority r.authority ∧
      r'.id = r.id ∧ r'.issuerType = r.issuerType ∧ r'.maxSupply = r.maxSupply ∧
      r'.currentCollateral = r.currentCollateral ∧
      (if 0 < op.amount.assetId then
        op.amount.amount ≤ r.maxSupply - r.currentSupply ∧
          r'.currentSupply = r.currentSupply + op.amount.amount ∧ r'.collectedFees = r.collectedFees
      else op.amount.amount ≤ r.collectedFees ∧ r'.currentSupply = r.currentSupply ∧
        r'.collectedFees = r.collectedFees - op.amount.amount) ∧
      Effect e e' (e.ledger.storeAsset r') (addTo e.feesPaid |op.amount.assetId| op.amount.amount)
        e.minFees e.delegateVoteDeltas := by
  simp only [evaluate, bind_eq_ok, require_eq_ok, expect_eq_ok, pure_eq_ok, exists_and_left,
    exists_const, PendingLedger.getAssetRecord_eq] at h
  obtain ⟨r, hr, huser, hauth, hpos, s, hs, rfl⟩ := h
  refine ⟨hpos, r, { s with lastUpdate := e.ctx.now }, hr, huser, hauth, ?_⟩
  unfold issue at hs
  split at hs
  · rename_i hid
    simp only [bind_eq_ok, require_eq_ok, pure_eq_ok, exists_and_left, exists_const] at hs
    obtain ⟨hle, rfl⟩ := hs
    rw [if_pos hid]
    exact ⟨rfl, rfl, rfl, rfl, ⟨hle, rfl, rfl⟩, .of_pending rfl rfl (by simp)⟩
  · rename_i hid
    simp only [bind_eq_ok, require_eq_ok, pure_eq_ok, exists_and_left, exists_const] at hs
    obtain ⟨hle, rfl⟩ := hs
    rw [if_neg hid]
    exact ⟨rfl, rfl, rfl, rfl, ⟨hle, rfl, rfl⟩, .of_pending rfl rfl (by simp)⟩

theorem AssetUpdatePropertiesOperation.evaluate_effect {op : AssetUpdatePropertiesOperation}
    {e e' : EvalState} (h : op.evaluate e = .ok e') :
    ∃ r r', e.ledger.assets.lookup op.assetId = some r ∧ r.SameShares r' ∧
      e.verifyAuthority r.authority ∧
      Effect e e' (e.ledger.storeAsset r') e.feesPaid e.minFees e.delegateVoteDeltas := by
  simp only [evaluate, bind_eq_ok, require_eq_ok, expect_eq_ok, pure_eq_ok, exists_and_left,
    exists_const, PendingLedger.getAssetRecord_eq] at h
  obtain ⟨r, hr, -, hauth, -, r1, h1, r2, h2, r3, h3, r4, h4, r5, h5, r6, h6, r7, h7, r8, h8, rfl⟩ := h
  refine ⟨r, { r8 with lastUpdate := e.ctx.now }, hr, ?_, hauth, .of_pending rfl rfl (by simp)⟩
  have hmax : r5.SameShares r6 := AssetRecord.update_same h6 fun a ha => by
    simp only [bind_eq_ok, require_eq_ok, exists_and_left, exists_const] at ha
    exact ⟨rfl, rfl, rfl, rfl, rfl, .inr ha.2⟩
  have hfirst : r.SameShares r5 :=
    ((((AssetRecord.update_same h1 fun _ _ => ⟨rfl, rfl, rfl, rfl, rfl, .inl rfl⟩).trans
      (AssetRecord.update_same h2 fun _ _ => ⟨rfl, rfl, rfl, rfl, rfl, .inl rfl⟩)).trans
      (AssetRecord.update_same h3 fun _ _ => ⟨rfl, rfl, rfl, rfl, rfl, .inl rfl⟩)).trans
      (AssetRecord.update_same h4 fun _ _ => ⟨rfl, rfl, rfl, rfl, rfl, .inl rfl⟩)).trans
      (AssetRecord.update_same h5 fun _ _ => ⟨rfl, rfl, rfl, rfl, rfl, .inl rfl⟩)
  have hlast : r6.SameShares r8 :=
    (AssetRecord.update_same h7 fun _ _ => ⟨rfl, rfl, rfl, rfl, rfl, .inl rfl⟩).trans
      (AssetRecord.update_same h8 fun _ _ => ⟨rfl, rfl, rfl, rfl, rfl, .inl rfl⟩)
  exact ((hfirst.trans hmax).trans hlast).trans ⟨rfl, rfl, rfl, rfl, rfl, .inl rfl⟩

theorem AssetUpdatePermissionsOperation.evaluate_effect {op : AssetUpdatePermissionsOperation}
    {e e' : EvalState} (h : op.evaluate e = .ok e') :
    ∃ r r', e.ledger.assets.lookup op.assetId = some r ∧ r.SameShares r' ∧
      e.verifyAuthority r.authority ∧
      Effect e e' (e.ledger.storeAsset r') e.feesPaid e.minFees e.delegateVoteDeltas := by
  simp only [evaluate, bind_eq_ok, require_eq_ok, expect_eq_ok, pure_eq_ok, exists_and_left,
    exists_const, PendingLedger.getAssetRecord_eq] at h
  obtain ⟨r, hr, -, hauth, -, r1, h1, r2, h2, r3, h3, rfl⟩ := h
  refine ⟨r, { r3 with lastUpdate := e.ctx.now }, hr, ?_, hauth, .of_pending rfl rfl (by simp)⟩
  have hall : r.SameShares r3 :=
    ((AssetRecord.update_same h1 fun _ _ => ⟨rfl, rfl, rfl, rfl, rfl, .inl rfl⟩).trans
      (AssetRecord.update_same h2 fun _ _ => ⟨rfl, rfl, rfl, rfl, rfl, .inl rfl⟩)).trans
      (AssetRecord.update_same h3 fun _ _ => ⟨rfl, rfl, rfl, rfl, rfl, .inl rfl⟩)
  exact hall.trans ⟨rfl, rfl, rfl, rfl, rfl, .inl rfl⟩

theorem AssetUpdateWhitelistOperation.evaluate_effect {op : AssetUpdateWhitelistOperation}
    {e e' : EvalState} (h : op.evaluate e = .ok e') :
    ∃ r r', e.ledger.assets.lookup |op.assetId| = some r ∧ r.SameShares r' ∧
      Effect e e' (e.ledger.storeAsset r') e.feesPaid e.minFees e.delegateVoteDeltas := by
  simp only [evaluate, bind_eq_ok, require_eq_ok, expect_eq_ok, pure_eq_ok, exists_and_left,
    exists_const, PendingLedger.getAssetRecord_eq] at h
  obtain ⟨r, hr, -, -, rfl⟩ := h
  exact ⟨r, { r with whitelist := if 0 < op.assetId then r.whitelist.insert op.owner
    else r.whitelist.erase op.owner }, hr, ⟨rfl, rfl, rfl, rfl, rfl, .inl rfl⟩,
    .of_pending rfl rfl (by simp)⟩

theorem CreateAssetOperation.authorityAccount_effect {op : CreateAssetOperation}
    {p p' : PendingLedger} {account : Option AccountRecord}
    (h : op.authorityAccount p = .ok (account, p')) :
    p' = p ∨ ∃ game, p.view.games.lookup op.issuerId = some game ∧ p' = p.storeGameRecord game := by
  unfold authorityAccount at h
  split at h
  · simp only [bind_eq_ok, expect_eq_ok, pure_eq_ok, Prod.mk.injEq] at h
    obtain ⟨_, -, -, rfl⟩ := h
    exact .inl rfl
  · split at h
    · simp only [bind_eq_ok, expect_eq_ok, pure_eq_ok, Prod.mk.injEq,
        PendingLedger.getGameRecord_eq] at h
      obtain ⟨game, hgame, _, -, -, rfl⟩ := h
      exact .inr ⟨game, hgame, rfl⟩
    · rw [pure_eq_ok, Prod.mk.injEq] at h
      exact .inl h.2.symm

section

variable [Crypto]

theorem CreateAssetOperation.evaluate_effect {op : CreateAssetOperation} {e e' : EvalState}
    (h : op.evaluate e = .ok e') :
    ∃ id authority L, (L = e.ledger ∨ ∃ game, e.ledger.games.lookup op.issuerId = some game ∧
        L = e.ledger.storeGame game) ∧
      e.ledger.counter .lastAssetId = some (id - 1) ∧
      e.ledger.assets.lookup id = none ∧
      0 < op.maximumShareSupply ∧ op.maximumShareSupply ≤ MAX_SHARES ∧
      Effect e e'
        ((L.setProperty .lastAssetId (.id id)).storeAsset (op.record id e.ctx.now authority))
        (addTo (addTo e.feesPaid id op.initialSupply) 0 (-op.initialCollateral))
        (addTo e.minFees 0 (getAssetRegistrationFee op.symbol.length)) e.delegateVoteDeltas := by
  simp only [evaluate, bind_eq_ok, require_eq_ok, pure_eq_ok, exists_and_left, exists_const,
    Prod.exists, PendingLedger.lastAssetId, PendingLedger.counter_eq_ok,
    PendingLedger.getAssetRecord_eq] at h
  obtain ⟨_, -, -, _, -, -, -, last, hlast, hnone, account, p, hp, ⟨hmax, hmax'⟩, -, id, p', hid,
    rfl⟩ := h
  obtain ⟨hlast', rfl⟩ := PendingLedger.newAssetId_eq_ok hid
  have hview : p.view = e.ledger ∨ ∃ game, e.ledger.games.lookup op.issuerId = some game ∧
      p.view = e.ledger.storeGame game := by
    rcases authorityAccount_effect hp with rfl | ⟨game, hgame, rfl⟩
    · exact .inl rfl
    · exact .inr ⟨game, hgame, PendingLedger.view_storeGameRecord _ _⟩
  have hcounter : p.view.counter .lastAssetId = e.ledger.counter .lastAssetId := by
    rcases hview with h | ⟨game, -, h⟩ <;> rw [h]
    rfl
  rw [hcounter] at hlast'
  have hsame : last = id - 1 := by simpa using hlast.symm.trans hlast'
  rw [hsame, sub_add_cancel, Option.isNone_iff_eq_none] at hnone
  have hbelow : p.below = e.pending.below := by
    rcases authorityAccount_effect hp with rfl | ⟨game, -, rfl⟩ <;> rfl
  have hnotes : p.notes = e.pending.notes := by
    rcases authorityAccount_effect hp with rfl | ⟨game, -, rfl⟩ <;> rfl
  exact ⟨id, account.map AccountRecord.activeAddress, p.view, hview, hlast', hnone, hmax, hmax',
    .of_pending hbelow hnotes (by simp)⟩

theorem BuyChipsOperation.evaluate_effect {op : BuyChipsOperation} {e e' : EvalState}
    (h : op.evaluate e = .ok e') :
    0 < op.amount.amount ∧ ∃ r b cost, e.ledger.assets.lookup op.amount.assetId = some r ∧
      cost = chipCost op.amount.amount r.currentCollateral r.currentSupply ∧
      b.condition = (e.ledger.ownerBalance op.owner op.amount.assetId).condition ∧
      b.balance =
        (e.ledger.ownerBalance op.owner op.amount.assetId).balance + op.amount.amount ∧
      Effect e e'
        ((e.ledger.storeBalance b).storeAsset { r with
          currentCollateral := r.currentCollateral + cost
          currentSupply := r.currentSupply + op.amount.amount
          lastUpdate := e.ctx.now })
        (addTo e.feesPaid 0 (-cost)) e.minFees e.delegateVoteDeltas := by
  simp only [evaluate, bind_eq_ok, require_eq_ok, expect_eq_ok, pure_eq_ok, exists_and_left,
    exists_const, PendingLedger.getAssetRecord_eq] at h
  obtain ⟨hne, hnn, r, hr, rfl⟩ := h
  refine ⟨Int64.lt_of_le_of_ne hnn (Ne.symm hne), r, { e.ledger.ownerBalance op.owner
    op.amount.assetId with
      balance := (e.ledger.ownerBalance op.owner op.amount.assetId).balance + op.amount.amount
      lastUpdate := e.ctx.now }, _, hr, rfl, rfl, rfl, .of_pending rfl rfl ?_⟩
  simp [EvalState.ledger, Ledger.ownerBalance]

end

end BitShares
