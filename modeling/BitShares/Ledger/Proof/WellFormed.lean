import BitShares.Ledger.Proof.Transaction

/-!
# Well-formed ledgers

The records of a ledger lie under their own ids, the shares of a packet are of the packet's
asset, and the id counters are ahead of the ids in use.  Every record `store` writes keeps this,
and so does every operation (`evaluateOperation_wellFormed`) and every accepted transaction
(`evaluateLedger_wellFormed`).
-/

namespace BitShares

variable [Crypto]

structure Ledger.WellFormed (L : Ledger) : Prop where
  accounts : L.accounts.All fun id r => r.id = id
  assets : L.assets.All fun id r => r.id = id
  games : L.games.All fun id r => r.id = id
  slates : L.slates.All fun id r => r.id = id
  balances : L.balances.All fun id r => r.id = id
  packets : L.packets.All fun id r => r.id = id
  operationRewards : L.operationRewards.All fun id r => r.id = id
  packetAsset : L.packets.All fun _ r => ∀ s ∈ r.claimStatuses, s.amount.assetId = r.amount.assetId
  lastAccountId : L.accounts.All fun id _ => ∀ last ∈ L.counter .lastAccountId, id ≤ last
  lastAssetId : ∀ last ∈ L.counter .lastAssetId, 0 ≤ last

instance (L : Ledger) : Decidable L.WellFormed :=
  decidable_of_iff
    (L.accounts.All (fun id r => r.id = id) ∧ L.assets.All (fun id r => r.id = id) ∧
      L.games.All (fun id r => r.id = id) ∧ L.slates.All (fun id r => r.id = id) ∧
      L.balances.All (fun id r => r.id = id) ∧ L.packets.All (fun id r => r.id = id) ∧
      L.operationRewards.All (fun id r => r.id = id) ∧
      L.packets.All (fun _ r => ∀ s ∈ r.claimStatuses, s.amount.assetId = r.amount.assetId) ∧
      L.accounts.All (fun id _ => ∀ last ∈ L.counter .lastAccountId, id ≤ last) ∧
      ∀ last ∈ L.counter .lastAssetId, 0 ≤ last)
    ⟨fun ⟨h1, h2, h3, h4, h5, h6, h7, h8, h9, h10⟩ => ⟨h1, h2, h3, h4, h5, h6, h7, h8, h9, h10⟩,
      fun ⟨h1, h2, h3, h4, h5, h6, h7, h8, h9, h10⟩ => ⟨h1, h2, h3, h4, h5, h6, h7, h8, h9, h10⟩⟩

namespace Ledger.WellFormed

variable {L : Ledger}

theorem storeBalance (h : L.WellFormed) (r : BalanceRecord) : (L.storeBalance r).WellFormed :=
  { h with balances := h.balances.insert rfl }

theorem storeSlate (h : L.WellFormed) (r : SlateRecord) : (L.storeSlate r).WellFormed :=
  { h with slates := h.slates.insert rfl }

theorem storeAsset (h : L.WellFormed) (r : AssetRecord) : (L.storeAsset r).WellFormed :=
  { h with assets := h.assets.insert rfl }

theorem storeGame (h : L.WellFormed) (r : GameRecord) : (L.storeGame r).WellFormed :=
  { h with games := h.games.insert rfl }

theorem storeReward (h : L.WellFormed) (r : OperationRewardRecord) :
    (L.storeReward r).WellFormed :=
  { h with operationRewards := h.operationRewards.insert rfl }

theorem storePacket (h : L.WellFormed) {r : PacketRecord}
    (hr : ∀ s ∈ r.claimStatuses, s.amount.assetId = r.amount.assetId) :
    (L.storePacket r).WellFormed :=
  { h with packets := h.packets.insert rfl, packetAsset := h.packetAsset.insert hr }

theorem storeAccount (h : L.WellFormed) {r : AccountRecord}
    (hr : ∀ last ∈ L.counter .lastAccountId, r.id ≤ last) : (L.storeAccount r).WellFormed :=
  { h with accounts := h.accounts.insert rfl, lastAccountId := h.lastAccountId.insert hr }

theorem updateAccount (h : L.WellFormed) {id : AccountId} {r r' : AccountRecord}
    (hr : L.accounts.lookup id = some r) (hid : r'.id = r.id) : (L.storeAccount r').WellFormed :=
  h.storeAccount fun last hlast => by
    rw [hid, h.accounts id r hr]
    exact h.lastAccountId id r hr last hlast

theorem registerAccount (h : L.WellFormed) {r : AccountRecord}
    (hr : L.counter .lastAccountId = some (r.id - 1)) :
    ((L.setProperty .lastAccountId (.id r.id)).storeAccount r).WellFormed := by
  have hset : (L.setProperty .lastAccountId (.id r.id)).WellFormed :=
    { h with
      lastAccountId := fun id b hb last hlast => by
        rw [counter_setProperty, Option.mem_some_iff] at hlast
        exact hlast ▸ (h.lastAccountId id b hb _ hr).trans (sub_le_self _ zero_le_one)
      lastAssetId := by
        rw [counter_setProperty_ne _ _ (by decide)]
        exact h.lastAssetId }
  refine hset.storeAccount fun last hlast => ?_
  rw [counter_setProperty, Option.mem_some_iff] at hlast
  exact hlast.le

theorem newAccount (h : L.WellFormed) {id : AccountId}
    (hid : L.counter .lastAccountId = some (id - 1)) : L.accounts.lookup id = none := by
  cases hold : L.accounts.lookup id with
  | none => rfl
  | some r =>
    have hle : id ≤ id - 1 := h.lastAccountId _ _ hold _ hid
    exact absurd hle (not_le.2 (sub_one_lt id))

theorem newAssetId (h : L.WellFormed) {id : AssetId}
    (hid : L.counter .lastAssetId = some (id - 1)) :
    (L.setProperty .lastAssetId (.id id)).WellFormed :=
  { h with
    lastAccountId := by
      rw [counter_setProperty_ne _ _ (by decide)]
      exact h.lastAccountId
    lastAssetId := fun last hlast => by
      rw [counter_setProperty, Option.mem_some_iff] at hlast
      have := h.lastAssetId _ hid
      omega }

end Ledger.WellFormed

theorem Ledger.Store.wellFormed {part : LedgerPart} {L M : Ledger} (h : Ledger.Store part L M)
    (hL : L.WellFormed) : M.WellFormed := by
  cases h with
  | register hlast => exact hL.registerAccount hlast
  | account hr hid => exact hL.updateAccount hr hid
  | newAsset hlast r => exact (hL.newAssetId hlast).storeAsset r
  | asset r => exact hL.storeAsset r
  | game r => exact hL.storeGame r
  | slate r => exact hL.storeSlate r
  | balance r => exact hL.storeBalance r
  | packet r hr => exact hL.storePacket (hr hL.packetAsset)
  | reward r => exact hL.storeReward r

theorem evaluateOperation_wellFormed {e e' : EvalState} {op : Operation}
    (h : e.evaluateOperation op = .ok e') (hL : e.ledger.WellFormed) : e'.ledger.WellFormed :=
  evaluateOperation_storeInduction Ledger.Store.wellFormed h hL

theorem evaluateOperations_wellFormed {e e' : EvalState} {ops : List Operation}
    (h : e.evaluateOperations ops = .ok e') (hL : e.ledger.WellFormed) : e'.ledger.WellFormed :=
  evaluateOperations_induction (P := fun e => e.ledger.WellFormed) (fun _ h => h)
    (fun _ _ _ _ hs h => evaluateOperation_wellFormed h hs) h hL

/-! ## The fee check -/

structure Ledger.Collected (L L' : Ledger) (l : List (AssetId × ShareType)) : Prop where
  rest : L' = { L with assets := L'.assets }
  assets : ∀ a, L'.assets.lookup a =
    (L.assets.lookup a).map fun r => { r with collectedFees := r.collectedFees + amountAt l a }
  known : ∀ fee ∈ l, fee.2 ≠ 0 → (L.assets.lookup fee.1).isSome

omit [Crypto] in
theorem Ledger.Collected.nil (L : Ledger) : L.Collected L [] where
  rest := rfl
  assets a := by cases L.assets.lookup a <;> simp [amountAt]
  known := by simp

omit [Crypto] in
theorem Ledger.Collected.cons {L M N : Ledger} {fee : AssetId × ShareType}
    {l : List (AssetId × ShareType)} (h : L.Collected M [fee]) (h' : M.Collected N l) :
    L.Collected N (fee :: l) where
  rest := by rw [h'.rest, h.rest]
  assets a := by
    rw [h'.assets, h.assets]
    cases L.assets.lookup a with
    | none => rfl
    | some r => simp [amountAt, Int64.add_assoc]
  known f hf hne := by
    rcases List.mem_cons.1 hf with rfl | hf
    · exact h.known f List.mem_cons_self hne
    · have := h'.known f hf hne
      rw [h.assets] at this
      simpa using this

theorem EvalState.validateFee_collected {e e' : EvalState} {fee : AssetId × ShareType}
    (hL : e.ledger.WellFormed) (h : e.validateFee fee = .ok e') :
    e.ledger.Collected e'.ledger [fee] := by
  obtain ⟨-, -, -, ⟨h0, rfl⟩ | ⟨asset, hasset, heff⟩⟩ := validateFee_effect h
  · refine ⟨rfl, fun a => ?_, fun f hf hne => ?_⟩
    · cases e'.ledger.assets.lookup a <;> simp [amountAt, h0]
    · rw [List.mem_singleton.1 hf] at hne
      exact absurd h0 hne
  · have hid := hL.assets _ _ hasset
    rw [heff.ledger]
    refine ⟨rfl, fun a => ?_, fun f hf _ => ?_⟩
    · simp only [Ledger.storeAsset, Table.lookup_insert_eq, hid]
      by_cases ha : a = fee.1
      · subst ha; simp [hasset, amountAt, hid]
      · rw [if_neg ha]
        cases e.ledger.assets.lookup a <;> simp [amountAt, Ne.symm ha]
    · rw [List.mem_singleton.1 hf, hasset]
      rfl

/-- **The fee check** collects every fee it walks over, each within its bounds, and changes
nothing else. -/
theorem EvalState.validateFees_effect {e e' : EvalState} {l : List (AssetId × ShareType)}
    (hL : e.ledger.WellFormed) (h : l.foldlM EvalState.validateFee e = .ok e') :
    e.ledger.Collected e'.ledger l ∧ e'.ledger.WellFormed ∧
      Effect e e' e'.ledger e.feesPaid e.minFees e.delegateVoteDeltas ∧
      ∀ fee ∈ l, 0 ≤ fee.2 ∧ (∀ m, e.minFees.find fee.1 = some m → m ≤ fee.2) ∧
        (∀ m, e.maxFees.find fee.1 = some m → fee.2 ≤ m) := by
  induction l generalizing e with
  | nil =>
    rw [List.foldlM_nil, pure_eq_ok] at h
    subst h
    exact ⟨.nil _, hL, .refl _, by simp⟩
  | cons fee l ih =>
    rw [List.foldlM_cons, bind_eq_ok] at h
    obtain ⟨m, hm, hrest⟩ := h
    obtain ⟨hnn, hmin, hmax, hcase⟩ := validateFee_effect hm
    have hstep : Effect e m m.ledger e.feesPaid e.minFees e.delegateVoteDeltas ∧
        m.ledger.WellFormed := by
      rcases hcase with ⟨-, rfl⟩ | ⟨asset, hasset, heff⟩
      · exact ⟨.refl _, hL⟩
      · exact ⟨heff.ledger ▸ heff, heff.ledger ▸ hL.storeAsset _⟩
    obtain ⟨hcoll, hwf, heff, hbounds⟩ := ih hstep.2 hrest
    rw [hstep.1.feesPaid, hstep.1.minFees, hstep.1.deltas] at heff
    refine ⟨(validateFee_collected hL hm).cons hcoll, hwf, hstep.1.trans heff, fun f hf => ?_⟩
    rcases List.mem_cons.1 hf with rfl | hf
    · exact ⟨hnn, hmin, hmax⟩
    · have := hbounds f hf
      rwa [hstep.1.minFees, hstep.1.maxFees] at this

/-! ## The whole transaction -/

theorem PendingLedger.adjustVotesFor_wellFormed {p p' : PendingLedger}
    {l : List (AccountId × ShareType)} (h : l.foldlM PendingLedger.adjustVotesFor p = .ok p')
    (hp : p.view.WellFormed) : p'.view.WellFormed := by
  refine foldlM_induction (P := fun q => q.view.WellFormed) (fun delta _ q q' hq hstep => ?_) h hp
  obtain ⟨r, d, hr, -, hq'⟩ := adjustVotesFor_effect hstep
  exact hq' ▸ hq.updateAccount hr rfl

theorem evaluateLedger_wellFormed {ctx : EvalContext} {p : PendingLedger}
    {trx : SignedTransaction} {e' : EvalState} (h : evaluateLedger ctx p trx = .ok e')
    (hp : p.view.WellFormed) : e'.ledger.WellFormed :=
  evaluateLedger_storeInduction Ledger.Store.wellFormed h hp

/-- After its operations a transaction only writes accounts, and adds to collected fees. -/
theorem evaluateLedger_afterOperations {ctx : EvalContext} {p : PendingLedger}
    {trx : SignedTransaction} {e' : EvalState} (hp : p.view.WellFormed)
    (h : evaluateLedger ctx p trx = .ok e') :
    ∃ e₁, evaluateToFees ctx p trx = .ok e₁ ∧ e'.ledger.balances = e₁.ledger.balances ∧
      ∀ a, e'.ledger.assets.lookup a = (e₁.ledger.assets.lookup a).map fun r =>
        { r with collectedFees := r.collectedFees + amountAt e₁.feesPaid.entries a } := by
  obtain ⟨e₁, e₂, p₃, total, h₁, h₂, h₃, h₄⟩ := evaluateLedger_phases h
  obtain ⟨signers, hops, -⟩ := evaluateToFees_eq_ok h₁
  have hcoll := (EvalState.validateFees_effect (evaluateOperations_wellFormed hops hp) h₂).1
  refine ⟨e₁, h₁, by rw [afterFees_rest h₃ h₄, hcoll.rest], fun a => ?_⟩
  rw [afterFees_rest h₃ h₄, hcoll.assets]

/-! ## Records under their own ids -/

/-- What a store keeps without knowing anything else about the ledger. -/
structure Ledger.OwnIds (L : Ledger) : Prop where
  accounts : L.accounts.All fun id r => r.id = id
  assets : L.assets.All fun id r => r.id = id

omit [Crypto] in
theorem Ledger.OwnIds.storeAccount {L : Ledger} (h : L.OwnIds) (r : AccountRecord) :
    (L.storeAccount r).OwnIds :=
  { h with accounts := h.accounts.insert rfl }

omit [Crypto] in
theorem Ledger.OwnIds.storeAsset {L : Ledger} (h : L.OwnIds) (r : AssetRecord) :
    (L.storeAsset r).OwnIds :=
  { h with assets := h.assets.insert rfl }

theorem Ledger.Store.ownIds {part : LedgerPart} {L M : Ledger} (hstore : Ledger.Store part L M)
    (h : L.OwnIds) : M.OwnIds := by
  cases hstore with
  | register => exact OwnIds.storeAccount (L := L.setProperty ..) ⟨h.accounts, h.assets⟩ _
  | account => exact h.storeAccount _
  | newAsset => exact OwnIds.storeAsset (L := L.setProperty ..) ⟨h.accounts, h.assets⟩ _
  | asset => exact h.storeAsset _
  | game | slate | balance | packet | reward => exact ⟨h.accounts, h.assets⟩

theorem evaluateLedger_ownIds {ctx : EvalContext} {p : PendingLedger} {trx : SignedTransaction}
    {e' : EvalState} (h : evaluateLedger ctx p trx = .ok e') (hp : p.view.OwnIds) :
    e'.ledger.OwnIds :=
  evaluateLedger_storeInduction Ledger.Store.ownIds h hp

end BitShares
