import BitShares.Ledger.Proof.Operations

/-!
# The terms of an asset

What the holders of an asset rely on: its precision, what its authority may do, its supply limit and
its fees.  `AssetRecord.KeepsTerms` says which of it a write may change, and
`AssetUpdatePropertiesOperation.evaluate_terms` and `AssetUpdatePermissionsOperation.evaluate_terms`
that the two operations made to change it keep to that.
-/

namespace BitShares

/-- While there are shares, the precision stays, no permission is added, and the supply limit and the
fees change only under the flags for it.  A flag is only set under a permission. -/
structure AssetRecord.KeepsTerms (r r' : AssetRecord) : Prop where
  id : r'.id = r.id
  issuerType : r'.issuerType = r.issuerType
  precision : r.currentSupply ≠ 0 → r'.precision = r.precision
  permissions : r.currentSupply ≠ 0 → ∀ flag ∈ flagBits,
    r'.authorityHasFlagPermission flag → r.authorityHasFlagPermission flag
  flags : ∀ flag ∈ flagBits, r'.activeFlags &&& flag ≠ 0 →
    r.activeFlags &&& flag ≠ 0 ∨ r'.authorityHasFlagPermission flag
  maxSupply : r.currentSupply ≠ 0 → r'.maxSupply ≠ r.maxSupply →
    r.flagIsActive dynamicMaxSupply
  fees : r.currentSupply ≠ 0 →
    r'.withdrawalFee ≠ r.withdrawalFee ∨ r'.marketFeeRate ≠ r.marketFeeRate →
    r.flagIsActive dynamicFees

theorem AssetRecord.KeepsTerms.of_eq {r r' : AssetRecord} (h : r' = { r with
    whitelist := r'.whitelist, collectedFees := r'.collectedFees,
    currentSupply := r'.currentSupply, currentCollateral := r'.currentCollateral,
    lastUpdate := r'.lastUpdate }) : r.KeepsTerms r' := by
  rw [h]
  exact ⟨rfl, rfl, fun _ => rfl, fun _ _ _ hflag => hflag, fun _ _ hflag => .inl hflag,
    fun _ h => absurd rfl h, fun _ h => by simp at h⟩

/-! ## Properties -/

structure AssetRecord.Reprices (r r' : AssetRecord) : Prop where
  id : r'.id = r.id
  issuerType : r'.issuerType = r.issuerType
  authorityFlagPermissions : r'.authorityFlagPermissions = r.authorityFlagPermissions
  activeFlags : r'.activeFlags = r.activeFlags
  currentSupply : r'.currentSupply = r.currentSupply
  precision : r.currentSupply ≠ 0 → r'.precision = r.precision
  maxSupply : r.currentSupply ≠ 0 → r'.maxSupply ≠ r.maxSupply →
    r.flagIsActive dynamicMaxSupply
  fees : r.currentSupply ≠ 0 →
    r'.withdrawalFee ≠ r.withdrawalFee ∨ r'.marketFeeRate ≠ r.marketFeeRate →
    r.flagIsActive dynamicFees

namespace AssetRecord

theorem Reprices.hasPermission {r r' : AssetRecord} (h : r.Reprices r') (flag : UInt32) :
    r'.authorityHasFlagPermission flag = r.authorityHasFlagPermission flag := by
  simp only [authorityHasFlagPermission, isUserIssued, h.issuerType, h.authorityFlagPermissions]

theorem Reprices.flagIsActive {r r' : AssetRecord} (h : r.Reprices r') (flag : UInt32) :
    r'.flagIsActive flag = r.flagIsActive flag := by
  simp only [AssetRecord.flagIsActive, h.hasPermission, h.activeFlags]

theorem Reprices.refl (r : AssetRecord) : r.Reprices r :=
  ⟨rfl, rfl, rfl, rfl, rfl, fun _ => rfl, fun _ h => absurd rfl h, fun _ h => by simp at h⟩

theorem Reprices.trans {r s t : AssetRecord} (h : r.Reprices s) (h' : s.Reprices t) :
    r.Reprices t where
  id := h'.id.trans h.id
  issuerType := h'.issuerType.trans h.issuerType
  authorityFlagPermissions := h'.authorityFlagPermissions.trans h.authorityFlagPermissions
  activeFlags := h'.activeFlags.trans h.activeFlags
  currentSupply := h'.currentSupply.trans h.currentSupply
  precision hr := (h'.precision (h.currentSupply ▸ hr)).trans (h.precision hr)
  maxSupply hr hne := by
    by_cases hs : s.maxSupply = r.maxSupply
    · exact h.flagIsActive _ ▸ h'.maxSupply (h.currentSupply ▸ hr) (hs ▸ hne)
    · exact h.maxSupply hr hs
  fees hr hne := by
    by_cases hs : s.withdrawalFee = r.withdrawalFee ∧ s.marketFeeRate = r.marketFeeRate
    · exact h.flagIsActive _ ▸ h'.fees (h.currentSupply ▸ hr) (hs.1 ▸ hs.2 ▸ hne)
    · exact h.fees hr (not_and_or.1 hs)

theorem Reprices.keepsTerms {r r' : AssetRecord} (h : r.Reprices r') : r.KeepsTerms r' where
  id := h.id
  issuerType := h.issuerType
  precision := h.precision
  permissions _ flag _ hflag := h.hasPermission flag ▸ hflag
  flags _ _ hflag := .inl (h.activeFlags ▸ hflag)
  maxSupply := h.maxSupply
  fees := h.fees

theorem Reprices.update {α : Type} {r r' : AssetRecord} {field : Option α}
    {check : α → Except Error Unit} {set : α → AssetRecord} (h : r.update field check set = .ok r')
    (hset : ∀ a, check a = .ok () → r.Reprices (set a)) : r.Reprices r' := by
  unfold AssetRecord.update at h
  split at h
  · cases h
    exact .refl r
  · simp only [bind_eq_ok, pure_eq_ok] at h
    obtain ⟨⟨⟩, hcheck, rfl⟩ := h
    exact hset _ hcheck

theorem Reprices.of_eq {r r' : AssetRecord} (h : r' = { r with
    issuerId := r'.issuerId, name := r'.name, description := r'.description,
    publicData := r'.publicData, lastUpdate := r'.lastUpdate }) : r.Reprices r' := by
  rw [h]
  exact ⟨rfl, rfl, rfl, rfl, rfl, fun _ => rfl, fun _ h => absurd rfl h, fun _ h => by simp at h⟩

end AssetRecord

theorem AssetUpdatePropertiesOperation.evaluate_terms {op : AssetUpdatePropertiesOperation}
    [Crypto] {e e' : EvalState} (h : op.evaluate e = .ok e') :
    ∃ r r', e.ledger.assets.lookup op.assetId = some r ∧ r.KeepsTerms r' ∧
      e'.ledger = e.ledger.storeAsset r' := by
  simp only [evaluate, bind_eq_ok, require_eq_ok, expect_eq_ok, pure_eq_ok, exists_and_left,
    exists_const, PendingLedger.getAssetRecord_eq] at h
  obtain ⟨r, hr, -, -, -, r1, h1, r2, h2, r3, h3, r4, h4, r5, h5, r6, h6, r7, h7, r8, h8, rfl⟩ := h
  have htexts : r.Reprices r4 :=
    (((AssetRecord.Reprices.update h1 fun _ _ => .of_eq rfl).trans
      (.update h2 fun _ _ => .of_eq rfl)).trans
      (.update h3 fun _ _ => .of_eq rfl)).trans (.update h4 fun _ _ => .of_eq rfl)
  have hprecision : r4.Reprices r5 := .update h5 fun a ha => by
    simp only [bind_eq_ok, require_eq_ok, exists_and_left, exists_const] at ha
    exact { AssetRecord.Reprices.refl r4 with precision := fun hne => absurd ha.1 hne }
  have hmax : r5.Reprices r6 := .update h6 fun a ha => by
    simp only [bind_eq_ok, require_eq_ok, exists_and_left, exists_const] at ha
    exact { AssetRecord.Reprices.refl r5 with
      maxSupply := fun hne _ => ha.1.resolve_left hne }
  have hwithdrawal : r6.Reprices r7 := .update h7 fun a ha => by
    simp only [bind_eq_ok, require_eq_ok, exists_and_left, exists_const] at ha
    exact { AssetRecord.Reprices.refl r6 with fees := fun hne _ => ha.1.resolve_left hne }
  have hmarket : r7.Reprices r8 := .update h8 fun a ha => by
    simp only [bind_eq_ok, require_eq_ok, exists_and_left, exists_const] at ha
    exact { AssetRecord.Reprices.refl r7 with fees := fun hne _ => ha.1.resolve_left hne }
  refine ⟨r, { r8 with lastUpdate := e.ctx.now }, hr, ?_, PendingLedger.view_storeAssetRecord _ _⟩
  exact (((((htexts.trans hprecision).trans hmax).trans hwithdrawal).trans hmarket).trans
    (.of_eq rfl)).keepsTerms

/-! ## Permissions -/

theorem AssetRecord.update_eq_ok {α : Type} {r r' : AssetRecord} {field : Option α}
    {check : α → Except Error Unit} {set : α → AssetRecord}
    (h : r.update field check set = .ok r') : r' = r ∨ ∃ a, check a = .ok () ∧ r' = set a := by
  unfold AssetRecord.update at h
  split at h
  · cases h
    exact .inl rfl
  · simp only [bind_eq_ok, pure_eq_ok] at h
    obtain ⟨⟨⟩, hcheck, rfl⟩ := h
    exact .inr ⟨_, hcheck, rfl⟩

namespace AssetUpdatePermissionsOperation

variable {op : AssetUpdatePermissionsOperation} {r r' : AssetRecord}

theorem updateFlagPermissions_narrows (h : op.updateFlagPermissions r = .ok r') :
    (∃ permissions, r' = { r with authorityFlagPermissions := permissions }) ∧
      (r.currentSupply ≠ 0 → ∀ flag ∈ flagBits,
        r'.authorityHasFlagPermission flag → r.authorityHasFlagPermission flag) := by
  obtain rfl | ⟨permissions, hcheck, rfl⟩ := AssetRecord.update_eq_ok h
  · exact ⟨⟨_, rfl⟩, fun _ _ _ hflag => hflag⟩
  · refine ⟨⟨_, rfl⟩, fun hsupply flag hmem hflag => ?_⟩
    have hbit := List.all_eq_true.1 (require_eq_ok.1 hcheck hsupply) flag hmem
    simp only [Bool.or_eq_true, decide_eq_true_eq] at hbit
    refine hbit.resolve_left fun hzero => ?_
    simp [AssetRecord.authorityHasFlagPermission, hzero] at hflag

theorem updateActiveFlags_permitted (h : op.updateActiveFlags r = .ok r') :
    (∃ flags, r' = { r with activeFlags := flags }) ∧
      ∀ flag ∈ flagBits, r'.activeFlags &&& flag ≠ 0 →
        r.activeFlags &&& flag ≠ 0 ∨ r.authorityHasFlagPermission flag := by
  obtain rfl | ⟨flags, hcheck, rfl⟩ := AssetRecord.update_eq_ok h
  · exact ⟨⟨_, rfl⟩, fun _ _ hflag => .inl hflag⟩
  · refine ⟨⟨_, rfl⟩, fun flag hmem hflag => .inr ?_⟩
    have hbit := List.all_eq_true.1 (require_eq_ok.1 hcheck) flag hmem
    simp only [Bool.or_eq_true, decide_eq_true_eq] at hbit
    exact hbit.resolve_left hflag

theorem evaluate_terms [Crypto] {e e' : EvalState} (h : op.evaluate e = .ok e') :
    ∃ r r', e.ledger.assets.lookup op.assetId = some r ∧ r.KeepsTerms r' ∧
      e'.ledger = e.ledger.storeAsset r' := by
  simp only [evaluate, bind_eq_ok, require_eq_ok, expect_eq_ok, pure_eq_ok, exists_and_left,
    exists_const, PendingLedger.getAssetRecord_eq] at h
  obtain ⟨r, hr, -, -, -, r1, h1, r2, h2, r3, h3, rfl⟩ := h
  have hauthority : ∃ authority, r1 = { r with authority := authority } := by
    obtain rfl | ⟨authority, -, rfl⟩ := AssetRecord.update_eq_ok h1
    · exact ⟨_, rfl⟩
    · exact ⟨_, rfl⟩
  obtain ⟨authority, rfl⟩ := hauthority
  obtain ⟨⟨permissions, rfl⟩, hnarrows⟩ := updateFlagPermissions_narrows h2
  obtain ⟨⟨flags, rfl⟩, hpermitted⟩ := updateActiveFlags_permitted h3
  refine ⟨r, _, hr, ?_, PendingLedger.view_storeAssetRecord _ _⟩
  exact ⟨rfl, rfl, fun _ => rfl, hnarrows, hpermitted, fun _ hne => absurd rfl hne,
    fun _ hne => by simp at hne⟩

end AssetUpdatePermissionsOperation

/-! ## Shares -/

theorem IssueAssetOperation.evaluate_terms [Crypto] {op : IssueAssetOperation} {e e' : EvalState}
    (h : op.evaluate e = .ok e') :
    ∃ r r', e.ledger.assets.lookup |op.amount.assetId| = some r ∧ r.KeepsTerms r' ∧
      e'.ledger = e.ledger.storeAsset r' := by
  simp only [evaluate, bind_eq_ok, require_eq_ok, expect_eq_ok, pure_eq_ok, exists_and_left,
    exists_const, PendingLedger.getAssetRecord_eq] at h
  obtain ⟨r, hr, -, -, -, s, hs, rfl⟩ := h
  refine ⟨r, _, hr, .of_eq ?_, PendingLedger.view_storeAssetRecord _ _⟩
  unfold issue at hs
  split at hs <;>
  · simp only [bind_eq_ok, require_eq_ok, pure_eq_ok, exists_and_left, exists_const] at hs
    obtain ⟨-, rfl⟩ := hs
    rfl

end BitShares
