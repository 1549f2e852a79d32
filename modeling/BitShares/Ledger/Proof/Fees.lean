import BitShares.Ledger.Proof.WellFormed

/-!
# The fee law

An accepted transaction should pay at least the fees its operations require (`FeeLaw`).  The fee
check walks `fees_paid` only, so a fee required in an asset that no operation of the transaction
moves is never looked at.  The required fees of most operations are in an asset the operation itself
moves; account registrations and delegate upgrades are the exception (`evaluateOperation_feeStep`).
The law for whole transactions is in `Game.Proof.Fees`, where the operations of games are.
-/

namespace BitShares

def Ledger.collectedFees (L : Ledger) (a : AssetId) : ShareType :=
  ((L.assets.lookup a).map (·.collectedFees)).getD 0

/-- What a transaction owes and pays, for the state `e₁` after its operations and the final
state `e'`: in every asset with a bound or a movement, the amount paid is within the bounds and
is what the collected fees grow by. -/
def FeeLaw (e₁ e' : EvalState) : Prop :=
  ∀ a, (e₁.minFees.find a).isSome ∨ (e₁.maxFees.find a).isSome ∨ (e₁.feesPaid.find a).isSome →
    e₁.minFees.getD a 0 ≤ e₁.feesPaid.getD a 0 ∧
    (∀ m, e₁.maxFees.find a = some m → e₁.feesPaid.getD a 0 ≤ m) ∧
    e'.ledger.collectedFees a = e₁.ledger.collectedFees a + e₁.feesPaid.getD a 0

theorem collectedFees_of_collected {L L' : Ledger} {paid : OrdMap AssetId ShareType}
    (h : L.Collected L' paid.entries) (a : AssetId) :
    L'.collectedFees a = L.collectedFees a + paid.getD a 0 := by
  unfold Ledger.collectedFees
  rw [h.assets, amountAt_entries]
  cases ha : L.assets.lookup a with
  | some r => rfl
  | none =>
    cases hp : paid.find a with
    | none => simp [OrdMap.getD, hp]
    | some v =>
      have hv : v = 0 := by
        by_contra hne
        have := h.known (a, v) (paid.mem_entries_iff.2 hp) hne
        simp [ha] at this
      simp [OrdMap.getD, hp, hv]

theorem find_addTo_ne {m : OrdMap AssetId ShareType} {a b : AssetId} {amount : ShareType}
    (h : b ≠ a) : (addTo m a amount).find b = m.find b := by
  rw [addTo, OrdMap.find_set, if_neg h]

section

variable {e e' : EvalState} {L : Ledger} {moves : Bool} {fee : ShareType}
  {f m : OrdMap AssetId ShareType} {d : OrdMap AccountId ShareType}

/-- The fee maps after an operation that runs in `e`, moves base shares or not and asks for a
registration fee: what it requires it requires in assets it moves, the registration fee apart. -/
structure FeeStep (e e' : EvalState) (moves : Bool) (fee : ShareType) : Prop where
  maxFees : e'.maxFees = e.maxFees
  paid : (e'.feesPaid.find 0).isSome ↔ (e.feesPaid.find 0).isSome ∨ moves
  mono : ∀ a, (e.feesPaid.find a).isSome → (e'.feesPaid.find a).isSome
  other : ∀ a, a ≠ 0 → (e'.minFees.find a).isSome →
    (e.minFees.find a).isSome ∨ (e'.feesPaid.find a).isSome
  base : moves = false → e'.minFees.getD 0 0 = e.minFees.getD 0 0 + fee

theorem FeeStep.ofMove (heff : Effect e e' L f m d) (hbase : moves = true)
    (hpaid : (f.find 0).isSome) (hmono : ∀ a, (e.feesPaid.find a).isSome → (f.find a).isSome)
    (hmin : ∀ a, a ≠ 0 → (m.find a).isSome → (e.minFees.find a).isSome) :
    FeeStep e e' moves fee where
  maxFees := heff.maxFees
  paid := by simp [heff.feesPaid, hpaid, hbase]
  mono := by rw [heff.feesPaid]; exact hmono
  other a ha h := .inl (hmin a ha (heff.minFees ▸ h))
  base h := by rw [hbase] at h; cases h

theorem FeeStep.ofMoveOne {a : AssetId} (heff : Effect e e' L f m d)
    (hf : ∀ b, (f.find b).isSome ↔ b = a ∨ (e.feesPaid.find b).isSome)
    (hbase : moves = decide (a = 0)) (hmin : ∀ b, b ≠ a → m.find b = e.minFees.find b)
    (hfee : fee = 0) : FeeStep e e' moves fee where
  maxFees := heff.maxFees
  paid := by
    rw [heff.feesPaid, hf, hbase, decide_eq_true_eq, or_comm]
    exact or_congr_right eq_comm
  mono b hb := by rw [heff.feesPaid, hf]; exact .inr hb
  other b hb h := by
    by_cases hba : b = a
    · right; rw [heff.feesPaid, hf]; exact .inl hba
    · left; rwa [heff.minFees, hmin b hba] at h
  base h := by
    have ha : (0 : AssetId) ≠ a := by simpa [hbase, eq_comm] using h
    rw [heff.minFees, hfee, Int64.add_zero]
    simp only [OrdMap.getD, hmin 0 ha]

theorem FeeStep.ofNoMove (heff : Effect e e' L e.feesPaid m d) (hbase : moves = false)
    (hmin : ∀ a, a ≠ 0 → (m.find a).isSome → (e.minFees.find a).isSome)
    (hfee : m.getD 0 0 = e.minFees.getD 0 0 + fee) : FeeStep e e' moves fee where
  maxFees := heff.maxFees
  paid := by simp [heff.feesPaid, hbase]
  mono := by rw [heff.feesPaid]; exact fun _ h => h
  other a ha h := .inl (hmin a ha (heff.minFees ▸ h))
  base _ := by rw [heff.minFees, hfee]

theorem FeeStep.ofFrame (heff : Effect e e' L e.feesPaid e.minFees d) (hbase : moves = false)
    (hfee : fee = 0) : FeeStep e e' moves fee :=
  .ofNoMove heff hbase (fun _ _ h => h) (by simp [hfee])

theorem FeeStep.ofRegistration (heff : Effect e e' L e.feesPaid (addTo e.minFees 0 fee) d)
    (hbase : moves = false) : FeeStep e e' moves fee := by
  refine .ofNoMove heff hbase (fun a ha hm => ?_) (by rw [getD_addTo, if_pos rfl])
  rwa [find_addTo_ne ha] at hm

end

section

variable [Crypto]

/-- Whether an operation moves base shares through the fee account when it runs in `e`. -/
def Operation.movesBase (e : EvalState) : Operation → Bool
  | .withdraw op => (e.ledger.balances.lookup op.balanceId).any (·.assetId = 0)
  | .deposit op => (op.target e).assetId = 0
  | .issueAsset op => op.amount.assetId = 0
  | .burn op => op.amount.assetId = 0
  | .claimPacket op => (e.ledger.packets.lookup op.randomId).any fun packet =>
      packet.claimStatuses[packet.nextAvailableClaimIndex]?.any (·.amount.assetId = 0)
  | .withdrawPay _ | .createAsset _ | .ad _ | .note _ | .redPacket _ | .updateBalanceVote _
  | .buyChips _ => true
  | _ => false

/-- The registration fee an operation asks for in base shares without moving any. -/
def Operation.registrationFee (e : EvalState) : Operation → ShareType
  | .registerAccount op =>
    getAccountRegistrationFee op.name.length +
      if op.isDelegate then
        (e.pending.getDelegateRegistrationFee op.delegatePayRate).toOption.getD 0 else 0
  | .updateAccount op =>
    if op.isDelegate && !(e.ledger.accounts.lookup op.accountId).any (·.isDelegate) then
      (e.pending.getDelegateRegistrationFee op.delegatePayRate).toOption.getD 0 else 0
  | _ => 0

theorem evaluateOperation_feeStep {e e' : EvalState} {op : Operation}
    (h : e.evaluateOperation op = .ok e') (hL : e.ledger.WellFormed) :
    FeeStep e e' (op.movesBase e) (op.registrationFee e) := by
  have hself : ∀ b, b ≠ 0 → ∀ m : ShareType, ((addTo e.minFees 0 m).find b).isSome →
      (e.minFees.find b).isSome := fun b hb m hm => by rwa [find_addTo_ne hb] at hm
  have hpaid : ∀ m : ShareType, ((addTo e.feesPaid 0 m).find 0).isSome := fun m => by
    simp [find_addTo_isSome]
  have hmono : ∀ (a : AssetId) (m : ShareType) (b : AssetId), (e.feesPaid.find b).isSome →
      ((addTo e.feesPaid a m).find b).isSome := fun a m b hb => by simp [find_addTo_isSome, hb]
  cases op with
  | withdraw op =>
    obtain ⟨-, r, _, asset, y, r', m, _, hr, -, -, hasset, -, -, -, -, hmin, -, heff⟩ :=
      op.evaluate_effect h
    refine .ofMoveOne heff (find_addTo_isSome _ _ · _) (by simp [Operation.movesBase, hr])
      (fun b hb => ?_) rfl
    rcases hmin with rfl | ⟨fee, rfl⟩
    · rfl
    · rw [OrdMap.find_set, if_neg]
      rwa [hL.assets _ _ hasset]
  | deposit op =>
    obtain ⟨-, -, _, _, _, -, -, heff⟩ := op.evaluate_effect h
    exact .ofMoveOne heff (find_addTo_isSome _ _ · _) rfl (fun _ _ => rfl) rfl
  | registerAccount op =>
    obtain ⟨r, d, fee, -, hd, -, -, heff⟩ := op.evaluate_effect h
    refine .ofNoMove heff rfl (fun a ha hm => ?_) ?_
    · rw [find_addTo_ne ha] at hm
      exact hself a ha _ hm
    · rw [getD_addTo, getD_addTo, if_pos rfl, if_pos rfl, Int64.add_assoc]
      congr 2
      unfold RegisterAccountOperation.delegatePart at hd
      split at hd
      · rename_i hdel
        simp only [bind_eq_ok, pure_eq_ok, Prod.mk.injEq] at hd
        obtain ⟨f, hf, -, rfl⟩ := hd
        simp [hdel, hf, Except.toOption]
      · rename_i hdel
        cases hd
        simp [hdel]
  | updateAccount op =>
    obtain ⟨r, r', fee, hr, -, hfee, heff⟩ := op.evaluate_effect h
    refine .ofNoMove heff rfl (fun a ha hm => ?_) ?_
    · split at hm
      · exact hself a ha _ hm
      · exact hm
    · simp only [Operation.registrationFee, hr, Option.any_some]
      split
      · rename_i hdel
        simp [getD_addTo, hfee hdel, Except.toOption]
      · simp
  | withdrawPay op =>
    obtain ⟨-, r, d, -, -, -, heff⟩ := op.evaluate_effect h
    exact .ofMove heff rfl (hpaid _) (hmono _ _) fun _ _ h => h
  | createAsset op =>
    obtain ⟨id, authority, L, -, -, -, -, -, heff⟩ := op.evaluate_effect h
    refine .ofMove heff rfl (by simp [find_addTo_isSome]) (fun a ha => ?_) (fun a ha => hself a ha _)
    simp [find_addTo_isSome, ha]
  | issueAsset op =>
    obtain ⟨-, r, r', -, -, -, -, -, -, -, -, heff⟩ := op.evaluate_effect h
    exact .ofMoveOne heff (find_addTo_isSome _ _ · _) (by simp [Operation.movesBase])
      (fun _ _ => rfl) rfl
  | assetUpdateProperties op =>
    obtain ⟨_, _, -, -, -, heff⟩ := op.evaluate_effect h
    exact .ofFrame heff rfl rfl
  | assetUpdatePermissions op =>
    obtain ⟨_, _, -, -, -, heff⟩ := op.evaluate_effect h
    exact .ofFrame heff rfl rfl
  | assetUpdateWhitelist op =>
    obtain ⟨_, _, -, -, heff⟩ := op.evaluate_effect h
    exact .ofFrame heff rfl rfl
  | defineSlate op =>
    rcases op.evaluate_effect h with rfl | ⟨record, -, -, heff⟩
    · exact .ofFrame (.refl _) rfl rfl
    · exact .ofFrame heff rfl rfl
  | burn op =>
    obtain ⟨-, asset, -, heff⟩ := op.evaluate_effect h
    exact .ofMoveOne heff (find_addTo_isSome _ _ · _) rfl (fun _ _ => rfl) rfl
  | ad op =>
    obtain ⟨_, _, -, -, -, -, heff⟩ := op.evaluate_effect h
    exact .ofMove heff rfl (hpaid _) (hmono _ _) fun a ha => hself a ha _
  | note op =>
    obtain ⟨_, -, -, heff⟩ := op.evaluate_effect h
    exact .ofMove heff rfl (hpaid _) (hmono _ _) fun a ha => hself a ha _
  | redPacket op =>
    obtain ⟨-, -, -, -, -, -, -, -, heff⟩ := op.evaluate_effect h
    exact .ofMove heff rfl (hpaid _) (hmono _ _) fun a ha => hself a ha _
  | claimPacket op =>
    obtain ⟨account, packet, -, hpacket, ⟨hnone, rfl⟩ | ⟨status, hstatus, -, heff⟩⟩ :=
      op.evaluate_effect h
    · exact .ofFrame (.refl _) (by simp [Operation.movesBase, hpacket, hnone]) rfl
    · refine .ofMoveOne (a := status.amount.assetId) heff (fun b => ?_)
        (by simp [Operation.movesBase, hpacket, hstatus]) (fun _ _ => rfl) rfl
      simp [find_addTo_isSome]
  | updateSigningKey op =>
    obtain ⟨r, r', hr, hsame, heff⟩ := op.evaluate_effect h
    exact .ofFrame heff rfl rfl
  | updateBalanceVote op =>
    obtain ⟨r, _, _, _, r', _, _, _, -, -, -, -, -, -, -, -, -, -, heff⟩ := op.evaluate_effect h
    exact .ofMove heff rfl (hpaid _) (hmono _ _) fun _ _ h => h
  | data op => cases h; exact .ofFrame (.refl _) rfl rfl
  | buyChips op =>
    obtain ⟨-, r, b, _, -, -, -, -, heff⟩ := op.evaluate_effect h
    exact .ofMove heff rfl (hpaid _) (hmono _ _) fun _ _ h => h
  | game op => cases h
  | unregistered type => cases h

end

end BitShares
