import BitShares.Ledger.Proof.WellFormed
import BitShares.Lib.Int64

/-!
# Where shares come from

`evaluateOperation_currentSupply` is the exact account of every operation: creating, issuing and
buying chips raise a supply, burning lowers it, nothing else touches one.  From it
`issuanceLaw_iff` says when an accepted transaction keeps the issuance law: the base supply does
not rise, and another supply rises by creation, by the asset's authority, or by chips of a game
that are paid for at the collateral price.
-/

namespace BitShares

def Ledger.currentSupply (L : Ledger) (a : AssetId) : ShareType :=
  ((L.assets.lookup a).map (·.currentSupply)).getD 0

def Ledger.currentCollateral (L : Ledger) (a : AssetId) : ShareType :=
  ((L.assets.lookup a).map (·.currentCollateral)).getD 0

theorem Ledger.currentSupply_storeAsset (L : Ledger) (r : AssetRecord) (a : AssetId) :
    (L.storeAsset r).currentSupply a = if a = r.id then r.currentSupply else L.currentSupply a := by
  unfold currentSupply storeAsset
  rw [Table.lookup_insert_eq]
  split <;> rfl

theorem Ledger.currentCollateral_storeAsset (L : Ledger) (r : AssetRecord) (a : AssetId) :
    (L.storeAsset r).currentCollateral a =
      if a = r.id then r.currentCollateral else L.currentCollateral a := by
  unfold currentCollateral storeAsset
  rw [Table.lookup_insert_eq]
  split <;> rfl

theorem Ledger.currentSupply_of_lookup {L : Ledger} {a : AssetId} {r : AssetRecord}
    (h : L.assets.lookup a = some r) : L.currentSupply a = r.currentSupply := by
  simp [currentSupply, h]

theorem Ledger.currentSupply_update {L : Ledger} {a : AssetId} {r r' : AssetRecord} {d : ShareType}
    (hr : L.assets.lookup a = some r) (ha : r.id = a) (hid : r'.id = r.id)
    (hs : r'.currentSupply = r.currentSupply + d) (b : AssetId) :
    (L.storeAsset r').currentSupply b = L.currentSupply b + if a = b then d else 0 := by
  rw [currentSupply_storeAsset, hid, ha]
  by_cases hb : b = a
  · subst hb; simp [currentSupply_of_lookup hr, hs]
  · simp [hb, Ne.symm hb]

section

variable [Crypto]

/-- What an operation that runs in `e` adds to the supply of `a`. -/
def Operation.issued (e : EvalState) (a : AssetId) : Operation → ShareType
  | .createAsset op => if e.ledger.counter .lastAssetId = some (a - 1) then op.initialSupply else 0
  | .issueAsset op => if op.amount.assetId = a ∧ 0 < a then op.amount.amount else 0
  | .burn op => if op.amount.assetId = a then -op.amount.amount else 0
  | .buyChips op => if op.amount.assetId = a then op.amount.amount else 0
  | _ => 0

theorem evaluateOperation_currentSupply {e e' : EvalState} {op : Operation}
    (h : e.evaluateOperation op = .ok e') (hL : e.ledger.WellFormed) (a : AssetId) :
    e'.ledger.currentSupply a = e.ledger.currentSupply a + op.issued e a := by
  have hzero : ∀ L : Ledger, L.assets = e.ledger.assets →
      L.currentSupply a = e.ledger.currentSupply a + 0 := fun L hL => by
    simp [Ledger.currentSupply, hL]
  have hsame : ∀ {id : AssetId} {r r' : AssetRecord}, e.ledger.assets.lookup id = some r →
      r.SameShares r' →
      (e.ledger.storeAsset r').currentSupply a = e.ledger.currentSupply a + 0 := by
    intro id r r' hr hs
    rw [Ledger.currentSupply_update (d := 0) hr (hL.assets _ _ hr) hs.id
      (by rw [hs.currentSupply, Int64.add_zero]), ite_self]
  cases op with
  | withdraw op =>
    obtain ⟨-, r, _, asset, y, r', m, _, -, -, -, hasset, -, -, -, -, -, -, heff⟩ :=
      op.evaluate_effect h
    rw [heff.ledger]
    split
    · exact hzero _ rfl
    · change (e.ledger.storeAsset _).currentSupply a = _
      exact (Ledger.currentSupply_update (d := 0) hasset (hL.assets _ _ hasset) (by rfl) (by simp)
        a).trans (by rw [ite_self]; rfl)
  | createAsset op =>
    obtain ⟨id, authority, L, hgame, hlast, hnone, -, -, heff⟩ := op.evaluate_effect h
    have hLa : L.assets = e.ledger.assets := by rcases hgame with rfl | ⟨game, -, rfl⟩ <;> rfl
    rw [heff.ledger, Ledger.currentSupply_storeAsset]
    change (if a = id then op.initialSupply else L.currentSupply a) = _
    by_cases ha : a = id
    · subst ha
      simp [Operation.issued, hlast, Ledger.currentSupply, hnone]
    · have hne : ¬ id - 1 = a - 1 := fun h => ha (sub_left_injective h).symm
      simp [Operation.issued, hlast, ha, hne, Ledger.currentSupply, hLa]
  | issueAsset op =>
    obtain ⟨-, r, r', hr, -, -, hid, -, -, -, hissue, heff⟩ := op.evaluate_effect h
    rw [heff.ledger]
    have hra := hL.assets _ _ hr
    simp only [Operation.issued]
    split at hissue
    · rename_i hpos
      rw [Ledger.currentSupply_update hr hra hid hissue.2.1, abs_of_pos hpos]
      congr 1
      by_cases ha : op.amount.assetId = a
      · subst ha; simp [hpos]
      · simp [ha]
    · rename_i hpos
      rw [Ledger.currentSupply_update (d := 0) hr hra hid (by rw [hissue.2.1, Int64.add_zero]), ite_self,
        if_neg]
      rintro ⟨rfl, h0⟩
      exact hpos h0
  | assetUpdateProperties op =>
    obtain ⟨r, r', hr, hs, -, heff⟩ := op.evaluate_effect h
    exact heff.ledger ▸ hsame hr hs
  | assetUpdatePermissions op =>
    obtain ⟨r, r', hr, hs, -, heff⟩ := op.evaluate_effect h
    exact heff.ledger ▸ hsame hr hs
  | assetUpdateWhitelist op =>
    obtain ⟨r, r', hr, hs, heff⟩ := op.evaluate_effect h
    exact heff.ledger ▸ hsame hr hs
  | burn op =>
    obtain ⟨-, asset, hasset, heff⟩ := op.evaluate_effect h
    rw [heff.ledger]
    exact Ledger.currentSupply_update (d := -op.amount.amount) hasset
      (hL.assets _ _ hasset) (by rfl) (by exact Int64.sub_eq_add_neg _ _) a
  | buyChips op =>
    obtain ⟨-, r, b, cost, hr, -, -, -, heff⟩ := op.evaluate_effect h
    rw [heff.ledger]
    exact Ledger.currentSupply_update (L := e.ledger.storeBalance b) (d := op.amount.amount) hr
      (hL.assets _ _ hr) (by rfl) (by rfl) a
  | _ => exact hzero _ ((evaluateOperation_leaves h).assets rfl)

/-! ## The law -/

/-- What the operations of a trace add to the supply of `a`. -/
def issuedIn (trace : List (EvalState × Operation)) (a : AssetId) : ShareType :=
  (trace.map fun step => step.2.issued step.1 a).sum

theorem evaluateOperations_currentSupply {e e' : EvalState} {ops : List Operation}
    (h : e.evaluateOperations ops = .ok e') (hL : e.ledger.WellFormed) (a : AssetId) :
    e'.ledger.currentSupply a = e.ledger.currentSupply a + issuedIn (e.trace ops) a := by
  induction ops generalizing e with
  | nil => cases h; simp [EvalState.trace, issuedIn]
  | cons op ops ih =>
    obtain ⟨m, hm, hrest, htrace⟩ := evaluateOperations_cons h
    have hwf : m.ledger.WellFormed := evaluateOperation_wellFormed hm hL
    rw [ih hrest hwf, htrace]
    change m.ledger.currentSupply a + _ = _
    rw [evaluateOperation_currentSupply hm hL]
    simp [issuedIn, Int64.add_assoc]

/-- What operations add to the base supply: chips bought of the base asset, less base shares
burned. -/
def baseIssued (ops : List Operation) : ShareType :=
  (ops.map fun op => match op with
    | .buyChips op => if op.amount.assetId = 0 then op.amount.amount else 0
    | .burn op => if op.amount.assetId = 0 then -op.amount.amount else 0
    | _ => 0).sum

/-- No base shares are created or issued otherwise: new ids are positive, and so are issued
ones. -/
theorem issuedIn_zero {e e' : EvalState} {ops : List Operation}
    (h : e.evaluateOperations ops = .ok e') (hL : e.ledger.WellFormed) :
    issuedIn (e.trace ops) 0 = baseIssued ops := by
  induction ops generalizing e with
  | nil => rfl
  | cons op ops ih =>
    obtain ⟨m, hm, hrest, htrace⟩ := evaluateOperations_cons h
    have hwf : m.ledger.WellFormed := evaluateOperation_wellFormed hm hL
    have hrec := ih hrest hwf
    rw [htrace]
    simp only [issuedIn, baseIssued, List.map_cons, List.sum_cons] at hrec ⊢
    rw [hrec]
    congr 1
    cases op <;> simp only [Operation.issued]
    case createAsset op =>
      rw [if_neg]
      intro hlast
      exact absurd (hL.lastAssetId _ hlast) (by decide)
    case issueAsset op => simp

/-- `op` is a lawful source of shares of `a` on its way from `e` to `e'`: it creates the asset, its
authority issues, or chips of a game are bought and the payer moves at least the collateral price
of the new shares, rounded down, into the collateral. -/
def Operation.IssuesLawfully (e e' : EvalState) (a : AssetId) : Operation → Prop
  | .createAsset _ => e.ledger.assets.lookup a = none
  | .issueAsset op => op.amount.assetId = a ∧
      ∃ r, e.ledger.assets.lookup a = some r ∧ e.verifyAuthority r.authority
  | .buyChips op => op.amount.assetId = a ∧
      (e.ledger.assets.lookup a).any (·.isGameIssued) ∧
      e'.feesPaid.getD 0 0 =
        e.feesPaid.getD 0 0 - (e'.ledger.currentCollateral a - e.ledger.currentCollateral a) ∧
      (((e'.ledger.currentSupply a).toInt - (e.ledger.currentSupply a).toInt) *
          (e.ledger.currentCollateral a).toInt).fdiv (e.ledger.currentSupply a).toInt ≤
        (e'.ledger.currentCollateral a - e.ledger.currentCollateral a).toInt
  | _ => False

/-- The issuance law of a transaction that takes `L` to `L'`: the base supply does not rise, and
where another supply rises, every operation that raised it is a lawful source. -/
def IssuanceLaw (L L' : Ledger) (trace : List (EvalState × Operation)) : Prop :=
  L'.currentSupply 0 ≤ L.currentSupply 0 ∧
  ∀ a, a ≠ 0 → L.currentSupply a < L'.currentSupply a →
    ∀ s op s', (s, op) ∈ trace → s.evaluateOperation op = .ok s' →
      s.ledger.currentSupply a < s'.ledger.currentSupply a → op.IssuesLawfully s s' a

/-- In doubles, `d` chips cost at least the collateral price, rounded down. -/
def ChipPriceCovers (d collateral supply : ShareType) : Prop :=
  (d.toInt * collateral.toInt).fdiv supply.toInt ≤ (chipCost d collateral supply).toInt

instance (d collateral supply : ShareType) : Decidable (ChipPriceCovers d collateral supply) :=
  inferInstanceAs (Decidable (_ ≤ _))

/-- If an operation that runs in `e` buys chips of `a`, they are game chips whose price covers the
collateral; if it burns shares of `a`, the supply does not wrap around. -/
def Operation.ChipsSound (e : EvalState) (a : AssetId) : Operation → Prop
  | .buyChips op => op.amount.assetId = a →
      e.ledger.currentSupply a < e.ledger.currentSupply a + op.amount.amount →
      (e.ledger.assets.lookup a).any (·.isGameIssued) ∧
        ChipPriceCovers op.amount.amount (e.ledger.currentCollateral a) (e.ledger.currentSupply a)
  | .burn op => op.amount.assetId = a →
      e.ledger.currentSupply a - op.amount.amount ≤ e.ledger.currentSupply a
  | _ => True

instance (e : EvalState) (a : AssetId) : (op : Operation) → Decidable (op.ChipsSound e a)
  | .buyChips op => inferInstanceAs (Decidable (op.amount.assetId = a → _ → _))
  | .burn op => inferInstanceAs (Decidable (op.amount.assetId = a → _))
  | .withdraw _ | .deposit _ | .registerAccount _ | .updateAccount _ | .withdrawPay _
  | .createAsset _ | .issueAsset _ | .assetUpdateProperties _ | .assetUpdatePermissions _
  | .assetUpdateWhitelist _ | .defineSlate _ | .ad _ | .note _ | .redPacket _ | .claimPacket _
  | .updateSigningKey _ | .updateBalanceVote _ | .data _ | .game _ | .unregistered _ =>
    instDecidableTrue

/-- What lets an operation that raises a supply count as lawful: an issue and a creation always
do, chips if they are game chips at a price that covers, a burn never. -/
theorem issuesLawfully_iff {e e' : EvalState} {op : Operation} {a : AssetId}
    (hL : e.ledger.WellFormed) (h : e.evaluateOperation op = .ok e')
    (hrise : e.ledger.currentSupply a < e'.ledger.currentSupply a) :
    op.IssuesLawfully e e' a ↔
      match op with
      | .buyChips op => (e.ledger.assets.lookup a).any (·.isGameIssued) ∧
          ChipPriceCovers op.amount.amount (e.ledger.currentCollateral a) (e.ledger.currentSupply a)
      | .burn _ => False
      | _ => True := by
  have hsupply := evaluateOperation_currentSupply h hL a
  rw [hsupply] at hrise
  -- an operation that issues nothing raises no supply
  have hnone : op.issued e a ≠ 0 := fun h0 => by
    rw [h0, Int64.add_zero] at hrise
    exact Int64.lt_irrefl hrise
  cases op with
  | createAsset op =>
    obtain ⟨id, authority, L, hgame, hlast, hnew, -, -, heff⟩ := op.evaluate_effect h
    have ha : id = a := by
      by_contra hne
      apply hnone
      simp only [Operation.issued, hlast, Option.some.injEq]
      exact if_neg fun h => hne (sub_left_injective h)
    rw [ha] at hnew
    simpa [Operation.IssuesLawfully] using hnew
  | issueAsset op =>
    obtain ⟨-, r, r', hr, -, hauth, -, -, -, -, -, heff⟩ := op.evaluate_effect h
    have ha : op.amount.assetId = a ∧ 0 < a := by
      by_contra hne
      exact hnone (if_neg hne)
    rw [ha.1, abs_of_pos ha.2] at hr
    simpa [Operation.IssuesLawfully, ha.1, hr] using hauth
  | buyChips op =>
    obtain ⟨hpos, r, b, cost, hr, hcost, -, -, heff⟩ := op.evaluate_effect h
    have ha : op.amount.assetId = a := by
      by_contra hne
      exact hnone (if_neg hne)
    rw [ha] at hr
    have hissued : (Operation.buyChips op).issued e a = op.amount.amount := if_pos ha
    rw [hissued] at hrise hsupply
    have hcoll : e'.ledger.currentCollateral a = e.ledger.currentCollateral a + cost := by
      rw [heff.ledger, Ledger.currentCollateral_storeAsset, if_pos (hL.assets _ _ hr).symm]
      simp [Ledger.currentCollateral, hr]
    have hpaid : e'.feesPaid.getD 0 0 = e.feesPaid.getD 0 0 - cost := by
      rw [heff.feesPaid, getD_addTo, if_pos rfl, Int64.sub_eq_add_neg]
    have hdiff : e.ledger.currentCollateral a + cost - e.ledger.currentCollateral a = cost := by
      grind
    have hd : (e'.ledger.currentSupply a).toInt - (e.ledger.currentSupply a).toInt =
        op.amount.amount.toInt := by
      rw [hsupply, Int64.toInt_add_of_lt hpos hrise]
      omega
    have hcost' : cost = chipCost op.amount.amount (e.ledger.currentCollateral a)
        (e.ledger.currentSupply a) := by
      rw [hcost]; simp [Ledger.currentCollateral, Ledger.currentSupply, hr]
    simp only [Operation.IssuesLawfully, ha, true_and, hcoll, hdiff, hpaid, hd, ChipPriceCovers,
      ← hcost']
  | burn op => exact Iff.rfl
  | _ => exact absurd rfl hnone

/-- **When the issuance law holds.**  For every accepted transaction, exactly if the base chips it
buys do not outweigh the base shares it burns, and where another supply rises, its chips are game
chips at a price that covers the collateral and none of its burns wraps around. -/
theorem issuanceLaw_iff {ctx : EvalContext} {p : PendingLedger} {trx : SignedTransaction}
    {e' : EvalState} (hp : p.view.WellFormed) (h : evaluateLedger ctx p trx = .ok e') :
    IssuanceLaw p.view e'.ledger (transactionTrace ctx p trx) ↔
      p.view.currentSupply 0 + baseIssued trx.operations ≤ p.view.currentSupply 0 ∧
      ∀ a, a ≠ 0 → p.view.currentSupply a <
          p.view.currentSupply a + issuedIn (transactionTrace ctx p trx) a →
        ∀ step ∈ transactionTrace ctx p trx, step.2.ChipsSound step.1 a := by
  obtain ⟨e₁, h₁, -, hassets⟩ := evaluateLedger_afterOperations hp h
  obtain ⟨signers, hops, htrace⟩ := evaluateToFees_eq_ok h₁
  have hfinal : ∀ a, e'.ledger.currentSupply a =
      p.view.currentSupply a + issuedIn (transactionTrace ctx p trx) a := by
    intro a
    rw [htrace, ← show (EvalState.start ctx p trx signers).ledger = p.view from rfl,
      ← evaluateOperations_currentSupply hops hp a]
    simp only [Ledger.currentSupply]
    rw [hassets]
    cases e₁.ledger.assets.lookup a <;> rfl
  rw [IssuanceLaw, hfinal 0, htrace, issuedIn_zero hops hp]
  refine and_congr Iff.rfl (forall_congr' fun a => imp_congr_right fun _ => ?_)
  rw [hfinal a, htrace]
  refine imp_congr_right fun _ => ⟨?_, ?_⟩
  · intro hlaw ⟨s, op⟩ hmem
    obtain ⟨hs, s', hstep⟩ := trace_step (P := fun e => e.ledger.WellFormed) (fun _ h => h)
      (fun _ _ _ hs h => evaluateOperation_wellFormed h hs) hops hp hmem
    have hsupply := evaluateOperation_currentSupply hstep hs a
    cases op with
    | buyChips op =>
      intro ha hrise
      have hissued : (Operation.buyChips op).issued s a = op.amount.amount := if_pos ha
      rw [hissued] at hsupply
      rw [← hsupply] at hrise
      exact (issuesLawfully_iff hs hstep hrise).1 (hlaw s _ s' hmem hstep hrise)
    | burn op =>
      intro ha
      have hissued : (Operation.burn op).issued s a = -op.amount.amount := if_pos ha
      rw [Int64.sub_eq_add_neg, ← hissued, ← hsupply]
      by_contra hrise
      exact hlaw s _ s' hmem hstep (Int64.not_le.1 hrise)
    | _ => trivial
  · intro hsound s op s' hmem hstep hrise
    obtain ⟨hs, -⟩ := trace_step (P := fun e => e.ledger.WellFormed) (fun _ h => h)
      (fun _ _ _ hs h => evaluateOperation_wellFormed h hs) hops hp hmem
    rw [issuesLawfully_iff hs hstep hrise]
    have hsupply := evaluateOperation_currentSupply hstep hs a
    rw [hsupply] at hrise
    have hnone : op.issued s a ≠ 0 := fun h0 => by
      rw [h0, Int64.add_zero] at hrise
      exact Int64.lt_irrefl hrise
    have hsound := hsound _ hmem
    cases op with
    | buyChips op =>
      have ha : op.amount.assetId = a := by
        by_contra hne
        exact hnone (if_neg hne)
      have hissued : (Operation.buyChips op).issued s a = op.amount.amount := if_pos ha
      exact hsound ha (hissued ▸ hrise)
    | burn op =>
      have ha : op.amount.assetId = a := by
        by_contra hne
        exact hnone (if_neg hne)
      have hissued : (Operation.burn op).issued s a = -op.amount.amount := if_pos ha
      rw [hissued, ← Int64.sub_eq_add_neg] at hrise
      exact absurd (hsound ha) (Int64.not_le.2 hrise)
    | _ => trivial

end

/-! ## Shares out of nothing -/

def chipTables : LedgerTables where
  properties := Finmap.singleton .lastAssetId (.id 2)
  assets :=
    ((Finmap.singleton 0
      { id := 0, symbol := "BTS", name := "BitShares", description := "", publicData := "",
        registrationDate := 1, lastUpdate := 1, maxSupply := MAX_SHARES,
        currentSupply := 1000 }).insert 1
      { id := 1, symbol := "CHIP", name := "Chips", description := "", publicData := "",
        registrationDate := 1, lastUpdate := 1, maxSupply := MAX_SHARES, issuerType := gameIssuerId,
        currentSupply := 100, currentCollateral := 200 }).insert 2
      { id := 2, symbol := "DICE", name := "Dice", description := "", publicData := "",
        registrationDate := 1, lastUpdate := 1, maxSupply := MAX_SHARES, issuerType := gameIssuerId,
        currentSupply := 49, currentCollateral := 1 }
  balances := Finmap.singleton (WithdrawCondition.code (.withSignature 7 0 0))
    { condition := .withSignature 7 0 0, balance := 1000 }

def chipContext : EvalContext where
  now := 100
  headBlockNum := 1
  activeFeedPrice _ := none
  skipSignatureCheck := false

def chipPurchase (withdrawn : ShareType) (chips : Asset) : SignedTransaction where
  expiration := 200
  operations := [.withdraw ⟨(WithdrawCondition.withSignature 7 0 0).code, withdrawn⟩,
    .buyChips ⟨chips, 7⟩]
  signatures := [7]

theorem issuanceLaw_chipPurchase :
    letI := Crypto.transparent
    ∃ e', evaluateLedger chipContext (.over chipTables) (chipPurchase 20 ⟨10, 1⟩) = .ok e' ∧
      IssuanceLaw (PendingLedger.over chipTables).view e'.ledger
        (transactionTrace chipContext (.over chipTables) (chipPurchase 20 ⟨10, 1⟩)) := by
  let := Crypto.transparent
  obtain ⟨e', h⟩ := exists_ok_of_isOk (x := evaluateLedger chipContext (.over chipTables)
    (chipPurchase 20 ⟨10, 1⟩)) (by decide +kernel)
  refine ⟨e', h, (issuanceLaw_iff (by decide +kernel) h).2 ⟨by decide +kernel, fun a _ _ => ?_⟩⟩
  by_cases ha : a = 1
  · subst ha
    decide +kernel
  · rintro ⟨s, op⟩ hmem
    have hop := mem_of_mem_trace (e := EvalState.start chipContext (.over chipTables)
      (chipPurchase 20 ⟨10, 1⟩) [7]) hmem
    simp only [chipPurchase, List.mem_cons, List.not_mem_nil, or_false] at hop
    rcases hop with rfl | rfl
    · trivial
    · exact fun h => absurd h.symm ha

/-- Base shares can be bought like chips: the base asset has no collateral, so they are free.  And
the chips of a game can be had below their price: 49 of them at 1/49 cost nothing in doubles. -/
theorem chipPurchase_free :
    letI := Crypto.transparent
    (∃ e', evaluateLedger chipContext (.over chipTables) (chipPurchase 1 ⟨500, 0⟩) = .ok e' ∧
      e'.ledger.currentSupply 0 = 1500 ∧
      ¬ IssuanceLaw (PendingLedger.over chipTables).view e'.ledger
        (transactionTrace chipContext (.over chipTables) (chipPurchase 1 ⟨500, 0⟩))) ∧
    (∃ e', evaluateLedger chipContext (.over chipTables) (chipPurchase 1 ⟨49, 2⟩) = .ok e' ∧
      e'.ledger.currentSupply 2 = 98 ∧ e'.ledger.currentCollateral 2 = 1 ∧
      ¬ IssuanceLaw (PendingLedger.over chipTables).view e'.ledger
        (transactionTrace chipContext (.over chipTables) (chipPurchase 1 ⟨49, 2⟩))) := by
  let := Crypto.transparent
  constructor
  · obtain ⟨e', h, hsupply⟩ := exists_ok_of_any (x := evaluateLedger chipContext (.over chipTables)
      (chipPurchase 1 ⟨500, 0⟩)) (p := fun e' => e'.ledger.currentSupply 0 = 1500)
      (by decide +kernel)
    refine ⟨e', h, hsupply, fun hlaw => absurd hlaw.1 ?_⟩
    rw [hsupply]
    decide +kernel
  · obtain ⟨e', h, hsupply, hcollateral⟩ := exists_ok_of_any
      (x := evaluateLedger chipContext (.over chipTables) (chipPurchase 1 ⟨49, 2⟩))
      (p := fun e' => e'.ledger.currentSupply 2 = 98 ∧ e'.ledger.currentCollateral 2 = 1)
      (by decide +kernel)
    refine ⟨e', h, hsupply, hcollateral, fun hlaw => ?_⟩
    -- the step that buys the chips
    obtain ⟨⟨s, op⟩, hmem, hop, hok⟩ := exists_some_of_any
      (o := (transactionTrace chipContext (.over chipTables) (chipPurchase 1 ⟨49, 2⟩))[1]?)
      (p := fun step => step.2 = .buyChips ⟨⟨49, 2⟩, 7⟩ ∧
        (step.1.evaluateOperation step.2).toOption.any (fun s' =>
          step.1.ledger.currentSupply 2 < s'.ledger.currentSupply 2 ∧
          (s'.ledger.currentCollateral 2 - step.1.ledger.currentCollateral 2).toInt <
            (((s'.ledger.currentSupply 2).toInt - (step.1.ledger.currentSupply 2).toInt) *
              (step.1.ledger.currentCollateral 2).toInt).fdiv (step.1.ledger.currentSupply 2).toInt)
          = true) (by decide +kernel)
    obtain ⟨s', hs', hrise, hcheap⟩ := exists_ok_of_any hok
    have hrisen : (PendingLedger.over chipTables).view.currentSupply 2 < e'.ledger.currentSupply 2 := by
      rw [hsupply]
      decide +kernel
    have hlawful := hlaw.2 2 (by decide) hrisen s op s' (List.mem_of_getElem? hmem) hs' hrise
    dsimp only at hop
    rw [hop] at hlawful
    exact absurd hlawful.2.2.2 (Int.not_le.2 hcheap)

end BitShares
