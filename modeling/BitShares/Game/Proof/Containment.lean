import BitShares.Game.Proof.Undo
import BitShares.Ledger.Proof.Conservation

/-!
# Containment of game scripts

What the value that a script returns can do to the ledger.  `Ledger.Moved` adds up the credits to
owners and the changes of supplies that a script asks for; both `v8_game_engine::evaluate`
(`payOuts_moved`) and `v8_game_engine::execute` (`scriptWrites_moved`) move the ledger so.

* `Ledger.Contained`: what a script should not exceed.
* `containment_iff`: when what the two functions do is contained.
-/

namespace BitShares

open PendingState

/-! ## Sums of credits and issues -/

def givenTo (credits : List (Address × Asset)) (owner : Address) (a : AssetId) : ℤ :=
  (credits.map fun c => if c.1 = owner ∧ c.2.assetId = a then c.2.amount.toInt else 0).sum

def givenIn (credits : List (Address × Asset)) (a : AssetId) : ℤ :=
  (credits.map fun c => if c.2.assetId = a then c.2.amount.toInt else 0).sum

def issuedOf (issues : List Asset) (a : AssetId) : ShareType :=
  (issues.map fun i => if i.assetId = a then i.amount else 0).sum

@[simp] theorem givenTo_nil (owner : Address) (a : AssetId) : givenTo [] owner a = 0 := rfl

@[simp] theorem givenIn_nil (a : AssetId) : givenIn [] a = 0 := rfl

@[simp] theorem issuedOf_nil (a : AssetId) : issuedOf [] a = 0 := rfl

theorem givenTo_append (l l' : List (Address × Asset)) (owner : Address) (a : AssetId) :
    givenTo (l ++ l') owner a = givenTo l owner a + givenTo l' owner a := by
  simp [givenTo]

theorem givenIn_append (l l' : List (Address × Asset)) (a : AssetId) :
    givenIn (l ++ l') a = givenIn l a + givenIn l' a := by
  simp [givenIn]

theorem issuedOf_append (l l' : List Asset) (a : AssetId) :
    issuedOf (l ++ l') a = issuedOf l a + issuedOf l' a := by
  simp [issuedOf]

theorem givenTo_singleton (c : Address × Asset) (owner : Address) (a : AssetId) :
    givenTo [c] owner a = if c.1 = owner ∧ c.2.assetId = a then c.2.amount.toInt else 0 := by
  simp [givenTo]

theorem givenIn_singleton (c : Address × Asset) (a : AssetId) :
    givenIn [c] a = if c.2.assetId = a then c.2.amount.toInt else 0 := by
  simp [givenIn]

theorem issuedOf_singleton (i : Asset) (a : AssetId) :
    issuedOf [i] a = if i.assetId = a then i.amount else 0 := by
  simp [issuedOf]

/-! ## What a game may change -/

namespace Ledger

def IssuedBy (L : Ledger) (gameId : GameId) (a : AssetId) : Prop :=
  ∃ r, L.assets.lookup a = some r ∧ r.isGameIssued = true ∧ r.issuerId = gameId

/-- All shares of `a` in balances. -/
def balanceShares (L : Ledger) (a : AssetId) : ℤ := L.balances.total fun _ r => r.sharesOf a

/-- What a game may do to the ledger, where `held` and `held'` are the shares of a transaction that
are withdrawn and not yet deposited. -/
structure Contained (gameId : GameId) (L L' : Ledger) (held held' : AssetId → ℤ) : Prop where
  nonneg : L'.balances.All fun _ r => 0 ≤ r.balance
  /-- Balances of other assets stay. -/
  otherBalances : ∀ id r, ¬ L.IssuedBy gameId r.assetId →
    (L'.balances.lookup id = some r ↔ L.balances.lookup id = some r)
  /-- The records of other assets stay. -/
  otherAssets : ∀ a, ¬ L.IssuedBy gameId a → L'.assets.lookup a = L.assets.lookup a
  /-- Of an asset only the supply changes. -/
  onlySupply : ∀ a r', L'.assets.lookup a = some r' →
    ∃ r, L.assets.lookup a = some r ∧ r' = { r with currentSupply := r'.currentSupply }
  /-- The rest of the ledger stays. -/
  rest : L' = { L with balances := L'.balances, assets := L'.assets }
  supply : ∀ a, L.IssuedBy gameId a → (L'.currentSupply a).toInt - (L.currentSupply a).toInt =
    L'.balanceShares a - L.balanceShares a + (held' a - held a)

variable [Crypto]

/-- The ledger after credits to owners and changes of supplies, in assets of a game. -/
structure Moved (gameId : GameId) (L L' : Ledger) (credits : List (Address × Asset))
    (issues : List Asset) : Prop where
  wellFormed : L'.WellFormed
  issued : ∀ a, L'.IssuedBy gameId a ↔ L.IssuedBy gameId a
  /-- What every owner has. -/
  owner : ∀ owner a, (L'.ownerBalance owner a).balance.toInt =
    (L.ownerBalance owner a).balance.toInt + givenTo credits owner a
  total : ∀ a, L'.balanceShares a = L.balanceShares a + givenIn credits a
  supply : ∀ a, L'.currentSupply a = L.currentSupply a + issuedOf issues a
  /-- A balance is an old one or that of an owner. -/
  origin : ∀ id r, L'.balances.lookup id = some r →
    L.balances.lookup id = some r ∨ ∃ owner a, r.condition = .withSignature owner a 0
  otherBalances : ∀ id r, ¬ L.IssuedBy gameId r.assetId →
    (L'.balances.lookup id = some r ↔ L.balances.lookup id = some r)
  otherAssets : ∀ a, ¬ L.IssuedBy gameId a → L'.assets.lookup a = L.assets.lookup a
  onlySupply : ∀ a r', L'.assets.lookup a = some r' →
    ∃ r, L.assets.lookup a = some r ∧ r' = { r with currentSupply := r'.currentSupply }
  rest : L' = { L with balances := L'.balances, assets := L'.assets }

namespace Moved

variable {gameId : GameId} {L M N : Ledger} {credits credits' : List (Address × Asset)}
  {issues issues' : List Asset}

theorem refl (gameId : GameId) (hL : L.WellFormed) : Moved gameId L L [] [] where
  wellFormed := hL
  issued _ := Iff.rfl
  owner _ _ := by simp
  total _ := by simp
  supply _ := by simp
  origin _ _ h := .inl h
  otherBalances _ _ _ := Iff.rfl
  otherAssets _ _ := rfl
  onlySupply _ r' h := ⟨r', h, rfl⟩
  rest := rfl

theorem trans (h : Moved gameId L M credits issues) (h' : Moved gameId M N credits' issues') :
    Moved gameId L N (credits ++ credits') (issues ++ issues') where
  wellFormed := h'.wellFormed
  issued a := (h'.issued a).trans (h.issued a)
  owner owner a := by rw [h'.owner, h.owner, givenTo_append]; ring
  total a := by rw [h'.total, h.total, givenIn_append]; ring
  supply a := by rw [h'.supply, h.supply, issuedOf_append, Int64.add_assoc]
  origin id r hr := by
    rcases h'.origin id r hr with hM | hN
    · exact h.origin id r hM
    · exact .inr hN
  otherBalances id r hr := (h'.otherBalances id r (mt (h.issued _).1 hr)).trans
    (h.otherBalances id r hr)
  otherAssets a ha := (h'.otherAssets a (mt (h.issued a).1 ha)).trans (h.otherAssets a ha)
  onlySupply a r'' h'' := by
    obtain ⟨r', hr', heq'⟩ := h'.onlySupply a r'' h''
    obtain ⟨r, hr, heq⟩ := h.onlySupply a r' hr'
    exact ⟨r, hr, by rw [heq', heq]⟩
  rest := by rw [h'.rest, h.rest]

theorem contained_iff (h : Moved gameId L M credits issues)
    (hL : L.balances.All fun _ r => 0 ≤ r.balance) (held held' : AssetId → ℤ) :
    Contained gameId L M held held' ↔
      (∀ owner a, 0 ≤ (L.ownerBalance owner a).balance.toInt + givenTo credits owner a) ∧
      ∀ a, L.IssuedBy gameId a → (L.currentSupply a + issuedOf issues a).toInt =
        (L.currentSupply a).toInt + givenIn credits a + (held' a - held a) := by
  constructor
  · intro hc
    refine ⟨fun owner a => ?_, fun a ha => ?_⟩
    · rw [← h.owner, ownerBalance]
      cases hr : M.balances.lookup (Crypto.getAddress (.withSignature owner a 0)) with
      | none => exact le_rfl
      | some r => exact Int64.le_iff_toInt_le.1 (hc.nonneg _ _ hr)
    · have hsupply := hc.supply a ha
      rw [h.supply, h.total] at hsupply
      omega
  · rintro ⟨howner, hsupply⟩
    refine ⟨fun id r hr => ?_, h.otherBalances, h.otherAssets, h.onlySupply, h.rest,
      fun a ha => ?_⟩
    · rcases h.origin id r hr with hold | ⟨owner, a, hcond⟩
      · exact hL id r hold
      · have hid : Crypto.getAddress (.withSignature owner a 0) = id := by
          rw [← hcond]
          exact h.wellFormed.balances id r hr
        have hfinal := howner owner a
        rw [← h.owner, ownerBalance, hid, hr] at hfinal
        exact Int64.le_iff_toInt_le.2 hfinal
    · rw [h.supply, h.total, hsupply a ha]
      ring

variable (haddr : Function.Injective Crypto.getAddress)

include haddr in
theorem credit (hL : L.WellFormed) {owner : Address} {amount : Asset} {r : BalanceRecord}
    (hissued : L.IssuedBy gameId amount.assetId)
    (hcond : r.condition = (L.ownerBalance owner amount.assetId).condition)
    (hbalance : r.balance.toInt =
      (L.ownerBalance owner amount.assetId).balance.toInt + amount.amount.toInt) :
    Moved gameId L (L.storeBalance r) [(owner, amount)] [] := by
  obtain ⟨hplain, hlookup⟩ := ownerBalance_spec hL haddr owner amount.assetId
  rw [hplain] at hcond
  have hid : r.id = Crypto.getAddress (.withSignature owner amount.assetId 0) := by
    rw [BalanceRecord.id, hcond]
  have hasset : r.assetId = amount.assetId := by rw [BalanceRecord.assetId, hcond]; rfl
  have hstored : ∀ id, (L.storeBalance r).balances.lookup id =
      if id = r.id then some r else L.balances.lookup id :=
    fun id => Table.lookup_insert_eq _ _ _ _
  exact {
    wellFormed := hL.storeBalance r
    issued := fun _ => Iff.rfl
    owner := fun owner' a => by
      rw [givenTo_singleton]
      by_cases hsame : owner = owner' ∧ amount.assetId = a
      · obtain ⟨rfl, rfl⟩ := hsame
        rw [if_pos ⟨rfl, rfl⟩, ← hbalance, ownerBalance, hstored, if_pos hid.symm]
        rfl
      · have hne : Crypto.getAddress (.withSignature owner' a 0) ≠ r.id := by
          intro heq
          have hcases := haddr (heq.trans hid)
          simp only [WithdrawCondition.withSignature] at hcases
          grind
        rw [if_neg hsame, add_zero, ownerBalance, hstored, if_neg hne, ownerBalance]
    total := fun a => by
      have hold : Table.weight (fun _ (r : BalanceRecord) => r.sharesOf a) r.id
          (L.balances.lookup r.id) = if amount.assetId = a
            then (L.ownerBalance owner amount.assetId).balance.toInt else 0 := by
        rw [hid]
        rcases hlookup with hr | ⟨hr, hzero⟩
        · rw [hr, Table.weight_some, BalanceRecord.sharesOf, BalanceRecord.assetId, hplain]
          rfl
        · rw [hr, Table.weight_none, hzero]
          simp
      rw [balanceShares, balanceShares, storeBalance, Table.total_insert, hold,
        BalanceRecord.sharesOf, hasset, hbalance, givenIn_singleton]
      split <;> ring
    supply := fun a => by rw [issuedOf_nil]; simp [currentSupply, storeBalance]
    origin := fun id r' hr' => by
      rw [hstored] at hr'
      split at hr'
      · cases hr'
        exact .inr ⟨owner, amount.assetId, hcond⟩
      · exact .inl hr'
    otherBalances := fun id r' hr' => by
      rw [hstored]
      split
      · rename_i heq
        have hne : r ≠ r' := fun h => hr' (h ▸ hasset ▸ hissued)
        refine ⟨fun h => absurd (Option.some.inj h) hne, fun h => ?_⟩
        rcases hlookup with hr | ⟨hr, -⟩
        · rw [heq, hid, hr] at h
          cases h
          refine absurd ?_ hr'
          rw [BalanceRecord.assetId, hplain]
          exact hissued
        · rw [heq, hid, hr] at h
          cases h
      · rfl
    otherAssets := fun _ _ => rfl
    onlySupply := fun _ r' h => ⟨r', h, rfl⟩
    rest := rfl }

theorem issue (hL : L.WellFormed) {amount : Asset} {r : AssetRecord}
    (hr : L.assets.lookup amount.assetId = some r) (hgame : r.isGameIssued = true)
    (hissuer : r.issuerId = gameId) :
    Moved gameId L (L.storeAsset { r with currentSupply := r.currentSupply + amount.amount }) []
      [amount] := by
  have hid : r.id = amount.assetId := hL.assets _ _ hr
  have hstored : ∀ a, (L.storeAsset { r with currentSupply := r.currentSupply + amount.amount
      }).assets.lookup a = if a = amount.assetId then
        some { r with currentSupply := r.currentSupply + amount.amount }
      else L.assets.lookup a := by
    intro a
    rw [storeAsset, Table.lookup_insert_eq, hid]
  exact {
    wellFormed := hL.storeAsset _
    issued := fun a => by
      rw [IssuedBy, IssuedBy, hstored]
      split
      · rename_i heq
        subst heq
        exact ⟨fun _ => ⟨r, hr, hgame, hissuer⟩, fun _ => ⟨_, rfl, hgame, hissuer⟩⟩
      · rfl
    owner := fun _ _ => by rw [givenTo_nil, add_zero]; rfl
    total := fun _ => by rw [givenIn_nil, add_zero]; rfl
    supply := fun a => by
      rw [issuedOf_singleton, currentSupply, hstored]
      split
      · rename_i heq
        subst heq
        rw [if_pos rfl, currentSupply_of_lookup hr]
        rfl
      · rename_i hne
        rw [if_neg (Ne.symm hne), Int64.add_zero, currentSupply]
    origin := fun _ _ h => .inl h
    otherBalances := fun _ _ _ => Iff.rfl
    otherAssets := fun a ha => by
      rw [hstored, if_neg]
      rintro rfl
      exact ha ⟨r, hr, hgame, hissuer⟩
    onlySupply := fun a r' h => by
      rw [hstored] at h
      split at h
      · rename_i heq
        subst heq
        cases h
        exact ⟨r, hr, rfl⟩
      · exact ⟨r', h, rfl⟩
    rest := rfl }

end Moved

end Ledger

section

variable [Crypto]

/-! ## The value of `PLAY.evaluate` -/

def EvalState.held (e : EvalState) (a : AssetId) : ℤ := (e.feesPaid.getD a 0).toInt

/-- Paying out one entry after the other, every balance that is paid and the transaction's own
stay within 64 bits. -/
def EvalState.PaysWithin (e : EvalState) (credits : List (Address × Asset)) : Prop :=
  ∀ l, l <+: credits →
    (∀ owner a, -2 ^ 63 ≤
        (e.pending.view.ownerBalance owner a).balance.toInt + givenTo l owner a ∧
      (e.pending.view.ownerBalance owner a).balance.toInt + givenTo l owner a < 2 ^ 63) ∧
    ∀ a, -2 ^ 63 ≤ e.held a - givenIn l a ∧ e.held a - givenIn l a < 2 ^ 63

theorem EvalState.payOut_moved (haddr : Function.Injective Crypto.getAddress) {gameId : GameId}
    {e e' : EvalState} {entry : Address × Asset} (h : e.payOut gameId entry = .ok e')
    (he : e.pending.view.WellFormed) (hfits : e.PaysWithin [entry]) :
    Ledger.Moved gameId e.pending.view e'.pending.view [entry] [] ∧
      ∀ a, e'.held a = e.held a - givenIn [entry] a := by
  obtain ⟨owner, amount⟩ := entry
  simp only [payOut, bind_eq_ok, require_eq_ok, expect_eq_ok, pure_eq_ok, exists_and_left,
    exists_const, PendingLedger.getAssetRecord_eq, PendingLedger.getBalanceRecord_eq] at h
  obtain ⟨asset, hasset, hgame, hissuer, date, -, rfl⟩ := h
  obtain ⟨hbalance, hheld⟩ := hfits _ (List.prefix_refl _)
  constructor
  · have hb := hbalance owner amount.assetId
    rw [givenTo_singleton, if_pos ⟨rfl, rfl⟩] at hb
    simp only [subBalance_pending, PendingLedger.view_storeBalanceRecord]
    exact Ledger.Moved.credit haddr he ⟨asset, hasset, hgame, hissuer⟩ rfl
      (Int64.toInt_add_of_bounds hb.1 hb.2)
  · intro a
    have hh := hheld a
    rw [givenIn_singleton] at hh ⊢
    simp only [held, subBalance, getD_addTo]
    by_cases ha : a = amount.assetId
    · rw [if_pos ha.symm] at hh
      rw [if_pos ha, if_pos ha.symm, ← Int64.sub_eq_add_neg]
      exact Int64.toInt_sub_of_bounds hh.1 hh.2
    · rw [if_neg ha, if_neg (Ne.symm ha), sub_zero]

/-- **The payouts of a play** move the ledger by what they say. -/
theorem payOuts_moved (haddr : Function.Injective Crypto.getAddress) {gameId : GameId}
    {credits : List (Address × Asset)} {e e' : EvalState}
    (h : credits.foldlM (EvalState.payOut gameId) e = .ok e') (he : e.pending.view.WellFormed)
    (hfits : e.PaysWithin credits) :
    Ledger.Moved gameId e.pending.view e'.pending.view credits [] ∧
      ∀ a, e'.held a = e.held a - givenIn credits a := by
  induction credits generalizing e with
  | nil =>
    cases h
    exact ⟨.refl gameId he, fun a => by simp⟩
  | cons entry credits ih =>
    rw [List.foldlM_cons, bind_eq_ok] at h
    obtain ⟨m, hstep, hrest⟩ := h
    obtain ⟨hmoved, hheld⟩ := EvalState.payOut_moved haddr hstep he fun l hl =>
      hfits l (hl.trans ⟨credits, rfl⟩)
    -- the sums of the rest continue those of the first entry
    have hfits' : m.PaysWithin credits := by
      intro l hl
      obtain ⟨hbalance, hin⟩ := hfits (entry :: l) (List.cons_prefix_cons.2 ⟨rfl, hl⟩)
      refine ⟨fun owner a => ?_, fun a => ?_⟩
      · have hb := hbalance owner a
        rw [← List.singleton_append, givenTo_append, ← add_assoc, ← hmoved.owner] at hb
        exact hb
      · have hb := hin a
        rw [← List.singleton_append, givenIn_append, ← sub_sub, ← hheld] at hb
        exact hb
    obtain ⟨hmoved', hheld'⟩ := ih hrest hmoved.wellFormed hfits'
    refine ⟨hmoved.trans hmoved', fun a => ?_⟩
    have hsum := givenIn_append [entry] credits a
    rw [List.singleton_append] at hsum
    rw [hheld', hheld, hsum]
    ring

omit [Crypto] in
theorem EvalState.putData_same {gameId : GameId} {e e' : EvalState} {data : ScriptData}
    (h : e.putData gameId data = .ok e') :
    e'.pending.view = e.pending.view ∧ e'.feesPaid = e.feesPaid := by
  cases data with
  | object index data =>
    simp only [putData, bind_eq_ok, expect_eq_ok, pure_eq_ok] at h
    obtain ⟨index, -, rfl⟩ := h
    exact ⟨rfl, rfl⟩
  | number id => cases h; exact ⟨rfl, rfl⟩
  | other => cases h; exact ⟨rfl, rfl⟩

theorem PlayResult.apply_moved (haddr : Function.Injective Crypto.getAddress) {gameId : GameId}
    {result : PlayResult} {e e' : EvalState} (h : result.apply gameId e = .ok e')
    (he : e.pending.view.WellFormed) (hfits : e.PaysWithin result.toBalances) :
    Ledger.Moved gameId e.pending.view e'.pending.view result.toBalances [] ∧
      ∀ a, e'.held a = e.held a - givenIn result.toBalances a := by
  simp only [apply, bind_eq_ok] at h
  obtain ⟨m, hpaid, hdata⟩ := h
  obtain ⟨hmoved, hheld⟩ := payOuts_moved haddr hpaid he hfits
  obtain ⟨hview, hfees⟩ : e'.pending.view = m.pending.view ∧ e'.feesPaid = m.feesPaid :=
    foldlM_induction (P := fun s : EvalState =>
        s.pending.view = m.pending.view ∧ s.feesPaid = m.feesPaid)
      (fun data _ s s' hs hstep =>
        ⟨(EvalState.putData_same hstep).1.trans hs.1, (EvalState.putData_same hstep).2.trans hs.2⟩)
      hdata ⟨rfl, rfl⟩
  refine ⟨hview ▸ hmoved, fun a => ?_⟩
  rw [← hheld, EvalState.held, hfees, EvalState.held]

/-! ## The value of `PLAY.execute` -/

def ScriptWrite.credit : ScriptWrite → Option (Address × Asset)
  | .diffBalance owner amount => some (owner, amount)
  | _ => none

def ScriptWrite.issue : ScriptWrite → Option Asset
  | .diffSupply amount => some amount
  | _ => none

omit [Crypto] in
theorem attempt_eq_none {α : Type} {step : PendingState → α → Except Error PendingState}
    {l : List α} {p p' : PendingState} (h : attempt step l p = (none, p')) :
    l.foldlM step p = .ok p' := by
  induction l generalizing p with
  | nil => cases h; rfl
  | cons a l ih =>
    rw [attempt] at h
    rw [List.foldlM_cons, bind_eq_ok]
    cases hstep : step p a with
    | ok m => exact ⟨m, rfl, ih (by simpa [hstep] using h)⟩
    | error e => simp [hstep] at h

/-- The database and the pending state agree on the assets of a game. -/
def PendingState.KnowsIssued (p : PendingState) (s : ChainState) (gameId : GameId) : Prop :=
  ∀ a r, s.tables.assets.lookup a = some r → r.isGameIssued = true → r.issuerId = gameId →
    p.ledger.view.IssuedBy gameId a

theorem scriptWrite_moved (haddr : Function.Injective Crypto.getAddress) {s : ChainState}
    {cfg : NodeConfig} {gameId : GameId} {p p' : PendingState} {w : ScriptWrite}
    (h : scriptWrite s cfg gameId p w = .ok p') (hp : p.ledger.view.WellFormed)
    (hnonneg : p.ledger.view.balances.All fun _ r => 0 ≤ r.balance)
    (hknows : p.KnowsIssued s gameId) :
    Ledger.Moved gameId p.ledger.view p'.ledger.view w.credit.toList w.issue.toList ∧
      p'.ledger.view.balances.All fun _ r => 0 ≤ r.balance := by
  cases w with
  | result data => cases h; exact ⟨.refl gameId hp, hnonneg⟩
  | data entry =>
    cases entry with
    | object index data =>
      simp only [scriptWrite, bind_eq_ok, expect_eq_ok, pure_eq_ok] at h
      obtain ⟨index, -, rfl⟩ := h
      exact ⟨.refl gameId hp, hnonneg⟩
    | number id => cases h; exact ⟨.refl gameId hp, hnonneg⟩
    | other => cases h
  | diffBalance owner amount =>
    simp only [scriptWrite, bind_eq_ok, expect_eq_ok, require_eq_ok, pure_eq_ok, exists_and_left,
      exists_const, PendingLedger.getBalanceRecord_eq] at h
    obtain ⟨asset, hasset, hgame, hissuer, date, -, hpos, rfl⟩ := h
    have hold : 0 ≤ (p.ledger.view.ownerBalance owner amount.assetId).balance := by
      rw [Ledger.ownerBalance]
      cases hr : p.ledger.view.balances.lookup
          (Crypto.getAddress (.withSignature owner amount.assetId 0)) with
      | none => exact Int64.le_refl 0
      | some r => exact hnonneg _ _ hr
    rw [PendingLedger.view_storeBalanceRecord]
    exact ⟨.credit haddr hp (hknows _ _ hasset hgame hissuer) rfl
      (Int64.toInt_add_of_nonneg hold hpos), hnonneg.insert hpos⟩
  | diffSupply amount =>
    simp only [scriptWrite, bind_eq_ok, expect_eq_ok, require_eq_ok, pure_eq_ok, exists_and_left,
      exists_const, PendingLedger.getAssetRecord_eq] at h
    obtain ⟨asset, hasset, hgame, hissuer, rfl⟩ := h
    rw [PendingLedger.view_storeAssetRecord]
    exact ⟨.issue hp hasset hgame hissuer, hnonneg⟩
  | malformed => cases h

/-- **The writes of a script** move the ledger by what they say. -/
theorem scriptWrites_moved (haddr : Function.Injective Crypto.getAddress) {s : ChainState}
    {cfg : NodeConfig} {gameId : GameId} {writes : List ScriptWrite} {p p' : PendingState}
    (h : writes.foldlM (scriptWrite s cfg gameId) p = .ok p') (hp : p.ledger.view.WellFormed)
    (hnonneg : p.ledger.view.balances.All fun _ r => 0 ≤ r.balance)
    (hknows : p.KnowsIssued s gameId) :
    Ledger.Moved gameId p.ledger.view p'.ledger.view (writes.filterMap ScriptWrite.credit)
        (writes.filterMap ScriptWrite.issue) ∧
      p'.ledger.view.balances.All fun _ r => 0 ≤ r.balance := by
  induction writes generalizing p with
  | nil =>
    cases h
    exact ⟨.refl gameId hp, hnonneg⟩
  | cons w writes ih =>
    rw [List.foldlM_cons, bind_eq_ok] at h
    obtain ⟨m, hstep, hrest⟩ := h
    obtain ⟨hmoved, hm⟩ := scriptWrite_moved haddr hstep hp hnonneg hknows
    obtain ⟨hmoved', hp'⟩ := ih hrest hmoved.wellFormed hm fun a r hr hgame hissuer =>
      (hmoved.issued a).2 (hknows a r hr hgame hissuer)
    refine ⟨?_, hp'⟩
    have hcredits : ([w] ++ writes).filterMap ScriptWrite.credit = _ := List.filterMap_append
    have hissues : ([w] ++ writes).filterMap ScriptWrite.issue = _ := List.filterMap_append
    rw [List.singleton_append] at hcredits hissues
    rw [hcredits, hissues]
    cases w <;> exact hmoved.trans hmoved'

/-! ## Containment -/

/-- **When a script is contained.**  What `evaluate` accepts is contained, as far as no balance
leaves 64 bits, exactly if no owner ends below zero; what `execute` accepts exactly if every supply
changes by what is credited of its asset. -/
theorem containment_iff (haddr : Function.Injective Crypto.getAddress) :
    (∀ (op : GamePlayOperation) (client : GameClient) (e e' : EvalState) (game : GameRecord)
      (result : PlayResult), e.pending.view.WellFormed →
      (e.pending.view.balances.All fun _ r => 0 ≤ r.balance) →
      e.PaysWithin result.toBalances → e.pending.getGameRecord op.gameId = some game →
      client.evaluate e game op.data = .ok ([], result) → op.evaluate client e = .ok e' →
      (Ledger.Contained op.gameId e.pending.view e'.pending.view e.held e'.held ↔
        ∀ owner a, 0 ≤ (e.pending.view.ownerBalance owner a).balance.toInt +
          givenTo result.toBalances owner a)) ∧
    ∀ (node : GameNode) (s : ChainState) (cfg : NodeConfig) (n : BlockNum) (p p' : PendingState)
      (game : GameRecord) (writes : List ScriptWrite), p.ledger.view.WellFormed →
      (p.ledger.view.balances.All fun _ r => 0 ≤ r.balance) → p.KnowsIssued s game.id →
      node.execute s n p game = some ([], .ok writes) →
      p.runGame node s cfg n game = (none, p') →
      (Ledger.Contained game.id p.ledger.view p'.ledger.view 0 0 ↔
        ∀ a, p.ledger.view.IssuedBy game.id a →
          (p.ledger.view.currentSupply a + issuedOf (writes.filterMap ScriptWrite.issue) a).toInt =
            (p.ledger.view.currentSupply a).toInt +
              givenIn (writes.filterMap ScriptWrite.credit) a) := by
  constructor
  · intro op client e e' game result hwf hnonneg hfits hgame hclient h
    simp only [GamePlayOperation.evaluate, hgame, expect, hclient, bind, Except.bind,
      List.foldl_nil] at h
    obtain ⟨hmoved, hheld⟩ := result.apply_moved haddr h hwf hfits
    rw [hmoved.contained_iff hnonneg]
    refine and_iff_left fun a _ => ?_
    rw [issuedOf_nil, Int64.add_zero, hheld]
    ring
  · intro node s cfg n p p' game writes hwf hnonneg hknows hnode h
    rw [runGame, hnode] at h
    change attempt (scriptWrite s cfg game.id) writes p = (none, p') at h
    obtain ⟨hmoved, hnonneg'⟩ :=
      scriptWrites_moved haddr (attempt_eq_none h) hwf hnonneg hknows
    rw [hmoved.contained_iff hnonneg]
    simp only [Pi.zero_apply, sub_zero, add_zero]
    refine and_iff_right fun owner a => ?_
    rw [← hmoved.owner, Ledger.ownerBalance]
    cases hr : p'.ledger.view.balances.lookup
        (Crypto.getAddress (.withSignature owner a 0)) with
    | none => exact le_rfl
    | some r => exact Int64.le_iff_toInt_le.1 (hnonneg' _ _ hr)

end

/-! ## Scripts that exceed it -/

def chipTable : ChainTables :=
  { casinoTables with
    properties := (casinoTables.properties.insert .lastAccountId (.id 2)).insert .lastAssetId (.id 1)
    assets := casinoTables.assets.insert 1
      { id := 1, symbol := "CHIP", issuerType := gameIssuerId, issuerId := 1, name := "Chip",
        description := "", publicData := "", registrationDate := 1, lastUpdate := 1 }
    assetSymbols := casinoTables.assetSymbols.insert "CHIP" 1 }

def scriptedNode (result : PlayResult) (writes : List ScriptWrite) : GameNode where
  evaluate _ _ _ := .ok ([], result)
  execute _ _ _ _ := some ([], .ok writes)

def atCasino : EvalState :=
  .start shopContext (.over chipTable.toLedgerTables)
    { expiration := 200, operations := [.game (.play ⟨1, ""⟩)], signatures := [] } []

theorem containment_chip :
    letI := Crypto.transparent
    let node := scriptedNode ⟨[(7, ⟨5, 1⟩)], []⟩ [.diffBalance 7 ⟨5, 1⟩, .diffSupply ⟨5, 1⟩]
    let s : ChainState := { tables := chipTable }
    (∃ e', (⟨1, ""⟩ : GamePlayOperation).evaluate node.toGameClient atCasino = .ok e' ∧
      Ledger.Contained 1 atCasino.pending.view e'.pending.view atCasino.held e'.held) ∧
    ∃ p', (PendingState.over chipTable).runGame node s { clock := 100 } 1 diceGame = (none, p') ∧
      Ledger.Contained 1 (PendingState.over chipTable).ledger.view p'.ledger.view 0 0 := by
  let := Crypto.transparent
  let node := scriptedNode ⟨[(7, ⟨5, 1⟩)], []⟩ [.diffBalance 7 ⟨5, 1⟩, .diffSupply ⟨5, 1⟩]
  let s : ChainState := { tables := chipTable }
  obtain ⟨hplay, hrun⟩ := containment_iff WithdrawCondition.code_injective
  have hview : (PendingLedger.over chipTable.toLedgerTables).view =
      chipTable.toLedgerTables.ledger := PendingLedger.view_over _
  have hwf : (PendingLedger.over chipTable.toLedgerTables).view.WellFormed :=
    hview ▸ (by decide +kernel : chipTable.toLedgerTables.ledger.WellFormed)
  have hempty : ∀ id, (PendingLedger.over chipTable.toLedgerTables).view.balances.lookup id =
      none := fun id => by rw [hview]; rfl
  have hnonneg : (PendingLedger.over chipTable.toLedgerTables).view.balances.All
      fun _ r => 0 ≤ r.balance := fun id r hr => by rw [hempty] at hr; cases hr
  have howner : ∀ owner a, ((PendingLedger.over chipTable.toLedgerTables).view.ownerBalance owner
      a).balance.toInt = 0 := fun owner a => by rw [Ledger.ownerBalance, hempty]; rfl
  have hheld : ∀ a, atCasino.held a = 0 := fun a => rfl
  have hfive : ∀ owner a, 0 ≤ givenTo [(7, ⟨5, 1⟩)] owner a ∧
      givenTo [(7, ⟨5, 1⟩)] owner a ≤ 5 := fun owner a => by
    rw [givenTo_singleton]
    split <;> decide
  constructor
  · obtain ⟨e', h⟩ := exists_ok_of_isOk
      (x := (⟨1, ""⟩ : GamePlayOperation).evaluate node.toGameClient atCasino) (by decide +kernel)
    refine ⟨e', h, (hplay ⟨1, ""⟩ node.toGameClient atCasino e' diceGame _ hwf hnonneg
      (fun l hl => ⟨fun owner a => ?_, fun a => ?_⟩) (by decide +kernel) rfl h).2
        fun owner a => ?_⟩
    · rw [show (atCasino.pending.view.ownerBalance owner a).balance.toInt = 0 from howner owner a]
      rcases List.prefix_cons_iff.1 hl with rfl | ⟨l', rfl, hl'⟩
      · simp
      · obtain rfl := List.prefix_nil.1 hl'
        have := hfive owner a
        omega
    · rw [hheld]
      rcases List.prefix_cons_iff.1 hl with rfl | ⟨l', rfl, hl'⟩
      · simp
      · obtain rfl := List.prefix_nil.1 hl'
        rw [givenIn_singleton]
        split <;> decide
    · rw [show (atCasino.pending.view.ownerBalance owner a).balance.toInt = 0 from howner owner a,
        zero_add]
      exact (hfive owner a).1
  · have h : ((PendingState.over chipTable).runGame node s { clock := 100 } 1 diceGame).1.isNone =
        true := by decide +kernel
    have hsupply : (PendingLedger.over chipTable.toLedgerTables).view.currentSupply 1 = 0 := by
      decide +kernel
    refine ⟨_, Prod.ext (Option.isNone_iff_eq_none.1 h) rfl, (hrun node s { clock := 100 } 1
      (.over chipTable) _ diceGame _ hwf hnonneg (fun a r hr hgame hissuer => ⟨r, ?_, hgame, hissuer⟩)
      rfl (Prod.ext (Option.isNone_iff_eq_none.1 h) rfl)).2 fun a _ => ?_⟩
    · exact (congrArg (fun L => L.assets.lookup a) hview).trans hr
    · change ((PendingLedger.over chipTable.toLedgerTables).view.currentSupply a +
        issuedOf [⟨5, 1⟩] a).toInt = ((PendingLedger.over chipTable.toLedgerTables).view.currentSupply
          a).toInt + givenIn [(7, ⟨5, 1⟩)] a
      rw [issuedOf_singleton, givenIn_singleton]
      by_cases ha : 1 = a
      · subst ha
        rw [if_pos rfl, if_pos rfl, hsupply]
        decide
      · rw [if_neg ha, if_neg ha, Int64.add_zero, add_zero]

/-- A play that pays `-5` chips to somebody without chips leaves a balance below zero, and a run
that only changes the supply leaves chips that nobody has. -/
theorem chip_exceeded :
    letI := Crypto.transparent
    let node := scriptedNode ⟨[(7, ⟨-5, 1⟩)], []⟩ [.diffSupply ⟨5, 1⟩]
    let s : ChainState := { tables := chipTable }
    (∃ e', (⟨1, ""⟩ : GamePlayOperation).evaluate node.toGameClient atCasino = .ok e' ∧
      (e'.pending.view.ownerBalance 7 1).balance = -5 ∧
      ¬ Ledger.Contained 1 atCasino.pending.view e'.pending.view atCasino.held e'.held) ∧
    ∃ p', (PendingState.over chipTable).runGame node s { clock := 100 } 1 diceGame = (none, p') ∧
      ¬ Ledger.Contained 1 (PendingState.over chipTable).ledger.view p'.ledger.view 0 0 := by
  let := Crypto.transparent
  let node := scriptedNode ⟨[(7, ⟨-5, 1⟩)], []⟩ [.diffSupply ⟨5, 1⟩]
  let s : ChainState := { tables := chipTable }
  constructor
  · obtain ⟨e', h, hbalance, hlookup⟩ := exists_ok_of_any
      (x := (⟨1, ""⟩ : GamePlayOperation).evaluate node.toGameClient atCasino)
      (p := fun e' => (e'.pending.view.ownerBalance 7 1).balance = -5 ∧
        (e'.pending.view.balances.lookup (WithdrawCondition.withSignature 7 1 0).code).any
          (·.balance < 0)) (by decide +kernel)
    obtain ⟨r, hr, hneg⟩ := (Option.any_eq_true _ _).1 hlookup
    refine ⟨e', h, hbalance, fun hc => ?_⟩
    have hnonneg := hc.nonneg _ r hr
    exact absurd (of_decide_eq_true hneg) (Int64.not_lt.2 hnonneg)
  · let p' := ((PendingState.over chipTable).runGame node s { clock := 100 } 1 diceGame).2
    have h : ((PendingState.over chipTable).runGame node s { clock := 100 } 1 diceGame).1.isNone =
        true := by decide +kernel
    have hissued : (PendingState.over chipTable).ledger.view.IssuedBy 1 1 := by
      obtain ⟨r, hr, hgame⟩ := exists_some_of_any
        (o := (PendingState.over chipTable).ledger.view.assets.lookup 1)
        (p := fun r => r.isGameIssued = true ∧ r.issuerId = 1) (by decide +kernel)
      exact ⟨r, hr, hgame⟩
    refine ⟨p', Prod.ext (Option.isNone_iff_eq_none.1 h) rfl, fun hc => ?_⟩
    have hsupply := hc.supply 1 hissued
    have hbefore : (PendingState.over chipTable).ledger.view.currentSupply 1 = 0 := by
      decide +kernel
    have hafter : p'.ledger.view.currentSupply 1 = 5 := by decide +kernel
    have hsame : p'.ledger.view.balanceShares 1 =
        (PendingState.over chipTable).ledger.view.balanceShares 1 := by
      decide +kernel
    rw [hbefore, hafter, hsame] at hsupply
    simp at hsupply

end BitShares
