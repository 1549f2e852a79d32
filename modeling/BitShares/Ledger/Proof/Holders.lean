import BitShares.Ledger.Proof.Control
import BitShares.Ledger.Proof.Spending

/-!
# What holders of an asset rely on

`TransactionRun.Through` is a run with the states it passes: those between two operations of a
transaction, too.  While shares of an asset are out in each of them, `holder_protection` says that
its precision stays, that its authority gains no permission and activates only what it was permitted
at the start, and that the supply limit and the fees move only under their flags.
-/

namespace BitShares

section

variable [Crypto]

/-- The states an accepted transaction passes: one before each operation, `e₁` after the last of
them, and `e'` after the fees and votes. -/
def transactionStates (ctx : EvalContext) (p : PendingLedger) (trx : SignedTransaction)
    (e₁ e' : EvalState) : List Ledger :=
  (transactionTrace ctx p trx).map (·.1.ledger) ++ [e₁.ledger, e'.ledger]

inductive TransactionRun.Through (p : PendingLedger) : List Ledger → PendingLedger → Prop
  | refl : Through p [p.view] p
  | step {q : PendingLedger} {states : List Ledger} {ctx : EvalContext} {trx : SignedTransaction}
      {e₁ e : EvalState} (hrun : Through p states q) (h₁ : evaluateToFees ctx q trx = .ok e₁)
      (h : evaluateLedger ctx q trx = .ok e) :
      Through p (states ++ transactionStates ctx q trx e₁ e) e.pending
  | rebase {q q' : PendingLedger} {states : List Ledger} (hrun : Through p states q)
      (hview : q'.view = q.view) : Through p states q'

/-! ## One step -/

def Ledger.KeepsTerms (L M : Ledger) : Prop :=
  ∀ a r, L.assets.lookup a = some r → ∃ r', M.assets.lookup a = some r' ∧ r.KeepsTerms r'

omit [Crypto] in
theorem Ledger.KeepsTerms.of_eq {L M : Ledger} (h : M.assets = L.assets) : L.KeepsTerms M :=
  fun _ r hr => ⟨r, h ▸ hr, .of_eq rfl⟩

theorem Ledger.KeepsTerms.of_insert {L M : Ledger} {id : AssetId} {r r' : AssetRecord}
    (hwf : L.WellFormed) (hr : L.assets.lookup id = some r) (hterms : r.KeepsTerms r')
    (hM : M.assets = L.assets.insert r'.id r') : L.KeepsTerms M := by
  intro a m hm
  rw [hM]
  by_cases ha : a = r'.id
  · have hid : id = a := by rw [ha, hterms.id, hwf.assets _ _ hr]
    subst hid
    rw [hr] at hm
    cases hm
    exact ⟨r', by rw [ha, Finmap.lookup_insert], hterms⟩
  · exact ⟨m, by rw [Finmap.lookup_insert_of_ne _ ha, hm], .of_eq rfl⟩

theorem evaluateOperation_terms {e e' : EvalState} {op : Operation} (hwf : e.ledger.WellFormed)
    (h : e.evaluateOperation op = .ok e') : e.ledger.KeepsTerms e'.ledger := by
  have hstep := evaluateOperation_assets h
  generalize ht : e'.ledger.assets = t at hstep
  cases hstep with
  | frame => exact .of_eq ht
  | create r hnew =>
    intro a m hm
    have hne : a ≠ r.id := by
      rintro rfl
      rw [hnew] at hm
      cases hm
    exact ⟨m, by rw [ht, Finmap.lookup_insert_of_ne _ hne, hm], .of_eq rfl⟩
  | update hr _ _ hterms => exact .of_insert hwf hr hterms ht
  | @whitelist op r hr =>
    have hterms : r.KeepsTerms { r with whitelist := op.whitelist r } := .of_eq rfl
    exact .of_insert hwf hr hterms ht

theorem evaluateLedger_feeTerms {ctx : EvalContext} {p : PendingLedger} {trx : SignedTransaction}
    {e₁ e' : EvalState} (hp : p.view.WellFormed) (h₁ : evaluateToFees ctx p trx = .ok e₁)
    (h : evaluateLedger ctx p trx = .ok e') : e₁.ledger.KeepsTerms e'.ledger := by
  obtain ⟨m, hm, -, hassets⟩ := evaluateLedger_afterOperations hp h
  rw [h₁] at hm
  cases hm
  intro a r hr
  rw [hassets, hr]
  exact ⟨_, rfl, .of_eq rfl⟩

/-! ## The states of a run -/

theorem evaluateOperations_terms {e e' : EvalState} {ops : List Operation}
    (hwf : e.ledger.WellFormed) (h : e.evaluateOperations ops = .ok e') :
    ((e.trace ops).map (·.1.ledger) ++ [e'.ledger]).head? = some e.ledger ∧
      ((e.trace ops).map (·.1.ledger) ++ [e'.ledger]).IsChain Ledger.KeepsTerms := by
  induction ops generalizing e with
  | nil =>
    cases h
    exact ⟨rfl, .singleton _⟩
  | cons op ops ih =>
    obtain ⟨m, hm, hrest, htrace⟩ := evaluateOperations_cons h
    have hwf' : m.ledger.WellFormed := evaluateOperation_wellFormed hm hwf
    obtain ⟨hhead, hchain⟩ := ih (e := m.next) hwf' hrest
    rw [htrace, List.map_cons, List.cons_append]
    refine ⟨rfl, List.isChain_cons.2 ⟨fun M hM => ?_, hchain⟩⟩
    obtain rfl : m.next.ledger = M := by simpa [hhead] using hM
    exact show e.ledger.KeepsTerms m.ledger from evaluateOperation_terms hwf hm

theorem transactionStates_terms {ctx : EvalContext} {p : PendingLedger} {trx : SignedTransaction}
    {e₁ e' : EvalState} (hp : p.view.WellFormed) (h₁ : evaluateToFees ctx p trx = .ok e₁)
    (h : evaluateLedger ctx p trx = .ok e') :
    (transactionStates ctx p trx e₁ e').head? = some p.view ∧
      (transactionStates ctx p trx e₁ e').IsChain Ledger.KeepsTerms := by
  obtain ⟨signers, hops, htrace⟩ := evaluateToFees_eq_ok h₁
  obtain ⟨hhead, hchain⟩ := evaluateOperations_terms (e := .start ctx p trx signers) hp hops
  have hstates : transactionStates ctx p trx e₁ e' =
      (((EvalState.start ctx p trx signers).trace trx.operations).map (·.1.ledger) ++
        [e₁.ledger]) ++ [e'.ledger] := by
    rw [transactionStates, htrace, List.append_assoc]
    rfl
  rw [hstates]
  refine ⟨by rw [List.head?_append, hhead]; rfl,
    List.isChain_append.2 ⟨hchain, .singleton _, fun L hL M hM => ?_⟩⟩
  obtain rfl : e₁.ledger = L := by simpa using hL
  obtain rfl : e'.ledger = M := by simpa using hM
  exact evaluateLedger_feeTerms hp h₁ h

/-- A run ends in the last of its states, and from each to the next every asset keeps its terms. -/
theorem TransactionRun.Through.terms {p q : PendingLedger} {states : List Ledger}
    (hp : p.view.WellFormed) (hrun : Through p states q) :
    q.view.WellFormed ∧ states.getLast? = some q.view ∧ states.IsChain Ledger.KeepsTerms := by
  induction hrun with
  | refl => exact ⟨hp, rfl, .singleton _⟩
  | @step q states ctx trx e₁ e _ h₁ h ih =>
    obtain ⟨hwf, hlast, hchain⟩ := ih
    obtain ⟨hhead, hstates⟩ := transactionStates_terms hwf h₁ h
    refine ⟨evaluateLedger_wellFormed h hwf, ?_, List.isChain_append.2 ⟨hchain, hstates, ?_⟩⟩
    · simp [transactionStates, EvalState.ledger]
    · intro L hL M hM
      obtain rfl : q.view = L := by simpa [hlast] using hL
      obtain rfl : q.view = M := by simpa [hhead] using hM
      exact .of_eq rfl
  | rebase _ hview ih => rwa [hview]

/-! ## The guarantees -/

def Ledger.Outstanding (a : AssetId) (L : Ledger) : Prop :=
  ∃ r, L.assets.lookup a = some r ∧ r.currentSupply ≠ 0

instance (a : AssetId) (L : Ledger) : Decidable (L.Outstanding a) :=
  decidable_of_iff ((L.assets.lookup a).any (·.currentSupply ≠ 0)) (by
    simp [Ledger.Outstanding, Option.any_eq_true])

/-- What the record `r'` of a later state owes to holders under the earlier record `r`. -/
structure AssetRecord.Protected (r r' : AssetRecord) : Prop where
  precision : r'.precision = r.precision
  permissions : ∀ flag ∈ flagBits,
    r'.authorityHasFlagPermission flag → r.authorityHasFlagPermission flag
  activated : ∀ flag ∈ flagBits, r'.activeFlags &&& flag ≠ 0 →
    r.activeFlags &&& flag ≠ 0 ∨ r.authorityHasFlagPermission flag
  active : ∀ flag ∈ flagBits, r'.flagIsActive flag → r.authorityHasFlagPermission flag

omit [Crypto] in
theorem AssetRecord.Protected.trans {r s t : AssetRecord} (h : r.Protected s)
    (h' : s.Protected t) : r.Protected t where
  precision := h'.precision.trans h.precision
  permissions flag hmem ht := h.permissions flag hmem (h'.permissions flag hmem ht)
  activated flag hmem ht :=
    (h'.activated flag hmem ht).elim (h.activated flag hmem)
      fun hs => .inr (h.permissions flag hmem hs)
  active flag hmem ht := h.permissions flag hmem (h'.active flag hmem ht)

omit [Crypto] in
theorem AssetRecord.KeepsTerms.protected {r r' : AssetRecord} (h : r.KeepsTerms r')
    (hr : r.currentSupply ≠ 0) : r.Protected r' where
  precision := h.precision hr
  permissions := h.permissions hr
  activated flag hmem hflag := (h.flags flag hmem hflag).imp_right (h.permissions hr flag hmem)
  active flag hmem hflag := by
    rw [AssetRecord.flagIsActive, Bool.and_eq_true] at hflag
    exact h.permissions hr flag hmem hflag.1

structure AssetRecord.MovesUnderFlags (r r' : AssetRecord) : Prop where
  maxSupply : r'.maxSupply ≠ r.maxSupply → r.flagIsActive dynamicMaxSupply
  withdrawalFee : r'.withdrawalFee ≠ r.withdrawalFee → r.flagIsActive dynamicFees
  marketFeeRate : r'.marketFeeRate ≠ r.marketFeeRate → r.flagIsActive dynamicFees

def Ledger.Relates (a : AssetId) (R : AssetRecord → AssetRecord → Prop) (L M : Ledger) : Prop :=
  ∃ r r', L.assets.lookup a = some r ∧ M.assets.lookup a = some r' ∧ R r r'

omit [Crypto] in
theorem Ledger.Relates.trans {a : AssetId} {R : AssetRecord → AssetRecord → Prop}
    (hR : ∀ {r s t}, R r s → R s t → R r t) {L M N : Ledger} (h : L.Relates a R M)
    (h' : M.Relates a R N) : L.Relates a R N := by
  obtain ⟨r, s, hr, hs, hrs⟩ := h
  obtain ⟨s', t, hs', ht, hst⟩ := h'
  rw [hs] at hs'
  cases hs'
  exact ⟨r, t, hr, ht, hR hrs hst⟩

omit [Crypto] in
theorem Ledger.KeepsTerms.relates {a : AssetId} {L M : Ledger} (h : L.KeepsTerms M)
    (hL : L.Outstanding a) :
    L.Relates a AssetRecord.Protected M ∧ L.Relates a AssetRecord.MovesUnderFlags M := by
  obtain ⟨r, hr, hsupply⟩ := hL
  obtain ⟨r', hr', hterms⟩ := h a r hr
  exact ⟨⟨r, r', hr, hr', hterms.protected hsupply⟩, r, r', hr, hr', hterms.maxSupply hsupply,
    fun hne => hterms.fees hsupply (.inl hne), fun hne => hterms.fees hsupply (.inr hne)⟩

/-- **Holder protection.**  In a run whose every state has shares of the asset out, any later state
owes the holders of any earlier one its precision and the limits on the authority, and from one
state to the next the supply limit and the fees move only if the flag for it is active. -/
theorem holder_protection {p q : PendingLedger} {states : List Ledger} {a : AssetId}
    (hp : p.view.WellFormed) (hrun : TransactionRun.Through p states q)
    (hout : ∀ L ∈ states, L.Outstanding a) :
    states.Pairwise (Ledger.Relates a AssetRecord.Protected) ∧
      states.IsChain (Ledger.Relates a AssetRecord.MovesUnderFlags) := by
  obtain ⟨-, -, hchain⟩ := hrun.terms hp
  have hrelates : states.IsChain fun L M => L.Relates a AssetRecord.Protected M ∧
      L.Relates a AssetRecord.MovesUnderFlags M :=
    hchain.imp_of_mem_imp fun L M hL _ h => h.relates (hout L hL)
  have : Trans (Ledger.Relates a AssetRecord.Protected) (Ledger.Relates a AssetRecord.Protected)
      (Ledger.Relates a AssetRecord.Protected) := ⟨Ledger.Relates.trans .trans⟩
  exact ⟨(hrelates.imp fun _ _ h => h.1).pairwise, hrelates.imp fun _ _ h => h.2⟩

end

/-- The shares of `purseTables` and 500 of an asset whose supply limit key 7 may move. -/
def issuedTables : LedgerTables where
  assets := purseTables.assets.insert 1
    { id := 1, symbol := "GOLD", name := "Gold", description := "", publicData := "",
      issuerType := userIssuerId, issuerId := 1,
      authority := { owners := OrdSet.insert ∅ 7 },
      authorityFlagPermissions := dynamicMaxSupply, activeFlags := dynamicMaxSupply,
      registrationDate := 1, lastUpdate := 1, maxSupply := 1000, currentSupply := 500 }
  balances := purseTables.balances

def capTransaction : SignedTransaction where
  expiration := 200000
  operations := [.assetUpdateProperties { assetId := 1, maxSupply := some 2000 },
    .assetUpdatePermissions { assetId := 1, authorityFlagPermissions := some 0 }]
  signatures := [7]

theorem holder_protection_cap :
    letI := Crypto.transparent
    ∃ e₁ e states, evaluateToFees purseContext (.over issuedTables) capTransaction = .ok e₁ ∧
      evaluateLedger purseContext (.over issuedTables) capTransaction = .ok e ∧
      TransactionRun.Through (.over issuedTables) states e.pending ∧
      (e.ledger.assets.lookup 1).any (·.maxSupply = 2000) ∧
      states.Pairwise (Ledger.Relates 1 AssetRecord.Protected) ∧
      states.IsChain (Ledger.Relates 1 AssetRecord.MovesUnderFlags) := by
  let := Crypto.transparent
  obtain ⟨x, h, hx⟩ := exists_ok_of_any
    (x := do
      let e₁ ← evaluateToFees purseContext (.over issuedTables) capTransaction
      let e ← evaluateLedger purseContext (.over issuedTables) capTransaction
      pure (e₁, e))
    (p := fun (e₁, e) => (e.ledger.assets.lookup 1).any (·.maxSupply = 2000) ∧
      ∀ L ∈ [(PendingLedger.over issuedTables).view] ++
        transactionStates purseContext (.over issuedTables) capTransaction e₁ e, L.Outstanding 1)
    (by decide +kernel)
  simp only [bind_eq_ok, pure_eq_ok] at h
  obtain ⟨e₁, h₁, e, he, rfl⟩ := h
  obtain ⟨hcap, hout⟩ := hx
  have hrun := TransactionRun.Through.step .refl h₁ he
  exact ⟨e₁, e, _, h₁, he, hrun, hcap, holder_protection (by decide +kernel) hrun hout⟩

end BitShares
