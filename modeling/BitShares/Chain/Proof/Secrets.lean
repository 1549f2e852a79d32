import BitShares.Chain.Proof.Apply
import BitShares.Chain.Run

/-!
# Secrets are revealed as they were committed to

A block carries the hash of a secret that its delegate has to reveal in its next block, and the
random seed that orders the delegates is made of what is revealed.

* `evaluateLedger_commits`: no transaction changes what a delegate has committed to.
* `extendChain_commits`: a block reveals what its signer has committed to, and commits anew.
* `secrets_revealed`: whole runs.
-/

namespace BitShares

def AccountRecord.commitment (r : AccountRecord) : Option SecretHash :=
  r.delegateInfo.bind (·.nextSecretHash)

def commitment (t : Table AccountId AccountRecord) (id : AccountId) : Option SecretHash :=
  (t.lookup id).bind (·.commitment)

theorem commitment_insert (t : Table AccountId AccountRecord) (r : AccountRecord) (id : AccountId) :
    commitment (t.insert r.id r) id = if id = r.id then r.commitment else commitment t id := by
  unfold commitment
  rw [Table.lookup_insert_eq]
  split <;> rfl

theorem commitment_of_lookup {t : Table AccountId AccountRecord} {id : AccountId}
    {r : AccountRecord} (h : t.lookup id = some r) : commitment t id = r.commitment := by
  rw [commitment, h]
  rfl

section

variable [Crypto]

/-- The ledger is in order, and the accounts have committed to `c`. -/
structure Commits (c : AccountId → Option SecretHash) (L : Ledger) : Prop where
  wellFormed : L.WellFormed
  committed : ∀ id, commitment L.accounts id = c id

variable {c : AccountId → Option SecretHash}

namespace Commits

variable {L L' : Ledger}

theorem of_accounts (h : Commits c L) (hL' : L'.WellFormed) (haccounts : L'.accounts = L.accounts) :
    Commits c L' :=
  ⟨hL', fun id => by rw [haccounts, h.committed]⟩

theorem update (h : Commits c L) {id : AccountId} {r r' : AccountRecord}
    (hr : L.accounts.lookup id = some r) (hid : r'.id = r.id)
    (hkeeps : r'.commitment = r.commitment) : Commits c (L.storeAccount r') := by
  refine ⟨h.wellFormed.updateAccount hr hid, fun id' => ?_⟩
  change commitment (L.accounts.insert r'.id r') id' = c id'
  rw [commitment_insert, ← h.committed]
  split_ifs with hid'
  · rw [hid', hid, h.wellFormed.accounts _ _ hr, commitment_of_lookup hr, hkeeps]
  · rfl

theorem updateStats (h : Commits c L) {id : AccountId} {r r' : AccountRecord} {d d' : DelegateStats}
    (hr : L.accounts.lookup id = some r) (hd : r.delegateInfo = some d) (hid : r'.id = r.id)
    (hd' : r'.delegateInfo = some d') (hkeeps : d'.nextSecretHash = d.nextSecretHash) :
    Commits c (L.storeAccount r') := by
  refine h.update hr hid ?_
  rw [AccountRecord.commitment, AccountRecord.commitment, hd, hd']
  exact hkeeps

theorem paid (h : Commits c L) (hpaid : L.Paid L') : Commits c L' := by
  have hL' := hpaid.wellFormed h.wellFormed
  cases hpaid with
  | @intro _ _ r d _ accepted _ hr hd =>
    exact of_accounts (L := L.storeAccount { r with delegateInfo := d.paid (accepted + accepted) })
      (h.updateStats hr hd rfl rfl rfl) hL' rfl

theorem bookkept (h : Commits c L) (hbook : Relation.ReflTransGen Ledger.Bookkeeping L L')
    (haccounts : L'.accounts = L.accounts) : Commits c L' := by
  refine h.of_accounts ?_ haccounts
  clear haccounts
  induction hbook with
  | refl => exact h.wellFormed
  | tail _ hstep ih => exact hstep.wellFormed ih

end Commits

/-! ## Transactions -/

theorem RegisterAccountOperation.evaluate_commits {op : RegisterAccountOperation} {e e' : EvalState}
    (h : op.evaluate e = .ok e') (hc : Commits c e.ledger) (hL' : e'.ledger.WellFormed) :
    Commits c e'.ledger := by
  simp only [evaluate, bind_eq_ok, require_eq_ok, pure_eq_ok, exists_and_left, exists_const,
    Prod.exists, AccountRecord.setActiveKey] at h
  obtain ⟨-, -, -, -, -, id, pending, hid, r, ⟨-, rfl⟩, d, regFee, hd, rfl⟩ := h
  obtain ⟨hlast, rfl⟩ := PendingLedger.newAccountId_eq_ok hid
  have hnone : d.bind (·.nextSecretHash) = none := by
    unfold delegatePart at hd
    split at hd
    · simp only [bind_eq_ok, pure_eq_ok, Prod.mk.injEq] at hd
      obtain ⟨_, -, rfl, -⟩ := hd
      rfl
    · cases hd
      rfl
  have hfree : commitment e.ledger.accounts id = none := by
    rw [commitment, hc.wellFormed.newAccount hlast]
    rfl
  refine ⟨hL', fun id' => ?_⟩
  change commitment (PendingLedger.view _).accounts id' = _
  rw [PendingLedger.view_storeAccountRecord, PendingLedger.view_storePropertyRecord]
  refine (commitment_insert _ _ id').trans ?_
  split_ifs with hid'
  · refine Eq.trans hnone ?_
    rw [← hc.committed, hid']
    exact hfree.symm
  · exact hc.committed id'

theorem UpdateAccountOperation.evaluate_commits {op : UpdateAccountOperation} {e e' : EvalState}
    (h : op.evaluate e = .ok e') (hc : Commits c e.ledger) : Commits c e'.ledger := by
  simp only [evaluate, bind_eq_ok, require_eq_ok, expect_eq_ok, pure_eq_ok, exists_and_left,
    exists_const, Prod.exists, PendingLedger.getAccountRecord_eq] at h
  obtain ⟨r, hr, -, k, hk, s, regFee, hs, rfl⟩ := h
  obtain ⟨hid, hinfo⟩ := updateActiveKey_standing hk
  have hkeeps : s.commitment = k.commitment := by
    rcases updateDelegate_eq_ok hs with ⟨-, -, rfl⟩ | ⟨d, hd, -, rfl⟩ | ⟨hd, -, rfl⟩
    · rfl
    all_goals
      replace hd : k.delegateInfo = _ := hd
      rw [AccountRecord.commitment, AccountRecord.commitment, hd]
      rfl
  change Commits c (PendingLedger.view _)
  rw [PendingLedger.view_storeAccountRecord]
  refine hc.update hr ((updateDelegate_standing hs).1.id.trans hid) (hkeeps.trans ?_)
  rw [AccountRecord.commitment, AccountRecord.commitment, hinfo]

theorem evaluateOperation_commits {e e' : EvalState} {op : Operation}
    (h : e.evaluateOperation op = .ok e') (hc : Commits c e.ledger) : Commits c e'.ledger := by
  have hL' := evaluateOperation_wellFormed h hc.wellFormed
  have hleaves := evaluateOperation_leaves h
  cases op with
  | registerAccount op => exact op.evaluate_commits h hc hL'
  | updateAccount op => exact op.evaluate_commits h hc
  | withdrawPay op =>
    obtain ⟨-, r, d, hr, hd, -, heff⟩ := op.evaluate_effect h
    rw [heff.ledger]
    exact hc.updateStats hr hd rfl rfl rfl
  | updateSigningKey op =>
    obtain ⟨r, d, hr, hd, -, heff⟩ := op.evaluate_eq_ok h
    rw [heff.ledger]
    exact hc.updateStats hr hd rfl rfl rfl
  | _ => exact hc.of_accounts hL' (hleaves.accounts rfl)

/-- **A transaction** changes no commitment. -/
theorem evaluateLedger_commits {ctx : EvalContext} {p : PendingLedger} {trx : SignedTransaction}
    {e : EvalState} (h : evaluateLedger ctx p trx = .ok e) (hc : Commits c p.view) :
    Commits c e.ledger := by
  obtain ⟨e₁, e₂, p₃, total, h₁, h₂, h₃, h₄⟩ := evaluateLedger_phases h
  obtain ⟨signers, hops, -⟩ := evaluateToFees_eq_ok h₁
  have hc₁ : Commits c e₁.ledger := evaluateOperations_induction
    (P := fun e => Commits c e.ledger) (fun _ h => h)
    (fun _ _ _ _ hc h => evaluateOperation_commits h hc) hops hc
  obtain ⟨hcoll, hwf₂, -⟩ := EvalState.validateFees_effect hc₁.wellFormed h₂
  have hc₂ : Commits c e₂.ledger := hc₁.of_accounts hwf₂ (by rw [hcoll.rest])
  have hc₃ : Commits c p₃.view := by
    refine foldlM_induction (P := fun q : PendingLedger => Commits c q.view)
      (fun delta _ q q' hq hstep => ?_) h₃ hc₂
    obtain ⟨r, d, hr, hd, hview⟩ := PendingLedger.adjustVotesFor_effect hstep
    rw [hview]
    exact hq.updateStats hr hd rfl rfl rfl
  rcases EvalState.updateRpValues_record h₄ with rfl | ⟨id, r, rp, hr, haccounts⟩
  · exact hc₃
  · have hid : ({ r with rp := rp } : AccountRecord).id = r.id := rfl
    exact (hc₃.update hr hid rfl).of_accounts (evaluateLedger_wellFormed h hc.wellFormed) haccounts

/-! ## The phases of a block -/

namespace PendingState

theorem updateDelegateProductionInfo_commits {s : ChainState} {cfg : NodeConfig} {b : FullBlock}
    {signee : PublicKey} {p : PendingState}
    (h : (PendingState.over s.tables).updateDelegateProductionInfo s cfg b signee = .ok p)
    (hc : Commits c s.tables.ledger) :
    ∃ signer, s.tables.accountByAddress (Crypto.address signee) = some signer ∧
      (∀ x, c signer.id = some x → Crypto.secretHash b.previousSecret = x) ∧
      Commits (Function.update c signer.id (some b.nextSecretHash)) p.ledger.view := by
  have hview : (PendingState.over s.tables).ledger.view = s.tables.ledger :=
    PendingLedger.view_over _
  simp only [updateDelegateProductionInfo, bind_eq_ok, expect_eq_ok, require_eq_ok,
    exists_and_left, exists_const, PendingLedger.getAccountRecord_eq, hview] at h
  obtain ⟨signer, hsigner, -, r, hr, d, hd, hsecret, delegates, -, hslots⟩ := h
  have hown : r.id = signer.id := hc.wellFormed.accounts _ _ hr
  refine ⟨signer, hsigner, fun x hx => ?_, ?_⟩
  · rw [← hc.committed, commitment_of_lookup hr, AccountRecord.commitment, hd] at hx
    have hnext : d.nextSecretHash = some x := hx
    simpa [hnext] using hsecret
  · refine foldlM_induction (P := fun q : PendingState =>
      Commits (Function.update c signer.id (some b.nextSecretHash)) q.ledger.view)
      (fun slot _ q q' hq hstep => ?_) hslots ?_
    · simp only [missSlot, bind_eq_ok, expect_eq_ok, pure_eq_ok,
        PendingLedger.getAccountRecord_eq] at hstep
      obtain ⟨_, -, r, hr, d, hd, rfl⟩ := hstep
      rw [ledger_noteSlot, storeAccount, PendingLedger.view_storeAccountRecord]
      exact hq.updateStats hr hd rfl rfl rfl
    · rw [ledger_noteSlot, storeAccount, PendingLedger.view_storeAccountRecord, hview]
      refine ⟨hc.wellFormed.updateAccount hr rfl, fun id => ?_⟩
      refine (commitment_insert _ _ id).trans ?_
      rw [Function.update_apply, ← hown]
      split_ifs
      · rfl
      · exact hc.committed id

omit [Crypto] in
theorem executeMarkets_accounts {s : ChainState} {cfg : NodeConfig} {p p' : PendingState}
    (h : p.executeMarkets s cfg = .ok p') : p'.ledger.accounts = p.ledger.accounts := by
  simp only [executeMarkets, bind_eq_ok, pure_eq_ok] at h
  obtain ⟨q, hq, rfl⟩ := h
  change q.ledger.accounts = _
  refine foldlM_induction (P := fun q : PendingState => q.ledger.accounts = p.ledger.accounts)
    (fun market _ q q' hq hstep => Eq.trans ?_ hq) hq rfl
  simp only [bind_eq_ok, require_eq_ok, pure_eq_ok, exists_and_left, exists_const] at hstep
  obtain ⟨-, rfl⟩ := hstep
  unfold executeMarket
  dsimp only
  split <;> rfl

theorem closing_accounts {s : ChainState} {cfg : NodeConfig} {b : FullBlock} {p p' : PendingState}
    (h : ((p.updateActiveDelegateList s.tables b.blockNum).updateRandomSeed
      b.previousSecret).payOperationRewards s cfg b.blockNum = .ok p') :
    p'.ledger.view.accounts = p.ledger.view.accounts := by
  have hcredits : ∀ (l : List (Address × ShareType)) (now : Time) (L : Ledger),
      (L.creditAll now l).accounts = L.accounts := by
    intro l now
    induction l with
    | nil => exact fun _ => rfl
    | cons e l ih => exact fun L => ih _
  have hrewards : ∀ L L' : Ledger, L.Rewarded L' → L'.accounts = L.accounts := by
    rintro L _ ⟨now, -, -⟩
    exact hcredits _ now L
  have hround : ((p.updateActiveDelegateList s.tables b.blockNum).updateRandomSeed
      b.previousSecret).ledger.accounts = p.ledger.accounts := by
    unfold updateActiveDelegateList
    split <;> rfl
  refine Eq.trans ?_ (congrArg Layered.view hround)
  rcases (payOperationRewards_effect h).1 with hsame | hrewarded
  · rw [hsame]
    rfl
  · exact hrewards _ _ hrewarded

end PendingState

/-! ## Blocks -/

def ChainState.signer (s : ChainState) (cfg : NodeConfig) (b : FullBlock) : Option AccountId :=
  match s.blockSignee cfg b with
  | .error _ => none
  | .ok key => (s.tables.accountByAddress (Crypto.address key)).map (·.id)

/-- **A block reveals what its signer has committed to**, commits anew, and changes no other
commitment. -/
theorem extendChain_commits {s s' : ChainState} {cfg : NodeConfig} {b : FullBlock}
    (h : s.extendChain cfg b = .ok s') (hc : Commits c s.tables.ledger) {id : AccountId}
    (hid : s.signer cfg b = some id) :
    (∀ x, c id = some x → Crypto.secretHash b.previousSecret = x) ∧
      Commits (Function.update c id (some b.nextSecretHash)) s'.tables.ledger := by
  obtain ⟨p, hp, hledger⟩ := extendChain_ledger h
  simp only [ChainState.evaluateBlock, ChainState.evaluateBlockBy, bind_eq_ok] at hp
  obtain ⟨signee, hsignee, ⟨⟩, -, p₁, h₁, p₂, h₂, p₃, h₃, p₄, h₄, h₅⟩ := hp
  obtain ⟨signer, hsigner, hreveals, hc₁⟩ := PendingState.updateDelegateProductionInfo_commits h₁ hc
  simp only [ChainState.signer, hsignee, hsigner, Option.map_some, Option.some.injEq] at hid
  subst hid
  refine ⟨hreveals, ?_⟩
  have hmoves := (PendingState.updateDelegateProductionInfo_effect h₁).1
  rw [show (PendingState.over s.tables).ledger.view = s.tables.ledger from
    PendingLedger.view_over _] at hmoves
  have hc₂ := hc₁.paid (PendingState.payDelegate_effect h₂ (Ledger.assets_of_bookkeeping hmoves))
  have hc₃ := hc₂.bookkept (PendingState.executeMarkets_effect h₃ hc₂.wellFormed.assets)
    (congrArg Layered.view (PendingState.executeMarkets_accounts h₃))
  have hc₄ : Commits (Function.update c signer.id (some b.nextSecretHash)) p₄.ledger.view := by
    refine PendingState.applyTransactions_induction (P := fun q => Commits _ q.ledger.view)
      (fun trx _ q q' hq hstep loc => ?_) h₄ hc₃
    obtain ⟨-, -, e, he, rfl⟩ := PendingState.evaluateBy_eq_ok hstep
    exact evaluateLedger_commits he hq
  refine hc₄.of_accounts (extendChain_wellFormed h hc.wellFormed) ?_
  rw [hledger]
  exact PendingState.closing_accounts h₅

/-! ## Runs -/

/-- Blocks are accepted, the last one first, with the delegates whose keys signed them. -/
inductive SignedRun (s : ChainState) : List (AccountId × FullBlock) → ChainState → Prop
  | refl : SignedRun s [] s
  | extend {m s' : ChainState} {l : List (AccountId × FullBlock)} {cfg : NodeConfig} {b : FullBlock}
      {id : AccountId} (hrun : SignedRun s l m) (hid : m.signer cfg b = some id)
      (h : m.extendChain cfg b = .ok s') : SignedRun s ((id, b) :: l) s'
  | arrive {m : ChainState} {l : List (AccountId × FullBlock)} (blocks : Table BlockId FullBlock)
      (hrun : SignedRun s l m) : SignedRun s l { m with blocks := blocks }

/-- What the accounts have committed to after the blocks. -/
def committed (c : AccountId → Option SecretHash) :
    List (AccountId × FullBlock) → AccountId → Option SecretHash
  | [] => c
  | (id, b) :: l => Function.update (committed c l) id (some b.nextSecretHash)

omit [Crypto] in
theorem committed_last (c : AccountId → Option SecretHash) {l l' : List (AccountId × FullBlock)}
    {id : AccountId} {b : FullBlock} (hl : ∀ x ∈ l, x.1 ≠ id) :
    committed c (l ++ (id, b) :: l') id = some b.nextSecretHash := by
  induction l with
  | nil => exact Function.update_self ..
  | cons x l ih =>
    have hx : id ≠ x.1 := (hl x List.mem_cons_self).symm
    rw [List.cons_append, committed, Function.update_of_ne hx]
    exact ih fun y hy => hl y (List.mem_cons_of_mem _ hy)

/-- **Secrets are revealed as they were committed to**: along every run of accepted blocks, the
secret of a block hashes to what the last block of its signer before it committed to. -/
theorem secrets_revealed {s s' : ChainState} {l : List (AccountId × FullBlock)}
    (hrun : SignedRun s l s') (hs : s.tables.ledger.WellFormed)
    {l₁ l₂ l₃ : List (AccountId × FullBlock)} {id : AccountId} {b b' : FullBlock}
    (hl : l = l₁ ++ (id, b) :: (l₂ ++ (id, b') :: l₃)) (hbetween : ∀ x ∈ l₂, x.1 ≠ id) :
    Crypto.secretHash b.previousSecret = b'.nextSecretHash := by
  have hc : Commits (commitment s.tables.accounts) s.tables.ledger := ⟨hs, fun _ => rfl⟩
  have hrun' : Commits (committed (commitment s.tables.accounts) l) s'.tables.ledger ∧
      ∀ l₁ x l₂, l = l₁ ++ x :: l₂ → ∀ h, committed (commitment s.tables.accounts) l₂ x.1 = some h →
        Crypto.secretHash x.2.previousSecret = h := by
    clear hl
    induction hrun with
    | refl => exact ⟨hc, fun l₁ x l₂ hl => absurd hl (by simp)⟩
    | extend _ hid h ih =>
      obtain ⟨hreveals, hcommits⟩ := extendChain_commits h ih.1 hid
      refine ⟨hcommits, fun l₁ x l₂ hl => ?_⟩
      cases l₁ with
      | nil =>
        obtain ⟨rfl, rfl⟩ := List.cons.inj hl
        exact hreveals
      | cons y l₁ => exact ih.2 l₁ x l₂ (List.cons.inj hl).2
    | arrive _ _ ih => exact ih
  exact hrun'.2 l₁ (id, b) _ hl _ (committed_last _ hbetween)

end

theorem secrets_revealed_soloBlock :
    letI := Crypto.transparent
    let first := { soloBlock 1 nullId 10 [] with nextSecretHash := 7 }
    let second := { soloBlock 2 15 20 [] with previousSecret := 7 }
    ∃ s s', SignedRun s [(1, second), (1, first)] s' ∧
      Crypto.secretHash second.previousSecret = first.nextSecretHash := by
  let := Crypto.transparent
  intro first second
  let s : ChainState := { tables := soloTables 100 }
  obtain ⟨m, hm, hsigner, hnext⟩ := exists_ok_of_any (x := s.extendChain { clock := 100 } first)
    (p := fun m => m.signer { clock := 100 } second = some 1 ∧
      (m.extendChain { clock := 100 } second).isOk = true) (by decide +kernel)
  obtain ⟨s', hs'⟩ := exists_ok_of_isOk hnext
  have hrun : SignedRun s ([] ++ (1, second) :: ([] ++ (1, first) :: [])) s' :=
    .extend (.extend .refl (by decide +kernel) hm) hsigner hs'
  exact ⟨s, s', hrun, secrets_revealed hrun (by decide +kernel) rfl nofun⟩

end BitShares
