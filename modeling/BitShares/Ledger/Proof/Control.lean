import BitShares.Ledger.Proof.WellFormed
import BitShares.Ledger.Proof.Terms

/-!
# Who controls accounts and assets

What a transaction changes of an account or an asset that was there before, and whose signatures
it needs for it.  `evaluateOperation_accounts` says what one operation does to the accounts;
`accountControl` follows one account through a transaction: name and owner key stay, the active
key needs the owner key or an ancestor, and the rest needs one of these or the account's own keys.
`evaluateOperation_assets` does the same for assets, whose whitelist anyone may change
(`assetControl_iff`).
-/

namespace BitShares

section

variable [Crypto]

/-! ## Signers -/

/-- Whether `a` is among the recovered signers of the transaction, if signatures are verified. -/
def signedBy (ctx : EvalContext) (trx : SignedTransaction) (a : Address) : Bool :=
  ctx.skipSignatureCheck || match signersOf ctx trx with
    | .ok signers => signers.contains a
    | .error _ => false

theorem transactionTrace_frame {ctx : EvalContext} {p : PendingLedger} {trx : SignedTransaction}
    {e₁ : EvalState} (h : evaluateToFees ctx p trx = .ok e₁) {e : EvalState} {op : Operation}
    (hmem : (e, op) ∈ transactionTrace ctx p trx) :
    e.ctx = ctx ∧ e.trx = trx ∧ (∀ a, e.checkSignature a = signedBy ctx trx a) ∧
      ∃ e', e.evaluateOperation op = .ok e' := by
  rw [evaluateToFees, bind_eq_ok] at h
  obtain ⟨signers, hsigners, hops⟩ := h
  rw [transactionTrace, hsigners] at hmem
  obtain ⟨⟨hctx, htrx, hsigned⟩, hstep⟩ := trace_step
    (P := fun e => e.ctx = ctx ∧ e.trx = trx ∧ e.signedAddresses = signers)
    (fun _ h => h) (fun s op s' hs hstep => by
      obtain ⟨L, f, m, d, heff, -⟩ := evaluateOperation_effect hstep
      exact ⟨heff.ctx.trans hs.1, heff.trx.trans hs.2.1, heff.signedAddresses.trans hs.2.2⟩)
    hops ⟨rfl, rfl, rfl⟩ hmem
  refine ⟨hctx, htrx, fun a => ?_, hstep⟩
  rw [EvalState.checkSignature, hctx, hsigned, signedBy, hsigners]

/-- What the operations of an accepted transaction preserve, with the signers at hand. -/
theorem evaluateToFees_induction {P : EvalState → Prop} {ctx : EvalContext} {p : PendingLedger}
    {trx : SignedTransaction} {e₁ : EvalState} (h : evaluateToFees ctx p trx = .ok e₁)
    (hnext : ∀ e, P e → P e.next)
    (hstart : ∀ signers, P (EvalState.start ctx p trx signers))
    (hstep : ∀ e op e', (e, op) ∈ transactionTrace ctx p trx → P e →
      e.evaluateOperation op = .ok e' → P e') : P e₁ := by
  obtain ⟨signers, hops, htrace⟩ := evaluateToFees_eq_ok h
  rw [htrace] at hstep
  exact evaluateOperations_induction hnext hstep hops (hstart signers)

/-! ## Accounts -/

/-- `delegate_info->signing_key()`, if there is a delegate. -/
def AccountRecord.signingKey (r : AccountRecord) : Option PublicKey :=
  r.delegateInfo.map (·.signingKey)

def AccountRecord.payRate (r : AccountRecord) : Option UInt8 := r.delegateInfo.map (·.payRate)

namespace EvalState

/-- A registered account that is not retracted, whose name is what follows a dot of `name`,
signed with its active or owner key. -/
def AncestorSigned (e : EvalState) (name : List Char) : Prop :=
  ∃ (above : List Char) (r : AccountRecord), (∃ sub, name = sub ++ '.' :: above) ∧
    e.pending.getAccountRecordByName (String.ofList above) = some r ∧ r.isRetracted = false ∧
    (e.checkKey r.activeKey ∨ e.checkKey r.ownerKey)

def OwnerSigned (e : EvalState) (r : AccountRecord) : Prop :=
  e.checkKey r.ownerKey ∨ e.AncestorSigned r.name.toList

/-- One of these signed, or the active key of the account, which is not retracted. -/
def AccountSigned (e : EvalState) (r : AccountRecord) : Prop :=
  e.OwnerSigned r ∨ r.isRetracted = false ∧ e.checkKey r.activeKey

theorem AncestorSigned.cons {e : EvalState} {name : List Char} (h : e.AncestorSigned name)
    (sub : List Char) : e.AncestorSigned (sub ++ name) := by
  obtain ⟨above, r, ⟨sub', rfl⟩, hr⟩ := h
  exact ⟨above, r, ⟨sub ++ sub', by simp⟩, hr⟩

omit [Crypto] in
theorem parentName_eq_some {name above : List Char} (h : parentName name = some above) :
    ∃ sub, name = sub ++ '.' :: above := by
  induction name with
  | nil => cases h
  | cons c rest ih =>
    rw [parentName] at h
    split at h
    · rename_i hc
      cases h
      exact ⟨[], by simp [hc]⟩
    · obtain ⟨sub, rfl⟩ := ih h
      exact ⟨c :: sub, rfl⟩

theorem parentHasSigned_sound {e : EvalState} {fuel : Nat} {name : List Char}
    (h : e.parentHasSigned fuel name) : e.AncestorSigned name := by
  induction fuel generalizing name with
  | zero => cases h
  | succ fuel ih =>
    rw [parentHasSigned] at h
    split at h
    · cases h
    · rename_i above habove
      obtain ⟨sub, rfl⟩ := parentName_eq_some habove
      have hup : e.parentHasSigned fuel above = true → e.AncestorSigned (sub ++ '.' :: above) :=
        fun h => by simpa using (ih h).cons (sub ++ ['.'])
      split at h
      · exact hup h
      · rename_i r hr
        split_ifs at h with hret hactive howner
        · exact hup h
        · exact ⟨above, r, ⟨sub, rfl⟩, hr, by simpa using hret, .inl hactive⟩
        · exact ⟨above, r, ⟨sub, rfl⟩, hr, by simpa using hret, .inr howner⟩
        · exact hup h

theorem accountOrAnyParentHasSigned_sound {e : EvalState} {r : AccountRecord}
    (h : e.accountOrAnyParentHasSigned r) : e.AccountSigned r := by
  simp only [accountOrAnyParentHasSigned, Bool.or_eq_true, Bool.and_eq_true,
    Bool.not_eq_true'] at h
  rcases h with ⟨hret, hactive | howner⟩ | hparent
  · exact .inr ⟨hret, hactive⟩
  · exact .inl (.inl howner)
  · exact .inl (.inr (parentHasSigned_sound hparent))

end EvalState

/-- `r'` is `r` after a change that the signatures seen by `e` allow. -/
structure AccountRecord.Controlled (e : EvalState) (r r' : AccountRecord) : Prop where
  id : r'.id = r.id
  name : r'.name = r.name
  ownerKey : r'.ownerKey = r.ownerKey
  activeKey : r'.activeKey ≠ r.activeKey → e.OwnerSigned r
  signingKey : r'.signingKey ≠ r.signingKey →
    (∃ key ∈ r.signingKey, e.checkKey key) ∨ e.AccountSigned r
  standing : r'.payRate ≠ r.payRate ∨ r'.isDelegate ≠ r.isDelegate ∨
    r'.publicData ≠ r.publicData ∨ r'.payBalance < r.payBalance → e.AccountSigned r

theorem AccountRecord.Controlled.ofSigned {e : EvalState} {r r' : AccountRecord}
    (hid : r'.id = r.id) (hname : r'.name = r.name) (howner : r'.ownerKey = r.ownerKey)
    (hactive : r'.activeKey ≠ r.activeKey → e.OwnerSigned r) (hsigned : e.AccountSigned r) :
    r.Controlled e r' :=
  ⟨hid, hname, howner, hactive, fun _ => .inr hsigned, fun _ => hsigned⟩

theorem UpdateAccountOperation.updateActiveKey_controlled {op : UpdateAccountOperation}
    {e : EvalState} {r r' : AccountRecord} (h : op.updateActiveKey e r = .ok r') :
    r'.id = r.id ∧ r'.name = r.name ∧ r'.ownerKey = r.ownerKey ∧ e.AccountSigned r ∧
      (r'.activeKey ≠ r.activeKey → e.OwnerSigned r) := by
  rcases updateActiveKey_eq_ok h with ⟨hsigned, rfl⟩ | ⟨key, -, hsigned, rfl⟩
  · exact ⟨rfl, rfl, rfl, EvalState.accountOrAnyParentHasSigned_sound hsigned,
      fun hne => absurd rfl hne⟩
  · have howner : e.OwnerSigned r := hsigned.imp id EvalState.parentHasSigned_sound
    exact ⟨rfl, rfl, rfl, .inl howner, fun _ => howner⟩

omit [Crypto] in
theorem UpdateAccountOperation.updateDelegate_keys {op : UpdateAccountOperation}
    {e : EvalState} {r r' : AccountRecord} {fee : ShareType}
    (h : op.updateDelegate e r = .ok (r', fee)) :
    r'.id = r.id ∧ r'.name = r.name ∧ r'.ownerKey = r.ownerKey ∧
      r'.activeKeyHistory = r.activeKeyHistory := by
  rcases updateDelegate_eq_ok h with ⟨-, -, rfl⟩ | ⟨d, -, -, rfl⟩ | ⟨-, -, rfl⟩ <;>
    exact ⟨rfl, rfl, rfl, rfl⟩

/-- What an operation does to the accounts: nothing, a new account, or a controlled change of one
account. -/
inductive AccountStep (e : EvalState) : Table AccountId AccountRecord → Prop
  | frame : AccountStep e e.ledger.accounts
  | create {r : AccountRecord} (hlast : e.ledger.counter .lastAccountId = some (r.id - 1)) :
    AccountStep e (e.ledger.accounts.insert r.id r)
  | update {id : AccountId} {r r' : AccountRecord} (hr : e.ledger.accounts.lookup id = some r)
      (hcontrol : r.Controlled e r') : AccountStep e (e.ledger.accounts.insert r'.id r')

theorem UpdateAccountOperation.evaluate_accounts {op : UpdateAccountOperation} {e e' : EvalState}
    (h : op.evaluate e = .ok e') : AccountStep e e'.ledger.accounts := by
  simp only [evaluate, bind_eq_ok, require_eq_ok, expect_eq_ok, pure_eq_ok, exists_and_left,
    exists_const, Prod.exists, PendingLedger.getAccountRecord_eq] at h
  obtain ⟨r, hr, -, keyed, hkeyed, updated, fee, hupdated, rfl⟩ := h
  obtain ⟨hid, hname, howner, hsigned, hactive⟩ := updateActiveKey_controlled hkeyed
  obtain ⟨hid', hname', howner', hhistory⟩ := updateDelegate_keys hupdated
  have hcontrol : r.Controlled e { updated with lastUpdate := e.ctx.now } := by
    refine .ofSigned (hid'.trans hid) (hname'.trans hname) (howner'.trans howner) ?_ hsigned
    have hkey : updated.activeKey = keyed.activeKey := by
      rw [AccountRecord.activeKey, hhistory]
      rfl
    exact fun hne => hactive (hkey ▸ hne)
  have haccounts : (e.pending.storeAccountRecord { updated with lastUpdate := e.ctx.now }).view =
      e.ledger.storeAccount { updated with lastUpdate := e.ctx.now } :=
    PendingLedger.view_storeAccountRecord _ _
  change AccountStep e (PendingLedger.view _).accounts
  rw [haccounts]
  exact .update hr hcontrol

theorem WithdrawPayOperation.evaluate_accounts {op : WithdrawPayOperation} {e e' : EvalState}
    (h : op.evaluate e = .ok e') : AccountStep e e'.ledger.accounts := by
  simp only [evaluate, bind_eq_ok, require_eq_ok, expect_eq_ok, pure_eq_ok, exists_and_left,
    exists_const, PendingLedger.getAccountRecord_eq] at h
  obtain ⟨-, r, hr, d, hd, -, hsigned, rfl⟩ := h
  change AccountStep e (PendingLedger.view _).accounts
  rw [PendingLedger.view_storeAccountRecord]
  exact .update hr (.ofSigned rfl rfl rfl (fun hne => absurd rfl hne)
    (EvalState.accountOrAnyParentHasSigned_sound hsigned))

theorem UpdateSigningKeyOperation.evaluate_accounts {op : UpdateSigningKeyOperation}
    {e e' : EvalState} (h : op.evaluate e = .ok e') : AccountStep e e'.ledger.accounts := by
  obtain ⟨r, d, hr, hd, hsigned, heff⟩ := op.evaluate_eq_ok h
  rw [heff.ledger]
  refine .update hr ⟨rfl, rfl, rfl, fun hne => absurd rfl hne, fun _ => ?_, fun hne => ?_⟩
  · refine hsigned.imp (fun hkey => ⟨d.signingKey, ?_, hkey⟩)
      EvalState.accountOrAnyParentHasSigned_sound
    simp [AccountRecord.signingKey, hd]
  · -- a new signing key leaves pay, standing and data alone
    have hpay : ¬ d.payBalance < d.payBalance := Int64.lt_irrefl
    simp [AccountRecord.payRate, AccountRecord.isDelegate, AccountRecord.payBalance, hd,
      DelegateStats.setSigningKey, hpay] at hne

theorem evaluateOperation_accounts {e e' : EvalState} {op : Operation}
    (h : e.evaluateOperation op = .ok e') : AccountStep e e'.ledger.accounts := by
  cases op with
  | registerAccount op =>
    obtain ⟨r, _, _, hlast, -, -, -, heff⟩ := op.evaluate_effect h
    rw [heff.ledger]
    exact .create hlast
  | updateAccount op => exact op.evaluate_accounts h
  | withdrawPay op => exact op.evaluate_accounts h
  | updateSigningKey op => exact op.evaluate_accounts h
  | _ => exact (evaluateOperation_leaves h).accounts rfl ▸ .frame

/-! ## One account through a transaction -/

/-- The owner key of `r`, or an ancestor of its name, signed the transaction. -/
def AccountRecord.OwnerSignedIn (ctx : EvalContext) (p : PendingLedger) (trx : SignedTransaction)
    (r : AccountRecord) : Prop :=
  signedBy ctx trx (Crypto.address r.ownerKey) ∨
    ∃ step ∈ transactionTrace ctx p trx, step.1.AncestorSigned r.name.toList

/-- One of these signed it, or the active key of `r`, which is not retracted. -/
def AccountRecord.SignedIn (ctx : EvalContext) (p : PendingLedger) (trx : SignedTransaction)
    (r : AccountRecord) : Prop :=
  r.OwnerSignedIn ctx p trx ∨
    r.isRetracted = false ∧ signedBy ctx trx (Crypto.address r.activeKey)

/-- `r'` is `r` after the transaction, as far as its signatures allow.  Ancestors are those
registered when an operation of the transaction is evaluated. -/
structure AccountControl (ctx : EvalContext) (p : PendingLedger) (trx : SignedTransaction)
    (r r' : AccountRecord) : Prop where
  name : r'.name = r.name
  ownerKey : r'.ownerKey = r.ownerKey
  activeKey : r'.activeKey ≠ r.activeKey → r.OwnerSignedIn ctx p trx
  signingKey : r'.signingKey ≠ r.signingKey →
    (∃ key ∈ r.signingKey, signedBy ctx trx (Crypto.address key)) ∨ r.SignedIn ctx p trx
  payRate : r'.payRate ≠ r.payRate → r.SignedIn ctx p trx
  isDelegate : r'.isDelegate ≠ r.isDelegate → r.SignedIn ctx p trx
  publicData : r'.publicData ≠ r.publicData → r.SignedIn ctx p trx
  payBalance : r'.payBalance < r.payBalance → r.SignedIn ctx p trx

theorem AccountControl.refl (ctx : EvalContext) (p : PendingLedger) (trx : SignedTransaction)
    (r : AccountRecord) : AccountControl ctx p trx r r where
  name := rfl
  ownerKey := rfl
  activeKey h := absurd rfl h
  signingKey h := absurd rfl h
  payRate h := absurd rfl h
  isDelegate h := absurd rfl h
  publicData h := absurd rfl h
  payBalance h := absurd h Int64.lt_irrefl

theorem AccountControl.congr {ctx : EvalContext} {p : PendingLedger} {trx : SignedTransaction}
    {r m m' : AccountRecord} (h : AccountControl ctx p trx r m) (hname : m'.name = m.name)
    (howner : m'.ownerKey = m.ownerKey) (hactive : m'.activeKey = m.activeKey)
    (hsigning : m'.signingKey = m.signingKey) (hrate : m'.payRate = m.payRate)
    (hdelegate : m'.isDelegate = m.isDelegate) (hdata : m'.publicData = m.publicData)
    (hpay : m'.payBalance = m.payBalance) : AccountControl ctx p trx r m' where
  name := hname.trans h.name
  ownerKey := howner.trans h.ownerKey
  activeKey := hactive ▸ h.activeKey
  signingKey := hsigning ▸ h.signingKey
  payRate := hrate ▸ h.payRate
  isDelegate := hdelegate ▸ h.isDelegate
  publicData := hdata ▸ h.publicData
  payBalance := hpay ▸ h.payBalance

section

variable {ctx : EvalContext} {p : PendingLedger} {trx : SignedTransaction} {e : EvalState}
  {op : Operation} {r m m' : AccountRecord}

theorem AccountControl.ownerSigned (h : AccountControl ctx p trx r m)
    (hmem : (e, op) ∈ transactionTrace ctx p trx)
    (hsigned : ∀ a, e.checkSignature a = signedBy ctx trx a) (howner : e.OwnerSigned m) :
    r.OwnerSignedIn ctx p trx := by
  rcases howner with howner | hancestor
  · rw [EvalState.checkKey, hsigned, h.ownerKey] at howner
    exact .inl howner
  · exact .inr ⟨_, hmem, h.name ▸ hancestor⟩

/-- Where the account's own active key signed, it is the one from before, unless it was changed by
someone entitled to. -/
theorem AccountControl.accountSigned (h : AccountControl ctx p trx r m)
    (hmem : (e, op) ∈ transactionTrace ctx p trx)
    (hsigned : ∀ a, e.checkSignature a = signedBy ctx trx a) (haccount : e.AccountSigned m) :
    r.SignedIn ctx p trx := by
  rcases haccount with howner | ⟨hret, hactive⟩
  · exact .inl (h.ownerSigned hmem hsigned howner)
  · by_cases hkey : m.activeKey = r.activeKey
    · rw [EvalState.checkKey, hsigned, hkey] at hactive
      rw [AccountRecord.isRetracted, hkey] at hret
      exact .inr ⟨hret, hactive⟩
    · exact .inl (h.activeKey hkey)

theorem AccountControl.step (h : AccountControl ctx p trx r m)
    (hmem : (e, op) ∈ transactionTrace ctx p trx)
    (hsigned : ∀ a, e.checkSignature a = signedBy ctx trx a) (hstep : m.Controlled e m') :
    AccountControl ctx p trx r m' := by
  have hacc := h.accountSigned hmem hsigned
  have hstand : ∀ {α : Type} {x y z : α}, (y ≠ x → r.SignedIn ctx p trx) →
      (z ≠ y → e.AccountSigned m) → z ≠ x → r.SignedIn ctx p trx := by
    intro α x y z hfirst hsecond hne
    by_cases hy : y = x
    · exact hacc (hsecond (hy ▸ hne))
    · exact hfirst hy
  refine ⟨hstep.name.trans h.name, hstep.ownerKey.trans h.ownerKey, fun hne => ?_, fun hne => ?_,
    hstand h.payRate fun hz => hstep.standing (.inl hz),
    hstand h.isDelegate fun hz => hstep.standing (.inr (.inl hz)),
    hstand h.publicData fun hz => hstep.standing (.inr (.inr (.inl hz))), fun hlt => ?_⟩
  · by_cases hkey : m.activeKey = r.activeKey
    · exact h.ownerSigned hmem hsigned (hstep.activeKey (hkey ▸ hne))
    · exact h.activeKey hkey
  · by_cases hkey : m.signingKey = r.signingKey
    · rcases hstep.signingKey (hkey ▸ hne) with ⟨key, hmem', hcheck⟩ | hown
      · rw [EvalState.checkKey, hsigned] at hcheck
        exact .inl ⟨key, hkey ▸ hmem', hcheck⟩
      · exact .inr (hacc hown)
    · exact h.signingKey hkey
  · by_cases hpay : m'.payBalance < m.payBalance
    · exact hacc (hstep.standing (.inr (.inr (.inr hpay))))
    · exact h.payBalance (Int64.lt_of_le_of_lt (Int64.not_lt.1 hpay) hlt)

end

theorem AccountStep.lookup {e : EvalState} {t : Table AccountId AccountRecord}
    (hstep : AccountStep e t) (hwf : e.ledger.WellFormed) {id : AccountId} {m : AccountRecord}
    (hm : e.ledger.accounts.lookup id = some m) :
    t.lookup id = some m ∨ ∃ m', t.lookup id = some m' ∧ m.Controlled e m' := by
  cases hstep with
  | frame => exact .inl hm
  | @create r hlast =>
    have hne : id ≠ r.id := by
      rintro rfl
      rw [hwf.newAccount hlast] at hm
      cases hm
    exact .inl ((Finmap.lookup_insert_of_ne _ hne).trans hm)
  | @update id' r r' hr hcontrol =>
    have hid : r'.id = id' := hcontrol.id.trans (hwf.accounts _ _ hr)
    rw [hid]
    by_cases hne : id = id'
    · subst hne
      obtain rfl : r = m := by simpa [hr] using hm
      exact .inr ⟨r', Finmap.lookup_insert _, hcontrol⟩
    · exact .inl ((Finmap.lookup_insert_of_ne _ hne).trans hm)

section

variable {ctx : EvalContext} {p : PendingLedger} {trx : SignedTransaction}

/-- The account `id` is there and has changed from `r` only as far as the signatures allow. -/
def AccountsControlled (ctx : EvalContext) (p : PendingLedger) (trx : SignedTransaction)
    (id : AccountId) (r : AccountRecord) (t : Table AccountId AccountRecord) : Prop :=
  ∃ m, t.lookup id = some m ∧ AccountControl ctx p trx r m

theorem AccountsControlled.insert {t : Table AccountId AccountRecord} {id : AccountId}
    {r : AccountRecord} (h : AccountsControlled ctx p trx id r t) (ht : t.All fun id r => r.id = id)
    {id' : AccountId} {m m' : AccountRecord} (hm : t.lookup id' = some m) (hid : m'.id = m.id)
    (hsame : ∀ {r}, AccountControl ctx p trx r m → AccountControl ctx p trx r m') :
    AccountsControlled ctx p trx id r (t.insert m'.id m') := by
  obtain ⟨q, hq, hcontrol⟩ := h
  have hkey : m'.id = id' := hid.trans (ht _ _ hm)
  rw [hkey]
  by_cases hne : id = id'
  · subst hne
    obtain rfl : m = q := by simpa [hm] using hq
    exact ⟨m', Finmap.lookup_insert _, hsame hcontrol⟩
  · exact ⟨q, (Finmap.lookup_insert_of_ne _ hne).trans hq, hcontrol⟩

theorem afterFees_control {e₂ e' : EvalState} {p₃ : PendingLedger} {total : ShareType}
    (hwf : e₂.ledger.WellFormed)
    (h₃ : e₂.delegateVoteDeltas.entries.foldlM PendingLedger.adjustVotesFor e₂.pending = .ok p₃)
    (h₄ : EvalState.updateRpValues
      { e₂ with totalBaseEquivalentFeesPaid := total, pending := p₃ } = .ok e')
    {id : AccountId} {r : AccountRecord}
    (hr : AccountsControlled ctx p trx id r e₂.ledger.accounts) :
    AccountsControlled ctx p trx id r e'.ledger.accounts := by
  have hvotes : AccountsControlled ctx p trx id r p₃.view.accounts ∧
      p₃.view.accounts.All fun id r => r.id = id := by
    refine foldlM_induction (P := fun q => AccountsControlled ctx p trx id r q.view.accounts ∧
      q.view.accounts.All fun id r => r.id = id) (fun delta _ q q' hq hstep => ?_) h₃
      ⟨hr, hwf.accounts⟩
    obtain ⟨m, d, hm, hd, hq'⟩ := PendingLedger.adjustVotesFor_effect hstep
    rw [hq']
    refine ⟨hq.1.insert hq.2 hm (by rfl) fun h => h.congr rfl rfl rfl ?_ ?_ ?_ rfl ?_,
      hq.2.insert rfl⟩
    · simp [AccountRecord.signingKey, hd, DelegateStats.signingKey]
    · simp [AccountRecord.payRate, hd]
    · simp [AccountRecord.isDelegate, hd]
    · simp [AccountRecord.payBalance, hd]
  rcases EvalState.updateRpValues_record h₄ with rfl | ⟨id', m, rp, hm, hrp⟩
  · exact hvotes.1
  · rw [hrp]
    have hid : ({ m with rp := rp } : AccountRecord).id = m.id := rfl
    exact hvotes.1.insert hvotes.2 hm hid fun h => h.congr rfl rfl rfl rfl rfl rfl rfl rfl

/-- **Account control.**  An account that was there before an accepted transaction is there after
it, with its name and owner key; its active key changed only under the signature of the owner key
or an ancestor, and its signing key, pay rate, standing, public data and pay only under one of
these, its own active key or, for the signing key, the signing key. -/
theorem accountControl {e' : EvalState} (hp : p.view.WellFormed)
    (h : evaluateLedger ctx p trx = .ok e') {id : AccountId} {r : AccountRecord}
    (hr : p.view.accounts.lookup id = some r) :
    ∃ r', e'.ledger.accounts.lookup id = some r' ∧ AccountControl ctx p trx r r' := by
  obtain ⟨e₁, e₂, p₃, total, h₁, h₂, h₃, h₄⟩ := evaluateLedger_phases h
  have hops : e₁.ledger.WellFormed ∧ AccountsControlled ctx p trx id r e₁.ledger.accounts := by
    refine evaluateToFees_induction (P := fun e => e.ledger.WellFormed ∧
      AccountsControlled ctx p trx id r e.ledger.accounts) h₁ (fun _ he => he)
      (fun _ => ⟨hp, r, hr, .refl _ _ _ _⟩) fun e op e' hmem ⟨hwf, m, hm, hcontrol⟩ hstep => ?_
    refine ⟨evaluateOperation_wellFormed hstep hwf, ?_⟩
    obtain ⟨-, -, hsigned, -⟩ := transactionTrace_frame h₁ hmem
    rcases (evaluateOperation_accounts hstep).lookup hwf hm with hsame | ⟨m', hm', hstep'⟩
    · exact ⟨m, hsame, hcontrol⟩
    · exact ⟨m', hm', hcontrol.step hmem hsigned hstep'⟩
  obtain ⟨hcoll, hwf₂, -, -⟩ := EvalState.validateFees_effect hops.1 h₂
  refine afterFees_control hwf₂ h₃ h₄ ?_
  rw [hcoll.rest]
  exact hops.2

end

/-! ## Assets -/

structure AssetControls where
  whitelist : OrdSet Address
  authority : MultisigMetaInfo
  authorityFlagPermissions : UInt32
  activeFlags : UInt32
  issuerType : UInt8
  issuerId : Int
  name : String
  precision : Nat
  maxSupply : ShareType
  withdrawalFee : ShareType
  marketFeeRate : Nat
  deriving DecidableEq

def AssetRecord.controls (r : AssetRecord) : AssetControls where
  whitelist := r.whitelist
  authority := r.authority
  authorityFlagPermissions := r.authorityFlagPermissions
  activeFlags := r.activeFlags
  issuerType := r.issuerType
  issuerId := r.issuerId
  name := r.name
  precision := r.precision
  maxSupply := r.maxSupply
  withdrawalFee := r.withdrawalFee
  marketFeeRate := r.marketFeeRate

def AssetUpdateWhitelistOperation.whitelist (op : AssetUpdateWhitelistOperation) (r : AssetRecord) :
    OrdSet Address :=
  if 0 < op.assetId then r.whitelist.insert op.owner else r.whitelist.erase op.owner

/-- An update changes the list if it adds an address that is not in it or removes one that is. -/
def AssetUpdateWhitelistOperation.changes (op : AssetUpdateWhitelistOperation) (r : AssetRecord) :
    Bool :=
  if 0 < op.assetId then !r.whitelist.mem op.owner else r.whitelist.mem op.owner

omit [Crypto] in
theorem AssetUpdateWhitelistOperation.changes_iff (op : AssetUpdateWhitelistOperation)
    (r : AssetRecord) : op.changes r ↔ op.whitelist r ≠ r.whitelist := by
  unfold changes whitelist
  split
  · rw [Ne, OrdSet.insert_eq_self_iff, Bool.not_eq_true', Bool.not_eq_true]
  · rw [Ne, OrdSet.erase_eq_self_iff, Bool.not_eq_false]

/-- What an operation does to the assets: nothing, a new asset, a change within its terms that keeps
the controls or that the authority signed, or a change of a whitelist. -/
inductive AssetStep (e : EvalState) : Operation → Table AssetId AssetRecord → Prop
  | frame {op : Operation} : AssetStep e op e.ledger.assets
  | create {op : Operation} (r : AssetRecord) (hnew : e.ledger.assets.lookup r.id = none) :
    AssetStep e op (e.ledger.assets.insert r.id r)
  | update {op : Operation} {id : AssetId} {r r' : AssetRecord}
      (hr : e.ledger.assets.lookup id = some r) (hid : r'.id = r.id)
      (hauth : r'.controls = r.controls ∨ e.verifyAuthority r.authority)
      (hterms : r.KeepsTerms r') :
    AssetStep e op (e.ledger.assets.insert r'.id r')
  | whitelist (op : AssetUpdateWhitelistOperation) {r : AssetRecord}
      (hr : e.ledger.assets.lookup |op.assetId| = some r) :
    AssetStep e (.assetUpdateWhitelist op)
      (e.ledger.assets.insert r.id { r with whitelist := op.whitelist r })

omit [Crypto] in
theorem AssetUpdateWhitelistOperation.evaluate_assets {op : AssetUpdateWhitelistOperation}
    {e e' : EvalState} (h : op.evaluate e = .ok e') :
    ∃ r, e.ledger.assets.lookup |op.assetId| = some r ∧
      e'.ledger.assets = e.ledger.assets.insert r.id { r with whitelist := op.whitelist r } := by
  simp only [evaluate, bind_eq_ok, require_eq_ok, expect_eq_ok, pure_eq_ok, exists_and_left,
    exists_const, PendingLedger.getAssetRecord_eq] at h
  obtain ⟨r, hr, -, -, rfl⟩ := h
  refine ⟨r, hr, ?_⟩
  change (PendingLedger.view _).assets = _
  rw [PendingLedger.view_storeAssetRecord]
  rfl

theorem evaluateOperation_assets {e e' : EvalState} {op : Operation}
    (h : e.evaluateOperation op = .ok e') : AssetStep e op e'.ledger.assets := by
  have hsigned : ∀ {op : Operation} {id : AssetId} {m r r' : AssetRecord},
      e.ledger.assets.lookup id = some m → e.verifyAuthority m.authority →
      e.ledger.assets.lookup id = some r → r.KeepsTerms r' →
      e'.ledger = e.ledger.storeAsset r' → AssetStep e op e'.ledger.assets := by
    intro op id m r r' hm hauth hr hterms hledger
    rw [hm] at hr
    cases hr
    rw [hledger]
    exact .update hm hterms.id (.inr hauth) hterms
  cases op with
  | withdraw op =>
    obtain ⟨-, r, _, asset, y, r', _, _, -, -, -, hasset, -, -, -, -, -, -, heff⟩ :=
      op.evaluate_effect h
    rw [heff.ledger]
    split
    · exact .frame
    · exact .update hasset rfl (.inl rfl) (.of_eq rfl)
  | createAsset op =>
    obtain ⟨id, authority, L, hgame, -, hnone, -, -, heff⟩ := op.evaluate_effect h
    have hassets : e'.ledger.assets = e.ledger.assets.insert id (op.record id e.ctx.now authority) := by
      rw [heff.ledger]
      rcases hgame with rfl | ⟨game, -, rfl⟩ <;> rfl
    rw [hassets]
    exact .create (op.record id e.ctx.now authority) hnone
  | issueAsset op =>
    obtain ⟨-, m, -, hm, -, hauth, -⟩ := op.evaluate_effect h
    obtain ⟨r, r', hr, hterms, hledger⟩ := op.evaluate_terms h
    exact hsigned hm hauth hr hterms hledger
  | assetUpdateProperties op =>
    obtain ⟨m, -, hm, -, hauth, -⟩ := op.evaluate_effect h
    obtain ⟨r, r', hr, hterms, hledger⟩ := op.evaluate_terms h
    exact hsigned hm hauth hr hterms hledger
  | assetUpdatePermissions op =>
    obtain ⟨m, -, hm, -, hauth, -⟩ := op.evaluate_effect h
    obtain ⟨r, r', hr, hterms, hledger⟩ := op.evaluate_terms h
    exact hsigned hm hauth hr hterms hledger
  | assetUpdateWhitelist op =>
    obtain ⟨r, hr, hassets⟩ := op.evaluate_assets h
    exact hassets ▸ .whitelist op hr
  | burn op =>
    obtain ⟨-, asset, hasset, heff⟩ := op.evaluate_effect h
    rw [heff.ledger]
    exact .update hasset rfl (.inl rfl) (.of_eq rfl)
  | buyChips op =>
    obtain ⟨-, r, b, _, hr, -, -, -, heff⟩ := op.evaluate_effect h
    rw [heff.ledger]
    exact .update hr rfl (.inl rfl) (.of_eq rfl)
  | _ => exact (evaluateOperation_leaves h).assets rfl ▸ .frame

/-- Every operation that changes the controls of an asset from before the transaction is evaluated
with the authority of the asset then in force satisfied. -/
def AssetControlLaw (ctx : EvalContext) (p : PendingLedger) (trx : SignedTransaction) : Prop :=
  ∀ e op e', (e, op) ∈ transactionTrace ctx p trx → e.evaluateOperation op = .ok e' →
    ∀ a r r', (p.view.assets.lookup a).isSome → e.ledger.assets.lookup a = some r →
      e'.ledger.assets.lookup a = some r' → r'.controls ≠ r.controls →
      e.verifyAuthority r.authority

theorem transactionTrace_wellFormed {ctx : EvalContext} {p : PendingLedger}
    {trx : SignedTransaction} {e₁ : EvalState} (hp : p.view.WellFormed)
    (h : evaluateToFees ctx p trx = .ok e₁) {e : EvalState} {op : Operation}
    (hmem : (e, op) ∈ transactionTrace ctx p trx) : e.ledger.WellFormed := by
  obtain ⟨signers, hops, htrace⟩ := evaluateToFees_eq_ok h
  rw [htrace] at hmem
  exact (trace_step (P := fun e => e.ledger.WellFormed) (fun _ h => h)
    (fun _ _ _ hs h => evaluateOperation_wellFormed h hs) hops hp hmem).1

theorem AssetStep.controls {e : EvalState} {op : Operation} {t : Table AssetId AssetRecord}
    (hstep : AssetStep e op t) (hwf : e.ledger.WellFormed) {a : AssetId} {r r' : AssetRecord}
    (hr : e.ledger.assets.lookup a = some r) (hr' : t.lookup a = some r')
    (hne : r'.controls ≠ r.controls) :
    e.verifyAuthority r.authority ∨
      ∃ op', op = .assetUpdateWhitelist op' ∧ |op'.assetId| = a ∧ op'.changes r := by
  have hsame : ∀ {m : AssetRecord}, a ≠ m.id → t = e.ledger.assets.insert m.id m → False := by
    rintro m hid rfl
    rw [Finmap.lookup_insert_of_ne _ hid, hr] at hr'
    cases hr'
    exact hne rfl
  cases hstep with
  | frame =>
    rw [hr] at hr'
    cases hr'
    exact absurd rfl hne
  | create m hnew =>
    refine (hsame (m := m) ?_ rfl).elim
    rintro rfl
    rw [hr] at hnew
    cases hnew
  | @update _ id m m' hm hid hauth hterms =>
    by_cases ha : a = m'.id
    · have hkey : id = a := by rw [ha, hid, hwf.assets _ _ hm]
      subst hkey
      rw [hr] at hm
      cases hm
      rw [ha, Finmap.lookup_insert] at hr'
      cases hr'
      exact hauth.elim (fun hc => absurd hc hne) .inl
    · exact (hsame ha rfl).elim
  | @whitelist op m hm =>
    by_cases ha : a = m.id
    · have hkey : |op.assetId| = a := by rw [ha, hwf.assets _ _ hm]
      subst hkey
      rw [hr] at hm
      cases hm
      rw [ha, Finmap.lookup_insert] at hr'
      cases hr'
      refine .inr ⟨op, rfl, rfl, (op.changes_iff r).2 fun hlist => hne ?_⟩
      rw [hlist]
    · exact (hsame (m := { m with whitelist := op.whitelist m }) ha rfl).elim

/-- **Asset control.**  The fee check and what follows leave the controls of every asset alone, and
the operations change them only with the authority in force, exactly if every operation that
changes the whitelist of an asset has the signatures of its authority, which the code does not
ask for. -/
theorem assetControl_iff {ctx : EvalContext} {p : PendingLedger} {trx : SignedTransaction}
    {e' : EvalState} (hp : p.view.WellFormed) (h : evaluateLedger ctx p trx = .ok e') :
    (∀ e₁, evaluateToFees ctx p trx = .ok e₁ → ∀ a,
      (e'.ledger.assets.lookup a).map (·.controls) =
        (e₁.ledger.assets.lookup a).map (·.controls)) ∧
    (AssetControlLaw ctx p trx ↔
      ∀ e op, (e, .assetUpdateWhitelist op) ∈ transactionTrace ctx p trx →
        (p.view.assets.lookup |op.assetId|).isSome → ∀ r,
          e.ledger.assets.lookup |op.assetId| = some r → op.changes r →
            e.verifyAuthority r.authority) := by
  obtain ⟨e₁, h₁, -, hassets⟩ := evaluateLedger_afterOperations hp h
  refine ⟨fun m hm a => ?_, fun hlaw e op hmem hold r hr hchanges => ?_,
    fun hcond e op m hmem hstep a r r' hold hr hr' hne => ?_⟩
  · obtain rfl : m = e₁ := by simpa [h₁] using hm.symm
    rw [hassets, Option.map_map]
    rfl
  · have hwf := transactionTrace_wellFormed hp h₁ hmem
    obtain ⟨-, -, -, m, hstep⟩ := transactionTrace_frame h₁ hmem
    have hid : r.id = |op.assetId| := hwf.assets _ _ hr
    have hm : m.ledger.assets.lookup |op.assetId| = some { r with whitelist := op.whitelist r } := by
      obtain ⟨q, hq, hassets⟩ := op.evaluate_assets hstep
      rw [hr] at hq
      cases hq
      rw [hassets, hid, Finmap.lookup_insert]
    refine hlaw e _ m hmem hstep _ r _ hold hr hm fun hsame => ?_
    exact (op.changes_iff r).1 hchanges (congrArg AssetControls.whitelist hsame)
  · have hwf := transactionTrace_wellFormed hp h₁ hmem
    rcases (evaluateOperation_assets hstep).controls hwf hr hr' hne with hauth | ⟨op, rfl, rfl, hchanges⟩
    · exact hauth
    · exact hcond e op hmem hold r hr hchanges

end

/-! ## Runs on a small database -/

def shopTables : LedgerTables where
  accounts :=
    (Finmap.singleton 1
      { id := 1, name := "alice", publicData := "", ownerKey := 5,
        activeKeyHistory := OrdMap.set ∅ 1 5, registrationDate := 1, lastUpdate := 1 }).insert 2
      { id := 2, name := "shop.alice", publicData := "", ownerKey := 6,
        activeKeyHistory := OrdMap.set ∅ 1 6, registrationDate := 1, lastUpdate := 1 }
  accountNames := (Finmap.singleton "alice" 1).insert "shop.alice" 2
  assets := Finmap.singleton 1
    { id := 1, symbol := "GOLD", name := "Gold", description := "", publicData := "",
      registrationDate := 1, lastUpdate := 1, maxSupply := 1000, issuerType := userIssuerId,
      issuerId := 1, authority := ⟨1, OrdSet.insert ∅ 5⟩, activeFlags := restrictedDeposits }

def shopContext : EvalContext where
  now := 100
  headBlockNum := 1
  activeFeedPrice _ := none
  skipSignatureCheck := false

def shopRekeyed : SignedTransaction where
  expiration := 200
  operations := [.updateAccount { accountId := 2, activeKey := some 8 }]
  signatures := [5]

theorem accountControl_shopRekeyed :
    letI := Crypto.transparent
    ∃ e' r r', evaluateLedger shopContext (.over shopTables) shopRekeyed = .ok e' ∧
      (PendingLedger.over shopTables).view.accounts.lookup 2 = some r ∧
      e'.ledger.accounts.lookup 2 = some r' ∧ r.activeKey = 6 ∧ r'.activeKey = 8 ∧
      AccountControl shopContext (.over shopTables) shopRekeyed r r' := by
  let := Crypto.transparent
  obtain ⟨e', h, hkey⟩ := exists_ok_of_any
    (x := evaluateLedger shopContext (.over shopTables) shopRekeyed)
    (p := fun e' => (e'.ledger.accounts.lookup 2).map (·.activeKey) = some 8) (by decide +kernel)
  obtain ⟨r, hr, hold⟩ := exists_some_of_any
    (o := (PendingLedger.over shopTables).view.accounts.lookup 2)
    (p := fun r => r.activeKey = 6) (by decide +kernel)
  obtain ⟨r', hr', hcontrol⟩ := accountControl (by decide +kernel) h hr
  rw [hr', Option.map_some, Option.some.injEq] at hkey
  exact ⟨e', r, r', h, hr, hr', hold, hkey, hcontrol⟩

def shopListing (signatures : List Signature) : SignedTransaction where
  expiration := 200
  operations := [.assetUpdateWhitelist ⟨1, 9⟩]
  signatures := signatures

theorem assetControl_shopListing :
    letI := Crypto.transparent
    ∃ e', evaluateLedger shopContext (.over shopTables) (shopListing [5]) = .ok e' ∧
      AssetControlLaw shopContext (.over shopTables) (shopListing [5]) := by
  let := Crypto.transparent
  obtain ⟨e', h⟩ := exists_ok_of_isOk
    (x := evaluateLedger shopContext (.over shopTables) (shopListing [5])) (by decide +kernel)
  refine ⟨e', h, (assetControl_iff (by decide +kernel) h).2.2 fun e op hmem _ r hr _ => ?_⟩
  have hall : ∀ step ∈ transactionTrace shopContext (.over shopTables) (shopListing [5]),
      (step.1.ledger.assets.lookup 1).all fun r => step.1.verifyAuthority r.authority := by
    decide +kernel
  have hop := mem_of_mem_trace (e := EvalState.start shopContext (.over shopTables)
    (shopListing [5]) [5]) hmem
  simp only [shopListing, List.mem_singleton, Operation.assetUpdateWhitelist.injEq] at hop
  subst hop
  have hr1 : e.ledger.assets.lookup 1 = some r := hr
  simpa [hr1] using hall _ hmem

/-- Nobody has to sign a change of the whitelist. -/
theorem shopListing_unsigned :
    letI := Crypto.transparent
    ∃ e', evaluateLedger shopContext (.over shopTables) (shopListing []) = .ok e' ∧
      (e'.ledger.assets.lookup 1).any (·.whitelist.mem 9) ∧
      ¬ AssetControlLaw shopContext (.over shopTables) (shopListing []) := by
  let := Crypto.transparent
  obtain ⟨e', h, hlisted⟩ := exists_ok_of_any
    (x := evaluateLedger shopContext (.over shopTables) (shopListing []))
    (p := fun e' => (e'.ledger.assets.lookup 1).any (·.whitelist.mem 9)) (by decide +kernel)
  refine ⟨e', h, hlisted, fun hlaw => ?_⟩
  let e := EvalState.start shopContext (.over shopTables) (shopListing []) []
  have hmem : (e, .assetUpdateWhitelist ⟨1, 9⟩) ∈
      transactionTrace shopContext (.over shopTables) (shopListing []) := List.mem_cons_self
  obtain ⟨r, hr, hauth, hempty⟩ := exists_some_of_any (o := e.ledger.assets.lookup 1)
    (p := fun r => e.verifyAuthority r.authority = false ∧ r.whitelist = ∅) (by decide +kernel)
  obtain ⟨m, hm, hlist⟩ := exists_ok_of_any
    (x := e.evaluateOperation (.assetUpdateWhitelist ⟨1, 9⟩))
    (p := fun m => (m.ledger.assets.lookup 1).any (·.whitelist ≠ ∅)) (by decide +kernel)
  obtain ⟨r', hr', hne⟩ := (Option.any_eq_true _ _).1 hlist
  have hlaw := hlaw e _ m hmem hm 1 r r' (by decide +kernel) hr hr' fun hsame => by
    have hwhite : r'.whitelist = ∅ := (congrArg AssetControls.whitelist hsame).trans hempty
    simp [hwhite] at hne
  rw [hauth] at hlaw
  cases hlaw

end BitShares
