import BitShares.Ledger.Proof.WellFormed

/-!
# The life of an account

Accounts are written by few operations, and never back to an earlier stage: a retracted account
stays retracted, a delegate stays a delegate and its pay rate does not rise (`AccountRecord.Later`).
A slate is checked once, when it is defined; since its delegates stay delegates, the vote deltas of
every later transaction find them.  `account_lifecycle` says so of whole runs of transactions.
-/

namespace BitShares

open Relation (ReflTransGen)

/-! ## One account -/

/-- `r'` is a later record of the account of `r`. -/
structure AccountRecord.Later (r r' : AccountRecord) : Prop where
  id : r'.id = r.id
  retracted : r.isRetracted → r'.isRetracted
  payRate : ∀ d, r.delegateInfo = some d →
    ∃ d', r'.delegateInfo = some d' ∧ d'.payRate ≤ d.payRate

theorem AccountRecord.Later.refl (r : AccountRecord) : r.Later r :=
  ⟨rfl, fun h => h, fun d hd => ⟨d, hd, UInt8.le_refl _⟩⟩

theorem AccountRecord.Later.trans {r r' r'' : AccountRecord} (h : r.Later r') (h' : r'.Later r'') :
    r.Later r'' where
  id := h'.id.trans h.id
  retracted hr := h'.retracted (h.retracted hr)
  payRate d hd := by
    obtain ⟨d', hd', hle⟩ := h.payRate d hd
    obtain ⟨d'', hd'', hle'⟩ := h'.payRate d' hd'
    exact ⟨d'', hd'', UInt8.le_trans hle' hle⟩

theorem AccountRecord.Later.isDelegate {r r' : AccountRecord} (h : r.Later r')
    (hr : r.isDelegate) : r'.isDelegate := by
  obtain ⟨d, hd⟩ := Option.isSome_iff_exists.1 hr
  obtain ⟨d', hd', -⟩ := h.payRate d hd
  rw [AccountRecord.isDelegate, hd']
  rfl

/-- What a write does to the pay of an account: it leaves it, and retracts no delegate that has any
left; or it takes some of what there is. -/
inductive AccountRecord.PayStep (r r' : AccountRecord) : Prop
  | keep (hpay : r'.payBalance = r.payBalance)
      (hretract : r'.isRetracted → r.isRetracted ∨ r.payBalance ≤ 0)
  | draw {amount : ShareType} (hpos : 0 < amount) (hle : amount ≤ r.payBalance)
      (hpay : r'.payBalance = r.payBalance - amount) (hretracted : r'.isRetracted = r.isRetracted)

inductive AccountMove (t : Table AccountId AccountRecord) : Table AccountId AccountRecord → Prop
  | create {r : AccountRecord} (hnew : t.lookup r.id = none) (hpay : r.payBalance = 0) :
      AccountMove t (t.insert r.id r)
  | update {r r' : AccountRecord} (hr : t.lookup r.id = some r) (hlater : r.Later r')
      (hpay : r.PayStep r') : AccountMove t (t.insert r'.id r')

abbrev AccountMoves := ReflTransGen AccountMove

theorem AccountMove.later {t t' : Table AccountId AccountRecord} (h : AccountMove t t')
    {id : AccountId} {r : AccountRecord} (hr : t.lookup id = some r) :
    ∃ r', t'.lookup id = some r' ∧ r.Later r' := by
  cases h with
  | create hnew _ =>
    refine ⟨r, ?_, .refl r⟩
    rw [Table.lookup_insert_eq, if_neg fun h => ?_, hr]
    rw [h, hnew] at hr
    cases hr
  | @update s s' hs hlater _ =>
    by_cases hid : id = s'.id
    · rw [hid, hlater.id, hs] at hr
      cases hr
      exact ⟨s', by rw [hid, Finmap.lookup_insert], hlater⟩
    · exact ⟨r, by rw [Table.lookup_insert_eq, if_neg hid, hr], .refl r⟩

theorem AccountMoves.later {t t' : Table AccountId AccountRecord} (h : AccountMoves t t')
    {id : AccountId} {r : AccountRecord} (hr : t.lookup id = some r) :
    ∃ r', t'.lookup id = some r' ∧ r.Later r' := by
  induction h with
  | refl => exact ⟨r, hr, .refl r⟩
  | tail _ hmove ih =>
    obtain ⟨m, hm, hlater⟩ := ih
    obtain ⟨r', hr', hlater'⟩ := hmove.later hm
    exact ⟨r', hr', hlater.trans hlater'⟩

/-- Delegates of `t`, by id. -/
def IsDelegate (t : Table AccountId AccountRecord) (id : AccountId) : Prop :=
  ∃ r, t.lookup id = some r ∧ r.isDelegate

theorem AccountMoves.isDelegate {t t' : Table AccountId AccountRecord} (h : AccountMoves t t')
    {id : AccountId} (hid : IsDelegate t id) : IsDelegate t' id := by
  obtain ⟨r, hr, hdelegate⟩ := hid
  obtain ⟨r', hr', hlater⟩ := h.later hr
  exact ⟨r', hr', hlater.isDelegate hdelegate⟩

section

variable [Crypto]

/-! ## Updates -/

omit [Crypto] in
theorem AccountRecord.payBalance_of_not_isDelegate {r : AccountRecord} (h : ¬ r.isDelegate) :
    r.payBalance = 0 := by
  rw [isDelegate, Bool.not_eq_true, Option.isSome_eq_false_iff, Option.isNone_iff_eq_none] at h
  rw [payBalance, h]
  rfl

omit [Crypto] in
theorem AccountRecord.isRetracted_eq_false {r : AccountRecord} :
    r.isRetracted = false ↔ r.activeKey ≠ nullKey :=
  decide_eq_false_iff_not

omit [Crypto] in
theorem AccountRecord.isRetracted_congr {r r' : AccountRecord}
    (h : r'.activeKeyHistory = r.activeKeyHistory) : r'.isRetracted = r.isRetracted := by
  have hkey : r'.activeKey = r.activeKey := by rw [activeKey, activeKey, h]
  rw [isRetracted, isRetracted, hkey]

omit [Crypto] in
theorem AccountRecord.not_isRetracted_set {r : AccountRecord} (h : r.isRetracted = false)
    {now : Time} {key : PublicKey} (hkey : key ≠ nullKey) :
    isRetracted { r with activeKeyHistory := r.activeKeyHistory.set now key } = false := by
  rw [isRetracted_eq_false, activeKey] at h ⊢
  dsimp only
  rcases r.activeKeyHistory.last?_set now key with hlast | hlast <;> rw [hlast]
  · exact hkey
  · exact h

theorem UpdateAccountOperation.updateActiveKey_pay {op : UpdateAccountOperation} {e : EvalState}
    {r r' : AccountRecord} (h : op.updateActiveKey e r = .ok r') (hr : r.isRetracted = false) :
    r'.isRetracted → r.payBalance ≤ 0 := by
  rcases updateActiveKey_eq_ok h with ⟨-, rfl⟩ | ⟨key, hpay, -, rfl⟩
  · simp [hr]
  · by_cases hnull : key = nullKey
    · intro _
      by_cases hdelegate : r.isDelegate
      · exact hpay hnull hdelegate
      · rw [AccountRecord.payBalance_of_not_isDelegate hdelegate]
        exact Int64.le_refl _
    · simp [AccountRecord.not_isRetracted_set hr hnull]

omit [Crypto] in
theorem UpdateAccountOperation.updateDelegate_payRate {op : UpdateAccountOperation} {e : EvalState}
    {r r' : AccountRecord} {fee : ShareType} (h : op.updateDelegate e r = .ok (r', fee)) :
    r'.activeKeyHistory = r.activeKeyHistory ∧
      ∀ d, r.delegateInfo = some d → ∃ d', r'.delegateInfo = some d' ∧ d'.payRate ≤ d.payRate := by
  rcases updateDelegate_eq_ok h with ⟨-, hd, rfl⟩ | ⟨d, hd, hle, rfl⟩ | ⟨hd, -, rfl⟩ <;>
    refine ⟨rfl, fun d' hd' => ?_⟩ <;> rw [hd] at hd' <;> cases hd'
  exact ⟨_, rfl, hle⟩

theorem UpdateAccountOperation.evaluate_later {op : UpdateAccountOperation} {e e' : EvalState}
    (h : op.evaluate e = .ok e') :
    ∃ r r', e.ledger.accounts.lookup op.accountId = some r ∧ r.Later r' ∧ r.PayStep r' ∧
      e'.ledger = e.ledger.storeAccount r' := by
  simp only [evaluate, bind_eq_ok, require_eq_ok, expect_eq_ok, pure_eq_ok, exists_and_left,
    exists_const, Prod.exists, PendingLedger.getAccountRecord_eq] at h
  obtain ⟨r, hr, hnot, k, hk, s, regFee, hs, rfl⟩ := h
  have hnot : r.isRetracted = false := by simpa using hnot
  obtain ⟨hid, hinfo⟩ := updateActiveKey_standing hk
  obtain ⟨hstand, -⟩ := updateDelegate_standing hs
  obtain ⟨hhistory, hrate⟩ := updateDelegate_payRate hs
  have hkeys : AccountRecord.isRetracted { s with lastUpdate := e.ctx.now } = k.isRetracted :=
    AccountRecord.isRetracted_congr hhistory
  have hpayBalance : s.payBalance = r.payBalance :=
    hstand.payBalance.trans (by simp [AccountRecord.payBalance, hinfo])
  refine ⟨r, { s with lastUpdate := e.ctx.now }, hr, ⟨hstand.id.trans hid, ?_, ?_⟩, ?_,
    PendingLedger.view_storeAccountRecord _ _⟩
  · simp [hnot]
  · exact fun d hd => hrate d (hinfo.trans hd)
  · exact .keep hpayBalance fun hret => .inr (updateActiveKey_pay hk hnot (hkeys ▸ hret))

theorem UpdateSigningKeyOperation.evaluate_later {op : UpdateSigningKeyOperation}
    {e e' : EvalState} (h : op.evaluate e = .ok e') :
    ∃ r r', e.ledger.accounts.lookup op.accountId = some r ∧ r.Later r' ∧ r.PayStep r' ∧
      e'.ledger = e.ledger.storeAccount r' := by
  obtain ⟨r, d, hr, hd, -, heff⟩ := op.evaluate_eq_ok h
  refine ⟨r, _, hr, ?_, ?_, heff.ledger⟩
  · refine ⟨rfl, fun h => h, fun d' hd' => ?_⟩
    rw [hd] at hd'
    cases hd'
    exact ⟨_, rfl, UInt8.le_refl _⟩
  · refine .keep ?_ .inl
    simp [AccountRecord.payBalance, hd, DelegateStats.setSigningKey]

/-! ## Operations -/

structure LifeStep (e e' : EvalState) : Prop where
  accounts : AccountMoves e.ledger.accounts e'.ledger.accounts
  slates : ∀ id s, e'.ledger.slates.lookup id = some s →
    e.ledger.slates.lookup id = some s ∨
      ∀ d, s.slate.mem d → 0 ≤ d → IsDelegate e.ledger.accounts d
  deltas : ∀ d, (e'.delegateVoteDeltas.find d).isSome →
    (e.delegateVoteDeltas.find d).isSome ∨ IsDelegate e.ledger.accounts d ∨
      ∃ id s, e.ledger.slates.lookup id = some s ∧ s.slate.mem d ∧ 0 ≤ d

omit [Crypto] in
theorem LifeStep.of_rest {e e' : EvalState} (haccounts : e'.ledger.accounts = e.ledger.accounts)
    (hslates : e'.ledger.slates = e.ledger.slates)
    (hdeltas : e'.delegateVoteDeltas = e.delegateVoteDeltas) : LifeStep e e' where
  accounts := haccounts ▸ .refl
  slates _ _ hs := .inl (hslates ▸ hs)
  deltas _ hd := .inl (hdeltas ▸ hd)

omit [Crypto] in
theorem Ledger.mem_slate_of_slateBacks {L : Ledger} {id : SlateId} {d : AccountId}
    (h : L.slateBacks id d) : ∃ id s, L.slates.lookup id = some s ∧ s.slate.mem d ∧ 0 ≤ d := by
  simp only [Ledger.slateBacks, Bool.and_eq_true, decide_eq_true_eq, Option.any_eq_true] at h
  obtain ⟨⟨-, hpos⟩, s, hs, hmem⟩ := h
  exact ⟨id, s, hs, hmem, hpos⟩

omit [Crypto] in
theorem VoteShift.mem_slate {L : Ledger} {id : SlateId} {amount : ShareType}
    {deltas deltas' : OrdMap AccountId ShareType} (h : VoteShift L id amount deltas deltas')
    {d : AccountId} (hd : (deltas'.find d).isSome) : (deltas.find d).isSome ∨
      ∃ id s, L.slates.lookup id = some s ∧ s.slate.mem d ∧ 0 ≤ d :=
  (h.keys d hd).imp_right Ledger.mem_slate_of_slateBacks

omit [Crypto] in
theorem BaseVoteShift.mem_slate {L : Ledger} {c : WithdrawCondition} {amount : ShareType}
    {deltas deltas' : OrdMap AccountId ShareType} (h : BaseVoteShift L c amount deltas deltas')
    {d : AccountId} (hd : (deltas'.find d).isSome) : (deltas.find d).isSome ∨
      ∃ id s, L.slates.lookup id = some s ∧ s.slate.mem d ∧ 0 ≤ d := by
  refine (h.keys d hd).imp_right fun hback => ?_
  rw [Ledger.backs, Bool.and_eq_true] at hback
  exact Ledger.mem_slate_of_slateBacks hback.2

omit [Crypto] in
theorem LifeStep.of_votes {e e' : EvalState} {c : WithdrawCondition} {amount : ShareType}
    (haccounts : e'.ledger.accounts = e.ledger.accounts)
    (hslates : e'.ledger.slates = e.ledger.slates)
    (hshift : BaseVoteShift e.ledger c amount e.delegateVoteDeltas e'.delegateVoteDeltas) :
    LifeStep e e' where
  accounts := haccounts ▸ .refl
  slates _ _ hs := .inl (hslates ▸ hs)
  deltas _ hd := (hshift.mem_slate hd).imp_right .inr

omit [Crypto] in
theorem LifeStep.of_account {e e' : EvalState} {r' : AccountRecord}
    (hmove : AccountMove e.ledger.accounts (e.ledger.accounts.insert r'.id r'))
    (haccounts : e'.ledger.accounts = e.ledger.accounts.insert r'.id r')
    (hslates : e'.ledger.slates = e.ledger.slates)
    (hdeltas : ∀ d, (e'.delegateVoteDeltas.find d).isSome →
      (e.delegateVoteDeltas.find d).isSome ∨ IsDelegate e.ledger.accounts d) : LifeStep e e' where
  accounts := haccounts ▸ .single hmove
  slates _ _ hs := .inl (hslates ▸ hs)
  deltas d hd := (hdeltas d hd).imp_right .inl

theorem evaluateOperation_life {e e' : EvalState} {op : Operation}
    (h : e.evaluateOperation op = .ok e') (hL : e.ledger.WellFormed) : LifeStep e e' := by
  have hown : ∀ {id : AccountId} {r : AccountRecord}, e.ledger.accounts.lookup id = some r →
      e.ledger.accounts.lookup r.id = some r := fun hr => (hL.accounts _ _ hr).symm ▸ hr
  have hleaves := evaluateOperation_leaves h
  cases op with
  | withdraw op =>
    obtain ⟨-, r, _, asset, y, r', _, _, -, -, -, -, -, -, -, -, -, hshift, heff⟩ :=
      op.evaluate_effect h
    refine .of_votes ?_ ?_ (heff.deltas ▸ hshift) <;> rw [heff.ledger] <;> split <;> rfl
  | deposit op =>
    obtain ⟨-, -, _, _, _, -, hshift, heff⟩ := op.evaluate_effect h
    exact .of_votes (by rw [heff.ledger]; rfl) (by rw [heff.ledger]; rfl) (heff.deltas ▸ hshift)
  | registerAccount op =>
    obtain ⟨r, _, _, hlast, -, hpay, -, heff⟩ := op.evaluate_effect h
    exact .of_account (.create (hL.newAccount hlast) hpay) (by rw [heff.ledger]; rfl)
      (by rw [heff.ledger]; rfl) fun d hd => .inl (heff.deltas ▸ hd)
  | updateAccount op =>
    obtain ⟨_, _, _, -, -, -, heff⟩ := op.evaluate_effect h
    obtain ⟨r, r', hr, hlater, hpay, hledger⟩ := op.evaluate_later h
    exact .of_account (.update (hown hr) hlater hpay) (by rw [hledger]; rfl) (by rw [hledger]; rfl)
      fun d hd => .inl (heff.deltas ▸ hd)
  | withdrawPay op =>
    obtain ⟨hpos, r, d, hr, hd, hle, heff⟩ := op.evaluate_effect h
    have hpay : r.payBalance = d.payBalance := by simp [AccountRecord.payBalance, hd]
    have hlater : r.Later
        { r with delegateInfo := some { d with payBalance := d.payBalance - op.amount } } := by
      refine ⟨rfl, fun h => h, fun d' hd' => ?_⟩
      rw [hd] at hd'
      cases hd'
      exact ⟨_, rfl, UInt8.le_refl _⟩
    refine .of_account (.update (hown hr) hlater
      (.draw hpos (hpay ▸ hle) (by rw [hpay]; rfl) rfl))
      (by rw [heff.ledger]; rfl) (by rw [heff.ledger]; rfl) fun k hk => ?_
    · rw [heff.deltas, find_addTo_isSome] at hk
      rcases hk with rfl | hold
      · exact .inr ⟨r, hr, by rw [AccountRecord.isDelegate, hd]; rfl⟩
      · exact .inl hold
  | updateSigningKey op =>
    obtain ⟨_, _, -, -, heff⟩ := op.evaluate_effect h
    obtain ⟨r, r', hr, hlater, hpay, hledger⟩ := op.evaluate_later h
    exact .of_account (.update (hown hr) hlater hpay) (by rw [hledger]; rfl) (by rw [hledger]; rfl)
      fun d hd => .inl (heff.deltas ▸ hd)
  | defineSlate op =>
    rcases op.evaluate_effect h with rfl | ⟨record, -, hmembers, heff⟩
    · exact .of_rest rfl rfl rfl
    · refine ⟨by rw [heff.ledger]; exact .refl, fun id s hs => ?_,
        fun d hd => .inl (heff.deltas ▸ hd)⟩
      rw [heff.ledger, Ledger.storeSlate, Table.lookup_insert_eq] at hs
      split_ifs at hs
      · cases hs
        exact .inr fun d hd h0 => hmembers d hd h0
      · exact .inl hs
  | updateBalanceVote op =>
    obtain ⟨r, _, _, _, r', _, _, _, -, -, -, -, -, -, -, -, hshift, hshift', heff⟩ :=
      op.evaluate_effect h
    have hslates : e'.ledger.slates = e.ledger.slates := by rw [heff.ledger]; rfl
    refine ⟨by rw [heff.ledger]; exact .refl, fun id s hs => .inl (hslates ▸ hs), fun d hd => ?_⟩
    rcases hshift'.mem_slate (heff.deltas ▸ hd) with hold | hmem
    · exact (hshift.mem_slate hold).imp_right .inr
    · exact .inr (.inr hmem)
  | _ => exact .of_rest (hleaves.accounts rfl) (hleaves.slates rfl) (evaluateOperation_deltas h rfl)

/-! ## Transactions -/

/-- The slates name delegates.  `define_slate` lets negative ids pass, and `adjust_vote` skips
them. -/
def Ledger.SlatesStand (L : Ledger) : Prop :=
  L.slates.All fun _ s => ∀ d, s.slate.mem d → 0 ≤ d → IsDelegate L.accounts d

structure Lives (e : EvalState) : Prop where
  wellFormed : e.ledger.WellFormed
  slates : e.ledger.SlatesStand
  deltas : ∀ d, (e.delegateVoteDeltas.find d).isSome → IsDelegate e.ledger.accounts d

theorem Lives.operation {e e' : EvalState} {op : Operation} (h : Lives e)
    (hop : e.evaluateOperation op = .ok e') : Lives e' := by
  have hlife := evaluateOperation_life hop h.wellFormed
  refine ⟨evaluateOperation_wellFormed hop h.wellFormed,
    fun id s hs d hd h0 => hlife.accounts.isDelegate ?_,
    fun d hd => hlife.accounts.isDelegate ?_⟩
  · rcases hlife.slates id s hs with hold | hnew
    · exact h.slates id s hold d hd h0
    · exact hnew d hd h0
  · rcases hlife.deltas d hd with hold | hdelegate | ⟨id, s, hs, hmem, h0⟩
    · exact h.deltas d hold
    · exact hdelegate
    · exact h.slates id s hs d hmem h0

theorem evaluateToFees_lives {ctx : EvalContext} {p : PendingLedger} {trx : SignedTransaction}
    {e : EvalState} (h : evaluateToFees ctx p trx = .ok e) (hp : p.view.WellFormed)
    (hslates : p.view.SlatesStand) : Lives e := by
  obtain ⟨signers, hops, -⟩ := evaluateToFees_eq_ok h
  refine evaluateOperations_induction (P := Lives) (fun _ h => { h with })
    (fun _ _ _ _ hs hstep => hs.operation hstep) hops ⟨hp, hslates, fun d hd => ?_⟩
  simp [EvalState.start] at hd

theorem Lives.validateFees {e e' : EvalState} (h : Lives e)
    (hfees : e.feesPaid.entries.foldlM EvalState.validateFee e = .ok e') : Lives e' := by
  obtain ⟨hcoll, hwf, heff, -⟩ := EvalState.validateFees_effect h.wellFormed hfees
  have haccounts : e'.ledger.accounts = e.ledger.accounts := by rw [hcoll.rest]
  have hslates : e'.ledger.slates = e.ledger.slates := by rw [hcoll.rest]
  refine ⟨hwf, ?_, haccounts ▸ heff.deltas ▸ h.deltas⟩
  rw [Ledger.SlatesStand, hslates, haccounts]
  exact h.slates

theorem PendingLedger.adjustVotesFor_move {p p' : PendingLedger} {delta : AccountId × ShareType}
    (h : p.adjustVotesFor delta = .ok p') (hp : p.view.WellFormed) :
    AccountMove p.view.accounts p'.view.accounts := by
  obtain ⟨r, d, hr, hd, hview⟩ := adjustVotesFor_effect h
  rw [hview]
  refine .update (r := r) ((hp.accounts _ _ hr).symm ▸ hr)
    ⟨rfl, fun h => h, fun d' hd' => ?_⟩ (.keep ?_ .inl)
  · rw [hd] at hd'
    cases hd'
    exact ⟨_, rfl, UInt8.le_refl _⟩
  · simp [AccountRecord.payBalance, hd]

theorem afterFees_moves {e₂ e' : EvalState} {p₃ : PendingLedger} {total : ShareType}
    (h₃ : e₂.delegateVoteDeltas.entries.foldlM PendingLedger.adjustVotesFor e₂.pending = .ok p₃)
    (h₄ : EvalState.updateRpValues
      { e₂ with totalBaseEquivalentFeesPaid := total, pending := p₃ } = .ok e')
    (he : e₂.ledger.WellFormed) : AccountMoves e₂.ledger.accounts e'.ledger.accounts := by
  have hvotes : p₃.view.WellFormed ∧ AccountMoves e₂.ledger.accounts p₃.view.accounts := by
    refine foldlM_induction
      (P := fun q => q.view.WellFormed ∧ AccountMoves e₂.ledger.accounts q.view.accounts)
      (fun delta _ q q' hq hstep => ⟨?_, hq.2.tail (PendingLedger.adjustVotesFor_move hstep hq.1)⟩)
      h₃ ⟨he, .refl⟩
    obtain ⟨r, d, hr, -, hview⟩ := PendingLedger.adjustVotesFor_effect hstep
    exact hview ▸ hq.1.updateAccount hr rfl
  rcases EvalState.updateRpValues_record h₄ with rfl | ⟨id, r, rp, hr, haccounts⟩
  · exact hvotes.2
  · rw [haccounts]
    have hlater : r.Later { r with rp := rp } :=
      ⟨rfl, fun h => h, fun d hd => ⟨d, hd, UInt8.le_refl _⟩⟩
    exact hvotes.2.tail (.update ((hvotes.1.accounts _ _ hr).symm ▸ hr) hlater (.keep rfl .inl))

/-- **What a transaction does to the accounts.** -/
theorem evaluateLedger_moves {ctx : EvalContext} {p : PendingLedger} {trx : SignedTransaction}
    {e : EvalState} (h : evaluateLedger ctx p trx = .ok e) (hp : p.view.WellFormed) :
    AccountMoves p.view.accounts e.ledger.accounts := by
  obtain ⟨e₁, e₂, p₃, total, h₁, h₂, h₃, h₄⟩ := evaluateLedger_phases h
  obtain ⟨signers, hops, -⟩ := evaluateToFees_eq_ok h₁
  obtain ⟨hwf₁, hmoves₁⟩ := evaluateOperations_induction
    (P := fun e => e.ledger.WellFormed ∧ AccountMoves p.view.accounts e.ledger.accounts)
    (fun _ h => h)
    (fun _ _ _ _ hs h => ⟨evaluateOperation_wellFormed h hs.1,
      hs.2.trans (evaluateOperation_life h hs.1).accounts⟩) hops ⟨hp, .refl⟩
  obtain ⟨hcoll, hwf₂, -⟩ := EvalState.validateFees_effect hwf₁ h₂
  have haccounts : e₂.ledger.accounts = e₁.ledger.accounts := by rw [hcoll.rest]
  exact hmoves₁.trans (haccounts ▸ afterFees_moves h₃ h₄ hwf₂)

theorem PendingLedger.adjustVotesFor_total {p : PendingLedger} {l : List (AccountId × ShareType)}
    (hp : p.view.WellFormed) (hl : ∀ delta ∈ l, IsDelegate p.view.accounts delta.1) :
    ∃ p', l.foldlM PendingLedger.adjustVotesFor p = .ok p' := by
  induction l generalizing p with
  | nil => exact ⟨p, rfl⟩
  | cons delta l ih =>
    obtain ⟨r, hr, hdelegate⟩ := hl delta List.mem_cons_self
    obtain ⟨d, hd⟩ := Option.isSome_iff_exists.1 hdelegate
    have hstep : p.adjustVotesFor delta = .ok (p.storeAccountRecord
        { r with delegateInfo := some { d with votesFor := d.votesFor + delta.2 } }) := by
      simp only [adjustVotesFor, bind_eq_ok, expect_eq_ok, pure_eq_ok, getAccountRecord_eq]
      exact ⟨r, hr, d, hd, rfl⟩
    have hmove := adjustVotesFor_move hstep hp
    obtain ⟨p', hrest⟩ := ih
      (adjustVotesFor_wellFormed (l := [delta]) (by rw [List.foldlM_cons, hstep]; rfl) hp)
      fun delta' hmem => AccountMoves.isDelegate (.single hmove)
        (hl delta' (List.mem_cons_of_mem _ hmem))
    exact ⟨p', by rw [List.foldlM_cons, hstep]; exact hrest⟩

theorem Lives.updateDelegateVotes {e : EvalState} (h : Lives e) :
    ∃ p', e.delegateVoteDeltas.entries.foldlM PendingLedger.adjustVotesFor e.pending = .ok p' := by
  refine PendingLedger.adjustVotesFor_total h.wellFormed fun delta hmem => h.deltas delta.1 ?_
  rw [(e.delegateVoteDeltas.mem_entries_iff (k := delta.1) (v := delta.2)).1 hmem]
  rfl

theorem evaluateLedger_slates {ctx : EvalContext} {p : PendingLedger} {trx : SignedTransaction}
    {e : EvalState} (h : evaluateLedger ctx p trx = .ok e) (hp : p.view.WellFormed)
    (hslates : p.view.SlatesStand) : e.ledger.SlatesStand := by
  obtain ⟨e₁, e₂, p₃, total, h₁, h₂, h₃, h₄⟩ := evaluateLedger_phases h
  have hlives := (evaluateToFees_lives h₁ hp hslates).validateFees h₂
  intro id s hs d hd h0
  rw [afterFees_rest h₃ h₄] at hs
  exact (afterFees_moves h₃ h₄ hlives.wellFormed).isDelegate (hlives.slates id s hs d hd h0)

theorem TransactionRun.lives {p p' : PendingLedger} (hrun : TransactionRun p p')
    (hp : p.view.WellFormed) (hslates : p.view.SlatesStand) :
    AccountMoves p.view.accounts p'.view.accounts ∧ p'.view.SlatesStand ∧ p'.view.WellFormed :=
  hrun.induction
    (I := fun L => AccountMoves p.view.accounts L.accounts ∧ L.SlatesStand ∧ L.WellFormed)
    (fun _ _ _ _ h ⟨hmoves, hstand, hwf⟩ => ⟨hmoves.trans (evaluateLedger_moves h hwf),
      evaluateLedger_slates h hwf hstand, evaluateLedger_wellFormed h hwf⟩)
    ⟨.refl, hslates, hp⟩

/-- **Account lifecycle.**  Along every run of transactions a retracted account stays retracted, a
delegate stays a delegate and its pay rate does not rise.  Slates name delegates, apart from
negative ids, and the vote deltas of the next transaction are counted if it gets that far. -/
theorem account_lifecycle {p p' : PendingLedger} (hp : p.view.WellFormed)
    (hslates : p.view.SlatesStand) (hrun : TransactionRun p p') :
    (∀ id r, p.view.accounts.lookup id = some r → ∃ r', p'.view.accounts.lookup id = some r' ∧
      (r.isRetracted → r'.isRetracted) ∧ (r.isDelegate → r'.isDelegate) ∧
      ∀ d, r.delegateInfo = some d → ∃ d', r'.delegateInfo = some d' ∧ d'.payRate ≤ d.payRate) ∧
    (∀ id s, p'.view.slates.lookup id = some s → ∀ d, s.slate.mem d → 0 ≤ d →
      ∃ r, p'.view.accounts.lookup d = some r ∧ r.isDelegate) ∧
    ∀ ctx trx e₁ e₂ e₃, evaluateToFees ctx p' trx = .ok e₁ → e₁.validateFees = .ok e₂ →
      e₂.calculateBaseEquivalentFees = .ok e₃ → ∃ e, e₃.updateDelegateVotes = .ok e := by
  obtain ⟨hmoves, hstand, hwf⟩ := hrun.lives hp hslates
  refine ⟨fun id r hr => ?_, hstand, fun ctx trx e₁ e₂ e₃ h₁ h₂ h₃ => ?_⟩
  · obtain ⟨r', hr', hlater⟩ := hmoves.later hr
    exact ⟨r', hr', hlater.retracted, hlater.isDelegate, hlater.payRate⟩
  · rw [EvalState.calculateBaseEquivalentFees, bind_eq_ok] at h₃
    obtain ⟨total, -, h₃⟩ := h₃
    rw [pure_eq_ok] at h₃
    subst h₃
    obtain ⟨q, hq⟩ := ((evaluateToFees_lives h₁ hwf hstand).validateFees h₂).updateDelegateVotes
    exact ⟨_, by rw [EvalState.updateDelegateVotes, bind_eq_ok]; exact ⟨q, hq, rfl⟩⟩

end

def slateTables : LedgerTables where
  accounts :=
    (Finmap.singleton 1
      { id := 1, name := "alice", publicData := "", ownerKey := 5,
        activeKeyHistory := OrdMap.set ∅ 1 5, registrationDate := 1, lastUpdate := 1,
        delegateInfo := some { payRate := 3 } }).insert 2
      { id := 2, name := "bob", publicData := "", ownerKey := 6,
        activeKeyHistory := OrdMap.set ∅ 1 nullKey, registrationDate := 1, lastUpdate := 1 }

def slateContext : EvalContext where
  now := 100
  headBlockNum := 1
  activeFeedPrice _ := none
  skipSignatureCheck := false

/-- A slate of `members`. -/
def slateTransaction (members : List AccountId) : SignedTransaction where
  expiration := 200
  operations := [.defineSlate ⟨members⟩]
  signatures := []

theorem account_lifecycle_slate :
    letI := Crypto.transparent
    ∃ p p' : PendingLedger, p.view.WellFormed ∧ p.view.SlatesStand ∧ TransactionRun p p' ∧
      (∃ id s, p'.view.slates.lookup id = some s ∧ s.slate.mem 1) ∧
      ∀ id s, p'.view.slates.lookup id = some s → ∀ d, s.slate.mem d → 0 ≤ d →
        ∃ r, p'.view.accounts.lookup d = some r ∧ r.isDelegate := by
  let := Crypto.transparent
  obtain ⟨e, he, hslate⟩ := exists_ok_of_any
    (x := evaluateLedger slateContext (.over slateTables) (slateTransaction [1]))
    (p := fun e =>
      (e.ledger.slates.lookup (SlateRecord.id ⟨OrdSet.insert ∅ 1⟩)).any (·.slate.mem 1))
    (by decide +kernel)
  obtain ⟨s, hs, hmem⟩ := (Option.any_eq_true _ _).1 hslate
  have hwf : (PendingLedger.over slateTables).view.WellFormed := by decide +kernel
  have hstand : (PendingLedger.over slateTables).view.SlatesStand :=
    Table.All.of_empty (by rw [PendingLedger.view_over]; rfl)
  have hrun : TransactionRun (.over slateTables) e.pending := .step .refl he
  exact ⟨_, _, hwf, hstand, hrun, ⟨_, s, hs, hmem⟩, (account_lifecycle hwf hstand hrun).2.1⟩

/-- A slate of the id -1 is accepted, and no account has that id. -/
theorem slate_without_delegate :
    letI := Crypto.transparent
    ∃ e id s, evaluateLedger slateContext (.over slateTables) (slateTransaction [-1]) = .ok e ∧
      e.ledger.slates.lookup id = some s ∧ s.slate.mem (-1) ∧
      e.ledger.accounts.lookup (-1) = none := by
  let := Crypto.transparent
  obtain ⟨e, he, hslate, hnone⟩ := exists_ok_of_any
    (x := evaluateLedger slateContext (.over slateTables) (slateTransaction [-1]))
    (p := fun e =>
      (e.ledger.slates.lookup (SlateRecord.id ⟨OrdSet.insert ∅ (-1)⟩)).any (·.slate.mem (-1)) ∧
        e.ledger.accounts.lookup (-1) = none)
    (by decide +kernel)
  obtain ⟨s, hs, hmem⟩ := (Option.any_eq_true _ _).1 hslate
  exact ⟨e, _, s, he, hs, hmem, hnone⟩

end BitShares
