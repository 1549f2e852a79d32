import BitShares.Ledger.Proof.Control

/-!
# Who may lower a balance, and who its voting key

`evaluateOperation_balances` says what one operation does to the balances: it credits one, a
withdrawal lowers one under the signatures its condition asks for, and a vote update empties one
and moves what it held to the same owner's balance under another slate.

* `spendingLaw_iff`: when a balance falls only under the authority of its owners, of its asset or of
  its voting key.
* `votingKeyLaw_iff`: when a voting key changes only under its owner's signature.
-/

namespace BitShares

section

variable [Crypto]

/-! ## One operation -/

def Operation.credit (e : EvalState) : Operation → Option (BalanceId × ShareType)
  | .deposit op => some (Crypto.getAddress op.condition, op.amount)
  | .ad op => do
    let owner ← e.ledger.accounts.lookup |op.ownerAccountId|
    let fee := Int64.ofInt (op.message.utf8ByteSize / 400 + 1 : Nat) * MIN_AD_FEE
    return (Crypto.getAddress (.withSignature owner.activeAddress 0 0), op.amount.amount - fee)
  | .claimPacket op => do
    let account ← e.ledger.accounts.lookup |op.toAccountId|
    let packet ← e.ledger.packets.lookup op.randomId
    let status ← packet.claimStatuses[packet.nextAvailableClaimIndex]?
    return (Crypto.getAddress (.withSignature account.activeAddress status.amount.assetId 0),
      status.amount.amount)
  | .buyChips op =>
    some (Crypto.getAddress (.withSignature op.owner op.amount.assetId 0), op.amount.amount)
  | .updateBalanceVote op => do
    let r ← e.ledger.balances.lookup op.balanceId
    let owner ← r.condition.basicOwner
    let id := Crypto.getAddress (.withSignature owner 0 op.newSlate)
    if id = op.balanceId then none else return (id, r.balance - PRECISION / 2)
  | _ => none

/-- How much an operation credits to the balance `id`. -/
def Operation.creditTo (op : Operation) (e : EvalState) (id : BalanceId) : ShareType :=
  match op.credit e with
  | some (target, amount) => if target = id then amount else 0
  | none => 0

def Operation.isVoteUpdate : Operation → Bool
  | .updateBalanceVote _ => true
  | _ => false

/-- What is left of the `x` shares of the balance `id` by an operation that has no authority over
it.  It may credit some; and if the balance is dated after the present, its voting key may move it
at once, since its age is taken in 32 bits. -/
def Operation.leaves (e : EvalState) (id : BalanceId) (x : ShareType) : Operation → ShareType
  | .updateBalanceVote op =>
    if op.balanceId = id ∧ (e.ledger.balances.lookup id).any (e.ctx.now < ·.lastUpdate) then
      if (Operation.credit e (.updateBalanceVote op)).isSome then 0 else x - PRECISION / 2
    else x + Operation.creditTo (.updateBalanceVote op) e id
  | op => x + op.creditTo e id

/-- If an operation moves a vote onto the balance `id`: the voting key of the balance it moves. -/
def votingKeyMoved (id : BalanceId) : EvalState × Operation → Option (Option Address)
  | (e, .updateBalanceVote op) => do
    let r ← e.ledger.balances.lookup op.balanceId
    let owner ← r.condition.basicOwner
    if Crypto.getAddress (.withSignature owner 0 op.newSlate) = id then return r.restrictedOwner
    else none
  | _ => none

/-- What a vote update was allowed by, and the voting key it leaves. -/
inductive VoteAuthority (e : EvalState) (op : UpdateBalanceVoteOperation) (r : BalanceRecord)
    (owner : Address) : Option Address → Prop
  | owner (hne : op.newRestrictedOwner ≠ r.restrictedOwner) (hsigned : e.checkSignature owner) :
    VoteAuthority e op r owner op.newRestrictedOwner
  | votingKey {key : Address} (hkey : r.restrictedOwner = some key)
      (hperiod : (VOTE_UPDATE_PERIOD_SEC : Int) ≤ ((e.ctx.now : Int) - r.lastUpdate) % 2 ^ 32)
      (hsigned : e.checkSignature key ∨ e.checkSignature owner) :
    VoteAuthority e op r owner r.restrictedOwner

inductive BalanceStep (e : EvalState) : Operation → Table BalanceId BalanceRecord → Prop
  | frame {op : Operation} (hop : op.credit e = none) (hvote : op.isVoteUpdate = false) :
    BalanceStep e op e.ledger.balances
  | credit {op : Operation} {id : BalanceId} {amount : ShareType} {r' : BalanceRecord}
      (hop : op.credit e = some (id, amount)) (hvote : op.isVoteUpdate = false) (hid : r'.id = id)
      (hr : ∀ r, e.ledger.balances.lookup id = some r → r'.condition = r.condition ∧
        r'.restrictedOwner = r.restrictedOwner ∧ r'.balance = r.balance + amount)
      (hupdate : r'.lastUpdate = e.ctx.now) :
    BalanceStep e op (e.ledger.balances.insert r'.id r')
  | withdraw (op : WithdrawOperation) {r r' : BalanceRecord} {asset : AssetRecord}
      (hr : e.ledger.balances.lookup op.balanceId = some r)
      (hasset : e.ledger.assets.lookup r.assetId = some asset)
      (hallowed : e.withdrawAllowed asset r.condition = .ok ())
      (hcond : r'.condition = r.condition) (hkey : r'.restrictedOwner = r.restrictedOwner)
      (hupdate : r'.lastUpdate = e.ctx.now) :
    BalanceStep e (.withdraw op) (e.ledger.balances.insert r'.id r')
  | vote (op : UpdateBalanceVoteOperation) {r r' target : BalanceRecord} {owner : Address}
      {memo : Option Variant} {key : Option Address}
      (hr : e.ledger.balances.lookup op.balanceId = some r) (hbase : r.assetId = 0)
      (hdata : r.condition.data = .signature owner memo) (hauth : VoteAuthority e op r owner key)
      (htarget : target = ((e.ledger.balances.insert (r.emptied e.ctx.now).id
        (r.emptied e.ctx.now)).lookup r'.id).getD (r.emptied e.ctx.now))
      (hcond : r'.condition = .withSignature owner 0 op.newSlate)
      (hbalance : r'.balance = target.balance + (r.balance - PRECISION / 2))
      (hkey : r'.restrictedOwner = key) (hupdate : r'.lastUpdate = e.ctx.now) :
    BalanceStep e (.updateBalanceVote op) ((e.ledger.balances.insert (r.emptied e.ctx.now).id
      (r.emptied e.ctx.now)).insert r'.id r')

theorem DepositOperation.target_id {op : DepositOperation} {e : EvalState}
    (hwf : e.ledger.WellFormed) : (op.target e).id = Crypto.getAddress op.condition := by
  rw [DepositOperation.target, PendingLedger.getBalanceRecord_eq]
  cases h : e.pending.view.balances.lookup (Crypto.getAddress op.condition) with
  | none => rfl
  | some r => exact hwf.balances _ _ h

theorem Ledger.ownerBalance_id {L : Ledger} (hwf : L.WellFormed) (owner : Address) (a : AssetId) :
    (L.ownerBalance owner a).id = Crypto.getAddress (.withSignature owner a 0) := by
  rw [Ledger.ownerBalance]
  cases h : L.balances.lookup (Crypto.getAddress (.withSignature owner a 0)) with
  | none => rfl
  | some r => exact hwf.balances _ _ h

omit [Crypto] in
theorem EvalState.claimYield_balance (e : EvalState) (asset : AssetRecord) (r : BalanceRecord) :
    (e.claimYield asset r).2.condition = r.condition ∧
      (e.claimYield asset r).2.restrictedOwner = r.restrictedOwner ∧
      (e.claimYield asset r).1.ctx = e.ctx ∧
      (e.claimYield asset r).1.ledger.balances = e.ledger.balances := by
  unfold claimYield
  dsimp only
  split
  · refine ⟨rfl, rfl, rfl, ?_⟩
    change (PendingLedger.view _).balances = _
    rw [PendingLedger.view_storeAssetRecord]
    rfl
  · exact ⟨rfl, rfl, rfl, rfl⟩

omit [Crypto] in
theorem EvalState.requireWithdrawalFee_pending (e : EvalState) (asset : AssetRecord) :
    (e.requireWithdrawalFee asset).pending = e.pending := by
  unfold requireWithdrawalFee
  split <;> rfl

theorem WithdrawOperation.evaluate_balances {op : WithdrawOperation} {e e' : EvalState}
    (h : op.evaluate e = .ok e') : BalanceStep e (.withdraw op) e'.ledger.balances := by
  simp only [evaluate, bind_eq_ok, require_eq_ok, expect_eq_ok, pure_eq_ok, exists_and_left,
    exists_const, PendingLedger.getBalanceRecord_eq, PendingLedger.getAssetRecord_eq] at h
  obtain ⟨-, r, hr, _, -, -, asset, hasset, ⟨⟩, hallowed, moved, hmoved, rfl⟩ := h
  obtain ⟨deltas, -, rfl⟩ := EvalState.adjustBaseVote_effect hmoved
  obtain ⟨hcond, hkey, hctx, hbalances⟩ :=
    EvalState.claimYield_balance { e with delegateVoteDeltas := deltas } asset r
  generalize EvalState.claimYield { e with delegateVoteDeltas := deltas } asset r = claimed at *
  obtain ⟨m, b⟩ := claimed
  dsimp only at hcond hkey hctx hbalances ⊢
  change BalanceStep e _ (PendingLedger.view (EvalState.requireWithdrawalFee _ _).pending).balances
  rw [EvalState.requireWithdrawalFee_pending, PendingLedger.view_storeBalanceRecord]
  change BalanceStep e _ (m.ledger.balances.insert _ _)
  rw [hbalances]
  exact .withdraw op hr hasset hallowed hcond hkey (by rw [hctx])

omit [Crypto] in
theorem UpdateBalanceVoteOperation.authorized_eq_ok {op : UpdateBalanceVoteOperation}
    {e : EvalState} {r : BalanceRecord} {owner : Address} {memo : Option Variant}
    {key : Option Address} (hdata : r.condition.data = .signature owner memo)
    (h : op.authorized e (r.emptied e.ctx.now) r.lastUpdate = .ok key) :
    VoteAuthority e op r owner key := by
  have howners : (r.emptied e.ctx.now).condition.owners = .ok [owner] := by
    change r.condition.owners = _
    rw [WithdrawCondition.owners, hdata]
  have hkeys : (r.emptied e.ctx.now).restrictedOwner = r.restrictedOwner := rfl
  simp only [authorized, howners, hkeys, bind_eq_ok, Except.ok.injEq, exists_eq_left'] at h
  split at h
  · rename_i hnew
    simp only [bind_eq_ok, require_eq_ok, pure_eq_ok, exists_and_left, exists_const] at h
    obtain ⟨hsigned, rfl⟩ := h
    exact .owner hnew.2 (by simpa using hsigned)
  · simp only [bind_eq_ok, require_eq_ok, expect_eq_ok, pure_eq_ok, exists_and_left,
      exists_const] at h
    obtain ⟨hperiod, votingKey, hkey, hsigned, rfl⟩ := h
    exact .votingKey hkey hperiod (by simpa using hsigned)

theorem UpdateBalanceVoteOperation.evaluate_balances {op : UpdateBalanceVoteOperation}
    {e e' : EvalState} (h : op.evaluate e = .ok e') :
    BalanceStep e (.updateBalanceVote op) e'.ledger.balances := by
  simp only [evaluate, bind_eq_ok, require_eq_ok, expect_eq_ok, pure_eq_ok, exists_and_left,
    exists_const, PendingLedger.getBalanceRecord_eq] at h
  obtain ⟨r, hr, hbase, owner, howner, -, asset, -, -, m, hm, key, hkey, date, -, m', hm', rfl⟩ := h
  obtain ⟨memo, hdata⟩ := WithdrawCondition.basicOwner_eq_some howner
  obtain ⟨deltas, -, rfl⟩ := EvalState.adjustVote_effect hm
  obtain ⟨deltas', -, rfl⟩ := EvalState.adjustVote_effect hm'
  have hauth : VoteAuthority e op r owner key := by
    cases authorized_eq_ok hdata hkey with
    | owner hne hsigned => exact .owner hne hsigned
    | votingKey hsome hperiod hsigned => exact .votingKey hsome hperiod hsigned
  change BalanceStep e _ (PendingLedger.view _).balances
  rw [PendingLedger.view_storeBalanceRecord]
  change BalanceStep e _ ((PendingLedger.view (PendingLedger.storeBalanceRecord _ _)).storeBalance
    _).balances
  rw [PendingLedger.view_storeBalanceRecord]
  refine .vote op hr hbase hdata hauth ?_ rfl rfl rfl rfl
  rw [target, PendingLedger.getBalanceRecord_eq, PendingLedger.view_storeBalanceRecord]
  rfl

theorem BuyChipsOperation.evaluate_balances {op : BuyChipsOperation} {e e' : EvalState}
    (hwf : e.ledger.WellFormed) (h : op.evaluate e = .ok e') :
    BalanceStep e (.buyChips op) e'.ledger.balances := by
  simp only [evaluate, bind_eq_ok, require_eq_ok, expect_eq_ok, pure_eq_ok, exists_and_left,
    exists_const] at h
  obtain ⟨-, -, asset, -, rfl⟩ := h
  change BalanceStep e _ (PendingLedger.view _).balances
  rw [PendingLedger.view_storeAssetRecord, PendingLedger.view_storeBalanceRecord]
  simp only [EvalState.subBalance_pending, PendingLedger.getBalanceRecord_eq]
  refine .credit rfl rfl (Ledger.ownerBalance_id hwf op.owner op.amount.assetId) (fun r hr => ?_) rfl
  rw [show e.pending.view.balances.lookup _ = _ from hr]
  exact ⟨rfl, rfl, rfl⟩

theorem evaluateOperation_balances {e e' : EvalState} {op : Operation}
    (hwf : e.ledger.WellFormed) (h : e.evaluateOperation op = .ok e') :
    BalanceStep e op e'.ledger.balances := by
  have hcredited : ∀ (owner : Address) (amount : Asset) (r : BalanceRecord),
      e.ledger.balances.lookup (Crypto.getAddress (.withSignature owner amount.assetId 0)) =
        some r →
      (e.ledger.credited e.ctx.now owner amount).condition = r.condition ∧
        (e.ledger.credited e.ctx.now owner amount).restrictedOwner = r.restrictedOwner ∧
        (e.ledger.credited e.ctx.now owner amount).balance = r.balance + amount.amount := by
    intro owner amount r hr
    have howner : e.ledger.ownerBalance owner amount.assetId = r := by
      rw [Ledger.ownerBalance, hr]
      rfl
    exact ⟨by rw [Ledger.credited, howner], by rw [Ledger.credited, howner],
      by rw [Ledger.credited, howner]⟩
  cases op with
  | withdraw op => exact op.evaluate_balances h
  | deposit op =>
    obtain ⟨-, -, _, _, _, -, -, heff⟩ := op.evaluate_effect h
    rw [heff.ledger]
    refine .credit rfl rfl (op.target_id hwf) (fun r hr => ?_) rfl
    have htarget : op.target e = r := by
      rw [DepositOperation.target, PendingLedger.getBalanceRecord_eq,
        show e.pending.view.balances.lookup _ = _ from hr]
      rfl
    exact ⟨by rw [htarget], by rw [htarget], by rw [htarget]⟩
  | ad op =>
    obtain ⟨fee, owner, -, -, rfl, howner, heff⟩ := op.evaluate_effect h
    rw [heff.ledger]
    refine .credit ?_ rfl (Ledger.ownerBalance_id hwf _ _) (hcredited _ _) rfl
    simp [Operation.credit, howner]
  | claimPacket op =>
    obtain ⟨account, packet, haccount, hpacket, ⟨hnone, rfl⟩ | ⟨status, hstatus, -, heff⟩⟩ :=
      op.evaluate_effect h
    · refine .frame ?_ rfl
      simp [Operation.credit, haccount, hpacket, hnone]
    · rw [heff.ledger]
      refine .credit ?_ rfl (Ledger.ownerBalance_id hwf _ _) (hcredited _ _) rfl
      simp [Operation.credit, haccount, hpacket, hstatus]
  | updateBalanceVote op => exact op.evaluate_balances h
  | buyChips op => exact op.evaluate_balances hwf h
  | _ => exact (evaluateOperation_leaves h).balances rfl ▸ .frame rfl rfl

/-! ## One balance -/

/-- How an operation changes the balance `m` under `id` into `m'`. -/
inductive BalanceChange (e : EvalState) (id : BalanceId) (m m' : BalanceRecord) : Operation → Prop
  | credited {op : Operation} (hmove : votingKeyMoved id (e, op) = none)
      (hbalance : m'.balance = op.leaves e id m.balance)
      (hkey : m'.restrictedOwner = m.restrictedOwner) : BalanceChange e id m m' op
  | withdrawn {op : WithdrawOperation} {asset : AssetRecord} (hid : op.balanceId = id)
      (hasset : e.ledger.assets.lookup m.assetId = some asset)
      (hallowed : e.withdrawAllowed asset m.condition = .ok ())
      (hkey : m'.restrictedOwner = m.restrictedOwner) : BalanceChange e id m m' (.withdraw op)
  | voted {op : UpdateBalanceVoteOperation} {owner : Address} {memo : Option Variant}
      {key : Option Address} (hid : op.balanceId = id) (hbase : m.assetId = 0)
      (hdata : m.condition.data = .signature owner memo) (hauth : VoteAuthority e op m owner key)
      (hbalance : m'.balance = if (Operation.credit e (.updateBalanceVote op)).isSome then 0
        else m.balance - PRECISION / 2)
      (hkey : m'.restrictedOwner = m.restrictedOwner ∨ m'.restrictedOwner = key) :
    BalanceChange e id m m' (.updateBalanceVote op)
  | received {op : UpdateBalanceVoteOperation} {r : BalanceRecord} {owner : Address}
      {key : Option Address} (hr : e.ledger.balances.lookup op.balanceId = some r)
      (hid : id = Crypto.getAddress (.withSignature owner 0 op.newSlate))
      (howner : r.condition.basicOwner = some owner)
      (hcond : m.condition = .withSignature owner 0 op.newSlate)
      (hauth : VoteAuthority e op r owner key)
      (hbalance : m'.balance = Operation.leaves e id m.balance (.updateBalanceVote op))
      (hkey : m'.restrictedOwner = key) : BalanceChange e id m m' (.updateBalanceVote op)

/-- The balance `m'` comes from `m`: same condition, and updated now if it changed at all. -/
structure BalanceRecord.Follows (now : Time) (m m' : BalanceRecord) : Prop where
  condition : m'.condition = m.condition
  lastUpdate : m' = m ∨ m'.lastUpdate = now

theorem BalanceChange.same (e : EvalState) (id : BalanceId) (m : BalanceRecord) {op : Operation}
    (hmove : votingKeyMoved id (e, op) = none)
    (hleaves : ∀ x, op.leaves e id x = x + op.creditTo e id) (h : op.creditTo e id = 0) :
    BalanceChange e id m m op :=
  .credited hmove (by rw [hleaves, h, Int64.add_zero]) rfl

theorem votingKeyMoved_of_not_vote {op : Operation} (h : op.isVoteUpdate = false) (e : EvalState)
    (id : BalanceId) : votingKeyMoved id (e, op) = none := by
  cases op with
  | updateBalanceVote op => cases h
  | _ => rfl

theorem Operation.leaves_of_not_vote {op : Operation} (h : op.isVoteUpdate = false) (e : EvalState)
    (id : BalanceId) (x : ShareType) : op.leaves e id x = x + op.creditTo e id := by
  cases op with
  | updateBalanceVote op => cases h
  | _ => rfl

theorem UpdateBalanceVoteOperation.leaves_of_ne {op : UpdateBalanceVoteOperation} {id : BalanceId}
    (h : id ≠ op.balanceId) (e : EvalState) (x : ShareType) :
    Operation.leaves e id x (.updateBalanceVote op) =
      x + Operation.creditTo (.updateBalanceVote op) e id :=
  if_neg fun hsame => h hsame.1.symm

theorem Operation.creditTo_of_ne {op : Operation} {e : EvalState} {id id' : BalanceId}
    {amount : ShareType} (h : op.credit e = some (id', amount)) (hne : id' ≠ id) :
    op.creditTo e id = 0 := by
  rw [creditTo, h]
  exact if_neg hne

theorem Operation.creditTo_self {op : Operation} {e : EvalState} {id : BalanceId}
    {amount : ShareType} (h : op.credit e = some (id, amount)) : op.creditTo e id = amount := by
  rw [creditTo, h]
  exact if_pos rfl

theorem UpdateBalanceVoteOperation.credit_eq {op : UpdateBalanceVoteOperation} {e : EvalState}
    {r : BalanceRecord} {owner : Address} (hr : e.ledger.balances.lookup op.balanceId = some r)
    (howner : r.condition.basicOwner = some owner) :
    Operation.credit e (.updateBalanceVote op) =
      if Crypto.getAddress (.withSignature owner 0 op.newSlate) = op.balanceId then none
      else some (Crypto.getAddress (.withSignature owner 0 op.newSlate),
        r.balance - PRECISION / 2) := by
  simp only [Operation.credit, hr, howner, Option.bind_eq_bind, Option.bind_some]
  rfl

theorem BalanceStep.lookup {e : EvalState} {op : Operation} {t : Table BalanceId BalanceRecord}
    (hinj : Function.Injective Crypto.getAddress) (hwf : e.ledger.WellFormed)
    (hstep : BalanceStep e op t) {id : BalanceId} {m : BalanceRecord}
    (hm : e.ledger.balances.lookup id = some m) :
    ∃ m', t.lookup id = some m' ∧ m.Follows e.ctx.now m' ∧ BalanceChange e id m m' op := by
  cases hstep with
  | frame hop hvote =>
    exact ⟨m, hm, ⟨rfl, .inl rfl⟩, .same e id m (votingKeyMoved_of_not_vote hvote e id)
      (Operation.leaves_of_not_vote hvote e id) (by rw [Operation.creditTo, hop])⟩
  | @credit _ id' amount r' hop hvote hid hr hupdate =>
    have hmove := votingKeyMoved_of_not_vote hvote e id
    have hleaves := Operation.leaves_of_not_vote hvote e id
    rw [hid]
    by_cases hne : id = id'
    · subst hne
      obtain ⟨hcond, hkey, hbalance⟩ := hr m hm
      exact ⟨r', Finmap.lookup_insert _, ⟨hcond, .inr hupdate⟩,
        .credited hmove (by rw [hbalance, hleaves, Operation.creditTo_self hop]) hkey⟩
    · exact ⟨m, (Finmap.lookup_insert_of_ne _ hne).trans hm, ⟨rfl, .inl rfl⟩,
        .same e id m hmove hleaves (Operation.creditTo_of_ne hop (Ne.symm hne))⟩
  | @withdraw op r r' asset hr hasset hallowed hcond hkey hupdate =>
    have hid : r'.id = op.balanceId := by
      rw [BalanceRecord.id, hcond]
      exact hwf.balances _ _ hr
    rw [hid]
    by_cases hne : id = op.balanceId
    · subst hne
      obtain rfl : r = m := by simpa [hr] using hm
      exact ⟨r', Finmap.lookup_insert _, ⟨hcond, .inr hupdate⟩, .withdrawn rfl hasset hallowed hkey⟩
    · exact ⟨m, (Finmap.lookup_insert_of_ne _ hne).trans hm, ⟨rfl, .inl rfl⟩,
        .same e id m rfl (fun _ => rfl) rfl⟩
  | @vote op r r' target owner memo key hr hbase hdata hauth htarget hcond hbalance hkey hupdate =>
    have howner : r.condition.basicOwner = some owner := by
      rw [WithdrawCondition.basicOwner, hdata]
    have hsource : (r.emptied e.ctx.now).id = op.balanceId :=
      show r.id = op.balanceId from hwf.balances _ _ hr
    have hid : r'.id = Crypto.getAddress (.withSignature owner 0 op.newSlate) := by
      rw [BalanceRecord.id, hcond]
    have hcredit := op.credit_eq hr howner
    rw [hsource] at htarget ⊢
    by_cases htgt : id = r'.id
    · by_cases hsrc : id = op.balanceId
      · -- the slate stays: the balance pays the fee
        subst hsrc
        obtain rfl : r = m := by simpa [hr] using hm
        have hsame : r.condition = r'.condition := by
          refine hinj ?_
          rw [← htgt] at hid
          rw [hcond, ← hid]
          exact hwf.balances _ _ hr
        have hself : r'.balance = r.balance - PRECISION / 2 := by
          rw [hbalance, htarget, ← htgt, Finmap.lookup_insert]
          exact (congrArg (· + _) (Int64.sub_self r.balance)).trans (Int64.zero_add _)
        rw [if_pos (hid.symm.trans htgt.symm)] at hcredit
        exact ⟨r', by rw [htgt, Finmap.lookup_insert], ⟨hsame.symm, .inr hupdate⟩,
          .voted rfl hbase hdata hauth (by rw [hcredit, hself]; rfl) (.inr hkey)⟩
      · -- another balance of the owner receives the shares
        have hmcond : m.condition = .withSignature owner 0 op.newSlate := by
          refine hinj ?_
          rw [← hid, ← htgt]
          exact hwf.balances _ _ hm
        have htarget' : target = m := by
          rw [htarget, ← htgt, Finmap.lookup_insert_of_ne _ hsrc, hm]
          rfl
        have hother : Crypto.getAddress (.withSignature owner 0 op.newSlate) ≠ op.balanceId := by
          rw [← hid, ← htgt]
          exact hsrc
        rw [if_neg hother, ← hid, ← htgt] at hcredit
        refine ⟨r', by rw [htgt, Finmap.lookup_insert], ⟨hcond.trans hmcond.symm, .inr hupdate⟩,
          .received hr (htgt.trans hid) howner hmcond hauth ?_ hkey⟩
        rw [hbalance, htarget', op.leaves_of_ne hsrc, Operation.creditTo_self hcredit]
    · rw [Finmap.lookup_insert_of_ne _ htgt]
      by_cases hsrc : id = op.balanceId
      · subst hsrc
        obtain rfl : r = m := by simpa [hr] using hm
        rw [if_neg fun h => htgt (h.symm.trans hid.symm)] at hcredit
        exact ⟨_, Finmap.lookup_insert _, ⟨rfl, .inr rfl⟩,
          .voted rfl hbase hdata hauth (by rw [hcredit]; exact Int64.sub_self r.balance) (.inl rfl)⟩
      · refine ⟨m, (Finmap.lookup_insert_of_ne _ hsrc).trans hm, ⟨rfl, .inl rfl⟩,
          .same e id m ?_ (op.leaves_of_ne hsrc e) ?_⟩
        · simp only [votingKeyMoved, hr, howner, Option.bind_eq_bind, Option.bind_some]
          exact if_neg fun h => htgt (h.symm.trans hid.symm)
        rw [Operation.creditTo, hcredit]
        split
        · rename_i target amount hsome
          split_ifs at hsome with hself
          · cases hsome
            exact if_neg fun h => htgt (h.symm.trans hid.symm)
        · rfl

/-! ## What a vote update costs its owner -/

/-- The base shares in the plain balances of `owner`, as `share_type`. -/
def Ledger.ownerShares (L : Ledger) (owner : Address) : ShareType :=
  Int64.ofInt (L.balances.total fun _ r =>
    if r.assetId = 0 ∧ r.condition.basicOwner = some owner then r.balance.toInt else 0)

theorem Ledger.ownerShares_storeBalance {L : Ledger} {owner : Address} {r : BalanceRecord}
    (hbase : r.assetId = 0) (howner : r.condition.basicOwner = some owner)
    (hold : ∀ m, L.balances.lookup r.id = some m → m.condition = r.condition) :
    (L.storeBalance r).ownerShares owner =
      L.ownerShares owner - ((L.balances.lookup r.id).map (·.balance)).getD 0 + r.balance := by
  unfold ownerShares storeBalance
  dsimp only
  rw [Table.total_insert, if_pos ⟨hbase, howner⟩, Int64.ofInt_add, Int64.ofInt_sub,
    Int64.ofInt_toInt]
  cases hm : L.balances.lookup r.id with
  | none => simp
  | some m =>
    have hcond := hold m hm
    rw [Table.weight_some, if_pos ⟨by rw [BalanceRecord.assetId, hcond]; exact hbase,
      by rw [hcond]; exact howner⟩, Int64.ofInt_toInt]
    rfl

theorem UpdateBalanceVoteOperation.evaluate_ownerShares {op : UpdateBalanceVoteOperation}
    {e e' : EvalState} (hinj : Function.Injective Crypto.getAddress) (hwf : e.ledger.WellFormed)
    (h : op.evaluate e = .ok e') {m : BalanceRecord} {owner : Address}
    (hm : e.ledger.balances.lookup op.balanceId = some m)
    (howner : m.condition.basicOwner = some owner) :
    e'.ledger.ownerShares owner = e.ledger.ownerShares owner - PRECISION / 2 := by
  obtain ⟨r, owner', memo, target, r', asset, _, _, hr, hbase, hdata, -, -, htarget, hcond, hbal, -, -,
    heff⟩ := evaluate_effect h
  obtain rfl : r = m := by simpa [hr] using hm
  obtain rfl : owner' = owner := by
    rw [WithdrawCondition.basicOwner, hdata] at howner
    exact Option.some.inj howner
  have hid : r.id = op.balanceId := hwf.balances _ _ hr
  have hwf' := hwf.storeBalance (r.emptied e.ctx.now)
  have hsame : ∀ q, (e.ledger.storeBalance (r.emptied e.ctx.now)).balances.lookup r'.id = some q →
      q.condition = r'.condition := fun q hq => hinj (hwf'.balances _ _ hq)
  have hempty : (r.emptied e.ctx.now).balance = 0 := Int64.sub_self _
  have hsource : (e.ledger.balances.lookup (r.emptied e.ctx.now).id) = some r := by
    rw [show (r.emptied e.ctx.now).id = op.balanceId from hid, hr]
  have hfirst : (e.ledger.storeBalance (r.emptied e.ctx.now)).ownerShares owner' =
      e.ledger.ownerShares owner' - r.balance := by
    rw [Ledger.ownerShares_storeBalance (r := r.emptied e.ctx.now) hbase howner
      (fun q hq => by rw [hsource] at hq; cases hq; rfl), hsource, hempty, Int64.add_zero]
    rfl
  rw [heff.ledger, Ledger.ownerShares_storeBalance (by rw [BalanceRecord.assetId, hcond]; rfl)
    (by rw [hcond]; rfl) hsame, hfirst, hbal]
  have htgt : target.balance = (((e.ledger.storeBalance (r.emptied e.ctx.now)).balances.lookup
      r'.id).map (·.balance)).getD 0 := by
    rw [htarget]
    cases (e.ledger.storeBalance (r.emptied e.ctx.now)).balances.lookup r'.id with
    | none => exact hempty
    | some q => rfl
  rw [← htgt]
  grind

/-! ## Spending -/

/-- What entitles a transaction to lower the balance `r` under `id`. -/
inductive SpendAuthority (ctx : EvalContext) (p : PendingLedger) (trx : SignedTransaction)
    (id : BalanceId) (r : BalanceRecord) : Prop
  /-- The owner of a signature or vesting condition signed. -/
  | owner {a : Address} (howner : r.condition.owner = some a) (hsigned : signedBy ctx trx a)
  /-- Enough owners of a multisig condition signed. -/
  | multisig {required : Nat} {owners : OrdSet Address} {memo : Option Variant}
      (hdata : r.condition.data = .multisig required owners memo)
      (hsigned : required ≤ (owners.toList.filter (signedBy ctx trx)).length)
  /-- The authority of an asset with retractable balances withdraws from it. -/
  | retracted {e : EvalState} {op : WithdrawOperation} {asset : AssetRecord}
      (hmem : (e, .withdraw op) ∈ transactionTrace ctx p trx) (hid : op.balanceId = id)
      (hasset : e.ledger.assets.lookup r.assetId = some asset)
      (hflag : asset.flagIsActive retractableBalances) (hauth : e.verifyAuthority asset.authority)
  /-- The voting key moves the vote of a plain base balance after the period, and the owner's
  balances together lose the fee. -/
  | votingKey {e : EvalState} {op : UpdateBalanceVoteOperation} {owner key : Address}
      {memo : Option Variant} (hmem : (e, .updateBalanceVote op) ∈ transactionTrace ctx p trx)
      (hid : op.balanceId = id) (hbase : r.assetId = 0)
      (hdata : r.condition.data = .signature owner memo) (hkey : r.restrictedOwner = some key)
      (hsigned : signedBy ctx trx key) (hperiod : r.lastUpdate + VOTE_UPDATE_PERIOD_SEC ≤ ctx.now)
      (hfee : ∀ e', e.evaluateOperation (.updateBalanceVote op) = .ok e' →
        e'.ledger.ownerShares owner = e.ledger.ownerShares owner - PRECISION / 2)

/-- A balance that is lower after the transaction was lowered with authority. -/
def SpendingLaw (ctx : EvalContext) (p : PendingLedger) (trx : SignedTransaction) (L' : Ledger) :
    Prop :=
  ∀ id r r', p.view.balances.lookup id = some r → L'.balances.lookup id = some r' →
    r'.balance < r.balance → SpendAuthority ctx p trx id r

/-- What the operations of a transaction leave of `x` shares of the balance `id`, none of them with
authority over it. -/
def leftBy (steps : List (EvalState × Operation)) (id : BalanceId) (x : ShareType) : ShareType :=
  steps.foldl (fun x step => step.2.leaves step.1 id x) x

section

variable {ctx : EvalContext} {p : PendingLedger} {trx : SignedTransaction} {e : EvalState}
  {id : BalanceId} {r m m' : BalanceRecord}

theorem SpendAuthority.ofWithdraw {op : WithdrawOperation} {asset : AssetRecord}
    (hmem : (e, .withdraw op) ∈ transactionTrace ctx p trx)
    (hsigned : ∀ a, e.checkSignature a = signedBy ctx trx a) (hcond : m.condition = r.condition)
    (hid : op.balanceId = id) (hasset : e.ledger.assets.lookup m.assetId = some asset)
    (hallowed : e.withdrawAllowed asset m.condition = .ok ()) : SpendAuthority ctx p trx id r := by
  rw [BalanceRecord.assetId, hcond] at hasset
  rw [hcond] at hallowed
  unfold EvalState.withdrawAllowed at hallowed
  split at hallowed
  · rename_i hretract
    rw [Bool.and_eq_true] at hretract
    exact .retracted hmem hid hasset hretract.1 hretract.2
  · simp only [bind_eq_ok, require_eq_ok, exists_and_left, exists_const] at hallowed
    obtain ⟨-, hcheck⟩ := hallowed
    unfold EvalState.withdrawSigned at hcheck
    split at hcheck
    all_goals rename_i hdata
    · rw [require_eq_ok, hsigned] at hcheck
      exact .owner (by rw [WithdrawCondition.owner, hdata]) hcheck
    · rw [require_eq_ok, hsigned] at hcheck
      exact .owner (by rw [WithdrawCondition.owner, hdata]) hcheck
    · rw [require_eq_ok, EvalState.signatureCount] at hcheck
      simp only [hsigned] at hcheck
      exact .multisig hdata hcheck
    · split at hcheck <;> cases hcheck
    · cases hcheck
    · cases hcheck

theorem SpendAuthority.ofVote {e₁ : EvalState} (hinj : Function.Injective Crypto.getAddress)
    (hp : p.view.WellFormed) (h₁ : evaluateToFees ctx p trx = .ok e₁)
    {op : UpdateBalanceVoteOperation} {owner : Address} {memo : Option Variant}
    {key : Option Address} (hpast : m.lastUpdate ≤ ctx.now)
    (hmem : (e, .updateBalanceVote op) ∈ transactionTrace ctx p trx) (hfollows : r.Follows ctx.now m)
    (hm : e.ledger.balances.lookup id = some m) (hid : op.balanceId = id) (hbase : m.assetId = 0)
    (hdata : m.condition.data = .signature owner memo) (hauth : VoteAuthority e op m owner key) :
    SpendAuthority ctx p trx id r := by
  obtain ⟨hctx, -, hsigned, -⟩ := transactionTrace_frame h₁ hmem
  have hcond := hfollows.condition
  have howner : r.condition.owner = some owner := by
    rw [← hcond, WithdrawCondition.owner, hdata]
  cases hauth with
  | owner hne hcheck => exact .owner howner (hsigned owner ▸ hcheck)
  | @votingKey key hkey hperiod hcheck =>
    rcases hcheck with hcheck | hcheck
    · -- a balance touched by this transaction is too young, so it is the one from before
      rw [hctx] at hperiod
      have hsame : m = r := by
        rcases hfollows.lastUpdate with hsame | hnow
        · exact hsame
        · rw [hnow, Int.sub_self] at hperiod
          exact absurd hperiod (by decide)
      subst hsame
      have hlate : m.lastUpdate + VOTE_UPDATE_PERIOD_SEC ≤ ctx.now := by
        have hle : (m.lastUpdate : Int) ≤ ctx.now := by exact_mod_cast hpast
        have hint : (m.lastUpdate : Int) + VOTE_UPDATE_PERIOD_SEC ≤ ctx.now := by omega
        exact_mod_cast hint
      subst hid
      exact .votingKey hmem rfl hbase hdata hkey (hsigned key ▸ hcheck) hlate fun e' he' =>
        op.evaluate_ownerShares hinj (transactionTrace_wellFormed hp h₁ hmem) he' hm
          (by rw [WithdrawCondition.basicOwner, hdata])
    · exact .owner howner (hsigned owner ▸ hcheck)

omit [Crypto] in
theorem BalanceRecord.Follows.trans {now : Time} (h : r.Follows now m) (h' : m.Follows now m') :
    r.Follows now m' := by
  refine ⟨h'.condition.trans h.condition, ?_⟩
  rcases h'.lastUpdate with rfl | hnow
  · exact h.lastUpdate
  · exact .inr hnow

theorem evaluateToFees_left {e₁ : EvalState} (hinj : Function.Injective Crypto.getAddress)
    (hp : p.view.WellFormed) (h₁ : evaluateToFees ctx p trx = .ok e₁)
    (hr : p.view.balances.lookup id = some r) (hnone : ¬ SpendAuthority ctx p trx id r) :
    ∃ r', e₁.ledger.balances.lookup id = some r' ∧
      r'.balance = leftBy (transactionTrace ctx p trx) id r.balance := by
  obtain ⟨signers, hops, htrace⟩ := evaluateToFees_eq_ok h₁
  have hall := trace_foldl (P := fun e => e.ledger.WellFormed ∧
      ∃ m, e.ledger.balances.lookup id = some m ∧ r.Follows ctx.now m)
    (g := fun e => ((e.ledger.balances.lookup id).map (·.balance)).getD 0)
    (f := fun x step => step.2.leaves step.1 id x) (fun _ h => h) (fun _ => rfl)
    (fun s op s' hmem ⟨hwf, m, hm, hfollows⟩ hstep => by
      rw [← htrace] at hmem
      obtain ⟨hctx, -, hsigned, -⟩ := transactionTrace_frame h₁ hmem
      obtain ⟨m', hm', hfollows', hchange⟩ :=
        (evaluateOperation_balances hwf hstep).lookup hinj hwf hm
      rw [hctx] at hfollows'
      refine ⟨⟨evaluateOperation_wellFormed hstep hwf, m', hm', hfollows.trans hfollows'⟩, ?_⟩
      rw [hm, hm']
      cases hchange with
      | credited hmove hbalance hkey => exact hbalance
      | withdrawn hid hasset hallowed hkey =>
        exact absurd (.ofWithdraw hmem hsigned hfollows.condition hid hasset hallowed) hnone
      | voted hid hbase hdata hauth hbalance hkey =>
        by_cases hpast : m.lastUpdate ≤ ctx.now
        · exact absurd (.ofVote hinj hp h₁ hpast hmem hfollows hm hid hbase hdata hauth) hnone
        · have hearly : (s.ledger.balances.lookup id).any (s.ctx.now < ·.lastUpdate) = true := by
            rw [hm, hctx, Option.any_some, decide_eq_true_eq]
            exact not_le.1 hpast
          exact hbalance.trans (if_pos ⟨hid, hearly⟩).symm
      | received hsource hid howner hcond hauth hbalance hkey => exact hbalance)
    hops ⟨hp, r, hr, rfl, .inl rfl⟩
  obtain ⟨⟨-, r', hr', -⟩, hleft⟩ := hall
  refine ⟨r', hr', ?_⟩
  have hstart : (EvalState.start ctx p trx signers).ledger.balances.lookup id = some r := hr
  rw [hr', hstart] at hleft
  rw [htrace]
  exact hleft

end

/-- **When spending needs authority.**  For every accepted transaction, a balance is lower after
it only with the authority of its owners, its asset or its voting key, exactly if what is left of
every balance without that is no less than before: the credits do not wrap around, and no voting key
moves a balance that is dated after the present. -/
theorem spendingLaw_iff {ctx : EvalContext} {p : PendingLedger} {trx : SignedTransaction}
    {e' : EvalState} (hinj : Function.Injective Crypto.getAddress) (hp : p.view.WellFormed)
    (h : evaluateLedger ctx p trx = .ok e') :
    SpendingLaw ctx p trx e'.ledger ↔
      ∀ id r, p.view.balances.lookup id = some r → SpendAuthority ctx p trx id r ∨
        r.balance ≤ leftBy (transactionTrace ctx p trx) id r.balance := by
  obtain ⟨e₁, h₁, hbalances, -⟩ := evaluateLedger_afterOperations hp h
  constructor
  · intro hlaw id r hr
    by_cases hauth : SpendAuthority ctx p trx id r
    · exact .inl hauth
    · obtain ⟨r', hr', hsum⟩ := evaluateToFees_left hinj hp h₁ hr hauth
      refine .inr (Int64.not_lt.1 fun hlt => hauth (hlaw id r r' hr ?_ (hsum ▸ hlt)))
      rw [hbalances]
      exact hr'
  · intro hcond id r r' hr hr' hlt
    by_contra hauth
    obtain ⟨m, hm, hsum⟩ := evaluateToFees_left hinj hp h₁ hr hauth
    rw [hbalances, hm] at hr'
    cases hr'
    rw [hsum] at hlt
    exact absurd ((hcond id r hr).resolve_left hauth) (Int64.not_le.2 hlt)

/-! ## Voting keys -/

def BalanceRecord.OwnerSigned (r : BalanceRecord) (ctx : EvalContext) (trx : SignedTransaction) :
    Prop :=
  ∃ a, r.condition.owner = some a ∧ signedBy ctx trx a

def VotingKeyLaw (ctx : EvalContext) (p : PendingLedger) (trx : SignedTransaction) (L' : Ledger) :
    Prop :=
  ∀ id r r', p.view.balances.lookup id = some r → r.assetId = 0 →
    L'.balances.lookup id = some r' → r'.restrictedOwner ≠ r.restrictedOwner → r.OwnerSigned ctx trx

section

variable {ctx : EvalContext} {p : PendingLedger} {trx : SignedTransaction}

theorem BalanceChange.votingKey {e : EvalState} {op : Operation} {id : BalanceId}
    {m m' : BalanceRecord} (hsigned : ∀ a, e.checkSignature a = signedBy ctx trx a)
    (hm : e.ledger.balances.lookup id = some m) (hchange : BalanceChange e id m m' op)
    (hnone : ¬ m.OwnerSigned ctx trx) :
    m'.restrictedOwner = (votingKeyMoved id (e, op)).getD m.restrictedOwner := by
  cases hchange with
  | credited hmove hbalance hkey => rw [hmove, hkey]; rfl
  | withdrawn hid hasset hallowed hkey => exact hkey
  | @voted op owner memo key hid hbase hdata hauth hbalance hkey =>
    have howner : m.condition.owner = some owner := by rw [WithdrawCondition.owner, hdata]
    have hbasic : m.condition.basicOwner = some owner := by
      rw [WithdrawCondition.basicOwner, hdata]
    have hsame : m'.restrictedOwner = m.restrictedOwner := by
      cases hauth with
      | owner hne hcheck => exact absurd ⟨owner, howner, hsigned owner ▸ hcheck⟩ hnone
      | votingKey => exact hkey.elim (fun h => h) fun h => h
    rw [hsame, votingKeyMoved, hid, hm]
    simp only [Option.bind_eq_bind, Option.bind_some, hbasic]
    split <;> rfl
  | @received op r owner key hr hid howner hcond hauth hbalance hkey =>
    have hmowner : m.condition.owner = some owner := by rw [hcond]; rfl
    have hmoved : votingKeyMoved id (e, .updateBalanceVote op) = some r.restrictedOwner := by
      simp only [votingKeyMoved, hr, howner, Option.bind_eq_bind, Option.bind_some]
      exact if_pos hid.symm
    rw [hmoved, hkey]
    cases hauth with
    | owner hne hcheck => exact absurd ⟨owner, hmowner, hsigned owner ▸ hcheck⟩ hnone
    | votingKey => rfl

theorem evaluateOperations_votingKey {e e' : EvalState} {ops : List Operation}
    (hinj : Function.Injective Crypto.getAddress) (h : e.evaluateOperations ops = .ok e')
    (hsigned : ∀ step ∈ e.trace ops, ∀ a, step.1.checkSignature a = signedBy ctx trx a)
    (hwf : e.ledger.WellFormed) {id : BalanceId} {m : BalanceRecord}
    (hm : e.ledger.balances.lookup id = some m) (hnone : ¬ m.OwnerSigned ctx trx) :
    ∃ m', e'.ledger.balances.lookup id = some m' ∧ m'.restrictedOwner =
      ((e.trace ops).filterMap (votingKeyMoved id)).getLast?.getD m.restrictedOwner := by
  induction ops generalizing e m with
  | nil =>
    cases h
    exact ⟨m, hm, rfl⟩
  | cons op ops ih =>
    obtain ⟨n, hn, hrest, htrace⟩ := evaluateOperations_cons h
    rw [htrace] at hsigned ⊢
    obtain ⟨q, hq, hfollows, hchange⟩ := (evaluateOperation_balances hwf hn).lookup hinj hwf hm
    have hkey := hchange.votingKey (hsigned _ List.mem_cons_self) hm hnone
    have hqnone : ¬ q.OwnerSigned ctx trx := by
      rw [BalanceRecord.OwnerSigned, hfollows.condition]
      exact hnone
    have hwf' : n.ledger.WellFormed := evaluateOperation_wellFormed hn hwf
    obtain ⟨m', hm', hlast⟩ :=
      ih hrest (fun s hs => hsigned s (List.mem_cons_of_mem _ hs)) hwf' hq hqnone
    refine ⟨m', hm', ?_⟩
    rw [hlast, hkey, List.filterMap_cons]
    cases votingKeyMoved id (e, op) with
    | none => rfl
    | some key => rw [List.getLast?_cons]; rfl

end

/-- **When voting keys are safe.**  For every accepted transaction, the voting key of a base
balance changes only under its owner's signature, exactly if for every balance whose owner did
not sign the last vote update that moves shares onto it comes from a balance with its voting
key. -/
theorem votingKeyLaw_iff {ctx : EvalContext} {p : PendingLedger} {trx : SignedTransaction}
    {e' : EvalState} (hinj : Function.Injective Crypto.getAddress) (hp : p.view.WellFormed)
    (h : evaluateLedger ctx p trx = .ok e') :
    VotingKeyLaw ctx p trx e'.ledger ↔
      ∀ id r, p.view.balances.lookup id = some r → r.assetId = 0 → r.OwnerSigned ctx trx ∨
        ∀ key ∈ ((transactionTrace ctx p trx).filterMap (votingKeyMoved id)).getLast?,
          key = r.restrictedOwner := by
  obtain ⟨e₁, h₁, hbalances, -⟩ := evaluateLedger_afterOperations hp h
  obtain ⟨signers, hops, htrace⟩ := evaluateToFees_eq_ok h₁
  have hfinal : ∀ id r, p.view.balances.lookup id = some r → ¬ r.OwnerSigned ctx trx →
      ∃ r', e'.ledger.balances.lookup id = some r' ∧ r'.restrictedOwner =
        ((transactionTrace ctx p trx).filterMap (votingKeyMoved id)).getLast?.getD
          r.restrictedOwner := by
    intro id r hr hnone
    rw [hbalances, htrace]
    refine evaluateOperations_votingKey hinj hops (fun ⟨e, op⟩ hmem => ?_) hp hr hnone
    rw [← htrace] at hmem
    exact (transactionTrace_frame h₁ hmem).2.2.1
  constructor
  · intro hlaw id r hr hbase
    by_cases hown : r.OwnerSigned ctx trx
    · exact .inl hown
    · obtain ⟨r', hr', hkey⟩ := hfinal id r hr hown
      refine .inr fun key hlast => ?_
      rw [Option.mem_def.1 hlast, Option.getD_some] at hkey
      by_contra hne
      exact hown (hlaw id r r' hr hbase hr' (hkey ▸ hne))
  · intro hcond id r r' hr hbase hr' hne
    by_contra hown
    obtain ⟨m, hm, hkey⟩ := hfinal id r hr hown
    rw [hm] at hr'
    cases hr'
    refine hne (hkey.trans ?_)
    have hlast := (hcond id r hr hbase).resolve_left hown
    cases hl : ((transactionTrace ctx p trx).filterMap (votingKeyMoved id)).getLast? with
    | none => rfl
    | some key => exact hlast key hl

end

/-! ## Spending on a small database -/

def purseTables : LedgerTables where
  assets := Finmap.singleton 0
    { id := 0, symbol := "BTS", name := "BitShares", description := "", publicData := "",
      registrationDate := 1, lastUpdate := 1, maxSupply := MAX_SHARES, currentSupply := 1000 }
  balances := Finmap.singleton (WithdrawCondition.withSignature 7 0 0).code
    { condition := .withSignature 7 0 0, balance := 1000 }

def purseContext : EvalContext where
  now := 100000
  headBlockNum := 1
  activeFeedPrice _ := none
  skipSignatureCheck := false

def pursePayment : SignedTransaction where
  expiration := 200000
  operations := [.withdraw ⟨(WithdrawCondition.withSignature 7 0 0).code, 10⟩,
    .deposit ⟨10, .withSignature 8 0 0⟩]
  signatures := [7]

theorem spendingLaw_pursePayment :
    letI := Crypto.transparent
    ∃ e', evaluateLedger purseContext (.over purseTables) pursePayment = .ok e' ∧
      (e'.ledger.balances.lookup (WithdrawCondition.withSignature 7 0 0).code).any
        (·.balance = 990) ∧
      SpendingLaw purseContext (.over purseTables) pursePayment e'.ledger := by
  let := Crypto.transparent
  obtain ⟨e', h, hbalance⟩ := exists_ok_of_any
    (x := evaluateLedger purseContext (.over purseTables) pursePayment)
    (p := fun e' => (e'.ledger.balances.lookup (WithdrawCondition.withSignature 7 0 0).code).any
      (·.balance = 990)) (by decide +kernel)
  have howner : (PendingLedger.over purseTables).view.balances.All
      fun _ r => r.condition.owner = some 7 := by decide +kernel
  exact ⟨e', h, hbalance, (spendingLaw_iff WithdrawCondition.code_injective (by decide +kernel)
    h).2 fun id r hr => .inl (.owner (howner id r hr) (by decide +kernel))⟩

def purseOverflow : SignedTransaction where
  expiration := 200000
  operations := [.buyChips ⟨⟨9223372036854775807, 0⟩, 7⟩]
  signatures := []

theorem purseOverflow_lowers :
    letI := Crypto.transparent
    ∃ e', evaluateLedger purseContext (.over purseTables) purseOverflow = .ok e' ∧
      (e'.ledger.balances.lookup (WithdrawCondition.withSignature 7 0 0).code).any
        (·.balance < 0) ∧
      ¬ SpendingLaw purseContext (.over purseTables) purseOverflow e'.ledger := by
  let := Crypto.transparent
  obtain ⟨e', h, hbalance⟩ := exists_ok_of_any
    (x := evaluateLedger purseContext (.over purseTables) purseOverflow)
    (p := fun e' => (e'.ledger.balances.lookup (WithdrawCondition.withSignature 7 0 0).code).any
      (·.balance < 0)) (by decide +kernel)
  refine ⟨e', h, hbalance, fun hlaw => ?_⟩
  obtain ⟨r, hr, hpos, howner⟩ := exists_some_of_any
    (o := (PendingLedger.over purseTables).view.balances.lookup
      (WithdrawCondition.withSignature 7 0 0).code)
    (p := fun r => 0 ≤ r.balance ∧ r.condition = .withSignature 7 0 0) (by decide +kernel)
  obtain ⟨r', hr', hneg⟩ := (Option.any_eq_true _ _).1 hbalance
  have hlow : r'.balance < r.balance := Int64.lt_of_lt_of_le (of_decide_eq_true hneg) hpos
  -- the only operation buys chips, and nobody signed
  have hops : ∀ step ∈ transactionTrace purseContext (.over purseTables) purseOverflow,
      step.2 = .buyChips ⟨⟨9223372036854775807, 0⟩, 7⟩ := by decide +kernel
  cases hlaw _ r r' hr hr' hlow with
  | owner hown hsigned =>
    rw [howner] at hown
    cases hown
    exact absurd hsigned (by decide +kernel)
  | multisig hdata =>
    rw [howner] at hdata
    cases hdata
  | retracted hmem => cases hops _ hmem
  | votingKey hmem => cases hops _ hmem

/-! ## A voting key on a small database -/

def voterTables (key : Option Address) : LedgerTables where
  assets := Finmap.singleton 0
    { id := 0, symbol := "BTS", name := "BitShares", description := "", publicData := "",
      registrationDate := 1, lastUpdate := 1, maxSupply := MAX_SHARES, currentSupply := 2000000 }
  balances :=
    (Finmap.singleton (WithdrawCondition.withSignature 7 0 0).code
      { condition := .withSignature 7 0 0, balance := 1000000, restrictedOwner := key }).insert
      (WithdrawCondition.mk 0 0 (.signature 7 (some "memo"))).code
      { condition := ⟨0, 0, .signature 7 (some "memo")⟩, balance := 1000000,
        restrictedOwner := some 20 }

def voterMove : SignedTransaction where
  expiration := 200000
  operations := [.updateBalanceVote
    ⟨(WithdrawCondition.mk 0 0 (.signature 7 (some "memo"))).code, none, 0⟩]
  signatures := [20]

theorem votingKeyLaw_voterMove :
    letI := Crypto.transparent
    ∃ e', evaluateLedger purseContext (.over (voterTables (some 20))) voterMove = .ok e' ∧
      VotingKeyLaw purseContext (.over (voterTables (some 20))) voterMove e'.ledger := by
  let := Crypto.transparent
  obtain ⟨e', h⟩ := exists_ok_of_isOk
    (x := evaluateLedger purseContext (.over (voterTables (some 20))) voterMove)
    (by decide +kernel)
  have hkeys : (PendingLedger.over (voterTables (some 20))).view.balances.All fun id r =>
      ((transactionTrace purseContext (.over (voterTables (some 20))) voterMove).filterMap
        (votingKeyMoved id)).getLast?.all (· = r.restrictedOwner) := by decide +kernel
  refine ⟨e', h, (votingKeyLaw_iff WithdrawCondition.code_injective (by decide +kernel) h).2
    fun id r hr _ => .inr fun key hkey => ?_⟩
  have hall := hkeys id r hr
  simp only [Option.mem_def.1 hkey, Option.all_some] at hall
  exact of_decide_eq_true hall

/-- Key 20 overwrites the voting key 30 of the other balance; key 7 did not sign. -/
theorem voterMove_overwrites :
    letI := Crypto.transparent
    ∃ e', evaluateLedger purseContext (.over (voterTables (some 30))) voterMove = .ok e' ∧
      (e'.ledger.balances.lookup (WithdrawCondition.withSignature 7 0 0).code).any
        (·.restrictedOwner = some 20) ∧
      ¬ VotingKeyLaw purseContext (.over (voterTables (some 30))) voterMove e'.ledger := by
  let := Crypto.transparent
  obtain ⟨e', h, hkey⟩ := exists_ok_of_any
    (x := evaluateLedger purseContext (.over (voterTables (some 30))) voterMove)
    (p := fun e' => (e'.ledger.balances.lookup (WithdrawCondition.withSignature 7 0 0).code).any
      (·.restrictedOwner = some 20)) (by decide +kernel)
  refine ⟨e', h, hkey, fun hlaw => ?_⟩
  obtain ⟨r, hr, hcond, hold⟩ := exists_some_of_any
    (o := (PendingLedger.over (voterTables (some 30))).view.balances.lookup
      (WithdrawCondition.withSignature 7 0 0).code)
    (p := fun r => r.condition = .withSignature 7 0 0 ∧ r.restrictedOwner = some 30)
    (by decide +kernel)
  obtain ⟨r', hr', hnew⟩ := (Option.any_eq_true _ _).1 hkey
  obtain ⟨a, hown, hsigned⟩ := hlaw _ r r' hr (by rw [BalanceRecord.assetId, hcond]; rfl) hr' (by
    rw [hold, of_decide_eq_true hnew]
    decide)
  rw [hcond] at hown
  cases hown
  exact absurd hsigned (by decide +kernel)

end BitShares
