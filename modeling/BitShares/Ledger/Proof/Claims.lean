import BitShares.Ledger.Proof.Packets
import BitShares.Ledger.Proof.Transaction

/-!
# Claims on a red packet

A share is taken by writing the claimer's account id over the marker `-1`, and a claim resolves
its account through the absolute value of the id it names.  `PacketRun` is a sequence of evaluated
operations as the packets see it; `payout` reads off what an operation pays out of one packet, and
`payout_credited` says that this is what the account's balance gets.
When no claim names the marker and none names an account whose other sign has a share already,
every account gets at most one share, every share is paid at most once, and no more is paid than
the packet held (`claims_at_most_once`).  `packetClaims_repeated` shows what happens otherwise.
-/

namespace BitShares

structure Payout where
  account : AccountId
  share : Nat
  amount : ShareType
  deriving DecidableEq

/-- What an operation evaluated in `e` pays out of the packet `id`. -/
def payout (id : PacketId) : EvalState × Operation → Option Payout
  | (e, .claimPacket op) =>
    if op.randomId = id then do
      let packet ← e.pending.packets.lookup id
      let status ← packet.claimStatuses[packet.nextAvailableClaimIndex]?
      return ⟨|op.toAccountId|, packet.nextAvailableClaimIndex, status.amount.amount⟩
    else none
  | _ => none

/-- A claim that takes a share of the packet `id` names neither the marker nor the negation of an
id under which a share is taken. -/
def cleanClaim (id : PacketId) : EvalState × Operation → Bool
  | (e, .claimPacket op) =>
    op.randomId ≠ id || (e.pending.packets.lookup id).all fun packet =>
      packet.isUnclaimedEmpty || op.toAccountId ≠ -1 &&
        (packet.claimStatuses.take packet.nextAvailableClaimIndex).all
          (·.accountId ≠ -op.toAccountId)
  | _ => true

section

variable [Crypto]

/-- Evaluated operations, each starting with the packets the one before it left.  Everything but
the packets may change in between. -/
inductive PacketRun : Table PacketId PacketRecord → List (EvalState × Operation) →
    Table PacketId PacketRecord → Prop
  | nil (t : Table PacketId PacketRecord) : PacketRun t [] t
  | cons {t t' : Table PacketId PacketRecord} {e e' : EvalState} {op : Operation}
      {steps : List (EvalState × Operation)} (hstart : e.ledger.packets = t)
      (hstep : e.evaluateOperation op = .ok e') (hrest : PacketRun e'.ledger.packets steps t') :
      PacketRun t ((e, op) :: steps) t'

theorem PacketRun.append {t t' t'' : Table PacketId PacketRecord}
    {steps steps' : List (EvalState × Operation)} (h : PacketRun t steps t')
    (h' : PacketRun t' steps' t'') : PacketRun t (steps ++ steps') t'' := by
  induction h with
  | nil t => exact h'
  | cons hstart hstep hrest ih => exact .cons hstart hstep (ih h')

theorem PacketRun.ofOperations {e e' : EvalState} {ops : List Operation}
    (h : e.evaluateOperations ops = .ok e') :
    PacketRun e.ledger.packets (e.trace ops) e'.ledger.packets := by
  induction ops generalizing e with
  | nil => cases h; exact .nil _
  | cons op ops ih =>
    obtain ⟨m, hm, hrest, htrace⟩ := evaluateOperations_cons h
    rw [htrace]
    exact .cons rfl hm (ih hrest)

theorem PacketRun.ofTransaction {ctx : EvalContext} {p : PendingLedger} {trx : SignedTransaction}
    {e' : EvalState} (h : evaluateLedger ctx p trx = .ok e') :
    PacketRun p.view.packets (transactionTrace ctx p trx) e'.ledger.packets := by
  obtain ⟨e₁, e₂, p₃, total, h₁, h₂, h₃, h₄⟩ := evaluateLedger_phases h
  obtain ⟨signers, hops, htrace⟩ := evaluateToFees_eq_ok h₁
  have hfees : e₂.ledger.packets = e₁.ledger.packets := by
    refine foldlM_induction (P := fun e => e.ledger.packets = e₁.ledger.packets)
      (fun fee _ e e' he hfee => ?_) h₂ rfl
    obtain ⟨-, -, -, ⟨-, rfl⟩ | ⟨asset, -, heff⟩⟩ := EvalState.validateFee_effect hfee
    · exact he
    · rw [heff.ledger]
      exact he
  have hafter : e'.ledger.packets = e₂.ledger.packets := by
    rw [afterFees_rest h₃ h₄]
  rw [htrace, hafter, hfees]
  exact .ofOperations hops

/-! ## One operation -/

/-- The packet after a claim of `toAccountId` took its next share. -/
def PacketRecord.claimedBy (r : PacketRecord) (status : RedPacketStatus) (toAccountId : AccountId)
    (trx : TransactionId) : PacketRecord :=
  { r with
    claimStatuses := r.claimStatuses.set r.nextAvailableClaimIndex
      { status with accountId := toAccountId, transactionId := trx } }

/-- What an operation does to the packets: nothing, a new packet, or one share taken. -/
inductive PacketStep (e : EvalState) : Operation → Table PacketId PacketRecord → Prop
  | frame (op : Operation) (hop : ∀ id, payout id (e, op) = none) : PacketStep e op e.ledger.packets
  | create (op : RedPacketOperation) (hnew : e.ledger.packets.lookup op.randomId = none) :
    PacketStep e (.redPacket op) (e.ledger.packets.insert op.randomId op.packet)
  | claim (op : ClaimPacketOperation) {packet : PacketRecord} {status : RedPacketStatus}
      (hpacket : e.ledger.packets.lookup op.randomId = some packet)
      (hstatus : packet.claimStatuses[packet.nextAvailableClaimIndex]? = some status)
      (hother : ∀ s ∈ packet.claimStatuses.take packet.nextAvailableClaimIndex,
        s.accountId ≠ op.toAccountId) :
    PacketStep e (.claimPacket op) (e.ledger.packets.insert packet.id
      (packet.claimedBy status op.toAccountId (Crypto.transactionId e.trx)))

theorem evaluateOperation_packets {e e' : EvalState} {op : Operation}
    (h : e.evaluateOperation op = .ok e') : PacketStep e op e'.ledger.packets := by
  cases op with
  | redPacket op =>
    obtain ⟨-, -, -, -, -, hnew, -, -, heff⟩ := op.evaluate_effect h
    rw [heff.ledger]
    exact .create op hnew
  | claimPacket op =>
    obtain ⟨account, packet, -, hpacket, ⟨hnone, rfl⟩ | ⟨status, hstatus, hother, heff⟩⟩ :=
      op.evaluate_effect h
    · refine .frame _ fun id => ?_
      rw [payout]
      split
      · rename_i hid
        subst hid
        rw [PendingLedger.packets_lookup, show e'.pending.view.packets.lookup _ = _ from hpacket]
        simp [hnone]
      · rfl
    · rw [heff.ledger]
      exact .claim op hpacket hstatus hother
  | _ => exact (evaluateOperation_leaves h).packets rfl ▸ .frame _ fun _ => rfl

/-- **A payout is credited**: the share that an operation pays is added to the plain balance of the
account's active key, and no other balance changes. -/
theorem payout_credited {e e' : EvalState} {op : Operation} {id : PacketId} {p : Payout}
    (h : e.evaluateOperation op = .ok e') (hp : payout id (e, op) = some p) :
    ∃ account packet status, e.ledger.accounts.lookup p.account = some account ∧
      e.ledger.packets.lookup id = some packet ∧ packet.claimStatuses[p.share]? = some status ∧
      status.amount.amount = p.amount ∧
      e'.ledger.balances = (e.ledger.storeBalance
        (e.ledger.credited e.ctx.now account.activeAddress status.amount)).balances := by
  cases op with
  | claimPacket op =>
    rw [payout] at hp
    obtain ⟨rfl, hp⟩ := Option.ite_none_right_eq_some.1 hp
    obtain ⟨packet, hlook, hp⟩ := Option.bind_eq_some_iff.1 hp
    obtain ⟨status, hshare, hp⟩ := Option.bind_eq_some_iff.1 hp
    obtain rfl := Option.some.inj hp
    rw [PendingLedger.packets_lookup] at hlook
    obtain ⟨account, q, haccount, hq, hcases⟩ := op.evaluate_effect h
    obtain rfl : q = packet := Option.some.inj (hq.symm.trans hlook)
    rw [hshare] at hcases
    rcases hcases with ⟨hnone, -⟩ | ⟨_, hstatus, -, heff⟩
    · cases hnone
    · obtain rfl := Option.some.inj hstatus
      exact ⟨account, q, status, haccount, hq, hshare, rfl, by rw [heff.ledger]; rfl⟩
  | _ => cases hp

/-! ## A whole run -/

/-- The packet `r` of which `ps` was paid out: the shares `claimed` are gone, each to an account of
its own, and the shares `rest` are left. -/
structure PacketRecord.Paid (r : PacketRecord) (claimed rest : List RedPacketStatus)
    (ps : List Payout) : Prop where
  statuses : r.claimStatuses = claimed ++ rest
  taken : ∀ s ∈ claimed, s.accountId ≠ -1
  left : ∀ s ∈ rest, s.accountId = -1
  accounts : ps.map (·.account) = claimed.map fun s => |s.accountId|
  distinct : (ps.map (·.account)).Nodup
  shares : ps.map (·.share) = List.range claimed.length
  amounts : ps.map (·.amount) = claimed.map (·.amount.amount)

namespace PacketRecord.Paid

variable {r : PacketRecord} {claimed rest : List RedPacketStatus} {ps : List Payout}

omit [Crypto] in
theorem nextAvailableClaimIndex (h : r.Paid claimed rest ps) :
    r.nextAvailableClaimIndex = claimed.length := by
  have htaken : claimed.findIdx (·.accountId = -1) = claimed.length :=
    List.findIdx_eq_length.2 fun s hs => by simpa using h.taken s hs
  rw [PacketRecord.nextAvailableClaimIndex, h.statuses, List.findIdx_append, htaken, if_neg (lt_irrefl _)]
  cases rest with
  | nil => simp
  | cons s rest => simp [List.findIdx_cons, h.left s List.mem_cons_self]

omit [Crypto] in
theorem claim {s : RedPacketStatus} (h : r.Paid claimed (s :: rest) ps) {id : AccountId}
    (trx : TransactionId) (hmarker : id ≠ -1) (hsame : ∀ c ∈ claimed, c.accountId ≠ id)
    (hother : ∀ c ∈ claimed, c.accountId ≠ -id) :
    (r.claimedBy s id trx).Paid (claimed ++ [{ s with accountId := id, transactionId := trx }]) rest
      (ps ++ [⟨|id|, claimed.length, s.amount.amount⟩]) where
  statuses := by
    rw [claimedBy, h.nextAvailableClaimIndex, h.statuses]
    simp
  taken c hc := by
    rcases List.mem_append.1 hc with hc | hc
    · exact h.taken c hc
    · rw [List.mem_singleton.1 hc]
      exact hmarker
  left c hc := h.left c (List.mem_cons_of_mem _ hc)
  accounts := by simp [h.accounts]
  distinct := by
    rw [List.map_append, List.nodup_append]
    refine ⟨h.distinct, by simp, fun a ha b hb => ?_⟩
    rw [h.accounts] at ha
    obtain ⟨c, hc, rfl⟩ := List.mem_map.1 ha
    rw [List.map_singleton, List.mem_singleton] at hb
    subst hb
    intro habs
    rcases abs_eq_abs.1 habs with heq | heq
    · exact hsame c hc heq
    · exact hother c hc heq
  shares := by simp [h.shares, List.range_succ]
  amounts := by simp [h.amounts]

end PacketRecord.Paid

/-- What holds of the packet `id` after `ps` was paid out of it: its shares are of the amounts
fixed at its creation. -/
structure PaidOut (id : PacketId) (amounts : List ShareType) (t : Table PacketId PacketRecord)
    (ps : List Payout) : Prop where
  ids : t.All fun id r => r.id = id
  packet : ∃ r claimed rest, t.lookup id = some r ∧
    r.claimStatuses.map (·.amount.amount) = amounts ∧ r.Paid claimed rest ps

omit [Crypto] in
theorem PaidOut.insert_other {id : PacketId} {amounts : List ShareType}
    {t : Table PacketId PacketRecord} {ps : List Payout} (h : PaidOut id amounts t ps)
    {r : PacketRecord} (hr : r.id ≠ id) : PaidOut id amounts (t.insert r.id r) ps := by
  obtain ⟨q, claimed, rest, hq, hamounts, hpaid⟩ := h.packet
  exact ⟨h.ids.insert rfl, q, claimed, rest,
    by rw [Finmap.lookup_insert_of_ne _ (Ne.symm hr), hq], hamounts, hpaid⟩

theorem PacketStep.paidOut {id : PacketId} {amounts : List ShareType} {e : EvalState}
    {op : Operation} {t : Table PacketId PacketRecord} {ps : List Payout} (hstep : PacketStep e op t)
    (h : PaidOut id amounts e.ledger.packets ps) (hclean : cleanClaim id (e, op)) :
    PaidOut id amounts t (ps ++ (payout id (e, op)).toList) := by
  obtain ⟨q, claimed, rest, hq, hamounts, hpaid⟩ := h.packet
  cases hstep with
  | frame op hop =>
    rw [hop id, Option.toList_none, List.append_nil]
    exact h
  | create op hnew =>
    have hne : op.packet.id ≠ id := by
      intro hid
      rw [← hid, show op.packet.id = op.randomId from rfl, hnew] at hq
      cases hq
    have hnone : (payout id (e, .redPacket op)).toList = [] := rfl
    rw [hnone, List.append_nil]
    exact h.insert_other hne
  | @claim op packet status hpacket hstatus hsame =>
    have hid : packet.id = op.randomId := h.ids _ _ hpacket
    by_cases hne : op.randomId = id
    · rw [hne] at hpacket
      obtain rfl : q = packet := by simpa [hq] using hpacket
      have hindex := hpaid.nextAvailableClaimIndex
      have hlook : e.pending.packets.lookup id = some q := by
        rw [PendingLedger.packets_lookup]
        exact hq
      rw [hindex] at hstatus hsame
      rw [hpaid.statuses, List.take_left] at hsame
      cases rest with
      | nil => simp [hpaid.statuses] at hstatus
      | cons s rest =>
        obtain rfl : s = status := by simpa [hpaid.statuses] using hstatus
        have hpay : payout id (e, .claimPacket op) =
            some ⟨|op.toAccountId|, claimed.length, s.amount.amount⟩ := by
          simp [payout, hne, hlook, hindex, hpaid.statuses]
        have hleft : q.isUnclaimedEmpty = false := by
          simp [PacketRecord.isUnclaimedEmpty, hindex, hpaid.statuses]
        have hcond : op.toAccountId ≠ -1 ∧ ∀ c ∈ claimed, c.accountId ≠ -op.toAccountId := by
          simpa [cleanClaim, hne, hlook, hleft, hindex, hpaid.statuses] using hclean
        rw [hpay, Option.toList_some]
        refine ⟨h.ids.insert rfl, _, _, _, ?_, ?_,
          hpaid.claim (Crypto.transactionId e.trx) hcond.1 hsame hcond.2⟩
        · rw [hid, hne]
          exact Finmap.lookup_insert _
        · rw [← hamounts, PacketRecord.claimedBy, hindex, hpaid.statuses]
          simp
    · have hnone : payout id (e, .claimPacket op) = none := by simp [payout, hne]
      rw [hnone, Option.toList_none, List.append_nil]
      exact h.insert_other (r := packet.claimedBy status op.toAccountId _)
        (by rw [← hid] at hne; exact hne)

theorem PacketRun.paidOut {id : PacketId} {amounts : List ShareType}
    {t t' : Table PacketId PacketRecord} {steps : List (EvalState × Operation)} {ps : List Payout}
    (hrun : PacketRun t steps t') (h : PaidOut id amounts t ps)
    (hclean : ∀ step ∈ steps, cleanClaim id step) :
    PaidOut id amounts t' (ps ++ steps.filterMap (payout id)) := by
  induction hrun generalizing ps with
  | nil t => simpa using h
  | @cons t t' e e' op steps hstart hstep hrest ih =>
    subst hstart
    have hnext := (evaluateOperation_packets hstep).paidOut h (hclean _ List.mem_cons_self)
    have hall := ih hnext fun s hs => hclean s (List.mem_cons_of_mem _ hs)
    rw [List.append_assoc] at hall
    have hcons : (payout id (e, op)).toList ++ steps.filterMap (payout id) =
        ((e, op) :: steps).filterMap (payout id) := by
      rw [List.filterMap_cons]
      cases payout id (e, op) <;> rfl
    rwa [hcons] at hall

theorem paidOut_created {op : RedPacketOperation} {e e' : EvalState}
    (h : op.evaluate e = .ok e') (hids : e.ledger.packets.All fun id r => r.id = id) :
    PaidOut op.randomId (op.packet.claimStatuses.map (·.amount.amount)) e'.ledger.packets [] := by
  obtain ⟨-, -, -, -, -, -, -, -, heff⟩ := op.evaluate_effect h
  rw [heff.ledger]
  refine ⟨hids.insert rfl, op.packet, [], op.packet.claimStatuses, Finmap.lookup_insert _, rfl, ?_⟩
  refine ⟨rfl, by simp, fun s hs => ?_, rfl, List.nodup_nil, rfl, rfl⟩
  obtain ⟨a, -, rfl⟩ := List.mem_map.1 hs
  rfl

/-- **Claims on a packet.**  After a packet is created, in every run whose claims on it are clean
each account receives at most one share, each share is paid out at most once, and no more is paid
out than the sum of the shares. -/
theorem claims_at_most_once {op : RedPacketOperation} {e e' : EvalState}
    {steps : List (EvalState × Operation)} {t : Table PacketId PacketRecord}
    (hids : e.ledger.packets.All fun id r => r.id = id) (hcreate : op.evaluate e = .ok e')
    (hrun : PacketRun e'.ledger.packets steps t)
    (hclean : ∀ step ∈ steps, cleanClaim op.randomId step) :
    ((steps.filterMap (payout op.randomId)).map (·.account)).Nodup ∧
      ((steps.filterMap (payout op.randomId)).map (·.share)).Nodup ∧
      ((steps.filterMap (payout op.randomId)).map (·.amount.toInt)).sum ≤
        (op.packet.claimStatuses.map (·.amount.amount.toInt)).sum := by
  have hall := hrun.paidOut (paidOut_created hcreate hids) hclean
  rw [List.nil_append] at hall
  obtain ⟨r, claimed, rest, -, hamounts, hpaid⟩ := hall.packet
  refine ⟨hpaid.distinct, hpaid.shares ▸ List.nodup_range, ?_⟩
  obtain ⟨-, hcount, -⟩ := RedPacketOperation.evaluate_effect hcreate
  have hnonneg : ∀ a ∈ claimed.map (·.amount.amount) ++ rest.map (·.amount.amount),
      0 ≤ a.toInt := by
    intro a ha
    rw [← List.map_append, ← hpaid.statuses, hamounts] at ha
    obtain ⟨s, hs, rfl⟩ := List.mem_map.1 ha
    exact RedPacketOperation.shares_nonneg hcount hs
  have hsum : (op.packet.claimStatuses.map (·.amount.amount.toInt)).sum =
      ((claimed.map (·.amount.amount)).map (·.toInt)).sum +
        ((rest.map (·.amount.amount)).map (·.toInt)).sum := by
    have htoInt : op.packet.claimStatuses.map (·.amount.amount.toInt) =
        (op.packet.claimStatuses.map (·.amount.amount)).map (·.toInt) := by simp
    rw [htoInt, ← hamounts, hpaid.statuses]
    simp
  have hpaidSum : ((steps.filterMap (payout op.randomId)).map (·.amount.toInt)).sum =
      ((claimed.map (·.amount.amount)).map (·.toInt)).sum := by
    rw [← hpaid.amounts, List.map_map]
    rfl
  rw [hpaidSum, hsum]
  refine le_add_of_nonneg_right (List.sum_nonneg fun x hx => ?_)
  obtain ⟨a, ha, rfl⟩ := List.mem_map.1 hx
  exact hnonneg a (List.mem_append_right _ ha)

/-! ## Accepted transactions -/

def transactionRun (ctx : EvalContext) :
    PendingLedger → List SignedTransaction →
      Except Error (List (EvalState × Operation) × PendingLedger)
  | p, [] => .ok ([], p)
  | p, trx :: rest => do
    let e ← evaluateLedger ctx p trx
    let (steps, p') ← transactionRun ctx e.pending rest
    return (transactionTrace ctx p trx ++ steps, p')

theorem PacketRun.ofTransactions {ctx : EvalContext} {p p' : PendingLedger}
    {trxs : List SignedTransaction} {steps : List (EvalState × Operation)}
    (h : transactionRun ctx p trxs = .ok (steps, p')) :
    PacketRun p.view.packets steps p'.view.packets := by
  induction trxs generalizing p steps with
  | nil =>
    simp only [transactionRun, Except.ok.injEq, Prod.mk.injEq] at h
    obtain ⟨rfl, rfl⟩ := h
    exact .nil _
  | cons trx rest ih =>
    simp only [transactionRun, bind_eq_ok, pure_eq_ok, Prod.exists, Prod.mk.injEq] at h
    obtain ⟨e, he, steps', q, hrest, rfl, rfl⟩ := h
    exact (PacketRun.ofTransaction he).append (ih hrest)

end

/-! ## Claims that go wrong -/

def giftTables : LedgerTables where
  accounts :=
    (Finmap.singleton 1
      { id := 1, name := "alice", publicData := "", ownerKey := 5,
        activeKeyHistory := OrdMap.set ∅ 1 5, registrationDate := 1, lastUpdate := 1 }).insert 2
      { id := 2, name := "bob", publicData := "", ownerKey := 6,
        activeKeyHistory := OrdMap.set ∅ 1 6, registrationDate := 1, lastUpdate := 1 }
  assets := Finmap.singleton 0
    { id := 0, symbol := "BTS", name := "BitShares", description := "", publicData := "",
      registrationDate := 1, lastUpdate := 1, maxSupply := MAX_SHARES, currentSupply := 1000000 }
  balances := Finmap.singleton (WithdrawCondition.withSignature 7 0 0).code
    { condition := .withSignature 7 0 0, balance := 1000000 }

def giftContext : EvalContext where
  now := 100
  headBlockNum := 1
  activeFeedPrice _ := none
  skipSignatureCheck := false

def giftOperation : RedPacketOperation where
  randomId := 3
  amount := ⟨300000, 0⟩
  fromAccountId := 1
  message := "gift"
  claimPublicKey := 9
  count := 2

def giftPacket : SignedTransaction where
  expiration := 200
  operations :=
    [.withdraw ⟨(WithdrawCondition.withSignature 7 0 0).code, 400000⟩, .redPacket giftOperation]
  signatures := [7, 5]

/-- A claim for the account `toAccountId`, signed by both accounts and the packet's key. -/
def giftClaim (expiration : Time) (toAccountId : AccountId) : SignedTransaction where
  expiration := expiration
  operations := [.claimPacket ⟨3, toAccountId⟩]
  signatures := [5, 6, 9]

theorem claims_at_most_once_gift :
    letI := Crypto.transparent
    ∃ e e' steps t, e.ledger.packets.All (fun id r => r.id = id) ∧
      giftOperation.evaluate e = .ok e' ∧ PacketRun e'.ledger.packets steps t ∧
      (steps.filterMap (payout 3)).map (·.account) = [2, 1] ∧
      ((steps.filterMap (payout 3)).map (·.share)).Nodup ∧
      ((steps.filterMap (payout 3)).map (·.amount.toInt)).sum ≤
        (giftOperation.packet.claimStatuses.map (·.amount.amount.toInt)).sum := by
  let := Crypto.transparent
  let e := EvalState.start giftContext (.over giftTables) giftPacket [7, 5]
  obtain ⟨⟨e', steps, p⟩, h, haccounts, hclean⟩ := exists_ok_of_any
    (x := do
      let e' ← giftOperation.evaluate e
      let (steps, p) ← transactionRun giftContext e'.pending [giftClaim 201 2, giftClaim 202 1]
      return (e', steps, p))
    (p := fun r => (r.2.1.filterMap (payout 3)).map (·.account) = [2, 1] ∧
      ∀ step ∈ r.2.1, cleanClaim 3 step) (by decide +kernel)
  simp only [bind_eq_ok, pure_eq_ok, Prod.exists, Prod.mk.injEq] at h
  obtain ⟨_, hcreate, _, _, hrun, rfl, rfl, rfl⟩ := h
  have hids : e.ledger.packets.All fun id r => r.id = id := by decide +kernel
  have hlaw := claims_at_most_once hids hcreate (.ofTransactions hrun) hclean
  exact ⟨e, _, _, _, hids, hcreate, .ofTransactions hrun, haccounts, hlaw.2⟩

/-- Bob claims under both signs of his id and gets both shares.  A claim for `-1` pays account 1
and leaves the share marked as unclaimed, so two of them pay more than the packet holds. -/
theorem packetClaims_repeated :
    letI := Crypto.transparent
    (∃ steps p, transactionRun giftContext (.over giftTables)
        [giftPacket, giftClaim 201 2, giftClaim 202 (-2)] = .ok (steps, p) ∧
      (steps.filterMap (payout 3)).map (·.account) = [2, 2]) ∧
    (∃ steps p, transactionRun giftContext (.over giftTables)
        [giftPacket, giftClaim 201 (-1), giftClaim 202 (-1)] = .ok (steps, p) ∧
      (steps.filterMap (payout 3)).map (·.share) = [0, 0] ∧
      (giftOperation.packet.claimStatuses.map (·.amount.amount.toInt)).sum <
        ((steps.filterMap (payout 3)).map (·.amount.toInt)).sum) := by
  let := Crypto.transparent
  constructor
  · obtain ⟨⟨steps, p⟩, h, haccounts⟩ := exists_ok_of_any
      (x := transactionRun giftContext (.over giftTables)
        [giftPacket, giftClaim 201 2, giftClaim 202 (-2)])
      (p := fun r => (r.1.filterMap (payout 3)).map (·.account) = [2, 2]) (by decide +kernel)
    exact ⟨steps, p, h, haccounts⟩
  · obtain ⟨⟨steps, p⟩, h, hshares⟩ := exists_ok_of_any
      (x := transactionRun giftContext (.over giftTables)
        [giftPacket, giftClaim 201 (-1), giftClaim 202 (-1)])
      (p := fun r => (r.1.filterMap (payout 3)).map (·.share) = [0, 0] ∧
        (giftOperation.packet.claimStatuses.map (·.amount.amount.toInt)).sum <
          ((r.1.filterMap (payout 3)).map (·.amount.toInt)).sum) (by decide +kernel)
    exact ⟨steps, p, h, hshares⟩

end BitShares
