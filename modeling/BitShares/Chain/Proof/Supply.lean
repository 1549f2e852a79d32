import BitShares.Chain.Proof.Apply
import BitShares.Chain.Run
import BitShares.Ledger.Proof.Conservation

/-!
# Conservation of shares over blocks

`ChainTables.totalShares` is everything the database holds of an asset, the order books included.
The writes of a block outside its transactions move shares and make none: a paycheck is new
supply, taken fees and destroyed supply in balance (`Ledger.Paid.excess`), and the rewards of a
day come out of the note fees (`Ledger.Rewarded.excess`).  With the law for transactions this
gives the law for every run of `extend_chain` in which no transaction claims a packet share in
the name of account `-1`; such a claim is paid and leaves its share to be claimed again.
-/

namespace BitShares

/-! ## Order books -/

/-- What the open orders hold of an asset: bids their quote asset, asks their base asset. -/
def ChainTables.orderShares (d : ChainTables) (a : AssetId) : ℤ :=
  (d.bids.total fun k r => if k.orderPrice.quoteAssetId = a then r.balance.toInt else 0) +
    d.asks.total fun k r => if k.orderPrice.baseAssetId = a then r.balance.toInt else 0

/-- All shares of `a` in the database. -/
def ChainTables.totalShares (d : ChainTables) (a : AssetId) : ℤ :=
  d.ledger.holdings a + d.orderShares a

/-- The shares of every asset add up to its supply, in the arithmetic of `share_type`. -/
def ChainTables.Conserved (d : ChainTables) : Prop :=
  ∀ a, Int64.ofInt (d.totalShares a) = d.ledger.currentSupply a

section

variable [Crypto]

/-! ## The writes outside transactions -/

theorem Ledger.Bookkeeping.excess {L L' : Ledger} (h : L.Bookkeeping L') (hL : L.WellFormed)
    (a : AssetId) : L'.excess a = L.excess a := by
  cases h with
  | account hr hsame _ => exact excess_updateAccount hL hr hsame.id hsame.payBalance a
  | property v _ _ => rfl

theorem Ledger.Paid.excess {L L' : Ledger} (h : L.Paid L') (hL : L.WellFormed) (a : AssetId) :
    L'.excess a = L.excess a := by
  obtain @⟨base, id, r, d, fees, accepted, hbase, hr, hd, -, -, -, -⟩ := h
  have hid : base.id = 0 := hL.assets _ _ hbase
  have hpay : ((L.accounts.lookup r.id).map (·.payBalance)).getD 0 = d.payBalance := by
    rw [hL.accounts _ _ hr, hr]
    simp [AccountRecord.payBalance, hd]
  rw [excess_storeAsset (f := -fees) (s := accepted - (fees - accepted)) (c := 0) (by exact hbase) hid
    (by rfl) (by grind) (by grind) (by simp), excess_storeAccount { r with
      delegateInfo := some (d.paid (accepted + accepted)) } _ hpay]
  by_cases ha : a = 0
  · simp only [ha, if_true, AccountRecord.payBalance, DelegateStats.paid, Option.map_some,
      Option.getD_some]
    grind
  · simp [ha, Ne.symm ha]

theorem Ledger.excess_creditAll {L : Ledger} (hL : L.WellFormed)
    (haddr : Function.Injective Crypto.getAddress) (now : Time) (l : List (Address × ShareType))
    (a : AssetId) :
    (L.creditAll now l).excess a = L.excess a + if a = 0 then (l.map (·.2)).sum else 0 := by
  induction l generalizing L with
  | nil => simp [creditAll]
  | cons e l ih =>
    have hstep : (L.storeBalance (L.credited now e.1 ⟨e.2, 0⟩)).excess a =
        L.excess a + if 0 = a then e.2 else 0 :=
      excess_pay hL haddr e.1 0 (by rfl) (by rfl) a
    have hrest := ih (hL.storeBalance (L.credited now e.1 ⟨e.2, 0⟩))
    rw [creditAll, List.foldl_cons]
    rw [creditAll] at hrest
    rw [hrest, hstep, List.map_cons, List.sum_cons]
    by_cases ha : a = 0
    · simp only [ha, if_true]
      grind
    · simp [ha, Ne.symm ha]

theorem Ledger.operationRewards_creditAll (L : Ledger) (now : Time)
    (l : List (Address × ShareType)) :
    (L.creditAll now l).operationRewards = L.operationRewards := by
  induction l generalizing L with
  | nil => rfl
  | cons e l ih => exact ih (L.storeBalance (L.credited now e.1 ⟨e.2, 0⟩))

theorem Ledger.Rewarded.excess {L L' : Ledger} (h : L.Rewarded L') (hL : L.WellFormed)
    (haddr : Function.Injective Crypto.getAddress) (a : AssetId) : L'.excess a = L.excess a := by
  obtain @⟨r, now, l, hr, -⟩ := h
  have hid : r.id = noteOpType := hL.operationRewards _ _ hr
  have hlookup : (L.creditAll now l).operationRewards.lookup r.id = some r := by
    rw [operationRewards_creditAll, hid, hr]
  rw [excess_storeReward (r := r) (by exact hlookup), excess_creditAll hL haddr]
  simp only [OperationRewardRecord.feeOf, OrdMap.getD_set]
  split
  · grind
  · simp

/-! ## Blocks and runs -/

def Operation.namesMarker : Operation → Bool
  | .claimPacket op => op.toAccountId = -1
  | _ => false

omit [Crypto] in
theorem Operation.claimsForMarker_of_namesMarker {op : Operation} (h : op.namesMarker = false)
    (e : EvalState) : op.claimsForMarker e = false := by
  cases op with
  | claimPacket op =>
    have hto : (decide (op.toAccountId = -1)) = false := h
    simp [claimsForMarker, hto]
  | _ => rfl

/-- No transaction of the block claims a packet share for account `-1`. -/
def FullBlock.claimsProperly (b : FullBlock) : Bool :=
  b.userTransactions.all fun trx => trx.operations.all fun op => !op.namesMarker

theorem trace_of_mem_transactionTrace {ctx : EvalContext} {p : PendingLedger}
    {trx : SignedTransaction} {step : EvalState × Operation}
    (h : step ∈ transactionTrace ctx p trx) : step.2 ∈ trx.operations := by
  unfold transactionTrace at h
  split at h
  · exact mem_of_mem_trace h
  · cases h

theorem extendChain_excess {s s' : ChainState} {cfg : NodeConfig} {b : FullBlock}
    (h : s.extendChain cfg b = .ok s') (hs : s.tables.ledger.WellFormed)
    (haddr : Function.Injective Crypto.getAddress) (hb : b.claimsProperly) (a : AssetId) :
    s'.tables.ledger.excess a = s.tables.ledger.excess a := by
  have hmarker : ∀ trx ∈ b.userTransactions, ∀ op ∈ trx.operations, op.namesMarker = false := by
    simpa [FullBlock.claimsProperly] using hb
  refine (extendChain_induction
    (I := fun L => L.WellFormed ∧ L.excess a = s.tables.ledger.excess a) h (fun L hL => hL.1.assets)
    (fun L L' hmove hL => ⟨hmove.wellFormed hL.1, (hmove.excess hL.1 a).trans hL.2⟩)
    (fun L L' hpaid hL => ⟨hpaid.wellFormed hL.1, (hpaid.excess hL.1 a).trans hL.2⟩)
    (fun trx hmem q e he hq => ⟨evaluateLedger_wellFormed he hq.1, ?_⟩)
    (fun L L' hrew hL => ⟨hrew.wellFormed hL.1, (hrew.excess hL.1 haddr a).trans hL.2⟩)
    ⟨hs, rfl⟩).2
  refine (evaluateLedger_excess he hq.1 haddr (fun step hstep => ?_) a).trans hq.2
  exact Operation.claimsForMarker_of_namesMarker
    (hmarker trx hmem step.2 (trace_of_mem_transactionTrace hstep)) step.1

theorem extendChain_orderShares {s s' : ChainState} {cfg : NodeConfig} {b : FullBlock}
    (h : s.extendChain cfg b = .ok s') (a : AssetId) :
    s'.tables.orderShares a = s.tables.orderShares a := by
  obtain ⟨p, hp, hcommit⟩ := extendChain_eq_ok h
  obtain ⟨m, -, hs'⟩ := commitBlock_eq_ok hcommit
  obtain ⟨hbids, hasks⟩ :=
    (evaluateBlock_over hp).applyChanges_orders s.head.blockNum
  rw [hs', ChainTables.orderShares, ChainTables.orderShares, hbids, hasks]

omit [Crypto] in
theorem ChainTables.conserved_iff (d : ChainTables) :
    d.Conserved ↔ ∀ a, d.ledger.excess a + Int64.ofInt (d.orderShares a) = 0 := by
  unfold Conserved
  refine forall_congr' fun a => ?_
  rw [totalShares, Int64.ofInt_add, Ledger.excess]
  grind

omit [Crypto] in
theorem ChainTables.Conserved.toInt {d : ChainTables} (h : d.Conserved) {a : AssetId}
    (hl : -2 ^ 63 ≤ d.totalShares a) (hu : d.totalShares a < 2 ^ 63) :
    d.totalShares a = (d.ledger.currentSupply a).toInt := by
  rw [← h a, Int64.toInt_ofInt_of_le (by simpa using hl) (by simpa using hu)]

/-- **Conservation over a run.**  If the shares of every asset add up to its supply, they do so
after any run of accepted blocks without a packet claim for account `-1`: in the arithmetic of
`share_type`, and as numbers wherever their number fits. -/
theorem conserved_of_extends {s s' : ChainState} {l : List (NodeConfig × FullBlock)}
    (hrun : Extends s l s') (hs : s.tables.ledger.WellFormed)
    (haddr : Function.Injective Crypto.getAddress)
    (hclaims : ∀ step ∈ l, step.2.claimsProperly) (h : s.tables.Conserved) :
    s'.tables.Conserved ∧ ∀ a, -2 ^ 63 ≤ s'.tables.totalShares a →
      s'.tables.totalShares a < 2 ^ 63 →
      s'.tables.totalShares a = (s'.tables.ledger.currentSupply a).toInt := by
  have hcons := (hrun.induction (P := fun d => d.ledger.WellFormed ∧ d.Conserved)
    (fun cfg b hmem s s' hstep hP => ?_) ⟨hs, h⟩).2
  · exact ⟨hcons, fun a => hcons.toInt⟩
  · refine ⟨extendChain_wellFormed hstep hP.1, (ChainTables.conserved_iff _).2 fun a => ?_⟩
    rw [extendChain_excess hstep hP.1 haddr (hclaims _ hmem) a, extendChain_orderShares hstep a]
    exact (ChainTables.conserved_iff _).1 hP.2 a

end

/-! ## A share claimed twice -/

def packetTables : ChainTables :=
  { soloTables 100 with
    packets := Finmap.singleton 3
      { id := 3, amount := ⟨100, 0⟩, fromAccountId := 1, claimPublicKey := 6, message := ""
        claimStatuses := [⟨⟨100, 0⟩, -1, 0⟩], claimCondition := none } }

def packetClaim (account : AccountId) : SignedTransaction where
  expiration := 200
  operations := [.claimPacket ⟨3, account⟩]
  signatures := [5, 6]

theorem conserved_packetTables : packetTables.Conserved := by
  intro a
  by_cases ha : a = 0
  · subst ha
    decide +kernel
  · have hnone : packetTables.assets.lookup a = none := Table.lookup_singleton_of_ne _ ha
    simp [ChainTables.totalShares, LedgerTables.ledger, Ledger.holdings, ChainTables.orderShares,
      Ledger.currentSupply, hnone]
    simp [packetTables, soloTables, baseAsset, AssetRecord.sharesOf, AccountRecord.sharesOf,
      PacketRecord.sharesOf, ha, Ne.symm ha]

/-- The block with the claim of `account` on top of the packet database. -/
def packetBlock (account : AccountId) : FullBlock := soloBlock 1 nullId 10 [packetClaim account]

theorem conserved_packetClaim :
    letI := Crypto.transparent
    ∃ s', Extends { tables := packetTables } [({ clock := 100 }, packetBlock 1)] s' ∧
      s'.tables.Conserved := by
  let := Crypto.transparent
  obtain ⟨s', h⟩ := exists_ok_of_isOk (x := ChainState.extendChain { tables := packetTables }
    { clock := 100 } (packetBlock 1)) (by decide +kernel)
  have hrun : Extends { tables := packetTables } [({ clock := 100 }, packetBlock 1)] s' :=
    .extend h (.refl s')
  exact ⟨s', hrun, (conserved_of_extends hrun (by decide +kernel) WithdrawCondition.code_injective
    (by decide +kernel) conserved_packetTables).1⟩

/-- A claim in the name of account `-1` is paid to account 1 and leaves the share unclaimed: of
the base asset 200 shares are then held, with a supply of 100. -/
theorem packetClaim_for_marker :
    letI := Crypto.transparent
    ∃ s', Extends { tables := packetTables } [({ clock := 100 }, packetBlock (-1))] s' ∧
      packetTables.games = ∅ ∧ packetTables.Conserved ∧ s'.tables.totalShares 0 = 200 ∧
      s'.tables.ledger.currentSupply 0 = 100 ∧ ¬ s'.tables.Conserved := by
  let := Crypto.transparent
  obtain ⟨s', h, htotal, hsupply⟩ := exists_ok_of_any (x := ChainState.extendChain
    { tables := packetTables } { clock := 100 } (packetBlock (-1)))
    (p := fun s' => s'.tables.totalShares 0 = 200 ∧ s'.tables.ledger.currentSupply 0 = 100)
    (by decide +kernel)
  refine ⟨s', .extend h (.refl s'), rfl, conserved_packetTables, htotal, hsupply, fun hcons => ?_⟩
  have h0 := hcons 0
  rw [htotal, hsupply] at h0
  exact absurd h0 (by decide)

end BitShares
