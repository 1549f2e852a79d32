import BitShares.Chain.Extend
import BitShares.Ledger.Proof.WellFormed

/-!
# What a block does to the ledger

One lemma per phase of `extend_chain`, over the plain ledger: production records and the round
change are `Bookkeeping`, the delegate's pay is `Paid`, the note rewards are `Rewarded`, and the
transactions are the evaluations of `Ledger`.

* `evaluateBlock_induction`: what every phase preserves, the block preserves.
* `extendChain_ledger`: the database after an accepted block holds the ledger the block was
  evaluated to.
-/

namespace BitShares

/-! ## The writes outside transactions -/

inductive Ledger.Bookkeeping : Ledger → Ledger → Prop
  | account {L : Ledger} {id : AccountId} {r r' : AccountRecord}
      (hr : L.accounts.lookup id = some r) (hsame : r.SameStanding r')
      (hkeys : r'.activeKeyHistory = r.activeKeyHistory) : Bookkeeping L (L.storeAccount r')
  | property {L : Ledger} {id : PropertyId} (v : PropertyValue)
      (hasset : id ≠ .lastAssetId) (haccount : id ≠ .lastAccountId) :
      Bookkeeping L (L.setProperty id v)

def DelegateStats.paid (d : DelegateStats) (paycheck : ShareType) : DelegateStats :=
  { d with
    votesFor := d.votesFor + paycheck
    payBalance := d.payBalance + paycheck
    totalPaid := d.totalPaid + paycheck }

/-- A delegate is paid.  Of the collected fees `fees` are taken; `accepted` of them go to the
delegate, together with as many new shares, and the rest is destroyed. -/
inductive Ledger.Paid : Ledger → Ledger → Prop
  | intro {L : Ledger} {base : AssetRecord} {id : AccountId} {r : AccountRecord}
      {d : DelegateStats} {fees accepted : ShareType}
      (hbase : L.assets.lookup 0 = some base) (hr : L.accounts.lookup id = some r)
      (hd : r.delegateInfo = some d)
      (hfees : fees = base.collectedFees / Int64.ofInt (14 * BLOCKS_PER_DAY))
      (haccepted : 0 ≤ accepted) (hpaycheck : 0 ≤ accepted + accepted)
      (hdestroyed : 0 ≤ fees - accepted) :
      Paid L ((L.storeAccount { r with
          delegateInfo := some (d.paid (accepted + accepted)) }).storeAsset
        { base with
          collectedFees := base.collectedFees - fees
          currentSupply := base.currentSupply + accepted - (fees - accepted) })

def Ledger.creditAll [Crypto] (L : Ledger) (now : Time) (l : List (Address × ShareType)) : Ledger :=
  l.foldl (fun L e => L.storeBalance (L.credited now e.1 ⟨e.2, 0⟩)) L

/-- What the notes of a day get, by level, out of `fees`. -/
structure DayRewards (fees : ShareType) (l : List (Address × ShareType)) : Prop where
  levels : ∃ first second third : List Address, first.length ≤ 1 ∧ second.length ≤ 2 ∧
    third.length ≤ 5 ∧ l = first.map (·, fees * 40 / 100) ++ second.map (·, fees * 15 / 100) ++
      third.map (·, fees * 6 / 100)

def OperationRewardRecord.dayFees (r : OperationRewardRecord) : ShareType :=
  r.feeOf 0 * Int64.ofInt BLOCKS_PER_DAY / Int64.ofInt (14 * BLOCKS_PER_DAY)

inductive Ledger.Rewarded [Crypto] : Ledger → Ledger → Prop
  | intro {L : Ledger} {r : OperationRewardRecord} (now : Time) {l : List (Address × ShareType)}
      (hr : L.operationRewards.lookup noteOpType = some r) (hl : DayRewards r.dayFees l) :
      Rewarded L ((L.creditAll now l).storeReward
        { r with fees := r.fees.set 0 (r.feeOf 0 - (l.map (·.2)).sum) })

theorem Ledger.storeAsset_self {L : Ledger} {r : AssetRecord}
    (h : L.assets.lookup r.id = some r) : L.storeAsset r = L := by
  rw [Ledger.storeAsset, Table.insert_of_lookup h]

theorem Ledger.Bookkeeping.assets {L L' : Ledger} (h : L.Bookkeeping L') : L'.assets = L.assets := by
  cases h <;> rfl

theorem Ledger.assets_of_bookkeeping {L L' : Ledger}
    (h : Relation.ReflTransGen Ledger.Bookkeeping L L') : L'.assets = L.assets := by
  induction h with
  | refl => rfl
  | tail _ hstep ih => rw [hstep.assets, ih]

/-- The overlays of a pending state lie over the tables of the database.  Feeds, orders, the market
history and the statuses of games have nothing pending: no operation stores any. -/
structure PendingState.Over (p : PendingState) (d : ChainTables) : Prop where
  ledger : p.ledger.below = d.toLedgerTables
  transactions : p.transactions.prev = d.transactions
  feeds : p.feeds = .over d.feeds
  slots : p.slots.prev = d.slots
  slotDelegates : p.slotDelegates.prev = d.slotDelegates
  bids : p.bids = .over d.bids
  asks : p.asks = .over d.asks
  dirtyMarkets : p.dirtyMarkets = []
  marketStatuses : p.marketStatuses.prev = d.marketStatuses
  marketHistory : p.marketHistory = .over d.marketHistory
  gameStatuses : p.gameStatuses = .over d.gameStatuses

theorem PendingState.over_over (d : ChainTables) : (PendingState.over d).Over d := by
  constructor <;> rfl

/-- What the phases of a block outside its transactions leave alone: everything below the pending
state, the transactions, the notes, and what has to do with games, orders and feeds. -/
structure PendingState.Frame (p p' : PendingState) : Prop where
  below : p'.ledger.below = p.ledger.below
  notes : p'.ledger.notes = p.ledger.notes
  games : p'.ledger.games = p.ledger.games
  gameData : p'.ledger.gameData = p.ledger.gameData
  transactions : p'.transactions = p.transactions
  feeds : p'.feeds = p.feeds
  slots : p'.slots.prev = p.slots.prev
  slotDelegates : p'.slotDelegates.prev = p.slotDelegates.prev
  bids : p'.bids = p.bids
  asks : p'.asks = p.asks
  dirtyMarkets : p'.dirtyMarkets = p.dirtyMarkets
  marketStatuses : p'.marketStatuses.prev = p.marketStatuses.prev
  marketHistory : p'.marketHistory = p.marketHistory
  gameStatuses : p'.gameStatuses = p.gameStatuses

theorem PendingState.Frame.refl (p : PendingState) : p.Frame p := by constructor <;> rfl

theorem PendingState.Frame.trans {p q r : PendingState} (h : p.Frame q) (h' : q.Frame r) :
    p.Frame r :=
  ⟨h'.below.trans h.below, h'.notes.trans h.notes, h'.games.trans h.games, h'.gameData.trans h.gameData,
    h'.transactions.trans h.transactions, h'.feeds.trans h.feeds, h'.slots.trans h.slots,
    h'.slotDelegates.trans h.slotDelegates, h'.bids.trans h.bids, h'.asks.trans h.asks,
    h'.dirtyMarkets.trans h.dirtyMarkets, h'.marketStatuses.trans h.marketStatuses,
    h'.marketHistory.trans h.marketHistory, h'.gameStatuses.trans h.gameStatuses⟩

theorem PendingState.Over.of_frame {p p' : PendingState} {d : ChainTables} (h : p.Over d)
    (hframe : p.Frame p') : p'.Over d where
  ledger := hframe.below.trans h.ledger
  transactions := (congrArg Layered.prev hframe.transactions).trans h.transactions
  feeds := hframe.feeds.trans h.feeds
  slots := hframe.slots.trans h.slots
  slotDelegates := hframe.slotDelegates.trans h.slotDelegates
  bids := hframe.bids.trans h.bids
  asks := hframe.asks.trans h.asks
  dirtyMarkets := hframe.dirtyMarkets.trans h.dirtyMarkets
  marketStatuses := hframe.marketStatuses.trans h.marketStatuses
  marketHistory := hframe.marketHistory.trans h.marketHistory
  gameStatuses := hframe.gameStatuses.trans h.gameStatuses

theorem PendingState.ledger_noteSlot (p : PendingState) (cfg : NodeConfig) (r : SlotRecord) :
    (p.noteSlot cfg r).ledger = p.ledger := by
  unfold noteSlot
  split <;> rfl

theorem PendingState.frame_noteSlot (p : PendingState) (cfg : NodeConfig) (r : SlotRecord) :
    p.Frame (p.noteSlot cfg r) := by
  unfold PendingState.noteSlot
  split
  · constructor <;> rfl
  · exact .refl p

theorem length_unrankFrom (k : Nat) (num : UInt64) (max : Nat) :
    (unrankFrom k num max).length ≤ k := by
  induction k generalizing num max with
  | zero => exact le_rfl
  | succ k ih =>
    rw [unrankFrom_add_one]
    split
    · simpa using ih num max
    · split
      · simpa using ih _ _
      · exact (ih num 0).trans (Nat.le_succ k)

variable [Crypto]

open Relation (ReflTransGen)

namespace PendingState

/-! ## Production and pay -/

theorem frame_storeAccount (p : PendingState) (r : AccountRecord) : p.Frame (p.storeAccount r) := by
  constructor <;> rfl

theorem storeAccount_bookkeeping {p : PendingState} {id : AccountId} {r : AccountRecord}
    {d d' : DelegateStats} (hr : p.ledger.view.accounts.lookup id = some r)
    (hd : r.delegateInfo = some d) (hvotes : d'.votesFor = d.votesFor)
    (hpay : d'.payBalance = d.payBalance) :
    p.ledger.view.Bookkeeping (p.storeAccount { r with delegateInfo := some d' }).ledger.view := by
  rw [storeAccount, PendingLedger.view_storeAccountRecord]
  refine .account hr ⟨rfl, ?_, ?_, fun _ => rfl⟩ rfl
  · simp [AccountRecord.payBalance, hd, hpay]
  · simp [AccountRecord.netVotes, hd, hvotes]

theorem missSlot_effect {s : ChainState} {cfg : NodeConfig} {delegates : List AccountId}
    {p p' : PendingState} {slot : Time} (h : missSlot s cfg delegates p slot = .ok p') :
    p.ledger.view.Bookkeeping p'.ledger.view ∧ p.Frame p' := by
  simp only [missSlot, bind_eq_ok, expect_eq_ok, pure_eq_ok,
    PendingLedger.getAccountRecord_eq] at h
  obtain ⟨signee, -, r, hr, d, hd, rfl⟩ := h
  refine ⟨?_, (frame_storeAccount _ _).trans (frame_noteSlot _ _ _)⟩
  rw [ledger_noteSlot]
  exact storeAccount_bookkeeping hr hd rfl rfl

theorem updateDelegateProductionInfo_effect {s : ChainState} {cfg : NodeConfig} {b : FullBlock}
    {signee : PublicKey} {p p' : PendingState}
    (h : p.updateDelegateProductionInfo s cfg b signee = .ok p') :
    ReflTransGen Ledger.Bookkeeping p.ledger.view p'.ledger.view ∧ p.Frame p' := by
  simp only [updateDelegateProductionInfo, bind_eq_ok, expect_eq_ok, require_eq_ok,
    exists_and_left, exists_const, PendingLedger.getAccountRecord_eq] at h
  obtain ⟨signer, -, -, r, hr, d, hd, -, delegates, -, hslots⟩ := h
  refine foldlM_induction (P := fun q => ReflTransGen Ledger.Bookkeeping p.ledger.view
    q.ledger.view ∧ p.Frame q) (fun slot _ q q' hq hstep => ?_) hslots ?_
  · obtain ⟨hmove, hframe⟩ := missSlot_effect hstep
    exact ⟨hq.1.tail hmove, hq.2.trans hframe⟩
  · refine ⟨.single ?_, (frame_storeAccount _ _).trans (frame_noteSlot _ _ _)⟩
    rw [ledger_noteSlot]
    exact storeAccount_bookkeeping hr hd rfl rfl

/-- The pay, when the base asset is still the database's.  It goes to the account of the signing
key. -/
theorem payDelegate_signer {s : ChainState} {signee : PublicKey} {p p' : PendingState}
    (h : p.payDelegate s signee = .ok p') (hassets : p.ledger.view.assets = s.tables.assets) :
    ∃ signer base r d fees accepted,
      s.tables.accountByAddress (Crypto.address signee) = some signer ∧
      p.ledger.view.assets.lookup 0 = some base ∧
      p.ledger.view.accounts.lookup signer.id = some r ∧ r.delegateInfo = some d ∧
      fees = base.collectedFees / Int64.ofInt (14 * BLOCKS_PER_DAY) ∧ 0 ≤ accepted ∧
      0 ≤ accepted + accepted ∧ 0 ≤ fees - accepted ∧
      p'.ledger.view = (p.ledger.view.storeAccount { r with
          delegateInfo := some (d.paid (accepted + accepted)) }).storeAsset
        { base with
          collectedFees := base.collectedFees - fees
          currentSupply := base.currentSupply + accepted - (fees - accepted) } := by
  simp only [payDelegate, bind_eq_ok, expect_eq_ok, require_eq_ok, pure_eq_ok, exists_and_left,
    exists_const, PendingLedger.getAccountRecord_eq, PendingLedger.getAssetRecord_eq] at h
  obtain ⟨base, hbase, signer, hsigner, r, hr, d, hd, -, below, hbelow, ⟨-, hissued⟩, ⟨-, -, hdest⟩,
    hpay, rfl⟩ := h
  obtain rfl : below = base := by
    rw [hassets, hbelow] at hbase
    exact Option.some.inj hbase
  refine ⟨signer, below, r, d, _, _, hsigner, hbase, hr, hd, rfl, hissued, hpay, hdest, ?_⟩
  simp only [PendingLedger.view_storeAssetRecord, storeAccount,
    PendingLedger.view_storeAccountRecord]
  rfl

theorem payDelegate_effect {s : ChainState} {signee : PublicKey} {p p' : PendingState}
    (h : p.payDelegate s signee = .ok p') (hassets : p.ledger.view.assets = s.tables.assets) :
    p.ledger.view.Paid p'.ledger.view := by
  obtain ⟨signer, base, r, d, fees, accepted, -, hbase, hr, hd, hfees, hissued, hpay, hdest, hview⟩ :=
    payDelegate_signer h hassets
  exact hview ▸ .intro hbase hr hd hfees hissued hpay hdest

theorem payDelegate_frame {s : ChainState} {signee : PublicKey} {p p' : PendingState}
    (h : p.payDelegate s signee = .ok p') : p.Frame p' := by
  simp only [payDelegate, bind_eq_ok, expect_eq_ok, require_eq_ok, pure_eq_ok, exists_and_left,
    exists_const] at h
  obtain ⟨base, -, signer, -, r, -, stats, -, -, below, -, -, -, -, rfl⟩ := h
  constructor <;> rfl

/-! ## Markets -/

omit [Crypto] in
theorem matchOrders_eq_ok {s : ChainState} {cfg : NodeConfig} {quoteId baseId : AssetId}
    {p : PendingState} {quote base : AssetRecord}
    (h : p.matchOrders s cfg quoteId baseId = .ok (quote, base)) :
    p.ledger.view.assets.lookup quoteId = some quote ∧
      p.ledger.view.assets.lookup baseId = some base := by
  simp only [matchOrders, bind_eq_ok, expect_eq_ok, require_eq_ok, pure_eq_ok, exists_and_left,
    exists_const, PendingLedger.getAssetRecord_eq, Prod.mk.injEq] at h
  obtain ⟨_, hquote, _, hbase, -, -, -, _, -, _, -, _, -, rfl, rfl⟩ := h
  exact ⟨hquote, hbase⟩

omit [Crypto] in
theorem executeMarket_effect (s : ChainState) (cfg : NodeConfig) (p : PendingState)
    (market : AssetId × AssetId) (hids : p.ledger.view.assets.All fun id r => r.id = id) :
    ReflTransGen Ledger.Bookkeeping p.ledger.view (p.executeMarket s cfg market).ledger.view := by
  unfold executeMarket
  dsimp only
  split
  · exact .refl
  · rename_i quote base hmatch
    refine .single ?_
    obtain ⟨hquote, hbase⟩ := matchOrders_eq_ok hmatch
    have hquote' : p.ledger.view.assets.lookup quote.id = some quote :=
      (hids _ _ hquote).symm ▸ hquote
    have hbase' : p.ledger.view.assets.lookup base.id = some base := (hids _ _ hbase).symm ▸ hbase
    simp only [storeMarketStatus, PendingLedger.view_storePropertyRecord,
      PendingLedger.view_storeAssetRecord]
    rw [Ledger.storeAsset_self hquote', Ledger.storeAsset_self hbase']
    exact .property _ (by decide) (by decide)

omit [Crypto] in
theorem executeMarkets_effect {s : ChainState} {cfg : NodeConfig} {p p' : PendingState}
    (h : p.executeMarkets s cfg = .ok p')
    (hids : p.ledger.view.assets.All fun id r => r.id = id) :
    ReflTransGen Ledger.Bookkeeping p.ledger.view p'.ledger.view := by
  simp only [executeMarkets, bind_eq_ok, pure_eq_ok] at h
  obtain ⟨q, hq, rfl⟩ := h
  change ReflTransGen Ledger.Bookkeeping p.ledger.view q.ledger.view
  refine foldlM_induction (P := fun q : PendingState =>
    ReflTransGen Ledger.Bookkeeping p.ledger.view q.ledger.view)
    (fun market _ q q' hq hstep => ?_) hq .refl
  simp only [bind_eq_ok, require_eq_ok, pure_eq_ok, exists_and_left, exists_const] at hstep
  obtain ⟨-, rfl⟩ := hstep
  have hids' : q.ledger.view.assets.All fun id r => r.id = id := by
    rw [Ledger.assets_of_bookkeeping hq]
    exact hids
  exact hq.trans (executeMarket_effect s cfg q market hids')

omit [Crypto] in
theorem executeMarkets_frame {s : ChainState} {cfg : NodeConfig} {p p' : PendingState}
    (h : p.executeMarkets s cfg = .ok p') : p.Frame p' := by
  simp only [executeMarkets, bind_eq_ok, pure_eq_ok] at h
  obtain ⟨q, hq, rfl⟩ := h
  have hframe : p.Frame q := by
    refine foldlM_induction (P := p.Frame) (fun market _ q q' hq hstep => hq.trans ?_) hq (.refl p)
    simp only [bind_eq_ok, require_eq_ok, pure_eq_ok, exists_and_left, exists_const] at hstep
    obtain ⟨-, rfl⟩ := hstep
    unfold executeMarket
    dsimp only
    split <;> constructor <;> rfl
  exact { hframe with }

/-! ## Transactions -/

section

variable {run : EvalContext → PendingLedger → SignedTransaction → Except Error EvalState}

theorem evaluateBy_eq_ok {d : ChainTables} {ctx : EvalContext} {trx : SignedTransaction}
    {p p' : PendingState} (h : p.evaluateBy run d ctx trx = .ok p') :
    ctx.now < trx.expiration ∧ p.isKnownTransaction d trx.toTransaction = false ∧
      ∃ e, run ctx p.ledger trx = .ok e ∧
        p' = { p with ledger := e.pending }.storeTransaction (Crypto.transactionId trx)
          ⟨trx, (0, 0)⟩ := by
  simp only [evaluateBy, bind_eq_ok, require_eq_ok, pure_eq_ok, exists_and_left, exists_const] at h
  obtain ⟨hexp, -, hknown, e, he, rfl⟩ := h
  exact ⟨hexp, by simpa using hknown, e, he, rfl⟩

/-- What every transaction preserves, whatever is stored about it, the loop preserves. -/
theorem applyTransactions_induction {P : PendingState → Prop} {d : ChainTables}
    {ctx : EvalContext} {n : BlockNum} {l : List SignedTransaction} {i : Nat}
    {p p' : PendingState}
    (hstep : ∀ trx ∈ l, ∀ p p', P p → p.evaluateBy run d ctx trx = .ok p' → ∀ loc,
      P (p'.storeTransaction (Crypto.transactionId trx) ⟨trx, loc⟩))
    (h : applyTransactionsBy run d ctx n l i p = .ok p') (hp : P p) : P p' := by
  induction l generalizing i p with
  | nil => cases h; exact hp
  | cons trx l ih =>
    simp only [applyTransactionsBy, bind_eq_ok, expect_eq_ok] at h
    obtain ⟨q, hq, r, hr, hrest⟩ := h
    obtain rfl : r = ⟨trx, (0, 0)⟩ := by
      obtain ⟨-, -, e, -, rfl⟩ := evaluateBy_eq_ok hq
      simpa [storeTransaction, Layered.lookup, Layered.insert, Overlay.read_insert] using hr.symm
    exact ih (fun trx hmem => hstep trx (List.mem_cons_of_mem _ hmem)) hrest
      (hstep trx List.mem_cons_self p q hp hq _)

theorem applyTransactions_over {d : ChainTables} {ctx : EvalContext} {n : BlockNum}
    {l : List SignedTransaction} {i : Nat} {p p' : PendingState}
    (hbelow : ∀ ctx p trx e, run ctx p trx = .ok e → e.pending.below = p.below)
    (h : applyTransactionsBy run d ctx n l i p = .ok p') (hp : p.Over d) : p'.Over d := by
  refine applyTransactions_induction (P := (·.Over d)) (fun trx _ p q hp hq loc => ?_) h hp
  obtain ⟨-, -, e, he, rfl⟩ := evaluateBy_eq_ok hq
  exact { hp with ledger := (hbelow _ _ _ _ he).trans hp.ledger }

end

/-! ## Rewards -/

theorem payReward_effect {now : Time} {level : String} {reward : ShareType}
    {acc acc' : PendingState × ShareType} {index : MessageIndex}
    (h : payReward now level reward acc index = .ok acc') :
    ∃ owner, acc'.1.ledger.view = acc.1.ledger.view.creditAll now [(owner, reward)] ∧
      acc'.2 = acc.2 + reward ∧ acc.1.Frame acc'.1 := by
  simp only [payReward, bind_eq_ok, expect_eq_ok, pure_eq_ok] at h
  obtain ⟨note, -, key, -, rfl⟩ := h
  exact ⟨Crypto.address key, PendingLedger.view_creditOwner _ _ _ _, rfl, by constructor <;> rfl⟩

theorem payRewards_effect {now : Time} {level : String} {reward : ShareType}
    {notes : List MessageIndex} {acc acc' : PendingState × ShareType}
    (h : notes.foldlM (payReward now level reward) acc = .ok acc') :
    ∃ owners : List Address, owners.length = notes.length ∧
      acc'.1.ledger.view = acc.1.ledger.view.creditAll now (owners.map (·, reward)) ∧
      acc'.2 = acc.2 + ((owners.map (·, reward)).map (·.2)).sum ∧ acc.1.Frame acc'.1 := by
  induction notes generalizing acc with
  | nil =>
    rw [List.foldlM_nil, pure_eq_ok] at h
    subst h
    exact ⟨[], rfl, rfl, by simp, .refl _⟩
  | cons index notes ih =>
    rw [List.foldlM_cons, bind_eq_ok] at h
    obtain ⟨m, hm, hrest⟩ := h
    obtain ⟨owner, hview, hfee, hframe⟩ := payReward_effect hm
    obtain ⟨owners, hlen, hview', hfee', hframe'⟩ := ih hrest
    refine ⟨owner :: owners, by simp [hlen], ?_, ?_, hframe.trans hframe'⟩
    · rw [hview', hview]
      rfl
    · rw [hfee', hfee, List.map_cons, List.map_cons, List.sum_cons, Int64.add_assoc]

omit [Crypto] in
theorem drawCombination_length {word : UInt64} {k : Nat} {notes winners rest : List MessageIndex}
    (h : drawCombination word k notes = .ok (winners, rest)) : winners.length ≤ k := by
  unfold drawCombination at h
  split at h
  · cases h
    assumption
  · simp only [bind_eq_ok, require_eq_ok, pure_eq_ok, exists_and_left, exists_const,
      Prod.mk.injEq] at h
    obtain ⟨-, -, ws, hws, rfl, -⟩ := h
    rw [length_mapM hws, unranking, List.length_insertionSort]
    exact length_unrankFrom _ _ _

theorem payNotes_effect {now : Time} {seed : Nat} {fees total : ShareType}
    {notes : List MessageIndex} {p p' : PendingState}
    (h : p.payNotes now seed fees notes = .ok (p', total)) :
    ∃ l, DayRewards fees l ∧ p'.ledger.view = p.ledger.view.creditAll now l ∧
      total = (l.map (·.2)).sum ∧ p.Frame p' := by
  simp only [payNotes, bind_eq_ok, Prod.exists] at h
  obtain ⟨p₁, t₁, h₁, second, rest, hsecond, p₂, t₂, h₂, third, rest', hthird, h₃⟩ := h
  obtain ⟨o₁, hlen₁, hview₁, ht₁, hframe₁⟩ := payRewards_effect h₁
  obtain ⟨o₂, hlen₂, hview₂, ht₂, hframe₂⟩ := payRewards_effect h₂
  obtain ⟨o₃, hlen₃, hview₃, ht₃, hframe₃⟩ := payRewards_effect h₃
  dsimp only at hview₁ ht₁ hview₂ ht₂ hview₃ ht₃
  have hfirst : (drawFirst seed notes).1.length ≤ 1 := by
    unfold drawFirst
    dsimp only
    cases notes[(seedWord seed 0).toNat % notes.length]? <;> simp
  refine ⟨_, ⟨o₁, o₂, o₃, hlen₁ ▸ hfirst, hlen₂ ▸ drawCombination_length hsecond,
    hlen₃ ▸ drawCombination_length hthird, rfl⟩, ?_, ?_,
    (hframe₁.trans hframe₂).trans hframe₃⟩
  · rw [hview₃, hview₂, hview₁]
    simp only [Ledger.creditAll, List.foldl_append]
  · rw [ht₃, ht₂, ht₁]
    simp only [List.map_append, List.sum_append, Int64.zero_add]

theorem payOperationRewards_effect {s : ChainState} {cfg : NodeConfig} {n : BlockNum}
    {p p' : PendingState} (h : p.payOperationRewards s cfg n = .ok p') :
    (p'.ledger.view = p.ledger.view ∨ p.ledger.view.Rewarded p'.ledger.view) ∧ p.Frame p' := by
  unfold payOperationRewards at h
  rw [PendingLedger.operationRewards_lookup] at h
  split at h
  · cases h
    exact ⟨.inl rfl, .refl _⟩
  · rename_i r hr
    simp only [bind_eq_ok, pure_eq_ok, Prod.exists] at h
    obtain ⟨q, total, hday, rfl⟩ := h
    have hpaid : ∃ l, DayRewards r.dayFees l ∧
        q.ledger.view = p.ledger.view.creditAll (s.now cfg) l ∧ total = (l.map (·.2)).sum ∧
        p.Frame q := by
      unfold payDay at hday
      split at hday
      · rw [bind_eq_ok] at hday
        obtain ⟨notes, -, hday⟩ := hday
        obtain ⟨l, hl, hview, htotal, hframe⟩ := payNotes_effect hday
        exact ⟨l, hl, hview, htotal, { hframe with }⟩
      · cases hday
        exact ⟨[], ⟨[], [], [], by simp, by simp, by simp, rfl⟩, rfl, rfl, by constructor <;> rfl⟩
    obtain ⟨l, hl, hview, rfl, hframe⟩ := hpaid
    refine ⟨.inr ?_, { hframe with }⟩
    rw [PendingLedger.view_storeOperationRewardRecord, hview]
    exact .intro _ hr hl

end PendingState

/-! ## The block -/

section

variable {run : EvalContext → PendingLedger → SignedTransaction → Except Error EvalState}

/-- The phases of an accepted block: `p₁` is the pending state after the production records, `p₂`
after the pay, `p₃` after the markets and `p₄` after the transactions. -/
theorem evaluateBlock_phases {s : ChainState} {cfg : NodeConfig} {b : FullBlock}
    {p : PendingState} (h : s.evaluateBlockBy run cfg b = .ok p) :
    ∃ signee p₁ p₂ p₃ p₄, s.verifyHeader cfg b signee = .ok () ∧
      (PendingState.over s.tables).updateDelegateProductionInfo s cfg b signee = .ok p₁ ∧
      p₁.payDelegate s signee = .ok p₂ ∧ p₂.executeMarkets s cfg = .ok p₃ ∧
      PendingState.applyTransactionsBy run s.tables (s.evalContext cfg) b.blockNum
        b.userTransactions 0 p₃ = .ok p₄ ∧
      ((p₄.updateActiveDelegateList s.tables b.blockNum).updateRandomSeed
        b.previousSecret).payOperationRewards s cfg b.blockNum = .ok p := by
  simp only [ChainState.evaluateBlockBy, bind_eq_ok] at h
  obtain ⟨signee, -, ⟨⟩, hheader, p₁, h₁, p₂, h₂, p₃, h₃, p₄, h₄, h₅⟩ := h
  exact ⟨signee, p₁, p₂, p₃, p₄, hheader, h₁, h₂, h₃, h₄, h₅⟩

theorem PendingState.round_bookkeeping (p : PendingState) (d : ChainTables) (n : BlockNum)
    (secret : SecretHash) :
    ReflTransGen Ledger.Bookkeeping p.ledger.view
        ((p.updateActiveDelegateList d n).updateRandomSeed secret).ledger.view ∧
      p.Frame ((p.updateActiveDelegateList d n).updateRandomSeed secret) := by
  refine ⟨?_, ?_⟩
  · have hround : ReflTransGen Ledger.Bookkeeping p.ledger.view
        (p.updateActiveDelegateList d n).ledger.view := by
      unfold updateActiveDelegateList
      split
      · exact .refl
      · rw [PendingLedger.view_storePropertyRecord]
        exact .single (.property _ (by decide) (by decide))
    refine hround.tail ?_
    rw [updateRandomSeed, PendingLedger.view_storePropertyRecord]
    exact .property _ (by decide) (by decide)
  · unfold updateActiveDelegateList
    split <;> constructor <;> rfl

/-- **One block.**  An invariant of the ledger that bookkeeping, the pay of the slot's delegate,
rewards and the block's own transactions preserve, the block preserves. -/
theorem evaluateBlock_payInduction {I : Ledger → Prop} {s : ChainState} {cfg : NodeConfig}
    {b : FullBlock} {p : PendingState} (h : s.evaluateBlockBy run cfg b = .ok p)
    (hids : ∀ L, I L → L.assets.All fun id r => r.id = id)
    (hbook : ∀ L L', L.Bookkeeping L' → I L → I L')
    (hpaid : ∀ (signee : PublicKey) (p₁ p₂ : PendingState), s.verifyHeader cfg b signee = .ok () →
      ReflTransGen Ledger.Bookkeeping s.tables.ledger p₁.ledger.view →
      p₁.payDelegate s signee = .ok p₂ → I p₁.ledger.view → I p₂.ledger.view)
    (htrx : ∀ trx ∈ b.userTransactions, ∀ q e, run (s.evalContext cfg) q trx = .ok e →
      I q.view → I e.ledger)
    (hreward : ∀ L L', L.Rewarded L' → I L → I L')
    (hI : I s.tables.ledger) : I p.ledger.view := by
  have hmoves : ∀ {L L'}, ReflTransGen Ledger.Bookkeeping L L' → I L → I L' := by
    intro L L' hsteps hL
    induction hsteps with
    | refl => exact hL
    | tail _ hstep ih => exact hbook _ _ hstep ih
  obtain ⟨signee, p₁, p₂, p₃, p₄, hheader, h₁, h₂, h₃, h₄, h₅⟩ := evaluateBlock_phases h
  have hmoves₁ := (PendingState.updateDelegateProductionInfo_effect h₁).1
  have hover : (PendingState.over s.tables).ledger.view = s.tables.ledger :=
    PendingLedger.view_over _
  rw [hover] at hmoves₁
  have hI₁ : I p₁.ledger.view := hmoves hmoves₁ hI
  have hI₂ : I p₂.ledger.view := hpaid signee p₁ p₂ hheader hmoves₁ h₂ hI₁
  have hI₃ : I p₃.ledger.view :=
    hmoves (PendingState.executeMarkets_effect h₃ (hids _ hI₂)) hI₂
  have hI₄ : I p₄.ledger.view := by
    refine PendingState.applyTransactions_induction (P := fun q => I q.ledger.view)
      (fun trx hmem q q' hq hstep loc => ?_) h₄ hI₃
    obtain ⟨-, -, e, he, rfl⟩ := PendingState.evaluateBy_eq_ok hstep
    exact htrx trx hmem q.ledger e he hq
  have hI₅ := hmoves (p₄.round_bookkeeping s.tables b.blockNum b.previousSecret).1 hI₄
  rcases (PendingState.payOperationRewards_effect h₅).1 with hsame | hrewarded
  · rw [hsame]
    exact hI₅
  · exact hreward _ _ hrewarded hI₅

theorem evaluateBlock_induction {I : Ledger → Prop} {s : ChainState} {cfg : NodeConfig}
    {b : FullBlock} {p : PendingState} (h : s.evaluateBlockBy run cfg b = .ok p)
    (hids : ∀ L, I L → L.assets.All fun id r => r.id = id)
    (hbook : ∀ L L', L.Bookkeeping L' → I L → I L')
    (hpaid : ∀ L L', L.Paid L' → I L → I L')
    (htrx : ∀ trx ∈ b.userTransactions, ∀ q e, run (s.evalContext cfg) q trx = .ok e →
      I q.view → I e.ledger)
    (hreward : ∀ L L', L.Rewarded L' → I L → I L')
    (hI : I s.tables.ledger) : I p.ledger.view :=
  evaluateBlock_payInduction h hids hbook (fun _ _ _ _ hmoves hpay => hpaid _ _
    (PendingState.payDelegate_effect hpay (Ledger.assets_of_bookkeeping hmoves))) htrx hreward hI

theorem evaluateBlockBy_over {s : ChainState} {cfg : NodeConfig} {b : FullBlock} {p : PendingState}
    (hbelow : ∀ ctx p trx e, run ctx p trx = .ok e → e.pending.below = p.below)
    (h : s.evaluateBlockBy run cfg b = .ok p) : p.Over s.tables := by
  obtain ⟨signee, p₁, p₂, p₃, p₄, -, h₁, h₂, h₃, h₄, h₅⟩ := evaluateBlock_phases h
  have hover₃ : p₃.Over s.tables := (PendingState.over_over _).of_frame
    (((PendingState.updateDelegateProductionInfo_effect h₁).2.trans
      (PendingState.payDelegate_frame h₂)).trans (PendingState.executeMarkets_frame h₃))
  exact (PendingState.applyTransactions_over hbelow h₄ hover₃).of_frame
    ((PendingState.round_bookkeeping _ _ _ _).2.trans
      (PendingState.payOperationRewards_effect h₅).2)

end

theorem evaluateBlock_over {s : ChainState} {cfg : NodeConfig} {b : FullBlock} {p : PendingState}
    (h : s.evaluateBlock cfg b = .ok p) : p.Over s.tables :=
  evaluateBlockBy_over (fun _ _ _ _ => evaluateLedger_below) h

/-! ## Well-formedness -/

omit [Crypto] in
theorem Ledger.counter_of_bookkeeping {L L' : Ledger} (h : L.Bookkeeping L') :
    L'.counter .lastAssetId = L.counter .lastAssetId ∧
      L'.counter .lastAccountId = L.counter .lastAccountId := by
  cases h with
  | account hr hsame _ => exact ⟨rfl, rfl⟩
  | property v hasset haccount =>
    exact ⟨counter_setProperty_ne _ _ hasset.symm, counter_setProperty_ne _ _ haccount.symm⟩

theorem Ledger.Bookkeeping.wellFormed {L L' : Ledger} (h : L.Bookkeeping L') (hL : L.WellFormed) :
    L'.WellFormed := by
  obtain ⟨hasset, haccount⟩ := counter_of_bookkeeping h
  cases h with
  | account hr hsame _ => exact hL.updateAccount hr hsame.id
  | property v _ _ =>
    exact { hL with
      lastAccountId := by rw [haccount]; exact hL.lastAccountId
      lastAssetId := by rw [hasset]; exact hL.lastAssetId }

theorem Ledger.Paid.wellFormed {L L' : Ledger} (h : L.Paid L') (hL : L.WellFormed) :
    L'.WellFormed := by
  obtain ⟨-, hr, -, -, -, -, -⟩ := h
  exact (hL.updateAccount hr (by rfl)).storeAsset _

theorem Ledger.WellFormed.creditAll {L : Ledger} (hL : L.WellFormed) (now : Time)
    (l : List (Address × ShareType)) : (L.creditAll now l).WellFormed := by
  induction l generalizing L with
  | nil => exact hL
  | cons e l ih => exact ih (hL.storeBalance _)

theorem Ledger.Rewarded.wellFormed {L L' : Ledger} (h : L.Rewarded L') (hL : L.WellFormed) :
    L'.WellFormed := by
  obtain ⟨now, -, -⟩ := h
  exact (hL.creditAll now _).storeReward _

end BitShares
