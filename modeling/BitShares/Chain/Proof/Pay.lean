import BitShares.Chain.Proof.Apply
import BitShares.Chain.Proof.Genesis
import BitShares.Chain.Run
import BitShares.Ledger.Proof.Lifecycle

/-!
# The pay of retracted delegates

An account may be retracted only once its pay is drawn (`AccountRecord.PayStep`), and no transaction
pays it again.  The block reward is not a transaction: it goes to the account of the key that signed
the block, and that account keeps its slots until the round ends.

* `PaySound`: no pay lies with a retracted account, and none is negative.
* `retracted_pay_zero`: runs in which no block is signed with the key of a retracted account.
* `pay_stranded`: a delegate that retracts before its slot is paid for it.
-/

namespace BitShares

open Relation (ReflTransGen)

/-! ## Accounts -/

/-- No pay is negative, and none is left with a retracted account. -/
def PaySound (t : Table AccountId AccountRecord) : Prop :=
  t.All fun _ r => 0 ≤ r.payBalance ∧ (r.isRetracted → r.payBalance = 0)

theorem PaySound.move {t t' : Table AccountId AccountRecord} (h : PaySound t)
    (hmove : AccountMove t t') : PaySound t' := by
  cases hmove with
  | create _ hpay => exact h.insert ⟨by rw [hpay]; decide, fun _ => hpay⟩
  | @update r r' hr _ hpay =>
    obtain ⟨hnonneg, hretracted⟩ := h _ _ hr
    refine h.insert ?_
    cases hpay with
    | keep hpay hretract =>
      rw [hpay]
      refine ⟨hnonneg, fun hret => ?_⟩
      rcases hretract hret with hold | hdrawn
      · exact hretracted hold
      · exact Int64.le_antisymm hdrawn hnonneg
    | @draw amount hpos hle hpay hsame =>
      rw [hpay, hsame]
      have hsub : (r.payBalance - amount).toInt = r.payBalance.toInt - amount.toInt := by
        rw [Int64.lt_iff_toInt_lt, Int64.toInt_zero] at hpos
        rw [Int64.le_iff_toInt_le] at hle
        have := Int64.toInt_bounds r.payBalance
        exact Int64.toInt_sub_of_bounds (by omega) (by omega)
      refine ⟨?_, fun hret => ?_⟩
      · rw [Int64.le_iff_toInt_le] at hle ⊢
        rw [hsub, Int64.toInt_zero]
        omega
      · rw [hretracted hret] at hle
        exact absurd hpos (Int64.not_lt.2 hle)

theorem PaySound.moves {t t' : Table AccountId AccountRecord} (h : PaySound t)
    (hmoves : AccountMoves t t') : PaySound t' := by
  induction hmoves with
  | refl => exact h
  | tail _ hmove ih => exact ih.move hmove

theorem PaySound.bookkeeping {L L' : Ledger} (h : PaySound L.accounts) (hbook : L.Bookkeeping L') :
    PaySound L'.accounts := by
  cases hbook with
  | @account _ r r' hr hsame hkeys =>
    refine h.insert ?_
    rw [hsame.payBalance, AccountRecord.isRetracted_congr hkeys]
    exact h _ _ hr
  | property => exact h

section

variable [Crypto]

theorem Ledger.lookup_of_bookkeeping {L L' : Ledger} (h : ReflTransGen Ledger.Bookkeeping L L')
    (hL : L.WellFormed) {id : AccountId} {r : AccountRecord} (hr : L.accounts.lookup id = some r) :
    L'.WellFormed ∧ ∃ r', L'.accounts.lookup id = some r' ∧ r'.payBalance = r.payBalance ∧
      r'.isRetracted = r.isRetracted := by
  induction h with
  | refl => exact ⟨hL, r, hr, rfl, rfl⟩
  | tail _ hbook ih =>
    obtain ⟨hwf, m, hm, hpay, hretracted⟩ := ih
    refine ⟨hbook.wellFormed hwf, ?_⟩
    cases hbook with
    | @account id' s s' hs hsame hkeys =>
      by_cases hid : id = s'.id
      · have hid' : s'.id = id' := hsame.id.trans (hwf.accounts _ _ hs)
        rw [hid, hid', hs] at hm
        cases hm
        exact ⟨s', by rw [hid]; exact Finmap.lookup_insert _, hsame.payBalance.trans hpay,
          (AccountRecord.isRetracted_congr hkeys).trans hretracted⟩
      · exact ⟨m, (Finmap.lookup_insert_of_ne _ hid).trans hm, hpay, hretracted⟩
    | property => exact ⟨m, hm, hpay, hretracted⟩

/-! ## Blocks -/

theorem ChainTables.lookup_of_accountByAddress {d : ChainTables} (hd : d.ledger.WellFormed)
    {a : Address} {r : AccountRecord} (h : d.accountByAddress a = some r) :
    d.ledger.accounts.lookup r.id = some r := by
  obtain ⟨id, -, hr⟩ := Option.bind_eq_some_iff.1 h
  rw [hd.accounts id r hr]
  exact hr

/-- The account under the signing key of the delegate whose slot it is. -/
def ChainTables.slotPayee (d : ChainTables) (timestamp : Time) : Except Error AccountRecord := do
  let signer ← d.getSlotSignee timestamp (← d.getActiveDelegates)
  let info ← expect signer.delegateInfo (.assertion "")
  expect (d.accountByAddress (Crypto.address info.signingKey)) (.assertion "")

/-- A block whose pay goes to an account that stands, and does not overflow there. -/
def ChainState.PaysStanding (s : ChainState) (_ : NodeConfig) (b : FullBlock) : Prop :=
  ∀ payee, s.tables.slotPayee b.timestamp = .ok payee →
    payee.isRetracted = false ∧ payee.payBalance.toInt ≤ 2 ^ 62

theorem ChainState.verifyHeader_payee {s : ChainState} {cfg : NodeConfig} {b : FullBlock}
    {signee : PublicKey} (h : s.verifyHeader cfg b signee = .ok ()) {payee : AccountRecord}
    (hpayee : s.tables.accountByAddress (Crypto.address signee) = some payee) :
    s.tables.slotPayee b.timestamp = .ok payee := by
  simp only [verifyHeader, bind_eq_ok, require_eq_ok, expect_eq_ok, exists_and_left,
    exists_const] at h
  obtain ⟨-, -, -, -, -, -, -, delegates, hdelegates, signer, hsigner, d, hd, rfl⟩ := h
  simp only [ChainTables.slotPayee, bind_eq_ok, expect_eq_ok]
  exact ⟨delegates, hdelegates, signer, hsigner, d, hd, hpayee⟩

omit [Crypto] in
theorem toInt_paycheck {fees accepted collected : ShareType}
    (hfees : fees = collected / Int64.ofInt (14 * BLOCKS_PER_DAY)) (haccepted : 0 ≤ accepted)
    (hpaycheck : 0 ≤ accepted + accepted) (hdestroyed : 0 ≤ fees - accepted) :
    0 ≤ (accepted + accepted).toInt ∧ (accepted + accepted).toInt < 2 ^ 48 := by
  have hsum := Int64.toInt_add_of_nonneg haccepted hpaycheck
  have hbounds := Int64.toInt_bounds (accepted + accepted)
  have hquot : -(2 ^ 63 / 120960) ≤ fees.toInt ∧ fees.toInt ≤ 2 ^ 63 / 120960 := by
    rw [hfees]
    exact Int64.toInt_div_bounds (by decide)
  rw [Int64.le_iff_toInt_le, Int64.toInt_zero] at haccepted hdestroyed
  have hdiff : (fees - accepted).toInt = fees.toInt - accepted.toInt :=
    Int64.toInt_sub_of_bounds (by omega) (by omega)
  omega

theorem payDelegate_sound {s : ChainState} {signee : PublicKey} {p p' : PendingState}
    (h : p.payDelegate s signee = .ok p') (hs : s.tables.ledger.WellFormed)
    (hbook : ReflTransGen Ledger.Bookkeeping s.tables.ledger p.ledger.view)
    (hpayee : ∀ payee, s.tables.accountByAddress (Crypto.address signee) = some payee →
      payee.isRetracted = false ∧ payee.payBalance.toInt ≤ 2 ^ 62)
    (hp : PaySound p.ledger.view.accounts) : PaySound p'.ledger.view.accounts := by
  obtain ⟨signer, base, r, d, fees, accepted, hsigner, -, hr, hd, hfees, haccepted, hpaycheck,
    hdestroyed, hview⟩ := PendingState.payDelegate_signer h (Ledger.assets_of_bookkeeping hbook)
  obtain ⟨hstands, hroom⟩ := hpayee signer hsigner
  obtain ⟨-, m, hm, hpay, hretracted⟩ := Ledger.lookup_of_bookkeeping hbook hs
    (ChainTables.lookup_of_accountByAddress hs hsigner)
  obtain rfl : m = r := by rw [hr] at hm; exact (Option.some.inj hm).symm
  have hinfo : m.payBalance = d.payBalance := by rw [AccountRecord.payBalance, hd]; rfl
  obtain ⟨hnonneg, hsmall⟩ := toInt_paycheck hfees haccepted hpaycheck hdestroyed
  rw [hview]
  refine hp.insert ⟨?_, fun hret => ?_⟩
  · change 0 ≤ d.payBalance + (accepted + accepted)
    have hold := (hp _ _ hr).1
    rw [← hpay, hinfo] at hroom
    rw [hinfo] at hold
    rw [Int64.le_iff_toInt_le, Int64.toInt_zero] at hold ⊢
    rw [Int64.toInt_add_of_bounds (by omega) (by omega)]
    omega
  · have hfalse : AccountRecord.isRetracted
        { m with delegateInfo := some (d.paid (accepted + accepted)) } = false :=
      (AccountRecord.isRetracted_congr rfl).trans (hretracted.trans hstands)
    rw [hfalse] at hret
    cases hret

theorem Ledger.accounts_creditAll (L : Ledger) (now : Time) (l : List (Address × ShareType)) :
    (L.creditAll now l).accounts = L.accounts := by
  induction l generalizing L with
  | nil => rfl
  | cons e l ih => exact ih _

theorem PaySound.rewarded {L L' : Ledger} (h : PaySound L.accounts) (hrewarded : L.Rewarded L') :
    PaySound L'.accounts := by
  obtain ⟨now, -, -⟩ := hrewarded
  exact (L.accounts_creditAll now _).symm ▸ h

theorem extendChain_paySound {s s' : ChainState} {cfg : NodeConfig} {b : FullBlock}
    (h : s.extendChain cfg b = .ok s') (hstands : s.PaysStanding cfg b)
    (hs : s.tables.ledger.WellFormed ∧ PaySound s.tables.accounts) :
    s'.tables.ledger.WellFormed ∧ PaySound s'.tables.accounts := by
  refine ⟨extendChain_wellFormed h hs.1, ?_⟩
  refine (extendChain_payInduction (I := fun L => L.WellFormed ∧ PaySound L.accounts) h
    (fun _ hI => hI.1.assets) (fun _ _ hbook hI => ⟨hbook.wellFormed hI.1, hI.2.bookkeeping hbook⟩)
    (fun signee p₁ p₂ hheader hbook hpay hI => ⟨?_, ?_⟩)
    (fun _ _ _ _ he hI => ⟨evaluateLedger_wellFormed he hI.1,
      hI.2.moves (evaluateLedger_moves he hI.1)⟩)
    (fun _ _ hrewarded hI => ⟨hrewarded.wellFormed hI.1, hI.2.rewarded hrewarded⟩) hs).2
  · exact (PendingState.payDelegate_effect hpay
      (Ledger.assets_of_bookkeeping hbook)).wellFormed hI.1
  · exact payDelegate_sound hpay hs.1 hbook
      (fun payee hpayee => hstands payee (ChainState.verifyHeader_payee hheader hpayee)) hI.2

/-! ## Genesis -/

namespace GenesisState

/-- The accounts after the loop over the delegates: under their ids, up to the last one, and not yet
paid.  Nothing else is there. -/
structure Seated (d : ChainTables) (last : AccountId) : Prop where
  accounts : d.accounts.All fun id r => r.id = id ∧ id ≤ last ∧ r.payBalance = 0
  assets : d.assets = ∅
  games : d.games = ∅
  slates : d.slates = ∅
  balances : d.balances = ∅
  packets : d.packets = ∅
  operationRewards : d.operationRewards = ∅

theorem addDelegates_seated {timestamp : Time} {l : List GenesisDelegate}
    {s s' : ChainTables × AccountId} (h : l.foldlM (addDelegate timestamp) s = .ok s')
    (hs : Seated s.1 s.2) : Seated s'.1 s'.2 := by
  refine foldlM_induction (fun s => Seated s.1 s.2) (fun d _ m m' hm h => ?_) h hs
  simp only [addDelegate, delegateRecord, AccountRecord.setActiveKey, bind_eq_ok, require_eq_ok,
    pure_eq_ok, exists_and_left, exists_const] at h
  obtain ⟨r, ⟨-, rfl⟩, rfl⟩ := h
  refine { hm with accounts := Table.All.insert (fun id r hr => ?_) ⟨rfl, Int.le_refl _, rfl⟩ }
  obtain ⟨hid, hle, hpay⟩ := hm.accounts id r hr
  exact ⟨hid, Int.le_trans hle (by dsimp only; omega), hpay⟩

theorem addInitialBalances_rest {f : AddressFormats} {timestamp : Time} {l : List GenesisBalance}
    {s s' : ChainTables × ShareType} (h : l.foldlM (addInitialBalance f timestamp) s = .ok s')
    (hs : s.1.balances.All fun id r => r.id = id) :
    s'.1 = { s.1 with balances := s'.1.balances } ∧ s'.1.balances.All fun id r => r.id = id := by
  refine foldlM_induction (fun m => m.1 = { s.1 with balances := m.1.balances } ∧
    m.1.balances.All fun id r => r.id = id) (fun g _ m m' hm h => ?_) h ⟨rfl, hs⟩
  simp only [addInitialBalance, bind_eq_ok, pure_eq_ok] at h
  obtain ⟨owner, -, rfl⟩ := h
  exact ⟨by dsimp only; rw [hm.1], hm.2.insert rfl⟩

theorem addVestingBalances_rest {f : AddressFormats} {v : GenesisVestingBalances}
    {l : List GenesisBalance} {s s' : ChainTables × ShareType}
    (h : l.foldlM (addVestingBalance f v) s = .ok s')
    (hs : s.1.balances.All fun id r => r.id = id) :
    s'.1 = { s.1 with balances := s'.1.balances } ∧ s'.1.balances.All fun id r => r.id = id := by
  refine foldlM_induction (fun m => m.1 = { s.1 with balances := m.1.balances } ∧
    m.1.balances.All fun id r => r.id = id) (fun g _ m m' hm h => ?_) h ⟨rfl, hs⟩
  simp only [addVestingBalance, bind_eq_ok, pure_eq_ok] at h
  obtain ⟨owner, -, rfl⟩ := h
  refine ⟨by dsimp only; rw [hm.1], ?_⟩
  dsimp only
  split
  · exact (hm.2.insert rfl).erase _
  · exact hm.2.insert rfl

/-- **The start** is well formed, and nobody has been paid. -/
theorem initializeGenesis_sound {f : AddressFormats} {config : GenesisState} {chainId : Digest}
    {statisticsEnabled : Bool} {t : ChainTables}
    (h : config.initializeGenesis f chainId statisticsEnabled = .ok t) :
    t.ledger.WellFormed ∧ PaySound t.accounts := by
  simp only [initializeGenesis, bind_eq_ok, require_eq_ok, pure_eq_ok] at h
  obtain ⟨-, -, ⟨d, last⟩, hd, s, hs, s', hs', rfl⟩ := h
  have hseated : Seated d last := addDelegates_seated hd
    ⟨.of_empty rfl, rfl, rfl, rfl, rfl, rfl, rfl⟩
  obtain ⟨hrest, hids⟩ := addInitialBalances_rest hs (.of_empty hseated.balances)
  obtain ⟨hrest', hids'⟩ := addVestingBalances_rest hs' hids
  rw [hrest] at hrest'
  have haccounts : s'.1.accounts = d.accounts := congrArg (·.accounts) hrest'
  have hassets : s'.1.assets = ∅ := (congrArg (·.assets) hrest').trans hseated.assets
  have hrewards : s'.1.operationRewards = ∅ :=
    (congrArg (·.operationRewards) hrest').trans hseated.operationRewards
  have hpackets : s'.1.packets = ∅ := (congrArg (·.packets) hrest').trans hseated.packets
  constructor
  · exact {
      accounts := fun id r hr => (hseated.accounts id r (haccounts ▸ hr)).1
      assets := Table.All.insert (.of_empty hassets) (by rfl)
      games := .of_empty ((congrArg (·.games) hrest').trans hseated.games)
      slates := .of_empty ((congrArg (·.slates) hrest').trans hseated.slates)
      balances := hids'
      packets := .of_empty hpackets
      operationRewards := Table.All.insert (.of_empty hrewards) (by rfl)
      packetAsset := .of_empty hpackets
      lastAccountId := fun id r hr m hm => by
        have hle := (hseated.accounts id r (haccounts ▸ hr)).2.1
        simp only [Ledger.counter, LedgerTables.ledger] at hm
        simp at hm
        exact hm ▸ hle
      lastAssetId := fun m hm => by
        simp only [Ledger.counter, LedgerTables.ledger] at hm
        simp at hm
        exact hm ▸ Int.le_refl 0 }
  · intro id r hr
    obtain ⟨-, -, hpay⟩ := hseated.accounts id r (haccounts ▸ hr)
    rw [hpay]
    exact ⟨by decide, fun _ => rfl⟩

end GenesisState

/-! ## Runs -/

/-- **No stranded pay.**  From genesis on, as long as no block is signed with the key of a retracted
account, no retracted account has pay left. -/
theorem retracted_pay_zero {f : AddressFormats} {config : GenesisState} {chainId : Digest}
    {statisticsEnabled : Bool} {s s' : ChainState}
    (hgenesis : config.initializeGenesis f chainId statisticsEnabled = .ok s.tables)
    (hrun : ExtendsWhile ChainState.PaysStanding s s') {id : AccountId} {r : AccountRecord}
    (hr : s'.tables.accounts.lookup id = some r) (hretracted : r.isRetracted) :
    r.payBalance = 0 := by
  have hsound := hrun.induction (P := fun d => d.ledger.WellFormed ∧ PaySound d.accounts)
    (fun _ _ _ _ hstands h => extendChain_paySound h hstands)
    (GenesisState.initializeGenesis_sound hgenesis)
  exact (hsound.2 id r hr).2 hretracted

end

/-! ## A delegate that leaves before its slot -/

def roundConfig : GenesisState where
  timestamp := 100
  delegates := (List.range NUM_DELEGATES).map fun i => ⟨"delegate" ++ toString i, i + 1⟩
  initialBalances := [⟨"a", 2000000⟩]
  sharedropBalances := { startTime := 100, vestingBalances := [] }

def leaving [Crypto] : SignedTransaction where
  expiration := 2000
  operations := [.withdraw ⟨Crypto.getAddress (.withSignature 1 0 0), 2000000⟩,
    .updateAccount { accountId := 2, activeKey := some nullKey, delegatePayRate := 100 }]
  signatures := [1, 2]

/-- The block of the delegate with the key `key`. -/
def roundBlock (num : BlockNum) (previous : BlockId) (timestamp : Time) (key : PublicKey)
    (trxs : List SignedTransaction) : FullBlock :=
  { soloBlock num previous timestamp trxs with delegateSignature := key }

theorem leaving_evaluates :
    letI := Crypto.transparent
    ∃ (t : ChainTables) (payee : AccountRecord) (m s' : ChainState),
      (roundConfig.initializeGenesis lengthFormats 0 false = .ok t ∧ t.slotPayee 1010 = .ok payee ∧
        ChainState.extendChain { tables := t } { clock := 1010 }
          (roundBlock 1 nullId 1010 1 [leaving]) = .ok m ∧
        m.extendChain { clock := 1020 } (roundBlock 2 m.headId 1020 2 []) = .ok s') ∧
      (payee.isRetracted = false ∧ payee.payBalance.toInt ≤ 2 ^ 62) ∧
      (m.tables.accounts.lookup 2).any (·.isRetracted) ∧
      (s'.tables.accounts.lookup 2).any fun r =>
        r.isRetracted ∧ r.isDelegate ∧ r.payBalance = 32 := by
  let := Crypto.transparent
  obtain ⟨x, h, hx⟩ := exists_ok_of_any
    (x := do
      let t ← roundConfig.initializeGenesis lengthFormats 0 false
      let payee ← t.slotPayee 1010
      let m ← ChainState.extendChain { tables := t } { clock := 1010 }
        (roundBlock 1 nullId 1010 1 [leaving])
      let s' ← m.extendChain { clock := 1020 } (roundBlock 2 m.headId 1020 2 [])
      return (payee, m, s'))
    (p := fun x => (x.1.isRetracted = false ∧ x.1.payBalance.toInt ≤ 2 ^ 62) ∧
      (x.2.1.tables.accounts.lookup 2).any (·.isRetracted) ∧
      (x.2.2.tables.accounts.lookup 2).any fun r =>
        r.isRetracted ∧ r.isDelegate ∧ r.payBalance = 32) (by decide +kernel)
  simp only [bind_eq_ok, pure_eq_ok] at h
  obtain ⟨t, hgenesis, payee, hslot, m, hfirst, s', hsecond, rfl⟩ := h
  exact ⟨t, payee, m, s', ⟨hgenesis, hslot, hfirst, hsecond⟩, hx⟩

theorem retracted_pay_zero_leaving :
    letI := Crypto.transparent
    ∃ (s s' : ChainState) (r : AccountRecord),
      roundConfig.initializeGenesis lengthFormats 0 false = .ok s.tables ∧
      ExtendsWhile ChainState.PaysStanding s s' ∧ s'.tables.accounts.lookup 2 = some r ∧
      r.isRetracted ∧ r.payBalance = 0 := by
  let := Crypto.transparent
  obtain ⟨t, payee, m, -, ⟨hgenesis, hslot, hfirst, -⟩, hstanding, hretracted, -⟩ :=
    leaving_evaluates
  obtain ⟨r, hr, hretracted⟩ := (Option.any_eq_true _ _).1 hretracted
  have hstands : ChainState.PaysStanding { tables := t } { clock := 1010 }
      (roundBlock 1 nullId 1010 1 [leaving]) := by
    intro payee' hpayee'
    change t.slotPayee 1010 = .ok payee' at hpayee'
    rw [hslot] at hpayee'
    cases hpayee'
    exact hstanding
  have hrun : ExtendsWhile ChainState.PaysStanding { tables := t } m :=
    .extend .refl hstands hfirst
  exact ⟨{ tables := t }, m, r, hgenesis, hrun, hr, hretracted,
    retracted_pay_zero hgenesis hrun hr hretracted⟩

/-- **Stranded pay.**  Delegate 2 is retracted in the first block, when it has no pay, and signs the
second one. -/
theorem pay_stranded :
    letI := Crypto.transparent
    ∃ t m s', roundConfig.initializeGenesis lengthFormats 0 false = .ok t ∧
      ChainState.extendChain { tables := t } { clock := 1010 }
        (roundBlock 1 nullId 1010 1 [leaving]) = .ok m ∧
      m.extendChain { clock := 1020 } (roundBlock 2 m.headId 1020 2 []) = .ok s' ∧
      ∃ r, s'.tables.accounts.lookup 2 = some r ∧ r.isRetracted ∧ r.isDelegate ∧
        r.payBalance = 32 := by
  let := Crypto.transparent
  obtain ⟨t, -, m, s', ⟨hgenesis, -, hfirst, hsecond⟩, -, -, hpaid⟩ := leaving_evaluates
  obtain ⟨r, hr, hstranded⟩ := exists_some_of_any hpaid
  exact ⟨t, m, s', hgenesis, hfirst, hsecond, r, hr, hstranded⟩

end BitShares
