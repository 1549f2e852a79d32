import BitShares.Chain.Proof.Apply
import BitShares.Chain.Run

/-!
# Delegate election

The vote set of the database lists the delegates that stand, by votes.

* `ChainTables.Elects`: the vote set is exact.  `Elects.storeAccount` and `Elects.removeAccount` keep
  it, so every batch of account records does (`Elects.applyChanges`).
* `Elected.run`: it is exact in every state that blocks and pops lead to.
* `shuffle_perm`: the shuffle of a round permutes.
* `delegateElection`: the active delegates of a round are the first of the vote set.
-/

namespace BitShares

open PendingState

variable [Crypto]

/-! ## The vote set -/

def AccountRecord.Stands (r : AccountRecord) : Prop := r.isDelegate = true ∧ r.isRetracted = false

/-- **The vote set is exact**: its keys are the votes of the delegates that stand. -/
def ChainTables.Elects (d : ChainTables) : Prop :=
  ∀ k, d.delegateVotes.mem k = true ↔
    ∃ id r, d.accounts.lookup id = some r ∧ r.Stands ∧ k = rankKey r.netVotes id

omit [Crypto] in
theorem rankKey_inj {x y : ShareType} {id id' : AccountId} (h : rankKey x id = rankKey y id') :
    x = y ∧ id = id' := by
  simp only [rankKey, EmbeddingLike.apply_eq_iff_eq, Prod.mk.injEq, neg_inj] at h
  exact ⟨Int64.toInt_inj.1 h.1, h.2⟩

omit [Crypto] in
theorem AccountRecord.droppedVotes_eq_some {old r : AccountRecord} {k : ℤ ×ₗ ℤ} :
    old.droppedVotes r = some k ↔ (old.Stands ∧ ¬ (r.Stands ∧ old.netVotes = r.netVotes)) ∧
      rankKey old.netVotes old.id = k := by
  unfold droppedVotes Stands
  cases old.isDelegate <;> cases old.isRetracted <;> cases r.isDelegate <;> cases r.isRetracted <;>
    simp

omit [Crypto] in
theorem OrdSet.mem_eraseOpt {K : Type} [LinearOrder K] {s : OrdSet K} {o : Option K} {k : K} :
    (s.eraseOpt o).mem k = true ↔ o ≠ some k ∧ s.mem k = true := by
  cases o with
  | none => simp [eraseOpt]
  | some k' =>
    rw [eraseOpt, mem_erase, Ne, Ne, Option.some.injEq, eq_comm]

namespace ChainTables

theorem mem_storeAccount (d : ChainTables) (id : AccountId) (r : AccountRecord) (k : ℤ ×ₗ ℤ) :
    (d.storeAccount id r).delegateVotes.mem k = true ↔
      r.Stands ∧ k = rankKey r.netVotes id ∨
        (d.accounts.lookup id).bind (·.droppedVotes r) ≠ some k ∧ d.delegateVotes.mem k = true := by
  rw [← OrdSet.mem_eraseOpt]
  unfold storeAccount AccountRecord.Stands
  dsimp only
  cases r.isDelegate <;> cases r.isRetracted <;> simp [OrdSet.mem_insert]

theorem Elects.storeAccount {d : ChainTables} (h : d.Elects)
    (hown : d.accounts.All fun id r => r.id = id) (id : AccountId) (r : AccountRecord) :
    (d.storeAccount id r).Elects := by
  intro k
  have hlookup : ∀ id', (d.storeAccount id r).accounts.lookup id' =
      if id' = id then some r else d.accounts.lookup id' := fun _ => Table.lookup_insert_eq _ _ _ _
  rw [mem_storeAccount]
  constructor
  · rintro (⟨hr, rfl⟩ | ⟨hkept, hmem⟩)
    · exact ⟨id, r, by rw [hlookup, if_pos rfl], hr, rfl⟩
    · obtain ⟨id₀, old, hold, hstands, rfl⟩ := (h k).1 hmem
      by_cases hid : id₀ = id
      · subst hid
        -- a key that is not dropped is that of the new record too
        rw [hold, Option.bind_some, Ne, AccountRecord.droppedVotes_eq_some, hown id₀ old hold] at hkept
        obtain ⟨hr, hvotes⟩ := not_not.1 fun hne => hkept ⟨⟨hstands, hne⟩, rfl⟩
        exact ⟨id₀, r, by rw [hlookup, if_pos rfl], hr, by rw [hvotes]⟩
      · exact ⟨id₀, old, by rw [hlookup, if_neg hid, hold], hstands, rfl⟩
  · rintro ⟨id', r', hr', hstands, rfl⟩
    rw [hlookup] at hr'
    by_cases hid : id' = id
    · rw [if_pos hid] at hr'
      cases hr'
      exact .inl ⟨hstands, by rw [hid]⟩
    · rw [if_neg hid] at hr'
      refine .inr ⟨fun hdrop => hid ?_, (h _).2 ⟨id', r', hr', hstands, rfl⟩⟩
      obtain ⟨old, hold, hdrop⟩ := Option.bind_eq_some_iff.1 hdrop
      have hkey := (AccountRecord.droppedVotes_eq_some.1 hdrop).2
      rw [← (rankKey_inj hkey).2, hown id old hold]

theorem Elects.removeAccount {d : ChainTables} (h : d.Elects)
    (hown : d.accounts.All fun id r => r.id = id) (id : AccountId) : (d.removeAccount id).Elects := by
  intro k
  have hlookup : ∀ id', (d.removeAccount id).accounts.lookup id' =
      if id' = id then none else d.accounts.lookup id' := by
    intro id'
    rw [accounts_removeAccount, Table.lookup_erase_eq]
  cases hold : d.accounts.lookup id with
  | none =>
    have hsame : d.removeAccount id = d := by rw [ChainTables.removeAccount, hold]
    rw [hsame]
    exact h k
  | some old =>
    have hmem : (d.removeAccount id).delegateVotes.mem k = true ↔
        ¬ (old.Stands ∧ k = rankKey old.netVotes id) ∧ d.delegateVotes.mem k = true := by
      rw [ChainTables.removeAccount, hold]
      unfold AccountRecord.Stands
      dsimp only
      cases old.isDelegate <;> cases old.isRetracted <;> simp [OrdSet.mem_erase, hown id old hold]
    rw [hmem, h k]
    constructor
    · rintro ⟨hkept, id', r', hr', hstands, rfl⟩
      by_cases hid : id' = id
      · subst hid
        cases hold.symm.trans hr'
        exact absurd ⟨hstands, rfl⟩ hkept
      · exact ⟨id', r', by rw [hlookup, if_neg hid, hr'], hstands, rfl⟩
    · rintro ⟨id', r', hr', hstands, rfl⟩
      rw [hlookup] at hr'
      by_cases hid : id' = id
      · rw [if_pos hid] at hr'
        cases hr'
      · rw [if_neg hid] at hr'
        exact ⟨fun hkey => hid (rankKey_inj hkey.2).2, id', r', hr', hstands, rfl⟩

structure Elected (d : ChainTables) : Prop where
  elects : d.Elects
  own : d.accounts.All fun id r => r.id = id

theorem Elected.storeAccount {d : ChainTables} (h : d.Elected) {id : AccountId}
    {r : AccountRecord} (hr : r.id = id) : (d.storeAccount id r).Elected :=
  ⟨h.elects.storeAccount h.own id r, h.own.insert hr⟩

theorem Elected.removeAccount {d : ChainTables} (h : d.Elected) (id : AccountId) :
    (d.removeAccount id).Elected := by
  refine ⟨h.elects.removeAccount h.own id, ?_⟩
  rw [accounts_removeAccount]
  intro id' r hr
  rw [Table.lookup_erase_eq] at hr
  split at hr
  · cases hr
  · exact h.own id' r hr

/-- **A batch** of accounts under their own ids keeps the vote set exact. -/
theorem Elected.applyChanges {d : ChainTables} (h : d.Elected) {c : Batch}
    (hc : ∀ id r, c.accounts.stored.lookup id = some r → r.id = id) (n : BlockNum) :
    (c.applyChanges n d).Elected := by
  have hremoved : ∀ (l : List AccountId) (d : ChainTables), d.Elected →
      (l.foldl ChainTables.removeAccount d).Elected := by
    intro l
    induction l with
    | nil => exact fun _ h => h
    | cons id l ih => exact fun d h => ih _ (h.removeAccount id)
  have hstored : ∀ (l : List (Sigma fun _ : AccountId => AccountRecord)) (d : ChainTables),
      (∀ e ∈ l, e.2.id = e.1) → d.Elected →
      (l.foldl (fun d e => d.storeAccount e.1 e.2) d).Elected := by
    intro l
    induction l with
    | nil => exact fun _ _ h => h
    | cons e l ih =>
      intro d hl h
      exact ih _ (fun e' he' => hl e' (List.mem_cons_of_mem _ he'))
        (h.storeAccount (hl e List.mem_cons_self))
  have hbatch : (c.accounts.applyRecords ChainTables.removeAccount ChainTables.storeAccount d).Elected :=
    hstored _ _ (fun e he => hc e.1 e.2 (AList.mem_lookup_iff.2 he)) (hremoved _ _ h)
  have hvotes : (c.applyChanges n d).delegateVotes =
      (c.accounts.applyRecords ChainTables.removeAccount ChainTables.storeAccount d).delegateVotes := by
    rw [Batch.applyChanges_eq]
    rfl
  have haccounts : (c.applyChanges n d).accounts =
      (c.accounts.applyRecords ChainTables.removeAccount ChainTables.storeAccount d).accounts := by
    rw [Batch.applyChanges_eq, ← Batch.accountTables_accounts]
    rfl
  refine ⟨fun k => ?_, ?_⟩
  · rw [hvotes, haccounts]
    exact hbatch.elects k
  · rw [haccounts]
    exact hbatch.own

end ChainTables

/-! ## Every state of a run -/

structure ChainState.Elected (s : ChainState) : Prop where
  votes : s.tables.Elected
  assets : s.tables.assets.All fun id r => r.id = id
  undoAccounts : ∀ id u, s.undoStates.lookup id = some u →
    ∀ k r, u.accounts.stored.lookup k = some r → r.id = k
  undoAssets : ∀ id u, s.undoStates.lookup id = some u →
    ∀ k r, u.assets.stored.lookup k = some r → r.id = k

theorem evaluateBlock_ownIds {s : ChainState} {cfg : NodeConfig} {b : FullBlock} {p : PendingState}
    (h : s.evaluateBlock cfg b = .ok p) (hs : s.tables.ledger.OwnIds) : p.ledger.view.OwnIds := by
  refine evaluateBlock_induction (I := Ledger.OwnIds) h (fun _ h => h.assets)
    (fun L L' hbook hL => ?_) (fun L L' hpaid hL => ?_)
    (fun trx _ q e he hq => evaluateLedger_ownIds he hq) (fun L L' hreward hL => ?_) hs
  · cases hbook with
    | account _ _ _ => exact hL.storeAccount _
    | property v _ _ => exact ⟨hL.accounts, hL.assets⟩
  · cases hpaid
    exact (hL.storeAccount _).storeAsset _
  · obtain ⟨now, -, -⟩ := hreward
    have hcredit : ∀ (l : List (Address × ShareType)) (L : Ledger), L.OwnIds →
        (L.creditAll now l).OwnIds := by
      intro l
      induction l with
      | nil => exact fun _ h => h
      | cons e l ih => exact fun L hL => ih _ ⟨hL.accounts, hL.assets⟩
    exact ⟨(hcredit _ _ hL).accounts, (hcredit _ _ hL).assets⟩

namespace ChainState.Elected

variable {s s' : ChainState}

omit [Crypto] in
theorem ownIds (h : s.Elected) : s.tables.ledger.OwnIds := ⟨h.votes.own, h.assets⟩

theorem extendChain (h : s.Elected) {cfg : NodeConfig} {b : FullBlock}
    (hb : s.extendChain cfg b = .ok s') : s'.Elected := by
  obtain ⟨p, hp, hcommit⟩ := extendChain_eq_ok hb
  obtain ⟨m, hm, hs'⟩ := commitBlock_eq_ok hcommit
  have hown := evaluateBlock_ownIds hp h.ownIds
  have hover := evaluateBlock_over hp
  have haccounts : p.ledger.accounts.prev = s.tables.accounts :=
    congrArg LedgerTables.accounts hover.ledger
  have hassets : p.ledger.assets.prev = s.tables.assets :=
    congrArg LedgerTables.assets hover.ledger
  -- what the block stores, and what its undo state stores
  have hstored : ∀ k r, p.batch.accounts.stored.lookup k = some r → r.id = k := by
    intro k r hr
    refine hown.accounts k r ?_
    exact (Layered.lookup_eq _ _).symm.trans (Layered.lookup_of_stored hr)
  have hundoAccounts : ∀ k r, (p.buildUndoState s.tables).accounts.stored.lookup k = some r →
      r.id = k := fun k r hr => h.votes.own k r (haccounts ▸ Layered.undo_stored hr)
  have hundoAssets : ∀ k r, (p.buildUndoState s.tables).assets.stored.lookup k = some r →
      r.id = k := fun k r hr => h.assets k r (hassets ▸ Layered.undo_stored hr)
  have htables := h.votes.applyChanges hstored s.head.blockNum
  rw [hs']
  refine ⟨⟨fun k => htables.elects k, htables.own⟩, ?_, fun id u hu => ?_, fun id u hu => ?_⟩
  · have hledger := hover.applyChanges_ledger s.head.blockNum
    have heq : (p.batch.applyChanges s.head.blockNum s.tables).assets = p.ledger.view.assets :=
      congrArg Ledger.assets hledger
    change (p.batch.applyChanges s.head.blockNum s.tables).assets.All _
    rw [heq]
    exact hown.assets
  · rcases saveUndoState_mem hm hu with hold | ⟨-, rfl⟩
    · exact h.undoAccounts id u hold
    · exact hundoAccounts
  · rcases saveUndoState_mem hm hu with hold | ⟨-, rfl⟩
    · exact h.undoAssets id u hold
    · exact hundoAssets

theorem popBlock (h : s.Elected) (hpop : s.popBlock = .ok s') : s'.Elected := by
  unfold ChainState.popBlock at hpop
  split at hpop
  · cases hpop
    exact h
  · simp only [bind_eq_ok, expect_eq_ok, pure_eq_ok] at hpop
    obtain ⟨u, hu, head, -, rfl⟩ := hpop
    refine ⟨h.votes.applyChanges (h.undoAccounts _ u hu) _, ?_, h.undoAccounts, h.undoAssets⟩
    dsimp only
    rw [Batch.applyChanges_eq]
    intro id r hr
    change (u.assets.applyTo s.tables.assets).lookup id = some r at hr
    rw [Overlay.lookup_applyTo, Overlay.read] at hr
    split at hr
    · rename_i v hv
      cases hr
      exact h.undoAssets _ u hu id r hv
    · split at hr
      · cases hr
      · exact h.assets id r hr

theorem run (h : s.Elected) (hrun : ChainRun s s') : s'.Elected := by
  induction hrun with
  | refl => exact h
  | extend _ hb ih => exact ih.extendChain hb
  | pop _ hpop ih => exact ih.popBlock hpop
  | arrive blocks _ ih => exact ⟨ih.votes, ih.assets, ih.undoAccounts, ih.undoAssets⟩

end ChainState.Elected

/-! ## Genesis -/

/-- The accounts of `initialize_genesis` are stored one after the other into an empty database, and
the only asset is the base asset. -/
structure ChainTables.AtGenesis (d : ChainTables) : Prop where
  accounts : ∃ delegates : List AccountRecord, ChainTables.accountPart.get d =
    ChainTables.accountPart.get (delegates.foldl (fun d r => d.storeAccount r.id r) {})
  assets : ∃ base : AssetRecord, base.id = 0 ∧ d.assets = Finmap.singleton 0 base

theorem ChainTables.AtGenesis.elected {d : ChainTables} (h : d.AtGenesis) :
    ChainState.Elected { tables := d } := by
  obtain ⟨⟨delegates, haccounts⟩, base, hbase, hassets⟩ := h
  have hempty : ChainTables.Elected {} := by
    refine ⟨fun k => ⟨fun hk => (by cases hk), ?_⟩, fun id r hr => (by cases hr)⟩
    rintro ⟨id, r, hr, -⟩
    cases hr
  have hstored : ∀ (l : List AccountRecord) (d : ChainTables), d.Elected →
      (l.foldl (fun d r => d.storeAccount r.id r) d).Elected := by
    intro l
    induction l with
    | nil => exact fun _ h => h
    | cons r l ih => exact fun d h => ih _ (h.storeAccount rfl)
  have hfinal := hstored delegates {} hempty
  have hrecords := congrArg AccountTables.accounts haccounts
  have hvotes := congrArg AccountTables.delegateVotes haccounts
  change d.accounts = _ at hrecords
  change d.delegateVotes = _ at hvotes
  refine ⟨⟨fun k => ?_, ?_⟩, ?_, fun id u hu => (by cases hu), fun id u hu => (by cases hu)⟩
  · dsimp only
    rw [hvotes, hrecords]
    exact hfinal.elects k
  · dsimp only
    rw [hrecords]
    exact hfinal.own
  · intro id r hr
    dsimp only at hr
    rw [hassets] at hr
    obtain ⟨rfl, rfl⟩ := Table.eq_of_lookup_singleton hr
    exact hbase

/-! ## The round -/

omit [Crypto] in
theorem swapAt_perm (l : List AccountId) (i j : Nat) : (swapAt l i j).Perm l := by
  unfold swapAt
  split
  · rename_i x y hx hy
    obtain ⟨hi, rfl⟩ := List.getElem?_eq_some_iff.1 hx
    obtain ⟨hj, rfl⟩ := List.getElem?_eq_some_iff.1 hy
    exact List.set_set_perm hi hj
  · exact .refl l

/-- **The shuffle permutes**, whatever the seed. -/
theorem shuffle_perm (seed : Nat) (delegates : List AccountId) :
    (shuffle seed delegates).Perm delegates := by
  have hfold : ∀ (is : List Nat) (f : Nat → Nat) (l : List AccountId),
      (is.foldl (fun l i => swapAt l i (f i)) l).Perm l := by
    intro is f
    induction is with
    | nil => exact fun l => .refl l
    | cons i is ih => exact fun l => (ih _).trans (swapAt_perm l i (f i))
  exact hfold _ _ _

structure ChainTables.ElectedList (d : ChainTables) (l : List AccountId) : Prop where
  perm : l.Perm ((d.delegateVotes.toList.take NUM_DELEGATES).map fun k => (ofLex k).2)
  length : l.length = min NUM_DELEGATES d.delegateVotes.toList.length
  nodup : l.Nodup
  stands : ∀ id ∈ l, ∃ r, d.accounts.lookup id = some r ∧ r.Stands

theorem ChainTables.Elects.electedList {d : ChainTables} (h : d.Elects) (seed : Nat) :
    d.ElectedList
      (shuffle seed ((d.delegateVotes.toList.take NUM_DELEGATES).map fun k => (ofLex k).2)) := by
  have hperm := shuffle_perm seed
    ((d.delegateVotes.toList.take NUM_DELEGATES).map fun k => (ofLex k).2)
  have hkey : ∀ k ∈ d.delegateVotes.toList.take NUM_DELEGATES,
      ∃ r, d.accounts.lookup (ofLex k).2 = some r ∧ r.Stands ∧
        k = rankKey r.netVotes (ofLex k).2 := by
    intro k hk
    obtain ⟨id, r, hr, hstands, rfl⟩ := (h k).1 (OrdSet.mem_toList.1 (List.mem_of_mem_take hk))
    exact ⟨r, hr, hstands, rfl⟩
  refine ⟨hperm, ?_, ?_, fun id hid => ?_⟩
  · rw [hperm.length_eq, List.length_map, List.length_take]
  · refine hperm.nodup_iff.2 (List.Nodup.map_on (fun k hk k' hk' heq => ?_)
      (d.delegateVotes.nodup_toList.sublist (List.take_sublist _ _)))
    obtain ⟨r, hr, -, hkr⟩ := hkey k hk
    obtain ⟨r', hr', -, hkr'⟩ := hkey k' hk'
    rw [heq, hr'] at hr
    cases hr
    rw [hkr, hkr', heq]
  · obtain ⟨k, hk, rfl⟩ := List.mem_map.1 (hperm.mem_iff.1 hid)
    obtain ⟨r, hr, hstands, -⟩ := hkey k hk
    exact ⟨r, hr, hstands⟩

theorem updateActiveDelegateList_elected {d : ChainTables} (h : d.Elects) (p : PendingState)
    {n : BlockNum} (hn : n % NUM_DELEGATES = 0) :
    ∃ l, (p.updateActiveDelegateList d n).ledger.view.properties.lookup .activeDelegateListId =
      some (.ids l) ∧ d.ElectedList l := by
  refine ⟨_, ?_, h.electedList (currentRandomSeed p.ledger.properties.lookup)⟩
  rw [updateActiveDelegateList, if_neg (not_not.2 hn)]
  dsimp only
  rw [PendingLedger.view_storePropertyRecord]
  exact Finmap.lookup_insert _

theorem Ledger.properties_creditAll (L : Ledger) (now : Time)
    (l : List (Address × ShareType)) : (L.creditAll now l).properties = L.properties := by
  induction l generalizing L with
  | nil => rfl
  | cons e l ih => exact ih _

theorem Ledger.Rewarded.properties {L L' : Ledger} (h : L.Rewarded L') :
    L'.properties = L.properties := by
  obtain ⟨now, -, -⟩ := h
  exact L.properties_creditAll now _

theorem extendChain_elected {s s' : ChainState} {cfg : NodeConfig} {b : FullBlock}
    (hs : s.tables.Elects) (h : s.extendChain cfg b = .ok s')
    (hn : b.blockNum % NUM_DELEGATES = 0) :
    ∃ l, s'.tables.properties.lookup .activeDelegateListId = some (.ids l) ∧
      s.tables.ElectedList l := by
  obtain ⟨p, hp, hledger⟩ := extendChain_ledger h
  obtain ⟨signee, p₁, p₂, p₃, p₄, -, -, -, -, -, h₅⟩ := evaluateBlock_phases hp
  obtain ⟨l, hl, helected⟩ := updateActiveDelegateList_elected hs p₄ hn
  refine ⟨l, ?_, helected⟩
  have hproperties : s'.tables.properties =
      (p.ledger.view.setProperty .dirtyMarkets (.markets [])).properties :=
    congrArg Ledger.properties hledger
  have hseed : ((p₄.updateActiveDelegateList s.tables b.blockNum).updateRandomSeed
      b.previousSecret).ledger.view.properties.lookup .activeDelegateListId = some (.ids l) := by
    rw [updateRandomSeed]
    dsimp only
    rw [PendingLedger.view_storePropertyRecord, Ledger.setProperty,
      Finmap.lookup_insert_of_ne _ (by decide), hl]
  rw [hproperties, Ledger.setProperty, Finmap.lookup_insert_of_ne _ (by decide)]
  rcases (payOperationRewards_effect h₅).1 with hsame | hrewarded
  · rw [hsame]
    exact hseed
  · rw [hrewarded.properties]
    exact hseed

/-- **Delegate election.**  In every state that blocks and pops lead to from genesis, the vote set
lists exactly the delegates that stand, by their votes; and at a round boundary the active delegates
are its first entries in some order. -/
theorem delegateElection {d : ChainTables} (hd : d.AtGenesis) {s : ChainState}
    (hrun : ChainRun { tables := d } s) :
    s.tables.Elects ∧
    (∀ (p : PendingState) (n : BlockNum), n % NUM_DELEGATES = 0 → ∃ l,
      (p.updateActiveDelegateList s.tables n).ledger.view.properties.lookup .activeDelegateListId =
        some (.ids l) ∧ s.tables.ElectedList l) ∧
    ∀ cfg b s', s.extendChain cfg b = .ok s' → b.blockNum % NUM_DELEGATES = 0 → ∃ l,
      s'.tables.properties.lookup .activeDelegateListId = some (.ids l) ∧
        s.tables.ElectedList l := by
  have helected := hd.elected.run hrun
  exact ⟨helected.votes.elects,
    fun p n hn => updateActiveDelegateList_elected helected.votes.elects p hn,
    fun cfg b s' h hn => extendChain_elected helected.votes.elects h hn⟩

omit [Crypto] in
/-- Block 2 is taken off, and another one is accepted. -/
theorem delegateElection_switched :
    letI := Crypto.timed
    (soloTables 100).AtGenesis ∧ ∃ s, ChainRun { tables := soloTables 100 } s ∧
      s.head.timestamp = 30 ∧ s.tables.Elects := by
  let := Crypto.timed
  have hgenesis : (soloTables 100).AtGenesis :=
    ⟨⟨[soloDelegate], rfl⟩, baseAsset 100, rfl, rfl⟩
  let start : ChainState := { tables := soloTables 100 }
  let block1 := soloBlock 1 nullId 10 []
  obtain ⟨s, hs, htime⟩ := exists_ok_of_any (p := fun s => s.head.timestamp = 30) (x := do
      let s₁ ← start.extendChain { clock := 100 } block1
      let s₂ ← { s₁ with blocks := Finmap.singleton block1.id block1 }.extendChain { clock := 100 }
        (soloBlock 2 block1.id 20 [])
      let s₃ ← s₂.popBlock
      s₃.extendChain { clock := 100 } (soloBlock 2 block1.id 30 [])) (by decide +kernel)
  simp only [bind_eq_ok] at hs
  obtain ⟨s₁, h₁, s₂, h₂, s₃, h₃, hs⟩ := hs
  have hrun : ChainRun start s := .extend (.pop (.extend (.arrive _ (.extend .refl h₁)) h₂) h₃) hs
  exact ⟨hgenesis, s, hrun, htime, (delegateElection hgenesis hrun).1⟩

end BitShares
