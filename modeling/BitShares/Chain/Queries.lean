import BitShares.Chain.Extend

/-!
# What is read off the tables

The reputation set, as `populate_indexes` builds it and `get_accounts_by_rp` reads it, and the
supply audit: `calculate_supplies` derives the supply of every asset from the tables that hold
shares.  Where the source goes through a table in no particular order, the rows are taken in
ascending order.
-/

namespace BitShares

/-! ## The reputation set -/

namespace ChainTables

/-- The reputation set that `populate_indexes` builds from the account records. -/
def populateRps (records : List AccountRecord) : OrdSet (ℤ ×ₗ ℤ) :=
  records.foldl (fun rps r => if !r.isRetracted then rps.insert (rankKey r.rp r.id) else rps) ∅

/-- `get_accounts_by_rp`, over a reputation set: from place `pos` on, with what was found before. -/
def accountsByRp (first count : Nat) :
    List (ℤ ×ₗ ℤ) → (pos : Nat) → List AccountId → List AccountId
  | [], _, found => found
  | key :: rest, pos, found =>
    if found.length < count then
      accountsByRp first count rest (pos + 1)
        (if first ≤ pos then found ++ [(ofLex key).2] else found)
    else found

def getAccountsByRp (rps : OrdSet (ℤ ×ₗ ℤ)) (first count : Nat) : List AccountId :=
  accountsByRp first count rps.toList 0 []

end ChainTables

/-! ## The supply audit -/

def MarketIndexKey.sortKey (k : MarketIndexKey) : ℤ ×ₗ ℤ ×ₗ ℕ ×ₗ ℕ :=
  toLex (k.orderPrice.quoteAssetId,
    toLex (k.orderPrice.baseAssetId, toLex (k.orderPrice.ratio, k.owner)))

theorem MarketIndexKey.sortKey_injective : Function.Injective sortKey :=
  fun ⟨⟨_, _, _⟩, _⟩ ⟨⟨_, _, _⟩, _⟩ h => by cases h; rfl

instance : LinearOrder MarketIndexKey :=
  { LinearOrder.lift' _ MarketIndexKey.sortKey_injective with
    toDecidableEq := inferInstance
    compare := fun a b => compareOfLessAndEq a.sortKey b.sortKey
    compare_eq_compareOfLessAndEq := fun a b => by
      simp only [compareOfLessAndEq, MarketIndexKey.sortKey_injective.eq_iff]
      rfl }

/-- `totals[ key ] += amount` for the entries of a list. -/
def tally {R : Type} (key : R → AssetId) (amount : R → ShareType)
    (totals : OrdMap AssetId ShareType) (l : List R) : OrdMap AssetId ShareType :=
  l.foldl (fun totals r => addTo totals (key r) (amount r)) totals

/-- The loop over the packets, whose unclaimed shares are added up on the way. -/
def tallyPackets (totals : OrdMap AssetId ShareType) (l : List (PacketId × PacketRecord)) :
    Except Error (OrdMap AssetId ShareType) :=
  l.foldlM (fun totals row => do
    let left ← row.2.leftPacketAmount
    return addTo totals row.2.amount.assetId left.amount) totals

def ChainTables.calculateSupplies (d : ChainTables) : Except Error (OrdMap AssetId ShareType) := do
  let delegates := d.accounts.rows.filterMap (·.2.delegateInfo)
  let totals := tally (fun _ => 0) DelegateStats.payBalance ∅ delegates
  let totals := tally (·.2.id) (·.2.collectedFees) totals d.assets.rows
  let totals := d.operationRewards.rows.foldl
    (fun totals row => tally (·.1) (·.2) totals row.2.fees.entries) totals
  let totals ← tallyPackets totals d.packets.rows
  let totals := tally (·.2.assetId) (·.2.balance) totals d.balances.rows
  let totals := tally (·.1.orderPrice.baseAssetId) (·.2.balance) totals d.asks.rows
  return tally (·.1.orderPrice.quoteAssetId) (·.2.balance) totals d.bids.rows

end BitShares
