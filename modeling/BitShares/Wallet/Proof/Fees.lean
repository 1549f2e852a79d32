import BitShares.Lib.Int64
import BitShares.Lib.Outcome
import BitShares.Wallet.Builder

/-!
# The fee of a built transaction

* `payFee_iff`: when `pay_fee` takes the fee as it should.  It does if the entries of the asset that
  pays reach the fee before the first negative one among them (`Covers`); a negative entry before that
  is cleared.
* `takeFee_of_covers` and `takeFee_only_covers` are the two directions for its loop.
-/

namespace BitShares

namespace OutstandingBalances

variable (m : OutstandingBalances) (a : AssetId)

def amounts : List (OutstandingKey × ShareType) → List ℤ
  | [] => []
  | (k, x) :: entries => if (ofLex k).2 = a then x.toInt :: amounts entries else amounts entries

def total : ℤ := (m.entries.map fun e => if (ofLex e.1).2 = a then e.2.toInt else 0).sum

def positiveTotal : ℤ :=
  (m.entries.map fun e => if (ofLex e.1).2 = a ∧ 0 < e.2 then e.2.toInt else 0).sum

variable {m a}

theorem total_set {k : OutstandingKey} {v : ShareType} :
    total (m.set k v) a = total m a +
      if (ofLex k).2 = a then v.toInt - (m.getD k 0).toInt else 0 := by
  rw [total, OrdMap.sum_set, OrdMap.getD]
  change total m a - _ + _ = _
  by_cases hk : (ofLex k).2 = a <;> cases m.find k <;> (simp [hk]; try omega)

end OutstandingBalances

open OutstandingBalances

namespace TransactionBuilder

/-! ## The conditions -/

/-- Amounts of which the first ones, none of them negative, reach the fee. -/
def Covers : ℤ → List ℤ → Prop
  | _, [] => False
  | fee, x :: amounts => 0 ≤ x ∧ (fee ≤ x ∧ x - fee < 2 ^ 63 ∨ x < fee ∧ Covers (fee - x) amounts)

variable (ctx : BuilderContext) (b : TransactionBuilder)

/-- The fee that is chosen: that of the first asset with positive entries that can pay it. -/
def Selected (fee : Asset) : Prop := First (offeredFee ctx) b.allPositiveBalances.entries fee

/-- All assets with positive entries before the one that is chosen have a fee. -/
def Asked : Prop :=
  (∃ fee, Selected ctx b fee) ∨ ∀ e ∈ b.allPositiveBalances.entries, offeredFee ctx e = .ok none

/-- The account and the fee that `withdraw_fee` charges: those of the first balance that can pay. -/
def Charged (holder : Address) (fee : Asset) : Prop :=
  Asked ctx b ∧ First (chargedFee ctx) (b.feeCandidates ctx) (holder, fee) ∧ 0 ≤ fee.amount

/-- The positive entries of a payable asset sum to at least its fee. -/
def Reaches : Prop :=
  ∃ a fee, ctx.assetCanPayNetworkFee a = .ok true ∧ ctx.getTransactionFee a = .ok fee ∧
    fee.amount.toInt ≤ positiveTotal b.outstandingBalances a

/-- The fee was paid: only in its asset, exactly, and by no entry that was negative. -/
structure FeePaid (b b' : TransactionBuilder) : Prop where
  exactly : total b'.outstandingBalances b'.fee.assetId =
    total b.outstandingBalances b'.fee.assetId - b'.fee.amount.toInt
  negative : ∀ k x, b.outstandingBalances.find k = some x → x.toInt < 0 →
    ∃ y, b'.outstandingBalances.find k = some y ∧ y.toInt ≤ x.toInt
  others : ∀ k, (ofLex k).2 ≠ b'.fee.assetId →
    b'.outstandingBalances.find k = b.outstandingBalances.find k

/-- The states in which `pay_fee` does what it should. -/
def FeeSecured : Prop :=
  (∃ fee, Selected ctx b fee ∧ fee.assetId ≠ -1 ∧
    Covers fee.amount.toInt (amounts fee.assetId b.outstandingBalances.entries)) ∨
  ((∀ fee, Selected ctx b fee → fee.assetId = -1) ∧
    ((∃ holder fee, Charged ctx b holder fee ∧
      -2 ^ 63 ≤ (b.outstandingBalances.getD (toLex (holder, fee.assetId)) 0).toInt -
        fee.amount.toInt) ∨
    ((∀ holder fee, ¬ Charged ctx b holder fee) ∧ ¬ Reaches ctx b)))

variable {ctx b}

/-! ## The loop -/

section Loop

variable {a : AssetId} {entries : List (OutstandingKey × ShareType)} {required : ShareType}
  {m m' : OutstandingBalances}

theorem takeFee_find_of_notMem (h : takeFee a entries required m = some m') {k : OutstandingKey}
    (hk : k ∉ entries.map (·.1)) : m'.find k = m.find k := by
  induction entries generalizing required m with
  | nil => cases h
  | cons e entries ih =>
    obtain ⟨k', x⟩ := e
    rw [List.map_cons, List.mem_cons, not_or] at hk
    rw [takeFee] at h
    split at h
    · exact ih h hk.2
    · split at h
      · rw [ih h hk.2, OrdMap.find_set, if_neg hk.1]
      · cases h
        rw [OrdMap.find_set, if_neg hk.1]

theorem takeFee_find_of_ne (h : takeFee a entries required m = some m') {k : OutstandingKey}
    (hk : (ofLex k).2 ≠ a) : m'.find k = m.find k := by
  induction entries generalizing required m with
  | nil => cases h
  | cons e entries ih =>
    obtain ⟨k', x⟩ := e
    have hne : (ofLex k').2 = a → k ≠ k' := fun hk' => by
      rintro rfl
      exact hk hk'
    rw [takeFee] at h
    split at h
    · exact ih h
    · rename_i hasset
      rw [not_not] at hasset
      split at h
      · rw [ih h, OrdMap.find_set, if_neg (hne hasset)]
      · cases h
        rw [OrdMap.find_set, if_neg (hne hasset)]

/-- The entries of the suffix that a loop still has to visit are as they were. -/
structure Unvisited (entries : List (OutstandingKey × ShareType)) (m : OutstandingBalances) :
    Prop where
  find : ∀ e ∈ entries, m.find e.1 = some e.2
  nodup : (entries.map (·.1)).Nodup

namespace Unvisited

variable {k : OutstandingKey} {x v : ShareType}

theorem head (h : Unvisited ((k, x) :: entries) m) : m.find k = some x :=
  h.find (k, x) List.mem_cons_self

theorem notMem (h : Unvisited ((k, x) :: entries) m) : k ∉ entries.map (·.1) :=
  (List.nodup_cons.1 h.nodup).1

theorem tail (h : Unvisited ((k, x) :: entries) m) : Unvisited entries m :=
  ⟨fun e he => h.find e (List.mem_cons_of_mem _ he), (List.nodup_cons.1 h.nodup).2⟩

theorem set (h : Unvisited ((k, x) :: entries) m) : Unvisited entries (m.set k v) := by
  refine ⟨fun e he => ?_, h.tail.nodup⟩
  have hne : e.1 ≠ k := fun hk => h.notMem (hk ▸ List.mem_map_of_mem he)
  rw [OrdMap.find_set, if_neg hne]
  exact h.tail.find e he

end Unvisited

theorem unvisited_entries (m : OutstandingBalances) : Unvisited m.entries m :=
  ⟨fun _ he => (m.mem_entries_iff).1 he, m.nodup_keys⟩

theorem takeFee_of_covers (hcovers : Covers required.toInt (amounts a entries))
    (hm : Unvisited entries m) :
    ∃ m', takeFee a entries required m = some m' ∧ total m' a = total m a - required.toInt ∧
      ∀ k x, m.find k = some x → x.toInt < 0 → m'.find k = some x := by
  induction entries generalizing required m with
  | nil => exact hcovers.elim
  | cons e entries ih =>
    obtain ⟨k, x⟩ := e
    have hx : m.getD k 0 = x := by rw [OrdMap.getD, hm.head, Option.getD_some]
    rw [amounts] at hcovers
    by_cases hasset : (ofLex k).2 = a
    · rw [if_pos hasset] at hcovers
      obtain ⟨hpos, hcovers⟩ := hcovers
      -- an entry that is not negative may be set to anything
      have hkeep : ∀ v k' y, m.find k' = some y → y.toInt < 0 → (m.set k v).find k' = some y := by
        intro v k' y hy hneg
        rw [OrdMap.find_set, if_neg]
        · exact hy
        · rintro rfl
          rw [hm.head, Option.some.injEq] at hy
          subst hy
          omega
      have hrequired := Int64.toInt_bounds required
      rcases hcovers with ⟨hle, hfits⟩ | ⟨hlt, hcovers⟩
      · have hsub : (x - required).toInt = x.toInt - required.toInt :=
          Int64.toInt_sub_of_bounds (by omega) hfits
        refine ⟨m.set k (x - required), ?_, ?_, hkeep _⟩
        · rw [takeFee, if_neg (not_not.2 hasset),
            if_neg (by rw [Int64.lt_iff_toInt_lt]; omega)]
        · rw [total_set, if_pos hasset, hx, hsub]
          ring
      · have hsub : (required - x).toInt = required.toInt - x.toInt :=
          Int64.toInt_sub_of_bounds (by omega) (by omega)
        obtain ⟨m', htake, htotal, hneg⟩ := @ih (required - x) _ (hsub ▸ hcovers)
          (hm.set (v := 0))
        refine ⟨m', ?_, ?_, fun k' y hy hlow => hneg k' y (hkeep 0 k' y hy hlow) hlow⟩
        · rw [takeFee, if_neg (not_not.2 hasset), if_pos (Int64.lt_iff_toInt_lt.2 hlt), htake]
        · rw [htotal, total_set, if_pos hasset, hx, hsub, Int64.toInt_zero]
          ring
    · rw [if_neg hasset] at hcovers
      obtain ⟨m', htake, hrest⟩ := ih hcovers hm.tail
      exact ⟨m', by rw [takeFee, if_pos hasset, htake], hrest⟩

theorem takeFee_only_covers (hcovers : ¬ Covers required.toInt (amounts a entries))
    (hm : Unvisited entries m) (htake : takeFee a entries required m = some m') :
    (∃ k x y, m.find k = some x ∧ x.toInt < 0 ∧ m'.find k = some y ∧ x.toInt < y.toInt) ∨
      total m' a ≠ total m a - required.toInt := by
  induction entries generalizing required m with
  | nil => cases htake
  | cons e entries ih =>
    obtain ⟨k, x⟩ := e
    have hx : m.getD k 0 = x := by rw [OrdMap.getD, hm.head, Option.getD_some]
    rw [amounts] at hcovers
    rw [takeFee] at htake
    by_cases hasset : (ofLex k).2 = a
    · rw [if_pos hasset] at hcovers
      rw [if_neg (not_not.2 hasset)] at htake
      have hrequired := Int64.toInt_bounds required
      have hbounds := Int64.toInt_bounds x
      rcases lt_or_ge x.toInt 0 with hneg | hpos
      · -- a negative entry: it is cleared, or raised by a negative fee
        refine .inl ⟨k, x, ?_⟩
        split at htake
        · rename_i hlt
          refine ⟨0, hm.head, hneg, ?_, by simpa using hneg⟩
          rw [takeFee_find_of_notMem htake hm.notMem, OrdMap.find_set, if_pos rfl]
        · rename_i hle
          rw [Int64.not_lt, Int64.le_iff_toInt_le] at hle
          have hsub : (x - required).toInt = x.toInt - required.toInt :=
            Int64.toInt_sub_of_bounds (by omega) (by omega)
          cases htake
          exact ⟨x - required, hm.head, hneg, by rw [OrdMap.find_set, if_pos rfl], by omega⟩
      · split at htake
        · rename_i hlt
          rw [Int64.lt_iff_toInt_lt] at hlt
          have hsub : (required - x).toInt = required.toInt - x.toInt :=
            Int64.toInt_sub_of_bounds (by omega) (by omega)
          have hrest : ¬ Covers (required - x).toInt (amounts a entries) := fun h =>
            hcovers ⟨hpos, .inr ⟨hlt, hsub ▸ h⟩⟩
          rcases ih hrest (hm.set (v := 0)) htake with ⟨k', y, z, hy, hrest⟩ | htotal
          · rw [OrdMap.find_set] at hy
            split at hy
            · cases hy
              exact absurd hrest.1 (by simp)
            · exact .inl ⟨k', y, z, hy, hrest⟩
          · refine .inr fun h => htotal ?_
            rw [h, total_set, if_pos hasset, hx, hsub, Int64.toInt_zero]
            ring
        · rename_i hle
          rw [Int64.not_lt, Int64.le_iff_toInt_le] at hle
          have hwrap : ¬ x.toInt - required.toInt < 2 ^ 63 := fun h => hcovers ⟨hpos, .inl ⟨hle, h⟩⟩
          have hbound := Int64.toInt_bounds (x - required)
          cases htake
          refine .inr fun h => ?_
          rw [total_set, if_pos hasset, hx] at h
          omega
    · rw [if_neg hasset] at hcovers
      rw [if_pos hasset] at htake
      exact ih hcovers hm.tail htake

end Loop

/-! ## The choice -/

theorem allPositiveBalances_getD (a : AssetId) :
    b.allPositiveBalances.getD a 0 = Int64.ofInt (positiveTotal b.outstandingBalances a) := by
  have hfold : ∀ (entries : List (OutstandingKey × ShareType)) (m : OrdMap AssetId ShareType),
      (entries.foldl (fun m e => if 0 < e.2 then addAmount m (ofLex e.1).2 e.2 else m) m).getD a 0 =
        m.getD a 0 + Int64.ofInt
          (entries.map fun e => if (ofLex e.1).2 = a ∧ 0 < e.2 then e.2.toInt else 0).sum := by
    intro entries
    induction entries with
    | nil => simp
    | cons e entries ih =>
      intro m
      rw [List.foldl_cons, ih, List.map_cons, List.sum_cons, Int64.ofInt_add, ← Int64.add_assoc]
      congr 1
      by_cases hpos : 0 < e.2
      · simp only [hpos, if_true, addAmount, OrdMap.getD_set, and_true, eq_comm (a := a)]
        split
        · rename_i h
          rw [h, Int64.ofInt_toInt]
        · simp
      · simp [hpos]
  have h := hfold b.outstandingBalances.entries ∅
  rw [show (∅ : OrdMap AssetId ShareType).getD a 0 = 0 from rfl, Int64.zero_add] at h
  exact h

theorem positiveTotal_nonneg {m : OutstandingBalances} {a : AssetId} : 0 ≤ positiveTotal m a := by
  refine List.sum_nonneg fun z hz => ?_
  obtain ⟨e, -, rfl⟩ := List.mem_map.1 hz
  split
  · rename_i h
    exact (Int64.lt_iff_toInt_lt.1 h.2).le
  · exact le_rfl

theorem bmod_le_self {z : ℤ} (h : 0 ≤ z) : z.bmod Int64.size ≤ z := by
  have hsize : Int64.size = 2 ^ 64 := rfl
  rw [hsize, Int.bmod_def]
  split <;> omega

theorem Selected.reaches {fee : Asset} (h : Selected ctx b fee) : Reaches ctx b := by
  obtain ⟨pre, ⟨a, x⟩, post, hentries, hoffer, -⟩ := h
  simp only [offeredFee, bind_eq_ok] at hoffer
  obtain ⟨payable, hpayable, hoffer⟩ := hoffer
  cases payable with
  | false => cases hoffer
  | true =>
    simp only [if_true, bind_eq_ok, pure_eq_ok] at hoffer
    obtain ⟨f, hf, hoffer⟩ := hoffer
    split at hoffer
    · rename_i hle
      refine ⟨a, f, hpayable, hf, ?_⟩
      have hx : b.allPositiveBalances.getD a 0 = x := by
        have hmem : (a, x) ∈ b.allPositiveBalances.entries := by rw [hentries]; simp
        rw [OrdMap.getD, (OrdMap.mem_entries_iff _).1 hmem, Option.getD_some]
      rw [allPositiveBalances_getD] at hx
      have hwrap : x.toInt ≤ positiveTotal b.outstandingBalances a := by
        have hpos := positiveTotal_nonneg (m := b.outstandingBalances) (a := a)
        rw [← hx, Int64.toInt_ofInt]
        exact bmod_le_self hpos
      exact (Int64.le_iff_toInt_le.1 hle).trans hwrap
    · cases hoffer

/-! ## The two ways to pay -/

theorem payFee_eq_ok_of_selected {fee : Asset} {b' : TransactionBuilder}
    (h : Selected ctx b fee) (hasset : fee.assetId ≠ -1) :
    b.payFee ctx = .ok b' ↔ ∃ m, takeFee fee.assetId b.outstandingBalances.entries fee.amount
      b.outstandingBalances = some m ∧ b' = { b with outstandingBalances := m, fee := fee } := by
  rw [payFee, bind_eq_ok]
  constructor
  · rintro ⟨chosen, hchosen, hpay⟩
    rw [findSomeM?_eq_some.2 h] at hchosen
    cases hchosen
    dsimp only [Option.getD_some] at hpay
    rw [if_pos hasset, bind_eq_ok] at hpay
    obtain ⟨m, hm, hpay⟩ := hpay
    exact ⟨m, expect_eq_ok.1 hm, (pure_eq_ok.1 hpay).symm⟩
  · rintro ⟨m, hm, rfl⟩
    refine ⟨some fee, findSomeM?_eq_some.2 h, ?_⟩
    dsimp only [Option.getD_some]
    rw [if_pos hasset, bind_eq_ok]
    exact ⟨m, expect_eq_ok.2 hm, rfl⟩

theorem withdrawFee_eq_some {b' : TransactionBuilder} :
    b.withdrawFee ctx = .ok (some b') ↔ ∃ holder fee,
      First (chargedFee ctx) (b.feeCandidates ctx) (holder, fee) ∧ 0 ≤ fee.amount ∧
      b' = { b with
        outstandingBalances := b.outstandingBalances.set (toLex (holder, fee.assetId))
          (b.outstandingBalances.getD (toLex (holder, fee.assetId)) 0 - fee.amount)
        fee := fee } := by
  rw [withdrawFee, bind_eq_ok]
  constructor
  · rintro ⟨charged, hcharged, h⟩
    cases charged with
    | none => cases h
    | some c =>
      simp only [deductBalance, bind_eq_ok, require_eq_ok, pure_eq_ok] at h
      obtain ⟨_, ⟨_, hpos, rfl⟩, h⟩ := h
      exact ⟨c.1, c.2, findSomeM?_eq_some.1 hcharged, hpos, (Option.some.inj h).symm⟩
  · rintro ⟨holder, fee, hfirst, hpos, rfl⟩
    refine ⟨some (holder, fee), findSomeM?_eq_some.2 hfirst, ?_⟩
    simp only [deductBalance, bind_eq_ok, require_eq_ok, pure_eq_ok]
    exact ⟨_, ⟨(), hpos, rfl⟩, rfl⟩

theorem asked_iff : Asked ctx b ↔ ∃ o, b.allPositiveBalances.entries.findSomeM? (offeredFee ctx) =
    .ok o := by
  constructor
  · rintro (⟨fee, h⟩ | h)
    · exact ⟨some fee, findSomeM?_eq_some.2 h⟩
    · exact ⟨none, findSomeM?_eq_none.2 h⟩
  · rintro ⟨o, h⟩
    cases o with
    | none => exact .inr (findSomeM?_eq_none.1 h)
    | some fee => exact .inl ⟨fee, findSomeM?_eq_some.1 h⟩

theorem payFee_eq_ok_of_unselected {b' : TransactionBuilder}
    (h : ∀ fee, Selected ctx b fee → fee.assetId = -1) :
    b.payFee ctx = .ok b' ↔ ∃ holder fee, Charged ctx b holder fee ∧
      b' = { b with
        outstandingBalances := b.outstandingBalances.set (toLex (holder, fee.assetId))
          (b.outstandingBalances.getD (toLex (holder, fee.assetId)) 0 - fee.amount)
        fee := fee } := by
  have hunchosen : ∀ o, b.allPositiveBalances.entries.findSomeM? (offeredFee ctx) = .ok o →
      (o.getD ⟨0, -1⟩).assetId = -1 := by
    intro o ho
    cases o with
    | none => rfl
    | some fee => exact h fee (findSomeM?_eq_some.1 ho)
  simp only [Charged, asked_iff]
  rw [payFee, bind_eq_ok]
  constructor
  · rintro ⟨o, ho, hpay⟩
    dsimp only at hpay
    rw [if_neg (not_not.2 (hunchosen o ho)), bind_eq_ok] at hpay
    obtain ⟨paid, hpaid, hpay⟩ := hpay
    obtain rfl := expect_eq_ok.1 hpay
    obtain ⟨holder, fee, hfirst, hpos, rfl⟩ := withdrawFee_eq_some.1 hpaid
    exact ⟨holder, fee, ⟨⟨o, ho⟩, hfirst, hpos⟩, rfl⟩
  · rintro ⟨holder, fee, ⟨⟨o, ho⟩, hfirst, hpos⟩, rfl⟩
    refine ⟨o, ho, ?_⟩
    dsimp only
    rw [if_neg (not_not.2 (hunchosen o ho)), bind_eq_ok]
    exact ⟨_, withdrawFee_eq_some.2 ⟨holder, fee, hfirst, hpos, rfl⟩, rfl⟩

theorem feePaid_charge_iff {holder : Address} {fee : Asset} (hfee : 0 ≤ fee.amount) :
    FeePaid b { b with
        outstandingBalances := b.outstandingBalances.set (toLex (holder, fee.assetId))
          (b.outstandingBalances.getD (toLex (holder, fee.assetId)) 0 - fee.amount)
        fee := fee } ↔
      -2 ^ 63 ≤ (b.outstandingBalances.getD (toLex (holder, fee.assetId)) 0).toInt -
        fee.amount.toInt := by
  have hpos : 0 ≤ fee.amount.toInt := by simpa [Int64.le_iff_toInt_le] using hfee
  have hbounds := Int64.toInt_bounds (b.outstandingBalances.getD (toLex (holder, fee.assetId)) 0)
  constructor
  · intro h
    have hexactly := h.exactly
    rw [total_set] at hexactly
    simp only [ofLex_toLex, if_true] at hexactly
    have := Int64.toInt_bounds
      (b.outstandingBalances.getD (toLex (holder, fee.assetId)) 0 - fee.amount)
    omega
  · intro hfits
    have hsub := Int64.toInt_sub_of_bounds hfits (by omega)
    refine ⟨?_, fun k x hx hneg => ?_, fun k hk => ?_⟩
    · rw [total_set]
      simp only [ofLex_toLex, if_true, hsub]
      ring
    · rw [OrdMap.find_set]
      split
      · rename_i hk
        refine ⟨_, rfl, ?_⟩
        rw [hsub, ← hk, OrdMap.getD, hx, Option.getD_some]
        omega
      · exact ⟨x, hx, le_rfl⟩
    · rw [OrdMap.find_set, if_neg]
      rintro rfl
      exact hk rfl

end TransactionBuilder

open TransactionBuilder in
/-- **Fee payment.**  A fee that is paid is taken exactly, from its asset, and from no negative entry,
and it is paid whenever a payable asset has enough, exactly in the secured states. -/
theorem payFee_iff (ctx : BuilderContext) (b : TransactionBuilder) :
    ((∀ b', b.payFee ctx = .ok b' → FeePaid b b') ∧
      (Reaches ctx b → ∃ b', b.payFee ctx = .ok b')) ↔ FeeSecured ctx b := by
  by_cases hchosen : ∃ fee, Selected ctx b fee ∧ fee.assetId ≠ -1
  · obtain ⟨fee, hfee, hasset⟩ := hchosen
    constructor
    · rintro ⟨hpaid, hreturns⟩
      refine .inl ⟨fee, hfee, hasset, ?_⟩
      by_contra hcovers
      obtain ⟨b', hb'⟩ := hreturns hfee.reaches
      obtain ⟨m, hm, rfl⟩ := (payFee_eq_ok_of_selected hfee hasset).1 hb'
      have hfeePaid := hpaid _ hb'
      rcases takeFee_only_covers hcovers (unvisited_entries _) hm with ⟨k, x, y, hx, hneg, hy, hlt⟩ | h
      · obtain ⟨z, hz, hle⟩ := hfeePaid.negative k x hx hneg
        rw [hy, Option.some.injEq] at hz
        subst hz
        omega
      · exact h hfeePaid.exactly
    · rintro (⟨fee, hfee, hasset, hcovers⟩ | ⟨hnone, -⟩)
      · obtain ⟨m, hm, htotal, hneg⟩ := takeFee_of_covers hcovers (unvisited_entries _)
        refine ⟨fun b' hb' => ?_, fun _ => ⟨_, (payFee_eq_ok_of_selected hfee hasset).2 ⟨m, hm, rfl⟩⟩⟩
        obtain ⟨m', hm', rfl⟩ := (payFee_eq_ok_of_selected hfee hasset).1 hb'
        rw [hm, Option.some.injEq] at hm'
        subst hm'
        exact ⟨htotal, fun k x hx hlow => ⟨x, hneg k x hx hlow, le_rfl⟩,
          fun k hk => takeFee_find_of_ne hm hk⟩
      · exact absurd (hnone fee hfee) hasset
  · push Not at hchosen
    constructor
    · rintro ⟨hpaid, hreturns⟩
      refine .inr ⟨hchosen, ?_⟩
      by_cases hcharged : ∃ holder fee, Charged ctx b holder fee
      · obtain ⟨holder, fee, hcharged⟩ := hcharged
        exact .inl ⟨holder, fee, hcharged, (feePaid_charge_iff hcharged.2.2).1
          (hpaid _ ((payFee_eq_ok_of_unselected hchosen).2 ⟨holder, fee, hcharged, rfl⟩))⟩
      · push Not at hcharged
        refine .inr ⟨hcharged, fun hreaches => ?_⟩
        obtain ⟨b', hb'⟩ := hreturns hreaches
        obtain ⟨holder, fee, h, -⟩ := (payFee_eq_ok_of_unselected hchosen).1 hb'
        exact hcharged holder fee h
    · rintro (⟨fee, hfee, hasset, -⟩ | ⟨-, ⟨holder, fee, hcharged, hfits⟩ | ⟨hnone, hreaches⟩⟩)
      · exact absurd (hchosen fee hfee) hasset
      · refine ⟨fun b' hb' => ?_, fun _ => ⟨_, (payFee_eq_ok_of_unselected hchosen).2
          ⟨holder, fee, hcharged, rfl⟩⟩⟩
        obtain ⟨holder', fee', hcharged', rfl⟩ := (payFee_eq_ok_of_unselected hchosen).1 hb'
        cases hcharged.2.1.unique hcharged'.2.1
        exact (feePaid_charge_iff hcharged.2.2).2 hfits
      · refine ⟨fun b' hb' => ?_, fun h => absurd h hreaches⟩
        obtain ⟨holder, fee, h, -⟩ := (payFee_eq_ok_of_unselected hchosen).1 hb'
        exact absurd h (hnone holder fee)

def BuilderContext.bare : BuilderContext where
  wallet := {}
  balanceRecords := []
  now := 0
  priorityFee := ⟨10, 0⟩
  getAssetRecord a := if a = 0 then some {
    id := 0, symbol := "BTS", name := "BitShares", description := "", publicData := "",
    registrationDate := 0, lastUpdate := 0 } else none
  getActiveFeedPrice _ := none
  keyText _ := ""
  getNewPublicKey _ := .ok 1
  getDelegateSlate := { slate := ∅ }
  hasSlateRecord _ := false

def TransactionBuilder.indebted : TransactionBuilder where
  outstandingBalances := ((∅ : OutstandingBalances).set (toLex (1, 0)) (-5)).set (toLex (2, 0)) 100

/-- The debt of the first account is paid by the second. -/
theorem debt_cleared : ∃ b', TransactionBuilder.indebted.payFee .bare = .ok b' ∧
    TransactionBuilder.indebted.outstandingBalances.find (toLex (1, 0)) = some (-5) ∧
    b'.outstandingBalances.find (toLex (1, 0)) = some 0 ∧
    b'.outstandingBalances.find (toLex (2, 0)) = some 85 :=
  exists_ok_of_any (x := TransactionBuilder.indebted.payFee .bare)
    (p := fun b' => TransactionBuilder.indebted.outstandingBalances.find (toLex (1, 0)) = some (-5) ∧
      b'.outstandingBalances.find (toLex (1, 0)) = some 0 ∧
      b'.outstandingBalances.find (toLex (2, 0)) = some 85) (by decide +kernel)

end BitShares
