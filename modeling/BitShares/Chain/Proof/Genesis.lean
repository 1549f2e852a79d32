import BitShares.Chain.Genesis
import BitShares.Lib.Int64
import Mathlib.Algebra.BigOperators.Group.Finset.Piecewise

/-!
# The supply at genesis

The balances of the configuration are stored one by one.  A vesting record is stored under an address
that depends on its amount, so that the sum of two equal entries moves to another address, where the
record of a third one may be.

* `GenesisState.losses`: what each entry loses, by a sum that leaves the range of `share_type` or by
  such a collision.
* `genesis_supply`: when the supply and the balances are what the configuration lists.
* `vesting_lost`: four equal vesting entries of one address lose half of what is listed.
-/

namespace BitShares

/-! ## Entries -/

def AddressFormats.entries (f : AddressFormats) (l : List GenesisBalance) :
    List (Address × ShareType) :=
  l.filterMap fun g => (f.convertRawAddress g.rawAddress).toOption.map (·, g.balance)

theorem AddressFormats.entries_cons {f : AddressFormats} {g : GenesisBalance}
    {l : List GenesisBalance} {owner : Address} (h : f.convertRawAddress g.rawAddress = .ok owner) :
    f.entries (g :: l) = (owner, g.balance) :: f.entries l := by
  rw [entries, List.filterMap_cons, h]
  rfl

/-- The part of the addresses that `p` selects. -/
def part {X : Type} (value : X → ℤ) (p : Address → Bool) (l : List (Address × X)) : ℤ :=
  (l.map fun e => if p e.1 then value e.2 else 0).sum

section

variable {X : Type} (value : X → ℤ) (p : Address → Bool)

theorem part_cons (e : Address × X) (l : List (Address × X)) :
    part value p (e :: l) = (if p e.1 then value e.2 else 0) + part value p l := by
  rw [part, List.map_cons, List.sum_cons, part]

theorem part_append (l l' : List (Address × X)) :
    part value p (l ++ l') = part value p l + part value p l' := by
  rw [part, List.map_append, List.sum_append, part, part]

theorem sum_part (l : List (Address × X)) (s : Finset Address) (hs : ∀ e ∈ l, e.1 ∈ s) :
    ∑ a ∈ s, part value (· = a) l = part value (fun _ => true) l := by
  induction l with
  | nil => exact Finset.sum_eq_zero fun a _ => rfl
  | cons e l ih =>
    obtain ⟨he, hl⟩ := List.forall_mem_cons.1 hs
    simp only [part_cons, Finset.sum_add_distrib, ih hl, decide_eq_true_eq]
    rw [Finset.sum_ite_eq, if_pos he, if_pos trivial]

/-- Parts that are nothing add up to nothing. -/
theorem part_eq_zero {l : List (Address × X)} (h : ∀ a, part value (· = a) l = 0) :
    part value (fun _ => true) l = 0 := by
  rw [← sum_part value l (l.map (·.1)).toFinset fun e he => by
    simpa using ⟨e.2, he⟩]
  exact Finset.sum_eq_zero fun a _ => h a

end

/-- What is listed for the addresses that `p` selects. -/
def listed : (Address → Bool) → List (Address × ShareType) → ℤ := part Int64.toInt

/-- What they lose. -/
def lost : (Address → Bool) → List (Address × ℤ) → ℤ := part id

namespace GenesisState

/-- What a sum in `share_type` lacks. -/
def overflow (x y : ShareType) : ℤ := x.toInt + y.toInt - (x + y).toInt

def merged (taken : Finset (Address × ShareType)) (e : Address × ShareType) :
    Finset (Address × ShareType) :=
  if e ∈ taken then (insert (e.1, e.2 + e.2) taken).erase e else insert e taken

/-- The entry is merged with a record of its amount while there is another one of the sum. -/
def Collides (taken : Finset (Address × ShareType)) (e : Address × ShareType) : Prop :=
  e ∈ taken ∧ (e.1, e.2 + e.2) ∈ taken ∧ e.2 ≠ 0

instance (taken : Finset (Address × ShareType)) (e : Address × ShareType) :
    Decidable (Collides taken e) := inferInstanceAs (Decidable (_ ∧ _))

/-- **The entries merge apart**, one after the other. -/
def MergesApart (taken : Finset (Address × ShareType)) : List (Address × ShareType) → Prop
  | [] => True
  | e :: l => ¬ Collides taken e ∧ MergesApart (merged taken e) l

instance : ∀ (taken : Finset (Address × ShareType)) (l : List (Address × ShareType)),
    Decidable (MergesApart taken l)
  | _, [] => .isTrue trivial
  | taken, e :: l =>
    have := instDecidableMergesApart (merged taken e) l
    inferInstanceAs (Decidable (_ ∧ _))

/-- What the initial balances lose, with the sum of every address so far. -/
def initialLosses (paid : Address → ShareType) : List (Address × ShareType) → List (Address × ℤ)
  | [] => []
  | e :: l => (e.1, overflow (paid e.1) e.2) ::
      initialLosses (Function.update paid e.1 (paid e.1 + e.2)) l

/-- What the vesting balances lose, with the vesting records so far: the record of the sum, if the
entry is stored over it. -/
def vestingLosses (taken : Finset (Address × ShareType)) :
    List (Address × ShareType) → List (Address × ℤ)
  | [] => []
  | e :: l => (e.1, (if e ∈ taken then overflow e.2 e.2 else 0) +
      if Collides taken e then (e.2 + e.2).toInt else 0) :: vestingLosses (merged taken e) l

/-- **What the entries of the configuration lose**, entry by entry. -/
def losses (f : AddressFormats) (config : GenesisState) : List (Address × ℤ) :=
  initialLosses (fun _ => 0) (f.entries config.initialBalances) ++
    vestingLosses ∅ (f.entries config.sharedropBalances.vestingBalances)

theorem ofInt_overflow (x y : ShareType) : Int64.ofInt (overflow x y) = 0 := by
  rw [overflow, Int64.ofInt_sub, Int64.ofInt_add, Int64.ofInt_toInt, Int64.ofInt_toInt,
    Int64.ofInt_toInt, Int64.sub_self]

/-! ## The records -/

variable [Crypto]

/-- What the addresses that `p` selects hold. -/
def held (p : Address → Bool) (t : Table BalanceId BalanceRecord) : ℤ :=
  t.total fun _ r => if r.condition.owner.any p then r.balance.toInt else 0

def IsGenesis (v : GenesisVestingBalances) (r : BalanceRecord) : Prop :=
  (∃ owner, r.condition = .withSignature owner 0 0) ∨
    ∃ owner, r.condition = vestingCondition v owner r.balance

/-- The records so far: what the plain one of each address holds, and the owners and amounts of the
vesting ones. -/
structure Filled (v : GenesisVestingBalances) (paid : Address → ShareType)
    (taken : Finset (Address × ShareType)) (t : Table BalanceId BalanceRecord) : Prop where
  records : t.All fun k r => k = r.id ∧ IsGenesis v r
  plain : ∀ owner, ((t.lookup (Crypto.getAddress (.withSignature owner 0 0))).map (·.balance)).getD 0 =
    paid owner
  vesting : ∀ owner x, (owner, x) ∈ taken ↔
    (t.lookup (Crypto.getAddress (vestingCondition v owner x))).isSome = true

variable {v : GenesisVestingBalances} {paid : Address → ShareType}
  {taken : Finset (Address × ShareType)} {t : Table BalanceId BalanceRecord} {p : Address → Bool}

theorem held_insert {r : BalanceRecord} {owner : Address} (hr : r.condition.owner = some owner)
    (t : Table BalanceId BalanceRecord) (p : Address → Bool) :
    held p (t.insert r.id r) = held p t -
      Table.weight (fun _ r => if r.condition.owner.any p then r.balance.toInt else 0) r.id
        (t.lookup r.id) + if p owner then r.balance.toInt else 0 := by
  rw [held, Table.total_insert, held, hr, Option.any_some]

omit [Crypto] in
theorem vestingCondition_inj {owner owner' : Address} {x x' : ShareType} :
    vestingCondition v owner x = vestingCondition v owner' x' ↔ (owner, x) = (owner', x') := by
  constructor
  · intro h
    cases h
    rfl
  · intro h
    cases h
    rfl

section

variable (haddr : Function.Injective Crypto.getAddress)
include haddr

theorem lookup_insert_id (r : BalanceRecord) (c : WithdrawCondition) :
    (t.insert r.id r).lookup (Crypto.getAddress c) =
      if c = r.condition then some r else t.lookup (Crypto.getAddress c) := by
  rw [Table.lookup_insert_eq]
  exact if_congr haddr.eq_iff rfl rfl

theorem Filled.vestingOriginal_eq (h : Filled v paid taken t) {owner : Address} {x : ShareType}
    {r : BalanceRecord}
    (hr : t.lookup (Crypto.getAddress (vestingCondition v owner x)) = some r) :
    r.condition = vestingCondition v owner x ∧ r.balance = x ∧
      vestingOriginal (some r) = some (r, x) := by
  obtain ⟨hid, hkind⟩ := h.records _ r hr
  have hcondition : r.condition = vestingCondition v owner x := (haddr hid).symm
  refine ⟨hcondition, ?_, ?_⟩
  · obtain ⟨owner', hsignature⟩ | ⟨owner', hvesting⟩ := hkind
    · cases hcondition.symm.trans hsignature
    · cases hcondition.symm.trans hvesting
      rfl
  · rw [vestingOriginal, Option.bind_some, hcondition]
    rfl

/-- **An initial balance** is added to the record of its owner. -/
theorem addInitialBalance_filled {f : AddressFormats} {timestamp : Time}
    {s s' : ChainTables × ShareType} {g : GenesisBalance}
    (h : addInitialBalance f timestamp s g = .ok s') (hfilled : Filled v paid taken s.1.balances) :
    ∃ owner, f.convertRawAddress g.rawAddress = .ok owner ∧
      Filled v (Function.update paid owner (paid owner + g.balance)) taken s'.1.balances ∧
      s'.2 = s.2 + g.balance ∧ ∀ p, held p s'.1.balances = held p s.1.balances +
        if p owner then g.balance.toInt - overflow (paid owner) g.balance else 0 := by
  simp only [addInitialBalance, bind_eq_ok, pure_eq_ok] at h
  obtain ⟨owner, howner, rfl⟩ := h
  refine ⟨owner, howner, ?_⟩
  have hpaid := hfilled.plain owner
  generalize hold : s.1.balances.lookup (Crypto.getAddress (.withSignature owner 0 0)) = old at hpaid
  -- the record that is there is the owner's
  have hweight : ∀ p : Address → Bool, Table.weight
      (fun _ (r : BalanceRecord) => if r.condition.owner.any p then r.balance.toInt else 0)
      (Crypto.getAddress (.withSignature owner 0 0)) old =
        if p owner then (paid owner).toInt else 0 := by
    intro p
    cases old with
    | none =>
      rw [← hpaid]
      exact (ite_self _).symm
    | some r =>
      have hcondition : r.condition = .withSignature owner 0 0 :=
        (haddr (hfilled.records _ r hold).1).symm
      rw [Table.weight_some, hcondition, ← hpaid]
      rfl
  refine ⟨⟨hfilled.records.insert ⟨rfl, .inl ⟨owner, rfl⟩⟩, fun owner' => ?_, fun owner' x => ?_⟩,
    rfl, fun p => ?_⟩
  · rw [lookup_insert_id haddr, Function.update_apply]
    by_cases hsame : owner' = owner
    · subst hsame
      rw [if_pos rfl, if_pos rfl, Option.map_some, Option.getD_some, hpaid, Int64.add_comm]
    · rw [if_neg fun heq => hsame (by cases heq; rfl), if_neg hsame, hfilled.plain]
  · rw [hfilled.vesting owner' x, lookup_insert_id haddr, if_neg fun heq => by cases heq]
  · dsimp only
    rw [held_insert (show _ = some owner from rfl), BalanceRecord.id, hold, hweight, hpaid,
      Int64.add_comm, overflow]
    dsimp only
    split_ifs <;> omega

theorem Filled.merge (h : Filled v paid taken t) {owner : Address} {x : ShareType}
    {cur : BalanceRecord}
    (hcur : t.lookup (Crypto.getAddress (vestingCondition v owner x)) = some cur)
    (infos : List (String × ShareType)) (snapshot : String × ShareType) :
    Filled v paid (merged taken (owner, x))
      ((t.insert (vestingRecord v owner (x + x) infos snapshot).id
        (vestingRecord v owner (x + x) infos snapshot)).erase
          (Crypto.getAddress (vestingCondition v owner x))) := by
  have hmem : (owner, x) ∈ taken := by
    rw [h.vesting, hcur]
    rfl
  refine ⟨(h.records.insert ⟨rfl, .inr ⟨owner, rfl⟩⟩).erase _, fun owner' => ?_,
    fun owner' y => ?_⟩
  · rw [Finmap.lookup_erase_ne fun heq => (by cases haddr heq), lookup_insert_id haddr,
      if_neg fun heq => (by cases heq), h.plain]
  · rw [merged, if_pos hmem, Finset.mem_erase, Finset.mem_insert, h.vesting owner' y,
      Table.lookup_erase_eq]
    split_ifs with hx
    · exact iff_of_false (fun hne => hne.1 (vestingCondition_inj.1 (haddr hx))) Bool.false_ne_true
    · have hne : (owner', y) ≠ (owner, x) := fun heq =>
        hx (congrArg _ (vestingCondition_inj.2 heq))
      rw [and_iff_right hne, lookup_insert_id haddr]
      split_ifs with hy
      · exact iff_of_true (.inl (vestingCondition_inj.1 hy)) rfl
      · exact or_iff_right fun heq => hy (vestingCondition_inj.2 heq)

theorem Filled.held_merge (h : Filled v paid taken t) {owner : Address} {x : ShareType}
    {cur : BalanceRecord}
    (hcur : t.lookup (Crypto.getAddress (vestingCondition v owner x)) = some cur)
    (infos : List (String × ShareType)) (snapshot : String × ShareType) (p : Address → Bool) :
    held p ((t.insert (vestingRecord v owner (x + x) infos snapshot).id
      (vestingRecord v owner (x + x) infos snapshot)).erase
        (Crypto.getAddress (vestingCondition v owner x))) =
      held p t + if p owner then x.toInt - (overflow x x +
        if Collides taken (owner, x) then (x + x).toInt else 0) else 0 := by
  obtain ⟨hcondition, hbalance, -⟩ := h.vestingOriginal_eq haddr hcur
  have hmem : (owner, x) ∈ taken := by
    rw [h.vesting, hcur]
    rfl
  -- the weight of a record of the owner
  have hweight : ∀ (k : BalanceId) (r : BalanceRecord) (y : ShareType),
      r.condition = vestingCondition v owner y → Table.weight (fun _ (r : BalanceRecord) =>
        if r.condition.owner.any p then r.balance.toInt else 0) k (some r) =
          if p owner then r.balance.toInt else 0 := by
    intro k r y hr
    rw [Table.weight_some, hr]
    rfl
  have hinsert := held_insert
    (show (vestingRecord v owner (x + x) infos snapshot).condition.owner = some owner from rfl) t p
  change _ = held p t - Table.weight _ (Crypto.getAddress (vestingCondition v owner (x + x)))
    (t.lookup (Crypto.getAddress (vestingCondition v owner (x + x)))) +
      (if p owner then (x + x).toInt else 0) at hinsert
  rw [held, Table.total_erase, ← held, hinsert, overflow]
  by_cases hzero : x = 0
  · -- the record of a null amount is stored and removed
    subst hzero
    have hapart : ¬ Collides taken (owner, (0 : ShareType)) := fun hc => hc.2.2 rfl
    have hnew : (Finmap.insert (vestingRecord v owner (0 + 0) infos snapshot).id
        (vestingRecord v owner (0 + 0) infos snapshot) t).lookup
          (Crypto.getAddress (vestingCondition v owner 0)) =
        some (vestingRecord v owner (0 + 0) infos snapshot) := Finmap.lookup_insert _
    rw [hnew, hweight _ _ (0 + 0) rfl, show (0 : ShareType) + 0 = 0 from rfl, hcur,
      hweight _ _ 0 hcondition, hbalance, if_neg hapart]
    simp [vestingRecord]
  · have hne : Crypto.getAddress (vestingCondition v owner x) ≠
        (vestingRecord v owner (x + x) infos snapshot).id := by
      intro heq
      have hdouble : x = x + x := (Prod.mk.inj (vestingCondition_inj.1 (haddr heq))).2
      exact hzero (by grind)
    rw [Finmap.lookup_insert_of_ne _ hne, hcur, hweight _ _ x hcondition, hbalance]
    by_cases hdouble : (owner, x + x) ∈ taken
    · have hcollides : Collides taken (owner, x) := ⟨hmem, hdouble, hzero⟩
      rw [h.vesting] at hdouble
      obtain ⟨r, hr⟩ := Option.isSome_iff_exists.1 hdouble
      obtain ⟨hr', hx, -⟩ := h.vestingOriginal_eq haddr hr
      rw [hr, hweight _ _ (x + x) hr', hx, if_pos hcollides]
      split_ifs <;> omega
    · have hapart : ¬ Collides taken (owner, x) := fun hc => hdouble hc.2.1
      rw [h.vesting, Option.isSome_iff_ne_none, not_not] at hdouble
      rw [hdouble, Table.weight_none, if_neg hapart]
      split_ifs <;> omega

/-- **A vesting balance.**  What is at the address of the sum is lost. -/
theorem addVestingBalance_filled {f : AddressFormats} {s s' : ChainTables × ShareType}
    {g : GenesisBalance} (h : addVestingBalance f v s g = .ok s')
    (hfilled : Filled v paid taken s.1.balances) :
    ∃ owner, f.convertRawAddress g.rawAddress = .ok owner ∧
      Filled v paid (merged taken (owner, g.balance)) s'.1.balances ∧ s'.2 = s.2 + g.balance ∧
      ∀ p, held p s'.1.balances = held p s.1.balances + if p owner then g.balance.toInt -
        ((if (owner, g.balance) ∈ taken then overflow g.balance g.balance else 0) +
          if Collides taken (owner, g.balance) then (g.balance + g.balance).toInt else 0) else 0 := by
  simp only [addVestingBalance, bind_eq_ok, pure_eq_ok] at h
  obtain ⟨owner, howner, rfl⟩ := h
  refine ⟨owner, howner, ?_⟩
  cases hold : s.1.balances.lookup (Crypto.getAddress (vestingCondition v owner g.balance)) with
  | none =>
    -- the entry gets a record of its own
    have hnot : (owner, g.balance) ∉ taken := by
      rw [hfilled.vesting, hold]
      exact Bool.false_ne_true
    have hmerged : merged taken (owner, g.balance) = insert (owner, g.balance) taken := if_neg hnot
    have hapart : ¬ Collides taken (owner, g.balance) := fun hc => hnot hc.1
    rw [show vestingOriginal none = none from rfl]
    dsimp only
    refine ⟨⟨hfilled.records.insert ⟨rfl, .inr ⟨owner, rfl⟩⟩, fun owner' => ?_,
      fun owner' x => ?_⟩, rfl, fun p => ?_⟩
    · rw [lookup_insert_id haddr, if_neg fun heq => (by cases heq), hfilled.plain]
    · rw [hmerged, Finset.mem_insert, hfilled.vesting owner' x, lookup_insert_id haddr]
      split_ifs with heq
      · exact iff_of_true (.inl (vestingCondition_inj.1 heq)) rfl
      · exact or_iff_right fun hsame => heq (vestingCondition_inj.2 hsame)
    · rw [if_neg hnot, if_neg hapart, add_zero, sub_zero]
      refine (held_insert (show _ = some owner from rfl) _ p).trans ?_
      change _ - Table.weight _ _ (s.1.balances.lookup
        (Crypto.getAddress (vestingCondition v owner g.balance))) + _ = _
      rw [hold, Table.weight_none, sub_zero]
      rfl
  | some cur =>
    obtain ⟨hcondition, -, horiginal⟩ := hfilled.vestingOriginal_eq haddr hold
    have hmem : (owner, g.balance) ∈ taken := by
      rw [hfilled.vesting, hold]
      rfl
    have hid : cur.id = Crypto.getAddress (vestingCondition v owner g.balance) := by
      rw [BalanceRecord.id, hcondition]
    rw [horiginal, if_pos hmem]
    dsimp only
    rw [hid]
    exact ⟨hfilled.merge haddr hold _ _, rfl, hfilled.held_merge haddr hold _ _⟩

/-! ## The loops -/

/-- **All initial balances.** -/
theorem initialBalances_filled {f : AddressFormats} {timestamp : Time} {l : List GenesisBalance}
    {s s' : ChainTables × ShareType} (h : l.foldlM (addInitialBalance f timestamp) s = .ok s')
    (hfilled : Filled v paid taken s.1.balances) :
    (∃ paid', Filled v paid' taken s'.1.balances) ∧
      s'.2 = s.2 + Int64.ofInt (listed (fun _ => true) (f.entries l)) ∧
      ∀ p, held p s'.1.balances = held p s.1.balances + listed p (f.entries l) -
        lost p (initialLosses paid (f.entries l)) := by
  induction l generalizing s paid with
  | nil =>
    rw [List.foldlM_nil, pure_eq_ok] at h
    subst h
    exact ⟨⟨paid, hfilled⟩, (Int64.add_zero _).symm, fun p => by
      simp [AddressFormats.entries, listed, lost, part, initialLosses]⟩
  | cons g l ih =>
    rw [List.foldlM_cons, bind_eq_ok] at h
    obtain ⟨m, hm, h⟩ := h
    obtain ⟨owner, howner, hfilled', hm2, hheld⟩ := addInitialBalance_filled haddr hm hfilled
    obtain ⟨hfilled'', hs', hheld'⟩ := ih h hfilled'
    rw [AddressFormats.entries_cons howner, initialLosses]
    refine ⟨hfilled'', ?_, fun p => ?_⟩
    · rw [hs', hm2, listed, part_cons, if_pos rfl, Int64.ofInt_add, Int64.ofInt_toInt,
        Int64.add_assoc]
    · rw [hheld', hheld, listed, lost, part_cons, part_cons]
      dsimp only [id]
      split_ifs <;> omega

/-- **All vesting balances.** -/
theorem vestingBalances_filled {f : AddressFormats} {l : List GenesisBalance}
    {s s' : ChainTables × ShareType} (h : l.foldlM (addVestingBalance f v) s = .ok s')
    (hfilled : Filled v paid taken s.1.balances) :
    (∃ taken', Filled v paid taken' s'.1.balances) ∧
      s'.2 = s.2 + Int64.ofInt (listed (fun _ => true) (f.entries l)) ∧
      ∀ p, held p s'.1.balances = held p s.1.balances + listed p (f.entries l) -
        lost p (vestingLosses taken (f.entries l)) := by
  induction l generalizing s taken with
  | nil =>
    rw [List.foldlM_nil, pure_eq_ok] at h
    subst h
    exact ⟨⟨taken, hfilled⟩, (Int64.add_zero _).symm, fun p => by
      simp [AddressFormats.entries, listed, lost, part, vestingLosses]⟩
  | cons g l ih =>
    rw [List.foldlM_cons, bind_eq_ok] at h
    obtain ⟨m, hm, h⟩ := h
    obtain ⟨owner, howner, hfilled', hm2, hheld⟩ := addVestingBalance_filled haddr hm hfilled
    obtain ⟨hfilled'', hs', hheld'⟩ := ih h hfilled'
    rw [AddressFormats.entries_cons howner, vestingLosses]
    refine ⟨hfilled'', ?_, fun p => ?_⟩
    · rw [hs', hm2, listed, part_cons, if_pos rfl, Int64.ofInt_add, Int64.ofInt_toInt,
        Int64.add_assoc]
    · rw [hheld', hheld, listed, lost, part_cons, part_cons]
      dsimp only [id]
      split_ifs <;> omega

end

def balances (config : GenesisState) : List GenesisBalance :=
  config.initialBalances ++ config.sharedropBalances.vestingBalances

theorem balances_addDelegates {timestamp : Time} {l : List GenesisDelegate}
    {s s' : ChainTables × AccountId} (h : l.foldlM (addDelegate timestamp) s = .ok s')
    (hs : s.1.balances = ∅) : s'.1.balances = ∅ := by
  refine foldlM_induction (fun s => s.1.balances = ∅) (fun d _ b b' hb h => ?_) h hs
  simp only [addDelegate, bind_eq_ok, pure_eq_ok] at h
  obtain ⟨r, -, rfl⟩ := h
  exact hb

/-- **What genesis stores**: the supply is what is listed, in the arithmetic of `share_type`, and the
records hold what is listed up to the losses. -/
theorem initializeGenesis_held {f : AddressFormats} {config : GenesisState} {chainId : Digest}
    {statisticsEnabled : Bool} {t : ChainTables} (haddr : Function.Injective Crypto.getAddress)
    (h : config.initializeGenesis f chainId statisticsEnabled = .ok t) :
    t.assets.lookup 0 = some (baseAsset config.timestamp
        (Int64.ofInt (listed (fun _ => true) (f.entries config.balances)))) ∧
      held (fun _ => true) t.balances = t.balances.total (fun _ r => r.balance.toInt) ∧
      ∀ p, held p t.balances = listed p (f.entries config.balances) - lost p (losses f config) := by
  simp only [initializeGenesis, bind_eq_ok, require_eq_ok, pure_eq_ok] at h
  obtain ⟨-, -, ⟨d, lastAccountId⟩, hd, s, hs, s', hs', rfl⟩ := h
  have hempty := balances_addDelegates hd rfl
  have hstart : Filled config.sharedropBalances (fun _ => 0) ∅ d.balances := by
    rw [hempty]
    exact ⟨.of_empty rfl, fun _ => rfl,
      fun owner x => iff_of_false (Finset.notMem_empty _) Bool.false_ne_true⟩
  have hheld₀ : ∀ p, held p d.balances = 0 := fun p => by
    rw [held, hempty, Table.total_empty]
  obtain ⟨⟨_, hfilled⟩, hsupply, hheld⟩ := initialBalances_filled haddr hs hstart
  obtain ⟨⟨_, hfilled'⟩, hsupply', hheld'⟩ := vestingBalances_filled haddr hs' hfilled
  have hentries : ∀ p, listed p (f.entries config.balances) =
      listed p (f.entries config.initialBalances) +
        listed p (f.entries config.sharedropBalances.vestingBalances) := fun p => by
    rw [GenesisState.balances, AddressFormats.entries, List.filterMap_append, listed, part_append]
    rfl
  refine ⟨?_, ?_, fun p => ?_⟩
  · refine (Finmap.lookup_insert _).trans ?_
    rw [hsupply', hsupply, hentries, Int64.ofInt_add, Int64.zero_add]
  · refine Table.total_congr fun k r hr => ?_
    obtain ⟨-, ⟨owner, hcondition⟩ | ⟨owner, hcondition⟩⟩ := hfilled'.records k r hr
    · rw [hcondition]
      rfl
    · rw [hcondition]
      rfl
  · change held p s'.1.balances = _
    rw [hheld', hheld, hheld₀, hentries, losses]
    simp only [lost, part_append]
    omega

omit [Crypto] in
theorem ofInt_lost_initial (paid : Address → ShareType) (l : List (Address × ShareType)) :
    Int64.ofInt (lost (fun _ => true) (initialLosses paid l)) = 0 := by
  induction l generalizing paid with
  | nil => rfl
  | cons e l ih =>
    rw [initialLosses, lost, part_cons, Int64.ofInt_add, ← lost, ih]
    simp [ofInt_overflow]

omit [Crypto] in
theorem ofInt_lost_vesting {taken : Finset (Address × ShareType)} {l : List (Address × ShareType)}
    (h : MergesApart taken l) : Int64.ofInt (lost (fun _ => true) (vestingLosses taken l)) = 0 := by
  induction l generalizing taken with
  | nil => rfl
  | cons e l ih =>
    obtain ⟨hapart, hl⟩ := h
    rw [vestingLosses, lost, part_cons, Int64.ofInt_add, ← lost, ih hl, if_neg hapart]
    split_ifs <;> simp_all [ofInt_overflow]

/-- If the vesting entries merge apart, the supply is the sum of all balances in `share_type`. -/
theorem supply_of_mergesApart {f : AddressFormats} {config : GenesisState} {chainId : Digest}
    {statisticsEnabled : Bool} {t : ChainTables} {base : AssetRecord}
    (haddr : Function.Injective Crypto.getAddress)
    (h : config.initializeGenesis f chainId statisticsEnabled = .ok t)
    (hmerges : MergesApart ∅ (f.entries config.sharedropBalances.vestingBalances))
    (hbase : t.assets.lookup 0 = some base) :
    Int64.ofInt (t.balances.total fun _ r => r.balance.toInt) = base.currentSupply := by
  obtain ⟨hasset, hall, hheld⟩ := initializeGenesis_held haddr h
  have hlost : Int64.ofInt (lost (fun _ => true) (losses f config)) = 0 := by
    rw [losses, lost, part_append, Int64.ofInt_add]
    change Int64.ofInt (lost _ _) + Int64.ofInt (lost _ _) = 0
    rw [ofInt_lost_initial, ofInt_lost_vesting hmerges]
    rfl
  cases hasset.symm.trans hbase
  rw [← hall, hheld, Int64.ofInt_sub, hlost, Int64.sub_zero]
  rfl

end GenesisState

open GenesisState in
/-- **Genesis supply.**  The supply of the base asset is the sum of all balance records, and the
records of every address hold what the configuration lists for it, if and only if the amounts add up
to a `share_type` and what each address loses adds up to nothing. -/
theorem genesis_supply [Crypto] (haddr : Function.Injective Crypto.getAddress) {f : AddressFormats}
    {config : GenesisState} {chainId : Digest} {statisticsEnabled : Bool} {t : ChainTables}
    (h : config.initializeGenesis f chainId statisticsEnabled = .ok t) :
    ((∃ base, t.assets.lookup 0 = some base ∧
        base.currentSupply.toInt = t.balances.total fun _ r => r.balance.toInt) ∧
      ∀ a, t.balances.total (fun _ r => if r.condition.owner = some a then r.balance.toInt else 0) =
        ((f.entries config.balances).map fun e => if e.1 = a then e.2.toInt else 0).sum) ↔
    (-2 ^ 63 ≤ ((f.entries config.balances).map (·.2.toInt)).sum ∧
        ((f.entries config.balances).map (·.2.toInt)).sum < 2 ^ 63) ∧
      ∀ a, ((losses f config).map fun e => if e.1 = a then e.2 else 0).sum = 0 := by
  obtain ⟨hasset, hall, hheld⟩ := initializeGenesis_held haddr h
  have howned : ∀ a, t.balances.total
      (fun _ r => if r.condition.owner = some a then r.balance.toInt else 0) =
        held (· = a) t.balances := fun a => by
    refine Table.total_congr fun k r _ => ?_
    cases r.condition.owner <;> simp
  have hsum : ∀ a, ((f.entries config.balances).map fun e => if e.1 = a then e.2.toInt else 0).sum =
      listed (· = a) (f.entries config.balances) := fun a => by
    simp only [listed, part, decide_eq_true_eq]
  have hlost : ∀ a, ((losses f config).map fun e => if e.1 = a then e.2 else 0).sum =
      lost (· = a) (losses f config) := fun a => by
    simp only [lost, part, decide_eq_true_eq, id]
  have htotal : ((f.entries config.balances).map (·.2.toInt)).sum =
      listed (fun _ => true) (f.entries config.balances) := by
    simp only [listed, part, if_true]
  simp only [howned, hsum, hlost, htotal, hheld, ← hall, hasset]
  have hsame : (∀ a, listed (· = a) (f.entries config.balances) - lost (· = a) (losses f config) =
      listed (· = a) (f.entries config.balances)) ↔
        ∀ a, lost (· = a) (losses f config) = 0 := forall_congr' fun a => by omega
  rw [hsame]
  refine and_congr_left fun hnothing => ?_
  rw [show lost (fun _ => true) (losses f config) = 0 from part_eq_zero id hnothing, sub_zero]
  constructor
  · rintro ⟨base, hbase, hsupply⟩
    rw [← hsupply]
    exact Int64.toInt_bounds _
  · rintro ⟨hl, hu⟩
    exact ⟨_, rfl, Int64.toInt_ofInt_of_le hl hu⟩

/-! ## Two configurations -/

def lengthFormats : AddressFormats where
  pts text := some text.length
  bts _ := .error .invalidPtsAddress

/-- A configuration with these vesting balances of one address, besides an initial one. -/
def vestingConfig (amounts : List ShareType) : GenesisState where
  timestamp := 100
  delegates := List.replicate NUM_DELEGATES ⟨"delegate", 5⟩
  initialBalances := [⟨"a", 7⟩]
  sharedropBalances :=
    { startTime := 100
      durationDays := 2
      vestingBalances := amounts.map fun x => ⟨"a", x⟩ }

theorem genesis_supply_merged :
    letI := Crypto.transparent
    ∃ t, (vestingConfig [5, 5, -5, 5]).initializeGenesis lengthFormats 0 false = .ok t ∧
      ∃ base, t.assets.lookup 0 = some base ∧
        base.currentSupply.toInt = t.balances.total fun _ r => r.balance.toInt := by
  let := Crypto.transparent
  obtain ⟨t, ht⟩ := exists_ok_of_isOk
    (x := (vestingConfig [5, 5, -5, 5]).initializeGenesis lengthFormats 0 false) (by decide +kernel)
  have hlosses : GenesisState.losses lengthFormats (vestingConfig [5, 5, -5, 5]) =
      List.replicate 5 (1, 0) := by decide +kernel
  have hiff := genesis_supply WithdrawCondition.code_injective ht
  exact ⟨t, ht, (hiff.2 ⟨by decide +kernel, fun a => by simp [hlosses]⟩).1⟩

/-- **Four equal vesting entries**: the sum of the last two is stored over that of the first two, and
the supply is 27 while the balances add up to 17. -/
theorem vesting_lost :
    letI := Crypto.transparent
    ∃ t, (vestingConfig [5, 5, 5, 5]).initializeGenesis lengthFormats 0 false = .ok t ∧
      (t.assets.lookup 0).map (·.currentSupply) = some 27 ∧
      (t.balances.total fun _ r => r.balance.toInt) = 17 := by
  let := Crypto.transparent
  exact exists_ok_of_any
    (x := (vestingConfig [5, 5, 5, 5]).initializeGenesis lengthFormats 0 false)
    (p := fun t => (t.assets.lookup 0).map (·.currentSupply) = some 27 ∧
      (t.balances.total fun _ r => r.balance.toInt) = 17) (by decide +kernel)

end BitShares
