import BitShares.Lib.Int64
import BitShares.Lib.Outcome
import BitShares.Wallet.Proof.Fees

/-!
# The withdrawals and deposits of a built transaction

* `finalize_iff`: when what `finalize` appends makes up for the outstanding balances and overdraws no
  record (`OneDebtEach`): each debt is withdrawn from the start of the same list.
-/

namespace BitShares

section Settling

variable [Crypto]

namespace TransactionBuilder

/-! ## Drawing an amount from records -/

section Draws

def draw : List BalanceRecord → ℤ → List (BalanceRecord × ℤ)
  | [], _ => []
  | r :: records, x =>
    if r.balance.toInt < x then (r, r.balance.toInt) :: draw records (x - r.balance.toInt)
    else [(r, x)]

def drawn (id : BalanceId) (draws : List (BalanceRecord × ℤ)) : ℤ :=
  (draws.map fun d => if d.1.id = id then d.2 else 0).sum

variable {r : BalanceRecord} {records : List BalanceRecord} {x : ℤ} {id : BalanceId}

omit [Crypto] in
theorem mem_of_mem_draw {d : BalanceRecord × ℤ} (h : d ∈ draw records x) : d.1 ∈ records := by
  induction records generalizing x with
  | nil => cases h
  | cons r records ih =>
    rw [draw] at h
    split at h
    · rcases List.mem_cons.1 h with rfl | h
      · exact List.mem_cons_self
      · exact List.mem_cons_of_mem _ (ih h)
    · cases List.mem_singleton.1 h
      exact List.mem_cons_self

theorem drawn_append {l m : List (BalanceRecord × ℤ)} : drawn id (l ++ m) = drawn id l + drawn id m := by
  rw [drawn, List.map_append, List.sum_append]
  rfl

theorem drawn_of_notMem (h : ∀ r ∈ records, r.id ≠ id) : drawn id (draw records x) = 0 := by
  refine List.sum_eq_zero fun z hz => ?_
  obtain ⟨d, hd, rfl⟩ := List.mem_map.1 hz
  exact if_neg (h _ (mem_of_mem_draw hd))

theorem drawn_head (h : ∀ r' ∈ records, r'.id ≠ r.id) :
    drawn r.id (draw (r :: records) x) = min x r.balance.toInt := by
  rw [draw]
  split
  · rename_i hlt
    have hrest := drawn_of_notMem (x := x - r.balance.toInt) h
    rw [drawn] at hrest ⊢
    rw [List.map_cons, List.sum_cons, if_pos rfl, hrest]
    omega
  · simp only [drawn, List.map_cons, List.map_nil, List.sum_cons, List.sum_nil, if_true]
    omega

theorem drawn_of_le (h : x ≤ r.balance.toInt) :
    drawn id (draw (r :: records) x) = if r.id = id then x else 0 := by
  rw [draw, if_neg (not_lt.2 h)]
  simp [drawn]

theorem drawn_le (hnodup : (records.map BalanceRecord.id).Nodup)
    (hpos : ∀ r ∈ records, 0 ≤ r.balance.toInt) (hr : r ∈ records) :
    drawn r.id (draw records x) ≤ r.balance.toInt := by
  induction records generalizing x with
  | nil => cases hr
  | cons r' records ih =>
    obtain ⟨hnotMem, hnodup⟩ := List.nodup_cons.1 hnodup
    have hne : ∀ r ∈ records, r.id ≠ r'.id := fun r hr h => hnotMem (h ▸ List.mem_map_of_mem hr)
    rcases List.mem_cons.1 hr with rfl | hr
    · rw [drawn_head hne]
      exact min_le_right _ _
    · have hrest := ih hnodup (fun r hr => hpos r (List.mem_cons_of_mem _ hr)) hr
        (x := x - r'.balance.toInt)
      rw [draw]
      split
      · rw [drawn] at hrest ⊢
        rw [List.map_cons, List.sum_cons, if_neg (hne r hr).symm, zero_add]
        exact hrest
      · simp only [drawn, List.map_cons, List.map_nil, List.sum_cons, List.sum_nil,
          if_neg (hne r hr).symm, add_zero]
        exact hpos r (List.mem_cons_of_mem _ hr)

omit [Crypto] in
theorem sum_le_of_sum_min_le {amounts : List ℤ} {bound : ℤ} (hamounts : ∀ x ∈ amounts, 0 < x)
    (hbound : 0 < bound) (hlen : 2 ≤ amounts.length)
    (h : (amounts.map fun x => min x bound).sum ≤ bound) : amounts.sum ≤ bound := by
  by_cases hsmall : ∀ x ∈ amounts, x ≤ bound
  · have hsame : (amounts.map fun x => min x bound) = amounts :=
      (List.map_congr_left fun x hx => min_eq_left (hsmall x hx)).trans (List.map_id _)
    rwa [hsame] at h
  · -- one amount takes all there is, and another one takes more
    push Not at hsmall
    obtain ⟨x, hx, hlarge⟩ := hsmall
    obtain ⟨l, m, rfl⟩ := List.append_of_mem hx
    have hrest : 0 < ((l ++ m).map fun x => min x bound).sum := by
      refine List.sum_pos _ (fun z hz => ?_) (fun hnil => ?_)
      · obtain ⟨y, hy, rfl⟩ := List.mem_map.1 hz
        refine lt_min (hamounts y ?_) hbound
        rcases List.mem_append.1 hy with hy | hy
        · exact List.mem_append_left _ hy
        · exact List.mem_append_right _ (List.mem_cons_of_mem _ hy)
      · obtain ⟨rfl, rfl⟩ := List.append_eq_nil_iff.1 (List.map_eq_nil_iff.1 hnil)
        exact absurd hlen (by simp)
    simp only [List.map_append, List.map_cons, List.sum_append, List.sum_cons,
      min_eq_right hlarge.le] at h hrest
    omega

/-- Several amounts, each drawn from the start of one list: no record is overdrawn exactly if there
is only one of them, or the first record can give them all. -/
theorem sum_drawn_le_iff {amounts : List ℤ} (hamounts : ∀ x ∈ amounts, 0 < x)
    (hnodup : ((r :: records).map BalanceRecord.id).Nodup)
    (hpos : ∀ r' ∈ r :: records, 0 < r'.balance.toInt) :
    (∀ r' ∈ r :: records, (amounts.map fun x => drawn r'.id (draw (r :: records) x)).sum ≤
        r'.balance.toInt) ↔
      (2 ≤ amounts.length → amounts.sum ≤ r.balance.toInt) := by
  have hne : ∀ r' ∈ records, r'.id ≠ r.id := fun r' hr' h =>
    (List.nodup_cons.1 hnodup).1 (h ▸ List.mem_map_of_mem hr')
  constructor
  · intro h hlen
    have hfirst := h r List.mem_cons_self
    simp only [drawn_head hne] at hfirst
    exact sum_le_of_sum_min_le hamounts (hpos r List.mem_cons_self) hlen hfirst
  · intro h r' hr'
    rcases lt_or_ge amounts.length 2 with hlen | hlen
    · match amounts with
      | [] => exact (hpos r' hr').le
      | [x] =>
        simp only [List.map_cons, List.map_nil, List.sum_cons, List.sum_nil, add_zero]
        exact drawn_le hnodup (fun r hr => (hpos r hr).le) hr'
    · have hsum := h hlen
      have hsmall : ∀ x ∈ amounts, x ≤ r.balance.toInt := fun x hx =>
        (List.single_le_sum (fun y hy => (hamounts y hy).le) x hx).trans hsum
      have hdrawn : (amounts.map fun x => drawn r'.id (draw (r :: records) x)) =
          amounts.map fun x => if r.id = r'.id then x else 0 :=
        List.map_congr_left fun x hx => drawn_of_le (hsmall x hx)
      rw [hdrawn]
      by_cases hid : r.id = r'.id
      · have hr : r' = r := by
          rcases List.mem_cons.1 hr' with h | h
          · exact h
          · exact absurd hid.symm (hne r' h)
        simpa [hid, hr] using hsum
      · simpa [hid] using (hpos r' hr').le

end Draws

/-! ## One debt -/

section Debt

variable {ctx : BuilderContext} {a : AssetId} {records : List BalanceRecord} {x : ShareType}
  {b b' : TransactionBuilder}

def usable (a : AssetId) (records : List BalanceRecord) : List BalanceRecord :=
  records.filter fun r => 0 < r.balance ∧ r.assetId = a

def toWithdrawals (draws : List (BalanceRecord × ℤ)) : List WithdrawOperation :=
  draws.map fun d => ⟨d.1.id, Int64.ofInt d.2⟩

def OwnedBy (r : BalanceRecord) (owner : Address) : Prop :=
  ∃ memo, r.condition.data = .signature owner memo

structure Drawn (draws : List (BalanceRecord × ℤ)) (b b' : TransactionBuilder) : Prop where
  operations : b'.operations = b.operations ++ (toWithdrawals draws).map .withdraw
  signatures : b.requiredSignatures ⊆ b'.requiredSignatures
  signed : ∀ d ∈ draws, ∃ owner, OwnedBy d.1 owner ∧ owner ∈ b'.requiredSignatures
  amounts : ∀ d ∈ draws, 0 < d.2 ∧ d.2 < 2 ^ 63

namespace Drawn

theorem trans {l l' : List (BalanceRecord × ℤ)} {m : TransactionBuilder} (h : Drawn l b m)
    (h' : Drawn l' m b') : Drawn (l ++ l') b b' where
  operations := by
    rw [h'.operations, h.operations, toWithdrawals, toWithdrawals, toWithdrawals, List.map_append,
      List.map_append, List.append_assoc]
  signatures := h.signatures.trans h'.signatures
  signed d hd := by
    rcases List.mem_append.1 hd with hd | hd
    · obtain ⟨owner, howner, hsigned⟩ := h.signed d hd
      exact ⟨owner, howner, h'.signatures hsigned⟩
    · exact h'.signed d hd
  amounts d hd := by
    rcases List.mem_append.1 hd with hd | hd
    · exact h.amounts d hd
    · exact h'.amounts d hd

theorem single {r : BalanceRecord} {owner : Address} (howner : OwnedBy r owner)
    (h : b.withdraw r.id x owner = .ok b') : Drawn [(r, x.toInt)] b b' ∧ 0 < x.toInt := by
  simp only [withdraw, bind_eq_ok, require_eq_ok, pure_eq_ok] at h
  obtain ⟨_, hpos, rfl⟩ := h
  have hpos : 0 < x.toInt := by simpa [Int64.lt_iff_toInt_lt] using hpos
  refine ⟨⟨by simp [toWithdrawals], Finset.subset_insert _ _, ?_, ?_⟩, hpos⟩
  · intro d hd
    cases List.mem_singleton.1 hd
    exact ⟨owner, howner, Finset.mem_insert_self _ _⟩
  · intro d hd
    cases List.mem_singleton.1 hd
    exact ⟨hpos, (Int64.toInt_bounds x).2⟩

end Drawn

theorem withdrawFrom_drawn (hrecords : ∀ r ∈ records, ∃ owner, OwnedBy r owner)
    (h : withdrawFrom ctx a records x b = .ok b') :
    Drawn (draw (usable a records) x.toInt) b b' ∧
      ((draw (usable a records) x.toInt).map (·.2)).sum = x.toInt ∧ 0 < x.toInt := by
  induction records generalizing x b with
  | nil => cases h
  | cons r records ih =>
    have htail := fun r' hr' => hrecords r' (List.mem_cons_of_mem _ hr')
    obtain ⟨owner, memo, hdata⟩ := hrecords r List.mem_cons_self
    have hspendable : r.getSpendableBalance ctx.now = .ok r.balance := by
      rw [BalanceRecord.getSpendableBalance, hdata]
    have howner : r.condition.owner = some owner := by rw [WithdrawCondition.owner, hdata]
    rw [withdrawFrom, hspendable] at h
    obtain ⟨_, ⟨⟩, h⟩ := bind_eq_ok.1 h
    have hpositive : ¬ r.balance ≤ 0 ↔ 0 < r.balance := Int64.not_le
    by_cases huse : 0 < r.balance ∧ r.assetId = a
    · have husable : usable a (r :: records) = r :: usable a records :=
        List.filter_cons_of_pos (by simpa using huse)
      rw [if_neg (by rw [not_or, hpositive, not_not]; exact huse), howner] at h
      dsimp only at h
      rw [husable, draw]
      split at h
      · rename_i hlt
        rw [Int64.lt_iff_toInt_lt] at hlt
        obtain ⟨b₁, hb₁, h⟩ := bind_eq_ok.1 h
        obtain ⟨hfirst, hpos⟩ := Drawn.single ⟨memo, hdata⟩ hb₁
        have hx := Int64.toInt_bounds x
        have hsub : (x - r.balance).toInt = x.toInt - r.balance.toInt :=
          Int64.toInt_sub_of_bounds (by omega) (by omega)
        obtain ⟨hrest, hsum, -⟩ := ih htail h
        rw [hsub] at hrest hsum
        rw [if_pos hlt]
        refine ⟨hfirst.trans hrest, ?_, by omega⟩
        rw [List.map_cons, List.sum_cons, hsum]
        ring
      · rename_i hle
        rw [Int64.lt_iff_toInt_lt] at hle
        obtain ⟨hdrawn, hpos⟩ := Drawn.single ⟨memo, hdata⟩ h
        rw [if_neg hle]
        exact ⟨hdrawn, by simp, hpos⟩
    · have husable : usable a (r :: records) = usable a records :=
        List.filter_cons_of_neg (by simpa using huse)
      rw [if_pos (by rw [← not_not (a := r.balance ≤ 0), hpositive]; tauto)] at h
      rw [husable]
      exact ih htail h

end Debt

/-! ## All outstanding balances -/

def withdrawals (operations : List Operation) : List WithdrawOperation :=
  operations.filterMap fun
    | .withdraw op => some op
    | _ => none

def deposits (operations : List Operation) : List Asset :=
  operations.filterMap fun
    | .deposit op => some ⟨op.amount, op.condition.assetId⟩
    | _ => none

section Entries

variable {ctx : BuilderContext} {entries entries' : List (OutstandingKey × ShareType)}
  {e : OutstandingKey × ShareType} {b m b' : TransactionBuilder}

def entryDraws (ctx : BuilderContext) (e : OutstandingKey × ShareType) :
    List (BalanceRecord × ℤ) :=
  if e.2.toInt < 0 then
    match ctx.lookupAccount (ofLex e.1).1 with
    | none => []
    | some account =>
      draw (usable (ofLex e.1).2 (ctx.spendableRecords account.name)) (-e.2.toInt)
  else []

def entryDeposits (e : OutstandingKey × ShareType) : List Asset :=
  if 0 < e.2.toInt then [⟨e.2, (ofLex e.1).2⟩] else []

/-- What the loop over outstanding balances adds to the transaction. -/
structure Settles (ctx : BuilderContext) (entries : List (OutstandingKey × ShareType))
    (b b' : TransactionBuilder) : Prop where
  withdrawals : withdrawals b'.operations =
    withdrawals b.operations ++ toWithdrawals (entries.flatMap (entryDraws ctx))
  deposits : deposits b'.operations = deposits b.operations ++ entries.flatMap entryDeposits
  signatures : b.requiredSignatures ⊆ b'.requiredSignatures
  signed : ∀ d ∈ entries.flatMap (entryDraws ctx), ∃ owner, OwnedBy d.1 owner ∧
    owner ∈ b'.requiredSignatures
  amounts : ∀ d ∈ entries.flatMap (entryDraws ctx), 0 < d.2 ∧ d.2 < 2 ^ 63
  exactly : ∀ e ∈ entries, e.2.toInt < 0 → ((entryDraws ctx e).map (·.2)).sum = -e.2.toInt

theorem Settles.nil (b : TransactionBuilder) : Settles ctx [] b b :=
  ⟨by simp [toWithdrawals], by simp, fun _ h => h, by simp, by simp, by simp⟩

theorem Settles.trans (h : Settles ctx entries b m) (h' : Settles ctx entries' m b') :
    Settles ctx (entries ++ entries') b b' where
  withdrawals := by
    rw [h'.withdrawals, h.withdrawals, List.flatMap_append, toWithdrawals, toWithdrawals,
      toWithdrawals, List.map_append, List.append_assoc]
  deposits := by rw [h'.deposits, h.deposits, List.flatMap_append, List.append_assoc]
  signatures := h.signatures.trans h'.signatures
  signed d hd := by
    rw [List.flatMap_append, List.mem_append] at hd
    rcases hd with hd | hd
    · obtain ⟨owner, howner, hsigned⟩ := h.signed d hd
      exact ⟨owner, howner, h'.signatures hsigned⟩
    · exact h'.signed d hd
  amounts d hd := by
    rw [List.flatMap_append, List.mem_append] at hd
    exact hd.elim (h.amounts d) (h'.amounts d)
  exactly e he := (List.mem_append.1 he).elim (h.exactly e) (h'.exactly e)

omit [Crypto] in
theorem ownedBy_of_spendable {r : BalanceRecord} {name : String}
    (h : r ∈ ctx.spendableRecords name) : ∃ owner, OwnedBy r owner := by
  have hname := (List.mem_filter.1 h).2
  rw [decide_eq_true_eq, BuilderContext.spendableName] at hname
  cases hdata : r.condition.data <;> rw [hdata] at hname
  · exact ⟨_, _, hdata⟩
  all_goals cases hname

omit [Crypto] in
theorem withdrawals_map_withdraw (l : List WithdrawOperation) :
    withdrawals (l.map .withdraw) = l := by
  induction l with
  | nil => rfl
  | cons w l ih => exact congrArg (w :: ·) ih

omit [Crypto] in
theorem deposits_map_withdraw (l : List WithdrawOperation) :
    deposits (l.map .withdraw) = [] := by
  induction l with
  | nil => rfl
  | cons w l ih => exact ih

omit [Crypto] in
theorem orderKeyForAccount_frame {account : Address} {name : String} {key : PublicKey}
    (h : b.orderKeyForAccount ctx account name = .ok (key, m)) :
    m.operations = b.operations ∧ m.requiredSignatures = b.requiredSignatures := by
  rw [orderKeyForAccount] at h
  split at h
  · obtain ⟨key, -, h⟩ := bind_eq_ok.1 h
    cases pure_eq_ok.1 h
    exact ⟨rfl, rfl⟩
  · cases pure_eq_ok.1 h
    exact ⟨rfl, rfl⟩

theorem settles_deposit (hpos : 0 < e.2.toInt) (hops : m.operations = b.operations)
    (hsigs : m.requiredSignatures = b.requiredSignatures) (recipient : Address) :
    Settles ctx [e] b (m.depositToAddress ⟨e.2, (ofLex e.1).2⟩ recipient) := by
  have hdraws : [e].flatMap (entryDraws ctx) = [] := by
    simp [entryDraws, if_neg (not_lt.2 hpos.le)]
  have hdeposits : [e].flatMap entryDeposits = [⟨e.2, (ofLex e.1).2⟩] := by
    simp [entryDeposits, hpos]
  constructor
  · simp [hdraws, depositToAddress, hops, withdrawals, toWithdrawals]
  · simp [hdeposits, depositToAddress, hops, deposits, WithdrawCondition.withSignature]
  · exact hsigs ▸ fun _ h => h
  · simp [hdraws]
  · simp [hdraws]
  · intro e' he' hneg
    cases List.mem_singleton.1 he'
    omega

theorem settles_debt {account : AccountRecord} (hneg : e.2.toInt < 0)
    (haccount : ctx.lookupAccount (ofLex e.1).1 = some account)
    (h : b.withdrawToTransaction ctx ⟨-e.2, (ofLex e.1).2⟩ account.name = .ok b') :
    Settles ctx [e] b b' := by
  rw [withdrawToTransaction, bind_eq_ok] at h
  obtain ⟨_, -, h⟩ := h
  obtain ⟨hdrawn, hsum, hpos⟩ := withdrawFrom_drawn (fun r hr => ownedBy_of_spendable hr) h
  have hamount : (-e.2).toInt = -e.2.toInt := by
    have hbounds := Int64.toInt_bounds e.2
    rw [Int64.toInt_neg] at hpos ⊢
    rcases lt_or_ge (-e.2.toInt) (2 ^ 63) with hlt | hge
    · exact Int.bmod_eq_of_le (by omega) (by omega)
    · -- the lowest number is its own negative
      have hlowest : -e.2.toInt = 2 ^ 63 := by omega
      rw [hlowest] at hpos
      exact absurd hpos (by decide)
  have hdraws : entryDraws ctx e =
      draw (usable (ofLex e.1).2 (ctx.spendableRecords account.name)) (-e.2).toInt := by
    rw [entryDraws, if_pos hneg, haccount, hamount]
  have hflat : [e].flatMap (entryDraws ctx) = entryDraws ctx e := by simp
  have hdeposits : [e].flatMap entryDeposits = [] := by
    simp [entryDeposits, if_neg (not_lt.2 hneg.le)]
  rw [← hdraws] at hdrawn hsum
  constructor
  · rw [hflat, hdrawn.operations, withdrawals, List.filterMap_append]
    exact congrArg _ (withdrawals_map_withdraw _)
  · rw [hdeposits, hdrawn.operations, deposits, List.filterMap_append]
    exact congrArg _ (deposits_map_withdraw _)
  · exact hdrawn.signatures
  · exact hflat ▸ hdrawn.signed
  · exact hflat ▸ hdrawn.amounts
  · intro e' he' _
    cases List.mem_singleton.1 he'
    rw [hsum, hamount]

theorem settle_settles (h : settle ctx b e = .ok b') : Settles ctx [e] b b' := by
  have hlt : ∀ x y : Int64, x < y ↔ x.toInt < y.toInt := fun _ _ => Int64.lt_iff_toInt_lt
  rw [settle, bind_eq_ok] at h
  obtain ⟨account, haccount, h⟩ := h
  rw [expect_eq_ok] at haccount
  simp only [hlt, Int64.toInt_zero] at h
  split at h
  · rename_i hpos
    obtain ⟨⟨key, m⟩, hkey, h⟩ := bind_eq_ok.1 h
    obtain rfl := pure_eq_ok.1 h
    obtain ⟨hops, hsigs⟩ := orderKeyForAccount_frame hkey
    exact settles_deposit hpos hops hsigs _
  · rename_i hnotpos
    split at h
    · rename_i hneg
      exact settles_debt hneg haccount h
    · rename_i hnotneg
      obtain rfl := pure_eq_ok.1 h
      have hdraws : [e].flatMap (entryDraws ctx) = [] := by simp [entryDraws, hnotneg]
      have hdeposits : [e].flatMap entryDeposits = [] := by simp [entryDeposits, hnotpos]
      refine ⟨by simp [hdraws, toWithdrawals], by simp [hdeposits], fun _ h => h, by simp [hdraws],
        by simp [hdraws], fun e' he' hneg => ?_⟩
      cases List.mem_singleton.1 he'
      exact absurd hneg hnotneg

theorem foldlM_settles (h : entries.foldlM (settle ctx) b = .ok b') : Settles ctx entries b b' := by
  induction entries generalizing b with
  | nil =>
    cases h
    exact .nil _
  | cons e entries ih =>
    rw [List.foldlM_cons, bind_eq_ok] at h
    obtain ⟨m, hm, h⟩ := h
    exact (settle_settles hm).trans (ih h)

end Entries

/-! ## What a finalized transaction should be -/

section Statement

variable (ctx : BuilderContext)

def assetOf (id : BalanceId) : Option AssetId :=
  (ctx.balanceRecords.find? (·.id = id)).map (·.assetId)

def withdrawnIn (a : AssetId) (ws : List WithdrawOperation) : ℤ :=
  (ws.map fun w => if assetOf ctx w.balanceId = some a then w.amount.toInt else 0).sum

def depositedIn (a : AssetId) (ds : List Asset) : ℤ :=
  (ds.map fun d => if d.assetId = a then d.amount.toInt else 0).sum

def withdrawnFrom (id : BalanceId) (ws : List WithdrawOperation) : ℤ :=
  (ws.map fun w => if w.balanceId = id then w.amount.toInt else 0).sum

/-- The withdrawals and deposits make up for the outstanding balances, and they can be made. -/
structure Settled (outstanding : OutstandingBalances) (signatures : Finset Address)
    (ws : List WithdrawOperation) (ds : List Asset) : Prop where
  balanced : ∀ a, withdrawnIn ctx a ws - depositedIn a ds = -OutstandingBalances.total outstanding a
  positive : ∀ w ∈ ws, 0 < w.amount.toInt
  signed : ∀ w ∈ ws, ∃ r ∈ ctx.balanceRecords, r.id = w.balanceId ∧
    ∃ owner, r.condition.owner = some owner ∧ owner ∈ signatures
  notOverdrawn : ∀ w ∈ ws, ∀ r ∈ ctx.balanceRecords, r.id = w.balanceId →
    ∃ spendable, r.getSpendableBalance ctx.now = .ok spendable ∧
      withdrawnFrom r.id ws ≤ spendable.toInt

def debts (entries : List (OutstandingKey × ShareType)) (name : String) (a : AssetId) : List ℤ :=
  (entries.filter fun e => e.2.toInt < 0 ∧ (ofLex e.1).2 = a ∧
    (ctx.lookupAccount (ofLex e.1).1).map (·.name) = some name).map fun e => -e.2.toInt

/-- No account has two or more debts of an asset that together exceed its first spendable record. -/
def OneDebtEach (outstanding : OutstandingBalances) : Prop :=
  ∀ name a r, (usable a (ctx.spendableRecords name)).head? = some r →
    2 ≤ (debts ctx outstanding.entries name a).length →
      (debts ctx outstanding.entries name a).sum ≤ r.balance.toInt

end Statement

section Balance

variable {ctx : BuilderContext} {entries : List (OutstandingKey × ShareType)}
  {b b' : TransactionBuilder} {d : BalanceRecord × ℤ} {e : OutstandingKey × ShareType}

theorem withdrawnFrom_toWithdrawals {id : BalanceId} {draws : List (BalanceRecord × ℤ)}
    (hamounts : ∀ d ∈ draws, 0 < d.2 ∧ d.2 < 2 ^ 63) :
    withdrawnFrom id (toWithdrawals draws) = drawn id draws := by
  rw [withdrawnFrom, toWithdrawals, List.map_map, drawn]
  congr 1
  refine List.map_congr_left fun d hd => ?_
  obtain ⟨hpos, hlt⟩ := hamounts d hd
  simp only [Function.comp_apply, Int64.toInt_ofInt_of_le (by omega : -2 ^ 63 ≤ d.2) hlt]

omit [Crypto] in
theorem mem_entryDraws (h : d ∈ entryDraws ctx e) : ∃ account,
    ctx.lookupAccount (ofLex e.1).1 = some account ∧ e.2.toInt < 0 ∧
    d.1 ∈ usable (ofLex e.1).2 (ctx.spendableRecords account.name) := by
  rw [entryDraws] at h
  split at h
  · rename_i hneg
    split at h
    · cases h
    · rename_i account haccount
      exact ⟨account, haccount, hneg, mem_of_mem_draw h⟩
  · cases h

omit [Crypto] in
theorem mem_usable {r : BalanceRecord} {name : String} {a : AssetId}
    (h : r ∈ usable a (ctx.spendableRecords name)) :
    r ∈ ctx.balanceRecords ∧ ctx.spendableName r = some name ∧ r.assetId = a ∧
      0 < r.balance.toInt := by
  obtain ⟨hspendable, huse⟩ := List.mem_filter.1 h
  obtain ⟨hmem, hname⟩ := List.mem_filter.1 hspendable
  rw [decide_eq_true_eq] at hname huse
  exact ⟨hmem, hname, huse.2, by simpa [Int64.lt_iff_toInt_lt] using huse.1⟩

theorem eq_of_id_eq (hids : (ctx.balanceRecords.map BalanceRecord.id).Nodup) {r r' : BalanceRecord}
    (hr : r ∈ ctx.balanceRecords) (hr' : r' ∈ ctx.balanceRecords) (h : r.id = r'.id) : r = r' :=
  List.inj_on_of_nodup_map hids hr hr' h

theorem assetOf_eq (hids : (ctx.balanceRecords.map BalanceRecord.id).Nodup) {r : BalanceRecord}
    (hr : r ∈ ctx.balanceRecords) : assetOf ctx r.id = some r.assetId := by
  rw [assetOf]
  cases hfind : ctx.balanceRecords.find? (·.id = r.id) with
  | none => exact absurd (List.find?_eq_none.1 hfind r hr) (by simp)
  | some r' =>
    have hid : r'.id = r.id := by simpa using List.find?_some hfind
    rw [eq_of_id_eq hids (List.mem_of_find?_eq_some hfind) hr hid, Option.map_some]

theorem withdrawnIn_entry (hids : (ctx.balanceRecords.map BalanceRecord.id).Nodup) {a : AssetId}
    (hamounts : ∀ d ∈ entryDraws ctx e, 0 < d.2 ∧ d.2 < 2 ^ 63) :
    withdrawnIn ctx a (toWithdrawals (entryDraws ctx e)) =
      if (ofLex e.1).2 = a then ((entryDraws ctx e).map (·.2)).sum else 0 := by
  have hasset : ∀ d ∈ entryDraws ctx e, (if assetOf ctx d.1.id = some a then
      (Int64.ofInt d.2).toInt else 0) = if (ofLex e.1).2 = a then d.2 else 0 := by
    intro d hd
    obtain ⟨account, -, -, huse⟩ := mem_entryDraws hd
    obtain ⟨hmem, -, ha, -⟩ := mem_usable huse
    obtain ⟨hpos, hlt⟩ := hamounts d hd
    rw [assetOf_eq hids hmem, ha, Int64.toInt_ofInt_of_le (by omega) hlt]
    simp only [Option.some.injEq]
  rw [withdrawnIn, toWithdrawals, List.map_map]
  refine (congrArg List.sum (List.map_congr_left hasset)).trans ?_
  split
  · rfl
  · simp

theorem balanced_entries (hids : (ctx.balanceRecords.map BalanceRecord.id).Nodup) (a : AssetId)
    (hamounts : ∀ d ∈ entries.flatMap (entryDraws ctx), 0 < d.2 ∧ d.2 < 2 ^ 63)
    (hexactly : ∀ e ∈ entries, e.2.toInt < 0 →
      ((entryDraws ctx e).map (·.2)).sum = -e.2.toInt) :
    withdrawnIn ctx a (toWithdrawals (entries.flatMap (entryDraws ctx))) -
        depositedIn a (entries.flatMap entryDeposits) =
      -(entries.map fun e => if (ofLex e.1).2 = a then e.2.toInt else 0).sum := by
  induction entries with
  | nil => rfl
  | cons e entries ih =>
    rw [List.flatMap_cons] at hamounts
    have hrest := ih (fun d hd => hamounts d (List.mem_append_right _ hd))
      (fun e he => hexactly e (List.mem_cons_of_mem _ he))
    have hentry := withdrawnIn_entry hids (a := a) fun d hd => hamounts d (List.mem_append_left _ hd)
    have hdeposit : depositedIn a (entryDeposits e) =
        if (ofLex e.1).2 = a ∧ 0 < e.2.toInt then e.2.toInt else 0 := by
      rw [entryDeposits]
      split <;> simp_all [depositedIn]
    have hsplit : withdrawnIn ctx a (toWithdrawals ((e :: entries).flatMap (entryDraws ctx))) -
        depositedIn a ((e :: entries).flatMap entryDeposits) =
        withdrawnIn ctx a (toWithdrawals (entryDraws ctx e)) - depositedIn a (entryDeposits e) +
        (withdrawnIn ctx a (toWithdrawals (entries.flatMap (entryDraws ctx))) -
          depositedIn a (entries.flatMap entryDeposits)) := by
      simp only [withdrawnIn, depositedIn, toWithdrawals, List.flatMap_cons, List.map_append,
        List.sum_append]
      ring
    rw [hsplit, hrest, hentry, hdeposit, List.map_cons, List.sum_cons]
    have hnone : ¬ e.2.toInt < 0 → ((entryDraws ctx e).map (·.2)).sum = 0 := fun h => by
      rw [entryDraws, if_neg h]
      rfl
    have hsum := hexactly e List.mem_cons_self
    by_cases ha : (ofLex e.1).2 = a
    · simp only [ha, if_true, true_and]
      rcases lt_trichotomy e.2.toInt 0 with hneg | hzero | hpos
      · rw [if_neg (by omega), hsum hneg]
        ring
      · rw [if_neg (by omega), hnone (by omega)]
        omega
      · rw [if_pos hpos, hnone (by omega)]
        ring
    · simp [ha]

theorem drawn_entries (hids : (ctx.balanceRecords.map BalanceRecord.id).Nodup) {name : String}
    {a : AssetId} {r : BalanceRecord} (hr : r ∈ usable a (ctx.spendableRecords name)) :
    drawn r.id (entries.flatMap (entryDraws ctx)) =
      ((debts ctx entries name a).map fun x =>
        drawn r.id (draw (usable a (ctx.spendableRecords name)) x)).sum := by
  obtain ⟨hmem, hname, ha, -⟩ := mem_usable hr
  induction entries with
  | nil => rfl
  | cons e entries ih =>
    rw [List.flatMap_cons, drawn_append, ih]
    by_cases hdebt : e.2.toInt < 0 ∧ (ofLex e.1).2 = a ∧
        (ctx.lookupAccount (ofLex e.1).1).map (·.name) = some name
    · have hdebts : debts ctx (e :: entries) name a = -e.2.toInt :: debts ctx entries name a := by
        rw [debts, List.filter_cons_of_pos (by simpa using hdebt)]
        rfl
      obtain ⟨hneg, hasset, hnamed⟩ := hdebt
      obtain ⟨account, haccount, rfl⟩ := Option.map_eq_some_iff.1 hnamed
      have hdraws : entryDraws ctx e =
          draw (usable a (ctx.spendableRecords account.name)) (-e.2.toInt) := by
        rw [entryDraws, if_pos hneg, haccount, hasset]
      rw [hdebts, hdraws, List.map_cons, List.sum_cons]
    · have hdebts : debts ctx (e :: entries) name a = debts ctx entries name a := by
        rw [debts, List.filter_cons_of_neg (by simpa using hdebt)]
        rfl
      -- what another entry draws is of another account or asset
      have hnone : drawn r.id (entryDraws ctx e) = 0 := by
        refine List.sum_eq_zero fun z hz => ?_
        obtain ⟨d, hd, rfl⟩ := List.mem_map.1 hz
        refine if_neg fun hid => hdebt ?_
        obtain ⟨account, haccount, hneg, huse⟩ := mem_entryDraws hd
        obtain ⟨hmem', hname', ha', -⟩ := mem_usable huse
        rw [eq_of_id_eq hids hmem' hmem hid] at hname' ha'
        refine ⟨hneg, ha'.symm.trans ha, ?_⟩
        rw [haccount, Option.map_some, ← hname', hname]
      rw [hdebts, hnone, zero_add]

end Balance

section Slates

variable {ctx : BuilderContext} {b : TransactionBuilder}

omit [Crypto] in
theorem withdrawals_withSlate (slateId : SlateId) (operations : List Operation) :
    withdrawals (operations.map (withSlate slateId)) = withdrawals operations := by
  rw [withdrawals, withdrawals, List.filterMap_map]
  congr 1
  funext op
  cases op with
  | deposit op => by_cases hbase : op.condition.assetId = 0 <;> simp [withSlate, hbase]
  | _ => rfl

omit [Crypto] in
theorem deposits_withSlate (slateId : SlateId) (operations : List Operation) :
    deposits (operations.map (withSlate slateId)) = deposits operations := by
  rw [deposits, deposits, List.filterMap_map]
  congr 1
  funext op
  cases op with
  | deposit op => by_cases hbase : op.condition.assetId = 0 <;> simp [withSlate, hbase]
  | _ => rfl

theorem setDelegateSlate_frame :
    withdrawals (b.setDelegateSlate ctx).operations = withdrawals b.operations ∧
      deposits (b.setDelegateSlate ctx).operations = deposits b.operations ∧
      (b.setDelegateSlate ctx).requiredSignatures = b.requiredSignatures := by
  rw [setDelegateSlate]
  split
  · exact ⟨rfl, rfl, rfl⟩
  · refine ⟨?_, ?_, rfl⟩
    · rw [withdrawals_withSlate]
      split <;> simp [withdrawals]
    · rw [deposits_withSlate]
      split <;> simp [deposits]

end Slates

section Overdrafts

variable {ctx : BuilderContext} {b b' : TransactionBuilder}
  {entries : List (OutstandingKey × ShareType)}

omit [Crypto] in
theorem payFee_frame (h : b.payFee ctx = .ok b') :
    b'.operations = b.operations ∧ b'.requiredSignatures = b.requiredSignatures := by
  by_cases hchosen : ∃ fee, Selected ctx b fee ∧ fee.assetId ≠ -1
  · obtain ⟨fee, hfee, hasset⟩ := hchosen
    obtain ⟨m, -, rfl⟩ := (payFee_eq_ok_of_selected hfee hasset).1 h
    exact ⟨rfl, rfl⟩
  · push Not at hchosen
    obtain ⟨holder, fee, -, rfl⟩ := (payFee_eq_ok_of_unselected hchosen).1 h
    exact ⟨rfl, rfl⟩

omit [Crypto] in
theorem getSpendableBalance_of_ownedBy {r : BalanceRecord} {owner : Address} (h : OwnedBy r owner)
    (now : Time) : r.getSpendableBalance now = .ok r.balance := by
  obtain ⟨memo, hdata⟩ := h
  rw [BalanceRecord.getSpendableBalance, hdata]

theorem overdrawn_iff (hids : (ctx.balanceRecords.map BalanceRecord.id).Nodup) {name : String}
    {a : AssetId} {r : BalanceRecord} {records : List BalanceRecord}
    (husable : usable a (ctx.spendableRecords name) = r :: records) :
    (∀ r' ∈ usable a (ctx.spendableRecords name),
        drawn r'.id (entries.flatMap (entryDraws ctx)) ≤ r'.balance.toInt) ↔
      (2 ≤ (debts ctx entries name a).length →
        (debts ctx entries name a).sum ≤ r.balance.toInt) := by
  have hdebts : ∀ x ∈ debts ctx entries name a, 0 < x := by
    intro x hx
    obtain ⟨e, he, rfl⟩ := List.mem_map.1 hx
    have hneg := (List.mem_filter.1 he).2
    rw [decide_eq_true_eq] at hneg
    omega
  have hnodup : ((usable a (ctx.spendableRecords name)).map BalanceRecord.id).Nodup :=
    hids.sublist ((List.filter_sublist.trans List.filter_sublist).map _)
  have hpos : ∀ r' ∈ usable a (ctx.spendableRecords name), 0 < r'.balance.toInt := fun r' hr' =>
    (mem_usable hr').2.2.2
  have hdrawn : ∀ r' ∈ usable a (ctx.spendableRecords name), _ := fun r' hr' =>
    @drawn_entries _ ctx entries hids name a r' hr'
  rw [husable] at hnodup hpos hdrawn ⊢
  rw [← sum_drawn_le_iff hdebts hnodup hpos]
  exact forall₂_congr fun r' hr' => by rw [hdrawn r' hr']

end Overdrafts

end TransactionBuilder

open TransactionBuilder in
/-- **Finalized transactions.**  The withdrawals and deposits that `finalize` appends make up for the
balances left after the fee, are positive, signed for and overdraw nothing, exactly if no account has
two or more debts of an asset that together exceed its first spendable record. -/
theorem finalize_iff (ctx : BuilderContext) (hids : (ctx.balanceRecords.map BalanceRecord.id).Nodup)
    (fee : Bool) {b paid b' : TransactionBuilder}
    (hpaid : if fee then b.payFee ctx = .ok paid else paid = b)
    (h : b.finalize ctx fee = .ok b') :
    (∃ ws ds, withdrawals b'.operations = withdrawals b.operations ++ ws ∧
      deposits b'.operations = deposits b.operations ++ ds ∧
      Settled ctx paid.outstandingBalances b'.requiredSignatures ws ds) ↔
        OneDebtEach ctx paid.outstandingBalances := by
  have hframe : paid.operations = b.operations ∧ paid.requiredSignatures = b.requiredSignatures := by
    cases fee with
    | false => exact (show paid = b from hpaid) ▸ ⟨rfl, rfl⟩
    | true => exact payFee_frame hpaid
  have hfinal : ∃ m, paid.outstandingBalances.entries.foldlM (settle ctx) paid = .ok m ∧
      b' = m.setDelegateSlate ctx := by
    rw [finalize, bind_eq_ok] at h
    obtain ⟨_, -, h⟩ := h
    cases fee with
    | false =>
      simp only [Bool.false_eq_true, if_false, bind_eq_ok, pure_eq_ok] at h
      obtain ⟨_, rfl, m, hm, rfl⟩ := h
      exact ⟨m, (show paid = _ from hpaid) ▸ hm, rfl⟩
    | true =>
      simp only [if_true, bind_eq_ok, pure_eq_ok] at h
      obtain ⟨paid', hpaid', m, hm, rfl⟩ := h
      cases (show _ = Except.ok paid from hpaid).symm.trans hpaid'
      exact ⟨m, hm, rfl⟩
  obtain ⟨m, hm, rfl⟩ := hfinal
  have hsettles := foldlM_settles hm
  obtain ⟨hws, hds, hsigs⟩ := @setDelegateSlate_frame _ ctx m
  rw [hws, hds, hsigs, hsettles.withdrawals, hsettles.deposits, hframe.1]
  have hfrom : ∀ id, withdrawnFrom id (toWithdrawals
      (paid.outstandingBalances.entries.flatMap (entryDraws ctx))) = _ := fun id =>
    withdrawnFrom_toWithdrawals hsettles.amounts
  constructor
  · rintro ⟨ws, ds, hws, hds, hsettled⟩ name a r hhead
    obtain rfl := List.append_cancel_left hws
    obtain ⟨records, husable⟩ := List.head?_eq_some_iff.1 hhead
    refine (overdrawn_iff hids husable).1 fun r' hr' => ?_
    obtain ⟨hmem, -, -, hpos⟩ := mem_usable hr'
    by_cases hdrawn : ∃ d ∈ paid.outstandingBalances.entries.flatMap (entryDraws ctx),
        d.1.id = r'.id
    · obtain ⟨d, hd, hid⟩ := hdrawn
      obtain ⟨spendable, hspendable, hle⟩ := hsettled.notOverdrawn _ (List.mem_map_of_mem hd) r' hmem
        hid.symm
      obtain ⟨owner, howner⟩ := ownedBy_of_spendable (List.mem_of_mem_filter hr')
      rw [getSpendableBalance_of_ownedBy howner] at hspendable
      cases hspendable
      rwa [hfrom] at hle
    · push Not at hdrawn
      refine le_trans (le_of_eq (List.sum_eq_zero fun z hz => ?_)) hpos.le
      obtain ⟨d, hd, rfl⟩ := List.mem_map.1 hz
      exact if_neg (hdrawn d hd)
  · intro hdebts
    have hmem : ∀ w ∈ toWithdrawals (paid.outstandingBalances.entries.flatMap (entryDraws ctx)),
        ∃ d ∈ paid.outstandingBalances.entries.flatMap (entryDraws ctx),
          w = ⟨d.1.id, Int64.ofInt d.2⟩ ∧ ∃ name a, d.1 ∈ usable a (ctx.spendableRecords name) := by
      intro w hw
      obtain ⟨d, hd, rfl⟩ := List.mem_map.1 hw
      obtain ⟨e, -, hde⟩ := List.mem_flatMap.1 hd
      obtain ⟨account, -, -, huse⟩ := mem_entryDraws hde
      exact ⟨d, hd, rfl, account.name, _, huse⟩
    refine ⟨_, _, rfl, rfl, ?_, ?_, ?_, ?_⟩
    · exact fun a => balanced_entries hids a hsettles.amounts hsettles.exactly
    · intro w hw
      obtain ⟨d, hd, rfl, -⟩ := hmem w hw
      obtain ⟨hpos, hlt⟩ := hsettles.amounts d hd
      rwa [Int64.toInt_ofInt_of_le (by omega) hlt]
    · intro w hw
      obtain ⟨d, hd, rfl, name, a, huse⟩ := hmem w hw
      obtain ⟨owner, ⟨memo, hdata⟩, hsigned⟩ := hsettles.signed d hd
      exact ⟨d.1, (mem_usable huse).1, rfl, owner, by rw [WithdrawCondition.owner, hdata], hsigned⟩
    · intro w hw r hr hid
      obtain ⟨d, hd, rfl, name, a, huse⟩ := hmem w hw
      obtain rfl := eq_of_id_eq hids hr (mem_usable huse).1 hid
      obtain ⟨owner, howner⟩ := ownedBy_of_spendable (List.mem_of_mem_filter huse)
      refine ⟨d.1.balance, getSpendableBalance_of_ownedBy howner _, ?_⟩
      rw [hfrom]
      obtain ⟨r, records, husable⟩ := List.exists_cons_of_ne_nil (List.ne_nil_of_mem huse)
      exact (overdrawn_iff hids husable).2
        (hdebts name a r (by rw [husable, List.head?_cons])) d.1 huse

end Settling

/-- A wallet with an account whose owner key is 1 and active key 2, and fifteen shares of it. -/
def BuilderContext.solo [Crypto] : BuilderContext :=
  let account : AccountRecord := {
    id := 1, name := "alice", publicData := "", ownerKey := 1,
    activeKeyHistory := (∅ : OrdMap Time PublicKey).set 0 2, registrationDate := 0, lastUpdate := 0 }
  let key : KeyData := { accountAddress := 1, publicKey := 5, encryptedPrivateKey := [1] }
  { BuilderContext.bare with
    wallet := (({} : WalletDb).loadAccountRecord ⟨2, account⟩).loadKeyRecord ⟨3, key⟩
    balanceRecords := [{ condition := .withSignature 5 0 0, balance := 15 }] }

def TransactionBuilder.owing (debts : List (Address × ShareType)) : TransactionBuilder where
  outstandingBalances := debts.foldl (fun m d => m.set (toLex (d.1, 0)) (-d.2)) ∅
  operations := [.data ⟨0, []⟩]

open TransactionBuilder in
theorem finalize_one_debt : letI := Crypto.transparent
    ∃ b', (owing [(1, 10)]).finalize .solo false = .ok b' ∧
      ∃ ws ds, withdrawals b'.operations = withdrawals (owing [(1, 10)]).operations ++ ws ∧
        deposits b'.operations = deposits (owing [(1, 10)]).operations ++ ds ∧
        Settled .solo (owing [(1, 10)]).outstandingBalances b'.requiredSignatures ws ds := by
  let := Crypto.transparent
  obtain ⟨b', h⟩ := exists_ok_of_isOk (x := (owing [(1, 10)]).finalize .solo false)
    (by decide +kernel)
  refine ⟨b', h, (finalize_iff .solo (by decide +kernel) false rfl h).2 ?_⟩
  intro name a r _ hlen
  have hle : (debts .solo (owing [(1, 10)]).outstandingBalances.entries name a).length ≤ 1 :=
    (List.length_map _).le.trans (List.length_filter_le _ _)
  omega

open TransactionBuilder in
/-- Two debts of ten shares, under two addresses of the account, are both withdrawn from its fifteen
shares. -/
theorem record_overdrawn : letI := Crypto.transparent
    ∃ b', (owing [(1, 10), (2, 10)]).finalize .solo false = .ok b' ∧
      ∃ r ∈ BuilderContext.solo.balanceRecords, r.balance = 15 ∧
        withdrawnFrom r.id (withdrawals b'.operations) = 20 := by
  let := Crypto.transparent
  exact exists_ok_of_any (x := (owing [(1, 10), (2, 10)]).finalize .solo false)
    (p := fun b' => ∃ r ∈ BuilderContext.solo.balanceRecords, r.balance = 15 ∧
      withdrawnFrom r.id (withdrawals b'.operations) = 20) (by decide +kernel)

end BitShares
