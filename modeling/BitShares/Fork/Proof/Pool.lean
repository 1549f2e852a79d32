import BitShares.Chain.Proof.Pool
import BitShares.Chain.Proof.Limits
import BitShares.Fork.Pooled
import BitShares.Fork.Proof.Quiet

/-!
# The pool over a moving head

`extend_chain` clears the pool, and `pop_block` does not.  So the pool is out of date after a push
that takes blocks off and puts none on.

* `coherent_of_run`: histories in which the active chain would be accepted again.
* `pool_stale`: when the clock has gone back, it is not.
-/

namespace BitShares

open Program

section

variable [Crypto]

/-- A push keeps the window, and while transactions are pending the blocks of the active chain would
be accepted again. -/
def PoolCall.KeepsPool (n : Pooled) : PoolCall → Prop
  | .pushBlock cfg b => (ForkEvent.push cfg b).KeepsWindow n.fork ∧
      (n.pool.feeIndex = ∅ ∨ Reapplicable (fun c b => c.extendChainOn cfg b)
        { n.fork.chain with blocks := n.fork.chain.blocks.insert b.id b })
  | .storePendingTransaction _ _ _ => True
  | .revalidatePending _ => True

theorem Pool.follow_cases (moves : List Move) (pool : Pool) :
    (∀ m ∈ moves, m.isExtended = false) ∧ moves.foldl Pool.follow pool = pool ∨
      (moves.foldl Pool.follow pool).feeIndex = ∅ ∧
        (moves.foldl Pool.follow pool).state = .over {} := by
  induction moves generalizing pool with
  | nil => exact .inl ⟨fun m hm => (by cases hm), rfl⟩
  | cons m moves ih =>
    rw [List.foldl_cons]
    rcases m with _ | ⟨c, b, _ | _⟩
    case tried.true =>
      right
      rcases ih (pool.clearPending b) with ⟨-, heq⟩ | hcleared
      · rw [Pool.follow, heq]
        exact ⟨rfl, rfl⟩
      · exact hcleared
    all_goals
      refine (ih pool).imp_left fun ⟨hall, heq⟩ => ⟨fun m hm => ?_, heq⟩
      rcases List.mem_cons.1 hm with rfl | hm
      · rfl
      · exact hall m hm

/-- **A push** keeps the pool coherent. -/
theorem Pooled.coherent_push {n m : Pooled} {cfg : ClientConfig} {b : FullBlock} {fuel : Nat}
    (hexact : Exact n.fork) (hpool : n.pool.Coherent n.fork.chain)
    (hc : (PoolCall.pushBlock cfg b).KeepsPool n)
    (hstep : n.step fuel (.pushBlock cfg b) = some m) :
    Exact m.fork ∧ m.pool.Coherent m.fork.chain := by
  obtain ⟨⟨hascends, hshallow, hcfg⟩, hre⟩ := hc
  rw [Pooled.step] at hstep
  split at hstep
  · rename_i moves r fork hpush
    obtain rfl := Option.some.inj hstep
    have hrun : ForkM.pushBlock (fun c b => c.extendChainOn cfg b) fuel b n.fork = some (r, fork) := by
      rw [← Moves.erase_pushBlock, Traced.erase, hpush]
    refine ⟨hexact.push (records_extendChainOn hcfg) hascends hshallow hrun, ?_⟩
    rcases Pool.follow_cases moves n.pool with ⟨hquiet, heq⟩ | ⟨hindex, hstate⟩
    · dsimp only
      rw [heq]
      rcases hre with hindex | hre
      · exact hpool.of_no_index hindex
      · -- no block was applied
        rw [← Moves.quiet_pushBlock _ fuel b n.fork (by rw [Traced.log, hpush]; exact hquiet)] at hrun
        have hchain := hexact.chain_of_quiet hascends hshallow hre hrun
        exact hpool.of_eq (by rw [hchain]) (by rw [hchain])
    · exact Pool.coherent_of_empty hindex hstate
  · cases hstep

/-- **The pool is coherent along every history** in which the active chain would be accepted again
while transactions are pending; and a `store_pending_transaction` that throws leaves it as it is. -/
theorem coherent_of_run (tables : ChainTables) (relayFee : ShareType) (n : Pooled)
    (hrun : PoolRun (fun n c => c.KeepsPool n) (.genesis tables relayFee) n) :
    n.pool.Coherent n.fork.chain ∧ ∀ cfg trx overrideLimits e pool',
      PoolM.storePendingTransaction n.fork.chain cfg trx overrideLimits n.pool =
        some (.error e, pool') → pool' = n.pool := by
  have hinv : Exact n.fork ∧ n.pool.Coherent n.fork.chain := by
    refine hrun.induction (I := fun n => Exact n.fork ∧ n.pool.Coherent n.fork.chain)
      (fun n c fuel m hc hstep h => ?_) ⟨.genesis tables, Pool.coherent_of_empty rfl rfl⟩
    cases c with
    | storePendingTransaction cfg trx overrideLimits =>
      obtain ⟨⟨r, pool⟩, hstore, rfl⟩ := Option.map_eq_some_iff.1 hstep
      have hr := (h.2.store trx overrideLimits).of_eq hstore
      cases r with
      | ok _ => exact ⟨h.1, hr⟩
      | error e =>
        dsimp only at hr
        exact ⟨h.1, by rw [hr]; exact h.2⟩
    | pushBlock cfg b => exact Pooled.coherent_push h.1 h.2 hc hstep
    | revalidatePending cfg =>
      obtain ⟨⟨r, pool⟩, hpool, rfl⟩ := Option.map_eq_some_iff.1 hstep
      exact ⟨h.1, (Pool.coherent_revalidatePending n.pool).of_eq hpool⟩
  refine ⟨hinv.2, fun cfg trx overrideLimits e pool' hstore => ?_⟩
  exact (hinv.2.store trx overrideLimits).of_eq hstore

end

/-! ## Checking the condition of a push -/

theorem Reapplicable.of_genesis [Crypto] {extend : ChainState → FullBlock → Except Error ChainState}
    {c : ChainState} (hnum : c.head.blockNum = 0) (hnull : c.blocks.lookup c.headId = none) :
    Reapplicable extend c := by
  have hrest : ∀ c₁, Relation.ReflTransGen (fun c c' => c.popBlock = .ok c') c c₁ → c₁ = c := by
    intro c₁ hpops
    induction hpops with
    | refl => rfl
    | tail _ hpop ih =>
      subst ih
      rw [ChainState.popBlock, if_pos hnum] at hpop
      exact (Except.ok.inj hpop).symm
  intro c₁ c₂ b hpops _ hb
  rw [hrest c₁ hpops, hnull] at hb
  cases hb

theorem Reapplicable.of_popBlock [Crypto] {extend : ChainState → FullBlock → Except Error ChainState}
    {c c' : ChainState} {b : FullBlock} (hpop : c.popBlock = .ok c')
    (hb : c.blocks.lookup c.headId = some b) (hext : ∃ c₃, extend c' b = .ok c₃)
    (h : Reapplicable extend c') : Reapplicable extend c := by
  intro c₁ c₂ b₁ hpops hpop₁ hb₁
  rcases hpops.cases_head with rfl | ⟨m, hm, hrest⟩
  · rw [hpop] at hpop₁
    rw [hb] at hb₁
    obtain rfl := Except.ok.inj hpop₁
    obtain rfl := Option.some.inj hb₁
    exact hext
  · rw [hpop] at hm
    obtain rfl := Except.ok.inj hm
    exact h c₁ c₂ b₁ hrest hpop₁ hb₁

/-- Whether the blocks of the active chain, taken off one by one, would be accepted again. -/
def ChainState.reapplies [Crypto] (extend : ChainState → FullBlock → Except Error ChainState) :
    Nat → ChainState → Bool
  | 0, _ => false
  | fuel + 1, c =>
    if c.head.blockNum = 0 then (c.blocks.lookup c.headId).isNone
    else
      match c.popBlock, c.blocks.lookup c.headId with
      | .ok c', some b => (extend c' b).isOk && c'.reapplies extend fuel
      | _, _ => false

theorem Reapplicable.of_reapplies [Crypto] {extend : ChainState → FullBlock → Except Error ChainState}
    {fuel : Nat} {c : ChainState} (h : c.reapplies extend fuel = true) : Reapplicable extend c := by
  induction fuel generalizing c with
  | zero => cases h
  | succ fuel ih =>
    rw [ChainState.reapplies] at h
    split at h
    · rename_i hnum
      exact .of_genesis hnum (Option.isNone_iff_eq_none.1 h)
    · split at h
      · rename_i c' b hpop hb
        obtain ⟨hok, hrest⟩ := Bool.and_eq_true_iff.1 h
        exact .of_popBlock hpop hb (exists_ok_of_isOk hok) (ih hrest)
      · cases h

def PoolCall.keepsPool [Crypto] (fuel : Nat) (n : Pooled) : PoolCall → Bool
  | .pushBlock cfg b => (ForkEvent.push cfg b).staysLow n.fork && (decide (n.pool.feeIndex = ∅) ||
      ChainState.reapplies (fun c b => c.extendChainOn cfg b) fuel
        { n.fork.chain with blocks := n.fork.chain.blocks.insert b.id b })
  | .storePendingTransaction _ _ _ => true
  | .revalidatePending _ => true

theorem PoolCall.keepsPool_of_check [Crypto] {fuel : Nat} {n : Pooled} {c : PoolCall}
    (h : c.keepsPool fuel n = true) : c.KeepsPool n := by
  cases c with
  | pushBlock cfg b =>
    obtain ⟨hlow, hpool⟩ := Bool.and_eq_true_iff.1 h
    refine ⟨ForkEvent.keepsWindow_of_low hlow, ?_⟩
    exact (Bool.or_eq_true_iff.1 hpool).imp of_decide_eq_true Reapplicable.of_reapplies
  | storePendingTransaction | revalidatePending => trivial

/-- While a transaction is pending on two blocks, a fork begins, and it stays pending. -/
theorem coherent_forked :
    letI := Crypto.timed
    let trx := dataTransaction 100
    ∃ n, PoolRun (fun n c => c.KeepsPool n) (.genesis (soloTables 100) 0) n ∧
      n.pool.feeIndex.lookup ⟨0, Crypto.transactionId trx⟩ = some trx ∧
      n.fork.chain.head.blockNum = 2 ∧ n.pool.Coherent n.fork.chain := by
  let := Crypto.timed
  intro trx
  let block1 := soloBlock 1 nullId 10 []
  let block2 := soloBlock 2 block1.id 20 []
  let fork2 := soloBlock 2 block1.id 30 []
  let calls : List PoolCall := [.pushBlock { clock := 100 } block1, .pushBlock { clock := 100 } block2,
    .storePendingTransaction { clock := 100 } trx false, .pushBlock { clock := 100 } fork2]
  obtain ⟨n, hn, htrx, hnum⟩ := exists_some_of_any
    (o := (Pooled.genesis (soloTables 100) 0).checkedSteps (fun n c => c.keepsPool 9 n) 9 calls)
    (p := fun n => n.pool.feeIndex.lookup ⟨0, Crypto.transactionId trx⟩ = some trx ∧
      n.fork.chain.head.blockNum = 2) (by decide +kernel)
  have hrun := PoolRun.of_checkedSteps (fun n c => PoolCall.keepsPool_of_check) hn
  exact ⟨n, hrun, htrx, hnum, (coherent_of_run _ _ n hrun).1⟩

/-- **A pool that is out of date**: block 2 is taken off for a fork, and neither the fork nor block 2
is accepted by a clock that has gone back. -/
theorem pool_stale :
    letI := Crypto.timed
    ∃ n, PoolRun (fun _ _ => True) (.genesis (soloTables 100) 0) n ∧ ¬ n.pool.Coherent n.fork.chain := by
  let := Crypto.timed
  let block1 := soloBlock 1 nullId 10 []
  let block2 := soloBlock 2 block1.id 30 []
  let fork2 := soloBlock 2 block1.id 40 []
  let fork3 := soloBlock 3 fork2.id 50 []
  let trx := dataTransaction (30 + MAX_TRANSACTION_EXPIRATION_SEC)
  let calls : List PoolCall := [.pushBlock { clock := 100 } block1, .pushBlock { clock := 100 } block2,
    .pushBlock { clock := 100 } fork2, .storePendingTransaction { clock := 100 } trx false,
    .pushBlock { clock := 0 } fork3]
  obtain ⟨n, hn, hhead, htrx⟩ := exists_some_of_any
    (o := (Pooled.genesis (soloTables 100) 0).steps 9 calls)
    (p := fun n => n.fork.chain.head = block1.toSignedBlockHeader ∧
      n.pool.feeIndex.lookup ⟨0, Crypto.transactionId trx⟩ = some trx) (by decide +kernel)
  refine ⟨n, .of_steps hn fun _ _ _ => trivial, fun h => ?_⟩
  obtain ⟨l, hl, hperm⟩ := h.applied
  have hmem : trx ∈ l := by
    rw [← Multiset.mem_coe, hperm, Multiset.mem_map]
    exact ⟨⟨_, trx⟩, Finmap.lookup_eq_some_iff.1 htrx, rfl⟩
  obtain ⟨cfg, q, r, heval⟩ := hl.mem hmem
  -- the transaction expires too late for the head
  simp only [PendingState.evaluateOn, PendingState.evaluateWithFeesBy, bind_eq_ok,
    require_eq_ok] at heval
  obtain ⟨-, -, -, hexpiration, -⟩ := heval
  change trx.expiration ≤ n.fork.chain.now cfg.toNodeConfig + MAX_TRANSACTION_EXPIRATION_SEC
    at hexpiration
  rw [ChainState.now, hhead, if_neg (by decide)] at hexpiration
  exact absurd hexpiration (by decide)

end BitShares
