import BitShares.Fork.Moves
import BitShares.Fork.Run
import BitShares.Chain.Pool

/-!
# A node with its pool

A node takes in blocks and pending transactions, and evaluates the pending transactions again after
a block.  `PoolRun C` is any history of these calls that all meet a condition `C` in the state they
come upon.
-/

namespace BitShares

variable [Crypto]

structure Pooled where
  fork : ForkState
  pool : Pool

/-- The node after `initialize_genesis`. -/
def Pooled.genesis (tables : ChainTables) (relayFee : ShareType) : Pooled where
  fork := .genesis tables
  pool := { relayFee := relayFee }

def Pool.follow (pool : Pool) : Move → Pool
  | .tried _ b true => pool.clearPending b
  | _ => pool

/-- The calls, each under the configuration that the node has at that moment. -/
inductive PoolCall where
  | storePendingTransaction (cfg : ClientConfig) (trx : SignedTransaction) (overrideLimits : Bool)
  | pushBlock (cfg : ClientConfig) (b : FullBlock)
  | revalidatePending (cfg : ClientConfig)

/-- One call.  What it returns or throws does not matter to the state. -/
def Pooled.step (n : Pooled) (fuel : Nat) : PoolCall → Option Pooled
  | .storePendingTransaction cfg trx overrideLimits =>
    (PoolM.storePendingTransaction n.fork.chain cfg trx overrideLimits n.pool).map fun (_, pool) =>
      { n with pool := pool }
  | .pushBlock cfg b =>
    match Moves.pushBlock (fun c b => c.extendChainOn cfg b) fuel b n.fork with
    | (moves, some (_, fork)) => some ⟨fork, moves.foldl Pool.follow n.pool⟩
    | (_, none) => none
  | .revalidatePending cfg =>
    (PoolM.revalidatePending n.fork.chain cfg n.pool).map fun (_, pool) => { n with pool := pool }

/-- The states reached by calls that meet `C`. -/
inductive PoolRun (C : Pooled → PoolCall → Prop) : Pooled → Pooled → Prop
  | refl (n : Pooled) : PoolRun C n n
  | step {n m n' : Pooled} {c : PoolCall} (fuel : Nat) (hc : C n c) (h : n.step fuel c = some m)
      (hrest : PoolRun C m n') : PoolRun C n n'

def Pooled.steps (n : Pooled) (fuel : Nat) (calls : List PoolCall) : Option Pooled :=
  calls.foldlM (fun n c => n.step fuel c) n

theorem PoolRun.of_steps {C : Pooled → PoolCall → Prop} {fuel : Nat} {calls : List PoolCall}
    {n n' : Pooled} (h : n.steps fuel calls = some n') (hc : ∀ n, ∀ c ∈ calls, C n c) :
    PoolRun C n n' :=
  foldlM_run .refl (fun n c hmem _ _ hm hrest => .step fuel (hc n c hmem) hm hrest) h

/-- A history that goes on only as long as its calls pass a check. -/
def Pooled.checkedSteps (check : Pooled → PoolCall → Bool) (n : Pooled) (fuel : Nat)
    (calls : List PoolCall) : Option Pooled :=
  calls.foldlM (fun n c => if check n c then n.step fuel c else none) n

theorem PoolRun.of_checkedSteps {C : Pooled → PoolCall → Prop} {check : Pooled → PoolCall → Bool}
    {fuel : Nat} {calls : List PoolCall} (hcheck : ∀ n c, check n c = true → C n c) {n n' : Pooled}
    (h : n.checkedSteps check fuel calls = some n') : PoolRun C n n' := by
  refine foldlM_run .refl (fun n c _ m n' hm hrest => ?_) h
  obtain ⟨hc, hm⟩ := Option.ite_none_right_eq_some.1 hm
  exact .step fuel (hcheck n c hc) hm hrest

theorem PoolRun.induction {C : Pooled → PoolCall → Prop} {I : Pooled → Prop} {n n' : Pooled}
    (hrun : PoolRun C n n')
    (hstep : ∀ n c fuel m, C n c → n.step fuel c = some m → I n → I m) (hn : I n) : I n' := by
  induction hrun with
  | refl => exact hn
  | step fuel hc h _ ih => exact ih (hstep _ _ fuel _ hc h hn)

end BitShares
