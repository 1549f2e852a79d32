import BitShares.Fork.Push
import BitShares.Lib.Traced

/-!
# The moves of the head

`extend_chain` and `pop_block` tell others of the chain what they have done: the pool of pending
transactions is cleared of an applied block's, and the observers are told of both.  `Moves.pushBlock`
is `push_block` with a log of these moves, and of the blocks that `extend_chain` has rejected.

* `Moves.follows_pushBlock`: the program without the log.
* `Moves.erase_pushBlock`: the log changes nothing.
* `Moves.quiet_pushBlock`: a push that has applied no block is one in which none could be applied
  (`extendNever`).
-/

namespace BitShares

/-- A call of `pop_block` or of `extend_chain`: the chain and the block it was given, and whether it
has accepted the block. -/
inductive Move where
  | popped
  | tried (c : ChainState) (b : FullBlock) (accepted : Bool)

def Move.isExtended : Move → Bool
  | .popped => false
  | .tried _ _ accepted => accepted

abbrev MovesM := Traced Error ForkState Move

namespace Moves

open Program Traced

variable [Crypto]

/-- `pop_block`, which tells nobody when there is nothing to take off. -/
def popBlock : MovesM Unit := do
  let s ← lift get
  lift ForkM.popBlock
  if s.chain.head.blockNum = 0 then pure () else write .popped

def popUntil (target : BlockId) : Nat → MovesM Unit
  | 0 => lift forever
  | fuel + 1 => do
    let s ← lift get
    if s.chain.headId = target then pure ()
    else do
      popBlock
      popUntil target fuel

variable (extend : ChainState → FullBlock → Except Error ChainState)

/-- `extend_chain`.  The move is logged when the block has been evaluated: what is told of it is only
looked at after the push. -/
def extendChain (fuel : Nat) (b : FullBlock) : MovesM Unit := do
  let s ← lift get
  write (.tried s.chain b (extend s.chain b).isOk)
  lift (ForkM.extendChain extend fuel b)

def extendTo (fuel : Nat) (id : BlockId) : MovesM Unit := do
  let b ← lift (ForkM.fetchBlock id)
  extendChain extend fuel b

def switchToFork (fuel : Nat) (id : BlockId) : MovesM Unit := do
  let s ← lift get
  if s.chain.headId = id then pure ()
  else do
    let history ← lift (ForkM.getForkHistory fuel id)
    popUntil (history.getLastD nullId) fuel
    forEach (extendTo extend fuel) history.dropLast.reverse

def tryFork (fuel : Nat) (b : FullBlock) (id : BlockId) : MovesM Bool := do
  let f ← lift (ForkM.fetchFork id)
  if f.canLink then
    attempt (do switchToFork extend fuel id; return true) fun e => do
      lift (update fun s => if e = .timeInFuture then
        { s with futureBlocks := List.insert b.id s.futureBlocks } else s)
      return false
  else pure false

def tryForks (fuel : Nat) (b : FullBlock) : List BlockId → MovesM Bool
  | [] => return false
  | id :: ids => do
    let done ← tryFork extend fuel b id
    if done then pure true else tryForks fuel b ids

def tryNumbers (fuel : Nat) (b : FullBlock) : BlockNum → MovesM Bool
  | 0 => return false
  | n + 1 => do
    let s ← lift get
    let done ← tryForks extend fuel b ((s.numbers.lookup (n + 1)).getD [])
    if done then pure true else tryNumbers fuel b n

def tryLongest (fuel : Nat) (b : FullBlock) (headNum : BlockNum)
    (longest : BlockId × ForkData) : MovesM Unit :=
  if longest.2.canLink then do
    let highest ← lift (ForkM.fetchBlock longest.1)
    if headNum < highest.blockNum then do
      let _ ← tryNumbers extend fuel b highest.blockNum
      pure ()
    else pure ()
  else pure ()

def placeBlock (fuel : Nat) (b : FullBlock) (headNum : BlockNum) : MovesM ForkData := do
  let longest ← lift (ForkM.storeAndIndex fuel b)
  tryLongest extend fuel b headNum longest
  lift (ForkM.fetchFork b.id)

/-- `push_block` with the moves of the head. -/
def pushBlock (fuel : Nat) (b : FullBlock) : MovesM ForkData := do
  let s ← lift get
  let headNum := s.chain.head.blockNum
  if MAX_UNDO_HISTORY < headNum ∧ b.blockNum ≤ headNum - MAX_UNDO_HISTORY then
    lift (fail .blockOlderThanUndoHistory)
  else
    match s.forks.lookup b.id with
    | some f => if f.isKnown then pure f else placeBlock extend fuel b headNum
    | none => placeBlock extend fuel b headNum

/-! ## Without the log -/

section

variable {P : Move → Prop} {extend} {extend' : ChainState → FullBlock → Except Error ChainState}
  {fuel : Nat}

theorem follows_popBlock : Follows P popBlock ForkM.popBlock := by
  intro s _
  change erase (do
    lift ForkM.popBlock
    if s.chain.head.blockNum = 0 then pure () else write Move.popped) s = _
  rw [erase_bind, erase_lift, bind_apply]
  rcases ForkM.popBlock s with _ | ⟨_ | ⟨⟨⟩⟩, s'⟩
  · rfl
  · rfl
  · dsimp only
    split_ifs <;> rfl

theorem follows_popUntil (target : BlockId) (fuel : Nat) :
    Follows P (popUntil target fuel) (ForkM.popUntil target fuel) := by
  induction fuel with
  | zero => exact follows_lift _
  | succ fuel ih =>
    refine follows_bind (follows_lift get) fun s => ?_
    split_ifs
    · exact follows_pure ()
    · exact follows_bind follows_popBlock fun _ => ih

variable (hextend : ∀ b, Follows P (extendChain extend fuel b) (ForkM.extendChain extend' fuel b))
include hextend

theorem follows_switchToFork (id : BlockId) :
    Follows P (switchToFork extend fuel id) (ForkM.switchToFork extend' fuel id) := by
  refine follows_bind (follows_lift get) fun s => ?_
  split_ifs
  · exact follows_pure ()
  · refine follows_bind (follows_lift _) fun history => ?_
    refine follows_bind (follows_popUntil _ _) fun _ => ?_
    exact follows_forEach (fun id => follows_bind (follows_lift _) hextend) _

theorem follows_tryForks (b : FullBlock) (ids : List BlockId) :
    Follows P (tryForks extend fuel b ids) (ForkM.tryForks extend' fuel b ids) := by
  have htry : ∀ id, Follows P (tryFork extend fuel b id) (ForkM.tryFork extend' fuel b id) := by
    intro id
    refine follows_bind (follows_lift _) fun f => ?_
    split_ifs
    · refine follows_attempt (follows_bind (follows_switchToFork hextend id) fun _ =>
        follows_pure true) fun e => ?_
      exact follows_bind (follows_lift _) fun _ => follows_pure false
    · exact follows_pure false
  induction ids with
  | nil => exact follows_pure false
  | cons id ids ih =>
    refine follows_bind (htry id) fun done => ?_
    cases done with
    | true => exact follows_pure true
    | false => exact ih

theorem follows_tryNumbers (b : FullBlock) (n : BlockNum) :
    Follows P (tryNumbers extend fuel b n) (ForkM.tryNumbers extend' fuel b n) := by
  induction n with
  | zero => exact follows_pure false
  | succ n ih =>
    refine follows_bind (follows_lift get) fun s => ?_
    refine follows_bind (follows_tryForks hextend b _) fun done => ?_
    cases done with
    | true => exact follows_pure true
    | false => exact ih

theorem follows_placeBlock (b : FullBlock) (headNum : BlockNum) :
    Follows P (placeBlock extend fuel b headNum) (ForkM.placeBlock extend' fuel b headNum) := by
  refine follows_bind (follows_lift _) fun longest => ?_
  refine follows_bind ?_ fun _ => follows_lift _
  unfold tryLongest ForkM.tryLongest
  split_ifs
  · refine follows_bind (follows_lift _) fun highest => ?_
    split_ifs
    · exact follows_bind (follows_tryNumbers hextend b _) fun _ => follows_pure ()
    · exact follows_pure ()
  · exact follows_pure ()

/-- **The push without its log**, if the same is known of `extend_chain`. -/
theorem follows_pushBlock (b : FullBlock) :
    Follows P (pushBlock extend fuel b) (ForkM.pushBlock extend' fuel b) := by
  refine follows_bind (follows_lift get) fun s => ?_
  dsimp only
  split_ifs
  · exact follows_lift _
  · cases s.forks.lookup b.id with
    | none => exact follows_placeBlock hextend b _
    | some f =>
      dsimp only
      split_ifs
      · exact follows_pure f
      · exact follows_placeBlock hextend b _

end

theorem erase_extendChain (fuel : Nat) (b : FullBlock) :
    erase (extendChain extend fuel b) = ForkM.extendChain extend fuel b := rfl

theorem erase_pushBlock (fuel : Nat) (b : FullBlock) :
    erase (pushBlock extend fuel b) = ForkM.pushBlock extend fuel b :=
  (follows_pushBlock (fun b s _ => by rw [erase_extendChain]) b).erase_eq

/-- An evaluation of blocks that does not end where `extend` accepts a block. -/
def extendNever (c : ChainState) (b : FullBlock) : Except Error ChainState :=
  match extend c b with
  | .ok _ => .error .endlessLoop
  | .error e => .error e

/-- **A push with another `extend_chain`** is the same if both do the same wherever the log meets
`P`. -/
theorem pushBlock_congr {P : Move → Prop} {extend' : ChainState → FullBlock → Except Error ChainState}
    (hsame : ∀ c b, P (.tried c b (extend c b).isOk) → extend' c b = extend c b) (fuel : Nat)
    (b : FullBlock) (s : ForkState) (h : ∀ m ∈ log (pushBlock extend fuel b) s, P m) :
    ForkM.pushBlock extend' fuel b s = ForkM.pushBlock extend fuel b s := by
  have hfollows : Follows P (pushBlock extend fuel b) (ForkM.pushBlock extend' fuel b) := by
    refine follows_pushBlock (fun b s hlog => ?_) b
    have htried : Move.tried s.chain b (extend s.chain b).isOk ∈ log (extendChain extend fuel b) s :=
      List.mem_cons_self
    rw [erase_extendChain, ForkM.extendChain, ForkM.extendChain, bind_apply, bind_apply]
    dsimp only [Program.get]
    rw [hsame _ _ (hlog _ htried)]
  rw [← hfollows s h, erase_pushBlock]

/-- **A push that has applied no block** is a push in which none could be applied. -/
theorem quiet_pushBlock (fuel : Nat) (b : FullBlock) (s : ForkState)
    (h : ∀ m ∈ log (pushBlock extend fuel b) s, m.isExtended = false) :
    ForkM.pushBlock (extendNever extend) fuel b s = ForkM.pushBlock extend fuel b s := by
  refine pushBlock_congr extend (P := fun m => m.isExtended = false) (fun c b hrejected => ?_) fuel b s h
  unfold extendNever
  split
  · rename_i hext
    rw [hext] at hrejected
    cases hrejected
  · rename_i hext
    exact hext.symm

end Moves

end BitShares
