import BitShares.Chain.Extend
import BitShares.Lib.Program

/-!
# The fork database

`push_block` of `chain_database.cpp` with the tree of blocks under it: `store_and_index` places a
block in the tree, the marks run down its branches, and `switch_to_fork` takes blocks off the active
chain and applies those of another branch.

A throw keeps what was done before it, as in the source: `pop_block` has cleared the flags of the
head when it finds no undo state.  The loops of the source that need not end take a bound on their
rounds, and do not end when it is reached.  `extend` stands for the evaluation of a block and the
batch of its writes; `extendChainOn` is the one of the chain.
-/

namespace BitShares

/-- `block_fork_data`.  The set `next_blocks` is gone through in the order of arrival. -/
structure ForkData where
  nextBlocks : List BlockId := []
  isLinked : Bool := false
  isValid : Option Bool := none
  invalidReason : Option Error := none
  isIncluded : Bool := false
  isKnown : Bool := false
  deriving DecidableEq

namespace ForkData

def invalid (f : ForkData) : Bool := f.isValid = some false

def canLink (f : ForkData) : Bool := f.isLinked && !f.invalid

end ForkData

structure ForkState where
  chain : ChainState
  /-- `_fork_db`. -/
  forks : Table BlockId ForkData
  /-- `_fork_number_db`. -/
  numbers : Table BlockNum (List BlockId) := ∅
  /-- `_revalidatable_future_blocks_db`. -/
  futureBlocks : List BlockId := []
  /-- Whether `pop_block` has ever been called on a head whose undo state is gone.  Nothing reads
  it. -/
  poppedBlind : Bool := false
  /-- The blocks that `extend_chain` has rejected with `time_in_future`.  Nothing reads it. -/
  rejectedAsFuture : List BlockId := []

/-- The database after `initialize_genesis`: the genesis block is the null id. -/
def ForkState.genesis (tables : ChainTables) : ForkState where
  chain := { tables := tables }
  forks := Finmap.singleton nullId
    { isLinked := true, isValid := some true, isIncluded := true, isKnown := true }

abbrev ForkM := Program Error ForkState

namespace ForkM

open Program

/-! ## Reading and writing -/

def fetchFork (id : BlockId) : ForkM ForkData := do
  let s ← get
  need (s.forks.lookup id) .unknownBlock

def storeFork (id : BlockId) (f : ForkData) : ForkM Unit :=
  update fun s => { s with forks := s.forks.insert id f }

def fetchBlock (id : BlockId) : ForkM FullBlock := do
  let s ← get
  need (s.chain.blocks.lookup id) .unknownBlock

/-! ## Marks that run down the tree -/

/-- One round: mark the records of some blocks, and collect their next blocks. -/
def markLevel {A : Type} (mark : ForkData → ForkData) (see : A → BlockId → ForkData → ForkM A) :
    List BlockId → List BlockId → A → ForkM (List BlockId × A)
  | [], pending, acc => return (pending, acc)
  | id :: ids, pending, acc => do
    let f ← fetchFork id
    let record := mark f
    storeFork id record
    let acc ← see acc id record
    markLevel mark see ids (pending ∪ record.nextBlocks) acc

def markDown {A : Type} (mark : ForkData → ForkData) (see : A → BlockId → ForkData → ForkM A) :
    Nat → List BlockId → A → ForkM A
  | _, [], acc => return acc
  | 0, _ :: _, _ => forever
  | fuel + 1, id :: ids, acc => do
    let (pending, acc) ← markLevel mark see (id :: ids) [] acc
    markDown mark see fuel pending acc

structure Longest where
  id : BlockId := nullId
  fork : ForkData := {}
  num : BlockNum := 0

def Longest.see (l : Longest) (id : BlockId) (record : ForkData) : ForkM Longest := do
  let b ← fetchBlock id
  return if l.num < b.blockNum then ⟨id, record, b.blockNum⟩ else l

def recursiveMarkAsLinked (fuel : Nat) (ids : List BlockId) : ForkM (BlockId × ForkData) := do
  let l ← markDown (fun f => { f with isLinked := true }) Longest.see fuel ids {}
  return (l.id, l.fork)

def recursiveMarkAsInvalid (fuel : Nat) (ids : List BlockId) (reason : Option Error) :
    ForkM Unit :=
  markDown (fun f => { f with isValid := some false, invalidReason := reason })
    (fun _ _ _ => pure ()) fuel ids ()

def markInvalid (fuel : Nat) (id : BlockId) (reason : Error) : ForkM Unit := do
  let f ← fetchFork id
  storeFork id { f with isValid := some false, invalidReason := some reason }
  recursiveMarkAsInvalid fuel f.nextBlocks (some reason)

def markAsUnchecked (fuel : Nat) (id : BlockId) : ForkM Unit := do
  let f ← fetchFork id
  storeFork id { f with isValid := none, invalidReason := none }
  markDown (fun f => { f with isValid := none, invalidReason := none })
    (fun _ _ _ => pure ()) fuel f.nextBlocks ()

/-- `clear_invalidation_of_future_blocks`, which a restart runs. -/
def clearInvalidationOfFutureBlocks (fuel : Nat) : ForkM Unit := do
  let s ← get
  forEach (markAsUnchecked fuel) s.futureBlocks

def markIncluded (id : BlockId) (included : Bool) : ForkM Unit := do
  let f ← fetchFork id
  storeFork id { f with
    isIncluded := included
    isValid := if included then some true else f.isValid }

section

variable [Crypto]

/-! ## Placing a block -/

/-- The first half of `store_and_index`: keep the block, list it under its number and tell its
previous block, of which there is at least a placeholder afterwards. -/
def storeBlock (b : FullBlock) : ForkM ForkData := do
  update fun s => { s with
    chain := { s.chain with blocks := s.chain.blocks.insert b.id b }
    numbers := s.numbers.insert b.blockNum ((s.numbers.lookup b.blockNum).getD [] ++ [b.id]) }
  let s ← get
  let prev := (s.forks.lookup b.previous).getD {}
  let prev := { prev with nextBlocks := List.insert b.id prev.nextBlocks }
  storeFork b.previous prev
  return prev

/-- `store_and_index`: the block to consider next, with its record. -/
def storeAndIndex (fuel : Nat) (b : FullBlock) : ForkM (BlockId × ForkData) := do
  let prev ← storeBlock b
  let s ← get
  match s.forks.lookup b.id with
  | some placeholder =>
    if prev.isLinked then
      if prev.invalid then
        let current := { placeholder with
          isKnown := true
          isLinked := true
          isValid := some false
          invalidReason := prev.invalidReason }
        storeFork b.id current
        recursiveMarkAsInvalid fuel current.nextBlocks prev.invalidReason
        return (b.id, current)
      else
        let current := { placeholder with isKnown := true, isLinked := true }
        storeFork b.id current
        recursiveMarkAsLinked fuel current.nextBlocks
    else
      let current := { placeholder with isKnown := true }
      storeFork b.id current
      return (b.id, current)
  | none =>
    let current : ForkData :=
      { isKnown := true
        isLinked := prev.isLinked
        isValid := if prev.invalid then some false else none
        invalidReason := if prev.invalid then prev.invalidReason else none }
    storeFork b.id current
    return (b.id, current)

/-! ## Switching -/

/-- `get_block_header`, where the genesis block has the empty one. -/
def fetchHeader (id : BlockId) : ForkM SignedBlockHeader :=
  if id = nullId then pure .null
  else do
    let b ← fetchBlock id
    return b.toSignedBlockHeader

def popBlock : ForkM Unit := do
  let s ← get
  if s.chain.head.blockNum = 0 then pure ()
  else do
    markIncluded s.chain.headId false
    update fun s => { s with chain := { s.chain with
      blockNumToId := s.chain.blockNumToId.erase s.chain.head.blockNum } }
    match s.chain.undoStates.lookup s.chain.headId with
    | none =>
      update fun s => { s with poppedBlind := true }
      fail (.assertion "")
    | some undo =>
      update fun s => { s with chain := { s.chain with
        tables := undo.applyChanges s.chain.head.blockNum s.chain.tables
        headId := s.chain.head.previous } }
      let header ← fetchHeader s.chain.head.previous
      update fun s => { s with chain := { s.chain with head := header } }

/-- The ids before `id`, down to the first one that is included. -/
def forkHistory : Nat → BlockId → ForkM (List BlockId)
  | 0, _ => forever
  | fuel + 1, id => do
    let b ← fetchBlock id
    if b.previous = nullId then pure [nullId]
    else do
      let prev ← fetchFork b.previous
      if !prev.isLinked then fail (.assertion "we hit a dead end, this fork isn't really linked!")
      else if prev.isIncluded then pure [b.previous]
      else do
        let history ← forkHistory fuel b.previous
        return b.previous :: history

def getForkHistory (fuel : Nat) (id : BlockId) : ForkM (List BlockId) := do
  let history ← forkHistory fuel id
  return id :: history

/-- `while( history.back() != _head_block_id ) pop_block();` -/
def popUntil (target : BlockId) : Nat → ForkM Unit
  | 0 => forever
  | fuel + 1 => do
    let s ← get
    if s.chain.headId = target then pure ()
    else do
      popBlock
      popUntil target fuel

variable (extend : ChainState → FullBlock → Except Error ChainState)

/-- `extend_chain` with its marks. -/
def extendChain (fuel : Nat) (b : FullBlock) : ForkM Unit := do
  let s ← get
  match extend s.chain b with
  | .ok chain =>
    update fun s => { s with chain := chain }
    markIncluded b.id true
  | .error e =>
    if e = .endlessLoop then forever
    else do
      markInvalid fuel b.id e
      update fun s => if e = .timeInFuture then
        { s with rejectedAsFuture := List.insert b.id s.rejectedAsFuture } else s
      fail e

/-- `extend_chain( get_block( id ) )`. -/
def extendTo (fuel : Nat) (id : BlockId) : ForkM Unit := do
  let b ← fetchBlock id
  extendChain extend fuel b

def switchToFork (fuel : Nat) (id : BlockId) : ForkM Unit := do
  let s ← get
  if s.chain.headId = id then pure ()
  else do
    let history ← getForkHistory fuel id
    popUntil (history.getLastD nullId) fuel
    forEach (extendTo extend fuel) history.dropLast.reverse

/-! ## Pushing -/

/-- Try one block of the scan, for the sake of `b`. -/
def tryFork (fuel : Nat) (b : FullBlock) (id : BlockId) : ForkM Bool := do
  let f ← fetchFork id
  if f.canLink then
    attempt (do switchToFork extend fuel id; return true) fun e => do
      update fun s => if e = .timeInFuture then
        { s with futureBlocks := List.insert b.id s.futureBlocks } else s
      return false
  else pure false

def tryForks (fuel : Nat) (b : FullBlock) : List BlockId → ForkM Bool
  | [] => return false
  | id :: ids => do
    let done ← tryFork extend fuel b id
    if done then pure true else tryForks fuel b ids

/-- Try the numbers from `n` down to 1. -/
def tryNumbers (fuel : Nat) (b : FullBlock) : BlockNum → ForkM Bool
  | 0 => return false
  | n + 1 => do
    let s ← get
    let done ← tryForks extend fuel b ((s.numbers.lookup (n + 1)).getD [])
    if done then pure true else tryNumbers fuel b n

/-- The scan that `push_block` makes if the block to consider is higher than the head was. -/
def tryLongest (fuel : Nat) (b : FullBlock) (headNum : BlockNum)
    (longest : BlockId × ForkData) : ForkM Unit :=
  if longest.2.canLink then do
    let highest ← fetchBlock longest.1
    if headNum < highest.blockNum then do
      let _ ← tryNumbers extend fuel b highest.blockNum
      pure ()
    else pure ()
  else pure ()

/-- `push_block` for a block that is not known yet. -/
def placeBlock (fuel : Nat) (b : FullBlock) (headNum : BlockNum) : ForkM ForkData := do
  let longest ← storeAndIndex fuel b
  tryLongest extend fuel b headNum longest
  fetchFork b.id

def pushBlock (fuel : Nat) (b : FullBlock) : ForkM ForkData := do
  let s ← get
  let headNum := s.chain.head.blockNum
  if MAX_UNDO_HISTORY < headNum ∧ b.blockNum ≤ headNum - MAX_UNDO_HISTORY then
    fail .blockOlderThanUndoHistory
  else
    match s.forks.lookup b.id with
    | some f => if f.isKnown then pure f else placeBlock extend fuel b headNum
    | none => placeBlock extend fuel b headNum

end

end ForkM

end BitShares
