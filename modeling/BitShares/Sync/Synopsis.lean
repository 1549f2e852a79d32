import BitShares.Fork.Push

/-!
# What two nodes tell each other to synchronise

`get_blockchain_synopsis` lists ids of a node's chain, ever denser towards its head, and
`get_item_ids` answers with the ids that follow the last one it knows.  Both are what the client
does for the network code, over the chain database with its fork tree.
-/

namespace BitShares

open Program

def BLOCKS_PER_YEAR : Nat := BLOCKS_PER_DAY * 365

/-- `_blockchain_synopsis_size_limit`. -/
def SYNOPSIS_SIZE_LIMIT : Nat := Nat.log2 (BLOCKS_PER_YEAR * 20)

def blockMessageType : Nat := 1001

section

variable [Crypto]

namespace ForkState

def isIncludedBlock (s : ForkState) (id : BlockId) : Bool :=
  (s.forks.lookup id).any ForkData.isIncluded

/-- `get_block_num`, where the genesis block has number 0. -/
def getBlockNum (s : ForkState) (id : BlockId) : Except Error BlockNum :=
  if id = nullId then .ok 0
  else do
    let b ← expect (s.chain.blocks.lookup id) .unknownBlock
    return b.blockNum

/-! ## The answer -/

def lastSeenBlockNum (s : ForkState) (synopsis : List BlockId) : BlockNum :=
  match synopsis.reverse.find? fun id => (s.getBlockNum id).isOk && s.isIncludedBlock id with
  | some id => (s.getBlockNum id).toOption.getD 1
  | none => 1

/-- The ids of `count` blocks from `n` on. -/
def blockIdsFrom (s : ForkState) (n count : Nat) : Option (List BlockId) :=
  (List.range' n count).mapM s.chain.blockNumToId.lookup

/-- `get_item_ids`: the ids and how many are left.  Two checks that only assert in a debug build
are followed by what the release build does. -/
def getItemIds (s : ForkState) (itemType : Nat) (synopsis : List BlockId) (limit : Nat) :
    Except Error (List BlockId × Nat) := do
  require (itemType = blockMessageType) (.assertion "")
  require (synopsis.length ≤ SYNOPSIS_SIZE_LIMIT)
    (.assertion "Peer provided unreasonably long blockchain synopsis during sync")
  let headNum := s.chain.head.blockNum
  if headNum = 0 then return ([], 0)
  else
    let lastSeen := min (s.lastSeenBlockNum synopsis) headNum
    let remaining := (headNum - lastSeen + 1) % 2 ^ 32
    let count := min limit remaining
    match s.blockIdsFrom lastSeen count with
    | none => return ([], 0)
    | some ids => return (ids, remaining - count)

end ForkState

namespace ForkM

/-! ## The synopsis -/

/-- The next number of a synopsis up to `high`, in 32 bits. -/
def nextSynopsisNum (high low : BlockNum) : BlockNum :=
  (low + (high + 2 ^ 32 - low + 2) % 2 ^ 32 / 2) % 2 ^ 32

/-- The id of block `n` of the chain below `nonForkHigh` and of the fork above it. -/
def synopsisId (nonForkHigh : BlockNum) (fork : List BlockId) (n : BlockNum) : ForkM BlockId :=
  if n ≤ nonForkHigh then do
    let s ← get
    let id ← need (s.chain.blockNumToId.lookup n) .unknownBlock
    let b ← fetchBlock id
    return b.id
  else need fork[n - nonForkHigh - 1]? (.assertion "")

/-- The loop of `get_blockchain_synopsis` from `low` on. -/
def synopsisFrom (trueHigh high nonForkHigh : BlockNum) (fork : List BlockId) :
    Nat → BlockNum → ForkM (List BlockId)
  | 0, _ => forever
  | fuel + 1, low => do
    let id ← synopsisId nonForkHigh fork low
    let next := nextSynopsisNum trueHigh low
    if next ≤ high then
      let rest ← synopsisFrom trueHigh high nonForkHigh fork fuel next
      return id :: rest
    else return [id]

/-- `get_block_num` as a step. -/
def fetchBlockNum (id : BlockId) : ForkM BlockNum :=
  if id = nullId then return 0
  else do
    let b ← fetchBlock id
    return b.blockNum

/-- The highest block of the synopsis of a reference point, the highest that is not on a fork, and
the blocks of the fork. -/
def referencedChain (fuel : Nat) (reference : BlockId) :
    ForkM (BlockNum × BlockNum × List BlockId) := do
  let s ← get
  if s.isIncludedBlock reference then
    let n ← fetchBlockNum reference
    return (n, n, [])
  else
    let history ← getForkHistory fuel reference
    let fork := history.dropLast.reverse
    -- an id that is not found leaves the number at 0
    let n ← attempt (fetchBlockNum (history.getLastD nullId)) fun e =>
      if e = .unknownBlock then return 0 else fail e
    return ((n + fork.length) % 2 ^ 32, n, fork)

def getBlockchainSynopsis (fuel : Nat) (itemType : Nat) (reference : BlockId)
    (blocksAfterReference : Nat) : ForkM (List BlockId) := do
  if itemType ≠ blockMessageType then fail (.assertion "")
  else if reference = nullId then
    -- the whole chain
    let s ← get
    let high := s.chain.head.blockNum
    if high = 0 then return []
    else synopsisFrom ((high + blocksAfterReference) % 2 ^ 32) high high [] fuel 1
  else
    let chain ← attempt (do return some (← referencedChain fuel reference)) fun e =>
      if e = .unknownBlock then return none else fail e
    match chain with
    | none => return []
    | some (high, nonForkHigh, fork) =>
      synopsisFrom ((high + blocksAfterReference) % 2 ^ 32) high nonForkHigh fork fuel 1

end ForkM

end

end BitShares
