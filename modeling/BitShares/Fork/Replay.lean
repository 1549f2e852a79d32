import BitShares.Game.Block
import BitShares.Fork.Push
import BitShares.Lib.Traced

/-!
# Replaying the chain

`chain_database::open` on a directory whose index is of another version, or unfinished: the index is
erased, the blocks are set aside and pushed again, and what was set aside is deleted at the end.  The
table of the block numbers says what to push.  It is read into memory and erased, and then filled again
by the pushes, so a replay that is interrupted leaves the part that it came to.
-/

namespace BitShares

open Program

/-- `BTS_BLOCKCHAIN_DATABASE_VERSION`. -/
def DATABASE_VERSION : Nat := 15

/-- The directory of a node, as far as a replay reads it or keeps something in it. -/
structure DataDir where
  /-- `database_version` in `index/property_id_to_record`. -/
  databaseVersion : Option Nat := none
  /-- `raw_chain/block_num_to_id_db`. -/
  blockNumToId : Table BlockNum BlockId := ∅
  /-- `raw_chain/block_id_to_block_data_db`, or `none` if it does not exist. -/
  blockData : Option (Table BlockId FullBlock) := none
  /-- `raw_chain/block_id_to_data_original`, or `none` if it does not exist. -/
  dataOriginal : Option (Table BlockId FullBlock) := none

namespace DataDir

def replayRequired (d : DataDir) : Bool := d.databaseVersion ≠ some DATABASE_VERSION

/-- The directory when a replay has opened its databases: the index is erased, and the blocks have been
renamed unless an earlier replay had done so.  What does not exist is created. -/
def opened (d : DataDir) : DataDir :=
  if d.blockData.isSome ∧ d.dataOriginal.isNone then
    { d with databaseVersion := none, blockData := some ∅, dataOriginal := d.blockData }
  else
    { d with
      databaseVersion := none
      blockData := some (d.blockData.getD ∅)
      dataOriginal := some (d.dataOriginal.getD ∅) }

def original (d : DataDir) : Table BlockId FullBlock := d.opened.dataOriginal.getD ∅

/-- The blocks that a replay pushes, in order: those that the numbers lead to, or without any numbers
all that there are. -/
def toPush (d : DataDir) : List FullBlock :=
  if d.blockNumToId.sortedKeys = [] then d.original.sortedKeys.filterMap d.original.lookup
  else d.blockNumToId.sortedKeys.filterMap fun n => (d.blockNumToId.lookup n).bind d.original.lookup

/-- The configuration for a replay, with its `_min_undo_block`. -/
def replayConfig (d : DataDir) (cfg : ClientConfig) : ClientConfig :=
  match d.blockNumToId.sortedKeys.getLast? with
  | none => cfg
  | some last =>
    if MAX_UNDO_HISTORY < last then { cfg with minUndoBlock := last - MAX_UNDO_HISTORY } else cfg

def start (d : DataDir) (tables : ChainTables) : ForkState :=
  let s := ForkState.genesis tables
  { s with chain := { s.chain with blocks := d.opened.blockData.getD ∅ } }

section

variable [Crypto] (cfg : ClientConfig) (fuel : Nat) (tables : ChainTables)

/-- `push_block` in a replay. -/
def push (d : DataDir) (b : FullBlock) : ForkM Unit := do
  let _ ← ForkM.pushBlock (fun c b => c.extendChainOn (d.replayConfig cfg) b) fuel b

/-- `insert_block` for one block after the other, with the blocks that have been pushed. -/
def pushAll (d : DataDir) (bs : List FullBlock) : Traced Error ForkState FullBlock Unit :=
  Traced.forEach (fun b => do
    Traced.lift (d.push cfg fuel b)
    Traced.write b) bs

/-- A crash after `k` pushed blocks.  The caches of the index are lost with its version. -/
def interrupted (d : DataDir) (k : Nat) : Option DataDir :=
  (d.pushAll cfg fuel (d.toPush.take k) (d.start tables)).2.map fun p =>
    { databaseVersion := none
      blockNumToId := p.2.chain.blockNumToId
      blockData := some p.2.chain.blocks
      dataOriginal := some d.original }

/-- A replay that completes: the blocks that it has pushed, and the directory without those that were
set aside. -/
def replayed (d : DataDir) : Option (List FullBlock × DataDir) :=
  match d.pushAll cfg fuel d.toPush (d.start tables) with
  | (pushed, some (.ok _, s)) => some (pushed,
    { databaseVersion := some DATABASE_VERSION
      blockNumToId := s.chain.blockNumToId
      blockData := some s.chain.blocks
      dataOriginal := none })
  | _ => none

/-- The blocks are accepted one after the other: each push returns, and enters the number of its
block. -/
def Accepted (d : DataDir) : ForkState → List FullBlock → Prop
  | _, [] => True
  | s, b :: bs => ∃ s', d.push cfg fuel b s = some (.ok (), s') ∧
      s'.chain.blockNumToId = s.chain.blockNumToId.insert b.blockNum b.id ∧ Accepted d s' bs

/-- A replay accepts the first `k` blocks that it pushes. -/
def accepts (tables : ChainTables) (d : DataDir) (cfg : ClientConfig) (fuel k : Nat) : Prop :=
  d.Accepted cfg fuel (d.start tables) (d.toPush.take k)

end

/-- Replays that are each interrupted after some pushed block; `ks` are the numbers of blocks they have
pushed.  Every one has its own configuration, and meets `C`. -/
inductive Interruptions [Crypto] (C : DataDir → ClientConfig → Nat → Nat → Prop)
    (tables : ChainTables) : DataDir → List Nat → DataDir → Prop
  | nil (d : DataDir) : Interruptions C tables d [] d
  | cons {d m d' : DataDir} {k : Nat} {ks : List Nat} (cfg : ClientConfig) (fuel : Nat)
      (hrequired : d.replayRequired = true) (hpos : 1 ≤ k) (hle : k ≤ d.toPush.length)
      (hC : C d cfg fuel k) (h : d.interrupted cfg fuel tables k = some m)
      (hrest : Interruptions C tables m ks d') : Interruptions C tables d (k :: ks) d'

end DataDir

end BitShares
