import BitShares.Ledger.Types

/-!
# Scanning the chain for the wallet

The chain database schedules a notice for every block it pushes or pops; the wallet's callbacks run
later, in the order they were scheduled, as does the scan that `block_pushed` starts.  A scan looks
at the blocks up to the head it started from.  `scan_block` reads its block and then yields while the
wallet's keys are tried on a memo, and the loop sleeps after every tenth block; so callbacks and other
switches may come in between any two blocks.  All notices are of recent blocks, and the wallet is
open, unlocked and scanning throughout.
-/

namespace BitShares

inductive ChainMove where
  | push (id : BlockId)
  | pop
  deriving DecidableEq

inductive WalletTask where
  | blockPushed (num : Nat)
  | blockPopped
  | scanChain
  deriving DecidableEq

/-- `_scan_in_progress`, until it is ready. -/
inductive ScanTask where
  | scheduled (start : Nat)
  | scanning (prev head count : Nat)
  deriving DecidableEq

/-- The active chain, block 1 first, and the wallet that follows it. -/
structure ScanningWallet where
  chain : List BlockId := []
  tasks : List WalletTask := []
  lastScannedBlockNumber : Nat := 0
  scanInProgress : Option ScanTask := none
  /-- The blocks that `scan_block` has been passed. -/
  scanned : List BlockId := []

/-- The limit `-1` of `block_pushed`, as a `uint32_t`. -/
def scanLimit : Nat := 4294967295

namespace ScanningWallet

def move (w : ScanningWallet) : ChainMove → ScanningWallet
  | .push id =>
    { w with chain := w.chain ++ [id], tasks := w.tasks ++ [.blockPushed (w.chain.length + 1)] }
  | .pop =>
    if w.chain = [] then w
    else { w with chain := w.chain.dropLast, tasks := w.tasks ++ [.blockPopped] }

def startScan (w : ScanningWallet) (start : Nat) : ScanningWallet :=
  if w.scanInProgress.isSome then w
  else { w with scanInProgress := some (.scheduled start), tasks := w.tasks ++ [.scanChain] }

def blockPushed (w : ScanningWallet) (num : Nat) : ScanningWallet :=
  if num ≤ w.lastScannedBlockNumber then w
  else w.startScan (min (w.lastScannedBlockNumber + 1) num)

def blockPopped (w : ScanningWallet) : ScanningWallet :=
  if w.chain.length < w.lastScannedBlockNumber then
    { w with lastScannedBlockNumber := w.chain.length }
  else w

/-- `scan_block`, which throws for a number above the head. -/
def scanBlock (w : ScanningWallet) (num : Nat) : ScanningWallet :=
  { w with scanned := w.scanned ++ w.chain[num - 1]?.toList }

/-- The end of `start_scan_task`. -/
def finishScan (w : ScanningWallet) (prev : Nat) : ScanningWallet :=
  { w with lastScannedBlockNumber := max prev w.lastScannedBlockNumber, scanInProgress := none }

/-- The loop of `start_scan_task` after the block `prev`, up to where `scan_block` may yield in the
next one. -/
def scanOn (w : ScanningWallet) (prev head count : Nat) : ScanningWallet :=
  if prev + 1 ≤ head ∧ count < scanLimit then
    { w.scanBlock (prev + 1) with scanInProgress := some (.scanning (prev + 1) head (count + 1)) }
  else w.finishScan prev

def startScanTask (w : ScanningWallet) (start : Nat) : ScanningWallet :=
  w.scanOn (max start 1 - 1) w.chain.length 0

def runTask (w : ScanningWallet) : WalletTask → ScanningWallet
  | .blockPushed num => w.blockPushed num
  | .blockPopped => w.blockPopped
  | .scanChain =>
    match w.scanInProgress with
    | some (.scheduled start) => w.startScanTask start
    | _ => w

end ScanningWallet

/-- What happens: the chain database pushes a block or switches forks, the next scheduled task runs,
or a scan that has yielded goes on. -/
inductive ScanEvent where
  | switch (moves : List ChainMove)
  | task
  | wake

def ScanningWallet.step (w : ScanningWallet) : ScanEvent → ScanningWallet
  | .switch moves => moves.foldl move w
  | .task =>
    match w.tasks with
    | [] => w
    | t :: tasks => { w with tasks := tasks }.runTask t
  | .wake =>
    match w.scanInProgress with
    | some (.scanning prev head count) => w.scanOn prev head count
    | _ => w

end BitShares
