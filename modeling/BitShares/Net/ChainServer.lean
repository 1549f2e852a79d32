import BitShares.Chain.Pending

/-!
# Fast download of a chain

`chain_server.cpp` and `chain_downloader.cpp`: over one connection the server greets with its
protocol version, the client asks for the blocks from a number on, and the server answers with a
count and as many blocks, then with another count for those that came in meanwhile, until nothing is
left and the count is 0.

The chain of the server changes while it serves.  `Download.serve` is what the server does with one
look at the database, and `Download.receive` what the client does with one value it unpacks.
-/

namespace BitShares

def PROTOCOL_VERSION : Nat := 0

/-- `chain_server_commands`, with the argument of the one that has one. -/
inductive ChainRequest where
  | finish
  | getBlocksFromNumber (number : BlockNum)

/-- What the server packs: a `uint32_t`, which is the version or a count, or a block. -/
inductive ChainReply where
  | number (n : Nat)
  | block (b : FullBlock)

/-- Where `serve_client` is.  In `handle_get_blocks_from_number` `end_block` is `start_block` at the
head of the loop. -/
inductive ServerPhase where
  | greeting
  | waiting
  | testing (startBlock : BlockNum)
  | counting (startBlock : BlockNum)
  | sending (startBlock endBlock : BlockNum)
  | stopped

/-- Where the worker of `get_all_blocks` is; `failed` is a value of the other kind. -/
inductive DownloaderPhase where
  | connecting
  | counting
  | retrieving (blocksToRetrieve : Nat)
  | finished
  | refused
  | failed
  deriving DecidableEq

/-- The test of the inner loop of `handle_get_blocks_from_number`. -/
def ServerPhase.next (startBlock endBlock : BlockNum) : ServerPhase :=
  if startBlock ≤ endBlock then .sending startBlock endBlock else .testing startBlock

/-- What the server does on a look at its chain `s`: its next phase, and what it packs.  A block the
database does not have ends it by an exception. -/
def ServerPhase.step (s : ChainState) : ServerPhase → ServerPhase × List ChainReply
  | .greeting => (.waiting, [.number PROTOCOL_VERSION])
  | .testing startBlock =>
    if startBlock ≤ s.head.blockNum then (.counting startBlock, []) else (.waiting, [.number 0])
  | .counting startBlock =>
    (.next startBlock s.head.blockNum,
      [.number ((s.head.blockNum + 2 ^ 32 - startBlock + 1) % 2 ^ 32)])
  | .sending startBlock endBlock =>
    match s.getBlock startBlock with
    | .ok b => (.next ((startBlock + 1) % 2 ^ 32) endBlock, [.block b])
    | .error _ => (.stopped, [])
  | phase => (phase, [])

/-- What the server does with a request. -/
def ServerPhase.request : ChainRequest → ServerPhase
  | .finish => .stopped
  | .getBlocksFromNumber number => .testing (if number = 0 then 1 else number)

/-- What the client does with a value, where `first` is the number it asks from: its next phase, the
block it hands to the callback with the count of those still to come, and what it packs. -/
def DownloaderPhase.step (first : BlockNum) :
    DownloaderPhase → ChainReply → DownloaderPhase × List (FullBlock × Nat) × List ChainRequest
  | .connecting, .number version =>
    if version = PROTOCOL_VERSION then (.counting, [], [.getBlocksFromNumber first])
    else (.refused, [], [.finish])
  | .counting, .number 0 => (.finished, [], [.finish])
  | .counting, .number n => (.retrieving n, [], [])
  | .retrieving n, .block b => (if n - 1 = 0 then .counting else .retrieving (n - 1), [(b, n)], [])
  | .finished, _ => (.finished, [], [])
  | .refused, _ => (.refused, [], [])
  | _, _ => (.failed, [], [])

/-- A connection: both ends, what is under way between them, and what the callback was given. -/
structure Download where
  server : ServerPhase := .greeting
  requests : List ChainRequest := []
  client : DownloaderPhase := .connecting
  replies : List ChainReply := []
  delivered : List (FullBlock × Nat) := []

namespace Download

/-- The server goes on, with its chain at `s`.  It waits for a request if it needs one. -/
def serve (d : Download) (s : ChainState) : Download :=
  match d.server, d.requests with
  | .waiting, [] => d
  | .waiting, request :: rest => { d with server := .request request, requests := rest }
  | phase, _ =>
    { d with server := (phase.step s).1, replies := d.replies ++ (phase.step s).2 }

/-- The client unpacks a value, if one has come. -/
def receive (d : Download) (first : BlockNum) : Download :=
  match d.replies with
  | [] => d
  | reply :: rest =>
    let (client, blocks, requests) := d.client.step first reply
    { d with
      client := client
      replies := rest
      delivered := d.delivered ++ blocks
      requests := d.requests ++ requests }

end Download

/-- The chain is stored up to its head, and its numbers fit. -/
structure ChainState.Served (s : ChainState) : Prop where
  stored : ∀ n, 1 ≤ n → n ≤ s.head.blockNum → ∃ b, s.getBlock n = .ok b
  fits : s.head.blockNum + 1 < 2 ^ 32

/-- The chain at `s` has become that at `s'` by blocks on top. -/
structure ChainState.GrowsTo (s s' : ChainState) : Prop where
  served : s'.Served
  head : s.head.blockNum ≤ s'.head.blockNum
  blocks : ∀ n, 1 ≤ n → n ≤ s.head.blockNum → s'.getBlock n = s.getBlock n

/-- The two ends go on in any order while the chain of the server grows from `s₀` to `s`. -/
inductive DownloadRun (first : BlockNum) (s₀ : ChainState) : ChainState → Download → Prop
  | start (hs : s₀.Served) : DownloadRun first s₀ s₀ {}
  | grow {s s' : ChainState} {d : Download} (hrun : DownloadRun first s₀ s d)
      (hgrow : s.GrowsTo s') : DownloadRun first s₀ s' d
  | serve {s : ChainState} {d : Download} (hrun : DownloadRun first s₀ s d) :
      DownloadRun first s₀ s (d.serve s)
  | receive {s : ChainState} {d : Download} (hrun : DownloadRun first s₀ s d) :
      DownloadRun first s₀ s (d.receive first)

end BitShares
