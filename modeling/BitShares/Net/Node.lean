import BitShares.Sync.Synopsis

/-!
# A node and its peers

The state of `node_impl` and `peer_connection` that blocks and the lists of their ids go through.
Of the items that nodes exchange only blocks are modelled, so outside of synchronisation an item is
the hash of a block message.

All handlers of the node run on one thread and give it up while the client works for them.  A call of
`handle_message` is therefore a record of its own: the client answers it at some moment, and at a later
one the node goes on.  What a handler asks of the client besides (`has_item`, `get_block_time`,
`get_blockchain_synopsis` and the like) is answered at once.
-/

namespace BitShares

/-! ## Messages and parameters -/

abbrev MessageHash := Nat

/-- `block_message`.  Both fields are read from the wire. -/
structure BlockMessage where
  block : FullBlock
  blockId : BlockId

/-- `fc::time_point::min()`, which is also what a time is before it is set. -/
def TIME_MIN : Time := 0

def PEER_DISCONNECT_TIMEOUT : Nat := 20
def FAILED_TERMINATE_TIMEOUT : Nat := 120
def FUTURE_SYNC_BLOCKS_GRACE_PERIOD_SEC : Nat := 60 * 60
def MAX_INVENTORY_SIZE_IN_MINUTES : Nat := 2
def MIN_BLOCK_IDS_TO_PREFETCH : Nat := 10000

/-- `active_disconnect_timeout`. -/
def ACTIVE_DISCONNECT_TIMEOUT : Nat := max (5 * BLOCK_INTERVAL_SEC / 2) 30

/-- `active_ignored_request_timeout`. -/
def ACTIVE_IGNORED_REQUEST_TIMEOUT : Nat := max (BLOCK_INTERVAL_SEC / 4) 10

/-- The advanced parameters of a node, and what `sync_from` tells it. -/
structure NodeParameters where
  maximumNumberOfConnections : Nat := 200
  maximumNumberOfBlocksToHandleAtOneTime : Nat := 200
  maximumNumberOfSyncBlocksToPrefetch : Nat := 2000
  maximumBlocksPerPeerDuringSyncing : Nat := 100
  peerInactivityTimeout : Nat := 5
  hardForkBlockNumbers : List BlockNum := []
  /-- `get_genesis_timestamp` of the chain database. -/
  genesisTimestamp : Time := 0

/-- `get_next_known_hard_fork_block_number`, or 0. -/
def NodeParameters.nextKnownHardForkBlockNumber (q : NodeParameters) (n : BlockNum) : BlockNum :=
  (q.hardForkBlockNumbers.find? (n < ·)).getD 0

/-- Whether block `n` is a hard fork that a peer who knows the forks up to `known` cannot follow. -/
def NodeParameters.leavesBehind (q : NodeParameters) (n known : BlockNum) : Bool :=
  let next := q.nextKnownHardForkBlockNumber known
  q.hardForkBlockNumbers.contains n && known ≠ 0 && next ≠ 0 && next ≤ n

/-! ## Peers -/

inductive Connections where
  | none
  | handshaking
  | active
  | closing
  | terminating
  deriving DecidableEq

/-- `peer_connection`. -/
structure Peer where
  connections : Connections := .handshaking
  /-- Whether `direction` is inbound. -/
  inbound : Bool
  /-- Whether `on_connection_closed` has run; no message comes from the peer after it. -/
  closed : Bool := false
  /-- Whether the peer was handed to `schedule_peer_for_deletion`. -/
  scheduledForDeletion : Bool := false
  theyHaveRequestedClose : Bool := false
  weHaveRequestedClose : Bool := false
  connectionInitiationTime : Time := TIME_MIN
  connectionClosedTime : Time := TIME_MIN
  connectionTerminatedTime : Time := TIME_MIN
  lastMessageReceivedTime : Time := TIME_MIN
  lastMessageSentTime : Time := TIME_MIN
  idsOfItemsToGet : List BlockId := []
  idsOfItemsBeingProcessed : Finset BlockId := ∅
  numberOfUnfetchedItemIds : Nat := 0
  peerNeedsSyncItemsFromUs : Bool := true
  weNeedSyncItemsFromPeer : Bool := true
  /-- When ids were asked for, as long as the reply has not come. -/
  itemIdsRequestedFromPeer : Option Time := none
  syncItemsRequestedFromPeer : Table BlockId Time := ∅
  lastBlockNumberDelegateHasSeen : BlockNum := 0
  lastBlockDelegateHasSeen : BlockId := nullId
  lastBlockTimeDelegateHasSeen : Time := TIME_MIN
  inhibitFetchingSyncBlocks : Bool := false
  inventoryPeerAdvertisedToUs : List (MessageHash × Time) := []
  itemsRequestedFromPeer : Table MessageHash Time := ∅
  lastKnownForkBlockNumber : BlockNum := 0

namespace Peer

def isActive (p : Peer) : Bool := p.connections = .active

def idle (p : Peer) : Bool :=
  p.itemsRequestedFromPeer.keys = ∅ && p.syncItemsRequestedFromPeer.keys = ∅ &&
    p.itemIdsRequestedFromPeer.isNone

/-- Whether the peer is active and `id` is the next block it has for us. -/
def isNext (id : BlockId) (p : Peer) : Bool := p.isActive && p.idsOfItemsToGet.head? = some id

/-- `close_connection`, as far as the node sees it. -/
def closeConnection (now : Time) (p : Peer) : Peer :=
  if p.connectionTerminatedTime ≠ TIME_MIN then { p with connectionTerminatedTime := now } else p

/-- `disconnect_from_peer`. -/
def disconnect (now : Time) (p : Peer) : Peer :=
  if p.theyHaveRequestedClose then closeConnection now { p with connections := .closing }
  else { p with
    connections := .closing
    weHaveRequestedClose := true
    connectionClosedTime := now }

/-- `move_peer_to_terminating_list` and `close_connection`. -/
def terminate (now : Time) (p : Peer) : Peer :=
  closeConnection now { p with connections := .terminating }

/-- `fetch_next_batch_of_item_ids_from_peer`. -/
def fetchNextBatchOfItemIds (now : Time) (p : Peer) : Peer :=
  { p with itemIdsRequestedFromPeer := some now }

/-- `start_synchronizing_with_peer`. -/
def startSynchronizing (q : NodeParameters) (now : Time) (p : Peer) : Peer :=
  fetchNextBatchOfItemIds now { p with
    idsOfItemsToGet := []
    numberOfUnfetchedItemIds := 0
    weNeedSyncItemsFromPeer := true
    lastBlockDelegateHasSeen := nullId
    lastBlockNumberDelegateHasSeen := 0
    lastBlockTimeDelegateHasSeen := q.genesisTimestamp
    inhibitFetchingSyncBlocks := false }

/-- `move_peer_to_active_list` and `new_peer_just_added`. -/
def activate (q : NodeParameters) (now : Time) (p : Peer) : Peer :=
  startSynchronizing q now { p with connections := .active }

/-- The block `m` is now the last one of this peer that the client knows. -/
def seen (m : BlockMessage) (p : Peer) : Peer :=
  { p with
    lastBlockDelegateHasSeen := m.blockId
    lastBlockNumberDelegateHasSeen := m.block.blockNum
    lastBlockTimeDelegateHasSeen := m.block.timestamp }

/-- `clear_old_inventory`: only the entries of the last minutes are left. -/
def clearOldInventory (now : Time) (p : Peer) : Peer :=
  { p with
    inventoryPeerAdvertisedToUs := p.inventoryPeerAdvertisedToUs.filter fun e =>
      decide (now - MAX_INVENTORY_SIZE_IN_MINUTES * 60 ≤ e.2) }

def offers (hash : MessageHash) (p : Peer) : Bool :=
  p.inventoryPeerAdvertisedToUs.any (·.1 = hash)

def offer (hash : MessageHash) (now : Time) (p : Peer) : Peer :=
  let p := p.clearOldInventory now
  if p.offers hash then p
  else { p with inventoryPeerAdvertisedToUs := (hash, now) :: p.inventoryPeerAdvertisedToUs }

def requestItem (hash : MessageHash) (now : Time) (p : Peer) : Peer :=
  { p with itemsRequestedFromPeer := p.itemsRequestedFromPeer.insert hash now }

def payItem (hash : MessageHash) (p : Peer) : Peer :=
  { p with itemsRequestedFromPeer := p.itemsRequestedFromPeer.erase hash }

def lackItem (hash : MessageHash) (p : Peer) : Peer :=
  { p.payItem hash with
    inventoryPeerAdvertisedToUs := p.inventoryPeerAdvertisedToUs.filter (·.1 ≠ hash) }

def eraseSyncItem (id : BlockId) (p : Peer) : Peer :=
  { p with syncItemsRequestedFromPeer := p.syncItemsRequestedFromPeer.erase id }

def lackSyncItem (id : BlockId) (now : Time) (p : Peer) : Peer :=
  if p.peerNeedsSyncItemsFromUs then { p.eraseSyncItem id with inhibitFetchingSyncBlocks := true }
  else (p.eraseSyncItem id).disconnect now

/-- What `on_connection_closed` makes of a peer. -/
def close (p : Peer) : Peer :=
  { p with connections := .none, closed := true, scheduledForDeletion := true }

/-- What `on_closing_connection_message` does to the peer it comes from. -/
def requestClose (now : Time) (p : Peer) : Peer :=
  if p.weHaveRequestedClose then closeConnection now { p with theyHaveRequestedClose := true }
  else { p with theyHaveRequestedClose := true }

def ignoresRequests (now : Time) (p : Peer) : Bool :=
  let threshold := now - ACTIVE_IGNORED_REQUEST_TIMEOUT
  !decide (p.syncItemsRequestedFromPeer.All fun _ t => threshold ≤ t) ||
    p.itemIdsRequestedFromPeer.any (· < threshold) ||
    !decide (p.itemsRequestedFromPeer.All fun _ t => threshold ≤ t)

/-- What `terminate_inactive_connections_loop` does to one peer.  Keepalive messages are not
modelled. -/
def terminateIfInactive (q : NodeParameters) (now : Time) (p : Peer) : Peer :=
  match p.connections with
  | .none => p
  | .handshaking =>
    let threshold := now - q.peerInactivityTimeout
    if p.connectionInitiationTime < threshold ∧ p.lastMessageReceivedTime < threshold ∧
        p.lastMessageSentTime < threshold then p.terminate now else p
  | .active =>
    let threshold := now - ACTIVE_DISCONNECT_TIMEOUT
    if p.connectionInitiationTime < threshold ∧ p.lastMessageReceivedTime < threshold then
      p.disconnect now
    else if p.ignoresRequests now then p.terminate now
    else p
  | .closing =>
    if p.connectionClosedTime < now - PEER_DISCONNECT_TIMEOUT then p.terminate now else p
  | .terminating =>
    if p.connectionTerminatedTime ≠ TIME_MIN ∧
        p.connectionTerminatedTime < now - FAILED_TERMINATE_TIMEOUT then
      { p with connections := .none, scheduledForDeletion := true }
    else p

/-- `on_address_message` at the end of a handshake. -/
def finishHandshake (q : NodeParameters) (rejected : Bool) (now : Time) (p : Peer) : Peer :=
  if p.connections = .handshaking then
    if rejected then p.disconnect now else p.activate q now
  else p

def minimumTimeOfLastOfferedBlock (p : Peer) : Time :=
  (p.lastBlockTimeDelegateHasSeen + p.numberOfUnfetchedItemIds * BLOCK_INTERVAL_SEC) % 2 ^ 32

/-- The end of `on_blockchain_item_ids_inventory_message`: ask for more ids, or leave the peer to
the loop that fetches blocks. -/
def afterItemIds (now : Time) (p : Peer) : Peer :=
  if now + FUTURE_SYNC_BLOCKS_GRACE_PERIOD_SEC < minimumTimeOfLastOfferedBlock p then
    p.disconnect now
  else if p.numberOfUnfetchedItemIds ≠ 0 then
    if MIN_BLOCK_IDS_TO_PREFETCH < p.idsOfItemsToGet.length then p
    else p.fetchNextBatchOfItemIds now
  else if p.idsOfItemsToGet ≠ [] then p
  else p.fetchNextBatchOfItemIds now

/-- `request_sync_items_from_peer`, at the peer. -/
def requestSyncItems (now : Time) (ids : List BlockId) (p : Peer) : Peer :=
  { p with
    syncItemsRequestedFromPeer := ids.foldl (fun t id => if id ∈ t then t else t.insert id now)
      p.syncItemsRequestedFromPeer }

/-- A peer that has sent all it was asked for is asked for more ids, if it has many more. -/
def afterSyncBlock (now : Time) (p : Peer) : Peer :=
  if p.idle ∧ 0 < p.numberOfUnfetchedItemIds ∧
      p.idsOfItemsToGet.length < MIN_BLOCK_IDS_TO_PREFETCH then
    p.fetchNextBatchOfItemIds now
  else p

/-- Take `id` off the list of a peer whose next block it is. -/
def startProcessing (id : BlockId) (p : Peer) : Peer :=
  if p.isNext id then
    { p with
      idsOfItemsToGet := p.idsOfItemsToGet.tail
      idsOfItemsBeingProcessed := insert id p.idsOfItemsBeingProcessed }
  else p

def syncBlockAccepted (q : NodeParameters) (m : BlockMessage) (now : Time) (p : Peer) :
    Peer :=
  if q.leavesBehind m.block.blockNum p.lastKnownForkBlockNumber then p.disconnect now
  else if p.idsOfItemsToGet = [] ∧ p.idsOfItemsBeingProcessed = ∅ then
    if !p.peerNeedsSyncItemsFromUs && !p.weNeedSyncItemsFromPeer then p.startSynchronizing q now
    else p
  else if m.blockId ∈ p.idsOfItemsBeingProcessed then
    let p := { p.seen m with
      idsOfItemsBeingProcessed := p.idsOfItemsBeingProcessed.erase m.blockId }
    if p.idsOfItemsToGet = [] ∧ p.numberOfUnfetchedItemIds = 0 ∧ p.idsOfItemsBeingProcessed = ∅ then
      p.fetchNextBatchOfItemIds now
    else p
  else p

def syncBlockRejected (m : BlockMessage) (e : Error) (now : Time) (p : Peer) : Peer :=
  if m.blockId ∈ p.idsOfItemsBeingProcessed then
    if e = .blockOlderThanUndoHistory then { p with inhibitFetchingSyncBlocks := true }
    else p.disconnect now
  else p

def normalBlockAccepted (m : BlockMessage) (hash : MessageHash) (now : Time) (p : Peer) : Peer :=
  clearOldInventory now (if p.offers hash then p.seen m else p)

def checkHardFork (q : NodeParameters) (m : BlockMessage) (now : Time) (p : Peer) : Peer :=
  if q.leavesBehind m.block.blockNum p.lastKnownForkBlockNumber then p.disconnect now else p

def normalBlockRejected (m : BlockMessage) (now : Time) (p : Peer) : Peer :=
  if p.isNext m.blockId then p.disconnect now else p

end Peer

/-! ## The node -/

/-- A call of `handle_message` for a block: what the client has answered, if it has. -/
structure HandleMessageCall where
  message : BlockMessage
  result : Option (Except Error ForkData) := none

/-- A call during normal operation, which knows the hash under which the block was offered. -/
structure NormalCall extends HandleMessageCall where
  messageHash : MessageHash

/-- `node_impl`, with the client behind it. -/
structure NodeState where
  parameters : NodeParameters := {}
  client : ForkState
  /-- `_simulate_disconnect` of the client. -/
  simulateDisconnect : Bool := false
  /-- All peers there ever were, in the order of their connections. -/
  peers : List Peer := []
  activeSyncRequests : Finset BlockId := ∅
  receivedSyncItems : List BlockMessage := []
  newReceivedSyncItems : List BlockMessage := []
  /-- `_handle_message_calls_in_progress`, without those that are done. -/
  handleMessageCallsInProgress : List HandleMessageCall := []
  /-- The calls that `process_block_during_normal_operation` waits for. -/
  normalCallsInProgress : List NormalCall := []
  suspendFetchingSyncBlocks : Bool := false
  /-- A buffer for `maximumNumberOfConnections` ids, the newest last. -/
  mostRecentBlocksAccepted : List BlockId := []
  itemsToFetch : List MessageHash := []

namespace NodeState

/-- A node that was told to `sync_from` the head of its client. -/
def start (q : NodeParameters) (client : ForkState) : NodeState where
  parameters := q
  client := client
  mostRecentBlocksAccepted := [client.chain.headId]

def modifyPeer (i : Nat) (f : Peer → Peer) (s : NodeState) : NodeState :=
  { s with peers := s.peers.modify i f }

def forActive (f : Peer → Peer) (s : NodeState) : NodeState :=
  { s with peers := s.peers.map fun p => if p.isActive then f p else p }

/-- `has_item` of the client. -/
def hasItem (s : NodeState) (id : BlockId) : Bool :=
  (s.client.forks.lookup id).any ForkData.isKnown

/-- `get_block_time` of the client. -/
def getBlockTime (s : NodeState) (id : BlockId) : Time :=
  if id = nullId then s.parameters.genesisTimestamp
  else ((s.client.chain.blocks.lookup id).map (·.timestamp)).getD TIME_MIN

def haveAlreadyReceivedSyncItem (s : NodeState) (id : BlockId) : Bool :=
  s.receivedSyncItems.any (·.blockId = id) || s.newReceivedSyncItems.any (·.blockId = id)

/-- `_most_recent_blocks_accepted.push_back`. -/
def pushAccepted (id : BlockId) (s : NodeState) : NodeState :=
  let ids := s.mostRecentBlocksAccepted ++ [id]
  { s with
    mostRecentBlocksAccepted := ids.drop (ids.length - s.parameters.maximumNumberOfConnections) }

end NodeState

end BitShares
