import BitShares.Game.Block
import BitShares.Net.Node

/-!
# What a node does with ids and blocks

The handlers of `node.cpp` for lists of ids, for requests and for blocks, in the order a block goes
through them: a list of ids comes from a peer, the blocks are requested and received, the backlog
hands them to the client one after the other, and the client's answer is noted at every peer.
-/

namespace BitShares

open Program

/-! ## The client -/

namespace ForkM

variable [Crypto] (extend : ChainState → FullBlock → Except Error ChainState)

/-- `push_block` as `on_new_block` calls it. -/
def pushNewBlock (fuel : Nat) (b : FullBlock) (syncMode : Bool) : ForkM ForkData := do
  let result ← pushBlock extend fuel b
  if syncMode && !result.isLinked then fail .unlinkableBlock else return result

/-- `on_new_block`: the id decides whether the block is known. -/
def onNewBlock (fuel : Nat) (m : BlockMessage) (syncMode : Bool) : ForkM ForkData := do
  let s ← get
  match s.forks.lookup m.blockId with
  | some f =>
    if f.isKnown then
      if syncMode && !f.isLinked then fail .unlinkableBlock else return f
    else pushNewBlock extend fuel m.block syncMode
  | none => pushNewBlock extend fuel m.block syncMode

end ForkM

namespace NodeState

/-! ## Lists of ids -/

/-- Whether `id` is the first block that some other active peer has for us. -/
def isFirstItemForOtherPeer (s : NodeState) (i : Nat) (id : BlockId) : Bool :=
  s.peers.zipIdx.any fun (p, j) => j ≠ i && p.isNext id

/-- Put a list of ids behind those that peer `i` has told us before.  The call of
`get_block_number` for an id we do not know throws, which ends the handler. -/
def mergeItemIds (s : NodeState) (i : Nat) (p : Peer) : List BlockId → Except Peer Peer
  | [] => .ok p
  | first :: rest =>
    let ids := first :: rest
    if p.idsOfItemsToGet = [] then
      if s.isFirstItemForOtherPeer i first then .ok { p with idsOfItemsToGet := ids }
      else
        -- the blocks that were received and processed already
        match (ids.takeWhile s.hasItem).getLast? with
        | none => .ok { p with idsOfItemsToGet := ids }
        | some last => .ok { p with
            lastBlockDelegateHasSeen := last
            lastBlockNumberDelegateHasSeen :=
              (p.lastBlockNumberDelegateHasSeen + (ids.takeWhile s.hasItem).length) % 2 ^ 32
            lastBlockTimeDelegateHasSeen := s.getBlockTime last
            idsOfItemsToGet := ids.dropWhile s.hasItem }
    else
      let kept := (p.idsOfItemsToGet.reverse.dropWhile (· ≠ first)).reverse
      if kept = [] then
        let p := { p with idsOfItemsToGet := [], lastBlockDelegateHasSeen := first }
        match s.client.getBlockNum first with
        | .error _ => .error p
        | .ok n => .ok { p with
            lastBlockNumberDelegateHasSeen := n
            lastBlockTimeDelegateHasSeen := s.getBlockTime first
            idsOfItemsToGet := rest }
      else .ok { p with idsOfItemsToGet := kept.dropLast ++ ids }

/-- What `on_blockchain_item_ids_inventory_message` does to the peer it comes from. -/
def receiveItemIds (s : NodeState) (i : Nat) (ids : List BlockId) (remaining : Nat) (now : Time)
    (p : Peer) : Peer :=
  if p.itemIdsRequestedFromPeer = none then p
  else
    let p := { p with itemIdsRequestedFromPeer := none }
    if remaining = 0 && (ids.length = 0 || ids.length = 1 && ids.all s.hasItem) &&
        p.idsOfItemsToGet = [] && p.numberOfUnfetchedItemIds = 0 then
      { p with weNeedSyncItemsFromPeer := false }
    else
      match s.mergeItemIds i { p with numberOfUnfetchedItemIds := remaining } ids with
      | .error p => p
      | .ok p => p.afterItemIds now

def onBlockchainItemIdsInventoryMessage (i : Nat) (ids : List BlockId) (remaining : Nat)
    (now : Time) (s : NodeState) : NodeState :=
  s.modifyPeer i (s.receiveItemIds i ids remaining now)

/-- Whether the reply to a synopsis is only the last id of it. -/
def endsWithSynopsis (synopsis reply : List BlockId) : Bool :=
  synopsis ≠ [] && reply.length = 1 && reply.getLast? = synopsis.getLast?

/-- What a peer's request for ids, answered with `reply`, tells about it.  Synchronisation starts
again if we thought that we have all its blocks, and do not have the last one it names. -/
def noteSynopsis (s : NodeState) (synopsis reply : List BlockId) (now : Time) (p : Peer) : Peer :=
  let p := { p with
    peerNeedsSyncItemsFromUs := !(reply = [] || endsWithSynopsis synopsis reply) }
  if !p.weNeedSyncItemsFromPeer && synopsis.getLast?.any (!s.hasItem ·) then
    p.startSynchronizing s.parameters now
  else p

/-- What `on_fetch_blockchain_item_ids_message` does to the peer it comes from. -/
def receiveSynopsis (s : NodeState) (synopsis reply : List BlockId) (now : Time) (p : Peer) :
    Peer :=
  if endsWithSynopsis synopsis reply && p.inhibitFetchingSyncBlocks then
    (s.noteSynopsis synopsis reply now p).disconnect now
  else if p.inbound && p.connections = .handshaking then
    (s.noteSynopsis synopsis reply now p).activate s.parameters now
  else s.noteSynopsis synopsis reply now p

/-- `on_fetch_blockchain_item_ids_message`.  A synopsis that the client refuses changes nothing. -/
def onFetchBlockchainItemIdsMessage (i : Nat) (itemType : Nat) (synopsis : List BlockId)
    (now : Time) (s : NodeState) : NodeState :=
  match s.client.getItemIds itemType synopsis 2000 with
  | .error _ => s
  | .ok (reply, _) => s.modifyPeer i (s.receiveSynopsis synopsis reply now)

/-- What `on_fetch_items_message` does to the peer it comes from: `id` is the last block it is sent.
The call of `get_block_number` for an id we do not know throws. -/
def serve (s : NodeState) (id : BlockId) (p : Peer) : Peer :=
  match s.client.getBlockNum id with
  | .error _ => { p with lastBlockDelegateHasSeen := id }
  | .ok n => { p with
      lastBlockDelegateHasSeen := id
      lastBlockNumberDelegateHasSeen := n
      lastBlockTimeDelegateHasSeen := s.getBlockTime id }

/-! ## Requests -/

/-- The ids of a peer's list to request from it: those that are wanted and not chosen yet, until
there are `limit` of them. -/
def chooseItems (wanted : BlockId → Bool) (limit : Nat) : List BlockId → List BlockId → List BlockId
  | [], _ => []
  | id :: ids, chosen =>
    if wanted id && !chosen.contains id then
      if limit ≤ 1 then [id] else id :: chooseItems wanted (limit - 1) ids (id :: chosen)
    else chooseItems wanted limit ids chosen

def requestFromPeers (s : NodeState) (now : Time) : List Peer → List BlockId →
    List Peer × List BlockId
  | [], chosen => ([], chosen)
  | p :: ps, chosen =>
    if p.isActive && p.weNeedSyncItemsFromPeer && p.idle && !p.inhibitFetchingSyncBlocks then
      let ids := chooseItems
        (fun id => !s.haveAlreadyReceivedSyncItem id && !decide (id ∈ s.activeSyncRequests))
        s.parameters.maximumBlocksPerPeerDuringSyncing p.idsOfItemsToGet chosen
      let (ps, chosen) := requestFromPeers s now ps (ids ++ chosen)
      (p.requestSyncItems now ids :: ps, chosen)
    else
      let (ps, chosen) := requestFromPeers s now ps chosen
      (p :: ps, chosen)

/-- One round of `fetch_sync_items_loop`. -/
def fetchSyncItems (now : Time) (s : NodeState) : NodeState :=
  if s.suspendFetchingSyncBlocks then s
  else
    let (peers, chosen) := s.requestFromPeers now s.peers []
    { s with
      peers := peers
      activeSyncRequests := s.activeSyncRequests ∪ chosen.toFinset }

def onItemOffered (i : Nat) (hash : MessageHash) (now : Time) (s : NodeState) : NodeState :=
  let requested := s.peers.any fun p => p.isActive && decide (hash ∈ p.itemsRequestedFromPeer)
  { s with
    peers := s.peers.modify i (·.offer hash now)
    itemsToFetch := if requested || s.itemsToFetch.contains hash then s.itemsToFetch
      else s.itemsToFetch ++ [hash] }

def fetchItem (now : Time) (s : NodeState) (hash : MessageHash) : NodeState :=
  match s.peers.findIdx? fun p => p.isActive && p.idle && p.offers hash with
  | none => s
  | some i =>
    { s with
      peers := s.peers.modify i (·.requestItem hash now)
      itemsToFetch := s.itemsToFetch.erase hash }

/-- One round of `fetch_items_loop`. -/
def fetchItems (now : Time) (s : NodeState) : NodeState := s.itemsToFetch.foldl (fetchItem now) s

def refetch (hash : MessageHash) (s : NodeState) : NodeState :=
  if s.peers.any (fun p => p.isActive && p.offers hash) && !s.itemsToFetch.contains hash then
    { s with itemsToFetch := s.itemsToFetch ++ [hash] }
  else s

/-- `on_item_not_available_message`.  Of an id that was requested for synchronisation only the
peer's entry is erased. -/
def onItemNotAvailableMessage (i : Nat) (hash : Nat) (now : Time) (s : NodeState) : NodeState :=
  match s.peers[i]? with
  | none => s
  | some p =>
    if hash ∈ p.itemsRequestedFromPeer then
      (s.modifyPeer i (·.lackItem hash)).refetch hash
    else if hash ∈ p.syncItemsRequestedFromPeer then s.modifyPeer i (·.lackSyncItem hash now)
    else s

/-- `on_connection_closed`: what the peer still owes us is asked of others. -/
def onConnectionClosed (i : Nat) (s : NodeState) : NodeState :=
  match s.peers[i]? with
  | none => s
  | some p =>
    let s := { s with
      peers := s.peers.modify i Peer.close
      activeSyncRequests := s.activeSyncRequests \ p.syncItemsRequestedFromPeer.keys }
    p.itemsRequestedFromPeer.sortedKeys.foldl (fun s hash => s.refetch hash) s

/-! ## The backlog of received blocks -/

def isPotentialFirstBlock (s : NodeState) (m : BlockMessage) : Bool :=
  s.peers.any (·.isNext m.blockId)

/-- One round of the loop of `process_backlog_of_sync_blocks`, and whether it has handed a block to
the client. -/
def processOne (s : NodeState) : NodeState × Bool :=
  let s := { s with
    receivedSyncItems := s.newReceivedSyncItems.reverse ++ s.receivedSyncItems
    newReceivedSyncItems := [] }
  match s.receivedSyncItems.find? s.isPotentialFirstBlock with
  | none => (s, false)
  | some m =>
    let s' := { s with peers := s.peers.map (Peer.startProcessing m.blockId) }
    if s.mostRecentBlocksAccepted.contains m.blockId then (s', false)
    else
      ({ s' with
        receivedSyncItems := s.receivedSyncItems.eraseP s.isPotentialFirstBlock
        handleMessageCallsInProgress := s.handleMessageCallsInProgress ++ [{ message := m }] }, true)

/-- The loop of `process_backlog_of_sync_blocks`.  Every round but the last takes a block off the
received ones, so `rounds` need not be more than one more than those. -/
def processRounds : Nat → NodeState → NodeState
  | 0, s => s
  | rounds + 1, s =>
    let (s, processed) := s.processOne
    if s.parameters.maximumNumberOfBlocksToHandleAtOneTime ≤ s.handleMessageCallsInProgress.length
    then
      if s.parameters.maximumNumberOfSyncBlocksToPrefetch ≤ s.receivedSyncItems.length then
        { s with suspendFetchingSyncBlocks := true }
      else s
    else if processed then processRounds rounds s
    else s

def processBacklogOfSyncBlocks (s : NodeState) : NodeState :=
  if s.parameters.maximumNumberOfBlocksToHandleAtOneTime ≤ s.handleMessageCallsInProgress.length
  then s
  else processRounds (s.newReceivedSyncItems.length + s.receivedSyncItems.length + 1)
    { s with suspendFetchingSyncBlocks := false }

/-! ## The client's answers -/

/-- `send_sync_block_to_node_delegate` after the client has answered. -/
def finishSyncBlock (m : BlockMessage) (result : Except Error ForkData) (now : Time)
    (s : NodeState) : NodeState :=
  match result with
  | .ok _ => (s.pushAccepted m.blockId).forActive (Peer.syncBlockAccepted s.parameters m now)
  | .error e => s.forActive (Peer.syncBlockRejected m e now)

/-- The end of `process_block_during_normal_operation` for a block that was accepted: every peer
that offered it has it, and it is offered to the others. -/
def finishNormalBlock (m : BlockMessage) (hash : MessageHash) (now : Time) (s : NodeState) :
    NodeState :=
  let s := s.forActive (Peer.normalBlockAccepted m hash now)
  -- `broadcast` records the id once more
  let s := s.pushAccepted m.blockId
  s.forActive (Peer.checkHardFork s.parameters m now)

/-- The end of `process_block_during_normal_operation` for a block that was rejected. -/
def rejectNormalBlock (m : BlockMessage) (now : Time) (s : NodeState) : NodeState :=
  s.forActive (Peer.normalBlockRejected m now)

/-! ## Blocks from peers -/

/-- `process_block_during_normal_operation` up to the call of the client. -/
def processBlockDuringNormalOperation (m : BlockMessage) (hash : MessageHash) (now : Time)
    (s : NodeState) : NodeState :=
  if s.mostRecentBlocksAccepted.contains m.blockId then s.finishNormalBlock m hash now
  else { s with normalCallsInProgress :=
    s.normalCallsInProgress ++ [{ message := m, messageHash := hash }] }

def processBlockMessage (i : Nat) (m : BlockMessage) (hash : MessageHash) (now : Time)
    (s : NodeState) : NodeState :=
  match s.peers[i]? with
  | none => s
  | some p =>
    if hash ∈ p.itemsRequestedFromPeer then
      (s.modifyPeer i (·.payItem hash)).processBlockDuringNormalOperation m hash now
    else if m.blockId ∈ p.syncItemsRequestedFromPeer then
      { s with
        peers := s.peers.modify i fun p => (p.eraseSyncItem m.blockId).afterSyncBlock now
        activeSyncRequests := s.activeSyncRequests.erase m.blockId
        newReceivedSyncItems := m :: s.newReceivedSyncItems }
    else s.modifyPeer i (·.disconnect now)

/-! ## The calls of the client -/

section

variable [Crypto]

/-- `handle_message` of the client. -/
def handleMessage (s : NodeState) (cfg : ClientConfig) (fuel : Nat) (m : BlockMessage)
    (syncMode : Bool) : Option (Except Error ForkData × ForkState) :=
  if s.simulateDisconnect then some (.error (.assertion "!_simulate_disconnect"), s.client)
  else ForkM.onNewBlock (fun c b => c.extendChainOn cfg b) fuel m syncMode s.client

/-- The client answers the `j`th call for a block from synchronisation. -/
def answerSyncCall (cfg : ClientConfig) (fuel : Nat) (j : Nat) (s : NodeState) : Option NodeState :=
  match s.handleMessageCallsInProgress[j]? with
  | some ⟨m, none⟩ => (s.handleMessage cfg fuel m true).map fun (result, client) =>
    { s with
      client := client
      handleMessageCallsInProgress :=
        s.handleMessageCallsInProgress.set j { message := m, result := some result } }
  | _ => none

/-- The client answers the `j`th call for a block from normal operation. -/
def answerNormalCall (cfg : ClientConfig) (fuel : Nat) (j : Nat) (s : NodeState) :
    Option NodeState :=
  match s.normalCallsInProgress[j]? with
  | some ⟨⟨m, none⟩, hash⟩ => (s.handleMessage cfg fuel m false).map fun (result, client) =>
    { s with
      client := client
      normalCallsInProgress := s.normalCallsInProgress.set j
        { message := m, result := some result, messageHash := hash } }
  | _ => none

def produceBlock (cfg : ClientConfig) (fuel : Nat) (b : FullBlock) (s : NodeState) :
    Option NodeState :=
  (s.handleMessage cfg fuel { block := b, blockId := b.id } false).map fun (result, client) =>
    match result with
    | .ok _ => { s with client := client }.pushAccepted b.id
    | .error _ => { s with client := client }

end

/-- The node goes on with the `j`th call for a block from synchronisation. -/
def resumeSyncCall (now : Time) (j : Nat) (s : NodeState) : Option NodeState :=
  match s.handleMessageCallsInProgress[j]? with
  | some ⟨m, some result⟩ =>
    some (finishSyncBlock m result now
      { s with handleMessageCallsInProgress := s.handleMessageCallsInProgress.eraseIdx j })
  | _ => none

/-- The node goes on with the `j`th call for a block from normal operation. -/
def resumeNormalCall (now : Time) (j : Nat) (s : NodeState) : Option NodeState :=
  match s.normalCallsInProgress[j]? with
  | some ⟨⟨m, some result⟩, hash⟩ =>
    let s := { s with normalCallsInProgress := s.normalCallsInProgress.eraseIdx j }
    some (match result with
      | .ok _ => (s.pushAccepted m.blockId).finishNormalBlock m hash now
      | .error _ => s.rejectNormalBlock m now)
  | _ => none

end NodeState

end BitShares
