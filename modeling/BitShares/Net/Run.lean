import BitShares.Net.Blocks

/-!
# Histories of a node

Messages of peers, connections that open and close, the node's loops and the client's answers come
in any order.  The loops of the node run when something has triggered them; here they may run at any
time.  `NodeRun C` is any history whose events all meet a condition `C` in the state they come upon.
-/

namespace BitShares

variable [Crypto]

inductive PeerMessage where
  /-- `address_message`, the last of a handshake; `rejected` if either side rejected the other. -/
  | address (rejected : Bool)
  | fetchBlockchainItemIds (itemType : Nat) (synopsis : List BlockId)
  | blockchainItemIdsInventory (ids : List BlockId) (remaining : Nat)
  /-- `fetch_items_message`; `sent` is the last block that the cache or the client has of it. -/
  | fetchItems (sent : Option BlockId)
  | itemOffered (hash : MessageHash)
  | itemNotAvailable (hash : Nat)
  | block (m : BlockMessage) (hash : MessageHash)
  | closingConnection

inductive NodeEvent where
  | connect (inbound : Bool) (lastKnownFork : BlockNum) (now : Time)
  | receive (i : Nat) (message : PeerMessage) (now : Time)
  | sent (i : Nat) (now : Time)
  | connectionClosed (i : Nat)
  | terminateInactiveConnections (now : Time)
  | fetchSyncItems (now : Time)
  | fetchItems (now : Time)
  | processBacklog
  | answerSync (cfg : ClientConfig) (j : Nat)
  | resumeSync (now : Time) (j : Nat)
  | answerNormal (cfg : ClientConfig) (j : Nat)
  | resumeNormal (now : Time) (j : Nat)
  | produce (cfg : ClientConfig) (b : FullBlock)
  | simulateDisconnect (on : Bool)

namespace NodeState

def onMessage (i : Nat) (now : Time) (s : NodeState) : PeerMessage → NodeState
  | .address rejected => s.modifyPeer i (Peer.finishHandshake s.parameters rejected now)
  | .fetchBlockchainItemIds itemType synopsis =>
    s.onFetchBlockchainItemIdsMessage i itemType synopsis now
  | .blockchainItemIdsInventory ids remaining =>
    s.onBlockchainItemIdsInventoryMessage i ids remaining now
  | .fetchItems none => s
  | .fetchItems (some id) => s.modifyPeer i (s.serve id)
  | .itemOffered hash => s.onItemOffered i hash now
  | .itemNotAvailable hash => s.onItemNotAvailableMessage i hash now
  | .block m hash => s.processBlockMessage i m hash now
  | .closingConnection => s.modifyPeer i (·.requestClose now)

/-- Whether peer `i` is connected, however little we want of it. -/
def isConnected (s : NodeState) (i : Nat) : Bool := s.peers[i]?.any (!·.closed)

def step (s : NodeState) (fuel : Nat) : NodeEvent → Option NodeState
  | .connect inbound lastKnownFork now => some { s with
      peers := s.peers ++ [{
        inbound := inbound
        connectionInitiationTime := now
        lastKnownForkBlockNumber := lastKnownFork }] }
  | .receive i message now =>
    if s.isConnected i then
      some ((s.onMessage i now message).modifyPeer i ({ · with lastMessageReceivedTime := now }))
    else none
  | .sent i now => some (s.modifyPeer i ({ · with lastMessageSentTime := now }))
  | .connectionClosed i => if s.isConnected i then some (s.onConnectionClosed i) else none
  | .terminateInactiveConnections now =>
    some { s with peers := s.peers.map (·.terminateIfInactive s.parameters now) }
  | .fetchSyncItems now => some (s.fetchSyncItems now)
  | .fetchItems now => some (s.fetchItems now)
  | .processBacklog => some s.processBacklogOfSyncBlocks
  | .answerSync cfg j => s.answerSyncCall cfg fuel j
  | .resumeSync now j => s.resumeSyncCall now j
  | .answerNormal cfg j => s.answerNormalCall cfg fuel j
  | .resumeNormal now j => s.resumeNormalCall now j
  | .produce cfg b => s.produceBlock cfg fuel b
  | .simulateDisconnect on => some { s with simulateDisconnect := on }

theorem step_receive_eq_some {s s' : NodeState} {fuel i : Nat} {message : PeerMessage} {now : Time} :
    s.step fuel (.receive i message now) = some s' ↔ s.isConnected i = true ∧
      (s.onMessage i now message).modifyPeer i ({ · with lastMessageReceivedTime := now }) = s' :=
  Option.ite_none_right_eq_some.trans (and_congr_right fun _ => Option.some_inj)

theorem step_connectionClosed_eq_some {s s' : NodeState} {fuel i : Nat} :
    s.step fuel (.connectionClosed i) = some s' ↔
      s.isConnected i = true ∧ s.onConnectionClosed i = s' :=
  Option.ite_none_right_eq_some.trans (and_congr_right fun _ => Option.some_inj)

end NodeState

/-- The states reached by events that meet `C`. -/
inductive NodeRun (C : NodeState → NodeEvent → Prop) : NodeState → NodeState → Prop
  | refl (s : NodeState) : NodeRun C s s
  | step {s m s' : NodeState} {e : NodeEvent} (fuel : Nat) (hc : C s e)
      (h : s.step fuel e = some m) (hrest : NodeRun C m s') : NodeRun C s s'

theorem NodeRun.induction {C : NodeState → NodeEvent → Prop} {I : NodeState → Prop}
    {s s' : NodeState} (hrun : NodeRun C s s')
    (hstep : ∀ s e fuel s', C s e → s.step fuel e = some s' → I s → I s') (hs : I s) : I s' := by
  induction hrun with
  | refl s => exact hs
  | step fuel hc h _ ih => exact ih (hstep _ _ fuel _ hc h hs)

def NodeState.steps (s : NodeState) (fuel : Nat) (events : List NodeEvent) : Option NodeState :=
  events.foldlM (fun s e => s.step fuel e) s

theorem NodeRun.of_steps {C : NodeState → NodeEvent → Prop} {fuel : Nat} {events : List NodeEvent}
    {s s' : NodeState} (h : s.steps fuel events = some s') (hc : ∀ s, ∀ e ∈ events, C s e) :
    NodeRun C s s' :=
  foldlM_run .refl (fun s e he _ _ hm hrest => .step fuel (hc s e he) hm hrest) h

/-- A history that goes on only as long as its events pass a check. -/
def NodeState.checkedSteps (check : NodeState → NodeEvent → Bool) (s : NodeState) (fuel : Nat)
    (events : List NodeEvent) : Option NodeState :=
  events.foldlM (fun s e => if check s e then s.step fuel e else none) s

theorem NodeRun.of_checkedSteps {C : NodeState → NodeEvent → Prop}
    {check : NodeState → NodeEvent → Bool} {fuel : Nat} {events : List NodeEvent}
    (hcheck : ∀ s e, check s e = true → C s e) {s s' : NodeState}
    (h : s.checkedSteps check fuel events = some s') : NodeRun C s s' := by
  refine foldlM_run .refl (fun s e _ m s' hm hrest => ?_) h
  obtain ⟨hc, hm⟩ := Option.ite_none_right_eq_some.1 hm
  exact .step fuel (hcheck s e hc) hm hrest

end BitShares
