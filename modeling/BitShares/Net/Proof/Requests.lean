import BitShares.Chain.Run
import BitShares.Net.Proof.Steps

/-!
# Requests for blocks

A block that is asked for during synchronisation is entered in `_active_sync_requests` and with the
peer it is asked of.  Nobody else is asked for it until the first entry is gone, so an id must not
stay there when no peer owes it.

* `NodeState.Tracked`: every active request is owed by a peer that is not about to be deleted.
* `NodeEvent.Tracks`: the events that keep it.
* `requests_tracked`: along every history of such events it stays.
* `request_lost`: a peer says that it does not have a block, and the request is owed by no one.
-/

namespace BitShares

/-! ## Peers -/

namespace Peer

/-- The peer owes what it did, but for the blocks in `P`, and is no nearer to its deletion. -/
structure Keeps (P : BlockId → Prop) (p p' : Peer) : Prop where
  scheduled : p'.scheduledForDeletion = p.scheduledForDeletion
  requested : ∀ id ∈ p.syncItemsRequestedFromPeer, ¬ P id → id ∈ p'.syncItemsRequestedFromPeer
  up : p'.IsUp → p.IsUp

variable {P : BlockId → Prop} {p p' p'' : Peer}

theorem Moves.keeps (h : p.Moves p') : p.Keeps P p' where
  scheduled := h.scheduled
  requested _ hid _ := h.requested ▸ hid
  up := h.up

theorem Keeps.moves (h : p.Keeps P p') (h' : p'.Moves p'') : p.Keeps P p'' :=
  have hkeeps := h'.keeps (P := fun _ => False)
  ⟨hkeeps.scheduled.trans h.scheduled,
    fun id hid hpaid => hkeeps.requested id (h.requested id hid hpaid) not_false,
    fun hup => h.up (hkeeps.up hup)⟩

theorem keeps_eraseSyncItem (p : Peer) (id : BlockId) : p.Keeps (· = id) (p.eraseSyncItem id) :=
  ⟨rfl, fun _ hid hne => Finmap.mem_erase.2 ⟨hne, hid⟩, fun h => h⟩

theorem keeps_lackSyncItem (p : Peer) (id : BlockId) (now : Time) :
    p.Keeps (· = id) (p.lackSyncItem id now) := by
  unfold lackSyncItem
  split_ifs
  · exact (p.keeps_eraseSyncItem id).moves (.stay rfl rfl rfl rfl rfl)
  · exact (p.keeps_eraseSyncItem id).moves (rests_disconnect _ now).toMoves

theorem keeps_startProcessing (p : Peer) (id : BlockId) : p.Keeps P (p.startProcessing id) := by
  unfold startProcessing
  split_ifs <;> exact ⟨rfl, fun _ h _ => h, fun h => h⟩

theorem keeps_syncBlockAccepted (p : Peer) (q : NodeParameters) (m : BlockMessage) (now : Time) :
    p.Keeps P (p.syncBlockAccepted q m now) := by
  unfold syncBlockAccepted
  dsimp only
  split_ifs
  · exact (p.rests_disconnect now).toMoves.keeps
  all_goals exact ⟨rfl, fun _ h _ => h, fun h => h⟩

end Peer

/-! ## The node -/

namespace NodeState

/-- Peer `i` owes the block, and has not been scheduled for deletion. -/
def Owes (s : NodeState) (i : Nat) (id : BlockId) : Prop :=
  ∃ p, s.peers[i]? = some p ∧ p.scheduledForDeletion = false ∧ id ∈ p.syncItemsRequestedFromPeer

/-- **Every active request is owed** by a peer that has not been scheduled for deletion. -/
structure Tracked (s : NodeState) : Prop where
  owed : ∀ id ∈ s.activeSyncRequests, ∃ i, s.Owes i id
  up : ∀ (i : Nat) (p : Peer), s.peers[i]? = some p → p.IsUp → p.scheduledForDeletion = false

namespace Tracked

variable {s s' : NodeState}

theorem of_keeps (h : s.Tracked) {P : BlockId → Prop} {f : Nat → Peer → Peer}
    (hpeers : ∀ j : Nat, s'.peers[j]? = s.peers[j]?.map (f j))
    (hf : ∀ (j : Nat) (p : Peer), s.peers[j]? = some p → p.Keeps P (f j p))
    (hactive : ∀ id ∈ s'.activeSyncRequests, id ∈ s.activeSyncRequests)
    (hpaid : ∀ id ∈ s'.activeSyncRequests, P id → ∃ i, s'.Owes i id) : s'.Tracked where
  owed id hid := by
    by_cases hp : P id
    · exact hpaid id hid hp
    obtain ⟨i, p, hi, hscheduled, howed⟩ := h.owed id (hactive id hid)
    refine ⟨i, f i p, ?_, ?_, (hf i p hi).requested id howed hp⟩
    · rw [hpeers, hi, Option.map_some]
    · rw [(hf i p hi).scheduled, hscheduled]
  up j p' hp' hup := by
    rw [hpeers] at hp'
    obtain ⟨p, hp, rfl⟩ := Option.map_eq_some_iff.1 hp'
    rw [(hf j p hp).scheduled]
    exact h.up j p hp ((hf j p hp).up hup)

theorem of_keeps_all (h : s.Tracked) {f : Nat → Peer → Peer}
    (hpeers : ∀ j : Nat, s'.peers[j]? = s.peers[j]?.map (f j))
    (hf : ∀ (j : Nat) (p : Peer), s.peers[j]? = some p → p.Keeps (fun _ => False) (f j p))
    (hactive : s'.activeSyncRequests = s.activeSyncRequests) : s'.Tracked :=
  h.of_keeps hpeers hf (fun _ hid => hactive ▸ hid) fun _ _ hpaid => hpaid.elim

theorem of_eq (h : s.Tracked) (hpeers : s'.peers = s.peers)
    (hactive : s'.activeSyncRequests = s.activeSyncRequests) : s'.Tracked :=
  h.of_keeps_all (f := fun _ p => p) (fun j => by rw [hpeers, Option.map_id'])
    (fun _ p _ => (Peer.Moves.refl p).keeps) hactive

theorem modifyPeer (h : s.Tracked) (i : Nat) {f : Peer → Peer} (hf : ∀ p : Peer, p.Moves (f p)) :
    (s.modifyPeer i f).Tracked :=
  h.of_keeps_all (s.getElem?_modifyPeer i f) (fun j p _ => by
    split_ifs
    · exact (hf p).keeps
    · exact (Peer.Moves.refl p).keeps) rfl

theorem forActive (h : s.Tracked) {f : Peer → Peer}
    (hf : ∀ p : Peer, p.Keeps (fun _ => False) (f p)) : (s.forActive f).Tracked :=
  h.of_keeps_all (s.getElem?_forActive f) (fun j p _ => by
    split_ifs
    · exact hf p
    · exact (Peer.Moves.refl p).keeps) rfl

theorem refetch (h : s.Tracked) (hash : MessageHash) : (s.refetch hash).Tracked := by
  unfold NodeState.refetch
  split_ifs
  · exact h.of_eq rfl rfl
  · exact h

theorem fetchItems (h : s.Tracked) (now : Time) : (s.fetchItems now).Tracked := by
  refine List.foldlRecOn (motive := Tracked) _ _ h fun s h hash _ => ?_
  unfold fetchItem
  split
  · exact h
  · rename_i i _
    exact (h.modifyPeer i fun p => (p.rests_requestItem now hash).toMoves).of_eq rfl rfl

theorem fetchSyncItems (h : s.Tracked) (now : Time) : (s.fetchSyncItems now).Tracked := by
  unfold NodeState.fetchSyncItems
  split_ifs
  · exact h
  · obtain ⟨ids, hids, hpeers, hchosen⟩ := s.requestFromPeers_spec now s.peers []
    have hold : NodeState.Tracked { s with peers := (s.requestFromPeers now s.peers []).1 } :=
      h.of_keeps_all hpeers (fun j p _ => ⟨rfl, fun id hid _ => mem_requestSyncItems.2 (.inr hid),
        fun h => h⟩) rfl
    refine ⟨fun id hid => ?_, hold.up⟩
    obtain hid | hid := Finset.mem_union.1 hid
    · exact hold.owed id hid
    · rw [List.mem_toFinset, hchosen] at hid
      obtain ⟨j, hid⟩ := hid.resolve_left (by simp)
      obtain ⟨p, hp, hactive, -⟩ := hids.offered j id hid
      refine ⟨j, p.requestSyncItems now (ids j), ?_, ?_, mem_requestSyncItems.2 (.inl hid)⟩
      · exact (hpeers j).trans (by rw [hp, Option.map_some])
      · exact h.up j p hp (.inl (of_decide_eq_true hactive))

theorem onConnectionClosed (h : s.Tracked) (i : Nat) : (s.onConnectionClosed i).Tracked := by
  unfold NodeState.onConnectionClosed
  split
  · exact h
  · rename_i p hp
    refine List.foldlRecOn (motive := Tracked) _ _ ?_ fun s h hash _ => h.refetch hash
    have hpeers := s.getElem?_modifyPeer i Peer.close
    constructor
    · intro id hid
      obtain ⟨hid, hnot⟩ := Finset.mem_sdiff.1 hid
      obtain ⟨j, p', hp', hscheduled, howed⟩ := h.owed id hid
      refine ⟨j, p', ?_, hscheduled, howed⟩
      have hne : i ≠ j := by
        rintro rfl
        obtain rfl := Option.some.inj (hp.symm.trans hp')
        exact hnot (Finmap.mem_keys.2 howed)
      exact (hpeers j).trans (by rw [hp', Option.map_some, if_neg hne])
    · intro j p' hp' hup
      obtain ⟨p'', hp'', rfl⟩ := Option.map_eq_some_iff.1 ((hpeers j).symm.trans hp')
      split_ifs at hup ⊢ with heq
      · exact absurd hup (Peer.not_isUp_none rfl)
      · exact h.up j p'' hp'' hup

theorem processOne (h : s.Tracked) : s.processOne.1.Tracked := by
  have hmap : ∀ m : BlockMessage, NodeState.Tracked
      { s with peers := s.peers.map (·.startProcessing m.blockId) } := fun m =>
    h.of_keeps_all (f := fun _ => (·.startProcessing m.blockId))
      (fun j => List.getElem?_map) (fun _ p _ => p.keeps_startProcessing m.blockId) rfl
  unfold NodeState.processOne
  dsimp only
  split
  · exact h.of_eq rfl rfl
  · rename_i m _
    split_ifs <;> exact (hmap m).of_eq rfl rfl

theorem processRounds (rounds : Nat) : ∀ {s : NodeState}, s.Tracked →
    (NodeState.processRounds rounds s).Tracked := by
  induction rounds with
  | zero => exact fun h => h
  | succ rounds ih =>
    intro s h
    rw [NodeState.processRounds]
    dsimp only
    split_ifs
    · exact h.processOne.of_eq rfl rfl
    · exact h.processOne
    · exact ih h.processOne
    · exact h.processOne

theorem finishNormalBlock (h : s.Tracked) (m : BlockMessage) (hash : MessageHash) (now : Time) :
    (s.finishNormalBlock m hash now).Tracked := by
  have haccepted : NodeState.Tracked
      ((s.forActive (Peer.normalBlockAccepted m hash now)).pushAccepted m.blockId) :=
    (h.forActive fun p => (p.rests_normalBlockAccepted now m hash).toMoves.keeps).of_eq rfl rfl
  exact haccepted.forActive fun p => (p.rests_checkHardFork _ now m).toMoves.keeps

theorem processBlockMessage (h : s.Tracked) (i : Nat) (m : BlockMessage) (hash : MessageHash)
    (now : Time) : (s.processBlockMessage i m hash now).Tracked := by
  unfold NodeState.processBlockMessage
  split
  · exact h
  · split_ifs
    · have hrest : NodeState.Tracked (s.modifyPeer i (·.payItem hash)) :=
        h.modifyPeer i fun p => (p.rests_payItem hash).toMoves
      unfold processBlockDuringNormalOperation
      split_ifs
      · exact hrest.finishNormalBlock m hash now
      · exact hrest.of_eq rfl rfl
    · refine h.of_keeps (P := (· = m.blockId)) (s.getElem?_modifyPeer i _) (fun j p _ => ?_)
        (fun id hid => Finset.mem_of_mem_erase hid)
        fun id hid heq => absurd heq (Finset.ne_of_mem_erase hid)
      split_ifs
      · exact (p.keeps_eraseSyncItem m.blockId).moves (Peer.moves_afterSyncBlock _ now).1
      · exact (Peer.Moves.refl p).keeps
    · exact h.modifyPeer i fun p => (p.rests_disconnect now).toMoves

end Tracked

end NodeState

/-! ## Histories -/

/-- A peer that says it does not have a block was not the only one to owe it, and a peer that is
given up owes none. -/
def NodeEvent.Tracks (s : NodeState) : NodeEvent → Prop
  | .receive i (.itemNotAvailable hash) _ => ∀ p, s.peers[i]? = some p →
    hash ∉ p.itemsRequestedFromPeer → hash ∈ p.syncItemsRequestedFromPeer →
    hash ∈ s.activeSyncRequests → ∃ j ≠ i, s.Owes j hash
  | .terminateInactiveConnections now => ∀ p ∈ s.peers, p.connections = .terminating →
    p.connectionTerminatedTime ≠ TIME_MIN →
    p.connectionTerminatedTime < now - FAILED_TERMINATE_TIMEOUT →
    p.syncItemsRequestedFromPeer = ∅
  | _ => True

namespace NodeState.Tracked

variable {s s' : NodeState}

theorem onItemNotAvailableMessage (h : s.Tracked) {i hash : Nat} (now : Time)
    (he : ∀ p : Peer, s.peers[i]? = some p → hash ∉ p.itemsRequestedFromPeer →
      hash ∈ p.syncItemsRequestedFromPeer → hash ∈ s.activeSyncRequests → ∃ j ≠ i, s.Owes j hash) :
    (s.onItemNotAvailableMessage i hash now).Tracked := by
  unfold NodeState.onItemNotAvailableMessage
  split
  · exact h
  · rename_i p hp
    split_ifs with hitem hsync
    · exact Tracked.refetch (h.modifyPeer i fun p => (p.rests_lackItem hash).toMoves) hash
    · refine h.of_keeps (P := (· = hash)) (s.getElem?_modifyPeer i _) (fun j p _ => ?_)
        (fun _ hid => hid) fun id hid heq => ?_
      · split_ifs
        · exact p.keeps_lackSyncItem hash now
        · exact (Peer.Moves.refl p).keeps
      · obtain rfl := heq
        obtain ⟨j, hj, p', hp', howed⟩ := he p hp hitem hsync hid
        refine ⟨j, p', ?_, howed⟩
        rw [getElem?_modifyPeer, hp', Option.map_some, if_neg (Ne.symm hj)]
    · exact h

theorem terminateInactiveConnections (h : s.Tracked) {now : Time}
    (he : ∀ p ∈ s.peers, p.connections = .terminating → p.connectionTerminatedTime ≠ TIME_MIN →
      p.connectionTerminatedTime < now - FAILED_TERMINATE_TIMEOUT →
      p.syncItemsRequestedFromPeer = ∅) :
    NodeState.Tracked { s with peers := s.peers.map (·.terminateIfInactive s.parameters now) } where
  owed id hid := by
    obtain ⟨j, p, hp, hscheduled, howed⟩ := h.owed id hid
    obtain hmoves | ⟨hlist, hset, hold, -⟩ := p.rests_terminateIfInactive s.parameters now
    · refine ⟨j, p.terminateIfInactive s.parameters now, ?_, ?_, hmoves.requested ▸ howed⟩
      · rw [List.getElem?_map, hp, Option.map_some]
      · rw [hmoves.scheduled, hscheduled]
    · rw [he p (List.mem_of_getElem? hp) hlist hset hold] at howed
      exact absurd howed Finmap.notMem_empty
  up j p' hp' hup := by
    rw [List.getElem?_map] at hp'
    obtain ⟨p, hp, rfl⟩ := Option.map_eq_some_iff.1 hp'
    obtain hmoves | ⟨-, -, -, heq⟩ := p.rests_terminateIfInactive s.parameters now
    · rw [hmoves.scheduled]
      exact h.up j p hp ((hmoves.toMoves.keeps (P := fun _ => False)).up hup)
    · rw [heq] at hup
      exact absurd hup (Peer.not_isUp_none rfl)

theorem onMessage (h : s.Tracked) {i : Nat} {now : Time} {message : PeerMessage}
    (he : NodeEvent.Tracks s (.receive i message now)) : (s.onMessage i now message).Tracked := by
  cases message with
  | address rejected => exact h.modifyPeer i fun p => p.moves_finishHandshake _ now rejected
  | fetchBlockchainItemIds itemType synopsis =>
    change (s.onFetchBlockchainItemIdsMessage i itemType synopsis now).Tracked
    unfold onFetchBlockchainItemIdsMessage
    split
    · exact h
    · exact h.modifyPeer i fun p => s.moves_receiveSynopsis synopsis _ now p
  | blockchainItemIdsInventory ids remaining =>
    exact h.modifyPeer i fun p => s.moves_receiveItemIds i ids remaining now p
  | fetchItems sent =>
    cases sent with
    | none => exact h
    | some id => exact h.modifyPeer i fun p => (s.rests_serve id p).toMoves
  | itemOffered hash => exact (h.modifyPeer i fun p => (p.rests_offer now hash).toMoves).of_eq rfl rfl
  | itemNotAvailable hash => exact h.onItemNotAvailableMessage now he
  | block m hash => exact h.processBlockMessage i m hash now
  | closingConnection => exact h.modifyPeer i fun p => (p.rests_requestClose now).toMoves

theorem finishSyncBlock (h : s.Tracked) (m : BlockMessage) (r : Except Error ForkData) (now : Time) :
    (NodeState.finishSyncBlock m r now s).Tracked := by
  cases r with
  | ok f =>
    have haccepted : (s.pushAccepted m.blockId).Tracked := h.of_eq rfl rfl
    exact haccepted.forActive fun p => p.keeps_syncBlockAccepted _ m now
  | error e => exact h.forActive fun p => (p.rests_syncBlockRejected now m e).toMoves.keeps

theorem resumeSyncCall (h : s.Tracked) {now : Time} {j : Nat}
    (hrun : s.resumeSyncCall now j = some s') : s'.Tracked := by
  obtain ⟨m, r, -, rfl⟩ := resumeSyncCall_eq_some hrun
  have hrest : NodeState.Tracked { s with
      handleMessageCallsInProgress := s.handleMessageCallsInProgress.eraseIdx j } := h.of_eq rfl rfl
  exact hrest.finishSyncBlock m r now

theorem resumeNormalCall (h : s.Tracked) {now : Time} {j : Nat}
    (hrun : s.resumeNormalCall now j = some s') : s'.Tracked := by
  obtain ⟨m, r, hash, -, rfl⟩ := resumeNormalCall_eq_some hrun
  have hrest : NodeState.Tracked { s with
      normalCallsInProgress := s.normalCallsInProgress.eraseIdx j } := h.of_eq rfl rfl
  cases r with
  | ok f =>
    have haccepted : Tracked (NodeState.pushAccepted m.blockId { s with
        normalCallsInProgress := s.normalCallsInProgress.eraseIdx j }) := hrest.of_eq rfl rfl
    exact haccepted.finishNormalBlock m hash now
  | error e => exact hrest.forActive fun p => (p.rests_normalBlockRejected now m).toMoves.keeps

section

variable [Crypto]

theorem step (h : s.Tracked) {e : NodeEvent} {fuel : Nat} (he : e.Tracks s)
    (hstep : s.step fuel e = some s') : s'.Tracked := by
  cases e with
  | connect inbound lastKnownFork now =>
    obtain rfl := Option.some.inj hstep
    constructor
    · intro id hid
      obtain ⟨j, p, hp, howed⟩ := h.owed id hid
      refine ⟨j, p, ?_, howed⟩
      rw [List.getElem?_append_left (List.getElem?_eq_some_iff.1 hp).1, hp]
    · intro j p hp hup
      obtain hlt | hge := Nat.lt_or_ge j s.peers.length
      · rw [List.getElem?_append_left hlt] at hp
        exact h.up j p hp hup
      · rw [List.getElem?_append_right hge] at hp
        rw [List.mem_singleton.1 (List.mem_of_getElem? hp)]
  | receive i message now =>
    obtain ⟨-, rfl⟩ := step_receive_eq_some.1 hstep
    exact (h.onMessage he).modifyPeer i fun p => .stay rfl rfl rfl rfl rfl
  | sent i now =>
    obtain rfl := Option.some.inj hstep
    exact h.modifyPeer i fun p => .stay rfl rfl rfl rfl rfl
  | connectionClosed i =>
    obtain ⟨-, rfl⟩ := step_connectionClosed_eq_some.1 hstep
    exact h.onConnectionClosed i
  | terminateInactiveConnections now =>
    obtain rfl := Option.some.inj hstep
    exact h.terminateInactiveConnections he
  | fetchSyncItems now =>
    obtain rfl := Option.some.inj hstep
    exact h.fetchSyncItems now
  | fetchItems now =>
    obtain rfl := Option.some.inj hstep
    exact h.fetchItems now
  | processBacklog =>
    obtain rfl := Option.some.inj hstep
    unfold processBacklogOfSyncBlocks
    split_ifs
    · exact h
    · exact .processRounds _ (h.of_eq rfl rfl)
  | answerSync cfg j =>
    obtain ⟨m, r, client, -, -, rfl⟩ := answerSyncCall_eq_some hstep
    exact h.of_eq rfl rfl
  | resumeSync now j => exact h.resumeSyncCall hstep
  | answerNormal cfg j =>
    obtain ⟨m, hash, r, client, -, -, rfl⟩ := answerNormalCall_eq_some hstep
    exact h.of_eq rfl rfl
  | resumeNormal now j => exact h.resumeNormalCall hstep
  | produce cfg b =>
    obtain ⟨⟨r, client⟩, -, rfl⟩ := Option.map_eq_some_iff.1 hstep
    cases r <;> exact h.of_eq rfl rfl
  | simulateDisconnect on =>
    obtain rfl := Option.some.inj hstep
    exact h.of_eq rfl rfl

end

end NodeState.Tracked

/-- **Every active request is owed** in every state that a node comes to by events of which none is a
denial from the only peer that owes a block, or gives up a peer that owes one. -/
theorem requests_tracked [Crypto] {s : NodeState} (q : NodeParameters)
    (client : ForkState)
    (hrun : NodeRun NodeEvent.Tracks (.start q client) s) :
    ∀ id ∈ s.activeSyncRequests, ∃ p ∈ s.peers, p.scheduledForDeletion = false ∧
      id ∈ p.syncItemsRequestedFromPeer := by
  have htracked : s.Tracked := hrun.induction (I := NodeState.Tracked)
    (fun _ _ _ _ he hstep h => h.step he hstep)
    ⟨fun id hid => absurd hid (Finset.notMem_empty id), fun i p hp => by cases hp⟩
  intro id hid
  obtain ⟨i, p, hp, howed⟩ := htracked.owed id hid
  exact ⟨p, List.mem_of_getElem? hp, howed⟩

def requestedBlock : List NodeEvent :=
  [.connect false 0 5, .receive 0 (.address false) 6,
    .receive 0 (.blockchainItemIdsInventory [15] 0) 7, .fetchSyncItems 8]

/-- Nothing that was asked for in synchronisation is denied, and no connection is terminating. -/
def NodeEvent.tracksAll (s : NodeState) : NodeEvent → Bool
  | .receive i (.itemNotAvailable hash) _ =>
    s.peers[i]?.all fun p => decide (hash ∉ p.syncItemsRequestedFromPeer)
  | .terminateInactiveConnections _ => s.peers.all fun p => decide (p.connections ≠ .terminating)
  | _ => true

theorem NodeEvent.tracks_of_check {s : NodeState} {e : NodeEvent} (h : e.tracksAll s = true) :
    e.Tracks s := by
  unfold tracksAll at h
  split at h
  · intro p hp _ hmem
    rw [hp] at h
    exact absurd hmem (of_decide_eq_true h)
  · intro p hp hterminating
    exact absurd hterminating (of_decide_eq_true (List.all_eq_true.1 h p hp))
  · next hreceive hterminate =>
    cases e with
    | receive i message now =>
      cases message with
      | itemNotAvailable hash => exact absurd rfl (hreceive i hash now)
      | _ => trivial
    | terminateInactiveConnections now => exact absurd rfl (hterminate now)
    | _ => trivial

/-- The peer that owes block 15 is closed, and another one that has it is asked instead.  It also says
that it does not have a block it has offered. -/
theorem requests_tracked_closed :
    letI := Crypto.transparent
    ∃ s, NodeRun NodeEvent.Tracks (.start {} (.genesis (soloTables 100))) s ∧
      s.activeSyncRequests = {15} ∧ s.peers.map (·.scheduledForDeletion) = [true, false] ∧
      ∀ id ∈ s.activeSyncRequests, ∃ p ∈ s.peers, p.scheduledForDeletion = false ∧
        id ∈ p.syncItemsRequestedFromPeer := by
  let := Crypto.transparent
  obtain ⟨s, hs, hactive, hpeers⟩ := exists_some_of_any
    (o := (NodeState.start {} (.genesis (soloTables 100))).checkedSteps (fun s e => e.tracksAll s) 9
      (requestedBlock ++ [.connect false 0 10, .receive 1 (.address false) 11,
        .receive 1 (.blockchainItemIdsInventory [15] 0) 12, .receive 1 (.itemOffered 77) 13,
        .fetchItems 14, .receive 1 (.itemNotAvailable 77) 15, .terminateInactiveConnections 16,
        .connectionClosed 0, .fetchSyncItems 17]))
    (p := fun s => s.activeSyncRequests = {15} ∧ s.peers.map (·.scheduledForDeletion) = [true, false])
    (by decide +kernel)
  have hrun := NodeRun.of_checkedSteps (fun s e => NodeEvent.tracks_of_check) hs
  exact ⟨s, hrun, hactive, hpeers, requests_tracked {} _ hrun⟩

/-- The peer says that it does not have block 15.  Nobody owes the block then, and a second peer that
has it is not asked for it. -/
theorem request_lost :
    letI := Crypto.transparent
    ∃ s, NodeRun (fun _ _ => True) (.start {} (.genesis (soloTables 100))) s ∧
      15 ∈ s.activeSyncRequests ∧ (∀ p ∈ s.peers, 15 ∉ p.syncItemsRequestedFromPeer) ∧
      ∃ p ∈ s.peers, p.idle = true ∧ p.inhibitFetchingSyncBlocks = false ∧
        p.idsOfItemsToGet = [15] := by
  let := Crypto.transparent
  obtain ⟨s, hs, hlost⟩ := exists_some_of_any
    (o := (NodeState.start {} (.genesis (soloTables 100))).steps 9 (requestedBlock ++
      [.receive 0 (.itemNotAvailable 15) 9, .connect false 0 10, .receive 1 (.address false) 11,
        .receive 1 (.blockchainItemIdsInventory [15] 0) 12, .fetchSyncItems 13]))
    (p := fun s => 15 ∈ s.activeSyncRequests ∧
      (∀ p ∈ s.peers, 15 ∉ p.syncItemsRequestedFromPeer) ∧
      ∃ p ∈ s.peers, p.idle = true ∧ p.inhibitFetchingSyncBlocks = false ∧
        p.idsOfItemsToGet = [15]) (by decide +kernel)
  exact ⟨s, .of_steps hs fun _ _ _ => trivial, hlost⟩

end BitShares
