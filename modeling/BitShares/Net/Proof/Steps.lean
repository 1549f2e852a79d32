import BitShares.Net.Run

/-!
# What a step does to the peers

A step changes every peer on its own: after it the peer at each place is a function of the one that
was there.

* `Peer.Moves`: most of what is done to a peer leaves the blocks it owes and those that are being
  processed, and takes it from one list of connections to a later one.  `Peer.Rests` leaves its list
  of ids as well.
* `requestFromPeers_spec` says which ids one round of `fetch_sync_items_loop` requests from whom: ids
  on the peer's list that have neither been received nor requested, and no id twice.
* `answerSyncCall_eq_some` and the lemmas after it say what the client's answers change.
-/

namespace BitShares

/-! ## Peers -/

/-- What can become of a peer in `a` without its connection being closed. -/
def Connections.Follows (a b : Connections) : Prop :=
  b = a ∨ b = .closing ∨ b = .terminating ∨ a = .handshaking ∧ b = .active

theorem Connections.Follows.trans {a b c : Connections} (h : a.Follows b) (h' : b.Follows c) :
    a.Follows c := by
  obtain rfl | rfl | rfl | ⟨rfl, rfl⟩ := h'
  · exact h
  · exact .inr (.inl rfl)
  · exact .inr (.inr (.inl rfl))
  · obtain h | h | h | ⟨-, h⟩ := h
    · exact .inr (.inr (.inr ⟨h.symm, rfl⟩))
    all_goals cases h

namespace Peer

/-- The peer owes the blocks it did, and the same ones are being processed. -/
structure Moves (p p' : Peer) : Prop where
  connections : p.connections.Follows p'.connections
  closed : p'.closed = p.closed
  scheduled : p'.scheduledForDeletion = p.scheduledForDeletion
  requested : p'.syncItemsRequestedFromPeer = p.syncItemsRequestedFromPeer
  processing : p'.idsOfItemsBeingProcessed = p.idsOfItemsBeingProcessed

theorem Moves.trans {p m r : Peer} (h : p.Moves m) (h' : m.Moves r) : p.Moves r :=
  ⟨h.connections.trans h'.connections, h'.closed.trans h.closed, h'.scheduled.trans h.scheduled,
    h'.requested.trans h.requested, h'.processing.trans h.processing⟩

theorem Moves.stay {p p' : Peer} (hconnections : p'.connections = p.connections)
    (hclosed : p'.closed = p.closed) (hscheduled : p'.scheduledForDeletion = p.scheduledForDeletion)
    (hrequested : p'.syncItemsRequestedFromPeer = p.syncItemsRequestedFromPeer)
    (hprocessing : p'.idsOfItemsBeingProcessed = p.idsOfItemsBeingProcessed) : p.Moves p' :=
  ⟨.inl hconnections, hclosed, hscheduled, hrequested, hprocessing⟩

theorem Moves.refl (p : Peer) : p.Moves p := .stay rfl rfl rfl rfl rfl

def IsUp (p : Peer) : Prop := p.connections = .active ∨ p.connections = .handshaking

theorem not_isUp_closing {p : Peer} (h : p.connections = .closing) : ¬ p.IsUp := by
  rw [IsUp, h]
  simp

theorem not_isUp_terminating {p : Peer} (h : p.connections = .terminating) : ¬ p.IsUp := by
  rw [IsUp, h]
  simp

theorem not_isUp_none {p : Peer} (h : p.connections = .none) : ¬ p.IsUp := by
  rw [IsUp, h]
  simp

theorem Moves.up {p p' : Peer} (h : p.Moves p') (hup : p'.IsUp) : p.IsUp := by
  obtain hc | hc | hc | ⟨hc, -⟩ := h.connections
  · rwa [IsUp, ← hc]
  · exact absurd hup (not_isUp_closing hc)
  · exact absurd hup (not_isUp_terminating hc)
  · exact .inr hc

structure Rests (p p' : Peer) : Prop extends Moves p p' where
  toGet : p'.idsOfItemsToGet = p.idsOfItemsToGet
  asked : p'.itemIdsRequestedFromPeer = p.itemIdsRequestedFromPeer
  needed : p'.weNeedSyncItemsFromPeer = p.weNeedSyncItemsFromPeer

theorem Rests.trans {p m r : Peer} (h : p.Rests m) (h' : m.Rests r) : p.Rests r :=
  ⟨h.toMoves.trans h'.toMoves, h'.toGet.trans h.toGet, h'.asked.trans h.asked,
    h'.needed.trans h.needed⟩

theorem Rests.refl (p : Peer) : p.Rests p := ⟨.refl p, rfl, rfl, rfl⟩

section

variable (p : Peer) (q : NodeParameters) (now : Time)

theorem rests_closeConnection : p.Rests (p.closeConnection now) := by
  unfold closeConnection
  split_ifs <;> exact ⟨.stay rfl rfl rfl rfl rfl, rfl, rfl, rfl⟩

theorem rests_disconnect : p.Rests (p.disconnect now) := by
  unfold disconnect
  split_ifs
  · exact .trans (m := { p with connections := .closing })
      ⟨⟨.inr (.inl rfl), rfl, rfl, rfl, rfl⟩, rfl, rfl, rfl⟩ (rests_closeConnection _ now)
  · exact ⟨⟨.inr (.inl rfl), rfl, rfl, rfl, rfl⟩, rfl, rfl, rfl⟩

theorem rests_terminate : p.Rests (p.terminate now) :=
  .trans (m := { p with connections := .terminating })
    ⟨⟨.inr (.inr (.inl rfl)), rfl, rfl, rfl, rfl⟩, rfl, rfl, rfl⟩ (rests_closeConnection _ now)

theorem rests_offer (hash : MessageHash) : p.Rests (p.offer hash now) := by
  unfold offer
  dsimp only
  split_ifs <;> exact ⟨.stay rfl rfl rfl rfl rfl, rfl, rfl, rfl⟩

theorem rests_requestItem (hash : MessageHash) : p.Rests (p.requestItem hash now) :=
  ⟨.stay rfl rfl rfl rfl rfl, rfl, rfl, rfl⟩

theorem rests_payItem (hash : MessageHash) : p.Rests (p.payItem hash) :=
  ⟨.stay rfl rfl rfl rfl rfl, rfl, rfl, rfl⟩

theorem rests_lackItem (hash : MessageHash) : p.Rests (p.lackItem hash) :=
  ⟨.stay rfl rfl rfl rfl rfl, rfl, rfl, rfl⟩

theorem rests_requestClose : p.Rests (p.requestClose now) := by
  unfold requestClose
  split_ifs
  · exact .trans (m := { p with theyHaveRequestedClose := true })
      ⟨.stay rfl rfl rfl rfl rfl, rfl, rfl, rfl⟩ (rests_closeConnection _ now)
  · exact ⟨.stay rfl rfl rfl rfl rfl, rfl, rfl, rfl⟩

theorem rests_normalBlockAccepted (m : BlockMessage) (hash : MessageHash) :
    p.Rests (p.normalBlockAccepted m hash now) := by
  unfold normalBlockAccepted
  split_ifs <;> exact ⟨.stay rfl rfl rfl rfl rfl, rfl, rfl, rfl⟩

theorem rests_checkHardFork (m : BlockMessage) : p.Rests (p.checkHardFork q m now) := by
  unfold checkHardFork
  split_ifs
  · exact p.rests_disconnect now
  · exact .refl p

theorem rests_normalBlockRejected (m : BlockMessage) : p.Rests (p.normalBlockRejected m now) := by
  unfold normalBlockRejected
  split_ifs
  · exact p.rests_disconnect now
  · exact .refl p

theorem rests_syncBlockRejected (m : BlockMessage) (e : Error) :
    p.Rests (p.syncBlockRejected m e now) := by
  unfold syncBlockRejected
  split_ifs
  · exact ⟨.stay rfl rfl rfl rfl rfl, rfl, rfl, rfl⟩
  · exact p.rests_disconnect now
  · exact .refl p

/-- The loop that ends connections moves a peer on, or gives it up when its connection has not ended
in time. -/
theorem rests_terminateIfInactive :
    p.Rests (p.terminateIfInactive q now) ∨
      p.connections = .terminating ∧ p.connectionTerminatedTime ≠ TIME_MIN ∧
      p.connectionTerminatedTime < now - FAILED_TERMINATE_TIMEOUT ∧
      p.terminateIfInactive q now =
        { p with connections := .none, scheduledForDeletion := true } := by
  unfold terminateIfInactive
  cases hp : p.connections with
  | none => exact .inl (.refl p)
  | handshaking =>
    dsimp only
    split_ifs
    · exact .inl (p.rests_terminate now)
    · exact .inl (.refl p)
  | active =>
    dsimp only
    split_ifs
    · exact .inl (p.rests_disconnect now)
    · exact .inl (p.rests_terminate now)
    · exact .inl (.refl p)
  | closing =>
    dsimp only
    split_ifs
    · exact .inl (p.rests_terminate now)
    · exact .inl (.refl p)
  | terminating =>
    dsimp only
    split_ifs with h
    · exact .inr ⟨rfl, h.1, h.2, rfl⟩
    · exact .inl (.refl p)

theorem moves_activate (h : p.connections = .handshaking) : p.Moves (p.activate q now) :=
  ⟨.inr (.inr (.inr ⟨h, rfl⟩)), rfl, rfl, rfl, rfl⟩

theorem moves_finishHandshake (rejected : Bool) : p.Moves (p.finishHandshake q rejected now) := by
  unfold finishHandshake
  split_ifs with h
  · exact (p.rests_disconnect now).toMoves
  · exact p.moves_activate q now h
  · exact .refl p

theorem moves_afterItemIds : p.Moves (p.afterItemIds now) ∧
    (p.afterItemIds now).idsOfItemsToGet = p.idsOfItemsToGet := by
  unfold afterItemIds
  split_ifs
  · exact ⟨(p.rests_disconnect now).toMoves, (p.rests_disconnect now).toGet⟩
  all_goals exact ⟨.stay rfl rfl rfl rfl rfl, rfl⟩

theorem moves_afterSyncBlock : p.Moves (p.afterSyncBlock now) ∧
    (p.afterSyncBlock now).idsOfItemsToGet = p.idsOfItemsToGet ∧
    (p.afterSyncBlock now).connections = p.connections := by
  unfold afterSyncBlock
  split_ifs <;> exact ⟨.stay rfl rfl rfl rfl rfl, rfl, rfl⟩

end

end Peer

namespace NodeState

theorem getElem?_modifyPeer (s : NodeState) (i : Nat) (f : Peer → Peer) (j : Nat) :
    (s.modifyPeer i f).peers[j]? = s.peers[j]?.map fun p => if i = j then f p else p := by
  simp only [modifyPeer, List.getElem?_modify]
  rfl

theorem getElem?_forActive (s : NodeState) (f : Peer → Peer) (j : Nat) :
    (s.forActive f).peers[j]? = s.peers[j]?.map fun p => if p.isActive then f p else p := by
  simp only [forActive, List.getElem?_map]

/-! ## Lists of ids -/

theorem moves_mergeItemIds (s : NodeState) (i : Nat) (p : Peer) (ids : List BlockId) {p' : Peer}
    (h : s.mergeItemIds i p ids = .ok p' ∨ s.mergeItemIds i p ids = .error p') : p.Moves p' := by
  unfold mergeItemIds at h
  cases ids with
  | nil =>
    obtain h | h := h
    · cases h
      exact .refl p
    · cases h
  | cons first rest =>
    dsimp only at h
    split_ifs at h
    · obtain h | h := h <;> cases h
      exact .stay rfl rfl rfl rfl rfl
    · split at h <;> obtain h | h := h <;> cases h <;> exact .stay rfl rfl rfl rfl rfl
    · split at h <;> obtain h | h := h <;> cases h <;> exact .stay rfl rfl rfl rfl rfl
    · obtain h | h := h <;> cases h
      exact .stay rfl rfl rfl rfl rfl

theorem moves_receiveItemIds (s : NodeState) (i : Nat) (ids : List BlockId) (remaining : Nat)
    (now : Time) (p : Peer) : p.Moves (s.receiveItemIds i ids remaining now p) := by
  unfold receiveItemIds
  dsimp only
  split_ifs
  · exact .refl p
  · exact .stay rfl rfl rfl rfl rfl
  · have hstart : p.Moves { p with
        itemIdsRequestedFromPeer := none, numberOfUnfetchedItemIds := remaining } :=
      .stay rfl rfl rfl rfl rfl
    split
    · rename_i p' hp'
      exact hstart.trans (s.moves_mergeItemIds i _ ids (.inr hp'))
    · rename_i p' hp'
      exact (hstart.trans (s.moves_mergeItemIds i _ ids (.inl hp'))).trans (p'.moves_afterItemIds now).1

theorem moves_noteSynopsis (s : NodeState) (synopsis reply : List BlockId) (now : Time) (p : Peer) :
    p.Moves (s.noteSynopsis synopsis reply now p) ∧
      (s.noteSynopsis synopsis reply now p).connections = p.connections := by
  unfold noteSynopsis
  dsimp only
  split_ifs <;> exact ⟨.stay rfl rfl rfl rfl rfl, rfl⟩

theorem moves_receiveSynopsis (s : NodeState) (synopsis reply : List BlockId) (now : Time)
    (p : Peer) : p.Moves (s.receiveSynopsis synopsis reply now p) := by
  obtain ⟨hmoves, hconnections⟩ := s.moves_noteSynopsis synopsis reply now p
  unfold receiveSynopsis
  split_ifs with _ h
  · exact hmoves.trans (Peer.rests_disconnect _ now).toMoves
  · rw [Bool.and_eq_true, decide_eq_true_eq] at h
    exact hmoves.trans (Peer.moves_activate _ _ now (hconnections.trans h.2))
  · exact hmoves

theorem rests_serve (s : NodeState) (id : BlockId) (p : Peer) : p.Rests (s.serve id p) := by
  unfold serve
  split <;> exact ⟨.stay rfl rfl rfl rfl rfl, rfl, rfl, rfl⟩

/-! ## Requests -/

theorem mem_chooseItems {wanted : BlockId → Bool} {limit : Nat} {ids chosen : List BlockId}
    {id : BlockId} (h : id ∈ chooseItems wanted limit ids chosen) :
    id ∈ ids ∧ wanted id = true ∧ id ∉ chosen := by
  induction ids generalizing limit chosen with
  | nil => cases h
  | cons x ids ih =>
    rw [chooseItems] at h
    split_ifs at h with hwanted hlimit
    · rw [Bool.and_eq_true, Bool.not_eq_true', List.contains_eq_mem, decide_eq_false_iff_not]
        at hwanted
      rw [List.mem_singleton.1 h]
      exact ⟨List.mem_cons_self, hwanted⟩
    · rw [Bool.and_eq_true, Bool.not_eq_true', List.contains_eq_mem, decide_eq_false_iff_not]
        at hwanted
      obtain rfl | h := List.mem_cons.1 h
      · exact ⟨List.mem_cons_self, hwanted⟩
      · obtain ⟨hmem, hw, hnot⟩ := ih h
        exact ⟨List.mem_cons_of_mem _ hmem, hw, fun hc => hnot (List.mem_cons_of_mem _ hc)⟩
    · obtain ⟨hmem, hw⟩ := ih h
      exact ⟨List.mem_cons_of_mem _ hmem, hw⟩

theorem mem_requestSyncItems {now : Time} {ids : List BlockId} {p : Peer} {id : BlockId} :
    id ∈ (p.requestSyncItems now ids).syncItemsRequestedFromPeer ↔
      id ∈ ids ∨ id ∈ p.syncItemsRequestedFromPeer := by
  unfold Peer.requestSyncItems
  dsimp only
  generalize p.syncItemsRequestedFromPeer = t
  induction ids generalizing t with
  | nil => simp
  | cons x ids ih =>
    rw [List.foldl_cons, ih]
    split_ifs with hx
    · rw [List.mem_cons]
      constructor
      · exact fun h => h.imp_left .inr
      · rintro ((rfl | h) | h)
        · exact .inr hx
        · exact .inl h
        · exact .inr h
    · rw [Finmap.mem_insert, List.mem_cons]
      tauto

/-- The ids that a round requests from the peers `ps`, place by place, when `chosen` are spoken for:
what is left of `s` to want is asked once, of an active peer that has it. -/
structure Requests (s : NodeState) (ps : List Peer) (chosen : List BlockId)
    (ids : Nat → List BlockId) : Prop where
  fresh : ∀ j, ∀ id ∈ ids j, s.haveAlreadyReceivedSyncItem id = false ∧
    id ∉ s.activeSyncRequests ∧ id ∉ chosen
  offered : ∀ j, ∀ id ∈ ids j, ∃ p, ps[j]? = some p ∧ p.isActive = true ∧ id ∈ p.idsOfItemsToGet
  once : ∀ i j, ∀ id ∈ ids i, id ∈ ids j → i = j

/-- **One round** of requests to the peers. -/
theorem requestFromPeers_spec (s : NodeState) (now : Time) (ps : List Peer)
    (chosen : List BlockId) : ∃ ids, s.Requests ps chosen ids ∧
      (∀ j : Nat, (s.requestFromPeers now ps chosen).1[j]? =
        ps[j]?.map (Peer.requestSyncItems now (ids j))) ∧
      ∀ id, id ∈ (s.requestFromPeers now ps chosen).2 ↔ id ∈ chosen ∨ ∃ j, id ∈ ids j := by
  induction ps generalizing chosen with
  | nil => exact ⟨fun _ => [], ⟨by simp, by simp, by simp⟩, by simp [requestFromPeers],
      by simp [requestFromPeers]⟩
  | cons p ps ih =>
    rw [requestFromPeers]
    split_ifs with hp
    · have hactive : p.isActive = true := by
        simp only [Bool.and_eq_true] at hp
        exact hp.1.1.1
      generalize hfirst : chooseItems _ _ p.idsOfItemsToGet chosen = first
      have hmem : ∀ id ∈ first, id ∈ p.idsOfItemsToGet ∧
          s.haveAlreadyReceivedSyncItem id = false ∧ id ∉ s.activeSyncRequests ∧
          id ∉ chosen := by
        intro id hid
        rw [← hfirst] at hid
        obtain ⟨hoffered, hwanted, hnot⟩ := mem_chooseItems hid
        simp only [Bool.and_eq_true, Bool.not_eq_true', decide_eq_false_iff_not] at hwanted
        exact ⟨hoffered, hwanted.1, hwanted.2, hnot⟩
      obtain ⟨ids, hids, hpeers, hchosen⟩ := ih (first ++ chosen)
      refine ⟨fun j => j.casesOn first ids, ⟨?_, ?_, ?_⟩, ?_, fun id => ?_⟩
      · rintro (_ | j) id hid
        · exact (hmem id hid).2
        · obtain ⟨hr, ha, hc⟩ := hids.fresh j id hid
          exact ⟨hr, ha, fun h => hc (List.mem_append_right _ h)⟩
      · rintro (_ | j) id hid
        · exact ⟨p, rfl, hactive, (hmem id hid).1⟩
        · exact hids.offered j id hid
      · -- what the first peer is asked for is spoken for when the others are
        have hapart : ∀ j, ∀ id ∈ first, id ∉ ids j := fun j id hfirst hid =>
          (hids.fresh j id hid).2.2 (List.mem_append_left _ hfirst)
        rintro (_ | i) (_ | j) id hi hj
        · rfl
        · exact absurd hj (hapart j id hi)
        · exact absurd hi (hapart i id hj)
        · rw [hids.once i j id hi hj]
      · rintro (_ | j)
        · rfl
        · exact hpeers j
      · rw [hchosen, List.mem_append]
        constructor
        · rintro ((h | h) | ⟨j, h⟩)
          · exact .inr ⟨0, h⟩
          · exact .inl h
          · exact .inr ⟨j + 1, h⟩
        · rintro (h | ⟨_ | j, h⟩)
          · exact .inl (.inr h)
          · exact .inl (.inl h)
          · exact .inr ⟨j, h⟩
    · obtain ⟨ids, hids, hpeers, hchosen⟩ := ih chosen
      refine ⟨fun j => j.casesOn [] ids, ⟨?_, ?_, ?_⟩, ?_, fun id => ?_⟩
      · rintro (_ | j) id hid
        · cases hid
        · exact hids.fresh j id hid
      · rintro (_ | j) id hid
        · cases hid
        · exact hids.offered j id hid
      · rintro (_ | i) (_ | j) id hi hj
        · rfl
        · cases hi
        · cases hj
        · rw [hids.once i j id hi hj]
      · rintro (_ | j)
        · rfl
        · exact hpeers j
      · rw [hchosen]
        refine or_congr_right ⟨fun ⟨j, h⟩ => ⟨j + 1, h⟩, ?_⟩
        rintro ⟨_ | j, h⟩
        · cases h
        · exact ⟨j, h⟩

/-! ## Answers -/

section

variable [Crypto] {s s' : NodeState} {cfg : ClientConfig} {fuel j : Nat}

theorem answerSyncCall_eq_some (h : s.answerSyncCall cfg fuel j = some s') :
    ∃ m r client, s.handleMessageCallsInProgress[j]? = some ⟨m, none⟩ ∧
      s.handleMessage cfg fuel m true = some (r, client) ∧
      s' = { s with
        client := client
        handleMessageCallsInProgress := s.handleMessageCallsInProgress.set j ⟨m, some r⟩ } := by
  unfold answerSyncCall at h
  split at h
  · rename_i m hcall
    obtain ⟨⟨r, client⟩, hanswer, rfl⟩ := Option.map_eq_some_iff.1 h
    exact ⟨m, r, client, hcall, hanswer, rfl⟩
  · cases h

theorem answerNormalCall_eq_some (h : s.answerNormalCall cfg fuel j = some s') :
    ∃ m hash r client, s.normalCallsInProgress[j]? = some ⟨⟨m, none⟩, hash⟩ ∧
      s.handleMessage cfg fuel m false = some (r, client) ∧
      s' = { s with
        client := client
        normalCallsInProgress := s.normalCallsInProgress.set j ⟨⟨m, some r⟩, hash⟩ } := by
  unfold answerNormalCall at h
  split at h
  · rename_i m hash hcall
    obtain ⟨⟨r, client⟩, hanswer, rfl⟩ := Option.map_eq_some_iff.1 h
    exact ⟨m, hash, r, client, hcall, hanswer, rfl⟩
  · cases h

omit [Crypto] in
theorem resumeSyncCall_eq_some {now : Time} (h : s.resumeSyncCall now j = some s') :
    ∃ m r, s.handleMessageCallsInProgress[j]? = some ⟨m, some r⟩ ∧
      s' = finishSyncBlock m r now
        { s with handleMessageCallsInProgress := s.handleMessageCallsInProgress.eraseIdx j } := by
  unfold resumeSyncCall at h
  split at h
  · rename_i m r hcall
    exact ⟨m, r, hcall, (Option.some.inj h).symm⟩
  · cases h

omit [Crypto] in
theorem resumeNormalCall_eq_some {now : Time} (h : s.resumeNormalCall now j = some s') :
    ∃ m r hash, s.normalCallsInProgress[j]? = some ⟨⟨m, some r⟩, hash⟩ ∧
      let rest := { s with normalCallsInProgress := s.normalCallsInProgress.eraseIdx j }
      s' = match r with
        | .ok _ => (rest.pushAccepted m.blockId).finishNormalBlock m hash now
        | .error _ => rest.rejectNormalBlock m now := by
  unfold resumeNormalCall at h
  split at h
  · rename_i m r hash hcall
    exact ⟨m, r, hash, hcall, (Option.some.inj h).symm⟩
  · cases h

end

end NodeState

end BitShares
