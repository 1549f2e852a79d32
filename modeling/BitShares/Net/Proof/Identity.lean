import BitShares.Fork.Proof.Grown
import BitShares.Net.Proof.Steps

/-!
# The ids of accepted blocks

A block message carries a block and an id, and the node goes by the id: it is the id that the node
looks up among the blocks it has accepted, the id that the client looks up among the blocks it knows,
and the id that is recorded when the client returns.  Nothing compares it with the hash of the block.

* `NodeState.Identified`: what the node holds is such that every id it records next is that of a known
  block.  It stands as long as every block message carries the id of its block, or of one that is
  known already (`NodeEvent.Genuine`).
* `recorded_known`: along every history of such events, the client knows the blocks that are recorded.
* `forged_recorded`: a message with another id is recorded under that id.
-/

namespace BitShares

open Program

section

variable [Crypto]

/-! ## The client -/

/-- The id of a message is that of its block, or of a block that is known. -/
def ForkState.Matches (s : ForkState) (m : BlockMessage) : Prop :=
  m.blockId ≠ nullId ∧ (m.blockId = m.block.id ∨ s.Knows m.blockId)

/-- What stands for a call: its message matches, and if it was accepted the block is known. -/
structure ForkState.Backs (s : ForkState) (c : HandleMessageCall) : Prop where
  message : s.Matches c.message
  accepted : ∀ f, c.result = some (.ok f) → s.Knows c.message.blockId

section

variable {s s' : ForkState} {m : BlockMessage}

theorem ForkState.Matches.mono (hmono : ∀ id, s.Knows id → s'.Knows id) (h : s.Matches m) :
    s'.Matches m :=
  ⟨h.1, h.2.imp_right (hmono _)⟩

theorem ForkState.Backs.mono {c : HandleMessageCall} (hmono : ∀ id, s.Knows id → s'.Knows id)
    (h : s.Backs c) : s'.Backs c :=
  ⟨h.message.mono hmono, fun f hf => hmono _ (h.accepted f hf)⟩

theorem Grown.knows (h : Grown s) {id : BlockId} {f : ForkData} (hf : s.forks.lookup id = some f)
    (hknown : f.isKnown = true) (hid : id ≠ nullId) : s.Knows id := by
  obtain heq | ⟨c, hc⟩ := (h.tree.known id f hf).1 hknown
  · exact absurd heq hid
  · exact ⟨c, hc, h.tree.own _ _ hc⟩

/-- **`on_new_block`** with a message that matches forgets no block, and knows the block of the
message if it returns. -/
theorem Grown.onNewBlock (h : Grown s) (hm : s.Matches m) {cfg : ClientConfig} {fuel : Nat}
    {syncMode : Bool} {r : Except Error ForkData}
    (hrun : ForkM.onNewBlock (fun c b => c.extendChainOn cfg b) fuel m syncMode s = some (r, s')) :
    Grown s' ∧ (∀ id, s.Knows id → s'.Knows id) ∧ (∀ f, r = .ok f → s'.Knows m.blockId) := by
  have hpush : (∀ f, s.forks.lookup m.blockId = some f → f.isKnown = false) →
      Wp False (ForkM.pushNewBlock (fun c b => c.extendChainOn cfg b) fuel m.block syncMode) s
        fun r s' => Grown s' ∧ (∀ id, s.Knows id → s'.Knows id) ∧
          (∀ f, r = .ok f → s'.Knows m.blockId) := by
    intro hunknown
    -- a block that is not known comes under its own id
    have hid : m.blockId = m.block.id := by
      refine hm.2.resolve_right fun ⟨c, hc, hcid⟩ => ?_
      obtain ⟨⟨f, hf⟩, -⟩ := h.tree.entered _ _ hc
      have hknown := (h.tree.known _ f hf).2 (.inr ⟨c, hc⟩)
      rw [hunknown f hf] at hknown
      cases hknown
    rw [ForkM.pushNewBlock, wp_bind, Wp]
    split
    · rename_i r s₁ hrun
      obtain ⟨hgrown, hmono, hknows⟩ := h.pushBlock (hid ▸ hm.1) hrun
      cases r with
      | ok f =>
        dsimp only
        split_ifs
        · exact ⟨hgrown, hmono, fun _ h => (by cases h)⟩
        · exact ⟨hgrown, hmono, fun _ _ => hid ▸ hknows f rfl⟩
      | error e => exact ⟨hgrown, hmono, fun _ h => (by cases h)⟩
    · exact not_false
  have hwp : Wp False (ForkM.onNewBlock (fun c b => c.extendChainOn cfg b) fuel m syncMode) s
      fun r s' => Grown s' ∧ (∀ id, s.Knows id → s'.Knows id) ∧
        (∀ f, r = .ok f → s'.Knows m.blockId) := by
    rw [ForkM.onNewBlock, wp_bind, wp_get]
    dsimp only
    cases hf : s.forks.lookup m.blockId with
    | none => exact hpush fun f hf' => by rw [hf] at hf'; cases hf'
    | some f =>
      dsimp only
      split_ifs with hknown hlinked
      · exact ⟨h, fun _ h => h, fun _ h => (by cases h)⟩
      · exact ⟨h, fun _ h => h, fun _ _ => h.knows hf hknown hm.1⟩
      · refine hpush fun f' hf' => ?_
        obtain rfl := Option.some.inj (hf.symm.trans hf')
        exact Bool.eq_false_iff.2 hknown
  exact hwp.of_eq hrun

end

/-! ## The node -/

/-- Every block that has come to the node, and every id among the last accepted ones.  `first` is the id
of the head from which the node was told to synchronise. -/
structure NodeState.Identified (first : BlockId) (s : NodeState) : Prop where
  grown : Grown s.client
  received : ∀ m ∈ s.receivedSyncItems, s.client.Matches m
  arrived : ∀ m ∈ s.newReceivedSyncItems, s.client.Matches m
  calls : ∀ c ∈ s.handleMessageCallsInProgress, s.client.Backs c
  normalCalls : ∀ c ∈ s.normalCallsInProgress, s.client.Backs c.toHandleMessageCall
  recent : ∀ id ∈ s.mostRecentBlocksAccepted, id = first ∨ s.client.Knows id
  head : first = nullId ∨ s.client.Knows first

omit [Crypto] in
structure NodeState.SameBlocks (s s' : NodeState) : Prop where
  client : s'.client = s.client
  received : s'.receivedSyncItems = s.receivedSyncItems
  arrived : s'.newReceivedSyncItems = s.newReceivedSyncItems
  calls : s'.handleMessageCallsInProgress = s.handleMessageCallsInProgress
  normalCalls : s'.normalCallsInProgress = s.normalCallsInProgress
  recent : s'.mostRecentBlocksAccepted = s.mostRecentBlocksAccepted

namespace NodeState

section

omit [Crypto]

theorem SameBlocks.refl (s : NodeState) : s.SameBlocks s := ⟨rfl, rfl, rfl, rfl, rfl, rfl⟩

theorem SameBlocks.trans {s m r : NodeState} (h : s.SameBlocks m) (h' : m.SameBlocks r) :
    s.SameBlocks r :=
  ⟨h'.client.trans h.client, h'.received.trans h.received, h'.arrived.trans h.arrived,
    h'.calls.trans h.calls, h'.normalCalls.trans h.normalCalls, h'.recent.trans h.recent⟩

theorem sameBlocks_modifyPeer (s : NodeState) (i : Nat) (f : Peer → Peer) :
    s.SameBlocks (s.modifyPeer i f) := ⟨rfl, rfl, rfl, rfl, rfl, rfl⟩

theorem sameBlocks_forActive (s : NodeState) (f : Peer → Peer) :
    s.SameBlocks (s.forActive f) := ⟨rfl, rfl, rfl, rfl, rfl, rfl⟩

theorem sameBlocks_foldl {A : Type} {f : NodeState → A → NodeState}
    (hf : ∀ (s : NodeState) (a : A), s.SameBlocks (f s a)) (l : List A) (s : NodeState) :
    s.SameBlocks (l.foldl f s) := by
  induction l generalizing s with
  | nil => exact .refl s
  | cons a l ih => exact (hf s a).trans (ih (f s a))

theorem sameBlocks_refetch (s : NodeState) (hash : MessageHash) :
    s.SameBlocks (s.refetch hash) := by
  unfold refetch
  split_ifs
  · exact ⟨rfl, rfl, rfl, rfl, rfl, rfl⟩
  · exact .refl s

theorem sameBlocks_fetchItems (now : Time) (s : NodeState) : s.SameBlocks (s.fetchItems now) := by
  refine sameBlocks_foldl (fun s hash => ?_) _ _
  unfold fetchItem
  split
  · exact .refl s
  · exact ⟨rfl, rfl, rfl, rfl, rfl, rfl⟩

theorem sameBlocks_fetchSyncItems (now : Time) (s : NodeState) :
    s.SameBlocks (s.fetchSyncItems now) := by
  unfold fetchSyncItems
  split_ifs
  · exact .refl s
  · exact ⟨rfl, rfl, rfl, rfl, rfl, rfl⟩

theorem sameBlocks_onItemNotAvailableMessage (i hash : Nat) (now : Time) (s : NodeState) :
    s.SameBlocks (s.onItemNotAvailableMessage i hash now) := by
  unfold onItemNotAvailableMessage
  split
  · exact .refl s
  · split_ifs
    · exact (sameBlocks_modifyPeer s i _).trans (sameBlocks_refetch _ hash)
    · exact sameBlocks_modifyPeer s i _
    · exact .refl s

theorem sameBlocks_onConnectionClosed (i : Nat) (s : NodeState) :
    s.SameBlocks (s.onConnectionClosed i) := by
  unfold onConnectionClosed
  split
  · exact .refl s
  · rename_i p _
    exact .trans (m := { s with
      peers := s.peers.modify i Peer.close
      activeSyncRequests := s.activeSyncRequests \ p.syncItemsRequestedFromPeer.keys })
      ⟨rfl, rfl, rfl, rfl, rfl, rfl⟩ (sameBlocks_foldl sameBlocks_refetch _ _)

theorem sameBlocks_onFetchBlockchainItemIdsMessage (i itemType : Nat) (synopsis : List BlockId)
    (now : Time) (s : NodeState) :
    s.SameBlocks (s.onFetchBlockchainItemIdsMessage i itemType synopsis now) := by
  unfold onFetchBlockchainItemIdsMessage
  split
  · exact .refl s
  · exact sameBlocks_modifyPeer s i _

end

namespace Identified

variable {first : BlockId} {s s' : NodeState}

theorem of_same (h : s.Identified first) (hsame : s.SameBlocks s') : s'.Identified first where
  grown := by rw [hsame.client]; exact h.grown
  received := by rw [hsame.received, hsame.client]; exact h.received
  arrived := by rw [hsame.arrived, hsame.client]; exact h.arrived
  calls := by rw [hsame.calls, hsame.client]; exact h.calls
  normalCalls := by rw [hsame.normalCalls, hsame.client]; exact h.normalCalls
  recent := by rw [hsame.recent, hsame.client]; exact h.recent
  head := by rw [hsame.client]; exact h.head

theorem learn (h : s.Identified first) {client : ForkState} (hgrown : Grown client)
    (hmono : ∀ id, s.client.Knows id → client.Knows id) :
    NodeState.Identified first { s with client := client } where
  grown := hgrown
  received m hm := (h.received m hm).mono hmono
  arrived m hm := (h.arrived m hm).mono hmono
  calls c hc := (h.calls c hc).mono hmono
  normalCalls c hc := (h.normalCalls c hc).mono hmono
  recent id hid := (h.recent id hid).imp_right (hmono id)
  head := h.head.imp_right (hmono first)

theorem pushAccepted (h : s.Identified first) {id : BlockId} (hid : s.client.Knows id) :
    (s.pushAccepted id).Identified first where
  grown := h.grown
  received := h.received
  arrived := h.arrived
  calls := h.calls
  normalCalls := h.normalCalls
  recent x hx := by
    obtain hx | hx := List.mem_append.1 (List.mem_of_mem_drop hx)
    · exact h.recent x hx
    · exact .inr (List.mem_singleton.1 hx ▸ hid)
  head := h.head

theorem knows_recent (h : s.Identified first) {id : BlockId} (hid : id ∈ s.mostRecentBlocksAccepted)
    (hne : id ≠ nullId) : s.client.Knows id := by
  obtain rfl | hknows := h.recent id hid
  · exact h.head.resolve_left hne
  · exact hknows

/-! ## The backlog -/

theorem processOne (h : s.Identified first) : s.processOne.1.Identified first := by
  have hreceived : ∀ m ∈ s.newReceivedSyncItems.reverse ++ s.receivedSyncItems,
      s.client.Matches m := fun m hm =>
    (List.mem_append.1 hm).elim (fun hm => h.arrived m (List.mem_reverse.1 hm)) (h.received m)
  unfold NodeState.processOne
  dsimp only
  split
  · exact ⟨h.grown, hreceived, fun _ hm => (by cases hm), h.calls, h.normalCalls, h.recent,
      h.head⟩
  · rename_i m hm
    split_ifs
    · exact ⟨h.grown, hreceived, fun _ hm => (by cases hm), h.calls, h.normalCalls, h.recent,
      h.head⟩
    · refine ⟨h.grown, fun m hm => hreceived m (List.mem_of_mem_eraseP hm),
        fun _ hm => (by cases hm), fun c hc => ?_, h.normalCalls, h.recent, h.head⟩
      obtain hc | hc := List.mem_append.1 hc
      · exact h.calls c hc
      · rw [List.mem_singleton.1 hc]
        exact ⟨hreceived m (List.mem_of_find?_eq_some hm), fun f hf => (by cases hf)⟩

theorem processRounds (rounds : Nat) : ∀ {s : NodeState}, s.Identified first →
    (NodeState.processRounds rounds s).Identified first := by
  induction rounds with
  | zero => exact fun h => h
  | succ rounds ih =>
    intro s h
    rw [NodeState.processRounds]
    dsimp only
    split_ifs
    · exact h.processOne.of_same ⟨rfl, rfl, rfl, rfl, rfl, rfl⟩
    · exact h.processOne
    · exact ih h.processOne
    · exact h.processOne

/-! ## Blocks from peers -/

theorem finishNormalBlock (h : s.Identified first) {m : BlockMessage} (hm : s.client.Knows m.blockId)
    (hash : MessageHash) (now : Time) : (s.finishNormalBlock m hash now).Identified first := by
  have hoffered := h.of_same (sameBlocks_forActive s (Peer.normalBlockAccepted m hash now))
  exact (hoffered.pushAccepted hm).of_same (sameBlocks_forActive _ _)

theorem processBlockDuringNormalOperation (h : s.Identified first) {m : BlockMessage}
    (hm : s.client.Matches m) (hash : MessageHash) (now : Time) :
    (s.processBlockDuringNormalOperation m hash now).Identified first := by
  unfold NodeState.processBlockDuringNormalOperation
  split_ifs with hrecent
  · exact h.finishNormalBlock (h.knows_recent (List.contains_iff_mem.1 hrecent) hm.1) hash now
  · refine ⟨h.grown, h.received, h.arrived, h.calls, fun c hc => ?_, h.recent, h.head⟩
    obtain hc | hc := List.mem_append.1 hc
    · exact h.normalCalls c hc
    · rw [List.mem_singleton.1 hc]
      exact ⟨hm, fun f hf => (by cases hf)⟩

theorem processBlockMessage (h : s.Identified first) {m : BlockMessage} (hm : s.client.Matches m)
    (i : Nat) (hash : MessageHash) (now : Time) :
    (s.processBlockMessage i m hash now).Identified first := by
  unfold NodeState.processBlockMessage
  split
  · exact h
  · split_ifs
    · exact processBlockDuringNormalOperation (h.of_same (sameBlocks_modifyPeer s i _)) hm hash now
    · refine ⟨h.grown, h.received, fun m' hm' => ?_, h.calls, h.normalCalls, h.recent,
      h.head⟩
      obtain rfl | hm' := List.mem_cons.1 hm'
      · exact hm
      · exact h.arrived m' hm'
    · exact h.of_same (sameBlocks_modifyPeer s i _)

/-! ## Calls -/

theorem handleMessage (h : s.Identified first) {m : BlockMessage} (hm : s.client.Matches m)
    {cfg : ClientConfig} {fuel : Nat} {syncMode : Bool} {r : Except Error ForkData}
    {client : ForkState} (hrun : s.handleMessage cfg fuel m syncMode = some (r, client)) :
    NodeState.Identified first { s with client := client } ∧ client.Matches m ∧
      (∀ f, r = .ok f → client.Knows m.blockId) := by
  unfold NodeState.handleMessage at hrun
  split_ifs at hrun
  · cases hrun
    exact ⟨h, hm, fun _ hf => (by cases hf)⟩
  · obtain ⟨hgrown, hmono, hknows⟩ := h.grown.onNewBlock hm hrun
    exact ⟨h.learn hgrown hmono, hm.mono hmono, hknows⟩

theorem answerSyncCall (h : s.Identified first) {cfg : ClientConfig} {fuel j : Nat}
    (hrun : s.answerSyncCall cfg fuel j = some s') : s'.Identified first := by
  obtain ⟨m, r, client, hcall, hanswer, rfl⟩ := answerSyncCall_eq_some hrun
  have hm := (h.calls _ (List.mem_of_getElem? hcall)).message
  obtain ⟨h', hm', hknows⟩ := h.handleMessage hm hanswer
  refine { h' with calls := fun c hc => ?_ }
  obtain hc | rfl := List.mem_or_eq_of_mem_set hc
  · exact h'.calls c hc
  · exact ⟨hm', fun f hf => hknows f (Option.some.inj hf)⟩

theorem answerNormalCall (h : s.Identified first) {cfg : ClientConfig} {fuel j : Nat}
    (hrun : s.answerNormalCall cfg fuel j = some s') : s'.Identified first := by
  obtain ⟨m, hash, r, client, hcall, hanswer, rfl⟩ := answerNormalCall_eq_some hrun
  have hm := (h.normalCalls _ (List.mem_of_getElem? hcall)).message
  obtain ⟨h', hm', hknows⟩ := h.handleMessage hm hanswer
  refine { h' with normalCalls := fun c hc => ?_ }
  obtain hc | rfl := List.mem_or_eq_of_mem_set hc
  · exact h'.normalCalls c hc
  · exact ⟨hm', fun f hf => hknows f (Option.some.inj hf)⟩

theorem resumeSyncCall (h : s.Identified first) {now : Time} {j : Nat}
    (hrun : s.resumeSyncCall now j = some s') : s'.Identified first := by
  obtain ⟨m, r, hcall, rfl⟩ := resumeSyncCall_eq_some hrun
  have hcall' := h.calls _ (List.mem_of_getElem? hcall)
  have hrest : NodeState.Identified first { s with
      handleMessageCallsInProgress := s.handleMessageCallsInProgress.eraseIdx j } :=
    { h with calls := fun c hc => h.calls c (List.mem_of_mem_eraseIdx hc) }
  cases r with
  | ok f => exact (hrest.pushAccepted (hcall'.accepted f rfl)).of_same (sameBlocks_forActive _ _)
  | error e => exact hrest.of_same (sameBlocks_forActive _ _)

theorem resumeNormalCall (h : s.Identified first) {now : Time} {j : Nat}
    (hrun : s.resumeNormalCall now j = some s') : s'.Identified first := by
  obtain ⟨m, r, hash, hcall, rfl⟩ := resumeNormalCall_eq_some hrun
  have hcall' := h.normalCalls _ (List.mem_of_getElem? hcall)
  have hrest : NodeState.Identified first { s with
      normalCallsInProgress := s.normalCallsInProgress.eraseIdx j } :=
    { h with normalCalls := fun c hc => h.normalCalls c (List.mem_of_mem_eraseIdx hc) }
  cases r with
  | ok f =>
    have hm := hcall'.accepted f rfl
    exact (hrest.pushAccepted hm).finishNormalBlock hm hash now
  | error e => exact hrest.of_same (sameBlocks_forActive _ _)

theorem produceBlock (h : s.Identified first) {cfg : ClientConfig} {fuel : Nat} {b : FullBlock}
    (hb : b.id ≠ nullId) (hrun : s.produceBlock cfg fuel b = some s') : s'.Identified first := by
  obtain ⟨⟨r, client⟩, hanswer, rfl⟩ := Option.map_eq_some_iff.1 hrun
  obtain ⟨h', -, hknows⟩ := h.handleMessage ⟨hb, .inl rfl⟩ hanswer
  cases r with
  | ok f => exact h'.pushAccepted (hknows f rfl)
  | error e => exact h'

end Identified

end NodeState

/-! ## Histories -/

/-- Every block message carries the id of its block or of one the client knows, and no id is that of
the genesis block. -/
def NodeEvent.Genuine (s : NodeState) : NodeEvent → Prop
  | .receive _ (.block m _) _ => s.client.Matches m
  | .produce _ b => b.id ≠ nullId
  | _ => True

theorem NodeState.Identified.onMessage {first : BlockId} {s : NodeState} (h : s.Identified first)
    (i : Nat) (now : Time) (message : PeerMessage)
    (hm : ∀ m hash, message = .block m hash → s.client.Matches m) :
    (s.onMessage i now message).Identified first := by
  cases message with
  | address rejected => exact h.of_same (sameBlocks_modifyPeer s i _)
  | fetchBlockchainItemIds itemType synopsis =>
    exact h.of_same (sameBlocks_onFetchBlockchainItemIdsMessage i itemType synopsis now s)
  | blockchainItemIdsInventory ids remaining => exact h.of_same (sameBlocks_modifyPeer s i _)
  | fetchItems sent =>
    cases sent with
    | none => exact h
    | some id => exact h.of_same (sameBlocks_modifyPeer s i _)
  | itemOffered hash => exact h.of_same ⟨rfl, rfl, rfl, rfl, rfl, rfl⟩
  | itemNotAvailable hash => exact h.of_same (sameBlocks_onItemNotAvailableMessage i hash now s)
  | block m hash => exact h.processBlockMessage (hm m hash rfl) i hash now
  | closingConnection => exact h.of_same (sameBlocks_modifyPeer s i _)

theorem NodeState.Identified.step {first : BlockId} {s s' : NodeState} (h : s.Identified first)
    {e : NodeEvent} {fuel : Nat} (he : e.Genuine s) (hstep : s.step fuel e = some s') : s'.Identified first := by
  cases e with
  | connect inbound lastKnownFork now =>
    obtain rfl := Option.some.inj hstep
    exact h.of_same ⟨rfl, rfl, rfl, rfl, rfl, rfl⟩
  | receive i message now =>
    obtain ⟨-, rfl⟩ := step_receive_eq_some.1 hstep
    refine (h.onMessage i now message ?_).of_same (sameBlocks_modifyPeer _ i _)
    rintro m hash rfl
    exact he
  | sent i now =>
    obtain rfl := Option.some.inj hstep
    exact h.of_same (sameBlocks_modifyPeer s i _)
  | connectionClosed i =>
    obtain ⟨-, rfl⟩ := step_connectionClosed_eq_some.1 hstep
    exact h.of_same (sameBlocks_onConnectionClosed i s)
  | terminateInactiveConnections now =>
    obtain rfl := Option.some.inj hstep
    exact h.of_same ⟨rfl, rfl, rfl, rfl, rfl, rfl⟩
  | fetchSyncItems now =>
    obtain rfl := Option.some.inj hstep
    exact h.of_same (sameBlocks_fetchSyncItems now s)
  | fetchItems now =>
    obtain rfl := Option.some.inj hstep
    exact h.of_same (sameBlocks_fetchItems now s)
  | processBacklog =>
    obtain rfl := Option.some.inj hstep
    unfold processBacklogOfSyncBlocks
    split_ifs
    · exact h
    · exact .processRounds _ (h.of_same ⟨rfl, rfl, rfl, rfl, rfl, rfl⟩)
  | answerSync cfg j => exact h.answerSyncCall hstep
  | resumeSync now j => exact h.resumeSyncCall hstep
  | answerNormal cfg j => exact h.answerNormalCall hstep
  | resumeNormal now j => exact h.resumeNormalCall hstep
  | produce cfg b => exact h.produceBlock he hstep
  | simulateDisconnect on =>
    obtain rfl := Option.some.inj hstep
    exact h.of_same ⟨rfl, rfl, rfl, rfl, rfl, rfl⟩

theorem NodeState.Identified.start {client : ForkState} (h : Grown client) (q : NodeParameters) :
    (NodeState.start q client).Identified client.chain.headId where
  grown := h
  received _ hm := by cases hm
  arrived _ hm := by cases hm
  calls _ hc := by cases hc
  normalCalls _ hc := by cases hc
  recent id hid := .inl (List.mem_singleton.1 hid)
  head := h.head.known.imp_right fun ⟨c, hc⟩ => ⟨c, hc, h.tree.own _ _ hc⟩

/-- No block hashes to the null id, which stands for the genesis block. -/
def ForkEvent.HasId (_ : ForkState) : ForkEvent → Prop
  | .push _ b => b.id ≠ nullId
  | .restart => True

theorem Grown.run {tables : ChainTables} {s : ForkState}
    (hrun : ForkRun ForkEvent.HasId (.genesis tables) s) : Grown s :=
  hrun.induction (fun s e fuel s' he hstep h => ForkState.step_keeps (I := Grown) (fun _ h => h) hstep
    (fun cfg b heq => by rw [heq] at he; exact he) (fun _ _ _ _ _ _ _ h _ => h)
    (fun _ _ _ _ h => h) (fun _ _ _ _ _ _ _ _ _ h => h) (fun _ _ _ _ h => h)
    (fun _ _ _ _ _ _ _ _ _ _ h => h) (fun _ _ _ _ _ _ _ _ h => h) (fun _ _ _ _ h => h) h)
    (.genesis tables)

/-! ## What is recorded -/

section

omit [Crypto]

namespace Peer

/-- The last block of the peer is as before, or none, or meets `P`. -/
def Notes (P : BlockId → Prop) (p p' : Peer) : Prop :=
  p'.lastBlockDelegateHasSeen = p.lastBlockDelegateHasSeen ∨ p'.lastBlockDelegateHasSeen = nullId ∨
    P p'.lastBlockDelegateHasSeen

variable {P : BlockId → Prop}

theorem Notes.trans {p m r : Peer} (h : p.Notes P m) (h' : m.Notes P r) : p.Notes P r := by
  obtain h' | h' := h'
  · rwa [Notes, h']
  · exact .inr h'

variable (p : Peer) (q : NodeParameters) (now : Time) {m : BlockMessage}

theorem notes_disconnect : p.Notes P (p.disconnect now) := by
  unfold disconnect closeConnection
  split_ifs <;> exact .inl rfl

theorem notes_syncBlockAccepted (hm : P m.blockId) : p.Notes P (p.syncBlockAccepted q m now) := by
  unfold syncBlockAccepted
  dsimp only
  split_ifs
  · exact p.notes_disconnect now
  · exact .inr (.inl rfl)
  · exact .inl rfl
  · exact .inr (.inr hm)
  · exact .inr (.inr hm)
  · exact .inl rfl

theorem notes_syncBlockRejected (e : Error) : p.Notes P (p.syncBlockRejected m e now) := by
  unfold syncBlockRejected
  split_ifs
  · exact .inl rfl
  · exact p.notes_disconnect now
  · exact .inl rfl

theorem notes_normalBlockAccepted (hm : P m.blockId) (hash : MessageHash) :
    p.Notes P (p.normalBlockAccepted m hash now) := by
  unfold normalBlockAccepted
  split_ifs
  · exact .inr (.inr hm)
  · exact .inl rfl

theorem notes_checkHardFork : p.Notes P (p.checkHardFork q m now) := by
  unfold checkHardFork
  split_ifs
  · exact p.notes_disconnect now
  · exact .inl rfl

theorem notes_normalBlockRejected : p.Notes P (p.normalBlockRejected m now) := by
  unfold normalBlockRejected
  split_ifs
  · exact p.notes_disconnect now
  · exact .inl rfl

theorem notes_afterSyncBlock : p.Notes P (p.afterSyncBlock now) := by
  unfold afterSyncBlock
  split_ifs <;> exact .inl rfl

end Peer

namespace NodeState

/-- Every peer notes at most a block that meets `P`. -/
def Notes (P : BlockId → Prop) (s s' : NodeState) : Prop :=
  ∀ (i : Nat) (p' : Peer), s'.peers[i]? = some p' → ∃ p : Peer, s.peers[i]? = some p ∧ p.Notes P p'

variable {P : BlockId → Prop} {s m s' : NodeState}

theorem Notes.of_eq (h : s'.peers = s.peers) : s.Notes P s' := fun _ p' hp' =>
  ⟨p', h ▸ hp', .inl rfl⟩

theorem Notes.trans (h : s.Notes P m) (h' : m.Notes P s') : s.Notes P s' := by
  intro i r hr
  obtain ⟨q, hq, hqr⟩ := h' i r hr
  obtain ⟨p, hp, hpq⟩ := h i q hq
  exact ⟨p, hp, hpq.trans hqr⟩

theorem notes_modifyPeer (s : NodeState) (i : Nat) {f : Peer → Peer} (hf : ∀ p : Peer, p.Notes P (f p)) :
    s.Notes P (s.modifyPeer i f) := by
  intro j p' hp'
  rw [getElem?_modifyPeer] at hp'
  obtain ⟨p, hp, rfl⟩ := Option.map_eq_some_iff.1 hp'
  refine ⟨p, hp, ?_⟩
  split_ifs
  · exact hf p
  · exact .inl rfl

theorem notes_forActive (s : NodeState) {f : Peer → Peer} (hf : ∀ p : Peer, p.Notes P (f p)) :
    s.Notes P (s.forActive f) := by
  intro j p' hp'
  rw [getElem?_forActive] at hp'
  obtain ⟨p, hp, rfl⟩ := Option.map_eq_some_iff.1 hp'
  refine ⟨p, hp, ?_⟩
  split_ifs
  · exact hf p
  · exact .inl rfl

theorem notes_finishNormalBlock (s : NodeState) {b : BlockMessage} (hb : P b.blockId)
    (hash : MessageHash) (now : Time) : s.Notes P (s.finishNormalBlock b hash now) :=
  (notes_forActive s fun p => p.notes_normalBlockAccepted now hb hash).trans
    (notes_forActive (pushAccepted b.blockId _) fun p => p.notes_checkHardFork _ now)

theorem notes_processBlockMessage (s : NodeState) (i : Nat) {b : BlockMessage}
    (hb : b.blockId ∈ s.mostRecentBlocksAccepted → P b.blockId) (hash : MessageHash) (now : Time) :
    s.Notes P (s.processBlockMessage i b hash now) := by
  unfold processBlockMessage
  split
  · exact .of_eq rfl
  · split_ifs
    · refine (notes_modifyPeer s i (f := (·.payItem hash)) fun p => .inl rfl).trans ?_
      unfold processBlockDuringNormalOperation
      split_ifs with hrecent
      · exact notes_finishNormalBlock _ (hb (List.contains_iff_mem.1 hrecent)) hash now
      · exact .of_eq rfl
    · refine (notes_modifyPeer s i fun p => ?_).trans (.of_eq rfl)
      exact Peer.Notes.trans (m := p.eraseSyncItem b.blockId) (.inl rfl)
        (Peer.notes_afterSyncBlock _ now)
    · exact notes_modifyPeer s i fun p => p.notes_disconnect now

end NodeState

end

/-- The node goes on with a block that a peer or its own client has given it. -/
def NodeEvent.goesOnWithBlock : NodeEvent → Bool
  | .receive _ (.block _ _) _ => true
  | .resumeSync _ _ => true
  | .resumeNormal _ _ => true
  | .produce _ _ => true
  | _ => false

theorem NodeState.notes_of_identified {first : BlockId} {s s' : NodeState} (h : s.Identified first)
    {e : NodeEvent} {fuel : Nat} (he : e.Genuine s) (hstep : s.step fuel e = some s')
    (hblock : e.goesOnWithBlock = true) : s.Notes s'.client.Knows s' := by
  cases e with
  | receive i message now =>
    cases message with
    | block m hash =>
      obtain ⟨-, rfl⟩ := step_receive_eq_some.1 hstep
      have hclient : (s.processBlockMessage i m hash now).client = s.client := by
        unfold NodeState.processBlockMessage NodeState.processBlockDuringNormalOperation
        split
        · rfl
        · split_ifs <;> rfl
      change s.Notes (s.processBlockMessage i m hash now).client.Knows _
      rw [hclient]
      exact (notes_processBlockMessage s i (h.knows_recent · he.1) hash now).trans
        (notes_modifyPeer _ i fun p => .inl rfl)
    | _ => cases hblock
  | resumeSync now j =>
    obtain ⟨m, r, hcall, rfl⟩ := resumeSyncCall_eq_some hstep
    have hbacked := h.calls _ (List.mem_of_getElem? hcall)
    cases r with
    | ok f =>
      refine NodeState.Notes.trans (.of_eq ?_) (notes_forActive
        (NodeState.pushAccepted m.blockId _) fun p => p.notes_syncBlockAccepted _ now (hbacked.accepted f rfl))
      rfl
    | error e =>
      refine NodeState.Notes.trans (.of_eq ?_)
        (notes_forActive _ fun p => p.notes_syncBlockRejected now e)
      rfl
  | resumeNormal now j =>
    obtain ⟨m, r, hash, hcall, rfl⟩ := resumeNormalCall_eq_some hstep
    have hbacked := h.normalCalls _ (List.mem_of_getElem? hcall)
    cases r with
    | ok f =>
      refine NodeState.Notes.trans (.of_eq ?_)
        (notes_finishNormalBlock (NodeState.pushAccepted m.blockId _) (hbacked.accepted f rfl) hash now)
      rfl
    | error e =>
      refine NodeState.Notes.trans (.of_eq ?_)
        (notes_forActive _ fun p => p.notes_normalBlockRejected now)
      rfl
  | produce cfg b =>
    obtain ⟨⟨r, client⟩, -, rfl⟩ := Option.map_eq_some_iff.1 hstep
    cases r <;> exact .of_eq rfl
  | _ => cases hblock

/-- **Whatever peers send**, if every block message carries the id of its block or of a known one, an
id is among the last accepted ones only if it is the head that the node began with or the client knows
a block with that hash; and when the node goes on with a block, a peer's last block becomes one that the
client knows, if it changes and the peer is not started anew. -/
theorem recorded_known {tables : ChainTables} {client : ForkState}
    (hclient : ForkRun ForkEvent.HasId (.genesis tables) client) (q : NodeParameters)
    {s : NodeState} (hrun : NodeRun NodeEvent.Genuine (.start q client) s) :
    (∀ id ∈ s.mostRecentBlocksAccepted, id = client.chain.headId ∨ s.client.Knows id) ∧
      ∀ e fuel s', e.Genuine s → s.step fuel e = some s' → e.goesOnWithBlock = true →
        ∀ (i : Nat) (p' : Peer), s'.peers[i]? = some p' → ∃ p : Peer, s.peers[i]? = some p ∧
          (p'.lastBlockDelegateHasSeen = p.lastBlockDelegateHasSeen ∨
            p'.lastBlockDelegateHasSeen = nullId ∨ s'.client.Knows p'.lastBlockDelegateHasSeen) := by
  have hidentified := hrun.induction (I := NodeState.Identified client.chain.headId)
    (fun _ _ _ _ he hstep h => h.step he hstep) (.start (.run hclient) q)
  exact ⟨hidentified.recent, fun e fuel s' he hstep hblock =>
    NodeState.notes_of_identified hidentified he hstep hblock⟩

end

/-! ## A message from a peer in normal operation -/

/-- A peer connects, is found to have no blocks for us, and then offers one and is asked for it.  The
client has answered. -/
def offeredBlock (m : BlockMessage) : List NodeEvent :=
  [.connect false 0 5, .receive 0 (.address false) 6,
    .receive 0 (.blockchainItemIdsInventory [] 0) 7, .receive 0 (.itemOffered 3) 8, .fetchItems 9,
    .receive 0 (.block m 3) 10, .answerNormal { clock := 100 } 0]

theorem recorded_known_soloBlock :
    letI := Crypto.transparent
    let b := soloBlock 1 nullId 10 []
    ∃ s s', NodeRun NodeEvent.Genuine (.start {} (.genesis (soloTables 100))) s ∧
      s.step 9 (.resumeNormal 11 0) = some s' ∧ b.id ∈ s'.mostRecentBlocksAccepted ∧
      s'.peers.map (·.lastBlockDelegateHasSeen) = [b.id] ∧ s'.client.Knows b.id := by
  let := Crypto.transparent
  intro b
  obtain ⟨s, hs, hfresh, hsome⟩ := exists_some_of_any
    (o := (NodeState.start {} (.genesis (soloTables 100))).steps 9 (offeredBlock ⟨b, b.id⟩))
    (p := fun s => s.peers.map (·.lastBlockDelegateHasSeen) = [nullId] ∧
      (s.step 9 (.resumeNormal 11 0)).any fun s' => decide (b.id ∈ s'.mostRecentBlocksAccepted ∧
        s'.peers.map (·.lastBlockDelegateHasSeen) = [b.id])) (by decide +kernel)
  obtain ⟨s', hs', hrecent, hseen⟩ := exists_some_of_any hsome
  have hrun : NodeRun NodeEvent.Genuine (.start {} (.genesis (soloTables 100))) s := by
    refine .of_steps hs fun s e he => ?_
    simp only [offeredBlock, List.mem_cons, List.not_mem_nil, or_false] at he
    obtain rfl | rfl | rfl | rfl | rfl | rfl | rfl := he <;> try trivial
    exact ⟨by decide +kernel, .inl rfl⟩
  refine ⟨s, s', hrun, hs', hrecent, hseen, ?_⟩
  obtain ⟨p', hpeers', hp'⟩ := List.map_eq_singleton_iff.1 hseen
  obtain ⟨p₀, hpeers, hp₀⟩ := List.map_eq_singleton_iff.1 hfresh
  obtain ⟨p, hp, hnotes⟩ := (recorded_known (.refl _) {} hrun).2 (.resumeNormal 11 0) 9 s' trivial hs'
    rfl 0 p' (by rw [hpeers']; rfl)
  rw [hpeers] at hp
  obtain rfl : p₀ = p := Option.some.inj hp
  have hne : b.id ≠ nullId := by decide +kernel
  rw [hp', hp₀] at hnotes
  exact (hnotes.resolve_left hne).resolve_left hne

/-- A peer sends the block under the id 77.  The client accepts the block, and the node records that
it has accepted block 77. -/
theorem forged_recorded :
    letI := Crypto.transparent
    ∃ s s', NodeRun (fun _ _ => True) (.start {} (.genesis (soloTables 100))) s ∧
      s.step 9 (.resumeNormal 11 0) = some s' ∧ 77 ∈ s'.mostRecentBlocksAccepted ∧
      s'.peers.map (·.lastBlockDelegateHasSeen) = [77] ∧ ¬ s'.client.Knows 77 := by
  let := Crypto.transparent
  obtain ⟨s, hs, hsome⟩ := exists_some_of_any
    (o := (NodeState.start {} (.genesis (soloTables 100))).steps 9
      (offeredBlock ⟨soloBlock 1 nullId 10 [], 77⟩))
    (p := fun s => (s.step 9 (.resumeNormal 11 0)).any fun s' =>
      decide (77 ∈ s'.mostRecentBlocksAccepted ∧
        s'.peers.map (·.lastBlockDelegateHasSeen) = [77] ∧ s'.client.chain.blocks.lookup 77 = none))
    (by decide +kernel)
  obtain ⟨s', hs', hrecent, hseen, hnone⟩ := exists_some_of_any hsome
  refine ⟨s, s', .of_steps hs fun _ _ _ => trivial, hs', hrecent, hseen, fun ⟨c, hc, _⟩ => ?_⟩
  rw [hnone] at hc
  cases hc

end BitShares
