import BitShares.Chain.Proof.Block
import BitShares.Fork.Proof.Grown

/-!
# Numbers and times along the chain

`verify_header` compares the number and the time of a block with those of the head only if the
number is above 1.  The chain is `Sequenced` along every history in which a block with a smaller
number is a block 1 on the genesis block (`sequenced_of_run`); without that, a second block 1 can be
an interior block of a fork (`sequence_restarted`).
-/

namespace BitShares

open Program ForkM

/-- Newest first: the numbers go down by one to 1, and the times are multiples of the interval and
go down. -/
def Sequenced : List FullBlock → Prop
  | [] => True
  | [b] => b.blockNum = 1 ∧ b.timestamp % BLOCK_INTERVAL_SEC = 0
  | b :: c :: l => b.blockNum = c.blockNum + 1 ∧ b.timestamp % BLOCK_INTERVAL_SEC = 0 ∧
      c.timestamp < b.timestamp ∧ Sequenced (c :: l)

theorem Sequenced.tail {b : FullBlock} {l : List FullBlock} (h : Sequenced (b :: l)) :
    Sequenced l := by
  cases l with
  | nil => trivial
  | cons c l => exact h.2.2.2

section

variable [Crypto]

theorem extendChainOn_header {s s' : ChainState} {cfg : ClientConfig} {b : FullBlock}
    (h : s.extendChainOn cfg b = .ok s') :
    b.timestamp % BLOCK_INTERVAL_SEC = 0 ∧
      (1 < b.blockNum → b.blockNum = s.head.blockNum + 1 ∧ s.head.timestamp < b.timestamp) := by
  obtain ⟨signee, -, hheader, -⟩ := extendChainOn_eq_ok h
  simp only [ChainState.verifyHeader, bind_eq_ok, require_eq_ok] at hheader
  obtain ⟨-, hnum, -, -, -, htime, -, hpast, -⟩ := hheader
  exact ⟨htime, fun hlt => ⟨hnum.resolve_left hlt.not_ge, hpast.resolve_left hlt.not_ge⟩⟩

/-- No block has the null id, and a block numbered 1 or less is a block 1 on the genesis block. -/
def ForkEvent.StartsOnce : ForkEvent → Prop
  | .push _ b => b.id ≠ nullId ∧ (b.blockNum ≤ 1 → b.blockNum = 1 ∧ b.previous = nullId)
  | .restart => True

/-- The chain is sequenced, and only block 1 skips the comparison. -/
structure InSequence (s : ForkState) : Prop extends Grown s where
  starts : ∀ x b, s.chain.blocks.lookup x = some b → b.blockNum ≤ 1 →
    b.blockNum = 1 ∧ b.previous = nullId
  chain : ∃ l, Path s.chain.blocks s.chain.headId l ∧ Sequenced l

namespace InSequence

variable {s s' : ForkState} {b : FullBlock}

theorem popped (h : InSequence s) {f : ForkData} {c : FullBlock} {undo : Batch}
    {header : SignedBlockHeader} (hc : s.chain.blocks.lookup s.chain.headId = some c)
    (hhead : c.toSignedBlockHeader = s.chain.head) (hgrown : Grown (s.popped f undo header)) :
    InSequence (s.popped f undo header) := by
  refine ⟨hgrown, h.starts, ?_⟩
  obtain ⟨l, hl, hseq⟩ := h.chain
  change ∃ l, Path s.chain.blocks s.chain.head.previous l ∧ Sequenced l
  rw [← hhead]
  obtain ⟨l', rfl, hl'⟩ := hl.of_block h.tree.null hc
  exact ⟨l', hl', hseq.tail⟩

theorem extended (h : InSequence s) {cfg : ClientConfig} (hb : s.chain.blocks.lookup b.id = some b)
    (hprev : b.previous = s.chain.headId) {f : ForkData} {c : ChainState}
    (hext : s.chain.extendChainOn cfg b = .ok c) (hgrown : Grown (s.extended c b f)) :
    InSequence (s.extended c b f) := by
  have hmoves := movesHead_extendChainOn cfg
  have hblocks : c.blocks = s.chain.blocks := hmoves.blocks _ _ _ hext
  have hid : c.headId = b.id := hmoves.headId _ _ _ hext
  obtain ⟨htime, hlater⟩ := extendChainOn_header hext
  obtain ⟨l, hl, hseq⟩ := h.chain
  refine ⟨hgrown, fun x d hd => h.starts x d (hblocks ▸ hd), b :: l, ?_, ?_⟩
  · change Path c.blocks c.headId (b :: l)
    rw [hblocks, hid]
    exact .block hb (hprev ▸ hl)
  · rcases h.seated with ⟨hnull, hhead⟩ | ⟨d, hd, hhead⟩
    · -- on the genesis block no other number passes
      rw [hnull] at hl
      rw [hl.of_nullId h.tree.null]
      refine ⟨?_, htime⟩
      by_cases hle : b.blockNum ≤ 1
      · exact (h.starts _ b hb hle).1
      · have hnum := (hlater (not_le.1 hle)).1
        rw [hhead] at hnum
        exact hnum
    · have hlt : 1 < b.blockNum := by
        refine not_le.1 fun hle => ?_
        rw [← hprev, (h.starts _ b hb hle).2, h.tree.null] at hd
        cases hd
      obtain ⟨l', rfl, -⟩ := hl.of_block h.tree.null hd
      obtain ⟨hnum, hlater⟩ := hlater hlt
      rw [← hhead] at hnum hlater
      exact ⟨hnum, htime, hlater, hseq⟩

theorem placed (h : InSequence s) (hnew : s.chain.blocks.lookup b.id = none)
    (hstarts : b.blockNum ≤ 1 → b.blockNum = 1 ∧ b.previous = nullId)
    (hs' : s' = { s.storeBlock b with forks := s'.forks }) (hgrown : Grown s') : InSequence s' := by
  have hchain : s'.chain = (s.storeBlock b).chain := by rw [hs']
  refine ⟨hgrown, fun x d hd hle => ?_, ?_⟩
  · rw [hchain, s.lookup_storeBlock] at hd
    split_ifs at hd
    · obtain rfl := Option.some.inj hd
      exact hstarts hle
    · exact h.starts x d hd hle
  · obtain ⟨l, hl, hseq⟩ := h.chain
    rw [hchain]
    exact ⟨l, hl.insert hnew, hseq⟩

end InSequence

/-- **The chain is in sequence along every history** in which a block numbered 1 or less is a block 1
on the genesis block. -/
theorem sequenced_of_run (tables : ChainTables) (s : ForkState)
    (hrun : ForkRun (fun _ e => e.StartsOnce) (.genesis tables) s) :
    ∃ l, Path s.chain.blocks s.chain.headId l ∧ Sequenced l := by
  refine (hrun.induction (I := InSequence) (fun s e fuel s' hc hstep h => ?_)
    ⟨.genesis tables, fun x b hb => (by cases hb), [], .genesis, trivial⟩).chain
  refine ForkState.step_keeps (I := InSequence) (fun s h => h.toGrown) hstep ?_ ?_
    (fun s b h _ hgrown => ⟨hgrown, h.starts, h.chain⟩)
    (fun s f c undo header h _ hc hhead hgrown => h.popped hc hhead hgrown)
    (fun s f h _ hgrown => ⟨hgrown, h.starts, h.chain⟩)
    (fun cfg s b f c h hb hprev _ hext hgrown => h.extended hb hprev hext hgrown)
    (fun s s' b e h hb _ hrej hgrown => ⟨hgrown, by rw [hrej.chain]; exact h.starts,
      by rw [hrej.chain]; exact h.chain⟩) ?_ h
  · rintro cfg b rfl
    exact hc.1
  · rintro cfg b longest s' rfl hnew hs' hgrown -
    exact h.placed hnew hc.2 hs' hgrown
  · rintro s' - hs' - hgrown
    have hchain : s'.chain = s.chain := by rw [hs']
    exact ⟨hgrown, by rw [hchain]; exact h.starts, by rw [hchain]; exact h.chain⟩

end

theorem sequenced_branched :
    letI := Crypto.timed
    ∃ s, ForkRun (fun _ e => e.StartsOnce) (.genesis (soloTables 100)) s ∧
      s.chain.head.timestamp = 70 ∧ ∃ l, Path s.chain.blocks s.chain.headId l ∧ Sequenced l := by
  let := Crypto.timed
  obtain ⟨s, hs, hhead⟩ := exists_some_of_any
    (o := (ForkState.genesis (soloTables 100)).steps 9 branchedPushes)
    (p := fun s => s.chain.head.timestamp = 70) (by decide +kernel)
  have hstarts : ∀ b ∈ branchedBlocks,
      b.id ≠ nullId ∧ (b.blockNum ≤ 1 → b.blockNum = 1 ∧ b.previous = nullId) := by decide +kernel
  have hrun : ForkRun (fun _ e => e.StartsOnce) (.genesis (soloTables 100)) s := by
    refine .of_steps hs fun _ e he => ?_
    obtain ⟨b, hb, rfl⟩ := List.mem_map.1 he
    exact hstarts b hb
  exact ⟨s, hrun, hhead, sequenced_of_run _ s hrun⟩

/-- A second block 1, on the first and earlier than it, comes in with the block 2 on it. -/
theorem sequence_restarted :
    letI := Crypto.timed
    ∃ s, ForkRun (fun _ _ => True) (.genesis (soloTables 100)) s ∧
      ∃ l, Path s.chain.blocks s.chain.headId l ∧ l.map (·.blockNum) = [2, 1, 1] ∧
        l.map (·.timestamp) = [30, 10, 20] ∧ ¬ Sequenced l := by
  let := Crypto.timed
  let block1 := soloBlock 1 nullId 20 []
  let again1 := soloBlock 1 block1.id 10 []
  let block2 := soloBlock 2 again1.id 30 []
  obtain ⟨s, hs, hhead, h₁, h₂, h₃⟩ := exists_some_of_any
    (o := (ForkState.genesis (soloTables 100)).steps 9
      [.push { clock := 100 } block1, .push { clock := 100 } again1, .push { clock := 100 } block2])
    (p := fun s => s.chain.headId = block2.id ∧ s.chain.blocks.lookup block2.id = some block2 ∧
      s.chain.blocks.lookup again1.id = some again1 ∧
      s.chain.blocks.lookup block1.id = some block1) (by decide +kernel)
  refine ⟨s, .of_steps hs fun _ _ _ => trivial, [block2, again1, block1], ?_, rfl, rfl,
    fun h => absurd h.2.2.2.1 (by decide)⟩
  rw [hhead]
  exact .block h₁ (.block h₂ (.block h₃ .genesis))

end BitShares
