import BitShares.Fork.Proof.Grown

/-!
# The flags of the fork tree

`FlagsHold` is what the flags are for: a block is linked exactly if it and all its ancestors are
there, `next_blocks` are the blocks that name it, and what comes after an invalid block is invalid.
It holds along every history (`flagsHold_of_run`) in which

* no block that others wait for arrives on a block that is marked invalid: `store_and_index` then
  marks those others invalid but does not link them (`flags_lateLink`), and
* no restart goes over a block whose previous block stays invalid.

Proved with `Flagged`, which also says that no block of the active chain is marked invalid.
-/

namespace BitShares

open Program ForkM

section

variable [Crypto]

structure FlagsHold (s : ForkState) : Prop where
  linked : ∀ x f, s.forks.lookup x = some f → (f.isLinked = true ↔ Rooted s.chain.blocks x)
  next : ∀ x f, s.forks.lookup x = some f → ∀ y, y ∈ f.nextBlocks ↔
    ∃ b, s.chain.blocks.lookup y = some b ∧ b.previous = x
  invalid : ∀ x f, s.forks.lookup x = some f → f.invalid = true →
    ∀ y, Descends s.chain.blocks x y → ∃ g, s.forks.lookup y = some g ∧ g.invalid = true

/-- No block has the null id, a block that others wait for does not arrive on an invalid block, and
a restart does not uncheck a block whose previous block stays invalid. -/
def ForkEvent.KeepsFlags (s : ForkState) : ForkEvent → Prop
  | .push _ b => b.id ≠ nullId ∧ ∀ f, s.forks.lookup b.id = some f → f.isKnown = false →
      ∀ p, s.forks.lookup b.previous = some p → p.invalid = false
  | .restart => ∀ x ∈ s.futureBlocks, ∀ b, s.chain.blocks.lookup x = some b →
      ∀ p, s.forks.lookup b.previous = some p → p.invalid = true → s.Revisited b.previous

/-- The flags hold, only rooted blocks are invalid, and none of the active chain is. -/
structure Flagged (s : ForkState) : Prop extends Grown s where
  linked : ∀ x f, s.forks.lookup x = some f → Rooted s.chain.blocks x → f.isLinked = true
  invalid : ∀ x f, s.forks.lookup x = some f → f.invalid = true → Rooted s.chain.blocks x ∧
    ∀ y ∈ f.nextBlocks, ∃ g, s.forks.lookup y = some g ∧ g.invalid = true
  active : ∀ x f, x = s.chain.headId ∨ Descends s.chain.blocks x s.chain.headId →
    s.forks.lookup x = some f → f.invalid = false

namespace Flagged

variable {s s' : ForkState} {b : FullBlock}

theorem invalid_after (h : Flagged s) {x : BlockId} {f : ForkData} (hf : s.forks.lookup x = some f)
    (hinvalid : f.invalid = true) {y : BlockId} (hy : Descends s.chain.blocks x y) :
    ∃ g, s.forks.lookup y = some g ∧ g.invalid = true := by
  induction hy with
  | child hc hx => exact (h.invalid x f hf hinvalid).2 _ ((h.tree.next x f hf _).2 ⟨_, hc, hx⟩)
  | next hc _ ih =>
    obtain ⟨g, hg, hginvalid⟩ := ih
    exact (h.invalid _ g hg hginvalid).2 _ ((h.tree.next _ g hg _).2 ⟨_, hc, rfl⟩)

theorem flagsHold (h : Flagged s) : FlagsHold s where
  linked x f hf := ⟨h.rooted x f hf, h.linked x f hf⟩
  next := h.tree.next
  invalid _ _ hf hinvalid _ hy := h.invalid_after hf hinvalid hy

theorem of_same (h : Flagged s) (hsame : SameTree s s') (hgrown : Grown s')
    (hdown : ∀ x f, s'.forks.lookup x = some f → f.invalid = true →
      ∃ g, s.forks.lookup x = some g ∧ g.invalid = true)
    (hup : ∀ x g c p, s.forks.lookup x = some g → g.invalid = true →
      s.chain.blocks.lookup x = some c → s'.forks.lookup c.previous = some p → p.invalid = true →
      ∃ f, s'.forks.lookup x = some f ∧ f.invalid = true)
    (hactive : ∀ x f, x = s'.chain.headId ∨ Descends s.chain.blocks x s'.chain.headId →
      s'.forks.lookup x = some f → f.invalid = false) : Flagged s' where
  toGrown := hgrown
  linked x f hf hrooted := by
    obtain ⟨g, hg, heq⟩ := hsame.lookup_linked hf
    rw [hsame.blocks] at hrooted
    exact heq.trans (h.linked x g hg hrooted)
  invalid x f hf hinvalid := by
    obtain ⟨g, hg, hginvalid⟩ := hdown x f hf hinvalid
    obtain ⟨g', hg', hnext, -⟩ := hsame.lookup hf
    obtain rfl := Option.some.inj (hg.symm.trans hg')
    obtain ⟨hrooted, hchildren⟩ := h.invalid x g hg hginvalid
    refine ⟨hsame.blocks ▸ hrooted, fun y hy => ?_⟩
    rw [hnext] at hy
    obtain ⟨c, hc, rfl⟩ := (h.tree.next x g hg y).1 hy
    obtain ⟨k, hk, hkinvalid⟩ := hchildren y hy
    exact hup y k c f hk hkinvalid hc hf hinvalid
  active x f hx hf := by
    rw [hsame.blocks] at hx
    exact hactive x f hx hf

omit [Crypto] in
theorem lookup_insert_valid {forks : Table BlockId ForkData} {x : BlockId} {f g : ForkData}
    (hf : forks.lookup x = some f) (hg : g.invalid = f.invalid) (y : BlockId) :
    ((forks.insert x g).lookup y).map ForkData.invalid =
      (forks.lookup y).map ForkData.invalid := by
  rw [Table.lookup_insert_eq]
  split_ifs with hy
  · rw [hy, hf, Option.map_some, Option.map_some, hg]
  · rfl

theorem of_insert (h : Flagged s) (hgrown : Grown s') {x : BlockId} {f g : ForkData}
    (hsame : SameTree s s') (hf : s.forks.lookup x = some f) (hforks : s'.forks = s.forks.insert x g)
    (hg : g.invalid = f.invalid)
    (hactive : ∀ y k, y = s'.chain.headId ∨ Descends s.chain.blocks y s'.chain.headId →
      s.forks.lookup y = some k → k.invalid = false) : Flagged s' := by
  have hvalid : ∀ y, (s'.forks.lookup y).map ForkData.invalid =
      (s.forks.lookup y).map ForkData.invalid := fun y => hforks ▸ lookup_insert_valid hf hg y
  refine h.of_same hsame hgrown (fun y k hk hinvalid => ?_) (fun y k _ _ hk hinvalid _ _ _ => ?_)
    (fun y k hy hk => ?_)
  · have heq := hvalid y
    rw [hk, Option.map_some, hinvalid] at heq
    exact Option.map_eq_some_iff.1 heq.symm
  · have heq := hvalid y
    rw [hk, Option.map_some, hinvalid] at heq
    exact Option.map_eq_some_iff.1 heq
  · have heq := hvalid y
    rw [hk, Option.map_some] at heq
    obtain ⟨g, hg, hginvalid⟩ := Option.map_eq_some_iff.1 heq.symm
    exact hginvalid.symm.trans (hactive y g hy hg)

theorem popped (h : Flagged s) {f : ForkData} {c : FullBlock} {undo : Batch}
    {header : SignedBlockHeader} (hf : s.forks.lookup s.chain.headId = some f)
    (hc : s.chain.blocks.lookup s.chain.headId = some c)
    (hhead : c.toSignedBlockHeader = s.chain.head) (hgrown : Grown (s.popped f undo header)) :
    Flagged (s.popped f undo header) := by
  have hprev : s.chain.head.previous = c.previous := by rw [← hhead]
  refine h.of_insert hgrown (sameTree_popped hf undo header) hf rfl rfl fun y k hy hk => ?_
  -- what is left of the active chain was part of it
  change y = s.chain.head.previous ∨ Descends s.chain.blocks y s.chain.head.previous at hy
  rw [hprev] at hy
  refine h.active y k (.inr ?_) hk
  rcases hy with rfl | hy
  · exact .child hc rfl
  · exact .next hc hy

theorem stuck (h : Flagged s) {f : ForkData} (hf : s.forks.lookup s.chain.headId = some f) :
    Flagged (s.stuck f) :=
  h.of_insert (h.toGrown.stuck hf) (sameTree_stuck hf) hf rfl rfl h.active

theorem extended {extend : ChainState → FullBlock → Except Error ChainState} (h : Flagged s)
    (hmoves : MovesHead extend) (hb : s.chain.blocks.lookup b.id = some b)
    (hprev : b.previous = s.chain.headId) {f : ForkData} (hf : s.forks.lookup b.id = some f)
    {c : ChainState} (hext : extend s.chain b = .ok c) (hgrown : Grown (s.extended c b f)) :
    Flagged (s.extended c b f) := by
  have hlookup : ∀ y, (s.extended c b f).forks.lookup y =
      if y = b.id then some { f with isIncluded := true, isValid := some true }
        else s.forks.lookup y := fun y => Table.lookup_insert_eq _ _ _ _
  have hdown : ∀ x k, (s.extended c b f).forks.lookup x = some k → k.invalid = true →
      ∃ g, s.forks.lookup x = some g ∧ g.invalid = true := by
    intro x k hk hinvalid
    rw [hlookup] at hk
    split_ifs at hk
    · obtain rfl := Option.some.inj hk
      cases hinvalid
    · exact ⟨k, hk, hinvalid⟩
  have hsame := sameTree_extended (s := s) hf (hmoves.blocks _ _ _ hext)
  have hhead : (s.extended c b f).chain.headId = b.id := hmoves.headId _ _ _ hext
  -- the new head is valid, and below it is the active chain
  refine h.of_same hsame hgrown hdown (fun x g d p hg hinvalid hd hp hpinvalid => ?_)
    (fun x k hx hk => ?_)
  · rw [hlookup]
    split_ifs with hx
    · subst hx
      obtain rfl := Option.some.inj (hb.symm.trans hd)
      obtain ⟨q, hq, hqinvalid⟩ := hdown _ p hp hpinvalid
      rw [h.active _ q (.inl hprev) hq] at hqinvalid
      cases hqinvalid
    · exact ⟨g, hg, hinvalid⟩
  · rw [hlookup] at hk
    split_ifs at hk with hne
    · obtain rfl := Option.some.inj hk
      rfl
    · rw [hhead] at hx
      exact h.active x k (hprev ▸ (hx.resolve_left hne).previous hb) hk

theorem rejected {e : Error} (h : Flagged s) (hb : s.chain.blocks.lookup b.id = some b)
    (hprev : b.previous = s.chain.headId) (hrej : Rejected s s' b e) : Flagged s' := by
  have hgrown := h.toGrown.rejected hrej
  have hsame := hrej.sameTree
  have hrooted := h.rooted_next hb hprev
  refine ⟨hgrown, fun x f hf hroot => ?_, fun x f hf hinvalid => ?_, fun x f hx hf => ?_⟩
  · obtain ⟨g, hg, heq⟩ := hsame.lookup_linked hf
    exact heq.trans (h.linked x g hg (hsame.blocks ▸ hroot))
  · by_cases hV : x = b.id ∨ Descends s.chain.blocks b.id x
    · -- what comes after a marked block is marked
      refine ⟨?_, fun y hy => ?_⟩
      · rw [hsame.blocks]
        rcases hV with rfl | hV
        · exact hrooted
        · exact hrooted.descends hV
      · obtain ⟨c, hc, hcx⟩ := (hgrown.tree.next x f hf y).1 hy
        rw [hsame.blocks] at hc
        have hy : Descends s.chain.blocks b.id y := by
          rcases hV with rfl | hV
          · exact .child hc hcx
          · exact .next hc (hcx ▸ hV)
        obtain ⟨g, hg⟩ := (h.tree.entered y c hc).1
        exact ⟨_, by rw [hrej.forks.marked y (.inr hy), hg, Option.map_some], rfl⟩
    · obtain ⟨g, hg, hnext, -⟩ := hsame.lookup hf
      rw [hrej.forks.kept x hV] at hf
      obtain rfl := Option.some.inj (hf.symm.trans hg)
      obtain ⟨hroot, hchildren⟩ := h.invalid x f hg hinvalid
      refine ⟨hsame.blocks ▸ hroot, fun y hy => ?_⟩
      obtain ⟨k, hk, hkinvalid⟩ := hchildren y hy
      exact hrej.invalid hk hkinvalid
  · rw [hsame.blocks, hrej.chain] at hx
    rw [hrej.forks.kept x (h.next_not_active hb hprev hx)] at hf
    exact h.active x f hx hf

theorem previous_invalid (h : Flagged s) (hinvalid : (s.previousRecord b).invalid = true) :
    ∃ p, s.forks.lookup b.previous = some p ∧ p.invalid = true ∧
      Rooted s.chain.blocks b.previous := by
  cases hp : s.forks.lookup b.previous with
  | none =>
    rw [ForkState.previousRecord, hp] at hinvalid
    cases hinvalid
  | some p =>
    rw [ForkState.previousRecord_flags hp] at hinvalid
    exact ⟨p, rfl, hinvalid, (h.invalid _ p hp hinvalid).1⟩

theorem previous_linked (h : Flagged s) (hrooted : Rooted s.chain.blocks b.previous) :
    (s.previousRecord b).isLinked = true := by
  obtain ⟨p, hp⟩ : ∃ p, s.forks.lookup b.previous = some p := by
    rcases hrooted.known with hnull | ⟨c, hc⟩
    · rw [hnull]
      exact h.tree.genesis
    · exact (h.tree.entered _ c hc).1
  rw [ForkState.previousRecord_flags hp]
  exact h.linked _ p hp hrooted

theorem placeholder_valid (h : Flagged s) (hnew : s.chain.blocks.lookup b.id = none)
    (hid : b.id ≠ nullId) {placeholder : ForkData}
    (hp : (s.storeBlock b).forks.lookup b.id = some placeholder)
    (hvalid : (s.previousRecord b).invalid = false) : placeholder.invalid = false := by
  rw [s.forks_storeBlock] at hp
  split_ifs at hp
  · obtain rfl := Option.some.inj hp
    exact hvalid
  · cases hinvalid : placeholder.invalid with
    | false => rfl
    | true => exact absurd (h.invalid _ _ hp hinvalid).1 (not_rooted_new hnew hid)

omit [Crypto] in
theorem invalid_link {forks forks' : Table BlockId ForkData} {V : BlockId → Prop}
    (h : MarkedBy ForkData.link V forks forks') (x : BlockId) :
    (forks'.lookup x).map ForkData.invalid = (forks.lookup x).map ForkData.invalid := by
  by_cases hV : V x
  · rw [h.marked x hV, Option.map_map]
    rfl
  · rw [h.kept x hV]

/-- What placing a block does to the validity marks, unless it is awaited on an invalid block: it
has the mark of its previous block, and only one that nobody waits for is invalid. -/
theorem placed_valid (h : Flagged s) (hnew : s.chain.blocks.lookup b.id = none)
    (hid : b.id ≠ nullId)
    (hawaited : ∀ f, s.forks.lookup b.id = some f → f.isKnown = false →
      ∀ p, s.forks.lookup b.previous = some p → p.invalid = false)
    {longest : BlockId × ForkData} (hplaced : Placed s b longest s') :
    ∃ current : ForkData, current.invalid = (s.previousRecord b).invalid ∧
      (∀ x, (s'.forks.lookup x).map ForkData.invalid =
        (((s.storeBlock b).forks.insert b.id current).lookup x).map ForkData.invalid) ∧
      (current.invalid = true → (s.storeBlock b).forks.lookup b.id = none) := by
  -- an awaited block that links, or does not, is not on an invalid block
  have hmain : ∀ placeholder current : ForkData,
      (s.storeBlock b).forks.lookup b.id = some placeholder →
      (s.previousRecord b).invalid = false → current.isValid = placeholder.isValid →
      current.invalid = (s.previousRecord b).invalid ∧
      (current.invalid = true → (s.storeBlock b).forks.lookup b.id = none) := by
    intro placeholder current hp hvalid heq
    have hcurrent : current.invalid = false := by
      rw [ForkData.invalid, heq]
      exact h.placeholder_valid hnew hid hp hvalid
    refine ⟨hcurrent.trans hvalid.symm, fun hinvalid => ?_⟩
    rw [hcurrent] at hinvalid
    cases hinvalid
  cases hplaced with
  | @invalid placeholder current _ hp hlinked hinvalid hcurrent hmarked =>
    obtain ⟨p, hprev, hpinvalid, hrooted⟩ := h.previous_invalid hinvalid
    rw [s.forks_storeBlock] at hp
    split_ifs at hp with hself
    · exact absurd (hself ▸ hrooted) (not_rooted_new hnew hid)
    · have hknown : placeholder.isKnown = false := by
        cases hknown : placeholder.isKnown with
        | false => rfl
        | true =>
          rcases (h.tree.known _ _ hp).1 hknown with hnull | ⟨c, hc⟩
          · exact absurd hnull hid
          · rw [hnew] at hc
            cases hc
      rw [hawaited placeholder hp hknown p hprev] at hpinvalid
      cases hpinvalid
  | @linked placeholder current _ l hp hlinked hvalid hcurrent hmarked hlongest =>
    obtain ⟨heq, hnone⟩ := hmain placeholder current hp hvalid (by rw [hcurrent])
    exact ⟨current, heq, invalid_link hmarked, hnone⟩
  | @unlinked placeholder current _ hp hlinked hcurrent hforks =>
    have hvalid : (s.previousRecord b).invalid = false := by
      cases hinvalid : (s.previousRecord b).invalid with
      | false => rfl
      | true =>
        obtain ⟨p, -, -, hrooted⟩ := h.previous_invalid hinvalid
        rw [h.previous_linked hrooted] at hlinked
        cases hlinked
    obtain ⟨heq, hnone⟩ := hmain placeholder current hp hvalid (by rw [hcurrent])
    exact ⟨current, heq, fun x => by rw [hforks], hnone⟩
  | @fresh current _ hp hcurrent hforks =>
    refine ⟨current, ?_, fun x => by rw [hforks], fun _ => hp⟩
    rw [hcurrent]
    cases hinvalid : (s.previousRecord b).invalid with
    | false => rfl
    | true => rfl

/-- Once a block is placed, what is rooted was rooted, or comes after the block and its previous
block is rooted. -/
theorem rooted_placed (h : Flagged s) (hnew : s.chain.blocks.lookup b.id = none)
    (hid : b.id ≠ nullId) {x : BlockId} (hx : Rooted (s.storeBlock b).chain.blocks x) :
    x ≠ b.id ∧ Rooted s.chain.blocks x ∨
      (x = b.id ∨ Descends (s.storeBlock b).chain.blocks b.id x) ∧
        Rooted s.chain.blocks b.previous := by
  have hnull' : NullFree (s.storeBlock b).chain.blocks := by
    rw [NullFree, s.lookup_storeBlock, if_neg (Ne.symm hid)]
    exact h.tree.null
  by_cases hV : x = b.id ∨ Descends (s.storeBlock b).chain.blocks b.id x
  · refine .inr ⟨hV, (rooted_new_iff h.tree.null hid hnew).1 ?_⟩
    rcases hV with rfl | hV
    · exact hx
    · exact hx.of_descends hnull' hV
  · rw [not_or] at hV
    exact .inl ⟨hV.1, (rooted_insert_iff hnew hV.1 hV.2).1 hx⟩

theorem placed_linked (h : Flagged s) (hnew : s.chain.blocks.lookup b.id = none)
    (hid : b.id ≠ nullId) {longest : BlockId × ForkData} (hplaced : Placed s b longest s')
    (hvalid : (s.previousRecord b).invalid = false ∨
      (s.storeBlock b).forks.lookup b.id = none) {x : BlockId} {f : ForkData}
    (hf : s'.forks.lookup x = some f) (hx : Rooted (s.storeBlock b).chain.blocks x) :
    f.isLinked = true := by
  -- a record of a block that was there
  have hold : ∀ current : ForkData, x ≠ b.id → Rooted s.chain.blocks x →
      ((s.storeBlock b).forks.insert b.id current).lookup x = some f → f.isLinked = true := by
    intro current hne hrooted hf
    rcases ForkState.lookup_placed_old hne hf with ⟨g, hg, heq, -⟩ | ⟨hnone, -, -⟩
    · exact heq.trans (h.linked x g hg hrooted)
    · rcases hrooted.known with rfl | ⟨c, hc⟩
      · obtain ⟨g, hg⟩ := h.tree.genesis
        rw [hnone] at hg
        cases hg
      · obtain ⟨⟨g, hg⟩, -⟩ := h.tree.entered x c hc
        rw [hnone] at hg
        cases hg
  have hcases := h.rooted_placed hnew hid hx
  cases hplaced with
  | @invalid placeholder current _ hp hlinked hinvalid hcurrent hmarked =>
    rcases hvalid with hvalid | hnone
    · rw [hvalid] at hinvalid
      cases hinvalid
    · rw [hnone] at hp
      cases hp
  | @linked placeholder current _ l hp hlinked hvalid hcurrent hmarked hlongest =>
    by_cases hdesc : Descends (s.storeBlock b).chain.blocks b.id x
    · rw [hmarked.marked x hdesc, Option.map_eq_some_iff] at hf
      obtain ⟨g, -, rfl⟩ := hf
      rfl
    · rw [hmarked.kept x hdesc] at hf
      rcases hcases with ⟨hne, hrooted⟩ | ⟨hV, -⟩
      · exact hold current hne hrooted hf
      · rw [hV.resolve_right hdesc, Finmap.lookup_insert, hcurrent] at hf
        obtain rfl := Option.some.inj hf
        rfl
  | @unlinked placeholder current _ hp hlinked hcurrent hforks =>
    rw [hforks] at hf
    rcases hcases with ⟨hne, hrooted⟩ | ⟨-, hrooted⟩
    · exact hold current hne hrooted hf
    · rw [h.previous_linked hrooted] at hlinked
      cases hlinked
  | @fresh current _ hp hcurrent hforks =>
    rw [hforks] at hf
    rcases hcases with ⟨hne, hrooted⟩ | ⟨hV, hrooted⟩
    · exact hold current hne hrooted hf
    · by_cases hxb : x = b.id
      · rw [hxb, Finmap.lookup_insert, hcurrent] at hf
        obtain rfl := Option.some.inj hf
        exact h.previous_linked hrooted
      · obtain ⟨y, c, hc, hcy⟩ := (hV.resolve_left hxb).hasNext
        exact absurd hcy (h.tree.not_awaited hp y c hc)

theorem placed (h : Flagged s) (hnew : s.chain.blocks.lookup b.id = none) (hid : b.id ≠ nullId)
    (hawaited : ∀ f, s.forks.lookup b.id = some f → f.isKnown = false →
      ∀ p, s.forks.lookup b.previous = some p → p.invalid = false)
    {longest : BlockId × ForkData} (hs' : s' = { s.storeBlock b with forks := s'.forks })
    (hgrown : Grown s') (hplaced : Placed s b longest s') : Flagged s' := by
  have htree := hgrown.tree
  have hblocks : s'.chain.blocks = (s.storeBlock b).chain.blocks := by rw [hs']
  have hhead : s'.chain.headId = s.chain.headId := by rw [hs']; rfl
  obtain ⟨current, hcurrent, hmarks, hnone⟩ := h.placed_valid hnew hid hawaited hplaced
  -- the mark of a block that was there
  have hold : ∀ x f, x ≠ b.id → s'.forks.lookup x = some f → f.invalid = true →
      ∃ g, s.forks.lookup x = some g ∧ g.invalid = true := by
    intro x f hx hf hinvalid
    have heq := hmarks x
    rw [hf, Option.map_some, hinvalid, eq_comm, Option.map_eq_some_iff] at heq
    obtain ⟨k, hk, hkinvalid⟩ := heq
    rcases ForkState.lookup_placed_old hx hk with ⟨g, hg, -, heq, -⟩ | ⟨-, -, heq, -⟩
    · exact ⟨g, hg, by rw [ForkData.invalid, ← heq]; exact hkinvalid⟩
    · rw [ForkData.invalid, heq] at hkinvalid
      cases hkinvalid
  have hkept : ∀ y k, y ≠ b.id → s.forks.lookup y = some k → k.invalid = true →
      ∃ g, s'.forks.lookup y = some g ∧ g.invalid = true := by
    intro y k hy hk hinvalid
    refine Option.map_eq_some_iff.1 ((hmarks y).trans ?_)
    rw [s.lookup_placed, if_neg hy]
    split_ifs with hprev
    · rw [hprev] at hk
      rw [Option.map_some, ForkState.previousRecord_flags hk, ← hinvalid]
      rfl
    · rw [hk, Option.map_some, hinvalid]
  refine ⟨hgrown, fun x f hf hrooted => ?_, fun x f hf hinvalid => ?_, fun x f hx hf => ?_⟩
  · refine h.placed_linked hnew hid hplaced ?_ hf (hblocks ▸ hrooted)
    cases hinvalid : current.invalid with
    | false => exact .inl (hcurrent ▸ hinvalid)
    | true => exact .inr (hnone hinvalid)
  · by_cases hx : x = b.id
    · -- the new block: its previous block is invalid, and nothing waits for it
      subst hx
      have heq := hmarks b.id
      rw [hf, Finmap.lookup_insert, Option.map_some, Option.map_some, hinvalid] at heq
      have hcinvalid := (Option.some.inj heq).symm
      obtain ⟨p, hp, -, hrooted⟩ := h.previous_invalid (hcurrent ▸ hcinvalid)
      rw [hblocks]
      refine ⟨(rooted_new_iff h.tree.null hid hnew).2 hrooted, fun y hy => ?_⟩
      obtain ⟨c, hc, hcy⟩ := (htree.next b.id f hf y).1 hy
      rw [hblocks] at hc
      exact absurd hcy (h.tree.not_awaited (hnone hcinvalid) y c hc)
    · obtain ⟨g, hg, hginvalid⟩ := hold x f hx hf hinvalid
      obtain ⟨hrooted, hchildren⟩ := h.invalid x g hg hginvalid
      rw [hblocks]
      refine ⟨hrooted.insert hnew, fun y hy => ?_⟩
      obtain ⟨c, hc, hcy⟩ := (htree.next x f hf y).1 hy
      rw [hblocks, s.lookup_storeBlock] at hc
      split_ifs at hc with hyb
      · -- the new block is as invalid as its previous one
        obtain rfl := Option.some.inj hc
        refine Option.map_eq_some_iff.1 ((hmarks y).trans ?_)
        rw [hyb, Finmap.lookup_insert, Option.map_some, hcurrent,
          ForkState.previousRecord_flags (hcy ▸ hg), ← hginvalid]
        rfl
      · obtain ⟨k, hk, hkinvalid⟩ := hchildren y ((h.tree.next x g hg y).2 ⟨c, hc, hcy⟩)
        exact hkept y k hyb hk hkinvalid
  · rw [hblocks, hhead] at hx
    have hx' : x = s.chain.headId ∨ Descends s.chain.blocks x s.chain.headId :=
      hx.imp_right fun hdesc => hdesc.of_insert h.tree.null hid hnew h.head
    have hrooted : Rooted s.chain.blocks x := h.rooted_active hx'
    cases hinvalid : f.invalid with
    | false => rfl
    | true =>
      obtain ⟨g, hg, hginvalid⟩ := hold x f (h.not_after hnew hid hrooted).1 hf hinvalid
      rw [h.active x g hx' hg] at hginvalid
      cases hginvalid

theorem restarted (h : Flagged s)
    (hkeeps : ∀ x ∈ s.futureBlocks, ∀ b, s.chain.blocks.lookup x = some b →
      ∀ p, s.forks.lookup b.previous = some p → p.invalid = true → s.Revisited b.previous)
    (hs' : s' = { s with forks := s'.forks })
    (hmarked : MarkedBy ForkData.uncheck s.Revisited s.forks s'.forks) (hgrown : Grown s') :
    Flagged s' := by
  have hsame : SameTree s s' := hmarked.sameTree hs' (fun _ => ⟨rfl, rfl⟩) fun _ => rfl
  have hdown : ∀ x f, s'.forks.lookup x = some f → f.invalid = true →
      ¬ s.Revisited x ∧ s.forks.lookup x = some f := by
    intro x f hf hinvalid
    by_cases hV : s.Revisited x
    · rw [hmarked.marked x hV, Option.map_eq_some_iff] at hf
      obtain ⟨g, -, rfl⟩ := hf
      cases hinvalid
    · exact ⟨hV, by rw [← hmarked.kept x hV, hf]⟩
  refine h.of_same hsame hgrown
    (fun x f hf hinvalid => ⟨f, (hdown x f hf hinvalid).2, hinvalid⟩)
    (fun x g c p hg hinvalid hc hp hpinvalid => ⟨g, ?_, hinvalid⟩) (fun x f hx hf => ?_)
  · -- a block is not unchecked if its previous block is not
    obtain ⟨hV, hp⟩ := hdown _ p hp hpinvalid
    rw [hmarked.kept x, hg]
    rintro ⟨z, hz, rfl | hdesc⟩
    · exact hV (hkeeps x hz c hc p hp hpinvalid)
    · exact hV ⟨z, hz, (hdesc.previous hc).imp_left Eq.symm⟩
  · rw [show s'.chain = s.chain by rw [hs']] at hx
    cases hinvalid : f.invalid with
    | false => rfl
    | true =>
      rw [h.active x f hx (hdown x f hf hinvalid).2] at hinvalid
      cases hinvalid

theorem genesis (tables : ChainTables) : Flagged (.genesis tables) := by
  have hlookup : ∀ x f, (ForkState.genesis tables).forks.lookup x = some f →
      f.isLinked = true ∧ f.invalid = false := by
    intro x f hf
    obtain ⟨-, rfl⟩ := Table.eq_of_lookup_singleton hf
    exact ⟨rfl, rfl⟩
  refine ⟨.genesis tables, fun x f hf _ => (hlookup x f hf).1, fun x f hf hinvalid => ?_,
    fun x f _ hf => (hlookup x f hf).2⟩
  rw [(hlookup x f hf).2] at hinvalid
  cases hinvalid

end Flagged

theorem flagged_step {s s' : ForkState} {e : ForkEvent} {fuel : Nat} (hc : e.KeepsFlags s)
    (hstep : s.step fuel e = some s') (h : Flagged s) : Flagged s' := by
  refine ForkState.step_keeps (I := Flagged) (fun s h => h.toGrown) hstep ?_ ?_
    (fun s b h _ hgrown => ⟨hgrown, h.linked, h.invalid, h.active⟩)
    (fun s f c undo header h hf hc hhead hgrown => h.popped hf hc hhead hgrown)
    (fun s f h hf _ => h.stuck hf)
    (fun cfg s b f c h hb hprev hf hext hgrown =>
      h.extended (movesHead_extendChainOn cfg) hb hprev hf hext hgrown)
    (fun s s' b e h hb hprev hrej _ => h.rejected hb hprev hrej) ?_ h
  · rintro cfg b rfl
    exact hc.1
  · rintro cfg b longest s' rfl hnew hs' hgrown hplaced
    exact h.placed hnew hc.1 hc.2 hs' hgrown hplaced
  · rintro s' rfl hs' hmarked hgrown
    exact h.restarted hc hs' hmarked hgrown

/-- **The flags hold along every history** in which no block arrives late on an invalid block and no
restart unchecks a block below which one stays invalid. -/
theorem flagsHold_of_run (tables : ChainTables) (s : ForkState)
    (hrun : ForkRun (fun s e => e.KeepsFlags s) (.genesis tables) s) : FlagsHold s :=
  (hrun.induction (I := Flagged) (fun _ _ _ _ hc hstep h => flagged_step hc hstep h)
    (.genesis tables)).flagsHold

end

/-- The condition on a push, as a check. -/
def ForkEvent.keepsFlags [Crypto] (s : ForkState) : ForkEvent → Bool
  | .push _ b => decide (b.id ≠ nullId) && (s.forks.lookup b.id).all fun f => f.isKnown ||
      (s.forks.lookup b.previous).all fun p => !p.invalid
  | .restart => false

theorem ForkEvent.keepsFlags_of_check [Crypto] {s : ForkState} {e : ForkEvent}
    (h : e.keepsFlags s = true) : e.KeepsFlags s := by
  cases e with
  | push cfg b =>
    obtain ⟨hid, hwaits⟩ := Bool.and_eq_true_iff.1 h
    refine ⟨of_decide_eq_true hid, fun f hf hunknown p hp => ?_⟩
    rw [hf, Option.all_some, hunknown, Bool.false_or, hp, Option.all_some] at hwaits
    simpa using hwaits
  | restart => cases h

theorem flagsHold_branched :
    letI := Crypto.timed
    ∃ s, ForkRun (fun s e => e.KeepsFlags s) (.genesis (soloTables 100)) s ∧
      s.chain.head.timestamp = 70 ∧ FlagsHold s := by
  let := Crypto.timed
  obtain ⟨s, hs, hhead⟩ := exists_some_of_any
    (o := (ForkState.genesis (soloTables 100)).checkedSteps (fun s e => e.keepsFlags s) 9
      branchedPushes)
    (p := fun s => s.chain.head.timestamp = 70) (by decide +kernel)
  have hrun := ForkRun.of_checkedSteps (fun s e => ForkEvent.keepsFlags_of_check) hs
  exact ⟨s, hrun, hhead, flagsHold_of_run _ s hrun⟩

/-- Block 1 is not on time and is marked invalid; then block 3 comes before block 2.  Block 2 is
linked and invalid, block 3 is invalid but not linked. -/
theorem flags_lateLink :
    letI := Crypto.transparent
    ∃ s, ForkRun (fun _ _ => True) (.genesis (soloTables 100)) s ∧ ¬ FlagsHold s := by
  let := Crypto.transparent
  let block1 := soloBlock 1 nullId 11 []
  let block2 := soloBlock 2 block1.id 20 []
  let block3 := soloBlock 3 block2.id 30 []
  obtain ⟨s, hs, h₁, h₂, h₃, hlinked⟩ := exists_some_of_any
    (o := (ForkState.genesis (soloTables 100)).steps 9
      [.push { clock := 100 } block1, .push { clock := 100 } block3, .push { clock := 100 } block2])
    (p := fun s => s.chain.blocks.lookup block1.id = some block1 ∧
      s.chain.blocks.lookup block2.id = some block2 ∧
      s.chain.blocks.lookup block3.id = some block3 ∧
      (s.forks.lookup block3.id).map ForkData.isLinked = some false) (by decide +kernel)
  refine ⟨s, .of_steps hs fun _ _ _ => trivial, fun h => ?_⟩
  obtain ⟨f, hf, hfalse⟩ := Option.map_eq_some_iff.1 hlinked
  have hrooted : Rooted s.chain.blocks block3.id := ⟨_, .block h₃ (.block h₂ (.block h₁ .genesis))⟩
  rw [(h.linked _ f hf).2 hrooted] at hfalse
  cases hfalse

end BitShares
