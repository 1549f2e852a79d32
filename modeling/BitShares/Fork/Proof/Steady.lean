import BitShares.Fork.Proof.Grown

/-!
# Marks of validity and the active chain

`Steady` says how the marks lie in the tree of blocks, whatever was pushed: what can be linked is on
something that can, only connected blocks are marked invalid, the active chain is not, and only its
blocks are marked as included.  It is kept by every step of `push_block` (`Steady.placed`,
`Steady.popped`, `Steady.stuck`, `Steady.extended`, `Steady.rejected`), so a switch to a block that
can be linked only meets blocks that can (`Steady.wp_switch`).
-/

namespace BitShares

open Program ForkM

section

variable [Crypto]

/-- What can be linked is on something that can, what is invalid is connected, and the active chain
is not invalid and holds what is included. -/
structure Steady (s : ForkState) : Prop extends Grown s where
  chained : ∀ y d g, s.chain.blocks.lookup y = some d → s.forks.lookup y = some g →
    g.canLink = true → ∃ p, s.forks.lookup d.previous = some p ∧ p.canLink = true
  invalid : ∀ x f, s.forks.lookup x = some f → f.invalid = true → Rooted s.chain.blocks x
  active : ∀ x f, x = s.chain.headId ∨ Descends s.chain.blocks x s.chain.headId →
    s.forks.lookup x = some f → f.invalid = false
  included : ∀ x f, s.forks.lookup x = some f → f.isIncluded = true →
    x = s.chain.headId ∨ Descends s.chain.blocks x s.chain.headId

omit [Crypto] in
theorem ForkData.not_invalid {f : ForkData} (h : f.canLink = true) : f.invalid = false := by
  simp only [ForkData.canLink, Bool.and_eq_true, Bool.not_eq_true'] at h
  exact h.2

omit [Crypto] in
theorem ForkData.linked_of_canLink {f : ForkData} (h : f.canLink = true) : f.isLinked = true := by
  simp only [ForkData.canLink, Bool.and_eq_true] at h
  exact h.1

namespace Steady

variable {s s' : ForkState} {b : FullBlock}

theorem canLink_before (h : Steady s) {x y : BlockId} (hy : Descends s.chain.blocks x y)
    {g : ForkData} (hg : s.forks.lookup y = some g) (hlink : g.canLink = true) :
    ∃ f, s.forks.lookup x = some f ∧ f.canLink = true := by
  induction hy generalizing g with
  | child hc hx => exact hx ▸ h.chained _ _ g hc hg hlink
  | next hc _ ih =>
    obtain ⟨p, hp, hplink⟩ := h.chained _ _ g hc hg hlink
    exact ih hp hplink

theorem valid_before (h : Steady s) {x y : BlockId} (hy : x = y ∨ Descends s.chain.blocks x y)
    {g : ForkData} (hg : s.forks.lookup y = some g) (hlink : g.canLink = true) :
    ∃ f, s.forks.lookup x = some f ∧ f.canLink = true := by
  rcases hy with rfl | hy
  · exact ⟨g, hg, hlink⟩
  · exact h.canLink_before hy hg hlink

omit [Crypto] in
theorem lookup_marks {forks forks' : Table BlockId ForkData}
    (hmarks : ∀ x, (forks'.lookup x).map (fun f => (f.isLinked, f.isValid)) =
      (forks.lookup x).map fun f => (f.isLinked, f.isValid)) {x : BlockId} {f : ForkData}
    (hf : forks'.lookup x = some f) :
    ∃ g, forks.lookup x = some g ∧ f.canLink = g.canLink ∧ f.invalid = g.invalid := by
  have heq := hmarks x
  rw [hf, Option.map_some, eq_comm, Option.map_eq_some_iff] at heq
  obtain ⟨g, hg, heq⟩ := heq
  obtain ⟨hlinked, hvalid⟩ := Prod.mk.inj heq
  exact ⟨g, hg, by rw [ForkData.canLink, ForkData.canLink, ForkData.invalid, ForkData.invalid,
    hlinked, hvalid], by rw [ForkData.invalid, ForkData.invalid, hvalid]⟩

omit [Crypto] in
theorem marks_insert {forks : Table BlockId ForkData} {x : BlockId} {f g : ForkData}
    (hf : forks.lookup x = some f) (hlinked : g.isLinked = f.isLinked)
    (hvalid : g.isValid = f.isValid) (y : BlockId) :
    ((forks.insert x g).lookup y).map (fun f => (f.isLinked, f.isValid)) =
      (forks.lookup y).map fun f => (f.isLinked, f.isValid) := by
  rw [Table.lookup_insert_eq]
  split_ifs with hy
  · rw [hy, hf, Option.map_some, Option.map_some, hlinked, hvalid]
  · rfl

theorem of_marks (h : Steady s) (hgrown : Grown s')
    (hblocks : s'.chain.blocks = s.chain.blocks)
    (hmarks : ∀ x, (s'.forks.lookup x).map (fun f => (f.isLinked, f.isValid)) =
      (s.forks.lookup x).map fun f => (f.isLinked, f.isValid))
    (hactive : ∀ x, x = s'.chain.headId ∨ Descends s.chain.blocks x s'.chain.headId →
      x = s.chain.headId ∨ Descends s.chain.blocks x s.chain.headId)
    (hincluded : ∀ x f, s'.forks.lookup x = some f → f.isIncluded = true →
      x = s'.chain.headId ∨ Descends s.chain.blocks x s'.chain.headId) : Steady s' where
  toGrown := hgrown
  chained y d g hd hg hlink := by
    obtain ⟨g', hg', heq, -⟩ := lookup_marks hmarks hg
    obtain ⟨p, hp, hplink⟩ := h.chained y d g' (hblocks ▸ hd) hg' (heq ▸ hlink)
    obtain ⟨p', hp', heq, -⟩ := lookup_marks (fun x => (hmarks x).symm) hp
    exact ⟨p', hp', heq ▸ hplink⟩
  invalid x f hf hinvalid := by
    obtain ⟨g, hg, -, heq⟩ := lookup_marks hmarks hf
    exact hblocks ▸ h.invalid x g hg (heq ▸ hinvalid)
  active x f hx hf := by
    obtain ⟨g, hg, -, heq⟩ := lookup_marks hmarks hf
    exact heq.trans (h.active x g (hactive x (hblocks ▸ hx)) hg)
  included x f hf hinc := by
    rw [hblocks]
    exact hincluded x f hf hinc

section Placing

variable {longest : BlockId × ForkData}

theorem placed_other (hplaced : Placed s b longest s') {x : BlockId} (hx : x ≠ b.id)
    (hafter : ¬ Descends (s.storeBlock b).chain.blocks b.id x) {f : ForkData}
    (hf : s.forks.lookup x = some f) :
    ∃ g, s'.forks.lookup x = some g ∧ g.canLink = f.canLink ∧ g.invalid = f.invalid ∧
      g.isIncluded = f.isIncluded := by
  rw [hplaced.lookup_other hx hafter]
  split_ifs with hprev
  · rw [hprev] at hf
    rw [ForkState.previousRecord_flags hf]
    exact ⟨_, rfl, rfl, rfl, rfl⟩
  · exact ⟨f, hf, rfl, rfl, rfl⟩

theorem placed_other_old (hplaced : Placed s b longest s') {x : BlockId} (hx : x ≠ b.id)
    (hafter : ¬ Descends (s.storeBlock b).chain.blocks b.id x) {g : ForkData}
    (hg : s'.forks.lookup x = some g) :
    (∃ f, s.forks.lookup x = some f ∧ g.canLink = f.canLink ∧ g.invalid = f.invalid ∧
      g.isIncluded = f.isIncluded) ∨ g.canLink = false ∧ g.invalid = false ∧
        g.isIncluded = false := by
  cases hf : s.forks.lookup x with
  | some f =>
    obtain ⟨g', hg', hflags⟩ := placed_other hplaced hx hafter hf
    obtain rfl := Option.some.inj (hg.symm.trans hg')
    exact .inl ⟨f, rfl, hflags⟩
  | none =>
    rw [hplaced.lookup_other hx hafter, hf] at hg
    split_ifs at hg with hprev
    · obtain rfl := Option.some.inj hg
      rw [ForkState.previousRecord, ← hprev, hf]
      exact .inr ⟨rfl, rfl, rfl⟩

/-- A record that is not connected is not linked, not invalid and not included. -/
theorem flags_of_not_rooted (h : Steady s) {x : BlockId} (hnot : ¬ Rooted s.chain.blocks x)
    {f : ForkData} (hf : s.forks.lookup x = some f) :
    f.isLinked = false ∧ f.invalid = false ∧ f.isIncluded = false := by
  refine ⟨Bool.eq_false_iff.2 fun hlinked => hnot (h.rooted x f hf hlinked),
    Bool.eq_false_iff.2 fun hinvalid => hnot (h.invalid x f hf hinvalid),
    Bool.eq_false_iff.2 fun hincluded => hnot ?_⟩
  exact h.rooted_active (h.included x f hf hincluded)

theorem stored_flags (h : Steady s) (hnew : s.chain.blocks.lookup b.id = none)
    (hid : b.id ≠ nullId) {f : ForkData} (hf : (s.storeBlock b).forks.lookup b.id = some f) :
    f.isLinked = false ∧ f.invalid = false ∧ f.isIncluded = false := by
  rw [s.forks_storeBlock] at hf
  split_ifs at hf with hself
  · obtain rfl := Option.some.inj hf
    rw [ForkState.previousRecord, ← hself]
    cases hp : s.forks.lookup b.id with
    | none => exact ⟨rfl, rfl, rfl⟩
    | some p =>
      obtain ⟨hlinked, hinvalid, hincluded⟩ := h.flags_of_not_rooted (not_rooted_new hnew hid) hp
      exact ⟨hlinked, hinvalid, hincluded⟩
  · exact h.flags_of_not_rooted (not_rooted_new hnew hid) hf

inductive Joined (s s' : ForkState) (b : FullBlock) : Prop
  /-- All can be linked, on a block that can. -/
  | linked (hprev : (s.previousRecord b).canLink = true)
      (hnew : ∀ x f, x = b.id ∨ Descends (s.storeBlock b).chain.blocks b.id x →
        s'.forks.lookup x = some f → f.canLink = true ∧ f.isIncluded = false)
  /-- Nothing of it can be, on a block that cannot, and it is invalid only if it is connected. -/
  | apart (hprev : (s.previousRecord b).canLink = false)
      (hnew : ∀ x f, x = b.id ∨ Descends (s.storeBlock b).chain.blocks b.id x →
        s'.forks.lookup x = some f → f.canLink = false ∧ f.isIncluded = false ∧
          (f.invalid = true → Rooted (s.storeBlock b).chain.blocks b.id))

/-- What comes after a block that has not arrived is neither linked, invalid nor included. -/
theorem lookup_branch (h : Steady s) (hnew : s.chain.blocks.lookup b.id = none) (hid : b.id ≠ nullId)
    {x : BlockId} (hx : x = b.id ∨ Descends (s.storeBlock b).chain.blocks b.id x)
    {current f : ForkData} (hf : ((s.storeBlock b).forks.insert b.id current).lookup x = some f) :
    f = current ∨ f.isLinked = false ∧ f.invalid = false ∧ f.isIncluded = false := by
  by_cases hxb : x = b.id
  · rw [hxb, Finmap.lookup_insert] at hf
    exact .inl (Option.some.inj hf).symm
  · refine .inr ?_
    have hnot : ¬ Rooted s.chain.blocks x := fun hrooted =>
      (h.not_after hnew hid hrooted).2 (hx.resolve_left hxb)
    rcases ForkState.lookup_placed_old hxb hf with ⟨g, hg, hl, hv, hi⟩ | ⟨-, hl, hv, hi⟩
    · rw [hl, hi, ForkData.invalid, hv]
      exact h.flags_of_not_rooted hnot hg
    · exact ⟨hl, by rw [ForkData.invalid, hv]; rfl, hi⟩

/-- A block that no other waits for takes the flags of its previous block. -/
theorem joined_fresh (h : Steady s) (hnew : s.chain.blocks.lookup b.id = none) (hid : b.id ≠ nullId)
    {current : ForkData} (hlink : current.canLink = (s.previousRecord b).canLink)
    (hflag : current.invalid = (s.previousRecord b).invalid) (hincluded : current.isIncluded = false)
    (honly : ∀ x f, x = b.id ∨ Descends (s.storeBlock b).chain.blocks b.id x →
      s'.forks.lookup x = some f → f = current) : Joined s s' b := by
  cases hprev : (s.previousRecord b).canLink with
  | true =>
    refine .linked hprev fun x f hx hf => ?_
    rw [honly x f hx hf, hlink]
    exact ⟨hprev, hincluded⟩
  | false =>
    refine .apart hprev fun x f hx hf => ?_
    rw [honly x f hx hf, hlink, hflag]
    refine ⟨hprev, hincluded, fun hinvalid => (rooted_new_iff h.tree.null hid hnew).2 ?_⟩
    cases hp : s.forks.lookup b.previous with
    | none =>
      rw [ForkState.previousRecord, hp] at hinvalid
      cases hinvalid
    | some p =>
      rw [ForkState.previousRecord_flags hp] at hinvalid
      exact h.invalid _ p hp hinvalid

theorem joined (h : Steady s) (hnew : s.chain.blocks.lookup b.id = none)
    (hid : b.id ≠ nullId) (hplaced : Placed s b longest s') : Joined s s' b := by
  cases hplaced with
  | @invalid placeholder current _ hp hlinked hinvalid hcurrent hmarked =>
    have hrooted := h.rooted_new hnew hid hlinked
    have hbase : ∀ x k, x = b.id ∨ Descends (s.storeBlock b).chain.blocks b.id x →
        ((s.storeBlock b).forks.insert b.id current).lookup x = some k → k.isIncluded = false := by
      intro x k hx hk
      rcases h.lookup_branch hnew hid hx hk with rfl | hflags
      · rw [hcurrent]
        exact (h.stored_flags hnew hid hp).2.2
      · exact hflags.2.2
    refine .apart (by rw [ForkData.canLink, hinvalid]; exact Bool.and_false _) fun x f hx hf => ?_
    by_cases hdesc : Descends (s.storeBlock b).chain.blocks b.id x
    · rw [hmarked.marked x hdesc, Option.map_eq_some_iff] at hf
      obtain ⟨k, hk, rfl⟩ := hf
      exact ⟨Bool.and_false _, hbase x k hx hk, fun _ => hrooted⟩
    · rw [hmarked.kept x hdesc] at hf
      have hincluded := hbase x f hx hf
      rw [hx.resolve_right hdesc, Finmap.lookup_insert] at hf
      obtain rfl := Option.some.inj hf
      exact ⟨by rw [hcurrent]; exact Bool.and_false _, hincluded, fun _ => hrooted⟩
  | @linked placeholder current _ l hp hlinked hvalid hcurrent hmarked _ =>
    refine .linked (by rw [ForkData.canLink, hlinked, hvalid]; rfl) fun x f hx hf => ?_
    have hbase : ∀ k, ((s.storeBlock b).forks.insert b.id current).lookup x = some k →
        k.invalid = false ∧ k.isIncluded = false := by
      intro k hk
      rcases h.lookup_branch hnew hid hx hk with rfl | hflags
      · rw [hcurrent]
        exact (h.stored_flags hnew hid hp).2
      · exact hflags.2
    by_cases hdesc : Descends (s.storeBlock b).chain.blocks b.id x
    · rw [hmarked.marked x hdesc, Option.map_eq_some_iff] at hf
      obtain ⟨k, hk, rfl⟩ := hf
      obtain ⟨hkvalid, hkincluded⟩ := hbase k hk
      refine ⟨?_, hkincluded⟩
      change (true && !k.invalid) = true
      rw [hkvalid]
      rfl
    · rw [hmarked.kept x hdesc] at hf
      obtain ⟨hfvalid, hfincluded⟩ := hbase f hf
      rw [hx.resolve_right hdesc, Finmap.lookup_insert] at hf
      obtain rfl := Option.some.inj hf
      refine ⟨?_, hfincluded⟩
      rw [ForkData.canLink, hfvalid, hcurrent]
      rfl
  | @unlinked placeholder current _ hp hlinked hcurrent hforks =>
    refine .apart (by rw [ForkData.canLink, hlinked]; rfl) fun x f hx hf => ?_
    rw [hforks] at hf
    have hflags : f.isLinked = false ∧ f.invalid = false ∧ f.isIncluded = false := by
      obtain ⟨hplinked, hpvalid, hpincluded⟩ := h.stored_flags hnew hid hp
      rcases h.lookup_branch hnew hid hx hf with rfl | hflags
      · rw [hcurrent]
        exact ⟨hplinked, hpvalid, hpincluded⟩
      · exact hflags
    refine ⟨by rw [ForkData.canLink, hflags.1]; rfl, hflags.2.2, fun hinvalid => ?_⟩
    rw [hflags.2.1] at hinvalid
    cases hinvalid
  | @fresh current _ hp hcurrent hforks =>
    have hflag : current.invalid = (s.previousRecord b).invalid := by
      rw [hcurrent]
      cases (s.previousRecord b).invalid <;> rfl
    have hlink : current.canLink = (s.previousRecord b).canLink := by
      rw [ForkData.canLink, hflag, hcurrent]
      rfl
    refine h.joined_fresh hnew hid hlink hflag (by rw [hcurrent]) fun x f hx hf => ?_
    -- nothing waits for the block
    rw [hforks] at hf
    rcases hx with rfl | hx
    · rw [Finmap.lookup_insert] at hf
      exact (Option.some.inj hf).symm
    · obtain ⟨y, c, hc, hcy⟩ := hx.hasNext
      exact absurd hcy (h.tree.not_awaited hp y c hc)

theorem placed (h : Steady s) (hnew : s.chain.blocks.lookup b.id = none) (hid : b.id ≠ nullId)
    (hs' : s' = { s.storeBlock b with forks := s'.forks }) (hgrown : Grown s')
    (hplaced : Placed s b longest s') : Steady s' := by
  have hblocks : s'.chain.blocks = (s.storeBlock b).chain.blocks := by rw [hs']
  have hhead : s'.chain.headId = s.chain.headId := by rw [hs']; rfl
  have hjoined := h.joined hnew hid hplaced
  refine ⟨hgrown, fun y d g hd hg hlink => ?_, fun x f hf hinvalid => ?_, fun x f hx hf => ?_,
    fun x f hf hincluded => ?_⟩
  · rw [hblocks] at hd
    by_cases hy : y = b.id ∨ Descends (s.storeBlock b).chain.blocks b.id y
    · cases hjoined with
      | apart _ hapart =>
        rw [(hapart y g hy hg).1] at hlink
        cases hlink
      | linked hprev hall =>
        by_cases hyb : y = b.id
        · -- on the previous block, which was connected
          rw [hyb, s.lookup_storeBlock, if_pos rfl] at hd
          obtain rfl := Option.some.inj hd
          have hlinked : (s.previousRecord b).isLinked = true := by
            rw [ForkData.canLink, Bool.and_eq_true] at hprev
            exact hprev.1
          obtain ⟨hne, hafter⟩ := h.not_after hnew hid (h.rooted_previous hlinked)
          exact ⟨_, by rw [hplaced.lookup_other hne hafter, if_pos rfl], hprev⟩
        · have hprevious := (hy.resolve_left hyb).previous hd
          obtain ⟨-, p, hp⟩ := hgrown.tree.entered y d (hblocks ▸ hd)
          exact ⟨p, hp, (hall d.previous p (hprevious.imp_left Eq.symm) hp).1⟩
    · rw [not_or] at hy
      rw [s.lookup_storeBlock, if_neg hy.1] at hd
      rcases placed_other_old hplaced hy.1 hy.2 hg with ⟨f, hf, heq, -⟩ | ⟨heq, -⟩
      · obtain ⟨p, hp, hplink⟩ := h.chained y d f hd hf (heq ▸ hlink)
        have hd' : (s.storeBlock b).chain.blocks.lookup y = some d := by
          rw [s.lookup_storeBlock, if_neg hy.1]
          exact hd
        have hprev : d.previous ≠ b.id ∧ ¬ Descends (s.storeBlock b).chain.blocks b.id d.previous :=
          ⟨fun heq => hy.2 (.child hd' heq), fun hdesc => hy.2 (.next hd' hdesc)⟩
        obtain ⟨q, hq, hqlink, -⟩ := placed_other hplaced hprev.1 hprev.2 hp
        exact ⟨q, hq, hqlink.trans hplink⟩
      · rw [heq] at hlink
        cases hlink
  · rw [hblocks]
    by_cases hx : x = b.id ∨ Descends (s.storeBlock b).chain.blocks b.id x
    · have hrooted : Rooted (s.storeBlock b).chain.blocks b.id := by
        cases hjoined with
        | apart _ hapart => exact (hapart x f hx hf).2.2 hinvalid
        | linked hprev hall =>
          rw [ForkData.not_invalid (hall x f hx hf).1] at hinvalid
          cases hinvalid
      rcases hx with rfl | hx
      · exact hrooted
      · exact hrooted.descends hx
    · rw [not_or] at hx
      rcases placed_other_old hplaced hx.1 hx.2 hf with ⟨g, hg, -, heq, -⟩ | ⟨-, heq, -⟩
      · exact (h.invalid x g hg (heq ▸ hinvalid)).insert hnew
      · rw [heq] at hinvalid
        cases hinvalid
  · rw [hblocks, hhead] at hx
    have hx' : x = s.chain.headId ∨ Descends s.chain.blocks x s.chain.headId :=
      hx.imp_right fun hdesc => hdesc.of_insert h.tree.null hid hnew h.head
    have hrooted : Rooted s.chain.blocks x := h.rooted_active hx'
    obtain ⟨hne, hafter⟩ := h.not_after hnew hid hrooted
    rcases placed_other_old hplaced hne hafter hf with ⟨g, hg, -, heq, -⟩ | ⟨-, heq, -⟩
    · exact heq.trans (h.active x g hx' hg)
    · exact heq
  · rw [hblocks, hhead]
    by_cases hx : x = b.id ∨ Descends (s.storeBlock b).chain.blocks b.id x
    · have hnot : f.isIncluded = false := by
        cases hjoined with
        | apart _ hapart => exact (hapart x f hx hf).2.1
        | linked _ hall => exact (hall x f hx hf).2
      rw [hnot] at hincluded
      cases hincluded
    · rw [not_or] at hx
      rcases placed_other_old hplaced hx.1 hx.2 hf with ⟨g, hg, -, -, heq⟩ | ⟨-, -, heq⟩
      · exact (h.included x g hg (heq ▸ hincluded)).imp_right fun hdesc => hdesc.insert hnew
      · rw [heq] at hincluded
        cases hincluded

end Placing

/-! ## The steps of a switch -/

theorem popped (h : Steady s) {f : ForkData} {c : FullBlock} {undo : Batch}
    {header : SignedBlockHeader} (hf : s.forks.lookup s.chain.headId = some f)
    (hc : s.chain.blocks.lookup s.chain.headId = some c)
    (hhead : c.toSignedBlockHeader = s.chain.head) (hgrown : Grown (s.popped f undo header)) :
    Steady (s.popped f undo header) := by
  have hprev : s.chain.head.previous = c.previous := by rw [← hhead]
  refine h.of_marks hgrown rfl (marks_insert hf rfl rfl) (fun x hx => ?_)
    (fun x g hg hincluded => ?_)
  · change x = s.chain.head.previous ∨ Descends s.chain.blocks x s.chain.head.previous at hx
    rw [hprev] at hx
    rcases hx with rfl | hx
    · exact .inr (.child hc rfl)
    · exact .inr (.next hc hx)
  · change x = s.chain.head.previous ∨ Descends s.chain.blocks x s.chain.head.previous
    change (s.forks.insert s.chain.headId _).lookup x = some g at hg
    rw [Table.lookup_insert_eq] at hg
    split_ifs at hg with hx
    · obtain rfl := Option.some.inj hg
      cases hincluded
    · rw [hprev]
      exact ((h.included x g hg hincluded).resolve_left hx).previous hc

theorem stuck (h : Steady s) {f : ForkData} (hf : s.forks.lookup s.chain.headId = some f)
    (hgrown : Grown (s.stuck f)) : Steady (s.stuck f) := by
  refine h.of_marks hgrown rfl (marks_insert hf rfl rfl) (fun x hx => hx)
    (fun x g hg hincluded => ?_)
  change (s.forks.insert s.chain.headId _).lookup x = some g at hg
  rw [Table.lookup_insert_eq] at hg
  split_ifs at hg with hx
  · obtain rfl := Option.some.inj hg
    cases hincluded
  · exact h.included x g hg hincluded

variable {extend : ChainState → FullBlock → Except Error ChainState} {c : FullBlock}

theorem extended (h : Steady s) (hmoves : MovesHead extend)
    (hc : s.chain.blocks.lookup c.id = some c) (hprev : c.previous = s.chain.headId)
    {f : ForkData} (hf : s.forks.lookup c.id = some f) (hlink : f.canLink = true)
    {chain : ChainState} (hext : extend s.chain c = .ok chain)
    (hgrown : Grown (s.extended chain c f)) : Steady (s.extended chain c f) := by
  have hblocks : (s.extended chain c f).chain.blocks = s.chain.blocks := hmoves.blocks _ _ _ hext
  have hhead : (s.extended chain c f).chain.headId = c.id := hmoves.headId _ _ _ hext
  have hlookup : ∀ y, (s.extended chain c f).forks.lookup y =
      if y = c.id then some { f with isIncluded := true, isValid := some true }
        else s.forks.lookup y := fun y => Table.lookup_insert_eq _ _ _ _
  have hlinked := ForkData.linked_of_canLink hlink
  have hlinks : ∀ x g, (s.extended chain c f).forks.lookup x = some g →
      ∃ k, s.forks.lookup x = some k ∧ g.canLink = k.canLink ∧
        (g.invalid = true → k.invalid = true) := by
    intro x g hg
    rw [hlookup] at hg
    split_ifs at hg with hx
    · obtain rfl := Option.some.inj hg
      refine ⟨f, hx ▸ hf, ?_, fun hinvalid => (by cases hinvalid)⟩
      rw [hlink]
      simp [ForkData.canLink, ForkData.invalid, hlinked]
    · exact ⟨g, hg, rfl, id⟩
  refine ⟨hgrown, fun y d g hd hg hglink => ?_, fun x g hg hinvalid => ?_, fun x g hx hg => ?_,
    fun x g hg hincluded => ?_⟩
  · obtain ⟨k, hk, heq, -⟩ := hlinks y g hg
    obtain ⟨p, hp, hplink⟩ := h.chained y d k (hblocks ▸ hd) hk (heq ▸ hglink)
    rw [hlookup]
    split_ifs with hx
    · refine ⟨_, rfl, ?_⟩
      simp [ForkData.canLink, ForkData.invalid, hlinked]
    · exact ⟨p, hp, hplink⟩
  · obtain ⟨k, hk, -, himp⟩ := hlinks x g hg
    exact hblocks ▸ h.invalid x k hk (himp hinvalid)
  · rw [hlookup] at hg
    split_ifs at hg with hne
    · obtain rfl := Option.some.inj hg
      rfl
    · rw [hblocks, hhead] at hx
      exact h.active x g (hprev ▸ (hx.resolve_left hne).previous hc) hg
  · rw [hblocks, hhead]
    rw [hlookup] at hg
    split_ifs at hg with hx
    · exact .inl hx
    · rcases h.included x g hg hincluded with rfl | hdesc
      · exact .inr (.child hc hprev)
      · exact .inr (.next hc (hprev ▸ hdesc))

theorem rejected (h : Steady s) (hc : s.chain.blocks.lookup c.id = some c)
    (hprev : c.previous = s.chain.headId) {e : Error} (hrej : Rejected s s' c e)
    (hgrown : Grown s') : Steady s' := by
  have hblocks : s'.chain.blocks = s.chain.blocks := by rw [hrej.chain]
  have hrooted := h.rooted_next hc hprev
  refine ⟨hgrown, fun y d g hd hg hglink => ?_, fun x g hg hinv => ?_, fun x g hx hg => ?_,
    fun x g hg hincluded => ?_⟩
  · rw [hblocks] at hd
    have hV : ¬ (y = c.id ∨ Descends s.chain.blocks c.id y) := by
      intro hV
      rw [hrej.forks.marked y hV, Option.map_eq_some_iff] at hg
      obtain ⟨k, -, rfl⟩ := hg
      rw [ForkData.canLink, Bool.and_eq_true] at hglink
      cases hglink.2
    rw [hrej.forks.kept y hV] at hg
    rw [hrej.forks.kept d.previous fun hV' => hV (.inr ?_)]
    · exact h.chained y d g hd hg hglink
    · rcases hV' with heq | hdesc
      · exact .child hd heq
      · exact .next hd hdesc
  · rw [hblocks]
    by_cases hV : x = c.id ∨ Descends s.chain.blocks c.id x
    · rcases hV with rfl | hV
      · exact hrooted
      · exact hrooted.descends hV
    · rw [hrej.forks.kept x hV] at hg
      exact h.invalid x g hg hinv
  · rw [hrej.chain] at hx
    rw [hrej.forks.kept x (h.next_not_active hc hprev hx)] at hg
    exact h.active x g hx hg
  · rw [hrej.chain]
    by_cases hV : x = c.id ∨ Descends s.chain.blocks c.id x
    · rw [hrej.forks.marked x hV, Option.map_eq_some_iff] at hg
      obtain ⟨k, hk, rfl⟩ := hg
      exact h.included x k hk hincluded
    · rw [hrej.forks.kept x hV] at hg
      exact h.included x g hg hincluded

theorem noteFuture (h : Steady s) (hb : s.chain.blocks.lookup b.id = some b) (e : Error) :
    Steady (s.noteFuture b e) := by
  unfold ForkState.noteFuture
  split_ifs
  · exact ⟨h.toGrown.remember hb, h.chained, h.invalid, h.active, h.included⟩
  · exact h

/-- **A switch to a block that can be linked** takes blocks off and applies blocks that can be
linked, until one is rejected. -/
theorem wp_switch {I : ForkState → Prop} (P : BlockId → ForkState → Prop)
    {E : Error → ForkState → Prop} {x : BlockId} {fuel : Nat}
    (hsteady : ∀ s, I s → Steady s) (hmoves : MovesHead extend)
    (hstart : ∀ history, IsHistory s x history → P (history.getLastD nullId) s)
    (hrest : ∀ target s, P target s → I s)
    (hpopped : ∀ target s f c undo header, P target s → s.chain.headId ≠ target →
      s.forks.lookup s.chain.headId = some f → s.chain.blocks.lookup s.chain.headId = some c →
      c.toSignedBlockHeader = s.chain.head → s.chain.undoStates.lookup s.chain.headId = some undo →
      Steady (s.popped f undo header) → P target (s.popped f undo header))
    (hstuck : ∀ target s f, P target s → s.chain.headId ≠ target →
      s.forks.lookup s.chain.headId = some f → s.chain.undoStates.lookup s.chain.headId = none →
      Steady (s.stuck f) → E (.assertion "") (s.stuck f))
    (hextended : ∀ s c f chain, I s → s.chain.blocks.lookup c.id = some c →
      c.previous = s.chain.headId → c.id = x ∨ Descends s.chain.blocks c.id x →
      s.forks.lookup c.id = some f → f.canLink = true → extend s.chain c = .ok chain →
      Steady (s.extended chain c f) → I (s.extended chain c f))
    (hrejected : ∀ s s' c f e, I s → s.chain.blocks.lookup c.id = some c →
      c.previous = s.chain.headId → c.id = x ∨ Descends s.chain.blocks c.id x →
      s.forks.lookup c.id = some f → f.canLink = true → e ≠ .endlessLoop →
      extend s.chain c = .error e → Rejected s s' c e → Steady s' → E e s')
    (hs : I s) (hx : ∃ c, s.chain.blocks.lookup x = some c) {f : ForkData}
    (hf : s.forks.lookup x = some f) (hlink : f.canLink = true) :
    Wp False (switchToFork extend fuel x) s fun r s' =>
      (match r with
        | .ok _ => I s' ∧ s'.chain.headId = x
        | .error e => E e s') ∧ s'.chain.blocks = s.chain.blocks := by
  -- the block to switch to can be linked until one on the way is rejected
  refine (wp_switch_of_steps
    (fun target s => P target s ∧ ∃ f, s.forks.lookup x = some f ∧ f.canLink = true)
    (I := fun s => I s ∧ ∃ f, s.forks.lookup x = some f ∧ f.canLink = true) (E := E)
    (fun s h => (hsteady s h.1).toGrown) hmoves (fun y g e hy hg hlinked _ => ?_)
    (fun history hhistory => ⟨hstart history hhistory, f, hf, hlink⟩)
    (fun target s h => ⟨hrest target s h.1, h.2⟩)
    (fun target s f c undo header h hne hf hc hhead hundo hgrown => ?_)
    (fun target s f h hne hf hundo hgrown => hstuck target s f h.1 hne hf hundo
      ((hsteady s (hrest target s h.1)).stuck hf hgrown))
    (fun s c f chain h hc hprev hcx hf hext hgrown => ?_)
    (fun s s' c e h hc hprev hcx hloop hext hrej hgrown => ?_) ⟨hs, f, hf, hlink⟩ hx).mono
    fun r s' hr => ?_
  · obtain ⟨k, hk, hklink⟩ := (hsteady s hs).canLink_before hy hf hlink
    obtain rfl := Option.some.inj (hg.symm.trans hk)
    rw [ForkData.linked_of_canLink hklink] at hlinked
    cases hlinked
  · refine ⟨hpopped target s f c undo header h.1 hne hf hc hhead hundo
      ((hsteady s (hrest target s h.1)).popped hf hc hhead hgrown), ?_⟩
    obtain ⟨g, hg, hglink⟩ := h.2
    obtain ⟨g', hg', heq, -⟩ := lookup_marks
      (fun y => (marks_insert hf (g := { f with isIncluded := false }) rfl rfl y).symm) hg
    exact ⟨g', hg', heq ▸ hglink⟩
  · obtain ⟨hI, g, hg, hglink⟩ := h
    have h := hsteady s hI
    obtain ⟨k, hk, hklink⟩ := h.valid_before hcx hg hglink
    obtain rfl := Option.some.inj (hf.symm.trans hk)
    refine ⟨hextended s c f chain hI hc hprev hcx hf hklink hext
      (h.extended hmoves hc hprev hf hklink hext hgrown), ?_⟩
    by_cases hxc : x = c.id
    · refine ⟨_, by rw [hxc]; exact Finmap.lookup_insert _, ?_⟩
      rw [ForkData.canLink, Bool.and_eq_true] at hklink ⊢
      exact ⟨hklink.1, rfl⟩
    · refine ⟨g, ?_, hglink⟩
      change (s.forks.insert c.id _).lookup x = some g
      rw [Table.lookup_insert_eq, if_neg hxc]
      exact hg
  · obtain ⟨hI, g, hg, hglink⟩ := h
    have h := hsteady s hI
    obtain ⟨k, hk, hklink⟩ := h.valid_before hcx hg hglink
    exact hrejected s s' c k e hI hc hprev hcx hk hklink hloop hext hrej
      (h.rejected hc hprev hrej hgrown)
  · cases r with
    | ok u => exact ⟨⟨hr.1.1.1, hr.1.2⟩, hr.2⟩
    | error e => exact hr

theorem genesis (tables : ChainTables) : Steady (.genesis tables) := by
  have hlookup : ∀ x f, (ForkState.genesis tables).forks.lookup x = some f →
      x = nullId ∧ f.invalid = false := by
    intro x f hf
    obtain ⟨hx, rfl⟩ := Table.eq_of_lookup_singleton hf
    exact ⟨hx, rfl⟩
  refine ⟨.genesis tables, fun y d g hd => (by cases hd), fun x f hf hinvalid => ?_,
    fun x f _ hf => (hlookup x f hf).2, fun x f hf _ => .inl (hlookup x f hf).1⟩
  rw [(hlookup x f hf).2] at hinvalid
  cases hinvalid

end Steady

end

end BitShares
