import BitShares.Chain.Proof.Apply
import BitShares.Fork.Proof.Switch
import BitShares.Fork.Run

/-!
# What every push keeps

Whatever blocks arrive, the records stay a tree, only rooted blocks are linked, and the head is a
rooted block (`Grown`).  The steps of a push are those in which a block is placed, taken off, applied
or rejected; an invariant that each of them keeps is kept by `push_block`, whether it returns or
throws (`wp_pushBlock`, with `wp_switch_of_steps` for the switches).  No push forgets a block, and
one that returns knows the block (`Grown.pushBlock`).
-/

namespace BitShares

open Program ForkM

variable [Crypto]

/-! ## A new block among the others -/

section

variable {blocks : Table BlockId FullBlock} {b : FullBlock}

omit [Crypto] in
theorem Path.insert {id x : BlockId} {l : List FullBlock} (hnew : blocks.lookup id = none)
    (h : Path blocks x l) : Path (blocks.insert id b) x l := by
  induction h with
  | genesis => exact .genesis
  | block hb _ ih =>
    refine .block ?_ ih
    rw [Table.lookup_insert_eq, if_neg]
    · exact hb
    · rintro rfl
      rw [hnew] at hb
      cases hb

omit [Crypto] in
theorem Rooted.insert {id x : BlockId} (hnew : blocks.lookup id = none) (h : Rooted blocks x) :
    Rooted (blocks.insert id b) x := by
  obtain ⟨l, hl⟩ := h
  exact ⟨l, hl.insert hnew⟩

omit [Crypto] in
theorem Path.of_insert {id x : BlockId} {l : List FullBlock}
    (h : Path (blocks.insert id b) x l) (hx : x ≠ id)
    (hdesc : ¬ Descends (blocks.insert id b) id x) : Path blocks x l := by
  induction h with
  | genesis => exact .genesis
  | @block x c l hc _ ih =>
    have hc' := hc
    rw [Table.lookup_insert_eq, if_neg hx] at hc'
    refine .block hc' (ih (fun hprev => ?_) fun hprev => ?_)
    · exact hdesc (.child hc hprev)
    · exact hdesc (.next hc hprev)

omit [Crypto] in
theorem rooted_insert_iff {id x : BlockId} (hnew : blocks.lookup id = none) (hx : x ≠ id)
    (hdesc : ¬ Descends (blocks.insert id b) id x) :
    Rooted (blocks.insert id b) x ↔ Rooted blocks x := by
  refine ⟨fun ⟨l, hl⟩ => ⟨l, hl.of_insert hx hdesc⟩, fun h => h.insert hnew⟩

omit [Crypto] in
theorem rooted_new_iff {id : BlockId} (hnull : NullFree blocks) (hid : id ≠ nullId)
    (hnew : blocks.lookup id = none) :
    Rooted (blocks.insert id b) id ↔ Rooted blocks b.previous := by
  have hlookup : (blocks.insert id b).lookup id = some b := Finmap.lookup_insert _
  have hnull' : NullFree (blocks.insert id b) := by
    rw [NullFree, Table.lookup_insert_eq, if_neg (Ne.symm hid)]
    exact hnull
  constructor
  · intro h
    have hprev := h.previous hnull' hlookup
    have hself := h.not_descends_self hnull'
    refine (rooted_insert_iff hnew (fun heq => hself (.child hlookup heq)) fun hdesc => ?_).1 hprev
    exact hself (.next hlookup hdesc)
  · rintro ⟨l, hl⟩
    exact ⟨_, .block hlookup (hl.insert hnew)⟩

omit [Crypto] in
theorem Descends.insert {id x y : BlockId} (hnew : blocks.lookup id = none)
    (h : Descends blocks x y) : Descends (blocks.insert id b) x y := by
  have hlookup : ∀ y c, blocks.lookup y = some c → (blocks.insert id b).lookup y = some c := by
    intro y c hc
    rw [Table.lookup_insert_eq, if_neg]
    · exact hc
    · rintro rfl
      rw [hnew] at hc
      cases hc
  induction h with
  | child hc hx => exact .child (hlookup _ _ hc) hx
  | next hc _ ih => exact .next (hlookup _ _ hc) ih

omit [Crypto] in
theorem Descends.of_insert {id x y : BlockId} (hnull : NullFree blocks) (hid : id ≠ nullId)
    (hnew : blocks.lookup id = none) (h : Descends (blocks.insert id b) x y)
    (hy : Rooted blocks y) : Descends blocks x y := by
  have hlookup : ∀ y c, Rooted blocks y → (blocks.insert id b).lookup y = some c →
      blocks.lookup y = some c := by
    intro y c hy hc
    rw [Table.lookup_insert_eq, if_neg] at hc
    · exact hc
    · rintro rfl
      rcases hy.known with hnull | ⟨c', hc'⟩
      · exact hid hnull
      · rw [hnew] at hc'
        cases hc'
  induction h with
  | child hc hx => exact .child (hlookup _ _ hy hc) hx
  | next hc _ ih => exact .next (hlookup _ _ hy hc) (ih (hy.previous hnull (hlookup _ _ hy hc)))

end

/-! ## The base invariant -/

/-- The records are a tree over the blocks, only rooted blocks are linked, the head is one, and the
blocks kept for a restart are there. -/
structure Grown (s : ForkState) : Prop where
  tree : Tree s
  rooted : ∀ x f, s.forks.lookup x = some f → f.isLinked = true → Rooted s.chain.blocks x
  seated : Seated s
  head : Rooted s.chain.blocks s.chain.headId
  future : ∀ x ∈ s.futureBlocks, ∃ b, s.chain.blocks.lookup x = some b

structure MovesHead (extend : ChainState → FullBlock → Except Error ChainState) : Prop where
  blocks : ∀ c b c', extend c b = .ok c' → c'.blocks = c.blocks
  headId : ∀ c b c', extend c b = .ok c' → c'.headId = b.id
  head : ∀ c b c', extend c b = .ok c' → c'.head = b.toSignedBlockHeader

omit [Crypto] in
theorem SameTree.insert {s s' : ForkState} {x : BlockId} {f g : ForkData}
    (hf : s.forks.lookup x = some f) (hforks : s'.forks = s.forks.insert x g)
    (hblocks : s'.chain.blocks = s.chain.blocks) (hnumbers : s'.numbers = s.numbers)
    (hnext : g.nextBlocks = f.nextBlocks) (hlinked : g.isLinked = f.isLinked)
    (hknown : g.isKnown = f.isKnown) : SameTree s s' where
  blocks := hblocks
  numbers := hnumbers
  nodes y := by
    rw [hforks, Table.lookup_insert_eq]
    split_ifs with heq
    · rw [heq, hf, Option.map_some, Option.map_some, hnext, hknown]
    · rfl
  linked y := by
    rw [hforks, Table.lookup_insert_eq]
    split_ifs with heq
    · rw [heq, hf, Option.map_some, Option.map_some, hlinked]
    · rfl

namespace Grown

variable {s s' : ForkState}

theorem of_same (h : Grown s) (hsame : SameTree s s') (hseated : Seated s')
    (hhead : Rooted s.chain.blocks s'.chain.headId) (hfuture : s'.futureBlocks = s.futureBlocks) :
    Grown s' where
  tree := h.tree.of_same hsame.toSameNodes
  rooted x f hf hlinked := by
    obtain ⟨g, hg, heq⟩ := hsame.lookup_linked hf
    rw [hsame.blocks]
    exact h.rooted x g hg (heq ▸ hlinked)
  seated := hseated
  head := hsame.blocks ▸ hhead
  future := by
    rw [hsame.blocks, hfuture]
    exact h.future

theorem of_forks (h : Grown s) (hsame : SameTree s s') (hchain : s'.chain = s.chain)
    (hfuture : s'.futureBlocks = s.futureBlocks) : Grown s' := by
  refine h.of_same hsame ?_ ?_ hfuture
  · unfold Seated
    rw [hchain]
    exact h.seated
  · rw [hchain]
    exact h.head

theorem remember (h : Grown s) {b : FullBlock} (hb : s.chain.blocks.lookup b.id = some b) :
    Grown { s with futureBlocks := List.insert b.id s.futureBlocks } where
  tree := h.tree.of_same ⟨rfl, rfl, fun _ => rfl⟩
  rooted := h.rooted
  seated := h.seated
  head := h.head
  future x hx := by
    rcases List.mem_insert_iff.1 hx with rfl | hx
    · exact ⟨b, hb⟩
    · exact h.future x hx

theorem rooted_active (h : Grown s) {x : BlockId}
    (hx : x = s.chain.headId ∨ Descends s.chain.blocks x s.chain.headId) :
    Rooted s.chain.blocks x := by
  rcases hx with rfl | hdesc
  · exact h.head
  · exact h.head.of_descends h.tree.null hdesc

theorem headRecord (h : Grown s) : ∃ f, s.forks.lookup s.chain.headId = some f := by
  rcases h.head.known with hnull | ⟨b, hb⟩
  · rw [hnull]
    exact h.tree.genesis
  · exact (h.tree.entered _ b hb).1

theorem headBlock (h : Grown s) (hnum : s.chain.head.blockNum ≠ 0) :
    ∃ b header, s.chain.blocks.lookup s.chain.headId = some b ∧
      b.toSignedBlockHeader = s.chain.head ∧
      (b.previous = nullId ∧ header = .null ∨ b.previous ≠ nullId ∧
        ∃ c, s.chain.blocks.lookup b.previous = some c ∧ c.toSignedBlockHeader = header) := by
  rcases h.seated with ⟨-, hhead⟩ | ⟨b, hb, hhead⟩
  · rw [hhead] at hnum
    exact absurd rfl hnum
  · by_cases hnull : b.previous = nullId
    · exact ⟨b, .null, hb, hhead, .inl ⟨hnull, rfl⟩⟩
    · obtain ⟨c, hc⟩ := (h.head.previous h.tree.null hb).known.resolve_left hnull
      exact ⟨b, c.toSignedBlockHeader, hb, hhead, .inr ⟨hnull, c, hc, rfl⟩⟩

theorem headNum (h : Grown s) {c : FullBlock}
    (hc : s.chain.blocks.lookup s.chain.headId = some c) :
    s.chain.head.blockNum = c.blockNum := by
  rcases h.seated with ⟨hnull, -⟩ | ⟨d, hd, hhead⟩
  · rw [hnull, h.tree.null] at hc
    cases hc
  · obtain rfl := Option.some.inj (hc.symm.trans hd)
    rw [← hhead]

end Grown

/-! ## The steps -/

/-- The state after `b` is applied. -/
def ForkState.extended (s : ForkState) (c : ChainState) (b : FullBlock) (f : ForkData) :
    ForkState :=
  { s with
    chain := c
    forks := s.forks.insert b.id { f with isIncluded := true, isValid := some true } }

/-- The state after `b` is rejected: it is marked invalid, and so is what comes after it. -/
structure Rejected (s s' : ForkState) (b : FullBlock) (e : Error) : Prop where
  forks : MarkedBy (ForkData.invalidate (some e))
    (fun y => y = b.id ∨ Descends s.chain.blocks b.id y) s.forks s'.forks
  rest : s' = { s with forks := s'.forks, rejectedAsFuture := s'.rejectedAsFuture }
  future : s'.rejectedAsFuture =
    if e = .timeInFuture then List.insert b.id s.rejectedAsFuture else s.rejectedAsFuture

section

variable {total : Prop} {s s' : ForkState} {b : FullBlock} {fuel : Nat}
  {extend : ChainState → FullBlock → Except Error ChainState}

/-- **`extend_chain`** applies the block or rejects it. -/
theorem Tree.wp_extendChain (h : Tree s) {f : ForkData} (hf : s.forks.lookup b.id = some f)
    (hfuel : total → Shallow s.chain.blocks fuel)
    (hends : total → extend s.chain b ≠ .error .endlessLoop)
    {Q : Except Error Unit → ForkState → Prop}
    (hok : ∀ c, extend s.chain b = .ok c → Q (.ok ()) (s.extended c b f))
    (herror : ∀ e s', e ≠ .endlessLoop → extend s.chain b = .error e → Rejected s s' b e →
      Q (.error e) s') :
    Wp total (ForkM.extendChain extend fuel b) s Q := by
  rw [ForkM.extendChain, wp_bind, wp_get]
  dsimp only
  cases hext : extend s.chain b with
  | ok c =>
    simp only [markIncluded, wp_bind, wp_update, wp_fetchFork, wp_storeFork, hf, Option.some.injEq,
      forall_eq', reduceCtorEq, false_implies, and_true]
    exact hok c hext
  | error e =>
    by_cases he : e = .endlessLoop
    · simp only [he, if_true]
      exact fun ht => hends ht (he ▸ hext)
    simp only [he, if_false, wp_bind]
    refine (h.wp_markInvalid hf hfuel e).mono fun r s₁ hr => ?_
    obtain ⟨rfl, hs₁, hmarked⟩ := hr
    simp only [wp_update, wp_fail]
    refine herror e _ he hext ⟨?_, ?_, ?_⟩
    · split_ifs <;> exact hmarked
    · rw [hs₁]
      split_ifs <;> rfl
    · rw [hs₁]
      split_ifs <;> rfl

theorem sameTree_popped {f : ForkData} (hf : s.forks.lookup s.chain.headId = some f) (undo : Batch)
    (header : SignedBlockHeader) : SameTree s (s.popped f undo header) :=
  .insert hf rfl rfl rfl rfl rfl rfl

omit [Crypto] in
theorem sameTree_stuck {f : ForkData} (hf : s.forks.lookup s.chain.headId = some f) :
    SameTree s (s.stuck f) :=
  .insert hf rfl rfl rfl rfl rfl rfl

theorem sameTree_extended {f : ForkData} {c : ChainState} (hf : s.forks.lookup b.id = some f)
    (hblocks : c.blocks = s.chain.blocks) : SameTree s (s.extended c b f) :=
  .insert hf rfl hblocks rfl rfl rfl rfl

theorem Rejected.sameTree {e : Error} (h : Rejected s s' b e) : SameTree s s' := by
  have hforks : SameTree s { s with forks := s'.forks } :=
    MarkedBy.sameTree h.forks rfl (fun _ => ⟨rfl, rfl⟩) fun _ => rfl
  rw [h.rest]
  exact { hforks with }

theorem Rejected.chain {e : Error} (h : Rejected s s' b e) : s'.chain = s.chain := by
  rw [h.rest]

theorem Grown.popped (h : Grown s) {f : ForkData} (hf : s.forks.lookup s.chain.headId = some f)
    {c : FullBlock} {undo : Batch} {header : SignedBlockHeader}
    (hc : s.chain.blocks.lookup s.chain.headId = some c) (hhead : c.toSignedBlockHeader = s.chain.head)
    (hheader : c.previous = nullId ∧ header = .null ∨ c.previous ≠ nullId ∧
      ∃ d, s.chain.blocks.lookup c.previous = some d ∧ d.toSignedBlockHeader = header) :
    Grown (s.popped f undo header) := by
  have hprev : s.chain.head.previous = c.previous := by rw [← hhead]
  refine h.of_same (sameTree_popped hf undo header) ?_ ?_ rfl
  · rcases hheader with ⟨hnull, rfl⟩ | ⟨-, d, hd, rfl⟩
    · exact .inl ⟨hprev.trans hnull, rfl⟩
    · refine .inr ⟨d, ?_, rfl⟩
      change s.chain.blocks.lookup s.chain.head.previous = some d
      rw [hprev]
      exact hd
  · change Rooted s.chain.blocks s.chain.head.previous
    rw [hprev]
    exact h.head.previous h.tree.null hc

theorem Grown.stuck (h : Grown s) {f : ForkData} (hf : s.forks.lookup s.chain.headId = some f) :
    Grown (s.stuck f) :=
  h.of_same (sameTree_stuck hf) h.seated h.head rfl

theorem Grown.extended (h : Grown s) (hmoves : MovesHead extend)
    (hb : s.chain.blocks.lookup b.id = some b) (hprev : b.previous = s.chain.headId) {f : ForkData}
    (hf : s.forks.lookup b.id = some f) {c : ChainState} (hext : extend s.chain b = .ok c) :
    Grown (s.extended c b f) := by
  have hblocks := hmoves.blocks _ _ _ hext
  have hid := hmoves.headId _ _ _ hext
  refine h.of_same (sameTree_extended hf hblocks) ?_ ?_ rfl
  · refine .inr ⟨b, ?_, (hmoves.head _ _ _ hext).symm⟩
    change c.blocks.lookup c.headId = some b
    rw [hblocks, hid]
    exact hb
  · change Rooted s.chain.blocks c.headId
    obtain ⟨l, hl⟩ := h.head
    rw [hid]
    exact ⟨_, .block hb (hprev ▸ hl)⟩

theorem Grown.rooted_next (h : Grown s) (hb : s.chain.blocks.lookup b.id = some b)
    (hprev : b.previous = s.chain.headId) : Rooted s.chain.blocks b.id := by
  obtain ⟨l, hl⟩ := h.head
  exact ⟨_, .block hb (hprev ▸ hl)⟩

theorem Grown.next_not_active (h : Grown s) (hb : s.chain.blocks.lookup b.id = some b)
    (hprev : b.previous = s.chain.headId) {x : BlockId}
    (hx : x = s.chain.headId ∨ Descends s.chain.blocks x s.chain.headId) :
    ¬ (x = b.id ∨ Descends s.chain.blocks b.id x) := by
  intro hV
  have hxb : Descends s.chain.blocks x b.id := by
    rcases hx with rfl | hx
    · exact .child hb hprev
    · exact .next hb (hprev ▸ hx)
  refine (h.rooted_next hb hprev).not_descends_self h.tree.null ?_
  rcases hV with rfl | hV
  · exact hxb
  · exact hV.trans hxb

theorem Rejected.invalid {e : Error} (h : Rejected s s' b e) {x : BlockId} {g : ForkData}
    (hg : s.forks.lookup x = some g) (hinvalid : g.invalid = true) :
    ∃ f, s'.forks.lookup x = some f ∧ f.invalid = true := by
  by_cases hV : x = b.id ∨ Descends s.chain.blocks b.id x
  · exact ⟨_, by rw [h.forks.marked x hV, hg, Option.map_some], rfl⟩
  · exact ⟨g, by rw [h.forks.kept x hV, hg], hinvalid⟩

theorem Grown.rejected (h : Grown s) {e : Error} (hrej : Rejected s s' b e) : Grown s' :=
  h.of_forks hrej.sameTree hrej.chain (by rw [hrej.rest])

/-- A switch that begins where `I` holds, if taking the head off towards a target keeps `P` and
applying a block keeps `I`;  `E` is what the ways to fail leave. -/
theorem wp_switch_of_steps {I : ForkState → Prop} (P : BlockId → ForkState → Prop)
    {E : Error → ForkState → Prop} {x : BlockId}
    (hgrown : ∀ s, I s → Grown s) (hmoves : MovesHead extend)
    (hunlinked : ∀ y f e, Descends s.chain.blocks y x → s.forks.lookup y = some f →
      f.isLinked = false → e ≠ .timeInFuture → E e s)
    (hstart : ∀ history, IsHistory s x history → P (history.getLastD nullId) s)
    (hrest : ∀ target s, P target s → I s)
    (hpopped : ∀ target s f c undo header, P target s → s.chain.headId ≠ target →
      s.forks.lookup s.chain.headId = some f → s.chain.blocks.lookup s.chain.headId = some c →
      c.toSignedBlockHeader = s.chain.head → s.chain.undoStates.lookup s.chain.headId = some undo →
      Grown (s.popped f undo header) → P target (s.popped f undo header))
    (hstuck : ∀ target s f, P target s → s.chain.headId ≠ target →
      s.forks.lookup s.chain.headId = some f → s.chain.undoStates.lookup s.chain.headId = none →
      Grown (s.stuck f) → E (.assertion "") (s.stuck f))
    (hextended : ∀ s b f c, I s → s.chain.blocks.lookup b.id = some b →
      b.previous = s.chain.headId → b.id = x ∨ Descends s.chain.blocks b.id x →
      s.forks.lookup b.id = some f → extend s.chain b = .ok c → Grown (s.extended c b f) →
      I (s.extended c b f))
    (hrejected : ∀ s s' b e, I s → s.chain.blocks.lookup b.id = some b →
      b.previous = s.chain.headId → b.id = x ∨ Descends s.chain.blocks b.id x →
      e ≠ .endlessLoop → extend s.chain b = .error e → Rejected s s' b e → Grown s' → E e s')
    (hs : I s) (hx : ∃ c, s.chain.blocks.lookup x = some c) :
    Wp False (switchToFork extend fuel x) s fun r s' =>
      (match r with
        | .ok _ => I s' ∧ s'.chain.headId = x
        | .error e => E e s') ∧ s'.chain.blocks = s.chain.blocks := by
  obtain ⟨c, hc⟩ := hx
  refine (wp_switchToFork (B := s.chain.blocks)
    (I := fun s' => I s' ∧ s'.chain.blocks = s.chain.blocks)
    (P := fun target _ s' => P target s' ∧ s'.chain.blocks = s.chain.blocks)
    (E := fun e s' => E e s' ∧ s'.chain.blocks = s.chain.blocks) (hgrown s hs).tree
    (hgrown s hs).rooted (fun _ h => h.2) ⟨hs, rfl⟩ hc (fun h => h.elim)
    (fun y f e hy _ hf hlinked he => ⟨hunlinked y f e hy hf hlinked he, rfl⟩)
    (fun history hhistory => ⟨0, fun h => h.elim, hstart history hhistory, rfl⟩)
    (fun target n s₁ h₁ hne => ?_) (fun target _ s₁ h _ => ⟨hrest target s₁ h.1, h.2⟩)
    (fun s₁ b h₁ hb hprev hbx => ?_)).mono fun r s' hr => ?_
  · -- taking the head off
    refine ⟨0, fun h => h.elim, ?_⟩
    have hg := hgrown s₁ (hrest target s₁ h₁.1)
    by_cases hnum : s₁.chain.head.blockNum = 0
    · rw [wp_popBlock_zero hnum]
      exact h₁
    · obtain ⟨f, hf⟩ := hg.headRecord
      obtain ⟨c, header, hc, hhead, hheader⟩ := hg.headBlock hnum
      have hheader' := hheader
      rw [show c.previous = s₁.chain.head.previous by rw [← hhead]] at hheader'
      rw [wp_popBlock hf hheader' hnum]
      cases hundo : s₁.chain.undoStates.lookup s₁.chain.headId with
      | some undo =>
        exact ⟨hpopped target s₁ f c undo header h₁.1 hne hf hc hhead hundo
          (hg.popped hf hc hhead hheader), h₁.2⟩
      | none => exact ⟨hstuck target s₁ f h₁.1 hne hf hundo (hg.stuck hf), h₁.2⟩
  · -- applying a block
    have hg := hgrown s₁ h₁.1
    rw [← h₁.2] at hb hbx
    obtain ⟨⟨f, hf⟩, -⟩ := hg.tree.entered _ _ hb
    refine hg.tree.wp_extendChain hf (fun h => h.elim) (fun h => h.elim) (fun c hext => ?_)
      fun e s₂ hloop hext hrej => ?_
    · refine ⟨⟨?_, (hmoves.blocks _ _ _ hext).trans h₁.2⟩, hmoves.headId _ _ _ hext⟩
      exact hextended s₁ b f c h₁.1 hb hprev hbx hf hext (hg.extended hmoves hb hprev hf hext)
    · exact ⟨hrejected s₁ s₂ b e h₁.1 hb hprev hbx hloop hext hrej (hg.rejected hrej),
        by rw [hrej.chain]; exact h₁.2⟩
  · cases r with
    | ok u => exact ⟨⟨hr.1.1, hr.2⟩, hr.1.2⟩
    | error e => exact hr

/-! ## Placing a block -/

theorem ForkState.lookup_placed (s : ForkState) (b : FullBlock) (current : ForkData)
    (x : BlockId) : ((s.storeBlock b).forks.insert b.id current).lookup x =
      if x = b.id then some current else if x = b.previous then some (s.previousRecord b)
        else s.forks.lookup x := by
  rw [Table.lookup_insert_eq, s.forks_storeBlock]

theorem ForkState.previousRecord_flags {p : ForkData} (hp : s.forks.lookup b.previous = some p) :
    s.previousRecord b = { p with nextBlocks := List.insert b.id p.nextBlocks } := by
  rw [previousRecord, hp, Option.getD_some]

theorem ForkState.previousRecord_linked (h : (s.previousRecord b).isLinked = true) :
    ∃ p, s.forks.lookup b.previous = some p ∧ p.isLinked = true := by
  rw [previousRecord] at h
  cases hp : s.forks.lookup b.previous with
  | none =>
    rw [hp] at h
    cases h
  | some p =>
    rw [hp] at h
    exact ⟨p, rfl, h⟩

theorem ForkState.lookup_placed_old {current g : ForkData} {x : BlockId} (hx : x ≠ b.id)
    (hg : ((s.storeBlock b).forks.insert b.id current).lookup x = some g) :
    (∃ f, s.forks.lookup x = some f ∧ g.isLinked = f.isLinked ∧ g.isValid = f.isValid ∧
        g.isIncluded = f.isIncluded) ∨
      s.forks.lookup x = none ∧ g.isLinked = false ∧ g.isValid = none ∧ g.isIncluded = false := by
  rw [s.lookup_placed, if_neg hx] at hg
  split_ifs at hg with hprev
  · obtain rfl := Option.some.inj hg
    rw [hprev]
    cases hp : s.forks.lookup b.previous with
    | none => exact .inr ⟨rfl, by rw [previousRecord, hp]; exact ⟨rfl, rfl, rfl⟩⟩
    | some p =>
      rw [previousRecord_flags hp]
      exact .inl ⟨p, rfl, rfl, rfl, rfl⟩
  · exact .inl ⟨g, hg, rfl, rfl, rfl⟩

theorem Placed.lookup_other {longest : BlockId × ForkData} (h : Placed s b longest s')
    {x : BlockId} (hx : x ≠ b.id) (hafter : ¬ Descends (s.storeBlock b).chain.blocks b.id x) :
    s'.forks.lookup x =
      if x = b.previous then some (s.previousRecord b) else s.forks.lookup x := by
  have hplaced : ∀ current, ((s.storeBlock b).forks.insert b.id current).lookup x =
      if x = b.previous then some (s.previousRecord b) else s.forks.lookup x := by
    intro current
    rw [s.lookup_placed, if_neg hx]
  cases h with
  | invalid _ _ _ _ hmarked => rw [hmarked.kept x hafter, hplaced]
  | linked _ _ _ _ hmarked _ => rw [hmarked.kept x hafter, hplaced]
  | unlinked _ _ _ hforks => rw [hforks, hplaced]
  | fresh _ _ hforks => rw [hforks, hplaced]

theorem not_rooted_new (hnew : s.chain.blocks.lookup b.id = none)
    (hid : b.id ≠ nullId) : ¬ Rooted s.chain.blocks b.id := by
  intro hrooted
  rcases hrooted.known with hnull | ⟨c, hc⟩
  · exact hid hnull
  · rw [hnew] at hc
    cases hc

theorem Grown.not_after (h : Grown s) (hnew : s.chain.blocks.lookup b.id = none)
    (hid : b.id ≠ nullId) {x : BlockId} (hx : Rooted s.chain.blocks x) :
    x ≠ b.id ∧ ¬ Descends (s.storeBlock b).chain.blocks b.id x := by
  refine ⟨fun heq => not_rooted_new hnew hid (heq ▸ hx), fun hdesc => ?_⟩
  have hold := Descends.of_insert h.tree.null hid hnew hdesc hx
  exact not_rooted_new hnew hid (hx.of_descends h.tree.null hold)

theorem Grown.rooted_previous (h : Grown s) (hlinked : (s.previousRecord b).isLinked = true) :
    Rooted s.chain.blocks b.previous := by
  obtain ⟨p, hp, hlinked⟩ := ForkState.previousRecord_linked hlinked
  exact h.rooted _ p hp hlinked

theorem Grown.rooted_new (h : Grown s) (hnew : s.chain.blocks.lookup b.id = none)
    (hid : b.id ≠ nullId) (hlinked : (s.previousRecord b).isLinked = true) :
    Rooted (s.storeBlock b).chain.blocks b.id :=
  (rooted_new_iff h.tree.null hid hnew).2 (h.rooted_previous hlinked)

theorem Grown.rooted_old (h : Grown s) (hnew : s.chain.blocks.lookup b.id = none)
    {current g : ForkData} {x : BlockId} (hx : x ≠ b.id)
    (hg : ((s.storeBlock b).forks.insert b.id current).lookup x = some g)
    (hlinked : g.isLinked = true) : Rooted (s.storeBlock b).chain.blocks x := by
  rcases ForkState.lookup_placed_old hx hg with ⟨f, hf, heq, -⟩ | ⟨-, heq, -⟩
  · exact (h.rooted x f hf (heq ▸ hlinked)).insert hnew
  · rw [heq] at hlinked
    cases hlinked

theorem Grown.placed (h : Grown s) (hnew : s.chain.blocks.lookup b.id = none) (hid : b.id ≠ nullId)
    {longest : BlockId × ForkData} (hs' : s' = { s.storeBlock b with forks := s'.forks })
    (htree : Tree s') (hplaced : Placed s b longest s') : Grown s' := by
  have hblocks : s'.chain.blocks = (s.storeBlock b).chain.blocks := by rw [hs']
  have hhead : s'.chain.headId = s.chain.headId := by rw [hs']; rfl
  refine ⟨htree, fun x f hf hlinked => ?_, ?_, ?_, ?_⟩
  · rw [hblocks]
    -- the new record, and the other ones
    have hmain : ∀ current g, ((s.storeBlock b).forks.insert b.id current).lookup x = some g →
        (current.isLinked = true → (s.previousRecord b).isLinked = true) → g.isLinked = true →
        Rooted (s.storeBlock b).chain.blocks x := by
      intro current g hg hcurrent hlinked
      by_cases hx : x = b.id
      · rw [s.lookup_placed, if_pos hx] at hg
        obtain rfl := Option.some.inj hg
        rw [hx]
        exact h.rooted_new hnew hid (hcurrent hlinked)
      · exact h.rooted_old hnew hx hg hlinked
    cases hplaced with
    | @invalid placeholder current _ hplaceholder hprev _ hcurrent hmarked =>
      obtain ⟨g, hg, -, hfg⟩ := hmarked.nextBlocks (isMark_invalidate _) hf
      refine hmain current g hg (fun _ => hprev) ?_
      have hlink := congrArg ForkData.isLinked hfg
      exact hlink ▸ hlinked
    | @linked placeholder current _ l hplaceholder hprev _ hcurrent hmarked _ =>
      by_cases hdesc : Descends (s.storeBlock b).chain.blocks b.id x
      · exact (h.rooted_new hnew hid hprev).descends hdesc
      · rw [hmarked.kept x hdesc] at hf
        exact hmain current f hf (fun _ => hprev) hlinked
    | @unlinked placeholder current _ hplaceholder hprev hcurrent hforks =>
      rw [hforks] at hf
      refine hmain current f hf (fun hlink => ?_) hlinked
      -- the placeholder is not linked
      rw [hcurrent] at hlink
      rw [s.forks_storeBlock] at hplaceholder
      split_ifs at hplaceholder
      · rw [Option.some.inj hplaceholder]
        exact hlink
      · exact absurd (h.rooted _ _ hplaceholder hlink) (not_rooted_new hnew hid)
    | @fresh current _ hplaceholder hcurrent hforks =>
      rw [hforks] at hf
      exact hmain current f hf (fun hlink => by rw [hcurrent] at hlink; exact hlink) hlinked
  · rw [Seated, hs']
    refine h.seated.imp_right fun ⟨c, hc, hheader⟩ => ⟨c, ?_, hheader⟩
    change (s.storeBlock b).chain.blocks.lookup s.chain.headId = some c
    rw [s.lookup_storeBlock, if_neg (h.not_after hnew hid h.head).1]
    exact hc
  · rw [hblocks, hhead]
    exact h.head.insert hnew
  · rw [hblocks, hs']
    intro x hx
    rw [s.lookup_storeBlock]
    split_ifs
    · exact ⟨b, rfl⟩
    · exact h.future x hx

/-! ## Pushing a block -/

/-- **Placing a new block** puts it in the tree, and then scans down from the block handed back if
that is above the head. -/
theorem wp_placeBlock_cases {Q : ForkState → Prop} {headNum : BlockNum} (hs : Grown s)
    (hid : b.id ≠ nullId) (hb : s.chain.blocks.lookup b.id = none)
    (hstay : ∀ longest s', s' = { s.storeBlock b with forks := s'.forks } → Grown s' →
      Placed s b longest s' → (∀ d, longest.2.canLink = true →
        s'.chain.blocks.lookup longest.1 = some d → d.blockNum ≤ headNum) → Q s')
    (hscan : ∀ longest s' d, s' = { s.storeBlock b with forks := s'.forks } → Grown s' →
      Placed s b longest s' → longest.2.canLink = true →
      s'.chain.blocks.lookup longest.1 = some d → headNum < d.blockNum →
      Wp False (tryNumbers extend fuel b d.blockNum) s' fun _ s'' => Q s'') :
    Wp False (placeBlock extend fuel b headNum) s fun _ s' => Q s' := by
  simp only [placeBlock, wp_bind]
  refine (hs.tree.wp_storeAndIndex hb hid fun h => h.elim).mono fun r s₁ hr => ?_
  obtain ⟨hs₁, htree, longest, rfl, hplaced⟩ := hr
  have hgrown := hs.placed hb hid hs₁ htree hplaced
  have hlongest : Wp False (tryLongest extend fuel b headNum longest) s₁ fun _ s' => Q s' := by
    unfold tryLongest
    split_ifs with hlink
    · simp only [wp_bind, wp_fetchBlock]
      refine ⟨fun d hd => ?_, fun hnone => hstay longest s₁ hs₁ hgrown hplaced fun d _ hd => ?_⟩
      · split_ifs with hnum
        · simp only [wp_bind]
          refine (hscan longest s₁ d hs₁ hgrown hplaced hlink hd hnum).mono fun r s₂ hr => ?_
          cases r with
          | ok _ => exact hr
          | error _ => exact hr
        · refine hstay longest s₁ hs₁ hgrown hplaced fun d' _ hd' => ?_
          obtain rfl := Option.some.inj (hd.symm.trans hd')
          exact Nat.not_lt.1 hnum
      · rw [hnone] at hd
        cases hd
    · exact hstay longest s₁ hs₁ hgrown hplaced fun d hlink' => absurd hlink' hlink
  refine hlongest.mono fun r s₂ hr => ?_
  cases r with
  | ok u =>
    dsimp only
    rw [wp_fetchFork]
    exact ⟨fun _ _ => hr, fun _ => hr⟩
  | error e => exact hr

/-- **`push_block`** throws at once, knows the block, or places it. -/
theorem wp_pushBlock_cases {Q : Except Error ForkData → ForkState → Prop} (hs : Grown s)
    (hold : Q (.error .blockOlderThanUndoHistory) s)
    (hknown : ∀ f, s.forks.lookup b.id = some f → f.isKnown = true → Q (.ok f) s)
    (hnew : s.chain.blocks.lookup b.id = none →
      Wp False (placeBlock extend fuel b s.chain.head.blockNum) s Q) :
    Wp False (pushBlock extend fuel b) s Q := by
  rw [pushBlock, wp_bind, wp_get]
  dsimp only
  split_ifs
  · exact hold
  · cases hf : s.forks.lookup b.id with
    | none => exact hnew (hs.tree.not_stored fun f hf' => by rw [hf] at hf'; cases hf')
    | some f =>
      dsimp only
      split_ifs with hk
      · exact hknown f hf hk
      · refine hnew (hs.tree.not_stored fun f' hf' => ?_)
        obtain rfl := Option.some.inj (hf.symm.trans hf')
        exact Bool.eq_false_iff.2 hk

section

variable {I : ForkState → Prop} (hgrown : ∀ s, I s → Grown s) (hid : b.id ≠ nullId)
  (hplace : ∀ longest s', s.chain.blocks.lookup b.id = none →
    s' = { s.storeBlock b with forks := s'.forks } → Grown s' → Placed s b longest s' → I s')
  (hswitch : ∀ s x f, I s → s.chain.blocks.lookup b.id = some b →
    (∃ c, s.chain.blocks.lookup x = some c) → s.forks.lookup x = some f → f.canLink = true →
    Wp False (switchToFork extend fuel x) s fun r s' =>
      (match r with
        | .ok _ => I s'
        | .error e => I (s'.noteFuture b e)) ∧ s'.chain.blocks = s.chain.blocks)

include hgrown hid hplace hswitch

/-- **Placing a new block** leads from the state with the block in the tree, where `I` holds, to one
where `I` holds, whether it returns or throws, if every switch keeps `I`. -/
theorem wp_placeBlock {headNum : BlockNum} (hs : Grown s)
    (hb : s.chain.blocks.lookup b.id = none) :
    Wp False (placeBlock extend fuel b headNum) s fun _ s' => I s' := by
  refine wp_placeBlock_cases hs hid hb
    (fun longest s₁ hs₁ hgrown₁ hplaced _ => hplace longest s₁ hb hs₁ hgrown₁ hplaced)
    fun longest s d hs₁ hgrown₁ hplaced _ _ _ => ?_
  have hI := hplace longest s hb hs₁ hgrown₁ hplaced
  have hstored : s.chain.blocks.lookup b.id = some b := by
    rw [hs₁]
    exact Finmap.lookup_insert _
  -- the blocks to try are there, and stay there
  refine (wp_tryNumbers
    (J := fun _ l s' => I s' ∧ s'.chain.blocks = s.chain.blocks ∧
      ∀ x ∈ l, ∃ c, s.chain.blocks.lookup x = some c)
    (K := fun _ s' => I s' ∧ s'.chain.blocks = s.chain.blocks)
    (D := fun s' => I s') (fun n s₁ h₁ => ⟨h₁.1, h₁.2, fun x hx => ?_⟩)
    (fun _ _ h => ⟨h.1, h.2.1⟩) (fun _ x l s₁ h₁ => ?_)
    (fun _ x l s₁ f h₁ _ _ => ⟨h₁.1, h₁.2.1, fun y hy => h₁.2.2 y (List.mem_cons_of_mem _ hy)⟩)
    (fun _ x l s₁ f h₁ hf hlink => ?_) _ s ⟨hI, rfl⟩).mono fun r s' hr => ?_
  · obtain ⟨c, hc, -⟩ := ((hgrown s₁ h₁.1).tree.numbers (n + 1) x).1 hx
    exact ⟨c, h₁.2 ▸ hc⟩
  · obtain ⟨c, hc⟩ := h₁.2.2 x List.mem_cons_self
    exact ((hgrown s₁ h₁.1).tree.entered x c (h₁.2.1 ▸ hc)).1
  · have hx := h₁.2.2 x List.mem_cons_self
    rw [← h₁.2.1] at hx
    refine (hswitch s₁ x f h₁.1 (h₁.2.1 ▸ hstored) hx hf hlink).mono fun r s₂ hr => ?_
    cases r with
    | ok u => exact hr.1
    | error e =>
      refine ⟨hr.1, ?_, fun y hy => h₁.2.2 y (List.mem_cons_of_mem _ hy)⟩
      rw [ForkState.chain_noteFuture]
      exact hr.2.trans h₁.2.1
  · obtain ⟨done, rfl, hr⟩ := hr
    cases done with
    | true => exact hr
    | false => exact hr.1

/-- **`push_block`** keeps `I`, whether it returns or throws, if placing a block and every switch
do. -/
theorem wp_pushBlock {Q : ForkState → Prop} (hdone : ∀ s, I s → Q s) (hs : Grown s) (hkept : Q s) :
    Wp False (pushBlock extend fuel b) s fun _ s' => Q s' :=
  wp_pushBlock_cases hs hkept (fun _ _ _ => hkept) fun hb =>
    (wp_placeBlock hgrown hid hplace hswitch hs hb).mono fun _ s' h => hdone s' h

end

theorem Grown.genesis (tables : ChainTables) : Grown (.genesis tables) where
  tree :=
    { own := fun x c h => (by cases h)
      null := rfl
      known := by
        intro x f hf
        obtain ⟨rfl, rfl⟩ := Table.eq_of_lookup_singleton hf
        simp
      entered := fun x c h => (by cases h)
      genesis := ⟨_, Finmap.lookup_singleton_eq⟩
      next := by
        intro x f hf y
        obtain ⟨rfl, rfl⟩ := Table.eq_of_lookup_singleton hf
        simp [ForkState.genesis]
      numbers := by simp [ForkState.genesis] }
  rooted x f hf _ := by
    rw [(Table.eq_of_lookup_singleton hf).1]
    exact rooted_nullId
  seated := .inl ⟨rfl, rfl⟩
  head := rooted_nullId
  future x hx := by cases hx

theorem extendChainOn_eq_ok {s s' : ChainState} {cfg : ClientConfig} {b : FullBlock}
    (h : s.extendChainOn cfg b = .ok s') :
    ∃ signee p, s.verifyHeader cfg.toNodeConfig b signee = .ok () ∧
      s.commitBlock cfg.toNodeConfig b p = .ok s' := by
  unfold ChainState.extendChainOn at h
  split at h
  · simp only [ChainState.extendChain, ChainState.evaluateBlock, ChainState.evaluateBlockBy,
      bind_eq_ok] at h
    obtain ⟨p, ⟨signee, -, ⟨⟩, hheader, -⟩, hcommit⟩ := h
    exact ⟨signee, p, hheader, hcommit⟩
  · simp only [ChainState.extendChainWith, ChainState.evaluateBlockWith,
      ChainState.evaluateBlockBy, bind_eq_ok] at h
    obtain ⟨p, ⟨q, ⟨signee, -, ⟨⟩, hheader, -⟩, -⟩, hcommit⟩ := h
    exact ⟨signee, p, hheader, hcommit⟩

theorem movesHead_extendChainOn (cfg : ClientConfig) : MovesHead fun c b => c.extendChainOn cfg b := by
  have hmove : ∀ (c : ChainState) (b : FullBlock) (c' : ChainState), c.extendChainOn cfg b = .ok c' →
      c'.blocks = c.blocks ∧ c'.headId = b.id ∧ c'.head = b.toSignedBlockHeader := by
    intro c b c' h
    obtain ⟨_, p, -, hcommit⟩ := extendChainOn_eq_ok h
    obtain ⟨m, -, hc'⟩ := commitBlock_eq_ok hcommit
    rw [hc']
    exact ⟨rfl, rfl, rfl⟩
  exact ⟨fun c b c' h => (hmove c b c' h).1, fun c b c' h => (hmove c b c' h).2.1,
    fun c b c' h => (hmove c b c' h).2.2⟩

/-- **One event** keeps an invariant if placing a block, remembering one, taking the head off,
applying a block, rejecting one and a restart keep it. -/
theorem ForkState.step_keeps {I : ForkState → Prop} (hgrown : ∀ s, I s → Grown s) {e : ForkEvent}
    (hstep : s.step fuel e = some s') (hid : ∀ cfg b, e = .push cfg b → b.id ≠ nullId)
    (hplace : ∀ cfg b longest s', e = .push cfg b → s.chain.blocks.lookup b.id = none →
      s' = { s.storeBlock b with forks := s'.forks } → Grown s' → Placed s b longest s' → I s')
    (hfuture : ∀ s b, I s → s.chain.blocks.lookup b.id = some b →
      Grown { s with futureBlocks := List.insert b.id s.futureBlocks } →
      I { s with futureBlocks := List.insert b.id s.futureBlocks })
    (hpopped : ∀ s f c undo header, I s → s.forks.lookup s.chain.headId = some f →
      s.chain.blocks.lookup s.chain.headId = some c → c.toSignedBlockHeader = s.chain.head →
      Grown (s.popped f undo header) → I (s.popped f undo header))
    (hstuck : ∀ s f, I s → s.forks.lookup s.chain.headId = some f → Grown (s.stuck f) →
      I (s.stuck f))
    (hextended : ∀ cfg s b f c, I s → s.chain.blocks.lookup b.id = some b →
      b.previous = s.chain.headId → s.forks.lookup b.id = some f →
      s.chain.extendChainOn cfg b = .ok c → Grown (s.extended c b f) → I (s.extended c b f))
    (hrejected : ∀ s s' b e, I s → s.chain.blocks.lookup b.id = some b →
      b.previous = s.chain.headId → Rejected s s' b e → Grown s' → I s')
    (hrestart : ∀ s', e = .restart → s' = { s with forks := s'.forks } →
      MarkedBy ForkData.uncheck s.Revisited s.forks s'.forks → Grown s' → I s')
    (hs : I s) : I s' := by
  have h := hgrown s hs
  cases e with
  | push cfg b =>
    have hid := hid cfg b rfl
    obtain ⟨⟨r, s''⟩, hrun, rfl⟩ := Option.map_eq_some_iff.1 hstep
    refine (wp_pushBlock hgrown hid
      (fun longest s' hnew hs' hgrown' hplaced => hplace cfg b longest s' rfl hnew hs' hgrown' hplaced)
      (fun s x f hs hb hx _ _ => ?_) (fun _ h => h) h hs).of_eq hrun
    refine (wp_switch_of_steps (fun _ => I) (E := fun _ => I) hgrown (movesHead_extendChainOn cfg)
      (fun _ _ _ _ _ _ _ => hs) (fun _ _ => hs) (fun _ _ h => h)
      (fun _ s f c undo header hs _ hf hc hhead _ => hpopped s f c undo header hs hf hc hhead)
      (fun _ s f hs _ hf _ => hstuck s f hs hf)
      (fun s b f c hs hb hprev _ => hextended cfg s b f c hs hb hprev)
      (fun s s' b e hs hb hprev _ _ _ => hrejected s s' b e hs hb hprev) hs hx).mono fun r s' hr => ?_
    cases r with
    | ok u => exact ⟨hr.1.1, hr.2⟩
    | error e =>
      refine ⟨?_, hr.2⟩
      dsimp only
      rw [noteFuture]
      split_ifs
      · exact hfuture s' b hr.1 (hr.2 ▸ hb) ((hgrown s' hr.1).remember (hr.2 ▸ hb))
      · exact hr.1
  | restart =>
    obtain ⟨⟨r, s''⟩, hrun, rfl⟩ := Option.map_eq_some_iff.1 hstep
    have hwp : Wp False (clearInvalidationOfFutureBlocks fuel) s _ :=
      h.tree.wp_restart h.future fun h => h.elim
    obtain ⟨-, hs', hmarked⟩ := hwp.of_eq hrun
    refine hrestart s'' rfl hs' hmarked (h.of_forks ?_ (by rw [hs']) (by rw [hs']))
    exact hmarked.sameTree hs' (fun _ => ⟨rfl, rfl⟩) fun _ => rfl

/-- A block is **known** if it is stored under its own hash. -/
def ForkState.Knows (s : ForkState) (id : BlockId) : Prop :=
  ∃ c, s.chain.blocks.lookup id = some c ∧ c.id = id

/-- **`push_block`** forgets no block, and knows the block if it returns. -/
theorem Grown.pushBlock (hs : Grown s) (hid : b.id ≠ nullId) {cfg : ClientConfig}
    {r : Except Error ForkData}
    (hrun : ForkM.pushBlock (fun c b => c.extendChainOn cfg b) fuel b s = some (r, s')) :
    Grown s' ∧ (∀ id, s.Knows id → s'.Knows id) ∧ (∀ f, r = .ok f → s'.Knows b.id) := by
  have hwp : Wp False (ForkM.pushBlock (fun c b => c.extendChainOn cfg b) fuel b) s fun r s' =>
      Grown s' ∧ (∀ id, s.Knows id → s'.Knows id) ∧ (∀ f, r = .ok f → s'.Knows b.id) := by
    refine wp_pushBlock_cases hs ⟨hs, fun _ h => h, fun _ h => (by cases h)⟩
      (fun f hf hknown => ⟨hs, fun _ h => h, fun _ _ => ?_⟩) fun hb => ?_
    · obtain heq | ⟨c, hc⟩ := (hs.tree.known _ f hf).1 hknown
      · exact absurd heq hid
      · exact ⟨c, hc, hs.tree.own _ _ hc⟩
    · refine (wp_placeBlock
        (I := fun t => Grown t ∧ t.chain.blocks = (s.storeBlock b).chain.blocks) (fun _ h => h.1) hid
        (fun _ t _ ht hgrown _ => ⟨hgrown, by rw [ht]⟩)
        (fun t x _ ht hb hx _ _ => ?_) hs hb).mono fun _ t ht => ⟨ht.1, fun id h => ?_, fun _ _ => ?_⟩
      · refine (wp_switch_of_steps (fun _ => Grown) (E := fun _ => Grown) (fun _ h => h)
          (movesHead_extendChainOn cfg) (fun _ _ _ _ _ _ _ => ht.1) (fun _ _ => ht.1) (fun _ _ h => h)
          (fun _ _ _ _ _ _ _ _ _ _ _ _ h => h) (fun _ _ _ _ _ _ _ h => h)
          (fun _ _ _ _ _ _ _ _ _ _ h => h) (fun _ _ _ _ _ _ _ _ _ _ _ h => h) ht.1 hx).mono
          fun r t' hr => ⟨?_, hr.2⟩
        cases r with
        | ok u => exact ⟨hr.1.1, hr.2.trans ht.2⟩
        | error e =>
          dsimp only
          rw [ForkState.chain_noteFuture]
          refine ⟨?_, hr.2.trans ht.2⟩
          rw [ForkState.noteFuture]
          split_ifs
          · exact Grown.remember hr.1 (hr.2 ▸ hb)
          · exact hr.1
      · obtain ⟨c, hc, hcid⟩ := h
        refine ⟨c, ?_, hcid⟩
        rw [ht.2, s.lookup_storeBlock]
        split_ifs with heq
        · rw [heq, hb] at hc
          cases hc
        · exact hc
      · refine ⟨b, ?_, rfl⟩
        rw [ht.2, s.lookup_storeBlock, if_pos rfl]
  exact hwp.of_eq hrun

end

end BitShares
