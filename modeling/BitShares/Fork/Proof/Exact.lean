import BitShares.Fork.Proof.Sequence
import BitShares.Fork.Proof.Steady

/-!
# The active chain in the fork database

`push_block` only compares the number that a block gives itself with the undo window.  How many
blocks are taken off depends on where the block's ancestry meets the active chain, and `pop_block`
clears the flags of the head before it looks for the undo state.

* `consistent_of_run`: histories in which the numbers grow along the tree and no two connected blocks
  part deeper than the undo window.
* `index_restarted`: a second block 1 on the first one takes its place in the index.

The invariant is `Exact`: `Mirrored` says how the records, the index and the undo states follow the
blocks from the head down.
-/

namespace BitShares

open Program ForkM

section

variable [Crypto]

/-! ## The statement -/

/-- No block was taken off without its undo state, the included blocks are the active chain, and the
index by number holds its blocks. -/
structure Consistent (s : ForkState) : Prop where
  sighted : s.poppedBlind = false
  included : ∀ x f, s.forks.lookup x = some f →
    (f.isIncluded = true ↔ x = s.chain.headId ∨ Descends s.chain.blocks x s.chain.headId)
  index : ∀ n x, s.chain.blockNumToId.lookup n = some x ↔
    ∃ c, s.chain.blocks.lookup x = some c ∧ c.blockNum = n ∧
      (x = s.chain.headId ∨ Descends s.chain.blocks x s.chain.headId)

/-- Of two connected blocks the first is before the second, or they part at most
`MAX_UNDO_HISTORY` blocks below the second.  A look at the active chain alone is not enough: where
the former head is rejected when it is applied again, the search goes on to any lower number. -/
def NoDeepFork (blocks : Table BlockId FullBlock) : Prop :=
  ∀ x y l l', Path blocks x l → Path blocks y l' →
    l <:+ l' ∨ ∃ m, m <:+ l ∧ m <:+ l' ∧ l'.length ≤ m.length + MAX_UNDO_HISTORY

/-- The pushed block keeps the numbers growing and the forks within the undo window, and the node
keeps undo states. -/
def ForkEvent.KeepsWindow (s : ForkState) : ForkEvent → Prop
  | .push cfg b => s.Ascends b ∧ NoDeepFork (s.chain.blocks.insert b.id b) ∧ cfg.minUndoBlock ≤ 1
  | .restart => False

/-! ## Paths -/

variable {blocks : Table BlockId FullBlock}

omit [Crypto] in
theorem Path.mem {x : BlockId} {l : List FullBlock} (h : Path blocks x l) {c : FullBlock}
    (hc : c ∈ l) : ∃ y, blocks.lookup y = some c ∧ (y = x ∨ Descends blocks y x) := by
  induction h with
  | genesis => cases hc
  | @block x b l hb _ ih =>
    rcases List.mem_cons.1 hc with rfl | hc
    · exact ⟨x, hb, .inl rfl⟩
    · obtain ⟨y, hy, hreach⟩ := ih hc
      refine ⟨y, hy, .inr ?_⟩
      rcases hreach with rfl | hreach
      · exact .child hb rfl
      · exact .next hb hreach

omit [Crypto] in
theorem Path.suffix {x : BlockId} {l l' : List FullBlock} (h : Path blocks x l) (hl : l' <:+ l) :
    ∃ y, Path blocks y l' := by
  induction h with
  | genesis =>
    rw [List.suffix_nil.1 hl]
    exact ⟨_, .genesis⟩
  | block hb hrest ih =>
    rcases List.suffix_cons_iff.1 hl with rfl | hl
    · exact ⟨_, .block hb hrest⟩
    · exact ih hl

omit [Crypto] in
theorem Path.suffix_of_reaches (hnull : NullFree blocks) {x y : BlockId} {l l' : List FullBlock}
    (hl : Path blocks x l) (hl' : Path blocks y l') (h : x = y ∨ Descends blocks x y) : l <:+ l' := by
  rcases h with rfl | h
  · rw [hl.unique hnull hl']
  · obtain ⟨m, hm, hsuffix, -⟩ := Path.of_descends hnull h hl'
    rw [hl.unique hnull hm]
    exact hsuffix

omit [Crypto] in
theorem Climbs.path {x y : BlockId} {ids : List BlockId} {l : List FullBlock}
    (h : Climbs blocks x ids y) (hl : Path blocks x l) :
    ∃ L, Path blocks y (L ++ l) ∧ ∀ c ∈ L, ∃ z ∈ ids, blocks.lookup z = some c := by
  induction h generalizing l with
  | nil x => exact ⟨[], hl, fun c hc => (by cases hc)⟩
  | @cons x y z b ids hb hx _ ih =>
    obtain ⟨L, hL, hmem⟩ := ih (.block hb (hx ▸ hl))
    refine ⟨L ++ [b], by simpa using hL, fun c hc => ?_⟩
    rcases List.mem_append.1 hc with hc | hc
    · obtain ⟨w, hw, hwc⟩ := hmem c hc
      exact ⟨w, List.mem_cons_of_mem _ hw, hwc⟩
    · obtain rfl := List.mem_singleton.1 hc
      exact ⟨y, List.mem_cons_self, hb⟩

omit [Crypto] in
theorem Sequenced.of_suffix {l l' : List FullBlock} (h : Sequenced l) (hl : l' <:+ l) :
    Sequenced l' := by
  induction l with
  | nil => rwa [List.suffix_nil.1 hl]
  | cons b l ih =>
    rcases List.suffix_cons_iff.1 hl with rfl | hl
    · exact h
    · exact ih h.tail hl

omit [Crypto] in
theorem Sequenced.num {c : FullBlock} {l : List FullBlock} (h : Sequenced (c :: l)) :
    c.blockNum = l.length + 1 := by
  induction l generalizing c with
  | nil => exact h.1
  | cons d l ih => rw [h.1, ih h.2.2.2, List.length_cons]

omit [Crypto] in
theorem Sequenced.lt_of_mem {c d : FullBlock} {l : List FullBlock} (h : Sequenced (c :: l))
    (hd : d ∈ l) : d.blockNum < c.blockNum := by
  obtain ⟨l₁, l₂, rfl⟩ := List.append_of_mem hd
  have hsuffix : Sequenced (d :: l₂) := h.tail.of_suffix (List.suffix_append l₁ _)
  rw [h.num, hsuffix.num, List.length_append, List.length_cons]
  exact Nat.lt_succ_of_le (Nat.le_add_left _ _)

omit [Crypto] in
theorem Ascending.length_le (h : Ascending blocks) {x : BlockId} {l : List FullBlock}
    (hl : Path blocks x l) {n : BlockNum}
    (hn : ∀ c, blocks.lookup x = some c → c.blockNum ≤ n) : l.length ≤ n := by
  induction hl generalizing n with
  | genesis => exact Nat.zero_le n
  | @block x b l hb hrest ih =>
    have hpositive := (h x b hb).1
    have hbelow : l.length ≤ b.blockNum - 1 :=
      ih fun c hc => Nat.le_sub_one_of_lt ((h x b hb).2 c hc)
    rw [List.length_cons]
    exact (Nat.add_le_of_le_sub hpositive hbelow).trans (hn b hb)

omit [Crypto] in
theorem noDeepFork_of_low (h : Ascending blocks)
    (hlow : ∀ x c, blocks.lookup x = some c → c.blockNum ≤ MAX_UNDO_HISTORY) :
    NoDeepFork blocks := by
  intro x y l l' _ hl'
  refine .inr ⟨[], List.nil_suffix, List.nil_suffix, ?_⟩
  rw [List.length_nil, Nat.zero_add]
  exact h.length_le hl' (hlow y)

/-! ## What an extension writes -/

/-- What extending the chain does to the head, the index and the undo states. -/
structure Records (extend : ChainState → FullBlock → Except Error ChainState) : Prop
    extends MovesHead extend where
  header : ∀ c b c', extend c b = .ok c' → b.timestamp % BLOCK_INTERVAL_SEC = 0 ∧
    (1 < b.blockNum → b.blockNum = c.head.blockNum + 1 ∧ c.head.timestamp < b.timestamp)
  index : ∀ c b c', extend c b = .ok c' →
    c'.blockNumToId = c.blockNumToId.insert b.blockNum b.id
  saved : ∀ c b c', extend c b = .ok c' → 0 < b.blockNum →
    ∃ u, c'.undoStates.lookup b.id = some u
  kept : ∀ c b c', extend c b = .ok c' → ∀ x, x ≠ b.id →
    c'.undoStates.lookup x = c.undoStates.lookup x ∨
      MAX_UNDO_HISTORY < b.blockNum ∧
        c.blockNumToId.lookup (b.blockNum - MAX_UNDO_HISTORY) = some x

theorem saveUndoState_saved {s s' : ChainState} {cfg : NodeConfig} {b : FullBlock}
    {p : PendingState} (h : s.saveUndoState cfg b p = .ok s') (hcfg : cfg.minUndoBlock ≤ 1)
    (hnum : 0 < b.blockNum) : ∃ u, s'.undoStates.lookup b.id = some u := by
  unfold ChainState.saveUndoState at h
  rw [if_neg (Nat.not_lt.2 (hcfg.trans hnum))] at h
  simp only [bind_eq_ok, pure_eq_ok] at h
  obtain ⟨states, -, rfl⟩ := h
  exact ⟨_, Finmap.lookup_insert _⟩

theorem saveUndoState_kept {s s' : ChainState} {cfg : NodeConfig} {b : FullBlock}
    {p : PendingState} (h : s.saveUndoState cfg b p = .ok s') {x : BlockId} (hx : x ≠ b.id) :
    s'.undoStates.lookup x = s.undoStates.lookup x ∨ MAX_UNDO_HISTORY < b.blockNum ∧
      s.blockNumToId.lookup (b.blockNum - MAX_UNDO_HISTORY) = some x := by
  unfold ChainState.saveUndoState at h
  split_ifs at h
  · cases h
    exact .inl rfl
  · simp only [bind_eq_ok, pure_eq_ok] at h
    obtain ⟨states, hstates, rfl⟩ := h
    rw [Table.lookup_insert_eq, if_neg hx]
    unfold ChainState.dropOldUndo at hstates
    split_ifs at hstates with hwindow
    · simp only [bind_eq_ok, expect_eq_ok, pure_eq_ok] at hstates
      obtain ⟨old, hold, rfl⟩ := hstates
      by_cases hxo : x = old
      · exact .inr ⟨hwindow, hxo ▸ hold⟩
      · exact .inl (by rw [Table.lookup_erase_eq, if_neg hxo])
    · cases hstates
      exact .inl rfl

theorem records_extendChainOn {cfg : ClientConfig} (hcfg : cfg.minUndoBlock ≤ 1) :
    Records fun c b => c.extendChainOn cfg b where
  toMovesHead := movesHead_extendChainOn cfg
  header _ _ _ h := extendChainOn_header h
  index c b c' h := by
    obtain ⟨_, p, -, hcommit⟩ := extendChainOn_eq_ok h
    obtain ⟨m, -, hc'⟩ := commitBlock_eq_ok hcommit
    rw [hc']
  saved c b c' h hnum := by
    obtain ⟨_, p, -, hcommit⟩ := extendChainOn_eq_ok h
    obtain ⟨m, hm, hc'⟩ := commitBlock_eq_ok hcommit
    have hsaved := saveUndoState_saved hm hcfg hnum
    rw [hc']
    exact hsaved
  kept c b c' h x hx := by
    obtain ⟨_, p, -, hcommit⟩ := extendChainOn_eq_ok h
    obtain ⟨m, hm, hc'⟩ := commitBlock_eq_ok hcommit
    have hkept := saveUndoState_kept hm hx
    rw [hc']
    exact hkept

/-! ## The records of the active chain -/

/-- The records, the index and the undo states follow `l`, the blocks from the head down.  An undo
state is only gone if some chain through its block has grown past the window. -/
structure Mirrored (s : ForkState) (l : List FullBlock) : Prop where
  path : Path s.chain.blocks s.chain.headId l
  sequenced : Sequenced l
  flags : ∀ c ∈ l, ∃ f, s.forks.lookup c.id = some f ∧ f.isIncluded = true ∧ f.canLink = true
  index : ∀ n x, s.chain.blockNumToId.lookup n = some x ↔ ∃ c ∈ l, c.id = x ∧ c.blockNum = n
  undo : ∀ c l', c :: l' <:+ l → (∃ u, s.chain.undoStates.lookup c.id = some u) ∨
    ∃ y ly, Path s.chain.blocks y ly ∧ c :: l' <:+ ly ∧
      l'.length + 1 + MAX_UNDO_HISTORY ≤ ly.length

/-- The numbers grow, no fork is too deep, no block was taken off without its undo state, and the
records follow the active chain. -/
structure Exact (s : ForkState) : Prop extends Steady s where
  ascending : Ascending s.chain.blocks
  shallow : NoDeepFork s.chain.blocks
  sighted : s.poppedBlind = false
  origin : ∃ f, s.forks.lookup nullId = some f ∧ f.isIncluded = true
  mirrored : ∃ l, Mirrored s l

namespace Exact

variable {s s' : ForkState} {b c : FullBlock}
  {extend : ChainState → FullBlock → Except Error ChainState}

theorem lookup_of_mem (h : Exact s) {l : List FullBlock} (hl : Mirrored s l) {d : FullBlock}
    (hd : d ∈ l) : s.chain.blocks.lookup d.id = some d ∧
      (d.id = s.chain.headId ∨ Descends s.chain.blocks d.id s.chain.headId) := by
  obtain ⟨y, hy, hreach⟩ := hl.path.mem hd
  obtain rfl := h.tree.own y d hy
  exact ⟨hy, hreach⟩

theorem mem_of_active (h : Exact s) {l : List FullBlock} (hl : Mirrored s l) {x : BlockId}
    (hx : s.chain.blocks.lookup x = some c)
    (hactive : x = s.chain.headId ∨ Descends s.chain.blocks x s.chain.headId) : c ∈ l := by
  have hrooted : Rooted s.chain.blocks x := h.rooted_active hactive
  obtain ⟨lx, hlx⟩ := hrooted
  have hsuffix := hlx.suffix_of_reaches h.tree.null hl.path hactive
  obtain ⟨l', rfl, -⟩ := hlx.of_block h.tree.null hx
  exact hsuffix.subset List.mem_cons_self

theorem consistent (h : Exact s) : Consistent s := by
  obtain ⟨l, hl⟩ := h.mirrored
  refine ⟨h.sighted, fun x f hf => ⟨h.included x f hf, fun hactive => ?_⟩, fun n x => ?_⟩
  · have hrooted : Rooted s.chain.blocks x := h.rooted_active hactive
    rcases hrooted.known with rfl | ⟨c, hc⟩
    · obtain ⟨g, hg, hincluded⟩ := h.origin
      obtain rfl := Option.some.inj (hf.symm.trans hg)
      exact hincluded
    · obtain ⟨g, hg, hincluded, -⟩ := hl.flags c (h.mem_of_active hl hc hactive)
      rw [h.tree.own x c hc, hf] at hg
      obtain rfl := Option.some.inj hg
      exact hincluded
  · rw [hl.index]
    constructor
    · rintro ⟨c, hc, rfl, rfl⟩
      obtain ⟨hlookup, hactive⟩ := h.lookup_of_mem hl hc
      exact ⟨c, hlookup, rfl, hactive⟩
    · rintro ⟨c, hc, rfl, hactive⟩
      exact ⟨c, h.mem_of_active hl hc hactive, h.tree.own x c hc, rfl⟩

/-! ## The steps -/

omit [Crypto] in
theorem origin_insert {forks : Table BlockId ForkData} {y : BlockId} {g : ForkData}
    (h : ∃ f, forks.lookup nullId = some f ∧ f.isIncluded = true)
    (hy : y ≠ nullId ∨ g.isIncluded = true) :
    ∃ f, (forks.insert y g).lookup nullId = some f ∧ f.isIncluded = true := by
  rw [Table.lookup_insert_eq]
  split_ifs with heq
  · exact ⟨g, rfl, hy.resolve_left fun hne => hne heq.symm⟩
  · exact h

theorem head_mirrored (h : Exact s) (hc : s.chain.blocks.lookup s.chain.headId = some c)
    {l : List FullBlock} (hl : Mirrored s l) : ∃ l', l = c :: l' := by
  obtain ⟨l', hl', -⟩ := hl.path.of_block h.tree.null hc
  exact ⟨l', hl'⟩

theorem mirrored_popped (h : Exact s) {f : ForkData} {undo : Batch} {header : SignedBlockHeader}
    {l : List FullBlock} (hc : s.chain.blocks.lookup s.chain.headId = some c)
    (hhead : c.toSignedBlockHeader = s.chain.head) (hl : Mirrored s (c :: l)) :
    Mirrored (s.popped f undo header) l := by
  have hid : c.id = s.chain.headId := h.tree.own _ c hc
  refine ⟨?_, hl.sequenced.tail, fun d hd => ?_, fun n x => ?_, fun d l' hd => ?_⟩
  · obtain ⟨l', hl', hpath⟩ := hl.path.of_block h.tree.null hc
    obtain ⟨-, rfl⟩ := List.cons.inj hl'
    change Path s.chain.blocks s.chain.head.previous l
    rw [← hhead]
    exact hpath
  · change ∃ f', (s.forks.insert s.chain.headId _).lookup d.id = some f' ∧ _
    rw [Table.lookup_insert_eq, if_neg]
    · exact hl.flags d (List.mem_cons_of_mem _ hd)
    · intro heq
      have hlookup := (h.lookup_of_mem hl (List.mem_cons_of_mem _ hd)).1
      rw [heq, hc] at hlookup
      obtain rfl := Option.some.inj hlookup
      exact lt_irrefl _ (hl.sequenced.lt_of_mem hd)
  · change (s.chain.blockNumToId.erase s.chain.head.blockNum).lookup n = some x ↔ _
    rw [Table.lookup_erase_eq, ← hhead]
    split_ifs with hn
    · refine ⟨fun h => (by cases h), ?_⟩
      rintro ⟨d, hd, -, hnum⟩
      exact absurd (hnum.trans hn) (hl.sequenced.lt_of_mem hd).ne
    · rw [hl.index]
      constructor
      · rintro ⟨d, hd, hdx, hnum⟩
        refine ⟨d, (List.mem_cons.1 hd).resolve_left ?_, hdx, hnum⟩
        rintro rfl
        exact hn hnum.symm
      · rintro ⟨d, hd, hrest⟩
        exact ⟨d, List.mem_cons_of_mem _ hd, hrest⟩
  · exact hl.undo d l' (hd.trans (List.suffix_cons _ _))

theorem popped (h : Exact s) {f : ForkData} {undo : Batch} {header : SignedBlockHeader}
    (hc : s.chain.blocks.lookup s.chain.headId = some c)
    (hhead : c.toSignedBlockHeader = s.chain.head) (hsteady : Steady (s.popped f undo header)) :
    Exact (s.popped f undo header) := by
  obtain ⟨l, hl⟩ := h.mirrored
  obtain ⟨l, rfl⟩ := h.head_mirrored hc hl
  refine ⟨hsteady, h.ascending, h.shallow, h.sighted, origin_insert h.origin (.inl ?_), l,
    h.mirrored_popped hc hhead hl⟩
  intro hnull
  rw [hnull, h.tree.null] at hc
  cases hc

theorem sequenced_next (h : Exact s) (hrec : Records extend)
    (hc : s.chain.blocks.lookup c.id = some c) (hprev : c.previous = s.chain.headId)
    {l : List FullBlock} (hl : Mirrored s l) {chain : ChainState}
    (hext : extend s.chain c = .ok chain) : Sequenced (c :: l) := by
  obtain ⟨htime, hlater⟩ := hrec.header _ _ _ hext
  have hpositive := (h.ascending _ c hc).1
  rcases h.seated with ⟨hnull, hhead⟩ | ⟨d, hd, hhead⟩
  · have hpath := hl.path
    rw [hnull] at hpath
    rw [hpath.of_nullId h.tree.null]
    refine ⟨le_antisymm (Nat.not_lt.1 fun hlt => ?_) hpositive, htime⟩
    have hnum := (hlater hlt).1
    rw [hhead] at hnum
    exact absurd hnum hlt.ne'
  · obtain ⟨l', rfl⟩ := h.head_mirrored hd hl
    have hlt : 1 < c.blockNum :=
      Nat.lt_of_le_of_lt (h.ascending _ d hd).1 ((h.ascending _ c hc).2 d (hprev ▸ hd))
    obtain ⟨hnum, hpast⟩ := hlater hlt
    rw [← hhead] at hnum hpast
    exact ⟨hnum, htime, hpast, hl.sequenced⟩

theorem mirrored_extended (h : Exact s) (hrec : Records extend)
    (hc : s.chain.blocks.lookup c.id = some c) (hprev : c.previous = s.chain.headId) {f : ForkData}
    (hlink : f.canLink = true) {chain : ChainState} (hext : extend s.chain c = .ok chain)
    {l : List FullBlock} (hl : Mirrored s l) : Mirrored (s.extended chain c f) (c :: l) := by
  have hseq := h.sequenced_next hrec hc hprev hl hext
  have hblocks : chain.blocks = s.chain.blocks := hrec.blocks _ _ _ hext
  have hother : ∀ d ∈ l, d.id ≠ c.id := by
    intro d hd heq
    have hlookup := (h.lookup_of_mem hl hd).1
    rw [heq, hc] at hlookup
    obtain rfl := Option.some.inj hlookup
    exact lt_irrefl _ (hseq.lt_of_mem hd)
  refine ⟨?_, hseq, fun d hd => ?_, fun n x => ?_, fun d l' hd => ?_⟩
  · change Path chain.blocks chain.headId (c :: l)
    rw [hblocks, hrec.headId _ _ _ hext]
    exact .block hc (hprev ▸ hl.path)
  · change ∃ f', (s.forks.insert c.id _).lookup d.id = some f' ∧ _
    rw [Table.lookup_insert_eq]
    rcases List.mem_cons.1 hd with rfl | hd
    · rw [if_pos rfl]
      exact ⟨_, rfl, rfl, by
        simp [ForkData.canLink, ForkData.invalid, ForkData.linked_of_canLink hlink]⟩
    · rw [if_neg (hother d hd)]
      exact hl.flags d hd
  · change chain.blockNumToId.lookup n = some x ↔ _
    rw [hrec.index _ _ _ hext, Table.lookup_insert_eq]
    split_ifs with hn
    · constructor
      · intro hx
        exact ⟨c, List.mem_cons_self, Option.some.inj hx, hn.symm⟩
      · rintro ⟨d, hd, rfl, hnum⟩
        rcases List.mem_cons.1 hd with rfl | hd
        · rfl
        · exact absurd (hnum.trans hn) (hseq.lt_of_mem hd).ne
    · rw [hl.index]
      constructor
      · rintro ⟨d, hd, hrest⟩
        exact ⟨d, List.mem_cons_of_mem _ hd, hrest⟩
      · rintro ⟨d, hd, hdx, hnum⟩
        refine ⟨d, (List.mem_cons.1 hd).resolve_left ?_, hdx, hnum⟩
        rintro rfl
        exact hn hnum.symm
  · change (∃ u, chain.undoStates.lookup d.id = some u) ∨
      ∃ y ly, Path chain.blocks y ly ∧ _
    rw [hblocks]
    rcases List.suffix_cons_iff.1 hd with heq | hd
    · obtain ⟨rfl, -⟩ := List.cons.inj heq
      exact .inl (hrec.saved _ _ _ hext (h.ascending _ d hc).1)
    · have hmem := hd.subset List.mem_cons_self
      rcases hl.undo d l' hd with ⟨u, hu⟩ | hgrown
      · rcases hrec.kept _ _ _ hext d.id (hother d hmem) with hkept | ⟨hwindow, hold⟩
        · exact .inl ⟨u, hkept.trans hu⟩
        · -- its undo state leaves the window with this block
          obtain ⟨e, he, heid, hnum⟩ := (hl.index _ _).1 hold
          have hlookup := (h.lookup_of_mem hl he).1
          rw [heid, (h.lookup_of_mem hl hmem).1] at hlookup
          obtain rfl := Option.some.inj hlookup
          refine .inr ⟨c.id, c :: l, .block hc (hprev ▸ hl.path), hd.trans (List.suffix_cons _ _), ?_⟩
          rw [(hl.sequenced.of_suffix hd).num] at hnum
          rw [hnum, ← hseq.num.trans (List.length_cons).symm]
          exact (Nat.sub_add_cancel hwindow.le).le
      · exact .inr hgrown

theorem extended (h : Exact s) (hrec : Records extend)
    (hc : s.chain.blocks.lookup c.id = some c) (hprev : c.previous = s.chain.headId) {f : ForkData}
    (hlink : f.canLink = true) {chain : ChainState} (hext : extend s.chain c = .ok chain)
    (hsteady : Steady (s.extended chain c f)) : Exact (s.extended chain c f) := by
  have hblocks : (s.extended chain c f).chain.blocks = s.chain.blocks := hrec.blocks _ _ _ hext
  obtain ⟨l, hl⟩ := h.mirrored
  exact ⟨hsteady, hblocks ▸ h.ascending, hblocks ▸ h.shallow, h.sighted,
    origin_insert h.origin (.inr rfl), _, h.mirrored_extended hrec hc hprev hlink hext hl⟩

theorem rejected (h : Exact s) (hc : s.chain.blocks.lookup c.id = some c)
    (hprev : c.previous = s.chain.headId) {e : Error} (hrej : Rejected s s' c e)
    (hsteady : Steady s') : Exact s' := by
  have hkept : ∀ x, x = s.chain.headId ∨ Descends s.chain.blocks x s.chain.headId →
      s'.forks.lookup x = s.forks.lookup x :=
    fun x hx => hrej.forks.kept x (h.next_not_active hc hprev hx)
  obtain ⟨l, hl⟩ := h.mirrored
  refine ⟨hsteady, by rw [hrej.chain]; exact h.ascending, by rw [hrej.chain]; exact h.shallow,
    by rw [hrej.rest]; exact h.sighted, ?_, l, by rw [hrej.chain]; exact hl.path, hl.sequenced,
    fun d hd => ?_, by rw [hrej.chain]; exact hl.index, by rw [hrej.chain]; exact hl.undo⟩
  · obtain ⟨f, hf, hincluded⟩ := h.origin
    rw [hkept nullId (h.included nullId f hf hincluded)]
    exact ⟨f, hf, hincluded⟩
  · rw [hkept d.id (h.lookup_of_mem hl hd).2]
    exact hl.flags d hd

theorem noteFuture (h : Exact s) (hb : s.chain.blocks.lookup b.id = some b) (e : Error) :
    Exact (s.noteFuture b e) := by
  have hsteady := h.toSteady.noteFuture hb e
  obtain ⟨l, hl⟩ := h.mirrored
  unfold ForkState.noteFuture at hsteady ⊢
  split_ifs at hsteady ⊢
  · exact ⟨hsteady, h.ascending, h.shallow, h.sighted, h.origin, l, { hl with }⟩
  · exact h

theorem placed {longest : BlockId × ForkData} (h : Exact s)
    (hnew : s.chain.blocks.lookup b.id = none) (hid : b.id ≠ nullId)
    (hascending : Ascending (s.chain.blocks.insert b.id b))
    (hshallow : NoDeepFork (s.chain.blocks.insert b.id b))
    (hs' : s' = { s.storeBlock b with forks := s'.forks }) (hgrown : Grown s')
    (hplaced : Placed s b longest s') : Exact s' := by
  have hblocks : s'.chain.blocks = s.chain.blocks.insert b.id b := by rw [hs']; rfl
  have hhead : s'.chain.headId = s.chain.headId := by rw [hs']; rfl
  have hindex : s'.chain.blockNumToId = s.chain.blockNumToId := by rw [hs']; rfl
  have hundo : s'.chain.undoStates = s.chain.undoStates := by rw [hs']; rfl
  have hkept : ∀ x f, x = s.chain.headId ∨ Descends s.chain.blocks x s.chain.headId →
      s.forks.lookup x = some f → ∃ g, s'.forks.lookup x = some g ∧ g.canLink = f.canLink ∧
        g.isIncluded = f.isIncluded := by
    intro x f hx hf
    obtain ⟨hne, hafter⟩ := h.not_after hnew hid (h.rooted_active hx)
    obtain ⟨g, hg, hlink, -, hincluded⟩ := Steady.placed_other hplaced hne hafter hf
    exact ⟨g, hg, hlink, hincluded⟩
  obtain ⟨l, hl⟩ := h.mirrored
  refine ⟨h.toSteady.placed hnew hid hs' hgrown hplaced, hblocks ▸ hascending, hblocks ▸ hshallow,
    by rw [hs']; exact h.sighted, ?_, l, ?_, hl.sequenced, fun d hd => ?_, hindex ▸ hl.index,
    fun d l' hd => ?_⟩
  · obtain ⟨f, hf, hincluded⟩ := h.origin
    obtain ⟨g, hg, -, heq⟩ := hkept nullId f (h.included nullId f hf hincluded) hf
    exact ⟨g, hg, heq.trans hincluded⟩
  · rw [hblocks, hhead]
    exact hl.path.insert hnew
  · obtain ⟨f, hf, hincluded, hlink⟩ := hl.flags d hd
    obtain ⟨g, hg, hglink, hgincluded⟩ := hkept d.id f (h.lookup_of_mem hl hd).2 hf
    exact ⟨g, hg, hgincluded.trans hincluded, hglink.trans hlink⟩
  · rw [hblocks, hundo]
    refine (hl.undo d l' hd).imp_right ?_
    rintro ⟨y, ly, hy, hrest⟩
    exact ⟨y, ly, hy.insert hnew, hrest⟩

/-! ## Switching -/

/-- `t` is where the paths `l` of the head and `lx` of a block above `t` meet. -/
structure Meets (t l lx : List FullBlock) : Prop where
  head : t <:+ l
  target : t <:+ lx
  above : t.length < lx.length
  greatest : ∀ m, m <:+ l → m <:+ lx → m.length ≤ t.length

omit [Crypto] in
theorem Meets.tail {t l lx : List FullBlock} (h : Meets t (c :: l) lx) (ht : t ≠ c :: l) :
    Meets t l lx where
  head := (List.suffix_cons_iff.1 h.head).resolve_left ht
  target := h.target
  above := h.above
  greatest m hm := h.greatest m (hm.trans (List.suffix_cons _ _))

/-- **The history ends where the paths meet**, if the block is not on the active chain. -/
theorem meets_of_history (h : Exact s) {x : BlockId} {history : List BlockId}
    (hhistory : IsHistory s x history) {l lx : List FullBlock} (hl : Mirrored s l)
    (hlx : Path s.chain.blocks x lx) (hnot : ¬ lx <:+ l) :
    ∃ t, Path s.chain.blocks (history.getLastD nullId) t ∧ Meets t l lx := by
  -- the target is on the active chain
  obtain ⟨t, ht, hsuffix⟩ : ∃ t, Path s.chain.blocks (history.getLastD nullId) t ∧ t <:+ l := by
    rcases hhistory.included with hnull | ⟨f, hf, hincluded⟩
    · rw [hnull]
      exact ⟨[], .genesis, List.nil_suffix⟩
    · have hactive := h.included _ f hf hincluded
      obtain ⟨t, ht⟩ := h.rooted_active hactive
      exact ⟨t, ht, ht.suffix_of_reaches h.tree.null hl.path hactive⟩
  obtain ⟨L, hL, hmem⟩ := hhistory.climbs.path ht
  obtain rfl := hL.unique h.tree.null hlx
  have hids : ∀ c ∈ L, c.id = x ∨ c.id ∈ history.dropLast := by
    intro c hc
    obtain ⟨z, hz, hlookup⟩ := hmem c hc
    obtain rfl := h.tree.own z c hlookup
    rw [List.mem_reverse, List.dropLast_cons_of_ne_nil hhistory.nonempty] at hz
    exact List.mem_cons.1 hz
  have hlonger : ∀ m, m <:+ l → m <:+ L ++ t → m.length ≤ t.length := by
    intro m hm hmx
    by_contra hlt
    rw [Nat.not_le] at hlt
    -- a longer common path begins with a block of the climb that is included
    cases m with
    | nil => exact absurd hlt (Nat.not_lt_zero _)
    | cons d m =>
      obtain ⟨y, hy⟩ := hlx.suffix hmx
      obtain ⟨hyd, -⟩ := h.lookup_of_mem hl (hm.subset List.mem_cons_self)
      have hd : Path s.chain.blocks d.id (d :: m) := by
        cases hy with
        | block hlookup hrest => exact .block hyd hrest
      have hdL : d ∈ L := by
        refine (List.mem_append.1 (hmx.subset List.mem_cons_self)).resolve_right fun hdt => ?_
        obtain ⟨z, hz, hreach⟩ := ht.mem hdt
        obtain rfl := h.tree.own z d hz
        exact hlt.not_ge (hd.suffix_of_reaches h.tree.null ht hreach).length_le
      rcases hids d hdL with heq | hskipped
      · rw [heq] at hd
        rw [hd.unique h.tree.null hlx] at hm
        exact hnot hm
      · obtain ⟨-, f, hf, hincluded⟩ := hhistory.skipped d.id hskipped
        obtain ⟨g, hg, hgincluded, -⟩ := hl.flags d (hm.subset List.mem_cons_self)
        obtain rfl := Option.some.inj (hf.symm.trans hg)
        rw [hincluded] at hgincluded
        cases hgincluded
  refine ⟨t, ht, hsuffix, List.suffix_append L t, ?_, hlonger⟩
  cases L with
  | nil => exact absurd hsuffix hnot
  | cons d L =>
    rw [List.length_append, List.length_cons]
    omega

/-- **The undo state of a head that is not on the way to the target** is there. -/
theorem undo_of_meets (h : Exact s) {x : BlockId} {t l lx : List FullBlock}
    (hl : Mirrored s (c :: l)) (hlx : Path s.chain.blocks x lx) (hmeets : Meets t (c :: l) lx)
    (ht : t ≠ c :: l) : ∃ u, s.chain.undoStates.lookup c.id = some u := by
  have hbelow : t.length < (c :: l).length := by
    refine lt_of_le_of_ne hmeets.head.length_le fun heq => ht ?_
    exact hmeets.head.eq_of_length heq
  refine (hl.undo c l List.suffix_rfl).resolve_right ?_
  rintro ⟨y, ly, hy, hsuffix, hgrown⟩
  rcases h.shallow x y lx ly hlx hy with hbefore | ⟨m, hmx, hmy, hlen⟩
  · -- the target is before the tall block, so it is on this chain or this chain is before it
    rcases List.suffix_or_suffix_of_suffix hbefore hsuffix with hx | hx
    · exact (hmeets.greatest lx hx List.suffix_rfl).not_gt hmeets.above
    · exact (hmeets.greatest _ List.suffix_rfl hx).not_gt hbelow
  · have hshort : (c :: l).length ≤ m.length := by
      rw [List.length_cons]
      omega
    have hcm : c :: l <:+ m := List.suffix_of_suffix_length_le hsuffix hmy hshort
    exact (hmeets.greatest _ List.suffix_rfl (hcm.trans hmx)).not_gt hbelow

/-- Above the target, the head is the block of the highest number on the active chain. -/
theorem head_of_meets (h : Exact s) {target : BlockId} {t l lx : List FullBlock} (hl : Mirrored s l)
    (ht : Path s.chain.blocks target t) (hmeets : Meets t l lx) (hne : s.chain.headId ≠ target) :
    ∃ c l', l = c :: l' ∧ s.chain.blocks.lookup s.chain.headId = some c ∧ t ≠ c :: l' := by
  have hpath := hl.path
  generalize s.chain.headId = y at hpath hne
  cases hpath with
  | genesis =>
    obtain rfl := List.suffix_nil.1 hmeets.head
    cases ht
    exact absurd rfl hne
  | block hy hrest =>
    refine ⟨_, _, rfl, hy, ?_⟩
    rintro rfl
    cases ht with
    | block hz _ => exact hne ((h.tree.own _ _ hy).symm.trans (h.tree.own _ _ hz))

/-- **A switch to a block off the active chain** that can be linked: blocks are taken off with their
undo states, and blocks that can be linked are applied until one is rejected. -/
theorem wp_switch {I : ForkState → Prop} {E : Error → ForkState → Prop} {x : BlockId} {fuel : Nat}
    (hexact : ∀ s, I s → Exact s) (hrec : Records extend)
    (hpopped : ∀ s f c undo header, I s → s.forks.lookup s.chain.headId = some f →
      s.chain.blocks.lookup s.chain.headId = some c → c.toSignedBlockHeader = s.chain.head →
      s.chain.undoStates.lookup s.chain.headId = some undo →
      Exact (s.popped f undo header) → I (s.popped f undo header))
    (hextended : ∀ s c f chain, I s → s.chain.blocks.lookup c.id = some c →
      c.previous = s.chain.headId → c.id = x ∨ Descends s.chain.blocks c.id x →
      s.forks.lookup c.id = some f → extend s.chain c = .ok chain →
      Exact (s.extended chain c f) → I (s.extended chain c f))
    (hrejected : ∀ s s' c e, I s → s.chain.blocks.lookup c.id = some c →
      c.previous = s.chain.headId → c.id = x ∨ Descends s.chain.blocks c.id x →
      e ≠ .endlessLoop → extend s.chain c = .error e → Rejected s s' c e → Exact s' → E e s')
    (hs : I s) (hx : s.chain.blocks.lookup x = some b) {f : ForkData}
    (hf : s.forks.lookup x = some f) (hlink : f.canLink = true)
    (hnot : ¬ (x = s.chain.headId ∨ Descends s.chain.blocks x s.chain.headId)) :
    Wp False (switchToFork extend fuel x) s fun r s' =>
      (match r with
        | .ok _ => I s' ∧ s'.chain.headId = x
        | .error e => E e s') ∧ s'.chain.blocks = s.chain.blocks := by
  have h := hexact s hs
  obtain ⟨lx, hlx⟩ := h.rooted x f hf (ForkData.linked_of_canLink hlink)
  -- while blocks are taken off, the target stays where the paths meet
  refine Steady.wp_switch (fun target s' => (I s' ∧ s'.chain.blocks = s.chain.blocks) ∧
      ∃ t l, Path s.chain.blocks target t ∧ Mirrored s' l ∧ Meets t l lx)
    (fun s h => (hexact s h).toSteady) hrec.toMovesHead (fun history hhistory => ⟨⟨hs, rfl⟩, ?_⟩)
    (fun _ _ h => h.1.1) (fun target s₁ k c undo header h₁ hne hk hc hhead hundo hsteady => ?_)
    (fun target s₁ k h₁ hne hk hundo _ => ?_)
    (fun s₁ c k chain hI hc hprev hcx hk hklink hext hsteady => ?_)
    (fun s₁ s₂ c k e hI hc hprev hcx _ _ hloop hext hrej hsteady => ?_) hs ⟨b, hx⟩ hf hlink
  · obtain ⟨l, hl⟩ := h.mirrored
    have hsuffix : ¬ lx <:+ l := by
      intro hsuffix
      obtain ⟨l', rfl, -⟩ := hlx.of_block h.tree.null hx
      have hactive := (h.lookup_of_mem hl (hsuffix.subset List.mem_cons_self)).2
      rw [h.tree.own x b hx] at hactive
      exact hnot hactive
    obtain ⟨t, ht, hmeets⟩ := h.meets_of_history hhistory hl hlx hsuffix
    exact ⟨t, l, ht, hl, hmeets⟩
  · -- taking the head off
    obtain ⟨⟨hI, hblocks⟩, t, l, ht, hl, hmeets⟩ := h₁
    have h₁ := hexact s₁ hI
    obtain ⟨d, l, rfl, hd, htop⟩ := h₁.head_of_meets hl (hblocks ▸ ht) hmeets hne
    obtain rfl := Option.some.inj (hc.symm.trans hd)
    exact ⟨⟨hpopped s₁ k c undo header hI hk hc hhead hundo (h₁.popped hc hhead hsteady), hblocks⟩,
      t, l, ht, h₁.mirrored_popped hc hhead hl, hmeets.tail htop⟩
  · -- the undo state is there
    obtain ⟨⟨hI, hblocks⟩, t, l, ht, hl, hmeets⟩ := h₁
    have h₁ := hexact s₁ hI
    obtain ⟨c, l, rfl, hc, htop⟩ := h₁.head_of_meets hl (hblocks ▸ ht) hmeets hne
    obtain ⟨undo, hsome⟩ := h₁.undo_of_meets hl (hblocks ▸ hlx) hmeets htop
    rw [h₁.tree.own _ c hc, hundo] at hsome
    cases hsome
  · exact hextended s₁ c k chain hI hc hprev hcx hk hext
      ((hexact s₁ hI).extended hrec hc hprev hklink hext hsteady)
  · exact hrejected s₁ s₂ c e hI hc hprev hcx hloop hext hrej
      ((hexact s₁ hI).rejected hc hprev hrej hsteady)

/-! ## The scan -/

theorem not_active_of_le (h : Exact s) {x : BlockId} (hx : s.chain.blocks.lookup x = some c)
    (hle : s.chain.head.blockNum ≤ c.blockNum) (hne : s.chain.headId ≠ x) :
    ¬ (x = s.chain.headId ∨ Descends s.chain.blocks x s.chain.headId) := by
  rintro (heq | hdesc)
  · exact hne heq.symm
  · obtain ⟨d, hd⟩ : ∃ d, s.chain.blocks.lookup s.chain.headId = some d := by
      cases hdesc with
      | child hd _ => exact ⟨_, hd⟩
      | next hd _ => exact ⟨_, hd⟩
    have hlt := h.ascending.lt_of_descends hdesc hx hd
    rw [← h.headNum hd] at hlt
    exact hlt.not_ge hle

theorem popped_lt (h : Exact s) {f : ForkData} {undo : Batch} {header : SignedBlockHeader}
    (hc : s.chain.blocks.lookup s.chain.headId = some c)
    (hhead : c.toSignedBlockHeader = s.chain.head) (h' : Exact (s.popped f undo header)) :
    (s.popped f undo header).chain.head.blockNum < s.chain.head.blockNum := by
  have hnum : s.chain.head.blockNum = c.blockNum := h.headNum hc
  rw [hnum]
  rcases h'.seated with ⟨-, hzero⟩ | ⟨d, hd, hheader⟩
  · rw [hzero]
    exact (h.ascending _ c hc).1
  · rw [← hheader]
    refine (h.ascending _ c hc).2 d ?_
    have hprev : c.previous = s.chain.head.previous := by rw [← hhead]
    rw [hprev]
    exact hd

/-- The head does not pass `n`, and only `x` or the head there was in `s₀` has this number. -/
structure Below (n : BlockNum) (x : BlockId) (s₀ s : ForkState) : Prop where
  le : s.chain.head.blockNum ≤ n
  top : s.chain.head.blockNum = n →
    (s.chain.headId = s₀.chain.headId ∧ s.chain.head = s₀.chain.head) ∨ s.chain.headId = x

/-- **A switch to a block as high as the head or higher** leaves the head there, or lower, or where
it was. -/
theorem wp_switch_up {x : BlockId} {fuel : Nat} (h : Exact s) (hrec : Records extend)
    (hb : s.chain.blocks.lookup b.id = some b) (hx : s.chain.blocks.lookup x = some c)
    (hle : s.chain.head.blockNum ≤ c.blockNum) (hne : s.chain.headId ≠ x) {f : ForkData}
    (hf : s.forks.lookup x = some f) (hlink : f.canLink = true) :
    Wp False (switchToFork extend fuel x) s fun r s' =>
      (match r with
        | .ok _ => Exact s'
        | .error e => Exact (s'.noteFuture b e) ∧ s'.chain.head.blockNum ≤ c.blockNum ∧
            (s'.chain.head.blockNum = c.blockNum →
              s'.chain.headId = s.chain.headId ∧ s'.chain.head = s.chain.head)) ∧
        s'.chain.blocks = s.chain.blocks := by
  refine (wp_switch
    (I := fun s' => (Exact s' ∧ s'.chain.blocks = s.chain.blocks) ∧
      Below c.blockNum x s s')
    (E := fun e s' => Exact (s'.noteFuture b e) ∧ s'.chain.head.blockNum ≤ c.blockNum ∧
      (s'.chain.head.blockNum = c.blockNum →
              s'.chain.headId = s.chain.headId ∧ s'.chain.head = s.chain.head))
    (fun _ h => h.1.1) hrec (fun s₁ g d undo header h₁ hg hd hhead _ hexact => ?_)
    (fun s₁ d g chain h₁ hd hprev hdx hg hext hexact => ?_)
    (fun s₁ s₂ d e h₁ hd hprev hdx _ hext hrej hexact => ?_)
    ⟨⟨h, rfl⟩, hle, fun _ => .inl ⟨rfl, rfl⟩⟩ hx hf hlink (h.not_active_of_le hx hle hne)).mono
    fun r s' hr => ?_
  · have hlt := (h₁.1.1.popped_lt hd hhead hexact).trans_le h₁.2.le
    exact ⟨⟨hexact, h₁.1.2⟩, hlt.le, fun heq => absurd heq hlt.ne⟩
  · -- the block put on the head is the target or below it
    have hblocks : chain.blocks = s₁.chain.blocks := hrec.blocks _ _ _ hext
    have hid : chain.headId = d.id := hrec.headId _ _ _ hext
    have hnum : (s₁.extended chain d g).chain.head.blockNum = d.blockNum := by
      change chain.head.blockNum = _
      rw [hrec.head _ _ _ hext]
    refine ⟨⟨hexact, hblocks.trans h₁.1.2⟩, ?_⟩
    rw [← h₁.1.2] at hx
    rcases hdx with rfl | hdx
    · obtain rfl := Option.some.inj (hd.symm.trans hx)
      exact ⟨hnum.le, fun _ => .inr hid⟩
    · have hlt := h₁.1.1.ascending.lt_of_descends hdx hd hx
      rw [← hnum] at hlt
      exact ⟨hlt.le, fun heq => absurd heq hlt.ne⟩
  · rw [hrej.chain]
    refine ⟨hexact.noteFuture (by rw [hrej.chain, h₁.1.2]; exact hb) e, h₁.2.le, fun heq => ?_⟩
    refine (h₁.2.top heq).resolve_right fun hhead => ?_
    -- the target is not before a block that is the target or before it
    rw [← h₁.1.2] at hx
    have hlt := (h₁.1.1.ascending _ d hd).2 c (by rw [hprev, hhead]; exact hx)
    rcases hdx with hdx | hdx
    · rw [hdx] at hd
      obtain rfl := Option.some.inj (hd.symm.trans hx)
      exact lt_irrefl _ hlt
    · exact hlt.not_gt (h₁.1.1.ascending.lt_of_descends hdx hd hx)
  · cases r with
    | ok u => exact ⟨hr.1.1.1.1, hr.2⟩
    | error e => exact hr

/-- **The scan** from a number that the head does not pass. -/
theorem wp_scan {fuel : Nat} (h : Exact s) (hrec : Records extend)
    (hb : s.chain.blocks.lookup b.id = some b) {n : BlockNum} (hn : s.chain.head.blockNum ≤ n) :
    Wp False (tryNumbers extend fuel b n) s fun _ s' => Exact s' := by
  -- the head does not pass `n`, and is still to come in `l` if it has this number
  refine (wp_tryNumbers
    (K := fun n s' => Exact s' ∧ s'.chain.blocks = s.chain.blocks ∧ s'.chain.head.blockNum ≤ n)
    (J := fun n l s' => Exact s' ∧ s'.chain.blocks = s.chain.blocks ∧
      (∀ x ∈ l, ∃ c, s.chain.blocks.lookup x = some c ∧ c.blockNum = n) ∧
      s'.chain.head.blockNum ≤ n ∧ (s'.chain.head.blockNum = n → s'.chain.headId ∈ l))
    (D := fun s' => Exact s')
    (fun n s₁ h₁ => ⟨h₁.1, h₁.2.1, fun x hx => ?_, h₁.2.2, fun heq => ?_⟩)
    (fun n s₁ h₁ => ⟨h₁.1, h₁.2.1, Nat.lt_succ_iff.1 (lt_of_le_of_ne h₁.2.2.2.1 fun heq => ?_)⟩)
    (fun n x l s₁ h₁ => ?_) (fun n x l s₁ f h₁ hf hlink => ?_)
    (fun n x l s₁ f h₁ hf hlink => ?_) n s ⟨h, rfl, hn⟩).mono fun r s' hr => ?_
  · rw [← h₁.2.1]
    exact (h₁.1.tree.numbers (n + 1) x).1 hx
  · rcases h₁.1.seated with ⟨-, hzero⟩ | ⟨c, hc, hhead⟩
    · rw [hzero] at heq
      cases heq
    · refine (h₁.1.tree.numbers (n + 1) _).2 ⟨c, hc, ?_⟩
      rw [← heq, ← hhead]
  · cases h₁.2.2.2.2 heq
  · obtain ⟨c, hc, -⟩ := h₁.2.2.1 x List.mem_cons_self
    exact (h₁.1.tree.entered x c (h₁.2.1 ▸ hc)).1
  · -- the head can be linked
    refine ⟨h₁.1, h₁.2.1, fun y hy => h₁.2.2.1 y (List.mem_cons_of_mem _ hy), h₁.2.2.2.1,
      fun heq => (List.mem_cons.1 (h₁.2.2.2.2 heq)).resolve_left ?_⟩
    rintro rfl
    obtain ⟨c, hc, -⟩ := h₁.2.2.1 _ List.mem_cons_self
    rw [← h₁.2.1] at hc
    obtain ⟨l, hl⟩ := h₁.1.mirrored
    obtain ⟨g, hg, -, hglink⟩ := hl.flags c (h₁.1.mem_of_active hl hc (.inl rfl))
    rw [h₁.1.tree.own _ c hc, hf] at hg
    obtain rfl := Option.some.inj hg
    rw [hlink] at hglink
    cases hglink
  · obtain ⟨c, hc, rfl⟩ := h₁.2.2.1 x List.mem_cons_self
    rw [← h₁.2.1] at hc
    by_cases hhead : s₁.chain.headId = x
    · rw [switchToFork, wp_bind, wp_get]
      dsimp only
      rw [if_pos hhead]
      exact h₁.1
    · refine (h₁.1.wp_switch_up hrec (h₁.2.1 ▸ hb) hc h₁.2.2.2.1 hhead hf hlink).mono
        fun r s₂ hr => ?_
      cases r with
      | ok u => exact hr.1
      | error e =>
        obtain ⟨⟨hexact, hle, htop⟩, hblocks⟩ := hr
        refine ⟨hexact, by rw [ForkState.chain_noteFuture]; exact hblocks.trans h₁.2.1,
          fun y hy => h₁.2.2.1 y (List.mem_cons_of_mem _ hy), ?_⟩
        rw [ForkState.chain_noteFuture]
        refine ⟨hle, fun heq => ?_⟩
        obtain ⟨hid, hsame⟩ := htop heq
        rw [hsame] at heq
        rw [hid]
        exact (List.mem_cons.1 (h₁.2.2.2.2 heq)).resolve_left hhead
  · obtain ⟨done, rfl, hr⟩ := hr
    cases done with
    | true => exact hr
    | false => exact hr.1

/-- **`push_block`** keeps the records exact. -/
theorem push {fuel : Nat} (h : Exact s) (hrec : Records extend) (hc : s.Ascends b)
    (hshallow : NoDeepFork (s.chain.blocks.insert b.id b)) {r : Except Error ForkData}
    (hrun : pushBlock extend fuel b s = some (r, s')) : Exact s' := by
  obtain ⟨hid, hascending⟩ := hc
  have hwp : Wp False (pushBlock extend fuel b) s fun _ s' => Exact s' := by
    refine wp_pushBlock_cases h.toGrown h (fun _ _ _ => h) fun hnew => ?_
    refine wp_placeBlock_cases h.toGrown hid hnew
      (fun longest s₁ hs₁ hgrown hplaced _ =>
        h.placed hnew hid hascending hshallow hs₁ hgrown hplaced)
      fun longest s₁ d hs₁ hgrown hplaced _ _ hnum => ?_
    have h₁ := h.placed hnew hid hascending hshallow hs₁ hgrown hplaced
    have hb : s₁.chain.blocks.lookup b.id = some b := by
      rw [hs₁]
      exact Finmap.lookup_insert _
    have hhead : s₁.chain.head = s.chain.head := by rw [hs₁]; rfl
    exact h₁.wp_scan hrec hb (by rw [hhead]; exact hnum.le)
  exact hwp.of_eq hrun

theorem genesis (tables : ChainTables) : Exact (.genesis tables) := by
  refine ⟨.genesis tables, fun x c hc => (by cases hc), fun x y l l' hl _ => .inl ?_, rfl,
    ⟨_, Finmap.lookup_singleton_eq, rfl⟩, [], .genesis, trivial, fun c hc => (by cases hc),
    fun n x => ⟨fun h => (by cases h), ?_⟩, fun c l' hl => ?_⟩
  · rcases Rooted.known ⟨l, hl⟩ with rfl | ⟨c, hc⟩
    · rw [hl.of_nullId (Steady.genesis tables).tree.null]
      exact List.nil_suffix
    · cases hc
  · rintro ⟨c, hc, -⟩
    cases hc
  · cases List.suffix_nil.1 hl

end Exact

theorem Exact.run {s s' : ForkState} (h : Exact s)
    (hrun : ForkRun (fun s e => e.KeepsWindow s) s s') : Exact s' := by
  refine hrun.induction (fun s e fuel s' hc hstep h => ?_) h
  cases e with
  | push cfg b =>
    obtain ⟨hascends, hshallow, hcfg⟩ := hc
    obtain ⟨⟨r, s₁⟩, hpush, rfl⟩ := Option.map_eq_some_iff.1 hstep
    exact h.push (records_extendChainOn hcfg) hascends hshallow hpush
  | restart => exact hc.elim

/-- **The included blocks and the index are those of the active chain**, and no block was taken off
without its undo state, along every history whose blocks keep the numbers growing and the forks
within the undo window. -/
theorem consistent_of_run (tables : ChainTables) (s : ForkState)
    (hrun : ForkRun (fun s e => e.KeepsWindow s) (.genesis tables) s) : Consistent s :=
  ((Exact.genesis tables).run hrun).consistent

end

/-- Whether a push keeps the numbers growing and none is above the undo window. -/
def ForkEvent.staysLow [Crypto] (s : ForkState) : ForkEvent → Bool
  | .push cfg b => decide (s.Ascends b ∧ cfg.minUndoBlock ≤ 1 ∧
      Table.All (s.chain.blocks.insert b.id b) fun _ c => c.blockNum ≤ MAX_UNDO_HISTORY)
  | .restart => false

theorem ForkEvent.keepsWindow_of_low [Crypto] {s : ForkState} {e : ForkEvent}
    (h : e.staysLow s = true) : e.KeepsWindow s := by
  cases e with
  | push cfg b =>
    obtain ⟨hascends, hcfg, hlow⟩ := of_decide_eq_true h
    exact ⟨hascends, noDeepFork_of_low hascends.2 hlow, hcfg⟩
  | restart => cases h

theorem consistent_branched :
    letI := Crypto.timed
    ∃ s, ForkRun (fun s e => e.KeepsWindow s) (.genesis (soloTables 100)) s ∧
      s.chain.head.timestamp = 70 ∧ Consistent s := by
  let := Crypto.timed
  obtain ⟨s, hs, hhead⟩ := exists_some_of_any
    (o := (ForkState.genesis (soloTables 100)).checkedSteps (fun s e => e.staysLow s) 9 branchedPushes)
    (p := fun s => s.chain.head.timestamp = 70) (by decide +kernel)
  have hrun := ForkRun.of_checkedSteps (fun s e => ForkEvent.keepsWindow_of_low) hs
  exact ⟨s, hrun, hhead, consistent_of_run _ s hrun⟩

/-- **The index loses a block**: a second block 1, on the first, takes its number, and block 2 makes
both part of the active chain. -/
theorem index_restarted :
    letI := Crypto.timed
    ∃ s, ForkRun (fun _ e => ∃ cfg b, e = .push cfg b) (.genesis (soloTables 100)) s ∧
      s.chain.head.blockNum = 2 ∧ ¬ Consistent s := by
  let := Crypto.timed
  let block1 := soloBlock 1 nullId 20 []
  let again1 := soloBlock 1 block1.id 10 []
  let block2 := soloBlock 2 again1.id 30 []
  obtain ⟨s, hs, hnum, hhead, h₁, h₂, h₃, hindex⟩ := exists_some_of_any
    (o := (ForkState.genesis (soloTables 100)).steps 9
      [.push { clock := 100 } block1, .push { clock := 100 } again1, .push { clock := 100 } block2])
    (p := fun s => s.chain.head.blockNum = 2 ∧ s.chain.headId = block2.id ∧
      s.chain.blocks.lookup block2.id = some block2 ∧
      s.chain.blocks.lookup again1.id = some again1 ∧
      s.chain.blocks.lookup block1.id = some block1 ∧
      s.chain.blockNumToId.lookup 1 = some again1.id) (by decide +kernel)
  have hpushes : ∀ (s : ForkState), ∀ e ∈ [ForkEvent.push { clock := 100 } block1,
      .push { clock := 100 } again1, .push { clock := 100 } block2], ∃ cfg b, e = .push cfg b := by
    intro _ e he
    rcases List.mem_cons.1 he with rfl | he
    · exact ⟨_, _, rfl⟩
    rcases List.mem_cons.1 he with rfl | he
    · exact ⟨_, _, rfl⟩
    rw [List.mem_singleton.1 he]
    exact ⟨_, _, rfl⟩
  refine ⟨s, .of_steps hs hpushes, hnum, fun h => ?_⟩
  have hactive : Descends s.chain.blocks block1.id s.chain.headId := by
    rw [hhead]
    exact .next h₁ (.child h₂ rfl)
  have hfirst := (h.index 1 block1.id).2 ⟨block1, h₃, rfl, .inr hactive⟩
  rw [hindex] at hfirst
  exact absurd hfirst (by decide +kernel)

end BitShares
