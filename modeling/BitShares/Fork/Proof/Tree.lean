import BitShares.Fork.Proof.Marks

/-!
# The tree of blocks

What the records of `_fork_db` say about the blocks that have arrived.

* `Path`: the blocks from one down to the genesis block; `Descends`: one block comes after another.
* `Tree`: every block and every previous block has a record, `next_blocks` are the blocks that name
  one as previous, and the numbers list the blocks.  It only depends on the shape of the records
  (`Tree.of_same`), which marks and switches leave alone.
* `wp_markInvalid`, `wp_markAsUnchecked`: what the marks do, in these terms.
-/

namespace BitShares

open Program ForkM

/-! ## Blocks and their ancestors -/

section

variable {blocks : Table BlockId FullBlock}

/-- The blocks from `x` down to the genesis block. -/
inductive Path (blocks : Table BlockId FullBlock) : BlockId → List FullBlock → Prop
  | genesis : Path blocks nullId []
  | block {x : BlockId} {b : FullBlock} {l : List FullBlock} (hb : blocks.lookup x = some b)
      (hl : Path blocks b.previous l) : Path blocks x (b :: l)

def Rooted (blocks : Table BlockId FullBlock) (x : BlockId) : Prop := ∃ l, Path blocks x l

/-- `y` comes after `x`. -/
inductive Descends (blocks : Table BlockId FullBlock) (x : BlockId) : BlockId → Prop
  | child {y : BlockId} {b : FullBlock} (hb : blocks.lookup y = some b) (hx : b.previous = x) :
      Descends blocks x y
  | next {y : BlockId} {b : FullBlock} (hb : blocks.lookup y = some b)
      (hx : Descends blocks x b.previous) : Descends blocks x y

theorem Descends.known {x y : BlockId} (h : Descends blocks x y) :
    ∃ b, blocks.lookup y = some b := by
  cases h with
  | child hb _ => exact ⟨_, hb⟩
  | next hb _ => exact ⟨_, hb⟩

theorem Descends.hasNext {x y : BlockId} (h : Descends blocks x y) :
    ∃ z b, blocks.lookup z = some b ∧ b.previous = x := by
  induction h with
  | child hb hx => exact ⟨_, _, hb, hx⟩
  | next _ _ ih => exact ih

theorem Descends.previous {x y : BlockId} {b : FullBlock} (h : Descends blocks x y)
    (hb : blocks.lookup y = some b) : x = b.previous ∨ Descends blocks x b.previous := by
  cases h with
  | child hc hx =>
    obtain rfl := Option.some.inj (hc.symm.trans hb)
    exact .inl hx.symm
  | next hc hx =>
    obtain rfl := Option.some.inj (hc.symm.trans hb)
    exact .inr hx

theorem Descends.trans {x y z : BlockId} (h : Descends blocks x y) (h' : Descends blocks y z) :
    Descends blocks x z := by
  induction h' with
  | child hb hy => exact .next hb (hy ▸ h)
  | next hb _ ih => exact .next hb ih

def NullFree (blocks : Table BlockId FullBlock) : Prop := blocks.lookup nullId = none

theorem Path.unique (hnull : NullFree blocks) {x : BlockId} {l l' : List FullBlock}
    (h : Path blocks x l) (h' : Path blocks x l') : l = l' := by
  induction h generalizing l' with
  | genesis =>
    cases h' with
    | genesis => rfl
    | block hb _ =>
      rw [hnull] at hb
      cases hb
  | block hb _ ih =>
    cases h' with
    | genesis =>
      rw [hnull] at hb
      cases hb
    | block hb' hl' =>
      obtain rfl := Option.some.inj (hb.symm.trans hb')
      rw [ih hl']

theorem Path.head?_eq (hnull : NullFree blocks) {x : BlockId} {l : List FullBlock}
    (h : Path blocks x l) : l.head? = blocks.lookup x := by
  cases h with
  | genesis => exact hnull.symm
  | block hb _ => exact hb.symm

theorem Path.of_nullId (hnull : NullFree blocks) {l : List FullBlock} (h : Path blocks nullId l) :
    l = [] :=
  h.unique hnull .genesis

theorem Path.of_block (hnull : NullFree blocks) {x : BlockId} {b : FullBlock} {l : List FullBlock}
    (hb : blocks.lookup x = some b) (h : Path blocks x l) :
    ∃ l', l = b :: l' ∧ Path blocks b.previous l' := by
  cases h with
  | genesis =>
    rw [NullFree] at hnull
    rw [hnull] at hb
    cases hb
  | block hc hl =>
    obtain rfl := Option.some.inj (hb.symm.trans hc)
    exact ⟨_, rfl, hl⟩

theorem Path.of_descends (hnull : NullFree blocks) {x y : BlockId} (h : Descends blocks x y)
    {l : List FullBlock} (hl : Path blocks y l) :
    ∃ l', Path blocks x l' ∧ l' <:+ l ∧ l'.length < l.length := by
  induction h generalizing l with
  | child hb hx =>
    cases hl with
    | genesis =>
      rw [hnull] at hb
      cases hb
    | block hb' hl' =>
      obtain rfl := Option.some.inj (hb.symm.trans hb')
      exact ⟨_, hx ▸ hl', List.suffix_cons _ _, Nat.lt_succ_self _⟩
  | next hb _ ih =>
    cases hl with
    | genesis =>
      rw [hnull] at hb
      cases hb
    | block hb' hl' =>
      obtain rfl := Option.some.inj (hb.symm.trans hb')
      obtain ⟨l₀, h₀, hsuffix, hlen⟩ := ih hl'
      exact ⟨l₀, h₀, hsuffix.trans (List.suffix_cons _ _), hlen.trans (Nat.lt_succ_self _)⟩

theorem Rooted.not_descends_self (hnull : NullFree blocks) {x : BlockId} (h : Rooted blocks x) :
    ¬ Descends blocks x x := by
  intro hx
  obtain ⟨l, hl⟩ := h
  obtain ⟨l', hl', -, hlen⟩ := Path.of_descends hnull hx hl
  rw [hl.unique hnull hl'] at hlen
  exact lt_irrefl _ hlen

theorem Rooted.of_descends (hnull : NullFree blocks) {x y : BlockId} (h : Descends blocks x y)
    (hy : Rooted blocks y) : Rooted blocks x := by
  obtain ⟨l, hl⟩ := hy
  obtain ⟨l', hl', -⟩ := Path.of_descends hnull h hl
  exact ⟨l', hl'⟩

theorem Rooted.descends {x y : BlockId} (hx : Rooted blocks x) (h : Descends blocks x y) :
    Rooted blocks y := by
  induction h with
  | child hb hprev =>
    obtain ⟨l, hl⟩ := hx
    exact ⟨_, .block hb (hprev ▸ hl)⟩
  | next hb _ ih =>
    obtain ⟨l, hl⟩ := ih
    exact ⟨_, .block hb hl⟩

theorem rooted_nullId : Rooted blocks nullId := ⟨[], .genesis⟩

theorem Rooted.known {x : BlockId} (h : Rooted blocks x) :
    x = nullId ∨ ∃ b, blocks.lookup x = some b := by
  obtain ⟨l, hl⟩ := h
  cases hl with
  | genesis => exact .inl rfl
  | block hb _ => exact .inr ⟨_, hb⟩

theorem Rooted.previous (hnull : NullFree blocks) {x : BlockId} {b : FullBlock}
    (h : Rooted blocks x) (hb : blocks.lookup x = some b) : Rooted blocks b.previous :=
  h.of_descends hnull (.child hb rfl)

/-- The numbers of the blocks are positive and grow from each block to the next. -/
def Ascending (blocks : Table BlockId FullBlock) : Prop :=
  ∀ x c, blocks.lookup x = some c → 0 < c.blockNum ∧
    ∀ p, blocks.lookup c.previous = some p → p.blockNum < c.blockNum

instance (blocks : Table BlockId FullBlock) : Decidable (Ascending blocks) :=
  inferInstanceAs (Decidable (blocks.All fun _ c => 0 < c.blockNum ∧
    ∀ p ∈ blocks.lookup c.previous, p.blockNum < c.blockNum))

theorem Ascending.lt_of_descends (h : Ascending blocks) {x y : BlockId} {b c : FullBlock}
    (hy : Descends blocks x y) (hb : blocks.lookup x = some b) (hc : blocks.lookup y = some c) :
    b.blockNum < c.blockNum := by
  induction hy generalizing c with
  | child hd hx =>
    obtain rfl := Option.some.inj (hc.symm.trans hd)
    exact (h _ c hc).2 b (hx ▸ hb)
  | next hd hx ih =>
    obtain rfl := Option.some.inj (hc.symm.trans hd)
    obtain ⟨p, hp⟩ := hx.known
    exact (ih hp).trans ((h _ c hc).2 p hp)

end

def ForkState.Ascends [Crypto] (s : ForkState) (b : FullBlock) : Prop :=
  b.id ≠ nullId ∧ Ascending (s.chain.blocks.insert b.id b)

instance [Crypto] (s : ForkState) (b : FullBlock) : Decidable (s.Ascends b) :=
  inferInstanceAs (Decidable (b.id ≠ nullId ∧ Ascending (s.chain.blocks.insert b.id b)))

/-! ## The records -/

structure Tree [Crypto] (s : ForkState) : Prop where
  own : ∀ x b, s.chain.blocks.lookup x = some b → b.id = x
  null : NullFree s.chain.blocks
  known : ∀ x f, s.forks.lookup x = some f →
    (f.isKnown = true ↔ x = nullId ∨ ∃ b, s.chain.blocks.lookup x = some b)
  entered : ∀ x b, s.chain.blocks.lookup x = some b →
    (∃ f, s.forks.lookup x = some f) ∧ ∃ f, s.forks.lookup b.previous = some f
  genesis : ∃ f, s.forks.lookup nullId = some f
  next : ∀ x f, s.forks.lookup x = some f → ∀ y, y ∈ f.nextBlocks ↔
    ∃ b, s.chain.blocks.lookup y = some b ∧ b.previous = x
  numbers : ∀ n x, x ∈ (s.numbers.lookup n).getD [] ↔
    ∃ b, s.chain.blocks.lookup x = some b ∧ b.blockNum = n

structure SameNodes (s s' : ForkState) : Prop where
  blocks : s'.chain.blocks = s.chain.blocks
  numbers : s'.numbers = s.numbers
  nodes : ∀ x, (s'.forks.lookup x).map (fun f => (f.nextBlocks, f.isKnown)) =
    (s.forks.lookup x).map fun f => (f.nextBlocks, f.isKnown)

/-- And the same ones linked.  Marks of validity and switches leave all this alone. -/
structure SameTree (s s' : ForkState) : Prop extends SameNodes s s' where
  linked : ∀ x, (s'.forks.lookup x).map (·.isLinked) = (s.forks.lookup x).map (·.isLinked)

theorem SameNodes.symm {s s' : ForkState} (h : SameNodes s s') : SameNodes s' s where
  blocks := h.blocks.symm
  numbers := h.numbers.symm
  nodes x := (h.nodes x).symm

theorem SameNodes.lookup {s s' : ForkState} (h : SameNodes s s') {x : BlockId} {f : ForkData}
    (hf : s'.forks.lookup x = some f) : ∃ g, s.forks.lookup x = some g ∧
      f.nextBlocks = g.nextBlocks ∧ f.isKnown = g.isKnown := by
  have hnode := h.nodes x
  rw [hf, Option.map_some] at hnode
  obtain ⟨g, hg, heq⟩ := Option.map_eq_some_iff.1 hnode.symm
  rw [Prod.mk.injEq] at heq
  exact ⟨g, hg, heq.1.symm, heq.2.symm⟩

theorem SameTree.lookup_linked {s s' : ForkState} (h : SameTree s s') {x : BlockId} {f : ForkData}
    (hf : s'.forks.lookup x = some f) : ∃ g, s.forks.lookup x = some g ∧ f.isLinked = g.isLinked := by
  have hlinked := h.linked x
  rw [hf, Option.map_some] at hlinked
  obtain ⟨g, hg, heq⟩ := Option.map_eq_some_iff.1 hlinked.symm
  exact ⟨g, hg, heq.symm⟩

section

variable [Crypto]

theorem Tree.of_same {s s' : ForkState} (h : Tree s) (hs : SameNodes s s') : Tree s' where
  own := by rw [hs.blocks]; exact h.own
  null := by rw [hs.blocks]; exact h.null
  known x f hf := by
    obtain ⟨g, hg, -, hknown⟩ := hs.lookup hf
    rw [hs.blocks, hknown]
    exact h.known x g hg
  entered x b hb := by
    rw [hs.blocks] at hb
    obtain ⟨⟨f, hf⟩, g, hg⟩ := h.entered x b hb
    obtain ⟨f', hf', -⟩ := hs.symm.lookup hf
    obtain ⟨g', hg', -⟩ := hs.symm.lookup hg
    exact ⟨⟨f', hf'⟩, g', hg'⟩
  genesis := by
    obtain ⟨f, hf⟩ := h.genesis
    obtain ⟨f', hf', -⟩ := hs.symm.lookup hf
    exact ⟨f', hf'⟩
  next x f hf := by
    obtain ⟨g, hg, hnext, -⟩ := hs.lookup hf
    rw [hs.blocks, hnext]
    exact h.next x g hg
  numbers := by
    rw [hs.blocks, hs.numbers]
    exact h.numbers

theorem Tree.not_stored {s : ForkState} {b : FullBlock} (h : Tree s)
    (hknown : ∀ f, s.forks.lookup b.id = some f → f.isKnown = false) :
    s.chain.blocks.lookup b.id = none := by
  cases hb : s.chain.blocks.lookup b.id with
  | none => rfl
  | some c =>
    obtain ⟨⟨g, hg⟩, -⟩ := h.entered _ c hb
    have hg' := (h.known _ g hg).2 (.inr ⟨c, hb⟩)
    rw [hknown g hg] at hg'
    cases hg'

theorem Tree.below_iff {s : ForkState} (h : Tree s) {x : BlockId} {f : ForkData}
    (hf : s.forks.lookup x = some f) {y : BlockId} :
    Below s.forks f.nextBlocks y ↔ Descends s.chain.blocks x y := by
  constructor
  · intro hy
    induction hy with
    | base hy =>
      obtain ⟨b, hb, hprev⟩ := (h.next x f hf _).1 hy
      exact .child hb hprev
    | next _ hg hz ih =>
      obtain ⟨b, hb, hprev⟩ := (h.next _ _ hg _).1 hz
      exact .next hb (hprev ▸ ih)
  · intro hy
    induction hy with
    | child hb hprev => exact .base ((h.next x f hf _).2 ⟨_, hb, hprev⟩)
    | next hb _ ih =>
      obtain ⟨-, g, hg⟩ := h.entered _ _ hb
      exact .next ih hg ((h.next _ g hg _).2 ⟨_, hb, rfl⟩)

/-- Some measure falls from every block to the next ones and stays below `fuel`. -/
def Shallow (blocks : Table BlockId FullBlock) (fuel : Nat) : Prop :=
  ∃ rank : BlockId → Nat, ∀ x b, blocks.lookup x = some b → rank x < rank b.previous ∧ rank x < fuel

theorem Tree.wp_markDown {total : Prop} {s : ForkState} (h : Tree s) {mark : ForkData → ForkData}
    (hmark : IsMark mark) {x : BlockId} {f : ForkData} (hf : s.forks.lookup x = some f)
    {fuel : Nat} (hfuel : total → Shallow s.chain.blocks fuel) {A : Type}
    {v : A → BlockId → ForkData → ForkM A} {J : A → (BlockId → Prop) → Prop}
    (hsee : ∀ acc V y g s', J acc V → Descends s.chain.blocks x y → s.forks.lookup y = some g →
      s'.chain = s.chain → Wp total (v acc y (mark g)) s' fun r s'' =>
        s'' = s' ∧ ∃ acc', r = .ok acc' ∧ J acc' fun z => V z ∨ z = y)
    {a : A} (hacc : J a fun _ => False) :
    Wp total (markDown mark v fuel f.nextBlocks a) s fun r s' =>
      ∃ acc', r = .ok acc' ∧ s' = { s with forks := s'.forks } ∧
        MarkedBy mark (Descends s.chain.blocks x) s.forks s'.forks ∧
        J acc' (Descends s.chain.blocks x) := by
  have hbelow : Below s.forks f.nextBlocks = Descends s.chain.blocks x :=
    funext fun y => propext (h.below_iff hf)
  rw [← hbelow]
  -- the measure, if the loop has to end
  obtain ⟨rank, hrank⟩ : ∃ rank : BlockId → Nat, total →
      ∀ x b, s.chain.blocks.lookup x = some b → rank x < rank b.previous ∧ rank x < fuel := by
    by_cases ht : total
    · obtain ⟨rank, hrank⟩ := hfuel ht
      exact ⟨rank, fun _ => hrank⟩
    · exact ⟨fun _ => 0, fun ht' => absurd ht' ht⟩
  refine BitShares.wp_markDown hmark (fun y hy => ?_) (fun acc V y g s' hJ hy => ?_)
    (m := rank) (fun ht => ⟨fun y g hg z hz => ?_, fun y hy => ?_⟩) hacc
  · rw [hbelow] at hy
    obtain ⟨b, hb⟩ := hy.known
    exact (h.entered y b hb).1
  · rw [hbelow] at hy
    exact hsee acc V y g s' hJ hy
  · obtain ⟨b, hb, rfl⟩ := (h.next y g hg z).1 hz
    exact (hrank ht z b hb).1
  · obtain ⟨b, hb, -⟩ := (h.next x f hf y).1 hy
    exact (hrank ht y b hb).2

/-! ## The marks -/

omit [Crypto] in
theorem MarkedBy.sameNodes {mark : ForkData → ForkData} {V : BlockId → Prop} {s s' : ForkState}
    (h : MarkedBy mark V s.forks s'.forks) (hs : s' = { s with forks := s'.forks })
    (hmark : ∀ f, (mark f).nextBlocks = f.nextBlocks ∧ (mark f).isKnown = f.isKnown) :
    SameNodes s s' where
  blocks := by rw [hs]
  numbers := by rw [hs]
  nodes x := by
    by_cases hx : V x
    · rw [h.marked x hx, Option.map_map]
      refine congrArg (fun m => Option.map m _) (funext fun f => ?_)
      rw [Function.comp_apply, (hmark f).1, (hmark f).2]
    · rw [h.kept x hx]

omit [Crypto] in
theorem MarkedBy.sameTree {mark : ForkData → ForkData} {V : BlockId → Prop} {s s' : ForkState}
    (h : MarkedBy mark V s.forks s'.forks) (hs : s' = { s with forks := s'.forks })
    (hmark : ∀ f, (mark f).nextBlocks = f.nextBlocks ∧ (mark f).isKnown = f.isKnown)
    (hlinked : ∀ f, (mark f).isLinked = f.isLinked) : SameTree s s' where
  toSameNodes := h.sameNodes hs hmark
  linked x := by
    by_cases hx : V x
    · rw [h.marked x hx, Option.map_map]
      exact congrArg (fun m => Option.map m _) (funext hlinked)
    · rw [h.kept x hx]

def ForkData.invalidate (reason : Option Error) (f : ForkData) : ForkData :=
  { f with isValid := some false, invalidReason := reason }

def ForkData.uncheck (f : ForkData) : ForkData := { f with isValid := none, invalidReason := none }

omit [Crypto] in
theorem MarkedBy.cons {mark : ForkData → ForkData} (hmark : IsMark mark) {V : BlockId → Prop}
    {forks forks' : Table BlockId ForkData} {x : BlockId} {f : ForkData}
    (hf : forks.lookup x = some f) (h : MarkedBy mark V (forks.insert x (mark f)) forks') :
    MarkedBy mark (fun y => y = x ∨ V y) forks forks' where
  marked y hy := by
    by_cases hV : V y
    · rw [h.marked y hV, Table.lookup_insert_eq]
      split_ifs with heq
      · rw [heq, hf, Option.map_some, Option.map_some, hmark.again]
      · rfl
    · obtain rfl := hy.resolve_right hV
      rw [h.kept y hV, Table.lookup_insert_eq, if_pos rfl, hf, Option.map_some]
  kept y hy := by
    rw [h.kept y fun hV => hy (.inr hV), Table.lookup_insert_eq, if_neg fun heq => hy (.inl heq)]

omit [Crypto] in
theorem SameNodes.mark {s : ForkState} {mark : ForkData → ForkData} (hmark : IsMark mark)
    (hknown : ∀ f, (mark f).isKnown = f.isKnown) {x : BlockId} {f : ForkData}
    (hf : s.forks.lookup x = some f) :
    SameNodes s { s with forks := s.forks.insert x (mark f) } where
  blocks := rfl
  numbers := rfl
  nodes y := by
    dsimp only
    rw [Table.lookup_insert_eq]
    split_ifs with heq
    · rw [heq, hf, Option.map_some, Option.map_some, hmark.next, hknown]
    · rfl

theorem Tree.wp_markFrom {total : Prop} {s : ForkState} (h : Tree s) {mark : ForkData → ForkData}
    (hmark : IsMark mark) (hknown : ∀ f, (mark f).isKnown = f.isKnown) {x : BlockId} {f : ForkData}
    (hf : s.forks.lookup x = some f) {fuel : Nat}
    (hfuel : total → Shallow s.chain.blocks fuel) :
    Wp total (do
      storeFork x (mark f)
      markDown mark (fun _ _ _ => pure ()) fuel f.nextBlocks ()) s fun r s' =>
      r = .ok () ∧ s' = { s with forks := s'.forks } ∧
        MarkedBy mark (fun y => y = x ∨ Descends s.chain.blocks x y) s.forks s'.forks := by
  simp only [wp_bind, wp_storeFork]
  have hf' : (s.forks.insert x (mark f)).lookup x = some (mark f) := Finmap.lookup_insert _
  have htree := h.of_same (SameNodes.mark hmark hknown hf)
  have hwp := htree.wp_markDown (A := Unit) hmark hf' hfuel
    (v := fun _ _ _ => pure ()) (J := fun _ _ => True)
    (fun _ _ _ _ _ _ _ _ _ => ⟨rfl, (), rfl, trivial⟩) (a := ()) trivial
  rw [hmark.next] at hwp
  refine hwp.mono fun r s' hr => ?_
  obtain ⟨-, rfl, hs', hmarked, -⟩ := hr
  exact ⟨rfl, by rw [hs'], hmarked.cons hmark hf⟩

omit [Crypto] in
theorem isMark_invalidate (reason : Option Error) : IsMark (ForkData.invalidate reason) :=
  ⟨fun _ => rfl, fun _ => rfl⟩

omit [Crypto] in
theorem isMark_uncheck : IsMark ForkData.uncheck := ⟨fun _ => rfl, fun _ => rfl⟩

theorem Tree.wp_markInvalid {total : Prop} {s : ForkState} (h : Tree s) {x : BlockId} {f : ForkData}
    (hf : s.forks.lookup x = some f) {fuel : Nat} (hfuel : total → Shallow s.chain.blocks fuel)
    (reason : Error) :
    Wp total (markInvalid fuel x reason) s fun r s' =>
      r = .ok () ∧ s' = { s with forks := s'.forks } ∧
        MarkedBy (ForkData.invalidate (some reason))
          (fun y => y = x ∨ Descends s.chain.blocks x y) s.forks s'.forks := by
  rw [markInvalid, wp_bind, wp_fetchFork]
  refine ⟨fun f' hf' => ?_, fun hnone => by rw [hf] at hnone; cases hnone⟩
  obtain rfl : f = f' := Option.some.inj (hf.symm.trans hf')
  exact h.wp_markFrom (isMark_invalidate _) (fun _ => rfl) hf hfuel

theorem Tree.wp_markAsUnchecked {total : Prop} {s : ForkState} (h : Tree s) {x : BlockId}
    {f : ForkData} (hf : s.forks.lookup x = some f) {fuel : Nat}
    (hfuel : total → Shallow s.chain.blocks fuel) :
    Wp total (markAsUnchecked fuel x) s fun r s' =>
      r = .ok () ∧ s' = { s with forks := s'.forks } ∧
        MarkedBy ForkData.uncheck
          (fun y => y = x ∨ Descends s.chain.blocks x y) s.forks s'.forks := by
  rw [markAsUnchecked, wp_bind, wp_fetchFork]
  refine ⟨fun f' hf' => ?_, fun hnone => by rw [hf] at hnone; cases hnone⟩
  obtain rfl : f = f' := Option.some.inj (hf.symm.trans hf')
  exact h.wp_markFrom isMark_uncheck (fun _ => rfl) hf hfuel

def ForkState.Revisited (s : ForkState) (x : BlockId) : Prop :=
  ∃ z ∈ s.futureBlocks, x = z ∨ Descends s.chain.blocks z x

/-- **A restart** unmarks the blocks kept for it and all that come after them. -/
theorem Tree.wp_restart {total : Prop} {s : ForkState} (h : Tree s)
    (hfuture : ∀ x ∈ s.futureBlocks, ∃ b, s.chain.blocks.lookup x = some b) {fuel : Nat}
    (hfuel : total → Shallow s.chain.blocks fuel) :
    Wp total (clearInvalidationOfFutureBlocks fuel) s fun r s' =>
      r = .ok () ∧ s' = { s with forks := s'.forks } ∧
        MarkedBy ForkData.uncheck s.Revisited s.forks s'.forks := by
  rw [clearInvalidationOfFutureBlocks, wp_bind, wp_get]
  refine (wp_forEach (E := fun _ _ => False)
    (fun l s' => (∀ x ∈ l, ∃ b, s.chain.blocks.lookup x = some b) ∧
      s' = { s with forks := s'.forks } ∧ ∃ V, MarkedBy ForkData.uncheck V s.forks s'.forks ∧
        ∀ y, s.Revisited y ↔ V y ∨ ∃ z ∈ l, y = z ∨ Descends s.chain.blocks z y)
    (fun x l s₁ h₁ => ?_) s.futureBlocks s
    ⟨hfuture, rfl, fun _ => False, .none fun _ => id, by simp [ForkState.Revisited]⟩).mono
    fun r s' hr => ?_
  · obtain ⟨hl, hs₁, V, hmarked, hV⟩ := h₁
    have hsame : SameNodes s s₁ := hmarked.sameNodes hs₁ fun _ => ⟨rfl, rfl⟩
    obtain ⟨b, hb⟩ := hl x List.mem_cons_self
    rw [← hsame.blocks] at hb
    obtain ⟨f, hf⟩ := ((h.of_same hsame).entered x b hb).1
    rw [← hsame.blocks] at hfuel
    refine ((h.of_same hsame).wp_markAsUnchecked hf hfuel).mono fun r s₂ hr => ?_
    obtain ⟨rfl, hs₂, hmarked'⟩ := hr
    refine ⟨fun y hy => hl y (List.mem_cons_of_mem _ hy), ?_, _,
      hmarked.trans isMark_uncheck hmarked', fun y => ?_⟩
    · rw [hs₂, hs₁]
    · rw [hV, hsame.blocks, List.exists_mem_cons_iff]
      exact or_assoc.symm
  · cases r with
    | error e => exact hr.elim
    | ok u =>
      obtain ⟨-, hs', V, hmarked, hV⟩ := hr
      obtain rfl : V = s.Revisited := funext fun y => propext (by simp [hV])
      exact ⟨rfl, hs', hmarked⟩

end

end BitShares
