import BitShares.Fork.Proof.Tree

/-!
# Placing a block in the tree

`store_and_index` keeps the records a tree (`Tree.place`), and does one of four things to the flags
(`Tree.wp_storeAndIndex`), according to whether the block was awaited and what its previous block
is.
-/

namespace BitShares

open Program ForkM

variable [Crypto]

namespace ForkState

/-- The record of the previous block, with `b` among its next blocks. -/
def previousRecord (s : ForkState) (b : FullBlock) : ForkData :=
  let prev := (s.forks.lookup b.previous).getD {}
  { prev with nextBlocks := List.insert b.id prev.nextBlocks }

/-- The state with `b` stored, before its own record is written. -/
def storeBlock (s : ForkState) (b : FullBlock) : ForkState :=
  { s with
    chain := { s.chain with blocks := s.chain.blocks.insert b.id b }
    numbers := s.numbers.insert b.blockNum ((s.numbers.lookup b.blockNum).getD [] ++ [b.id])
    forks := s.forks.insert b.previous (s.previousRecord b) }

end ForkState

theorem wp_storeBlock {total : Prop} {s : ForkState} (b : FullBlock)
    {Q : Except Error ForkData → ForkState → Prop} :
    Wp total (storeBlock b) s Q ↔ Q (.ok (s.previousRecord b)) (s.storeBlock b) := Iff.rfl

theorem ForkState.lookup_storeBlock (s : ForkState) (b : FullBlock) (x : BlockId) :
    (s.storeBlock b).chain.blocks.lookup x =
      if x = b.id then some b else s.chain.blocks.lookup x :=
  Table.lookup_insert_eq _ _ _ _

theorem ForkState.forks_storeBlock (s : ForkState) (b : FullBlock) (x : BlockId) :
    (s.storeBlock b).forks.lookup x =
      if x = b.previous then some (s.previousRecord b) else s.forks.lookup x :=
  Table.lookup_insert_eq _ _ _ _

variable {s : ForkState} {b : FullBlock}

theorem Tree.next_storeBlock (h : Tree s) (hnew : s.chain.blocks.lookup b.id = none) {x : BlockId}
    {f : ForkData} (hf : (s.storeBlock b).forks.lookup x = some f) (y : BlockId) :
    y ∈ f.nextBlocks ↔ ∃ c, (s.storeBlock b).chain.blocks.lookup y = some c ∧ c.previous = x := by
  have hold : ∀ c, s.chain.blocks.lookup y = some c → y ≠ b.id := by
    rintro c hc rfl
    rw [hnew] at hc
    cases hc
  rw [s.forks_storeBlock] at hf
  rw [s.lookup_storeBlock]
  split_ifs at hf with hx
  · obtain rfl := Option.some.inj hf
    rw [ForkState.previousRecord, List.mem_insert_iff]
    have hprev : y ∈ ((s.forks.lookup b.previous).getD {}).nextBlocks ↔
        ∃ c, s.chain.blocks.lookup y = some c ∧ c.previous = x := by
      rw [hx]
      cases hp : s.forks.lookup b.previous with
      | some p => exact h.next _ p hp y
      | none =>
        refine ⟨fun hy => (by cases hy), fun ⟨c, hc, hcx⟩ => ?_⟩
        obtain ⟨-, g, hg⟩ := h.entered y c hc
        rw [hcx, hp] at hg
        cases hg
    rw [hprev]
    by_cases hy : y = b.id
    · simp [hy, hx]
    · simp [hy]
  · rw [h.next x f hf y]
    by_cases hy : y = b.id
    · subst hy
      simp [hnew, Ne.symm hx]
    · simp [hy]

theorem Tree.not_awaited (h : Tree s) (hp : (s.storeBlock b).forks.lookup b.id = none)
    (y : BlockId) (c : FullBlock) (hc : (s.storeBlock b).chain.blocks.lookup y = some c) :
    c.previous ≠ b.id := by
  intro hcx
  rw [s.forks_storeBlock] at hp
  split_ifs at hp with hself
  rw [s.lookup_storeBlock] at hc
  split_ifs at hc with hy
  · obtain rfl := Option.some.inj hc
    exact absurd hcx.symm hself
  · obtain ⟨-, g, hg⟩ := h.entered y c hc
    rw [hcx, hp] at hg
    cases hg

/-- **A block is placed**: with a record of its own that knows it and keeps its next blocks, the
records describe the blocks again. -/
theorem Tree.place (h : Tree s) (hnew : s.chain.blocks.lookup b.id = none) (hid : b.id ≠ nullId)
    {current : ForkData} (hknown : current.isKnown = true)
    (hnext : current.nextBlocks = (((s.storeBlock b).forks.lookup b.id).getD {}).nextBlocks) :
    Tree { s.storeBlock b with forks := (s.storeBlock b).forks.insert b.id current } := by
  have hforks : ∀ x, ((s.storeBlock b).forks.insert b.id current).lookup x =
      if x = b.id then some current else if x = b.previous then some (s.previousRecord b)
        else s.forks.lookup x := by
    intro x
    rw [Table.lookup_insert_eq, s.forks_storeBlock]
  refine ⟨fun x c hc => ?_, ?_, fun x f hf => ?_, fun x c hc => ?_, ?_, fun x f hf y => ?_,
    fun n x => ?_⟩
  · rw [s.lookup_storeBlock] at hc
    split_ifs at hc with hx
    · obtain rfl := Option.some.inj hc
      exact hx.symm
    · exact h.own x c hc
  · rw [NullFree, s.lookup_storeBlock, if_neg (Ne.symm hid)]
    exact h.null
  · rw [s.lookup_storeBlock]
    dsimp only at hf
    rw [hforks] at hf
    split_ifs at hf with hx hprev
    · obtain rfl := Option.some.inj hf
      simp [hknown, hx]
    · -- the previous block is known if it was
      obtain rfl := Option.some.inj hf
      rw [if_neg hx, ForkState.previousRecord, ← hprev]
      cases hp : s.forks.lookup x with
      | some p => exact h.known x p hp
      | none =>
        refine ⟨fun hk => (by cases hk), fun hk => ?_⟩
        obtain ⟨f, hf⟩ : ∃ f, s.forks.lookup x = some f := by
          rcases hk with rfl | ⟨c, hc⟩
          · exact h.genesis
          · exact (h.entered x c hc).1
        rw [hp] at hf
        cases hf
    · rw [if_neg hx]
      exact h.known x f hf
  · have hmem : ∀ y, (∃ f, s.forks.lookup y = some f) ∨ y = b.id ∨ y = b.previous →
        ∃ f, ((s.storeBlock b).forks.insert b.id current).lookup y = some f := by
      intro y hy
      rw [hforks]
      split_ifs with h₁ h₂
      · exact ⟨_, rfl⟩
      · exact ⟨_, rfl⟩
      · exact hy.resolve_right (by simp [h₁, h₂])
    rw [s.lookup_storeBlock] at hc
    split_ifs at hc with hx
    · obtain rfl := Option.some.inj hc
      exact ⟨hmem x (.inr (.inl hx)), hmem _ (.inr (.inr rfl))⟩
    · obtain ⟨h₁, h₂⟩ := h.entered x c hc
      exact ⟨hmem x (.inl h₁), hmem _ (.inl h₂)⟩
  · dsimp only
    rw [hforks, if_neg (Ne.symm hid)]
    split_ifs
    · exact ⟨_, rfl⟩
    · exact h.genesis
  · dsimp only at hf
    rw [Table.lookup_insert_eq] at hf
    split_ifs at hf with hx
    · obtain rfl := Option.some.inj hf
      rw [hnext, hx]
      cases hp : (s.storeBlock b).forks.lookup b.id with
      | some p => exact h.next_storeBlock hnew hp y
      | none =>
        refine ⟨fun hy => (by cases hy), ?_⟩
        rintro ⟨c, hc, hcx⟩
        exact absurd hcx (h.not_awaited hp y c hc)
    · exact h.next_storeBlock hnew hf y
  · rw [s.lookup_storeBlock]
    change x ∈ ((s.numbers.insert b.blockNum _).lookup n).getD [] ↔ _
    rw [Table.lookup_insert_eq]
    by_cases hn : n = b.blockNum
    · subst hn
      rw [if_pos rfl, Option.getD_some, List.mem_append, List.mem_singleton, h.numbers]
      by_cases hx : x = b.id
      · simp [hx]
      · simp [hx]
    · rw [if_neg hn, h.numbers]
      by_cases hx : x = b.id
      · subst hx
        simp [hnew, Ne.symm hn]
      · simp [hx]

/-! ## The four ways to place a block -/

structure IsLongest (s : ForkState) (V : BlockId → Prop) (l : Longest) : Prop where
  highest : ∀ y, V y → ∀ c, s.chain.blocks.lookup y = some c → c.blockNum ≤ l.num
  seen : l.num = 0 ∨ V l.id ∧ (∃ c, s.chain.blocks.lookup l.id = some c ∧ c.blockNum = l.num) ∧
    ∃ g, s.forks.lookup l.id = some g ∧ l.fork = { g with isLinked := true }

def ForkData.link (f : ForkData) : ForkData := { f with isLinked := true }

omit [Crypto] in
theorem isMark_link : IsMark ForkData.link := ⟨fun _ => rfl, fun _ => rfl⟩

theorem Tree.wp_recursiveMarkAsLinked {total : Prop} (h : Tree s) {x : BlockId} {f : ForkData}
    (hf : s.forks.lookup x = some f) {fuel : Nat} (hfuel : total → Shallow s.chain.blocks fuel) :
    Wp total (recursiveMarkAsLinked fuel f.nextBlocks) s fun r s' =>
      ∃ l : Longest, r = .ok (l.id, l.fork) ∧ s' = { s with forks := s'.forks } ∧
        MarkedBy ForkData.link (Descends s.chain.blocks x) s.forks s'.forks ∧
        IsLongest s (Descends s.chain.blocks x) l := by
  simp only [recursiveMarkAsLinked, wp_bind]
  refine (h.wp_markDown isMark_link hf hfuel (J := fun l V => IsLongest s V l)
    (fun l V y g s' hl hy hg hchain => ?_) ⟨fun _ hy => hy.elim, .inl rfl⟩).mono
    fun r s' hr => ?_
  · obtain ⟨c, hc⟩ := hy.known
    simp only [Longest.see, wp_bind, wp_fetchBlock, wp_pure]
    rw [hchain]
    refine ⟨fun c' hc' => ⟨trivial, _, rfl, ?_⟩, fun hnone => by rw [hc] at hnone; cases hnone⟩
    obtain rfl := Option.some.inj (hc.symm.trans hc')
    split_ifs with hnum
    · refine ⟨fun z hz d hd => ?_, .inr ⟨.inr rfl, ⟨c, hc, rfl⟩, g, hg, rfl⟩⟩
      rcases hz with hz | rfl
      · exact (hl.highest z hz d hd).trans hnum.le
      · rw [Option.some.inj (hc.symm.trans hd)]
    · refine ⟨fun z hz d hd => ?_, hl.seen.imp_right fun h => ⟨.inl h.1, h.2⟩⟩
      rcases hz with hz | rfl
      · exact hl.highest z hz d hd
      · rw [← Option.some.inj (hc.symm.trans hd)]
        exact not_lt.1 hnum
  · obtain ⟨l, rfl, hs', hmarked, hl⟩ := hr
    exact ⟨l, rfl, hs', hmarked, hl⟩

/-- What `store_and_index` returns and leaves. -/
inductive Placed (s : ForkState) (b : FullBlock) : BlockId × ForkData → ForkState → Prop
  /-- The block was awaited, on an invalid block: it is invalid, and so is what comes after it. -/
  | invalid {placeholder current : ForkData} {s' : ForkState}
      (hplaceholder : (s.storeBlock b).forks.lookup b.id = some placeholder)
      (hlinked : (s.previousRecord b).isLinked = true)
      (hinvalid : (s.previousRecord b).invalid = true)
      (hcurrent : current = { placeholder with
        isKnown := true
        isLinked := true
        isValid := some false
        invalidReason := (s.previousRecord b).invalidReason })
      (hmarked : MarkedBy (ForkData.invalidate (s.previousRecord b).invalidReason)
        (Descends (s.storeBlock b).chain.blocks b.id)
        ((s.storeBlock b).forks.insert b.id current) s'.forks) : Placed s b (b.id, current) s'
  /-- It was awaited, on a linked block: it is linked, and so is what comes after it. -/
  | linked {placeholder current : ForkData} {s' : ForkState} {l : Longest}
      (hplaceholder : (s.storeBlock b).forks.lookup b.id = some placeholder)
      (hlinked : (s.previousRecord b).isLinked = true)
      (hvalid : (s.previousRecord b).invalid = false)
      (hcurrent : current = { placeholder with isKnown := true, isLinked := true })
      (hmarked : MarkedBy ForkData.link (Descends (s.storeBlock b).chain.blocks b.id)
        ((s.storeBlock b).forks.insert b.id current) s'.forks)
      (hlongest : IsLongest { s.storeBlock b with
        forks := (s.storeBlock b).forks.insert b.id current }
        (Descends (s.storeBlock b).chain.blocks b.id) l) : Placed s b (l.id, l.fork) s'
  /-- It was awaited, on a block that is not linked. -/
  | unlinked {placeholder current : ForkData} {s' : ForkState}
      (hplaceholder : (s.storeBlock b).forks.lookup b.id = some placeholder)
      (hlinked : (s.previousRecord b).isLinked = false)
      (hcurrent : current = { placeholder with isKnown := true })
      (hforks : s'.forks = (s.storeBlock b).forks.insert b.id current) :
      Placed s b (b.id, current) s'
  /-- It is new: it takes after its previous block. -/
  | fresh {current : ForkData} {s' : ForkState}
      (hplaceholder : (s.storeBlock b).forks.lookup b.id = none)
      (hcurrent : current =
        { isKnown := true
          isLinked := (s.previousRecord b).isLinked
          isValid := if (s.previousRecord b).invalid then some false else none
          invalidReason := if (s.previousRecord b).invalid then
            (s.previousRecord b).invalidReason else none })
      (hforks : s'.forks = (s.storeBlock b).forks.insert b.id current) :
      Placed s b (b.id, current) s'

/-- **`store_and_index`** keeps the tree and does one of the four. -/
theorem Tree.wp_storeAndIndex {total : Prop} (h : Tree s)
    (hnew : s.chain.blocks.lookup b.id = none) (hid : b.id ≠ nullId) {fuel : Nat}
    (hfuel : total → Shallow (s.storeBlock b).chain.blocks fuel) :
    Wp total (storeAndIndex fuel b) s fun r s' =>
      s' = { s.storeBlock b with forks := s'.forks } ∧ Tree s' ∧
        ∃ longest, r = .ok longest ∧ Placed s b longest s' := by
  simp only [storeAndIndex, wp_bind, wp_storeBlock, wp_get]
  cases hp : (s.storeBlock b).forks.lookup b.id with
  | none =>
    simp only [wp_bind, wp_storeFork, wp_pure]
    exact ⟨trivial, h.place hnew hid rfl (by rw [hp]; rfl), _, rfl, .fresh hp rfl rfl⟩
  | some p =>
    dsimp only
    split_ifs with hlinked hinvalid
    · -- awaited on an invalid block
      simp only [wp_bind, wp_storeFork, recursiveMarkAsInvalid]
      set current : ForkData := { p with
        isKnown := true
        isLinked := true
        isValid := some false
        invalidReason := (s.previousRecord b).invalidReason } with hcurrent
      have htree : Tree { s.storeBlock b with
          forks := (s.storeBlock b).forks.insert b.id current } :=
        h.place hnew hid rfl (by rw [hp]; rfl)
      have hlookup : ((s.storeBlock b).forks.insert b.id current).lookup b.id = some current :=
        Finmap.lookup_insert _
      refine (htree.wp_markDown (A := Unit) (isMark_invalidate _) hlookup hfuel
        (v := fun _ _ _ => pure ()) (J := fun _ _ => True)
        (fun _ _ _ _ _ _ _ _ _ => ⟨rfl, (), rfl, trivial⟩) trivial).mono fun r s' hr => ?_
      obtain ⟨-, rfl, hs', hmarked, -⟩ := hr
      refine ⟨hs', htree.of_same (hmarked.sameNodes hs' fun _ => ⟨rfl, rfl⟩), _, rfl, ?_⟩
      exact .invalid hp hlinked hinvalid hcurrent hmarked
    · -- awaited on a linked block
      simp only [wp_bind, wp_storeFork]
      set current : ForkData := { p with isKnown := true, isLinked := true } with hcurrent
      have htree : Tree { s.storeBlock b with
          forks := (s.storeBlock b).forks.insert b.id current } :=
        h.place hnew hid rfl (by rw [hp]; rfl)
      have hlookup : ((s.storeBlock b).forks.insert b.id current).lookup b.id = some current :=
        Finmap.lookup_insert _
      refine (htree.wp_recursiveMarkAsLinked hlookup hfuel).mono fun r s' hr => ?_
      obtain ⟨l, rfl, hs', hmarked, hl⟩ := hr
      refine ⟨hs', htree.of_same (hmarked.sameNodes hs' fun _ => ⟨rfl, rfl⟩), _, rfl, ?_⟩
      exact .linked hp hlinked (by simpa using hinvalid) hcurrent hmarked hl
    · simp only [wp_bind, wp_storeFork, wp_pure]
      exact ⟨trivial, h.place hnew hid rfl (by rw [hp]; rfl), _, rfl,
        .unlinked hp (by simpa using hlinked) rfl rfl⟩

end BitShares
