import BitShares.Fork.Moves
import BitShares.Fork.Proof.Steady

/-!
# The choice of a fork

If whether a block is valid depends on the block and its ancestors only, and no block is taken off
without its undo state, then `push_block` leaves the head at a valid block of the highest number
(`head_highest_of_run`), provided the numbers that blocks give themselves grow along the tree.  That
validity is fixed is asked of the calls of `extend_chain` that are made on the way (`Move.Agrees`); a
push in which all of them agree is one with an `extend_chain` that goes by the fixed verdicts
everywhere (`ruled`).

`store_and_index` hands back the highest block after an awaited block, but not the block itself.  So
a block that others already wait for is not even tried if these claim low numbers
(`awaited_block_skipped`).
-/

namespace BitShares

open Program ForkM

section

variable [Crypto]

/-! ## The statement -/

/-- A call of `extend_chain` has accepted a block as `valid` says of it and its ancestors. -/
def Move.Agrees (valid : List FullBlock → Prop) : Move → Prop
  | .popped => True
  | .tried c b accepted => ∀ l, Path c.blocks c.headId l → (accepted = true ↔ valid (b :: l))

def Sound (valid : List FullBlock → Prop) : List FullBlock → Prop
  | [] => True
  | b :: l => valid (b :: l) ∧ Sound valid l

def Good (valid : List FullBlock → Prop) (blocks : Table BlockId FullBlock) (x : BlockId) : Prop :=
  ∃ l, Path blocks x l ∧ Sound valid l

structure HeadHighest (valid : List FullBlock → Prop) (s : ForkState) : Prop where
  good : Good valid s.chain.blocks s.chain.headId
  highest : ∀ x c, s.chain.blocks.lookup x = some c → Good valid s.chain.blocks x →
    c.blockNum ≤ s.chain.head.blockNum

/-- Every call of `extend_chain` in a push agrees with `valid`. -/
def FixedBy (valid : List FullBlock → Prop)
    (extend : ChainState → FullBlock → Except Error ChainState) (fuel : Nat) (b : FullBlock)
    (s : ForkState) : Prop :=
  ∀ w ∈ Traced.log (Moves.pushBlock extend fuel b) s, w.Agrees valid

/-- The states reached by pushing blocks that meet `C`, where blocks are judged by `valid`. -/
inductive PushRun (extend : ChainState → FullBlock → Except Error ChainState)
    (valid : List FullBlock → Prop) (C : ForkState → FullBlock → Prop) :
    ForkState → ForkState → Prop
  | refl (s : ForkState) : PushRun extend valid C s s
  | push {s m s' : ForkState} {b : FullBlock} {r : Except Error ForkData} (fuel : Nat)
      (hc : C s b) (hfixed : FixedBy valid extend fuel b s)
      (h : pushBlock extend fuel b s = some (r, m))
      (hrest : PushRun extend valid C m s') : PushRun extend valid C s s'

theorem PushRun.induction {extend : ChainState → FullBlock → Except Error ChainState}
    {valid : List FullBlock → Prop} {C : ForkState → FullBlock → Prop} {I : ForkState → Prop}
    {s s' : ForkState} (hrun : PushRun extend valid C s s')
    (hstep : ∀ s b fuel r s', C s b → FixedBy valid extend fuel b s →
      pushBlock extend fuel b s = some (r, s') → I s → I s') (hs : I s) : I s' := by
  induction hrun with
  | refl s => exact hs
  | push fuel hc hfixed h _ ih => exact ih (hstep _ _ fuel _ _ hc hfixed h hs)

/-! ## Fixed verdicts -/

/-- Whether a block is accepted depends on the blocks from it down to the genesis block. -/
structure Judges (extend : ChainState → FullBlock → Except Error ChainState)
    (valid : List FullBlock → Prop) : Prop extends MovesHead extend where
  accepts : ∀ c b l, NullFree c.blocks → Path c.blocks c.headId l →
    ((∃ c', extend c b = .ok c') ↔ valid (b :: l))

/-- The head moves to `b`, whatever is in it. -/
def moveHead (c : ChainState) (b : FullBlock) : ChainState :=
  { c with headId := b.id, head := b.toSignedBlockHeader }

open Classical in
/-- `extend`, overruled where it does not go by `valid`. -/
noncomputable def ruled (valid : List FullBlock → Prop)
    (extend : ChainState → FullBlock → Except Error ChainState) (c : ChainState) (b : FullBlock) :
    Except Error ChainState :=
  if ∃ l, Path c.blocks c.headId l ∧ valid (b :: l) then .ok ((extend c b).toOption.getD (moveHead c b))
  else if Rooted c.blocks c.headId then (extend c b).bind fun _ => .error (.assertion "")
  else extend c b

variable {extend : ChainState → FullBlock → Except Error ChainState}

theorem judges_ruled (hmoves : MovesHead extend) (valid : List FullBlock → Prop) :
    Judges (ruled valid extend) valid := by
  have hmove : ∀ c b c', ruled valid extend c b = .ok c' → c' = moveHead c b ∨ extend c b = .ok c' := by
    intro c b c' h
    unfold ruled at h
    split_ifs at h
    · obtain rfl := Except.ok.inj h
      cases hext : extend c b with
      | ok c' => exact .inr rfl
      | error e => exact .inl rfl
    · cases hext : extend c b with
      | ok c' => rw [hext] at h; cases h
      | error e => rw [hext] at h; cases h
    · exact .inr h
  refine ⟨⟨fun c b c' h => ?_, fun c b c' h => ?_, fun c b c' h => ?_⟩, fun c b l hnull hl => ?_⟩
  · rcases hmove c b c' h with rfl | hext
    · rfl
    · exact hmoves.blocks c b c' hext
  · rcases hmove c b c' h with rfl | hext
    · rfl
    · exact hmoves.headId c b c' hext
  · rcases hmove c b c' h with rfl | hext
    · rfl
    · exact hmoves.head c b c' hext
  · have hvalid : (∃ l, Path c.blocks c.headId l ∧ valid (b :: l)) ↔ valid (b :: l) :=
      ⟨fun ⟨l', hl', h⟩ => (hl'.unique hnull hl) ▸ h, fun h => ⟨l, hl, h⟩⟩
    unfold ruled
    split_ifs with h hrooted
    · exact ⟨fun _ => hvalid.1 h, fun _ => ⟨_, rfl⟩⟩
    · refine ⟨fun ⟨c', hc'⟩ => ?_, fun h' => absurd (hvalid.2 h') h⟩
      cases hext : extend c b with
      | ok c' => rw [hext] at hc'; cases hc'
      | error e => rw [hext] at hc'; cases hc'
    · exact absurd ⟨l, hl⟩ hrooted

theorem ruled_eq {valid : List FullBlock → Prop} {c : ChainState} {b : FullBlock}
    (h : (Move.tried c b (extend c b).isOk).Agrees valid) : ruled valid extend c b = extend c b := by
  unfold ruled
  cases hext : extend c b with
  | ok c' =>
    rw [hext] at h
    split_ifs with hvalid hrooted
    · rfl
    · obtain ⟨l, hl⟩ := hrooted
      exact absurd ⟨l, hl, (h l hl).1 rfl⟩ hvalid
    · rfl
  | error e =>
    rw [hext] at h
    split_ifs with hvalid
    · obtain ⟨l, hl, hv⟩ := hvalid
      cases (h l hl).2 hv
    · rfl
    · rfl

/-- **A push whose verdicts are fixed** is one by an `extend_chain` that goes by them everywhere. -/
theorem pushBlock_ruled {valid : List FullBlock → Prop} {fuel : Nat} {b : FullBlock} {s : ForkState}
    (hfixed : FixedBy valid extend fuel b s) :
    pushBlock (ruled valid extend) fuel b s = pushBlock extend fuel b s :=
  Moves.pushBlock_congr extend (P := Move.Agrees valid) (fun _ _ h => ruled_eq h) fuel b s hfixed

/-! ## Good blocks -/

variable {valid : List FullBlock → Prop} {blocks : Table BlockId FullBlock}

omit [Crypto] in
theorem Good.previous (hnull : NullFree blocks) {x : BlockId} {c : FullBlock}
    (h : Good valid blocks x) (hc : blocks.lookup x = some c) : Good valid blocks c.previous := by
  obtain ⟨l, hl, hsound⟩ := h
  obtain ⟨l', rfl, hl'⟩ := hl.of_block hnull hc
  exact ⟨l', hl', hsound.2⟩

omit [Crypto] in
theorem Good.before (hnull : NullFree blocks) {x y : BlockId} (h : Good valid blocks y)
    (hy : x = y ∨ Descends blocks x y) : Good valid blocks x := by
  rcases hy with rfl | hy
  · exact h
  · induction hy with
    | child hb hx => exact hx ▸ h.previous hnull hb
    | next hb _ ih => exact ih (h.previous hnull hb)

omit [Crypto] in
theorem Good.of_insert {id x : BlockId} {b : FullBlock} (h : Good valid (blocks.insert id b) x)
    (hx : ¬ (x = id ∨ Descends (blocks.insert id b) id x)) : Good valid blocks x := by
  obtain ⟨l, hl, hsound⟩ := h
  rw [not_or] at hx
  exact ⟨l, hl.of_insert hx.1 hx.2, hsound⟩

omit [Crypto] in
theorem Good.insert {id x : BlockId} {b : FullBlock} (hnew : blocks.lookup id = none)
    (h : Good valid blocks x) : Good valid (blocks.insert id b) x := by
  obtain ⟨l, hl, hsound⟩ := h
  exact ⟨l, hl.insert hnew, hsound⟩

/-! ## The invariant -/

/-- The head is good, good blocks can be linked, and a record without a block is awaited by one. -/
structure Judged (valid : List FullBlock → Prop) (s : ForkState) : Prop extends Steady s where
  good : Good valid s.chain.blocks s.chain.headId
  linked : ∀ x, Good valid s.chain.blocks x → ∃ f, s.forks.lookup x = some f ∧ f.canLink = true
  awaited : ∀ x f, s.forks.lookup x = some f → x = nullId ∨
    (∃ c, s.chain.blocks.lookup x = some c) ∨
    ∃ y c, s.chain.blocks.lookup y = some c ∧ c.previous = x

namespace Judged

variable {s s' : ForkState} {b c : FullBlock}

theorem of_steady (h : Judged valid s) (hsteady : Steady s') (hsame : SameNodes s s')
    (hgood : Good valid s.chain.blocks s'.chain.headId)
    (hlinked : ∀ x f, Good valid s.chain.blocks x → s.forks.lookup x = some f → f.canLink = true →
      ∃ g, s'.forks.lookup x = some g ∧ g.canLink = true) : Judged valid s' := by
  refine ⟨hsteady, hsame.blocks ▸ hgood, fun x hx => ?_, fun x f hf => ?_⟩
  · rw [hsame.blocks] at hx
    obtain ⟨f, hf, hlink⟩ := h.linked x hx
    exact hlinked x f hx hf hlink
  · obtain ⟨g, hg, -⟩ := hsame.lookup hf
    rw [hsame.blocks]
    exact h.awaited x g hg

omit [Crypto] in
theorem canLink_insert {forks : Table BlockId ForkData} {y : BlockId} {f g : ForkData}
    (hf : forks.lookup y = some f) (hlink : f.canLink = true → g.canLink = true) (x : BlockId)
    (k : ForkData) (hk : forks.lookup x = some k) (hklink : k.canLink = true) :
    ∃ k', (forks.insert y g).lookup x = some k' ∧ k'.canLink = true := by
  rw [Table.lookup_insert_eq]
  split_ifs with hx
  · rw [hx, hf] at hk
    obtain rfl := Option.some.inj hk
    exact ⟨g, rfl, hlink hklink⟩
  · exact ⟨k, hk, hklink⟩

theorem popped (h : Judged valid s) {f : ForkData} {undo : Batch} {header : SignedBlockHeader}
    (hf : s.forks.lookup s.chain.headId = some f)
    (hc : s.chain.blocks.lookup s.chain.headId = some c)
    (hhead : c.toSignedBlockHeader = s.chain.head) (hsteady : Steady (s.popped f undo header)) :
    Judged valid (s.popped f undo header) := by
  refine h.of_steady hsteady (sameTree_popped hf undo header).toSameNodes ?_
    fun x k _ => canLink_insert (g := { f with isIncluded := false }) hf (fun hlink => hlink) x k
  change Good valid s.chain.blocks s.chain.head.previous
  rw [← hhead]
  exact h.good.previous h.tree.null hc

theorem stuck (h : Judged valid s) {f : ForkData} (hf : s.forks.lookup s.chain.headId = some f)
    (hsteady : Steady (s.stuck f)) : Judged valid (s.stuck f) :=
  h.of_steady hsteady (sameTree_stuck hf).toSameNodes h.good
    fun x k _ => canLink_insert (g := { f with isIncluded := false }) hf (fun hlink => hlink) x k

theorem extended (h : Judged valid s) (hjudges : Judges extend valid)
    (hc : s.chain.blocks.lookup c.id = some c) (hprev : c.previous = s.chain.headId) {f : ForkData}
    (hf : s.forks.lookup c.id = some f) {chain : ChainState} (hext : extend s.chain c = .ok chain)
    (hsteady : Steady (s.extended chain c f)) : Judged valid (s.extended chain c f) := by
  refine h.of_steady hsteady
    (sameTree_extended hf (hjudges.blocks _ _ _ hext)).toSameNodes ?_
    fun x k _ => canLink_insert hf (fun hlink => ?_) x k
  · obtain ⟨l, hl, hsound⟩ := h.good
    change Good valid s.chain.blocks chain.headId
    rw [hjudges.headId _ _ _ hext]
    exact ⟨c :: l, .block hc (hprev ▸ hl),
      (hjudges.accepts _ c l h.tree.null hl).1 ⟨chain, hext⟩, hsound⟩
  · simp [ForkData.canLink, ForkData.invalid, ForkData.linked_of_canLink hlink]

theorem not_good (h : Judged valid s) (hjudges : Judges extend valid)
    (hc : s.chain.blocks.lookup c.id = some c) (hprev : c.previous = s.chain.headId) {e : Error}
    (hext : extend s.chain c = .error e) : ¬ Good valid s.chain.blocks c.id := by
  rintro ⟨l, hl, hsound⟩
  obtain ⟨l', rfl, hl'⟩ := hl.of_block h.tree.null hc
  obtain ⟨chain, hok⟩ := (hjudges.accepts _ c l' h.tree.null (hprev ▸ hl')).2 hsound.1
  rw [hext] at hok
  cases hok

theorem rejected (h : Judged valid s) (hjudges : Judges extend valid)
    (hc : s.chain.blocks.lookup c.id = some c) (hprev : c.previous = s.chain.headId) {e : Error}
    (hext : extend s.chain c = .error e) (hrej : Rejected s s' c e) (hsteady : Steady s') :
    Judged valid s' := by
  refine h.of_steady hsteady hrej.sameTree.toSameNodes (by rw [hrej.chain]; exact h.good)
    fun x f hx hf hlink => ⟨f, ?_, hlink⟩
  rw [hrej.forks.kept x, hf]
  intro hV
  exact h.not_good hjudges hc hprev hext (hx.before h.tree.null (hV.imp_left Eq.symm))

theorem noteFuture (h : Judged valid s) (hb : s.chain.blocks.lookup b.id = some b) (e : Error) :
    Judged valid (s.noteFuture b e) := by
  refine ⟨h.toSteady.noteFuture hb e, ?_, ?_, ?_⟩
  · rw [ForkState.chain_noteFuture]
    exact h.good
  · rw [ForkState.chain_noteFuture, ForkState.forks_noteFuture]
    exact h.linked
  · rw [ForkState.chain_noteFuture, ForkState.forks_noteFuture]
    exact h.awaited

/-! ## Placing a block -/

section Placing

variable {longest : BlockId × ForkData}

theorem previous_canLink (h : Judged valid s)
    (hid : b.id ≠ nullId) {x : BlockId} (hgood : Good valid (s.chain.blocks.insert b.id b) x)
    (hx : x = b.id ∨ Descends (s.chain.blocks.insert b.id b) b.id x) :
    (s.previousRecord b).canLink = true := by
  have hnull : NullFree (s.chain.blocks.insert b.id b) := by
    rw [NullFree, Table.lookup_insert_eq, if_neg hid.symm]
    exact h.tree.null
  have hlookup : (s.chain.blocks.insert b.id b).lookup b.id = some b := Finmap.lookup_insert _
  have hbgood := hgood.before hnull (hx.imp_left Eq.symm)
  have hself : ¬ Descends (s.chain.blocks.insert b.id b) b.id b.id := by
    obtain ⟨l, hl, -⟩ := hbgood
    exact Rooted.not_descends_self hnull ⟨l, hl⟩
  have hprev : Good valid s.chain.blocks b.previous := by
    refine (hbgood.previous hnull hlookup).of_insert fun hafter => hself ?_
    rcases hafter with hafter | hafter
    · exact .child hlookup hafter
    · exact .next hlookup hafter
  obtain ⟨p, hp, hlink⟩ := h.linked _ hprev
  rw [ForkState.previousRecord_flags hp]
  exact hlink

theorem placed (h : Judged valid s) (hnew : s.chain.blocks.lookup b.id = none) (hid : b.id ≠ nullId)
    (hs' : s' = { s.storeBlock b with forks := s'.forks }) (hgrown : Grown s')
    (hplaced : Placed s b longest s') : Judged valid s' := by
  have hblocks : s'.chain.blocks = s.chain.blocks.insert b.id b := by rw [hs']; rfl
  have hhead : s'.chain.headId = s.chain.headId := by rw [hs']; rfl
  refine ⟨h.toSteady.placed hnew hid hs' hgrown hplaced, ?_, fun x hx => ?_, fun x f hf => ?_⟩
  · rw [hblocks, hhead]
    exact h.good.insert hnew
  · rw [hblocks] at hx
    by_cases hafter : x = b.id ∨ Descends (s.chain.blocks.insert b.id b) b.id x
    · have hprev := h.previous_canLink hid hx hafter
      have hstored : x = nullId ∨ ∃ c, s'.chain.blocks.lookup x = some c := by
        obtain ⟨l, hl, -⟩ := hx
        rw [hblocks]
        exact Rooted.known ⟨l, hl⟩
      have hrecord : ∃ f, s'.forks.lookup x = some f := by
        rcases hstored with rfl | ⟨c, hc⟩
        · exact hgrown.tree.genesis
        · exact (hgrown.tree.entered x c hc).1
      obtain ⟨f, hf⟩ := hrecord
      cases h.toSteady.joined hnew hid hplaced with
      | linked _ hall => exact ⟨f, hf, (hall x f hafter hf).1⟩
      | apart hapart _ =>
        rw [hprev] at hapart
        cases hapart
    · obtain ⟨f, hf, hlink⟩ := h.linked x (hx.of_insert hafter)
      rw [not_or] at hafter
      obtain ⟨g, hg, heq, -⟩ := Steady.placed_other hplaced hafter.1 hafter.2 hf
      exact ⟨g, hg, heq.trans hlink⟩
  · rw [hblocks]
    have hlookup : (s.chain.blocks.insert b.id b).lookup b.id = some b := Finmap.lookup_insert _
    by_cases hafter : x = b.id ∨ Descends (s.chain.blocks.insert b.id b) b.id x
    · rcases hafter with rfl | hafter
      · exact .inr (.inl ⟨b, hlookup⟩)
      · exact .inr (.inl hafter.known)
    · rw [not_or] at hafter
      rw [hplaced.lookup_other hafter.1 hafter.2] at hf
      split_ifs at hf with hprev
      · exact .inr (.inr ⟨b.id, b, hlookup, hprev.symm⟩)
      · have hkept : ∀ y c, s.chain.blocks.lookup y = some c →
            (s.chain.blocks.insert b.id b).lookup y = some c := by
          intro y c hc
          rw [Table.lookup_insert_eq, if_neg]
          · exact hc
          · rintro rfl
            rw [hnew] at hc
            cases hc
        rcases h.awaited x f hf with hx | ⟨c, hc⟩ | ⟨y, c, hc, hy⟩
        · exact .inl hx
        · exact .inr (.inl ⟨c, hkept x c hc⟩)
        · exact .inr (.inr ⟨y, c, hkept y c hc, hy⟩)

/-- **What `store_and_index` hands back** is at least as high as every block that has become good. -/
theorem placed_highest (h : Judged valid s) (hnew : s.chain.blocks.lookup b.id = none)
    (hid : b.id ≠ nullId) (hascending : Ascending (s.chain.blocks.insert b.id b))
    (hplaced : Placed s b longest s') {x : BlockId} {c : FullBlock}
    (hc : (s.chain.blocks.insert b.id b).lookup x = some c)
    (hgood : Good valid (s.chain.blocks.insert b.id b) x) :
    s.chain.blocks.lookup x = some c ∧ Good valid s.chain.blocks x ∨
      longest.2.canLink = true ∧ ∃ d, (s.chain.blocks.insert b.id b).lookup longest.1 = some d ∧
        c.blockNum ≤ d.blockNum := by
  have hlookup : (s.chain.blocks.insert b.id b).lookup b.id = some b := Finmap.lookup_insert _
  by_cases hafter : x = b.id ∨ Descends (s.chain.blocks.insert b.id b) b.id x
  case neg =>
    have hold := hgood.of_insert hafter
    rw [not_or] at hafter
    rw [Table.lookup_insert_eq, if_neg hafter.1] at hc
    exact .inl ⟨hc, hold⟩
  have hprev := h.previous_canLink hid hgood hafter
  have hall : ∀ y f, y = b.id ∨ Descends (s.chain.blocks.insert b.id b) b.id y →
      s'.forks.lookup y = some f → f.canLink = true := by
    intro y f hy hf
    cases h.toSteady.joined hnew hid hplaced with
    | linked _ hall => exact (hall y f hy hf).1
    | apart hapart _ =>
      rw [hprev] at hapart
      cases hapart
  have hself : b.previous ≠ b.id := fun heq => lt_irrefl _
    ((hascending b.id b hlookup).2 b (heq ▸ hlookup))
  right
  cases hplaced with
  | invalid _ _ hinvalid _ _ =>
    rw [ForkData.not_invalid hprev] at hinvalid
    cases hinvalid
  | unlinked _ hlinked _ _ =>
    rw [ForkData.linked_of_canLink hprev] at hlinked
    cases hlinked
  | @fresh current _ hp _ hforks =>
    -- nothing waits for the block
    rcases hafter with rfl | hafter
    · obtain rfl := Option.some.inj (hlookup.symm.trans hc)
      refine ⟨hall b.id current (.inl rfl) ?_, b, hlookup, Nat.le_refl _⟩
      rw [hforks]
      exact Finmap.lookup_insert _
    · obtain ⟨y, d, hd, hy⟩ := hafter.hasNext
      exact absurd hy (h.tree.not_awaited hp y d hd)
  | @linked placeholder current _ l hp _ _ _ hmarked hlongest =>
    -- a block waits for this one
    obtain ⟨y, d, hd, hy⟩ : ∃ y d, s.chain.blocks.lookup y = some d ∧ d.previous = b.id := by
      rw [s.forks_storeBlock, if_neg hself.symm] at hp
      rcases h.awaited b.id placeholder hp with hnull | ⟨d, hd⟩ | hwaits
      · exact absurd hnull hid
      · rw [hnew] at hd
        cases hd
      · exact hwaits
    have hne : y ≠ b.id := by
      rintro rfl
      rw [hnew] at hd
      cases hd
    have hd' : (s.chain.blocks.insert b.id b).lookup y = some d := by
      rw [Table.lookup_insert_eq, if_neg hne]
      exact hd
    have hhighest : d.blockNum ≤ l.num := hlongest.highest y (.child hd' hy) d hd'
    have hpositive := (hascending y d hd').1
    obtain ⟨hV, ⟨e, he, hnum⟩, g, hg, hfork⟩ := hlongest.seen.resolve_left
      (hpositive.trans_le hhighest).ne'
    refine ⟨?_, e, he, ?_⟩
    · refine hall l.id l.fork (.inr hV) ?_
      rw [hmarked.marked l.id hV, hfork]
      exact congrArg (Option.map ForkData.link) hg
    · rw [hnum]
      rcases hafter with rfl | hafter
      · obtain rfl := Option.some.inj (hlookup.symm.trans hc)
        exact ((hascending y d hd').2 b (hy ▸ hlookup)).le.trans hhighest
      · exact hlongest.highest x hafter c hc

end Placing

/-! ## The scan -/

variable {fuel : Nat}

/-- **A switch** works if the block is good, unless one is taken off without its undo state. -/
theorem wp_switch (h : Judged valid s) (hjudges : Judges extend valid)
    (hb : s.chain.blocks.lookup b.id = some b) {x : BlockId}
    (hx : ∃ c, s.chain.blocks.lookup x = some c) {f : ForkData} (hf : s.forks.lookup x = some f)
    (hlink : f.canLink = true) :
    Wp False (switchToFork extend fuel x) s fun r s' =>
      ((match r with
        | .ok _ => Judged valid s' ∧ s'.chain.headId = x
        | .error e => Judged valid (s'.noteFuture b e) ∧
            (s'.poppedBlind = true ∨ ¬ Good valid s.chain.blocks x)) ∧
        (s.poppedBlind = true → s'.poppedBlind = true)) ∧ s'.chain.blocks = s.chain.blocks := by
  refine (Steady.wp_switch
    (fun _ s' => Judged valid s' ∧ s'.chain.blocks = s.chain.blocks ∧
      (s.poppedBlind = true → s'.poppedBlind = true))
    (E := fun e s' => (Judged valid (s'.noteFuture b e) ∧
      (s'.poppedBlind = true ∨ ¬ Good valid s.chain.blocks x)) ∧
      (s.poppedBlind = true → s'.poppedBlind = true))
    (fun s h => h.1.toSteady) hjudges.toMovesHead (fun _ _ => ⟨h, rfl, id⟩) (fun _ _ h => h)
    (fun _ s f c undo header h _ hf hc hhead _ hsteady => ⟨h.1.popped hf hc hhead hsteady, h.2⟩)
    (fun _ s₁ f h _ hf _ hsteady =>
      ⟨⟨(h.1.stuck hf hsteady).noteFuture ?_ _, .inl rfl⟩, fun _ => rfl⟩)
    (fun s₁ c f chain h hc hprev hcx hf hlink hext hsteady =>
      ⟨h.1.extended hjudges hc hprev hf hext hsteady, ?_, h.2.2⟩)
    (fun s₁ s₂ c f e h hc hprev hcx hf hlink _ hext hrej hsteady =>
      ⟨⟨(h.1.rejected hjudges hc hprev hext hrej hsteady).noteFuture ?_ e, .inr fun hgood => ?_⟩, ?_⟩)
    ⟨h, rfl, id⟩ hx hf hlink).mono fun r s' hr => ?_
  · change s₁.chain.blocks.lookup b.id = some b
    rw [h.2.1]
    exact hb
  · exact (hjudges.blocks _ _ _ hext).trans h.2.1
  · rw [hrej.chain, h.2.1]
    exact hb
  · rw [← h.2.1] at hgood
    exact h.1.not_good hjudges hc hprev hext (hgood.before h.1.tree.null hcx)
  · rw [hrej.rest]
    exact h.2.2
  · cases r with
    | ok u => exact ⟨⟨⟨hr.1.1.1, hr.1.2⟩, hr.1.1.2.2⟩, hr.2⟩
    | error e => exact hr

/-- **The scan** from a number that no good block exceeds stops at the highest good block. -/
theorem wp_scan (h : Judged valid s) (hjudges : Judges extend valid)
    (hb : s.chain.blocks.lookup b.id = some b) {n : BlockNum}
    (hn : s.poppedBlind = true ∨ ∀ x c, s.chain.blocks.lookup x = some c →
      Good valid s.chain.blocks x → c.blockNum ≤ n) :
    Wp False (tryNumbers extend fuel b n) s fun _ s' =>
      Judged valid s' ∧ s'.chain.blocks = s.chain.blocks ∧
        (s'.poppedBlind = true ∨ HeadHighest valid s') := by
  -- with `l` still to try at number `n`, the good blocks of that number are in `l`
  refine (wp_tryNumbers
    (K := fun n s' => Judged valid s' ∧ s'.chain.blocks = s.chain.blocks ∧
      (s'.poppedBlind = true ∨ ∀ x c, s.chain.blocks.lookup x = some c →
        Good valid s.chain.blocks x → c.blockNum ≤ n))
    (J := fun n l s' => Judged valid s' ∧ s'.chain.blocks = s.chain.blocks ∧
      (∀ x ∈ l, ∃ c, s.chain.blocks.lookup x = some c ∧ c.blockNum = n) ∧
      (s'.poppedBlind = true ∨ ∀ x c, s.chain.blocks.lookup x = some c →
        Good valid s.chain.blocks x → c.blockNum < n ∨ c.blockNum = n ∧ x ∈ l))
    (D := fun s' => Judged valid s' ∧ s'.chain.blocks = s.chain.blocks ∧
      (s'.poppedBlind = true ∨ HeadHighest valid s'))
    (fun n s₁ h₁ => ⟨h₁.1, h₁.2.1, fun x hx => ?_, h₁.2.2.imp_right fun hall x c hc hgood => ?_⟩)
    (fun n s₁ h₁ => ⟨h₁.1, h₁.2.1, h₁.2.2.2.imp_right fun hall x c hc hgood => ?_⟩)
    (fun n x l s₁ h₁ => ?_) (fun n x l s₁ f h₁ hf hlink => ?_)
    (fun n x l s₁ f h₁ hf hlink => ?_) n s ⟨h, rfl, hn⟩).mono fun r s' hr => ?_
  · rw [← h₁.2.1]
    exact (h₁.1.tree.numbers (n + 1) x).1 hx
  · refine (Nat.lt_or_eq_of_le (hall x c hc hgood)).imp_right fun hnum => ⟨hnum, ?_⟩
    exact (h₁.1.tree.numbers (n + 1) x).2 ⟨c, h₁.2.1 ▸ hc, hnum⟩
  · rcases hall x c hc hgood with hlt | ⟨-, hmem⟩
    · exact Nat.lt_succ_iff.1 hlt
    · cases hmem
  · obtain ⟨c, hc, -⟩ := h₁.2.2.1 x List.mem_cons_self
    exact (h₁.1.tree.entered x c (h₁.2.1 ▸ hc)).1
  · -- a block that cannot be linked is not good
    refine ⟨h₁.1, h₁.2.1, fun y hy => h₁.2.2.1 y (List.mem_cons_of_mem _ hy),
      h₁.2.2.2.imp_right fun hall y c hc hgood => ?_⟩
    refine (hall y c hc hgood).imp_right fun ⟨hnum, hmem⟩ => ⟨hnum, ?_⟩
    refine (List.mem_cons.1 hmem).resolve_left ?_
    rintro rfl
    obtain ⟨g, hg, hglink⟩ := h₁.1.linked y (h₁.2.1 ▸ hgood)
    obtain rfl := Option.some.inj (hf.symm.trans hg)
    rw [hlink] at hglink
    cases hglink
  · obtain ⟨c, hc, hnum⟩ := h₁.2.2.1 x List.mem_cons_self
    refine (h₁.1.wp_switch hjudges (h₁.2.1 ▸ hb) ⟨c, h₁.2.1 ▸ hc⟩ hf hlink).mono fun r s₂ hr => ?_
    obtain ⟨⟨hr, hblind⟩, hblocks⟩ := hr
    have hblocks' := hblocks.trans h₁.2.1
    cases r with
    | ok u =>
      refine ⟨hr.1, hblocks', h₁.2.2.2.imp hblind fun hall => ⟨hr.1.good, fun y d hd hgood => ?_⟩⟩
      rw [hr.1.toGrown.headNum (c := c) (by rw [hr.2, hblocks']; exact hc), hnum]
      rw [hblocks'] at hd hgood
      rcases hall y d hd hgood with hlt | ⟨heq, -⟩
      · exact hlt.le
      · exact heq.le
    | error e =>
      refine ⟨hr.1, by rw [ForkState.chain_noteFuture]; exact hblocks',
        fun y hy => h₁.2.2.1 y (List.mem_cons_of_mem _ hy), ?_⟩
      have hnoted : (s₂.noteFuture b e).poppedBlind = s₂.poppedBlind := by
        unfold ForkState.noteFuture
        split_ifs <;> rfl
      rw [hnoted]
      rcases h₁.2.2.2 with hstart | hall
      · exact .inl (hblind hstart)
      · refine hr.2.imp_right fun hbad y d hd hgood => ?_
        refine (hall y d hd hgood).imp_right fun ⟨hnum, hmem⟩ => ⟨hnum, ?_⟩
        refine (List.mem_cons.1 hmem).resolve_left ?_
        rintro rfl
        exact hbad (h₁.2.1 ▸ hgood)
  · obtain ⟨done, rfl, hr⟩ := hr
    cases done with
    | true => exact hr
    | false =>
      refine ⟨hr.1, hr.2.1, hr.2.2.imp_right fun hall => ⟨hr.1.good, fun y d hd hgood => ?_⟩⟩
      rw [hr.2.1] at hd hgood
      exact (hall y d hd hgood).trans (Nat.zero_le _)

/-- **Placing a new block** leaves the head at the highest good block. -/
theorem wp_place (h : Judged valid s) (hjudges : Judges extend valid) (hc : s.Ascends b)
    (hnew : s.chain.blocks.lookup b.id = none)
    (hbest : s.poppedBlind = true ∨ HeadHighest valid s) :
    Wp False (placeBlock extend fuel b s.chain.head.blockNum) s fun _ s' =>
      Judged valid s' ∧ s'.chain.blocks = s.chain.blocks.insert b.id b ∧
        (s'.poppedBlind = true ∨ HeadHighest valid s') := by
  obtain ⟨hid, hascending⟩ := hc
  -- a good block is not above the head or what `store_and_index` hands back
  have hgood : ∀ longest s₁, s₁ = { s.storeBlock b with forks := s₁.forks } →
      Placed s b longest s₁ → s₁.poppedBlind = true ∨ ∀ x c, s₁.chain.blocks.lookup x = some c →
        Good valid s₁.chain.blocks x → c.blockNum ≤ s.chain.head.blockNum ∨
          longest.2.canLink = true ∧ ∃ d, s₁.chain.blocks.lookup longest.1 = some d ∧
            c.blockNum ≤ d.blockNum := by
    intro longest s₁ hs₁ hplaced
    have hblocks : s₁.chain.blocks = s.chain.blocks.insert b.id b := by rw [hs₁]; rfl
    have hblind : s₁.poppedBlind = s.poppedBlind := by rw [hs₁]; rfl
    rw [hblind, hblocks]
    refine hbest.imp_right fun hbest x c hc hgood => ?_
    exact (h.placed_highest hnew hid hascending hplaced hc hgood).imp_left fun hold =>
      hbest.highest x c hold.1 hold.2
  refine wp_placeBlock_cases h.toGrown hid hnew (fun longest s₁ hs₁ hgrown hplaced hlow => ?_)
    fun longest s₁ d hs₁ hgrown hplaced hlink hd hnum => ?_
  · have h₁ := h.placed hnew hid hs₁ hgrown hplaced
    have hhead : s₁.chain.head = s.chain.head := by rw [hs₁]; rfl
    refine ⟨h₁, by rw [hs₁]; rfl,
      (hgood longest s₁ hs₁ hplaced).imp_right fun hall => ⟨h₁.good, fun x c hc hx => ?_⟩⟩
    rw [hhead]
    rcases hall x c hc hx with hle | ⟨hlink, d, hd, hle⟩
    · exact hle
    · exact hle.trans (hlow d hlink hd)
  · have h₁ := h.placed hnew hid hs₁ hgrown hplaced
    have hblocks : s₁.chain.blocks = s.chain.blocks.insert b.id b := by rw [hs₁]; rfl
    have hb : s₁.chain.blocks.lookup b.id = some b := by
      rw [hblocks]
      exact Finmap.lookup_insert _
    refine (h₁.wp_scan hjudges hb (n := d.blockNum) ?_).mono fun r s₂ hr =>
      ⟨hr.1, hr.2.1.trans hblocks, hr.2.2⟩
    refine (hgood longest s₁ hs₁ hplaced).imp_right fun hall x c hc hx => ?_
    rcases hall x c hc hx with hle | ⟨-, d', hd', hle⟩
    · exact hle.trans hnum.le
    · rwa [Option.some.inj (hd.symm.trans hd')]

/-- **`push_block`** leaves the head at the highest good block, and never lower than before. -/
theorem push (h : Judged valid s) (hjudges : Judges extend valid) (hc : s.Ascends b)
    (hbest : s.poppedBlind = true ∨ HeadHighest valid s) {r : Except Error ForkData}
    (hrun : pushBlock extend fuel b s = some (r, s')) :
    Judged valid s' ∧ (s'.poppedBlind = true ∨ HeadHighest valid s' ∧
      s.chain.head.blockNum ≤ s'.chain.head.blockNum) := by
  have hkept : Judged valid s ∧ (s.poppedBlind = true ∨ HeadHighest valid s ∧
      s.chain.head.blockNum ≤ s.chain.head.blockNum) :=
    ⟨h, hbest.imp_right fun hbest => ⟨hbest, Nat.le_refl _⟩⟩
  have hwp : Wp False (pushBlock extend fuel b) s fun _ s' => Judged valid s' ∧
      (s'.poppedBlind = true ∨ HeadHighest valid s' ∧
        s.chain.head.blockNum ≤ s'.chain.head.blockNum) := by
    refine wp_pushBlock_cases h.toGrown hkept (fun _ _ _ => hkept) fun hnew => ?_
    refine (h.wp_place hjudges hc hnew hbest).mono fun r s' hr => ⟨hr.1, ?_⟩
    refine hr.2.2.imp_right fun hbest' => ⟨hbest', ?_⟩
    -- the old head is still good
    rcases h.seated with ⟨-, hnull⟩ | ⟨c, hc, hhead⟩
    · rw [hnull]
      exact Nat.zero_le _
    · rw [← hhead]
      refine hbest'.highest s.chain.headId c ?_ (hr.2.1 ▸ h.good.insert hnew)
      rw [hr.2.1, Table.lookup_insert_eq, if_neg]
      · exact hc
      · intro heq
        rw [heq, hnew] at hc
        cases hc
  exact hwp.of_eq hrun

theorem genesis (tables : ChainTables) : Judged valid (.genesis tables) := by
  refine ⟨.genesis tables, ⟨[], .genesis, trivial⟩, fun x hx => ?_, fun x f hf => .inl ?_⟩
  · obtain ⟨l, hl, -⟩ := hx
    rcases Rooted.known ⟨l, hl⟩ with rfl | ⟨c, hc⟩
    · exact ⟨_, Finmap.lookup_singleton_eq, rfl⟩
    · cases hc
  · exact (Table.eq_of_lookup_singleton hf).1

end Judged

/-- **The head is a valid block of the highest number**, after every sequence of pushes whose
numbers grow along the tree and whose verdicts are fixed; and a further push does not lower it. -/
theorem head_highest_of_run (extend : ChainState → FullBlock → Except Error ChainState)
    (hmoves : MovesHead extend) (valid : List FullBlock → Prop) (tables : ChainTables)
    (s : ForkState) (hrun : PushRun extend valid ForkState.Ascends (.genesis tables) s)
    (hundo : s.poppedBlind = false) :
    HeadHighest valid s ∧ ∀ b fuel r s', s.Ascends b → FixedBy valid extend fuel b s →
      pushBlock extend fuel b s = some (r, s') → s'.poppedBlind = false →
      s.chain.head.blockNum ≤ s'.chain.head.blockNum := by
  have hjudges := judges_ruled hmoves valid
  have hinv : Judged valid s ∧ (s.poppedBlind = true ∨ HeadHighest valid s) := by
    refine hrun.induction
      (I := fun s => Judged valid s ∧ (s.poppedBlind = true ∨ HeadHighest valid s))
      (fun s b fuel r s' hc hfixed hpush hs => ?_)
      ⟨.genesis tables, .inr ⟨⟨[], .genesis, trivial⟩, fun x c hc => (by cases hc)⟩⟩
    obtain ⟨h', hbest'⟩ := hs.1.push hjudges hc hs.2 ((pushBlock_ruled hfixed).trans hpush)
    exact ⟨h', hbest'.imp_right And.left⟩
  obtain ⟨h, hbest⟩ := hinv
  have hsure : ∀ {t : ForkState} {P : Prop}, t.poppedBlind = false → t.poppedBlind = true ∨ P → P := by
    intro t P hfalse hP
    exact hP.resolve_left (by rw [hfalse]; exact Bool.false_ne_true)
  refine ⟨hsure hundo hbest, fun b fuel r s' hc hfixed hpush hundo' => ?_⟩
  exact (hsure hundo' (h.push hjudges hc hbest ((pushBlock_ruled hfixed).trans hpush)).2).2

/-! ## Blocks that are on time -/

/-- Push blocks as long as they pass a check. -/
def checkedPushes (extend : ChainState → FullBlock → Except Error ChainState)
    (check : ForkState → FullBlock → Bool) (fuel : Nat) (bs : List FullBlock) (s : ForkState) :
    Option ForkState :=
  bs.foldlM (fun s b => if check s b then (pushBlock extend fuel b s).map (·.2) else none) s

theorem PushRun.of_checkedPushes {valid : List FullBlock → Prop} {C : ForkState → FullBlock → Prop}
    {check : ForkState → FullBlock → Bool} {fuel : Nat}
    (hcheck : ∀ s b, check s b = true → C s b ∧ FixedBy valid extend fuel b s) {bs : List FullBlock}
    {s s' : ForkState} (h : checkedPushes extend check fuel bs s = some s') :
    PushRun extend valid C s s' := by
  refine foldlM_run .refl (fun s b _ m s' hm hrest => ?_) h
  obtain ⟨hb, hm⟩ := Option.ite_none_right_eq_some.1 hm
  obtain ⟨⟨r, m⟩, hpush, rfl⟩ := Option.map_eq_some_iff.1 hm
  exact .push fuel (hcheck s b hb).1 (hcheck s b hb).2 hpush hrest

/-- A block is in a slot, and later than the block that it is on. -/
def OnTime : List FullBlock → Prop
  | [] => False
  | b :: l => b.timestamp % BLOCK_INTERVAL_SEC = 0 ∧ (l.head?.map (·.timestamp)).getD 0 < b.timestamp

/-- The head of the path is found in the table. -/
def Move.agreesOnTime : Move → Bool
  | .popped => true
  | .tried c b accepted => decide (c.blocks.lookup nullId = none) &&
      accepted == decide (b.timestamp % BLOCK_INTERVAL_SEC = 0 ∧
        ((c.blocks.lookup c.headId).map (·.timestamp)).getD 0 < b.timestamp)

omit [Crypto] in
theorem Move.agrees_onTime {m : Move} (h : m.agreesOnTime = true) : m.Agrees OnTime := by
  cases m with
  | popped => trivial
  | tried c b accepted =>
    intro l hl
    rw [agreesOnTime, Bool.and_eq_true, decide_eq_true_eq, beq_iff_eq] at h
    obtain ⟨hnull, rfl⟩ := h
    rw [decide_eq_true_eq, OnTime, hl.head?_eq hnull]

end

/-- Blocks of a tree with an orphan, a branch that is not valid and a switch are pushed, and judged by
`extend_chain`. -/
theorem head_highest_branched :
    letI := Crypto.timed
    ∃ s, PushRun (fun c b => c.extendChainOn { clock := 100 } b) OnTime ForkState.Ascends
        (.genesis (soloTables 100)) s ∧ s.chain.head.timestamp = 70 ∧ HeadHighest OnTime s := by
  let := Crypto.timed
  let extend : ChainState → FullBlock → Except Error ChainState :=
    fun c b => c.extendChainOn { clock := 100 } b
  let check : ForkState → FullBlock → Bool := fun s b => decide (s.Ascends b) &&
    (Traced.log (Moves.pushBlock extend 9 b) s).all Move.agreesOnTime
  obtain ⟨s, hs, htime, hundo⟩ := exists_some_of_any
    (o := checkedPushes extend check 9 branchedBlocks (.genesis (soloTables 100)))
    (p := fun s => s.chain.head.timestamp = 70 ∧ s.poppedBlind = false) (by decide +kernel)
  have hrun : PushRun extend OnTime ForkState.Ascends (.genesis (soloTables 100)) s := by
    refine .of_checkedPushes (fun s b hb => ?_) hs
    obtain ⟨hascends, hagrees⟩ := Bool.and_eq_true_iff.1 hb
    exact ⟨of_decide_eq_true hascends, fun m hm =>
      Move.agrees_onTime (List.all_eq_true.1 hagrees m hm)⟩
  exact ⟨s, hrun, htime, (head_highest_of_run extend (movesHead_extendChainOn _) _ _ s hrun hundo).1⟩

/-- **A block that is skipped**: a block without a number waits for block 1, so block 1 is not tried
when it comes, though it would be accepted. -/
theorem awaited_block_skipped :
    letI := Crypto.transparent
    let extend : ChainState → FullBlock → Except Error ChainState :=
      fun c b => c.extendChainOn { clock := 100 } b
    ∃ s, PushRun extend (fun _ => True) (fun _ _ => True) (.genesis (soloTables 100)) s ∧
      s.poppedBlind = false ∧ (extend s.chain (soloBlock 1 nullId 10 [])).isOk ∧
      ¬ HeadHighest (fun _ => True) s := by
  let := Crypto.transparent
  intro extend
  let block := soloBlock 1 nullId 10 []
  let orphan := soloBlock 0 block.id 20 []
  -- nothing is tried in either push
  let check : ForkState → FullBlock → Bool := fun s b =>
    (Traced.log (Moves.pushBlock extend 9 b) s).isEmpty
  obtain ⟨s, hs, hnum, hundo, hstored, hok⟩ := exists_some_of_any
    (o := checkedPushes extend check 9 [orphan, block] (.genesis (soloTables 100)))
    (p := fun s => s.chain.head.blockNum = 0 ∧ s.poppedBlind = false ∧
      s.chain.blocks.lookup block.id = some block ∧ (extend s.chain block).isOk = true)
    (by decide +kernel)
  refine ⟨s, .of_checkedPushes (fun s b hb => ⟨trivial, fun m hm => ?_⟩) hs, hundo, hok, fun h => ?_⟩
  · rw [List.isEmpty_iff.1 hb] at hm
    cases hm
  · have hle := h.highest block.id block hstored
      ⟨[block], .block hstored .genesis, trivial, trivial⟩
    rw [hnum] at hle
    exact absurd hle (by decide)

end BitShares
