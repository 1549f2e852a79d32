import BitShares.Fork.Moves
import BitShares.Fork.Proof.Exact

/-!
# A push that applies no block

A switch takes blocks off before it finds that the fork is invalid, and `push_block` goes back to
the old chain by trying it like any other.

* `Exact.chain_of_quiet`: if every block of the active chain would be accepted again where its undo
  state leads back to, then a push that applies no block leaves the chain as it was.

`Sunk` describes the states in between: the head of the chain `c₀` at the start and some blocks
below it are taken off, and the last of these would be accepted.
-/

namespace BitShares

open Program ForkM

variable [Crypto]

/-! ## The statement -/

/-- Every block of the active chain would be accepted where its undo state leads back to. -/
def Reapplicable (extend : ChainState → FullBlock → Except Error ChainState) (c : ChainState) :
    Prop :=
  ∀ c₁ c₂ b, Relation.ReflTransGen (fun c c' => c.popBlock = .ok c') c c₁ → c₁.popBlock = .ok c₂ →
    c₁.blocks.lookup c₁.headId = some b → ∃ c₃, extend c₂ b = .ok c₃

theorem records_extendNever (extend : ChainState → FullBlock → Except Error ChainState) :
    Records (Moves.extendNever extend) := by
  have hnever : ∀ c b c', Moves.extendNever extend c b ≠ .ok c' := by
    intro c b c' h
    unfold Moves.extendNever at h
    split at h <;> cases h
  exact {
    blocks := fun c b c' h => absurd h (hnever c b c')
    headId := fun c b c' h => absurd h (hnever c b c')
    head := fun c b c' h => absurd h (hnever c b c')
    header := fun c b c' h => absurd h (hnever c b c')
    index := fun c b c' h => absurd h (hnever c b c')
    saved := fun c b c' h => absurd h (hnever c b c')
    kept := fun c b c' h => absurd h (hnever c b c') }

/-- Some blocks of the chain `c₀` are taken off, and none is put on. -/
structure Sunk (extend : ChainState → FullBlock → Except Error ChainState) (c₀ : ChainState)
    (s : ForkState) : Prop extends Exact s where
  same : s.chain.blocks = c₀.blocks
  rooted₀ : Rooted c₀.blocks c₀.headId
  seated₀ : c₀.headId = nullId ∧ c₀.head = .null ∨
    ∃ a, c₀.blocks.lookup c₀.headId = some a ∧ a.toSignedBlockHeader = c₀.head
  undone : Relation.ReflTransGen (fun c c' => c.popBlock = .ok c') c₀ s.chain
  record : ∀ a, c₀.blocks.lookup c₀.headId = some a →
    ∃ f, s.forks.lookup c₀.headId = some f ∧ f.canLink = true
  above : s.chain = c₀ ∨ ∃ d, c₀.blocks.lookup d.id = some d ∧ d.previous = s.chain.headId ∧
    (d.id = c₀.headId ∨ Descends c₀.blocks d.id c₀.headId) ∧ ∃ c, extend s.chain d = .ok c

namespace Sunk

variable {extend : ChainState → FullBlock → Except Error ChainState} {c₀ : ChainState}
  {s s' : ForkState} {b c d : FullBlock}

theorem top (h : Sunk extend c₀ s) (hc : c₀.blocks.lookup c₀.headId = some c) :
    c.blockNum = c₀.head.blockNum := by
  rcases h.seated₀ with ⟨hnull, -⟩ | ⟨a, ha, hhead⟩
  · rw [hnull, ← h.same, h.tree.null] at hc
    cases hc
  · obtain rfl := Option.some.inj (hc.symm.trans ha)
    rw [← hhead]

theorem num_le (h : Sunk extend c₀ s) (hd : c₀.blocks.lookup d.id = some d)
    (hreach : d.id = c₀.headId ∨ Descends c₀.blocks d.id c₀.headId) :
    d.blockNum ≤ c₀.head.blockNum := by
  rcases hreach with heq | hdesc
  · rw [heq] at hd
    exact (h.top hd).le
  · obtain ⟨a, ha⟩ := hdesc.known
    rw [← h.top ha]
    exact ((h.same ▸ h.ascending).lt_of_descends hdesc hd ha).le

theorem head_lt (h : Sunk extend c₀ s) (hne : s.chain ≠ c₀) :
    s.chain.head.blockNum < c₀.head.blockNum := by
  obtain ⟨d, hd, hprev, hreach, -⟩ := h.above.resolve_left hne
  refine lt_of_lt_of_le ?_ (h.num_le hd hreach)
  rw [← h.same] at hd
  rcases h.seated with ⟨-, hnull⟩ | ⟨a, ha, hhead⟩
  · rw [hnull]
    exact (h.ascending _ d hd).1
  · rw [← hhead]
    exact (h.ascending _ d hd).2 a (hprev ▸ ha)

theorem head_le (h : Sunk extend c₀ s) : s.chain.head.blockNum ≤ c₀.head.blockNum := by
  by_cases heq : s.chain = c₀
  · rw [heq]
  · exact (h.head_lt heq).le

/-- **The next block of the old chain** is not rejected. -/
theorem not_rejected (h : Sunk extend c₀ s) (hc : s.chain.blocks.lookup c.id = some c)
    (hprev : c.previous = s.chain.headId)
    (hreach : c.id = c₀.headId ∨ Descends c₀.blocks c.id c₀.headId) {e : Error}
    (hext : extend s.chain c = .error e) : False := by
  rcases h.above with heq | ⟨d, hd, hdprev, hdreach, chain, haccept⟩
  · -- nothing is below itself
    rw [heq] at hc hprev
    have hbelow : ∀ a, c₀.blocks.lookup c₀.headId = some a → a.blockNum < c.blockNum :=
      fun a ha => ((h.same ▸ h.ascending) _ c hc).2 a (hprev ▸ ha)
    rcases hreach with hid | hdesc
    · exact lt_irrefl _ (hbelow c (hid ▸ hc))
    · obtain ⟨a, ha⟩ := hdesc.known
      exact (hbelow a ha).not_gt ((h.same ▸ h.ascending).lt_of_descends hdesc hc ha)
  · -- the blocks on one head and under another are the same
    rw [h.same] at hc
    have hnull : NullFree c₀.blocks := h.same ▸ h.tree.null
    obtain ⟨l, hl⟩ : Rooted c₀.blocks s.chain.headId := h.same ▸ h.head
    obtain ⟨lt, hlt⟩ := h.rooted₀
    have hcl : Path c₀.blocks c.id (c :: l) := .block hc (hprev ▸ hl)
    have hdl : Path c₀.blocks d.id (d :: l) := .block hd (hdprev ▸ hl)
    have hsame := (List.suffix_of_suffix_length_le (hcl.suffix_of_reaches hnull hlt hreach)
      (hdl.suffix_of_reaches hnull hlt hdreach) (by simp)).eq_of_length (by simp)
    obtain ⟨rfl, -⟩ := List.cons.inj hsame
    rw [hext] at haccept
    cases haccept

/-! ## The steps -/

omit [Crypto] in
theorem extend_of_never [Crypto] {chain : ChainState} {e : Error} (he : e ≠ .endlessLoop)
    (h : Moves.extendNever extend chain c = .error e) : extend chain c = .error e := by
  unfold Moves.extendNever at h
  split at h
  · exact absurd (Except.error.inj h).symm he
  · rename_i e' heq
    rw [heq, Except.error.inj h]

theorem popBlock_popped {f : ForkData} {undo : Batch} {header : SignedBlockHeader} (h : Exact s)
    (hc : s.chain.blocks.lookup s.chain.headId = some c)
    (hundo : s.chain.undoStates.lookup s.chain.headId = some undo)
    (h' : Exact (s.popped f undo header)) :
    s.chain.popBlock = .ok (s.popped f undo header).chain := by
  have hnum : s.chain.head.blockNum ≠ 0 := by
    rw [h.headNum hc]
    exact (h.ascending _ c hc).1.ne'
  have hprev : s.chain.previousHeader = .ok header := by
    unfold ChainState.previousHeader
    rcases h'.seated with ⟨hnull, hheader⟩ | ⟨d, hd, hheader⟩
    · change s.chain.head.previous = nullId at hnull
      change header = .null at hheader
      rw [if_pos hnull, hheader]
    · change s.chain.blocks.lookup s.chain.head.previous = some d at hd
      change d.toSignedBlockHeader = header at hheader
      rw [if_neg, hd, ← hheader]
      · rfl
      · intro hnull
        rw [hnull, h.tree.null] at hd
        cases hd
  rw [ChainState.popBlock, if_neg hnum, hundo, hprev]
  rfl

theorem popped (h : Sunk extend c₀ s) (hre : Reapplicable extend c₀) {f : ForkData} {undo : Batch}
    {header : SignedBlockHeader} (hf : s.forks.lookup s.chain.headId = some f)
    (hc : s.chain.blocks.lookup s.chain.headId = some c)
    (hhead : c.toSignedBlockHeader = s.chain.head)
    (hundo : s.chain.undoStates.lookup s.chain.headId = some undo)
    (h' : Exact (s.popped f undo header)) : Sunk extend c₀ (s.popped f undo header) := by
  have hstep := popBlock_popped h.toExact hc hundo h'
  have hid : c.id = s.chain.headId := h.tree.own _ c hc
  refine ⟨h', h.same, h.rooted₀, h.seated₀, h.undone.tail hstep, fun a ha => ?_,
    .inr ⟨c, ?_, ?_, ?_, ?_⟩⟩
  · obtain ⟨g, hg, hlink⟩ := h.record a ha
    obtain ⟨g', hg', heq, -⟩ := Steady.lookup_marks
      (fun y => (Steady.marks_insert hf (g := { f with isIncluded := false }) rfl rfl y).symm) hg
    exact ⟨g', hg', heq ▸ hlink⟩
  · rw [← h.same, hid]
    exact hc
  · change c.previous = s.chain.head.previous
    rw [← hhead]
  · rw [hid]
    rcases h.above with heq | ⟨d, hd, hprev, hreach, -⟩
    · exact .inl (by rw [heq])
    · refine .inr ?_
      have hchild : Descends c₀.blocks s.chain.headId d.id := .child hd hprev
      rcases hreach with hreach | hreach
      · exact hreach ▸ hchild
      · exact hchild.trans hreach
  · exact hre s.chain _ c h.undone hstep hc

theorem rejected (h : Sunk extend c₀ s) (hc : s.chain.blocks.lookup c.id = some c)
    (hprev : c.previous = s.chain.headId) {e : Error} (hext : extend s.chain c = .error e)
    (hrej : Rejected s s' c e) (h' : Exact s') : Sunk extend c₀ s' := by
  refine ⟨h', ?_, h.rooted₀, h.seated₀, ?_, fun a ha => ?_, ?_⟩
  · rw [hrej.chain]
    exact h.same
  · rw [hrej.chain]
    exact h.undone
  · rw [hrej.forks.kept]
    · exact h.record a ha
    · rintro (heq | hdesc)
      · exact h.not_rejected hc hprev (.inl heq.symm) hext
      · exact h.not_rejected hc hprev (.inr (h.same ▸ hdesc)) hext
  · rw [hrej.chain]
    exact h.above

theorem noteFuture (h : Sunk extend c₀ s) (hb : s.chain.blocks.lookup b.id = some b) (e : Error) :
    Sunk extend c₀ (s.noteFuture b e) := by
  have hexact := h.toExact.noteFuture hb e
  unfold ForkState.noteFuture at hexact ⊢
  split_ifs at hexact ⊢
  · exact ⟨hexact, h.same, h.rooted₀, h.seated₀, h.undone, h.record, h.above⟩
  · exact h

/-! ## The scan -/

variable {fuel : Nat}

/-- **A switch to a block as high as the old head or higher** works only at the old head, and there
it does. -/
theorem wp_switch (h : Sunk extend c₀ s) (hre : Reapplicable extend c₀)
    (hb : c₀.blocks.lookup b.id = some b) {x : BlockId} (hx : c₀.blocks.lookup x = some c)
    (hle : c₀.head.blockNum ≤ c.blockNum) {f : ForkData} (hf : s.forks.lookup x = some f)
    (hlink : f.canLink = true) :
    Wp False (switchToFork (Moves.extendNever extend) fuel x) s fun r s' =>
      match r with
      | .ok _ => s'.chain = c₀
      | .error e => Sunk extend c₀ (s'.noteFuture b e) ∧ x ≠ c₀.headId := by
  rw [← h.same] at hx
  -- a head at the number of `x` is the old head
  have hback : ∀ s', Sunk extend c₀ s' → s'.chain.headId = x → s'.chain = c₀ := by
    intro s' h' hhead
    by_contra hne
    have hlt := h'.head_lt hne
    rw [h'.headNum (c := c) (by rw [hhead, h'.same, ← h.same]; exact hx)] at hlt
    exact hlt.not_ge hle
  by_cases hhead : s.chain.headId = x
  · rw [switchToFork, wp_bind, wp_get]
    dsimp only
    rw [if_pos hhead]
    exact hback s h hhead
  · refine (Exact.wp_switch (I := Sunk extend c₀)
      (E := fun e s' => Sunk extend c₀ (s'.noteFuture b e) ∧ x ≠ c₀.headId)
      (fun s h => h.toExact) (records_extendNever extend)
      (fun s₁ g d undo header h₁ hg hd hheader hundo h' => h₁.popped hre hg hd hheader hundo h')
      (fun s₁ d g chain h₁ hd hprev hdx hg hext h' => ?_)
      (fun s₁ s₂ d e h₁ hd hprev hdx hloop hext hrej h' => ?_) h hx hf hlink
      (h.not_active_of_le hx (h.head_le.trans hle) hhead)).mono fun r s' hr => ?_
    · unfold Moves.extendNever at hext
      split at hext <;> cases hext
    · have hext := extend_of_never hloop hext
      refine ⟨(h₁.rejected hd hprev hext hrej h').noteFuture ?_ e, ?_⟩
      · rw [hrej.chain, h₁.same]
        exact hb
      · rintro rfl
        exact h₁.not_rejected hd hprev (h₁.same ▸ hdx) hext
    · cases r with
      | ok u => exact hback s' hr.1.1 hr.1.2
      | error e => exact hr.1

/-- **The scan** goes back to the old head. -/
theorem wp_scan (h : Sunk extend c₀ s) (hre : Reapplicable extend c₀)
    (hb : c₀.blocks.lookup b.id = some b) {n : BlockNum} (hn : c₀.head.blockNum ≤ n) :
    Wp False (tryNumbers (Moves.extendNever extend) fuel b n) s fun _ s' => s'.chain = c₀ := by
  -- the old head is still to come
  refine (wp_tryNumbers
    (K := fun n s' => Sunk extend c₀ s' ∧ c₀.head.blockNum ≤ n)
    (J := fun n l s' => Sunk extend c₀ s' ∧
      (∀ x ∈ l, ∃ c, c₀.blocks.lookup x = some c ∧ c.blockNum = n) ∧
      c₀.head.blockNum ≤ n ∧ (c₀.head.blockNum = n → c₀.headId ∈ l))
    (D := fun s' => s'.chain = c₀)
    (fun n s₁ h₁ => ⟨h₁.1, fun x hx => ?_, h₁.2, fun heq => ?_⟩)
    (fun n s₁ h₁ => ⟨h₁.1, Nat.lt_succ_iff.1 (lt_of_le_of_ne h₁.2.2.1 fun heq => ?_)⟩)
    (fun n x l s₁ h₁ => ?_) (fun n x l s₁ f h₁ hf hlink => ?_)
    (fun n x l s₁ f h₁ hf hlink => ?_) n s ⟨h, hn⟩).mono fun r s' hr => ?_
  · rw [← h₁.1.same]
    exact (h₁.1.tree.numbers (n + 1) x).1 hx
  · rcases h₁.1.seated₀ with ⟨-, hnull⟩ | ⟨a, ha, -⟩
    · rw [hnull] at heq
      cases heq
    · exact (h₁.1.tree.numbers (n + 1) _).2 ⟨a, h₁.1.same ▸ ha, (h₁.1.top ha).trans heq⟩
  · cases h₁.2.2.2 heq
  · obtain ⟨c, hc, -⟩ := h₁.2.1 x List.mem_cons_self
    exact (h₁.1.tree.entered x c (h₁.1.same ▸ hc)).1
  · refine ⟨h₁.1, fun y hy => h₁.2.1 y (List.mem_cons_of_mem _ hy), h₁.2.2.1, fun heq =>
      (List.mem_cons.1 (h₁.2.2.2 heq)).resolve_left ?_⟩
    rintro rfl
    obtain ⟨a, ha, -⟩ := h₁.2.1 _ List.mem_cons_self
    obtain ⟨g, hg, hglink⟩ := h₁.1.record a ha
    obtain rfl := Option.some.inj (hf.symm.trans hg)
    rw [hlink] at hglink
    cases hglink
  · obtain ⟨c, hc, rfl⟩ := h₁.2.1 x List.mem_cons_self
    refine (h₁.1.wp_switch hre hb hc h₁.2.2.1 hf hlink).mono fun r s₂ hr => ?_
    cases r with
    | ok u => exact hr
    | error e =>
      exact ⟨hr.1, fun y hy => h₁.2.1 y (List.mem_cons_of_mem _ hy), h₁.2.2.1, fun heq =>
        (List.mem_cons.1 (h₁.2.2.2 heq)).resolve_left hr.2.symm⟩
  · obtain ⟨done, rfl, hr⟩ := hr
    cases done with
    | true => exact hr
    | false =>
      by_contra hne
      exact absurd ((hr.1.head_lt hne).trans_le hr.2) (Nat.not_lt_zero _)

end Sunk

/-- **A push that applies no block** leaves the chain as it was, with the block in the tree or not. -/
theorem Exact.chain_of_quiet {extend : ChainState → FullBlock → Except Error ChainState}
    {s s' : ForkState} {b : FullBlock} {fuel : Nat} (h : Exact s) (hc : s.Ascends b)
    (hshallow : NoDeepFork (s.chain.blocks.insert b.id b))
    (hre : Reapplicable extend { s.chain with blocks := s.chain.blocks.insert b.id b })
    {r : Except Error ForkData}
    (hrun : pushBlock (Moves.extendNever extend) fuel b s = some (r, s')) :
    s'.chain = { s.chain with blocks := s'.chain.blocks } := by
  obtain ⟨hid, hascending⟩ := hc
  have hwp : Wp False (pushBlock (Moves.extendNever extend) fuel b) s fun _ s' =>
      s'.chain = { s.chain with blocks := s'.chain.blocks } := by
    refine wp_pushBlock_cases h.toGrown rfl (fun _ _ _ => rfl) fun hnew => ?_
    have hchain : ∀ s₁ : ForkState, s₁ = { s.storeBlock b with forks := s₁.forks } →
        s₁.chain = { s.chain with blocks := s.chain.blocks.insert b.id b } := by
      intro s₁ hs₁
      rw [hs₁]
      rfl
    refine wp_placeBlock_cases h.toGrown hid hnew (fun longest s₁ hs₁ _ _ _ => ?_)
      fun longest s₁ d hs₁ hgrown hplaced _ _ hnum => ?_
    · rw [hchain s₁ hs₁]
    · have h₁ := h.placed hnew hid hascending hshallow hs₁ hgrown hplaced
      have hsunk : Sunk extend s₁.chain s₁ := by
        refine ⟨h₁, rfl, h₁.head, h₁.seated, .refl, fun a ha => ?_, .inl rfl⟩
        obtain ⟨l, hl⟩ := h₁.mirrored
        obtain ⟨f, hf, -, hlink⟩ := hl.flags a (h₁.mem_of_active hl ha (.inl rfl))
        rw [h₁.tree.own _ a ha] at hf
        exact ⟨f, hf, hlink⟩
      refine (hsunk.wp_scan (by rw [hchain s₁ hs₁]; exact hre) ?_ ?_).mono fun r s₂ hr => ?_
      · rw [hchain s₁ hs₁]
        exact Finmap.lookup_insert _
      · rw [hchain s₁ hs₁]
        exact hnum.le
      · rw [hr, hchain s₁ hs₁]
  exact hwp.of_eq hrun

end BitShares
