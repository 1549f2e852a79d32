import BitShares.Chain.Proof.Errors
import BitShares.Fork.Proof.Steady

/-!
# Blocks from the future

If a switch fails because a block is from the future, `push_block` keeps the id of the block being
pushed for the next restart, whichever block failed.  A restart then does what it is for
(`revalidated_of_run`) after every sequence of pushes in which only the pushed block can be from the
future: every other stored block that is connected to the genesis block once the new one is there,
and is not marked invalid, is at most two intervals ahead of the clock.  Otherwise a block that
failed stays invalid, or a block of the active chain loses its mark (`revalidated_included`).

Proved with `Tracked`, which is `Steady` with the remembered blocks.
-/

namespace BitShares

open Program ForkM

section

variable [Crypto]

/-- Only the pushed block can be from the future, and no script says that one is. -/
def ForkEvent.FutureAlone (s : ForkState) : ForkEvent → Prop
  | .push cfg b => (b.id ≠ nullId ∧ ∀ node ∈ cfg.games, node.toGameClient.SparesFuture) ∧
      ∀ x c, s.chain.blocks.lookup x = some c → Rooted (s.chain.blocks.insert b.id b) x →
        (∀ f, s.forks.lookup x = some f → f.invalid = false) →
        c.timestamp ≤ cfg.clock + BLOCK_INTERVAL_SEC * 2
  | .restart => False

/-- What a restart is for: the blocks rejected with `time_in_future`, and what comes after them, are
unchecked afterwards, and the included blocks keep their marks. -/
structure Revalidated (s s' : ForkState) : Prop where
  unchecked : ∀ x ∈ s.rejectedAsFuture, ∀ y, y = x ∨ Descends s.chain.blocks x y →
    ∃ f, s'.forks.lookup y = some f ∧ f.isValid = none
  included : ∀ x f, s.forks.lookup x = some f → f.isIncluded = true →
    ∃ g, s'.forks.lookup x = some g ∧ g.isValid = f.isValid

/-- The blocks rejected as from the future are remembered and invalid. -/
structure Tracked (s : ForkState) : Prop extends Steady s where
  remembered : ∀ x ∈ s.futureBlocks, ∃ f, s.forks.lookup x = some f ∧ f.invalid = true
  kept : ∀ x ∈ s.rejectedAsFuture, x ∈ s.futureBlocks

namespace Tracked

variable {s s' : ForkState} {b : FullBlock}

theorem revalidated (h : Tracked s)
    (hmarked : MarkedBy ForkData.uncheck s.Revisited s.forks s'.forks) : Revalidated s s' where
  unchecked x hx y hy := by
    have hstored : ∃ c, s.chain.blocks.lookup y = some c := by
      rcases hy with rfl | hy
      · exact h.future y (h.kept y hx)
      · exact hy.known
    obtain ⟨c, hc⟩ := hstored
    obtain ⟨f, hf⟩ := (h.tree.entered y c hc).1
    exact ⟨f.uncheck, by rw [hmarked.marked y ⟨x, h.kept x hx, hy⟩, hf, Option.map_some], rfl⟩
  included x f hf hincluded := by
    refine ⟨f, ?_, rfl⟩
    rw [hmarked.kept x, hf]
    -- a remembered block is invalid, so it is not below an included one
    rintro ⟨z, hz, hzx⟩
    obtain ⟨g, hg, hinvalid⟩ := h.remembered z hz
    have hactive := h.included x f hf hincluded
    rw [h.active z g ?_ hg] at hinvalid
    · cases hinvalid
    · rcases hzx with rfl | hzx
      · exact hactive
      · rcases hactive with rfl | hactive
        · exact .inr hzx
        · exact .inr (hzx.trans hactive)

theorem of_steady (h : Tracked s) (hsteady : Steady s')
    (hinvalid : ∀ x f, s.forks.lookup x = some f → f.invalid = true →
      ∃ g, s'.forks.lookup x = some g ∧ g.invalid = true)
    (hfuture : s'.futureBlocks = s.futureBlocks)
    (hrejected : s'.rejectedAsFuture = s.rejectedAsFuture) : Tracked s' := by
  refine ⟨hsteady, fun x hx => ?_, fun x hx => ?_⟩
  · obtain ⟨f, hf, hmark⟩ := h.remembered x (hfuture ▸ hx)
    exact hinvalid x f hf hmark
  · rw [hfuture]
    exact h.kept x (hrejected ▸ hx)

theorem placed {longest : BlockId × ForkData} (h : Tracked s)
    (hnew : s.chain.blocks.lookup b.id = none) (hid : b.id ≠ nullId)
    (hs' : s' = { s.storeBlock b with forks := s'.forks }) (hgrown : Grown s')
    (hplaced : Placed s b longest s') : Tracked s' := by
  refine h.of_steady (h.toSteady.placed hnew hid hs' hgrown hplaced) (fun x f hf hinvalid => ?_)
    (by rw [hs']; rfl) (by rw [hs']; rfl)
  obtain ⟨hne, hafter⟩ := h.not_after hnew hid (h.invalid x f hf hinvalid)
  obtain ⟨g, hg, -, heq, -⟩ := Steady.placed_other hplaced hne hafter hf
  exact ⟨g, hg, heq.trans hinvalid⟩

end Tracked

/-- While `b` is being pushed: what can still be tried is not from the future, but for `b`. -/
structure Pushing (cfg : ClientConfig) (b : FullBlock) (s : ForkState) : Prop
    extends Tracked s where
  games : ∀ node ∈ cfg.games, node.toGameClient.SparesFuture
  timely : ∀ x c, s.chain.blocks.lookup x = some c → Rooted s.chain.blocks x →
    (∀ f, s.forks.lookup x = some f → f.invalid = false) →
    x = b.id ∨ c.timestamp ≤ cfg.clock + BLOCK_INTERVAL_SEC * 2

namespace Pushing

variable {s s' : ForkState} {cfg : ClientConfig} {b c : FullBlock} {x : BlockId}

theorem timely_of (h : Pushing cfg b s) (hblocks : s'.chain.blocks = s.chain.blocks)
    (hinvalid : ∀ x f, s.forks.lookup x = some f → f.invalid = true →
      ∃ g, s'.forks.lookup x = some g ∧ g.invalid = true) (x : BlockId) (c : FullBlock)
    (hc : s'.chain.blocks.lookup x = some c) (hrooted : Rooted s'.chain.blocks x)
    (hvalid : ∀ f, s'.forks.lookup x = some f → f.invalid = false) :
    x = b.id ∨ c.timestamp ≤ cfg.clock + BLOCK_INTERVAL_SEC * 2 := by
  refine h.timely x c (hblocks ▸ hc) (hblocks ▸ hrooted) fun f hf => ?_
  cases hmark : f.invalid with
  | false => rfl
  | true =>
    obtain ⟨g, hg, hginvalid⟩ := hinvalid x f hf hmark
    rw [hvalid g hg] at hginvalid
    cases hginvalid

theorem of_steady (h : Pushing cfg b s) (hsteady : Steady s')
    (hblocks : s'.chain.blocks = s.chain.blocks)
    (hinvalid : ∀ x f, s.forks.lookup x = some f → f.invalid = true →
      ∃ g, s'.forks.lookup x = some g ∧ g.invalid = true)
    (hfuture : s'.futureBlocks = s.futureBlocks)
    (hrejected : s'.rejectedAsFuture = s.rejectedAsFuture) : Pushing cfg b s' :=
  ⟨h.toTracked.of_steady hsteady hinvalid hfuture hrejected, h.games, h.timely_of hblocks hinvalid⟩

omit [Crypto] in
theorem invalid_insert {forks : Table BlockId ForkData} {y : BlockId} {f g : ForkData}
    (hf : forks.lookup y = some f) (hvalid : f.invalid = true → g.invalid = true) (x : BlockId)
    (k : ForkData) (hk : forks.lookup x = some k) (hinvalid : k.invalid = true) :
    ∃ k', (forks.insert y g).lookup x = some k' ∧ k'.invalid = true := by
  rw [Table.lookup_insert_eq]
  split_ifs with hx
  · rw [hx, hf] at hk
    obtain rfl := Option.some.inj hk
    exact ⟨g, rfl, hvalid hinvalid⟩
  · exact ⟨k, hk, hinvalid⟩

theorem rejected (h : Pushing cfg b s) (hb : s.chain.blocks.lookup b.id = some b)
    (hc : s.chain.blocks.lookup c.id = some c) (hprev : c.previous = s.chain.headId) {f : ForkData}
    (hf : s.forks.lookup c.id = some f) (hlink : f.canLink = true) {e : Error}
    (hext : s.chain.extendChainOn cfg c = .error e) (hrej : Rejected s s' c e) (hsteady : Steady s') :
    Pushing cfg b (s'.noteFuture b e) := by
  have hblocks : s'.chain.blocks = s.chain.blocks := by rw [hrej.chain]
  have hfuture : s'.futureBlocks = s.futureBlocks := by rw [hrej.rest]
  have hrooted := h.rooted_next hc hprev
  -- only the pushed block is rejected as from the future
  have hpushed : e = .timeInFuture → c.id = b.id := by
    rintro rfl
    refine (h.timely c.id c hc hrooted fun g hg => ?_).resolve_right
      (extendChainOn_timeInFuture h.games hext).not_ge
    obtain rfl := Option.some.inj (hf.symm.trans hg)
    exact ForkData.not_invalid hlink
  have hmem : ∀ x, x ∈ (s'.noteFuture b e).futureBlocks ↔
      x ∈ s.futureBlocks ∨ e = .timeInFuture ∧ x = b.id := by
    intro x
    unfold ForkState.noteFuture
    split_ifs with he
    · rw [List.mem_insert_iff, hfuture]
      simp [he, or_comm]
    · simp [he, hfuture]
  have hstate : (s'.noteFuture b e).rejectedAsFuture = s'.rejectedAsFuture := by
    unfold ForkState.noteFuture
    split_ifs <;> rfl
  have hinvalid : ∀ x g, s.forks.lookup x = some g → g.invalid = true →
      ∃ k, (s'.noteFuture b e).forks.lookup x = some k ∧ k.invalid = true := by
    intro x g hg hinvalid
    rw [ForkState.forks_noteFuture]
    exact hrej.invalid hg hinvalid
  refine ⟨⟨hsteady.noteFuture (hblocks ▸ hb) e, fun x hx => ?_, fun x hx => ?_⟩, h.games,
    h.timely_of (by rw [ForkState.chain_noteFuture, hblocks]) hinvalid⟩
  · rcases (hmem x).1 hx with hx | ⟨he, rfl⟩
    · obtain ⟨g, hg, hinv⟩ := h.remembered x hx
      exact hinvalid x g hg hinv
    · rw [ForkState.forks_noteFuture, ← hpushed he, hrej.forks.marked _ (.inl rfl), hf]
      exact ⟨_, rfl, rfl⟩
  · rw [hstate, hrej.future] at hx
    rw [hmem]
    split_ifs at hx with he
    · rcases List.mem_insert_iff.1 hx with rfl | hx
      · exact .inr ⟨he, hpushed he⟩
      · exact .inl (h.kept x hx)
    · exact .inl (h.kept x hx)

theorem placed {longest : BlockId × ForkData} (h : Tracked s)
    (hc : (ForkEvent.push cfg b).FutureAlone s)
    (hnew : s.chain.blocks.lookup b.id = none)
    (hs' : s' = { s.storeBlock b with forks := s'.forks }) (hgrown : Grown s')
    (hplaced : Placed s b longest s') : Pushing cfg b s' := by
  obtain ⟨⟨hid, hgames⟩, htimely⟩ := hc
  have hblocks : s'.chain.blocks = (s.storeBlock b).chain.blocks := by rw [hs']
  refine ⟨h.placed hnew hid hs' hgrown hplaced, hgames, fun x c hx hrooted hvalid => ?_⟩
  rw [hblocks] at hx hrooted
  rw [s.lookup_storeBlock] at hx
  split_ifs at hx with hxb
  · exact .inl hxb
  · refine .inr (htimely x c hx hrooted fun f hf => ?_)
    cases hinvalid : f.invalid with
    | false => rfl
    | true =>
      obtain ⟨hne, hafter⟩ := h.not_after hnew hid (h.invalid x f hf hinvalid)
      obtain ⟨g, hg, -, heq, -⟩ := Steady.placed_other hplaced hne hafter hf
      rw [← heq, hvalid g hg] at hinvalid
      cases hinvalid

theorem wp_switch {fuel : Nat} (h : Pushing cfg b s) (hb : s.chain.blocks.lookup b.id = some b)
    (hx : ∃ c, s.chain.blocks.lookup x = some c) {f : ForkData} (hf : s.forks.lookup x = some f)
    (hlink : f.canLink = true) :
    Wp False (switchToFork (fun c b => c.extendChainOn cfg b) fuel x) s fun r s' =>
      (match r with
        | .ok _ => Pushing cfg b s'
        | .error e => Pushing cfg b (s'.noteFuture b e)) ∧ s'.chain.blocks = s.chain.blocks := by
  refine (Steady.wp_switch (fun _ s => Pushing cfg b s ∧ s.chain.blocks.lookup b.id = some b)
    (E := fun e s' => Pushing cfg b (s'.noteFuture b e)) (fun s h => h.1.toSteady)
    (movesHead_extendChainOn cfg) (fun _ _ => ⟨h, hb⟩) (fun _ _ h => h)
    (fun _ s f c undo header h _ hf hc hhead _ hsteady => ⟨?_, h.2⟩)
    (fun _ s f h _ hf _ hsteady => ?_) (fun s c f chain h hc hprev hcx hf hlink hext hsteady => ?_)
    (fun s s' c f e h hc hprev hcx hf hlink _ hext hrej hsteady =>
      h.1.rejected h.2 hc hprev hf hlink hext hrej hsteady) ⟨h, hb⟩ hx hf hlink).mono
    fun r s' hr => ?_
  · exact h.1.of_steady hsteady rfl (invalid_insert hf id) rfl rfl
  · rw [ForkState.noteFuture, if_neg (by simp)]
    exact h.1.of_steady hsteady rfl (invalid_insert hf id) rfl rfl
  · have hblocks := (movesHead_extendChainOn cfg).blocks _ _ _ hext
    refine ⟨h.1.of_steady hsteady hblocks (invalid_insert hf fun hinvalid => ?_) rfl rfl, ?_⟩
    · rw [ForkData.not_invalid hlink] at hinvalid
      cases hinvalid
    · change chain.blocks.lookup b.id = some b
      rw [hblocks]
      exact h.2
  · cases r with
    | ok u => exact ⟨hr.1.1.1, hr.2⟩
    | error e => exact hr

end Pushing

theorem Tracked.genesis (tables : ChainTables) : Tracked (.genesis tables) :=
  ⟨.genesis tables, fun x hx => (by cases hx), fun x hx => (by cases hx)⟩

theorem tracked_step {s s' : ForkState} {e : ForkEvent} {fuel : Nat} (hc : e.FutureAlone s)
    (hstep : s.step fuel e = some s') (h : Tracked s) : Tracked s' := by
  cases e with
  | restart => exact hc.elim
  | push cfg b =>
    obtain ⟨⟨r, s''⟩, hrun, rfl⟩ := Option.map_eq_some_iff.1 hstep
    exact (wp_pushBlock (I := Pushing cfg b) (fun _ h => h.toGrown) hc.1.1
      (fun longest s' hnew hs' hgrown hplaced => .placed h hc hnew hs' hgrown hplaced)
      (fun s x f hs hb hx hf hlink => hs.wp_switch hb hx hf hlink) (fun _ h => h.toTracked) h.toGrown
      h).of_eq hrun

/-- **A restart unchecks the blocks from the future and nothing that is included**, after every
sequence of pushes in which only the pushed block can be from the future; and it ends. -/
theorem revalidated_of_run (tables : ChainTables) (s : ForkState) (fuel : Nat)
    (hrun : ForkRun (fun s e => e.FutureAlone s) (.genesis tables) s) :
    (∀ s', s.step fuel .restart = some s' → Revalidated s s') ∧
      (Shallow s.chain.blocks fuel → ∃ s', s.step fuel .restart = some s') := by
  have h : Tracked s := hrun.induction (I := Tracked)
    (fun _ _ _ _ hc hstep h => tracked_step hc hstep h) (.genesis tables)
  refine ⟨fun s' hstep => ?_, fun hfuel => ?_⟩
  · obtain ⟨⟨r, s''⟩, hrestart, rfl⟩ := Option.map_eq_some_iff.1 hstep
    have hwp : Wp False (clearInvalidationOfFutureBlocks fuel) s _ :=
      h.tree.wp_restart h.future fun h => h.elim
    exact h.revalidated (hwp.of_eq hrestart).2.2
  · have hwp : Wp True (clearInvalidationOfFutureBlocks fuel) s _ :=
      h.tree.wp_restart h.future fun _ => hfuel
    obtain ⟨r, s', hrestart, -⟩ := hwp.ends
    exact ⟨s', by rw [ForkState.step, hrestart, Option.map_some]⟩

end

theorem revalidated_soloBlock :
    letI := Crypto.transparent
    ∃ s s', ForkRun (fun s e => e.FutureAlone s) (.genesis (soloTables 100)) s ∧
      s.rejectedAsFuture = [(soloBlock 1 nullId 200 []).id] ∧ s.step 9 .restart = some s' ∧
      Revalidated s s' := by
  let := Crypto.transparent
  let push : ForkEvent := .push { clock := 100 } (soloBlock 1 nullId 200 [])
  obtain ⟨s, hs, hrejected, hrestart⟩ := exists_some_of_any
    (o := (ForkState.genesis (soloTables 100)).step 9 push)
    (p := fun s => s.rejectedAsFuture = [(soloBlock 1 nullId 200 []).id] ∧
      (s.step 9 .restart).isSome = true) (by decide +kernel)
  obtain ⟨s', hs'⟩ := Option.isSome_iff_exists.1 hrestart
  have halone : push.FutureAlone (.genesis (soloTables 100)) :=
    ⟨⟨by decide +kernel, fun _ hnode => (by cases hnode)⟩, fun x c hc => (by cases hc)⟩
  have hrun : ForkRun (fun s e => e.FutureAlone s) (.genesis (soloTables 100)) s :=
    .step 9 halone hs (.refl s)
  exact ⟨s, s', hrun, hrejected, hs', (revalidated_of_run _ s 9 hrun).1 s' hs'⟩

/-- Block 2, from the future, comes before block 1.  Block 1 is then included and remembered in
place of block 2, and a restart takes its mark. -/
theorem revalidated_included :
    letI := Crypto.transparent
    ∃ s s', ForkRun (fun _ e => ∃ cfg b, e = .push cfg b) (.genesis (soloTables 100)) s ∧
      s.step 9 .restart = some s' ∧ ¬ Revalidated s s' := by
  let := Crypto.transparent
  let block1 := soloBlock 1 nullId 10 []
  let block2 := soloBlock 2 block1.id 200 []
  obtain ⟨s, hs, hincluded, hrestart⟩ := exists_some_of_any
    (o := (ForkState.genesis (soloTables 100)).steps 9
      [.push { clock := 100 } block2, .push { clock := 100 } block1])
    (p := fun s => (s.forks.lookup block1.id).map (fun f => (f.isIncluded, f.isValid)) =
        some (true, some true) ∧
      (s.step 9 .restart).any (fun s' => (s'.forks.lookup block1.id).map ForkData.isValid =
        some none) = true) (by decide +kernel)
  obtain ⟨s', hs', hvalid⟩ := exists_some_of_any hrestart
  obtain ⟨f, hf, hflags⟩ := Option.map_eq_some_iff.1 hincluded
  obtain ⟨hfincluded, hfvalid⟩ := Prod.mk.inj hflags
  have hpush : ∀ e ∈ [ForkEvent.push { clock := 100 } block2, .push { clock := 100 } block1],
      ∃ cfg b, e = .push cfg b := by
    simp
  refine ⟨s, s', .of_steps hs fun _ e he => hpush e he, hs', fun h => ?_⟩
  obtain ⟨g, hg, hkept⟩ := h.included _ f hf hfincluded
  rw [hg, Option.map_some, hkept, hfvalid] at hvalid
  cases hvalid

end BitShares
