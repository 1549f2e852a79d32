import BitShares.Fork.Proof.Place

/-!
# Switching and scanning

Rules for `switch_to_fork` and the scan of `push_block`, by an invariant.  A switch reads off the
blocks between the active chain and the one it goes to (`wp_forkHistory`), takes blocks off and
applies those (`wp_switchToFork`).
-/

namespace BitShares

open Program ForkM

variable [Crypto] {total : Prop} {s : ForkState}

/-! ## The way to a block -/

/-- The blocks of `l` lead from `x` up to `y`. -/
inductive Climbs (blocks : Table BlockId FullBlock) : BlockId → List BlockId → BlockId → Prop
  | nil (x : BlockId) : Climbs blocks x [] x
  | cons {x y z : BlockId} {b : FullBlock} {l : List BlockId} (hb : blocks.lookup y = some b)
      (hx : b.previous = x) (hl : Climbs blocks y l z) : Climbs blocks x (y :: l) z

omit [Crypto] in
theorem Climbs.concat {blocks : Table BlockId FullBlock} {x y z : BlockId} {l : List BlockId}
    (h : Climbs blocks x l y) {b : FullBlock} (hb : blocks.lookup z = some b)
    (hy : b.previous = y) : Climbs blocks x (l ++ [z]) z := by
  induction h with
  | nil x => exact .cons hb hy (.nil z)
  | cons hb' hx _ ih => exact .cons hb' hx (ih hy)

omit [Crypto] in
theorem Climbs.reaches {blocks : Table BlockId FullBlock} {x y : BlockId} {l : List BlockId}
    (h : Climbs blocks x l y) : x = y ∨ Descends blocks x y := by
  induction h with
  | nil x => exact .inl rfl
  | cons hb hx _ ih =>
    rcases ih with rfl | ih
    · exact .inr (.child hb hx)
    · exact .inr (Descends.trans (.child hb hx) ih)

/-- What `get_fork_history` finds below `id`: the ids down to the first one that is included. -/
structure IsHistory (s : ForkState) (id : BlockId) (history : List BlockId) : Prop where
  climbs : Climbs s.chain.blocks (history.getLastD nullId) (id :: history).dropLast.reverse id
  nonempty : history ≠ []
  included : history.getLastD nullId = nullId ∨
    ∃ f, s.forks.lookup (history.getLastD nullId) = some f ∧ f.isIncluded = true
  skipped : ∀ y ∈ history.dropLast, y ≠ nullId ∧
    ∃ f, s.forks.lookup y = some f ∧ f.isIncluded = false

omit [Crypto] in
theorem IsHistory.cons {id : BlockId} {history : List BlockId} {b : FullBlock} {f : ForkData}
    (h : IsHistory s b.previous history) (hb : s.chain.blocks.lookup id = some b)
    (hnull : b.previous ≠ nullId) (hf : s.forks.lookup b.previous = some f)
    (hincluded : f.isIncluded = false) : IsHistory s id (b.previous :: history) := by
  have hlast : (b.previous :: history).getLastD nullId = history.getLastD nullId := by
    cases history with
    | nil => exact absurd rfl h.nonempty
    | cons x l => rfl
  refine ⟨?_, by simp, ?_, ?_⟩
  · rw [hlast, List.dropLast_cons_of_ne_nil (List.cons_ne_nil _ _), List.reverse_cons]
    exact h.climbs.concat hb rfl
  · rw [hlast]
    exact h.included
  · rw [List.dropLast_cons_of_ne_nil h.nonempty]
    intro y hy
    rcases List.mem_cons.1 hy with rfl | hy
    · exact ⟨hnull, f, hf, hincluded⟩
    · exact h.skipped y hy

/-- **The history**, unless some ancestor is not linked. -/
theorem Tree.wp_forkHistory (h : Tree s) {fuel : Nat} {id : BlockId} {b : FullBlock}
    (hb : s.chain.blocks.lookup id = some b)
    (hrooted : ∀ x f, s.forks.lookup x = some f → f.isLinked = true → Rooted s.chain.blocks x)
    (hfuel : total → ∃ l, Path s.chain.blocks id l ∧ l.length ≤ fuel) :
    Wp total (forkHistory fuel id) s fun r s' => s' = s ∧
      match r with
      | .ok history => IsHistory s id history
      | .error e => e ≠ .timeInFuture ∧ ∃ y f, Descends s.chain.blocks y id ∧ y ≠ nullId ∧
          s.forks.lookup y = some f ∧ f.isLinked = false := by
  induction fuel generalizing id b with
  | zero =>
    intro ht
    obtain ⟨l, hl, hlen⟩ := hfuel ht
    cases hl with
    | genesis =>
      rw [h.null] at hb
      cases hb
    | block _ _ => simp at hlen
  | succ fuel ih =>
    simp only [forkHistory, wp_bind, wp_fetchBlock]
    refine ⟨fun b' hb' => ?_, fun hnone => by rw [hb] at hnone; cases hnone⟩
    obtain rfl := Option.some.inj (hb.symm.trans hb')
    split_ifs with hnull
    · exact ⟨rfl, .cons hb hnull (.nil id), by simp, .inl rfl, by simp⟩
    · simp only [wp_bind, wp_fetchFork]
      obtain ⟨-, f, hf⟩ := h.entered id b hb
      refine ⟨fun f' hf' => ?_, fun hnone => by rw [hf] at hnone; cases hnone⟩
      obtain rfl := Option.some.inj (hf.symm.trans hf')
      split_ifs with hlinked hincluded
      · exact ⟨rfl, by simp, b.previous, f, .child hb rfl, hnull, hf, by simpa using hlinked⟩
      · exact ⟨rfl, .cons hb rfl (.nil id), by simp, .inr ⟨f, hf, hincluded⟩, by simp⟩
      · simp only [wp_bind]
        -- the previous block is known, as it is linked and not the genesis block
        obtain ⟨c, hprev⟩ :=
          (hrooted b.previous f hf (by simpa using hlinked)).known.resolve_left hnull
        refine (ih hprev fun ht => ?_).mono fun r s' hr => ?_
        · obtain ⟨l, hl, hlen⟩ := hfuel ht
          cases hl with
          | genesis =>
            rw [h.null] at hb
            cases hb
          | block hb'' hl =>
            obtain rfl := Option.some.inj (hb.symm.trans hb'')
            exact ⟨_, hl, Nat.le_of_succ_le_succ hlen⟩
        · obtain ⟨rfl, hr⟩ := hr
          cases r with
          | error e =>
            obtain ⟨he, y, g, hy, hrest⟩ := hr
            exact ⟨rfl, he, y, g, .next hb hy, hrest⟩
          | ok history =>
            exact ⟨rfl, IsHistory.cons hr hb hnull hf (by simpa using hincluded)⟩

/-! ## Taking blocks off -/

def Seated (s : ForkState) : Prop :=
  s.chain.headId = nullId ∧ s.chain.head = .null ∨
    ∃ b, s.chain.blocks.lookup s.chain.headId = some b ∧ b.toSignedBlockHeader = s.chain.head

def ForkState.popped (s : ForkState) (f : ForkData) (undo : Batch) (header : SignedBlockHeader) :
    ForkState :=
  { s with
    forks := s.forks.insert s.chain.headId { f with isIncluded := false }
    chain := { s.chain with
      tables := undo.applyChanges s.chain.head.blockNum s.chain.tables
      blockNumToId := s.chain.blockNumToId.erase s.chain.head.blockNum
      headId := s.chain.head.previous
      head := header } }

def ForkState.stuck (s : ForkState) (f : ForkData) : ForkState :=
  { s with
    forks := s.forks.insert s.chain.headId { f with isIncluded := false }
    chain := { s.chain with blockNumToId := s.chain.blockNumToId.erase s.chain.head.blockNum }
    poppedBlind := true }

/-- **`pop_block`** at a head with a record, over a block that is there. -/
theorem wp_popBlock {f : ForkData} (hf : s.forks.lookup s.chain.headId = some f)
    {header : SignedBlockHeader}
    (hheader : s.chain.head.previous = nullId ∧ header = .null ∨ s.chain.head.previous ≠ nullId ∧
      ∃ b, s.chain.blocks.lookup s.chain.head.previous = some b ∧ b.toSignedBlockHeader = header)
    (hnum : s.chain.head.blockNum ≠ 0) {Q : Except Error Unit → ForkState → Prop} :
    Wp total popBlock s Q ↔
      match s.chain.undoStates.lookup s.chain.headId with
      | some undo => Q (.ok ()) (s.popped f undo header)
      | none => Q (.error (.assertion "")) (s.stuck f) := by
  rw [popBlock, wp_bind, wp_get]
  dsimp only
  rw [if_neg hnum]
  simp only [markIncluded, wp_bind, wp_fetchFork, wp_storeFork, wp_update, hf, Option.some.injEq,
    forall_eq', reduceCtorEq, false_implies, and_true]
  cases s.chain.undoStates.lookup s.chain.headId with
  | none => rfl
  | some undo =>
    simp only [wp_bind, wp_update, fetchHeader]
    obtain ⟨hnull, rfl⟩ | ⟨hnull, b, hb, rfl⟩ := hheader
    · rw [if_pos hnull]
      rfl
    · rw [if_neg hnull]
      simp only [wp_bind, wp_fetchBlock, hb, Option.some.injEq, forall_eq', reduceCtorEq,
        false_implies, and_true]
      rfl

omit [Crypto] in
theorem wp_popBlock_zero [Crypto] (hnum : s.chain.head.blockNum = 0)
    {Q : Except Error Unit → ForkState → Prop} : Wp total popBlock s Q ↔ Q (.ok ()) s := by
  rw [popBlock, wp_bind, wp_get]
  dsimp only
  rw [if_pos hnum]
  rfl

/-- **The loop of pops**, by what holds with at most so many pops to go. -/
theorem wp_popUntil {target : BlockId} {P : Nat → ForkState → Prop} {E : Error → ForkState → Prop}
    (hpop : ∀ n s, P n s → s.chain.headId ≠ target → ∃ m, (total → m < n) ∧
      Wp total popBlock s fun r s' =>
        match r with
        | .ok _ => P m s'
        | .error e => E e s') :
    ∀ fuel n s, (total → n < fuel) → P n s → Wp total (popUntil target fuel) s fun r s' =>
      match r with
      | .ok _ => (∃ m, P m s') ∧ s'.chain.headId = target
      | .error e => E e s' := by
  intro fuel
  induction fuel with
  | zero => exact fun n s hn _ ht => absurd (hn ht) (Nat.not_lt_zero _)
  | succ fuel ih =>
    intro n s hn h
    rw [popUntil, wp_bind, wp_get]
    dsimp only
    split_ifs with hhead
    · exact ⟨⟨n, h⟩, hhead⟩
    · obtain ⟨m, hm, hwp⟩ := hpop n s h hhead
      rw [wp_bind]
      refine hwp.mono fun r s' hr => ?_
      cases r with
      | ok _ => exact ih m s' (fun ht => lt_of_lt_of_le (hm ht) (Nat.lt_succ_iff.1 (hn ht))) hr
      | error e => exact hr

/-! ## Switching -/

variable {extend : ChainState → FullBlock → Except Error ChainState} {fuel : Nat}

/-- **`switch_to_fork`**, by an invariant `I` of the states between extensions, and `P` while blocks
are taken off towards a target. -/
theorem wp_switchToFork {B : Table BlockId FullBlock} {I : ForkState → Prop}
    {P : BlockId → Nat → ForkState → Prop} {E : Error → ForkState → Prop} {id : BlockId}
    {b : FullBlock}
    (htree : Tree s)
    (hrooted : ∀ x f, s.forks.lookup x = some f → f.isLinked = true → Rooted s.chain.blocks x)
    (hblocks : ∀ s, I s → s.chain.blocks = B) (hs : I s)
    (hb : B.lookup id = some b)
    (hfuel : total → ∃ l, Path B id l ∧ l.length ≤ fuel)
    (hunlinked : ∀ y f e, Descends B y id → y ≠ nullId → s.forks.lookup y = some f →
      f.isLinked = false → e ≠ .timeInFuture → E e s)
    (hstart : ∀ history, IsHistory s id history →
      ∃ n, (total → n < fuel) ∧ P (history.getLastD nullId) n s)
    (hpop : ∀ target n s, P target n s → s.chain.headId ≠ target → ∃ m, (total → m < n) ∧
      Wp total popBlock s fun r s' =>
        match r with
        | .ok _ => P target m s'
        | .error e => E e s')
    (hdone : ∀ target n s, P target n s → s.chain.headId = target → I s)
    (hextend : ∀ s b, I s → B.lookup b.id = some b → b.previous = s.chain.headId →
      b.id = id ∨ Descends B b.id id →
      Wp total (extendChain extend fuel b) s fun r s' =>
        match r with
        | .ok _ => I s' ∧ s'.chain.headId = b.id
        | .error e => E e s') :
    Wp total (switchToFork extend fuel id) s fun r s' =>
      match r with
      | .ok _ => I s' ∧ s'.chain.headId = id
      | .error e => E e s' := by
  rw [switchToFork, wp_bind, wp_get]
  dsimp only
  split_ifs with hhead
  · exact ⟨hs, hhead⟩
  · simp only [getForkHistory, wp_bind]
    have hblocks₀ := hblocks s hs
    refine (htree.wp_forkHistory (hblocks₀ ▸ hb) hrooted
      (fun ht => hblocks₀ ▸ hfuel ht)).mono fun r s' hr => ?_
    obtain ⟨rfl, hr⟩ := hr
    cases r with
    | error e =>
      obtain ⟨he, y, f, hy, hnull, hf, hlinked⟩ := hr
      exact hunlinked y f e (hblocks₀ ▸ hy) hnull hf hlinked he
    | ok history =>
      have hlast : (id :: history).getLastD nullId = history.getLastD nullId := by
        cases history with
        | nil => exact absurd rfl hr.nonempty
        | cons x l => rfl
      simp only [wp_pure, hlast]
      obtain ⟨n, hn, hP⟩ := hstart history hr
      refine (wp_popUntil (hpop _) fuel n s' hn hP).mono fun r s₁ hr₁ => ?_
      cases r with
      | error e => exact hr₁
      | ok u =>
        obtain ⟨⟨m, hP₁⟩, hhead₁⟩ := hr₁
        have hI₁ := hdone _ m s₁ hP₁ hhead₁
        have hclimbs := hr.climbs
        rw [hblocks₀, ← hhead₁] at hclimbs
        -- the blocks above the target are applied one after the other
        refine (wp_forEach (fun l s => I s ∧ Climbs B s.chain.headId l id)
          (E := E) (fun x l s₂ h₂ => ?_) _ s₁ ⟨hI₁, hclimbs⟩).mono
          fun r s₂ hr₂ => ?_
        · obtain ⟨hI₂, hclimbs₂⟩ := h₂
          cases hclimbs₂ with
          | cons hc hprev hrest =>
            simp only [extendTo, wp_bind, wp_fetchBlock]
            rw [hblocks s₂ hI₂]
            refine ⟨fun c hc' => ?_, fun hnone => by rw [hc] at hnone; cases hnone⟩
            obtain rfl := Option.some.inj (hc.symm.trans hc')
            obtain rfl := htree.own _ _ (hblocks₀ ▸ hc)
            refine (hextend s₂ _ hI₂ hc hprev hrest.reaches).mono fun r s₃ hr₃ => ?_
            cases r with
            | error e => exact hr₃
            | ok u => exact ⟨hr₃.1, hr₃.2 ▸ hrest⟩
        · cases r with
          | error e => exact hr₂
          | ok u =>
            obtain ⟨hI₂, hclimbs₂⟩ := hr₂
            generalize s₂.chain.headId = x at hclimbs₂
            cases hclimbs₂
            exact ⟨hI₂, rfl⟩

/-! ## Scanning -/

/-- A switch for the sake of `b` has failed with `e`: a block from the future is remembered. -/
def ForkState.noteFuture (s : ForkState) (b : FullBlock) (e : Error) : ForkState :=
  if e = .timeInFuture then { s with futureBlocks := List.insert b.id s.futureBlocks } else s

@[simp] theorem ForkState.chain_noteFuture (s : ForkState) (b : FullBlock) (e : Error) :
    (s.noteFuture b e).chain = s.chain := by
  unfold noteFuture
  split_ifs <;> rfl

@[simp] theorem ForkState.forks_noteFuture (s : ForkState) (b : FullBlock) (e : Error) :
    (s.noteFuture b e).forks = s.forks := by
  unfold noteFuture
  split_ifs <;> rfl

/-- **The scan of one number**, by what holds with some blocks still to try, and what a switch that
works leaves. -/
theorem wp_tryForks {b : FullBlock} {J : List BlockId → ForkState → Prop} {D : ForkState → Prop}
    (hfetch : ∀ x l s, J (x :: l) s → ∃ f, s.forks.lookup x = some f)
    (hskip : ∀ x l s f, J (x :: l) s → s.forks.lookup x = some f → f.canLink = false → J l s)
    (hswitch : ∀ x l s f, J (x :: l) s → s.forks.lookup x = some f → f.canLink = true →
      Wp total (switchToFork extend fuel x) s fun r s' =>
        match r with
        | .ok _ => D s'
        | .error e => J l (s'.noteFuture b e)) :
    ∀ l s, J l s → Wp total (tryForks extend fuel b l) s fun r s' =>
      ∃ done, r = .ok done ∧ if done then D s' else J [] s' := by
  intro l
  induction l with
  | nil => exact fun s h => ⟨false, rfl, h⟩
  | cons x l ih =>
    intro s h
    obtain ⟨f, hf⟩ := hfetch x l s h
    simp only [tryForks, tryFork, wp_bind, wp_fetchFork, hf, Option.some.injEq, forall_eq',
      reduceCtorEq, false_implies, and_true]
    split_ifs with hlink
    · simp only [wp_attempt, wp_bind, wp_update, wp_pure]
      refine (hswitch x l s f h hf hlink).mono fun r s' hr => ?_
      cases r with
      | ok u => exact ⟨true, rfl, hr⟩
      | error e => exact ih _ hr
    · exact ih s (hskip x l s f h hf (by simpa using hlink))

theorem wp_tryNumbers {b : FullBlock} {J : BlockNum → List BlockId → ForkState → Prop}
    {K : BlockNum → ForkState → Prop} {D : ForkState → Prop}
    (hbegin : ∀ n s, K (n + 1) s → J (n + 1) ((s.numbers.lookup (n + 1)).getD []) s)
    (hend : ∀ n s, J (n + 1) [] s → K n s)
    (hfetch : ∀ n x l s, J n (x :: l) s → ∃ f, s.forks.lookup x = some f)
    (hskip : ∀ n x l s f, J n (x :: l) s → s.forks.lookup x = some f → f.canLink = false → J n l s)
    (hswitch : ∀ n x l s f, J n (x :: l) s → s.forks.lookup x = some f → f.canLink = true →
      Wp total (switchToFork extend fuel x) s fun r s' =>
        match r with
        | .ok _ => D s'
        | .error e => J n l (s'.noteFuture b e)) :
    ∀ n s, K n s → Wp total (tryNumbers extend fuel b n) s fun r s' =>
      ∃ done, r = .ok done ∧ if done then D s' else K 0 s' := by
  intro n
  induction n with
  | zero => exact fun s h => ⟨false, rfl, h⟩
  | succ n ih =>
    intro s h
    rw [tryNumbers, wp_bind, wp_get]
    dsimp only
    rw [wp_bind]
    refine (wp_tryForks (hfetch (n + 1)) (hskip (n + 1)) (hswitch (n + 1)) _ s
      (hbegin n s h)).mono fun r s' hr => ?_
    obtain ⟨done, rfl, hr⟩ := hr
    dsimp only
    cases done with
    | true => exact ⟨true, rfl, hr⟩
    | false => exact ih s' (hend n s' hr)

end BitShares
