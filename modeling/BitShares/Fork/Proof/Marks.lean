import BitShares.Fork.Push

/-!
# Marks that run down the tree

`recursive_mark_as_linked`, `recursive_mark_as_invalid` and `mark_as_unchecked` share one loop.  It
marks exactly the blocks that can be reached over `next_blocks` (`wp_markDown`), whatever the order
in which it meets them; it ends if there is a bound on how deep they lie.
-/

namespace BitShares

open Program ForkM

variable {total : Prop} {s : ForkState}

/-! ## Rules for the primitives -/

@[simp] theorem wp_fetchFork (id : BlockId) {Q : Except Error ForkData → ForkState → Prop} :
    Wp total (fetchFork id) s Q ↔ (∀ f, s.forks.lookup id = some f → Q (.ok f) s) ∧
      (s.forks.lookup id = none → Q (.error .unknownBlock) s) := by
  simp only [fetchFork, wp_bind, wp_get, wp_need]

@[simp] theorem wp_storeFork (id : BlockId) (f : ForkData)
    {Q : Except Error Unit → ForkState → Prop} :
    Wp total (storeFork id f) s Q ↔ Q (.ok ()) { s with forks := s.forks.insert id f } := Iff.rfl

@[simp] theorem wp_fetchBlock (id : BlockId) {Q : Except Error FullBlock → ForkState → Prop} :
    Wp total (fetchBlock id) s Q ↔ (∀ b, s.chain.blocks.lookup id = some b → Q (.ok b) s) ∧
      (s.chain.blocks.lookup id = none → Q (.error .unknownBlock) s) := by
  simp only [fetchBlock, wp_bind, wp_get, wp_need]

/-! ## What is reached -/

/-- The blocks among `ids` and all that come after them. -/
inductive Below (forks : Table BlockId ForkData) (ids : List BlockId) : BlockId → Prop
  | base {x : BlockId} (h : x ∈ ids) : Below forks ids x
  | next {x y : BlockId} {f : ForkData} (hx : Below forks ids x) (hf : forks.lookup x = some f)
      (hy : y ∈ f.nextBlocks) : Below forks ids y

/-- The records of the blocks in `V` are marked, the others are as they were. -/
structure MarkedBy (mark : ForkData → ForkData) (V : BlockId → Prop)
    (forks forks' : Table BlockId ForkData) : Prop where
  marked : ∀ x, V x → forks'.lookup x = (forks.lookup x).map mark
  kept : ∀ x, ¬ V x → forks'.lookup x = forks.lookup x

/-- A mark leaves the tree as it is, and marking twice is marking once. -/
structure IsMark (mark : ForkData → ForkData) : Prop where
  next : ∀ f, (mark f).nextBlocks = f.nextBlocks
  again : ∀ f, mark (mark f) = mark f

section

variable {mark : ForkData → ForkData} {forks : Table BlockId ForkData}

theorem MarkedBy.none {V : BlockId → Prop} (h : ∀ x, ¬ V x) : MarkedBy mark V forks forks where
  marked x hx := absurd hx (h x)
  kept _ _ := rfl

theorem MarkedBy.insert {V : BlockId → Prop} {forks' : Table BlockId ForkData}
    (hmark : IsMark mark) (h : MarkedBy mark V forks forks') {x : BlockId} {f : ForkData}
    (hf : forks'.lookup x = some f) :
    MarkedBy mark (fun y => V y ∨ y = x) forks (forks'.insert x (mark f)) where
  marked y hy := by
    rw [Table.lookup_insert_eq]
    split_ifs with heq
    · subst heq
      by_cases hV : V y
      · rw [h.marked y hV, Option.map_eq_some_iff] at hf
        obtain ⟨g, hg, rfl⟩ := hf
        rw [hg, hmark.again, Option.map_some]
      · rw [← h.kept y hV, hf, Option.map_some]
    · exact h.marked y (hy.resolve_right heq)
  kept y hy := by
    rw [Table.lookup_insert_eq, if_neg fun heq => hy (.inr heq)]
    exact h.kept y fun hV => hy (.inl hV)

theorem MarkedBy.trans {V W : BlockId → Prop} {forks' forks'' : Table BlockId ForkData}
    (hmark : IsMark mark) (h : MarkedBy mark V forks forks') (h' : MarkedBy mark W forks' forks'') :
    MarkedBy mark (fun y => V y ∨ W y) forks forks'' where
  marked y hy := by
    by_cases hW : W y
    · rw [h'.marked y hW]
      by_cases hV : V y
      · rw [h.marked y hV, Option.map_map]
        exact congrArg (fun m => Option.map m _) (funext hmark.again)
      · rw [h.kept y hV]
    · rw [h'.kept y hW, h.marked y (hy.resolve_right hW)]
  kept y hy := by
    rw [h'.kept y fun hW => hy (.inr hW), h.kept y fun hV => hy (.inl hV)]

theorem MarkedBy.nextBlocks {V : BlockId → Prop} {forks' : Table BlockId ForkData}
    (hmark : IsMark mark) (h : MarkedBy mark V forks forks') {x : BlockId} {f : ForkData}
    (hf : forks'.lookup x = some f) :
    ∃ g, forks.lookup x = some g ∧ f.nextBlocks = g.nextBlocks ∧ mark f = mark g := by
  by_cases hV : V x
  · rw [h.marked x hV, Option.map_eq_some_iff] at hf
    obtain ⟨g, hg, rfl⟩ := hf
    exact ⟨g, hg, hmark.next g, hmark.again g⟩
  · rw [h.kept x hV] at hf
    exact ⟨f, hf, rfl, rfl⟩

/-! ## The loop -/

variable {A : Type} {v : A → BlockId → ForkData → ForkM A} {J : A → (BlockId → Prop) → Prop}
  {s₀ : ForkState} {start : List BlockId}

/-- Where the loop is: the blocks `V` are marked, those of `frontier` are next, and nothing between
them is left out.  `J` is what the loop knows of what it has seen. -/
structure Sweep (mark : ForkData → ForkData) (J : A → (BlockId → Prop) → Prop) (s₀ : ForkState)
    (start : List BlockId) (V : BlockId → Prop) (frontier : List BlockId) (acc : A)
    (s : ForkState) : Prop where
  state : s = { s₀ with forks := s.forks }
  marked : MarkedBy mark V s₀.forks s.forks
  within : ∀ x, V x → Below s₀.forks start x
  waiting : ∀ x ∈ frontier, Below s₀.forks start x
  begun : ∀ x ∈ start, V x ∨ x ∈ frontier
  closed : ∀ x f, V x → s₀.forks.lookup x = some f → ∀ y ∈ f.nextBlocks, V y ∨ y ∈ frontier
  seen : J acc V

theorem Sweep.step {V : BlockId → Prop} {id : BlockId} {ids pending : List BlockId} {acc acc' : A}
    {f : ForkData} (hmark : IsMark mark) (h : Sweep mark J s₀ start V (id :: ids ++ pending) acc s)
    (hf : s.forks.lookup id = some f) (hacc : J acc' fun y => V y ∨ y = id) :
    Sweep mark J s₀ start (fun y => V y ∨ y = id) (ids ++ (pending ∪ (mark f).nextBlocks)) acc'
      { s with forks := s.forks.insert id (mark f) } := by
  obtain ⟨g, hg, hnext, -⟩ := h.marked.nextBlocks hmark hf
  have hid : Below s₀.forks start id := h.waiting id (List.mem_append_left _ List.mem_cons_self)
  have hmove : ∀ y, y ∈ id :: ids ++ pending →
      (V y ∨ y = id) ∨ y ∈ ids ++ (pending ∪ (mark f).nextBlocks) := by
    intro y hy
    simp only [List.cons_append, List.mem_cons, List.mem_append] at hy
    rcases hy with rfl | hy | hy
    · exact .inl (.inr rfl)
    · exact .inr (List.mem_append_left _ hy)
    · exact .inr (List.mem_append_right _ (List.mem_union_left hy _))
  refine ⟨?_, h.marked.insert hmark hf, ?_, ?_, ?_, ?_, hacc⟩
  · rw [h.state]
  · rintro x (hx | rfl)
    · exact h.within x hx
    · exact hid
  · intro x hx
    rw [List.mem_append, List.mem_union_iff, hmark.next, hnext] at hx
    rcases hx with hx | hx | hx
    · exact h.waiting x (List.mem_append_left _ (List.mem_cons_of_mem _ hx))
    · exact h.waiting x (List.mem_append_right _ hx)
    · exact .next hid hg hx
  · intro x hx
    exact (h.begun x hx).elim (fun hV => .inl (.inl hV)) (hmove x)
  · rintro x f' (hx | rfl) hf' y hy
    · exact (h.closed x f' hx hf' y hy).elim (fun hV => .inl (.inl hV)) (hmove y)
    · obtain rfl : g = f' := Option.some.inj (hg.symm.trans hf')
      refine .inr (List.mem_append_right _ (List.mem_union_right _ ?_))
      rw [hmark.next, hnext]
      exact hy

theorem wp_markLevel (hmark : IsMark mark)
    (hdom : ∀ x, Below s₀.forks start x → ∃ f, s₀.forks.lookup x = some f)
    (hsee : ∀ acc V x f s, J acc V → Below s₀.forks start x → s₀.forks.lookup x = some f →
      s.chain = s₀.chain → Wp total (v acc x (mark f)) s fun r s' =>
        s' = s ∧ ∃ acc', r = .ok acc' ∧ J acc' fun y => V y ∨ y = x) :
    ∀ ids pending acc V s, Sweep mark J s₀ start V (ids ++ pending) acc s →
      Wp total (markLevel mark v ids pending acc) s fun r s' =>
        ∃ pending' acc' V', r = .ok (pending', acc') ∧ Sweep mark J s₀ start V' pending' acc' s' ∧
          ∀ y ∈ pending', y ∈ pending ∨ ∃ x ∈ ids, ∃ f, s₀.forks.lookup x = some f ∧
            y ∈ f.nextBlocks := by
  intro ids
  induction ids with
  | nil =>
    intro pending acc V s h
    exact ⟨pending, acc, V, rfl, h, fun y hy => .inl hy⟩
  | cons id ids ih =>
    intro pending acc V s h
    have hid : Below s₀.forks start id := h.waiting id (List.mem_append_left _ List.mem_cons_self)
    simp only [markLevel, wp_bind, wp_fetchFork, wp_storeFork]
    refine ⟨fun f hf => ?_, fun hnone => ?_⟩
    · obtain ⟨g, hg, hnext, hfg⟩ := h.marked.nextBlocks hmark hf
      rw [hfg]
      refine (hsee acc V id g _ h.seen hid hg (by rw [h.state])).mono fun r s' hr => ?_
      obtain ⟨rfl, acc', rfl, hacc⟩ := hr
      have hstep := h.step hmark hf hacc
      rw [hfg] at hstep
      refine (ih _ _ _ _ hstep).mono fun r s'' hr => ?_
      obtain ⟨pending', acc'', V', rfl, hsweep, hpending⟩ := hr
      refine ⟨pending', acc'', V', rfl, hsweep, fun y hy => ?_⟩
      rcases hpending y hy with hy | ⟨x, hx, f', hf', hy⟩
      · rw [List.mem_union_iff, hmark.next] at hy
        exact hy.imp_right fun hy => ⟨id, List.mem_cons_self, g, hg, hy⟩
      · exact .inr ⟨x, List.mem_cons_of_mem _ hx, f', hf', hy⟩
    · -- the record is there
      obtain ⟨f, hf⟩ := hdom id hid
      by_cases hV : V id
      · rw [h.marked.marked id hV, hf] at hnone
        cases hnone
      · rw [h.marked.kept id hV, hf] at hnone
        cases hnone

/-- **The loop marks everything that comes after**, and ends if the blocks have a rank. -/
theorem wp_markDown (hmark : IsMark mark)
    (hdom : ∀ x, Below s₀.forks start x → ∃ f, s₀.forks.lookup x = some f)
    (hsee : ∀ acc V x f s, J acc V → Below s₀.forks start x → s₀.forks.lookup x = some f →
      s.chain = s₀.chain → Wp total (v acc x (mark f)) s fun r s' =>
        s' = s ∧ ∃ acc', r = .ok acc' ∧ J acc' fun y => V y ∨ y = x)
    {fuel : Nat} {m : BlockId → Nat}
    (hrank : total → (∀ x f, s₀.forks.lookup x = some f → ∀ y ∈ f.nextBlocks, m y < m x) ∧
      ∀ x ∈ start, m x < fuel)
    {a : A} (hacc : J a fun _ => False) :
    Wp total (markDown mark v fuel start a) s₀ fun r s' =>
      ∃ acc', r = .ok acc' ∧ s' = { s₀ with forks := s'.forks } ∧
        MarkedBy mark (Below s₀.forks start) s₀.forks s'.forks ∧
        J acc' (Below s₀.forks start) := by
  suffices hloop : ∀ fuel frontier V acc s, (total → ∀ x ∈ frontier, m x < fuel) →
      Sweep mark J s₀ start V frontier acc s →
      Wp total (markDown mark v fuel frontier acc) s fun r s' =>
        ∃ acc' V', r = .ok acc' ∧ Sweep mark J s₀ start V' [] acc' s' by
    have hsweep : Sweep mark J s₀ start (fun _ => False) start a s₀ :=
      ⟨rfl, .none fun _ h => h, fun _ h => h.elim, fun x hx => .base hx, fun x hx => .inr hx,
        fun _ _ h => h.elim, hacc⟩
    refine (hloop fuel start _ a s₀ (fun ht => (hrank ht).2) hsweep).mono fun r s' hr => ?_
    obtain ⟨acc', V', rfl, hs'⟩ := hr
    have hall : ∀ x, V' x ↔ Below s₀.forks start x := by
      refine fun x => ⟨hs'.within x, fun hx => ?_⟩
      induction hx with
      | base hx => exact (hs'.begun _ hx).resolve_right List.not_mem_nil
      | next _ hf hy ih => exact (hs'.closed _ _ ih hf _ hy).resolve_right List.not_mem_nil
    obtain rfl : V' = Below s₀.forks start := funext fun x => propext (hall x)
    exact ⟨acc', rfl, hs'.state, hs'.marked, hs'.seen⟩
  intro fuel
  induction fuel with
  | zero =>
    intro frontier V acc s hfuel h
    cases frontier with
    | nil => exact ⟨acc, V, rfl, h⟩
    | cons id ids => exact fun ht => absurd (hfuel ht id List.mem_cons_self) (Nat.not_lt_zero _)
  | succ fuel ih =>
    intro frontier V acc s hfuel h
    cases frontier with
    | nil => exact ⟨acc, V, rfl, h⟩
    | cons id ids =>
      simp only [markDown, wp_bind]
      refine (wp_markLevel hmark hdom hsee (id :: ids) [] acc V s
        (by rwa [List.append_nil])).mono fun r s' hr => ?_
      obtain ⟨pending, acc', V', rfl, hsweep, hpending⟩ := hr
      refine ih pending V' acc' s' (fun ht y hy => ?_) hsweep
      -- what waits now is one level further down
      obtain hy | ⟨x, hx, f, hf, hy⟩ := hpending y hy
      · cases hy
      · exact lt_of_lt_of_le ((hrank ht).1 x f hf y hy) (Nat.lt_succ_iff.1 (hfuel ht x hx))

end

end BitShares
