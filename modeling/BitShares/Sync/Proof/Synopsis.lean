import BitShares.Fork.Proof.Tree
import BitShares.Fork.Run
import BitShares.Sync.Synopsis

/-!
# Synchronisation from a synopsis

A node that serves a chain (`ServesChain`) sends a synopsis of it; another node, whose chain shares
the first `c` blocks, answers with its ids from a block `s ≤ c` on that is at most twice as far below
the sender's head as the fork is.

* `Halves`: the numbers of a synopsis, each at least half way from the one before to the head.
* `Halves.lastBelow`: the last of them up to `c`.
* `negotiation`: the answer to the synopsis of the whole chain.
-/

namespace BitShares

open Program ForkM

/-! ## The numbers of a synopsis -/

/-- The numbers from `low` on in a synopsis up to `high`. -/
inductive Halves (high : Nat) : Nat → List Nat → Prop
  | last {low : Nat} (hlow : low ≤ high) (h : high < low + (high - low + 2) / 2) :
      Halves high low [low]
  | step {low : Nat} {l : List Nat} (h : low + (high - low + 2) / 2 ≤ high)
      (hl : Halves high (low + (high - low + 2) / 2) l) : Halves high low (low :: l)

namespace Halves

variable {high low : Nat} {l : List Nat}

theorem mem_le (h : Halves high low l) : ∀ n ∈ l, low ≤ n ∧ n ≤ high := by
  induction h with
  | last hlow _ =>
    intro n hn
    rw [List.mem_singleton] at hn
    omega
  | @step low l hnext _ ih =>
    intro n hn
    rcases List.mem_cons.1 hn with rfl | hn
    · omega
    · have hle := ih n hn
      omega

/-- **The last number up to `c`**: those after it are above `c`, and it is at most twice as far from
the end as `c` is. -/
theorem lastBelow (h : Halves high low l) {c : Nat} (hlow : low ≤ c) (hhigh : c ≤ high) :
    ∃ before n after, l = before ++ n :: after ∧ low ≤ n ∧ n ≤ c ∧ (∀ m ∈ after, c < m) ∧
      high - n ≤ 2 * (high - c) := by
  induction h with
  | @last low _ hend =>
    -- the end is reached exactly
    exact ⟨[], low, [], rfl, le_rfl, hlow, by simp, by omega⟩
  | @step low l hnext hl ih =>
    by_cases hc : low + (high - low + 2) / 2 ≤ c
    · obtain ⟨before, n, after, rfl, hn, hnc, hafter, hbound⟩ := ih hc
      exact ⟨low :: before, n, after, rfl, by omega, hnc, hafter, hbound⟩
    · refine ⟨[], low, l, rfl, le_rfl, hlow, fun m hm => ?_, by omega⟩
      have hle := (hl.mem_le m hm).1
      omega

end Halves

theorem nextSynopsisNum_eq {high low : Nat} (hlow : 1 ≤ low) (hle : low ≤ high)
    (hhigh : high + 1 < 2 ^ 32) : nextSynopsisNum high low = low + (high - low + 2) / 2 := by
  have hsub : (high + 2 ^ 32 - low + 2) % 2 ^ 32 = high - low + 2 := by
    rw [show high + 2 ^ 32 - low + 2 = high - low + 2 + 2 ^ 32 by omega, Nat.add_mod_right]
    exact Nat.mod_eq_of_lt (by omega)
  rw [nextSynopsisNum, hsub]
  exact Nat.mod_eq_of_lt (by omega)

/-! ## Nodes that serve a chain -/

section

variable [Crypto]

/-- The included chain of a node is `ids`, oldest first, and its indexes say so. -/
structure ServesChain (s : ForkState) (ids : List BlockId) : Prop where
  size : ids.length < 2 ^ 32
  head : s.chain.head.blockNum = ids.length
  numbers : ∀ n, s.chain.blockNumToId.lookup n = if n = 0 then none else ids[n - 1]?
  stored : ∀ i id, ids[i]? = some id →
    ∃ b, s.chain.blocks.lookup id = some b ∧ b.id = id ∧ b.blockNum = i + 1
  included : ∀ id ≠ nullId, s.isIncludedBlock id = true ↔ id ∈ ids
  real : nullId ∉ ids

namespace ServesChain

variable {s : ForkState} {ids : List BlockId} {total : Prop}

theorem lookup_num (h : ServesChain s ids) {n : Nat} (hpos : 1 ≤ n) :
    s.chain.blockNumToId.lookup n = ids[n - 1]? := by
  rw [h.numbers, if_neg (Nat.pos_iff_ne_zero.1 hpos)]

theorem ne_nullId (h : ServesChain s ids) {id : BlockId} (hid : id ∈ ids) : id ≠ nullId :=
  fun heq => h.real (heq ▸ hid)

/-! ### The sender -/

theorem wp_synopsisId (h : ServesChain s ids) {n : Nat} (hpos : 1 ≤ n) (hn : n ≤ ids.length) :
    Wp total (synopsisId ids.length [] n) s fun r s' =>
      s' = s ∧ ∃ id, r = .ok id ∧ ids[n - 1]? = some id := by
  have hlt : n - 1 < ids.length := by omega
  have hget := List.getElem?_eq_getElem hlt
  obtain ⟨b, hb, hid, -⟩ := h.stored (n - 1) _ hget
  simp [synopsisId, if_pos hn, wp_fetchBlock, h.lookup_num hpos, hget, hb, hid]

/-- **The loop of the synopsis** lists the ids of halving numbers, and ends. -/
theorem wp_synopsisFrom (h : ServesChain s ids) (hsize : ids.length + 1 < 2 ^ 32) {fuel : Nat}
    {low : Nat} (hlow : 1 ≤ low) (hle : low ≤ ids.length)
    (hfuel : total → ids.length - low < fuel) :
    Wp total (synopsisFrom ids.length ids.length ids.length [] fuel low) s fun r s' =>
      s' = s ∧ ∃ nums l, r = .ok l ∧ Halves ids.length low nums ∧
        nums.map (fun n => ids[n - 1]?) = l.map some := by
  induction fuel generalizing low with
  | zero => exact fun ht => absurd (hfuel ht) (Nat.not_lt_zero _)
  | succ fuel ih =>
    rw [synopsisFrom, wp_bind]
    refine (h.wp_synopsisId hlow hle).mono ?_
    rintro _ s' ⟨rfl, id, rfl, hid⟩
    dsimp only
    rw [nextSynopsisNum_eq hlow hle hsize]
    by_cases hmore : low + (ids.length - low + 2) / 2 ≤ ids.length
    · rw [if_pos hmore, wp_bind]
      refine (ih (by omega) hmore fun ht => ?_).mono ?_
      · have hlt := hfuel ht
        omega
      · rintro _ s' ⟨rfl, nums, l, rfl, hnums, hl⟩
        exact ⟨rfl, low :: nums, id :: l, rfl, .step hmore hnums, by simp [hid, hl]⟩
    · rw [if_neg hmore]
      exact ⟨rfl, [low], [id], rfl, .last hle (not_le.1 hmore), by simp [hid]⟩

theorem wp_synopsisFrom_greatest (h : ServesChain s ids) (hsize : ids.length + 1 = 2 ^ 32)
    {Q : Except Error (List BlockId) → ForkState → Prop} (fuel : Nat) :
    Wp False (synopsisFrom ids.length ids.length ids.length [] fuel 1) s Q := by
  induction fuel generalizing Q with
  | zero => exact fun hfalse => hfalse
  | succ fuel ih =>
    have hnext : nextSynopsisNum ids.length 1 = 1 := by
      rw [show ids.length = 2 ^ 32 - 1 by omega]
      decide
    have hle : 1 ≤ ids.length := by omega
    rw [synopsisFrom, wp_bind]
    refine (h.wp_synopsisId le_rfl hle).mono ?_
    rintro _ s' ⟨rfl, id, rfl, -⟩
    dsimp only
    rw [hnext, if_pos hle, wp_bind]
    exact ih

/-- **The synopsis of the whole chain.** -/
theorem wp_getBlockchainSynopsis (h : ServesChain s ids) (hpos : 1 ≤ ids.length) {fuel : Nat}
    (hfuel : total → ids.length + 1 < 2 ^ 32 ∧ ids.length ≤ fuel) :
    Wp total (getBlockchainSynopsis fuel blockMessageType nullId 0) s fun r s' =>
      s' = s ∧ ∃ nums l, r = .ok l ∧ Halves ids.length 1 nums ∧
        nums.map (fun n => ids[n - 1]?) = l.map some := by
  have hsize := h.size
  have hne : ids.length ≠ 0 := by omega
  simp only [getBlockchainSynopsis, ne_eq, not_true, if_false, if_true, wp_bind, wp_get, h.head,
    if_neg hne, Nat.add_zero, Nat.mod_eq_of_lt hsize]
  rcases Nat.lt_or_eq_of_le (Nat.succ_le_of_lt hsize) with hlt | heq
  · refine h.wp_synopsisFrom hlt le_rfl hpos fun ht => ?_
    have hle := (hfuel ht).2
    omega
  · by_cases ht : total
    · exact absurd heq (hfuel ht).1.ne
    · simp only [ht]
      exact h.wp_synopsisFrom_greatest heq fuel

/-! ### The receiver -/

theorem seen_iff (h : ServesChain s ids) {id : BlockId} (hid : id ≠ nullId) :
    ((s.getBlockNum id).isOk && s.isIncludedBlock id) = true ↔ id ∈ ids := by
  rw [Bool.and_eq_true, h.included id hid, and_iff_right_iff_imp]
  intro hmem
  obtain ⟨i, hi⟩ := List.mem_iff_getElem?.1 hmem
  obtain ⟨b, hb, -⟩ := h.stored i id hi
  rw [ForkState.getBlockNum, if_neg hid, hb]
  rfl

theorem getBlockNum_eq (h : ServesChain s ids) {i : Nat} {id : BlockId} (hi : ids[i]? = some id) :
    s.getBlockNum id = .ok (i + 1) := by
  obtain ⟨b, hb, -, hnum⟩ := h.stored i id hi
  rw [ForkState.getBlockNum, if_neg (h.ne_nullId (List.mem_of_getElem? hi)), hb, ← hnum]
  rfl

theorem lastSeenBlockNum_eq (h : ServesChain s ids) {before after : List BlockId} {id : BlockId}
    {n : Nat} (hpos : 1 ≤ n) (hid : ids[n - 1]? = some id)
    (hafter : ∀ id ∈ after, id ≠ nullId ∧ id ∉ ids) :
    s.lastSeenBlockNum (before ++ id :: after) = n := by
  have hmem := List.mem_of_getElem? hid
  have hfind : (before ++ id :: after).reverse.find?
      (fun id => (s.getBlockNum id).isOk && s.isIncludedBlock id) = some id := by
    rw [List.reverse_append, List.reverse_cons, List.append_assoc, List.find?_append,
      List.find?_eq_none.2, Option.none_or, List.singleton_append, List.find?_cons_of_pos]
    · exact (h.seen_iff (h.ne_nullId hmem)).2 hmem
    · intro x hx
      have hout := hafter x (List.mem_reverse.1 hx)
      exact fun hseen => hout.2 ((h.seen_iff hout.1).1 hseen)
  rw [ForkState.lastSeenBlockNum, hfind]
  dsimp only
  rw [h.getBlockNum_eq hid, Nat.sub_add_cancel hpos]
  rfl

theorem blockIdsFrom_eq (h : ServesChain s ids) {n count : Nat} (hn : 1 ≤ n)
    (hcount : n - 1 + count ≤ ids.length) :
    s.blockIdsFrom n count = some ((ids.drop (n - 1)).take count) := by
  induction count generalizing n with
  | zero => simp [ForkState.blockIdsFrom]
  | succ count ih =>
    have hlt : n - 1 < ids.length := by omega
    have hrest := ih (n := n + 1) (by omega) (by omega)
    rw [ForkState.blockIdsFrom] at hrest
    rw [ForkState.blockIdsFrom, List.range'_succ, List.mapM_cons, h.lookup_num hn, hrest,
      List.getElem?_eq_getElem hlt, List.drop_eq_getElem_cons hlt, List.take_succ_cons,
      Nat.sub_add_cancel hn]
    rfl

/-- **The answer to a synopsis** whose last id of the chain is block `n`. -/
theorem getItemIds_eq (h : ServesChain s ids) {synopsis : List BlockId} {n : Nat} (hpos : 1 ≤ n)
    (hn : n ≤ ids.length) (hseen : s.lastSeenBlockNum synopsis = n)
    (hlimit : synopsis.length ≤ SYNOPSIS_SIZE_LIMIT) (limit : Nat) :
    s.getItemIds blockMessageType synopsis limit =
      .ok ((ids.drop (n - 1)).take limit, ids.length - n + 1 - limit) := by
  have hsize := h.size
  have hremaining : (ids.length - n + 1) % 2 ^ 32 = ids.length - n + 1 :=
    Nat.mod_eq_of_lt (by omega)
  have hids : s.blockIdsFrom n (min limit (ids.length - n + 1)) = _ :=
    h.blockIdsFrom_eq hpos (by omega)
  have htake : (ids.drop (n - 1)).take (min limit (ids.length - n + 1)) =
      (ids.drop (n - 1)).take limit := by
    rw [show ids.length - n + 1 = (ids.drop (n - 1)).length by rw [List.length_drop]; omega,
      ← List.take_eq_take_min]
  have hne : ids.length ≠ 0 := by omega
  simp only [ForkState.getItemIds, require, if_true, if_pos hlimit, h.head, if_neg hne, hseen,
    Nat.min_eq_left hn, hremaining, hids, htake]
  exact congrArg (fun k => Except.ok ((ids.drop (n - 1)).take limit, k)) (by omega)

end ServesChain

/-! ## The negotiation -/

/-- Two chains have exactly the first `c` blocks in common. -/
structure SharePrefix (a b : List BlockId) (c : Nat) : Prop where
  left : c ≤ a.length
  right : c ≤ b.length
  same : a.take c = b.take c
  apart : ∀ id ∈ a.drop c, id ∉ b

/-- An answer to the synopsis of `a` with ids of `b` from block `start` on. -/
structure Answers (a b : List BlockId) (c limit : Nat) (synopsis : List BlockId)
    (answer : List BlockId × Nat) (start : Nat) : Prop where
  positive : 1 ≤ start
  shared : start ≤ c
  listed : ∃ id ∈ synopsis, b[start - 1]? = some id
  near : a.length - start ≤ 2 * (a.length - c)
  consecutive : answer.1 = (b.drop (start - 1)).take limit
  count : answer.1.length + answer.2 = b.length - start + 1

namespace SharePrefix

variable {a b : List BlockId} {c : Nat}

omit [Crypto] in
theorem getElem?_eq (h : SharePrefix a b c) {i : Nat} (hi : i < c) : a[i]? = b[i]? := by
  rw [← List.getElem?_take_of_lt hi, h.same, List.getElem?_take_of_lt hi]

omit [Crypto] in
theorem not_mem_of_le (h : SharePrefix a b c) {i : Nat} {id : BlockId} (hi : c ≤ i)
    (hid : a[i]? = some id) : id ∉ b := by
  refine h.apart id (List.mem_of_getElem? (i := i - c) ?_)
  rw [List.getElem?_drop, Nat.add_sub_cancel' hi, hid]

/-- **The block where the answer starts.** -/
theorem answers (h : SharePrefix a b c) (hc : 1 ≤ c) {sa sb : ForkState} (ha : ServesChain sa a)
    (hb : ServesChain sb b) {nums : List Nat} {synopsis : List BlockId}
    (hnums : Halves a.length 1 nums)
    (hsynopsis : nums.map (fun n => a[n - 1]?) = synopsis.map some)
    (hsize : synopsis.length ≤ SYNOPSIS_SIZE_LIMIT) (limit : Nat) :
    ∃ answer start, sb.getItemIds blockMessageType synopsis limit = .ok answer ∧
      Answers a b c limit synopsis answer start := by
  obtain ⟨before, n, after, rfl, hpos, hnc, hafter, hnear⟩ := hnums.lastBelow hc h.left
  -- the synopsis splits where its numbers do
  rw [List.map_append, List.map_cons] at hsynopsis
  obtain ⟨idsBefore, rest, rfl, hbefore, hrest⟩ := List.map_eq_append_iff.1 hsynopsis.symm
  obtain ⟨id, idsAfter, rfl, hid, hidsAfter⟩ := List.map_eq_cons_iff.1 hrest
  have hidb : b[n - 1]? = some id := by
    rw [← h.getElem?_eq (by omega), ← hid]
  have hout : ∀ x ∈ idsAfter, x ≠ nullId ∧ x ∉ b := by
    intro x hx
    have hmem : some x ∈ after.map fun m => a[m - 1]? := hidsAfter ▸ List.mem_map_of_mem hx
    obtain ⟨m, hm, hxm⟩ := List.mem_map.1 hmem
    have hcm := hafter m hm
    exact ⟨ha.ne_nullId (List.mem_of_getElem? hxm), h.not_mem_of_le (by omega) hxm⟩
  have hle : n ≤ b.length := hnc.trans h.right
  refine ⟨_, n, hb.getItemIds_eq hpos hle (hb.lastSeenBlockNum_eq hpos hidb hout) hsize limit,
    hpos, hnc, ⟨id, by simp, hidb⟩, hnear, rfl, ?_⟩
  rw [List.length_take, List.length_drop]
  omega

end SharePrefix

/-- **Sync negotiation.**  Feeding the synopsis of one node to another whose chain shares the first
`c` blocks gives ids from a shared block of the synopsis on, near the fork.  The synopsis is
returned at every head number below the greatest of 32 bits. -/
theorem negotiation {sa sb : ForkState} {a b : List BlockId} {c : Nat} (ha : ServesChain sa a)
    (hb : ServesChain sb b) (hc : 1 ≤ c) (hshare : SharePrefix a b c) :
    (∀ fuel, a.length + 1 < 2 ^ 32 → a.length ≤ fuel → ∃ synopsis,
      getBlockchainSynopsis fuel blockMessageType nullId 0 sa = some (.ok synopsis, sa)) ∧
    ∀ fuel r sa', getBlockchainSynopsis fuel blockMessageType nullId 0 sa = some (r, sa') →
      ∃ synopsis, r = .ok synopsis ∧ (synopsis.length ≤ SYNOPSIS_SIZE_LIMIT → ∀ limit,
        ∃ answer start, sb.getItemIds blockMessageType synopsis limit = .ok answer ∧
          Answers a b c limit synopsis answer start) := by
  have hpos : 1 ≤ a.length := hc.trans hshare.left
  constructor
  · intro fuel hsize hfuel
    obtain ⟨_, s', hrun, rfl, _, l, rfl, -⟩ :=
      (ha.wp_getBlockchainSynopsis hpos fun _ => ⟨hsize, hfuel⟩).ends
    exact ⟨l, hrun⟩
  · intro fuel r sa' hrun
    have hwp : Wp False (getBlockchainSynopsis fuel blockMessageType nullId 0) sa _ :=
      ha.wp_getBlockchainSynopsis hpos False.elim
    obtain ⟨-, nums, l, rfl, hnums, hl⟩ := hwp.of_eq hrun
    exact ⟨l, rfl, fun hsize limit => hshare.answers hc ha hb hnums hl hsize limit⟩

end

/-- A node with the blocks `first` and `second`. -/
def twoBlocks [Crypto] (first second : FullBlock) : ForkState where
  chain :=
    { tables := soloTables 100
      headId := second.id
      head := second.toSignedBlockHeader
      blocks := (Finmap.singleton first.id first).insert second.id second
      blockNumToId := (Finmap.singleton 1 first.id).insert 2 second.id }
  forks := (Finmap.singleton first.id { isIncluded := true }).insert second.id
    { isIncluded := true }

theorem servesChain_twoBlocks [Crypto] {first second : FullBlock} (hfirst : first.blockNum = 1)
    (hsecond : second.blockNum = 2) (hne : first.id ≠ second.id) (hreal : first.id ≠ nullId)
    (hreal' : second.id ≠ nullId) :
    ServesChain (twoBlocks first second) [first.id, second.id] where
  size := by simp
  head := hsecond
  numbers := by
    intro n
    rw [twoBlocks, Table.lookup_insert_eq]
    match n with
    | 0 => rfl
    | 1 => exact Finmap.lookup_singleton_eq
    | 2 => rfl
    | n + 3 =>
      exact Table.lookup_singleton_of_ne _ (Nat.succ_ne_succ_iff.2 (Nat.succ_ne_zero (n + 1)))
  stored := by
    intro i id hi
    match i with
    | 0 =>
      obtain rfl : first.id = id := by simpa using hi
      refine ⟨first, ?_, rfl, hfirst⟩
      rw [twoBlocks, Table.lookup_insert_eq, if_neg hne, Finmap.lookup_singleton_eq]
    | 1 =>
      obtain rfl : second.id = id := by simpa using hi
      exact ⟨second, Finmap.lookup_insert _, rfl, hsecond⟩
    | i + 2 => simp at hi
  included := by
    intro id _
    rw [ForkState.isIncludedBlock, twoBlocks, Table.lookup_insert_eq]
    by_cases h₂ : id = second.id
    · simp [h₂]
    · by_cases h₁ : id = first.id
      · subst h₁
        simp [hne, Finmap.lookup_singleton_eq]
      · simp [h₁, h₂, Table.lookup_singleton_of_ne _ h₁]
  real := by simp [hreal.symm, hreal'.symm]

theorem negotiation_twoBlocks :
    letI := Crypto.transparent
    let first := soloBlock 1 nullId 10 []
    let second := soloBlock 2 15 20 []
    let other := { soloBlock 2 15 20 [] with delegateSignature := 6 }
    ∃ synopsis, getBlockchainSynopsis 2 blockMessageType nullId 0 (twoBlocks first second) =
        some (.ok synopsis, twoBlocks first second) ∧
      ∃ answer start,
        (twoBlocks first other).getItemIds blockMessageType synopsis 1 = .ok answer ∧
        Answers [15, 25] [15, 26] 1 1 synopsis answer start := by
  let := Crypto.transparent
  have hshare : SharePrefix [15, 25] [15, 26] 1 := ⟨by simp, by simp, rfl, by simp⟩
  let first := soloBlock 1 nullId 10 []
  let second := soloBlock 2 15 20 []
  let other := { soloBlock 2 15 20 [] with delegateSignature := 6 }
  have hA : ServesChain (twoBlocks first second) [15, 25] :=
    servesChain_twoBlocks rfl rfl (by decide) (by decide) (by decide)
  have hB : ServesChain (twoBlocks first other) [15, 26] :=
    servesChain_twoBlocks rfl rfl (by decide) (by decide) (by decide)
  obtain ⟨hends, hanswers⟩ := negotiation hA hB le_rfl hshare
  obtain ⟨synopsis, hrun⟩ := hends 2 (by simp) le_rfl
  have hsynopsis : (getBlockchainSynopsis 2 blockMessageType nullId 0 (twoBlocks first second)).map
      (fun p => p.1.toOption) = some (some [15, 25]) := by
    decide +kernel
  obtain rfl : synopsis = [15, 25] := by simpa [hrun, Except.toOption] using hsynopsis
  obtain ⟨_, heq, hanswer⟩ := hanswers 2 _ _ hrun
  obtain rfl := Except.ok.inj heq
  exact ⟨_, hrun, hanswer (by decide) 1⟩

end BitShares
