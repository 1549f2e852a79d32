import BitShares.Sync.Proof.Synopsis

/-!
# How long a synopsis is

The numbers of a synopsis halve the distance to the head, so that a chain of `n` blocks has a synopsis
of `log2 n + 1` ids.  The limit of `get_item_ids` is `log2` of the blocks of twenty years, cut off to
25, without the one more.

* `Halves.length_eq`: the exact length.
* `synopsis_accepted`: when the synopsis of a chain is accepted.
* `synopsis_refused`: a chain of `2 ^ 25` blocks, a little over ten years.
-/

namespace BitShares

open Program ForkM

theorem Halves.length_eq {high low : Nat} {l : List Nat} (h : Halves high low l) :
    l.length = Nat.log2 (high - low + 1) + 1 := by
  induction h with
  | @last low hlow hend =>
    obtain rfl : low = high := by omega
    rw [Nat.sub_self]
    rfl
  | @step low l hnext _ ih =>
    have hhalf : high - (low + (high - low + 2) / 2) + 1 = (high - low + 1) / 2 := by omega
    rw [List.length_cons, ih, hhalf, Nat.log2_def (high - low + 1), if_pos (by omega)]

theorem log2_lt_limit_iff {n : Nat} (hpos : 1 ≤ n) :
    Nat.log2 n + 1 ≤ SYNOPSIS_SIZE_LIMIT ↔ n < 2 ^ 25 := by
  have hlimit : SYNOPSIS_SIZE_LIMIT = 25 := by decide +kernel
  rw [hlimit, Nat.succ_le_iff, Nat.log2_lt (by omega)]

/-! ## The answer of the other node -/

theorem ForkState.getItemIds_isOk_iff (s : ForkState) (synopsis : List BlockId) (limit : Nat) :
    (∃ answer, s.getItemIds blockMessageType synopsis limit = .ok answer) ↔
      synopsis.length ≤ SYNOPSIS_SIZE_LIMIT := by
  unfold getItemIds
  constructor
  · rintro ⟨answer, h⟩
    simp only [bind_eq_ok, require_eq_ok] at h
    obtain ⟨-, -, -, hlength, -⟩ := h
    exact hlength
  · intro hlength
    simp only [bind_eq_ok, require_eq_ok]
    have hrest : ∀ (x : Except Error (List BlockId × Nat)), (∃ answer, x = .ok answer) →
        ∃ answer, ∃ _ : Unit, True ∧ ∃ _ : Unit,
          synopsis.length ≤ SYNOPSIS_SIZE_LIMIT ∧ x = .ok answer :=
      fun x ⟨answer, hx⟩ => ⟨answer, (), trivial, (), hlength, hx⟩
    refine hrest _ ?_
    split_ifs
    · exact ⟨_, rfl⟩
    · split
      · exact ⟨_, rfl⟩
      · exact ⟨_, rfl⟩

/-! ## The synopsis for the head -/

section

variable [Crypto]

namespace ServesChain

variable {s : ForkState} {ids : List BlockId} {total : Prop}

theorem wp_referencedChain (h : ServesChain s ids) {head : BlockId}
    (hhead : ids.getLast? = some head) (fuel : Nat) :
    Wp total (referencedChain fuel head) s fun r s' =>
      s' = s ∧ r = .ok (ids.length, ids.length, []) := by
  have hmem : head ∈ ids := List.mem_of_getLast? hhead
  have hne := h.ne_nullId hmem
  have hpos : 0 < ids.length := List.length_pos_of_mem hmem
  rw [List.getLast?_eq_getElem?] at hhead
  obtain ⟨b, hb, -, hnum⟩ := h.stored _ _ hhead
  have hnum' : b.blockNum = ids.length := hnum.trans (Nat.sub_add_cancel hpos)
  simp [referencedChain, fetchBlockNum, wp_fetchBlock, (h.included head hne).2 hmem, hne, hb, hnum']

/-- **The synopsis for the head** has one id more than the logarithm of its number. -/
theorem synopsis_head (h : ServesChain s ids) (hsize : ids.length + 1 < 2 ^ 32)
    {reference : BlockId} (hreference : reference = nullId ∨ ids.getLast? = some reference)
    {fuel : Nat} (hfuel : ids.length ≤ fuel) :
    ∃ synopsis, getBlockchainSynopsis fuel blockMessageType reference 0 s =
      some (.ok synopsis, s) ∧
      synopsis.length = if ids.length = 0 then 0 else Nat.log2 ids.length + 1 := by
  have hloop : 1 ≤ ids.length → Wp True
      (synopsisFrom ids.length ids.length ids.length [] fuel 1) s fun r s' =>
        s' = s ∧ ∃ l, r = .ok l ∧ l.length = Nat.log2 ids.length + 1 := by
    intro hpos
    refine (h.wp_synopsisFrom hsize le_rfl hpos fun _ => by omega).mono ?_
    rintro _ s' ⟨rfl, nums, l, rfl, hnums, hl⟩
    have hlength : nums.length = l.length := by simpa using congrArg List.length hl
    refine ⟨rfl, l, rfl, ?_⟩
    rw [← hlength, hnums.length_eq, Nat.sub_add_cancel hpos]
  obtain hempty | hpos := Nat.eq_zero_or_pos ids.length
  · -- a chain without blocks has no head to refer to
    obtain rfl : ids = [] := List.length_eq_zero_iff.1 hempty
    obtain rfl : reference = nullId := hreference.resolve_right (by simp)
    refine ⟨[], ?_, rfl⟩
    have hhead : s.chain.head.blockNum = 0 := h.head
    have hwp : Wp True (getBlockchainSynopsis fuel blockMessageType nullId 0) s fun r s' =>
        s' = s ∧ r = .ok [] := by
      simp [getBlockchainSynopsis, hhead]
    obtain ⟨r, s', hrun, rfl, rfl⟩ := hwp.ends
    exact hrun
  · have hne : ids.length ≠ 0 := by omega
    have hwp : Wp True (getBlockchainSynopsis fuel blockMessageType reference 0) s fun r s' =>
        s' = s ∧ ∃ l, r = .ok l ∧ l.length = Nat.log2 ids.length + 1 := by
      have hmod : ids.length % 2 ^ 32 = ids.length := Nat.mod_eq_of_lt (by omega)
      obtain rfl | hhead := hreference
      · simp only [getBlockchainSynopsis, ne_eq, not_true, if_false, if_true, wp_bind, wp_get, h.head,
          if_neg hne, Nat.add_zero, hmod]
        exact hloop hpos
      · have hreal := h.ne_nullId (List.mem_of_getLast? hhead)
        simp only [getBlockchainSynopsis, ne_eq, not_true, if_false, if_neg hreal, wp_bind, wp_attempt]
        refine (h.wp_referencedChain hhead fuel).mono ?_
        rintro _ s' ⟨rfl, rfl⟩
        simp only [wp_pure, Nat.add_zero, hmod]
        exact hloop hpos
    obtain ⟨r, s', hrun, rfl, l, rfl, hlength⟩ := hwp.ends
    exact ⟨l, hrun, by rw [if_neg hne, hlength]⟩

end ServesChain

/-- **Synopsis acceptance.**  The synopsis for the head of a chain of at most twenty years is within
the limit, and answered by every node, if and only if the chain has fewer than `2 ^ 25` blocks. -/
theorem synopsis_accepted {s : ForkState} {ids : List BlockId} (h : ServesChain s ids)
    (hsize : ids.length ≤ 20 * BLOCKS_PER_YEAR) {reference : BlockId}
    (hreference : reference = nullId ∨ ids.getLast? = some reference) {fuel : Nat}
    (hfuel : ids.length ≤ fuel) :
    ∃ synopsis, getBlockchainSynopsis fuel blockMessageType reference 0 s =
        some (.ok synopsis, s) ∧
      (synopsis.length ≤ SYNOPSIS_SIZE_LIMIT ↔ ids.length < 2 ^ 25) ∧
      ∀ (t : ForkState) (limit : Nat),
        (∃ answer, t.getItemIds blockMessageType synopsis limit = .ok answer) ↔
          ids.length < 2 ^ 25 := by
  have hyears : 20 * BLOCKS_PER_YEAR + 1 < 2 ^ 32 := by decide
  obtain ⟨synopsis, hrun, hlength⟩ := h.synopsis_head (by omega) hreference hfuel
  have hiff : synopsis.length ≤ SYNOPSIS_SIZE_LIMIT ↔ ids.length < 2 ^ 25 := by
    obtain hempty | hpos := Nat.eq_zero_or_pos ids.length
    · rw [hlength, if_pos hempty, hempty]
      exact iff_of_true (Nat.zero_le _) (by decide)
    · rw [hlength, if_neg (by omega)]
      exact log2_lt_limit_iff hpos
  exact ⟨synopsis, hrun, hiff, fun t limit => (t.getItemIds_isOk_iff synopsis limit).trans hiff⟩

end

/-! ## Long chains -/

section

variable [Crypto]

def ForkState.serving (s : ForkState) (b : FullBlock) : ForkState :=
  { s with
    chain := { s.chain with
      headId := b.id
      head := b.toSignedBlockHeader
      blocks := s.chain.blocks.insert b.id b
      blockNumToId := s.chain.blockNumToId.insert b.blockNum b.id }
    forks := s.forks.insert b.id { isIncluded := true } }

theorem ServesChain.serving {s : ForkState} {ids : List BlockId} (h : ServesChain s ids)
    {b : FullBlock} (hnum : b.blockNum = ids.length + 1) (hsize : ids.length + 1 < 2 ^ 32)
    (hnew : b.id ∉ ids) (hreal : b.id ≠ nullId) : ServesChain (s.serving b) (ids ++ [b.id]) where
  size := by simpa using hsize
  head := by
    rw [List.length_append, List.length_singleton]
    exact hnum
  numbers n := by
    have hnumbers : (s.serving b).chain.blockNumToId.lookup n =
        if n = ids.length + 1 then some b.id else s.chain.blockNumToId.lookup n := by
      rw [← hnum]
      exact Table.lookup_insert_eq ..
    rw [hnumbers, h.numbers n]
    match n with
    | 0 => rfl
    | n + 1 =>
      rw [if_neg (Nat.succ_ne_zero n), if_neg (Nat.succ_ne_zero n), Nat.add_sub_cancel]
      rcases lt_trichotomy n ids.length with hlt | heq | hgt
      · rw [if_neg fun hn => hlt.ne (Nat.succ.inj hn), List.getElem?_append_left hlt]
      · rw [if_pos (congrArg Nat.succ heq), heq, List.getElem?_append_right le_rfl, Nat.sub_self]
        rfl
      · rw [if_neg fun hn => hgt.ne' (Nat.succ.inj hn), List.getElem?_eq_none hgt.le,
          List.getElem?_eq_none]
        rw [List.length_append, List.length_singleton]
        exact hgt
  stored i id hi := by
    have hblocks : (s.serving b).chain.blocks.lookup id =
        if id = b.id then some b else s.chain.blocks.lookup id := Table.lookup_insert_eq ..
    obtain hlt | hge := Nat.lt_or_ge i ids.length
    · rw [List.getElem?_append_left hlt] at hi
      have hne : id ≠ b.id := fun heq => hnew (heq ▸ List.mem_of_getElem? hi)
      rw [hblocks, if_neg hne]
      exact h.stored i id hi
    · rw [List.getElem?_append_right hge] at hi
      obtain ⟨hlt, hid⟩ := List.getElem?_eq_some_iff.1 hi
      rw [List.getElem_singleton] at hid
      obtain rfl : i = ids.length := le_antisymm (Nat.sub_eq_zero_iff_le.1 (Nat.lt_one_iff.1 hlt)) hge
      exact ⟨b, by rw [hblocks, if_pos hid.symm], hid, hnum⟩
  included id hid := by
    have hforks : (s.serving b).forks.lookup id =
        if id = b.id then some { isIncluded := true } else s.forks.lookup id :=
      Table.lookup_insert_eq ..
    rw [ForkState.isIncludedBlock, hforks, List.mem_append, List.mem_singleton]
    split_ifs with heq
    · exact iff_of_true rfl (.inr heq)
    · rw [← ForkState.isIncludedBlock, h.included id hid, or_iff_left heq]
  real := by
    rw [List.mem_append, List.mem_singleton, not_or]
    exact ⟨h.real, hreal.symm⟩

end

/-- A node that serves `n` blocks. -/
def longChain [Crypto] : Nat → ForkState
  | 0 => { chain := { tables := soloTables 100 }, forks := ∅ }
  | n + 1 => (longChain n).serving (soloBlock (n + 1) nullId 10 [])

theorem servesChain_longChain (n : Nat) (hn : n < 2 ^ 32) :
    letI := Crypto.transparent
    ServesChain (longChain n) ((List.range n).map fun i => 10 * (i + 1) + 5) := by
  let := Crypto.transparent
  induction n with
  | zero =>
    refine ⟨by decide, rfl, fun n => ?_, fun i id hi => ?_, fun id _ => ?_, List.not_mem_nil⟩
    · split_ifs <;> rfl
    · cases hi
    · exact iff_of_false Bool.false_ne_true List.not_mem_nil
  | succ n ih =>
    have hlength : ((List.range n).map fun i => 10 * (i + 1) + 5).length = n := by simp
    rw [List.range_succ, List.map_append]
    refine (ih (by omega)).serving ?_ ?_ ?_ ?_
    · rw [hlength]
      rfl
    · rw [hlength]
      exact hn
    · intro hmem
      obtain ⟨i, hi, heq⟩ := List.mem_map.1 hmem
      have hlt := List.mem_range.1 hi
      have hsame : i + 1 = n + 1 := Nat.eq_of_mul_eq_mul_left (by decide : 0 < 10)
        (Nat.add_right_cancel heq)
      exact hlt.ne (Nat.succ.inj hsame)
    · exact fun heq : 10 * (n + 1) + 5 = 0 => by omega

theorem synopsis_accepted_three :
    letI := Crypto.transparent
    ∃ synopsis, getBlockchainSynopsis 3 blockMessageType nullId 0 (longChain 3) =
        some (.ok synopsis, longChain 3) ∧
      ∃ answer, (longChain 3).getItemIds blockMessageType synopsis 2 = .ok answer := by
  let := Crypto.transparent
  obtain ⟨synopsis, hrun, -, haccepted⟩ := synopsis_accepted
    (servesChain_longChain 3 (by decide)) (by decide) (.inl rfl)
    (show _ ≤ 3 by decide)
  exact ⟨synopsis, hrun, (haccepted (longChain 3) 2).2 (by decide)⟩

/-- **A chain of a little over ten years**: its synopsis is one id longer than the limit, and is
refused by every node. -/
theorem synopsis_refused :
    letI := Crypto.transparent
    ∃ s ids, ServesChain s ids ∧ ids.length = 2 ^ 25 ∧ ids.length ≤ 20 * BLOCKS_PER_YEAR ∧
      ∃ synopsis, getBlockchainSynopsis (2 ^ 25) blockMessageType nullId 0 s =
          some (.ok synopsis, s) ∧
        synopsis.length = SYNOPSIS_SIZE_LIMIT + 1 ∧
        ∀ (t : ForkState) (limit : Nat) (answer : List BlockId × Nat),
          t.getItemIds blockMessageType synopsis limit ≠ .ok answer := by
  let := Crypto.transparent
  have hserves := servesChain_longChain (2 ^ 25) (by decide)
  have hlength : ((List.range (2 ^ 25)).map fun i => 10 * (i + 1) + 5).length = 2 ^ 25 := by
    rw [List.length_map, List.length_range]
  obtain ⟨synopsis, hrun, hsynopsis⟩ :=
    hserves.synopsis_head (by rw [hlength]; decide) (.inl rfl) hlength.le
  rw [hlength, if_neg (by decide), Nat.log2_two_pow] at hsynopsis
  have hlimit : SYNOPSIS_SIZE_LIMIT = 25 := by decide +kernel
  refine ⟨_, _, hserves, hlength, by rw [hlength]; decide, synopsis, hrun, by omega,
    fun t limit answer hanswer => ?_⟩
  have hle := (t.getItemIds_isOk_iff synopsis limit).1 ⟨answer, hanswer⟩
  omega

end BitShares
