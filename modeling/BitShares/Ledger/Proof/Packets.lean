import BitShares.Ledger.Proof.Operations

/-!
# The shares of a red packet

A packet's amount is cut into units, the units are halved until they are few, and the shares are
the gaps between randomly drawn cuts.  No share is negative (`RedPacketOperation.shares_nonneg`):
the cuts are sorted and the unit has not wrapped.
-/

namespace BitShares

theorem pickMax_le {i : Nat} {num num' : UInt64} {max y max' : Nat}
    (h : pickMax i num max = some (y, num', max')) : y ≤ max ∧ max' ≤ max := by
  induction max with
  | zero => cases h
  | succ m ih =>
    rw [pickMax_add_one] at h
    split at h
    · cases h
      exact ⟨le_rfl, Nat.le_succ _⟩
    · obtain ⟨hy, hm⟩ := ih h
      exact ⟨hy.trans (Nat.le_succ m), hm.trans (Nat.le_succ m)⟩

theorem le_of_mem_unrankFrom {k : Nat} {num : UInt64} {max x : Nat}
    (h : x ∈ unrankFrom k num max) : x ≤ max ∨ x < k := by
  induction k generalizing num max with
  | zero => cases h
  | succ k ih =>
    rw [unrankFrom_add_one] at h
    split at h
    · rcases List.mem_cons.1 h with rfl | h
      · exact .inr (Nat.lt_succ_self _)
      · exact (ih h).imp id Nat.lt_succ_of_lt
    · split at h
      · rename_i y num' max' hpick
        obtain ⟨hy, hmax⟩ := pickMax_le hpick
        rcases List.mem_cons.1 h with rfl | h
        · exact .inl hy
        · rcases ih h with hx | hx
          · exact .inl (hx.trans hmax)
          · exact .inr (Nat.lt_succ_of_lt hx)
      · rcases ih h with hx | hx
        · exact .inl (hx.trans (Nat.zero_le _))
        · exact .inr (Nat.lt_succ_of_lt hx)

theorem le_of_mem_unranking {num : UInt64} {k n x : Nat} (h : x ∈ unranking num k n) :
    x ≤ n ∨ x < k :=
  le_of_mem_unrankFrom ((List.mem_insertionSort _).1 h)

/-- `j` halvings: the unit is doubled `j` times, and if there was one, more units are left than
shares. -/
theorem splitSpace_spec {count : UInt32} (hcount : count ≤ 30) (fuel : Nat) (total : UInt32)
    (unit : ShareType) :
    ∃ j, (splitSpace count fuel total unit).2 = unit * Int64.ofInt (2 ^ j) ∧
      (splitSpace count fuel total unit).1.toNat = total.toNat / 2 ^ j ∧
      (j = 0 ∨ count.toNat < (splitSpace count fuel total unit).1.toNat) := by
  induction fuel generalizing total unit with
  | zero => exact ⟨0, by simp [splitSpace], by simp [splitSpace], .inl rfl⟩
  | succ fuel ih =>
    rw [splitSpace]
    split
    · rename_i hlt
      obtain ⟨j, hunit, htotal, hleft⟩ := ih (total / 2) (unit * 2)
      have hhalf : (total / 2).toNat = total.toNat / 2 := by simp
      refine ⟨j + 1, ?_, ?_, .inr ?_⟩
      · rw [hunit, pow_succ, Int64.ofInt_mul]
        have h2 : Int64.ofInt 2 = 2 := rfl
        rw [h2]
        grind
      · rw [htotal, hhalf, Nat.div_div_eq_div_mul, pow_succ']
      · rcases hleft with rfl | hleft
        · -- the last halving: twice the shares were fewer than the units
          have h30 : count.toNat ≤ 30 := by simpa [UInt32.le_iff_toNat_le] using hcount
          have hlt' := UInt32.lt_iff_toNat_lt.1 hlt
          simp only [UInt32.toNat_mul, UInt32.toNat_add, UInt32.reduceToNat] at hlt'
          rw [htotal, hhalf, pow_zero, Nat.div_one]
          omega
        · exact hleft
    · exact ⟨0, by simp, by simp, .inl rfl⟩

theorem toInt_units {v j : Nat} (h : v * 2 ^ j ≤ 2 ^ 32) :
    (Int64.ofInt v * (MIN_RED_PACKET_UNIT * Int64.ofInt (2 ^ j))).toInt = v * 2 ^ j * 100000 := by
  have hunit : MIN_RED_PACKET_UNIT = Int64.ofInt 100000 := rfl
  have hsplit : (v : Int) * (100000 * 2 ^ j) = v * 2 ^ j * 100000 := by ring
  have hle : (v : Int) * 2 ^ j ≤ 2 ^ 32 := by exact_mod_cast h
  have h0 : 0 ≤ (v : Int) * 2 ^ j := by positivity
  rw [hunit, ← Int64.ofInt_mul, ← Int64.ofInt_mul, hsplit,
    Int64.toInt_ofInt_of_le (by omega) (by omega)]

theorem units_nonneg {v j : Nat} (h : v * 2 ^ j ≤ 2 ^ 32) :
    0 ≤ (Int64.ofInt v * (MIN_RED_PACKET_UNIT * Int64.ofInt (2 ^ j))).toInt := by
  rw [toInt_units h]
  positivity

theorem exists_of_mem_gaps {l : List Nat} {b : Nat} (hs : l.Pairwise (· ≤ ·)) (hb : ∀ x ∈ l, x ≤ b)
    {g : Int} (hg : g ∈ gaps l) : ∃ v : Nat, g = v ∧ v ≤ b := by
  induction l with
  | nil => simp [gaps] at hg
  | cons x l ih =>
    cases l with
    | nil => simp [gaps] at hg
    | cons y l =>
      rw [gaps] at hg
      have hxy : x ≤ y := (List.pairwise_cons.1 hs).1 y List.mem_cons_self
      have hy : y ≤ b := hb y (List.mem_cons_of_mem _ List.mem_cons_self)
      rcases List.mem_cons.1 hg with rfl | hg
      · exact ⟨y - x, by omega, by omega⟩
      · exact ih (List.pairwise_cons.1 hs).2 (fun z hz => hb z (List.mem_cons_of_mem _ hz)) hg

theorem getLast?_succ_le {l : List Nat} {b : Nat} (hb : ∀ x ∈ l, x + 1 ≤ b) (hb1 : 1 ≤ b) :
    l.getLast?.getD 0 + 1 ≤ b := by
  cases hl : l.getLast? with
  | none => exact hb1
  | some x => exact hb x (List.mem_of_getLast? hl)

theorem shareAmounts_nonneg {lucky : List Nat} {total : UInt32} {b j : Nat}
    (hs : lucky.Pairwise (· ≤ ·)) (hb : ∀ x ∈ lucky, x + 1 ≤ b) (hb1 : 1 ≤ b)
    (hlast : (total - UInt32.ofNat (lucky.getLast?.getD 0 + 1)).toNat ≤ b)
    (hfits : b * 2 ^ j ≤ 2 ^ 32) {a : ShareType}
    (ha : a ∈ shareAmounts lucky total (MIN_RED_PACKET_UNIT * Int64.ofInt (2 ^ j))) :
    0 ≤ a.toInt := by
  have hunits : ∀ v : Nat, v ≤ b →
      0 ≤ (Int64.ofInt v * (MIN_RED_PACKET_UNIT * Int64.ofInt (2 ^ j))).toInt :=
    fun v hv => units_nonneg ((Nat.mul_le_mul_right _ hv).trans hfits)
  rw [shareAmounts, List.cons_append, List.mem_cons, List.mem_append, List.mem_map,
    List.mem_singleton] at ha
  rcases ha with rfl | ⟨g, hg, rfl⟩ | rfl
  · have hhead : lucky.head?.getD 0 + 1 ≤ b := by
      cases lucky with
      | nil => exact hb1
      | cons x l => exact hb x List.mem_cons_self
    exact_mod_cast hunits _ hhead
  · obtain ⟨v, rfl, hv⟩ := exists_of_mem_gaps hs (fun x hx => (Nat.le_succ x).trans (hb x hx)) hg
    exact hunits v hv
  · exact hunits _ hlast

section

variable [Crypto]

/-- **No share of a packet is negative.** -/
theorem RedPacketOperation.shares_nonneg {op : RedPacketOperation} (hcount : op.count ≤ 30)
    {s : RedPacketStatus} (hs : s ∈ op.packet.claimStatuses) : 0 ≤ s.amount.amount.toInt := by
  obtain ⟨a, ha, rfl⟩ := List.mem_map.1 hs
  change 0 ≤ a.toInt
  obtain ⟨j, hunit, htotal, hleft⟩ := splitSpace_spec hcount 32
    (UInt32.ofNat (op.amount.amount / MIN_RED_PACKET_UNIT).toInt.toNat) MIN_RED_PACKET_UNIT
  rw [show op.space = splitSpace _ _ _ _ from rfl] at ha
  generalize hspace : splitSpace op.count 32
    (UInt32.ofNat (op.amount.amount / MIN_RED_PACKET_UNIT).toInt.toNat) MIN_RED_PACKET_UNIT =
      space at ha hunit htotal hleft
  have h32 := UInt32.toNat_lt (UInt32.ofNat (op.amount.amount / MIN_RED_PACKET_UNIT).toInt.toNat)
  have hfits : space.1.toNat * 2 ^ j ≤ 2 ^ 32 := by
    rw [htotal]
    exact (Nat.div_mul_le_self _ _).trans h32.le
  have h30 : op.count.toNat ≤ 30 := by simpa [UInt32.le_iff_toNat_le] using hcount
  rw [hunit, packetShares] at ha
  split at ha
  · rename_i hone
    have hone' : 1 < op.count.toNat := by simpa [UInt32.lt_iff_toNat_lt] using hone
    have hk : (op.count - 1).toNat = op.count.toNat - 1 :=
      UInt32.toNat_sub_of_le _ _ (by rw [UInt32.le_iff_toNat_le]; simpa using hone'.le)
    have hsorted := List.pairwise_insertionSort (· ≤ ·) (unrankFrom (op.count - 1).toNat
      (Crypto.packetRandom op.randomId % cnr (space.1 - 1).toUInt16.toNat (op.count - 1).toNat)
      (space.1 - 1).toUInt16.toNat)
    rcases hleft with rfl | hleft
    · -- not halved: cuts are 16-bit numbers, and 32 bits of the smallest unit fit
      refine shareAmounts_nonneg (b := 2 ^ 32) hsorted (fun x hx => ?_) (by norm_num)
        (UInt32.toNat_lt _).le (by norm_num) ha
      have h16 := (space.1 - 1).toUInt16.toNat_lt
      rcases le_of_mem_unranking hx with hx | hx <;> omega
    · -- halved: there are more units than shares, so every cut is inside
      have hpos : (space.1 - 1).toNat = space.1.toNat - 1 :=
        UInt32.toNat_sub_of_le _ _ (by rw [UInt32.le_iff_toNat_le]; simp; omega)
      have hn : (space.1 - 1).toUInt16.toNat ≤ space.1.toNat - 1 := by
        rw [UInt32.toNat_toUInt16, hpos]
        exact Nat.mod_le _ _
      have hcuts : ∀ x ∈ unranking (Crypto.packetRandom op.randomId %
          cnr (space.1 - 1).toUInt16.toNat (op.count - 1).toNat) (op.count - 1).toNat
            (space.1 - 1).toUInt16.toNat, x + 1 ≤ space.1.toNat := by
        intro x hx
        rcases le_of_mem_unranking hx with hx | hx <;> omega
      refine shareAmounts_nonneg (b := space.1.toNat) hsorted hcuts (by omega) ?_ hfits ha
      have hlast := getLast?_succ_le hcuts (by omega)
      rw [UInt32.toNat_sub_of_le]
      · exact Nat.sub_le _ _
      · rw [UInt32.le_iff_toNat_le, UInt32.toNat_ofNat']
        exact (Nat.mod_le _ _).trans hlast
  · rw [List.mem_singleton.1 ha]
    exact units_nonneg hfits

end

end BitShares
