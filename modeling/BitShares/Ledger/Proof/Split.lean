import BitShares.Ledger.Proof.Claims
import BitShares.Ledger.Proof.Conservation
import BitShares.Ledger.Proof.Unranking
import Mathlib.Algebra.BigOperators.Ring.List

/-!
# How a red packet is split

The amount of a packet is counted in units of `MIN_RED_PACKET_UNIT`, in 32 bits, and the unit is
doubled until there are few; the shares are the distances between cuts at a random combination.

* `packet_split`: when the shares of an accepted packet add up to nearly all of the amount.
* `packet_truncated`: a packet of `2 ^ 32 + 2` units is split as one of two.
-/

namespace BitShares

/-! ## Units -/

/-- **The halving ends** with few units. -/
theorem splitSpace_le {count : UInt32} (hcount : count ≤ 30) (fuel : Nat) {total : UInt32}
    (unit : ShareType) (hfuel : total.toNat < 2 ^ fuel) :
    (splitSpace count fuel total unit).1.toNat ≤ 2 * (count.toNat + 1) := by
  have h30 : count.toNat ≤ 30 := by simpa [UInt32.le_iff_toNat_le] using hcount
  induction fuel generalizing total unit with
  | zero =>
    rw [splitSpace]
    dsimp only
    omega
  | succ fuel ih =>
    rw [splitSpace]
    split_ifs with hlt
    · refine ih _ ?_
      have hhalf : (total / 2).toNat = total.toNat / 2 := by simp
      rw [hhalf]
      rw [pow_succ] at hfuel
      omega
    · rw [UInt32.lt_iff_toNat_lt, not_lt] at hlt
      simp only [UInt32.toNat_mul, UInt32.toNat_add, UInt32.reduceToNat] at hlt
      dsimp only
      omega

theorem gaps_eq {x : Nat} {l : List Nat} (h : (x :: l).Pairwise (· < ·)) :
    ∃ vs : List Nat, gaps (x :: l) = vs.map Nat.cast ∧ vs.length = l.length ∧
      (∀ v ∈ vs, 1 ≤ v) ∧ x + vs.sum = (x :: l).getLast?.getD 0 := by
  induction l generalizing x with
  | nil => exact ⟨[], rfl, rfl, fun v hv => (by cases hv), rfl⟩
  | cons y l ih =>
    obtain ⟨hx, hrest⟩ := List.pairwise_cons.1 h
    have hxy : x < y := hx y List.mem_cons_self
    obtain ⟨vs, hgaps, hlength, hpos, hsum⟩ := ih hrest
    refine ⟨(y - x) :: vs, ?_, congrArg Nat.succ hlength, ?_, ?_⟩
    · rw [gaps, hgaps, List.map_cons, Nat.cast_sub hxy.le]
    · exact List.forall_mem_cons.2 ⟨by omega, hpos⟩
    · rw [List.getLast?_cons_cons, ← hsum, List.sum_cons]
      omega

/-- **The shares in units**: each is at least one, and together they are all. -/
theorem shareAmounts_eq {lucky : List Nat} {total : UInt32} (hne : lucky ≠ [])
    (hlt : lucky.Pairwise (· < ·)) (hbelow : ∀ x ∈ lucky, x + 1 < total.toNat) (unit : ShareType) :
    ∃ vs : List Nat, shareAmounts lucky total unit = vs.map (fun v : Nat => Int64.ofInt v * unit) ∧
      vs.length = lucky.length + 1 ∧ (∀ v ∈ vs, 1 ≤ v) ∧ vs.sum = total.toNat := by
  obtain ⟨x, l, rfl⟩ := List.exists_cons_of_ne_nil hne
  obtain ⟨vs, hgaps, hlength, hpos, hsum⟩ := gaps_eq hlt
  have hlast : (x :: l).getLast?.getD 0 + 1 < total.toNat := by
    rw [List.getLast?_eq_some_getLast (List.cons_ne_nil x l), Option.getD_some]
    exact hbelow _ (List.getLast_mem _)
  have hsub : (total - UInt32.ofNat ((x :: l).getLast?.getD 0 + 1)).toNat =
      total.toNat - ((x :: l).getLast?.getD 0 + 1) := by
    have h32 := total.toNat_lt
    have hnat : (UInt32.ofNat ((x :: l).getLast?.getD 0 + 1)).toNat =
        (x :: l).getLast?.getD 0 + 1 := UInt32.toNat_ofNat_of_lt' (lt_trans hlast h32)
    rw [UInt32.toNat_sub_of_le _ _ (UInt32.le_iff_toNat_le.2 (by omega)), hnat]
  refine ⟨(x + 1) :: vs ++ [total.toNat - ((x :: l).getLast?.getD 0 + 1)], ?_, ?_, ?_, ?_⟩
  · rw [shareAmounts, hgaps, hsub]
    simp
  · simp [hlength]
  · simp only [List.cons_append, List.forall_mem_cons, List.forall_mem_append, List.not_mem_nil,
      false_implies, implies_true, and_true]
    exact ⟨by omega, hpos, by omega⟩
  · simp only [List.cons_append, List.sum_cons, List.sum_append, List.sum_nil]
    omega

/-! ## The operation -/

namespace RedPacketOperation

def units (op : RedPacketOperation) : Nat := op.amount.amount.toInt.toNat / 100000

theorem space_eq {op : RedPacketOperation} (hcount : op.count ≤ 30) (hpos : 0 < op.amount.amount) :
    ∃ j, op.space.2 = MIN_RED_PACKET_UNIT * Int64.ofInt (2 ^ j) ∧
      op.space.1.toNat = op.units % 2 ^ 32 / 2 ^ j ∧ op.space.1.toNat * 2 ^ j ≤ op.units % 2 ^ 32 ∧
      (j = 0 ∨ op.count.toNat < op.space.1.toNat) ∧
      op.space.1.toNat ≤ 2 * (op.count.toNat + 1) := by
  have hpos' : 0 < op.amount.amount.toInt := by simpa [Int64.lt_iff_toInt_lt] using hpos
  have hunit : MIN_RED_PACKET_UNIT.toInt = 100000 := rfl
  have hdiv : (op.amount.amount / MIN_RED_PACKET_UNIT).toInt = (op.units : Int) := by
    rw [Int64.toInt_div_of_ne_right _ _ (by decide), hunit, units]
    rw [Int.tdiv_eq_ediv_of_nonneg hpos'.le]
    omega
  have htotal : (UInt32.ofNat (op.amount.amount / MIN_RED_PACKET_UNIT).toInt.toNat).toNat =
      op.units % 2 ^ 32 := by
    rw [hdiv, Int.toNat_natCast, UInt32.toNat_ofNat']
  obtain ⟨j, hsize, hspace, hleft⟩ := splitSpace_spec hcount 32
    (UInt32.ofNat (op.amount.amount / MIN_RED_PACKET_UNIT).toInt.toNat) MIN_RED_PACKET_UNIT
  rw [htotal] at hspace
  refine ⟨j, hsize, hspace, ?_, hleft, splitSpace_le hcount 32 _ ?_⟩
  · exact hspace ▸ Nat.div_mul_le_self _ _
  · exact UInt32.toNat_lt _

/-- **The shares of a packet whose units are more than its shares.** -/
theorem packetShares_eq {rand : UInt64} {count total : UInt32} {unit : ShareType} (hpos : 0 < count)
    (hcount : count ≤ 30) (hmore : count.toNat < total.toNat)
    (hfew : total.toNat ≤ 2 * (count.toNat + 1)) :
    ∃ vs : List Nat, packetShares rand count total unit =
        vs.map (fun v : Nat => Int64.ofInt v * unit) ∧
      vs.length = count.toNat ∧ (∀ v ∈ vs, 1 ≤ v) ∧ vs.sum = total.toNat := by
  have h30 : count.toNat ≤ 30 := by simpa [UInt32.le_iff_toNat_le] using hcount
  have hpos' : 0 < count.toNat := by simpa [UInt32.lt_iff_toNat_lt] using hpos
  unfold packetShares
  split_ifs with hone
  · have hone' : 1 < count.toNat := by simpa [UInt32.lt_iff_toNat_lt] using hone
    have hk : (count - 1).toNat = count.toNat - 1 :=
      UInt32.toNat_sub_of_le _ _ (UInt32.le_iff_toNat_le.2 hone'.le)
    have hn : (total - 1).toUInt16.toNat = total.toNat - 1 := by
      rw [UInt32.toNat_toUInt16, UInt32.toNat_sub_of_le _ _ (UInt32.le_iff_toNat_le.2 (by
        change 1 ≤ total.toNat
        omega))]
      exact Nat.mod_eq_of_lt (by change total.toNat - 1 < _; omega)
    -- the coefficients fit 64 bits
    have hfits : ∀ m ≤ total.toNat - 1, ∀ i ≤ count.toNat - 1, m.choose i < 2 ^ 64 :=
      fun m hm i _ => (Nat.choose_le_two_pow m i).trans_lt
        (Nat.pow_lt_pow_right (by decide) (by omega))
    have hrank : (rand % cnr (total.toNat - 1) (count.toNat - 1)).toNat <
        (total.toNat - 1).choose (count.toNat - 1) := by
      rw [UInt64.toNat_mod, toNat_cnr (by omega) (hfits _ le_rfl _ le_rfl)]
      exact Nat.mod_lt _ (Nat.choose_pos (by omega))
    obtain ⟨hlength, hlt, hbelow⟩ := unranking_spec hrank (by omega) (Nat.le_succ _)
      (UInt64.toNat_lt _) fun m hm i hi => .inl (hfits m hm i hi)
    dsimp only
    rw [hk, hn]
    obtain ⟨vs, hvs, hlength', hvpos, hsum⟩ := @shareAmounts_eq _ total
      (List.ne_nil_of_length_pos (hlength.symm ▸ (by omega))) hlt
      (fun x hx => by have := hbelow x hx; omega) unit
    exact ⟨vs, hvs, by omega, hvpos, hsum⟩
  · have hone' : ¬ 1 < count.toNat := by simpa [UInt32.lt_iff_toNat_lt] using hone
    refine ⟨[total.toNat], rfl, ?_, ?_, ?_⟩
    · rw [List.length_singleton]
      omega
    · simp only [List.forall_mem_singleton]
      omega
    · exact List.sum_singleton

end RedPacketOperation

/-- **Red packet split.**  An accepted packet of `n` shares has `n` of them, each of at least one unit;
they add up to what is taken from the transaction, and what is left of the amount is less than its
`(n + 1)`-th part, if and only if the units of the amount fit 32 bits. -/
theorem packet_split [Crypto] {op : RedPacketOperation} {e e' : EvalState}
    (h : op.evaluate e = .ok e') :
    ∃ packet taken, e'.ledger.packets.lookup op.randomId = some packet ∧
      e'.feesPaid.getD 0 0 = e.feesPaid.getD 0 0 - taken ∧
      ((packet.claimStatuses.length = op.count.toNat ∧
          (∀ s ∈ packet.claimStatuses, MIN_RED_PACKET_UNIT ≤ s.amount.amount) ∧
          (packet.claimStatuses.map (·.amount.amount.toInt)).sum = taken.toInt ∧
          (op.count.toNat + 1) * (op.amount.amount.toInt - taken.toInt) < op.amount.amount.toInt) ↔
        op.amount.amount.toInt / MIN_RED_PACKET_UNIT.toInt < 2 ^ 32) := by
  obtain ⟨hcount, hcount', -, hpos, hmin, -, -, -, heff⟩ := op.evaluate_effect h
  have h30 : op.count.toNat ≤ 30 := by simpa [UInt32.le_iff_toNat_le] using hcount'
  have hn : 0 < op.count.toNat := by simpa [UInt32.lt_iff_toNat_lt] using hcount
  have hpos' : 0 < op.amount.amount.toInt := by simpa [Int64.lt_iff_toInt_lt] using hpos
  have hmin' : ((op.count.toNat : Int) + 1) * 100000 ≤ op.amount.amount.toInt := by
    have hfee : MIN_RED_PACKET_FEE + Int64.ofInt op.count.toNat * MIN_RED_PACKET_UNIT =
        Int64.ofInt ((op.count.toNat + 1) * 100000) := by
      rw [show MIN_RED_PACKET_FEE = Int64.ofInt 100000 from rfl,
        show MIN_RED_PACKET_UNIT = Int64.ofInt 100000 from rfl, ← Int64.ofInt_mul, ← Int64.ofInt_add]
      congr 1
      ring
    rw [hfee, Int64.le_iff_toInt_le, Int64.toInt_ofInt_of_le (by omega) (by omega)] at hmin
    exact hmin
  obtain ⟨j, hsize, hspace, hfits, hleft, hfew⟩ := RedPacketOperation.space_eq hcount' hpos
  have hmod : op.units % 2 ^ 32 < 2 ^ 32 := Nat.mod_lt _ (by decide)
  have hunits : op.units = op.amount.amount.toInt.toNat / 100000 := rfl
  have hused : op.used.toInt = op.space.1.toNat * 2 ^ j * 100000 := by
    rw [RedPacketOperation.used, hsize]
    exact toInt_units (hfits.trans hmod.le)
  refine ⟨op.packet, op.used, ?_, ?_, ?_⟩
  · rw [heff.ledger]
    exact Finmap.lookup_insert _
  · rw [heff.feesPaid, getD_addTo, if_pos rfl, Int64.sub_eq_add_neg]
  change _ ↔ op.amount.amount.toInt / 100000 < 2 ^ 32
  constructor
  · -- what is lost in the upper bits is more than half of the amount
    rintro ⟨-, -, -, hrest⟩
    by_contra hlarge
    have hlost : (op.space.1.toNat : Int) * 2 ^ j ≤ (op.units % 2 ^ 32 : Nat) := by exact_mod_cast hfits
    have hhalf : op.amount.amount.toInt < 2 * (op.amount.amount.toInt - op.used.toInt) := by omega
    have hmany : 2 * (op.amount.amount.toInt - op.used.toInt) ≤
        (op.count.toNat + 1) * (op.amount.amount.toInt - op.used.toInt) :=
      mul_le_mul_of_nonneg_right (by omega) (by omega)
    omega
  · intro hsmall
    have hwhole : op.units % 2 ^ 32 = op.units := Nat.mod_eq_of_lt (by omega)
    rw [hwhole] at hspace hfits
    have hmore : op.count.toNat < op.space.1.toNat := by
      obtain rfl | hmore := hleft
      · rw [hspace, pow_zero, Nat.div_one]
        omega
      · exact hmore
    obtain ⟨vs, hvs, hlength, hvpos, hsum⟩ := @RedPacketOperation.packetShares_eq
      (Crypto.packetRandom op.randomId) _ _ op.space.2 hcount hcount' hmore hfew
    have hstatuses : op.packet.claimStatuses =
        vs.map fun v : Nat => ⟨⟨Int64.ofInt v * op.space.2, op.amount.assetId⟩, -1, 0⟩ := by
      rw [RedPacketOperation.packet]
      dsimp only
      rw [hvs, List.map_map]
      rfl
    -- every share in satoshis
    have hshare : ∀ v ∈ vs, (Int64.ofInt v * op.space.2).toInt = v * 2 ^ j * 100000 := by
      intro v hv
      have hle : v ≤ op.space.1.toNat := hsum ▸ List.single_le_sum (fun x _ => Nat.zero_le x) v hv
      rw [hsize]
      exact toInt_units ((Nat.mul_le_mul_right _ hle).trans (hfits.trans (by omega)))
    refine ⟨?_, ?_, ?_, ?_⟩
    · rw [hstatuses, List.length_map, hlength]
    · rw [hstatuses]
      intro s hs
      obtain ⟨v, hv, rfl⟩ := List.mem_map.1 hs
      rw [Int64.le_iff_toInt_le]
      change (100000 : Int) ≤ (Int64.ofInt v * op.space.2).toInt
      rw [hshare v hv]
      have hone : 1 ≤ v * 2 ^ j := Nat.mul_pos (hvpos v hv) (Nat.two_pow_pos j)
      have hone' : (1 : Int) ≤ v * 2 ^ j := by exact_mod_cast hone
      omega
    · have hmap : op.packet.claimStatuses.map (·.amount.amount.toInt) =
          vs.map fun v : Nat => (v : Int) * (2 ^ j * 100000) := by
        rw [hstatuses, List.map_map]
        refine List.map_congr_left fun v hv => ?_
        simp only [Function.comp_apply, hshare v hv, mul_assoc]
      have hcast : (vs.map fun v : Nat => (v : Int)).sum = op.space.1.toNat := by
        rw [← hsum]
        exact (map_list_sum (Nat.castAddMonoidHom Int) vs).symm
      rw [hmap, List.sum_map_mul_right, hcast, hused, mul_assoc]
    · -- less than one unit of the final size is left, of at least `n + 1`
      have hdiv := Nat.lt_div_mul_add (a := op.units) (Nat.two_pow_pos j)
      rw [← hspace] at hdiv
      have hunit : (op.units : Int) < op.space.1.toNat * 2 ^ j + 2 ^ j := by exact_mod_cast hdiv
      have hleft' : op.amount.amount.toInt - op.used.toInt < 2 ^ j * 100000 := by omega
      have hmore' : ((op.count.toNat : Int) + 1) * 2 ^ j ≤ op.space.1.toNat * 2 ^ j := by
        have := Nat.mul_le_mul_right (2 ^ j) hmore
        exact_mod_cast this
      have hfits' : (op.space.1.toNat : Int) * 2 ^ j ≤ op.units := by exact_mod_cast hfits
      calc ((op.count.toNat : Int) + 1) * (op.amount.amount.toInt - op.used.toInt)
          < (op.count.toNat + 1) * (2 ^ j * 100000) :=
            mul_lt_mul_of_pos_left hleft' (by omega)
        _ = (op.count.toNat + 1) * 2 ^ j * 100000 := by ring
        _ ≤ op.amount.amount.toInt := by omega

/-! ## Two packets -/

theorem packet_split_three :
    letI := Crypto.transparent
    ∃ e e', { giftOperation with amount := ⟨1700000, 0⟩, count := 3 }.evaluate e = .ok e' ∧
      ∃ packet, e'.ledger.packets.lookup 3 = some packet ∧ packet.claimStatuses.length = 3 ∧
        ∀ s ∈ packet.claimStatuses, MIN_RED_PACKET_UNIT ≤ s.amount.amount := by
  let := Crypto.transparent
  let e := EvalState.start giftContext (.over giftTables) giftPacket [7, 5]
  obtain ⟨e', he'⟩ := exists_ok_of_isOk
    (x := { giftOperation with amount := ⟨1700000, 0⟩, count := 3 }.evaluate e) (by decide +kernel)
  obtain ⟨packet, taken, hpacket, -, hiff⟩ := packet_split he'
  obtain ⟨hlength, hunit, -⟩ := hiff.2 (by decide)
  exact ⟨e, e', he', packet, hpacket, hlength, hunit⟩

/-- **A packet of `2 ^ 32 + 2` units** is split as one of two units: the rest of the amount is not in
the packet. -/
theorem packet_truncated :
    letI := Crypto.transparent
    ∃ e e', { giftOperation with amount := ⟨429496729800000, 0⟩, count := 1 }.evaluate e = .ok e' ∧
      ∃ packet, e'.ledger.packets.lookup 3 = some packet ∧
        packet.claimStatuses.map (·.amount.amount) = [200000] ∧
        ¬ (1 + 1) * ((429496729800000 : ℤ) - 200000) < 429496729800000 := by
  let := Crypto.transparent
  let e := EvalState.start giftContext (.over giftTables) giftPacket [7, 5]
  obtain ⟨e', he', hpacket⟩ := exists_ok_of_any
    (x := { giftOperation with amount := ⟨429496729800000, 0⟩, count := 1 }.evaluate e)
    (p := fun e' => (e'.ledger.packets.lookup 3).map (·.claimStatuses.map (·.amount.amount)) =
      some [200000]) (by decide +kernel)
  obtain ⟨packet, hlookup, hshares⟩ := Option.map_eq_some_iff.1 hpacket
  exact ⟨e, e', he', packet, hlookup, hshares, by decide⟩

end BitShares
