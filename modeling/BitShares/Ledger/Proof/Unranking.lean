import BitShares.Ledger.Combinatorics
import BitShares.Lib.Combinadic

/-!
# The combination of a given rank

`cnr` sums up Pascal's columns in 64 bits, so it is the binomial coefficient modulo `2 ^ 64`, and the
coefficient itself where that fits.  `unranking` then takes, from the largest down, the greatest
element whose coefficient the rank still covers.

* `unranking_spec`: the combination of a rank below `b.choose k` has `k` elements,
  all distinct and below `b`, also where coefficients above the rank wrap (`ExactBelow`).
-/

namespace BitShares

/-! ## Binomial coefficients -/

/-- The column after `m` sweeps. -/
def pascalColumn (m s len : Nat) : List UInt64 :=
  (List.range' s len).map fun j => UInt64.ofNat ((m + j).choose j)

theorem prefixSums_pascalColumn (m s len : Nat) :
    prefixSums (UInt64.ofNat (if s = 0 then 0 else (m + s).choose (s - 1))) (pascalColumn m s len) =
      pascalColumn (m + 1) s len := by
  induction len generalizing s with
  | zero => rfl
  | succ len ih =>
    have hentry : UInt64.ofNat (if s = 0 then 0 else (m + s).choose (s - 1)) +
        UInt64.ofNat ((m + s).choose s) = UInt64.ofNat ((m + 1 + s).choose s) := by
      rw [← UInt64.ofNat_add]
      cases s with
      | zero => simp
      | succ s =>
        rw [if_neg (Nat.succ_ne_zero s), Nat.add_sub_cancel, show m + 1 + (s + 1) = m + (s + 1) + 1 by
          omega, Nat.choose_succ_succ]
    have hrest := ih (s + 1)
    rw [if_neg (Nat.succ_ne_zero s), Nat.add_sub_cancel,
      show m + (s + 1) = m + 1 + s by omega] at hrest
    simp only [pascalColumn, List.range'_succ, List.map_cons, prefixSums] at hrest ⊢
    rw [hentry, hrest]

theorem prefixSums_iterate (m r : Nat) :
    (prefixSums 0)^[m] (List.replicate (r + 1) 1) = pascalColumn m 0 (r + 1) := by
  induction m with
  | zero =>
    rw [Function.iterate_zero_apply]
    refine List.ext_getElem (by simp [pascalColumn]) fun i h₁ h₂ => ?_
    simp [pascalColumn]
  | succ m ih =>
    rw [Function.iterate_succ_apply', ih]
    exact prefixSums_pascalColumn m 0 (r + 1)

/-- **The binomial coefficient** in 64 bits. -/
theorem cnr_eq {n r : Nat} (h : r ≤ n) : cnr n r = UInt64.ofNat (n.choose r) := by
  have hlast : ∀ m r : Nat, (pascalColumn m 0 (r + 1)).getLast?.getD 1 =
      UInt64.ofNat ((m + r).choose r) := by
    intro m r
    rw [pascalColumn, List.getLast?_map, List.getLast?_range']
    simp
  rw [cnr, if_neg (by omega)]
  dsimp only
  rw [prefixSums_iterate, hlast]
  split_ifs
  · rw [Nat.sub_add_cancel (Nat.sub_le n r), Nat.choose_symm h]
  · rw [Nat.sub_add_cancel h]

theorem toNat_cnr {n r : Nat} (h : r ≤ n) (hfits : n.choose r < 2 ^ 64) :
    (cnr n r).toNat = n.choose r := by
  rw [cnr_eq h, UInt64.toNat_ofNat_of_lt' hfits]

/-! ## Ranks -/

/-- Every coefficient up to `n` over `k` fits 64 bits, or is at least `bound` even wrapped. -/
def ExactBelow (bound n k : Nat) : Prop :=
  ∀ m ≤ n, ∀ i ≤ k, m.choose i < 2 ^ 64 ∨ bound ≤ m.choose i % 2 ^ 64

theorem ExactBelow.mono {bound n n' k k' : Nat} (h : ExactBelow bound n k) (hn : n' ≤ n)
    (hk : k' ≤ k) : ExactBelow bound n' k' :=
  fun m hm i hi => h m (hm.trans hn) i (hi.trans hk)

theorem ExactBelow.cnr_le_iff {bound n k m i : Nat} {num : UInt64} (h : ExactBelow bound n k)
    (hnum : num.toNat < bound) (hm : m ≤ n) (hi : i ≤ k) (him : i ≤ m) :
    cnr m i ≤ num ↔ m.choose i ≤ num.toNat := by
  rw [UInt64.le_iff_toNat_le]
  by_cases hfits : m.choose i < 2 ^ 64
  · rw [toNat_cnr him hfits]
  · have hwrap : (cnr m i).toNat = m.choose i % 2 ^ 64 := by
      rw [cnr_eq him, UInt64.toNat_ofNat']
    have hbound := (h m hm i hi).resolve_left hfits
    have hlt := num.toNat_lt
    omega

/-- **One round** takes the greatest element up to `max` whose coefficient the rank covers, and
calls `cnr` inside its domain only. -/
theorem pickMax_spec {bound i max : Nat} {num : UInt64} (hi : 1 ≤ i) (hmax : i ≤ max)
    (hnum : num ≠ 0) (hbound : num.toNat < bound) (hexact : ExactBelow bound max i) :
    (∀ call ∈ (pickMaxLog i num max).run.2, call.2 ≤ call.1 ∧ call.1 ≤ max) ∧
      ∃ x, pickMax i num max = some (x, num - cnr x i, x - 1) ∧ i ≤ x ∧ x ≤ max ∧
        x.choose i ≤ num.toNat ∧ (x = max ∨ num.toNat < (x + 1).choose i) := by
  induction max with
  | zero => omega
  | succ m ih =>
    have hcover := hexact.cnr_le_iff hbound le_rfl le_rfl hmax
    rw [pickMax_add_one, pickMaxLog_calls_add_one]
    by_cases hle : cnr (m + 1) i ≤ num
    · rw [if_pos hle, if_pos hle, List.forall_mem_singleton]
      exact ⟨⟨hmax, le_rfl⟩, m + 1, rfl, hmax, le_rfl, hcover.1 hle, .inl rfl⟩
    · rw [if_neg hle, if_neg hle, List.forall_mem_cons]
      rw [hcover, not_le] at hle
      have hpos : 0 < num.toNat := by
        rw [Nat.pos_iff_ne_zero]
        exact fun h => hnum (UInt64.toNat_inj.1 h)
      -- the coefficient of `i` itself is one
      have him : i ≤ m := by
        by_contra hlt
        obtain rfl : i = m + 1 := by omega
        rw [Nat.choose_self] at hle
        omega
      obtain ⟨hcalls, x, hpick, hix, hxm, hcover, htop⟩ :=
        ih him (hexact.mono (Nat.le_succ m) le_rfl)
      refine ⟨⟨⟨hmax, le_rfl⟩, fun call hcall => ?_⟩, x, hpick, hix, by omega, hcover, .inr ?_⟩
      · exact (hcalls call hcall).imp_right fun h => h.trans (Nat.le_succ m)
      obtain rfl | htop := htop
      · exact hle
      · exact htop

/-- **One element**: the rank is the element's coefficient and the rank of the elements below. -/
theorem unrankFrom_succ {bound k b max : Nat} {num : UInt64} (hnum : num.toNat < b.choose (k + 1))
    (hkb : k + 1 ≤ b) (hbmax : b ≤ max + 1) (hbound : num.toNat < bound)
    (hexact : ExactBelow bound max (k + 1)) :
    ∃ x num' max', unrankFrom (k + 1) num max = x :: unrankFrom k num' max' ∧
      (∀ call ∈ unrankingCalls num (k + 1) max,
        call.2 ≤ call.1 ∧ call.1 ≤ max ∨ call ∈ unrankingCalls num' k max') ∧
      k ≤ x ∧ x < b ∧ x ≤ max' + 1 ∧ max' ≤ max ∧ num'.toNat < x.choose k ∧
      num.toNat = x.choose (k + 1) + num'.toNat := by
  rw [unrankFrom_add_one, unrankingCalls_add_one]
  by_cases hzero : num = 0
  · rw [if_pos hzero, if_pos hzero]
    refine ⟨k, num, max, rfl, fun call => .inr, le_rfl, hkb, by omega, le_rfl, ?_, ?_⟩
    · rw [hzero, Nat.choose_self]
      exact Nat.one_pos
    · rw [Nat.choose_succ_self, Nat.zero_add]
  · rw [if_neg hzero, if_neg hzero]
    have hpos : 0 < num.toNat := by
      rw [Nat.pos_iff_ne_zero]
      exact fun h => hzero (UInt64.toNat_inj.1 h)
    have hkb' : k + 1 < b := by
      refine lt_of_le_of_ne hkb fun heq => ?_
      rw [← heq, Nat.choose_self] at hnum
      omega
    obtain ⟨hcalls, x, hpick, hkx, hxmax, hcover, htop⟩ := pickMax_spec
      (show 1 ≤ k + 1 by omega) (show k + 1 ≤ max by omega) hzero hbound hexact
    have hxb : x < b := by
      by_contra hle
      have hmono := Nat.choose_le_choose (k + 1) (not_lt.1 hle)
      omega
    have hnext : num.toNat < (x + 1).choose (k + 1) := by
      obtain rfl | htop := htop
      · rwa [show x + 1 = b by omega]
      · exact htop
    have hcnr := toNat_cnr hkx (hcover.trans_lt num.toNat_lt)
    have hrest : (num - cnr x (k + 1)).toNat = num.toNat - x.choose (k + 1) := by
      rw [UInt64.toNat_sub_of_le _ _ (UInt64.le_iff_toNat_le.2 (hcnr ▸ hcover)), hcnr]
    rw [Nat.choose_succ_succ'] at hnext
    rw [hpick]
    refine ⟨x, num - cnr x (k + 1), x - 1, rfl, fun call hcall => ?_, by omega, hxb, by omega,
      by omega, by omega, by omega⟩
    exact (List.mem_append.1 hcall).imp_left (hcalls call)

/-- **The combination of a rank** below `b.choose k`: `k` elements below `b`, in descending order,
that stand for the rank. -/
theorem unrankFrom_spec {bound k b max : Nat} {num : UInt64} (hnum : num.toNat < b.choose k)
    (hkb : k ≤ b) (hbmax : b ≤ max + 1) (hbound : num.toNat < bound)
    (hexact : ExactBelow bound max k) :
    (unrankFrom k num max).length = k ∧ (unrankFrom k num max).Pairwise (· > ·) ∧
      (∀ x ∈ unrankFrom k num max, x < b) ∧ combinadic (unrankFrom k num max) = num.toNat := by
  induction k generalizing b max num with
  | zero =>
    refine ⟨rfl, .nil, List.forall_mem_nil _, ?_⟩
    rw [Nat.choose_zero_right] at hnum
    exact (Nat.lt_one_iff.1 hnum).symm
  | succ k ih =>
    obtain ⟨x, num', max', heq, -, hkx, hxb, hxmax, hmax, hnum', hsum⟩ :=
      unrankFrom_succ hnum hkb hbmax hbound hexact
    obtain ⟨hlength, hpairwise, hbelow, hvalue⟩ := ih hnum' hkx hxmax (by omega)
      (hexact.mono hmax (Nat.le_succ k))
    rw [heq]
    refine ⟨congrArg Nat.succ hlength, List.pairwise_cons.2 ⟨hbelow, hpairwise⟩,
      List.forall_mem_cons.2 ⟨hxb, fun y hy => (hbelow y hy).trans hxb⟩, ?_⟩
    rw [combinadic, hlength, hvalue, hsum]

theorem unrankingCalls_spec {bound k b max : Nat} {num : UInt64} (hnum : num.toNat < b.choose k)
    (hkb : k ≤ b) (hbmax : b ≤ max + 1) (hbound : num.toNat < bound)
    (hexact : ExactBelow bound max k) {call : Nat × Nat}
    (hcall : call ∈ unrankingCalls num k max) : call.2 ≤ call.1 ∧ call.1 ≤ max := by
  induction k generalizing b max num with
  | zero => cases hcall
  | succ k ih =>
    obtain ⟨x, num', max', -, hcalls, hkx, -, hxmax, hmax, hnum', hsum⟩ :=
      unrankFrom_succ hnum hkb hbmax hbound hexact
    obtain h | h := hcalls call hcall
    · exact h
    · exact (ih hnum' hkx hxmax (by omega) (hexact.mono hmax (Nat.le_succ k)) h).imp_right
        fun h => h.trans hmax

theorem insertionSort_of_nodup {l : List Nat} (h : l.Nodup) :
    (l.insertionSort (· ≤ ·)).Pairwise (· < ·) :=
  ((List.pairwise_insertionSort (· ≤ ·) l).and
    ((List.perm_insertionSort (· ≤ ·) l).nodup_iff.2 h)).imp fun h => lt_of_le_of_ne h.1 h.2

theorem unranking_spec {bound k b n : Nat} {num : UInt64} (hnum : num.toNat < b.choose k)
    (hkb : k ≤ b) (hbn : b ≤ n + 1) (hbound : num.toNat < bound) (hexact : ExactBelow bound n k) :
    (unranking num k n).length = k ∧ (unranking num k n).Pairwise (· < ·) ∧
      ∀ x ∈ unranking num k n, x < b := by
  obtain ⟨hlength, hpairwise, hbelow, -⟩ := unrankFrom_spec hnum hkb hbn hbound hexact
  have hperm := List.perm_insertionSort (· ≤ ·) (unrankFrom k num n)
  exact ⟨hperm.length_eq.trans hlength, insertionSort_of_nodup (hpairwise.imp fun h => h.ne'),
    fun x hx => hbelow x (hperm.mem_iff.1 hx)⟩

end BitShares
