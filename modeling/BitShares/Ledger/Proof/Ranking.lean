import BitShares.Ledger.Proof.Unranking
import Mathlib.Data.Set.Function

/-!
# Ranks and combinations

Where the coefficients fit 64 bits, `unranking` lists every combination of `k` elements below `n`
exactly once, and never leaves the domain of `cnr`.  `ranking` goes back, but not for a combination
that contains `0`: its first call is `cnr( 0, 1 )`, which does not return.

* `unranking_bijOn`: the bijection.
* `ranking_eq`: the rank of a combination without `0`.
* `ranking_iff`: `ranking` returns, and inverts `unranking`, on exactly these.
-/

namespace BitShares

/-- The combinations of `k` elements below `n`, in ascending order. -/
def Combinations (k n : Nat) : Set (List Nat) :=
  {l | l.length = k ∧ l.Pairwise (· < ·) ∧ ∀ x ∈ l, x < n}

section

variable {k n : Nat}

theorem exactBelow_of_fits (hfits : ∀ m ≤ n, ∀ i ≤ k, m.choose i < 2 ^ 64) (bound : Nat) :
    ExactBelow bound n k :=
  fun m hm i hi => .inl (hfits m hm i hi)

theorem insertionSort_of_descending {l : List Nat} (h : l.Pairwise (· > ·)) :
    l.insertionSort (· ≤ ·) = l.reverse := by
  refine List.Perm.eq_of_pairwise' (List.pairwise_insertionSort (· ≤ ·) l) ?_
    ((List.perm_insertionSort (· ≤ ·) l).trans l.reverse_perm.symm)
  exact List.pairwise_reverse.2 (h.imp le_of_lt)

theorem unranking_combinadic (hkn : k ≤ n) (hfits : ∀ m ≤ n, ∀ i ≤ k, m.choose i < 2 ^ 64)
    {num : UInt64} (hnum : num.toNat < n.choose k) :
    combinadic (unranking num k n).reverse = num.toNat := by
  obtain ⟨-, hdesc, -, hvalue⟩ := unrankFrom_spec hnum hkn (Nat.le_succ n) hnum
    (exactBelow_of_fits hfits _)
  rw [unranking, insertionSort_of_descending hdesc, List.reverse_reverse, hvalue]

theorem unranking_mem (hkn : k ≤ n) (hfits : ∀ m ≤ n, ∀ i ≤ k, m.choose i < 2 ^ 64)
    {num : UInt64} (hnum : num.toNat < n.choose k) : unranking num k n ∈ Combinations k n :=
  unranking_spec hnum hkn (Nat.le_succ n) hnum (exactBelow_of_fits hfits _)

theorem unranking_surjOn (hkn : k ≤ n) (hfits : ∀ m ≤ n, ∀ i ≤ k, m.choose i < 2 ^ 64) :
    Set.SurjOn (fun num => unranking num k n) {num | num.toNat < n.choose k}
      (Combinations k n) := by
  rintro l ⟨hlength, hasc, hbelow⟩
  have hdesc : l.reverse.Pairwise (· > ·) := List.pairwise_reverse.2 hasc
  have hlt : combinadic l.reverse < n.choose k := by
    have h := combinadic_lt hdesc fun x hx => hbelow x (List.mem_reverse.1 hx)
    rwa [List.length_reverse, hlength] at h
  have htoNat : (UInt64.ofNat (combinadic l.reverse)).toNat = combinadic l.reverse :=
    UInt64.toNat_ofNat_of_lt' (hlt.trans (hfits n le_rfl k le_rfl))
  have hnum : (UInt64.ofNat (combinadic l.reverse)).toNat < n.choose k := htoNat.trans_lt hlt
  refine ⟨_, hnum, ?_⟩
  obtain ⟨hlength', hasc', -⟩ := unranking_mem hkn hfits hnum
  -- both lists stand for the same number
  refine List.reverse_injective (combinadic_injective (List.pairwise_reverse.2 hasc') hdesc ?_ ?_)
  · rw [List.length_reverse, List.length_reverse, hlength', hlength]
  · rw [unranking_combinadic hkn hfits hnum, htoNat]

/-- **Every combination has one rank.**  Each call of `cnr` has `n ≥ r`, which the source asserts,
and `n` below the last 16-bit value, where its counters do not wrap. -/
theorem unranking_bijOn (hkn : k ≤ n) (hn : n < 65535)
    (hfits : ∀ m ≤ n, ∀ i ≤ k, m.choose i < 2 ^ 64) :
    (cnr n k).toNat = n.choose k ∧
      Set.BijOn (fun num => unranking num k n) {num | num.toNat < n.choose k}
        (Combinations k n) ∧
      ∀ num : UInt64, num.toNat < n.choose k → ∀ call ∈ unrankingCalls num k n,
        call.2 ≤ call.1 ∧ call.1 < 65535 := by
  refine ⟨toNat_cnr hkn (hfits n le_rfl k le_rfl), ⟨?_, ?_, unranking_surjOn hkn hfits⟩, ?_⟩
  · exact fun num hnum => unranking_mem hkn hfits hnum
  · intro num hnum num' hnum' heq
    have hvalue := unranking_combinadic hkn hfits hnum
    rw [show unranking num k n = unranking num' k n from heq,
      unranking_combinadic hkn hfits hnum'] at hvalue
    exact UInt64.toNat_inj.1 hvalue.symm
  · intro num hnum call hcall
    have hdomain := unrankingCalls_spec hnum hkn (Nat.le_succ n) hnum
      (exactBelow_of_fits hfits _) hcall
    exact ⟨hdomain.1, hdomain.2.trans_lt hn⟩

theorem unranking_bijOn_pairs :
    Set.BijOn (fun num => unranking num 2 5) {num | num.toNat < Nat.choose 5 2}
      (Combinations 2 5) :=
  (unranking_bijOn (k := 2) (n := 5) (by decide) (by decide) (by decide)).2.1

end

/-! ## Going back -/

/-- The loop of `ranking` after the positions of `pre`, while every element exceeds its position's
predecessor. -/
theorem rankFrom_eq {pre v : List Nat} (hasc : v.Pairwise (· < ·))
    (hlong : pre.length + v.length < 2 ^ 16) (habove : ∀ x ∈ v, pre.length < x)
    (hlast : ∀ x ∈ v, x < 65535) :
    rankFrom (pre.length + 1) (UInt64.ofNat (combinadic pre)) v =
      some (UInt64.ofNat (combinadic (v.reverse ++ pre))) := by
  induction v generalizing pre with
  | nil => rfl
  | cons x v ih =>
    obtain ⟨hx, habove⟩ := List.forall_mem_cons.1 habove
    obtain ⟨hxlast, hlast⟩ := List.forall_mem_cons.1 hlast
    obtain ⟨hhead, hasc⟩ := List.pairwise_cons.1 hasc
    rw [List.length_cons] at hlong
    have hends : cnrEnds x (pre.length + 1) := by
      simp [cnrEnds, hx.ne', hxlast.ne]
    have hsum : UInt64.ofNat (combinadic pre) + cnr x (pre.length + 1) =
        UInt64.ofNat (combinadic (x :: pre)) := by
      rw [cnr_eq hx, ← UInt64.ofNat_add, combinadic, Nat.add_comm]
    rw [rankFrom, Nat.mod_eq_of_lt (by omega), if_pos hends, hsum, List.reverse_cons,
      List.append_assoc, List.singleton_append]
    have hlong' : (x :: pre).length + v.length < 2 ^ 16 := by
      rw [List.length_cons]
      omega
    exact ih hasc hlong' (fun y hy => Nat.lt_of_le_of_lt hx (hhead y hy)) hlast

/-- **The rank** of distinct positive elements. -/
theorem ranking_eq {c : List Nat} (hnodup : c.Nodup) (hlong : c.length < 2 ^ 16)
    (hlast : ∀ x ∈ c, x < 65535) (hzero : 0 ∉ c) :
    ranking c = some (UInt64.ofNat (combinadic (c.insertionSort (· ≤ ·)).reverse)) := by
  have hperm := List.perm_insertionSort (· ≤ ·) c
  have hlong' : ([] : List Nat).length + (c.insertionSort (· ≤ ·)).length < 2 ^ 16 := by
    rwa [List.length_nil, Nat.zero_add, hperm.length_eq]
  have h := rankFrom_eq (insertionSort_of_nodup hnodup) hlong'
    (fun x hx => Nat.pos_of_ne_zero fun hx' => hzero (hperm.mem_iff.1 (hx' ▸ hx)))
    fun x hx => hlast x (hperm.mem_iff.1 hx)
  rwa [List.append_nil] at h

theorem ranking_zero {c : List Nat} (hzero : 0 ∈ c) : ranking c = none := by
  have hmem : 0 ∈ c.insertionSort (· ≤ ·) := (List.perm_insertionSort (· ≤ ·) c).mem_iff.2 hzero
  have hsorted := List.pairwise_insertionSort (· ≤ ·) c
  rw [ranking]
  cases hv : c.insertionSort (· ≤ ·) with
  | nil => simp [hv] at hmem
  | cons x v =>
    rw [hv] at hmem hsorted
    obtain rfl : x = 0 := by
      obtain h | h := List.mem_cons.1 hmem
      · exact h.symm
      · exact Nat.le_zero.1 (List.rel_of_pairwise_cons hsorted h)
    rfl

/-- **`ranking` inverts `unranking`** on exactly the combinations without `0`: there it returns, in
whatever order the elements come. -/
theorem ranking_iff {k n : Nat} (hkn : k ≤ n) (hn : n < 65535)
    (hfits : ∀ m ≤ n, ∀ i ≤ k, m.choose i < 2 ^ 64) :
    (∀ c : List Nat, c.length = k → c.Nodup → (∀ x ∈ c, x < n) →
      ((ranking c).isSome ↔ 0 ∉ c)) ∧
    ∀ num : UInt64, num.toNat < n.choose k →
      (ranking (unranking num k n) = some num ↔ 0 ∉ unranking num k n) := by
  constructor
  · intro c hlength hnodup hbelow
    by_cases hzero : 0 ∈ c
    · simp [ranking_zero hzero, hzero]
    · simp [ranking_eq hnodup (by omega) (fun x hx => (hbelow x hx).trans hn) hzero, hzero]
  · intro num hnum
    by_cases hzero : 0 ∈ unranking num k n
    · simp [ranking_zero hzero, hzero]
    · obtain ⟨hlength, hasc, hbelow⟩ := unranking_mem hkn hfits hnum
      rw [ranking_eq (hasc.imp ne_of_lt) (by omega) (fun x hx => (hbelow x hx).trans hn) hzero,
        List.Perm.eq_of_pairwise' (List.pairwise_insertionSort (· ≤ ·) _) (hasc.imp le_of_lt)
          (List.perm_insertionSort (· ≤ ·) _),
        unranking_combinadic hkn hfits hnum, UInt64.ofNat_toNat]
      simp [hzero]

theorem ranking_iff_pairs : ranking (unranking 9 2 5) = some 9 :=
  ((ranking_iff (k := 2) (n := 5) (by decide) (by decide) (by decide)).2 9 (by decide)).2
    (by decide)

/-- The pair `0, 4` out of five: `ranking` calls `cnr( 0, 1 )` and does not return. -/
theorem ranking_stuck : (∀ m ≤ 5, ∀ i ≤ 2, m.choose i < 2 ^ 64) ∧ 6 < Nat.choose 5 2 ∧
    unranking 6 2 5 = [0, 4] ∧ ranking [0, 4] = none := by
  decide

end BitShares
