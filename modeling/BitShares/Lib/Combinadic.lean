import Mathlib.Data.Nat.Choose.Bounds
import Mathlib.Tactic.Linarith

/-!
# The combinatorial number system

A combination, listed from its largest element down, stands for the sum of the binomial
coefficients of its elements over their positions counted from the end.

* `combinadic_lt`: a combination below `b` stands for a number below `b.choose` of its length.
* `combinadic_injective`: two combinations of one length stand for different numbers.
-/

namespace BitShares

def combinadic : List Nat → Nat
  | [] => 0
  | x :: l => x.choose (l.length + 1) + combinadic l

theorem combinadic_lt {l : List Nat} {b : Nat} (hdesc : l.Pairwise (· > ·)) (hb : ∀ x ∈ l, x < b) :
    combinadic l < b.choose l.length := by
  induction l generalizing b with
  | nil => simp [combinadic]
  | cons x l ih =>
    obtain ⟨hbelow, hdesc⟩ := List.pairwise_cons.1 hdesc
    calc x.choose (l.length + 1) + combinadic l
        < x.choose (l.length + 1) + x.choose l.length := Nat.add_lt_add_left (ih hdesc hbelow) _
      _ = (x + 1).choose (l.length + 1) := by rw [Nat.choose_succ_succ, Nat.add_comm]
      _ ≤ b.choose (l.length + 1) := Nat.choose_le_choose _ (hb x List.mem_cons_self)

theorem combinadic_lt_of_head {x y : Nat} {l m : List Nat} (hdesc : (x :: l).Pairwise (· > ·))
    (hxy : x < y) (hlength : l.length = m.length) : combinadic (x :: l) < combinadic (y :: m) := by
  have hbelow : ∀ z ∈ x :: l, z < y := List.forall_mem_cons.2
    ⟨hxy, fun z hz => (List.rel_of_pairwise_cons hdesc hz).trans hxy⟩
  calc combinadic (x :: l) < y.choose (l.length + 1) := combinadic_lt hdesc hbelow
    _ = y.choose (m.length + 1) := by rw [hlength]
    _ ≤ combinadic (y :: m) := Nat.le_add_right _ _

theorem combinadic_injective {l m : List Nat} (hl : l.Pairwise (· > ·)) (hm : m.Pairwise (· > ·))
    (hlength : l.length = m.length) (heq : combinadic l = combinadic m) : l = m := by
  induction l generalizing m with
  | nil => exact (List.eq_nil_of_length_eq_zero hlength.symm).symm
  | cons x l ih =>
    cases m with
    | nil => simp at hlength
    | cons y m =>
      have hlength' : l.length = m.length := Nat.succ_inj.1 hlength
      obtain hxy | rfl | hyx := lt_trichotomy x y
      · exact absurd heq (combinadic_lt_of_head hl hxy hlength').ne
      · have htail : combinadic l = combinadic m := by
          simpa only [combinadic, hlength', Nat.add_left_cancel_iff] using heq
        rw [ih hl.of_cons hm.of_cons hlength' htail]
      · exact absurd heq (combinadic_lt_of_head hm hyx hlength'.symm).ne'

end BitShares
