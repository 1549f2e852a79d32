import Mathlib.Control.Monad.Writer
import Mathlib.Data.List.Sort
import Mathlib.Algebra.Group.Nat.Defs

/-!
# Combinations by rank

`utilities/combinatorics.cpp`: binomial coefficients by Pascal's columns in 64 bits, the combination
of a given rank and the rank of a combination.  Red packets and note rewards draw their random
choices from it.
-/

namespace BitShares

/-- One sweep `c[j] += c[j-1]` over a column. -/
def prefixSums : UInt64 → List UInt64 → List UInt64
  | _, [] => []
  | acc, x :: rest => (acc + x) :: prefixSums (acc + x) rest

/-- `cnr( n, r )`, where it returns.  For `n < r` the 16-bit difference wraps to more columns than
sweeps, no sweep is made and the answer is the initial `1`. -/
def cnr (n r : Nat) : UInt64 :=
  if n < r then 1
  else
    let r := if n - r < r then n - r else r
    ((prefixSums 0)^[n - r] (List.replicate (r + 1) 1)).getLast?.getD 1

/-- Whether `cnr( n, r )` returns: a 16-bit counter never gets past 65535.  For `n + 1 = r` the
difference wraps to it in the loop that fills the columns, and for `n = 65535` it is the number of
sweeps when the columns are reduced to one. -/
def cnrEnds (n r : Nat) : Bool := n + 1 ≠ r && (n ≠ 65535 || r ≠ 0 && r ≠ n)

/-- A computation with the arguments of the calls of `cnr` that it makes. -/
abbrev CnrLog := Writer (List (Nat × Nat))

/-- The inner loop of `unranking`: lower `max` until the rank covers `cnr( max, i )`. -/
def pickMaxLog (i : Nat) (num : UInt64) : Nat → CnrLog (Option (Nat × UInt64 × Nat))
  | 0 => pure none
  | m + 1 => do
    tell [(m + 1, i)]
    if cnr (m + 1) i ≤ num then return some (m + 1, num - cnr (m + 1) i, m)
    else pickMaxLog i num m

/-- The outer loop of `unranking`, from `i = k` down to `1`. -/
def unrankFromLog : Nat → UInt64 → Nat → CnrLog (List Nat)
  | 0, _, _ => pure []
  | i + 1, num, max =>
    if num = 0 then do return i :: (← unrankFromLog i num max)
    else do
      match ← pickMaxLog (i + 1) num max with
      | some (x, num', max') => return x :: (← unrankFromLog i num' max')
      | none => unrankFromLog i num 0

def pickMax (i : Nat) (num : UInt64) (max : Nat) : Option (Nat × UInt64 × Nat) :=
  (pickMaxLog i num max).run.1

def unrankFrom (k : Nat) (num : UInt64) (max : Nat) : List Nat := (unrankFromLog k num max).run.1

def unranking (num : UInt64) (k n : Nat) : List Nat :=
  (unrankFrom k num n).insertionSort (· ≤ ·)

/-- The arguments of the calls `unranking( num, k, n )` makes. -/
def unrankingCalls (num : UInt64) (k n : Nat) : List (Nat × Nat) := (unrankFromLog k num n).run.2

/-- The loop of `ranking` over the sorted elements, position `i` on; `none` where a `cnr` does not
return.  The position is narrowed to 16 bits by the call. -/
def rankFrom (i : Nat) (n : UInt64) : List Nat → Option UInt64
  | [] => some n
  | x :: v =>
    if cnrEnds x (i % 2 ^ 16) then rankFrom (i + 1) (n + cnr x (i % 2 ^ 16)) v else none

def ranking (c : List Nat) : Option UInt64 :=
  rankFrom 1 0 (c.insertionSort (· ≤ ·))

/-- Whether `unranking( word % cnr( n, k ), k, n )` returns. -/
def drawEnds (word : UInt64) (k n : Nat) : Bool :=
  cnrEnds n k && (unrankingCalls (word % cnr n k) k n).all fun call => cnrEnds call.1 call.2

/-! ## The loops, round by round -/

theorem pickMax_add_one (i : Nat) (num : UInt64) (m : Nat) :
    pickMax i num (m + 1) =
      if cnr (m + 1) i ≤ num then some (m + 1, num - cnr (m + 1) i, m) else pickMax i num m := by
  rw [pickMax, pickMaxLog]
  split <;> rfl

theorem pickMaxLog_calls_add_one (i : Nat) (num : UInt64) (m : Nat) :
    (pickMaxLog i num (m + 1)).run.2 =
      (m + 1, i) :: if cnr (m + 1) i ≤ num then [] else (pickMaxLog i num m).run.2 := by
  rw [pickMaxLog]
  split <;> rfl

theorem unrankFrom_add_one (i : Nat) (num : UInt64) (max : Nat) :
    unrankFrom (i + 1) num max =
      if num = 0 then i :: unrankFrom i num max
      else
        match pickMax (i + 1) num max with
        | some (x, num', max') => x :: unrankFrom i num' max'
        | none => unrankFrom i num 0 := by
  rw [unrankFrom, unrankFromLog, pickMax]
  split
  · rfl
  · rcases pickMaxLog (i + 1) num max with ⟨_ | _, _⟩ <;> rfl

theorem unrankingCalls_add_one (i : Nat) (num : UInt64) (max : Nat) :
    unrankingCalls num (i + 1) max =
      if num = 0 then unrankingCalls num i max
      else (pickMaxLog (i + 1) num max).run.2 ++
        match pickMax (i + 1) num max with
        | some (_, num', max') => unrankingCalls num' i max'
        | none => unrankingCalls num i 0 := by
  rw [unrankingCalls, unrankFromLog, pickMax]
  split
  · exact List.append_nil _
  · rcases pickMaxLog (i + 1) num max with ⟨_ | _, _⟩
    · rfl
    · exact congrArg _ (List.append_nil _)

end BitShares
