import BitShares.Chain.Pending
import BitShares.Lib.Double

/-!
# The block at a time

`find_block_num` looks for the last block before a time by interpolation between two blocks on both
sides of it.  The guess of a step is a parameter of the search; that of the code is `interpolate`.
A search that goes on for more than `fuel` steps is `none`.
-/

namespace BitShares

/-- A place between the blocks `start` and `stop`, given the time to look for and the times of both
blocks. -/
abbrev Guess := (time startTime stopTime : Time) → (start stop : BlockNum) → BlockNum

/-- `start + (end - start) * relative` in doubles, truncated. -/
def interpolate : Guess := fun time startTime stopTime start stop =>
  match Double.div (time - startTime : ℕ) (stopTime - startTime : ℕ) with
  | some relative => ⌊Double.nearest (start + Double.mul (stop - start : ℕ) relative)⌋₊
  | none => start

namespace ChainState

/-- `get_block_header( n ).timestamp`. -/
def blockTime (s : ChainState) (n : BlockNum) : Except Error Time := do
  let b ← s.getBlock n
  return b.timestamp

/-- The loop of `find_block_num`. -/
def searchBlockNum (s : ChainState) (guess : Guess) (time : Time) :
    (fuel : ℕ) → (start : BlockNum) → (startTime : Time) → (stop : BlockNum) → (stopTime : Time) →
      Except Error (Option BlockNum)
  | 0, _, _, _, _ => .ok none
  | fuel + 1, start, startTime, stop, stopTime =>
    if start + 1 < stop then do
      let mid := guess time startTime stopTime start stop
      let mid := if mid = start then mid + 1 else mid
      let midTime ← s.blockTime mid
      if time < midTime then s.searchBlockNum guess time fuel start startTime mid midTime
      else s.searchBlockNum guess time fuel mid midTime stop stopTime
    else .ok (some start)

/-- `find_block_num`, with the guess of a step left open. -/
def findBlockNumBy (s : ChainState) (guess : Guess) (fuel : ℕ) (time : Time) :
    Except Error (Option BlockNum) := do
  let startTime ← s.blockTime 1
  if time ≤ startTime then return some 1
  let stopTime ← s.blockTime s.head.blockNum
  if stopTime ≤ time then return some s.head.blockNum
  s.searchBlockNum guess time fuel 1 startTime s.head.blockNum stopTime

def findBlockNum (s : ChainState) : (fuel : ℕ) → Time → Except Error (Option BlockNum) :=
  s.findBlockNumBy interpolate

end ChainState

end BitShares
