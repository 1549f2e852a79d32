import BitShares.Ledger.AssetOperations
import BitShares.Lib.Decimal

/-!
# The text of an amount

`asset_record::share_string_to_satoshi` of `asset_record.cpp`, on the characters of the text.  The
amount is built in 64 bits: the product and the sum wrap.
-/

namespace BitShares

/-- `std::stoll`: the integer a text begins with, here on text of digits, signs and points. -/
def stoll (text : List Char) : Except Error Int := do
  let negative := text.head? = some '-'
  let digits := (if negative then text.tail else text).takeWhile Char.isDigit
  require (digits ≠ []) .stdInvalidArgument
  let n : Int := if negative then -Decimal.value digits else Decimal.value digits
  require (-2 ^ 63 ≤ n ∧ n < 2 ^ 63) .stdOutOfRange
  return n

/-- The loop over the characters, from what it has found: a sign, a point. -/
def scanAmount : List Char → Bool → Bool → Except Error (Bool × Bool)
  | [], negativeFound, decimalFound => .ok (negativeFound, decimalFound)
  | c :: text, negativeFound, decimalFound =>
    if c.isDigit then scanAmount text negativeFound decimalFound
    else if c = '-' ∧ ¬ negativeFound then scanAmount text true decimalFound
    else if c = '.' ∧ ¬ decimalFound then scanAmount text negativeFound true
    else .error .invalidAssetAmount

/-- The digits before the point, in units of `10 ^ -k`. -/
def wholeSatoshis (lhs : List Char) (precision : Nat) : Except Error ShareType := do
  if lhs = [] then return 0
  return Int64.ofInt (← stoll lhs) * Int64.ofNat precision

def fractionSatoshis (rhs : List Char) (precision : Nat) : Except Error ShareType := do
  let maxRhsSize := ((Nat.toDigits 10 precision).drop 1).length
  require (rhs.length ≤ maxRhsSize) .invalidAssetAmount
  let rhs := rhs.rightpad maxRhsSize '0'
  if rhs = [] then return 0
  return Int64.ofInt (← stoll rhs)

def shareStringToSatoshi (shareString : List Char) (precision : Nat) :
    Except Error ShareType := do
  let (negativeFound, decimalFound) ← scanAmount shareString false false
  require (isPowerOfTen precision) .invalidPrecision
  -- the length of the text stands for `npos`: either takes all of it
  let decimalPos := shareString.idxOf '.'
  let lhs := (shareString.drop negativeFound.toNat).take decimalPos
  let whole ← wholeSatoshis lhs precision
  let fraction ←
    if decimalFound then fractionSatoshis (shareString.drop (decimalPos + 1)) precision else pure 0
  let satoshis := whole + fraction
  require (satoshis ≤ MAX_SHARES) .amountTooLarge
  return if negativeFound then satoshis * -1 else satoshis

end BitShares
