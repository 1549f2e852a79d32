import BitShares.Ledger.Types
import Mathlib.Data.List.DropRight

/-!
# Prices and their text

`asset.cpp`: the price of one asset in another, and the decimal text that a price is given as in a
variant.  The ratio is a `fc::uint128`; the accumulators of the parser are 64 bits wide and wrap.
-/

namespace BitShares

/-- `price operator / ( const asset&, const asset& )`: the asset with the lower id is the base. -/
def Asset.div (a b : Asset) : Except Error Price := do
  require (a.assetId ≠ b.assetId) .assetDivideBySelf
  let l := if a.assetId < b.assetId then b else a
  let r := if a.assetId < b.assetId then a else b
  require (r.amount ≠ 0) .assetDivideByZero
  let result := (l.amount.toInt * REAL128_PRECISION).tdiv r.amount.toInt
  return {
    ratio := (result % 2 ^ 128).toNat
    baseAssetId := r.assetId
    quoteAssetId := l.assetId }

namespace Price

def infinite : Nat := 2 ^ 128 - 1

/-! ## Printing -/

def ratioString (p : Price) : List Char :=
  let number := Nat.toDigits 10 (p.ratio / REAL128_PRECISION) ++ '.' ::
    (Nat.toDigits 10 (p.ratio % REAL128_PRECISION + REAL128_PRECISION)).drop 1
  number.rdropWhile (· = '0')

/-! ## Parsing -/

/-- `*c - '0'`. -/
def digit (c : Char) : Nat := c.toNat - '0'.toNat

def intPart (digits : List Char) : UInt64 :=
  digits.foldl (fun n c => n * 10 + UInt64.ofNat (digit c)) 0

/-- The loop over the digits of the fraction: the digits and their magnitude. -/
def fracPart (digits : List Char) : Int64 × Int64 :=
  digits.foldl (fun n c => (n.1 * 10 + Int64.ofNat (digit c), n.2 * 10)) (0, 1)

def fracRatio (digits : List Char) : Nat :=
  let (frac, magnitude) := fracPart digits
  (frac.toInt % 2 ^ 128).toNat * (REAL128_PRECISION / magnitude.toUInt64.toNat)

/-- `set_ratio_from_string`. -/
def ratioFromString (text : List Char) : Nat :=
  let whole := text.takeWhile Char.isDigit
  let ratio := (intPart whole).toNat * REAL128_PRECISION
  match text.dropWhile Char.isDigit with
  | '.' :: rest => (ratio + fracRatio (rest.takeWhile Char.isDigit)) % 2 ^ 128
  | _ => ratio

/-! ## Variants -/

structure Object where
  ratio : List Char
  quoteAssetId : AssetId
  baseAssetId : AssetId

def toVariant (p : Price) : Object := ⟨p.ratioString, p.quoteAssetId, p.baseAssetId⟩

/-- `from_variant( const variant&, price& )`. -/
def ofVariant (o : Object) : Price := ⟨ratioFromString o.ratio, o.baseAssetId, o.quoteAssetId⟩

end Price

end BitShares
