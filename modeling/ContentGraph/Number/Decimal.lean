import ContentGraph.Number.Binary

/-!
# Decimal numerals

A decimal numeral is an integer of digits and a power of ten. The module reads its parts
from characters and rounds it to a 64-bit number.
-/

namespace ContentGraph

/-- The value of a decimal digit. -/
def digitValue (c : Char) : Nat := c.toNat - 48

/-- The natural number that a row of decimal digits denotes. -/
def natOfDigits (cs : List Char) : Nat := cs.foldl (fun n c => 10 * n + digitValue c) 0

/-- The decimal digits of a natural number. -/
def digitsOf (n : Nat) : List Char := Nat.toDigits 10 n

/-- The numeral `± digits * 10 ^ exponent`. -/
structure Decimal where
  /-- Whether a minus sign stands before it. -/
  negative : Bool
  /-- The digits, read as one integer. -/
  digits : Nat
  /-- The power of ten. -/
  exponent : Int
  deriving DecidableEq

namespace Decimal

/-- The numeral with the digits `whole` before the point, `fraction` after it, and a
written exponent. -/
def ofParts (negative : Bool) (whole fraction : List Char) (exponent : Int) : Decimal :=
  ⟨negative, natOfDigits (whole ++ fraction), exponent - fraction.length⟩

/-- The nearest 64-bit number. A numeral of `n` digits lies between `10 ^ (n - 1 + exponent)`
and `10 ^ (n + exponent)`, so that far outside the range nothing has to be computed. -/
def toBinary (d : Decimal) : Binary :=
  let size : Int := (digitsOf d.digits).length + d.exponent
  if d.digits = 0 then .finite d.negative Magnitude.zero
  else if 400 < size then .infinite d.negative
  else if size < -400 then .finite d.negative Magnitude.zero
  else if 0 ≤ d.exponent then .ofRatio d.negative (d.digits * Nat.pow 10 d.exponent.toNat) 1
  else .ofRatio d.negative d.digits (Nat.pow 10 (-d.exponent).toNat)

end Decimal

/-- The integer read by an optional sign and digits, and what follows it. -/
def readSigned (cs : List Char) : Option (Int × List Char) :=
  let (negative, body) := match cs with
    | '-' :: r => (true, r)
    | '+' :: r => (false, r)
    | r => (false, r)
  match body.takeWhile Char.isDigit with
  | [] => none
  | ds =>
    some (if negative then -(natOfDigits ds : Int) else natOfDigits ds,
      body.dropWhile Char.isDigit)

/-- A written exponent, where one follows: `e` or `E`, a sign, digits. -/
def readExponent (cs : List Char) : Option (Int × List Char) :=
  match cs with
  | 'e' :: r => readSigned r
  | 'E' :: r => readSigned r
  | _ => none

end ContentGraph
