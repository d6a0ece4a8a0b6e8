import ContentGraph.Number.Shortest

/-!
# Rounded decimal texts

The text of a magnitude with a chosen number of digits. The exact value is rounded to the
grid of those digits, a half to the even neighbour. `Magnitude.fixed` chooses the digits
after the point, `Magnitude.scientific` those after the first one, and `Magnitude.general`
all of them, with an exponent only where the first digit is far from the point.
-/

namespace ContentGraph

/-- The integer nearest to `num / den`; half-way between two, the even one. -/
def roundedRatio (num den : Nat) : Nat :=
  let low := num / den
  let twice := 2 * (num % den)
  if twice < den ∨ (twice = den ∧ low % 2 = 0) then low else low + 1

/-- A number in decimal digits, filled up with zeros. -/
def digitsOfWidth (width n : Nat) : List Char :=
  let ds := digitsOf n
  List.replicate (width - ds.length) '0' ++ ds

/-- Digits with a point and more digits after them; without such digits the point stands only
where it is wanted. -/
def withFraction (point : Bool) (whole fraction : List Char) : List Char :=
  if fraction.isEmpty && !point then whole else whole ++ '.' :: fraction

/-- A power of ten: its sign and at least two digits. -/
def powerText (e : Int) : List Char :=
  'e' :: (if e < 0 then '-' else '+') :: digitsOfWidth 2 e.natAbs

namespace Magnitude

/-- The magnitude in units of `10 ^ exponent`, rounded. -/
def inUnits (m : Magnitude) (exponent : Int) : Nat :=
  if exponent < 0 then roundedRatio (m.units * Nat.pow 10 (-exponent).toNat) (Nat.pow 2 1074)
  else roundedRatio m.units (Nat.pow 2 1074 * Nat.pow 10 exponent.toNat)

/-- The first `count` digits, rounded, and the power of ten of the first. -/
def significant (m : Magnitude) (count : Nat) : List Char × Int :=
  if m.val = 0 then (List.replicate count '0', 0)
  else
    let e : Int := (digitsOf m.exact).length - 1 - 1074
    let row := digitsOf (m.inUnits (e - count + 1))
    if count < row.length then (row.take count, e + 1) else (row, e)

/-- The text with a number of digits after the point. -/
def fixed (m : Magnitude) (places : Nat) (point : Bool) : List Char :=
  let row := digitsOfWidth (places + 1) (m.inUnits (-places))
  let whole := row.length - places
  withFraction point (row.take whole) (row.drop whole)

/-- The text with one digit before the point, a number of digits after it, and an exponent. -/
def scientific (m : Magnitude) (places : Nat) (point : Bool) : List Char :=
  let (row, e) := m.significant (places + 1)
  withFraction point (row.take 1) (row.drop 1) ++ powerText e

/-- The text with a number of digits in all, of which zeros at the end stand only where they
are wanted. -/
def general (m : Magnitude) (count : Nat) (full : Bool) : List Char :=
  let (row, e) := m.significant (max 1 count)
  let shown := fun (fraction : List Char) => if full then fraction else Layout.trimmed fraction
  if e < -4 ∨ (max 1 count : Int) ≤ e then
    withFraction full (row.take 1) (shown (row.drop 1)) ++ powerText e
  else if e < 0 then
    withFraction full ['0'] (shown (List.replicate (-e - 1).toNat '0' ++ row))
  else withFraction full (row.take (e.toNat + 1)) (shown (row.drop (e.toNat + 1)))

end Magnitude

end ContentGraph
