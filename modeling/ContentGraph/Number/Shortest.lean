import ContentGraph.Number.Decimal

/-!
# The shortest decimal text of a number

The text of a finite number has the fewest digits that read back as the number, and of
several such rows of digits the nearest. For each count of digits the two decimal
neighbours of the exact value are tried by reading them back, so that what is written is
by construction what is read. A layout says where the point and the exponent stand.
-/

namespace ContentGraph

namespace Magnitude

/-- All decimal digits of a magnitude, as an integer of units of `10 ^ -1074`. -/
def exact (m : Magnitude) : Nat := m.units * Nat.pow 5 1074

/-- Whether `digits * 10 ^ exponent` is read as `m`. -/
def readsBack (m : Magnitude) (digits : Nat) (exponent : Int) : Bool :=
  Decimal.toBinary ⟨false, digits, exponent⟩ = .finite false m

/-- Of the two neighbours of `m` on the grid that drops the last `cut` exact digits, the
nearest that is read as `m`. Half-way the even one is preferred. -/
def onGrid (m : Magnitude) (cut : Nat) : Option (Nat × Int) :=
  let unit := Nat.pow 10 cut
  let low := m.exact / unit
  let twice := 2 * (m.exact % unit)
  let lowFirst := twice < unit || (twice = unit && low % 2 = 0)
  let order := if lowFirst then [low, low + 1] else [low + 1, low]
  (order.find? fun digits => m.readsBack digits (cut - 1074)).map fun digits => (digits, cut - 1074)

/-- The shortest digits of a magnitude and their power of ten, trying at most seventeen
digits before all. -/
def shortest (m : Magnitude) : Nat × Int :=
  let size := (digitsOf m.exact).length
  ((List.range 17).findSome? fun n => m.onGrid (size - (n + 1))).getD (m.exact, -1074)

end Magnitude

/-- How digits become a text. -/
structure Layout where
  /-- The smallest exponent of the first digit that is written positionally. -/
  lowest : Int
  /-- The largest exponent of the first digit that is written positionally. -/
  highest : Int
  /-- What stands before the digits of a positive exponent. -/
  plus : List Char
  /-- The least number of digits of an exponent. -/
  width : Nat
  /-- The text of what is not a number. -/
  nan : List Char
  /-- The text of the positive infinity. -/
  infinity : List Char
  /-- The text of the negative infinity. -/
  negativeInfinity : List Char

namespace Layout

/-- Plain text: positional from `0.0001` below `10 ^ 16`, exponents with a sign and two
digits. -/
def plain : Layout := ⟨-4, 15, ['+'], 2, "nan".toList, "inf".toList, "-inf".toList⟩

/-- Canonical text: as plain text, with the names that numbers without digits have there. -/
def canonical : Layout :=
  ⟨-4, 15, ['+'], 2, "NaN".toList, "Infinity".toList, "-Infinity".toList⟩

/-- Indented text: positional from `0.00001` below `10 ^ 16`, exponents with a sign and as many
digits as they need, and nothing for a number without digits. -/
def indented : Layout := ⟨-5, 15, ['+'], 1, "null".toList, "null".toList, "null".toList⟩

/-- Digits with a point after the first, where more than one is there. -/
def pointed : List Char → List Char
  | [] => ['0']
  | [d] => [d]
  | d :: rest => d :: '.' :: rest

/-- The digits `ds`, of which the first has the exponent `e`, written out. -/
def positional (ds : List Char) (e : Int) : List Char :=
  if e < 0 then '0' :: '.' :: (List.replicate (-e - 1).toNat '0' ++ ds)
  else
    let places := e.toNat + 1
    if ds.length ≤ places then ds ++ List.replicate (places - ds.length) '0' ++ ['.', '0']
    else ds.take places ++ '.' :: ds.drop places

/-- The digits `ds` before an exponent. -/
def scientific (l : Layout) (ds : List Char) (e : Int) : List Char :=
  let size := digitsOf e.natAbs
  pointed ds ++ 'e' :: ((if e < 0 then ['-'] else l.plus)
    ++ List.replicate (l.width - size.length) '0' ++ size)

/-- A row of digits without the zeros at its end. -/
def trimmed (ds : List Char) : List Char := (ds.reverse.dropWhile (· = '0')).reverse

/-- The text of digits and their power of ten. -/
def written (l : Layout) (found : Nat × Int) : List Char :=
  let row := digitsOf found.1
  let e := found.2 + row.length - 1
  let ds := trimmed row
  if l.lowest ≤ e ∧ e ≤ l.highest then positional ds e else l.scientific ds e

/-- The text of a magnitude. -/
def magnitude (l : Layout) (m : Magnitude) : List Char :=
  if m.val = 0 then ['0', '.', '0'] else l.written m.shortest

/-- The text of a number. -/
def text (l : Layout) : Binary → List Char
  | .nan => l.nan
  | .infinite negative => if negative then l.negativeInfinity else l.infinity
  | .finite negative m => (if negative then ['-'] else []) ++ l.magnitude m

end Layout

end ContentGraph
