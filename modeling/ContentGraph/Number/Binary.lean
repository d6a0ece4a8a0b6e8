/-!
# 64-bit numbers

The numbers of documents are 64-bit binary floating-point numbers. Nothing computes with
them: they are read, compared and written. A finite magnitude is therefore its position
in the increasing list of all finite magnitudes, which makes each number one value of the
type, and a real number is rounded by finding the two neighbouring positions.
-/

namespace ContentGraph

/-- A finite magnitude, by its position among all of them in increasing order. -/
abbrev Magnitude := Fin (2047 * Nat.pow 2 52)

namespace Magnitude

/-- The magnitude at a position, counted in the smallest positive one, `2 ^ -1074`. The
spacing doubles every `2 ^ 52` positions, except that the first two stretches share one. -/
def unitsAt (position : Nat) : Nat :=
  if position < Nat.pow 2 52 then position
  else (Nat.pow 2 52 + position % Nat.pow 2 52) * Nat.pow 2 (position / Nat.pow 2 52 - 1)

/-- The last position whose magnitude is at most `units`. -/
def positionBelow (units : Nat) : Nat :=
  let shift := units.log2 - 52
  shift * Nat.pow 2 52 + units / Nat.pow 2 shift

/-- The position nearest to `num / den` units; half-way between two, the even one. -/
def nearestUnits (num den : Nat) : Nat :=
  let low := positionBelow (num / den)
  let middle := (unitsAt low + unitsAt (low + 1)) * den
  if 2 * num < middle then low else if 2 * num = middle then low + low % 2 else low + 1

/-- The position nearest to `num / den`. -/
def nearest (num den : Nat) : Nat := nearestUnits (num * Nat.pow 2 1074) den

/-- The least magnitude. -/
def zero : Magnitude := ⟨0, by decide⟩

/-- The magnitude in units of `2 ^ -1074`. -/
def units (m : Magnitude) : Nat := unitsAt m.val

end Magnitude

/-- A 64-bit number. -/
inductive Binary where
  /-- Not a number. -/
  | nan
  /-- An infinity, by its sign. -/
  | infinite (negative : Bool)
  /-- A finite number; zero has two signs. -/
  | finite (negative : Bool) (magnitude : Magnitude)
  deriving DecidableEq

namespace Binary

/-- Positive zero. -/
def zero : Binary := .finite false Magnitude.zero

/-- One, at the position `1023 * 2 ^ 52`. -/
def one : Binary := .finite false ⟨1023 * Nat.pow 2 52, by decide⟩

/-- The number nearest to `num / den`, an infinity above the finite range. -/
def ofRatio (negative : Bool) (num den : Nat) : Binary :=
  let position := Magnitude.nearest num den
  if h : position < 2047 * Nat.pow 2 52 then .finite negative ⟨position, h⟩ else .infinite negative

/-- Whether the number is finite. -/
def isFinite : Binary → Bool
  | .finite _ _ => true
  | _ => false

/-- The number nearest to an integer, where one is finite. -/
def ofInt? (n : Int) : Option Binary := Option.guard isFinite (ofRatio (n < 0) n.natAbs 1)

/-- Whether the number is not a number. -/
def isNaN : Binary → Bool
  | .nan => true
  | _ => false

/-- The integer that a number without fraction is. -/
def toInt? : Binary → Option Int
  | .finite negative m =>
    if m.units % Nat.pow 2 1074 = 0 then
      let n : Int := (m.units / Nat.pow 2 1074 : Nat)
      some (if negative then -n else n)
    else none
  | _ => none

end Binary

end ContentGraph
