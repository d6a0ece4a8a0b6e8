import ContentGraph.Log.Display
import ContentGraph.Number.Rounded

/-!
# Places for arguments

A text of a log record marks places for arguments by percent signs. A place says how its
argument is shown: flags, a least width, a precision and a letter. What is shown has a front
(a sign, or what begins a hexadecimal or octal numeral) and a body, between which zeros may
fill the width. `Place.show?` shows an argument, where the letter is one for it.
-/

namespace ContentGraph.Log

/-- How an argument is shown. -/
structure Place where
  /-- Whether blanks that fill the width stand to the right. -/
  left : Bool
  /-- Whether a number is filled up with zeros instead of blanks. -/
  zeros : Bool
  /-- Whether a plus sign stands before a number that is not negative. -/
  plus : Bool
  /-- Whether a blank stands there instead. -/
  blank : Bool
  /-- Whether a numeral shows its base, or always its point. -/
  marked : Bool
  /-- The least number of characters. -/
  width : Nat
  /-- How many digits a number has, or characters a text at most. -/
  precision : Option Nat
  /-- What the argument is shown as. -/
  letter : Char

/-- What stands in a place before its width is filled. -/
structure Shown where
  /-- Whether zeros may fill the width. -/
  numeric : Bool
  /-- What stands before such zeros. -/
  front : List Char
  /-- The rest. -/
  body : List Char

/-- What is shown, in capital letters. -/
def Shown.capital (s : Shown) : Shown :=
  { s with front := s.front.map Char.toUpper, body := s.body.map Char.toUpper }

namespace Place

/-- What is shown, filled up to the width. -/
def fill (p : Place) (s : Shown) : List Char :=
  let missing := p.width - (s.front.length + s.body.length)
  if p.left then s.front ++ s.body ++ List.replicate missing ' '
  else if p.zeros && s.numeric then s.front ++ List.replicate missing '0' ++ s.body
  else List.replicate missing ' ' ++ s.front ++ s.body

/-- The sign of a number. -/
def sign (p : Place) (negative : Bool) : List Char :=
  if negative then ['-'] else if p.plus then ['+'] else if p.blank then [' '] else []

/-- A text, of which at most the precision is shown. -/
def ofText (p : Place) (cs : List Char) : Shown :=
  ⟨false, [], (p.precision.map fun n => cs.take n).getD cs⟩

/-- An integer in a base, which `name` marks. -/
def ofInteger (p : Place) (base : Nat) (name : List Char) (n : Int) : Shown :=
  let ds := Nat.toDigits base n.natAbs
  ⟨true, p.sign (n < 0) ++ (if p.marked then name else []),
    List.replicate (p.precision.getD 0 - ds.length) '0' ++ ds⟩

/-- A number, where `show_` shows a magnitude with the digits of the precision. -/
def ofNumber (p : Place) (show_ : Magnitude → Nat → Bool → List Char) : Binary → Shown
  | .nan => ⟨true, p.sign false, "nan".toList⟩
  | .infinite negative => ⟨true, p.sign negative, "inf".toList⟩
  | .finite negative m => ⟨true, p.sign negative, show_ m (p.precision.getD 6) p.marked⟩

end Place

/-! ### Arguments -/

/-- The integer that an argument is. -/
def integer? : Json → Option Int
  | .integer n => some n
  | .bool b => some (if b then 1 else 0)
  | _ => none

/-- The integer that an argument is without its fraction. -/
def wholePart? : Json → Option Int
  | .number (.finite negative m) =>
    let n : Int := (m.units / Nat.pow 2 1074 : Nat)
    some (if negative then -n else n)
  | v => integer? v

/-- The number that an argument is. -/
def number? : Json → Option Binary
  | .number x => some x
  | v => (integer? v).bind Binary.ofInt?

/-- The character that an argument is, or whose number it is. -/
def character? : Json → Option Char
  | .text s =>
    match s.toList with
    | [c] => some c
    | _ => none
  | v => (integer? v).bind fun n =>
    if 0 ≤ n ∧ n.toNat.isValidChar then some (Char.ofNat n.toNat) else none

/-- A value on one line in ASCII characters, others by their numbers. -/
def asciiDisplay (v : Json) : List Char :=
  v.display.toList.flatMap fun c => if c.toNat < 0x80 then [c] else Quoted.numbered c

/-- An argument as a place shows it, before its width is filled. -/
def Place.shown? (p : Place) (v : Json) : Option Shown :=
  match p.letter with
  | 's' => some (p.ofText v.plain.toList)
  | 'r' => some (p.ofText v.display.toList)
  | 'a' => some (p.ofText (asciiDisplay v))
  | 'c' => (character? v).map fun c => ⟨false, [], [c]⟩
  | 'd' => (wholePart? v).map (p.ofInteger 10 [])
  | 'i' => (wholePart? v).map (p.ofInteger 10 [])
  | 'u' => (wholePart? v).map (p.ofInteger 10 [])
  | 'o' => (integer? v).map (p.ofInteger 8 ['0', 'o'])
  | 'x' => (integer? v).map (p.ofInteger 16 ['0', 'x'])
  | 'X' => (integer? v).map fun n => (p.ofInteger 16 ['0', 'x'] n).capital
  | 'f' => (number? v).map (p.ofNumber Magnitude.fixed)
  | 'F' => (number? v).map fun x => (p.ofNumber Magnitude.fixed x).capital
  | 'e' => (number? v).map (p.ofNumber Magnitude.scientific)
  | 'E' => (number? v).map fun x => (p.ofNumber Magnitude.scientific x).capital
  | 'g' => (number? v).map (p.ofNumber Magnitude.general)
  | 'G' => (number? v).map fun x => (p.ofNumber Magnitude.general x).capital
  | _ => none

/-- An argument as a place shows it. -/
def Place.show? (p : Place) (v : Json) : Option (List Char) := (p.shown? v).map p.fill

end ContentGraph.Log
