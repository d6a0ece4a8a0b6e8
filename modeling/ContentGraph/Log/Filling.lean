import ContentGraph.Log.Place

/-!
# Filling places

A text with places takes its arguments in order. A place may take its width and its
precision from arguments too, or ask for an argument by a key between parentheses: a single
object gives its members by key. `formatted` leaves the text as it is where the arguments do
not fit its places.
-/

namespace ContentGraph.Log

/-- The arguments that are left, and those that can be asked for by key. -/
structure Arguments where
  /-- Those that are taken in order. -/
  rest : List Json
  /-- Those with keys. -/
  named : List (String × Json)

/-- The next argument, and those after it. -/
def Arguments.next? (args : Arguments) : Option (Json × Arguments) :=
  match args.rest with
  | v :: rest => some (v, { args with rest })
  | [] => none

/-- A reader of characters that may take arguments. -/
abbrev FillingReader (α : Type) :=
  List Char → Arguments → Option (α × List Char × Arguments)

/-- The greatest width and precision. -/
def largestAmount : Nat := 2147483647

/-- A width or a precision: digits, or an asterisk for an argument. -/
def readAmount : FillingReader Int
  | '*' :: cs, args => do
    let (v, args) ← args.next?
    let n ← integer? v
    if largestAmount < n.natAbs then none else return (n, cs, args)
  | cs, args =>
    let n := natOfDigits (cs.takeWhile Char.isDigit)
    if largestAmount < n then none else some (n, cs.dropWhile Char.isDigit, args)

/-- A precision, where a point introduces one. -/
def readPrecision : FillingReader (Option Nat)
  | '.' :: cs, args => (readAmount cs args).map fun (n, rest) => (some n.toNat, rest)
  | cs, args => some (none, cs, args)

/-- Whether a character is a flag. -/
def isFlag (c : Char) : Bool := ['-', '+', ' ', '#', '0'].contains c

/-- Characters without one that tells the size of an argument. -/
def skipSize : List Char → List Char
  | c :: rest => if ['h', 'l', 'L'].contains c then rest else c :: rest
  | [] => []

/-- A place after its percent sign and its key. A negative width stands for a place whose
blanks are to the right. -/
def readPlace : FillingReader Place := fun cs args => do
  let flags := cs.takeWhile isFlag
  let (width, cs, args) ← readAmount (cs.dropWhile isFlag) args
  let (precision, cs, args) ← readPrecision cs args
  match skipSize cs with
  | [] => none
  | letter :: rest =>
    return (⟨flags.contains '-' || width < 0, flags.contains '0', flags.contains '+',
      flags.contains ' ', flags.contains '#', width.natAbs, precision, letter⟩, rest, args)

/-- The characters up to the parenthesis that closes `opened` others and one more, and what
follows it. -/
def readKey : Nat → List Char → Option (List Char × List Char)
  | _, [] => none
  | 0, ')' :: rest => some ([], rest)
  | opened + 1, ')' :: rest => (readKey opened rest).map fun (key, r) => (')' :: key, r)
  | opened, '(' :: rest => (readKey (opened + 1) rest).map fun (key, r) => ('(' :: key, r)
  | opened, c :: rest => (readKey opened rest).map fun (key, r) => (c :: key, r)

/-- What follows the key of a place, with the argument under the key as the next one. -/
def takeKey (cs : List Char) (args : Arguments) : Option (List Char × Arguments) :=
  match cs with
  | '(' :: cs => do
    let (key, rest) ← readKey 0 cs
    let v ← Table.find (String.ofList key) args.named
    return (rest, { args with rest := [v] })
  | cs => some (cs, args)

/-- A place filled with its argument; a second percent sign that follows at once stands for
itself. -/
def fillPlace : FillingReader (List Char)
  | '%' :: cs, args => some (['%'], cs, args)
  | cs, args => do
    let (cs, args) ← takeKey cs args
    let (place, cs, args) ← readPlace cs args
    let (v, args) ← args.next?
    return (← place.show? v, cs, args)

/-- A text with arguments in its places, within a number of steps. Arguments without keys
have to be taken all. -/
def fillPlaces : Nat → List Char → Arguments → Option (List Char)
  | 0, _, _ => none
  | _ + 1, [], args => if args.rest.isEmpty ∨ !args.named.isEmpty then some [] else none
  | steps + 1, '%' :: cs, args => do
    let (shown, cs, args) ← fillPlace cs args
    return shown ++ (← fillPlaces steps cs args)
  | steps + 1, c :: cs, args => (fillPlaces steps cs args).map (c :: ·)

/-- A text with arguments in its places; without arguments, or where they do not fit, the
text as it is. -/
def formatted (text : String) (args : List Json) : String :=
  if args.isEmpty then text
  else
    let named := match args with
      | [.object members] => members
      | _ => []
    match fillPlaces (text.length + 1) text.toList ⟨args, named⟩ with
    | some cs => String.ofList cs
    | none => text

end ContentGraph.Log
