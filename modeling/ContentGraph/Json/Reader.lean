import ContentGraph.Json.Basic
import ContentGraph.Number.Decimal
import ContentGraph.Text.Hex

/-!
# Reading JSON text

`Json.parse?` reads one value that fills a text. A number with a point or an exponent is a
64-bit number and any other an integer; the names of the numbers without digits are read
too. Each step of the reader consumes a character, so that the length of the text bounds
the number of steps.
-/

namespace ContentGraph.Json

/-- Whether a character may stand between the tokens of a text. -/
def isSpacing (c : Char) : Bool := c = ' ' || c = '\n' || c = '\r' || c = '\t'

/-- A text without the blanks at its front. -/
def skipSpacing (cs : List Char) : List Char := cs.dropWhile isSpacing

/-- The character that a letter after a backslash stands for. -/
def unescape? : Char → Option Char
  | '\x22' => some '\x22'
  | '\\' => some '\\'
  | '/' => some '/'
  | 'b' => some '\x08'
  | 'f' => some '\x0c'
  | 'n' => some '\n'
  | 'r' => some '\r'
  | 't' => some '\t'
  | _ => none

/-- The code points up to the closing quote, and what follows it. An escaped character
above `0xFFFF` is read as its two halves. -/
def readQuoted : List Char → Option (List Nat × List Char)
  | [] => none
  | '\x22' :: rest => some ([], rest)
  | '\\' :: 'u' :: a :: b :: c :: d :: rest =>
    match hexNumber? [a, b, c, d] with
    | some n => (readQuoted rest).map fun (ns, r) => (n :: ns, r)
    | none => none
  | '\\' :: e :: rest =>
    match unescape? e with
    | some c => (readQuoted rest).map fun (ns, r) => (c.toNat :: ns, r)
    | none => none
  | c :: rest =>
    if c = '\\' ∨ c.toNat < 32 then none
    else (readQuoted rest).map fun (ns, r) => (c.toNat :: ns, r)

/-- A code point before others; two neighbouring halves become one. -/
def joinHalf (high : Nat) : List Nat → List Nat
  | [] => [high]
  | low :: rest =>
    if 0xD800 ≤ high ∧ high < 0xDC00 ∧ 0xDC00 ≤ low ∧ low < 0xE000 then
      (0x10000 + (high - 0xD800) * 0x400 + (low - 0xDC00)) :: rest
    else high :: low :: rest

/-- The characters of code points, neighbouring halves joined. -/
def joinHalves (ns : List Nat) : List Char := (ns.foldr joinHalf []).map Char.ofNat

/-- The text up to the closing quote, and what follows it. -/
def readText (cs : List Char) : Option (String × List Char) :=
  (readQuoted cs).map fun (ns, r) => (String.ofList (joinHalves ns), r)

/-- The digits after a point, where a point and a digit follow. -/
def readFraction : List Char → Option (List Char × List Char)
  | '.' :: rest =>
    match rest.takeWhile Char.isDigit with
    | [] => none
    | ds => some (ds, rest.dropWhile Char.isDigit)
  | _ => none

/-- A number after its sign. -/
def readUnsigned (negative : Bool) (cs : List Char) : Option (Json × List Char) :=
  let whole := cs.takeWhile Char.isDigit
  let rest := cs.dropWhile Char.isDigit
  if whole = [] ∨ (whole.head? = some '0' ∧ whole ≠ ['0']) then none
  else
    let (fraction, afterFraction) := (readFraction rest).getD ([], rest)
    let exponent := readExponent afterFraction
    if fraction = [] ∧ exponent = none then
      some (.integer (if negative then -(natOfDigits whole : Int) else natOfDigits whole), rest)
    else
      let (e, after) := exponent.getD (0, afterFraction)
      some (.number (Decimal.ofParts negative whole fraction e).toBinary, after)

/-- What follows a word at the front of a text. -/
def afterWord? : List Char → List Char → Option (List Char)
  | [], cs => some cs
  | w :: word, c :: cs => if w = c then afterWord? word cs else none
  | _ :: _, [] => none

/-- The values that are written as words. -/
def words : List (List Char × Json) :=
  [("null".toList, .null), ("true".toList, .bool true), ("false".toList, .bool false),
   ("NaN".toList, .number .nan), ("Infinity".toList, .number (.infinite false)),
   ("-Infinity".toList, .number (.infinite true))]

/-- A value written as a word, or a number. -/
def readScalar (cs : List Char) : Option (Json × List Char) :=
  match words.findSome? fun (word, v) => (afterWord? word cs).map fun rest => (v, rest) with
  | some found => some found
  | none =>
    match cs with
    | '-' :: rest => readUnsigned true rest
    | _ => readUnsigned false cs

mutual

/-- The value at the front of a text and what follows it, within a number of steps. -/
def readValue : Nat → List Char → Option (Json × List Char)
  | 0, _ => none
  | steps + 1, cs =>
    match skipSpacing cs with
    | '\x22' :: rest => (readText rest).map fun (s, r) => (.text s, r)
    | '[' :: rest =>
      match skipSpacing rest with
      | ']' :: r => some (.list [], r)
      | r => (readItems steps r).map fun (items, r) => (.list items, r)
    | '\x7b' :: rest =>
      match skipSpacing rest with
      | '\x7d' :: r => some (.object [], r)
      | r => (readMembers steps r).map fun (members, r) => (ofMembers members, r)
    | other => readScalar other

/-- The items of a list up to its closing bracket. -/
def readItems : Nat → List Char → Option (List Json × List Char)
  | 0, _ => none
  | steps + 1, cs =>
    match readValue steps cs with
    | none => none
    | some (v, rest) =>
      match skipSpacing rest with
      | ']' :: r => some ([v], r)
      | ',' :: r => (readItems steps r).map fun (items, r) => (v :: items, r)
      | _ => none

/-- The members of an object up to its closing brace. -/
def readMembers : Nat → List Char → Option (List (String × Json) × List Char)
  | 0, _ => none
  | steps + 1, cs =>
    match skipSpacing cs with
    | '\x22' :: rest =>
      match readText rest with
      | none => none
      | some (name, rest) =>
        match skipSpacing rest with
        | ':' :: rest =>
          match readValue steps rest with
          | none => none
          | some (v, rest) =>
            match skipSpacing rest with
            | '\x7d' :: r => some ([(name, v)], r)
            | ',' :: r =>
              (readMembers steps r).map fun (members, r) => ((name, v) :: members, r)
            | _ => none
        | _ => none
    | _ => none

end

/-- The value that fills a row of characters. -/
def read? (cs : List Char) : Option Json :=
  match readValue (2 * cs.length + 1) cs with
  | some (v, rest) => if skipSpacing rest = [] then some v else none
  | none => none

/-- The value that fills a text. -/
def parse? (s : String) : Option Json := read? s.toList

end ContentGraph.Json
