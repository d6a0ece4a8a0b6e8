import ContentGraph.Json.Basic
import ContentGraph.Number.Shortest
import ContentGraph.Text.Hex

/-!
# JSON text

Two written forms of a value. The compact form has no blanks; printed from a sorted value
it is the canonical text of a resource. The indented form puts every item on a line of its
own. Both escape quotes, backslashes and the characters below the blank, and nothing else.
-/

namespace ContentGraph.Json

/-- A character as it stands in a quoted text. -/
def escape (c : Char) : List Char :=
  if c = '\x22' then ['\\', '\x22']
  else if c = '\\' then ['\\', '\\']
  else if c = '\n' then ['\\', 'n']
  else if c = '\r' then ['\\', 'r']
  else if c = '\t' then ['\\', 't']
  else if c = '\x08' then ['\\', 'b']
  else if c = '\x0c' then ['\\', 'f']
  else if c.toNat < 32 then ['\\', 'u', '0', '0', hexDigit (c.toNat / 16), hexDigit (c.toNat % 16)]
  else [c]

/-- A text between quotes. -/
def quoted (s : String) : List Char := '\x22' :: (s.toList.flatMap escape ++ ['\x22'])

/-- The digits of an integer with its sign. -/
def integerText (n : Int) : List Char := (if n < 0 then ['-'] else []) ++ digitsOf n.natAbs

mutual

/-- The compact text of a value. -/
def compact : Json → List Char
  | .null => "null".toList
  | .bool b => if b then "true".toList else "false".toList
  | .integer n => integerText n
  | .number x => Layout.canonical.text x
  | .text s => quoted s
  | .list items => '[' :: (compactItems items ++ [']'])
  | .object members => '\x7b' :: (compactMembers members ++ ['\x7d'])

/-- The compact texts of items with commas between them. -/
def compactItems : List Json → List Char
  | [] => []
  | [v] => v.compact
  | v :: w :: rest => v.compact ++ ',' :: compactItems (w :: rest)

/-- The compact texts of members with commas between them. -/
def compactMembers : List (String × Json) → List Char
  | [] => []
  | [(k, v)] => quoted k ++ ':' :: v.compact
  | (k, v) :: m :: rest => quoted k ++ ':' :: (v.compact ++ ',' :: compactMembers (m :: rest))

end

/-- A line break and the indentation at a depth. -/
def newline (depth : Nat) : List Char := '\n' :: List.replicate (2 * depth) ' '

mutual

/-- The indented text of a value that stands at a depth. -/
def indented (depth : Nat) : Json → List Char
  | .number x => Layout.indented.text x
  | .list [] => ['[', ']']
  | .list (v :: rest) =>
    '[' :: (newline (depth + 1) ++ v.indented (depth + 1) ++ indentedItems (depth + 1) rest
      ++ newline depth ++ [']'])
  | .object [] => ['\x7b', '\x7d']
  | .object ((k, v) :: rest) =>
    '\x7b' :: (newline (depth + 1) ++ quoted k ++ [':', ' '] ++ v.indented (depth + 1)
      ++ indentedMembers (depth + 1) rest ++ newline depth ++ ['\x7d'])
  | .null => "null".toList
  | .bool b => if b then "true".toList else "false".toList
  | .integer n => integerText n
  | .text s => quoted s

/-- The further items of a list, each on its line. -/
def indentedItems (depth : Nat) : List Json → List Char
  | [] => []
  | v :: rest => ',' :: (newline depth ++ v.indented depth ++ indentedItems depth rest)

/-- The further members of an object, each on its line. -/
def indentedMembers (depth : Nat) : List (String × Json) → List Char
  | [] => []
  | (k, v) :: rest =>
    ',' :: (newline depth ++ quoted k ++ [':', ' '] ++ v.indented depth
      ++ indentedMembers depth rest)

end

/-- The compact text of a value. -/
def toText (v : Json) : String := String.ofList v.compact

/-- The canonical text of a value: compact, with sorted objects. -/
def canonicalText (v : Json) : String := v.sorted.toText

/-- The text of a value with an indentation of two. -/
def indentedText (v : Json) : String := String.ofList (v.indented 0)

end ContentGraph.Json
