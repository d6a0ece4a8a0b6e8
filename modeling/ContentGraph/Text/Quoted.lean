import ContentGraph.Text.Hex
import ContentGraph.Text.Printable

/-!
# Quoted texts

How messages show a text: between single quotes, or double ones where the text has a single
quote and no double one, with every character that is not printable escaped.
-/

namespace ContentGraph

/-- A number in hexadecimal digits, filled up with zeros. -/
def hexOfWidth (width n : Nat) : List Char :=
  (List.range width).reverse.map fun i => hexDigit (n / Nat.pow 16 i % 16)

namespace Quoted

/-- The quote that stands around a text. -/
def mark (cs : List Char) : Char :=
  if cs.contains '\x27' && !cs.contains '\x22' then '\x22' else '\x27'

/-- A character by its number. -/
def numbered (c : Char) : List Char :=
  if c.toNat < 0x100 then '\\' :: 'x' :: hexOfWidth 2 c.toNat
  else if c.toNat < 0x10000 then '\\' :: 'u' :: hexOfWidth 4 c.toNat
  else '\\' :: 'U' :: hexOfWidth 8 c.toNat

/-- A character as it stands between quotes. -/
def escape (quote c : Char) : List Char :=
  if c = quote ∨ c = '\\' then ['\\', c]
  else if c = '\n' then ['\\', 'n']
  else if c = '\r' then ['\\', 'r']
  else if c = '\t' then ['\\', 't']
  else if isPrintable c then [c]
  else numbered c

end Quoted

/-- A text between quotes. -/
def quoted (s : String) : String :=
  let mark := Quoted.mark s.toList
  String.ofList (mark :: (s.toList.flatMap (Quoted.escape mark) ++ [mark]))

/-- A list of texts, each between quotes. -/
def quotedList (ss : List String) : String := "[" ++ ", ".intercalate (ss.map quoted) ++ "]"

end ContentGraph
