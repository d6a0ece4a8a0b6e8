import ContentGraph.Text.Hex
import ContentGraph.Text.Name

/-!
# Tokens

The words, numerals, texts and marks that a request is written in. Spaces, line breaks,
commas and comments only separate them. A text stands between quotes on one line, or between
three quotes on any number of lines, whose common indentation does not count.
`Token.next?` reads the token at the front of a text, `Token.scan?` all tokens of one.
-/

namespace ContentGraph.GraphQL

/-- A token. -/
inductive Token where
  /-- One of the marks that are a single character. -/
  | mark (c : Char)
  /-- Three points. -/
  | spread
  /-- A name. -/
  | name (s : String)
  /-- A numeral of digits alone. -/
  | integer (numeral : String)
  /-- A numeral with a fraction or an exponent. -/
  | decimal (numeral : String)
  /-- A text; `block` says whether it stands between three quotes. -/
  | text (s : String) (block : Bool)
  deriving DecidableEq

namespace Token

/-- The marks that are a single character. -/
def marks : List Char := ['!', '$', '&', '(', ')', ':', '=', '@', '[', ']', '\x7b', '|', '\x7d']

/-- Whether a character ends a line. -/
def isLineEnd (c : Char) : Bool := c = '\n' || c = '\r'

/-- Whether a character only separates tokens. -/
def isSeparator (c : Char) : Bool := c = ' ' || c = '\t' || c = ',' || c = '\uFEFF' || isLineEnd c

/-- A text without what only separates tokens at its front. `comment` says whether a comment
has begun. -/
def skipSeparators (comment : Bool) : List Char → List Char
  | [] => []
  | c :: rest =>
    if comment then skipSeparators (!isLineEnd c) rest
    else if c = '#' then skipSeparators true rest
    else if isSeparator c then skipSeparators false rest
    else c :: rest

/-! ### Numerals -/

/-- At least one digit, and what follows. -/
def digits? (cs : List Char) : Option (List Char × List Char) :=
  match cs.takeWhile Char.isDigit with
  | [] => none
  | ds => some (ds, cs.dropWhile Char.isDigit)

/-- The digits before a point: a zero stands alone. -/
def whole? : List Char → Option (List Char × List Char)
  | '0' :: rest => if (rest.head?.map Char.isDigit).getD false then none else some (['0'], rest)
  | cs => digits? cs

/-- A point with digits, where a point follows. -/
def fraction? : List Char → Option (List Char × List Char)
  | '.' :: rest => (digits? rest).map fun (ds, r) => ('.' :: ds, r)
  | cs => some ([], cs)

/-- The digits of an exponent, with their sign. -/
def exponentDigits? : List Char → Option (List Char × List Char)
  | '+' :: rest => (digits? rest).map fun (ds, r) => ('+' :: ds, r)
  | '-' :: rest => (digits? rest).map fun (ds, r) => ('-' :: ds, r)
  | cs => digits? cs

/-- An exponent, where its letter follows. -/
def exponent? : List Char → Option (List Char × List Char)
  | c :: rest =>
    if c = 'e' ∨ c = 'E' then (exponentDigits? rest).map fun (ds, r) => (c :: ds, r)
    else some ([], c :: rest)
  | [] => some ([], [])

/-- A numeral without its sign. No point and no name may follow it. -/
def unsigned? (sign : List Char) (cs : List Char) : Option (Token × List Char) := do
  let (whole, rest) ← whole? cs
  let (fraction, rest) ← fraction? rest
  let (exponent, rest) ← exponent? rest
  if (rest.head?.map fun c => c = '.' || isNameStart c).getD false then none
  else
    let numeral := String.ofList (sign ++ whole ++ fraction ++ exponent)
    some (if fraction = [] ∧ exponent = [] then .integer numeral else .decimal numeral, rest)

/-! ### Texts -/

/-- The character that a letter after a backslash stands for. -/
def unescape? : Char → Option Char
  | '\x22' => some '\x22'
  | '\\' => some '\\'
  | '/' => some '/'
  | 'b' => some '\x08'
  | 'f' => some '\x0c'
  | 'n' => some '\n'
  | 'r' => some '\r'
  | 't' => some '\t'
  | _ => none

/-- The character with a number, where there is one. -/
def charOf? (n : Nat) : Option Char := if n.isValidChar then some (Char.ofNat n) else none

/-- The number of four hexadecimal digits. -/
def hexUnit? (cs : List Char) : Option Nat :=
  if cs.length = 4 then hexNumber? cs else none

/-- The character of one unit of sixteen bits, or of two that follow each other. -/
def readUnits (cs : List Char) : Option (Char × List Char) := do
  let high ← hexUnit? (cs.take 4)
  match charOf? high, cs.drop 4 with
  | some c, rest => return (c, rest)
  | none, '\\' :: 'u' :: rest =>
    let low ← hexUnit? (rest.take 4)
    if 0xD800 ≤ high ∧ high < 0xDC00 ∧ 0xDC00 ≤ low ∧ low < 0xE000 then
      return (Char.ofNat (0x10000 + (high - 0xD800) * 0x400 + (low - 0xDC00)), rest.drop 4)
    else none
  | none, _ => none

/-- The character of at most eight hexadecimal digits between braces; the first brace has
been read. -/
def readBraced (cs : List Char) : Option (Char × List Char) := do
  let ds := cs.takeWhile (· ≠ '\x7d')
  if ds = [] ∨ 8 < ds.length ∨ cs.length = ds.length then none
  else
    let c ← charOf? (← hexNumber? ds)
    return (c, cs.drop (ds.length + 1))

/-- The character after a backslash. -/
def readEscaped : List Char → Option (Char × List Char)
  | 'u' :: '\x7b' :: rest => readBraced rest
  | 'u' :: rest => readUnits rest
  | c :: rest => (unescape? c).map fun c => (c, rest)
  | [] => none

/-- The characters up to the closing quote, within a number of steps. -/
def readLine : Nat → List Char → Option (List Char × List Char)
  | 0, _ => none
  | steps + 1, cs =>
    match cs with
    | [] => none
    | '\x22' :: rest => some ([], rest)
    | '\\' :: rest => do
      let (c, rest) ← readEscaped rest
      (readLine steps rest).map fun (s, r) => (c :: s, r)
    | c :: rest => if isLineEnd c then none else (readLine steps rest).map fun (s, r) => (c :: s, r)

/-- Lines with more characters at the front of the first. -/
def lengthenFirst (cs : List Char) : List (List Char) → List (List Char)
  | [] => [cs]
  | l :: ls => (cs ++ l) :: ls

/-- The lines up to the three closing quotes. Three quotes after a backslash stand for
themselves. -/
def readBlock : List Char → Option (List (List Char) × List Char)
  | '\x22' :: '\x22' :: '\x22' :: rest => some ([[]], rest)
  | '\\' :: '\x22' :: '\x22' :: '\x22' :: rest =>
    (readBlock rest).map fun (ls, r) => (lengthenFirst ['\x22', '\x22', '\x22'] ls, r)
  | '\r' :: '\n' :: rest => (readBlock rest).map fun (ls, r) => ([] :: ls, r)
  | c :: rest =>
    if isLineEnd c then (readBlock rest).map fun (ls, r) => ([] :: ls, r)
    else (readBlock rest).map fun (ls, r) => (lengthenFirst [c] ls, r)
  | [] => none

/-- Whether a character may indent a line. -/
def isIndent (c : Char) : Bool := c = ' ' || c = '\t'

/-- Whether a line holds nothing but indentation. -/
def isEmptyLine (l : List Char) : Bool := l.all isIndent

/-- The indentation that all lines have which are not empty. -/
def commonIndent (ls : List (List Char)) : Nat :=
  (((ls.filter fun l => !isEmptyLine l).map fun l => (l.takeWhile isIndent).length).min?).getD 0

/-- Lines without empty ones at both ends. -/
def trimLines (ls : List (List Char)) : List (List Char) :=
  ((ls.dropWhile isEmptyLine).reverse.dropWhile isEmptyLine).reverse

/-- Lines without their common indentation, which the first line has no part in. -/
def dedent : List (List Char) → List (List Char)
  | [] => []
  | l :: ls => trimLines (l :: ls.map (List.drop (commonIndent ls)))

/-- A text between three quotes; the first three have been read. -/
def block? (cs : List Char) : Option (Token × List Char) :=
  (readBlock cs).map fun (ls, r) => (.text (String.ofList (['\n'].intercalate (dedent ls))) true, r)

/-- A text on one line; the first quote has been read. -/
def line? (cs : List Char) : Option (Token × List Char) :=
  (readLine (cs.length + 1) cs).map fun (s, r) => (.text (String.ofList s) false, r)

/-! ### Tokens -/

/-- The token at the front of a text, and what follows it. -/
def next? : List Char → Option (Token × List Char)
  | '.' :: '.' :: '.' :: rest => some (.spread, rest)
  | '\x22' :: '\x22' :: '\x22' :: rest => block? rest
  | '\x22' :: rest => line? rest
  | '-' :: rest => unsigned? ['-'] rest
  | c :: rest =>
    if marks.contains c then some (.mark c, rest)
    else if c.isDigit then unsigned? [] (c :: rest)
    else if isNameStart c then
      some (.name (String.ofList (c :: rest.takeWhile isNameContinue)),
        rest.dropWhile isNameContinue)
    else none
  | [] => none

/-- The tokens of a text, within a number of steps. -/
def scanFrom : Nat → List Char → Option (List Token)
  | 0, _ => none
  | steps + 1, cs =>
    match skipSeparators false cs with
    | [] => some []
    | cs => do
      let (token, rest) ← next? cs
      return token :: (← scanFrom steps rest)

/-- The tokens of a text. Every token has a character, so that the length of the text bounds
their number. -/
def scan? (s : String) : Option (List Token) := scanFrom (s.length + 1) s.toList

end Token

end ContentGraph.GraphQL
