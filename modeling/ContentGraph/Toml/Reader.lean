import ContentGraph.Text.Hex
import ContentGraph.Number.Decimal
import ContentGraph.Lenient
import ContentGraph.Toml.Document

/-!
# Reading TOML

`Toml.parse?` reads a whole text or nothing. Each reader takes the characters that are left
and gives what it read with the characters after it.
-/

namespace ContentGraph.Toml

/-- A reader of something at the front of a text. -/
abbrev Reader (α : Type) := List Char → Option (α × List Char)

/-- A blank within a line. -/
def isBlank (c : Char) : Bool := c = ' ' || c = '\t'

/-- A text without the blanks at its front. -/
def skipBlanks (cs : List Char) : List Char := cs.dropWhile isBlank

/-- A control character other than the tabulator. -/
def isControl (c : Char) : Bool := (c.toNat < 32 && c ≠ '\t') || c.toNat = 127

/-- Skips a comment, where one follows; it may hold no control characters. -/
def skipComment : List Char → Option (List Char)
  | '#' :: rest =>
    let after := rest.dropWhile (· ≠ '\n')
    if (rest.takeWhile (· ≠ '\n')).any isControl then none else some after
  | cs => some cs

/-- Whether a character stands in a key without quotes. -/
def isBare (c : Char) : Bool := c.isAlphanum || c = '-' || c = '_'

/-! ### Texts -/

/-- The character of `n` hexadecimal digits. -/
def readEscapedChar (n : Nat) (cs : List Char) : Option (Char × List Char) :=
  let digits := cs.take n
  if digits.length ≠ n then none
  else
    match hexNumber? digits with
    | some code => if code.isValidChar then some (Char.ofNat code, cs.drop n) else none
    | none => none

/-- The character that a letter after a backslash stands for. -/
def unescape? : Char → Option Char
  | 'b' => some '\x08'
  | 't' => some '\t'
  | 'n' => some '\n'
  | 'f' => some '\x0c'
  | 'r' => some '\r'
  | '\x22' => some '\x22'
  | '\\' => some '\\'
  | _ => none

/-- What follows a backslash that ends a line of a long text. -/
def afterLineEnd? (cs : List Char) : Option (List Char) :=
  match skipBlanks cs with
  | [] => some []
  | '\n' :: rest => some (rest.dropWhile fun c => isBlank c || c = '\n')
  | _ => none

/-- The characters up to the closing quote, or to three of them in a long text, within a
number of steps. -/
def readBasic (long : Bool) : Nat → List Char → Option (List Char × List Char)
  | 0, _ => none
  | steps + 1, cs =>
    let next := fun (c : Char) (rest : List Char) =>
      (readBasic long steps rest).map fun (s, r) => (c :: s, r)
    match cs with
    | [] => none
    | '\x22' :: rest =>
      if !long then some ([], rest)
      else
        match rest with
        | '\x22' :: '\x22' :: after => some ([], after)
        | _ => next '\x22' rest
    | '\\' :: 'u' :: rest => (readEscapedChar 4 rest).bind fun (c, r) => next c r
    | '\\' :: 'U' :: rest => (readEscapedChar 8 rest).bind fun (c, r) => next c r
    | '\\' :: c :: rest =>
      if long ∧ (isBlank c ∨ c = '\n') then (afterLineEnd? (c :: rest)).bind (readBasic long steps)
      else (unescape? c).bind fun c => next c rest
    | c :: rest => if isControl c ∧ ¬(long ∧ c = '\n') ∨ c = '\\' then none else next c rest

/-- The characters up to the closing apostrophe, or to three of them in a long text. -/
def readLiteral (long : Bool) : List Char → Option (List Char × List Char)
  | [] => none
  | '\x27' :: rest =>
    if !long then some ([], rest)
    else
      match rest with
      | '\x27' :: '\x27' :: after => some ([], after)
      | _ => (readLiteral long rest).map fun (s, r) => ('\x27' :: s, r)
  | c :: rest =>
    if isControl c ∧ ¬(long ∧ c = '\n') then none
    else (readLiteral long rest).map fun (s, r) => (c :: s, r)

/-- At most two more quotes, which belong to a long text that ended before them. -/
def readMoreQuotes (quote : Char) : List Char → List Char × List Char
  | a :: b :: rest =>
    if a = quote then if b = quote then ([a, b], rest) else ([a], b :: rest)
    else ([], a :: b :: rest)
  | [a] => if a = quote then ([a], []) else ([], [a])
  | [] => ([], [])

/-- A text with the quotes that belong to it. -/
def withMoreQuotes (quote : Char) (found : List Char × List Char) : String × List Char :=
  let (more, rest) := readMoreQuotes quote found.2
  (String.ofList (found.1 ++ more), rest)

/-- A long text starts after a line break that follows its quotes. -/
def skipFirstBreak : List Char → List Char
  | '\n' :: rest => rest
  | cs => cs

/-- A text on one line. -/
def readShortText : Reader String
  | '\x22' :: rest =>
    (readBasic false (rest.length + 1) rest).map fun (s, r) => (String.ofList s, r)
  | '\x27' :: rest => (readLiteral false rest).map fun (s, r) => (String.ofList s, r)
  | _ => none

/-- A text, of either length. -/
def readText : Reader String
  | '\x22' :: '\x22' :: '\x22' :: rest =>
    (readBasic true (rest.length + 1) (skipFirstBreak rest)).map (withMoreQuotes '\x22')
  | '\x27' :: '\x27' :: '\x27' :: rest =>
    (readLiteral true (skipFirstBreak rest)).map (withMoreQuotes '\x27')
  | cs => readShortText cs

/-! ### Numbers and moments -/

/-- Further digits, each after at most one underscore, and what follows. -/
def readMoreDigits (isDigit : Char → Bool) : List Char → List Char × List Char
  | [] => ([], [])
  | '_' :: d :: rest =>
    if isDigit d then
      let (ds, after) := readMoreDigits isDigit rest
      (d :: ds, after)
    else ([], '_' :: d :: rest)
  | c :: rest =>
    if isDigit c then
      let (ds, after) := readMoreDigits isDigit rest
      (c :: ds, after)
    else ([], c :: rest)

/-- Digits with single underscores between them, and what follows. -/
def readDigits (isDigit : Char → Bool) (cs : List Char) : List Char × List Char :=
  match cs with
  | '_' :: _ => ([], cs)
  | _ => readMoreDigits isDigit cs

/-- An integer of digits of one base. -/
def readInBase (base : Nat) (isDigit : Char → Bool) : Reader Value := fun cs =>
  match readDigits isDigit cs with
  | ([], _) => none
  | (ds, rest) =>
    some (.integer (ds.foldl (fun n c => base * n + (hexValue? c).getD 0) 0 : Nat), rest)

/-- An integer in another base. -/
def readBased : Reader Value
  | '0' :: 'x' :: rest => readInBase 16 (fun c => (hexValue? c).isSome) rest
  | '0' :: 'o' :: rest => readInBase 8 (fun c => '0' ≤ c && c ≤ '7') rest
  | '0' :: 'b' :: rest => readInBase 2 (fun c => c = '0' || c = '1') rest
  | _ => none

/-- The digits before a point: a zero alone, or no zero at the front. -/
def readWhole : List Char → Option (List Char × List Char)
  | '0' :: rest => some (['0'], rest)
  | cs =>
    match readDigits Char.isDigit cs with
    | ([], _) => none
    | found => some found

/-- The point and the digits after it, where they follow. -/
def readPart (cs : List Char) : List Char × List Char :=
  match cs with
  | '.' :: rest =>
    match readDigits Char.isDigit rest with
    | ([], _) => ([], cs)
    | found => found
  | _ => ([], cs)

/-- The exponent, where one follows. -/
def readPower (cs : List Char) : Option Int × List Char :=
  match cs with
  | [] => (none, cs)
  | e :: rest =>
    if e ≠ 'e' ∧ e ≠ 'E' then (none, cs)
    else
      let (negative, body) := unsigned rest
      match readDigits Char.isDigit body with
      | ([], _) => (none, cs)
      | (ds, after) => (some (if negative then -(natOfDigits ds : Int) else natOfDigits ds), after)

/-- A decimal integer or number, or one of the names `inf` and `nan`. -/
def readNumber (cs : List Char) : Option (Value × List Char) :=
  let (negative, body) := unsigned cs
  match readWhole body with
  | some (whole, rest) =>
    let (fraction, rest) := readPart rest
    let (power, rest) := readPower rest
    if fraction = [] ∧ power = none then
      if longestInteger < whole.length then none
      else
        some (.integer (if negative then -(natOfDigits whole : Int) else natOfDigits whole), rest)
    else some (.number (Decimal.ofParts negative whole fraction (power.getD 0)).toBinary, rest)
  | none =>
    match body with
    | 'i' :: 'n' :: 'f' :: rest => some (.number (.infinite negative), rest)
    | 'n' :: 'a' :: 'n' :: rest => some (.number .nan, rest)
    | _ => none

/-- The number of two digits. -/
def two (a b : Char) : Option Nat :=
  if a.isDigit && b.isDigit then some (natOfDigits [a, b]) else none

/-- What follows a time of day. -/
def afterTime? : List Char → Option (List Char)
  | a :: b :: ':' :: c :: d :: ':' :: e :: f :: rest =>
    match two a b, two c d, two e f with
    | some hour, some minute, some second =>
      if 23 < hour ∨ 59 < minute ∨ 59 < second then none
      else
        match rest with
        | '.' :: g :: more => if g.isDigit then some (more.dropWhile Char.isDigit) else some rest
        | _ => some rest
    | _, _, _ => none
  | _ => none

/-- What follows an offset from universal time, where one is given. -/
def afterOffset (cs : List Char) : List Char :=
  match cs with
  | 'Z' :: rest => rest
  | 'z' :: rest => rest
  | sign :: a :: b :: ':' :: c :: d :: rest =>
    if sign ≠ '+' ∧ sign ≠ '-' then cs
    else
      match two a b, two c d with
      | some hour, some minute => if 23 < hour ∨ 59 < minute then cs else rest
      | _, _ => cs
  | _ => cs

/-- The number of days of a month. -/
def daysOf (year month : Nat) : Nat :=
  if month = 2 then
    if (year % 4 = 0 ∧ year % 100 ≠ 0) ∨ year % 400 = 0 then 29 else 28
  else if month = 4 ∨ month = 6 ∨ month = 9 ∨ month = 11 then 30
  else 31

/-- What follows a date with its time, and whether there is such a day. -/
def afterDate? : List Char → Option (Bool × List Char)
  | a :: b :: c :: d :: '-' :: e :: f :: '-' :: g :: h :: rest =>
    match two a b, two c d, two e f, two g h with
    | some century, some years, some month, some day =>
      if month = 0 ∨ 12 < month ∨ day = 0 ∨ 31 < day then none
      else
        let year := 100 * century + years
        let exists_ := decide (0 < year ∧ day ≤ daysOf year month)
        match rest with
        | mark :: time =>
          match if mark = 'T' ∨ mark = 't' ∨ mark = ' ' then afterTime? time else none with
          | some after => some (exists_, afterOffset after)
          | none => some (exists_, rest)
        | [] => some (exists_, rest)
    | _, _, _, _ => none
  | _ => none

/-- A date or a time, where one follows; `some none` where there is no such day. -/
def readMoment (cs : List Char) : Option (Option (List Char)) :=
  match afterDate? cs with
  | some (exists_, rest) => some (if exists_ then some rest else none)
  | none => (afterTime? cs).map some

/-- A value on its own: a text, a truth value, a moment or a number. -/
def readScalar (cs : List Char) : Option (Value × List Char) :=
  match cs with
  | '\x22' :: _ => (readText cs).map fun (s, r) => (.text s, r)
  | '\x27' :: _ => (readText cs).map fun (s, r) => (.text s, r)
  | 't' :: 'r' :: 'u' :: 'e' :: rest => some (.bool true, rest)
  | 'f' :: 'a' :: 'l' :: 's' :: 'e' :: rest => some (.bool false, rest)
  | _ =>
    match readMoment cs with
    | some found => found.map fun rest => (.moment, rest)
    | none =>
      match readBased cs with
      | some found => some found
      | none => readNumber cs

/-! ### Keys, lists, tables and statements -/

/-- One part of a dotted key. -/
def readKeyPart (cs : List Char) : Option (String × List Char) :=
  match cs.takeWhile isBare with
  | [] => readShortText cs
  | name => some (String.ofList name, cs.dropWhile isBare)

/-- A dotted key and the blanks after it, within a number of parts. -/
def readKey : Nat → List Char → Option (Path × List Char)
  | 0, _ => none
  | parts + 1, cs =>
    match readKeyPart cs with
    | none => none
    | some (part, rest) =>
      match skipBlanks rest with
      | '.' :: rest => (readKey parts (skipBlanks rest)).map fun (path, r) => (part :: path, r)
      | rest => some ([part], rest)

/-- Skips blanks, line breaks and comments, within a number of steps. -/
def skipLines : Nat → List Char → Option (List Char)
  | 0, _ => none
  | steps + 1, cs =>
    match cs.dropWhile fun c => isBlank c || c = '\n' with
    | '#' :: rest => (skipComment ('#' :: rest)).bind (skipLines steps)
    | rest => some rest

mutual

/-- A value, within a number of steps. -/
def readValue : Nat → List Char → Option (Value × List Char)
  | 0, _ => none
  | steps + 1, cs =>
    match cs with
    | '[' :: rest =>
      match skipLines (rest.length + 1) rest with
      | some (']' :: after) => some (.list [], after)
      | some rest => (readItems steps rest).map fun (items, r) => (.list items, r)
      | none => none
    | '\x7b' :: rest =>
      match skipBlanks rest with
      | '\x7d' :: after => some (.table [], after)
      | rest =>
        match readAssignments steps rest with
        | some (assignments, after) =>
          (build assignments).map fun members => (.table members, after)
        | none => none
    | _ => readScalar cs

/-- The items of a list up to its closing bracket, which a comma may stand before. -/
def readItems : Nat → List Char → Option (List Value × List Char)
  | 0, _ => none
  | steps + 1, cs =>
    match readValue steps cs with
    | none => none
    | some (v, rest) =>
      match skipLines (rest.length + 1) rest with
      | some (']' :: after) => some ([v], after)
      | some (',' :: rest) =>
        match skipLines (rest.length + 1) rest with
        | some (']' :: after) => some ([v], after)
        | some rest => (readItems steps rest).map fun (items, r) => (v :: items, r)
        | none => none
      | _ => none

/-- The assignments of an inline table up to its closing brace. -/
def readAssignments : Nat → List Char → Option (List Statement × List Char)
  | 0, _ => none
  | steps + 1, cs =>
    match readAssignment steps cs with
    | none => none
    | some (statement, rest) =>
      match skipBlanks rest with
      | '\x7d' :: after => some ([statement], after)
      | ',' :: rest =>
        (readAssignments steps (skipBlanks rest)).map fun (more, r) => (statement :: more, r)
      | _ => none

/-- A key, an equals sign and a value. -/
def readAssignment : Nat → List Char → Option (Statement × List Char)
  | 0, _ => none
  | steps + 1, cs =>
    match readKey (cs.length + 1) cs with
    | some (path, '=' :: rest) =>
      (readValue steps (skipBlanks rest)).map fun (v, r) => (.assign path v, r)
    | _ => none

end

/-- A header between brackets. -/
def readHeader : List Char → Option (Statement × List Char)
  | '[' :: '[' :: rest =>
    match readKey (rest.length + 1) (skipBlanks rest) with
    | some (path, ']' :: ']' :: after) => some (.element path, after)
    | _ => none
  | '[' :: rest =>
    match readKey (rest.length + 1) (skipBlanks rest) with
    | some (path, ']' :: after) => some (.table path, after)
    | _ => none
  | _ => none

/-- The statement of a line, where there is one. -/
def readStatement (cs : List Char) : Option (Option Statement × List Char) :=
  match cs with
  | [] => some (none, [])
  | '\n' :: _ => some (none, cs)
  | '#' :: _ => some (none, cs)
  | '[' :: _ => (readHeader cs).map fun (s, r) => (some s, r)
  | _ => (readAssignment (3 * cs.length + 3) cs).map fun (s, r) => (some s, r)

/-- The statements of a text, within a number of lines. -/
def readStatements : Nat → List Char → Option (List Statement)
  | 0, _ => none
  | lines + 1, cs =>
    match readStatement (skipBlanks cs) with
    | none => none
    | some (statement?, rest) =>
      match skipComment (skipBlanks rest) with
      | some [] => some statement?.toList
      | some ('\n' :: rest) => (readStatements lines rest).map fun more => statement?.toList ++ more
      | _ => none

/-- A text with each pair of line break characters as one. -/
def joinBreaks : List Char → List Char
  | '\r' :: '\n' :: rest => '\n' :: joinBreaks rest
  | c :: rest => c :: joinBreaks rest
  | [] => []

/-- The table of a text. -/
def parse? (s : String) : Option (List (String × Value)) :=
  let cs := joinBreaks s.toList
  (readStatements (cs.length + 1) cs).bind build

end ContentGraph.Toml
