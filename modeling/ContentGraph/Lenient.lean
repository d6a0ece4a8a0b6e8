import ContentGraph.Issue
import ContentGraph.Number.Decimal
import ContentGraph.Text.Blank

/-!
# Lenient readings

The scalar readings of wire objects. A text is never converted. A number may be written as
a truth value or as a numeral in a text, a truth value as one of a few words, and an
integer as a number without fraction or as a numeral.
-/

namespace ContentGraph

/-- A text after its sign, and whether the sign was a minus. -/
def unsigned : List Char → Bool × List Char
  | '-' :: rest => (true, rest)
  | '+' :: rest => (false, rest)
  | cs => (false, cs)

/-- The digits after a point, where one stands, and what follows them. -/
def fractionOf : List Char → List Char × List Char
  | '.' :: rest => (rest.takeWhile Char.isDigit, rest.dropWhile Char.isDigit)
  | cs => ([], cs)

/-- The number that digits with at most one point and an exponent denote. -/
def decimal? (negative : Bool) (cs : List Char) : Option Binary :=
  let whole := cs.takeWhile Char.isDigit
  let (fraction, rest) := fractionOf (cs.dropWhile Char.isDigit)
  if whole = [] ∧ fraction = [] then none
  else if rest = [] then some (Decimal.ofParts negative whole fraction 0).toBinary
  else
    match readExponent rest with
    | some (e, []) => some (Decimal.ofParts negative whole fraction e).toBinary
    | _ => none

/-- The number that a numeral denotes: a sign, then the name of an infinity or of what is not
a number, or digits with at most one point and an exponent. -/
def numeral? (cs : List Char) : Option Binary :=
  let (negative, body) := unsigned cs
  let name := String.ofList (body.map Char.toLower)
  if name = "inf" ∨ name = "infinity" then some (.infinite negative)
  else if name = "nan" then some .nan
  else decimal? negative body

/-- Whether two underscores stand side by side. -/
def doubledUnderscore : List Char → Bool
  | '_' :: '_' :: _ => true
  | _ :: rest => doubledUnderscore rest
  | [] => false

/-- A text without its underscores, where each stands alone between other characters. -/
def withoutUnderscores? (cs : List Char) : Option (List Char) :=
  if cs.head? = some '_' ∨ cs.getLast? = some '_' ∨ doubledUnderscore cs then none
  else some (cs.filter (· ≠ '_'))

/-- The number of a text. Blanks at its ends do not count where it has no underscores. -/
def numberOfText? (s : String) : Option Binary :=
  match numeral? (trimBlanks s.toList) with
  | some x => some x
  | none => (withoutUnderscores? s.toList).bind numeral?

/-! ### Numerals of integers -/

/-- The longest numeral that is read as an integer. -/
def longestInteger : Nat := 4300

/-- What a numeral of an integer denotes. -/
inductive IntegerReading where
  /-- An integer. -/
  | integer (n : Int)
  /-- An integer with too many digits. -/
  | tooLong
  /-- Nothing: it is no numeral. -/
  | nothing

/-- The integer of a numeral that a sign or a digit other than zero begins, or that is one
zero. -/
def IntegerReading.ofPlain (cs : List Char) : IntegerReading :=
  let (negative, body) := match cs with
    | '-' :: rest => (true, rest)
    | cs => (false, cs)
  let ds := body.takeWhile Char.isDigit
  if body = ['0'] then .integer 0
  else if ds = [] ∨ body.head? = some '0' then .nothing
  else if longestInteger < ds.length then .tooLong
  else if ds.length < body.length then .nothing
  else .integer (if negative then -(natOfDigits ds : Int) else natOfDigits ds)

/-- What follows the zeros at the front of a numeral, among which underscores may stand alone.
`last` was the character before; it is kept where a point or nothing follows. -/
def afterZeros? (last : Char) : List Char → Option (List Char)
  | [] => some [last]
  | c :: rest =>
    if c = '0' ∨ (c = '_' ∧ last ≠ '_') then afterZeros? c rest
    else if c = '.' then some (last :: c :: rest)
    else if c.isDigit ∨ c = '-' then some (c :: rest)
    else none

/-- A numeral without the zeros at its front. -/
def withoutZeros? : List Char → Option (List Char)
  | '0' :: rest => afterZeros? '0' rest
  | c :: rest => if c.isDigit ∨ c = '-' then some (c :: rest) else none
  | [] => none

/-- A numeral without a fraction of zeros. -/
def withoutZeroFraction (cs : List Char) : List Char :=
  match cs.dropWhile (· ≠ '.') with
  | '.' :: '0' :: zeros => if zeros.all (· = '0') then cs.takeWhile (· ≠ '.') else cs
  | _ => cs

/-- What a text denotes as an integer: a sign and digits, with zeros at their front, single
underscores between them, and a fraction of zeros. -/
def IntegerReading.ofText (s : String) : IntegerReading :=
  let unplussed? := match trimBlanks s.toList with
    | '+' :: '-' :: _ => none
    | '+' :: rest => some rest
    | cs => some cs
  match unplussed?.bind withoutZeros? with
  | none => .nothing
  | some cs =>
    let cs := withoutZeroFraction cs
    .ofPlain ((withoutUnderscores? cs).getD cs)

/-- The words for a truth value; capital letters count as small ones. -/
def boolOfText? (s : String) : Option Bool :=
  let word := String.ofList (s.toList.map Char.toLower)
  if ["true", "t", "yes", "y", "on", "1"].contains word then some true
  else if ["false", "f", "no", "n", "off", "0"].contains word then some false
  else none

/-- Whether an integer is a signed word of 64 bits. -/
def isWord (n : Int) : Bool := -(Nat.pow 2 63 : Int) ≤ n && n < Nat.pow 2 63

/-- Whether an integer fits a signed word of 64 bits without its ends. -/
def fitsWord (n : Int) : Bool := -(Nat.pow 2 63 : Int) < n && n < Nat.pow 2 63

namespace Json

/-- A text, which nothing is converted to. -/
def asText : Json → Checked String
  | .text s => .ok s
  | v => .refuse .notText v

theorem asText_eq_ok_iff {v : Json} {s : String} : v.asText = .ok s ↔ v = .text s := by
  cases v <;> simp [asText, Checked.refuse]

/-- A number: an integer in range, a number, a truth value or a numeral. -/
def asNumber : Json → Checked Binary
  | .number x => .ok x
  | .bool b => .ok (if b then .one else .zero)
  | v@(.integer n) => .ofOption .notNumber v (Binary.ofInt? n)
  | v@(.text s) => .ofOption .numberText v (numberOfText? s)
  | v => .refuse .notNumber v

/-- A truth value: itself, zero or one, or a word. Other words, and other integers of 64
bits, are no truth values; anything else is not looked at as one. -/
def asBool : Json → Checked Bool
  | .bool b => .ok b
  | v@(.integer n) =>
    if n = 0 then .ok false else if n = 1 then .ok true
    else .refuse (if isWord n then .boolText else .notBool) v
  | v@(.number x) =>
    match x.toInt? with
    | some n =>
      if n = 0 then .ok false else if n = 1 then .ok true
      else .refuse (if fitsWord n then .boolText else .notBool) v
    | none => .refuse .notBool v
  | v@(.text s) =>
    match boolOfText? s with
    | some b => .ok b
    | none => .refuse .boolText v
  | v => .refuse .notBool v

/-- An integer: itself, a truth value, a number without fraction that fits a word, or a
numeral. -/
def asInteger : Json → Checked Int
  | .integer n => .ok n
  | .bool b => .ok (if b then 1 else 0)
  | v@(.number x) =>
    if !x.isFinite then .refuse .notFinite v
    else
      match x.toInt? with
      | some n => if fitsWord n then .ok n else .refuse .integerSize v
      | none => .refuse .integerFraction v
  | v@(.text s) =>
    match IntegerReading.ofText s with
    | .integer n => .ok n
    | .tooLong => .refuse .integerSize v
    | .nothing => .refuse .integerText v
  | v => .refuse .notInteger v

/-- A list whose items are read one by one. -/
def asList {α : Type} (read : Json → Checked α) : Json → Checked (List α)
  | .list items => .itemsFrom read 0 items
  | v => .refuse .notList v

/-- A list of texts. -/
def asTexts : Json → Checked (List String) := asList asText

/-- An object of named values. -/
def asMap {α : Type} (read : Json → Checked α) : Json → Checked (List (String × α))
  | .object members => .members read members
  | v => .refuse .notMap v

end Json

end ContentGraph
