import ContentGraph.GraphQL.Basic
import ContentGraph.GraphQL.Token

/-!
# The grammar of values and types

Readers of tokens: repetition between marks, literals, arguments, directives and types. A
reader takes the tokens that are left and gives what it read with the tokens after it. What
can lie in itself is read with the room that is left for it, of which each level takes one.
-/

namespace ContentGraph.GraphQL

/-- A reader of something at the front of a row of tokens. -/
abbrev Reader (α : Type) := List Token → Option (α × List Token)

namespace Reader

variable {α β : Type}

/-- The reader with its result changed. -/
def map (f : α → β) (read : Reader α) : Reader β := fun ts => (read ts).map fun (a, r) => (f a, r)

/-- What follows a mark. -/
def mark (c : Char) : Reader Unit
  | .mark d :: rest => if d = c then some ((), rest) else none
  | _ => none

/-- Whether a mark comes next. -/
def comesMark (c : Char) (ts : List Token) : Bool := ts.head? = some (.mark c)

/-- Any name. -/
def name : Reader String
  | .name s :: rest => some (s, rest)
  | _ => none

/-- What follows a certain name. -/
def keyword (word : String) : Reader Unit
  | .name s :: rest => if s = word then some ((), rest) else none
  | _ => none

/-- Whether a certain name comes next. -/
def comesKeyword (word : String) (ts : List Token) : Bool := ts.head? = some (.name word)

/-- Items up to a closing mark, within a number of steps. -/
def itemsUntil (close : Char) (item : Reader α) : Nat → Reader (List α)
  | 0, _ => none
  | steps + 1, ts =>
    if comesMark close ts then some ([], ts.tail)
    else do
      let (a, ts) ← item ts
      let (as, ts) ← itemsUntil close item steps ts
      return (a :: as, ts)

/-- Any number of items between marks. -/
def many (open_ close : Char) (item : Reader α) : Reader (List α) := fun ts => do
  let ((), ts) ← mark open_ ts
  itemsUntil close item (ts.length + 1) ts

/-- At least one item between marks. -/
def atLeastOne (open_ close : Char) (item : Reader α) : Reader (List α) := fun ts => do
  let (as, ts) ← many open_ close item ts
  if as.isEmpty then none else some (as, ts)

/-- At least one item between marks, or nothing where the opening mark does not come next. -/
def orNone (open_ close : Char) (item : Reader α) : Reader (List α) := fun ts =>
  if comesMark open_ ts then atLeastOne open_ close item ts else some ([], ts)

/-- Items that follow a mark each, within a number of steps. -/
def itemsAfter (separator : Char) (item : Reader α) : Nat → Reader (List α)
  | 0, _ => none
  | steps + 1, ts =>
    if comesMark separator ts then do
      let (a, ts) ← item ts.tail
      let (as, ts) ← itemsAfter separator item steps ts
      return (a :: as, ts)
    else some ([], ts)

/-- At least one item, with a mark between each two and perhaps one before the first. -/
def separated (separator : Char) (item : Reader α) : Reader (List α) := fun ts => do
  let ts := if comesMark separator ts then ts.tail else ts
  let (a, ts) ← item ts
  let (as, ts) ← itemsAfter separator item (ts.length + 1) ts
  return (a :: as, ts)

/-- Something that is introduced by a mark, where that comes next. -/
def afterMark (c : Char) (read : Reader α) : Reader (Option α) := fun ts =>
  if comesMark c ts then (read ts.tail).map fun (a, r) => (some a, r) else some (none, ts)

end Reader

open Reader

/-- The literal of a word. -/
def Literal.ofWord (s : String) : Literal :=
  if s = "true" then .bool true else if s = "false" then .bool false
  else if s = "null" then .null else .word s

/-- A name with a value. -/
def readNamed {α : Type} (value : Reader α) : Reader (String × α) := fun ts => do
  let (name, ts) ← name ts
  let ((), ts) ← mark ':' ts
  let (v, ts) ← value ts
  return ((name, v), ts)

/-- How many selections, lists and objects may lie in each other. -/
def deepest : Nat := 200

/-- A literal in which at most `room` lists and objects lie in each other. A constant has no
variables. -/
def readLiteral (constant : Bool) : Nat → Reader Literal
  | _, .integer numeral :: rest => some (.integer numeral, rest)
  | _, .decimal numeral :: rest => some (.decimal numeral, rest)
  | _, .text s block :: rest => some (.text s block, rest)
  | _, .name s :: rest => some (.ofWord s, rest)
  | _, .mark '$' :: rest => if constant then none else Reader.map .variable name rest
  | room + 1, .mark '[' :: rest =>
    Reader.map .list (many '[' ']' (readLiteral constant room)) (.mark '[' :: rest)
  | room + 1, .mark '\x7b' :: rest =>
    Reader.map .object (many '\x7b' '\x7d' (readNamed (readLiteral constant room)))
      (.mark '\x7b' :: rest)
  | _, _ => none

/-- Arguments, where they follow. -/
def readArguments (constant : Bool) (room : Nat) : Reader (List Argument) :=
  orNone '(' ')' (Reader.map (fun a => ⟨a.1, a.2⟩) (readNamed (readLiteral constant room)))

/-- Directives, within a number of steps. -/
def readDirectivesWithin (constant : Bool) (room : Nat) : Nat → Reader (List Directive)
  | 0, _ => none
  | steps + 1, ts =>
    if comesMark '@' ts then do
      let (name, ts) ← name ts.tail
      let (arguments, ts) ← readArguments constant room ts
      let (ds, ts) ← readDirectivesWithin constant room steps ts
      return (⟨name, arguments⟩ :: ds, ts)
    else some ([], ts)

/-- Directives, as many as follow. -/
def readDirectives (constant : Bool) (room : Nat) : Reader (List Directive) := fun ts =>
  if comesMark '@' ts then readDirectivesWithin constant room (ts.length + 1) ts
  else some ([], ts)

/-- A type in which at most `room` lists lie in each other. -/
def readType : Nat → Reader TypeRef
  | room + 1, .mark '[' :: ts => do
    let (item, ts) ← readType room ts
    let ((), ts) ← mark ']' ts
    return orNonNull (.list item) ts
  | _, ts => do
    let (name, ts) ← name ts
    return orNonNull (.named name) ts
where
  /-- A type, or the one without null where an exclamation mark follows. -/
  orNonNull (type : TypeRef) (ts : List Token) : TypeRef × List Token :=
    if comesMark '!' ts then (.nonNull type, ts.tail) else (type, ts)

/-- A text that describes what follows, where there is one. -/
def skipDescription : List Token → List Token
  | .text _ _ :: rest => rest
  | ts => ts

end ContentGraph.GraphQL
