import ContentGraph.GraphQL.Grammar

/-!
# Definitions of types

The language also defines types. No request may hold such a definition, but one that does is
still read: a text that follows no grammar and a request with a part too many are refused in
different ways. Nothing of a definition is kept.
-/

namespace ContentGraph.GraphQL.TypeDefinition

open Reader

/-- A reader whose result does not matter. -/
def skip {α : Type} (read : Reader α) : Reader Unit := read.map fun _ => ()

/-- Two readers after each other. -/
def both (first second : Reader Unit) : Reader Unit := fun ts => do
  let ((), ts) ← first ts
  second ts

/-- Readers after each other. -/
def inOrder (reads : List (Reader Unit)) : Reader Unit := reads.foldr both fun ts => some ((), ts)

/-- A text that describes what follows, where there is one. -/
def description : Reader Unit := fun ts => some ((), skipDescription ts)

/-- Directives without variables. -/
def directives : Reader Unit := skip (readDirectives true deepest)

/-- A name. -/
def anyName : Reader Unit := skip name

/-- A type that is introduced by a colon. -/
def typed : Reader Unit := both (mark ':') (skip (readType deepest))

/-- The definition of an argument, or of a field of an input. -/
def inputValue : Reader Unit :=
  inOrder [description, anyName, typed, skip (afterMark '=' (readLiteral true deepest)), directives]

/-- Definitions of arguments, where they follow. -/
def arguments : Reader Unit := skip (orNone '(' ')' inputValue)

/-- The definition of a field of an object. -/
def field : Reader Unit := inOrder [description, anyName, arguments, typed, directives]

/-- The definition of a word of an enumeration. -/
def word : Reader Unit := fun ts => do
  let ((), ts) ← description ts
  let (s, ts) ← name ts
  if ["true", "false", "null"].contains s then none else directives ts

/-- An operation kind with its type. -/
def rootType : Reader Unit := fun ts => do
  let (s, ts) ← name ts
  if ["query", "mutation", "subscription"].contains s then both (mark ':') anyName ts else none

/-- Something in braces, where they follow; whether they did. -/
def braced (item : Reader Unit) : Reader Bool := Reader.map (!·.isEmpty) (orNone '\x7b' '\x7d' item)

/-- Directives, and whether there were any. -/
def someDirectives : Reader Bool := Reader.map (!·.isEmpty) (readDirectives true deepest)

/-- The interfaces of a type, and whether there were any. -/
def interfaces : Reader Bool := fun ts =>
  if comesKeyword "implements" ts then Reader.map (fun _ => true) (separated '&' anyName) ts.tail
  else some (false, ts)

/-- The members of a union, and whether there were any. -/
def members : Reader Bool := Reader.map Option.isSome (afterMark '=' (separated '|' anyName))

/-- The places where a directive may stand. -/
def places : List String :=
  ["QUERY", "MUTATION", "SUBSCRIPTION", "FIELD", "FRAGMENT_DEFINITION", "FRAGMENT_SPREAD",
   "INLINE_FRAGMENT", "VARIABLE_DEFINITION", "SCHEMA", "SCALAR", "OBJECT", "FIELD_DEFINITION",
   "ARGUMENT_DEFINITION", "INTERFACE", "UNION", "ENUM", "ENUM_VALUE", "INPUT_OBJECT",
   "INPUT_FIELD_DEFINITION", "DIRECTIVE_DEFINITION"]

/-- The name of a place where a directive may stand. -/
def place : Reader Unit := fun ts => do
  let (s, ts) ← name ts
  if places.contains s then some ((), ts) else none

/-- The definition of a directive, after its word. -/
def directive : Reader Unit :=
  inOrder [mark '@', anyName, arguments, directives,
    fun ts => if comesKeyword "repeatable" ts then some ((), ts.tail) else some ((), ts),
    keyword "on", skip (separated '|' place)]

/-- Readers of parts that may be absent; at least one may have to be there. -/
def parts (needed : Bool) (reads : List (Reader Bool)) : Reader Unit := fun ts => do
  let (found, ts) ← reads.foldlM (fun (found, ts) read => do
    let (here, ts) ← read ts
    return (found || here, ts)) (false, ts)
  if needed && !found then none else some ((), ts)

/-- The definition of a type of some kind, after the word for the kind. Where a type is only
extended, there has to be something new. -/
def kind (extends_ : Bool) (word : String) : Option (Reader Unit) :=
  match word with
  | "scalar" => some (both anyName (parts extends_ [someDirectives]))
  | "type" => some (both anyName (parts extends_ [interfaces, someDirectives, braced field]))
  | "interface" => some (both anyName (parts extends_ [interfaces, someDirectives, braced field]))
  | "union" => some (both anyName (parts extends_ [someDirectives, members]))
  | "enum" => some (both anyName (parts extends_ [someDirectives, braced TypeDefinition.word]))
  | "input" => some (both anyName (parts extends_ [someDirectives, braced inputValue]))
  | "schema" =>
    some (if extends_ then parts true [someDirectives, braced rootType]
      else both directives (skip (atLeastOne '\x7b' '\x7d' rootType)))
  | "directive" =>
    some (if extends_ then inOrder [mark '@', anyName, parts true [someDirectives]] else directive)
  | _ => none

/-- A definition with its word. -/
def definition : Reader Unit := fun ts => do
  let (word, ts) ← name ts
  (← kind false word) ts

/-- What follows the word for an extension. -/
def extension : Reader Unit := fun ts => do
  let (word, ts) ← name ts
  (← kind true word) ts

end ContentGraph.GraphQL.TypeDefinition
