import ContentGraph.GraphQL.TypeDefinition

/-!
# Reading requests

`Request.parse?` reads a whole text or nothing.
-/

namespace ContentGraph.GraphQL

open Reader

/-- The name of a fragment. -/
def readFragmentName : Reader String := fun ts => if comesKeyword "on" ts then none else name ts

/-- What follows the points of a fragment, where selections between braces are read by
`below`. -/
def readSpread (room : Nat) (below : Reader (List Selection)) : Reader Selection := fun ts =>
  if comesKeyword "on" ts then do
    let (condition, ts) ← name ts.tail
    let (directives, ts) ← readDirectives false room ts
    let (selections, ts) ← below ts
    return (.inline (some condition) directives selections, ts)
  else
    match ts with
    | .name fragment :: ts => do
      let (directives, ts) ← readDirectives false room ts
      return (.spread fragment directives, ts)
    | ts => do
      let (directives, ts) ← readDirectives false room ts
      let (selections, ts) ← below ts
      return (.inline none directives selections, ts)

/-- A field, where selections between braces are read by `below`. -/
def readField (room : Nat) (below : Reader (List Selection)) : Reader Selection := fun ts => do
  let (first, ts) ← name ts
  let (second?, ts) ← afterMark ':' name ts
  let (arguments, ts) ← readArguments false room ts
  let (directives, ts) ← readDirectives false room ts
  let field : FieldCall := ⟨second?.map fun _ => first, second?.getD first, arguments, directives⟩
  if comesMark '\x7b' ts then
    (below ts).map fun (selections, ts) => (.branch field selections, ts)
  else return (.leaf field, ts)

/-- A selection, where selections between braces are read by `below`. -/
def readSelection (room : Nat) (below : Reader (List Selection)) : Reader Selection
  | .spread :: rest => readSpread room below rest
  | ts => readField room below ts

/-- Selections between braces, of which at most `room` lie in each other. -/
def readSelections : Nat → Reader (List Selection)
  | 0, _ => none
  | room + 1, ts => many '\x7b' '\x7d' (readSelection room (readSelections room)) ts

/-- The definition of a variable. -/
def readVariable : Reader Variable := fun ts => do
  let ((), ts) ← mark '$' (skipDescription ts)
  let (name, ts) ← name ts
  let ((), ts) ← mark ':' ts
  let (type, ts) ← readType deepest ts
  let (default, ts) ← afterMark '=' (readLiteral true deepest) ts
  let (directives, ts) ← readDirectives true deepest ts
  return (⟨name, type, default, directives⟩, ts)

/-- An operation after the word for its kind. -/
def readOperation (kind : OperationKind) : Reader Part := fun ts => do
  let (name?, ts) := match ts with
    | .name s :: rest => (some s, rest)
    | ts => (none, ts)
  let (parameters, ts) ← orNone '(' ')' readVariable ts
  let (directives, ts) ← readDirectives false deepest ts
  let (selections, ts) ← readSelections deepest ts
  return (.operation ⟨kind, name?, parameters, directives, selections⟩, ts)

/-- A fragment after its word. -/
def readFragment : Reader Part := fun ts => do
  let (name_, ts) ← readFragmentName ts
  let ((), ts) ← keyword "on" ts
  let (condition, ts) ← name ts
  let (directives, ts) ← readDirectives false deepest ts
  let (selections, ts) ← readSelections deepest ts
  return (.fragment ⟨name_, condition, directives, selections⟩, ts)

/-- A part that begins with a word for it. -/
def readDefinition : Reader Part
  | .name "query" :: rest => readOperation .query rest
  | .name "mutation" :: rest => readOperation .mutation rest
  | .name "subscription" :: rest => readOperation .subscription rest
  | .name "fragment" :: rest => readFragment rest
  | ts => Reader.map (fun _ => .type) TypeDefinition.definition ts

/-- A part of a request. A text may describe a definition, but neither a query that is
selections alone nor the extension of a type. -/
def readPart : Reader Part
  | .mark c :: rest => do
    let (selections, ts) ← readSelections deepest (.mark c :: rest)
    return (.operation ⟨.query, none, [], [], selections⟩, ts)
  | .name "extend" :: rest => Reader.map (fun _ => .type) TypeDefinition.extension rest
  | ts => readDefinition (skipDescription ts)

/-- Parts up to the end, within a number of steps. -/
def readParts : Nat → List Token → Option (List Part)
  | _, [] => some []
  | 0, _ => none
  | steps + 1, ts => do
    let (p, ts) ← readPart ts
    return p :: (← readParts steps ts)

/-- The request that fills a text, which has at least one part. -/
def Request.parse? (s : String) : Option Request := do
  let parts ← readParts s.length (← Token.scan? s)
  if parts.isEmpty then none else some ⟨parts⟩

end ContentGraph.GraphQL
