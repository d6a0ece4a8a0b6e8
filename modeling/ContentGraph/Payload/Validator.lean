import ContentGraph.Payload.Reading
import ContentGraph.Failure

/-!
# Validation

A validator accepts payloads and documents of one compiled type. A payload that is refused
fails with the cause of its first issue: a key of a type that is absent, a key that a type
does not have, or a value of the wrong shape. A document is accepted when every element has a
key of the type and the kind of that key, and every key that stands once does stand once.
-/

namespace ContentGraph

/-- The words for what is expected under a field. -/
def Field.expected (f : Field) : String :=
  match f.kind with
  | .value .string => "text"
  | .value .number => "a number"
  | .value .file => "a \x7bcontentType, uri\x7d record"
  | .node => "a nested document"

/-- The words for an element of a kind. -/
def Kind.element (k : Kind) : String := "a " ++ k.name ++ " element"

/-- The last field on a way through the types, with its key, and whether the way ends at
that field or at one of its items. -/
def Catalogue.walk (types : Catalogue) (t : Option NodeType) (at_ : Option (String × Field)) :
    List Step → Option (String × Field) × Bool
  | [] => (at_, at_.isSome)
  | .item _ :: rest => walk types t at_ rest
  | .member key :: rest =>
    match t.bind fun t => t.fields.get? key with
    | none => (at_, false)
    | some f =>
      walk types (f.target?.bind fun target => Table.get? types target) (some (key, f)) rest

/-- The cause for which a payload with these issues is refused; `first` is the first of them. -/
def TypeGraph.refusal (g : TypeGraph) (first : Issue) (issues : List Issue) : Failure :=
  let key := pathText first.loc
  let (at_, ends) := g.types.walk (some g.rootType) none first.loc
  let inNode := (at_.map fun e => decide (e.2.kind = .node)).getD true
  if first.kind = .missing ∧ ends then .cardinality key 0 issues
  else if first.kind = .extra ∧ inNode then .unknownKey key issues
  else
    let expected := match at_ with
      | none => "an object"
      | some (name, f) =>
        if ends ∧ f.multiple ∧ first.loc.getLast? = some (.member name) then
          "a list of " ++ f.expected
        else f.expected
    .wrongType key expected first.input.shape issues

/-- The normal form of a payload. -/
def TypeGraph.validatePayload (g : TypeGraph) : Json → Except Failure Json
  | .object ms =>
    match Payload.readRoot g.reachable g.rootType ms with
    | .ok v => .ok v
    | .refused first more => .error (g.refusal first (first :: more))
  | v => .error (.wrongType "" "an object" v.shape [])

/-- The failure of the first element with a key or a kind that a type does not ask. -/
def NodeType.elementFailure? (t : NodeType) (e : Element) : Option Failure :=
  match t.fields.get? e.key.text with
  | none => some (.unknownKey e.key.text [])
  | some f =>
    if e.kind = f.kind then none else some (.wrongType e.key.text f.kind.element e.kind.element [])

/-- The failure of a field that stands once and does not stand once in a document. -/
def Document.cardinalityFailure? (d : Document) (key : String) (f : Field) : Option Failure :=
  let count := (d.elementsFor key).length
  if f.multiple ∨ count = 1 then none else some (.cardinality key count [])

/-- The document, where it is one of the type. -/
def NodeType.validateDocument (t : NodeType) (d : Document) : Except Failure Document :=
  match d.elements.findSome? t.elementFailure? with
  | some f => .error f
  | none =>
    match t.fields.entries.findSome? fun e => d.cardinalityFailure? e.1 e.2 with
    | some f => .error f
    | none => .ok d

end ContentGraph
