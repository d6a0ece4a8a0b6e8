import ContentGraph.Store
import ContentGraph.TypeGraph.Basic
import ContentGraph.Payload.Validator

/-!
# Reading fields of documents

What a document holds under a field of a type: one item under a key that stands once, all
items in document order under one that may repeat. A reference is followed to the document it
names.
-/

namespace ContentGraph

/-- What an element holds, with its reference followed. -/
inductive Item where
  /-- A text, a number or a file. -/
  | value (content : Content)
  /-- The referenced document. -/
  | document (d : Document)

/-- What a document holds under a field. -/
inductive FieldValue where
  /-- The item of a key that stands once. -/
  | one (item : Item)
  /-- The items of a key that may repeat. -/
  | many (items : List Item)

/-- The item of an element. -/
def Source.item (source : Source) (e : Element) : Except Failure Item :=
  match e.content with
  | .node uri => (source.fetchDocument uri).map .document
  | content => .ok (.value content)

/-- The failure of an element whose kind is not that of the field it stands under. -/
def Field.kindFailure? (f : Field) (e : Element) : Option Failure :=
  if e.kind = f.kind then none else some (.wrongType e.key.text f.kind.element e.kind.element [])

/-- How many rounds it takes until a field of a document is read: three where references are
followed, side by side. -/
def Document.readRounds (d : Document) (key : String) (f : Field) : Nat :=
  let es := d.elementsFor key
  if f.kind = .node ∧ es ≠ [] ∧ (f.multiple ∨ es.length = 1) ∧ (es.findSome? f.kindFailure?).isNone
  then 3 else 0

/-- What a document holds under a field. -/
def Source.readField (source : Source) (d : Document) (key : String) (f : Field) :
    Except Failure FieldValue :=
  let es := d.elementsFor key
  if !f.multiple ∧ es.length ≠ 1 then .error (.cardinality key es.length [])
  else
    match es.findSome? f.kindFailure? with
    | some failure => .error failure
    | none =>
      match es.mapM source.item with
      | .error failure => .error failure
      | .ok items =>
        if f.multiple then .ok (.many items)
        else
          match items with
          | [item] => .ok (.one item)
          | _ => .error (.cardinality key es.length [])

end ContentGraph
