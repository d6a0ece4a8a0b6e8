import ContentGraph.Document.FieldReading

/-!
# Navigation without schemas

A document can be read without any schema: the elements under a key, with references
followed. A view is an element so read, and it answers only to its own kind.
-/

namespace ContentGraph

/-- An element with its reference followed. -/
inductive View where
  /-- An element that holds a text, a number or a file. -/
  | value (e : Element)
  /-- The document that an element refers to, and the key it stands under. -/
  | node (key : String) (d : Document)

namespace View

/-- The key it stands under. -/
def key : View → String
  | .value e => e.key.text
  | .node key _ => key

/-- The kind of what a view holds. -/
def kind : View → Kind
  | .value e => e.kind
  | .node _ _ => .node

/-- The document that a view holds. -/
def asNode : View → Except Failure Document
  | .node _ d => .ok d
  | .value e => .error (.elementKind e.key.text Kind.node.name e.kind.name)

/-- The element that a view holds, where it has the kind. -/
def asValue (kind : ValueKind) (v : View) : Except Failure Element :=
  match v with
  | .value e =>
    if e.kind = .value kind then .ok e
    else .error (.elementKind e.key.text (Kind.value kind).name e.kind.name)
  | .node key _ => .error (.elementKind key (Kind.value kind).name Kind.node.name)

end View

/-- How many rounds it takes until all elements under a key are found, side by side. -/
def Document.findRounds (d : Document) (key : String) : Nat :=
  if d.elementsFor key = [] then 0 else 3

namespace Source

/-- The view of an element. -/
def view (source : Source) (e : Element) : Except Failure View :=
  match e.content with
  | .node uri => (source.fetchDocument uri).map (.node e.key.text)
  | _ => .ok (.value e)

/-- The views of all elements under a key, in document order. -/
def find (source : Source) (d : Document) (key : String) : Except Failure (List View) :=
  (d.elementsFor key).mapM source.view

/-- The view of the first element under a key. -/
def first (source : Source) (d : Document) (key : String) : Except Failure (Option View) :=
  match (d.elementsFor key).head? with
  | some e => (source.view e).map some
  | none => .ok none

/-- The view of the last element under a key. -/
def last (source : Source) (d : Document) (key : String) : Except Failure (Option View) :=
  match (d.elementsFor key).getLast? with
  | some e => (source.view e).map some
  | none => .ok none

end Source

end ContentGraph
