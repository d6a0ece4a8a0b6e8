import ContentGraph.Resource.Basic

/-!
# Type graphs

The typed shape that a set of schemas compiles to. A type has a field for each key; a node
field leads to the type of the referenced documents by that type's identity, so that a
recursive schema gives a finite graph. A `Catalogue` holds the types of a compilation in the
order in which they were begun, and `Catalogue.reachable` lists those that a type leads to.
-/

namespace ContentGraph

/-- What stands under a key. -/
inductive Shape where
  /-- Content of the document itself. -/
  | value (kind : ValueKind)
  /-- References to documents: the schemas as they were declared, and the type. -/
  | node (schemas : List String) (target : String)
  deriving DecidableEq

/-- One key of a type. -/
structure Field where
  /-- What stands under the key. -/
  shape : Shape
  /-- Whether the key may stand any number of times. -/
  multiple : Bool
  deriving DecidableEq

namespace Field

/-- The kind of the elements. -/
def kind (f : Field) : Kind :=
  match f.shape with
  | .value k => .value k
  | .node _ _ => .node

/-- The schemas that a node field declares. -/
def schemas (f : Field) : List String :=
  match f.shape with
  | .value _ => []
  | .node schemas _ => schemas

/-- The type of a node field. -/
def target? (f : Field) : Option String :=
  match f.shape with
  | .value _ => none
  | .node _ target => some target

end Field

/-- A type merged from a set of schemas. -/
structure NodeType where
  /-- The name. -/
  name : String
  /-- The addresses of the schemas, in increasing order. -/
  addresses : List String
  /-- The fields in order. -/
  fields : Table Field
  deriving DecidableEq

/-- The types that the node fields of a type lead to, in order. -/
def NodeType.targets (t : NodeType) : List String := t.fields.values.filterMap Field.target?

/-- Types by their identities. -/
abbrev Catalogue := Table NodeType

/-- Taking out a node that was found among `remaining` leaves fewer. -/
theorem length_erase_lt_of_find? {remaining pending : List String} {found : String}
    (h : pending.find? remaining.contains = some found) :
    (remaining.erase found).length < remaining.length := by
  have hm : found ∈ remaining := by simpa using List.find?_some h
  have hp : 0 < remaining.length := List.length_pos_of_mem hm
  rw [List.length_erase_of_mem hm]
  omega

/-- The nodes of `remaining` that a search from `pending` finds, in the order of finding.
What a node leads to is looked at before what was pending. -/
def search (next : String → List String) (remaining pending : List String) : List String :=
  match _h : pending.find? remaining.contains with
  | none => []
  | some found => found :: search next (remaining.erase found) (next found ++ pending)
termination_by remaining.length
decreasing_by exact length_erase_lt_of_find? _h

namespace Catalogue

/-- The types that a type leads to in one step, the last field first. -/
def next (types : Catalogue) (identity : String) : List String :=
  match Table.get? types identity with
  | some t => t.targets.reverse
  | none => []

/-- The identities of all types that can be reached from a type, that type first. -/
def reachable (types : Catalogue) (root : String) : List String :=
  search types.next (Table.keys types) [root]

/-- The types that can be reached from a type, each with its identity. -/
def reachableTypes (types : Catalogue) (root : String) : List (String × NodeType) :=
  (types.reachable root).filterMap fun identity =>
    (Table.get? types identity).map fun t => (identity, t)

end Catalogue

/-- A compiled root within the types of its compilation. -/
structure TypeGraph where
  /-- The types. -/
  types : Catalogue
  /-- The identity of the root. -/
  root : String
  /-- The root. -/
  rootType : NodeType
  /-- The root is one of the types. -/
  root_mem : types.get? root = some rootType

/-- The types that can be reached from the root, the root first. -/
def TypeGraph.reachable (g : TypeGraph) : List (String × NodeType) := g.types.reachableTypes g.root

end ContentGraph
