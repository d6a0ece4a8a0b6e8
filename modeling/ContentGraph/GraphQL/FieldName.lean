import ContentGraph.Failure
import ContentGraph.TypeGraph.Basic

/-!
# Field names

The keys of documents become the names of fields that a request selects. A key that is no
name keeps its type from being served. A name that begins with two underscores is a name, but
one that the query language keeps for itself.
-/

namespace ContentGraph

/-- The failure of the first key of a type that is no name. -/
def NodeType.fieldNameFailure? (t : NodeType) : Option Failure :=
  t.fields.keys.findSome? fun key => (nameProblem? key).map (Failure.fieldName key t.addresses)

/-- Whether all keys of all types that can be reached from the root are names. -/
def TypeGraph.checkFieldNames (g : TypeGraph) : Except Failure Unit :=
  match g.reachable.findSome? fun t => t.2.fieldNameFailure? with
  | some f => .error f
  | none => .ok ()

/-- Whether the query language keeps a name for itself. -/
def isReservedName (s : String) : Bool :=
  match s.toList with
  | '_' :: '_' :: _ => true
  | _ => false

end ContentGraph
