import ContentGraph.GraphQL.Fragments
import ContentGraph.GraphQL.Merging
import ContentGraph.GraphQL.Variables

/-!
# Valid requests

A request is valid on a surface when its parts are sound, every fragment and every operation
fits the surface, and fields that are answered under one name agree. Only valid requests are
answered.
-/

namespace ContentGraph.GraphQL

/-- Whether a request is valid on a surface. -/
def Request.isValid (r : Request) (s : Surface) : Bool :=
  r.hasSoundParts && r.fragments.all (Fragment.fits s r) && r.operations.all (Operation.fits s r)
    && r.fieldsAgree

/-- The operation of a request that is asked for: the one with a name, or the only one. -/
def Request.operation? (r : Request) (name? : Option String) : Option Operation :=
  match name? with
  | some name => r.operations.find? fun o => o.name = some name
  | none =>
    match r.operations with
    | [o] => some o
    | _ => none

end ContentGraph.GraphQL
