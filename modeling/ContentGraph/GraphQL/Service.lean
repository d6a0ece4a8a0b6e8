import ContentGraph.GraphQL.Execution
import ContentGraph.GraphQL.Reader
import ContentGraph.GraphQL.Validity

/-!
# Serving requests

A request comes as a text with values for its variables, and is served for a list of
addresses. The surface for the addresses is built first; then the request is read, checked,
and its operation answered. Each stage has its own way to end without an answer.
-/

namespace ContentGraph.GraphQL

/-- Where a request is refused. -/
inductive Stage where
  /-- In reading it. -/
  | reading
  /-- In checking it, before anything is answered. -/
  | checking
  deriving DecidableEq

/-- What comes of a request. -/
inductive Reply where
  /-- There is no surface for the addresses. -/
  | unserved (failure : Failure)
  /-- The request is refused. -/
  | refused (stage : Stage)
  /-- The operation is answered. -/
  | answered (answer : Answer)

/-- A request that has not been read. -/
structure Inquiry where
  /-- The text. -/
  text : String
  /-- The values given for variables. -/
  given : List (String × Json)
  /-- The name of the operation that is asked for. -/
  operation : Option String
  /-- How many lists and objects may lie in each other in a given value. The query language sets
  no bound, but what takes the values may have one. -/
  nesting : Option Nat

/-- The operation of an inquiry on a surface, with the values of its variables and what it asks. -/
def Inquiry.check (i : Inquiry) (s : Surface) : Except Stage (OperationKind × Values × Asked) :=
  if s.hasReservedName then .error .checking
  else
    match Request.parse? i.text with
    | none => .error .reading
    | some r =>
      if r.isValid s then
        match (r.operation? i.operation).bind fun o =>
            (variableValues? s i.nesting i.given o.parameters).map fun values => (o, values) with
        | some (o, values) => .ok (o.kind, values, r.ask values o.selections)
        | none => .error .checking
      else .error .checking

/-- Serves an inquiry for a list of addresses; gives the work after it too. -/
def Inquiry.serve (i : Inquiry) (settings : Settings) (addresses : List String) (w : Work) :
    Reply × Work :=
  let surface := Surface.build w.gateway.source settings addresses
  let w := w.whileServing settings addresses
  match surface with
  | .error f => (.unserved f, w)
  | .ok s =>
    match i.check s with
    | .error stage => (.refused stage, w)
    | .ok (kind, values, asked) =>
      match answer? s settings addresses values kind asked w with
      | (some a, w) => (.answered a, w)
      | (none, w) => (.refused .checking, w)

end ContentGraph.GraphQL
