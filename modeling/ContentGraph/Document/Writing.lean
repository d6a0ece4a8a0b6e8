import ContentGraph.Document.Waiting

/-!
# Writing documents

A payload that a validator accepts is written as documents: the documents it refers to are
stored first, and its own document is given back or stored last.
-/

namespace ContentGraph

/-- The validator of a list of addresses: the one that is given, or one compiled now. -/
def validatorFor (s : Settings) (addresses : List String) (validator : Option TypeGraph)
    (w : Work) : Except Failure TypeGraph × Work :=
  match validator with
  | some graph => (.ok graph, w)
  | none =>
    (w.gateway.source.compile s.hashLength.digits addresses, w.whileCompiling s .empty addresses)

/-- The document of a payload. The documents it refers to are stored, it is not. -/
def materialize (s : Settings) (payload : Json) (addresses : List String)
    (validator : Option TypeGraph) (w : Work) : Except Fault Document × Work :=
  match validatorFor s addresses validator w with
  | (.error f, w) => (.error (.failure f), w)
  | (.ok graph, w) =>
    match graph.validatePayload payload with
    | .error f => (.error (.failure f), w)
    | .ok v => w.write s.version (.ofPayload graph.types graph.rootType addresses v)

/-- Stores the document of a payload after all documents it refers to; gives its address. -/
def createDocument (s : Settings) (payload : Json) (addresses : List String)
    (validator : Option TypeGraph) (w : Work) : Except Fault String × Work :=
  match materialize s payload addresses validator w with
  | (.error fault, w) => (.error fault, w)
  | (.ok d, w) => w.withGateway fun g => g.saveResource (.document d)

end ContentGraph
