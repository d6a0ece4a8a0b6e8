import ContentGraph.Document.Navigation
import ContentGraph.Document.Work
import ContentGraph.TypeGraph.Compile

/-!
# Work that goes on

What is left to do goes on while addresses are resolved, types are compiled and documents are
read. How far it comes depends on how many rounds that takes.
-/

namespace ContentGraph.Work

/-- What is left goes on while addresses are resolved. -/
def whileResolving (s : Settings) (addresses : List String) (w : Work) : Work :=
  w.elapse s.version fun _ => w.gateway.source.resolveRounds addresses

/-- What is left goes on while the type of a list of addresses is compiled. -/
def whileCompiling (s : Settings) (types : Catalogue) (addresses : List String) (w : Work) : Work :=
  w.elapse s.version fun _ => types.compileRounds w.gateway.source s.hashLength.digits addresses

/-- What is left goes on while a surface for a list of addresses is built, where nothing is
compiled for none. -/
def whileServing (s : Settings) (addresses : List String) (w : Work) : Work :=
  if addresses = [] then w else w.whileCompiling s .empty addresses

/-- What is left goes on while a field of a document is read. -/
def whileReading (s : Settings) (d : Document) (key : String) (f : Field) (w : Work) : Work :=
  w.elapse s.version fun _ => d.readRounds key f

/-- What is left goes on while the elements of a document under a key are looked for. -/
def whileFinding (s : Settings) (d : Document) (key : String) (w : Work) : Work :=
  w.elapse s.version fun _ => d.findRounds key

end ContentGraph.Work
