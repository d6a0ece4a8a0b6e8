import ContentGraph.GraphQL.Basic
import ContentGraph.TypeGraph.Basic
import Std.Data.HashSet

/-!
# The parts of a request

What has to hold of the parts of a request before anything is known of types: operations can
be told apart, every fragment that is spread is there and every one that is there is spread,
and none leads back to itself.
-/

namespace ContentGraph.GraphQL

mutual

/-- The fragments that are spread in a selection, at any depth. -/
def Selection.spreads : Selection → List String
  | .leaf _ => []
  | .branch _ selections => spreadsOf selections
  | .spread fragment _ => [fragment]
  | .inline _ _ selections => spreadsOf selections

/-- The fragments that are spread in several selections. -/
def spreadsOf : List Selection → List String
  | [] => []
  | s :: rest => s.spreads ++ spreadsOf rest

end

/-- Those of some fragments in which one of them is spread. -/
def leading (fs : List Fragment) : List Fragment :=
  let names := Std.HashSet.ofList (fs.map Fragment.name)
  fs.filter fun f => (spreadsOf f.selections).any names.contains

namespace Request

/-- The names of the fragments. -/
def fragmentNames (r : Request) : List String := r.fragments.map Fragment.name

/-- The fragments that are spread in operations. -/
def spreadsInOperations (r : Request) : List String :=
  r.operations.flatMap fun o => spreadsOf o.selections

/-- The fragments that are spread in a fragment. -/
def spreadsIn (r : Request) (name : String) : List String :=
  ((r.fragment? name).map fun f => spreadsOf f.selections).getD []

/-- The fragments that are spread where some names are, and those spread in them, and so on. -/
def reached (r : Request) (names : List String) : List String :=
  search r.spreadsIn r.fragmentNames names

/-- Whether no part defines a type. -/
def hasNoTypes (r : Request) : Bool :=
  r.parts.all fun p => match p with | .type => false | _ => true

/-- Whether operations have names of their own, where there are several. -/
def hasDistinctOperations (r : Request) : Bool :=
  (r.operations.filterMap Operation.name).Nodup
    && (r.operations.all (fun o => o.name.isSome) || r.operations.length = 1)

/-- Whether the fragments have names of their own. -/
def hasDistinctFragments (r : Request) : Bool := r.fragmentNames.Nodup

/-- Whether every fragment that is spread is there. -/
def knowsSpreads (r : Request) : Bool :=
  (r.spreadsInOperations ++ r.fragments.flatMap fun f => spreadsOf f.selections).all
    r.fragmentNames.contains

/-- Whether every fragment is reached from some operation. -/
def usesFragments (r : Request) : Bool :=
  r.fragmentNames.all (r.reached r.spreadsInOperations).contains

/-- Whether no fragment leads back to itself: no row of fragments, each of which spreads the
next, is longer than the number of fragments. -/
def isAcyclic (r : Request) : Bool :=
  (r.fragments.length.repeat leading r.fragments).isEmpty

/-- Whether all parts are as they have to be. -/
def hasSoundParts (r : Request) : Bool :=
  r.hasNoTypes && r.hasDistinctOperations && r.hasDistinctFragments && r.knowsSpreads
    && r.usesFragments && r.isAcyclic

end Request

end ContentGraph.GraphQL
