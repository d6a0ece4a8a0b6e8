import ContentGraph.GraphQL.Fragments
import ContentGraph.GraphQL.Selecting

/-!
# Variables of operations

An operation has a variable for each name it uses and uses each variable it has. A variable
may be used where its values are values of the place. Where the place excludes null and the
type of the variable does not, the variable needs a default.
-/

namespace ContentGraph.GraphQL

/-- Whether values of the first type are values of the second. -/
def TypeRef.isWithin : TypeRef → TypeRef → Bool
  | .nonNull a, .nonNull b => a.isWithin b
  | .nonNull a, b => a.isWithin b
  | _, .nonNull _ => false
  | .list a, .list b => a.isWithin b
  | .named a, .named b => a = b
  | _, _ => false

namespace Variable

/-- Whether a variable has a default other than null. -/
def hasValue (v : Variable) : Bool :=
  match v.default with
  | none => false
  | some .null => false
  | some _ => true

/-- Whether a variable may be used in a place of a type. -/
def suits (v : Variable) (place : TypeRef) : Bool :=
  if place.isNonNull && !v.type.isNonNull then v.hasValue && v.type.isWithin place.nullable
  else v.type.isWithin place

/-- Whether a variable is of a known type of inputs, and its default a value of that type. -/
def fits (s : Surface) (v : Variable) : Bool :=
  v.directives.isEmpty && ((s.type? v.type.name).map NamedType.isInput).getD false
    && v.default.all fun literal => literal.fits s v.type && literal.hasDistinctFields

end Variable

/-- Whether the usages of variables are usages of some variables, and of each of them, in
places that they suit. -/
def usagesFit (vs : List Variable) (usages : List Usage) : Bool :=
  (vs.all fun v => usages.any fun u => u.1 = v.name)
    && usages.all fun u => vs.any fun v => v.name = u.1 && u.2.all v.suits

/-- The name of the type of which an operation selects, where such operations are served. -/
def OperationKind.rootName : OperationKind → Option String
  | .query => some "Query"
  | .mutation => some "Mutation"
  | .subscription => none

/-- The usages of variables in an operation of a request and in the fragments that are
reached from it. -/
def Request.usages (r : Request) (s : Surface) (o : Operation) (rootName : String) : List Usage :=
  usagesOf s o.selections rootName
    ++ ((r.reached (spreadsOf o.selections)).filterMap r.fragment?).flatMap fun f =>
      usagesOf s f.selections f.condition

/-- Whether an operation of a request is one of a surface. -/
def Operation.fits (s : Surface) (r : Request) (o : Operation) : Bool :=
  o.directives.isEmpty && (o.parameters.map Variable.name).Nodup
    && o.parameters.all (Variable.fits s)
    && o.kind.rootName.any fun rootName =>
      selectionsFit s r o.selections rootName && usagesFit o.parameters (r.usages s o rootName)

end ContentGraph.GraphQL
