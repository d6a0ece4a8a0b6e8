import ContentGraph.GraphQL.Surface
import ContentGraph.Lenient

/-!
# Given values

The values that a request gives, as literals or as values of variables, and what they stand
for at a type. A value that is no list stands for a list of one at a type of lists. A field
of an input that is not given has its default, or is absent.
-/

namespace ContentGraph.GraphQL

/-! ### Scalars -/

/-- The value of a scalar type that a literal stands for. -/
def Scalar.ofLiteral? : Scalar → Literal → Option Json
  | .text, .text s _ => some (.text s)
  | .bool, .bool b => some (.bool b)
  | .number, .integer numeral => (numeral? numeral.toList).map .number
  | .number, .decimal numeral => (numeral? numeral.toList).map .number
  | _, _ => none

/-- The value of a scalar type that a given value stands for. An integer stands for the
number that it is, and not for one near it. -/
def Scalar.ofJson? : Scalar → Json → Option Json
  | .text, .text s => some (.text s)
  | .bool, .bool b => some (.bool b)
  | .number, .integer n => ((Binary.ofInt? n).filter fun x => x.toInt? = some n).map .number
  | .number, .number x => if x.isFinite then some (.number x) else none
  | .json, v => some v
  | _, _ => none

/-- A value in as many lists as a type has. -/
def TypeRef.wrap : TypeRef → Json → Json
  | .named _, v => v
  | .list item, v => .list [item.wrap v]
  | .nonNull type, v => type.wrap v

/-- The value null, where a type has it. -/
def TypeRef.null? (t : TypeRef) : Option Json := if t.isNonNull then none else some .null

/-! ### Inputs -/

/-- How the values given for fields are taken at the types of the fields. A field whose value
is that of an absent variable is not given. -/
abbrev GivenFields := List (String × Option (TypeRef → Option Json))

/-- The members of an input, in the order of its fields. -/
def inputMembers (given : GivenFields) : List (String × InputField) → Option (List (String × Json))
  | [] => some []
  | (name, f) :: rest =>
    match (Table.find name given).join with
    | some at_ => do
      let v ← at_ f.type
      return (name, v) :: (← inputMembers given rest)
    | none =>
      match f.default with
      | some v => do return (name, v) :: (← inputMembers given rest)
      | none => if f.type.isNonNull then none else inputMembers given rest

/-! ### Literals -/

/-- The values of variables. -/
abbrev Values := Table Json

/-- Whether a literal is a variable without value. -/
def Literal.isAbsent (values : Values) : Literal → Bool
  | .variable name => !values.contains name
  | _ => false

mutual

/-- What a literal stands for at a type. -/
def Literal.value? (s : Surface) (values : Values) : Literal → TypeRef → Option Json
  | .variable name, t =>
    match values.get? name with
    | some .null => t.null?
    | found => found
  | .null, t => t.null?
  | .list items, t => t.item?.bind fun item => (itemValues? s values items item).map .list
  | .object fields, t =>
    (s.input? t.name).bind fun defined =>
      (inputMembers (givenFields s values fields) defined).map fun ms => t.wrap (.object ms)
  | literal, t => (s.scalar? t.name).bind fun scalar => (scalar.ofLiteral? literal).map t.wrap

/-- What the items of a list stand for at a type. An absent variable stands for null. -/
def itemValues? (s : Surface) (values : Values) : List Literal → TypeRef → Option (List Json)
  | [], _ => some []
  | literal :: rest, t => do
    let v ← if literal.isAbsent values then t.null? else literal.value? s values t
    return v :: (← itemValues? s values rest t)

/-- How the literals of fields are taken. -/
def givenFields (s : Surface) (values : Values) : List (String × Literal) → GivenFields
  | [] => []
  | (name, literal) :: rest =>
    (name, if literal.isAbsent values then none else some (literal.value? s values))
      :: givenFields s values rest

end

mutual

/-- Whether a literal is one for a place of a type, whatever the values of its variables. -/
def Literal.fits (s : Surface) : Literal → TypeRef → Bool
  | .variable _, _ => true
  | .null, t => !t.isNonNull
  | .list items, t =>
    match t.item? with
    | some item => itemsFit s items item
    | none => false
  | .object fields, t =>
    match s.input? t.name with
    | some defined =>
      fieldsFit s fields defined &&
        defined.all fun d => !d.2.isRequired || fields.any fun f => f.1 = d.1
    | none => false
  | literal, t => ((s.scalar? t.name).bind fun scalar => scalar.ofLiteral? literal).isSome

/-- Whether all literals of a list are ones for a place of a type. -/
def itemsFit (s : Surface) : List Literal → TypeRef → Bool
  | [], _ => true
  | literal :: rest, t => literal.fits s t && itemsFit s rest t

/-- Whether all literals of fields are ones for the fields of an input. -/
def fieldsFit (s : Surface) : List (String × Literal) → List (String × InputField) → Bool
  | [], _ => true
  | (name, literal) :: rest, defined =>
    (match Table.find name defined with
      | some f => literal.fits s f.type
      | none => false) && fieldsFit s rest defined

end

mutual

/-- Whether no object in a literal has a field twice. -/
def Literal.hasDistinctFields : Literal → Bool
  | .list items => itemsHaveDistinctFields items
  | .object fields => (fields.map Prod.fst).Nodup && fieldsHaveDistinctFields fields
  | _ => true

/-- Whether no object in several literals has a field twice. -/
def itemsHaveDistinctFields : List Literal → Bool
  | [] => true
  | literal :: rest => literal.hasDistinctFields && itemsHaveDistinctFields rest

/-- Whether no object in the literals of fields has a field twice. -/
def fieldsHaveDistinctFields : List (String × Literal) → Bool
  | [] => true
  | (_, literal) :: rest => literal.hasDistinctFields && fieldsHaveDistinctFields rest

end

/-- Where a variable is used: its name, and the type of the place, where that is known. -/
abbrev Usage := String × Option TypeRef

mutual

/-- The usages of variables in a literal. -/
def Literal.usages (s : Surface) : Literal → Option TypeRef → List Usage
  | .variable name, t? => [(name, t?)]
  | .list items, t? => usagesOfItems s items (t?.map fun t => t.item?.getD t.nullable)
  | .object fields, t? => usagesOfFields s fields ((t?.bind fun t => s.input? t.name).getD [])
  | _, _ => []

/-- The usages of variables in the literals of a list. -/
def usagesOfItems (s : Surface) : List Literal → Option TypeRef → List Usage
  | [], _ => []
  | literal :: rest, t? => literal.usages s t? ++ usagesOfItems s rest t?

/-- The usages of variables in the literals of fields. -/
def usagesOfFields (s : Surface) : List (String × Literal) → List (String × InputField) → List Usage
  | [], _ => []
  | (name, literal) :: rest, defined =>
    literal.usages s ((Table.find name defined).map InputField.type)
      ++ usagesOfFields s rest defined

end

/-! ### Variables -/

mutual

/-- What a given value stands for at a type. -/
def coerce? (s : Surface) : Json → TypeRef → Option Json
  | .null, t => t.null?
  | .list items, t => t.item?.bind fun item => (coerceItems? s items item).map .list
  | .object ms, t =>
    (s.input? t.name).bind fun defined =>
      if ms.all fun m => defined.any fun d => d.1 = m.1 then
        (inputMembers (coercions s ms) defined).map fun ms => t.wrap (.object ms)
      else none
  | v, t => (s.scalar? t.name).bind fun scalar => (scalar.ofJson? v).map t.wrap

/-- What the items of a given list stand for at a type. -/
def coerceItems? (s : Surface) : List Json → TypeRef → Option (List Json)
  | [], _ => some []
  | v :: rest, t => do return (← coerce? s v t) :: (← coerceItems? s rest t)

/-- How the members of a given object are taken. -/
def coercions (s : Surface) : List (String × Json) → GivenFields
  | [] => []
  | (name, v) :: rest => (name, some (coerce? s v)) :: coercions s rest

end

/-- Whether a given value is nested no deeper than a bound, where there is one. -/
def isTaken (nesting : Option Nat) (v : Json) : Bool := nesting.all fun bound => v.depth ≤ bound

/-- The values of variables with that of one more: the given one, or its default, or none
where it may be null. -/
def addVariable (s : Surface) (nesting : Option Nat) (given : List (String × Json)) (values : Values)
    (v : Variable) : Option Values :=
  match Table.find v.name given, v.default with
  | some g, _ =>
    if isTaken nesting g then (coerce? s g v.type).map (values.insert v.name) else none
  | none, some literal =>
    match literal.value? s .empty v.type with
    | some d => some (values.insert v.name d)
    | none => some values
  | none, none => if v.type.isNonNull then none else some values

/-- The values of the variables of an operation. -/
def variableValues? (s : Surface) (nesting : Option Nat) (given : List (String × Json))
    (vs : List Variable) : Option Values :=
  vs.foldlM (addVariable s nesting given) .empty

end ContentGraph.GraphQL
