import ContentGraph.GraphQL.Input
import ContentGraph.GraphQL.Selecting

/-!
# What is asked

The selections of an operation, with the values of its variables, ask for some fields of each
object: those whose directives do not leave them out, once for each response name, in the
order in which the names are first met. Fields that share a response name are asked for
together. A fragment is looked at once for each object. What is asked of the objects under a
field is found out where there are some.
-/

namespace ContentGraph.GraphQL

mutual

/-- What is asked of an object. -/
inductive Asked where
  /-- Nothing that can be said: a condition has no value. -/
  | unclear
  /-- Its fields. -/
  | fields (fs : List AskedField)

/-- A field that is asked of an object. -/
inductive AskedField where
  /-- The name under which it is answered, its own name, what is given for it, and what is
  asked of the objects under it. -/
  | mk (response name : String) (arguments : List Argument) (below : Unit → Asked)

end

/-- The name under which a field is answered. -/
def AskedField.response : AskedField → String
  | .mk response _ _ _ => response

/-- The truth value that a literal stands for. -/
def Literal.truth? (values : Values) : Literal → Option Bool
  | .bool b => some b
  | .variable name =>
    match values.get? name with
    | some (.bool b) => some b
    | _ => none
  | _ => none

/-- The condition of the directive with a name, or what stands for an absent one. -/
def condition? (values : Values) (ds : List Directive) (name : String) (absent : Bool) :
    Option Bool :=
  match ds.find? fun d => d.name = name with
  | none => some absent
  | some d => (argument? d.arguments conditionName).bind (Literal.truth? values)

/-- Whether directives leave a selection in. -/
def isIncluded? (values : Values) (ds : List Directive) : Option Bool := do
  if ← condition? values ds "skip" false then return false
  condition? values ds "include" true

/-- Fields that share a response name: the first of them, and the selections below all. -/
structure FieldGroup where
  /-- The name. -/
  name : String
  /-- What is given. -/
  arguments : List Argument
  /-- What is selected of the objects under the fields. -/
  below : List Selection

/-- The fields that are asked for so far. -/
structure Collected where
  /-- The fragments that have been looked at. -/
  fragments : List String
  /-- The fields by their response names. -/
  groups : Table FieldGroup

namespace Collected

/-- Nothing so far. -/
def empty : Collected := ⟨[], .empty⟩

/-- One more field, with what is selected of the objects under it. -/
def add (c : Collected) (f : FieldCall) (below : List Selection) : Collected :=
  let group := match c.groups.get? f.response with
    | some first => { first with below := first.below ++ below }
    | none => ⟨f.name, f.arguments, below⟩
  { c with groups := c.groups.insert f.response group }

end Collected

/-- How what is asked for grows with a fragment. -/
abbrev FragmentReading := String → Collected → Option Collected

mutual

/-- What is asked for with one more selection, where fragments are read by `fragment`. -/
def Selection.collect (values : Values) (fragment : FragmentReading) :
    Selection → Collected → Option Collected
  | .leaf f, c => do return if ← isIncluded? values f.directives then c.add f [] else c
  | .branch f selections, c => do
    return if ← isIncluded? values f.directives then c.add f selections else c
  | .spread name directives, c =>
    if c.fragments.contains name then some c
    else do if ← isIncluded? values directives then fragment name c else return c
  | .inline _ directives selections, c => do
    if ← isIncluded? values directives then collectAll values fragment selections c else return c

/-- What is asked for with more selections. -/
def collectAll (values : Values) (fragment : FragmentReading) :
    List Selection → Collected → Option Collected
  | [], c => some c
  | s :: rest, c => do collectAll values fragment rest (← s.collect values fragment c)

end

/-- What is asked for with a fragment of a request, where at most `depth` of them are spread
in each other. -/
def Request.collectFragment (r : Request) (values : Values) : Nat → FragmentReading
  | 0, _, c => some c
  | depth + 1, name, c =>
    collectAll values (r.collectFragment values depth)
      (((r.fragment? name).map Fragment.selections).getD [])
      { c with fragments := name :: c.fragments }

/-- What selections of a request ask for. Every fragment is looked at once at most, so that
their number bounds how many are spread in each other. -/
def Request.collect (r : Request) (values : Values) (selections : List Selection) :
    Option Collected :=
  collectAll values (r.collectFragment values r.fragments.length) selections .empty

/-- What selections of a request ask of an object, down to a depth. -/
def Request.askWithin (r : Request) (values : Values) : Nat → List Selection → Asked
  | 0, _ => .fields []
  | depth + 1, selections =>
    match r.collect values selections with
    | none => .unclear
    | some c => .fields (c.groups.entries.map fun (response, g) =>
        .mk response g.name g.arguments fun _ => r.askWithin values depth g.below)

/-- What selections of a request ask of an object. The way to an object leads through
different selections, so that their number bounds how deep it lies. -/
def Request.ask (r : Request) (values : Values) (selections : List Selection) : Asked :=
  r.askWithin values (r.size + 1) selections

end ContentGraph.GraphQL
