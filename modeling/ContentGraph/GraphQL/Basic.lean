/-!
# Requests

A request of the query language, as it is written: operations and fragments, which select
fields of objects. A fragment gives a name to selections and the type they are for; it is
spread where they are wanted. A field may say what is selected of the objects under it, be
it nothing at all.
-/

namespace ContentGraph.GraphQL

/-- A type as it is referred to. -/
inductive TypeRef where
  /-- A type with a name, or null. -/
  | named (name : String)
  /-- A list of items of a type, or null. -/
  | list (item : TypeRef)
  /-- A type without null. -/
  | nonNull (type : TypeRef)
  deriving DecidableEq

namespace TypeRef

/-- The written form. -/
def text : TypeRef → String
  | .named name => name
  | .list item => "[" ++ item.text ++ "]"
  | .nonNull type => type.text ++ "!"

/-- The name within all lists. -/
def name : TypeRef → String
  | .named name => name
  | .list item => item.name
  | .nonNull type => type.name

/-- Whether null is excluded. -/
def isNonNull : TypeRef → Bool
  | .nonNull _ => true
  | _ => false

/-- The type with null. -/
def nullable : TypeRef → TypeRef
  | .nonNull type => type
  | type => type

/-- The type of the items of a list. -/
def item? (type : TypeRef) : Option TypeRef :=
  match type.nullable with
  | .list item => some item
  | _ => none

end TypeRef

/-- A value as it is written. -/
inductive Literal where
  /-- The value of a variable. -/
  | variable (name : String)
  /-- A numeral of digits alone. -/
  | integer (numeral : String)
  /-- A numeral with a fraction or an exponent. -/
  | decimal (numeral : String)
  /-- A text; `block` says whether it stands between three quotes. -/
  | text (s : String) (block : Bool)
  /-- A truth value. -/
  | bool (b : Bool)
  /-- The value null. -/
  | null
  /-- Any other word. -/
  | word (name : String)
  /-- A list. -/
  | list (items : List Literal)
  /-- Named values. -/
  | object (fields : List (String × Literal))

/-- A value with the name of what it is given for. -/
structure Argument where
  /-- The name. -/
  name : String
  /-- The value. -/
  value : Literal

/-- The value that is given under a name; of several, the last. -/
def argument? (arguments : List Argument) (name : String) : Option Literal :=
  (arguments.reverse.find? fun a => a.name = name).map Argument.value

/-- A remark on a part of a request. -/
structure Directive where
  /-- What it is. -/
  name : String
  /-- The values given for it. -/
  arguments : List Argument

/-- A field as it is asked for. -/
structure FieldCall where
  /-- The name under which it is answered, where that is not its own. -/
  alias? : Option String
  /-- The name. -/
  name : String
  /-- What is given for it. -/
  arguments : List Argument
  /-- The remarks on it. -/
  directives : List Directive

/-- The name under which a field is answered. -/
def FieldCall.response (f : FieldCall) : String := f.alias?.getD f.name

/-- What is selected of an object. -/
inductive Selection where
  /-- A field without selections of its own. -/
  | leaf (field : FieldCall)
  /-- A field, with what is selected of the objects under it. -/
  | branch (field : FieldCall) (selections : List Selection)
  /-- What a fragment selects. -/
  | spread (fragment : String) (directives : List Directive)
  /-- Selections for objects of a type. -/
  | inline (condition : Option String) (directives : List Directive) (selections : List Selection)

/-- A variable of an operation. -/
structure Variable where
  /-- The name. -/
  name : String
  /-- The type of its values. -/
  type : TypeRef
  /-- The value of a variable that is given none. -/
  default : Option Literal
  /-- The remarks on it. -/
  directives : List Directive

/-- The kinds of operations. -/
inductive OperationKind where
  /-- Only reads. -/
  | query
  /-- Reads and writes, one field after the other. -/
  | mutation
  /-- Answers more than once. -/
  | subscription
  deriving DecidableEq

/-- An operation. -/
structure Operation where
  /-- The kind. -/
  kind : OperationKind
  /-- The name. -/
  name : Option String
  /-- The variables in order. -/
  parameters : List Variable
  /-- The remarks on it. -/
  directives : List Directive
  /-- What is selected. -/
  selections : List Selection

/-- Selections with a name. -/
structure Fragment where
  /-- The name. -/
  name : String
  /-- The type of the objects they are for. -/
  condition : String
  /-- The remarks on it. -/
  directives : List Directive
  /-- What is selected. -/
  selections : List Selection

/-- A part of a request. -/
inductive Part where
  /-- An operation. -/
  | operation (o : Operation)
  /-- A fragment. -/
  | fragment (f : Fragment)
  /-- The definition of a type, which no request may hold. -/
  | type

/-- A request. -/
structure Request where
  /-- The parts in order. -/
  parts : List Part

namespace Request

/-- The operations in order. -/
def operations (r : Request) : List Operation :=
  r.parts.filterMap fun p => match p with | .operation o => some o | _ => none

/-- The fragments in order. -/
def fragments (r : Request) : List Fragment :=
  r.parts.filterMap fun p => match p with | .fragment f => some f | _ => none

/-- The fragment with a name. -/
def fragment? (r : Request) (name : String) : Option Fragment :=
  r.fragments.find? fun f => f.name = name

/-- The selections of each part. -/
def selections (r : Request) : List (List Selection) :=
  r.parts.map fun p =>
    match p with
    | .operation o => o.selections
    | .fragment f => f.selections
    | .type => []

end Request

mutual

/-- How many selections a selection holds, itself with them. -/
def Selection.size : Selection → Nat
  | .leaf _ => 1
  | .spread _ _ => 1
  | .branch _ selections => countSelections selections + 1
  | .inline _ _ selections => countSelections selections + 1

/-- How many selections several selections hold. -/
def countSelections : List Selection → Nat
  | [] => 0
  | s :: rest => s.size + countSelections rest

end

/-- How many selections a request holds. No way through its selections and its fragments is
longer, where no fragment leads back to itself. -/
def Request.size (r : Request) : Nat := countSelections r.selections.flatten

end ContentGraph.GraphQL
