import ContentGraph.Issue
import ContentGraph.Resource.Basic
import ContentGraph.Text.Name

/-!
# Failures

The causes for which an operation over a content store fails, with their codes and
messages. A `Failure` is a cause of this library's own. A `Fault` is the outcome of an
operation that gave no value: such a cause, or a value that no model of the domain accepts.
-/

namespace ContentGraph

/-- Why an operation failed. -/
inductive Failure where
  /-- A cause that a store gives of its own. -/
  | raised (message : String)
  /-- An address could not be fetched. -/
  | fetchFailed (address reason : String)
  /-- What an address holds is no resource. -/
  | malformed (address : String) (issues : List Issue)
  /-- An address holds another kind of resource. -/
  | unexpectedResource (address expected actual : String)
  /-- The expansion of an alias met an address it is expanding. -/
  | aliasCycle (chain : List String)
  /-- A field of another kind was taken for a node field. -/
  | notNodeField (key : String) (kind : Kind)
  /-- A node definition names no schemas. -/
  | noSchemas (key : String)
  /-- The schemas of a type define no key. -/
  | noFields (name : String) (addresses : List String)
  /-- A key is defined in two different ways. -/
  | conflict (key first second : String)
  /-- A key is no name for a field of a query. -/
  | fieldName (key : String) (addresses : List String) (problem : NameProblem)
  /-- A key that no schema defines. -/
  | unknownKey (key : String) (issues : List Issue)
  /-- A value or an element of the wrong kind. -/
  | wrongType (key expected actual : String) (issues : List Issue)
  /-- A key that must stand once stands `count` times. -/
  | cardinality (key : String) (count : Nat) (issues : List Issue)
  /-- A resource could not be stored. -/
  | storeFailed (kind reason : String)
  /-- An element was read as another kind. -/
  | elementKind (key requested actual : String)

namespace Failure

/-- The code by which a caller tells causes apart. -/
def code : Failure → String
  | .raised _ => "OMG_ERROR"
  | .fetchFailed _ _ => "FETCH_FAILED"
  | .malformed _ _ => "MALFORMED_RESOURCE"
  | .unexpectedResource _ _ _ => "UNEXPECTED_RESOURCE"
  | .aliasCycle _ => "ALIAS_CYCLE"
  | .notNodeField _ _ => "COMPILATION_ERROR"
  | .noSchemas _ => "COMPILATION_ERROR"
  | .noFields _ _ => "COMPILATION_ERROR"
  | .conflict _ _ _ => "SCHEMA_CONFLICT"
  | .fieldName _ _ _ => "INVALID_FIELD_NAME"
  | .unknownKey _ _ => "UNKNOWN_KEY"
  | .wrongType _ _ _ _ => "WRONG_ELEMENT_TYPE"
  | .cardinality _ _ _ => "CARDINALITY"
  | .storeFailed _ _ => "STORE_FAILED"
  | .elementKind _ _ _ => "ELEMENT_KIND"

/-- The message of a cause. That of a malformed resource stops before its issues. -/
def message : Failure → String
  | .raised message => message
  | .fetchFailed address reason => "Failed to fetch '" ++ address ++ "': " ++ reason
  | .malformed address _ => "Resource at '" ++ address ++ "' is malformed"
  | .unexpectedResource address expected actual =>
    "Resource at '" ++ address ++ "' is a " ++ actual ++ ", expected a " ++ expected
  | .aliasCycle chain => "Alias cycle detected: " ++ " -> ".intercalate chain
  | .notNodeField key kind =>
    "Field '" ++ key ++ "' is a " ++ kind.name ++ " field, not a compiled node field"
  | .noSchemas key => "Node field '" ++ key ++ "' does not name any schemas"
  | .noFields name addresses =>
    "Type '" ++ name ++ "' has no fields; schemas " ++ quotedList addresses ++ " define no elements"
  | .conflict key first second =>
    "Key '" ++ key ++ "' is defined differently by '" ++ first ++ "' and '" ++ second ++ "'"
  | .fieldName key addresses problem =>
    "Key '" ++ key ++ "' of schemas " ++ quotedList addresses
      ++ " is not a valid GraphQL field name: "
      ++ problem.message key
  | .unknownKey key _ => "Key '" ++ key ++ "' is not defined by any of the schemas"
  | .wrongType key expected actual _ =>
    "Invalid value for '" ++ key ++ "': expected " ++ expected ++ ", got " ++ actual
  | .cardinality key count _ =>
    if count = 0 then "'" ++ key ++ "' does not exist, but the schema requires exactly one"
    else
      "'" ++ key ++ "' is marked as not multiple in the schema, yet the document contains "
        ++ toString count ++ " instances"
  | .storeFailed kind reason => "Failed to store " ++ kind ++ ": " ++ reason
  | .elementKind key requested actual =>
    ".as_" ++ requested ++ "() failed: '" ++ key ++ "' resolved to a " ++ actual

end Failure

/-- Why an operation gave no value. -/
inductive Fault where
  /-- A cause of this library's own. -/
  | failure (failure : Failure)
  /-- A value that a model refuses. -/
  | invalid (issues : List Issue)
  /-- A value without a key that its type has. -/
  | absentKey (key : String)
  /-- A value that cannot be read as its type asks. -/
  | wrongShape

/-- An outcome whose only faults are failures. -/
def Except.ofFailure {α : Type} : Except Failure α → Except Fault α
  | .ok a => .ok a
  | .error f => .error (.failure f)

/-- The outcome of a reading. -/
def Checked.toExcept {α : Type} : Checked α → Except Fault α
  | .ok a => .ok a
  | .refused first more => .error (.invalid (first :: more))

end ContentGraph
