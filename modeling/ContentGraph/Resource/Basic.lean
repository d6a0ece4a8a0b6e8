import ContentGraph.Table
import ContentGraph.Number.Binary

/-!
# Documents, schemas and aliases

What a content store holds. A document is a flat list of elements, each a key with a text,
a number, a file or a reference to another document. A schema says for each key which kind
its elements have and whether they may repeat. An alias names a set of schema or alias
addresses. `Definition.equivalent` says when two definitions describe one shape.
-/

namespace ContentGraph

/-- The kinds of content that stand in a document itself. -/
inductive ValueKind where
  /-- A text. -/
  | string
  /-- A number. -/
  | number
  /-- A file stored elsewhere. -/
  | file
  deriving DecidableEq

/-- The kinds of elements and definitions. -/
inductive Kind where
  /-- Content of the document itself. -/
  | value (kind : ValueKind)
  /-- A reference to another document. -/
  | node
  deriving DecidableEq

/-- The written name of a kind. -/
def Kind.name : Kind → String
  | .value .string => "string"
  | .value .number => "number"
  | .value .file => "file"
  | .node => "node"

/-- An element key, which has at least one character. -/
structure Key where
  /-- The characters of the key. -/
  text : String
  /-- There is at least one. -/
  nonempty : text ≠ ""
  deriving DecidableEq

/-- The key with these characters. -/
def Key.ofString? (s : String) : Option Key := if h : s ≠ "" then some ⟨s, h⟩ else none

/-- What an element holds. -/
inductive Content where
  /-- A text. -/
  | string (value : String)
  /-- A number. -/
  | number (value : Binary)
  /-- The media type and the location of a file. -/
  | file (contentType uri : String)
  /-- The address of a document. -/
  | node (uri : String)
  deriving DecidableEq

/-- The kind of what an element holds. -/
def Content.kind : Content → Kind
  | .string _ => .value .string
  | .number _ => .value .number
  | .file _ _ => .value .file
  | .node _ => .node

/-- One entry of a document. -/
structure Element where
  /-- The key it stands under. -/
  key : Key
  /-- What it holds. -/
  content : Content
  deriving DecidableEq

/-- The kind of an element. -/
def Element.kind (e : Element) : Kind := e.content.kind

/-- What a schema says of a key. -/
inductive Definition where
  /-- Content of the document itself. -/
  | value (kind : ValueKind) (multiple : Bool)
  /-- References to documents that satisfy the named schemas. -/
  | node (multiple : Bool) (schemas : List String)
  deriving DecidableEq

namespace Definition

/-- The kind of the elements. -/
def kind : Definition → Kind
  | .value k _ => .value k
  | .node _ _ => .node

/-- Whether the key may stand any number of times. -/
def multiple : Definition → Bool
  | .value _ m => m
  | .node m _ => m

/-- Whether two definitions describe one shape: the schema lists of node definitions count
as sets. -/
def equivalent : Definition → Definition → Bool
  | .value k m, .value k' m' => k = k' && m = m'
  | .node m ss, .node m' ss' => m = m' && ss.all (ss'.contains ·) && ss'.all (ss.contains ·)
  | _, _ => false

end Definition

/-- The format version that stands for an absent one. -/
def defaultVersion : String := "0.1.0"

/-- A document. -/
structure Document where
  /-- The format version. -/
  version : String
  /-- The schemas and aliases it was built against. -/
  schemas : List String
  /-- The elements in order. -/
  elements : List Element
  deriving DecidableEq

/-- The elements of a document under a key, in order. -/
def Document.elementsFor (d : Document) (key : String) : List Element :=
  d.elements.filter fun e => e.key.text = key

/-- A schema. -/
structure Schema where
  /-- The format version. -/
  version : String
  /-- The name, from which type names are made. -/
  name : String
  /-- The definition of each key. -/
  elements : Table Definition
  deriving DecidableEq

/-- An alias. -/
structure Alias where
  /-- The format version. -/
  version : String
  /-- The name. -/
  name : String
  /-- The schemas and aliases it stands for. -/
  schemas : List String
  deriving DecidableEq

/-- What a content store holds. -/
inductive Resource where
  /-- A document. -/
  | document (d : Document)
  /-- A schema. -/
  | schema (s : Schema)
  /-- An alias. -/
  | alias (a : Alias)
  deriving DecidableEq

/-- The written name of a resource's kind. -/
def Resource.kindName : Resource → String
  | .document _ => "document"
  | .schema _ => "schema"
  | .alias _ => "alias"

end ContentGraph
