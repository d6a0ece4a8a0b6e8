import ContentGraph.GraphQL.Basic
import ContentGraph.GraphQL.FieldName
import ContentGraph.Settings.Basic
import ContentGraph.TypeGraph.Compile

/-!
# Surfaces

What a request can ask for and give: the types of objects and inputs, with their fields. A
surface that serves no schemas answers documents as they are and creates schemas and aliases.
One that serves a compiled graph has an object type for each of its types, by which documents
are read, and an input type, by which they are given. A type takes its name the first time
that it is met; a later type with a taken name is not served.
-/

namespace ContentGraph.GraphQL

/-- The types of values without parts. -/
inductive Scalar where
  /-- Texts. -/
  | text
  /-- Finite 64-bit numbers. -/
  | number
  /-- Truth values. -/
  | bool
  /-- Values of any form. -/
  | json
  deriving DecidableEq

/-- A field of an input, or an argument. -/
structure InputField where
  /-- The type. -/
  type : TypeRef
  /-- The value that stands for an absent one. -/
  default : Option Json

/-- Whether a value has to be given. -/
def InputField.isRequired (f : InputField) : Bool := f.type.isNonNull && f.default.isNone

/-- A field of an object. -/
structure OutputField where
  /-- The type. -/
  type : TypeRef
  /-- What can be given for it. -/
  arguments : List (String × InputField)

/-- What a name of a type stands for. -/
inductive NamedType where
  /-- Values without parts. -/
  | scalar (s : Scalar)
  /-- Objects, which are asked for. -/
  | object (fields : List (String × OutputField))
  /-- Inputs, which are given. -/
  | input (fields : List (String × InputField))

namespace NamedType

/-- Whether values of the type can be given. -/
def isInput : NamedType → Bool
  | .object _ => false
  | _ => true

/-- The names of the fields. -/
def fieldNames : NamedType → List String
  | .scalar _ => []
  | .object fields => fields.map Prod.fst
  | .input fields => fields.map Prod.fst

end NamedType

/-! ### The types of every surface -/

/-- Texts or null. -/
def textType : TypeRef := .named "String"

/-- A list of texts; neither it nor an item is null. -/
def textsType : TypeRef := .nonNull (.list (.nonNull textType))

/-- A field that has to be given. -/
def neededText : InputField := ⟨.nonNull textType, none⟩

/-- A list of inputs that is empty where it is not given. -/
def inputsField (name : String) : InputField := ⟨.list (.nonNull (.named name)), some (.list [])⟩

/-- The input that describes a key, with more fields. -/
def keyInput (more : List (String × InputField)) : NamedType :=
  .input ([("key", neededText), ("multiple", ⟨.named "Boolean", some (.bool false)⟩)] ++ more)

/-- The media type and the location of a file. -/
def fileFields : List String := ["contentType", "uri"]

/-- The object of a file. -/
def fileObject : NamedType := .object (fileFields.map fun name => (name, ⟨textType, []⟩))

/-- The input of a file. -/
def fileInput : NamedType := .input (fileFields.map fun name => (name, ⟨textType, none⟩))

/-- The types that every surface has. -/
def commonTypes : List (String × NamedType) :=
  [("String", .scalar .text), ("Boolean", .scalar .bool),
   ("CreateResponse", .object [("key", ⟨textType, []⟩)]),
   ("StringSchemaInput", keyInput []), ("NumberSchemaInput", keyInput []),
   ("FileSchemaInput", keyInput []),
   ("NodeSchemaInput", keyInput [("schemas", ⟨textsType, none⟩)]),
   ("SchemaInput", .input [("name", neededText), ("strings", inputsField "StringSchemaInput"),
     ("numbers", inputsField "NumberSchemaInput"), ("files", inputsField "FileSchemaInput"),
     ("nodes", inputsField "NodeSchemaInput")]),
   ("AliasInput", .input [("name", neededText), ("schemas", ⟨textsType, none⟩)])]

/-- The object through which documents are read, where a document is of some type. -/
def queryObject (document : String) : NamedType :=
  .object [("get", ⟨.named document, [("key", neededText)]⟩)]

/-- A field that creates something from one input. -/
def creates (argument input : String) : OutputField :=
  ⟨.named "CreateResponse", [(argument, ⟨.nonNull (.named input), none⟩)]⟩

/-- The object through which resources are created. -/
def mutationObject (more : List (String × OutputField)) : NamedType :=
  .object ([("createSchema", creates "schema" "SchemaInput"),
    ("createAlias", creates "alias" "AliasInput")] ++ more)

/-! ### The types of a graph -/

/-- The name of the input type of a document type. -/
def inputName (t : NodeType) : String := t.name ++ "CreateInput"

/-- The name of the input type of the root. -/
def rootInputName : String := "CreateDocumentInput"

/-- The types with one more, unless its name is taken. -/
def register (nameOf : NodeType → String) (taken : Table NodeType) (t : NodeType) :
    Table NodeType :=
  if taken.contains (nameOf t) then taken else taken.insert (nameOf t) t

/-- The types that bear a name, where those whose names are `pending` are looked at in order
and each leads to the types of its node fields. `remaining` are the names not looked at yet. -/
def gather (types : Catalogue) (nameOf : NodeType → String) (remaining pending : List String)
    (taken : Table NodeType) : Table NodeType :=
  match _h : pending.find? remaining.contains with
  | none => taken
  | some name =>
    let targets := ((taken.get? name).map fun t => t.targets.filterMap (Table.get? types)).getD []
    gather types nameOf (remaining.erase name) (targets.map nameOf ++ pending)
      (targets.foldl (register nameOf) taken)
termination_by remaining.length
decreasing_by exact length_erase_lt_of_find? _h

/-- The types that bear a name from the root on, which bears `rootName`. -/
def named (g : TypeGraph) (nameOf : NodeType → String) (rootName : String) : Table NodeType :=
  gather g.types nameOf (rootName :: g.types.values.map nameOf).eraseDups [rootName]
    (Table.empty.insert rootName g.rootType)

/-- The type of what stands under a field, from the names of files and of document types. -/
def fieldType (types : Catalogue) (file : String) (nameOf : NodeType → String) (f : Field) :
    TypeRef :=
  let name := match f.shape with
    | .value .string => "String"
    | .value .number => "Float"
    | .value .file => file
    | .node _ target => ((Table.get? types target).map nameOf).getD ""
  if f.multiple then .list (.named name) else .named name

/-- The object type of a document type. -/
def documentObject (types : Catalogue) (t : NodeType) : NamedType :=
  .object (t.fields.entries.map fun e => (e.1, ⟨fieldType types "File" NodeType.name e.2, []⟩))

/-- The input type of a document type. -/
def documentInput (types : Catalogue) (t : NodeType) : NamedType :=
  .input (t.fields.entries.map fun e => (e.1, ⟨fieldType types "FileInput" inputName e.2, none⟩))

/-- Whether some type has a field of a kind. -/
def hasKind (kind : ValueKind) (ts : Table NodeType) : Bool :=
  ts.values.any fun t => t.fields.values.any fun f => f.kind = .value kind

/-! ### Surfaces -/

/-- What requests can ask for and give. -/
structure Surface where
  /-- The graph that is served. -/
  graph : Option TypeGraph
  /-- The document types by the names under which they are served. -/
  objects : Table NodeType
  /-- All types by their names. -/
  types : Table NamedType

namespace Surface

/-- The surface that serves no schemas. -/
def plain : Surface :=
  ⟨none, .empty, .ofList (commonTypes ++ [("JSON", .scalar .json), ("Query", queryObject "JSON"),
    ("Mutation", mutationObject [])])⟩

/-- The surface that serves a graph. -/
def ofGraph (g : TypeGraph) : Surface :=
  let objects := named g NodeType.name g.rootType.name
  let inputs := named g inputName rootInputName
  let optional := fun (used : Bool) (name : String) (t : NamedType) =>
    if used then [(name, t)] else []
  ⟨some g, objects, .ofList (commonTypes
    ++ [("Query", queryObject g.rootType.name),
        ("Mutation", mutationObject [("createDocument", creates "doc" rootInputName)])]
    ++ optional (hasKind .number objects || hasKind .number inputs) "Float" (.scalar .number)
    ++ optional (hasKind .file objects) "File" fileObject
    ++ optional (hasKind .file inputs) "FileInput" fileInput
    ++ objects.entries.map (fun e => (e.1, documentObject g.types e.2))
    ++ inputs.entries.map (fun e => (e.1, documentInput g.types e.2)))⟩

/-- The surface for a list of addresses. -/
def build (source : Source) (s : Settings) (addresses : List String) : Except Failure Surface :=
  if addresses = [] then .ok plain
  else do
    let g ← source.compile s.hashLength.digits addresses
    g.checkFieldNames
    return ofGraph g

/-- What a name of a type stands for. -/
def type? (s : Surface) (name : String) : Option NamedType := s.types.get? name

/-- The fields of an object type. -/
def object? (s : Surface) (name : String) : Option (List (String × OutputField)) :=
  match s.type? name with
  | some (.object fields) => some fields
  | _ => none

/-- The fields of an input type. -/
def input? (s : Surface) (name : String) : Option (List (String × InputField)) :=
  match s.type? name with
  | some (.input fields) => some fields
  | _ => none

/-- The scalar type with a name. -/
def scalar? (s : Surface) (name : String) : Option Scalar :=
  match s.type? name with
  | some (.scalar scalar) => some scalar
  | _ => none

/-- Whether a field has a name that the query language keeps for itself. Such a surface
refuses every request. -/
def hasReservedName (s : Surface) : Bool :=
  s.types.values.any fun t => t.fieldNames.any isReservedName

end Surface

end ContentGraph.GraphQL
