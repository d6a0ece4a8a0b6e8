import ContentGraph.Resource.Basic
import ContentGraph.Lenient

/-!
# Reading wire objects

The reverse of the wire objects. Fields with a default may be absent, unknown fields are
refused, and all issues are collected in the order of the fields. Where a place holds one of
several kinds, the member `kind` chooses, and the chosen kind is a step of the way to
what stands there.
-/

namespace ContentGraph

/-- The members of an object. -/
abbrev Members := List (String × Json)

/-- The reading that the member `kind` of an object chooses. -/
def byKind {α : Type} (choices : List (String × (Members → Checked α))) : Json → Checked α
  | v@(.object ms) =>
    match Table.find "kind" ms with
    | none => .refuse .tagNotFound v
    | some (.text kind) =>
      match Table.find kind choices with
      | some read => (read ms).under (.member kind)
      | none => .refuse .tagInvalid v
    | some _ => .refuse .tagInvalid v
  | v => .refuse .notTagged v

/-- The member `kind`, which may be absent and else says what was chosen. -/
def kindMember (ms : Members) (kind : String) : Checked Unit :=
  optional ms "kind" () fun v =>
    match v with
    | .text s => if s = kind then .ok () else .refuse .notLiteral v
    | _ => .refuse .notLiteral v

/-- An element key. -/
def Json.asKey : Json → Checked Key
  | v@(.text s) =>
    match Key.ofString? s with
    | some k => .ok k
    | none => .refuse .textTooShort v
  | v => .refuse .notText v

/-- The member that holds the media type of a file, which has two names. -/
def contentTypeName (ms : Members) : String :=
  if (Table.find "contentType" ms).isNone ∧ (Table.find "content_type" ms).isSome then
    "content_type"
  else "contentType"

namespace Element

/-- A string element. -/
def readString (ms : Members) : Checked Element :=
  (fun _ key value _ => ⟨key, .string value⟩) <$> kindMember ms "string"
    <*> required ms "key" Json.asKey <*> required ms "value" Json.asText
    <*> noOthers ms ["kind", "key", "value"]

/-- A number element. -/
def readNumber (ms : Members) : Checked Element :=
  (fun _ key value _ => ⟨key, .number value⟩) <$> kindMember ms "number"
    <*> required ms "key" Json.asKey <*> required ms "value" Json.asNumber
    <*> noOthers ms ["kind", "key", "value"]

/-- A file element. -/
def readFile (ms : Members) : Checked Element :=
  (fun _ key contentType uri _ => ⟨key, .file contentType uri⟩) <$> kindMember ms "file"
    <*> required ms "key" Json.asKey <*> required ms (contentTypeName ms) Json.asText
    <*> required ms "uri" Json.asText <*> noOthers ms ["kind", "key", contentTypeName ms, "uri"]

/-- A node element. -/
def readNode (ms : Members) : Checked Element :=
  (fun _ key uri _ => ⟨key, .node uri⟩) <$> kindMember ms "node" <*> required ms "key" Json.asKey
    <*> required ms "uri" Json.asText <*> noOthers ms ["kind", "key", "uri"]

/-- The element of an object. -/
def ofJson : Json → Checked Element :=
  byKind [("string", readString), ("number", readNumber), ("file", readFile), ("node", readNode)]

end Element

namespace Definition

/-- A definition of content of the document itself. -/
def readValue (kind : ValueKind) (ms : Members) : Checked Definition :=
  (fun _ multiple _ => .value kind multiple) <$> kindMember ms (Kind.value kind).name
    <*> optional ms "multiple" false Json.asBool <*> noOthers ms ["kind", "multiple"]

/-- A node definition. -/
def readNode (ms : Members) : Checked Definition :=
  (fun _ multiple schemas _ => .node multiple schemas) <$> kindMember ms "node"
    <*> optional ms "multiple" false Json.asBool <*> optional ms "schemas" [] Json.asTexts
    <*> noOthers ms ["kind", "multiple", "schemas"]

/-- The definition of an object. -/
def ofJson : Json → Checked Definition :=
  byKind [("string", readValue .string), ("number", readValue .number), ("file", readValue .file),
    ("node", readNode)]

end Definition

namespace Document

/-- A document. -/
def read (ms : Members) : Checked Document :=
  (fun _ version schemas elements _ => ⟨version, schemas, elements⟩) <$> kindMember ms "document"
    <*> optional ms "version" defaultVersion Json.asText <*> optional ms "schemas" [] Json.asTexts
    <*> optional ms "elements" [] (Json.asList Element.ofJson)
    <*> noOthers ms ["kind", "version", "schemas", "elements"]

/-- The document of an object, where no other kind is possible. -/
def ofJson : Json → Checked Document
  | .object ms => read ms
  | v => .refuse .notModel v

end Document

/-- A schema. -/
def Schema.read (ms : Members) : Checked Schema :=
  (fun _ version name elements _ => ⟨version, name, Table.ofList elements⟩)
    <$> kindMember ms "schema" <*> optional ms "version" defaultVersion Json.asText
    <*> required ms "name" Json.asText
    <*> optional ms "elements" [] (Json.asMap Definition.ofJson)
    <*> noOthers ms ["kind", "version", "name", "elements"]

/-- An alias. -/
def Alias.read (ms : Members) : Checked Alias :=
  (fun _ version name schemas _ => ⟨version, name, schemas⟩) <$> kindMember ms "alias"
    <*> optional ms "version" defaultVersion Json.asText <*> required ms "name" Json.asText
    <*> optional ms "schemas" [] Json.asTexts <*> noOthers ms ["kind", "version", "name", "schemas"]

/-- The resource of an object. -/
def Resource.ofJson : Json → Checked Resource :=
  byKind [("document", fun ms => (Document.read ms).map .document),
    ("schema", fun ms => (Schema.read ms).map .schema),
    ("alias", fun ms => (Alias.read ms).map .alias)]

end ContentGraph
