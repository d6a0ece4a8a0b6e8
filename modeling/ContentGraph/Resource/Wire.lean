import ContentGraph.Resource.Basic
import ContentGraph.Json.Basic

/-!
# Wire objects

The JSON object of a resource. All fields are written, those with default values too, and
the kind stands first.
-/

namespace ContentGraph

/-- The fields of what an element holds. -/
def Content.fields : Content → List (String × Json)
  | .string s => [("value", .text s)]
  | .number x => [("value", .number x)]
  | .file contentType uri => [("contentType", .text contentType), ("uri", .text uri)]
  | .node uri => [("uri", .text uri)]

/-- The object of an element. -/
def Element.toJson (e : Element) : Json :=
  .object (("kind", .text e.kind.name) :: ("key", .text e.key.text) :: e.content.fields)

/-- The object of a definition. -/
def Definition.toJson : Definition → Json
  | .value k m => .object [("kind", .text (Kind.value k).name), ("multiple", .bool m)]
  | .node m ss =>
    .object [("kind", .text Kind.node.name), ("multiple", .bool m), ("schemas", .texts ss)]

/-- The object of a document. -/
def Document.toJson (d : Document) : Json :=
  .object [("kind", .text "document"), ("version", .text d.version), ("schemas", .texts d.schemas),
    ("elements", .list (d.elements.map Element.toJson))]

/-- The object of a schema. -/
def Schema.toJson (s : Schema) : Json :=
  .object [("kind", .text "schema"), ("version", .text s.version), ("name", .text s.name),
    ("elements", .object (s.elements.entries.map fun e => (e.1, e.2.toJson)))]

/-- The object of an alias. -/
def Alias.toJson (a : Alias) : Json :=
  .object [("kind", .text "alias"), ("version", .text a.version), ("name", .text a.name),
    ("schemas", .texts a.schemas)]

/-- The object of a resource. -/
def Resource.toJson : Resource → Json
  | .document d => d.toJson
  | .schema s => s.toJson
  | .alias a => a.toJson

end ContentGraph
