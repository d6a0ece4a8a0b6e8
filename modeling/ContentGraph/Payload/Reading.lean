import ContentGraph.TypeGraph.Basic
import ContentGraph.Lenient

/-!
# Reading payloads

A payload is a nested object whose keys are the keys of a type: a value for a key that
stands once, a list for a key that may repeat, nested objects for node keys. Nothing is
converted: a text is a text and a number an integer or a number. Reading collects all issues,
the fields of a type first and in order, then the keys it does not have; where nothing is
wrong it gives the normal form, with every field present and in order. A nested object is
read by the model that bears the name of its type.
-/

namespace ContentGraph

/-- The types whose payloads are read, in the order in which they were reached. -/
abbrev Models := List (String × NodeType)

/-- The model with a name; of several, the last. -/
def Models.named? (models : Models) (name : String) : Option NodeType :=
  (models.reverse.find? fun m => m.2.name = name).map Prod.snd

/-- The model by which payloads of a type are read. -/
def Models.target? (models : Models) (identity : String) : Option NodeType :=
  (models.find? fun m => m.1 = identity).bind fun m => models.named? m.2.name

namespace Payload

/-- A text or a number that stands in a payload as itself. -/
def readScalar : ValueKind → Json → Checked Json
  | .string, .text s => .ok (.text s)
  | .string, v => .refuse .notText v
  | .number, .number x => .ok (.number x)
  | .number, v@(.integer n) => (Checked.ofOption .notNumber v (Binary.ofInt? n)).map .number
  | .number, v => .refuse .notNumber v
  | .file, .object ms =>
    (fun contentType uri _ => .object [("contentType", .text contentType), ("uri", .text uri)])
      <$> required ms "contentType" Json.asText <*> required ms "uri" Json.asText
      <*> noOthers ms ["contentType", "uri"]
  | .file, v => .refuse .notModel v

/-- The fields of a type in order, each read by the reading of the member it finds. -/
def readFields (ms : List (String × Json)) (readings : List (String × (Field → Checked Json))) :
    List (String × Field) → Checked (List (String × Json))
  | [] => .ok []
  | (key, f) :: rest =>
    let here := match Table.find key readings with
      | some reading => (reading f).under (.member key)
      | none =>
        if f.multiple then .ok (.list []) else .refused ⟨.missing, [.member key], .object ms⟩ []
    .seq (here.map fun v vs => (key, v) :: vs) (readFields ms readings rest)

/-- An object, from the readings of its members. -/
def readObject (t : NodeType) (ms : List (String × Json))
    (readings : List (String × (Field → Checked Json))) : Checked Json :=
  .seq ((readFields ms readings t.fields.entries).map fun vs _ => .object vs)
    (noOthers ms t.fields.keys)

mutual

/-- The normal form of a value that stands under a field. -/
def read (models : Models) (multiple : Bool) (shape : Shape) : Json → Checked Json
  | .list items =>
    if multiple then (readItems models shape 0 items).map .list
    else
      match shape with
      | .value kind => readScalar kind (.list items)
      | .node _ _ => .refuse .notModel (.list items)
  | .object ms =>
    if multiple then .refuse .notList (.object ms)
    else
      match shape with
      | .value kind => readScalar kind (.object ms)
      | .node _ target =>
        match models.target? target with
        | some t => readObject t ms (readMembers models ms)
        | none => .refuse .notModel (.object ms)
  | v =>
    if multiple then .refuse .notList v
    else
      match shape with
      | .value kind => readScalar kind v
      | .node _ _ => .refuse .notModel v

/-- The normal forms of the items of a list from a position on. -/
def readItems (models : Models) (shape : Shape) : Nat → List Json → Checked (List Json)
  | _, [] => .ok []
  | n, v :: rest =>
    .seq (((read models false shape v).under (.item n)).map List.cons)
      (readItems models shape (n + 1) rest)

/-- For each member of an object, its reading under a field. -/
def readMembers (models : Models) : List (String × Json) → List (String × (Field → Checked Json))
  | [] => []
  | (k, v) :: rest => (k, fun f => read models f.multiple f.shape v) :: readMembers models rest

end

/-- The normal form of a payload of a type. -/
def readRoot (models : Models) (t : NodeType) (ms : List (String × Json)) : Checked Json :=
  readObject t ms (readMembers models ms)

end Payload

end ContentGraph
