import ContentGraph.Store
import ContentGraph.Settings.Basic

/-!
# Creating schemas and aliases

A schema is described by its keys, listed by kind. A key that stands twice is a conflict
between the lists it stands in; otherwise the schema has one definition for each key, in
the order of the keys. An alias is stored as it is described.
-/

namespace ContentGraph

/-- A key of a schema. -/
structure KeyInput where
  /-- The key. -/
  key : Key
  /-- Whether it may stand any number of times. -/
  multiple : Bool
  deriving DecidableEq

/-- A key under which references stand. -/
structure NodeKeyInput extends KeyInput where
  /-- The schemas of the referenced documents. -/
  schemas : List String
  deriving DecidableEq

/-- The description of a schema. -/
structure SchemaInput where
  /-- The name. -/
  name : String
  /-- The keys of texts. -/
  strings : List KeyInput
  /-- The keys of numbers. -/
  numbers : List KeyInput
  /-- The keys of files. -/
  files : List KeyInput
  /-- The keys of references. -/
  nodes : List NodeKeyInput
  deriving DecidableEq

/-- The description of an alias. -/
structure AliasInput where
  /-- The name. -/
  name : String
  /-- What it stands for. -/
  schemas : List String
  deriving DecidableEq

/-- The reading of one shape of object, whose unknown members are passed over. -/
def model {α : Type} (read : Members → Checked α) : Json → Checked α
  | .object ms => read ms
  | v => .refuse .notModel v

/-- A list with at least one text. -/
def Json.asSomeTexts (v : Json) : Checked (List String) := v.asTexts.ensure (· ≠ []) .listTooShort v

/-- The key of an object. -/
def KeyInput.read (ms : Members) : Checked KeyInput :=
  KeyInput.mk <$> required ms "key" Json.asKey <*> optional ms "multiple" false Json.asBool

/-- The key of an object with schemas. -/
def NodeKeyInput.read (ms : Members) : Checked NodeKeyInput :=
  NodeKeyInput.mk <$> KeyInput.read ms <*> required ms "schemas" Json.asSomeTexts

/-- The description of a schema in an object. -/
def SchemaInput.read (ms : Members) : Checked SchemaInput :=
  SchemaInput.mk <$> required ms "name" Json.asText
    <*> optional ms "strings" [] (Json.asList (model KeyInput.read))
    <*> optional ms "numbers" [] (Json.asList (model KeyInput.read))
    <*> optional ms "files" [] (Json.asList (model KeyInput.read))
    <*> optional ms "nodes" [] (Json.asList (model NodeKeyInput.read))

/-- The description of an alias in an object. -/
def AliasInput.read (ms : Members) : Checked AliasInput :=
  AliasInput.mk <$> required ms "name" Json.asText <*> optional ms "schemas" [] Json.asTexts

namespace SchemaInput

/-- The definitions that a list of keys asks for: the name of the list, the key, the definition. -/
def valueEntries (list : String) (kind : ValueKind) (keys : List KeyInput) :
    List (String × String × Definition) :=
  keys.map fun k => (list, k.key.text, .value kind k.multiple)

/-- All definitions that are asked for, in the order of the lists. -/
def entries (i : SchemaInput) : List (String × String × Definition) :=
  valueEntries "strings" .string i.strings ++ valueEntries "numbers" .number i.numbers
    ++ valueEntries "files" .file i.files
    ++ i.nodes.map fun k => ("nodes", k.key.text, .node k.multiple k.schemas)

/-- One more definition, unless its key is taken. -/
def add (taken : Table (String × Definition)) (entry : String × String × Definition) :
    Except Failure (Table (String × Definition)) :=
  match taken.get? entry.2.1 with
  | some (list, _) => .error (.conflict entry.2.1 (list ++ " input") (entry.1 ++ " input"))
  | none => .ok (taken.insert entry.2.1 (entry.1, entry.2.2))

/-- The schema that is described. -/
def build (i : SchemaInput) (version : String) : Except Failure Schema :=
  (i.entries.foldlM add .empty).map fun taken =>
    ⟨version, i.name, Table.ofList (taken.sorted.entries.map fun e => (e.1, e.2.2))⟩

end SchemaInput

/-- Stores the schema that an object describes; gives its address. -/
def createSchema (s : Settings) (input : Json) (g : Gateway) : Except Fault String × Gateway :=
  match model SchemaInput.read input with
  | .refused first more => (.error (.invalid (first :: more)), g)
  | .ok i =>
    match i.build s.version with
    | .error f => (.error (.failure f), g)
    | .ok schema => g.saveResource (.schema schema)

/-- Stores the alias that an object describes; gives its address. What it stands for is not
looked at. -/
def createAlias (s : Settings) (input : Json) (g : Gateway) : Except Fault String × Gateway :=
  match model AliasInput.read input with
  | .refused first more => (.error (.invalid (first :: more)), g)
  | .ok i => g.saveResource (.alias ⟨s.version, i.name, i.schemas⟩)

end ContentGraph
