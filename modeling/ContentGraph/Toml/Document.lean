import ContentGraph.Json.Basic

/-!
# TOML documents

A TOML document is a row of statements: table headers, headers of table arrays, and
assignments to dotted keys. The tables they open and the values they set must fit each
other. A table is remembered with how it came about: on the way to another table, by a
header, or by a dotted key of one section. A header may open a table once; a dotted key may
add to a table that stood on the way or that dotted keys of the same section made.
-/

namespace ContentGraph.Toml

/-- A value. -/
inductive Value where
  /-- A text. -/
  | text (s : String)
  /-- An integer. -/
  | integer (n : Int)
  /-- A 64-bit number. -/
  | number (x : Binary)
  /-- A truth value. -/
  | bool (b : Bool)
  /-- A date, a time or both. -/
  | moment
  /-- A list. -/
  | list (items : List Value)
  /-- A table. -/
  | table (members : List (String × Value))

mutual

/-- The JSON value that says the same. There is none for a date or a time, which reads as
`null`. -/
def Value.toJson : Value → Json
  | .text s => .text s
  | .integer n => .integer n
  | .number x => .number x
  | .bool b => .bool b
  | .moment => .null
  | .list items => .list (itemsToJson items)
  | .table members => .object (membersToJson members)

/-- The JSON values of items. -/
def itemsToJson : List Value → List Json
  | [] => []
  | v :: rest => v.toJson :: itemsToJson rest

/-- The JSON values of members. -/
def membersToJson : List (String × Value) → List (String × Json)
  | [] => []
  | (k, v) :: rest => (k, v.toJson) :: membersToJson rest

end

/-- A dotted key: its parts, of which there is at least one. -/
abbrev Path := List String

/-- One statement. -/
inductive Statement where
  /-- The header of a table. -/
  | table (path : Path)
  /-- The header of the next table of an array. -/
  | element (path : Path)
  /-- The value of a key. -/
  | assign (path : Path) (v : Value)

/-- How a table came about. -/
inductive Origin where
  /-- On the way to another table. -/
  | passed
  /-- By its header. -/
  | header
  /-- By a dotted key of a section. -/
  | dotted (section_ : Nat)
  deriving DecidableEq

/-- What stands under a key. -/
inductive Node where
  /-- A value, to which nothing can be added. -/
  | value (v : Value)
  /-- A table. -/
  | table (origin : Origin) (entries : List (String × Node))
  /-- An array of tables; the last is the one that is added to. -/
  | tables (elements : List (List (String × Node)))

/-- The entries of a table. -/
abbrev Entries := List (String × Node)

/-- The array with a change of its last table. -/
def onLast (change : Entries → Option Entries) : List Entries → Option (List Entries)
  | [] => none
  | [last] => (change last).map fun es => [es]
  | first :: rest => (onLast change rest).map fun more => first :: more

/-- The entries with a change at the table that a path leads to, through tables that are
opened on the way. -/
def onTable (change : Entries → Option Entries) : Path → Entries → Option Entries
  | [], es => change es
  | k :: rest, es =>
    match Table.find k es with
    | none => (onTable change rest []).map fun sub => Table.put k (.table .passed sub) es
    | some (.table origin sub) =>
      (onTable change rest sub).map fun sub => Table.put k (.table origin sub) es
    | some (.tables elements) =>
      (onLast (onTable change rest) elements).map fun elements => Table.put k (.tables elements) es
    | some (.value _) => none

/-- Opens a table by its header. -/
def openTable (key : String) (es : Entries) : Option Entries :=
  match Table.find key es with
  | none => some (Table.put key (.table .header []) es)
  | some (.table .passed sub) => some (Table.put key (.table .header sub) es)
  | some _ => none

/-- Opens the next table of an array. -/
def openElement (key : String) (es : Entries) : Option Entries :=
  match Table.find key es with
  | none => some (Table.put key (.tables [[]]) es)
  | some (.tables elements) => some (Table.put key (.tables (elements ++ [[]])) es)
  | some _ => none

/-- Sets the value of a dotted key, in a section. -/
def assign (section_ : Nat) (v : Value) : Path → Entries → Option Entries
  | [], _ => none
  | [k], es => if (Table.find k es).isSome then none else some (Table.put k (.value v) es)
  | k :: rest, es =>
    let within := fun sub =>
      (assign section_ v rest sub).map fun sub => Table.put k (.table (.dotted section_) sub) es
    match Table.find k es with
    | none => within []
    | some (.table .passed sub) => within sub
    | some (.table (.dotted other) sub) => if other = section_ then within sub else none
    | some _ => none

/-- A document that is being built: the present section, its path, and all entries. -/
structure Draft where
  /-- The number of the section. -/
  section_ : Nat
  /-- The table that keys are assigned in. -/
  path : Path
  /-- The entries of the document. -/
  entries : Entries

/-- One more statement of a document. -/
def Draft.add (d : Draft) : Statement → Option Draft
  | .table path =>
    match path.getLast? with
    | some key =>
      (onTable (openTable key) path.dropLast d.entries).map fun es => ⟨d.section_ + 1, path, es⟩
    | none => none
  | .element path =>
    match path.getLast? with
    | some key =>
      (onTable (openElement key) path.dropLast d.entries).map fun es => ⟨d.section_ + 1, path, es⟩
    | none => none
  | .assign path v =>
    (onTable (assign d.section_ v path) d.path d.entries).map fun es => { d with entries := es }

mutual

/-- The value that stands under a key. -/
def Node.toValue : Node → Value
  | .value v => v
  | .table _ entries => .table (entriesToValues entries)
  | .tables elements => .list (elementsToValues elements)

/-- The members of a table. -/
def entriesToValues : List (String × Node) → List (String × Value)
  | [] => []
  | (k, n) :: rest => (k, n.toValue) :: entriesToValues rest

/-- The tables of an array. -/
def elementsToValues : List (List (String × Node)) → List Value
  | [] => []
  | es :: rest => .table (entriesToValues es) :: elementsToValues rest

end

/-- The table that statements describe, where they fit each other. -/
def build (statements : List Statement) : Option (List (String × Value)) :=
  (statements.foldlM Draft.add ⟨0, [], []⟩).map fun d => entriesToValues d.entries

end ContentGraph.Toml
