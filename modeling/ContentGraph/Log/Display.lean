import ContentGraph.Json.Printer
import ContentGraph.Resource.Wire
import ContentGraph.Text.Quoted

/-!
# Display of values

How a log record shows a value on one line: texts between quotes, the words `None`, `True`
and `False`, brackets and braces. With sorted objects the members stand in the order of
their names. A resource is shown by its fields.
-/

namespace ContentGraph

/-- The words for the truth values. -/
def boolWord (b : Bool) : String := if b then "True" else "False"

namespace Json

/-- The text of a number. -/
def numberWord (x : Binary) : String := String.ofList (Layout.plain.text x)

mutual

/-- A value on one line. -/
def display : Json → String
  | .null => "None"
  | .bool b => boolWord b
  | .integer n => String.ofList (integerText n)
  | .number x => numberWord x
  | .text s => ContentGraph.quoted s
  | .list items => "[" ++ displayItems items ++ "]"
  | .object members => "\x7b" ++ displayMembers members ++ "\x7d"

/-- Items with commas between them. -/
def displayItems : List Json → String
  | [] => ""
  | [v] => v.display
  | v :: w :: rest => v.display ++ ", " ++ displayItems (w :: rest)

/-- Members with commas between them. -/
def displayMembers : List (String × Json) → String
  | [] => ""
  | [(k, v)] => ContentGraph.quoted k ++ ": " ++ v.display
  | (k, v) :: m :: rest =>
    ContentGraph.quoted k ++ ": " ++ v.display ++ ", " ++ displayMembers (m :: rest)

end

/-- A value on one line, a text as it is. -/
def plain : Json → String
  | .text s => s
  | v => v.display

end Json

/-- Fields of a resource, each with an equals sign. -/
def fieldTexts (between : String) (fields : List (String × String)) : String :=
  between.intercalate (fields.map fun f => f.1 ++ "=" ++ f.2)

/-- A part of a resource: the name of its shape and its fields. -/
def partText (shape : String) (fields : List (String × String)) : String :=
  shape ++ "(" ++ fieldTexts ", " fields ++ ")"

/-- What stands between brackets. -/
def listText (items : List String) : String := "[" ++ ", ".intercalate items ++ "]"

/-- A kind as it begins the name of a shape. -/
def Kind.shapeName : Kind → String
  | .value .string => "String"
  | .value .number => "Number"
  | .value .file => "File"
  | .node => "Node"

/-- The fields of what an element holds. -/
def Content.display : Content → List (String × String)
  | .string s => [("value", quoted s)]
  | .number x => [("value", Json.numberWord x)]
  | .file contentType uri => [("content_type", quoted contentType), ("uri", quoted uri)]
  | .node uri => [("uri", quoted uri)]

/-- An element on one line. -/
def Element.display (e : Element) : String :=
  partText (e.kind.shapeName ++ "Element")
    ([("kind", quoted e.kind.name), ("key", quoted e.key.text)] ++ e.content.display)

/-- A definition on one line. -/
def Definition.display (d : Definition) : String :=
  partText (d.kind.shapeName ++ "Definition")
    ([("kind", quoted d.kind.name), ("multiple", boolWord d.multiple)] ++
      match d with
      | .node _ schemas => [("schemas", quotedList schemas)]
      | .value _ _ => [])

/-- The fields of a resource. -/
def Resource.display (r : Resource) : String :=
  fieldTexts " " (("kind", quoted r.kindName) ::
    match r with
    | .document d => [("version", quoted d.version), ("schemas", quotedList d.schemas),
        ("elements", listText (d.elements.map Element.display))]
    | .schema s => [("version", quoted s.version), ("name", quoted s.name),
        ("elements", "\x7b" ++ ", ".intercalate
          (s.elements.entries.map fun e => quoted e.1 ++ ": " ++ e.2.display) ++ "\x7d")]
    | .alias a =>
      [("version", quoted a.version), ("name", quoted a.name), ("schemas", quotedList a.schemas)])

end ContentGraph
