import ContentGraph.Table
import ContentGraph.Number.Binary

/-!
# JSON values

The values that payloads, stored texts and answers are made of. Integers and 64-bit
numbers are told apart, as their written forms are, and an object keeps the order of its
members. An object that was read has no repeated member (`Json.ofMembers`).
-/

namespace ContentGraph

/-- A JSON value. -/
inductive Json where
  /-- The value `null`. -/
  | null
  /-- A truth value. -/
  | bool (b : Bool)
  /-- An integer of any size. -/
  | integer (n : Int)
  /-- A 64-bit number. -/
  | number (x : Binary)
  /-- A text. -/
  | text (s : String)
  /-- A list. -/
  | list (items : List Json)
  /-- An object with its members in order. -/
  | object (members : List (String × Json))

namespace Json

instance : Inhabited Json := ⟨.null⟩

/-- The object of a list of members; of members with one name the last value counts, at
the place of the first. -/
def ofMembers (members : List (String × Json)) : Json := .object (Table.ofList members).entries

/-- A list of texts. -/
def texts (ss : List String) : Json := .list (ss.map .text)

/-- The member of an object. -/
def member? (name : String) : Json → Option Json
  | .object members => Table.find name members
  | _ => none

/-- What an error message calls the shape of a value. -/
def shape : Json → String
  | .null => "null"
  | .bool _ => "bool"
  | .integer _ => "int"
  | .number _ => "float"
  | .text _ => "str"
  | .list _ => "a list"
  | .object _ => "an object"

mutual

/-- How many lists and objects lie in each other in a value. -/
def depth : Json → Nat
  | .list items => depthOfItems items + 1
  | .object members => depthOfMembers members + 1
  | _ => 0

/-- How many lists and objects lie in each other in a value of a list. -/
def depthOfItems : List Json → Nat
  | [] => 0
  | v :: rest => max v.depth (depthOfItems rest)

/-- How many lists and objects lie in each other in a value of an object. -/
def depthOfMembers : List (String × Json) → Nat
  | [] => 0
  | (_, v) :: rest => max v.depth (depthOfMembers rest)

end

mutual

/-- The value with the members of all objects in the order of their names. -/
def sorted : Json → Json
  | .list items => .list (sortedItems items)
  | .object members => .object (sortBy (fun a b => a.1 ≤ b.1) (sortedMembers members))
  | v => v

/-- The items, each with its objects sorted. -/
def sortedItems : List Json → List Json
  | [] => []
  | v :: rest => v.sorted :: sortedItems rest

/-- The members in their order, each value with its objects sorted. -/
def sortedMembers : List (String × Json) → List (String × Json)
  | [] => []
  | (k, v) :: rest => (k, v.sorted) :: sortedMembers rest

end

end Json

end ContentGraph
