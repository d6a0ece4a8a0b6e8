import ContentGraph.Json.Basic

/-!
# Places in a value

A place is named by the way that leads to it: a row of steps, each into a member of an object
or an item of a list. `Json.at?` is the value at a place. Places are ordered as they are met
in reading: names in increasing order, items by position, a place before those in it.
-/

namespace ContentGraph

/-- One step of the way to a value: a member of an object or an item of a list. -/
inductive Step where
  /-- The member of that name. -/
  | member (name : String)
  /-- The item at that position. -/
  | item (position : Nat)
  deriving DecidableEq

namespace Json

/-- The value that one step leads to. -/
def step? : Step → Json → Option Json
  | .member name, v => v.member? name
  | .item n, .list items => items[n]?
  | .item _, _ => none

/-- The value at a place. -/
def at? : List Step → Json → Option Json
  | [], v => some v
  | step :: rest, v => (v.step? step).bind (at? rest)

@[simp] theorem at?_nil (v : Json) : v.at? [] = some v := rfl

end Json

/-- Whether a step comes before another. -/
def Step.before : Step → Step → Bool
  | .member a, .member b => a < b
  | .item m, .item n => m < n
  | .item _, .member _ => true
  | .member _, .item _ => false

/-- Whether a place comes before another or is the same. -/
def placeBefore : List Step → List Step → Bool
  | [], _ => true
  | _ :: _, [] => false
  | a :: as, b :: bs => if a = b then placeBefore as bs else a.before b

/-- A way as a text, its steps joined by points. -/
def pathText (path : List Step) : String :=
  ".".intercalate (path.map fun step =>
    match step with
    | .member name => name
    | .item n => toString n)

end ContentGraph
