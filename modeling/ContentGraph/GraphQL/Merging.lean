import ContentGraph.GraphQL.Fragments
import Std.Data.HashMap
import Std.Data.HashSet

/-!
# Fields with one response name

An object is answered with one value for each response name. Several fields may share a
response name when they are the same field with the same arguments; what is selected below
them is then merged, and has to agree in the same way. Whether it does is found out by
comparing fields two at a time, those of each area of selections with each other, with those
of the fragments that are spread there, and with those of areas that are merged with it. A
request that takes too many comparisons is treated as one that does not agree.
-/

namespace ContentGraph.GraphQL

mutual

/-- Whether two literals are the same, whatever the order of the fields of objects. -/
def Literal.same : Literal → Literal → Bool
  | .variable a, .variable b => a = b
  | .integer a, .integer b => a = b
  | .decimal a, .decimal b => a = b
  | .text a block, .text b block' => a = b && block = block'
  | .bool a, .bool b => a = b
  | .null, .null => true
  | .word a, .word b => a = b
  | .list as, .list bs => sameItems as bs
  | .object as, .object bs => as.length = bs.length && sameFields as bs
  | _, _ => false

/-- Whether the literals of two lists are the same. -/
def sameItems : List Literal → List Literal → Bool
  | [], [] => true
  | a :: as, b :: bs => a.same b && sameItems as bs
  | _, _ => false

/-- Whether the first literals are the same as those with their names among the second. -/
def sameFields : List (String × Literal) → List (String × Literal) → Bool
  | [], _ => true
  | (name, a) :: rest, bs =>
    (match Table.find name bs with
      | some b => a.same b
      | none => false) && sameFields rest bs

end

/-- Whether two rows of arguments are the same, whatever their order. -/
def sameArguments (as bs : List Argument) : Bool :=
  as.length = bs.length && as.all fun a => ((argument? bs a.name).map a.value.same).getD false

/-- Whether two fields can share a response name, as far as they themselves are concerned. -/
def FieldCall.agrees (f g : FieldCall) : Bool :=
  f.name = g.name && sameArguments f.arguments g.arguments

/-! ### Areas -/

/-- Selections between braces, and the place where they stand in a request: the positions of
the part and of the selections around them, the innermost first. -/
structure Area where
  /-- The place. -/
  place : List Nat
  /-- The selections. -/
  selections : List Selection

/-- A field with the area of what is selected of the objects under it. -/
abbrev PlacedField := FieldCall × Area

mutual

/-- The fields that a selection at a place asks for, those of spread fragments apart. -/
def Selection.placedFields (place : List Nat) : Selection → List PlacedField
  | .leaf f => [(f, ⟨place, []⟩)]
  | .branch f selections => [(f, ⟨place, selections⟩)]
  | .spread _ _ => []
  | .inline _ _ selections => placedFieldsOf place 0 selections

/-- The fields that selections at a place ask for, of which the first is the `n`th there. -/
def placedFieldsOf (place : List Nat) (n : Nat) : List Selection → List PlacedField
  | [] => []
  | s :: rest => s.placedFields (n :: place) ++ placedFieldsOf place (n + 1) rest

end

mutual

/-- The fragments that a selection spreads for the same object. -/
def Selection.ownSpreads : Selection → List String
  | .leaf _ => []
  | .branch _ _ => []
  | .spread fragment _ => [fragment]
  | .inline _ _ selections => ownSpreadsOf selections

/-- The fragments that several selections spread for the same object. -/
def ownSpreadsOf : List Selection → List String
  | [] => []
  | s :: rest => s.ownSpreads ++ ownSpreadsOf rest

end

mutual

/-- The areas in a selection at a place. -/
def Selection.areas (place : List Nat) : Selection → List Area
  | .leaf _ => []
  | .branch _ selections => ⟨place, selections⟩ :: areasOf place 0 selections
  | .spread _ _ => []
  | .inline _ _ selections => ⟨place, selections⟩ :: areasOf place 0 selections

/-- The areas in selections at a place, of which the first is the `n`th there. -/
def areasOf (place : List Nat) (n : Nat) : List Selection → List Area
  | [] => []
  | s :: rest => s.areas (n :: place) ++ areasOf place (n + 1) rest

end

/-- The areas of a request. -/
def Request.areas (r : Request) : List Area :=
  r.selections.zipIdx.flatMap fun (selections, n) =>
    ⟨[n], selections⟩ :: areasOf [n] 0 selections

/-- The areas of fragments by their names. -/
abbrev FragmentAreas := Std.HashMap String Area

/-- The areas of the fragments of a request. -/
def Request.fragmentAreas (r : Request) : FragmentAreas :=
  r.parts.zipIdx.foldl (fun areas (p, n) =>
    match p with
    | .fragment f => areas.insertIfNew f.name ⟨[n], f.selections⟩
    | _ => areas) {}

namespace Area

/-- The fields by their response names. -/
def groups (a : Area) : Std.HashMap String (List PlacedField) :=
  (placedFieldsOf a.place 0 a.selections).foldl (fun groups f =>
    groups.alter f.1.response fun fields? => some (f :: fields?.getD [])) {}

/-- The fragments that are spread for the same object. -/
def fragments (a : Area) : List String := (ownSpreadsOf a.selections).eraseDups

end Area

/-! ### Comparisons -/

/-- The greatest number of comparisons. -/
def mostComparisons : Nat := 250000

/-- Things to compare. -/
inductive Comparison where
  /-- The fields of an area with each other. -/
  | within (a : Area)
  /-- The fields of two areas. -/
  | between (a b : Area)
  /-- The fields of an area with those of a fragment. -/
  | spread (a : Area) (fragment : String)
  /-- The fields of two fragments. -/
  | fragments (f g : String)

/-- How far comparing has come. -/
structure Progress where
  /-- How many more fields may be compared. -/
  left : Nat
  /-- The places of areas with the fragments that they were compared with. -/
  spreads : Std.HashSet (List Nat × String)
  /-- The fragments that were compared with each other. -/
  fragments : Std.HashSet (String × String)

/-- A computation that compares fields. It ends where two of them do not agree, and where
there were too many. -/
abbrev Comparing := StateT Progress Option

/-- Counts comparisons that are made. -/
def spend (n : Nat) : Comparing Unit := fun p =>
  if n ≤ p.left then some ((), { p with left := p.left - n }) else none

/-- The pairs of two members of a list. -/
def pairs {α : Type} : List α → List (α × α)
  | [] => []
  | a :: rest => rest.map (fun b => (a, b)) ++ pairs rest

/-- The pairs of members of two lists. -/
def pairsBetween {α : Type} (as bs : List α) : List (α × α) :=
  as.flatMap fun a => bs.map fun b => (a, b)

/-- What is left to compare where each of two fields share a response name. -/
def compareEach (fields : List (PlacedField × PlacedField)) : Comparing (List Comparison) :=
  if fields.all fun (f, g) => f.1.agrees g.1 then
    return fields.map fun (f, g) => .between f.2 g.2
  else failure

/-- Compares the fields of an area that share a response name. -/
def Area.compareWithin (a : Area) : Comparing (List Comparison) :=
  List.flatten <$> a.groups.values.mapM fun fields => do
    spend (fields.length * (fields.length - 1) / 2)
    compareEach (pairs fields)

/-- Compares the fields of two areas that share a response name. -/
def Area.compareBetween (a b : Area) : Comparing (List Comparison) :=
  let others := b.groups
  List.flatten <$> a.groups.toList.mapM fun (response, fields) => do
    let others := others.getD response []
    spend (fields.length * others.length)
    compareEach (pairsBetween fields others)

/-- Makes a comparison as far as the fields themselves are concerned; gives those that are
left to make. -/
def Comparison.step (areas : FragmentAreas) : Comparison → Comparing (List Comparison)
  | .within a => do
    let below ← a.compareWithin
    return below ++ a.fragments.map (.spread a)
      ++ (pairs a.fragments).map fun (f, g) => .fragments f g
  | .between a b => do
    let below ← a.compareBetween b
    return below ++ b.fragments.map (.spread a) ++ a.fragments.map (.spread b)
      ++ (pairsBetween a.fragments b.fragments).map fun (f, g) => .fragments f g
  | .spread a fragment => do
    if (← get).spreads.contains (a.place, fragment) then return []
    modify fun p => { p with spreads := p.spreads.insert (a.place, fragment) }
    match areas[fragment]? with
    | none => return []
    | some b =>
      if a.place = b.place then return []
      else return (← a.compareBetween b) ++ b.fragments.map (.spread a)
  | .fragments f g => do
    if f = g || (← get).fragments.contains (f, g) then return []
    modify fun p => { p with fragments := (p.fragments.insert (f, g)).insert (g, f) }
    match areas[f]?, areas[g]? with
    | some a, some b =>
      return (← a.compareBetween b) ++ b.fragments.map (.fragments f)
        ++ a.fragments.map fun f => .fragments f g
    | _, _ => return []

/-- Makes a comparison and all that follow from it, down to a depth. -/
def Comparison.run (areas : FragmentAreas) : Nat → Comparison → Comparing Unit
  | 0, _ => return
  | depth + 1, c => do (← c.step areas).forM (Comparison.run areas depth)

/-- Whether all fields of a request that share a response name agree. A comparison goes
further down in one of two ways through the selections, or in both. -/
def Request.fieldsAgree (r : Request) : Bool :=
  let areas := r.fragmentAreas
  let all := r.areas.forM fun a => Comparison.run areas (2 * r.size + 2) (.within a)
  (all.run ⟨mostComparisons, {}, {}⟩).isSome

end ContentGraph.GraphQL
