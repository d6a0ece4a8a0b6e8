import ContentGraph.Payload.Validator
import ContentGraph.Settings.Basic

/-!
# Plans of documents

A payload in normal form says which documents have to be written: the document of the
payload itself, and below each node field the documents of the nested payloads. A plan is
that tree, with the elements of each document cut into portions in the order of the fields.
A portion that cannot be built stands in the plan as the fault it will be; what comes before
it is still carried out.
-/

namespace ContentGraph

mutual

/-- The document that has to be written for one payload. -/
inductive Plan where
  /-- The schemas it advertises and its portions in order. -/
  | document (schemas : List String) (portions : List Portion)

/-- The elements of one field. -/
inductive Portion where
  /-- Elements that are known already. -/
  | elements (es : List Element)
  /-- References to documents that have to be written first. -/
  | children (key : String) (plans : List Plan)
  /-- Elements that cannot be built. -/
  | fault (fault : Fault)

end

/-- The schemas a planned document advertises. -/
def Plan.schemas : Plan → List String
  | .document schemas _ => schemas

/-- The portions of a planned document. -/
def Plan.portions : Plan → List Portion
  | .document _ portions => portions

mutual

/-- The number of documents and portions in a plan. -/
def Plan.size : Plan → Nat
  | .document _ portions => 1 + portionsSize portions

/-- The number of documents and portions in a portion. -/
def Portion.size : Portion → Nat
  | .children _ plans => 1 + plansSize plans
  | _ => 1

/-- The size of several portions. -/
def portionsSize : List Portion → Nat
  | [] => 0
  | p :: rest => p.size + portionsSize rest

/-- The size of several plans. -/
def plansSize : List Plan → Nat
  | [] => 0
  | p :: rest => p.size + plansSize rest

end

namespace Plan

/-- The element of a value under a key. -/
def valueElement (key : String) (kind : ValueKind) (v : Json) : Except Fault Element :=
  match kind with
  | .string => (Element.readString [("key", .text key), ("value", v)]).toExcept
  | .number => (Element.readNumber [("key", .text key), ("value", v)]).toExcept
  | .file =>
    match v with
    | .object ms =>
      match Table.find "contentType" ms, Table.find "uri" ms with
      | some contentType, some uri =>
        (Element.readFile
          [("key", .text key), ("content_type", contentType), ("uri", uri)]).toExcept
      | none, _ => .error (.absentKey "contentType")
      | some _, none => .error (.absentKey "uri")
    | _ => .error .wrongShape

/-- The values that stand under a field: those of a list, or the one. -/
def valuesOf (multiple : Bool) (v : Json) : Except Fault (List Json) :=
  if multiple then
    match v with
    | .list items => .ok items
    | .object ms => .ok (ms.map fun m => .text m.1)
    | .text s => .ok (s.toList.map fun c => .text (String.ofList [c]))
    | _ => .error .wrongShape
  else .ok [v]

/-- The elements of a field that holds values. -/
def valuePortion (key : String) (kind : ValueKind) (multiple : Bool) (v : Json) : Portion :=
  match (valuesOf multiple v).bind fun vs => vs.mapM (valueElement key kind) with
  | .ok es => .elements es
  | .error fault => .fault fault

/-- How the documents below a node field are planned: the type of the field, whether it may
repeat, and the schemas it declares. -/
abbrev Planning := NodeType → Bool → List String → Except Fault (List Plan)

/-- The portion of one field, from the members of the payload and how each is planned. -/
def portion (types : Catalogue) (ms : List (String × Json)) (plannings : List (String × Planning))
    (key : String) (f : Field) : Portion :=
  match Table.find key ms, Table.find key plannings with
  | some v, some planning =>
    match f.shape with
    | .value kind => valuePortion key kind f.multiple v
    | .node schemas target =>
      match Table.get? types target with
      | none => .fault .wrongShape
      | some t =>
        match planning t f.multiple schemas with
        | .ok plans => .children key plans
        | .error fault => .fault fault
  | _, _ => .fault (.absentKey key)

/-- The plan of a payload that is no object. -/
def unreadable (schemas : List String) : Plan := .document schemas [.fault .wrongShape]

mutual

/-- The plans of the payloads that stand under a node field. -/
def planValue (types : Catalogue) : Json → Planning
  | .list items => fun t multiple schemas =>
    if multiple then .ok (planItems types items t schemas) else .ok [unreadable schemas]
  | .object ms => fun t multiple schemas =>
    if multiple then .ok (ms.map fun _ => unreadable schemas)
    else
      .ok [.document schemas
        (t.fields.entries.map fun e => portion types ms (planMembers types ms) e.1 e.2)]
  | .text s => fun _ multiple schemas =>
    if multiple then .ok (s.toList.map fun _ => unreadable schemas) else .ok [unreadable schemas]
  | _ => fun _ multiple schemas => if multiple then .error .wrongShape else .ok [unreadable schemas]

/-- The plans of the items of a list, each of one type. -/
def planItems (types : Catalogue) : List Json → NodeType → List String → List Plan
  | [], _, _ => []
  | v :: rest, t, schemas =>
    (match planValue types v t false schemas with
      | .ok plans => plans
      | .error _ => []) ++ planItems types rest t schemas

/-- For each member of a payload, how the documents below it are planned. -/
def planMembers (types : Catalogue) : List (String × Json) → List (String × Planning)
  | [] => []
  | (k, v) :: rest => (k, planValue types v) :: planMembers types rest

end

/-- The plan of the document of a payload in normal form. -/
def ofPayload (types : Catalogue) (t : NodeType) (schemas : List String) : Json → Plan
  | .object ms =>
    .document schemas
      (t.fields.entries.map fun e => portion types ms (planMembers types ms) e.1 e.2)
  | _ => unreadable schemas

end Plan

end ContentGraph
