import ContentGraph.Resource.Wire
import ContentGraph.Resource.Reader
import ContentGraph.Json.Printer
import ContentGraph.Json.Reader
import ContentGraph.Digest.Sha256

/-!
# Canonical texts and content addresses

The canonical text of a resource is the compact text of its wire object with the members of
all objects sorted, and its content address is the digest of that text. Lists keep their
order, since it is significant; the order of a schema's keys is not.
-/

namespace ContentGraph

/-- The address of a text, after the characters that all addresses of a store begin with. -/
def contentAddress (lead text : String) : String := lead ++ Sha256.hex text

namespace Resource

/-- The canonical text. -/
def canonicalText (r : Resource) : String := r.toJson.canonicalText

/-- The content address. -/
def address (r : Resource) (lead : String) : String := contentAddress lead r.canonicalText

/-- The resource that a text spells. -/
def ofText? (s : String) : Option Resource := (Json.parse? s).bind fun v => (ofJson v).toOption

end Resource

/-- Whether two elements are equal as readers compare them: no number that is not a number
equals any. -/
def Element.same (a b : Element) : Bool :=
  a = b && (match a.content with | .number x => !x.isNaN | _ => true)

/-- Whether two lists agree item by item. -/
def sameItems {α : Type} (same : α → α → Bool) : List α → List α → Bool
  | [], [] => true
  | a :: as, b :: bs => same a b && sameItems same as bs
  | _, _ => false

/-- Whether two resources are equal as readers compare them: the keys of schemas in any order. -/
def Resource.same : Resource → Resource → Bool
  | .document d, .document e =>
    d.version = e.version && d.schemas = e.schemas && sameItems Element.same d.elements e.elements
  | .schema s, .schema t =>
    s.version = t.version && s.name = t.name && s.elements.size = t.elements.size
      && s.elements.entries.all fun e => t.elements.get? e.1 = some e.2
  | .alias a, .alias b => a = b
  | _, _ => false

/-- Whether the canonical text of a resource reads back as the resource. -/
def Resource.roundTrips (r : Resource) : Bool :=
  match ofText? r.canonicalText with
  | some read => r.same read
  | none => false

end ContentGraph
