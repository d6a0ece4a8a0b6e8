import ContentGraph.Proofs.Document.RoundTrip
import ContentGraph.Proofs.GraphQL.Agreement
import ContentGraph.Proofs.GraphQL.DocumentPlaces
import ContentGraph.Proofs.GraphQL.Requests
import ContentGraph.Proofs.Sorting

/-!
# Getting documents

The answer to a request for a document shows what the fields of documents hold, at every place
(`serve_get`): a failure at one place leaves every other place as it is, and nothing is stored.

The proof follows what is asked from the outside in. A field that is selected is one of its type,
since the request is valid; what its items lead to is served under its name, since no two types have
one; and what is selected of several fields with one response name belongs to one field, since the
fields of a valid request agree.
-/

namespace ContentGraph.GraphQL

/-! ### Answers -/

section

variable {g : TypeGraph} {r : Request} {selections : List Selection} {t u : NodeType}

/-- Selections can be asked for of documents of a type. -/
structure Readable (g : TypeGraph) (r : Request) (selections : List Selection) (t : NodeType) : Prop where
  /-- They are selections of keys. -/
  keys : SelectKeys selections
  /-- Fields with one response name are one field. -/
  agree : Agree selections
  /-- The type is served under its name. -/
  served : (named g NodeType.name g.rootType.name).get? t.name = some t
  /-- The selections fit the type. -/
  fits : selectionsFit (Surface.ofGraph g) r selections t.name = true

/-- All that is selected below a field of one response name fits the field. -/
theorem fits_belowAll {s : Surface} {type : String} (ha : Agree selections)
    (hf : selectionsFit s r selections type = true) {call : FieldCall} (hc : call ∈ calls selections) :
    ∃ field, s.field? type call.name = some field ∧
      selectionsFit s r (belowAll call.response selections) field.type.name = true := by
  obtain ⟨sel, hsel, hcall⟩ := List.mem_filterMap.1 hc
  obtain ⟨field, hfield, -⟩ := sel.exists_field_of_fits (selectionsFit_iff.1 hf sel hsel) hcall
  refine ⟨field, hfield, selectionsFit_iff.2 fun s' hs' => ?_⟩
  obtain ⟨other, hother, call', hcall', he, hs'⟩ := mem_belowAll.1 hs'
  obtain ⟨field', hfield', hbelow⟩ := other.exists_field_of_fits (selectionsFit_iff.1 hf other hother) hcall'
  have hname := ha.name_eq (List.mem_filterMap.2 ⟨other, hother, hcall'⟩) hc he
  rw [hname] at hfield'
  cases hfield.symm.trans hfield'
  exact selectionsFit_iff.1 hbelow s' hs'

namespace Readable

variable (ht : g.types.Titled)
include ht

/-- A field that is selected is one of the type. -/
theorem exists_field (h : Readable g r selections t) {call : FieldCall} (hc : call ∈ calls selections) :
    ∃ f, t.fields.get? call.name = some f ∧ selectionsFit (Surface.ofGraph g) r
      (belowAll call.response selections) (fieldType g.types "File" NodeType.name f).name = true := by
  obtain ⟨field, hfield, hfits⟩ := fits_belowAll h.agree h.fits hc
  rw [field?_object ht h.served (h.keys.call hc).2] at hfield
  obtain ⟨f, hf, rfl⟩ := Option.map_eq_some_iff.1 hfield
  exact ⟨f, hf, hfits⟩

/-- What is selected below a field can be asked for of the documents it leads to. -/
theorem below (hd : g.DistinctNames) (h : Readable g r selections t) {call : FieldCall}
    (hc : call ∈ calls selections) {f : Field} (hf : t.fields.get? call.name = some f)
    (hu : f.LeadsTo g.types u) : Readable g r (belowAll call.response selections) u := by
  obtain ⟨f', hf', hfits⟩ := h.exists_field ht hc
  cases hf.symm.trans hf'
  rw [name_fieldType_node hu] at hfits
  exact ⟨h.keys.belowAll _, h.agree.belowAll hc,
    (tellsApart_objects hd).get?_named h.served ⟨call.name, f, hf, hu⟩, hfits⟩

end Readable

variable {source : Source} {values : Values} {depth : ℕ}

/-- The documents that a surface of a graph serves. -/
def library (g : TypeGraph) (source : Source) : Library := ⟨source, g.types, (Surface.ofGraph g).objects⟩

section

variable (ht : g.types.Titled) (hd : g.DistinctNames) (hc : g.types.Closed)
include ht hd hc

end

end

/-! ### Queries -/

section

variable {g : Gateway} {settings : Settings} {addresses : List String} {graph : TypeGraph}
  {surface : Surface} {i : Inquiry} {r : Request} {o : Operation} {values : Values} {call : FieldCall}
  {address : String} {selections : List Selection}

end

end ContentGraph.GraphQL
