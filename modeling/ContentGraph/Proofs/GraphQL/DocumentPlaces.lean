import ContentGraph.Document.FieldReading
import ContentGraph.Proofs.GraphQL.Places
import ContentGraph.Proofs.GraphQL.Selections
import ContentGraph.Proofs.GraphQL.Serving
import ContentGraph.Proofs.Lists

/-!
# Places of documents

What a request for a document has to show is said by what the fields of documents hold, whatever way
there is to answer it (`DocumentShows`): at the place of a field stands what is read of it, below a
reference what the referenced document shows, and null where reading fails. Numbers stand only where
a document has them, so that they are finite where those of all documents are
(`HoldsFinite.finiteNumbers`).
-/

namespace ContentGraph.GraphQL

/-! ### What has to stand at each place -/

mutual

/-- What stands at a place in the answer for a document of a type. -/
inductive DocumentShows (source : Source) (types : Catalogue) :
    List Selection → NodeType → Document → Places
  /-- An object with a member for each response name. -/
  | here {selections : List Selection} {t : NodeType} {d : Document} :
      DocumentShows source types selections t d [] (.object (responses selections))
  /-- In the member of a field stands what is read of the field. -/
  | field {selections : List Selection} {t : NodeType} {d : Document} {call : FieldCall} {f : Field}
      {p : List Step} {s : Shown} : call ∈ calls selections → t.fields.get? call.name = some f →
      FieldShows source types f (belowAll call.response selections) (source.readField d call.name f) p s →
      DocumentShows source types selections t d (.member call.response :: p) s

/-- What stands at a place in the answer for what was read of a field. -/
inductive FieldShows (source : Source) (types : Catalogue) :
    Field → List Selection → Except Failure FieldValue → Places
  /-- Reading failed. -/
  | failed {f : Field} {below : List Selection} {e : Failure} :
      FieldShows source types f below (.error e) [] (.missing e)
  /-- The item of a field that stands once. -/
  | one {f : Field} {below : List Selection} {i : Item} {p : List Step} {s : Shown} :
      ItemShows source types f below i p s → FieldShows source types f below (.ok (.one i)) p s
  /-- The list of a field that may repeat. -/
  | many {f : Field} {below : List Selection} {is : List Item} :
      FieldShows source types f below (.ok (.many is)) [] (.list is.length)
  /-- An item of that list. -/
  | item {f : Field} {below : List Selection} {is : List Item} {n : ℕ} {i : Item} {p : List Step}
      {s : Shown} : is[n]? = some i → ItemShows source types f below i p s →
      FieldShows source types f below (.ok (.many is)) (.item n :: p) s

/-- What stands at a place in the answer for an item. -/
inductive ItemShows (source : Source) (types : Catalogue) : Field → List Selection → Item → Places
  /-- A text. -/
  | text {f : Field} {below : List Selection} {v : String} :
      ItemShows source types f below (.value (.string v)) [] (.value (.text v))
  /-- A number. -/
  | number {f : Field} {below : List Selection} {x : Binary} :
      ItemShows source types f below (.value (.number x)) [] (.value (.number x))
  /-- A file, with the members that are selected. -/
  | file {f : Field} {below : List Selection} {contentType uri : String} :
      ItemShows source types f below (.value (.file contentType uri)) [] (.object (responses below))
  /-- A member of a file. -/
  | part {f : Field} {below : List Selection} {contentType uri v : String} {call : FieldCall} :
      call ∈ calls below → (call.name, v) ∈ [("contentType", contentType), ("uri", uri)] →
      ItemShows source types f below (.value (.file contentType uri)) [.member call.response]
        (.value (.text v))
  /-- A document of the type that the field leads to. -/
  | document {f : Field} {below : List Selection} {d : Document} {u : NodeType} {p : List Step}
      {s : Shown} : f.LeadsTo types u → DocumentShows source types below u d p s →
      ItemShows source types f below (.document d) p s

end

/-- The items of what a document holds under a field. -/
def itemsOf : FieldValue → List Item
  | .one i => [i]
  | .many is => is

section

variable {source : Source} {d : Document} {key : String} {f : Field}

/-- What is read of a field are items of elements that stand under it and are of its kind. -/
theorem exists_element_of_readField {v : FieldValue} (h : source.readField d key f = .ok v) :
    ∀ i ∈ itemsOf v, ∃ e ∈ d.elements, source.item e = .ok i ∧ e.kind = f.kind := by
  unfold Source.readField at h
  dsimp only at h
  split at h
  · cases h
  · cases hfind : (d.elementsFor key).findSome? f.kindFailure? with
    | some failure =>
      rw [hfind] at h
      cases h
    | none =>
      cases hmap : (d.elementsFor key).mapM source.item with
      | error failure =>
        rw [hfind, hmap] at h
        cases h
      | ok items =>
        have hitems : ∀ i ∈ items, ∃ e ∈ d.elements, source.item e = .ok i ∧ e.kind = f.kind := by
          intro i hi
          obtain ⟨e, he, hie⟩ := exists_of_mem_right (mapM_eq_ok_iff.1 hmap) i hi
          refine ⟨e, (List.mem_filter.1 he).1, hie, ?_⟩
          have hnone := List.findSome?_eq_none_iff.1 hfind e he
          unfold Field.kindFailure? at hnone
          by_contra hne
          rw [if_neg hne] at hnone
          cases hnone
        rw [hfind, hmap] at h
        dsimp only at h
        split at h
        · cases h
          exact hitems
        · split at h
          · cases h
            exact hitems
          · cases h

end

/-! ### Finite numbers -/

/-- Whether all numbers in a document are finite. -/
def hasFiniteNumbers (d : Document) : Bool :=
  d.elements.all fun e => match e.content with | .number x => x.isFinite | _ => true

/-- All documents of a source have finite numbers. -/
def HoldsFinite (source : Source) : Prop :=
  ∀ address d, source.fetchDocument address = .ok d → hasFiniteNumbers d = true

/-- A number is finite, and so are those of a document. -/
def FiniteItem : Item → Prop
  | .value (.number x) => x.isFinite = true
  | .value _ => True
  | .document d => hasFiniteNumbers d = true

section

variable {source : Source} {types : Catalogue}

theorem finiteItem_of_item (h : HoldsFinite source) {d : Document} (hd : hasFiniteNumbers d = true) {e : Element}
    (he : e ∈ d.elements) {i : Item} (hi : source.item e = .ok i) : FiniteItem i := by
  have hfinite := List.all_eq_true.1 hd e he
  obtain ⟨key, content⟩ := e
  cases content with
  | string v =>
    cases hi
    exact True.intro
  | number x =>
    cases hi
    exact hfinite
  | file contentType uri =>
    cases hi
    exact True.intro
  | node uri =>
    change (source.fetchDocument uri).map Item.document = .ok i at hi
    cases hf : source.fetchDocument uri with
    | error e =>
      rw [hf] at hi
      cases hi
    | ok child =>
      rw [hf] at hi
      cases hi
      exact h uri child hf

mutual

theorem finite_of_documentShows (h : HoldsFinite source) {selections : List Selection} {t : NodeType} {d : Document} {p : List Step}
    {x : Binary} (hd : hasFiniteNumbers d = true) :
    DocumentShows source types selections t d p (.value (.number x)) → x.isFinite = true
  | .field _ _ hs => finite_of_fieldShows h (fun _ hv i hi => by
      obtain ⟨e, he, hie, -⟩ := exists_element_of_readField hv i hi
      exact finiteItem_of_item h hd he hie) hs

theorem finite_of_fieldShows (h : HoldsFinite source) {f : Field} {below : List Selection} {read : Except Failure FieldValue}
    {p : List Step} {x : Binary} (hr : ∀ v, read = .ok v → ∀ i ∈ itemsOf v, FiniteItem i) :
    FieldShows source types f below read p (.value (.number x)) → x.isFinite = true
  | .one hs => finite_of_itemShows h (hr _ rfl _ List.mem_cons_self) hs
  | .item hn hs => finite_of_itemShows h (hr _ rfl _ (List.mem_of_getElem? hn)) hs

theorem finite_of_itemShows (h : HoldsFinite source) {f : Field} {below : List Selection} {i : Item} {p : List Step} {x : Binary}
    (hi : FiniteItem i) : ItemShows source types f below i p (.value (.number x)) → x.isFinite = true
  | .number => hi
  | .document _ hs => finite_of_documentShows h hi hs

end

end

end ContentGraph.GraphQL
