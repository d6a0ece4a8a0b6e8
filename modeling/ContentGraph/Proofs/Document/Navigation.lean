import ContentGraph.Document.Navigation
import ContentGraph.Proofs.Document.Records

/-!
# Navigation and reading by fields

A document is read in two ways: by a field of a type, which asks for a kind and says whether its key may
repeat, and without one, element by element. Both follow references by themselves. They agree: what a field
gives is found under its key, one view for each item and in order, and what is found there is given by a
field to whose kind all views answer, where its key stands as often as the field asks for
(`Source.navigatesAlike`).

A view is looked at through its accessors only (`View.Shows`): which of them answer, and with what.
-/

namespace ContentGraph

/-! ### What views show -/

namespace View

/-- The accessor of a kind answers. -/
def Answers (v : View) : Kind → Prop
  | .value kind => ∃ e, v.asValue kind = .ok e
  | .node => ∃ d, v.asNode = .ok d

/-- An accessor of a view gives what an item is: the value of a text or a number, the media type and the
location of a file, or a document. -/
inductive Shows (v : View) : Item → Prop
  /-- A text. -/
  | string {e : Element} {s : String} :
      v.asValue .string = .ok e → e.content = .string s → Shows v (.value (.string s))
  /-- A number. -/
  | number {e : Element} {x : Binary} :
      v.asValue .number = .ok e → e.content = .number x → Shows v (.value (.number x))
  /-- A file. -/
  | file {e : Element} {contentType uri : String} :
      v.asValue .file = .ok e → e.content = .file contentType uri → Shows v (.value (.file contentType uri))
  /-- The document that a reference leads to. -/
  | document {d : Document} : v.asNode = .ok d → Shows v (.document d)

end View

/-! ### Elements -/

/-- An element has a view and an item: both are made of the element itself, or of the document that it leads
to. -/
inductive Source.Sees (source : Source) (e : Element) : View → Item → Prop
  /-- It holds a value. -/
  | value {kind : ValueKind} : e.kind = .value kind → Sees source e (.value e) (.value e.content)
  /-- It leads to a document. -/
  | document {uri : String} {d : Document} : e.content = .node uri → source.fetchDocument uri = .ok d →
      Sees source e (.node e.key.text d) (.document d)

namespace Source

section

variable {source : Source} {e : Element} {v : View} {item : Item}

theorem sees_of_view (h : source.view e = .ok v) : ∃ item, source.Sees e v item := by
  obtain ⟨key, content⟩ := e
  cases content with
  | node uri =>
    cases hf : source.fetchDocument uri with
    | error f => simp [view, hf, Except.map] at h
    | ok d =>
      have hv : View.node key.text d = v := by simpa [view, hf, Except.map] using h
      exact ⟨.document d, hv ▸ .document rfl hf⟩
  | _ =>
    cases h
    exact ⟨_, .value rfl⟩

theorem sees_of_item (h : source.item e = .ok item) : ∃ v, source.Sees e v item := by
  obtain ⟨key, content⟩ := e
  cases content with
  | node uri =>
    cases hf : source.fetchDocument uri with
    | error f => simp [Source.item, hf, Except.map] at h
    | ok d =>
      have hi : Item.document d = item := by simpa [Source.item, hf, Except.map] using h
      exact ⟨.node key.text d, hi ▸ .document rfl hf⟩
  | _ =>
    cases h
    exact ⟨_, .value rfl⟩

namespace Sees

variable (h : source.Sees e v item)
include h

theorem view_eq : source.view e = .ok v := by
  cases h with
  | value hk =>
    obtain ⟨key, content⟩ := e
    cases content <;> first | rfl | cases hk
  | document hc hf => simp [view, hc, hf, Except.map]

theorem item_eq : source.item e = .ok item := by
  cases h with
  | value hk =>
    obtain ⟨key, content⟩ := e
    cases content <;> first | rfl | cases hk
  | document hc hf => simp [Source.item, hc, hf, Except.map]

theorem key_eq : v.key = e.key.text := by
  cases h <;> rfl

/-- A view answers to the kind of its element and to no other. -/
theorem answers_iff {kind : Kind} : v.Answers kind ↔ e.kind = kind := by
  cases h with
  | @value own hk =>
    cases kind with
    | value asked => by_cases he : own = asked <;> simp [View.Answers, View.asValue, hk, he]
    | node => simp [View.Answers, View.asNode, hk]
  | document hc hf =>
    have hk : e.kind = .node := by rw [Element.kind, hc, Content.kind]
    cases kind <;> simp [View.Answers, View.asValue, View.asNode, hk]

theorem shows : v.Shows item := by
  cases h with
  | value hk =>
    obtain ⟨key, content⟩ := e
    cases content with
    | string s => exact .string rfl rfl
    | number x => exact .number rfl rfl
    | file contentType uri => exact .file rfl rfl
    | node uri => cases hk
  | document hc hf => exact .document rfl

end Sees

end

/-! ### Elements under a key -/

/-- Elements have views and items, one by one and in order. -/
inductive SeesAll (source : Source) : List Element → List View → List Item → Prop
  /-- There are no more elements. -/
  | nil : SeesAll source [] [] []
  /-- The first element and the others. -/
  | cons {e : Element} {v : View} {item : Item} {es : List Element} {views : List View} {items : List Item} :
      source.Sees e v item → SeesAll source es views items →
      SeesAll source (e :: es) (v :: views) (item :: items)

section

variable {source : Source} {es : List Element} {views : List View} {items : List Item}

theorem exists_items_of_views (h : List.Forall₂ (fun e v => source.view e = .ok v) es views) :
    ∃ items, source.SeesAll es views items := by
  induction h with
  | nil => exact ⟨[], .nil⟩
  | cons hv _ ih =>
    obtain ⟨item, hs⟩ := sees_of_view hv
    obtain ⟨items, hall⟩ := ih
    exact ⟨item :: items, .cons hs hall⟩

theorem exists_views_of_items (h : List.Forall₂ (fun e item => source.item e = .ok item) es items) :
    ∃ views, source.SeesAll es views items := by
  induction h with
  | nil => exact ⟨[], .nil⟩
  | cons hi _ ih =>
    obtain ⟨v, hs⟩ := sees_of_item hi
    obtain ⟨views, hall⟩ := ih
    exact ⟨v :: views, .cons hs hall⟩

namespace SeesAll

theorem views_eq (h : source.SeesAll es views items) :
    List.Forall₂ (fun e v => source.view e = .ok v) es views := by
  induction h with
  | nil => exact .nil
  | cons hs _ ih => exact .cons hs.view_eq ih

theorem items_eq (h : source.SeesAll es views items) :
    List.Forall₂ (fun e item => source.item e = .ok item) es items := by
  induction h with
  | nil => exact .nil
  | cons hs _ ih => exact .cons hs.item_eq ih

theorem shows (h : source.SeesAll es views items) : List.Forall₂ View.Shows views items := by
  induction h with
  | nil => exact .nil
  | cons hs _ ih => exact .cons hs.shows ih

/-- Each view stands for an element: it has the element's key and answers to the element's kind. -/
theorem elements (h : source.SeesAll es views items) :
    List.Forall₂ (fun e v => v.key = e.key.text ∧ ∀ kind, v.Answers kind ↔ e.kind = kind) es views := by
  induction h with
  | nil => exact .nil
  | cons hs _ ih => exact .cons ⟨hs.key_eq, fun _ => hs.answers_iff⟩ ih

end SeesAll

/-- The view of an element that may be there. -/
theorem view_of_rel {o : Option Element} {w : Option View}
    (h : Option.Rel (fun e v => source.view e = .ok v) o w) :
    (match o with
      | some e => (source.view e).map some
      | none => .ok none) = Except.ok w := by
  cases h with
  | none => rfl
  | some hv =>
    dsimp only
    rw [hv]
    rfl

end

/-- What is asked of navigation and of reading by a field. -/
structure NavigatesAlike (source : Source) (d : Document) (key : String) (f : Field) : Prop where
  /-- What a field gives is found under its key, by views of its kind that show the items in order. -/
  found : ∀ value, source.readField d key f = .ok value → ∃ views items,
    source.find d key = .ok views ∧ value.MadeOf f.multiple items ∧ List.Forall₂ View.Shows views items ∧
      ∀ v ∈ views, v.key = key ∧ v.Answers f.kind
  /-- The first and the last of what is found are given by themselves, and nothing where there is none. -/
  ends : ∀ views, source.find d key = .ok views →
    source.first d key = .ok views.head? ∧ source.last d key = .ok views.getLast?
  /-- What is found is given by a field to whose kind all views answer, where there is one if the key may
  not repeat. -/
  read : ∀ views, source.find d key = .ok views → (∀ v ∈ views, v.Answers f.kind) →
    (f.multiple = false → views.length = 1) → ∃ value items,
      source.readField d key f = .ok value ∧ value.MadeOf f.multiple items ∧ List.Forall₂ View.Shows views items

/-- **Navigation agrees with reading by a field**, whatever stands under the key and whatever the source
holds. -/
theorem navigatesAlike (source : Source) (d : Document) (key : String) (f : Field) :
    source.NavigatesAlike d key f where
  found value h := by
    obtain ⟨-, hkinds, items, hitems, hm⟩ := readField_eq_ok_iff.1 h
    obtain ⟨views, hall⟩ := exists_views_of_items (mapM_eq_ok_iff.1 hitems)
    refine ⟨views, items, mapM_eq_ok_iff.2 hall.views_eq, hm, hall.shows, fun v hv => ?_⟩
    obtain ⟨e, he, hkey, hanswers⟩ := exists_of_mem_right hall.elements v hv
    exact ⟨hkey.trans (Document.mem_elementsFor.1 he).2, (hanswers f.kind).2 (hkinds e he)⟩
  ends views h := by
    have hviews := mapM_eq_ok_iff.1 h
    exact ⟨view_of_rel (rel_head? hviews), view_of_rel (rel_getLast? hviews)⟩
  read views h hanswers hcount := by
    obtain ⟨items, hall⟩ := exists_items_of_views (mapM_eq_ok_iff.1 h)
    have hkinds : ∀ e ∈ d.elementsFor key, e.kind = f.kind := by
      intro e he
      obtain ⟨v, hv, -, hkind⟩ := exists_of_mem_left hall.elements e he
      exact (hkind f.kind).1 (hanswers v hv)
    have hlength : f.multiple = true ∨ views.length = 1 := by
      cases hm : f.multiple with
      | true => exact .inl rfl
      | false => exact .inr (hcount hm)
    obtain ⟨value, hm⟩ := FieldValue.exists_madeOf (hlength.imp_right hall.shows.length_eq.symm.trans)
    refine ⟨value, items, readField_eq_ok_iff.2 ⟨?_, hkinds, items, mapM_eq_ok_iff.2 hall.items_eq, hm⟩, hm,
      hall.shows⟩
    exact hlength.imp_right hall.views_eq.length_eq.trans

end Source

end ContentGraph
