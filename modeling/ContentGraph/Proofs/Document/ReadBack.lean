import ContentGraph.Document.FieldReading
import ContentGraph.Proofs.Document.Elements
import ContentGraph.Proofs.Lists

/-!
# Documents read back

`Gives` says that a document, read field by field by a type, gives a payload: a value for a value,
a list for the items of a field that may repeat, and below a node field what the referenced
document gives. A document that a payload in normal form stands for gives that payload, where
everything beneath it is held (`Payload.Normal.gives`).
-/

namespace ContentGraph

mutual

/-- A document, read by a type, gives a payload. -/
inductive Gives (source : Source) (types : Catalogue) : NodeType → Document → Json → Prop
  /-- Its fields give the members. -/
  | object {t : NodeType} {d : Document} {vs : List (String × Json)} :
      FieldsGive source types d t.fields.entries vs → Gives source types t d (.object vs)

/-- The fields of a document give members, in order. -/
inductive FieldsGive (source : Source) (types : Catalogue) :
    Document → List (String × Field) → List (String × Json) → Prop
  /-- There are no more fields. -/
  | nil {d : Document} : FieldsGive source types d [] []
  /-- What is read of the first field gives the first member. -/
  | cons {d : Document} {key : String} {f : Field} {fields : List (String × Field)}
      {value : FieldValue} {v : Json} {vs : List (String × Json)} :
      source.readField d key f = .ok value → ValueGives source types f value v →
      FieldsGive source types d fields vs →
      FieldsGive source types d ((key, f) :: fields) ((key, v) :: vs)

/-- What a document holds under a field gives a value. -/
inductive ValueGives (source : Source) (types : Catalogue) : Field → FieldValue → Json → Prop
  /-- The item of a field that stands once. -/
  | one {shape : Shape} {item : Item} {v : Json} : ItemGives source types shape item v →
      ValueGives source types ⟨shape, false⟩ (.one item) v
  /-- The items of a field that may repeat. -/
  | many {shape : Shape} {items : List Item} {vs : List Json} :
      ItemsGive source types shape items vs →
      ValueGives source types ⟨shape, true⟩ (.many items) (.list vs)

/-- Items give values, one by one. -/
inductive ItemsGive (source : Source) (types : Catalogue) : Shape → List Item → List Json → Prop
  /-- There are no more items. -/
  | nil {shape : Shape} : ItemsGive source types shape [] []
  /-- The first item and the others. -/
  | cons {shape : Shape} {item : Item} {items : List Item} {v : Json} {vs : List Json} :
      ItemGives source types shape item v → ItemsGive source types shape items vs →
      ItemsGive source types shape (item :: items) (v :: vs)

/-- One item gives a value. -/
inductive ItemGives (source : Source) (types : Catalogue) : Shape → Item → Json → Prop
  /-- A text. -/
  | string {s : String} :
      ItemGives source types (.value .string) (.value (.string s)) (.text s)
  /-- A number. -/
  | number {x : Binary} :
      ItemGives source types (.value .number) (.value (.number x)) (.number x)
  /-- A file. -/
  | file {contentType uri : String} :
      ItemGives source types (.value .file) (.value (.file contentType uri))
        (.object [("contentType", .text contentType), ("uri", .text uri)])
  /-- A document, read by the type that the field leads to. -/
  | document {schemas : List String} {target : String} {t : NodeType} {d : Document} {v : Json} :
      types.get? target = some t → Gives source types t d v →
      ItemGives source types (.node schemas target) (.document d) v

end

/-! ### Reading a field -/

/-- The kind of what stands under a shape. -/
def Shape.kind : Shape → Kind
  | .value kind => .value kind
  | .node _ _ => .node

theorem Field.kind_eq (f : Field) : f.kind = f.shape.kind := by
  obtain ⟨shape, multiple⟩ := f
  cases shape <;> rfl

section

variable {source : Source} {d : Document} {key : String} {shape : Shape} {es : List Element}

/-- What a document holds under a field is made of items: one where the key stands once, and all of them
where it may repeat. -/
inductive FieldValue.MadeOf : Bool → FieldValue → List Item → Prop
  /-- The item of a key that stands once. -/
  | one {item : Item} : MadeOf false (.one item) [item]
  /-- The items of a key that may repeat. -/
  | many {items : List Item} : MadeOf true (.many items) items

theorem FieldValue.exists_madeOf {multiple : Bool} {items : List Item}
    (h : multiple = true ∨ items.length = 1) : ∃ value : FieldValue, value.MadeOf multiple items := by
  cases multiple with
  | true => exact ⟨.many items, .many⟩
  | false =>
    obtain ⟨item, rfl⟩ := List.length_eq_one_iff.1 (h.resolve_left Bool.false_ne_true)
    exact ⟨.one item, .one⟩

theorem findSome?_kindFailure?_eq_none_iff {f : Field} :
    es.findSome? f.kindFailure? = none ↔ ∀ e ∈ es, e.kind = f.kind := by
  rw [List.findSome?_eq_none_iff]
  refine forall_congr' fun e => imp_congr_right fun _ => ?_
  unfold Field.kindFailure?
  split
  · next h => exact iff_of_true rfl h
  · next h => exact iff_of_false nofun h

/-- **A field is read** where its key stands as often as it asks for, by elements of its kind that lead to
documents where they lead anywhere, and what is read are the items of these elements in order. -/
theorem Source.readField_eq_ok_iff {f : Field} {value : FieldValue} :
    source.readField d key f = .ok value ↔ (f.multiple = true ∨ (d.elementsFor key).length = 1) ∧
      (∀ e ∈ d.elementsFor key, e.kind = f.kind) ∧
        ∃ items, (d.elementsFor key).mapM source.item = .ok items ∧ value.MadeOf f.multiple items := by
  obtain ⟨shape, multiple⟩ := f
  unfold readField
  dsimp only
  rw [← findSome?_kindFailure?_eq_none_iff]
  constructor
  · intro h
    split at h
    · cases h
    · next hcount =>
      split at h
      · cases h
      · next hkinds =>
        split at h
        · cases h
        · next items hitems =>
          cases multiple with
          | true =>
            cases h
            exact ⟨.inl rfl, hkinds, items, hitems, .many⟩
          | false =>
            have hone : (d.elementsFor key).length = 1 := by simpa using hcount
            have hlength := (mapM_eq_ok_iff.1 hitems).length_eq
            obtain ⟨item, rfl⟩ := List.length_eq_one_iff.1 (hlength.symm.trans hone)
            cases h
            exact ⟨.inr hone, hkinds, [item], hitems, .one⟩
  · rintro ⟨hcount, hkinds, items, hitems, hm⟩
    rw [if_neg (by cases hm <;> simp_all), hkinds, hitems]
    cases hm <;> rfl

theorem readField_many {items : List Item} (he : d.elementsFor key = es)
    (hk : ∀ e ∈ es, e.kind = shape.kind) (hi : es.mapM source.item = .ok items) :
    source.readField d key ⟨shape, true⟩ = .ok (.many items) := by
  subst he
  exact Source.readField_eq_ok_iff.2 ⟨.inl rfl, Field.kind_eq ⟨shape, true⟩ ▸ hk, items, hi, .many⟩

theorem readField_one {e : Element} {item : Item} (he : d.elementsFor key = [e])
    (hk : e.kind = shape.kind) (hi : source.item e = .ok item) :
    source.readField d key ⟨shape, false⟩ = .ok (.one item) := by
  have hitems : (d.elementsFor key).mapM source.item = .ok [item] :=
    mapM_eq_ok_iff.2 (he ▸ .cons hi .nil)
  refine Source.readField_eq_ok_iff.2 ⟨.inr (by rw [he]; rfl), fun x hx => ?_, [item], hitems, .one⟩
  rw [he, List.mem_singleton] at hx
  rw [hx, hk, Field.kind_eq]

end

/-! ### Elements of a payload -/

namespace Payload

variable {types : Catalogue} {lead version key : String}

/-- What the element of a value holds. -/
inductive Written (types : Catalogue) (lead version : String) : Shape → Json → Content → Prop
  /-- A text. -/
  | string {s : String} : Written types lead version (.value .string) (.text s) (.string s)
  /-- A number. -/
  | number {x : Binary} : Written types lead version (.value .number) (.number x) (.number x)
  /-- A file. -/
  | file {contentType uri : String} : Written types lead version (.value .file)
      (.object [("contentType", .text contentType), ("uri", .text uri)]) (.file contentType uri)
  /-- The address of the document of a nested payload. -/
  | node {schemas : List String} {target : String} {t : NodeType} {v : Json} {d : Document} :
      types.get? target = some t →
      (Plan.ofPayload types t schemas v).realised? lead version = some d →
      Written types lead version (.node schemas target) v (.node ((Resource.document d).address lead))

theorem Written.kind_eq {shape : Shape} {v : Json} {content : Content}
    (h : Written types lead version shape v content) : content.kind = shape.kind := by
  cases h <;> rfl

/-- The element of a value has the key of its field and holds the value. -/
theorem NormalItem.written {shape : Shape} {v : Json} {e : Element} (h : NormalItem types shape v)
    (he : itemElement? types lead version key shape v = some e) :
    e.key.text = key ∧ Written types lead version shape v e.content := by
  have hof : ∃ content, Element.ofKey key content = .ok e ∧ Written types lead version shape v content := by
    cases h with
    | @string s =>
      rw [itemElement?, Plan.valueElement, Element.readString_eq, Checked.toOption_toExcept] at he
      exact ⟨.string s, Checked.toOption_eq_some_iff.1 he, .string⟩
    | @number x =>
      rw [itemElement?, Plan.valueElement, Element.readNumber_eq, Checked.toOption_toExcept] at he
      exact ⟨.number x, Checked.toOption_eq_some_iff.1 he, .number⟩
    | @file contentType uri =>
      have hv : Plan.valueElement key .file (.object [("contentType", .text contentType), ("uri", .text uri)])
          = (Element.ofKey key (.file contentType uri)).toExcept := by
        rw [← Element.readFile_eq]
        rfl
      rw [itemElement?, hv, Checked.toOption_toExcept] at he
      exact ⟨.file contentType uri, Checked.toOption_eq_some_iff.1 he, .file⟩
    | node ht _ =>
      rw [itemElement?, ht, Option.bind_some] at he
      obtain ⟨d, hd, he⟩ := Option.bind_eq_some_iff.1 he
      exact ⟨_, Checked.toOption_eq_some_iff.1 he, .node ht hd⟩
  obtain ⟨content, hc, hw⟩ := hof
  obtain ⟨hk, rfl⟩ := Element.ofKey_eq_ok hc
  exact ⟨hk, hw⟩

theorem NormalItems.key_kind {shape : Shape} : ∀ {vs : List Json} {es : List Element},
    NormalItems types shape vs → vs.mapM (itemElement? types lead version key shape) = some es →
    ∀ e ∈ es, e.key.text = key ∧ e.kind = shape.kind
  | [], _, _, h => by
    cases h
    simp
  | v :: vs, _, .cons hv hvs, h => by
    rw [List.mapM_cons] at h
    obtain ⟨e, he, h⟩ := Option.bind_eq_some_iff.1 h
    obtain ⟨es, hes, h⟩ := Option.bind_eq_some_iff.1 h
    cases h
    obtain ⟨hk, hw⟩ := hv.written he
    exact List.forall_mem_cons.2 ⟨⟨hk, hw.kind_eq⟩, NormalItems.key_kind hvs hes⟩

/-- The portions of the fields of a payload. -/
abbrev portions (types : Catalogue) (ms : List (String × Json)) (fields : List (String × Field)) :
    List Portion :=
  fields.map fun e => Plan.portion types ms (Plan.planMembers types ms) e.1 e.2

/-- The elements of the first field and those of the others. -/
theorem portionsElements?_cons {ms : List (String × Json)} {f : Field} {v : Json}
    {fields : List (String × Field)} {es : List Element} (hm : Table.find key ms = some v)
    (hv : NormalField types f v)
    (h : portionsElements? lead version (portions types ms ((key, f) :: fields)) = some es) :
    ∃ here others, (fieldValues f v).mapM (itemElement? types lead version key f.shape) = some here ∧
      portionsElements? lead version (portions types ms fields) = some others ∧ es = here ++ others ∧
      portionsBeneath lead version (portions types ms ((key, f) :: fields))
        = (fieldValues f v).flatMap (itemDocuments types lead version f.shape)
          ++ portionsBeneath lead version (portions types ms fields) := by
  rw [portions, List.map_cons, portionsElements?, portion_eq hm] at h
  obtain ⟨here, hhere, h⟩ := Option.bind_eq_some_iff.1 h
  obtain ⟨others, ho, rfl⟩ := Option.map_eq_some_iff.1 h
  have ht := targeted_of_elements? hhere
  rw [elements?_fieldPortion hv ht] at hhere
  refine ⟨here, others, hhere, ho, rfl, ?_⟩
  rw [portions, List.map_cons, portionsBeneath, portion_eq hm, beneath_fieldPortion hv ht]

theorem NormalFields.keys {ms : List (String × Json)} : ∀ {fields : List (String × Field)}
    {vs : List (String × Json)} {es : List Element}, NormalFields types fields vs →
    (∀ m ∈ vs, Table.find m.1 ms = some m.2) →
    portionsElements? lead version (portions types ms fields) = some es →
    ∀ e ∈ es, e.key.text ∈ fields.map Prod.fst
  | [], _, _, .nil, _, h => by
    cases h
    simp
  | (key, f) :: fields, _, _, .cons hv hvs, hm, h => by
    obtain ⟨hm1, hm2⟩ := List.forall_mem_cons.1 hm
    obtain ⟨here, others, hhere, ho, rfl, -⟩ := portionsElements?_cons hm1 hv h
    intro e he
    rcases List.mem_append.1 he with he | he
    · rw [((hv.items.key_kind hhere) e he).1]
      exact List.mem_cons_self
    · exact List.mem_cons_of_mem _ (NormalFields.keys hvs hm2 ho e he)

/-- The elements under a key are those of the values under its field. -/
theorem NormalFields.elementsFor {ms : List (String × Json)} : ∀ {fields : List (String × Field)}
    {vs : List (String × Json)} {es : List Element}, NormalFields types fields vs →
    (fields.map Prod.fst).Nodup → (∀ m ∈ vs, Table.find m.1 ms = some m.2) →
    portionsElements? lead version (portions types ms fields) = some es →
    ∀ key f v, (key, f) ∈ fields → Table.find key ms = some v →
      (fieldValues f v).mapM (itemElement? types lead version key f.shape)
        = some (es.filter fun e => e.key.text = key)
  | [], _, _, .nil, _, _, _ => fun _ _ _ hf _ => absurd hf List.not_mem_nil
  | (first, f) :: fields, _, _, .cons hv hvs, hn, hm, h => by
    obtain ⟨hm1, hm2⟩ := List.forall_mem_cons.1 hm
    obtain ⟨hfirst, hn⟩ := List.nodup_cons.1 hn
    obtain ⟨here, others, hhere, ho, rfl, -⟩ := portionsElements?_cons hm1 hv h
    -- the elements under the first key are its own, and none of them stands under another key
    obtain ⟨hown, hrest⟩ := filter_key_append (fun e he => (hv.items.key_kind hhere e he).1)
      (NormalFields.keys hvs hm2 ho) hfirst
    intro key f' v' hf hv'
    rcases List.mem_cons.1 hf with he | hf
    · cases he
      cases hm1.symm.trans hv'
      rw [hown]
      exact hhere
    · rw [hrest key (List.mem_map_of_mem hf)]
      exact NormalFields.elementsFor hvs hn hm2 ho key f' v' hf hv'

/-- The documents that are stored for the values under a key. -/
def documentsAt (types : Catalogue) (lead version : String) (ms : List (String × Json)) (key : String)
    (f : Field) : List Document :=
  (((Table.find key ms).map (fieldValues f)).getD []).flatMap (itemDocuments types lead version f.shape)

theorem documentsAt_eq {ms : List (String × Json)} {v : Json} (h : Table.find key ms = some v) (f : Field) :
    documentsAt types lead version ms key f
      = (fieldValues f v).flatMap (itemDocuments types lead version f.shape) := by
  rw [documentsAt, h]
  rfl

/-- What is beneath the portions of a payload is what is stored for the values under its keys. -/
theorem NormalFields.beneath {ms : List (String × Json)} : ∀ {fields : List (String × Field)}
    {vs : List (String × Json)} {es : List Element}, NormalFields types fields vs →
    (∀ m ∈ vs, Table.find m.1 ms = some m.2) →
    portionsElements? lead version (portions types ms fields) = some es →
    portionsBeneath lead version (portions types ms fields)
      = fields.flatMap fun e => documentsAt types lead version ms e.1 e.2
  | [], _, _, .nil, _, _ => rfl
  | (key, f) :: fields, _, _, .cons hv hvs, hm, h => by
    obtain ⟨hm1, hm2⟩ := List.forall_mem_cons.1 hm
    obtain ⟨here, others, -, ho, rfl, hb⟩ := portionsElements?_cons hm1 hv h
    rw [hb, NormalFields.beneath hvs hm2 ho, List.flatMap_cons, documentsAt_eq hm1]

/-- A document is the one that the plan of a payload stands for, key by key. -/
structure Realises (types : Catalogue) (lead version : String) (t : NodeType) (schemas : List String)
    (vs : List (String × Json)) (d : Document) : Prop where
  /-- It has the version that is written. -/
  version_eq : d.version = version
  /-- It advertises the schemas of the plan. -/
  schemas_eq : d.schemas = schemas
  /-- It has no keys but those of the type. -/
  knows : ∀ e ∈ d.elements, e.key.text ∈ t.fields.keys
  /-- Under each key stand the elements of the values there. -/
  elements : ∀ key f v, t.fields.get? key = some f → Table.find key vs = some v →
    (fieldValues f v).mapM (itemElement? types lead version key f.shape) = some (d.elementsFor key)
  /-- Beneath it is what is stored for the values under its keys. -/
  beneath : (Plan.ofPayload types t schemas (.object vs)).beneath lead version
    = t.fields.entries.flatMap fun e => documentsAt types lead version vs e.1 e.2

/-- **The document that the plan of a payload stands for, key by key.** -/
theorem Normal.realises {t : NodeType} {schemas : List String} {vs : List (String × Json)} {d : Document}
    (h : Normal types t (.object vs))
    (hd : (Plan.ofPayload types t schemas (.object vs)).realised? lead version = some d) :
    Realises types lead version t schemas vs d := by
  obtain ⟨hf⟩ := h
  obtain ⟨es, hes, rfl⟩ := Option.map_eq_some_iff.1
    (show (portionsElements? lead version (portions types vs t.fields.entries)).map
      (fun es => (⟨version, schemas, es⟩ : Document)) = some d from hd)
  have hn : (vs.map Prod.fst).Nodup := hf.keys_eq ▸ t.fields.nodup
  have hm : ∀ m ∈ vs, Table.find m.1 vs = some m.2 := fun m hm => Table.find_of_mem hn hm
  exact ⟨rfl, rfl, hf.keys hm hes, fun key f v hget => hf.elementsFor t.fields.nodup hm hes key f v
    (Table.get?_eq_some_iff.1 hget), hf.beneath hm hes⟩

/-! ### Reading what was written -/

variable {g : Gateway}

mutual

/-- A document that a payload stands for gives the payload, where what is beneath it is held. -/
theorem Normal.gives (hg : g.Fetches) : ∀ {t : NodeType} {v : Json} {schemas : List String} {d : Document},
    Normal types t v → (Plan.ofPayload types t schemas v).realised? g.store.lead version = some d →
    g.store.HoldsAll ((Plan.ofPayload types t schemas v).beneath g.store.lead version) →
    Gives g.source types t d v
  | t, .object vs, schemas, d, .object hf, hd, hb => by
    have hreal := (Normal.object hf).realises hd
    rw [hreal.beneath] at hb
    have hn : (vs.map Prod.fst).Nodup := hf.keys_eq ▸ t.fields.nodup
    exact .object (NormalFields.give hg hf (fun m hm => Table.find_of_mem hn hm)
      (fun key f v he => hreal.elements key f v (Table.get?_eq_some_iff.2 he))
      fun e he x hx => hb x (List.mem_flatMap.2 ⟨e, he, hx⟩))

theorem NormalFields.give (hg : g.Fetches) {ms : List (String × Json)} {d : Document} :
    ∀ {fields : List (String × Field)} {vs : List (String × Json)}, NormalFields types fields vs →
    (∀ m ∈ vs, Table.find m.1 ms = some m.2) →
    (∀ key f v, (key, f) ∈ fields → Table.find key ms = some v →
      (fieldValues f v).mapM (itemElement? types g.store.lead version key f.shape)
        = some (d.elementsFor key)) →
    (∀ e ∈ fields, g.store.HoldsAll (documentsAt types g.store.lead version ms e.1 e.2)) →
    FieldsGive g.source types d fields vs
  | _, _, .nil, _, _, _ => .nil
  | (key, f) :: fields, (_, v) :: vs, .cons hv hvs, hm, hes, hb => by
    obtain ⟨hm1, hm2⟩ := List.forall_mem_cons.1 hm
    obtain ⟨hfirst, hb⟩ := List.forall_mem_cons.1 hb
    rw [documentsAt_eq hm1] at hfirst
    obtain ⟨value, hr, hgv⟩ := NormalField.gives hg hv (hes key f v List.mem_cons_self hm1) hfirst rfl
    exact .cons hr hgv (NormalFields.give hg hvs hm2
      (fun key f v he => hes key f v (List.mem_cons_of_mem _ he)) hb)

theorem NormalField.gives (hg : g.Fetches) : ∀ {f : Field} {v : Json} {key : String} {es : List Element}
    {d : Document}, NormalField types f v →
    (fieldValues f v).mapM (itemElement? types g.store.lead version key f.shape) = some es →
    g.store.HoldsAll ((fieldValues f v).flatMap (itemDocuments types g.store.lead version f.shape)) →
    d.elementsFor key = es →
    ∃ value, g.source.readField d key f = .ok value ∧ ValueGives g.source types f value v
  | ⟨shape, false⟩, v, key, es, d, .one hv, hes, hb, hd => by
    have hes' : [v].mapM (itemElement? types g.store.lead version key shape) = some es := hes
    have hb' : g.store.HoldsAll ([v].flatMap (itemDocuments types g.store.lead version shape)) := hb
    rw [List.mapM_cons] at hes'
    obtain ⟨e, he, hes'⟩ := Option.bind_eq_some_iff.1 hes'
    cases hes'
    rw [List.flatMap_singleton] at hb'
    obtain ⟨item, hi, hgi⟩ := NormalItem.gives hg hv he hb'
    exact ⟨_, readField_one hd ((hv.written he).2.kind_eq) hi, .one hgi⟩
  | ⟨shape, true⟩, .list vs, key, es, d, .many hvs, hes, hb, hd => by
    obtain ⟨items, hi, hgi⟩ := NormalItems.give hg hvs hes hb
    exact ⟨_, readField_many hd (fun e he => (hvs.key_kind hes e he).2) hi, .many hgi⟩

theorem NormalItems.give (hg : g.Fetches) : ∀ {shape : Shape} {vs : List Json} {key : String}
    {es : List Element}, NormalItems types shape vs →
    vs.mapM (itemElement? types g.store.lead version key shape) = some es →
    g.store.HoldsAll (vs.flatMap (itemDocuments types g.store.lead version shape)) →
    ∃ items, es.mapM g.source.item = .ok items ∧ ItemsGive g.source types shape items vs
  | _, _, _, _, .nil, hes, _ => by
    cases hes
    exact ⟨[], rfl, .nil⟩
  | _, v :: vs, _, _, .cons hv hvs, hes, hb => by
    rw [List.mapM_cons] at hes
    obtain ⟨e, he, hes⟩ := Option.bind_eq_some_iff.1 hes
    obtain ⟨es, hes', hes⟩ := Option.bind_eq_some_iff.1 hes
    cases hes
    rw [List.flatMap_cons] at hb
    obtain ⟨item, hi, hgi⟩ := NormalItem.gives hg hv he (fun d hd => hb d (List.mem_append_left _ hd))
    obtain ⟨items, his, hgis⟩ := NormalItems.give hg hvs hes' (fun d hd => hb d (List.mem_append_right _ hd))
    refine ⟨item :: items, ?_, .cons hgi hgis⟩
    rw [List.mapM_cons, hi, his]
    rfl

theorem NormalItem.gives (hg : g.Fetches) : ∀ {shape : Shape} {v : Json} {key : String} {e : Element},
    NormalItem types shape v → itemElement? types g.store.lead version key shape v = some e →
    g.store.HoldsAll (itemDocuments types g.store.lead version shape v) →
    ∃ item, g.source.item e = .ok item ∧ ItemGives g.source types shape item v
  | _, _, _, e, .string, he, _ => by
    have hw := (NormalItem.string.written he).2
    unfold Source.item
    generalize e.content = content at hw
    cases hw
    exact ⟨_, rfl, .string⟩
  | _, _, _, e, .number, he, _ => by
    have hw := (NormalItem.number.written he).2
    unfold Source.item
    generalize e.content = content at hw
    cases hw
    exact ⟨_, rfl, .number⟩
  | _, _, _, e, .file, he, _ => by
    have hw := (NormalItem.file.written he).2
    unfold Source.item
    generalize e.content = content at hw
    cases hw
    exact ⟨_, rfl, .file⟩
  | .node schemas target, v, key, e, .node ht hn, he, hb => by
    have hw := ((NormalItem.node ht hn).written he).2
    unfold Source.item
    generalize e.content = content at hw
    cases hw with
    | node ht' hd =>
      rw [Option.some.inj (ht'.symm.trans ht)] at hd
      rw [itemDocuments_node ht] at hb
      have hheld : g.store.Holds (.document _) := hb _ (Plan.mem_documents_of_realised? hd)
      have hgd := Normal.gives hg hn hd fun d hd => hb d (List.mem_append_left _ hd)
      refine ⟨.document _, ?_, .document ht hgd⟩
      dsimp only
      rw [Gateway.fetchDocument_of_holds (hg _) hheld]
      rfl

end

end Payload

end ContentGraph
