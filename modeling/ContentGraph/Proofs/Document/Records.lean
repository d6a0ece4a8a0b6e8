import ContentGraph.Proofs.Document.Portions
import ContentGraph.Proofs.Payload.Reading

/-!
# Documents that record payloads

A document records a payload in normal form when it has no keys but those of the type, under each key
stand the elements of the values under that key, one by one, and the documents that its references
lead to record the nested payloads (`Records`). The elements of different keys may stand in any order.

A document that records a payload is one of its type (`Records.validateDocument`), and what is read
of it field by field is the payload (`Records.gives`). Documents that record one payload have under
each key the same elements, but that a reference may lead elsewhere, to a document of which this holds
again (`Records.resembles`).
-/

namespace ContentGraph

/-! ### Documents of a type -/

/-- A document has no other keys than a type. -/
def NodeType.Knows (t : NodeType) (d : Document) : Prop := ∀ e ∈ d.elements, e.key.text ∈ t.fields.keys

theorem Document.mem_elementsFor {d : Document} {key : String} {e : Element} :
    e ∈ d.elementsFor key ↔ e ∈ d.elements ∧ e.key.text = key := by
  rw [elementsFor, List.mem_filter, decide_eq_true_eq]

theorem NodeType.elementFailure?_eq_none_iff {t : NodeType} {e : Element} :
    t.elementFailure? e = none ↔ ∃ f, t.fields.get? e.key.text = some f ∧ e.kind = f.kind := by
  unfold elementFailure?
  cases t.fields.get? e.key.text <;> simp

theorem Document.cardinalityFailure?_eq_none_iff {d : Document} {key : String} {f : Field} :
    d.cardinalityFailure? key f = none ↔ f.multiple = true ∨ (d.elementsFor key).length = 1 := by
  unfold cardinalityFailure?
  cases f.multiple <;> simp

/-- The pass over the elements finds no failure. -/
theorem NodeType.elementFailures_eq_none_iff {t : NodeType} {d : Document} :
    d.elements.findSome? t.elementFailure? = none ↔
      t.Knows d ∧ ∀ key f, t.fields.get? key = some f → ∀ e ∈ d.elementsFor key, e.kind = f.kind := by
  rw [List.findSome?_eq_none_iff]
  constructor
  · intro h
    refine ⟨fun e he => ?_, fun key f ht e he => ?_⟩
    · obtain ⟨f, ht, -⟩ := elementFailure?_eq_none_iff.1 (h e he)
      exact Table.mem_keys_iff.2 ⟨f, ht⟩
    · obtain ⟨hm, rfl⟩ := Document.mem_elementsFor.1 he
      obtain ⟨f', ht', hk⟩ := elementFailure?_eq_none_iff.1 (h e hm)
      cases ht.symm.trans ht'
      exact hk
  · rintro ⟨hknown, hkinds⟩ e he
    obtain ⟨f, ht⟩ := Table.mem_keys_iff.1 (hknown e he)
    have hk := hkinds _ f ht e (Document.mem_elementsFor.2 ⟨he, rfl⟩)
    exact elementFailure?_eq_none_iff.2 ⟨f, ht, hk⟩

/-- The pass over the fields finds no failure. -/
theorem NodeType.cardinalityFailures_eq_none_iff {t : NodeType} {d : Document} :
    (t.fields.entries.findSome? fun e => d.cardinalityFailure? e.1 e.2) = none ↔
      ∀ key f, t.fields.get? key = some f → f.multiple = true ∨ (d.elementsFor key).length = 1 := by
  rw [List.findSome?_eq_none_iff]
  constructor
  · intro h key f ht
    exact Document.cardinalityFailure?_eq_none_iff.1 (h (key, f) (Table.get?_eq_some_iff.1 ht))
  · rintro h ⟨key, f⟩ he
    exact Document.cardinalityFailure?_eq_none_iff.2 (h key f (Table.get?_eq_some_iff.2 he))

/-- A document is one of a type where it has no other keys, every element has the kind of its field,
and every key that stands once does stand once. -/
theorem NodeType.validateDocument_eq_ok_iff {t : NodeType} {d d' : Document} :
    t.validateDocument d = .ok d' ↔ d' = d ∧ t.Knows d ∧ ∀ key f, t.fields.get? key = some f →
      (∀ e ∈ d.elementsFor key, e.kind = f.kind) ∧ (f.multiple = true ∨ (d.elementsFor key).length = 1) := by
  unfold validateDocument
  cases he : d.elements.findSome? t.elementFailure? with
  | some f =>
    refine iff_of_false nofun ?_
    rintro ⟨-, hknown, hf⟩
    cases he.symm.trans (elementFailures_eq_none_iff.2 ⟨hknown, fun key f ht => (hf key f ht).1⟩)
  | none =>
    obtain ⟨hknown, hkinds⟩ := elementFailures_eq_none_iff.1 he
    cases hc : t.fields.entries.findSome? fun e => d.cardinalityFailure? e.1 e.2 with
    | some f =>
      refine iff_of_false nofun ?_
      rintro ⟨-, -, hf⟩
      cases hc.symm.trans (cardinalityFailures_eq_none_iff.2 fun key f ht => (hf key f ht).2)
    | none =>
      have hcounts := cardinalityFailures_eq_none_iff.1 hc
      refine ⟨fun h => ?_, ?_⟩
      · cases h
        exact ⟨rfl, hknown, fun key f ht => ⟨hkinds key f ht, hcounts key f ht⟩⟩
      · rintro ⟨rfl, -⟩
        rfl

/-! ### What a document records -/

mutual

/-- A document records a payload of a type; `held` says which document stands at an address. -/
inductive Records (held : Document → String → Prop) (types : Catalogue) : NodeType → Document → Json → Prop
  /-- It has no other keys, and under each key it records the value that stands there. -/
  | object {t : NodeType} {d : Document} {vs : List (String × Json)} : t.Knows d →
      vs.map Prod.fst = t.fields.keys →
      (∀ key f v, t.fields.get? key = some f → Table.find key vs = some v →
        RecordsField held types f (d.elementsFor key) v) →
      Records held types t d (.object vs)

/-- Elements record the value of a field. -/
inductive RecordsField (held : Document → String → Prop) (types : Catalogue) :
    Field → List Element → Json → Prop
  /-- The value of a field that stands once. -/
  | one {shape : Shape} {e : Element} {v : Json} : RecordsItem held types shape e v →
      RecordsField held types ⟨shape, false⟩ [e] v
  /-- The values of a field that may repeat, one by one. -/
  | many {shape : Shape} {es : List Element} {vs : List Json} : es.length = vs.length →
      (∀ (n : ℕ) (e : Element) (v : Json), es[n]? = some e → vs[n]? = some v →
        RecordsItem held types shape e v) →
      RecordsField held types ⟨shape, true⟩ es (.list vs)

/-- An element records one value. -/
inductive RecordsItem (held : Document → String → Prop) (types : Catalogue) :
    Shape → Element → Json → Prop
  /-- A text. -/
  | string {e : Element} {s : String} : e.content = .string s →
      RecordsItem held types (.value .string) e (.text s)
  /-- A number. -/
  | number {e : Element} {x : Binary} : e.content = .number x →
      RecordsItem held types (.value .number) e (.number x)
  /-- A file. -/
  | file {e : Element} {contentType uri : String} : e.content = .file contentType uri →
      RecordsItem held types (.value .file) e
        (.object [("contentType", .text contentType), ("uri", .text uri)])
  /-- A nested payload, by a reference to a document that records it. -/
  | node {e : Element} {uri : String} {d : Document} {schemas : List String} {target : String}
      {t : NodeType} {v : Json} : e.content = .node uri → held d uri → types.get? target = some t →
      Records held types t d v → RecordsItem held types (.node schemas target) e v

end

variable {held held' : Document → String → Prop} {types : Catalogue}

/-- The elements of a field record its values one by one. -/
theorem RecordsField.items {f : Field} {es : List Element} {v : Json} (h : RecordsField held types f es v) :
    List.Forall₂ (RecordsItem held types f.shape) es (Payload.fieldValues f v) := by
  cases h with
  | one hi => exact .cons hi .nil
  | many hl hi => exact forall₂_iff_getElem?.2 ⟨hl, hi⟩

theorem RecordsField.of_items {f : Field} {es : List Element} {v : Json} (hv : Payload.NormalField types f v)
    (h : List.Forall₂ (RecordsItem held types f.shape) es (Payload.fieldValues f v)) :
    RecordsField held types f es v := by
  cases hv with
  | @one shape v _ =>
    have hone : List.Forall₂ (RecordsItem held types shape) es [v] := h
    obtain ⟨e, rest, hi, hrest, rfl⟩ := List.forall₂_cons_right_iff.1 hone
    cases List.forall₂_nil_right_iff.1 hrest
    exact .one hi
  | many _ =>
    obtain ⟨hl, hi⟩ := forall₂_iff_getElem?.1 h
    exact .many hl hi

theorem RecordsItem.kind_eq {shape : Shape} {e : Element} {v : Json}
    (h : RecordsItem held types shape e v) : e.kind = shape.kind := by
  cases h with
  | string hc | number hc | file hc | node hc _ _ _ => rw [Element.kind, hc]; rfl

theorem RecordsField.kind_eq {f : Field} {es : List Element} {v : Json}
    (h : RecordsField held types f es v) : ∀ e ∈ es, e.kind = f.kind := by
  intro e he
  obtain ⟨w, -, hi⟩ := exists_of_mem_left h.items e he
  rw [Field.kind_eq, hi.kind_eq]

/-- **A document that records a payload is one of its type.** -/
theorem Records.validateDocument {t : NodeType} {d : Document} {v : Json}
    (h : Records held types t d v) : t.validateDocument d = .ok d := by
  obtain ⟨hknows, hkeys, hf⟩ := h
  refine NodeType.validateDocument_eq_ok_iff.2 ⟨rfl, hknows, fun key f ht => ?_⟩
  obtain ⟨v, hv⟩ := Table.exists_find (hkeys ▸ Table.mem_keys_iff.2 ⟨f, ht⟩)
  have hrec := hf key f v ht hv
  refine ⟨hrec.kind_eq, ?_⟩
  generalize d.elementsFor key = es at hrec
  cases hrec with
  | one _ => exact .inr rfl
  | many _ _ => exact .inl rfl

mutual

/-- What is recorded is recorded where references lead further. -/
theorem Records.mono (hm : ∀ d uri, held d uri → held' d uri) : ∀ {t : NodeType} {d : Document} {v : Json},
    Records held types t d v → Records held' types t d v
  | _, _, _, .object hn hk hf => .object hn hk fun key f v ht hv => RecordsField.mono hm (hf key f v ht hv)

theorem RecordsField.mono (hm : ∀ d uri, held d uri → held' d uri) :
    ∀ {f : Field} {es : List Element} {v : Json},
    RecordsField held types f es v → RecordsField held' types f es v
  | _, _, _, .one hi => .one (RecordsItem.mono hm hi)
  | _, _, _, .many hl hi => .many hl fun n e v he hv => RecordsItem.mono hm (hi n e v he hv)

theorem RecordsItem.mono (hm : ∀ d uri, held d uri → held' d uri) :
    ∀ {shape : Shape} {e : Element} {v : Json},
    RecordsItem held types shape e v → RecordsItem held' types shape e v
  | _, _, _, .string hc => .string hc
  | _, _, _, .number hc => .number hc
  | _, _, _, .file hc => .file hc
  | _, _, _, .node hc hf ht hr => .node hc (hm _ _ hf) ht (Records.mono hm hr)

end

section

open Payload

mutual

/-- What is recorded is in normal form. -/
theorem Records.normal : ∀ {t : NodeType} {d : Document} {v : Json},
    Records held types t d v → Normal types t v
  | _, _, .object _, .object _ hk hf =>
    normal_object_iff.2 ⟨hk, fun key f v ht hv => RecordsField.normal (hf key f v ht hv)⟩

theorem RecordsField.normal : ∀ {f : Field} {es : List Element} {v : Json},
    RecordsField held types f es v → NormalField types f v
  | _, _, _, .one hi => .one (RecordsItem.normal hi)
  | _, es, .list vs, .many hl hi => by
    refine .many (normalItems_iff.2 fun v hv => ?_)
    obtain ⟨n, hn, rfl⟩ := List.mem_iff_getElem.1 hv
    exact RecordsItem.normal (hi n _ _ (List.getElem?_eq_getElem (hl ▸ hn)) (List.getElem?_eq_getElem hn))

theorem RecordsItem.normal : ∀ {shape : Shape} {e : Element} {v : Json},
    RecordsItem held types shape e v → NormalItem types shape v
  | _, _, _, .string _ => .string
  | _, _, _, .number _ => .number
  | _, _, _, .file _ => .file
  | _, _, _, .node _ _ ht hr => .node ht (Records.normal hr)

end

end

/-! ### Recorded payloads are read -/

/-- A source holds a document at an address. -/
def Source.Holds (source : Source) (d : Document) (address : String) : Prop :=
  source.fetchDocument address = .ok d

section

variable {source : Source}

theorem fieldsGive_of_forall₂ {d : Document} {fields : List (String × Field)} {vs : List (String × Json)}
    (h : List.Forall₂ (fun e m => m.1 = e.1 ∧ ∃ value, source.readField d e.1 e.2 = .ok value ∧
      ValueGives source types e.2 value m.2) fields vs) : FieldsGive source types d fields vs := by
  induction h with
  | nil => exact .nil
  | @cons e m _ _ hv _ ih =>
    obtain ⟨key, f⟩ := e
    obtain ⟨_, v⟩ := m
    obtain ⟨hk, value, hr, hg⟩ := hv
    cases hk
    exact .cons hr hg ih

/-- Items that are read one by one give values. -/
theorem exists_itemsGive {shape : Shape} {es : List Element} {vs : List Json}
    (h : List.Forall₂ (fun e v => ∃ item, source.item e = .ok item ∧ ItemGives source types shape item v) es vs) :
    ∃ items, es.mapM source.item = .ok items ∧ ItemsGive source types shape items vs := by
  induction h with
  | nil => exact ⟨[], rfl, .nil⟩
  | cons hv _ ih =>
    obtain ⟨item, hi, hg⟩ := hv
    obtain ⟨items, his, hgs⟩ := ih
    refine ⟨item :: items, ?_, .cons hg hgs⟩
    rw [List.mapM_cons, hi, his]
    rfl

mutual

/-- **What is read of a document is what it records.** -/
theorem Records.gives : ∀ {t : NodeType} {d : Document} {v : Json},
    Records source.Holds types t d v → Gives source types t d v
  | t, d, .object vs, .object _ hk hf => by
    have hread : ∀ key f v, t.fields.get? key = some f → Table.find key vs = some v →
        ∃ value, source.readField d key f = .ok value ∧ ValueGives source types f value v :=
      fun key f v ht hv => RecordsField.gives (hf key f v ht hv) rfl
    exact .object (fieldsGive_of_forall₂ ((Table.forall₂_iff_find t.fields.nodup).2 ⟨hk, hread⟩))

theorem RecordsField.gives : ∀ {f : Field} {es : List Element} {v : Json} {d : Document} {key : String},
    RecordsField source.Holds types f es v → d.elementsFor key = es →
    ∃ value, source.readField d key f = .ok value ∧ ValueGives source types f value v
  | ⟨shape, _⟩, _, v, d, key, .one hi, he => by
    obtain ⟨item, hitem, hg⟩ := RecordsItem.gives hi
    exact ⟨_, readField_one he hi.kind_eq hitem, .one hg⟩
  | ⟨shape, _⟩, es, .list vs, d, key, .many hl hi, he => by
    obtain ⟨items, his, hgs⟩ := exists_itemsGive (forall₂_iff_getElem?.2
      ⟨hl, fun n e v he hv => RecordsItem.gives (hi n e v he hv)⟩)
    have hrec : RecordsField source.Holds types ⟨shape, true⟩ es (.list vs) := .many hl hi
    exact ⟨_, readField_many he (Field.kind_eq ⟨shape, true⟩ ▸ hrec.kind_eq) his, .many hgs⟩

theorem RecordsItem.gives : ∀ {shape : Shape} {e : Element} {v : Json},
    RecordsItem source.Holds types shape e v →
    ∃ item, source.item e = .ok item ∧ ItemGives source types shape item v
  | _, e, _, .string hc => ⟨_, by rw [Source.item, hc], .string⟩
  | _, e, _, .number hc => ⟨_, by rw [Source.item, hc], .number⟩
  | _, e, _, .file hc => ⟨_, by rw [Source.item, hc], .file⟩
  | _, e, _, .node (d := d) hc hf ht hr => by
    have hgives := Records.gives hr
    have hfetch : source.fetchDocument _ = .ok d := hf
    refine ⟨.document d, ?_, .document ht hgives⟩
    rw [Source.item, hc]
    dsimp only
    rw [hfetch]
    rfl

end

mutual

/-- What is read of a document is one payload. -/
theorem Gives.unique : ∀ {t : NodeType} {d : Document} {v v' : Json},
    Gives source types t d v → Gives source types t d v' → v = v'
  | _, _, .object vs, _, .object h, h' => by
    cases h' with
    | object h' => exact congrArg Json.object (FieldsGive.unique h h')

theorem FieldsGive.unique : ∀ {d : Document} {fields : List (String × Field)} {vs vs' : List (String × Json)},
    FieldsGive source types d fields vs → FieldsGive source types d fields vs' → vs = vs'
  | _, _, _, _, .nil, h' => by
    cases h'
    rfl
  | _, _, _, _, .cons hr hg hgs, h' => by
    cases h' with
    | cons hr' hg' hgs' =>
      cases hr.symm.trans hr'
      rw [ValueGives.unique hg hg', FieldsGive.unique hgs hgs']

theorem ValueGives.unique : ∀ {f : Field} {value : FieldValue} {v v' : Json},
    ValueGives source types f value v → ValueGives source types f value v' → v = v'
  | _, _, _, _, .one h, h' => by
    cases h' with
    | one h' => exact ItemGives.unique h h'
  | _, _, .list _, _, .many h, h' => by
    cases h' with
    | many h' => exact congrArg Json.list (ItemsGive.unique h h')

theorem ItemsGive.unique : ∀ {shape : Shape} {items : List Item} {vs vs' : List Json},
    ItemsGive source types shape items vs → ItemsGive source types shape items vs' → vs = vs'
  | _, _, _, _, .nil, h' => by
    cases h'
    rfl
  | _, _, _, _, .cons h hs, h' => by
    cases h' with
    | cons h' hs' => rw [ItemGives.unique h h', ItemsGive.unique hs hs']

theorem ItemGives.unique : ∀ {shape : Shape} {item : Item} {v v' : Json},
    ItemGives source types shape item v → ItemGives source types shape item v' → v = v'
  | _, _, _, _, .string, h' => by
    cases h'
    rfl
  | _, _, _, _, .number, h' => by
    cases h'
    rfl
  | _, _, _, _, .file, h' => by
    cases h'
    rfl
  | _, _, _, _, .document ht h, h' => by
    cases h' with
    | document ht' h' =>
      cases ht.symm.trans ht'
      exact Gives.unique h h'

end

end

/-! ### Documents that resemble each other -/

mutual

/-- Two documents have under each key the same elements, but that references may lead elsewhere;
`held` and `held'` say which documents stand at addresses for each. -/
inductive Resembles (held held' : Document → String → Prop) : Document → Document → Prop
  /-- The elements under each key are as many, and resemble each other one by one. -/
  | document {d d' : Document} : (∀ key, (d.elementsFor key).length = (d'.elementsFor key).length) →
      (∀ (key : String) (n : ℕ) (e e' : Element), (d.elementsFor key)[n]? = some e →
        (d'.elementsFor key)[n]? = some e' → ResemblesAt held held' e e') →
      Resembles held held' d d'

/-- Two elements hold the same, or refer to documents that resemble each other. -/
inductive ResemblesAt (held held' : Document → String → Prop) : Element → Element → Prop
  /-- A text, a number or a file. -/
  | value {e : Element} : e.kind ≠ .node → ResemblesAt held held' e e
  /-- A reference. -/
  | node {key : Key} {uri uri' : String} {d d' : Document} : held d uri → held' d' uri' →
      Resembles held held' d d' → ResemblesAt held held' ⟨key, .node uri⟩ ⟨key, .node uri'⟩

end

theorem Document.elementsFor_eq_nil {t : NodeType} {d : Document} {key : String} (h : t.Knows d)
    (hk : key ∉ t.fields.keys) : d.elementsFor key = [] := by
  refine List.eq_nil_iff_forall_not_mem.2 fun e he => hk ?_
  obtain ⟨hm, rfl⟩ := mem_elementsFor.1 he
  exact h e hm

theorem Document.key_eq_of_getElem? {d d' : Document} {key : String} {n m : ℕ} {e e' : Element}
    (he : (d.elementsFor key)[n]? = some e) (he' : (d'.elementsFor key)[m]? = some e') : e.key = e'.key := by
  have hkey := (mem_elementsFor.1 (List.mem_of_getElem? he)).2
  have hkey' := (mem_elementsFor.1 (List.mem_of_getElem? he')).2
  obtain ⟨⟨text, _⟩, _⟩ := e
  obtain ⟨⟨text', _⟩, _⟩ := e'
  cases hkey.trans hkey'.symm
  rfl

/-- Elements with one key that hold the same value resemble each other. -/
theorem resemblesAt_of_value {e e' : Element} {content : Content} (hk : e.key = e'.key)
    (hc : e.content = content) (hc' : e'.content = content) (hv : content.kind ≠ .node) :
    ResemblesAt held held' e e' := by
  obtain ⟨key, _⟩ := e
  obtain ⟨_, _⟩ := e'
  cases hk
  cases hc
  cases hc'
  exact .value hv

/-- So do references with one key to documents that resemble each other. -/
theorem resemblesAt_of_node {e e' : Element} {uri uri' : String} {d d' : Document} (hk : e.key = e'.key)
    (hc : e.content = .node uri) (hc' : e'.content = .node uri') (hd : held d uri) (hd' : held' d' uri')
    (h : Resembles held held' d d') : ResemblesAt held held' e e' := by
  obtain ⟨key, _⟩ := e
  obtain ⟨_, _⟩ := e'
  cases hk
  cases hc
  cases hc'
  exact .node hd hd' h

/-- Elements that record one value resemble each other, where documents do that record one payload. -/
theorem RecordsItem.resembles {shape : Shape} {e e' : Element} {v : Json}
    (h : RecordsItem held types shape e v) (h' : RecordsItem held' types shape e' v) (hk : e.key = e'.key)
    (hn : ∀ schemas target u d d', shape = .node schemas target → types.get? target = some u →
      Records held types u d v → Records held' types u d' v → Resembles held held' d d') :
    ResemblesAt held held' e e' := by
  cases h with
  | string hc =>
    cases h' with
    | string hc' => exact resemblesAt_of_value hk hc hc' nofun
  | number hc =>
    cases h' with
    | number hc' => exact resemblesAt_of_value hk hc hc' nofun
  | file hc =>
    cases h' with
    | file hc' => exact resemblesAt_of_value hk hc hc' nofun
  | node hc hd ht hr =>
    cases h' with
    | node hc' hd' ht' hr' =>
      cases ht.symm.trans ht'
      exact resemblesAt_of_node hk hc hc' hd hd' (hn _ _ _ _ _ rfl ht hr hr')

/-- **Documents that record one payload resemble each other.** -/
theorem Records.resembles {t : NodeType} {d d' : Document} {v : Json} (h : Records held types t d v)
    (h' : Records held' types t d' v) : Resembles held held' d d' := by
  have hall : Payload.Hereditary types fun t v => ∀ d d', Records held types t d v →
      Records held' types t d' v → Resembles held held' d d' := by
    rintro t vs hk hf d d' ⟨hn, -, hrec⟩ ⟨hn', -, hrec'⟩
    have hat : ∀ key, (d.elementsFor key).length = (d'.elementsFor key).length ∧
        ∀ (n : ℕ) (e e' : Element), (d.elementsFor key)[n]? = some e → (d'.elementsFor key)[n]? = some e' →
          ResemblesAt held held' e e' := by
      intro key
      by_cases hm : key ∈ t.fields.keys
      · obtain ⟨f, ht⟩ := Table.mem_keys_iff.1 hm
        obtain ⟨v, hv⟩ := Table.exists_find (hk ▸ hm)
        obtain ⟨hl, hi⟩ := forall₂_iff_getElem?.1 (hrec key f v ht hv).items
        obtain ⟨hl', hi'⟩ := forall₂_iff_getElem?.1 (hrec' key f v ht hv).items
        refine ⟨hl.trans hl'.symm, fun n e e' he he' => ?_⟩
        have hlt : n < (Payload.fieldValues f v).length := hl ▸ (List.getElem?_eq_some_iff.1 he).1
        have hw := List.getElem?_eq_getElem hlt
        refine (hi n e _ he hw).resembles (hi' n e' _ he' hw) (Document.key_eq_of_getElem? he he') ?_
        intro schemas target u d d' hs hu
        exact (hf key f v ht hv).2 u _ ⟨schemas, target, hs, hu, List.getElem_mem hlt⟩ d d'
      · rw [Document.elementsFor_eq_nil hn hm, Document.elementsFor_eq_nil hn' hm]
        exact ⟨rfl, fun _ _ _ he => nomatch he⟩
    exact .document (fun key => (hat key).1) fun key => (hat key).2
  exact Payload.Normal.induction hall h.normal d d' h h'

end ContentGraph
