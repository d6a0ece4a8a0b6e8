import ContentGraph.Proofs.Number.Nearest
import ContentGraph.Proofs.Payload.NormalForm
import ContentGraph.Proofs.Payload.Reading
import ContentGraph.Proofs.TypeGraph.Correctness
import ContentGraph.Proofs.TypeGraph.Reachable

/-!
# Conforming payloads

What a payload of a type is, said of the types and not of the models that read it: an object that
has no key but those of the type and every key that stands once, with values of the kinds of its
fields (`Payload.Conforms`). Its normal form has all keys in order, with integers as numbers and
empty lists under the keys that are absent (`Payload.Normalises`).

A payload is accepted exactly where it conforms, and what is given is its normal form
(`TypeGraph.validatePayload_exact`), which is a payload in normal form
(`TypeGraph.normal_of_validatePayload`). A nested payload is read by the model that has the name of
its type, so that this holds where no two types have one name.
-/

namespace ContentGraph

/-! ### Models of reachable types -/

namespace Models

variable {models : Models}

/-- Every type that can be reached from a root is found among some models. -/
def Complete (models : Models) (types : Catalogue) (root : String) : Prop :=
  ∀ i t, types.Reaches root i → types.get? i = some t → models.target? i = some t

end Models

namespace Payload

mutual

/-- A value is a payload of a type. -/
inductive Conforms (types : Catalogue) : NodeType → Json → Prop
  /-- It is an object without other keys, every key that stands once is there, and every value
  conforms to its field. -/
  | object {t : NodeType} {ms : List (String × Json)} :
      (∀ key ∈ ms.map Prod.fst, key ∈ t.fields.keys) →
      (∀ key f, t.fields.get? key = some f → f.multiple = false → key ∈ ms.map Prod.fst) →
      (∀ key f v, t.fields.get? key = some f → Table.find key ms = some v → ConformsField types f v) →
      Conforms types t (.object ms)

/-- A value conforms to a field. -/
inductive ConformsField (types : Catalogue) : Field → Json → Prop
  /-- Under a key that stands once stands one value. -/
  | one {shape : Shape} {v : Json} : ConformsItem types shape v → ConformsField types ⟨shape, false⟩ v
  /-- Under a key that may repeat stands a list of values. -/
  | many {shape : Shape} {vs : List Json} : (∀ v ∈ vs, ConformsItem types shape v) →
      ConformsField types ⟨shape, true⟩ (.list vs)

/-- One value conforms to what stands under a key. -/
inductive ConformsItem (types : Catalogue) : Shape → Json → Prop
  /-- A text. -/
  | string {s : String} : ConformsItem types (.value .string) (.text s)
  /-- An integer that a number fits. -/
  | integer {n : Int} : Binary.Fits n → ConformsItem types (.value .number) (.integer n)
  /-- A number. -/
  | number {x : Binary} : ConformsItem types (.value .number) (.number x)
  /-- An object of two texts and nothing else. -/
  | file {ms : List (String × Json)} {contentType uri : String} :
      Table.find "contentType" ms = some (.text contentType) → Table.find "uri" ms = some (.text uri) →
      (∀ key ∈ ms.map Prod.fst, key = "contentType" ∨ key = "uri") →
      ConformsItem types (.value .file) (.object ms)
  /-- A payload of the type that the field leads to. -/
  | node {schemas : List String} {target : String} {t : NodeType} {v : Json} :
      types.get? target = some t → Conforms types t v → ConformsItem types (.node schemas target) v

end

mutual

/-- A value is the normal form of a payload of a type. -/
inductive Normalises (types : Catalogue) : NodeType → Json → Json → Prop
  /-- It has the keys of the type in order: under a key that the payload has the normal form of what
  stands there, under another the empty list. -/
  | object {t : NodeType} {ms vs : List (String × Json)} : vs.map Prod.fst = t.fields.keys →
      (∀ key f v w, t.fields.get? key = some f → Table.find key ms = some v →
        Table.find key vs = some w → NormalisesField types f v w) →
      (∀ key w, Table.find key ms = none → Table.find key vs = some w → w = .list []) →
      Normalises types t (.object ms) (.object vs)

/-- A value is the normal form of one under a field. -/
inductive NormalisesField (types : Catalogue) : Field → Json → Json → Prop
  /-- Of one value. -/
  | one {shape : Shape} {v w : Json} : NormalisesItem types shape v w →
      NormalisesField types ⟨shape, false⟩ v w
  /-- Of a list, item by item. -/
  | many {shape : Shape} {vs ws : List Json} : vs.length = ws.length →
      (∀ (n : ℕ) (v w : Json), vs[n]? = some v → ws[n]? = some w → NormalisesItem types shape v w) →
      NormalisesField types ⟨shape, true⟩ (.list vs) (.list ws)

/-- A value is the normal form of one value under a key. -/
inductive NormalisesItem (types : Catalogue) : Shape → Json → Json → Prop
  /-- A text is given as it is. -/
  | string {s : String} : NormalisesItem types (.value .string) (.text s) (.text s)
  /-- An integer is given as the number nearest to it. -/
  | integer {n : Int} {x : Binary} : x.IsNearestTo n →
      NormalisesItem types (.value .number) (.integer n) (.number x)
  /-- A number is given as it is. -/
  | number {x : Binary} : NormalisesItem types (.value .number) (.number x) (.number x)
  /-- A file is given with its texts in order. -/
  | file {ms : List (String × Json)} {contentType uri : String} :
      Table.find "contentType" ms = some (.text contentType) → Table.find "uri" ms = some (.text uri) →
      NormalisesItem types (.value .file) (.object ms)
        (.object [("contentType", .text contentType), ("uri", .text uri)])
  /-- A nested payload is given in normal form. -/
  | node {schemas : List String} {target : String} {t : NodeType} {v w : Json} :
      types.get? target = some t → Normalises types t v w → NormalisesItem types (.node schemas target) v w

end

variable {models : Models} {types : Catalogue} {root : String}

/-! ### What is read conforms -/

theorem conforms_of_readRoot {t : NodeType} {ms : List (String × Json)} {w : Json}
    (hms : ∀ key v, Table.find key ms = some v → ∀ multiple shape w, read models multiple shape v = .ok w →
      ConformsField types ⟨shape, multiple⟩ v ∧ NormalisesField types ⟨shape, multiple⟩ v w ∧
        NormalField types ⟨shape, multiple⟩ w)
    (h : readRoot models t ms = .ok w) :
    Conforms types t (.object ms) ∧ Normalises types t (.object ms) w ∧ Normal types t w := by
  obtain ⟨ho, vs, rfl, hk, hf⟩ := readRoot_eq_ok_iff.1 h
  refine ⟨.object ho (fun key f ht hm => ?_) fun key f v ht hv => ?_,
    .object hk (fun key f v w ht hv hw => ?_) fun key w hn hw => ?_,
    normal_object_iff.2 ⟨hk, fun key f w ht hw => ?_⟩⟩
  · obtain ⟨w, hw⟩ := Table.exists_find (hk ▸ Table.mem_keys_iff.2 ⟨f, ht⟩)
    rcases hf key f w ht hw with ⟨v, hv, -⟩ | ⟨-, hm', -⟩
    · exact List.mem_map.2 ⟨_, Table.mem_of_find hv, rfl⟩
    · cases hm.symm.trans hm'
  · obtain ⟨w, hw⟩ := Table.exists_find (hk ▸ Table.mem_keys_iff.2 ⟨f, ht⟩)
    rcases hf key f w ht hw with ⟨v', hv', hr⟩ | ⟨hn, -⟩
    · cases hv.symm.trans hv'
      exact (hms key v hv _ _ w hr).1
    · cases hv.symm.trans hn
  · rcases hf key f w ht hw with ⟨v', hv', hr⟩ | ⟨hn, -⟩
    · cases hv.symm.trans hv'
      exact (hms key v hv _ _ w hr).2.1
    · cases hv.symm.trans hn
  · have hm : key ∈ t.fields.keys := hk ▸ List.mem_map.2 ⟨_, Table.mem_of_find hw, rfl⟩
    obtain ⟨f, ht⟩ := Table.mem_keys_iff.1 hm
    rcases hf key f w ht hw with ⟨v, hv, -⟩ | ⟨-, -, rfl⟩
    · cases hv.symm.trans hn
    · rfl
  · rcases hf key f w ht hw with ⟨v, hv, hr⟩ | ⟨-, hm, rfl⟩
    · exact (hms key v hv _ _ w hr).2.2
    · obtain ⟨shape, multiple⟩ := f
      cases show multiple = true from hm
      exact .many .nil

theorem conformsItem_of_readScalar {kind : ValueKind} {v w : Json} (h : readScalar kind v = .ok w) :
    ConformsItem types (.value kind) v ∧ NormalisesItem types (.value kind) v w ∧
      NormalItem types (.value kind) w := by
  rw [readScalar_eq_ok_iff] at h
  cases kind with
  | string =>
    obtain ⟨s, rfl, rfl⟩ := h
    exact ⟨.string, .string, .string⟩
  | number =>
    rcases h with ⟨x, rfl, rfl⟩ | ⟨n, x, rfl, hx, rfl⟩
    · exact ⟨.number, .number, .number⟩
    · exact ⟨.integer (Binary.exists_ofInt?_iff.1 ⟨x, hx⟩), .integer (Binary.ofInt?_eq_some_iff.1 hx), .number⟩
  | file =>
    obtain ⟨ms, contentType, uri, rfl, hc, hu, ho, rfl⟩ := h
    exact ⟨.file hc hu ho, .file hc hu, .file⟩

/-- What is read under a field conforms to it, and what is given is its normal form. -/
theorem conforms_of_read (hm : models.Within types) (v : Json) : ∀ multiple shape w,
    read models multiple shape v = .ok w →
      ConformsField types ⟨shape, multiple⟩ v ∧ NormalisesField types ⟨shape, multiple⟩ v w ∧
        NormalField types ⟨shape, multiple⟩ w := by
  induction v using Json.induction with
  | step v ihItems ihMembers =>
    intro multiple shape w h
    cases multiple with
    | true =>
      obtain ⟨vs, ws, rfl, rfl, hws⟩ := read_many_eq_ok_iff.1 h
      have hitem : ∀ v ∈ vs, ∀ w, read models false shape v = .ok w →
          ConformsItem types shape v ∧ NormalisesItem types shape v w ∧ NormalItem types shape w := by
        intro v hv w hr
        obtain ⟨⟨hc⟩, ⟨hn⟩, ⟨hw⟩⟩ := ihItems vs rfl v hv _ _ w hr
        exact ⟨hc, hn, hw⟩
      obtain ⟨hl, hat⟩ := forall₂_iff_getElem?.1 hws
      refine ⟨.many fun v hv => ?_, .many hl fun n v w hv hw => ?_, .many (normalItems_iff.2 fun w hw => ?_)⟩
      · obtain ⟨w, -, hr⟩ := exists_of_mem_left hws v hv
        exact (hitem v hv w hr).1
      · exact (hitem v (List.mem_of_getElem? hv) w (hat n v w hv hw)).2.1
      · obtain ⟨v, hv, hr⟩ := exists_of_mem_right hws w hw
        exact (hitem v hv w hr).2.2
    | false =>
      cases shape with
      | value kind =>
        rw [read_value] at h
        obtain ⟨hc, hn, hw⟩ := conformsItem_of_readScalar h
        exact ⟨.one hc, .one hn, .one hw⟩
      | node schemas target =>
        obtain ⟨ms, t, rfl, ht, hr⟩ := read_node_eq_ok_iff.1 h
        obtain ⟨hc, hn, hw⟩ := conforms_of_readRoot (ihMembers ms rfl) hr
        have ht := hm target t ht
        exact ⟨.one (.node ht hc), .one (.node ht hn), .one (.node ht hw)⟩

/-! ### What conforms is read -/

mutual

theorem Conforms.exists_read (hm : models.Complete types root) : ∀ {t : NodeType} {p : Json} {i : String},
    Conforms types t p → types.Reaches root i → types.get? i = some t →
    ∃ ms w, p = .object ms ∧ readRoot models t ms = .ok w
  | t, .object ms, i, .object known present values, hr, ht => by
    have hread : ∀ key f, t.fields.get? key = some f → ∃ w, ReadsAt models ms key f w := by
      intro key f hf
      cases hv : Table.find key ms with
      | some v =>
        have hnext : ∀ j, f.target? = some j → types.Reaches root j := fun j hj =>
          hr.tail ⟨t, key, f, ht, hf, hj⟩
        obtain ⟨w, hw⟩ := ConformsField.exists_read hm (values key f v hf hv) hnext
        exact ⟨w, .inl ⟨v, hv, hw⟩⟩
      | none =>
        cases hmul : f.multiple with
        | true => exact ⟨.list [], .inr ⟨hv, hmul, rfl⟩⟩
        | false => exact absurd (present key f hf hmul) (Table.find_eq_none_iff.1 hv)
    obtain ⟨w, hw⟩ := exists_readRoot known hread
    exact ⟨ms, w, rfl, hw⟩

theorem ConformsField.exists_read (hm : models.Complete types root) : ∀ {f : Field} {v : Json},
    ConformsField types f v → (∀ j, f.target? = some j → types.Reaches root j) →
    ∃ w, read models f.multiple f.shape v = .ok w
  | ⟨shape, _⟩, v, .one hi, hr => ConformsItem.exists_read hm hi hr
  | ⟨shape, _⟩, .list vs, .many his, hr => by
    obtain ⟨ws, hws⟩ := exists_forall₂ fun v hv => ConformsItem.exists_read hm (his v hv) hr
    exact ⟨.list ws, read_many_eq_ok_iff.2 ⟨vs, ws, rfl, rfl, hws⟩⟩

theorem ConformsItem.exists_read (hm : models.Complete types root) : ∀ {shape : Shape} {v : Json},
    ConformsItem types shape v → (∀ j, (⟨shape, false⟩ : Field).target? = some j → types.Reaches root j) →
    ∃ w, read models false shape v = .ok w
  | _, .text s, .string, _ => by
    rw [read_value]
    exact ⟨_, readScalar_eq_ok_iff.2 ⟨s, rfl, rfl⟩⟩
  | _, .integer n, .integer hn, _ => by
    obtain ⟨x, hx⟩ := Binary.exists_ofInt?_iff.2 hn
    rw [read_value]
    exact ⟨_, readScalar_eq_ok_iff.2 (.inr ⟨n, x, rfl, hx, rfl⟩)⟩
  | _, .number x, .number, _ => by
    rw [read_value]
    exact ⟨_, readScalar_eq_ok_iff.2 (.inl ⟨x, rfl, rfl⟩)⟩
  | _, .object ms, .file hc hu ho, _ => by
    rw [read_value]
    exact ⟨_, readScalar_eq_ok_iff.2 ⟨ms, _, _, rfl, hc, hu, ho, rfl⟩⟩
  | .node _ target, v, .node (t := t) ht hc, hr => by
    have htarget := hr target rfl
    obtain ⟨ms, w, rfl, hw⟩ := Conforms.exists_read hm hc htarget ht
    exact ⟨w, read_node_eq_ok_iff.2 ⟨ms, t, rfl, hm target t htarget ht, hw⟩⟩

end

/-! ### There is one normal form -/

mutual

theorem Normalises.unique : ∀ {t : NodeType} {p v v' : Json},
    Normalises types t p v → Normalises types t p v' → v = v'
  | t, .object ms, .object vs, .object vs', .object hk hat hnone, .object hk' hat' hnone' => by
    refine congrArg Json.object (Table.eq_of_find (hk' ▸ t.fields.nodup) (hk.trans hk'.symm) ?_)
    intro key w' w hw' hw
    cases hv : Table.find key ms with
    | none => rw [hnone key w hv hw, hnone' key w' hv hw']
    | some v =>
      have hm : key ∈ t.fields.keys := hk ▸ List.mem_map.2 ⟨_, Table.mem_of_find hw, rfl⟩
      obtain ⟨f, hf⟩ := Table.mem_keys_iff.1 hm
      exact NormalisesField.unique (hat key f v w hf hv hw) (hat' key f v w' hf hv hw')

theorem NormalisesField.unique : ∀ {f : Field} {v w w' : Json},
    NormalisesField types f v w → NormalisesField types f v w' → w = w'
  | ⟨shape, _⟩, v, w, w', .one h, .one h' => NormalisesItem.unique h h'
  | ⟨shape, _⟩, .list vs, .list ws, .list ws', .many hl hat, .many hl' hat' => by
    refine congrArg Json.list (List.ext_getElem (hl.symm.trans hl') fun n hn hn' => ?_)
    have hnv : n < vs.length := hl.symm ▸ hn
    have hv : vs[n]? = some vs[n] := List.getElem?_eq_getElem hnv
    exact NormalisesItem.unique (hat n _ _ hv (List.getElem?_eq_getElem hn))
      (hat' n _ _ hv (List.getElem?_eq_getElem hn'))

theorem NormalisesItem.unique : ∀ {shape : Shape} {v w w' : Json},
    NormalisesItem types shape v w → NormalisesItem types shape v w' → w = w'
  | _, _, _, _, .string, .string => rfl
  | _, _, _, _, .integer hx, .integer hx' => by rw [hx.unique hx']
  | _, _, _, _, .number, .number => rfl
  | _, _, _, _, .file hc hu, .file hc' hu' => by
    cases hc.symm.trans hc'
    cases hu.symm.trans hu'
    rfl
  | _, _, _, _, .node ht h, .node ht' h' => by
    cases ht.symm.trans ht'
    exact Normalises.unique h h'

end

/-! ### Normal forms conform -/

/-- A value in normal form under a field conforms to it and is its own normal form, where this holds
of the payloads nested in it. -/
theorem NormalField.conforms {f : Field} {v : Json} (h : NormalField types f v)
    (hn : ∀ u w, Nested types f v u w → Conforms types u w ∧ Normalises types u w w) :
    ConformsField types f v ∧ NormalisesField types f v v := by
  have hitem : ∀ w ∈ fieldValues f v, ConformsItem types f.shape w ∧ NormalisesItem types f.shape w w := by
    intro w hw
    have hi := normalItems_iff.1 h.items w hw
    generalize hs : f.shape = shape at hi ⊢
    cases hi with
    | string => exact ⟨.string, .string⟩
    | number => exact ⟨.number, .number⟩
    | file => exact ⟨.file rfl rfl (by simp), .file rfl rfl⟩
    | node ht _ =>
      obtain ⟨hc, hv⟩ := hn _ w ⟨_, _, hs, ht, hw⟩
      exact ⟨.node ht hc, .node ht hv⟩
  cases h with
  | one _ =>
    obtain ⟨hc, hv⟩ := hitem v List.mem_cons_self
    exact ⟨.one hc, .one hv⟩
  | many _ =>
    refine ⟨.many fun v hv => (hitem v hv).1, .many rfl fun n v w hv hw => ?_⟩
    cases hv.symm.trans hw
    exact (hitem v (List.mem_of_getElem? hv)).2

/-- A normal form conforms to its type and is its own normal form. -/
theorem Normal.conforms {t : NodeType} {v : Json} (h : Normal types t v) :
    Conforms types t v ∧ Normalises types t v v := by
  refine Normal.induction (P := fun t v => Conforms types t v ∧ Normalises types t v v) ?_ h
  intro t vs hk hf
  have hat := fun key f v ht hv => (hf key f v ht hv).1.conforms (hf key f v ht hv).2
  constructor
  · refine .object (fun key hm => hk ▸ hm) (fun key f ht _ => ?_) fun key f v ht hv => (hat key f v ht hv).1
    exact hk ▸ Table.mem_keys_iff.2 ⟨f, ht⟩
  · refine .object hk (fun key f v w ht hv hw => ?_) fun key w hn hw => ?_
    · cases hv.symm.trans hw
      exact (hat key f v ht hv).2
    · cases hn.symm.trans hw

end Payload

/-! ### The contract of payload validation -/

/-- What is asked of the validation of payloads against a type graph. -/
structure TypeGraph.ValidatesExactly (g : TypeGraph) : Prop where
  /-- The payloads that conform are accepted, and no others. -/
  accepts : ∀ p, (∃ v, g.validatePayload p = .ok v) ↔ Payload.Conforms g.types g.rootType p
  /-- What is given is the normal form. -/
  normalises : ∀ p v, g.validatePayload p = .ok v ↔
    Payload.Conforms g.types g.rootType p ∧ Payload.Normalises g.types g.rootType p v
  /-- The order of the members of objects does not matter, at any depth. -/
  reordered : ∀ p p', p.Reordered p' → (g.validatePayload p').toOption = (g.validatePayload p).toOption
  /-- A normal form is given as it is. -/
  fixed : ∀ p v, g.validatePayload p = .ok v → g.validatePayload v = .ok v

namespace TypeGraph

variable {g : TypeGraph}

theorem complete_reachable (hn : g.DistinctNames) : Models.Complete g.reachable g.types g.root := by
  intro i t hr ht
  have hm : (i, t) ∈ g.reachable := Catalogue.mem_reachableTypes.2 ⟨hr, ht⟩
  unfold Models.target?
  cases hf : g.reachable.find? fun m => m.1 = i with
  | none =>
    have hno := List.find?_eq_none.1 hf _ hm
    simp at hno
  | some m =>
    have hm' : m ∈ g.reachable := List.mem_of_find?_eq_some hf
    have hi : m.1 = i := by simpa using List.find?_some hf
    have ht' : g.types.get? m.1 = some m.2 := Catalogue.get?_of_mem_reachableTypes hm'
    rw [hi, ht] at ht'
    rw [Option.bind_some, Models.named?_name hn hm', ht']

theorem conforms_of_validatePayload (hn : g.DistinctNames) {p v : Json} (h : g.validatePayload p = .ok v) :
    Payload.Conforms g.types g.rootType p ∧ Payload.Normalises g.types g.rootType p v ∧
      Payload.Normal g.types g.rootType v := by
  obtain ⟨ms, rfl, hr⟩ := validatePayload_eq_ok_iff.1 h
  exact Payload.conforms_of_readRoot
    (fun key v _ => Payload.conforms_of_read (within_reachable hn) v) hr

/-- **An accepted payload is given in normal form.** -/
theorem normal_of_validatePayload (hn : g.DistinctNames) {payload v : Json}
    (h : g.validatePayload payload = .ok v) : Payload.Normal g.types g.rootType v :=
  (conforms_of_validatePayload hn h).2.2

theorem exists_validatePayload (hn : g.DistinctNames) {p : Json}
    (h : Payload.Conforms g.types g.rootType p) : ∃ v, g.validatePayload p = .ok v := by
  obtain ⟨ms, v, rfl, hr⟩ := h.exists_read (complete_reachable hn) .refl g.root_mem
  exact ⟨v, validatePayload_eq_ok_iff.2 ⟨ms, rfl, hr⟩⟩

theorem validatePayload_iff_normalises (hn : g.DistinctNames) {p v : Json} : g.validatePayload p = .ok v ↔
    Payload.Conforms g.types g.rootType p ∧ Payload.Normalises g.types g.rootType p v := by
  constructor
  · intro h
    obtain ⟨hc, hv, -⟩ := conforms_of_validatePayload hn h
    exact ⟨hc, hv⟩
  · rintro ⟨hc, hv⟩
    obtain ⟨w, hw⟩ := exists_validatePayload hn hc
    rw [hv.unique (conforms_of_validatePayload hn hw).2.1, hw]

/-- A payload in normal form is given as it is. -/
theorem validatePayload_of_normal (hn : g.DistinctNames) {v : Json}
    (h : Payload.Normal g.types g.rootType v) : g.validatePayload v = .ok v :=
  (validatePayload_iff_normalises hn).2 h.conforms

/-- **Payload validation accepts the payloads that conform and gives their normal forms.** -/
theorem validatePayload_exact (hn : g.DistinctNames) : g.ValidatesExactly where
  accepts _ := ⟨fun ⟨_, h⟩ => (conforms_of_validatePayload hn h).1, exists_validatePayload hn⟩
  normalises _ _ := validatePayload_iff_normalises hn
  reordered _ _ h := h.validatePayload g
  fixed _ _ h := validatePayload_of_normal hn (normal_of_validatePayload hn h)

theorem validatePayload_exact_chain : ∃ g,
    (Gateway.ofStore chainStore).source.compile 8 ["head", "link"] = .ok g ∧ g.DistinctNames ∧
      g.ValidatesExactly := by
  have hrun : ((Gateway.ofStore chainStore).source.compile 8 ["head", "link"]).toOption.any
      (fun g => decide g.DistinctNames) = true := by
    decide +kernel
  obtain ⟨g, hg, hn⟩ := exists_ok_of_any hrun
  have hn := of_decide_eq_true hn
  exact ⟨g, hg, hn, validatePayload_exact hn⟩

end TypeGraph

end ContentGraph
