import ContentGraph.Payload.Validator
import ContentGraph.Proofs.Table

/-!
# Normal forms of payloads

A payload in normal form of a type is an object with one member for each field of the type, in
order: a value of the kind of the field, or a list of such values where the field may repeat.
Below a node field stand normal forms of the type it leads to (`Payload.Nested`): what holds of a
payload if it holds of those nested in it holds of every payload in normal form
(`Payload.Normal.induction`).

A nested payload is read by the model that has the name of its type. That is the model of the type
itself where no two types have one name (`TypeGraph.within_reachable`).
-/

namespace ContentGraph

/-! ### Names of types -/

/-- No two of the types that can be reached have one name. -/
def TypeGraph.DistinctNames (g : TypeGraph) : Prop := (g.reachable.map fun m => m.2.name).Nodup

instance (g : TypeGraph) : Decidable g.DistinctNames :=
  inferInstanceAs (Decidable (g.reachable.map fun m => m.2.name).Nodup)

namespace Models

variable {models : Models}

/-- Where names are distinct, a model with a type's name is that type. -/
theorem named?_name (hn : (models.map fun m => m.2.name).Nodup) {m : String × NodeType}
    (hm : m ∈ models) : models.named? m.2.name = some m.2 := by
  have hp := List.inj_on_of_nodup_map hn
  unfold named?
  cases hf : models.reverse.find? fun other => other.2.name = m.2.name with
  | none =>
    have hno := List.find?_eq_none.1 hf m (List.mem_reverse.2 hm)
    simp at hno
  | some other =>
    have ho : other ∈ models := List.mem_reverse.1 (List.mem_of_find?_eq_some hf)
    have he : other.2.name = m.2.name := by simpa using List.find?_some hf
    rw [hp ho hm he]
    rfl

theorem mem_of_target? (hn : (models.map fun m => m.2.name).Nodup) {identity : String}
    {t : NodeType} (h : models.target? identity = some t) : (identity, t) ∈ models := by
  unfold target? at h
  cases hf : models.find? fun m => m.1 = identity with
  | none =>
    rw [hf] at h
    cases h
  | some m =>
    have hm : m ∈ models := List.mem_of_find?_eq_some hf
    have hi : m.1 = identity := by simpa using List.find?_some hf
    rw [hf, Option.bind_some, named?_name hn hm] at h
    cases h
    rw [← hi]
    exact hm

end Models

theorem Catalogue.get?_of_mem_reachableTypes {types : Catalogue} {root : String}
    {m : String × NodeType} (h : m ∈ types.reachableTypes root) : types.get? m.1 = some m.2 := by
  obtain ⟨identity, -, hi⟩ := List.mem_filterMap.1 h
  obtain ⟨t, ht, rfl⟩ := Option.map_eq_some_iff.1 hi
  exact ht

/-- Every model that is found for an identity is the type with that identity. -/
def Models.Within (models : Models) (types : Catalogue) : Prop :=
  ∀ identity t, models.target? identity = some t → types.get? identity = some t

theorem TypeGraph.within_reachable {g : TypeGraph} (hn : g.DistinctNames) :
    Models.Within g.reachable g.types :=
  fun _ _ h => Catalogue.get?_of_mem_reachableTypes (Models.mem_of_target? hn h)

namespace Payload

/-! ### Normal forms -/

mutual

/-- A payload in normal form of a type. -/
inductive Normal (types : Catalogue) : NodeType → Json → Prop
  /-- It has the fields of the type. -/
  | object {t : NodeType} {vs : List (String × Json)} : NormalFields types t.fields.entries vs →
      Normal types t (.object vs)

/-- Members that are values of fields, in order. -/
inductive NormalFields (types : Catalogue) : List (String × Field) → List (String × Json) → Prop
  /-- There are no more fields. -/
  | nil : NormalFields types [] []
  /-- The first member stands under the first field. -/
  | cons {key : String} {f : Field} {fields : List (String × Field)} {v : Json} {vs : List (String × Json)} :
      NormalField types f v → NormalFields types fields vs →
      NormalFields types ((key, f) :: fields) ((key, v) :: vs)

/-- A value of a field. -/
inductive NormalField (types : Catalogue) : Field → Json → Prop
  /-- The value of a field that stands once. -/
  | one {shape : Shape} {v : Json} : NormalItem types shape v → NormalField types ⟨shape, false⟩ v
  /-- The values of a field that may repeat. -/
  | many {shape : Shape} {vs : List Json} : NormalItems types shape vs →
      NormalField types ⟨shape, true⟩ (.list vs)

/-- Values that stand under one key. -/
inductive NormalItems (types : Catalogue) : Shape → List Json → Prop
  /-- There are no more values. -/
  | nil {shape : Shape} : NormalItems types shape []
  /-- The first value and the others. -/
  | cons {shape : Shape} {v : Json} {vs : List Json} : NormalItem types shape v →
      NormalItems types shape vs → NormalItems types shape (v :: vs)

/-- One value that stands under a key. -/
inductive NormalItem (types : Catalogue) : Shape → Json → Prop
  /-- A text. -/
  | string {s : String} : NormalItem types (.value .string) (.text s)
  /-- A number. -/
  | number {x : Binary} : NormalItem types (.value .number) (.number x)
  /-- A file. -/
  | file {contentType uri : String} : NormalItem types (.value .file)
      (.object [("contentType", .text contentType), ("uri", .text uri)])
  /-- A nested payload. -/
  | node {schemas : List String} {target : String} {t : NodeType} {v : Json} :
      types.get? target = some t → Normal types t v → NormalItem types (.node schemas target) v

end

theorem NormalFields.keys_eq {types : Catalogue} {fields : List (String × Field)} {vs : List (String × Json)}
    (h : NormalFields types fields vs) : vs.map Prod.fst = fields.map Prod.fst := by
  induction fields generalizing vs with
  | nil =>
    cases h
    rfl
  | cons e fields ih =>
    cases h with
    | cons _ hr => simp [ih hr]

/-- Members are values of fields where each has the key of its field and a value of it. -/
theorem normalFields_iff {types : Catalogue} {fields : List (String × Field)} {vs : List (String × Json)} :
    NormalFields types fields vs ↔
      List.Forall₂ (fun e m => m.1 = e.1 ∧ NormalField types e.2 m.2) fields vs := by
  constructor
  · intro h
    induction fields generalizing vs with
    | nil =>
      cases h
      exact .nil
    | cons e fields ih =>
      cases h with
      | cons hv hvs => exact .cons ⟨rfl, hv⟩ (ih hvs)
  · intro h
    induction h with
    | nil => exact .nil
    | @cons e m _ _ hv _ ih =>
      obtain ⟨key, f⟩ := e
      obtain ⟨_, v⟩ := m
      obtain ⟨hk, hv⟩ := hv
      cases hk
      exact .cons hv ih

/-- An object is in normal form where it has the keys of the type, in order, and under each key a value of
its field. -/
theorem normal_object_iff {types : Catalogue} {t : NodeType} {vs : List (String × Json)} :
    Normal types t (.object vs) ↔ vs.map Prod.fst = t.fields.keys ∧
      ∀ key f v, t.fields.get? key = some f → Table.find key vs = some v → NormalField types f v := by
  have hfields : List.Forall₂ (fun e m => m.1 = e.1 ∧ NormalField types e.2 m.2) t.fields.entries vs ↔ _ :=
    Table.forall₂_iff_find (P := fun _ f v => NormalField types f v) t.fields.nodup
  constructor
  · rintro ⟨h⟩
    exact hfields.1 (normalFields_iff.1 h)
  · exact fun h => .object (normalFields_iff.2 (hfields.2 h))

/-- What is in normal form is an object. -/
theorem Normal.exists_object {types : Catalogue} {t : NodeType} {v : Json} (h : Normal types t v) :
    ∃ vs, v = .object vs := by
  obtain ⟨_⟩ := h
  exact ⟨_, rfl⟩

/-- Under every key of the type stands a value of its field. -/
theorem Normal.exists_member {types : Catalogue} {t : NodeType} {vs : List (String × Json)} {key : String}
    {f : Field} (h : Normal types t (.object vs)) (hf : t.fields.get? key = some f) :
    ∃ v, Table.find key vs = some v ∧ NormalField types f v := by
  obtain ⟨hk, hat⟩ := normal_object_iff.1 h
  obtain ⟨v, hv⟩ := Table.exists_find (hk ▸ Table.mem_keys_iff.2 ⟨f, hf⟩)
  exact ⟨v, hv, hat key f v hf hv⟩

theorem normalItems_iff {types : Catalogue} {shape : Shape} {vs : List Json} :
    NormalItems types shape vs ↔ ∀ v ∈ vs, NormalItem types shape v := by
  induction vs with
  | nil => simp [NormalItems.nil]
  | cons v vs ih =>
    rw [List.forall_mem_cons, ← ih]
    constructor
    · rintro (_ | ⟨hv, hvs⟩)
      exact ⟨hv, hvs⟩
    · exact fun h => .cons h.1 h.2

/-- The values that stand under a field of a payload in normal form. -/
def fieldValues (f : Field) (v : Json) : List Json :=
  if f.multiple then
    match v with
    | .list vs => vs
    | _ => []
  else [v]

theorem NormalField.items {types : Catalogue} {f : Field} {v : Json} (h : NormalField types f v) :
    NormalItems types f.shape (fieldValues f v) := by
  cases h with
  | one h => exact .cons h .nil
  | many h => exact h

/-! ### Nested payloads -/

section

variable {types : Catalogue} {P : NodeType → Json → Prop}

/-- A payload of a type is among the values under a field. -/
def Nested (types : Catalogue) (f : Field) (v : Json) (t : NodeType) (w : Json) : Prop :=
  ∃ schemas target, f.shape = .node schemas target ∧ types.get? target = some t ∧ w ∈ fieldValues f v

/-- A property holds of a payload if it holds of those nested in it. -/
def Hereditary (types : Catalogue) (P : NodeType → Json → Prop) : Prop :=
  ∀ t vs, vs.map Prod.fst = t.fields.keys →
    (∀ key f v, t.fields.get? key = some f → Table.find key vs = some v →
      NormalField types f v ∧ ∀ u w, Nested types f v u w → P u w) → P t (.object vs)

mutual

/-- What holds of a payload if it holds of those nested in it holds of all payloads in normal form. -/
theorem Normal.induction (hp : Hereditary types P) : ∀ {t : NodeType} {v : Json}, Normal types t v → P t v
  | t, .object vs, .object hf => hp t vs hf.keys_eq (NormalFields.induction hp hf)

theorem NormalFields.induction (hp : Hereditary types P) : ∀ {fields : List (String × Field)} {vs : List (String × Json)},
    NormalFields types fields vs → ∀ key f v, Table.find key fields = some f →
      Table.find key vs = some v → NormalField types f v ∧ ∀ u w, Nested types f v u w → P u w
  | _, _, .nil, _, _, _, hf, _ => nomatch hf
  | (k, f) :: fields, (_, v) :: vs, .cons hv hvs, key, f', v', hf, hv' => by
    unfold Table.find at hf hv'
    by_cases he : k = key
    · rw [if_pos he] at hf hv'
      cases hf
      cases hv'
      exact ⟨hv, NormalField.induction hp hv⟩
    · rw [if_neg he] at hf hv'
      exact NormalFields.induction hp hvs key f' v' hf hv'

theorem NormalField.induction (hp : Hereditary types P) : ∀ {f : Field} {v : Json}, NormalField types f v →
    ∀ u w, Nested types f v u w → P u w
  | ⟨shape, _⟩, v, .one hi, u, w, hn => by
    have hitem := NormalItem.induction hp hi
    obtain ⟨schemas, target, hs, ht, hw⟩ := hn
    cases List.mem_singleton.1 hw
    exact hitem schemas target u hs ht
  | ⟨shape, _⟩, .list vs, .many his, u, w, hn => by
    have hitems := NormalItems.induction hp his
    obtain ⟨schemas, target, hs, ht, hw⟩ := hn
    exact hitems w hw schemas target u hs ht

theorem NormalItems.induction (hp : Hereditary types P) : ∀ {shape : Shape} {vs : List Json}, NormalItems types shape vs →
    ∀ v ∈ vs, ∀ schemas target u, shape = .node schemas target → types.get? target = some u → P u v
  | _, _, .nil, _, hm => nomatch hm
  | _, _, .cons hv hvs, v, hm => by
    have hfirst := NormalItem.induction hp hv
    rcases List.mem_cons.1 hm with rfl | hm
    · exact hfirst
    · exact NormalItems.induction hp hvs v hm

theorem NormalItem.induction (hp : Hereditary types P) : ∀ {shape : Shape} {v : Json}, NormalItem types shape v →
    ∀ schemas target u, shape = .node schemas target → types.get? target = some u → P u v
  | _, _, .string, _, _, _, hs, _ => nomatch hs
  | _, _, .number, _, _, _, hs, _ => nomatch hs
  | _, _, .file, _, _, _, hs, _ => nomatch hs
  | _, _, .node ht hv, _, _, u, hs, hu => by
    have hnested := Normal.induction hp hv
    cases hs
    cases ht.symm.trans hu
    exact hnested

end

theorem Nested.normal {f : Field} {v w : Json} {u : NodeType} (hn : Nested types f v u w)
    (h : NormalField types f v) : Normal types u w := by
  obtain ⟨schemas, target, hs, ht, hw⟩ := hn
  have hitem := normalItems_iff.1 h.items w hw
  rw [hs] at hitem
  cases hitem with
  | node ht' hv =>
    cases ht.symm.trans ht'
    exact hv

end

end Payload

end ContentGraph
