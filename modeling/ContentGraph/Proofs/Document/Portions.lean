import ContentGraph.Proofs.Document.Plans
import ContentGraph.Proofs.Document.ReadBack
import ContentGraph.Proofs.TypeGraph.Reachable

/-!
# Portions of payloads

The plan of a payload in normal form has a portion for each of its fields: known elements, or the
plans of the nested payloads (`Payload.PortionOf`). So every plan below it is the plan of a payload in
normal form that stands under a node field, with the schemas that the field declares
(`Payload.Normal.of_below`).
-/

namespace ContentGraph.Payload

variable {types : Catalogue}

/-! ### Portions -/

/-- What the portion of a field is. -/
inductive PortionOf (types : Catalogue) (key : String) (f : Field) (v : Json) : Portion → Prop
  /-- The elements of its values. -/
  | elements {kind : ValueKind} {es : List Element} : f.shape = .value kind →
      (fieldValues f v).mapM (Plan.valueElement key kind) = .ok es → PortionOf types key f v (.elements es)
  /-- The plans of its nested payloads. -/
  | children {schemas : List String} {target : String} {t : NodeType} : f.shape = .node schemas target →
      types.get? target = some t → PortionOf types key f v
        (.children key ((fieldValues f v).map (Plan.ofPayload types t schemas)))
  /-- One of its values is none of an element. -/
  | unbuilt {kind : ValueKind} {fault : Fault} : f.shape = .value kind →
      (fieldValues f v).mapM (Plan.valueElement key kind) = .error fault →
      PortionOf types key f v (.fault fault)
  /-- It leads to a type that is not there. -/
  | untargeted {schemas : List String} {target : String} {fault : Fault} : f.shape = .node schemas target →
      types.get? target = none → PortionOf types key f v (.fault fault)

theorem portionOf_fieldPortion {key : String} {f : Field} {v : Json} (h : NormalField types f v) :
    PortionOf types key f v (fieldPortion types key f v) := by
  obtain ⟨shape, multiple⟩ := f
  unfold fieldPortion
  cases shape with
  | value kind =>
    dsimp only
    unfold Plan.valuePortion
    rw [valuesOf_normal h]
    split
    · next es hes => exact .elements rfl hes
    · next fault hfault => exact .unbuilt rfl hfault
  | node schemas target =>
    dsimp only
    cases ht : types.get? target with
    | none => exact .untargeted rfl ht
    | some t =>
      dsimp only
      rw [planValue_normal ht h]
      exact .children rfl ht

/-- The portions of a payload are those of its fields. -/
theorem portionOf_of_mem {t : NodeType} {vs : List (String × Json)} {p : Portion}
    (hk : vs.map Prod.fst = t.fields.keys)
    (hf : ∀ key f v, t.fields.get? key = some f → Table.find key vs = some v → NormalField types f v)
    (hp : p ∈ portions types vs t.fields.entries) :
    ∃ key f v, t.fields.get? key = some f ∧ Table.find key vs = some v ∧ PortionOf types key f v p := by
  obtain ⟨⟨key, f⟩, he, rfl⟩ := List.mem_map.1 hp
  have ht : t.fields.get? key = some f := Table.get?_eq_some_iff.2 he
  obtain ⟨v, hv⟩ := Table.exists_find (hk ▸ Table.mem_keys_iff.2 ⟨f, ht⟩)
  refine ⟨key, f, v, ht, hv, ?_⟩
  dsimp only
  rw [portion_eq hv]
  exact portionOf_fieldPortion (hf key f v ht hv)

/-! ### Plans below -/

/-- The plans that a portion refers to are those of the payloads nested in its field. -/
theorem nested_of_child {t : NodeType} {vs : List (String × Json)} {key : String} {plans : List Plan}
    {child : Plan} (hk : vs.map Prod.fst = t.fields.keys)
    (hf : ∀ key f v, t.fields.get? key = some f → Table.find key vs = some v → NormalField types f v)
    (hp : .children key plans ∈ portions types vs t.fields.entries) (hc : child ∈ plans) : ∃ key f v schemas' target u w, t.fields.get? key = some f ∧
      Table.find key vs = some v ∧ f.shape = .node schemas' target ∧ types.get? target = some u ∧
      w ∈ fieldValues f v ∧ child = .ofPayload types u schemas' w := by
  obtain ⟨key, f, v, ht, hv, hportion⟩ := portionOf_of_mem hk hf hp
  cases hportion with
  | children hs htarget =>
    obtain ⟨w, hw, rfl⟩ := List.mem_map.1 hc
    exact ⟨key, f, v, _, _, _, w, ht, hv, hs, htarget, hw, rfl⟩

/-- A plan is that of a payload in normal form that stands under a node field of a type that can be
reached, with the schemas that the field declares. -/
def OfField (types : Catalogue) (root : String) (sub : Plan) : Prop :=
  ∃ i t key f schemas target u w, types.Reaches root i ∧ types.get? i = some t ∧
    t.fields.get? key = some f ∧ f.shape = .node schemas target ∧ types.get? target = some u ∧
    Normal types u w ∧ sub = .ofPayload types u schemas w

/-- **Every plan below that of a payload is one of a nested payload.** -/
theorem Normal.of_below {root i : String} {t : NodeType} {v : Json} {schemas : List String} {sub : Plan}
    (h : Normal types t v) (hr : types.Reaches root i) (ht : types.get? i = some t)
    (hs : sub.Below (.ofPayload types t schemas v)) : OfField types root sub := by
  have hall : Hereditary types fun t v => ∀ i schemas, types.Reaches root i → types.get? i = some t →
      sub.Below (.ofPayload types t schemas v) → OfField types root sub := by
    intro t vs hk hf i schemas hr ht hs
    have hfields := fun key f v ht hv => (hf key f v ht hv).1
    cases hs with
    | child hp hc =>
      obtain ⟨key, f, v, schemas', target, u, w, hget, hv, hshape, htarget, hw, rfl⟩ :=
        nested_of_child hk hfields hp hc
      have hn : Nested types f v u w := ⟨schemas', target, hshape, htarget, hw⟩
      exact ⟨i, t, key, f, schemas', target, u, w, hr, ht, hget, hshape, htarget,
        hn.normal (hfields key f v hget hv), rfl⟩
    | deeper hp hc hs =>
      obtain ⟨key, f, v, schemas', target, u, w, hget, hv, hshape, htarget, hw, rfl⟩ :=
        nested_of_child hk hfields hp hc
      have hedge : types.Edge i target := ⟨t, key, f, ht, hget, by rw [Field.target?, hshape]⟩
      exact (hf key f v hget hv).2 u w ⟨schemas', target, hshape, htarget, hw⟩ target schemas'
        (hr.tail hedge) htarget hs
  exact Normal.induction hall h i schemas hr ht hs

/-- **Every portion of the plan of a payload in normal form has a property** that the portions of fields
have. `Q` is what is known of a payload and of those nested in it. -/
theorem Normal.plan_all {P : Portion → Prop} {Q : NodeType → Json → Prop}
    (hq : ∀ t vs, Q t (.object vs) → ∀ key f v, t.fields.get? key = some f → Table.find key vs = some v →
      (NormalField types f v → ∀ p, PortionOf types key f v p → P p) ∧
        ∀ u w, Nested types f v u w → Q u w)
    {t : NodeType} {v : Json} (h : Normal types t v) (hv : Q t v) (schemas : List String) :
    (Plan.ofPayload types t schemas v).All P := by
  have hall : Hereditary types fun t v => Q t v → ∀ schemas,
      (Plan.ofPayload types t schemas v).All P := by
    intro t vs hk hf hv schemas
    have hfields := fun key f v ht hv => (hf key f v ht hv).1
    refine .document (fun p hp => ?_) fun key plans hp child hc => ?_
    · obtain ⟨key, f, v, hget, hfind, hportion⟩ := portionOf_of_mem hk hfields hp
      exact (hq t vs hv key f v hget hfind).1 (hfields key f v hget hfind) p hportion
    · obtain ⟨key, f, v, schemas', target, u, w, hget, hfind, hs, ht, hw, rfl⟩ :=
        nested_of_child hk hfields hp hc
      have hn : Nested types f v u w := ⟨schemas', target, hs, ht, hw⟩
      exact (hf key f v hget hfind).2 u w hn ((hq t vs hv key f v hget hfind).2 u w hn) schemas'
  exact Normal.induction hall h hv schemas

end ContentGraph.Payload
