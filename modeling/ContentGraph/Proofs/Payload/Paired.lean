import ContentGraph.Proofs.Payload.Conformance
import ContentGraph.Proofs.TypeGraph.Matching

/-!
# Payloads of graphs that match

Types that match have the same payloads (`Payload.Conforms.of_matches`), and so two graphs that match
accept the same (`TypeGraph.Matches.exists_validatePayload`). The normal forms of one payload hold under
each key the normal forms of the same values, one by one (`Payload.Normalises.paired`).
-/

namespace ContentGraph

variable {source : Source} {types types' : Catalogue} {t t' : NodeType} {root i : String}

namespace Payload

/-! ### The same payloads -/

mutual

/-- A payload of a type is one of every type that matches it. -/
theorem Conforms.of_matches (hm : types.Matches source types' root) :
    ∀ {t t' : NodeType} {p : Json} {i : String}, Conforms types t p → types.Reaches root i →
    types.get? i = some t → types'.get? i = some t' → Conforms types' t' p
  | t, t', .object ms, i, .object known present values, hr, ht, ht' => by
    have hmatch := hm.of_get? hr ht ht'
    refine .object (fun key hk => hmatch.keys.mem_iff.1 (known key hk)) (fun key f' hf' hone => ?_)
      fun key f' v hf' hv => ?_
    · obtain ⟨f, hf⟩ := hmatch.exists_left hf'
      exact present key f hf ((hmatch.fields hf hf').multiple_eq.trans hone)
    · obtain ⟨f, hf⟩ := hmatch.exists_left hf'
      exact ConformsField.of_matches hm (values key f v hf hv) (hmatch.fields hf hf') (hr.target ht hf)

theorem ConformsField.of_matches (hm : types.Matches source types' root) : ∀ {f f' : Field} {v : Json},
    ConformsField types f v → f.Matches source f' → (∀ j, f.target? = some j → types.Reaches root j) →
    ConformsField types' f' v
  | ⟨shape, _⟩, ⟨shape', _⟩, v, .one hi, hmatch, hr => by
    cases hmatch.multiple_eq
    exact .one (ConformsItem.of_matches hm hi hmatch.shape hr)
  | ⟨shape, _⟩, ⟨shape', _⟩, .list vs, .many his, hmatch, hr => by
    cases hmatch.multiple_eq
    exact .many fun v hv => ConformsItem.of_matches hm (his v hv) hmatch.shape hr

theorem ConformsItem.of_matches (hm : types.Matches source types' root) : ∀ {shape shape' : Shape} {v : Json},
    ConformsItem types shape v → shape.Matches source shape' →
    (∀ j, (⟨shape, false⟩ : Field).target? = some j → types.Reaches root j) → ConformsItem types' shape' v
  | _, _, _, .string, .value, _ => .string
  | _, _, _, .integer hn, .value, _ => .integer hn
  | _, _, _, .number, .value, _ => .number
  | _, _, _, .file hc hu ho, .value, _ => .file hc hu ho
  | .node _ target, _, _, .node (t := t) ht hc, .node _, hr => by
    have htarget := hr target rfl
    obtain ⟨t', ht', -⟩ := hm target t htarget ht
    exact .node ht' (Conforms.of_matches hm hc htarget ht ht')

end

/-! ### Normal forms of one payload -/

variable {f f' : Field} {p v w v' w' : Json}

/-- The values under a field depend on whether it may repeat. -/
theorem fieldValues_congr (h : f.multiple = f'.multiple) (v : Json) : fieldValues f v = fieldValues f' v := by
  unfold fieldValues
  rw [h]

theorem NormalField.fieldValues_nil (h : NormalField types f (.list [])) : fieldValues f (.list []) = [] := by
  cases h with
  | one hi =>
    cases hi with
    | node _ hn => cases hn
  | many _ => rfl

/-- The normal form of a value under a field holds the normal forms of its values. -/
theorem NormalisesField.items (h : NormalisesField types f v w) :
    List.Forall₂ (NormalisesItem types f.shape) (fieldValues f v) (fieldValues f w) := by
  cases h with
  | one hi => exact .cons hi .nil
  | many hl hat => exact forall₂_iff_getElem?.2 ⟨hl, hat⟩

/-- Two values are normal forms of one value under two shapes. -/
def Paired (types types' : Catalogue) (shape shape' : Shape) (w w' : Json) : Prop :=
  ∃ v, NormalisesItem types shape v w ∧ NormalisesItem types' shape' v w'

/-- The normal form of content does not depend on the types. -/
theorem Paired.eq_of_value {kind : ValueKind} (h : Paired types types' (.value kind) (.value kind) w w') :
    w = w' := by
  obtain ⟨v, hv, hv'⟩ := h
  cases hv with
  | string =>
    cases hv'
    rfl
  | integer hx =>
    cases hv' with
    | integer hx' => rw [hx.unique hx']
  | number =>
    cases hv'
    rfl
  | file hc hu =>
    cases hv' with
    | file hc' hu' =>
      cases hc.symm.trans hc'
      cases hu.symm.trans hu'
      rfl

/-- **Normal forms of one payload hold under each key the normal forms of the same values**, one by one
and in order. -/
theorem Normalises.paired {vs vs' : List (String × Json)} {key : String}
    (h : Normalises types t p (.object vs)) (h' : Normalises types' t' p (.object vs'))
    (hf : t.fields.get? key = some f) (hf' : t'.fields.get? key = some f') (hm : f.multiple = f'.multiple)
    (hv : Table.find key vs = some v) (hv' : Table.find key vs' = some v') (hn : NormalField types f v) :
    List.Forall₂ (Paired types types' f.shape f'.shape) (fieldValues f v) (fieldValues f' v') := by
  cases h with
  | @object _ ms _ _ hat hnone =>
    cases h' with
    | object _ hat' hnone' =>
      cases hu : Table.find key ms with
      | none =>
        cases hnone key v hu hv
        cases hnone' key v' hu hv'
        rw [← fieldValues_congr hm, hn.fieldValues_nil]
        exact .nil
      | some u =>
        have hitems := (hat key f u v hf hu hv).items
        have hitems' := (hat' key f' u v' hf' hu hv').items
        rw [← fieldValues_congr hm u] at hitems'
        exact forall₂_comp hitems.flip hitems'

end Payload

/-- A payload that a graph accepts is accepted by one that it matches. -/
theorem TypeGraph.Matches.exists_validatePayload {graph graph' : TypeGraph}
    (h : graph.Matches source graph') (hn : graph.DistinctNames) (hn' : graph'.DistinctNames)
    {payload v : Json} (hv : graph.validatePayload payload = .ok v) :
    ∃ v', graph'.validatePayload payload = .ok v' := by
  have hconforms := (conforms_of_validatePayload hn hv).1
  exact graph'.exists_validatePayload hn' (hconforms.of_matches h.types .refl graph.root_mem h.get?_root)

end ContentGraph
