import ContentGraph.Proofs.Document.Realisation
import ContentGraph.Proofs.Lists
import ContentGraph.Proofs.Payload.NormalForm
import ContentGraph.Proofs.Resource.RoundTrip

/-!
# Elements of payloads

The plan of a payload in normal form has one portion for each field (`portion_eq`). The elements of a
portion are those of the values under its field, one by one and in order (`elements?_fieldPortion`), and so
are the documents beneath it (`beneath_fieldPortion`).
-/

namespace ContentGraph

theorem Checked.toOption_toExcept {α : Type} (x : Checked α) : x.toExcept.toOption = x.toOption := by
  cases x <;> rfl

theorem Checked.toOption_eq_some_iff {α : Type} {x : Checked α} {a : α} :
    x.toOption = some a ↔ x = .ok a := by
  cases x <;> simp [toOption]

/-! ### Elements of single values -/

/-- Elements of one key stand before those of other keys: what stands under the key are the first, and
what stands under another are some of the others. -/
theorem filter_key_append {here others : List Element} {key : String} {keys : List String}
    (hhere : ∀ e ∈ here, e.key.text = key) (hothers : ∀ e ∈ others, e.key.text ∈ keys) (hn : key ∉ keys) :
    ((here ++ others).filter fun e => e.key.text = key) = here ∧
      ∀ other ∈ keys, ((here ++ others).filter fun e => e.key.text = other)
        = others.filter fun e => e.key.text = other := by
  constructor
  · have hno : ∀ e ∈ others, ¬ decide (e.key.text = key) = true :=
      fun e he hek => hn (of_decide_eq_true hek ▸ hothers e he)
    rw [List.filter_append, List.filter_eq_self.2 fun e he => decide_eq_true (hhere e he),
      List.filter_eq_nil_iff.2 hno, List.append_nil]
  · intro other hother
    have hno : ∀ e ∈ here, ¬ decide (e.key.text = other) = true := by
      intro e he hek
      rw [hhere e he] at hek
      exact hn (of_decide_eq_true hek ▸ hother)
    rw [List.filter_append, List.filter_eq_nil_iff.2 hno, List.nil_append]

namespace Element

/-- The element with a key that is read and with given content. -/
def ofKey (key : String) (content : Content) : Checked Element :=
  ((Json.text key).asKey.under (.member "key")).map fun k => ⟨k, content⟩

theorem ofKey_eq_ok {key : String} {content : Content} {e : Element} (h : ofKey key content = .ok e) :
    e.key.text = key ∧ e.content = content := by
  obtain ⟨k, hk, rfl⟩ := Checked.map_eq_ok_iff.1 h
  have hkey : Json.text key = .text k.text := Json.asKey_eq_ok_iff.1 (Checked.under_eq_ok_iff.1 hk)
  exact ⟨(Json.text.inj hkey).symm, rfl⟩

theorem readString_eq (key s : String) :
    readString [("key", .text key), ("value", .text s)] = ofKey key (.string s) := by
  have hk : required [("key", .text key), ("value", .text s)] "key" Json.asKey
      = (Json.text key).asKey.under (.member "key") := rfl
  unfold readString ofKey
  rw [hk]
  cases (Json.text key).asKey <;> rfl

theorem readNumber_eq (key : String) (x : Binary) :
    readNumber [("key", .text key), ("value", .number x)] = ofKey key (.number x) := by
  have hk : required [("key", .text key), ("value", .number x)] "key" Json.asKey
      = (Json.text key).asKey.under (.member "key") := rfl
  unfold readNumber ofKey
  rw [hk]
  cases (Json.text key).asKey <;> rfl

theorem readFile_eq (key contentType uri : String) :
    readFile [("key", .text key), ("content_type", .text contentType), ("uri", .text uri)]
      = ofKey key (.file contentType uri) := by
  have hk : required [("key", .text key), ("content_type", .text contentType), ("uri", .text uri)] "key"
      Json.asKey = (Json.text key).asKey.under (.member "key") := rfl
  unfold readFile ofKey
  rw [hk]
  cases (Json.text key).asKey <;> rfl

theorem readNode_eq (key uri : String) :
    readNode [("key", .text key), ("uri", .text uri)] = ofKey key (.node uri) := by
  have hk : required [("key", .text key), ("uri", .text uri)] "key" Json.asKey
      = (Json.text key).asKey.under (.member "key") := rfl
  unfold readNode ofKey
  rw [hk]
  cases (Json.text key).asKey <;> rfl

end Element

/-! ### Portions of fields -/

/-- The type that a field leads to is there. -/
def Field.Targeted (types : Catalogue) (f : Field) : Prop :=
  ∀ target, f.target? = some target → ∃ t, types.get? target = some t

namespace Payload

/-- The element of one value under a field. -/
def itemElement? (types : Catalogue) (lead version key : String) (shape : Shape) (v : Json) :
    Option Element :=
  match shape with
  | .value kind => (Plan.valueElement key kind v).toOption
  | .node schemas target => (types.get? target).bind fun t =>
    ((Plan.ofPayload types t schemas v).realised? lead version).bind fun d =>
      (Element.ofKey key (.node ((Resource.document d).address lead))).toOption

/-- The documents that are stored for one value under a field. -/
def itemDocuments (types : Catalogue) (lead version : String) (shape : Shape) (v : Json) :
    List Document :=
  match shape with
  | .value _ => []
  | .node schemas target =>
    match types.get? target with
    | some t => (Plan.ofPayload types t schemas v).documents lead version
    | none => []

/-- The portion of the value under a field. -/
def fieldPortion (types : Catalogue) (key : String) (f : Field) (v : Json) : Portion :=
  match f.shape with
  | .value kind => Plan.valuePortion key kind f.multiple v
  | .node schemas target =>
    match types.get? target with
    | none => .fault .wrongShape
    | some t =>
      match Plan.planValue types v t f.multiple schemas with
      | .ok plans => .children key plans
      | .error fault => .fault fault

variable {types : Catalogue} {lead version key : String}

theorem find_planMembers (types : Catalogue) (key : String) (ms : List (String × Json)) :
    Table.find key (Plan.planMembers types ms) = (Table.find key ms).map (Plan.planValue types) := by
  induction ms with
  | nil => rfl
  | cons m rest ih =>
    obtain ⟨k, v⟩ := m
    by_cases h : k = key <;> simp [Plan.planMembers, Table.find, h, ih]

theorem portion_eq {ms : List (String × Json)} {v : Json} (h : Table.find key ms = some v) (f : Field) :
    Plan.portion types ms (Plan.planMembers types ms) key f = fieldPortion types key f v := by
  unfold Plan.portion fieldPortion
  rw [find_planMembers, h]
  rfl

theorem valuesOf_normal {f : Field} {v : Json} (h : NormalField types f v) :
    Plan.valuesOf f.multiple v = .ok (fieldValues f v) := by
  cases h <;> rfl

theorem planItems_normal {schemas : List String} {target : String} {t : NodeType}
    (ht : types.get? target = some t) : ∀ {vs : List Json}, NormalItems types (.node schemas target) vs →
    Plan.planItems types vs t schemas = vs.map (Plan.ofPayload types t schemas)
  | [], _ => by rw [Plan.planItems, List.map_nil]
  | v :: vs, .cons hv hvs => by
    cases hv with
    | node ht' hn =>
      cases ht.symm.trans ht'
      cases hn with
      | object hf =>
        rw [Plan.planItems, planItems_normal ht hvs, List.map_cons, Plan.planValue]
        rfl

theorem planValue_normal {schemas : List String} {target : String} {multiple : Bool} {t : NodeType}
    {v : Json} (ht : types.get? target = some t)
    (h : NormalField types ⟨.node schemas target, multiple⟩ v) :
    Plan.planValue types v t multiple schemas
      = .ok ((fieldValues ⟨.node schemas target, multiple⟩ v).map (Plan.ofPayload types t schemas)) := by
  cases h with
  | one hv =>
    cases hv with
    | node ht' hn =>
      cases ht.symm.trans ht'
      cases hn with
      | object hf =>
        rw [Plan.planValue]
        rfl
  | many hvs =>
    rw [Plan.planValue]
    exact congrArg Except.ok (planItems_normal ht hvs)

theorem plansRealised?_eq (plans : List Plan) :
    plansRealised? lead version plans = plans.mapM (Plan.realised? lead version) := by
  induction plans with
  | nil => rfl
  | cons p rest ih =>
    rw [plansRealised?, ih, List.mapM_cons]
    cases p.realised? lead version <;> [rfl; cases rest.mapM (Plan.realised? lead version) <;> rfl]

theorem references_toOption (key : String) (addresses : List String) :
    (Job.references key addresses).toOption
      = addresses.mapM fun address => (Element.ofKey key (.node address)).toOption := by
  rw [Job.references, mapM_toOption]
  simp only [Checked.toOption_toExcept, Element.readNode_eq]

theorem elements?_children (vs : List Json) (plan : Json → Plan) :
    (Portion.children key (vs.map plan)).elements? lead version
      = vs.mapM fun v => ((plan v).realised? lead version).bind fun d =>
        (Element.ofKey key (.node ((Resource.document d).address lead))).toOption := by
  rw [Portion.elements?, plansRealised?_eq, List.mapM_map]
  simp only [references_toOption, List.mapM_map]
  exact mapM_bind_mapM _ _ vs

theorem plansDocuments_eq (plans : List Plan) :
    plansDocuments lead version plans = plans.flatMap (Plan.documents lead version) := by
  induction plans with
  | nil => rfl
  | cons p rest ih => rw [plansDocuments, ih, List.flatMap_cons, Plan.documents]

theorem itemElement?_node {schemas : List String} {target : String} {t : NodeType}
    (ht : types.get? target = some t) :
    itemElement? types lead version key (.node schemas target) = fun v =>
      ((Plan.ofPayload types t schemas v).realised? lead version).bind fun d =>
        (Element.ofKey key (.node ((Resource.document d).address lead))).toOption := by
  funext v
  rw [itemElement?, ht, Option.bind_some]

theorem itemDocuments_node {schemas : List String} {target : String} {t : NodeType}
    (ht : types.get? target = some t) :
    itemDocuments types lead version (.node schemas target)
      = fun v => (Plan.ofPayload types t schemas v).documents lead version := by
  funext v
  rw [itemDocuments, ht]

/-- **The elements of a portion are those of the values under its field**, in order. -/
theorem elements?_fieldPortion {f : Field} {v : Json} (h : NormalField types f v)
    (ht : f.Targeted types) : (fieldPortion types key f v).elements? lead version
      = (fieldValues f v).mapM (itemElement? types lead version key f.shape) := by
  obtain ⟨shape, multiple⟩ := f
  cases shape with
  | value kind =>
    show _ = (fieldValues ⟨.value kind, multiple⟩ v).mapM
      fun v => (Plan.valueElement key kind v).toOption
    rw [← mapM_toOption]
    unfold fieldPortion Plan.valuePortion
    dsimp only
    have hvalues : ((Plan.valuesOf multiple v).bind fun vs => vs.mapM (Plan.valueElement key kind))
        = (fieldValues ⟨.value kind, multiple⟩ v).mapM (Plan.valueElement key kind) := by
      rw [valuesOf_normal h]
      rfl
    rw [hvalues]
    cases List.mapM (Plan.valueElement key kind) (fieldValues ⟨.value kind, multiple⟩ v) <;> rfl
  | node schemas target =>
    obtain ⟨t, ht⟩ := ht target rfl
    rw [itemElement?_node ht, ← elements?_children]
    unfold fieldPortion
    dsimp only
    rw [ht]
    dsimp only
    rw [planValue_normal ht h]

/-- The documents beneath a portion are those of the values under its field. -/
theorem beneath_fieldPortion {f : Field} {v : Json} (h : NormalField types f v)
    (ht : f.Targeted types) : (fieldPortion types key f v).beneath lead version
      = (fieldValues f v).flatMap (itemDocuments types lead version f.shape) := by
  obtain ⟨shape, multiple⟩ := f
  cases shape with
  | value kind =>
    have hnone : itemDocuments types lead version (.value kind) = fun _ => [] := rfl
    rw [hnone]
    unfold fieldPortion Plan.valuePortion
    dsimp only
    split <;> simp [Portion.beneath]
  | node schemas target =>
    obtain ⟨t, ht⟩ := ht target rfl
    rw [itemDocuments_node ht]
    unfold fieldPortion
    dsimp only
    rw [ht]
    dsimp only
    rw [planValue_normal ht h, Portion.beneath, plansDocuments_eq, List.flatMap_map]

/-- A portion with elements is one of a field whose type is there. -/
theorem targeted_of_elements? {f : Field} {v : Json} {es : List Element}
    (h : (fieldPortion types key f v).elements? lead version = some es) : f.Targeted types := by
  intro target hf
  obtain ⟨shape, multiple⟩ := f
  cases shape with
  | value kind => cases hf
  | node schemas other =>
    cases hf
    cases ht : types.get? target with
    | some t => exact ⟨t, rfl⟩
    | none =>
      unfold fieldPortion at h
      dsimp only at h
      rw [ht] at h
      cases h

end Payload

end ContentGraph
