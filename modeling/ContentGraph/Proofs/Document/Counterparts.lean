import ContentGraph.Proofs.Document.Buildable
import ContentGraph.Proofs.Document.Records
import ContentGraph.Proofs.Payload.Paired
import Mathlib.Data.Multiset.AddSub

/-!
# Counterparts of documents

Two documents are counterparts where they advertise the same schemas, under each key stand the same
elements in the same order, and references lead to counterparts (`Counterpart`). The elements of
different keys may stand in another order, and schemas may be named in another order or through an
alias, so that counterparts may have different addresses.

The documents of one payload for two catalogues that match are counterparts, one by one
(`Payload.Normalises.parallel`). Where the catalogues agree on all types that a type leads to, its
payloads have the same plans (`Payload.Normalises.plan_eq`).
-/

namespace ContentGraph

mutual

/-- Two documents hold the same, up to the order of keys and how schemas are named; so do the documents
that they refer to, at their addresses with a prefix. -/
inductive Counterpart (source : Source) (lead : String) : Document → Document → Prop
  /-- They have one version and advertise the same schemas, and the elements under each key are as many
  and correspond one by one. -/
  | document {d d' : Document} : d.version = d'.version → source.SameSchemas d.schemas d'.schemas →
      (∀ key, (d.elementsFor key).length = (d'.elementsFor key).length) →
      (∀ (key : String) (n : ℕ) (e e' : Element), (d.elementsFor key)[n]? = some e →
        (d'.elementsFor key)[n]? = some e' → CounterpartAt source lead e e') →
      Counterpart source lead d d'

/-- Two elements hold the same, or refer to counterparts. -/
inductive CounterpartAt (source : Source) (lead : String) : Element → Element → Prop
  /-- A text, a number or a file. -/
  | value {e : Element} : e.kind ≠ .node → CounterpartAt source lead e e
  /-- A reference. -/
  | node {key : Key} {d d' : Document} : Counterpart source lead d d' →
      CounterpartAt source lead ⟨key, .node ((Resource.document d).address lead)⟩
        ⟨key, .node ((Resource.document d').address lead)⟩

end

/-- Lists that are put together of related lists, one by one, are related up to order. -/
theorem rel_flatMap {α β γ δ : Type} {P : γ → δ → Prop} {f : α → List γ} {g : β → List δ} {as : List α}
    {bs : List β} (h : List.Forall₂ (fun a b => Multiset.Rel P (f a : Multiset γ) (g b)) as bs) :
    Multiset.Rel P (as.flatMap f : Multiset γ) (bs.flatMap g) := by
  induction h with
  | nil => exact .zero
  | cons hab _ ih =>
    rw [List.flatMap_cons, List.flatMap_cons, ← Multiset.coe_add, ← Multiset.coe_add]
    exact hab.add ih

theorem Element.ofKey_content {key : String} {content : Content} {e : Element} (h : ofKey key content = .ok e)
    (other : Content) : ofKey key other = .ok ⟨e.key, other⟩ := by
  obtain ⟨k, hk, rfl⟩ := Checked.map_eq_ok_iff.1 h
  exact Checked.map_eq_ok_iff.2 ⟨k, hk, rfl⟩

section

variable (source : Source) (lead version : String)

/-- Where a plan stands for a document, another stands for a counterpart of it, and what is beneath them
are counterparts. -/
def Plan.Parallels (plan plan' : Plan) : Prop :=
  ∀ d, plan.realised? lead version = some d → ∃ d', plan'.realised? lead version = some d' ∧
    Counterpart source lead d d' ∧
    Multiset.Rel (Counterpart source lead) (plan.beneath lead version) (plan'.beneath lead version)

end

variable {source : Source} {lead version : String}

theorem Plan.Parallels.documents {plan plan' : Plan} {d : Document}
    (h : plan.Parallels source lead version plan') (hd : plan.realised? lead version = some d) :
    ∃ d', plan'.realised? lead version = some d' ∧ Counterpart source lead d d' ∧
      Multiset.Rel (Counterpart source lead) (plan.documents lead version) (plan'.documents lead version) := by
  obtain ⟨d', hd', hcounterpart, hbeneath⟩ := h d hd
  refine ⟨d', hd', hcounterpart, ?_⟩
  rw [Plan.documents, Plan.documents, hd, hd', ← Multiset.coe_add, ← Multiset.coe_add]
  exact hbeneath.add (.cons hcounterpart .zero)

namespace Payload

variable {types types' : Catalogue} {t t' : NodeType} {key root : String}

/-! ### Items -/

/-- An element of a value, its counterpart among other types, and what is stored for both. -/
def ItemParallels (source : Source) (types types' : Catalogue) (lead version key : String)
    (shape shape' : Shape) (w w' : Json) : Prop :=
  ∀ e, itemElement? types lead version key shape w = some e →
    ∃ e', itemElement? types' lead version key shape' w' = some e' ∧ CounterpartAt source lead e e' ∧
      Multiset.Rel (Counterpart source lead) (itemDocuments types lead version shape w)
        (itemDocuments types' lead version shape' w')

/-- Two normal forms of one value give counterparts, where the plans of nested payloads are parallel. -/
theorem Paired.parallels {shape shape' : Shape} {w w' : Json} (h : Paired types types' shape shape' w w')
    (hm : shape.Matches source shape')
    (hn : ∀ schemas schemas' target u u' v, shape = .node schemas target →
      shape' = .node schemas' target → types.get? target = some u → types'.get? target = some u' →
      Normalises types u v w → Normalises types' u' v w' →
      (Plan.ofPayload types u schemas w).Parallels source lead version (.ofPayload types' u' schemas' w')) :
    ItemParallels source types types' lead version key shape shape' w w' := by
  intro e he
  cases hm with
  | @value kind =>
    cases h.eq_of_value
    refine ⟨e, he, .value fun hk => ?_, .zero⟩
    cases hv : Plan.valueElement key kind w with
    | error fault =>
      rw [itemElement?, hv] at he
      cases he
    | ok e' =>
      rw [itemElement?, hv] at he
      cases he
      cases (Plan.kind_of_valueElement hv).symm.trans hk
  | @node schemas schemas' target hs =>
    obtain ⟨v, hv, hv'⟩ := h
    obtain - | - | - | - | ⟨hu, hnorm⟩ := hv
    obtain - | - | - | - | ⟨hu', hnorm'⟩ := hv'
    rw [itemElement?_node hu] at he
    obtain ⟨d, hd, he⟩ := Option.bind_eq_some_iff.1 he
    have hof := Checked.toOption_eq_some_iff.1 he
    obtain ⟨d', hd', hcounterpart, hdocuments⟩ :=
      (hn schemas schemas' target _ _ v rfl rfl hu hu' hnorm hnorm').documents hd
    refine ⟨⟨e.key, .node ((Resource.document d').address lead)⟩, ?_, ?_, ?_⟩
    · rw [itemElement?_node hu']
      dsimp only
      rw [hd', Option.bind_some]
      exact Checked.toOption_eq_some_iff.2 (Element.ofKey_content hof _)
    · obtain ⟨-, hc⟩ := Element.ofKey_eq_ok hof
      obtain ⟨k, _⟩ := e
      cases hc
      exact .node hcounterpart
    · rw [itemDocuments_node hu, itemDocuments_node hu']
      exact hdocuments

/-- So do all values under a key. -/
theorem exists_counterparts {shape shape' : Shape} {ws ws' : List Json} {es : List Element}
    (h : List.Forall₂ (ItemParallels source types types' lead version key shape shape') ws ws')
    (hes : ws.mapM (itemElement? types lead version key shape) = some es) :
    ∃ es', ws'.mapM (itemElement? types' lead version key shape') = some es' ∧
      List.Forall₂ (CounterpartAt source lead) es es' ∧
      Multiset.Rel (Counterpart source lead) (ws.flatMap (itemDocuments types lead version shape))
        (ws'.flatMap (itemDocuments types' lead version shape')) := by
  induction h generalizing es with
  | nil =>
    cases hes
    exact ⟨[], rfl, .nil, .zero⟩
  | cons hw _ ih =>
    rw [List.mapM_cons] at hes
    obtain ⟨e, he, hes⟩ := Option.bind_eq_some_iff.1 hes
    obtain ⟨others, ho, hes⟩ := Option.bind_eq_some_iff.1 hes
    cases hes
    obtain ⟨e', he', hat, hdocuments⟩ := hw e he
    obtain ⟨others', ho', hats, hothers⟩ := ih ho
    refine ⟨e' :: others', ?_, .cons hat hats, ?_⟩
    · rw [List.mapM_cons, he', ho']
      rfl
    · rw [List.flatMap_cons, List.flatMap_cons, ← Multiset.coe_add, ← Multiset.coe_add]
      exact hdocuments.add hothers

/-! ### Documents -/

/-- A plan of a payload stands for a document where every value has an element. -/
theorem exists_realised {vs : List (String × Json)} (hc : ∀ f ∈ t.fields.values, f.Targeted types)
    (hf : ∀ key f, t.fields.get? key = some f → ∃ v es, Table.find key vs = some v ∧ NormalField types f v ∧
      (fieldValues f v).mapM (itemElement? types lead version key f.shape) = some es)
    (schemas : List String) :
    ∃ d, (Plan.ofPayload types t schemas (.object vs)).realised? lead version = some d := by
  have hportions : ∀ p ∈ portions types vs t.fields.entries, ∃ es, p.elements? lead version = some es := by
    intro p hp
    obtain ⟨⟨key, f⟩, he, rfl⟩ := List.mem_map.1 hp
    obtain ⟨v, es, hv, hnormal, hes⟩ := hf key f (Table.get?_eq_some_iff.2 he)
    refine ⟨es, ?_⟩
    dsimp only
    rw [portion_eq hv, elements?_fieldPortion hnormal (hc f (List.mem_map.2 ⟨_, he, rfl⟩))]
    exact hes
  obtain ⟨es, hes⟩ := exists_portionsElements hportions
  exact ⟨⟨version, schemas, es⟩, by rw [Plan.ofPayload, Plan.realised?, hes, Option.map_some]⟩

end Payload

/-- What is put together of the entries of a table is put together of its keys. -/
theorem Table.flatMap_entries {α β : Type} (t : Table α) (g : String → α → List β) :
    (t.entries.flatMap fun e => g e.1 e.2) = t.keys.flatMap fun key => ((t.get? key).map (g key)).getD [] := by
  rw [Table.keys, List.flatMap_map]
  refine List.flatMap_congr fun e he => ?_
  rw [Table.get?_eq_some_iff.2 he]
  rfl

namespace Payload

variable {types types' : Catalogue} {t t' : NodeType} {root i : String} {schemas schemas' : List String}

/-- Payloads of types that match stand for counterparts, where the values under their keys do. -/
theorem parallels_object {vs vs' : List (String × Json)} (hm : t.Matches source t')
    (hs : source.SameSchemas schemas schemas') (h : Normal types t (.object vs))
    (h' : Normal types' t' (.object vs')) (hc : ∀ f ∈ t'.fields.values, f.Targeted types')
    (hitems : ∀ key f f' v v', t.fields.get? key = some f → t'.fields.get? key = some f' →
      Table.find key vs = some v → Table.find key vs' = some v' →
      List.Forall₂ (ItemParallels source types types' lead version key f.shape f'.shape)
        (fieldValues f v) (fieldValues f' v')) :
    (Plan.ofPayload types t schemas (.object vs)).Parallels source lead version
      (.ofPayload types' t' schemas' (.object vs')) := by
  intro d hd
  have hreal := h.realises hd
  have hat : ∀ key f f', t.fields.get? key = some f → t'.fields.get? key = some f' → ∃ v' es',
      Table.find key vs' = some v' ∧ NormalField types' f' v' ∧
      (fieldValues f' v').mapM (itemElement? types' lead version key f'.shape) = some es' ∧
      List.Forall₂ (CounterpartAt source lead) (d.elementsFor key) es' ∧
      Multiset.Rel (Counterpart source lead) (documentsAt types lead version vs key f)
        (documentsAt types' lead version vs' key f') := by
    intro key f f' hf hf'
    obtain ⟨v, hv, -⟩ := h.exists_member hf
    obtain ⟨v', hv', hnormal⟩ := h'.exists_member hf'
    obtain ⟨es', hes', helements, hdocuments⟩ :=
      exists_counterparts (hitems key f f' v v' hf hf' hv hv') (hreal.elements key f v hf hv)
    refine ⟨v', es', hv', hnormal, hes', helements, ?_⟩
    rw [documentsAt_eq hv, documentsAt_eq hv']
    exact hdocuments
  obtain ⟨d', hd'⟩ := exists_realised hc (fun key f' hf' => by
    obtain ⟨f, hf⟩ := hm.exists_left hf'
    obtain ⟨v', es', hv', hnormal, hes', -⟩ := hat key f f' hf hf'
    exact ⟨v', es', hv', hnormal, hes'⟩) schemas'
  have hreal' := h'.realises hd'
  have helements : ∀ key,
      List.Forall₂ (CounterpartAt source lead) (d.elementsFor key) (d'.elementsFor key) := by
    intro key
    by_cases hk : key ∈ t.fields.keys
    · obtain ⟨f, hf⟩ := Table.mem_keys_iff.1 hk
      obtain ⟨f', hf'⟩ := hm.exists_right hf
      obtain ⟨v', es', hv', -, hes', hforall, -⟩ := hat key f f' hf hf'
      cases hes'.symm.trans (hreal'.elements key f' v' hf' hv')
      exact hforall
    · rw [Document.elementsFor_eq_nil hreal.knows hk,
        Document.elementsFor_eq_nil hreal'.knows fun hk' => hk (hm.keys.mem_iff.2 hk')]
      exact .nil
  refine ⟨d', hd', .document (hreal.version_eq.trans hreal'.version_eq.symm) ?_
    (fun key => (helements key).length_eq) fun key => (forall₂_iff_getElem?.1 (helements key)).2, ?_⟩
  · rw [hreal.schemas_eq, hreal'.schemas_eq]
    exact hs
  · rw [hreal.beneath, hreal'.beneath, Table.flatMap_entries, Table.flatMap_entries,
      ← Multiset.coe_eq_coe.2 (hm.keys.flatMap_right _)]
    refine rel_flatMap (List.forall₂_same.2 fun key hk => ?_)
    obtain ⟨f, hf⟩ := Table.mem_keys_iff.1 hk
    obtain ⟨f', hf'⟩ := hm.exists_right hf
    obtain ⟨_, _, -, -, -, -, hdocuments⟩ := hat key f f' hf hf'
    rw [hf, hf']
    exact hdocuments

/-- **The normal forms of one payload, for catalogues that match, stand for counterparts.** -/
theorem Normalises.parallel (hm : types.Matches source types' root) (hc : types'.Closed) {p v v' : Json}
    (h : Normalises types t p v) (h' : Normalises types' t' p v') (hn : Normal types t v)
    (hn' : Normal types' t' v') (hr : types.Reaches root i) (ht : types.get? i = some t)
    (ht' : types'.get? i = some t') (hs : source.SameSchemas schemas schemas') :
    (Plan.ofPayload types t schemas v).Parallels source lead version (.ofPayload types' t' schemas' v') := by
  have hall : Hereditary types fun t v => ∀ i t' p v' schemas schemas', types.Reaches root i →
      types.get? i = some t → types'.get? i = some t' → Normalises types t p v → Normalises types' t' p v' →
      Normal types' t' v' → source.SameSchemas schemas schemas' →
      (Plan.ofPayload types t schemas v).Parallels source lead version
        (.ofPayload types' t' schemas' v') := by
    intro t vs hk hf i t' p v' schemas schemas' hr ht ht' hp hp' hv' hs
    obtain ⟨vs', rfl⟩ := hv'.exists_object
    have hmatch := hm.of_get? hr ht ht'
    have hc : ∀ f ∈ t'.fields.values, f.Targeted types' := by
      intro f hf target htarget
      obtain ⟨⟨key, f⟩, he, rfl⟩ := List.mem_map.1 hf
      exact Table.mem_keys_iff.1 (hc i t' ht' key f (Table.get?_eq_some_iff.2 he) target htarget)
    have hv : Normal types t (.object vs) :=
      normal_object_iff.2 ⟨hk, fun key f v hget hv => (hf key f v hget hv).1⟩
    refine parallels_object hmatch hs hv hv' hc ?_
    intro key f f' v v' hget hget' hfind hfind'
    have hfield := hmatch.fields hget hget'
    obtain ⟨hnormal, hnested⟩ := hf key f v hget hfind
    have hnormal' := (normal_object_iff.1 hv').2 key f' v' hget' hfind'
    obtain ⟨hl, hat⟩ := forall₂_iff_getElem?.1
      (hp.paired hp' hget hget' hfield.multiple_eq hfind hfind' hnormal)
    refine forall₂_iff_getElem?.2 ⟨hl, fun n w w' hw hw' => (hat n w w' hw hw').parallels hfield.shape ?_⟩
    intro ss ss' target u u' x hshape hshape' hu hu' hx hx'
    have hsame := hfield.shape
    rw [hshape, hshape'] at hsame
    obtain - | hsame := hsame
    exact hnested u w ⟨ss, target, hshape, hu, List.mem_of_getElem? hw⟩ target u' x w' ss ss'
      (hr.target ht hget target (by rw [Field.target?, hshape])) hu hu' hx hx'
      (Nested.normal ⟨ss', target, hshape', hu', List.mem_of_getElem? hw'⟩ hnormal') hsame
  exact Normal.induction hall hn i t' p v' schemas schemas' hr ht ht' h h' hn' hs

/-! ### Catalogues that agree -/

/-- A value under a field is known by the values that it holds. -/
theorem NormalField.eq_of_fieldValues {f : Field} {v v' : Json} (h : NormalField types f v)
    (h' : NormalField types' f v') (he : fieldValues f v = fieldValues f v') : v = v' := by
  cases h with
  | one _ => exact List.singleton_inj.1 he
  | many _ =>
    cases h' with
    | many _ => exact congrArg Json.list he

/-- Values under a field that hold the same payloads, one by one, have one portion. -/
theorem NormalField.portion_eq {f : Field} {key : String} {v v' : Json} (h : NormalField types f v)
    (h' : NormalField types' f v')
    (hp : List.Forall₂ (Paired types types' f.shape f.shape) (fieldValues f v) (fieldValues f v'))
    (ha : ∀ target, f.target? = some target → types'.get? target = types.get? target)
    (hn : ∀ w w' schemas target u x, f.shape = .node schemas target → types.get? target = some u →
      w ∈ fieldValues f v → Normalises types u x w → Normalises types' u x w' → Normal types' u w' →
      w = w' ∧ ∀ schemas, Plan.ofPayload types u schemas w = .ofPayload types' u schemas w') :
    v = v' ∧ fieldPortion types key f v = fieldPortion types' key f v' := by
  obtain ⟨hl, hat⟩ := forall₂_iff_getElem?.1 hp
  obtain ⟨shape, multiple⟩ := f
  cases shape with
  | value kind =>
    have hvalues : List.Forall₂ (· = ·) (fieldValues ⟨.value kind, multiple⟩ v)
        (fieldValues ⟨.value kind, multiple⟩ v') := hp.imp fun _ _ hw => hw.eq_of_value
    rw [List.forall₂_eq_eq_eq] at hvalues
    cases h.eq_of_fieldValues h' hvalues
    exact ⟨rfl, rfl⟩
  | node schemas target =>
    have hitems : List.Forall₂ (fun w w' => w = w' ∧ ∀ u, types.get? target = some u →
        Plan.ofPayload types u schemas w = .ofPayload types' u schemas w')
        (fieldValues ⟨.node schemas target, multiple⟩ v) (fieldValues ⟨.node schemas target, multiple⟩ v') := by
      refine forall₂_iff_getElem?.2 ⟨hl, fun n w w' hw hw' => ?_⟩
      obtain ⟨x, hx, hx'⟩ := hat n w w' hw hw'
      obtain - | - | - | - | ⟨hu, hx⟩ := hx
      obtain - | - | - | - | ⟨hu', hx'⟩ := hx'
      cases hu.symm.trans ((ha target rfl).symm.trans hu')
      have hnormal := Nested.normal ⟨schemas, target, rfl, hu', List.mem_of_getElem? hw'⟩ h'
      obtain ⟨he, hplan⟩ := hn w w' schemas target _ x rfl hu (List.mem_of_getElem? hw) hx hx' hnormal
      refine ⟨he, fun u hu' => ?_⟩
      cases hu.symm.trans hu'
      exact hplan schemas
    have hvalues := hitems.imp fun _ _ hw => hw.1
    rw [List.forall₂_eq_eq_eq] at hvalues
    cases h.eq_of_fieldValues h' hvalues
    refine ⟨rfl, ?_⟩
    unfold fieldPortion
    dsimp only
    rw [ha target rfl]
    cases hu : types.get? target with
    | none => rfl
    | some u =>
      dsimp only
      rw [planValue_normal hu h, planValue_normal ((ha target rfl).trans hu) h']
      refine congrArg _ (List.map_congr_left fun w hw => ?_)
      exact (List.forall₂_same.1 hitems w hw).2 u hu

/-- **Where catalogues agree on all types that a type leads to**, a payload of it has one normal form, and
that has one plan. -/
theorem Normalises.plan_eq {p v v' : Json} (ha : types.AgreeFrom types' i) (ht : types.get? i = some t)
    (h : Normalises types t p v) (h' : Normalises types' t p v') (hn : Normal types t v)
    (hn' : Normal types' t v') :
    v = v' ∧ ∀ schemas, Plan.ofPayload types t schemas v = .ofPayload types' t schemas v' := by
  have hall : Hereditary types fun t v => ∀ i p v', types.AgreeFrom types' i → types.get? i = some t →
      Normalises types t p v → Normalises types' t p v' → Normal types' t v' →
      v = v' ∧ ∀ schemas, Plan.ofPayload types t schemas v = .ofPayload types' t schemas v' := by
    intro t vs hk hf i p v' ha ht hp hp' hn'
    obtain ⟨vs', rfl⟩ := hn'.exists_object
    obtain ⟨hk', hf'⟩ := normal_object_iff.1 hn'
    have hat : ∀ key f v v', t.fields.get? key = some f → Table.find key vs = some v →
        Table.find key vs' = some v' → v = v' ∧ fieldPortion types key f v = fieldPortion types' key f v' := by
      intro key f v v' hget hv hv'
      obtain ⟨hnormal, hnested⟩ := hf key f v hget hv
      exact hnormal.portion_eq (hf' key f v' hget hv') (hp.paired hp' hget hget rfl hv hv' hnormal)
        (fun target htarget => ha target (.single ⟨t, key, f, ht, hget, htarget⟩))
        fun w w' schemas target u x hs hu hw hx hx' hw' => hnested u w ⟨schemas, target, hs, hu, hw⟩ target x w'
          (ha.edge ⟨t, key, f, ht, hget, by rw [Field.target?, hs]⟩) hu hx hx' hw'
    have hvs : vs' = vs := Table.eq_of_find (hk ▸ t.fields.nodup) (hk'.trans hk.symm) fun key v v' hv hv' => by
      obtain ⟨f, hget⟩ := Table.mem_keys_iff.1 (hk ▸ List.mem_map.2 ⟨_, Table.mem_of_find hv, rfl⟩)
      exact (hat key f v v' hget hv hv').1.symm
    subst hvs
    refine ⟨rfl, fun schemas => ?_⟩
    rw [Plan.ofPayload, Plan.ofPayload]
    refine congrArg _ (List.map_congr_left fun e he => ?_)
    have hget := Table.get?_eq_some_iff.2 he
    obtain ⟨v, hv⟩ := Table.exists_find (hk ▸ Table.mem_keys_iff.2 ⟨_, hget⟩)
    rw [portion_eq hv, portion_eq hv]
    exact (hat e.1 e.2 v v hget hv hv).2
  exact Normal.induction hall hn i p v' ha ht h h' hn'

end Payload

end ContentGraph
