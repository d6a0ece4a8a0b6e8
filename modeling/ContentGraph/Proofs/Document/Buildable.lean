import ContentGraph.Proofs.Document.Portions
import ContentGraph.Proofs.Payload.Conformance
import ContentGraph.Proofs.TypeGraph.Closed

/-!
# Plans that can be built

An element needs a key that is not empty, and a model of payloads does not ask for that. Where no
type that can be reached has the empty key, everything that stands under a field of a payload in
normal form can be made an element: the plan of an accepted payload has no portion that cannot be
built (`TypeGraph.buildable_ofPayload`).
-/

namespace ContentGraph

/-- A portion can be built, once the documents that it refers to are stored. -/
def Portion.Buildable : Portion → Prop
  | .elements _ => True
  | .children key plans => plans ≠ [] → key ≠ ""
  | .fault _ => False

/-- No type that can be reached has the empty key. -/
def TypeGraph.NamesKeys (g : TypeGraph) : Prop := ∀ m ∈ g.reachable, "" ∉ m.2.fields.keys

instance (g : TypeGraph) : Decidable g.NamesKeys :=
  inferInstanceAs (Decidable (∀ m ∈ g.reachable, "" ∉ m.2.fields.keys))

/-! ### Elements -/

variable {key : String}

theorem Element.exists_ofKey (hk : key ≠ "") (content : Content) :
    ∃ e, (ofKey key content).toExcept = .ok e := by
  refine ⟨⟨⟨key, hk⟩, content⟩, ?_⟩
  have hkey : (Json.text key).asKey = .ok ⟨key, hk⟩ := by
    simp [Json.asKey, Key.ofString?, hk]
  rw [ofKey, hkey]
  rfl

theorem Job.exists_references (hk : key ≠ "") (addresses : List String) :
    ∃ es, references key addresses = .ok es := by
  apply exists_mapM_eq_ok
  intro address _
  rw [Element.readNode_eq]
  exact Element.exists_ofKey hk _

namespace Payload

variable {types : Catalogue}

/-- A value in normal form is the content of an element under any key that an element can have. -/
theorem NormalItem.exists_content {kind : ValueKind} {v : Json}
    (h : NormalItem types (.value kind) v) (key : String) :
    ∃ content, Plan.valueElement key kind v = (Element.ofKey key content).toExcept := by
  cases h with
  | string =>
    rw [Plan.valueElement, Element.readString_eq]
    exact ⟨_, rfl⟩
  | number =>
    rw [Plan.valueElement, Element.readNumber_eq]
    exact ⟨_, rfl⟩
  | @file contentType uri =>
    refine ⟨.file contentType uri, ?_⟩
    rw [← Element.readFile_eq]
    rfl

theorem NormalItem.exists_valueElement (hk : key ≠ "") {kind : ValueKind} {v : Json}
    (h : NormalItem types (.value kind) v) : ∃ e, Plan.valueElement key kind v = .ok e := by
  obtain ⟨content, hc⟩ := h.exists_content key
  rw [hc]
  exact Element.exists_ofKey hk content

/-! ### Plans -/

/-- What a field needs for everything under it to be written: a key, where something stands under it,
and a type that it leads to. -/
structure Founded (types : Catalogue) (key : String) (f : Field) (v : Json) : Prop where
  /-- The key is not empty. -/
  named : fieldValues f v ≠ [] → key ≠ ""
  /-- The field leads to a type that is there. -/
  targeted : f.Targeted types

/-- The portion of a founded field can be built. -/
theorem PortionOf.buildable {f : Field} {v : Json} {p : Portion} (hp : PortionOf types key f v p)
    (hv : NormalField types f v) (hf : Founded types key f v) : p.Buildable := by
  cases hp with
  | elements _ _ => trivial
  | children _ _ =>
    intro hplans
    apply hf.named
    rintro hnone
    rw [hnone] at hplans
    exact hplans rfl
  | unbuilt hs hfault =>
    have hitems := hv.items
    rw [hs] at hitems
    obtain ⟨es, hes⟩ := exists_mapM_eq_ok fun w hw =>
      (normalItems_iff.1 hitems w hw).exists_valueElement (hf.named (List.ne_nil_of_mem hw))
    cases hes.symm.trans hfault
  | untargeted hs hnone =>
    obtain ⟨t, ht⟩ := hf.targeted _ (by rw [Field.target?, hs])
    cases ht.symm.trans hnone

end Payload

/-- A plan of a payload can be built where it stands for a document. -/
theorem Payload.Normal.buildable {types : Catalogue} {lead version i : String} {t : NodeType} {v : Json}
    {schemas : List String} {d : Document} (hc : types.Closed) (h : Normal types t v)
    (ht : types.get? i = some t) (hd : (Plan.ofPayload types t schemas v).realised? lead version = some d) :
    (Plan.ofPayload types t schemas v).All Portion.Buildable := by
  refine h.plan_all (Q := fun t v => (∃ i, types.get? i = some t) ∧ Normal types t v ∧
    ∃ schemas d, (Plan.ofPayload types t schemas v).realised? lead version = some d) ?_
    ⟨⟨i, ht⟩, h, schemas, d, hd⟩ schemas
  rintro t vs ⟨⟨i, ht⟩, hn, schemas, d, hd⟩ key f v hf hv
  have hes := (hn.realises hd).elements key f v hf hv
  have hfield := (normal_object_iff.1 hn).2 key f v hf hv
  refine ⟨fun _ p hp => hp.buildable hfield ⟨fun hsome => ?_, fun target htarget => ?_⟩,
    fun u w hnested => ?_⟩
  · -- the element of a value has a key, which is not empty
    obtain ⟨w, hw⟩ := List.exists_mem_of_ne_nil _ hsome
    obtain ⟨e, he, -⟩ := exists_of_mem_left (mapM_eq_some_iff.1 hes) w hw
    exact (hfield.items.key_kind hes e he).1 ▸ e.key.nonempty
  · exact Table.mem_keys_iff.1 (hc i t ht key f hf target htarget)
  · obtain ⟨schemas', target, hs, hu, hw⟩ := hnested
    obtain ⟨e, -, he⟩ := exists_of_mem_left (mapM_eq_some_iff.1 hes) w hw
    rw [hs, itemElement?_node hu] at he
    obtain ⟨child, hchild, -⟩ := Option.bind_eq_some_iff.1 he
    exact ⟨⟨target, hu⟩, Nested.normal ⟨schemas', target, hs, hu, hw⟩ hfield, schemas', child, hchild⟩

/-- Every portion of the plan of an accepted payload has a property that the portions of all fields of
types have which can be reached. -/
theorem TypeGraph.all_ofPayload {P : Portion → Prop} {g : TypeGraph} (hc : g.types.Closed)
    (hnames : g.DistinctNames)
    (hp : ∀ i t key f v p, (i, t) ∈ g.reachable → t.fields.get? key = some f → f.Targeted g.types →
      Payload.NormalField g.types f v → Payload.PortionOf g.types key f v p → P p)
    {payload v : Json} (hv : g.validatePayload payload = .ok v) (addresses : List String) :
    (Plan.ofPayload g.types g.rootType addresses v).All P := by
  have hnormal := normal_of_validatePayload hnames hv
  refine hnormal.plan_all (Q := fun t _ => ∃ i, g.types.Reaches g.root i ∧ g.types.get? i = some t) ?_
    ⟨g.root, .refl, g.root_mem⟩ addresses
  rintro t vs ⟨i, hr, ht⟩ key f v hf -
  refine ⟨fun hfield p => ?_, fun u w ⟨schemas, target, hs, hu, _⟩ => ?_⟩
  · have htargeted : f.Targeted g.types := fun target htarget =>
      Table.mem_keys_iff.1 (hc i t ht key f hf target htarget)
    exact hp i t key f v p (Catalogue.mem_reachableTypes.2 ⟨hr, ht⟩) hf htargeted hfield
  · exact ⟨target, hr.tail ⟨t, key, f, ht, hf, by rw [Field.target?, hs]⟩, hu⟩

/-- **The plan of an accepted payload can be built**, where no key is empty and no two types have
one name. -/
theorem TypeGraph.buildable_ofPayload {g : TypeGraph} (hc : g.types.Closed) (hnames : g.DistinctNames)
    (hkeys : g.NamesKeys) {payload v : Json} (hv : g.validatePayload payload = .ok v)
    (addresses : List String) :
    (Plan.ofPayload g.types g.rootType addresses v).All Portion.Buildable := by
  refine all_ofPayload hc hnames (fun i t key f v p hm hf htargeted hfield hp => ?_) hv addresses
  exact hp.buildable hfield ⟨fun _ hkey => hkeys _ hm (hkey ▸ Table.mem_keys_iff.2 ⟨f, hf⟩), htargeted⟩

end ContentGraph
