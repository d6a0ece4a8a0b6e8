import ContentGraph.Proofs.Document.Recorded
import ContentGraph.Proofs.Document.Written
import ContentGraph.Proofs.Payload.Conformance

/-!
# Documents that are written again

A stored document of which every reference leads to a document of the type of its field, and so on to
the ends of the references, records a payload (`Valid.exists_records`). That payload is what is read of
it field by field, it is accepted as it is, and its plan can be built, since every element has a key.
What is written for it resembles the document: under each key stand the same elements, in the same
order, but that references lead to what was written for the documents they led to
(`written_resembles`).
-/

namespace ContentGraph

/-! ### Stored documents -/

/-- A document is one of a type, and every reference in it leads to a document that is one of the type
of its field, and so on until there are no more references. -/
inductive Valid (source : Source) (types : Catalogue) : NodeType → Document → Prop
  /-- It is accepted, its references lead to documents, and those are as well. -/
  | document {t : NodeType} {d : Document} : t.validateDocument d = .ok d →
      (∀ e ∈ d.elements, ∀ uri, e.content = .node uri → ∃ child, source.fetchDocument uri = .ok child) →
      (∀ e ∈ d.elements, ∀ uri child f target u, e.content = .node uri →
        source.fetchDocument uri = .ok child → t.fields.get? e.key.text = some f →
        f.target? = some target → types.get? target = some u → Valid source types u child) →
      Valid source types t d

variable {source : Source} {types : Catalogue} {t : NodeType} {d : Document}

/-- Whether a document is valid, as far as its references can be followed in some steps. -/
def validWithin (source : Source) (types : Catalogue) : ℕ → NodeType → Document → Bool
  | 0, _, _ => false
  | n + 1, t, d => (t.validateDocument d).toOption.isSome && d.elements.all fun e =>
    match e.content with
    | .node uri => (source.fetchDocument uri).toOption.any fun child =>
      (((t.fields.get? e.key.text).bind Field.target?).bind types.get?).all fun u =>
        validWithin source types n u child
    | _ => true

theorem valid_of_validWithin : ∀ {n : ℕ} {t : NodeType} {d : Document},
    validWithin source types n t d = true → Valid source types t d
  | n + 1, t, d, h => by
    rw [validWithin, Bool.and_eq_true, List.all_eq_true] at h
    obtain ⟨hvalid, helements⟩ := h
    have hreference : ∀ e ∈ d.elements, ∀ uri, e.content = .node uri → ∃ child,
        source.fetchDocument uri = .ok child ∧ ∀ f target u, t.fields.get? e.key.text = some f →
          f.target? = some target → types.get? target = some u → validWithin source types n u child = true := by
      intro e he uri huri
      have hhere := helements e he
      rw [huri] at hhere
      obtain ⟨child, hchild, hall⟩ := exists_ok_of_any hhere
      refine ⟨child, hchild, fun f target u hf htarget hu => ?_⟩
      rw [hf, Option.bind_some, htarget, Option.bind_some, hu] at hall
      exact hall
    refine .document ?_ (fun e he uri huri => ?_) fun e he uri child f target u huri hchild hf htarget hu => ?_
    · obtain ⟨d', hd⟩ := Option.isSome_iff_exists.1 hvalid
      cases hok : t.validateDocument d with
      | error failure =>
        rw [hok] at hd
        cases hd
      | ok d' => rw [(NodeType.validateDocument_eq_ok_iff.1 hok).1]
    · obtain ⟨child, hchild, -⟩ := hreference e he uri huri
      exact ⟨child, hchild⟩
    · obtain ⟨other, hother, hwithin⟩ := hreference e he uri huri
      cases hchild.symm.trans hother
      exact valid_of_validWithin (hwithin f target u hf htarget hu)

/-- An element of a value kind records a value. -/
theorem exists_recordsItem {held : Document → String → Prop} {kind : ValueKind} {e : Element}
    (he : e.kind = .value kind) : ∃ v, RecordsItem held types (.value kind) e v := by
  obtain ⟨key, content⟩ := e
  cases content with
  | string s =>
    cases he
    exact ⟨_, .string rfl⟩
  | number x =>
    cases he
    exact ⟨_, .number rfl⟩
  | file contentType uri =>
    cases he
    exact ⟨_, .file rfl⟩
  | node uri => cases he

/-- Elements that record values record the value of a field, where they are as many as the field
asks. -/
theorem exists_recordsField {held : Document → String → Prop} {f : Field} {es : List Element}
    (hes : ∀ e ∈ es, ∃ v, RecordsItem held types f.shape e v) (hl : f.multiple = true ∨ es.length = 1) :
    ∃ v, RecordsField held types f es v := by
  obtain ⟨shape, multiple⟩ := f
  cases multiple with
  | true =>
    obtain ⟨vs, hvs⟩ := exists_forall₂ hes
    obtain ⟨hlen, hat⟩ := forall₂_iff_getElem?.1 hvs
    exact ⟨.list vs, .many hlen hat⟩
  | false =>
    obtain ⟨e, rfl⟩ := List.length_eq_one_iff.1 (hl.resolve_left Bool.false_ne_true)
    obtain ⟨v, hv⟩ := hes e List.mem_cons_self
    exact ⟨v, .one hv⟩

/-- **A valid document records a payload.** -/
theorem Valid.exists_records (hc : types.Closed) (h : Valid source types t d) :
    ∀ i, types.get? i = some t → ∃ v, Records source.Holds types t d v := by
  induction h with
  | @document t d hvalid hfetch _ ih =>
    intro i hi
    obtain ⟨-, hknows, hfields⟩ := NodeType.validateDocument_eq_ok_iff.1 hvalid
    have hitem : ∀ key f, t.fields.get? key = some f → ∀ e ∈ d.elementsFor key,
        ∃ v, RecordsItem source.Holds types f.shape e v := by
      intro key f hf e he
      have hkind := (hfields key f hf).1 e he
      obtain ⟨hmem, rfl⟩ := Document.mem_elementsFor.1 he
      obtain ⟨shape, multiple⟩ := f
      cases shape with
      | value kind => exact exists_recordsItem hkind
      | node schemas target =>
        obtain ⟨u, hu⟩ := Table.mem_keys_iff.1 (hc i t hi e.key.text _ hf target rfl)
        obtain ⟨uri, huri⟩ : ∃ uri, e.content = .node uri := by
          obtain ⟨key, content⟩ := e
          cases content with
          | node uri => exact ⟨uri, rfl⟩
          | _ => cases hkind
        obtain ⟨child, hchild⟩ := hfetch e hmem uri huri
        obtain ⟨v, hv⟩ := ih e hmem uri child _ target u huri hchild hf rfl hu target hu
        exact ⟨v, .node huri hchild hu hv⟩
    have hall : ∀ f ∈ t.fields.entries, ∃ m : String × Json, m.1 = f.1 ∧
        RecordsField source.Holds types f.2 (d.elementsFor f.1) m.2 := by
      rintro ⟨key, f⟩ hf
      have hget : t.fields.get? key = some f := Table.get?_eq_some_iff.2 hf
      obtain ⟨v, hv⟩ := exists_recordsField (hitem key f hget) (hfields key f hget).2
      exact ⟨(key, v), rfl, hv⟩
    obtain ⟨vs, hvs⟩ := exists_forall₂ hall
    obtain ⟨hk, hat⟩ := (Table.forall₂_iff_find (P := fun key f v =>
      RecordsField source.Holds types f (d.elementsFor key) v) t.fields.nodup).1 hvs
    exact ⟨.object vs, .object hknows hk hat⟩

/-! ### Plans of what is recorded -/

/-- The plan of a recorded payload can be built: what stands under a key was read of an element, and
the key of an element is not empty. -/
theorem Records.buildable {held : Document → String → Prop} (hc : types.Closed) {v : Json} {i : String}
    (h : Records held types t d v) (hi : types.get? i = some t) (schemas : List String) :
    (Plan.ofPayload types t schemas v).All Portion.Buildable := by
  refine h.normal.plan_all
    (Q := fun t v => (∃ i, types.get? i = some t) ∧ ∃ d, Records held types t d v) ?_ ⟨⟨i, hi⟩, d, h⟩ schemas
  rintro t vs ⟨⟨i, hi⟩, d, ⟨_, _, hrec⟩⟩ key f v hf hv
  have hitems := (hrec key f v hf hv).items
  refine ⟨fun hfield p hp => hp.buildable hfield ⟨fun hsome => ?_, fun target htarget => ?_⟩,
    fun u w hn => ?_⟩
  · obtain ⟨w, hw⟩ := List.exists_mem_of_ne_nil _ hsome
    obtain ⟨e, he, -⟩ := exists_of_mem_right hitems w hw
    exact (Document.mem_elementsFor.1 he).2 ▸ e.key.nonempty
  · exact Table.mem_keys_iff.1 (hc i t hi key f hf target htarget)
  · obtain ⟨schemas, target, hs, hu, hw⟩ := hn
    obtain ⟨e, -, hitem⟩ := exists_of_mem_right hitems w hw
    rw [hs] at hitem
    cases hitem with
    | node _ _ hu' hchild =>
      cases hu.symm.trans hu'
      exact ⟨⟨target, hu⟩, _, hchild⟩

/-! ### Writing again -/

/-- What is asked of writing a payload that was read of a document of a source. -/
structure RewritesAs (graph : TypeGraph) (source : Source) (d : Document) (v : Json) : Prop where
  /-- The payload is accepted as it is. -/
  accepted : graph.validatePayload v = .ok v
  /-- In every history, whatever moves are made and whatever happens to the store beside them, what is
  built resembles the document, where references lead to what was stored. -/
  everyHistory : ∀ (s : Settings) addresses others start calls d' g', Job.Leads s.version others
    (.planned (.ofPayload graph.types graph.rootType addresses v), start) calls (.built d', g') →
    Resembles source.Holds (Stored calls) d d'
  /-- Where the store does not fail, `materialize` gives what is built in such a history. It resembles
  the document also where references are followed in the store that is left behind, unless two of the
  documents that were stored have one digest. -/
  materialized : ∀ (s : Settings) addresses (g : Gateway), g.storeFault = none → ∃ d' w calls,
    materialize s v addresses (some graph) (.ofGateway g) = (.ok d', w) ∧
    Job.Leads s.version Gateway.Undisturbed
      (.planned (.ofPayload graph.types graph.rootType addresses v), g) calls (.built d', w.gateway) ∧
    (g.Fetches → NoCollision (documentTexts (takenOf calls)) →
      Resembles source.Holds w.gateway.source.Holds d d')

/-- A payload that is accepted is materialized by writing its plan. -/
theorem materialize_some {s : Settings} {p v : Json} {addresses : List String} {graph : TypeGraph} {w : Work}
    (h : graph.validatePayload p = .ok v) : materialize s p addresses (some graph) w
      = w.write s.version (.ofPayload graph.types graph.rootType addresses v) := by
  unfold materialize validatorFor
  dsimp only
  rw [h]

/-- A plan that can be built is carried out by a store that does not fail. -/
theorem Work.exists_write (version : String) {plan : Plan} {g : Gateway}
    (hp : plan.All Portion.Buildable) (hg : g.storeFault = none) : ∃ d w calls,
    (Work.ofGateway g).write version plan = (.ok d, w) ∧
    Job.Leads version Gateway.Undisturbed (.planned plan, g) calls (.built d, w.gateway) := by
  obtain ⟨calls, job, hl, ho⟩ := write_ofGateway version plan g
  generalize (Work.ofGateway g).write version plan = written at hl ho
  obtain ⟨outcome, w⟩ := written
  cases outcome with
  | error fault =>
    have hfault : job.fault?.isSome := by
      cases job with
      | failed => rfl
      | _ => cases ho
    obtain ⟨c, hc, hfailed⟩ := hl.exists_failed hp hfault
    exact absurd hfailed ((hl.not_failed hg).2 c hc)
  | ok d =>
    cases hl.eq_built ho
    exact ⟨d, w, calls, rfl, hl⟩

/-- **Valid stored documents can be written again without loss.** -/
theorem written_resembles {hashLength : Int} {schemas : List String} {origin : Source} {graph : TypeGraph}
    (hg : origin.compile hashLength schemas = .ok graph) (hn : graph.DistinctNames)
    (hd : Valid source graph.types graph.rootType d) :
    ∃ v, Gives source graph.types graph.rootType d v ∧
      (∀ v', Gives source graph.types graph.rootType d v' → v' = v) ∧ RewritesAs graph source d v := by
  have hc := Source.closed_of_compile hg
  obtain ⟨v, hv⟩ := hd.exists_records hc graph.root graph.root_mem
  have haccepted := TypeGraph.validatePayload_of_normal hn hv.normal
  have hhistory : ∀ (s : Settings) addresses others start calls d' g', Job.Leads s.version others
      (.planned (.ofPayload graph.types graph.rootType addresses v), start) calls (.built d', g') →
      Records (Stored calls) graph.types graph.rootType d' v := by
    intro s addresses others start calls d' g' hl
    exact hv.normal.records hl.tracks.grounded
  refine ⟨v, hv.gives, fun v' hv' => hv'.unique hv.gives, haccepted, ?_, ?_⟩
  · intro s addresses others start calls d' g' hl
    exact hv.resembles (hhistory s addresses others start calls d' g' hl)
  · intro s addresses g hfault
    have hplan := hv.buildable hc graph.root_mem addresses
    obtain ⟨d', w, calls, hwrite, hl⟩ := Work.exists_write s.version hplan hfault
    refine ⟨d', w, calls, (materialize_some haccepted).trans hwrite, hl, fun hfetch hcollision => ?_⟩
    have hheld : ∀ e address, Stored calls e address → w.gateway.source.Holds e address :=
      fun _ _ he => hl.wrote.holds hcollision hfetch he
    exact hv.resembles ((hhistory s addresses _ g calls d' w.gateway hl).mono hheld)

/-- The store of peers with a node, whose marks stand on both sides of its peer, and that peer. -/
def storedPeers : Store :=
  (peerStore.putRaw "bo" (.object [("kind", .text "document"), ("schemas", .texts ["p"]),
      ("elements", .list [.object [("kind", .text "string"), ("key", .text "name"), ("value", .text "Bo")]])])).putRaw
    "al" (.object [("kind", .text "document"), ("elements", .list [
      .object [("kind", .text "number"), ("key", .text "mark"), ("value", .integer 3)],
      .object [("kind", .text "node"), ("key", .text "peer"), ("uri", .text "bo")],
      .object [("kind", .text "string"), ("key", .text "name"), ("value", .text "Al")],
      .object [("kind", .text "number"), ("key", .text "mark"), ("value", .integer 1)]])])

/-- What stands in the store. -/
def storedPeersResources : Table Resource :=
  .ofList [("p", .schema ⟨defaultVersion, "P", .ofList [("name", .value .string false),
      ("mark", .value .number true), ("peer", .node true ["p"])]⟩),
    ("bo", .document ⟨defaultVersion, ["p"], [⟨⟨"name", by decide⟩, .string "Bo"⟩]⟩),
    ("al", .document ⟨defaultVersion, [], [⟨⟨"mark", by decide⟩, .number (.ofRatio false 3 1)⟩,
      ⟨⟨"peer", by decide⟩, .node "bo"⟩, ⟨⟨"name", by decide⟩, .string "Al"⟩,
      ⟨⟨"mark", by decide⟩, .number (.ofRatio false 1 1)⟩]⟩)]

theorem spells_storedPeers : storedPeers.Spells storedPeersResources := by
  refine (((Store.Spells.empty "omg://").putRaw "p" ?_ rfl).putRaw "bo" ?_ rfl).putRaw "al" ?_
      (by decide +kernel) <;>
    simp [Json.Distinct, Json.DistinctMembers, Json.DistinctItems, Json.texts]

theorem written_resembles_peers : ∃ graph d,
    (Gateway.ofStore storedPeers).source.compile 8 ["p"] = .ok graph ∧ graph.DistinctNames ∧
    (Gateway.ofStore storedPeers).source.fetchDocument "al" = .ok d ∧
    Valid (Gateway.ofStore storedPeers).source graph.types graph.rootType d ∧
    ∃ v, Gives (Gateway.ofStore storedPeers).source graph.types graph.rootType d v ∧
      (∀ v', Gives (Gateway.ofStore storedPeers).source graph.types graph.rootType d v' → v' = v) ∧
      RewritesAs graph (Gateway.ofStore storedPeers).source d v := by
  have hrun : ((Gateway.ofStore storedPeers).source.compile 8 ["p"]).toOption.any (fun graph =>
      decide graph.DistinctNames &&
      ((Gateway.ofStore storedPeers).source.fetchDocument "al").toOption.any fun d =>
        validWithin (Gateway.ofStore storedPeers).source graph.types 2 graph.rootType d) = true := by
    decide +kernel
  obtain ⟨graph, hg, hrun⟩ := exists_ok_of_any hrun
  rw [Bool.and_eq_true, decide_eq_true_eq] at hrun
  obtain ⟨hn, hrun⟩ := hrun
  obtain ⟨d, hd, hvalid⟩ := exists_ok_of_any hrun
  have hvalid := valid_of_validWithin hvalid
  exact ⟨graph, d, hg, hn, hd, hvalid, written_resembles hg hn hvalid⟩

end ContentGraph
