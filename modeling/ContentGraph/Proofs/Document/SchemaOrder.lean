import ContentGraph.Proofs.Creation.Alone
import ContentGraph.Proofs.Document.Counterparts
import ContentGraph.Proofs.Document.Rewriting

/-!
# Documents and the order of schemas

A list of addresses and a reordered one are compiled to graphs that match, and so the same payloads are
accepted. Materializing one of them for the two lists stores counterparts, one by one: the same documents,
up to the order of elements with different keys and to how the schemas that a document advertises are named
(`materialize_reordered`).

Neither need be the same (`written_order_matters`). The elements of a document stand in the order of the
fields of its type, which is the order in which its schemas were merged first; and a child advertises the
schemas that the first definition of its field names. Where the types below the root are the same for both
lists, the same documents are stored.
-/

namespace ContentGraph

variable {as bs : List String} {graph graph' : TypeGraph}

namespace Payload

variable {types types' : Catalogue} {t t' : NodeType} {lead version : String} {p : Json}
  {vs vs' : List (String × Json)}

/-- No documents are stored for values that are not nodes. -/
theorem documentsAt_eq_nil (types : Catalogue) (lead version : String) (vs : List (String × Json))
    (key : String) {f : Field} (h : f.target? = none) : documentsAt types lead version vs key f = [] := by
  obtain ⟨shape, multiple⟩ := f
  cases shape with
  | value kind => exact List.flatMap_eq_nil_iff.2 fun _ _ => rfl
  | node schemas target => cases h

/-- The same documents are stored for the values under a node field, where the types that it leads to are
the same. -/
theorem documentsAt_eq_of_agree {f : Field} {key target : String}
    (hp : Normalises types t p (.object vs)) (hp' : Normalises types' t' p (.object vs'))
    (hn : Normal types t (.object vs)) (hn' : Normal types' t' (.object vs'))
    (hf : t.fields.get? key = some f) (hf' : t'.fields.get? key = some f) (htarget : f.target? = some target)
    (ht : f.Targeted types) (ha : types.AgreeFrom types' target) :
    documentsAt types lead version vs key f = documentsAt types' lead version vs' key f := by
  obtain ⟨v, hv, hnormal⟩ := hn.exists_member hf
  obtain ⟨v', hv', hnormal'⟩ := hn'.exists_member hf'
  have hat : ∀ other, f.target? = some other → types'.get? other = types.get? other := by
    intro other hother
    cases htarget.symm.trans hother
    exact ha target .refl
  have hportion : v = v' ∧ fieldPortion types key f v = fieldPortion types' key f v' := by
    refine hnormal.portion_eq hnormal' (hp.paired hp' hf hf' rfl hv hv' hnormal) hat ?_
    intro w w' schemas other u x hs hu hw hx hx' hw'
    have hother : f.target? = some other := by rw [Field.target?, hs]
    cases htarget.symm.trans hother
    exact hx.plan_eq ha hu hx' (Nested.normal ⟨schemas, target, hs, hu, hw⟩ hnormal) hw'
  have ht' : f.Targeted types' := by
    intro other hother
    rw [hat other hother]
    exact ht other hother
  rw [documentsAt_eq hv, documentsAt_eq hv', ← beneath_fieldPortion hnormal ht,
    ← beneath_fieldPortion hnormal' ht', hportion.2]

/-- The documents beneath those of one payload are the same, where fields of nodes and the types that they
lead to are. -/
theorem beneath_perm {schemas schemas' : List String} {v v' : Json} {d d' : Document}
    (hm : t.Matches source t') (hp : Normalises types t p v) (hp' : Normalises types' t' p v')
    (hn : Normal types t v) (hn' : Normal types' t' v')
    (hd : (Plan.ofPayload types t schemas v).realised? lead version = some d)
    (hd' : (Plan.ofPayload types' t' schemas' v').realised? lead version = some d')
    (hsame : ∀ key f target, t.fields.get? key = some f → f.target? = some target →
      t'.fields.get? key = some f ∧ f.Targeted types ∧ types.AgreeFrom types' target) :
    ((Plan.ofPayload types t schemas v).beneath lead version).Perm
      ((Plan.ofPayload types' t' schemas' v').beneath lead version) := by
  obtain ⟨vs, rfl⟩ := hn.exists_object
  obtain ⟨vs', rfl⟩ := hn'.exists_object
  rw [(hn.realises hd).beneath, (hn'.realises hd').beneath, Table.flatMap_entries, Table.flatMap_entries]
  refine List.Perm.trans (List.Perm.of_eq (List.flatMap_congr fun key hk => ?_)) (hm.keys.flatMap_right _)
  obtain ⟨f, hf⟩ := Table.mem_keys_iff.1 hk
  obtain ⟨f', hf'⟩ := hm.exists_right hf
  rw [hf, hf']
  cases htarget : f.target? with
  | some target =>
    obtain ⟨hsame', ht, ha⟩ := hsame key f target hf htarget
    cases hf'.symm.trans hsame'
    exact documentsAt_eq_of_agree hp hp' hn hn' hf hf' htarget ht ha
  | none =>
    -- no documents are stored for values
    have htarget' : f'.target? = none := (hm.fields hf hf').target_eq ▸ htarget
    exact (documentsAt_eq_nil types lead version vs key htarget).trans
      (documentsAt_eq_nil types' lead version vs' key htarget').symm

end Payload

/-! ### Materializing for reordered lists -/

variable {s : Settings} {store : Store} {payload : Json}

/-- The plan of an accepted payload is carried out. -/
theorem materialize_of_accepted {v : Json}
    (hg : (Gateway.ofStore store).source.compile s.hashLength.digits as = .ok graph)
    (hv : graph.validatePayload payload = .ok v) :
    materialize s payload as none (.ofGateway (.ofStore store)) =
      (Work.ofGateway (.ofStore store)).write s.version (.ofPayload graph.types graph.rootType as v) := by
  rw [materialize, validatorFor_none, hg]
  dsimp only
  rw [hv]

/-- A payload is materialized for a list of addresses where it is accepted and its plan is carried out. -/
theorem materialize_none_eq_ok {d : Document} {w : Work}
    (hg : (Gateway.ofStore store).source.compile s.hashLength.digits as = .ok graph) :
    materialize s payload as none (.ofGateway (.ofStore store)) = (.ok d, w) ↔
      ∃ v, graph.validatePayload payload = .ok v ∧ (Work.ofGateway (.ofStore store)).write s.version
        (.ofPayload graph.types graph.rootType as v) = (.ok d, w) := by
  cases hv : graph.validatePayload payload with
  | error failure =>
    rw [materialize, validatorFor_none, hg]
    dsimp only
    rw [hv]
    simp
  | ok v => simp [materialize_of_accepted hg hv]

/-- The plan of an accepted payload is carried out where it stands for a document. -/
theorem exists_write_of_realised {v : Json} {d : Document} (hc : graph.types.Closed)
    (hv : Payload.Normal graph.types graph.rootType v)
    (hd : (Plan.ofPayload graph.types graph.rootType as v).realised? store.lead s.version = some d) :
    ∃ w, (Work.ofGateway (.ofStore store)).write s.version (.ofPayload graph.types graph.rootType as v)
      = (.ok d, w) := by
  obtain ⟨d', w, _, hw, -⟩ := Work.exists_write s.version (hv.buildable hc graph.root_mem hd)
    (show (Gateway.ofStore store).storeFault = none from rfl)
  obtain ⟨hd', -⟩ := Work.write_alone hw
  cases hd.symm.trans hd'
  exact ⟨w, hw⟩

/-- What is written for the one is written for the other, up to counterparts; the same is, where the types
below the root are the same. -/
theorem TypeGraph.Matches.exists_write (h : graph.Matches (Gateway.ofStore store).source graph')
    (hc : graph.types.Closed) (hc' : graph'.types.Closed) (hn : graph.DistinctNames)
    (hn' : graph'.DistinctNames) (hab : (Gateway.ofStore store).source.SameSchemas as bs) {v v' : Json}
    (hv : graph.validatePayload payload = .ok v) (hv' : graph'.validatePayload payload = .ok v')
    {d : Document} {w : Work} (hw : (Work.ofGateway (.ofStore store)).write s.version
      (.ofPayload graph.types graph.rootType as v) = (.ok d, w)) :
    ∃ (d' : Document) (w' : Work) (ds ds' : List Document),
      (Work.ofGateway (.ofStore store)).write s.version (.ofPayload graph'.types graph'.rootType bs v')
        = (.ok d', w') ∧
      w.gateway = .ofStore (store.saveEach (ds.map .document)) ∧
      w'.gateway = .ofStore (store.saveEach (ds'.map .document)) ∧
      Counterpart (Gateway.ofStore store).source store.lead d d' ∧
      Multiset.Rel (Counterpart (Gateway.ofStore store).source store.lead) ds ds' ∧
      (graph.SameBelow graph' → ds.Perm ds') := by
  obtain ⟨-, hnorm, hnormal⟩ := TypeGraph.conforms_of_validatePayload hn hv
  obtain ⟨-, hnorm', hnormal'⟩ := TypeGraph.conforms_of_validatePayload hn' hv'
  obtain ⟨hd, ds, hgateway, hperm⟩ := Work.write_alone hw
  obtain ⟨d', hd', hcounterpart, hbeneath⟩ :=
    hnorm.parallel h.types hc' hnorm' hnormal hnormal' .refl graph.root_mem h.get?_root hab d hd
  obtain ⟨w', hw'⟩ := exists_write_of_realised hc' hnormal' hd'
  obtain ⟨-, ds', hgateway', hperm'⟩ := Work.write_alone hw'
  refine ⟨d', w', ds, ds', hw', hgateway, hgateway', hcounterpart, ?_, fun hbelow => ?_⟩
  · rw [← Multiset.coe_eq_coe.2 hperm, ← Multiset.coe_eq_coe.2 hperm']
    exact hbeneath
  · refine hperm.symm.trans (List.Perm.trans ?_ hperm')
    refine Payload.beneath_perm h.rootType hnorm hnorm' hnormal hnormal' hd hd' ?_
    intro key f target hf htarget
    obtain ⟨hf', ha⟩ := hbelow key f target hf htarget
    exact ⟨hf', fun other hother =>
      Table.mem_keys_iff.1 (hc graph.root graph.rootType graph.root_mem key f hf other hother), ha⟩

/-- What is asked of materializing payloads for two lists of addresses, each with the graph that it is
compiled to. -/
structure MaterializesAlike (s : Settings) (store : Store) (as bs : List String)
    (graph graph' : TypeGraph) : Prop where
  /-- The same payloads are accepted. -/
  accepts : ∀ payload, (∃ v, graph.validatePayload payload = .ok v) ↔
    ∃ v, graph'.validatePayload payload = .ok v
  /-- An accepted payload is materialized, where no type has the empty key. -/
  materializes : graph.NamesKeys → ∀ payload v, graph.validatePayload payload = .ok v →
    ∃ d w, materialize s payload as none (.ofGateway (.ofStore store)) = (.ok d, w)
  /-- What is materialized for the one list is for the other. The documents are counterparts, and so are
  those that were stored beneath them, one by one; they are the same documents where the graphs have the
  same types below the root. -/
  counterparts : ∀ payload d w, materialize s payload as none (.ofGateway (.ofStore store)) = (.ok d, w) →
    ∃ (d' : Document) (w' : Work) (ds ds' : List Document),
      materialize s payload bs none (.ofGateway (.ofStore store)) = (.ok d', w') ∧
      w.gateway = .ofStore (store.saveEach (ds.map .document)) ∧
      w'.gateway = .ofStore (store.saveEach (ds'.map .document)) ∧
      Counterpart (Gateway.ofStore store).source store.lead d d' ∧
      Multiset.Rel (Counterpart (Gateway.ofStore store).source store.lead) ds ds' ∧
      (graph.SameBelow graph' → ds.Perm ds')

/-- **Materializing a payload for a list of schemas and for a reordered one stores counterparts.** The types
below the root are the same at least where each is that of one schema, and the schemas of the list have one
definition of each key. -/
theorem materialize_reordered
    (hs : Separated (Reached (Gateway.ofStore store).source [as, bs])) (hp : as.Perm bs)
    (hg : (Gateway.ofStore store).source.compile s.hashLength.digits as = .ok graph)
    (hn : graph.DistinctNames) : ∃ graph',
      (Gateway.ofStore store).source.compile s.hashLength.digits bs = .ok graph' ∧
      graph'.DistinctNames ∧ MaterializesAlike s store as bs graph graph' ∧
      (graph.SinglyBelow → (Gateway.ofStore store).source.DefinesOnce as → graph.SameBelow graph') := by
  have hsame : (Gateway.ofStore store).source.SameSchemas as bs :=
    (Source.resolve_of_compile hg).elim fun _ ha => Source.sameSchemas_of_perm hp ha
  obtain ⟨graph', hg', hn'⟩ := hsame.exists_compile hs hg hn
  have hm := Source.matches_of_compile hs hsame hg hg'
  have hs' : Separated (Reached (Gateway.ofStore store).source [bs, as]) :=
    hs.mono fun _ h => h.mono (by simp)
  have hm' := Source.matches_of_compile hs' hsame.symm hg' hg
  have hc := Source.closed_of_compile hg
  refine ⟨graph', hg', hn', ⟨fun p => ⟨?_, ?_⟩, fun hkeys p v hv => ?_, fun p d w hw => ?_⟩,
    TypeGraph.sameBelow_of_single hs hsame hg hg'⟩
  · exact fun ⟨_, hv⟩ => hm.exists_validatePayload hn hn' hv
  · exact fun ⟨_, hv⟩ => hm'.exists_validatePayload hn' hn hv
  · obtain ⟨d, w, _, hwrite, -⟩ := Work.exists_write s.version
      (TypeGraph.buildable_ofPayload hc hn hkeys hv as)
      (show (Gateway.ofStore store).storeFault = none from rfl)
    exact ⟨d, w, (materialize_none_eq_ok hg).2 ⟨v, hv, hwrite⟩⟩
  · obtain ⟨v, hv, hwrite⟩ := (materialize_none_eq_ok hg).1 hw
    obtain ⟨v', hv'⟩ := hm.exists_validatePayload hn hn' hv
    obtain ⟨d', w', ds, ds', hwrite', hrest⟩ :=
      hm.exists_write hc (Source.closed_of_compile hg') hn hn' hsame hv hv' hwrite
    exact ⟨d', w', ds, ds', (materialize_none_eq_ok hg').2 ⟨v', hv', hwrite'⟩, hrest⟩

/-- Two schemas with nodes of a third. -/
def pairStore : Store :=
  (((Store.empty "omg://").putRaw "p" (.object [("kind", .text "schema"), ("name", .text "P"),
      ("elements", .object [("t", .object [("kind", .text "string")])])])).putRaw
    "a" (.object [("kind", .text "schema"), ("name", .text "A"),
      ("elements", .object [("x", .object [("kind", .text "string")]),
        ("peer", .object [("kind", .text "node"), ("multiple", .bool true),
          ("schemas", .texts ["p"])])])])).putRaw
    "b" (.object [("kind", .text "schema"), ("name", .text "B"),
      ("elements", .object [
        ("peer", .object [("kind", .text "node"), ("multiple", .bool true), ("schemas", .texts ["p"])]),
        ("y", .object [("kind", .text "string")])])])

/-- The schemas that stand in the store. -/
def pairResources : Table Resource :=
  .ofList [("p", .schema ⟨defaultVersion, "P", .ofList [("t", .value .string false)]⟩),
    ("a", .schema ⟨defaultVersion, "A", .ofList [("x", .value .string false), ("peer", .node true ["p"])]⟩),
    ("b", .schema ⟨defaultVersion, "B", .ofList [("peer", .node true ["p"]), ("y", .value .string false)]⟩)]

theorem spells_pair : pairStore.Spells pairResources := by
  refine (((Store.Spells.empty "omg://").putRaw "p" ?_ rfl).putRaw "a" ?_ rfl).putRaw "b" ?_ rfl <;>
    simp [Json.Distinct, Json.DistinctMembers, Json.DistinctItems, Json.texts]

/-- A payload of both schemas with two children. -/
def pairPayload : Json :=
  .object [("x", .text "1"), ("y", .text "2"),
    ("peer", .list [.object [("t", .text "3")], .object [("t", .text "4")]])]

theorem materialize_reordered_pair : ∃ graph graph' d w,
    (Gateway.ofStore pairStore).source.compile Settings.default.hashLength.digits ["a", "b"] = .ok graph ∧
    graph.DistinctNames ∧
    (Gateway.ofStore pairStore).source.compile Settings.default.hashLength.digits ["b", "a"] = .ok graph' ∧
    graph'.DistinctNames ∧ MaterializesAlike .default pairStore ["a", "b"] ["b", "a"] graph graph' ∧
    graph.SameBelow graph' ∧
    materialize .default pairPayload ["a", "b"] none (.ofGateway (.ofStore pairStore)) = (.ok d, w) := by
  have hs : (Source.ofTable pairResources).Separates [["a", "b"], ["b", "a"]] := by
    decide +kernel
  have hrun : ((Source.ofTable pairResources).compile Settings.default.hashLength.digits
      ["a", "b"]).toOption.any (fun graph =>
        decide (graph.DistinctNames ∧ graph.NamesKeys ∧ graph.SinglyBelow) &&
        (graph.validatePayload pairPayload).toOption.any fun _ => true) = true := by
    decide +kernel
  have honce : ((Source.ofTable pairResources).resolve ["a", "b"]).toOption.all (fun set =>
      decide (∀ e ∈ Compilation.definitions set, ∀ e' ∈ Compilation.definitions set,
        e.2.1 = e'.2.1 → e.2.2 = e'.2.2)) = true := by
    decide +kernel
  rw [← spells_pair.source_eq] at hs hrun honce
  have honce : (Gateway.ofStore pairStore).source.DefinesOnce ["a", "b"] := by
    intro set hr
    rw [hr] at honce
    exact of_decide_eq_true honce
  obtain ⟨graph, hg, hrun⟩ := exists_ok_of_any hrun
  rw [Bool.and_eq_true, decide_eq_true_eq] at hrun
  obtain ⟨⟨hn, hkeys, hone⟩, hrun⟩ := hrun
  obtain ⟨v, hv, -⟩ := exists_ok_of_any hrun
  obtain ⟨graph', hg', hn', halike, hbelow⟩ :=
    materialize_reordered hs.separated (List.Perm.swap _ _ _) hg hn
  obtain ⟨d, w, hw⟩ := halike.materializes hkeys pairPayload v hv
  exact ⟨graph, graph', d, w, hg, hn, hg', hn', halike, hbelow hone honce, hw⟩

/-- Two schemas, of which the first has nodes with the keys of both. -/
def crossedStore : Store :=
  ((Store.empty "omg://").putRaw "a" (.object [("kind", .text "schema"), ("name", .text "A"),
      ("elements", .object [("x", .object [("kind", .text "string")]),
        ("peer", .object [("kind", .text "node"), ("multiple", .bool true),
          ("schemas", .texts ["a", "b"])])])])).putRaw
    "b" (.object [("kind", .text "schema"), ("name", .text "B"),
      ("elements", .object [("y", .object [("kind", .text "string")])])])

/-- The schemas that stand in the store. -/
def crossedResources : Table Resource :=
  .ofList [("a", .schema ⟨defaultVersion, "A",
      .ofList [("x", .value .string false), ("peer", .node true ["a", "b"])]⟩),
    ("b", .schema ⟨defaultVersion, "B", .ofList [("y", .value .string false)]⟩)]

theorem spells_crossed : crossedStore.Spells crossedResources := by
  refine ((Store.Spells.empty "omg://").putRaw "a" ?_ rfl).putRaw "b" ?_ rfl <;>
    simp [Json.Distinct, Json.DistinctMembers, Json.DistinctItems, Json.texts]

/-- A payload of both schemas with one child. -/
def crossedPayload : Json :=
  .object [("x", .text "1"), ("y", .text "2"),
    ("peer", .list [.object [("x", .text "3"), ("y", .text "4")]])]

/-- The address of its child where the keys of the first schema come first. -/
def crossedChild : String := "omg://a03c7f8dfbc216159d945b12f934d73db844ac5618f6d3c8128a85c8800f59ad"

/-- The addresses that a store has written to after a payload was materialized for a list of addresses. -/
def writtenFor (store : Store) (payload : Json) (addresses : List String) : List String :=
  (materialize .default payload addresses none (.ofGateway (.ofStore store))).2.gateway.store.written

/-- Counterparts need not have one address: the elements of a child stand in the order in which the schemas
of the request were merged. -/
theorem written_order_matters :
    ¬ ∀ (store : Store) (as bs : List String) (payload v : Json) (graph : TypeGraph), as.Perm bs →
      (Gateway.ofStore store).source.compile Settings.default.hashLength.digits as = .ok graph →
      graph.DistinctNames → graph.validatePayload payload = .ok v →
      ∀ address, address ∈ writtenFor store payload as ↔ address ∈ writtenFor store payload bs := by
  intro h
  have hrun : ((Source.ofTable crossedResources).compile Settings.default.hashLength.digits
      ["a", "b"]).toOption.any (fun graph => decide graph.DistinctNames &&
        (graph.validatePayload crossedPayload).toOption.any fun v =>
          decide (crossedChild ∈ ((Work.ofGateway (.ofStore crossedStore)).write Settings.default.version
            (.ofPayload graph.types graph.rootType ["a", "b"] v)).2.gateway.store.written)) = true := by
    decide +kernel
  have hother : ((Source.ofTable crossedResources).compile Settings.default.hashLength.digits
      ["b", "a"]).toOption.any (fun graph => (graph.validatePayload crossedPayload).toOption.any fun v =>
        decide (crossedChild ∉ ((Work.ofGateway (.ofStore crossedStore)).write Settings.default.version
          (.ofPayload graph.types graph.rootType ["b", "a"] v)).2.gateway.store.written)) = true := by
    decide +kernel
  rw [← spells_crossed.source_eq] at hrun hother
  obtain ⟨graph, hg, hrun⟩ := exists_ok_of_any hrun
  rw [Bool.and_eq_true, decide_eq_true_eq] at hrun
  obtain ⟨hn, hrun⟩ := hrun
  obtain ⟨v, hv, hwritten⟩ := exists_ok_of_any hrun
  obtain ⟨graph', hg', hother⟩ := exists_ok_of_any hother
  obtain ⟨v', hv', hother⟩ := exists_ok_of_any hother
  have hwritten : crossedChild ∈ writtenFor crossedStore crossedPayload ["a", "b"] := by
    rw [writtenFor, materialize_of_accepted hg hv]
    exact of_decide_eq_true hwritten
  have hother : crossedChild ∉ writtenFor crossedStore crossedPayload ["b", "a"] := by
    rw [writtenFor, materialize_of_accepted hg' hv']
    exact of_decide_eq_true hother
  exact hother ((h crossedStore _ _ crossedPayload v graph (List.Perm.swap _ _ _) hg hn hv _).1 hwritten)

end ContentGraph
