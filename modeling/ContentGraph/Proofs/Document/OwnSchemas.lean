import ContentGraph.Proofs.Document.Recorded
import ContentGraph.Proofs.Document.Written
import ContentGraph.Proofs.TypeGraph.Later

/-!
# Documents and the schemas they advertise

A document advertises the schemas that it was planned with: that of a payload the addresses it was
created for, one below the schemas that the node field above it declares. These schemas can be compiled
on their own, at any later moment at which the source still holds what it held, and the document is one
of the type they give (`documents_ofOwnSchemas`). This is so for every document that is handed to the
store, at any depth, also where the creation fails later on.
-/

namespace ContentGraph

/-- A document is one of the type that its own schemas are compiled to. -/
def Document.OfOwnSchemas (d : Document) (source : Source) (hashLength : Int) : Prop :=
  ∃ graph, source.compile hashLength d.schemas = .ok graph ∧ graph.rootType.validateDocument d = .ok d

/-- Types that differ at most in the order of their fields and in what these declare have the same
documents. -/
theorem NodeType.Alike.validateDocument {t t' : NodeType} {d : Document} (h : t.Alike t')
    (hd : t.validateDocument d = .ok d) : t'.validateDocument d = .ok d := by
  obtain ⟨-, hknows, hfields⟩ := validateDocument_eq_ok_iff.1 hd
  refine validateDocument_eq_ok_iff.2 ⟨rfl, fun e he => (h.keys _).1 (hknows e he), fun key f' ht' => ?_⟩
  obtain ⟨f, ht⟩ := Table.mem_keys_iff.1 ((h.keys key).2 (Table.mem_keys_iff.2 ⟨f', ht'⟩))
  have halike := h.fields ht ht'
  rw [← halike.kind_eq, ← halike.multiple_eq]
  exact hfields key f ht

theorem Plan.Grounded.schemas_eq {version : String} {calls : List StoreCall} {plan : Plan} {d : Document}
    (h : plan.Grounded version calls d) : d.schemas = plan.schemas := by
  cases h
  rfl

@[simp] theorem Plan.schemas_ofPayload (types : Catalogue) (t : NodeType) (schemas : List String)
    (v : Json) : (Plan.ofPayload types t schemas v).schemas = schemas := by
  unfold ofPayload
  split <;> rfl

section

variable {source : Source} {hashLength : Int} {addresses : List String} {graph : TypeGraph} {v : Json}

/-- The plan of a payload and those below it are plans of payloads of types that can be reached, each
the type of what the schemas of the plan resolve to. -/
theorem planned_cases (hs : Separated (Reached source [addresses]))
    (hg : source.compile hashLength addresses = .ok graph)
    (hv : Payload.Normal graph.types graph.rootType v) {sub : Plan}
    (hsub : sub = .ofPayload graph.types graph.rootType addresses v ∨
      sub.Below (.ofPayload graph.types graph.rootType addresses v)) :
    ∃ schemas set t w, sub = .ofPayload graph.types t schemas w ∧ Payload.Normal graph.types t w ∧
      Reached source [addresses] set ∧ source.resolve schemas = .ok set ∧
      (identityOf set, t) ∈ graph.reachable := by
  rcases hsub with rfl | hbelow
  · obtain ⟨set, hr, hroot⟩ := (Source.represents_of_compile hs hg).root_eq
    refine ⟨addresses, set, graph.rootType, v, rfl, hv, .root List.mem_cons_self hr, hr, ?_⟩
    rw [← hroot]
    exact Catalogue.mem_reachableTypes.2 ⟨.refl, graph.root_mem⟩
  · obtain ⟨i, t, key, f, schemas, target, u, w, hreach, ht, hf, hshape, hu, hw, rfl⟩ :=
      hv.of_below .refl graph.root_mem hbelow
    obtain ⟨-, set, hset, hr, rfl⟩ := Source.declared_of_compile hg i t ht key f hf schemas target hshape
    have hedge : graph.types.Edge i (identityOf set) := ⟨t, key, f, ht, hf, by rw [Field.target?, hshape]⟩
    exact ⟨schemas, set, u, w, rfl, hw, hset, hr, Catalogue.mem_reachableTypes.2 ⟨hreach.tail hedge, hu⟩⟩

/-- A document that is grounded as the one of a plan is one of the type of the plan's schemas. -/
theorem Plan.Grounded.ofOwnSchemas {later : Source} {version : String} {calls : List StoreCall}
    (hs : Separated (Reached source [addresses])) (hg : source.compile hashLength addresses = .ok graph)
    (hv : Payload.Normal graph.types graph.rootType v) {sub : Plan}
    (hsub : sub = .ofPayload graph.types graph.rootType addresses v ∨
      sub.Below (.ofPayload graph.types graph.rootType addresses v))
    {d : Document} (hd : sub.Grounded version calls d) (hk : source.Keeps later) :
    d.OfOwnSchemas later hashLength := by
  obtain ⟨schemas, set, t, w, rfl, hw, hset, hr, ht⟩ := planned_cases hs hg hv hsub
  obtain ⟨graph', hg', halike⟩ := Source.exists_compile_later hs hk hg hset hr ht
  have hschemas : d.schemas = schemas := by rw [hd.schemas_eq, schemas_ofPayload]
  refine ⟨graph', hschemas ▸ hg', halike.symm.validateDocument ?_⟩
  exact (hw.records hd).validateDocument

/-- **Every document that is handed to the store is one of its own schemas.** -/
theorem Creation.ofOwnSchemas {later : Source} {version : String} {others : Gateway → Gateway → Prop}
    {start last : Gateway} {calls : List StoreCall} (hs : Separated (Reached source [addresses]))
    (hg : source.compile hashLength addresses = .ok graph)
    (hv : Payload.Normal graph.types graph.rootType v)
    (h : Creation version others (.ofPayload graph.types graph.rootType addresses v) start calls last)
    (hk : source.Keeps later) : ∀ c ∈ calls, c.document.OfOwnSchemas later hashLength := by
  intro c hc
  obtain ⟨before, after, hcalls⟩ := List.append_of_mem hc
  obtain ⟨sub, hplace, hd, -⟩ := (h.inOrder (Plan.plain_ofPayload _ _ _ _) hcalls).beneath
  exact hd.ofOwnSchemas hs hg hv (hplace.imp And.right And.right) hk

end

/-! ### Creation -/

variable {s : Settings} {payload : Json} {addresses : List String} {validator : Option TypeGraph}
  {g : Gateway}

/-- A payload is refused before anything is stored, or its document is created in a history. -/
theorem createDocument_cases (s : Settings) (payload : Json) (addresses : List String)
    (validator : Option TypeGraph) (g : Gateway) :
    (createDocument s payload addresses validator (.ofGateway g)).2.gateway = g ∨
      ∃ plan calls, PlannedFor s payload addresses validator g plan ∧
        Creation s.version Gateway.Undisturbed plan g calls
          (createDocument s payload addresses validator (.ofGateway g)).2.gateway := by
  unfold createDocument
  rcases materialize_cases s payload addresses validator g with ⟨fault, hm⟩ | ⟨plan, hplan, hm⟩
  · rw [hm]
    exact .inl rfl
  · obtain ⟨calls, job, hl, ho⟩ := Work.write_ofGateway s.version plan g
    rw [hm]
    generalize (Work.ofGateway g).write s.version plan = written at hl ho
    obtain ⟨outcome, w⟩ := written
    cases outcome with
    | error fault => exact .inr ⟨plan, calls, hplan, .beneath hl⟩
    | ok d =>
      cases hl.eq_built ho
      exact .inr ⟨plan, _, hplan, .root hl⟩

/-- What is asked of the documents that are written for a payload. -/
structure WritesOwn (s : Settings) (payload : Json) (addresses : List String) (g : Gateway) : Prop where
  /-- In every history of an accepted payload, whatever moves are made and whatever happens to the
  store beside them, every document that is handed to the store is one of its own schemas, at any
  moment at which the store still holds what it held. -/
  everyHistory : ∀ plan, PlannedFor s payload addresses none g plan → ∀ others start calls last,
    Creation s.version others plan start calls last → ∀ later, g.source.Keeps later →
      ∀ c ∈ calls, c.document.OfOwnSchemas later s.hashLength.digits
  /-- What `createDocument` writes, whether or not it succeeds, are such documents, and are so in the
  store that it leaves behind, where none of them took the place of something else. -/
  created : ∃ calls, g.Wrote calls (createDocument s payload addresses none (.ofGateway g)).2.gateway ∧
    (∀ later, g.source.Keeps later → ∀ c ∈ calls, c.document.OfOwnSchemas later s.hashLength.digits) ∧
    (g.Spares calls → ∀ c ∈ calls, c.document.OfOwnSchemas
      (createDocument s payload addresses none (.ofGateway g)).2.gateway.source s.hashLength.digits)

/-- **Stored documents satisfy the schemas they advertise**, at any depth and whether or not their
creation succeeds. -/
theorem documents_ofOwnSchemas (hs : Separated (Reached g.source [addresses]))
    (hn : ∀ graph, g.source.compile s.hashLength.digits addresses = .ok graph → graph.DistinctNames) :
    WritesOwn s payload addresses g := by
  have hall : ∀ plan, PlannedFor s payload addresses none g plan → ∀ others start calls last,
      Creation s.version others plan start calls last → ∀ later, g.source.Keeps later →
        ∀ c ∈ calls, c.document.OfOwnSchemas later s.hashLength.digits := by
    rintro plan ⟨graph, w, v, hvalidator, hv, rfl⟩ others start calls last h later hk
    rw [validatorFor_none] at hvalidator
    have hg := (Prod.mk.inj hvalidator).1
    exact h.ofOwnSchemas hs hg (TypeGraph.normal_of_validatePayload (hn graph hg) hv) hk
  refine ⟨hall, ?_⟩
  rcases createDocument_cases s payload addresses none g with hsame | ⟨plan, calls, hplan, h⟩
  · rw [hsame]
    exact ⟨[], .refl g, fun _ _ _ hc => absurd hc List.not_mem_nil,
      fun _ _ hc => absurd hc List.not_mem_nil⟩
  · have hown := hall plan hplan _ g calls _ h
    exact ⟨calls, h.wrote, hown, fun hspares => hown _ (h.wrote.keeps hspares)⟩

/-- A store of teams, each with a lead and with members, who are persons under another name; it has room
for two more documents. -/
def teamGateway : Gateway :=
  { Gateway.ofStore ((((Store.empty "omg://").putRaw "person" (.object [("kind", .text "schema"),
      ("name", .text "Person"), ("elements", .object [("name", .object [("kind", .text "string")])])])).putRaw
    "folk" (.object [("kind", .text "alias"), ("name", .text "Folk"), ("schemas", .texts ["person"])])).putRaw
    "team" (.object [("kind", .text "schema"), ("name", .text "Team"), ("elements", .object [
      ("lead", .object [("kind", .text "node"), ("schemas", .texts ["person"])]),
      ("member", .object [("kind", .text "node"), ("multiple", .bool true),
        ("schemas", .texts ["folk"])])])])) with storeFault := some ⟨2, "disk full", false⟩ }

/-- A team of two. -/
def teamPayload : Json :=
  .object [("lead", .object [("name", .text "Al")]), ("member", .list [.object [("name", .text "Bo")]])]

/-- The creation of a team fails after its lead and its member were stored. -/
theorem documents_ofOwnSchemas_team :
    (createDocument .default teamPayload ["team"] none (.ofGateway teamGateway)).1.toOption = none ∧
    (createDocument .default teamPayload ["team"] none
      (.ofGateway teamGateway)).2.gateway.store.written.length = 2 ∧
    WritesOwn .default teamPayload ["team"] teamGateway := by
  have hrun : ((teamGateway.source.compile Settings.default.hashLength.digits ["team"]).toOption.all
      fun graph => decide graph.DistinctNames) &&
      (createDocument .default teamPayload ["team"] none (.ofGateway teamGateway)).1.toOption.isNone &&
      decide ((createDocument .default teamPayload ["team"] none
        (.ofGateway teamGateway)).2.gateway.store.written.length = 2) = true := by
    decide +kernel
  simp only [Bool.and_eq_true, decide_eq_true_eq] at hrun
  obtain ⟨⟨hgraph, hfails⟩, hwritten⟩ := hrun
  have hs : teamGateway.source.Separates [["team"]] := by
    decide +kernel
  refine ⟨Option.isNone_iff_eq_none.1 hfails, hwritten,
    documents_ofOwnSchemas hs.separated fun graph hg => ?_⟩
  rw [hg] at hgraph
  exact of_decide_eq_true hgraph

end ContentGraph
