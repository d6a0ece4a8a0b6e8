import ContentGraph.Document.Writing
import ContentGraph.Proofs.Document.Progress
import ContentGraph.Proofs.Document.ReadBack
import ContentGraph.Proofs.Payload.Conformance

/-!
# Creating a document and reading it

A payload that is created as a document is read back from the store: the document at the address
that was given, read by the type it was created for, gives the payload in normal form
(`createDocument_gives`). This holds for payloads nested to any depth and for types that lead back
to themselves.
-/

namespace ContentGraph

/-- The documents that have to be stored for a payload. -/
def TypeGraph.documents (g : TypeGraph) (lead version : String) (addresses : List String)
    (payload : Json) : List Document :=
  match g.validatePayload payload with
  | .ok v => (Plan.ofPayload g.types g.rootType addresses v).documents lead version
  | .error _ => []

/-! ### Keys that are absent -/

/-- Under a key that is absent from an accepted payload stands the empty list. -/
theorem TypeGraph.find_of_absent {g : TypeGraph} {ms vs : List (String × Json)} {key : String}
    {f : Field} (h : g.validatePayload (.object ms) = .ok (.object vs))
    (hf : (key, f) ∈ g.rootType.fields.entries)
    (hk : Table.find key ms = none) : Table.find key vs = some (.list []) := by
  obtain ⟨_, hms, hr⟩ := validatePayload_eq_ok_iff.1 h
  cases hms
  obtain ⟨-, _, hvs, hkeys, hat⟩ := Payload.readRoot_eq_ok_iff.1 hr
  cases hvs
  have ht : g.rootType.fields.get? key = some f := Table.get?_eq_some_iff.2 hf
  obtain ⟨v, hv⟩ := Table.exists_find (hkeys ▸ Table.mem_keys_iff.2 ⟨f, ht⟩)
  rcases hat key f v ht hv with ⟨u, hu, -⟩ | ⟨-, -, rfl⟩
  · cases hk.symm.trans hu
  · exact hv

theorem FieldsGive.of_mem {source : Source} {types : Catalogue} {d : Document}
    {fields : List (String × Field)} {vs : List (String × Json)} {key : String} {f : Field}
    (h : FieldsGive source types d fields vs) (hn : (fields.map Prod.fst).Nodup)
    (hm : (key, f) ∈ fields) :
    ∃ value v, source.readField d key f = .ok value ∧ Table.find key vs = some v ∧
      ValueGives source types f value v := by
  induction fields generalizing vs with
  | nil => cases hm
  | cons field fields ih =>
    obtain - | @⟨_, other, _, _, _, _, _, hr, hg, hs⟩ := h
    obtain ⟨ho, hn⟩ := List.nodup_cons.1 hn
    rcases List.mem_cons.1 hm with he | hm
    · cases he
      exact ⟨_, _, hr, by simp [Table.find], hg⟩
    · have hne : other ≠ key := by
        rintro rfl
        exact ho (List.mem_map.2 ⟨_, hm, rfl⟩)
      obtain ⟨found, w, hr, hf, hg⟩ := ih hs hn hm
      refine ⟨found, w, hr, ?_, hg⟩
      rw [Table.find, if_neg hne]
      exact hf

/-! ### The round trip -/

/-- A payload that is written has a normal form, stands for the document that is given, and
everything beneath the document is held. -/
theorem materialize_ok {s : Settings} {store : Store} {addresses : List String} {payload : Json}
    {graph : TypeGraph} {d : Document} {w : Work}
    (hg : (Gateway.ofStore store).source.compile s.hashLength.digits addresses = .ok graph)
    (hc : NoCollision (documentTexts (graph.documents store.lead s.version addresses payload)))
    (h : materialize s payload addresses none (.ofGateway (.ofStore store)) = (.ok d, w)) :
    ∃ v, graph.validatePayload payload = .ok v ∧
      (Plan.ofPayload graph.types graph.rootType addresses v).realised? store.lead s.version = some d ∧
      w.gateway.store.HoldsAll
        ((Plan.ofPayload graph.types graph.rootType addresses v).beneath store.lead s.version) ∧
      (Gateway.ofStore store).Keeps
        (documentTexts (graph.documents store.lead s.version addresses payload)) w.gateway := by
  unfold materialize validatorFor at h
  dsimp only at h
  rw [show (Work.ofGateway (.ofStore store)).gateway = .ofStore store from rfl, hg] at h
  dsimp only at h
  rw [show Work.whileCompiling s .empty addresses (.ofGateway (.ofStore store))
    = .ofGateway (.ofStore store) from rfl] at h
  cases hv : graph.validatePayload payload with
  | error f =>
    rw [hv] at h
    cases h
  | ok v =>
    rw [hv] at h
    dsimp only at h
    have hdocs : graph.documents store.lead s.version addresses payload
        = (Plan.ofPayload graph.types graph.rootType addresses v).documents store.lead s.version := by
      rw [TypeGraph.documents, hv]
    have hw : ∀ p ∈ [] ++ [Plan.ofPayload graph.types graph.rootType addresses v],
        Job.Within store.lead s.version
          (documentTexts (graph.documents store.lead s.version addresses payload)) p := by
      intro p hp
      rw [List.nil_append, List.mem_singleton] at hp
      rw [hp, hdocs]
      exact List.Subset.refl _
    have hf : (Work.ofGateway (.ofStore store)).Follows store.lead s.version [] := ⟨rfl, .nil⟩
    exact ⟨v, rfl, Work.write_ok hc hw hf h⟩

/-- **A created document is read back as the payload it was created for**, and a key that may
repeat and is absent from the payload is read as no items. -/
theorem createDocument_gives {s : Settings} {store : Store} {addresses : List String} {payload : Json}
    {graph : TypeGraph} {address : String} {w : Work}
    (hg : (Gateway.ofStore store).source.compile s.hashLength.digits addresses = .ok graph)
    (hn : graph.DistinctNames)
    (hc : NoCollision (documentTexts (graph.documents store.lead s.version addresses payload)))
    (h : createDocument s payload addresses none (.ofGateway (.ofStore store)) = (.ok address, w)) :
    ∃ v d, graph.validatePayload payload = .ok v ∧
      w.gateway.source.fetchDocument address = .ok d ∧
      Gives w.gateway.source graph.types graph.rootType d v ∧
      ∀ ms key f, payload = .object ms → (key, f) ∈ graph.rootType.fields.entries →
        f.multiple = true → Table.find key ms = none →
        w.gateway.source.readField d key f = .ok (.many []) := by
  unfold createDocument at h
  split at h
  · cases h
  · next d w' hm =>
    obtain ⟨v, hv, hd, hb, hk⟩ := materialize_ok hg hc hm
    have hnormal := TypeGraph.normal_of_validatePayload hn hv
    have hlead : w'.gateway.store.lead = store.lead := hk.1.1
    have htext : (Resource.document d).canonicalText
        ∈ documentTexts (graph.documents store.lead s.version addresses payload) := by
      refine List.mem_map_of_mem ?_
      rw [TypeGraph.documents, hv]
      exact Plan.mem_documents_of_realised? hd
    -- the root is stored last, and what is beneath it stays held
    have hsave : (Except.ofFailure (w'.gateway.save (.document d)).1,
        ({ w' with gateway := (w'.gateway.save (.document d)).2 } : Work)) = (.ok address, w) := h
    rcases w'.gateway.save_cases hc htext with ⟨g, hs, hheld, hkeep⟩ | ⟨f, hs⟩
    · rw [hs] at hsave
      cases hsave
      have hfetch : g.Fetches := fun a => by
        rw [hkeep.2, hk.2]
        rfl
      have hlead' : g.store.lead = store.lead := hkeep.1.1.trans hlead
      have hbeneath : g.store.HoldsAll
          ((Plan.ofPayload graph.types graph.rootType addresses v).beneath g.store.lead s.version) := by
        rw [hlead']
        refine hb.mono hkeep.1 ?_
        intro text ht
        obtain ⟨e, he, rfl⟩ := List.mem_map.1 ht
        refine List.mem_map_of_mem ?_
        rw [TypeGraph.documents, hv]
        exact List.mem_append_left _ he
      have hgives := hnormal.gives hfetch (hlead' ▸ hd) hbeneath
      refine ⟨v, d, hv, ?_, hgives, ?_⟩
      · have := Gateway.fetchDocument_of_holds (hfetch _) hheld
        rwa [hkeep.1.1] at this
      · intro ms key f hp hf hmul hkey
        subst hp
        cases hgives with
        | object hgf =>
          have hfind := TypeGraph.find_of_absent hv hf hkey
          obtain ⟨value, w, hr, hw, hvg⟩ := hgf.of_mem graph.rootType.fields.nodup hf
          cases hw.symm.trans hfind
          cases hvg with
          | one => cases hmul
          | many hi =>
            cases hi
            exact hr
    · rw [hs] at hsave
      cases hsave

/-! ### A schema that leads back to itself -/

/-- A store with a schema of named nodes, each with marks and with peers of its own kind. -/
def peerStore : Store :=
  (Store.empty "omg://").putRaw "p" (.object [("kind", .text "schema"), ("name", .text "P"),
    ("elements", .object [("name", .object [("kind", .text "string")]),
      ("mark", .object [("kind", .text "number"), ("multiple", .bool true)]),
      ("peer", .object [("kind", .text "node"), ("multiple", .bool true), ("schemas", .texts ["p"])])])])

/-- A node without marks and its peer with two. -/
def peerPayload : Json :=
  .object [("peer", .list [.object [("mark", .list [.number .nan, .integer 3]), ("name", .text "Bo")]]),
    ("name", .text "Al")]

theorem createDocument_gives_peers : ∃ graph address w,
    (Gateway.ofStore peerStore).source.compile Settings.default.hashLength.digits ["p"] = .ok graph ∧
    graph.DistinctNames ∧
    NoCollision (documentTexts
      (graph.documents peerStore.lead Settings.default.version ["p"] peerPayload)) ∧
    createDocument .default peerPayload ["p"] none (.ofGateway (.ofStore peerStore))
      = (.ok address, w) ∧
    ∃ v d, graph.validatePayload peerPayload = .ok v ∧
      w.gateway.source.fetchDocument address = .ok d ∧
      Gives w.gateway.source graph.types graph.rootType d v ∧
      ∀ ms key f, peerPayload = .object ms → (key, f) ∈ graph.rootType.fields.entries →
        f.multiple = true → Table.find key ms = none →
        w.gateway.source.readField d key f = .ok (.many []) := by
  have hrun : ((Gateway.ofStore peerStore).source.compile Settings.default.hashLength.digits
      ["p"]).toOption.any (fun graph => decide (graph.DistinctNames ∧ ((documentTexts
        (graph.documents peerStore.lead Settings.default.version ["p"] peerPayload)).map Sha256.hex).Nodup)
        && (createDocument .default peerPayload ["p"] none
          (.ofGateway (.ofStore peerStore))).1.toOption.any fun _ => true) = true := by
    decide +kernel
  obtain ⟨graph, hg, hrun⟩ := exists_ok_of_any hrun
  simp only [Bool.and_eq_true, decide_eq_true_eq] at hrun
  obtain ⟨⟨hn, htexts⟩, hcreate⟩ := hrun
  have hc := noCollision_of_nodup htexts
  obtain ⟨address, ha, -⟩ := exists_ok_of_any hcreate
  generalize hr : createDocument .default peerPayload ["p"] none
    (.ofGateway (.ofStore peerStore)) = r at ha
  obtain ⟨outcome, w⟩ := r
  cases show outcome = .ok address from ha
  exact ⟨graph, address, w, hg, hn, hc, rfl, createDocument_gives hg hn hc hr⟩

end ContentGraph
