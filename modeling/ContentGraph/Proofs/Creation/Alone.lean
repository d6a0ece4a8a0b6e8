import ContentGraph.Proofs.Creation.Sessions
import ContentGraph.Proofs.Document.Written

/-!
# Creations alone

A call that succeeds alone with a store stores its resources, each once, and gives the address of the
last (`CreationCall.Succeeds`). For a document that takes the histories of its job: what the job carries
at the end are the documents of its plan (`Job.Leads.carried`).
-/

namespace ContentGraph

/-! ### Stores -/

namespace Store

/-- The store after some resources were saved, one after the other. -/
def saveEach (s : Store) (rs : List Resource) : Store := rs.foldl (fun s r => (s.save r).1) s

variable {s : Store} {rs : List Resource}

theorem saveEach_append (s : Store) (rs rs' : List Resource) :
    s.saveEach (rs ++ rs') = (s.saveEach rs).saveEach rs' := List.foldl_append

@[simp] theorem lead_saveEach (s : Store) (rs : List Resource) : (s.saveEach rs).lead = s.lead := by
  induction rs generalizing s with
  | nil => rfl
  | cons r rs ih => exact ih _

theorem written_saveEach (s : Store) (rs : List Resource) : (s.saveEach rs).written
    = s.written ++ rs.map fun r => r.address s.lead := by
  induction rs generalizing s with
  | nil => exact (List.append_nil _).symm
  | cons r rs ih =>
    have h := ih (s.save r).1
    rw [written_save, List.append_assoc] at h
    exact h

/-- What stands at an address after some resources were saved: the text of the one with that address,
if there is one, and else what stood there before. -/
theorem get?_saveEach (s : Store) (rs : List Resource) {address text : String}
    (ht : ∀ r ∈ rs, r.address s.lead = address → r.canonicalText = text)
    (h : s.contents.get? address = some text ∨ ∃ r ∈ rs, r.address s.lead = address) :
    (s.saveEach rs).contents.get? address = some text := by
  induction rs generalizing s with
  | nil =>
    rcases h with h | ⟨r, hr, -⟩
    · exact h
    · cases hr
  | cons r rs ih =>
    obtain ⟨hfirst, hrest⟩ := List.forall_mem_cons.1 ht
    refine ih (s.save r).1 hrest ?_
    rw [contents_save]
    by_cases he : r.address s.lead = address
    · rw [he, hfirst he]
      exact .inl (Table.get?_insert_self _ _ _)
    · rw [Table.get?_insert_of_ne (Ne.symm he)]
      rcases h with h | ⟨other, hm, ho⟩
      · exact .inl h
      · rcases List.mem_cons.1 hm with rfl | hm
        · exact absurd ho he
        · exact .inr ⟨other, hm, ho⟩

/-- Where nothing is saved, nothing changes. -/
theorem get?_saveEach_of_ne (s : Store) (rs : List Resource) {address : String}
    (h : ∀ r ∈ rs, r.address s.lead ≠ address) :
    (s.saveEach rs).contents.get? address = s.contents.get? address := by
  induction rs generalizing s with
  | nil => rfl
  | cons r rs ih =>
    obtain ⟨hfirst, hrest⟩ := List.forall_mem_cons.1 h
    rw [saveEach, List.foldl_cons]
    refine (ih (s.save r).1 hrest).trans ?_
    rw [contents_save, Table.get?_insert_of_ne (Ne.symm hfirst)]

end Store

theorem Gateway.after_ofStore (s : Store) (d : Option Document) :
    (Gateway.ofStore s).after d = .ofStore (s.saveEach (d.toList.map .document)) := by
  cases d <;> rfl

/-! ### Histories -/

namespace Job

variable {version : String} {plan : Plan} {store : Store} {document : Document}

/-- In a history that is alone with a store, the job carries the documents that were saved. -/
theorem Leads.carried {calls : List StoreCall} {r : Job × Gateway}
    (h : Leads version Gateway.Undisturbed (.planned plan, .ofStore store) calls r)
    (hp : plan.realised? store.lead version = some document) : ∃ ds ds',
    r.2 = .ofStore (store.saveEach (ds.map .document)) ∧
      Carries store.lead version false plan r.1 ds' ∧ ds'.Perm ds := by
  induction h with
  | start => exact ⟨[], [], rfl, .planned, List.Perm.refl _⟩
  | @move calls r m place _ ih =>
    obtain ⟨ds, ds', hg, hc, hperm⟩ := ih
    have hm := movedAt_moveAt version r.2 m place false r.1
    rw [snd_moveAt]
    generalize handedOver? version m place false r.1 = d at hm
    rw [hg] at hm ⊢
    obtain ⟨ds'', hc', hperm'⟩ := hm.carries (Store.lead_saveEach _ _) hc hp
    refine ⟨ds ++ d.toList, ds'', ?_, hc', hperm'.trans (hperm.append_right _)⟩
    rw [Gateway.after_ofStore, List.map_append, Store.saveEach_append]
  | other ho _ _ => exact ho.elim

end Job

/-- Writing a plan alone with a store gives the document that the plan stands for, and saves each
document beneath it once. -/
theorem Work.write_alone {version : String} {plan : Plan} {store : Store} {d : Document} {w : Work}
    (hw : (Work.ofGateway (.ofStore store)).write version plan = (.ok d, w)) :
    plan.realised? store.lead version = some d ∧ ∃ ds,
      w.gateway = .ofStore (store.saveEach (ds.map .document)) ∧
      (plan.beneath store.lead version).Perm ds := by
  obtain ⟨calls, job, hl, ho⟩ := Work.write_ofGateway version plan (.ofStore store)
  rw [hw] at hl ho
  cases hl.eq_built ho
  have hd : plan.realised? store.lead version = some d := hl.realised
  obtain ⟨ds, ds', hgateway, hcarried, hperm⟩ := hl.carried hd
  cases hcarried with
  | built _ => exact ⟨hd, ds, hgateway, hperm⟩

/-! ### Calls that succeed -/

namespace CreationCall

/-- A call that is alone with a store stores its resources, in some order, and gives the address of the
last. -/
structure Succeeds (c : CreationCall) (store : Store) (r : Resource) : Prop where
  /-- The resource that it gives the address of. -/
  last : (c.resources store).getLast? = some r
  /-- The address. -/
  outcome : (c.alone store).1 = .ok (r.address store.lead)
  /-- All resources are written. -/
  written : (c.ownWrites store).Perm ((c.resources store).map fun r => r.address store.lead)
  /-- There are as many as there is to store. -/
  count : (c.resources store).length = c.count store

variable {store : Store} {s : Settings} {input payload : Json} {addresses : List String}
  {validator : Option TypeGraph}

theorem createSchema_eq (s : Settings) (input : Json) (g : Gateway) : createSchema s input g =
    match describedSchema s input with
    | .error fault => (.error fault, g)
    | .ok r => g.saveResource r := by
  unfold createSchema describedSchema
  cases model SchemaInput.read input with
  | refused first more => rfl
  | ok i =>
    dsimp only
    cases i.build s.version <;> rfl

theorem createAlias_eq (s : Settings) (input : Json) (g : Gateway) : createAlias s input g =
    match describedAlias s input with
    | .error fault => (.error fault, g)
    | .ok r => g.saveResource r := by
  unfold createAlias describedAlias
  cases model AliasInput.read input <;> rfl

/-- The addresses that are written beyond those before. -/
theorem drop_written (store : Store) (rs : List Resource) :
    (store.saveEach rs).written.drop store.written.length = rs.map fun r => r.address store.lead := by
  rw [Store.written_saveEach, List.drop_left]

/-- A call that stores one resource as it is described. -/
theorem succeeds_of_described {c : CreationCall} {described : Except Fault Resource} {a : String}
    (halone : c.alone store = match described with
      | .error fault => (.error fault, store)
      | .ok r => (.ok (r.address store.lead), store.saveEach [r]))
    (hresources : c.resources store = described.toOption.toList) (hcount : c.count store = 1)
    (h : (c.alone store).1 = .ok a) : ∃ r, described = .ok r ∧ c.Succeeds store r := by
  cases described with
  | error fault =>
    rw [halone] at h
    cases h
  | ok r =>
    have hone : c.resources store = [r] := hresources
    refine ⟨r, rfl, by rw [hone]; rfl, by rw [halone], ?_, by rw [hone, hcount]; rfl⟩
    rw [ownWrites, halone, hone]
    exact List.Perm.of_eq (drop_written store [r])

theorem succeeds_schema {a : String} (h : ((schema s input).alone store).1 = .ok a) :
    ∃ r, describedSchema s input = .ok r ∧ (schema s input).Succeeds store r := by
  refine succeeds_of_described ?_ rfl rfl h
  show ((createSchema s input (.ofStore store)).1, (createSchema s input (.ofStore store)).2.store) = _
  rw [createSchema_eq]
  cases describedSchema s input <;> rfl

theorem succeeds_alias {a : String} (h : ((CreationCall.alias s input).alone store).1 = .ok a) :
    ∃ r, describedAlias s input = .ok r ∧ (CreationCall.alias s input).Succeeds store r := by
  refine succeeds_of_described ?_ rfl rfl h
  show ((createAlias s input (.ofStore store)).1, (createAlias s input (.ofStore store)).2.store) = _
  rw [createAlias_eq]
  cases describedAlias s input <;> rfl

/-- What is written for a call that creates a document: the documents of its plan, which stands for
one. -/
structure Writes (c : CreationCall) (store : Store) (version : String) (plan : Plan) (d : Document) :
    Prop where
  /-- The plan stands for the document. -/
  realised : plan.realised? store.lead version = some d
  /-- Its documents are the resources of the call. -/
  resources : c.resources store = (plan.documents store.lead version).map .document

theorem Writes.last {c : CreationCall} {version : String} {plan : Plan} {d : Document}
    (h : c.Writes store version plan d) : (c.resources store).getLast? = some (.document d) := by
  rw [h.resources, Plan.documents, h.realised]
  simp

theorem succeeds_document {a : String}
    (h : ((document s payload addresses validator).alone store).1 = .ok a) :
    ∃ graph plan d, graph? s addresses validator store = .ok graph ∧
      planOf payload addresses (.ok graph) = .ok plan ∧
      (document s payload addresses validator).Writes store s.version plan d ∧
      (document s payload addresses validator).Succeeds store (.document d) := by
  have he : (document s payload addresses validator).alone store
      = ((createDocument s payload addresses validator (.ofGateway (.ofStore store))).1,
        (createDocument s payload addresses validator (.ofGateway (.ofStore store))).2.gateway.store) := rfl
  rw [createDocument] at he
  rcases materialize_cases s payload addresses validator (.ofStore store) with
    ⟨fault, hm⟩ | ⟨plan, ⟨graph, w, v, hg, hv, hplan⟩, hm⟩
  · rw [he, hm] at h
    cases h
  have hgraph : graph? s addresses validator store = .ok graph := by rw [graph?, hg]
  have hplanned : planOf payload addresses (.ok graph) = .ok plan := by rw [planOf, hv, hplan]
  have hresources : (document s payload addresses validator).resources store
      = (plan.documents store.lead s.version).map .document := by
    rw [CreationCall.resources, hgraph, hplanned]
  cases hw : (Work.ofGateway (.ofStore store)).write s.version plan with
  | mk outcome w' =>
    rw [hw] at hm
    cases outcome with
    | error fault =>
      rw [he, hm] at h
      cases h
    | ok d =>
      obtain ⟨hd, ds, hgateway, hperm⟩ := Work.write_alone hw
      have hwrites : (document s payload addresses validator).Writes store s.version plan d :=
        ⟨hd, hresources⟩
      have hsave : w'.withGateway (fun g => g.saveResource (.document d))
          = (.ok ((Resource.document d).address (store.saveEach (ds.map .document)).lead),
            { w' with gateway := .ofStore (store.saveEach (ds.map .document ++ [.document d])) }) := by
        rw [Work.withGateway, hgateway, Store.saveEach_append]
        rfl
      rw [hm] at he
      dsimp only at he
      rw [hsave, Store.lead_saveEach] at he
      refine ⟨graph, plan, d, hgraph, hplanned, hwrites, hwrites.last, by rw [he], ?_, ?_⟩
      · rw [ownWrites, he]
        show (List.drop _ (store.saveEach _).written).Perm _
        rw [drop_written, hresources, Plan.documents, hd]
        refine List.Perm.map _ ?_
        rw [List.map_append]
        exact (hperm.symm.map _).append_right _
      · rw [hresources, List.length_map, hplan, Payload.length_documents (hplan ▸ hd), CreationCall.count,
          hgraph, Payload.payloadsIn_of_validatePayload hv]

end CreationCall

end ContentGraph
