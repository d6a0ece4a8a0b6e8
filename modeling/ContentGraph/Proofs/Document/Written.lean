import ContentGraph.Proofs.Document.Refusal
import ContentGraph.Proofs.Resolution.Later

/-!
# What a history writes

A history in which nothing else happens to the store leaves the store with the documents that it took,
saved one after the other (`Job.Leads.wrote`, `Creation.wrote`). So the addresses that were given are
those of the documents, each document is held where no two of them have one digest
(`Gateway.Wrote.holds`), and whatever could be fetched before can be fetched still, where no document
took the place of something else (`Gateway.Wrote.keeps`).
-/

namespace ContentGraph

/-! ### Stores -/

namespace Store

/-- The store after some documents were saved, one after the other. -/
def saveAll (s : Store) (ds : List Document) : Store := ds.foldl (fun s d => (s.save (.document d)).1) s

@[simp] theorem lead_saveAll (s : Store) (ds : List Document) : (s.saveAll ds).lead = s.lead := by
  induction ds generalizing s with
  | nil => rfl
  | cons d ds ih => exact ih _

theorem saveAll_concat (s : Store) (ds : List Document) (d : Document) :
    s.saveAll (ds ++ [d]) = ((s.saveAll ds).save (.document d)).1 := List.foldl_append

section

variable {texts : List String} (hc : NoCollision texts)
include hc

/-- Several writes keep what a store holds. -/
theorem keeps_saveAll (s : Store) {ds : List Document} (ht : documentTexts ds ⊆ texts) :
    s.Keeps texts (s.saveAll ds) := by
  induction ds generalizing s with
  | nil => exact .refl _ _
  | cons d ds ih =>
    obtain ⟨hd, hrest⟩ := List.cons_subset.1 ht
    exact (keeps_save hc s hd).trans (ih _ hrest)

/-- All documents that were saved are held. -/
theorem holdsAll_saveAll (s : Store) {ds : List Document} (ht : documentTexts ds ⊆ texts) :
    (s.saveAll ds).HoldsAll ds := by
  induction ds generalizing s with
  | nil => exact fun _ hd => absurd hd List.not_mem_nil
  | cons d ds ih =>
    obtain ⟨hd, hrest⟩ := List.cons_subset.1 ht
    refine List.forall_mem_cons.2 ⟨?_, ih _ hrest⟩
    exact (keeps_saveAll hc _ hrest).2 _ hd (holds_save s (.document d))

end

/-- What stands at an address stands there still, where nothing else was saved at it. -/
theorem get?_saveAll {address text : String} (s : Store) (ds : List Document)
    (h : s.contents.get? address = some text)
    (hd : ∀ d ∈ ds, (Resource.document d).address s.lead = address →
      (Resource.document d).canonicalText = text) :
    (s.saveAll ds).contents.get? address = some text := by
  induction ds generalizing s with
  | nil => exact h
  | cons d ds ih =>
    obtain ⟨hfirst, hrest⟩ := List.forall_mem_cons.1 hd
    refine ih (s.save (.document d)).1 ?_ hrest
    rw [contents_save]
    by_cases he : (Resource.document d).address s.lead = address
    · rw [he, hfirst he]
      exact Table.get?_insert_self _ _ _
    · rw [Table.get?_insert_of_ne (Ne.symm he)]
      exact h

end Store

/-! ### Histories -/

/-- The documents that the store took. -/
def takenOf (calls : List StoreCall) : List Document :=
  calls.filterMap fun c => c.answer.toOption.map fun _ => c.document

theorem mem_takenOf {calls : List StoreCall} {d : Document} :
    d ∈ takenOf calls ↔ ∃ address, Stored calls d address := by
  unfold takenOf Stored
  rw [List.mem_filterMap]
  constructor
  · rintro ⟨c, hc, h⟩
    cases ha : c.answer with
    | error f =>
      rw [ha] at h
      cases h
    | ok address =>
      rw [ha] at h
      cases h
      exact ⟨address, c, hc, rfl, ha⟩
  · rintro ⟨address, c, hc, rfl, ha⟩
    exact ⟨c, hc, by rw [ha]; rfl⟩

/-- What becomes of a store by some calls: it has the documents that it took, each at the address that
was given for it. -/
structure Gateway.Wrote (g : Gateway) (calls : List StoreCall) (g' : Gateway) : Prop where
  /-- The documents were saved one after the other. -/
  store_eq : g'.store = g.store.saveAll (takenOf calls)
  /-- What could not be fetched can still not be fetched. -/
  faults_eq : g'.fetchFaults = g.fetchFaults
  /-- Addresses are those of the documents. -/
  answers : ∀ c ∈ calls, ∀ address, c.answer = .ok address →
    address = (Resource.document c.document).address g.store.lead

namespace Gateway

theorem save_spec (g : Gateway) (r : Resource) :
    ((g.save r).1 = .ok (r.address g.store.lead) ∧ (g.save r).2.store = (g.store.save r).1 ∧
      (g.save r).2.fetchFaults = g.fetchFaults) ∨ ∃ f, g.save r = (.error f, g) := by
  obtain ⟨store, faults, storeFault⟩ := g
  rcases storeFault with _ | ⟨_ | n, message, own⟩
  · exact .inl ⟨rfl, rfl, rfl⟩
  · exact .inr ⟨_, rfl⟩
  · exact .inl ⟨rfl, rfl, rfl⟩

variable {g g' : Gateway} {calls : List StoreCall} {d : Document}

theorem Wrote.refl (g : Gateway) : g.Wrote [] g := ⟨rfl, rfl, fun _ hc => absurd hc List.not_mem_nil⟩

/-- One more call. -/
theorem Wrote.after (h : g.Wrote calls g') (place : List ℕ) (d : Document) :
    g.Wrote (calls ++ [.made place d g']) (g'.after (some d)) := by
  have htaken : takenOf (calls ++ [.made place d g'])
      = takenOf calls ++ takenOf [.made place d g'] := List.filterMap_append
  have hlead : g'.store.lead = g.store.lead := by rw [h.store_eq, Store.lead_saveAll]
  rcases g'.save_spec (.document d) with ⟨hanswer, hstore, hfaults⟩ | ⟨f, hf⟩
  · refine ⟨?_, hfaults.trans h.faults_eq, fun c hc address ha => ?_⟩
    · have hone : takenOf [.made place d g'] = [d] := by
        simp [takenOf, StoreCall.made, hanswer, Except.toOption]
      rw [htaken, hone, Store.saveAll_concat, ← h.store_eq]
      exact hstore
    · rcases List.mem_append.1 hc with hc | hc
      · exact h.answers c hc address ha
      · cases List.mem_singleton.1 hc
        cases hanswer.symm.trans ha
        rw [hlead]
        rfl
  · have hnone : takenOf [.made place d g'] = [] := by
      simp [takenOf, StoreCall.made, hf, Except.toOption]
    have hsame : g'.after (some d) = g' := by rw [Gateway.after, hf]
    rw [hsame]
    refine ⟨by rw [htaken, hnone, List.append_nil]; exact h.store_eq, h.faults_eq, fun c hc address ha => ?_⟩
    rcases List.mem_append.1 hc with hc | hc
    · exact h.answers c hc address ha
    · cases List.mem_singleton.1 hc
      rw [StoreCall.made, hf] at ha
      cases ha

/-- A document that was stored is found at its address, where no two have one digest. -/
theorem Wrote.holds (h : g.Wrote calls g') (hc : NoCollision (documentTexts (takenOf calls)))
    (hf : g.Fetches) {address : String} (hd : Stored calls d address) :
    g'.source.fetchDocument address = .ok d := by
  have htaken : d ∈ takenOf calls := mem_takenOf.2 ⟨address, hd⟩
  have hheld : g'.store.Holds (.document d) := by
    rw [h.store_eq]
    exact Store.holdsAll_saveAll hc _ (List.Subset.refl _) d htaken
  obtain ⟨c, hm, rfl, ha⟩ := hd
  have haddress : address = (Resource.document c.document).address g'.store.lead := by
    rw [h.store_eq, Store.lead_saveAll]
    exact h.answers c hm address ha
  rw [haddress]
  exact fetchDocument_of_holds (by rw [h.faults_eq]; exact hf _) hheld

/-- No document that was taken stands where something else stood. -/
def Spares (g : Gateway) (calls : List StoreCall) : Prop :=
  ∀ d ∈ takenOf calls, ∀ text,
    g.store.contents.get? ((Resource.document d).address g.store.lead) = some text →
    (Resource.document d).canonicalText = text

/-- Fetching from an address depends on what stands there and on its fault. -/
theorem fetch_congr {address : String} (hf : g'.fetchFaults = g.fetchFaults)
    (h : g'.store.contents.get? address = g.store.contents.get? address) :
    g'.fetch address = g.fetch address := by
  unfold fetch
  rw [hf, h]

/-- Where no document took the place of something else, whatever could be fetched can be fetched
still. -/
theorem Wrote.keeps (h : g.Wrote calls g') (hd : g.Spares calls) : g.source.Keeps g'.source := by
  intro address r hr
  have hfetch : g.fetch address = .ok r := hr
  cases ht : g.store.contents.get? address with
  | none =>
    rw [fetch, ht] at hfetch
    split at hfetch <;> cases hfetch
  | some text =>
    have hkept : g'.store.contents.get? address = some text := by
      rw [h.store_eq]
      refine Store.get?_saveAll _ _ ht ?_
      rintro d hm rfl
      exact hd d hm text ht
    show g'.fetch address = .ok r
    rw [fetch_congr h.faults_eq (hkept.trans ht.symm), hfetch]

end Gateway

variable {version : String} {plan : Plan} {g g' : Gateway} {calls : List StoreCall}

/-- **A history alone with a store writes the documents of its calls.** -/
theorem Job.Leads.wrote {r : Job × Gateway}
    (h : Leads version Gateway.Undisturbed (.planned plan, g) calls r) : g.Wrote calls r.2 := by
  induction h with
  | start => exact .refl g
  | @move calls r m place _ ih =>
    rw [snd_moveAt, callAt?]
    cases handedOver? version m place false r.1 with
    | none =>
      rw [Option.map_none, Option.toList_none, List.append_nil]
      exact ih
    | some d => exact ih.after place d
  | other ho _ _ => exact ho.elim

mutual

/-- A document that is grounded by calls that gave the addresses of documents is the one that its plan
stands for. -/
theorem Plan.Grounded.realised {lead : String}
    (ha : ∀ e address, Stored calls e address → address = (Resource.document e).address lead) :
    ∀ {plan : Plan} {d : Document}, plan.Grounded version calls d → plan.realised? lead version = some d
  | _, _, .document hg => by rw [Plan.realised?, GroundedPortions.elements?_eq ha hg, Option.map_some]

theorem GroundedPortions.elements?_eq {lead : String}
    (ha : ∀ e address, Stored calls e address → address = (Resource.document e).address lead) :
    ∀ {portions : List Portion} {es : List Element}, GroundedPortions version calls portions es →
    portionsElements? lead version portions = some es
  | _, _, .nil => rfl
  | _, _, .elements hr => by
    rw [portionsElements?, GroundedPortions.elements?_eq ha hr]
    rfl
  | _, _, .children hall he hr => by
    obtain ⟨ds, hds, rfl⟩ := GroundedAll.exists_realised ha hall
    rw [portionsElements?, GroundedPortions.elements?_eq ha hr, Portion.elements?, hds, Option.bind_some, he]
    rfl

theorem GroundedAll.exists_realised {lead : String}
    (ha : ∀ e address, Stored calls e address → address = (Resource.document e).address lead) :
    ∀ {plans : List Plan} {addresses : List String}, GroundedAll version calls plans addresses →
    ∃ ds, plansRealised? lead version plans = some ds ∧
      addresses = ds.map fun d => (Resource.document d).address lead
  | _, _, .nil => ⟨[], rfl, rfl⟩
  | _, _, .cons hd hst hr => by
    obtain ⟨ds, hds, rfl⟩ := GroundedAll.exists_realised ha hr
    refine ⟨_ :: ds, by rw [plansRealised?, Plan.Grounded.realised ha hd, hds]; rfl, ?_⟩
    rw [List.map_cons, ha _ _ hst]

end

/-- **What a history alone with a store builds is the document that the plan stands for.** -/
theorem Job.Leads.realised {d : Document}
    (h : Leads version Gateway.Undisturbed (.planned plan, g) calls (.built d, g')) :
    plan.realised? g.store.lead version = some d := by
  refine h.tracks.grounded.realised ?_
  rintro _ address ⟨c, hc, rfl, ha⟩
  exact h.wrote.answers c hc address ha

theorem Creation.wrote (h : Creation version Gateway.Undisturbed plan g calls g') : g.Wrote calls g' := by
  cases h with
  | beneath h => exact h.wrote
  | root h => exact h.wrote.after [] _

end ContentGraph
