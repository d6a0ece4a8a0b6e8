import ContentGraph.Proofs.Document.Buildable
import ContentGraph.Proofs.Document.StoreOrder
import ContentGraph.Proofs.Document.Termination

/-!
# Failures that are not the store's

A payload is checked as a whole before the first of its documents is stored. A job of a plan that can
be built thrives (`Job.Thrives`): a move lets it fail only where the store does not take a document. So
once something is stored, nothing but the store can fail, in whatever order the jobs take turns
(`Job.Leads.exists_failed`), and a call that fails otherwise has written nothing (`failsAtStore`).
-/

namespace ContentGraph

namespace Job

/-- Nothing but the store can let a job fail. -/
inductive Thrives : Job → Prop
  /-- It can be built. -/
  | planned {plan : Plan} : plan.All Portion.Buildable → Thrives (.planned plan)
  /-- It waits for others that thrive, and what is left can be built. -/
  | waiting {schemas : List String} {done : List Element} {key : String} {children : List Job}
      {rest : List Portion} : key ≠ "" → (∀ child ∈ children, Thrives child) →
      (Plan.document schemas rest).All Portion.Buildable →
      Thrives (.waiting schemas done key children rest)
  /-- It is built. -/
  | built {d : Document} : Thrives (.built d)
  /-- It is stored. -/
  | stored {d : Document} {address : String} : Thrives (.stored d address)

theorem Thrives.fault?_eq_none {job : Job} (h : job.Thrives) : job.fault? = none := by
  cases h <;> rfl

theorem Thrives.children {job : Job} (h : job.Thrives) : ∀ child ∈ job.children, child.Thrives := by
  cases h with
  | waiting _ hc _ => exact hc
  | _ => exact fun _ hm => absurd hm List.not_mem_nil

/-- A job that thrives goes on thriving with a child that does. -/
theorem Thrives.withChild {job child : Job} (h : job.Thrives) (n : ℕ) (hc : child.Thrives) :
    (job.withChild n child).Thrives := by
  cases h with
  | waiting hkey hchildren hrest =>
    refine .waiting hkey (fun other ho => ?_) hrest
    rcases List.mem_or_eq_of_mem_set ho with ho | rfl
    · exact hchildren other ho
    · exact hc
  | planned hp => exact .planned hp
  | built => exact .built
  | stored => exact .stored

variable {version : String} {g : Gateway} {stores : Bool}

/-- The store takes a document, if there is one. -/
def Taken (g : Gateway) (d : Option Document) : Prop :=
  ∀ document, d = some document → ∃ address, (g.save (.document document)).1 = .ok address

theorem Finished.thrives {d : Document} {r : Job × Gateway} (h : Finished d g stores r)
    (ht : stores = true → Taken g (some d)) : r.1.Thrives := by
  cases h with
  | built => exact .built
  | stored _ => exact .stored
  | refused hf =>
    obtain ⟨address, ha⟩ := ht rfl d rfl
    cases hf.symm.trans ha

/-- Portions that can be built let no job fail. -/
theorem Proceeded.thrives {schemas : List String} {done : List Element} {portions : List Portion}
    {d : Option Document} {r : Job × Gateway}
    (h : Proceeded version stores schemas g done portions d r)
    (hp : (Plan.document schemas portions).All Portion.Buildable)
    (ht : stores = true → Taken g d) : r.1.Thrives := by
  cases h with
  | finished _ => exact (finished_finish _ _ _).thrives ht
  | stuck hf => exact (hp.portions _ hf).elim
  | @waits before after key plans es hportions _ hplans =>
    subst hportions
    have hmem : .children key plans ∈ (Plan.document schemas
        (before ++ .children key plans :: after)).portions :=
      List.mem_append_right _ List.mem_cons_self
    have hrest := hp.of_append (before ++ [.children key plans]) (List.append_cons _ _ _)
    refine .waiting (hp.portions _ hmem hplans) (fun child hc => ?_) hrest
    obtain ⟨plan, hplan, rfl⟩ := List.mem_map.1 hc
    exact .planned (hp.child hmem hplan)

/-- A job that thrives fails by a move only where the store does not take its document. -/
theorem Moved.thrives {m : Move} {job : Job} {d : Option Document} {r : Job × Gateway}
    (h : Moved version stores g m job d r) (hj : job.Thrives) (ht : stores = true → Taken g d) :
    r.1.Thrives := by
  cases h with
  | idle _ => exact hj
  | begun hproceeded =>
    cases hj with
    | planned hp => exact hproceeded.thrives hp ht
  | resumed _ _ hproceeded =>
    cases hj with
    | waiting _ _ hrest => exact hproceeded.thrives hrest ht
  | @unreferenced _ _ key _ _ addresses _ _ hr =>
    cases hj with
    | waiting hkey _ _ =>
      obtain ⟨es, hes⟩ := exists_references hkey addresses
      cases hes.symm.trans hr
  | abandoned hc hf =>
    cases hj with
    | waiting _ hchildren _ =>
      have hnone := (hchildren _ (List.mem_of_getElem? hc)).fault?_eq_none
      cases hnone.symm.trans hf

theorem MovedAt.thrives {m : Move} {place : List ℕ} {job : Job} {d : Option Document}
    {r : Job × Gateway} (h : MovedAt version g m place stores job d r) (hj : job.Thrives)
    (ht : Taken g d) : r.1.Thrives := by
  induction h with
  | here hm =>
    refine hm.thrives hj fun hs => ?_
    rwa [if_pos hs] at ht
  | deeper hc _ ih =>
    have hchild := hj.children _ (List.mem_of_getElem? hc)
    exact hj.withChild _ (ih hchild ht)
  | nowhere _ => exact hj

variable {others : Gateway → Gateway → Prop} {start r : Job × Gateway} {calls : List StoreCall}

/-- While the store takes all documents, a job goes on thriving. -/
theorem Leads.thrives (h : Leads version others start calls r) (hs : start.1.Thrives)
    (hc : ∀ c ∈ calls, ¬ c.Failed) : r.1.Thrives := by
  induction h with
  | start => exact hs
  | @move calls r m place _ ih =>
    obtain ⟨hbefore, hcall⟩ := List.forall_mem_append.1 hc
    refine (movedAt_moveAt version r.2 m place false r.1).thrives (ih hbefore) fun d hd => ?_
    have hmade : StoreCall.made place d r.2 ∈ (callAt? version m place r.1 r.2).toList := by
      rw [callAt?, hd]
      exact List.mem_cons_self
    cases ha : (r.2.save (.document d)).1 with
    | ok address => exact ⟨address, rfl⟩
    | error f => exact absurd ⟨f, ha⟩ (hcall _ hmade)
  | other _ _ ih => exact ih hc

/-- **In every history, nothing but the store lets the job of a plan fail that can be built.** -/
theorem Leads.exists_failed {plan : Plan} {g : Gateway}
    (h : Leads version others (.planned plan, g) calls r) (hp : plan.All Portion.Buildable)
    (hf : r.1.fault?.isSome) : ∃ c ∈ calls, c.Failed := by
  by_contra hnone
  have hthrives := h.thrives (.planned hp) fun c hc hfailed => hnone ⟨c, hc, hfailed⟩
  rw [hthrives.fault?_eq_none] at hf
  cases hf

end Job

/-! ### Calls -/

/-- A plan is the one that is carried out for a payload: it was accepted. -/
def PlannedFor (s : Settings) (payload : Json) (addresses : List String)
    (validator : Option TypeGraph) (g : Gateway) (plan : Plan) : Prop :=
  ∃ graph w v, validatorFor s addresses validator (.ofGateway g) = (.ok graph, w) ∧
    graph.validatePayload payload = .ok v ∧
    plan = .ofPayload graph.types graph.rootType addresses v

/-- Nothing else happens to the store. -/
def Gateway.Undisturbed (_ _ : Gateway) : Prop := False

/-- The store did not take a document in a history of a call from one store to another. -/
def StoreRefuses (s : Settings) (payload : Json) (addresses : List String)
    (validator : Option TypeGraph) (g g' : Gateway) : Prop :=
  ∃ plan calls, PlannedFor s payload addresses validator g plan ∧
    Creation s.version Gateway.Undisturbed plan g calls g' ∧ ∃ c ∈ calls, c.Failed

/-- Once a payload is accepted, nothing but the store lets a call fail. -/
structure FailsAtStore (s : Settings) (payload : Json) (addresses : List String)
    (validator : Option TypeGraph) (g : Gateway) : Prop where
  /-- In every history of an accepted payload, whatever moves are made and whatever happens to the
  store beside them, a job is given up only after the store did not take a document. -/
  everyHistory : ∀ plan, PlannedFor s payload addresses validator g plan →
    ∀ others start calls r, Job.Leads s.version others (.planned plan, start) calls r →
      r.1.fault?.isSome → ∃ c ∈ calls, c.Failed
  /-- Where `materialize` fails, the store is as it was or did not take a document. -/
  materialized : ∀ fault w,
    materialize s payload addresses validator (.ofGateway g) = (.error fault, w) →
    w.gateway = g ∨ StoreRefuses s payload addresses validator g w.gateway
  /-- So it is where `createDocument` fails. -/
  created : ∀ fault w,
    createDocument s payload addresses validator (.ofGateway g) = (.error fault, w) →
    w.gateway = g ∨ StoreRefuses s payload addresses validator g w.gateway

theorem snd_validatorFor (s : Settings) (addresses : List String) (validator : Option TypeGraph)
    (g : Gateway) : (validatorFor s addresses validator (.ofGateway g)).2 = .ofGateway g := by
  cases validator <;> rfl

/-- A job alone with a store is carried out to its end, which is the outcome of writing its plan. -/
theorem Work.write_ofGateway (version : String) (plan : Plan) (g : Gateway) : ∃ calls job,
    Job.Leads version Gateway.Undisturbed (.planned plan, g) calls
      (job, ((Work.ofGateway g).write version plan).2.gateway) ∧
    job.outcome? = some ((Work.ofGateway g).write version plan).1 := by
  have halone : ((Work.ofGateway g).add plan).Beside Gateway.Undisturbed 0 := by
    intro n hn hlt
    exact absurd (Nat.lt_one_iff.1 hlt) hn
  obtain ⟨calls, job, hj, hl⟩ := leads_carryOut version plan (w := .ofGateway g) halone
  obtain ⟨job', hj', hdone⟩ := isDone_carryOut g version plan
  cases hj.symm.trans hj'
  obtain ⟨outcome, ho⟩ : ∃ outcome, job.outcome? = some outcome := by
    cases job with
    | planned => cases hdone
    | waiting => cases hdone
    | _ => exact ⟨_, rfl⟩
  refine ⟨calls, job, ?_, ?_⟩
  · rw [write_eq, gateway_settle]
    exact hl
  · rw [write_eq, hj, Option.bind_some, ho]
    rfl

section

variable {s : Settings} {payload : Json} {addresses : List String} {validator : Option TypeGraph}
  {g : Gateway}

/-- A payload is refused before anything is stored, or its plan is carried out. -/
theorem materialize_cases (s : Settings) (payload : Json) (addresses : List String)
    (validator : Option TypeGraph) (g : Gateway) :
    (∃ f, materialize s payload addresses validator (.ofGateway g)
        = (.error (.failure f), .ofGateway g)) ∨
      ∃ plan, PlannedFor s payload addresses validator g plan ∧
        materialize s payload addresses validator (.ofGateway g)
          = (Work.ofGateway g).write s.version plan := by
  unfold materialize
  have hw := snd_validatorFor s addresses validator g
  cases hg : validatorFor s addresses validator (.ofGateway g) with
  | mk outcome w =>
    rw [hg] at hw
    cases hw
    cases outcome with
    | error f => exact .inl ⟨_, rfl⟩
    | ok graph =>
      dsimp only
      cases hv : graph.validatePayload payload with
      | error f => exact .inl ⟨_, rfl⟩
      | ok v => exact .inr ⟨_, ⟨graph, _, v, hg, hv, rfl⟩, rfl⟩

/-- What is planned for an accepted payload can be built. -/
theorem PlannedFor.buildable {plan : Plan} (h : PlannedFor s payload addresses validator g plan)
    (hcompiled : ∀ graph, validator = some graph →
      ∃ source : Source, source.compile s.hashLength.digits addresses = .ok graph)
    (hgraph : ∀ graph w, validatorFor s addresses validator (.ofGateway g) = (.ok graph, w) →
      graph.DistinctNames ∧ graph.NamesKeys) : plan.All Portion.Buildable := by
  obtain ⟨graph, w, v, hg, hv, rfl⟩ := h
  obtain ⟨hnames, hkeys⟩ := hgraph graph w hg
  have hclosed : graph.types.Closed := by
    cases validator with
    | none => exact Source.closed_of_compile (Prod.mk.inj hg).1
    | some given =>
      cases hg
      obtain ⟨source, hs⟩ := hcompiled _ rfl
      exact Source.closed_of_compile hs
  exact graph.buildable_ofPayload hclosed hnames hkeys hv addresses

/-- **A failure that is not the store's performs no writes**, where no type has the empty key and no
two types have one name. -/
theorem failsAtStore
    (hcompiled : ∀ graph, validator = some graph →
      ∃ source : Source, source.compile s.hashLength.digits addresses = .ok graph)
    (hgraph : ∀ graph w, validatorFor s addresses validator (.ofGateway g) = (.ok graph, w) →
      graph.DistinctNames ∧ graph.NamesKeys) : FailsAtStore s payload addresses validator g := by
  have hbuildable : ∀ plan, PlannedFor s payload addresses validator g plan →
      plan.All Portion.Buildable := fun _ h => h.buildable hcompiled hgraph
  have hmaterialized : ∀ fault w,
      materialize s payload addresses validator (.ofGateway g) = (.error fault, w) →
      w.gateway = g ∨ StoreRefuses s payload addresses validator g w.gateway := by
    intro fault w h
    rcases materialize_cases s payload addresses validator g with ⟨f, hm⟩ | ⟨plan, hplan, hm⟩
    · cases hm.symm.trans h
      exact .inl rfl
    · obtain ⟨calls, job, hl, ho⟩ := Work.write_ofGateway s.version plan g
      rw [← hm, h] at hl ho
      have hfault : job.fault?.isSome := by
        cases job with
        | failed => rfl
        | _ => cases ho
      exact .inr ⟨plan, calls, hplan, .beneath hl, hl.exists_failed (hbuildable plan hplan) hfault⟩
  refine ⟨fun plan hplan others start calls r hl hf => hl.exists_failed (hbuildable plan hplan) hf,
    hmaterialized, fun fault w h => ?_⟩
  unfold createDocument at h
  split at h
  · next fault' w' hm =>
    cases h
    exact hmaterialized _ _ hm
  · next d w' hd =>
    rcases materialize_cases s payload addresses validator g with ⟨f, hm⟩ | ⟨plan, hplan, hm⟩
    · cases hm.symm.trans hd
    · obtain ⟨calls, job, hl, ho⟩ := Work.write_ofGateway s.version plan g
      rw [← hm, hd] at hl ho
      cases hl.eq_built ho
      -- the document is built, so that it is the last call that failed
      have hsave : (Except.ofFailure (w'.gateway.save (.document d)).1,
          ({ w' with gateway := (w'.gateway.save (.document d)).2 } : Work)) = (.error fault, w) := h
      cases hs : (w'.gateway.save (.document d)).1 with
      | ok address =>
        rw [hs] at hsave
        cases hsave
      | error f =>
        rw [hs] at hsave
        cases hsave
        refine .inr ⟨plan, _, hplan, .root hl, _, List.mem_append_right _ List.mem_cons_self, f, hs⟩

end

/-- The store of peers, with room for one more document. -/
def fullGateway : Gateway :=
  { Gateway.ofStore peerStore with storeFault := some ⟨1, "disk full", false⟩ }

theorem failsAtStore_full : ∃ fault w,
    createDocument .default peerPayload ["p"] none (.ofGateway fullGateway) = (.error fault, w) ∧
    w.gateway.store.written.length = 1 ∧ FailsAtStore .default peerPayload ["p"] none fullGateway := by
  have hrun : ((fullGateway.source.compile Settings.default.hashLength.digits ["p"]).toOption.all
      fun graph => decide (graph.DistinctNames ∧ graph.NamesKeys)) &&
      (createDocument .default peerPayload ["p"] none (.ofGateway fullGateway)).1.toOption.isNone &&
      decide ((createDocument .default peerPayload ["p"] none
        (.ofGateway fullGateway)).2.gateway.store.written.length = 1) = true := by
    decide +kernel
  simp only [Bool.and_eq_true, decide_eq_true_eq] at hrun
  obtain ⟨⟨hgraph, hfails⟩, hwritten⟩ := hrun
  have h : FailsAtStore .default peerPayload ["p"] none fullGateway := by
    refine failsAtStore (fun _ h => by cases h) fun graph w hg => ?_
    rw [validatorFor_none] at hg
    rw [(Prod.mk.inj hg).1] at hgraph
    exact of_decide_eq_true hgraph
  generalize createDocument .default peerPayload ["p"] none (.ofGateway fullGateway) = r at *
  obtain ⟨outcome, w⟩ := r
  cases outcome with
  | ok address => cases hfails
  | error fault => exact ⟨fault, w, rfl, hwritten, h⟩

/-! ### Both conditions are needed -/

section

variable {s : Settings} {payload : Json} {addresses : List String} {validator : Option TypeGraph}
  {g g' : Gateway}

/-- A store that is not told to fail takes every document. -/
theorem Gateway.save_of_sound (hg : g.storeFault = none) (r : Resource) :
    (g.save r).2.storeFault = none ∧ ∃ address, (g.save r).1 = .ok address := by
  unfold save
  rw [hg]
  exact ⟨rfl, _, rfl⟩

theorem Job.Leads.not_failed {version : String} {plan : Plan} {calls : List StoreCall}
    {r : Job × Gateway} (h : Leads version Gateway.Undisturbed (.planned plan, g) calls r)
    (hg : g.storeFault = none) : r.2.storeFault = none ∧ ∀ c ∈ calls, ¬ c.Failed := by
  induction h with
  | start => exact ⟨hg, fun _ hc => absurd hc List.not_mem_nil⟩
  | @move calls r m place _ ih =>
    obtain ⟨hsound, hcalls⟩ := ih
    rw [snd_moveAt]
    cases hd : handedOver? version m place false r.1 with
    | none =>
      rw [callAt?, hd]
      exact ⟨hsound, by simpa using hcalls⟩
    | some d =>
      obtain ⟨hsave, address, ha⟩ := Gateway.save_of_sound hsound (.document d)
      refine ⟨hsave, fun c hc => ?_⟩
      rw [callAt?, hd] at hc
      rcases List.mem_append.1 hc with hc | hc
      · exact hcalls c hc
      · cases List.mem_singleton.1 hc
        rintro ⟨f, hf⟩
        cases ha.symm.trans hf
  | other ho _ _ => exact ho.elim

theorem StoreRefuses.storeFault_ne_none (h : StoreRefuses s payload addresses validator g g') :
    g.storeFault ≠ none := by
  intro hg
  obtain ⟨plan, calls, -, hcreation, c, hc, hfailed⟩ := h
  cases hcreation with
  | beneath hl => exact (hl.not_failed hg).2 c hc hfailed
  | @root before d g' hl =>
    obtain ⟨hsound, hbefore⟩ := hl.not_failed hg
    rcases List.mem_append.1 hc with hc | hc
    · exact hbefore c hc hfailed
    · cases List.mem_singleton.1 hc
      obtain ⟨-, address, ha⟩ := Gateway.save_of_sound hsound (.document d)
      obtain ⟨f, hf⟩ := hfailed
      cases ha.symm.trans hf

/-- A call may not fail after it has written to a store that takes every document. -/
theorem not_failsAtStore (hg : g.storeFault = none)
    (hfails : (createDocument s payload addresses validator (.ofGateway g)).1.toOption = none ∧
      (createDocument s payload addresses validator (.ofGateway g)).2.gateway.store.written
        ≠ g.store.written) : ¬ FailsAtStore s payload addresses validator g := by
  intro h
  cases hr : createDocument s payload addresses validator (.ofGateway g) with
  | mk outcome w =>
    rw [hr] at hfails
    obtain ⟨hnone, hwritten⟩ := hfails
    cases outcome with
    | ok address => cases hnone
    | error fault =>
      rcases h.created fault w hr with hsame | hrefuses
      · exact hwritten (by rw [hsame])
      · exact hrefuses.storeFault_ne_none hg

end

/-- A schema with the empty key beside a node. -/
def emptyKeyStore : Store :=
  ((Store.empty "omg://").putRaw "in" (.object [("kind", .text "schema"), ("name", .text "Inner"),
      ("elements", .object [("data", .object [("kind", .text "string")])])])).putRaw
    "post" (.object [("kind", .text "schema"), ("name", .text "Post"),
      ("elements", .object [("inner", .object [("kind", .text "node"), ("schemas", .texts ["in"])]),
        ("", .object [("kind", .text "string")])])])

theorem not_failsAtStore_emptyKey : ¬ FailsAtStore .default
    (.object [("inner", .object [("data", .text "x")]), ("", .text "y")]) ["post"] none
    (.ofStore emptyKeyStore) :=
  not_failsAtStore rfl (by decide +kernel)

/-- A schema with two nodes whose types have one name, where four digits of an identity end it. -/
def sharedNameStore : Store :=
  (((Store.empty "omg://").putRaw "s46" (.object [("kind", .text "schema"), ("name", .text "X"),
      ("elements", .object [("a", .object [("kind", .text "string")])])])).putRaw
    "s92" (.object [("kind", .text "schema"), ("name", .text "X"),
      ("elements", .object [("b", .object [("kind", .text "string")])])])).putRaw
    "post" (.object [("kind", .text "schema"), ("name", .text "Post"),
      ("elements", .object [("first", .object [("kind", .text "node"), ("schemas", .texts ["s46"])]),
        ("second", .object [("kind", .text "node"), ("schemas", .texts ["s92"])])])])

theorem not_failsAtStore_sharedName :
    ¬ FailsAtStore { Settings.default with hashLength := ⟨4, by decide, by decide⟩ }
      (.object [("first", .object [("a", .text "x")]), ("second", .object [("a", .text "y")])])
      ["post"] none (.ofStore sharedNameStore) :=
  not_failsAtStore rfl (by decide +kernel)

end ContentGraph
