import ContentGraph.Proofs.Document.Grounding
import ContentGraph.Proofs.Document.RoundTrip

/-!
# The order of store calls

However the jobs of a payload take turns, whatever others do to the store, and from whatever call on
the store fails: a document is handed to the store only after everything beneath it was stored, and
refers to nothing but the addresses that were given for that. Where the store did not take a
document, no document above it is handed over (`Job.FailedAt`). The document of the payload itself
is the last, and is handed over by `createDocument` alone (`storeCalls_inOrder`).
-/

namespace ContentGraph

namespace Job

/-! ### Jobs that were given up -/

/-- The job at a place below a job was given up. -/
def FailedAt (place : List ℕ) (job : Job) : Prop :=
  ∃ below fault, job.at? place = some below ∧ below.fault? = some fault

variable {version : String} {g : Gateway}

theorem failedAt_cons {n : ℕ} {place : List ℕ} {job : Job} :
    job.FailedAt (n :: place) ↔ ∃ child, job.children[n]? = some child ∧ child.FailedAt place := by
  constructor
  · rintro ⟨below, fault, hb, hf⟩
    obtain ⟨child, hc, hb⟩ := Option.bind_eq_some_iff.1 hb
    exact ⟨child, hc, below, fault, hb, hf⟩
  · rintro ⟨child, hc, below, fault, hb, hf⟩
    exact ⟨below, fault, Option.bind_eq_some_iff.2 ⟨child, hc, hb⟩, hf⟩

/-- Above a job that was given up, nothing is built. -/
theorem FailedAt.outcome? {place : List ℕ} {job : Job} (h : job.FailedAt place) (d : Document) :
    job.outcome? ≠ some (.ok d) := by
  cases place with
  | nil =>
    obtain ⟨below, fault, hb, hf⟩ := h
    cases hb
    cases job with
    | failed => exact fun h => by cases h
    | _ => cases hf
  | cons n place =>
    obtain ⟨child, hc, -⟩ := failedAt_cons.1 h
    cases job with
    | waiting => exact fun h => by cases h
    | failed => exact fun h => by cases h
    | _ => cases hc

theorem address?_eq_none_of_outcome? {job : Job} (h : ∀ d, job.outcome? ≠ some (.ok d)) :
    job.address? = none := by
  cases job with
  | stored d address => exact absurd rfl (h d)
  | _ => rfl

/-- Only a job that waits or was given up can have one below it that was given up. -/
theorem FailedAt.cases {place : List ℕ} {job : Job} (h : job.FailedAt place) :
    (∃ fault children, job = .failed fault children) ∨
      ∃ schemas done key children rest n below, job = .waiting schemas done key children rest ∧
        place = n :: below ∧ children.mapM address? = none := by
  cases place with
  | nil =>
    obtain ⟨_, fault, hb, hf⟩ := h
    cases hb
    cases job with
    | failed fault children => exact .inl ⟨fault, children, rfl⟩
    | _ => cases hf
  | cons n below =>
    obtain ⟨child, hc, hbelow⟩ := failedAt_cons.1 h
    cases job with
    | failed fault children => exact .inl ⟨fault, children, rfl⟩
    | waiting schemas done key children rest =>
      refine .inr ⟨schemas, done, key, children, rest, n, below, rfl, rfl, ?_⟩
      cases ha : children.mapM address? with
      | none => rfl
      | some addresses =>
        have hs := isSome_of_addresses ha child (List.mem_of_getElem? hc)
        rw [address?_eq_none_of_outcome? hbelow.outcome?] at hs
        cases hs
    | _ => cases hc

/-- A job keeps what was given up, and hands nothing over above it: one that waits for a job that was
given up cannot go on. -/
theorem Moved.failedAt {m : Move} {stores : Bool} {job : Job} {d : Option Document}
    {r : Job × Gateway} (h : Moved version stores g m job d r) {p : List ℕ} (hp : job.FailedAt p) :
    r.1.FailedAt p ∧ d = none := by
  rcases hp.cases with ⟨fault, children, rfl⟩ | ⟨schemas, done, key, children, rest, n, below, rfl, rfl, hnone⟩
  · cases h with
    | idle _ => exact ⟨hp, rfl⟩
  · cases h with
    | idle _ => exact ⟨hp, rfl⟩
    | resumed ha _ _ => cases hnone.symm.trans ha
    | unreferenced ha _ => cases hnone.symm.trans ha
    | abandoned _ _ => exact ⟨failedAt_cons.2 (failedAt_cons.1 hp), rfl⟩

/-- **A job that was given up stays so, and no job above it hands a document over.** -/
theorem MovedAt.failedAt {m : Move} {place : List ℕ} {stores : Bool} {job : Job} {d : Option Document}
    {r : Job × Gateway} (h : MovedAt version g m place stores job d r) : ∀ {p : List ℕ},
    job.FailedAt p → r.1.FailedAt p ∧ (place <+: p → d = none) := by
  induction h with
  | @here stores job d r hm =>
    intro p hp
    obtain ⟨hr, rfl⟩ := hm.failedAt hp
    exact ⟨hr, fun _ => by cases stores <;> rfl⟩
  | @deeper n place stores job child d r hc hm ih =>
    intro p hp
    cases p with
    | nil =>
      obtain ⟨_, fault, hb, hf⟩ := hp
      cases hb
      refine ⟨⟨_, fault, rfl, by simpa using hf⟩, fun hprefix => ?_⟩
      cases List.prefix_nil.1 hprefix
    | cons k q =>
      obtain ⟨other, ho, hq⟩ := failedAt_cons.1 hp
      by_cases hk : n = k
      · subst hk
        cases hc.symm.trans ho
        obtain ⟨hr, hd⟩ := ih hq
        have hlt : n < job.children.length := (List.getElem?_eq_some_iff.1 hc).1
        refine ⟨failedAt_cons.2 ⟨r.1, by simp [hlt], hr⟩, fun hprefix => ?_⟩
        exact hd (List.cons_prefix_cons.1 hprefix).2
      · refine ⟨failedAt_cons.2 ⟨other, by simp [hk, ho], hq⟩, fun hprefix => ?_⟩
        exact absurd (List.cons_prefix_cons.1 hprefix).1 hk
  | nowhere _ =>
    intro p hp
    exact ⟨hp, fun _ => rfl⟩

theorem Finished.failedAt {d : Document} {r : Job × Gateway} (h : Finished d g true r) {f : Failure}
    (hf : (g.save (.document d)).1 = .error f) : r.1.FailedAt [] := by
  cases h with
  | stored hs => cases hs.symm.trans hf
  | @refused f' _ => exact ⟨_, .failure f', rfl, rfl⟩

/-- A job whose document the store did not take is given up. -/
theorem MovedAt.failedAt_of_refused {m : Move} {place : List ℕ} {stores : Bool} {job : Job}
    {d : Option Document} {r : Job × Gateway} (h : MovedAt version g m place stores job d r)
    {document : Document} {f : Failure} (hd : d = some document)
    (hf : (g.save (.document document)).1 = .error f) : r.1.FailedAt place := by
  induction h with
  | @here stores job d r hm =>
    cases stores with
    | false => cases hd
    | true =>
      rw [if_pos rfl] at hd
      subst hd
      have hproceeded : ∀ {schemas done portions},
          Proceeded version true schemas g done portions (some document) r → r.1.FailedAt [] := by
        intro schemas done portions hp
        cases hp with
        | finished _ => exact (finished_finish true _ g).failedAt hf
      cases hm with
      | begun hp => exact hproceeded hp
      | resumed _ _ hp => exact hproceeded hp
  | @deeper n place stores job child d r hc _ ih =>
    have hlt : n < job.children.length := (List.getElem?_eq_some_iff.1 hc).1
    exact failedAt_cons.2 ⟨r.1, by simp [hlt], ih hd⟩
  | nowhere _ => cases hd

/-- What follows after a job was given up: it stays so, and no job above it hands a document
over. -/
theorem Leads.failedAt {others : Gateway → Gateway → Prop} {start r : Job × Gateway}
    {after : List StoreCall} {place : List ℕ} (h : Leads version others start after r)
    (hp : start.1.FailedAt place) :
    r.1.FailedAt place ∧ ∀ later ∈ after, ¬ later.place <+: place := by
  induction h with
  | start => exact ⟨hp, fun _ hl => absurd hl List.not_mem_nil⟩
  | @move calls r m at_ _ ih =>
    obtain ⟨hr, hcalls⟩ := ih
    obtain ⟨hr', hd⟩ := (movedAt_moveAt version r.2 m at_ false r.1).failedAt hr
    refine ⟨hr', fun later hl => ?_⟩
    rcases List.mem_append.1 hl with hl | hl
    · exact hcalls later hl
    · obtain ⟨document, hdoc, rfl⟩ := Option.map_eq_some_iff.1 (Option.mem_toList.1 hl)
      intro hprefix
      cases hdoc.symm.trans (hd hprefix)
  | other _ _ ih => exact ih

/-- The outermost job does not store what it builds. -/
theorem Leads.address?_eq_none {others : Gateway → Gateway → Prop} {start r : Job × Gateway}
    {calls : List StoreCall} (h : Leads version others start calls r)
    (hs : start.1.address? = none) : r.1.address? = none := by
  induction h with
  | start => exact hs
  | @move calls r m place _ ih =>
    obtain ⟨job, g⟩ := r
    have hm := movedAt_moveAt version g m place false job
    dsimp only at ih ⊢
    generalize handedOver? version m place false job = d at hm
    generalize moveAt version m place false job g = moved at hm ⊢
    have hproceed : ∀ {schemas done portions d moved},
        Proceeded version false schemas g done portions d moved → moved.1.address? = none := by
      intro schemas done portions d moved hp
      cases hp <;> rfl
    cases hm with
    | here hm =>
      cases hm with
      | idle _ => exact ih
      | begun hp => exact hproceed hp
      | resumed _ _ hp => exact hproceed hp
      | unreferenced _ _ => rfl
      | abandoned _ _ => rfl
    | deeper _ _ =>
      rw [address?_withChild]
      exact ih
    | nowhere _ => exact ih
  | other _ _ ih => exact ih

/-- An outermost job that gives a document has built it and has not stored it. -/
theorem Leads.eq_built {others : Gateway → Gateway → Prop} {plan : Plan} {g g' : Gateway}
    {calls : List StoreCall} {job : Job} {d : Document}
    (h : Leads version others (.planned plan, g) calls (job, g'))
    (ho : job.outcome? = some (.ok d)) : job = .built d := by
  have ha := h.address?_eq_none rfl
  cases job with
  | built =>
    cases ho
    rfl
  | stored => cases ha
  | _ => cases ho

end Job

/-! ### Calls in order -/

/-- What holds of a call in a history of writing a plan, with the calls before and after it. -/
structure StoreCall.InOrder (version : String) (plan : Plan) (before : List StoreCall) (c : StoreCall)
    (after : List StoreCall) : Prop where
  /-- The document refers to nothing but addresses that the store gave before. -/
  references : ∀ e ∈ c.document.elements, ∀ uri, e.content = .node uri →
    ∃ earlier ∈ before, earlier.answer = .ok uri
  /-- It is the document of the plan or of one below, and everything beneath it was stored before. -/
  beneath : ∃ sub : Plan, (c.place = [] ∧ sub = plan ∨ c.place ≠ [] ∧ sub.Below plan) ∧
    sub.Grounded version before c.document ∧
    ∀ low : Plan, low.Below sub → ∃ d address, low.Grounded version before d ∧ Stored before d address
  /-- The document of the plan is the last. -/
  last : c.place = [] → after = []
  /-- Where the store did not take it, no document above it is handed over. -/
  abandoned : c.Failed → ∀ later ∈ after, ¬ later.place <+: c.place

section

variable {version : String} {others : Gateway → Gateway → Prop} {plan : Plan} {g : Gateway}
  {calls before after : List StoreCall} {c : StoreCall}

theorem StoreCall.InOrder.of_grounded {sub : Plan} (hp : plan.All Portion.Plain)
    (hs : c.place = [] ∧ sub = plan ∨ c.place ≠ [] ∧ sub.Below plan)
    (hg : sub.Grounded version before c.document) (hl : c.place = [] → after = [])
    (ha : c.Failed → ∀ later ∈ after, ¬ later.place <+: c.place) :
    c.InOrder version plan before after := by
  have hsub : sub.All Portion.Plain := by
    rcases hs with ⟨-, rfl⟩ | ⟨-, hs⟩
    · exact hp
    · exact hp.of_below hs
  refine ⟨fun e he uri hu => ?_, ⟨sub, hs, hg, fun low hlow => hg.of_below hlow⟩, hl, ha⟩
  obtain ⟨_, earlier, hm, -, hanswer⟩ := hg.references hsub e he uri hu
  exact ⟨earlier, hm, hanswer⟩

/-- The calls that jobs make are in order, and those that failed leave a job that was given up. -/
theorem Job.Leads.inOrder {r : Job × Gateway} (hp : plan.All Portion.Plain)
    (h : Leads version others (.planned plan, g) calls r) (hc : calls = before ++ c :: after) :
    c.place ≠ [] ∧ c.InOrder version plan before after ∧ (c.Failed → r.1.FailedAt c.place) := by
  obtain ⟨m, place, moved, hr, hcall, hafter⟩ := h.split hc
  have hplace := place_ne_nil_of_callAt? hcall
  obtain ⟨d, hd, rfl⟩ := Option.map_eq_some_iff.1 hcall
  have hmove := movedAt_moveAt version moved.2 m place false moved.1
  obtain ⟨sub, hg, hs⟩ := (hmove.tracks hr.tracks (adds_callAt? before m place moved.1 moved.2)).1 d hd
  have hlater : (StoreCall.made place d moved.2).Failed →
      r.1.FailedAt place ∧ ∀ later ∈ after, ¬ later.place <+: place :=
    fun ⟨f, hf⟩ => hafter.failedAt (hmove.failedAt_of_refused hd hf)
  exact ⟨hplace, .of_grounded hp hs hg (fun he => absurd he hplace) fun hf => (hlater hf).2,
    fun hf => (hlater hf).1⟩

theorem Creation.inOrder {g' : Gateway} (hp : plan.All Portion.Plain)
    (h : Creation version others plan g calls g') (hc : calls = before ++ c :: after) :
    c.InOrder version plan before after := by
  cases h with
  | beneath h => exact (h.inOrder hp hc).2.1
  | @root _ d g' h =>
    rcases List.eq_nil_or_concat after with rfl | ⟨after', final, rfl⟩
    · -- the call is the one of the document of the plan
      obtain ⟨rfl, he⟩ := List.append_inj' hc rfl
      cases he
      exact .of_grounded hp (.inl ⟨rfl, rfl⟩) h.tracks.grounded (fun _ => rfl)
        fun _ _ hl => absurd hl List.not_mem_nil
    · rw [List.concat_eq_append] at hc ⊢
      rw [← List.cons_append, ← List.append_assoc] at hc
      obtain ⟨hcalls, he⟩ := List.append_inj' hc rfl
      cases he
      obtain ⟨hplace, hin, hfailed⟩ := h.inOrder hp hcalls
      refine ⟨hin.references, hin.beneath, fun he => absurd he hplace, fun hf => ?_⟩
      exact absurd rfl ((hfailed hf).outcome? d)

end

/-- A gateway after others may have written a document. -/
def Gateway.Later (g g' : Gateway) : Prop := ∃ d, g' = g.after d

theorem validatorFor_none (s : Settings) (addresses : List String) (g : Gateway) :
    validatorFor s addresses none (.ofGateway g)
      = (g.source.compile s.hashLength.digits addresses, .ofGateway g) := rfl

/-- What holds of writing the plan of a payload from a store on. -/
structure WritesInOrder (s : Settings) (payload : Json) (addresses : List String)
    (validator : Option TypeGraph) (w : Work) (plan : Plan) (g : Gateway) : Prop where
  /-- In every history the calls are in order, whatever moves are made and whatever happens to the
  store beside them. -/
  inOrder : ∀ others start calls last, Creation s.version others plan start calls last →
    ∀ before c after, calls = before ++ c :: after → c.InOrder s.version plan before after
  /-- Jobs alone do not hand over the document of the payload. -/
  beneath : ∀ others start calls r, Job.Leads s.version others (.planned plan, start) calls r →
    ∀ c ∈ calls, c.place ≠ []
  /-- `materialize` is such a history, and gives what its job comes to. -/
  materialized : ∃ calls job, Job.Leads s.version Gateway.Later (.planned plan, g) calls
      (job, (materialize s payload addresses validator w).2.gateway) ∧
    (materialize s payload addresses validator w).1 = job.outcome?.getD (.error .wrongShape)
  /-- `createDocument` is one, and the address it gives is the answer to its last call. -/
  created : ∃ calls, Creation s.version Gateway.Later plan g calls
      (createDocument s payload addresses validator w).2.gateway ∧
    ∀ address, (createDocument s payload addresses validator w).1 = .ok address →
      ∃ before d, calls = before ++ [⟨[], d, .ok address⟩]

/-- **No dangling references at any moment.** While an accepted payload is written, documents are
handed to the store in order: after everything beneath them, with references to nothing but the
addresses that were given for that, and not above one that the store did not take. -/
theorem storeCalls_inOrder {s : Settings} {payload : Json} {addresses : List String}
    {validator : Option TypeGraph} {w w' : Work} {graph : TypeGraph} {v : Json}
    (hg : validatorFor s addresses validator w = (.ok graph, w'))
    (hv : graph.validatePayload payload = .ok v) :
    WritesInOrder s payload addresses validator w
      (.ofPayload graph.types graph.rootType addresses v) w'.gateway := by
  generalize hplan : Plan.ofPayload graph.types graph.rootType addresses v = plan
  have hp : plan.All Portion.Plain := hplan ▸ Plan.plain_ofPayload _ _ _ _
  have hmat : materialize s payload addresses validator w = w'.write s.version plan := by
    unfold materialize
    rw [hg]
    dsimp only
    rw [hv, ← hplan]
  have hbeside : (w'.add plan).Beside Gateway.Later w'.jobs.length := fun _ _ _ g d => ⟨d, rfl⟩
  obtain ⟨calls, job, hl, ho⟩ := Work.write_leads s.version plan hbeside
  refine ⟨fun others start calls last h before c after hc => h.inOrder hp hc,
    fun others start calls r h c hc => ?_, ⟨calls, job, hmat ▸ hl, hmat ▸ ho⟩, ?_⟩
  · obtain ⟨before, after, hc⟩ := List.append_of_mem hc
    exact (h.inOrder hp hc).1
  · unfold createDocument
    rw [hmat]
    generalize w'.write s.version plan = written at hl ho
    obtain ⟨outcome, w''⟩ := written
    cases outcome with
    | error fault => exact ⟨calls, .beneath hl, fun _ h => by cases h⟩
    | ok d =>
      have hout : job.outcome? = some (.ok d) := by
        dsimp only at ho
        cases hj : job.outcome? with
        | none =>
          rw [hj] at ho
          cases ho
        | some outcome =>
          rw [hj] at ho
          exact congrArg some ho.symm
      cases hl.eq_built hout
      refine ⟨_, .root hl, fun address h => ⟨calls, d, ?_⟩⟩
      have hanswer : (w''.gateway.save (.document d)).1 = .ok address := by
        have hsave : Except.ofFailure (w''.gateway.save (.document d)).1 = .ok address := h
        cases hs : (w''.gateway.save (.document d)).1 with
        | error f =>
          rw [hs] at hsave
          cases hsave
        | ok a =>
          rw [hs] at hsave
          cases hsave
          rfl
      rw [StoreCall.made, hanswer]

theorem storeCalls_inOrder_peers : ∃ graph v,
    validatorFor .default ["p"] none (.ofGateway (.ofStore peerStore))
      = (.ok graph, .ofGateway (.ofStore peerStore)) ∧
    graph.validatePayload peerPayload = .ok v ∧
    WritesInOrder .default peerPayload ["p"] none (.ofGateway (.ofStore peerStore))
      (.ofPayload graph.types graph.rootType ["p"] v) (.ofStore peerStore) := by
  have hrun : ((Gateway.ofStore peerStore).source.compile Settings.default.hashLength.digits
      ["p"]).toOption.any (fun graph =>
        (graph.validatePayload peerPayload).toOption.any fun _ => true) = true := by
    decide +kernel
  obtain ⟨graph, hg, hrun⟩ := exists_ok_of_any hrun
  obtain ⟨v, hv, -⟩ := exists_ok_of_any hrun
  have hvalidator : validatorFor .default ["p"] none (.ofGateway (.ofStore peerStore))
      = (.ok graph, .ofGateway (.ofStore peerStore)) := by
    rw [validatorFor_none, hg]
  exact ⟨graph, v, hvalidator, hv, storeCalls_inOrder hvalidator hv⟩

end ContentGraph
