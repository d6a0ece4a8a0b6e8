import ContentGraph.Proofs.Document.Refusal

/-!
# Faults that are foreseen

A fault tells what is wrong, or it is an accident: a value has not the key or the form by which it is
read. No portion of the plan of an accepted payload is an accident where no two types have one name
(`TypeGraph.foreseen_ofPayload`), and no move of a job makes one of anything else
(`Job.MovedAt.foreseen`). So whatever a job is given up with in any history is foreseen
(`Job.Leads.foreseen`), and so is whatever a call fails with (`foreseen_materialize`,
`foreseen_createDocument`).
-/

namespace ContentGraph

/-- A fault tells what is wrong: it is a failure, or the issues of a value that a model refuses. -/
def Fault.Foreseen : Fault → Prop
  | .failure _ | .invalid _ => True
  | .absentKey _ | .wrongShape => False

instance : DecidablePred Fault.Foreseen
  | .failure _ | .invalid _ => isTrue trivial
  | .absentKey _ | .wrongShape => isFalse id

/-- Where a portion cannot be built, the fault is foreseen. -/
def Portion.Foreseen : Portion → Prop
  | .fault f => f.Foreseen
  | _ => True

theorem Checked.foreseen_toExcept {α : Type} {x : Checked α} {fault : Fault}
    (h : x.toExcept = .error fault) : fault.Foreseen := by
  cases x with
  | ok a => cases h
  | refused first more =>
    cases h
    trivial

/-! ### Plans -/

namespace Payload

variable {types : Catalogue} {key : String}

theorem PortionOf.foreseen {f : Field} {v : Json} {p : Portion} (hp : PortionOf types key f v p)
    (hv : NormalField types f v) (hf : f.Targeted types) : p.Foreseen := by
  cases hp with
  | elements _ _ => trivial
  | children _ _ => trivial
  | unbuilt hs hfault =>
    -- one of the values gives no element, and an element refuses only its key
    have hitems := hv.items
    rw [hs] at hitems
    obtain ⟨w, hw, hw'⟩ := exists_of_mapM_eq_error hfault
    obtain ⟨content, hc⟩ := (normalItems_iff.1 hitems w hw).exists_content key
    exact Checked.foreseen_toExcept (hc.symm.trans hw')
  | untargeted hs hnone =>
    obtain ⟨t, ht⟩ := hf _ (by rw [Field.target?, hs])
    cases ht.symm.trans hnone

end Payload

/-- No portion of the plan of an accepted payload is an accident, where no two types have one name. -/
theorem TypeGraph.foreseen_ofPayload {g : TypeGraph} (hc : g.types.Closed) (hnames : g.DistinctNames)
    {payload v : Json} (hv : g.validatePayload payload = .ok v) (addresses : List String) :
    (Plan.ofPayload g.types g.rootType addresses v).All Portion.Foreseen :=
  all_ofPayload hc hnames (fun _ _ _ _ _ _ _ _ htargeted hfield hp => hp.foreseen hfield htargeted)
    hv addresses

/-! ### Jobs -/

namespace Job

/-- Whatever a job is given up with, now or later, is foreseen. -/
inductive Foreseen : Job → Prop
  /-- Its portions are. -/
  | planned {plan : Plan} : plan.All Portion.Foreseen → Foreseen (.planned plan)
  /-- Its children are, and the portions that are left. -/
  | waiting {schemas : List String} {done : List Element} {key : String} {children : List Job}
      {rest : List Portion} : (∀ child ∈ children, Foreseen child) →
      (Plan.document schemas rest).All Portion.Foreseen →
      Foreseen (.waiting schemas done key children rest)
  /-- It is built. -/
  | built {d : Document} : Foreseen (.built d)
  /-- It is stored. -/
  | stored {d : Document} {address : String} : Foreseen (.stored d address)
  /-- It was given up with something foreseen, and its children will be. -/
  | failed {fault : Fault} {children : List Job} : fault.Foreseen →
      (∀ child ∈ children, Foreseen child) → Foreseen (.failed fault children)

theorem Foreseen.fault {job : Job} {fault : Fault} (h : job.Foreseen) (hf : job.fault? = some fault) :
    fault.Foreseen := by
  cases h with
  | failed hfault _ =>
    cases hf
    exact hfault
  | _ => cases hf

theorem Foreseen.children {job : Job} (h : job.Foreseen) : ∀ child ∈ job.children, child.Foreseen := by
  cases h with
  | waiting hc _ => exact hc
  | failed _ hc => exact hc
  | _ => exact fun _ hm => absurd hm List.not_mem_nil

theorem Foreseen.withChild {job child : Job} (h : job.Foreseen) (n : ℕ) (hc : child.Foreseen) :
    (job.withChild n child).Foreseen := by
  have hset : ∀ children : List Job, (∀ other ∈ children, other.Foreseen) →
      ∀ other ∈ children.set n child, other.Foreseen := by
    intro children hchildren other ho
    rcases List.mem_or_eq_of_mem_set ho with ho | rfl
    · exact hchildren other ho
    · exact hc
  cases h with
  | planned hp => exact .planned hp
  | waiting hchildren hrest => exact .waiting (hset _ hchildren) hrest
  | built => exact .built
  | stored => exact .stored
  | failed hfault hchildren => exact .failed hfault (hset _ hchildren)

variable {version : String} {g : Gateway} {stores : Bool}

/-- Ending a job fails with what the store says. -/
theorem Finished.foreseen {d : Document} {r : Job × Gateway} (h : Finished d g stores r) :
    r.1.Foreseen := by
  cases h with
  | built => exact .built
  | stored _ => exact .stored
  | refused _ => exact .failed trivial fun _ hm => absurd hm List.not_mem_nil

theorem foreseen_references {key : String} {addresses : List String} {fault : Fault}
    (h : references key addresses = .error fault) : fault.Foreseen := by
  obtain ⟨address, -, ha⟩ := exists_of_mapM_eq_error h
  exact Checked.foreseen_toExcept ha

theorem Proceeded.foreseen {schemas : List String} {done : List Element} {portions : List Portion}
    {d : Option Document} {r : Job × Gateway}
    (h : Proceeded version stores schemas g done portions d r)
    (hp : (Plan.document schemas portions).All Portion.Foreseen) : r.1.Foreseen := by
  cases h with
  | finished _ => exact (finished_finish _ _ _).foreseen
  | stuck hf => exact .failed (hp.portions _ hf) fun _ hm => absurd hm List.not_mem_nil
  | @waits before after key plans es hportions _ _ =>
    subst hportions
    have hmem : .children key plans ∈ (Plan.document schemas
        (before ++ .children key plans :: after)).portions :=
      List.mem_append_right _ List.mem_cons_self
    refine .waiting (fun child hc => ?_)
      (hp.of_append (before ++ [.children key plans]) (List.append_cons _ _ _))
    obtain ⟨plan, hplan, rfl⟩ := List.mem_map.1 hc
    exact .planned (hp.child hmem hplan)

theorem Moved.foreseen {m : Move} {job : Job} {d : Option Document} {r : Job × Gateway}
    (h : Moved version stores g m job d r) (hj : job.Foreseen) : r.1.Foreseen := by
  cases h with
  | idle _ => exact hj
  | begun hproceeded =>
    cases hj with
    | planned hp => exact hproceeded.foreseen hp
  | resumed _ _ hproceeded =>
    cases hj with
    | waiting _ hrest => exact hproceeded.foreseen hrest
  | unreferenced _ hr =>
    cases hj with
    | waiting hchildren _ => exact .failed (foreseen_references hr) hchildren
  | abandoned hc hf =>
    cases hj with
    | waiting hchildren _ => exact .failed ((hchildren _ (List.mem_of_getElem? hc)).fault hf) hchildren

/-- **A move of a job keeps that its faults are foreseen.** -/
theorem MovedAt.foreseen {m : Move} {place : List ℕ} {job : Job} {d : Option Document}
    {r : Job × Gateway} (h : MovedAt version g m place stores job d r) (hj : job.Foreseen) :
    r.1.Foreseen := by
  induction h with
  | here hm => exact hm.foreseen hj
  | deeper hc _ ih => exact hj.withChild _ (ih (hj.children _ (List.mem_of_getElem? hc)))
  | nowhere _ => exact hj

/-- **In every history of a job, whatever it is given up with is foreseen** where its plan has no
portion that is an accident. -/
theorem Leads.foreseen {others : Gateway → Gateway → Prop} {start r : Job × Gateway}
    {calls : List StoreCall} (h : Leads version others start calls r) (hs : start.1.Foreseen) :
    r.1.Foreseen := by
  induction h with
  | start => exact hs
  | @move calls r m place _ ih => exact (movedAt_moveAt version r.2 m place false r.1).foreseen ih
  | other _ _ ih => exact ih

end Job

/-! ### Calls -/

section

variable {s : Settings} {payload : Json} {addresses : List String} {validator : Option TypeGraph}
  {g : Gateway}

/-- The plan of an accepted payload has no portion that is an accident. -/
def PlansForeseen (s : Settings) (payload : Json) (addresses : List String)
    (validator : Option TypeGraph) (g : Gateway) : Prop :=
  ∀ plan, PlannedFor s payload addresses validator g plan → plan.All Portion.Foreseen

/-- Whatever `materialize` fails with is foreseen. -/
theorem foreseen_materialize (hp : PlansForeseen s payload addresses validator g) {fault : Fault}
    (h : (materialize s payload addresses validator (.ofGateway g)).1 = .error fault) :
    fault.Foreseen := by
  rcases materialize_cases s payload addresses validator g with ⟨f, hm⟩ | ⟨plan, hplan, hm⟩
  · rw [hm] at h
    cases h
    trivial
  · obtain ⟨calls, job, hl, ho⟩ := Work.write_ofGateway s.version plan g
    rw [← hm, h] at ho
    have hfault : job.fault? = some fault := by
      cases job with
      | failed =>
        cases ho
        rfl
      | _ => cases ho
    exact (hl.foreseen (.planned (hp plan hplan))).fault hfault

/-- Whatever `createDocument` fails with is foreseen: storing the document last gives a failure. -/
theorem foreseen_createDocument (hp : PlansForeseen s payload addresses validator g) {fault : Fault}
    (h : (createDocument s payload addresses validator (.ofGateway g)).1 = .error fault) :
    fault.Foreseen := by
  unfold createDocument at h
  split at h
  · next fault' w hm =>
    cases h
    exact foreseen_materialize hp (congrArg Prod.fst hm)
  · next d w hm =>
    have hsave : Except.ofFailure (w.gateway.save (.document d)).1 = .error fault := h
    cases hs : (w.gateway.save (.document d)).1 with
    | ok address =>
      rw [hs] at hsave
      cases hsave
    | error f =>
      rw [hs] at hsave
      cases hsave
      trivial

end

end ContentGraph
