import ContentGraph.Document.Job
import ContentGraph.Proofs.Store.Contents

/-!
# Documents of plans

A plan without faults stands for one document: a reference in it is the address of the document
that a plan below it stands for, so that nothing depends on the order in which they are stored.
`Plan.realised?` is that document, and `Plan.beneath` are the documents that have to be stored
before it.
-/

namespace ContentGraph

mutual

/-- The document that a plan stands for. -/
def Plan.realised? (lead version : String) : Plan → Option Document
  | .document schemas portions =>
    (portionsElements? lead version portions).map fun es => ⟨version, schemas, es⟩

/-- The elements that a portion stands for. -/
def Portion.elements? (lead version : String) : Portion → Option (List Element)
  | .elements es => some es
  | .children key plans => (plansRealised? lead version plans).bind fun ds =>
    (Job.references key (ds.map fun d => (Resource.document d).address lead)).toOption
  | .fault _ => none

/-- The elements that several portions stand for. -/
def portionsElements? (lead version : String) : List Portion → Option (List Element)
  | [] => some []
  | p :: rest => (p.elements? lead version).bind fun es =>
    (portionsElements? lead version rest).map (es ++ ·)

/-- The documents that several plans stand for. -/
def plansRealised? (lead version : String) : List Plan → Option (List Document)
  | [] => some []
  | p :: rest => (p.realised? lead version).bind fun d =>
    (plansRealised? lead version rest).map (d :: ·)

end

mutual

/-- The documents that are stored before the document of a plan. -/
def Plan.beneath (lead version : String) : Plan → List Document
  | .document _ portions => portionsBeneath lead version portions

/-- The documents that are stored for a portion. -/
def Portion.beneath (lead version : String) : Portion → List Document
  | .children _ plans => plansDocuments lead version plans
  | _ => []

/-- The documents that are stored for several portions. -/
def portionsBeneath (lead version : String) : List Portion → List Document
  | [] => []
  | p :: rest => p.beneath lead version ++ portionsBeneath lead version rest

/-- The documents of several plans, and those below them. -/
def plansDocuments (lead version : String) : List Plan → List Document
  | [] => []
  | p :: rest => (p.beneath lead version ++ (p.realised? lead version).toList)
    ++ plansDocuments lead version rest

end

/-- The documents that are stored for a plan, its own the last. -/
def Plan.documents (lead version : String) (p : Plan) : List Document :=
  p.beneath lead version ++ (p.realised? lead version).toList

variable {lead version : String}

theorem portionsElements?_append {before rest : List Portion} {done es : List Element}
    (hb : portionsElements? lead version before = some done)
    (hr : portionsElements? lead version rest = some es) :
    portionsElements? lead version (before ++ rest) = some (done ++ es) := by
  induction before generalizing done with
  | nil =>
    cases hb
    exact hr
  | cons p before ih =>
    rw [portionsElements?] at hb
    obtain ⟨here, hp, hb⟩ := Option.bind_eq_some_iff.1 hb
    obtain ⟨others, ho, rfl⟩ := Option.map_eq_some_iff.1 hb
    rw [List.cons_append, portionsElements?, hp, Option.bind_some, ih ho, Option.map_some,
      List.append_assoc]

theorem portionsElements?_concat {before : List Portion} {p : Portion} {done es : List Element}
    (hb : portionsElements? lead version before = some done)
    (hp : p.elements? lead version = some es) :
    portionsElements? lead version (before ++ [p]) = some (done ++ es) := by
  refine portionsElements?_append hb ?_
  rw [portionsElements?, hp, Option.bind_some, portionsElements?, Option.map_some, List.append_nil]

/-- What portions in a row stand for is what the first of them and the others stand for. -/
theorem exists_elements_of_append {before rest : List Portion} {es : List Element}
    (h : portionsElements? lead version (before ++ rest) = some es) :
    ∃ done others, portionsElements? lead version before = some done ∧
      portionsElements? lead version rest = some others ∧ es = done ++ others := by
  induction before generalizing es with
  | nil => exact ⟨[], es, rfl, h, rfl⟩
  | cons p before ih =>
    rw [List.cons_append, portionsElements?] at h
    obtain ⟨here, hp, h⟩ := Option.bind_eq_some_iff.1 h
    obtain ⟨later, hl, rfl⟩ := Option.map_eq_some_iff.1 h
    obtain ⟨done, others, hd, ho, rfl⟩ := ih hl
    refine ⟨here ++ done, others, ?_, ho, (List.append_assoc _ _ _).symm⟩
    rw [portionsElements?, hp, Option.bind_some, hd, Option.map_some]

/-- Portions of which each stands for elements stand for elements. -/
theorem exists_portionsElements {portions : List Portion}
    (h : ∀ p ∈ portions, ∃ es, p.elements? lead version = some es) :
    ∃ es, portionsElements? lead version portions = some es := by
  induction portions with
  | nil => exact ⟨[], rfl⟩
  | cons p rest ih =>
    obtain ⟨⟨here, hhere⟩, hrest⟩ := List.forall_mem_cons.1 h
    obtain ⟨others, ho⟩ := ih hrest
    exact ⟨here ++ others, by rw [portionsElements?, hhere, Option.bind_some, ho, Option.map_some]⟩

/-- The documents of the plans of a portion, and the references to them. -/
theorem exists_references_of_elements {key : String} {plans : List Plan} {es : List Element}
    (h : (Portion.children key plans).elements? lead version = some es) :
    ∃ ds, plansRealised? lead version plans = some ds ∧
      Job.references key (ds.map fun d => (Resource.document d).address lead) = .ok es := by
  rw [Portion.elements?] at h
  obtain ⟨ds, hds, h⟩ := Option.bind_eq_some_iff.1 h
  refine ⟨ds, hds, ?_⟩
  cases hr : Job.references key (ds.map fun d => (Resource.document d).address lead) with
  | error fault =>
    rw [hr] at h
    cases h
  | ok es' =>
    rw [hr] at h
    cases h
    rfl

theorem portionsBeneath_append (before rest : List Portion) :
    portionsBeneath lead version (before ++ rest)
      = portionsBeneath lead version before ++ portionsBeneath lead version rest := by
  induction before with
  | nil => rfl
  | cons p before ih => rw [List.cons_append, portionsBeneath, portionsBeneath, ih, List.append_assoc]

theorem mem_portionsBeneath {portions : List Portion} {d : Document} :
    d ∈ portionsBeneath lead version portions ↔ ∃ p ∈ portions, d ∈ p.beneath lead version := by
  induction portions with
  | nil => simp [portionsBeneath]
  | cons p rest ih => simp [portionsBeneath, ih]

theorem mem_plansDocuments {plans : List Plan} {d : Document} :
    d ∈ plansDocuments lead version plans ↔ ∃ p ∈ plans, d ∈ p.documents lead version := by
  induction plans with
  | nil => simp [plansDocuments]
  | cons p rest ih => simp [plansDocuments, ih, Plan.documents, or_assoc]

theorem Plan.beneath_eq (p : Plan) : p.beneath lead version = portionsBeneath lead version p.portions := by
  cases p
  rfl

theorem Plan.mem_documents_of_realised? {p : Plan} {d : Document}
    (h : p.realised? lead version = some d) : d ∈ p.documents lead version := by
  rw [documents, h]
  exact List.mem_append_right _ List.mem_cons_self

/-- The documents of a plan that a portion refers to are among those below. -/
theorem Plan.mem_beneath_of_child {p child : Plan} {key : String} {plans : List Plan} {d : Document}
    (hp : .children key plans ∈ p.portions) (hc : child ∈ plans)
    (hd : d ∈ child.documents lead version) : d ∈ p.beneath lead version := by
  rw [beneath_eq]
  exact mem_portionsBeneath.2 ⟨_, hp, mem_plansDocuments.2 ⟨child, hc, hd⟩⟩

end ContentGraph
