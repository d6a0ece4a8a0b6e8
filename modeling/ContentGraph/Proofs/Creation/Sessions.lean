import ContentGraph.Creation
import ContentGraph.Proofs.Document.Carrying
import ContentGraph.Proofs.Document.PayloadCount
import ContentGraph.Proofs.Document.Refusal
import ContentGraph.Proofs.Resolution.Concurrency
import ContentGraph.Proofs.TypeGraph.Asking

/-!
# Creations that share a store

Schemas, aliases and documents are created by calls that may be under way at the same time. A call goes
on in steps of which each fetches from the store once, or stores once, or neither (`Task.Step`): lists
of addresses are resolved one after the other while a type is compiled, the fetches of one list are
answered in any order, the documents below a payload are written in any order that their references
admit, and what is created is stored at the end. A session is the calls that are under way and the
store that they share; in a step of it any one of them takes a step (`Session.Step`).

Beside it stands what each call does alone (`CreationCall.alone`), with the row of resources that it
then stores (`CreationCall.resources`).
-/

namespace ContentGraph

/-! ### Calls -/

/-- A call that creates something. -/
inductive CreationCall where
  /-- A schema, from its description. -/
  | schema (s : Settings) (input : Json)
  /-- An alias, from its description. -/
  | alias (s : Settings) (input : Json)
  /-- A document of a payload, with those below it. -/
  | document (s : Settings) (payload : Json) (addresses : List String) (validator : Option TypeGraph)

/-- The schema that an object describes. -/
def describedSchema (s : Settings) (input : Json) : Except Fault Resource :=
  match model SchemaInput.read input with
  | .refused first more => .error (.invalid (first :: more))
  | .ok i =>
    match i.build s.version with
    | .error f => .error (.failure f)
    | .ok schema => .ok (.schema schema)

/-- The alias that an object describes. -/
def describedAlias (s : Settings) (input : Json) : Except Fault Resource :=
  match model AliasInput.read input with
  | .refused first more => .error (.invalid (first :: more))
  | .ok i => .ok (.alias ⟨s.version, i.name, i.schemas⟩)

/-- The plan of a payload, once the graph that validates it is known. -/
def planOf (payload : Json) (addresses : List String) : Except Failure TypeGraph → Except Fault Plan
  | .error f => .error (.failure f)
  | .ok graph =>
    match graph.validatePayload payload with
    | .error f => .error (.failure f)
    | .ok v => .ok (.ofPayload graph.types graph.rootType addresses v)

namespace CreationCall

/-- What a call gives when it is alone with a store, and what it leaves of the store. -/
def alone (c : CreationCall) (store : Store) : Except Fault String × Store :=
  match c with
  | .schema s input =>
    let (outcome, g) := createSchema s input (.ofStore store)
    (outcome, g.store)
  | .alias s input =>
    let (outcome, g) := createAlias s input (.ofStore store)
    (outcome, g.store)
  | .document s payload addresses validator =>
    let (outcome, w) := createDocument s payload addresses validator (.ofGateway (.ofStore store))
    (outcome, w.gateway.store)

/-- The addresses that a call writes when it is alone with a store. -/
def ownWrites (c : CreationCall) (store : Store) : List String :=
  (c.alone store).2.written.drop store.written.length

/-- The graph that a payload is checked against, when the store is as it is now. -/
def graph? (s : Settings) (addresses : List String) (validator : Option TypeGraph) (store : Store) :
    Except Failure TypeGraph :=
  (validatorFor s addresses validator (.ofGateway (.ofStore store))).1

/-- The resources that a call stores when it is alone with a store, what it gives the address of as the
last. -/
def resources (c : CreationCall) (store : Store) : List Resource :=
  match c with
  | .schema s input => (describedSchema s input).toOption.toList
  | .alias s input => (describedAlias s input).toOption.toList
  | .document s payload addresses validator =>
    match planOf payload addresses (graph? s addresses validator store) with
    | .ok plan => (plan.documents store.lead s.version).map .document
    | .error _ => []

/-- How much there is to store for a call: a schema or an alias, or a document for the payload and for
each payload below it. -/
def count (c : CreationCall) (store : Store) : ℕ :=
  match c with
  | .document s payload addresses validator =>
    match graph? s addresses validator store with
    | .ok graph => Payload.payloadsIn graph.types payload false graph.rootType
    | .error _ => 0
  | _ => 1

end CreationCall

/-! ### Tasks -/

/-- Where a call stands. -/
inductive Task where
  /-- A list of addresses is being resolved, and a plan is made from what it resolves to. -/
  | resolving (version : String) (unfoldings : List Unfolding)
      (next : Table Schema → Asking (Except Fault Plan))
  /-- A plan is carried out. -/
  | writing (version : String) (job : Job)
  /-- All is ready for a resource to be stored. -/
  | storing (r : Resource)
  /-- An address was given. -/
  | returned (address : String)
  /-- It was given up. -/
  | raised (fault : Fault)

namespace Task

/-- A call goes on with making a plan. -/
def ofPlanning (version : String) : Asking (Except Fault Plan) → Task
  | .done (.ok plan) => .writing version (.planned plan)
  | .done (.error fault) => .raised fault
  | .ask addresses next => .resolving version (addresses.map (.pending [])) next

/-- A call goes on with storing a resource, if there is one. -/
def ofDescribed : Except Fault Resource → Task
  | .ok r => .storing r
  | .error fault => .raised fault

/-- What a call has come to, if it has. Jobs that were begun for a document that was given up go on. -/
def outcome? : Task → Option (Except Fault String)
  | .returned address => some (.ok address)
  | .raised fault => some (.error fault)
  | .writing _ (.failed fault _) => some (.error fault)
  | _ => none

/-- A step of a call: what becomes of it and of the store. -/
inductive Step (store : Store) : Task → Task → Store → Prop
  /-- A fetch is answered. -/
  | answer {version : String} {us us' : List Unfolding} {next : Table Schema → Asking (Except Fault Plan)} :
      (Gateway.ofStore store).source.Answered us us' →
      Step store (.resolving version us next) (.resolving version us' next) store
  /-- A list of addresses is resolved. -/
  | resolved {version : String} {us : List Unfolding} {leaves : List (String × Schema)}
      {next : Table Schema → Asking (Except Fault Plan)} : Unfolding.Leaves us leaves →
      Step store (.resolving version us next) (.ofPlanning version (next (firstOfEach leaves))) store
  /-- A list of addresses cannot be resolved. -/
  | unresolved {version : String} {us : List Unfolding} {f : Failure}
      {next : Table Schema → Asking (Except Fault Plan)} : Unfolding.Fails f us →
      Step store (.resolving version us next) (.raised (.failure f)) store
  /-- A job that is ready for it makes a move, by which it may store its document. -/
  | move {version : String} {job sub : Job} {m : Move} {place : List ℕ} : job.at? place = some sub →
      Job.Ready m sub → Step store (.writing version job)
        (.writing version (Job.moveAt version m place false job (.ofStore store)).1)
        (Job.moveAt version m place false job (.ofStore store)).2.store
  /-- The outermost document is built. -/
  | built {version : String} {d : Document} :
      Step store (.writing version (.built d)) (.storing (.document d)) store
  /-- What is created is stored. -/
  | store {r : Resource} : Step store (.storing r) (.returned (store.save r).2) (store.save r).1

end Task

/-- How the plan of a payload is made, with the graph that is given or by compiling one. -/
def planning (s : Settings) (payload : Json) (addresses : List String) (validator : Option TypeGraph)
    (steps : ℕ) : Asking (Except Fault Plan) :=
  match validator with
  | some graph => .done (planOf payload addresses (.ok graph))
  | none => Asking.compiling s.hashLength.digits steps addresses >>= fun graph =>
    .done (planOf payload addresses graph)

/-- A call that begins. What the store holds now bounds how deep types lie in each other. -/
def CreationCall.begun (c : CreationCall) (store : Store) : Task :=
  match c with
  | .schema s input => .ofDescribed (describedSchema s input)
  | .alias s input => .ofDescribed (describedAlias s input)
  | .document s payload addresses validator => .ofPlanning s.version
    (planning s payload addresses validator ((Gateway.ofStore store).source.nodeDefinitions + 2))

/-! ### Sessions -/

/-- Calls that are under way, and the store that they share. -/
structure Session where
  /-- Where the calls stand. -/
  tasks : List Task
  /-- The store. -/
  store : Store

namespace Session

/-- One of the calls takes a step. -/
inductive Step : Session → Session → Prop
  /-- The one at a position. -/
  | task {tasks : List Task} {store store' : Store} {n : ℕ} {task task' : Task} :
      tasks[n]? = some task → Task.Step store task task' store' →
      Step ⟨tasks, store⟩ ⟨tasks.set n task', store'⟩

/-- All calls begin. -/
def begun (calls : List CreationCall) (store : Store) : Session :=
  ⟨calls.map fun c => c.begun store, store⟩

/-- A session that calls come to in some order of their steps. -/
def Reaches (calls : List CreationCall) (store : Store) (session : Session) : Prop :=
  Relation.ReflTransGen Step (begun calls store) session

/-- No call can take a step. -/
def Over (session : Session) : Prop := ∀ next, ¬ session.Step next

end Session

end ContentGraph
