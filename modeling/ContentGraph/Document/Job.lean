import ContentGraph.Document.Plan
import ContentGraph.Store

/-!
# Jobs

A plan is carried out by jobs, one for each document. A job builds its portions in order. At
a portion of references it starts a job for each and waits until all are stored, so that a
document is stored after everything it refers to. A job that fails lets its parent fail;
the jobs beside it go on. What a job does next is a move, and moves of different jobs may
come in any order (`Job.moveAt` with any places).
-/

namespace ContentGraph

/-- Where the writing of one document stands. -/
inductive Job where
  /-- Not begun. -/
  | planned (plan : Plan)
  /-- Waiting for the documents that a portion refers to. -/
  | waiting (schemas : List String) (done : List Element) (key : String) (children : List Job)
      (rest : List Portion)
  /-- Built and not to be stored. -/
  | built (document : Document)
  /-- Stored. -/
  | stored (document : Document) (address : String)
  /-- Given up, with the jobs that were begun for it. -/
  | failed (fault : Fault) (children : List Job)

/-- What a job does next. -/
inductive Move where
  /-- It begins. -/
  | begin
  /-- It goes on after all its children. -/
  | resume
  /-- It gives up because of a child. -/
  | abandon (child : Nat)
  deriving DecidableEq

namespace Job

/-- The address of a stored document. -/
def address? : Job → Option String
  | .stored _ address => some address
  | _ => none

/-- The fault of a job that was given up. -/
def fault? : Job → Option Fault
  | .failed fault _ => some fault
  | _ => none

/-- The references to stored documents. -/
def references (key : String) (addresses : List String) : Except Fault (List Element) :=
  addresses.mapM fun address =>
    (Element.readNode [("key", .text key), ("uri", .text address)]).toExcept

/-- Ends a job: the document is stored, where it is to be. -/
def finish (stores : Bool) (d : Document) (g : Gateway) : Job × Gateway :=
  if stores then
    match g.save (.document d) with
    | (.ok address, g) => (.stored d address, g)
    | (.error f, g) => (.failed (.failure f) [], g)
  else (.built d, g)

/-- Builds portions until one has to wait or all are built. -/
def proceed (stores : Bool) (version : String) (schemas : List String) (g : Gateway) :
    List Element → List Portion → Job × Gateway
  | done, [] => finish stores ⟨version, schemas, done⟩ g
  | done, .elements es :: rest => proceed stores version schemas g (done ++ es) rest
  | _, .fault fault :: _ => (.failed fault [], g)
  | done, .children key plans :: rest =>
    if plans.isEmpty then proceed stores version schemas g done rest
    else (.waiting schemas done key (plans.map .planned) rest, g)

/-- A move of a job; one that the job is not ready for changes nothing. -/
def move (stores : Bool) (version : String) (m : Move) (job : Job) (g : Gateway) : Job × Gateway :=
  match m, job with
  | .begin, .planned plan => proceed stores version plan.schemas g [] plan.portions
  | .resume, .waiting schemas done key children rest =>
    match children.mapM address? with
    | none => (job, g)
    | some addresses =>
      match references key addresses with
      | .ok es => proceed stores version schemas g (done ++ es) rest
      | .error fault => (.failed fault children, g)
  | .abandon child, .waiting _ _ _ children _ =>
    match children[child]?.bind fault? with
    | some fault => (.failed fault children, g)
    | none => (job, g)
  | _, _ => (job, g)

/-- The jobs with the one at a position replaced, together with what the replacement gives. -/
def modifyAt {σ : Type} (step : Job → σ → Job × σ) : Nat → List Job → σ → List Job × σ
  | _, [], s => ([], s)
  | 0, job :: rest, s =>
    let (job, s) := step job s
    (job :: rest, s)
  | n + 1, job :: rest, s =>
    let (rest, s) := modifyAt step n rest s
    (job :: rest, s)

/-- A move of the job at a place below a job. All jobs but the outermost store what they
build. -/
def moveAt (version : String) (m : Move) : List Nat → Bool → Job → Gateway → Job × Gateway
  | [], stores, job, g => move stores version m job g
  | n :: place, _, job, g =>
    match job with
    | .waiting schemas done key children rest =>
      let (children, g) := modifyAt (moveAt version m place true) n children g
      (.waiting schemas done key children rest, g)
    | .failed fault children =>
      let (children, g) := modifyAt (moveAt version m place true) n children g
      (.failed fault children, g)
    | _ => (job, g)

/-- The jobs that were begun for a job. -/
def children : Job → List Job
  | .waiting _ _ _ children _ => children
  | .failed _ children => children
  | _ => []

/-- The job at a place below a job. -/
def at? : List Nat → Job → Option Job
  | [], job => some job
  | n :: place, job => job.children[n]?.bind (at? place)

mutual

/-- The number of documents and portions of a job that are not carried out. -/
def size : Job → Nat
  | .planned plan => plan.size
  | .waiting _ _ _ children rest => sizeOfAll children + portionsSize rest + 1
  | .failed _ children => sizeOfAll children
  | _ => 0

/-- The size of several jobs. -/
def sizeOfAll : List Job → Nat
  | [] => 0
  | job :: rest => job.size + 1 + sizeOfAll rest

end

/-- Whether a job has an outcome. -/
def isDone : Job → Bool
  | .planned _ => false
  | .waiting _ _ _ _ _ => false
  | _ => true

/-- The outcome of a job that is done. -/
def outcome? : Job → Option (Except Fault Document)
  | .built d => some (.ok d)
  | .stored d _ => some (.ok d)
  | .failed fault _ => some (.error fault)
  | _ => none

end Job

end ContentGraph
