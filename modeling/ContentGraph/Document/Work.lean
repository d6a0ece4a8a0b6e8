import ContentGraph.Document.Job

/-!
# Work

Jobs go on in turns. What is to happen next stands in a queue of signals: the children of a
portion begin in order, each reports when it is done, and their parent goes on when all
reports have been taken from the queue, or when the first failure has. A document that is
written is waited for (`Work.write`); where it fails, jobs that were begun for it are left
behind. What is left goes on together with whatever is written later, and round by round while
something else is waited for (`Work.elapse`).
-/

namespace ContentGraph

/-- What stands in the queue: a move of a job, or the report of one to the job it was begun
for. The place of a job is the position of its outermost job and the way down from there. -/
inductive Signal where
  /-- A move. -/
  | act (outermost : Nat) (place : List Nat) (m : Move)
  /-- The report of the child at a position. -/
  | report (outermost : Nat) (place : List Nat) (child : Nat)
  deriving DecidableEq

/-- Jobs, the store they write to, and what happens next. -/
structure Work where
  /-- The outermost jobs. -/
  jobs : List Job
  /-- The store. -/
  gateway : Gateway
  /-- What happens next, in order. -/
  queue : List Signal

namespace Work

/-- A store, and nothing to do. -/
def ofGateway (g : Gateway) : Work := ⟨[], g, []⟩

/-- The job at a place. -/
def at? (w : Work) (outermost : Nat) (place : List Nat) : Option Job :=
  w.jobs[outermost]?.bind (Job.at? place)

/-- The place of a job's parent and its position there. -/
def parent? (place : List Nat) : Option (List Nat × Nat) :=
  place.getLast?.map fun child => (place.dropLast, child)

/-- What follows from a move of the job at a place: its children begin, or it reports. -/
def consequences (outermost : Nat) (place : List Nat) (job : Job) : List Signal :=
  match job with
  | .waiting _ _ _ children _ =>
    (List.range children.length).map fun n => .act outermost (place ++ [n]) .begin
  | .planned _ => []
  | _ =>
    match parent? place with
    | some (above, child) => [.report outermost above child]
    | none => []

/-- Whether a child of the job at a place has still to be heard of. -/
def expectsReport (queue : List Signal) (outermost : Nat) (place : List Nat) : Bool :=
  queue.any fun s =>
    match s with
    | .report n other _ => n = outermost ∧ other = place
    | _ => false

/-- What follows from a report to the job at a place: the first failure is passed on, and the
last report of all lets the job go on. -/
def onReport (job? : Option Job) (queue : List Signal) (outermost : Nat) (place : List Nat)
    (child : Nat) : List Signal :=
  match job? with
  | some (.waiting _ _ _ children _) =>
    if ((children[child]?).bind Job.fault?).isSome then [.act outermost place (.abandon child)]
    else if children.all (fun c => c.address?.isSome) ∧ !expectsReport queue outermost place then
      [.act outermost place .resume]
    else []
  | _ => []

/-- One signal is taken from the queue. An outermost job builds its document and does not store
it. -/
def step (version : String) (w : Work) : Work :=
  match w.queue with
  | [] => w
  | .act outermost place m :: queue =>
    let before := (w.at? outermost place).map Job.isDone
    let (jobs, gateway) :=
      Job.modifyAt (Job.moveAt version m place false) outermost w.jobs w.gateway
    let w : Work := ⟨jobs, gateway, queue⟩
    let follows := match before, w.at? outermost place with
      | some false, some moved => consequences outermost place moved
      | _, _ => []
    { w with queue := queue ++ follows }
  | .report outermost place child :: queue =>
    { w with queue := queue ++ onReport (w.at? outermost place) queue outermost place child }

/-- A number of signals are taken from the queue. -/
def steps (version : String) : Nat → Work → Work
  | 0, w => w
  | n + 1, w => steps version n (w.step version)

/-- Nothing of jobs is kept where nothing is left to do. -/
def settle (w : Work) : Work := if w.queue.isEmpty then .ofGateway w.gateway else w

theorem gateway_settle (w : Work) : w.settle.gateway = w.gateway := by
  unfold settle
  split <;> rfl

/-! ### Waiting for something else -/

/-- The signals that are in the queue now are taken. -/
def round (version : String) (w : Work) : Work := (w.steps version w.queue.length).settle

/-- What is left to do goes on for a number of rounds, which matters only where something is. -/
def elapse (version : String) (rounds : Unit → Nat) (w : Work) : Work :=
  if w.queue.isEmpty then w else (rounds ()).repeat (round version) w

/-! ### Waiting for a document -/

/-- Signals are taken until an outermost job has an outcome, at most `limit` of them. -/
def runUntil (version : String) (outermost : Nat) : Nat → Work → Work
  | 0, w => w
  | limit + 1, w =>
    if (w.jobs[outermost]?.map Job.isDone).getD true then w
    else runUntil version outermost limit (w.step version)

/-- A plan whose job begins at once, beside those that are left. -/
def add (plan : Plan) (w : Work) : Work :=
  ⟨w.jobs ++ [.planned plan], w.gateway, .act w.jobs.length [] .begin :: w.queue⟩

/-- Carries out a plan; gives the document it is for, which is not stored. Each document begins
once, reports once, and goes on once for each of its portions, so that the sizes of jobs bound
the number of signals. -/
def write (version : String) (plan : Plan) (w : Work) : Except Fault Document × Work :=
  let w := w.add plan
  let outermost := w.jobs.length - 1
  let w := w.runUntil version outermost (4 * Job.sizeOfAll w.jobs + 4)
  (((w.jobs[outermost]?).bind Job.outcome?).getD (.error .wrongShape), w.settle)

/-- Something that is done with the store at once. -/
def withGateway {α : Type} (f : Gateway → α × Gateway) (w : Work) : α × Work :=
  let (a, gateway) := f w.gateway
  (a, { w with gateway })

end Work

end ContentGraph
