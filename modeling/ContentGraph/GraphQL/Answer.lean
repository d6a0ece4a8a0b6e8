import ContentGraph.Failure

/-!
# Answers

The answer at a place is a value together with the problems at the places in it. A place
with a problem of its own is answered with null, and nothing around it is. What is asked side
by side is also answered side by side, which decides how long an answer takes.
-/

namespace ContentGraph.GraphQL

/-- Why a place has no value. -/
inductive Cause where
  /-- What was to be done failed. -/
  | fault (fault : Fault)
  /-- It cannot be asked for or answered: what is given for it has no value, or its value is
  none that an answer may hold. -/
  | unanswerable

/-- A place without value. -/
structure Problem where
  /-- The way to the place. -/
  path : List Step
  /-- The cause. -/
  cause : Cause

/-- The problem as seen from one step further out. -/
def Problem.under (step : Step) (p : Problem) : Problem := { p with path := step :: p.path }

/-- The answer at a place. -/
structure Answer where
  /-- The value. -/
  value : Json
  /-- The problems at the place and in its value. -/
  problems : List Problem
  /-- How many rounds it takes until the answer is there, where it has to be waited for. -/
  rounds : Option Nat

/-- How many rounds it takes until several answers are there, where any has to be waited for:
those of the only one, or three more than those of the longest. -/
def roundsOfAll (rounds : List (Option Nat)) : Option Nat :=
  match rounds.filterMap id with
  | [] => none
  | [n] => some n
  | ns => some (ns.foldl max 0 + 3)

namespace Answer

/-- A value without problems. -/
def ofValue (v : Json) : Answer := ⟨v, [], none⟩

/-- A place without value. -/
def failed (cause : Cause) : Answer := ⟨.null, [⟨[], cause⟩], none⟩

/-- A place without value, because of a failure. -/
def ofFailure (f : Failure) : Answer := failed (.fault (.failure f))

/-- An object of answers. -/
def ofFields (fields : List (String × Answer)) : Answer :=
  ⟨.object (fields.map fun f => (f.1, f.2.value)),
    fields.flatMap fun f => f.2.problems.map (Problem.under (.member f.1)),
    roundsOfAll (fields.map fun f => f.2.rounds)⟩

/-- A list of answers. -/
def ofItems (items : List Answer) : Answer :=
  ⟨.list (items.map Answer.value),
    items.zipIdx.flatMap fun (a, n) => a.problems.map (Problem.under (.item n)),
    roundsOfAll (items.map Answer.rounds)⟩

/-- An answer that has to be waited for, some rounds more than what it is made of. -/
def after (rounds : Nat) (a : Answer) : Answer :=
  { a with rounds := some (rounds + a.rounds.getD 0) }

@[simp] theorem problems_ofValue (v : Json) : (ofValue v).problems = [] := rfl

@[simp] theorem value_failed (cause : Cause) : (failed cause).value = .null := rfl

@[simp] theorem value_after (rounds : Nat) (a : Answer) : (a.after rounds).value = a.value := rfl

@[simp] theorem problems_after (rounds : Nat) (a : Answer) :
    (a.after rounds).problems = a.problems := rfl

/-- The problems of an answer in the order of their places. -/
def sortedProblems (a : Answer) : List Problem :=
  a.problems.mergeSort fun p q => placeBefore p.path q.path

end Answer

end ContentGraph.GraphQL
