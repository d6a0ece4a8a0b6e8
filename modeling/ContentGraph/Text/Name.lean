import ContentGraph.Text.Quoted

/-!
# Names

The form a name has in queries: a letter or underscore, then letters, digits and
underscores, all of ASCII. `nameProblem?` says what keeps a text from being a name; the
characters after the first are looked at before the first.
-/

namespace ContentGraph

/-- What keeps a text from being a name. -/
inductive NameProblem where
  /-- There is no character. -/
  | empty
  /-- A character after the first is neither letter, digit nor underscore. -/
  | badCharacter
  /-- The first character is neither letter nor underscore. -/
  | badStart
  deriving DecidableEq

/-- Whether a character may begin a name. -/
def isNameStart (c : Char) : Bool := c.isAlpha || c = '_'

/-- Whether a character may follow in a name. -/
def isNameContinue (c : Char) : Bool := c.isAlphanum || c = '_'

/-- What keeps a text from being a name, if anything does. -/
def nameProblem? (s : String) : Option NameProblem :=
  match s.toList with
  | [] => some .empty
  | c :: rest =>
    match rest.all isNameContinue, isNameStart c with
    | false, _ => some .badCharacter
    | true, false => some .badStart
    | true, true => none

/-- The sentence that says what is wrong with a name. -/
def NameProblem.message (name : String) : NameProblem → String
  | .empty => "Expected name to be a non-empty string."
  | .badCharacter => "Names must only contain [_a-zA-Z0-9] but " ++ quoted name ++ " does not."
  | .badStart => "Names must start with [_a-zA-Z] but " ++ quoted name ++ " does not."

theorem nameProblem?_eq_none_iff {s : String} {c : Char} {rest : List Char}
    (h : s.toList = c :: rest) :
    nameProblem? s = none ↔ isNameStart c = true ∧ ∀ d ∈ rest, isNameContinue d = true := by
  rw [← List.all_eq_true]
  simp only [nameProblem?, h]
  generalize rest.all isNameContinue = follows
  cases follows <;> cases isNameStart c <;> simp

end ContentGraph
