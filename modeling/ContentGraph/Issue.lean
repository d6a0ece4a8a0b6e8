import ContentGraph.Json.Path

/-!
# Issues

Reading a wire object collects every issue instead of stopping at the first. An issue says
what is wrong, where, and with which value. `Checked` is the result of such a reading; its
`seq` keeps the issues of both sides in order, so that the issues of a model stand in the
order of its fields.
-/

namespace ContentGraph

/-- What is wrong with a value. -/
inductive IssueKind where
  /-- An object without the member that chooses its kind. -/
  | tagNotFound
  /-- An object whose kind is not one of the choices. -/
  | tagInvalid
  /-- Not an object where a kind is chosen. -/
  | notTagged
  /-- Not an object where one shape is asked. -/
  | notModel
  /-- A fixed text is asked. -/
  | notLiteral
  /-- A required member is absent. -/
  | missing
  /-- A member that the shape does not have. -/
  | extra
  /-- Not a text. -/
  | notText
  /-- An empty text where a character is asked. -/
  | textTooShort
  /-- Not a list. -/
  | notList
  /-- Not an object of named values. -/
  | notMap
  /-- An empty list where an item is asked. -/
  | listTooShort
  /-- Not a number. -/
  | notNumber
  /-- A text that is no number. -/
  | numberText
  /-- Not a truth value. -/
  | notBool
  /-- An integer or text that is no truth value. -/
  | boolText
  /-- Not an integer. -/
  | notInteger
  /-- A text that is no integer. -/
  | integerText
  /-- An integer out of all bounds. -/
  | integerSize
  /-- No finite number where an integer is asked. -/
  | notFinite
  /-- A number with a fraction where an integer is asked. -/
  | integerFraction
  /-- An integer below its lower bound. -/
  | tooSmall
  /-- An integer above its upper bound. -/
  | tooLarge
  deriving DecidableEq

/-- Something wrong with a value at a place. -/
structure Issue where
  /-- What is wrong. -/
  kind : IssueKind
  /-- The way from the outermost value to the place. -/
  loc : List Step
  /-- The value that was met; for a missing member, the object without it. -/
  input : Json

/-- The issue as seen from one step further out. -/
def Issue.under (step : Step) (i : Issue) : Issue := { i with loc := step :: i.loc }

/-- The outcome of a reading: a value, or all issues in order. -/
inductive Checked (α : Type) where
  /-- Nothing is wrong. -/
  | ok (value : α)
  /-- At least one thing is wrong. -/
  | refused (first : Issue) (more : List Issue)

namespace Checked

variable {α β : Type}

/-- One issue at the place itself. -/
def refuse (kind : IssueKind) (input : Json) : Checked α := .refused ⟨kind, [], input⟩ []

/-- The outcome with its value changed. -/
def map (f : α → β) : Checked α → Checked β
  | .ok a => .ok (f a)
  | .refused first more => .refused first more

/-- Both outcomes; the issues of the first stand before those of the second. -/
def seq (f : Checked (α → β)) (x : Checked α) : Checked β :=
  match f, x with
  | .ok f, .ok a => .ok (f a)
  | .ok _, .refused first more => .refused first more
  | .refused first more, .ok _ => .refused first more
  | .refused first more, .refused next others => .refused first (more ++ next :: others)

instance : Applicative Checked where
  pure := .ok
  seq f x := seq f (x ())

/-- The outcome as seen from one step further out. -/
def under (step : Step) : Checked α → Checked α
  | .ok a => .ok a
  | .refused first more => .refused (first.under step) (more.map (Issue.under step))

/-- A condition on the value; a value that fails it is one issue. -/
def ensure (x : Checked α) (p : α → Bool) (kind : IssueKind) (input : Json) : Checked α :=
  match x with
  | .ok a => if p a then .ok a else refuse kind input
  | .refused first more => .refused first more

/-- The outcomes of items from a position on. -/
def itemsFrom (read : Json → Checked α) : Nat → List Json → Checked (List α)
  | _, [] => .ok []
  | n, v :: rest => seq (map List.cons ((read v).under (.item n))) (itemsFrom read (n + 1) rest)

/-- The outcomes of members. -/
def members (read : Json → Checked α) : List (String × Json) → Checked (List (String × α))
  | [] => .ok []
  | (k, v) :: rest =>
    seq (map (fun a es => (k, a) :: es) ((read v).under (.member k))) (members read rest)

/-- The value of a partial reading, which has one issue where it gives none. -/
def ofOption (kind : IssueKind) (input : Json) : Option α → Checked α
  | some a => .ok a
  | none => .refuse kind input

/-- The value, where nothing is wrong. -/
def toOption : Checked α → Option α
  | .ok a => some a
  | .refused _ _ => none

/-- The issues of a reading, in order. -/
def issues : Checked α → List Issue
  | .ok _ => []
  | .refused first more => first :: more

@[simp] theorem issues_ok (a : α) : (Checked.ok a).issues = [] := rfl

@[simp] theorem issues_refuse (kind : IssueKind) (input : Json) :
    (Checked.refuse kind input : Checked α).issues = [⟨kind, [], input⟩] := rfl

@[simp] theorem issues_map (f : α → β) (x : Checked α) : (x.map f).issues = x.issues := by
  cases x <;> rfl

@[simp] theorem issues_seq (f : Checked (α → β)) (x : Checked α) :
    (f.seq x).issues = f.issues ++ x.issues := by
  cases f <;> cases x <;> simp [seq, issues]

@[simp] theorem issues_under (step : Step) (x : Checked α) :
    (x.under step).issues = x.issues.map (Issue.under step) := by
  cases x <;> rfl

end Checked

/-- A required member of an object. -/
def required {α : Type} (ms : List (String × Json)) (name : String) (read : Json → Checked α) :
    Checked α :=
  match Table.find name ms with
  | some v => (read v).under (.member name)
  | none => .refused ⟨.missing, [.member name], .object ms⟩ []

/-- A member of an object, or its default. -/
def optional {α : Type} (ms : List (String × Json)) (name : String) (default : α)
    (read : Json → Checked α) :
    Checked α :=
  match Table.find name ms with
  | some v => (read v).under (.member name)
  | none => .ok default

theorem issues_optional {α : Type} (ms : List (String × Json)) (name : String) (default : α)
    (read : Json → Checked α) : (optional ms name default read).issues =
      match Table.find name ms with
      | some v => (read v).issues.map (Issue.under (.member name))
      | none => [] := by
  unfold optional
  cases Table.find name ms with
  | none => rfl
  | some v => exact Checked.issues_under _ _

/-- The issue of a member that a shape does not have. -/
def extra (m : String × Json) : Issue := ⟨.extra, [.member m.1], m.2⟩

/-- One issue for each member that is not among `names`. -/
def noOthers (ms : List (String × Json)) (names : List String) : Checked Unit :=
  match ms.filter fun m => !names.contains m.1 with
  | [] => .ok ()
  | m :: others => .refused (extra m) (others.map extra)

end ContentGraph
