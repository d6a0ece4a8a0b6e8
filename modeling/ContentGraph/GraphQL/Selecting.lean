import ContentGraph.GraphQL.Input

/-!
# Selections of a surface

Whether what is selected of an object of a type is there to be selected: the fields exist,
what is given for them fits and is complete, fields with objects under them say what is
selected of those, and fragments are for the type they stand in. A fragment is looked at
once, whatever the number of places in which it is spread.
-/

namespace ContentGraph.GraphQL

/-- The field by which an object tells the name of its type. -/
def typenameField : String := "__typename"

/-- The type of the condition of a directive. -/
def conditionType : TypeRef := .nonNull (.named "Boolean")

/-- The argument of a directive that holds its condition. -/
def conditionName : String := "if"

/-- The directives that a selection may have. -/
def knownDirectives : List String := ["skip", "include"]

/-- A field of an object type. -/
def Surface.field? (s : Surface) (type name : String) : Option OutputField :=
  (s.object? type).bind fun fields =>
    if name = typenameField then some ⟨.nonNull textType, []⟩ else Table.find name fields

/-- Whether a directive of a selection is a known one with a condition. -/
def Directive.fits (s : Surface) (d : Directive) : Bool :=
  knownDirectives.contains d.name && d.arguments.map Argument.name = [conditionName]
    && d.arguments.all fun a => a.value.fits s conditionType

/-- Whether the directives of a selection are known ones, each once. -/
def directivesFit (s : Surface) (ds : List Directive) : Bool :=
  (ds.map Directive.name).Nodup && ds.all (Directive.fits s)

/-- Whether no value is given twice. -/
def areDistinct (arguments : List Argument) : Bool :=
  (arguments.map Argument.name).Nodup && arguments.all fun a => a.value.hasDistinctFields

/-- Whether arguments are ones that a field has, and all that have to be given are. -/
def argumentsFit (s : Surface) (arguments : List Argument) (defined : List (String × InputField)) :
    Bool :=
  (arguments.all fun a =>
    match Table.find a.name defined with
    | some f => a.value.fits s f.type
    | none => false)
    && defined.all fun d => !d.2.isRequired || arguments.any fun a => a.name = d.1

/-- A field of an object type that is asked for with known directives, and with what can and
has to be given for it. -/
def FieldCall.called? (s : Surface) (f : FieldCall) (type : String) : Option OutputField :=
  (s.field? type f.name).filter fun field =>
    directivesFit s f.directives && areDistinct f.arguments
      && argumentsFit s f.arguments field.arguments

/-- Whether the values of a field are objects. -/
def OutputField.hasObjects (s : Surface) (f : OutputField) : Bool := (s.object? f.type.name).isSome

mutual

/-- Whether a selection of a request is one for objects of a type. -/
def Selection.fits (s : Surface) (r : Request) : Selection → String → Bool
  | .leaf f, type => (f.called? s type).any fun field => !field.hasObjects s
  | .branch f selections, type =>
    (f.called? s type).any fun field =>
      field.hasObjects s && selectionsFit s r selections field.type.name
  | .spread fragment directives, type =>
    directivesFit s directives && (r.fragment? fragment).any fun f => f.condition = type
  | .inline condition? directives selections, type =>
    directivesFit s directives && condition?.all (· = type) && selectionsFit s r selections type

/-- Whether all selections of a request are ones for objects of a type. -/
def selectionsFit (s : Surface) (r : Request) : List Selection → String → Bool
  | [], _ => true
  | selection :: rest, type => selection.fits s r type && selectionsFit s r rest type

end

/-- Whether a fragment of a request is one for objects of its type. -/
def Fragment.fits (s : Surface) (r : Request) (f : Fragment) : Bool :=
  f.directives.isEmpty && (s.object? f.condition).isSome
    && selectionsFit s r f.selections f.condition

/-! ### Usages of variables -/

/-- The usages of variables in directives. -/
def usagesOfDirectives (s : Surface) (ds : List Directive) : List Usage :=
  ds.flatMap fun d => d.arguments.flatMap fun a => a.value.usages s (some conditionType)

/-- The usages of variables in what is given for a field, and in the directives of it. -/
def FieldCall.usages (s : Surface) (f : FieldCall) (field? : Option OutputField) : List Usage :=
  usagesOfDirectives s f.directives ++ f.arguments.flatMap fun a =>
    a.value.usages s
      ((field?.bind fun field => Table.find a.name field.arguments).map InputField.type)

mutual

/-- The usages of variables in a selection for objects of a type. -/
def Selection.usages (s : Surface) : Selection → String → List Usage
  | .leaf f, type => f.usages s (s.field? type f.name)
  | .branch f selections, type =>
    match s.field? type f.name with
    | some field => f.usages s (some field) ++ usagesOf s selections field.type.name
    | none => f.usages s none
  | .spread _ directives, _ => usagesOfDirectives s directives
  | .inline _ directives selections, type =>
    usagesOfDirectives s directives ++ usagesOf s selections type

/-- The usages of variables in several selections. -/
def usagesOf (s : Surface) : List Selection → String → List Usage
  | [], _ => []
  | selection :: rest, type => selection.usages s type ++ usagesOf s rest type

end

end ContentGraph.GraphQL
